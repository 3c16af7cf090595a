import ArenaLisp.Proofs.Gathering

/-!
# When more lines are waited for

Whether a text waits for more lines is told from its bytes, and whether it can be read from its
tokens. The two agree as far as parentheses go, since the count of them leaves out comments. The
quote mark at the end is looked for in the text as it stands, and there they differ in one way: a
text that is whole is waited upon exactly when the quote mark is the end of a comment.

The other way round nothing is missing. Lines that more lines would make whole are themselves whole,
or they are waited upon.
-/

namespace ArenaLisp

open Text Token

/-! ## Quote marks in comments -/

/-- Whether a byte has a meaning of its own, outside tokens of several bytes. -/
def isMark (b : UInt8) : Bool :=
  b == commentByte || b == openingByte || b == closingByte || b == quoteByte

theorem isMark_blank {s : Bytes} (hs : isBlank s = true) : ∀ b ∈ s, isMark b = false := by
  have hall : (whiteSpace.all fun c => (String.utf8EncodeChar c).all (!isMark ·)) = true := by
    decide +kernel
  obtain ⟨cs, hcs, rfl⟩ := isBlank_iff.mp hs
  intro b hb
  obtain ⟨c, hc, hb⟩ := List.mem_flatMap.mp hb
  simpa using List.all_eq_true.mp (List.all_eq_true.mp hall c (hcs c hc)) b hb

theorem openDepth_blank {s : Bytes} (hs : isBlank s = true) : openDepth false s = 0 := by
  have hmarks := isMark_blank hs
  rw [← List.append_nil s, openDepth_append (p := (!isMark ·)) (by simpa using hmarks) (by decide)]
  rfl

/-- Whether the last thing in a text, but for white space, is a quote mark in a comment. -/
def QuoteInComment (s : Bytes) : Prop :=
  ∃ before body blanks, s = before ++ commentByte :: (body ++ quoteByte :: blanks) ∧
    newline ∉ body ∧ isBlank blanks = true

theorem QuoteInComment.lastByte? {s : Bytes} (h : QuoteInComment s) :
    lastByte? s = some quoteByte := by
  obtain ⟨before, body, blanks, rfl, -, hb⟩ := h
  exact lastByte?_eq_quote.mpr ⟨before ++ commentByte :: body, blanks, by simp, hb⟩

theorem QuoteInComment.of_suffix {m s : Bytes} (hm : m <:+ s) (h : QuoteInComment m) :
    QuoteInComment s := by
  obtain ⟨before, body, blanks, rfl, hbody, hb⟩ := h
  obtain ⟨front, rfl⟩ := hm
  exact ⟨front ++ before, body, blanks, by rw [List.append_assoc], hbody, hb⟩

/-- Something behind a byte is behind all that the byte is not in. -/
theorem exists_of_append_eq {a b c d : Bytes} {x : UInt8} (h : a ++ x :: b = c ++ d) (hx : x ∉ c) :
    ∃ m, a = c ++ m ∧ d = m ++ x :: b := by
  rcases List.append_eq_append_iff.mp h with ⟨m, rfl, hm⟩ | ⟨m, ha, hd⟩
  · cases m with
    | nil => exact ⟨[], by simp, by simpa using hm.symm⟩
    | cons y m =>
        cases hm
        simp at hx
  · exact ⟨m, ha, hd⟩

/-- A quote mark before white space is behind the first token, is that token, or is in a comment. -/
theorem Token.Next.quoted {s rest before blanks : Bytes} {t : Token} (h : Next s t rest)
    (hs : s = before ++ quoteByte :: blanks) (hb : isBlank blanks = true) :
    (∃ m, rest = m ++ quoteByte :: blanks) ∨ (t = .quote ∧ rest = blanks) ∨ QuoteInComment s := by
  have hbehind : ∀ (lexeme : Bytes) {m rest}, lexeme ++ rest = m ++ quoteByte :: blanks →
      quoteByte ∉ lexeme → ∃ m, rest = m ++ quoteByte :: blanks := by
    intro lexeme m rest hcut hmem
    obtain ⟨m, -, hm⟩ := exists_of_append_eq hcut.symm hmem
    exact ⟨m, hm⟩
  obtain ⟨layout, s', rfl, hlayout, h⟩ := h
  obtain ⟨m, rfl, hm⟩ := exists_of_append_eq hs.symm fun hmem => by
    have hquote := hlayout quoteByte hmem
    revert hquote
    decide
  cases h with
  | @comment body rest hbody =>
      cases m with
      | nil => cases hm
      | cons b m =>
          obtain ⟨rfl, hcut⟩ := List.cons.inj hm
          by_cases hnew : newline ∈ m
          · -- the comment ends before the quote mark
            left
            rcases List.append_eq_append_iff.mp hcut with ⟨l, -, hrest⟩ | ⟨l, rfl, -⟩
            · exact ⟨l, hrest⟩
            · exact absurd rfl (hbody _ (List.mem_append_left _ hnew))
          · exact Or.inr (Or.inr ⟨layout, m, blanks, by rw [hm]; rfl, hnew, hb⟩)
  | opening => exact Or.inl (hbehind [openingByte] hm (by decide))
  | closing => exact Or.inl (hbehind [closingByte] hm (by decide))
  | quote =>
      cases m with
      | nil =>
          cases hm
          exact Or.inr (Or.inl ⟨rfl, rfl⟩)
      | cons b m =>
          cases hm
          exact Or.inl ⟨m, rfl⟩
  | number hn hl =>
      rw [hl.cut] at hm
      exact Or.inl (hbehind _ hm (not_mem_of_isTokenByte (by decide)
        (fun _ hs => isTokenByte_numeral hs) _ hl.mem))
  | symbol _ hname hl =>
      rw [hl.cut] at hm
      exact Or.inl (hbehind _ hm (not_mem_of_isTokenByte (by decide)
        (fun _ hs => isTokenByte_symbol hs) _ hl.mem))

theorem Row.not_blank {s rest : Bytes} {v : Option Tree} {vs : List (Option Tree)}
    (h : Row s (v :: vs) rest) : isBlank s = false := by
  obtain ⟨m, hone, -⟩ := h.reads.head
  obtain ⟨t, m, hscan⟩ := hone.scan
  by_contra hblank
  rw [scan?_of_blank (by simpa using hblank)] at hscan
  cases hscan

/-- A quote mark before white space is behind the items of a row, or in a comment. -/
theorem Row.quoted {s rest : Bytes} {vs : List (Option Tree)} (h : Row s vs rest)
    {blanks : Bytes} (hb : isBlank blanks = true) : ∀ before, s = before ++ quoteByte :: blanks →
    (∃ m, rest = m ++ quoteByte :: blanks) ∨ QuoteInComment s := by
  have hstep : ∀ {s s₁ t}, Next s t s₁ → t ≠ .quote → ∀ before, s = before ++ quoteByte :: blanks →
      (∃ m, s₁ = m ++ quoteByte :: blanks) ∨ QuoteInComment s := by
    intro s s₁ t hs ht before heq
    rcases hs.quoted heq hb with hm | ⟨hquote, -⟩ | hc
    · exact Or.inl hm
    · exact absurd hquote ht
    · exact Or.inr hc
  induction h with
  | nil => exact fun before heq => Or.inl ⟨before, heq⟩
  | comment hs _ ih =>
      intro before heq
      rcases hstep hs (by simp) before heq with ⟨m, hm⟩ | hc
      · exact (ih m hm).imp_right (·.of_suffix hs.suffix)
      · exact Or.inr hc
  | number hs _ _ ih =>
      intro before heq
      rcases hstep hs (by simp) before heq with ⟨m, hm⟩ | hc
      · exact (ih m hm).imp_right (·.of_suffix hs.suffix)
      · exact Or.inr hc
  | symbol hs _ ih =>
      intro before heq
      rcases hstep hs (by simp) before heq with ⟨m, hm⟩ | hc
      · exact (ih m hm).imp_right (·.of_suffix hs.suffix)
      · exact Or.inr hc
  | list hs hinner hclose _ ihinner ih =>
      intro before heq
      rcases hstep hs (by simp) before heq with ⟨m, hm⟩ | hc
      · rcases ihinner m hm with ⟨m, hm⟩ | hc
        · rcases hstep hclose (by simp) m hm with ⟨m, hm⟩ | hc
          · exact (ih m hm).imp_right
              (·.of_suffix ((hclose.suffix.trans hinner.suffix).trans hs.suffix))
          · exact Or.inr (hc.of_suffix (hinner.suffix.trans hs.suffix))
        · exact Or.inr (hc.of_suffix hs.suffix)
      · exact Or.inr hc
  | quote hs hone _ ihone ih =>
      intro before heq
      rcases hs.quoted heq hb with ⟨m, hm⟩ | ⟨-, rfl⟩ | hc
      · rcases ihone m hm with ⟨m, hm⟩ | hc
        · exact (ih m hm).imp_right (·.of_suffix (hone.suffix.trans hs.suffix))
        · exact Or.inr (hc.of_suffix hs.suffix)
      · -- something is quoted, so there is more than white space behind the mark
        rw [hone.not_blank] at hb
        cases hb
      · exact Or.inr hc

/-- **A text that can be read is waited upon when it ends with a quote mark in a comment.** -/
theorem isIncomplete_of_readData {text : Bytes} {ts : List Tree} (h : readData text = .ok ts) :
    isIncomplete text = true ↔ QuoteInComment text := by
  obtain ⟨vs, rest, hrow, hrest, -⟩ := readData_iff_row.mp h
  have hdepth : openDepth false text = 0 := hrow.openDepth.trans (openDepth_blank hrest)
  rw [isIncomplete, hdepth, decide_eq_false (by decide), Bool.false_or, beq_iff_eq]
  constructor
  · intro hlast
    obtain ⟨before, blanks, heq, hb⟩ := lastByte?_eq_quote.mp hlast
    refine (hrow.quoted hb before heq).resolve_left ?_
    rintro ⟨m, rfl⟩
    have hmark := isMark_blank hrest quoteByte (by simp)
    revert hmark
    decide
  · exact QuoteInComment.lastByte?

/-! ## Lines that are waited upon -/

namespace Repl

theorem unread_line (line : Bytes) : unread [] [line] = line := by
  simp [unread, joined]

theorem gather_eq {pending line text : Bytes} (htext : unread pending [line] = text) :
    gather pending line = if text.isEmpty then ([], none)
      else if isIncomplete text then (text, none) else ([], some text) := by
  rw [← htext, unread_cons]
  simp [gather, joined]

theorem step_of_incomplete {r : Repl} {line text : Bytes} (htext : unread r.pending [line] = text)
    (hwait : isIncomplete text = true) (depth : Nat) :
    r.step depth (.line line) = (.none, { r with pending := text }) := by
  refine step_of_waiting ?_
  rw [gather_eq htext, if_neg, if_pos hwait]
  intro hempty
  rw [List.isEmpty_iff.mp hempty] at hwait
  revert hwait
  decide

theorem step_of_complete {r : Repl} {line text : Bytes} {ts : List Tree}
    (htext : unread r.pending [line] = text) (hwait : isIncomplete text = false)
    (hread : readData text = .ok ts) (depth : Nat) :
    r.step depth (.line line) = after depth ts [] r := by
  have hgather := gather_eq htext
  rw [hwait] at hgather
  by_cases hempty : text.isEmpty = true
  · rw [if_pos hempty] at hgather
    obtain rfl := List.isEmpty_iff.mp hempty
    cases readData_nil.symm.trans hread
    exact step_of_waiting hgather
  · rw [if_neg hempty] at hgather
    exact step_of_ready hgather hread

/--
**What is whole is waited upon only for a quote mark in a comment.** A text that is read without an
error waits for more lines exactly when its last byte, but for white space, is a quote mark in a
comment. The line that makes it whole is then kept and nothing is run. Otherwise its expressions are
run at once.
-/
theorem accepted_waits_iff {text : Bytes} (h : (readAll text).error = none) :
    (isIncomplete text = true ↔ QuoteInComment text) ∧
    ∀ (r : Repl) (line : Bytes) (depth : Nat), unread r.pending [line] = text →
      (QuoteInComment text → r.step depth (.line line) = (.none, { r with pending := text })) ∧
      (¬QuoteInComment text →
        r.step depth (.line line) = after depth (readAll text).values [] r) := by
  have hread : readData text = .ok (readAll text).values := readData_eq_ok.mpr ⟨h, rfl⟩
  have hwait := isIncomplete_of_readData hread
  refine ⟨hwait, fun r line depth htext => ⟨fun hquote => ?_, fun hquote => ?_⟩⟩
  · exact step_of_incomplete htext (hwait.mpr hquote) depth
  · exact step_of_complete htext (eq_false_of_ne_true (hwait.not.mpr hquote)) hread depth

/-- A line ends with a quote mark in a comment, and another has one in a comment that goes on. -/
theorem accepted_waits_iff_comments : ∃ i,
    Interpreter.new [("list-args", .arguments)] true true = .ok i ∧
    (readAll (bytes "'y ; '")).error = none ∧ QuoteInComment (bytes "'y ; '") ∧
    step 9 ⟨i, [], 0⟩ (.line (bytes "'y ; '")) = (.none, ⟨i, bytes "'y ; '", 0⟩) ∧
    (readAll (bytes "'y ; isn't")).error = none ∧ ¬QuoteInComment (bytes "'y ; isn't") ∧
    step 9 ⟨i, [], 0⟩ (.line (bytes "'y ; isn't")) =
      after 9 [.quote (.atom "y")] [] ⟨i, [], 0⟩ := by
  obtain ⟨i, hi⟩ := Interpreter.new_arguments
  have h₁ : (readAll (bytes "'y ; '")).error = none := by decide +kernel
  have h₂ : (readAll (bytes "'y ; isn't")).error = none := by decide +kernel
  have hvalues : (readAll (bytes "'y ; isn't")).values = [.quote (.atom "y")] := by decide +kernel
  obtain ⟨hwait₁, hstep₁⟩ := accepted_waits_iff h₁
  obtain ⟨hwait₂, hstep₂⟩ := accepted_waits_iff h₂
  have hquote₁ := hwait₁.mp (by decide +kernel)
  have hquote₂ : ¬QuoteInComment (bytes "'y ; isn't") := hwait₂.not.mp (by decide +kernel)
  refine ⟨i, hi, h₁, hquote₁, (hstep₁ ⟨i, [], 0⟩ _ 9 (unread_line _)).1 hquote₁, h₂, hquote₂, ?_⟩
  rw [← hvalues]
  exact (hstep₂ ⟨i, [], 0⟩ _ 9 (unread_line _)).2 hquote₂

/-- A text can be read without an error and is waited upon still. -/
theorem quote_in_comment_waits :
    (readAll (bytes "y ; '")).error = none ∧ isIncomplete (bytes "y ; '") = true := by
  decide +kernel

/--
**Nothing that more lines would make whole is refused.** Lines that begin a text that is read without
an error are waited upon, or they are read without an error themselves. Then so is what follows, and
the data of the whole are those of both. So whatever such a line is typed after, it is kept or its
expressions are run.
-/
theorem continued_waits_or_reads {a b : Bytes} (h : (readAll (a ++ newline :: b)).error = none) :
    (isIncomplete a = true ∨ (readAll a).error = none ∧ (readAll b).error = none ∧
      (readAll (a ++ newline :: b)).values = (readAll a).values ++ (readAll b).values) ∧
    ∀ (r : Repl) (line : Bytes) (depth : Nat), unread r.pending [line] = a →
      r.step depth (.line line) = if isIncomplete a then (.none, { r with pending := a })
        else after depth (readAll a).values [] r := by
  by_cases hwait : isIncomplete a = true
  · refine ⟨Or.inl hwait, fun r line depth htext => ?_⟩
    rw [if_pos hwait]
    exact step_of_incomplete htext hwait depth
  · have hdone : isIncomplete a = false := eq_false_of_ne_true hwait
    obtain ⟨ts₁, ts₂, h₁, h₂, hvalues⟩ := readData_cut hdone (readData_eq_ok.mpr ⟨h, rfl⟩)
    obtain ⟨ha, rfl⟩ := readData_eq_ok.mp h₁
    obtain ⟨hb, rfl⟩ := readData_eq_ok.mp h₂
    refine ⟨Or.inr ⟨ha, hb, hvalues⟩, fun r line depth htext => ?_⟩
    rw [if_neg hwait]
    exact step_of_complete htext hdone h₁ depth

/-- A line closes a parenthesis only in a comment, and another opens one only there. -/
theorem continued_waits_or_reads_parentheses : ∃ i,
    Interpreter.new [("list-args", .arguments)] true true = .ok i ∧
    (readAll (bytes "(cons 1 ; ))" ++ newline :: bytes "'(2))")).error = none ∧
    step 9 ⟨i, [], 0⟩ (.line (bytes "(cons 1 ; ))")) = (.none, ⟨i, bytes "(cons 1 ; ))", 0⟩) ∧
    (readAll (bytes "x ; ((" ++ newline :: bytes "'y")).error = none ∧
    step 9 ⟨i, [], 0⟩ (.line (bytes "x ; ((")) = after 9 [.atom "x"] [] ⟨i, [], 0⟩ := by
  obtain ⟨i, hi⟩ := Interpreter.new_arguments
  have h₁ : (readAll (bytes "(cons 1 ; ))" ++ newline :: bytes "'(2))")).error = none := by
    decide +kernel
  have h₂ : (readAll (bytes "x ; ((" ++ newline :: bytes "'y")).error = none := by decide +kernel
  have hstep₁ := (continued_waits_or_reads h₁).2 ⟨i, [], 0⟩ _ 9 (unread_line _)
  have hstep₂ := (continued_waits_or_reads h₂).2 ⟨i, [], 0⟩ _ 9 (unread_line _)
  rw [if_pos (by decide +kernel)] at hstep₁
  rw [if_neg (by decide +kernel), show (readAll (bytes "x ; ((")).values = [.atom "x"] by
    decide +kernel] at hstep₂
  exact ⟨i, hi, h₁, hstep₁, h₂, hstep₂⟩

end Repl

end ArenaLisp
