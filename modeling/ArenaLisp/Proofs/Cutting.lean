import ArenaLisp.Proofs.Grammar
import ArenaLisp.Reader.Incomplete
import Mathlib.Data.List.ReduceOption

/-!
# Cutting a text at a line end

No token has a newline in it, and a comment ends before one. So a text that is cut at a newline is
cut between two tokens, and only what is open there can be lost: a list or a quote mark. A list
shows in the count of parentheses, and a quote mark is then the last thing before the cut. Where
neither is open, both parts are texts of the grammar, and the data of the whole are theirs.
-/

namespace ArenaLisp

open Text Token

/-! ## Tokens -/

namespace Token

theorem newline_not_mem_numeral : ∀ s, Spelled Numeral.spelling Numeral.Proper s → newline ∉ s :=
  not_mem_of_isTokenByte (by decide) fun _ hs => isTokenByte_numeral hs

theorem newline_not_mem_symbol : ∀ s, Spelled bytes IsSymbol s → newline ∉ s :=
  not_mem_of_isTokenByte (by decide) fun _ hs => isTokenByte_symbol hs

theorem Lexes.of_append_newline {a b rest : Bytes} {t : Token} (ha : a ≠ [])
    (h : Lexes (a ++ newline :: b) t rest) : ∃ r, rest = r ++ newline :: b ∧ Lexes a t r := by
  obtain ⟨x, a, rfl⟩ := List.exists_cons_of_ne_nil ha
  generalize hs : x :: a ++ newline :: b = s at h
  cases h with
  | @comment body rest hbody hrest =>
      obtain ⟨rfl, hcut⟩ := List.cons.inj hs
      obtain ⟨r, rfl⟩ := Longest.prefix_of_not_mem (a := a) (x := newline) (b := b)
        ⟨rest, hcut.symm⟩ fun hmem => hbody _ hmem rfl
      have hr : r ++ newline :: b = rest :=
        List.append_cancel_left ((List.append_assoc body r _).symm.trans hcut)
      subst hr
      refine ⟨r, rfl, .comment hbody fun y hy => hrest y ?_⟩
      cases r with
      | nil => cases hy
      | cons z r => exact hy
  | opening =>
      cases hs
      exact ⟨a, rfl, .opening⟩
  | closing =>
      cases hs
      exact ⟨a, rfl, .closing⟩
  | quote =>
      cases hs
      exact ⟨a, rfl, .quote⟩
  | number hn hl =>
      rw [← hs] at hl
      obtain ⟨r, rfl, hr⟩ := (Longest.append_iff newline_not_mem_numeral).mp hl
      exact ⟨r, rfl, .number hn hr⟩
  | symbol hnone hname hl =>
      rw [← hs] at hl hnone
      obtain ⟨r, rfl, hr⟩ := (Longest.append_iff newline_not_mem_symbol).mp hl
      exact ⟨r, rfl, .symbol (fun l hp => hnone l (hp.trans (List.prefix_append _ _))) hname hr⟩

/--
A token stays the same when something is put behind it that begins with no token byte, or, directly
behind a comment, with a newline.
-/
theorem Lexes.append {a r z : Bytes} {t : Token} (h : Lexes a t r)
    (hz : ∀ x ∈ z.head?, isTokenByte x = false)
    (hcomment : t = .comment → r = [] → ∀ x ∈ z.head?, x = newline) :
    Lexes (a ++ z) t (r ++ z) := by
  obtain _ | ⟨x, z⟩ := z
  · rwa [List.append_nil, List.append_nil]
  have hx := hz x rfl
  have hnumeral := not_mem_of_isTokenByte hx fun _ hs => isTokenByte_numeral hs
  cases h with
  | @comment body _ hbody hrest =>
      rw [List.cons_append, List.append_assoc]
      refine .comment hbody fun y hy => ?_
      cases r with
      | nil => exact hcomment rfl rfl y hy
      | cons b r => exact hrest y hy
  | opening => exact .opening
  | closing => exact .closing
  | quote => exact .quote
  | number hn hl => exact .number hn ((Longest.append_iff hnumeral).mpr ⟨r, rfl, hl⟩)
  | symbol hnone hname hl =>
      -- a numeral that begins here would end before the byte
      refine .symbol (fun l hp hl => ?_) hname ((Longest.append_iff
        (not_mem_of_isTokenByte hx fun _ hs => isTokenByte_symbol hs)).mpr ⟨r, rfl, hl⟩)
      exact hnone l (Longest.prefix_of_not_mem hp (hnumeral l hl)) hl

theorem Lexes.append_newline {a r : Bytes} {t : Token} (h : Lexes a t r) (b : Bytes) :
    Lexes (a ++ newline :: b) t (r ++ newline :: b) := by
  have hhead : ∀ x ∈ (newline :: b).head?, x = newline := fun x hx => (Option.some.inj hx).symm
  refine h.append (fun x hx => ?_) fun _ _ => hhead
  rw [hhead x hx]
  decide

/-- What comes before a newline is cut into tokens as if nothing came behind. -/
theorem lexes_append_newline {a b rest : Bytes} {t : Token} (ha : a ≠ []) :
    Lexes (a ++ newline :: b) t rest ↔ ∃ r, rest = r ++ newline :: b ∧ Lexes a t r := by
  constructor
  · exact Lexes.of_append_newline ha
  · rintro ⟨r, rfl, h⟩
    exact h.append_newline b

theorem next_iff {s rest : Bytes} {t : Token} : Next s t rest ↔ Lexes (skipLayout s) t rest := by
  rw [← scan?_eq_some, scan?, scanHere?_eq_some]

/-- A token of a text that is cut at a newline is in the first part, or in the second. -/
theorem next_append_newline {a b rest : Bytes} {t : Token} (h : Next (a ++ newline :: b) t rest) :
    (∃ r, rest = r ++ newline :: b ∧ Next a t r) ∨
      ((∀ x ∈ a, isLayout x = true) ∧ Next b t rest) := by
  simp only [next_iff] at h ⊢
  by_cases ha : ∀ x ∈ a, isLayout x = true
  · rw [skipLayout, List.dropWhile_append_of_pos ha] at h
    exact Or.inr ⟨ha, h⟩
  · have hne : skipLayout a ≠ [] := fun h => ha (List.dropWhile_eq_nil_iff.mp h)
    have hskip : skipLayout (a ++ newline :: b) = skipLayout a ++ newline :: b := by
      rw [skipLayout, skipLayout, List.dropWhile_append, if_neg (by rwa [List.isEmpty_iff])]
    rw [hskip, lexes_append_newline hne] at h
    exact Or.inl h

/-! ## Depth -/

/-- What a token adds to the count of open parentheses. -/
def depth : Token → Int
  | .opening => 1
  | .closing => -1
  | .comment | .quote | .number _ | .symbol _ => 0

end Token

/-- Bytes of a kind that has neither parentheses nor the comment mark do not count. -/
theorem openDepth_append {p : UInt8 → Bool} {l : Bytes} (hl : ∀ b ∈ l, p b = true)
    (hp : p commentByte = false ∧ p openingByte = false ∧ p closingByte = false) (s : Bytes) :
    openDepth false (l ++ s) = openDepth false s := by
  induction l with
  | nil => rfl
  | cons b l ih =>
      obtain ⟨hb, hl⟩ := List.forall_mem_cons.mp hl
      have hne : ∀ x, p x = false → b ≠ x := by
        rintro x hx rfl
        rw [hx] at hb
        cases hb
      rw [List.cons_append, openDepth]
      simp [hne _ hp.1, hne _ hp.2.1, hne _ hp.2.2, ih hl]

theorem openDepth_comment {body rest : Bytes} (hbody : ∀ b ∈ body, b ≠ newline)
    (hrest : ∀ b ∈ rest.head?, b = newline) :
    openDepth true (body ++ rest) = openDepth false rest := by
  induction body with
  | nil =>
      cases rest with
      | nil => rfl
      | cons b rest =>
          cases hrest b rfl
          rfl
  | cons b body ih =>
      obtain ⟨hb, hbody⟩ := List.forall_mem_cons.mp hbody
      rw [List.cons_append, openDepth, if_neg (by simpa using hb)]
      exact ih hbody

theorem Token.Lexes.openDepth {s rest : Bytes} {t : Token} (h : Lexes s t rest) :
    openDepth false s = t.depth + openDepth false rest := by
  cases h with
  | comment hbody hrest =>
      rw [depth, zero_add]
      exact openDepth_comment hbody hrest
  | opening => exact add_comm _ _
  | closing => exact Int.sub_eq_add_neg.trans (add_comm _ _)
  | quote => exact (zero_add _).symm
  | number _ hl =>
      rw [hl.cut, openDepth_append (isTokenByte_numeral hl.mem) (by decide), depth, zero_add]
  | symbol _ _ hl =>
      rw [hl.cut, openDepth_append (isTokenByte_symbol hl.mem) (by decide), depth, zero_add]

theorem Token.Next.openDepth {s rest : Bytes} {t : Token} (h : Next s t rest) :
    openDepth false s = t.depth + openDepth false rest := by
  obtain ⟨layout, s', rfl, hlayout, h⟩ := h
  rw [openDepth_append hlayout (by decide), h.openDepth]

/-- **Whole items do not change the count of open parentheses.** -/
theorem Row.openDepth {s rest : Bytes} {vs : List (Option Tree)} (h : Row s vs rest) :
    openDepth false s = openDepth false rest := by
  induction h with
  | nil => rfl
  | comment hs _ ih => rw [hs.openDepth, ih, depth, zero_add]
  | number hs _ _ ih => rw [hs.openDepth, ih, depth, zero_add]
  | symbol hs _ ih => rw [hs.openDepth, ih, depth, zero_add]
  | list hs _ hclose _ ihinner ih =>
      rw [hs.openDepth, ihinner, hclose.openDepth, ih, depth, depth]
      omega
  | quote hs _ _ ihone ih => rw [hs.openDepth, ihone, ih, depth, zero_add]

/-! ## What is open at a line end -/

/-- Whether the last thing in a text, but for layout, is a quote mark. -/
def EndsWithQuote (s : Bytes) : Prop :=
  ∃ before layout, s = before ++ quoteByte :: layout ∧ ∀ b ∈ layout, isLayout b = true

/-- Whether a list or a quote mark is open at the end of a text. -/
def Open (s : Bytes) : Prop :=
  0 < openDepth false s ∨ openDepth false s = 0 ∧ EndsWithQuote s

/-- What is open stays open behind something that is not. -/
theorem Open.of_suffix {m s : Bytes} (hm : m <:+ s)
    (hdepth : openDepth false s = openDepth false m) (h : Open m) : Open s := by
  rw [Open, hdepth]
  refine h.imp id fun ⟨hzero, hquote⟩ => ⟨hzero, ?_⟩
  obtain ⟨before, layout, rfl, hlayout⟩ := hquote
  obtain ⟨front, rfl⟩ := hm
  exact ⟨front ++ before, layout, by rw [List.append_assoc], hlayout⟩

theorem openDepth_layout {l : Bytes} (hl : ∀ x ∈ l, isLayout x = true) : openDepth false l = 0 := by
  rw [← List.append_nil l, openDepth_append hl (by decide), openDepth]

/-- A list that is not closed is open. -/
theorem Open.of_list {s m r : Bytes} {vs : List (Option Tree)} (hs : Next s .opening m)
    (h : Row m vs r) (hr : ∀ x ∈ r, isLayout x = true) : Open s := by
  left
  rw [hs.openDepth, h.openDepth, openDepth_layout hr, depth]
  decide

/-- A quote mark that nothing follows is open. -/
theorem Open.of_quote {s m : Bytes} (hs : Next s .quote m) (hm : ∀ x ∈ m, isLayout x = true) :
    Open s := by
  refine Or.inr ⟨by rw [hs.openDepth, openDepth_layout hm, depth, zero_add], ?_⟩
  obtain ⟨layout, _, rfl, -, h⟩ := hs
  cases h
  exact ⟨layout, m, rfl, hm⟩

/-! ## White space at the end -/

theorem trimReversed_blank {c : UInt8} (hc : isBlankByte c = true) (s : Bytes) :
    trimReversed (c :: s) = trimReversed s := by
  rcases s with _ | ⟨b, _ | ⟨a, rest⟩⟩ <;> simp only [trimReversed, if_pos hc]

theorem trimReversed_quote (s : Bytes) : trimReversed (quoteByte :: s) = quoteByte :: s := by
  have hbyte : isBlankByte quoteByte = false := rfl
  have hpair : ∀ b, isBlankPair b quoteByte = false := fun b => by
    rw [isBlankPair, Bool.and_eq_false_iff]
    exact Or.inr (by decide)
  have htriple : ∀ a b, isBlankTriple a b quoteByte = false := fun a b => by
    simp [isBlankTriple, quoteByte]
  rcases s with _ | ⟨b, _ | ⟨a, rest⟩⟩
  · rfl
  · simp [trimReversed, hbyte, hpair]
  · simp [trimReversed, hbyte, hpair, htriple]

theorem isBlankByte_layout {b : UInt8} (hb : isLayout b = true) : isBlankByte b = true := by
  simp only [isLayout, Bool.or_eq_true, beq_iff_eq] at hb
  rcases hb with ((rfl | rfl) | rfl) | rfl <;> rfl

theorem isBlank_layout {s : Bytes} (hs : ∀ x ∈ s, isLayout x = true) : isBlank s = true := by
  induction s with
  | nil => rfl
  | cons x s ih =>
      obtain ⟨hx, hs⟩ := List.forall_mem_cons.mp hs
      exact isBlank_append (u := [x]) (isBlankByte_layout hx) (ih hs)

/-- A blank at the end is trimmed, where no shorter one stands at its end. -/
theorem trimReversed_unit {u : Bytes} (hu : isBlankUnit u = true)
    (hone : isBlankUnit u.tail = false) (htwo : isBlankUnit u.tail.tail = false) (s : Bytes) :
    trimReversed (u.reverse ++ s) = trimReversed s := by
  rcases u with _ | ⟨a, _ | ⟨b, _ | ⟨c, _ | ⟨d, u⟩⟩⟩⟩
  · cases hu
  · exact trimReversed_blank hu s
  · cases s <;> simp_all [isBlankUnit, trimReversed]
  · simp_all [isBlankUnit, trimReversed]
  · cases hu

/-- White space at the end is trimmed. -/
theorem trimReversed_whiteSpace {c : Char} (hc : c ∈ whiteSpace) (s : Bytes) :
    trimReversed ((String.utf8EncodeChar c).reverse ++ s) = trimReversed s := by
  have hall : (whiteSpace.all fun c => !isBlankUnit (String.utf8EncodeChar c).tail &&
      !isBlankUnit (String.utf8EncodeChar c).tail.tail) = true := by decide +kernel
  obtain ⟨hone, htwo⟩ := Bool.and_eq_true_iff.mp (List.all_eq_true.mp hall c hc)
  exact trimReversed_unit (isBlankUnit_encode c hc) (by simpa using hone) (by simpa using htwo) s

theorem trimReversed_blanks {blanks : Bytes} (hb : isBlank blanks = true) (s : Bytes) :
    trimReversed (blanks.reverse ++ s) = trimReversed s := by
  obtain ⟨cs, hcs, rfl⟩ := isBlank_iff.mp hb
  clear hb
  induction cs generalizing s with
  | nil => rfl
  | cons c cs ih =>
      obtain ⟨hc, hcs⟩ := List.forall_mem_cons.mp hcs
      rw [encode_cons, List.reverse_append, List.append_assoc, ih _ hcs, trimReversed_whiteSpace hc]

theorem isBlank_blanks {a b : Bytes} (ha : isBlank a = true) (hb : isBlank b = true) :
    isBlank (a ++ b) = true := by
  obtain ⟨cs, hcs, rfl⟩ := isBlank_iff.mp ha
  obtain ⟨ds, hds, rfl⟩ := isBlank_iff.mp hb
  refine isBlank_iff.mpr ⟨cs ++ ds, fun c hc => ?_, (encode_append cs ds).symm⟩
  exact (List.mem_append.mp hc).elim (hcs c) (hds c)

/-- What is trimmed is white space. -/
theorem trimReversed_spec (s : Bytes) :
    ∃ blanks, isBlank blanks = true ∧ s = blanks.reverse ++ trimReversed s := by
  have hnone : ∀ s : Bytes, ∃ blanks, isBlank blanks = true ∧ s = blanks.reverse ++ s :=
    fun s => ⟨[], rfl, rfl⟩
  have hunit : ∀ {u s t : Bytes}, isBlankUnit u = true →
      (∃ blanks, isBlank blanks = true ∧ s = blanks.reverse ++ t) →
      ∃ blanks, isBlank blanks = true ∧ u.reverse ++ s = blanks.reverse ++ t := by
    rintro u s t hu ⟨blanks, hb, rfl⟩
    refine ⟨blanks ++ u, isBlank_blanks hb ?_, by simp⟩
    have hend := isBlank_append hu (s := []) rfl
    rwa [List.append_nil] at hend
  fun_induction trimReversed s with
  | case1 => exact hnone []
  | case2 c hc => exact hunit (u := [c]) hc (hnone [])
  | case3 c hc => exact hnone [c]
  | case4 c b hc ih => exact hunit (u := [c]) hc ih
  | case5 c b hc hbc => exact hunit (u := [b, c]) hbc (hnone [])
  | case6 c b hc hbc => exact hnone [c, b]
  | case7 c b a rest hc ih => exact hunit (u := [c]) hc ih
  | case8 c b a rest hc hbc ih => exact hunit (u := [b, c]) hbc ih
  | case9 c b a rest hc hbc habc ih => exact hunit (u := [a, b, c]) habc ih
  | case10 c b a rest hc hbc habc => exact hnone (c :: b :: a :: rest)

/-- The last byte but for white space is a quote mark where one stands before white space. -/
theorem lastByte?_eq_quote {s : Bytes} : lastByte? s = some quoteByte ↔
    ∃ before blanks, s = before ++ quoteByte :: blanks ∧ isBlank blanks = true := by
  constructor
  · intro h
    obtain ⟨blanks, hb, hs⟩ := trimReversed_spec s.reverse
    obtain ⟨before, hbefore⟩ := List.head?_eq_some_iff.mp h
    refine ⟨before.reverse, blanks, ?_, hb⟩
    rw [← List.reverse_reverse s, hs, hbefore]
    simp
  · rintro ⟨before, blanks, rfl, hb⟩
    rw [Text.lastByte?, List.reverse_append, List.reverse_cons, List.append_assoc,
      trimReversed_blanks hb, List.singleton_append, trimReversed_quote]
    rfl

theorem EndsWithQuote.lastByte? {s : Bytes} (h : EndsWithQuote s) :
    lastByte? s = some quoteByte := by
  obtain ⟨before, layout, rfl, hlayout⟩ := h
  exact lastByte?_eq_quote.mpr ⟨before, layout, rfl, isBlank_layout hlayout⟩

/-- More lines are waited for wherever something is open. -/
theorem Open.isIncomplete {s : Bytes} (h : Open s) : isIncomplete s = true := by
  rw [ArenaLisp.isIncomplete, Bool.or_eq_true, decide_eq_true_iff, beq_iff_eq]
  exact h.imp id fun hquote => hquote.2.lastByte?

/-! ## The cut -/

theorem Token.Next.suffix {s rest : Bytes} {t : Token} (h : Next s t rest) : rest <:+ s := by
  obtain ⟨layout, s', rfl, -, h⟩ := h
  refine List.IsSuffix.trans ?_ (List.suffix_append layout s')
  cases h with
  | @comment body => exact ⟨commentByte :: body, rfl⟩
  | opening => exact List.suffix_cons _ _
  | closing => exact List.suffix_cons _ _
  | quote => exact List.suffix_cons _ _
  | number _ hl => exact ⟨_, hl.cut.symm⟩
  | symbol _ _ hl => exact ⟨_, hl.cut.symm⟩

theorem Row.suffix {s rest : Bytes} {vs : List (Option Tree)} (h : Row s vs rest) : rest <:+ s := by
  induction h with
  | nil => exact List.suffix_refl _
  | comment hs _ ih => exact ih.trans hs.suffix
  | number hs _ _ ih => exact ih.trans hs.suffix
  | symbol hs _ ih => exact ih.trans hs.suffix
  | list hs _ hclose _ ihinner ih => exact ((ih.trans hclose.suffix).trans ihinner).trans hs.suffix
  | quote hs _ _ ihone ih => exact (ih.trans ihone).trans hs.suffix

/--
How a row of items stands to a cut. It ends before the cut, or some of its items end before it
and the others begin behind it, or something was open there.
-/
inductive Cut (a b : Bytes) (vs : List (Option Tree)) (rest : Bytes) : Prop where
  | before (r : Bytes) : rest = r ++ newline :: b → Row a vs r → Cut a b vs rest
  | between (vs₁ vs₂ : List (Option Tree)) (r : Bytes) : vs = vs₁ ++ vs₂ → Row a vs₁ r →
      (∀ x ∈ r, isLayout x = true) → Row b vs₂ rest → Cut a b vs rest
  | opened : Open a → Cut a b vs rest

namespace Cut

variable {a b m rest : Bytes} {vs us : List (Option Tree)}

/-- Whole items in front of what is cut do not matter. -/
theorem append (hrow : Row a us m) (h : Cut m b vs rest) : Cut a b (us ++ vs) rest := by
  cases h with
  | before r hr h => exact .before r hr (hrow.append h)
  | between vs₁ vs₂ r hvs h₁ hr h₂ =>
      refine .between (us ++ vs₁) vs₂ r ?_ (hrow.append h₁) hr h₂
      rw [hvs, List.append_assoc]
  | opened h => exact .opened (h.of_suffix hrow.suffix hrow.openDepth)

/-- Items that begin behind the cut are not cut. -/
theorem behind (ha : ∀ x ∈ a, isLayout x = true) (h : Row b vs rest) : Cut a b vs rest :=
  .between [] vs a rfl .nil ha h

end Cut

/-- **A row of items is cut between two of them, or something is open.** -/
theorem Row.cut {s rest : Bytes} {vs : List (Option Tree)} (h : Row s vs rest) :
    ∀ a b, s = a ++ newline :: b → Cut a b vs rest := by
  induction h with
  | nil =>
      rintro a b rfl
      exact .before a rfl .nil
  | comment hs hrow ih =>
      rintro a b rfl
      rcases next_append_newline hs with ⟨m, rfl, hm⟩ | ⟨ha, hb⟩
      · exact (ih m b rfl).append (.comment hm .nil)
      · exact .behind ha (.comment hb hrow)
  | number hs hr hrow ih =>
      rintro a b rfl
      rcases next_append_newline hs with ⟨m, rfl, hm⟩ | ⟨ha, hb⟩
      · exact (ih m b rfl).append (.number hm hr .nil)
      · exact .behind ha (.number hb hr hrow)
  | symbol hs hrow ih =>
      rintro a b rfl
      rcases next_append_newline hs with ⟨m, rfl, hm⟩ | ⟨ha, hb⟩
      · exact (ih m b rfl).append (.symbol hm .nil)
      · exact .behind ha (.symbol hb hrow)
  | @list s s₁ s₂ s₃ rest inner items hs hinner hclose hrow ihinner ih =>
      rintro a b rfl
      rcases next_append_newline hs with ⟨m, rfl, hm⟩ | ⟨ha, hb⟩
      · cases ihinner m b rfl with
        | before r hr hrinner =>
            -- the cut is behind the row inside, so only the parenthesis can be cut off
            subst hr
            rcases next_append_newline hclose with ⟨r', rfl, hr'⟩ | ⟨hr, -⟩
            · exact (ih r' b rfl).append (.list hm hrinner hr' .nil)
            · exact .opened (.of_list hm hrinner hr)
        | between _ _ r _ hrinner hr _ => exact .opened (.of_list hm hrinner hr)
        | opened hopen =>
            refine .opened (Or.inl ?_)
            rw [hm.openDepth, depth]
            rcases hopen with h | ⟨h, -⟩ <;> omega
      · exact .behind ha (.list hb hinner hclose hrow)
  | @quote s s₁ s₂ rest t items hs hone hrow ihone ih =>
      rintro a b rfl
      rcases next_append_newline hs with ⟨m, rfl, hm⟩ | ⟨ha, hb⟩
      · cases ihone m b rfl with
        | before r hr hrone =>
            subst hr
            exact (ih r b rfl).append (.quote hm hrone .nil)
        | between vs₁ vs₂ r hvs hrone hr hrest =>
            -- the one value is before the cut or behind it, and then the mark is left alone
            rcases List.singleton_eq_append_iff.mp hvs with ⟨rfl, rfl⟩ | ⟨rfl, rfl⟩
            · cases hrone
              exact .opened (.of_quote hm hr)
            · cases hrest
              exact .between [_] items r rfl (.quote hm hrone .nil) hr hrow
        | opened hopen =>
            refine .opened (hopen.of_suffix hm.suffix ?_)
            rw [hm.openDepth, depth, zero_add]
      · exact .behind ha (.quote hb hone hrow)

/-! ## Reading what is cut -/

theorem newline_whiteSpace {c : Char} (hc : c ∈ whiteSpace)
    (h : newline ∈ String.utf8EncodeChar c) : c = '\n' := by
  have hall : (whiteSpace.all fun c => !(String.utf8EncodeChar c).contains newline || c == '\n') =
      true := by decide +kernel
  have hcase := List.all_eq_true.mp hall c hc
  simpa [h] using hcase

/-- A newline in blank text is a blank. -/
theorem isBlank_append_newline {a b : Bytes} (h : isBlank (a ++ newline :: b) = true) :
    isBlank a = true ∧ isBlank b = true := by
  simp only [isBlank_iff] at h ⊢
  obtain ⟨cs, hcs, heq⟩ := h
  induction cs generalizing a with
  | nil => simp at heq
  | cons c cs ih =>
      obtain ⟨hc, hcs'⟩ := List.forall_mem_cons.mp hcs
      rw [encode_cons] at heq
      rcases List.append_eq_append_iff.mp heq with ⟨m, hm, hb⟩ | ⟨m, rfl, hm⟩
      · cases m with
        | nil =>
            rw [List.append_nil] at hm
            exact ⟨⟨[c], by simpa using hc, by simp [hm]⟩, (ih (a := []) hcs' hb).2⟩
        | cons x m =>
            obtain ⟨rfl, rfl⟩ := List.cons.inj hb
            obtain rfl := newline_whiteSpace hc (by simp [hm])
            obtain ⟨rfl, hm⟩ | ⟨_, hm⟩ := List.cons_eq_append_iff.mp hm
            · cases hm
              exact ⟨⟨[], by simp, rfl⟩, cs, hcs', rfl⟩
            · simp at hm
      · obtain ⟨⟨cs₁, hcs₁, rfl⟩, hb⟩ := ih hcs' hm.symm
        exact ⟨⟨c :: cs₁, List.forall_mem_cons.mpr ⟨hc, hcs₁⟩, rfl⟩, hb⟩

/--
**Where nothing is waited for, a text can be cut.** If a text is read without an error, so are its
two parts, and its data are those of the first and then those of the second.
-/
theorem readData_cut {a b : Bytes} {ts : List Tree} (ha : isIncomplete a = false)
    (h : readData (a ++ newline :: b) = .ok ts) :
    ∃ ts₁ ts₂, readData a = .ok ts₁ ∧ readData b = .ok ts₂ ∧ ts = ts₁ ++ ts₂ := by
  simp only [readData_iff_row] at h ⊢
  obtain ⟨vs, rest, hrow, hrest, rfl⟩ := h
  cases hrow.cut a b rfl with
  | before r hr h =>
      subst hr
      obtain ⟨hr, hb⟩ := isBlank_append_newline hrest
      exact ⟨vs.reduceOption, [], ⟨vs, r, h, hr, rfl⟩, ⟨[], b, .nil, hb, rfl⟩,
        (List.append_nil _).symm⟩
  | between vs₁ vs₂ r hvs h₁ hr h₂ =>
      subst hvs
      exact ⟨_, _, ⟨vs₁, r, h₁, isBlank_layout hr, rfl⟩, ⟨vs₂, rest, h₂, hrest, rfl⟩,
        List.reduceOption_append vs₁ vs₂⟩
  | opened hopen =>
      rw [hopen.isIncomplete] at ha
      cases ha

end ArenaLisp
