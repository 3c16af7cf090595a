import ArenaLisp.Proofs.Phrases
import ArenaLisp.Proofs.Waiting

/-!
# Texts put together

Between tokens only layout may stand, and at the end of a text any white space. So a text that ends
with white space of another kind is whole on its own, and nothing can be read behind it. This is the
only way in which two texts, each read without an error, are not read as one when a newline is put
between them.
-/

namespace ArenaLisp

open Text Token

/-! ## Rows -/

/-- A row of items stays one when a newline and anything else is put behind it. -/
theorem Row.append_newline {a r : Bytes} {vs : List (Option Tree)} (h : Row a vs r) (b : Bytes) :
    Row (a ++ newline :: b) vs (r ++ newline :: b) := by
  obtain ⟨ts, hts, hvs⟩ := row_iff.mp h
  have hhead : ∀ x ∈ (newline :: b).head?, x = newline := fun x hx => (Option.some.inj hx).symm
  refine row_iff.mpr ⟨ts, hts.append_stop (fun x hx => ?_) fun _ _ => hhead, hvs⟩
  rw [hhead x hx]
  decide

/-- A row of items may have layout in front. -/
theorem Row.layout_append {l s rest : Bytes} {v : Option Tree} {vs : List (Option Tree)}
    (hl : ∀ b ∈ l, isLayout b = true) (h : Row s (v :: vs) rest) : Row (l ++ s) (v :: vs) rest := by
  have hnext : ∀ {t m}, Next s t m → Next (l ++ s) t m := (next_layout_append hl).mpr
  cases h with
  | comment hs h => exact .comment (hnext hs) h
  | number hs hr h => exact .number (hnext hs) hr h
  | symbol hs h => exact .symbol (hnext hs) h
  | list hs hinner hclose h => exact .list (hnext hs) hinner hclose h
  | quote hs hone h => exact .quote (hnext hs) hone h

/-- Nothing can be read behind white space that is not all layout. -/
theorem Token.scan?_of_blank_append {r : Bytes} (hr : isBlank r = true)
    (hnot : ¬∀ b ∈ r, isLayout b = true) (s : Bytes) : scan? (r ++ s) = none := by
  obtain ⟨cs, hcs, rfl⟩ := isBlank_iff.mp hr
  clear hr
  induction cs with
  | nil => exact absurd (fun _ hb => absurd hb List.not_mem_nil) hnot
  | cons c cs ih =>
      obtain ⟨hc, hcs⟩ := List.forall_mem_cons.mp hcs
      rw [encode_cons, List.append_assoc]
      rcases whiteSpace_cases c hc with hlayout | ⟨hstart, hhead⟩
      · have hlayout' : ∀ b ∈ String.utf8EncodeChar c, isLayout b = true := by simpa using hlayout
        rw [scan?, skipLayout, List.dropWhile_append_of_pos hlayout']
        refine ih hcs fun hall => hnot fun b hb => ?_
        rw [encode_cons] at hb
        exact (List.mem_append.mp hb).elim (hlayout' b) (hall b)
      · exact scan?_of_whiteSpace hstart hhead _

/-! ## Readings -/

section

variable {a b r r' : Bytes} {vs us : List (Option Tree)}

/-- Two texts are read as one where only layout is left of the first, or nothing is in the second. -/
theorem readAll_joined (ha : Row a vs r) (hr : isBlank r = true) (hb : Row b us r')
    (hr' : isBlank r' = true) (h : (∀ x ∈ r, isLayout x = true) ∨ isBlank b = true) :
    (readAll (a ++ newline :: b)).error = none ∧
    (readAll (a ++ newline :: b)).values = vs.reduceOption ++ us.reduceOption := by
  have hfirst := ha.append_newline b
  cases us with
  | nil =>
      cases hb
      have hrest : isBlank (r ++ newline :: b) = true :=
        isBlank_blanks hr (isBlank_append (u := [newline]) rfl hr')
      rw [hfirst.readAll hrest]
      exact ⟨rfl, (List.append_nil _).symm⟩
  | cons u us =>
      have hlayout : ∀ x ∈ r ++ [newline], isLayout x = true := by
        have hr := h.resolve_right (by simp [hb.not_blank])
        intro x hx
        rcases List.mem_append.mp hx with hx | hx
        · exact hr x hx
        · rw [List.mem_singleton.mp hx]
          rfl
      have hsecond := hb.layout_append hlayout
      rw [List.append_assoc] at hsecond
      rw [(hfirst.append hsecond).readAll hr']
      exact ⟨rfl, List.reduceOption_append vs (u :: us)⟩

/-- Otherwise reading ends where the first text ends. -/
theorem readAll_stuck (ha : Row a vs r) (hr : isBlank r = true)
    (hnot : ¬∀ x ∈ r, isLayout x = true) (hb : isBlank b = false) :
    readAll (a ++ newline :: b) =
      ⟨vs.reduceOption, r ++ newline :: b, some (.unexpectedEnd (a.length - r.length))⟩ := by
  have hrest : isBlank (r ++ newline :: b) = false := by
    by_contra hblank
    rw [(isBlank_append_newline (by simpa using hblank)).2] at hb
    cases hb
  have hitems : Item.all (r ++ newline :: b) = [] := Item.all_eq_nil fun item m h => by
    obtain ⟨t, s, hscan⟩ := h.scan
    rw [scan?_of_blank_append hr hnot] at hscan
    cases hscan
  have hsize : (a ++ newline :: b).length - (r ++ newline :: b).length = a.length - r.length := by
    simp only [List.length_append, List.length_cons]
    omega
  rw [readAll, (ha.append_newline b).ofItems, hitems, Reading.ofItems, hrest, hsize,
    List.append_nil]
  rfl

end

/-! ## Loading -/

namespace Interpreter

/-- Loading runs the expressions of a text, and fails if one of them does. -/
theorem load_eq_execAll {i : Interpreter} (hreads : i.reads = true) {text : Bytes} {ts : List Tree}
    (hread : readData text = .ok ts) (depth : Nat) (name : String) :
    i.load depth name (.ok text) =
      let (failed, turn, j) := i.execAll depth ts
      ({ turn with failure :=
          if failed = 0 then none else some (.expressionsFailed name failed ts.length) }, j) := by
  have hsource : readSource name (.ok text) = .ok ts := by rw [readSource, hread]
  have hfailure := execAll_failure depth ts i
  rw [load, hreads, hsource]
  by_cases hzero : (i.execAll depth ts).1 = 0
  · simp [hzero, ← hfailure]
  · simp [hzero]

/--
Whether loading a text does what loading two texts does, one after the other: it leaves the same
interpreter, writes and records the same, and fails exactly if one of the two does.
-/
def LoadsAs (both a b : Bytes) : Prop :=
  ∀ (i : Interpreter) (depth : Nat) (name : String),
    let first := i.load depth name (.ok a)
    let second := first.2.load depth name (.ok b)
    let whole := i.load depth name (.ok both)
    whole.2 = second.2 ∧ whole.1.output = first.1.output ++ second.1.output ∧
      whole.1.log = first.1.log ++ second.1.log ∧
      (whole.1.failure = none ↔ first.1.failure = none ∧ second.1.failure = none)

theorem loadsAs_of_readData {both a b : Bytes} {ts us : List Tree} (ha : readData a = .ok ts)
    (hb : readData b = .ok us) (hboth : readData both = .ok (ts ++ us)) : LoadsAs both a b := by
  intro i depth name
  dsimp only
  cases hreads : i.reads with
  | false => simp [load, hreads]
  | true =>
      have hreads' : (i.execAll depth ts).2.2.reads = true := by rw [execAll_reads, hreads]
      rw [load_eq_execAll hreads hboth, load_eq_execAll hreads ha, execAll_append]
      dsimp only
      rw [load_eq_execAll hreads' hb]
      refine ⟨rfl, rfl, rfl, ?_⟩
      simp

end Interpreter

/-! ## Both texts -/

/--
**Two texts are read as one, unless the first ends with white space that is no layout.** Of two texts
that are read without an error, with a newline between them, the whole is read without an error
exactly when what is left behind the last item of the first is layout, or the second is blank. It is
then read as the data of the first and those of the second, and loading it is loading one after the
other. Otherwise reading ends where it ended for the first text.
-/
theorem readAll_append_newline {a b : Bytes} (ha : (readAll a).error = none)
    (hb : (readAll b).error = none) :
    ((readAll (a ++ newline :: b)).error = none ↔
      (∀ x ∈ (readAll a).rest, isLayout x = true) ∨ isBlank b = true) ∧
    ((readAll (a ++ newline :: b)).error = none →
      (readAll (a ++ newline :: b)).values = (readAll a).values ++ (readAll b).values ∧
      Interpreter.LoadsAs (a ++ newline :: b) a b) ∧
    ((readAll (a ++ newline :: b)).error ≠ none → readAll (a ++ newline :: b) =
      ⟨(readAll a).values, (readAll a).rest ++ newline :: b, some (.unexpectedEnd (cursor a))⟩) := by
  have hreada : readData a = .ok (readAll a).values := readData_eq_ok.mpr ⟨ha, rfl⟩
  have hreadb : readData b = .ok (readAll b).values := readData_eq_ok.mpr ⟨hb, rfl⟩
  obtain ⟨vs, r, hrow, hr, -⟩ := readData_iff_row.mp hreada
  obtain ⟨us, r', hrow', hr', -⟩ := readData_iff_row.mp hreadb
  rw [cursor, hrow.readAll hr, hrow'.readAll hr'] at *
  by_cases h : (∀ x ∈ r, isLayout x = true) ∨ isBlank b = true
  · obtain ⟨herror, hvalues⟩ := readAll_joined hrow hr hrow' hr' h
    have hloads := Interpreter.loadsAs_of_readData hreada hreadb
      (readData_eq_ok.mpr ⟨herror, hvalues⟩)
    exact ⟨⟨fun _ => h, fun _ => herror⟩, fun _ => ⟨hvalues, hloads⟩, fun hne => absurd herror hne⟩
  · obtain ⟨hlayout, hblank⟩ := not_or.mp h
    have hstuck := readAll_stuck hrow hr hlayout (eq_false_of_ne_true hblank)
    have hne : (readAll (a ++ newline :: b)).error ≠ none := by
      rw [hstuck]
      simp
    exact ⟨⟨fun herror => absurd herror hne, fun h' => absurd h' h⟩,
      fun herror => absurd herror hne, fun _ => hstuck⟩

/-- A comment ends the first text, or a vertical tab. -/
theorem readAll_append_newline_endings :
    (readAll (bytes "(f 'x) ; )")).error = none ∧ (readAll (bytes "a\x0b")).error = none ∧
    (readAll (bytes "b\x0b")).error = none ∧
    (readAll (bytes "(f 'x) ; )" ++ newline :: bytes "b\x0b")).values =
      [.ofList [.atom "f", .quote (.atom "x")], .atom "b"] ∧
    Interpreter.LoadsAs (bytes "(f 'x) ; )" ++ newline :: bytes "b\x0b") (bytes "(f 'x) ; )")
      (bytes "b\x0b") ∧
    readAll (bytes "a\x0b" ++ newline :: bytes "b\x0b") =
      ⟨[.atom "a"], bytes "\x0b" ++ newline :: bytes "b\x0b", some (.unexpectedEnd 1)⟩ := by
  have h₁ : (readAll (bytes "(f 'x) ; )")).error = none := by decide +kernel
  have h₂ : (readAll (bytes "a\x0b")).error = none := by decide +kernel
  have h₃ : (readAll (bytes "b\x0b")).error = none := by decide +kernel
  obtain ⟨hiff, hboth, -⟩ := readAll_append_newline h₁ h₃
  obtain ⟨hiff', -, hends⟩ := readAll_append_newline h₂ h₃
  obtain ⟨hvalues, hloads⟩ := hboth (hiff.mpr (Or.inl (by decide +kernel)))
  have hstuck := hends (hiff'.not.mpr (by decide +kernel))
  refine ⟨h₁, h₂, h₃, hvalues.trans (by decide +kernel), hloads, hstuck.trans (by decide +kernel)⟩

/-- Two texts can be read without an error, and not with a newline between them. -/
theorem vertical_tab_not_joined :
    (readAll (bytes "a\x0b")).error = none ∧ (readAll (bytes "b")).error = none ∧
    (readAll (bytes "a\x0b" ++ newline :: bytes "b")).error ≠ none := by
  decide +kernel

end ArenaLisp
