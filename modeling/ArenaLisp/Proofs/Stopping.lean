import ArenaLisp.Proofs.Phrases

/-!
# Where reading stops

Reading stops behind the last item that is whole. Of a list that is not closed, or a quote mark with
nothing behind it, everything is given back, however much was read inside. What was taken is read by
itself as the same data, since no token needs what is behind it. Whether reading has stopped too
early is told by what is left.
-/

namespace ArenaLisp

open Text Token

/-! ## Faults -/

namespace Item

theorem fault_mem_of_data {items : List Item} {e : ReadError} (h : data items = .error e) :
    .fault e ∈ items := by
  induction items with
  | nil => cases h
  | cons item items ih =>
      cases item with
      | comment => exact List.mem_cons_of_mem _ (ih h)
      | fault e' =>
          cases h
          exact List.mem_cons_self
      | datum t =>
          rw [data] at h
          cases hd : data items with
          | ok ts =>
              rw [hd] at h
              cases h
          | error e' =>
              rw [hd] at h
              cases h
              exact List.mem_cons_of_mem _ (ih hd)

/-- A fault is in a numeral or behind a quote mark, and never that the text has ended. -/
theorem Reads.fault_ne {s rest : Bytes} {items : List Item} (h : Reads s items rest)
    (offset : Nat) : .fault (.unexpectedEnd offset) ∉ items := by
  induction h with
  | nil => exact List.not_mem_nil
  | comment _ _ ih | symbol _ _ ih =>
      refine fun hmem => (List.mem_cons.mp hmem).elim ?_ ih
      exact fun heq => by cases heq
  | @number s s₁ rest n items _ _ ih =>
      refine fun hmem => (List.mem_cons.mp hmem).elim (fun heq => ?_) ih
      rw [ofNumeral, Numeral.value] at heq
      split at heq
      · cases heq
      · rename_i e he
        cases heq
        split at he <;> split at he <;> cases he
  | @list s s₁ s₂ s₃ rest inner items _ _ _ _ ihinner ih =>
      refine fun hmem => (List.mem_cons.mp hmem).elim (fun heq => ?_) ih
      rw [ofItems] at heq
      split at heq
      · cases heq
      · rename_i e he
        cases heq
        exact ihinner (fault_mem_of_data he)
  | @quote s s₁ s₂ rest item items _ _ _ ihone ih =>
      refine fun hmem => (List.mem_cons.mp hmem).elim (fun heq => ?_) ih
      cases item with
      | comment | datum t => cases heq
      | fault e =>
          cases heq
          exact ihone List.mem_cons_self

end Item

open Item

/-! ## The cursor -/

theorem cursor_le (text : Bytes) : cursor text ≤ text.length := Nat.sub_le _ _

/-- Where reading meets no fault, it takes a row of the grammar that no item follows. -/
theorem exists_row_of_faultless {text : Bytes} (h : (readAll text).error = none ∨
      ∃ offset, (readAll text).error = some (.unexpectedEnd offset)) :
    ∃ vs rest, Row text vs rest ∧ readAll text = ⟨vs.reduceOption, rest,
      if isBlank rest then none else some (.unexpectedEnd (text.length - rest.length))⟩ := by
  obtain ⟨vs, rest, hrow, hend⟩ := exists_row text
  refine ⟨vs, rest, hrow, ?_⟩
  rw [readAll, hrow.ofItems] at h ⊢
  rcases hend with hnil | ⟨e, m, hfault⟩
  · rw [hnil, Reading.ofItems, List.append_nil]
  · rw [all_eq_cons hfault] at h
    rcases h with h | ⟨offset, h⟩
    · cases h
    · cases h
      exact absurd List.mem_cons_self (hfault.fault_ne offset)

/-- What a row was cut from is the row without what is behind it. -/
theorem Row.alone {a rest : Bytes} {vs : List (Option Tree)} (h : Row (a ++ rest) vs rest) :
    Row a vs [] := by
  obtain ⟨ts, hts, hvs⟩ := row_iff.mp h
  exact row_iff.mpr ⟨ts, hts.of_append rfl rfl, hvs⟩

/--
**The cursor delimits what was read.** If reading meets no fault, the text up to the cursor is read
by itself as the same data, all of it and without an error. Reading has stopped too early exactly
when there is something but white space behind the cursor, and that is where the error says it
stopped.
-/
theorem read_up_to_cursor {text : Bytes} (h : (readAll text).error = none ∨
      ∃ offset, (readAll text).error = some (.unexpectedEnd offset)) :
    cursor text ≤ text.length ∧
    readAll (text.take (cursor text)) = ⟨(readAll text).values, [], none⟩ ∧
    cursor (text.take (cursor text)) = cursor text ∧
    ((readAll text).error = none ↔
      ∃ cs, (∀ c ∈ cs, c ∈ whiteSpace) ∧ text.drop (cursor text) = encode cs) ∧
    ((readAll text).error ≠ none → (readAll text).error = some (.unexpectedEnd (cursor text))) := by
  obtain ⟨vs, rest, hrow, hread⟩ := exists_row_of_faultless h
  obtain ⟨taken, rfl⟩ := hrow.suffix
  have hcursor : cursor (taken ++ rest) = taken.length := by
    rw [cursor, hread, List.length_append, Nat.add_sub_cancel]
  have htaken : readAll taken = ⟨vs.reduceOption, [], none⟩ := hrow.alone.readAll rfl
  refine ⟨cursor_le _, ?_⟩
  rw [hcursor, List.take_left, List.drop_left, cursor, htaken, hread, ← isBlank_iff]
  refine ⟨rfl, rfl, ?_, fun hne => ?_⟩
  · simp
  · rw [if_neg fun hblank => hne (if_pos hblank), List.length_append, Nat.add_sub_cancel]

/-- A symbol stands right behind a numeral, and then a list is opened in another and not closed. -/
theorem read_up_to_cursor_opened :
    (readAll (bytes "(f 'x)1.5e '((2 3) ")).error = some (.unexpectedEnd 10) ∧
    readAll (bytes "(f 'x)1.5e") =
      ⟨(readAll (bytes "(f 'x)1.5e '((2 3) ")).values, [], none⟩ ∧
    ¬∃ cs, (∀ c ∈ cs, c ∈ whiteSpace) ∧ bytes " '((2 3) " = encode cs := by
  have herror : (readAll (bytes "(f 'x)1.5e '((2 3) ")).error = some (.unexpectedEnd 10) := by
    decide +kernel
  obtain ⟨-, htaken, -, hblank, -⟩ := read_up_to_cursor (Or.inr ⟨10, herror⟩)
  have hcursor : cursor (bytes "(f 'x)1.5e '((2 3) ") = 10 := by decide +kernel
  have htake : (bytes "(f 'x)1.5e '((2 3) ").take 10 = bytes "(f 'x)1.5e" := by decide +kernel
  have hdrop : (bytes "(f 'x)1.5e '((2 3) ").drop 10 = bytes " '((2 3) " := by decide +kernel
  rw [hcursor, htake] at htaken
  rw [hcursor, hdrop, herror] at hblank
  exact ⟨herror, htaken, hblank.not.mp (by simp)⟩

end ArenaLisp
