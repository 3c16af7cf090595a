import ArenaLisp.Proofs.Items
import ArenaLisp.Proofs.Rounding

/-!
# The grammar of a text

`Row` is the grammar: a row of items, each a comment, a number in range, a symbol, a list or a
quoted datum, with the tokens as `Next` takes them. It knows of no faults and no stack. A text is
read without an error exactly when it is such a row with white space behind it, and what it is
read as is what the row says.
-/

namespace ArenaLisp

open Text Token

namespace Numeral

/-- The whole number that the digits before the point spell, with the sign. -/
def integer (n : Numeral) : Int :=
  if n.isNegative then -(digitsValue n.whole : Int) else digitsValue n.whole

/-- Whether a numeral fits: a whole number into 32 bits, another one below what is too large. -/
def InRange (n : Numeral) : Prop :=
  if n.isFloat then n.decimal.value < Single.tooLarge
  else -2 ^ 31 ≤ n.integer ∧ n.integer < 2 ^ 31

/-- The number that a numeral in range denotes. -/
def number (n : Numeral) : Number :=
  if n.isFloat then .float (n.toSingle?.getD Single.nan) else .int (Int32.ofInt n.integer)

/-- **A numeral has a value exactly when it is in range.** -/
theorem value_eq_ok {n : Numeral} {x : Number} : n.value = .ok x ↔ n.InRange ∧ x = n.number := by
  rw [value, InRange, number]
  by_cases hf : n.isFloat = true
  · have hrange : n.decimal.value < Single.tooLarge ↔ n.toSingle? ≠ none := by
      rw [← not_le, ← Decimal.toSingle?_eq_none n.isNegative]
      rfl
    simp only [hf, if_true, hrange]
    cases n.toSingle? with
    | none => simp
    | some y => simp [eq_comm]
  · simp only [hf, if_false, Bool.false_eq_true]
    have hint : n.toInt32? = if -2 ^ 31 ≤ n.integer ∧ n.integer < 2 ^ 31 then
        some (Int32.ofInt n.integer) else none := rfl
    rw [hint]
    by_cases hr : -2 ^ 31 ≤ n.integer ∧ n.integer < 2 ^ 31
    · rw [if_pos hr]
      simp only [Except.ok.injEq, hr, true_and]
      exact eq_comm
    · rw [if_neg hr]
      simp only [hr, false_and, reduceCtorEq]

end Numeral

/-- A row of items at the head of a text, and what is behind them; comments have no tree. -/
inductive Row : Bytes → List (Option Tree) → Bytes → Prop where
  | nil {s : Bytes} : Row s [] s
  | comment {s s₁ rest : Bytes} {items : List (Option Tree)} : Next s .comment s₁ →
      Row s₁ items rest → Row s (none :: items) rest
  | number {s s₁ rest : Bytes} {n : Numeral} {items : List (Option Tree)} :
      Next s (.number n) s₁ → n.InRange → Row s₁ items rest →
      Row s (some (.number n.number) :: items) rest
  | symbol {s s₁ rest : Bytes} {name : String} {items : List (Option Tree)} :
      Next s (.symbol name) s₁ → Row s₁ items rest → Row s (some (.atom name) :: items) rest
  | list {s s₁ s₂ s₃ rest : Bytes} {inner items : List (Option Tree)} : Next s .opening s₁ →
      Row s₁ inner s₂ → Next s₂ .closing s₃ → Row s₃ items rest →
      Row s (some (.ofList inner.reduceOption) :: items) rest
  | quote {s s₁ s₂ rest : Bytes} {t : Tree} {items : List (Option Tree)} : Next s .quote s₁ →
      Row s₁ [some t] s₂ → Row s₂ items rest → Row s (some t.quote :: items) rest

theorem Row.append {s m rest : Bytes} {vs us : List (Option Tree)} (h : Row s vs m)
    (hus : Row m us rest) : Row s (vs ++ us) rest := by
  induction h with
  | nil => exact hus
  | comment hs _ ih => exact .comment hs (ih hus)
  | number hs hr _ ih => exact .number hs hr (ih hus)
  | symbol hs _ ih => exact .symbol hs (ih hus)
  | list hs hinner hclose _ _ ih => exact .list hs hinner hclose (ih hus)
  | quote hs hone _ _ ih => exact .quote hs hone (ih hus)

/-! ## The grammar and the items -/

namespace Item

/-- The item of a datum or a comment. -/
def ofTree? : Option Tree → Item
  | none => .comment
  | some t => .datum t

theorem ofTree?_eq_comment {v : Option Tree} : ofTree? v = .comment ↔ v = none := by
  cases v <;> simp [ofTree?]

theorem ofTree?_eq_datum {v : Option Tree} {t : Tree} : ofTree? v = .datum t ↔ v = some t := by
  cases v <;> simp [ofTree?]

theorem ofNumeral_eq_ofTree? {n : Numeral} {v : Option Tree} :
    ofNumeral n = ofTree? v ↔ n.InRange ∧ v = some (.number n.number) := by
  have hvalue := fun x => Numeral.value_eq_ok (n := n) (x := x)
  rw [ofNumeral]
  cases hn : n.value with
  | ok x =>
      obtain ⟨hr, rfl⟩ := (hvalue x).mp hn
      cases v <;> simp [ofTree?, hr, eq_comm]
  | error e =>
      have hr : ¬n.InRange := fun hr => by
        have := (hvalue n.number).mpr ⟨hr, rfl⟩
        rw [hn] at this
        cases this
      cases v <;> simp [ofTree?, hr]

theorem data_map_ofTree? (vs : List (Option Tree)) :
    data (vs.map ofTree?) = .ok vs.reduceOption := by
  induction vs with
  | nil => rfl
  | cons v vs ih =>
      cases v with
      | none => exact ih
      | some t =>
          rw [List.map_cons, ofTree?, data, ih]
          rfl

/-- Items without a fault are data and comments. -/
theorem exists_map_ofTree? {items : List Item} {ts : List Tree} (h : data items = .ok ts) :
    ∃ vs : List (Option Tree), items = vs.map ofTree? := by
  induction items generalizing ts with
  | nil => exact ⟨[], rfl⟩
  | cons item items ih =>
      cases item with
      | comment =>
          obtain ⟨vs, rfl⟩ := ih h
          exact ⟨none :: vs, rfl⟩
      | fault e => cases h
      | datum t =>
          cases hd : data items with
          | error e =>
              rw [data, hd] at h
              cases h
          | ok ts' =>
              obtain ⟨vs, rfl⟩ := ih hd
              exact ⟨some t :: vs, rfl⟩

end Item

open Item

/-- What is in the grammar is read, as the data and comments it says. -/
theorem Row.reads {s rest : Bytes} {vs : List (Option Tree)} (h : Row s vs rest) :
    Reads s (vs.map ofTree?) rest := by
  induction h with
  | nil => exact .nil
  | comment hs _ ih => exact .comment (scan?_eq_some.mpr hs) ih
  | number hs hr _ ih =>
      rw [List.map_cons, ← ofNumeral_eq_ofTree?.mpr ⟨hr, rfl⟩]
      exact .number (scan?_eq_some.mpr hs) ih
  | symbol hs _ ih => exact .symbol (scan?_eq_some.mpr hs) ih
  | @list s s₁ s₂ s₃ rest inner vs hs _ hclose _ ihinner ih =>
      have hlist : ofTree? (some (.ofList inner.reduceOption)) = ofItems (inner.map ofTree?) := by
        rw [ofItems, data_map_ofTree?]
        rfl
      rw [List.map_cons, hlist]
      exact .list (scan?_eq_some.mpr hs) ihinner (scan?_eq_some.mpr hclose) ih
  | quote hs _ _ ihone ih => exact .quote (scan?_eq_some.mpr hs) ihone ih

/-- What is read as data and comments is in the grammar. -/
theorem Row.of_reads {s rest : Bytes} {items : List Item} (h : Reads s items rest) :
    ∀ vs : List (Option Tree), items = vs.map ofTree? → Row s vs rest := by
  induction h with
  | nil =>
      intro vs hvs
      rw [List.map_eq_nil_iff.mp hvs.symm]
      exact .nil
  | comment hs _ ih =>
      intro vs hvs
      obtain ⟨v, vs, rfl, hv, hrest⟩ := List.map_eq_cons_iff.mp hvs.symm
      cases ofTree?_eq_comment.mp hv
      exact .comment (scan?_eq_some.mp hs) (ih vs hrest.symm)
  | number hs _ ih =>
      intro vs hvs
      obtain ⟨v, vs, rfl, hv, hrest⟩ := List.map_eq_cons_iff.mp hvs.symm
      obtain ⟨hr, rfl⟩ := ofNumeral_eq_ofTree?.mp hv.symm
      exact .number (scan?_eq_some.mp hs) hr (ih vs hrest.symm)
  | @symbol s s₁ rest name items hs _ ih =>
      intro vs hvs
      obtain ⟨v, vs, rfl, hv, hrest⟩ := List.map_eq_cons_iff.mp hvs.symm
      cases ofTree?_eq_datum.mp hv
      exact .symbol (scan?_eq_some.mp hs) (ih vs hrest.symm)
  | @list s s₁ s₂ s₃ rest inner items hs _ hclose _ ihinner ih =>
      intro vs hvs
      obtain ⟨v, vs, rfl, hv, hrest⟩ := List.map_eq_cons_iff.mp hvs.symm
      cases hd : data inner with
      | error e =>
          rw [ofItems, hd] at hv
          cases v <;> cases hv
      | ok ts =>
          obtain ⟨us, rfl⟩ := exists_map_ofTree? hd
          rw [ofItems, data_map_ofTree?] at hv
          cases ofTree?_eq_datum.mp hv
          exact .list (scan?_eq_some.mp hs) (ihinner us rfl) (scan?_eq_some.mp hclose)
            (ih vs hrest.symm)
  | @quote s s₁ s₂ rest item items hs _ _ ihone ih =>
      intro vs hvs
      obtain ⟨v, vs, rfl, hv, hrest⟩ := List.map_eq_cons_iff.mp hvs.symm
      cases item with
      | comment => cases v <;> cases hv
      | fault e => cases v <;> cases hv
      | datum t =>
          cases ofTree?_eq_datum.mp hv
          exact .quote (scan?_eq_some.mp hs) (ihone [some t] rfl) (ih vs hrest.symm)

/-! ## Reading -/

/-- Data and comments at the head of a text are taken before what is behind them. -/
theorem Row.ofItems {size : Nat} {s rest : Bytes} {vs : List (Option Tree)} (h : Row s vs rest) :
    Reading.ofItems size s (all s) =
      { Reading.ofItems size rest (all rest) with
        values := vs.reduceOption ++ (Reading.ofItems size rest (all rest)).values } := by
  have hreads := h.reads
  clear h
  induction vs generalizing s with
  | nil =>
      rw [reads_nil.mp hreads]
      rfl
  | cons v vs ih =>
      obtain ⟨m, hone, hrest⟩ := hreads.head
      rw [all_eq_cons hone]
      cases v with
      | none => exact ih hrest
      | some t =>
          show (Reading.ofItems size m (all m)).cons t = _
          rw [ih hrest]
          rfl

theorem ofItems_blank {size : Nat} {s : Bytes} (hs : isBlank s = true) :
    Reading.ofItems size s (all s) = ⟨[], s, none⟩ := by
  rw [all_eq_nil fun item rest h => ?_]
  · rw [Reading.ofItems, if_pos hs]
  · obtain ⟨t, s₁, hscan⟩ := h.scan
    rw [scan?_of_blank hs] at hscan
    cases hscan

/-- A text begins with a row of the grammar, up to where no item stands, or one that is a fault. -/
theorem exists_row (s : Bytes) : ∃ vs rest, Row s vs rest ∧
    (Item.all rest = [] ∨ ∃ e m, Reads rest [.fault e] m) := by
  induction hn : s.length using Nat.strongRecOn generalizing s with
  | ind n ih =>
      subst hn
      by_cases hreads : ∃ item rest, Reads s [item] rest
      · obtain ⟨item, m, hone⟩ := hreads
        have hlen := hone.length_le
        obtain ⟨vs, rest, hrow, hend⟩ := ih m.length (by simp at hlen; omega) m rfl
        have hnext : ∀ v, item = ofTree? v → Row s (v :: vs) rest := by
          rintro v rfl
          exact .of_reads (hone.append hrow.reads) _ rfl
        cases item with
        | fault e => exact ⟨[], s, .nil, Or.inr ⟨e, m, hone⟩⟩
        | comment => exact ⟨_, rest, hnext none rfl, hend⟩
        | datum t => exact ⟨_, rest, hnext (some t) rfl, hend⟩
      · exact ⟨[], s, .nil, Or.inl (all_eq_nil fun item rest hone => hreads ⟨item, rest, hone⟩)⟩

/-- What is read without an error is in the grammar. -/
theorem Row.of_ofItems {size : Nat} {s : Bytes}
    (h : (Reading.ofItems size s (all s)).error = none) :
    ∃ vs rest, Row s vs rest ∧ isBlank rest = true := by
  obtain ⟨vs, rest, hrow, hend⟩ := exists_row s
  refine ⟨vs, rest, hrow, ?_⟩
  rw [hrow.ofItems] at h
  rcases hend with hnil | ⟨e, m, hfault⟩
  · by_contra hblank
    rw [hnil, Reading.ofItems, if_neg hblank] at h
    cases h
  · rw [all_eq_cons hfault] at h
    cases h

/-- What is in the grammar, up to white space, is read as what it says. -/
theorem Row.readAll {text rest : Bytes} {vs : List (Option Tree)} (h : Row text vs rest)
    (hrest : isBlank rest = true) : readAll text = ⟨vs.reduceOption, rest, none⟩ := by
  rw [ArenaLisp.readAll, h.ofItems, ofItems_blank hrest, List.append_nil]

theorem readData_eq_ok {text : Bytes} {ts : List Tree} :
    readData text = .ok ts ↔ (readAll text).error = none ∧ (readAll text).values = ts := by
  rw [readData]
  cases (readAll text).error with
  | none => simp
  | some e => simp

theorem readData_iff_row {text : Bytes} {ts : List Tree} : readData text = .ok ts ↔
    ∃ vs rest, Row text vs rest ∧ isBlank rest = true ∧ ts = vs.reduceOption := by
  rw [readData_eq_ok]
  constructor
  · rintro ⟨herror, rfl⟩
    obtain ⟨vs, rest, hrow, hrest⟩ := Row.of_ofItems herror
    exact ⟨vs, rest, hrow, hrest, by rw [hrow.readAll hrest]⟩
  · rintro ⟨vs, rest, hrow, hrest, rfl⟩
    rw [hrow.readAll hrest]
    exact ⟨rfl, rfl⟩

/--
**The reader accepts exactly its grammar.** A text is read without an error when it is a row of
items with nothing but white space behind it, and it is then read as the data of the row.
-/
theorem readAll_accepts_iff (text : Bytes) (ts : List Tree) :
    ((readAll text).error = none ∧ (readAll text).values = ts) ↔
      ∃ vs rest, Row text vs rest ∧ (∃ cs, (∀ c ∈ cs, c ∈ whiteSpace) ∧ rest = encode cs) ∧
        ts = vs.reduceOption := by
  rw [← readData_eq_ok, readData_iff_row]
  simp only [isBlank_iff]

end ArenaLisp
