import ArenaLisp.Proofs.Lexing
import ArenaLisp.Reader.Basic

/-!
# Items by their structure

Items are built from the tokens with a stack of what is open. What is on the stack can be said
without it: an item is a comment, a number or a symbol; a row of items in parentheses; or a quote
mark and an item. `Reads` says this of a text. What is open at any time is then a text that was
read in part (`Spans`), and handing an item to the stack goes on with reading it.

So the first item of a text is the one that `Reads` finds there, and when it finds none there are
no items.
-/

namespace ArenaLisp

open Token

namespace Item

/-- Whether a text begins with a row of items, and with what behind them. -/
inductive Reads : Bytes → List Item → Bytes → Prop where
  | nil {s : Bytes} : Reads s [] s
  | comment {s s₁ rest : Bytes} {items : List Item} : scan? s = some (.comment, s₁) →
      Reads s₁ items rest → Reads s (.comment :: items) rest
  | number {s s₁ rest : Bytes} {n : Numeral} {items : List Item} :
      scan? s = some (.number n, s₁) → Reads s₁ items rest → Reads s (ofNumeral n :: items) rest
  | symbol {s s₁ rest : Bytes} {name : String} {items : List Item} :
      scan? s = some (.symbol name, s₁) → Reads s₁ items rest →
      Reads s (.datum (.atom name) :: items) rest
  | list {s s₁ s₂ s₃ rest : Bytes} {inner items : List Item} : scan? s = some (.opening, s₁) →
      Reads s₁ inner s₂ → scan? s₂ = some (.closing, s₃) → Reads s₃ items rest →
      Reads s (ofItems inner :: items) rest
  | quote {s s₁ s₂ rest : Bytes} {item : Item} {items : List Item} :
      scan? s = some (.quote, s₁) → Reads s₁ [item] s₂ → Reads s₂ items rest →
      Reads s (item.quoted :: items) rest

theorem Reads.append {s m rest : Bytes} {items items' : List Item} (h : Reads s items m)
    (h' : Reads m items' rest) : Reads s (items ++ items') rest := by
  induction h with
  | nil => exact h'
  | comment hs _ ih => exact .comment hs (ih h')
  | number hs _ ih => exact .number hs (ih h')
  | symbol hs _ ih => exact .symbol hs (ih h')
  | list hs hinner hclose _ _ ih => exact .list hs hinner hclose (ih h')
  | quote hs hone _ _ ih => exact .quote hs hone (ih h')

theorem reads_nil {s rest : Bytes} : Reads s [] rest ↔ s = rest := by
  constructor
  · intro h
    cases h
    rfl
  · rintro rfl
    exact .nil

/-- The first item of a row is an item by itself. -/
theorem Reads.head {s rest : Bytes} {item : Item} {items : List Item}
    (h : Reads s (item :: items) rest) : ∃ m, Reads s [item] m ∧ Reads m items rest := by
  cases h with
  | comment hs h => exact ⟨_, .comment hs .nil, h⟩
  | number hs h => exact ⟨_, .number hs .nil, h⟩
  | symbol hs h => exact ⟨_, .symbol hs .nil, h⟩
  | list hs hinner hclose h => exact ⟨_, .list hs hinner hclose .nil, h⟩
  | quote hs hone h => exact ⟨_, .quote hs hone .nil, h⟩

/-- An item takes at least one token. -/
theorem Reads.scan {s rest : Bytes} {item : Item} (h : Reads s [item] rest) :
    ∃ t s₁, scan? s = some (t, s₁) := by
  cases h with
  | comment hs | number hs | symbol hs | list hs | quote hs => exact ⟨_, _, hs⟩

theorem Reads.length_le {s rest : Bytes} {items : List Item} (h : Reads s items rest) :
    rest.length + items.length ≤ s.length := by
  induction h with
  | nil => exact Nat.le_refl _
  | comment hs _ ih | number hs _ ih | symbol hs _ ih =>
      have := scan?_length hs
      rw [List.length_cons]
      omega
  | list hs _ hclose _ ihinner ih =>
      have := scan?_length hs
      have := scan?_length hclose
      rw [List.length_cons]
      omega
  | quote hs _ _ ihone ih =>
      have := scan?_length hs
      rw [List.length_cons]
      omega

/-! ## From structure to stack -/

theorem all_cons {s rest : Bytes} {t : Token} (h : scan? s = some (t, rest)) :
    Token.all s = (t, rest) :: Token.all rest := by
  rw [Token.all]
  split
  · rename_i h'
    rw [h] at h'
    cases h'
  · rename_i t' rest' h'
    rw [h] at h'
    cases h'
    rfl

theorem all_nil {s : Bytes} (h : scan? s = none) : Token.all s = [] := by
  rw [Token.all]
  split
  · rfl
  · rename_i t' rest' h'
    rw [h] at h'
    cases h'

/-- What comes of handing over an item, with the text behind it. -/
def handOver (frames : List Frame) (item : Item) (rest : Bytes) : List (Item × Bytes) :=
  match settle frames item with
  | (none, frames) => ofTokens frames (Token.all rest)
  | (some item, frames) => (item, rest) :: ofTokens frames (Token.all rest)

/-- A token that is an item by itself is handed over. -/
theorem ofTokens_settle {s rest : Bytes} {t : Token} {item : Item} {frames : List Frame}
    (h : scan? s = some (t, rest)) {frames' : List Frame}
    (ht : shift frames t = some (settle frames' item)) :
    ofTokens frames (Token.all s) = handOver frames' item rest := by
  rw [all_cons h, ofTokens, ht, handOver]
  rcases settle frames' item with ⟨_ | i, fs⟩ <;> rfl

/-- A token that opens something is put on the stack. -/
theorem ofTokens_open {s rest : Bytes} {t : Token} {frame : Frame} {frames : List Frame}
    (h : scan? s = some (t, rest)) (ht : shift frames t = some (none, frame :: frames)) :
    ofTokens frames (Token.all s) = ofTokens (frame :: frames) (Token.all rest) := by
  rw [all_cons h, ofTokens, ht]

/-- What taking in the tokens of a row of items comes to. -/
structure Takes (s : Bytes) (items : List Item) (rest : Bytes) : Prop where
  one : ∀ item, items = [item] → ∀ frames,
    ofTokens frames (Token.all s) = handOver frames item rest
  row : ∀ reversed frames, ofTokens (.list reversed :: frames) (Token.all s) =
    ofTokens (.list (items.reverse ++ reversed) :: frames) (Token.all rest)

theorem Takes.cons {s s₁ rest : Bytes} {item : Item} {items : List Item}
    (hitem : ∀ frames, ofTokens frames (Token.all s) = handOver frames item s₁)
    (hitems : Takes s₁ items rest) (hrest : items = [] → s₁ = rest) :
    Takes s (item :: items) rest := by
  constructor
  · intro item' heq frames
    cases heq
    rw [hitem, hrest rfl]
  · intro reversed frames
    rw [hitem, List.reverse_cons, List.append_assoc]
    exact hitems.row (item :: reversed) frames

/-- Reading a row of items takes in their tokens and hands them over. -/
theorem Reads.takes {s rest : Bytes} {items : List Item} (h : Reads s items rest) :
    Takes s items rest := by
  induction h with
  | nil => exact ⟨nofun, fun _ _ => rfl⟩
  | comment hs h ih =>
      exact ih.cons (fun _ => ofTokens_settle hs rfl) fun heq => reads_nil.mp (heq ▸ h)
  | number hs h ih =>
      exact ih.cons (fun _ => ofTokens_settle hs rfl) fun heq => reads_nil.mp (heq ▸ h)
  | symbol hs h ih =>
      exact ih.cons (fun _ => ofTokens_settle hs rfl) fun heq => reads_nil.mp (heq ▸ h)
  | @list s s₁ s₂ s₃ rest inner items hs _ hclose h ihinner ih =>
      refine ih.cons (fun frames => ?_) fun heq => reads_nil.mp (heq ▸ h)
      rw [ofTokens_open hs rfl, ihinner.row, List.append_nil]
      refine ofTokens_settle hclose ?_
      rw [shift, List.reverse_reverse]
  | quote hs _ h ihone ih =>
      refine ih.cons (fun frames => ?_) fun heq => reads_nil.mp (heq ▸ h)
      rw [ofTokens_open hs rfl, ihone.one _ rfl]
      rfl

/-! ## From stack to structure -/

/-- Whether what is open at a place was opened on the way there from another. -/
inductive Spans (start : Bytes) : List Frame → Bytes → Prop where
  | nil : Spans start [] start
  | list {frames : List Frame} {reversed : List Item} {s₁ s₂ s : Bytes} : Spans start frames s₁ →
      scan? s₁ = some (.opening, s₂) → Reads s₂ reversed.reverse s →
      Spans start (.list reversed :: frames) s
  | quote {frames : List Frame} {s₁ s : Bytes} : Spans start frames s₁ →
      scan? s₁ = some (.quote, s) → Spans start (.quote :: frames) s

/-- Where a finished item goes. -/
def Settled (start rest : Bytes) : Option Item × List Frame → Prop
  | (none, frames) => Spans start frames rest
  | (some item, frames) => frames = [] ∧ Reads start [item] rest

theorem settled_settle {start s rest : Bytes} {frames : List Frame} {item : Item}
    (hf : Spans start frames s) (hi : Reads s [item] rest) :
    Settled start rest (settle frames item) := by
  induction hf generalizing item with
  | nil => exact ⟨rfl, hi⟩
  | @list frames reversed s₁ s₂ s hspans hs hrow _ =>
      refine Spans.list hspans hs ?_
      rw [List.reverse_cons]
      exact hrow.append hi
  | quote _ hs ih => exact ih (.quote hs hi .nil)

theorem settled_shift {start s rest : Bytes} {frames : List Frame} {t : Token}
    {r : Option Item × List Frame} (hf : Spans start frames s) (hs : scan? s = some (t, rest))
    (ht : shift frames t = some r) : Settled start rest r := by
  cases t with
  | comment =>
      cases ht
      exact settled_settle hf (.comment hs .nil)
  | number n =>
      cases ht
      exact settled_settle hf (.number hs .nil)
  | symbol name =>
      cases ht
      exact settled_settle hf (.symbol hs .nil)
  | opening =>
      cases ht
      exact Spans.list hf hs .nil
  | quote =>
      cases ht
      exact Spans.quote hf hs
  | closing =>
      cases hf with
      | nil => cases ht
      | quote => cases ht
      | list hspans hopen hrow =>
          cases ht
          exact settled_settle hspans (.list hopen hrow hs .nil)

/-- What is taken in from a place on yields the item that what is open belongs to, or nothing. -/
theorem Spans.ofTokens {start s : Bytes} {frames : List Frame} (hf : Spans start frames s) :
    ofTokens frames (Token.all s) = [] ∨ ∃ item rest, Reads start [item] rest ∧
      ofTokens frames (Token.all s) = (item, rest) :: all rest := by
  induction hn : s.length using Nat.strongRecOn generalizing s frames with
  | ind n ih =>
      subst hn
      cases hs : scan? s with
      | none =>
          left
          rw [all_nil hs]
          rfl
      | some p =>
          obtain ⟨t, rest⟩ := p
          rw [all_cons hs, Item.ofTokens]
          cases ht : shift frames t with
          | none => exact Or.inl rfl
          | some r =>
              have hr := settled_shift hf hs ht
              obtain ⟨_ | item, frames'⟩ := r
              · exact ih rest.length (scan?_length hs) hr rfl
              · obtain ⟨rfl, hreads⟩ := hr
                exact Or.inr ⟨item, rest, hreads, rfl⟩

/-- **The items of a text are those that reading finds**, one after the other. -/
theorem all_eq_cons {s rest : Bytes} {item : Item} (h : Reads s [item] rest) :
    all s = (item, rest) :: all rest := by
  rw [all, h.takes.one item rfl]
  rfl

theorem all_eq_nil {s : Bytes} (h : ∀ item rest, ¬Reads s [item] rest) : all s = [] := by
  rcases (.nil : Spans s [] s).ofTokens with hnil | ⟨item, rest, hreads, -⟩
  · exact hnil
  · exact absurd hreads (h item rest)

end Item

end ArenaLisp
