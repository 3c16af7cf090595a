import ArenaLisp.Proofs.Making
import ArenaLisp.Reader.Basic

/-!
# What the reader yields

Every datum of a text is made of atoms, numbers and lists. So what is true of atoms and of
numbers, and of a list when it is true of its elements, is true of every datum. The argument
follows the stack of what is open while tokens are taken in; it is true of all the items on it.

In particular every datum is plain: an absent field stands only in the empty list.
-/

namespace ArenaLisp

theorem Tree.plain_nil : Tree.nil.Plain := Or.inl ⟨rfl, rfl⟩

theorem Tree.plain_ofList {ts : List Tree} (hts : ∀ t ∈ ts, t.Plain) : (Tree.ofList ts).Plain := by
  induction ts with
  | nil => exact plain_nil
  | cons t ts ih =>
      exact Or.inr ⟨hts t List.mem_cons_self, ih fun t' ht' => hts t' (List.mem_cons_of_mem _ ht')⟩

/-- Whether something is true of atoms and numbers, and of lists of what it is true of. -/
structure Tree.Hereditary (P : Tree → Prop) : Prop where
  atom : ∀ name, P (.atom name)
  number : ∀ x, P (.number x)
  list : ∀ ts, (∀ t ∈ ts, P t) → P (.ofList ts)

theorem Tree.hereditary_plain : Tree.Hereditary Tree.Plain :=
  ⟨fun _ => trivial, fun _ => trivial, fun _ => plain_ofList⟩

section

variable {P : Tree → Prop}

namespace Item

/-- Whether something is true of an item, if it is a datum. -/
def Satisfies (P : Tree → Prop) : Item → Prop
  | .datum t => P t
  | _ => True

/-- Whether something is true of the items that an open list holds. -/
def Frame.Satisfies (P : Tree → Prop) : Frame → Prop
  | .list reversed => ∀ item ∈ reversed, item.Satisfies P
  | .quote => True

theorem satisfies_ofNumeral (hP : Tree.Hereditary P) (n : Numeral) : (ofNumeral n).Satisfies P := by
  unfold ofNumeral
  split
  · exact hP.number _
  · trivial

theorem Satisfies.quoted (hP : Tree.Hereditary P) {item : Item} (hi : item.Satisfies P) :
    item.quoted.Satisfies P := by
  cases item with
  | comment => trivial
  | fault e => trivial
  | datum t =>
      refine hP.list _ fun t' ht' => ?_
      rcases List.mem_cons.mp ht' with rfl | ht'
      · exact hP.atom _
      · rw [List.mem_singleton.mp ht']
        exact hi

theorem data_satisfies {items : List Item} {ts : List Tree}
    (hi : ∀ item ∈ items, item.Satisfies P) (hts : data items = .ok ts) : ∀ t ∈ ts, P t := by
  induction items generalizing ts with
  | nil =>
      cases hts
      exact fun t ht => absurd ht List.not_mem_nil
  | cons item items ih =>
      have hrest : ∀ item ∈ items, item.Satisfies P := fun i hi' => hi i (List.mem_cons_of_mem _ hi')
      cases item with
      | comment => exact ih hrest hts
      | fault e => cases hts
      | datum t =>
          have ht := hi (.datum t) List.mem_cons_self
          cases hd : data items with
          | error e =>
              rw [data, hd] at hts
              cases hts
          | ok ts' =>
              rw [data, hd] at hts
              cases hts
              intro t' ht'
              rcases List.mem_cons.mp ht' with rfl | ht'
              · exact ht
              · exact ih hrest hd t' ht'

theorem satisfies_ofItems (hP : Tree.Hereditary P) {items : List Item}
    (hi : ∀ item ∈ items, item.Satisfies P) : (ofItems items).Satisfies P := by
  unfold ofItems
  split
  · rename_i ts hts
    exact hP.list ts (data_satisfies hi hts)
  · trivial

theorem settle_satisfies (hP : Tree.Hereditary P) {frames : List Frame} {item : Item}
    (hf : ∀ f ∈ frames, f.Satisfies P) (hi : item.Satisfies P) :
    (∀ i, (settle frames item).1 = some i → i.Satisfies P) ∧
      ∀ f ∈ (settle frames item).2, f.Satisfies P := by
  induction frames generalizing item with
  | nil =>
      refine ⟨fun i heq => ?_, fun f hf' => absurd hf' List.not_mem_nil⟩
      cases heq
      exact hi
  | cons f frames ih =>
      have hrest : ∀ f ∈ frames, f.Satisfies P := fun g hg => hf g (List.mem_cons_of_mem _ hg)
      cases f with
      | quote => exact ih hrest (hi.quoted hP)
      | list reversed =>
          have hlist : ∀ item ∈ reversed, item.Satisfies P := hf (.list reversed) List.mem_cons_self
          refine ⟨fun i heq => by simp [settle] at heq, fun g hg => ?_⟩
          rcases List.mem_cons.mp hg with rfl | hg
          · intro i hi'
            rcases List.mem_cons.mp hi' with rfl | hi'
            · exact hi
            · exact hlist i hi'
          · exact hrest g hg

theorem shift_satisfies (hP : Tree.Hereditary P) {frames frames' : List Frame} {token : Token}
    {item : Option Item} (hf : ∀ f ∈ frames, f.Satisfies P)
    (hs : shift frames token = some (item, frames')) :
    (∀ i, item = some i → i.Satisfies P) ∧ ∀ f ∈ frames', f.Satisfies P := by
  have hsettle : ∀ {fs : List Frame} {i : Item}, (∀ f ∈ fs, f.Satisfies P) → i.Satisfies P →
      some (settle fs i) = some (item, frames') →
      (∀ i, item = some i → i.Satisfies P) ∧ ∀ f ∈ frames', f.Satisfies P := by
    intro fs i hfs hi heq
    have hsettled := settle_satisfies hP hfs hi
    rw [Option.some.inj heq] at hsettled
    exact hsettled
  cases token with
  | comment => exact hsettle (i := .comment) hf trivial (by simpa [shift] using hs)
  | number n => exact hsettle hf (satisfies_ofNumeral hP n) (by simpa [shift] using hs)
  | symbol name =>
      exact hsettle (i := .datum (.atom name)) hf (hP.atom name) (by simpa [shift] using hs)
  | opening =>
      simp only [shift, Option.some.injEq, Prod.mk.injEq] at hs
      obtain ⟨rfl, rfl⟩ := hs
      refine ⟨fun i heq => by simp at heq, fun f hf' => ?_⟩
      rcases List.mem_cons.mp hf' with rfl | hf'
      · exact fun i hi => absurd hi List.not_mem_nil
      · exact hf f hf'
  | quote =>
      simp only [shift, Option.some.injEq, Prod.mk.injEq] at hs
      obtain ⟨rfl, rfl⟩ := hs
      refine ⟨fun i heq => by simp at heq, fun f hf' => ?_⟩
      rcases List.mem_cons.mp hf' with rfl | hf'
      · trivial
      · exact hf f hf'
  | closing =>
      cases frames with
      | nil => simp [shift] at hs
      | cons f frames =>
          cases f with
          | quote => simp [shift] at hs
          | list reversed =>
              have hlist : ∀ item ∈ reversed, item.Satisfies P := hf (.list reversed) List.mem_cons_self
              exact hsettle (fun g hg => hf g (List.mem_cons_of_mem _ hg))
                (satisfies_ofItems hP fun i hi => hlist i (List.mem_reverse.mp hi))
                (by simpa [shift] using hs)

theorem ofTokens_satisfies (hP : Tree.Hereditary P) {frames : List Frame}
    {tokens : List (Token × Bytes)} (hf : ∀ f ∈ frames, f.Satisfies P) :
    ∀ p ∈ ofTokens frames tokens, p.1.Satisfies P := by
  induction tokens generalizing frames with
  | nil => exact fun p hp => absurd hp List.not_mem_nil
  | cons tok tokens ih =>
      obtain ⟨token, rest⟩ := tok
      rw [ofTokens]
      cases hs : shift frames token with
      | none => exact fun p hp => absurd hp List.not_mem_nil
      | some r =>
          obtain ⟨item, frames'⟩ := r
          obtain ⟨hitem, hframes⟩ := shift_satisfies hP hf hs
          cases item with
          | none => exact ih hframes
          | some item =>
              intro p hp
              rcases List.mem_cons.mp hp with rfl | hp
              · exact hitem item rfl
              · exact ih hframes p hp

end Item

theorem Reading.ofItems_satisfies {size : Nat} {rest : Bytes} {items : List (Item × Bytes)}
    (hi : ∀ p ∈ items, p.1.Satisfies P) :
    ∀ t ∈ (Reading.ofItems size rest items).values, P t := by
  induction items generalizing rest with
  | nil => exact fun t ht => absurd ht List.not_mem_nil
  | cons p items ih =>
      obtain ⟨item, rest'⟩ := p
      have hrest : ∀ p ∈ items, p.1.Satisfies P := fun q hq => hi q (List.mem_cons_of_mem _ hq)
      cases item with
      | comment => exact ih hrest
      | fault e => exact fun t ht => absurd ht List.not_mem_nil
      | datum t =>
          intro t' ht'
          rcases List.mem_cons.mp ht' with rfl | ht'
          · exact hi (.datum t', rest') List.mem_cons_self
          · exact ih hrest t' ht'

/-- What passes from data to lists of them is true of every datum of a text. -/
theorem readData_satisfies (hP : Tree.Hereditary P) {text : Bytes} {ts : List Tree}
    (hts : readData text = .ok ts) : ∀ t ∈ ts, P t := by
  have hitems : ∀ p ∈ Item.all text, p.1.Satisfies P :=
    Item.ofTokens_satisfies hP fun _ hf => absurd hf List.not_mem_nil
  have hvalues : ∀ t ∈ (readAll text).values, P t := Reading.ofItems_satisfies hitems
  simp only [readData] at hts
  split at hts
  · cases hts
  · cases hts
    exact hvalues

end

/-- **Every datum of a text is plain.** -/
theorem readData_plain {text : Bytes} {ts : List Tree} (hts : readData text = .ok ts) :
    ∀ t ∈ ts, t.Plain :=
  readData_satisfies Tree.hereditary_plain hts

end ArenaLisp
