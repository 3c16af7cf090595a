import ArenaLisp.Proofs.Linked

/-!
# Elementary edits

Whatever happens to a heap happens one edit after the other: a cell is made, a binding is made, a
binding gets another value, a binding gets another link, or a node is released. What is made
refers to what is there. Only a binding is ever given another reference, and then to something
that does not lead back to it.
-/

namespace ArenaLisp.Heap

/-! ## Releasing -/

/-- Whether a heap is another with nodes of a set released, and nothing else changed. -/
structure Clears (S : Node → Prop) (h h' : Heap) : Prop where
  cells_eq : h'.cells.size = h.cells.size
  bindings_eq : h'.bindings.size = h.bindings.size
  kept : ∀ n, ¬S n → h.AgreeAt h' n
  cleared : ∀ n, h.AgreeAt h' n ∨ h'.Released n ∧ h'.parts n = []

namespace Clears

theorem refl (S : Node → Prop) (h : Heap) : Clears S h h :=
  ⟨rfl, rfl, fun n _ => AgreeAt.refl h n, fun n => Or.inl (AgreeAt.refl h n)⟩

theorem trans {S : Node → Prop} {h h' h'' : Heap} (hc : Clears S h h') (hc' : Clears S h' h'') :
    Clears S h h'' where
  cells_eq := hc'.cells_eq.trans hc.cells_eq
  bindings_eq := hc'.bindings_eq.trans hc.bindings_eq
  kept n hn := (hc.kept n hn).trans (hc'.kept n hn)
  cleared n := by
    rcases hc'.cleared n with ha' | hr'
    · rcases hc.cleared n with ha | ⟨hr, hp⟩
      · exact Or.inl (ha.trans ha')
      · exact Or.inr ⟨ha'.released_iff.mpr hr, by rw [ha'.parts_eq, hp]⟩
    · exact Or.inr hr'

theorem has_iff {S : Node → Prop} {h h' : Heap} (hc : Clears S h h') {n : Node} :
    h'.Has n ↔ h.Has n := by
  cases n with
  | value a => rw [Has, Has, hc.cells_eq]
  | binding b => rw [Has, Has, hc.bindings_eq]

theorem mem_parts {S : Node → Prop} {h h' : Heap} (hc : Clears S h h') {n k : Node}
    (hk : k ∈ h'.parts n) : k ∈ h.parts n := by
  rcases hc.cleared n with ha | ⟨_, hp⟩
  · rw [← ha.parts_eq]
    exact hk
  · rw [hp] at hk
    cases hk

/-- Releasing adds no path. -/
theorem reaches {S : Node → Prop} {h h' : Heap} (hc : Clears S h h') {n k : Node}
    (hk : h'.Reaches n k) : h.Reaches n k := by
  induction hk with
  | refl => exact Reaches.refl n
  | tail _ hp ih => exact ih.trans (Reaches.of_part (hc.mem_parts hp))

end Clears

theorem clears_release {S : Node → Prop} {n : Node} (hn : S n) (h : Heap) :
    Clears S h (h.release n) := by
  cases n with
  | value a =>
      have hcell : ∀ a', (h.release (.value a)).cell a' = h.cell a' ∨
          a' = a ∧ ∃ husk, (h.release (.value a)).cell a' = .released husk := by
        intro a'
        by_cases heq : a.index = a'.index
        · by_cases hlt : a'.index < h.cells.size
          · obtain ⟨x, hx⟩ : ∃ x, h.cells[a'.index]? = some x :=
              ⟨_, Array.getElem?_eq_getElem hlt⟩
            refine Or.inr ⟨?_, x.husk, ?_⟩
            · cases a; cases a'; simp_all
            · simp [release, cell, Array.getElem?_modify, heq, hx]
          · left
            simp [release, cell, Array.getElem?_modify, heq,
              Array.getElem?_eq_none (Nat.le_of_not_lt hlt)]
        · left
          simp [release, cell, Array.getElem?_modify, heq]
      refine ⟨by simp [release], rfl, fun k hk => ?_, fun k => ?_⟩
      · cases k with
        | value a' =>
            rcases hcell a' with heq | ⟨rfl, _⟩
            · exact heq
            · exact absurd hn hk
        | binding b => rfl
      · cases k with
        | value a' =>
            rcases hcell a' with heq | ⟨_, husk, hr⟩
            · exact Or.inl heq
            · exact Or.inr ⟨by rw [Released, hr]; rfl, by rw [parts, hr]; rfl⟩
        | binding b => exact Or.inl rfl
  | binding b =>
      have hbinding : ∀ b', (h.release (.binding b)).binding b' = h.binding b' ∨
          b' = b ∧ (h.release (.binding b)).binding b' = .husk := by
        intro b'
        by_cases hne : b = b'
        · subst hne
          by_cases hb : h.Has (.binding b)
          · exact Or.inr ⟨rfl, binding_modifyBinding_self hb⟩
          · refine Or.inl ?_
            rw [binding_of_not_has hb]
            exact binding_of_not_has fun hb' => hb (has_modifyBinding.mp hb')
        · exact Or.inl (binding_modifyBinding_ne hne)
      refine ⟨rfl, by simp [release, modifyBinding], fun k hk => ?_, fun k => ?_⟩
      · cases k with
        | value a => rfl
        | binding b' =>
            rcases hbinding b' with heq | ⟨rfl, _⟩
            · exact heq
            · exact absurd hn hk
      · cases k with
        | value a => exact Or.inl rfl
        | binding b' =>
            rcases hbinding b' with heq | ⟨_, hr⟩
            · exact Or.inl heq
            · exact Or.inr ⟨by rw [Released, hr]; rfl, by rw [parts, hr]; rfl⟩

/-! ## Edits -/

/-- One edit of a heap. -/
inductive Edit (h : Heap) : Heap → Prop
  | alloc (c : Cell) (hc : ∀ k ∈ c.parts, h.Has k) : Edit h (h.alloc c).2
  | put (name value : Ref) (next : Chain)
      (hp : ∀ k ∈ (⟨name, value, next, false⟩ : Binding).parts, h.Has k) :
      Edit h (h.put name value next).2
  | overwrite (b : BindingId) (v : Ref)
      (hv : ∀ k ∈ Node.ofRef v, h.Has k ∧ ¬h.Reaches k (.binding b)) : Edit h (h.overwritten b v)
  | splice (b : BindingId) (c : Chain)
      (hc : ∀ k ∈ Node.ofChain c, h.Has k ∧ ¬h.Reaches k (.binding b)) :
      Edit h (h.modifyBinding b fun binding => { binding with next := c })
  | release (n : Node) : Edit h (h.release n)

/-- Any number of edits, one after the other. -/
def Edits : Heap → Heap → Prop := Relation.ReflTransGen Edit

namespace Edits

variable {h h' h'' : Heap}

theorem refl (h : Heap) : h.Edits h := Relation.ReflTransGen.refl

theorem trans (he : h.Edits h') (he' : h'.Edits h'') : h.Edits h'' :=
  Relation.ReflTransGen.trans he he'

theorem step (he : h.Edits h') (hstep : h'.Edit h'') : h.Edits h'' :=
  Relation.ReflTransGen.tail he hstep

/-- Nodes are released one after the other. -/
theorem releaseEach (ns : List Node) (h : Heap) : h.Edits (ns.foldl Heap.release h) := by
  induction ns generalizing h with
  | nil => exact .refl h
  | cons n ns ih => exact ((refl h).step (.release n)).trans (ih (h.release n))

end Edits

end ArenaLisp.Heap
