import ArenaLisp.Proofs.Covering

/-!
# Graphs without cycles

A walk along references ends when no path comes back to where it has been. Three things are said
here about such graphs.

A graph gets no cycle when references are added at one place, to what does not lead there
(`acyclic_of_added`). Everything that is ever done to a heap adds references in this way.

In a finite graph without cycles no path is longer than there are places (`endsWithin_of_acyclic`).
So a walk that is given that many steps is complete.

What is reached from one node can be free of cycles where the heap is not. `AcyclicFrom` says so of
a node, `Acyclic` of all of them.
-/

namespace ArenaLisp

/-! ## Graphs -/

section Graphs

variable {α : Type}

/-- References added at one place, to what does not lead there, make no cycle. -/
theorem acyclic_of_added {r r' : α → α → Prop} {x : α}
    (hadded : ∀ a b, r' a b → r a b ∨ a = x ∧ ¬Relation.ReflTransGen r b x)
    (hr : ∀ a, ¬Relation.TransGen r a a) (a : α) : ¬Relation.TransGen r' a a := by
  -- a path takes an added reference at most once: behind it, nothing leads to `x`
  have hpath : ∀ b, Relation.ReflTransGen r' a b → Relation.ReflTransGen r a b ∨
      Relation.ReflTransGen r a x ∧
        ∃ s, ¬Relation.ReflTransGen r s x ∧ Relation.ReflTransGen r s b := by
    intro b hb
    induction hb with
    | refl => exact Or.inl .refl
    | @tail b c _ hbc ih =>
        rcases hadded b c hbc with hold | ⟨rfl, hnew⟩
        · rcases ih with hab | ⟨hax, s, hs, hsb⟩
          · exact Or.inl (hab.tail hold)
          · exact Or.inr ⟨hax, s, hs, hsb.tail hold⟩
        · rcases ih with hab | ⟨hax, -⟩
          · exact Or.inr ⟨hab, c, hnew, .refl⟩
          · exact Or.inr ⟨hax, c, hnew, .refl⟩
  intro hcycle
  obtain ⟨b, hab, hba⟩ := Relation.TransGen.tail'_iff.mp hcycle
  rcases hpath b hab with hold | ⟨hax, s, hs, hsb⟩
  · rcases hadded b a hba with hlast | ⟨rfl, hnot⟩
    · exact hr a (Relation.TransGen.tail' hold hlast)
    · exact hnot hold
  · rcases hadded b a hba with hlast | ⟨rfl, -⟩
    · exact hs ((hsb.tail hlast).trans hax)
    · exact hs hsb

/-- Whether every path from a place stays among some places and has no more than `d` of them. -/
def EndsWithin (S : α → Prop) (next : α → List α) : Nat → α → Prop
  | 0, _ => False
  | d + 1, a => S a ∧ ∀ b ∈ next a, EndsWithin S next d b

variable {S : α → Prop} {next : α → List α}

theorem EndsWithin.imp {T : α → Prop} (hST : ∀ a, S a → T a) {d : Nat} {a : α}
    (ha : EndsWithin S next d a) : EndsWithin T next d a := by
  induction d generalizing a with
  | zero => exact ha
  | succ d ih => exact ⟨hST a ha.1, fun b hb => ih (ha.2 b hb)⟩

/-- Where paths do not end within `d` places, there is one of `d + 1`. -/
theorem exists_path_of_not_endsWithin (hS : ∀ a, S a → ∀ b ∈ next a, S b) {d : Nat} {a : α}
    (ha : S a) (hnot : ¬EndsWithin S next d a) :
    ∃ path : List α, (a :: path).IsChain (fun a b => b ∈ next a) ∧ path.length = d ∧
      ∀ b ∈ a :: path, S b := by
  induction d generalizing a with
  | zero => exact ⟨[], .singleton a, rfl, by simpa using ha⟩
  | succ d ih =>
      have hsome : ∃ b ∈ next a, ¬EndsWithin S next d b := by
        refine Classical.byContradiction fun hnone => hnot ⟨ha, fun b hb => ?_⟩
        exact Classical.byContradiction fun hb' => hnone ⟨b, hb, hb'⟩
      obtain ⟨b, hb, hb'⟩ := hsome
      obtain ⟨path, hchain, hlen, hpath⟩ := ih (hS a ha b hb) hb'
      refine ⟨b :: path, .cons_cons hb hchain, by simp [hlen], fun c hc => ?_⟩
      rcases List.mem_cons.mp hc with rfl | hc
      · exact ha
      · exact hpath c hc

/-- A path that does not come back to where it was passes no place twice. -/
theorem nodup_of_isChain {r : α → α → Prop} {l : List α} (hchain : l.IsChain r)
    (hac : ∀ a ∈ l, ¬Relation.TransGen r a a) : l.Nodup := by
  have hpairwise : l.Pairwise (Relation.TransGen r) :=
    List.isChain_iff_pairwise.mp (hchain.imp fun _ _ hb => Relation.TransGen.single hb)
  refine hpairwise.imp_of_mem fun {b c} hb _ hbc heq => ?_
  subst heq
  exact hac b hb hbc

/-- **Paths are no longer than there are places**, where none comes back to where it was. -/
theorem endsWithin_of_acyclic (hS : ∀ a, S a → ∀ b ∈ next a, S b)
    (hac : ∀ a, S a → ¬Relation.TransGen (fun a b => b ∈ next a) a a) {N : Nat}
    (hN : ∀ l : List α, l.Nodup → (∀ a ∈ l, S a) → l.length ≤ N) {a : α} (ha : S a) :
    EndsWithin S next N a := by
  refine Classical.byContradiction fun hnot => ?_
  obtain ⟨path, hchain, hlen, hpath⟩ := exists_path_of_not_endsWithin hS ha hnot
  have hle := hN _ (nodup_of_isChain hchain fun b hb => hac b (hpath b hb)) hpath
  rw [List.length_cons] at hle
  omega

/-- Where all paths end, recursion along them is well-founded. -/
theorem EndsWithin.acc {d : Nat} {a : α} (ha : EndsWithin S next d a) :
    Acc (fun b a => b ∈ next a) a := by
  induction d generalizing a with
  | zero => exact ha.elim
  | succ d ih => exact ⟨a, fun b hb => ih (ha.2 b hb)⟩

end Graphs

namespace Heap

/-! ## Cycles in the heap -/

/-- Whether some path from a node leads back to it. -/
def Cyclic (h : Heap) (n : Node) : Prop := Relation.TransGen (fun n k => k ∈ h.parts n) n n

/-- Whether nothing that a node reaches leads back to itself. -/
def AcyclicFrom (h : Heap) (n : Node) : Prop := ∀ k, h.Reaches n k → ¬h.Cyclic k

/-- Whether no node leads back to itself. -/
def Acyclic (h : Heap) : Prop := ∀ n, ¬h.Cyclic n

theorem Acyclic.acyclicFrom {h : Heap} (hac : h.Acyclic) (n : Node) : h.AcyclicFrom n :=
  fun k _ => hac k

theorem AcyclicFrom.of_reaches {h : Heap} {n k : Node} (hn : h.AcyclicFrom n) (hk : h.Reaches n k) :
    h.AcyclicFrom k :=
  fun l hl => hn l (hk.trans hl)

theorem cyclic_iff {h : Heap} {n : Node} : h.Cyclic n ↔ ∃ k ∈ h.parts n, h.Reaches k n :=
  Relation.TransGen.head'_iff

theorem cyclic_congr {h h' : Heap} {n : Node} (ha : ∀ l, h.Reaches n l → h.AgreeAt h' l) :
    h'.Cyclic n ↔ h.Cyclic n := by
  rw [cyclic_iff, cyclic_iff, (ha n (.refl n)).parts_eq]
  refine exists_congr fun k => and_congr_right fun hk => reaches_congr fun l hl => ha l ?_
  exact (Reaches.of_part hk).trans hl

/-! ## Edits make no cycles -/

/-- What a grown heap refers to at a node, it did before, or the node is new. -/
theorem Extends.mem_parts {h h' : Heap} (he : h.Extends h') {n k : Node} (hk : k ∈ h'.parts n) :
    k ∈ h.parts n ∨ h.Made h' n := by
  by_cases hn : h.Has n
  · rw [(he.agreeAt hn).parts_eq] at hk
    exact Or.inl hk
  · exact Or.inr ⟨has_of_mem_parts hk, hn⟩

/-- What a node refers to after an edit: what it did, or what it was given, at one node only. -/
theorem Edit.mem_parts {h h' : Heap} (he : h.Edit h') (hb : h.Bounded) :
    ∃ x, ∀ n k, k ∈ h'.parts n → k ∈ h.parts n ∨ n = x ∧ h.Has k ∧ ¬h.Reaches k x := by
  -- what is made is not reached from anything that was there
  have hmade : ∀ {x : Node}, ¬h.Has x → ∀ k, h.Has k → h.Has k ∧ ¬h.Reaches k x :=
    fun hx k hk => ⟨hk, fun hr => hx (hb.reaches_has hk hr)⟩
  cases he with
  | alloc c hc =>
      refine ⟨.value ⟨h.cells.size⟩, fun n k hk => ?_⟩
      rcases (extends_alloc h c).mem_parts hk with hold | hnew
      · exact Or.inl hold
      · obtain rfl := made_alloc.mp hnew
        rw [parts, cell_alloc] at hk
        exact Or.inr ⟨rfl, hmade hnew.2 k (hc k hk)⟩
  | put name value next hp =>
      refine ⟨.binding ⟨h.bindings.size⟩, fun n k hk => ?_⟩
      rcases (extends_put h name value next).mem_parts hk with hold | hnew
      · exact Or.inl hold
      · obtain rfl := made_put.mp hnew
        rw [parts, binding_put] at hk
        exact Or.inr ⟨rfl, hmade hnew.2 k (hp k hk)⟩
  | overwrite b v hv =>
      refine ⟨.binding b, fun n k hk => ?_⟩
      by_cases hn : n = .binding b
      · subst hn
        have hhas : h.Has (.binding b) := overwritten_has.mp (has_of_mem_parts hk)
        rw [parts, overwritten_self hhas] at hk
        simp only [Binding.parts, List.mem_append] at hk
        rcases hk with hk | hk | hk
        · exact Or.inl (List.mem_append_left _ hk)
        · exact Or.inr ⟨rfl, hv k hk⟩
        · exact Or.inl (List.mem_append_right _ (List.mem_append_right _ hk))
      · rw [(overwritten_agreeAt hn).parts_eq] at hk
        exact Or.inl hk
  | splice b c hc =>
      refine ⟨.binding b, fun n k hk => ?_⟩
      cases n with
      | value a => exact Or.inl hk
      | binding b' =>
          by_cases hne : b = b'
          · subst hne
            have hhas : h.Has (.binding b) := has_modifyBinding.mp (has_of_mem_parts hk)
            rw [parts, binding_modifyBinding_self hhas] at hk
            simp only [Binding.parts, List.mem_append] at hk
            rcases hk with hk | hk | hk
            · exact Or.inl (List.mem_append_left _ hk)
            · exact Or.inl (List.mem_append_right _ (List.mem_append_left _ hk))
            · exact Or.inr ⟨rfl, hc k hk⟩
          · rw [parts, binding_modifyBinding_ne hne] at hk
            exact Or.inl hk
  | release n =>
      have hclears := clears_release (S := fun _ => True) (n := n) trivial h
      exact ⟨n, fun _ _ hk => Or.inl (hclears.mem_parts hk)⟩

theorem Edit.has {h h' : Heap} (he : h.Edit h') {n : Node} (hn : h.Has n) : h'.Has n := by
  cases he with
  | alloc c _ => exact (extends_alloc h c).has hn
  | put name value next _ => exact (extends_put h name value next).has hn
  | overwrite b v _ => exact overwritten_has.mpr hn
  | splice b c _ => exact has_modifyBinding.mpr hn
  | release k => exact (clears_release (S := fun _ => True) (n := k) trivial h).has_iff.mpr hn

/-- **An edit makes no cycle**, and no reference that leaves the heap. -/
theorem Edit.acyclic {h h' : Heap} (he : h.Edit h') (hb : h.Bounded) (hac : h.Acyclic) :
    h'.Bounded ∧ h'.Acyclic := by
  obtain ⟨x, hx⟩ := he.mem_parts hb
  constructor
  · intro n k hk
    rcases hx n k hk with hold | ⟨-, hhas, -⟩
    · exact he.has (hb n k hold)
    · exact he.has hhas
  · refine acyclic_of_added (x := x) (fun n k hk => ?_) hac
    rcases hx n k hk with hold | ⟨heq, -, hnot⟩
    · exact Or.inl hold
    · exact Or.inr ⟨heq, hnot⟩

/-- Nothing that is done to a heap, edit by edit, makes a cycle. -/
theorem Edits.acyclic {h h' : Heap} (he : h.Edits h') (hb : h.Bounded) (hac : h.Acyclic) :
    h'.Bounded ∧ h'.Acyclic := by
  induction he with
  | refl => exact ⟨hb, hac⟩
  | tail _ hstep ih => exact hstep.acyclic ih.1 ih.2

theorem bounded_empty : Heap.empty.Bounded := by
  intro n k hk
  rw [parts_of_not_has (by cases n <;> exact Nat.not_lt_zero _)] at hk
  cases hk

theorem acyclic_empty : Heap.empty.Acyclic := by
  intro n hcycle
  obtain ⟨k, hk, -⟩ := cyclic_iff.mp hcycle
  rw [parts_of_not_has (by cases n <;> exact Nat.not_lt_zero _)] at hk
  cases hk

/-! ## Paths are not longer than the heap -/

/-- Whether all of some nodes are in the heap, and their paths in it too, with `d` nodes at most. -/
def Confined (h : Heap) (d : Nat) (ns : List Node) : Prop :=
  ∀ n ∈ ns, EndsWithin h.Has h.parts d n

/-- What is reached without cycles is reached along paths no longer than the heap has nodes. -/
theorem AcyclicFrom.confined {h : Heap} (hb : h.Bounded) {ns : List Node}
    (hns : ∀ n ∈ ns, h.Has n ∧ h.AcyclicFrom n) : h.Confined h.depth ns := by
  intro n hn
  have hwithin : EndsWithin (fun k => h.Has k ∧ h.AcyclicFrom k) h.parts h.depth n := by
    refine endsWithin_of_acyclic ?_ ?_ ?_ (hns n hn)
    · exact fun a ha b hb' => ⟨hb a b hb', ha.2.of_reaches (.of_part hb')⟩
    · exact fun a ha => ha.2 a (.refl a)
    · exact fun l hd hl => length_le_depth hd fun k hk => (hl k hk).1
  exact hwithin.imp fun k hk => hk.1

/-- Recursion along references is well-founded where there are no cycles. -/
theorem Acyclic.wellFounded {h : Heap} (hb : h.Bounded) (hac : h.Acyclic) :
    WellFounded fun k n => k ∈ h.parts n := by
  refine ⟨fun n => ?_⟩
  by_cases hn : h.Has n
  · have hconf : h.Confined h.depth [n] := AcyclicFrom.confined hb fun k hk => by
      rw [List.mem_singleton.mp hk]
      exact ⟨hn, hac.acyclicFrom n⟩
    exact (hconf n List.mem_cons_self).acc
  · refine ⟨n, fun k hk => ?_⟩
    rw [parts_of_not_has hn] at hk
    cases hk

namespace Confined

variable {h : Heap} {d : Nat} {ns : List Node}

theorem subset {ks : List Node} (hns : h.Confined d ns) (hks : ∀ k ∈ ks, k ∈ ns) :
    h.Confined d ks :=
  fun k hk => hns k (hks k hk)

theorem parts {n : Node} (hns : h.Confined (d + 1) ns) (hn : n ∈ ns) : h.Confined d (h.parts n) :=
  (hns n hn).2

theorem has (hns : h.Confined d ns) {n : Node} (hn : n ∈ ns) : h.Has n := by
  cases d with
  | zero => exact (hns n hn).elim
  | succ d => exact (hns n hn).1

/-- Without any step there is nothing to come to. -/
theorem ref_eq_none {v : Ref} (hv : h.Confined 0 (Node.ofRef v)) : v = none := by
  cases v with
  | none => rfl
  | some a => exact (hv (.value a) (by simp)).elim

theorem chain_eq_none {c : Chain} (hc : h.Confined 0 (Node.ofChain c)) : c = none := by
  cases c with
  | none => rfl
  | some b => exact (hc (.binding b) (by simp)).elim

/-- The fields of a pair are reached with one step less. -/
theorem pair {a : Addr} {car cdr : Ref} (ha : h.Confined (d + 1) (Node.ofRef (some a)))
    (hcell : h.cell a = .live (.pair car cdr)) :
    h.Confined d (Node.ofRef car) ∧ h.Confined d (Node.ofRef cdr) := by
  have hparts : h.Confined d (h.parts (.value a)) := ha.parts (by simp)
  rw [Heap.parts, hcell] at hparts
  exact ⟨hparts.subset fun _ hk => List.mem_append_left _ hk,
    hparts.subset fun _ hk => List.mem_append_right _ hk⟩

/-- The parts of a closure are reached with one step less. -/
theorem closure {a : Addr} {c : Closure} (ha : h.Confined (d + 1) (Node.ofRef (some a)))
    (hcell : h.cell a = .live (.closure c)) :
    h.Confined d (Node.ofRef c.params) ∧ h.Confined d (Node.ofRef c.body) ∧
      h.Confined d (Node.ofChain c.captured) := by
  have hparts : h.Confined d (h.parts (.value a)) := ha.parts (by simp)
  rw [Heap.parts, hcell] at hparts
  exact ⟨hparts.subset fun _ hk => List.mem_append_left _ hk,
    hparts.subset fun _ hk => List.mem_append_right _ (List.mem_append_left _ hk),
    hparts.subset fun _ hk => List.mem_append_right _ (List.mem_append_right _ hk)⟩

/-- What a binding refers to is reached with one step less. -/
theorem fields {b : BindingId} (hb : h.Confined (d + 1) (Node.ofChain (some b))) :
    h.Confined d (Node.ofRef (h.binding b).name) ∧ h.Confined d (Node.ofRef (h.binding b).value) ∧
      h.Confined d (Node.ofChain (h.binding b).next) := by
  have hparts : h.Confined d (h.parts (.binding b)) := hb.parts (by simp)
  exact ⟨hparts.subset fun _ hk => List.mem_append_left _ hk,
    hparts.subset fun _ hk => List.mem_append_right _ (List.mem_append_left _ hk),
    hparts.subset fun _ hk => List.mem_append_right _ (List.mem_append_right _ hk)⟩

/-- Growing the heap does not make paths longer. -/
theorem of_extends {h' : Heap} (he : h.Extends h') (hns : h.Confined d ns) : h'.Confined d ns := by
  induction d generalizing ns with
  | zero => exact fun n hn => (hns n hn).elim
  | succ d ih =>
      intro n hn
      refine ⟨he.has (hns n hn).1, ?_⟩
      rw [(he.agreeAt (hns n hn).1).parts_eq]
      exact ih (hns.parts hn)

end Confined

end Heap

end ArenaLisp
