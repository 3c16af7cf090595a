import ArenaLisp.Proofs.Duplication
import ArenaLisp.Proofs.Release
import ArenaLisp.Proofs.Trails

/-!
# Registering and releasing

Registering a value registers everything that it holds, once for every path that leads there.
Releasing goes through what is registered one by one. What a node becomes does not depend on when
its turn comes, and releasing it again changes nothing, so all of them are released as if at once:
the heap is *swept* (`foldl_release`). Neither the order nor the number of registrations is left
in it.
-/

namespace ArenaLisp

namespace Heap

/-- The heap with the nodes of a list released: their references are gone and they are marked. -/
def sweep (h : Heap) (ns : List Node) : Heap where
  cells := h.cells.mapIdx fun i c => if .value ⟨i⟩ ∈ ns then .released c.husk else c
  bindings := h.bindings.mapIdx fun i b => if .binding ⟨i⟩ ∈ ns then .husk else b

theorem sweep_nil (h : Heap) : h.sweep [] = h := by
  cases h with
  | mk cells bindings =>
      have hcells : cells.mapIdx (fun _ c => c) = cells := by apply Array.ext <;> simp
      have hbindings : bindings.mapIdx (fun _ b => b) = bindings := by apply Array.ext <;> simp
      simp [sweep, hcells, hbindings]

/-- A swept heap depends on which nodes are released, not on their order or number. -/
theorem sweep_congr {ns ns' : List Node} (hns : ∀ n, n ∈ ns ↔ n ∈ ns') (h : Heap) :
    h.sweep ns = h.sweep ns' := by
  simp only [sweep, hns]

/-- A change that has no effect a second time can as well be made at one place before. -/
theorem mapIdx_modify {α : Type} {f : α → α} (hf : ∀ x, f (f x) = f x) {S T : Nat → Prop}
    [DecidablePred S] [DecidablePred T] {j : Nat} (hS : ∀ i, T i ↔ j = i ∨ S i) (xs : Array α) :
    (xs.modify j f).mapIdx (fun i x => if S i then f x else x) =
      xs.mapIdx fun i x => if T i then f x else x := by
  apply Array.ext
  · simp
  · intro i hi hi'
    simp only [Array.getElem_mapIdx, Array.getElem_modify, hS]
    by_cases hij : j = i
    · simp [hij, hf]
    · simp [hij]

/-- A node that is released before the others is one of those that are. -/
theorem sweep_release (h : Heap) (n : Node) (ns : List Node) :
    (h.release n).sweep ns = h.sweep (n :: ns) := by
  cases n with
  | value a =>
      have hcells := mapIdx_modify (f := fun c : Cell => .released c.husk) (fun _ => rfl)
        (S := (.value ⟨·⟩ ∈ ns)) (T := (.value ⟨·⟩ ∈ Node.value a :: ns)) (j := a.index)
        (fun i => by rcases a with ⟨j⟩; simp [eq_comm]) h.cells
      simpa [sweep, release] using hcells
  | binding b =>
      have hbindings := mapIdx_modify (f := fun _ : Binding => .husk) (fun _ => rfl)
        (S := (.binding ⟨·⟩ ∈ ns)) (T := (.binding ⟨·⟩ ∈ Node.binding b :: ns)) (j := b.index)
        (fun i => by rcases b with ⟨j⟩; simp [eq_comm]) h.bindings
      simpa [sweep, release, modifyBinding] using hbindings

/-- **Releasing nodes one by one releases them all at once.** -/
theorem foldl_release (h : Heap) (ns : List Node) : ns.foldl release h = h.sweep ns := by
  induction ns generalizing h with
  | nil => exact (sweep_nil h).symm
  | cons n ns ih => rw [List.foldl_cons, ih, sweep_release]

/-! ## What is registered -/

section

variable {h : Heap} {v : Ref} (hv : ∀ k, h.Holds v k → h.Has k ∧ ¬h.Cyclic k)

include hv

theorem acyclicFrom_of_holds {n : Node} (hn : n ∈ Node.ofRef v) : h.AcyclicFrom n :=
  fun k hk => (hv k (holds_iff.mpr ⟨n, hn, hk⟩)).2

/-- Without cycles, the nodes of a value are what it holds, -/
theorem mem_nodes_iff {k : Node} : k ∈ h.nodes v ↔ h.Holds v k := by
  refine ⟨holds_of_mem_nodes, fun hk => ?_⟩
  obtain ⟨n, hn, hreach⟩ := holds_iff.mp hk
  rw [nodes, (nodesTo_eq_walk h _).1]
  exact List.mem_flatMap.mpr ⟨n, hn, (acyclicFrom_of_holds hv hn).mem_walk hreach (hv k hk).1⟩

/-- each once for every path that leads there. -/
theorem count_nodes (k : Node) : ((h.nodes v).count k : ℕ∞) = (h.pathsTo v k).encard := by
  rw [nodes, (nodesTo_eq_walk h _).1]
  cases v with
  | none => simp [Node.ofRef, pathsTo]
  | some a =>
      have hroot : Node.value a ∈ Node.ofRef (some a) := List.mem_singleton_self _
      have hcount := (acyclicFrom_of_holds hv hroot).count_walk (k := k)
        fun hk => (hv k (holds_iff.mpr ⟨_, hroot, hk⟩)).1
      simpa [Node.ofRef, pathsTo] using hcount

end

end Heap

namespace Machine

/--
**Registering a value without cycles** registers, behind what was registered, exactly the values
and bindings that it holds, each as often as paths lead to it. **Releasing** counts the
registrations, releases what is registered and nothing else, and leaves an empty arena. The heap
that is left is the same for any order and number of the registrations.
-/
theorem registers_what_is_held {m : Machine} {v : Ref}
    (hv : ∀ k, m.heap.Holds v k → m.heap.Has k ∧ ¬m.heap.Cyclic k) :
    (∃ registered : List Node,
      EvalM.trackAll v m = .ok ()
        { m with arena := { m.arena with tracked := m.arena.tracked ++ registered } } ∧
      (∀ k, k ∈ registered ↔ m.heap.Holds v k) ∧
      ∀ k, (registered.count k : ℕ∞) = (m.heap.pathsTo v k).encard) ∧
    (∀ t : Machine, t.releaseAll = (t.arena.tracked.size,
      { t with
        heap := t.heap.sweep t.arena.tracked.toList
        arena := ⟨#[], t.arena.generation + 1⟩ })) ∧
    ∀ t t' : Machine, t.heap = t'.heap → (∀ n, n ∈ t.arena.tracked ↔ n ∈ t'.arena.tracked) →
      t.releaseAll.2.heap = t'.releaseAll.2.heap := by
  have hrelease : ∀ t : Machine, t.releaseAll = (t.arena.tracked.size,
      { t with
        heap := t.heap.sweep t.arena.tracked.toList
        arena := ⟨#[], t.arena.generation + 1⟩ }) := by
    intro t
    rw [← Heap.foldl_release, Array.foldl_toList]
    rfl
  refine ⟨⟨m.heap.nodes v, rfl, fun _ => Heap.mem_nodes_iff hv, Heap.count_nodes hv⟩, hrelease, ?_⟩
  intro t t' hheap hsame
  rw [hrelease t, hrelease t', hheap]
  exact Heap.sweep_congr (fun n => by simpa using hsame n) t'.heap

/-- Five paths lead from the closure to the atom, which is registered once more besides. -/
theorem registers_what_is_held_entangled :
    (∀ k, Heap.entangled.Holds (some ⟨3⟩) k → Heap.entangled.Has k ∧ ¬Heap.entangled.Cyclic k) ∧
    (Heap.entangled.pathsTo (some ⟨3⟩) (.value ⟨0⟩)).encard = 5 ∧
    ∃ m', EvalM.trackAll (some ⟨3⟩) ⟨Heap.entangled, ⟨#[.value ⟨0⟩], 7⟩, none, #[]⟩ = .ok () m' ∧
      m'.releaseAll.1 = 11 ∧ m'.releaseAll.2.arena = ⟨#[], 8⟩ ∧
      m'.releaseAll.2.heap = ⟨#[.released (.atom "x"), .released .pair, .released (.atom "y"),
        .released .closure], #[.husk]⟩ := by
  obtain ⟨hb, hac⟩ := Heap.entangled_edits.acyclic Heap.bounded_empty Heap.acyclic_empty
  have hheld : ∀ k, Heap.entangled.Holds (some ⟨3⟩) k →
      Heap.entangled.Has k ∧ ¬Heap.entangled.Cyclic k := by
    intro k hk
    have hroot : Heap.entangled.Has (.value ⟨3⟩) := by simp [Heap.Has, Heap.entangled]
    exact ⟨hb.reaches_has hroot (Heap.holds_some.mp hk), hac k⟩
  obtain ⟨⟨registered, htrack, -, hcount⟩, hrelease, -⟩ := registers_what_is_held
    (m := ⟨Heap.entangled, ⟨#[.value ⟨0⟩], 7⟩, none, #[]⟩) hheld
  obtain rfl : registered = Heap.entangled.nodes (some ⟨3⟩) := by
    have harena := congrArg (fun r => (finalMachine r).arena.tracked) htrack
    simpa [EvalM.trackAll, finalMachine, Arena.trackNodes] using harena.symm
  refine ⟨hheld, ?_, _, htrack, ?_⟩
  · rw [← hcount]
    decide +kernel
  · rw [hrelease]
    decide +kernel

end Machine

end ArenaLisp
