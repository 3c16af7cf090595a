import ArenaLisp.Arena
import Mathlib.Logic.Relation

/-!
# What refers to what

Values and bindings are the nodes of one graph: a pair refers to its two fields, a
closure to its parameters, its body and the first binding it took along, a binding to
its name, its value and the binding behind it. A released node refers to nothing.

What is reached from a node depends only on the nodes that are reached. Two heaps
that agree on those reach the same from it, and this is the one frame argument that
everything about the arena comes down to: a change somewhere else is not seen.

A node is *live* when everything it reaches is in the heap and not released.
-/

namespace ArenaLisp

namespace Node

/-- The node that a reference names, if it is there. -/
def ofRef (v : Ref) : List Node := v.toList.map .value

/-- The node at the front of a chain, if there is one. -/
def ofChain (c : Chain) : List Node := c.toList.map .binding

@[simp]
theorem mem_ofRef {v : Ref} {n : Node} : n ∈ ofRef v ↔ ∃ a, v = some a ∧ n = .value a := by
  cases v <;> simp [ofRef]

@[simp]
theorem mem_ofChain {c : Chain} {n : Node} :
    n ∈ ofChain c ↔ ∃ b, c = some b ∧ n = .binding b := by
  cases c <;> simp [ofChain]

end Node

/-- What a datum refers to. -/
def Datum.parts : Datum → List Node
  | .pair car cdr => Node.ofRef car ++ Node.ofRef cdr
  | .closure c => Node.ofRef c.params ++ (Node.ofRef c.body ++ Node.ofChain c.captured)
  | _ => []

/-- What a cell refers to. -/
def Cell.parts : Cell → List Node
  | .live d => d.parts
  | .released _ => []

/-- What a binding refers to. -/
def Binding.parts (b : Binding) : List Node :=
  Node.ofRef b.name ++ (Node.ofRef b.value ++ Node.ofChain b.next)

namespace Heap

/-- What a node refers to. -/
def parts (h : Heap) : Node → List Node
  | .value a => (h.cell a).parts
  | .binding b => (h.binding b).parts

/-- Whether a node is in the heap. -/
def Has (h : Heap) : Node → Prop
  | .value a => a.index < h.cells.size
  | .binding b => b.index < h.bindings.size

/-- Whether a node was released. -/
def Released (h : Heap) : Node → Prop
  | .value a => (h.cell a).isReleased = true
  | .binding b => (h.binding b).released = true

/-- Whether one node leads to another along references. -/
def Reaches (h : Heap) : Node → Node → Prop :=
  Relation.ReflTransGen fun n k => k ∈ h.parts n

/-- Whether a reference leads to a node. -/
def Holds (h : Heap) (v : Ref) (k : Node) : Prop := ∃ a, v = some a ∧ h.Reaches (.value a) k

/-- Whether everything a node reaches is in the heap and not released. -/
def Live (h : Heap) (n : Node) : Prop := ∀ k, h.Reaches n k → h.Has k ∧ ¬h.Released k

/-- Whether everything a reference leads to is in the heap and not released. -/
def LiveRef (h : Heap) (v : Ref) : Prop := ∀ k, h.Holds v k → h.Has k ∧ ¬h.Released k

/-- Whether two heaps have the same at a node. -/
def AgreeAt (h h' : Heap) : Node → Prop
  | .value a => h'.cell a = h.cell a
  | .binding b => h'.binding b = h.binding b

/-! ## Reading beyond the heap -/

theorem cell_of_not_has {h : Heap} {a : Addr} (ha : ¬h.Has (.value a)) : h.cell a = default := by
  have hn : h.cells[a.index]? = none := Array.getElem?_eq_none (Nat.le_of_not_lt ha)
  rw [cell, hn]; rfl

theorem binding_of_not_has {h : Heap} {b : BindingId} (hb : ¬h.Has (.binding b)) :
    h.binding b = default := by
  have hn : h.bindings[b.index]? = none := Array.getElem?_eq_none (Nat.le_of_not_lt hb)
  rw [binding, hn]; rfl

theorem parts_of_not_has {h : Heap} {n : Node} (hn : ¬h.Has n) : h.parts n = [] := by
  cases n with
  | value a => rw [parts, cell_of_not_has hn]; rfl
  | binding b => rw [parts, binding_of_not_has hn]; rfl

theorem has_of_mem_parts {h : Heap} {n k : Node} (hk : k ∈ h.parts n) : h.Has n := by
  refine Classical.byContradiction fun hn => ?_
  rw [parts_of_not_has hn] at hk
  cases hk

/-! ## Reaching and holding -/

theorem Reaches.refl {h : Heap} (n : Node) : h.Reaches n n := Relation.ReflTransGen.refl

theorem Reaches.trans {h : Heap} {n k l : Node} (hnk : h.Reaches n k) (hkl : h.Reaches k l) :
    h.Reaches n l :=
  Relation.ReflTransGen.trans hnk hkl

theorem Reaches.of_part {h : Heap} {n k : Node} (hk : k ∈ h.parts n) : h.Reaches n k :=
  Relation.ReflTransGen.single hk

/-- A node reaches itself and what its parts reach. -/
theorem reaches_iff {h : Heap} {n k : Node} :
    h.Reaches n k ↔ k = n ∨ ∃ p ∈ h.parts n, h.Reaches p k := by
  constructor
  · intro hk
    rcases Relation.ReflTransGen.cases_head hk with rfl | ⟨p, hp, hpk⟩
    · exact Or.inl rfl
    · exact Or.inr ⟨p, hp, hpk⟩
  · rintro (rfl | ⟨p, hp, hpk⟩)
    · exact Reaches.refl k
    · exact (Reaches.of_part hp).trans hpk

/-- What is reached stays within any set that references do not leave. -/
theorem Reaches.mem_of_closed {h : Heap} {S : Node → Prop} {n k : Node}
    (hS : ∀ m, S m → ∀ p ∈ h.parts m, S p) (hn : S n) (hk : h.Reaches n k) : S k := by
  induction hk with
  | refl => exact hn
  | tail _ hp ih => exact hS _ ih _ hp

theorem holds_none {h : Heap} {k : Node} : ¬h.Holds none k := by
  rintro ⟨a, ha, _⟩
  cases ha

theorem holds_some {h : Heap} {a : Addr} {k : Node} :
    h.Holds (some a) k ↔ h.Reaches (.value a) k := by
  constructor
  · rintro ⟨a', ha, hk⟩
    cases ha
    exact hk
  · exact fun hk => ⟨a, rfl, hk⟩

theorem holds_iff {h : Heap} {v : Ref} {k : Node} :
    h.Holds v k ↔ ∃ n ∈ Node.ofRef v, h.Reaches n k := by
  constructor
  · rintro ⟨a, rfl, hk⟩
    exact ⟨.value a, by simp, hk⟩
  · rintro ⟨n, hn, hk⟩
    obtain ⟨a, rfl, rfl⟩ := Node.mem_ofRef.mp hn
    exact ⟨a, rfl, hk⟩

/-! ## Live nodes -/

theorem Live.has {h : Heap} {n : Node} (hn : h.Live n) : h.Has n := (hn n (Reaches.refl n)).1

theorem Live.not_released {h : Heap} {n : Node} (hn : h.Live n) : ¬h.Released n :=
  (hn n (Reaches.refl n)).2

theorem Live.of_reaches {h : Heap} {n k : Node} (hn : h.Live n) (hk : h.Reaches n k) : h.Live k :=
  fun l hl => hn l (hk.trans hl)

theorem Live.part {h : Heap} {n k : Node} (hn : h.Live n) (hk : k ∈ h.parts n) : h.Live k :=
  hn.of_reaches (Reaches.of_part hk)

/-- A node is live when it is there and all its parts are. -/
theorem Live.of_parts {h : Heap} {n : Node} (hn : h.Has n) (hr : ¬h.Released n)
    (hp : ∀ k ∈ h.parts n, h.Live k) : h.Live n := by
  intro k hk
  rcases reaches_iff.mp hk with rfl | ⟨p, hpn, hpk⟩
  · exact ⟨hn, hr⟩
  · exact hp p hpn k hpk

theorem liveRef_none (h : Heap) : h.LiveRef none := fun _ hk => absurd hk holds_none

theorem liveRef_some {h : Heap} {a : Addr} : h.LiveRef (some a) ↔ h.Live (.value a) := by
  constructor
  · exact fun hv k hk => hv k (holds_some.mpr hk)
  · exact fun hv k hk => hv k (holds_some.mp hk)

theorem liveRef_iff {h : Heap} {v : Ref} : h.LiveRef v ↔ ∀ n ∈ Node.ofRef v, h.Live n := by
  cases v with
  | none => exact ⟨fun _ n hn => by simp at hn, fun _ => liveRef_none h⟩
  | some a =>
      rw [liveRef_some]
      constructor
      · intro hv n hn
        obtain ⟨a', ha, rfl⟩ := Node.mem_ofRef.mp hn
        cases ha
        exact hv
      · exact fun hv => hv _ (by simp)

/-! ## Heaps that agree on what is reached -/

theorem AgreeAt.refl (h : Heap) (n : Node) : h.AgreeAt h n := by cases n <;> rfl

theorem AgreeAt.symm {h h' : Heap} {n : Node} (hn : h.AgreeAt h' n) : h'.AgreeAt h n := by
  cases n with
  | value a => exact Eq.symm hn
  | binding b => exact Eq.symm hn

theorem AgreeAt.trans {h h' h'' : Heap} {n : Node} (hn : h.AgreeAt h' n)
    (hn' : h'.AgreeAt h'' n) : h.AgreeAt h'' n := by
  cases n with
  | value a => exact Eq.trans hn' hn
  | binding b => exact Eq.trans hn' hn

theorem AgreeAt.parts_eq {h h' : Heap} {n : Node} (hn : h.AgreeAt h' n) :
    h'.parts n = h.parts n := by
  cases n with
  | value a => exact congrArg Cell.parts hn
  | binding b => exact congrArg Binding.parts hn

theorem AgreeAt.released_iff {h h' : Heap} {n : Node} (hn : h.AgreeAt h' n) :
    h'.Released n ↔ h.Released n := by
  cases n with
  | value a => exact iff_of_eq (congrArg (fun c : Cell => c.isReleased = true) hn)
  | binding b => exact iff_of_eq (congrArg (fun c : Binding => c.released = true) hn)

/-- **The frame argument.** What is reached is the same where all that is reached is. -/
theorem reaches_congr {h h' : Heap} {n k : Node} (ha : ∀ l, h.Reaches n l → h.AgreeAt h' l) :
    h'.Reaches n k ↔ h.Reaches n k := by
  constructor
  · intro hk
    induction hk with
    | refl => exact Reaches.refl n
    | @tail l p _ hp ih =>
        rw [(ha l ih).parts_eq] at hp
        exact ih.trans (Reaches.of_part hp)
  · intro hk
    induction hk with
    | refl => exact Reaches.refl n
    | @tail l p hl hp ih =>
        rw [← (ha l hl).parts_eq] at hp
        exact ih.trans (Reaches.of_part hp)

theorem holds_congr {h h' : Heap} {v : Ref} {k : Node}
    (ha : ∀ l, h.Holds v l → h.AgreeAt h' l) : h'.Holds v k ↔ h.Holds v k := by
  cases v with
  | none => exact ⟨fun hk => absurd hk holds_none, fun hk => absurd hk holds_none⟩
  | some a =>
      rw [holds_some, holds_some]
      exact reaches_congr fun l hl => ha l (holds_some.mpr hl)

theorem liveRef_congr {h h' : Heap} {v : Ref} (hv : h.LiveRef v)
    (ha : ∀ k, h.Holds v k → h.AgreeAt h' k) (hs : ∀ k, h.Has k → h'.Has k) : h'.LiveRef v := by
  intro k hk
  have hk' := (holds_congr ha).mp hk
  exact ⟨hs k (hv k hk').1, fun hr => (hv k hk').2 ((ha k hk').released_iff.mp hr)⟩

/-! ## Walks -/

/-- A node and what is reached from it, once for every path, to a given depth. -/
def walk (h : Heap) : Nat → Node → List Node
  | 0, _ => []
  | n + 1, k => k :: (h.parts k).flatMap (h.walk n)

/-- The walks from a value and from a chain are walks of the graph. -/
theorem nodesTo_eq_walk (h : Heap) (n : Nat) :
    (∀ v, nodesTo n h v = (Node.ofRef v).flatMap (h.walk n)) ∧
    (∀ c, chainNodesTo n h c = (Node.ofChain c).flatMap (h.walk n)) := by
  induction n with
  | zero =>
      constructor
      · intro v
        cases v <;> simp [nodesTo, Node.ofRef, walk]
      · intro c
        cases c <;> simp [chainNodesTo, Node.ofChain, walk]
  | succ n ih =>
      obtain ⟨ihv, ihc⟩ := ih
      constructor
      · intro v
        cases v with
        | none => rfl
        | some a =>
            rw [nodesTo, Node.ofRef, Option.toList_some, List.map_singleton,
              List.flatMap_singleton, walk, parts]
            refine congrArg _ ?_
            cases h.cell a with
            | released husk => rfl
            | live d =>
                cases d with
                | pair car cdr =>
                    simp only [Cell.parts, Datum.parts, List.flatMap_append, ihv]
                | closure c =>
                    simp only [Cell.parts, Datum.parts, List.flatMap_append, ihv, ihc]
                | _ => rfl
      · intro c
        cases c with
        | none => rfl
        | some b =>
            rw [chainNodesTo, Node.ofChain, Option.toList_some, List.map_singleton,
              List.flatMap_singleton, walk, parts]
            simp only [Binding.parts, List.flatMap_append, ihv, ihc]

/-- A walk comes only to what is reached. -/
theorem reaches_of_mem_walk {h : Heap} {n : Nat} {p k : Node} (hk : k ∈ h.walk n p) :
    h.Reaches p k := by
  induction n generalizing p with
  | zero => cases hk
  | succ n ih =>
      rcases List.mem_cons.mp hk with rfl | hk
      · exact Reaches.refl k
      · obtain ⟨q, hq, hqk⟩ := List.mem_flatMap.mp hk
        exact (Reaches.of_part hq).trans (ih hqk)

theorem holds_of_mem_nodes {h : Heap} {v : Ref} {k : Node} (hk : k ∈ h.nodes v) : h.Holds v k := by
  rw [nodes, (nodesTo_eq_walk h h.depth).1] at hk
  obtain ⟨p, hp, hpk⟩ := List.mem_flatMap.mp hk
  exact holds_iff.mpr ⟨p, hp, reaches_of_mem_walk hpk⟩

/-- A deeper walk comes to at least as much. -/
theorem walk_mono {h : Heap} {n n' : Nat} {p k : Node} (hn : n ≤ n') (hk : k ∈ h.walk n p) :
    k ∈ h.walk n' p := by
  induction n generalizing n' p with
  | zero => cases hk
  | succ n ih =>
      obtain ⟨n', rfl⟩ : ∃ l, n' = l + 1 := ⟨n' - 1, by omega⟩
      rcases List.mem_cons.mp hk with rfl | hk
      · exact List.mem_cons_self
      · obtain ⟨q, hq, hqk⟩ := List.mem_flatMap.mp hk
        exact List.mem_cons_of_mem _ (List.mem_flatMap.mpr ⟨q, hq, ih (by omega) hqk⟩)

/-- Whether a walk to a given depth comes to everything that is reached. -/
def Within (h : Heap) (n : Nat) (p : Node) : Prop := ∀ k, h.Reaches p k → k ∈ h.walk n p

theorem Within.of_parts {h : Heap} {n : Nat} {p : Node} (hp : ∀ q ∈ h.parts p, h.Within n q) :
    h.Within (n + 1) p := by
  intro k hk
  rcases reaches_iff.mp hk with rfl | ⟨q, hq, hqk⟩
  · exact List.mem_cons_self
  · exact List.mem_cons_of_mem _ (List.mem_flatMap.mpr ⟨q, hq, hp q hq k hqk⟩)

/-- What a value holds is what the walk from it lists, when the walk is deep enough. -/
theorem mem_nodes_of_within {h : Heap} {v : Ref} {n : Nat} {k : Node} (hn : n ≤ h.depth)
    (hv : ∀ p ∈ Node.ofRef v, h.Within n p) (hk : h.Holds v k) : k ∈ h.nodes v := by
  rw [nodes, (nodesTo_eq_walk h h.depth).1]
  obtain ⟨p, hp, hpk⟩ := holds_iff.mp hk
  exact List.mem_flatMap.mpr ⟨p, hp, walk_mono hn (hv p hp k hpk)⟩

end Heap

end ArenaLisp
