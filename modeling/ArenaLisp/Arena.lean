import ArenaLisp.Heap.Basic

/-!
# The arena

While an expression is evaluated, what is made for it is registered in the arena;
when it is done, everything registered is released at once. The arena does not ask
what is still in use: what has to stay must have been copied first. A node may be
registered more than once.
-/

namespace ArenaLisp

/-- What can be registered: a value or a binding. -/
inductive Node where
  | value (a : Addr)
  | binding (b : BindingId)
deriving DecidableEq, Repr

structure Arena where
  /-- What is registered, in the order of registration. -/
  tracked : Array Node
  /-- How often the arena has been released, modulo 2^64. -/
  generation : UInt64
deriving DecidableEq

namespace Heap

mutual

/-- A value and everything reached from it, once for every path, to a given depth. -/
def nodesTo : Nat → Heap → Ref → List Node
  | _, _, none => []
  | 0, _, some _ => []
  | n + 1, h, some a =>
    .value a ::
      match h.cell a with
      | .live (.pair car cdr) => nodesTo n h car ++ nodesTo n h cdr
      | .live (.closure c) =>
        nodesTo n h c.params ++ (nodesTo n h c.body ++ chainNodesTo n h c.captured)
      | _ => []

/-- The bindings of a chain with everything reached from them, to a given depth. -/
def chainNodesTo : Nat → Heap → Chain → List Node
  | _, _, none => []
  | 0, _, some _ => []
  | n + 1, h, some b =>
    let binding := h.binding b
    .binding b ::
      (nodesTo n h binding.name ++ (nodesTo n h binding.value ++ chainNodesTo n h binding.next))

end

/-- A value and everything reached from it, once for every path. -/
def nodes (h : Heap) (v : Ref) : List Node := nodesTo h.depth h v

/-- Releases one node: its references are gone and it is marked. -/
def release (h : Heap) : Node → Heap
  | .value a => { h with cells := h.cells.modify a.index fun c => .released c.husk }
  | .binding b => h.modifyBinding b fun _ => .husk

end Heap

namespace Arena

def empty : Arena := ⟨#[], 0⟩

/-- Registers a value alone. -/
def track (m : Arena) (v : Ref) : Arena :=
  match v with
  | none => m
  | some a => { m with tracked := m.tracked.push (.value a) }

/-- Registers nodes in order. -/
def trackNodes (m : Arena) (nodes : List Node) : Arena :=
  { m with tracked := m.tracked ++ nodes }

/-- Registers bindings in order, without what they bind. -/
def trackBindings (m : Arena) (bindings : List BindingId) : Arena :=
  m.trackNodes (bindings.map .binding)

/-- Releases everything registered. -/
def releaseAll (m : Arena) (h : Heap) : Arena × Heap :=
  (⟨#[], m.generation + 1⟩, m.tracked.foldl Heap.release h)

end Arena

end ArenaLisp
