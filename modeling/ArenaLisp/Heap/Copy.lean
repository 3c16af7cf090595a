import ArenaLisp.Heap.Basic

/-!
# Deep copies

A copy is made of new cells and new bindings throughout and refers to nothing older;
only primitives are the same as before. What is reached along two paths is copied
twice, so a copy is always a tree. A copy of a released value is released; a copy
of a binding is not.
-/

namespace ArenaLisp.Heap

mutual

/-- Copies a value, to a given depth. -/
def copyTo : Nat → Heap → Ref → Ref × Heap
  | _, h, none => (none, h)
  | 0, h, some _ => (none, h)
  | n + 1, h, some a =>
    match h.cell a with
    | .live (.pair car cdr) =>
      let (car, h) := copyTo n h car
      let (cdr, h) := copyTo n h cdr
      h.new (.pair car cdr)
    | .live (.closure c) =>
      let (params, h) := copyTo n h c.params
      let (body, h) := copyTo n h c.body
      let (captured, h) := copyChainTo n h c.captured
      h.new (.closure ⟨params, body, captured⟩)
    | simple =>
      let (a, h) := h.alloc simple
      (some a, h)

/-- Copies a chain of bindings, to a given depth. -/
def copyChainTo : Nat → Heap → Chain → Chain × Heap
  | _, h, none => (none, h)
  | 0, h, some _ => (none, h)
  | n + 1, h, some b =>
    let binding := h.binding b
    let (name, h) := copyTo n h binding.name
    let (value, h) := copyTo n h binding.value
    let (next, h) := copyChainTo n h binding.next
    h.put name value next

end

/-- Copies a value. -/
def copy (h : Heap) (v : Ref) : Ref × Heap := copyTo h.depth h v

/-- Copies a chain of bindings with their names and values. -/
def copyChain (h : Heap) (c : Chain) : Chain × Heap := copyChainTo h.depth h c

end ArenaLisp.Heap
