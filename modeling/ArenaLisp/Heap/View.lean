import ArenaLisp.Heap.Basic
import ArenaLisp.Tree.Printer

/-!
# Values of the heap as trees

`view` follows the references of a value and unfolds it; `store` builds a tree in
the heap, out of new cells only.
-/

namespace ArenaLisp.Heap

mutual

/-- Unfolds a value, to a given depth. -/
def viewTo : Nat → Heap → Ref → Tree
  | _, _, none => .absent
  | 0, _, some _ => .absent
  | n + 1, h, some a =>
    match h.cell a with
    | .released husk => .released husk
    | .live (.atom name) => .atom name
    | .live (.number x) => .number x
    | .live (.pair car cdr) => .pair (viewTo n h car) (viewTo n h cdr)
    | .live (.primitive p) => .primitive p
    | .live (.closure c) =>
      .closure (viewTo n h c.params) (viewTo n h c.body) (viewChainTo n h c.captured)
    | .live (.unknown code) => .unknown code

/-- Unfolds a chain of bindings, to a given depth. -/
def viewChainTo : Nat → Heap → Chain → Scope
  | _, _, none => .empty
  | 0, _, some _ => .empty
  | n + 1, h, some b =>
    let binding := h.binding b
    .binding binding.released (viewTo n h binding.name) (viewTo n h binding.value)
      (viewChainTo n h binding.next)

end

/-- A value, unfolded. -/
def view (h : Heap) (v : Ref) : Tree := viewTo h.depth h v

/-- A chain of bindings, unfolded. -/
def viewChain (h : Heap) (c : Chain) : Scope := viewChainTo h.depth h c

/-- The text of a value. -/
def render (h : Heap) (v : Ref) : String := (h.view v).render

mutual

/-- Builds a tree out of new cells. -/
def store : Tree → Heap → Ref × Heap
  | .absent, h => (none, h)
  | .released husk, h =>
    let (a, h) := h.alloc (.released husk)
    (some a, h)
  | .atom name, h => h.new (.atom name)
  | .number n, h => h.new (.number n)
  | .pair car cdr, h =>
    let (car, h) := store car h
    let (cdr, h) := store cdr h
    h.new (.pair car cdr)
  | .primitive p, h => h.new (.primitive p)
  | .closure params body captured, h =>
    let (params, h) := store params h
    let (body, h) := store body h
    let (captured, h) := storeScope captured h
    h.new (.closure ⟨params, body, captured⟩)
  | .unknown code, h => h.new (.unknown code)

/-- Builds a chain of bindings out of new cells. -/
def storeScope : Scope → Heap → Chain × Heap
  | .empty, h => (none, h)
  | .binding released name value rest, h =>
    let (next, h) := storeScope rest h
    let (name, h) := store name h
    let (value, h) := store value h
    (some ⟨h.bindings.size⟩,
      { h with bindings := h.bindings.push ⟨name, value, next, released⟩ })

end

end ArenaLisp.Heap
