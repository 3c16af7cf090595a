import ArenaLisp.Heap.Basic

/-!
# Equality of values

Numbers are equal by value, atoms by name, primitives by identity. Pairs are equal
when they have the very same fields, whatever those contain. Closures and invalid
values equal nothing, not even themselves. Releasing a value takes no part in
this beyond what it clears.
-/

namespace ArenaLisp

/-- Equality of two values that are not the empty list. -/
def Cell.same (a b : Cell) : Bool :=
  match a.number?, b.number? with
  | some x, some y => x.same y
  | _, _ =>
    a.kind == b.kind &&
      match a.kind with
      | .atom => a.name == b.name
      | .pair => a.car == b.car && a.cdr == b.cdr
      | .primitive => a.primitive? == b.primitive?
      | _ => false

/-- Equality of two values. An absent value is an empty list. -/
def Heap.same (h : Heap) (v w : Ref) : Bool :=
  if h.isNil v || h.isNil w then h.isNil v && h.isNil w
  else
    match h.cell? v, h.cell? w with
    | some a, some b => a.same b
    | _, _ => false

end ArenaLisp
