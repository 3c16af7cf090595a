import ArenaLisp.Tree.Basic

/-!
# The heap

Values and bindings live in cells that are named by their place and never move.
Several references may name one cell, and whether they do can be told: lists are
compared by it, and releasing a cell is seen through all of them.

A value cell is either live, with its datum, or released, with the husk of the
datum it had. A released value therefore has no references by its very form. A
binding keeps its link when it is released only in so far as a later splice may
give it a new one.

Reading a place beyond the heap gives an invalid value; no reference that the
operations of this library hand out names such a place.
-/

namespace ArenaLisp

/-- The place of a value. -/
structure Addr where
  index : Nat
deriving DecidableEq, Repr

/-- The place of a binding. -/
structure BindingId where
  index : Nat
deriving DecidableEq, Repr

/-- A reference to a value, which may be absent. -/
abbrev Ref := Option Addr

/-- An environment: the front of a chain of bindings, absent when there are none. -/
abbrev Chain := Option BindingId

/-- A procedure: its parameters, its body and the bindings it took along when it was made. -/
structure Closure where
  params : Ref
  body : Ref
  captured : Chain
deriving DecidableEq, Repr

/-- What a live value is. -/
inductive Datum where
  | atom (name : String)
  | number (n : Number)
  | pair (car cdr : Ref)
  | primitive (p : Primitive)
  | closure (c : Closure)
  | unknown (code : Nat)
deriving DecidableEq

inductive Cell where
  | live (d : Datum)
  | released (husk : Husk)
deriving DecidableEq

/-- A name and a value, and the bindings behind them in the chain. -/
structure Binding where
  name : Ref
  value : Ref
  next : Chain
  released : Bool
deriving DecidableEq

structure Heap where
  cells : Array Cell
  bindings : Array Binding
deriving DecidableEq

namespace Datum

/-- The empty list. -/
def nil : Datum := .pair none none

/-- The truth atom. -/
def truth : Datum := .atom truthName

/-- What is left of a datum once it is released. -/
def husk : Datum → Husk
  | .atom name => .atom name
  | .number n => .number n
  | .pair _ _ => .pair
  | .primitive _ => .primitive
  | .closure _ => .closure
  | .unknown code => .unknown code

/-- The datum of a kind with nothing filled in; procedures have no such datum. -/
def blank? : Kind → Option Datum
  | .atom => some (.atom "")
  | .pair => some nil
  | .integer => some (.number (.int 0))
  | .float => some (.number (.float (Single.zero false)))
  | .primitive | .closure => none
  | .unknown code => some (.unknown code)

end Datum

namespace Cell

instance : Inhabited Cell := ⟨.live (.unknown 0)⟩

/-- What the cell keeps when it is released. -/
def husk : Cell → Husk
  | .live d => d.husk
  | .released husk => husk

def isReleased : Cell → Bool
  | .live _ => false
  | .released _ => true

def kind (c : Cell) : Kind := c.husk.kind

/-- The name of an atom, released or not; the empty name for other values. -/
def name (c : Cell) : String :=
  match c.husk with
  | .atom name => name
  | _ => ""

/-- The number of a numeric value, released or not. -/
def number? (c : Cell) : Option Number :=
  match c.husk with
  | .number n => some n
  | _ => none

/-- The first field of a pair. -/
def car : Cell → Ref
  | .live (.pair car _) => car
  | _ => none

/-- The second field of a pair. -/
def cdr : Cell → Ref
  | .live (.pair _ cdr) => cdr
  | _ => none

/-- The primitive that a live value refers to. -/
def primitive? : Cell → Option Primitive
  | .live (.primitive p) => some p
  | _ => none

/-- A pair with both fields absent, as a released pair is. -/
def isNil (c : Cell) : Bool := c.kind == .pair && c.car.isNone && c.cdr.isNone

end Cell

namespace Binding

instance : Inhabited Binding := ⟨⟨none, none, none, false⟩⟩

/-- What is left of a released binding. -/
def husk : Binding := ⟨none, none, none, true⟩

end Binding

namespace Heap

def empty : Heap := ⟨#[], #[]⟩

/-- The cell at a place. -/
def cell (h : Heap) (a : Addr) : Cell := h.cells[a.index]?.getD default

/-- The binding at a place. -/
def binding (h : Heap) (b : BindingId) : Binding := h.bindings[b.index]?.getD default

/-- The cell that a reference names, if the reference is there. -/
def cell? (h : Heap) (v : Ref) : Option Cell := v.map h.cell

/-- Makes a cell. -/
def alloc (h : Heap) (c : Cell) : Addr × Heap :=
  (⟨h.cells.size⟩, { h with cells := h.cells.push c })

/-- Makes a live value and refers to it. -/
def new (h : Heap) (d : Datum) : Ref × Heap :=
  let (a, h) := h.alloc (.live d)
  (some a, h)

/-- Makes a binding in front of a chain. -/
def put (h : Heap) (name value : Ref) (next : Chain) : Chain × Heap :=
  (some ⟨h.bindings.size⟩, { h with bindings := h.bindings.push ⟨name, value, next, false⟩ })

/-- Changes one binding. -/
def modifyBinding (h : Heap) (b : BindingId) (f : Binding → Binding) : Heap :=
  { h with bindings := h.bindings.modify b.index f }

/-- Makes a proper list of the given values. -/
def list (h : Heap) : List Ref → Ref × Heap
  | [] => h.new .nil
  | v :: vs =>
    let (tail, h) := h.list vs
    h.new (.pair v tail)

/--
How many cells and bindings there are. A path along references that comes to no
place twice is no longer than that, so walks of this depth are complete on every
heap without cycles.
-/
def depth (h : Heap) : Nat := h.cells.size + h.bindings.size

/-- Whether a reference is absent or names an empty pair. -/
def isNil (h : Heap) (v : Ref) : Bool := (h.cell? v).all Cell.isNil

/-- Whether a reference names the truth atom. -/
def isTruth (h : Heap) (v : Ref) : Bool :=
  (h.cell? v).any fun c => c.kind == .atom && c.name == truthName

/-- Whether a reference names a number. -/
def isNumeric (h : Heap) (v : Ref) : Bool := (h.cell? v).any fun c => c.number?.isSome

/-- Whether a reference is absent or names a pair. -/
def isList (h : Heap) (v : Ref) : Bool := (h.cell? v).all fun c => c.kind == .pair

/-- Whether a reference names a released value. -/
def isReleased (h : Heap) (v : Ref) : Bool := (h.cell? v).any Cell.isReleased

/-- The first fields along a list, and the tail where the pairs end, to a given depth. -/
def spineTo : Nat → Heap → Ref → List Ref × Ref
  | 0, _, v => ([], v)
  | _ + 1, _, none => ([], none)
  | n + 1, h, some a =>
    let c := h.cell a
    if c.kind == .pair && !c.isNil then
      let (cars, tail) := spineTo n h c.cdr
      (c.car :: cars, tail)
    else ([], some a)

/-- The first fields along a list, and the tail where the pairs end. -/
def spine (h : Heap) (v : Ref) : List Ref × Ref := spineTo h.cells.size h v

/-- The elements of a proper list. -/
def elements? (h : Heap) (v : Ref) : Option (List Ref) :=
  let (cars, tail) := h.spine v
  if h.isNil tail then some cars else none

end Heap

end ArenaLisp
