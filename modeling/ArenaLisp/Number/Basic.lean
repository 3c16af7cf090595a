import ArenaLisp.Number.Decimal

/-!
# Numbers

Whole numbers have 32 bits and wrap; floats have single precision. An operation on
two whole numbers stays whole, and one that meets a float is done in floats.
Comparison is by exact value: a whole number and a float are equal when they are
the same number, and NaN is not comparable with anything.
-/

namespace ArenaLisp

inductive Number where
  | int (n : Int32)
  | float (x : Float32)
deriving DecidableEq

namespace Number

/-- The text of a number. -/
def text : Number → String
  | .int n => toString n.toInt
  | .float x => Single.text x

/-- The number as a float, rounded if it is whole. -/
def toSingle : Number → Float32
  | .int n => Single.ofInt n.toInt
  | .float x => x

/--
The exact value in units of `2⁻¹⁴⁹`, absent for NaN. Infinities stand beyond every
other number.
-/
def key : Number → Option Int
  | .int n => some (n.toInt * Single.unitsPerOne)
  | .float x => if Single.isNaN x then none else some (Single.units x)

/-- Whether two numbers have the same value; NaN equals nothing. -/
def same (a b : Number) : Bool :=
  match a.key, b.key with
  | some x, some y => x == y
  | _, _ => false

end Number

/-- The arithmetic operations. -/
inductive Arith where
  | add | sub | mul | div | mod
deriving DecidableEq, Repr

namespace Arith

/-- The name an operation reports its errors under. -/
def symbol : Arith → String
  | .add => "+"
  | .sub => "-"
  | .mul => "*"
  | .div => "/"
  | .mod => "%"

/--
The operation on whole numbers, reduced to 32 bits. A quotient is truncated toward
zero and a modulus is the magnitude of the remainder it leaves. Division by zero
has no result.
-/
def onInts (op : Arith) (a b : Int32) : Option Int32 :=
  match op with
  | .add => some (a + b)
  | .sub => some (a - b)
  | .mul => some (a * b)
  | .div => if b = 0 then none else some (Int32.ofInt (a.toInt.tdiv b.toInt))
  | .mod => if b = 0 then none else some (Int32.ofInt (a.toInt.tmod b.toInt).natAbs)

/-- The operation on floats, which always has a result. -/
def onSingles (op : Arith) (x y : Float32) : Float32 :=
  match op with
  | .add => x + y
  | .sub => x - y
  | .mul => x * y
  | .div => x / y
  | .mod => Single.remainder x y

/-- The operation on any two numbers; nothing on a division of whole numbers by zero. -/
def apply (op : Arith) (a b : Number) : Option Number :=
  match a, b with
  | .int m, .int n => (op.onInts m n).map .int
  | _, _ => some (.float (op.onSingles a.toSingle b.toSingle))

end Arith

/-- The order relations on numbers. -/
inductive Relation where
  | eq | gt | ge | lt | le
deriving DecidableEq, Repr

namespace Relation

/-- The name a relation reports its errors under. -/
def symbol : Relation → String
  | .eq => "="
  | .gt => ">"
  | .ge => ">="
  | .lt => "<"
  | .le => "<="

/-- The relation on exact values. -/
def onKeys (r : Relation) (x y : Int) : Bool :=
  match r with
  | .eq => x == y
  | .gt => y < x
  | .ge => y ≤ x
  | .lt => x < y
  | .le => x ≤ y

/-- Whether a relation holds between two numbers; none holds with NaN. -/
def holds (r : Relation) (a b : Number) : Bool :=
  match a.key, b.key with
  | some x, some y => r.onKeys x y
  | _, _ => false

end Relation

end ArenaLisp
