/-!
# Single-precision floats, exactly

Every finite float is a whole number of units of `2⁻¹⁴⁹`, the least positive
float. Reading a float as that whole number turns comparison and remainder into
integer arithmetic with no rounding at all; `nearestBits` is the one place where
an exact ratio is rounded back to a float.

The encoding makes the rounding short. Write a magnitude as `m · 2^s` units with
`m < 2²⁴`, and `s = 0` unless `m ≥ 2²³`; its bit pattern is then `m + s · 2²³`,
for small and large magnitudes alike, and a carry of `m` into `2²⁴` moves to the
next exponent by itself.
-/

namespace ArenaLisp.Single

/-- The exponent field: 255 for infinities and NaN, 0 below the least normal float. -/
def exponentField (x : Float32) : Nat := x.toBits.toNat / Nat.pow 2 23 % Nat.pow 2 8

/-- The fraction field, the low 23 bits. -/
def fractionField (x : Float32) : Nat := x.toBits.toNat % Nat.pow 2 23

/-- The sign bit, also of zeros. -/
def isNegative (x : Float32) : Bool := Nat.pow 2 31 ≤ x.toBits.toNat

def isNaN (x : Float32) : Bool := exponentField x == 255 && fractionField x != 0

def isInfinite (x : Float32) : Bool := exponentField x == 255 && fractionField x == 0

/--
The magnitude in units of `2⁻¹⁴⁹`. An infinity measures `2²⁷⁷`, one step past the
largest finite float, so it stands where an order by magnitude needs it.
-/
def magnitude (x : Float32) : Nat :=
  if exponentField x = 0 then fractionField x
  else (Nat.pow 2 23 + fractionField x) * Nat.pow 2 (exponentField x - 1)

/-- The signed value in units of `2⁻¹⁴⁹`; both zeros are 0. -/
def units (x : Float32) : Int :=
  if isNegative x then -(magnitude x : Int) else magnitude x

/-- The whole number nearest to `num / den`; a half goes to the even neighbour. -/
def roundHalfEven (num den : Nat) : Nat :=
  let whole := num / den
  let rest := num % den
  if den < 2 * rest ∨ (2 * rest = den ∧ whole % 2 = 1) then whole + 1 else whole

/-- How many units of `2⁻¹⁴⁹` make one. -/
def unitsPerOne : Nat := Nat.pow 2 149

/-- The bit pattern of positive infinity, the first beyond the finite floats. -/
def infinityBits : Nat := 255 * Nat.pow 2 23

/--
The bit pattern of the float nearest to `num / den`, at least `infinityBits` when
the ratio is too large.
-/
def nearestBits (num den : Nat) : Nat :=
  let scaled := num * unitsPerOne
  let shift := Nat.log2 (scaled / den) - 23
  roundHalfEven scaled (den * Nat.pow 2 shift) + shift * Nat.pow 2 23

/-- The float with the given sign and magnitude bits. -/
def ofSignBits (negative : Bool) (bits : Nat) : Float32 :=
  Float32.ofBits (UInt32.ofNat (if negative then bits + Nat.pow 2 31 else bits))

/-- The float nearest to a ratio, or nothing when the ratio is too large. -/
def ofRatio? (negative : Bool) (num den : Nat) : Option Float32 :=
  let bits := nearestBits num den
  if bits < infinityBits then some (ofSignBits negative bits) else none

def zero (negative : Bool) : Float32 := ofSignBits negative 0

def infinity (negative : Bool) : Float32 := ofSignBits negative infinityBits

def nan : Float32 := Float32.ofBits 0x7fc00000

/-- The float nearest to a whole number. -/
def ofInt (n : Int) : Float32 := (ofRatio? (n < 0) n.natAbs 1).getD (infinity (n < 0))

/-- The magnitude of a float, as a float. -/
def abs (x : Float32) : Float32 := Float32.ofBits (UInt32.ofNat (x.toBits.toNat % Nat.pow 2 31))

/--
The magnitude of the remainder of the division truncated toward zero. The
remainder of two floats is a float, so nothing is rounded. It is NaN when the
dividend is infinite or the divisor is zero, and the dividend's magnitude when the
divisor is infinite.
-/
def remainder (x y : Float32) : Float32 :=
  if isNaN x || isNaN y || isInfinite x || magnitude y == 0 then nan
  else if isInfinite y then abs x
  else (ofRatio? false (magnitude x % magnitude y) unitsPerOne).getD nan

end ArenaLisp.Single
