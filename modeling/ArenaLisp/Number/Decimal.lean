import ArenaLisp.Number.Single

/-!
# Decimal text of floats

`toSingle?` reads a decimal, rounding once. `shortest` goes the other way and
picks the decimal with the fewest digits that reads back as the same float: it
tries one digit, then two, and so on, and on each grid only the two neighbours of
the exact value. Reading back is checked with `toSingle?` itself, so that what is
printed is what is read.
-/

namespace ArenaLisp

/-- The number `digits · 10 ^ exponent`. -/
structure Decimal where
  digits : Nat
  exponent : Int
deriving DecidableEq, Repr

namespace Decimal

/-- How many decimal digits a number has; zero has one. -/
def digitCount (n : Nat) : Nat := (Nat.toDigits 10 n).length

/--
The float nearest to a decimal, or nothing when it is too large. A decimal far
outside the range of the floats is settled by the place of its first digit: every
number from `10³⁹` on is too large, and every one below `10⁻⁴⁶` rounds to zero.
-/
def toSingle? (negative : Bool) (d : Decimal) : Option Float32 :=
  let top := d.exponent + digitCount d.digits
  if d.digits = 0 then some (Single.zero negative)
  else if 39 < top then none
  else if top < -45 then some (Single.zero negative)
  else
    Single.ofRatio? negative (d.digits * Nat.pow 10 d.exponent.toNat)
      (Nat.pow 10 (-d.exponent).toNat)

/-- The power of ten of the first digit of a positive magnitude, in units of `2⁻¹⁴⁹`. -/
def leadingExponent (magnitude : Nat) : Int :=
  (digitCount (magnitude * Nat.pow 10 45 / Single.unitsPerOne) : Int) - 46

/--
The two neighbours of a magnitude among the multiples of `10 ^ exponent`, the
nearer one first; of two equally near ones the even one is first.
-/
def neighbours (magnitude : Nat) (exponent : Int) : List Decimal :=
  let num := magnitude * Nat.pow 10 (-exponent).toNat
  let den := Single.unitsPerOne * Nat.pow 10 exponent.toNat
  let below := num / den
  let above := below + 1
  if Single.roundHalfEven num den = below then [⟨below, exponent⟩, ⟨above, exponent⟩]
  else [⟨above, exponent⟩, ⟨below, exponent⟩]

/-- The exact decimal expansion of a magnitude. -/
def exact (magnitude : Nat) : Decimal := ⟨magnitude * Nat.pow 5 149, -149⟩

/-- Whether a decimal reads back as the given positive float. -/
def readsAs (x : Float32) (d : Decimal) : Bool := d.toSingle? false == some x

/--
The decimal with the fewest digits that reads back as a positive finite float, and
the nearest of those. Nine digits always suffice.
-/
def shortest (x : Float32) : Decimal :=
  let magnitude := Single.magnitude x
  let leading := leadingExponent magnitude
  let found := (List.range 9).findSome? fun (places : Nat) =>
    (neighbours magnitude (leading - places)).find? (readsAs x)
  found.getD (exact magnitude)

/-- The digits of a decimal without the zeros at the end. -/
def significant (d : Decimal) : List Char :=
  ((Nat.toDigits 10 d.digits).reverse.dropWhile (· == '0')).reverse

/-- The power of ten of the first digit. -/
def leading (d : Decimal) : Int := d.exponent + digitCount d.digits - 1

/-- Which powers of ten of the first digit are written without an exponent. -/
structure Layout where
  least : Int
  below : Int

/-- Floats from 0.0001 up to but excluding a million are written without an exponent. -/
def Layout.standard : Layout := ⟨-4, 6⟩

/-- An exponent: its sign, then at least two digits. -/
def exponentText (e : Int) : List Char :=
  let digits := Nat.toDigits 10 e.natAbs
  (if e < 0 then '-' else '+') :: (if digits.length < 2 then '0' :: digits else digits)

/-- One digit, the others after a point, and the exponent. -/
def scientific (digits : List Char) (leading : Int) : List Char :=
  let mantissa := match digits with
    | d :: e :: rest => d :: '.' :: e :: rest
    | short => short
  mantissa ++ 'e' :: exponentText leading

/-- The digits around a point, with at least one digit on either side. -/
def positional (digits : List Char) (leading : Int) : List Char :=
  if leading < 0 then
    '0' :: '.' :: (List.replicate (-leading - 1).toNat '0' ++ digits)
  else
    let places := leading.toNat + 1
    let whole := digits.take places ++ List.replicate (places - digits.length) '0'
    let fraction := digits.drop places
    whole ++ '.' :: (if fraction.isEmpty then ['0'] else fraction)

/-- The text of a positive decimal. -/
def text (layout : Layout) (d : Decimal) : List Char :=
  if d.leading < layout.least ∨ layout.below ≤ d.leading then
    scientific d.significant d.leading
  else positional d.significant d.leading

end Decimal

/-- The text of a float: it always has a point or an exponent, or it is a special. -/
def Single.text (x : Float32) : String :=
  if isNaN x then "NaN"
  else if isInfinite x then (if isNegative x then "-Inf" else "+Inf")
  else
    let body :=
      if magnitude x = 0 then ['0', '.', '0']
      else (Decimal.shortest (abs x)).text .standard
    String.ofList (if isNegative x then '-' :: body else body)

end ArenaLisp
