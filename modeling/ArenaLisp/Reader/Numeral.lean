import ArenaLisp.Number.Basic
import ArenaLisp.Reader.Error

/-!
# Numerals

A numeral is an optional sign, digits with an optional fraction or a fraction
alone, and an optional exponent. It is kept as it was spelled: the spelling decides
between a whole number and a float, and messages quote it.
-/

namespace ArenaLisp

namespace Text

def isDigit (b : UInt8) : Bool := 0x30 ≤ b && b ≤ 0x39

def plusSign : UInt8 := 0x2b

def minusSign : UInt8 := 0x2d

def decimalPoint : UInt8 := 0x2e

/-- `e` or `E`. -/
def isExponentMark (b : UInt8) : Bool := b == 0x65 || b == 0x45

/-- Characters of ASCII text. -/
def ascii (s : Bytes) : String := String.ofList (s.map fun b => Char.ofNat b.toNat)

end Text

open Text

/-- The exponent of a numeral: its mark, its sign and its digits. -/
structure Exponent where
  mark : UInt8
  sign : Option UInt8
  digits : Bytes
deriving DecidableEq, Repr

structure Numeral where
  sign : Option UInt8
  whole : Bytes
  fraction : Option Bytes
  exponent : Option Exponent
deriving DecidableEq, Repr

namespace Numeral

/-- The sign at the head of a text, if there is one, and the rest. -/
def takeSign : Bytes → Option UInt8 × Bytes
  | [] => (none, [])
  | b :: rest => if b == plusSign || b == minusSign then (some b, rest) else (none, b :: rest)

/-- The digits at the head of a text and the rest. -/
def takeDigits (s : Bytes) : Bytes × Bytes := (s.takeWhile isDigit, s.dropWhile isDigit)

/-- A point and the digits that must follow it; otherwise nothing is taken. -/
def takeFraction (s : Bytes) : Option Bytes × Bytes :=
  match s with
  | [] => (none, [])
  | b :: rest =>
    let (digits, after) := takeDigits rest
    if b == decimalPoint && !digits.isEmpty then (some digits, after) else (none, s)

/-- A mark, an optional sign and the digits that must follow; otherwise nothing is taken. -/
def takeExponent (s : Bytes) : Option Exponent × Bytes :=
  match s with
  | [] => (none, [])
  | b :: rest =>
    let (sign, unsigned) := takeSign rest
    let (digits, after) := takeDigits unsigned
    if isExponentMark b && !digits.isEmpty then (some ⟨b, sign, digits⟩, after) else (none, s)

/-- The longest numeral at the head of a text, and the rest. -/
def scan? (s : Bytes) : Option (Numeral × Bytes) :=
  let (sign, s) := takeSign s
  let (whole, s) := takeDigits s
  let (fraction, s) := takeFraction s
  if whole.isEmpty && fraction.isNone then none
  else
    let (exponent, s) := takeExponent s
    some (⟨sign, whole, fraction, exponent⟩, s)

/-- The bytes of an exponent. -/
def Exponent.spelling (e : Exponent) : Bytes := e.mark :: (e.sign.toList ++ e.digits)

/-- The bytes of a numeral. -/
def spelling (n : Numeral) : Bytes :=
  n.sign.toList ++ n.whole ++
    (n.fraction.map (decimalPoint :: ·)).getD [] ++
    (n.exponent.map Exponent.spelling).getD []

/-- The value of a row of digits. -/
def digitsValue (digits : Bytes) : Nat := digits.foldl (fun n b => n * 10 + (b.toNat - 0x30)) 0

def isNegative (n : Numeral) : Bool := n.sign == some minusSign

/-- A numeral with a fraction or an exponent denotes a float. -/
def isFloat (n : Numeral) : Bool := n.fraction.isSome || n.exponent.isSome

/-- The value of an exponent. -/
def Exponent.value (e : Exponent) : Int :=
  if e.sign == some minusSign then -(digitsValue e.digits : Int) else digitsValue e.digits

/-- The magnitude of a numeral. -/
def decimal (n : Numeral) : Decimal :=
  let fraction := n.fraction.getD []
  ⟨digitsValue (n.whole ++ fraction), (n.exponent.map Exponent.value).getD 0 - fraction.length⟩

/-- The numeral as a float, or nothing when it is too large. -/
def toSingle? (n : Numeral) : Option Float32 := n.decimal.toSingle? n.isNegative

/-- The digits before the point as a whole number of 32 bits, or nothing. -/
def toInt32? (n : Numeral) : Option Int32 :=
  let magnitude : Int := digitsValue n.whole
  let value := if n.isNegative then -magnitude else magnitude
  if -Int.pow 2 31 ≤ value ∧ value < Int.pow 2 31 then some (Int32.ofInt value) else none

/-- The number a numeral denotes. -/
def value (n : Numeral) : Except ReadError Number :=
  if n.isFloat then
    match n.toSingle? with
    | some x => .ok (.float x)
    | none => .error (.floatRange (ascii n.spelling))
  else
    match n.toInt32? with
    | some i => .ok (.int i)
    | none => .error (.intRange (ascii n.spelling))

/-- The float that a text spells: a numeral, or the name of a special float. -/
def single? (text : String) : Option Float32 :=
  match text with
  | "NaN" => some Single.nan
  | "Inf" | "+Inf" => some (Single.infinity false)
  | "-Inf" => some (Single.infinity true)
  | _ =>
    match scan? (bytes text) with
    | some (n, []) => some (n.toSingle?.getD (Single.infinity n.isNegative))
    | _ => none

theorem takeSign_length (s : Bytes) : (takeSign s).2.length ≤ s.length := by
  cases s with
  | nil => simp [takeSign]
  | cons b rest => simp only [takeSign]; split <;> simp

theorem takeDigits_length (s : Bytes) :
    (takeDigits s).1.length + (takeDigits s).2.length = s.length := by
  rw [takeDigits, ← List.length_append, List.takeWhile_append_dropWhile]

theorem takeFraction_length (s : Bytes) : (takeFraction s).2.length ≤ s.length := by
  cases s with
  | nil => simp [takeFraction]
  | cons b rest =>
    have h := takeDigits_length rest
    simp only [takeFraction]
    split
    · simp only [List.length_cons]; omega
    · simp

/-- A fraction takes at least one byte. -/
theorem takeFraction_length_lt {s : Bytes} (h : (takeFraction s).1.isSome) :
    (takeFraction s).2.length < s.length := by
  cases s with
  | nil => simp [takeFraction] at h
  | cons b rest =>
    have hd := takeDigits_length rest
    simp only [takeFraction] at h ⊢
    split
    · simp only [List.length_cons]; omega
    · rename_i hn
      simp [hn] at h

theorem takeExponent_length (s : Bytes) : (takeExponent s).2.length ≤ s.length := by
  cases s with
  | nil => simp [takeExponent]
  | cons b rest =>
    have hs := takeSign_length rest
    have hd := takeDigits_length (takeSign rest).2
    simp only [takeExponent]
    split
    · simp only [List.length_cons]; omega
    · simp

/-- A numeral takes at least one byte. -/
theorem scan?_length {s rest : Bytes} {n : Numeral} (h : scan? s = some (n, rest)) :
    rest.length < s.length := by
  have hs := takeSign_length s
  have hd := takeDigits_length (takeSign s).2
  have hf := takeFraction_length (takeDigits (takeSign s).2).2
  have he := takeExponent_length (takeFraction (takeDigits (takeSign s).2).2).2
  simp only [scan?] at h
  split at h
  · simp at h
  · rename_i hne
    simp only [Option.some.injEq, Prod.mk.injEq] at h
    rw [← h.2]
    simp only [Bool.and_eq_true, not_and, List.isEmpty_iff] at hne
    by_cases hw : (takeDigits (takeSign s).2).1 = []
    · have hfs : (takeFraction (takeDigits (takeSign s).2).2).1.isSome := by
        cases hx : (takeFraction (takeDigits (takeSign s).2).2).1 with
        | none => simp [hx] at hne; exact absurd hw hne
        | some _ => rfl
      have := takeFraction_length_lt hfs
      omega
    · have : 0 < (takeDigits (takeSign s).2).1.length := List.length_pos_iff.mpr hw
      omega

end Numeral

end ArenaLisp
