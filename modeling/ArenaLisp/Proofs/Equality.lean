import ArenaLisp.Heap.Compare
import ArenaLisp.Proofs.Bits
import Mathlib

/-!
# Equality of values

Two values are equal when they have one *identity*: the empty list is one, a number has its exact
value, an atom its name, a pair its two references, a primitive what it refers to. A closure, a NaN
and an invalid value have none. So equality is symmetric and transitive over values of all kinds,
and it is reflexive exactly where there is an identity.

The exact value of a number is counted in units, and the count stands for the number itself
(`Number.value?_eq`). So nothing is rounded in a comparison, and every format that holds the whole
numbers and the floats exactly finds the same numbers equal (`Wide.same_eq`).
-/

namespace ArenaLisp

open Float.Model (UnpackedFloat)
open Float.Model.UnpackedFloat (unpackSign unpackExponent unpackMantissa)

/-! ## The value of a float -/

namespace Single

/-- A magnitude with a sign. -/
noncomputable def signed : UnpackedFloat.Sign → EReal → EReal
  | .negative, x => -x
  | .positive, x => x

/-- The number that a float stands for, taken apart; NaN is no number. -/
noncomputable def valueOf? : UnpackedFloat → Option EReal
  | .notANumber => none
  | .infinity s => some (signed s ⊤)
  | .zero _ => some 0
  | .finite s m e _ => some (signed s ((m * 2 ^ e : ℝ) : EReal))

/-- The number that a float stands for. -/
noncomputable def value? (x : Float32) : Option EReal := valueOf? x.toModel.unpack

/-- The sign of a float. -/
def sign (x : Float32) : UnpackedFloat.Sign := if isNegative x then .negative else .positive

section

variable {x : Float32}

theorem ofBitVec_unpackSign :
    UnpackedFloat.Sign.ofBitVec (@unpackSign .binary32 x.toBits.toBitVec) = sign x := by
  have hbit : (@unpackSign .binary32 x.toBits.toBitVec).toNat = x.toBits.toNat / 2 ^ 31 := by
    show (x.toBits.toNat >>> 31) % 2 ^ 1 = _
    have hlt : x.toBits.toNat < 2 ^ 32 := x.toBits.toNat_lt
    rw [Nat.shiftRight_eq_div_pow]
    omega
  have hzero : @unpackSign .binary32 x.toBits.toBitVec = 0#1 ↔ x.toBits.toNat < 2 ^ 31 := by
    rw [← BitVec.toNat_inj, hbit, BitVec.toNat_ofNat]
    omega
  rw [UnpackedFloat.Sign.ofBitVec, sign, isNegative]
  by_cases h : x.toBits.toNat < 2 ^ 31
  · rw [if_pos (hzero.mpr h), if_neg (by simpa using h)]
  · rw [if_neg (mt hzero.mp h), if_pos (by simpa using h)]

theorem unpackExponent_eq_iff (k : BitVec 8) :
    @unpackExponent .binary32 x.toBits.toBitVec = k ↔ exponentField x = k.toNat := by
  rw [← BitVec.toNat_inj, toNat_unpackExponent]
  rfl

theorem unpackMantissa_eq_zero_iff :
    @unpackMantissa .binary32 x.toBits.toBitVec = 0#23 ↔ fractionField x = 0 := by
  rw [← BitVec.toNat_inj]
  rfl

theorem value?_of_unpack {u : UnpackedFloat}
    (h : UnpackedFloat.unpack .binary32 x.toBits.toBitVec = u) : value? x = valueOf? u :=
  congrArg valueOf? h

theorem value?_infinite (he : exponentField x = 255) (hf : fractionField x = 0) :
    value? x = some (signed (sign x) ⊤) := by
  refine value?_of_unpack (u := .infinity (sign x)) ?_
  rw [UnpackedFloat.unpack]
  simp only [ofBitVec_unpackSign]
  rw [if_pos ((unpackExponent_eq_iff _).mpr he), if_pos (unpackMantissa_eq_zero_iff.mpr hf)]

theorem value?_nan (he : exponentField x = 255) (hf : fractionField x ≠ 0) : value? x = none := by
  refine value?_of_unpack (u := .notANumber) ?_
  rw [UnpackedFloat.unpack]
  simp only
  rw [if_pos ((unpackExponent_eq_iff _).mpr he), if_neg (mt unpackMantissa_eq_zero_iff.mp hf)]

theorem value?_small (he : exponentField x = 0) :
    value? x = some (signed (sign x) ((fractionField x * 2 ^ (-149 : ℤ) : ℝ) : EReal)) := by
  have hnot : @unpackExponent .binary32 x.toBits.toBitVec ≠ -1#8 := by
    rw [Ne, unpackExponent_eq_iff, he]
    decide
  have hzero := (unpackExponent_eq_iff 0#8).mpr he
  by_cases hf : fractionField x = 0
  · refine (value?_of_unpack (u := .zero (sign x)) ?_).trans ?_
    · rw [UnpackedFloat.unpack]
      simp only [ofBitVec_unpackSign]
      rw [if_neg hnot, if_pos hzero, dif_pos (unpackMantissa_eq_zero_iff.mpr hf)]
    · cases sign x <;> simp [valueOf?, signed, hf]
  · refine value?_of_unpack
      (u := .finite (sign x) (fractionField x) (-149) (Nat.pos_of_ne_zero hf)) ?_
    rw [UnpackedFloat.unpack]
    simp only [ofBitVec_unpackSign]
    rw [if_neg hnot, if_pos hzero, dif_neg (mt unpackMantissa_eq_zero_iff.mp hf)]
    simp only [hzero]
    rfl

theorem value?_normal (hne : exponentField x ≠ 0) (hlt : exponentField x < 255) :
    value? x = some (signed (sign x)
      (((2 ^ 23 + fractionField x : ℕ) * 2 ^ (exponentField x - 150 : ℤ) : ℝ) : EReal)) := by
  have hnot : @unpackExponent .binary32 x.toBits.toBitVec ≠ -1#8 := by
    rw [Ne, unpackExponent_eq_iff]
    exact ne_of_lt hlt
  have hmantissa : (1#1 ++ @unpackMantissa .binary32 x.toBits.toBitVec).toNat =
      2 ^ 23 + fractionField x := toNat_leading _
  refine value?_of_unpack
    (u := .finite (sign x) (2 ^ 23 + fractionField x) (exponentField x - 150) (by omega)) ?_
  rw [UnpackedFloat.unpack]
  simp only [ofBitVec_unpackSign]
  rw [if_neg hnot, if_neg (mt (unpackExponent_eq_iff 0#8).mp hne)]
  simp only [hmantissa, toNat_unpackExponent]
  rfl

end

/-! ## Units -/

/-- How many units an infinity measures. -/
def infinityUnits : Nat := Nat.pow 2 23 * Nat.pow 2 254

/-- The number that a count of units stands for. -/
noncomputable def ofUnits (k : Int) : EReal :=
  if k = infinityUnits then ⊤
  else if k = -(infinityUnits : Int) then ⊥
  else ((k / 2 ^ 149 : ℝ) : EReal)

theorem ofUnits_infinity : ofUnits infinityUnits = ⊤ := if_pos rfl

theorem ofUnits_of_lt {k : Int} (h : |k| < infinityUnits) :
    ofUnits k = ((k / 2 ^ 149 : ℝ) : EReal) := by
  obtain ⟨hlow, hhigh⟩ := abs_lt.mp h
  rw [ofUnits, if_neg (ne_of_lt hhigh), if_neg (ne_of_gt hlow)]

/-- Different counts stand for different numbers. -/
theorem ofUnits_injective : Function.Injective ofUnits := by
  intro k l h
  simp only [ofUnits] at h
  split_ifs at h <;> simp_all

theorem ofUnits_neg (k : Int) : ofUnits (-k) = -ofUnits k := by
  have hpos : 0 < infinityUnits := by decide
  have hne : (infinityUnits : Int) ≠ -(infinityUnits : Int) := by omega
  simp only [ofUnits]
  split_ifs <;> simp_all [neg_div, neg_eq_iff_eq_neg]

theorem ofUnits_units (x : Float32) :
    ofUnits (units x) = signed (sign x) (ofUnits (magnitude x)) := by
  cases h : isNegative x with
  | false => simp [units, sign, signed, h]
  | true => simp [units, sign, signed, h, ofUnits_neg]

theorem magnitude_lt {x : Float32} (hx : exponentField x < 255) : magnitude x < infinityUnits := by
  have hfraction : fractionField x < 2 ^ 23 := Nat.mod_lt _ (by decide)
  rw [magnitude]
  split
  · exact hfraction.trans (by decide)
  · calc (Nat.pow 2 23 + fractionField x) * Nat.pow 2 (exponentField x - 1)
        < 2 ^ 24 * Nat.pow 2 (exponentField x - 1) :=
          Nat.mul_lt_mul_of_pos_right (by show 2 ^ 23 + _ < _; omega) (Nat.pow_pos Nat.two_pos)
      _ ≤ 2 ^ 24 * Nat.pow 2 253 :=
          Nat.mul_le_mul_left _ (Nat.pow_le_pow_right Nat.two_pos (by omega))
      _ = infinityUnits := by decide

theorem ofUnits_magnitude {x : Float32} (hx : exponentField x < 255) :
    ofUnits (magnitude x) = ((magnitude x / 2 ^ 149 : ℝ) : EReal) := by
  have hlt : |(magnitude x : Int)| < infinityUnits := by
    rw [Nat.abs_cast]
    exact_mod_cast magnitude_lt hx
  rw [ofUnits_of_lt hlt, Int.cast_natCast]

/-- **The units of a float stand for the float itself.** -/
theorem value?_eq (x : Float32) :
    value? x = if isNaN x then none else some (ofUnits (units x)) := by
  have hbyte : exponentField x < 2 ^ 8 := Nat.mod_lt _ (by decide)
  rw [ofUnits_units]
  by_cases h255 : exponentField x = 255
  · by_cases hf : fractionField x = 0
    · have hmag : magnitude x = infinityUnits := by
        rw [magnitude, if_neg (by omega), hf, h255]
        rfl
      simp [isNaN, hf, value?_infinite h255 hf, hmag, ofUnits_infinity]
    · simp [isNaN, h255, hf, value?_nan h255 hf]
  · have hlt : exponentField x < 255 := by omega
    rw [ofUnits_magnitude hlt, if_neg (by simp [isNaN, h255])]
    by_cases h0 : exponentField x = 0
    · rw [value?_small h0, magnitude, if_pos h0, zpow_neg, div_eq_mul_inv]
      rfl
    · have hpow : (2 : ℝ) ^ (exponentField x - 150 : ℤ) = 2 ^ (exponentField x - 1) / 2 ^ 149 := by
        rw [← zpow_natCast, ← zpow_natCast, ← zpow_sub₀ two_ne_zero]
        congr 1
        omega
      rw [value?_normal h0 hlt, magnitude, if_neg h0, hpow, ← mul_div_assoc]
      simp

end Single

/-! ## Numbers -/

namespace Number

/-- The number itself; NaN is none. -/
noncomputable def value? : Number → Option EReal
  | .int n => some ((n.toInt : ℝ) : EReal)
  | .float x => Single.value? x

/-- **The key of a number stands for the number itself.** -/
theorem value?_eq (a : Number) : a.value? = a.key.map Single.ofUnits := by
  cases a with
  | float x =>
      rw [value?, key, Single.value?_eq]
      split <;> rfl
  | int n =>
      have hn : |n.toInt| ≤ 2 ^ 31 := abs_le.mpr ⟨n.le_toInt, le_of_lt n.toInt_lt⟩
      have hlt : |n.toInt * (Single.unitsPerOne : Int)| < Single.infinityUnits := by
        calc |n.toInt * (Single.unitsPerOne : Int)| = |n.toInt| * Single.unitsPerOne := by
              rw [abs_mul, Nat.abs_cast]
          _ ≤ 2 ^ 31 * Single.unitsPerOne :=
              mul_le_mul_of_nonneg_right hn (Int.natCast_nonneg _)
          _ < Single.infinityUnits := by decide
      have hunits : ((Single.unitsPerOne : ℕ) : ℝ) = 2 ^ 149 := by
        rw [Single.unitsPerOne, Nat.pow_eq, Nat.cast_pow, Nat.cast_ofNat]
      rw [value?, key, Option.map_some, Single.ofUnits_of_lt hlt, Int.cast_mul, Int.cast_natCast,
        hunits, mul_div_cancel_right₀ _ (by positivity)]

theorem same_iff_key {a b : Number} :
    a.same b = true ↔ a.key = b.key ∧ a.key.isSome = true := by
  rw [same]
  cases a.key <;> cases b.key <;> simp

/-- Two numbers are the same where they are one number. -/
theorem same_iff_value {a b : Number} :
    a.same b = true ↔ a.value? = b.value? ∧ a.value?.isSome = true := by
  rw [same_iff_key, value?_eq, value?_eq, Option.isSome_map,
    Option.map_inj_right fun _ _ heq => Single.ofUnits_injective heq]

end Number

/--
A format for numbers that is wide enough: whole numbers and floats are converted to it exactly, and
equality in it is equality of the numbers, with NaN equal to nothing.
-/
structure Wide where
  Carrier : Type
  ofInt : Int32 → Carrier
  ofSingle : Float32 → Carrier
  equal : Carrier → Carrier → Bool
  value? : Carrier → Option EReal
  value?_ofInt : ∀ n, value? (ofInt n) = some ((n.toInt : ℝ) : EReal)
  value?_ofSingle : ∀ x, value? (ofSingle x) = Single.value? x
  equal_iff : ∀ x y, equal x y = true ↔ value? x = value? y ∧ (value? x).isSome = true

namespace Wide

/-- A number in the format. -/
def ofNumber (f : Wide) : Number → f.Carrier
  | .int n => f.ofInt n
  | .float x => f.ofSingle x

/-- Equality of two numbers: in the format where one of them is a float, else as whole numbers. -/
def same (f : Wide) (a b : Number) : Bool :=
  match a, b with
  | .int m, .int n => m == n
  | _, _ => f.equal (f.ofNumber a) (f.ofNumber b)

theorem value?_ofNumber (f : Wide) (a : Number) : f.value? (f.ofNumber a) = a.value? := by
  cases a with
  | int n => exact f.value?_ofInt n
  | float x => exact f.value?_ofSingle x

/-- **Every format that is wide enough finds the same numbers equal.** -/
theorem same_eq (f : Wide) (a b : Number) : f.same a b = a.same b := by
  have hequal : f.equal (f.ofNumber a) (f.ofNumber b) = a.same b := by
    rw [Bool.eq_iff_iff, f.equal_iff, Number.same_iff_value, f.value?_ofNumber, f.value?_ofNumber]
  cases a with
  | float x => exact hequal
  | int m =>
      cases b with
      | float y => exact hequal
      | int n =>
          rw [Bool.eq_iff_iff, Number.same_iff_value, same, beq_iff_eq]
          simp [Number.value?, Int32.toInt_inj]

/-- The numbers themselves. -/
noncomputable def numbers : Wide where
  Carrier := Option EReal
  ofInt n := some ((n.toInt : ℝ) : EReal)
  ofSingle := Single.value?
  equal x y := @decide (x = y ∧ x.isSome = true) (Classical.propDecidable _)
  value? := id
  value?_ofInt _ := rfl
  value?_ofSingle _ := rfl
  equal_iff _ _ := @decide_eq_true_iff _ (Classical.propDecidable _)

end Wide

/-! ## Identities -/

/-- What equality goes by. -/
inductive Identity where
  | empty
  | number (units : Int)
  | atom (name : String)
  | pair (car cdr : Ref)
  | primitive (p : Option Primitive)

namespace Cell

/-- The identity of a value that is not the empty list, if it has one. -/
def identity? (c : Cell) : Option Identity :=
  match c.husk with
  | .atom name => some (.atom name)
  | .number n => n.key.map .number
  | .pair => some (.pair c.car c.cdr)
  | .primitive => some (.primitive c.primitive?)
  | .closure => none
  | .unknown _ => none

/-- Whether a value is a closure, a NaN or invalid. -/
def Incomparable (c : Cell) : Prop :=
  c.kind = .closure ∨ (∃ x, c.number? = some (.float x) ∧ Single.isNaN x = true) ∨
    ∃ code, c.kind = .unknown code

theorem same_iff {a b : Cell} :
    a.same b = true ↔ a.identity? = b.identity? ∧ a.identity?.isSome = true := by
  simp only [same, number?, kind, name, identity?]
  cases a.husk with
  | number x =>
      cases b.husk with
      | number y =>
          rw [Number.same_iff_key, Option.isSome_map,
            Option.map_inj_right fun _ _ => Identity.number.inj]
      | _ => cases x <;> simp [Husk.kind, Number.kind]
  | _ =>
      cases b.husk with
      | number y => cases y <;> simp [Husk.kind, Number.kind]
      | _ => simp [Husk.kind]

theorem identity?_ne_empty (c : Cell) : c.identity? ≠ some .empty := by
  rw [identity?]
  cases c.husk <;> simp

theorem identity?_isSome_iff {c : Cell} : c.identity?.isSome = true ↔ ¬c.Incomparable := by
  simp only [identity?, Incomparable, kind, number?]
  cases c.husk with
  | number n => cases n <;> simp [Husk.kind, Number.kind, Number.key]
  | _ => simp [Husk.kind]

theorem not_incomparable_of_isNil {c : Cell} (hc : c.isNil = true) : ¬c.Incomparable := by
  simp only [isNil, kind, Bool.and_eq_true, beq_iff_eq] at hc
  rw [← identity?_isSome_iff, identity?]
  cases hhusk : c.husk with
  | pair => rfl
  | number n => cases n <;> simp [hhusk, Husk.kind, Number.kind] at hc
  | _ => simp [hhusk, Husk.kind] at hc

theorem isNil_of_number? {c : Cell} {n : Number} (hn : c.number? = some n) : c.isNil = false := by
  have hkind : c.kind ≠ .pair := by
    rw [number?] at hn
    rw [kind]
    cases hhusk : c.husk with
    | number m => cases m <;> simp [Husk.kind, Number.kind]
    | _ => simp [hhusk] at hn
  simp [isNil, hkind]

end Cell

namespace Heap

variable {h : Heap}

/-- The identity of a value, if it has one; an absent value is an empty list. -/
def identity? (h : Heap) (v : Ref) : Option Identity :=
  if h.isNil v then some .empty else (h.cell? v).bind Cell.identity?

/-- Whether a reference is to a closure, a NaN or an invalid value, released or not. -/
def Incomparable (h : Heap) (v : Ref) : Prop := ∃ a, v = some a ∧ (h.cell a).Incomparable

/-- **Two values are equal where they have one identity.** -/
theorem same_iff {v w : Ref} :
    h.same v w = true ↔ h.identity? v = h.identity? w ∧ (h.identity? v).isSome = true := by
  have hempty : ∀ u, (h.cell? u).bind Cell.identity? ≠ some .empty := by
    intro u hu
    obtain ⟨c, -, hc⟩ := Option.bind_eq_some_iff.mp hu
    exact c.identity?_ne_empty hc
  rw [same, identity?, identity?]
  cases h.isNil v with
  | true => cases h.isNil w <;> simp [(hempty w).symm]
  | false =>
      cases h.isNil w with
      | true => simp [hempty]
      | false => cases h.cell? v <;> cases h.cell? w <;> simp [Cell.same_iff]

theorem identity?_isSome_iff {v : Ref} : (h.identity? v).isSome = true ↔ ¬h.Incomparable v := by
  rw [identity?]
  cases v with
  | none => simp [isNil, cell?, Incomparable]
  | some a =>
      have hcell : h.Incomparable (some a) ↔ (h.cell a).Incomparable := by simp [Incomparable]
      rw [hcell]
      split
      · rename_i hnil
        exact iff_of_true rfl (Cell.not_incomparable_of_isNil hnil)
      · exact Cell.identity?_isSome_iff

theorem same_numbers {v w : Addr} {a b : Number} (ha : (h.cell v).number? = some a)
    (hb : (h.cell w).number? = some b) : h.same (some v) (some w) = a.same b := by
  have hv : h.isNil (some v) = false := Cell.isNil_of_number? ha
  have hw : h.isNil (some w) = false := Cell.isNil_of_number? hb
  rw [same, hv, hw]
  simp [cell?, Cell.same, ha, hb]

/--
**Equality is a partial equivalence.** It is symmetric and transitive over all values, and all
values are equal to themselves but closures, NaNs and invalid values. Two numbers are compared as in
any format that is wide enough for them.
-/
theorem same_partial_equivalence (h : Heap) :
    (∀ v w, h.same v w = h.same w v) ∧
    (∀ u v w, h.same u v = true → h.same v w = true → h.same u w = true) ∧
    (∀ v, h.same v v = true ↔ ¬h.Incomparable v) ∧
    ∀ (f : Wide) (v w : Addr) (a b : Number), (h.cell v).number? = some a →
      (h.cell w).number? = some b → h.same (some v) (some w) = f.same a b := by
  refine ⟨fun v w => ?_, fun u v w huv hvw => ?_, fun v => ?_, fun f v w a b ha hb => ?_⟩
  · rw [Bool.eq_iff_iff, same_iff, same_iff, eq_comm]
    exact and_congr_right fun heq => by rw [heq]
  · rw [same_iff] at huv hvw ⊢
    exact ⟨huv.1.trans hvw.1, huv.2⟩
  · rw [same_iff, ← identity?_isSome_iff]
    exact and_iff_right rfl
  · rw [f.same_eq, same_numbers ha hb]

/--
A whole number that is a float as well, once more released, the next whole number, which is none,
an empty list and a released pair, a closure and a released NaN.
-/
def assorted : Heap where
  cells := #[.live (.number (.int 16777216)), .live (.number (.float (.ofBits 0x4b800000))),
    .released (.number (.int 16777216)), .live (.number (.int 16777217)), .live .nil,
    .released .pair, .live (.closure ⟨none, none, none⟩), .released (.number (.float Single.nan))]
  bindings := #[]

/--
The float is between two whole numbers that are equal to it, and the next whole number is not,
though single precision rounds it to that float.
-/
theorem same_partial_equivalence_assorted :
    (assorted.same (some ⟨0⟩) (some ⟨1⟩) = true ∧ assorted.same (some ⟨1⟩) (some ⟨2⟩) = true ∧
      assorted.same (some ⟨0⟩) (some ⟨2⟩) = true) ∧
    Single.ofInt 16777217 = .ofBits 0x4b800000 ∧
    Wide.numbers.same (.int 16777217) (.float (.ofBits 0x4b800000)) = false ∧
    assorted.same none (some ⟨5⟩) = true ∧ assorted.same (some ⟨5⟩) none = true ∧
    assorted.same (some ⟨6⟩) (some ⟨6⟩) = false ∧ assorted.same (some ⟨7⟩) (some ⟨7⟩) = false := by
  obtain ⟨hsymm, htrans, hrefl, hwide⟩ := same_partial_equivalence assorted
  have hleft : assorted.same (some ⟨0⟩) (some ⟨1⟩) = true := by decide
  have hright : assorted.same (some ⟨1⟩) (some ⟨2⟩) = true := by decide
  have hempty : assorted.same none (some ⟨5⟩) = true := by decide
  refine ⟨⟨hleft, hright, htrans _ _ _ hleft hright⟩, by decide, ?_, hempty,
    (hsymm _ _).trans hempty, ?_, ?_⟩
  · rw [← hwide Wide.numbers ⟨3⟩ ⟨1⟩ _ _ rfl rfl]
    decide
  · rw [Bool.eq_false_iff, Ne, hrefl, not_not]
    exact ⟨_, rfl, Or.inl rfl⟩
  · rw [Bool.eq_false_iff, Ne, hrefl, not_not]
    exact ⟨_, rfl, Or.inr (Or.inl ⟨_, rfl, by decide⟩)⟩

end Heap

end ArenaLisp
