import ArenaLisp.Number.Decimal
import Mathlib.Algebra.Order.Field.Power
import Mathlib.Algebra.Order.Ring.Rat
import Mathlib.Tactic.Linarith
import Mathlib.Tactic.NormNum
import Mathlib.Tactic.Ring

/-!
# Rounding

A decimal is read as the float nearest to it. Two things are decided here. Which decimals are too
large: the first that is no longer rounded to the largest float lies half a step beyond it, and
the shortcut for decimals far out of range agrees with that. And on what the float depends: on
the number that the decimal is, not on how it is written.
-/

namespace ArenaLisp.Single

/-! ## Rounding to whole numbers -/

theorem roundHalfEven_scale {k : Nat} (hk : 0 < k) (num den : Nat) :
    roundHalfEven (num * k) (den * k) = roundHalfEven num den := by
  have hlt : den * k < 2 * (num % den * k) ↔ den < 2 * (num % den) := by
    rw [← Nat.mul_assoc]
    exact Nat.mul_lt_mul_right hk
  have heq : 2 * (num % den * k) = den * k ↔ 2 * (num % den) = den := by
    rw [← Nat.mul_assoc]
    exact Nat.mul_left_inj (Nat.ne_of_gt hk)
  simp only [roundHalfEven, Nat.mul_div_mul_right _ _ hk, Nat.mul_mod_mul_right, hlt, heq]

theorem le_roundHalfEven (num den : Nat) : num / den ≤ roundHalfEven num den := by
  simp only [roundHalfEven]
  split <;> omega

theorem roundHalfEven_le (num den : Nat) : roundHalfEven num den ≤ num / den + 1 := by
  simp only [roundHalfEven]
  split <;> omega

theorem roundHalfEven_mul {den : Nat} (hden : 0 < den) (m : Nat) :
    roundHalfEven (m * den) den = m := by
  simp [roundHalfEven, Nat.mul_div_cancel _ hden, Nat.ne_of_lt hden]

/-- A half goes up where the number below is odd. -/
theorem roundHalfEven_lt_iff {num den k : Nat} (hden : 0 < den) (hk : k % 2 = 1) :
    roundHalfEven num den < k + 1 ↔ 2 * num < (2 * k + 1) * den := by
  have hdiv := Nat.div_add_mod num den
  have hmod := Nat.mod_lt num hden
  simp only [roundHalfEven]
  generalize num / den = w at *
  generalize num % den = r at *
  subst hdiv
  rcases Nat.lt_trichotomy w k with hw | rfl | hw
  · have hmul : den * (w + 1) ≤ den * k := Nat.mul_le_mul_left den hw
    have : 2 * (den * w + r) < (2 * k + 1) * den := by nlinarith
    simp only [this, iff_true]
    split <;> omega
  · have : (2 * w + 1) * den = 2 * (den * w) + den := by ring
    rw [this]
    split <;> omega
  · have hmul : den * (k + 1) ≤ den * w := Nat.mul_le_mul_left den hw
    have : ¬2 * (den * w + r) < (2 * k + 1) * den := by nlinarith
    simp only [this, iff_false]
    split <;> omega

/-! ## Rounding to floats -/

/-- The first magnitude that is too large for a float: half a step beyond the largest one. -/
def tooLarge : Nat := 2 ^ 128 - 2 ^ 103

/-- By how many places the magnitude of a ratio is shifted to fit into 24 bits. -/
def bitShift (num den : Nat) : Nat := Nat.log2 (num * unitsPerOne / den) - 23

theorem nearestBits_eq (num den : Nat) : nearestBits num den =
    roundHalfEven (num * unitsPerOne) (den * 2 ^ bitShift num den) + bitShift num den * 2 ^ 23 :=
  rfl

theorem nearestBits_scale {k : Nat} (hk : 0 < k) (num den : Nat) :
    nearestBits (num * k) (den * k) = nearestBits num den := by
  have hunits : num * k * unitsPerOne = num * unitsPerOne * k := by ring
  have hshift : bitShift (num * k) (den * k) = bitShift num den := by
    rw [bitShift, bitShift, hunits, Nat.mul_div_mul_right _ _ hk]
  rw [nearestBits_eq, nearestBits_eq, hshift, hunits,
    show den * k * 2 ^ bitShift num den = den * 2 ^ bitShift num den * k by ring,
    roundHalfEven_scale hk]

/-- What is shifted fits into 24 bits, and fills them when it is shifted. -/
theorem bitShift_spec (num den : Nat) :
    num * unitsPerOne / den < 2 ^ (bitShift num den + 24) ∧
      (0 < bitShift num den → 2 ^ (bitShift num den + 23) ≤ num * unitsPerOne / den) := by
  rw [bitShift]
  generalize num * unitsPerOne / den = q
  constructor
  · exact Nat.lt_of_lt_of_le Nat.lt_log2_self (Nat.pow_le_pow_right (by omega) (by omega))
  · intro hpos
    have hq : q ≠ 0 := by
      rintro rfl
      simp at hpos
    rw [show Nat.log2 q - 23 + 23 = Nat.log2 q by omega]
    exact Nat.log2_self_le hq

/-- **A ratio is too large for a float from a fixed magnitude on.** -/
theorem nearestBits_lt_iff {num den : Nat} (hden : 0 < den) :
    nearestBits num den < infinityBits ↔ num < tooLarge * den := by
  obtain ⟨hlt, hle⟩ := bitShift_spec num den
  have hinf : infinityBits = 255 * 2 ^ 23 := rfl
  have hlarge : tooLarge * unitsPerOne = (2 ^ 25 - 1) * 2 ^ 252 := by decide +kernel
  have hscaled : num < tooLarge * den ↔ num * unitsPerOne < (2 ^ 25 - 1) * 2 ^ 252 * den := by
    rw [← hlarge, Nat.mul_right_comm]
    exact (Nat.mul_lt_mul_right (Nat.two_pow_pos _)).symm
  rw [hscaled, nearestBits_eq, hinf]
  generalize num * unitsPerOne = scaled at *
  generalize bitShift num den = shift at *
  have hpow : 0 < 2 ^ shift := Nat.two_pow_pos _
  have hround := roundHalfEven_le scaled (den * 2 ^ shift)
  have hround' := le_roundHalfEven scaled (den * 2 ^ shift)
  rw [← Nat.div_div_eq_div_mul] at hround hround'
  rcases Nat.lt_trichotomy shift 253 with hs | hs | hs
  · -- the bits of the largest magnitude of this shift are below those of infinity
    have hdiv : scaled / den / 2 ^ shift < 2 ^ 24 := by
      rwa [Nat.div_lt_iff_lt_mul hpow, ← Nat.pow_add, Nat.add_comm]
    have hbound : scaled < (2 ^ 25 - 1) * 2 ^ 252 * den := by
      rw [← Nat.div_lt_iff_lt_mul hden]
      calc scaled / den < 2 ^ (shift + 24) := hlt
        _ ≤ 2 ^ 24 * 2 ^ 252 := by
            rw [Nat.add_comm, Nat.pow_add]
            exact Nat.mul_le_mul_left _ (Nat.pow_le_pow_right (by decide) (by omega))
        _ ≤ (2 ^ 25 - 1) * 2 ^ 252 := Nat.mul_le_mul_right _ (by decide)
    refine iff_of_true ?_ hbound
    omega
  · -- here the last float is followed by infinity, and a half goes up to it
    subst hs
    have hlast := @roundHalfEven_lt_iff scaled _ (2 ^ 24 - 1) (Nat.mul_pos hden hpow) (by decide)
    have hhalf : (2 * (2 ^ 24 - 1) + 1) * (den * 2 ^ 253) = 2 * ((2 ^ 25 - 1) * 2 ^ 252 * den) := by
      rw [Nat.mul_comm den, Nat.pow_succ 2 252]
      ring
    rw [hhalf, Nat.mul_lt_mul_left (by decide)] at hlast
    rw [← hlast]
    omega
  · have hdiv : 2 ^ 23 ≤ scaled / den / 2 ^ shift := by
      rw [Nat.le_div_iff_mul_le hpow, ← Nat.pow_add, Nat.add_comm]
      exact hle (by omega)
    have hbound : (2 ^ 25 - 1) * 2 ^ 252 * den ≤ scaled := by
      rw [← Nat.le_div_iff_mul_le hden]
      calc (2 ^ 25 - 1) * 2 ^ 252 ≤ 2 ^ 23 * 2 ^ 254 := by decide +kernel
        _ ≤ 2 ^ (shift + 23) := by
            rw [Nat.add_comm, Nat.pow_add]
            exact Nat.mul_le_mul_left _ (Nat.pow_le_pow_right (by decide) (by omega))
        _ ≤ scaled / den := hle (by omega)
    refine iff_of_false ?_ (Nat.not_lt_of_le hbound)
    omega

/-- Equal ratios have the same nearest float. -/
theorem nearestBits_congr {num den num' den' : Nat} (hden : 0 < den) (hden' : 0 < den')
    (heq : num * den' = num' * den) : nearestBits num den = nearestBits num' den' := by
  rw [← nearestBits_scale hden' num den, ← nearestBits_scale hden num' den', heq,
    Nat.mul_comm den den']

/-- What is less than half of the least float is nearest to zero. -/
theorem nearestBits_eq_zero {num den : Nat} (hlt : 2 * (num * unitsPerOne) < den) :
    nearestBits num den = 0 := by
  have hdiv : num * unitsPerOne / den = 0 := Nat.div_eq_of_lt (by omega)
  have hshift : bitShift num den = 0 := by
    rw [bitShift, hdiv]
    rfl
  have hmod : num * unitsPerOne % den = num * unitsPerOne := Nat.mod_eq_of_lt (by omega)
  rw [nearestBits_eq, hshift, Nat.pow_zero, Nat.mul_one, roundHalfEven, hdiv, hmod]
  simp only [if_neg (show ¬(den < 2 * (num * unitsPerOne) ∨ 2 * (num * unitsPerOne) = den ∧
    0 % 2 = 1) by omega), Nat.zero_mul]

theorem ofRatio?_eq_none {negative : Bool} {num den : Nat} (hden : 0 < den) :
    ofRatio? negative num den = none ↔ tooLarge * den ≤ num := by
  rw [ofRatio?, ← Nat.not_lt, ← nearestBits_lt_iff hden]
  split <;> simp_all

end ArenaLisp.Single

namespace ArenaLisp.Decimal

open Single

/-- The number that a decimal is. -/
def value (d : Decimal) : ℚ := d.digits * 10 ^ d.exponent

/-- A decimal as a ratio of whole numbers. -/
def numerator (d : Decimal) : Nat := d.digits * 10 ^ d.exponent.toNat

def denominator (d : Decimal) : Nat := 10 ^ (-d.exponent).toNat

theorem denominator_pos (d : Decimal) : 0 < d.denominator := Nat.pow_pos (by decide)

theorem value_eq_ratio (d : Decimal) : d.value = d.numerator / d.denominator := by
  rw [value, numerator, denominator]
  push_cast
  rw [mul_div_assoc]
  congr 1
  rcases Int.le_total 0 d.exponent with h | h
  · obtain ⟨e, he⟩ := Int.eq_ofNat_of_zero_le h
    rw [he]
    simp
  · obtain ⟨e, he⟩ := Int.eq_ofNat_of_zero_le (Int.neg_nonneg_of_nonpos h)
    rw [show d.exponent = -(e : ℤ) by omega]
    simp

theorem value_lt_iff (d : Decimal) (bound : Nat) :
    d.value < bound ↔ d.numerator < bound * d.denominator := by
  rw [value_eq_ratio, div_lt_iff₀ (by exact_mod_cast d.denominator_pos)]
  exact_mod_cast Iff.rfl

/-- The place of the first digit bounds a decimal on both sides. -/
theorem value_bounds {d : Decimal} (hd : d.digits ≠ 0) :
    (10 : ℚ) ^ (d.exponent + digitCount d.digits - 1) ≤ d.value ∧
      d.value < 10 ^ (d.exponent + digitCount d.digits) := by
  have hpos : 0 < digitCount d.digits := Nat.length_toDigits_pos
  have hlt : d.digits < 10 ^ digitCount d.digits :=
    (Nat.length_toDigits_le_iff (by decide) hpos).mp (Nat.le_refl _)
  have hle : 10 ^ (digitCount d.digits - 1) ≤ d.digits := by
    by_contra hnot
    have hone : digitCount d.digits ≠ 1 := by
      intro h
      rw [h] at hnot
      omega
    have := (Nat.length_toDigits_le_iff (n := d.digits) (k := digitCount d.digits - 1)
      (by decide : 1 < 10) (by omega)).mpr (by omega)
    have : digitCount d.digits ≤ digitCount d.digits - 1 := this
    omega
  constructor
  · rw [value, show d.exponent + digitCount d.digits - 1 =
      ((digitCount d.digits - 1 : Nat) : ℤ) + d.exponent by omega, zpow_add₀ (by norm_num),
      zpow_natCast]
    exact mul_le_mul_of_nonneg_right (by exact_mod_cast hle) (by positivity)
  · rw [value, Int.add_comm, zpow_add₀ (by norm_num), zpow_natCast]
    exact mul_lt_mul_of_pos_right (by exact_mod_cast hlt) (by positivity)

/--
The shortcuts for decimals far outside the range make no difference: a float is read as the one
nearest to its ratio.
-/
theorem toSingle?_eq_ofRatio? (negative : Bool) (d : Decimal) :
    d.toSingle? negative = ofRatio? negative d.numerator d.denominator := by
  have hden := d.denominator_pos
  have hzero : nearestBits d.numerator d.denominator = 0 →
      some (zero negative) = ofRatio? negative d.numerator d.denominator := by
    intro h
    rw [ofRatio?, h]
    rfl
  simp only [toSingle?]
  split
  · rename_i h
    refine hzero (nearestBits_eq_zero ?_)
    rw [numerator, h]
    simpa using hden
  · rename_i hd
    obtain ⟨hle, hlt⟩ := value_bounds hd
    split
    · rename_i htop
      refine (ofRatio?_eq_none hden |>.mpr ?_).symm
      rw [← Nat.not_lt, ← value_lt_iff, not_lt]
      refine le_trans ?_ hle
      calc (tooLarge : ℚ) ≤ 10 ^ (39 : ℤ) := by
            rw [show (39 : ℤ) = ((39 : Nat) : ℤ) from rfl, zpow_natCast]
            exact_mod_cast (by decide +kernel : tooLarge ≤ 10 ^ 39)
        _ ≤ _ := zpow_le_zpow_right₀ (by norm_num) (by omega)
    · split
      · rename_i htop
        refine hzero (nearestBits_eq_zero ?_)
        have hsmall : d.value * (2 * unitsPerOne : Nat) < 1 := by
          have hunits : ((2 * unitsPerOne : Nat) : ℚ) ≤ 10 ^ (46 : ℤ) := by
            rw [show (46 : ℤ) = ((46 : Nat) : ℤ) from rfl, zpow_natCast]
            exact_mod_cast (by decide +kernel : 2 * unitsPerOne ≤ 10 ^ 46)
          calc d.value * (2 * unitsPerOne : Nat)
              < 10 ^ (d.exponent + digitCount d.digits) * (2 * unitsPerOne : Nat) :=
                mul_lt_mul_of_pos_right hlt
                  (by exact_mod_cast (by decide +kernel : 0 < 2 * unitsPerOne))
            _ ≤ 10 ^ (-46 : ℤ) * 10 ^ (46 : ℤ) :=
                mul_le_mul (zpow_le_zpow_right₀ (by norm_num) (by omega)) hunits (by positivity)
                  (by positivity)
            _ = 1 := by norm_num
        rw [value_eq_ratio, div_mul_eq_mul_div, div_lt_iff₀ (by exact_mod_cast hden), one_mul]
          at hsmall
        have : d.numerator * (2 * unitsPerOne) < d.denominator := by exact_mod_cast hsmall
        rwa [Nat.mul_left_comm]
      · rfl

/-- **Reading depends on the number alone**, not on how it is written. -/
theorem toSingle?_congr {d d' : Decimal} (heq : d.value = d'.value) (negative : Bool) :
    d.toSingle? negative = d'.toSingle? negative := by
  have hratio : d.numerator * d'.denominator = d'.numerator * d.denominator := by
    have hden : (d.denominator : ℚ) ≠ 0 := by exact_mod_cast d.denominator_pos.ne'
    have hden' : (d'.denominator : ℚ) ≠ 0 := by exact_mod_cast d'.denominator_pos.ne'
    rw [value_eq_ratio, value_eq_ratio, div_eq_div_iff hden hden'] at heq
    exact_mod_cast heq
  rw [toSingle?_eq_ofRatio?, toSingle?_eq_ofRatio?, ofRatio?, ofRatio?,
    nearestBits_congr d.denominator_pos d'.denominator_pos hratio]

/-- **What is too large to be read**: half a step beyond the largest float, and more. -/
theorem toSingle?_eq_none (negative : Bool) {d : Decimal} :
    d.toSingle? negative = none ↔ tooLarge ≤ d.value := by
  rw [toSingle?_eq_ofRatio?, ofRatio?_eq_none d.denominator_pos, ← Nat.not_lt, ← value_lt_iff,
    not_lt]

end ArenaLisp.Decimal
