import ArenaLisp.Proofs.Rounding
import Mathlib

/-!
# Bit patterns of floats

A number, as against an infinity or NaN, is its bit pattern: taking the pattern and making a float
of it change nothing, and two numbers that compare as equal have one pattern but for the signs of
zeros. A magnitude that fits is not rounded. From the three it follows that the decimal picked for
printing reads back: either it was found by reading it, or it is the exact expansion.
-/

namespace ArenaLisp.Single

open Float.Model (Format UnpackedFloat)
open Float.Model.UnpackedFloat (unpackSign unpackExponent unpackMantissa packComponents)

/-! ## Packing -/

theorem sign_toBitVec : ∀ s : BitVec 1, (UnpackedFloat.Sign.ofBitVec s).toBitVec = s := by
  decide

/-- A bit pattern is its three fields, one behind the other. -/
theorem packComponents_unpack (b : BitVec 32) :
    packComponents .binary32 (.ofBitVec (@unpackSign .binary32 b)) (@unpackExponent .binary32 b)
      (@unpackMantissa .binary32 b) = b := by
  simp only [packComponents, sign_toBitVec, unpackSign, unpackExponent, unpackMantissa,
    BitVec.extractLsb]
  ext i hi
  grind

/-- Packing a magnitude below the least normal float. -/
theorem pack_small {s : UnpackedFloat.Sign} {m : Nat} {x : Int} {hm : 0 < m} (hlt : m < 2 ^ 23)
    (hx : x = -149) : UnpackedFloat.pack .binary32 (.finite s m x hm) =
      packComponents .binary32 s 0#8 (BitVec.ofNat 23 m) := by
  subst hx
  have hlog : m.log2 < 23 := (Nat.log2_lt (Nat.ne_of_gt hm)).mpr hlt
  have hbits : Format.binary32.mantissaBits = 24 := rfl
  rw [UnpackedFloat.pack, if_neg (by decide), if_neg (by omega)]

/-- Packing any other magnitude. -/
theorem pack_normal {s : UnpackedFloat.Sign} {m e : Nat} {x : Int} {hm : 0 < m} (hle : 2 ^ 23 ≤ m)
    (hlt : m < 2 ^ 24) (he : e < 255) (hx : x = e - 150) :
    UnpackedFloat.pack .binary32 (.finite s m x hm) =
      packComponents .binary32 s (BitVec.ofNat 8 e) (BitVec.ofNat 23 m) := by
  have hlog : m.log2 = 23 := (Nat.log2_eq_iff (Nat.ne_of_gt hm)).mpr ⟨hle, hlt⟩
  have hbits : Format.binary32.mantissaBits = 24 := rfl
  have hbias : (x + Format.binary32.exponentBias +
      Format.binary32.mantissaBitsWithoutImplicit).toNat = e := by
    show (x + 127 + 23).toNat = e
    omega
  rw [UnpackedFloat.pack, hbias, if_neg (by show ¬2 ^ 8 ≤ e + 1; omega), if_pos (by omega)]

theorem toNat_leading (m : BitVec 23) : (1#1 ++ m).toNat = 2 ^ 23 + m.toNat := by
  rw [BitVec.toNat_append, ← Nat.shiftLeft_add_eq_or_of_lt m.isLt]
  rfl

/-- A bit pattern that is neither an infinity nor NaN is packed again as it was. -/
theorem pack_unpack {b : BitVec 32} (h : (@unpackExponent .binary32 b).toNat < 255) :
    UnpackedFloat.pack .binary32 (UnpackedFloat.unpack .binary32 b) = b := by
  have hparts := packComponents_unpack b
  have hfinite : @unpackExponent .binary32 b ≠ -1#8 := fun heq => by
    rw [heq] at h
    exact absurd h (by decide)
  have hmlt : (@unpackMantissa .binary32 b).toNat < 2 ^ 23 := (@unpackMantissa .binary32 b).isLt
  have hm : BitVec.ofNat 23 (@unpackMantissa .binary32 b).toNat = @unpackMantissa .binary32 b :=
    BitVec.ofNat_toNat 23 _
  rw [UnpackedFloat.unpack]
  simp only [hfinite, if_false]
  split
  · rename_i he
    rw [he] at hparts
    split
    · rename_i hzero
      rw [hzero] at hparts
      exact hparts
    · refine (pack_small hmlt ?_).trans (hm.symm ▸ hparts)
      rw [he]
      rfl
  · have hlead := toNat_leading (@unpackMantissa .binary32 b)
    refine (pack_normal (by omega) (by omega) h rfl).trans ?_
    have he : BitVec.ofNat 8 (@unpackExponent .binary32 b).toNat = @unpackExponent .binary32 b :=
      BitVec.ofNat_toNat 8 _
    have hm' : BitVec.ofNat 23 (1#1 ++ @unpackMantissa .binary32 b).toNat =
        @unpackMantissa .binary32 b := by
      rw [hlead]
      refine BitVec.eq_of_toNat_eq ?_
      rw [BitVec.toNat_ofNat, Nat.add_mod_left, Nat.mod_eq_of_lt hmlt]
    rw [he]
    exact hm'.symm ▸ hparts

/-! ## Patterns -/

theorem toNat_unpackExponent (b : BitVec 32) :
    (@unpackExponent .binary32 b).toNat = b.toNat / 2 ^ 23 % 2 ^ 8 := by
  show (b.toNat >>> 23) % 2 ^ 8 = _
  rw [Nat.shiftRight_eq_div_pow]

theorem toNat_unpackMantissa (b : BitVec 32) :
    (@unpackMantissa .binary32 b).toNat = b.toNat % 2 ^ 23 := rfl

/-- Whether a float is a number. -/
def Finite (x : Float32) : Prop := isNaN x = false ∧ isInfinite x = false

instance (x : Float32) : Decidable (Finite x) := inferInstanceAs (Decidable (_ ∧ _))

theorem finite_iff {x : Float32} : Finite x ↔ exponentField x < 255 := by
  have hlt : exponentField x < Nat.pow 2 8 := Nat.mod_lt _ (by decide)
  have hpow : Nat.pow 2 8 = 256 := rfl
  by_cases h : exponentField x = 255
  · simp [Finite, isNaN, isInfinite, h]
  · simp only [Finite, isNaN, isInfinite, beq_eq_false_iff_ne.mpr h, Bool.false_and, and_self,
      true_iff]
    omega

/-- A float is its bit pattern. -/
theorem ext_toBits {x y : Float32} (h : x.toBits = y.toBits) : x = y := by
  obtain ⟨⟨b, hb⟩⟩ := x
  obtain ⟨⟨b', hb'⟩⟩ := y
  obtain rfl : b = b' := h
  rfl

theorem toBits_ofBits {b : UInt32} (h : b.toNat / 2 ^ 23 % 2 ^ 8 < 255) :
    (Float32.ofBits b).toBits = b := by
  have hpack := pack_unpack (b := b.toBitVec) (by rwa [toNat_unpackExponent])
  exact congrArg UInt32.ofBitVec hpack

theorem ofBits_toBits {x : Float32} (h : Finite x) : Float32.ofBits x.toBits = x :=
  ext_toBits (toBits_ofBits (finite_iff.mp h))

/-! ## Comparison -/

/-- A number that is not zero compares as equal only to itself. -/
theorem eq_of_compare {a : UnpackedFloat} {s : UnpackedFloat.Sign} {m : Nat} {e : Int} {hm : 0 < m}
    (h : a.compare (.finite s m e hm) = some .eq) : a = .finite s m e hm := by
  cases a with
  | notANumber => cases h
  | infinity s' => cases s' <;> cases s <;> cases h
  | zero s' => cases s <;> cases h
  | finite s' m' e' hm' =>
      have hparts : s' = s ∧ e' = e ∧ m' = m := by
        cases s' <;> cases s <;>
          simp [UnpackedFloat.compare, Ordering.then_eq_eq] at h ⊢ <;> exact h
      obtain ⟨rfl, rfl, rfl⟩ := hparts
      rfl

theorem exists_unpack {b : BitVec 32} (h : (@unpackExponent .binary32 b).toNat < 255)
    (hne : b.toNat % 2 ^ 31 ≠ 0) :
    ∃ s m e hm, UnpackedFloat.unpack .binary32 b = .finite s m e hm := by
  have hfinite : @unpackExponent .binary32 b ≠ -1#8 := fun heq => by
    rw [heq] at h
    exact absurd h (by decide)
  rw [UnpackedFloat.unpack]
  simp only [hfinite, if_false]
  split
  · rename_i he
    split
    · rename_i hm
      have he' := toNat_unpackExponent b
      have hm' := toNat_unpackMantissa b
      rw [he] at he'
      rw [hm] at hm'
      simp only [BitVec.toNat_ofNat] at he' hm'
      omega
    · rename_i hm
      exact ⟨_, _, _, Nat.pos_of_ne_zero fun h0 => hm (BitVec.eq_of_toNat_eq h0), rfl⟩
  · exact ⟨_, _, _, by rw [toNat_leading]; omega, rfl⟩

/-- Two numbers that compare as equal are the same, but for the signs of zeros. -/
theorem eq_of_beq {x y : Float32} (hx : Finite x) (hy : Finite y)
    (hne : y.toBits.toNat % 2 ^ 31 ≠ 0) (h : (x == y) = true) : x = y := by
  have hexponent : ∀ {z : Float32}, Finite z →
      (@unpackExponent .binary32 z.toBits.toBitVec).toNat < 255 := by
    intro z hz
    rw [toNat_unpackExponent]
    exact finite_iff.mp hz
  have hcompare : (UnpackedFloat.unpack .binary32 x.toBits.toBitVec).compare
      (UnpackedFloat.unpack .binary32 y.toBits.toBitVec) = some .eq := beq_iff_eq.mp h
  obtain ⟨s, m, e, hm, hunpack⟩ := exists_unpack (hexponent hy) hne
  rw [hunpack] at hcompare
  have heq := (eq_of_compare hcompare).trans hunpack.symm
  have hbits := congrArg (UnpackedFloat.pack .binary32) heq
  rw [pack_unpack (hexponent hx), pack_unpack (hexponent hy)] at hbits
  exact ext_toBits (UInt32.toBitVec_inj.mp hbits)

/-! ## Sign and magnitude -/

theorem bits_lt {x : Float32} (hx : Finite x) : x.toBits.toNat % 2 ^ 31 < infinityBits := by
  have hfield : x.toBits.toNat / 2 ^ 23 % 2 ^ 8 < 255 := finite_iff.mp hx
  show _ < 255 * 2 ^ 23
  omega

theorem toBits_ofSignBits {bits : Nat} (h : bits < infinityBits) (negative : Bool) :
    (ofSignBits negative bits).toBits.toNat = if negative then bits + 2 ^ 31 else bits := by
  have hinf : infinityBits = 255 * 2 ^ 23 := rfl
  have hnat : (UInt32.ofNat (if negative then bits + 2 ^ 31 else bits)).toNat =
      if negative then bits + 2 ^ 31 else bits := by
    rw [UInt32.toNat_ofNat_of_lt']
    show _ < 2 ^ 32
    split <;> omega
  rw [ofSignBits, toBits_ofBits]
  · exact hnat
  · show (UInt32.ofNat (if negative then bits + 2 ^ 31 else bits)).toNat / 2 ^ 23 % 2 ^ 8 < 255
    rw [hnat]
    split <;> omega

theorem finite_ofSignBits {bits : Nat} (h : bits < infinityBits) (negative : Bool) :
    Finite (ofSignBits negative bits) := by
  have hinf : infinityBits = 255 * 2 ^ 23 := rfl
  rw [finite_iff, exponentField, toBits_ofSignBits h]
  show _ / 2 ^ 23 % 2 ^ 8 < 255
  split <;> omega

/-- A number is its sign and its magnitude bits. -/
theorem ofSignBits_self {x : Float32} (hx : Finite x) :
    ofSignBits (isNegative x) (x.toBits.toNat % 2 ^ 31) = x := by
  have hlt : x.toBits.toNat < 2 ^ 32 := x.toBits.toNat_lt
  have hbits : (if isNegative x then x.toBits.toNat % 2 ^ 31 + Nat.pow 2 31
      else x.toBits.toNat % 2 ^ 31) = x.toBits.toNat := by
    have hpow : Nat.pow 2 31 = 2 ^ 31 := rfl
    rw [isNegative, hpow]
    by_cases hneg : 2 ^ 31 ≤ x.toBits.toNat
    · rw [if_pos (decide_eq_true hneg)]
      omega
    · rw [if_neg (by simpa using hneg)]
      omega
  rw [ofSignBits, hbits, UInt32.ofNat_toNat, ofBits_toBits hx]

/-- **Nothing is rounded where a magnitude fits.** -/
theorem nearestBits_exact {m shift : Nat} (hm : m < 2 ^ 24) (hs : shift = 0 ∨ 2 ^ 23 ≤ m) :
    nearestBits (m * 2 ^ shift) unitsPerOne = m + shift * 2 ^ 23 := by
  have hunits : 0 < unitsPerOne := Nat.pow_pos (by decide)
  have hshift : bitShift (m * 2 ^ shift) unitsPerOne = shift := by
    rw [bitShift, Nat.mul_div_cancel _ hunits]
    rcases hs with rfl | hle
    · rw [Nat.pow_zero, Nat.mul_one]
      rcases Nat.eq_zero_or_pos m with rfl | hpos
      · decide
      · have hlog := (Nat.log2_lt (Nat.ne_of_gt hpos)).mpr hm
        omega
    · have hlog : Nat.log2 (m * 2 ^ shift) = shift + 23 := by
        rw [Nat.log2_eq_iff (Nat.mul_ne_zero (by omega) (by positivity))]
        constructor
        · rw [Nat.add_comm, Nat.pow_add]
          exact Nat.mul_le_mul_right _ hle
        · rw [show shift + 23 + 1 = 24 + shift by omega, Nat.pow_add]
          exact Nat.mul_lt_mul_of_pos_right hm (by positivity)
      omega
  have hmul : m * 2 ^ shift * unitsPerOne = m * (unitsPerOne * 2 ^ shift) := by ring
  rw [nearestBits_eq, hshift, hmul, roundHalfEven_mul (Nat.mul_pos hunits (by positivity))]

theorem toBits_eq_fields (x : Float32) :
    x.toBits.toNat % 2 ^ 31 = exponentField x * 2 ^ 23 + fractionField x := by
  show _ = x.toBits.toNat / 2 ^ 23 % 2 ^ 8 * 2 ^ 23 + x.toBits.toNat % 2 ^ 23
  omega

theorem magnitude_of_toBits {x : Float32} (h : x.toBits.toNat % 2 ^ 31 = 0) : magnitude x = 0 := by
  rw [toBits_eq_fields] at h
  rw [magnitude, if_pos (by omega)]
  omega

theorem nearestBits_magnitude {x : Float32} (hx : Finite x) :
    nearestBits (magnitude x) unitsPerOne = x.toBits.toNat % 2 ^ 31 := by
  have hfield : exponentField x < 255 := finite_iff.mp hx
  have hf : fractionField x < 2 ^ 23 := Nat.mod_lt _ (by decide)
  rw [magnitude, toBits_eq_fields]
  by_cases he : exponentField x = 0
  · rw [if_pos he, he, ← Nat.mul_one (fractionField x), ← Nat.pow_zero 2,
      nearestBits_exact (by omega) (Or.inl rfl)]
    omega
  · have hpow : Nat.pow 2 23 = 2 ^ 23 := rfl
    rw [if_neg he, hpow]
    refine (nearestBits_exact (by omega) (Or.inr (by omega))).trans ?_
    omega

end ArenaLisp.Single

namespace ArenaLisp.Decimal

open Single

/-! ## Reading back -/

/-- The bit pattern of the magnitude that a decimal is rounded to. -/
def bits (d : Decimal) : Nat := nearestBits d.numerator d.denominator

theorem toSingle?_eq_some {negative : Bool} {d : Decimal} {x : Float32} :
    d.toSingle? negative = some x ↔ d.bits < infinityBits ∧ ofSignBits negative d.bits = x := by
  rw [toSingle?_eq_ofRatio?, ofRatio?, ← bits]
  simp

/-- Reading gives numbers. -/
theorem finite_of_toSingle? {negative : Bool} {d : Decimal} {x : Float32}
    (h : d.toSingle? negative = some x) : Finite x := by
  obtain ⟨hlt, rfl⟩ := toSingle?_eq_some.mp h
  exact finite_ofSignBits hlt negative

theorem bits_exact {x : Float32} (hx : Finite x) :
    (exact (magnitude x)).bits = x.toBits.toNat % 2 ^ 31 := by
  rw [← nearestBits_magnitude hx]
  refine nearestBits_congr (denominator_pos _) (Nat.pow_pos (by decide)) ?_
  show magnitude x * 5 ^ 149 * 10 ^ 0 * 2 ^ 149 = magnitude x * 10 ^ 149
  rw [Nat.pow_zero, Nat.mul_one, Nat.mul_assoc, ← Nat.mul_pow]

theorem bits_of_readsAs {d : Decimal} {y : Float32} (hy : Finite y)
    (hne : y.toBits.toNat % 2 ^ 31 ≠ 0) (h : readsAs y d = true) : d.bits = y.toBits.toNat := by
  rw [readsAs] at h
  cases hd : d.toSingle? false with
  | none =>
      rw [hd] at h
      cases h
  | some z =>
      rw [hd] at h
      obtain ⟨hlt, hz⟩ := toSingle?_eq_some.mp hd
      obtain rfl := eq_of_beq (finite_of_toSingle? hd) hy hne h
      rw [← hz, toBits_ofSignBits hlt]
      rfl

/-- The digits that are printed read back as the magnitude they were printed for. -/
theorem bits_shortest {y : Float32} (hy : Finite y) (hne : y.toBits.toNat % 2 ^ 31 ≠ 0)
    (hpos : y.toBits.toNat < 2 ^ 31) : (shortest y).bits = y.toBits.toNat := by
  simp only [shortest]
  cases hfound : (List.range 9).findSome? fun places =>
      (neighbours (magnitude y) (leadingExponent (magnitude y) - (places : Nat))).find?
        (readsAs y) with
  | none =>
      -- no short decimal was found, so all digits of the magnitude are printed.
      rw [Option.getD_none, bits_exact hy, Nat.mod_eq_of_lt hpos]
  | some d =>
      obtain ⟨places, -, hfind⟩ := List.exists_of_findSome?_eq_some hfound
      exact bits_of_readsAs hy hne (List.find?_some hfind)

/-- **What is printed reads back**, sign and all. -/
theorem toSingle?_shortest {x : Float32} (hx : Finite x) (hne : x.toBits.toNat % 2 ^ 31 ≠ 0) :
    (shortest (abs x)).toSingle? (isNegative x) = some x := by
  have hlt := bits_lt hx
  have habs : (abs x).toBits.toNat = x.toBits.toNat % 2 ^ 31 := toBits_ofSignBits hlt false
  have hbits : (shortest (abs x)).bits = x.toBits.toNat % 2 ^ 31 := by
    rw [← habs]
    refine bits_shortest (finite_ofSignBits hlt false) ?_ ?_ <;> omega
  rw [toSingle?_eq_some, hbits]
  exact ⟨hlt, ofSignBits_self hx⟩

theorem digits_shortest {x : Float32} (hx : Finite x) (hne : x.toBits.toNat % 2 ^ 31 ≠ 0) :
    (shortest (abs x)).digits ≠ 0 := by
  intro hzero
  have hread := toSingle?_shortest hx hne
  rw [toSingle?, if_pos hzero] at hread
  rw [← Option.some.inj hread, zero, toBits_ofSignBits (by decide)] at hne
  split at hne <;> exact hne rfl

end ArenaLisp.Decimal
