import ArenaLisp.Proofs.Bits
import ArenaLisp.Proofs.Encoding
import ArenaLisp.Proofs.Grammar

/-!
# The text of numbers

A `Spelling` is an unsigned numeral in characters, of which every part is what it is called. Its
text, with or without a minus before it, is a numeral as the reader takes them, and has the value
that the spelling says. Whole numbers are printed as their digits; the text of a float is a
spelling of the decimal picked for it, with an exponent or around a point. So the numeral that a
number is printed as is read as that number.
-/

namespace ArenaLisp

open Text

/-! ## Digits -/

theorem encode_digit {c : Char} (hc : c.isDigit = true) :
    ∃ b : UInt8, String.utf8EncodeChar c = [b] ∧ isDigit b = true ∧ b.toNat = c.toNat := by
  obtain ⟨hle, hlt⟩ := Char.isDigit_iff_toNat.mp hc
  have h0 : '0'.toNat = 48 := rfl
  have h9 : '9'.toNat = 57 := rfl
  have hnat : (UInt8.ofNat c.toNat).toNat = c.toNat := by
    rw [UInt8.toNat_ofNat']
    omega
  refine ⟨UInt8.ofNat c.toNat, ?_, ?_, hnat⟩
  · have hascii : c.toNat ≤ 127 := by omega
    simp [String.utf8EncodeChar, hascii]
  · rw [isDigit, Bool.and_eq_true, decide_eq_true_iff, decide_eq_true_iff, UInt8.le_iff_toNat_le,
      UInt8.le_iff_toNat_le, hnat]
    exact ⟨by rwa [h0] at hle, by rwa [h9] at hlt⟩

theorem isDigit_encode {cs : List Char} (hcs : ∀ c ∈ cs, c.isDigit = true) :
    ∀ b ∈ encode cs, isDigit b = true := by
  intro b hb
  obtain ⟨c, hc, hb⟩ := List.mem_flatMap.mp hb
  obtain ⟨d, hd, hdigit, -⟩ := encode_digit (hcs c hc)
  rw [hd, List.mem_singleton] at hb
  rwa [hb]

theorem length_encode {cs : List Char} (hcs : ∀ c ∈ cs, c.isDigit = true) :
    (encode cs).length = cs.length := by
  induction cs with
  | nil => rfl
  | cons c cs ih =>
      obtain ⟨hc, hcs⟩ := List.forall_mem_cons.mp hcs
      obtain ⟨b, hb, -⟩ := encode_digit hc
      rw [encode_cons, hb, List.singleton_append, List.length_cons, List.length_cons, ih hcs]

theorem isDigits_encode {cs : List Char} (hcs : ∀ c ∈ cs, c.isDigit = true) (hne : cs ≠ []) :
    Numeral.IsDigits (encode cs) := by
  refine ⟨fun hnil => hne ?_, isDigit_encode hcs⟩
  rw [← List.length_eq_zero_iff, ← length_encode hcs, hnil, List.length_nil]

theorem digitsValue_encode {cs : List Char} (hcs : ∀ c ∈ cs, c.isDigit = true) :
    Numeral.digitsValue (encode cs) = Nat.ofDigitChars 10 cs 0 := by
  rw [Numeral.digitsValue]
  generalize 0 = n
  induction cs generalizing n with
  | nil => rfl
  | cons c cs ih =>
      obtain ⟨hc, hcs⟩ := List.forall_mem_cons.mp hcs
      obtain ⟨b, hb, -, hnat⟩ := encode_digit hc
      rw [encode_cons, hb, List.singleton_append, List.foldl_cons, ih hcs, hnat,
        Nat.ofDigitChars_cons, Nat.mul_comm]
      rfl

/-! ## Spellings -/

/-- An unsigned numeral in characters. -/
structure Spelling where
  whole : List Char
  fraction : Option (List Char)
  exponent : Option Int
  whole_digits : ∀ c ∈ whole, c.isDigit = true
  whole_ne_nil : whole ≠ []
  fraction_digits : ∀ f ∈ fraction, ∀ c ∈ f, c.isDigit = true
  fraction_ne_nil : ∀ f ∈ fraction, f ≠ []

namespace Decimal

/-- The digits of an exponent, at least two. -/
def exponentDigits (e : Int) : List Char :=
  if (Nat.toDigits 10 e.natAbs).length < 2 then '0' :: Nat.toDigits 10 e.natAbs
  else Nat.toDigits 10 e.natAbs

theorem isDigit_exponentDigits (e : Int) : ∀ c ∈ exponentDigits e, c.isDigit = true := by
  have hdigits : ∀ c ∈ Nat.toDigits 10 e.natAbs, c.isDigit = true := fun c hc =>
    Nat.isDigit_of_mem_toDigits (by decide) (by decide) hc
  rw [exponentDigits]
  split
  · exact List.forall_mem_cons.mpr ⟨rfl, hdigits⟩
  · exact hdigits

theorem exponentDigits_ne_nil (e : Int) : exponentDigits e ≠ [] := by
  rw [exponentDigits]
  split
  · exact List.cons_ne_nil _ _
  · exact List.ne_nil_of_length_pos Nat.length_toDigits_pos

theorem ofDigitChars_exponentDigits (e : Int) :
    Nat.ofDigitChars 10 (exponentDigits e) 0 = e.natAbs := by
  rw [exponentDigits]
  split
  · rw [Nat.ofDigitChars_cons]
    exact Nat.ofDigitChars_ten_toDigits
  · exact Nat.ofDigitChars_ten_toDigits

end Decimal

namespace Spelling

open Decimal (exponentDigits exponentText isDigit_exponentDigits exponentDigits_ne_nil
  ofDigitChars_exponentDigits)

/-- The characters. -/
def text (s : Spelling) : List Char :=
  s.whole ++ (s.fraction.map ('.' :: ·)).getD [] ++ (s.exponent.map ('e' :: exponentText ·)).getD []

/-- The number that the characters spell. -/
def value (s : Spelling) : ℚ :=
  Nat.ofDigitChars 10 (s.whole ++ s.fraction.getD []) 0 *
    10 ^ (s.exponent.getD 0 - (s.fraction.getD []).length)

/-- Characters with or without a minus before them. -/
def signed (negative : Bool) (cs : List Char) : List Char := if negative then '-' :: cs else cs

/-- An exponent as it is written. -/
def writtenExponent (e : Int) : Exponent :=
  ⟨0x65, some (if e < 0 then minusSign else plusSign), encode (exponentDigits e)⟩

theorem proper_writtenExponent (e : Int) : Numeral.ProperExponent (writtenExponent e) where
  mark := rfl
  sign := by
    rintro b hb
    rw [← Option.some.inj hb, Numeral.IsSign]
    split
    · exact Or.inr rfl
    · exact Or.inl rfl
  digits := isDigits_encode (isDigit_exponentDigits e) (exponentDigits_ne_nil e)

theorem spelling_writtenExponent (e : Int) :
    Numeral.Exponent.spelling (writtenExponent e) = encode ('e' :: exponentText e) := by
  have htext : exponentText e = (if e < 0 then '-' else '+') :: exponentDigits e := rfl
  rw [htext, writtenExponent]
  split <;> rfl

theorem value_writtenExponent (e : Int) : Numeral.Exponent.value (writtenExponent e) = e := by
  rw [Numeral.Exponent.value, writtenExponent, digitsValue_encode (isDigit_exponentDigits e),
    ofDigitChars_exponentDigits]
  by_cases he : e < 0
  · rw [if_pos he, if_pos (show (some minusSign == some minusSign) = true by decide)]
    omega
  · rw [if_neg he, if_neg (show ¬(some plusSign == some minusSign) = true by decide)]
    omega

/-- The numeral that the characters are, with or without a minus before them. -/
def numeral (s : Spelling) (negative : Bool) : Numeral :=
  ⟨if negative then some minusSign else none, encode s.whole, s.fraction.map encode,
    s.exponent.map writtenExponent⟩

theorem proper_numeral (s : Spelling) (negative : Bool) : (s.numeral negative).Proper where
  sign := by
    rw [numeral]
    cases negative <;> simp [Numeral.IsSign]
  whole := isDigit_encode s.whole_digits
  fraction := by
    intro _ hencoded
    obtain ⟨f, hf, rfl⟩ := Option.map_eq_some_iff.mp hencoded
    exact isDigits_encode (s.fraction_digits f hf) (s.fraction_ne_nil f hf)
  exponent := by
    intro _ hwritten
    obtain ⟨e, -, rfl⟩ := Option.map_eq_some_iff.mp hwritten
    exact proper_writtenExponent e
  nonempty := Or.inl (isDigits_encode s.whole_digits s.whole_ne_nil).1

theorem spelling_numeral (s : Spelling) (negative : Bool) :
    (s.numeral negative).spelling = encode (signed negative s.text) := by
  have hsign : encode (signed negative s.text) =
      (if negative then some minusSign else none).toList ++ encode s.text := by
    cases negative <;> rfl
  have hfraction : Numeral.fractionSpelling (s.fraction.map encode) =
      encode ((s.fraction.map ('.' :: ·)).getD []) := by
    cases s.fraction <;> rfl
  have hexponent : Numeral.exponentSpelling (s.exponent.map writtenExponent) =
      encode ((s.exponent.map ('e' :: exponentText ·)).getD []) := by
    cases s.exponent with
    | none => rfl
    | some e => exact spelling_writtenExponent e
  rw [Numeral.spelling_eq, hsign, text, encode_append, encode_append, ← hfraction, ← hexponent,
    List.append_assoc]
  rfl

theorem value_numeral (s : Spelling) (negative : Bool) :
    (s.numeral negative).decimal.value = s.value := by
  have hfraction : ∀ c ∈ s.fraction.getD [], c.isDigit = true := by
    cases hf : s.fraction with
    | none => simp
    | some f => exact s.fraction_digits f hf
  have hencode : (s.fraction.map encode).getD [] = encode (s.fraction.getD []) := by
    cases s.fraction <;> rfl
  have hexponent : ((s.exponent.map writtenExponent).map Numeral.Exponent.value).getD 0 =
      s.exponent.getD 0 := by
    cases s.exponent with
    | none => rfl
    | some e => exact value_writtenExponent e
  rw [Numeral.decimal, numeral, Decimal.value, value]
  simp only [hencode, hexponent, ← encode_append, length_encode hfraction]
  rw [digitsValue_encode]
  exact List.forall_mem_append.mpr ⟨s.whole_digits, hfraction⟩

end Spelling

/-! ## Decimals -/

namespace Decimal

/-- The digits left after the zeros at the end are taken off, and how many zeros there were. -/
theorem toDigits_eq_significant (d : Decimal) :
    ∃ zeros, Nat.toDigits 10 d.digits = d.significant ++ List.replicate zeros '0' := by
  refine ⟨((Nat.toDigits 10 d.digits).reverse.takeWhile (· == '0')).length, ?_⟩
  have hzeros : (Nat.toDigits 10 d.digits).reverse.takeWhile (· == '0') =
      List.replicate ((Nat.toDigits 10 d.digits).reverse.takeWhile (· == '0')).length '0' :=
    List.eq_replicate_iff.mpr ⟨rfl, fun c hc => by simpa using List.mem_takeWhile_imp hc⟩
  rw [significant, ← List.reverse_replicate, ← hzeros, ← List.reverse_append,
    List.takeWhile_append_dropWhile, List.reverse_reverse]

theorem isDigit_significant (d : Decimal) : ∀ c ∈ d.significant, c.isDigit = true := by
  obtain ⟨zeros, hzeros⟩ := d.toDigits_eq_significant
  intro c hc
  refine Nat.isDigit_of_mem_toDigits (by decide) (by decide) (b := 10) (n := d.digits) ?_
  rw [hzeros]
  exact List.mem_append_left _ hc

theorem digits_eq_significant {d : Decimal} {zeros : Nat}
    (h : Nat.toDigits 10 d.digits = d.significant ++ List.replicate zeros '0') :
    d.digits = 10 ^ zeros * Nat.ofDigitChars 10 d.significant 0 := by
  rw [← Nat.ofDigitChars_replicate_zero, ← Nat.ofDigitChars_append, ← h,
    Nat.ofDigitChars_ten_toDigits]

theorem significant_ne_nil {d : Decimal} (hd : d.digits ≠ 0) : d.significant ≠ [] := by
  obtain ⟨zeros, hzeros⟩ := d.toDigits_eq_significant
  intro hnil
  have hdigits := digits_eq_significant hzeros
  rw [hnil] at hdigits
  exact hd hdigits

/-- A decimal by its digits without the zeros at the end and the place of the first. -/
theorem value_eq_significant (d : Decimal) :
    d.value =
      Nat.ofDigitChars 10 d.significant 0 * 10 ^ (d.leading + 1 - d.significant.length) := by
  obtain ⟨zeros, hzeros⟩ := d.toDigits_eq_significant
  have hcount : (digitCount d.digits : Int) = d.significant.length + zeros := by
    rw [digitCount, hzeros]
    simp
  have hexponent : d.leading + 1 - d.significant.length = zeros + d.exponent := by
    rw [leading, hcount]
    omega
  rw [value, digits_eq_significant hzeros, hexponent, zpow_add₀ (by norm_num), zpow_natCast]
  push_cast
  ring

/-- Zeros before digits do not count. -/
theorem ofDigitChars_zeros (k : Nat) (digits : List Char) :
    Nat.ofDigitChars 10 (List.replicate k '0' ++ digits) 0 = Nat.ofDigitChars 10 digits 0 := by
  rw [Nat.ofDigitChars_append, Nat.ofDigitChars_replicate_zero, Nat.mul_zero]

theorem isDigit_zeros (k : Nat) : ∀ c ∈ List.replicate k '0', c.isDigit = true := by
  intro c hc
  rw [List.eq_of_mem_replicate hc]
  rfl

/-- Whether a text spells a value the way floats are written. -/
def SpellsFloat (text : List Char) (value : ℚ) : Prop :=
  ∃ s : Spelling, s.text = text ∧ (s.fraction.isSome || s.exponent.isSome) = true ∧ s.value = value

section Layout

variable {digits : List Char} (hdigits : ∀ c ∈ digits, c.isDigit = true) (hne : digits ≠ [])

include hdigits hne

theorem spellsFloat_scientific (leading : Int) : SpellsFloat (scientific digits leading)
    (Nat.ofDigitChars 10 digits 0 * 10 ^ (leading + 1 - digits.length)) := by
  obtain ⟨c, rest, rfl⟩ := List.exists_cons_of_ne_nil hne
  obtain ⟨hc, hrest⟩ := List.forall_mem_cons.mp hdigits
  cases rest with
  | nil =>
      refine ⟨⟨[c], none, some leading, hdigits, hne, nofun, nofun⟩, rfl, rfl, ?_⟩
      simp [Spelling.value]
  | cons c' rest =>
      refine ⟨⟨[c], some (c' :: rest), some leading, by simpa using hc, List.cons_ne_nil _ _,
        fun f hf => by cases hf; exact hrest, fun f hf => by cases hf; exact List.cons_ne_nil _ _⟩,
        rfl, rfl, ?_⟩
      simp only [Spelling.value, Option.getD_some, List.singleton_append, List.length_cons]
      congr 2
      push_cast
      ring

/-- All digits stand behind the point, with zeros between. -/
theorem spellsFloat_behind {leading : Int} (hneg : leading < 0) :
    SpellsFloat ('0' :: '.' :: (List.replicate (-leading - 1).toNat '0' ++ digits))
      (Nat.ofDigitChars 10 digits 0 * 10 ^ (leading + 1 - digits.length)) := by
  refine ⟨⟨['0'], some (List.replicate (-leading - 1).toNat '0' ++ digits), none, by simp,
    List.cons_ne_nil _ _, fun f hf => ?_, fun f hf => ?_⟩, by simp [Spelling.text], rfl, ?_⟩
  · cases hf
    exact List.forall_mem_append.mpr ⟨isDigit_zeros _, hdigits⟩
  · cases hf
    exact List.append_ne_nil_of_right_ne_nil _ hne
  · have hexponent : (0 : Int) - (List.replicate (-leading - 1).toNat '0' ++ digits).length =
        leading + 1 - digits.length := by
      rw [List.length_append, List.length_replicate]
      omega
    simp only [Spelling.value, Option.getD_some, Option.getD_none, hexponent]
    rw [List.singleton_append, ← List.cons_append, ← List.replicate_succ, ofDigitChars_zeros]

/-- All digits stand before the point, and a zero behind it. -/
theorem spellsFloat_before {places : Nat} (hlen : digits.length ≤ places) :
    SpellsFloat (digits ++ List.replicate (places - digits.length) '0' ++ ['.', '0'])
      (Nat.ofDigitChars 10 digits 0 * 10 ^ ((places : Int) - digits.length)) := by
  refine ⟨⟨digits ++ List.replicate (places - digits.length) '0', some ['0'], none,
    List.forall_mem_append.mpr ⟨hdigits, isDigit_zeros _⟩,
    List.append_ne_nil_of_left_ne_nil hne _, fun f hf => by cases hf; simp,
    fun f hf => by cases hf; simp⟩, by simp [Spelling.text], rfl, ?_⟩
  have hzero (n : Nat) : Nat.ofDigitChars 10 ['0'] n = n * 10 := by
    rw [Nat.ofDigitChars_cons, Nat.ofDigitChars_nil, Nat.mul_comm]
    rfl
  have hpoint : ((10 : Nat) : ℚ) * 10 ^ ((0 : Int) - (1 : Nat)) = 1 := by norm_num
  simp only [Spelling.value, Option.getD_some, Option.getD_none]
  rw [Nat.ofDigitChars_append, Nat.ofDigitChars_append, Nat.ofDigitChars_replicate_zero, hzero,
    Nat.cast_mul, List.length_singleton, mul_assoc, hpoint, mul_one, Nat.cast_mul, Nat.cast_pow,
    mul_comm, ← Nat.cast_sub hlen, zpow_natCast, Nat.cast_ofNat]

/-- The point stands between two digits. -/
theorem spellsFloat_between {places : Nat} (hplaces : places ≠ 0) (hlen : places < digits.length) :
    SpellsFloat (digits.take places ++ '.' :: digits.drop places)
      (Nat.ofDigitChars 10 digits 0 * 10 ^ ((places : Int) - digits.length)) := by
  refine ⟨⟨digits.take places, some (digits.drop places), none,
    fun c hc => hdigits c (List.mem_of_mem_take hc), by simp [hplaces, hne],
    fun f hf => ?_, fun f hf => ?_⟩, by simp [Spelling.text], rfl, ?_⟩
  · cases hf
    exact fun c hc => hdigits c (List.mem_of_mem_drop hc)
  · cases hf
    rw [Ne, List.drop_eq_nil_iff]
    omega
  · have hexponent : (0 : Int) - (digits.drop places).length = places - digits.length := by
      rw [List.length_drop]
      omega
    simp only [Spelling.value, Option.getD_some, Option.getD_none, hexponent,
      List.take_append_drop]

theorem spellsFloat_positional (leading : Int) : SpellsFloat (positional digits leading)
    (Nat.ofDigitChars 10 digits 0 * 10 ^ (leading + 1 - digits.length)) := by
  rw [positional]
  split
  · rename_i hneg
    exact spellsFloat_behind hdigits hne hneg
  · rename_i hnonneg
    have hplaces : leading + 1 = (leading.toNat + 1 : Nat) := by omega
    dsimp only
    rw [hplaces]
    by_cases hlen : digits.length ≤ leading.toNat + 1
    · rw [List.take_of_length_le hlen, List.drop_eq_nil_of_le hlen]
      exact spellsFloat_before hdigits hne hlen
    · have hdrop : digits.drop (leading.toNat + 1) ≠ [] := by
        rw [Ne, List.drop_eq_nil_iff]
        exact hlen
      rw [if_neg (by simpa using hdrop), Nat.sub_eq_zero_of_le (by omega), List.replicate_zero,
        List.append_nil]
      exact spellsFloat_between hdigits hne (Nat.succ_ne_zero _) (by omega)

end Layout

/-- **The text of a decimal spells it.** -/
theorem spellsFloat_text {d : Decimal} (hd : d.digits ≠ 0) (layout : Layout) :
    SpellsFloat (d.text layout) d.value := by
  rw [text, value_eq_significant]
  split
  · exact spellsFloat_scientific d.isDigit_significant (significant_ne_nil hd) d.leading
  · exact spellsFloat_positional d.isDigit_significant (significant_ne_nil hd) d.leading

end Decimal

/-! ## Numbers -/

theorem Spelling.isNegative_numeral (s : Spelling) (negative : Bool) :
    (s.numeral negative).isNegative = negative := by
  cases negative <;> rfl

theorem Spelling.isFloat_numeral (s : Spelling) (negative : Bool) :
    (s.numeral negative).isFloat = (s.fraction.isSome || s.exponent.isSome) := by
  simp [Numeral.isFloat, numeral]

/-- Whether a number is one that can be written. -/
def Number.Finite : Number → Prop
  | .int _ => True
  | .float x => Single.Finite x

theorem bytes_toString (i : Int) :
    bytes (toString i) = encode (Spelling.signed (i < 0) (Nat.toDigits 10 i.natAbs)) := by
  rw [bytes_eq_encode, Int.toString_eq_repr, Int.repr_eq_if, Spelling.signed]
  by_cases hneg : i < 0
  · rw [if_neg (by omega), if_pos (decide_eq_true hneg), String.toList_append, Nat.toList_repr,
      show i.natAbs = (-i).toNat by omega]
    rfl
  · rw [if_pos (by omega), if_neg (by simpa using hneg), Nat.toList_repr,
      show i.natAbs = i.toNat by omega]

/-- Whole numbers are printed as their digits. -/
theorem exists_numeral_int (i : Int32) : ∃ n : Numeral, n.Proper ∧
    n.spelling = bytes (Number.int i).text ∧ n.value = .ok (.int i) := by
  have hdigits : ∀ c ∈ Nat.toDigits 10 i.toInt.natAbs, c.isDigit = true := fun c hc =>
    Nat.isDigit_of_mem_toDigits (by decide) (by decide) hc
  let s : Spelling := ⟨Nat.toDigits 10 i.toInt.natAbs, none, none, hdigits, Nat.toDigits_ne_nil,
    nofun, nofun⟩
  refine ⟨s.numeral (i.toInt < 0), s.proper_numeral _, ?_, ?_⟩
  · rw [s.spelling_numeral, Number.text, bytes_toString]
    simp [Spelling.text, s]
  · have hvalue : Numeral.digitsValue (s.numeral (i.toInt < 0)).whole = i.toInt.natAbs :=
      (digitsValue_encode hdigits).trans Nat.ofDigitChars_ten_toDigits
    have hint : (s.numeral (i.toInt < 0)).integer = i.toInt := by
      rw [Numeral.integer, s.isNegative_numeral, hvalue]
      by_cases hneg : i.toInt < 0
      · rw [if_pos (decide_eq_true hneg)]
        omega
      · rw [if_neg (by simpa using hneg)]
        omega
    rw [Numeral.value_eq_ok, Numeral.InRange, Numeral.number, s.isFloat_numeral, hint]
    refine ⟨⟨i.le_toInt, i.toInt_lt⟩, ?_⟩
    simp [s]

/-- A spelling with a fraction or an exponent is read as the float nearest to its value. -/
theorem Spelling.value_float {s : Spelling} {x : Float32} {negative : Bool}
    (hfloat : (s.fraction.isSome || s.exponent.isSome) = true)
    (hsingle : (s.numeral negative).decimal.toSingle? negative = some x) :
    (s.numeral negative).value = .ok (.float x) := by
  rw [Numeral.value, s.isFloat_numeral, if_pos hfloat, Numeral.toSingle?, s.isNegative_numeral,
    hsingle]

/-- A float is printed as its sign and the digits of its magnitude. -/
theorem text_float {x : Float32} (hx : Single.Finite x) : (Number.float x).text =
    String.ofList (Spelling.signed (Single.isNegative x)
      (if Single.magnitude x = 0 then ['0', '.', '0']
        else (Decimal.shortest (Single.abs x)).text .standard)) := by
  rw [Number.text, Single.text, hx.1, hx.2]
  rfl

theorem exists_numeral_float {x : Float32} (hx : Single.Finite x) : ∃ n : Numeral, n.Proper ∧
    n.spelling = bytes (Number.float x).text ∧ n.value = .ok (.float x) := by
  rw [text_float hx, bytes_eq_encode, String.toList_ofList]
  by_cases hzero : Single.magnitude x = 0
  · rw [if_pos hzero]
    let s : Spelling := ⟨['0'], some ['0'], none, by simp, by simp,
      fun f hf => by cases hf; simp, fun f hf => by cases hf; simp⟩
    refine ⟨s.numeral (Single.isNegative x), s.proper_numeral _, s.spelling_numeral _,
      Spelling.value_float rfl ?_⟩
    have hbits : x.toBits.toNat % 2 ^ 31 = 0 := by
      rw [← Single.nearestBits_magnitude hx, hzero]
      exact Single.nearestBits_eq_zero (by decide)
    have hself := Single.ofSignBits_self hx
    rw [hbits] at hself
    exact congrArg some hself
  · rw [if_neg hzero]
    have hne : x.toBits.toNat % 2 ^ 31 ≠ 0 := fun h => hzero (Single.magnitude_of_toBits h)
    obtain ⟨s, hs, hfloat, hvalue⟩ :=
      Decimal.spellsFloat_text (Decimal.digits_shortest hx hne) .standard
    refine ⟨s.numeral (Single.isNegative x), s.proper_numeral _, ?_,
      Spelling.value_float hfloat ?_⟩
    · rw [s.spelling_numeral, hs]
    · rw [← Decimal.toSingle?_shortest hx hne]
      exact Decimal.toSingle?_congr ((s.value_numeral _).trans hvalue) _

/-- **The text of a number is a numeral, and its value is the number.** -/
theorem Number.exists_numeral {x : Number} (hx : x.Finite) :
    ∃ n : Numeral, n.Proper ∧ n.spelling = bytes x.text ∧ n.value = .ok x := by
  cases x with
  | int i => exact exists_numeral_int i
  | float x => exact exists_numeral_float hx

/-- A numeral has no other values. -/
theorem Numeral.finite_value {n : Numeral} {x : Number} (h : n.value = .ok x) : x.Finite := by
  rw [value] at h
  split at h
  · cases hs : n.toSingle? with
    | none =>
        rw [hs] at h
        cases h
    | some y =>
        rw [hs] at h
        cases h
        exact Decimal.finite_of_toSingle? hs
  · cases hi : n.toInt32? with
    | none =>
        rw [hi] at h
        cases h
    | some i =>
        rw [hi] at h
        cases h
        trivial

end ArenaLisp
