import ArenaLisp.Text.Blank

/-!
# Texts as encoded characters

A text of bytes need not be the encoding of anything. Where its head is one, `decode?` finds the
character, and it finds no other: encoding and decoding are inverse to one another. The blank
texts are the encodings of white space.
-/

namespace ArenaLisp.Text

open String

/-- The bytes of a row of characters. -/
def encode (cs : List Char) : Bytes := cs.flatMap utf8EncodeChar

@[simp]
theorem encode_nil : encode [] = [] := rfl

@[simp]
theorem encode_cons (c : Char) (cs : List Char) :
    encode (c :: cs) = utf8EncodeChar c ++ encode cs := rfl

@[simp]
theorem encode_append (cs ds : List Char) : encode (cs ++ ds) = encode cs ++ encode ds :=
  List.flatMap_append

/-! ## Decoding -/

theorem continued_zero {code code' : Nat} {s rest : Bytes} :
    continued 0 code s = some (code', rest) ↔ code = code' ∧ s = rest := by
  simp [continued]

theorem continued_succ {count code : Nat} {b : UInt8} {rest : Bytes} {r : Nat × Bytes} :
    continued (count + 1) code (b :: rest) = some r ↔
      (0x80 ≤ b.toNat ∧ b.toNat < 0xc0) ∧
        continued count (code * 64 + (b.toNat - 0x80)) rest = some r := by
  rw [continued]
  simp only [UInt8.le_iff_toNat_le, UInt8.lt_iff_toNat_lt]
  by_cases hb : 0x80 ≤ b.toNat ∧ b.toNat < 0xc0
  · simp [hb]
  · simp [hb]

/-- A code point is taken when it needs its length and is no surrogate. -/
theorem scalar?_eq_some {least code : Nat} {tail rest : Bytes} {c : Char} :
    scalar? least (code, tail) = some (c, rest) ↔
      least ≤ code ∧ c.val.toNat = code ∧ rest = tail := by
  rw [scalar?]
  by_cases hleast : least ≤ code
  · rw [if_pos hleast]
    by_cases hvalid : code.isValidChar
    · rw [dif_pos hvalid]
      constructor
      · intro h
        cases h
        exact ⟨hleast, rfl, rfl⟩
      · rintro ⟨_, rfl, rfl⟩
        rfl
    · rw [dif_neg hvalid]
      constructor
      · intro h
        cases h
      · rintro ⟨_, rfl, rfl⟩
        exact absurd c.valid hvalid
  · rw [if_neg hleast]
    constructor
    · intro h
      cases h
    · intro h
      exact absurd h.1 hleast

/-- A byte is given by its value. -/
theorem byte_eq {b : UInt8} {n : Nat} (hn : b.toNat = n) : b = UInt8.ofNat n := by
  rw [← hn, UInt8.ofNat_toNat]

theorem eq_encode_of_decode? {s rest : Bytes} {c : Char} (h : decode? s = some (c, rest)) :
    s = utf8EncodeChar c ++ rest := by
  obtain _ | ⟨b, s⟩ := s
  · cases h
  rw [decode?] at h
  simp only [UInt8.lt_iff_toNat_lt, UInt8.reduceToNat] at h
  have hb := b.toNat_lt
  split at h
  · obtain ⟨-, hc, rfl⟩ := scalar?_eq_some.mp h
    rw [utf8EncodeChar, if_pos (by omega), byte_eq hc.symm]
    rfl
  split at h
  · cases h
  -- the longer encodings: the bytes are determined by the code point
  split at h
  · obtain ⟨⟨code, tail⟩, hcont, hs⟩ := Option.bind_eq_some_iff.mp h
    obtain ⟨hleast, hc, rfl⟩ := scalar?_eq_some.mp hs
    obtain _ | ⟨b₁, s⟩ := s
    · cases hcont
    obtain ⟨hb₁, hcont⟩ := continued_succ.mp hcont
    obtain ⟨rfl, rfl⟩ := continued_zero.mp hcont
    rw [utf8EncodeChar, if_neg (by omega), if_pos (by omega)]
    simp only [List.cons_append, List.nil_append, List.cons.injEq, and_true]
    exact ⟨byte_eq (by omega), byte_eq (by omega)⟩
  split at h
  · obtain ⟨⟨code, tail⟩, hcont, hs⟩ := Option.bind_eq_some_iff.mp h
    obtain ⟨hleast, hc, rfl⟩ := scalar?_eq_some.mp hs
    obtain _ | ⟨b₁, s⟩ := s
    · cases hcont
    obtain ⟨hb₁, hcont⟩ := continued_succ.mp hcont
    obtain _ | ⟨b₂, s⟩ := s
    · cases hcont
    obtain ⟨hb₂, hcont⟩ := continued_succ.mp hcont
    obtain ⟨rfl, rfl⟩ := continued_zero.mp hcont
    rw [utf8EncodeChar, if_neg (by omega), if_neg (by omega), if_pos (by omega)]
    simp only [List.cons_append, List.nil_append, List.cons.injEq, and_true]
    exact ⟨byte_eq (by omega), byte_eq (by omega), byte_eq (by omega)⟩
  split at h
  · obtain ⟨⟨code, tail⟩, hcont, hs⟩ := Option.bind_eq_some_iff.mp h
    obtain ⟨hleast, hc, rfl⟩ := scalar?_eq_some.mp hs
    obtain _ | ⟨b₁, s⟩ := s
    · cases hcont
    obtain ⟨hb₁, hcont⟩ := continued_succ.mp hcont
    obtain _ | ⟨b₂, s⟩ := s
    · cases hcont
    obtain ⟨hb₂, hcont⟩ := continued_succ.mp hcont
    obtain _ | ⟨b₃, s⟩ := s
    · cases hcont
    obtain ⟨hb₃, hcont⟩ := continued_succ.mp hcont
    obtain ⟨rfl, rfl⟩ := continued_zero.mp hcont
    rw [utf8EncodeChar, if_neg (by omega), if_neg (by omega), if_neg (by omega)]
    simp only [List.cons_append, List.nil_append, List.cons.injEq, and_true]
    exact ⟨byte_eq (by omega), byte_eq (by omega), byte_eq (by omega), byte_eq (by omega)⟩
  · cases h

theorem decode?_encode (c : Char) (rest : Bytes) :
    decode? (utf8EncodeChar c ++ rest) = some (c, rest) := by
  have hc : c.val.toNat < 0x110000 := by
    have := c.valid
    rcases this with h | h <;> omega
  have hbyte : ∀ {n}, n < 256 → (UInt8.ofNat n).toNat = n := fun hn => UInt8.toNat_ofNat_of_lt' hn
  rw [utf8EncodeChar]
  split
  · rw [List.singleton_append, decode?, if_pos, scalar?_eq_some]
    · exact ⟨Nat.zero_le _, (hbyte (by omega)).symm, rfl⟩
    · rw [UInt8.lt_iff_toNat_lt, hbyte (by omega)]
      exact Nat.lt_succ_of_le ‹_›
  split
  · simp only [List.cons_append, List.nil_append, decode?, UInt8.lt_iff_toNat_lt, UInt8.reduceToNat]
    rw [hbyte (by omega), if_neg (by omega), if_neg (by omega), if_pos (by omega),
      Option.bind_eq_some_iff]
    refine ⟨(c.val.toNat, rest), continued_succ.mpr ?_, scalar?_eq_some.mpr ⟨by omega, rfl, rfl⟩⟩
    rw [hbyte (by omega), continued_zero]
    refine ⟨by omega, by omega, rfl⟩
  split
  · simp only [List.cons_append, List.nil_append, decode?, UInt8.lt_iff_toNat_lt, UInt8.reduceToNat]
    rw [hbyte (by omega), if_neg (by omega), if_neg (by omega), if_neg (by omega),
      if_pos (by omega), Option.bind_eq_some_iff]
    refine ⟨(c.val.toNat, rest), continued_succ.mpr ?_, scalar?_eq_some.mpr ⟨by omega, rfl, rfl⟩⟩
    rw [continued_succ, hbyte (by omega), hbyte (by omega), continued_zero]
    refine ⟨by omega, by omega, by omega, rfl⟩
  · simp only [List.cons_append, List.nil_append, decode?, UInt8.lt_iff_toNat_lt, UInt8.reduceToNat]
    rw [hbyte (by omega), if_neg (by omega), if_neg (by omega), if_neg (by omega),
      if_neg (by omega), if_pos (by omega), Option.bind_eq_some_iff]
    refine ⟨(c.val.toNat, rest), continued_succ.mpr ?_, scalar?_eq_some.mpr ⟨by omega, rfl, rfl⟩⟩
    rw [continued_succ, continued_succ, hbyte (by omega), hbyte (by omega), hbyte (by omega),
      continued_zero]
    refine ⟨by omega, by omega, by omega, by omega, rfl⟩

/-- **Decoding takes a character exactly where its encoding stands.** -/
theorem decode?_eq_some {s rest : Bytes} {c : Char} :
    decode? s = some (c, rest) ↔ s = utf8EncodeChar c ++ rest := by
  constructor
  · exact eq_encode_of_decode?
  · rintro rfl
    exact decode?_encode c rest

/-! ## Strings -/

theorem toList_loop (bs : ByteArray) (i : Nat) (r : Bytes) :
    ByteArray.toList.loop bs i r = r.reverse ++ bs.data.toList.drop i := by
  fun_induction ByteArray.toList.loop bs i r with
  | case1 i r hi ih =>
      have hi' : i < bs.data.toList.length := by simpa using hi
      rw [ih, List.drop_eq_getElem_cons hi']
      simp [ByteArray.get!, hi]
  | case2 i r hi =>
      have hi' : bs.data.toList.length ≤ i := by simpa using hi
      rw [List.drop_eq_nil_of_le hi', List.append_nil]

theorem bytes_eq_encode (s : String) : bytes s = encode s.toList := by
  rw [bytes, ByteArray.toList, toList_loop]
  show s.toByteArray.data.toList = _
  rw [← String.utf8Encode_toList, List.utf8Encode, List.data_toByteArray]
  rfl

/-! ## White space -/

/-- The white space of Unicode. -/
def whiteSpace : List Char :=
  ['\t', '\n', '\x0b', '\x0c', '\r', ' ', '\u0085', '\u00a0', '\u1680',
    '\u2000', '\u2001', '\u2002', '\u2003', '\u2004', '\u2005', '\u2006', '\u2007', '\u2008',
    '\u2009', '\u200a', '\u2028', '\u2029', '\u202f', '\u205f', '\u3000']

/-- Whether bytes are one blank. -/
def isBlankUnit : Bytes → Bool
  | [a] => isBlankByte a
  | [a, b] => isBlankPair a b
  | [a, b, c] => isBlankTriple a b c
  | _ => false

theorem isBlankUnit_encode : ∀ c ∈ whiteSpace, isBlankUnit (utf8EncodeChar c) = true :=
  List.all_eq_true.mp (by decide +kernel)

/-- Every blank is the encoding of white space. -/
theorem exists_whiteSpace {u : Bytes} (hu : isBlankUnit u = true) :
    ∃ c ∈ whiteSpace, utf8EncodeChar c = u := by
  have hone : ∀ n : Fin 256, isBlankByte (.ofNat n) = true →
      whiteSpace.any (utf8EncodeChar · == [.ofNat n]) = true := by decide +kernel
  have hthree : ∀ n : Fin 256, isBlankTriple 0xe2 0x80 (.ofNat n) = true →
      whiteSpace.any (utf8EncodeChar · == [0xe2, 0x80, .ofNat n]) = true := by decide +kernel
  simp only [List.any_eq_true, beq_iff_eq] at hone hthree
  match u with
  | [] => cases hu
  | [a] =>
      have ha := hone ⟨a.toNat, a.toNat_lt⟩
      rw [UInt8.ofNat_toNat] at ha
      exact ha hu
  | [a, b] =>
      simp only [isBlankUnit, isBlankPair, Bool.and_eq_true, Bool.or_eq_true, beq_iff_eq] at hu
      obtain ⟨rfl, rfl | rfl⟩ := hu
      · exact ⟨'\u0085', by decide, by decide⟩
      · exact ⟨'\u00a0', by decide, by decide⟩
  | [a, b, c] =>
      by_cases hab : a = 0xe2 ∧ b = 0x80
      · obtain ⟨rfl, rfl⟩ := hab
        have hc := hthree ⟨c.toNat, c.toNat_lt⟩
        rw [UInt8.ofNat_toNat] at hc
        exact hc hu
      · simp only [isBlankUnit, isBlankTriple, Bool.and_eq_true, Bool.or_eq_true, beq_iff_eq] at hu
        rcases hu with ((⟨⟨rfl, rfl⟩, rfl⟩ | ⟨h, -⟩) | ⟨⟨rfl, rfl⟩, rfl⟩) | ⟨⟨rfl, rfl⟩, rfl⟩
        · exact ⟨'\u1680', by decide, by decide⟩
        · exact absurd h hab
        · exact ⟨'\u205f', by decide, by decide⟩
        · exact ⟨'\u3000', by decide, by decide⟩
  | _ :: _ :: _ :: _ :: _ => cases hu

/-- A blank before blank text leaves it blank. -/
theorem isBlank_append {u s : Bytes} (hu : isBlankUnit u = true) (hs : isBlank s = true) :
    isBlank (u ++ s) = true := by
  match u, s with
  | [a], [] => simp_all [isBlank, isBlankUnit]
  | [a], [b] => simp_all [isBlank, isBlankUnit]
  | [a], b :: c :: s => simp_all [isBlank, isBlankUnit]
  | [a, b], [] => simp_all [isBlank, isBlankUnit]
  | [a, b], c :: s => simp_all [isBlank, isBlankUnit]
  | [a, b, c], s => simp_all [isBlank, isBlankUnit]

theorem isBlank_cases {s : Bytes} (hs : isBlank s = true) :
    s = [] ∨ ∃ u r, isBlankUnit u = true ∧ isBlank r = true ∧ s = u ++ r := by
  match s with
  | [] => exact Or.inl rfl
  | [a] => exact Or.inr ⟨[a], [], hs, rfl, rfl⟩
  | [a, b] =>
      simp only [isBlank, Bool.or_eq_true, Bool.and_eq_true] at hs
      rcases hs with ⟨ha, hb⟩ | hab
      · exact Or.inr ⟨[a], [b], ha, hb, rfl⟩
      · exact Or.inr ⟨[a, b], [], hab, rfl, rfl⟩
  | a :: b :: c :: r =>
      simp only [isBlank, Bool.or_eq_true, Bool.and_eq_true] at hs
      rcases hs with (⟨ha, hr⟩ | ⟨hab, hr⟩) | ⟨habc, hr⟩
      · exact Or.inr ⟨[a], b :: c :: r, ha, hr, rfl⟩
      · exact Or.inr ⟨[a, b], c :: r, hab, hr, rfl⟩
      · exact Or.inr ⟨[a, b, c], r, habc, hr, rfl⟩

/-- **The blank texts are the encodings of white space.** -/
theorem isBlank_iff {s : Bytes} :
    isBlank s = true ↔ ∃ cs, (∀ c ∈ cs, c ∈ whiteSpace) ∧ s = encode cs := by
  constructor
  · intro hs
    induction hn : s.length using Nat.strongRecOn generalizing s with
    | ind n ih =>
        subst hn
        rcases isBlank_cases hs with rfl | ⟨u, r, hu, hr, rfl⟩
        · exact ⟨[], by simp, rfl⟩
        · obtain ⟨c, hc, rfl⟩ := exists_whiteSpace hu
          have hpos : 0 < (utf8EncodeChar c).length := List.length_pos_iff.mpr utf8EncodeChar_ne_nil
          obtain ⟨cs, hcs, rfl⟩ := ih r.length (by rw [List.length_append]; omega) hr rfl
          exact ⟨c :: cs, List.forall_mem_cons.mpr ⟨hc, hcs⟩, rfl⟩
  · rintro ⟨cs, hcs, rfl⟩
    induction cs with
    | nil => rfl
    | cons c cs ih =>
        obtain ⟨hc, hcs⟩ := List.forall_mem_cons.mp hcs
        exact isBlank_append (isBlankUnit_encode c hc) (ih hcs)

end ArenaLisp.Text
