import ArenaLisp.Proofs.Encoding
import ArenaLisp.Proofs.Numerals
import ArenaLisp.Reader.Token

/-!
# The tokens of a text

The tokens are given by rules that say nothing of how they are found. A comment goes up to the
end of its line, the three marks stand for themselves, a numeral is the longest one that begins
where it does, and a symbol is the longest one where no numeral begins. `Lexes` states the
rules, and scanning follows them exactly.

All tokens but comments are made of *token bytes* or are a single byte. So a byte that is no
token byte separates: what comes before it is cut into tokens as if nothing came behind.
-/

namespace ArenaLisp

open Text

namespace Token

/-! ## Symbols -/

/-- Whether a string is the name of a symbol. -/
def IsSymbol (name : String) : Prop :=
  ∃ c more, name.toList = c :: more ∧ startsSymbol c = true ∧ ∀ d ∈ more, continuesSymbol d = true

theorem isSymbol_iff {name : String} : IsSymbol name ↔
    (name.toList.head?.any startsSymbol && name.toList.tail.all continuesSymbol) = true := by
  rw [IsSymbol]
  cases name.toList with
  | nil => simp
  | cons c more =>
      constructor
      · rintro ⟨_, _, heq, hc, hmore⟩
        cases heq
        simpa using ⟨hc, hmore⟩
      · intro h
        exact ⟨c, more, rfl, by simpa using h⟩

instance (name : String) : Decidable (IsSymbol name) := decidable_of_iff _ isSymbol_iff.symm

theorem takeSymbol_spec (s : Bytes) : s = encode (takeSymbol s).1 ++ (takeSymbol s).2 ∧
    ∀ c ∈ (takeSymbol s).1, continuesSymbol c = true := by
  fun_induction takeSymbol s with
  | case1 s _ => exact ⟨rfl, by simp⟩
  | case2 s c rest h hc more after hrec ih =>
      rw [hrec] at ih
      refine ⟨?_, List.forall_mem_cons.mpr ⟨hc, ih.2⟩⟩
      rw [encode_cons, List.append_assoc, ← ih.1]
      exact decode?_eq_some.mp h
  | case3 s c rest h hc => exact ⟨rfl, by simp⟩

theorem takeSymbol_append {cs : List Char} (hcs : ∀ c ∈ cs, continuesSymbol c = true) (s : Bytes) :
    takeSymbol (encode cs ++ s) = (cs ++ (takeSymbol s).1, (takeSymbol s).2) := by
  induction cs with
  | nil => rfl
  | cons c cs ih =>
      obtain ⟨hc, hcs⟩ := List.forall_mem_cons.mp hcs
      have hd : decode? (encode (c :: cs) ++ s) = some (c, encode cs ++ s) := by
        rw [encode_cons, List.append_assoc]
        exact decode?_encode c _
      rw [takeSymbol]
      split
      · rename_i h
        rw [hd] at h
        cases h
      · rename_i c' rest h
        rw [hd] at h
        cases h
        rw [if_pos hc, ih hcs]
        rfl

theorem symbol?_spec {s rest : Bytes} {name : String} (h : symbol? s = some (name, rest)) :
    IsSymbol name ∧ s = bytes name ++ rest := by
  unfold symbol? at h
  split at h
  · cases h
  · rename_i c after hd
    split at h
    · rename_i hc
      obtain ⟨hcut, hmore⟩ := takeSymbol_spec after
      cases h
      refine ⟨⟨c, (takeSymbol after).1, String.toList_ofList, hc, hmore⟩, ?_⟩
      rw [bytes_eq_encode, String.toList_ofList, encode_cons, List.append_assoc, ← hcut]
      exact decode?_eq_some.mp hd
    · cases h

theorem symbol?_extends {name : String} (hname : IsSymbol name) (rest : Bytes) :
    ∃ name' rest', symbol? (bytes name ++ rest) = some (name', rest') ∧ rest' <:+ rest ∧
      (rest = [] → name' = name) := by
  obtain ⟨c, more, hcs, hc, hmore⟩ := hname
  have hd : decode? (bytes name ++ rest) = some (c, encode more ++ rest) := by
    rw [bytes_eq_encode, hcs, encode_cons, List.append_assoc]
    exact decode?_encode c _
  refine ⟨String.ofList (c :: (more ++ (takeSymbol rest).1)), (takeSymbol rest).2, ?_,
    ⟨_, (takeSymbol_spec rest).1.symm⟩, ?_⟩
  · simp [symbol?, hd, hc, takeSymbol_append hmore]
  · rintro rfl
    rw [show (takeSymbol []).1 = [] by simp [takeSymbol, decode?], List.append_nil, ← hcs,
      String.ofList_toList]

/-- **Scanning takes the longest symbol.** -/
theorem symbol?_munches : Munches symbol? bytes IsSymbol :=
  ⟨symbol?_spec, symbol?_extends⟩

/-! ## Token bytes -/

/-- Whether a byte may stand in a numeral or a symbol. -/
def isTokenByte (b : UInt8) : Bool := 0x80 ≤ b || continuesSymbol (Char.ofNat b.toNat)

/-- A character beyond ASCII is encoded beyond ASCII. -/
theorem mem_utf8EncodeChar {b : UInt8} {c : Char} (hb : b ∈ String.utf8EncodeChar c) :
    0x80 ≤ b.toNat ∨ c.toNat = b.toNat := by
  have hc : c.val.toNat < 0x110000 := by
    rcases c.valid with h | h <;> omega
  have hbyte : ∀ {n}, n < 256 → (UInt8.ofNat n).toNat = n := fun hn => UInt8.toNat_ofNat_of_lt' hn
  rw [String.utf8EncodeChar] at hb
  split at hb
  · right
    rw [List.mem_singleton.mp hb, hbyte (by omega)]
    rfl
  · left
    split at hb
    · simp only [List.mem_cons, List.not_mem_nil, or_false] at hb
      rcases hb with rfl | rfl <;> rw [hbyte (by omega)] <;> omega
    split at hb
    · simp only [List.mem_cons, List.not_mem_nil, or_false] at hb
      rcases hb with rfl | rfl | rfl <;> rw [hbyte (by omega)] <;> omega
    · simp only [List.mem_cons, List.not_mem_nil, or_false] at hb
      rcases hb with rfl | rfl | rfl | rfl <;> rw [hbyte (by omega)] <;> omega

theorem isTokenByte_of_mem {b : UInt8} {c : Char} (hc : continuesSymbol c = true)
    (hb : b ∈ String.utf8EncodeChar c) : isTokenByte b = true := by
  rw [isTokenByte, Bool.or_eq_true, decide_eq_true_eq, UInt8.le_iff_toNat_le]
  rcases mem_utf8EncodeChar hb with h | h
  · exact Or.inl h
  · right
    rw [← h, Char.ofNat_toNat]
    exact hc

theorem continuesSymbol_of_starts {c : Char} (hc : startsSymbol c = true) :
    continuesSymbol c = true := by
  simp [continuesSymbol, hc]

theorem isTokenByte_symbol {s : Bytes} (hs : Spelled bytes IsSymbol s) :
    ∀ b ∈ s, isTokenByte b = true := by
  obtain ⟨name, ⟨c, more, hcs, hc, hmore⟩, rfl⟩ := hs
  intro b hb
  rw [bytes_eq_encode, hcs, encode, List.mem_flatMap] at hb
  obtain ⟨d, hd, hb⟩ := hb
  refine isTokenByte_of_mem ?_ hb
  rcases List.mem_cons.mp hd with rfl | hd
  · exact continuesSymbol_of_starts hc
  · exact hmore d hd

theorem isTokenByte_digit {b : UInt8} (hb : isDigit b = true) : isTokenByte b = true := by
  have hall : ∀ n : Fin 256, isDigit (.ofNat n) = true → isTokenByte (.ofNat n) = true := by
    decide +kernel
  have := hall ⟨b.toNat, b.toNat_lt⟩
  rw [UInt8.ofNat_toNat] at this
  exact this hb

theorem isTokenByte_sign {b : UInt8} (hb : Numeral.IsSign b) : isTokenByte b = true := by
  rcases hb with rfl | rfl <;> decide

theorem isTokenByte_mark {b : UInt8} (hb : isExponentMark b = true) : isTokenByte b = true := by
  simp only [isExponentMark, Bool.or_eq_true, beq_iff_eq] at hb
  rcases hb with rfl | rfl <;> decide

theorem isTokenByte_numeral {s : Bytes} (hs : Spelled Numeral.spelling Numeral.Proper s) :
    ∀ b ∈ s, isTokenByte b = true := by
  obtain ⟨n, hn, rfl⟩ := hs
  intro b hb
  rw [Numeral.spelling_eq] at hb
  simp only [List.mem_append, Option.mem_toList] at hb
  rcases hb with hb | hb | hb | hb
  · exact isTokenByte_sign (hn.sign b hb)
  · exact isTokenByte_digit (hn.whole b hb)
  · cases hf : n.fraction with
    | none => simp [hf, Numeral.fractionSpelling] at hb
    | some f =>
        rw [hf] at hb
        rcases List.mem_cons.mp hb with rfl | hb
        · decide
        · exact isTokenByte_digit ((hn.fraction f hf).2 b hb)
  · cases he : n.exponent with
    | none => simp [he, Numeral.exponentSpelling] at hb
    | some e =>
        have hp := hn.exponent e he
        rw [he] at hb
        rcases List.mem_cons.mp hb with rfl | hb
        · exact isTokenByte_mark hp.mark
        · rcases List.mem_append.mp hb with hb | hb
          · exact isTokenByte_sign (hp.sign b (Option.mem_toList.mp hb))
          · exact isTokenByte_digit (hp.digits.2 b hb)

/-! ## Tokens -/

/-- What is no byte of tokens is in none of them. -/
theorem not_mem_of_isTokenByte {L : Bytes → Prop} {x : UInt8} (hx : isTokenByte x = false)
    (hL : ∀ s, L s → ∀ b ∈ s, isTokenByte b = true) : ∀ s, L s → x ∉ s := by
  intro s hs hmem
  rw [hL s hs x hmem] at hx
  cases hx

/-- The first token of a text that does not begin with layout, and what is behind it. -/
inductive Lexes : Bytes → Token → Bytes → Prop where
  /-- A comment goes up to the end of its line. -/
  | comment {body rest : Bytes} : (∀ b ∈ body, b ≠ newline) → (∀ b ∈ rest.head?, b = newline) →
      Lexes (commentByte :: (body ++ rest)) .comment rest
  | opening {rest : Bytes} : Lexes (openingByte :: rest) .opening rest
  | closing {rest : Bytes} : Lexes (closingByte :: rest) .closing rest
  | quote {rest : Bytes} : Lexes (quoteByte :: rest) .quote rest
  | number {s rest : Bytes} {n : Numeral} : n.Proper →
      Longest (Spelled Numeral.spelling Numeral.Proper) s n.spelling rest → Lexes s (.number n) rest
  /-- A numeral is preferred to a symbol. -/
  | symbol {s rest : Bytes} {name : String} :
      (∀ lexeme, lexeme <+: s → ¬Spelled Numeral.spelling Numeral.Proper lexeme) →
      IsSymbol name → Longest (Spelled bytes IsSymbol) s (bytes name) rest →
      Lexes s (.symbol name) rest

theorem bytes_ne_nil {name : String} (hname : IsSymbol name) : bytes name ≠ [] := by
  obtain ⟨c, more, hcs, -⟩ := hname
  rw [bytes_eq_encode, hcs, encode_cons]
  simp [String.utf8EncodeChar_ne_nil]

/-- Where a token byte stands, a numeral is tried first. -/
theorem scanHere?_of_tokenByte {s : Bytes} (hs : ∃ b ∈ s.head?, isTokenByte b = true) :
    scanHere? s = match Numeral.scan? s with
      | some (n, after) => some (.number n, after)
      | none => (symbol? s).map fun (name, after) => (.symbol name, after) := by
  obtain ⟨b, hb, htoken⟩ := hs
  obtain _ | ⟨b', rest⟩ := s
  · cases hb
  cases hb
  have hne : ∀ x, isTokenByte x = false → (b == x) = false := by
    intro x hx
    rw [beq_eq_false_iff_ne]
    rintro rfl
    rw [htoken] at hx
    cases hx
  rw [scanHere?, hne commentByte (by decide), hne openingByte (by decide),
    hne closingByte (by decide), hne quoteByte (by decide)]
  rfl

theorem head_of_longest {L : Bytes → Prop} {s lexeme rest : Bytes} (hl : Longest L s lexeme rest)
    (hne : lexeme ≠ []) (hbytes : ∀ b ∈ lexeme, isTokenByte b = true) :
    ∃ b ∈ s.head?, isTokenByte b = true := by
  obtain ⟨b, tail, rfl⟩ := List.exists_cons_of_ne_nil hne
  rw [hl.cut]
  exact ⟨b, rfl, hbytes b List.mem_cons_self⟩

theorem spelling_ne_nil {n : Numeral} (hn : n.Proper) : n.spelling ≠ [] := by
  intro h
  rw [Numeral.spelling_eq] at h
  simp only [List.append_eq_nil_iff] at h
  rcases hn.nonempty with hw | hf
  · exact hw h.2.1
  · cases hfr : n.fraction with
    | none => exact hf hfr
    | some f =>
        rw [hfr] at h
        cases h.2.2.1

/-- A comment is what stands before the first newline, or all there is. -/
theorem lexes_comment (s : Bytes) :
    Lexes (commentByte :: s) .comment (s.dropWhile (· != newline)) := by
  have hbody : ∀ b ∈ s.takeWhile (· != newline), b ≠ newline := fun b hb => by
    simpa using List.mem_takeWhile_imp hb
  have hrest : ∀ b ∈ (s.dropWhile (· != newline)).head?, b = newline := fun b hb => by
    have hhead := List.head?_dropWhile_not (· != newline) s
    rw [Option.mem_def.mp hb] at hhead
    simpa using hhead
  have hcomment := Lexes.comment hbody hrest
  rwa [List.takeWhile_append_dropWhile] at hcomment

theorem lexes_of_scanHere? {s rest : Bytes} {t : Token} (h : scanHere? s = some (t, rest)) :
    Lexes s t rest := by
  obtain _ | ⟨b, tail⟩ := s
  · cases h
  rw [scanHere?] at h
  split at h
  · rename_i hb
    cases h
    rw [beq_iff_eq.mp hb]
    exact lexes_comment tail
  split at h
  · rename_i hb
    cases h
    rw [beq_iff_eq.mp hb]
    exact .opening
  split at h
  · rename_i hb
    cases h
    rw [beq_iff_eq.mp hb]
    exact .closing
  split at h
  · rename_i hb
    cases h
    rw [beq_iff_eq.mp hb]
    exact .quote
  -- no mark stands here: a numeral is tried, and then a symbol
  split at h
  · rename_i n after hscan
    cases h
    obtain ⟨hn, hl⟩ := Numeral.scan?_munches.eq_some.mp hscan
    exact .number hn hl
  · rename_i hscan
    obtain ⟨⟨name, after⟩, hsymbol, heq⟩ := Option.map_eq_some_iff.mp h
    cases heq
    obtain ⟨hname, hl⟩ := symbol?_munches.eq_some.mp hsymbol
    exact .symbol (Numeral.scan?_munches.eq_none.mp hscan) hname hl

theorem Lexes.scanHere? {s rest : Bytes} {t : Token} (h : Lexes s t rest) :
    Token.scanHere? s = some (t, rest) := by
  cases h with
  | @comment body rest hbody hrest =>
      have hdrop : (body ++ rest).dropWhile (· != newline) = rest := by
        rw [List.dropWhile_append_of_pos (by simpa using hbody)]
        cases rest with
        | nil => rfl
        | cons b rest => simp [hrest b rfl]
      simp [Token.scanHere?, hdrop]
  | opening => rfl
  | closing => rfl
  | quote => rfl
  | number hn hl =>
      rw [scanHere?_of_tokenByte (head_of_longest hl (spelling_ne_nil hn)
        (isTokenByte_numeral ⟨_, hn, rfl⟩)), Numeral.scan?_munches.eq_some.mpr ⟨hn, hl⟩]
  | symbol hnone hname hl =>
      rw [scanHere?_of_tokenByte (head_of_longest hl (bytes_ne_nil hname)
        (isTokenByte_symbol ⟨_, hname, rfl⟩)), Numeral.scan?_munches.eq_none.mpr hnone,
        symbol?_munches.eq_some.mpr ⟨hname, hl⟩]
      rfl

/-- **Scanning follows the rules for tokens.** -/
theorem scanHere?_eq_some {s rest : Bytes} {t : Token} :
    scanHere? s = some (t, rest) ↔ Lexes s t rest :=
  ⟨lexes_of_scanHere?, Lexes.scanHere?⟩

theorem isTokenByte_layout {b : UInt8} (hb : isLayout b = true) : isTokenByte b = false := by
  simp only [isLayout, Bool.or_eq_true, beq_iff_eq] at hb
  rcases hb with ((rfl | rfl) | rfl) | rfl <;> decide

/-- No token begins with layout. -/
theorem Lexes.head {s rest : Bytes} {t : Token} (h : Lexes s t rest) :
    ∃ b ∈ s.head?, isLayout b = false := by
  have htoken : (∃ b ∈ s.head?, isTokenByte b = true) → ∃ b ∈ s.head?, isLayout b = false := by
    rintro ⟨b, hb, ht⟩
    refine ⟨b, hb, ?_⟩
    by_contra hl
    rw [isTokenByte_layout (by simpa using hl)] at ht
    cases ht
  cases h with
  | comment => exact ⟨_, rfl, by decide⟩
  | opening => exact ⟨_, rfl, by decide⟩
  | closing => exact ⟨_, rfl, by decide⟩
  | quote => exact ⟨_, rfl, by decide⟩
  | number hn hl =>
      exact htoken (head_of_longest hl (spelling_ne_nil hn) (isTokenByte_numeral ⟨_, hn, rfl⟩))
  | symbol _ hname hl =>
      exact htoken (head_of_longest hl (bytes_ne_nil hname) (isTokenByte_symbol ⟨_, hname, rfl⟩))

/-- The first token of a text, after any layout, and what is behind it. -/
def Next (s : Bytes) (t : Token) (rest : Bytes) : Prop :=
  ∃ layout s', s = layout ++ s' ∧ (∀ b ∈ layout, isLayout b = true) ∧ Lexes s' t rest

theorem scan?_eq_some {s rest : Bytes} {t : Token} :
    scan? s = some (t, rest) ↔ Next s t rest := by
  rw [scan?, scanHere?_eq_some]
  constructor
  · intro h
    exact ⟨s.takeWhile isLayout, skipLayout s, List.takeWhile_append_dropWhile.symm,
      fun _ hb => List.mem_takeWhile_imp hb, h⟩
  · rintro ⟨layout, s', rfl, hlayout, h⟩
    obtain ⟨b, hb, hnot⟩ := h.head
    rw [skipLayout, List.dropWhile_append_of_pos hlayout]
    obtain _ | ⟨b', tail⟩ := s'
    · cases hb
    cases hb
    rw [List.dropWhile_cons_of_neg (by simp [hnot])]
    exact h

/-! ## Where a text ends -/

/-- The bytes that a token begins with, if it is no symbol. -/
def beginsPlain (b : UInt8) : Bool :=
  b == commentByte || b == openingByte || b == closingByte || b == quoteByte || b == plusSign ||
    b == minusSign || b == decimalPoint || isDigit b

theorem Lexes.begins {s rest : Bytes} {t : Token} (h : Lexes s t rest) :
    (∃ b ∈ s.head?, beginsPlain b = true) ∨
      ∃ c s', startsSymbol c = true ∧ s = String.utf8EncodeChar c ++ s' := by
  cases h with
  | comment => exact Or.inl ⟨_, rfl, by decide⟩
  | opening => exact Or.inl ⟨_, rfl, by decide⟩
  | closing => exact Or.inl ⟨_, rfl, by decide⟩
  | quote => exact Or.inl ⟨_, rfl, by decide⟩
  | number hn hl =>
      have hbegins : Numeral.Begins s := Numeral.begins_iff.mpr ⟨_, ⟨rest, hl.cut.symm⟩, hl.mem⟩
      obtain ⟨b, hb, (rfl | rfl) | hd | rfl⟩ := hbegins.head
      · exact Or.inl ⟨_, hb, by decide⟩
      · exact Or.inl ⟨_, hb, by decide⟩
      · exact Or.inl ⟨b, hb, by simp [beginsPlain, hd]⟩
      · exact Or.inl ⟨_, hb, by decide⟩
  | symbol _ hname hl =>
      obtain ⟨c, more, hcs, hc, -⟩ := hname
      refine Or.inr ⟨c, encode more ++ rest, hc, ?_⟩
      rw [hl.cut, bytes_eq_encode, hcs, encode_cons, List.append_assoc]

/-- White space is layout, or no token begins with it. -/
theorem whiteSpace_cases : ∀ c ∈ whiteSpace, (String.utf8EncodeChar c).all isLayout = true ∨
    (startsSymbol c = false ∧ ((String.utf8EncodeChar c).head?.all
      fun b => !isLayout b && !beginsPlain b) = true) := by
  have hall : (whiteSpace.all fun c => (String.utf8EncodeChar c).all isLayout ||
      (!startsSymbol c && (String.utf8EncodeChar c).head?.all
        fun b => !isLayout b && !beginsPlain b)) = true := by decide +kernel
  intro c hc
  have hcase := List.all_eq_true.mp hall c hc
  rwa [Bool.or_eq_true, Bool.and_eq_true, Bool.not_eq_true'] at hcase

/-- No token begins with white space that is no layout. -/
theorem scan?_of_whiteSpace {c : Char} (hstart : startsSymbol c = false)
    (hhead : ((String.utf8EncodeChar c).head?.all fun b => !isLayout b && !beginsPlain b) = true)
    (s : Bytes) : scan? (String.utf8EncodeChar c ++ s) = none := by
  obtain ⟨b, tail, hcut⟩ := List.exists_cons_of_ne_nil (String.utf8EncodeChar_ne_nil (c := c))
  have hb : isLayout b = false ∧ beginsPlain b = false := by simpa [hcut] using hhead
  rw [scan?, skipLayout, hcut, List.cons_append, List.dropWhile_cons_of_neg (by simp [hb.1])]
  cases hscan : scanHere? (b :: (tail ++ s)) with
  | none => rfl
  | some p =>
      rcases (scanHere?_eq_some.mp hscan).begins with ⟨b', hb', hplain⟩ | ⟨d, s', hd, heq⟩
      · cases hb'
        rw [hb.2] at hplain
        cases hplain
      · -- the text begins with one character only
        rw [← List.cons_append, ← hcut] at heq
        have hdecode := decode?_encode c s
        rw [heq, decode?_encode] at hdecode
        cases hdecode
        rw [hstart] at hd
        cases hd

/-- **No token begins in a blank text.** -/
theorem scan?_of_blank {s : Bytes} (hs : isBlank s = true) : scan? s = none := by
  obtain ⟨cs, hcs, rfl⟩ := isBlank_iff.mp hs
  clear hs
  induction cs with
  | nil => rfl
  | cons c cs ih =>
      obtain ⟨hc, hcs⟩ := List.forall_mem_cons.mp hcs
      rw [encode_cons]
      rcases whiteSpace_cases c hc with hlayout | ⟨hstart, hhead⟩
      · rw [scan?, skipLayout, List.dropWhile_append_of_pos (by simpa using hlayout)]
        exact ih hcs
      · exact scan?_of_whiteSpace hstart hhead _

end Token

end ArenaLisp
