import ArenaLisp.Reader.Numeral
import Mathlib.Data.List.TakeWhile

/-!
# The numerals of a text

What a numeral is, is said by its parts: an optional sign, digits with an optional fraction or a
fraction alone, an optional exponent. Scanning takes one part after the other, each as long as
it can be and none that is not there in full. This yields the longest numeral at the head of a
text: a shorter one can only stop within a row of digits, or before a fraction or an exponent
that scanning goes on to take.
-/

namespace ArenaLisp

open Text

/-- The longest prefix of a text that is of some kind, and what is behind it. -/
structure Longest (L : Bytes → Prop) (s lexeme rest : Bytes) : Prop where
  cut : s = lexeme ++ rest
  mem : L lexeme
  longest : ∀ other, other <+: s → L other → other.length ≤ lexeme.length

namespace Longest

variable {L : Bytes → Prop}

theorem unique {s lexeme rest lexeme' rest' : Bytes} (h : Longest L s lexeme rest)
    (h' : Longest L s lexeme' rest') : lexeme = lexeme' ∧ rest = rest' := by
  have hlen : lexeme.length = lexeme'.length := by
    have h₁ := h.longest lexeme' ⟨rest', h'.cut.symm⟩ h'.mem
    have h₂ := h'.longest lexeme ⟨rest, h.cut.symm⟩ h.mem
    omega
  exact List.append_inj (h.cut.symm.trans h'.cut) hlen

/-- A prefix without a byte ends before the byte. -/
theorem prefix_of_not_mem {l a b : Bytes} {x : UInt8} (hl : l <+: a ++ x :: b) (hx : x ∉ l) :
    l <+: a := by
  rcases List.prefix_or_prefix_of_prefix hl (List.prefix_append a _) with h | ⟨m, rfl⟩
  · exact h
  · rcases List.prefix_cons_iff.mp ((List.prefix_append_right_inj a).mp hl) with rfl | ⟨t, rfl, -⟩
    · simp
    · exact absurd (List.mem_append_right _ List.mem_cons_self) hx

/-- What is of the kind is the longest such prefix where no byte of one stands behind it. -/
theorem of_stop {lexeme rest : Bytes} (hmem : L lexeme)
    (hstop : ∀ x ∈ rest.head?, ∀ s, L s → x ∉ s) : Longest L (lexeme ++ rest) lexeme rest := by
  refine ⟨rfl, hmem, fun other hother hL => ?_⟩
  cases rest with
  | nil => simpa using hother.length_le
  | cons x rest => exact (prefix_of_not_mem hother (hstop x rfl other hL)).length_le

/-- A byte that is in nothing of the kind separates what is behind it. -/
theorem append_iff {a b lexeme rest : Bytes} {x : UInt8} (hx : ∀ s, L s → x ∉ s) :
    Longest L (a ++ x :: b) lexeme rest ↔ ∃ r, rest = r ++ x :: b ∧ Longest L a lexeme r := by
  constructor
  · rintro ⟨hcut, hmem, hlongest⟩
    obtain ⟨r, rfl⟩ := prefix_of_not_mem ⟨rest, hcut.symm⟩ (hx lexeme hmem)
    rw [List.append_assoc] at hcut
    refine ⟨r, (List.append_cancel_left hcut).symm, rfl, hmem, fun other hother hL => ?_⟩
    exact hlongest other (hother.trans (List.prefix_append _ _)) hL
  · rintro ⟨r, rfl, rfl, hmem, hlongest⟩
    refine ⟨List.append_assoc .., hmem, fun other hother hL => ?_⟩
    exact hlongest other (prefix_of_not_mem hother (hx other hL)) hL

end Longest

/-- Whether bytes spell something of a kind. -/
def Spelled {α : Type} (spell : α → Bytes) (P : α → Prop) (s : Bytes) : Prop :=
  ∃ a, P a ∧ spell a = s

/--
Whether scanning finds something of a kind wherever it stands: what it takes is of the kind,
and before something of the kind it takes no less than that.
-/
structure Munches {α : Type} (scan : Bytes → Option (α × Bytes)) (spell : α → Bytes)
    (P : α → Prop) : Prop where
  spec : ∀ {s a rest}, scan s = some (a, rest) → P a ∧ s = spell a ++ rest
  extend : ∀ {a}, P a → ∀ rest, ∃ a' rest', scan (spell a ++ rest) = some (a', rest') ∧
    rest' <:+ rest ∧ (rest = [] → a' = a)

namespace Munches

variable {α : Type} {scan : Bytes → Option (α × Bytes)} {spell : α → Bytes} {P : α → Prop}

/-- What is scanned is given by its spelling. -/
theorem ext (h : Munches scan spell P) {a a' : α} (ha : P a) (ha' : P a')
    (heq : spell a = spell a') : a = a' := by
  obtain ⟨b, rest, hscan, -, hb⟩ := h.extend ha []
  obtain ⟨b', rest', hscan', -, hb'⟩ := h.extend ha' []
  rw [heq, hscan'] at hscan
  rw [← hb rfl, ← hb' rfl]
  cases hscan
  rfl

theorem longest (h : Munches scan spell P) {s rest : Bytes} {a : α}
    (hscan : scan s = some (a, rest)) : Longest (Spelled spell P) s (spell a) rest := by
  obtain ⟨ha, hcut⟩ := h.spec hscan
  refine ⟨hcut, ⟨a, ha, rfl⟩, ?_⟩
  rintro _ ⟨rest', rfl⟩ ⟨a', ha', rfl⟩
  obtain ⟨_, _, hscan', hsuffix, -⟩ := h.extend ha' rest'
  rw [hscan] at hscan'
  cases hscan'
  have hlen := congrArg List.length hcut
  simp only [List.length_append] at hlen
  have := hsuffix.length_le
  omega

/-- **Scanning takes the longest prefix of the kind.** -/
theorem eq_some (h : Munches scan spell P) {s rest : Bytes} {a : α} :
    scan s = some (a, rest) ↔ P a ∧ Longest (Spelled spell P) s (spell a) rest := by
  constructor
  · intro hscan
    exact ⟨(h.spec hscan).1, h.longest hscan⟩
  · rintro ⟨ha, hl⟩
    obtain ⟨b, r, hscan, -⟩ := h.extend ha rest
    rw [← hl.cut] at hscan
    obtain ⟨hspell, rfl⟩ := hl.unique (h.longest hscan)
    rw [hscan, h.ext ha (h.spec hscan).1 hspell]

theorem eq_none (h : Munches scan spell P) {s : Bytes} :
    scan s = none ↔ ∀ lexeme, lexeme <+: s → ¬Spelled spell P lexeme := by
  constructor
  · rintro hscan _ ⟨rest, rfl⟩ ⟨a, ha, rfl⟩
    obtain ⟨_, _, hscan', -⟩ := h.extend ha rest
    rw [hscan] at hscan'
    cases hscan'
  · intro hnone
    cases hscan : scan s with
    | none => rfl
    | some p =>
        obtain ⟨a, rest⟩ := p
        obtain ⟨ha, hcut⟩ := h.spec hscan
        exact absurd ⟨a, ha, rfl⟩ (hnone (spell a) ⟨rest, hcut.symm⟩)

end Munches

namespace Numeral

/-- One digit or more. -/
def IsDigits (s : Bytes) : Prop := s ≠ [] ∧ ∀ b ∈ s, isDigit b = true

/-- A plus or a minus. -/
def IsSign (b : UInt8) : Prop := b = plusSign ∨ b = minusSign

/-- Whether the parts of an exponent are what they are called. -/
structure ProperExponent (e : Exponent) : Prop where
  mark : isExponentMark e.mark = true
  sign : ∀ b ∈ e.sign, IsSign b
  digits : IsDigits e.digits

/-- Whether the parts of a numeral are what they are called, and enough of them are there. -/
structure Proper (n : Numeral) : Prop where
  sign : ∀ b ∈ n.sign, IsSign b
  whole : ∀ b ∈ n.whole, isDigit b = true
  fraction : ∀ f ∈ n.fraction, IsDigits f
  exponent : ∀ e ∈ n.exponent, ProperExponent e
  nonempty : n.whole ≠ [] ∨ n.fraction ≠ none

/-! ## Parts -/

theorem not_digit_of_sign {b : UInt8} (hb : IsSign b) : isDigit b = false := by
  rcases hb with rfl | rfl <;> decide

theorem not_digit_of_mark {b : UInt8} (hb : isExponentMark b = true) : isDigit b = false := by
  simp only [isExponentMark, Bool.or_eq_true, beq_iff_eq] at hb
  rcases hb with rfl | rfl <;> decide

theorem takeSign_spec (s : Bytes) :
    s = (takeSign s).1.toList ++ (takeSign s).2 ∧ ∀ b ∈ (takeSign s).1, IsSign b := by
  cases s with
  | nil => exact ⟨rfl, by simp [takeSign]⟩
  | cons b rest =>
      rw [takeSign]
      split
      · rename_i hb
        refine ⟨rfl, fun b' hb' => ?_⟩
        cases hb'
        simpa [IsSign] using hb
      · exact ⟨rfl, by simp⟩

/-- A sign is taken, and nothing else is taken for one. -/
theorem takeSign_append {sign : Option UInt8} {s : Bytes} (hsign : ∀ b ∈ sign, IsSign b)
    (hs : ∀ b ∈ s.head?, ¬IsSign b) : takeSign (sign.toList ++ s) = (sign, s) := by
  cases sign with
  | some b =>
      have hb : (b == plusSign || b == minusSign) = true := by simpa [IsSign] using hsign b rfl
      simp [takeSign, hb]
  | none =>
      cases s with
      | nil => rfl
      | cons b s =>
          have hb : (b == plusSign || b == minusSign) = false := by
            simpa [IsSign] using hs b rfl
          simp [takeSign, hb]

theorem takeDigits_spec (s : Bytes) :
    s = (takeDigits s).1 ++ (takeDigits s).2 ∧ ∀ b ∈ (takeDigits s).1, isDigit b = true :=
  ⟨List.takeWhile_append_dropWhile.symm, fun _ hb => List.mem_takeWhile_imp hb⟩

theorem takeDigits_append {digits : Bytes} (hd : ∀ b ∈ digits, isDigit b = true) (s : Bytes) :
    takeDigits (digits ++ s) = (digits ++ (takeDigits s).1, (takeDigits s).2) := by
  rw [takeDigits, List.takeWhile_append_of_pos hd, List.dropWhile_append_of_pos hd]
  rfl

theorem takeDigits_suffix (s : Bytes) : (takeDigits s).2 <:+ s := List.dropWhile_suffix _

theorem takeDigits_cons {b : UInt8} (hb : isDigit b = false) (s : Bytes) :
    takeDigits (b :: s) = ([], b :: s) := by
  simp [takeDigits, hb]

/-- The bytes of a fraction. -/
def fractionSpelling (f : Option Bytes) : Bytes := (f.map (decimalPoint :: ·)).getD []

/-- The bytes of an exponent, if there is one. -/
def exponentSpelling (e : Option Exponent) : Bytes := (e.map Exponent.spelling).getD []

theorem spelling_eq (n : Numeral) : n.spelling = n.sign.toList ++ (n.whole ++
    (fractionSpelling n.fraction ++ exponentSpelling n.exponent)) := by
  simp [spelling, fractionSpelling, exponentSpelling]

theorem takeFraction_spec (s : Bytes) :
    s = fractionSpelling (takeFraction s).1 ++ (takeFraction s).2 ∧
      ∀ f ∈ (takeFraction s).1, IsDigits f := by
  cases s with
  | nil => exact ⟨rfl, by simp [takeFraction]⟩
  | cons b rest =>
      obtain ⟨hcut, hdigits⟩ := takeDigits_spec rest
      rw [takeFraction]
      dsimp only
      split
      · rename_i hb
        simp only [Bool.and_eq_true, beq_iff_eq, Bool.not_eq_true', List.isEmpty_eq_false_iff] at hb
        refine ⟨?_, fun f hf => ?_⟩
        · rw [hb.1]
          exact congrArg (decimalPoint :: ·) hcut
        · cases hf
          exact ⟨hb.2, hdigits⟩
      · exact ⟨rfl, by simp⟩

theorem takeFraction_append {f : Bytes} (hf : IsDigits f) (s : Bytes) :
    takeFraction (fractionSpelling (some f) ++ s) =
      (some (f ++ (takeDigits s).1), (takeDigits s).2) := by
  show takeFraction (decimalPoint :: (f ++ s)) = _
  rw [takeFraction]
  simp [takeDigits_append hf.2, hf.1]

theorem takeFraction_cons {b : UInt8} (hb : b ≠ decimalPoint) (s : Bytes) :
    takeFraction (b :: s) = (none, b :: s) := by
  simp [takeFraction, hb]

theorem takeFraction_suffix (s : Bytes) : (takeFraction s).2 <:+ s :=
  ⟨_, (takeFraction_spec s).1.symm⟩

theorem takeExponent_spec (s : Bytes) :
    s = exponentSpelling (takeExponent s).1 ++ (takeExponent s).2 ∧
      ∀ e ∈ (takeExponent s).1, ProperExponent e := by
  cases s with
  | nil => exact ⟨rfl, by simp [takeExponent]⟩
  | cons b rest =>
      obtain ⟨hsign, hproper⟩ := takeSign_spec rest
      obtain ⟨hcut, hdigits⟩ := takeDigits_spec (takeSign rest).2
      rw [takeExponent]
      dsimp only
      split
      · rename_i hb
        simp only [Bool.and_eq_true, Bool.not_eq_true', List.isEmpty_eq_false_iff] at hb
        refine ⟨?_, fun e he => ?_⟩
        · show b :: rest = (b :: ((takeSign rest).1.toList ++ _)) ++ _
          rw [List.cons_append, List.append_assoc, ← hcut, ← hsign]
        · cases he
          exact ⟨hb.1, hproper, hb.2, hdigits⟩
      · exact ⟨rfl, by simp⟩

theorem takeExponent_append {e : Exponent} (he : ProperExponent e) (s : Bytes) :
    takeExponent (exponentSpelling (some e) ++ s) =
      (some { e with digits := e.digits ++ (takeDigits s).1 }, (takeDigits s).2) := by
  have hhead : ∀ b ∈ (e.digits ++ s).head?, ¬IsSign b := by
    intro b hb hsign
    obtain ⟨d, ds, hds⟩ := List.exists_cons_of_ne_nil he.digits.1
    rw [hds, List.cons_append, List.head?_cons] at hb
    cases hb
    have := he.digits.2 b (by rw [hds]; exact List.mem_cons_self)
    rw [not_digit_of_sign hsign] at this
    cases this
  show takeExponent (e.mark :: (e.sign.toList ++ e.digits ++ s)) = _
  rw [List.append_assoc, takeExponent]
  simp [takeSign_append he.sign hhead, takeDigits_append he.digits.2, he.mark, he.digits.1]

theorem takeExponent_suffix (s : Bytes) : (takeExponent s).2 <:+ s :=
  ⟨_, (takeExponent_spec s).1.symm⟩

/-! ## Numerals -/

/-- What is scanned is a numeral, and what is behind it is left. -/
theorem scan?_spec {s rest : Bytes} {n : Numeral} (h : scan? s = some (n, rest)) :
    n.Proper ∧ s = n.spelling ++ rest := by
  obtain ⟨hsign, hsigns⟩ := takeSign_spec s
  obtain ⟨hwhole, hdigits⟩ := takeDigits_spec (takeSign s).2
  obtain ⟨hfraction, hfractions⟩ := takeFraction_spec (takeDigits (takeSign s).2).2
  obtain ⟨hexponent, hexponents⟩ :=
    takeExponent_spec (takeFraction (takeDigits (takeSign s).2).2).2
  simp only [scan?] at h
  split at h
  · cases h
  · rename_i hne
    cases h
    refine ⟨⟨hsigns, hdigits, hfractions, hexponents, ?_⟩, ?_⟩
    · simpa [Decidable.imp_iff_not_or] using hne
    · rw [spelling_eq]
      simp only [List.append_assoc]
      rw [← hexponent, ← hfraction, ← hwhole, ← hsign]

theorem scan?_of_parts {s s₁ s₂ s₃ rest whole : Bytes} {sign : Option UInt8}
    {fraction : Option Bytes} {exponent : Option Exponent} (hsign : takeSign s = (sign, s₁))
    (hwhole : takeDigits s₁ = (whole, s₂)) (hfraction : takeFraction s₂ = (fraction, s₃))
    (hexponent : takeExponent s₃ = (exponent, rest)) (hne : whole ≠ [] ∨ fraction ≠ none) :
    scan? s = some (⟨sign, whole, fraction, exponent⟩, rest) := by
  simp only [scan?, hsign, hwhole, hfraction, hexponent]
  refine if_neg fun h => ?_
  simp only [Bool.and_eq_true, List.isEmpty_iff, Option.isNone_iff_eq_none] at h
  rcases hne with hne | hne
  · exact hne h.1
  · exact hne h.2

/-- No sign stands where the digits of a numeral begin. -/
theorem Proper.head_not_sign {n : Numeral} (hn : n.Proper) (s : Bytes) :
    ∀ b ∈ (n.whole ++ (fractionSpelling n.fraction ++ s)).head?, ¬IsSign b := by
  intro b hb hs
  cases hw : n.whole with
  | cons d ds =>
      have hd := hn.whole d (by rw [hw]; exact List.mem_cons_self)
      rw [hw] at hb
      cases hb
      rw [not_digit_of_sign hs] at hd
      cases hd
  | nil =>
      cases hf : n.fraction with
      | none => exact hn.nonempty.elim (· hw) (· hf)
      | some f =>
          rw [hw, hf] at hb
          cases hb
          rcases hs with hs | hs <;> exact absurd hs (by decide)

/--
Before a numeral nothing stops scanning, so it takes one that is at least as long; and the
numeral itself when nothing is behind it.
-/
theorem scan?_extends {n : Numeral} (hn : n.Proper) (rest : Bytes) :
    ∃ n' rest', scan? (n.spelling ++ rest) = some (n', rest') ∧ rest' <:+ rest ∧
      (rest = [] → n' = n) := by
  have hhead := hn.head_not_sign (exponentSpelling n.exponent ++ rest)
  obtain ⟨sign, whole, fraction, exponent⟩ := n
  obtain ⟨hsign, hwhole, hfraction, hexponent, hne⟩ := hn
  dsimp only at hsign hwhole hfraction hexponent hne hhead
  have hsign' := takeSign_append hsign hhead
  have hwhole' := takeDigits_append hwhole
    (fractionSpelling fraction ++ (exponentSpelling exponent ++ rest))
  have hstop : ∀ e, exponent = some e → takeDigits (exponentSpelling exponent ++ rest) =
      ([], exponentSpelling exponent ++ rest) := by
    rintro e rfl
    exact takeDigits_cons (not_digit_of_mark (hexponent e rfl).mark) _
  rw [spelling_eq]
  simp only [List.append_assoc]
  -- the last part that is there takes in the digits behind it, and the parts before it end where
  -- they did; a part that is not there may be found behind the numeral.
  cases fraction with
  | some f =>
      have hf := hfraction f rfl
      rw [show takeDigits (fractionSpelling (some f) ++ (exponentSpelling exponent ++ rest)) =
        ([], fractionSpelling (some f) ++ (exponentSpelling exponent ++ rest)) from
        takeDigits_cons (by decide) _, List.append_nil] at hwhole'
      have hfraction' := takeFraction_append hf (exponentSpelling exponent ++ rest)
      cases exponent with
      | some e =>
          rw [hstop e rfl, List.append_nil] at hfraction'
          refine ⟨_, _, scan?_of_parts hsign' hwhole' hfraction'
            (takeExponent_append (hexponent e rfl) rest) (Or.inr (Option.some_ne_none _)),
            takeDigits_suffix rest, ?_⟩
          rintro rfl
          simp [takeDigits]
      | none =>
          refine ⟨_, _, scan?_of_parts hsign' hwhole' hfraction' rfl
            (Or.inr (Option.some_ne_none _)),
            (takeExponent_suffix _).trans (takeDigits_suffix rest), ?_⟩
          rintro rfl
          simp [takeDigits, exponentSpelling]
  | none =>
      have hwhole₀ : whole ≠ [] := hne.resolve_right (· rfl)
      cases exponent with
      | some e =>
          rw [show fractionSpelling none ++ (exponentSpelling (some e) ++ rest) =
            exponentSpelling (some e) ++ rest from rfl, hstop e rfl, List.append_nil] at hwhole'
          have hfraction' : takeFraction (exponentSpelling (some e) ++ rest) =
              (none, exponentSpelling (some e) ++ rest) := by
            refine takeFraction_cons (fun hmark => ?_) _
            have := (hexponent e rfl).mark
            rw [hmark] at this
            exact absurd this (by decide)
          refine ⟨_, _, scan?_of_parts hsign' hwhole' hfraction'
            (takeExponent_append (hexponent e rfl) rest) (Or.inl hwhole₀),
            takeDigits_suffix rest, ?_⟩
          rintro rfl
          simp [takeDigits]
      | none =>
          refine ⟨_, _, scan?_of_parts hsign' hwhole' rfl rfl (Or.inl (by simp [hwhole₀])),
            ((takeExponent_suffix _).trans (takeFraction_suffix _)).trans (takeDigits_suffix rest),
            ?_⟩
          rintro rfl
          simp [takeDigits, exponentSpelling, fractionSpelling]

/-- **Scanning takes the longest numeral.** -/
theorem scan?_munches : Munches scan? spelling Proper := ⟨scan?_spec, scan?_extends⟩

/-- Whether a text begins with an optional sign and a digit, or a point and a digit. -/
def Begins (s : Bytes) : Prop :=
  ∃ (sign : Option UInt8) (d : UInt8) (rest : Bytes), (∀ b ∈ sign, IsSign b) ∧ isDigit d = true ∧
    (s = sign.toList ++ d :: rest ∨ s = sign.toList ++ decimalPoint :: d :: rest)

/-- A numeral begins where its first digit does. -/
theorem begins_iff {s : Bytes} :
    Begins s ↔ ∃ lexeme, lexeme <+: s ∧ Spelled spelling Proper lexeme := by
  constructor
  · rintro ⟨sign, d, rest, hsign, hd, rfl | rfl⟩
    · refine ⟨_, ?_, ⟨sign, [d], none, none⟩, ⟨hsign, ?_, nofun, nofun, Or.inl nofun⟩, rfl⟩
      · exact ⟨rest, by simp [spelling]⟩
      · simpa using hd
    · refine ⟨_, ?_, ⟨sign, [], some [d], none⟩, ⟨hsign, nofun, ?_, nofun, Or.inr nofun⟩, rfl⟩
      · exact ⟨rest, by simp [spelling]⟩
      · intro f hf
        cases hf
        exact ⟨nofun, by simpa using hd⟩
  · rintro ⟨_, ⟨rest, rfl⟩, n, hn, rfl⟩
    rw [spelling_eq]
    cases hw : n.whole with
    | cons d ds =>
        exact ⟨n.sign, d,
          ds ++ (fractionSpelling n.fraction ++ exponentSpelling n.exponent) ++ rest, hn.sign,
          hn.whole d (by rw [hw]; exact List.mem_cons_self), Or.inl (by simp)⟩
    | nil =>
        cases hf : n.fraction with
        | none => exact (hn.nonempty.elim (· hw) (· hf)).elim
        | some f =>
            obtain ⟨hne, hdigits⟩ := hn.fraction f hf
            obtain ⟨d, ds, rfl⟩ := List.exists_cons_of_ne_nil hne
            exact ⟨n.sign, d, ds ++ exponentSpelling n.exponent ++ rest, hn.sign,
              hdigits d List.mem_cons_self, Or.inr (by simp [fractionSpelling])⟩

theorem begins_iff_scan? {s : Bytes} : Begins s ↔ (scan? s).isSome = true := by
  rw [begins_iff, Option.isSome_iff_ne_none, Ne, scan?_munches.eq_none]
  simp

instance (s : Bytes) : Decidable (Begins s) := decidable_of_iff _ begins_iff_scan?.symm

theorem Begins.head {s : Bytes} (hs : Begins s) :
    ∃ b ∈ s.head?, IsSign b ∨ isDigit b = true ∨ b = decimalPoint := by
  obtain ⟨sign, d, rest, hsign, hd, rfl | rfl⟩ := hs
  · cases sign with
    | none => exact ⟨d, rfl, Or.inr (Or.inl hd)⟩
    | some b => exact ⟨b, rfl, Or.inl (hsign b rfl)⟩
  · cases sign with
    | none => exact ⟨_, rfl, Or.inr (Or.inr rfl)⟩
    | some b => exact ⟨b, rfl, Or.inl (hsign b rfl)⟩

end Numeral

end ArenaLisp
