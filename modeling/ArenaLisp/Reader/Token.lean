import ArenaLisp.Reader.Numeral
import ArenaLisp.Text.Blank
import ArenaLisp.Text.Letter

/-!
# Tokens

A text is cut into tokens from left to right, each after any layout and each as
long as it can be. What may start a number is tried as a number first; otherwise a
letter or one of a few marks starts a symbol. Cutting stops at the first place
where no token begins, and every token comes with the text behind it.
-/

namespace ArenaLisp

open Text

inductive Token where
  | comment
  | number (n : Numeral)
  | symbol (name : String)
  | opening
  | closing
  | quote
deriving DecidableEq, Repr

namespace Token

def openingByte : UInt8 := 0x28

def closingByte : UInt8 := 0x29

def quoteByte : UInt8 := 0x27

def commentByte : UInt8 := 0x3b

def newline : UInt8 := 0x0a

/-- The marks that may stand anywhere in a symbol. -/
def marks : List Char :=
  ['_', '+', '-', '*', '/', '=', '<', '>', '!', '&', '~', '%', '?', ':', '$', '^', '@', '#']

/-- The characters a symbol may begin with. -/
def startsSymbol (c : Char) : Bool := isLetter c || marks.contains c

/-- The characters a symbol may go on with. -/
def continuesSymbol (c : Char) : Bool := startsSymbol c || c.isDigit || c == '.'

theorem continued_length {count code : Nat} {s : Bytes} {r : Nat × Bytes}
    (h : continued count code s = some r) : r.2.length ≤ s.length := by
  induction count generalizing code s with
  | zero => simp only [continued, Option.some.injEq] at h; simp [← h]
  | succ count ih =>
    cases s with
    | nil => simp [continued] at h
    | cons b rest =>
      simp only [continued] at h
      split at h
      · exact Nat.le_succ_of_le (ih h)
      · simp at h

theorem scalar?_rest {least : Nat} {p : Nat × Bytes} {c : Char} {rest : Bytes}
    (h : scalar? least p = some (c, rest)) : rest = p.2 := by
  obtain ⟨code, tail⟩ := p
  unfold scalar? at h
  dsimp only at h
  by_cases hleast : least ≤ code
  · rw [if_pos hleast] at h
    by_cases hvalid : code.isValidChar
    · rw [dif_pos hvalid] at h
      exact (congrArg Prod.snd (Option.some.inj h)).symm
    · rw [dif_neg hvalid] at h
      cases h
  · rw [if_neg hleast] at h
    cases h

/-- A character takes at least one byte. -/
theorem decode?_length {s rest : Bytes} {c : Char} (h : decode? s = some (c, rest)) :
    rest.length < s.length := by
  cases s with
  | nil => simp [decode?] at h
  | cons b tail =>
    have long : ∀ {count code least : Nat},
        (continued count code tail).bind (scalar? least) = some (c, rest) →
          rest.length < (b :: tail).length := by
      intro count code least hb
      obtain ⟨p, hp, hc⟩ := Option.bind_eq_some_iff.mp hb
      rw [scalar?_rest hc]
      exact Nat.lt_succ_of_le (continued_length hp)
    simp only [decode?] at h
    split at h
    · rw [scalar?_rest h]; simp
    · split at h
      · simp at h
      · split at h
        · exact long h
        · split at h
          · exact long h
          · split at h
            · exact long h
            · simp at h

/-- The characters at the head of a text that can go on with a symbol, and the rest. -/
def takeSymbol (s : Bytes) : List Char × Bytes :=
  match _h : decode? s with
  | none => ([], s)
  | some (c, rest) =>
    if continuesSymbol c then
      let (more, after) := takeSymbol rest
      (c :: more, after)
    else ([], s)
termination_by s.length
decreasing_by exact decode?_length _h

/-- The longest symbol at the head of a text, and the rest. -/
def symbol? (s : Bytes) : Option (String × Bytes) :=
  match decode? s with
  | none => none
  | some (c, rest) =>
    if startsSymbol c then
      let (more, after) := takeSymbol rest
      some (String.ofList (c :: more), after)
    else none

/-- The first token of a text that does not begin with layout, and the rest. -/
def scanHere? (s : Bytes) : Option (Token × Bytes) :=
  match s with
  | [] => none
  | b :: rest =>
    if b == commentByte then some (.comment, rest.dropWhile (· != newline))
    else if b == openingByte then some (.opening, rest)
    else if b == closingByte then some (.closing, rest)
    else if b == quoteByte then some (.quote, rest)
    else match Numeral.scan? s with
      | some (n, after) => some (.number n, after)
      | none => (symbol? s).map fun (name, after) => (.symbol name, after)

/-- The first token of a text, and the rest. -/
def scan? (s : Bytes) : Option (Token × Bytes) := scanHere? (skipLayout s)

theorem takeSymbol_length (s : Bytes) : (takeSymbol s).2.length ≤ s.length := by
  fun_induction takeSymbol s with
  | case1 s h => exact Nat.le_refl _
  | case2 s c rest h hc more after hrec ih =>
    have := decode?_length h
    have : after.length ≤ rest.length := by simpa [hrec] using ih
    simp only
    omega
  | case3 s c rest h hc => exact Nat.le_refl _

theorem symbol?_length {s rest : Bytes} {name : String} (h : symbol? s = some (name, rest)) :
    rest.length < s.length := by
  simp only [symbol?] at h
  split at h
  · simp at h
  · rename_i c after hd
    split at h
    · simp only [Option.some.injEq, Prod.mk.injEq] at h
      rw [← h.2]
      exact Nat.lt_of_le_of_lt (takeSymbol_length after) (decode?_length hd)
    · simp at h

/-- A token takes at least one byte. -/
theorem scanHere?_length {s rest : Bytes} {t : Token} (h : scanHere? s = some (t, rest)) :
    rest.length < s.length := by
  cases s with
  | nil => simp [scanHere?] at h
  | cons b tail =>
    simp only [scanHere?] at h
    split at h
    · simp only [Option.some.injEq, Prod.mk.injEq] at h
      rw [← h.2]
      have := (List.dropWhile_sublist (l := tail) (· != newline)).length_le
      simp only [List.length_cons]; omega
    · split at h
      · simp only [Option.some.injEq, Prod.mk.injEq] at h; simp [← h.2]
      · split at h
        · simp only [Option.some.injEq, Prod.mk.injEq] at h; simp [← h.2]
        · split at h
          · simp only [Option.some.injEq, Prod.mk.injEq] at h; simp [← h.2]
          · split at h
            · rename_i n after hn
              simp only [Option.some.injEq, Prod.mk.injEq] at h
              rw [← h.2]
              exact Numeral.scan?_length hn
            · obtain ⟨p, hp, he⟩ := Option.map_eq_some_iff.mp h
              simp only [Prod.mk.injEq] at he
              rw [← he.2]
              exact symbol?_length hp

theorem scan?_length {s rest : Bytes} {t : Token} (h : scan? s = some (t, rest)) :
    rest.length < s.length :=
  Nat.lt_of_lt_of_le (scanHere?_length h)
    (List.dropWhile_sublist (l := s) isLayout).length_le

/-- The tokens of a text, each with the text behind it. -/
def all (s : Bytes) : List (Token × Bytes) :=
  match _h : scan? s with
  | none => []
  | some (t, rest) => (t, rest) :: all rest
termination_by s.length
decreasing_by exact scan?_length _h

end Token

end ArenaLisp
