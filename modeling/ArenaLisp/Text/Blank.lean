import ArenaLisp.Text.Utf8

/-!
# Blanks

Two notions of white space. Between tokens only the four *layout* bytes may stand:
blank, tab, carriage return and newline. At the ends of a text every *blank*
character of Unicode counts; each has one encoding of one to three bytes, and a
text is trimmed by taking such encodings off its ends.
-/

namespace ArenaLisp.Text

/-- The bytes that may stand between tokens. -/
def isLayout (b : UInt8) : Bool := b == 0x20 || b == 0x09 || b == 0x0d || b == 0x0a

/-- The text without the layout at its head. -/
def skipLayout (s : Bytes) : Bytes := s.dropWhile isLayout

/-- The blank ASCII characters: tab to carriage return, and the blank. -/
def isBlankByte (b : UInt8) : Bool := (0x09 ≤ b && b ≤ 0x0d) || b == 0x20

/-- The two-byte blanks: next line and the no-break blank. -/
def isBlankPair (a b : UInt8) : Bool := a == 0xc2 && (b == 0x85 || b == 0xa0)

/-- The three-byte blanks: U+1680, U+2000 to U+200A, U+2028, U+2029, U+202F, U+205F, U+3000. -/
def isBlankTriple (a b c : UInt8) : Bool :=
  (a == 0xe1 && b == 0x9a && c == 0x80) ||
  (a == 0xe2 && b == 0x80 &&
    ((0x80 ≤ c && c ≤ 0x8a) || c == 0xa8 || c == 0xa9 || c == 0xaf)) ||
  (a == 0xe2 && b == 0x81 && c == 0x9f) ||
  (a == 0xe3 && b == 0x80 && c == 0x80)

/-- Whether a text is made of blank characters only. -/
def isBlank : Bytes → Bool
  | [] => true
  | [a] => isBlankByte a
  | [a, b] => (isBlankByte a && isBlankByte b) || isBlankPair a b
  | a :: b :: c :: rest =>
    (isBlankByte a && isBlank (b :: c :: rest)) ||
    (isBlankPair a b && isBlank (c :: rest)) ||
    (isBlankTriple a b c && isBlank rest)

/--
A text read from its end, without the blank characters there; its head is the last
byte that is not part of one.
-/
def trimReversed : Bytes → Bytes
  | [] => []
  | [c] => if isBlankByte c then [] else [c]
  | [c, b] =>
    if isBlankByte c then trimReversed [b]
    else if isBlankPair b c then []
    else [c, b]
  | c :: b :: a :: rest =>
    if isBlankByte c then trimReversed (b :: a :: rest)
    else if isBlankPair b c then trimReversed (a :: rest)
    else if isBlankTriple a b c then trimReversed rest
    else c :: b :: a :: rest

/-- The last byte of a text that is not part of a blank character at its end. -/
def lastByte? (s : Bytes) : Option UInt8 := (trimReversed s.reverse).head?

/-- Whether a character is blank. -/
def isBlankChar (c : Char) : Bool := isBlank (String.utf8EncodeChar c)

end ArenaLisp.Text
