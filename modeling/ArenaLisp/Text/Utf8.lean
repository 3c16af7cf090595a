/-!
# Characters in a byte text

Source text is a list of bytes, perhaps not valid UTF-8. `decode?` takes the
character at its head, and nothing when the head is no complete, shortest encoding
of a character.
-/

namespace ArenaLisp

/-- Text as bytes. -/
abbrev Bytes := List UInt8

namespace Text

/-- The UTF-8 bytes of a string. -/
def bytes (s : String) : Bytes := s.toUTF8.toList

/-- Takes `count` continuation bytes, six bits each, onto the bits read so far. -/
def continued : Nat → Nat → Bytes → Option (Nat × Bytes)
  | 0, code, rest => some (code, rest)
  | count + 1, code, b :: rest =>
    if 0x80 ≤ b ∧ b < 0xc0 then continued count (code * 64 + (b.toNat - 0x80)) rest else none
  | _ + 1, _, [] => none

/-- The character of a code point that needs its length: at least `least`, and no surrogate. -/
def scalar? (least : Nat) : Nat × Bytes → Option (Char × Bytes)
  | (code, rest) =>
    if least ≤ code then
      if valid : code.isValidChar then some (Char.ofNatAux code valid, rest) else none
    else none

/-- The character at the head of a text and what follows it. -/
def decode? : Bytes → Option (Char × Bytes)
  | [] => none
  | b :: rest =>
    if b < 0x80 then scalar? 0 (b.toNat, rest)
    else if b < 0xc0 then none
    else if b < 0xe0 then (continued 1 (b.toNat - 0xc0) rest).bind (scalar? 0x80)
    else if b < 0xf0 then (continued 2 (b.toNat - 0xe0) rest).bind (scalar? 0x800)
    else if b < 0xf8 then (continued 3 (b.toNat - 0xf0) rest).bind (scalar? 0x10000)
    else none

end Text

end ArenaLisp
