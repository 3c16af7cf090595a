import ArenaLisp.Text.Utf8

/-!
# What can be wrong with a text
-/

namespace ArenaLisp

inductive ReadError where
  /-- A whole number beyond 32 bits, with its spelling. -/
  | intRange (spelling : String)
  /-- A number too large for a float, with its spelling. -/
  | floatRange (spelling : String)
  /-- A quote mark before a comment. -/
  | quoteWithoutDatum
  /-- Reading stopped at an offset, in bytes, before the text was used up. -/
  | unexpectedEnd (offset : Nat)
  /-- One expression was asked for and the text holds another number of them. -/
  | notOne (count : Nat)
deriving DecidableEq, Repr

namespace ReadError

/-- The text of a number that is out of range for the conversion of the given name. -/
def outOfRange (conversion spelling : String) : String :=
  "bad number: strconv." ++ conversion ++ ": parsing \"" ++ spelling ++
    "\": value out of range (" ++ spelling ++ ")"

def message : ReadError → String
  | .intRange spelling => outOfRange "ParseInt" spelling
  | .floatRange spelling => outOfRange "ParseFloat" spelling
  | .quoteWithoutDatum => "quote is not followed by an expression"
  | .unexpectedEnd offset => "syntax error at offset " ++ toString offset ++ ": unexpected EOF"
  | .notOne count => "expected one expression (got " ++ toString count ++ ")"

end ReadError

end ArenaLisp
