/-!
# Kinds of values

Every value has one of six kinds, numbered from 1; any other number names no kind
and a value that carries one is invalid.
-/

namespace ArenaLisp

inductive Kind where
  | atom
  | pair
  | primitive
  | closure
  | integer
  | float
  | unknown (code : Nat)
deriving DecidableEq, Repr

namespace Kind

/-- The kind with a given number. -/
def ofCode : Nat → Kind
  | 1 => .atom
  | 2 => .pair
  | 3 => .primitive
  | 4 => .closure
  | 5 => .integer
  | 6 => .float
  | code => .unknown code

/-- The name of a kind in messages. -/
def name : Kind → String
  | .atom => "atom"
  | .pair => "pair"
  | .primitive => "primitive"
  | .closure => "closure"
  | .integer => "integer"
  | .float => "float"
  | .unknown _ => "INVALID"

end Kind

end ArenaLisp
