import ArenaLisp.Reader.Token
import ArenaLisp.Tree.Basic

/-!
# Items

The items of a text are its top-level expressions and comments. They are built
from the tokens with a stack of what is still open: lists with the items they hold
so far, and quote marks. A finished item goes to the innermost open list, through
any quote marks before it, or, when nothing is open, to the top level.

What cannot be read is an item too, so that a list reports the first fault among
its own items once it is closed. A list that is never closed reports nothing: it is
not an item, and neither is anything behind it.
-/

namespace ArenaLisp

inductive Item where
  | comment
  | datum (t : Tree)
  | fault (e : ReadError)
deriving DecidableEq

namespace Item

/-- A number, or the fault in its spelling. -/
def ofNumeral (n : Numeral) : Item :=
  match n.value with
  | .ok x => .datum (.number x)
  | .error e => .fault e

/-- The item that a quote mark makes of the item behind it. -/
def quoted : Item → Item
  | .comment => .fault .quoteWithoutDatum
  | .datum t => .datum t.quote
  | .fault e => .fault e

/-- The first fault among items, or else their data. -/
def data : List Item → Except ReadError (List Tree)
  | [] => .ok []
  | .comment :: items => data items
  | .datum t :: items => (data items).map (t :: ·)
  | .fault e :: _ => .error e

/-- The item made of a closed list of items. -/
def ofItems (items : List Item) : Item :=
  match data items with
  | .ok ts => .datum (.ofList ts)
  | .error e => .fault e

/-- Something that was opened: a list, with its items so far in reverse, or a quote mark. -/
inductive Frame where
  | list (reversed : List Item)
  | quote
deriving DecidableEq

/--
Hands a finished item to what is open. The answer is the item when it ends up at the
top level, and what is still open.
-/
def settle : List Frame → Item → Option Item × List Frame
  | [], item => (some item, [])
  | .quote :: frames, item => settle frames item.quoted
  | .list reversed :: frames, item => (none, .list (item :: reversed) :: frames)

/-- What a token does to what is open; nothing for a parenthesis that closes no list. -/
def shift : List Frame → Token → Option (Option Item × List Frame)
  | frames, .comment => some (settle frames .comment)
  | frames, .number n => some (settle frames (ofNumeral n))
  | frames, .symbol name => some (settle frames (.datum (.atom name)))
  | frames, .opening => some (none, .list [] :: frames)
  | frames, .quote => some (none, .quote :: frames)
  | .list reversed :: frames, .closing => some (settle frames (ofItems reversed.reverse))
  | _, .closing => none

/-- The items of a row of tokens, each with the text behind it. -/
def ofTokens : List Frame → List (Token × Bytes) → List (Item × Bytes)
  | _, [] => []
  | frames, (token, rest) :: tokens =>
    match shift frames token with
    | none => []
    | some (none, frames) => ofTokens frames tokens
    | some (some item, frames) => (item, rest) :: ofTokens frames tokens

/-- The items of a text, each with the text behind it. -/
def all (s : Bytes) : List (Item × Bytes) := ofTokens [] (Token.all s)

end Item

end ArenaLisp
