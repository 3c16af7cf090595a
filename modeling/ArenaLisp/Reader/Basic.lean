import ArenaLisp.Reader.Item

/-!
# Reading

Reading a text yields its data up to the first fault, how far it got, and what
stopped it. Where no more items begin, only blanks may be left.
-/

namespace ArenaLisp

/-- The outcome of reading a text. -/
structure Reading where
  /-- The data read, in order, also those before an error. -/
  values : List Tree
  /-- The text behind the last item. -/
  rest : Bytes
  error : Option ReadError
deriving DecidableEq

namespace Reading

/-- Puts a value in front of those of a reading. -/
def cons (t : Tree) (r : Reading) : Reading := { r with values := t :: r.values }

/--
Gathers items up to the first fault. `rest` is the text behind the items gathered so
far and `size` the length of the whole text.
-/
def ofItems (size : Nat) : Bytes → List (Item × Bytes) → Reading
  | rest, [] =>
    ⟨[], rest, if Text.isBlank rest then none else some (.unexpectedEnd (size - rest.length))⟩
  | _, (.comment, rest) :: items => ofItems size rest items
  | _, (.datum t, rest) :: items => (ofItems size rest items).cons t
  | _, (.fault e, rest) :: _ => ⟨[], rest, some e⟩

end Reading

/-- Reads all data of a text. -/
def readAll (text : Bytes) : Reading := Reading.ofItems text.length text (Item.all text)

/-- How many bytes of a text reading takes. -/
def cursor (text : Bytes) : Nat := text.length - (readAll text).rest.length

/-- The data of a text, or its error. -/
def readData (text : Bytes) : Except ReadError (List Tree) :=
  let reading := readAll text
  match reading.error with
  | some e => .error e
  | none => .ok reading.values

/-- The one datum of a text. -/
def readOne (text : Bytes) : Except ReadError Tree :=
  match readData text with
  | .error e => .error e
  | .ok [t] => .ok t
  | .ok ts => .error (.notOne ts.length)

end ArenaLisp
