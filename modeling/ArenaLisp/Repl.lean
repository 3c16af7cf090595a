import ArenaLisp.Interpreter
import ArenaLisp.Reader.Incomplete

/-!
# The interactive session

Lines are gathered until they hold no expression that is still open; then they are
read together and every expression in them is run as a turn of its own. A mistake in
one place keeps all of them from running.
-/

namespace ArenaLisp

/-- What is written to the two outputs of a program. -/
structure Output where
  out : String
  err : String

namespace Output

def none : Output := ⟨"", ""⟩

def append (a b : Output) : Output := ⟨a.out ++ b.out, a.err ++ b.err⟩

instance : Append Output := ⟨append⟩

/-- Text on lines of their own. -/
def lines (texts : List String) : String := String.join (texts.map (· ++ "\n"))

/-- What a turn shows when the log begins at a level. -/
def ofTurn (least : Int) (t : Turn) : Output := ⟨t.output, lines (t.lines least)⟩

end Output

/-- What a user types. -/
inductive Typed where
  | line (text : Bytes)
  /-- Gives up the line and everything gathered before it. -/
  | interrupt
  /-- A key that does nothing but ring. -/
  | bell
deriving DecidableEq, Repr

namespace Typed

/-- The bytes that end a line. -/
def endsLine (b : UInt8) : Bool := b == 0x0a || b == 0x0d

/-- The key that interrupts. -/
def interruptKey : UInt8 := 0x03

/-- The key that would complete a word, had there been anything to complete it with. -/
def completionKey : UInt8 := 0x09

/-- What is typed with a text, after the bytes of an unfinished line, in reverse. -/
def ofBytes : (reversed : Bytes) → Bytes → List Typed
  | reversed, [] => if reversed.isEmpty then [] else [.line reversed.reverse]
  | reversed, b :: rest =>
    if endsLine b then .line reversed.reverse :: ofBytes [] rest
    else if b == interruptKey then .interrupt :: ofBytes [] rest
    else if b == completionKey then .bell :: ofBytes reversed rest
    else ofBytes (b :: reversed) rest

end Typed

structure Repl where
  interpreter : Interpreter
  /-- The lines gathered so far. -/
  pending : Bytes
  /-- Where the log begins. -/
  least : Int

namespace Repl

/-- Adds a line to those gathered. The answer is what to go on gathering, or what to read. -/
def gather (pending line : Bytes) : Bytes × Option Bytes :=
  let text := if pending.isEmpty then line else pending ++ Token.newline :: line
  if text.isEmpty then ([], none)
  else if isIncomplete text then (text, none)
  else ([], some text)

/-- Reads a text and runs its expressions. -/
def run (depth : Nat) (text : Bytes) (r : Repl) : Output × Repl :=
  match readData text with
  | .error e => (⟨"", "syntax error: " ++ e.message ++ "\n"⟩, r)
  | .ok ts =>
    let (_, turn, interpreter) := r.interpreter.execAll depth ts
    (.ofTurn r.least turn, { r with interpreter })

/-- Takes what is typed. -/
def step (depth : Nat) (r : Repl) : Typed → Output × Repl
  | .interrupt => (.none, { r with pending := [] })
  | .bell => (⟨"\x07", ""⟩, r)
  | .line line =>
    let (pending, ready) := gather r.pending line
    let r := { r with pending }
    match ready with
    | none => (.none, r)
    | some text => r.run depth text

/-- Takes everything typed, one after the other. -/
def steps (depth : Nat) : List Typed → Repl → Output × Repl
  | [], r => (.none, r)
  | t :: ts, r =>
    let (shown, r) := r.step depth t
    let (later, r) := steps depth ts r
    (shown ++ later, r)

end Repl

end ArenaLisp
