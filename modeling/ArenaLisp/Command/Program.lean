import ArenaLisp.Command.Basic
import ArenaLisp.Command.Directory
import ArenaLisp.Repl

/-!
# The program

What the program writes and how it ends, from its command line, the files it names
and what is typed. Sources are read before anything else is looked at, and the first
that fails ends a run.
-/

namespace ArenaLisp

/-- Everything a run of the program shows. -/
structure Report where
  output : Output
  exitCode : Nat

namespace Program

/-- A report of failure with a message. -/
def failed (message : String) : Report := ⟨⟨"", message ++ "\n"⟩, 1⟩

/-- The message about a log level that is refused. -/
def levelMessage (text : String) (e : LevelError) : String :=
  "invalid log level " ++ Text.quoted text ++ ": " ++ e.message text

/-- The sources a run names, with their names, or the message about the first file that cannot be read. -/
def sources (files : Files) (expressions : Bool) (arguments : List String) :
    Except String (List (String × Bytes)) :=
  if expressions then
    .ok (arguments.mapIdx fun i text => ("expression " ++ toString (i + 1), Text.bytes text))
  else
    arguments.mapM fun name =>
      match files name with
      | .ok text => .ok (name, text)
      | .error e => .error (e.message name)

/-- Loads sources in order, up to the first that fails. -/
def loadAll (depth : Nat) (least : Int) : List (String × Bytes) → Interpreter → Report
  | [], _ => ⟨.none, 0⟩
  | (name, text) :: rest, i =>
    let (turn, i) := i.load depth name (.ok text)
    let shown := Output.ofTurn least turn
    match turn.failure with
    | some failure => ⟨shown ++ ⟨"", failure.message ++ "\n"⟩, 1⟩
    | none =>
      let report := loadAll depth least rest i
      { report with output := shown ++ report.output }

/-- Runs sources. -/
def runSources (depth : Nat) (files : Files) (expressions print : Bool) (logLevel : String)
    (arguments : List String) : Report :=
  match sources files expressions arguments with
  | .error message => failed message
  | .ok texts =>
    match Level.ofText logLevel with
    | .error e => failed (levelMessage logLevel e)
    | .ok least =>
      match Interpreter.new [] print true with
      | .error failure => failed failure.message
      | .ok i => loadAll depth least texts i

/-- An interactive session that has not begun, or why it cannot begin. -/
def startSession (logLevel : String) : Except String Repl :=
  match Level.ofText logLevel with
  | .error e => .error (levelMessage logLevel e)
  | .ok least =>
    match Interpreter.new [] true true with
    | .error failure => .error failure.message
    | .ok interpreter => .ok ⟨interpreter, [], least⟩

/-- What ends an interactive session. -/
def farewell : Output := ⟨"", "done\n"⟩

/-- An interactive session in which everything is typed at once. -/
def runSession (depth : Nat) (logLevel : String) (typed : Bytes) : Report :=
  match startSession logLevel with
  | .error message => failed ("Error: " ++ message)
  | .ok repl => ⟨(repl.steps depth (Typed.ofBytes [] typed)).1 ++ farewell, 0⟩

/-- The report about a mistake in the command line. -/
def mistaken (e : UsageError) : Report :=
  ⟨⟨"", "Error: " ++ e.message ++ "\n" ++ Command.hint e⟩, 1⟩

/-- Runs the program. -/
def run (depth : Nat) (line : List String) (files : Files) (typed : Bytes) : Report :=
  match Command.parse line with
  | .error e => mistaken e
  | .ok (.run expressions print logLevel arguments) =>
    runSources depth files expressions print logLevel arguments
  | .ok (.repl logLevel) => runSession depth logLevel typed
  | .ok .help => ⟨.none, 0⟩

end Program

end ArenaLisp
