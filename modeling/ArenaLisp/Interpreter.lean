import ArenaLisp.Eval.Basic
import ArenaLisp.Failure
import ArenaLisp.Reader.Basic

/-!
# The interpreter

An interpreter owns a machine, whose scope between two expressions is the root
environment. A *turn* runs one expression: it is registered in the arena, evaluated
and printed, and then everything registered is released, whether the evaluation
succeeded or not.

Programs that embed an interpreter can make environments besides the root. An
environment has an identity: what is put into it is seen by all who hold it.
-/

namespace ArenaLisp

/-- An environment that a program holds. -/
inductive EnvName where
  | root
  | made (index : Nat)
deriving DecidableEq, Repr

structure Interpreter where
  machine : Machine
  /-- The environments made besides the root. -/
  environments : Array Chain
  /-- How many primitives have been made. -/
  serial : Nat
  /-- The operations bound when no others are named. -/
  builtins : List (String × Builtin)
  /-- Whether a turn prints its value. -/
  print : Bool
  /-- Whether source text can be loaded. -/
  reads : Bool

/-- What a turn, or several, show. -/
structure Turn where
  output : String
  log : Array LogRecord
  failure : Option Failure

namespace Turn

/-- The log lines from a level on. -/
def lines (least : Int) (t : Turn) : List String :=
  (t.log.toList.filter (·.shown least)).map LogRecord.line

end Turn

namespace Machine

def empty : Machine := ⟨.empty, .empty, none, #[]⟩

/-- The failure that a halt is reported as. -/
def failureOf : Halt → Failure
  | .error e => .evaluation e
  | .dangling => .dangling
  | .tooDeep => .tooDeep

/-- Changes the heap. -/
def onHeap {α : Type} (f : Heap → α × Heap) : Machine → α × Machine
  | ⟨heap, arena, scope, log⟩ =>
    let (x, heap) := f heap
    (x, ⟨heap, arena, scope, log⟩)

/-- Changes the arena, given the heap. -/
def onArena (f : Heap → Arena → Arena) : Machine → Machine
  | ⟨heap, arena, scope, log⟩ =>
    let arena := f heap arena
    ⟨heap, arena, scope, log⟩

/-- Releases everything registered; the answer is how much that was. -/
def releaseAll : Machine → Nat × Machine
  | ⟨heap, arena, scope, log⟩ =>
    let count := arena.tracked.size
    let (arena, heap) := arena.releaseAll heap
    (count, ⟨heap, arena, scope, log⟩)

/-- Adds a record to the log. -/
def record (r : LogRecord) : Machine → Machine
  | ⟨heap, arena, scope, log⟩ => ⟨heap, arena, scope, log.push r⟩

/-- The record of a failed evaluation. -/
def failureRecord (f : Failure) : LogRecord :=
  ⟨.error, "evaluation failed", [("kind", f.kind.name), ("err", f.message)]⟩

/-- The record of a release. -/
def releaseRecord (tracked : Nat) (generation : UInt64) : LogRecord :=
  ⟨.debug, "released evaluation memory",
    [("tracked", toString tracked), ("generation", toString generation)]⟩

/-- Evaluates an expression to a given depth, without printing or releasing anything. -/
def eval (depth : Nat) (v : Ref) (m : Machine) : Except Failure Ref × Machine :=
  match ArenaLisp.eval depth v m with
  | .ok v m => (.ok v, m)
  | .error halt m => (.error (failureOf halt), m)

/--
Runs a turn. The expression belongs to the turn and is released with everything
else. The answer is the text of the value, or the failure.
-/
def exec (depth : Nat) (v : Ref) (m : Machine) : Except Failure String × Machine :=
  let (result, m) := (m.onArena fun heap arena => arena.trackNodes (heap.nodes v)).eval depth v
  let (result, m) : Except Failure String × Machine := match result with
    | .ok v => let text := m.heap.render v; (.ok text, m)
    | .error f => (.error f, m.record (failureRecord f))
  let (count, m) := m.releaseAll
  let generation := m.arena.generation
  (result, m.record (releaseRecord count generation))

end Machine

namespace Interpreter

/-- The depth of nesting that evaluation is given by default. -/
def depth : Nat := Nat.pow 10 12

/-- Changes the heap. -/
def onHeap {α : Type} (f : Heap → α × Heap) : Interpreter → α × Interpreter
  | ⟨machine, environments, serial, builtins, print, reads⟩ =>
    let (x, machine) := machine.onHeap f
    (x, ⟨machine, environments, serial, builtins, print, reads⟩)

/-- Changes the arena, given the heap. -/
def onArena (f : Heap → Arena → Arena) : Interpreter → Interpreter
  | ⟨machine, environments, serial, builtins, print, reads⟩ =>
    let machine := machine.onArena f
    ⟨machine, environments, serial, builtins, print, reads⟩

/-- Does something to the machine. -/
def onMachine {α : Type} (f : Machine → α × Machine) : Interpreter → α × Interpreter
  | ⟨machine, environments, serial, builtins, print, reads⟩ =>
    let (x, machine) := f machine
    (x, ⟨machine, environments, serial, builtins, print, reads⟩)

def heap (i : Interpreter) : Heap := i.machine.heap

def arena (i : Interpreter) : Arena := i.machine.arena

/-- The front of the root environment. -/
def root (i : Interpreter) : Chain := i.machine.scope

/-- A new primitive, different from all others. -/
def newPrimitive (name : String) (builtin : Builtin) (i : Interpreter) : Primitive × Interpreter :=
  (⟨i.serial, name, builtin⟩, { i with serial := i.serial + 1 })

/-- Binds a name in the root environment. -/
def define (name value : Ref) : Interpreter → Interpreter
  | ⟨⟨heap, arena, scope, log⟩, environments, serial, builtins, print, reads⟩ =>
    let (scope, heap) := heap.put name value scope
    ⟨⟨heap, arena, scope, log⟩, environments, serial, builtins, print, reads⟩

/--
Binds new primitives in the root environment, up to the first whose name is bound
already.
-/
def bindPrimitives : List (String × Builtin) → Interpreter → Option Failure × Interpreter
  | [], i => (none, i)
  | (name, builtin) :: rest, i =>
    if (i.heap.lookup? i.root name).isSome then (some (.alreadyDefined name), i)
    else
      let (p, i) := i.newPrimitive name builtin
      let (atom, i) := i.onHeap (·.new (.atom name))
      let (value, i) := i.onHeap (·.new (.primitive p))
      bindPrimitives rest (i.define atom value)

/-- Binds new primitives; without any, those an interpreter starts with. -/
def addPrimitives (primitives : List (String × Builtin)) (i : Interpreter) :
    Option Failure × Interpreter :=
  bindPrimitives (if primitives.isEmpty then i.builtins else primitives) i

/--
A new interpreter. Its root environment binds the standard operations, then the
extra ones.
-/
def new (extra : List (String × Builtin)) (print reads : Bool) : Except Failure Interpreter :=
  let bare : Interpreter :=
    ⟨.empty, #[], 0, Builtin.standard ++ extra, print, reads⟩
  match bare.addPrimitives [] with
  | (none, i) => .ok i
  | (some failure, _) => .error failure

/-- Takes the log records gathered so far. -/
def takeLog : Interpreter → Array LogRecord × Interpreter
  | ⟨⟨heap, arena, scope, log⟩, environments, serial, builtins, print, reads⟩ =>
    (log, ⟨⟨heap, arena, scope, #[]⟩, environments, serial, builtins, print, reads⟩)

/-- Evaluates an expression in the root environment. -/
def eval (depth : Nat) (v : Ref) (i : Interpreter) : Except Failure Ref × Interpreter :=
  i.onMachine (Machine.eval depth v)

/-- Runs one turn. -/
def exec (depth : Nat) (v : Ref) (i : Interpreter) : Turn × Interpreter :=
  let print := i.print
  let (result, i) := i.onMachine (Machine.exec depth v)
  let (log, i) := i.takeLog
  match result with
  | .ok text => (⟨if print then text ++ "\n" else "", log, none⟩, i)
  | .error failure => (⟨"", log, some failure⟩, i)

/-- Builds an expression and runs a turn on it. -/
def execTree (depth : Nat) (t : Tree) (i : Interpreter) : Turn × Interpreter :=
  let (v, i) := i.onHeap (Heap.store t)
  i.exec depth v

/-- Runs a turn on each expression; failures do not stop it and are counted. -/
def execAll (depth : Nat) : List Tree → Interpreter → Nat × Turn × Interpreter
  | [], i => (0, ⟨"", #[], none⟩, i)
  | t :: ts, i =>
    let (turn, i) := i.execTree depth t
    let (failed, turns, i) := execAll depth ts i
    ((if turn.failure.isSome then failed + 1 else failed),
      ⟨turn.output ++ turns.output, turn.log ++ turns.log, none⟩, i)

/-- The data of a named source. A source that breaks off is not read at all. -/
def readSource (name : String) (text : Except String Bytes) : Except Failure (List Tree) :=
  match text with
  | .error reason => .error (.foreign reason)
  | .ok text =>
    match readData text with
    | .error e => .error (.within name (.reading e))
    | .ok ts => .ok ts

/-- Runs the expressions of a named source, one turn each. -/
def load (depth : Nat) (name : String) (text : Except String Bytes) (i : Interpreter) :
    Turn × Interpreter :=
  if !i.reads then (⟨"", #[], some .noReader⟩, i)
  else
    match readSource name text with
    | .error failure => (⟨"", #[], some failure⟩, i)
    | .ok ts =>
      let (failed, turn, i) := i.execAll depth ts
      if failed = 0 then (turn, i)
      else ({ turn with failure := some (.expressionsFailed name failed ts.length) }, i)

/-- The front of an environment; there may be no environment at all. -/
def front (i : Interpreter) : Option EnvName → Chain
  | none => none
  | some .root => i.root
  | some (.made index) => (i.environments[index]?).getD none

/-- Makes an environment with the given front. -/
def newEnvironment (c : Chain) (i : Interpreter) : EnvName × Interpreter :=
  (.made i.environments.size, { i with environments := i.environments.push c })

/-- Puts a binding into an environment. -/
def put (e : EnvName) (name value : Ref) (i : Interpreter) : Interpreter :=
  match e with
  | .root => i.define name value
  | .made index =>
    let next := i.front (some e)
    let (c, i) := i.onHeap (·.put name value next)
    { i with environments := i.environments.modify index fun _ => c }

/-- Makes an environment of copies. -/
def copyEnvironment (e : Option EnvName) (i : Interpreter) : EnvName × Interpreter :=
  let c := i.front e
  let (c, i) := i.onHeap (·.copyChain c)
  i.newEnvironment c

/-- Makes an environment with a frame in front of a base. -/
def bindFrame (names values : Ref) (base : Option EnvName) (i : Interpreter) :
    Except Failure EnvName × Interpreter :=
  let c := i.front base
  match i.onHeap (·.bindFrame names values c) with
  | (.error cause, i) => (.error (.evaluation ⟨"", cause⟩), i)
  | (.ok c, i) =>
    let (e, i) := i.newEnvironment c
    (.ok e, i)

/--
Splices an environment onto the end of another, which is also the answer; in place of
an empty one a new environment is made.
-/
def join (front back : Option EnvName) (i : Interpreter) : EnvName × Interpreter :=
  let frontChain := i.front front
  let backChain := i.front back
  match front, frontChain with
  | some e, some _ => (e, (i.onHeap (·.join frontChain backChain)).2)
  | _, _ => i.newEnvironment backChain

/-- How many bindings an environment has, hidden ones included. -/
def size (i : Interpreter) (e : Option EnvName) : Nat := (i.heap.chain (i.front e)).length

end Interpreter

end ArenaLisp
