import ArenaLisp.Arena
import ArenaLisp.Heap.Copy
import ArenaLisp.Heap.Env
import ArenaLisp.Log

/-!
# The machine

What evaluation works on: the heap, the arena, the environment of the expression at
hand and the log. Evaluation changes the machine whether it succeeds or not, so an
error comes with the machine as it then was.

Evaluation ends in one of four ways: with a value, with an error of the program,
by using a procedure that was released, or because its depth was used up. The last
two are told apart from errors; the third is never seen where released values stay
out of reach.
-/

namespace ArenaLisp

structure Machine where
  heap : Heap
  arena : Arena
  /-- The environment of the expression at hand. -/
  scope : Chain
  log : Array LogRecord
deriving DecidableEq

/-- How evaluation ends without a value. -/
inductive Halt where
  | error (e : EvalError)
  /-- A released procedure was applied. -/
  | dangling
  /-- The evaluation is nested deeper than allowed. -/
  | tooDeep
deriving DecidableEq

abbrev EvalM := EStateM Halt Machine

/-- A way to evaluate an expression in the scope of the machine. -/
abbrev Evaluator := Ref → EvalM Ref

namespace EvalM

/-- Fails under the name of a primitive, or of none. -/
def fail {α : Type} (operator : String) (cause : Cause) : EvalM α :=
  throw (.error ⟨operator, cause⟩)

/-- What can be seen in the heap. -/
def see {α : Type} (f : Heap → α) : EvalM α := fun m => .ok (f m.heap) m

/-- Changes the heap. -/
def onHeap {α : Type} (f : Heap → α × Heap) : EvalM α := fun ⟨heap, arena, scope, log⟩ =>
  let (x, heap) := f heap
  .ok x ⟨heap, arena, scope, log⟩

/-- A value, unfolded. -/
def view (v : Ref) : EvalM Tree := see (·.view v)

/-- Makes a value that is not registered. -/
def new (d : Datum) : EvalM Ref := onHeap (·.new d)

/-- Registers a value alone. -/
def track (v : Ref) : EvalM Unit := fun ⟨heap, arena, scope, log⟩ =>
  .ok () ⟨heap, arena.track v, scope, log⟩

/-- Registers a value and everything reached from it. -/
def trackAll (v : Ref) : EvalM Unit := fun ⟨heap, arena, scope, log⟩ =>
  let nodes := heap.nodes v
  .ok () ⟨heap, arena.trackNodes nodes, scope, log⟩

/-- Makes a value and registers it. -/
def make (d : Datum) : EvalM Ref := do
  let v ← new d
  track v
  return v

/-- Makes the value of a truth: the truth atom or the empty list. -/
def makeBool (b : Bool) : EvalM Ref := make (if b then .truth else .nil)

/-- Copies a value. -/
def copy (v : Ref) : EvalM Ref := onHeap (·.copy v)

/-- The environment of the expression at hand. -/
def scope : EvalM Chain := fun m => .ok m.scope m

/-- Replaces the environment of the expression at hand. -/
def setScope (c : Chain) : EvalM Unit := fun ⟨heap, arena, _, log⟩ => .ok () ⟨heap, arena, c, log⟩

/-- Adds a record to the log. -/
def record (r : LogRecord) : EvalM Unit := fun ⟨heap, arena, scope, log⟩ =>
  .ok () ⟨heap, arena, scope, log.push r⟩

/-- Does something in another environment and comes back, however it ends. -/
def inScope {α : Type} (c : Chain) (x : EvalM α) : EvalM α := fun ⟨heap, arena, scope, log⟩ =>
  match x ⟨heap, arena, c, log⟩ with
  | .ok a ⟨heap, arena, _, log⟩ => .ok a ⟨heap, arena, scope, log⟩
  | .error e ⟨heap, arena, _, log⟩ => .error e ⟨heap, arena, scope, log⟩

end EvalM

end ArenaLisp
