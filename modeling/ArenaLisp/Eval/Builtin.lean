import ArenaLisp.Eval.Closure
import ArenaLisp.Heap.Compare

/-!
# The built-in operations

Each takes its arguments unevaluated. Most first check how many there are, then
evaluate them from left to right. What they make is registered in the arena, except
what `set` binds, which has to last.
-/

namespace ArenaLisp

open EvalM

/-- The elements of an argument list. -/
def argumentList (operator : String) (arguments : Ref) : EvalM (List Ref) := do
  match ← see (·.elements? arguments) with
  | some cells => return cells
  | none => fail operator (.improperArguments (← view arguments))

/-- The one argument there must be. -/
def oneArgument (operator : String) (arguments : Ref) : EvalM Ref := do
  match ← argumentList operator arguments with
  | [v] => return v
  | cells => fail operator (.argumentCount 1 cells.length)

/-- The two arguments there must be. -/
def twoArguments (operator : String) (arguments : Ref) : EvalM (Ref × Ref) := do
  match ← argumentList operator arguments with
  | [v, w] => return (v, w)
  | cells => fail operator (.argumentCount 2 cells.length)

/-- The value of the one argument. -/
def evalOne (ev : Evaluator) (operator : String) (arguments : Ref) : EvalM Ref := do
  ev (← oneArgument operator arguments)

/-- The values of the two arguments. -/
def evalTwo (ev : Evaluator) (operator : String) (arguments : Ref) : EvalM (Ref × Ref) := do
  let (v, w) ← twoArguments operator arguments
  let v ← ev v
  let w ← ev w
  return (v, w)

/-- A field of a list; of the empty list, or where it is absent, the empty list. -/
def field (operator : String) (v : Ref) (part : Cell → Ref) : EvalM Ref := do
  match ← see (·.cell? v) with
  | none => make .nil
  | some c =>
    if c.kind != .pair then fail operator (.notAList c.kind)
    else match part c with
      | none => make .nil
      | some a => return some a

/--
Binds a name to a copy of a value. A binding that is there is overwritten and the
value it held is registered, so that it lasts until the end of the turn: a variable
can be replaced by something made of it.
-/
def assign (name : String) (v : Ref) : EvalM Ref := do
  let v ← copy v
  let here ← scope
  match ← see (·.findBinding? here name) with
  | some b =>
    let old := (← see (·.binding b)).value
    onHeap fun h => ((), h.modifyBinding b fun binding => { binding with value := v })
    trackAll old
    return v
  | none =>
    let atom ← new (.atom name)
    setScope (← onHeap (·.put atom v here))
    return v

/-- Checks the name that `set` is to bind. -/
def settableName (v : Ref) : EvalM String := do
  match ← see (·.cell? v) with
  | none => fail "set" (.notAnAtom .absent)
  | some c =>
    if c.kind != .atom then fail "set" (.notAnAtom (← view v))
    else if c.name == truthName then fail "set" (.constant (← view v))
    else return c.name

/-- The environment as a list of pairs of name and value. -/
def environmentList : EvalM Ref := do
  let here ← scope
  let bindings ← see fun h => (h.chain here).map h.binding
  let pairs ← bindings.mapM fun b => make (.pair b.name b.value)
  pairs.foldrM (fun pair rest => make (.pair pair rest)) (← make .nil)

/--
The value of the first clause whose predicate is not the empty list. The clauses
behind it are not looked at; `tail` is where they end.
-/
def evalClauses (ev : Evaluator) (arguments tail : Ref) : Nat → List Ref → EvalM Ref
  | _, [] => do
    if ← see (·.isNil tail) then make .nil
    else fail "cond" (.improperArguments (← view arguments))
  | position, clause :: clauses => do
    match ← see (·.elements? clause) with
    | some [predicate, value] =>
      let p ← ev predicate
      if ← see (·.isNil p) then evalClauses ev arguments tail (position + 1) clauses
      else ev value
    | _ => fail "cond" (.malformedClause position (← view clause))

/-- The number at a position of an argument list. -/
def numberAt (operator : String) (position : Nat) (v : Ref) : EvalM Number := do
  match (← see (·.cell? v)).bind Cell.number? with
  | some n => return n
  | none => fail operator (.notANumber position (← view v))

/-- The values of the two numeric arguments. -/
def evalNumbers (ev : Evaluator) (operator : String) (arguments : Ref) :
    EvalM (Number × Number) := do
  let (v, w) ← evalTwo ev operator arguments
  let a ← numberAt operator 1 v
  let b ← numberAt operator 2 w
  return (a, b)

/-- Runs a built-in operation on unevaluated arguments. -/
def Builtin.run (ev : Evaluator) (arguments : Ref) : Builtin → EvalM Ref
  | .quote => oneArgument "quote" arguments
  | .atom => do
    let v ← evalOne ev "atom" arguments
    makeBool (← see fun h =>
      h.isNil v || (h.cell? v).any fun c => c.kind == .atom || c.number?.isSome)
  | .eq => do
    let (v, w) ← evalTwo ev "eq" arguments
    makeBool (← see (·.same v w))
  | .car => do field "car" (← evalOne ev "car" arguments) Cell.car
  | .cdr => do field "cdr" (← evalOne ev "cdr" arguments) Cell.cdr
  | .cons => do
    let (v, w) ← evalTwo ev "cons" arguments
    match ← see (·.cell? w) with
    | some c =>
      if c.kind != .pair then fail "cons" (.secondNotAList c.kind) else make (.pair v w)
    | none => make (.pair v w)
  | .cond => do
    let (clauses, tail) ← see (·.spine arguments)
    evalClauses ev arguments tail 1 clauses
  | .set => do
    let (v, w) ← evalTwo ev "set" arguments
    assign (← settableName v) w
  | .env => do
    match ← argumentList "env" arguments with
    | [] => environmentList
    | cells => fail "env" (.argumentCount 0 cells.length)
  | .lambda => do
    let (params, body) ← twoArguments "lambda" arguments
    makeClosure params body
  | .macroDefinition => fail "defmacro" .noMacros
  | .arith op => do
    let (a, b) ← evalNumbers ev op.symbol arguments
    match op.apply a b with
    | some n => make (.number n)
    | none => fail op.symbol .divisionByZero
  | .compare relation => do
    let (a, b) ← evalNumbers ev relation.symbol arguments
    makeBool (relation.holds a b)
  | .arguments => return arguments

end ArenaLisp
