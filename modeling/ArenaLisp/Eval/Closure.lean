import ArenaLisp.Eval.Machine

/-!
# Closures

A closure takes copies of its parameters and its body, and a copy of the binding of
every name in the body that is not a parameter and is bound where the closure is
made. Later changes to that environment do not reach it.

A call evaluates its body where the captured bindings come first, then the
parameters, then the environment of the caller. Given fewer arguments than it has
parameters, a closure makes another that waits for the rest.
-/

namespace ArenaLisp

namespace Heap

/-- What is wrong with a parameter. -/
def paramFault? (h : Heap) (position : Nat) (param : Ref) : Option Cause :=
  if h.isNil param then some (.paramNil position)
  else if (h.cell? param).map Cell.kind != some .atom then
    some (.paramNotAtom position (h.view param))
  else if h.isTruth param then some (.paramConstant position (h.view param))
  else none

/-- The first fault among parameters, the first of which has the given position. -/
def firstParamFault? (h : Heap) : Nat → List Ref → Option Cause
  | _, [] => none
  | position, param :: params =>
    (h.paramFault? position param).or (h.firstParamFault? (position + 1) params)

/-- What is wrong with a parameter list. -/
def paramsFault? (h : Heap) (params : Ref) : Option Cause :=
  if !h.isList params then some (.paramsNotList (h.view params))
  else
    let (cells, tail) := h.spine params
    (h.firstParamFault? 1 cells).or
      (if h.isNil tail then none else some (.paramsImproper (h.view params)))

/-- The atoms of an expression from left to right, to a given depth. -/
def atomsTo : Nat → Heap → Ref → List String
  | _, _, none => []
  | 0, _, some _ => []
  | n + 1, h, some a =>
    let c := h.cell a
    if c.kind == .atom then [c.name] else atomsTo n h c.car ++ atomsTo n h c.cdr

/-- The names of an expression that are not parameters, each where it first occurs. -/
def freeNames (h : Heap) (params body : Ref) : List String :=
  let paramNames := (h.spine params).1.filterMap fun p => (h.cell? p).map Cell.name
  ((atomsTo h.depth h body).filter fun name => !paramNames.contains name).eraseDups

/-- Puts copies of the bindings of names in front of a chain, one name after the other. -/
def capture (h : Heap) (ambient : Chain) : List String → Chain → Chain × Heap
  | [], captured => (captured, h)
  | name :: names, captured =>
    match h.findBinding? ambient name with
    | none => h.capture ambient names captured
    | some b =>
      let binding := h.binding b
      let (boundName, h) := h.copy binding.name
      let (value, h) := h.copy binding.value
      let (captured, h) := h.put boundName value captured
      h.capture ambient names captured

/-- Makes a closure of copies. -/
def newClosure (h : Heap) (params body : Ref) (ambient : Chain) : Ref × Heap :=
  let (params, h) := h.copy params
  let (body, h) := h.copy body
  let (captured, h) := h.capture ambient (h.freeNames params body) none
  h.new (.closure ⟨params, body, captured⟩)

/-- Copies values one after the other. -/
def copyEach (h : Heap) : List Ref → List Ref × Heap
  | [] => ([], h)
  | v :: vs =>
    let (v, h) := h.copy v
    let (vs, h) := h.copyEach vs
    (v :: vs, h)

/-- Binds copies of parameters to values, each in front of those before it. -/
def supply (h : Heap) : List (Ref × Ref) → Chain → Chain × Heap
  | [], captured => (captured, h)
  | (param, value) :: rest, captured =>
    let (name, h) := h.copy param
    let (captured, h) := h.put name value captured
    h.supply rest captured

/--
Makes the closure that waits for the parameters beyond the given values. The values
must already be copies.
-/
def newPartial (h : Heap) (c : Closure) (params values : List Ref) : Ref × Heap :=
  let (rest, h) := h.copyEach (params.drop values.length)
  let (rest, h) := h.list rest
  let (body, h) := h.copy c.body
  let (captured, h) := h.copyChain c.captured
  let (captured, h) := h.supply (params.zip values) captured
  h.new (.closure ⟨rest, body, captured⟩)

end Heap

open EvalM

/-- Makes a closure in the scope of the machine. -/
def makeClosure (params body : Ref) : EvalM Ref := do
  match ← see (·.paramsFault? params) with
  | some cause => fail "lambda" cause
  | none =>
    let ambient ← scope
    let v ← onHeap (·.newClosure params body ambient)
    trackAll v
    return v

/-- Evaluates an argument and keeps a copy of its value for the call. -/
def passArgument (ev : Evaluator) (argument : Ref) : EvalM Ref := do
  let v ← copy (← ev argument)
  trackAll v
  return v

/-- Registers the names and values of bindings. -/
def trackContents (bindings : List BindingId) : EvalM Unit :=
  bindings.forM fun b => do
    let binding ← see (·.binding b)
    trackAll binding.name
    trackAll binding.value

/-- Registers the bindings of a chain in front of the place where another begins. -/
def trackUntil (c stop : Chain) : EvalM Unit := fun ⟨heap, arena, scope, log⟩ =>
  let bindings := heap.chainUntil c stop
  .ok () ⟨heap, arena.trackBindings bindings, scope, log⟩

/-- Makes the environment of a call with as many values as parameters. -/
def callScope (c : Closure) (values : List Ref) : EvalM Chain := do
  let captured ← onHeap (·.copyChain c.captured)
  trackContents (← see (·.chain captured))
  let caller ← scope
  let arguments ← onHeap (·.list values)
  match ← onHeap (·.bindFrame c.params arguments caller) with
  | .error cause => fail "" cause
  | .ok frame =>
    let call ← onHeap (·.join captured frame)
    trackUntil call caller
    return call

/-- Applies a closure to unevaluated arguments. -/
def applyClosure (ev : Evaluator) (c : Closure) (arguments : Ref) : EvalM Ref := do
  match ← see (·.elements? arguments) with
  | none => fail "" (.improperArguments (← view arguments))
  | some given =>
    let params := (← see (·.elements? c.params)).getD []
    if params.length < given.length then
      fail "" (.closureArgumentCount params.length given.length)
    else
      let values ← given.mapM (passArgument ev)
      if values.length < params.length then
        let v ← onHeap (·.newPartial c params values)
        record ⟨.debug, "partial application",
          [("bound", toString values.length),
           ("remaining", toString (params.length - values.length))]⟩
        trackAll v
        return v
      else
        inScope (← callScope c values) (ev c.body)

end ArenaLisp
