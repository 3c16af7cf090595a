import ArenaLisp.Proofs.Session

/-!
# Evaluation of immutable values

A second evaluator, without a heap. Its values are trees, which nothing changes, and its
environment is a list of names and values that is handed on from one expression to the next,
also out of one that fails.

`set` replaces the value in the first entry of a name, or puts an entry in front. A call
evaluates the body of a closure with what it captured and its parameters in front of the
environment of the caller, and gives the caller back what is left of its own entries: the last
ones of the list, as many as it had.

Lists have no identity here, so what `eq` says of two lists that are not empty means nothing.
-/

namespace ArenaLisp

namespace Tree

/-- Whether a value is the empty list. -/
def isNil : Tree → Bool
  | .absent | .pair .absent .absent => true
  | _ => false

/-- The kind of a value; an absent one is an empty list. -/
def kind : Tree → Kind
  | .absent | .pair _ _ => .pair
  | .released husk => husk.kind
  | .atom _ => .atom
  | .number n => n.kind
  | .primitive _ => .primitive
  | .closure _ _ _ => .closure
  | .unknown code => .unknown code

/-- The name of an atom; the empty name for other values. -/
def name : Tree → String
  | .atom name => name
  | _ => ""

def number? : Tree → Option Number
  | .number n => some n
  | _ => none

/-- The first fields along a list, and the tail where the pairs end. -/
def spine : Tree → List Tree × Tree
  | .pair .absent .absent => ([], nil)
  | .pair car cdr => (car :: cdr.spine.1, cdr.spine.2)
  | t => ([], t)

theorem spine_pair {t u : Tree} (hnil : ¬(t = .absent ∧ u = .absent)) :
    (Tree.pair t u).spine = (t :: u.spine.1, u.spine.2) := by
  rw [spine]
  exact fun ht hu => hnil ⟨ht, hu⟩

/-- A value without first fields is its own tail. -/
theorem spine_eq_self {t : Tree} (hempty : t.spine.1 = []) : t.spine = ([], t) := by
  cases t with
  | pair t u =>
      by_cases hnil : t = .absent ∧ u = .absent
      · obtain ⟨rfl, rfl⟩ := hnil
        rfl
      · rw [spine_pair hnil] at hempty
        cases hempty
  | _ => rfl

/-- The elements of a proper list. -/
def elements? (t : Tree) : Option (List Tree) :=
  if t.spine.2.isNil then some t.spine.1 else none

theorem spine_ofList (ts : List Tree) : (ofList ts).spine = (ts, nil) := by
  induction ts with
  | nil => rfl
  | cons t ts ih =>
      have hne : ¬(t = .absent ∧ ofList ts = .absent) := fun hnil => by
        cases ts <;> cases hnil.2
      rw [ofList, spine_pair hne, ih]

theorem elements?_ofList (ts : List Tree) : (ofList ts).elements? = some ts := by
  rw [elements?, spine_ofList]
  rfl

/-- The atoms of an expression from left to right. -/
def atoms : Tree → List String
  | .atom name => [name]
  | .pair car cdr => car.atoms ++ cdr.atoms
  | _ => []

/-- Equality of two values that are not lists. -/
def sameDatum : Tree → Tree → Bool
  | .number x, .number y => x.same y
  | .atom x, .atom y => x == y
  | .primitive p, .primitive q => p == q
  | _, _ => false

/-- Equality of values. Of lists, only empty ones are equal. -/
def same (t u : Tree) : Bool :=
  if t.isNil || u.isNil then t.isNil && u.isNil else t.sameDatum u

/-- What is wrong with a parameter. -/
def paramFault? (position : Nat) (param : Tree) : Option Cause :=
  if param.isNil then some (.paramNil position)
  else if param.kind != .atom then some (.paramNotAtom position param)
  else if param.name == truthName then some (.paramConstant position param)
  else none

/-- The first fault among parameters, the first of which has the given position. -/
def firstParamFault? : Nat → List Tree → Option Cause
  | _, [] => none
  | position, param :: params =>
    (paramFault? position param).or (firstParamFault? (position + 1) params)

/-- What is wrong with a parameter list. -/
def paramsFault? (params : Tree) : Option Cause :=
  if params.kind != .pair then some (.paramsNotList params)
  else
    (firstParamFault? 1 params.spine.1).or
      (if params.spine.2.isNil then none else some (.paramsImproper params))

/-- The names of an expression that are not parameters, each where it first occurs. -/
def freeNames (params body : Tree) : List String :=
  (body.atoms.filter fun name => !(params.spine.1.map Tree.name).contains name).eraseDups

end Tree

namespace Reference

/-- Names and values, the first entry of a name counting. -/
abbrev Env := List (String × Tree)

abbrev RefM := EStateM Halt Env

/-- A way to evaluate an expression. -/
abbrev Meaning := Tree → RefM Tree

/-- Fails under the name of a primitive, or of none. -/
def fail {α : Type} (operator : String) (cause : Cause) : RefM α :=
  throw (.error ⟨operator, cause⟩)

/-- The value in the first entry of a name. -/
def lookup? (env : Env) (name : String) : Option Tree :=
  (env.find? fun e => e.1 == name).map Prod.snd

/-- Replaces the value in the first entry of a name, if there is one. -/
def replace? (name : String) (value : Tree) : Env → Option Env
  | [] => none
  | e :: env =>
    if e.1 == name then some ((name, value) :: env) else (replace? name value env).map (e :: ·)

/-- Replaces the value in the first entry of a name, or puts an entry in front. -/
def update (name : String) (value : Tree) (env : Env) : Env :=
  (replace? name value env).getD ((name, value) :: env)

/-- The entries that a closure makes of names, the last name's in front. -/
def capture (env : Env) (names : List String) (captured : Env) : Env :=
  names.foldl (fun captured name =>
    match lookup? env name with
    | none => captured
    | some value => (name, value) :: captured) captured

/-- Entries as a closure holds them. -/
def toScope : Env → Scope
  | [] => .empty
  | (name, value) :: env => .binding false (.atom name) value (toScope env)

/-- The entries that a closure holds. -/
def ofScope : Scope → Env
  | .empty => []
  | .binding _ name value rest => (name.name, value) :: ofScope rest

/--
Does something with entries in front of the environment. However it ends, the environment is
then the end of the one it left, as long as it was before.
-/
def within {α : Type} (front : Env) (x : RefM α) : RefM α := fun env =>
  match x (front ++ env) with
  | .ok a left => .ok a (left.drop (left.length - env.length))
  | .error e left => .error e (left.drop (left.length - env.length))

/-! ## Closures -/

def makeClosure (params body : Tree) : RefM Tree := do
  match params.paramsFault? with
  | some cause => fail "lambda" cause
  | none => return .closure params body (toScope (capture (← get) (params.freeNames body) []))

/-- Applies a closure to unevaluated arguments. -/
def applyClosure (ev : Meaning) (params body : Tree) (captured : Scope) (arguments : Tree) :
    RefM Tree := do
  match arguments.elements? with
  | none => fail "" (.improperArguments arguments)
  | some given =>
    let params := params.elements?.getD []
    if params.length < given.length then
      fail "" (.closureArgumentCount params.length given.length)
    else
      let values ← given.mapM ev
      let frame := (params.map Tree.name).zip values
      if values.length < params.length then
        return .closure (.ofList (params.drop values.length)) body
          (toScope (frame.reverse ++ ofScope captured))
      else within (ofScope captured ++ frame) (ev body)

/-! ## The built-in operations -/

/-- The elements of an argument list. -/
def argumentList (operator : String) (arguments : Tree) : RefM (List Tree) :=
  match arguments.elements? with
  | some ts => return ts
  | none => fail operator (.improperArguments arguments)

/-- The one argument there must be. -/
def oneArgument (operator : String) (arguments : Tree) : RefM Tree := do
  match ← argumentList operator arguments with
  | [t] => return t
  | ts => fail operator (.argumentCount 1 ts.length)

/-- The two arguments there must be. -/
def twoArguments (operator : String) (arguments : Tree) : RefM (Tree × Tree) := do
  match ← argumentList operator arguments with
  | [t, u] => return (t, u)
  | ts => fail operator (.argumentCount 2 ts.length)

/-- The value of the one argument. -/
def evalOne (ev : Meaning) (operator : String) (arguments : Tree) : RefM Tree := do
  ev (← oneArgument operator arguments)

/-- The values of the two arguments. -/
def evalTwo (ev : Meaning) (operator : String) (arguments : Tree) : RefM (Tree × Tree) := do
  let (t, u) ← twoArguments operator arguments
  let t ← ev t
  let u ← ev u
  return (t, u)

/-- A field of a list; of the empty list, or where it is absent, the empty list. -/
def field (operator : String) (t : Tree) (part : Tree → Tree → Tree) : RefM Tree :=
  match t with
  | .absent => return .nil
  | .pair car cdr =>
    match part car cdr with
    | .absent => return .nil
    | u => return u
  | t => fail operator (.notAList t.kind)

/-- Binds a name to a value. -/
def assign (name : String) (value : Tree) : RefM Tree := do
  modify (update name value)
  return value

/-- Checks the name that `set` is to bind. -/
def settableName (t : Tree) : RefM String :=
  match t with
  | .atom name => if name == truthName then fail "set" (.constant t) else return name
  | t => fail "set" (.notAnAtom t)

/-- The environment as a list of pairs of name and value. -/
def environmentList : RefM Tree := do
  return .ofList ((← get).map fun e => .pair (.atom e.1) e.2)

/-- The value of the first clause whose predicate is not the empty list. -/
def evalClauses (ev : Meaning) (arguments tail : Tree) : Nat → List Tree → RefM Tree
  | _, [] =>
    if tail.isNil then return .nil else fail "cond" (.improperArguments arguments)
  | position, clause :: clauses =>
    match clause.elements? with
    | some [predicate, value] => do
      let p ← ev predicate
      if p.isNil then evalClauses ev arguments tail (position + 1) clauses
      else ev value
    | _ => fail "cond" (.malformedClause position clause)

/-- The number at a position of an argument list. -/
def numberAt (operator : String) (position : Nat) (t : Tree) : RefM Number :=
  match t.number? with
  | some n => return n
  | none => fail operator (.notANumber position t)

/-- The values of the two numeric arguments. -/
def evalNumbers (ev : Meaning) (operator : String) (arguments : Tree) : RefM (Number × Number) := do
  let (t, u) ← evalTwo ev operator arguments
  let a ← numberAt operator 1 t
  let b ← numberAt operator 2 u
  return (a, b)

/-- The value of a truth. -/
def truth (b : Bool) : Tree := if b then .atom truthName else .nil

/-- Runs a built-in operation on unevaluated arguments. -/
def run (ev : Meaning) (arguments : Tree) : Builtin → RefM Tree
  | .quote => oneArgument "quote" arguments
  | .atom => do
    let t ← evalOne ev "atom" arguments
    return truth (t.isNil || t.kind == .atom || t.number?.isSome)
  | .eq => do
    let (t, u) ← evalTwo ev "eq" arguments
    return truth (t.same u)
  | .car => do field "car" (← evalOne ev "car" arguments) fun car _ => car
  | .cdr => do field "cdr" (← evalOne ev "cdr" arguments) fun _ cdr => cdr
  | .cons => do
    let (t, u) ← evalTwo ev "cons" arguments
    if u.kind != .pair then fail "cons" (.secondNotAList u.kind) else return .pair t u
  | .cond => evalClauses ev arguments arguments.spine.2 1 arguments.spine.1
  | .set => do
    let (t, u) ← evalTwo ev "set" arguments
    assign (← settableName t) u
  | .env => do
    match ← argumentList "env" arguments with
    | [] => environmentList
    | ts => fail "env" (.argumentCount 0 ts.length)
  | .lambda => do
    let (params, body) ← twoArguments "lambda" arguments
    makeClosure params body
  | .macroDefinition => fail "defmacro" .noMacros
  | .arith op => do
    let (a, b) ← evalNumbers ev op.symbol arguments
    match op.apply a b with
    | some n => return .number n
    | none => fail op.symbol .divisionByZero
  | .compare relation => do
    let (a, b) ← evalNumbers ev relation.symbol arguments
    return truth (relation.holds a b)
  | .arguments => return arguments

/-! ## Evaluation -/

/-- Applies a value to unevaluated arguments. -/
def apply (ev : Meaning) (operator arguments : Tree) : RefM Tree :=
  match operator with
  | .primitive p => run ev arguments p.builtin
  | .closure params body captured => applyClosure ev params body captured arguments
  | t => fail "" (.notApplicable t)

/-- Evaluates an expression, given a way to evaluate its parts. -/
def evalStep (ev : Meaning) (t : Tree) : RefM Tree :=
  match t with
  | .absent => return .nil
  | .released _ => fail "" .releasedExpression
  | .number _ | .primitive _ | .closure _ _ _ | .pair .absent .absent => return t
  | .atom name => do
    if name == truthName then return t
    else
      match lookup? (← get) name with
      | some value => return value
      | none => fail "" (.unbound name)
  | .pair car cdr => do apply ev (← ev car) cdr
  | .unknown code => fail "" (.cannotEvaluate (.unknown code))

theorem evalStep_pair {ev : Meaning} {t u : Tree} (hnil : ¬(t = .absent ∧ u = .absent)) :
    evalStep ev (.pair t u) = ev t >>= fun f => apply ev f u := by
  rw [evalStep]
  exact fun ht hu => hnil ⟨ht, hu⟩

/-- Evaluates an expression to a given depth of nesting. -/
def eval : Nat → Meaning
  | 0, _ => throw .tooDeep
  | n + 1, t => evalStep (eval n) t

/-- What is printed of a turn and how it fails, and the environment it leaves. -/
def turn (print : Bool) (depth : Nat) (t : Tree) (env : Env) : (String × Option Failure) × Env :=
  match eval depth t env with
  | .ok value env => ((if print then value.render ++ "\n" else "", none), env)
  | .error halt env => (("", some (Machine.failureOf halt)), env)

/-- Takes turns one after the other. -/
def session (print : Bool) : List (Nat × Expression) → Env → List (String × Option Failure) × Env
  | [], env => ([], env)
  | (depth, e) :: es, env =>
    let (shown, env) := turn print depth e.tree env
    let (rest, env) := session print es env
    (shown :: rest, env)

/-- The primitives that are bound at first, the last one in front. -/
def initial (primitives : List (String × Builtin)) : Env :=
  (primitives.zipIdx.map fun (p, serial) => (p.1, Tree.primitive ⟨serial, p.1, p.2⟩)).reverse

end Reference

end ArenaLisp
