import ArenaLisp.Eval.Builtin

/-!
# Evaluation

Numbers, procedures, the truth atom and the empty list stand for themselves. Any
other atom stands for its value in the scope, and any other list applies the value
of its first element to the rest of it, unevaluated.

`evalStep` says this once, over any way to evaluate the parts; `eval` nests it to a
given depth. Every nested evaluation uses up one level, so an evaluation that ends
within some depth ends in the same way within any greater one.
-/

namespace ArenaLisp

open EvalM

/--
Applies a value to unevaluated arguments. Of a released closure nothing is left to apply, but the
arguments must be a proper list before that is seen.
-/
def apply (ev : Evaluator) (operator arguments : Ref) : EvalM Ref := do
  match ← see (·.cell? operator) with
  | some (.live (.primitive p)) => p.builtin.run ev arguments
  | some (.live (.closure c)) => applyClosure ev c arguments
  | some (.released .primitive) => throw .dangling
  | some (.released .closure) =>
    let _ ← argumentList "" arguments
    throw .dangling
  | _ => fail "" (.notApplicable (← view operator))

/-- Evaluates an expression, given a way to evaluate its parts. -/
def evalStep (ev : Evaluator) (v : Ref) : EvalM Ref := do
  match ← see (·.cell? v) with
  | none => make .nil
  | some (.released _) => fail "" .releasedExpression
  | some (.live (.number _)) | some (.live (.primitive _)) | some (.live (.closure _)) => return v
  | some (.live (.atom name)) =>
    if name == truthName then return v
    else
      let here ← scope
      match ← see (·.lookup? here name) with
      | some value => return value
      | none => fail "" (.unbound name)
  | some (.live (.pair none none)) => return v
  | some (.live (.pair car cdr)) => apply ev (← ev car) cdr
  | some (.live (.unknown code)) => fail "" (.cannotEvaluate (.unknown code))

/-- Evaluates an expression to a given depth of nesting. -/
def eval : Nat → Evaluator
  | 0, _ => throw .tooDeep
  | n + 1, v => evalStep (eval n) v

end ArenaLisp
