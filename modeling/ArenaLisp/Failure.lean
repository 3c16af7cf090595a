import ArenaLisp.EvalError
import ArenaLisp.Reader.Error

/-!
# Failures

Everything that an interpreter can report: errors of evaluation and of reading, and
those of its own use, each perhaps in a context that its message names.
-/

namespace ArenaLisp

inductive Failure where
  | evaluation (e : EvalError)
  | reading (e : ReadError)
  /-- A released procedure was applied. -/
  | dangling
  /-- An evaluation was nested deeper than allowed. -/
  | tooDeep
  | noReader
  | alreadyDefined (name : String)
  | expressionsFailed (source : String) (failed total : Nat)
  /-- A failure outside the interpreter, such as that of a source or of a configuration. -/
  | foreign (text : String)
  /-- A failure in a context that is named in front of its message. -/
  | within (context : String) (failure : Failure)
deriving DecidableEq

namespace Failure

def message : Failure → String
  | .evaluation e => e.message
  | .reading e => e.message
  | .dangling => "released procedure applied"
  | .tooDeep => "evaluation is nested too deep"
  | .noReader => "no reader configured"
  | .alreadyDefined name => "symbol already defined: " ++ name
  | .expressionsFailed source failed total =>
    source ++ ": " ++ toString failed ++ " of " ++ toString total ++ " expressions failed"
  | .foreign text => text
  | .within context failure => context ++ ": " ++ failure.message

/-- The evaluation error behind a failure. -/
def evaluation? : Failure → Option EvalError
  | .evaluation e => some e
  | .within _ failure => failure.evaluation?
  | _ => none

/-- The reading error behind a failure. -/
def reading? : Failure → Option ReadError
  | .reading e => some e
  | .within _ failure => failure.reading?
  | _ => none

/-- The kind of a failure; one that does not come from evaluation is internal. -/
def kind (f : Failure) : ErrorKind :=
  match f.evaluation? with
  | some e => e.kind
  | none => .internal

end Failure

end ArenaLisp
