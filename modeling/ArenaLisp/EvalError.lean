import ArenaLisp.Tree.Printer

/-!
# Evaluation errors

An error is a cause, raised in some cases under the name of a primitive. Causes
hold what their message shows as it was when they arose. Each cause is of one of
nine kinds.
-/

namespace ArenaLisp

inductive ErrorKind where
  | internal
  | variableNotFound
  | arity
  | type
  | invalidParameter
  | notApplicable
  | unsupported
  | divisionByZero
  | released
deriving DecidableEq, Repr

namespace ErrorKind

/-- The kind with a given number, counted from 0; other numbers are internal errors. -/
def ofCode : Int → ErrorKind
  | 1 => .variableNotFound
  | 2 => .arity
  | 3 => .type
  | 4 => .invalidParameter
  | 5 => .notApplicable
  | 6 => .unsupported
  | 7 => .divisionByZero
  | 8 => .released
  | _ => .internal

def name : ErrorKind → String
  | .internal => "internal-error"
  | .variableNotFound => "variable-not-found"
  | .arity => "arity-error"
  | .type => "type-error"
  | .invalidParameter => "invalid-parameter"
  | .notApplicable => "not-applicable"
  | .unsupported => "unsupported"
  | .divisionByZero => "division-by-zero"
  | .released => "released-value"

end ErrorKind

/-- What goes wrong in evaluation. Positions count from 1. -/
inductive Cause where
  | cannotEvaluate (kind : Kind)
  | releasedExpression
  | unbound (name : String)
  | notApplicable (operator : Tree)
  | improperArguments (arguments : Tree)
  | argumentCount (expected given : Nat)
  | closureArgumentCount (expected given : Nat)
  | notAList (kind : Kind)
  | secondNotAList (kind : Kind)
  | notAnAtom (value : Tree)
  | constant (value : Tree)
  | notANumber (position : Nat) (value : Tree)
  | divisionByZero
  | malformedClause (position : Nat) (clause : Tree)
  | paramsNotList (params : Tree)
  | paramsImproper (params : Tree)
  | paramNil (position : Nat)
  | paramNotAtom (position : Nat) (param : Tree)
  | paramConstant (position : Nat) (param : Tree)
  | frameNames (names : Tree)
  | frameValues (values : Tree)
  | noMacros
  /-- An error raised by a program that embeds the interpreter. -/
  | raised (kind : ErrorKind) (text : String)
deriving DecidableEq

namespace Cause

def kind : Cause → ErrorKind
  | .cannotEvaluate _ => .internal
  | .releasedExpression => .released
  | .unbound _ => .variableNotFound
  | .notApplicable _ => .notApplicable
  | .argumentCount _ _ | .closureArgumentCount _ _ => .arity
  | .improperArguments _ | .notAList _ | .secondNotAList _ | .notAnAtom _ | .constant _
  | .notANumber _ _ | .malformedClause _ _ | .frameNames _ | .frameValues _ => .type
  | .divisionByZero => .divisionByZero
  | .paramsNotList _ | .paramsImproper _ | .paramNil _ | .paramNotAtom _ _
  | .paramConstant _ _ => .invalidParameter
  | .noMacros => .unsupported
  | .raised kind _ => kind

/-- A number of arguments, in words. -/
def arguments (n : Nat) : String := if n = 1 then "1 argument" else toString n ++ " arguments"

def text : Cause → String
  | .cannotEvaluate kind => "cannot evaluate value of type " ++ kind.name
  | .releasedExpression => "released value used as expression"
  | .unbound name => "unbound symbol: " ++ name
  | .notApplicable operator => "value is not applicable: " ++ operator.render
  | .improperArguments args => "argument list is not a proper list: " ++ args.render
  | .argumentCount expected given =>
    "expected " ++ arguments expected ++ " (got " ++ toString given ++ ")"
  | .closureArgumentCount expected given =>
    "closure expects " ++ arguments expected ++ " (got " ++ toString given ++ ")"
  | .notAList kind => "argument is not a list: " ++ kind.name
  | .secondNotAList kind => "second argument is not a list: " ++ kind.name
  | .notAnAtom value => "first argument is not an atom: " ++ value.render
  | .constant value => "cannot rebind constant: " ++ value.render
  | .notANumber position value =>
    "argument " ++ toString position ++ " is not a number: " ++ value.render
  | .divisionByZero => "division by zero"
  | .malformedClause position clause =>
    "clause " ++ toString position ++ " is not a (predicate value) pair: " ++ clause.render
  | .paramsNotList params => "parameters are not a list: " ++ params.render
  | .paramsImproper params => "parameters are not a proper list: " ++ params.render
  | .paramNil position => "parameter " ++ toString position ++ " is nil"
  | .paramNotAtom position param =>
    "parameter " ++ toString position ++ " is not an atom: " ++ param.render
  | .paramConstant position param =>
    "parameter " ++ toString position ++ " is the constant " ++ param.render
  | .frameNames names => "parameters are not a list: " ++ names.render
  | .frameValues values => "arguments are not a list: " ++ values.render
  | .noMacros => "macros are not supported"
  | .raised _ text => text

end Cause

/-- A cause, and the name of the primitive that raised it; no primitive is the empty name. -/
structure EvalError where
  operator : String
  cause : Cause
deriving DecidableEq

namespace EvalError

def kind (e : EvalError) : ErrorKind := e.cause.kind

def message (e : EvalError) : String :=
  if e.operator = "" then e.cause.text else e.operator ++ ": " ++ e.cause.text

end EvalError

end ArenaLisp
