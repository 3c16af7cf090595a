import ArenaLisp.Number.Basic

/-!
# Primitives

A primitive is a named built-in operation. Two primitives are the same only if they
were made together, whatever their names: each carries the serial number it was
made with.
-/

namespace ArenaLisp

/-- The operations a primitive can stand for. -/
inductive Builtin where
  | quote
  | atom
  | eq
  | car
  | cdr
  | cons
  | cond
  | set
  | env
  | lambda
  | macroDefinition
  | arith (op : Arith)
  | compare (relation : Relation)
  /-- Gives back its argument list as it stands, for programs that embed the interpreter. -/
  | arguments
deriving DecidableEq, Repr

/-- The built-in operations under the names they are first bound to, in order. -/
def Builtin.standard : List (String × Builtin) := [
  ("quote", .quote), ("atom", .atom), ("eq", .eq), ("car", .car), ("cdr", .cdr),
  ("cons", .cons), ("cond", .cond), ("set", .set), ("env", .env), ("lambda", .lambda),
  ("defmacro", .macroDefinition), ("+", .arith .add), ("-", .arith .sub), ("*", .arith .mul),
  ("/", .arith .div), ("%", .arith .mod), ("mod", .arith .mod), ("=", .compare .eq),
  (">", .compare .gt), (">=", .compare .ge), ("<", .compare .lt), ("<=", .compare .le)]

structure Primitive where
  serial : Nat
  name : String
  builtin : Builtin
deriving DecidableEq, Repr

end ArenaLisp
