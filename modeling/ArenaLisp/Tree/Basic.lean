import ArenaLisp.Kind
import ArenaLisp.Primitive

/-!
# Values as trees

A value of the heap, followed through its references, unfolds into a tree. Trees
are what the reader yields, what the printer writes and what error messages show;
they do not change when the heap does.

A field of a pair may be absent, and a pair with both fields absent is the empty
list. A released value has lost its references; its husk keeps the rest.
-/

namespace ArenaLisp

/-- The atom that evaluates to itself and stands for truth. -/
def truthName : String := "t"

/-- The atom that the quote mark is short for. -/
def quoteName : String := "quote"

/-- What is left of a released value. -/
inductive Husk where
  | atom (name : String)
  | number (n : Number)
  | pair
  | primitive
  | closure
  | unknown (code : Nat)
deriving DecidableEq

mutual

/-- A value, unfolded. -/
inductive Tree where
  | absent
  | released (husk : Husk)
  | atom (name : String)
  | number (n : Number)
  | pair (car cdr : Tree)
  | primitive (p : Primitive)
  | closure (params body : Tree) (captured : Scope)
  | unknown (code : Nat)

/-- A chain of bindings, unfolded, the front binding first. -/
inductive Scope where
  | empty
  | binding (released : Bool) (name value : Tree) (rest : Scope)

end

deriving instance DecidableEq for Tree, Scope

namespace Number

def kind : Number → Kind
  | .int _ => .integer
  | .float _ => .float

end Number

namespace Husk

def kind : Husk → Kind
  | .atom _ => .atom
  | .number n => n.kind
  | .pair => .pair
  | .primitive => .primitive
  | .closure => .closure
  | .unknown code => .unknown code

end Husk

namespace Tree

/-- The empty list. -/
def nil : Tree := .pair .absent .absent

/-- A proper list of trees. -/
def ofList : List Tree → Tree
  | [] => nil
  | t :: ts => .pair t (ofList ts)

theorem ofList_eq_foldr (ts : List Tree) : ofList ts = ts.foldr .pair nil := by
  induction ts with
  | nil => rfl
  | cons t ts ih => rw [ofList, ih, List.foldr_cons]

/-- What the quote mark before a tree stands for. -/
def quote (t : Tree) : Tree := ofList [.atom quoteName, t]

instance : Inhabited Tree := ⟨.absent⟩

end Tree

end ArenaLisp
