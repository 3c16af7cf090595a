import ArenaLisp.Tree.Basic

/-!
# The text of a value

Lists stand in parentheses, with a point before a last field that is no list. A
closure is written like the expression that makes it, without what it captured. A
released value shows as `<released>`, except that a released pair at the end of a
list is like any empty pair there and ends the list.
-/

namespace ArenaLisp.Tree

mutual

/-- The text of a value; an absent one is written like the empty list. -/
def render : Tree → String
  | .absent => "()"
  | .released _ => "<released>"
  | .atom name => name
  | .number n => n.text
  | .primitive p => "<primitive " ++ p.name ++ ">"
  | .closure params body _ => "(lambda " ++ params.render ++ " " ++ body.render ++ ")"
  | .pair .absent .absent => "()"
  | .pair car cdr => "(" ++ car.render ++ cdr.renderTail
  | .unknown _ => "<invalid>"

/-- What follows the first element of a list, to the closing parenthesis. -/
def renderTail : Tree → String
  | .absent => ")"
  | .released .pair => ")"
  | .pair .absent .absent => ")"
  | .pair car cdr => " " ++ car.render ++ cdr.renderTail
  | .released _ => " . <released>)"
  | .atom name => " . " ++ name ++ ")"
  | .number n => " . " ++ n.text ++ ")"
  | .primitive p => " . <primitive " ++ p.name ++ ">)"
  | .closure params body _ => " . (lambda " ++ params.render ++ " " ++ body.render ++ "))"
  | .unknown _ => " . <invalid>)"

end

/-- A list that is not empty is written with its first element in front. -/
theorem render_pair {car cdr : Tree} (hnil : ¬(car = .absent ∧ cdr = .absent)) :
    (pair car cdr).render = "(" ++ car.render ++ cdr.renderTail := by
  cases car with
  | absent =>
      cases cdr with
      | absent => exact absurd ⟨rfl, rfl⟩ hnil
      | _ => rfl
  | _ => rfl

theorem renderTail_pair {car cdr : Tree} (hnil : ¬(car = .absent ∧ cdr = .absent)) :
    (pair car cdr).renderTail = " " ++ car.render ++ cdr.renderTail := by
  cases car with
  | absent =>
      cases cdr with
      | absent => exact absurd ⟨rfl, rfl⟩ hnil
      | _ => rfl
  | _ => rfl

end ArenaLisp.Tree

namespace ArenaLisp.Scope

/-- The bindings of a chain, each as a pair of name and value. -/
def entries : Scope → List String
  | .empty => []
  | .binding _ name value rest =>
    ("(" ++ name.render ++ " . " ++ value.render ++ ")") :: rest.entries

/-- The text of a chain of bindings. -/
def render (s : Scope) : String := "(" ++ " ".intercalate s.entries ++ ")"

end ArenaLisp.Scope
