import ArenaLisp.Heap.Basic

/-!
# The memory audit

Lists the released nodes that an environment still reaches, each with the path that
leads to it. A sound environment has none. The walk goes no further through a
released node.
-/

namespace ArenaLisp

/-- A released node, and the path to it. -/
inductive Finding where
  | binding (path : String)
  | value (path : String)
deriving DecidableEq, Repr

namespace Finding

def message : Finding → String
  | .binding path => path ++ ": released binding"
  | .value path => path ++ ": released value"

end Finding

namespace Heap

/-- The path to a binding of an environment. -/
def bindingPath (h : Heap) (path : String) (position : Nat) (name : Ref) : String :=
  path ++ "[" ++ toString position ++ "](" ++ ((h.cell? name).map Cell.name).getD "?" ++ ")"

mutual

/-- The released values and bindings reached from a value, to a given depth. -/
def auditTo : Nat → Heap → String → Ref → List Finding
  | _, _, _, none => []
  | 0, _, _, some _ => []
  | n + 1, h, path, some a =>
    match h.cell a with
    | .released _ => [.value path]
    | .live (.pair car cdr) =>
      auditTo n h (path ++ ".car") car ++ auditTo n h (path ++ ".cdr") cdr
    | .live (.closure c) =>
      auditTo n h (path ++ ".params") c.params ++
        (auditTo n h (path ++ ".body") c.body ++
          auditChainTo n h (path ++ ".captured") 0 c.captured)
    | _ => []

/-- The released values and bindings reached from the rest of a chain, to a given depth. -/
def auditChainTo : Nat → Heap → String → Nat → Chain → List Finding
  | _, _, _, _, none => []
  | 0, _, _, _, some _ => []
  | n + 1, h, path, position, some b =>
    let binding := h.binding b
    if binding.released then [.binding (path ++ "[" ++ toString position ++ "]")]
    else
      let here := h.bindingPath path position binding.name
      auditTo n h (here ++ ".name") binding.name ++
        (auditTo n h (here ++ ".value") binding.value ++
          auditChainTo n h path (position + 1) binding.next)

end

/-- The released nodes that an environment reaches. -/
def audit (h : Heap) (c : Chain) : List Finding := auditChainTo h.depth h "env" 0 c

end Heap

end ArenaLisp
