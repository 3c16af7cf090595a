import ArenaLisp.EvalError
import ArenaLisp.Heap.View

/-!
# Environments

An environment is a chain of bindings. The first binding of a name counts, so one
put in front hides those behind it. Chains share their ends: a frame is put in front
of a base without touching it. `join` alone changes a link, the last one of its
front chain.
-/

namespace ArenaLisp.Heap

/-- The bindings of a chain in order, to a given number. -/
def chainTo : Nat → Heap → Chain → List BindingId
  | _, _, none => []
  | 0, _, some _ => []
  | n + 1, h, some b => b :: chainTo n h (h.binding b).next

/-- The bindings of a chain in order. -/
def chain (h : Heap) (c : Chain) : List BindingId := chainTo h.bindings.size h c

/-- The name a binding is found by, if it has one. Values other than atoms have the empty name. -/
def boundName? (h : Heap) (b : BindingId) : Option String :=
  (h.cell? (h.binding b).name).map Cell.name

/-- The first binding of a name, among a given number of bindings. -/
def findBindingTo : Nat → Heap → Chain → String → Option BindingId
  | _, _, none, _ => none
  | 0, _, some _, _ => none
  | n + 1, h, some b, name =>
    if h.boundName? b == some name then some b
    else findBindingTo n h (h.binding b).next name

/-- The first binding of a name. -/
def findBinding? (h : Heap) (c : Chain) (name : String) : Option BindingId :=
  findBindingTo h.bindings.size h c name

/-- The value of the first binding of a name; it may be absent in the binding. -/
def lookup? (h : Heap) (c : Chain) (name : String) : Option Ref :=
  (h.findBinding? c name).map fun b => (h.binding b).value

/-- Puts bindings in front of a chain, the first of them foremost. -/
def putAll (h : Heap) : List (Ref × Ref) → Chain → Chain × Heap
  | [], base => (base, h)
  | (name, value) :: rest, base =>
    let (next, h) := h.putAll rest base
    h.put name value next

/--
Puts a frame in front of a base: the names of one list bound to the values of
another. Without as many names as values, and two proper lists, nothing is changed.
-/
def bindFrame (h : Heap) (names values : Ref) (base : Chain) : Except Cause Chain × Heap :=
  match h.elements? names, h.elements? values with
  | none, _ => (.error (.frameNames (h.view names)), h)
  | some _, none => (.error (.frameValues (h.view values)), h)
  | some ns, some vs =>
    if ns.length = vs.length then
      let (c, h) := h.putAll (ns.zip vs) base
      (.ok c, h)
    else (.error (.argumentCount ns.length vs.length), h)

/-- Splices a chain onto the last binding of another; an empty one is replaced. -/
def join (h : Heap) (front back : Chain) : Chain × Heap :=
  match (h.chain front).getLast? with
  | none => (back, h)
  | some last => (front, h.modifyBinding last fun b => { b with next := back })

/-- The bindings of a chain in front of the place where another begins, to a given number. -/
def chainUntilTo : Nat → Heap → Chain → Chain → List BindingId
  | _, _, none, _ => []
  | 0, _, some _, _ => []
  | n + 1, h, some b, stop =>
    if some b == stop then [] else b :: chainUntilTo n h (h.binding b).next stop

/-- The bindings of a chain in front of the place where another begins. -/
def chainUntil (h : Heap) (c stop : Chain) : List BindingId :=
  chainUntilTo h.bindings.size h c stop

/-- Looking a name up is a search along the chain. -/
theorem findBindingTo_eq (n : Nat) (h : Heap) (c : Chain) (name : String) :
    findBindingTo n h c name = (chainTo n h c).find? fun b => h.boundName? b == some name := by
  induction n generalizing c with
  | zero => cases c <;> rfl
  | succ n ih =>
    cases c with
    | none => rfl
    | some b =>
      rw [findBindingTo, chainTo, List.find?_cons, ih]
      cases h.boundName? b == some name <;> rfl

theorem findBinding?_eq (h : Heap) (c : Chain) (name : String) :
    h.findBinding? c name = (h.chain c).find? fun b => h.boundName? b == some name :=
  findBindingTo_eq h.bindings.size h c name

/-- The bindings in front of a place are those of the chain up to it. -/
theorem chainUntilTo_eq (n : Nat) (h : Heap) (c stop : Chain) :
    chainUntilTo n h c stop = (chainTo n h c).takeWhile fun b => some b != stop := by
  induction n generalizing c with
  | zero => cases c <;> rfl
  | succ n ih =>
    cases c with
    | none => rfl
    | some b =>
      rw [chainUntilTo, chainTo, List.takeWhile_cons, ih]
      by_cases hb : some b = stop
      · simp [hb]
      · simp [hb]

theorem chainUntil_eq (h : Heap) (c stop : Chain) :
    h.chainUntil c stop = (h.chain c).takeWhile fun b => some b != stop :=
  chainUntilTo_eq h.bindings.size h c stop

end ArenaLisp.Heap
