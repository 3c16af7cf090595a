import ArenaLisp.Proofs.Frame
import ArenaLisp.Proofs.Resting

/-!
# Applications

What the evaluation of a list comes to: a value is applied to the rest of the list. Three kinds
of applications are described with everything that takes part in them: closures that are made,
values that `set` binds, and closures that are applied. On an orderly machine all of it unfolds,
and `Creation.denotes`, `Assignment.unfolds`, `Application.Denotes.entered` and
`Application.Denotes.waits` say into what.
-/

namespace ArenaLisp

open EvalM Machine

/--
Evaluating an expression to a depth above `n` comes to apply a value to unevaluated arguments,
on the machine that the evaluation of the operator leaves.
-/
inductive Applies (n : Nat) : Ref → Machine → Ref → Ref → Machine → Prop
  | intro {a : Addr} {car cdr operator : Ref} {m reached : Machine}
      (hpair : m.heap.cell a = .live (.pair car cdr)) (hnil : ¬(car = none ∧ cdr = none))
      (hoperator : eval n car m = .ok operator reached) :
      Applies n (some a) m operator cdr reached

/-- Whether an expression is the first of a list, which is its operator. -/
def IsOperator (v : Ref) (m : Machine) (car : Ref) : Prop :=
  ∃ a cdr, v = some a ∧ m.heap.cell a = .live (.pair car cdr)

theorem IsOperator.unique {v car car' : Ref} {m : Machine} (h : IsOperator v m car)
    (h' : IsOperator v m car') : car = car' := by
  obtain ⟨a, cdr, rfl, hcell⟩ := h
  obtain ⟨a', cdr', ha, hcell'⟩ := h'
  cases ha
  cases hcell.symm.trans hcell'
  rfl

/-- The operator of an expression, if it is a list. -/
def operator? (v : Ref) (m : Machine) : Option { car : Ref // IsOperator v m car } :=
  match v with
  | none => none
  | some a =>
    match hpair : m.heap.cell a with
    | .live (.pair car cdr) => some ⟨car, a, cdr, rfl, hpair⟩
    | _ => none

/-- What the evaluation of an expression comes to apply, if it comes to that. -/
def applied? (n : Nat) (v : Ref) (m : Machine) :
    Option { p : Ref × Ref × Machine // Applies n v m p.1 p.2.1 p.2.2 } :=
  match v with
  | none => none
  | some a =>
    match hpair : m.heap.cell a with
    | .live (.pair car cdr) =>
      if hnil : car = none ∧ cdr = none then none
      else
        match hoperator : eval n car m with
        | .ok operator reached => some ⟨(operator, cdr, reached), .intro hpair hnil hoperator⟩
        | .error _ _ => none
    | _ => none

namespace Applies

variable {n : Nat} {v operator arguments : Ref} {m reached : Machine}

theorem eval_eq (ha : Applies n v m operator arguments reached) :
    eval (n + 1) v m = apply (eval n) operator arguments reached := by
  cases ha with
  | intro hpair hnil hoperator =>
      rw [show eval (n + 1) _ m = evalStep (eval n) _ m from rfl, evalStep_pair hpair hnil]
      exact bind_ok hoperator

theorem isOperator (ha : Applies n v m operator arguments reached) :
    ∃ car, IsOperator v m car := by
  cases ha with
  | intro hpair hnil hoperator => exact ⟨_, _, _, rfl, hpair⟩

/-- The operator is asked for first of all. -/
theorem asks (ha : Applies n v m operator arguments reached) {car : Ref}
    (hcar : IsOperator v m car) : eval n car m = .ok operator reached ∧
      Asks (fun ev => evalStep ev v) (eval n) m car m := by
  cases ha with
  | @intro a car' cdr operator m reached hpair hnil hoperator =>
      obtain rfl := hcar.unique ⟨a, _, rfl, hpair⟩
      exact ⟨hoperator, asks_operator hpair hnil⟩

theorem sound (ha : Applies n v m operator arguments reached) (hs : m.Sound)
    (hv : m.heap.LiveRef v) : reached.Sound ∧ m.Evolves reached ∧
      reached.heap.LiveRef operator ∧ reached.heap.LiveRef arguments := by
  cases ha with
  | @intro a car cdr operator m reached hpair hnil hoperator =>
      obtain ⟨hcar, hcdr⟩ := (Heap.liveRef_some.mp hv).pair hpair
      have hends := eval_keeps n car m hs hcar
      rw [hoperator] at hends
      exact ⟨hends.1, hends.2.1, hends.2.2, hends.2.1.liveRef hs hcdr⟩

theorem orderly (ha : Applies n v m operator arguments reached) (ho : m.Orderly)
    (hv : m.HasCode v) : reached.Orderly ∧ m.Evolves reached ∧ reached.HasWhole operator ∧
      reached.HasCodes arguments := by
  cases ha with
  | @intro a car cdr operator m reached hpair hnil hoperator =>
      obtain ⟨hcar, hcdr⟩ := hv.fields hpair hnil
      have hends := eval_settles n car m ho hcar
      rw [hoperator] at hends
      exact ⟨hends.1, hends.2.1, hends.2.2, hends.2.1.hasCodes ho.sound hcdr⟩

/-- A primitive is run on the arguments. -/
theorem run_eq {o : Addr} (ha : Applies n v m (some o) arguments reached) {p : Primitive}
    (hcell : reached.heap.cell o = .live (.primitive p)) :
    eval (n + 1) v m = p.builtin.run (eval n) arguments reached := by
  rw [ha.eval_eq, apply, see_bind, Heap.cell?, Option.map_some, hcell]

/-- A closure is applied to the arguments. -/
theorem applyClosure_eq {o : Addr} (ha : Applies n v m (some o) arguments reached) {c : Closure}
    (hcell : reached.heap.cell o = .live (.closure c)) :
    eval (n + 1) v m = applyClosure (eval n) c arguments reached := by
  rw [ha.eval_eq, apply_closure hcell]

end Applies

theorem twoArguments_eq {m : Machine} {arguments v w : Ref} (operator : String)
    (hgiven : m.heap.elements? arguments = some [v, w]) :
    twoArguments operator arguments m = .ok (v, w) m := by
  have hlist : argumentList operator arguments m = .ok [v, w] m := by
    rw [argumentList, see_bind, hgiven]
    rfl
  rw [twoArguments, bind_ok hlist]
  rfl

/-! ## Closures that are made -/

/-- A closure that evaluating an expression makes, to a depth above `n`. -/
structure Creation (n : Nat) (v : Ref) (m : Machine) where
  operator : Addr
  primitive : Primitive
  arguments : Ref
  params : Ref
  body : Ref
  /-- The machine in whose environment it is made. -/
  defined : Machine
  made : Ref
  after : Machine
  applies : Applies n v m (some operator) arguments defined
  isPrimitive : defined.heap.cell operator = .live (.primitive primitive)
  isLambda : primitive.builtin = .lambda
  given : defined.heap.elements? arguments = some [params, body]
  result : eval (n + 1) v m = .ok made after

/-- The closure that an evaluation makes, if it makes one. -/
def creation? (n : Nat) (v : Ref) (m : Machine) : Option (Creation n v m) :=
  match applied? n v m with
  | some ⟨(some o, arguments, defined), happlies⟩ =>
    match hprimitive : defined.heap.cell o, hgiven : defined.heap.elements? arguments,
      hresult : eval (n + 1) v m with
    | .live (.primitive p), some [params, body], .ok made after =>
      if hlambda : p.builtin = .lambda then
        some ⟨o, p, arguments, params, body, defined, made, after, happlies, hprimitive, hlambda,
          hgiven, hresult⟩
      else none
    | _, _, _ => none
  | _ => none

namespace Creation

variable {n : Nat} {v : Ref} {m : Machine}

theorem makeClosure_eq (f : Creation n v m) :
    makeClosure f.params f.body f.defined = .ok f.made f.after := by
  have hrun := (f.applies.run_eq f.isPrimitive).symm.trans f.result
  rw [f.isLambda] at hrun
  rw [← hrun]
  exact (bind_ok (f := fun p => makeClosure p.1 p.2) (twoArguments_eq "lambda" f.given)).symm

/-- What a closure that is made unfolds into. -/
structure Denotes (f : Creation n v m) (env : Reference.Env) (params body : Tree)
    (names : List String) : Prop where
  orderly : f.defined.Orderly
  models : f.defined.Models env
  hasParams : f.defined.heap.Unfolds f.params params
  hasNames : params.elements? = some (names.map .atom)
  hasBody : f.defined.heap.Unfolds f.body body
  sound : f.after.Sound
  evolves : f.defined.Evolves f.after
  made : f.after.heap.Unfolds f.made (.closure params body
    (Reference.toScope (Reference.capture env (params.freeNames body) [])))

theorem denotes (f : Creation n v m) (ho : m.Orderly) (hv : m.HasCode v) :
    ∃ env params body names, f.Denotes env params body names := by
  obtain ⟨ho₁, -, -, hcodes⟩ := f.applies.orderly ho hv
  obtain ⟨vs, hvs, hcode⟩ := hcodes.elements?
  obtain rfl : vs = [f.params, f.body] := Option.some.inj (hvs.symm.trans f.given)
  obtain ⟨t, hparams, -⟩ := hcode f.params (by simp)
  obtain ⟨u, hbody, -⟩ := hcode f.body (by simp)
  obtain ⟨env, hm, -⟩ := ho₁.bound
  have hagrees := makeClosure_agrees ho₁.sound hm hparams hbody
  rw [f.makeClosure_eq] at hagrees
  obtain ⟨made, env', hmade, hs', he', -, hu⟩ := hagrees
  unfold Reference.makeClosure at hmade
  cases hfault : t.paramsFault? with
  | some cause =>
      rw [hfault] at hmade
      cases hmade
  | none =>
      rw [hfault] at hmade
      cases hmade
      obtain ⟨names, hnames⟩ := hparams.names hfault
      exact ⟨env, t, u, names, ho₁, hm, hparams, hnames, hbody, hs', he', hu⟩

end Creation

/-! ## Values that are bound -/

/-- A value that evaluating an expression binds to a name, to a depth above `n`. -/
structure Assignment (n : Nat) (v : Ref) (m : Machine) where
  operator : Addr
  primitive : Primitive
  arguments : Ref
  reached : Machine
  /-- The expressions of the name and of the value. -/
  target : Ref
  source : Ref
  name : Ref
  /-- The machine that the evaluation of the name leaves. -/
  named : Machine
  value : Ref
  /-- The machine that the evaluation of the value leaves. -/
  evaluated : Machine
  bound : Ref
  after : Machine
  applies : Applies n v m (some operator) arguments reached
  isPrimitive : reached.heap.cell operator = .live (.primitive primitive)
  isSet : primitive.builtin = .set
  given : reached.heap.elements? arguments = some [target, source]
  evaluatesName : eval n target reached = .ok name named
  evaluatesValue : eval n source named = .ok value evaluated
  result : eval (n + 1) v m = .ok bound after

/-- The value that an evaluation binds, if it binds one. -/
def assignment? (n : Nat) (v : Ref) (m : Machine) : Option (Assignment n v m) :=
  match applied? n v m with
  | some ⟨(some o, arguments, reached), happlies⟩ =>
    match hprimitive : reached.heap.cell o, hgiven : reached.heap.elements? arguments with
    | .live (.primitive p), some [target, source] =>
      if hset : p.builtin = .set then
        match hname : eval n target reached with
        | .ok name named =>
          match hvalue : eval n source named, hresult : eval (n + 1) v m with
          | .ok value evaluated, .ok bound after =>
            some ⟨o, p, arguments, reached, target, source, name, named, value, evaluated, bound,
              after, happlies, hprimitive, hset, hgiven, hname, hvalue, hresult⟩
          | _, _ => none
        | .error _ _ => none
      else none
    | _, _ => none
  | _ => none

theorem Assignment.evalTwo_eq {n : Nat} {v : Ref} {m : Machine} (f : Assignment n v m) :
    evalTwo (eval n) "set" f.arguments f.reached = .ok (f.name, f.value) f.evaluated := by
  rw [evalTwo, bind_ok (twoArguments_eq "set" f.given)]
  show (eval n f.target >>= fun v => eval n f.source >>= fun w => pure (v, w)) f.reached = _
  rw [bind_ok f.evaluatesName, bind_ok f.evaluatesValue]
  rfl

/-- Checking a name changes nothing. -/
theorem finalMachine_settableName (v : Ref) (m : Machine) : finalMachine (settableName v m) = m := by
  rw [settableName, see_bind]
  cases m.heap.cell? v with
  | none => rfl
  | some c =>
      dsimp only
      split
      · rfl
      · split <;> rfl

/-- The name is checked and bound on the machine that the evaluation of the value leaves. -/
theorem Assignment.assigns {n : Nat} {v : Ref} {m : Machine} (f : Assignment n v m) :
    ∃ name, settableName f.name f.evaluated = .ok name f.evaluated ∧
      assign name f.value f.evaluated = .ok f.bound f.after := by
  have hrun := (f.applies.run_eq f.isPrimitive).symm.trans f.result
  rw [f.isSet] at hrun
  have hrest : (settableName f.name >>= fun name => assign name f.value) f.evaluated =
      .ok f.bound f.after := by
    rw [← hrun]
    exact (bind_ok (f := fun p => settableName p.1 >>= fun name => assign name p.2)
      f.evalTwo_eq).symm
  have hsame := finalMachine_settableName f.name f.evaluated
  cases hsettled : settableName f.name f.evaluated with
  | error e m' =>
      rw [bind_error hsettled] at hrest
      cases hrest
  | ok name m' =>
      rw [hsettled] at hsame
      obtain rfl : m' = f.evaluated := hsame
      rw [bind_ok hsettled] at hrest
      exact ⟨name, rfl, hrest⟩

/-- What is bound is a copy of the value. -/
theorem Assignment.unfolds {n : Nat} {v : Ref} {m : Machine} (f : Assignment n v m)
    (ho : m.Orderly) (hv : m.HasCode v) :
    f.evaluated.Sound ∧ f.after.Sound ∧ f.evaluated.Evolves f.after ∧
      ∃ t, f.evaluated.heap.Unfolds f.value t ∧ f.after.heap.Unfolds f.bound t := by
  obtain ⟨ho₁, -, -, hcodes⟩ := f.applies.orderly ho hv
  have hset : "set" ≠ "" := by decide
  have hends := evalTwo_settles (eval_settles n) ho₁ hset hcodes
  rw [f.evalTwo_eq] at hends
  obtain ⟨ho₂, -, -, t, hu, -⟩ := hends
  obtain ⟨env, hm, -⟩ := ho₂.bound
  obtain ⟨name, -, hassign⟩ := f.assigns
  have hagrees := assign_agrees ho₂.sound hm name hu
  rw [hassign] at hagrees
  obtain ⟨u, env', heq, hs', he', -, hbound⟩ := hagrees
  cases heq
  exact ⟨ho₂.sound, hs', he', t, hu, hbound⟩

/-! ## Arguments that are passed -/

/--
Arguments are evaluated one after the other, and the value of each is copied for the call. With
each value stands the machine that its evaluation leaves.
-/
inductive Passing (n : Nat) : List Ref → Machine → List (Ref × Machine) → List Ref → Machine → Prop
  | done {m : Machine} : Passing n [] m [] [] m
  | next {v w w' : Ref} {vs ws : List Ref} {rs : List (Ref × Machine)} {m s s' caller : Machine}
      (hvalue : eval n v m = .ok w s) (hcopy : handOver w s = .ok w' s')
      (hrest : Passing n vs s' rs ws caller) :
      Passing n (v :: vs) m ((w, s) :: rs) (w' :: ws) caller

/-- The values of arguments, if all of them have one. -/
def passing? (n : Nat) : (vs : List Ref) → (m : Machine) →
    Option { p : List (Ref × Machine) × List Ref × Machine // Passing n vs m p.1 p.2.1 p.2.2 }
  | [], m => some ⟨([], [], m), .done⟩
  | v :: vs, m =>
    match hvalue : eval n v m with
    | .error _ _ => none
    | .ok w s =>
      match hcopy : handOver w s with
      | .error _ _ => none
      | .ok w' s' =>
        match passing? n vs s' with
        | none => none
        | some ⟨(rs, ws, caller), hrest⟩ =>
          some ⟨((w, s) :: rs, w' :: ws, caller), .next hvalue hcopy hrest⟩

namespace Passing

variable {n : Nat} {vs ws : List Ref} {rs : List (Ref × Machine)} {m caller : Machine}

theorem mapM_eq (hp : Passing n vs m rs ws caller) :
    vs.mapM (passArgument (eval n)) m = .ok ws caller := by
  induction hp with
  | done => rfl
  | @next v w w' vs ws rs m s s' caller hvalue hcopy _ ih =>
      have hpass : passArgument (eval n) v m = .ok w' s' := by
        show (eval n v >>= handOver) m = _
        rw [bind_ok hvalue, hcopy]
      rw [List.mapM_cons, bind_ok hpass, bind_ok ih]
      rfl

/-- What passing one argument does. -/
theorem passed {v w w' : Ref} {s s' : Machine} (ho : m.Orderly) (hv : m.HasCode v)
    (hvalue : eval n v m = .ok w s) (hcopy : handOver w s = .ok w' s') :
    s.Orderly ∧ s'.Orderly ∧ m.Evolves s' ∧ s.Evolves s' ∧
      (∃ t, s.heap.Unfolds w t ∧ s'.Passes w' t) ∧ ∀ k, s'.heap.Holds w' k → ¬s.heap.Has k := by
  have hends := eval_settles n v m ho hv
  rw [hvalue] at hends
  obtain ⟨ho₁, he₁, t, hu, ht⟩ := hends
  have hop : s.Operates False _ _ := (operates_handOver ho₁.sound hu.liveRef).weaken
    (Q := fun m' v => m'.Handed v ∧ v = (s.heap.copy w).1 ∧ m'.heap = (s.heap.copy w).2 ∧
      m'.scope = s.scope) fun _ _ h => h.2
  have hcopies := Heap.copy_copies hu.liveRef
  have hpassed := Settles.making ho₁ hop ⟨_, _, rfl⟩ hcopies.grown hu.copy ht
  have hcopied := hop.ends
  rw [hcopy] at hpassed hcopied
  obtain ⟨ho₂, he₂, hhanded, -⟩ := hpassed
  obtain ⟨-, -, -, rfl, hheap, -⟩ := hcopied
  refine ⟨ho₁, ho₂, he₁.trans ho.sound he₂, he₂, ⟨t, hu, hhanded, ?_⟩, fun k hk => ?_⟩
  · show s'.heap.Unfolds _ _
    rw [hheap]
    exact hu.copy
  · obtain ⟨a, ha, hk⟩ := hk
    rw [hheap] at hk
    exact (Heap.Copies.reaches_made hcopies (Node.mem_ofRef.mpr ⟨a, ha, rfl⟩) hk).2

/-- The copies unfold into what the values unfold into. -/
theorem unfolds (hp : Passing n vs m rs ws caller) (ho : m.Orderly) (hvs : ∀ v ∈ vs, m.HasCode v) :
    caller.Orderly ∧ m.Evolves caller ∧ ∃ ts,
      List.Forall₂ (fun (r : Ref × Machine) t => r.2.Sound ∧ r.2.heap.Unfolds r.1 t) rs ts ∧
      List.Forall₂ caller.Passes ws ts := by
  induction hp with
  | done => exact ⟨ho, .refl _, [], .nil, .nil⟩
  | @next v w w' vs ws rs m s s' caller hvalue hcopy _ ih =>
      obtain ⟨ho₁, ho₂, he, -, ⟨t, hu, hpasses⟩, -⟩ :=
        passed ho (hvs v List.mem_cons_self) hvalue hcopy
      obtain ⟨ho₃, he₃, ts, hrs, hws⟩ := ih ho₂ fun v' hv' =>
        he.hasCode ho.sound (hvs v' (List.mem_cons_of_mem _ hv'))
      exact ⟨ho₃, he.trans ho.sound he₃, t :: ts, .cons ⟨ho₁.sound, hu⟩ hrs,
        .cons (he₃.passes ho₂.sound hpasses) hws⟩

/-- Nothing of a copy was there when its value was. -/
theorem copied (hp : Passing n vs m rs ws caller) (ho : m.Orderly) (hvs : ∀ v ∈ vs, m.HasCode v) :
    List.Forall₂ (fun (r : Ref × Machine) w' =>
      r.2.Evolves caller ∧ ∀ k, caller.heap.Holds w' k → ¬r.2.heap.Has k) rs ws := by
  induction hp with
  | done => exact .nil
  | @next v w w' vs ws rs m s s' caller hvalue hcopy hrest ih =>
      obtain ⟨ho₁, ho₂, he, he₂, ⟨t, -, hpasses⟩, hmade⟩ :=
        passed ho (hvs v List.mem_cons_self) hvalue hcopy
      have hcodes : ∀ v' ∈ vs, s'.HasCode v' := fun v' hv' =>
        he.hasCode ho.sound (hvs v' (List.mem_cons_of_mem _ hv'))
      obtain ⟨-, he₃, -⟩ := hrest.unfolds ho₂ hcodes
      refine .cons ⟨he₂.trans ho₁.sound he₃, fun k hk => hmade k ?_⟩ (ih ho₂ hcodes)
      -- the evaluations of the other arguments leave the copy as it is
      exact ((Retains.of_evolves he₃).holds_iff ho₂.sound hpasses.2.liveRef
        (he₃.passes ho₂.sound hpasses).2.liveRef).mp hk

theorem length_eq (hp : Passing n vs m rs ws caller) : rs.length = vs.length := by
  induction hp with
  | done => rfl
  | next _ _ _ ih => rw [List.length_cons, List.length_cons, ih]

end Passing

/-! ## Closures that are applied -/

theorem applyClosure_partial {ev : Evaluator} {c : Closure} {arguments : Ref}
    {given values params : List Ref} {m caller : Machine}
    (hgiven : m.heap.elements? arguments = some given)
    (hparams : m.heap.elements? c.params = some params) (hfew : given.length < params.length)
    (hvalues : given.mapM (passArgument ev) m = .ok values caller) :
    ∃ r, applyClosure ev c arguments m = makePartial c params values r caller := by
  have hlength := length_of_mapM hvalues
  refine ⟨⟨.debug, "partial application", [("bound", toString values.length),
    ("remaining", toString (params.length - values.length))]⟩, ?_⟩
  rw [applyClosure, see_bind, hgiven]
  dsimp only
  rw [see_bind, hparams, Option.getD_some, if_neg (by omega), bind_ok hvalues, if_pos (by omega)]
  rfl

/-- A closure that evaluating an expression comes to apply, to a depth above `n`. -/
structure Invocation (n : Nat) (v : Ref) (m : Machine) where
  operator : Addr
  arguments : Ref
  /-- The machine that the evaluation of the operator leaves. -/
  reached : Machine
  closure : Closure
  given : List Ref
  applies : Applies n v m (some operator) arguments reached
  isClosure : reached.heap.cell operator = .live (.closure closure)
  given_eq : reached.heap.elements? arguments = some given

/-- The same with arguments that have been passed. -/
structure Application (n : Nat) (v : Ref) (m : Machine) extends Invocation n v m where
  /-- The values of the arguments, and what their evaluation leaves. -/
  results : List (Ref × Machine)
  values : List Ref
  /-- The machine that the arguments leave, in the environment of the caller. -/
  caller : Machine
  passing : Passing n given reached results values caller

/-- The closure that an evaluation comes to apply, if it comes to one. -/
def invocation? (n : Nat) (v : Ref) (m : Machine) : Option (Invocation n v m) :=
  match applied? n v m with
  | some ⟨(some o, arguments, reached), happlies⟩ =>
    match hclosure : reached.heap.cell o, hgiven : reached.heap.elements? arguments with
    | .live (.closure c), some given => some ⟨o, arguments, reached, c, given, happlies, hclosure, hgiven⟩
    | _, _ => none
  | _ => none

def application? (n : Nat) (v : Ref) (m : Machine) : Option (Application n v m) :=
  match invocation? n v m with
  | none => none
  | some f =>
    match passing? n f.given f.reached with
    | none => none
    | some ⟨(results, values, caller), hpassing⟩ => some ⟨f, results, values, caller, hpassing⟩

namespace Invocation

variable {n : Nat} {v : Ref} {m : Machine}

theorem eval_eq (f : Invocation n v m) :
    eval (n + 1) v m = applyClosure (eval n) f.closure f.arguments f.reached :=
  f.applies.applyClosure_eq f.isClosure

/-- An application of a closure, with another way to evaluate the arguments and the body. -/
theorem evalStep_eq (f : Invocation n v m) (ev : Evaluator)
    (hev : ∀ car, IsOperator v m car → ev car m = eval n car m) :
    evalStep ev v m = applyClosure ev f.closure f.arguments f.reached := by
  cases f with
  | mk o arguments reached c given happlies hclosure hgiven =>
      cases happlies with
      | intro hpair hnil hoperator =>
          rw [evalStep_pair hpair hnil, bind_ok ((hev _ ⟨_, _, rfl, hpair⟩).trans hoperator),
            apply_closure hclosure]

/-- Too many arguments are refused before any of them is evaluated. -/
theorem refuses (f : Invocation n v m) (hmany : f.reached.heap.arity f.closure < f.given.length) :
    eval (n + 1) v m = .error (.error ⟨"", .closureArgumentCount (f.reached.heap.arity f.closure)
      f.given.length⟩) f.reached ∧
    ∀ w s, Asks (fun ev => evalStep ev v) (eval n) m w s → s = m ∧ IsOperator v m w := by
  unfold Heap.arity at hmany ⊢
  have hrefused : ∀ ev : Evaluator, applyClosure ev f.closure f.arguments f.reached =
      .error (.error ⟨"", .closureArgumentCount
        ((f.reached.heap.elements? f.closure.params).getD []).length f.given.length⟩) f.reached := by
    intro ev
    rw [applyClosure, see_bind, f.given_eq]
    dsimp only
    rw [see_bind, if_pos hmany]
    rfl
  refine ⟨f.eval_eq.trans (hrefused _), fun w s hask => ?_⟩
  refine Classical.byContradiction fun hne => ?_
  -- halting anywhere else than at the operator would go unnoticed
  obtain ⟨m', hm'⟩ := hask
  have hsame := f.evalStep_eq ((eval n).haltingAt w s .tooDeep) fun car hcar => by
    rw [Evaluator.haltingAt, if_neg]
    intro heq
    obtain ⟨rfl, rfl⟩ := heq
    exact hne ⟨rfl, hcar⟩
  cases ((hm' .tooDeep).symm.trans hsame).trans (hrefused _)

end Invocation

/-- Names are known from the atoms of a list. -/
theorem Tree.names_unique {t : Tree} {names names' : List String}
    (h : t.elements? = some (names.map .atom)) (h' : t.elements? = some (names'.map .atom)) :
    names = names' := by
  have hsame := congrArg (List.map Tree.name) (Option.some.inj (h.symm.trans h'))
  rwa [Heap.map_name_atom, Heap.map_name_atom] at hsame

namespace Application

variable {n : Nat} {v : Ref} {m : Machine}

/-- What a closure that is applied and the values it is applied to unfold into. -/
structure Denotes (f : Application n v m) (names : List String) (body : Tree) (captured : Scope)
    (values : List Tree) : Prop where
  reached : f.reached.Orderly
  caller : f.caller.Orderly
  before : m.Evolves f.reached
  passed : f.reached.Evolves f.caller
  closure : ∃ params, f.reached.heap.Unfolds (some f.operator) (.closure params body captured) ∧
    params.elements? = some (names.map .atom)
  arity : f.reached.heap.arity f.closure = names.length
  results : List.Forall₂ (fun (r : Ref × Machine) t => r.2.Sound ∧ r.2.heap.Unfolds r.1 t)
    f.results values
  passes : List.Forall₂ f.caller.Passes f.values values
  copied : List.Forall₂ (fun (r : Ref × Machine) v =>
    r.2.Evolves f.caller ∧ ∀ k, f.caller.heap.Holds v k → ¬r.2.heap.Has k) f.results f.values

theorem denotes (f : Application n v m) (ho : m.Orderly) (hv : m.HasCode v) :
    ∃ names body captured values, f.Denotes names body captured values := by
  obtain ⟨ho₁, he₁, ⟨t, hu, -⟩, hcodes⟩ := f.applies.orderly ho hv
  obtain ⟨params, body, s, rfl⟩ := hu.eq_closure f.isClosure
  obtain ⟨hparams, ⟨names, hnames⟩, -, -⟩ := hu.closure_parts f.isClosure
  obtain ⟨ns, hns, hunfolds⟩ := hparams.elements?_some hnames
  obtain ⟨vs, hvs, hcode⟩ := hcodes.elements?
  obtain rfl : vs = f.given := Option.some.inj (hvs.symm.trans f.given_eq)
  obtain ⟨ho₂, he₂, ts, hresults, hvalues⟩ := f.passing.unfolds ho₁ hcode
  refine ⟨names, body, s, ts, ho₁, ho₂, he₁, he₂, ⟨params, hu, hnames⟩, ?_, hresults, hvalues,
    f.passing.copied ho₁ hcode⟩
  rw [Heap.arity, hns, Option.getD_some, hunfolds.length_eq, List.length_map]

/-- A closure unfolds in one way. -/
theorem Denotes.unique {f : Application n v m} {names names' : List String} {params body body' : Tree}
    {captured captured' : Scope} {values : List Tree}
    (hd : f.Denotes names' body' captured' values)
    (hu : f.reached.heap.Unfolds (some f.operator) (.closure params body captured))
    (hnames : params.elements? = some (names.map .atom)) :
    names' = names ∧ body' = body ∧ captured' = captured := by
  obtain ⟨params', hu', hnames'⟩ := hd.closure
  cases hu'.unique hu
  exact ⟨Tree.names_unique hnames' hnames, rfl, rfl⟩

/-- A closure stays as it is while its arguments are passed. -/
theorem Denotes.parts {f : Application n v m} {names : List String} {body : Tree} {captured : Scope}
    {values : List Tree} (hd : f.Denotes names body captured values) :
    ∃ params, f.caller.heap.Unfolds f.closure.params params ∧
      params.elements? = some (names.map .atom) ∧ f.caller.heap.Unfolds f.closure.body body ∧
      f.caller.heap.UnfoldsChain f.closure.captured captured := by
  obtain ⟨params, hu, hnames⟩ := hd.closure
  have hcell : f.caller.heap.cell f.operator = .live (.closure f.closure) :=
    (hd.passed.cell _ (Heap.liveRef_some.mp hu.liveRef).has).trans f.isClosure
  obtain ⟨hparams, -, hbody, hcaptured⟩ := (hd.passed.unfolds hd.reached.sound hu).closure_parts hcell
  exact ⟨params, hparams, hnames, hbody, hcaptured⟩

/-- There are as many values as arguments. -/
theorem Denotes.length_eq {f : Application n v m} {names : List String} {body : Tree}
    {captured : Scope} {values : List Tree} (hd : f.Denotes names body captured values) :
    values.length = f.given.length := by
  rw [← hd.results.length_eq, f.passing.length_eq]

/-- Whether a machine is the one on which the body of the closure starts. -/
def Enters (f : Application n v m) (entered : Machine) : Prop :=
  ∃ call m', callScope f.closure f.values f.caller = .ok call m' ∧ entered = { m' with scope := call }

theorem Enters.unique {f : Application n v m} {entered entered' : Machine} (h : f.Enters entered)
    (h' : f.Enters entered') : entered = entered' := by
  obtain ⟨call, m₁, hcall, rfl⟩ := h
  obtain ⟨call', m₂, hcall', rfl⟩ := h'
  cases hcall.symm.trans hcall'
  rfl

/-- With as many arguments as parameters it is called there. -/
theorem Enters.callsClosure {f : Application n v m} {entered : Machine} (h : f.Enters entered)
    (hfull : f.given.length = f.reached.heap.arity f.closure) :
    CallsClosure n v m f.closure f.caller entered := by
  obtain ⟨call, m', hcall, rfl⟩ := h
  cases f with
  | mk f results values caller hpassing =>
      cases f with
      | mk o arguments reached c given happlies hclosure hgiven =>
          cases happlies with
          | intro hpair hnil hoperator =>
              exact .intro hpair (Classical.not_and_iff_not_or_not.mp hnil) hoperator hclosure hgiven
                hfull hpassing.mapM_eq hcall

/-- What is to be known of the machine on which the body starts. -/
structure Entered (f : Application n v m) (names : List String) (body : Tree) (captured : Scope)
    (values : List Tree) (entered : Machine) : Prop where
  enters : f.Enters entered
  sound : entered.Sound
  calls : f.caller.Calls entered
  body : entered.heap.Unfolds f.closure.body body
  models : ∀ env, f.caller.Models env →
    entered.Models ((Reference.ofScope captured ++ names.zip values) ++ env)
  /-- What was taken along is bound in front, then the parameters. -/
  binds : ∃ cs fs ns, f.caller.heap.Enters entered.heap f.values f.caller.env (cs ++ fs) entered.scope ∧
    f.caller.heap.Binds entered.heap f.closure f.values cs fs ns ∧
    List.Forall₂ f.caller.heap.Unfolds ns (names.map .atom)
  /-- The body is evaluated there. -/
  asked : Asks (fun ev => evalStep ev v) (eval n) m f.closure.body entered

/--
**A closure with as many arguments as parameters starts its body**, where the names it has taken
along come first, then its parameters, then the environment of the caller.
-/
theorem Denotes.entered {f : Application n v m} {names : List String} {body : Tree}
    {captured : Scope} {values : List Tree} (hd : f.Denotes names body captured values)
    (ho : m.Orderly) (hv : m.HasCode v) (hfull : f.given.length = f.reached.heap.arity f.closure) :
    ∃ entered, f.Entered names body captured values entered := by
  obtain ⟨params, hparams, hnames, hbody, hcaptured⟩ := hd.parts
  obtain ⟨ns, hns, hunfolds⟩ := hparams.elements?_some hnames
  obtain ⟨env, hm, -⟩ := hd.caller.bound
  have hlength : ns.length = f.values.length := by
    have h₁ := hd.arity
    have h₂ := hd.length_eq
    have h₃ := hd.passes.length_eq
    rw [hunfolds.length_eq, List.length_map]
    omega
  have hmodels : ∀ env, f.caller.Models env → ∃ call m', callScope f.closure f.values f.caller =
      .ok call m' ∧ _ := fun env hm =>
    callScope_models hd.caller.sound hm hparams.liveRef hns hunfolds hd.passes hlength hcaptured
  obtain ⟨call, m', hcall, hscope, hs', hc, hgrown, -⟩ := hmodels env hm
  refine ⟨{ m' with scope := call }, ⟨call, m', hcall, rfl⟩, hs', hc, hgrown.unfolds hbody, ?_, ?_, ?_⟩
  · intro env' hm'
    obtain ⟨call₁, m₁, hcall₁, -, -, -, -, hentered⟩ := hmodels env' hm'
    cases hcall.symm.trans hcall₁
    exact hentered
  · obtain ⟨cs, fs, ns', henters, hbinds⟩ := callScope_ok hd.caller.sound hparams.liveRef
      hcaptured.liveChain (fun v hv => (passes_live hd.passes v hv).1) hcall
    have hsame := ((Heap.copyChain_copies hcaptured.liveChain).grown.trans
      (Heap.extends_list f.values _)).elements?_eq hparams.liveRef hns
    cases hbinds.params.symm.trans hsame
    exact ⟨cs, fs, ns, henters, hbinds, hunfolds⟩
  · have hcalls : f.Enters { m' with scope := call } := ⟨call, m', hcall, rfl⟩
    exact (hcalls.callsClosure hfull).asks ho.sound hv.liveRef

/--
**A closure with fewer arguments than parameters waits**: what comes of it is a closure of the
other parameters, which has taken the values along in front of what it had taken along before.
-/
theorem Denotes.waits {f : Application n v m} {names : List String} {body : Tree}
    {captured : Scope} {values : List Tree} (hd : f.Denotes names body captured values)
    (hfew : f.given.length < f.reached.heap.arity f.closure) :
    ∃ result after, eval (n + 1) v m = .ok result after ∧ after.Sound ∧ f.caller.Evolves after ∧
      after.heap.Unfolds result (.closure (.ofList ((names.drop values.length).map .atom)) body
        (Reference.toScope ((names.zip values).reverse ++ Reference.ofScope captured))) := by
  obtain ⟨params, hparams, hnames, hbody, hcaptured⟩ := hd.parts
  obtain ⟨params₀, hu, hnames₀⟩ := hd.closure
  obtain ⟨hparams₀, -, -, -⟩ := hu.closure_parts f.isClosure
  obtain ⟨ns, hns, hunfolds⟩ := hparams₀.elements?_some hnames₀
  have hunfolds := hunfolds.imp fun _ _ => hd.passed.unfolds hd.reached.sound
  rw [Heap.arity, hns, Option.getD_some] at hfew
  obtain ⟨r, happly⟩ := applyClosure_partial f.given_eq hns hfew f.passing.mapM_eq
  have hop : f.caller.Operates False _ _ := operates_makePartial (r := r) hd.caller.sound
    (Heap.liveRef_of_unfolds hunfolds) hbody.liveRef hcaptured.liveChain (passes_live hd.passes)
  have hmade := Heap.newPartial_unfolds hunfolds (hd.passes.imp fun _ _ => And.right) hbody hcaptured
  rw [f.eval_eq, happly]
  have hends := hop.ends
  cases hrun : makePartial f.closure ns f.values r f.caller with
  | error e m' => cases hrun
  | ok result after =>
      rw [hrun] at hends
      obtain ⟨hs', he', -, rfl, hheap, -⟩ := hends
      refine ⟨_, after, rfl, hs', he', ?_⟩
      rw [hheap, List.map_drop]
      exact hmade

end Application

end ArenaLisp
