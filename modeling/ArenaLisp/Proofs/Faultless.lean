import ArenaLisp.Proofs.Resolution

/-!
# Evaluations that cannot go wrong

Some ends of an evaluation are there only for values that no text gives: expressions that are
released or of no known kind, lists of arguments or parameters that are not proper, frames with more
names than values. In a session all expressions are read from texts, so none of these ends is
reached. Every value has all its parts, whatever is applied is there to be applied, and the
parameters of every closure are atoms.

All this is read off `eval_settles`, because every evaluation of a session is of code on an orderly
machine.
-/

namespace ArenaLisp

open EvalM Machine

/-- An error that code can come to says nothing of the interpreter or of released values. -/
theorem EvalError.Expected.kind_ne {e : EvalError} (he : e.Expected) :
    e.kind ≠ .internal ∧ e.kind ≠ .released := by
  have hcause := he.cause
  unfold EvalError.kind
  cases hc : e.cause with
  | cannotEvaluate | releasedExpression | raised =>
      rw [hc] at hcause
      cases hcause
  | _ => simp [Cause.kind]

/-- Nor does it say that a list is not proper, or a frame not well-formed. -/
theorem EvalError.Expected.cause_ne {e : EvalError} (he : e.Expected) :
    (∀ t, e.cause ≠ .improperArguments t) ∧ (∀ t, e.cause ≠ .paramsImproper t) ∧
      (∀ t, e.cause ≠ .frameNames t) ∧ ∀ t, e.cause ≠ .frameValues t := by
  have hcause := he.cause
  refine ⟨?_, ?_, ?_, ?_⟩
  all_goals
    intro t heq
    rw [heq] at hcause
    cases hcause

/-- A whole value is there. -/
theorem Machine.HasWhole.cell {m : Machine} {v : Ref} (hv : m.HasWhole v) :
    ∃ a d, v = some a ∧ m.heap.cell a = .live d := by
  obtain ⟨t, hu, ht⟩ := hv
  cases hu with
  | absent => exact absurd rfl ht.ne_absent
  | atom hcell | number hcell | pair hcell | primitive hcell | closure hcell =>
      exact ⟨_, _, rfl, hcell⟩

theorem Machine.HasWhole.intact {m : Machine} {v : Ref} (hv : m.HasWhole v) :
    (m.heap.view v).intact = true := by
  obtain ⟨t, hu, -⟩ := hv
  rw [hu.view_eq]
  exact hu.intact

/-- Whether a value is a proper list, and each of its elements is there and an atom. -/
def Heap.AtomList (h : Heap) (v : Ref) : Prop :=
  ∃ vs, h.elements? v = some vs ∧ ∀ p ∈ vs, ∃ a name, p = some a ∧ h.cell a = .live (.atom name)

theorem Heap.Unfolds.atomList {h : Heap} {v : Ref} {t : Tree} (hu : h.Unfolds v t)
    {names : List String} (hnames : t.elements? = some (names.map .atom)) : h.AtomList v := by
  obtain ⟨vs, hvs, hunfolds⟩ := hu.elements?_some hnames
  refine ⟨vs, hvs, fun p hp => ?_⟩
  clear hvs hu hnames
  induction names generalizing vs with
  | nil =>
      cases hunfolds
      exact absurd hp List.not_mem_nil
  | cons name names ih =>
      cases hunfolds with
      | @cons v _ vs _ hv hrest =>
          rcases List.mem_cons.mp hp with rfl | hp
          · cases hv with
            | atom hcell => exact ⟨_, name, rfl, hcell⟩
          · exact ih vs hrest hp

/-- The parameters of a closure are atoms. -/
theorem Invocation.atomList {n : Nat} {v : Ref} {m : Machine} (f : Invocation n v m) (ho : m.Orderly)
    (hv : m.HasCode v) : f.reached.heap.AtomList f.closure.params := by
  obtain ⟨-, -, ⟨t, hu, -⟩, -⟩ := f.applies.orderly ho hv
  obtain ⟨params, body, captured, rfl⟩ := hu.eq_closure f.isClosure
  obtain ⟨hparams, ⟨names, hnames⟩, -, -⟩ := hu.closure_parts f.isClosure
  exact hparams.atomList hnames

/-- So are those of a closure that was just made. -/
theorem Creation.atomList {n : Nat} {v : Ref} {m : Machine} (f : Creation n v m) (ho : m.Orderly)
    (hv : m.HasCode v) : ∃ a c, f.made = some a ∧ f.after.heap.cell a = .live (.closure c) ∧
      f.after.heap.AtomList c.params := by
  obtain ⟨env, params, body, names, hd⟩ := f.denotes ho hv
  have hu := hd.made
  generalize f.made = made at hu
  cases hu with
  | closure hcell hparams => exact ⟨_, _, rfl, hcell, hparams.atomList hd.hasNames⟩

namespace Interpreter

/--
**No evaluation goes wrong.** Whatever a session evaluates, at whatever depth of nesting: if there
is a value, it is there and nothing in it is released or of no known kind; if there is an error, it
is none of those that are only for values that no text gives, and neither is anything released in
what its message shows; and no released procedure is applied. Whatever is applied is there, to a
proper list of arguments. The parameters of the closures that are made and applied are proper lists
of atoms, and a frame of as many values as parameters can always be made.
-/
theorem evaluation_faultless {extra : List (String × Builtin)} {print reads : Bool}
    {i : Interpreter} (hi : new extra print reads = .ok i) {n : Nat} {v : Ref} {m : Machine}
    (hv : i.Evaluates n v m) :
    (match ArenaLisp.eval n v m with
      | .ok w m' => w ≠ none ∧ (m'.heap.view w).intact = true
      | .error (.error e) _ =>
        (e.kind ≠ .internal ∧ e.kind ≠ .released) ∧
        (∀ t, e.cause ≠ .improperArguments t) ∧ (∀ t, e.cause ≠ .paramsImproper t) ∧
        (∀ t, e.cause ≠ .frameNames t) ∧ (∀ t, e.cause ≠ .frameValues t) ∧
        (∀ expected given, e ≠ ⟨"", .argumentCount expected given⟩) ∧
        ∀ t ∈ e.cause.shown, t.intact = true
      | .error .dangling _ => False
      | .error .tooDeep _ => True) ∧
    ∀ k, n = k + 1 →
      (∀ operator arguments reached, Applies k v m operator arguments reached →
        (∃ o d, operator = some o ∧ reached.heap.cell o = .live d) ∧
        (reached.heap.view operator).intact = true ∧
        ∃ given, reached.heap.elements? arguments = some given) ∧
      (∀ f : Creation k v m, ∃ a c, f.made = some a ∧
        f.after.heap.cell a = .live (.closure c) ∧ f.after.heap.AtomList c.params) ∧
      (∀ f : Invocation k v m, f.reached.heap.AtomList f.closure.params) ∧
      ∀ f : Application k v m, f.given.length = f.reached.heap.arity f.closure →
        ∃ entered, f.Enters entered := by
  have hr := new_resting hi
  -- whatever is evaluated stems from a text, however deep it is nested
  obtain ⟨ho, hcode⟩ := hv.orderly hr
  refine ⟨?_, ?_⟩
  · have hends := eval_settles n v m ho hcode
    generalize ArenaLisp.eval n v m = r at hends
    cases r with
    | ok w m' =>
        obtain ⟨-, -, hwhole⟩ := hends
        obtain ⟨a, d, rfl, -⟩ := hwhole.cell
        exact ⟨Option.some_ne_none a, hwhole.intact⟩
    | error halt m' =>
        obtain ⟨-, -, hexpected⟩ := hends
        cases halt with
        | dangling => exact hexpected
        | tooDeep => trivial
        | error e =>
            have he : e.Expected := hexpected
            obtain ⟨harguments, hparams, hnames, hvalues⟩ := he.cause_ne
            exact ⟨he.kind_ne, harguments, hparams, hnames, hvalues, he.frame, he.intact⟩
  · intro k hk
    subst hk
    refine ⟨fun operator arguments reached ha => ?_, fun f => f.atomList ho hcode,
      fun f => f.atomList ho hcode, fun f hfull => ?_⟩
    · obtain ⟨-, -, hwhole, hcodes⟩ := ha.orderly ho hcode
      obtain ⟨vs, hvs, -⟩ := hcodes.elements?
      exact ⟨hwhole.cell, hwhole.intact, vs, hvs⟩
    · obtain ⟨names, body, captured, values, hd⟩ := f.denotes ho hcode
      obtain ⟨entered, he⟩ := hd.entered ho hcode hfull
      exact ⟨entered, he.enters⟩

/-- A closure is made and applied. -/
theorem evaluation_faultless_call : ∃ (i : Interpreter) (e : Expression) (v w : Ref)
    (m m' entered : Machine) (f : Application 8 v m),
    new [("list-args", .arguments)] true true = .ok i ∧
    Expression.ofString? "((lambda (x) (cons x '(2))) 1)" = some e ∧
    v = (Heap.store e.tree i.heap).1 ∧ m = i.machine.started e.tree ∧ i.Evaluates 9 v m ∧
    ArenaLisp.eval 9 v m = .ok w m' ∧ w ≠ none ∧ (m'.heap.view w).intact = true ∧
    f.reached.heap.AtomList f.closure.params ∧
    f.given.length = f.reached.heap.arity f.closure ∧ f.Enters entered := by
  have hsession : newAny [("list-args", .arguments)] (fun i _ =>
      (Expression.ofString? "((lambda (x) (cons x '(2))) 1)").any fun e =>
        (fun (v : Ref) (m : Machine) =>
          (application? 8 v m).any fun f =>
            decide (f.given.length = f.reached.heap.arity f.closure) &&
            (m.eval 9 v).1.toOption.isSome)
        (Heap.store e.tree i.heap).1 (i.machine.started e.tree)) = true := by
    decide +kernel
  obtain ⟨i, hi, hsession⟩ := exists_of_newAny hsession
  obtain ⟨e, he, hsession⟩ := (Option.any_eq_true _ _).mp hsession
  obtain ⟨f, -, hsession⟩ := (Option.any_eq_true _ _).mp hsession
  obtain ⟨hfull, hvalue⟩ := Bool.and_eq_true_iff.mp hsession
  have hv : i.Evaluates 9 (Heap.store e.tree i.heap).1 (i.machine.started e.tree) :=
    .turn [] 9 e .whole
  obtain ⟨hends, hparts⟩ := evaluation_faultless hi hv
  obtain ⟨-, -, hatoms, henters⟩ := hparts 8 rfl
  obtain ⟨entered, hentered⟩ := henters f (of_decide_eq_true hfull)
  cases hrun : ArenaLisp.eval 9 (Heap.store e.tree i.heap).1 (i.machine.started e.tree) with
  | error e' m' =>
      unfold Machine.eval at hvalue
      rw [hrun] at hvalue
      cases hvalue
  | ok w m' =>
      rw [hrun] at hends
      exact ⟨i, e, _, w, _, m', entered, f, hi, he, rfl, rfl, hv, hrun, hends.1, hends.2, hatoms _,
        of_decide_eq_true hfull, hentered⟩

end Interpreter

end ArenaLisp
