import ArenaLisp.Proofs.Resolution

/-!
# Arguments in groups

A closure can be given its arguments in several groups. As long as it has parameters left, what
comes of an application is a closure of those that are left, with the same body; the values are
taken along in front of what was taken along before. So the body starts with the bindings of the
earlier groups in front, the last one first, and those of the last group behind what the closure
took along when it was made, in their order.

A parameter that is named once has one binding among all these, and stands for its argument
however the arguments are grouped. One that is named more often stands for its first argument if
all are given at once, but otherwise for its last argument among those of the earlier groups.
-/

namespace ArenaLisp

open EvalM Machine

/-- What a value is, on the machine that its evaluation leaves. -/
def seen (r : Ref × Machine) : Tree := r.2.heap.view r.1

/--
Whether a value is a closure of all parameters but as many as values were supplied, which has
taken the values along in front of what was captured when it was made.
-/
structure Heap.Awaits (h : Heap) (v : Ref) (names : List String) (body : Tree)
    (captured : Reference.Env) (supplied : List Tree) : Prop where
  length_le : supplied.length ≤ names.length
  unfolds : ∃ params, h.Unfolds v (.closure params body
      (Reference.toScope ((names.zip supplied).reverse ++ captured))) ∧
    params.elements? = some ((names.drop supplied.length).map .atom)

/-- A closure that is made awaits all of its arguments. -/
theorem Creation.Denotes.awaits {n : Nat} {v : Ref} {m : Machine} {f : Creation n v m}
    {env : Reference.Env} {params body : Tree} {names : List String}
    (hd : f.Denotes env params body names) :
    f.after.heap.Awaits f.made names body (Reference.capture env (params.freeNames body) []) [] := by
  refine ⟨Nat.zero_le _, params, ?_, hd.hasNames⟩
  rw [List.zip_nil_right]
  exact hd.made

/-- It has taken no parameter along. -/
theorem Creation.Denotes.lookup?_param {n : Nat} {v : Ref} {m : Machine} {f : Creation n v m}
    {env : Reference.Env} {params body : Tree} {names : List String}
    (hd : f.Denotes env params body names) {x : String} (hx : x ∈ names) :
    Reference.lookup? (Reference.capture env (params.freeNames body) []) x = none := by
  rw [hd.lookup?_taken]
  exact if_neg fun h => h.2 hx

namespace Application

variable {n : Nat} {v : Ref} {m entered : Machine} {f : Application n v m}
  {names : List String} {body : Tree} {captured : Reference.Env} {supplied given : List Tree}

theorem Denotes.values_eq {names : List String} {captured : Scope}
    (hd : f.Denotes names body captured given) : given = f.results.map seen := by
  have hresults := hd.results
  clear hd
  generalize f.results = rs at hresults
  induction hresults with
  | nil => rfl
  | cons hr _ ih => rw [List.map_cons, ← ih, seen, hr.2.view_eq]

/-- What an application to a group of arguments is about. -/
theorem Denotes.of_awaits {names' : List String} {body' : Tree} {captured' : Scope}
    (hd : f.Denotes names' body' captured' given)
    (hw : f.reached.heap.Awaits (some f.operator) names body captured supplied) :
    f.Denotes (names.drop supplied.length) body
      (Reference.toScope ((names.zip supplied).reverse ++ captured)) given := by
  obtain ⟨params, hu, hnames⟩ := hw.unfolds
  obtain ⟨rfl, rfl, rfl⟩ := hd.unique hu hnames
  exact hd

/-- Too few arguments for the parameters that are left leave a closure of the others. -/
theorem Denotes.awaits (hd : f.Denotes (names.drop supplied.length) body
      (Reference.toScope ((names.zip supplied).reverse ++ captured)) given)
    (hlength : supplied.length ≤ names.length)
    (hfew : f.given.length < f.reached.heap.arity f.closure) :
    ∃ result after, eval (n + 1) v m = .ok result after ∧ after.Sound ∧
      after.heap.Awaits result names body captured (supplied ++ given) := by
  obtain ⟨result, after, hresult, hs, -, hu⟩ := hd.waits hfew
  have harity := hd.arity
  have hgiven := hd.length_eq
  rw [List.length_drop] at harity
  rw [Reference.ofScope_toScope, ← List.append_assoc, ← List.reverse_append,
    ← Reference.zip_append_of_le hlength] at hu
  refine ⟨result, after, hresult, hs, ?_, _, hu, ?_⟩
  · rw [List.length_append]
    omega
  · rw [Tree.elements?_ofList, List.length_append, List.drop_drop]

/-- What the names stand for where the body starts after arguments were supplied in groups. -/
theorem Entered.resolve?_eq (he : f.Entered (names.drop supplied.length) body
      (Reference.toScope ((names.zip supplied).reverse ++ captured)) given entered)
    (hd : f.Denotes (names.drop supplied.length) body
      (Reference.toScope ((names.zip supplied).reverse ++ captured)) given)
    (hlength : supplied.length + given.length = names.length)
    (hcaptured : ∀ x ∈ names, Reference.lookup? captured x = none) (x : String) :
    entered.resolve? x =
      if x ∈ names then
        (supplied ++ given)[Reference.argumentIndex names supplied.length x]?
      else (Reference.lookup? captured x).or (f.caller.resolve? x) := by
  obtain ⟨env, hm, -⟩ := hd.caller.bound
  have hentered := he.models env hm
  rw [Reference.ofScope_toScope] at hentered
  rw [Models.resolve?_eq hentered he.sound, Models.resolve?_eq hm hd.caller.sound]
  exact Reference.lookup?_callEnv hlength hcaptured env x

end Application

namespace Interpreter

/--
Whether a closure has been given some of its arguments, in any number of groups, and each time
fewer than it had parameters left. What comes of one application may be copied before the next.
-/
inductive Supplied (i : Interpreter) (m₀ : Machine) (v₀ : Ref) :
    List (Ref × Machine) → Machine → Ref → Prop
  | start {m : Machine} {v : Ref} (hcopy : i.Carries m₀ v₀ m v) : Supplied i m₀ v₀ [] m v
  | group {n : Nat} {e v result : Ref} {s m after : Machine} {rs : List (Ref × Machine)}
      (f : Application n e s) (h : Supplied i m₀ v₀ rs f.reached (some f.operator))
      (he : i.Evaluates (n + 1) e s) (hfew : f.given.length < f.reached.heap.arity f.closure)
      (hresult : ArenaLisp.eval (n + 1) e s = .ok result after)
      (hcopy : i.Carries after result m v) : Supplied i m₀ v₀ (rs ++ f.results) m v

variable {i : Interpreter}

/-- **Groups of arguments add up.** -/
theorem Supplied.awaits {m₀ m : Machine} {v₀ v : Ref} {rs : List (Ref × Machine)}
    (h : i.Supplied m₀ v₀ rs m v) (hr : i.machine.Resting) (hs : m₀.Sound) {names : List String}
    {body : Tree} {captured : Reference.Env}
    (hstart : m₀.heap.Awaits v₀ names body captured []) (hlive : m.heap.LiveRef v) :
    m.heap.Awaits v names body captured (rs.map seen) := by
  induction h with
  | start hcopy =>
      obtain ⟨params, hu, hnames⟩ := hstart.unfolds
      exact ⟨Nat.zero_le _, params, hcopy.unfolds hr hs hu hlive, hnames⟩
  | @group n e v result s m after rs f h he hfew hresult hcopy ih =>
      obtain ⟨ho, hcode⟩ := he.orderly hr
      obtain ⟨names', body', captured', values, hd⟩ := f.denotes ho hcode
      obtain ⟨params, hu, -⟩ := hd.closure
      have hbefore := ih hu.liveRef
      have hd' := hd.of_awaits hbefore
      obtain ⟨result', after', hresult', hs', hafter⟩ := hd'.awaits hbefore.length_le hfew
      cases hresult.symm.trans hresult'
      obtain ⟨params', hu', hnames'⟩ := hafter.unfolds
      rw [List.map_append, ← hd.values_eq]
      exact ⟨hafter.length_le, params', hcopy.unfolds hr hs' hu' hlive, hnames'⟩

section

variable {n k : Nat} {v w : Ref} {m s : Machine} {f : Creation n v m} {env : Reference.Env}
  {params body : Tree} {names : List String} {rs : List (Ref × Machine)}

/-- What is applied after some groups awaits the other arguments. -/
theorem Supplied.awaits_operator (hr : i.machine.Resting) (hf : f.Denotes env params body names)
    {g : Invocation k w s} (h : i.Supplied f.after f.made rs g.reached (some g.operator))
    (hv : i.Evaluates (k + 1) w s) :
    g.reached.heap.Awaits (some g.operator) names body
      (Reference.capture env (params.freeNames body) []) (rs.map seen) := by
  obtain ⟨ho, hcode⟩ := hv.orderly hr
  obtain ⟨-, -, ⟨t, hu, -⟩, -⟩ := g.applies.orderly ho hcode
  exact h.awaits hr hf.sound hf.awaits hu.liveRef

/-- The parameters that are left. -/
theorem Supplied.params_eq (hr : i.machine.Resting) (hf : f.Denotes env params body names)
    {g : Invocation k w s} (h : i.Supplied f.after f.made rs g.reached (some g.operator))
    (hv : i.Evaluates (k + 1) w s) :
    (g.reached.heap.view g.closure.params).elements? = some ((names.drop rs.length).map .atom) ∧
      g.reached.heap.arity g.closure = names.length - rs.length ∧ rs.length ≤ names.length := by
  have hw := h.awaits_operator hr hf hv
  obtain ⟨params', hu, hnames⟩ := hw.unfolds
  have hlength := hw.length_le
  rw [List.length_map] at hnames hlength
  obtain ⟨hparams, -, -, -⟩ := hu.closure_parts g.isClosure
  obtain ⟨ns, hns, hunfolds⟩ := hparams.elements?_some hnames
  refine ⟨?_, ?_, hlength⟩
  · rw [hparams.view_eq]
    exact hnames
  · rw [Heap.arity, hns, Option.getD_some, hunfolds.length_eq, List.length_map, List.length_drop]

/-- The last group starts the body, where every name has its meaning. -/
theorem Supplied.enters (hr : i.machine.Resting) (hf : f.Denotes env params body names)
    {g : Application k w s} (h : i.Supplied f.after f.made rs g.reached (some g.operator))
    (hv : i.Evaluates (k + 1) w s) (hfull : rs.length + g.given.length = names.length) :
    ∃ entered, g.Enters entered ∧
      Asks (fun ev => evalStep ev w) (ArenaLisp.eval k) s g.closure.body entered ∧
      entered.heap.view g.closure.body = f.defined.heap.view f.body ∧
      ∀ x, entered.resolve? x =
        if x ∈ names then
          ((rs ++ g.results).map seen)[Reference.argumentIndex names rs.length x]?
        else (Reference.lookup? (Reference.capture env (params.freeNames body) []) x).or
          (g.caller.resolve? x) := by
  obtain ⟨-, harity, hlength⟩ := h.params_eq hr hf hv
  obtain ⟨ho, hcode⟩ := hv.orderly hr
  obtain ⟨names', body', captured', given, hd'⟩ := g.denotes ho hcode
  have hd := hd'.of_awaits (h.awaits_operator hr hf hv)
  obtain ⟨entered, he⟩ := hd.entered ho hcode (by omega)
  refine ⟨entered, he.enters, he.asked, ?_, fun x => ?_⟩
  · rw [he.body.view_eq, hf.hasBody.view_eq]
  · have hresolve := he.resolve?_eq hd (by rw [List.length_map, hd.length_eq]; exact hfull)
      (fun x hx => hf.lookup?_param hx) x
    rw [hresolve, hd.values_eq, List.map_append, List.length_map]

/-- A group before the last leaves a closure of the other parameters. -/
theorem Supplied.waits (hr : i.machine.Resting) (hf : f.Denotes env params body names)
    {g : Application k w s} (h : i.Supplied f.after f.made rs g.reached (some g.operator))
    (hv : i.Evaluates (k + 1) w s) (hfew : rs.length + g.given.length < names.length) :
    ∃ o c after, ArenaLisp.eval (k + 1) w s = .ok (some o) after ∧
      after.heap.cell o = .live (.closure c) ∧
      after.heap.view c.body = f.defined.heap.view f.body ∧
      (after.heap.view c.params).elements? =
        some ((names.drop (rs.length + g.given.length)).map .atom) := by
  obtain ⟨-, harity, hlength⟩ := h.params_eq hr hf hv
  obtain ⟨ho, hcode⟩ := hv.orderly hr
  obtain ⟨names', body', captured', given, hd'⟩ := g.denotes ho hcode
  have hw := h.awaits_operator hr hf hv
  have hd := hd'.of_awaits hw
  obtain ⟨result, after, hresult, -, hafter⟩ := hd.awaits hw.length_le (by omega)
  obtain ⟨params', hu, hnames⟩ := hafter.unfolds
  rw [List.length_append, List.length_map, hd.length_eq] at hnames
  cases hu with
  | @closure o c _ _ _ hcell hparams hcells hbody hcaptured =>
      refine ⟨o, c, after, hresult, hcell, ?_, ?_⟩
      · rw [hbody.view_eq, hf.hasBody.view_eq]
      · rw [hparams.view_eq]
        exact hnames

end

/-! ## The same values in groups and at once -/

/--
A closure that `lambda` makes, given its arguments in groups, of which the last one starts the
body, and given the same values at once.
-/
structure Comparison (i : Interpreter) where
  {n k l : Nat}
  {v w u : Ref}
  {m s r : Machine}
  creation : Creation n v m
  makes : i.Evaluates (n + 1) v m
  /-- The values of the groups before the last one. -/
  supplied : List (Ref × Machine)
  last : Application k w s
  applies : i.Evaluates (k + 1) w s
  supplies : i.Supplied creation.after creation.made supplied last.reached (some last.operator)
  completes : last.given.length = last.reached.heap.arity last.closure
  once : Application l u r
  appliesOnce : i.Evaluates (l + 1) u r
  carries : i.Carries creation.after creation.made once.reached (some once.operator)
  sameValues : once.results.map seen = (supplied ++ last.results).map seen

/-- All values, as they are seen. -/
def Comparison.values (c : i.Comparison) : List Tree := (c.supplied ++ c.last.results).map seen

/--
What comes of the turns `e₂` and `e₃`, each of them after the turn that defines a closure: the first
is to give it arguments in two groups, the other one to give it the same at once.
-/
def Definition.compare? {n : Nat} {steps : List Step} {e e₂ e₃ : Expression}
    (d : Definition i n steps e) {w u : Ref} {s r : Machine}
    (hs : s = (i.run (steps ++ [.exec (n + 2) e])).machine.started e₂.tree)
    (hr : r = (i.run (steps ++ [.exec (n + 2) e])).machine.started e₃.tree)
    (hw : i.Evaluates (n + 2) w s) (hu : i.Evaluates (n + 2) u r) : Option i.Comparison :=
  match application? (n + 1) w s, application? (n + 1) u r, operator? w s with
  | some g, some b, some ⟨car, hcar⟩ =>
    match application? n car s with
    | none => none
    | some f =>
      if h : d.assignment.bound = some f.operator ∧ d.assignment.bound = some b.operator ∧
          f.given.length < f.reached.heap.arity f.closure ∧
          g.given.length = g.reached.heap.arity g.closure ∧
          b.results.map seen = (f.results ++ g.results).map seen then
        have hcar' := g.applies.asks hcar
        some ⟨d.creation, d.makes, f.results, g, hw,
          .group f (.start (d.carries [] hs (hw.asked hcar'.2) f h.1)) (hw.asked hcar'.2) h.2.2.1
            hcar'.1 (.itself (.refl _)),
          h.2.2.2.1, b, hu, d.carries [] hr hu b h.2.1, h.2.2.2.2⟩
      else none
  | _, _, _ => none

/-- The comparison of two turns after one that defines a closure. -/
def comparison? (hr : i.machine.Resting) (e e₂ e₃ : Expression) : Option i.Comparison :=
  match definition? hr 7 [] e with
  | none => none
  | some d => d.compare? rfl rfl (.turn [.exec 9 e] 9 e₂ .whole) (.turn [.exec 9 e] 9 e₃ .whole)

/--
Three numbers are given to a closure in two groups and at once. Two of its parameters have the same
name.
-/
theorem exists_comparisons : ∃ (i : Interpreter)
    (hi : new [("list-args", .arguments)] true true = .ok i) (e e₁ e₂ e₃ : Expression)
    (c c' : i.Comparison),
    Expression.ofString? "(set 'h (lambda (x x y) (cons x (cons y ()))))" = some e ∧
    Expression.ofString? "((h 1 2) 3)" = some e₁ ∧ Expression.ofString? "((h 1) 2 3)" = some e₂ ∧
    Expression.ofString? "(h 1 2 3)" = some e₃ ∧
    comparison? (new_resting hi) e e₁ e₃ = some c ∧ comparison? (new_resting hi) e e₂ e₃ = some c' ∧
    c.supplied.length = 2 ∧ c'.supplied.length = 1 ∧
    ∀ d ∈ [c, c'],
      (d.creation.defined.heap.view d.creation.params).elements? =
        some (["x", "x", "y"].map .atom) ∧
      d.values = [.number (.int 1), .number (.int 2), .number (.int 3)] ∧
      d.last.caller.resolve? "y" = none ∧ d.once.caller.resolve? "y" = none := by
  have hsession : newAny [("list-args", .arguments)] (fun i hr =>
      (Expression.ofString? "(set 'h (lambda (x x y) (cons x (cons y ()))))").any fun e =>
      (Expression.ofString? "((h 1 2) 3)").any fun e₁ =>
      (Expression.ofString? "((h 1) 2 3)").any fun e₂ =>
      (Expression.ofString? "(h 1 2 3)").any fun e₃ =>
      (comparison? hr e e₁ e₃).any fun c => (comparison? hr e e₂ e₃).any fun c' =>
        decide (c.supplied.length = 2) && decide (c'.supplied.length = 1) &&
        [c, c'].all fun d =>
          decide ((d.creation.defined.heap.view d.creation.params).elements? =
            some (["x", "x", "y"].map .atom)) &&
          decide (d.values = [.number (.int 1), .number (.int 2), .number (.int 3)]) &&
          decide (d.last.caller.resolve? "y" = none) &&
          decide (d.once.caller.resolve? "y" = none)) = true := by
    decide +kernel
  obtain ⟨i, hi, hsession⟩ := exists_of_newAny hsession
  obtain ⟨e, he, hsession⟩ := (Option.any_eq_true _ _).mp hsession
  obtain ⟨e₁, he₁, hsession⟩ := (Option.any_eq_true _ _).mp hsession
  obtain ⟨e₂, he₂, hsession⟩ := (Option.any_eq_true _ _).mp hsession
  obtain ⟨e₃, he₃, hsession⟩ := (Option.any_eq_true _ _).mp hsession
  obtain ⟨c, hc, hsession⟩ := (Option.any_eq_true _ _).mp hsession
  obtain ⟨c', hc', hsession⟩ := (Option.any_eq_true _ _).mp hsession
  simp only [Bool.and_eq_true, decide_eq_true_eq] at hsession
  obtain ⟨⟨htwo, hone⟩, hall⟩ := hsession
  refine ⟨i, hi, e, e₁, e₂, e₃, c, c', he, he₁, he₂, he₃, hc, hc', htwo, hone, fun d hd => ?_⟩
  have hd' := List.all_eq_true.mp hall d hd
  simp only [Bool.and_eq_true, decide_eq_true_eq] at hd'
  obtain ⟨⟨⟨hparams, hvalues⟩, hlast⟩, honce⟩ := hd'
  exact ⟨hparams, hvalues, hlast, honce⟩

/-! ## What grouping changes, and what not -/

/--
**Arguments add up.** Let `lambda` make a closure, and let it be given some of its arguments in
any number of groups, then some more. If these are too many for the parameters that are left, they
are refused before any of them is evaluated. If they are too few, what comes of it is a closure of
the parameters still left. Otherwise the body is evaluated. Where that starts, every name that
occurs at most once among the parameters stands for what it stands for if the closure is given the
same values at once, by a caller for whom the name stands for the same.
-/
theorem curried_application {extra : List (String × Builtin)} {print reads : Bool}
    (hi : new extra print reads = .ok i) {n : Nat} {v : Ref} {m : Machine}
    (hmakes : i.Evaluates (n + 1) v m) (f : Creation n v m) {k : Nat} {w : Ref} {s : Machine}
    (happlies : i.Evaluates (k + 1) w s) (g : Invocation k w s) {rs : List (Ref × Machine)}
    (hsupplied : i.Supplied f.after f.made rs g.reached (some g.operator)) :
    ∃ names : List String,
      (f.defined.heap.view f.params).elements? = some (names.map .atom) ∧
      (g.reached.heap.view g.closure.params).elements? =
        some ((names.drop rs.length).map .atom) ∧
      (names.length < rs.length + g.given.length →
        (∃ e : EvalError, e.kind = .arity ∧
          ArenaLisp.eval (k + 1) w s = .error (.error e) g.reached) ∧
        ∀ w' s', Asks (fun ev => evalStep ev w) (ArenaLisp.eval k) s w' s' →
          s' = s ∧ IsOperator w s w') ∧
      ∀ a : Application k w s, a.toInvocation = g →
        (rs.length + g.given.length < names.length →
          ∃ o c after, ArenaLisp.eval (k + 1) w s = .ok (some o) after ∧
            after.heap.cell o = .live (.closure c) ∧
            after.heap.view c.body = f.defined.heap.view f.body ∧
            (after.heap.view c.params).elements? =
              some ((names.drop (rs.length + g.given.length)).map .atom)) ∧
        (rs.length + g.given.length = names.length →
          ∃ entered, a.Enters entered ∧
            Asks (fun ev => evalStep ev w) (ArenaLisp.eval k) s g.closure.body entered ∧
            entered.heap.view g.closure.body = f.defined.heap.view f.body ∧
            ∀ {l : Nat} {u : Ref} {r : Machine}, i.Evaluates (l + 1) u r →
              ∀ b : Application l u r,
                i.Carries f.after f.made b.reached (some b.operator) →
                b.results.map seen = (rs ++ a.results).map seen →
                ∃ entered', b.Enters entered' ∧
                  Asks (fun ev => evalStep ev u) (ArenaLisp.eval l) r b.closure.body entered' ∧
                  entered'.heap.view b.closure.body = f.defined.heap.view f.body ∧
                  ∀ x, names.count x ≤ 1 → a.caller.resolve? x = b.caller.resolve? x →
                    entered.resolve? x = entered'.resolve? x) := by
  have hr := new_resting hi
  obtain ⟨ho, hcode⟩ := hmakes.orderly hr
  obtain ⟨env, params, body, names, hf⟩ := f.denotes ho hcode
  obtain ⟨hparams, harity, hlength⟩ := hsupplied.params_eq hr hf happlies
  refine ⟨names, ?_, hparams, fun hmany => ?_, fun a ha => ⟨fun hfew => ?_, fun hfull => ?_⟩⟩
  · rw [hf.hasParams.view_eq]
    exact hf.hasNames
  · obtain ⟨hrefused, hasked⟩ := g.refuses (by omega)
    exact ⟨⟨_, rfl, hrefused⟩, hasked⟩
  · subst ha
    exact hsupplied.waits hr hf happlies hfew
  · subst ha
    obtain ⟨entered, henters, hasks, hbody, hresolve⟩ := hsupplied.enters hr hf happlies hfull
    refine ⟨entered, henters, hasks, hbody, fun honce b hcarries hvalues => ?_⟩
    -- all values at once are the last group after no group at all
    have hlength' : b.results.length = rs.length + a.results.length := by
      have hlengths := congrArg List.length hvalues
      simpa using hlengths
    have hfull' : ([] : List (Ref × Machine)).length + b.given.length = names.length := by
      have h₁ := a.passing.length_eq
      have h₂ := b.passing.length_eq
      rw [List.length_nil]
      omega
    obtain ⟨entered', henters', hasks', hbody', hresolve'⟩ :=
      Supplied.enters hr hf (.start hcarries) honce hfull'
    refine ⟨entered', henters', hasks', hbody', fun x hcount hcaller => ?_⟩
    rw [hresolve, hresolve', List.nil_append, hvalues, hcaller, List.length_nil,
      Reference.argumentIndex_zero,
      Reference.argumentIndex_eq (Nat.le_trans ((List.take_sublist _ _).count_le x) hcount) hlength]

/-- The last parameter, which is named once. -/
theorem curried_application_last : ∃ (i : Interpreter)
    (hi : new [("list-args", .arguments)] true true = .ok i) (e e₁ e₃ : Expression)
    (c : i.Comparison) (entered entered' : Machine),
    Expression.ofString? "(set 'h (lambda (x x y) (cons x (cons y ()))))" = some e ∧
    Expression.ofString? "((h 1 2) 3)" = some e₁ ∧ Expression.ofString? "(h 1 2 3)" = some e₃ ∧
    comparison? (new_resting hi) e e₁ e₃ = some c ∧
    i.Evaluates (c.n + 1) c.v c.m ∧ i.Evaluates (c.k + 1) c.w c.s ∧
    i.Supplied c.creation.after c.creation.made c.supplied c.last.reached (some c.last.operator) ∧
    c.supplied.length = 2 ∧ c.last.Enters entered ∧ c.once.Enters entered' ∧
    entered.resolve? "y" = entered'.resolve? "y" := by
  obtain ⟨i, hi, e, e₁, e₂, e₃, c, c', he, he₁, -, he₃, hc, -, htwo, -, hall⟩ := exists_comparisons
  obtain ⟨hparams, hvalues, hlast, honce⟩ := hall c List.mem_cons_self
  obtain ⟨names, hnames, -, -, hgroups⟩ := curried_application hi c.makes c.creation c.applies
    c.last.toInvocation c.supplies
  obtain rfl := Tree.names_unique hnames hparams
  have hfull : c.supplied.length + c.last.given.length = 3 := by
    have hlength := congrArg List.length hvalues
    rw [Comparison.values, List.length_map, List.length_append, c.last.passing.length_eq] at hlength
    exact hlength
  obtain ⟨entered, henters, -, -, hagree⟩ := (hgroups c.last rfl).2 hfull
  obtain ⟨entered', henters', -, -, hresolve⟩ := hagree c.appliesOnce c.once c.carries c.sameValues
  refine ⟨i, hi, e, e₁, e₃, c, entered, entered', he, he₁, he₃, hc, c.makes, c.applies, c.supplies,
    htwo, henters, henters', hresolve "y" (by decide) ?_⟩
  rw [hlast, honce]

/-- What the parameters stand for, given in groups and given at once. -/
theorem Comparison.resolves (c : i.Comparison) (hr : i.machine.Resting) :
    ∃ (names : List String) (entered entered' : Machine),
      (c.creation.defined.heap.view c.creation.params).elements? = some (names.map .atom) ∧
      c.supplied.length ≤ names.length ∧ c.last.Enters entered ∧ c.once.Enters entered' ∧
      ∀ x ∈ names,
        entered.resolve? x = c.values[Reference.argumentIndex names c.supplied.length x]? ∧
        entered'.resolve? x = c.values[names.idxOf x]? := by
  obtain ⟨ho, hcode⟩ := c.makes.orderly hr
  obtain ⟨env, params, body, names, hf⟩ := c.creation.denotes ho hcode
  obtain ⟨-, harity, hlength⟩ := c.supplies.params_eq hr hf c.applies
  have hfull : c.supplied.length + c.last.given.length = names.length := by
    have hcompletes := c.completes
    omega
  have hfull' : ([] : List (Ref × Machine)).length + c.once.given.length = names.length := by
    have hlengths := congrArg List.length c.sameValues
    have h₁ := c.last.passing.length_eq
    have h₂ := c.once.passing.length_eq
    rw [List.length_map, List.length_map, List.length_append] at hlengths
    rw [List.length_nil]
    omega
  obtain ⟨entered, henters, -, -, hresolve⟩ := c.supplies.enters hr hf c.applies hfull
  obtain ⟨entered', henters', -, -, hresolve'⟩ :=
    Supplied.enters hr hf (.start c.carries) c.appliesOnce hfull'
  refine ⟨names, entered, entered', ?_, hlength, henters, henters', fun x hx => ⟨?_, ?_⟩⟩
  · rw [hf.hasParams.view_eq]
    exact hf.hasNames
  · rw [hresolve, if_pos hx]
    rfl
  · rw [hresolve', if_pos hx, List.nil_append, c.sameValues, List.length_nil,
      Reference.argumentIndex_zero]
    rfl

/--
**Which of its arguments a parameter stands for.** A parameter that is named more than once stands
for its first argument if all arguments are given at once. If they are given in groups, it stands
for the last one that a group before the last has bound it to, and for its first argument if there
is none. So grouping the arguments makes no difference exactly if the values at the two places are
the same, and in particular if at most one of its places is before the last group.
-/
theorem repeated_parameter_resolves {extra : List (String × Builtin)} {print reads : Bool}
    (hi : new extra print reads = .ok i) (c : i.Comparison) :
    ∃ (names : List String) (entered entered' : Machine),
      (c.creation.defined.heap.view c.creation.params).elements? = some (names.map .atom) ∧
      c.last.Enters entered ∧ c.once.Enters entered' ∧
      ∀ x ∈ names,
        entered.resolve? x = c.values[Reference.argumentIndex names c.supplied.length x]? ∧
        entered'.resolve? x = c.values[names.idxOf x]? ∧
        ((names.take c.supplied.length).count x ≤ 1 →
          entered.resolve? x = entered'.resolve? x) := by
  obtain ⟨names, entered, entered', hparams, hlength, henters, henters', hresolves⟩ :=
    c.resolves (new_resting hi)
  refine ⟨names, entered, entered', hparams, henters, henters', fun x hx => ?_⟩
  obtain ⟨hgrouped, honce⟩ := hresolves x hx
  refine ⟨hgrouped, honce, fun hcount => ?_⟩
  rw [hgrouped, honce, Reference.argumentIndex_eq hcount hlength]

/-- Only one of its places is before the last group. -/
theorem repeated_parameter_resolves_first : ∃ (i : Interpreter)
    (hi : new [("list-args", .arguments)] true true = .ok i) (e e₂ e₃ : Expression)
    (c : i.Comparison) (entered entered' : Machine),
    Expression.ofString? "(set 'h (lambda (x x y) (cons x (cons y ()))))" = some e ∧
    Expression.ofString? "((h 1) 2 3)" = some e₂ ∧ Expression.ofString? "(h 1 2 3)" = some e₃ ∧
    comparison? (new_resting hi) e e₂ e₃ = some c ∧ c.supplied.length = 1 ∧
    c.last.Enters entered ∧ c.once.Enters entered' ∧
    entered.resolve? "x" = some (.number (.int 1)) ∧
    entered'.resolve? "x" = some (.number (.int 1)) := by
  obtain ⟨i, hi, e, e₁, e₂, e₃, c', c, he, -, he₂, he₃, -, hc, -, hone, hall⟩ := exists_comparisons
  obtain ⟨hparams, hvalues, -, -⟩ := hall c (by simp)
  obtain ⟨names, entered, entered', hnames, henters, henters', hresolves⟩ :=
    repeated_parameter_resolves hi c
  obtain rfl := Tree.names_unique hnames hparams
  obtain ⟨-, honce, hsame⟩ := hresolves "x" (by simp)
  rw [hvalues] at honce
  rw [hone] at hsame
  exact ⟨i, hi, e, e₂, e₃, c, entered, entered', he, he₂, he₃, hc, hone, henters, henters',
    (hsame (by decide)).trans honce, honce⟩

/--
Both of its places are before the last group: it stands for the second argument, not for the first
as it does if all are given at once.
-/
theorem repeated_parameter_differs : ∃ (i : Interpreter)
    (hi : new [("list-args", .arguments)] true true = .ok i) (e e₁ e₃ : Expression)
    (c : i.Comparison) (entered entered' : Machine),
    Expression.ofString? "(set 'h (lambda (x x y) (cons x (cons y ()))))" = some e ∧
    Expression.ofString? "((h 1 2) 3)" = some e₁ ∧ Expression.ofString? "(h 1 2 3)" = some e₃ ∧
    comparison? (new_resting hi) e e₁ e₃ = some c ∧
    (c.creation.defined.heap.view c.creation.params).elements? =
      some (["x", "x", "y"].map .atom) ∧
    c.last.Enters entered ∧ c.once.Enters entered' ∧
    entered.resolve? "x" = some (.number (.int 2)) ∧
    entered'.resolve? "x" = some (.number (.int 1)) := by
  obtain ⟨i, hi, e, e₁, e₂, e₃, c, c', he, he₁, -, he₃, hc, -, htwo, -, hall⟩ := exists_comparisons
  obtain ⟨hparams, hvalues, -, -⟩ := hall c List.mem_cons_self
  obtain ⟨names, entered, entered', hnames, -, henters, henters', hresolves⟩ :=
    c.resolves (new_resting hi)
  obtain rfl := Tree.names_unique hnames hparams
  obtain ⟨hgrouped, honce⟩ := hresolves "x" (by simp)
  rw [hvalues, htwo] at hgrouped
  rw [hvalues] at honce
  exact ⟨i, hi, e, e₁, e₃, c, entered, entered', he, he₁, he₃, hc, hparams, henters, henters',
    hgrouped, honce⟩

end Interpreter

end ArenaLisp
