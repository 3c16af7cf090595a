import ArenaLisp.Proofs.Frame
import ArenaLisp.Proofs.Orderly

/-!
# What calls lose

Operations account for everything that they make, so a program without calls accounts for
everything that what it asks for accounts for. Every call has a list of its arguments made, and
that is never registered. When a call ends, its environment is given up together with what `set`
has made for it.

`Lost` collects what the calls within an evaluation lose in these two ways. The main statement is
`eval_accounts`: an evaluation accounts for everything else.
-/

namespace ArenaLisp

open EvalM Machine

/-! ## Programs without calls -/

/-- A program without calls loses what is lost by the evaluations that it asks for. -/
theorem Program.accounts {binds : Prop} {α : Type} {m : Machine} {x : Evaluator → EvalM α}
    {P : Machine → α → Prop} {ev : Evaluator} {lost : Node → Prop}
    (hp : Program False binds m x P) (hev : ev.Keeps) (hs : m.Sound)
    (hasked : ∀ w s, Asks x ev m w s → s.Accounts lost (finalMachine (ev w s))) :
    m.Accounts lost (finalMachine (x ev m)) := by
  induction hp with
  | operate hx => exact hx.accounts.mono fun _ hf => hf.elim
  | @evaluate m v hv => exact hasked v m ⟨m, fun halt => if_pos ⟨rfl, rfl⟩⟩
  | call _ _ hf => exact hf.elim
  | @bind α β m x f P Q hx hf ihx ihf =>
      show m.Accounts lost (finalMachine ((x ev >>= fun a => f a ev) m))
      have hends := hx.ends hev hs
      have hfirst := ihx hs fun w s hask => hasked w s hask.bind
      cases hrun : x ev m with
      | error e m₁ =>
          rw [hrun] at hfirst
          rw [bind_error hrun]
          exact hfirst
      | ok a m₁ =>
          rw [hrun] at hends hfirst
          obtain ⟨hs₁, he₁, ha⟩ := hends
          have hrest := hf m₁ a hs₁ he₁ ha
          rw [bind_ok hrun]
          exact hfirst.trans he₁ (hrest.ends hev hs₁).final.2
            (ihf m₁ a hs₁ he₁ ha hs₁ fun w s hask => hasked w s (hx.asks_bind hev hs hrun hask))
  | weaken _ _ ih => exact ih hs hasked

/-! ## Calls -/

/--
What the call of a closure loses: the list of its arguments, whose cells come after the copies of
what the closure has taken along, and of what its own bindings bear in the end, what is not
registered then.
-/
def Closure.Loses (c : Closure) (caller left : Machine) (n : Node) : Prop :=
  (∃ i ≤ caller.heap.arity c, n = .value ⟨(caller.heap.copyChain c.captured).2.cells.size + i⟩) ∨
    ∃ b ∈ left.env, b ∉ caller.env ∧ left.Bears b n ∧ ¬left.Tracked n

/-- What the calls within an evaluation lose. -/
def Lost (n : Nat) (v : Ref) (m : Machine) (k : Node) : Prop :=
  ∃ l w s c caller entered, Nested n v m (l + 1) w s ∧ CallsClosure l w s c caller entered ∧
    c.Loses caller (entered.eval l c.body).2 k

theorem Lost.within {n k : Nat} {v w : Ref} {m s : Machine} {node : Node} (hw : Nested n v m k w s)
    (hl : Lost k w s node) : Lost n v m node := by
  obtain ⟨l, u, t, c, caller, entered, hu, hc, hloses⟩ := hl
  exact ⟨l, u, t, c, caller, entered, hw.trans hu, hc, hloses⟩

section

variable {n : Nat} {m : Machine}

/-- On an orderly machine a closure has its parameters still when its arguments are passed. -/
theorem params_of_passed {a o : Addr} {car cdr : Ref} {given values : List Ref} {c : Closure}
    {m₁ caller : Machine} (ho : m.Orderly) (hv : m.HasCode (some a))
    (hpair : m.heap.cell a = .live (.pair car cdr)) (hnil : car ≠ none ∨ cdr ≠ none)
    (hoperator : eval n car m = .ok (some o) m₁) (hclosure : m₁.heap.cell o = .live (.closure c))
    (hgiven : m₁.heap.elements? cdr = some given)
    (hvalues : given.mapM (passArgument (eval n)) m₁ = .ok values caller) :
    caller.heap.LiveRef c.params ∧ caller.heap.LiveChain c.captured ∧
      ∃ ns, caller.heap.elements? c.params = some ns ∧
        ns.length = ((m₁.heap.elements? c.params).getD []).length := by
  obtain ⟨hcar, hcdr⟩ := hv.fields hpair fun hboth => by simp [hboth] at hnil
  have hends := eval_settles n car m ho hcar
  rw [hoperator] at hends
  obtain ⟨ho₁, he₁, t, hu, -⟩ := hends
  obtain ⟨vs, hvs, hcodes⟩ := (he₁.hasCodes ho.sound hcdr).elements?
  obtain rfl : vs = given := Option.some.inj (hvs.symm.trans hgiven)
  have hpassed := passArguments_settles (eval_settles n) ho₁ hcodes
  rw [hvalues] at hpassed
  obtain ⟨-, he₂, -⟩ := hpassed
  -- the closure is a value, so nothing of it has changed
  have hcell : caller.heap.cell o = .live (.closure c) :=
    (he₂.cell o (Heap.liveRef_some.mp hu.liveRef).has).trans hclosure
  obtain ⟨params, body, s, rfl⟩ := hu.eq_closure hclosure
  obtain ⟨hparams, ⟨names, hnames⟩, -, -⟩ := hu.closure_parts hclosure
  obtain ⟨hparams', -, -, hcaptured⟩ := (he₂.unfolds ho₁.sound hu).closure_parts hcell
  obtain ⟨ns, hns, hunfolds⟩ := hparams.elements?_some hnames
  obtain ⟨ns', hns', hunfolds'⟩ := hparams'.elements?_some hnames
  refine ⟨hparams'.liveRef, hcaptured.liveChain, ns', hns', ?_⟩
  rw [hns, Option.getD_some, hunfolds.length_eq, hunfolds'.length_eq]

/--
On an orderly machine a closure is called whenever it is given as many arguments as it has
parameters, and these have values.
-/
theorem callsClosure_of_fits {a o : Addr} {car cdr : Ref} {given values : List Ref} {c : Closure}
    {m₁ caller : Machine} (ho : m.Orderly) (hv : m.HasCode (some a))
    (hpair : m.heap.cell a = .live (.pair car cdr)) (hnil : car ≠ none ∨ cdr ≠ none)
    (hoperator : eval n car m = .ok (some o) m₁) (hclosure : m₁.heap.cell o = .live (.closure c))
    (hgiven : m₁.heap.elements? cdr = some given)
    (hlength : given.length = ((m₁.heap.elements? c.params).getD []).length)
    (hvalues : given.mapM (passArgument (eval n)) m₁ = .ok values caller) :
    ∃ entered, CallsClosure n (some a) m c caller entered := by
  obtain ⟨hparams, hcaptured, ns, hns, hsame⟩ :=
    params_of_passed ho hv hpair hnil hoperator hclosure hgiven hvalues
  have hcount : ns.length = values.length := by
    rw [length_of_mapM hvalues, hsame, hlength]
  obtain ⟨call, m₂, hcall⟩ := callScope_isOk hparams hcaptured hns hcount
  exact ⟨_, .intro hpair hnil hoperator hclosure hgiven hlength hvalues hcall⟩

/-- What is made for a call and not registered is the list of its arguments. -/
theorem CallsClosure.unregistered {v : Ref} {c : Closure} {caller entered : Machine} {k : Node}
    (ho : m.Orderly) (hv : m.HasCode v) (hc : CallsClosure n v m c caller entered) :
    caller.heap.Made entered.heap k ∧ ¬entered.Tracked k ↔ ∃ i ≤ caller.heap.arity c,
      k = .value ⟨(caller.heap.copyChain c.captured).2.cells.size + i⟩ := by
  obtain ⟨ns, hns⟩ : ∃ ns, caller.heap.elements? c.params = some ns := by
    cases hc with
    | intro hpair hnil hoperator hclosure hgiven hlength hvalues hcall =>
        obtain ⟨-, -, ns, hns, -⟩ :=
          params_of_passed ho hv hpair hnil hoperator hclosure hgiven hvalues
        exact ⟨ns, hns⟩
  obtain ⟨hs₂, -, hclosure, values, call, m₂, hlive, hcall, rfl⟩ := hc.opened ho.sound hv.liveRef
  obtain ⟨hparams, -, hcaptured⟩ := hclosure.live
  obtain ⟨cs, fs, ns', hent, hbinds⟩ := callScope_ok hs₂ hparams hcaptured
    (fun w hw => (hlive w hw).1) hcall
  have hgrown := (Heap.copyChain_copies hcaptured).grown.trans (Heap.extends_list values _)
  have harity : caller.heap.arity c = values.length := by
    obtain rfl : ns' = ns :=
      Option.some.inj (hbinds.params.symm.trans (hgrown.elements?_eq hparams hns))
    rw [Heap.arity, hns, Option.getD_some, hbinds.length]
  rw [harity]
  exact callScope_unregistered hs₂ hcaptured hcall hent hbinds

variable {v : Ref} {lost : Node → Prop}

/-- What the arguments of a closure account for. -/
theorem passing_accounts {o : Addr} {cdr : Ref} {given : List Ref} {c : Closure} (hs : m.Sound)
    (hcdr : m.heap.LiveRef cdr) (hclosure : m.heap.cell o = .live (.closure c))
    (hgiven : m.heap.elements? cdr = some given)
    (hlength : given.length = ((m.heap.elements? c.params).getD []).length)
    (hasked : ∀ w s, Asks (fun ev => apply ev (some o) cdr) (eval n) m w s →
      s.Accounts lost (finalMachine (eval n w s))) :
    m.Accounts lost (finalMachine (given.mapM (passArgument (eval n)) m)) := by
  refine (passArguments_program hs (Heap.elements?_live hcdr hgiven)).accounts (eval_keeps n) hs
    fun w s hask => hasked w s ?_
  exact (hask.bind (f := fun values ev => callScope c values >>= fun call =>
    inScope call (ev c.body))).congr fun ev => by
      rw [apply_closure hclosure, applyClosure_full hgiven hlength]

/-- The evaluations of the operator and of the arguments come before a call. -/
theorem CallsClosure.caller_accounts {c : Closure} {caller entered : Machine} (hs : m.Sound)
    (hv : m.heap.LiveRef v) (hc : CallsClosure n v m c caller entered)
    (hasked : ∀ w s, Asks (fun ev => evalStep ev v) (eval n) m w s →
      s.Accounts lost (finalMachine (eval n w s))) : m.Accounts lost caller := by
  cases hc with
  | @intro a o car cdr given values call c m m₁ caller m₂ hpair hnil hoperator hclosure hgiven
      hlength hvalues hcall =>
      have hboth : ¬(car = none ∧ cdr = none) := fun hboth => by simp [hboth] at hnil
      obtain ⟨hcar, hcdr⟩ := (Heap.liveRef_some.mp hv).pair hpair
      have hends := eval_keeps n car m hs hcar
      have hfirst := hasked car m (asks_operator hpair hboth)
      rw [hoperator] at hends hfirst
      obtain ⟨hs₁, he₁, -⟩ := hends
      have hcdr₁ := he₁.liveRef hs hcdr
      have hpassed := passing_accounts hs₁ hcdr₁ hclosure hgiven hlength fun w s hask =>
        hasked w s (hask.applied (eval_keeps n) hs hv hpair hboth hoperator)
      have hpassing := (passArguments_program hs₁ (Heap.elements?_live hcdr₁ hgiven)).ends
        (eval_keeps n) hs₁
      rw [hvalues] at hpassed hpassing
      exact hfirst.trans he₁ hpassing.2.1 hpassed

/-- A call accounts for what the evaluations before it and its body account for. -/
theorem CallsClosure.accounts {c : Closure} {caller entered : Machine} (ho : m.Orderly)
    (hv : m.HasCode v) (hc : CallsClosure n v m c caller entered)
    (hasked : ∀ w s, Asks (fun ev => evalStep ev v) (eval n) m w s →
      s.Accounts lost (finalMachine (eval n w s)))
    (hlost : ∀ k, c.Loses caller (entered.eval n c.body).2 k → lost k) :
    m.Accounts lost (finalMachine (eval (n + 1) v m)) := by
  obtain ⟨hs₃, hcalls, hlive, -⟩ := hc.calls ho.sound hv.liveRef
  obtain ⟨hs₂, he₂, -⟩ := hc.opened ho.sound hv.liveRef
  obtain ⟨hs', he'⟩ := (eval_keeps n c.body entered hs₃ hlive).final
  have hbody := hasked c.body entered (hc.asks ho.sound hv.liveRef)
  have hbefore := hc.caller_accounts ho.sound hv.liveRef hasked
  rw [← Machine.eval_snd] at hs' he' hbody
  rw [← Machine.eval_snd, hc.eval_eq]
  refine hbefore.trans he₂ (hs₂.leave hcalls he' hs').2 ?_
  refine .of_call hs₂ hcalls he' hbody (fun k hk hnot => ?_) fun b hb hcaller k hk hnot => ?_
  · exact hlost k (Or.inl ((hc.unregistered ho hv).mp ⟨hk, hnot⟩))
  · exact hlost k (Or.inr ⟨b, hb, hcaller, hk, hnot⟩)

/-- An application that comes to no call accounts for what the evaluations it asks for do. -/
theorem apply_accounts {operator cdr : Ref} (hs : m.Sound) (hop : m.heap.LiveRef operator)
    (hcdr : m.heap.LiveRef cdr)
    (hnot : ∀ o c given values caller, operator = some o → m.heap.cell o = .live (.closure c) →
      m.heap.elements? cdr = some given →
      given.length = ((m.heap.elements? c.params).getD []).length →
      given.mapM (passArgument (eval n)) m ≠ .ok values caller)
    (hasked : ∀ w s, Asks (fun ev => apply ev operator cdr) (eval n) m w s →
      s.Accounts lost (finalMachine (eval n w s))) :
    m.Accounts lost (finalMachine (apply (eval n) operator cdr m)) := by
  by_cases hfits : ∃ o c, operator = some o ∧ m.heap.cell o = .live (.closure c) ∧ m.heap.Fits c cdr
  · obtain ⟨o, c, rfl, hclosure, given, hgiven, hlength⟩ := hfits
    have hpassed := passing_accounts hs hcdr hclosure hgiven hlength hasked
    rw [apply_closure hclosure, applyClosure_full hgiven hlength]
    cases hvalues : given.mapM (passArgument (eval n)) m with
    | error e caller =>
        rw [hvalues] at hpassed
        rw [bind_error hvalues]
        exact hpassed
    | ok values caller =>
        exact absurd hvalues (hnot o c given values caller rfl hclosure hgiven hlength)
  · have happly : Program False True m (fun ev => apply ev operator cdr) _ :=
      apply_program hs hop hcdr (fun o c heq hcell hfit => hfits ⟨o, c, heq, hcell, hfit⟩)
        fun _ _ _ _ _ => trivial
    exact happly.accounts (eval_keeps n) hs hasked

/-- An evaluation that calls no closure accounts for what the evaluations it asks for do. -/
theorem accounts_of_not_calls (ho : m.Orderly) (hv : m.HasCode v)
    (hnot : ∀ c caller entered, ¬CallsClosure n v m c caller entered)
    (hasked : ∀ w s, Asks (fun ev => evalStep ev v) (eval n) m w s →
      s.Accounts lost (finalMachine (eval n w s))) :
    m.Accounts lost (finalMachine (eval (n + 1) v m)) := by
  have hs := ho.sound
  have hlive := hv.liveRef
  by_cases hform : m.heap.IsForm v
  · obtain ⟨a, car, cdr, rfl, hpair, hnil⟩ := hform
    have hboth : ¬(car = none ∧ cdr = none) := fun hboth => by simp [hboth] at hnil
    obtain ⟨hcar, hcdr⟩ := (Heap.liveRef_some.mp hlive).pair hpair
    have hends := eval_keeps n car m hs hcar
    have hfirst := hasked car m (asks_operator hpair hboth)
    show m.Accounts lost (finalMachine (evalStep (eval n) (some a) m))
    rw [evalStep_pair hpair hboth]
    cases hoperator : eval n car m with
    | error e m₁ =>
        rw [hoperator] at hfirst
        rw [bind_error hoperator]
        exact hfirst
    | ok operator m₁ =>
        rw [hoperator] at hends hfirst
        obtain ⟨hs₁, he₁, hop⟩ := hends
        have hcdr₁ := he₁.liveRef hs hcdr
        have happly : Program True True m₁ (fun ev => apply ev operator cdr) _ :=
          apply_program hs₁ hop hcdr₁ (fun _ _ _ _ _ => trivial) fun _ _ _ _ _ => trivial
        rw [bind_ok hoperator]
        refine hfirst.trans he₁ (happly.ends (eval_keeps n) hs₁).final.2
          (apply_accounts hs₁ hop hcdr₁ ?_ fun w s hask => ?_)
        · rintro o c given values caller rfl hclosure hgiven hlength hvalues
          obtain ⟨entered, hc⟩ := callsClosure_of_fits ho hv hpair hnil hoperator hclosure hgiven
            hlength hvalues
          exact hnot c caller entered hc
        · exact hasked w s (hask.applied (eval_keeps n) hs hlive hpair hboth hoperator)
  · have hroutine : Program False True m (fun ev => evalStep ev v) _ :=
      evalStep_routine hs hlive fun hf => absurd hf hform
    exact hroutine.accounts (eval_keeps n) hs hasked

/-- **An evaluation accounts for everything** that is not lost by a call within it. -/
theorem eval_accounts (n : Nat) {m : Machine} {v : Ref} (ho : m.Orderly) (hv : m.HasCode v) :
    m.Accounts (Lost n v m) (finalMachine (eval n v m)) := by
  -- what is lost within a part of an evaluation is lost within the whole of it
  induction n generalizing v m with
  | zero => exact .refl _ m
  | succ n ih =>
      have hasked : ∀ w s, Asks (fun ev => evalStep ev v) (eval n) m w s →
          s.Accounts (Lost (n + 1) v m) (finalMachine (eval n w s)) := by
        intro w s hask
        obtain ⟨ho', hw⟩ := hask.orderly (eval_settles n) ho hv
        exact (ih ho' hw).mono fun k hk => hk.within (.part .whole hask)
      by_cases hcalls : ∃ c caller entered, CallsClosure n v m c caller entered
      · obtain ⟨c, caller, entered, hc⟩ := hcalls
        exact hc.accounts ho hv hasked fun k hk =>
          ⟨n, v, m, c, caller, entered, .whole, hc, hk⟩
      · refine accounts_of_not_calls ho hv (fun c caller entered hc => ?_) hasked
        exact hcalls ⟨c, caller, entered, hc⟩

end

end ArenaLisp
