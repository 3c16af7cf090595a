import ArenaLisp.Proofs.Application
import ArenaLisp.Proofs.Naming

/-!
# Where bindings come from

An environment has a binding after an evaluation that it did not have before. Then a `set` has put
it there, and this `set` is evaluated in the same environment: every evaluation around it, up to the
given one, is asked for as an operator, an argument, a clause, and none as the body of a closure.

The reason is that a call ends where it started. What a body puts in front of the chain is left with
the call, so no binding gets past a body on its way up. `Program.introduces` says this of one step
of evaluation, `eval_origin` of evaluations to any depth.
-/

namespace ArenaLisp

open EvalM Machine

/-! ## The environment within an evaluation -/

namespace Machine

variable {m m' : Machine}

theorem Evolves.env_suffix (he : m.Evolves m') : m.env <:+ m'.env := by
  obtain ⟨news, henv, -⟩ := he.grown
  exact ⟨news, henv.symm⟩

/-- What was there before is along the same chain still. -/
theorem Evolves.linked (he : m.Evolves m') (hs : m.Sound) : m'.heap.Linked m.scope m.env :=
  hs.linked.congr fun b hb => ⟨he.has (hs.env_has hb), (he.fixed b (hs.env_has hb)).2.1⟩

theorem Evolves.env_eq (he : m.Evolves m') (hs : m.Sound) (hscope : m'.scope = m.scope) :
    m'.env = m.env := by
  rw [Machine.env, hscope]
  exact (he.linked hs).chain_eq

end Machine

/--
Whether a program asks, in its own environment, for an evaluation that puts a binding into it. The
binding is there still when the program ends.
-/
def Admits {α : Type} (x : Evaluator → EvalM α) (ev : Evaluator) (m : Machine)
    (b : BindingId) : Prop :=
  ∃ w s, Asks x ev m w s ∧ m.env <:+ s.env ∧ b ∉ s.env ∧ b ∈ (finalMachine (ev w s)).env ∧
    (finalMachine (ev w s)).env <:+ (finalMachine (x ev m)).env

section

variable {calls binds : Prop} {α β : Type} {m m₁ : Machine} {x : Evaluator → EvalM α}
  {f : α → Evaluator → EvalM β} {P : Machine → α → Prop} {ev : Evaluator} {a : α} {b : BindingId}

/-- The first part of a program admits a binding. -/
theorem Admits.bind (had : Admits x ev m b)
    (hlater : (finalMachine (x ev m)).env <:+ (finalMachine ((x ev >>= fun a => f a ev) m)).env) :
    Admits (fun ev => x ev >>= fun a => f a ev) ev m b := by
  obtain ⟨w, s, hask, hbefore, hout, hin, hafter⟩ := had
  exact ⟨w, s, hask.bind, hbefore, hout, hin, hafter.trans hlater⟩

/-- The rest of a program admits a binding. -/
theorem Program.admits_bind (hx : Program calls binds m x P) (hev : ev.Keeps) (hs : m.Sound)
    (hrun : x ev m = .ok a m₁) (had : Admits (f a) ev m₁ b) :
    Admits (fun ev => x ev >>= fun a => f a ev) ev m b := by
  have hends := hx.ends hev hs
  rw [hrun] at hends
  obtain ⟨w, s, hask, hbefore, hout, hin, hafter⟩ := had
  refine ⟨w, s, hx.asks_bind hev hs hrun hask, hends.2.1.env_suffix.trans hbefore, hout, hin, ?_⟩
  show _ <:+ (finalMachine ((x ev >>= fun a => f a ev) m)).env
  rw [bind_ok hrun]
  exact hafter

theorem Admits.congr {x y : Evaluator → EvalM α} (had : Admits x ev m b)
    (hsame : ∀ ev, y ev m = x ev m) : Admits y ev m b := by
  obtain ⟨w, s, hask, hbefore, hout, hin, hafter⟩ := had
  exact ⟨w, s, hask.congr hsame, hbefore, hout, hin, by rwa [hsame]⟩

/-- What a program puts into its environment, its first part or the rest puts there. -/
theorem introduced_bind (hfirst : b ∈ (finalMachine (x ev m)).env → Admits x ev m b)
    (hlater : ∀ a m₁, x ev m = .ok a m₁ → m₁.env <:+ (finalMachine (f a ev m₁)).env)
    (hin : b ∈ (finalMachine ((x ev >>= fun a => f a ev) m)).env) :
    Admits (fun ev => x ev >>= fun a => f a ev) ev m b ∨
      ∃ a m₁, x ev m = .ok a m₁ ∧ b ∉ m₁.env ∧ b ∈ (finalMachine (f a ev m₁)).env := by
  cases hrun : x ev m with
  | error e m₁ =>
      left
      rw [bind_error hrun] at hin
      refine Admits.bind (hfirst (by rw [hrun]; exact hin)) ?_
      rw [bind_error hrun, hrun]
      exact List.suffix_rfl
  | ok a m₁ =>
      rw [bind_ok hrun] at hin
      by_cases hmem : b ∈ m₁.env
      · left
        refine Admits.bind (hfirst (by rw [hrun]; exact hmem)) ?_
        rw [bind_ok hrun, hrun]
        exact hlater a m₁ hrun
      · exact Or.inr ⟨a, m₁, rfl, hmem, hin⟩

/-- **A program that binds no name itself** puts nothing into its environment but what it admits. -/
theorem Program.introduces (hp : Program calls False m x P) (hev : ev.Keeps) (hs : m.Sound)
    (hout : b ∉ m.env) (hin : b ∈ (finalMachine (x ev m)).env) : Admits x ev m b := by
  induction hp with
  | @operate α m x P hx =>
      have hscope := hx.steady.resolve_right id
      have henv : (finalMachine (x m)).env = m.env := (hx.changes.keeps hs).2.env_eq hs hscope
      exact absurd (henv ▸ hin) hout
  | @evaluate m v hv =>
      exact ⟨v, m, ⟨m, fun halt => if_pos ⟨rfl, rfl⟩⟩, List.suffix_rfl, hout, hin, List.suffix_rfl⟩
  | @call m x body hx hbody =>
      -- the call is left in the environment it was made in
      have henv : (finalMachine ((x >>= fun c => inScope c (ev body)) m)).env = m.env := by
        have hends := hx.ends
        cases hcall : x m with
        | error e m' =>
            obtain ⟨hc, hscope⟩ := hx.failed e m' hcall
            rw [bind_error hcall]
            exact (hc.keeps hs).2.env_eq hs hscope
        | ok c m' =>
            rw [hcall] at hends
            obtain ⟨hscope, hs', hc⟩ := hends
            have he := (hev body _ hs' (hc.grown.liveRef hbody)).final.2
            rw [bind_ok hcall, finalMachine_inScope, hscope]
            exact (hc.linked hs he).chain_eq
      exact absurd (henv ▸ hin) hout
  | @bind α β m x f P Q hx hf ihx ihf =>
      have hends := hx.ends hev hs
      have hrest : ∀ a m₁, x ev m = .ok a m₁ → m₁.Sound ∧ m.Evolves m₁ ∧ P m₁ a := by
        intro a m₁ hrun
        rw [hrun] at hends
        exact hends
      have hlater : ∀ a m₁, x ev m = .ok a m₁ → m₁.env <:+ (finalMachine (f a ev m₁)).env := by
        intro a m₁ hrun
        obtain ⟨hs₁, he₁, ha⟩ := hrest a m₁ hrun
        exact ((hf m₁ a hs₁ he₁ ha).ends hev hs₁).final.2.env_suffix
      rcases introduced_bind (ihx hs hout) hlater hin with had | ⟨a, m₁, hrun, hout₁, hin₁⟩
      · exact had
      · obtain ⟨hs₁, he₁, ha⟩ := hrest a m₁ hrun
        exact hx.admits_bind hev hs hrun (ihf m₁ a hs₁ he₁ ha hs₁ hout₁ hin₁)
  | weaken _ _ ih => exact ih hs hout hin

end

/-! ## One step of evaluation -/

/-- A value is bound in the environment that the evaluations before it leave. -/
theorem Assignment.evolves {n : Nat} {v : Ref} {m : Machine} (f : Assignment n v m) (hs : m.Sound)
    (hv : m.heap.LiveRef v) : f.after.Sound ∧ m.Evolves f.evaluated ∧
      f.evaluated.Evolves f.after := by
  obtain ⟨hs₁, he₁, -, harguments⟩ := f.applies.sound hs hv
  have hprogram : Program False False f.reached (fun ev => evalTwo ev "set" f.arguments) _ :=
    evalTwo_program hs₁ "set" harguments
  have hends := hprogram.ends (eval_keeps n) hs₁
  rw [f.evalTwo_eq] at hends
  obtain ⟨hs₂, he₂, -, hvalue⟩ := hends
  obtain ⟨name, -, hassign⟩ := f.assigns
  have hbound := assign_ends hs₂ hvalue name
  rw [hassign] at hbound
  exact ⟨hbound.1, he₁.trans hs he₂, hbound.2.1⟩

/-- The values of two arguments are those of the only two there are, one after the other. -/
theorem evalTwo_eq_ok {ev : Evaluator} {operator : String} {arguments v w : Ref} {m m' : Machine}
    (hok : evalTwo ev operator arguments m = .ok (v, w) m') :
    ∃ target source m₁, m.heap.elements? arguments = some [target, source] ∧
      ev target m = .ok v m₁ ∧ ev source m₁ = .ok w m' := by
  obtain ⟨target, source, hgiven⟩ : ∃ target source,
      m.heap.elements? arguments = some [target, source] := by
    have hfails : ∀ e m₁, twoArguments operator arguments m ≠ .error e m₁ := by
      intro e m₁ hfail
      rw [evalTwo, bind_error hfail] at hok
      cases hok
    cases hcells : m.heap.elements? arguments with
    | none =>
        refine absurd ?_ (hfails (.error ⟨operator, .improperArguments (m.heap.view arguments)⟩) m)
        rw [twoArguments]
        refine bind_error ?_
        rw [argumentList, see_bind, hcells]
        rfl
    | some cells =>
        have hlist : argumentList operator arguments m = .ok cells m := by
          rw [argumentList, see_bind, hcells]
          rfl
        rw [twoArguments, bind_ok hlist] at hfails
        rcases cells with _ | ⟨target, _ | ⟨source, _ | ⟨extra, rest⟩⟩⟩
        · exact absurd rfl (hfails _ _)
        · exact absurd rfl (hfails _ _)
        · exact ⟨target, source, rfl⟩
        · exact absurd rfl (hfails _ _)
  refine ⟨target, source, ?_⟩
  rw [evalTwo, bind_ok (twoArguments_eq operator hgiven)] at hok
  have hok' : (ev target >>= fun v => ev source >>= fun w => pure (v, w)) m = .ok (v, w) m' := hok
  cases htarget : ev target m with
  | error e m₁ =>
      rw [bind_error htarget] at hok'
      cases hok'
  | ok v' m₁ =>
      rw [bind_ok htarget] at hok'
      cases hsource : ev source m₁ with
      | error e m₂ =>
          rw [bind_error hsource] at hok'
          cases hok'
      | ok w' m₂ =>
          rw [bind_ok hsource] at hok'
          cases hok'
          exact ⟨m₁, hgiven, rfl, hsource⟩

variable {n : Nat} {v : Ref} {m : Machine} {b : BindingId}

theorem run_set (ev : Evaluator) (arguments : Ref) : Builtin.set.run ev arguments =
    evalTwo ev "set" arguments >>= fun p => settableName p.1 >>= fun s => assign s p.2 := rfl

/-- Once its arguments are evaluated, `set` leaves the environment alone or puts a binding into it. -/
theorem set_cases {name value : Ref} (hs : m.Sound) (hvalue : m.heap.LiveRef value) :
    (finalMachine ((settableName name >>= fun s => assign s value) m)).env = m.env ∨
      ∃ b w m', (settableName name >>= fun s => assign s value) m = .ok w m' ∧
        m'.env = b :: m.env := by
  have hsame := finalMachine_settableName name m
  cases hsettled : settableName name m with
  | error e m' =>
      rw [hsettled] at hsame
      obtain rfl : m' = m := hsame
      rw [bind_error hsettled]
      exact Or.inl rfl
  | ok s m' =>
      rw [hsettled] at hsame
      obtain rfl : m' = m := hsame
      obtain ⟨w, m'', hassign⟩ := assign_isOk s value m'
      rw [bind_ok hsettled, hassign]
      rcases assign_cases hs hvalue hassign with henv | ⟨b, henv, -⟩
      · exact Or.inl henv
      · exact Or.inr ⟨b, w, m'', rfl, henv⟩

/-- `set` puts the one binding in front of the environment that its arguments do not put there. -/
theorem set_introduces {o : Addr} {arguments : Ref} {reached : Machine} {p : Primitive}
    (ha : Applies n v m (some o) arguments reached)
    (hprimitive : reached.heap.cell o = .live (.primitive p)) (hset : p.builtin = .set)
    (hs : reached.Sound) (harguments : reached.heap.LiveRef arguments) (hout : b ∉ reached.env)
    (hin : b ∈ (finalMachine (eval (n + 1) v m)).env) :
    Admits (fun ev => Builtin.set.run ev arguments) (eval n) reached b ∨
      ∃ f : Assignment n v m, f.after.env = b :: f.evaluated.env := by
  have hrun := ha.run_eq hprimitive
  rw [hset] at hrun
  have hprogram : Program False False reached (fun ev => evalTwo ev "set" arguments) _ :=
    evalTwo_program hs "set" harguments
  have hends := hprogram.ends (eval_keeps n) hs
  have hrest : ∀ p m₁, evalTwo (eval n) "set" arguments reached = .ok p m₁ →
      m₁.env <:+ (finalMachine ((settableName p.1 >>= fun s => assign s p.2) m₁)).env := by
    intro p m₁ htwo
    rw [htwo] at hends
    rcases set_cases hends.1 hends.2.2.2 with henv | ⟨b, w, m', heq, henv⟩
    · exact henv ▸ List.suffix_rfl
    · rw [heq]
      exact ⟨[b], henv.symm⟩
  rw [hrun, run_set] at hin
  rcases introduced_bind (x := fun ev => evalTwo ev "set" arguments)
    (f := fun p _ => settableName p.1 >>= fun s => assign s p.2)
    (hprogram.introduces (eval_keeps n) hs hout) hrest hin with
    had | ⟨⟨name, value⟩, m₁, htwo, hout₁, hin₁⟩
  · exact Or.inl had
  · right
    rw [htwo] at hends
    rcases set_cases hends.1 hends.2.2.2 with henv | ⟨b', w, m₂, hbound, henv⟩
    · exact absurd (henv ▸ hin₁) hout₁
    · obtain ⟨target, source, named, hgiven, hname, hvalue⟩ := evalTwo_eq_ok htwo
      have hresult : eval (n + 1) v m = .ok w m₂ := by
        rw [hrun, run_set, bind_ok htwo]
        exact hbound
      have hin₂ : b ∈ b' :: m₁.env := by
        rw [← henv]
        rw [hbound] at hin₁
        exact hin₁
      obtain rfl := (List.mem_cons.mp hin₂).resolve_right hout₁
      exact ⟨⟨o, p, arguments, reached, target, source, name, named, value, m₁, w, m₂, ha,
        hprimitive, hset, hgiven, hname, hvalue, hresult⟩, henv⟩

/-- What is applied puts into the environment what it admits, unless it is a `set`. -/
theorem apply_introduces {operator arguments : Ref} {reached : Machine}
    (ha : Applies n v m operator arguments reached) (hs : m.Sound) (hv : m.heap.LiveRef v)
    (hout : b ∉ reached.env) (hin : b ∈ (finalMachine (eval (n + 1) v m)).env) :
    Admits (fun ev => apply ev operator arguments) (eval n) reached b ∨
      ∃ f : Assignment n v m, f.after.env = b :: f.evaluated.env := by
  obtain ⟨hs₁, -, hoperator, harguments⟩ := ha.sound hs hv
  by_cases hset : ∃ o p, operator = some o ∧ reached.heap.cell o = .live (.primitive p) ∧
      p.builtin = .set
  · obtain ⟨o, p, rfl, hcell, hset⟩ := hset
    refine (set_introduces ha hcell hset hs₁ harguments hout hin).imp_left fun had => had.congr ?_
    intro ev
    rw [apply, see_bind, Heap.cell?, Option.map_some, hcell, ← hset]
  · left
    have hprogram : Program True False reached (fun ev => apply ev operator arguments) _ :=
      apply_program hs₁ hoperator harguments (fun _ _ _ _ _ => trivial)
        fun o p ho hcell hbuiltin => hset ⟨o, p, ho, hcell, hbuiltin⟩
    rw [ha.eval_eq] at hin
    exact hprogram.introduces (eval_keeps n) hs₁ hout hin

/-- **What one step of evaluation puts into its environment** it admits, or it is a `set`. -/
theorem eval_introduces (hs : m.Sound) (hv : m.heap.LiveRef v) (hout : b ∉ m.env)
    (hin : b ∈ (finalMachine (eval (n + 1) v m)).env) :
    Admits (fun ev => evalStep ev v) (eval n) m b ∨
      ∃ f : Assignment n v m, f.after.env = b :: f.evaluated.env := by
  by_cases hform : m.heap.IsForm v
  · obtain ⟨a, car, cdr, rfl, hpair, hnil⟩ := hform
    have hboth : ¬(car = none ∧ cdr = none) := fun hboth => by simp [hboth] at hnil
    have hfirst : Program False False m (fun ev => ev car) _ :=
      .evaluate ((Heap.liveRef_some.mp hv).pair hpair).1
    have hsame : ∀ ev : Evaluator, evalStep ev (some a) m =
        (ev car >>= fun operator => apply ev operator cdr) m := fun ev => evalStep_pair hpair hboth
    have hlater : ∀ operator m₁, eval n car m = .ok operator m₁ →
        m₁.env <:+ (finalMachine (apply (eval n) operator cdr m₁)).env := by
      intro operator m₁ hoperator
      have ha : Applies n (some a) m operator cdr m₁ := .intro hpair hboth hoperator
      obtain ⟨hs₁, -, hlive, hcdr⟩ := ha.sound hs hv
      have happly : Program True True m₁ (fun ev => apply ev operator cdr) _ :=
        apply_program hs₁ hlive hcdr (fun _ _ _ _ _ => trivial) fun _ _ _ _ _ => trivial
      exact (happly.ends (eval_keeps n) hs₁).final.2.env_suffix
    have hin' : b ∈ (finalMachine
        ((eval n car >>= fun operator => apply (eval n) operator cdr) m)).env := by
      rw [← hsame]
      exact hin
    rcases introduced_bind (x := fun ev => ev car) (f := fun operator ev => apply ev operator cdr)
      (hfirst.introduces (eval_keeps n) hs hout) hlater hin' with
      had | ⟨operator, m₁, hoperator, hout₁, hin₁⟩
    · exact Or.inl (had.congr hsame)
    · have happlies := Applies.intro hpair hboth hoperator
      refine (apply_introduces happlies hs hv hout₁ hin).imp_left fun had => ?_
      exact (hfirst.admits_bind (f := fun operator ev => apply ev operator cdr) (eval_keeps n) hs
        hoperator had).congr hsame
  · left
    have hroutine : Program False False m (fun ev => evalStep ev v) _ :=
      evalStep_routine hs hv fun hf => absurd hf hform
    exact hroutine.introduces (eval_keeps n) hs hout hin

/-! ## Evaluations in the same environment -/

/--
The evaluations within one that are made in its environment: itself, and what these ask for other
than the bodies of closures that they call.
-/
inductive AtHome (n : Nat) (v : Ref) (m : Machine) : Nat → Ref → Machine → Prop
  | whole : AtHome n v m n v m
  | part {k : Nat} {w w' : Ref} {s s' : Machine} (hw : AtHome n v m (k + 1) w s)
      (hask : Asks (fun ev => evalStep ev w) (eval k) s w' s')
      (hhome : ∀ c caller, ¬CallsClosure k w s c caller s') : AtHome n v m k w' s'

theorem AtHome.trans {k l : Nat} {w u : Ref} {s t : Machine} (hw : AtHome n v m k w s)
    (hu : AtHome k w s l u t) : AtHome n v m l u t := by
  induction hu with
  | whole => exact hw
  | part _ hask hhome ih => exact .part ih hask hhome

/-- A call is left in the environment of the caller, and that is part of the body's. -/
theorem CallsClosure.env_eq {c : Closure} {caller entered : Machine}
    (hc : CallsClosure n v m c caller entered) (hs : m.Sound) (hv : m.heap.LiveRef v) :
    (m.eval (n + 1) v).2.env = caller.env ∧ ∀ b ∈ caller.env, b ∈ entered.env := by
  obtain ⟨hs', hcalls, hbody, -⟩ := hc.calls hs hv
  obtain ⟨hs₁, -⟩ := hc.opened hs hv
  have he := (eval_keeps n c.body entered hs' hbody).final.2
  rw [← Machine.eval_snd] at he
  rw [hc.eval_eq]
  exact ⟨(hcalls.linked hs₁ he).chain_eq, fun b hb => hcalls.mem_env hb⟩

/--
**Where a binding comes from.** What an evaluation puts into its environment, a `set` has put there
that is evaluated in the same environment: it had all that was there before, and all that it left is
there in the end.
-/
theorem eval_origin (n : Nat) {v : Ref} {m : Machine} (hs : m.Sound) (hv : m.heap.LiveRef v)
    (hout : b ∉ m.env) (hin : b ∈ (finalMachine (eval n v m)).env) :
    ∃ k w s, AtHome n v m (k + 1) w s ∧ ∃ f : Assignment k w s, m.env <:+ f.evaluated.env ∧
      f.after.env = b :: f.evaluated.env ∧ f.after.env <:+ (finalMachine (eval n v m)).env := by
  induction n generalizing v m with
  | zero => exact absurd hin hout
  | succ n ih =>
      rcases eval_introduces hs hv hout hin with
        ⟨w, s, hask, hbefore, hout', hin', hafter⟩ | ⟨f, hputs⟩
      · -- a body that is asked for has the caller's bindings, so it cannot be new to it
        have hhome : ∀ c caller, ¬CallsClosure n v m c caller s := by
          intro c caller hc
          obtain ⟨henv, hmem⟩ := hc.env_eq hs hv
          rw [Machine.eval_snd] at henv
          exact hout' (hmem b (henv ▸ hin))
        obtain ⟨hs', hw⟩ := (evalStep_program hs hv).asked_sound (eval_keeps n) hs hask
        obtain ⟨k, u, t, hu, f, hbefore', hputs, hafter'⟩ := ih hs' hw hout' hin'
        exact ⟨k, u, t, .trans (.part .whole hask hhome) hu, f, hbefore.trans hbefore', hputs,
          hafter'.trans hafter⟩
      · refine ⟨n, v, m, .whole, f, (f.evolves hs hv).2.1.env_suffix, hputs, ?_⟩
        rw [f.result]
        exact List.suffix_rfl

/-! ## Evaluations in the body of a closure -/

/-- The evaluations within one that are made in the body of a closure. -/
def InBody (n : Nat) (v : Ref) (m : Machine) (l : Nat) (u : Ref) (t : Machine) : Prop :=
  ∃ k w s c caller entered, Nested n v m (k + 1) w s ∧ CallsClosure k w s c caller entered ∧
    Nested k c.body entered l u t

/-- **What a `set` in a body puts into an environment** is not in the one the whole ends with. -/
theorem InBody.outside {l : Nat} {u : Ref} {t : Machine} (hu : InBody n v m (l + 1) u t)
    (hs : m.Sound) (hv : m.heap.LiveRef v) (f : Assignment l u t) (hin : b ∈ f.after.env)
    (hout : b ∉ f.evaluated.env) :
    (m.eval n v).2.heap.Has (.binding b) ∧ b ∉ (m.eval n v).2.env := by
  obtain ⟨k, w, s, c, caller, entered, hw, hc, hu⟩ := hu
  obtain ⟨hs₁, hw₁⟩ := hw.sound hs hv
  obtain ⟨hs₂, hcalls, hbody, -⟩ := hc.calls hs₁ hw₁
  obtain ⟨hs₃, hu₃⟩ := hu.sound hs₂ hbody
  obtain ⟨hs₄, he₃, he₄⟩ := f.evolves hs₃ hu₃
  -- it is new where it is bound, so the caller does not have it
  have hnew : ¬f.evaluated.heap.Has (.binding b) := by
    obtain ⟨news, henv, hnews⟩ := he₄.grown
    rw [henv] at hin
    exact (hnews b ((List.mem_append.mp hin).resolve_right hout)).1
  have hentered := (hu.maintains (retains_invariant entered) hs₂ hbody).1 (.refl entered)
  have hcaller : b ∉ caller.env := by
    intro hb
    have hhas := (hc.opened hs₁ hw₁).1.env_has hb
    exact hnew (he₃.has (hentered.has _ ((Retains.of_calls hcalls).has _ hhas)))
  -- it is there when the call ends, in the environment of the caller
  have hended := (hu.maintains (retains_invariant f.after) hs₂ hbody).2
  rw [f.result, ← Machine.eval_snd] at hended
  have hcall : (s.eval (k + 1) w).2.heap.Has (.binding b) := by
    rw [hc.eval_eq]
    exact (hended (.refl f.after)).has _ (hs₄.env_has hin)
  have hleft : b ∉ (s.eval (k + 1) w).2.env := by
    rw [(hc.env_eq hs₁ hw₁).1]
    exact hcaller
  have hwhole := (hw.maintains (retains_invariant (s.eval (k + 1) w).2) hs hv).2
  rw [← Machine.eval_snd, ← Machine.eval_snd] at hwhole
  exact ⟨(hwhole (.refl _)).has _ hcall, (hwhole (.refl _)).outside b hcall hleft⟩

end ArenaLisp
