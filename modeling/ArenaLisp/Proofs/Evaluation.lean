import ArenaLisp.Proofs.Program

/-!
# What every evaluation does

What holds of every operation holds of every program, by induction on the program, and
so of evaluation to any depth, by induction on the depth.

- `eval_keeps`: evaluation that starts on a sound machine, of a live expression, ends on a
  sound one that evolved from it, with a live value if it gives any.
- `eval_mirrored`: it ends in the same way where released nodes were kept.
-/

namespace ArenaLisp

open EvalM Machine

theorem bind_ok {α β : Type} {x : EvalM α} {f : α → EvalM β} {m m' : Machine} {a : α}
    (hx : x m = .ok a m') : (x >>= f) m = f a m' := by
  simp only [bind, EStateM.bind, hx]

theorem bind_error {α β : Type} {x : EvalM α} {f : α → EvalM β} {m m' : Machine} {e : Halt}
    (hx : x m = .error e m') : (x >>= f) m = .error e m' := by
  simp only [bind, EStateM.bind, hx]

/-- What is seen does not change what it is seen in. -/
theorem see_bind {α β : Type} (f : Heap → α) (k : α → EvalM β) (m : Machine) :
    (see f >>= k) m = k (f m.heap) m := rfl

theorem scope_bind {α : Type} (k : Chain → EvalM α) (m : Machine) :
    (scope >>= k) m = k m.scope m := rfl

theorem length_of_mapM {α β : Type} {f : α → EvalM β} {xs : List α} {ys : List β} {m m' : Machine}
    (hok : xs.mapM f m = .ok ys m') : ys.length = xs.length := by
  induction xs generalizing ys m m' with
  | nil =>
      cases hok
      rfl
  | cons x xs ih =>
      rw [List.mapM_cons] at hok
      cases hx : f x m with
      | error e m₁ =>
          rw [bind_error hx] at hok
          cases hok
      | ok y m₁ =>
          rw [bind_ok hx] at hok
          cases hxs : xs.mapM f m₁ with
          | error e m₂ =>
              rw [bind_error hxs] at hok
              cases hok
          | ok ys' m₂ =>
              rw [bind_ok hxs] at hok
              cases hok
              rw [List.length_cons, List.length_cons, ih hxs]

theorem inScope_eq {α : Type} (c : Chain) (x : EvalM α) (m : Machine) :
    inScope c x m = match x { m with scope := c } with
      | .ok a m' => .ok a { m' with scope := m.scope }
      | .error e m' => .error e { m' with scope := m.scope } := by
  simp only [inScope]
  cases x { m with scope := c } <;> rfl

theorem finalMachine_inScope {α : Type} (c : Chain) (x : EvalM α) (m : Machine) :
    finalMachine (inScope c x m) =
      { finalMachine (x { m with scope := c }) with scope := m.scope } := by
  rw [inScope_eq]
  cases x { m with scope := c } <;> rfl

/-- Whether a result is a new value, made on a machine and registered there. -/
def Makes (r : EStateM.Result Halt Machine Ref) (m : Machine) (d : Datum) : Prop :=
  ∃ k m', r = .ok (some k) m' ∧ make d m = .ok (some k) m' ∧ ¬m.heap.Has (.value k) ∧
    m'.heap.cell k = .live d

theorem makes_make (m : Machine) (d : Datum) : Makes (make d m) m d :=
  ⟨⟨m.heap.cells.size⟩, _, rfl, rfl, Nat.lt_irrefl _, Heap.cell_new m.heap d⟩

/-- A list that is not empty applies the value of its first element. -/
theorem evalStep_pair {ev : Evaluator} {m : Machine} {a : Addr} {car cdr : Ref}
    (hcell : m.heap.cell a = .live (.pair car cdr)) (hnil : ¬(car = none ∧ cdr = none)) :
    evalStep ev (some a) m = (ev car >>= fun f => apply ev f cdr) m := by
  rw [evalStep, see_bind, Heap.cell?, Option.map_some, hcell]
  cases car with
  | some car => rfl
  | none =>
      cases cdr with
      | some cdr => rfl
      | none => exact absurd ⟨rfl, rfl⟩ hnil

theorem apply_closure {ev : Evaluator} {m : Machine} {o : Addr} {c : Closure} {arguments : Ref}
    (hcell : m.heap.cell o = .live (.closure c)) :
    apply ev (some o) arguments m = applyClosure ev c arguments m := by
  rw [apply, see_bind, Heap.cell?, Option.map_some, hcell]

/-- Given as many arguments as it has parameters, a closure passes them and calls its body. -/
theorem applyClosure_full {ev : Evaluator} {m : Machine} {c : Closure} {arguments : Ref}
    {given : List Ref} (hgiven : m.heap.elements? arguments = some given)
    (hfull : given.length = ((m.heap.elements? c.params).getD []).length) :
    applyClosure ev c arguments m = (given.mapM (passArgument ev) >>= fun values =>
      callScope c values >>= fun call => inScope call (ev c.body)) m := by
  rw [applyClosure, see_bind, hgiven]
  dsimp only
  rw [see_bind, if_neg (by omega)]
  cases hrun : given.mapM (passArgument ev) m with
  | error e m' => rw [bind_error hrun, bind_error hrun]
  | ok values m' =>
      have hlength := length_of_mapM hrun
      rw [bind_ok hrun, bind_ok hrun, if_neg (by omega)]

namespace Machine

theorem Ends.mono {α : Type} {m m' : Machine} {P : Machine → α → Prop}
    {r : EStateM.Result Halt Machine α} (hs : m.Sound) (he : m.Evolves m') (hr : m'.Ends P r) :
    m.Ends P r := by
  cases r with
  | ok a m'' => exact ⟨hr.1, he.trans hs hr.2.1, hr.2.2⟩
  | error e m'' => exact ⟨hr.1, he.trans hs hr.2.1, hr.2.2⟩

theorem Ends.weaken {α : Type} {m : Machine} {P Q : Machine → α → Prop}
    {r : EStateM.Result Halt Machine α} (hr : m.Ends P r) (hPQ : ∀ m' a, P m' a → Q m' a) :
    m.Ends Q r := by
  cases r with
  | ok a m' => exact ⟨hr.1, hr.2.1, hPQ m' a hr.2.2⟩
  | error e m' => exact hr

/-- Coming back from a call, whatever came of it. -/
theorem Ends.leave {m m' : Machine} {call : Chain} {body : Ref} {ev : Evaluator} (hs : m.Sound)
    (hscope : m'.scope = m.scope) (hc : m.Calls { m' with scope := call })
    (hr : Ends { m' with scope := call } (fun m'' w => m''.heap.LiveRef w)
      (ev body { m' with scope := call })) :
    m.Ends (fun m'' w => m''.heap.LiveRef w) (inScope call (ev body) m') := by
  rw [inScope_eq, hscope]
  cases hend : ev body { m' with scope := call } with
  | ok w m'' =>
      rw [hend] at hr
      obtain ⟨hs', he'⟩ := hs.leave hc hr.2.1 hr.1
      exact ⟨hs', he', hr.2.2⟩
  | error e m'' =>
      rw [hend] at hr
      obtain ⟨hs', he'⟩ := hs.leave hc hr.2.1 hr.1
      exact ⟨hs', he', hr.2.2⟩

end Machine

/-! ## Soundness -/

/-- Whether a way to evaluate keeps machines sound. -/
def Evaluator.Keeps (ev : Evaluator) : Prop :=
  ∀ v (m : Machine), m.Sound → m.heap.LiveRef v → m.Ends (fun m' w => m'.heap.LiveRef w) (ev v m)

theorem Program.ends {calls binds : Prop} {α : Type} {m : Machine} {x : Evaluator → EvalM α}
    {P : Machine → α → Prop} (hp : Program calls binds m x P) {ev : Evaluator} (hev : ev.Keeps)
    (hs : m.Sound) : m.Ends P (x ev m) := by
  induction hp with
  | operate hx => exact hx.ends
  | evaluate hv => exact hev _ _ hs hv
  | @call m x body hx hbody =>
      show m.Ends _ ((x >>= fun c => inScope c (ev body)) m)
      have hends := hx.ends
      cases hcall : x m with
      | ok c m' =>
          rw [hcall] at hends
          obtain ⟨hscope, hs', hc⟩ := hends
          rw [bind_ok hcall]
          exact Ends.leave hs hscope hc (hev body _ hs' (hc.grown.liveRef hbody))
      | error e m' =>
          rw [hcall] at hends
          rw [bind_error hcall]
          exact hends
  | @bind α β m x f P Q hx hf ihx ihf =>
      show m.Ends Q ((x ev >>= fun a => f a ev) m)
      have hends := ihx hs
      cases hrun : x ev m with
      | ok a m' =>
          rw [hrun] at hends
          rw [bind_ok hrun]
          exact Ends.mono hs hends.2.1 (ihf m' a hends.1 hends.2.1 hends.2.2 hends.1)
      | error e m' =>
          rw [hrun] at hends
          rw [bind_error hrun]
          exact hends
  | weaken _ hPQ ih => exact (ih hs).weaken hPQ

theorem evalStep_keeps {ev : Evaluator} (hev : ev.Keeps) : Evaluator.Keeps (evalStep ev) :=
  fun _ _ hs hv => (evalStep_program hs hv).ends hev hs

/-- **Evaluation keeps machines sound**, to any depth and however it ends. -/
theorem eval_keeps (n : Nat) : Evaluator.Keeps (eval n) := by
  induction n with
  | zero => exact fun v m hs _ => ⟨hs, .refl m, by simp⟩
  | succ n ih => exact evalStep_keeps ih

/-! ## What was released takes no part -/

/-- Whether a way to evaluate does the same where released nodes were kept. -/
def Evaluator.Mirrored (ev : Evaluator) : Prop :=
  ∀ v (m m' : Machine), m.Sound → m.heap.LiveRef v → m.Mirrors m' → SameEnd (ev v m) (ev v m')

theorem SameEnd.bind {α β : Type} {x : EvalM α} {f : α → EvalM β} {m m' : Machine}
    (hx : SameEnd (x m) (x m'))
    (hf : ∀ a m₁ m₁', x m = .ok a m₁ → m₁.Mirrors m₁' → SameEnd (f a m₁) (f a m₁')) :
    SameEnd ((x >>= f) m) ((x >>= f) m') := by
  cases h : x m with
  | ok a m₁ =>
      cases h' : x m' with
      | ok a' m₁' =>
          rw [h, h'] at hx
          obtain ⟨rfl, hm⟩ := hx
          rw [bind_ok h, bind_ok h']
          exact hf _ _ _ h hm
      | error e m₁' => rw [h, h'] at hx; exact hx.elim
  | error e m₁ =>
      cases h' : x m' with
      | ok a' m₁' => rw [h, h'] at hx; exact hx.elim
      | error e' m₁' =>
          rw [h, h'] at hx
          rw [bind_error h, bind_error h']
          exact hx

theorem SameEnd.inScope {x : EvalM Ref} {c : Chain} {m m' : Machine} (hm : m.Mirrors m')
    (hx : SameEnd (x { m with scope := c }) (x { m' with scope := c })) :
    SameEnd (inScope c x m) (inScope c x m') := by
  rw [inScope_eq, inScope_eq]
  cases h : x { m with scope := c } with
  | ok a m₁ =>
      cases h' : x { m' with scope := c } with
      | ok a' m₁' =>
          rw [h, h'] at hx
          exact ⟨hx.1, hx.2.heap, hx.2.arena, hm.scope, hx.2.log⟩
      | error e m₁' => rw [h, h'] at hx; exact hx.elim
  | error e m₁ =>
      cases h' : x { m' with scope := c } with
      | ok a' m₁' => rw [h, h'] at hx; exact hx.elim
      | error e' m₁' =>
          rw [h, h'] at hx
          exact ⟨hx.1, hx.2.heap, hx.2.arena, hm.scope, hx.2.log⟩

theorem Program.mirrored {calls binds : Prop} {α : Type} {m m' : Machine} {x : Evaluator → EvalM α}
    {P : Machine → α → Prop} (hp : Program calls binds m x P) {ev : Evaluator} (hev : ev.Keeps)
    (hmir : ev.Mirrored) (hs : m.Sound) (hm : m.Mirrors m') : SameEnd (x ev m) (x ev m') := by
  induction hp generalizing m' with
  | operate hx => exact hx.mirrored m' hm
  | evaluate hv => exact hmir _ _ _ hs hv hm
  | @call m x body hx hbody =>
      have hends := hx.ends
      refine SameEnd.bind (hx.mirrored m' hm) fun c m₁ m₁' hcall hm₁ => ?_
      rw [hcall] at hends
      obtain ⟨_, hs', hc⟩ := hends
      refine SameEnd.inScope hm₁ (hmir body _ _ hs' (hc.grown.liveRef hbody) ?_)
      exact ⟨hm₁.heap, hm₁.arena, rfl, hm₁.log⟩
  | @bind α β m x f P Q hx hf ihx ihf =>
      have hends := hx.ends hev hs
      refine SameEnd.bind (ihx hs hm) fun a m₁ m₁' hrun hm₁ => ?_
      rw [hrun] at hends
      exact ihf m₁ a hends.1 hends.2.1 hends.2.2 hends.1 hm₁
  | weaken _ _ ih => exact ih hs hm

/-- **Evaluation does not see what was released.** -/
theorem eval_mirrored (n : Nat) : Evaluator.Mirrored (eval n) := by
  induction n with
  | zero => exact fun v m m' _ _ hm => ⟨rfl, hm⟩
  | succ n ih =>
      intro v m m' hs hv hm
      exact (evalStep_program hs hv).mirrored (eval_keeps n) ih hs hm

end ArenaLisp
