import ArenaLisp.Proofs.Session

/-!
# Invariants of machines

Evaluation does three things to a machine: it changes it in one of the two ways of `Changes`,
it enters calls and it leaves them. What all three keep is an `Invariant`, and every evaluation
keeps it, to any depth and however it ends. What releasing keeps as well is kept by whole
sessions.

The inductions are made here once, over programs, depths and steps. Every further invariant is
then a matter of the changes alone.
-/

namespace ArenaLisp

open EvalM

namespace Machine

/-- Whether a property of machines is kept by everything that evaluation does to one. -/
structure Invariant (I : Machine → Prop) : Prop where
  change : ∀ {m m' : Machine}, m.Sound → m.Changes m' → I m → I m'
  /-- The environment of a call is made in front of the caller's, and registered. -/
  enter : ∀ {m m' : Machine} {values : List Ref} {front : List BindingId}, m.Sound → m.Calls m' →
    m.heap.Enters m'.heap values m.env front m'.scope →
    (∀ v ∈ values, m.heap.LiveRef v ∧ m.Handed v) →
    (∀ b ∈ front, m'.Tracked (.binding b) ∧ m'.Handed (m'.heap.binding b).value) → I m → I m'
  /-- Coming back, the environment is an end of what it was. -/
  leave : ∀ {m : Machine} {c : Chain} {front env : List BindingId}, m.Sound →
    m.env = front ++ env → m.heap.Linked c env → I m → I { m with scope := c }

variable {I : Machine → Prop}

/-- An invariant does not depend on the log. -/
theorem Invariant.withLog (hI : Invariant I) {m : Machine} (hs : m.Sound) (hm : I m)
    (log : Array LogRecord) : I { m with log := log } :=
  hI.change hs (.build (Heap.Builds.refl (fun _ => False) m.heap) (fun _ hf => hf.elim) rfl
    (fun _ hn => hn) fun _ hn => Or.inl hn) hm

/-- Building an expression, registered or not, is a change. -/
theorem changes_store {m m' : Machine} {t : Tree} (ht : t.Plain)
    (hheap : m'.heap = (Heap.store t m.heap).2) (hscope : m'.scope = m.scope)
    (hgen : m'.arena.generation = m.arena.generation) (hmono : ∀ n, m.Tracked n → m'.Tracked n)
    (hnew : ∀ n, m'.Tracked n → m.Tracked n ∨ m'.heap.Holds (Heap.store t m.heap).1 n) :
    m.Changes m' := by
  have hc := Heap.store_copies t m.heap ht
  have hm' : m' = ⟨(Heap.store t m.heap).2, m'.arena, m.scope, m'.log⟩ := by
    cases m'
    simp_all
  rw [hm']
  refine .build hc (fun _ hf => hf.elim) hgen hmono fun n hn => ?_
  rcases hnew n hn with hn | hn
  · exact Or.inl hn
  · obtain ⟨p, hp, hreach⟩ := Heap.holds_iff.mp hn
    rw [hheap] at hreach
    exact Or.inr (Heap.Copies.reaches_made hc hp hreach)

end Machine

open Machine

variable {I : Machine → Prop}

/-! ## Evaluation -/

/-- Whether a way to evaluate keeps an invariant. -/
def Evaluator.Maintains (ev : Evaluator) (I : Machine → Prop) : Prop :=
  ∀ v (m : Machine), m.Sound → m.heap.LiveRef v → I m → I (finalMachine (ev v m))

theorem Program.maintains {calls binds : Prop} {α : Type} {m : Machine} {x : Evaluator → EvalM α}
    {P : Machine → α → Prop} (hp : Program calls binds m x P) (hI : Invariant I) {ev : Evaluator}
    (hev : ev.Keeps) (hkeep : ev.Maintains I) (hs : m.Sound) (hm : I m) :
    I (finalMachine (x ev m)) := by
  induction hp with
  | operate hx => exact hI.change hs hx.changes hm
  | evaluate hv => exact hkeep _ _ hs hv hm
  | @call m x body hx hbody =>
      show I (finalMachine ((x >>= fun c => inScope c (ev body)) m))
      have hends := hx.ends
      cases hcall : x m with
      | error e m' =>
          rw [bind_error hcall]
          exact hI.change hs (hx.failed e m' hcall).1 hm
      | ok c m' =>
          rw [hcall] at hends
          obtain ⟨hscope, hs', hc⟩ := hends
          obtain ⟨values, front, hent, hvalues, hfront⟩ := hx.entered c m' hcall
          have hlive := hc.grown.liveRef hbody
          have hm' : I { m' with scope := c } := hI.enter hs hc hent hvalues hfront hm
          obtain ⟨hs'', he⟩ := (hev body _ hs' hlive).final
          -- the body leaves its environment in front of the caller's, however it ends
          obtain ⟨news, henv, -⟩ := he.grown
          rw [show Machine.env { m' with scope := c } = front ++ m.env from hent.linked.chain_eq,
            ← List.append_assoc] at henv
          rw [bind_ok hcall, finalMachine_inScope, hscope]
          exact hI.leave hs'' henv (hc.linked hs he) (hkeep body _ hs' hlive hm')
  | @bind α β m x f P Q hx hf ihx ihf =>
      show I (finalMachine ((x ev >>= fun a => f a ev) m))
      have hends := hx.ends hev hs
      have hfirst := ihx hs hm
      cases hrun : x ev m with
      | ok a m' =>
          rw [hrun] at hends hfirst
          rw [bind_ok hrun]
          exact ihf m' a hends.1 hends.2.1 hends.2.2 hends.1 hfirst
      | error e m' =>
          rw [hrun] at hfirst
          rw [bind_error hrun]
          exact hfirst
  | weaken _ _ ih => exact ih hs hm

/-- **Evaluation keeps every invariant**, to any depth and however it ends. -/
theorem eval_maintains (hI : Invariant I) (n : Nat) : Evaluator.Maintains (eval n) I := by
  induction n with
  | zero => exact fun v m _ _ hm => hm
  | succ n ih =>
      intro v m hs hv hm
      exact (evalStep_program hs hv).maintains hI (eval_keeps n) ih hs hm

/-! ## Sessions -/

namespace Machine

/-- A property of rooted machines that is an invariant and is kept by releasing. -/
structure Persistent (I : Machine → Prop) : Prop where
  invariant : Invariant I
  release : ∀ {m : Machine}, m.Rooted → I m → I m.releaseAll.2

theorem Invariant.eval (hI : Invariant I) {m : Machine} (hs : m.Sound) (n : Nat) {v : Ref}
    (hv : m.heap.LiveRef v) (hm : I m) : I (m.eval n v).2 := by
  rw [eval_snd]
  exact eval_maintains hI n v m hs hv hm

/-- An expression is built and registered. -/
theorem Invariant.started (hI : Invariant I) {m : Machine} (hs : m.Sound) {t : Tree} (ht : t.Plain)
    (hm : I m) : I (m.started t) := by
  refine hI.change hs (changes_store ht rfl rfl rfl ?_ ?_) hm
  · exact fun n hn => Arena.mem_trackNodes.mpr (Or.inl hn)
  · intro n hn
    rcases Arena.mem_trackNodes.mp hn with hn | hn
    · exact Or.inl hn
    · exact Or.inr (Heap.holds_of_mem_nodes hn)

end Machine

namespace Interpreter

variable {i : Interpreter}

/-- A turn keeps what is persistent. -/
theorem execTree_persistent (hI : Persistent I) (hr : i.machine.Rooted) (depth : Nat) {t : Tree}
    (ht : t.Plain) (hm : I i.machine) : I (i.execTree depth t).2.machine := by
  obtain ⟨hr₁, -, hv⟩ := hr.started ht
  have hr₂ := (hr₁.eval depth hv).1
  have hm₂ := hI.invariant.eval hr₁.sound depth hv (hI.invariant.started hr.sound ht hm)
  rw [execTree_machine]
  exact hI.invariant.withLog hr₂.releaseAll.sound (hI.release hr₂ hm₂) _

theorem execAll_persistent (hI : Persistent I) (depth : Nat) {ts : List Tree}
    (hts : ∀ t ∈ ts, t.Plain) (hr : i.machine.Rooted) (hm : I i.machine) :
    I (i.execAll depth ts).2.2.machine := by
  induction ts generalizing i with
  | nil => exact hm
  | cons t ts ih =>
      have ht := hts t List.mem_cons_self
      exact ih (fun t' ht' => hts t' (List.mem_cons_of_mem _ ht'))
        (execTree_advances hr depth ht).1.rooted (execTree_persistent hI hr depth ht hm)

/-- **Every step keeps what is persistent.** -/
theorem step_persistent (hI : Persistent I) (hr : i.machine.Rooted) (s : Step)
    (hm : I i.machine) : I (i.step s).machine := by
  cases s with
  | exec depth e => exact execTree_persistent hI hr depth e.plain hm
  | eval depth e =>
      obtain ⟨hr₁, -, hv⟩ := hr.stored e.plain rfl
      refine hI.invariant.eval hr₁.sound depth hv (hI.invariant.change hr.sound ?_ hm)
      exact changes_store e.plain rfl rfl rfl (fun _ hn => hn) fun _ hn => Or.inl hn
  | load depth name text =>
      show I (i.load depth name text).2.machine
      rcases load_cases i depth name text with ⟨-, hsame⟩ | ⟨ts, -, hread, -, hload⟩
      · rw [hsame]
        exact hm
      · obtain ⟨_, -, hdata⟩ := readSource_ok hread
        rw [hload]
        exact execAll_persistent hI depth (readData_plain hdata) hr hm
  | release => exact hI.release hr hm

/-- **Every session keeps what is persistent.** -/
theorem run_persistent (hI : Persistent I) (steps : List Step) (hr : i.machine.Rooted)
    (hm : I i.machine) : I (i.run steps).machine := by
  induction steps generalizing i with
  | nil => exact hm
  | cons s steps ih => exact ih (step_advances hr s).rooted (step_persistent hI hr s hm)

end Interpreter

end ArenaLisp
