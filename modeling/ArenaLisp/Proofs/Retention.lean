import ArenaLisp.Proofs.Invariant
import ArenaLisp.Proofs.Nested
import ArenaLisp.Proofs.Simulation

/-!
# What is there stays, or is released

`Evolves` compares the two ends of one evaluation. `Retains` compares any two machines of which
one comes after the other: within an evaluation, in the environments of calls, and across the
releases between turns. What was in the heap is as it was or is released, with the exception of
bindings that `set` can reach. A binding outside the environment stays outside.

So a value that is not released is the value it was. More can be said of two such machines, and all
of it is said in the same way: a relation, which may count the releases, is `Respected` when it
holds from one machine to the next, whatever a session does. That it holds to every later one needs
that evaluations come one after the other, which is said about programs: what is asked for comes
after the start, what one evaluation leaves comes before the next one that is asked for, and before
the end.
-/

namespace ArenaLisp

open EvalM Machine

theorem Machine.Ends.not_gaveUp {α : Type} {m : Machine} {P : Machine → α → Prop}
    {r : EStateM.Result Halt Machine α} (hr : m.Ends P r) : gaveUp r = false := by
  cases r with
  | ok a m' => rfl
  | error e m' =>
      cases e with
      | dangling => exact absurd rfl hr.2.2
      | error e | tooDeep => rfl

namespace Machine

/-- Whether a machine can come after another. -/
structure Retains (m m' : Machine) : Prop where
  has : ∀ n, m.heap.Has n → m'.heap.Has n
  value : ∀ a, m.heap.Has (.value a) →
    m.heap.AgreeAt m'.heap (.value a) ∨ m'.heap.Released (.value a)
  binding : ∀ b, m.heap.Has (.binding b) → b ∉ m.env →
    m.heap.AgreeAt m'.heap (.binding b) ∨ m'.heap.Released (.binding b)
  outside : ∀ b, m.heap.Has (.binding b) → b ∉ m.env → b ∉ m'.env

namespace Retains

variable {m m' m'' : Machine}

/-- Neither the arena nor the log matters. -/
theorem of_eq (hheap : m'.heap = m.heap) (hscope : m'.scope = m.scope) : m.Retains m' where
  has n hn := by rwa [hheap]
  value a _ := Or.inl (by rw [hheap]; exact Heap.AgreeAt.refl _ _)
  binding b _ _ := Or.inl (by rw [hheap]; exact Heap.AgreeAt.refl _ _)
  outside b _ hb := by rwa [Machine.env, hheap, hscope]

theorem refl (m : Machine) : m.Retains m := of_eq rfl rfl

theorem trans (h : m.Retains m') (h' : m'.Retains m'') : m.Retains m'' := by
  have hjoin : ∀ n, m.heap.AgreeAt m'.heap n ∨ m'.heap.Released n →
      m'.heap.AgreeAt m''.heap n ∨ m''.heap.Released n →
      m.heap.AgreeAt m''.heap n ∨ m''.heap.Released n := by
    intro n hn hn'
    rcases hn' with ha' | hr'
    · rcases hn with ha | hr
      · exact Or.inl (ha.trans ha')
      · exact Or.inr (ha'.released_iff.mpr hr)
    · exact Or.inr hr'
  refine ⟨fun n hn => h'.has n (h.has n hn), fun a ha => ?_, fun b hb hout => ?_, fun b hb hout => ?_⟩
  · exact hjoin _ (h.value a ha) (h'.value a (h.has _ ha))
  · exact hjoin _ (h.binding b hb hout) (h'.binding b (h.has _ hb) (h.outside b hb hout))
  · exact h'.outside b (h.has _ hb) (h.outside b hb hout)

theorem of_evolves (he : m.Evolves m') : m.Retains m' where
  has n hn := he.has hn
  value a ha := Or.inl (he.cell a ha)
  binding b hb hout := Or.inl (he.agreeAt hb fun b' hb' heq => by
    cases heq
    exact hout hb')
  outside b hb hout hmem := by
    obtain ⟨news, henv, hnews⟩ := he.grown
    rw [henv] at hmem
    rcases List.mem_append.mp hmem with hmem | hmem
    · exact (hnews b hmem).1 hb
    · exact hout hmem

theorem of_calls (hc : m.Calls m') : m.Retains m' where
  has n hn := hc.grown.has hn
  value a ha := Or.inl (hc.grown.cell a ha)
  binding b hb _ := Or.inl (hc.grown.binding b hb)
  outside b hb hout hmem := by
    obtain ⟨front, henv, hfront⟩ := hc.env
    rw [henv] at hmem
    rcases List.mem_append.mp hmem with hmem | hmem
    · exact hfront b hmem hb
    · exact hout hmem

/-- Coming back from a call, some bindings leave the environment. -/
theorem of_leave {c : Chain} {front env : List BindingId} (henv : m.env = front ++ env)
    (hlinked : m.heap.Linked c env) : m.Retains { m with scope := c } where
  has _ hn := hn
  value _ _ := Or.inl (Heap.AgreeAt.refl _ _)
  binding _ _ _ := Or.inl (Heap.AgreeAt.refl _ _)
  outside _ _ hout hmem := hout (mem_env_of_suffix henv hlinked hmem)

/-- Releasing everything that is registered. -/
theorem of_releaseAll (hr : m.Rooted) : m.Retains m.releaseAll.2 := by
  have hc := Heap.clears_releaseAll m.arena m.heap
  have hcleared : ∀ n, m.heap.AgreeAt (m.arena.releaseAll m.heap).2 n ∨
      (m.arena.releaseAll m.heap).2.Released n := by
    intro n
    rcases hc.cleared n with ha | ⟨hreleased, -⟩
    · exact Or.inl ha
    · exact Or.inr hreleased
  refine ⟨fun n hn => hc.has_iff.mpr hn, fun a _ => hcleared _, fun b _ _ => hcleared _, ?_⟩
  intro b _ hout
  rw [hr.releaseAll_env]
  exact hout

/-- Nothing of a value that is not released has changed. -/
theorem agreeAt (h : m.Retains m') (hs : m.Sound) {v : Ref} (hv : m.heap.LiveRef v)
    (hlive : m'.heap.LiveRef v) {k : Node} (hk : m.heap.Holds v k) : m.heap.AgreeAt m'.heap k := by
  obtain ⟨a, ha, hk⟩ := hk
  -- along the path: as far as nothing has changed, it is a path of the later heap too
  have hstep : ∀ k, m.heap.Reaches (.value a) k → m'.heap.Reaches (.value a) k →
      m.heap.AgreeAt m'.heap k := by
    intro k hk hk'
    have hnot := (hlive k ⟨a, ha, hk'⟩).2
    have hhas := (hv k ⟨a, ha, hk⟩).1
    cases k with
    | value a' => exact (h.value a' hhas).resolve_right hnot
    | binding b =>
        have hout : b ∉ m.env := fun hb => hs.sealed a b hb hk
        exact (h.binding b hhas hout).resolve_right hnot
  have hpath : m'.heap.Reaches (.value a) k ∧ m.heap.AgreeAt m'.heap k := by
    induction hk with
    | refl => exact ⟨Heap.Reaches.refl _, hstep _ (Heap.Reaches.refl _) (Heap.Reaches.refl _)⟩
    | @tail n k hn hpart ih =>
        have hpart' : k ∈ m'.heap.parts n := by
          rw [ih.2.parts_eq]
          exact hpart
        have hk' := ih.1.trans (Heap.Reaches.of_part hpart')
        exact ⟨hk', hstep k (Relation.ReflTransGen.tail hn hpart) hk'⟩
  exact hpath.2

/-- **A value that is not released is the value it was.** -/
theorem unfolds (h : m.Retains m') (hs : m.Sound) {v : Ref} {t : Tree} (hu : m.heap.Unfolds v t)
    (hlive : m'.heap.LiveRef v) : m'.heap.Unfolds v t :=
  hu.congr fun _ hk => h.agreeAt hs hu.liveRef hlive hk

/-- It is made of the nodes it was made of. -/
theorem holds_iff (h : m.Retains m') (hs : m.Sound) {v : Ref} (hv : m.heap.LiveRef v)
    (hlive : m'.heap.LiveRef v) {k : Node} : m'.heap.Holds v k ↔ m.heap.Holds v k :=
  Heap.holds_congr fun _ hl => h.agreeAt hs hv hlive hl

end Retains

/--
A relation that holds from one machine to the next, whatever a session does, and so from every
machine to every later one. The number is how often everything registered is released in between.
-/
structure Respected (R : Nat → Machine → Machine → Prop) : Prop where
  refl : ∀ m, R 0 m m
  trans : ∀ {k k' : Nat} {m m' m'' : Machine}, R k m m' → R k' m' m'' → R (k + k') m m''
  evolves : ∀ {m m' : Machine}, m.Evolves m' → R 0 m m'
  calls : ∀ {m m' : Machine}, m.Calls m' → R 0 m m'
  leave : ∀ {m : Machine} {c : Chain} {front env : List BindingId}, m.env = front ++ env →
    m.heap.Linked c env → R 0 m { m with scope := c }
  release : ∀ {m : Machine}, m.Rooted → R 1 m m.releaseAll.2

/-- The log does not matter. -/
theorem Evolves.withLog (m : Machine) (log : Array LogRecord) : m.Evolves { m with log := log } :=
  have h := Evolves.refl m
  ⟨h.cells_le, h.bindings_le, h.cell, h.fixed, h.written, h.grown, h.tracked, h.lasting,
    h.generation⟩

theorem retains_respected : Respected fun _ => Retains :=
  ⟨.refl, .trans, .of_evolves, .of_calls, .of_leave, .of_releaseAll⟩

variable {R : Nat → Machine → Machine → Prop}

/-- To come after a machine is an invariant, with any number of releases in between. -/
theorem Respected.invariant (hR : Respected R) (k : Nat) (m : Machine) : Invariant (R k m) where
  change hs hc h := hR.trans h (hR.evolves (hc.keeps hs).2)
  enter _ hc _ _ _ h := hR.trans h (hR.calls hc)
  leave _ henv hlinked h := hR.trans h (hR.leave henv hlinked)

theorem retains_invariant (m : Machine) : Invariant m.Retains := retains_respected.invariant 0 m

end Machine

theorem Evaluator.Keeps.respects {ev : Evaluator} (hev : ev.Keeps)
    {R : Nat → Machine → Machine → Prop} (hR : Respected R) (k : Nat) (m : Machine) :
    ev.Maintains (R k m) :=
  fun v _ hs hv h => hR.trans h (hR.evolves (hev v _ hs hv).final.2)

/-! ## Evaluations in their order -/

theorem Evaluator.haltingAt_keeps {ev : Evaluator} (hev : ev.Keeps) {halt : Halt}
    (hne : halt ≠ .dangling) (w : Ref) (s : Machine) : (ev.haltingAt w s halt).Keeps := by
  intro v m hs hv
  by_cases heq : v = w ∧ m = s
  · rw [haltingAt, if_pos heq]
    exact ⟨hs, .refl m, hne⟩
  · rw [haltingAt, if_neg heq]
    exact hev v m hs hv

theorem Evaluator.haltingAt_gaveUp {ev : Evaluator} (hev : ev.Keeps) {v w : Ref} {m s : Machine}
    (hs : m.Sound) (hv : m.heap.LiveRef v)
    (hup : gaveUp (ev.haltingAt w s .dangling v m) = true) : v = w ∧ m = s := by
  refine Classical.byContradiction fun hne => ?_
  rw [haltingAt, if_neg hne, (hev v m hs hv).not_gaveUp] at hup
  cases hup

/-- Giving up at one evaluation is the only difference to halting there in another way. -/
theorem Evaluator.haltingAt_follows (ev : Evaluator) (w : Ref) (s : Machine) :
    (ev.haltingAt w s .dangling).Follows ev ∧
      ∀ halt, (ev.haltingAt w s .dangling).Follows (ev.haltingAt w s halt) := by
  refine ⟨fun v m _ _ hup => ?_, fun halt v m _ _ hup => ?_⟩
  · by_cases heq : v = w ∧ m = s
    · rw [haltingAt, if_pos heq] at hup
      cases hup
    · rw [haltingAt, if_neg heq]
  · by_cases heq : v = w ∧ m = s
    · rw [haltingAt, if_pos heq] at hup
      cases hup
    · rw [haltingAt, haltingAt, if_neg heq, if_neg heq]

/-- A call gives up only in its body. -/
theorem Machine.Opens.of_gaveUp {m : Machine} {x : EvalM Chain} {body : Ref} {ev : Evaluator}
    (hx : m.Opens x) (hbody : m.heap.LiveRef body)
    (hup : gaveUp ((x >>= fun c => inScope c (ev body)) m) = true) :
    ∃ c m', x m = .ok c m' ∧ m'.scope = m.scope ∧ Sound { m' with scope := c } ∧
      m.Calls { m' with scope := c } ∧ m'.heap.LiveRef body ∧
      gaveUp (ev body { m' with scope := c }) = true := by
  have hends := hx.ends
  cases hcall : x m with
  | error e m' =>
      rw [hcall] at hends
      rw [bind_error hcall] at hup
      cases e with
      | dangling => exact absurd rfl hends.2.2
      | error e | tooDeep => cases hup
  | ok c m' =>
      rw [hcall] at hends
      obtain ⟨hscope, hs', hc⟩ := hends
      rw [bind_ok hcall, gaveUp_inScope] at hup
      exact ⟨c, m', rfl, hscope, hs', hc, hc.grown.liveRef hbody, hup⟩

section

variable {calls binds : Prop} {α : Type} {m : Machine} {x : Evaluator → EvalM α}
  {P : Machine → α → Prop} {ev : Evaluator} {w w' : Ref} {s s' : Machine}
  {R : Nat → Machine → Machine → Prop}

/-- A program that does not give up at an evaluation does not come to it. -/
theorem Program.passes_by (hp : Program calls binds m x P) (hev : ev.Keeps) (hs : m.Sound)
    (hup : gaveUp (x (ev.haltingAt w s .dangling) m) = false) :
    ∀ halt, x (ev.haltingAt w s halt) m = x ev m := by
  have hsame := hp.follows hev (ev.haltingAt_follows w s).1 hs hup
  intro halt
  by_cases hdangling : halt = .dangling
  · rw [hdangling, hsame]
  · rw [← hsame]
    exact (hp.follows (ev.haltingAt_keeps hev hdangling w s) ((ev.haltingAt_follows w s).2 halt) hs
      hup).symm

/--
A program that gives up at an evaluation asks for it. What is invariant and true at the start is
true where the evaluation starts, and what is true where it ends is true at the end.
-/
theorem Program.asked (hp : Program calls binds m x P) (hev : ev.Keeps) (hs : m.Sound)
    (hup : gaveUp (x (ev.haltingAt w s .dangling) m) = true) :
    Asks x ev m w s ∧ ∀ I : Machine → Prop, Invariant I → ev.Maintains I →
      (I m → I s) ∧ (I (finalMachine (ev w s)) → I (finalMachine (x ev m))) := by
  induction hp with
  | @operate α m x P hx =>
      have hnot : gaveUp (x m) = false := hx.ends.not_gaveUp
      exact absurd (show gaveUp (x m) = true from hup) (by simp [hnot])
  | @evaluate m v hv =>
      obtain ⟨rfl, rfl⟩ := ev.haltingAt_gaveUp hev hs hv hup
      exact ⟨⟨m, fun halt => if_pos ⟨rfl, rfl⟩⟩, fun I _ _ => ⟨id, id⟩⟩
  | @call m x body hx hbody _ =>
      have hup' : gaveUp ((x >>= fun c => inScope c (ev.haltingAt w s .dangling body)) m) = true := hup
      obtain ⟨c, m', hcall, hscope, hs', hc, hlive, hbody'⟩ := hx.of_gaveUp hbody hup'
      obtain ⟨rfl, rfl⟩ := ev.haltingAt_gaveUp hev hs' hlive hbody'
      refine ⟨⟨{ m' with scope := m'.scope }, fun halt => ?_⟩, fun I hI _ => ⟨fun hm => ?_, fun hm => ?_⟩⟩
      · show (x >>= fun c => inScope c _) m = _
        rw [bind_ok hcall, inScope_eq, Evaluator.haltingAt, if_pos ⟨rfl, rfl⟩]
      · obtain ⟨values, front, hent, hvalues, hfront⟩ := hx.entered c m' hcall
        exact hI.enter hs hc hent hvalues hfront hm
      · obtain ⟨front, hfront, -⟩ := hc.env
        obtain ⟨hs'', he⟩ := (hev body _ hs' hlive).final
        obtain ⟨news, henv, -⟩ := he.grown
        rw [hfront, ← List.append_assoc] at henv
        show I (finalMachine ((x >>= fun c => inScope c (ev body)) m))
        rw [bind_ok hcall, finalMachine_inScope, hscope]
        exact hI.leave hs'' henv (hc.linked hs he) hm
  | @bind α β m x f P Q hx hf ihx ihf =>
      have hends := hx.ends hev hs
      have hup' : gaveUp ((x (ev.haltingAt w s .dangling) >>= fun a =>
        f a (ev.haltingAt w s .dangling)) m) = true := hup
      show Asks (fun ev => x ev >>= fun a => f a ev) ev m w s ∧ ∀ I : Machine → Prop, _ → _ →
        (I m → I s) ∧ (_ → I (finalMachine ((x ev >>= fun a => f a ev) m)))
      by_cases hfirst : gaveUp (x (ev.haltingAt w s .dangling) m) = true
      · obtain ⟨hask, hinv⟩ := ihx hs hfirst
        refine ⟨hask.bind, fun I hI hkeep => ⟨(hinv I hI hkeep).1, fun hm => ?_⟩⟩
        have hthen := (hinv I hI hkeep).2 hm
        cases hrun : x ev m with
        | error e m₁ =>
            rw [hrun] at hthen
            rw [bind_error hrun]
            exact hthen
        | ok a m₁ =>
            rw [hrun] at hends hthen
            rw [bind_ok hrun]
            exact (hf m₁ a hends.1 hends.2.1 hends.2.2).maintains hI hev hkeep hends.1 hthen
      · have hsame := hx.passes_by hev hs (eq_false_of_ne_true hfirst)
        cases hrun : x ev m with
        | error e m₁ =>
            rw [hrun] at hends
            rw [bind_error ((hsame .dangling).trans hrun)] at hup'
            cases e with
            | dangling => exact absurd rfl hends.2.2
            | error e | tooDeep => cases hup'
        | ok a m₁ =>
            have hmaintains := fun I hI hkeep => hx.maintains (I := I) hI hev hkeep hs
            rw [hrun] at hends hmaintains
            rw [bind_ok ((hsame .dangling).trans hrun)] at hup'
            obtain ⟨⟨m', hhalts⟩, hinv⟩ := ihf m₁ a hends.1 hends.2.1 hends.2.2 hends.1 hup'
            refine ⟨⟨m', fun halt => ?_⟩, fun I hI hkeep => ⟨fun hm => ?_, fun hm => ?_⟩⟩
            · exact (bind_ok ((hsame halt).trans hrun)).trans (hhalts halt)
            · exact (hinv I hI hkeep).1 (hmaintains I hI hkeep hm)
            · rw [bind_ok hrun]
              exact (hinv I hI hkeep).2 hm
  | weaken _ _ ih => exact ih hs hup

/-- What the rest of a program asks for, the whole asks for, if it comes to the rest. -/
theorem Program.asks_bind {β : Type} {f : α → Evaluator → EvalM β} {a : α} {m₁ : Machine}
    (hx : Program calls binds m x P) (hev : ev.Keeps) (hs : m.Sound) (hrun : x ev m = .ok a m₁)
    (hask : Asks (f a) ev m₁ w s) : Asks (fun ev => x ev >>= fun a => f a ev) ev m w s := by
  by_cases hup : gaveUp (x (ev.haltingAt w s .dangling) m) = true
  · exact (hx.asked hev hs hup).1.bind
  · have hsame := hx.passes_by hev hs (eq_false_of_ne_true hup)
    obtain ⟨m', hhalts⟩ := hask
    exact ⟨m', fun halt => (bind_ok ((hsame halt).trans hrun)).trans (hhalts halt)⟩

/-- What the application of the operator asks for, the evaluation of the list asks for. -/
theorem Asks.applied {a : Addr} {car cdr operator : Ref} {m₁ : Machine} (hev : ev.Keeps)
    (hs : m.Sound) (hv : m.heap.LiveRef (some a)) (hcell : m.heap.cell a = .live (.pair car cdr))
    (hnil : ¬(car = none ∧ cdr = none)) (hoperator : ev car m = .ok operator m₁)
    (hask : Asks (fun ev => apply ev operator cdr) ev m₁ w s) :
    Asks (fun ev => evalStep ev (some a)) ev m w s := by
  have hfirst : Program False False m (fun ev => ev car) _ :=
    .evaluate ((Heap.liveRef_some.mp hv).pair hcell).1
  exact (hfirst.asks_bind (f := fun operator ev => apply ev operator cdr) hev hs hoperator
    hask).congr fun ev => evalStep_pair hcell hnil

/-- What is asked for starts after the program, which ends after it. -/
theorem Program.asked_respects (hp : Program calls binds m x P) (hev : ev.Keeps) (hs : m.Sound)
    (hR : Respected R) (hup : gaveUp (x (ev.haltingAt w s .dangling) m) = true) :
    R 0 m s ∧ R 0 (finalMachine (ev w s)) (finalMachine (x ev m)) := by
  have hasked := (hp.asked hev hs hup).2
  exact ⟨(hasked _ (hR.invariant 0 m) (hev.respects hR 0 m)).1 (hR.refl m),
    (hasked _ (hR.invariant 0 _) (hev.respects hR 0 _)).2 (hR.refl _)⟩

theorem Asks.gaveUp (hask : Asks x ev m w s) :
    gaveUp (x (ev.haltingAt w s .dangling) m) = true := by
  obtain ⟨m', hm'⟩ := hask
  rw [hm' .dangling]
  rfl

/--
Of two evaluations that a program asks for, the second starts on a machine that comes after the
end of the first. That one comes first is said by halting at the other: it is asked for still.
-/
theorem Program.asked_next (hp : Program calls binds m x P) (hev : ev.Keeps) (hs : m.Sound)
    (hR : Respected R) (hne : ¬(w = w' ∧ s = s'))
    (hup' : gaveUp (x (ev.haltingAt w' s' .dangling) m) = true)
    (hup : gaveUp (x ((ev.haltingAt w' s' .tooDeep).haltingAt w s .dangling) m) = true) :
    R 0 (finalMachine (ev w s)) s' := by
  have hkeeps : (ev.haltingAt w' s' .tooDeep).Keeps := ev.haltingAt_keeps hev (by simp) w' s'
  have hvalue : ev.haltingAt w' s' .tooDeep w s = ev w s := by
    rw [Evaluator.haltingAt, if_neg hne]
  induction hp with
  | @operate α m x P hx =>
      have hnot : ArenaLisp.gaveUp (x m) = false := hx.ends.not_gaveUp
      exact absurd (show ArenaLisp.gaveUp (x m) = true from hup) (by simp [hnot])
  | @evaluate m v hv =>
      -- only one value is asked for, so the two are the same
      obtain ⟨rfl, rfl⟩ := ev.haltingAt_gaveUp hev hs hv hup'
      obtain ⟨rfl, rfl⟩ := Evaluator.haltingAt_gaveUp hkeeps hs hv hup
      exact absurd ⟨rfl, rfl⟩ hne
  | @call m x body hx hbody =>
      obtain ⟨c, m', hcall, -, hs', -, hlive, hbody'⟩ := hx.of_gaveUp hbody hup'
      obtain ⟨rfl, rfl⟩ := ev.haltingAt_gaveUp hev hs' hlive hbody'
      obtain ⟨c₁, m₁, hcall₁, -, -, -, -, hbody₁⟩ := hx.of_gaveUp hbody hup
      cases hcall.symm.trans hcall₁
      obtain ⟨rfl, rfl⟩ := Evaluator.haltingAt_gaveUp hkeeps hs' hlive hbody₁
      exact absurd ⟨rfl, rfl⟩ hne
  | @bind α β m x f P Q hx hf ihx ihf =>
      have hends := hx.ends hkeeps hs
      have hfirst' : ArenaLisp.gaveUp ((x (ev.haltingAt w' s' .dangling) >>= fun a =>
        f a (ev.haltingAt w' s' .dangling)) m) = true := hup'
      have hfirst : ArenaLisp.gaveUp ((x ((ev.haltingAt w' s' .tooDeep).haltingAt w s .dangling) >>=
        fun a => f a ((ev.haltingAt w' s' .tooDeep).haltingAt w s .dangling)) m) = true := hup
      by_cases hx' : ArenaLisp.gaveUp (x (ev.haltingAt w' s' .dangling) m) = true
      · by_cases hxs : ArenaLisp.gaveUp
            (x ((ev.haltingAt w' s' .tooDeep).haltingAt w s .dangling) m) = true
        · exact ihx hs hx' hxs
        · -- the first part comes to the second evaluation only, and ends there
          obtain ⟨⟨m', hhalts⟩, -⟩ := hx.asked hev hs hx'
          have hsame := hx.passes_by hkeeps hs (eq_false_of_ne_true hxs) .dangling
          rw [bind_error (hsame.trans (hhalts .tooDeep))] at hfirst
          cases hfirst
      · have hsame' := hx.passes_by hev hs (eq_false_of_ne_true hx')
        cases hrun : x ev m with
        | error e m₁ =>
            rw [bind_error ((hsame' .dangling).trans hrun)] at hfirst'
            rw [hsame' .dangling, hrun] at hx'
            exact absurd (by cases e <;> exact hfirst') hx'
        | ok a m₁ =>
            rw [(hsame' .tooDeep).trans hrun] at hends
            rw [bind_ok ((hsame' .dangling).trans hrun)] at hfirst'
            have hrest := hf m₁ a hends.1 hends.2.1 hends.2.2
            by_cases hxs : ArenaLisp.gaveUp
                (x ((ev.haltingAt w' s' .tooDeep).haltingAt w s .dangling) m) = true
            · obtain ⟨-, hafter⟩ := hx.asked_respects hkeeps hs hR hxs
              rw [hvalue, (hsame' .tooDeep).trans hrun] at hafter
              exact hR.trans hafter (hrest.asked_respects hev hends.1 hR hfirst').1
            · have hsame := hx.passes_by hkeeps hs (eq_false_of_ne_true hxs) .dangling
              rw [bind_ok (hsame.trans ((hsame' .tooDeep).trans hrun))] at hfirst
              exact ihf m₁ a hends.1 hends.2.1 hends.2.2 hends.1 hfirst' hfirst
  | weaken _ _ ih => exact ih hs hup' hup

end

/-- Invariants hold along the evaluations within one: where they start, and where they end. -/
theorem Nested.maintains {I : Machine → Prop} (hI : Invariant I) {n k : Nat} {v w : Ref}
    {m s : Machine} (hs : m.Sound) (hv : m.heap.LiveRef v) (hw : Nested n v m k w s) :
    (I m → I s) ∧ (I (finalMachine (eval k w s)) → I (finalMachine (eval n v m))) := by
  induction hw with
  | whole => exact ⟨id, id⟩
  | part hw hask ih =>
      obtain ⟨hs', hv'⟩ := hw.sound hs hv
      obtain ⟨hstart, hend⟩ := ((evalStep_program hs' hv').asked (eval_keeps _) hs' hask.gaveUp).2 I
        hI (eval_maintains hI _)
      exact ⟨fun hm => hstart (ih.1 hm), fun hm => ih.2 (hend hm)⟩

end ArenaLisp
