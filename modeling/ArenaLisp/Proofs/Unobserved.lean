import ArenaLisp.Proofs.Session

/-!
# Releasing is not observed

Compare an interpreter with one whose arena is emptied and counted at the end of a turn
but whose nodes are all kept as they are. The heaps of the two come to differ at every
node that was ever registered, and still they show the same, turn after turn: what is
released is out of reach, and evaluation only sees what it reaches.
-/

namespace ArenaLisp

/-! ## A release that keeps its nodes -/

namespace Machine

/-- Empties the arena and counts that, and changes no node. -/
def forgetAll : Machine → Nat × Machine
  | ⟨heap, arena, scope, log⟩ =>
    (arena.tracked.size, ⟨heap, ⟨#[], arena.generation + 1⟩, scope, log⟩)

/-- A turn that ends with the given way to release. -/
def execWith (release : Machine → Nat × Machine) (depth : Nat) (v : Ref) (m : Machine) :
    Except Failure String × Machine :=
  let (result, m) := (m.onArena fun heap arena => arena.trackNodes (heap.nodes v)).eval depth v
  let (result, m) : Except Failure String × Machine := match result with
    | .ok v => let text := m.heap.render v; (.ok text, m)
    | .error f => (.error f, m.record (failureRecord f))
  let (count, m) := release m
  let generation := m.arena.generation
  (result, m.record (releaseRecord count generation))

end Machine

namespace Interpreter

/-- Builds an expression and runs a turn on it that ends with the given way to release. -/
def turnWith (release : Machine → Nat × Machine) (depth : Nat) (t : Tree) (i : Interpreter) :
    Turn × Interpreter :=
  let (v, i) := i.onHeap (Heap.store t)
  let (result, m) := i.machine.execWith release depth v
  (i.shown m.log result, { i with machine := { m with log := #[] } })

/-- The turns of an interpreter end with releasing. -/
theorem execTree_eq_turnWith : execTree = turnWith Machine.releaseAll := by
  funext depth t i
  rw [execTree_eq]
  rfl

end Interpreter

/-! ## Two runs -/

theorem Heap.mirrored_store : ∀ (t : Tree) (h : Heap), t.Plain → h.Mirrored (Heap.store t)
  | .atom name, h, _ => mirrored_new h (.atom name)
  | .number x, h, _ => mirrored_new h (.number x)
  | .pair car cdr, h, hp => by
      intro h' hm
      rcases hp with ⟨rfl, rfl⟩ | ⟨hcar, hcdr⟩
      · exact mirrored_new h .nil h' hm
      · obtain ⟨h₁, e₁, m₁⟩ := mirrored_store car h hcar h' hm
        obtain ⟨h₂, e₂, m₂⟩ := mirrored_store cdr _ hcdr h₁ m₁
        simp only [store, e₁, e₂]
        exact mirrored_new _ _ h₂ m₂
  | .absent, _, hp => hp.elim
  | .released _, _, hp => hp.elim
  | .primitive _, _, hp => hp.elim
  | .closure _ _ _, _, hp => hp.elim
  | .unknown _, _, hp => hp.elim

namespace Machine

theorem Mirrors.record {m m' : Machine} (hm : m.Mirrors m') (r : LogRecord) :
    (m.record r).Mirrors (m'.record r) :=
  ⟨hm.heap, hm.arena, hm.scope, congrArg (·.push r) hm.log⟩

/-- Releasing in one machine and forgetting in the other. -/
theorem Mirrors.release {m m' : Machine} (hm : m.Mirrors m') :
    m'.forgetAll.1 = m.releaseAll.1 ∧ m.releaseAll.2.Mirrors m'.forgetAll.2 := by
  have harena := hm.arena
  refine ⟨congrArg (·.tracked.size) harena, ?_, ?_, hm.scope, hm.log⟩
  · exact (Heap.clears_releaseAll m.arena m.heap).mirrors hm.heap
  · show (⟨#[], m'.arena.generation + 1⟩ : Arena) = ⟨#[], m.arena.generation + 1⟩
    rw [harena]

/-- Evaluation in the root environment comes to the same. -/
theorem Mirrors.eval {m m' : Machine} (hm : m.Mirrors m') (hr : m.Rooted) (n : Nat) {v : Ref}
    (hv : m.heap.LiveRef v) :
    (m'.eval n v).1 = (m.eval n v).1 ∧ (m.eval n v).2.Mirrors (m'.eval n v).2 ∧
      ∀ w, (m.eval n v).1 = .ok w → (m.eval n v).2.heap.LiveRef w := by
  have hsame := eval_mirrored n v m m' hr.sound hv hm
  have hends := eval_keeps n v m hr.sound hv
  unfold Machine.eval
  cases h : ArenaLisp.eval n v m with
  | ok w m₁ =>
      cases h' : ArenaLisp.eval n v m' with
      | ok w' m₁' =>
          rw [h, h'] at hsame
          rw [h] at hends
          obtain ⟨rfl, hm₁⟩ := hsame
          refine ⟨rfl, hm₁, fun w hw => ?_⟩
          cases hw
          exact hends.2.2
      | error e m₁' => rw [h, h'] at hsame; exact hsame.elim
  | error e m₁ =>
      cases h' : ArenaLisp.eval n v m' with
      | ok w' m₁' => rw [h, h'] at hsame; exact hsame.elim
      | error e' m₁' =>
          rw [h, h'] at hsame
          obtain ⟨rfl, hm₁⟩ := hsame
          exact ⟨rfl, hm₁, fun w hw => by cases hw⟩

/-- A turn shows the same with either way to release. -/
theorem Mirrors.execWith {m m' : Machine} (hm : m.Mirrors m')
    (depth : Nat) {v : Ref} (hv : m.heap.LiveRef v)
    (hr : (m.onArena fun heap arena => arena.trackNodes (heap.nodes v)).Rooted) :
    (m'.execWith forgetAll depth v).1 = (m.execWith releaseAll depth v).1 ∧
      (m.execWith releaseAll depth v).2.Mirrors (m'.execWith forgetAll depth v).2 := by
  have hstart : (m.onArena fun heap arena => arena.trackNodes (heap.nodes v)).Mirrors
      (m'.onArena fun heap arena => arena.trackNodes (heap.nodes v)) := by
    refine ⟨hm.heap, ?_, hm.scope, hm.log⟩
    show m'.arena.trackNodes (m'.heap.nodes v) = m.arena.trackNodes (m.heap.nodes v)
    rw [hm.arena, hm.heap.nodes_eq hv]
  obtain ⟨hresult, hm₁, hlive⟩ := hstart.eval hr depth hv
  simp only [Machine.execWith]
  generalize (m.onArena fun heap arena => arena.trackNodes (heap.nodes v)).eval depth v = r
    at hresult hm₁ hlive ⊢
  generalize (m'.onArena fun heap arena => arena.trackNodes (heap.nodes v)).eval depth v = r'
    at hresult hm₁ ⊢
  obtain ⟨result, m₁⟩ := r
  obtain ⟨result', m₁'⟩ := r'
  obtain rfl : result' = result := hresult
  cases result' with
  | ok w =>
      obtain ⟨hcount, hm₂⟩ := Mirrors.release hm₁
      have htext : m₁'.heap.render w = m₁.heap.render w := by
        rw [Heap.render, Heap.render, hm₁.heap.view_eq (hlive w rfl)]
      dsimp only
      rw [htext, hcount, hm₂.arena]
      exact ⟨rfl, hm₂.record _⟩
  | error f =>
      obtain ⟨hcount, hm₂⟩ := Mirrors.release (hm₁.record (failureRecord f))
      dsimp only
      rw [hcount, hm₂.arena]
      exact ⟨rfl, hm₂.record _⟩

end Machine

namespace Interpreter

/-- Whether an interpreter is another that keeps the nodes the other has released. -/
structure Mirrors (i j : Interpreter) : Prop where
  machine : i.machine.Mirrors j.machine
  print : j.print = i.print

/-- One turn shows the same with and without releasing, and leaves it so. -/
theorem Mirrors.turn {i j : Interpreter} (hm : i.Mirrors j) (hr : i.machine.Rooted) (depth : Nat)
    {t : Tree} (ht : t.Plain) :
    (j.turnWith Machine.forgetAll depth t).1 = (i.execTree depth t).1 ∧
      (i.execTree depth t).2.Mirrors (j.turnWith Machine.forgetAll depth t).2 := by
  obtain ⟨hr₁, _, hv⟩ := hr.started ht
  obtain ⟨h₁, e₁, m₁⟩ := Heap.mirrored_store t _ ht j.machine.heap hm.machine.heap
  have hstored : Machine.Mirrors ⟨(Heap.store t i.machine.heap).2, i.machine.arena,
      i.machine.scope, i.machine.log⟩ ⟨h₁, j.machine.arena, j.machine.scope, j.machine.log⟩ :=
    ⟨m₁, hm.machine.arena, hm.machine.scope, hm.machine.log⟩
  obtain ⟨hresult, hm₂⟩ := hstored.execWith depth hv hr₁
  rw [execTree_eq_turnWith]
  simp only [turnWith, onHeap, Machine.onHeap, e₁]
  refine ⟨?_, ⟨hm₂.heap, hm₂.arena, hm₂.scope, rfl⟩, hm.print⟩
  rw [hresult, hm₂.log, shown.eq_def, shown.eq_def]
  dsimp only
  rw [hm.print]

/-- Every turn shows the same with and without releasing. -/
theorem Mirrors.session {i j : Interpreter} (hm : i.Mirrors j) (hr : i.machine.Rooted)
    (es : List (Nat × Expression)) :
    (j.session (turnWith Machine.forgetAll) es).1 = (i.session execTree es).1 ∧
      (i.session execTree es).2.Mirrors (j.session (turnWith Machine.forgetAll) es).2 := by
  induction es generalizing i j with
  | nil => exact ⟨rfl, hm⟩
  | cons p es ih =>
      obtain ⟨depth, e⟩ := p
      obtain ⟨hturn, hm₁⟩ := hm.turn hr depth e.plain
      obtain ⟨hturns, hm₂⟩ := ih hm₁ (execTree_advances hr depth e.plain).1.rooted
      exact ⟨congrArg₂ List.cons hturn hturns, hm₂⟩

/-- Whether a reference, if it is there, is one that the root environment leads to. -/
def Sees (i : Interpreter) (v : Ref) : Prop :=
  ∀ n ∈ Node.ofRef v, ∃ p ∈ Node.ofChain i.root, i.heap.Reaches p n

/--
**Releasing is not observed.** An interpreter that forgets what is registered, and poisons
nothing, shows the same in every turn, registers and counts the same, and has the same root
environment: the same bindings, of values that are the same at every node and equal to one
another in the same cases.
-/
theorem session_forgetting_eq {extra : List (String × Builtin)} {print reads : Bool}
    {i : Interpreter} (hi : new extra print reads = .ok i) (es : List (Nat × Expression)) :
    let kept := i.session (turnWith Machine.forgetAll) es
    let freed := i.session execTree es
    kept.1 = freed.1 ∧ kept.2.arena = freed.2.arena ∧ kept.2.root = freed.2.root ∧
    kept.2.heap.viewChain kept.2.root = freed.2.heap.viewChain freed.2.root ∧
    (∀ n ∈ Node.ofChain freed.2.root, ∀ k, freed.2.heap.Reaches n k →
      freed.2.heap.AgreeAt kept.2.heap k) ∧
    ∀ v w, freed.2.Sees v → freed.2.Sees w → kept.2.heap.same v w = freed.2.heap.same v w := by
  obtain ⟨hr, _⟩ := new_rooted hi
  have hself : i.Mirrors i := ⟨.refl _, rfl⟩
  obtain ⟨hturns, hm⟩ := hself.session hr es
  have hlive := (session_rooted hr es).sound.liveChain
  have hsees : ∀ v, (i.session execTree es).2.Sees v →
      (i.session execTree es).2.heap.LiveRef v := by
    intro v hv
    refine Heap.liveRef_iff.mpr fun n hn => ?_
    obtain ⟨p, hp, hreach⟩ := hv n hn
    exact Heap.Live.of_reaches (hlive p hp) hreach
  refine ⟨hturns, hm.machine.arena, hm.machine.scope, ?_, fun n hn k hk => ?_, fun v w hv hw => ?_⟩
  · have hview := hm.machine.heap.viewChain_eq hlive
    rw [← hm.machine.scope] at hview
    exact hview.trans (by rw [hm.machine.scope]; rfl)
  · exact hm.machine.heap.agree k (hlive n hn k hk).2
  · exact hm.machine.heap.same_eq (hsees v hv) (hsees w hw)

/-- A list is bound, compared with itself and with another of the same elements. -/
theorem session_forgetting_eq_identity : ∃ i e₁ e₂ e₃,
    new [("list-args", .arguments)] true true = .ok i ∧
    e₁.tree = .ofList [.atom "set", .quote (.atom "x"), .quote (.ofList [.number (.int 1)])] ∧
    e₂.tree = .ofList [.atom "eq", .atom "x", .atom "x"] ∧
    e₃.tree = .ofList [.atom "eq", .atom "x", .quote (.ofList [.number (.int 1)])] ∧
    (i.session (turnWith Machine.forgetAll) [(9, e₁), (9, e₂), (9, e₃)]).1 =
      (i.session execTree [(9, e₁), (9, e₂), (9, e₃)]).1 := by
  obtain ⟨i, hi⟩ := new_arguments
  have h₁ : readOne "(set 'x '(1))".toUTF8.toList = .ok (.ofList [.atom "set",
      .quote (.atom "x"), .quote (.ofList [.number (.int 1)])]) := by decide +kernel
  have h₂ : readOne "(eq x x)".toUTF8.toList = .ok (.ofList [.atom "eq", .atom "x",
      .atom "x"]) := by decide +kernel
  have h₃ : readOne "(eq x '(1))".toUTF8.toList = .ok (.ofList [.atom "eq", .atom "x",
      .quote (.ofList [.number (.int 1)])]) := by decide +kernel
  have hsame := session_forgetting_eq hi
    [(9, .ofText _ h₁), (9, .ofText _ h₂), (9, .ofText _ h₃)]
  exact ⟨i, .ofText _ h₁, .ofText _ h₂, .ofText _ h₃, hi, rfl, rfl, rfl, hsame.1⟩

end Interpreter

end ArenaLisp
