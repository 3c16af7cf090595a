import ArenaLisp.Proofs.Reading
import ArenaLisp.Proofs.Release
import Mathlib.Algebra.GroupWithZero.Nat

/-!
# Sessions

A session starts with a new interpreter and takes any steps in any order: turns,
evaluations that release nothing, source texts, releases. Every expression it is given
was read from some text.

Each step keeps the machine rooted, so after any session everything the root environment
reaches is live.
-/

namespace ArenaLisp

/-- An expression as it is read from a text. -/
structure Expression where
  tree : Tree
  read : ∃ text ts, readData text = .ok ts ∧ tree ∈ ts

theorem Expression.plain (e : Expression) : e.tree.Plain := by
  obtain ⟨text, ts, hts, hmem⟩ := e.read
  exact readData_plain hts e.tree hmem

/-- The one expression of a text. -/
def Expression.ofText (text : Bytes) {t : Tree} (h : readOne text = .ok t) : Expression where
  tree := t
  read := by
    simp only [readOne] at h
    split at h
    · cases h
    · rename_i ts hts
      cases h
      exact ⟨text, _, hts, List.mem_cons_self⟩
    · cases h

/-- The one expression of a text, if there is one and no other. -/
def Expression.ofString? (text : String) : Option Expression :=
  match h : readOne text.toUTF8.toList with
  | .ok _ => some (.ofText _ h)
  | .error _ => none

/-- What can be done with an interpreter. Depths bound the nesting of evaluation. -/
inductive Step where
  | exec (depth : Nat) (e : Expression)
  | eval (depth : Nat) (e : Expression)
  | load (depth : Nat) (name : String) (text : Except String Bytes)
  | release

namespace Machine

/-- The machine with an expression built and registered for a turn. -/
def started (m : Machine) (t : Tree) : Machine :=
  ⟨(Heap.store t m.heap).2,
    m.arena.trackNodes ((Heap.store t m.heap).2.nodes (Heap.store t m.heap).1), m.scope, m.log⟩

/-- Building an expression keeps a machine sound, registered or not. -/
theorem Rooted.store {m : Machine} (hr : m.Rooted) {t : Tree} (ht : t.Plain) (m' : Machine)
    (hheap : m'.heap = (Heap.store t m.heap).2) (hscope : m'.scope = m.scope)
    (hgen : m'.arena.generation = m.arena.generation) (hmono : ∀ n, m.Tracked n → m'.Tracked n)
    (hnew : ∀ n, m'.Tracked n → m.Tracked n ∨ m'.heap.Holds (Heap.store t m.heap).1 n) :
    m'.Rooted ∧ m.Evolves m' ∧ m'.heap.LiveRef (Heap.store t m.heap).1 := by
  have hc := Heap.store_copies t m.heap ht
  obtain ⟨hs', he⟩ := hr.sound.build hc (fun _ hf => hf.elim) m'.arena m'.log
    hgen hmono fun n hn => by
      rcases hnew n hn with hn | hn
      · exact Or.inl hn
      · obtain ⟨p, hp, hreach⟩ := Heap.holds_iff.mp hn
        rw [hheap] at hreach
        exact Or.inr (Heap.Copies.reaches_made hc hp hreach)
  have hm' : m' = ⟨(Heap.store t m.heap).2, m'.arena, m.scope, m'.log⟩ := by
    cases m'
    simp_all
  rw [← hm'] at hs' he
  rw [hheap]
  exact ⟨hr.evolves he hs', he, hc.liveRef fun _ hf => hf.elim⟩

/-- The machine with an expression built, and not registered. -/
theorem Rooted.stored {m : Machine} (hr : m.Rooted) {t : Tree} (ht : t.Plain) {m' : Machine}
    (hm' : m' = ⟨(Heap.store t m.heap).2, m.arena, m.scope, m.log⟩) :
    m'.Rooted ∧ m.Evolves m' ∧ m'.heap.LiveRef (Heap.store t m.heap).1 := by
  subst hm'
  exact hr.store ht _ rfl rfl rfl (fun _ hn => hn) fun _ hn => Or.inl hn

theorem Rooted.started {m : Machine} (hr : m.Rooted) {t : Tree} (ht : t.Plain) :
    (m.started t).Rooted ∧ m.Evolves (m.started t) ∧
      (m.started t).heap.LiveRef (Heap.store t m.heap).1 :=
  hr.store ht _ rfl rfl rfl (fun _ hn => Arena.mem_trackNodes.mpr (Or.inl hn)) fun n hn => by
    rcases Arena.mem_trackNodes.mp hn with hn | hn
    · exact Or.inl hn
    · exact Or.inr (Heap.holds_of_mem_nodes hn)

theorem eval_snd (m : Machine) (n : Nat) (v : Ref) :
    (m.eval n v).2 = finalMachine (ArenaLisp.eval n v m) := by
  unfold Machine.eval
  cases ArenaLisp.eval n v m <;> rfl

/-- Evaluation in the root environment keeps a machine rooted. -/
theorem Rooted.eval {m : Machine} (hr : m.Rooted) (n : Nat) {v : Ref} (hv : m.heap.LiveRef v) :
    (m.eval n v).2.Rooted ∧ m.Evolves (m.eval n v).2 := by
  obtain ⟨hs', he⟩ := (eval_keeps n v m hr.sound hv).final
  rw [eval_snd]
  exact ⟨hr.evolves he hs', he⟩

end Machine

namespace Interpreter

/-- Takes a step. -/
def step (i : Interpreter) : Step → Interpreter
  | .exec depth e => (i.execTree depth e.tree).2
  | .eval depth e =>
    let (v, i) := i.onHeap (Heap.store e.tree)
    (i.eval depth v).2
  | .load depth name text => (i.load depth name text).2
  | .release => (i.onMachine Machine.releaseAll).2

/-- Takes steps one after the other. -/
def run (i : Interpreter) (steps : List Step) : Interpreter := steps.foldl step i

/-- How many turns a source takes: one for each of its expressions. -/
def turns (i : Interpreter) (name : String) (text : Except String Bytes) : Nat :=
  if i.reads then
    match readSource name text with
    | .ok ts => ts.length
    | .error _ => 0
  else 0

/-- How often a step releases. -/
def releases (i : Interpreter) : Step → Nat
  | .exec _ _ => 1
  | .eval _ _ => 0
  | .load _ name text => i.turns name text
  | .release => 1

/-- What a turn shows, given what comes of its expression. -/
def shown (i : Interpreter) (log : Array LogRecord) : Except Failure String → Turn
  | .ok text => ⟨if i.print then text ++ "\n" else "", log, none⟩
  | .error failure => ⟨"", log, some failure⟩

theorem exec_eq (depth : Nat) (v : Ref) (i : Interpreter) :
    i.exec depth v =
      let (result, m) := i.machine.exec depth v
      (i.shown m.log result, { i with machine := { m with log := #[] } }) := by
  rcases h : Machine.exec depth v i.machine with ⟨result, m⟩
  simp only [exec, onMachine, h]
  cases result <;> rfl

theorem execTree_eq (depth : Nat) (t : Tree) (i : Interpreter) :
    i.execTree depth t =
      let (result, m) := (Machine.exec depth (Heap.store t i.machine.heap).1
        ⟨(Heap.store t i.machine.heap).2, i.machine.arena, i.machine.scope, i.machine.log⟩)
      (i.shown m.log result, { i with machine := { m with log := #[] } }) := by
  show (i.onHeap (Heap.store t)).2.exec depth (i.onHeap (Heap.store t)).1 = _
  rw [exec_eq]
  rfl

theorem execAll_failure (depth : Nat) (ts : List Tree) (i : Interpreter) :
    (i.execAll depth ts).2.1.failure = none := by
  cases ts <;> rfl

theorem execAll_reads (depth : Nat) (ts : List Tree) (i : Interpreter) :
    (i.execAll depth ts).2.2.reads = i.reads := by
  induction ts generalizing i with
  | nil => rfl
  | cons t ts ih =>
      have hturn : (i.execTree depth t).2.reads = i.reads := by rw [execTree_eq]
      exact (ih _).trans hturn

/-- Expressions in a row are run as the first of them and then the others. -/
theorem execAll_append (depth : Nat) (ts us : List Tree) (i : Interpreter) :
    i.execAll depth (ts ++ us) =
      let (failed, turn, j) := i.execAll depth ts
      let (failed', turn', k) := j.execAll depth us
      (failed + failed', ⟨turn.output ++ turn'.output, turn.log ++ turn'.log, none⟩, k) := by
  induction ts generalizing i with
  | nil =>
      have hfailure := execAll_failure depth us i
      simp only [List.nil_append, execAll, Nat.zero_add, String.empty_append, Array.empty_append]
      rw [← hfailure]
  | cons t ts ih =>
      simp only [List.cons_append, execAll, ih, String.append_assoc, Array.append_assoc]
      split <;> simp [Nat.add_right_comm]

end Interpreter

/-- A turn on an expression that was just built. -/
theorem Machine.exec_eq (depth : Nat) (t : Tree) (m : Machine) :
    Machine.exec depth (Heap.store t m.heap).1
        ⟨(Heap.store t m.heap).2, m.arena, m.scope, m.log⟩ =
      match (m.started t).eval depth (Heap.store t m.heap).1 with
      | (.ok v, m') =>
        (.ok (m'.heap.render v), m'.releaseAll.2.record
          (releaseRecord m'.arena.tracked.size (m'.arena.generation + 1)))
      | (.error f, m') =>
        (.error f, (m'.record (failureRecord f)).releaseAll.2.record
          (releaseRecord m'.arena.tracked.size (m'.arena.generation + 1))) := by
  have hstart : Machine.onArena (fun heap arena =>
      arena.trackNodes (heap.nodes (Heap.store t m.heap).1))
      ⟨(Heap.store t m.heap).2, m.arena, m.scope, m.log⟩ = m.started t := rfl
  simp only [Machine.exec, hstart]
  rcases (m.started t).eval depth (Heap.store t m.heap).1 with ⟨result, m'⟩
  cases result <;> rfl

namespace Interpreter

/-- **However a turn ends**, what is registered then is released. -/
theorem execTree_machine (depth : Nat) (t : Tree) (i : Interpreter) :
    (i.execTree depth t).2.machine =
      { ((i.machine.started t).eval depth (Heap.store t i.heap).1).2.releaseAll.2 with
        log := #[] } := by
  rw [execTree_eq, Machine.exec_eq, heap]
  generalize (i.machine.started t).eval depth (Heap.store t i.machine.heap).1 = r
  obtain ⟨result, m⟩ := r
  cases result <;> rfl

/-- What a step keeps, with the number of releases it makes. -/
structure Advances (i j : Interpreter) (count : Nat) : Prop where
  rooted : j.machine.Rooted
  generation : j.arena.generation = i.arena.generation + UInt64.ofNat count
  reads : j.reads = i.reads

theorem Advances.refl {i : Interpreter} (hr : i.machine.Rooted) : i.Advances i 0 :=
  ⟨hr, (UInt64.add_zero _).symm, rfl⟩

theorem Advances.trans {i j k : Interpreter} {count count' : Nat} (h : i.Advances j count)
    (h' : j.Advances k count') : i.Advances k (count + count') := by
  refine ⟨h'.rooted, ?_, h'.reads.trans h.reads⟩
  rw [h'.generation, h.generation, UInt64.ofNat_add, UInt64.add_assoc]

/-- **A turn keeps a machine rooted**, empties the arena and releases once. -/
theorem execTree_advances {i : Interpreter} (hr : i.machine.Rooted) (depth : Nat) {t : Tree}
    (ht : t.Plain) :
    i.Advances (i.execTree depth t).2 1 ∧ (i.execTree depth t).2.arena.tracked = #[] := by
  obtain ⟨hr₁, he₁, hv⟩ := hr.started ht
  obtain ⟨hr₂, he₂⟩ := hr₁.eval depth hv
  refine ⟨⟨?_, ?_, by rw [execTree_eq]⟩, ?_⟩
  · rw [execTree_machine]
    exact hr₂.releaseAll.withLog _
  · rw [arena, execTree_machine]
    exact congrArg (· + 1) (he₂.generation.trans he₁.generation)
  · rw [arena, execTree_machine]
    rfl

/-- A source keeps the machine rooted and releases once for each of its expressions. -/
theorem execAll_advances (depth : Nat) {ts : List Tree} (hts : ∀ t ∈ ts, t.Plain)
    {i : Interpreter} (hr : i.machine.Rooted) :
    i.Advances (i.execAll depth ts).2.2 ts.length := by
  induction ts generalizing i with
  | nil => exact .refl hr
  | cons t ts ih =>
      obtain ⟨hone, _⟩ := execTree_advances hr depth (hts t List.mem_cons_self)
      rw [List.length_cons, Nat.add_comm]
      exact hone.trans (ih (fun t' ht' => hts t' (List.mem_cons_of_mem _ ht')) hone.rooted)

/-- The data of a source are read from its text. -/
theorem readSource_ok {name : String} {text : Except String Bytes} {ts : List Tree}
    (hok : readSource name text = .ok ts) : ∃ bytes, text = .ok bytes ∧ readData bytes = .ok ts := by
  cases text with
  | error reason => cases hok
  | ok bytes =>
      simp only [readSource] at hok
      split at hok
      · cases hok
      · rename_i ts' hts'
        cases hok
        exact ⟨bytes, rfl, hts'⟩

theorem load_machine {j : Interpreter} (depth : Nat) {name : String} {text : Except String Bytes}
    {ts : List Tree} (hreads : j.reads = true) (hread : readSource name text = .ok ts) :
    (j.load depth name text).2 = (j.execAll depth ts).2.2 := by
  unfold load
  rw [hreads, hread]
  simp only [Bool.not_true, Bool.false_eq_true, if_false]
  split <;> rfl

/-- Loading a source takes no turn and leaves everything as it is, or it runs its expressions. -/
theorem load_cases (i : Interpreter) (depth : Nat) (name : String) (text : Except String Bytes) :
    i.turns name text = 0 ∧ (i.load depth name text).2 = i ∨
      ∃ ts, i.reads = true ∧ readSource name text = .ok ts ∧ i.turns name text = ts.length ∧
        (i.load depth name text).2 = (i.execAll depth ts).2.2 := by
  cases hreads : i.reads with
  | false =>
      left
      unfold load turns
      rw [hreads]
      exact ⟨rfl, rfl⟩
  | true =>
      cases hread : readSource name text with
      | error failure =>
          left
          unfold load turns
          rw [hreads, hread]
          exact ⟨rfl, rfl⟩
      | ok ts =>
          refine Or.inr ⟨ts, rfl, rfl, ?_, load_machine depth hreads hread⟩
          rw [turns, hreads, hread]
          rfl

theorem load_advances {i : Interpreter} (hr : i.machine.Rooted) (depth : Nat) (name : String)
    (text : Except String Bytes) : i.Advances (i.load depth name text).2 (i.turns name text) := by
  rcases load_cases i depth name text with ⟨hturns, hload⟩ | ⟨ts, -, hread, hturns, hload⟩
  · rw [hturns, hload]
    exact .refl hr
  · obtain ⟨_, -, hdata⟩ := readSource_ok hread
    rw [hturns, hload]
    exact execAll_advances depth (readData_plain hdata) hr

/-- **Every step keeps the machine rooted** and counts its releases. -/
theorem step_advances {i : Interpreter} (hr : i.machine.Rooted) (s : Step) :
    i.Advances (i.step s) (i.releases s) := by
  cases s with
  | exec depth e => exact (execTree_advances hr depth e.plain).1
  | eval depth e =>
      obtain ⟨hr₁, he₁, hv⟩ := hr.stored e.plain rfl
      obtain ⟨hr₂, he₂⟩ := hr₁.eval depth hv
      exact ⟨hr₂, (he₂.generation.trans he₁.generation).trans (UInt64.add_zero _).symm, rfl⟩
  | load depth name text => exact load_advances hr depth name text
  | release => exact ⟨hr.releaseAll, rfl, rfl⟩

/-- A run keeps the machine rooted, and its releases add up. -/
theorem run_advances (steps : List Step) {i : Interpreter} (hr : i.machine.Rooted) :
    i.Advances (i.run steps) (steps.map i.releases).sum := by
  induction steps generalizing i with
  | nil => exact .refl hr
  | cons s steps ih =>
      have hone := step_advances hr s
      have hrest := ih hone.rooted
      -- how often a step releases depends only on whether sources are read at all
      have hreleases : (i.step s).releases = i.releases := by
        funext s'
        cases s' <;> simp [releases, turns, hone.reads]
      rw [hreleases] at hrest
      exact hone.trans hrest

/-- Takes turns one after the other, and gathers what they show. -/
def session (turn : Nat → Tree → Interpreter → Turn × Interpreter) (i : Interpreter) :
    List (Nat × Expression) → List Turn × Interpreter
  | [] => ([], i)
  | (depth, e) :: es =>
    let (shown, i) := turn depth e.tree i
    let (rest, i) := i.session turn es
    (shown :: rest, i)

theorem session_rooted {i : Interpreter} (hr : i.machine.Rooted) (es : List (Nat × Expression)) :
    (i.session execTree es).2.machine.Rooted := by
  induction es generalizing i with
  | nil => exact hr
  | cons p es ih => exact ih (execTree_advances hr p.1 p.2.plain).1.rooted

/-! ## New interpreters -/

theorem rooted_empty : Machine.empty.Rooted := by
  have hcells : ∀ n, ¬Machine.empty.heap.Has n := by
    rintro (a | b) hn
    · exact Nat.not_lt_zero _ hn
    · exact Nat.not_lt_zero _ hn
  refine ⟨⟨?_, ?_, ?_, ?_, ?_, ?_, ?_, ?_, ?_, ?_, ?_⟩, ?_⟩
  · exact fun n k hk => absurd (Heap.has_of_mem_parts hk) (hcells n)
  · exact rfl
  · exact fun a b hb => absurd hb List.not_mem_nil
  · exact fun n hn => by simp [Machine.Tracked, Machine.empty, Arena.empty] at hn
  · exact fun b hb => absurd hb List.not_mem_nil
  · exact fun b hb => absurd hb List.not_mem_nil
  · exact fun b hb => absurd hb List.not_mem_nil
  · exact fun b hb => absurd hb.1 List.not_mem_nil
  · exact fun b hb => absurd hb.1 List.not_mem_nil
  · exact fun b hb => absurd hb.1 List.not_mem_nil
  · exact fun b hb => absurd hb.1 List.not_mem_nil
  · exact fun b hb => absurd hb List.not_mem_nil

/-- An interpreter with one more primitive. -/
def withPrimitive (name : String) (builtin : Builtin) (i : Interpreter) : Interpreter :=
  let (p, i) := i.newPrimitive name builtin
  let (atom, i) := i.onHeap (·.new (.atom name))
  let (value, i) := i.onHeap (·.new (.primitive p))
  i.define atom value

theorem bindPrimitives_cons (name : String) (builtin : Builtin) (rest : List (String × Builtin))
    (i : Interpreter) : bindPrimitives ((name, builtin) :: rest) i =
      if (i.heap.lookup? i.root name).isSome then (some (.alreadyDefined name), i)
      else bindPrimitives rest (i.withPrimitive name builtin) := rfl

theorem withPrimitive_evolves {i : Interpreter} (hs : i.machine.Sound) (name : String)
    (builtin : Builtin) : (i.withPrimitive name builtin).machine.Sound ∧
      i.machine.Evolves (i.withPrimitive name builtin).machine := by
  have hatom := (Heap.Builds.refl (fun _ => False) i.machine.heap).new (d := .atom name)
    fun k hk => hk
  have hvalue := (Heap.Builds.refl (fun _ => False) (i.machine.heap.new (.atom name)).2).new
    (d := .primitive ⟨i.serial, name, builtin⟩) fun k hk => hk
  have hlive := hatom.liveRef fun _ hf => hf.elim
  refine hs.defineNew (hatom.append hvalue) fun k hk hk' => ?_
  -- the name was there before the value was made
  obtain ⟨q, hq, hreach⟩ := Heap.holds_iff.mp hk'
  have hold := (hlive k ((hvalue.grown.holds_iff fun k hk => (hlive k hk).1).mp hk)).1
  exact (Heap.Copies.reaches_made hvalue hq hreach).2 hold

theorem withPrimitive_rooted {i : Interpreter} (hr : i.machine.Rooted) (name : String)
    (builtin : Builtin) : (i.withPrimitive name builtin).machine.Rooted := by
  obtain ⟨hs, he⟩ := withPrimitive_evolves hr.sound name builtin
  exact hr.evolves he hs

/-- Binding primitives keeps what binding one of them keeps. -/
theorem bindPrimitives_keeps {I : Interpreter → Prop}
    (hone : ∀ i : Interpreter, i.machine.Rooted → I i → ∀ name builtin,
      I (i.withPrimitive name builtin))
    (ps : List (String × Builtin)) {i : Interpreter} (hr : i.machine.Rooted) (hi : I i) :
    (bindPrimitives ps i).2.machine.Rooted ∧ I (bindPrimitives ps i).2 := by
  induction ps generalizing i with
  | nil => exact ⟨hr, hi⟩
  | cons p ps ih =>
      obtain ⟨name, builtin⟩ := p
      rw [bindPrimitives_cons]
      split
      · exact ⟨hr, hi⟩
      · exact ih (withPrimitive_rooted hr name builtin) (hone i hr hi name builtin)

theorem bindPrimitives_rooted (ps : List (String × Builtin)) {i : Interpreter}
    (hr : i.machine.Rooted) :
    (bindPrimitives ps i).2.machine.Rooted ∧ (bindPrimitives ps i).2.arena = i.arena :=
  bindPrimitives_keeps (I := fun j => j.arena = i.arena) (fun _ _ hj _ _ => hj) ps hr rfl

/-- A new interpreter comes from a bare one by binding its primitives. -/
theorem new_binds {extra : List (String × Builtin)} {print reads : Bool} {i : Interpreter}
    (hi : new extra print reads = .ok i) : ∃ bare : Interpreter, bare.machine = .empty ∧
      bare.serial = 0 ∧ bare.builtins = Builtin.standard ++ extra ∧ bare.print = print ∧
      bindPrimitives bare.builtins bare = (none, i) := by
  -- which names are bound does not matter here, so the table is not looked at
  delta new at hi
  dsimp only at hi
  generalize hbare : Interpreter.mk .empty #[] 0 (Builtin.standard ++ extra) print reads = bare
    at hi
  refine ⟨bare, by rw [← hbare], by rw [← hbare], by rw [← hbare], by rw [← hbare], ?_⟩
  rw [show bare.addPrimitives [] = bindPrimitives bare.builtins bare from rfl] at hi
  generalize bindPrimitives bare.builtins bare = r at hi
  obtain ⟨failure, j⟩ := r
  cases failure with
  | some failure => cases hi
  | none =>
      cases hi
      rfl

/-- A new interpreter is rooted, with nothing registered and nothing released. -/
theorem new_rooted {extra : List (String × Builtin)} {print reads : Bool} {i : Interpreter}
    (hi : new extra print reads = .ok i) : i.machine.Rooted ∧ i.arena = .empty := by
  obtain ⟨bare, hmachine, -, -, -, hbinds⟩ := new_binds hi
  have hbound := bindPrimitives_rooted bare.builtins (i := bare) (hmachine ▸ rooted_empty)
  rw [hbinds] at hbound
  refine ⟨hbound.1, hbound.2.trans ?_⟩
  rw [arena, hmachine]
  rfl

/-- The standard operations can be bound, also with one more. -/
theorem new_arguments : ∃ i, new [("list-args", .arguments)] true true = .ok i := by
  have hok : (new [("list-args", .arguments)] true true).isOk = true := by decide +kernel
  cases hnew : new [("list-args", .arguments)] true true with
  | ok i => exact ⟨i, rfl⟩
  | error failure =>
      rw [hnew] at hok
      cases hok

/--
**Memory safety.** After any steps, nothing that the root environment reaches was
released, so the audit finds nothing; the generation is the number of releases so far,
modulo 2^64, and a turn leaves nothing registered.
-/
theorem run_reaches_no_released {extra : List (String × Builtin)} {print reads : Bool}
    {i : Interpreter} (hi : new extra print reads = .ok i) (steps : List Step) :
    (∀ n ∈ Node.ofChain (i.run steps).root, ∀ k, (i.run steps).heap.Reaches n k →
      ¬(i.run steps).heap.Released k) ∧
    (i.run steps).heap.audit (i.run steps).root = [] ∧
    (i.run steps).arena.generation.toNat = (steps.map i.releases).sum % 2 ^ 64 ∧
    ∀ depth e, steps.getLast? = some (.exec depth e) →
      (i.run steps).arena.tracked.size = 0 := by
  obtain ⟨hr, harena⟩ := new_rooted hi
  have hrun := run_advances steps hr
  have hlive := hrun.rooted.sound.liveChain
  refine ⟨fun n hn k hk => (hlive n hn k hk).2, Heap.audit_of_live hlive, ?_, ?_⟩
  · rw [hrun.generation, harena, Arena.empty, UInt64.zero_add, UInt64.toNat_ofNat']
  · intro depth e hlast
    obtain ⟨before, rfl⟩ := List.getLast?_eq_some_iff.mp hlast
    have hturn := execTree_advances (run_advances before hr).rooted depth e.plain
    rw [run, List.foldl_append]
    show ((i.run before).execTree depth e.tree).2.arena.tracked.size = 0
    rw [hturn.2]
    rfl

/-- A variable is bound, then replaced by something made of it, then seen without a turn. -/
theorem run_reaches_no_released_replaced : ∃ i e₁ e₂ e₃,
    new [("list-args", .arguments)] true true = .ok i ∧
    e₁.tree = .ofList [.atom "set", .quote (.atom "x"), .quote (.ofList [.number (.int 1)])] ∧
    e₂.tree = .ofList [.atom "set", .quote (.atom "x"), .ofList [.atom "cdr", .atom "x"]] ∧
    e₃.tree = .atom "x" ∧
    (i.run [.exec 9 e₁, .eval 9 e₃, .release, .exec 9 e₂]).heap.audit
      (i.run [.exec 9 e₁, .eval 9 e₃, .release, .exec 9 e₂]).root = [] ∧
    (i.run [.exec 9 e₁, .eval 9 e₃, .release, .exec 9 e₂]).arena.generation = 3 ∧
    (i.run [.exec 9 e₁, .eval 9 e₃, .release, .exec 9 e₂]).arena.tracked.size = 0 := by
  obtain ⟨i, hi⟩ := new_arguments
  have h₁ : readOne "(set 'x '(1))".toUTF8.toList = .ok (.ofList [.atom "set",
      .quote (.atom "x"), .quote (.ofList [.number (.int 1)])]) := by decide +kernel
  have h₂ : readOne "(set 'x (cdr x))".toUTF8.toList = .ok (.ofList [.atom "set",
      .quote (.atom "x"), .ofList [.atom "cdr", .atom "x"]]) := by decide +kernel
  have h₃ : readOne "x".toUTF8.toList = .ok (.atom "x") := by decide +kernel
  obtain ⟨_, haudit, hgen, hsize⟩ := run_reaches_no_released hi [.exec 9 (.ofText _ h₁),
    .eval 9 (.ofText _ h₃), .release, .exec 9 (.ofText _ h₂)]
  exact ⟨i, .ofText _ h₁, .ofText _ h₂, .ofText _ h₃, hi, rfl, rfl, rfl, haudit,
    UInt64.toNat_inj.mp hgen, hsize 9 _ rfl⟩

end Interpreter

end ArenaLisp
