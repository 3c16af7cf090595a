import ArenaLisp.Proofs.Orderly
import ArenaLisp.Proofs.ValueSemantics

/-!
# Sessions of code

Between two turns a machine is *resting*: rooted, so that nothing its environment reaches is
about to be released, and orderly, so that everything its environment binds is whole. Every
step of a session takes a resting machine to a resting one, because the expressions of a
session are code. So every evaluation of a session, at any depth, is of code on an orderly
machine.
-/

namespace ArenaLisp

theorem Tree.Code.plain {t : Tree} (hc : t.Code) : t.Plain := by
  induction hc with
  | atom | number => trivial
  | nil => exact plain_nil
  | cons _ _ iht ihrest => exact Or.inr ⟨iht, ihrest⟩

namespace Machine

/-- Whether a machine is rooted and orderly. -/
structure Resting (m : Machine) : Prop where
  rooted : m.Rooted
  orderly : m.Orderly

theorem Resting.withLog {m : Machine} (hr : m.Resting) (log : Array LogRecord) :
    Resting { m with log := log } := by
  obtain ⟨env, hm, henv⟩ := hr.orderly.bound
  have hrooted := hr.rooted.withLog log
  exact ⟨hrooted, hrooted.sound, env, hm.withLog log, henv⟩

/-- Building an expression leaves a machine resting, registered or not. -/
theorem Resting.store {m : Machine} (hr : m.Resting) {t : Tree} (hc : t.Code) {m' : Machine}
    (hheap : m'.heap = (Heap.store t m.heap).2) (hscope : m'.scope = m.scope)
    (hrooted : m'.Rooted) : m'.Resting ∧ m'.HasCode (Heap.store t m.heap).1 := by
  obtain ⟨env, hm, henv⟩ := hr.orderly.bound
  have hgrown : m.heap.Extends m'.heap := hheap ▸ (Heap.store_copies t m.heap hc.plain).grown
  refine ⟨⟨hrooted, hrooted.sound, env, hm.of_extends hr.rooted.sound hgrown hscope, henv⟩, t, ?_, hc⟩
  rw [hheap]
  exact Heap.unfolds_store m.heap hc.plain

theorem Resting.started {m : Machine} (hr : m.Resting) {t : Tree} (hc : t.Code) :
    (m.started t).Resting ∧ (m.started t).HasCode (Heap.store t m.heap).1 :=
  hr.store hc rfl rfl (hr.rooted.started hc.plain).1

theorem Resting.stored {m : Machine} (hr : m.Resting) {t : Tree} (hc : t.Code) {m' : Machine}
    (hm' : m' = ⟨(Heap.store t m.heap).2, m.arena, m.scope, m.log⟩) :
    m'.Resting ∧ m'.HasCode (Heap.store t m.heap).1 := by
  have hrooted := (hr.rooted.stored hc.plain hm').1
  subst hm'
  exact hr.store hc rfl rfl hrooted

theorem Resting.eval {m : Machine} (hr : m.Resting) (n : Nat) {v : Ref} (hv : m.HasCode v) :
    (m.eval n v).2.Resting := by
  have horderly := (eval_settles n v m hr.orderly hv).final
  rw [← eval_snd] at horderly
  exact ⟨(hr.rooted.eval n hv.liveRef).1, horderly⟩

theorem Resting.releaseAll {m : Machine} (hr : m.Resting) : m.releaseAll.2.Resting := by
  obtain ⟨env, hm, henv⟩ := hr.orderly.bound
  have hrooted := hr.rooted.releaseAll
  exact ⟨hrooted, hrooted.sound, env, hm.releaseAll hr.rooted, henv⟩

end Machine

namespace Interpreter

variable {i : Interpreter}

/-- **A turn leaves a machine resting.** -/
theorem execTree_resting (hr : i.machine.Resting) (depth : Nat) {t : Tree} (hc : t.Code) :
    (i.execTree depth t).2.machine.Resting := by
  obtain ⟨hr₁, hv⟩ := hr.started hc
  rw [execTree_machine]
  exact (hr₁.eval depth hv).releaseAll.withLog _

theorem execAll_resting (depth : Nat) {ts : List Tree} (hts : ∀ t ∈ ts, t.Code)
    (hr : i.machine.Resting) : (i.execAll depth ts).2.2.machine.Resting := by
  induction ts generalizing i with
  | nil => exact hr
  | cons t ts ih =>
      exact ih (fun t' ht' => hts t' (List.mem_cons_of_mem _ ht'))
        (execTree_resting hr depth (hts t List.mem_cons_self))

theorem readData_code {text : Bytes} {ts : List Tree} (hts : readData text = .ok ts) :
    ∀ t ∈ ts, t.Code := readData_satisfies Tree.hereditary_code hts

theorem load_resting (hr : i.machine.Resting) (depth : Nat) (name : String)
    (text : Except String Bytes) : (i.load depth name text).2.machine.Resting := by
  rcases load_cases i depth name text with ⟨-, hsame⟩ | ⟨ts, -, hread, -, hload⟩
  · rw [hsame]
    exact hr
  · obtain ⟨_, -, hdata⟩ := readSource_ok hread
    rw [hload]
    exact execAll_resting depth (readData_code hdata) hr

/-- **Every step leaves a machine resting.** -/
theorem step_resting (hr : i.machine.Resting) (s : Step) : (i.step s).machine.Resting := by
  cases s with
  | exec depth e => exact execTree_resting hr depth e.code
  | eval depth e =>
      obtain ⟨hr₁, hv⟩ := hr.stored e.code rfl
      exact hr₁.eval depth hv
  | load depth name text => exact load_resting hr depth name text
  | release => exact hr.releaseAll

theorem run_resting (steps : List Step) (hr : i.machine.Resting) :
    (i.run steps).machine.Resting := by
  induction steps generalizing i with
  | nil => exact hr
  | cons s steps ih => exact ih (step_resting hr s)

theorem new_resting {extra : List (String × Builtin)} {print reads : Bool}
    (hi : new extra print reads = .ok i) : i.machine.Resting := by
  have hrooted := (new_rooted hi).1
  refine ⟨hrooted, hrooted.sound, _, (new_models hi).1, fun e he => ?_⟩
  obtain ⟨p, -, rfl⟩ := List.mem_map.mp (List.mem_reverse.mp he)
  trivial

/-- Whether something is true of an interpreter that starts with some extra operations. -/
def newAny (extra : List (String × Builtin)) (P : (i : Interpreter) → i.machine.Resting → Bool) :
    Bool :=
  match hi : new extra true true with
  | .ok i => P i (new_resting hi)
  | .error _ => false

theorem exists_of_newAny {extra : List (String × Builtin)}
    {P : (i : Interpreter) → i.machine.Resting → Bool} (h : newAny extra P = true) :
    ∃ i, ∃ hi : new extra true true = .ok i, P i (new_resting hi) = true := by
  unfold newAny at h
  split at h
  · rename_i i hi
    exact ⟨i, hi, h⟩
  · cases h

/-- **Every evaluation of a session is of code on an orderly machine.** -/
theorem Evaluates.orderly (hr : i.machine.Resting) {n : Nat} {v : Ref} {m : Machine}
    (hv : i.Evaluates n v m) : m.Orderly ∧ m.HasCode v := by
  cases hv with
  | turn steps depth e hv =>
      obtain ⟨hr', hcode⟩ := (run_resting steps hr).started e.code
      exact hv.orderly hr'.orderly hcode
  | @source steps depth text before after t hread hv =>
      have hcodes := readData_code hread
      have hbefore := execAll_resting depth (fun t' ht' => hcodes t' (List.mem_append_left _ ht'))
        (run_resting steps hr)
      obtain ⟨hr', hcode⟩ :=
        hbefore.started (hcodes t (List.mem_append_right _ List.mem_cons_self))
      exact hv.orderly hr'.orderly hcode
  | bare steps depth e hv =>
      obtain ⟨hr', hcode⟩ := (run_resting steps hr).stored e.code rfl
      exact hv.orderly hr'.orderly hcode

end Interpreter

end ArenaLisp
