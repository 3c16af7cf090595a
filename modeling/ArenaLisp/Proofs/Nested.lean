import ArenaLisp.Proofs.Session

/-!
# Evaluations within evaluations

Evaluating an expression asks for the values of others, each on the machine as it is at
that point: the operator, arguments, the body of a closure in the environment of its call.
That an evaluation *asks* for another is said through the way to evaluate that it is given:
if that way halts there, so does the whole, in the same way.

`Nested` are the evaluations within one, `Interpreter.Evaluates` those of whole sessions. All
of them are of live expressions on sound machines.
-/

namespace ArenaLisp

open EvalM Machine

/-- A way to evaluate that halts at one expression on one machine. -/
def Evaluator.haltingAt (ev : Evaluator) (w : Ref) (s : Machine) (halt : Halt) : Evaluator :=
  fun w' s' => if w' = w ∧ s' = s then .error halt s' else ev w' s'

/-- Whether a program asks for the value of an expression on a machine. -/
def Asks {α : Type} (x : Evaluator → EvalM α) (ev : Evaluator) (m : Machine) (w : Ref)
    (s : Machine) : Prop :=
  ∃ m', ∀ halt, x (ev.haltingAt w s halt) m = .error halt m'

/-- What the first part of a program asks for, the whole asks for. -/
theorem Asks.bind {α β : Type} {x : Evaluator → EvalM α} {f : α → Evaluator → EvalM β}
    {ev : Evaluator} {m : Machine} {w : Ref} {s : Machine} (hask : Asks x ev m w s) :
    Asks (fun ev => x ev >>= fun a => f a ev) ev m w s := by
  obtain ⟨m', hm'⟩ := hask
  exact ⟨m', fun halt => bind_error (hm' halt)⟩

theorem Asks.congr {α : Type} {x y : Evaluator → EvalM α} {ev : Evaluator} {m : Machine} {w : Ref}
    {s : Machine} (hask : Asks x ev m w s) (hsame : ∀ ev, y ev m = x ev m) : Asks y ev m w s := by
  obtain ⟨m', hm'⟩ := hask
  exact ⟨m', fun halt => (hsame _).trans (hm' halt)⟩

/-- The operator of a list is asked for first of all. -/
theorem asks_operator {ev : Evaluator} {m : Machine} {a : Addr} {car cdr : Ref}
    (hcell : m.heap.cell a = .live (.pair car cdr)) (hnil : ¬(car = none ∧ cdr = none)) :
    Asks (fun ev => evalStep ev (some a)) ev m car m := by
  refine ⟨m, fun halt => ?_⟩
  show evalStep _ (some a) m = _
  rw [evalStep_pair hcell hnil]
  exact bind_error (if_pos ⟨rfl, rfl⟩)

/-- What is asked for is a live expression on a sound machine. -/
theorem Program.asked_sound {calls binds : Prop} {α : Type} {m : Machine} {x : Evaluator → EvalM α}
    {P : Machine → α → Prop} {ev : Evaluator} (hp : Program calls binds m x P) (hev : ev.Keeps) (hs : m.Sound)
    {w : Ref} {s : Machine} (hask : Asks x ev m w s) : s.Sound ∧ s.heap.LiveRef w := by
  refine Classical.byContradiction fun hnot => ?_
  -- otherwise evaluation could as well end there as nothing that is sound does
  have hkeeps : (ev.haltingAt w s .dangling).Keeps := by
    intro w' s' hs' hw'
    by_cases heq : w' = w ∧ s' = s
    · obtain ⟨rfl, rfl⟩ := heq
      exact absurd ⟨hs', hw'⟩ hnot
    · rw [Evaluator.haltingAt, if_neg heq]
      exact hev w' s' hs' hw'
  obtain ⟨m', hm'⟩ := hask
  have hends := hp.ends hkeeps hs
  rw [hm' .dangling] at hends
  exact hends.2.2 rfl

/-- The evaluations within one: itself, and what these ask for. -/
inductive Nested (n : Nat) (v : Ref) (m : Machine) : Nat → Ref → Machine → Prop
  | whole : Nested n v m n v m
  | part {k : Nat} {w w' : Ref} {s s' : Machine} (hw : Nested n v m (k + 1) w s)
      (hask : Asks (fun ev => evalStep ev w) (eval k) s w' s') : Nested n v m k w' s'

/-- The evaluations within one that is within another are within that one. -/
theorem Nested.trans {n k l : Nat} {v w u : Ref} {m s t : Machine} (hw : Nested n v m k w s)
    (hu : Nested k w s l u t) : Nested n v m l u t := by
  induction hu with
  | whole => exact hw
  | part _ hask ih => exact .part ih hask

/-- Every evaluation within a sound one is of a live expression on a sound machine. -/
theorem Nested.sound {n k : Nat} {v w : Ref} {m s : Machine} (hs : m.Sound)
    (hv : m.heap.LiveRef v) (hw : Nested n v m k w s) : s.Sound ∧ s.heap.LiveRef w := by
  induction hw with
  | whole => exact ⟨hs, hv⟩
  | part _ hask ih => exact (evalStep_program ih.1 ih.2).asked_sound (eval_keeps _) ih.1 hask

namespace Interpreter

/-- The evaluations of the sessions that an interpreter can have, at any depth of nesting. -/
inductive Evaluates (i : Interpreter) (n : Nat) (v : Ref) (m : Machine) : Prop
  /-- Within a turn, after any steps. -/
  | turn (steps : List Step) (depth : Nat) (e : Expression)
      (hv : Nested depth (Heap.store e.tree (i.run steps).heap).1
        ((i.run steps).machine.started e.tree) n v m)
  /-- Within the turn of an expression of a source, after those before it. -/
  | source (steps : List Step) (depth : Nat) {text : Bytes} {before after : List Tree} {t : Tree}
      (hread : readData text = .ok (before ++ t :: after))
      (hv : Nested depth (Heap.store t ((i.run steps).execAll depth before).2.2.heap).1
        (((i.run steps).execAll depth before).2.2.machine.started t) n v m)
  /-- Within an evaluation that is no turn, after any steps. -/
  | bare (steps : List Step) (depth : Nat) (e : Expression)
      (hv : Nested depth (Heap.store e.tree (i.run steps).heap).1
        ((i.run steps).onHeap (Heap.store e.tree)).2.machine n v m)

/-- Every evaluation of a session is of a live expression on a sound machine. -/
theorem Evaluates.sound {i : Interpreter} (hr : i.machine.Rooted) {n : Nat} {v : Ref} {m : Machine}
    (hv : i.Evaluates n v m) : m.Sound ∧ m.heap.LiveRef v := by
  cases hv with
  | turn steps depth e hv =>
      obtain ⟨hr', _, hlive⟩ := (run_advances steps hr).rooted.started e.plain
      exact hv.sound hr'.sound hlive
  | @source steps depth text before after t hread hv =>
      have hplain := readData_plain hread
      have hbefore := execAll_advances depth (fun t' ht' => hplain t' (List.mem_append_left _ ht'))
        (run_advances steps hr).rooted
      obtain ⟨hr', _, hlive⟩ := hbefore.rooted.started
        (hplain t (List.mem_append_right _ List.mem_cons_self))
      exact hv.sound hr'.sound hlive
  | bare steps depth e hv =>
      obtain ⟨hr', _, hlive⟩ := (run_advances steps hr).rooted.stored e.plain rfl
      exact hv.sound hr'.sound hlive

end Interpreter

end ArenaLisp
