import ArenaLisp.Proofs.Evaluation

/-!
# Values stay as they are

No operation changes a value that is there. New values are made, and bindings change: `set`
overwrites one, and a call links the last one it captured to its frame. So whatever is seen of the
values alone, such as where a list ends, is seen again after an evaluation.

`eval_keeps` says more of sound machines. Here nothing is asked of the machine: released values may
be within reach, chains may go round and references may lead out of the heap.

- `eval_preserving`: evaluation to any depth, however it ends, leaves every value as it was.
-/

namespace ArenaLisp

namespace Heap

/-- Whether the values of one heap are in another as they were. -/
structure Preserves (h h' : Heap) : Prop where
  cells_le : h.cells.size ≤ h'.cells.size
  cell : ∀ a, h.Has (.value a) → h'.cell a = h.cell a

theorem Extends.preserves {h h' : Heap} (he : h.Extends h') : h.Preserves h' :=
  ⟨he.cells_le, he.cell⟩

namespace Preserves

theorem refl (h : Heap) : h.Preserves h := (Extends.refl h).preserves

theorem trans {h h' h'' : Heap} (hp : h.Preserves h') (hp' : h'.Preserves h'') :
    h.Preserves h'' where
  cells_le := Nat.le_trans hp.cells_le hp'.cells_le
  cell a ha := (hp'.cell a (Nat.lt_of_lt_of_le ha hp.cells_le)).trans (hp.cell a ha)

/-- The empty list remains one: what lies beyond the heap is not taken for it. -/
theorem isNil {h h' : Heap} (hp : h.Preserves h') {v : Ref} (hv : h.isNil v = true) :
    h'.isNil v = true := by
  cases v with
  | none => rfl
  | some a =>
      by_cases ha : h.Has (.value a)
      · rw [Heap.isNil, cell?, Option.map_some, hp.cell a ha]
        exact hv
      · rw [Heap.isNil, cell?, Option.map_some, cell_of_not_has ha] at hv
        cases hv

end Preserves

theorem preserves_bindFrame (h : Heap) (names values : Ref) (base : Chain) :
    h.Preserves (h.bindFrame names values base).2 := by
  cases hb : h.bindFrame names values base with
  | mk result h' =>
      cases result with
      | error cause =>
          rw [bindFrame_error hb]
          exact .refl h
      | ok frame => exact (extends_of_bindFrame hb).preserves

theorem preserves_join (h : Heap) (front back : Chain) : h.Preserves (h.join front back).2 := by
  rcases join_cases h front back with heq | ⟨last, -, heq⟩
  · rw [heq]
    exact .refl h
  · rw [heq]
    exact ⟨Nat.le_refl _, fun _ _ => rfl⟩

end Heap

open EvalM

/-! ## Programs -/

/-- Whether a program leaves every value as it was, on any machine and however it ends. -/
def EvalM.Preserving {α : Type} (x : EvalM α) : Prop :=
  ∀ m : Machine, m.heap.Preserves (finalMachine (x m)).heap

/-- Whether a way to evaluate leaves every value as it was. -/
def Evaluator.Preserving (ev : Evaluator) : Prop := ∀ v, EvalM.Preserving (ev v)

namespace EvalM.Preserving

variable {α β : Type}

theorem of_heap_eq {x : EvalM α} (h : ∀ m, (finalMachine (x m)).heap = m.heap) : Preserving x := by
  intro m
  rw [h m]
  exact .refl _

theorem pure (a : α) : Preserving (Pure.pure a) := of_heap_eq fun _ => rfl

theorem throw (e : Halt) : Preserving (MonadExcept.throw e : EvalM α) := of_heap_eq fun _ => rfl

theorem see (f : Heap → α) : Preserving (EvalM.see f) := of_heap_eq fun _ => rfl

theorem scope : Preserving EvalM.scope := of_heap_eq fun _ => rfl

theorem trackAll (v : Ref) : Preserving (EvalM.trackAll v) := of_heap_eq fun _ => rfl

theorem onHeap {f : Heap → α × Heap} (hf : ∀ h : Heap, h.Preserves (f h).2) :
    Preserving (EvalM.onHeap f) :=
  fun m => hf m.heap

theorem bind {x : EvalM α} {f : α → EvalM β} (hx : Preserving x) (hf : ∀ a, Preserving (f a)) :
    Preserving (x >>= f) := by
  intro m
  have hfirst := hx m
  cases hrun : x m with
  | error e m' =>
      rw [hrun] at hfirst
      rw [bind_error hrun]
      exact hfirst
  | ok a m' =>
      rw [hrun] at hfirst
      rw [bind_ok hrun]
      exact hfirst.trans (hf a m')

theorem fail (operator : String) (cause : Cause) :
    Preserving (EvalM.fail operator cause : EvalM α) :=
  throw (.error ⟨operator, cause⟩)

/-- What is wrong may be shown. -/
theorem fail_view (operator : String) (cause : Tree → Cause) (v : Ref) :
    Preserving (EvalM.view v >>= fun t => (EvalM.fail operator (cause t) : EvalM α)) :=
  .bind (.see _) fun t => .fail operator (cause t)

theorem inScope {x : EvalM α} (hx : Preserving x) (c : Chain) : Preserving (EvalM.inScope c x) := by
  intro m
  rw [finalMachine_inScope]
  exact hx { m with scope := c }

theorem mapM {f : α → EvalM β} (hf : ∀ a, Preserving (f a)) (xs : List α) :
    Preserving (xs.mapM f) := by
  induction xs with
  | nil => exact .pure []
  | cons x xs ih =>
      rw [List.mapM_cons]
      exact .bind (hf x) fun y => .bind ih fun ys => .pure (y :: ys)

theorem forM {f : α → EvalM PUnit} (hf : ∀ a, Preserving (f a)) (xs : List α) :
    Preserving (xs.forM f) := by
  induction xs with
  | nil => exact .pure ()
  | cons x xs ih => exact .bind (hf x) fun _ => ih

theorem foldrM {f : α → β → EvalM β} (hf : ∀ a b, Preserving (f a b)) (b : β) (xs : List α) :
    Preserving (xs.foldrM f b) := by
  induction xs with
  | nil => exact .pure b
  | cons x xs ih =>
      rw [List.foldrM_cons]
      exact .bind ih fun b' => hf x b'

/-! ## Operations that evaluate nothing -/

theorem new (d : Datum) : Preserving (EvalM.new d) :=
  .onHeap fun h => (Heap.extends_new h d).preserves

theorem make (d : Datum) : Preserving (EvalM.make d) :=
  .bind (.new d) fun v => .bind (.of_heap_eq fun _ => rfl) fun _ => .pure v

theorem copy (v : Ref) : Preserving (EvalM.copy v) :=
  .onHeap fun h => (Heap.copy_covers h v).grown.preserves

theorem argumentList (operator : String) (arguments : Ref) :
    Preserving (ArenaLisp.argumentList operator arguments) := by
  refine .bind (.see _) fun elements => ?_
  cases elements with
  | some cells => exact .pure cells
  | none => exact .fail_view operator _ arguments

theorem oneArgument (operator : String) (arguments : Ref) :
    Preserving (ArenaLisp.oneArgument operator arguments) := by
  refine .bind (.argumentList operator arguments) fun cells => ?_
  split
  · exact .pure _
  · exact .fail operator _

theorem twoArguments (operator : String) (arguments : Ref) :
    Preserving (ArenaLisp.twoArguments operator arguments) := by
  refine .bind (.argumentList operator arguments) fun cells => ?_
  split
  · exact .pure _
  · exact .fail operator _

theorem numberAt (operator : String) (position : Nat) (v : Ref) :
    Preserving (ArenaLisp.numberAt operator position v) := by
  refine .bind (.see _) fun cell => ?_
  split
  · exact .pure _
  · exact .fail_view operator _ v

theorem field (operator : String) (v : Ref) (part : Cell → Ref) :
    Preserving (ArenaLisp.field operator v part) := by
  refine .bind (.see _) fun cell => ?_
  cases cell with
  | none => exact .make .nil
  | some c =>
      dsimp only
      split
      · exact .fail operator _
      · split
        · exact .make .nil
        · exact .pure _

/-- A binding is overwritten or put in front. -/
theorem assign (name : String) (v : Ref) : Preserving (ArenaLisp.assign name v) := by
  refine .bind (.copy v) fun v' => .bind .scope fun here => .bind (.see _) fun found => ?_
  cases found with
  | some b =>
      refine .bind (.see _) fun old => .bind (.onHeap fun h => ?_) fun _ =>
        .bind (.trackAll _) fun _ => .pure v'
      exact ⟨Nat.le_refl _, fun _ _ => rfl⟩
  | none =>
      refine .bind (.new _) fun atom => .bind (.onHeap fun h => ?_) fun c =>
        .bind (.of_heap_eq fun _ => rfl) fun _ => .pure v'
      exact (Heap.extends_put h atom v' here).preserves

theorem settableName (v : Ref) : Preserving (ArenaLisp.settableName v) := by
  refine .bind (.see _) fun cell => ?_
  cases cell with
  | none => exact .fail "set" _
  | some c =>
      dsimp only
      split
      · exact .fail_view "set" _ v
      · split
        · exact .fail_view "set" _ v
        · exact .pure _

theorem environmentList : Preserving ArenaLisp.environmentList := by
  refine .bind .scope fun here => .bind (.see _) fun bindings => ?_
  refine .bind (.mapM (fun b => .make _) bindings) fun pairs => .bind (.make _) fun nil => ?_
  exact .foldrM (fun pair rest => .make _) nil pairs

theorem makeClosure (params body : Ref) : Preserving (ArenaLisp.makeClosure params body) := by
  refine .bind (.see _) fun fault => ?_
  cases fault with
  | some cause => exact .fail "lambda" cause
  | none =>
      refine .bind .scope fun ambient => .bind (.onHeap fun h => ?_) fun v =>
        .bind (.trackAll v) fun _ => .pure v
      exact (Heap.newClosure_covers h params body ambient).grown.preserves

theorem trackContents (bindings : List BindingId) :
    Preserving (ArenaLisp.trackContents bindings) :=
  .forM (fun _ => .bind (.see _) fun _ => .bind (.trackAll _) fun _ => .trackAll _) bindings

theorem callScope (c : Closure) (values : List Ref) :
    Preserving (ArenaLisp.callScope c values) := by
  have hcopy (h : Heap) := (Heap.copyChain_covers h c.captured).grown.preserves
  have hlist (h : Heap) := (Heap.extends_list values h).preserves
  refine .bind (.onHeap hcopy) fun captured => .bind (.see _) fun contents => ?_
  refine .bind (.trackContents contents) fun _ => .bind .scope fun caller => ?_
  refine .bind (.onHeap hlist) fun arguments => ?_
  refine .bind (.onHeap fun h => h.preserves_bindFrame c.params arguments caller) fun result => ?_
  cases result with
  | error cause => exact .fail "" cause
  | ok frame =>
      exact .bind (.onHeap fun h => h.preserves_join captured frame) fun call =>
        .bind (.of_heap_eq fun _ => rfl) fun _ => .pure call

end EvalM.Preserving

/-! ## Operations that evaluate -/

namespace Evaluator.Preserving

variable {ev : Evaluator}

theorem passArgument (hev : ev.Preserving) (argument : Ref) :
    EvalM.Preserving (ArenaLisp.passArgument ev argument) :=
  .bind (hev argument) fun w => .bind (.copy w) fun v => .bind (.trackAll v) fun _ => .pure v

/-- A closure makes another, or it enters a scope of its own and comes back. -/
theorem applyClosure (hev : ev.Preserving) (c : Closure) (arguments : Ref) :
    EvalM.Preserving (ArenaLisp.applyClosure ev c arguments) := by
  refine .bind (.see _) fun elements => ?_
  cases elements with
  | none => exact .fail_view "" _ arguments
  | some given =>
      refine .bind (.see _) fun params => ?_
      dsimp only
      split
      · exact .fail "" _
      · refine .bind (.mapM hev.passArgument given) fun values => ?_
        -- it waits for the other arguments or has them all
        split
        · refine .bind (.onHeap fun h => ?_) fun v => .bind (.of_heap_eq fun _ => rfl) fun _ =>
            .bind (.trackAll v) fun _ => .pure v
          exact (Heap.newPartial_covers h c _ values).grown.preserves
        · exact .bind (.callScope c values) fun call => .inScope (hev c.body) call

theorem evalOne (hev : ev.Preserving) (operator : String) (arguments : Ref) :
    EvalM.Preserving (ArenaLisp.evalOne ev operator arguments) :=
  .bind (.oneArgument operator arguments) fun v => hev v

theorem evalTwo (hev : ev.Preserving) (operator : String) (arguments : Ref) :
    EvalM.Preserving (ArenaLisp.evalTwo ev operator arguments) :=
  .bind (.twoArguments operator arguments) fun (v, w) =>
    .bind (hev v) fun v' => .bind (hev w) fun w' => .pure (v', w')

theorem evalNumbers (hev : ev.Preserving) (operator : String) (arguments : Ref) :
    EvalM.Preserving (ArenaLisp.evalNumbers ev operator arguments) :=
  .bind (hev.evalTwo operator arguments) fun (v, w) =>
    .bind (.numberAt operator 1 v) fun a => .bind (.numberAt operator 2 w) fun b => .pure (a, b)

theorem evalClauses (hev : ev.Preserving) (arguments tail : Ref) (position : Nat)
    (clauses : List Ref) :
    EvalM.Preserving (ArenaLisp.evalClauses ev arguments tail position clauses) := by
  induction clauses generalizing position with
  | nil =>
      refine .bind (.see _) fun nil => ?_
      split
      · exact .make .nil
      · exact .fail_view "cond" _ arguments
  | cons clause clauses ih =>
      refine .bind (.see _) fun elements => ?_
      split
      · rename_i predicate value
        refine .bind (hev predicate) fun p => .bind (.see _) fun nil => ?_
        split
        · exact ih (position + 1)
        · exact hev value
      · exact .fail_view "cond" _ clause

theorem run (hev : ev.Preserving) (arguments : Ref) (b : Builtin) :
    EvalM.Preserving (b.run ev arguments) := by
  cases b with
  | quote => exact .oneArgument "quote" arguments
  | atom => exact .bind (hev.evalOne "atom" arguments) fun v => .bind (.see _) fun b => .make _
  | eq => exact .bind (hev.evalTwo "eq" arguments) fun (v, w) => .bind (.see _) fun b => .make _
  | car => exact .bind (hev.evalOne "car" arguments) fun v => .field "car" v Cell.car
  | cdr => exact .bind (hev.evalOne "cdr" arguments) fun v => .field "cdr" v Cell.cdr
  | cons =>
      refine .bind (hev.evalTwo "cons" arguments) fun (v, w) => .bind (.see _) fun cell => ?_
      cases cell with
      | none => exact .make _
      | some c =>
          dsimp only
          split
          · exact .fail "cons" _
          · exact .make _
  | cond => exact .bind (.see _) fun (clauses, tail) => hev.evalClauses arguments tail 1 clauses
  | set =>
      exact .bind (hev.evalTwo "set" arguments) fun (v, w) =>
        .bind (.settableName v) fun name => .assign name w
  | env =>
      refine .bind (.argumentList "env" arguments) fun cells => ?_
      split
      · exact .environmentList
      · exact .fail "env" _
  | lambda =>
      exact .bind (.twoArguments "lambda" arguments) fun (params, body) => .makeClosure params body
  | macroDefinition => exact .fail "defmacro" .noMacros
  | arith op =>
      refine .bind (hev.evalNumbers op.symbol arguments) fun (a, b) => ?_
      dsimp only
      split
      · exact .make _
      · exact .fail op.symbol .divisionByZero
  | compare relation =>
      exact .bind (hev.evalNumbers relation.symbol arguments) fun (a, b) => .make _
  | arguments => exact .pure arguments

theorem apply (hev : ev.Preserving) (operator arguments : Ref) :
    EvalM.Preserving (ArenaLisp.apply ev operator arguments) := by
  refine .bind (.see _) fun cell => ?_
  split
  · exact hev.run arguments _
  · exact hev.applyClosure _ arguments
  -- what was released cannot be applied
  · exact .throw .dangling
  · exact .bind (.argumentList "" arguments) fun _ => .throw .dangling
  · exact .fail_view "" _ operator

theorem evalStep (hev : ev.Preserving) : Evaluator.Preserving (ArenaLisp.evalStep ev) := by
  intro v
  refine .bind (.see _) fun cell => ?_
  split
  · exact .make .nil
  · exact .fail "" .releasedExpression
  -- numbers, primitives and closures stand for themselves
  · exact .pure v
  · exact .pure v
  · exact .pure v
  -- an atom
  · split
    · exact .pure v
    · refine .bind .scope fun here => .bind (.see _) fun found => ?_
      split
      · exact .pure _
      · exact .fail "" _
  -- the empty list and any other
  · exact .pure v
  · rename_i car cdr _
    exact .bind (hev car) fun f => hev.apply f cdr
  · exact .fail "" _

end Evaluator.Preserving

/-- **Evaluation leaves every value as it was**, to any depth and however it ends. -/
theorem eval_preserving (n : Nat) : Evaluator.Preserving (eval n) := by
  induction n with
  | zero => exact fun v => .throw .tooDeep
  | succ n ih => exact ih.evalStep

end ArenaLisp
