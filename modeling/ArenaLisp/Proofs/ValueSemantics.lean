import ArenaLisp.Proofs.Simulation

/-!
# Value semantics

What a program sees of the heap is what it would see of immutable values. Copies, registered
nodes, releases and the order of allocation do not show: a session prints what the evaluator
of `Reference` makes of it, fails where that fails and leaves the same environment.

The one exception is `eq` on two lists that are not empty, which tells whether they are the
same list. Sessions that come to that are left out.
-/

namespace ArenaLisp

open Machine

/-! ## Turns -/

namespace Machine

variable {m : Machine} {env : Reference.Env}

theorem Models.withLog (hm : m.Models env) (log : Array LogRecord) :
    Models { m with log := log } env := hm

/-- A new expression unfolds into its tree and changes no entry. -/
theorem Models.started (hr : m.Rooted) (hm : m.Models env) {t : Tree} (ht : t.Plain) :
    (m.started t).Models env ∧ (m.started t).heap.Unfolds (Heap.store t m.heap).1 t :=
  ⟨hm.of_extends hr.sound (Heap.store_copies t m.heap ht).grown rfl, Heap.unfolds_store m.heap ht⟩

/-- What a lasting environment binds is not released. -/
theorem Models.releaseAll (hr : m.Rooted) (hm : m.Models env) : m.releaseAll.2.Models env := by
  rw [Models, hr.releaseAll_env]
  refine ((List.forall₂_and_left _ _).mpr ⟨fun _ hb => hb, hm⟩).imp fun b e hbe => ?_
  obtain ⟨hb, hname, hvalue⟩ := hbe
  rw [Heap.Entry, hr.releaseAll_binding hb]
  exact ⟨hname.congr fun k hk => hr.releaseAll_agreeAt hb (Or.inl rfl) hk,
    hvalue.congr fun k hk => hr.releaseAll_agreeAt hb (Or.inr rfl) hk⟩

end Machine

namespace Interpreter

/-- A turn shows what it shows on entries, and leaves them. -/
theorem execTree_agrees {i : Interpreter} {env : Reference.Env} (hr : i.machine.Rooted)
    (hm : i.machine.Models env) {t : Tree} (ht : t.Plain) (depth : Nat)
    (hup : gaveUp (watched depth (Heap.store t i.heap).1 (i.machine.started t)) = false) :
    ((i.execTree depth t).1.output, (i.execTree depth t).1.failure) =
      (Reference.turn i.print depth t env).1 ∧
    (i.execTree depth t).2.machine.Models (Reference.turn i.print depth t env).2 := by
  obtain ⟨hr₁, -, hlive⟩ := hr.started ht
  obtain ⟨hm₁, hu⟩ := hm.started hr ht
  have hends := eval_keeps depth _ _ hr₁.sound hlive
  have hagree := eval_agrees hr₁.sound hm₁ hu hup
  rw [execTree_eq, Machine.exec_eq, Machine.eval, Reference.turn]
  cases hrun : ArenaLisp.eval depth (Heap.store t i.machine.heap).1 (i.machine.started t) with
  | ok v m' =>
      rw [hrun] at hagree
      obtain ⟨u, env', href, hs', he', hm', hv⟩ := hagree
      have hrender : m'.heap.render v = u.render := congrArg Tree.render (Heap.Unfolds.view_eq hv)
      rw [href]
      refine ⟨?_, hm'.releaseAll (hr₁.evolves he' hs')⟩
      simp only [shown, hrender]
  | error e m' =>
      rw [hrun] at hagree hends
      rcases hagree with rfl | ⟨env', href, hs', he', hm'⟩
      · exact absurd rfl hends.2.2
      · rw [href]
        exact ⟨rfl, (hm'.withLog _).releaseAll ((hr₁.evolves he' hs').withLog _)⟩

/-! ## Sessions -/

/-- Whether no turn of a session has `eq` compare two lists that are not empty. -/
def comparesNoLists (i : Interpreter) : List (Nat × Tree) → Bool
  | [] => true
  | (depth, t) :: ts =>
    !gaveUp (watched depth (Heap.store t i.heap).1 (i.machine.started t)) &&
      (i.execTree depth t).2.comparesNoLists ts

/-- The names that the root environment binds, from the front, and their values. -/
def bound (i : Interpreter) : List (Option String × Tree) :=
  (i.heap.chain i.root).map fun b => (i.heap.boundName? b, i.heap.view (i.heap.binding b).value)

theorem bound_eq {i : Interpreter} {env : Reference.Env} (hm : i.machine.Models env) :
    i.bound = env.map fun e => (some e.1, e.2) := by
  have hsame : List.Forall₂ Eq i.bound (env.map fun e => (some e.1, e.2)) :=
    List.forall₂_map_left_iff.mpr (List.forall₂_map_right_iff.mpr
      (hm.imp fun _ _ hb => Prod.ext hb.boundName? hb.2.view_eq))
  rwa [List.forall₂_eq_eq_eq] at hsame

theorem session_agrees {i : Interpreter} {env : Reference.Env} (hr : i.machine.Rooted)
    (hm : i.machine.Models env) (es : List (Nat × Expression))
    (hlists : i.comparesNoLists (es.map fun e => (e.1, e.2.tree)) = true) :
    (i.session execTree es).1.map (fun turn => (turn.output, turn.failure)) =
      (Reference.session i.print es env).1 ∧
    (i.session execTree es).2.machine.Models (Reference.session i.print es env).2 := by
  induction es generalizing i env with
  | nil => exact ⟨rfl, hm⟩
  | cons p es ih =>
      obtain ⟨depth, e⟩ := p
      obtain ⟨hup, hrest⟩ := Bool.and_eq_true_iff.mp hlists
      obtain ⟨hshown, hm'⟩ := execTree_agrees hr hm e.plain depth (by simpa using hup)
      have hprint : (i.execTree depth e.tree).2.print = i.print := by rw [execTree_eq]
      have hnext := ih (execTree_advances hr depth e.plain).1.rooted hm' hrest
      rw [hprint] at hnext
      exact ⟨congrArg₂ List.cons hshown hnext.1, hnext.2⟩

/-! ## New interpreters -/

theorem bindPrimitives_models (ps : List (String × Builtin)) {i : Interpreter} {env : Reference.Env}
    (hr : i.machine.Rooted) (hm : i.machine.Models env) (hok : (bindPrimitives ps i).1 = none) :
    (bindPrimitives ps i).2.machine.Models (((ps.zipIdx i.serial).map fun p =>
      (p.1.1, Tree.primitive ⟨p.2, p.1.1, p.1.2⟩)).reverse ++ env) ∧
    (bindPrimitives ps i).2.print = i.print := by
  induction ps generalizing i env with
  | nil => exact ⟨hm, rfl⟩
  | cons p ps ih =>
      obtain ⟨name, builtin⟩ := p
      rw [bindPrimitives] at hok ⊢
      split at hok
      · cases hok
      · rename_i hfree
        rw [if_neg hfree]
        have he := Heap.extends_new i.machine.heap (.atom name)
        have he' := Heap.extends_new (i.machine.heap.new (.atom name)).2
          (.primitive ⟨i.serial, name, builtin⟩)
        have hbound := hm.put hr.sound (he.trans he')
          (he'.unfolds (.atom (Heap.cell_new i.machine.heap (.atom name))))
          (.primitive (Heap.cell_new _ _)) i.machine.arena i.machine.log
        have hnext := ih (withPrimitive_rooted hr name builtin) hbound hok
        rw [List.zipIdx_cons, List.map_cons, List.reverse_cons, List.append_assoc]
        exact hnext

/-- A new interpreter binds the primitives, and nothing else. -/
theorem new_models {extra : List (String × Builtin)} {print reads : Bool} {i : Interpreter}
    (hi : new extra print reads = .ok i) :
    i.machine.Models (Reference.initial (Builtin.standard ++ extra)) ∧ i.print = print := by
  obtain ⟨bare, hmachine, hserial, hbuiltins, hprint, hbinds⟩ := new_binds hi
  have hempty : bare.machine.Models [] := by
    rw [hmachine]
    exact .nil
  have hbound := bindPrimitives_models bare.builtins (hmachine ▸ rooted_empty) hempty
  rw [hbinds] at hbound
  obtain ⟨hm, hsame⟩ := hbound rfl
  rw [hbuiltins, hserial, List.append_nil] at hm
  exact ⟨hm, hsame.trans hprint⟩

theorem comparesNoLists_take {i : Interpreter} {ts : List (Nat × Tree)}
    (hts : i.comparesNoLists ts = true) (k : Nat) : i.comparesNoLists (ts.take k) = true := by
  induction ts generalizing i k with
  | nil => rwa [List.take_nil]
  | cons p ts ih =>
      cases k with
      | zero => rfl
      | succ k =>
          obtain ⟨hup, hrest⟩ := Bool.and_eq_true_iff.mp hts
          exact Bool.and_eq_true_iff.mpr ⟨hup, ih hrest k⟩

/--
**Value semantics.** However many turns of a session are taken, they print the texts and fail
with the errors that they do on immutable values, and the root environment binds the same
names in the same order, to values that are the same trees.
-/
theorem session_on_immutable_values {extra : List (String × Builtin)} {print reads : Bool}
    {i : Interpreter} (hi : new extra print reads = .ok i) (es : List (Nat × Expression))
    (hlists : i.comparesNoLists (es.map fun e => (e.1, e.2.tree)) = true) (k : Nat) :
    (i.session execTree (es.take k)).1.map (fun turn => (turn.output, turn.failure)) =
      (Reference.session print (es.take k) (Reference.initial (Builtin.standard ++ extra))).1 ∧
    (i.session execTree (es.take k)).2.bound =
      (Reference.session print (es.take k) (Reference.initial (Builtin.standard ++ extra))).2.map
        fun e => (some e.1, e.2) := by
  obtain ⟨hm, rfl⟩ := new_models hi
  have htake := comparesNoLists_take hlists k
  rw [← List.map_take] at htake
  obtain ⟨hshown, hm'⟩ := session_agrees (new_rooted hi).1 hm (es.take k) htake
  exact ⟨hshown, bound_eq hm'⟩

/-- A closure waits for its second argument, and is given one that is no number. -/
theorem session_on_immutable_values_partial : ∃ (i : Interpreter) (e₁ e₂ : Expression),
    new [("list-args", .arguments)] true true = .ok i ∧
    e₁.tree = .ofList [.atom "set", .quote (.atom "f"), .ofList [.ofList [.atom "lambda",
      .ofList [.atom "x", .atom "y"], .ofList [.atom "<=", .atom "x", .atom "y"]],
      .number (.int 1)]] ∧
    e₂.tree = .ofList [.atom "f", .atom "f"] ∧
    i.comparesNoLists [(9, e₁.tree), (9, e₂.tree)] = true ∧
    (i.session execTree [(9, e₁), (9, e₂)]).1.map (fun turn => (turn.output, turn.failure)) =
      (Reference.session true [(9, e₁), (9, e₂)]
        (Reference.initial (Builtin.standard ++ [("list-args", .arguments)]))).1 ∧
    (i.session execTree [(9, e₁), (9, e₂)]).2.bound =
      (Reference.session true [(9, e₁), (9, e₂)]
        (Reference.initial (Builtin.standard ++ [("list-args", .arguments)]))).2.map
          fun e => (some e.1, e.2) := by
  have h₁ : readOne "(set 'f ((lambda (x y) (<= x y)) 1))".toUTF8.toList =
      .ok (.ofList [.atom "set", .quote (.atom "f"), .ofList [.ofList [.atom "lambda",
        .ofList [.atom "x", .atom "y"], .ofList [.atom "<=", .atom "x", .atom "y"]],
        .number (.int 1)]]) := by decide +kernel
  have h₂ : readOne "(f f)".toUTF8.toList = .ok (.ofList [.atom "f", .atom "f"]) := by
    decide +kernel
  have hno : ((new [("list-args", .arguments)] true true).toOption.any fun i =>
      i.comparesNoLists [
        (9, .ofList [.atom "set", .quote (.atom "f"), .ofList [.ofList [.atom "lambda",
          .ofList [.atom "x", .atom "y"], .ofList [.atom "<=", .atom "x", .atom "y"]],
          .number (.int 1)]]),
        (9, .ofList [.atom "f", .atom "f"])]) = true := by
    decide +kernel
  obtain ⟨i, hi⟩ := new_arguments
  rw [hi] at hno
  obtain ⟨i', hi', hno⟩ := (Option.any_eq_true _ _).mp hno
  obtain rfl : i = i' := Option.some.inj hi'
  obtain ⟨hshown, hbound⟩ := session_on_immutable_values hi
    [(9, .ofText _ h₁), (9, .ofText _ h₂)] hno 2
  exact ⟨i, .ofText _ h₁, .ofText _ h₂, hi, rfl, rfl, hno, hshown, hbound⟩

end Interpreter

end ArenaLisp
