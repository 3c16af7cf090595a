import ArenaLisp.Proofs.Retention
import ArenaLisp.Proofs.Walks

/-!
# Sessions make no cycles

Everything that a session does to its heap, from the empty one on, is a sequence of edits. Most of
it makes new nodes out of what is there. A binding gets another value only by `set`, and the value
is a copy, made of nodes that cannot refer to a binding that was there before them. A binding gets
another link only in front of a call, where the chain of copies is spliced onto a chain that does
not come back to it.

So in every heap along the way no node leads back to itself. Recursion along references ends, and
with it every walk, from whatever value or environment it starts.
-/

namespace ArenaLisp

namespace Machine

/-! ## Evaluation edits the heap -/

/-- Putting a binding of what was just made in front of the environment is an edit. -/
theorem Sound.define_edits {m : Machine} (hs : m.Sound) {A : Node → Prop} {h : Heap}
    {name value : Ref} (hb : Heap.Builds A m.heap h (Node.ofRef name ++ Node.ofRef value)) :
    m.heap.Edits (h.put name value m.scope).2 := by
  refine hb.edits.step (.put name value m.scope fun k hk => ?_)
  rw [Binding.parts, ← List.append_assoc] at hk
  rcases List.mem_append.mp hk with hk | hk
  · exact (hb.usable k hk).1
  · exact hb.grown.has (hs.linked.front_has k hk)

/-- `set` edits the heap: it binds a copy, which refers to nothing that was there. -/
theorem Sound.assign_edits {m m' : Machine} (hs : m.Sound) {name : String} {v w : Ref}
    (hv : m.heap.LiveRef v) (hw : assign name v m = .ok w m') : m.heap.Edits m'.heap := by
  have hcopy := Heap.copy_copies hv
  have hlinked := hcopy.grown.linked hs.linked
  rw [assign_eq] at hw
  cases hfind : (m.heap.copy v).2.findBinding? m.scope name with
  | some b =>
      rw [hfind] at hw
      cases hw
      have hb : m.heap.Has (.binding b) := by
        have hmem := Heap.mem_of_findBinding? hfind
        rw [hlinked.chain_eq] at hmem
        exact hs.env_has hmem
      refine hcopy.edits.step (.overwrite b (m.heap.copy v).1 fun k hk => ?_)
      exact ⟨(hcopy.usable k hk).1, fun hr => (Heap.Copies.reaches_made hcopy hk hr).2 hb⟩
  | none =>
      rw [hfind] at hw
      cases hw
      have hatom := (Heap.Builds.refl (fun _ => False) (m.heap.copy v).2).new (d := .atom name)
        fun k hk => hk
      exact hs.define_edits ((hcopy.append hatom).weaken fun k hk =>
        List.mem_append.mpr (List.mem_append.mp hk).symm)

theorem Changes.edits {m m' : Machine} (hc : m.Changes m') (hs : m.Sound) :
    m.heap.Edits m'.heap := by
  cases hc with
  | build hb _ _ _ _ => exact hb.edits
  | bind hv hname hw => exact hs.assign_edits hv hw

theorem releaseAll_edits (m : Machine) : m.heap.Edits m.releaseAll.2.heap := by
  show m.heap.Edits (m.arena.releaseAll m.heap).2
  rw [Heap.releaseAll_eq_foldl]
  exact .releaseEach _ _

/-- To have a heap edited from a given one persists. -/
theorem edits_persistent (h : Heap) : Persistent fun m => h.Edits m.heap where
  invariant :=
    { change := fun hs hc he => he.trans (hc.edits hs)
      enter := fun _ _ hent _ _ he => he.trans hent.edits
      leave := fun _ _ _ he => he }
  release := fun {m} _ he => he.trans m.releaseAll_edits

end Machine

/-- What is done to the heap before, within and after the evaluations within one are edits. -/
theorem Nested.edits {n k : Nat} {v w : Ref} {m s : Machine} (hs : m.Sound)
    (hv : m.heap.LiveRef v) (hw : Nested n v m k w s) :
    m.heap.Edits s.heap ∧ s.heap.Edits (s.eval k w).2.heap ∧
      (s.eval k w).2.heap.Edits (m.eval n v).2.heap := by
  have hpersists := fun h => (Machine.edits_persistent h).invariant
  obtain ⟨hs', hw'⟩ := hw.sound hs hv
  refine ⟨(hw.maintains (hpersists m.heap) hs hv).1 (.refl _),
    (hpersists s.heap).eval hs' k hw' (.refl _), ?_⟩
  rw [Machine.eval_snd, Machine.eval_snd]
  exact (hw.maintains (hpersists _) hs hv).2 (.refl _)

namespace Interpreter

open Machine

variable {I : Machine → Prop} {i : Interpreter}

/-- What persists holds wherever an evaluation of a session starts. -/
theorem Evaluates.persistent (hI : Persistent I) (hr : i.machine.Rooted) (hi : I i.machine)
    {n : Nat} {v : Ref} {m : Machine} (hv : i.Evaluates n v m) : I m := by
  cases hv with
  | turn steps depth e hv =>
      have hr' := (run_advances steps hr).rooted
      have hrun := run_persistent hI steps hr hi
      obtain ⟨hr₁, -, hlive⟩ := hr'.started e.plain
      refine (hv.maintains hI.invariant hr₁.sound hlive).1 ?_
      exact hI.invariant.started hr'.sound e.plain hrun
  | @source steps depth text before after t hread hv =>
      have hplain := readData_plain hread
      have hbefore := fun t' (ht' : t' ∈ before) => hplain t' (List.mem_append_left _ ht')
      have ht := hplain t (List.mem_append_right _ List.mem_cons_self)
      have hr' := (execAll_advances depth hbefore (run_advances steps hr).rooted).rooted
      have hrun := execAll_persistent hI depth hbefore (run_advances steps hr).rooted
        (run_persistent hI steps hr hi)
      obtain ⟨hr₁, -, hlive⟩ := hr'.started ht
      exact (hv.maintains hI.invariant hr₁.sound hlive).1 (hI.invariant.started hr'.sound ht hrun)
  | bare steps depth e hv =>
      have hr' := (run_advances steps hr).rooted
      have hrun := run_persistent hI steps hr hi
      obtain ⟨hr₁, -, hlive⟩ := hr'.stored e.plain rfl
      refine (hv.maintains hI.invariant hr₁.sound hlive).1 (hI.invariant.change hr'.sound ?_ hrun)
      exact changes_store e.plain rfl rfl rfl (fun _ hn => hn) fun _ hn => Or.inl hn

/-! ## New interpreters -/

theorem bindPrimitives_edits (ps : List (String × Builtin)) {i : Interpreter}
    (hr : i.machine.Rooted) : i.machine.heap.Edits (bindPrimitives ps i).2.machine.heap := by
  refine (bindPrimitives_keeps (I := fun j => i.machine.heap.Edits j.machine.heap)
    (fun j hr hj name builtin => hj.trans ?_) ps hr (.refl _)).2
  have hatom := (Heap.Builds.refl (fun _ => False) j.machine.heap).new (d := .atom name)
    fun k hk => hk
  have hvalue := (Heap.Builds.refl (fun _ => False) (j.machine.heap.new (.atom name)).2).new
    (d := .primitive ⟨j.serial, name, builtin⟩) fun k hk => hk
  exact hr.sound.define_edits (hatom.append hvalue)

theorem new_edits {extra : List (String × Builtin)} {print reads : Bool} {i : Interpreter}
    (hi : new extra print reads = .ok i) : Heap.empty.Edits i.machine.heap := by
  obtain ⟨bare, hmachine, -, -, -, hbinds⟩ := new_binds hi
  have hedits := bindPrimitives_edits bare.builtins (i := bare) (hmachine ▸ rooted_empty)
  rwa [hbinds, hmachine] at hedits

/--
**Sessions make no cycles, and all walks end.** The heaps of a session come about by edits: each
step is a sequence of them, and so is what comes before, within and after every evaluation, at any
depth of nesting. In every heap that edits lead to, no node leads back to itself, so recursion along
references is well-founded, every chain ends and has no binding twice, and every walk from a value
or along a chain does the same when it is given more steps than it has.
-/
theorem session_walks_end {extra : List (String × Builtin)} {print reads : Bool} {i : Interpreter}
    (hi : new extra print reads = .ok i) :
    (∀ steps, Heap.empty.Edits (i.run steps).heap ∧
      ∀ s, (i.run steps).heap.Edits ((i.run steps).step s).heap) ∧
    (∀ n v m, i.Evaluates n v m → Heap.empty.Edits m.heap ∧
      ∀ k w s, Nested n v m k w s → m.heap.Edits s.heap ∧ s.heap.Edits (s.eval k w).2.heap ∧
        (s.eval k w).2.heap.Edits (m.eval n v).2.heap) ∧
    (∀ h, Heap.empty.Edits h → (∀ n, ¬h.Cyclic n) ∧ (WellFounded fun k n => k ∈ h.parts n) ∧
      (∀ v, (∀ n ∈ Node.ofRef v, h.Has n) → h.WalksEnd v) ∧
      ∀ c, (∀ n ∈ Node.ofChain c, h.Has n) → h.ChainEnds c) := by
  have hr := (new_rooted hi).1
  have hedits := new_edits hi
  have hpersists := Machine.edits_persistent Heap.empty
  refine ⟨fun steps => ⟨run_persistent hpersists steps hr hedits, fun s => ?_⟩, fun n v m hv => ?_,
    fun h hh => ?_⟩
  · exact step_persistent (Machine.edits_persistent _) (run_advances steps hr).rooted s (.refl _)
  · obtain ⟨hs, hlive⟩ := hv.sound hr
    exact ⟨hv.persistent hpersists hr hedits, fun k w s hw => hw.edits hs hlive⟩
  · obtain ⟨hb, hac⟩ := hh.acyclic Heap.bounded_empty Heap.acyclic_empty
    refine ⟨hac, hac.wellFounded hb, fun v hv => ?_, fun c hc => ?_⟩
    · exact Heap.walksEnd_of_acyclic hb fun n hn => ⟨hv n hn, hac.acyclicFrom n⟩
    · exact Heap.chainEnds_of_acyclic hb fun n hn => ⟨hc n hn, hac.acyclicFrom n⟩

/-- A function that names itself is bound twice; the second time it captures the first. -/
theorem session_walks_end_recursive : ∃ i e, new [("list-args", .arguments)] true true = .ok i ∧
    e.tree = .ofList [.atom "set", .quote (.atom "f"), .ofList [.atom "lambda",
      .ofList [.atom "x"], .ofList [.atom "f", .atom "x"]]] ∧
    Heap.empty.Edits (i.run [.exec 9 e, .exec 9 e]).heap ∧
    (i.run [.exec 9 e, .exec 9 e]).heap.ChainEnds (i.run [.exec 9 e, .exec 9 e]).root := by
  obtain ⟨i, hi⟩ := new_arguments
  have h₁ : readOne "(set 'f (lambda (x) (f x)))".toUTF8.toList = .ok (.ofList [.atom "set",
      .quote (.atom "f"), .ofList [.atom "lambda", .ofList [.atom "x"],
        .ofList [.atom "f", .atom "x"]]]) := by decide +kernel
  obtain ⟨hsteps, -, hheaps⟩ := session_walks_end hi
  have hedits := (hsteps [.exec 9 (.ofText _ h₁), .exec 9 (.ofText _ h₁)]).1
  refine ⟨i, .ofText _ h₁, hi, rfl, hedits, (hheaps _ hedits).2.2.2 _ ?_⟩
  exact (run_advances _ (new_rooted hi).1).rooted.sound.linked.front_has

end Interpreter

end ArenaLisp
