import ArenaLisp.Proofs.Capturing
import ArenaLisp.Proofs.Finiteness
import ArenaLisp.Proofs.Origin
import ArenaLisp.Proofs.Resolution
import ArenaLisp.Proofs.Sweeping

/-!
# What `set` does

`set` binds a name to a copy of a value. The copy is made first, of nodes that were not there, so it
does not matter whether the value is, or holds, what the name is bound to. If the name is bound, its
first binding gets the copy and the value that it had is registered; otherwise a binding is put in
front. Nothing else changes.

The value that was replaced can still be in use, as a closure that is running or as an argument. It
is left as it is, for the arena to release: it `Postpones` that. Up to the next release everything
that is registered stays as it is, whatever is evaluated, and then all of it is released.
-/

namespace ArenaLisp

open EvalM

namespace Heap

/-- Whether a value is an atom whose name can be bound. -/
def Settable (h : Heap) (v : Ref) (name : String) : Prop :=
  ∃ a, v = some a ∧ (h.cell a).kind = .atom ∧ (h.cell a).name = name ∧ name ≠ truthName

end Heap

namespace Machine

/-! ## Binding a copy -/

/-- Whether the environment and a value reach no cycle, and all that is referred to is there. -/
structure Grounded (m : Machine) (w : Ref) : Prop where
  bounded : m.heap.Bounded
  scope : ∀ n ∈ Node.ofChain m.scope, m.heap.Has n ∧ m.heap.AcyclicFrom n
  value : ∀ n ∈ Node.ofRef w, m.heap.Has n ∧ m.heap.AcyclicFrom n
  tracked : ∀ n, m.Tracked n → m.heap.Has n

/-- A binding is given another value, and the one that it had is registered. -/
structure Overwrites (m : Machine) (b : BindingId) (bound : Ref) (m' : Machine) : Prop where
  env : m'.env = m.env
  binding : m'.heap.binding b = { m.heap.binding b with value := bound }
  kept : ∀ n, m.heap.Has n → n ≠ .binding b → m.heap.AgreeAt m'.heap n
  registered : ∀ n, m'.Tracked n ↔ m.Tracked n ∨ m.heap.Holds (m.heap.binding b).value n
  generation : m'.arena.generation = m.arena.generation
  /-- The value that was bound is as it was, and all of it is released with what is registered. -/
  replaced : ∀ k, m.heap.Holds (m.heap.binding b).value k →
    m.heap.AgreeAt m'.heap k ∧ m'.releaseAll.2.heap.Released k

/-- A new binding is put in front of the environment. -/
structure Prepends (m : Machine) (name : String) (bound : Ref) (m' : Machine) : Prop where
  front : ∃ b, m'.env = b :: m.env ∧ ¬m.heap.Has (.binding b) ∧ m'.heap.Named b name ∧
    (m'.heap.binding b).value = bound ∧ (m'.heap.binding b).next = m.scope
  kept : ∀ n, m.heap.Has n → m.heap.AgreeAt m'.heap n
  arena : m'.arena = m.arena

/-- A name is bound to a copy of a value. -/
structure Rebinds (m : Machine) (name : String) (w bound : Ref) (m' : Machine) : Prop where
  found : m'.heap.lookup? m'.scope name = some bound
  alike : m.heap.Alike m'.heap (Node.ofRef w) (Node.ofRef bound)
  fresh : ∀ k, m'.heap.Holds bound k → m.heap.Made m'.heap k ∧ ¬m'.Tracked k
  others : ∀ x, x ≠ name → m'.heap.lookup? m'.scope x = m.heap.lookup? m.scope x
  overwrites : ∀ b, m.heap.findBinding? m.scope name = some b → m.Overwrites b bound m'
  prepends : m.heap.findBinding? m.scope name = none → m.Prepends name bound m'

section

variable {m : Machine} {w : Ref} (hg : m.Grounded w)

include hg

theorem Grounded.linked : m.heap.Linked m.scope m.env := by
  obtain ⟨bs, hbs⟩ := (Heap.AcyclicFrom.confined hg.bounded hg.scope).exists_linked
  rwa [Machine.env, hbs.chain_eq]

/-- What a binding of the environment binds does not lead back to it. -/
theorem Grounded.holds_ne {b : BindingId} (hb : b ∈ m.env) {k : Node}
    (hk : m.heap.Holds (m.heap.binding b).value k) : k ≠ .binding b := by
  rintro rfl
  obtain ⟨p, hp, hreach⟩ := hg.linked.reaches hb
  obtain ⟨n, hn, hback⟩ := Heap.holds_iff.mp hk
  have hpart : n ∈ m.heap.parts (.binding b) :=
    List.mem_append_right _ (List.mem_append_left _ hn)
  exact (hg.scope p hp).2 _ hreach (Heap.cyclic_iff.mpr ⟨n, hpart, hback⟩)

/-- All that a binding of the environment binds is there, and none of it is in a cycle. -/
theorem Grounded.holds_has {b : BindingId} (hb : b ∈ m.env) {k : Node}
    (hk : m.heap.Holds (m.heap.binding b).value k) : m.heap.Has k ∧ ¬m.heap.Cyclic k := by
  obtain ⟨n, hn, hreach⟩ := Heap.holds_iff.mp hk
  have hpart : n ∈ (m.heap.binding b).parts := List.mem_append_right _ (List.mem_append_left _ hn)
  obtain ⟨hhas, hac⟩ := hg.linked.acyclic_part hg.bounded hg.scope hb hpart
  exact ⟨hg.bounded.reaches_has hhas hreach, hac k hreach⟩

/-! With a copy made, of nodes that were not there, a name is bound to it. -/

variable {h : Heap} {bound : Ref} (hcopy : m.heap.Duplicates (Node.ofRef w) h (Node.ofRef bound))

include hcopy

/-- The environment is a chain of the same bindings when one of them is overwritten, -/
theorem Grounded.linked_overwritten (b : BindingId) :
    (h.overwritten b bound).Linked m.scope m.env := by
  have hgrown := hcopy.trees.grown
  refine (hgrown.linked hg.linked).congr fun b' hb' => ?_
  have hhas := hgrown.has (hg.linked.has hb')
  exact ⟨Heap.overwritten_has.mpr hhas, (Heap.overwritten_fixed hhas).2.1⟩

/-- under the same names. -/
theorem Grounded.findBinding?_overwritten (b : BindingId) (x : String) :
    (h.overwritten b bound).findBinding? m.scope x = m.heap.findBinding? m.scope x := by
  have hgrown := hcopy.trees.grown
  refine Heap.findBinding?_congr (hg.linked_overwritten hcopy b).chain_eq (fun b' hb' => ?_) x
  have hhas := hg.linked.has hb'
  rw [Heap.overwritten_boundName? (hgrown.has hhas), hg.bounded.boundName?_eq hgrown hhas]

/-- The value that is replaced stays as it is, -/
theorem Grounded.agreeAt_replaced {b : BindingId} (hb : b ∈ m.env) {k : Node}
    (hk : m.heap.Holds (m.heap.binding b).value k) : m.heap.AgreeAt (h.overwritten b bound) k :=
  (hcopy.trees.grown.agreeAt (hg.holds_has hb hk).1).trans
    (Heap.overwritten_agreeAt (hg.holds_ne hb hk))

/-- and its nodes are what it held. -/
theorem Grounded.mem_nodes_replaced {b : BindingId} (hb : b ∈ m.env) {k : Node} :
    k ∈ (h.overwritten b bound).nodes (m.heap.binding b).value ↔
      m.heap.Holds (m.heap.binding b).value k := by
  have hsame := fun l => hg.agreeAt_replaced hcopy hb (k := l)
  rw [Heap.mem_nodes_iff, Heap.holds_congr hsame]
  -- the binding is in no path of the value, so no cycle can come in through it
  intro l hl
  rw [Heap.holds_congr hsame] at hl
  obtain ⟨hhas, hcyclic⟩ := hg.holds_has hb hl
  refine ⟨Heap.overwritten_has.mpr (hcopy.trees.grown.has hhas), fun hback => hcyclic ?_⟩
  obtain ⟨a, ha, hreach⟩ := hl
  exact (Heap.cyclic_congr fun q hq => hsame q ⟨a, ha, hreach.trans hq⟩).mp hback

/-- **A name that is bound** gets the copy in its first binding. -/
theorem Grounded.rebinds_overwritten {name : String} {b : BindingId}
    (hfind : m.heap.findBinding? m.scope name = some b) :
    m.Rebinds name w bound ⟨h.overwritten b bound,
      m.arena.trackNodes ((h.overwritten b bound).nodes (m.heap.binding b).value), m.scope,
      m.log⟩ := by
  have hgrown := hcopy.trees.grown
  have hb : b ∈ m.env := Heap.mem_of_findBinding? hfind
  have hhas := hg.linked.has hb
  have hself := Heap.overwritten_self (v := bound) (hgrown.has hhas)
  rw [hgrown.binding b hhas] at hself
  -- the binding was there and the copy was not, so the binding is no part of it
  have hbound : ∀ n ∈ Node.ofRef bound, ∀ k, h.Reaches n k →
      h.AgreeAt (h.overwritten b bound) k := by
    intro n hn k hk
    refine Heap.overwritten_agreeAt ?_
    rintro rfl
    exact (hcopy.trees.made n hn _ hk).2 hhas
  have htracked : ∀ n, n ∈ (m.arena.trackNodes
      ((h.overwritten b bound).nodes (m.heap.binding b).value)).tracked ↔
      m.Tracked n ∨ m.heap.Holds (m.heap.binding b).value n := by
    intro n
    rw [Arena.mem_trackNodes, hg.mem_nodes_replaced hcopy hb]
    rfl
  refine ⟨?found, ?alike, ?fresh, ?others, ?overwrites, ?prepends⟩
  case found =>
    show (h.overwritten b bound).lookup? m.scope name = _
    rw [Heap.lookup?, hg.findBinding?_overwritten hcopy, hfind, Option.map_some, hself]
  case alike => exact hcopy.alike.congr (fun _ _ k _ => Heap.AgreeAt.refl _ k) hbound
  case fresh =>
    intro k hk
    obtain ⟨n, hn, hreach⟩ := Heap.holds_iff.mp hk
    obtain ⟨hnew, hnot⟩ := hcopy.trees.made n hn k ((Heap.reaches_congr (hbound n hn)).mp hreach)
    refine ⟨⟨Heap.overwritten_has.mpr hnew, hnot⟩, fun hk => ?_⟩
    rcases (htracked k).mp hk with hk | hk
    · exact hnot (hg.tracked k hk)
    · exact hnot (hg.holds_has hb hk).1
  case others =>
    intro x hx
    show (h.overwritten b bound).lookup? m.scope x = _
    rw [Heap.lookup?, Heap.lookup?, hg.findBinding?_overwritten hcopy]
    cases hother : m.heap.findBinding? m.scope x with
    | none => rfl
    | some b' =>
        have hne : b ≠ b' := by
          rintro rfl
          have hname := (Heap.findBinding?_eq_some hfind).2
          rw [(Heap.findBinding?_eq_some hother).2] at hname
          exact hx (Option.some.inj hname)
        have hhas' := hg.linked.has (Heap.mem_of_findBinding? hother)
        rw [Option.map_some, Option.map_some, Heap.overwritten_ne hne, hgrown.binding b' hhas']
  case overwrites =>
    intro b' hb'
    cases hfind.symm.trans hb'
    refine ⟨(hg.linked_overwritten hcopy b).chain_eq, hself, ?_, htracked, rfl, fun k hk => ?_⟩
    · exact fun n hn hne => (hgrown.agreeAt hn).trans (Heap.overwritten_agreeAt hne)
    · refine ⟨hg.agreeAt_replaced hcopy hb hk, ?_⟩
      exact Heap.released_releaseAll ((htracked k).mpr (Or.inr hk))
        (Heap.overwritten_has.mpr (hgrown.has (hg.holds_has hb hk).1))
  case prepends =>
    intro hnone
    rw [hfind] at hnone
    cases hnone

/-- **A name that is not bound** gets a new binding in front. -/
theorem Grounded.rebinds_put {name : String} (hfind : m.heap.findBinding? m.scope name = none)
    {h' : Heap} (hnew : h.Extends h') {atom : Addr} (hatom : h'.cell atom = .live (.atom name)) :
    m.Rebinds name w bound ⟨(h'.put (some atom) bound m.scope).2, m.arena,
      (h'.put (some atom) bound m.scope).1, m.log⟩ := by
  -- first the copy is made, then the atom of the name, then the binding
  have hbefore := hcopy.trees.grown.trans hnew
  have hcopy' := hcopy.keep (hnew.trans (Heap.extends_put h' (some atom) bound m.scope))
  have hgrown := hcopy'.trees.grown
  have hchain := (Heap.linked_put (some atom) bound (hbefore.linked hg.linked)).chain_eq
  have hnamed := Heap.named_put hatom bound m.scope
  have hbinding := Heap.binding_put h' (some atom) bound m.scope
  refine ⟨?found, hcopy'.alike, ?fresh, ?others, ?overwrites, ?prepends⟩
  case found =>
    rw [Heap.lookup?_eq, hchain, Heap.lookupAmong_cons, if_pos hnamed.boundName?_eq, hbinding]
  case fresh =>
    intro k hk
    obtain ⟨n, hn, hreach⟩ := Heap.holds_iff.mp hk
    have hmade := hcopy'.trees.made n hn k hreach
    exact ⟨hmade, fun hk => hmade.2 (hg.tracked k hk)⟩
  case others =>
    intro x hx
    have hne : ¬some name = some x := fun heq => hx (Option.some.inj heq).symm
    rw [Heap.lookup?_eq, Heap.lookup?_eq, hchain, Heap.lookupAmong_cons, hnamed.boundName?_eq,
      if_neg hne]
    refine Heap.lookupAmong_congr (fun b hb => ?_) x
    have hhas := hg.linked.has hb
    exact ⟨hg.bounded.boundName?_eq hgrown hhas, by rw [hgrown.binding b hhas]⟩
  case overwrites =>
    intro b hb
    rw [hfind] at hb
    cases hb
  case prepends =>
    refine fun _ => ⟨⟨_, hchain, fun hhas => ?_, hnamed, by rw [hbinding], by rw [hbinding]⟩, ?_, rfl⟩
    · exact Nat.lt_irrefl _ (hbefore.has hhas)
    · exact fun n hn => hgrown.agreeAt hn

end

/-- **`set` binds a copy**, whatever the name was bound to and whatever the value holds. -/
theorem Grounded.assign {m : Machine} {w : Ref} (hg : m.Grounded w) (name : String) :
    ∃ bound m', ArenaLisp.assign name w m = .ok bound m' ∧ m.Rebinds name w bound m' := by
  have hcopy := Heap.copy_duplicates hg.bounded hg.value
  have hgrown := hcopy.trees.grown
  rw [assign_eq, hg.bounded.findBinding?_eq hgrown hg.linked]
  cases hfind : m.heap.findBinding? m.scope name with
  | some b =>
      have hhas := hg.linked.has (Heap.mem_of_findBinding? hfind)
      refine ⟨_, _, rfl, ?_⟩
      rw [hgrown.binding b hhas]
      exact hg.rebinds_overwritten hcopy hfind
  | none =>
      exact ⟨_, _, rfl, hg.rebinds_put hcopy hfind (Heap.extends_new _ _) (Heap.cell_new _ _)⟩

/-! ## Waiting for the release -/

/--
What is registered, and is not a binding of the environment, stays registered and as it is until
the next release, and is released from then on.
-/
structure Postpones (releases : Nat) (m m' : Machine) : Prop where
  retains : m.Retains m'
  generation : m'.arena.generation = m.arena.generation + UInt64.ofNat releases
  waiting : releases = 0 → ∀ n, m.heap.Has n → (∀ b ∈ m.env, n ≠ .binding b) → m.Tracked n →
    m.heap.AgreeAt m'.heap n ∧ m'.Tracked n
  released : 0 < releases → ∀ n, m.heap.Has n → (∀ b ∈ m.env, n ≠ .binding b) → m.Tracked n →
    m'.heap.Released n

namespace Postpones

variable {k k' : Nat} {m m' m'' : Machine}

/-- Where nothing is released, it is enough that registered nodes stay. -/
theorem of_same (hretains : m.Retains m') (hgen : m'.arena.generation = m.arena.generation)
    (hkept : ∀ n, m.heap.Has n → (∀ b ∈ m.env, n ≠ .binding b) → m.heap.AgreeAt m'.heap n)
    (htracked : ∀ n, m.Tracked n → m'.Tracked n) : Postpones 0 m m' where
  retains := hretains
  generation := hgen.trans (UInt64.add_zero _).symm
  waiting _ n hhas hout hn := ⟨hkept n hhas hout, htracked n hn⟩
  released hlt := absurd hlt (Nat.lt_irrefl 0)

theorem trans (h : Postpones k m m') (h' : Postpones k' m' m'') : Postpones (k + k') m m'' := by
  have hout' : ∀ n, m.heap.Has n → (∀ b ∈ m.env, n ≠ .binding b) →
      ∀ b ∈ m'.env, n ≠ .binding b := by
    rintro n hhas hout b hb rfl
    exact h.retains.outside b hhas (fun hb' => hout b hb' rfl) hb
  refine ⟨h.retains.trans h'.retains, ?_, fun hnone n hhas hout hn => ?_,
    fun hsome n hhas hout hn => ?_⟩
  · rw [h'.generation, h.generation, UInt64.ofNat_add, UInt64.add_assoc]
  · obtain ⟨ha, hn'⟩ := h.waiting (by omega) n hhas hout hn
    obtain ⟨ha', hn''⟩ := h'.waiting (by omega) n (h.retains.has n hhas) (hout' n hhas hout) hn'
    exact ⟨ha.trans ha', hn''⟩
  -- the first release is in the first part or in the second
  · by_cases hfirst : 0 < k
    · -- what is released stays so
      have hreleased := h.released hfirst n hhas hout hn
      have hlater : m'.heap.AgreeAt m''.heap n ∨ m''.heap.Released n := by
        cases n with
        | value a => exact h'.retains.value a (h.retains.has _ hhas)
        | binding b =>
            exact h'.retains.binding b (h.retains.has _ hhas)
              fun hb => hout' _ hhas hout b hb rfl
      rcases hlater with ha | hr
      · exact ha.released_iff.mpr hreleased
      · exact hr
    · obtain ⟨-, hn'⟩ := h.waiting (by omega) n hhas hout hn
      exact h'.released (by omega) n (h.retains.has n hhas) (hout' n hhas hout) hn'

end Postpones

theorem postpones_respected : Respected Postpones where
  refl m := .of_same (.refl m) rfl (fun _ _ _ => Heap.AgreeAt.refl _ _) fun _ hn => hn
  trans := .trans
  evolves he := .of_same (.of_evolves he) he.generation (fun _ hhas hout => he.agreeAt hhas hout)
    he.tracked
  calls hc := .of_same (.of_calls hc) hc.generation (fun _ hhas _ => hc.grown.agreeAt hhas)
    hc.tracked
  leave henv hlinked := .of_same (.of_leave henv hlinked) rfl
    (fun _ _ _ => Heap.AgreeAt.refl _ _) fun _ hn => hn
  release hr :=
    { retains := .of_releaseAll hr
      generation := rfl
      waiting := fun hnone => absurd hnone Nat.one_ne_zero
      released := fun _ _ hhas _ hn => Heap.released_releaseAll hn hhas }

end Machine

/-! ## `set` -/

theorem settableName_eq {v : Ref} {name : String} {m : Machine} (hv : m.heap.Settable v name) :
    settableName v m = .ok name m := by
  obtain ⟨a, rfl, hkind, rfl, hname⟩ := hv
  rw [settableName, see_bind]
  simp only [Heap.cell?, Option.map_some, hkind, hname, bne_self_eq_false, Bool.false_eq_true,
    if_false, beq_iff_eq]
  rfl

theorem settableName_fails {v : Ref} {m : Machine} (hv : ∀ name, ¬m.heap.Settable v name) :
    ∃ e, settableName v m = .error (.error e) m ∧ e.kind = .type := by
  rw [settableName, see_bind]
  cases v with
  | none => exact ⟨_, rfl, rfl⟩
  | some a =>
      simp only [Heap.cell?, Option.map_some]
      split
      · exact ⟨_, rfl, rfl⟩
      · next hkind =>
          split
          · exact ⟨_, rfl, rfl⟩
          · next hname =>
              refine absurd ⟨a, rfl, ?_, rfl, ?_⟩ (hv (m.heap.cell a).name)
              · simpa using hkind
              · simpa using hname

/-- With its arguments evaluated, `set` binds a copy of the value, or fails and changes nothing. -/
theorem Machine.Grounded.run_set {m : Machine} {w : Ref} (hg : m.Grounded w) {ev : Evaluator}
    {arguments target : Ref} {start : Machine}
    (hargs : evalTwo ev "set" arguments start = .ok (target, w) m) :
    (∀ name, m.heap.Settable target name → ∃ bound m',
      Builtin.set.run ev arguments start = .ok bound m' ∧ m.Rebinds name w bound m') ∧
    ((∀ name, ¬m.heap.Settable target name) → ∃ e,
      Builtin.set.run ev arguments start = .error (.error e) m ∧ e.kind = .type) := by
  rw [ArenaLisp.run_set, bind_ok hargs]
  constructor
  · intro name hname
    rw [bind_ok (settableName_eq hname)]
    exact hg.assign name
  · intro hname
    obtain ⟨e, hfails, hkind⟩ := settableName_fails hname
    exact ⟨e, bind_error hfails, hkind⟩

namespace Interpreter

open Machine

variable {i : Interpreter}

/-- Where the arguments of a `set` of a session are evaluated, there are no cycles. -/
theorem Evaluates.grounded (hr : i.machine.Rooted) (hedits : Heap.empty.Edits i.machine.heap)
    {n : Nat} {v operator arguments target w : Ref} {m reached evaluated : Machine}
    (hv : i.Evaluates (n + 1) v m) (ha : Applies n v m operator arguments reached)
    (hargs : evalTwo (ArenaLisp.eval n) "set" arguments reached = .ok (target, w) evaluated) :
    evaluated.Sound ∧ evaluated.Grounded w := by
  have hI := (edits_persistent Heap.empty).invariant
  obtain ⟨hs, hlive⟩ := hv.sound hr
  obtain ⟨hs', -, -, hlive'⟩ := ha.sound hs hlive
  -- the operator is evaluated by edits,
  obtain ⟨car, hcar⟩ := ha.isOperator
  obtain ⟨hoperator, hask⟩ := ha.asks hcar
  have hreached := eval_maintains hI n car m hs ((hv.asked hask).sound hr).2
    (hv.persistent (edits_persistent _) hr hedits)
  rw [hoperator] at hreached
  -- and so are the arguments
  have hprogram : Program False False reached (fun ev => evalTwo ev "set" arguments) _ :=
    evalTwo_program hs' "set" hlive'
  have hevaluated := hprogram.maintains hI (eval_keeps n) (eval_maintains hI n) hs' hreached
  have hends := hprogram.ends (eval_keeps n) hs'
  rw [hargs] at hevaluated hends
  obtain ⟨hs'', -, -, hw⟩ := hends
  obtain ⟨-, hac⟩ := Heap.Edits.acyclic hevaluated Heap.bounded_empty Heap.acyclic_empty
  refine ⟨hs'', hs''.bounded, fun b hb => ?_, fun k hk => ?_, hs''.tracked_has⟩
  · exact ⟨hs''.linked.front_has b hb, hac.acyclicFrom b⟩
  · exact ⟨(hw k (Heap.holds_iff.mpr ⟨k, hk, .refl k⟩)).1, hac.acyclicFrom k⟩

/--
**`set` binds a copy.** Once its arguments are evaluated to an atom that is not the truth atom and a
value, `set` returns what the name of the atom is now looked up as. That is a new copy of the value
as it was, and it is not registered. Every other name is looked up as before, and the environment is
the same chain with another value in the first binding of the name, or with a binding of it in
front. If the first argument is anything else, `set` fails with a type error and nothing changes.

Wherever this happens in a session, the value that is replaced is as it was in all that comes after,
until everything registered is released, and from then on it is released with all that it held. The
arena counts these releases modulo 2^64.
-/
theorem set_binds_a_copy {extra : List (String × Builtin)} {print reads : Bool}
    (hi : new extra print reads = .ok i) :
    (∀ (ev : Evaluator) (arguments target w : Ref) (start m : Machine),
      evalTwo ev "set" arguments start = .ok (target, w) m → m.Grounded w →
      (∀ name, m.heap.Settable target name → ∃ bound m',
        Builtin.set.run ev arguments start = .ok bound m' ∧ m.Rebinds name w bound m') ∧
      ((∀ name, ¬m.heap.Settable target name) → ∃ e,
        Builtin.set.run ev arguments start = .error (.error e) m ∧ e.kind = .type)) ∧
    ∀ (n : Nat) (v arguments target w : Ref) (m reached evaluated : Machine) (operator : Addr)
      (p : Primitive), i.Evaluates (n + 1) v m → Applies n v m (some operator) arguments reached →
      reached.heap.cell operator = .live (.primitive p) → p.builtin = .set →
      evalTwo (ArenaLisp.eval n) "set" arguments reached = .ok (target, w) evaluated →
      ArenaLisp.eval (n + 1) v m = Builtin.set.run (ArenaLisp.eval n) arguments reached ∧
      evaluated.Grounded w ∧
      ∀ name b releases later, evaluated.heap.Settable target name →
        evaluated.heap.findBinding? evaluated.scope name = some b →
        i.Precedes releases (m.eval (n + 1) v).2 later →
        later.arena.generation = evaluated.arena.generation + UInt64.ofNat releases ∧
        ∀ k, evaluated.heap.Holds (evaluated.heap.binding b).value k →
          (releases = 0 → evaluated.heap.AgreeAt later.heap k) ∧
          (0 < releases → later.heap.Released k) := by
  refine ⟨fun ev arguments target w start m hargs hg => hg.run_set hargs, ?_⟩
  intro n v arguments target w m reached evaluated operator p hv ha hcell hset hargs
  have hrun := ha.run_eq hcell
  rw [hset] at hrun
  obtain ⟨hs, hg⟩ := hv.grounded (new_rooted hi).1 (new_edits hi) ha hargs
  refine ⟨hrun, hg, fun name b releases later hname hfind hlater => ?_⟩
  obtain ⟨bound, after, hafter, hrebinds⟩ := (hg.run_set hargs).1 name hname
  have hover := hrebinds.overwrites b hfind
  rw [Machine.eval_snd, hrun, hafter] at hlater
  have hpostpones := hlater.respects postpones_respected (new_resting hi)
  refine ⟨hover.generation ▸ hpostpones.generation, fun k hk => ?_⟩
  -- what is replaced is registered and is no part of the environment
  have htracked := (hover.registered k).mpr (Or.inr hk)
  have hhas : after.heap.Has k := by
    obtain ⟨hs₀, hlive⟩ := hv.sound (new_rooted hi).1
    have hends := eval_keeps (n + 1) v m hs₀ hlive
    rw [hrun, hafter] at hends
    exact hends.1.tracked_has k htracked
  have hout : ∀ b' ∈ after.env, k ≠ .binding b' := by
    rintro b' hb' rfl
    rw [hover.env] at hb'
    exact hs.not_holds hb' hk
  refine ⟨fun hnone => ?_, fun hsome => hpostpones.released hsome k hhas hout htracked⟩
  exact (hover.replaced k hk).1.trans (hpostpones.waiting hnone k hhas hout htracked).1

/-- A list is replaced by a pair that holds it twice, and is released at the end of the turn. -/
theorem set_binds_a_copy_of_itself : ∃ (i : Interpreter) (e₁ e₂ : Expression) (v : Ref) (m : Machine)
    (f : Assignment 8 v m) (b : BindingId) (a : Addr),
    new [("list-args", .arguments)] true true = .ok i ∧
    Expression.ofString? "(set 'x '(1 2))" = some e₁ ∧
    Expression.ofString? "(set 'x (cons x x))" = some e₂ ∧ i.Evaluates 9 v m ∧
    m = (i.run [.exec 9 e₁]).machine.started e₂.tree ∧
    f.evaluated.Grounded f.value ∧ f.evaluated.heap.Settable f.name "x" ∧
    f.evaluated.heap.findBinding? f.evaluated.scope "x" = some b ∧
    (f.evaluated.heap.binding b).value = some a ∧ f.evaluated.heap.Holds f.value (.value a) ∧
    f.evaluated.Rebinds "x" f.value f.bound f.after ∧
    (i.run [.exec 9 e₁, .exec 9 e₂]).heap.Released (.value a) := by
  have hsession : newAny [("list-args", .arguments)] (fun i _ =>
      (Expression.ofString? "(set 'x '(1 2))").any fun e₁ =>
      (Expression.ofString? "(set 'x (cons x x))").any fun e₂ =>
      (assignment? 8 (Heap.store e₂.tree (i.run [.exec 9 e₁]).heap).1
        ((i.run [.exec 9 e₁]).machine.started e₂.tree)).any fun f =>
      f.name.any fun target => (f.evaluated.heap.findBinding? f.evaluated.scope "x").any fun b =>
      (f.evaluated.heap.binding b).value.any fun a =>
        decide (f.evaluated.heap.cell target = .live (.atom "x")) &&
        decide (.value a ∈ f.evaluated.heap.nodes f.value)) = true := by
    decide +kernel
  obtain ⟨i, hi, hsession⟩ := exists_of_newAny hsession
  obtain ⟨e₁, he₁, hsession⟩ := (Option.any_eq_true _ _).mp hsession
  obtain ⟨e₂, he₂, hsession⟩ := (Option.any_eq_true _ _).mp hsession
  obtain ⟨f, -, hsession⟩ := (Option.any_eq_true _ _).mp hsession
  obtain ⟨target, htarget, hsession⟩ := (Option.any_eq_true _ _).mp hsession
  obtain ⟨b, hb, hsession⟩ := (Option.any_eq_true _ _).mp hsession
  obtain ⟨a, ha, hsession⟩ := (Option.any_eq_true _ _).mp hsession
  simp only [Bool.and_eq_true, decide_eq_true_eq] at hsession
  obtain ⟨hatom, hnodes⟩ := hsession
  have hv := Evaluates.turn (i := i) [.exec 9 e₁] 9 e₂ .whole
  obtain ⟨hset, hlater⟩ := set_binds_a_copy hi
  obtain ⟨hrun, hg, hreleased⟩ := hlater 8 _ _ _ _ _ _ _ _ _ hv f.applies f.isPrimitive f.isSet
    f.evalTwo_eq
  have hname : f.evaluated.heap.Settable f.name "x" :=
    ⟨target, htarget, by rw [hatom]; rfl, by rw [hatom]; rfl, by decide⟩
  obtain ⟨bound, after, hafter, hrebinds⟩ := (hset _ _ _ _ _ _ f.evalTwo_eq hg).1 "x" hname
  cases (f.result.symm.trans hrun).trans hafter
  have hend := Precedes.ended (i := i) (.steps [.exec 9 e₁]) 9 e₂
  rw [← run_concat] at hend
  have hheld : f.evaluated.heap.Holds (f.evaluated.heap.binding b).value (.value a) :=
    ⟨a, ha, .refl _⟩
  exact ⟨i, e₁, e₂, _, _, f, b, a, hi, he₁, he₂, hv, rfl, hg, hname, hb, ha,
    Heap.holds_of_mem_nodes hnodes, hrebinds,
    ((hreleased "x" b 1 _ hname hb hend).2 _ hheld).2 Nat.one_pos⟩

end Interpreter

end ArenaLisp
