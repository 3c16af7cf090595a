import ArenaLisp.Eval.Basic
import ArenaLisp.Proofs.Accounts
import ArenaLisp.Proofs.Mirror

/-!
# The operations of the evaluator

The evaluator is made of a few operations on the machine and of nested evaluations.
`Operates` says what is to be known of an operation, once for all that is proved about
evaluation: it ends on a sound machine that evolved from the one it started on, it ends
in the same way on a machine that only kept what this one has released, what it does to
the machine is one of the two `Changes`, and nothing that it makes gets lost.

Everything that makes a value is of one form, `building`: the value is built in the
heap and some of its nodes are registered. `set` and the environment of a call are the
two operations that are not.
-/

namespace ArenaLisp

@[simp]
theorem Arena.mem_trackNodes {m : Arena} {ns : List Node} {n : Node} :
    n ∈ (m.trackNodes ns).tracked ↔ n ∈ m.tracked ∨ n ∈ ns := by
  rw [Array.mem_def, Array.mem_def]
  simp [trackNodes]

theorem Arena.trackNodes_append (m : Arena) (ns ks : List Node) :
    (m.trackNodes ns).trackNodes ks = m.trackNodes (ns ++ ks) := by
  simp only [trackNodes, Arena.mk.injEq, and_true]
  exact Array.ext' (by simp)

/-- The machine that a run ends on. -/
def finalMachine {α : Type} : EStateM.Result Halt Machine α → Machine
  | .ok _ m => m
  | .error _ m => m

namespace Machine

/-- Whether a machine is another whose released nodes were kept. -/
structure Mirrors (m m' : Machine) : Prop where
  heap : m.heap.Mirrors m'.heap
  arena : m'.arena = m.arena
  scope : m'.scope = m.scope
  log : m'.log = m.log

theorem Mirrors.refl (m : Machine) : m.Mirrors m := ⟨.refl _, rfl, rfl, rfl⟩

/--
How an operation that starts on a machine has to end. The machine is sound also when it
fails, and it never fails because something released was applied.
-/
def Ends {α : Type} (m : Machine) (P : Machine → α → Prop) : EStateM.Result Halt Machine α → Prop
  | .ok a m' => m'.Sound ∧ m.Evolves m' ∧ P m' a
  | .error e m' => m'.Sound ∧ m.Evolves m' ∧ e ≠ .dangling

theorem Ends.final {α : Type} {m : Machine} {P : Machine → α → Prop}
    {r : EStateM.Result Halt Machine α} (hr : m.Ends P r) :
    (finalMachine r).Sound ∧ m.Evolves (finalMachine r) := by
  cases r with
  | ok a m' => exact ⟨hr.1, hr.2.1⟩
  | error e m' => exact ⟨hr.1, hr.2.1⟩

/-- Whether two runs end in the same way, on machines that mirror each other. -/
def SameEnd {α : Type} : EStateM.Result Halt Machine α → EStateM.Result Halt Machine α → Prop
  | .ok a m, .ok a' m' => a' = a ∧ m.Mirrors m'
  | .error e m, .error e' m' => e' = e ∧ m.Mirrors m'
  | _, _ => False

/--
What an operation can do to a machine in its environment: build something over live values
and register some of it, or bind a name, which is never the constant's.
-/
inductive Changes (m : Machine) : Machine → Prop
  | build {A : Node → Prop} {h : Heap} {ns : List Node} {arena : Arena} {log : Array LogRecord}
      (hb : Heap.Builds A m.heap h ns) (hA : ∀ k, A k → (∃ a, k = .value a) ∧ m.heap.Live k)
      (hgen : arena.generation = m.arena.generation)
      (hmono : ∀ n, m.Tracked n → n ∈ arena.tracked)
      (hnew : ∀ n ∈ arena.tracked, m.Tracked n ∨ m.heap.Made h n) :
      m.Changes ⟨h, arena, m.scope, log⟩
  | bind {name : String} {v w : Ref} {m' : Machine} (hv : m.heap.LiveRef v)
      (hname : name ≠ truthName) (hw : assign name v m = .ok w m') : m.Changes m'

theorem Changes.refl (m : Machine) : m.Changes m :=
  .build (Heap.Builds.refl (fun _ => False) m.heap) (fun _ hf => hf.elim) rfl (fun _ hn => hn)
    fun _ hn => Or.inl hn

/-- What is to be known of an operation on a machine; `binds` is a condition for it to bind a name. -/
structure Operates {α : Type} (binds : Prop) (m : Machine) (x : EvalM α)
    (P : Machine → α → Prop) : Prop where
  ends : m.Ends P (x m)
  mirrored : ∀ m', m.Mirrors m' → SameEnd (x m) (x m')
  changes : m.Changes (finalMachine (x m))
  accounts : m.Accounts (fun _ => False) (finalMachine (x m))
  steady : (finalMachine (x m)).scope = m.scope ∨ binds

theorem Operates.weaken {α : Type} {binds : Prop} {m : Machine} {x : EvalM α}
    {P Q : Machine → α → Prop} (hx : m.Operates binds x P) (hPQ : ∀ m' a, P m' a → Q m' a) :
    m.Operates binds x Q := by
  refine ⟨?_, hx.mirrored, hx.changes, hx.accounts, hx.steady⟩
  have hends := hx.ends
  cases h : x m with
  | ok a m' =>
      rw [h] at hends
      exact ⟨hends.1, hends.2.1, hPQ m' a hends.2.2⟩
  | error e m' =>
      rw [h] at hends
      exact hends

theorem Operates.mono {α : Type} {binds binds' : Prop} {m : Machine} {x : EvalM α}
    {P : Machine → α → Prop} (hx : m.Operates binds x P) (hbinds : binds → binds') :
    m.Operates binds' x P :=
  { hx with steady := hx.steady.imp_right hbinds }

end Machine

open EvalM

namespace EvalM

variable {binds : Prop}

/-! ## Looking -/

theorem operates_pure {α : Type} {m : Machine} (hs : m.Sound) {P : Machine → α → Prop} {a : α}
    (ha : P m a) : m.Operates binds (pure a) P :=
  ⟨⟨hs, .refl m, ha⟩, fun _ hm => ⟨rfl, hm⟩, .refl m, .refl _ m, Or.inl rfl⟩

theorem operates_throw {α : Type} {m : Machine} (hs : m.Sound) {P : Machine → α → Prop} {e : Halt}
    (he : e ≠ .dangling) : m.Operates binds (throw e) P :=
  ⟨⟨hs, .refl m, he⟩, fun _ hm => ⟨rfl, hm⟩, .refl m, .refl _ m, Or.inl rfl⟩

theorem operates_fail {α : Type} {m : Machine} (hs : m.Sound) {P : Machine → α → Prop}
    {operator : String} {cause : Cause} : m.Operates binds (fail operator cause) P :=
  operates_throw hs (by simp)

/-- A question that what is released has no part in. -/
theorem operates_see {α : Type} {m : Machine} (hs : m.Sound) {f : Heap → α}
    (hf : ∀ h', m.heap.Mirrors h' → f h' = f m.heap) :
    m.Operates binds (see f) fun m' a => m' = m ∧ a = f m.heap :=
  ⟨⟨hs, .refl m, rfl, rfl⟩, fun m' hm => ⟨hf m'.heap hm.heap, hm⟩, .refl m, .refl _ m, Or.inl rfl⟩

theorem operates_scope {m : Machine} (hs : m.Sound) :
    m.Operates binds scope fun m' c => m' = m ∧ c = m.scope :=
  ⟨⟨hs, .refl m, rfl, rfl⟩, fun _ hm => ⟨hm.scope, hm⟩, .refl m, .refl _ m, Or.inl rfl⟩

/-! ## Building -/

/-- Builds a value, registers some nodes of it and leaves some records. -/
def building (f : Heap → Ref × Heap) (registered : Heap → Ref → List Node)
    (records : Array LogRecord) : EvalM Ref := fun m =>
  .ok (f m.heap).1
    ⟨(f m.heap).2, m.arena.trackNodes (registered (f m.heap).2 (f m.heap).1), m.scope,
      m.log ++ records⟩

theorem operates_building {m : Machine} (hs : m.Sound) {f : Heap → Ref × Heap}
    (registered : Heap → Ref → List Node) (records : Array LogRecord) {A : Node → Prop}
    (hb : Heap.Builds A m.heap (f m.heap).2 (Node.ofRef (f m.heap).1))
    (hA : ∀ k, A k → (∃ a, k = .value a) ∧ m.heap.Live k)
    (hr : ∀ n ∈ registered (f m.heap).2 (f m.heap).1,
      m.Tracked n ∨ m.heap.Made (f m.heap).2 n)
    (hall : ∀ n, m.heap.Made (f m.heap).2 n → n ∈ registered (f m.heap).2 (f m.heap).1)
    (hf : m.heap.Mirrored f)
    (hsame : ∀ h', (f m.heap).2.Mirrors h' →
      registered h' (f m.heap).1 = registered (f m.heap).2 (f m.heap).1) :
    m.Operates binds (building f registered records) fun m' v => m'.heap.LiveRef v ∧
      v = (f m.heap).1 ∧ m'.heap = (f m.heap).2 ∧ m'.scope = m.scope ∧
      ∀ n ∈ registered m'.heap v, m'.Tracked n := by
  have hmono : ∀ n, m.Tracked n →
      n ∈ (m.arena.trackNodes (registered (f m.heap).2 (f m.heap).1)).tracked :=
    fun n hn => Arena.mem_trackNodes.mpr (Or.inl hn)
  have hnew : ∀ n ∈ (m.arena.trackNodes (registered (f m.heap).2 (f m.heap).1)).tracked,
      m.Tracked n ∨ m.heap.Made (f m.heap).2 n :=
    fun n hn => (Arena.mem_trackNodes.mp hn).elim Or.inl (hr n)
  obtain ⟨hs', he⟩ := hs.build hb (fun k hk => (hA k hk).1)
    (m.arena.trackNodes (registered (f m.heap).2 (f m.heap).1)) (m.log ++ records) rfl hmono hnew
  refine ⟨?_, ?_, .build hb hA rfl hmono hnew, .of_registered hs he (fun b hb' => ?_) fun n hn =>
    Arena.mem_trackNodes.mpr (Or.inr (hall n hn)), Or.inl rfl⟩
  · exact ⟨hs', he, hb.liveRef fun k hk => (hA k hk).2, rfl, rfl, rfl,
      fun n hn => Arena.mem_trackNodes.mpr (Or.inr hn)⟩
  · intro m' hm
    obtain ⟨h'', heq, hm'⟩ := hf m'.heap hm.heap
    simp only [building, heq]
    refine ⟨rfl, hm', ?_, hm.scope, by rw [hm.log]⟩
    rw [hm.arena, hsame h'' hm']
  · exact congrArg Binding.value (hb.grown.binding b (hs.env_has hb'))

theorem make_eq (d : Datum) : make d = building (·.new d) (fun _ => Node.ofRef) #[] := by
  funext m
  simp [make, building, bind, EStateM.bind, pure, EStateM.pure, new, onHeap, track, Arena.track,
    Arena.trackNodes, Heap.new, Heap.alloc, Node.ofRef]

/-- Making a value that is no closure, of live parts. -/
theorem operates_make {m : Machine} (hs : m.Sound) {d : Datum}
    (hd : ∀ k ∈ d.parts, (∃ a, k = .value a) ∧ m.heap.Live k) :
    m.Operates binds (make d) fun m' v => m'.heap.LiveRef v ∧
      v = (m.heap.new d).1 ∧ m'.heap = (m.heap.new d).2 ∧ m'.scope = m.scope := by
  have hb : Heap.Builds (· ∈ d.parts) m.heap (m.heap.new d).2 (Node.ofRef (m.heap.new d).1) :=
    ((Heap.Builds.refl _ m.heap).add fun k hk => ⟨(hd k hk).2.has, hk⟩).new fun k hk => hk
  have hop : m.Operates binds _ _ := operates_building hs (fun _ => Node.ofRef) #[] hb hd
    (fun n hn => Or.inr ((Heap.Builds.refl (· ∈ d.parts) m.heap).made_new hn))
    (fun n hn => by rw [Heap.made_new.mp hn]; exact List.mem_cons_self)
    (Heap.mirrored_new m.heap d) fun _ _ => rfl
  rw [make_eq]
  exact hop.weaken fun m' v ⟨h₁, h₂, h₃, h₄, _⟩ => ⟨h₁, h₂, h₃, h₄⟩

/-- Building over nodes that reach only what is registered, and registering all of it. -/
theorem operates_registering {m : Machine} (hs : m.Sound) {f : Heap → Ref × Heap}
    (records : Array LogRecord) {A : Node → Prop}
    (hb : Heap.Builds A m.heap (f m.heap).2 (Node.ofRef (f m.heap).1))
    (hA : ∀ k, A k → (∃ a, k = .value a) ∧ m.heap.Live k ∧
      ∀ l, m.heap.Reaches k l → m.Tracked l)
    (hc : m.heap.Covers (f m.heap).2 (Node.ofRef (f m.heap).1)) (hf : m.heap.Mirrored f) :
    m.Operates binds (building f Heap.nodes records) fun m' v => m'.heap.LiveRef v ∧
      v = (f m.heap).1 ∧ m'.heap = (f m.heap).2 ∧ m'.scope = m.scope ∧
      ∀ n ∈ m'.heap.nodes v, m'.Tracked n := by
  have hold : ∀ p k, m.heap.Has p → A p → (f m.heap).2.Reaches p k → m.Tracked k :=
    fun p k hp hAp hk => (hA p hAp).2.2 k ((hb.grown.reaches_iff hs.bounded hp).mp hk)
  have hlive : (f m.heap).2.LiveRef (f m.heap).1 := hb.liveRef fun k hk => (hA k hk).2.1
  refine operates_building hs _ records hb (fun k hk => ⟨(hA k hk).1, (hA k hk).2.1⟩) (fun n hn => ?_)
    (fun n hn => hc.mem_nodes (hb.clean.bounded hb.grown hs.bounded) hn) hf
    fun h' hm => hm.nodes_eq hlive
  obtain ⟨p, hp, hr⟩ := Heap.holds_iff.mp (Heap.holds_of_mem_nodes hn)
  by_cases hp' : m.heap.Has p
  · exact Or.inl (hold p n hp' ((hb.usable p hp).2 hp') hr)
  · rcases hb.clean.reaches ⟨(hb.usable p hp).1, hp'⟩ hr with hmade | ⟨q, hq, hAq, hqn⟩
    · exact Or.inr hmade
    · exact Or.inl (hold q n hq hAq hqn)

/-- Copies a value and registers the copy. -/
def handOver (v : Ref) : EvalM Ref := do
  let v ← copy v
  trackAll v
  return v

theorem operates_handOver {m : Machine} (hs : m.Sound) {v : Ref} (hv : m.heap.LiveRef v) :
    m.Operates binds (handOver v) fun m' w => m'.heap.LiveRef w ∧ m'.Handed w ∧
      w = (m.heap.copy v).1 ∧ m'.heap = (m.heap.copy v).2 ∧ m'.scope = m.scope := by
  have heq : handOver v = building (·.copy v) Heap.nodes #[] := by
    funext m
    simp [handOver, building, bind, EStateM.bind, pure, EStateM.pure, copy, onHeap, trackAll]
  rw [heq]
  refine (operates_registering hs #[] (Heap.copy_copies hv) (fun _ hf => hf.elim)
    (Heap.copy_covers m.heap v) (Heap.mirrored_copy hv)).weaken ?_
  rintro m' w ⟨hlive, rfl, hheap, hscope, htracked⟩
  refine ⟨hlive, fun k hk => htracked k ?_, rfl, hheap, hscope⟩
  rw [hheap] at hk ⊢
  exact Heap.mem_nodes_copy hv (.refl _) hk

/-- Makes a closure of an environment and registers it. -/
def makeLambda (params body : Ref) : EvalM Ref := do
  let ambient ← scope
  let v ← onHeap (·.newClosure params body ambient)
  trackAll v
  return v

theorem operates_makeLambda {m : Machine} (hs : m.Sound) {params body : Ref}
    (hparams : m.heap.LiveRef params) (hbody : m.heap.LiveRef body) :
    m.Operates binds (makeLambda params body) fun m' v => m'.heap.LiveRef v ∧
      v = (m.heap.newClosure params body m.scope).1 ∧
      m'.heap = (m.heap.newClosure params body m.scope).2 ∧ m'.scope = m.scope := by
  have hlive : ∀ b ∈ m.env, m.heap.LiveRef (m.heap.binding b).name ∧
      m.heap.LiveRef (m.heap.binding b).value := fun b hb => ⟨hs.names b hb, hs.values b hb⟩
  have hop : m.Operates binds _ _ :=
    operates_registering (f := (·.newClosure params body m.scope)) hs #[]
      (Heap.newClosure_copies hs.linked hlive hparams hbody) (fun _ hf => hf.elim)
      (Heap.newClosure_covers m.heap params body m.scope)
      (Heap.mirrored_newClosure hs.linked hs.unreleased hlive hparams hbody)
  -- the environment is read first, so the operation is of this form only once it is known
  have heq : ∀ m', m'.scope = m.scope →
      makeLambda params body m' = building (·.newClosure params body m.scope) Heap.nodes #[] m' := by
    intro m' hm'
    simp [makeLambda, building, bind, EStateM.bind, pure, EStateM.pure, scope, onHeap, trackAll, hm']
  have hop' : m.Operates binds (makeLambda params body) _ :=
    ⟨by rw [heq m rfl]; exact hop.ends, fun m' hm => by
      rw [heq m rfl, heq m' hm.scope]
      exact hop.mirrored m' hm, by rw [heq m rfl]; exact hop.changes,
      by rw [heq m rfl]; exact hop.accounts, by rw [heq m rfl]; exact hop.steady⟩
  exact hop'.weaken fun m' v ⟨h₁, h₂, h₃, h₄, _⟩ => ⟨h₁, h₂, h₃, h₄⟩

/-- Makes a closure that waits for the rest of its arguments and registers it. -/
def makePartial (c : Closure) (params values : List Ref) (r : LogRecord) : EvalM Ref := do
  let v ← onHeap (·.newPartial c params values)
  record r
  trackAll v
  return v

theorem operates_makePartial {m : Machine} (hs : m.Sound) {c : Closure} {params values : List Ref}
    {r : LogRecord} (hparams : ∀ v ∈ params, m.heap.LiveRef v) (hbody : m.heap.LiveRef c.body)
    (hcaptured : m.heap.LiveChain c.captured)
    (hvalues : ∀ v ∈ values, m.heap.LiveRef v ∧ m.Handed v) :
    m.Operates binds (makePartial c params values r) fun m' v => m'.heap.LiveRef v ∧
      v = (m.heap.newPartial c params values).1 ∧
      m'.heap = (m.heap.newPartial c params values).2 ∧ m'.scope = m.scope := by
  have heq : makePartial c params values r =
      building (·.newPartial c params values) Heap.nodes #[r] := by
    funext m
    simp [makePartial, building, bind, EStateM.bind, pure, EStateM.pure, onHeap, record, trackAll]
  have hb := Heap.newPartial_builds hparams hbody hcaptured fun v hv => (hvalues v hv).1
  rw [heq]
  refine (operates_registering hs #[r] hb ?_ (Heap.newPartial_covers m.heap c params values)
    (Heap.mirrored_newPartial hparams hbody hcaptured)).weaken
    fun m' v ⟨h₁, h₂, h₃, h₄, _⟩ => ⟨h₁, h₂, h₃, h₄⟩
  rintro k ⟨v, hv, hk⟩
  have hlive := Heap.liveRef_iff.mp (hvalues v hv).1 k hk
  obtain ⟨a, rfl, rfl⟩ := Node.mem_ofRef.mp hk
  exact ⟨⟨a, rfl⟩, hlive, fun l hl => (hvalues _ hv).2 l (Heap.holds_some.mpr hl)⟩

end EvalM

/-! ## Binding -/

theorem assign_eq (name : String) (v : Ref) (m : Machine) :
    assign name v m = match (m.heap.copy v).2.findBinding? m.scope name with
      | some b =>
        let h := (m.heap.copy v).2.overwritten b (m.heap.copy v).1
        .ok (m.heap.copy v).1
          ⟨h, m.arena.trackNodes (h.nodes ((m.heap.copy v).2.binding b).value), m.scope, m.log⟩
      | none =>
        let (atom, h) := (m.heap.copy v).2.new (.atom name)
        let (scope, h) := h.put atom (m.heap.copy v).1 m.scope
        .ok (m.heap.copy v).1 ⟨h, m.arena, scope, m.log⟩ := by
  simp only [assign, bind, EStateM.bind, copy, onHeap, scope, see]
  cases (m.heap.copy v).2.findBinding? m.scope name <;> rfl

/-- A copy is made on a sound machine, and it is private. -/
theorem Machine.Sound.copied {m : Machine} (hs : m.Sound) {v : Ref} (hv : m.heap.LiveRef v)
    {m₁ : Machine} (hm₁ : m₁ = ⟨(m.heap.copy v).2, m.arena, m.scope, m.log⟩) :
    m₁.Sound ∧ m.Evolves m₁ ∧ m₁.heap.LiveRef (m.heap.copy v).1 ∧
      m₁.Private (m.heap.copy v).1 := by
  subst hm₁
  have hcopy := Heap.copy_copies hv
  obtain ⟨hs₁, he₁⟩ := hs.build hcopy (fun _ hf => hf.elim) m.arena m.log rfl
    (fun _ hn => hn) fun _ hn => Or.inl hn
  refine ⟨hs₁, he₁, hcopy.liveRef fun _ hf => hf.elim, hs.private_of_made hcopy.grown fun k hk => ?_⟩
  obtain ⟨p, hp, hr⟩ := Heap.holds_iff.mp hk
  exact Heap.Copies.reaches_made hcopy hp hr

theorem assign_ends {m : Machine} (hs : m.Sound) {v : Ref} (hv : m.heap.LiveRef v)
    (name : String) : m.Ends (fun m' w => m'.heap.LiveRef w) (assign name v m) := by
  obtain ⟨hs₁, he₁, hlive, hprivate⟩ := hs.copied hv rfl
  rw [assign_eq]
  cases hfind : (m.heap.copy v).2.findBinding? m.scope name with
  | some b =>
      obtain ⟨hx, _⟩ := Heap.findBinding?_eq_some hfind
      have hb := hx.mem
      obtain ⟨hs₂, he₂⟩ := hs₁.overwrite hx hlive hprivate (m.arena.trackNodes
          (((m.heap.copy v).2.overwritten b (m.heap.copy v).1).nodes
            ((m.heap.copy v).2.binding b).value)) rfl
        (fun n hn => Arena.mem_trackNodes.mpr (Or.inl hn)) (fun n hn => by
          rcases Arena.mem_trackNodes.mp hn with hn | hn
          · exact Or.inl hn
          · exact Or.inr ((hs₁.overwritten_holds_iff hb).mp (Heap.holds_of_mem_nodes hn)))
      exact ⟨hs₂, he₁.trans hs he₂, hs₁.overwritten_liveRef hb hlive⟩
  | none =>
      -- the value is made first, so it cannot hold the name
      have hcopy := Heap.copy_copies hv
      have hatom := (Heap.Builds.refl (fun _ => False) (m.heap.copy v).2).new (d := .atom name)
        fun k hk => hk
      have hboth : m.heap.Copies ((m.heap.copy v).2.new (.atom name)).2
          (Node.ofRef ((m.heap.copy v).2.new (.atom name)).1 ++ Node.ofRef (m.heap.copy v).1) :=
        (hcopy.append hatom).weaken fun n hn => List.mem_append.mpr (List.mem_append.mp hn).symm
      obtain ⟨hs₂, he₂⟩ := hs.defineNew hboth fun k hk hk' => by
          obtain ⟨p, hp, hr⟩ := Heap.holds_iff.mp hk
          have hold := (hlive k ((hatom.grown.holds_iff fun k hk => (hlive k hk).1).mp hk')).1
          exact (Heap.Copies.reaches_made hatom hp hr).2 hold
      exact ⟨hs₂, he₂, (Heap.extends_put _ _ _ _).liveRef (hatom.grown.liveRef hlive)⟩

theorem assign_mirrored {m m' : Machine} (hs : m.Sound) {v : Ref} (hv : m.heap.LiveRef v)
    (name : String) (hm : m.Mirrors m') :
    Machine.SameEnd (assign name v m) (assign name v m') := by
  obtain ⟨hs₁, _, hlive, _⟩ := hs.copied hv rfl
  obtain ⟨h₁, e₁, m₁⟩ := Heap.mirrored_copy hv m'.heap hm.heap
  dsimp only at e₁ m₁
  rw [assign_eq, assign_eq, e₁, hm.scope,
    m₁.findBinding?_eq hs₁.linked hs₁.unreleased hs₁.names name]
  cases hfind : (m.heap.copy v).2.findBinding? m.scope name with
  | some b =>
      have hb := Heap.mem_of_findBinding? hfind
      have hreleased := hs₁.unreleased b hb
      have m₂ : ((m.heap.copy v).2.overwritten b (m.heap.copy v).1).Mirrors
          (h₁.overwritten b (m.heap.copy v).1) := m₁.modifyBinding hreleased _
      have hnodes := m₂.nodes_eq (hs₁.overwritten_liveRef hb (hs₁.values b hb))
      refine ⟨rfl, m₂, ?_, rfl, hm.log⟩
      dsimp only
      rw [m₁.binding_eq hreleased]
      exact congrArg₂ Arena.trackNodes hm.arena hnodes
  | none =>
      obtain ⟨h₂, e₂, m₂⟩ := Heap.mirrored_new _ (.atom name) h₁ m₁
      obtain ⟨h₃, e₃, m₃⟩ := Heap.mirrored_put _ ((m.heap.copy v).2.new (.atom name)).1
        (m.heap.copy v).1 m.scope h₂ m₂
      simp only [e₂, e₃]
      exact ⟨rfl, m₃, hm.arena, rfl, hm.log⟩

theorem assign_isOk (name : String) (v : Ref) (m : Machine) :
    ∃ w m', assign name v m = .ok w m' := by
  rw [assign_eq]
  cases (m.heap.copy v).2.findBinding? m.scope name with
  | some b => exact ⟨_, _, rfl⟩
  | none => exact ⟨_, _, rfl⟩

/--
What `set` makes is borne by the binding it sets. What the binding bore before as its value is
registered.
-/
theorem assign_accounts {m : Machine} (hs : m.Sound) {v : Ref} (hv : m.heap.LiveRef v)
    (name : String) : m.Accounts (fun _ => False) (finalMachine (assign name v m)) := by
  have hends := assign_ends hs hv name
  have hcovers := Heap.copy_covers m.heap v
  rw [assign_eq] at hends ⊢
  cases hfind : (m.heap.copy v).2.findBinding? m.scope name with
  | some b =>
      rw [hfind] at hends
      have hb : b ∈ m.env := by
        rw [← hs.env_of_extends hcovers.grown]
        exact Heap.mem_of_findBinding? hfind
      refine .of_overwritten hs hends.1 hends.2.1 hcovers hb rfl fun n hn =>
        Arena.mem_trackNodes.mpr (Or.inr ?_)
      rw [hcovers.grown.binding b (hs.env_has hb)]
      exact hn
  | none =>
      rw [hfind] at hends
      have hboth : m.heap.Covers ((m.heap.copy v).2.new (.atom name)).2
          (Node.ofRef ((m.heap.copy v).2.new (.atom name)).1 ++ Node.ofRef (m.heap.copy v).1) :=
        (show m.heap.Covers _ ([] ++ Node.ofRef _) from hcovers).newBeside fun _ hk =>
          absurd hk List.not_mem_nil
      exact .of_put hs hends.2.1 hboth rfl rfl

/-- What `set` does to the environment: one binding gets a value that is new. -/
structure Machine.Sets (m : Machine) (b : BindingId) (m' : Machine) : Prop where
  bound : b ∈ m'.env
  others : ∀ b' ∈ m'.env, b' ≠ b →
    b' ∈ m.env ∧ (m'.heap.binding b').value = (m.heap.binding b').value
  value : ∀ k, m'.heap.Holds (m'.heap.binding b).value k → ¬m.heap.Has k
  /-- A binding that was not there before has a name of its own. -/
  fresh : b ∉ m.env → ¬m.heap.Has (.binding b) ∧
    ∀ k, m'.heap.Holds (m'.heap.binding b).name k → ¬m.heap.Has k
  /-- The value that it takes away is registered. -/
  registered : ∀ k, m'.Tracked k →
    m.Tracked k ∨ b ∈ m.env ∧ m.heap.Holds (m.heap.binding b).value k

theorem Machine.Sets.of_overwritten {m m' : Machine} (hs : m.Sound) {h : Heap} {b : BindingId}
    {v : Ref} (hs₁ : Sound ⟨h, m.arena, m.scope, m.log⟩) (hc : m.heap.Copies h (Node.ofRef v))
    (hb : b ∈ m.env) (hheap : m'.heap = h.overwritten b v) (hscope : m'.scope = m.scope)
    (hnew : ∀ k, m'.Tracked k → m.Tracked k ∨ k ∈ m'.heap.nodes (h.binding b).value) :
    m.Sets b m' := by
  have henv : Machine.env ⟨h, m.arena, m.scope, m.log⟩ = m.env := hs.env_of_extends hc.grown
  have hb₁ : b ∈ Machine.env ⟨h, m.arena, m.scope, m.log⟩ := by rw [henv]; exact hb
  have henv' : m'.env = m.env := by
    unfold Machine.env
    rw [hheap, hscope]
    exact hs₁.overwritten_linked.chain_eq.trans henv
  have hold : ∀ b ∈ m.env, h.binding b = m.heap.binding b :=
    fun b hb => hc.grown.binding b (hs.env_has hb)
  refine ⟨henv' ▸ hb, fun b' hb' hne => ?_, fun k hk => ?_, fun hnot => absurd hb hnot, fun k hk => ?_⟩
  · rw [henv'] at hb'
    rw [hheap, Heap.overwritten_ne (Ne.symm hne), hold b' hb']
    exact ⟨hb', rfl⟩
  · rw [hheap, Heap.overwritten_self (hs₁.env_has hb₁)] at hk
    obtain ⟨p, hp, hr⟩ := Heap.holds_iff.mp ((hs₁.overwritten_holds_iff hb₁).mp hk)
    exact (Heap.Copies.reaches_made hc hp hr).2
  · refine (hnew k hk).imp_right fun hk => ⟨hb, ?_⟩
    rw [hheap, hold b hb] at hk
    have hheld := (hs₁.overwritten_holds_iff hb₁).mp (Heap.holds_of_mem_nodes hk)
    exact (hc.grown.holds_iff fun l hl => (hs.values b hb l hl).1).mp hheld

theorem Machine.Sets.of_put {m m' : Machine} (hs : m.Sound) {h : Heap} {name value : Ref}
    (hc : m.heap.Copies h (Node.ofRef value ++ Node.ofRef name))
    (hheap : m'.heap = (h.put name value m.scope).2)
    (hscope : m'.scope = (h.put name value m.scope).1) (harena : m'.arena = m.arena) :
    m.Sets ⟨h.bindings.size⟩ m' := by
  have hput := Heap.extends_put h name value m.scope
  have hgrown := hc.grown.trans hput
  have henv : m'.env = ⟨h.bindings.size⟩ :: m.env := by
    unfold Machine.env
    rw [hheap, hscope]
    exact (Heap.linked_put name value (hc.grown.linked hs.linked)).chain_eq
  have hnew : m'.heap.binding ⟨h.bindings.size⟩ = ⟨name, value, m.scope, false⟩ := by
    rw [hheap]
    exact Heap.binding_put h name value m.scope
  -- both were made for the binding, and it is put behind them
  have hmade : ∀ v, (∀ n ∈ Node.ofRef v, n ∈ Node.ofRef value ++ Node.ofRef name) → ∀ k,
      m'.heap.Holds v k → ¬m.heap.Has k := by
    intro v hv k hk
    have hlive : h.LiveRef v := Heap.liveRef_iff.mpr fun n hn => Heap.Copies.live hc (hv n hn)
    rw [hheap, hput.holds_iff fun l hl => (hlive l hl).1] at hk
    obtain ⟨p, hp, hr⟩ := Heap.holds_iff.mp hk
    exact (Heap.Copies.reaches_made hc (hv p hp) hr).2
  refine ⟨by rw [henv]; exact List.mem_cons_self, fun b' hb' hne => ?_, fun k hk => ?_,
    fun _ => ⟨fun hb => Nat.lt_irrefl _ (hc.grown.has hb), fun k hk => ?_⟩, fun k hk => ?_⟩
  · rw [henv] at hb'
    have hb := (List.mem_cons.mp hb').resolve_left hne
    rw [hheap, hgrown.binding b' (hs.env_has hb)]
    exact ⟨hb, rfl⟩
  · rw [hnew] at hk
    exact hmade value (fun n hn => List.mem_append_left _ hn) k hk
  · rw [hnew] at hk
    exact hmade name (fun n hn => List.mem_append_right _ hn) k hk
  · left
    rw [Machine.Tracked, harena] at hk
    exact hk

theorem assign_sets {m m' : Machine} (hs : m.Sound) {name : String} {v w : Ref}
    (hv : m.heap.LiveRef v) (hw : assign name v m = .ok w m') : ∃ b, m.Sets b m' := by
  have hcopy := Heap.copy_copies hv
  rw [assign_eq] at hw
  cases hfind : (m.heap.copy v).2.findBinding? m.scope name with
  | some b =>
      rw [hfind] at hw
      cases hw
      have hb : b ∈ m.env := by
        rw [← hs.env_of_extends hcopy.grown]
        exact Heap.mem_of_findBinding? hfind
      exact ⟨b, .of_overwritten hs (hs.copied hv rfl).1 hcopy hb rfl rfl fun k hk =>
        Arena.mem_trackNodes.mp hk⟩
  | none =>
      rw [hfind] at hw
      cases hw
      have hatom := (Heap.Builds.refl (fun _ => False) (m.heap.copy v).2).new (d := .atom name)
        fun k hk => hk
      exact ⟨_, .of_put hs (hcopy.append hatom) rfl rfl rfl⟩

/-- **`set` is an operation.** -/
theorem operates_assign {binds : Prop} (hbinds : binds) {m : Machine} (hs : m.Sound) {v : Ref}
    (hv : m.heap.LiveRef v) {name : String} (hname : name ≠ truthName) :
    m.Operates binds (assign name v) fun m' w => m'.heap.LiveRef w := by
  refine ⟨assign_ends hs hv name, fun _ hm => assign_mirrored hs hv name hm, ?_,
    assign_accounts hs hv name, Or.inr hbinds⟩
  obtain ⟨w, m', hw⟩ := assign_isOk name v m
  rw [hw]
  exact .bind hv hname hw

/-- What an operation does to a sound machine leaves it sound. -/
theorem Machine.Changes.keeps {m m' : Machine} (hc : m.Changes m') (hs : m.Sound) :
    m'.Sound ∧ m.Evolves m' := by
  cases hc with
  | build hb hA hgen hmono hnew => exact hs.build hb (fun k hk => (hA k hk).1) _ _ hgen hmono hnew
  | @bind name v w m' hv hname hw =>
      have hends := assign_ends hs hv name
      rw [hw] at hends
      exact ⟨hends.1, hends.2.1⟩

/-! ## Calls -/

/-- The names and values of bindings, with everything reached from them. -/
def Heap.contents (h : Heap) (bs : List BindingId) : List Node :=
  bs.flatMap fun b => h.nodes (h.binding b).name ++ h.nodes (h.binding b).value

theorem trackContents_eq (bs : List BindingId) (m : Machine) :
    trackContents bs m =
      .ok () ⟨m.heap, m.arena.trackNodes (m.heap.contents bs), m.scope, m.log⟩ := by
  induction bs generalizing m with
  | nil => simp [trackContents, Heap.contents, Arena.trackNodes, pure, EStateM.pure]
  | cons b bs ih =>
      have hstep : trackContents (b :: bs) m = trackContents bs
          ⟨m.heap, (m.arena.trackNodes (m.heap.nodes (m.heap.binding b).name)).trackNodes
            (m.heap.nodes (m.heap.binding b).value), m.scope, m.log⟩ := rfl
      rw [hstep, ih, Arena.trackNodes_append, Arena.trackNodes_append]
      rfl

theorem callScope_eq (c : Closure) (values : List Ref) (m : Machine) :
    callScope c values m =
      let (captured, h) := m.heap.copyChain c.captured
      let arena := m.arena.trackNodes (h.contents (h.chain captured))
      let (arguments, h) := h.list values
      match h.bindFrame c.params arguments m.scope with
      | (.error cause, h) => .error (.error ⟨"", cause⟩) ⟨h, arena, m.scope, m.log⟩
      | (.ok frame, h) =>
        let (call, h) := h.join captured frame
        .ok call ⟨h, arena.trackBindings (h.chainUntil call m.scope), m.scope, m.log⟩ := by
  simp only [callScope, bind, EStateM.bind, onHeap, see, scope, trackContents_eq]
  cases hb : (((m.heap.copyChain c.captured).2.list values).2.bindFrame c.params
    ((m.heap.copyChain c.captured).2.list values).1 m.scope) with
  | mk r h => cases r <;> rfl

/-- The bindings of a call in front of the caller's chain are those up to it. -/
theorem Heap.chainUntil_of_linked {h : Heap} {call base : Chain} {front env : List BindingId}
    (hcall : h.Linked call (front ++ env)) (hbase : h.Linked base env) :
    h.chainUntil call base = front := by
  have hnodup := hcall.nodup
  rw [chainUntil_eq, hcall.chain_eq]
  clear hcall
  induction front with
  | nil =>
      cases env with
      | nil => rfl
      | cons b env => simp [hbase.1]
  | cons b front ih =>
      obtain ⟨hb, hrest⟩ := List.nodup_cons.mp hnodup
      have hne : some b ≠ base := by
        rintro rfl
        cases env with
        | nil => cases hbase
        | cons b' env =>
            cases hbase.1
            exact hb (List.mem_append_right _ List.mem_cons_self)
      rw [List.cons_append, List.takeWhile_cons]
      simp [hne, ih hrest]

/-- What is to be known of how the environment of a call is made. -/
structure Machine.Opens (m : Machine) (x : EvalM Chain) : Prop where
  ends : match x m with
    | .ok c m' => m'.scope = m.scope ∧ Sound { m' with scope := c } ∧
        m.Calls { m' with scope := c }
    | .error e m' => m'.Sound ∧ m.Evolves m' ∧ e ≠ .dangling
  mirrored : ∀ m', m.Mirrors m' → SameEnd (x m) (x m')
  /-- The bindings of the call are made for it and registered, with all that they bind. -/
  entered : ∀ c m', x m = .ok c m' → ∃ values front, m.heap.Enters m'.heap values m.env front c ∧
    (∀ v ∈ values, m.heap.LiveRef v ∧ m.Handed v) ∧
    ∀ b ∈ front, m'.Tracked (.binding b) ∧ m'.Handed (m'.heap.binding b).value
  failed : ∀ e m', x m = .error e m' → m.Changes m' ∧ m'.scope = m.scope

section

variable {m : Machine} {c : Closure} {values : List Ref}

/-- What is registered of the captured bindings is new. -/
theorem Machine.Sound.contents_made (hs : m.Sound) (hcaptured : m.heap.LiveChain c.captured)
    {n : Node} (hn : n ∈ (m.heap.copyChain c.captured).2.contents
      ((m.heap.copyChain c.captured).2.chain (m.heap.copyChain c.captured).1)) :
    m.heap.Made (m.heap.copyChain c.captured).2 n := by
  obtain ⟨cs, hlinked, _, hcs⟩ := Heap.copyChain_linked hs.bounded hcaptured
  rw [hlinked.chain_eq] at hn
  obtain ⟨b, hb, hn⟩ := List.mem_flatMap.mp hn
  refine (hcs b hb).2 n ?_
  rcases List.mem_append.mp hn with hn | hn
  all_goals
    obtain ⟨p, hp, hr⟩ := Heap.holds_iff.mp (Heap.holds_of_mem_nodes hn)
    refine (Heap.Reaches.of_part ?_).trans hr
  · exact List.mem_append_left _ hp
  · exact List.mem_append_right _ (List.mem_append_left _ hp)

/-- What a call makes before it binds anything is built over the values passed to it. -/
theorem Heap.arguments_builds {h : Heap} (hcaptured : h.LiveChain c.captured)
    (hvalues : ∀ v ∈ values, h.LiveRef v) :
    Heap.Builds (fun k => ∃ v ∈ values, k ∈ Node.ofRef v) h
      ((h.copyChain c.captured).2.list values).2
      (Node.ofRef ((h.copyChain c.captured).2.list values).1) := by
  have hcopies := (copyChain_copies hcaptured).mono (B := fun k => ∃ v ∈ values, k ∈ Node.ofRef v)
    fun _ hf => hf.elim
  have hgiven : Builds _ h _ (_ ++ values.flatMap Node.ofRef) := hcopies.add fun n hn => by
    obtain ⟨v, hv, hn⟩ := List.mem_flatMap.mp hn
    exact ⟨(liveRef_iff.mp (hvalues v hv) n hn).has, v, hv, hn⟩
  exact list_builds values (hgiven.weaken fun n hn => List.mem_append_right _ hn)

/-- A call that fails has only built something. -/
theorem callScope_failed (hs : m.Sound) (hcaptured : m.heap.LiveChain c.captured)
    (hvalues : ∀ v ∈ values, m.heap.LiveRef v) {e : Halt} {m' : Machine}
    (hrun : callScope c values m = .error e m') :
    (m.Changes m' ∧ m'.scope = m.scope) ∧ e ≠ .dangling := by
  have hb := Heap.arguments_builds hcaptured hvalues
  have hmade := fun n => hs.contents_made hcaptured (n := n)
  have hlist := Heap.extends_list values (m.heap.copyChain c.captured).2
  rw [callScope_eq] at hrun
  dsimp only at hrun
  generalize hbind : ((m.heap.copyChain c.captured).2.list values).2.bindFrame c.params
    ((m.heap.copyChain c.captured).2.list values).1 m.scope = r at hrun
  obtain ⟨r, h₃⟩ := r
  cases r with
  | ok frame => cases hrun
  | error cause =>
      cases hrun
      obtain rfl := Heap.bindFrame_error hbind
      refine ⟨⟨.build hb (fun k ⟨v, hv, hk⟩ => ?_) rfl
        (fun n hn => Arena.mem_trackNodes.mpr (Or.inl hn)) (fun n hn => ?_), rfl⟩, by simp⟩
      · have hlive := Heap.liveRef_iff.mp (hvalues v hv) k hk
        obtain ⟨a, _, rfl⟩ := Node.mem_ofRef.mp hk
        exact ⟨⟨a, rfl⟩, hlive⟩
      · rcases Arena.mem_trackNodes.mp hn with hn | hn
        · exact Or.inl hn
        · exact Or.inr ⟨hlist.has (hmade n hn).1, (hmade n hn).2⟩

/-- What the environment of a call binds. -/
theorem callScope_ok (hs : m.Sound) (hparams : m.heap.LiveRef c.params)
    (hcaptured : m.heap.LiveChain c.captured) (hvalues : ∀ v ∈ values, m.heap.LiveRef v)
    {call : Chain} {m' : Machine} (hok : callScope c values m = .ok call m') :
    ∃ cs fs ns, m.heap.Enters m'.heap values m.env (cs ++ fs) call ∧
      m.heap.Binds m'.heap c values cs fs ns := by
  rw [callScope_eq] at hok
  dsimp only at hok
  generalize hbind : ((m.heap.copyChain c.captured).2.list values).2.bindFrame c.params
    ((m.heap.copyChain c.captured).2.list values).1 m.scope = r at hok
  obtain ⟨r, h₃⟩ := r
  cases r with
  | error cause => cases hok
  | ok frame =>
      cases hok
      exact Heap.enters_call hs.bounded hs.linked hs.sealed hparams hcaptured hvalues hbind

/-- Making the environment of a call leaves the caller's in place, and what was made stays. -/
theorem callScope_grows {call : Chain} {m' : Machine} (hok : callScope c values m = .ok call m') :
    m'.scope = m.scope ∧ m'.arena.generation = m.arena.generation ∧
      ∀ n, ((m.heap.copyChain c.captured).2.list values).2.Has n → m'.heap.Has n := by
  rw [callScope_eq] at hok
  dsimp only at hok
  split at hok
  · cases hok
  · rename_i hbind
    cases hok
    exact ⟨rfl, rfl, fun n hn => Heap.join_has.mpr ((Heap.extends_of_bindFrame hbind).has hn)⟩

/-- What a call registers: what it takes along, and its bindings. -/
theorem callScope_tracked (hs : m.Sound) {call : Chain} {m' : Machine}
    (hok : callScope c values m = .ok call m') {front : List BindingId}
    (hent : m.heap.Enters m'.heap values m.env front call) (n : Node) :
    m'.Tracked n ↔ m.Tracked n ∨ n ∈ (m.heap.copyChain c.captured).2.contents
      ((m.heap.copyChain c.captured).2.chain (m.heap.copyChain c.captured).1) ∨
      ∃ b ∈ front, n = .binding b := by
  have hfront := Heap.chainUntil_of_linked hent.linked (hent.grown.linked hs.linked)
  rw [callScope_eq] at hok
  dsimp only at hok
  split at hok
  · cases hok
  · cases hok
    dsimp only at hfront
    simp only [Machine.Tracked, Arena.trackBindings, Arena.mem_trackNodes, hfront, List.mem_map,
      or_assoc, eq_comm]

/-- Nothing is registered for a call that was there before it. -/
theorem callScope_registers (hs : m.Sound) (hcaptured : m.heap.LiveChain c.captured)
    {call : Chain} {m' : Machine} (hok : callScope c values m = .ok call m')
    {front : List BindingId} (hent : m.heap.Enters m'.heap values m.env front call) :
    (∀ n, m.Tracked n → m'.Tracked n) ∧
      (∀ n, m'.Tracked n → m.Tracked n ∨ m.heap.Made m'.heap n) ∧
      ∀ b ∈ front, m'.Tracked (.binding b) := by
  have htracked := callScope_tracked hs hok hent
  refine ⟨fun n hn => (htracked n).mpr (Or.inl hn), fun n hn => ?_,
    fun b hb => (htracked _).mpr (Or.inr (Or.inr ⟨b, hb, rfl⟩))⟩
  rcases (htracked n).mp hn with hn | hn | ⟨b, hb, rfl⟩
  · exact Or.inl hn
  · obtain ⟨hhas, hnew⟩ := hs.contents_made hcaptured hn
    exact Or.inr ⟨(callScope_grows hok).2.2 n ((Heap.extends_list values _).has hhas), hnew⟩
  · exact Or.inr ⟨hent.linked.has (List.mem_append_left _ hb), hent.fresh b hb⟩

/-- What is taken along is registered in full. -/
theorem Machine.Sound.mem_contents (hs : m.Sound) (hcaptured : m.heap.LiveChain c.captured)
    {cs : List BindingId}
    (hcs : (m.heap.copyChain c.captured).2.Linked (m.heap.copyChain c.captured).1 cs)
    {b : BindingId} (hb : b ∈ cs) {n : Node}
    (hn : (m.heap.copyChain c.captured).2.Holds ((m.heap.copyChain c.captured).2.binding b).name n ∨
      (m.heap.copyChain c.captured).2.Holds ((m.heap.copyChain c.captured).2.binding b).value n) :
    n ∈ (m.heap.copyChain c.captured).2.contents
      ((m.heap.copyChain c.captured).2.chain (m.heap.copyChain c.captured).1) := by
  have hcopies := Heap.copyChain_copies hcaptured
  have hbounded := hcopies.clean.bounded hcopies.grown hs.bounded
  obtain ⟨cs', hcs', -, hlive⟩ := Heap.copyChain_linked hs.bounded hcaptured
  obtain rfl := hcs.unique hcs'
  obtain ⟨hname, hvalue, -⟩ := (hlive b hb).1.fields
  rw [hcs.chain_eq]
  refine List.mem_flatMap.mpr ⟨b, hb, List.mem_append.mpr ?_⟩
  rcases hn with hn | hn
  · exact Or.inl (hbounded.mem_nodes hn (hname n hn).1)
  · exact Or.inr (hbounded.mem_nodes hn (hvalue n hn).1)

/-- Everything that a call binds is registered. -/
theorem callScope_hands (hs : m.Sound) (hcaptured : m.heap.LiveChain c.captured)
    (hvalues : ∀ v ∈ values, m.heap.LiveRef v ∧ m.Handed v) {call : Chain} {m' : Machine}
    (hok : callScope c values m = .ok call m') {cs fs : List BindingId} {ns : List Ref}
    (hent : m.heap.Enters m'.heap values m.env (cs ++ fs) call)
    (hbinds : m.heap.Binds m'.heap c values cs fs ns) {b : BindingId} (hb : b ∈ cs ++ fs) :
    m'.Handed (m'.heap.binding b).value := by
  intro k hk
  rcases List.mem_append.mp hb with hb | hb
  · obtain ⟨cs', hcs', -, hlive⟩ := Heap.copyChain_linked hs.bounded hcaptured
    obtain rfl := hbinds.copied.unique hcs'
    rw [show (m'.heap.binding b).value = _ from congrArg Prod.snd (hbinds.captured b hb)] at hk
    have hkept := hbinds.kept _ (hlive b hb).1.fields.2.1
    exact (callScope_tracked hs hok hent k).mpr (Or.inr (Or.inl
      (hs.mem_contents hcaptured hbinds.copied hb (Or.inr ((Heap.holds_congr hkept).mp hk)))))
  · -- a parameter is bound to what was passed, and that was registered when it was copied
    have hmem : m'.heap.bound b ∈ ns.zip values := by
      rw [← hbinds.frame]
      exact List.mem_map_of_mem hb
    obtain ⟨hlive, hhanded⟩ := hvalues _ (List.of_mem_zip hmem).2
    have hk' := (hent.grown.holds_iff fun l hl => (hlive l hl).1).mp hk
    exact (callScope_tracked hs hok hent k).mpr (Or.inl (hhanded k hk'))

/-- **What a call makes and does not register** are the cells of the list of its arguments. -/
theorem callScope_unregistered (hs : m.Sound) (hcaptured : m.heap.LiveChain c.captured)
    {call : Chain} {m' : Machine} (hok : callScope c values m = .ok call m') {cs fs : List BindingId}
    {ns : List Ref} (hent : m.heap.Enters m'.heap values m.env (cs ++ fs) call)
    (hbinds : m.heap.Binds m'.heap c values cs fs ns) {n : Node} :
    m.heap.Made m'.heap n ∧ ¬m'.Tracked n ↔
      ∃ i ≤ values.length, n = .value ⟨(m.heap.copyChain c.captured).2.cells.size + i⟩ := by
  have htracked := callScope_tracked hs hok hent
  have hgrown := (Heap.copyChain_copies hcaptured).grown
  rw [← Heap.made_list]
  constructor
  · rintro ⟨hmade, hnot⟩
    have hfront : ∀ b ∈ cs ++ fs, n ≠ .binding b := by
      rintro b hb rfl
      exact hnot ((htracked _).mpr (Or.inr (Or.inr ⟨b, hb, rfl⟩)))
    rcases hbinds.made n hmade with hcopied | hlisted | ⟨b, hb, heq⟩
    · -- a copied binding is registered, and so is all that it holds
      obtain ⟨p, hp, hr⟩ := (Heap.copyChain_covers m.heap c.captured).reached n hcopied
      obtain ⟨b, hb, heq | hheld⟩ := hbinds.copied.reaches_cases hp hr
      · exact absurd heq (hfront b (List.mem_append_left _ hb))
      · exact absurd ((htracked n).mpr (Or.inr (Or.inl (hs.mem_contents hcaptured hbinds.copied hb
          hheld)))) hnot
    · exact hlisted
    · exact absurd heq (hfront b (List.mem_append_right _ hb))
  · intro hlisted
    refine ⟨⟨(callScope_grows hok).2.2 n hlisted.1, fun hn => hlisted.2 (hgrown.has hn)⟩, fun ht => ?_⟩
    rcases (htracked n).mp ht with ht | hcontents | ⟨b, hb, rfl⟩
    · exact hlisted.2 (hgrown.has (hs.tracked_has n ht))
    · exact hlisted.2 (hs.contents_made hcaptured hcontents).1
    · obtain ⟨i, -, heq⟩ := Heap.made_list.mp hlisted
      cases heq

theorem callScope_ends (hs : m.Sound) (hparams : m.heap.LiveRef c.params)
    (hcaptured : m.heap.LiveChain c.captured)
    (hvalues : ∀ v ∈ values, m.heap.LiveRef v ∧ m.Handed v) :
    match callScope c values m with
    | .ok call m' => m'.scope = m.scope ∧ Machine.Sound { m' with scope := call } ∧
        m.Calls { m' with scope := call }
    | .error e m' => m'.Sound ∧ m.Evolves m' ∧ e ≠ .dangling := by
  have hlive := fun v hv => (hvalues v hv).1
  cases hrun : callScope c values m with
  | error e m' =>
      obtain ⟨⟨hc, -⟩, he⟩ := callScope_failed hs hcaptured hlive hrun
      exact ⟨(hc.keeps hs).1, (hc.keeps hs).2, he⟩
  | ok call m' =>
      obtain ⟨cs, fs, _, hent, _⟩ := callScope_ok hs hparams hcaptured hlive hrun
      obtain ⟨hscope, hgen, -⟩ := callScope_grows hrun
      obtain ⟨hmono, hnew, hfront⟩ := callScope_registers hs hcaptured hrun hent
      exact ⟨hscope, hs.enter hent hvalues hmono hnew hfront hgen⟩

theorem callScope_mirrored (hs : m.Sound) (hparams : m.heap.LiveRef c.params)
    (hcaptured : m.heap.LiveChain c.captured)
    (hvalues : ∀ v ∈ values, m.heap.LiveRef v ∧ m.Handed v) {m' : Machine} (hm : m.Mirrors m') :
    Machine.SameEnd (callScope c values m) (callScope c values m') := by
  obtain ⟨cs, hcs, _, hcs_live⟩ := Heap.copyChain_linked hs.bounded hcaptured
  have hb := Heap.arguments_builds hcaptured fun v hv => (hvalues v hv).1
  have harguments := hb.liveRef fun k ⟨v, hv, hk⟩ => Heap.liveRef_iff.mp (hvalues v hv).1 k hk
  have hreleased : ∀ b ∈ cs, ((m.heap.copyChain c.captured).2.binding b).released = false :=
    fun b hb => by simpa [Heap.Released] using (hcs_live b hb).1.not_released
  obtain ⟨h₁, e₁, m₁⟩ := Heap.mirrored_copyChain hcaptured m'.heap hm.heap
  obtain ⟨h₂, e₂, m₂⟩ := Heap.mirrored_list values _ h₁ m₁
  obtain ⟨h₃, e₃, m₃⟩ := Heap.mirrored_bindFrame (hb.grown.liveRef hparams) harguments m.scope h₂ m₂
  have hcontents : h₁.contents cs = (m.heap.copyChain c.captured).2.contents cs := by
    refine List.flatMap_congr fun b hb => ?_
    obtain ⟨hname, hvalue, _⟩ := (hcs_live b hb).1.fields
    rw [m₁.binding_eq (hreleased b hb), m₁.nodes_eq hname, m₁.nodes_eq hvalue]
  dsimp only at e₁ e₂ e₃ m₁ m₂ m₃
  rw [callScope_eq, callScope_eq, e₁]
  dsimp only
  rw [e₂, hm.scope]
  dsimp only
  rw [e₃, m₁.chain_eq hcs hreleased, hcs.chain_eq, hcontents, hm.arena, hm.log]
  generalize hbind : ((m.heap.copyChain c.captured).2.list values).2.bindFrame c.params
    ((m.heap.copyChain c.captured).2.list values).1 m.scope = r at m₃ ⊢
  obtain ⟨r, h₃'⟩ := r
  cases r with
  | error cause => exact ⟨rfl, m₃, rfl, rfl, rfl⟩
  | ok frame =>
      obtain ⟨cs', fs, _, hent, _⟩ := Heap.enters_call hs.bounded hs.linked hs.sealed hparams
        hcaptured (fun v hv => (hvalues v hv).1) hbind
      have he := (Heap.extends_list values _).trans (Heap.extends_of_bindFrame hbind)
      obtain ⟨h₄, e₄, m₄⟩ := Heap.mirrored_join (he.linked hcs)
        (fun b hb => by rw [he.binding b (hcs.has hb)]; exact hreleased b hb) frame h₃ m₃
      dsimp only at e₄ m₄ ⊢
      have hcall := m₄.linked hent.linked fun b hb => by
        rcases List.mem_append.mp hb with hb | hb
        · exact hent.unreleased b hb
        · rw [hent.grown.binding b (hs.env_has hb)]
          exact hs.unreleased b hb
      have henv := m₄.linked (hent.grown.linked hs.linked) fun b hb => by
        rw [hent.grown.binding b (hs.env_has hb)]
        exact hs.unreleased b hb
      rw [e₄, Heap.chainUntil_of_linked hent.linked (hent.grown.linked hs.linked),
        Heap.chainUntil_of_linked hcall henv]
      exact ⟨rfl, m₄, rfl, rfl, rfl⟩

/-- A call with as many values as parameters has an environment. -/
theorem callScope_isOk (hparams : m.heap.LiveRef c.params) (hcaptured : m.heap.LiveChain c.captured)
    {ns : List Ref} (hns : m.heap.elements? c.params = some ns)
    (hlen : ns.length = values.length) : ∃ call m', callScope c values m = .ok call m' := by
  have hgrown := (Heap.copyChain_copies hcaptured).grown.trans (Heap.extends_list values _)
  have hvalues := Heap.elements?_list values (m.heap.copyChain c.captured).2 (.refl _)
  rw [callScope_eq]
  dsimp only
  rw [Heap.bindFrame, hgrown.elements?_eq hparams hns, hvalues]
  dsimp only
  rw [if_pos hlen]
  exact ⟨_, _, rfl⟩

/-- **The environment of a call** is made in front of the caller's. -/
theorem opens_callScope (hs : m.Sound) (hparams : m.heap.LiveRef c.params)
    (hcaptured : m.heap.LiveChain c.captured)
    (hvalues : ∀ v ∈ values, m.heap.LiveRef v ∧ m.Handed v) : m.Opens (callScope c values) := by
  have hlive := fun v hv => (hvalues v hv).1
  refine ⟨callScope_ends hs hparams hcaptured hvalues,
    fun _ hm => callScope_mirrored hs hparams hcaptured hvalues hm, fun call m' hrun => ?_,
    fun e m' hrun => (callScope_failed hs hcaptured hlive hrun).1⟩
  obtain ⟨cs, fs, _, hent, hbinds⟩ := callScope_ok hs hparams hcaptured hlive hrun
  exact ⟨values, cs ++ fs, hent, hvalues, fun b hb =>
    ⟨(callScope_registers hs hcaptured hrun hent).2.2 b hb,
      callScope_hands hs hcaptured hvalues hrun hent hbinds hb⟩⟩

end

end ArenaLisp
