import ArenaLisp.Proofs.Accounting
import ArenaLisp.Proofs.Ownership
import ArenaLisp.Proofs.Resting

/-!
# What escapes the arena

At the end of a turn everything registered is released. Everything made in the turn should be
released by then, or be reached from the root environment. It is in every turn that calls no
closure. What a call loses is neither, and every call loses something: the list of its arguments
is never registered, and what `set` binds in the environment of a call is not registered when
that environment is given up.

A node that is neither registered nor borne by the environment is *stray*. Nothing takes notice
of a stray node, so it stays one: `Stray` is an invariant. So what a call loses is there still at
the end of the turn, and after it.
-/

namespace ArenaLisp

open EvalM Machine

namespace Machine

/-! ## Stray nodes -/

/-- Whether a node is there that is neither registered nor borne by the environment. -/
structure Stray (m : Machine) (n : Node) : Prop where
  has : m.heap.Has n
  unreleased : ¬m.heap.Released n
  untracked : ¬m.Tracked n
  unborne : ∀ b ∈ m.env, ¬m.Bears b n

variable {m m' : Machine} {n : Node}

/-- A stray node is no binding of the environment, so it stays as it is. -/
theorem Stray.of_evolves (hn : m.Stray n) (he : m.Evolves m') (htracked : ¬m'.Tracked n)
    (hborne : ∀ b ∈ m'.env, ¬m'.Bears b n) : m'.Stray n := by
  have hagree := he.agreeAt hn.has fun b hb heq => hn.unborne b hb (Or.inl heq)
  exact ⟨he.has hn.has, fun hr => hn.unreleased (hagree.released_iff.mp hr), htracked, hborne⟩

/-- What `set` binds is new, and what it registers was borne by the binding. -/
theorem Stray.of_sets (hn : m.Stray n) (hs : m.Sound) (he : m.Evolves m') {b : BindingId}
    (hset : m.Sets b m') : m'.Stray n := by
  refine hn.of_evolves he (fun ht => ?_) fun b' hb' hbears => ?_
  · rcases hset.registered n ht with ht | ⟨hb, hheld⟩
    · exact hn.untracked ht
    · exact hn.unborne b hb (Or.inr (Or.inl hheld))
  · by_cases hne : b' = b
    · subst hne
      by_cases hmem : b' ∈ m.env
      · -- it has its name still
        rcases hbears with rfl | hheld | ⟨hnot, hheld⟩
        · exact hn.unborne b' hmem (Or.inl rfl)
        · exact hset.value n hheld hn.has
        · rw [(he.fixed b' (hs.env_has hmem)).1, he.holds_iff hs (hs.names b' hmem)] at hheld
          exact hn.unborne b' hmem (Or.inr (Or.inr ⟨fun ht => hnot (he.tracked _ ht), hheld⟩))
      · obtain ⟨hnew, hname⟩ := hset.fresh hmem
        rcases hbears with rfl | hheld | ⟨-, hheld⟩
        · exact hnew hn.has
        · exact hset.value n hheld hn.has
        · exact hname n hheld hn.has
    · obtain ⟨hmem, hvalue⟩ := hset.others b' hb' hne
      exact hn.unborne b' hmem ((he.bears_iff hs hmem hvalue).mp hbears)

/-- **A stray node stays stray**, whatever is evaluated. -/
theorem stray_invariant (n : Node) : Invariant fun m => m.Stray n where
  change := by
    intro m m' hs hc hn
    have he := (hc.keeps hs).2
    cases hc with
    | build hb _ _ _ hnew =>
        refine hn.of_evolves he (fun ht => ?_) fun b hb' hbears => ?_
        · exact (hnew n ht).elim hn.untracked fun hmade => hmade.2 hn.has
        · have hmem : b ∈ m.env := by
            rw [← hs.env_of_extends hb.grown]
            exact hb'
          have hvalue := congrArg Binding.value (hb.grown.binding b (hs.env_has hmem))
          exact hn.unborne b hmem ((he.bears_iff hs hmem hvalue).mp hbears)
    | bind hv hname hw =>
        obtain ⟨b, hset⟩ := assign_sets hs hv hw
        exact hn.of_sets hs he hset
  enter := by
    -- what a call binds in front is registered with all that it holds
    intro m m' values front hs hcalls hent _ hfront hn
    have hagree := hent.grown.agreeAt hn.has
    have hnot : ¬m'.Tracked n := fun ht =>
      (hcalls.registered n ht).elim hn.untracked fun hmade => hmade.2 hn.has
    refine ⟨hent.grown.has hn.has, fun hr => hn.unreleased (hagree.released_iff.mp hr), hnot, ?_⟩
    intro b hb hbears
    rw [show m'.env = front ++ m.env from hent.linked.chain_eq] at hb
    rcases List.mem_append.mp hb with hb | hb
    · exact hnot (hbears.tracked (hfront b hb))
    · exact hn.unborne b hb ((hcalls.bears_iff hs hb).mp hbears)
  leave _ henv hlinked hn :=
    ⟨hn.has, hn.unreleased, hn.untracked, fun b hb =>
      hn.unborne b (mem_env_of_suffix henv hlinked hb)⟩

/-! ## Values kept apart -/

/-- Whether the values of two bindings of the environment share only what is registered. -/
def Apart (m : Machine) : Prop :=
  ∀ b ∈ m.env, ∀ b' ∈ m.env, b ≠ b' → ∀ k, m.heap.Holds (m.heap.binding b).value k →
    m.heap.Holds (m.heap.binding b').value k → m.Tracked k

/-- Bindings that all last share nothing. -/
theorem Rooted.apart (hr : m.Rooted) : m.Apart := fun b hb b' hb' hne k hk hk' =>
  absurd hk' (hr.sound.values_apart b ⟨hb, hr.lasting b hb⟩ b' hb' hne k hk)

/-- The values of bindings that are not set share what they shared. -/
theorem Apart.of_evolves (ha : m.Apart) (hs : m.Sound) (he : m.Evolves m') {b b' : BindingId}
    (hb : b ∈ m.env) (hb' : b' ∈ m.env) (hne : b ≠ b')
    (hvalue : (m'.heap.binding b).value = (m.heap.binding b).value)
    (hvalue' : (m'.heap.binding b').value = (m.heap.binding b').value) {k : Node}
    (hk : m'.heap.Holds (m'.heap.binding b).value k)
    (hk' : m'.heap.Holds (m'.heap.binding b').value k) : m'.Tracked k := by
  rw [hvalue, he.holds_iff hs (hs.values b hb)] at hk
  rw [hvalue', he.holds_iff hs (hs.values b' hb')] at hk'
  exact he.tracked k (ha b hb b' hb' hne k hk hk')

theorem apart_invariant : Invariant Apart where
  change := by
    intro m m' hs hc ha
    have he := (hc.keeps hs).2
    cases hc with
    | @build A h ns arena log hb _ _ _ _ =>
        intro b hmem b' hmem' hne k hk hk'
        rw [show env ⟨h, arena, m.scope, log⟩ = m.env from hs.env_of_extends hb.grown] at hmem hmem'
        have hvalue : ∀ b ∈ m.env, (h.binding b).value = (m.heap.binding b).value := fun b hb' =>
          congrArg Binding.value (hb.grown.binding b (hs.env_has hb'))
        exact ha.of_evolves hs he hmem hmem' hne (hvalue b hmem) (hvalue b' hmem') hk hk'
    | bind hv hname hw =>
        obtain ⟨b₀, hset⟩ := assign_sets hs hv hw
        -- nothing of the new value was there, and everything of another was
        have hother : ∀ b ∈ m'.env, b ≠ b₀ → ∀ k, m'.heap.Holds (m'.heap.binding b).value k →
            m.heap.Has k := by
          intro b hb hne k hk
          obtain ⟨hmem, hvalue⟩ := hset.others b hb hne
          rw [hvalue, he.holds_iff hs (hs.values b hmem)] at hk
          exact (hs.values b hmem k hk).1
        intro b hb b' hb' hne k hk hk'
        by_cases h₀ : b = b₀
        · subst h₀
          exact absurd (hother b' hb' (Ne.symm hne) k hk') (hset.value k hk)
        · by_cases h₀' : b' = b₀
          · subst h₀'
            exact absurd (hother b hb hne k hk) (hset.value k hk')
          · obtain ⟨hmem, hvalue⟩ := hset.others b hb h₀
            obtain ⟨hmem', hvalue'⟩ := hset.others b' hb' h₀'
            exact ha.of_evolves hs he hmem hmem' hne hvalue hvalue' hk hk'
  enter := by
    intro m m' values front hs hcalls hent _ hfront ha b hb b' hb' hne k hk hk'
    rw [show m'.env = front ++ m.env from hent.linked.chain_eq] at hb hb'
    rcases List.mem_append.mp hb with hb | hb
    · exact (hfront b hb).2 k hk
    · rcases List.mem_append.mp hb' with hb' | hb'
      · exact (hfront b' hb').2 k hk'
      · have hold : ∀ b ∈ m.env, m'.heap.Holds (m'.heap.binding b).value k →
            m.heap.Holds (m.heap.binding b).value k := by
          intro b hb hk
          rw [hent.grown.binding b (hs.env_has hb)] at hk
          exact (hent.grown.holds_iff fun l hl => (hs.values b hb l hl).1).mp hk
        exact hcalls.tracked k (ha b hb b' hb' hne k (hold b hb hk) (hold b' hb' hk'))
  leave _ henv hlinked ha b hb b' hb' :=
    ha b (mem_env_of_suffix henv hlinked hb) b' (mem_env_of_suffix henv hlinked hb')

/-- What two bindings of the environment bear is registered. -/
theorem Owned.tracked_of_shared (ho : m.Owned) (hs : m.Sound) (ha : m.Apart) {b b' : BindingId}
    (hb : b ∈ m.env) (hb' : b' ∈ m.env) (hne : b ≠ b') (hn : m.Bears b n) (hn' : m.Bears b' n) :
    m.Tracked n := by
  rcases hn with rfl | hn | ⟨hlast, hn⟩
  · rcases hn' with heq | hn' | ⟨-, hn'⟩
    · cases heq
      exact absurd rfl hne
    · exact absurd hn' (hs.not_holds hb)
    · exact absurd hn' (hs.not_holds hb)
  · rcases hn' with rfl | hn' | ⟨hlast', hn'⟩
    · exact absurd hn (hs.not_holds hb')
    · exact ha b hb b' hb' hne n hn hn'
    · exact absurd hn (hs.names_apart b' ⟨hb', hlast'⟩ b hb n hn')
  · rcases hn' with rfl | hn' | ⟨hlast', hn'⟩
    · exact absurd hn (hs.not_holds hb')
    · exact absurd hn' (hs.names_apart b ⟨hb, hlast⟩ b' hb' n hn)
    · exact absurd hn' (ho.names_apart b ⟨hb, hlast⟩ b' ⟨hb', hlast'⟩ hne n hn)

/-- What is borne only by bindings that are given up is stray, unless it is registered. -/
theorem Stray.of_leave (hs : m.Sound) (ho : m.Owned) (ha : m.Apart) {c : Chain}
    {front env : List BindingId} (henv : m.env = front ++ env) (hlinked : m.heap.Linked c env)
    {b : BindingId} (hb : b ∈ m.env) (hout : b ∉ env) (hn : m.Bears b n) (hnot : ¬m.Tracked n) :
    Stray { m with scope := c } n := by
  obtain ⟨hhas, hunreleased⟩ := hs.of_bears hb hn
  refine ⟨hhas, hunreleased, hnot, fun b' hb' hn' => ?_⟩
  have hne : b ≠ b' := by
    rintro rfl
    rw [show Machine.env { m with scope := c } = env from hlinked.chain_eq] at hb'
    exact hout hb'
  exact hnot (ho.tracked_of_shared hs ha hb (mem_env_of_suffix henv hlinked hb') hne hn hn')

end Machine

/-! ## Calls -/

namespace CallsClosure

variable {n : Nat} {v : Ref} {m caller entered : Machine} {c : Closure} {k : Node}

/-- What is made for a call and not registered is stray from the start. -/
theorem stray_made (hs : m.Sound) (hv : m.heap.LiveRef v) (hc : CallsClosure n v m c caller entered)
    (hmade : caller.heap.Made entered.heap k) (hnot : ¬entered.Tracked k) : entered.Stray k := by
  obtain ⟨-, hcalls, -, values, front, hent, -, hfront⟩ := hc.calls hs hv
  obtain ⟨hs₂, -⟩ := hc.opened hs hv
  refine ⟨hmade.1, hent.clean k hmade, hnot, fun b hb hbears => ?_⟩
  rw [show entered.env = front ++ caller.env from hent.linked.chain_eq] at hb
  rcases List.mem_append.mp hb with hb | hb
  · exact hnot (hbears.tracked (hfront b hb))
  · exact hmade.2 (hs₂.of_bears hb ((hcalls.bears_iff hs₂ hb).mp hbears)).1

/-- **What a call loses is stray** when it has ended. -/
theorem stray (ho : m.Orderly) (hv : m.HasCode v) (howned : m.Owned) (ha : m.Apart)
    (hc : CallsClosure n v m c caller entered) (hk : c.Loses caller (entered.eval n c.body).2 k) :
    (finalMachine (ArenaLisp.eval (n + 1) v m)).Stray k := by
  have hs := ho.sound
  obtain ⟨hs₃, hcalls, hlive, -⟩ := hc.calls hs hv.liveRef
  obtain ⟨hs₂, -⟩ := hc.opened hs hv.liveRef
  have hbody : Nested (n + 1) v m n c.body entered := .part .whole (hc.asks hs hv.liveRef)
  rcases hk with hlisted | ⟨b, hb, hout, hbears, hnot⟩
  · -- the list is stray from the start, and stays so
    obtain ⟨hmade, hnot⟩ := (hc.unregistered ho hv).mpr hlisted
    refine (hbody.maintains (stray_invariant k) hs hv.liveRef).2 ?_
    exact eval_maintains (stray_invariant k) n c.body entered hs₃ hlive
      (hc.stray_made hs hv.liveRef hmade hnot)
  · -- what the call's own bindings bear is stray when they are given up
    obtain ⟨hs', he'⟩ := (eval_keeps n c.body entered hs₃ hlive).final
    have hleft : ∀ I : Machine → Prop, Invariant I → I m → I (entered.eval n c.body).2 :=
      fun I hI hm => hI.eval hs₃ n hlive ((hbody.maintains hI hs hv.liveRef).1 hm)
    rw [← Machine.eval_snd] at hs' he'
    rw [← Machine.eval_snd, hc.eval_eq]
    obtain ⟨front, henv, -⟩ := hcalls.env
    obtain ⟨news, henv', -⟩ := he'.grown
    rw [henv, ← List.append_assoc] at henv'
    exact .of_leave hs' (hleft _ owned_persistent.invariant howned) (hleft _ apart_invariant ha)
      henv' (hcalls.linked hs₂ he') hb hout hbears hnot

end CallsClosure

/-- **What is lost within an evaluation is stray** at its end. -/
theorem Lost.stray {n : Nat} {v : Ref} {m : Machine} {k : Node} (hk : Lost n v m k) (ho : m.Orderly)
    (hv : m.HasCode v) (howned : m.Owned) (ha : m.Apart) : (finalMachine (eval n v m)).Stray k := by
  obtain ⟨l, w, s, c, caller, entered, hw, hc, hloses⟩ := hk
  have hmaintains := fun I hI => hw.maintains (I := I) hI ho.sound hv.liveRef
  obtain ⟨ho', hw'⟩ := hw.orderly ho hv
  refine (hmaintains _ (stray_invariant k)).2 (hc.stray ho' hw' ?_ ?_ hloses)
  · exact (hmaintains _ owned_persistent.invariant).1 howned
  · exact (hmaintains _ apart_invariant).1 ha

/-! ## Turns -/

namespace Machine

variable {m : Machine} {n : Node}

/-- Releasing leaves the stray nodes alone, and makes none. -/
theorem Rooted.stray_releaseAll (hr : m.Rooted) : m.releaseAll.2.Stray n ↔ m.Stray n := by
  have hc := Heap.clears_releaseAll m.arena m.heap
  have hbears : ∀ b ∈ m.env, (m.releaseAll.2.Bears b n ↔ m.Bears b n) := by
    intro b hb
    unfold Bears
    rw [hr.releaseAll_binding hb, hr.releaseAll_value hb, hr.releaseAll_name hb]
    simp [hr.lasting b hb, m.releaseAll_tracked]
  constructor
  · intro hn
    have hhas : m.heap.Has n := hc.has_iff.mp hn.has
    refine ⟨hhas, fun hreleased => hn.unreleased (hc.released hreleased), fun ht => ?_, ?_⟩
    · exact hn.unreleased (Heap.released_releaseAll ht hhas)
    · intro b hb hbn
      exact hn.unborne b (by rwa [hr.releaseAll_env]) ((hbears b hb).mpr hbn)
  · intro hn
    refine ⟨hc.has_iff.mpr hn.has, fun hreleased => ?_, m.releaseAll_tracked n, fun b hb hbn => ?_⟩
    · exact hn.unreleased ((hc.kept n hn.untracked).released_iff.mp hreleased)
    · rw [hr.releaseAll_env] at hb
      exact hn.unborne b hb ((hbears b hb).mp hbn)

theorem stray_persistent (n : Node) : Persistent fun m => m.Stray n :=
  ⟨stray_invariant n, fun hr hn => hr.stray_releaseAll.mpr hn⟩

/-- Whether a node is released, or reached from the environment. -/
def Accounted (m : Machine) (n : Node) : Prop :=
  m.heap.Released n ∨ ∃ r ∈ Node.ofChain m.scope, m.heap.Reaches r n

/-- A lasting environment reaches what its bindings bear. -/
theorem Rooted.reached_iff (hr : m.Rooted) :
    (∃ r ∈ Node.ofChain m.scope, m.heap.Reaches r n) ↔ ∃ b ∈ m.env, m.Bears b n := by
  constructor
  · rintro ⟨r, hmem, hreach⟩
    obtain ⟨b, hb, hcase⟩ := hr.sound.linked.reaches_cases hmem hreach
    -- a binding bears its name too, since it lasts
    exact ⟨b, hb, hcase.imp_right fun h => h.symm.imp_right fun h => ⟨hr.lasting b hb, h⟩⟩
  · rintro ⟨b, hb, hbears⟩
    obtain ⟨r, hmem, hreach⟩ := hr.sound.linked.reaches hb
    have hfield : ∀ v, v = (m.heap.binding b).name ∨ v = (m.heap.binding b).value →
        m.heap.Holds v n → m.heap.Reaches (.binding b) n := by
      intro v hv hn
      obtain ⟨p, hp, hpn⟩ := Heap.holds_iff.mp hn
      refine (Heap.Reaches.of_part ?_).trans hpn
      rcases hv with rfl | rfl <;> simp [Heap.parts, Binding.parts, hp]
    rcases hbears with rfl | hn | ⟨-, hn⟩
    · exact ⟨r, hmem, hreach⟩
    · exact ⟨r, hmem, hreach.trans (hfield _ (Or.inr rfl) hn)⟩
    · exact ⟨r, hmem, hreach.trans (hfield _ (Or.inl rfl) hn)⟩

/-- What is there and not registered is released, reached from the environment, or stray. -/
theorem Rooted.accounted_iff (hr : m.Rooted) (hn : m.heap.Has n) (hnot : ¬m.Tracked n) :
    m.Accounted n ↔ ¬m.Stray n := by
  rw [Accounted, hr.reached_iff]
  constructor
  · rintro (hreleased | ⟨b, hb, hbears⟩) hstray
    · exact hstray.unreleased hreleased
    · exact hstray.unborne b hb hbears
  · intro hstray
    by_contra hneither
    push Not at hneither
    exact hstray ⟨hn, hneither.1, hnot, hneither.2⟩

/-- Checks that everything made between two machines is released, or comes up in a walk. -/
def accountsFor (m m' : Machine) : Bool :=
  let reached := m'.heap.chainNodesTo m'.heap.depth m'.scope
  (List.range m'.heap.cells.size).all (fun a => decide (a < m.heap.cells.size) ||
    (m'.heap.cell ⟨a⟩).isReleased || reached.contains (.value ⟨a⟩)) &&
  (List.range m'.heap.bindings.size).all fun b => decide (b < m.heap.bindings.size) ||
    (m'.heap.binding ⟨b⟩).released || reached.contains (.binding ⟨b⟩)

theorem accounted_of_accountsFor {m' : Machine} (h : m.accountsFor m' = true)
    (hn : m.heap.Made m'.heap n) : m'.Accounted n := by
  have hreached : ∀ n, (m'.heap.chainNodesTo m'.heap.depth m'.scope).contains n = true →
      m'.Accounted n := by
    intro n hmem
    rw [(Heap.nodesTo_eq_walk _ _).2, List.contains_iff_mem] at hmem
    obtain ⟨r, hr, hwalk⟩ := List.mem_flatMap.mp hmem
    exact Or.inr ⟨r, hr, Heap.reaches_of_mem_walk hwalk⟩
  simp only [accountsFor, Bool.and_eq_true, List.all_eq_true, List.mem_range, Bool.or_eq_true,
    decide_eq_true_eq] at h
  cases n with
  | value a =>
      rcases h.1 a.index hn.1 with (hold | hreleased) | hmem
      · exact absurd hold hn.2
      · exact Or.inl hreleased
      · exact hreached _ hmem
  | binding b =>
      rcases h.2 b.index hn.1 with (hold | hreleased) | hmem
      · exact absurd hold hn.2
      · exact Or.inl hreleased
      · exact hreached _ hmem

/-- All of an expression is registered for its turn. -/
theorem Rooted.started_accounts (hr : m.Rooted) {t : Tree} (ht : t.Plain) {lost : Node → Prop} :
    m.Accounts lost (m.started t) := by
  obtain ⟨hr₁, he₁, -⟩ := hr.started ht
  have hcovers := Heap.store_covers t m.heap ht
  refine .of_registered hr.sound he₁ (fun b hb => ?_) fun n hn => ?_
  · exact congrArg Binding.value (hcovers.grown.binding b (hr.sound.env_has hb))
  · obtain ⟨p, hp, hreach⟩ := hcovers.reached n hn
    exact Arena.mem_trackNodes.mpr (Or.inr
      (hr₁.sound.bounded.mem_nodes (Heap.holds_iff.mpr ⟨p, hp, hreach⟩) hn.1))

end Machine

namespace Interpreter

/-- What the calls of a turn lose. -/
def LostIn (i : Interpreter) (depth : Nat) (t : Tree) (n : Node) : Prop :=
  Lost depth (Heap.store t i.heap).1 (i.machine.started t) n

/-- Whether a closure is called in a turn, at any depth. -/
def CallsIn (i : Interpreter) (depth : Nat) (t : Tree) : Prop :=
  ∃ l w s c caller entered,
    Nested depth (Heap.store t i.heap).1 (i.machine.started t) (l + 1) w s ∧
      CallsClosure l w s c caller entered

variable {i : Interpreter} {t : Tree} {n : Node}

/-- What is stray at the end of a turn was stray when its evaluation had ended. -/
theorem execTree_stray (hr : i.machine.Rooted) (ht : t.Plain) (depth : Nat) :
    (i.execTree depth t).2.machine.Stray n ↔
      ((i.machine.started t).eval depth (Heap.store t i.heap).1).2.Stray n := by
  obtain ⟨hr₁, -, hv⟩ := hr.started ht
  refine Iff.trans ?_ (hr₁.eval depth hv).1.stray_releaseAll
  rw [execTree_machine]
  exact ⟨fun h => ⟨h.has, h.unreleased, h.untracked, h.unborne⟩,
    fun h => ⟨h.has, h.unreleased, h.untracked, h.unborne⟩⟩

/-- What the calls of a turn lose is stray at its end. -/
theorem LostIn.stray {depth : Nat} (hn : i.LostIn depth t n) (hr : i.machine.Resting)
    (ho : i.machine.Owned) (hc : t.Code) : (i.execTree depth t).2.machine.Stray n := by
  obtain ⟨hr₁, hv⟩ := hr.started hc
  have ho₁ := owned_persistent.invariant.started hr.rooted.sound hc.plain ho
  rw [execTree_stray hr.rooted hc.plain, Machine.eval_snd]
  exact Lost.stray hn hr₁.orderly hv ho₁ hr₁.rooted.apart

/-- What a turn makes and its calls do not lose is not stray at its end. -/
theorem lostIn_of_stray {depth : Nat} (hr : i.machine.Resting) (hc : t.Code)
    (hmade : i.heap.Made (i.execTree depth t).2.heap n)
    (hn : (i.execTree depth t).2.machine.Stray n) : i.LostIn depth t n := by
  obtain ⟨hr₁, hv⟩ := hr.started hc
  obtain ⟨-, he₂⟩ := hr₁.rooted.eval depth hv.liveRef
  have he₁ := (hr.rooted.started hc.plain).2.1
  rw [execTree_stray hr.rooted hc.plain] at hn
  -- the expression is registered whole, so nothing of it counts as lost
  have hbuilt : i.machine.Accounts (i.LostIn depth t) (i.machine.started t) :=
    hr.rooted.started_accounts hc.plain
  have hrun : (i.machine.started t).Accounts (i.LostIn depth t) _ :=
    eval_accounts depth hr₁.orderly hv
  rw [← Machine.eval_snd] at hrun
  rcases (hbuilt.trans he₁ he₂ hrun).made n ⟨hn.has, hmade.2⟩ with ht | ⟨b, hb, hbears⟩ | hlost
  · exact absurd ht hn.untracked
  · exact absurd hbears (hn.unborne b hb)
  · exact hlost

/-- Every call loses something that was made in its turn. -/
theorem CallsIn.exists_lost {depth : Nat} (hcalls : i.CallsIn depth t) (hr : i.machine.Resting)
    (ho : i.machine.Owned) (hc : t.Code) :
    ∃ n, i.heap.Made (i.execTree depth t).2.heap n ∧ i.LostIn depth t n := by
  obtain ⟨l, w, s, c, caller, entered, hw, hcall⟩ := hcalls
  obtain ⟨hr₁, hv⟩ := hr.started hc
  obtain ⟨hs₁, hw'⟩ := hw.orderly hr₁.orderly hv
  have he₁ := (hr.rooted.started hc.plain).2.1
  have hretains := (hw.maintains (retains_invariant (i.machine.started t)) hr₁.rooted.sound
    hv.liveRef).1 (.refl _)
  obtain ⟨-, hcaller, -⟩ := hcall.opened hs₁.sound hw'.liveRef
  -- the list of the arguments has one cell at least
  obtain ⟨hmade, -⟩ := (hcall.unregistered hs₁ hw').mpr ⟨0, Nat.zero_le _, rfl⟩
  have hlost : i.LostIn depth t _ :=
    ⟨l, w, s, c, caller, entered, hw, hcall, Or.inl ⟨0, Nat.zero_le _, rfl⟩⟩
  refine ⟨_, ⟨(hlost.stray hr ho hc).has, fun hold => hmade.2 ?_⟩, hlost⟩
  exact hcaller.has (hretains.has _ (he₁.has hold))

/-- What the calls of a turn lose is neither released nor reached, whatever follows. -/
theorem LostIn.not_accounted {depth : Nat} (hn : i.LostIn depth t n) (hr : i.machine.Resting)
    (ho : i.machine.Owned) (hc : t.Code) (more : List Step) :
    ¬((i.execTree depth t).2.run more).machine.Accounted n := by
  intro haccounted
  have hrooted := (execTree_resting hr depth hc).rooted
  have hstray := run_persistent (stray_persistent n) more hrooted (hn.stray hr ho hc)
  have hlater := (run_advances more hrooted).rooted
  exact (hlater.accounted_iff hstray.has hstray.untracked).mp haccounted hstray

/-- What else a turn makes is released or reached at its end. -/
theorem accounted_of_not_lostIn {depth : Nat} (hr : i.machine.Resting) (hc : t.Code)
    (hmade : i.heap.Made (i.execTree depth t).2.heap n) (hn : ¬i.LostIn depth t n) :
    (i.execTree depth t).2.machine.Accounted n := by
  obtain ⟨hadvances, hempty⟩ := execTree_advances hr.rooted depth hc.plain
  have hnot : ¬(i.execTree depth t).2.machine.Tracked n := by
    intro ht
    change n ∈ (i.execTree depth t).2.arena.tracked at ht
    simp [hempty] at ht
  refine (hadvances.rooted.accounted_iff hmade.1 hnot).mpr fun hstray => hn ?_
  exact lostIn_of_stray hr hc hmade hstray

/--
**What escapes the arena.** Everything that is made in a turn is in the end released or reached
from the root environment, with the exception of what the calls of the turn lose. That is neither,
then and after any further steps. So nothing escapes exactly if no closure is called in the turn.
-/
theorem turn_accounts_unless_called {extra : List (String × Builtin)} {print reads : Bool}
    (hi : new extra print reads = .ok i) (steps : List Step) (depth : Nat) (e : Expression)
    {j k : Interpreter} (hj : j = i.run steps) (hk : k = (j.execTree depth e.tree).2) :
    (∀ n, j.heap.Made k.heap n → (k.machine.Accounted n ↔ ¬j.LostIn depth e.tree n)) ∧
    (∀ n, j.LostIn depth e.tree n → ∀ more, ¬(k.run more).machine.Accounted n) ∧
    ((∀ n, j.heap.Made k.heap n → k.machine.Accounted n) ↔ ¬j.CallsIn depth e.tree) := by
  have hr : j.machine.Resting := hj ▸ run_resting steps (new_resting hi)
  have ho : j.machine.Owned :=
    hj ▸ run_persistent owned_persistent steps (new_rooted hi).1 (new_owned hi)
  have hlost : ∀ n, j.LostIn depth e.tree n → ∀ more, ¬(k.run more).machine.Accounted n :=
    fun n hn more => hk ▸ hn.not_accounted hr ho e.code more
  have hkept : ∀ n, j.heap.Made k.heap n → ¬j.LostIn depth e.tree n → k.machine.Accounted n := by
    subst hk
    exact fun n hmade hn => accounted_of_not_lostIn hr e.code hmade hn
  refine ⟨fun n hmade => ⟨fun ha hn => hlost n hn [] ha, hkept n hmade⟩, hlost, ?_, ?_⟩
  · intro hall hcalls
    obtain ⟨n, hmade, hn⟩ := hcalls.exists_lost hr ho e.code
    exact hlost n hn [] (hall n (hk ▸ hmade))
  · intro hnone n hmade
    refine hkept n hmade ?_
    rintro ⟨l, w, s, c, caller, entered, hw, hcall, -⟩
    exact hnone ⟨l, w, s, c, caller, entered, hw, hcall⟩

/-- A variable is set to something made of what it was. -/
theorem turn_accounts_unless_called_replaced : ∃ (i : Interpreter) (e₁ e₂ : Expression)
    (j k : Interpreter), new [("list-args", .arguments)] true true = .ok i ∧
    Expression.ofString? "(set 'x '(2))" = some e₁ ∧
    Expression.ofString? "(set 'x (cons 1 x))" = some e₂ ∧
    j = i.run [.exec 9 e₁] ∧ k = (j.execTree 9 e₂.tree).2 ∧
    (∀ n, j.heap.Made k.heap n → k.machine.Accounted n ∧ ¬j.LostIn 9 e₂.tree n) ∧
    ¬j.CallsIn 9 e₂.tree := by
  have hsession : newAny [("list-args", .arguments)] (fun i _ =>
      (Expression.ofString? "(set 'x '(2))").any fun e₁ =>
      (Expression.ofString? "(set 'x (cons 1 x))").any fun e₂ =>
        (fun j : Interpreter => j.machine.accountsFor (j.execTree 9 e₂.tree).2.machine)
          (i.run [.exec 9 e₁])) = true := by
    decide +kernel
  obtain ⟨i, hi, hsession⟩ := exists_of_newAny hsession
  obtain ⟨e₁, he₁, hsession⟩ := (Option.any_eq_true _ _).mp hsession
  obtain ⟨e₂, he₂, hsession⟩ := (Option.any_eq_true _ _).mp hsession
  obtain ⟨hlost, -, hcalls⟩ := turn_accounts_unless_called hi [.exec 9 e₁] 9 e₂ rfl rfl
  have hall := fun n => Machine.accounted_of_accountsFor (n := n) hsession
  exact ⟨i, e₁, e₂, _, _, hi, he₁, he₂, rfl, rfl,
    fun n hmade => ⟨hall n hmade, (hlost n hmade).mp (hall n hmade)⟩, hcalls.mp hall⟩

/-- What the body of a closure sets, and gives as its value, is neither released nor reached. -/
theorem turn_leaves_set_value : ∃ (i : Interpreter) (e : Expression) (a : Addr) (m : Machine),
    new [("list-args", .arguments)] true true = .ok i ∧
    Expression.ofString? "((lambda () (set 'q '(1 2))))" = some e ∧
    (i.machine.started e.tree).eval 9 (Heap.store e.tree i.heap).1 = (.ok (some a), m) ∧
    i.heap.Made (i.execTree 9 e.tree).2.heap (.value a) ∧
    ∀ more, ¬((i.execTree 9 e.tree).2.run more).machine.Accounted (.value a) := by
  have hsession : newAny [("list-args", .arguments)] (fun i _ =>
      (Expression.ofString? "((lambda () (set 'q '(1 2))))").any fun e =>
        (fun (v : Ref) (m : Machine) =>
          (closureCall? 8 v m).any fun (c, caller, entered) =>
            (m.eval 9 v).1.toOption.join.any fun a =>
              (fun left : Machine => left.env.any fun b => !caller.env.contains b &&
                decide ((left.heap.binding b).value = some a) &&
                !left.arena.tracked.contains (.value a)) (entered.eval 8 c.body).2 &&
              decide (i.heap.cells.size ≤ a.index))
        (Heap.store e.tree i.heap).1 (i.machine.started e.tree)) = true := by
    decide +kernel
  obtain ⟨i, hi, hsession⟩ := exists_of_newAny hsession
  obtain ⟨e, he, hsession⟩ := (Option.any_eq_true _ _).mp hsession
  obtain ⟨⟨c, caller, entered⟩, hcall, hsession⟩ := (Option.any_eq_true _ _).mp hsession
  obtain ⟨a, ha, hsession⟩ := (Option.any_eq_true _ _).mp hsession
  obtain ⟨hleft, hnew⟩ := Bool.and_eq_true_iff.mp hsession
  obtain ⟨b, hb, hleft⟩ := List.any_eq_true.mp hleft
  simp only [Bool.and_eq_true, Bool.not_eq_true', decide_eq_true_eq] at hleft
  obtain ⟨⟨hout, hvalue⟩, hnot⟩ := hleft
  have hlost : i.LostIn 9 e.tree (.value a) := by
    refine ⟨8, _, _, c, caller, entered, .whole, callsClosure_of_closureCall? hcall,
      Or.inr ⟨b, hb, by simpa using hout, Or.inr (Or.inl ?_), by simpa [Tracked] using hnot⟩⟩
    exact ⟨a, hvalue, .refl _⟩
  have hr := new_resting hi
  have ho : i.machine.Owned := new_owned hi
  rcases hrun : (i.machine.started e.tree).eval 9 (Heap.store e.tree i.heap).1 with ⟨result, m⟩
  rw [hrun] at ha
  cases result with
  | error f => cases ha
  | ok w =>
      obtain rfl : w = some a := ha
      refine ⟨i, e, a, m, hi, he, hrun, ⟨(hlost.stray hr ho e.code).has, fun hold => ?_⟩,
        hlost.not_accounted hr ho e.code⟩
      exact absurd hold (Nat.not_lt.mpr (of_decide_eq_true hnew))

end Interpreter

end ArenaLisp
