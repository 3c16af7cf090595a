import ArenaLisp.Proofs.Sound

/-!
# What each operation keeps

Evaluation does three things to a machine: it builds values, it binds a name, and it
enters and leaves calls. Each keeps the machine sound. The lemmas here are about these
three and not about the primitives that use them.

Building values and entering a call are both growth in front of the environment (`Grows`).
Overwriting a binding and defining one both bind a single binding anew (`BindsAnew`).
-/

namespace ArenaLisp.Machine

/-! ## Building -/

theorem Sound.env_of_extends {m : Machine} (hs : m.Sound) {h : Heap} (he : m.heap.Extends h) :
    h.chain m.scope = m.env :=
  (he.linked hs.linked).chain_eq

theorem Sound.env_has {m : Machine} (hs : m.Sound) {b : BindingId} (hb : b ∈ m.env) :
    m.heap.Has (.binding b) :=
  hs.linked.has hb

/-- What a node held by a binding of the environment was there before anything is built. -/
theorem Sound.not_made {m : Machine} {h : Heap} {v : Ref} (hv : m.heap.LiveRef v) {k : Node}
    (hk : m.heap.Holds v k) : ¬m.heap.Made h k :=
  fun hm => hm.2 (hv k hk).1

/--
Whether a machine has grown by bindings in front of its environment that are registered. They bind
values whose parts are all registered, or new ones. Nothing that was there is registered with this.
-/
structure Grows (m m' : Machine) (values : List Ref) (front : List BindingId) : Prop where
  enters : m.heap.Enters m'.heap values m.env front m'.scope
  passed : ∀ v ∈ values, m.heap.LiveRef v ∧ m.Handed v
  tracked : ∀ n, m.Tracked n → m'.Tracked n
  registered : ∀ n, m'.Tracked n → m.Tracked n ∨ m.heap.Made m'.heap n
  front_tracked : ∀ b ∈ front, m'.Tracked (.binding b)

namespace Grows

variable {m m' : Machine} {values : List Ref} {front : List BindingId}
  (hg : m.Grows m' values front)

include hg

theorem env : m'.env = front ++ m.env := hg.enters.linked.chain_eq

theorem binding_eq (hs : m.Sound) {b : BindingId} (hb : b ∈ m.env) :
    m'.heap.binding b = m.heap.binding b :=
  hg.enters.grown.binding b (hs.env_has hb)

theorem holds_iff {v : Ref} (hv : m.heap.LiveRef v) {k : Node} :
    m'.heap.Holds v k ↔ m.heap.Holds v k :=
  hg.enters.grown.holds_iff fun k hk => (hv k hk).1

theorem holds_name (hs : m.Sound) {b : BindingId} (hb : b ∈ m.env) {k : Node} :
    m'.heap.Holds (m'.heap.binding b).name k ↔ m.heap.Holds (m.heap.binding b).name k := by
  rw [hg.binding_eq hs hb]
  exact hg.holds_iff (hs.names b hb)

theorem holds_value (hs : m.Sound) {b : BindingId} (hb : b ∈ m.env) {k : Node} :
    m'.heap.Holds (m'.heap.binding b).value k ↔ m.heap.Holds (m.heap.binding b).value k := by
  rw [hg.binding_eq hs hb]
  exact hg.holds_iff (hs.values b hb)

/-- The bindings in front are registered, so what lasts has lasted. -/
theorem lasting {b : BindingId} (hl : m'.Lasting b) : m.Lasting b := by
  obtain ⟨hmem, hnot⟩ := hl
  rw [hg.env] at hmem
  rcases List.mem_append.mp hmem with hb | hb
  · exact absurd (hg.front_tracked b hb) hnot
  · exact ⟨hb, fun ht => hnot (hg.tracked _ ht)⟩

theorem not_tracked {v : Ref} (hv : m.heap.LiveRef v) {k : Node} (hk : m.heap.Holds v k)
    (hnot : ¬m.Tracked k) : ¬m'.Tracked k := by
  intro ht
  rcases hg.registered k ht with ht | hm
  · exact hnot ht
  · exact Sound.not_made hv hk hm

/-- What is not registered, and was there, no binding in front needs. -/
theorem front_apart {v : Ref} (hv : m.heap.LiveRef v) {k : Node} (hk : m.heap.Holds v k)
    (hnot : ¬m.Tracked k) {b : BindingId} (hb : b ∈ front) :
    ¬m'.heap.Holds (m'.heap.binding b).value k := by
  intro hk'
  rcases (hg.enters.values b hb).2 with hpassed | hmade
  · obtain ⟨hlive, hhanded⟩ := hg.passed _ hpassed
    exact hnot (hhanded k ((hg.holds_iff hlive).mp hk'))
  · exact Sound.not_made hv hk (hmade k hk')

theorem sound (hs : m.Sound) : m'.Sound where
  bounded := hg.enters.bounded
  linked := by
    rw [hg.env]
    exact hg.enters.linked
  sealed := by
    rw [hg.env]
    exact hg.enters.sealed
  tracked_has n hn := by
    rcases hg.registered n hn with ht | hm
    · exact hg.enters.grown.has (hs.tracked_has n ht)
    · exact hm.1
  unreleased b hb := by
    rw [hg.env] at hb
    rcases List.mem_append.mp hb with hb | hb
    · exact hg.enters.unreleased b hb
    · rw [hg.binding_eq hs hb]
      exact hs.unreleased b hb
  names b hb := by
    rw [hg.env] at hb
    rcases List.mem_append.mp hb with hb | hb
    · exact hg.enters.names b hb
    · rw [hg.binding_eq hs hb]
      exact hg.enters.grown.liveRef (hs.names b hb)
  values b hb := by
    rw [hg.env] at hb
    rcases List.mem_append.mp hb with hb | hb
    · exact (hg.enters.values b hb).1
    · rw [hg.binding_eq hs hb]
      exact hg.enters.grown.liveRef (hs.values b hb)
  names_free b hl k hk := by
    have hl' := hg.lasting hl
    rw [hg.holds_name hs hl'.1] at hk
    exact hg.not_tracked (hs.names b hl'.1) hk (hs.names_free b hl' k hk)
  values_free b hl k hk := by
    have hl' := hg.lasting hl
    rw [hg.holds_value hs hl'.1] at hk
    exact hg.not_tracked (hs.values b hl'.1) hk (hs.values_free b hl' k hk)
  names_apart b hl b' hb' k hk := by
    have hl' := hg.lasting hl
    rw [hg.holds_name hs hl'.1] at hk
    rw [hg.env] at hb'
    rcases List.mem_append.mp hb' with hb' | hb'
    · exact hg.front_apart (hs.names b hl'.1) hk (hs.names_free b hl' k hk) hb'
    · rw [hg.holds_value hs hb']
      exact hs.names_apart b hl' b' hb' k hk
  values_apart b hl b' hb' hne k hk := by
    have hl' := hg.lasting hl
    rw [hg.holds_value hs hl'.1] at hk
    rw [hg.env] at hb'
    rcases List.mem_append.mp hb' with hb' | hb'
    · exact hg.front_apart (hs.values b hl'.1) hk (hs.values_free b hl' k hk) hb'
    · rw [hg.holds_value hs hb']
      exact hs.values_apart b hl' b' hb' hne k hk

end Grows

/--
**Building keeps a machine sound**, whatever is built, as long as it is built over
values and only what is new, or was registered before, is registered.
-/
theorem Sound.build {m : Machine} (hs : m.Sound) {A : Node → Prop} {h : Heap} {ns : List Node}
    (hb : Heap.Builds A m.heap h ns) (hA : ∀ k, A k → ∃ a, k = .value a) (arena : Arena)
    (log : Array LogRecord) (hgen : arena.generation = m.arena.generation)
    (hmono : ∀ n, m.Tracked n → n ∈ arena.tracked)
    (hnew : ∀ n ∈ arena.tracked, m.Tracked n ∨ m.heap.Made h n) :
    Sound ⟨h, arena, m.scope, log⟩ ∧ m.Evolves ⟨h, arena, m.scope, log⟩ := by
  have hnone : ∀ {p : BindingId → Prop}, ∀ b ∈ ([] : List BindingId), p b :=
    fun _ hb' => absurd hb' List.not_mem_nil
  have henters : m.heap.Enters h [] m.env [] m.scope :=
    { grown := hb.grown
      bounded := hb.clean.bounded hb.grown hs.bounded
      linked := hb.grown.linked hs.linked
      fresh := hnone
      sealed := hb.sealed hs.bounded hA (fun b hb' => hs.env_has hb') hs.sealed
      unreleased := hnone
      clean := fun n hn => (hb.clean n hn).1
      edits := hb.edits
      names := hnone
      values := hnone }
  have hgrows : m.Grows ⟨h, arena, m.scope, log⟩ [] [] :=
    ⟨henters, fun _ hv => absurd hv List.not_mem_nil, hmono, hnew, hnone⟩
  refine ⟨hgrows.sound hs, hb.grown.cells_le, hb.grown.bindings_le, hb.grown.cell, ?_, ?_,
    ⟨[], hgrows.env, hnone⟩, hmono, ?_, hgen⟩
  · intro b hb'
    rw [hb.grown.binding b hb']
    exact ⟨rfl, rfl, rfl⟩
  · exact fun b hb' => Or.inl (by rw [hb.grown.binding b hb'])
  · intro b hl ht
    rcases hnew _ ht with ht | hm
    · exact hl.2 ht
    · exact hm.2 (hs.env_has hl.1)

/-! ## Binding -/

/-- Whether nothing that a value holds is registered, or held by the environment. -/
def Private (m : Machine) (v : Ref) : Prop :=
  ∀ k, m.heap.Holds v k → ¬m.Tracked k ∧ ∀ b ∈ m.env,
    ¬m.heap.Holds (m.heap.binding b).name k ∧ ¬m.heap.Holds (m.heap.binding b).value k

/-- What holds only nodes that were just made is private. -/
theorem Sound.private_of_made {m : Machine} (hs : m.Sound) {h : Heap} (he : m.heap.Extends h)
    {log : Array LogRecord} {v : Ref} (hv : ∀ k, h.Holds v k → m.heap.Made h k) :
    Private ⟨h, m.arena, m.scope, log⟩ v := by
  intro k hk
  have hmade := hv k hk
  refine ⟨fun ht => hmade.2 (hs.tracked_has k ht), fun b hb => ?_⟩
  have hb' : b ∈ m.env := by rw [← hs.env_of_extends he]; exact hb
  rw [show (Machine.mk h m.arena m.scope log).heap.binding b = m.heap.binding b from
    he.binding b (hs.env_has hb')]
  constructor
  · intro hn
    exact Sound.not_made (hs.names b hb') ((he.holds_iff fun k hk => (hs.names b hb' k hk).1).mp hn)
      hmade
  · intro hn
    exact Sound.not_made (hs.values b hb')
      ((he.holds_iff fun k hk => (hs.values b hb' k hk).1).mp hn) hmade

/--
Whether evaluation binds one binding of the environment anew, to a private value. The binding was
there under its name, or its name is private as well and has nothing in common with the value. What
is registered with this was held by the value that it had before.
-/
structure BindsAnew (m m' : Machine) (b : BindingId) : Prop where
  others : ∀ b' ∈ m'.env, b' ≠ b → b' ∈ m.env ∧ m'.heap.binding b' = m.heap.binding b'
  unreleased : (m'.heap.binding b).released = false
  value_live : m.heap.LiveRef (m'.heap.binding b).value
  value_private : m.Private (m'.heap.binding b).value
  name : b ∈ m.env ∧ (m'.heap.binding b).name = (m.heap.binding b).name ∨
    m.heap.LiveRef (m'.heap.binding b).name ∧ m.Private (m'.heap.binding b).name ∧
      ∀ k, m.heap.Holds (m'.heap.binding b).name k → ¬m.heap.Holds (m'.heap.binding b).value k
  tracked : ∀ n, m'.Tracked n →
    m.Tracked n ∨ b ∈ m.env ∧ m.heap.Holds (m.heap.binding b).value n

namespace BindsAnew

variable {m m' : Machine} {b : BindingId} (hn : m.BindsAnew m' b)

include hn

/-- A binding of the environment has the name that it had, or it is the new one. -/
theorem name_cases {b' : BindingId} (hb' : b' ∈ m'.env) :
    b' ∈ m.env ∧ (m'.heap.binding b').name = (m.heap.binding b').name ∨
      b' = b ∧ m.heap.LiveRef (m'.heap.binding b).name ∧ m.Private (m'.heap.binding b).name ∧
        ∀ k, m.heap.Holds (m'.heap.binding b).name k →
          ¬m.heap.Holds (m'.heap.binding b).value k := by
  by_cases hne : b' = b
  · subst hne
    exact hn.name.imp id fun h => ⟨rfl, h⟩
  · obtain ⟨hmem, heq⟩ := hn.others b' hb' hne
    exact Or.inl ⟨hmem, by rw [heq]⟩

/-- A binding of the environment has the value that it had, or it is the one bound anew. -/
theorem value_cases {b' : BindingId} (hb' : b' ∈ m'.env) :
    b' ≠ b ∧ b' ∈ m.env ∧ (m'.heap.binding b').value = (m.heap.binding b').value ∨ b' = b := by
  by_cases hne : b' = b
  · exact Or.inr hne
  · obtain ⟨hmem, heq⟩ := hn.others b' hb' hne
    exact Or.inl ⟨hne, hmem, by rw [heq]⟩

theorem live_name (hs : m.Sound) {b' : BindingId} (hb' : b' ∈ m'.env) :
    m.heap.LiveRef (m'.heap.binding b').name := by
  rcases hn.name_cases hb' with ⟨hmem, heq⟩ | ⟨rfl, hlive, -, -⟩
  · rw [heq]
    exact hs.names b' hmem
  · exact hlive

theorem live_value (hs : m.Sound) {b' : BindingId} (hb' : b' ∈ m'.env) :
    m.heap.LiveRef (m'.heap.binding b').value := by
  rcases hn.value_cases hb' with ⟨-, hmem, heq⟩ | rfl
  · rw [heq]
    exact hs.values b' hmem
  · exact hn.value_live

/-- What is private is not registered by this. -/
theorem not_tracked {v : Ref} (hv : m.Private v) {k : Node} (hk : m.heap.Holds v k) :
    ¬m'.Tracked k := by
  intro ht
  rcases hn.tracked k ht with ht | ⟨hb, hold⟩
  · exact (hv k hk).1 ht
  · exact ((hv k hk).2 b hb).2 hold

theorem name_free (hs : m.Sound) (he : m.Evolves m') {b' : BindingId} (hl : m'.Lasting b')
    {k : Node} (hk : m.heap.Holds (m'.heap.binding b').name k) : ¬m'.Tracked k := by
  rcases hn.name_cases hl.1 with ⟨hmem, heq⟩ | ⟨rfl, -, hprivate, -⟩
  · rw [heq] at hk
    intro ht
    rcases hn.tracked k ht with ht | ⟨hb, hold⟩
    · exact hs.names_free b' (he.lasting_of hmem hl) k hk ht
    · exact hs.names_apart b' (he.lasting_of hmem hl) b hb k hk hold
  · exact hn.not_tracked hprivate hk

theorem value_free (hs : m.Sound) (he : m.Evolves m') {b' : BindingId} (hl : m'.Lasting b')
    {k : Node} (hk : m.heap.Holds (m'.heap.binding b').value k) : ¬m'.Tracked k := by
  rcases hn.value_cases hl.1 with ⟨hne, hmem, heq⟩ | rfl
  · rw [heq] at hk
    intro ht
    rcases hn.tracked k ht with ht | ⟨hb, hold⟩
    · exact hs.values_free b' (he.lasting_of hmem hl) k hk ht
    · exact hs.values_apart b' (he.lasting_of hmem hl) b hb hne k hk hold
  · exact hn.not_tracked hn.value_private hk

theorem name_apart (hs : m.Sound) (he : m.Evolves m') {b₁ b₂ : BindingId} (hl : m'.Lasting b₁)
    (hb₂ : b₂ ∈ m'.env) {k : Node} (hk : m.heap.Holds (m'.heap.binding b₁).name k) :
    ¬m.heap.Holds (m'.heap.binding b₂).value k := by
  intro hk'
  rcases hn.name_cases hl.1 with ⟨hmem, heq⟩ | ⟨rfl, -, hprivate, hapart⟩ <;>
    rcases hn.value_cases hb₂ with ⟨-, hmem', heq'⟩ | rfl
  · rw [heq] at hk
    rw [heq'] at hk'
    exact hs.names_apart b₁ (he.lasting_of hmem hl) b₂ hmem' k hk hk'
  · rw [heq] at hk
    exact ((hn.value_private k hk').2 b₁ hmem).1 hk
  · rw [heq'] at hk'
    exact ((hprivate k hk).2 b₂ hmem').2 hk'
  · exact hapart k hk hk'

theorem value_apart (hs : m.Sound) (he : m.Evolves m') {b₁ b₂ : BindingId} (hl : m'.Lasting b₁)
    (hb₂ : b₂ ∈ m'.env) (hne : b₁ ≠ b₂) {k : Node}
    (hk : m.heap.Holds (m'.heap.binding b₁).value k) :
    ¬m.heap.Holds (m'.heap.binding b₂).value k := by
  intro hk'
  rcases hn.value_cases hl.1 with ⟨-, hmem, heq⟩ | rfl <;>
    rcases hn.value_cases hb₂ with ⟨-, hmem', heq'⟩ | rfl
  · rw [heq] at hk
    rw [heq'] at hk'
    exact hs.values_apart b₁ (he.lasting_of hmem hl) b₂ hmem' hne k hk hk'
  · rw [heq] at hk
    exact ((hn.value_private k hk').2 b₁ hmem).2 hk
  · rw [heq'] at hk'
    exact ((hn.value_private k hk).2 b₂ hmem').2 hk'
  · exact hne rfl

/--
**Binding one binding anew keeps a machine sound**, as far as the chain of the environment is still
there and no value reaches it.
-/
theorem sound (hs : m.Sound) (he : m.Evolves m') (hbd : m'.heap.Bounded)
    (hlinked : m'.heap.Linked m'.scope m'.env) (hsealed : m'.heap.Sealed m'.env) : m'.Sound where
  bounded := hbd
  linked := hlinked
  sealed := hsealed
  tracked_has n ht := by
    rcases hn.tracked n ht with ht | ⟨hb, hold⟩
    · exact he.has (hs.tracked_has n ht)
    · exact he.has (hs.values b hb n hold).1
  unreleased b' hb' := by
    by_cases hne : b' = b
    · rw [hne]
      exact hn.unreleased
    · obtain ⟨hmem, heq⟩ := hn.others b' hb' hne
      rw [heq]
      exact hs.unreleased b' hmem
  names b' hb' := he.liveRef hs (hn.live_name hs hb')
  values b' hb' := he.liveRef hs (hn.live_value hs hb')
  -- what a binding holds now its name and its value held before, in the machine that is sound
  names_free b' hl k hk := hn.name_free hs he hl ((he.holds_iff hs (hn.live_name hs hl.1)).mp hk)
  values_free b' hl k hk :=
    hn.value_free hs he hl ((he.holds_iff hs (hn.live_value hs hl.1)).mp hk)
  names_apart b₁ hl b₂ hb₂ k hk hk' :=
    hn.name_apart hs he hl hb₂ ((he.holds_iff hs (hn.live_name hs hl.1)).mp hk)
      ((he.holds_iff hs (hn.live_value hs hb₂)).mp hk')
  values_apart b₁ hl b₂ hb₂ hne k hk hk' :=
    hn.value_apart hs he hl hb₂ hne ((he.holds_iff hs (hn.live_value hs hl.1)).mp hk)
      ((he.holds_iff hs (hn.live_value hs hb₂)).mp hk')

end BindsAnew

section Overwriting

variable {m : Machine} {b : BindingId} {v : Ref}

/-- A value does not see that a binding of the environment is overwritten. -/
theorem Sound.overwritten_agreeAt (hs : m.Sound) (hb : b ∈ m.env) {w : Ref} {k : Node}
    (hk : m.heap.Holds w k) : m.heap.AgreeAt (m.heap.overwritten b v) k := by
  refine Heap.overwritten_agreeAt ?_
  rintro rfl
  exact hs.not_holds hb hk

theorem Sound.overwritten_holds_iff (hs : m.Sound) (hb : b ∈ m.env) {w : Ref} {k : Node} :
    (m.heap.overwritten b v).Holds w k ↔ m.heap.Holds w k :=
  Heap.holds_congr fun _ hl => hs.overwritten_agreeAt hb hl

theorem Sound.overwritten_liveRef (hs : m.Sound) (hb : b ∈ m.env) {w : Ref}
    (hw : m.heap.LiveRef w) : (m.heap.overwritten b v).LiveRef w :=
  Heap.liveRef_congr hw (fun _ hl => hs.overwritten_agreeAt hb hl)
    fun _ hk => Heap.overwritten_has.mpr hk

theorem Sound.overwritten_linked (hs : m.Sound) :
    (m.heap.overwritten b v).Linked m.scope m.env :=
  hs.linked.congr fun _ hb' =>
    ⟨Heap.overwritten_has.mpr (hs.env_has hb'), (Heap.overwritten_fixed (hs.env_has hb')).2.1⟩

theorem Sound.overwritten_sealed (hs : m.Sound) (hb : b ∈ m.env) :
    (m.heap.overwritten b v).Sealed m.env := by
  intro a b' hb' hr
  have hr' := (hs.overwritten_holds_iff hb).mp (Heap.holds_some.mpr hr)
  exact hs.sealed a b' hb' (Heap.holds_some.mp hr')

theorem Sound.overwritten_evolves (hs : m.Sound) (hx : m.heap.Exposed m.scope b) {arena : Arena}
    (hgen : arena.generation = m.arena.generation) (hmono : ∀ n, m.Tracked n → n ∈ arena.tracked)
    (hnew : ∀ n ∈ arena.tracked, m.Tracked n ∨ m.heap.Holds (m.heap.binding b).value n) :
    m.Evolves ⟨m.heap.overwritten b v, arena, m.scope, m.log⟩ where
  cells_le := Nat.le_refl _
  bindings_le := by simp [Heap.overwritten, Heap.modifyBinding]
  cell _ _ := rfl
  fixed _ hb' := Heap.overwritten_fixed hb'
  written b' _ := by
    by_cases hne : b = b'
    · exact Or.inr (hne ▸ hx)
    · exact Or.inl (by rw [Heap.overwritten_ne hne])
  grown := ⟨[], hs.overwritten_linked.chain_eq, fun _ hb' => absurd hb' List.not_mem_nil⟩
  tracked := hmono
  lasting b' hl ht := by
    rcases hnew _ ht with ht | hheld
    · exact hl.2 ht
    · exact hs.not_holds hl.1 hheld
  generation := hgen

/--
**Overwriting keeps a machine sound** when the new value is private. The old one is
registered with all it holds, and no other binding needs any of that.
-/
theorem Sound.overwrite (hs : m.Sound) (hx : m.heap.Exposed m.scope b) (hv : m.heap.LiveRef v)
    (hp : m.Private v) (arena : Arena) (hgen : arena.generation = m.arena.generation)
    (hmono : ∀ n, m.Tracked n → n ∈ arena.tracked)
    (hnew : ∀ n ∈ arena.tracked, m.Tracked n ∨ m.heap.Holds (m.heap.binding b).value n) :
    Sound ⟨m.heap.overwritten b v, arena, m.scope, m.log⟩ ∧
      m.Evolves ⟨m.heap.overwritten b v, arena, m.scope, m.log⟩ := by
  have hb : b ∈ m.env := hx.mem
  have henv : env ⟨m.heap.overwritten b v, arena, m.scope, m.log⟩ = m.env :=
    hs.overwritten_linked.chain_eq
  have hself := Heap.overwritten_self (v := v) (hs.env_has hb)
  have he : m.Evolves ⟨m.heap.overwritten b v, arena, m.scope, m.log⟩ :=
    hs.overwritten_evolves hx hgen hmono hnew
  have hanew : m.BindsAnew ⟨m.heap.overwritten b v, arena, m.scope, m.log⟩ b :=
    { others := fun b' hb' hne => ⟨henv ▸ hb', Heap.overwritten_ne (Ne.symm hne)⟩
      unreleased := by rw [hself]; exact hs.unreleased b hb
      value_live := by rw [hself]; exact hv
      value_private := by rw [hself]; exact hp
      name := Or.inl ⟨hb, by rw [hself]⟩
      tracked := fun n ht => (hnew n ht).imp id fun hold => ⟨hb, hold⟩ }
  refine ⟨hanew.sound hs he ?_ ?_ ?_, he⟩
  · exact Heap.overwritten_bounded hs.bounded fun k hk => (Heap.liveRef_iff.mp hv k hk).has
  · rw [henv]
    exact hs.overwritten_linked
  · rw [henv]
    exact hs.overwritten_sealed hb

end Overwriting

section Defining

variable {m : Machine} {name value : Ref}

theorem Sound.put_env (hs : m.Sound) :
    env ⟨(m.heap.put name value m.scope).2, m.arena, (m.heap.put name value m.scope).1, m.log⟩ =
      ⟨m.heap.bindings.size⟩ :: m.env :=
  (Heap.linked_put name value hs.linked).chain_eq

theorem Sound.put_bounded (hs : m.Sound) (hname : m.heap.LiveRef name)
    (hvalue : m.heap.LiveRef value) : (m.heap.put name value m.scope).2.Bounded := by
  refine Heap.bounded_put hs.bounded fun k hk => ?_
  rcases List.mem_append.mp hk with hk | hk
  · exact (Heap.liveRef_iff.mp hname k hk).has
  · rcases List.mem_append.mp hk with hk | hk
    · exact (Heap.liveRef_iff.mp hvalue k hk).has
    · exact hs.linked.front_has k hk

theorem Sound.put_evolves (hs : m.Sound) :
    m.Evolves ⟨(m.heap.put name value m.scope).2, m.arena,
      (m.heap.put name value m.scope).1, m.log⟩ := by
  have he := Heap.extends_put m.heap name value m.scope
  have hfresh : ¬m.heap.Has (.binding ⟨m.heap.bindings.size⟩) := Nat.lt_irrefl _
  refine ⟨he.cells_le, he.bindings_le, he.cell, fun b hb => ?_, fun b hb => Or.inl ?_,
    ⟨[⟨m.heap.bindings.size⟩], hs.put_env, ?_⟩, fun _ hn => hn, fun _ hl => hl.2, rfl⟩
  · rw [he.binding b hb]
    exact ⟨rfl, rfl, rfl⟩
  · rw [he.binding b hb]
  · intro b hb
    rw [List.mem_singleton.mp hb]
    exact ⟨hfresh, fun ht => hfresh (hs.tracked_has _ ht)⟩

/--
**Defining keeps a machine sound**: a new binding in front of the environment, of a
private name to a private value that have nothing in common.
-/
theorem Sound.define (hs : m.Sound)
    (hname : m.heap.LiveRef name) (hvalue : m.heap.LiveRef value) (hpn : m.Private name)
    (hpv : m.Private value)
    (hapart : ∀ k, m.heap.Holds name k → ¬m.heap.Holds value k) {m' : Machine}
    (hm' : m' = ⟨(m.heap.put name value m.scope).2, m.arena,
      (m.heap.put name value m.scope).1, m.log⟩) :
    m'.Sound ∧ m.Evolves m' := by
  subst hm'
  have hself := Heap.binding_put m.heap name value m.scope
  have hanew : m.BindsAnew ⟨(m.heap.put name value m.scope).2, m.arena,
      (m.heap.put name value m.scope).1, m.log⟩ ⟨m.heap.bindings.size⟩ :=
    { others := fun b hb hne => by
        rw [hs.put_env] at hb
        have hmem : b ∈ m.env := (List.mem_cons.mp hb).resolve_left hne
        exact ⟨hmem, (Heap.extends_put m.heap name value m.scope).binding b (hs.env_has hmem)⟩
      unreleased := by rw [hself]
      value_live := by rw [hself]; exact hvalue
      value_private := by rw [hself]; exact hpv
      name := Or.inr (by rw [hself]; exact ⟨hname, hpn, hapart⟩)
      tracked := fun _ ht => Or.inl ht }
  refine ⟨hanew.sound hs hs.put_evolves (hs.put_bounded hname hvalue) ?_ ?_, hs.put_evolves⟩
  · rw [hs.put_env]
    exact Heap.linked_put name value hs.linked
  · rw [hs.put_env]
    exact Heap.sealed_put hs.bounded hs.sealed

end Defining

/-- A new binding of a name and a value that were both made for it. -/
theorem Sound.defineNew {m : Machine} (hs : m.Sound) {h : Heap} {name value : Ref}
    (hnew : m.heap.Copies h (Node.ofRef name ++ Node.ofRef value))
    (hapart : ∀ k, h.Holds name k → ¬h.Holds value k) :
    Sound ⟨(h.put name value m.scope).2, m.arena, (h.put name value m.scope).1, m.log⟩ ∧
      m.Evolves ⟨(h.put name value m.scope).2, m.arena, (h.put name value m.scope).1, m.log⟩ := by
  have hmade : ∀ w, (∀ n ∈ Node.ofRef w, n ∈ Node.ofRef name ++ Node.ofRef value) →
      ∀ k, h.Holds w k → m.heap.Made h k := by
    intro w hw k hk
    obtain ⟨p, hp, hr⟩ := Heap.holds_iff.mp hk
    exact Heap.Copies.reaches_made hnew (hw p hp) hr
  have hname : m.heap.Copies h (Node.ofRef name) :=
    hnew.weaken fun n hn => List.mem_append_left _ hn
  have hvalue : m.heap.Copies h (Node.ofRef value) :=
    hnew.weaken fun n hn => List.mem_append_right _ hn
  obtain ⟨hs₁, he₁⟩ := hs.build hnew (fun _ hf => hf.elim) m.arena m.log rfl
    (fun _ hn => hn) fun _ hn => Or.inl hn
  obtain ⟨hs₂, he₂⟩ := hs₁.define (hname.liveRef fun _ hf => hf.elim)
    (hvalue.liveRef fun _ hf => hf.elim)
    (hs.private_of_made hnew.grown (hmade name fun n hn => List.mem_append_left _ hn))
    (hs.private_of_made hnew.grown (hmade value fun n hn => List.mem_append_right _ hn)) hapart rfl
  exact ⟨hs₂, he₁.trans hs he₂⟩

/-! ## Calls -/

/--
Whether a machine is another in the environment of a call: with bindings of its own in
front, which are registered as everything new is that is registered.
-/
structure Calls (m m' : Machine) : Prop where
  grown : m.heap.Extends m'.heap
  env : ∃ front, m'.env = front ++ m.env ∧ ∀ b ∈ front, ¬m.heap.Has (.binding b)
  tracked : ∀ n, m.Tracked n → m'.Tracked n
  registered : ∀ n, m'.Tracked n → m.Tracked n ∨ m.heap.Made m'.heap n
  generation : m'.arena.generation = m.arena.generation

theorem Calls.mem_env {m m' : Machine} (hc : m.Calls m') {b : BindingId} (hb : b ∈ m.env) :
    b ∈ m'.env := by
  obtain ⟨front, henv, -⟩ := hc.env
  rw [henv]
  exact List.mem_append_right _ hb

/-- **A call starts on a sound machine** when the values passed to it are registered. -/
theorem Sound.enter {m m' : Machine} (hs : m.Sound) {values : List Ref} {front : List BindingId}
    (he : m.heap.Enters m'.heap values m.env front m'.scope)
    (hvalues : ∀ v ∈ values, m.heap.LiveRef v ∧ m.Handed v)
    (hmono : ∀ n, m.Tracked n → m'.Tracked n)
    (hnew : ∀ n, m'.Tracked n → m.Tracked n ∨ m.heap.Made m'.heap n)
    (hfront : ∀ b ∈ front, m'.Tracked (.binding b))
    (hgen : m'.arena.generation = m.arena.generation) : m'.Sound ∧ m.Calls m' := by
  have hgrows : m.Grows m' values front := ⟨he, hvalues, hmono, hnew, hfront⟩
  exact ⟨hgrows.sound hs, he.grown, ⟨front, hgrows.env, he.fresh⟩, hmono, hnew, hgen⟩

theorem mem_env_of_suffix {m : Machine} {c : Chain} {front env : List BindingId}
    (henv : m.env = front ++ env) (hlinked : m.heap.Linked c env) {b : BindingId}
    (hb : b ∈ Machine.env { m with scope := c }) : b ∈ m.env := by
  rw [show Machine.env { m with scope := c } = env from hlinked.chain_eq] at hb
  rw [henv]
  exact List.mem_append_right _ hb

/-- A machine is sound in any environment that is the end of a sound one. -/
theorem Sound.suffix {m : Machine} (hs : m.Sound) {c : Chain} {front env : List BindingId}
    (henv : m.env = front ++ env) (hlinked : m.heap.Linked c env) :
    Sound { m with scope := c } := by
  have henv' : Machine.env { m with scope := c } = env := hlinked.chain_eq
  have hmem : ∀ b ∈ Machine.env { m with scope := c }, b ∈ m.env :=
    fun b hb => mem_env_of_suffix henv hlinked hb
  have hlasting : ∀ b, Lasting { m with scope := c } b → m.Lasting b :=
    fun b hl => ⟨hmem b hl.1, hl.2⟩
  constructor
  · exact hs.bounded
  · rw [henv']
    exact hlinked
  · exact fun a b hb => hs.sealed a b (hmem b hb)
  · exact hs.tracked_has
  · exact fun b hb => hs.unreleased b (hmem b hb)
  · exact fun b hb => hs.names b (hmem b hb)
  · exact fun b hb => hs.values b (hmem b hb)
  · exact fun b hl => hs.names_free b (hlasting b hl)
  · exact fun b hl => hs.values_free b (hlasting b hl)
  · exact fun b hl b' hb' => hs.names_apart b (hlasting b hl) b' (hmem b' hb')
  · exact fun b hl b' hb' => hs.values_apart b (hlasting b hl) b' (hmem b' hb')

/-- Of a binding of the caller a call leaves all but the value. -/
theorem Calls.fixed {m m' m'' : Machine} (hc : m.Calls m') (he : m'.Evolves m'') (b : BindingId)
    (hb : m.heap.Has (.binding b)) : (m''.heap.binding b).name = (m.heap.binding b).name ∧
      (m''.heap.binding b).next = (m.heap.binding b).next ∧
      (m''.heap.binding b).released = (m.heap.binding b).released := by
  rw [← hc.grown.binding b hb]
  exact he.fixed b (hc.grown.has hb)

theorem Calls.linked {m m' m'' : Machine} (hc : m.Calls m') (hs : m.Sound) (he : m'.Evolves m'') :
    m''.heap.Linked m.scope m.env :=
  hs.linked.congr fun b hb =>
    ⟨he.has (hc.grown.has (hs.env_has hb)), (hc.fixed he b (hs.env_has hb)).2.1⟩

/--
**Coming back from a call** leaves the caller's chain as it was, with at most the
values of bindings changed that no binding of the call hides.
-/
theorem Sound.leave {m m' m'' : Machine} (hs : m.Sound) (hc : m.Calls m')
    (he : m'.Evolves m'') (hs'' : m''.Sound) :
    Sound { m'' with scope := m.scope } ∧ m.Evolves { m'' with scope := m.scope } := by
  obtain ⟨front, henv, hfront⟩ := hc.env
  obtain ⟨news, henv', _⟩ := he.grown
  have hfixed := hc.fixed he
  have hlinked := hc.linked hs he
  have hsuffix : m''.env = (news ++ front) ++ m.env := by rw [henv', henv, List.append_assoc]
  refine ⟨hs''.suffix hsuffix hlinked,
    Nat.le_trans hc.grown.cells_le he.cells_le, Nat.le_trans hc.grown.bindings_le he.bindings_le,
    fun a ha => (he.cell a (hc.grown.has ha)).trans (hc.grown.cell a ha), hfixed, fun b hb => ?_,
    ⟨[], hlinked.chain_eq, fun _ hb => absurd hb List.not_mem_nil⟩,
    fun n hn => he.tracked n (hc.tracked n hn),
    fun b hl => he.lasting b ⟨hc.mem_env hl.1, fun ht => ?_⟩, he.generation.trans hc.generation⟩
  · rcases he.written b (hc.grown.has hb) with hv | hx
    · rw [hc.grown.binding b hb] at hv
      exact Or.inl hv
    · refine Or.inr (Heap.exposed_of_append rfl henv (fun hmem => hfront b hmem hb) ?_ hx)
      intro b' hb'
      exact hs.boundName?_congr hb' (by rw [hc.grown.binding b' (hs.env_has hb')]) hc.grown.cell
  · rcases hc.registered _ ht with ht | hm
    · exact hl.2 ht
    · exact hm.2 (hs.env_has hl.1)

end ArenaLisp.Machine
