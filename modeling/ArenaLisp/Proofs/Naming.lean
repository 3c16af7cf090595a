import ArenaLisp.Proofs.Invariant

/-!
# The names of an environment

What lasts in an environment are the bindings that `set` and the primitives put there. Those of
calls are registered and gone with their turn. A lasting binding has an atom for its name, which is
not the constant's, and no two of them have the same.

That is so because `set` looks its name up along the whole chain, after its arguments are evaluated
and directly before it binds anything. Whatever the arguments have bound by then is found.
-/

namespace ArenaLisp

namespace Heap

/-- Whether a binding has an atom for its name. -/
def Named (h : Heap) (b : BindingId) (name : String) : Prop :=
  ∃ a, (h.binding b).name = some a ∧ h.cell a = .live (.atom name)

variable {h h' : Heap} {b : BindingId} {name name' : String}

theorem Named.boundName?_eq (hn : h.Named b name) : h.boundName? b = some name := by
  obtain ⟨a, ha, hcell⟩ := hn
  rw [boundName?, ha, cell?, Option.map_some, hcell]
  rfl

theorem Named.unique (hn : h.Named b name) (hn' : h.Named b name') : name = name' :=
  Option.some.inj (hn.boundName?_eq.symm.trans hn'.boundName?_eq)

/-- A name stays as it is as long as the binding has it and the atom is there. -/
theorem Named.congr (hn : h.Named b name) (hname : (h'.binding b).name = (h.binding b).name)
    (hcell : ∀ a, (h.binding b).name = some a → h'.cell a = h.cell a) : h'.Named b name := by
  obtain ⟨a, ha, hatom⟩ := hn
  exact ⟨a, hname.trans ha, (hcell a ha).trans hatom⟩

theorem named_put {a : Addr} (hcell : h.cell a = .live (.atom name)) (value : Ref) (next : Chain) :
    (h.put (some a) value next).2.Named ⟨h.bindings.size⟩ name :=
  ⟨a, by rw [binding_put], hcell⟩

end Heap

namespace Machine

variable {m m' : Machine}

theorem Sound.name_has (hs : m.Sound) {b : BindingId} (hb : b ∈ m.env) {a : Addr}
    (ha : (m.heap.binding b).name = some a) : m.heap.Has (.value a) := by
  have hlive := hs.names b hb
  rw [ha] at hlive
  exact (Heap.liveRef_some.mp hlive).has

theorem Evolves.named (he : m.Evolves m') (hs : m.Sound) {b : BindingId} (hb : b ∈ m.env)
    {name : String} (hn : m.heap.Named b name) : m'.heap.Named b name :=
  hn.congr (he.fixed b (hs.env_has hb)).1 fun a ha => he.cell a (hs.name_has hb ha)

/-! ## Binding a name -/

/--
`set` gives a binding of the environment another value, or puts a new one of the name in front, and
that only if no binding of the environment has the name.
-/
theorem assign_cases (hs : m.Sound) {name : String} {v w : Ref} (hv : m.heap.LiveRef v)
    (hw : assign name v m = .ok w m') : m'.env = m.env ∨
      ∃ b, m'.env = b :: m.env ∧ m'.heap.Named b name ∧
        ∀ b' ∈ m.env, m.heap.boundName? b' ≠ some name := by
  have hcopy := Heap.copy_copies hv
  have hlinked := hcopy.grown.linked hs.linked
  obtain ⟨hs₁, he₁, -⟩ := hs.copied hv rfl
  rw [assign_eq] at hw
  cases hfind : (m.heap.copy v).2.findBinding? m.scope name with
  | some b =>
      rw [hfind] at hw
      cases hw
      left
      exact hs₁.overwritten_linked.chain_eq.trans hlinked.chain_eq
  | none =>
      rw [hfind] at hw
      cases hw
      right
      have hnew := Heap.extends_new (m.heap.copy v).2 (.atom name)
      refine ⟨_, (Heap.linked_put _ _ (hnew.linked hlinked)).chain_eq,
        Heap.named_put (Heap.cell_new (m.heap.copy v).2 (.atom name)) _ _, fun b' hb' heq => ?_⟩
      rw [Heap.findBinding?_eq, List.find?_eq_none, hlinked.chain_eq] at hfind
      have hbound := he₁.boundName?_eq hs hb'
      exact hfind b' hb' (beq_iff_eq.mpr (hbound.trans heq))

/-! ## The shape of the lasting bindings -/

/-- Whether the lasting bindings have atoms for names, each its own and none the constant's. -/
structure Shaped (m : Machine) : Prop where
  named : ∀ b, m.Lasting b → ∃ name, m.heap.Named b name ∧ name ≠ truthName
  apart : ∀ b b' name, m.Lasting b → m.Lasting b' → m.heap.Named b name →
    m.heap.Named b' name → b = b'

theorem shaped_empty : Machine.empty.Shaped :=
  ⟨fun _ hb => absurd hb.1 List.not_mem_nil, fun _ _ _ hb => absurd hb.1 List.not_mem_nil⟩

/-- What lasts lasted before, under the same name. -/
theorem Shaped.of_named (hsh : m.Shaped) (hold : ∀ b, m'.Lasting b → m.Lasting b)
    (hnames : ∀ b name, m.Lasting b → m.heap.Named b name → m'.heap.Named b name) : m'.Shaped := by
  constructor
  · intro b hb
    obtain ⟨name, hn, hne⟩ := hsh.named b (hold b hb)
    exact ⟨name, hnames b name (hold b hb) hn, hne⟩
  · intro b b' name hb hb' hn hn'
    obtain ⟨x, hx, -⟩ := hsh.named b (hold b hb)
    obtain ⟨y, hy, -⟩ := hsh.named b' (hold b' hb')
    obtain rfl := (hnames b x (hold b hb) hx).unique hn
    obtain rfl := (hnames b' y (hold b' hb') hy).unique hn'
    exact hsh.apart b b' _ (hold b hb) (hold b' hb') hx hy

/-- Nothing is bound that was not. -/
theorem Shaped.of_evolves (hsh : m.Shaped) (hs : m.Sound) (he : m.Evolves m')
    (henv : m'.env = m.env) : m'.Shaped := by
  refine hsh.of_named (fun b hb => ?_) fun b name hb hn => he.named hs hb.1 hn
  obtain ⟨hmem, hnot⟩ := hb
  rw [henv] at hmem
  exact ⟨hmem, fun ht => hnot (he.tracked _ ht)⟩

/-- A name is bound that was not. -/
theorem Shaped.define (hsh : m.Shaped) (hs : m.Sound) (he : m.Evolves m') {b : BindingId}
    {name : String} (henv : m'.env = b :: m.env) (hname : m'.heap.Named b name)
    (hne : name ≠ truthName) (hfresh : ∀ b' ∈ m.env, m.heap.boundName? b' ≠ some name) :
    m'.Shaped := by
  have hcases : ∀ b', m'.Lasting b' → b' = b ∨ m.Lasting b' := by
    intro b' hb'
    obtain ⟨hmem, hnot⟩ := hb'
    rw [henv] at hmem
    rcases List.mem_cons.mp hmem with hmem | hmem
    · exact Or.inl hmem
    · exact Or.inr ⟨hmem, fun ht => hnot (he.tracked _ ht)⟩
  have hold : ∀ b' x, m.Lasting b' → m'.heap.Named b' x → m.heap.Named b' x := by
    intro b' x hb' hx
    obtain ⟨y, hy, -⟩ := hsh.named b' hb'
    rwa [hx.unique (he.named hs hb'.1 hy)]
  have hother : ∀ b', m.Lasting b' → ¬m'.heap.Named b' name := fun b' hb' hn =>
    hfresh b' hb'.1 (hold b' name hb' hn).boundName?_eq
  constructor
  · intro b' hb'
    rcases hcases b' hb' with rfl | hl
    · exact ⟨name, hname, hne⟩
    · obtain ⟨x, hx, hxne⟩ := hsh.named b' hl
      exact ⟨x, he.named hs hl.1 hx, hxne⟩
  · intro b₁ b₂ x hb₁ hb₂ hx₁ hx₂
    rcases hcases b₁ hb₁ with rfl | hl₁ <;> rcases hcases b₂ hb₂ with rfl | hl₂
    · rfl
    · rw [hx₁.unique hname] at hx₂
      exact absurd hx₂ (hother b₂ hl₂)
    · rw [hx₂.unique hname] at hx₁
      exact absurd hx₁ (hother b₁ hl₁)
    · exact hsh.apart b₁ b₂ x hl₁ hl₂ (hold b₁ x hl₁ hx₁) (hold b₂ x hl₂ hx₂)

theorem Shaped.assign (hsh : m.Shaped) (hs : m.Sound) {name : String} {v w : Ref}
    (hv : m.heap.LiveRef v) (hne : name ≠ truthName)
    (hw : ArenaLisp.assign name v m = .ok w m') : m'.Shaped := by
  have he := ((Changes.bind hv hne hw).keeps hs).2
  rcases assign_cases hs hv hw with henv | ⟨b, henv, hname, hfresh⟩
  · exact hsh.of_evolves hs he henv
  · exact hsh.define hs he henv hname hne hfresh

/-- **Evaluations and releases keep the names of what lasts apart.** -/
theorem shaped_persistent : Persistent Shaped where
  invariant :=
    { change := by
        intro m m' hs hc hsh
        cases hc with
        | build hb hA hgen hmono hnew =>
            have henv := hs.env_of_extends hb.grown
            exact hsh.of_evolves hs (Changes.keeps (.build hb hA hgen hmono hnew) hs).2 henv
        | bind hv hne hw => exact hsh.assign hs hv hne hw
      enter := by
        -- the bindings of a call are registered, so those that last are the caller's
        intro m m' values front hs hcalls hent _ hfront hsh
        refine hsh.of_named (fun b hb => ?_) fun b name hb hn => ?_
        · have hmem := hb.1
          rw [show m'.env = front ++ m.env from hent.linked.chain_eq] at hmem
          rcases List.mem_append.mp hmem with hmem | hmem
          · exact absurd (hfront b hmem).1 hb.2
          · exact ⟨hmem, fun ht => hb.2 (hcalls.tracked _ ht)⟩
        · refine hn.congr ?_ fun a ha => hent.grown.cell a (hs.name_has hb.1 ha)
          rw [hent.grown.binding b (hs.env_has hb.1)]
      leave := by
        intro m c front env hs henv hlinked hsh
        exact hsh.of_named (fun b hb => ⟨mem_env_of_suffix henv hlinked hb.1, hb.2⟩)
          fun b name _ hn => hn }
  release := by
    intro m hr hsh
    refine hsh.of_named (fun b hb => ?_) fun b name hb hn => ?_
    · have hmem := hb.1
      rw [hr.releaseAll_env] at hmem
      exact ⟨hmem, hr.lasting b hmem⟩
    · refine hn.congr (by rw [hr.releaseAll_binding hb.1]) fun a ha => ?_
      exact hr.releaseAll_agreeAt hb.1 (Or.inl ha.symm)
        (Heap.holds_some.mpr (Heap.Reaches.refl (.value a)))

/-! ## Between the steps -/

/--
What a root environment looks like: the names are atoms, all different and none of them the
constant's, and no binding is hidden by one in front of it.
-/
structure RootShape (m : Machine) : Prop where
  named : ∀ b ∈ m.env, ∃ name, m.heap.Named b name ∧ name ≠ truthName
  apart : (m.env.map m.heap.boundName?).Nodup
  exposed : ∀ b ∈ m.env, m.heap.Exposed m.scope b

/-- In a root environment everything lasts. -/
theorem Shaped.rootShape (hsh : m.Shaped) (hr : m.Rooted) : m.RootShape := by
  have hnamed : ∀ b ∈ m.env, ∃ name, m.heap.Named b name ∧ name ≠ truthName :=
    fun b hb => hsh.named b ⟨hb, hr.lasting b hb⟩
  have hapart : ∀ b ∈ m.env, ∀ b' ∈ m.env, m.heap.boundName? b = m.heap.boundName? b' → b = b' := by
    intro b hb b' hb' heq
    obtain ⟨name, hname, -⟩ := hnamed b hb
    obtain ⟨name', hname', -⟩ := hnamed b' hb'
    rw [hname.boundName?_eq, hname'.boundName?_eq] at heq
    cases heq
    exact hsh.apart b b' name ⟨hb, hr.lasting b hb⟩ ⟨hb', hr.lasting b' hb'⟩ hname hname'
  have hnodup : m.env.Nodup := hr.sound.linked.nodup
  refine ⟨hnamed, hnodup.map_on hapart, fun b hb => ?_⟩
  obtain ⟨front, back, henv⟩ := List.append_of_mem hb
  refine ⟨front, back, henv, fun b' hb' heq => ?_⟩
  have hmem : b' ∈ m.env := by
    rw [henv]
    exact List.mem_append_left _ hb'
  obtain rfl := hapart b' hmem b hb heq
  rw [henv] at hnodup
  exact (List.nodup_append.mp hnodup).2.2 b' hb' b' List.mem_cons_self rfl

end Machine

end ArenaLisp
