import ArenaLisp.Proofs.Covering
import ArenaLisp.Proofs.Steps

/-!
# What becomes of what is made

A node that a turn makes need not be lost for it to be out of the arena's books: a binding
of the environment may *bear* it, as its value, or as its name when the binding itself is
not registered. When `set` takes the value of a binding away, the arena is told of it.

`Accounts` says of two machines that everything made between them is registered or borne in
the end, with the exception of some nodes, and that what a binding bore at first it still
bears, or it was registered. Building and binding account for everything. A call does not: it
leaves aside what it made and did not register, and on its return what its own bindings bear.
-/

namespace ArenaLisp.Machine

/-- Whether a node is there on account of a binding. -/
def Bears (m : Machine) (b : BindingId) (n : Node) : Prop :=
  n = .binding b ∨ m.heap.Holds (m.heap.binding b).value n ∨
    ¬m.Tracked (.binding b) ∧ m.heap.Holds (m.heap.binding b).name n

/-- Whether everything made between two machines has its place in the end, save for some nodes. -/
structure Accounts (lost : Node → Prop) (m m' : Machine) : Prop where
  kept : ∀ b ∈ m.env, ∀ n, m.Bears b n → m'.Bears b n ∨ m'.Tracked n
  made : ∀ n, m.heap.Made m'.heap n → m'.Tracked n ∨ (∃ b ∈ m'.env, m'.Bears b n) ∨ lost n

variable {m m' m'' : Machine} {lost : Node → Prop}

/-- What a binding of the environment bears is live. -/
theorem Sound.of_bears (hs : m.Sound) {b : BindingId} (hb : b ∈ m.env) {n : Node}
    (hn : m.Bears b n) : m.heap.Has n ∧ ¬m.heap.Released n := by
  rcases hn with rfl | hn | ⟨-, hn⟩
  · exact ⟨hs.env_has hb, by simp [Heap.Released, hs.unreleased b hb]⟩
  · exact hs.values b hb n hn
  · exact hs.names b hb n hn

/-- What a binding bears that is registered with its value is registered. -/
theorem Bears.tracked {b : BindingId} {n : Node} (hn : m.Bears b n)
    (hb : m.Tracked (.binding b) ∧ m.Handed (m.heap.binding b).value) : m.Tracked n := by
  rcases hn with rfl | hn | ⟨hnot, -⟩
  · exact hb.1
  · exact hb.2 n hn
  · exact absurd hb.1 hnot

/-- A binding of the environment bears what it bore where nothing about it has changed. -/
theorem Sound.bears_iff_of_same (hs : m.Sound) {b : BindingId} (hb : b ∈ m.env)
    (hname : (m'.heap.binding b).name = (m.heap.binding b).name)
    (hvalue : (m'.heap.binding b).value = (m.heap.binding b).value)
    (hholds : ∀ v k, m.heap.LiveRef v → (m'.heap.Holds v k ↔ m.heap.Holds v k))
    (htracked : m'.Tracked (.binding b) ↔ m.Tracked (.binding b)) {n : Node} :
    m'.Bears b n ↔ m.Bears b n := by
  unfold Bears
  rw [hname, hvalue, hholds _ n (hs.values b hb), hholds _ n (hs.names b hb), htracked]

theorem Evolves.bears_iff (he : m.Evolves m') (hs : m.Sound) {b : BindingId} (hb : b ∈ m.env)
    (hvalue : (m'.heap.binding b).value = (m.heap.binding b).value) {n : Node} :
    m'.Bears b n ↔ m.Bears b n := by
  refine hs.bears_iff_of_same hb (he.fixed b (hs.env_has hb)).1 hvalue
    (fun _ _ hv => he.holds_iff hs hv) ⟨fun ht => ?_, he.tracked _⟩
  exact Classical.byContradiction fun hnot => he.lasting b ⟨hb, hnot⟩ ht

theorem Calls.bears_iff (hc : m.Calls m') (hs : m.Sound) {b : BindingId} (hb : b ∈ m.env)
    {n : Node} : m'.Bears b n ↔ m.Bears b n := by
  have hsame := hc.grown.binding b (hs.env_has hb)
  refine hs.bears_iff_of_same hb (by rw [hsame]) (by rw [hsame])
    (fun v k hv => hc.grown.holds_iff fun l hl => (hv l hl).1) ⟨fun ht => ?_, hc.tracked _⟩
  exact (hc.registered _ ht).resolve_right fun hm => hm.2 (hs.env_has hb)

namespace Accounts

theorem refl (lost : Node → Prop) (m : Machine) : m.Accounts lost m :=
  ⟨fun _ _ _ hn => Or.inl hn, fun _ hn => absurd hn.1 hn.2⟩

theorem mono {lost' : Node → Prop} (ha : m.Accounts lost m') (hl : ∀ n, lost n → lost' n) :
    m.Accounts lost' m' :=
  ⟨ha.kept, fun n hn => (ha.made n hn).imp_right fun h => h.imp_right (hl n)⟩

theorem trans (he : m.Evolves m') (he' : m'.Evolves m'') (ha : m.Accounts lost m')
    (ha' : m'.Accounts lost m'') : m.Accounts lost m'' := by
  constructor
  · intro b hb n hn
    rcases ha.kept b hb n hn with hn | ht
    · exact ha'.kept b (he.mem_env hb) n hn
    · exact Or.inr (he'.tracked n ht)
  · intro n hn
    by_cases hn' : m'.heap.Has n
    · rcases ha.made n ⟨hn', hn.2⟩ with ht | ⟨b, hb, hbn⟩ | hl
      · exact Or.inl (he'.tracked n ht)
      · rcases ha'.kept b hb n hbn with hbn | ht
        · exact Or.inr (Or.inl ⟨b, he'.mem_env hb, hbn⟩)
        · exact Or.inl ht
      · exact Or.inr (Or.inr hl)
    · exact ha'.made n ⟨hn.1, hn'⟩

/-- Building accounts for everything when all of it is registered. -/
theorem of_registered (hs : m.Sound) (he : m.Evolves m')
    (hvalue : ∀ b ∈ m.env, (m'.heap.binding b).value = (m.heap.binding b).value)
    (hall : ∀ n, m.heap.Made m'.heap n → m'.Tracked n) : m.Accounts lost m' :=
  ⟨fun b hb _ hn => Or.inl ((he.bears_iff hs hb (hvalue b hb)).mpr hn),
    fun n hn => Or.inl (hall n hn)⟩

/--
Overwriting a binding with what was made for it accounts for everything, when the value that is
taken away is registered.
-/
theorem of_overwritten (hs : m.Sound) (hs' : m'.Sound) (he : m.Evolves m') {h : Heap} {v : Ref}
    {b : BindingId} (hc : m.heap.Covers h (Node.ofRef v)) (hb : b ∈ m.env)
    (hheap : m'.heap = h.overwritten b v)
    (hold : ∀ n ∈ m'.heap.nodes (m.heap.binding b).value, m'.Tracked n) : m.Accounts lost m' := by
  have hb' : b ∈ m'.env := he.mem_env hb
  constructor
  · intro b' hb' n hn
    by_cases hne : b = b'
    · subst hne
      rcases hn with rfl | hn | ⟨hnot, hn⟩
      · exact Or.inl (Or.inl rfl)
      · exact Or.inr (hold n (hs'.bounded.mem_nodes ((he.holds_iff hs (hs.values b hb)).mpr hn)
          (he.has (hs.values b hb n hn).1)))
      · refine Or.inl (Or.inr (Or.inr ⟨he.lasting b ⟨hb, hnot⟩, ?_⟩))
        rw [(he.fixed b (hs.env_has hb)).1]
        exact (he.holds_iff hs (hs.names b hb)).mpr hn
    · refine Or.inl ((he.bears_iff hs hb' ?_).mpr hn)
      rw [hheap, Heap.overwritten_ne hne, hc.grown.binding b' (hs.env_has hb')]
  · intro n hn
    have hhas : h.Has n := Heap.overwritten_has.mp (hheap ▸ hn.1)
    -- the new value does not come to the binding, so it holds what it held when it was made
    have hsame : h.Holds v n ↔ m'.heap.Holds v n := Heap.holds_congr fun l hl => by
      have hne : l ≠ .binding b := by
        rintro rfl
        exact hs'.not_holds hb' hl
      rw [hheap]
      exact (Heap.overwritten_agreeAt hne).symm
    refine Or.inr (Or.inl ⟨b, hb', Or.inr (Or.inl ?_)⟩)
    rw [show (m'.heap.binding b).value = v by
      rw [hheap, Heap.overwritten_self (hc.grown.has (hs.env_has hb))]]
    exact hsame.mp (Heap.holds_iff.mpr (hc.reached n ⟨hhas, hn.2⟩))

/-- A new binding accounts for the name and the value that were made for it. -/
theorem of_put (hs : m.Sound) (he : m.Evolves m') {h : Heap} {name value : Ref}
    (hc : m.heap.Covers h (Node.ofRef name ++ Node.ofRef value))
    (hheap : m'.heap = (h.put name value m.scope).2)
    (hscope : m'.scope = (h.put name value m.scope).1) : m.Accounts lost m' := by
  have hput := Heap.extends_put h name value m.scope
  have hgrown := hc.grown.trans hput
  have hnew : ⟨h.bindings.size⟩ ∈ m'.env := by
    unfold env
    rw [hheap, hscope, (Heap.linked_put name value (hc.grown.linked hs.linked)).chain_eq]
    exact List.mem_cons_self
  have hlast : ¬m'.Tracked (.binding ⟨h.bindings.size⟩) := by
    obtain ⟨news, henv, hnews⟩ := he.grown
    rw [henv] at hnew
    rcases List.mem_append.mp hnew with hmem | hmem
    · exact (hnews _ hmem).2
    · exact absurd (hc.grown.has (hs.env_has hmem)) (Nat.lt_irrefl _)
  have hbinding : m'.heap.binding ⟨h.bindings.size⟩ = ⟨name, value, m.scope, false⟩ := by
    rw [hheap, Heap.binding_put]
  constructor
  · intro b hb n hn
    refine Or.inl ((he.bears_iff hs hb ?_).mpr hn)
    rw [hheap, hgrown.binding b (hs.env_has hb)]
  · intro n hn
    refine Or.inr (Or.inl ⟨_, hnew, ?_⟩)
    unfold Bears
    rw [hbinding]
    by_cases hhas : h.Has n
    · obtain ⟨p, hp, hpn⟩ := hc.reached n ⟨hhas, hn.2⟩
      have hreach : m'.heap.Reaches p n := by
        rw [hheap]
        exact hput.reaches hpn
      rcases List.mem_append.mp hp with hp | hp
      · exact Or.inr (Or.inr ⟨hlast, Heap.holds_iff.mpr ⟨p, hp, hreach⟩⟩)
      · exact Or.inr (Or.inl (Heap.holds_iff.mpr ⟨p, hp, hreach⟩))
    · exact Or.inl (Heap.made_put.mp ⟨hheap ▸ hn.1, hhas⟩)

/-- **A call loses** what was made for it and not registered, and what its own bindings bear. -/
theorem of_call (hs : m.Sound) (hc : m.Calls m') (he : m'.Evolves m'')
    (ha : m'.Accounts lost m'')
    (hmade : ∀ n, m.heap.Made m'.heap n → ¬m'.Tracked n → lost n)
    (hown : ∀ b ∈ m''.env, b ∉ m.env → ∀ n, m''.Bears b n → ¬m''.Tracked n → lost n) :
    m.Accounts lost { m'' with scope := m.scope } := by
  have henv : Machine.env { m'' with scope := m.scope } = m.env := (hc.linked hs he).chain_eq
  constructor
  · intro b hb n hn
    exact ha.kept b (hc.mem_env hb) n ((hc.bears_iff hs hb).mpr hn)
  · intro n hn
    rw [henv]
    by_cases ht : m''.Tracked n
    · exact Or.inl ht
    · right
      by_cases hn' : m'.heap.Has n
      · exact Or.inr (hmade n ⟨hn', hn.2⟩ fun ht' => ht (he.tracked n ht'))
      · rcases ha.made n ⟨hn.1, hn'⟩ with ht' | ⟨b, hb, hbn⟩ | hl
        · exact absurd ht' ht
        · -- whether the binding is one of the caller or goes with the call
          by_cases hcaller : b ∈ m.env
          · exact Or.inl ⟨b, hcaller, hbn⟩
          · exact Or.inr (hown b hb hcaller n hbn ht)
        · exact Or.inr hl

end Accounts

end ArenaLisp.Machine
