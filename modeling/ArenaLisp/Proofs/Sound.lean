import ArenaLisp.Proofs.Entering

/-!
# Machines whose environment is sound

The arena asks no questions: at the end of a turn everything registered is released.
That this harms no variable rests on an invariant of the machine, and on it holding
at every moment of every evaluation.

A binding of the environment is *lasting* when it is not registered itself; the
bindings of a call are registered, so the lasting ones are those of the root, and those
that `set` puts in front. `Sound` says that the name and the value of a lasting binding
hold nothing that is registered, and nothing that the value of another binding of the
environment holds. The second half is what keeps the first: overwriting a binding
registers everything its old value held.

`Evolves` says what evaluation can have changed when it comes from one machine to
another. No value changes at all; of the bindings that were there only the values
change, and only of exposed ones; the environment grows at its front.
-/

namespace ArenaLisp.Machine

/-- The bindings of the environment, the front one first. -/
def env (m : Machine) : List BindingId := m.heap.chain m.scope

/-- Whether a node is registered in the arena. -/
def Tracked (m : Machine) (n : Node) : Prop := n ∈ m.arena.tracked

/-- Whether a binding is in the environment and is not released with the turn. -/
def Lasting (m : Machine) (b : BindingId) : Prop := b ∈ m.env ∧ ¬m.Tracked (.binding b)

/-- Whether everything that a value holds is registered. -/
def Handed (m : Machine) (v : Ref) : Prop := ∀ k, m.heap.Holds v k → m.Tracked k

structure Sound (m : Machine) : Prop where
  bounded : m.heap.Bounded
  linked : m.heap.Linked m.scope m.env
  /-- No value reaches a binding of the environment. -/
  sealed : m.heap.Sealed m.env
  tracked_has : ∀ n, m.Tracked n → m.heap.Has n
  unreleased : ∀ b ∈ m.env, (m.heap.binding b).released = false
  names : ∀ b ∈ m.env, m.heap.LiveRef (m.heap.binding b).name
  values : ∀ b ∈ m.env, m.heap.LiveRef (m.heap.binding b).value
  /-- What a lasting binding needs is not released with the turn. -/
  names_free : ∀ b, m.Lasting b → ∀ k, m.heap.Holds (m.heap.binding b).name k → ¬m.Tracked k
  values_free : ∀ b, m.Lasting b → ∀ k, m.heap.Holds (m.heap.binding b).value k → ¬m.Tracked k
  /-- What a lasting binding needs is no part of what another binds. -/
  names_apart : ∀ b, m.Lasting b → ∀ b' ∈ m.env, ∀ k,
    m.heap.Holds (m.heap.binding b).name k → ¬m.heap.Holds (m.heap.binding b').value k
  values_apart : ∀ b, m.Lasting b → ∀ b' ∈ m.env, b ≠ b' → ∀ k,
    m.heap.Holds (m.heap.binding b).value k → ¬m.heap.Holds (m.heap.binding b').value k

/-- The name that a binding of the environment is found by depends on no other binding. -/
theorem Sound.boundName?_congr {m : Machine} (hs : m.Sound) {h : Heap} {b : BindingId}
    (hb : b ∈ m.env) (hname : (h.binding b).name = (m.heap.binding b).name)
    (hcell : ∀ a, m.heap.Has (.value a) → h.cell a = m.heap.cell a) :
    h.boundName? b = m.heap.boundName? b := by
  rw [Heap.boundName?, Heap.boundName?, hname]
  cases hn : (m.heap.binding b).name with
  | none => rfl
  | some a =>
      have hlive := hs.names b hb
      rw [hn, Heap.liveRef_some] at hlive
      simp only [Heap.cell?, Option.map_some]
      rw [hcell a hlive.has]

/-- No value holds a binding of the environment. -/
theorem Sound.not_holds {m : Machine} (hs : m.Sound) {b : BindingId} (hb : b ∈ m.env) {v : Ref} :
    ¬m.heap.Holds v (.binding b) := by
  rintro ⟨a, -, hr⟩
  exact hs.sealed a b hb hr

structure Evolves (m m' : Machine) : Prop where
  cells_le : m.heap.cells.size ≤ m'.heap.cells.size
  bindings_le : m.heap.bindings.size ≤ m'.heap.bindings.size
  cell : ∀ a, m.heap.Has (.value a) → m'.heap.cell a = m.heap.cell a
  /-- Of a binding that was there only the value may change. -/
  fixed : ∀ b, m.heap.Has (.binding b) → (m'.heap.binding b).name = (m.heap.binding b).name ∧
    (m'.heap.binding b).next = (m.heap.binding b).next ∧
    (m'.heap.binding b).released = (m.heap.binding b).released
  /-- And it changes only of an exposed one. -/
  written : ∀ b, m.heap.Has (.binding b) →
    (m'.heap.binding b).value = (m.heap.binding b).value ∨ m.heap.Exposed m.scope b
  /-- The environment grows at its front, by bindings that last. -/
  grown : ∃ news, m'.env = news ++ m.env ∧
    ∀ b ∈ news, ¬m.heap.Has (.binding b) ∧ ¬m'.Tracked (.binding b)
  tracked : ∀ n, m.Tracked n → m'.Tracked n
  lasting : ∀ b, m.Lasting b → ¬m'.Tracked (.binding b)
  generation : m'.arena.generation = m.arena.generation

namespace Evolves

theorem refl (m : Machine) : m.Evolves m where
  cells_le := Nat.le_refl _
  bindings_le := Nat.le_refl _
  cell _ _ := rfl
  fixed _ _ := ⟨rfl, rfl, rfl⟩
  written _ _ := Or.inl rfl
  grown := ⟨[], rfl, fun _ hb => absurd hb List.not_mem_nil⟩
  tracked _ hn := hn
  lasting _ hb := hb.2
  generation := rfl

theorem has {m m' : Machine} (he : m.Evolves m') {n : Node} (hn : m.heap.Has n) :
    m'.heap.Has n := by
  cases n with
  | value a => exact Nat.lt_of_lt_of_le hn he.cells_le
  | binding b => exact Nat.lt_of_lt_of_le hn he.bindings_le

theorem mem_env {m m' : Machine} (he : m.Evolves m') {b : BindingId} (hb : b ∈ m.env) :
    b ∈ m'.env := by
  obtain ⟨news, henv, -⟩ := he.grown
  rw [henv]
  exact List.mem_append_right _ hb

/-- A binding that was in the environment and lasts has lasted. -/
theorem lasting_of {m m' : Machine} (he : m.Evolves m') {b : BindingId} (hb : b ∈ m.env)
    (hl : m'.Lasting b) : m.Lasting b :=
  ⟨hb, fun ht => hl.2 (he.tracked _ ht)⟩

/-- Only bindings of the environment change. -/
theorem agreeAt {m m' : Machine} (he : m.Evolves m') {n : Node} (hn : m.heap.Has n)
    (henv : ∀ b ∈ m.env, n ≠ .binding b) : m.heap.AgreeAt m'.heap n := by
  cases n with
  | value a => exact he.cell a hn
  | binding b =>
      obtain ⟨hname, hnext, hreleased⟩ := he.fixed b hn
      rcases he.written b hn with hvalue | hexposed
      · show m'.heap.binding b = m.heap.binding b
        cases hb : m.heap.binding b
        cases hb' : m'.heap.binding b
        simp_all
      · exact absurd rfl (henv b hexposed.mem)

/-- What a value holds is in the heap and is no binding of the environment. -/
theorem agree_of_holds {m m' : Machine} (he : m.Evolves m') (hs : m.Sound) {v : Ref}
    (hv : m.heap.LiveRef v) {k : Node} (hk : m.heap.Holds v k) : m.heap.AgreeAt m'.heap k := by
  refine he.agreeAt (hv k hk).1 fun b hb => ?_
  rintro rfl
  exact hs.not_holds hb hk

/-- **Evaluation changes no value.** -/
theorem holds_iff {m m' : Machine} (he : m.Evolves m') (hs : m.Sound) {v : Ref}
    (hv : m.heap.LiveRef v) {k : Node} : m'.heap.Holds v k ↔ m.heap.Holds v k :=
  Heap.holds_congr fun _ hl => he.agree_of_holds hs hv hl

theorem liveRef {m m' : Machine} (he : m.Evolves m') (hs : m.Sound) {v : Ref}
    (hv : m.heap.LiveRef v) : m'.heap.LiveRef v :=
  Heap.liveRef_congr hv (fun _ hk => he.agree_of_holds hs hv hk) fun _ hk => he.has hk

theorem handed {m m' : Machine} (he : m.Evolves m') (hs : m.Sound) {v : Ref}
    (hv : m.heap.LiveRef v) (hh : m.Handed v) : m'.Handed v :=
  fun k hk => he.tracked k (hh k ((he.holds_iff hs hv).mp hk))

/-- A binding of the environment keeps the name it is found by. -/
theorem boundName?_eq {m m' : Machine} (he : m.Evolves m') (hs : m.Sound) {b : BindingId}
    (hb : b ∈ m.env) : m'.heap.boundName? b = m.heap.boundName? b :=
  hs.boundName?_congr hb (he.fixed b (hs.linked.has hb)).1 he.cell

/-- A binding that was there and is exposed was exposed. -/
theorem exposed_of {m m' : Machine} (he : m.Evolves m') (hs : m.Sound) {b : BindingId}
    (hb : m.heap.Has (.binding b)) (hx : m'.heap.Exposed m'.scope b) :
    m.heap.Exposed m.scope b := by
  obtain ⟨news, henv, hnews⟩ := he.grown
  exact Heap.exposed_of_append rfl henv (fun hmem => (hnews b hmem).1 hb)
    (fun _ hb' => he.boundName?_eq hs hb') hx

theorem trans {m m' m'' : Machine} (hs : m.Sound) (he : m.Evolves m') (he' : m'.Evolves m'') :
    m.Evolves m'' where
  cells_le := Nat.le_trans he.cells_le he'.cells_le
  bindings_le := Nat.le_trans he.bindings_le he'.bindings_le
  cell a ha := (he'.cell a (he.has ha)).trans (he.cell a ha)
  fixed b hb := by
    obtain ⟨h₁, h₂, h₃⟩ := he.fixed b hb
    obtain ⟨h₁', h₂', h₃'⟩ := he'.fixed b (he.has hb)
    exact ⟨h₁'.trans h₁, h₂'.trans h₂, h₃'.trans h₃⟩
  written b hb := by
    rcases he'.written b (he.has hb) with hv | hx
    · rw [hv]
      exact he.written b hb
    · exact Or.inr (he.exposed_of hs hb hx)
  grown := by
    obtain ⟨news, henv, hnews⟩ := he.grown
    obtain ⟨news', henv', hnews'⟩ := he'.grown
    refine ⟨news' ++ news, by rw [henv', henv, List.append_assoc], fun b hb => ?_⟩
    rcases List.mem_append.mp hb with hb | hb
    · exact ⟨fun h₀ => (hnews' b hb).1 (he.has h₀), (hnews' b hb).2⟩
    · refine ⟨(hnews b hb).1, he'.lasting b ⟨?_, (hnews b hb).2⟩⟩
      rw [henv]
      exact List.mem_append_left _ hb
  tracked n hn := he'.tracked n (he.tracked n hn)
  lasting b hb := he'.lasting b ⟨he.mem_env hb.1, he.lasting b hb⟩
  generation := he'.generation.trans he.generation

end Evolves

end ArenaLisp.Machine
