import ArenaLisp.Audit
import ArenaLisp.Interpreter
import ArenaLisp.Proofs.Evaluation

/-!
# Releasing

Between two turns no binding of the root environment is registered: the machine is
*rooted*. Then nothing that the root environment reaches is registered either, so
releasing everything that is leaves the machine sound. Evaluation keeps a machine
rooted, since what it puts in front of the environment lasts.
-/

namespace ArenaLisp

namespace Heap

/-- A heap that mirrors another mirrors it still when more of the other is released. -/
theorem Clears.mirrors {S : Node → Prop} {h h' h₂ : Heap} (hc : Clears S h h') (hm : h.Mirrors h₂) :
    h'.Mirrors h₂ where
  cells_eq := hm.cells_eq.trans hc.cells_eq.symm
  bindings_eq := hm.bindings_eq.trans hc.bindings_eq.symm
  agree n hn := by
    rcases hc.cleared n with ha | ⟨hr, _⟩
    · exact ha.symm.trans (hm.agree n fun hr => hn (ha.released_iff.mpr hr))
    · exact absurd hr hn

theorem clears_releaseEach {S : Node → Prop} {ns : List Node} (hns : ∀ n ∈ ns, S n) (h : Heap) :
    Clears S h (ns.foldl release h) := by
  induction ns generalizing h with
  | nil => exact .refl S h
  | cons n ns ih =>
      obtain ⟨hn, hns⟩ := List.forall_mem_cons.mp hns
      exact (clears_release hn h).trans (ih hns _)

theorem releaseAll_eq_foldl (m : Arena) (h : Heap) :
    (m.releaseAll h).2 = m.tracked.toList.foldl release h := by
  rw [Array.foldl_toList]
  rfl

/-- Releasing everything registered clears what is registered. -/
theorem clears_releaseAll (m : Arena) (h : Heap) :
    Clears (· ∈ m.tracked) h (m.releaseAll h).2 := by
  rw [releaseAll_eq_foldl]
  exact clears_releaseEach (fun n hn => Array.mem_toList_iff.mp hn) h

/-- What is released once stays so. -/
theorem Clears.released {S : Node → Prop} {h h' : Heap} (hc : Clears S h h') {n : Node}
    (hn : h.Released n) : h'.Released n := by
  rcases hc.cleared n with ha | ⟨hr, _⟩
  · exact ha.released_iff.mpr hn
  · exact hr

theorem released_release {h : Heap} {n : Node} (hn : h.Has n) : (h.release n).Released n := by
  cases n with
  | value a =>
      have hlt : a.index < h.cells.size := hn
      simp [Released, release, cell, Array.getElem?_modify, Array.getElem?_eq_getElem hlt,
        Cell.isReleased]
  | binding b =>
      rw [Released, show (h.release (.binding b)).binding b = .husk from
        binding_modifyBinding_self hn]
      rfl

theorem released_releaseEach {ns : List Node} {n : Node} (hn : n ∈ ns) {h : Heap} (hhas : h.Has n) :
    (ns.foldl release h).Released n := by
  induction ns generalizing h with
  | nil => exact absurd hn List.not_mem_nil
  | cons k ns ih =>
      rcases List.mem_cons.mp hn with rfl | hn
      · have hrest := clears_releaseEach (S := (· ∈ ns)) (fun _ hn => hn)
        exact (hrest (h.release n)).released (released_release hhas)
      · exact ih hn ((clears_release (S := fun _ => True) trivial h).has_iff.mpr hhas)

/-- **Everything that is registered is released.** -/
theorem released_releaseAll {m : Arena} {h : Heap} {n : Node} (hn : n ∈ m.tracked)
    (hhas : h.Has n) : (m.releaseAll h).2.Released n := by
  rw [releaseAll_eq_foldl]
  exact released_releaseEach (Array.mem_toList_iff.mpr hn) hhas

/-! ## The audit -/

/-- To any depth, the audit finds nothing where the walk comes to nothing that is released. -/
theorem auditTo_eq_nil_iff (h : Heap) (d : Nat) :
    (∀ path v, auditTo d h path v = [] ↔ ∀ k ∈ nodesTo d h v, ¬h.Released k) ∧
    ∀ path position c,
      auditChainTo d h path position c = [] ↔ ∀ k ∈ chainNodesTo d h c, ¬h.Released k := by
  induction d with
  | zero =>
      constructor
      · rintro path (_ | a) <;> simp [auditTo, nodesTo]
      · rintro path position (_ | b) <;> simp [auditChainTo, chainNodesTo]
  | succ d ih =>
      obtain ⟨ihv, ihc⟩ := ih
      constructor
      · rintro path (_ | a)
        · simp [auditTo, nodesTo]
        · rw [auditTo, nodesTo, List.forall_mem_cons, Released]
          cases h.cell a with
          | released husk => simp [Cell.isReleased]
          | live datum =>
              cases datum <;> simp [Cell.isReleased, ihv, ihc, or_imp, forall_and]
      · rintro path position (_ | b)
        · simp [auditChainTo, chainNodesTo]
        · rw [auditChainTo, chainNodesTo, List.forall_mem_cons, Released]
          cases (h.binding b).released with
          | true => simp
          | false => simp [ihv, ihc, or_imp, forall_and]

/-- The audit finds nothing in what is live. -/
theorem audit_of_live {h : Heap} {c : Chain} (hc : h.LiveChain c) : h.audit c = [] := by
  rw [audit, (auditTo_eq_nil_iff h h.depth).2, (nodesTo_eq_walk h h.depth).2]
  intro k hk
  obtain ⟨n, hn, hwalk⟩ := List.mem_flatMap.mp hk
  exact (hc n hn k (reaches_of_mem_walk hwalk)).2

end Heap

namespace Machine

/-! ## Rooted machines -/

/-- What the environment of a sound machine reaches is live. -/
theorem Sound.liveChain {m : Machine} (hs : m.Sound) : m.heap.LiveChain m.scope := by
  have hall : ∀ (bs : List BindingId) (c : Chain), m.heap.Linked c bs → (∀ b ∈ bs, b ∈ m.env) →
      m.heap.LiveChain c := by
    intro bs
    induction bs with
    | nil =>
        rintro c rfl _ n hn
        simp at hn
    | cons b bs ih =>
        rintro c ⟨rfl, hhas, hrest⟩ hmem n hn
        obtain ⟨_, hb, rfl⟩ := Node.mem_ofChain.mp hn
        cases hb
        have hb := hmem b List.mem_cons_self
        have hnext := ih _ hrest fun b' hb' => hmem b' (List.mem_cons_of_mem _ hb')
        refine Heap.Live.of_parts hhas (by simp [Heap.Released, hs.unreleased b hb]) fun k hk => ?_
        simp only [Heap.parts, Binding.parts, List.mem_append] at hk
        rcases hk with hk | hk | hk
        · exact Heap.liveRef_iff.mp (hs.names b hb) k hk
        · exact Heap.liveRef_iff.mp (hs.values b hb) k hk
        · exact hnext k hk
  exact hall m.env m.scope hs.linked fun _ hb => hb

/-- A sound machine with an environment that lasts. -/
structure Rooted (m : Machine) : Prop where
  sound : m.Sound
  lasting : ∀ b ∈ m.env, ¬m.Tracked (.binding b)

/-- Evaluation keeps a machine rooted. -/
theorem Rooted.evolves {m m' : Machine} (hr : m.Rooted) (he : m.Evolves m') (hs : m'.Sound) :
    m'.Rooted := by
  refine ⟨hs, fun b hb => ?_⟩
  obtain ⟨news, henv, hnews⟩ := he.grown
  rw [henv] at hb
  rcases List.mem_append.mp hb with hb | hb
  · exact (hnews b hb).2
  · exact he.lasting b ⟨hb, hr.lasting b hb⟩

/-- Soundness does not depend on the log. -/
theorem Rooted.withLog {m : Machine} (hr : m.Rooted) (log : Array LogRecord) :
    Rooted { m with log := log } :=
  ⟨⟨hr.sound.bounded, hr.sound.linked, hr.sound.sealed, hr.sound.tracked_has, hr.sound.unreleased,
    hr.sound.names, hr.sound.values, hr.sound.names_free, hr.sound.values_free,
    hr.sound.names_apart, hr.sound.values_apart⟩, hr.lasting⟩

section

variable {m : Machine} {b : BindingId}

/-- Releasing leaves a lasting environment alone: its bindings, -/
theorem Rooted.releaseAll_binding (hr : m.Rooted) (hb : b ∈ m.env) :
    m.releaseAll.2.heap.binding b = m.heap.binding b :=
  (Heap.clears_releaseAll m.arena m.heap).kept (.binding b) (hr.lasting b hb)

/-- their order, -/
theorem Rooted.releaseAll_linked (hr : m.Rooted) : m.releaseAll.2.heap.Linked m.scope m.env :=
  hr.sound.linked.congr fun b hb => by
    refine ⟨?_, by rw [hr.releaseAll_binding hb]⟩
    exact (Heap.clears_releaseAll m.arena m.heap).has_iff.mpr (hr.sound.env_has hb)

theorem Rooted.releaseAll_env (hr : m.Rooted) : m.releaseAll.2.env = m.env :=
  hr.releaseAll_linked.chain_eq

/-- and all that their names and values hold. -/
theorem Rooted.releaseAll_agreeAt (hr : m.Rooted) (hb : b ∈ m.env) {v : Ref}
    (hv : v = (m.heap.binding b).name ∨ v = (m.heap.binding b).value) {k : Node}
    (hk : m.heap.Holds v k) : m.heap.AgreeAt m.releaseAll.2.heap k := by
  have hlasting : m.Lasting b := ⟨hb, hr.lasting b hb⟩
  refine (Heap.clears_releaseAll m.arena m.heap).kept k ?_
  rcases hv with rfl | rfl
  · exact hr.sound.names_free b hlasting k hk
  · exact hr.sound.values_free b hlasting k hk

theorem Rooted.releaseAll_name (hr : m.Rooted) (hb : b ∈ m.env) {k : Node} :
    m.releaseAll.2.heap.Holds (m.heap.binding b).name k ↔
      m.heap.Holds (m.heap.binding b).name k :=
  Heap.holds_congr fun _ hk => hr.releaseAll_agreeAt hb (Or.inl rfl) hk

theorem Rooted.releaseAll_value (hr : m.Rooted) (hb : b ∈ m.env) {k : Node} :
    m.releaseAll.2.heap.Holds (m.heap.binding b).value k ↔
      m.heap.Holds (m.heap.binding b).value k :=
  Heap.holds_congr fun _ hk => hr.releaseAll_agreeAt hb (Or.inr rfl) hk

theorem releaseAll_tracked (m : Machine) (n : Node) : ¬m.releaseAll.2.Tracked n := by
  simp [Tracked, Machine.releaseAll, Arena.releaseAll]

/-- **Releasing everything registered keeps a rooted machine rooted.** -/
theorem Rooted.releaseAll (hr : m.Rooted) : m.releaseAll.2.Rooted := by
  have hs := hr.sound
  have hc := Heap.clears_releaseAll m.arena m.heap
  have hlasting : ∀ b, m.releaseAll.2.Lasting b → m.Lasting b := fun b hb => by
    have hmem := hr.releaseAll_env ▸ hb.1
    exact ⟨hmem, hr.lasting b hmem⟩
  refine ⟨⟨?_, ?_, ?_, ?_, ?_, ?_, ?_, ?_, ?_, ?_, ?_⟩, fun b _ => m.releaseAll_tracked _⟩
  · exact fun n k hk => hc.has_iff.mpr (hs.bounded n k (hc.mem_parts hk))
  · rw [hr.releaseAll_env]
    exact hr.releaseAll_linked
  · rw [hr.releaseAll_env]
    exact fun a b hb hreach => hs.sealed a b hb (hc.reaches hreach)
  · exact fun n hn => absurd hn (m.releaseAll_tracked n)
  · rw [hr.releaseAll_env]
    intro b hb
    rw [hr.releaseAll_binding hb]
    exact hs.unreleased b hb
  · rw [hr.releaseAll_env]
    intro b hb
    rw [hr.releaseAll_binding hb]
    exact Heap.liveRef_congr (hs.names b hb)
      (fun _ hk => hr.releaseAll_agreeAt hb (Or.inl rfl) hk) fun _ => hc.has_iff.mpr
  · rw [hr.releaseAll_env]
    intro b hb
    rw [hr.releaseAll_binding hb]
    exact Heap.liveRef_congr (hs.values b hb)
      (fun _ hk => hr.releaseAll_agreeAt hb (Or.inr rfl) hk) fun _ => hc.has_iff.mpr
  · exact fun b _ k _ => m.releaseAll_tracked k
  · exact fun b _ k _ => m.releaseAll_tracked k
  · intro b hb b' hb' k hk hk'
    have hb := hlasting b hb
    rw [hr.releaseAll_env] at hb'
    rw [hr.releaseAll_binding hb.1, hr.releaseAll_name hb.1] at hk
    rw [hr.releaseAll_binding hb', hr.releaseAll_value hb'] at hk'
    exact hs.names_apart b hb b' hb' k hk hk'
  · intro b hb b' hb' hne k hk hk'
    have hb := hlasting b hb
    rw [hr.releaseAll_env] at hb'
    rw [hr.releaseAll_binding hb.1, hr.releaseAll_value hb.1] at hk
    rw [hr.releaseAll_binding hb', hr.releaseAll_value hb'] at hk'
    exact hs.values_apart b hb b' hb' hne k hk hk'

end

end Machine

end ArenaLisp
