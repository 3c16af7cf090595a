import ArenaLisp.Proofs.Making

/-!
# Nothing is made besides what is returned

An operation that makes something larger than a cell returns one reference, and the
arena is handed that reference alone: it registers what a walk from it comes to. That
this is everything the operation made rests on two facts.

The first is about the operations. `Covers` says that whatever was made is reached
from what was returned; copying, capturing, listing and supplying leave nothing aside.

The second is about walks. A walk stops at a depth, that of as many steps as there are
nodes. While a walk that goes one step deeper comes to something new, it has come to as
many nodes as it has made steps, so at that depth there is nothing new left
(`Bounded.mem_nodes`). No assumption on the shape of the heap is needed for it.
-/

namespace ArenaLisp.Heap

/-! ## Walks that are deep enough -/

/-- Different nodes of a heap are no more than it has. -/
theorem length_le_depth {h : Heap} {l : List Node} (hd : l.Nodup) (hl : ∀ n ∈ l, h.Has n) :
    l.length ≤ h.depth := by
  have hsub : List.Subperm l ((List.range h.cells.size).map (fun i => .value ⟨i⟩) ++
      (List.range h.bindings.size).map fun i => .binding ⟨i⟩) := by
    refine hd.subperm fun n hn => ?_
    have hhas := hl n hn
    cases n with
    | value a =>
        exact List.mem_append_left _ (List.mem_map.mpr ⟨a.index, List.mem_range.mpr hhas, rfl⟩)
    | binding b =>
        exact List.mem_append_right _ (List.mem_map.mpr ⟨b.index, List.mem_range.mpr hhas, rfl⟩)
  simpa [depth] using hsub.length_le

/-- One step deeper, a walk comes to the parts of what it came to. -/
theorem mem_walk_part {h : Heap} {n : Nat} {p q k : Node} (hq : q ∈ h.walk n p)
    (hk : k ∈ h.parts q) : k ∈ h.walk (n + 1) p := by
  induction n generalizing p with
  | zero => cases hq
  | succ n ih =>
      rcases List.mem_cons.mp hq with rfl | hq
      · exact List.mem_cons_of_mem _ (List.mem_flatMap.mpr ⟨k, hk, List.mem_cons_self⟩)
      · obtain ⟨r, hr, hrq⟩ := List.mem_flatMap.mp hq
        exact List.mem_cons_of_mem _ (List.mem_flatMap.mpr ⟨r, hr, ih hrq⟩)

/-- A walk that comes to nothing new when it goes one step deeper has come to everything. -/
theorem within_of_saturated {h : Heap} {n : Nat} {p : Node}
    (hn : ∀ k ∈ h.walk (n + 1) p, k ∈ h.walk n p) : h.Within n p := by
  intro k hk
  refine Reaches.mem_of_closed (S := (· ∈ h.walk n p)) ?_ (hn p List.mem_cons_self) hk
  intro q hq r hr
  exact hn r (mem_walk_part hq hr)

/-- Before it has come to everything, a walk comes to a new node at every step. -/
theorem within_or_grows (h : Heap) (p : Node) (n : Nat) :
    h.Within n p ∨ ∃ l : List Node, l.Nodup ∧ l.length = n ∧ ∀ k ∈ l, k ∈ h.walk n p := by
  induction n with
  | zero => exact Or.inr ⟨[], List.nodup_nil, rfl, fun _ hk => absurd hk List.not_mem_nil⟩
  | succ n ih =>
      rcases ih with hall | ⟨l, hd, hlen, hl⟩
      · exact Or.inl fun k hk => walk_mono (Nat.le_succ n) (hall k hk)
      · by_cases hsat : ∀ k ∈ h.walk (n + 1) p, k ∈ h.walk n p
        · exact Or.inl fun k hk => walk_mono (Nat.le_succ n) (within_of_saturated hsat k hk)
        · push Not at hsat
          obtain ⟨k, hk, hnew⟩ := hsat
          refine Or.inr ⟨k :: l, List.nodup_cons.mpr ⟨fun hkl => hnew (hl k hkl), hd⟩, by simp [hlen],
            fun q hq => ?_⟩
          rcases List.mem_cons.mp hq with rfl | hq
          · exact hk
          · exact walk_mono (Nat.le_succ n) (hl q hq)

theorem Bounded.within {h : Heap} (hb : h.Bounded) {p : Node} (hp : h.Has p) :
    h.Within h.depth p := by
  rcases within_or_grows h p h.depth with hall | ⟨l, hd, hlen, hl⟩
  · exact hall
  · have hhas : ∀ k ∈ l, h.Has k := fun k hk => hb.reaches_has hp (reaches_of_mem_walk (hl k hk))
    intro k hk
    -- a node that the walk did not come to would be one more than the heap has
    by_cases hkl : k ∈ l
    · exact hl k hkl
    · have hlt := length_le_depth (h := h) (List.nodup_cons.mpr ⟨hkl, hd⟩) fun q hq => by
        rcases List.mem_cons.mp hq with rfl | hq
        · exact hb.reaches_has hp hk
        · exact hhas q hq
      simp only [List.length_cons, hlen] at hlt
      omega

/-- A node that reaches one of the heap is of the heap. -/
theorem Reaches.has {h : Heap} {n k : Node} (hr : h.Reaches n k) (hk : h.Has k) : h.Has n := by
  rcases reaches_iff.mp hr with rfl | ⟨p, hp, _⟩
  · exact hk
  · exact has_of_mem_parts hp

/-- **The walk from a value lists all that the value holds.** -/
theorem Bounded.mem_nodes {h : Heap} (hb : h.Bounded) {v : Ref} {k : Node} (hk : h.Holds v k)
    (hhas : h.Has k) : k ∈ h.nodes v := by
  rw [nodes, (nodesTo_eq_walk h h.depth).1]
  obtain ⟨p, hp, hpk⟩ := holds_iff.mp hk
  exact List.mem_flatMap.mpr ⟨p, hp, hb.within (hpk.has hhas) k hpk⟩

/-! ## Covering -/

/-- What was reached is reached when the heap has grown. -/
theorem Extends.reaches {h h' : Heap} (he : h.Extends h') {n k : Node} (hk : h.Reaches n k) :
    h'.Reaches n k := by
  induction hk with
  | refl => exact Reaches.refl n
  | @tail l p _ hp ih =>
      rw [← (he.agreeAt (has_of_mem_parts hp)).parts_eq] at hp
      exact ih.trans (Reaches.of_part hp)

/-- Whether all that is new in a grown heap is reached from some nodes. -/
structure Covers (h h' : Heap) (ns : List Node) : Prop where
  grown : h.Extends h'
  reached : ∀ n, h.Made h' n → ∃ p ∈ ns, h'.Reaches p n

namespace Covers

theorem refl (h : Heap) (ns : List Node) : h.Covers h ns :=
  ⟨.refl h, fun _ hn => absurd hn.1 hn.2⟩

theorem weaken {h h' : Heap} {ns ns' : List Node} (hc : h.Covers h' ns)
    (hs : ∀ n ∈ ns, n ∈ ns') : h.Covers h' ns' where
  grown := hc.grown
  reached n hn := by
    obtain ⟨p, hp, hpn⟩ := hc.reached n hn
    exact ⟨p, hs p hp, hpn⟩

theorem append {h h' h'' : Heap} {ns ns' : List Node} (hc : h.Covers h' ns)
    (hc' : h'.Covers h'' ns') : h.Covers h'' (ns ++ ns') where
  grown := hc.grown.trans hc'.grown
  reached n hn := by
    by_cases hn' : h'.Has n
    · obtain ⟨p, hp, hpn⟩ := hc.reached n ⟨hn', hn.2⟩
      exact ⟨p, List.mem_append_left _ hp, hc'.grown.reaches hpn⟩
    · obtain ⟨p, hp, hpn⟩ := hc'.reached n ⟨hn.1, hn'⟩
      exact ⟨p, List.mem_append_right _ hp, hpn⟩

/-- Growth by one node that refers to what covered the growth before it. -/
theorem step {h h' h'' : Heap} {ns ns' : List Node} {p : Node} (hc : h.Covers h' (ns ++ ns'))
    (he : h'.Extends h'') (hmade : ∀ n, h'.Made h'' n → n = p) (hp : ∀ k ∈ ns, k ∈ h''.parts p) :
    h.Covers h'' (p :: ns') where
  grown := hc.grown.trans he
  reached n hn := by
    by_cases hn' : h'.Has n
    · obtain ⟨q, hq, hqn⟩ := hc.reached n ⟨hn', hn.2⟩
      rcases List.mem_append.mp hq with hq | hq
      · exact ⟨p, List.mem_cons_self, (Reaches.of_part (hp q hq)).trans (he.reaches hqn)⟩
      · exact ⟨q, List.mem_cons_of_mem _ hq, he.reaches hqn⟩
    · rw [hmade n ⟨hn.1, hn'⟩]
      exact ⟨p, List.mem_cons_self, Reaches.refl p⟩

/-- A new cell covers what it refers to; what it does not refer to is covered as it was. -/
theorem newBeside {h h' : Heap} {ns ns' : List Node} {d : Datum} (hc : h.Covers h' (ns ++ ns'))
    (hd : ∀ k ∈ ns, k ∈ d.parts) : h.Covers (h'.new d).2 (Node.ofRef (h'.new d).1 ++ ns') := by
  refine hc.step (extends_new h' d) (fun n hn => made_new.mp hn) fun k hk => ?_
  rw [parts, cell_new]
  exact hd k hk

theorem new {h h' : Heap} {ns : List Node} {d : Datum} (hc : h.Covers h' ns)
    (hd : ∀ k ∈ ns, k ∈ d.parts) : h.Covers (h'.new d).2 (Node.ofRef (h'.new d).1) := by
  rw [← List.append_nil ns] at hc
  simpa using hc.newBeside hd

theorem put {h h' : Heap} {ns : List Node} (hc : h.Covers h' ns) (name value : Ref) (next : Chain)
    (hp : ∀ k ∈ ns, k ∈ (⟨name, value, next, false⟩ : Binding).parts) :
    h.Covers (h'.put name value next).2 (Node.ofChain (h'.put name value next).1) := by
  rw [← List.append_nil ns] at hc
  refine hc.step (extends_put h' name value next) (fun n hn => made_put.mp hn) fun k hk => ?_
  rw [parts, binding_put]
  exact hp k hk

/-- Everything made is in the walk from what covers it. -/
theorem mem_nodes {h h' : Heap} {v : Ref} (hc : h.Covers h' (Node.ofRef v)) (hb : h'.Bounded)
    {n : Node} (hn : h.Made h' n) : n ∈ h'.nodes v :=
  hb.mem_nodes (holds_iff.mpr (hc.reached n hn)) hn.1

end Covers

/-! ## The operations -/

theorem copyTo_covers (n : Nat) :
    (∀ (h : Heap) (v : Ref), h.Covers (copyTo n h v).2 (Node.ofRef (copyTo n h v).1)) ∧
    (∀ (h : Heap) (c : Chain),
      h.Covers (copyChainTo n h c).2 (Node.ofChain (copyChainTo n h c).1)) := by
  induction n with
  | zero =>
      constructor
      · intro h v
        cases v <;> exact .refl h _
      · intro h c
        cases c <;> exact .refl h _
  | succ n ih =>
      obtain ⟨ihv, ihc⟩ := ih
      constructor
      · intro h v
        cases v with
        | none => exact .refl h _
        | some a =>
            rw [copyTo]
            have hsimple : ∀ c, h.Covers (h.alloc c).2 (Node.ofRef (some (h.alloc c).1)) :=
              fun c => (Covers.refl h ([] ++ [])).step (extends_alloc h c)
                (fun k hk => made_alloc.mp hk) fun _ hk => absurd hk List.not_mem_nil
            cases hcell : h.cell a with
            | released husk => exact hsimple _
            | live d =>
                cases d with
                | pair car cdr =>
                    exact ((ihv h car).append (ihv _ cdr)).new fun k hk => hk
                | closure c =>
                    exact ((ihv h c.params).append ((ihv _ c.body).append (ihc _ c.captured))).new
                      fun k hk => hk
                | _ => exact hsimple _
      · intro h c
        cases c with
        | none => exact .refl h _
        | some b =>
            exact ((ihv h (h.binding b).name).append ((ihv _ (h.binding b).value).append
              (ihc _ (h.binding b).next))).put _ _ _ fun k hk => hk

theorem copy_covers (h : Heap) (v : Ref) : h.Covers (h.copy v).2 (Node.ofRef (h.copy v).1) :=
  (copyTo_covers h.depth).1 h v

theorem copyChain_covers (h : Heap) (c : Chain) :
    h.Covers (h.copyChain c).2 (Node.ofChain (h.copyChain c).1) :=
  (copyTo_covers h.depth).2 h c

theorem copyEach_covers (vs : List Ref) (h : Heap) :
    h.Covers (h.copyEach vs).2 ((h.copyEach vs).1.flatMap Node.ofRef) := by
  induction vs generalizing h with
  | nil => exact .refl h _
  | cons v vs ih => exact (copy_covers h v).append (ih _)

/-- The cells of a list cover its elements. -/
theorem list_covers {h₀ : Heap} (vs : List Ref) {h : Heap} {ns : List Node}
    (hc : h₀.Covers h (vs.flatMap Node.ofRef ++ ns)) :
    h₀.Covers (h.list vs).2 (Node.ofRef (h.list vs).1 ++ ns) := by
  induction vs generalizing ns with
  | nil => exact hc.newBeside (d := .nil) fun _ hk => absurd hk List.not_mem_nil
  | cons v vs ih =>
      have htail := @ih (Node.ofRef v ++ ns) (hc.weaken fun n hn => by
        simp only [List.flatMap_cons, List.mem_append] at hn ⊢
        tauto)
      rw [← List.append_assoc] at htail
      exact htail.newBeside fun k hk => by
        simp only [Datum.parts, List.mem_append] at hk ⊢
        tauto

theorem capture_covers {h₀ : Heap} (ambient : Chain) (names : List String) {h : Heap}
    {captured : Chain} (hc : h₀.Covers h (Node.ofChain captured)) :
    h₀.Covers (h.capture ambient names captured).2
      (Node.ofChain (h.capture ambient names captured).1) := by
  induction names generalizing h captured with
  | nil => exact hc
  | cons name names ih =>
      rw [capture]
      cases h.findBinding? ambient name with
      | none => exact ih hc
      | some b =>
          refine ih ((hc.append ((copy_covers h (h.binding b).name).append
            (copy_covers _ (h.binding b).value))).put _ _ captured fun k hk => ?_)
          simp only [Binding.parts, List.mem_append] at hk ⊢
          tauto

theorem newClosure_covers (h : Heap) (params body : Ref) (ambient : Chain) :
    h.Covers (h.newClosure params body ambient).2
      (Node.ofRef (h.newClosure params body ambient).1) := by
  have hcode := (copy_covers h params).append (copy_covers _ body)
  have hcaptured := capture_covers ambient
    (((h.copy params).2.copy body).2.freeNames (h.copy params).1 ((h.copy params).2.copy body).1)
    (Covers.refl ((h.copy params).2.copy body).2 (Node.ofChain none))
  refine (hcode.append hcaptured).new fun k hk => ?_
  rw [List.append_assoc] at hk
  exact hk

theorem supply_covers {h₀ : Heap} (pairs : List (Ref × Ref)) {h : Heap} {captured : Chain}
    (hc : h₀.Covers h (Node.ofChain captured)) :
    h₀.Covers (h.supply pairs captured).2 (Node.ofChain (h.supply pairs captured).1) := by
  induction pairs generalizing h captured with
  | nil => exact hc
  | cons p pairs ih =>
      refine ih ((hc.append (copy_covers h p.1)).put _ p.2 captured fun k hk => ?_)
      simp only [Binding.parts, List.mem_append] at hk ⊢
      tauto

theorem newPartial_covers (h : Heap) (c : Closure) (params values : List Ref) :
    h.Covers (h.newPartial c params values).2 (Node.ofRef (h.newPartial c params values).1) := by
  have hrest := copyEach_covers (params.drop values.length) h
  rw [← List.append_nil (List.flatMap _ _)] at hrest
  have hlist := list_covers _ hrest
  rw [List.append_nil] at hlist
  refine ((hlist.append (copy_covers _ c.body)).append
    (supply_covers (params.zip values) (copyChain_covers _ c.captured))).new fun k hk => ?_
  rw [List.append_assoc] at hk
  exact hk

/-- The expression of a turn is made of the cells it is reached through. -/
theorem store_covers : ∀ (t : Tree) (h : Heap), t.Plain →
    h.Covers (store t h).2 (Node.ofRef (store t h).1)
  | .atom name, h, _ => (Covers.refl h []).new (d := .atom name) fun k hk => hk
  | .number x, h, _ => (Covers.refl h []).new (d := .number x) fun k hk => hk
  | .pair car cdr, h, hp => by
      rw [store]
      rcases hp with ⟨rfl, rfl⟩ | ⟨hcar, hcdr⟩
      · exact (Covers.refl h []).new (d := .nil) fun k hk => hk
      · exact ((store_covers car h hcar).append (store_covers cdr _ hcdr)).new fun k hk => hk
  | .absent, _, hp => hp.elim
  | .released _, _, hp => hp.elim
  | .primitive _, _, hp => hp.elim
  | .closure _ _ _, _, hp => hp.elim
  | .unknown _, _, hp => hp.elim

end ArenaLisp.Heap
