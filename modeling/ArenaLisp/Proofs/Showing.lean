import ArenaLisp.Audit
import ArenaLisp.Proofs.Duplication
import ArenaLisp.Proofs.Release
import ArenaLisp.Proofs.RoundTrip
import ArenaLisp.Proofs.Trails
import ArenaLisp.Proofs.Walks

/-!
# Where released nodes show

Two walks are there to make it seen that something released is still referred to. The audit goes
along every reference from an environment. It stops at the first released node of a path, and
nothing is missed by that: it finds nothing if and only if nothing released is reached.

The printer goes along the references that are written out, which are those of pairs and the
parameters and bodies of closures. It marks every released value that it comes to except one kind:
a pair that stands where a list goes on is taken for the empty list that ends it, released or not.
-/

namespace ArenaLisp

namespace Heap

theorem Released.has {h : Heap} {n : Node} (hn : h.Released n) : h.Has n := by
  by_contra hnot
  cases n with
  | value a =>
      rw [Released, cell_of_not_has hnot] at hn
      exact Bool.noConfusion hn
  | binding b =>
      rw [Released, binding_of_not_has hnot] at hn
      exact Bool.noConfusion hn

/-! ## The audit -/

/--
**The audit of an environment without cycles finds nothing if and only if nothing released is
reached from it**, at any nesting.
-/
theorem audit_eq_nil_iff {h : Heap} {c : Chain} (hc : ∀ n ∈ Node.ofChain c, h.AcyclicFrom n) :
    h.audit c = [] ↔ ∀ n ∈ Node.ofChain c, ∀ k, h.Reaches n k → ¬h.Released k := by
  rw [audit, (auditTo_eq_nil_iff h h.depth).2, (nodesTo_eq_walk h h.depth).2]
  constructor
  · intro hnone n hn k hk hreleased
    refine hnone k (List.mem_flatMap.mpr ⟨n, hn, ?_⟩) hreleased
    exact (hc n hn).mem_walk hk hreleased.has
  · intro hnone k hk
    obtain ⟨n, hn, hwalk⟩ := List.mem_flatMap.mp hk
    exact hnone n hn k (reaches_of_mem_walk hwalk)

/-- The closure in the second environment has a released body, and the first has no closure. -/
theorem audit_eq_nil_iff_entangled :
    ∃ h : Heap, h = (entangled.put (some ⟨0⟩) (some ⟨3⟩) (some ⟨0⟩)).2 ∧
      (∀ n ∈ Node.ofChain (some ⟨0⟩), h.AcyclicFrom n) ∧
      (∀ k, h.Reaches (.binding ⟨0⟩) k → ¬h.Released k) ∧
      (∀ n ∈ Node.ofChain (some ⟨1⟩), h.AcyclicFrom n) ∧
      ∃ k, h.Reaches (.binding ⟨1⟩) k ∧ h.Released k := by
  refine ⟨_, rfl, ?_⟩
  have hedits := entangled_edits.step (.put (some ⟨0⟩) (some ⟨3⟩) (some ⟨0⟩) (by
    simp [Binding.parts, Node.ofRef, Node.ofChain, Has, entangled]))
  obtain ⟨-, hac⟩ := hedits.acyclic bounded_empty acyclic_empty
  refine ⟨fun n _ => hac.acyclicFrom n, ?_, fun n _ => hac.acyclicFrom n, ?_⟩
  · have hnone := (audit_eq_nil_iff (c := some ⟨0⟩) fun n _ => hac.acyclicFrom n).mp
      (by decide +kernel)
    exact hnone _ (List.mem_singleton_self _)
  · have hfound := mt (audit_eq_nil_iff (c := some ⟨1⟩) fun n _ => hac.acyclicFrom n).mpr
      (by decide +kernel)
    simpa [Node.ofChain] using hfound

end Heap

/-! ## The text of a value -/

/-- Whether what a field refers to is written out with the value. -/
def Field.shown : Field → Bool
  | .car | .cdr | .params | .body => true
  | _ => false

/-- Whether a text has another in it. -/
def Mentions (text part : String) : Prop := ∃ before after, text = before ++ part ++ after

theorem Mentions.refl (text : String) : Mentions text text := ⟨"", "", by simp⟩

theorem Mentions.behind {text part : String} (hm : Mentions text part) (front : String) :
    Mentions (front ++ text) part := by
  obtain ⟨before, after, rfl⟩ := hm
  exact ⟨front ++ before, after, by simp only [String.append_assoc]⟩

theorem Mentions.ahead {text part : String} (hm : Mentions text part) (back : String) :
    Mentions (text ++ back) part := by
  obtain ⟨before, after, rfl⟩ := hm
  exact ⟨before, after ++ back, by simp only [String.append_assoc]⟩

namespace Tree

variable {part : String}

/-- The text of a list mentions what that of its first element does, also where the list is the
rest of another, -/
theorem mentions_car {car : Tree} (hcar : car ≠ .absent) (hm : Mentions car.render part)
    (cdr : Tree) : Mentions (pair car cdr).render part ∧ Mentions (pair car cdr).renderTail part := by
  have hnil : ¬(car = .absent ∧ cdr = .absent) := fun hnil => hcar hnil.1
  rw [render_pair hnil, renderTail_pair hnil]
  exact ⟨(hm.behind _).ahead _, (hm.behind _).ahead _⟩

/-- and what the text of its rest does, as a rest. -/
theorem mentions_cdr {cdr : Tree} (hcdr : cdr ≠ .absent) (hm : Mentions cdr.renderTail part)
    (car : Tree) : Mentions (pair car cdr).render part ∧ Mentions (pair car cdr).renderTail part := by
  have hnil : ¬(car = .absent ∧ cdr = .absent) := fun hnil => hcdr hnil.2
  rw [render_pair hnil, renderTail_pair hnil]
  exact ⟨hm.behind _, hm.behind _⟩

theorem mentions_params {params : Tree} (hm : Mentions params.render part) (body : Tree)
    (captured : Scope) : Mentions (closure params body captured).render part ∧
      Mentions (closure params body captured).renderTail part :=
  ⟨(((hm.behind _).ahead _).ahead _).ahead _, (((hm.behind _).ahead _).ahead _).ahead _⟩

theorem mentions_body {body : Tree} (hm : Mentions body.render part) (params : Tree)
    (captured : Scope) : Mentions (closure params body captured).render part ∧
      Mentions (closure params body captured).renderTail part :=
  ⟨(hm.behind _).ahead _, (hm.behind _).ahead _⟩

end Tree

namespace Heap

variable {h : Heap}

theorem viewTo_ne_absent {d : Nat} (hd : 0 < d) (a : Addr) : viewTo d h (some a) ≠ .absent := by
  obtain ⟨d, rfl⟩ : ∃ e, d = e + 1 := ⟨d - 1, by omega⟩
  rw [viewTo]
  cases h.cell a with
  | released husk => exact Tree.noConfusion
  | live datum => cases datum <;> exact Tree.noConfusion

theorem mem_map_ofRef {f g : Field} {l : Node} {v : Ref} :
    (f, l) ∈ (Node.ofRef v).map (g, ·) ↔ f = g ∧ ∃ a, v = some a ∧ l = .value a := by
  cases v with
  | none => simp
  | some a => simp [Node.ofRef]

/--
A released value that a path of written fields leads to is marked in the text of a value, and in
the text of a list that goes on with the value, unless it is a pair where a list goes on.
-/
theorem mentions_released {k : Addr} {husk : Husk} (hk : h.cell k = .released husk)
    {path : List Field} {d : Nat} {a : Addr} (hd : path.length < d)
    (hlead : h.Leads (.value a) path (.value k)) (hshown : ∀ f ∈ path, f.shown = true)
    (hend : husk = .pair → path.getLast? ≠ some .cdr) :
    Mentions (viewTo d h (some a)).render "<released>" ∧
      ((path = [] → husk ≠ .pair) → Mentions (viewTo d h (some a)).renderTail "<released>") := by
  -- the text as a tail comes along, since a list writes its rest in that form
  induction path generalizing a d with
  | nil =>
      obtain ⟨d, rfl⟩ : ∃ e, d = e + 1 := ⟨d - 1, by simp at hd; omega⟩
      obtain rfl : a = k := Node.value.inj hlead
      rw [viewTo, hk]
      refine ⟨.refl _, fun hnot => ?_⟩
      have htail : (Tree.released husk).renderTail = " . " ++ "<released>" ++ ")" := by
        cases husk with
        | pair => exact absurd rfl (hnot rfl)
        | _ => rfl
      rw [htail]
      exact ((Mentions.refl _).behind " . ").ahead ")"
  | cons f path ih =>
      obtain ⟨d, rfl⟩ : ∃ e, d = e + 1 := ⟨d - 1, by omega⟩
      obtain ⟨l, hl, hlead⟩ := hlead
      obtain ⟨hf, hshown⟩ := List.forall_mem_cons.mp hshown
      rw [List.length_cons] at hd
      have hrest : husk = .pair → path.getLast? ≠ some .cdr := by
        intro hpair
        cases path with
        | nil => simp
        | cons g path => simpa [List.getLast?_cons_cons] using hend hpair
      have hpart := fun a' (hlead : h.Leads (.value a') path (.value k)) =>
        ih (d := d) (by omega) hlead hshown hrest
      rw [viewTo]
      rw [fields] at hl
      cases hcell : h.cell a with
      | released husk =>
          rw [hcell] at hl
          cases hl
      | live datum =>
          rw [hcell] at hl
          cases datum with
          | pair car cdr =>
              rcases List.mem_append.mp hl with hl | hl
              · obtain ⟨rfl, a', rfl, rfl⟩ := mem_map_ofRef.mp hl
                obtain ⟨hrender, htail⟩ := Tree.mentions_car (viewTo_ne_absent (by omega) a')
                  (hpart a' hlead).1 (viewTo d h cdr)
                exact ⟨hrender, fun _ => htail⟩
              · obtain ⟨rfl, a', rfl, rfl⟩ := mem_map_ofRef.mp hl
                -- the path ends here where it has one field
                have hlast : path = [] → husk ≠ .pair := by
                  rintro rfl hpair
                  exact hend hpair rfl
                obtain ⟨hrender, htail⟩ := Tree.mentions_cdr (viewTo_ne_absent (by omega) a')
                  ((hpart a' hlead).2 hlast) (viewTo d h car)
                exact ⟨hrender, fun _ => htail⟩
          | closure c =>
              rcases List.mem_append.mp hl with hl | hl
              · obtain ⟨rfl, a', hparams, rfl⟩ := mem_map_ofRef.mp hl
                obtain ⟨hrender, htail⟩ := Tree.mentions_params (hpart a' hlead).1
                  (viewTo d h c.body) (viewChainTo d h c.captured)
                rw [← hparams] at hrender htail
                exact ⟨hrender, fun _ => htail⟩
              · rcases List.mem_append.mp hl with hl | hl
                · obtain ⟨rfl, a', hbody, rfl⟩ := mem_map_ofRef.mp hl
                  obtain ⟨hrender, htail⟩ := Tree.mentions_body (hpart a' hlead).1
                    (viewTo d h c.params) (viewChainTo d h c.captured)
                  rw [← hbody] at hrender htail
                  exact ⟨hrender, fun _ => htail⟩
                · -- what is captured is not written out
                  obtain ⟨_, -, heq⟩ := List.mem_map.mp hl
                  cases heq
                  exact absurd hf Bool.noConfusion
          | _ => cases hl

/-- Only a live pair goes on as a list. -/
theorem eq_pair_of_not_isNil {c : Cell} (hc : (c.kind == .pair && !c.isNil) = true) :
    ∃ car cdr, c = .live (.pair car cdr) := by
  cases c with
  | released husk => simp [Cell.isNil, Cell.car, Cell.cdr] at hc
  | live datum =>
      cases datum with
      | pair car cdr => exact ⟨car, cdr, rfl⟩
      | _ => simp [Cell.isNil, Cell.car, Cell.cdr] at hc

/-- A list that ends with something released, unfolded along its pairs. -/
theorem viewTo_of_spine {k : Addr} {husk : Husk} (hk : h.cell k = .released husk) {n d : Nat}
    (hd : d ≤ h.depth) {v : Ref} (hv : h.Confined d (Node.ofRef v)) {cars : List Ref}
    (hspine : spineTo n h v = (cars, some k)) :
    viewTo d h v = (cars.map h.view).foldr .pair (.released husk) := by
  have hlast : ∀ {d}, h.Confined d (Node.ofRef (some k)) →
      viewTo d h (some k) = .released husk := by
    intro d hconf
    cases d with
    | zero => exact absurd hconf.ref_eq_none (by simp)
    | succ d => rw [viewTo, hk]
  -- the rest of a list is unfolded one step less deep than the list
  induction n generalizing v d cars with
  | zero =>
      obtain ⟨rfl, rfl⟩ := Prod.mk.inj hspine
      exact hlast hv
  | succ n ih =>
      cases v with
      | none => exact absurd (Prod.mk.inj hspine).2 (by simp)
      | some a =>
          rw [spineTo] at hspine
          split at hspine
          · next hpair =>
              obtain ⟨rfl, htail⟩ := Prod.mk.inj hspine
              cases d with
              | zero => exact absurd hv.ref_eq_none (by simp)
              | succ d =>
                  obtain ⟨car, cdr, hcell⟩ := eq_pair_of_not_isNil hpair
                  obtain ⟨hcar, hcdr⟩ := hv.pair hcell
                  rw [hcell] at htail
                  have hview : h.view car = viewTo d h car :=
                    (viewTo_of_confined d).1 car hcar _ (by omega)
                  have hrest := ih (by omega) hcdr (Prod.ext rfl htail)
                  rw [viewTo, hcell, List.map_cons, List.foldr_cons]
                  exact congrArg₂ Tree.pair hview.symm hrest
          · obtain ⟨rfl, hak⟩ := Prod.mk.inj hspine
            cases hak
            exact hlast hv

/--
**A released value shows in the text of a value** without cycles that refers to it along the fields
that are written out, unless it is a pair where a list goes on. A list that goes on with something
released is written to the end of what is there; a released pair then ends it like the empty list,
and anything else follows as the released tail that it is.
-/
theorem released_shows_in_text (hb : h.Bounded) {a : Addr} (hhas : h.Has (.value a))
    (hac : h.AcyclicFrom (.value a)) :
    (∀ path k husk, h.Leads (.value a) path (.value k) → (∀ f ∈ path, f.shown = true) →
      h.cell k = .released husk → (husk = .pair → path.getLast? ≠ some .cdr) →
      Mentions (h.render (some a)) "<released>") ∧
    ∀ car cars k husk, h.spine (some a) = (car :: cars, some k) → h.cell k = .released husk →
      h.render (some a) = "(" ++ printed ((car :: cars).map h.view) ++
        if husk = .pair then ")" else " . <released>)" := by
  constructor
  · intro path k husk hlead hshown hk hend
    have hreleased : h.Released (.value k) := by rw [Released, hk]; rfl
    exact (mentions_released hk (hlead.length_lt hac hreleased.has) hlead hshown hend).1
  · intro car cars k husk hspine hk
    have hconf : h.Confined h.depth (Node.ofRef (some a)) :=
      AcyclicFrom.confined hb fun n hn => by
        rw [List.mem_singleton.mp hn]
        exact ⟨hhas, hac⟩
    have htail : (Tree.released husk).renderTail =
        if husk = .pair then ")" else " . <released>)" := by
      cases husk <;> rfl
    rw [render, view, viewTo_of_spine hk (Nat.le_refl _) hconf hspine, List.map_cons,
      Tree.render_foldr Tree.noConfusion, htail]

/-- A closure with a released body. -/
theorem released_shows_in_text_entangled :
    (entangled.Bounded ∧ entangled.Has (.value ⟨3⟩) ∧ entangled.AcyclicFrom (.value ⟨3⟩)) ∧
    entangled.Leads (.value ⟨3⟩) [.body] (.value ⟨2⟩) ∧
    entangled.cell ⟨2⟩ = .released (.atom "y") ∧
    Mentions (entangled.render (some ⟨3⟩)) "<released>" := by
  obtain ⟨hb, hac⟩ := entangled_edits.acyclic bounded_empty acyclic_empty
  have hroot : entangled.Has (.value ⟨3⟩) := by simp [Has, entangled]
  have hlead : entangled.Leads (.value ⟨3⟩) [.body] (.value ⟨2⟩) := by
    simp [Leads, fields, cell, entangled, Datum.fields, Node.ofRef, Node.ofChain]
  refine ⟨⟨hb, hroot, hac.acyclicFrom _⟩, hlead, rfl, ?_⟩
  exact (released_shows_in_text hb hroot (hac.acyclicFrom _)).1 _ _ _ hlead (by simp [Field.shown])
    rfl (by simp)

/-- The list of one and two, after its second pair was registered and released. -/
def truncated : Heap :=
  ((⟨#[.value ⟨3⟩], 0⟩ : Arena).releaseAll
    (store (.ofList [.number (.int 1), .number (.int 2)]) .empty).2).2

/-- The list refers to the released pair, and its text is that of a list of one. -/
theorem released_pair_ends_the_list :
    truncated.AcyclicFrom (.value ⟨4⟩) ∧ truncated.Leads (.value ⟨4⟩) [.cdr] (.value ⟨3⟩) ∧
    truncated.Released (.value ⟨3⟩) ∧ truncated.render (some ⟨4⟩) = "(1)" ∧
    ¬Mentions (truncated.render (some ⟨4⟩)) "<released>" := by
  have hedits : Heap.empty.Edits truncated := by
    have hstore := store_copies (.ofList [.number (.int 1), .number (.int 2)]) .empty
      (by simp [Tree.ofList, Tree.nil, Tree.Plain])
    rw [truncated, releaseAll_eq_foldl]
    exact hstore.edits.trans (.releaseEach _ _)
  have htext : truncated.render (some ⟨4⟩) = "(1)" := by decide +kernel
  refine ⟨(hedits.acyclic bounded_empty acyclic_empty).2.acyclicFrom _, ?_, rfl, htext, ?_⟩
  · refine ⟨.value ⟨3⟩, ?_, rfl⟩
    decide +kernel
  · rintro ⟨before, after, heq⟩
    rw [htext] at heq
    have hmark : "(1)".length < "<released>".length := by decide
    have hlength := congrArg String.length heq
    rw [String.length_append, String.length_append] at hlength
    omega

end Heap

end ArenaLisp
