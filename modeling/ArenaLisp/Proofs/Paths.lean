import ArenaLisp.Proofs.Growth
import Mathlib.Data.List.Pairwise

/-!
# Paths

What one node reaches from another says nothing about how often it comes to it. A *path* names
the fields that are followed, and a node is *unshared* when no two paths from it end at the same
place: what it reaches is a tree.

Copying makes trees. A copy of a part is made after the copies of the parts before it, out of
nodes that were not there then, so the copies of two parts have nothing in common; and none of
them can refer back to the node that is made of them last. What the copied value shared is
copied once for every path to it.
-/

namespace ArenaLisp

/-- The fields along which nodes refer to one another. -/
inductive Field where
  | car
  | cdr
  | params
  | body
  | captured
  | name
  | value
  | next
deriving DecidableEq, Repr

/-- The fields of a datum that refer to something, each with what it refers to. -/
def Datum.fields : Datum → List (Field × Node)
  | .pair car cdr => (Node.ofRef car).map (.car, ·) ++ (Node.ofRef cdr).map (.cdr, ·)
  | .closure c => (Node.ofRef c.params).map (.params, ·) ++
      ((Node.ofRef c.body).map (.body, ·) ++ (Node.ofChain c.captured).map (.captured, ·))
  | _ => []

/-- The fields of a binding that refer to something, each with what it refers to. -/
def Binding.fields (b : Binding) : List (Field × Node) :=
  (Node.ofRef b.name).map (.name, ·) ++
    ((Node.ofRef b.value).map (.value, ·) ++ (Node.ofChain b.next).map (.next, ·))

namespace Heap

/-- The fields of a node that refer to something; a released node has none. -/
def fields (h : Heap) : Node → List (Field × Node)
  | .value a =>
    match h.cell a with
    | .live d => d.fields
    | .released _ => []
  | .binding b => (h.binding b).fields

/-- Whether a path of fields leads from one node to another. -/
def Leads (h : Heap) : Node → List Field → Node → Prop
  | n, [], k => n = k
  | n, f :: path, k => ∃ l, (f, l) ∈ h.fields n ∧ h.Leads l path k

/-- Whether different paths from a node lead to different nodes. -/
def Unshared (h : Heap) (n : Node) : Prop :=
  ∀ p q k, h.Leads n p k → h.Leads n q k → p = q

/-- Whether two nodes reach nothing in common. -/
def Apart (h : Heap) (n n' : Node) : Prop := ∀ k, h.Reaches n k → ¬h.Reaches n' k

/-! ## Paths and what is reached -/

/-- The parts of a node are what its fields refer to. -/
theorem parts_eq_fields (h : Heap) (n : Node) : h.parts n = (h.fields n).map Prod.snd := by
  cases n with
  | value a =>
      rw [parts, fields]
      cases h.cell a with
      | released husk => rfl
      | live d => cases d <;> simp [Cell.parts, Datum.parts, Datum.fields, Function.comp_def]
  | binding b => simp [parts, fields, Binding.parts, Binding.fields, Function.comp_def]

theorem mem_parts_of_field {h : Heap} {n k : Node} {f : Field} (hk : (f, k) ∈ h.fields n) :
    k ∈ h.parts n := by
  rw [parts_eq_fields]
  exact List.mem_map.mpr ⟨_, hk, rfl⟩

theorem Leads.reaches {h : Heap} {n k : Node} {path : List Field} (hk : h.Leads n path k) :
    h.Reaches n k := by
  induction path generalizing n with
  | nil =>
      obtain rfl : n = k := hk
      exact .refl n
  | cons f path ih =>
      obtain ⟨l, hl, hlk⟩ := hk
      exact (Reaches.of_part (mem_parts_of_field hl)).trans (ih hlk)

theorem AgreeAt.fields_eq {h h' : Heap} {n : Node} (hn : h.AgreeAt h' n) :
    h'.fields n = h.fields n := by
  cases n with
  | value a =>
      have ha : h'.cell a = h.cell a := hn
      rw [fields, fields, ha]
  | binding b => exact congrArg Binding.fields hn

/-- The paths from a node are the same where all that is reached is. -/
theorem leads_congr {h h' : Heap} {n k : Node} {path : List Field}
    (ha : ∀ l, h.Reaches n l → h.AgreeAt h' l) : h'.Leads n path k ↔ h.Leads n path k := by
  induction path generalizing n with
  | nil => exact Iff.rfl
  | cons f path ih =>
      rw [Leads, Leads, (ha n (.refl n)).fields_eq]
      refine exists_congr fun l => and_congr_right fun hl => ih fun l' hl' => ha l' ?_
      exact (Reaches.of_part (mem_parts_of_field hl)).trans hl'

theorem Unshared.congr {h h' : Heap} {n : Node} (hn : h.Unshared n)
    (ha : ∀ l, h.Reaches n l → h.AgreeAt h' l) : h'.Unshared n :=
  fun p q k hp hq => hn p q k ((leads_congr ha).mp hp) ((leads_congr ha).mp hq)

theorem Apart.symm {h : Heap} {n n' : Node} (hn : h.Apart n n') : h.Apart n' n :=
  fun k hk hk' => hn k hk' hk

theorem Apart.congr {h h' : Heap} {n n' : Node} (hn : h.Apart n n')
    (ha : ∀ l, h.Reaches n l → h.AgreeAt h' l) (ha' : ∀ l, h.Reaches n' l → h.AgreeAt h' l) :
    h'.Apart n n' :=
  fun k hk hk' => hn k ((reaches_congr ha).mp hk) ((reaches_congr ha').mp hk')

/--
A node is unshared when its parts are, no two fields reach anything in common and nothing
leads back to it.
-/
theorem Unshared.of_fields {h : Heap} {n : Node} (hparts : ∀ k ∈ h.parts n, h.Unshared k)
    (hapart : (h.fields n).Pairwise fun e e' => h.Apart e.2 e'.2)
    (hback : ∀ k ∈ h.parts n, ¬h.Reaches k n) : h.Unshared n := by
  intro p q k hp hq
  cases p with
  | nil =>
      obtain rfl : n = k := hp
      cases q with
      | nil => rfl
      | cons g q =>
          obtain ⟨l, hl, hlead⟩ := hq
          exact absurd hlead.reaches (hback l (mem_parts_of_field hl))
  | cons f p =>
      obtain ⟨l, hl, hlead⟩ := hp
      cases q with
      | nil =>
          obtain rfl : n = k := hq
          exact absurd hlead.reaches (hback l (mem_parts_of_field hl))
      | cons g q =>
          obtain ⟨l', hl', hlead'⟩ := hq
          by_cases heq : (f, l) = (g, l')
          · cases heq
            rw [hparts l (mem_parts_of_field hl) p q k hlead hlead']
          · have : Std.Symm fun e e' : Field × Node => h.Apart e.2 e'.2 := ⟨fun _ _ => Apart.symm⟩
            exact absurd hlead'.reaches (hapart.forall hl hl' heq k hlead.reaches)

/-! ## Copies are trees -/

/-- Whether nodes are the roots of trees with nothing in common. -/
structure Forest (h : Heap) (ns : List Node) : Prop where
  trees : ∀ n ∈ ns, h.Unshared n
  apart : ns.Pairwise h.Apart

/-- Whether a heap is another with copies added: trees that reach nothing but what was added. -/
structure CopiesTrees (h h' : Heap) (ns : List Node) : Prop where
  grown : h.Extends h'
  made : ∀ n ∈ ns, ∀ k, h'.Reaches n k → h.Made h' k
  forest : h'.Forest ns

namespace CopiesTrees

theorem refl (h : Heap) : h.CopiesTrees h [] :=
  ⟨.refl h, fun _ hn => absurd hn List.not_mem_nil, fun _ hn => absurd hn List.not_mem_nil, .nil⟩

/-- What copies reach stays as it is when the heap grows. -/
theorem agreeAt {h h' h'' : Heap} {ns : List Node} (hc : h.CopiesTrees h' ns)
    (he : h'.Extends h'') {n k : Node} (hn : n ∈ ns) (hk : h'.Reaches n k) : h'.AgreeAt h'' k :=
  he.agreeAt (hc.made n hn k hk).1

/-- What copies reach is the same when the heap grows. -/
theorem reaches_made {h h' h'' : Heap} {ns : List Node} (hc : h.CopiesTrees h' ns)
    (he : h'.Extends h'') {n k : Node} (hn : n ∈ ns) (hk : h''.Reaches n k) : h.Made h' k :=
  hc.made n hn k ((reaches_congr fun _ hl => hc.agreeAt he hn hl).mp hk)

/-- Copies stay copies when the heap grows. -/
theorem keep {h h' h'' : Heap} {ns : List Node} (hc : h.CopiesTrees h' ns) (he : h'.Extends h'') :
    h.CopiesTrees h'' ns where
  grown := hc.grown.trans he
  made n hn k hk := by
    have hmade := hc.reaches_made he hn hk
    exact ⟨he.has hmade.1, hmade.2⟩
  forest := by
    have hkept := fun n (hn : n ∈ ns) k (hk : h'.Reaches n k) => hc.agreeAt he hn hk
    refine ⟨fun n hn => (hc.forest.trees n hn).congr (hkept n hn), ?_⟩
    exact hc.forest.apart.imp_of_mem fun hn hn' hapart => hapart.congr (hkept _ hn) (hkept _ hn')

/-- Copies of one heap are copies of any that it was grown from. -/
theorem since {h₀ h h' : Heap} {ns : List Node} (hc : h.CopiesTrees h' ns) (he : h₀.Extends h) :
    h₀.CopiesTrees h' ns where
  grown := he.trans hc.grown
  made n hn k hk := ⟨(hc.made n hn k hk).1, fun h₀k => (hc.made n hn k hk).2 (he.has h₀k)⟩
  forest := hc.forest

theorem append {h h' h'' : Heap} {ns ns' : List Node} (hc : h.CopiesTrees h' ns)
    (hc' : h'.CopiesTrees h'' ns') : h.CopiesTrees h'' (ns ++ ns') where
  grown := hc.grown.trans hc'.grown
  made n hn := by
    rcases List.mem_append.mp hn with hn | hn
    · exact (hc.keep hc'.grown).made n hn
    · exact (hc'.since hc.grown).made n hn
  forest := by
    have hkept := hc.keep hc'.grown
    refine ⟨fun n hn => ?_, List.pairwise_append.mpr ⟨hkept.forest.apart, hc'.forest.apart, ?_⟩⟩
    · rcases List.mem_append.mp hn with hn | hn
      · exact hkept.forest.trees n hn
      · exact hc'.forest.trees n hn
    · -- the later copies are made of nodes that the earlier ones cannot reach
      intro n hn n' hn' k hk hk'
      exact (hc'.made n' hn' k hk').2 (hc.reaches_made hc'.grown hn hk).1

/-- In which order copies are listed does not matter. -/
theorem perm {h h' : Heap} {ns ns' : List Node} (hc : h.CopiesTrees h' ns) (hp : ns.Perm ns') :
    h.CopiesTrees h' ns' where
  grown := hc.grown
  made n hn := hc.made n (hp.mem_iff.mpr hn)
  forest := ⟨fun n hn => hc.forest.trees n (hp.mem_iff.mpr hn),
    (hp.pairwise_iff fun hapart => hapart.symm).mp hc.forest.apart⟩

/-- A node made of copies is a copy, when it refers to each of them once. -/
theorem root {h h' h'' : Heap} {n : Node} (he : h'.Extends h'') (hn : h'.Made h'' n)
    (hc : h.CopiesTrees h' (h''.parts n)) : h.CopiesTrees h'' [n] := by
  have hkept := hc.keep he
  refine ⟨hkept.grown, ?_, ?_, List.pairwise_singleton _ _⟩
  · intro n' hn' k hk
    cases List.mem_singleton.mp hn'
    rcases reaches_iff.mp hk with rfl | ⟨p, hp, hpk⟩
    · exact ⟨hn.1, fun h₀ => hn.2 (hc.grown.has h₀)⟩
    · exact hkept.made p hp k hpk
  · intro n' hn'
    cases List.mem_singleton.mp hn'
    refine Unshared.of_fields hkept.forest.trees ?_ ?_
    · have hapart := hkept.forest.apart
      rwa [parts_eq_fields, List.pairwise_map] at hapart
    · exact fun k hk hback => hn.2 (hc.reaches_made he hk hback).1

theorem alloc {h h' : Heap} {c : Cell} (hc : h.CopiesTrees h' c.parts) :
    h.CopiesTrees (h'.alloc c).2 (Node.ofRef (some (h'.alloc c).1)) := by
  refine root (n := .value ⟨h'.cells.size⟩) (extends_alloc h' c) (made_alloc.mpr rfl) ?_
  rw [parts, cell_alloc]
  exact hc

theorem new {h h' : Heap} {d : Datum} (hc : h.CopiesTrees h' d.parts) :
    h.CopiesTrees (h'.new d).2 (Node.ofRef (h'.new d).1) :=
  alloc (c := .live d) hc

theorem put {h h' : Heap} (name value : Ref) (next : Chain)
    (hc : h.CopiesTrees h' (⟨name, value, next, false⟩ : Binding).parts) :
    h.CopiesTrees (h'.put name value next).2 (Node.ofChain (h'.put name value next).1) := by
  refine root (extends_put h' name value next) (made_put.mpr rfl) ?_
  rw [parts, binding_put]
  exact hc

end CopiesTrees

/-- **Copies are trees**, to any depth of copying. -/
theorem copyTo_trees (n : Nat) :
    (∀ (h : Heap) (v : Ref), h.CopiesTrees (copyTo n h v).2 (Node.ofRef (copyTo n h v).1)) ∧
    (∀ (h : Heap) (c : Chain),
      h.CopiesTrees (copyChainTo n h c).2 (Node.ofChain (copyChainTo n h c).1)) := by
  induction n with
  | zero =>
      constructor
      · intro h v
        cases v <;> exact .refl h
      · intro h c
        cases c <;> exact .refl h
  | succ n ih =>
      obtain ⟨ihv, ihc⟩ := ih
      constructor
      · intro h v
        cases v with
        | none => exact .refl h
        | some a =>
            rw [copyTo]
            cases hcell : h.cell a with
            | released husk => exact CopiesTrees.alloc (c := .released husk) (.refl h)
            | live d =>
                cases d with
                | pair car cdr => exact ((ihv h car).append (ihv _ cdr)).new
                | closure c =>
                    exact ((ihv h c.params).append ((ihv _ c.body).append (ihc _ c.captured))).new
                | atom name => exact CopiesTrees.new (d := .atom name) (.refl h)
                | number x => exact CopiesTrees.new (d := .number x) (.refl h)
                | primitive p => exact CopiesTrees.new (d := .primitive p) (.refl h)
                | unknown code => exact CopiesTrees.new (d := .unknown code) (.refl h)
      · intro h c
        cases c with
        | none => exact .refl h
        | some b =>
            exact ((ihv h (h.binding b).name).append ((ihv _ (h.binding b).value).append
              (ihc _ (h.binding b).next))).put _ _ _

theorem copy_trees (h : Heap) (v : Ref) : h.CopiesTrees (h.copy v).2 (Node.ofRef (h.copy v).1) :=
  (copyTo_trees h.depth).1 h v

end Heap

end ArenaLisp
