import ArenaLisp.Proofs.Acyclic
import ArenaLisp.Proofs.Paths
import Mathlib.Data.Set.Card

/-!
# The paths of a walk

A walk that does not look where it has been comes to a node once for every path that leads there.
`trails` lists those paths with the nodes: the nodes alone are those of the walk
(`walk_eq_trails`), every path that is short enough is listed (`mem_trails`) and none is listed
twice (`nodup_trails`).

Where no path comes back to where it was, a path to a node that exists passes no node twice, so it
is shorter than the heap is deep (`Leads.length_lt`). There a walk comes to exactly what is reached,
and so often as paths lead there.
-/

namespace ArenaLisp.Heap

/-- The paths from a node that have fewer than `d` fields, each with the node it leads to. -/
def trails (h : Heap) : Nat → Node → List (List Field × Node)
  | 0, _ => []
  | d + 1, n => ([], n) ::
      (h.fields n).flatMap fun e => (h.trails d e.2).map fun t => (e.1 :: t.1, t.2)

/-- The paths of fields that lead from a value to a node. -/
def pathsTo (h : Heap) (v : Ref) (k : Node) : Set (List Field) :=
  {path | ∃ n ∈ Node.ofRef v, h.Leads n path k}

/-- A node refers to something with each field once at most. -/
theorem nodup_fields (h : Heap) (n : Node) : ((h.fields n).map Prod.fst).Nodup := by
  cases n with
  | value a =>
      rw [fields]
      cases h.cell a with
      | released husk => exact List.nodup_nil
      | live d =>
          cases d with
          | pair car cdr => cases car <;> cases cdr <;> simp [Datum.fields, Node.ofRef]
          | closure c =>
              rcases c with ⟨_ | _, _ | _, _ | _⟩ <;>
                simp [Datum.fields, Node.ofRef, Node.ofChain]
          | _ => exact List.nodup_nil
  | binding b =>
      rw [fields]
      rcases h.binding b with ⟨_ | _, _ | _, _ | _, _⟩ <;>
        simp [Binding.fields, Node.ofRef, Node.ofChain]

theorem walk_eq_trails (h : Heap) (d : Nat) (n : Node) :
    h.walk d n = (h.trails d n).map Prod.snd := by
  induction d generalizing n with
  | zero => rfl
  | succ d ih =>
      rw [walk, trails, parts_eq_fields, List.flatMap_map, List.map_cons, List.map_flatMap]
      simp [ih, Function.comp_def]

/-- **The paths listed are those that lead somewhere and are short enough.** -/
theorem mem_trails {h : Heap} {d : Nat} {n k : Node} {path : List Field} :
    (path, k) ∈ h.trails d n ↔ path.length < d ∧ h.Leads n path k := by
  induction d generalizing n path with
  | zero => simp [trails]
  | succ d ih =>
      cases path with
      | nil => simp [trails, Leads, eq_comm]
      | cons f path =>
          simp only [trails, List.mem_cons, Prod.mk.injEq, reduceCtorEq, false_and, false_or,
            List.mem_flatMap, List.mem_map, Prod.exists, List.cons.injEq, List.length_cons,
            Nat.add_lt_add_iff_right, Leads]
          constructor
          · rintro ⟨_, l, hl, _, _, ht, ⟨rfl, rfl⟩, rfl⟩
            obtain ⟨hlen, hlead⟩ := ih.mp ht
            exact ⟨hlen, l, hl, hlead⟩
          · rintro ⟨hlen, l, hl, hlead⟩
            exact ⟨f, l, hl, path, k, ih.mpr ⟨hlen, hlead⟩, ⟨rfl, rfl⟩, rfl⟩

/-- **No path is listed twice.** -/
theorem nodup_trails (h : Heap) (d : Nat) (n : Node) : ((h.trails d n).map Prod.fst).Nodup := by
  induction d generalizing n with
  | zero => exact List.nodup_nil
  | succ d ih =>
      rw [trails, List.map_cons, List.nodup_cons, List.map_flatMap, List.nodup_flatMap]
      refine ⟨by simp, fun e _ => ?_, ?_⟩
      · rw [List.map_map]
        have hcons := (ih e.2).map (List.cons_injective (a := e.1))
        rwa [List.map_map] at hcons
      · -- paths that begin with different fields are different
        refine (List.pairwise_map.mp (nodup_fields h n)).imp fun {e e'} hne path hp hp' => ?_
        simp only [List.map_map, List.mem_map, Function.comp_apply] at hp hp'
        obtain ⟨t, -, rfl⟩ := hp
        obtain ⟨t', -, heq⟩ := hp'
        exact hne (List.cons.inj heq).1.symm

/-! ## Paths that are short enough -/

/-- What is reached is reached along some path. -/
theorem Reaches.exists_leads {h : Heap} {n k : Node} (hk : h.Reaches n k) :
    ∃ path, h.Leads n path k := by
  refine Relation.ReflTransGen.head_induction_on hk ⟨[], rfl⟩ ?_
  rintro n l hl - ⟨path, hpath⟩
  rw [parts_eq_fields] at hl
  obtain ⟨⟨f, _⟩, hf, rfl⟩ := List.mem_map.mp hl
  exact ⟨f :: path, _, hf, hpath⟩

/-- The nodes that a path passes, where it leads to one that exists. -/
theorem Leads.exists_nodes {h : Heap} {n k : Node} {path : List Field} (hk : h.Leads n path k)
    (hhas : h.Has k) : ∃ l : List Node, (n :: l).IsChain (fun n k => k ∈ h.parts n) ∧
      l.length = path.length ∧ ∀ q ∈ n :: l, h.Reaches n q ∧ h.Has q := by
  induction path generalizing n with
  | nil =>
      obtain rfl : n = k := hk
      exact ⟨[], .singleton n, rfl, by simpa using ⟨.refl n, hhas⟩⟩
  | cons f path ih =>
      obtain ⟨p, hp, hpk⟩ := hk
      have hpart := mem_parts_of_field hp
      obtain ⟨l, hchain, hlen, hl⟩ := ih hpk
      refine ⟨p :: l, .cons_cons hpart hchain, by simp [hlen], fun q hq => ?_⟩
      rcases List.mem_cons.mp hq with rfl | hq
      · exact ⟨.refl q, has_of_mem_parts hpart⟩
      · exact ⟨(Reaches.of_part hpart).trans (hl q hq).1, (hl q hq).2⟩

/-- **A path to a node that exists is shorter than the heap is deep**, where none comes back. -/
theorem Leads.length_lt {h : Heap} {n k : Node} {path : List Field} (hk : h.Leads n path k)
    (hn : h.AcyclicFrom n) (hhas : h.Has k) : path.length < h.depth := by
  obtain ⟨l, hchain, hlen, hl⟩ := hk.exists_nodes hhas
  -- no node is passed twice, and there are no more than the heap has
  have hnodup := nodup_of_isChain hchain fun q hq => hn q (hl q hq).1
  have hle := length_le_depth hnodup fun q hq => (hl q hq).2
  rw [List.length_cons, hlen] at hle
  exact hle

/-- Where no path comes back, a walk comes to all that is reached and exists. -/
theorem AcyclicFrom.mem_walk {h : Heap} {n k : Node} (hn : h.AcyclicFrom n) (hk : h.Reaches n k)
    (hhas : h.Has k) : k ∈ h.walk h.depth n := by
  obtain ⟨path, hpath⟩ := hk.exists_leads
  rw [walk_eq_trails]
  exact List.mem_map.mpr ⟨(path, k), mem_trails.mpr ⟨hpath.length_lt hn hhas, hpath⟩, rfl⟩

/-- Where no path comes back, a walk comes to a node **once for each path** that leads there. -/
theorem AcyclicFrom.count_walk {h : Heap} {n k : Node} (hn : h.AcyclicFrom n)
    (hhas : h.Reaches n k → h.Has k) :
    ((h.walk h.depth n).count k : ℕ∞) = {path | h.Leads n path k}.encard := by
  let paths := ((h.trails h.depth n).filter (·.2 == k)).map Prod.fst
  have hnodup : paths.Nodup :=
    (nodup_trails h h.depth n).sublist (List.filter_sublist.map Prod.fst)
  have hmem : {path | h.Leads n path k} = {path | path ∈ paths} := by
    ext path
    have hpath : path ∈ paths ↔ (path, k) ∈ h.trails h.depth n := by simp [paths]
    rw [Set.mem_ofPred_eq, Set.mem_ofPred_eq, hpath, mem_trails]
    exact ⟨fun hk => ⟨hk.length_lt hn (hhas hk.reaches), hk⟩, And.right⟩
  have hlen : (h.walk h.depth n).count k = paths.length := by
    rw [walk_eq_trails, List.count_eq_countP, List.countP_map, List.countP_eq_length_filter,
      List.length_map]
    rfl
  rw [hmem, hlen, ← List.coe_toFinset, Set.encard_coe_eq_coe_finsetCard,
    List.toFinset_card_of_nodup hnodup]

end ArenaLisp.Heap
