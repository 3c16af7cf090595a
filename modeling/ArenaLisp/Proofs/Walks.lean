import ArenaLisp.Audit
import ArenaLisp.Proofs.Acyclic

/-!
# Walks that end

Unfolding, copying, registering, listing, collecting names, looking along a chain and auditing all
walk along references, and each is given a number of steps. On nodes whose paths end within `d`
nodes, `d` steps are enough for it: with more it does the same.

As many steps as the heap has nodes are enough wherever there are no cycles. The walk along a list
counts the cells only, and the walk along a chain the bindings only, and these are enough too: a
path comes to none of them twice.
-/

namespace ArenaLisp.Heap

variable {h : Heap}

/-! ## Walks over all references -/

theorem viewTo_of_confined (d : Nat) :
    (∀ v, h.Confined d (Node.ofRef v) → ∀ n, d ≤ n → viewTo n h v = viewTo d h v) ∧
    (∀ c, h.Confined d (Node.ofChain c) → ∀ n, d ≤ n → viewChainTo n h c = viewChainTo d h c) := by
  induction d with
  | zero =>
      constructor
      · intro v hv n _
        rw [hv.ref_eq_none]
        cases n <;> rfl
      · intro c hc n _
        rw [hc.chain_eq_none]
        cases n <;> rfl
  | succ d ih =>
      obtain ⟨ihv, ihc⟩ := ih
      constructor
      · intro v hv n hn
        obtain ⟨n, rfl⟩ : ∃ k, n = k + 1 := ⟨n - 1, by omega⟩
        have hle : d ≤ n := by omega
        cases v with
        | none => rfl
        | some a =>
            rw [viewTo, viewTo]
            cases hcell : h.cell a with
            | released husk => rfl
            | live datum =>
                cases datum with
                | pair car cdr =>
                    obtain ⟨hcar, hcdr⟩ := hv.pair hcell
                    dsimp only
                    rw [ihv car hcar n hle, ihv cdr hcdr n hle]
                | closure c =>
                    obtain ⟨hparams, hbody, hcaptured⟩ := hv.closure hcell
                    dsimp only
                    rw [ihv _ hparams n hle, ihv _ hbody n hle, ihc _ hcaptured n hle]
                | _ => rfl
      · intro c hc n hn
        obtain ⟨n, rfl⟩ : ∃ k, n = k + 1 := ⟨n - 1, by omega⟩
        have hle : d ≤ n := by omega
        cases c with
        | none => rfl
        | some b =>
            obtain ⟨hname, hvalue, hnext⟩ := hc.fields
            rw [viewChainTo, viewChainTo, ihv _ hname n hle, ihv _ hvalue n hle, ihc _ hnext n hle]

theorem copyTo_of_confined (d : Nat) :
    (∀ h v, Confined h d (Node.ofRef v) → ∀ n, d ≤ n → copyTo n h v = copyTo d h v) ∧
    (∀ h c, Confined h d (Node.ofChain c) → ∀ n, d ≤ n →
      copyChainTo n h c = copyChainTo d h c) := by
  induction d with
  | zero =>
      constructor
      · intro h v hv n _
        rw [hv.ref_eq_none]
        cases n <;> rfl
      · intro h c hc n _
        rw [hc.chain_eq_none]
        cases n <;> rfl
  | succ d ih =>
      obtain ⟨ihv, ihc⟩ := ih
      -- the copies made before a part are made beside it, and its paths are as they were
      constructor
      · intro h v hv n hn
        obtain ⟨n, rfl⟩ : ∃ k, n = k + 1 := ⟨n - 1, by omega⟩
        have hle : d ≤ n := by omega
        cases v with
        | none => rfl
        | some a =>
            rw [copyTo, copyTo]
            cases hcell : h.cell a with
            | released husk => rfl
            | live datum =>
                cases datum with
                | pair car cdr =>
                    obtain ⟨hcar, hcdr⟩ := hv.pair hcell
                    have he := ((copyTo_covers d).1 h car).grown
                    dsimp only
                    rw [ihv h car hcar n hle, ihv _ cdr (hcdr.of_extends he) n hle]
                | closure c =>
                    obtain ⟨hparams, hbody, hcaptured⟩ := hv.closure hcell
                    have he := ((copyTo_covers d).1 h c.params).grown
                    have he' := he.trans ((copyTo_covers d).1 _ c.body).grown
                    dsimp only
                    rw [ihv h _ hparams n hle, ihv _ _ (hbody.of_extends he) n hle,
                      ihc _ _ (hcaptured.of_extends he') n hle]
                | _ => rfl
      · intro h c hc n hn
        obtain ⟨n, rfl⟩ : ∃ k, n = k + 1 := ⟨n - 1, by omega⟩
        have hle : d ≤ n := by omega
        cases c with
        | none => rfl
        | some b =>
            obtain ⟨hname, hvalue, hnext⟩ := hc.fields
            have he := ((copyTo_covers d).1 h (h.binding b).name).grown
            have he' := he.trans ((copyTo_covers d).1 _ (h.binding b).value).grown
            rw [copyChainTo, copyChainTo]
            dsimp only
            rw [ihv h _ hname n hle, ihv _ _ (hvalue.of_extends he) n hle,
              ihc _ _ (hnext.of_extends he') n hle]

theorem walk_of_confined {d : Nat} {ns : List Node} (hns : h.Confined d ns) {n : Nat} (hn : d ≤ n)
    {k : Node} (hk : k ∈ ns) : h.walk n k = h.walk d k := by
  induction d generalizing ns n k with
  | zero => exact (hns k hk).elim
  | succ d ih =>
      obtain ⟨n, rfl⟩ : ∃ l, n = l + 1 := ⟨n - 1, by omega⟩
      rw [walk, walk]
      refine congrArg _ (List.flatMap_congr fun l hl => ?_)
      exact ih (hns.parts hk) (by omega) hl

theorem auditTo_of_confined (d : Nat) :
    (∀ v, h.Confined d (Node.ofRef v) → ∀ n path, d ≤ n → auditTo n h path v = auditTo d h path v) ∧
    (∀ c, h.Confined d (Node.ofChain c) → ∀ n path position, d ≤ n →
      auditChainTo n h path position c = auditChainTo d h path position c) := by
  induction d with
  | zero =>
      constructor
      · intro v hv n path _
        rw [hv.ref_eq_none]
        cases n <;> rfl
      · intro c hc n path position _
        rw [hc.chain_eq_none]
        cases n <;> rfl
  | succ d ih =>
      obtain ⟨ihv, ihc⟩ := ih
      constructor
      · intro v hv n path hn
        obtain ⟨n, rfl⟩ : ∃ k, n = k + 1 := ⟨n - 1, by omega⟩
        have hle : d ≤ n := by omega
        cases v with
        | none => rfl
        | some a =>
            rw [auditTo, auditTo]
            cases hcell : h.cell a with
            | released husk => rfl
            | live datum =>
                cases datum with
                | pair car cdr =>
                    obtain ⟨hcar, hcdr⟩ := hv.pair hcell
                    dsimp only
                    rw [ihv car hcar n _ hle, ihv cdr hcdr n _ hle]
                | closure c =>
                    obtain ⟨hparams, hbody, hcaptured⟩ := hv.closure hcell
                    dsimp only
                    rw [ihv _ hparams n _ hle, ihv _ hbody n _ hle, ihc _ hcaptured n _ _ hle]
                | _ => rfl
      · intro c hc n path position hn
        obtain ⟨n, rfl⟩ : ∃ k, n = k + 1 := ⟨n - 1, by omega⟩
        have hle : d ≤ n := by omega
        cases c with
        | none => rfl
        | some b =>
            obtain ⟨hname, hvalue, hnext⟩ := hc.fields
            rw [auditChainTo, auditChainTo]
            dsimp only
            rw [ihv _ hname n _ hle, ihv _ hvalue n _ hle, ihc _ hnext n _ _ hle]

/-- The fields of whatever a cell holds are reached with one step less. -/
theorem Confined.carCdr {d : Nat} {a : Addr} (ha : h.Confined (d + 1) (Node.ofRef (some a))) :
    h.Confined d (Node.ofRef (h.cell a).car) ∧ h.Confined d (Node.ofRef (h.cell a).cdr) := by
  have hnone : h.Confined d (Node.ofRef none) := fun n hn => by simp at hn
  cases hcell : h.cell a with
  | released husk => exact ⟨hnone, hnone⟩
  | live datum =>
      cases datum with
      | pair car cdr => exact ha.pair hcell
      | _ => exact ⟨hnone, hnone⟩

theorem atomsTo_of_confined {d : Nat} {v : Ref} (hv : h.Confined d (Node.ofRef v)) {n : Nat}
    (hn : d ≤ n) : atomsTo n h v = atomsTo d h v := by
  induction d generalizing n v with
  | zero =>
      rw [hv.ref_eq_none]
      cases n <;> rfl
  | succ d ih =>
      obtain ⟨n, rfl⟩ : ∃ k, n = k + 1 := ⟨n - 1, by omega⟩
      cases v with
      | none => rfl
      | some a =>
          obtain ⟨hcar, hcdr⟩ := hv.carCdr
          rw [atomsTo, atomsTo, ih hcar (by omega), ih hcdr (by omega)]

/-! ## Walks along lists -/

/-- Whether a list has no more than a given number of pairs. -/
def ListWithin (h : Heap) (d : Nat) (v : Ref) : Prop :=
  ∀ a ∈ v, EndsWithin (fun a => h.Has (.value a)) (fun a => (h.cell a).cdr.toList) d a

/-- Different cells are no more than the heap has. -/
theorem length_le_cells {l : List Addr} (hd : l.Nodup) (hl : ∀ a ∈ l, h.Has (.value a)) :
    l.length ≤ h.cells.size := by
  have hsub : l.Subperm ((List.range h.cells.size).map Addr.mk) :=
    hd.subperm fun a ha => List.mem_map.mpr ⟨a.index, List.mem_range.mpr (hl a ha), rfl⟩
  simpa using hsub.length_le

theorem mem_parts_of_cdr {a b : Addr} (hb : b ∈ (h.cell a).cdr.toList) :
    Node.value b ∈ h.parts (.value a) := by
  rw [Heap.parts]
  cases hcell : h.cell a with
  | released husk => simp [hcell, Cell.cdr] at hb
  | live datum =>
      rw [hcell] at hb
      cases datum with
      | pair car cdr =>
          refine List.mem_append_right _ (Node.mem_ofRef.mpr ⟨b, ?_, rfl⟩)
          simpa [Cell.cdr] using hb
      | _ => simp [Cell.cdr] at hb

/-- A list without cycles has no more pairs than the heap has cells. -/
theorem listWithin_of_acyclic (hb : h.Bounded) {v : Ref}
    (hv : ∀ n ∈ Node.ofRef v, h.Has n ∧ h.AcyclicFrom n) : h.ListWithin h.cells.size v := by
  intro a ha
  have hwithin : EndsWithin (fun a => h.Has (.value a) ∧ h.AcyclicFrom (.value a))
      (fun a => (h.cell a).cdr.toList) h.cells.size a := by
    refine endsWithin_of_acyclic ?_ ?_ ?_ (hv (.value a) (Node.mem_ofRef.mpr ⟨a, ha, rfl⟩))
    · intro a ha b hab
      have hpart := mem_parts_of_cdr hab
      exact ⟨hb _ _ hpart, ha.2.of_reaches (.of_part hpart)⟩
    · intro a ha hcycle
      exact ha.2 (.value a) (.refl _) (hcycle.lift Node.value fun _ _ hab => mem_parts_of_cdr hab)
    · exact fun l hd hl => length_le_cells hd fun a ha => (hl a ha).1
  exact hwithin.imp fun a ha => ha.1

theorem spineTo_of_listWithin {d : Nat} {v : Ref} (hv : h.ListWithin d v) {n : Nat} (hn : d ≤ n) :
    spineTo n h v = spineTo d h v := by
  induction d generalizing n v with
  | zero =>
      cases v with
      | none => cases n <;> rfl
      | some a => exact (hv a rfl).elim
  | succ d ih =>
      obtain ⟨n, rfl⟩ : ∃ k, n = k + 1 := ⟨n - 1, by omega⟩
      cases v with
      | none => rfl
      | some a =>
          have hcdr : h.ListWithin d (h.cell a).cdr := fun b hb =>
            (hv a rfl).2 b (Option.mem_toList.mpr hb)
          rw [spineTo, spineTo, ih hcdr (by omega)]

/-! ## Walks along chains -/

/-- A chain whose paths end is linked. -/
theorem Confined.exists_linked {d : Nat} {c : Chain} (hc : h.Confined d (Node.ofChain c)) :
    ∃ bs, h.Linked c bs := by
  induction d generalizing c with
  | zero => exact ⟨[], hc.chain_eq_none⟩
  | succ d ih =>
      cases c with
      | none => exact ⟨[], rfl⟩
      | some b =>
          obtain ⟨bs, hbs⟩ := ih hc.fields.2.2
          exact ⟨b :: bs, rfl, hc.has (by simp), hbs⟩

/-! ## All of them -/

/-- Whether the walks from a value end: with more steps than they are given they do the same. -/
structure WalksEnd (h : Heap) (v : Ref) : Prop where
  copy : ∀ n, h.depth ≤ n → copyTo n h v = h.copy v
  nodes : ∀ n, h.depth ≤ n → nodesTo n h v = h.nodes v
  view : ∀ n, h.depth ≤ n → viewTo n h v = h.view v
  spine : ∀ n, h.cells.size ≤ n → spineTo n h v = h.spine v
  atoms : ∀ n, h.depth ≤ n → atomsTo n h v = atomsTo h.depth h v

/--
Whether a chain ends, with its bindings all different, and with it the walks along the chain and
from what it binds.
-/
structure ChainEnds (h : Heap) (c : Chain) : Prop where
  linked : ∃ bs, h.Linked c bs ∧ bs.Nodup ∧ h.chain c = bs
  chain : ∀ n, h.bindings.size ≤ n → chainTo n h c = h.chain c
  find : ∀ n name, h.bindings.size ≤ n → findBindingTo n h c name = h.findBinding? c name
  upTo : ∀ n stop, h.bindings.size ≤ n → chainUntilTo n h c stop = h.chainUntil c stop
  copy : ∀ n, h.depth ≤ n → copyChainTo n h c = h.copyChain c
  view : ∀ n, h.depth ≤ n → viewChainTo n h c = h.viewChain c
  audit : ∀ n, h.depth ≤ n → auditChainTo n h "env" 0 c = h.audit c

/-- **Walks from a value end** where what it reaches has no cycle. -/
theorem walksEnd_of_acyclic (hb : h.Bounded) {v : Ref}
    (hv : ∀ n ∈ Node.ofRef v, h.Has n ∧ h.AcyclicFrom n) : h.WalksEnd v := by
  have hconf := AcyclicFrom.confined hb hv
  constructor
  · exact (copyTo_of_confined h.depth).1 h v hconf
  · intro n hn
    rw [Heap.nodes, (nodesTo_eq_walk h n).1, (nodesTo_eq_walk h h.depth).1]
    exact List.flatMap_congr fun k hk => walk_of_confined hconf hn hk
  · exact (viewTo_of_confined h.depth).1 v hconf
  · exact fun n hn => spineTo_of_listWithin (listWithin_of_acyclic hb hv) hn
  · exact fun n hn => atomsTo_of_confined hconf hn

/-- **A chain ends** where what it reaches has no cycle. -/
theorem chainEnds_of_acyclic (hb : h.Bounded) {c : Chain}
    (hc : ∀ n ∈ Node.ofChain c, h.Has n ∧ h.AcyclicFrom n) : h.ChainEnds c := by
  have hconf := AcyclicFrom.confined hb hc
  obtain ⟨bs, hbs⟩ := hconf.exists_linked
  have hchain : ∀ n, h.bindings.size ≤ n → chainTo n h c = h.chain c := by
    intro n hn
    rw [hbs.chain_eq]
    exact hbs.chainTo_eq (Nat.le_trans hbs.length_le hn)
  constructor
  · exact ⟨bs, hbs, hbs.nodup, hbs.chain_eq⟩
  · exact hchain
  · intro n name hn
    rw [findBindingTo_eq, findBinding?_eq, hchain n hn]
  · intro n stop hn
    rw [chainUntilTo_eq, chainUntil_eq, hchain n hn]
  · exact (copyTo_of_confined h.depth).2 h c hconf
  · exact (viewTo_of_confined h.depth).2 c hconf
  · exact fun n hn => (auditTo_of_confined h.depth).2 c hconf n "env" 0 hn

end ArenaLisp.Heap
