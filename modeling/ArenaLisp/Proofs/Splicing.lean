import ArenaLisp.Proofs.Entering
import ArenaLisp.Proofs.Faithful
import ArenaLisp.Proofs.Places
import ArenaLisp.Proofs.Walks

/-!
# Frames and splices on the heap

The values that have elements are the proper lists, and the pairs of a proper list are different,
so the walk along it, which is given as many steps as there are cells, comes to its end. A frame is
made of two proper lists of one length; its bindings are new, and the chain behind them is the base
itself.

Splicing changes the last link of the chain in front. The chain behind is kept where it has no
binding of the one in front, and a name is looked up in front first. It need not end: the steps
that the front leaves over are as many as there are bindings to come to.
-/

namespace ArenaLisp

namespace Heap

variable {h h' : Heap}

/-! ## Proper lists -/

/-- Whether a value is a proper list, with its elements in order. -/
inductive Lists (h : Heap) : Ref → List Ref → Prop
  | nil {v : Ref} (hnil : h.isNil v = true) : Lists h v []
  | cons {a : Addr} {vs : List Ref} (hpair : (h.cell a).kind = .pair)
      (hnil : (h.cell a).isNil = false) (hrest : Lists h (h.cell a).cdr vs) :
      Lists h (some a) ((h.cell a).car :: vs)

/-- A list has its elements in one order only. -/
theorem Lists.unique {v : Ref} {vs ws : List Ref} (hv : h.Lists v vs) (hw : h.Lists v ws) :
    vs = ws := by
  induction hv generalizing ws with
  | nil hnil =>
      cases hw with
      | nil _ => rfl
      | cons _ hnot _ => exact absurd hnil (ne_true_of_eq_false hnot)
  | cons _ hnot _ ih =>
      cases hw with
      | nil hnil => exact absurd hnil (ne_true_of_eq_false hnot)
      | cons _ _ hrest => rw [ih hrest]

/-- The pairs of a proper list are different: the list from each of them on is shorter. -/
theorem Lists.exists_pairs {v : Ref} {vs : List Ref} (hv : h.Lists v vs) :
    ∃ as : List Addr, as.length = vs.length ∧ as.Nodup ∧
      ∀ a ∈ as, h.Has (.value a) ∧ ∃ ws, h.Lists (some a) ws ∧ ws.length ≤ vs.length := by
  induction hv with
  | nil _ => exact ⟨[], rfl, List.nodup_nil, nofun⟩
  | @cons a vs hpair hnot hrest ih =>
      obtain ⟨as, hlength, hnodup, has⟩ := ih
      refine ⟨a :: as, by simp [hlength], List.nodup_cons.mpr ⟨fun ha => ?_, hnodup⟩, ?_⟩
      · obtain ⟨-, ws, hws, hle⟩ := has a ha
        rw [hws.unique (.cons hpair hnot hrest), List.length_cons] at hle
        omega
      · intro b hb
        rcases List.mem_cons.mp hb with rfl | hb
        · refine ⟨Classical.byContradiction fun hout => ?_, _, .cons hpair hnot hrest, le_rfl⟩
          rw [cell_of_not_has hout] at hpair
          cases hpair
        · obtain ⟨hhas, ws, hws, hle⟩ := has b hb
          exact ⟨hhas, ws, hws, Nat.le_succ_of_le hle⟩

theorem Lists.spineTo_eq {v : Ref} {vs : List Ref} (hv : h.Lists v vs) {n : Nat}
    (hn : vs.length ≤ n) : (spineTo n h v).1 = vs ∧ h.isNil (spineTo n h v).2 = true := by
  induction hv generalizing n with
  | @nil v hnil =>
      cases v with
      | none => cases n <;> exact ⟨rfl, rfl⟩
      | some a =>
          have hstop : ((h.cell a).kind == .pair && !(h.cell a).isNil) = false := by
            rw [show (h.cell a).isNil = true from hnil]
            simp
          rw [spineTo_stop hstop]
          exact ⟨rfl, hnil⟩
  | cons hpair hnot _ ih =>
      obtain ⟨n, rfl⟩ : ∃ k, n = k + 1 := ⟨n - 1, by simp at hn; omega⟩
      obtain ⟨hcars, htail⟩ := ih (Nat.le_of_succ_le_succ hn)
      rw [spineTo, hpair, hnot]
      exact ⟨congrArg _ hcars, htail⟩

theorem lists_of_spineTo {n : Nat} {v : Ref} (hnil : h.isNil (spineTo n h v).2 = true) :
    h.Lists v (spineTo n h v).1 := by
  induction n generalizing v with
  | zero => exact .nil hnil
  | succ n ih =>
      cases v with
      | none => exact .nil rfl
      | some a =>
          rw [spineTo] at hnil ⊢
          split
          · rename_i hpair
            rw [if_pos hpair] at hnil
            simp only [Bool.and_eq_true, beq_iff_eq, Bool.not_eq_true'] at hpair
            exact .cons hpair.1 hpair.2 (ih hnil)
          · rename_i hstop
            rw [if_neg hstop] at hnil
            exact .nil hnil

/-- **The elements read off a value are those of a proper list.** -/
theorem elements?_eq_some_iff {v : Ref} {vs : List Ref} :
    h.elements? v = some vs ↔ h.Lists v vs := by
  constructor
  · intro hvs
    obtain ⟨rfl, hnil⟩ := spine_of_elements? hvs
    exact lists_of_spineTo hnil
  · intro hv
    obtain ⟨as, hlength, hnodup, has⟩ := hv.exists_pairs
    have hle := length_le_cells hnodup fun a ha => (has a ha).1
    obtain ⟨hcars, hnil⟩ := hv.spineTo_eq (hlength ▸ hle)
    rw [elements?, spine]
    simp only [hnil, if_true, hcars]

theorem elements?_eq_none_iff {v : Ref} : h.elements? v = none ↔ ¬∃ vs, h.Lists v vs := by
  simp only [← elements?_eq_some_iff, ← Option.isSome_iff_exists, Option.not_isSome_iff_eq_none]

/-! ## Frames -/

theorem Fronts.keepsChain {pairs : List (Ref × Ref)} {base c d : Chain} {fs : List BindingId}
    (hf : h.Fronts h' pairs base c fs) (hd : h.HasChain d) : h.KeepsChain h' d :=
  ⟨hf.cells, hf.grown.bindings_le, fun b hb => hf.grown.binding b (hd b hb)⟩

theorem bindFrame_of_names {names : Ref} (hnames : ¬∃ ns, h.Lists names ns) (values : Ref)
    (base : Chain) :
    h.bindFrame names values base = (.error (.frameNames (h.view names)), h) := by
  rw [bindFrame, elements?_eq_none_iff.mpr hnames]

theorem bindFrame_of_values {names values : Ref} {ns : List Ref} (hns : h.Lists names ns)
    (hvalues : ¬∃ vs, h.Lists values vs) (base : Chain) :
    h.bindFrame names values base = (.error (.frameValues (h.view values)), h) := by
  rw [bindFrame, elements?_eq_some_iff.mpr hns, elements?_eq_none_iff.mpr hvalues]

theorem bindFrame_of_lists {names values : Ref} {ns vs : List Ref} (hns : h.Lists names ns)
    (hvs : h.Lists values vs) (base : Chain) :
    h.bindFrame names values base =
      if ns.length = vs.length then
        (.ok (h.putAll (ns.zip vs) base).1, (h.putAll (ns.zip vs) base).2)
      else (.error (.argumentCount ns.length vs.length), h) := by
  rw [bindFrame, elements?_eq_some_iff.mpr hns, elements?_eq_some_iff.mpr hvs]

/-! ## Splices -/

section

variable {front back : Chain} {fs : List BindingId}

theorem join_none (h : Heap) (back : Chain) : h.join none back = (back, h) := by
  rw [join, (show h.Linked none [] from rfl).chain_eq]
  rfl

theorem join_fst (hf : h.Linked front fs) (hne : fs ≠ []) (back : Chain) :
    (h.join front back).1 = front := by
  rw [join, hf.chain_eq, List.getLast?_eq_some_getLast hne]

theorem join_keepsChain (hf : h.Linked front fs) (hdisj : ∀ b ∈ fs, ¬h.InChain back b) :
    h.KeepsChain (h.join front back).2 back where
  cells := join_cells h front back
  bindings_le := Nat.le_of_eq (join_bindings_size h front back).symm
  binding b hb := by
    refine join_agreeAt (n := .binding b) fun b' hb' heq => ?_
    cases heq
    rw [hf.chain_eq] at hb'
    exact hdisj b hb' hb

theorem join_boundName? (hf : h.Linked front fs) {b : BindingId} (hb : b ∈ fs) :
    (h.join front back).2.boundName? b = h.boundName? b := by
  rw [boundName?, boundName?, (join_fields front back (hf.has hb)).1, cell?, cell?]
  congr 2
  funext a
  rw [cell, cell, join_cells]

theorem Stretch.findBindingTo_eq {c d : Chain} {bs : List BindingId} (hs : h.Stretch c bs d)
    {n : Nat} (hn : bs.length ≤ n) (name : String) :
    findBindingTo n h c name = (bs.find? fun b => h.boundName? b == some name).or
      (findBindingTo (n - bs.length) h d name) := by
  induction bs generalizing c n with
  | nil => rw [show c = d from hs]; rfl
  | cons b bs ih =>
      obtain ⟨rfl, -, hrest⟩ := hs
      obtain ⟨n, rfl⟩ : ∃ k, n = k + 1 := ⟨n - 1, by simp at hn; omega⟩
      rw [findBindingTo, List.find?_cons, ih hrest (by simpa using hn), List.length_cons,
        Nat.add_sub_add_right]
      cases h.boundName? b == some name <;> rfl

/-- **The first binding of a name in a spliced chain** is that in front, if there is one, else that
in the other chain, which may have no end. -/
theorem join_findBinding? (hf : h.Linked front fs) (hback : h.HasChain back)
    (hdisj : ∀ b ∈ fs, ¬h.InChain back b) (name : String) :
    (h.join front back).2.findBinding? (h.join front back).1 name =
      (h.findBinding? front name).or (h.findBinding? back name) := by
  have hkept := join_keepsChain hf hdisj
  -- the bindings in front take their share of the steps, and the others need no more than the rest
  have hrest : ∀ l : List BindingId, l.Nodup → (∀ b ∈ l, h.InChain back b) →
      l.length ≤ h.bindings.size - fs.length := by
    intro l hd hl
    have hnodup : (l ++ fs).Nodup :=
      List.nodup_append.mpr ⟨hd, hf.nodup, fun b hb b' hb' heq => hdisj b' hb' (heq ▸ hl b hb)⟩
    have hle := length_le_bindings (h := h) hnodup fun b hb =>
      (List.mem_append.mp hb).elim (fun hb => hback b (hl b hb)) hf.has
    rw [List.length_append] at hle
    omega
  have hfind : (fs.find? fun b => (h.join front back).2.boundName? b == some name) =
      h.findBinding? front name := by
    rw [findBinding?_eq, hf.chain_eq, ← List.head?_filter, ← List.head?_filter]
    exact congrArg _ (List.filter_congr fun b hb => by rw [join_boundName? hf hb])
  rw [findBinding?, join_bindings_size, (join_stretch hf back).findBindingTo_eq hf.length_le, hfind,
    hkept.findBindingTo_eq, ← findBindingTo_eq_of_le hrest (Nat.sub_le _ _)]
  rfl

theorem join_lookup? (hf : h.Linked front fs) (hback : h.HasChain back)
    (hdisj : ∀ b ∈ fs, ¬h.InChain back b) (name : String) :
    (h.join front back).2.lookup? (h.join front back).1 name =
      (h.lookup? front name).or (h.lookup? back name) := by
  rw [lookup?, lookup?, join_findBinding? hf hback hdisj]
  cases hfind : h.findBinding? front name with
  | some b =>
      have hb : b ∈ fs := hf.chain_eq ▸ mem_of_findBinding? hfind
      rw [Option.some_or, Option.map_some, Option.map_some, Option.some_or,
        (join_fields front back (hf.has hb)).2.1]
  | none =>
      rw [Option.none_or, Option.map_none, Option.none_or,
        ← (join_keepsChain hf hdisj).lookup?_eq hback, lookup?,
        (join_keepsChain hf hdisj).findBinding?_eq hback]

end

end Heap

end ArenaLisp
