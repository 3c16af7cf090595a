import ArenaLisp.Proofs.Duplication
import ArenaLisp.Proofs.Entering
import ArenaLisp.Proofs.Evaluation

/-!
# What a closure captures

A closure is made of copies: of its parameters, of its body, and of the first binding of each name
that stands in the body, is not a parameter and is bound where the closure is made. Each such name
is captured once, in front of those that the body has before it.

The names are collected in the copy of the body, by a walk that goes through pairs from left to
right and sees atoms only, released or not. Since a copy resembles what it was made from, these are
the names of the body itself. The environment and what it binds are not touched by the copies made
so far, so the binding that is found for a name is the one that was there from the beginning.
-/

namespace ArenaLisp

/-! ## Names in the order of their first occurrence -/

/-- Which names are kept does not depend on what is said of them, only which of them are left. -/
theorem filter_eraseDups (p : String → Bool) (l : List String) :
    (l.filter p).eraseDups = l.eraseDups.filter p := by
  cases l with
  | nil => rfl
  | cons a l =>
      have hrest := filter_eraseDups p (l.filter fun b => !b == a)
      rw [List.eraseDups_cons]
      by_cases ha : p a = true
      · rw [List.filter_cons_of_pos ha, List.filter_cons_of_pos ha, List.eraseDups_cons, ← hrest,
          List.filter_filter, List.filter_filter]
        simp only [Bool.and_comm]
      · rw [List.filter_cons_of_neg ha, List.filter_cons_of_neg ha, ← hrest, List.filter_filter]
        refine congrArg _ (List.filter_congr fun b _ => ?_)
        by_cases hb : b = a
        · simp [hb, ha]
        · simp [hb]
termination_by l.length
decreasing_by exact Nat.lt_succ_of_le (List.length_filter_le _ _)

theorem nodup_eraseDups (l : List String) : l.eraseDups.Nodup := by
  cases l with
  | nil => exact List.nodup_nil
  | cons a l =>
      rw [List.eraseDups_cons]
      refine List.nodup_cons.mpr ⟨fun ha => ?_, nodup_eraseDups (l.filter fun b => !b == a)⟩
      simp [List.mem_eraseDups] at ha
termination_by l.length
decreasing_by exact Nat.lt_succ_of_le (List.length_filter_le _ _)

/-- The names of the atoms of a tree from left to right, released or not. -/
def Tree.mentions : Tree → List String
  | .atom name => [name]
  | .released (.atom name) => [name]
  | .pair car cdr => car.mentions ++ cdr.mentions
  | _ => []

theorem Tree.mentions_unmarked : ∀ t : Tree, t.unmarked.mentions = t.mentions
  | .pair car cdr => by
      rw [Tree.unmarked, Tree.mentions, Tree.mentions, car.mentions_unmarked, cdr.mentions_unmarked]
  | .absent | .released _ | .atom _ | .number _ | .primitive _ | .closure _ _ _ | .unknown _ => rfl

namespace Heap

variable {h h' : Heap}

/-- The names along a list. -/
def listedNames (h : Heap) (v : Ref) : List String :=
  (h.spine v).1.filterMap fun p => (h.cell? p).map Cell.name

/-- Whether an atom of a name stands at the end of a path through the fields of pairs. -/
def AtomAt (h : Heap) (v : Ref) (path : List Field) (name : String) : Prop :=
  (∀ f ∈ path, f = .car ∨ f = .cdr) ∧ ∃ n ∈ Node.ofRef v, ∃ a, h.Leads n path (.value a) ∧
    (h.cell a).kind = .atom ∧ (h.cell a).name = name

theorem atomsTo_none (n : Nat) : atomsTo n h none = [] := by cases n <;> rfl

/-- Collecting the names of a value collects those of the tree it unfolds into. -/
theorem atomsTo_eq_mentions (n : Nat) (v : Ref) : atomsTo n h v = (viewTo n h v).mentions := by
  induction n generalizing v with
  | zero => cases v <;> rfl
  | succ n ih =>
      cases v with
      | none => rfl
      | some a =>
          rw [atomsTo, viewTo]
          cases hcell : h.cell a with
          | released husk =>
              cases husk with
              | atom name => rfl
              | number x => cases x <;> simp [Cell.kind, Cell.husk, Husk.kind, Number.kind,
                  Cell.car, Cell.cdr, atomsTo_none, Tree.mentions]
              | _ => simp [Cell.kind, Cell.husk, Husk.kind, Cell.car, Cell.cdr, atomsTo_none,
                  Tree.mentions]
          | live d =>
              cases d with
              | atom name => rfl
              | pair car cdr => simp [Cell.kind, Cell.husk, Datum.husk, Husk.kind, Cell.car,
                  Cell.cdr, Tree.mentions, ih]
              | number x => cases x <;> simp [Cell.kind, Cell.husk, Datum.husk, Husk.kind,
                  Number.kind, Cell.car, Cell.cdr, atomsTo_none, Tree.mentions]
              | _ => simp [Cell.kind, Cell.husk, Datum.husk, Husk.kind, Cell.car, Cell.cdr,
                  atomsTo_none, Tree.mentions]

theorem mem_fields_car {a : Addr} {l : Node} :
    (Field.car, l) ∈ h.fields (.value a) ↔ l ∈ Node.ofRef (h.cell a).car := by
  rw [Heap.fields]
  cases h.cell a with
  | released husk => simp [Cell.car]
  | live d => cases d <;> simp [Datum.fields, Cell.car]

theorem mem_fields_cdr {a : Addr} {l : Node} :
    (Field.cdr, l) ∈ h.fields (.value a) ↔ l ∈ Node.ofRef (h.cell a).cdr := by
  rw [Heap.fields]
  cases h.cell a with
  | released husk => simp [Cell.cdr]
  | live d => cases d <;> simp [Datum.fields, Cell.cdr]

/-- A path leads on from an atom to nothing. -/
theorem fields_of_atom {a : Addr} (ha : (h.cell a).kind = .atom) : h.fields (.value a) = [] := by
  rw [Heap.fields]
  cases hcell : h.cell a with
  | released husk => rfl
  | live d =>
      rw [hcell] at ha
      cases d with
      | pair car cdr => cases ha
      | closure c => cases ha
      | _ => rfl

/-- The names that are collected are those of the atoms that stand somewhere. -/
theorem mem_atomsTo {d : Nat} {v : Ref} (hv : h.Confined d (Node.ofRef v)) {name : String} :
    name ∈ atomsTo d h v ↔ ∃ path, h.AtomAt v path name := by
  induction d generalizing v with
  | zero =>
      rw [hv.ref_eq_none]
      simp [atomsTo, AtomAt]
  | succ d ih =>
      cases v with
      | none => simp [atomsTo, AtomAt]
      | some a =>
          obtain ⟨hcar, hcdr⟩ := hv.carCdr
          rw [atomsTo]
          by_cases hatom : (h.cell a).kind = .atom
          · simp only [hatom, beq_self_eq_true, if_true, List.mem_singleton]
            constructor
            · intro hname
              refine ⟨[], ?_, .value a, by simp, a, rfl, hatom, hname.symm⟩
              exact fun _ hf => absurd hf List.not_mem_nil
            · rintro ⟨path, -, n, hn, b, hlead, -, hname⟩
              rw [List.mem_singleton.mp hn] at hlead
              cases path with
              | nil =>
                  cases hlead
                  exact hname.symm
              | cons f path =>
                  obtain ⟨l, hl, -⟩ := hlead
                  rw [fields_of_atom hatom] at hl
                  cases hl
          · have hne : ((h.cell a).kind == Kind.atom) = false := by simpa using hatom
            simp only [hne, Bool.false_eq_true, if_false, List.mem_append, ih hcar, ih hcdr]
            constructor
            · rintro (⟨path, hpath, n, hn, b, hlead, hkind⟩ | ⟨path, hpath, n, hn, b, hlead, hkind⟩)
              · refine ⟨.car :: path, ?_, .value a, by simp, b, ⟨n, mem_fields_car.mpr hn, hlead⟩,
                  hkind⟩
                simpa using hpath
              · refine ⟨.cdr :: path, ?_, .value a, by simp, b, ⟨n, mem_fields_cdr.mpr hn, hlead⟩,
                  hkind⟩
                simpa using hpath
            · rintro ⟨path, hpath, n, hn, b, hlead, hkind, hname⟩
              rw [List.mem_singleton.mp hn] at hlead
              cases path with
              | nil =>
                  cases hlead
                  exact absurd hkind hatom
              | cons f path =>
                  obtain ⟨l, hl, hlead⟩ := hlead
                  obtain ⟨hf, hrest⟩ := List.forall_mem_cons.mp hpath
                  rcases hf with rfl | rfl
                  · exact Or.inl ⟨path, hrest, l, mem_fields_car.mp hl, b, hlead, hkind, hname⟩
                  · exact Or.inr ⟨path, hrest, l, mem_fields_cdr.mp hl, b, hlead, hkind, hname⟩

/-! ## Values that resemble each other have the same names -/

theorem Cell.kind_eq_of_bare {c c' : Cell} (hc : c'.bare = c.bare) :
    c'.kind = c.kind ∧ c'.name = c.name := by
  rcases Cell.bare_cases hc with ⟨_, _, _, _, rfl, rfl⟩ | ⟨_, _, rfl, rfl⟩ | ⟨rfl, -⟩ <;>
    exact ⟨rfl, rfl⟩

theorem cell?_name_of_alike {v v' : Ref} (hv : h.Alike h' (Node.ofRef v) (Node.ofRef v')) :
    (h'.cell? v').map Cell.name = (h.cell? v).map Cell.name := by
  rcases hv.ref_cases with ⟨rfl, rfl⟩ | ⟨a, a', rfl, rfl, -, hbare⟩
  · rfl
  · exact congrArg some (Cell.kind_eq_of_bare hbare).2

theorem isNone_of_alike {v v' : Ref} (hv : h.Alike h' (Node.ofRef v) (Node.ofRef v')) :
    v'.isNone = v.isNone := by
  rcases hv.ref_cases with ⟨rfl, rfl⟩ | ⟨a, a', rfl, rfl, -⟩ <;> rfl

/-- Only pairs that are not released go on along a list. -/
theorem stops_of_not_pair {c : Cell} (hc : ∀ car cdr, c ≠ .live (.pair car cdr)) :
    (c.kind == .pair && !c.isNil) = false := by
  cases c with
  | released husk =>
      cases husk with
      | number x => cases x <;> rfl
      | _ => rfl
  | live d =>
      cases d with
      | pair car cdr => exact absurd rfl (hc car cdr)
      | number x => cases x <;> rfl
      | _ => rfl

/-- Lists that resemble each other have the same names along them. -/
theorem spineTo_of_alike (n : Nat) {v v' : Ref}
    (hv : h.Alike h' (Node.ofRef v) (Node.ofRef v')) :
    (spineTo n h' v').1.map (fun p => (h'.cell? p).map Cell.name) =
      (spineTo n h v).1.map fun p => (h.cell? p).map Cell.name := by
  induction n generalizing v v' with
  | zero => rfl
  | succ n ih =>
      rcases hv.ref_cases with ⟨rfl, rfl⟩ | ⟨a, a', rfl, rfl, hn, hbare⟩
      · rfl
      · rw [spineTo, spineTo]
        rcases Cell.bare_cases hbare with
          ⟨car, cdr, car', cdr', hcell, hcell'⟩ | ⟨c, c', hcell, hcell'⟩ | ⟨heq, hpair, -⟩
        · obtain ⟨hcar, hcdr⟩ := hn.pair_fields hcell hcell'
          have hnil : Cell.isNil (.live (.pair car' cdr')) =
              Cell.isNil (.live (.pair car cdr)) := by
            simp only [Cell.isNil, Cell.car, Cell.cdr, isNone_of_alike hcar, isNone_of_alike hcdr]
            rfl
          have hkind : Cell.kind (.live (.pair car' cdr')) =
              Cell.kind (.live (.pair car cdr)) := rfl
          simp only [hcell, hcell', hkind, hnil]
          split
          · simp only [List.map_cons, Cell.car, Cell.cdr, cell?_name_of_alike hcar, ih hcdr]
          · rfl
        · simp only [hcell, hcell']
          rfl
        · simp only [heq, stops_of_not_pair hpair, Bool.false_eq_true, if_false, List.map_nil]

theorem listedNames_of_alike {v v' : Ref} (hv : h.Alike h' (Node.ofRef v) (Node.ofRef v'))
    (hends : h.WalksEnd v) (hd : h.cells.size ≤ h'.cells.size) :
    h'.listedNames v' = h.listedNames v := by
  have hnames := spineTo_of_alike h'.cells.size hv
  rw [hends.spine _ hd] at hnames
  have hsplit : ∀ (g : Heap) (vs : List Ref), (vs.filterMap fun p => (g.cell? p).map Cell.name) =
      (vs.map fun p => (g.cell? p).map Cell.name).filterMap id := by
    intro g vs
    rw [List.filterMap_map]
    rfl
  rw [listedNames, listedNames, hsplit, hsplit]
  exact congrArg _ hnames

/-- The names that are free in copies of an expression are those of the expression. -/
theorem freeNames_of_alike {params params' body body' : Ref}
    (hparams : h.Alike h' (Node.ofRef params) (Node.ofRef params'))
    (hbody : h.Alike h' (Node.ofRef body) (Node.ofRef body')) (he : h.Extends h')
    (hends : h.WalksEnd params) (hends' : h.WalksEnd body) :
    h'.freeNames params' body' = (h.view body).mentions.eraseDups.filter fun name =>
      !(h.listedNames params).contains name := by
  have hatoms : atomsTo h'.depth h' body' = (h.view body).mentions := by
    rw [atomsTo_eq_mentions, ← Tree.mentions_unmarked, ← Tree.mentions_unmarked (h.view body)]
    exact congrArg _ (hbody.view_eq hends' he.depth_le)
  have hlisted := listedNames_of_alike hparams hends he.cells_le
  rw [← filter_eraseDups, freeNames, hatoms]
  exact congrArg (fun names : List String =>
    ((h.view body).mentions.filter fun name => !names.contains name).eraseDups) hlisted

/-! ## Captured bindings -/

theorem Bounded.boundName?_eq (hb : h.Bounded) (he : h.Extends h') {b : BindingId}
    (hhas : h.Has (.binding b)) : h'.boundName? b = h.boundName? b := by
  rw [boundName?, boundName?, he.binding b hhas]
  cases hname : (h.binding b).name with
  | none => rfl
  | some a =>
      have ha : h.Has (.value a) := hb (.binding b) _ (List.mem_append_left _ (by simp [hname]))
      exact congrArg (fun c : Cell => some c.name) (he.cell a ha)

/-- What was made since does not hide a name that was bound, nor bind another. -/
theorem Bounded.findBinding?_eq (hb : h.Bounded) (he : h.Extends h') {c : Chain}
    {bs : List BindingId} (hc : h.Linked c bs) (name : String) :
    h'.findBinding? c name = h.findBinding? c name := by
  refine findBinding?_congr ((he.linked hc).chain_eq.trans hc.chain_eq.symm) (fun b hmem => ?_) name
  rw [hc.chain_eq] at hmem
  exact hb.boundName?_eq he (hc.has hmem)

/--
Whether a binding has copies of the name and the value of the first binding of a name in an
environment.
-/
structure Catches (h h' : Heap) (ambient : Chain) (name : String) (b : BindingId) : Prop where
  bound : h'.boundName? b = some name
  copied : ∃ b₀, h.findBinding? ambient name = some b₀ ∧
    h.Duplicates (Node.ofRef (h.binding b₀).name) h' (Node.ofRef (h'.binding b).name) ∧
    h.Duplicates (Node.ofRef (h.binding b₀).value) h' (Node.ofRef (h'.binding b).value)

/-- Whether a chain catches names, each behind those that come after it. -/
structure CatchesAll (h h' : Heap) (ambient captured : Chain) (names : List String) : Prop where
  grown : h.Extends h'
  chain : ∃ bs, h'.Linked captured bs ∧ List.Forall₂ (h.Catches h' ambient) names.reverse bs

/-- A binding that has copies has them still when the heap grows. -/
theorem Catches.keep {h'' : Heap} {ambient : Chain} {name : String} {b : BindingId}
    (hc : h.Catches h' ambient name b) (hhas : h'.Has (.binding b)) (he : h'.Extends h'') :
    h.Catches h'' ambient name b := by
  obtain ⟨b₀, hfind, hname, hvalue⟩ := hc.copied
  have hname' := hname.keep he
  have hvalue' := hvalue.keep he
  rw [← he.binding b hhas] at hname' hvalue'
  refine ⟨?_, b₀, hfind, hname', hvalue'⟩
  -- the name of a copied binding is that of the binding it was copied from
  rw [boundName?, cell?_name_of_alike hname'.alike, ← cell?_name_of_alike hname.alike]
  exact hc.bound

theorem CatchesAll.keep {h'' : Heap} {ambient captured : Chain} {names : List String}
    (hc : h.CatchesAll h' ambient captured names) (he : h'.Extends h'') :
    h.CatchesAll h'' ambient captured names where
  grown := hc.grown.trans he
  chain := by
    obtain ⟨bs, hbs, hcatch⟩ := hc.chain
    refine ⟨bs, he.linked hbs, ?_⟩
    refine List.forall₂_iff_zip.mpr ⟨hcatch.length_eq, fun {name b} hb => ?_⟩
    exact (List.forall₂_zip hcatch hb).keep (hbs.has (List.of_mem_zip hb).2) he

/-- What a binding of an environment refers to is reached without cycles, if the environment is. -/
theorem Linked.acyclic_part {c : Chain} {bs : List BindingId} (hb : h.Bounded) (hbs : h.Linked c bs)
    (hc : ∀ n ∈ Node.ofChain c, h.Has n ∧ h.AcyclicFrom n) {b : BindingId} (hmem : b ∈ bs)
    {n : Node} (hn : n ∈ (h.binding b).parts) : h.Has n ∧ h.AcyclicFrom n := by
  obtain ⟨p, hp, hr⟩ := hbs.reaches hmem
  have hpart : n ∈ h.parts (.binding b) := hn
  exact ⟨hb _ n hpart, (hc p hp).2.of_reaches (hr.trans (.of_part hpart))⟩

/-- A copy made later is a copy of what was there from the beginning. -/
theorem copy_duplicates_since {h₀ : Heap} (hb : h₀.Bounded) (he : h₀.Extends h) {v : Ref}
    (hv : ∀ n ∈ Node.ofRef v, h₀.Has n ∧ h₀.AcyclicFrom n) :
    h₀.Duplicates (Node.ofRef v) (h.copy v).2 (Node.ofRef (h.copy v).1) := by
  have hconf := AcyclicFrom.confined hb hv
  have hdup := (copyTo_duplicates h₀.depth).1 h v (hconf.of_extends he) h.depth he.depth_le
  exact hdup.since he hconf

/-- **One more name is caught**: its binding is put in front, made of copies. -/
theorem CatchesAll.put {h₀ h₁ : Heap} {ambient captured : Chain} {names : List String}
    (hc : h₀.CatchesAll h ambient captured names) {name : String} {b₀ : BindingId}
    (hfind : h₀.findBinding? ambient name = some b₀) {boundName value : Ref}
    (he : h.Extends h₁)
    (hname : h₀.Duplicates (Node.ofRef (h₀.binding b₀).name) h₁ (Node.ofRef boundName))
    (hvalue : h₀.Duplicates (Node.ofRef (h₀.binding b₀).value) h₁ (Node.ofRef value)) :
    h₀.CatchesAll (h₁.put boundName value captured).2 ambient (h₁.put boundName value captured).1
      (names ++ [name]) := by
  have hput := extends_put h₁ boundName value captured
  obtain ⟨bs, hbs, hcatch⟩ := (hc.keep (he.trans hput)).chain
  obtain ⟨bs', hbs', -⟩ := (hc.keep he).chain
  obtain rfl := (hput.linked hbs').unique hbs
  refine ⟨hc.grown.trans (he.trans hput), _, linked_put boundName value hbs', ?_⟩
  rw [List.reverse_append, List.reverse_singleton, List.singleton_append]
  refine .cons ⟨?_, b₀, hfind, ?_, ?_⟩ hcatch
  · rw [boundName?, binding_put, cell?_name_of_alike (hname.keep hput).alike]
    exact (findBinding?_eq_some hfind).2
  · rw [binding_put]
    exact hname.keep hput
  · rw [binding_put]
    exact hvalue.keep hput

/-- What is captured is made of new nodes, and is a tree. -/
theorem capture_trees {h₀ : Heap} (ambient : Chain) (names : List String) {captured : Chain}
    (hc : h₀.CopiesTrees h (Node.ofChain captured)) :
    h₀.CopiesTrees (h.capture ambient names captured).2
      (Node.ofChain (h.capture ambient names captured).1) := by
  induction names generalizing h captured with
  | nil => exact hc
  | cons name names ih =>
      rw [capture]
      cases h.findBinding? ambient name with
      | none => exact ih hc
      | some b =>
          have hname := copy_trees h (h.binding b).name
          have hcopies := hname.append (copy_trees _ (h.binding b).value)
          refine ih (CopiesTrees.put _ _ captured ((hc.append hcopies).perm ?_))
          rw [Binding.parts, ← List.append_assoc (Node.ofRef _)]
          exact List.perm_append_comm

/-- **Capturing catches the names that are bound**, one after the other. -/
theorem capture_catches {h₀ : Heap} (hb : h₀.Bounded) {ambient : Chain}
    (hambient : ∀ n ∈ Node.ofChain ambient, h₀.Has n ∧ h₀.AcyclicFrom n) (names : List String)
    {captured : Chain} {caught : List String} (hc : h₀.CatchesAll h ambient captured caught) :
    h₀.CatchesAll (h.capture ambient names captured).2 ambient
      (h.capture ambient names captured).1
      (caught ++ names.filter fun name => (h₀.findBinding? ambient name).isSome) := by
  obtain ⟨env, henv⟩ := (AcyclicFrom.confined hb hambient).exists_linked
  induction names generalizing h captured caught with
  | nil =>
      rw [List.filter_nil, List.append_nil]
      exact hc
  | cons name names ih =>
      have hgrown := hc.grown
      rw [capture, hb.findBinding?_eq hgrown henv name]
      cases hfind : h₀.findBinding? ambient name with
      | none =>
          rw [List.filter_cons_of_neg (by simp [hfind])]
          exact ih hc
      | some b₀ =>
          rw [List.filter_cons_of_pos (by simp [hfind]), ← List.singleton_append,
            ← List.append_assoc]
          have hmem : b₀ ∈ env := henv.chain_eq ▸ mem_of_findBinding? hfind
          have hparts := fun n (hn : n ∈ (h₀.binding b₀).parts) =>
            henv.acyclic_part hb hambient hmem hn
          have hname := copy_trees h (h₀.binding b₀).name
          have hvalue := copy_trees (h.copy (h₀.binding b₀).name).2 (h₀.binding b₀).value
          dsimp only
          rw [hgrown.binding b₀ (henv.has hmem)]
          refine ih (hc.put hfind (hname.grown.trans hvalue.grown) ?_ ?_)
          · refine (copy_duplicates_since hb hgrown fun n hn => hparts n ?_).keep hvalue.grown
            exact List.mem_append_left _ hn
          · refine copy_duplicates_since hb (hgrown.trans hname.grown) fun n hn => hparts n ?_
            exact List.mem_append_right _ (List.mem_append_left _ hn)

/-! ## Closures -/

/-- The names that a closure captures, in the order in which its body has them first. -/
def namesToCapture (h : Heap) (params body : Ref) (ambient : Chain) : List String :=
  (h.view body).mentions.eraseDups.filter fun name =>
    !(h.listedNames params).contains name && (h.findBinding? ambient name).isSome

theorem nodup_namesToCapture (h : Heap) (params body : Ref) (ambient : Chain) :
    (h.namesToCapture params body ambient).Nodup :=
  (nodup_eraseDups _).filter _

/-- The names to capture are those that stand in the body, are bound and are no parameters. -/
theorem mem_namesToCapture (hb : h.Bounded) {params body : Ref} {ambient : Chain}
    (hbody : ∀ n ∈ Node.ofRef body, h.Has n ∧ h.AcyclicFrom n) {name : String} :
    name ∈ h.namesToCapture params body ambient ↔ (∃ path, h.AtomAt body path name) ∧
      name ∉ h.listedNames params ∧ ∃ b ∈ h.chain ambient, h.boundName? b = some name := by
  have hmentions : name ∈ (h.view body).mentions ↔ ∃ path, h.AtomAt body path name := by
    rw [← mem_atomsTo (AcyclicFrom.confined hb hbody), atomsTo_eq_mentions]
    rfl
  have hbound : (h.findBinding? ambient name).isSome ↔
      ∃ b ∈ h.chain ambient, h.boundName? b = some name := by
    simp [findBinding?_eq, List.find?_isSome]
  simp only [namesToCapture, List.mem_filter, List.mem_eraseDups, hmentions, Bool.and_eq_true,
    hbound, Bool.not_eq_true', List.contains_eq_mem, decide_eq_false_iff_not]

/-- Whether a closure was made of an expression in an environment, out of copies alone. -/
structure ClosesOver (h h' : Heap) (params body : Ref) (ambient : Chain) (a : Addr) (c : Closure) :
    Prop where
  cell : h'.cell a = .live (.closure c)
  /-- All of the closure is new, and nothing that was there has changed. -/
  trees : h.CopiesTrees h' [.value a]
  copiesParams : h.Duplicates (Node.ofRef params) h' (Node.ofRef c.params)
  copiesBody : h.Duplicates (Node.ofRef body) h' (Node.ofRef c.body)
  catches : h.CatchesAll h' ambient c.captured (h.namesToCapture params body ambient)

theorem newClosure_closesOver (hb : h.Bounded) {params body : Ref} {ambient : Chain}
    (hparams : ∀ n ∈ Node.ofRef params, h.Has n ∧ h.AcyclicFrom n)
    (hbody : ∀ n ∈ Node.ofRef body, h.Has n ∧ h.AcyclicFrom n)
    (hambient : ∀ n ∈ Node.ofChain ambient, h.Has n ∧ h.AcyclicFrom n) :
    ∃ a c, (h.newClosure params body ambient).1 = some a ∧
      h.ClosesOver (h.newClosure params body ambient).2 params body ambient a c := by
  -- the names are read off the copies
  have hp := copy_duplicates hb hparams
  have hq := copy_duplicates_since hb hp.trees.grown hbody
  have hqtrees := copy_trees (h.copy params).2 body
  have hnames := freeNames_of_alike (hp.keep hqtrees.grown).alike hq.alike hq.trees.grown
    (walksEnd_of_acyclic hb hparams) (walksEnd_of_acyclic hb hbody)
  rw [newClosure]
  dsimp only
  generalize (h.copy params).1 = params', (h.copy params).2 = h₁ at *
  generalize (h₁.copy body).1 = body', (h₁.copy body).2 = h₂ at *
  have hnothing : h₂.CopiesTrees h₂ (Node.ofChain none) := .refl h₂
  have htrees := capture_trees ambient (h₂.freeNames params' body') hnothing
  have hcaught := capture_catches hb hambient (h₂.freeNames params' body')
    (⟨hq.trees.grown, [], rfl, .nil⟩ : h.CatchesAll h₂ ambient none [])
  have hall : (h₂.freeNames params' body').filter
      (fun name => (h.findBinding? ambient name).isSome) =
        h.namesToCapture params body ambient := by
    rw [hnames, List.filter_filter, namesToCapture]
    simp only [Bool.and_comm]
  rw [List.nil_append, hall] at hcaught
  generalize h₂.capture ambient (h₂.freeNames params' body') none = r at *
  obtain ⟨captured, h₃⟩ := r
  have hnew := extends_new h₃ (.closure ⟨params', body', captured⟩)
  have hrest := htrees.grown.trans hnew
  refine ⟨⟨h₃.cells.size⟩, ⟨params', body', captured⟩, rfl, cell_new h₃ _, ?_, ?_, ?_, ?_⟩
  · exact (hp.trees.append (hqtrees.append htrees)).new
  · exact hp.keep (hqtrees.grown.trans hrest)
  · exact hq.keep hrest
  · exact hcaught.keep hnew

end Heap

open EvalM

theorem makeClosure_of_accepted {m : Machine} {params : Ref} (body : Ref)
    (haccepted : m.heap.paramsFault? params = none) :
    ∃ arena, makeClosure params body m =
      .ok (m.heap.newClosure params body m.scope).1
        ⟨(m.heap.newClosure params body m.scope).2, arena, m.scope, m.log⟩ := by
  unfold makeClosure
  rw [see_bind, haccepted]
  exact ⟨_, rfl⟩

/--
**A closure captures exactly the free names of its body that are bound.** Whatever the environment,
the body and the parameters, if these are accepted, a closure is made of copies alone. Its captured
bindings have, each once, the names of the atoms that the body has at some path through pairs, that
are no parameters and that are bound; those that the body has first stand last. Each has a copy of
the value of the first binding of its name. Nothing that was there has changed or is shared.
-/
theorem closure_captures_exactly {m : Machine} {params body : Ref} (hb : m.heap.Bounded)
    (hparams : ∀ n ∈ Node.ofRef params, m.heap.Has n ∧ m.heap.AcyclicFrom n)
    (hbody : ∀ n ∈ Node.ofRef body, m.heap.Has n ∧ m.heap.AcyclicFrom n)
    (hscope : ∀ n ∈ Node.ofChain m.scope, m.heap.Has n ∧ m.heap.AcyclicFrom n)
    (haccepted : m.heap.paramsFault? params = none) :
    ∃ a c m', makeClosure params body m = .ok (some a) m' ∧ m'.scope = m.scope ∧
      m.heap.ClosesOver m'.heap params body m.scope a c ∧
      (m.heap.namesToCapture params body m.scope).Nodup ∧
      (∀ name, name ∈ m.heap.namesToCapture params body m.scope ↔
        (∃ path, m.heap.AtomAt body path name) ∧ name ∉ m.heap.listedNames params ∧
          ∃ b ∈ m.heap.chain m.scope, m.heap.boundName? b = some name) ∧
      ∀ k, m.heap.Has k → m'.heap.Apart k (.value a) := by
  obtain ⟨a, c, hmade, hcloses⟩ := Heap.newClosure_closesOver hb hparams hbody hscope
  obtain ⟨arena, hrun⟩ := makeClosure_of_accepted body haccepted
  rw [hmade] at hrun
  refine ⟨a, c, _, hrun, rfl, hcloses, Heap.nodup_namesToCapture _ _ _ _,
    fun name => Heap.mem_namesToCapture hb hbody, fun k hk => ?_⟩
  exact hcloses.trees.apart hb hk List.mem_cons_self

/-- A machine with `x` and `y` bound, the parameter list `(y)` and the body `(x y . x)`. -/
def Machine.ofNames : Machine where
  heap :=
    { cells := #[.live (.atom "x"), .live (.atom "y"), .live .nil,
        .live (.pair (some ⟨1⟩) (some ⟨2⟩)), .live (.pair (some ⟨1⟩) (some ⟨0⟩)),
        .live (.pair (some ⟨0⟩) (some ⟨4⟩))]
      bindings := #[⟨some ⟨0⟩, some ⟨3⟩, none, false⟩, ⟨some ⟨1⟩, some ⟨2⟩, some ⟨0⟩, false⟩] }
  arena := .empty
  scope := some ⟨1⟩
  log := #[]

theorem Machine.ofNames_edits : Heap.empty.Edits Machine.ofNames.heap := by
  refine ((((((((Heap.Edits.refl Heap.empty).step (.alloc (.live (.atom "x")) ?_)).step
    (.alloc (.live (.atom "y")) ?_)).step (.alloc (.live .nil) ?_)).step
    (.alloc (.live (.pair (some ⟨1⟩) (some ⟨2⟩))) ?_)).step
    (.alloc (.live (.pair (some ⟨1⟩) (some ⟨0⟩))) ?_)).step
    (.alloc (.live (.pair (some ⟨0⟩) (some ⟨4⟩))) ?_)).step
    (.put (some ⟨0⟩) (some ⟨3⟩) none ?_)).step (.put (some ⟨1⟩) (some ⟨2⟩) (some ⟨0⟩) ?_)
  all_goals simp [Cell.parts, Datum.parts, Datum.nil, Binding.parts, Node.ofRef, Node.ofChain,
    Heap.Has, Heap.alloc, Heap.put, Heap.empty]

/-- Of the names of the body, `y` is a parameter, so `x` is captured, once and with its value. -/
theorem closure_captures_exactly_once :
    (Machine.ofNames.heap.Bounded ∧ Machine.ofNames.heap.Acyclic ∧
      Machine.ofNames.heap.paramsFault? (some ⟨3⟩) = none) ∧
    Machine.ofNames.heap.namesToCapture (some ⟨3⟩) (some ⟨5⟩) (some ⟨1⟩) = ["x"] ∧
    ∃ a c m', makeClosure (some ⟨3⟩) (some ⟨5⟩) Machine.ofNames = .ok (some a) m' ∧
      Machine.ofNames.heap.ClosesOver m'.heap (some ⟨3⟩) (some ⟨5⟩) (some ⟨1⟩) a c := by
  obtain ⟨hb, hac⟩ := Machine.ofNames_edits.acyclic Heap.bounded_empty Heap.acyclic_empty
  have hfault : Machine.ofNames.heap.paramsFault? (some ⟨3⟩) = none := by decide
  have hplaces : ∀ n ∈ [Node.value ⟨3⟩, .value ⟨5⟩, .binding ⟨1⟩],
      Machine.ofNames.heap.Has n ∧ Machine.ofNames.heap.AcyclicFrom n := by
    intro n hn
    refine ⟨?_, hac.acyclicFrom n⟩
    revert n
    simp [Heap.Has, Machine.ofNames]
  have hparams : ∀ n ∈ Node.ofRef (some ⟨3⟩), _ := fun n hn => hplaces n (by simp_all [Node.ofRef])
  have hbody : ∀ n ∈ Node.ofRef (some ⟨5⟩), _ := fun n hn => hplaces n (by simp_all [Node.ofRef])
  have hscope : ∀ n ∈ Node.ofChain (some ⟨1⟩), _ := fun n hn =>
    hplaces n (by simp_all [Node.ofChain])
  obtain ⟨a, c, m', hrun, -, hcloses, -⟩ :=
    closure_captures_exactly (m := Machine.ofNames) hb hparams hbody hscope hfault
  exact ⟨⟨hb, hac, hfault⟩, by decide, a, c, m', hrun, hcloses⟩

end ArenaLisp
