import ArenaLisp.Proofs.Entering
import ArenaLisp.Heap.Compare

/-!
# Heaps that differ in what was released

Two heaps mirror each other when they have the same nodes and the same at every node
that is not released in the first. Whoever holds only live values cannot tell the two
apart: every question has the same answer, and whatever is made is made at the same
place in both.
-/

namespace ArenaLisp.Heap

/-- Whether a heap has the same as another wherever that one has not released. -/
structure Mirrors (h h' : Heap) : Prop where
  cells_eq : h'.cells.size = h.cells.size
  bindings_eq : h'.bindings.size = h.bindings.size
  agree : ∀ n, ¬h.Released n → h.AgreeAt h' n

namespace Mirrors

variable {h h' : Heap}

theorem refl (h : Heap) : h.Mirrors h := ⟨rfl, rfl, fun n _ => by cases n <;> rfl⟩

theorem depth_eq (hm : h.Mirrors h') : h'.depth = h.depth := by
  rw [depth, depth, hm.cells_eq, hm.bindings_eq]

theorem cell_eq (hm : h.Mirrors h') {a : Addr} (ha : h.LiveRef (some a)) :
    h'.cell a = h.cell a :=
  hm.agree (.value a) (liveRef_some.mp ha).not_released

theorem cell?_eq (hm : h.Mirrors h') {v : Ref} (hv : h.LiveRef v) : h'.cell? v = h.cell? v := by
  cases v with
  | none => rfl
  | some a => rw [cell?, cell?, Option.map_some, Option.map_some, hm.cell_eq hv]

theorem binding_eq (hm : h.Mirrors h') {b : BindingId} (hb : (h.binding b).released = false) :
    h'.binding b = h.binding b :=
  hm.agree (.binding b) (by simp [Released, hb])

/-! ## Questions about a value -/

theorem isNil_eq (hm : h.Mirrors h') {v : Ref} (hv : h.LiveRef v) : h'.isNil v = h.isNil v := by
  rw [isNil, isNil, hm.cell?_eq hv]

theorem same_eq (hm : h.Mirrors h') {v w : Ref} (hv : h.LiveRef v) (hw : h.LiveRef w) :
    h'.same v w = h.same v w := by
  rw [same, same, hm.isNil_eq hv, hm.isNil_eq hw, hm.cell?_eq hv, hm.cell?_eq hw]

theorem spineTo_eq (hm : h.Mirrors h') (n : Nat) {v : Ref} (hv : h.LiveRef v) :
    spineTo n h' v = spineTo n h v := by
  induction n generalizing v with
  | zero => rfl
  | succ n ih =>
      cases v with
      | none => rfl
      | some a => rw [spineTo, spineTo, hm.cell_eq hv, ih (liveRef_fields hv).2]

theorem spine_eq (hm : h.Mirrors h') {v : Ref} (hv : h.LiveRef v) : h'.spine v = h.spine v := by
  rw [spine, spine, hm.cells_eq, hm.spineTo_eq _ hv]

theorem elements?_eq (hm : h.Mirrors h') {v : Ref} (hv : h.LiveRef v) :
    h'.elements? v = h.elements? v := by
  rw [elements?, elements?, hm.spine_eq hv]
  have htail : h'.isNil (h.spine v).2 = h.isNil (h.spine v).2 :=
    hm.isNil_eq (spineTo_live _ hv).2
  show (if h'.isNil (h.spine v).2 = true then _ else _) = _
  rw [htail]
  rfl

theorem viewTo_eq (hm : h.Mirrors h') (n : Nat) :
    (∀ v, h.LiveRef v → viewTo n h' v = viewTo n h v) ∧
      ∀ c, h.LiveChain c → viewChainTo n h' c = viewChainTo n h c := by
  induction n with
  | zero =>
      constructor
      · rintro (_ | a) _ <;> rfl
      · rintro (_ | b) _ <;> rfl
  | succ n ih =>
      constructor
      · rintro (_ | a) hv
        · rfl
        · rw [viewTo, viewTo, hm.cell_eq hv]
          have ha := liveRef_some.mp hv
          cases hcell : h.cell a with
          | released husk => rfl
          | live d =>
              cases d with
              | pair car cdr =>
                  obtain ⟨hcar, hcdr⟩ := ha.pair hcell
                  simp only [ih.1 car hcar, ih.1 cdr hcdr]
              | closure c =>
                  obtain ⟨hparams, hbody, hcaptured⟩ := ha.closure hcell
                  simp only [ih.1 _ hparams, ih.1 _ hbody, ih.2 _ hcaptured]
              | _ => rfl
      · rintro (_ | b) hc
        · rfl
        · have hb : h.Live (.binding b) := hc _ (by simp)
          obtain ⟨hname, hvalue, hnext⟩ := hb.fields
          rw [viewChainTo, viewChainTo, hm.agree _ hb.not_released]
          simp only [ih.1 _ hname, ih.1 _ hvalue, ih.2 _ hnext]

theorem view_eq (hm : h.Mirrors h') {v : Ref} (hv : h.LiveRef v) : h'.view v = h.view v := by
  rw [view, view, hm.depth_eq, (hm.viewTo_eq _).1 v hv]

theorem viewChain_eq (hm : h.Mirrors h') {c : Chain} (hc : h.LiveChain c) :
    h'.viewChain c = h.viewChain c := by
  rw [viewChain, viewChain, hm.depth_eq, (hm.viewTo_eq _).2 c hc]

theorem walk_eq (hm : h.Mirrors h') (n : Nat) {p : Node} (hp : h.Live p) :
    h'.walk n p = h.walk n p := by
  induction n generalizing p with
  | zero => rfl
  | succ n ih =>
      rw [walk, walk, (hm.agree p hp.not_released).parts_eq]
      exact congrArg _ (List.flatMap_congr fun k hk => ih (hp.part hk))

theorem nodes_eq (hm : h.Mirrors h') {v : Ref} (hv : h.LiveRef v) : h'.nodes v = h.nodes v := by
  rw [nodes, nodes, (nodesTo_eq_walk _ _).1, (nodesTo_eq_walk _ _).1, hm.depth_eq]
  exact List.flatMap_congr fun k hk => hm.walk_eq _ (liveRef_iff.mp hv k hk)

theorem atomsTo_eq (hm : h.Mirrors h') (n : Nat) {v : Ref} (hv : h.LiveRef v) :
    atomsTo n h' v = atomsTo n h v := by
  induction n generalizing v with
  | zero => cases v <;> rfl
  | succ n ih =>
      cases v with
      | none => rfl
      | some a =>
          obtain ⟨hcar, hcdr⟩ := liveRef_fields hv
          rw [atomsTo, atomsTo, hm.cell_eq hv, ih hcar, ih hcdr]

theorem freeNames_eq (hm : h.Mirrors h') {params body : Ref} (hparams : h.LiveRef params)
    (hbody : h.LiveRef body) : h'.freeNames params body = h.freeNames params body := by
  have hnames : (h.spine params).1.filterMap (fun p => (h'.cell? p).map Cell.name) =
      (h.spine params).1.filterMap fun p => (h.cell? p).map Cell.name :=
    List.filterMap_congr fun p hp => by rw [hm.cell?_eq ((spineTo_live _ hparams).1 p hp)]
  rw [freeNames, freeNames, hm.spine_eq hparams, hm.depth_eq, hm.atomsTo_eq _ hbody, hnames]

theorem paramFault?_eq (hm : h.Mirrors h') (position : Nat) {v : Ref} (hv : h.LiveRef v) :
    h'.paramFault? position v = h.paramFault? position v := by
  rw [paramFault?, paramFault?, isTruth, isTruth, hm.isNil_eq hv, hm.cell?_eq hv, hm.view_eq hv]

theorem firstParamFault?_eq (hm : h.Mirrors h') (position : Nat) {vs : List Ref}
    (hvs : ∀ v ∈ vs, h.LiveRef v) :
    h'.firstParamFault? position vs = h.firstParamFault? position vs := by
  induction vs generalizing position with
  | nil => rfl
  | cons v vs ih =>
      rw [firstParamFault?, firstParamFault?, hm.paramFault?_eq position (hvs v List.mem_cons_self),
        ih _ fun w hw => hvs w (List.mem_cons_of_mem _ hw)]

theorem paramsFault?_eq (hm : h.Mirrors h') {v : Ref} (hv : h.LiveRef v) :
    h'.paramsFault? v = h.paramsFault? v := by
  have hlive := spineTo_live h.cells.size hv
  have htail : h'.isNil (h.spine v).2 = h.isNil (h.spine v).2 := hm.isNil_eq hlive.2
  have hcells : h'.firstParamFault? 1 (h.spine v).1 = h.firstParamFault? 1 (h.spine v).1 :=
    hm.firstParamFault?_eq 1 hlive.1
  rw [paramsFault?, paramsFault?, isList, isList, hm.cell?_eq hv, hm.view_eq hv, hm.spine_eq hv]
  simp only [htail, hcells]

/-! ## Questions about a chain -/

/-- A chain has the same bindings in both heaps while none of them is released. -/
theorem linked (hm : h.Mirrors h') {c : Chain} {bs : List BindingId} (hl : h.Linked c bs)
    (hbs : ∀ b ∈ bs, (h.binding b).released = false) : h'.Linked c bs := by
  refine hl.congr fun b hb => ⟨?_, by rw [hm.binding_eq (hbs b hb)]⟩
  have hhas : b.index < h.bindings.size := hl.has hb
  show b.index < h'.bindings.size
  rw [hm.bindings_eq]
  exact hhas

theorem chain_eq (hm : h.Mirrors h') {c : Chain} {bs : List BindingId} (hl : h.Linked c bs)
    (hbs : ∀ b ∈ bs, (h.binding b).released = false) : h'.chain c = h.chain c := by
  rw [(hm.linked hl hbs).chain_eq, hl.chain_eq]

theorem findBinding?_eq (hm : h.Mirrors h') {c : Chain} {bs : List BindingId}
    (hl : h.Linked c bs) (hbs : ∀ b ∈ bs, (h.binding b).released = false)
    (hnames : ∀ b ∈ bs, h.LiveRef (h.binding b).name) (name : String) :
    h'.findBinding? c name = h.findBinding? c name := by
  refine findBinding?_congr (hm.chain_eq hl hbs) (fun b hb => ?_) name
  rw [hl.chain_eq] at hb
  rw [boundName?, boundName?, hm.binding_eq (hbs b hb), hm.cell?_eq (hnames b hb)]

theorem lookup?_eq (hm : h.Mirrors h') {c : Chain} {bs : List BindingId}
    (hl : h.Linked c bs) (hbs : ∀ b ∈ bs, (h.binding b).released = false)
    (hnames : ∀ b ∈ bs, h.LiveRef (h.binding b).name) (name : String) :
    h'.lookup? c name = h.lookup? c name := by
  rw [lookup?, lookup?, hm.findBinding?_eq hl hbs hnames]
  cases hfind : h.findBinding? c name with
  | none => rfl
  | some b =>
      have hb : b ∈ bs := by rw [← hl.chain_eq]; exact mem_of_findBinding? hfind
      rw [Option.map_some, Option.map_some, hm.binding_eq (hbs b hb)]

end Mirrors

/-! ## Operations -/

/-- Whether an operation does the same on every heap that mirrors this one. -/
def Mirrored {α : Type} (h : Heap) (f : Heap → α × Heap) : Prop :=
  ∀ h', h.Mirrors h' → ∃ h'', f h' = ((f h).1, h'') ∧ (f h).2.Mirrors h''

theorem mirrored_alloc (h : Heap) (c : Cell) : h.Mirrored (·.alloc c) := by
  intro h' hm
  refine ⟨(h'.alloc c).2, by simp only [alloc, hm.cells_eq], by simp [alloc, hm.cells_eq],
    hm.bindings_eq, ?_⟩
  intro n hn
  cases n with
  | value a =>
      have hagree : (h.cell a).isReleased ≠ true → h'.cell a = h.cell a := hm.agree (.value a)
      simp only [Released, AgreeAt, cell, alloc, Array.getElem?_push, hm.cells_eq] at hn hagree ⊢
      split
      · rfl
      · rename_i hne
        rw [if_neg hne] at hn
        exact hagree hn
  | binding b => exact hm.agree (.binding b) hn

theorem mirrored_new (h : Heap) (d : Datum) : h.Mirrored (·.new d) := by
  intro h' hm
  obtain ⟨h'', heq, hm'⟩ := mirrored_alloc h (.live d) h' hm
  exact ⟨h'', by simp only [new, heq], hm'⟩

theorem mirrored_put (h : Heap) (name value : Ref) (next : Chain) :
    h.Mirrored (·.put name value next) := by
  intro h' hm
  refine ⟨(h'.put name value next).2, by simp only [put, hm.bindings_eq], hm.cells_eq,
    by simp [put, hm.bindings_eq], ?_⟩
  intro n hn
  cases n with
  | value a => exact hm.agree (.value a) hn
  | binding b =>
      have hagree : (h.binding b).released ≠ true → h'.binding b = h.binding b :=
        hm.agree (.binding b)
      simp only [Released, AgreeAt, binding, put, Array.getElem?_push, hm.bindings_eq] at hn hagree ⊢
      split
      · rfl
      · rename_i hne
        rw [if_neg hne] at hn
        exact hagree hn

theorem mirrored_list (vs : List Ref) (h : Heap) : h.Mirrored (·.list vs) := by
  intro h' hm
  induction vs with
  | nil => exact mirrored_new h .nil h' hm
  | cons v vs ih =>
      obtain ⟨h₁, e₁, m₁⟩ := ih
      obtain ⟨h₂, e₂, m₂⟩ := mirrored_new _ (.pair v (h.list vs).1) h₁ m₁
      exact ⟨h₂, by simp only [list, e₁, e₂], m₂⟩

/-! ## Copies -/

theorem mirrored_copyTo (n : Nat) :
    (∀ (h : Heap) (v : Ref), h.LiveRef v → h.Mirrored (copyTo n · v)) ∧
    (∀ (h : Heap) (c : Chain), h.LiveChain c → h.Mirrored (copyChainTo n · c)) := by
  induction n with
  | zero =>
      constructor
      · rintro h (_ | a) _ h' hm <;> exact ⟨h', rfl, hm⟩
      · rintro h (_ | b) _ h' hm <;> exact ⟨h', rfl, hm⟩
  | succ n ih =>
      obtain ⟨ihv, ihc⟩ := ih
      constructor
      · rintro h (_ | a) hv h' hm
        · exact ⟨h', rfl, hm⟩
        · have ha := liveRef_some.mp hv
          simp only [copyTo]
          rw [hm.cell_eq hv]
          cases hcell : h.cell a with
          | released husk => exact absurd (by rw [Released, hcell]; rfl) ha.not_released
          | live d =>
              cases d with
              | pair car cdr =>
                  obtain ⟨hcar, hcdr⟩ := ha.pair hcell
                  have he₁ := ((copyTo_copies n).1 h car hcar).copies.grown
                  obtain ⟨h₁, e₁, m₁⟩ := ihv h car hcar h' hm
                  obtain ⟨h₂, e₂, m₂⟩ := ihv _ cdr (he₁.liveRef hcdr) h₁ m₁
                  obtain ⟨h₃, e₃, m₃⟩ := mirrored_new _ (.pair (copyTo n h car).1
                    (copyTo n (copyTo n h car).2 cdr).1) h₂ m₂
                  exact ⟨h₃, by simp only [e₁, e₂, e₃], m₃⟩
              | closure c =>
                  obtain ⟨hparams, hbody, hcaptured⟩ := ha.closure hcell
                  have he₁ := ((copyTo_copies n).1 h _ hparams).copies.grown
                  have he₂ := ((copyTo_copies n).1 _ _ (he₁.liveRef hbody)).copies.grown
                  obtain ⟨h₁, e₁, m₁⟩ := ihv h _ hparams h' hm
                  obtain ⟨h₂, e₂, m₂⟩ := ihv _ _ (he₁.liveRef hbody) h₁ m₁
                  obtain ⟨h₃, e₃, m₃⟩ :=
                    ihc _ _ (he₂.liveChain (he₁.liveChain hcaptured)) h₂ m₂
                  obtain ⟨h₄, e₄, m₄⟩ := mirrored_new _ (.closure ⟨_, _, _⟩) h₃ m₃
                  exact ⟨h₄, by simp only [e₁, e₂, e₃, e₄], m₄⟩
              | atom name => exact mirrored_new h (.atom name) h' hm
              | number x => exact mirrored_new h (.number x) h' hm
              | primitive p => exact mirrored_new h (.primitive p) h' hm
              | unknown code => exact mirrored_new h (.unknown code) h' hm
      · rintro h (_ | b) hc h' hm
        · exact ⟨h', rfl, hm⟩
        · have hb : h.Live (.binding b) := hc _ (by simp)
          obtain ⟨hname, hvalue, hnext⟩ := hb.fields
          have he₁ := ((copyTo_copies n).1 h _ hname).copies.grown
          have he₂ := ((copyTo_copies n).1 _ _ (he₁.liveRef hvalue)).copies.grown
          have hbinding : h'.binding b = h.binding b := hm.agree _ hb.not_released
          simp only [copyChainTo]
          rw [hbinding]
          obtain ⟨h₁, e₁, m₁⟩ := ihv h _ hname h' hm
          obtain ⟨h₂, e₂, m₂⟩ := ihv _ _ (he₁.liveRef hvalue) h₁ m₁
          obtain ⟨h₃, e₃, m₃⟩ := ihc _ _ (he₂.liveChain (he₁.liveChain hnext)) h₂ m₂
          obtain ⟨h₄, e₄, m₄⟩ := mirrored_put _ _ _ _ h₃ m₃
          exact ⟨h₄, by simp only [e₁, e₂, e₃, e₄], m₄⟩

theorem mirrored_copy {h : Heap} {v : Ref} (hv : h.LiveRef v) : h.Mirrored (·.copy v) := by
  intro h' hm
  simp only [copy, hm.depth_eq]
  exact (mirrored_copyTo h.depth).1 h v hv h' hm

theorem mirrored_copyChain {h : Heap} {c : Chain} (hc : h.LiveChain c) :
    h.Mirrored (·.copyChain c) := by
  intro h' hm
  simp only [copyChain, hm.depth_eq]
  exact (mirrored_copyTo h.depth).2 h c hc h' hm

theorem mirrored_copyEach {h : Heap} (vs : List Ref) (hvs : ∀ v ∈ vs, h.LiveRef v) :
    h.Mirrored (·.copyEach vs) := by
  induction vs generalizing h with
  | nil => exact fun h' hm => ⟨h', rfl, hm⟩
  | cons v vs ih =>
      intro h' hm
      have hv := hvs v List.mem_cons_self
      obtain ⟨h₁, e₁, m₁⟩ := mirrored_copy hv h' hm
      obtain ⟨h₂, e₂, m₂⟩ := ih (fun w hw =>
        (copy_copies hv).grown.liveRef (hvs w (List.mem_cons_of_mem _ hw))) h₁ m₁
      exact ⟨h₂, by simp only [copyEach, e₁, e₂], m₂⟩

/-! ## Closures and calls -/

theorem mirrored_capture {ambient : Chain} {env : List BindingId} (names : List String)
    (captured : Chain) {h : Heap} (hl : h.Linked ambient env)
    (hr : ∀ b ∈ env, (h.binding b).released = false)
    (hlive : ∀ b ∈ env, h.LiveRef (h.binding b).name ∧ h.LiveRef (h.binding b).value) :
    h.Mirrored (·.capture ambient names captured) := by
  induction names generalizing h captured with
  | nil => exact fun h' hm => ⟨h', rfl, hm⟩
  | cons name names ih =>
      intro h' hm
      simp only [capture]
      rw [hm.findBinding?_eq hl hr (fun b hb => (hlive b hb).1)]
      cases hfind : h.findBinding? ambient name with
      | none => exact ih _ hl hr hlive h' hm
      | some b =>
          have hb : b ∈ env := by rw [← hl.chain_eq]; exact mem_of_findBinding? hfind
          obtain ⟨hname, hvalue⟩ := hlive b hb
          have he₁ := (copy_copies hname).grown
          have he₂ := (copy_copies (he₁.liveRef hvalue)).grown
          obtain ⟨h₁, e₁, m₁⟩ := mirrored_copy hname h' hm
          obtain ⟨h₂, e₂, m₂⟩ := mirrored_copy (he₁.liveRef hvalue) h₁ m₁
          obtain ⟨h₃, e₃, m₃⟩ := mirrored_put _ (h.copy (h.binding b).name).1
            ((h.copy (h.binding b).name).2.copy (h.binding b).value).1 captured h₂ m₂
          have he := (he₁.trans he₂).trans (extends_put _ (h.copy (h.binding b).name).1
            ((h.copy (h.binding b).name).2.copy (h.binding b).value).1 captured)
          obtain ⟨h₄, e₄, m₄⟩ := ih _ (he.linked hl)
            (fun b' hb' => by rw [he.binding b' (hl.has hb')]; exact hr b' hb')
            (fun b' hb' => by
              rw [he.binding b' (hl.has hb')]
              exact ⟨he.liveRef (hlive b' hb').1, he.liveRef (hlive b' hb').2⟩) h₃ m₃
          exact ⟨h₄, by simp only [hm.binding_eq (hr b hb), e₁, e₂, e₃, e₄], m₄⟩

theorem mirrored_newClosure {h : Heap} {params body : Ref} {ambient : Chain}
    {env : List BindingId} (hl : h.Linked ambient env)
    (hr : ∀ b ∈ env, (h.binding b).released = false)
    (hlive : ∀ b ∈ env, h.LiveRef (h.binding b).name ∧ h.LiveRef (h.binding b).value)
    (hparams : h.LiveRef params) (hbody : h.LiveRef body) :
    h.Mirrored (·.newClosure params body ambient) := by
  intro h' hm
  have hp := copy_copies hparams
  have hb := copy_copies (hp.grown.liveRef hbody)
  have he := hp.grown.trans hb.grown
  obtain ⟨h₁, e₁, m₁⟩ := mirrored_copy hparams h' hm
  obtain ⟨h₂, e₂, m₂⟩ := mirrored_copy (hp.grown.liveRef hbody) h₁ m₁
  have hnames := m₂.freeNames_eq
    (hb.grown.liveRef (liveRef_iff.mpr fun k hk => Copies.live hp hk))
    (liveRef_iff.mpr fun k hk => Copies.live hb hk)
  obtain ⟨h₃, e₃, m₃⟩ := mirrored_capture
    (((h.copy params).2.copy body).2.freeNames (h.copy params).1 ((h.copy params).2.copy body).1)
    none (he.linked hl)
    (fun b hb' => by rw [he.binding b (hl.has hb')]; exact hr b hb')
    (fun b hb' => by
      rw [he.binding b (hl.has hb')]
      exact ⟨he.liveRef (hlive b hb').1, he.liveRef (hlive b hb').2⟩) h₂ m₂
  simp only [newClosure, e₁, e₂, hnames, e₃]
  exact mirrored_new _ _ h₃ m₃

theorem mirrored_supply (pairs : List (Ref × Ref)) (captured : Chain) {h : Heap}
    (hparams : ∀ p ∈ pairs, h.LiveRef p.1) : h.Mirrored (·.supply pairs captured) := by
  induction pairs generalizing h captured with
  | nil => exact fun h' hm => ⟨h', rfl, hm⟩
  | cons p pairs ih =>
      obtain ⟨param, value⟩ := p
      intro h' hm
      have hname := hparams (param, value) List.mem_cons_self
      have he := (copy_copies hname).grown.trans (extends_put _ (h.copy param).1 value captured)
      obtain ⟨h₁, e₁, m₁⟩ := mirrored_copy hname h' hm
      obtain ⟨h₂, e₂, m₂⟩ := mirrored_put _ (h.copy param).1 value captured h₁ m₁
      simp only [supply, e₁, e₂]
      exact ih _ (fun q hq => he.liveRef (hparams q (List.mem_cons_of_mem _ hq))) h₂ m₂

theorem mirrored_newPartial {h : Heap} {c : Closure} {params values : List Ref}
    (hparams : ∀ v ∈ params, h.LiveRef v) (hbody : h.LiveRef c.body)
    (hcaptured : h.LiveChain c.captured) : h.Mirrored (·.newPartial c params values) := by
  intro h' hm
  have hdrop : ∀ v ∈ params.drop values.length, h.LiveRef v :=
    fun v hv => hparams v (List.mem_of_mem_drop hv)
  have hrest := copyEach_copies _ hdrop
  have he₁₂ := (list_builds _ hrest).grown
  have he₃ := (copy_copies (he₁₂.liveRef hbody)).grown
  have he₄ := (copyChain_copies (he₃.liveChain (he₁₂.liveChain hcaptured))).grown
  have he := he₁₂.trans (he₃.trans he₄)
  obtain ⟨h₁, e₁, m₁⟩ := mirrored_copyEach _ hdrop h' hm
  obtain ⟨h₂, e₂, m₂⟩ := mirrored_list (h.copyEach (params.drop values.length)).1 _ h₁ m₁
  obtain ⟨h₃, e₃, m₃⟩ := mirrored_copy (he₁₂.liveRef hbody) h₂ m₂
  obtain ⟨h₄, e₄, m₄⟩ := mirrored_copyChain (he₃.liveChain (he₁₂.liveChain hcaptured)) h₃ m₃
  simp only [newPartial, e₁, e₂, e₃, e₄]
  generalize ((h.copyEach (params.drop values.length)).2.list
    (h.copyEach (params.drop values.length)).1).2.copy c.body = r at *
  obtain ⟨h₅, e₅, m₅⟩ := mirrored_supply (params.zip values) (r.2.copyChain c.captured).1
    (fun p hp => he.liveRef (hparams p.1 (List.of_mem_zip hp).1)) h₄ m₄
  simp only [e₅]
  exact mirrored_new _ _ h₅ m₅

theorem mirrored_putAll (pairs : List (Ref × Ref)) (h : Heap) (base : Chain) :
    h.Mirrored (·.putAll pairs base) := by
  intro h' hm
  induction pairs with
  | nil => exact ⟨h', rfl, hm⟩
  | cons p pairs ih =>
      obtain ⟨name, value⟩ := p
      obtain ⟨h₁, e₁, m₁⟩ := ih
      obtain ⟨h₂, e₂, m₂⟩ := mirrored_put _ name value (h.putAll pairs base).1 h₁ m₁
      exact ⟨h₂, by simp only [putAll, e₁, e₂], m₂⟩

theorem mirrored_bindFrame {h : Heap} {names values : Ref} (hn : h.LiveRef names)
    (hv : h.LiveRef values) (base : Chain) : h.Mirrored (·.bindFrame names values base) := by
  intro h' hm
  simp only [bindFrame]
  rw [hm.elements?_eq hn, hm.elements?_eq hv, hm.view_eq hn, hm.view_eq hv]
  cases h.elements? names with
  | none => exact ⟨h', rfl, hm⟩
  | some ns =>
      cases h.elements? values with
      | none => exact ⟨h', rfl, hm⟩
      | some vs =>
          by_cases hlen : ns.length = vs.length
          · obtain ⟨h₁, e₁, m₁⟩ := mirrored_putAll (ns.zip vs) h base h' hm
            simp only [hlen, if_true]
            exact ⟨h₁, by simp only [e₁], m₁⟩
          · simp only [hlen, if_false]
            exact ⟨h', rfl, hm⟩

theorem Mirrors.modifyBinding {h h' : Heap} (hm : h.Mirrors h') {b : BindingId}
    (hb : (h.binding b).released = false) (f : Binding → Binding) :
    (h.modifyBinding b f).Mirrors (h'.modifyBinding b f) := by
  refine ⟨hm.cells_eq, by simp [Heap.modifyBinding, hm.bindings_eq], fun n hn => ?_⟩
  cases n with
  | value a => exact hm.agree (.value a) hn
  | binding b' =>
      by_cases hne : b = b'
      · subst hne
        have hcell := hm.binding_eq hb
        simp only [AgreeAt, binding, Heap.modifyBinding, Array.getElem?_modify, if_true]
        simp only [binding] at hcell
        by_cases hlt : b.index < h.bindings.size
        · obtain ⟨x, hx⟩ : ∃ x, h.bindings[b.index]? = some x :=
            ⟨_, Array.getElem?_eq_getElem hlt⟩
          obtain ⟨x', hx'⟩ : ∃ x', h'.bindings[b.index]? = some x' :=
            ⟨_, Array.getElem?_eq_getElem (hm.bindings_eq ▸ hlt)⟩
          rw [hx, hx'] at hcell
          simp only [Option.getD_some] at hcell
          rw [hx, hx', hcell]
        · rw [Array.getElem?_eq_none (Nat.le_of_not_lt hlt),
            Array.getElem?_eq_none (hm.bindings_eq ▸ Nat.le_of_not_lt hlt)]
      · have hagree := hm.agree (.binding b')
        simp only [Released, AgreeAt] at hn hagree ⊢
        rw [binding_modifyBinding_ne hne] at hn ⊢
        rw [binding_modifyBinding_ne hne]
        exact hagree hn

theorem mirrored_join {h : Heap} {front : Chain} {bs : List BindingId} (hl : h.Linked front bs)
    (hbs : ∀ b ∈ bs, (h.binding b).released = false) (back : Chain) :
    h.Mirrored (·.join front back) := by
  intro h' hm
  simp only [join]
  rw [hm.chain_eq hl hbs, hl.chain_eq]
  cases hlast : bs.getLast? with
  | none => exact ⟨h', rfl, hm⟩
  | some last => exact ⟨_, rfl, hm.modifyBinding (hbs last (List.mem_of_getLast? hlast)) _⟩

end ArenaLisp.Heap
