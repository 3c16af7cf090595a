import ArenaLisp.Proofs.Unfold

/-!
# Operations on values as operations on trees

One lemma for each question that is asked of a value, and for each operation that makes one:
where the values unfold into trees, the answer is that of the trees, and what is made unfolds
into what the trees make.
-/

namespace ArenaLisp

namespace Heap

/-! ## Views and copies -/

mutual

theorem Unfolds.viewTo_eq {h : Heap} : ∀ {t : Tree} {v : Ref}, h.Unfolds v t → ∀ {n : Nat},
    t.height ≤ n → viewTo n h v = t
  | _, _, .absent, n, _ => by cases n <;> rfl
  | _, _, .atom hcell, n + 1, _ => by rw [viewTo, hcell]
  | _, _, .number hcell, n + 1, _ => by rw [viewTo, hcell]
  | _, _, .primitive hcell, n + 1, _ => by rw [viewTo, hcell]
  | .pair t u, _, .pair hcell hcar hcdr, n + 1, hn => by
      simp only [Tree.height] at hn
      rw [viewTo, hcell]
      simp only [hcar.viewTo_eq (n := n) (by omega), hcdr.viewTo_eq (n := n) (by omega)]
  | .closure params body s, _, .closure hcell hparams _ hbody hcaptured, n + 1, hn => by
      simp only [Tree.height] at hn
      rw [viewTo, hcell]
      simp only [hparams.viewTo_eq (n := n) (by omega), hbody.viewTo_eq (n := n) (by omega),
        hcaptured.viewChainTo_eq (n := n) (by omega)]

theorem UnfoldsChain.viewChainTo_eq {h : Heap} : ∀ {s : Scope} {c : Chain},
    h.UnfoldsChain c s → ∀ {n : Nat}, s.height ≤ n → viewChainTo n h c = s
  | _, _, .empty, n, _ => by cases n <;> rfl
  | .binding _ _ t s, _, .binding hreleased hname hvalue hnext, n + 1, hn => by
      simp only [Scope.height] at hn
      rw [viewChainTo]
      simp only [hreleased, hname.viewTo_eq (n := n) (by omega),
        hvalue.viewTo_eq (n := n) (by omega), hnext.viewChainTo_eq (n := n) (by omega)]

end

/-- **The view of a value is the tree it unfolds into.** -/
theorem Unfolds.view_eq {h : Heap} {v : Ref} {t : Tree} (hu : h.Unfolds v t) : h.view v = t :=
  hu.viewTo_eq hu.height_le

theorem unfolds_newPair {h : Heap} {car cdr : Ref} {t u : Tree} (hcar : h.Unfolds car t)
    (hcdr : h.Unfolds cdr u) :
    (h.new (.pair car cdr)).2.Unfolds (h.new (.pair car cdr)).1 (.pair t u) :=
  .pair (cell_new h _) ((extends_new h _).unfolds hcar) ((extends_new h _).unfolds hcdr)

theorem unfolds_newClosure {h : Heap} {c : Closure} {params body : Tree} {s : Scope}
    (hparams : h.Unfolds c.params params) (hnames : params.Names) (hbody : h.Unfolds c.body body)
    (hcaptured : h.UnfoldsChain c.captured s) :
    (h.new (.closure c)).2.Unfolds (h.new (.closure c)).1 (.closure params body s) :=
  .closure (cell_new h _) ((extends_new h _).unfolds hparams) hnames
    ((extends_new h _).unfolds hbody) ((extends_new h _).unfoldsChain hcaptured)

theorem unfoldsChain_put {h : Heap} {name value : Ref} {next : Chain} {n : String} {t : Tree}
    {s : Scope} (hname : h.Unfolds name (.atom n)) (hvalue : h.Unfolds value t)
    (hnext : h.UnfoldsChain next s) :
    (h.put name value next).2.UnfoldsChain (h.put name value next).1
      (.binding false (.atom n) t s) := by
  have he := extends_put h name value next
  have hb := binding_put h name value next
  refine .binding ?_ ?_ ?_ ?_
  · rw [hb]
  · rw [hb]
    exact he.unfolds hname
  · rw [hb]
    exact he.unfolds hvalue
  · rw [hb]
    exact he.unfoldsChain hnext

mutual

/-- A copy unfolds into the same tree. -/
theorem Unfolds.copyTo : ∀ {t : Tree} {h : Heap} {v : Ref}, h.Unfolds v t → ∀ {n : Nat},
    t.height ≤ n → (Heap.copyTo n h v).2.Unfolds (Heap.copyTo n h v).1 t
  | _, _, _, .absent, n, _ => by cases n <;> exact .absent
  | _, h, some a, .atom hcell, n + 1, _ => by
      rw [Heap.copyTo, hcell]
      exact .atom (cell_new h _)
  | _, h, some a, .number hcell, n + 1, _ => by
      rw [Heap.copyTo, hcell]
      exact .number (cell_new h _)
  | _, h, some a, .primitive hcell, n + 1, _ => by
      rw [Heap.copyTo, hcell]
      exact .primitive (cell_new h _)
  | .pair t u, h, some a, .pair hcell hcar hcdr, n + 1, hn => by
      simp only [Tree.height] at hn
      rw [Heap.copyTo, hcell]
      have h₁ := ((copyTo_copies n).1 h _ hcar.liveRef).copies.grown
      have h₂ := ((copyTo_copies n).1 _ _ (h₁.unfolds hcdr).liveRef).copies.grown
      exact unfolds_newPair (h₂.unfolds (hcar.copyTo (by omega)))
        ((h₁.unfolds hcdr).copyTo (by omega))
  | .closure params body s, h, some a, .closure hcell hparams hnames hbody hcaptured, n + 1, hn => by
      simp only [Tree.height] at hn
      rw [Heap.copyTo, hcell]
      have h₁ := ((copyTo_copies n).1 h _ hparams.liveRef).copies.grown
      have h₂ := ((copyTo_copies n).1 _ _ (h₁.unfolds hbody).liveRef).copies.grown
      have h₃ := ((copyTo_copies n).2 _ _
        (h₂.unfoldsChain (h₁.unfoldsChain hcaptured)).liveChain).copies.grown
      exact unfolds_newClosure ((h₂.trans h₃).unfolds (hparams.copyTo (by omega))) hnames
        (h₃.unfolds ((h₁.unfolds hbody).copyTo (by omega)))
        ((h₂.unfoldsChain (h₁.unfoldsChain hcaptured)).copyChainTo (by omega))

theorem UnfoldsChain.copyChainTo : ∀ {s : Scope} {h : Heap} {c : Chain}, h.UnfoldsChain c s →
    ∀ {n : Nat}, s.height ≤ n → (Heap.copyChainTo n h c).2.UnfoldsChain (Heap.copyChainTo n h c).1 s
  | _, _, _, .empty, n, _ => by cases n <;> exact .empty
  | .binding _ _ t s, h, some b, .binding _ hname hvalue hnext, n + 1, hn => by
      simp only [Scope.height] at hn
      rw [Heap.copyChainTo]
      have h₁ := ((copyTo_copies n).1 h _ hname.liveRef).copies.grown
      have h₂ := ((copyTo_copies n).1 _ _ (h₁.unfolds hvalue).liveRef).copies.grown
      have h₃ := ((copyTo_copies n).2 _ _
        (h₂.unfoldsChain (h₁.unfoldsChain hnext)).liveChain).copies.grown
      exact unfoldsChain_put ((h₂.trans h₃).unfolds (hname.copyTo (by omega)))
        (h₃.unfolds ((h₁.unfolds hvalue).copyTo (by omega)))
        ((h₂.unfoldsChain (h₁.unfoldsChain hnext)).copyChainTo (by omega))

end

theorem Unfolds.copy {h : Heap} {v : Ref} {t : Tree} (hu : h.Unfolds v t) :
    (h.copy v).2.Unfolds (h.copy v).1 t :=
  hu.copyTo hu.height_le

theorem UnfoldsChain.copyChain {h : Heap} {c : Chain} {s : Scope} (hu : h.UnfoldsChain c s) :
    (h.copyChain c).2.UnfoldsChain (h.copyChain c).1 s :=
  hu.copyChainTo hu.height_le

theorem liveRef_of_unfolds {h : Heap} {vs : List Ref} {ts : List Tree}
    (hvs : List.Forall₂ h.Unfolds vs ts) : ∀ v ∈ vs, h.LiveRef v :=
  ((List.forall₂_and_left _ _).mp (hvs.imp fun _ _ hv => ⟨hv.liveRef, hv⟩)).1

/-! ## Questions -/

theorem Unfolds.none_iff {h : Heap} {v : Ref} {t : Tree} (hu : h.Unfolds v t) :
    v = none ↔ t = .absent := by
  cases hu <;> simp

/-- What a cell shows of itself. -/
theorem Unfolds.cell {h : Heap} {a : Addr} {t : Tree} (hu : h.Unfolds (some a) t) :
    (h.cell a).kind = t.kind ∧ (h.cell a).name = t.name ∧ (h.cell a).number? = t.number? := by
  cases hu with
  | atom hcell | number hcell | primitive hcell | pair hcell | closure hcell =>
      rw [hcell]
      exact ⟨rfl, rfl, rfl⟩

theorem Unfolds.isNil_eq {h : Heap} {v : Ref} {t : Tree} (hu : h.Unfolds v t) :
    h.isNil v = t.isNil := by
  cases hu with
  | absent => rfl
  | @pair a car cdr t u hcell hcar hcdr =>
      have hnil : h.isNil (some a) = (car.isNone && cdr.isNone) := by
        rw [isNil, cell?, Option.map_some, hcell]
        rfl
      rw [hnil]
      cases hcar <;> cases hcdr <;> rfl
  | number hcell =>
      rename_i x
      rw [isNil, cell?, Option.map_some, hcell]
      cases x <;> rfl
  | atom hcell | primitive hcell | closure hcell =>
      rw [isNil, cell?, Option.map_some, hcell]
      rfl

theorem Unfolds.isList_eq {h : Heap} {v : Ref} {t : Tree} (hu : h.Unfolds v t) :
    h.isList v = (t.kind == .pair) := by
  cases hu with
  | absent => rfl
  | atom hcell | number hcell | primitive hcell | closure hcell | pair hcell =>
      rw [isList, cell?, Option.map_some, hcell]
      rfl

/-- The pairs along a list are a descent through values. -/
theorem Unfolds.spine_descent {h : Heap} : ∀ {t : Tree} {v : Ref}, h.Unfolds v t →
    ∃ l, h.Descent (sizeOf t) l ∧ l.length = t.spine.1.length ∧ ∀ p ∈ l, ∃ a, p.1 = .value a
  | .pair t u, some a, hu@(.pair _ _ hcdr) => by
      by_cases hnil : t = .absent ∧ u = .absent
      · obtain ⟨rfl, rfl⟩ := hnil
        exact ⟨[], .nil h _, rfl, fun _ hp => absurd hp List.not_mem_nil⟩
      · obtain ⟨l, hl, hlen, hvalues⟩ := hcdr.spine_descent
        refine ⟨_, hl.cons (n := .value a) ⟨_, hu, rfl⟩ (by rw [Tree.pair.sizeOf_spec]; omega), ?_,
          fun p hp => ?_⟩
        · rw [Tree.spine_pair hnil, List.length_cons, List.length_cons, hlen]
        · rcases List.mem_cons.mp hp with rfl | hp
          · exact ⟨a, rfl⟩
          · exact hvalues p hp
  | .absent, v, _ | .atom _, v, _ | .number _, v, _ | .primitive _, v, _ | .closure _ _ _, v, _
  | .released _, v, _ | .unknown _, v, _ =>
      ⟨[], .nil h _, rfl, fun _ hp => absurd hp List.not_mem_nil⟩

theorem spineTo_stop {h : Heap} {a : Addr}
    (hstop : ((h.cell a).kind == .pair && !(h.cell a).isNil) = false) (n : Nat) :
    spineTo n h (some a) = ([], some a) := by
  cases n with
  | zero => rfl
  | succ n => rw [spineTo, hstop]; rfl

theorem Unfolds.spineTo {h : Heap} {n : Nat} {t : Tree} {v : Ref} (hu : h.Unfolds v t)
    (hn : t.spine.1.length ≤ n) :
    List.Forall₂ h.Unfolds (Heap.spineTo n h v).1 t.spine.1 ∧
      h.Unfolds (Heap.spineTo n h v).2 t.spine.2 := by
  induction n generalizing t v with
  | zero =>
      rw [Tree.spine_eq_self (List.length_eq_zero_iff.mp (Nat.le_zero.mp hn))]
      exact ⟨.nil, hu⟩
  | succ n ih =>
      have hu' := hu
      cases hu with
      | absent => exact ⟨.nil, .absent⟩
      | @number a x hcell =>
          rw [spineTo_stop (by rw [hcell]; cases x <;> rfl)]
          exact ⟨.nil, hu'⟩
      | atom hcell | primitive hcell | closure hcell =>
          rw [spineTo_stop (by rw [hcell]; rfl)]
          exact ⟨.nil, hu'⟩
      | @pair a car cdr t u hcell hcar hcdr =>
          have hisNil : (h.cell a).isNil = (Tree.pair t u).isNil := hu'.isNil_eq
          by_cases hnil : t = .absent ∧ u = .absent
          · obtain ⟨rfl, rfl⟩ := hnil
            rw [spineTo_stop (by rw [hisNil]; simp [Tree.isNil])]
            exact ⟨.nil, hu'⟩
          · rw [Tree.spine_pair hnil] at hn ⊢
            obtain ⟨hcars, htail⟩ := ih hcdr (by simpa using hn)
            have hnot : (Tree.pair t u).isNil = false := by
              cases t <;> cases u <;> simp_all [Tree.isNil]
            rw [Heap.spineTo, hisNil, hnot, hcell]
            exact ⟨.cons hcar hcars, htail⟩

theorem Unfolds.spine {h : Heap} {v : Ref} {t : Tree} (hu : h.Unfolds v t) :
    List.Forall₂ h.Unfolds (h.spine v).1 t.spine.1 ∧ h.Unfolds (h.spine v).2 t.spine.2 := by
  obtain ⟨l, hl, hlen, hvalues⟩ := hu.spine_descent
  refine hu.spineTo ?_
  rw [← hlen]
  exact hl.length_le_cells hvalues

/-- A value is a proper list where its tree is, with the same elements. -/
theorem Unfolds.elements? {h : Heap} {v : Ref} {t : Tree} (hu : h.Unfolds v t) :
    Option.Rel (List.Forall₂ h.Unfolds) (h.elements? v) t.elements? := by
  obtain ⟨hcars, htail⟩ := hu.spine
  rw [Heap.elements?, Tree.elements?]
  dsimp only
  rw [htail.isNil_eq]
  split
  · exact .some hcars
  · exact .none

theorem Unfolds.elements?_some {h : Heap} {v : Ref} {t : Tree} {ts : List Tree} (hu : h.Unfolds v t)
    (ht : t.elements? = some ts) : ∃ vs, h.elements? v = some vs ∧ List.Forall₂ h.Unfolds vs ts := by
  have helements := hu.elements?
  rw [ht] at helements
  generalize h.elements? v = vs at helements
  cases helements with
  | some hvs => exact ⟨_, rfl, hvs⟩

theorem Unfolds.atomsTo_eq {h : Heap} {n : Nat} {t : Tree} {v : Ref} (hu : h.Unfolds v t)
    (hn : t.height ≤ n) : atomsTo n h v = t.atoms := by
  induction n generalizing t v with
  | zero =>
      -- only the absent value has no height
      cases hu with
      | absent => rfl
      | atom | number | primitive | pair | closure => simp [Tree.height] at hn
  | succ n ih =>
      cases hu with
      | absent => rfl
      | atom hcell =>
          rw [atomsTo, hcell]
          rfl
      | @number a x hcell =>
          rw [atomsTo, hcell]
          cases x <;> cases n <;> rfl
      | primitive hcell | closure hcell =>
          rw [atomsTo, hcell]
          cases n <;> rfl
      | pair hcell hcar hcdr =>
          simp only [Tree.height] at hn
          rw [atomsTo, hcell, Tree.atoms, ← ih hcar (by omega), ← ih hcdr (by omega)]
          rfl

/-- Whether a value is a list and not empty. -/
def isFilled (h : Heap) (v : Ref) : Bool := h.isList v && !h.isNil v

/-- Equality of values is that of trees, unless both are lists and not empty. -/
theorem Unfolds.same_eq {h : Heap} {v w : Ref} {t u : Tree} (hv : h.Unfolds v t)
    (hw : h.Unfolds w u) (hlists : (h.isFilled v && h.isFilled w) = false) :
    h.same v w = t.same u := by
  rw [isFilled, isFilled, hv.isNil_eq, hw.isNil_eq, hv.isList_eq, hw.isList_eq] at hlists
  rw [Heap.same, Tree.same, hv.isNil_eq, hw.isNil_eq]
  by_cases hnil : (t.isNil || u.isNil) = true
  · rw [if_pos hnil, if_pos hnil]
  · rw [if_neg hnil, if_neg hnil]
    rw [Bool.or_eq_true, not_or] at hnil
    cases hv with
    | absent => exact absurd rfl hnil.1
    | @number a x hcell =>
        cases hw with
        | absent => exact absurd rfl hnil.2
        | number hcell' => simp [cell?, hcell, hcell', Cell.same, Cell.number?, Cell.husk, Datum.husk, Tree.sameDatum]
        | atom hcell' | primitive hcell' | closure hcell' | pair hcell' =>
            rw [cell?, cell?, Option.map_some, Option.map_some, hcell, hcell']
            cases x <;> rfl
    | atom hcell | primitive hcell | closure hcell | pair hcell =>
        cases hw with
        | absent => exact absurd rfl hnil.2
        | @number a' x hcell' =>
            rw [cell?, cell?, Option.map_some, Option.map_some, hcell, hcell']
            cases x <;> rfl
        | atom hcell' | primitive hcell' | closure hcell' | pair hcell' =>
            simp_all [cell?, Cell.same, Cell.number?, Cell.husk, Datum.husk, Tree.sameDatum, Cell.kind, Husk.kind, Cell.name, Cell.primitive?, Tree.kind]

/-! ## Lists and expressions -/

theorem unfolds_nil (h : Heap) : (h.new .nil).2.Unfolds (h.new .nil).1 .nil :=
  .pair (cell_new h _) .absent .absent

theorem unfolds_list {h : Heap} {vs : List Ref} {ts : List Tree}
    (hvs : List.Forall₂ h.Unfolds vs ts) : (h.list vs).2.Unfolds (h.list vs).1 (.ofList ts) := by
  induction hvs with
  | nil => exact unfolds_nil h
  | @cons v t vs ts hv _ ih => exact unfolds_newPair ((extends_list vs h).unfolds hv) ih

/-- An expression unfolds into the tree it was built of. -/
theorem unfolds_store : ∀ {t : Tree} (h : Heap), t.Plain → (store t h).2.Unfolds (store t h).1 t
  | .atom _, h, _ => .atom (cell_new h _)
  | .number _, h, _ => .number (cell_new h _)
  | .pair car cdr, h, hp => by
      rw [store]
      rcases hp with ⟨rfl, rfl⟩ | ⟨hcar, hcdr⟩
      · exact unfolds_nil h
      · exact unfolds_newPair ((store_copies cdr _ hcdr).grown.unfolds (unfolds_store h hcar))
          (unfolds_store _ hcdr)
  | .absent, _, hp | .released _, _, hp | .primitive _, _, hp | .closure _ _ _, _, hp
  | .unknown _, _, hp => hp.elim

/-! ## Environments -/

/-- Whether a binding binds the name and the value of an entry. -/
def Entry (h : Heap) (b : BindingId) (e : String × Tree) : Prop :=
  h.Unfolds (h.binding b).name (.atom e.1) ∧ h.Unfolds (h.binding b).value e.2

theorem Entry.has {h : Heap} {b : BindingId} {e : String × Tree} (hb : h.Entry b e) :
    h.Has (.binding b) :=
  has_of_name hb.1

theorem Unfolds.cell?_atom {h : Heap} {v : Ref} {name : String} (hu : h.Unfolds v (.atom name)) :
    h.cell? v = some (.live (.atom name)) := by
  cases hu with
  | atom hcell => rw [cell?, Option.map_some, hcell]

theorem Entry.boundName? {h : Heap} {b : BindingId} {e : String × Tree} (hb : h.Entry b e) :
    h.boundName? b = some e.1 := by
  rw [Heap.boundName?, hb.1.cell?_atom]
  rfl

theorem Extends.entry {h h' : Heap} (he : h.Extends h') {b : BindingId} {e : String × Tree}
    (hb : h.Entry b e) : h'.Entry b e := by
  rw [Entry, he.binding b hb.has]
  exact ⟨he.unfolds hb.1, he.unfolds hb.2⟩

/-- The bindings of a chain are the entries of what it unfolds into. -/
theorem UnfoldsChain.entries {h : Heap} : ∀ {s : Scope} {c : Chain}, h.UnfoldsChain c s →
    ∃ bs, h.Linked c bs ∧ List.Forall₂ h.Entry bs (Reference.ofScope s) ∧
      Reference.toScope (Reference.ofScope s) = s
  | _, _, .empty => ⟨[], rfl, .nil, rfl⟩
  | .binding _ _ t s, some b, .binding _ hname hvalue hnext => by
      obtain ⟨bs, hlinked, hentries, hscope⟩ := hnext.entries
      refine ⟨b :: bs, ⟨rfl, has_of_name hname, hlinked⟩, .cons ⟨hname, hvalue⟩ hentries, ?_⟩
      rw [Reference.ofScope, Reference.toScope, hscope]
      rfl

section

variable {h : Heap} {c : Chain} {bs : List BindingId} {env : Reference.Env}

/-- The first binding of a name is the first entry of it. -/
theorem findBinding?_entry (hl : h.Linked c bs) (henv : List.Forall₂ h.Entry bs env)
    (name : String) :
    Option.Rel h.Entry (h.findBinding? c name) (env.find? fun e => e.1 == name) := by
  rw [findBinding?_eq, hl.chain_eq]
  clear hl
  induction henv with
  | nil => exact .none
  | @cons b e bs env hb _ ih =>
      rw [List.find?_cons, List.find?_cons, hb.boundName?]
      cases hname : e.1 == name with
      | true =>
          rw [show (some e.1 == some name) = true from hname]
          exact .some hb
      | false =>
          rw [show (some e.1 == some name) = false from hname]
          exact ih

theorem replace?_eq_none {name : String} {value : Tree} (henv : (env.find? fun e => e.1 == name) = none) :
    Reference.replace? name value env = none := by
  induction env with
  | nil => rfl
  | cons e env ih =>
      rw [List.find?_cons] at henv
      rw [Reference.replace?]
      cases hname : e.1 == name with
      | true => simp [hname] at henv
      | false =>
          rw [hname] at henv
          simp [ih henv]

/-- Where the first binding of a name gets a value, and the others stay, so does the entry. -/
theorem replace?_entries {h' : Heap} {b : BindingId} {name : String} {value : Tree}
    (hnodup : bs.Nodup) (henv : List.Forall₂ h.Entry bs env)
    (hfind : (bs.find? fun b => h.boundName? b == some name) = some b)
    (hself : h'.Entry b (name, value))
    (hothers : ∀ b' ∈ bs, b' ≠ b → ∀ e, h.Entry b' e → h'.Entry b' e) :
    ∃ env', Reference.replace? name value env = some env' ∧ List.Forall₂ h'.Entry bs env' := by
  induction henv with
  | nil => cases hfind
  | @cons b₀ e bs env hb₀ henv ih =>
      obtain ⟨hfresh, hnodup⟩ := List.nodup_cons.mp hnodup
      rw [List.find?_cons, hb₀.boundName?] at hfind
      rw [Reference.replace?]
      cases hname : e.1 == name with
      | true =>
          rw [show (some e.1 == some name) = true from hname] at hfind
          obtain rfl : b₀ = b := Option.some.inj hfind
          have hrest : ∀ b' ∈ bs, ∀ e, h.Entry b' e → h'.Entry b' e := fun b' hb' =>
            hothers b' (List.mem_cons_of_mem _ hb') fun heq => hfresh (heq ▸ hb')
          exact ⟨_, rfl, .cons hself
            (((List.forall₂_and_left _ _).mpr ⟨hrest, henv⟩).imp fun b' e hb' => hb'.1 e hb'.2)⟩
      | false =>
          rw [show (some e.1 == some name) = false from hname] at hfind
          obtain ⟨env', hreplaced, henv'⟩ := ih hnodup hfind fun b' hb' =>
            hothers b' (List.mem_cons_of_mem _ hb')
          refine ⟨e :: env', by rw [hreplaced]; rfl, .cons (hothers b₀ List.mem_cons_self ?_ e hb₀) henv'⟩
          rintro rfl
          exact hfresh (List.mem_of_find?_eq_some hfind)

theorem lookup?_unfolds (hl : h.Linked c bs) (henv : List.Forall₂ h.Entry bs env)
    (name : String) : Option.Rel h.Unfolds (h.lookup? c name) (Reference.lookup? env name) := by
  have hfind := findBinding?_entry hl henv name
  rw [lookup?, Reference.lookup?]
  generalize h.findBinding? c name = b at hfind
  generalize (env.find? fun e => e.1 == name) = e at hfind
  cases hfind with
  | none => exact .none
  | some hb => exact .some hb.2

/-- What a closure takes along unfolds into what the entries make. -/
theorem capture_unfolds (names : List String) {captured : Chain} {taken : Reference.Env}
    (hl : h.Linked c bs) (henv : List.Forall₂ h.Entry bs env)
    (hc : h.UnfoldsChain captured (Reference.toScope taken)) :
    (h.capture c names captured).2.UnfoldsChain (h.capture c names captured).1
      (Reference.toScope (Reference.capture env names taken)) := by
  induction names generalizing h captured taken with
  | nil => exact hc
  | cons name names ih =>
      have hfind := findBinding?_entry hl henv name
      have hname : ∀ e, (env.find? fun e => e.1 == name) = some e → e.1 = name :=
        fun e he => by simpa using List.find?_some he
      rw [capture, Reference.capture, List.foldl_cons, Reference.lookup?]
      generalize h.findBinding? c name = b at hfind
      generalize (env.find? fun e => e.1 == name) = e at hfind hname
      cases hfind with
      | none => exact ih hl henv hc
      | @some b e hb =>
          obtain rfl := hname e rfl
          have he₁ := (copy_copies hb.1.liveRef).grown
          have he₂ := (copy_copies (he₁.unfolds hb.2).liveRef).grown
          have hput := unfoldsChain_put (he₂.unfolds hb.1.copy) (he₁.unfolds hb.2).copy
            ((he₁.trans he₂).unfoldsChain hc)
          have he := (he₁.trans he₂).trans (extends_put _ (h.copy (h.binding b).name).1
            ((h.copy (h.binding b).name).2.copy (h.binding b).value).1 captured)
          exact ih (he.linked hl) (henv.imp fun _ _ => he.entry)
            (show Heap.UnfoldsChain _ _ (Reference.toScope (e :: taken)) from hput)

end

/-! ## Closures -/

/-- What the parts of a closure unfold into. -/
theorem Unfolds.closure_parts {h : Heap} {o : Addr} {c : Closure} {params body : Tree} {s : Scope}
    (hcell : h.cell o = .live (.closure c)) (hu : h.Unfolds (some o) (.closure params body s)) :
    h.Unfolds c.params params ∧ params.Names ∧ h.Unfolds c.body body ∧
      h.UnfoldsChain c.captured s := by
  cases hu with
  | closure hcell' hparams hnames hbody hcaptured =>
      rw [hcell] at hcell'
      cases hcell'
      exact ⟨hparams, hnames, hbody, hcaptured⟩

theorem Unfolds.paramFault?_eq {h : Heap} {v : Ref} {t : Tree} (hu : h.Unfolds v t)
    (position : Nat) : h.paramFault? position v = t.paramFault? position := by
  rw [paramFault?, Tree.paramFault?, hu.isNil_eq, hu.view_eq]
  cases v with
  | none =>
      cases hu
      rfl
  | some a =>
      obtain ⟨hkind, hname, _⟩ := hu.cell
      simp only [isTruth, cell?, Option.map_some, Option.any_some, hkind, hname]
      by_cases hatom : t.kind = .atom
      · simp [hatom]
      · simp [hatom]

theorem firstParamFault?_eq {h : Heap} {vs : List Ref} {ts : List Tree}
    (hvs : List.Forall₂ h.Unfolds vs ts) (position : Nat) :
    h.firstParamFault? position vs = Tree.firstParamFault? position ts := by
  induction hvs generalizing position with
  | nil => rfl
  | cons hv _ ih => rw [firstParamFault?, Tree.firstParamFault?, hv.paramFault?_eq, ih]

theorem Unfolds.paramsFault?_eq {h : Heap} {v : Ref} {t : Tree} (hu : h.Unfolds v t) :
    h.paramsFault? v = t.paramsFault? := by
  obtain ⟨hcars, htail⟩ := hu.spine
  rw [paramsFault?, Tree.paramsFault?, hu.isList_eq, hu.view_eq]
  dsimp only
  rw [firstParamFault?_eq hcars, htail.isNil_eq]
  rfl

/-- Parameters without faults are atoms. -/
theorem names_of_firstParamFault? {h : Heap} {vs : List Ref} {ts : List Tree}
    (hvs : List.Forall₂ h.Unfolds vs ts) {position : Nat}
    (hf : Tree.firstParamFault? position ts = none) : ∃ names : List String, ts = names.map .atom := by
  induction hvs generalizing position with
  | nil => exact ⟨[], rfl⟩
  | cons hv _ ih =>
      rw [Tree.firstParamFault?, Option.or_eq_none_iff] at hf
      obtain ⟨names, rfl⟩ := ih hf.2
      cases hv with
      | atom => exact ⟨_ :: names, rfl⟩
      | number => rename_i x _; cases x <;> cases hf.1
      | absent | primitive | closure => cases hf.1
      | pair =>
          have hfault := hf.1
          rw [Tree.paramFault?] at hfault
          split at hfault <;> cases hfault

theorem Unfolds.names {h : Heap} {v : Ref} {t : Tree} (hu : h.Unfolds v t)
    (hf : t.paramsFault? = none) : t.Names := by
  rw [Tree.paramsFault?] at hf
  split at hf
  · cases hf
  · rw [Option.or_eq_none_iff] at hf
    obtain ⟨names, hnames⟩ := names_of_firstParamFault? hu.spine.1 hf.1
    refine ⟨names, ?_⟩
    rw [Tree.elements?, ← hnames]
    cases htail : t.spine.2.isNil with
    | true => rfl
    | false => simp [htail] at hf

theorem Names.spine {t : Tree} {names : List String} (ht : t.elements? = some (names.map .atom)) :
    t.spine.1 = names.map .atom := by
  rw [Tree.elements?] at ht
  split at ht
  · exact Option.some.inj ht
  · cases ht

theorem map_name_atom (names : List String) : (names.map Tree.atom).map Tree.name = names := by
  rw [List.map_map]
  exact List.map_id names

theorem filterMap_names {h : Heap} {vs : List Ref} {names : List String}
    (hvs : List.Forall₂ h.Unfolds vs (names.map .atom)) :
    vs.filterMap (fun p => (h.cell? p).map Cell.name) = names := by
  induction names generalizing vs with
  | nil =>
      cases hvs
      rfl
  | cons name names ih =>
      cases hvs with
      | cons hv hvs =>
          rw [List.filterMap_cons, hv.cell?_atom, ih hvs]
          rfl

theorem Unfolds.freeNames_eq {h : Heap} {params body : Ref} {t u : Tree}
    (hparams : h.Unfolds params t) (hnames : t.Names) (hbody : h.Unfolds body u) :
    h.freeNames params body = t.freeNames u := by
  obtain ⟨names, hnames⟩ := hnames
  have hspine := hparams.spine.1
  rw [Names.spine hnames] at hspine
  rw [freeNames, Tree.freeNames, Names.spine hnames, map_name_atom,
    hbody.atomsTo_eq hbody.height_le, filterMap_names hspine]

theorem entries_live {h : Heap} {bs : List BindingId} {env : Reference.Env}
    (henv : List.Forall₂ h.Entry bs env) :
    ∀ b ∈ bs, h.LiveRef (h.binding b).name ∧ h.LiveRef (h.binding b).value :=
  ((List.forall₂_and_left _ _).mp
    (henv.imp fun _ _ hb => ⟨⟨hb.1.liveRef, hb.2.liveRef⟩, hb⟩)).1

theorem newClosure_unfolds {h : Heap} {params body : Ref} {c : Chain} {t u : Tree}
    {bs : List BindingId} {env : Reference.Env} (hparams : h.Unfolds params t) (hnames : t.Names)
    (hbody : h.Unfolds body u) (hl : h.Linked c bs) (henv : List.Forall₂ h.Entry bs env) :
    (h.newClosure params body c).2.Unfolds (h.newClosure params body c).1
      (.closure t u (Reference.toScope (Reference.capture env (t.freeNames u) []))) := by
  have he₁ := (copy_copies hparams.liveRef).grown
  have hbody₁ := he₁.unfolds hbody
  have he₂ := (copy_copies hbody₁.liveRef).grown
  have hparams₂ := he₂.unfolds hparams.copy
  have he := he₁.trans he₂
  have henv₂ : List.Forall₂ _ bs env := henv.imp fun _ _ => he.entry
  have hcaptured : Heap.UnfoldsChain _ _ (Reference.toScope
      (Reference.capture env (t.freeNames u) [])) :=
    capture_unfolds (t.freeNames u) (he.linked hl) henv₂ .empty
  have hnone : Copies _ _ (Node.ofChain none) :=
    (Builds.refl (fun _ => False) ((h.copy params).2.copy body).2).weaken fun _ hn => by simp at hn
  have he₃ := (capture_copies (t.freeNames u) (he.linked hl) (entries_live henv₂) hnone).2
  rw [newClosure]
  dsimp only
  rw [hparams₂.freeNames_eq hnames hbody₁.copy]
  exact unfolds_newClosure (he₃.unfolds hparams₂) hnames (he₃.unfolds hbody₁.copy) hcaptured

/-! ## Closures that wait for more -/

theorem copyEach_unfolds {h : Heap} {vs : List Ref} {ts : List Tree}
    (hvs : List.Forall₂ h.Unfolds vs ts) :
    h.Extends (h.copyEach vs).2 ∧ List.Forall₂ (h.copyEach vs).2.Unfolds (h.copyEach vs).1 ts := by
  induction vs generalizing h ts with
  | nil =>
      cases hvs
      exact ⟨.refl h, .nil⟩
  | cons v vs ih =>
      cases hvs with
      | cons hv hvs =>
          have he := (copy_copies hv.liveRef).grown
          obtain ⟨he', hvs'⟩ := ih (hvs.imp fun _ _ => he.unfolds)
          exact ⟨he.trans he', .cons (he'.unfolds hv.copy) hvs'⟩

theorem supply_unfolds {h : Heap} {pairs : List (Ref × Ref)} {frame taken : Reference.Env}
    {captured : Chain} (hpairs : List.Forall₂ (fun p e => h.Unfolds p.1 (.atom e.1) ∧
      h.Unfolds p.2 e.2) pairs frame)
    (hc : h.UnfoldsChain captured (Reference.toScope taken)) :
    h.Extends (h.supply pairs captured).2 ∧
      (h.supply pairs captured).2.UnfoldsChain (h.supply pairs captured).1
        (Reference.toScope (frame.reverse ++ taken)) := by
  induction pairs generalizing h frame taken captured with
  | nil =>
      cases hpairs
      exact ⟨.refl h, hc⟩
  | cons p pairs ih =>
      obtain ⟨param, value⟩ := p
      cases hpairs with
      | @cons _ e _ frame hp hpairs =>
          have he₁ := (copy_copies hp.1.liveRef).grown
          have he := he₁.trans (extends_put _ (h.copy param).1 value captured)
          have hput : Heap.UnfoldsChain _ _ (Reference.toScope (e :: taken)) :=
            unfoldsChain_put hp.1.copy (he₁.unfolds hp.2) (he₁.unfoldsChain hc)
          obtain ⟨he', hc'⟩ := ih (hpairs.imp fun _ _ hq => ⟨he.unfolds hq.1, he.unfolds hq.2⟩) hput
          rw [List.reverse_cons, List.append_assoc]
          exact ⟨he.trans he', hc'⟩

theorem zip_unfolds {h : Heap} {params values : List Ref} {names : List String} {ts : List Tree}
    (hparams : List.Forall₂ h.Unfolds params (names.map .atom))
    (hvalues : List.Forall₂ h.Unfolds values ts) :
    List.Forall₂ (fun p e => h.Unfolds p.1 (.atom e.1) ∧ h.Unfolds p.2 e.2)
      (params.zip values) (names.zip ts) := by
  induction names generalizing params values ts with
  | nil =>
      cases hparams
      exact .nil
  | cons name names ih =>
      cases hparams with
      | cons hp hparams =>
          cases hvalues with
          | nil => exact .nil
          | cons hv hvalues => exact .cons ⟨hp, hv⟩ (ih hparams hvalues)

theorem newPartial_unfolds {h : Heap} {c : Closure} {params values : List Ref}
    {names : List String} {ts : List Tree} {u : Tree} {s : Scope}
    (hparams : List.Forall₂ h.Unfolds params (names.map .atom))
    (hvalues : List.Forall₂ h.Unfolds values ts) (hbody : h.Unfolds c.body u)
    (hcaptured : h.UnfoldsChain c.captured s) :
    (h.newPartial c params values).2.Unfolds (h.newPartial c params values).1
      (.closure (.ofList ((names.map .atom).drop ts.length)) u
        (Reference.toScope ((names.zip ts).reverse ++ Reference.ofScope s))) := by
  have hrest : List.Forall₂ h.Unfolds (params.drop values.length)
      ((names.map .atom).drop ts.length) := by
    rw [hvalues.length_eq]
    exact List.forall₂_drop _ hparams
  have hnames : (Tree.ofList ((names.map .atom).drop ts.length)).Names :=
    ⟨names.drop ts.length, by rw [Tree.elements?_ofList, List.map_drop]⟩
  obtain ⟨he₁, hrest⟩ := copyEach_unfolds hrest
  have he₂ := he₁.trans (extends_list (h.copyEach (params.drop values.length)).1 _)
  have he₃ := (copy_copies (he₂.unfolds hbody).liveRef).grown
  have hcaptured₃ := (he₂.trans he₃).unfoldsChain hcaptured
  have he₄ := (copyChain_copies hcaptured₃.liveChain).grown
  have he := (he₂.trans he₃).trans he₄
  have hcopied := hcaptured₃.copyChain
  obtain ⟨_, _, _, hscope⟩ := hcaptured.entries
  rw [← hscope] at hcopied
  obtain ⟨he₅, hsupplied⟩ := supply_unfolds
    (zip_unfolds (hparams.imp fun _ _ => he.unfolds) (hvalues.imp fun _ _ => he.unfolds)) hcopied
  exact unfolds_newClosure (((he₃.trans he₄).trans he₅).unfolds (unfolds_list hrest)) hnames
    ((he₄.trans he₅).unfolds (he₂.unfolds hbody).copy) hsupplied

end Heap

end ArenaLisp
