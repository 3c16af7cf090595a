import ArenaLisp.Proofs.Reference

/-!
# Values that unfold into trees

`Unfolds h v t` says that following the references of `v` comes to an end and gives the tree
`t`, with nothing released on the way. A heap is no tree, and a value may be reached along many
paths, but no path comes to a node twice: what a node unfolds into shrinks along it. So no
path is longer than there are nodes, and the walks of the heap, which are given that many
steps, see all of the tree.

What a value unfolds into depends only on what it holds. So it is the same in every heap that
the value's own heap grows into, and on every machine that its machine evolves into.
-/

namespace ArenaLisp

/-- Whether a value is a proper list of atoms, as the parameters of a closure are. -/
def Tree.Names (t : Tree) : Prop := ∃ names : List String, t.elements? = some (names.map .atom)

mutual

/-- The number of nodes on the longest path of a tree. -/
def Tree.height : Tree → Nat
  | .absent => 0
  | .pair car cdr => max car.height cdr.height + 1
  | .closure params body captured => max params.height (max body.height captured.height) + 1
  | _ => 1

def Scope.height : Scope → Nat
  | .empty => 0
  | .binding _ name value rest => max name.height (max value.height rest.height) + 1

end

namespace Heap

mutual

/-- Whether a value unfolds into a tree. -/
inductive Unfolds (h : Heap) : Ref → Tree → Prop
  | absent : Unfolds h none .absent
  | atom {a : Addr} {name : String} (hcell : h.cell a = .live (.atom name)) :
      Unfolds h (some a) (.atom name)
  | number {a : Addr} {x : Number} (hcell : h.cell a = .live (.number x)) :
      Unfolds h (some a) (.number x)
  | primitive {a : Addr} {p : Primitive} (hcell : h.cell a = .live (.primitive p)) :
      Unfolds h (some a) (.primitive p)
  | pair {a : Addr} {car cdr : Ref} {t u : Tree} (hcell : h.cell a = .live (.pair car cdr))
      (hcar : Unfolds h car t) (hcdr : Unfolds h cdr u) : Unfolds h (some a) (.pair t u)
  | closure {a : Addr} {c : Closure} {params body : Tree} {s : Scope}
      (hcell : h.cell a = .live (.closure c)) (hparams : Unfolds h c.params params)
      (hnames : params.Names) (hbody : Unfolds h c.body body)
      (hcaptured : UnfoldsChain h c.captured s) : Unfolds h (some a) (.closure params body s)

/-- Whether a chain of bindings unfolds into one of trees. -/
inductive UnfoldsChain (h : Heap) : Chain → Scope → Prop
  | empty : UnfoldsChain h none .empty
  | binding {b : BindingId} {name : String} {t : Tree} {s : Scope}
      (hreleased : (h.binding b).released = false)
      (hname : Unfolds h (h.binding b).name (.atom name))
      (hvalue : Unfolds h (h.binding b).value t) (hnext : UnfoldsChain h (h.binding b).next s) :
      UnfoldsChain h (some b) (.binding false (.atom name) t s)

end

/-! ## Liveness -/

theorem has_of_cell {h : Heap} {a : Addr} {d : Datum} (hcell : h.cell a = .live d)
    (hd : ∀ code, d ≠ .unknown code) : h.Has (.value a) := by
  refine Classical.byContradiction fun hn => hd 0 ?_
  rw [cell_of_not_has hn] at hcell
  exact (Cell.live.inj hcell).symm

theorem has_of_name {h : Heap} {b : BindingId} {name : String}
    (hname : h.Unfolds (h.binding b).name (.atom name)) : h.Has (.binding b) := by
  refine Classical.byContradiction fun hn => ?_
  rw [binding_of_not_has hn] at hname
  cases hname

theorem live_of_cell {h : Heap} {a : Addr} {d : Datum} (hcell : h.cell a = .live d)
    (hd : ∀ code, d ≠ .unknown code) (hparts : ∀ k ∈ d.parts, h.Live k) : h.LiveRef (some a) := by
  refine liveRef_some.mpr (.of_parts (has_of_cell hcell hd) ?_ ?_)
  · simp [Released, hcell, Cell.isReleased]
  · rw [parts, hcell]
    exact hparts

mutual

theorem Unfolds.liveRef {h : Heap} : ∀ {t : Tree} {v : Ref}, h.Unfolds v t → h.LiveRef v
  | _, _, .absent => liveRef_none h
  | _, _, .atom hcell => live_of_cell hcell (by simp) fun k hk => absurd hk List.not_mem_nil
  | _, _, .number hcell => live_of_cell hcell (by simp) fun k hk => absurd hk List.not_mem_nil
  | _, _, .primitive hcell => live_of_cell hcell (by simp) fun k hk => absurd hk List.not_mem_nil
  | .pair t u, _, .pair hcell hcar hcdr => live_of_cell hcell (by simp) fun k hk => by
      rcases List.mem_append.mp hk with hk | hk
      · exact liveRef_iff.mp hcar.liveRef k hk
      · exact liveRef_iff.mp hcdr.liveRef k hk
  | .closure params body s, _, .closure hcell hparams _ hbody hcaptured =>
      live_of_cell hcell (by simp) fun k hk => by
        rcases List.mem_append.mp hk with hk | hk
        · exact liveRef_iff.mp hparams.liveRef k hk
        · rcases List.mem_append.mp hk with hk | hk
          · exact liveRef_iff.mp hbody.liveRef k hk
          · exact hcaptured.liveChain k hk

theorem UnfoldsChain.liveChain {h : Heap} :
    ∀ {s : Scope} {c : Chain}, h.UnfoldsChain c s → h.LiveChain c
  | _, _, .empty => fun k hk => absurd hk List.not_mem_nil
  | .binding _ _ t s, _, .binding hreleased hname hvalue hnext => fun k hk => by
      obtain ⟨b, hb, rfl⟩ := Node.mem_ofChain.mp hk
      cases hb
      refine .of_parts (has_of_name hname) (by simp [Released, hreleased]) fun k hk => ?_
      rcases List.mem_append.mp hk with hk | hk
      · exact liveRef_iff.mp hname.liveRef k hk
      · rcases List.mem_append.mp hk with hk | hk
        · exact liveRef_iff.mp hvalue.liveRef k hk
        · exact hnext.liveChain k hk

end

/-! ## What a value unfolds into depends only on what it holds -/

/-- What the parts of a value hold, the value holds. -/
theorem holds_of_cell {h : Heap} {a : Addr} {d : Datum} (hcell : h.cell a = .live d) {p k : Node}
    (hp : p ∈ d.parts) (hk : h.Reaches p k) : h.Holds (some a) k := by
  refine holds_some.mpr ((Reaches.of_part ?_).trans hk)
  rw [parts, hcell]
  exact hp

mutual

theorem Unfolds.congr {h h' : Heap} : ∀ {t : Tree} {v : Ref}, h.Unfolds v t →
    (∀ k, h.Holds v k → h.AgreeAt h' k) → h'.Unfolds v t
  | _, _, .absent, _ => .absent
  | _, some a, .atom hcell, hv => .atom (.trans (hv (.value a) (holds_some.mpr (.refl _))) hcell)
  | _, some a, .number hcell, hv =>
      .number (.trans (hv (.value a) (holds_some.mpr (.refl _))) hcell)
  | _, some a, .primitive hcell, hv =>
      .primitive (.trans (hv (.value a) (holds_some.mpr (.refl _))) hcell)
  | .pair t u, some a, .pair hcell hcar hcdr, hv => by
      refine .pair (.trans (hv (.value a) (holds_some.mpr (.refl _))) hcell)
        (hcar.congr fun k hk => ?_) (hcdr.congr fun k hk => ?_)
      · obtain ⟨p, hp, hr⟩ := holds_iff.mp hk
        exact hv k (holds_of_cell hcell (List.mem_append_left _ hp) hr)
      · obtain ⟨p, hp, hr⟩ := holds_iff.mp hk
        exact hv k (holds_of_cell hcell (List.mem_append_right _ hp) hr)
  | .closure params body s, some a, .closure hcell hparams hnames hbody hcaptured, hv => by
      refine .closure (.trans (hv (.value a) (holds_some.mpr (.refl _))) hcell)
        (hparams.congr fun k hk => ?_) hnames (hbody.congr fun k hk => ?_)
        (hcaptured.congr fun p hp k hr => ?_)
      · obtain ⟨p, hp, hr⟩ := holds_iff.mp hk
        exact hv k (holds_of_cell hcell (List.mem_append_left _ hp) hr)
      · obtain ⟨p, hp, hr⟩ := holds_iff.mp hk
        exact hv k (holds_of_cell hcell (List.mem_append_right _ (List.mem_append_left _ hp)) hr)
      · exact hv k (holds_of_cell hcell (List.mem_append_right _ (List.mem_append_right _ hp)) hr)

theorem UnfoldsChain.congr {h h' : Heap} : ∀ {s : Scope} {c : Chain}, h.UnfoldsChain c s →
    (∀ n ∈ Node.ofChain c, ∀ k, h.Reaches n k → h.AgreeAt h' k) → h'.UnfoldsChain c s
  | _, _, .empty, _ => .empty
  | .binding _ _ t s, some b, .binding hreleased hname hvalue hnext, hc => by
      have hb : ∀ k, h.Reaches (.binding b) k → h.AgreeAt h' k := hc (.binding b) (by simp)
      have hparts : ∀ p ∈ (h.binding b).parts, ∀ k, h.Reaches p k → h.AgreeAt h' k :=
        fun p hp k hk => hb k ((Reaches.of_part hp).trans hk)
      have hsame : h'.binding b = h.binding b := hb (.binding b) (.refl _)
      rw [← hsame] at hreleased
      refine .binding hreleased ?_ ?_ ?_
      · rw [hsame]
        refine hname.congr fun k hk => ?_
        obtain ⟨p, hp, hr⟩ := holds_iff.mp hk
        exact hparts p (List.mem_append_left _ hp) k hr
      · rw [hsame]
        refine hvalue.congr fun k hk => ?_
        obtain ⟨p, hp, hr⟩ := holds_iff.mp hk
        exact hparts p (List.mem_append_right _ (List.mem_append_left _ hp)) k hr
      · rw [hsame]
        exact hnext.congr fun p hp => hparts p
          (List.mem_append_right _ (List.mem_append_right _ hp))

end

theorem Extends.unfolds {h h' : Heap} (he : h.Extends h') {v : Ref} {t : Tree}
    (hu : h.Unfolds v t) : h'.Unfolds v t :=
  hu.congr fun k hk => he.agreeAt (hu.liveRef k hk).1

theorem Extends.unfoldsChain {h h' : Heap} (he : h.Extends h') {c : Chain} {s : Scope}
    (hu : h.UnfoldsChain c s) : h'.UnfoldsChain c s :=
  hu.congr fun n hn k hk => he.agreeAt (hu.liveChain n hn k hk).1

/-! ## What a value unfolds into is one tree -/

mutual

theorem Unfolds.unique {h : Heap} : ∀ {t t' : Tree} {v : Ref}, h.Unfolds v t → h.Unfolds v t' →
    t = t'
  | _, _, _, .absent, .absent => rfl
  | _, _, _, .atom hcell, hu => by
      cases hu <;> simp_all
  | _, _, _, .number hcell, hu => by
      cases hu <;> simp_all
  | _, _, _, .primitive hcell, hu => by
      cases hu <;> simp_all
  | .pair t u, _, _, .pair hcell hcar hcdr, hu => by
      cases hu with
      | pair hcell' hcar' hcdr' =>
          rw [hcell] at hcell'
          cases hcell'
          rw [hcar.unique hcar', hcdr.unique hcdr']
      | _ => simp_all
  | .closure params body s, _, _, .closure hcell hparams _ hbody hcaptured, hu => by
      cases hu with
      | closure hcell' hparams' _ hbody' hcaptured' =>
          rw [hcell] at hcell'
          cases hcell'
          rw [hparams.unique hparams', hbody.unique hbody', hcaptured.unique hcaptured']
      | _ => simp_all

theorem UnfoldsChain.unique {h : Heap} : ∀ {s s' : Scope} {c : Chain}, h.UnfoldsChain c s →
    h.UnfoldsChain c s' → s = s'
  | _, _, _, .empty, .empty => rfl
  | .binding _ _ t s, _, _, .binding _ hname hvalue hnext, hu => by
      cases hu with
      | binding _ hname' hvalue' hnext' =>
          rw [hname.unique hname', hvalue.unique hvalue', hnext.unique hnext']

end

/-! ## No path is longer than there are nodes -/

/-- Whether a node unfolds into something of a given size. -/
def SizeAt (h : Heap) : Node → Nat → Prop
  | .value a, size => ∃ t, h.Unfolds (some a) t ∧ sizeOf t = size
  | .binding b, size => ∃ s, h.UnfoldsChain (some b) s ∧ sizeOf s = size

/-- Nodes that unfold into less and less, beginning with no more than a given size. -/
def Descent (h : Heap) (size : Nat) (l : List (Node × Nat)) : Prop :=
  (∀ p ∈ l, h.SizeAt p.1 p.2 ∧ p.2 ≤ size) ∧ l.Pairwise fun p q => q.2 < p.2

theorem SizeAt.unique {h : Heap} {n : Node} {size size' : Nat} (hn : h.SizeAt n size)
    (hn' : h.SizeAt n size') : size = size' := by
  cases n with
  | value a =>
      obtain ⟨t, ht, rfl⟩ := hn
      obtain ⟨t', ht', rfl⟩ := hn'
      rw [ht.unique ht']
  | binding b =>
      obtain ⟨s, hs, rfl⟩ := hn
      obtain ⟨s', hs', rfl⟩ := hn'
      rw [hs.unique hs']

theorem SizeAt.has {h : Heap} {n : Node} {size : Nat} (hn : h.SizeAt n size) : h.Has n := by
  cases n with
  | value a =>
      obtain ⟨t, ht, _⟩ := hn
      exact (liveRef_some.mp ht.liveRef).has
  | binding b =>
      obtain ⟨s, hs, _⟩ := hn
      exact (hs.liveChain _ (by simp)).has

theorem Descent.nil (h : Heap) (size : Nat) : h.Descent size [] :=
  ⟨fun _ hp => absurd hp List.not_mem_nil, .nil⟩

theorem Descent.cons {h : Heap} {size size' : Nat} {l : List (Node × Nat)} {n : Node}
    (hl : h.Descent size l) (hn : h.SizeAt n size') (hlt : size < size') :
    h.Descent size' ((n, size') :: l) := by
  refine ⟨fun p hp => ?_, List.pairwise_cons.mpr ⟨fun p hp => ?_, hl.2⟩⟩
  · rcases List.mem_cons.mp hp with rfl | hp
    · exact ⟨hn, Nat.le_refl _⟩
    · exact ⟨(hl.1 p hp).1, Nat.le_of_lt (Nat.lt_of_le_of_lt (hl.1 p hp).2 hlt)⟩
  · exact Nat.lt_of_le_of_lt (hl.1 p hp).2 hlt

theorem Descent.mono {h : Heap} {size size' : Nat} {l : List (Node × Nat)}
    (hl : h.Descent size l) (hle : size ≤ size') : h.Descent size' l :=
  ⟨fun p hp => ⟨(hl.1 p hp).1, Nat.le_trans (hl.1 p hp).2 hle⟩, hl.2⟩

/-- A descent comes to no node twice. -/
theorem Descent.nodup {h : Heap} {size : Nat} {l : List (Node × Nat)} (hl : h.Descent size l) :
    (l.map Prod.fst).Nodup := by
  refine List.pairwise_map.mpr (hl.2.imp_of_mem fun {p q} hp hq hlt heq => ?_)
  have hsame := (heq ▸ (hl.1 p hp).1).unique (hl.1 q hq).1
  omega

/-- A descent is no longer than there are nodes. -/
theorem Descent.length_le {h : Heap} {size : Nat} {l : List (Node × Nat)}
    (hl : h.Descent size l) : l.length ≤ h.depth := by
  have hall : ∀ n ∈ l.map Prod.fst, h.Has n := by
    intro n hn
    obtain ⟨p, hp, rfl⟩ := List.mem_map.mp hn
    exact (hl.1 p hp).1.has
  rw [← List.length_map Prod.fst]
  exact length_le_depth hl.nodup hall

/-- A descent through values is no longer than there are values. -/
theorem Descent.length_le_cells {h : Heap} {size : Nat} {l : List (Node × Nat)}
    (hl : h.Descent size l) (hvalues : ∀ p ∈ l, ∃ a, p.1 = .value a) :
    l.length ≤ h.cells.size := by
  have hsub : List.Subperm (l.map Prod.fst)
      ((List.range h.cells.size).map fun i => .value ⟨i⟩) := by
    refine hl.nodup.subperm fun n hn => ?_
    obtain ⟨p, hp, rfl⟩ := List.mem_map.mp hn
    obtain ⟨a, ha⟩ := hvalues p hp
    have hhas := (hl.1 p hp).1.has
    rw [ha] at hhas ⊢
    exact List.mem_map.mpr ⟨a.index, List.mem_range.mpr hhas, rfl⟩
  simpa using hsub.length_le

/-- Whether there is a descent of a given length. -/
def Descends (h : Heap) (size length : Nat) : Prop := ∃ l, h.Descent size l ∧ l.length = length

theorem Descends.zero (h : Heap) (size : Nat) : h.Descends size 0 := ⟨[], .nil h size, rfl⟩

theorem Descends.longer {h : Heap} {size size' n n' : Nat} (hl : h.Descends size n)
    (hl' : h.Descends size' n') : h.Descends (max size size') (max n n') := by
  obtain ⟨l, hl, hlen⟩ := hl
  obtain ⟨l', hl', hlen'⟩ := hl'
  by_cases hle : n ≤ n'
  · exact ⟨l', hl'.mono (Nat.le_max_right _ _), by omega⟩
  · exact ⟨l, hl.mono (Nat.le_max_left _ _), by omega⟩

theorem Descends.step {h : Heap} {size size' n : Nat} (hl : h.Descends size n) (k : Node)
    (hk : h.SizeAt k size') (hlt : size < size') : h.Descends size' (n + 1) := by
  obtain ⟨l, hl, hlen⟩ := hl
  exact ⟨_, hl.cons hk hlt, by rw [List.length_cons, hlen]⟩

mutual

/-- The longest path of a tree is a descent. -/
theorem Unfolds.descends {h : Heap} : ∀ {t : Tree} {v : Ref}, h.Unfolds v t →
    h.Descends (sizeOf t) t.height
  | _, _, .absent => .zero h _
  | _, some a, hu@(.atom _) =>
      (Descends.zero h 0).step (.value a) ⟨_, hu, rfl⟩ (by rw [Tree.atom.sizeOf_spec]; omega)
  | _, some a, hu@(.number _) =>
      (Descends.zero h 0).step (.value a) ⟨_, hu, rfl⟩ (by rw [Tree.number.sizeOf_spec]; omega)
  | _, some a, hu@(.primitive _) =>
      (Descends.zero h 0).step (.value a) ⟨_, hu, rfl⟩ (by rw [Tree.primitive.sizeOf_spec]; omega)
  | .pair t u, some a, hu@(.pair _ hcar hcdr) =>
      (hcar.descends.longer hcdr.descends).step (.value a) ⟨_, hu, rfl⟩
        (by rw [Tree.pair.sizeOf_spec]; omega)
  | .closure params body s, some a, hu@(.closure _ hparams _ hbody hcaptured) =>
      (hparams.descends.longer (hbody.descends.longer hcaptured.descends)).step (.value a)
        ⟨_, hu, rfl⟩ (by rw [Tree.closure.sizeOf_spec]; omega)

theorem UnfoldsChain.descends {h : Heap} : ∀ {s : Scope} {c : Chain}, h.UnfoldsChain c s →
    h.Descends (sizeOf s) s.height
  | _, _, .empty => .zero h _
  | .binding _ _ t s, some b, hu@(.binding _ hname hvalue hnext) =>
      (hname.descends.longer (hvalue.descends.longer hnext.descends)).step (.binding b)
        ⟨_, hu, rfl⟩ (by rw [Scope.binding.sizeOf_spec]; omega)

end

theorem Unfolds.height_le {h : Heap} {v : Ref} {t : Tree} (hu : h.Unfolds v t) :
    t.height ≤ h.depth := by
  obtain ⟨l, hl, hlen⟩ := hu.descends
  rw [← hlen]
  exact hl.length_le

theorem UnfoldsChain.height_le {h : Heap} {c : Chain} {s : Scope} (hu : h.UnfoldsChain c s) :
    s.height ≤ h.depth := by
  obtain ⟨l, hl, hlen⟩ := hu.descends
  rw [← hlen]
  exact hl.length_le

end Heap

end ArenaLisp
