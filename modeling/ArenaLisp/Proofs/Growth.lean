import ArenaLisp.Heap.Copy
import ArenaLisp.Proofs.Editing

/-!
# How the heap grows

Making values and bindings only ever adds to the heap. `Extends` says that nothing
that was there has changed, and `Clean` says what the new part refers to: to itself
and to a few nodes that were there, and that none of it is released. `Builds` says moreover
that it was made one node after the other.

Copying is clean with no exceptions: a copy refers to nothing older. This is what
everything that lasts beyond a turn is made by.
-/

namespace ArenaLisp.Heap

/-- One heap grown into another: nothing that was there has changed. -/
structure Extends (h h' : Heap) : Prop where
  cells_le : h.cells.size ≤ h'.cells.size
  bindings_le : h.bindings.size ≤ h'.bindings.size
  cell : ∀ a, h.Has (.value a) → h'.cell a = h.cell a
  binding : ∀ b, h.Has (.binding b) → h'.binding b = h.binding b

/-- Whether a node is in the later of two heaps and not in the earlier. -/
def Made (h h' : Heap) (n : Node) : Prop := h'.Has n ∧ ¬h.Has n

/--
Whether everything made between two heaps is not released and refers only to what is
there: to what was made as well, or to the nodes `A` of the earlier heap.
-/
def Clean (h : Heap) (A : Node → Prop) (h' : Heap) : Prop :=
  ∀ n, h.Made h' n → ¬h'.Released n ∧ ∀ k ∈ h'.parts n, h'.Has k ∧ (h.Has k → A k)

/-- Whether everything in the heap refers only to what is in it. -/
def Bounded (h : Heap) : Prop := ∀ n, ∀ k ∈ h.parts n, h.Has k

/-- Whether the front of a chain is live. -/
def LiveChain (h : Heap) (c : Chain) : Prop := ∀ n ∈ Node.ofChain c, h.Live n

/-- A binding may be given any value that is in the heap. -/
theorem overwritten_bounded {h : Heap} {b : BindingId} {v : Ref} (hbd : h.Bounded)
    (hv : ∀ k ∈ Node.ofRef v, h.Has k) : (h.overwritten b v).Bounded := by
  intro n k hk
  rw [overwritten_has]
  by_cases hn : n = .binding b
  · subst hn
    have hb : h.Has (.binding b) := overwritten_has.mp (has_of_mem_parts hk)
    simp only [parts, Binding.parts, overwritten_self hb, List.mem_append] at hk
    rcases hk with hk | hk | hk
    · exact hbd (.binding b) k (List.mem_append_left _ hk)
    · exact hv k hk
    · exact hbd (.binding b) k (List.mem_append_right _ (List.mem_append_right _ hk))
  · rw [(overwritten_agreeAt hn).parts_eq] at hk
    exact hbd n k hk

/-! ## What a live node refers to -/

theorem Live.pair {h : Heap} {a : Addr} {car cdr : Ref} (ha : h.Live (.value a))
    (hcell : h.cell a = .live (.pair car cdr)) : h.LiveRef car ∧ h.LiveRef cdr := by
  have hparts : h.parts (.value a) = Node.ofRef car ++ Node.ofRef cdr := by
    rw [parts, hcell]; rfl
  constructor
  · exact liveRef_iff.mpr fun k hk => ha.part (hparts ▸ List.mem_append_left _ hk)
  · exact liveRef_iff.mpr fun k hk => ha.part (hparts ▸ List.mem_append_right _ hk)

theorem Live.closure {h : Heap} {a : Addr} {c : Closure} (ha : h.Live (.value a))
    (hcell : h.cell a = .live (.closure c)) :
    h.LiveRef c.params ∧ h.LiveRef c.body ∧ h.LiveChain c.captured := by
  have hpart : ∀ k ∈ Node.ofRef c.params ++ (Node.ofRef c.body ++ Node.ofChain c.captured),
      h.Live k := fun k hk => ha.part (by rw [parts, hcell]; exact hk)
  simp only [List.mem_append] at hpart
  exact ⟨liveRef_iff.mpr fun k hk => hpart k (Or.inl hk),
    liveRef_iff.mpr fun k hk => hpart k (Or.inr (Or.inl hk)),
    fun k hk => hpart k (Or.inr (Or.inr hk))⟩

theorem Live.fields {h : Heap} {b : BindingId} (hb : h.Live (.binding b)) :
    h.LiveRef (h.binding b).name ∧ h.LiveRef (h.binding b).value ∧
      h.LiveChain (h.binding b).next := by
  have hpart : ∀ k ∈ (h.binding b).parts, h.Live k := fun k hk => hb.part hk
  simp only [Binding.parts, List.mem_append] at hpart
  exact ⟨liveRef_iff.mpr fun k hk => hpart k (Or.inl hk),
    liveRef_iff.mpr fun k hk => hpart k (Or.inr (Or.inl hk)),
    fun k hk => hpart k (Or.inr (Or.inr hk))⟩

/-- The fields of a live value are live, whether it is a pair or not. -/
theorem liveRef_fields {h : Heap} {a : Addr} (ha : h.LiveRef (some a)) :
    h.LiveRef (h.cell a).car ∧ h.LiveRef (h.cell a).cdr := by
  cases hcell : h.cell a with
  | released husk => exact ⟨liveRef_none h, liveRef_none h⟩
  | live d =>
      cases d with
      | pair car cdr => exact (liveRef_some.mp ha).pair hcell
      | _ => exact ⟨liveRef_none h, liveRef_none h⟩

namespace Extends

theorem refl (h : Heap) : h.Extends h :=
  ⟨Nat.le_refl _, Nat.le_refl _, fun _ _ => rfl, fun _ _ => rfl⟩

theorem has {h h' : Heap} (he : h.Extends h') {n : Node} (hn : h.Has n) : h'.Has n := by
  cases n with
  | value a => exact Nat.lt_of_lt_of_le hn he.cells_le
  | binding b => exact Nat.lt_of_lt_of_le hn he.bindings_le

theorem agreeAt {h h' : Heap} (he : h.Extends h') {n : Node} (hn : h.Has n) :
    h.AgreeAt h' n := by
  cases n with
  | value a => exact he.cell a hn
  | binding b => exact he.binding b hn

theorem trans {h h' h'' : Heap} (he : h.Extends h') (he' : h'.Extends h'') : h.Extends h'' where
  cells_le := Nat.le_trans he.cells_le he'.cells_le
  bindings_le := Nat.le_trans he.bindings_le he'.bindings_le
  cell a ha := (he'.cell a (he.has ha)).trans (he.cell a ha)
  binding b hb := (he'.binding b (he.has hb)).trans (he.binding b hb)

/-- What is reached from within the heap is still reached, and nothing more. -/
theorem holds_iff {h h' : Heap} (he : h.Extends h') {v : Ref} (hv : ∀ k, h.Holds v k → h.Has k)
    {k : Node} : h'.Holds v k ↔ h.Holds v k :=
  holds_congr fun l hl => he.agreeAt (hv l hl)

theorem liveRef {h h' : Heap} (he : h.Extends h') {v : Ref} (hv : h.LiveRef v) : h'.LiveRef v :=
  liveRef_congr hv (fun k hk => he.agreeAt (hv k hk).1) fun _ hk => he.has hk

theorem live {h h' : Heap} (he : h.Extends h') {n : Node} (hn : h.Live n) : h'.Live n := by
  intro k hk
  have hk' := (reaches_congr fun l hl => he.agreeAt (hn l hl).1).mp hk
  refine ⟨he.has (hn k hk').1, fun hr => (hn k hk').2 ?_⟩
  exact (he.agreeAt (hn k hk').1).released_iff.mp hr

theorem liveChain {h h' : Heap} (he : h.Extends h') {c : Chain} (hc : h.LiveChain c) :
    h'.LiveChain c :=
  fun n hn => he.live (hc n hn)

theorem cell?_eq {h h' : Heap} (he : h.Extends h') {v : Ref} (hv : h.LiveRef v) :
    h'.cell? v = h.cell? v := by
  cases v with
  | none => rfl
  | some a => rw [cell?, cell?, Option.map_some, Option.map_some,
      he.cell a (liveRef_some.mp hv).has]

theorem linked {h h' : Heap} (he : h.Extends h') {c : Chain} {bs : List BindingId}
    (hc : h.Linked c bs) : h'.Linked c bs :=
  hc.congr fun b hb => ⟨he.has (hc.has hb), by rw [he.binding b (hc.has hb)]⟩

end Extends

/-! ## Clean growth -/

namespace Clean

theorem refl (h : Heap) (A : Node → Prop) : h.Clean A h := fun _ hn => absurd hn.1 hn.2

/-- Growth by steps is clean when each step is, over what the steps before it made. -/
theorem trans {h h' h'' : Heap} {A B : Node → Prop} (he : h.Extends h') (he' : h'.Extends h'')
    (hc : h.Clean A h') (hc' : h'.Clean B h'') (hB : ∀ k, B k → h.Has k → A k) :
    h.Clean A h'' := by
  intro n hn
  by_cases hn' : h'.Has n
  · have hagree := he'.agreeAt hn'
    obtain ⟨hr, hp⟩ := hc n ⟨hn', hn.2⟩
    rw [hagree.released_iff, hagree.parts_eq]
    exact ⟨hr, fun k hk => ⟨he'.has (hp k hk).1, (hp k hk).2⟩⟩
  · obtain ⟨hr, hp⟩ := hc' n ⟨hn.1, hn'⟩
    exact ⟨hr, fun k hk => ⟨(hp k hk).1, fun hk₀ => hB k ((hp k hk).2 (he.has hk₀)) hk₀⟩⟩

/-- The heap stays bounded as it grows. -/
theorem bounded {h h' : Heap} {A : Node → Prop} (he : h.Extends h') (hc : h.Clean A h')
    (hb : h.Bounded) : h'.Bounded := by
  intro n k hk
  by_cases hn : h.Has n
  · rw [(he.agreeAt hn).parts_eq] at hk
    exact he.has (hb n k hk)
  · exact ((hc n ⟨has_of_mem_parts hk, hn⟩).2 k hk).1

/-- What is reached from the new part is new, or reached from what it refers to. -/
theorem reaches {h h' : Heap} {A : Node → Prop} (hc : h.Clean A h') {n k : Node}
    (hn : h.Made h' n) (hk : h'.Reaches n k) :
    h.Made h' k ∨ ∃ p, h.Has p ∧ A p ∧ h'.Reaches p k := by
  induction hk with
  | refl => exact Or.inl hn
  | @tail l p hl hp ih =>
      rcases ih with hmade | ⟨q, hq, hA, hql⟩
      · by_cases hp₀ : h.Has p
        · exact Or.inr ⟨p, hp₀, ((hc l hmade).2 p hp).2 hp₀, Reaches.refl p⟩
        · exact Or.inl ⟨((hc l hmade).2 p hp).1, hp₀⟩
      · exact Or.inr ⟨q, hq, hA, hql.trans (Reaches.of_part hp)⟩

/-- The new part is live when what it refers to is. -/
theorem live {h h' : Heap} {A : Node → Prop} (he : h.Extends h') (hc : h.Clean A h')
    (hA : ∀ p, h.Has p → A p → h.Live p) {n : Node} (hn : h.Made h' n) : h'.Live n := by
  intro k hk
  rcases hc.reaches hn hk with hmade | ⟨p, hp, hAp, hpk⟩
  · exact ⟨hmade.1, (hc k hmade).1⟩
  · exact he.live (hA p hp hAp) k hpk

end Clean

/-! ## Making a cell or a binding -/

theorem extends_alloc (h : Heap) (c : Cell) : h.Extends (h.alloc c).2 where
  cells_le := by simp [alloc]
  bindings_le := Nat.le_refl _
  cell a ha := by
    have hlt : a.index < h.cells.size := ha
    simp [cell, alloc, Array.getElem?_push, Nat.ne_of_lt hlt]
  binding _ _ := rfl

theorem cell_alloc (h : Heap) (c : Cell) : (h.alloc c).2.cell ⟨h.cells.size⟩ = c := by
  simp [cell, alloc]

theorem made_alloc {h : Heap} {c : Cell} {n : Node} :
    h.Made (h.alloc c).2 n ↔ n = .value ⟨h.cells.size⟩ := by
  cases n with
  | value a =>
      obtain ⟨i⟩ := a
      simp only [Made, Has, alloc, Array.size_push, Node.value.injEq, Addr.mk.injEq]
      omega
  | binding b => simp [Made, Has, alloc]

theorem extends_new (h : Heap) (d : Datum) : h.Extends (h.new d).2 := extends_alloc h (.live d)

theorem cell_new (h : Heap) (d : Datum) : (h.new d).2.cell ⟨h.cells.size⟩ = .live d :=
  cell_alloc h (.live d)

theorem made_new {h : Heap} {d : Datum} {n : Node} :
    h.Made (h.new d).2 n ↔ n = .value ⟨h.cells.size⟩ :=
  made_alloc (c := .live d)

theorem clean_new {h : Heap} {d : Datum} (hd : ∀ k ∈ d.parts, h.Has k) :
    h.Clean (· ∈ d.parts) (h.new d).2 := by
  intro n hn
  rw [made_new.mp hn]
  rw [Released, parts, cell_new]
  exact ⟨by simp [Cell.isReleased], fun k hk => ⟨(extends_new h d).has (hd k hk), fun _ => hk⟩⟩

theorem extends_put (h : Heap) (name value : Ref) (next : Chain) :
    h.Extends (h.put name value next).2 where
  cells_le := Nat.le_refl _
  bindings_le := by simp [put]
  cell _ _ := rfl
  binding b hb := by
    have hlt : b.index < h.bindings.size := hb
    simp [binding, put, Array.getElem?_push, Nat.ne_of_lt hlt]

theorem binding_put (h : Heap) (name value : Ref) (next : Chain) :
    (h.put name value next).2.binding ⟨h.bindings.size⟩ = ⟨name, value, next, false⟩ := by
  simp [binding, put]

theorem made_put {h : Heap} {name value : Ref} {next : Chain} {n : Node} :
    h.Made (h.put name value next).2 n ↔ n = .binding ⟨h.bindings.size⟩ := by
  cases n with
  | value a => simp [Made, Has, put]
  | binding b =>
      obtain ⟨i⟩ := b
      simp only [Made, Has, put, Array.size_push, Node.binding.injEq, BindingId.mk.injEq]
      omega

theorem clean_put {h : Heap} {name value : Ref} {next : Chain}
    (hp : ∀ k ∈ (⟨name, value, next, false⟩ : Binding).parts, h.Has k) :
    h.Clean (· ∈ (⟨name, value, next, false⟩ : Binding).parts) (h.put name value next).2 := by
  intro n hn
  rw [made_put.mp hn]
  rw [Released, parts, binding_put]
  exact ⟨by simp, fun k hk => ⟨(extends_put h name value next).has (hp k hk), fun _ => hk⟩⟩

/-! ## Building and copying -/

/--
Whether one heap is another with something built in it, over the nodes `A` of the
earlier heap. The nodes `ns` are what further building may refer to.
-/
structure Builds (A : Node → Prop) (h h' : Heap) (ns : List Node) : Prop where
  grown : h.Extends h'
  clean : h.Clean A h'
  usable : ∀ n ∈ ns, h'.Has n ∧ (h.Has n → A n)
  edits : h.Edits h'

/-- Building over nothing that was there. -/
abbrev Copies (h h' : Heap) (ns : List Node) : Prop := Builds (fun _ => False) h h' ns

namespace Builds

theorem refl (A : Node → Prop) (h : Heap) : Builds A h h [] :=
  ⟨.refl h, .refl h A, fun _ hn => absurd hn List.not_mem_nil, .refl h⟩

theorem append {A : Node → Prop} {h h' h'' : Heap} {ns ns' : List Node}
    (hb : Builds A h h' ns) (hc : h'.Copies h'' ns') : Builds A h h'' (ns ++ ns') where
  grown := hb.grown.trans hc.grown
  clean := hb.clean.trans hb.grown hc.grown hc.clean fun _ hk _ => hk.elim
  usable n hn := by
    rcases List.mem_append.mp hn with hn | hn
    · exact ⟨hc.grown.has (hb.usable n hn).1, (hb.usable n hn).2⟩
    · exact ⟨(hc.usable n hn).1, fun h₀ => ((hc.usable n hn).2 (hb.grown.has h₀)).elim⟩
  edits := hb.edits.trans hc.edits

/-- What is built over may be referred to. -/
theorem add {A : Node → Prop} {h h' : Heap} {ns ns' : List Node} (hb : Builds A h h' ns)
    (hA : ∀ n ∈ ns', h.Has n ∧ A n) : Builds A h h' (ns ++ ns') where
  grown := hb.grown
  clean := hb.clean
  usable n hn := by
    rcases List.mem_append.mp hn with hn | hn
    · exact hb.usable n hn
    · exact ⟨hb.grown.has (hA n hn).1, fun _ => (hA n hn).2⟩
  edits := hb.edits

theorem weaken {A : Node → Prop} {h h' : Heap} {ns ns' : List Node} (hb : Builds A h h' ns)
    (hs : ∀ n ∈ ns', n ∈ ns) : Builds A h h' ns' :=
  ⟨hb.grown, hb.clean, fun n hn => hb.usable n (hs n hn), hb.edits⟩

/-- What could be referred to still can, when more has been built. -/
theorem keep {A : Node → Prop} {h h' h'' : Heap} {ns ns' : List Node} (hb : Builds A h h' ns)
    (hb' : Builds A h h'' ns') (he : h'.Extends h'') : Builds A h h'' (ns ++ ns') where
  grown := hb'.grown
  clean := hb'.clean
  usable n hn := by
    rcases List.mem_append.mp hn with hn | hn
    · exact ⟨he.has (hb.usable n hn).1, (hb.usable n hn).2⟩
    · exact hb'.usable n hn
  edits := hb'.edits

theorem mono {A B : Node → Prop} {h h' : Heap} {ns : List Node} (hb : Builds A h h' ns)
    (hAB : ∀ n, A n → B n) : Builds B h h' ns where
  grown := hb.grown
  clean n hn := ⟨(hb.clean n hn).1, fun k hk =>
    ⟨((hb.clean n hn).2 k hk).1, fun h₀ => hAB k (((hb.clean n hn).2 k hk).2 h₀)⟩⟩
  usable n hn := ⟨(hb.usable n hn).1, fun h₀ => hAB n ((hb.usable n hn).2 h₀)⟩
  edits := hb.edits

theorem made_new {A : Node → Prop} {h h' : Heap} {ns : List Node} (hb : Builds A h h' ns)
    {d : Datum} {n : Node} (hn : n ∈ Node.ofRef (h'.new d).1) : h.Made (h'.new d).2 n := by
  obtain ⟨a, ha, rfl⟩ := Node.mem_ofRef.mp hn
  cases ha
  have hmade : h'.Made (h'.new d).2 (.value ⟨h'.cells.size⟩) := Heap.made_new.mpr rfl
  exact ⟨hmade.1, fun h₀ => hmade.2 (hb.grown.has h₀)⟩

theorem new {A : Node → Prop} {h h' : Heap} {ns : List Node} (hb : Builds A h h' ns) {d : Datum}
    (hd : ∀ k ∈ d.parts, k ∈ ns) : Builds A h (h'.new d).2 (Node.ofRef (h'.new d).1) where
  grown := hb.grown.trans (extends_new h' d)
  clean := by
    refine hb.clean.trans hb.grown (extends_new h' d)
      (clean_new fun k hk => (hb.usable k (hd k hk)).1) ?_
    exact fun k hk h₀ => (hb.usable k (hd k hk)).2 h₀
  usable n hn := ⟨(hb.made_new hn).1, fun h₀ => absurd h₀ (hb.made_new hn).2⟩
  edits := hb.edits.step (.alloc (.live d) fun k hk => (hb.usable k (hd k hk)).1)

theorem put {A : Node → Prop} {h h' : Heap} {ns : List Node} (hb : Builds A h h' ns)
    (name value : Ref) (next : Chain)
    (hp : ∀ k ∈ (⟨name, value, next, false⟩ : Binding).parts, k ∈ ns) :
    Builds A h (h'.put name value next).2 (Node.ofChain (h'.put name value next).1) where
  grown := hb.grown.trans (extends_put h' name value next)
  clean := by
    refine hb.clean.trans hb.grown (extends_put h' name value next)
      (clean_put fun k hk => (hb.usable k (hp k hk)).1) ?_
    exact fun k hk h₀ => (hb.usable k (hp k hk)).2 h₀
  usable n hn := by
    obtain ⟨b, hb', rfl⟩ := Node.mem_ofChain.mp hn
    cases hb'
    have hmade : h'.Made (h'.put name value next).2 (.binding ⟨h'.bindings.size⟩) :=
      made_put.mpr rfl
    exact ⟨hmade.1, fun h₀ => absurd (hb.grown.has h₀) hmade.2⟩
  edits := hb.edits.step (.put name value next fun k hk => (hb.usable k (hp k hk)).1)

/-- What is built over live nodes is live. -/
theorem liveRef {A : Node → Prop} {h h' : Heap} {v : Ref} (hb : Builds A h h' (Node.ofRef v))
    (hA : ∀ k, A k → h.Live k) : h'.LiveRef v := by
  refine liveRef_iff.mpr fun n hn => ?_
  by_cases hn' : h.Has n
  · exact hb.grown.live (hA n ((hb.usable n hn).2 hn'))
  · exact hb.clean.live hb.grown (fun p _ hp => hA p hp) ⟨(hb.usable n hn).1, hn'⟩

end Builds

namespace Copies

theorem made {h h' : Heap} {ns : List Node} (hc : h.Copies h' ns) {n : Node} (hn : n ∈ ns) :
    h.Made h' n :=
  ⟨(hc.usable n hn).1, fun h₀ => (hc.usable n hn).2 h₀⟩

theorem reaches_made {h h' : Heap} {ns : List Node} (hc : h.Copies h' ns) {n k : Node}
    (hn : n ∈ ns) (hk : h'.Reaches n k) : h.Made h' k := by
  rcases hc.clean.reaches (hc.made hn) hk with hmade | ⟨_, _, hf, _⟩
  · exact hmade
  · exact hf.elim

theorem live {h h' : Heap} {ns : List Node} (hc : h.Copies h' ns) {n : Node} (hn : n ∈ ns) :
    h'.Live n :=
  hc.clean.live hc.grown (fun _ _ hf => hf.elim) (hc.made hn)

end Copies

/--
Whether a heap is another with copies added that a walk of the given depth comes to
the end of, also when the heap grows further.
-/
structure CopiesWithin (n : Nat) (h h' : Heap) (ns : List Node) : Prop where
  copies : h.Copies h' ns
  within : ∀ h'', h'.Extends h'' → ∀ p ∈ ns, h''.Within n p

namespace CopiesWithin

theorem refl (n : Nat) (h : Heap) : h.CopiesWithin n h [] :=
  ⟨Builds.refl _ h, fun _ _ _ hp => absurd hp List.not_mem_nil⟩

theorem append {n : Nat} {h h' h'' : Heap} {ns ns' : List Node} (hc : CopiesWithin n h h' ns)
    (hc' : CopiesWithin n h' h'' ns') : CopiesWithin n h h'' (ns ++ ns') where
  copies := hc.copies.append hc'.copies
  within h₃ he p hp := by
    rcases List.mem_append.mp hp with hp | hp
    · exact hc.within h₃ (hc'.copies.grown.trans he) p hp
    · exact hc'.within h₃ he p hp

theorem new {n : Nat} {h h' : Heap} {ns : List Node} (hc : CopiesWithin n h h' ns) {d : Datum}
    (hd : ∀ k ∈ d.parts, k ∈ ns) :
    CopiesWithin (n + 1) h (h'.new d).2 (Node.ofRef (h'.new d).1) where
  copies := hc.copies.new hd
  within h₃ he p hp := by
    obtain ⟨a, ha, rfl⟩ := Node.mem_ofRef.mp hp
    cases ha
    refine Within.of_parts fun q hq => hc.within h₃ ((extends_new h' d).trans he) q (hd q ?_)
    rw [parts, he.cell _ (Heap.made_new.mpr rfl).1, cell_new] at hq
    exact hq

theorem put {n : Nat} {h h' : Heap} {ns : List Node} (hc : CopiesWithin n h h' ns)
    (name value : Ref) (next : Chain)
    (hp : ∀ k ∈ (⟨name, value, next, false⟩ : Binding).parts, k ∈ ns) :
    CopiesWithin (n + 1) h (h'.put name value next).2
      (Node.ofChain (h'.put name value next).1) where
  copies := hc.copies.put name value next hp
  within h₃ he p hp' := by
    obtain ⟨b, hb, rfl⟩ := Node.mem_ofChain.mp hp'
    cases hb
    refine Within.of_parts fun q hq =>
      hc.within h₃ ((extends_put h' name value next).trans he) q (hp q ?_)
    rw [parts, he.binding _ (made_put.mpr rfl).1, binding_put] at hq
    exact hq

end CopiesWithin

/--
Copies are made of new nodes only. A walk as deep as the copying was comes to the end
of them: the source may be deeper, but what the copying did not come to was not copied.
-/
theorem copyTo_copies (n : Nat) :
    (∀ (h : Heap) (v : Ref), h.LiveRef v →
      h.CopiesWithin n (copyTo n h v).2 (Node.ofRef (copyTo n h v).1)) ∧
    (∀ (h : Heap) (c : Chain), h.LiveChain c →
      h.CopiesWithin n (copyChainTo n h c).2 (Node.ofChain (copyChainTo n h c).1)) := by
  induction n with
  | zero =>
      constructor
      · intro h v _
        cases v <;> exact CopiesWithin.refl 0 h
      · intro h c _
        cases c <;> exact CopiesWithin.refl 0 h
  | succ n ih =>
      obtain ⟨ihv, ihc⟩ := ih
      constructor
      · intro h v hv
        cases v with
        | none => exact CopiesWithin.refl _ h
        | some a =>
            have ha := liveRef_some.mp hv
            rw [copyTo]
            cases hcell : h.cell a with
            | released husk =>
                exact absurd (by rw [Released, hcell]; rfl) ha.not_released
            | live d =>
                cases d with
                | pair car cdr =>
                    obtain ⟨hcar, hcdr⟩ := ha.pair hcell
                    have hcar' := ihv h car hcar
                    have hcdr' := ihv _ cdr (hcar'.copies.grown.liveRef hcdr)
                    exact (hcar'.append hcdr').new fun k hk => hk
                | closure c =>
                    obtain ⟨hparams, hbody, hcaptured⟩ := ha.closure hcell
                    have hparams' := ihv h c.params hparams
                    have hbody' := ihv _ c.body (hparams'.copies.grown.liveRef hbody)
                    have hcaptured' := ihc _ c.captured (hbody'.copies.grown.liveChain
                      (hparams'.copies.grown.liveChain hcaptured))
                    exact (hparams'.append (hbody'.append hcaptured')).new fun k hk => hk
                | atom name => exact (CopiesWithin.refl n h).new (d := .atom name) fun k hk => hk
                | number x => exact (CopiesWithin.refl n h).new (d := .number x) fun k hk => hk
                | primitive p =>
                    exact (CopiesWithin.refl n h).new (d := .primitive p) fun k hk => hk
                | unknown code =>
                    exact (CopiesWithin.refl n h).new (d := .unknown code) fun k hk => hk
      · intro h c hc
        cases c with
        | none => exact CopiesWithin.refl _ h
        | some b =>
            have hb : h.Live (.binding b) := hc _ (by simp)
            obtain ⟨hname, hvalue, hnext⟩ := hb.fields
            have hname' := ihv h (h.binding b).name hname
            have hvalue' := ihv _ (h.binding b).value (hname'.copies.grown.liveRef hvalue)
            have hnext' := ihc _ (h.binding b).next (hvalue'.copies.grown.liveChain
              (hname'.copies.grown.liveChain hnext))
            exact (hname'.append (hvalue'.append hnext')).put _ _ _ fun k hk => hk

theorem copy_copies {h : Heap} {v : Ref} (hv : h.LiveRef v) :
    h.Copies (h.copy v).2 (Node.ofRef (h.copy v).1) :=
  ((copyTo_copies h.depth).1 h v hv).copies

theorem copyChain_copies {h : Heap} {c : Chain} (hc : h.LiveChain c) :
    h.Copies (h.copyChain c).2 (Node.ofChain (h.copyChain c).1) :=
  ((copyTo_copies h.depth).2 h c hc).copies

theorem Extends.depth_le {h h' : Heap} (he : h.Extends h') : h.depth ≤ h'.depth :=
  Nat.add_le_add he.cells_le he.bindings_le

/-- The walk from a copy lists all of it. -/
theorem mem_nodes_copy {h h' : Heap} {v : Ref} (hv : h.LiveRef v) (he : (h.copy v).2.Extends h')
    {k : Node} (hk : h'.Holds (h.copy v).1 k) : k ∈ h'.nodes (h.copy v).1 := by
  have hcopy := (copyTo_copies h.depth).1 h v hv
  exact mem_nodes_of_within (hcopy.copies.grown.trans he).depth_le (hcopy.within h' he) hk

end ArenaLisp.Heap
