import ArenaLisp.Heap.Env
import ArenaLisp.Proofs.Graph
import Mathlib.Data.List.Nodup
import Mathlib.Data.List.Perm.Subperm

/-!
# Chains that end

`Linked h c bs` says that the chain `c` ends and that `bs` are its bindings in order.
A chain that ends comes to no binding twice, so it is no longer than the heap has
bindings, and the walks along it, which are given that many steps, are complete.

A chain need not end: `Stretch h c bs d` says that it begins with `bs` and goes on as
the chain `d`. Both depend on the links of these bindings and on nothing else. Looking
a name up finds the binding that is *exposed*: the one that no binding of the same name
stands in front of.
-/

namespace ArenaLisp.Heap

/-- The bindings of a chain that ends, in order. -/
def Linked (h : Heap) : Chain → List BindingId → Prop
  | c, [] => c = none
  | c, b :: bs => c = some b ∧ h.Has (.binding b) ∧ h.Linked (h.binding b).next bs

/-- Whether a chain begins with some bindings and goes on as another chain. -/
def Stretch (h : Heap) : Chain → List BindingId → Chain → Prop
  | c, [], d => c = d
  | c, b :: bs, d => c = some b ∧ h.Has (.binding b) ∧ h.Stretch (h.binding b).next bs d

/-- A chain that ends is a stretch with nothing behind it. -/
theorem linked_iff_stretch {h : Heap} {c : Chain} {bs : List BindingId} :
    h.Linked c bs ↔ h.Stretch c bs none := by
  induction bs generalizing c with
  | nil => exact Iff.rfl
  | cons b bs ih => exact and_congr_right fun _ => and_congr_right fun _ => ih

theorem Stretch.has {h : Heap} {c d : Chain} {bs : List BindingId} {b : BindingId}
    (hs : h.Stretch c bs d) (hb : b ∈ bs) : h.Has (.binding b) := by
  induction bs generalizing c with
  | nil => cases hb
  | cons b' bs ih =>
      rcases List.mem_cons.mp hb with rfl | hb
      · exact hs.2.1
      · exact ih hs.2.2 hb

theorem Linked.has {h : Heap} {c : Chain} {bs : List BindingId} {b : BindingId}
    (hc : h.Linked c bs) (hb : b ∈ bs) : h.Has (.binding b) :=
  (linked_iff_stretch.mp hc).has hb

theorem Linked.front_has {h : Heap} {c : Chain} {bs : List BindingId} (hc : h.Linked c bs) :
    ∀ k ∈ Node.ofChain c, h.Has k := by
  intro k hk
  obtain ⟨b, rfl, rfl⟩ := Node.mem_ofChain.mp hk
  cases bs with
  | nil => cases hc
  | cons b' bs =>
      cases hc.1
      exact hc.2.1

/-- A chain has its bindings in one order only. -/
theorem Linked.unique {h : Heap} {c : Chain} {bs bs' : List BindingId}
    (hc : h.Linked c bs) (hc' : h.Linked c bs') : bs = bs' := by
  induction bs generalizing c bs' with
  | nil =>
      cases bs' with
      | nil => rfl
      | cons b' bs' => rw [show c = none from hc] at hc'; cases hc'.1
  | cons b bs ih =>
      cases bs' with
      | nil => rw [show c = none from hc'] at hc; cases hc.1
      | cons b' bs' =>
          have hb : b = b' := Option.some.inj (hc.1.symm.trans hc'.1)
          subst hb
          rw [ih hc.2.2 hc'.2.2]

/-- The rest of a chain is a chain. -/
theorem Linked.rest {h : Heap} {c : Chain} {front back : List BindingId} {b : BindingId}
    (hc : h.Linked c (front ++ b :: back)) : h.Linked (some b) (b :: back) := by
  induction front generalizing c with
  | nil => exact ⟨rfl, hc.2⟩
  | cons b' front ih => exact ih hc.2.2

theorem Linked.nodup {h : Heap} {c : Chain} {bs : List BindingId} (hc : h.Linked c bs) :
    bs.Nodup := by
  induction bs generalizing c with
  | nil => exact List.nodup_nil
  | cons b bs ih =>
      refine List.nodup_cons.mpr ⟨?_, ih hc.2.2⟩
      intro hb
      obtain ⟨front, back, rfl⟩ := List.append_of_mem hb
      -- the chain from the second `b` on would be the chain from the first on
      have hfirst : h.Linked (some b) (b :: (front ++ b :: back)) := ⟨rfl, hc.2⟩
      have hsame := Linked.unique (Linked.rest hc.2.2) hfirst
      have hlen := congrArg List.length hsame
      simp only [List.length_cons, List.length_append] at hlen
      omega

/-- Different bindings are no more than the heap has. -/
theorem length_le_bindings {h : Heap} {l : List BindingId} (hd : l.Nodup)
    (hl : ∀ b ∈ l, h.Has (.binding b)) : l.length ≤ h.bindings.size := by
  have hsub : l.Subperm ((List.range h.bindings.size).map BindingId.mk) :=
    hd.subperm fun b hb => List.mem_map.mpr ⟨b.index, List.mem_range.mpr (hl b hb), rfl⟩
  simpa using hsub.length_le

theorem Linked.length_le {h : Heap} {c : Chain} {bs : List BindingId} (hc : h.Linked c bs) :
    bs.length ≤ h.bindings.size :=
  length_le_bindings hc.nodup fun _ hb => hc.has hb

theorem Linked.chainTo_eq {h : Heap} {c : Chain} {bs : List BindingId} {n : Nat}
    (hc : h.Linked c bs) (hn : bs.length ≤ n) : chainTo n h c = bs := by
  induction bs generalizing c n with
  | nil =>
      rw [show c = none from hc]
      cases n <;> rfl
  | cons b bs ih =>
      cases n with
      | zero => simp at hn
      | succ n =>
          rw [hc.1, chainTo, ih hc.2.2 (by simpa using hn)]

/-- **The walk along a chain that ends is complete.** -/
theorem Linked.chain_eq {h : Heap} {c : Chain} {bs : List BindingId} (hc : h.Linked c bs) :
    h.chain c = bs :=
  hc.chainTo_eq hc.length_le

/-- A stretch stays where its own links do. -/
theorem Stretch.congr {h h' : Heap} {c d : Chain} {bs : List BindingId} (hs : h.Stretch c bs d)
    (hb : ∀ b ∈ bs, h'.Has (.binding b) ∧ (h'.binding b).next = (h.binding b).next) :
    h'.Stretch c bs d := by
  induction bs generalizing c with
  | nil => exact hs
  | cons b bs ih =>
      obtain ⟨hhas, hnext⟩ := hb b List.mem_cons_self
      refine ⟨hs.1, hhas, ?_⟩
      rw [hnext]
      exact ih hs.2.2 fun b' hb' => hb b' (List.mem_cons_of_mem _ hb')

theorem Linked.congr {h h' : Heap} {c : Chain} {bs : List BindingId} (hc : h.Linked c bs)
    (hb : ∀ b ∈ bs, h'.Has (.binding b) ∧ (h'.binding b).next = (h.binding b).next) :
    h'.Linked c bs :=
  linked_iff_stretch.mpr ((linked_iff_stretch.mp hc).congr hb)

/-- A stretch that goes on as a chain that ends is a chain that ends. -/
theorem Stretch.linked {h : Heap} {c d : Chain} {bs ds : List BindingId} (hs : h.Stretch c bs d)
    (hd : h.Linked d ds) : h.Linked c (bs ++ ds) := by
  induction bs generalizing c with
  | nil =>
      rw [show c = d from hs]
      exact hd
  | cons b bs ih => exact ⟨hs.1, hs.2.1, ih hs.2.2⟩

/-! ## Splicing -/

theorem has_modifyBinding {h : Heap} {b : BindingId} {f : Binding → Binding} {n : Node} :
    (h.modifyBinding b f).Has n ↔ h.Has n := by
  cases n with
  | value a => exact Iff.rfl
  | binding b' => simp [Has, modifyBinding]

theorem binding_modifyBinding_self {h : Heap} {b : BindingId} {f : Binding → Binding}
    (hb : h.Has (.binding b)) : (h.modifyBinding b f).binding b = f (h.binding b) := by
  obtain ⟨x, hx⟩ : ∃ x, h.bindings[b.index]? = some x := ⟨_, Array.getElem?_eq_getElem hb⟩
  simp [binding, modifyBinding, Array.getElem?_modify, hx]

theorem binding_modifyBinding_ne {h : Heap} {b b' : BindingId} {f : Binding → Binding}
    (hne : b ≠ b') : (h.modifyBinding b f).binding b' = h.binding b' := by
  have hi : b.index ≠ b'.index := by
    intro he
    cases b; cases b'; cases he
    exact hne rfl
  simp [binding, modifyBinding, Array.getElem?_modify, hi]

/-- With its last link changed, a chain goes on as the other one. -/
theorem Linked.splice {h : Heap} {c : Chain} {front : List BindingId} {last : BindingId}
    (hc : h.Linked c (front ++ [last])) (d : Chain) :
    (h.modifyBinding last fun b => { b with next := d }).Stretch c (front ++ [last]) d := by
  have hnodup := hc.nodup
  induction front generalizing c with
  | nil =>
      refine ⟨hc.1, has_modifyBinding.mpr hc.2.1, ?_⟩
      rw [binding_modifyBinding_self hc.2.1]
      rfl
  | cons b front ih =>
      refine ⟨hc.1, has_modifyBinding.mpr hc.2.1, ?_⟩
      have hne : last ≠ b := by
        rintro rfl
        simp at hnodup
      rw [binding_modifyBinding_ne hne]
      exact ih hc.2.2 (List.nodup_cons.mp hnodup).2

/-- **A spliced chain begins with the bindings of the one and goes on as the other.** -/
theorem join_stretch {h : Heap} {front : Chain} {fs : List BindingId} (hf : h.Linked front fs)
    (back : Chain) : (h.join front back).2.Stretch (h.join front back).1 fs back := by
  rcases List.eq_nil_or_concat fs with rfl | ⟨init, last, rfl⟩
  · rw [join, hf.chain_eq]
    rfl
  · rw [List.concat_eq_append] at hf ⊢
    rw [join, hf.chain_eq, List.getLast?_append]
    exact hf.splice back

/-- Splicing changes at most one link, that of a binding of the chain in front. -/
theorem join_cases (h : Heap) (front back : Chain) :
    h.join front back = (back, h) ∨
      ∃ last ∈ h.chain front, h.join front back =
        (front, h.modifyBinding last fun b => { b with next := back }) := by
  rw [join]
  cases hlast : (h.chain front).getLast? with
  | none => exact Or.inl rfl
  | some last => exact Or.inr ⟨last, List.mem_of_getLast? hlast, rfl⟩

theorem join_has {h : Heap} {front back : Chain} {n : Node} :
    (h.join front back).2.Has n ↔ h.Has n := by
  rcases join_cases h front back with heq | ⟨last, _, heq⟩
  · rw [heq]
  · rw [heq]
    exact has_modifyBinding

theorem join_agreeAt {h : Heap} {front back : Chain} {n : Node}
    (hn : ∀ b ∈ h.chain front, n ≠ .binding b) : h.AgreeAt (h.join front back).2 n := by
  rcases join_cases h front back with heq | ⟨last, hlast, heq⟩
  · rw [heq]
    cases n <;> rfl
  · rw [heq]
    cases n with
    | value a => rfl
    | binding b =>
        have hne : last ≠ b := fun he => hn last hlast (he ▸ rfl)
        exact binding_modifyBinding_ne hne

theorem join_fields {h : Heap} (front back : Chain) {b : BindingId} (hb : h.Has (.binding b)) :
    ((h.join front back).2.binding b).name = (h.binding b).name ∧
      ((h.join front back).2.binding b).value = (h.binding b).value ∧
      ((h.join front back).2.binding b).released = (h.binding b).released ∧
      (((h.join front back).2.binding b).next = (h.binding b).next ∨
        ((h.join front back).2.binding b).next = back) := by
  rcases join_cases h front back with heq | ⟨last, _, heq⟩
  · rw [heq]
    exact ⟨rfl, rfl, rfl, Or.inl rfl⟩
  · rw [heq]
    by_cases hne : last = b
    · subst hne
      rw [binding_modifyBinding_self hb]
      exact ⟨rfl, rfl, rfl, Or.inr rfl⟩
    · rw [binding_modifyBinding_ne hne]
      exact ⟨rfl, rfl, rfl, Or.inl rfl⟩

theorem join_cells (h : Heap) (front back : Chain) : (h.join front back).2.cells = h.cells := by
  rcases join_cases h front back with heq | ⟨last, -, heq⟩
  · rw [heq]
  · rw [heq]
    rfl

theorem join_bindings_size (h : Heap) (front back : Chain) :
    (h.join front back).2.bindings.size = h.bindings.size := by
  rcases join_cases h front back with heq | ⟨last, -, heq⟩
  · rw [heq]
  · rw [heq]
    simp [modifyBinding]

/-- Splicing one chain onto another puts its bindings behind those of the other. -/
theorem Linked.join {h : Heap} {front back : Chain} {fs bs : List BindingId}
    (hf : h.Linked front fs) (hb : h.Linked back bs) (hdisj : ∀ b ∈ fs, b ∉ bs) :
    (h.join front back).2.Linked (h.join front back).1 (fs ++ bs) := by
  refine (join_stretch hf back).linked (hb.congr fun b hmem => ⟨join_has.mpr (hb.has hmem), ?_⟩)
  have hagree : h.AgreeAt (h.join front back).2 (.binding b) := by
    refine join_agreeAt fun b' hb' heq => ?_
    cases heq
    exact hdisj b (hf.chain_eq ▸ hb') hmem
  exact congrArg Binding.next hagree

/-! ## Overwriting -/

/-- The heap with a binding given another value. -/
def overwritten (h : Heap) (b : BindingId) (v : Ref) : Heap :=
  h.modifyBinding b fun binding => { binding with value := v }

section

variable {h : Heap} {b : BindingId} {v : Ref}

theorem overwritten_has {n : Node} : (h.overwritten b v).Has n ↔ h.Has n := has_modifyBinding

theorem overwritten_agreeAt {n : Node} (hn : n ≠ .binding b) :
    h.AgreeAt (h.overwritten b v) n := by
  cases n with
  | value a => rfl
  | binding b' => exact binding_modifyBinding_ne fun he => hn (he ▸ rfl)

theorem overwritten_self (hb : h.Has (.binding b)) :
    (h.overwritten b v).binding b = { h.binding b with value := v } :=
  binding_modifyBinding_self hb

theorem overwritten_ne {b' : BindingId} (hne : b ≠ b') :
    (h.overwritten b v).binding b' = h.binding b' :=
  binding_modifyBinding_ne hne

theorem overwritten_fixed {b' : BindingId} (hb' : h.Has (.binding b')) :
    ((h.overwritten b v).binding b').name = (h.binding b').name ∧
      ((h.overwritten b v).binding b').next = (h.binding b').next ∧
      ((h.overwritten b v).binding b').released = (h.binding b').released := by
  by_cases hne : b = b'
  · subst hne
    rw [overwritten_self hb']
    exact ⟨rfl, rfl, rfl⟩
  · rw [overwritten_ne hne]
    exact ⟨rfl, rfl, rfl⟩

theorem overwritten_boundName? {b' : BindingId} (hb' : h.Has (.binding b')) :
    (h.overwritten b v).boundName? b' = h.boundName? b' := by
  rw [boundName?, boundName?, (overwritten_fixed hb').1]
  rfl

end

/-! ## Looking up -/

/-- Whether a binding is in a chain with none of the same name in front of it. -/
def Exposed (h : Heap) (c : Chain) (b : BindingId) : Prop :=
  ∃ front back, h.chain c = front ++ b :: back ∧
    ∀ b' ∈ front, h.boundName? b' ≠ h.boundName? b

theorem Exposed.mem {h : Heap} {c : Chain} {b : BindingId} (hb : h.Exposed c b) :
    b ∈ h.chain c := by
  obtain ⟨front, back, hc, _⟩ := hb
  rw [hc]; simp

theorem findBinding?_eq_some {h : Heap} {c : Chain} {name : String} {b : BindingId}
    (hb : h.findBinding? c name = some b) : h.Exposed c b ∧ h.boundName? b = some name := by
  rw [findBinding?_eq, List.find?_eq_some_iff_append] at hb
  obtain ⟨hname, front, back, hc, hfront⟩ := hb
  have hb' : h.boundName? b = some name := by simpa using hname
  refine ⟨⟨front, back, hc, ?_⟩, hb'⟩
  intro b' hmem heq
  have hne := hfront b' hmem
  rw [heq, hb'] at hne
  simp at hne

/-- The first binding of a name is the same along the same chain with the same names. -/
theorem findBinding?_congr {h h' : Heap} {c c' : Chain} (hchain : h'.chain c' = h.chain c)
    (hnames : ∀ b ∈ h.chain c, h'.boundName? b = h.boundName? b) (name : String) :
    h'.findBinding? c' name = h.findBinding? c name := by
  rw [findBinding?_eq, findBinding?_eq, hchain, ← List.head?_filter, ← List.head?_filter]
  exact congrArg _ (List.filter_congr fun b hb => by rw [hnames b hb])

theorem mem_of_findBinding? {h : Heap} {c : Chain} {name : String} {b : BindingId}
    (hb : h.findBinding? c name = some b) : b ∈ h.chain c :=
  (findBinding?_eq_some hb).1.mem

/-- A binding that is exposed has everything in front of the back it belongs to before it. -/
theorem Exposed.split {h : Heap} {c : Chain} {front back : List BindingId} {b : BindingId}
    (hx : h.Exposed c b) (hc : h.chain c = front ++ back) (hb : b ∉ front) :
    ∃ before after, back = before ++ b :: after ∧
      ∀ b' ∈ front ++ before, h.boundName? b' ≠ h.boundName? b := by
  obtain ⟨before, after, hsplit, hbefore⟩ := hx
  rw [hc] at hsplit
  rcases List.append_eq_append_iff.mp hsplit with ⟨l, rfl, hr⟩ | ⟨l, hl, hr⟩
  · exact ⟨l, after, hr, hbefore⟩
  · cases l with
    | nil =>
        rw [List.append_nil] at hl
        refine ⟨[], after, by simpa using hr.symm, ?_⟩
        rw [List.append_nil, hl]
        exact hbefore
    | cons x l =>
        cases hr
        exact absurd (hl ▸ List.mem_append_right _ List.mem_cons_self) hb

/-- A binding of the back of a chain that is exposed in it is exposed in the back. -/
theorem exposed_of_append {h h' : Heap} {c c' : Chain} {front back : List BindingId}
    {b : BindingId} (hc : h.chain c = back) (hc' : h'.chain c' = front ++ back) (hb : b ∉ front)
    (hname : ∀ b ∈ back, h'.boundName? b = h.boundName? b) (hx : h'.Exposed c' b) :
    h.Exposed c b := by
  obtain ⟨before', after, hback, hbefore⟩ := hx.split hc' hb
  refine ⟨before', after, hc.trans hback, fun b' hb' => ?_⟩
  have hmem : ∀ x ∈ before' ++ b :: after, x ∈ back := fun x hx => hback ▸ hx
  rw [← hname b' (hmem b' (List.mem_append_left _ hb')),
    ← hname b (hmem b (List.mem_append_right _ List.mem_cons_self))]
  exact hbefore b' (List.mem_append_right _ hb')

end ArenaLisp.Heap
