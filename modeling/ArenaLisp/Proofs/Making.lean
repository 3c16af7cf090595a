import ArenaLisp.Eval.Closure
import ArenaLisp.Proofs.Growth

/-!
# What the operations on the heap make

One statement for each operation that makes something larger than a cell: a list, a
closure, a closure that waits for the rest of its arguments, the expression of a
turn. Each is built over the values it is given, or over nothing.

Bindings of an environment are *sealed*: no value reaches them. A closure refers to
copies of bindings and never to the bindings themselves, so overwriting a binding of
an environment changes no value.
-/

namespace ArenaLisp

/-- A tree as a text holds it: atoms, numbers, and lists of them at any depth. -/
def Tree.Plain : Tree → Prop
  | .atom _ | .number _ => True
  | .pair car cdr => (car = .absent ∧ cdr = .absent) ∨ (car.Plain ∧ cdr.Plain)
  | _ => False

namespace Heap

/-- Whether no value reaches any of some bindings. -/
def Sealed (h : Heap) (bs : List BindingId) : Prop :=
  ∀ a, ∀ b ∈ bs, ¬h.Reaches (.value a) (.binding b)

/-! ## Bounded heaps -/

theorem Bounded.reaches_has {h : Heap} (hb : h.Bounded) {n k : Node} (hn : h.Has n)
    (hk : h.Reaches n k) : h.Has k :=
  hk.mem_of_closed (fun m _ p hp => hb m p hp) hn

theorem Extends.reaches_iff {h h' : Heap} (he : h.Extends h') (hb : h.Bounded) {n k : Node}
    (hn : h.Has n) : h'.Reaches n k ↔ h.Reaches n k :=
  reaches_congr fun _ hl => he.agreeAt (hb.reaches_has hn hl)

/-- A value that is not in the heap reaches no binding. -/
theorem not_reaches_of_not_has {h : Heap} {a : Addr} {b : BindingId} (ha : ¬h.Has (.value a)) :
    ¬h.Reaches (.value a) (.binding b) := by
  intro hr
  rcases reaches_iff.mp hr with heq | ⟨p, hp, _⟩
  · cases heq
  · rw [parts_of_not_has ha] at hp
    cases hp

/-! ## Sealed bindings -/

/-- Bindings stay sealed while values are built over values. -/
theorem Builds.sealed {A : Node → Prop} {h h' : Heap} {ns : List Node} (hb : Builds A h h' ns)
    (hbd : h.Bounded) (hA : ∀ k, A k → ∃ a, k = .value a) {bs : List BindingId}
    (hbs : ∀ b ∈ bs, h.Has (.binding b)) (hs : h.Sealed bs) : h'.Sealed bs := by
  intro a b hb' hr
  by_cases ha : h.Has (.value a)
  · exact hs a b hb' ((hb.grown.reaches_iff hbd ha).mp hr)
  · by_cases ha' : h'.Has (.value a)
    · rcases hb.clean.reaches ⟨ha', ha⟩ hr with hmade | ⟨p, hp, hAp, hpb⟩
      · exact hmade.2 (hbs b hb')
      · obtain ⟨a', rfl⟩ := hA p hAp
        exact hs a' b hb' ((hb.grown.reaches_iff hbd hp).mp hpb)
    · exact not_reaches_of_not_has ha' hr

/-- A binding that was just made is sealed. -/
theorem sealed_put {h : Heap} {name value : Ref} {next : Chain} (hbd : h.Bounded)
    {bs : List BindingId} (hs : h.Sealed bs) :
    (h.put name value next).2.Sealed (⟨h.bindings.size⟩ :: bs) := by
  intro a b hb hr
  by_cases ha : h.Has (.value a)
  · rw [(extends_put h name value next).reaches_iff hbd ha] at hr
    rcases List.mem_cons.mp hb with rfl | hb
    · exact Nat.lt_irrefl _ (hbd.reaches_has ha hr)
    · exact hs a b hb hr
  · exact not_reaches_of_not_has (h := (h.put name value next).2) ha hr

theorem bounded_put {h : Heap} {name value : Ref} {next : Chain} (hbd : h.Bounded)
    (hp : ∀ k ∈ (⟨name, value, next, false⟩ : Binding).parts, h.Has k) :
    (h.put name value next).2.Bounded :=
  (clean_put hp).bounded (extends_put h name value next) hbd

theorem linked_put {h : Heap} (name value : Ref) {next : Chain} {bs : List BindingId}
    (hl : h.Linked next bs) :
    (h.put name value next).2.Linked (h.put name value next).1 (⟨h.bindings.size⟩ :: bs) := by
  refine ⟨rfl, (made_put.mpr rfl).1, ?_⟩
  rw [binding_put]
  exact (extends_put h name value next).linked hl

/-! ## Lists and copies of several values -/

theorem extends_list (vs : List Ref) (h : Heap) : h.Extends (h.list vs).2 := by
  induction vs with
  | nil => exact extends_new h _
  | cons v vs ih => exact ih.trans (extends_new _ _)

/-- A list is made of a cell for each value and one for its end. -/
theorem made_list {h : Heap} {vs : List Ref} {n : Node} :
    h.Made (h.list vs).2 n ↔ ∃ i ≤ vs.length, n = .value ⟨h.cells.size + i⟩ := by
  have hsize : ∀ vs : List Ref, (h.list vs).2.cells.size = h.cells.size + vs.length + 1 := by
    intro vs
    induction vs with
    | nil => simp [list, new, alloc]
    | cons v vs ih => simp [list, new, alloc, ih, Nat.add_assoc]
  have hbindings : ∀ vs : List Ref, (h.list vs).2.bindings.size = h.bindings.size := by
    intro vs
    induction vs with
    | nil => rfl
    | cons v vs ih => exact ih
  cases n with
  | value a =>
      obtain ⟨a⟩ := a
      simp only [Made, Has, hsize, Node.value.injEq, Addr.mk.injEq]
      constructor
      · intro hmade
        exact ⟨a - h.cells.size, by omega, by omega⟩
      · rintro ⟨i, hi, rfl⟩
        omega
  | binding b =>
      simp only [Made, Has, hbindings, reduceCtorEq, and_false, exists_false, iff_false]
      exact fun hmade => hmade.2 hmade.1

theorem list_builds {A : Node → Prop} {h₀ : Heap} (vs : List Ref) {h : Heap}
    (hb : Builds A h₀ h (vs.flatMap Node.ofRef)) :
    Builds A h₀ (h.list vs).2 (Node.ofRef (h.list vs).1) := by
  induction vs with
  | nil => exact hb.new (d := .nil) fun k hk => by simp [Datum.nil, Datum.parts] at hk
  | cons v vs ih =>
      have htail := ih (hb.weaken fun n hn => by
        rw [List.flatMap_cons]; exact List.mem_append_right _ hn)
      refine (hb.keep htail (extends_list vs h)).new fun k hk => ?_
      rcases List.mem_append.mp hk with hk | hk
      · rw [List.flatMap_cons]
        exact List.mem_append_left _ (List.mem_append_left _ hk)
      · exact List.mem_append_right _ hk

theorem copyEach_copies (vs : List Ref) {h : Heap} (hv : ∀ v ∈ vs, h.LiveRef v) :
    h.Copies (h.copyEach vs).2 ((h.copyEach vs).1.flatMap Node.ofRef) := by
  induction vs generalizing h with
  | nil => exact Builds.refl _ h
  | cons v vs ih =>
      have hone := copy_copies (hv v List.mem_cons_self)
      have hrest := ih fun w hw => hone.grown.liveRef (hv w (List.mem_cons_of_mem _ hw))
      exact hone.append hrest

/-! ## Closures -/

/-- What a closure takes along is copied from bindings of its environment. -/
theorem capture_copies {h₀ : Heap} {ambient : Chain} {env : List BindingId} (names : List String)
    {h : Heap} {captured : Chain} (hl : h.Linked ambient env)
    (hlive : ∀ b ∈ env, h.LiveRef (h.binding b).name ∧ h.LiveRef (h.binding b).value)
    (hc : h₀.Copies h (Node.ofChain captured)) :
    h₀.Copies (h.capture ambient names captured).2
        (Node.ofChain (h.capture ambient names captured).1) ∧
      h.Extends (h.capture ambient names captured).2 := by
  induction names generalizing h captured with
  | nil => exact ⟨hc, .refl h⟩
  | cons name names ih =>
      rw [capture]
      cases hfind : h.findBinding? ambient name with
      | none => exact ih hl hlive hc
      | some b =>
          have hb : b ∈ env := by rw [← hl.chain_eq]; exact mem_of_findBinding? hfind
          have hname := copy_copies (hlive b hb).1
          have hvalue := copy_copies (hname.grown.liveRef (hlive b hb).2)
          have hput := (hc.append (hname.append hvalue)).put
            (h.copy (h.binding b).name).1
            ((h.copy (h.binding b).name).2.copy (h.binding b).value).1 captured fun k hk => by
              rcases List.mem_append.mp hk with hk | hk
              · exact List.mem_append_right _ (List.mem_append_left _ hk)
              · rcases List.mem_append.mp hk with hk | hk
                · exact List.mem_append_right _ (List.mem_append_right _ hk)
                · exact List.mem_append_left _ hk
          have he := (hname.grown.trans hvalue.grown).trans (extends_put _
            (h.copy (h.binding b).name).1
            ((h.copy (h.binding b).name).2.copy (h.binding b).value).1 captured)
          obtain ⟨hrest, hext⟩ := ih (he.linked hl) (fun b' hb' => by
            rw [he.binding b' (hl.has hb')]
            exact ⟨he.liveRef (hlive b' hb').1, he.liveRef (hlive b' hb').2⟩) hput
          exact ⟨hrest, he.trans hext⟩

theorem newClosure_copies {h : Heap} {params body : Ref} {ambient : Chain}
    {env : List BindingId} (hl : h.Linked ambient env)
    (hlive : ∀ b ∈ env, h.LiveRef (h.binding b).name ∧ h.LiveRef (h.binding b).value)
    (hparams : h.LiveRef params) (hbody : h.LiveRef body) :
    h.Copies (h.newClosure params body ambient).2
      (Node.ofRef (h.newClosure params body ambient).1) := by
  have hp := copy_copies hparams
  have hb := copy_copies (hp.grown.liveRef hbody)
  have he := hp.grown.trans hb.grown
  have hboth := hp.append hb
  have hnone : h.Copies ((h.copy params).2.copy body).2 (Node.ofChain none) :=
    hboth.weaken fun n hn => by simp at hn
  obtain ⟨hcaptured, hext⟩ := capture_copies
    (((h.copy params).2.copy body).2.freeNames (h.copy params).1 ((h.copy params).2.copy body).1)
    (he.linked hl)
    (fun b hb' => by
      rw [he.binding b (hl.has hb')]
      exact ⟨he.liveRef (hlive b hb').1, he.liveRef (hlive b hb').2⟩) hnone
  refine (hboth.keep hcaptured hext).new fun k hk => ?_
  rw [List.append_assoc]
  exact hk

/-- Supplied values are bound to copies of the parameters. -/
theorem supply_builds {A : Node → Prop} {h₀ : Heap} (pairs : List (Ref × Ref)) {h : Heap}
    {captured : Chain} (hparams : ∀ p ∈ pairs, h.LiveRef p.1)
    (hvalues : ∀ p ∈ pairs, ∀ k ∈ Node.ofRef p.2, h₀.Has k ∧ A k)
    (hb : Builds A h₀ h (Node.ofChain captured)) :
    Builds A h₀ (h.supply pairs captured).2 (Node.ofChain (h.supply pairs captured).1) ∧
      h.Extends (h.supply pairs captured).2 := by
  induction pairs generalizing h captured with
  | nil => exact ⟨hb, .refl h⟩
  | cons p pairs ih =>
      obtain ⟨param, value⟩ := p
      have hname := copy_copies (hparams (param, value) List.mem_cons_self)
      have hput := ((hb.append hname).add (hvalues (param, value) List.mem_cons_self)).put
        (h.copy param).1 value captured fun k hk => by
          rcases List.mem_append.mp hk with hk | hk
          · exact List.mem_append_left _ (List.mem_append_right _ hk)
          · rcases List.mem_append.mp hk with hk | hk
            · exact List.mem_append_right _ hk
            · exact List.mem_append_left _ (List.mem_append_left _ hk)
      have he := hname.grown.trans (extends_put _ (h.copy param).1 value captured)
      obtain ⟨hrest, hext⟩ := ih
        (fun q hq => he.liveRef (hparams q (List.mem_cons_of_mem _ hq)))
        (fun q hq => hvalues q (List.mem_cons_of_mem _ hq)) hput
      exact ⟨hrest, he.trans hext⟩

/-- A closure that waits for more is built over the values it was given. -/
theorem newPartial_builds {h : Heap} {c : Closure} {params values : List Ref}
    (hparams : ∀ v ∈ params, h.LiveRef v) (hbody : h.LiveRef c.body)
    (hcaptured : h.LiveChain c.captured) (hvalues : ∀ v ∈ values, h.LiveRef v) :
    Builds (fun k => ∃ v ∈ values, k ∈ Node.ofRef v) h (h.newPartial c params values).2
      (Node.ofRef (h.newPartial c params values).1) := by
  have hrest := copyEach_copies (params.drop values.length)
    fun v hv => hparams v (List.mem_of_mem_drop hv)
  have hlist := list_builds _ hrest
  have he₁ := extends_list (h.copyEach (params.drop values.length)).1
    (h.copyEach (params.drop values.length)).2
  have hb := copy_copies (he₁.liveRef (hrest.grown.liveRef hbody))
  have hc := copyChain_copies (hb.grown.liveChain (he₁.liveChain (hrest.grown.liveChain hcaptured)))
  have hall := (hlist.append (hb.append hc)).mono (B := fun k => ∃ v ∈ values, k ∈ Node.ofRef v)
    fun _ hf => hf.elim
  obtain ⟨hsupply, he₂⟩ := supply_builds (params.zip values)
    (fun p hp => hall.grown.liveRef (hparams p.1 (List.of_mem_zip hp).1))
    (fun p hp k hk => ⟨(liveRef_iff.mp (hvalues p.2 (List.of_mem_zip hp).2) k hk).has,
      p.2, (List.of_mem_zip hp).2, hk⟩)
    (hall.weaken fun n hn => List.mem_append_right _ (List.mem_append_right _ hn))
  refine (hall.keep hsupply he₂).new fun k hk => ?_
  rcases List.mem_append.mp hk with hk | hk
  · exact List.mem_append_left _ (List.mem_append_left _ hk)
  · rcases List.mem_append.mp hk with hk | hk
    · exact List.mem_append_left _ (List.mem_append_right _ (List.mem_append_left _ hk))
    · exact List.mem_append_right _ hk

/-! ## Expressions -/

/-- The expression of a turn is made of new cells. -/
theorem store_copies : ∀ (t : Tree) (h : Heap), t.Plain →
    h.Copies (store t h).2 (Node.ofRef (store t h).1)
  | .atom name, h, _ => (Builds.refl _ h).new (d := .atom name) fun k hk => hk
  | .number x, h, _ => (Builds.refl _ h).new (d := .number x) fun k hk => hk
  | .pair car cdr, h, hp => by
      rw [store]
      rcases hp with ⟨rfl, rfl⟩ | ⟨hcar, hcdr⟩
      · exact (Builds.refl _ h).new (d := .nil) fun k hk => hk
      · have hone := store_copies car h hcar
        have htwo := store_copies cdr (store car h).2 hcdr
        exact (hone.append htwo).new fun k hk => hk
  | .absent, _, hp => hp.elim
  | .released _, _, hp => hp.elim
  | .primitive _, _, hp => hp.elim
  | .closure _ _ _, _, hp => hp.elim
  | .unknown _, _, hp => hp.elim

/-! ## Lists read back -/

theorem spineTo_live {h : Heap} (n : Nat) {v : Ref} (hv : h.LiveRef v) :
    (∀ e ∈ (spineTo n h v).1, h.LiveRef e) ∧ h.LiveRef (spineTo n h v).2 := by
  induction n generalizing v with
  | zero => exact ⟨fun e he => by simp [spineTo] at he, hv⟩
  | succ n ih =>
      cases v with
      | none => exact ⟨fun e he => by simp [spineTo] at he, hv⟩
      | some a =>
          obtain ⟨hcar, hcdr⟩ := liveRef_fields hv
          rw [spineTo]
          split
          · obtain ⟨hcars, htail⟩ := ih hcdr
            refine ⟨fun e he => ?_, htail⟩
            rcases List.mem_cons.mp he with rfl | he
            · exact hcar
            · exact hcars e he
          · exact ⟨fun e he => by simp at he, hv⟩

theorem spine_of_elements? {h : Heap} {v : Ref} {es : List Ref} (hes : h.elements? v = some es) :
    (h.spine v).1 = es ∧ h.isNil (h.spine v).2 = true := by
  simp only [elements?] at hes
  split at hes
  · rename_i hnil
    exact ⟨Option.some.inj hes, hnil⟩
  · cases hes

theorem elements?_live {h : Heap} {v : Ref} {es : List Ref} (hv : h.LiveRef v)
    (hes : h.elements? v = some es) : ∀ e ∈ es, h.LiveRef e := by
  obtain ⟨rfl, -⟩ := spine_of_elements? hes
  exact (spineTo_live _ hv).1

/-- A proper list reads the same however long the walk along it may be. -/
theorem Extends.spineTo_eq {h h' : Heap} (he : h.Extends h') {n n' : Nat} (hn : n ≤ n') {v : Ref}
    (hv : h.LiveRef v) (hnil : h.isNil (spineTo n h v).2 = true) :
    spineTo n' h' v = spineTo n h v := by
  induction n generalizing n' v with
  | zero =>
      cases v with
      | none => cases n' <;> rfl
      | some a =>
          cases n' with
          | zero => rfl
          | succ n' =>
              have hcell : (h'.cell a).isNil = true := by
                rw [he.cell a (liveRef_some.mp hv).has]
                exact hnil
              simp [spineTo, hcell]
  | succ n ih =>
      obtain ⟨n', rfl⟩ : ∃ k, n' = k + 1 := ⟨n' - 1, by omega⟩
      cases v with
      | none => rfl
      | some a =>
          have hcdr := (liveRef_fields hv).2
          rw [spineTo] at hnil ⊢
          rw [spineTo, he.cell a (liveRef_some.mp hv).has]
          split
          · rename_i hpair
            rw [if_pos hpair] at hnil
            rw [ih (by omega) hcdr hnil]
          · rfl

/-- A proper list keeps its elements. -/
theorem Extends.elements?_eq {h h' : Heap} (he : h.Extends h') {v : Ref} (hv : h.LiveRef v)
    {es : List Ref} (hes : h.elements? v = some es) : h'.elements? v = some es := by
  simp only [elements?] at hes ⊢
  split at hes
  · rename_i hnil
    have htail : h.LiveRef (h.spine v).2 := (spineTo_live h.cells.size hv).2
    have hnil' : h'.isNil (h.spine v).2 = true := by
      generalize (h.spine v).2 = tail at hnil htail
      cases tail with
      | none => rfl
      | some a =>
          rw [isNil, cell?, Option.map_some, he.cell a (liveRef_some.mp htail).has]
          exact hnil
    have hspine : h'.spine v = h.spine v := he.spineTo_eq he.cells_le hv hnil
    rw [hspine, if_pos hnil']
    exact hes
  · cases hes

theorem spineTo_list (vs : List Ref) (h : Heap) {h' : Heap} (he : (h.list vs).2.Extends h')
    {n : Nat} (hn : vs.length < n) :
    ∃ a, (spineTo n h' (h.list vs).1) = (vs, some a) ∧ h'.cell a = .live .nil := by
  induction vs generalizing n with
  | nil =>
      obtain ⟨n, rfl⟩ : ∃ k, n = k + 1 := ⟨n - 1, by simp at hn; omega⟩
      have hcell : h'.cell ⟨h.cells.size⟩ = .live .nil := by
        have hmade : h.Made (h.new .nil).2 (.value ⟨h.cells.size⟩) := made_new.mpr rfl
        rw [he.cell _ hmade.1]
        exact cell_new h .nil
      refine ⟨⟨h.cells.size⟩, ?_, hcell⟩
      show spineTo (n + 1) h' (some ⟨h.cells.size⟩) = _
      rw [spineTo, hcell]
      rfl
  | cons v vs ih =>
      obtain ⟨n, rfl⟩ : ∃ k, n = k + 1 := ⟨n - 1, by simp at hn; omega⟩
      obtain ⟨a, hspine, hnil⟩ := ih ((extends_new _ _).trans he) (by simpa using hn)
      have hmade : (h.list vs).2.Made (h.list (v :: vs)).2 (.value ⟨(h.list vs).2.cells.size⟩) :=
        made_new.mpr rfl
      have hcell : h'.cell ⟨(h.list vs).2.cells.size⟩ = .live (.pair v (h.list vs).1) := by
        rw [he.cell _ hmade.1]
        exact cell_new _ _
      have hsome : ∃ a', (h.list vs).1 = some a' := by
        cases vs with
        | nil => exact ⟨_, rfl⟩
        | cons _ _ => exact ⟨_, rfl⟩
      refine ⟨a, ?_, hnil⟩
      show spineTo (n + 1) h' (some ⟨(h.list vs).2.cells.size⟩) = _
      obtain ⟨a', ha'⟩ := hsome
      rw [spineTo, hcell]
      simp only [Cell.cdr, Cell.car]
      rw [hspine]
      simp [ha', Cell.kind, Cell.husk, Datum.husk, Husk.kind, Cell.isNil, Cell.car, Cell.cdr]

/-- The elements of a list are those it was made of. -/
theorem elements?_list (vs : List Ref) (h : Heap) {h' : Heap} (he : (h.list vs).2.Extends h') :
    h'.elements? (h.list vs).1 = some vs := by
  have hsize : vs.length < (h.list vs).2.cells.size := by
    clear he
    induction vs with
    | nil => simp [list, new, alloc]
    | cons v vs ih => simpa [list, new, alloc] using ih
  obtain ⟨a, hspine, hnil⟩ := spineTo_list vs h he (Nat.lt_of_lt_of_le hsize he.cells_le)
  rw [elements?, spine, hspine]
  simp [isNil, cell?, hnil, Cell.isNil, Datum.nil, Cell.kind, Cell.husk, Datum.husk, Husk.kind,
    Cell.car, Cell.cdr]

end Heap

end ArenaLisp
