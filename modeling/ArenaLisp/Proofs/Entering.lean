import ArenaLisp.Proofs.Making

/-!
# The environment of a call

A call copies the bindings that the closure took along, puts a frame for its
parameters in front of the caller's chain and splices the copies onto the frame. Only
one link is changed in all this, and it belongs to a copy. So the chain of the caller
is the end of the new one, binding by binding, and no value reaches any of it.
-/

namespace ArenaLisp

namespace Heap

/-! ## Copies of chains -/

theorem Linked.reaches {h : Heap} {c : Chain} {bs : List BindingId} (hc : h.Linked c bs)
    {b : BindingId} (hb : b ∈ bs) : ∃ n ∈ Node.ofChain c, h.Reaches n (.binding b) := by
  induction bs generalizing c with
  | nil => cases hb
  | cons b' bs ih =>
      refine ⟨.binding b', by simp [hc.1], ?_⟩
      rcases List.mem_cons.mp hb with rfl | hb
      · exact Reaches.refl _
      · obtain ⟨n, hn, hr⟩ := ih hc.2.2 hb
        refine (Reaches.of_part ?_).trans hr
        exact List.mem_append_right _ (List.mem_append_right _ hn)

/-- The binding at the front of a chain reaches the bindings behind it and what they hold. -/
theorem Linked.reaches_cases {h : Heap} {c : Chain} {bs : List BindingId} (hc : h.Linked c bs)
    {n k : Node} (hn : n ∈ Node.ofChain c) (hk : h.Reaches n k) :
    ∃ b ∈ bs, k = .binding b ∨ h.Holds (h.binding b).name k ∨ h.Holds (h.binding b).value k := by
  induction bs generalizing c n with
  | nil =>
      rw [show c = none from hc] at hn
      simp at hn
  | cons b bs ih =>
      obtain ⟨rfl, _, hrest⟩ := hc
      obtain ⟨_, hb, rfl⟩ := Node.mem_ofChain.mp hn
      cases hb
      rcases reaches_iff.mp hk with rfl | ⟨p, hp, hpk⟩
      · exact ⟨b, List.mem_cons_self, Or.inl rfl⟩
      · simp only [parts, Binding.parts, List.mem_append] at hp
        rcases hp with hp | hp | hp
        · exact ⟨b, List.mem_cons_self, Or.inr (Or.inl (holds_iff.mpr ⟨p, hp, hpk⟩))⟩
        · exact ⟨b, List.mem_cons_self, Or.inr (Or.inr (holds_iff.mpr ⟨p, hp, hpk⟩))⟩
        · obtain ⟨b', hb', hcase⟩ := ih hrest hp hpk
          exact ⟨b', List.mem_cons_of_mem _ hb', hcase⟩

/-- The copy of a chain ends, and no value reaches its bindings. -/
theorem copyChainTo_linked (n : Nat) {h : Heap} {c : Chain} (hbd : h.Bounded)
    (hc : h.LiveChain c) :
    ∃ cs, (copyChainTo n h c).2.Linked (copyChainTo n h c).1 cs ∧
      (copyChainTo n h c).2.Sealed cs := by
  induction n generalizing h c with
  | zero => cases c <;> exact ⟨[], rfl, fun _ _ hb => absurd hb List.not_mem_nil⟩
  | succ n ih =>
      cases c with
      | none => exact ⟨[], rfl, fun _ _ hb => absurd hb List.not_mem_nil⟩
      | some b =>
          have hb : h.Live (.binding b) := hc _ (by simp)
          obtain ⟨hn, hv, hnext⟩ := hb.fields
          have hname := ((copyTo_copies n).1 h (h.binding b).name hn).copies
          have hvalue := ((copyTo_copies n).1 _ (h.binding b).value
            (hname.grown.liveRef hv)).copies
          have hchain := hvalue.grown.liveChain (hname.grown.liveChain hnext)
          have hbd₂ := hvalue.clean.bounded hvalue.grown (hname.clean.bounded hname.grown hbd)
          obtain ⟨cs, hlinked, hsealed⟩ := ih hbd₂ hchain
          have hnext := ((copyTo_copies n).2 _ (h.binding b).next hchain).copies
          have hbd₃ := hnext.clean.bounded hnext.grown hbd₂
          rw [copyChainTo]
          exact ⟨_ :: cs, linked_put _ _ hlinked, sealed_put hbd₃ hsealed⟩

/-! ## Frames -/

/-- What a binding binds: a name and a value. -/
def bound (h : Heap) (b : BindingId) : Ref × Ref := ((h.binding b).name, (h.binding b).value)

/-- Whether new bindings, of the given names and values in order, stand in front of a chain. -/
structure Fronts (h h' : Heap) (pairs : List (Ref × Ref)) (base c : Chain)
    (fs : List BindingId) : Prop where
  stretch : h'.Stretch c fs base
  bound : fs.map h'.bound = pairs
  fresh : ∀ b ∈ fs, ¬h.Has (.binding b)
  nodup : fs.Nodup
  cells : h'.cells = h.cells
  grown : h.Extends h'

theorem Fronts.put {h h' : Heap} {pairs : List (Ref × Ref)} {base c : Chain} {fs : List BindingId}
    (hf : h.Fronts h' pairs base c fs) (name value : Ref) :
    h.Fronts (h'.put name value c).2 ((name, value) :: pairs) base (h'.put name value c).1
      (⟨h'.bindings.size⟩ :: fs) := by
  have he := extends_put h' name value c
  have hold : ∀ b ∈ fs, (h'.put name value c).2.binding b = h'.binding b :=
    fun b hb => he.binding b (hf.stretch.has hb)
  refine ⟨⟨rfl, (made_put.mpr rfl).1, ?_⟩, ?_, ?_, ?_, hf.cells, hf.grown.trans he⟩
  · rw [binding_put]
    exact hf.stretch.congr fun b hb => ⟨he.has (hf.stretch.has hb), by rw [hold b hb]⟩
  · rw [List.map_cons, Heap.bound, binding_put, ← hf.bound]
    exact congrArg _ (List.map_congr_left fun b hb => by rw [Heap.bound, Heap.bound, hold b hb])
  · intro b hb hhas
    rcases List.mem_cons.mp hb with rfl | hb
    · exact Nat.lt_irrefl _ (hf.grown.has hhas)
    · exact hf.fresh b hb hhas
  · exact List.nodup_cons.mpr ⟨fun hb => Nat.lt_irrefl _ (hf.stretch.has hb), hf.nodup⟩

theorem putAll_fronts (pairs : List (Ref × Ref)) (h : Heap) (base : Chain) :
    ∃ fs, h.Fronts (h.putAll pairs base).2 pairs base (h.putAll pairs base).1 fs := by
  induction pairs with
  | nil => exact ⟨[], rfl, rfl, nofun, List.nodup_nil, rfl, .refl h⟩
  | cons p pairs ih =>
      obtain ⟨fs, hfs⟩ := ih
      exact ⟨_, hfs.put p.1 p.2⟩

/-- Whether a chain was grown by a frame that binds the given names and values. -/
structure Frames (h h' : Heap) (pairs : List (Ref × Ref)) (fs : List BindingId) : Prop where
  grown : h.Extends h'
  bounded : h'.Bounded
  fresh : ∀ b ∈ fs, ¬h.Has (.binding b)
  bound : fs.map h'.bound = pairs
  unreleased : ∀ b ∈ fs, (h'.binding b).released = false
  made : ∀ n, h.Made h' n → ∃ b ∈ fs, n = .binding b
  sealed : ∀ bs, h.Sealed bs → h'.Sealed (fs ++ bs)
  edits : h.Edits h'

theorem putAll_frames (pairs : List (Ref × Ref)) {h : Heap} {base : Chain}
    {env : List BindingId} (hbd : h.Bounded) (hl : h.Linked base env)
    (hp : ∀ p ∈ pairs, ∀ k ∈ Node.ofRef p.1 ++ Node.ofRef p.2, h.Has k) :
    ∃ fs, h.Fronts (h.putAll pairs base).2 pairs base (h.putAll pairs base).1 fs ∧
      h.Frames (h.putAll pairs base).2 pairs fs := by
  induction pairs with
  | nil =>
      exact ⟨[], ⟨rfl, rfl, nofun, List.nodup_nil, rfl, .refl h⟩, .refl h, hbd, nofun, rfl, nofun,
        fun _ hn => absurd hn.1 hn.2, fun _ hs => hs, .refl h⟩
  | cons p pairs ih =>
      obtain ⟨name, value⟩ := p
      obtain ⟨fs, hfronts, hf⟩ := ih fun q hq => hp q (List.mem_cons_of_mem _ hq)
      generalize hput : h.putAll pairs base = r at hfronts hf
      obtain ⟨c, h'⟩ := r
      dsimp only at hfronts hf
      have hlinked := hfronts.stretch.linked (hf.grown.linked hl)
      have hparts : ∀ k ∈ (⟨name, value, c, false⟩ : Binding).parts, h'.Has k := by
        intro k hk
        rcases List.mem_append.mp hk with hk | hk
        · exact hf.grown.has (hp _ List.mem_cons_self k (List.mem_append_left _ hk))
        · rcases List.mem_append.mp hk with hk | hk
          · exact hf.grown.has (hp _ List.mem_cons_self k (List.mem_append_right _ hk))
          · exact hlinked.front_has k hk
      rw [putAll, hput]
      have hnext := hfronts.put name value
      refine ⟨_, hnext, hnext.grown, bounded_put hf.bounded hparts, hnext.fresh, hnext.bound,
        ?_, ?_, ?_, hf.edits.step (.put name value c hparts)⟩
      · intro b hb
        rcases List.mem_cons.mp hb with rfl | hb
        · rw [binding_put]
        · rw [(extends_put h' name value c).binding b (hfronts.stretch.has hb)]
          exact hf.unreleased b hb
      · intro n hn
        by_cases hn' : h'.Has n
        · obtain ⟨b, hb, rfl⟩ := hf.made n ⟨hn', hn.2⟩
          exact ⟨b, List.mem_cons_of_mem _ hb, rfl⟩
        · exact ⟨_, List.mem_cons_self, made_put.mp ⟨hn.1, hn'⟩⟩
      · exact fun bs hs => sealed_put hf.bounded (hf.sealed bs hs)

/-! ## Splicing -/

theorem join_bound {h : Heap} (front back : Chain) {b : BindingId} (hb : h.Has (.binding b)) :
    (h.join front back).2.bound b = h.bound b :=
  Prod.ext (join_fields front back hb).1 (join_fields front back hb).2.1

theorem join_bounded {h : Heap} {front back : Chain} (hbd : h.Bounded)
    (hback : ∀ k ∈ Node.ofChain back, h.Has k) : (h.join front back).2.Bounded := by
  intro n k hk
  rw [join_has]
  cases n with
  | value a =>
      have hagree : h.AgreeAt (h.join front back).2 (.value a) := join_agreeAt fun _ _ hf => by
        cases hf
      rw [hagree.parts_eq] at hk
      exact hbd _ k hk
  | binding b =>
      have hb : h.Has (.binding b) := join_has.mp (has_of_mem_parts hk)
      obtain ⟨hname, hvalue, _, hnext⟩ := join_fields front back hb
      simp only [parts, Binding.parts, hname, hvalue, List.mem_append] at hk
      rcases hk with hk | hk | hk
      · exact hbd (.binding b) k (List.mem_append_left _ hk)
      · exact hbd (.binding b) k (List.mem_append_right _ (List.mem_append_left _ hk))
      · rcases hnext with hnext | hnext
        · rw [hnext] at hk
          exact hbd (.binding b) k (List.mem_append_right _ (List.mem_append_right _ hk))
        · rw [hnext] at hk
          exact hback k hk

/-! ## The environment of a call -/

/-- The copy of a chain is a chain of new bindings that reach only what is new. -/
theorem copyChain_linked {h : Heap} {c : Chain} (hbd : h.Bounded) (hc : h.LiveChain c) :
    ∃ cs, (h.copyChain c).2.Linked (h.copyChain c).1 cs ∧ (h.copyChain c).2.Sealed cs ∧
      ∀ b ∈ cs, (h.copyChain c).2.Live (.binding b) ∧
        ∀ k, (h.copyChain c).2.Reaches (.binding b) k → h.Made (h.copyChain c).2 k := by
  obtain ⟨cs, hlinked, hsealed⟩ := copyChainTo_linked h.depth hbd hc
  refine ⟨cs, hlinked, hsealed, fun b hb => ?_⟩
  have hcopies := copyChain_copies hc
  obtain ⟨n, hn, hr⟩ := hlinked.reaches hb
  exact ⟨(Copies.live hcopies hn).of_reaches hr,
    fun k hk => Copies.reaches_made hcopies hn (hr.trans hk)⟩

/--
Whether a heap was grown by the environment of a call: a chain of new bindings in
front of that of the caller. What they bind are values passed to the call, or new.
-/
structure Enters (h h' : Heap) (values : List Ref) (env front : List BindingId) (call : Chain) :
    Prop where
  grown : h.Extends h'
  bounded : h'.Bounded
  linked : h'.Linked call (front ++ env)
  fresh : ∀ b ∈ front, ¬h.Has (.binding b)
  sealed : h'.Sealed (front ++ env)
  unreleased : ∀ b ∈ front, (h'.binding b).released = false
  clean : ∀ n, h.Made h' n → ¬h'.Released n
  edits : h.Edits h'
  names : ∀ b ∈ front, h'.LiveRef (h'.binding b).name
  values : ∀ b ∈ front, h'.LiveRef (h'.binding b).value ∧
    ((h'.binding b).value ∈ values ∨ ∀ k, h'.Holds (h'.binding b).value k → h.Made h' k)

/-- A frame is bound only where there are as many names as values. -/
theorem bindFrame_ok {h h' : Heap} {names args : Ref} {base c : Chain}
    (hb : h.bindFrame names args base = (.ok c, h')) :
    ∃ ns vs, h.elements? names = some ns ∧ h.elements? args = some vs ∧ ns.length = vs.length ∧
      h.putAll (ns.zip vs) base = (c, h') := by
  unfold bindFrame at hb
  split at hb
  · cases hb
  · cases hb
  · rename_i ns vs hns hvs
    split at hb
    · rename_i hlen
      refine ⟨ns, vs, hns, hvs, hlen, ?_⟩
      cases hp : h.putAll (ns.zip vs) base with
      | mk c₁ h₁ =>
          rw [hp] at hb
          cases hb
          rfl
    · cases hb

theorem bindFrame_error {h h' : Heap} {names args : Ref} {base : Chain} {cause : Cause}
    (hb : h.bindFrame names args base = (.error cause, h')) : h' = h := by
  unfold bindFrame at hb
  split at hb
  · cases hb; rfl
  · cases hb; rfl
  · split at hb
    · cases hb
    · cases hb; rfl

theorem extends_putAll (pairs : List (Ref × Ref)) (h : Heap) (base : Chain) :
    h.Extends (h.putAll pairs base).2 := by
  induction pairs with
  | nil => exact .refl h
  | cons p pairs ih => exact ih.trans (extends_put _ p.1 p.2 _)

theorem extends_of_bindFrame {h h' : Heap} {names args : Ref} {base c : Chain}
    (hb : h.bindFrame names args base = (.ok c, h')) : h.Extends h' := by
  obtain ⟨ns, vs, _, _, _, hput⟩ := bindFrame_ok hb
  have he := extends_putAll (ns.zip vs) h base
  rw [hput] at he
  exact he

/-- What a value holds does not change when a chain that no value reaches is spliced. -/
theorem join_holds_iff {h : Heap} {front back : Chain} {bs : List BindingId}
    (hf : h.Linked front bs) (hs : h.Sealed bs) {v : Ref} {k : Node} :
    (h.join front back).2.Holds v k ↔ h.Holds v k := by
  refine holds_congr fun l hl => join_agreeAt fun b hb => ?_
  rw [hf.chain_eq] at hb
  rintro rfl
  obtain ⟨a, rfl, hr⟩ := hl
  exact hs a b hb hr

theorem join_liveRef {h : Heap} {front back : Chain} {bs : List BindingId}
    (hf : h.Linked front bs) (hs : h.Sealed bs) {v : Ref} (hv : h.LiveRef v) :
    (h.join front back).2.LiveRef v := by
  refine liveRef_congr hv (fun l hl => join_agreeAt fun b hb => ?_) fun _ hk => join_has.mpr hk
  rw [hf.chain_eq] at hb
  rintro rfl
  obtain ⟨a, rfl, hr⟩ := hl
  exact hs a b hb hr

/-- Splicing is an edit where no value reaches the chain in front, nor the other chain any of it. -/
theorem join_edits {h : Heap} {front back : Chain} {cs bs : List BindingId}
    (hcs : h.Linked front cs) (hbs : h.Linked back bs) (hdisj : ∀ b ∈ cs, b ∉ bs)
    (hs : h.Sealed cs) : h.Edits (h.join front back).2 := by
  rcases join_cases h front back with heq | ⟨last, hlast, heq⟩
  · rw [heq]
    exact .refl h
  · rw [heq]
    rw [hcs.chain_eq] at hlast
    refine (Edits.refl h).step (.splice last back fun k hk => ⟨hbs.front_has k hk, fun hr => ?_⟩)
    obtain ⟨b, hb, hcase⟩ := hbs.reaches_cases hk hr
    rcases hcase with heq | hheld | hheld
    · cases heq
      exact hdisj last hlast hb
    · obtain ⟨a, -, hr⟩ := hheld
      exact hs a last hlast hr
    · obtain ⟨a, -, hr⟩ := hheld
      exact hs a last hlast hr

/-- Splicing copies of the captured bindings onto the frame of a call. -/
theorem join_enters {h h' : Heap} {captured frame : Chain} {values : List Ref}
    {cs fs env : List BindingId} (he : h.Extends h') (hbd : h'.Bounded)
    (hcs : h'.Linked captured cs) (hfs : h'.Linked frame (fs ++ env))
    (hdisj : ∀ b ∈ cs, b ∉ fs ++ env) (hfresh : ∀ b ∈ cs ++ fs, ¬h.Has (.binding b))
    (hs : h'.Sealed (cs ++ (fs ++ env)))
    (hr : ∀ b ∈ cs ++ fs, (h'.binding b).released = false)
    (hclean : ∀ n, h.Made h' n → ¬h'.Released n) (hedits : h.Edits h')
    (hn : ∀ b ∈ cs ++ fs, h'.LiveRef (h'.binding b).name)
    (hv : ∀ b ∈ cs ++ fs, h'.LiveRef (h'.binding b).value ∧
      ((h'.binding b).value ∈ values ∨ ∀ k, h'.Holds (h'.binding b).value k → h.Made h' k)) :
    h.Enters (h'.join captured frame).2 values env (cs ++ fs) (h'.join captured frame).1 := by
  have hcs_sealed : h'.Sealed cs := fun a b hb => hs a b (List.mem_append_left _ hb)
  have hhas : ∀ b ∈ cs ++ fs, h'.Has (.binding b) := by
    intro b hb
    rcases List.mem_append.mp hb with hb | hb
    · exact hcs.has hb
    · exact hfs.has (List.mem_append_left _ hb)
  constructor
  · -- the link that changes is new, so nothing that was there does
    refine ⟨?_, ?_, ?_, ?_⟩
    · rcases join_cases h' captured frame with heq | ⟨last, _, heq⟩ <;> rw [heq] <;>
        exact he.cells_le
    · rcases join_cases h' captured frame with heq | ⟨last, _, heq⟩ <;> rw [heq]
      · exact he.bindings_le
      · simpa [modifyBinding] using he.bindings_le
    · intro a ha
      have hagree : h'.AgreeAt (h'.join captured frame).2 (.value a) := join_agreeAt fun _ _ hf => by
        cases hf
      exact (he.agreeAt (n := .value a) ha).trans hagree
    · intro b hb
      have hagree : h'.AgreeAt (h'.join captured frame).2 (.binding b) := by
        refine join_agreeAt fun b' hb' => ?_
        rw [hcs.chain_eq] at hb'
        rintro ⟨⟩
        exact hfresh b (List.mem_append_left _ hb') hb
      exact (he.agreeAt (n := .binding b) hb).trans hagree
  · exact join_bounded hbd hfs.front_has
  · rw [List.append_assoc]
    exact hcs.join hfs hdisj
  · exact hfresh
  · intro a b hb hreach
    rw [List.append_assoc] at hb
    have hiff : (h'.join captured frame).2.Holds (some a) (.binding b) ↔ _ :=
      join_holds_iff hcs hcs_sealed
    rw [holds_some, holds_some] at hiff
    exact hs a b hb (hiff.mp hreach)
  · intro b hb
    rw [(join_fields captured frame (hhas b hb)).2.2.1]
    exact hr b hb
  · intro n hmade
    have hn' := join_has.mp hmade.1
    have hnot := hclean n ⟨hn', hmade.2⟩
    cases n with
    | value a =>
        have hagree : h'.AgreeAt (h'.join captured frame).2 (.value a) :=
          join_agreeAt fun _ _ hf => by cases hf
        rwa [hagree.released_iff]
    | binding b =>
        rw [Released, (join_fields captured frame hn').2.2.1]
        exact hnot
  · exact hedits.trans (join_edits hcs hfs hdisj hcs_sealed)
  · intro b hb
    rw [(join_fields captured frame (hhas b hb)).1]
    exact join_liveRef hcs hcs_sealed (hn b hb)
  · intro b hb
    rw [(join_fields captured frame (hhas b hb)).2.1]
    refine ⟨join_liveRef hcs hcs_sealed (hv b hb).1, ?_⟩
    rcases (hv b hb).2 with hmem | hmade
    · exact Or.inl hmem
    · refine Or.inr fun k hk => ?_
      have hk' := hmade k ((join_holds_iff hcs hcs_sealed).mp hk)
      exact ⟨join_has.mpr hk'.1, hk'.2⟩

/--
What the environment of a call binds in front of the caller's: what the closure captured, in
copies, then its parameters, to the values passed.
-/
structure Binds (h h' : Heap) (c : Closure) (values : List Ref) (cs fs : List BindingId)
    (ns : List Ref) : Prop where
  copied : (h.copyChain c.captured).2.Linked (h.copyChain c.captured).1 cs
  captured : ∀ b ∈ cs, h'.bound b = (h.copyChain c.captured).2.bound b
  /-- The values of the copies are as they were when the copies were made. -/
  kept : ∀ v, (h.copyChain c.captured).2.LiveRef v → ∀ k, (h.copyChain c.captured).2.Holds v k →
    (h.copyChain c.captured).2.AgreeAt h' k
  params : ((h.copyChain c.captured).2.list values).2.elements? c.params = some ns
  length : ns.length = values.length
  frame : fs.map h'.bound = ns.zip values
  /-- Everything new is of the copies, of the list of the values, or a binding of the frame. -/
  made : ∀ n, h.Made h' n → h.Made (h.copyChain c.captured).2 n ∨
    (h.copyChain c.captured).2.Made ((h.copyChain c.captured).2.list values).2 n ∨
    ∃ b ∈ fs, n = .binding b

/--
What is laid out for a call before the splice: the captured bindings are copied (`h₁`), the values
passed are put into a list (`h₂`), and new bindings of the parameters to them are put in front of
the chain of the caller (`h₃`).
-/
structure LaysOut (h h₁ h₂ h₃ : Heap) (scope captured frame : Chain) (args : Ref)
    (values ns : List Ref) (cs fs env : List BindingId) : Prop where
  bounded : h.Bounded
  caller : h.Linked scope env
  caller_sealed : h.Sealed env
  copies : h.Copies h₁ (Node.ofChain captured)
  copied : h₁.Linked captured cs
  copied_sealed : h₁.Sealed cs
  copied_live : ∀ b ∈ cs, h₁.Live (.binding b) ∧ ∀ k, h₁.Reaches (.binding b) k → h.Made h₁ k
  passed : ∀ v ∈ values, h₁.LiveRef v
  /-- The list refers to the values alone. -/
  list : Builds (fun k => ∃ v ∈ values, k ∈ Node.ofRef v) h₁ h₂ (Node.ofRef args)
  params : ∀ e ∈ ns, h₂.LiveRef e
  fronts : h₂.Fronts h₃ (ns.zip values) scope frame fs
  frames : h₂.Frames h₃ (ns.zip values) fs

/-- A frame can be bound only over such a layout. -/
theorem laysOut_of_bindFrame {h h₃ : Heap} {c : Closure} {values : List Ref} {scope frame : Chain}
    {env : List BindingId} (hbd : h.Bounded) (hl : h.Linked scope env) (hs : h.Sealed env)
    (hparams : h.LiveRef c.params) (hcap : h.LiveChain c.captured)
    (hvalues : ∀ v ∈ values, h.LiveRef v)
    (hbind : ((h.copyChain c.captured).2.list values).2.bindFrame c.params
      ((h.copyChain c.captured).2.list values).1 scope = (.ok frame, h₃)) :
    ∃ cs fs ns,
      h.LaysOut (h.copyChain c.captured).2 ((h.copyChain c.captured).2.list values).2 h₃ scope
        (h.copyChain c.captured).1 frame ((h.copyChain c.captured).2.list values).1 values ns cs fs
        env ∧
      ((h.copyChain c.captured).2.list values).2.elements? c.params = some ns ∧
      ns.length = values.length := by
  have hcopies := copyChain_copies hcap
  obtain ⟨cs, hcs, hcs_sealed, hcs_live⟩ := copyChain_linked hbd hcap
  generalize h.copyChain c.captured = copied at *
  obtain ⟨captured, h₁⟩ := copied
  dsimp only at *
  have hvalues₁ : ∀ v ∈ values, h₁.LiveRef v := fun v hv => hcopies.grown.liveRef (hvalues v hv)
  have hgiven : Builds (fun k => ∃ v ∈ values, k ∈ Node.ofRef v) h₁ h₁
      (values.flatMap Node.ofRef) :=
    (Builds.refl _ h₁).add fun n hn => by
      obtain ⟨v, hv, hn⟩ := List.mem_flatMap.mp hn
      exact ⟨(liveRef_iff.mp (hvalues₁ v hv) n hn).has, v, hv, hn⟩
  have hlist := list_builds values hgiven
  have hback := elements?_list values h₁ (.refl _)
  generalize h₁.list values = args at *
  obtain ⟨args, h₂⟩ := args
  dsimp only at *
  obtain ⟨ns, vs, hns, hvs, hlen, hput⟩ := bindFrame_ok hbind
  rw [hback] at hvs
  cases hvs
  have he := hcopies.grown.trans hlist.grown
  have hns_live : ∀ e ∈ ns, h₂.LiveRef e := elements?_live (he.liveRef hparams) hns
  have hbd₂ := hlist.clean.bounded hlist.grown (hcopies.clean.bounded hcopies.grown hbd)
  have hpairs : ∀ p ∈ ns.zip values, ∀ k ∈ Node.ofRef p.1 ++ Node.ofRef p.2, h₂.Has k := by
    intro p hp k hk
    obtain ⟨hname, hvalue⟩ := List.of_mem_zip hp
    rcases List.mem_append.mp hk with hk | hk
    · exact (liveRef_iff.mp (hns_live p.1 hname) k hk).has
    · exact (liveRef_iff.mp (hlist.grown.liveRef (hvalues₁ p.2 hvalue)) k hk).has
  obtain ⟨fs, hfronts, hframes⟩ := putAll_frames (ns.zip values) hbd₂ (he.linked hl) hpairs
  rw [hput] at hfronts hframes
  exact ⟨cs, fs, ns, ⟨hbd, hl, hs, hcopies, hcs, hcs_sealed, hcs_live, hvalues₁, hlist, hns_live,
    hfronts, hframes⟩, hns, hlen⟩

namespace LaysOut

variable {h h₁ h₂ h₃ : Heap} {scope captured frame : Chain} {args : Ref} {values ns : List Ref}
  {cs fs env : List BindingId}
  (hl : h.LaysOut h₁ h₂ h₃ scope captured frame args values ns cs fs env)

include hl

theorem grown_copied : h₁.Extends h₃ := hl.list.grown.trans hl.frames.grown

theorem grown : h.Extends h₃ := hl.copies.grown.trans hl.grown_copied

theorem linked_copied : h₃.Linked captured cs := hl.grown_copied.linked hl.copied

theorem linked_frame : h₃.Linked frame (fs ++ env) :=
  hl.fronts.stretch.linked (hl.grown.linked hl.caller)

/-- The copies stay as they were made. -/
theorem binding_copied {b : BindingId} (hb : b ∈ cs) : h₃.binding b = h₁.binding b :=
  hl.grown_copied.binding b (hl.copied.has hb)

/-- What a copy refers to is new with all that it holds. -/
theorem part_copied {b : BindingId} (hb : b ∈ cs) {v : Ref}
    (hv : ∀ k ∈ Node.ofRef v, k ∈ (h₁.binding b).parts) :
    h₁.LiveRef v ∧ ∀ k, h₁.Holds v k → h.Made h₁ k := by
  refine ⟨liveRef_iff.mpr fun k hk => (hl.copied_live b hb).1.part (hv k hk), fun k hk => ?_⟩
  obtain ⟨n, hn, hr⟩ := holds_iff.mp hk
  exact (hl.copied_live b hb).2 k ((Reaches.of_part (n := .binding b) (hv n hn)).trans hr)

/-- A binding of the frame binds a parameter to a value. -/
theorem bound_frame {b : BindingId} (hb : b ∈ fs) :
    (h₃.binding b).name ∈ ns ∧ (h₃.binding b).value ∈ values := by
  have hmem : h₃.bound b ∈ ns.zip values := by
    rw [← hl.frames.bound]
    exact List.mem_map_of_mem hb
  exact List.of_mem_zip hmem

/-- Everything new is of the copies, of the list of the values, or a binding of the frame. -/
theorem made_cases {n : Node} (hn : h.Made h₃ n) :
    h.Made h₁ n ∨ h₁.Made h₂ n ∨ ∃ b ∈ fs, n = .binding b := by
  by_cases h₁n : h₁.Has n
  · exact Or.inl ⟨h₁n, hn.2⟩
  · by_cases h₂n : h₂.Has n
    · exact Or.inr (Or.inl ⟨h₂n, h₁n⟩)
    · exact Or.inr (Or.inr (hl.frames.made n ⟨hn.1, h₂n⟩))

theorem fresh {b : BindingId} (hb : b ∈ cs ++ fs) : ¬h.Has (.binding b) := by
  intro h₀
  rcases List.mem_append.mp hb with hb | hb
  · exact ((hl.copied_live b hb).2 _ (Reaches.refl _)).2 h₀
  · exact hl.frames.fresh b hb ((hl.copies.grown.trans hl.list.grown).has h₀)

theorem disjoint {b : BindingId} (hb : b ∈ cs) : b ∉ fs ++ env := by
  intro hmem
  rcases List.mem_append.mp hmem with hmem | hmem
  · exact hl.frames.fresh b hmem (hl.list.grown.has (hl.copied.has hb))
  · exact hl.fresh (List.mem_append_left _ hb) (hl.caller.has hmem)

/-- No value reaches the copies, the frame or the bindings of the caller. -/
theorem sealed : h₃.Sealed (cs ++ (fs ++ env)) := by
  have hbd₁ := hl.copies.clean.bounded hl.copies.grown hl.bounded
  have hsealed₁ : h₁.Sealed (cs ++ env) := by
    intro a b hb
    rcases List.mem_append.mp hb with hb | hb
    · exact hl.copied_sealed a b hb
    · exact hl.copies.sealed hl.bounded (fun _ hf => hf.elim) (fun b hb => hl.caller.has hb)
        hl.caller_sealed a b hb
  have hsealed₂ : h₂.Sealed (cs ++ env) := by
    refine hl.list.sealed hbd₁ ?_ ?_ hsealed₁
    · rintro k ⟨v, _, hk⟩
      obtain ⟨a, _, rfl⟩ := Node.mem_ofRef.mp hk
      exact ⟨a, rfl⟩
    · intro b hb
      rcases List.mem_append.mp hb with hb | hb
      · exact hl.copied.has hb
      · exact hl.copies.grown.has (hl.caller.has hb)
  intro a b hb
  refine hl.frames.sealed (cs ++ env) hsealed₂ a b ?_
  simp only [List.mem_append] at hb ⊢
  rcases hb with hb | hb | hb
  · exact Or.inr (Or.inl hb)
  · exact Or.inl hb
  · exact Or.inr (Or.inr hb)

theorem unreleased {b : BindingId} (hb : b ∈ cs ++ fs) : (h₃.binding b).released = false := by
  rcases List.mem_append.mp hb with hb | hb
  · rw [hl.binding_copied hb]
    simpa [Released] using (hl.copied_live b hb).1.not_released
  · exact hl.frames.unreleased b hb

theorem clean {n : Node} (hn : h.Made h₃ n) : ¬h₃.Released n := by
  rcases hl.made_cases hn with hmade | hmade | ⟨b, hb, rfl⟩
  · rw [(hl.grown_copied.agreeAt hmade.1).released_iff]
    exact (hl.copies.clean n hmade).1
  · rw [(hl.frames.grown.agreeAt hmade.1).released_iff]
    exact (hl.list.clean n hmade).1
  · simp [Released, hl.frames.unreleased b hb]

theorem live_name {b : BindingId} (hb : b ∈ cs ++ fs) : h₃.LiveRef (h₃.binding b).name := by
  rcases List.mem_append.mp hb with hb | hb
  · rw [hl.binding_copied hb]
    exact hl.grown_copied.liveRef (hl.part_copied hb fun k hk => List.mem_append_left _ hk).1
  · exact hl.frames.grown.liveRef (hl.params _ (hl.bound_frame hb).1)

theorem live_value {b : BindingId} (hb : b ∈ cs ++ fs) : h₃.LiveRef (h₃.binding b).value ∧
    ((h₃.binding b).value ∈ values ∨ ∀ k, h₃.Holds (h₃.binding b).value k → h.Made h₃ k) := by
  rcases List.mem_append.mp hb with hb | hb
  · obtain ⟨hlive, hmade⟩ := hl.part_copied hb (v := (h₁.binding b).value) fun k hk =>
      List.mem_append_right _ (List.mem_append_left _ hk)
    rw [hl.binding_copied hb]
    refine ⟨hl.grown_copied.liveRef hlive, Or.inr fun k hk => ?_⟩
    have hk' := hmade k ((hl.grown_copied.holds_iff fun k hk => (hlive k hk).1).mp hk)
    exact ⟨hl.grown_copied.has hk'.1, hk'.2⟩
  · have hmem := (hl.bound_frame hb).2
    exact ⟨hl.grown_copied.liveRef (hl.passed _ hmem), Or.inl hmem⟩

/-- With the splice, the layout is the environment of the call. -/
theorem enters : h.Enters (h₃.join captured frame).2 values env (cs ++ fs)
    (h₃.join captured frame).1 :=
  join_enters hl.grown hl.frames.bounded hl.linked_copied hl.linked_frame (fun _ => hl.disjoint)
    (fun _ => hl.fresh) hl.sealed (fun _ => hl.unreleased) (fun _ => hl.clean)
    ((hl.copies.edits.trans hl.list.edits).trans hl.frames.edits) (fun _ => hl.live_name)
    fun _ => hl.live_value

/-- What a value held with the copies made is as it was when they are spliced. -/
theorem kept {v : Ref} (hv : h₁.LiveRef v) {k : Node} (hk : h₁.Holds v k) :
    h₁.AgreeAt (h₃.join captured frame).2 k := by
  refine (hl.grown_copied.agreeAt (hv k hk).1).trans (join_agreeAt fun b hb => ?_)
  rw [hl.linked_copied.chain_eq] at hb
  rintro rfl
  obtain ⟨a, rfl, hr⟩ := hk
  exact hl.copied_sealed a b hb hr

end LaysOut

/-- **Entering a call** makes a chain in front of the caller's and changes nothing else. -/
theorem enters_call {h h₃ : Heap} {c : Closure} {values : List Ref} {scope frame : Chain}
    {env : List BindingId} (hbd : h.Bounded) (hl : h.Linked scope env) (hs : h.Sealed env)
    (hparams : h.LiveRef c.params) (hcap : h.LiveChain c.captured)
    (hvalues : ∀ v ∈ values, h.LiveRef v)
    (hbind : ((h.copyChain c.captured).2.list values).2.bindFrame c.params
      ((h.copyChain c.captured).2.list values).1 scope = (.ok frame, h₃)) :
    ∃ cs fs ns,
      h.Enters (h₃.join (h.copyChain c.captured).1 frame).2 values env (cs ++ fs)
        (h₃.join (h.copyChain c.captured).1 frame).1 ∧
      h.Binds (h₃.join (h.copyChain c.captured).1 frame).2 c values cs fs ns := by
  obtain ⟨cs, fs, ns, hout, hns, hlen⟩ :=
    laysOut_of_bindFrame hbd hl hs hparams hcap hvalues hbind
  refine ⟨cs, fs, ns, hout.enters, hout.copied, fun b hb => ?_, fun v hv k hk => hout.kept hv hk,
    hns, hlen, ?_, fun n hn => hout.made_cases ⟨join_has.mp hn.1, hn.2⟩⟩
  · rw [join_bound _ frame (hout.linked_copied.has hb), Heap.bound, hout.binding_copied hb,
      Heap.bound]
  · rw [← hout.frames.bound]
    exact List.map_congr_left fun b hb => join_bound _ frame (hout.fronts.stretch.has hb)

end Heap

end ArenaLisp
