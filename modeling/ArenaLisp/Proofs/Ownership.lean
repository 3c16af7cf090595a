import ArenaLisp.Proofs.Invariant
import ArenaLisp.Proofs.Paths

/-!
# What the root environment owns

Within a turn values are shared freely: a variable, a quoted constant, a field of a list and the
value of `set` itself are all references to something that is there already. None of this
sharing is ever stored. Whatever a lasting binding binds was copied for it, and a copy is a tree
of nodes that nothing else refers to.

`Owned` says this of the lasting bindings of a machine. Only `set` gives a binding a value, so
the other changes keep it by the frame argument, and calls do because their bindings do not last.
Between two steps of a session all bindings of the root environment last. So every node is
reached from the root environment along one path only, and what is reached is not registered.
-/

namespace ArenaLisp

namespace Heap

/-- Whether a reference is absent or names a tree. -/
def UnsharedRef (h : Heap) (v : Ref) : Prop := ∀ n ∈ Node.ofRef v, h.Unshared n

theorem UnsharedRef.congr {h h' : Heap} {v : Ref} (hv : h.UnsharedRef v)
    (ha : ∀ k, h.Holds v k → h.AgreeAt h' k) : h'.UnsharedRef v :=
  fun n hn => (hv n hn).congr fun k hk => ha k (holds_iff.mpr ⟨n, hn, hk⟩)

theorem UnsharedRef.of_extends {h h' : Heap} {v : Ref} (hv : h.UnsharedRef v) (hl : h.LiveRef v)
    (he : h.Extends h') : h'.UnsharedRef v :=
  hv.congr fun k hk => he.agreeAt (hl k hk).1

/-- A path from a binding that does not go on to the next one starts at its name or its value. -/
theorem Leads.of_binding {h : Heap} {b : BindingId} {f : Field} {path : List Field} {k : Node}
    (hk : h.Leads (.binding b) (f :: path) k) (hf : f ≠ .next) :
    ∃ v l, (f = .name ∧ v = (h.binding b).name ∨ f = .value ∧ v = (h.binding b).value) ∧
      l ∈ Node.ofRef v ∧ h.Leads l path k := by
  obtain ⟨l, hl, hpath⟩ := hk
  simp only [fields, Binding.fields, List.mem_append, List.mem_map] at hl
  rcases hl with ⟨x, hx, heq⟩ | ⟨x, hx, heq⟩ | ⟨x, hx, heq⟩
  · cases heq
    exact ⟨_, l, Or.inl ⟨rfl, rfl⟩, hx, hpath⟩
  · cases heq
    exact ⟨_, l, Or.inr ⟨rfl, rfl⟩, hx, hpath⟩
  · cases heq
    exact absurd rfl hf

end Heap

namespace Machine

/-- Whether the lasting bindings have their names and values to themselves. -/
structure Owned (m : Machine) : Prop where
  names : ∀ b, m.Lasting b → m.heap.UnsharedRef (m.heap.binding b).name
  values : ∀ b, m.Lasting b → m.heap.UnsharedRef (m.heap.binding b).value
  names_apart : ∀ b, m.Lasting b → ∀ b', m.Lasting b' → b ≠ b' → ∀ k,
    m.heap.Holds (m.heap.binding b).name k → ¬m.heap.Holds (m.heap.binding b').name k

/--
What is owned stays so where no value changes: the bindings that last had lasted before, with
the same names, and a value that is new is a tree.
-/
theorem Owned.of_agree {m m' : Machine} (ho : m.Owned)
    (hname : ∀ b, m.Lasting b → ∀ k, m.heap.Holds (m.heap.binding b).name k →
      m.heap.AgreeAt m'.heap k)
    (hvalue : ∀ b, m.Lasting b → ∀ k, m.heap.Holds (m.heap.binding b).value k →
      m.heap.AgreeAt m'.heap k)
    (hold : ∀ b, m'.Lasting b → m.Lasting b ∧
      (m'.heap.binding b).name = (m.heap.binding b).name ∧
      ((m'.heap.binding b).value = (m.heap.binding b).value ∨
        m'.heap.UnsharedRef (m'.heap.binding b).value)) : m'.Owned := by
  refine ⟨fun b hb => ?_, fun b hb => ?_, fun b hb b' hb' hne k hk hk' => ?_⟩
  · obtain ⟨hl, heq, -⟩ := hold b hb
    rw [heq]
    exact (ho.names b hl).congr (hname b hl)
  · obtain ⟨hl, -, heq | hnew⟩ := hold b hb
    · rw [heq]
      exact (ho.values b hl).congr (hvalue b hl)
    · exact hnew
  · obtain ⟨hl, heq, -⟩ := hold b hb
    obtain ⟨hl', heq', -⟩ := hold b' hb'
    rw [heq, Heap.holds_congr (hname b hl)] at hk
    rw [heq', Heap.holds_congr (hname b' hl')] at hk'
    exact ho.names_apart b hl b' hl' hne k hk hk'

/-- What is owned stays so while the heap grows and nothing new lasts. -/
theorem Owned.of_extends {m m' : Machine} (ho : m.Owned) (hs : m.Sound)
    (he : m.heap.Extends m'.heap) (hold : ∀ b, m'.Lasting b → m.Lasting b) : m'.Owned := by
  refine ho.of_agree (fun b hb k hk => he.agreeAt (hs.names b hb.1 k hk).1)
    (fun b hb k hk => he.agreeAt (hs.values b hb.1 k hk).1) fun b hb => ?_
  rw [he.binding b (hs.env_has (hold b hb).1)]
  exact ⟨hold b hb, rfl, Or.inl rfl⟩

theorem Owned.build {m : Machine} (ho : m.Owned) (hs : m.Sound) {h : Heap} (he : m.heap.Extends h)
    {arena : Arena} {log : Array LogRecord} (hmono : ∀ n, m.Tracked n → n ∈ arena.tracked) :
    Owned ⟨h, arena, m.scope, log⟩ := by
  refine ho.of_extends hs he fun b hb => ?_
  have hmem := hb.1
  rw [show env ⟨h, arena, m.scope, log⟩ = m.env from hs.env_of_extends he] at hmem
  exact ⟨hmem, fun ht => hb.2 (hmono _ ht)⟩

theorem Owned.overwrite {m : Machine} (ho : m.Owned) (hs : m.Sound) {b : BindingId} {v : Ref}
    (hb : b ∈ m.env) (hv : m.heap.UnsharedRef v) {arena : Arena}
    (hmono : ∀ n, m.Tracked n → n ∈ arena.tracked) :
    Owned ⟨m.heap.overwritten b v, arena, m.scope, m.log⟩ := by
  refine ho.of_agree (fun b' _ k hk => hs.overwritten_agreeAt hb hk)
    (fun b' _ k hk => hs.overwritten_agreeAt hb hk) fun b' hl => ?_
  have hmem := hl.1
  rw [show env ⟨m.heap.overwritten b v, arena, m.scope, m.log⟩ = m.env from
    hs.overwritten_linked.chain_eq] at hmem
  refine ⟨⟨hmem, fun ht => hl.2 (hmono _ ht)⟩, (Heap.overwritten_fixed (hs.env_has hmem)).1, ?_⟩
  by_cases hne : b = b'
  · subst hne
    right
    rw [Heap.overwritten_self (hs.env_has hb)]
    exact hv.congr fun _ hk => hs.overwritten_agreeAt hb hk
  · left
    rw [Heap.overwritten_ne hne]

/-- A binding put in front owns its name and its value, when both were made for it as trees. -/
theorem Owned.define {m : Machine} (ho : m.Owned) (hs : m.Sound) {h : Heap} {name value : Ref}
    {ns : List Node} (hc : m.heap.CopiesTrees h ns) (hname : ∀ n ∈ Node.ofRef name, n ∈ ns)
    (hvalue : ∀ n ∈ Node.ofRef value, n ∈ ns) :
    Owned ⟨(h.put name value m.scope).2, m.arena, (h.put name value m.scope).1, m.log⟩ := by
  have hput := Heap.extends_put h name value m.scope
  have he := hc.grown.trans hput
  have hnew := Heap.binding_put h name value m.scope
  have hlinked : (h.put name value m.scope).2.Linked (h.put name value m.scope).1
      (⟨h.bindings.size⟩ :: m.env) :=
    Heap.linked_put name value (hc.grown.linked hs.linked)
  have hcases : ∀ b, Lasting ⟨(h.put name value m.scope).2, m.arena,
      (h.put name value m.scope).1, m.log⟩ b → b = ⟨h.bindings.size⟩ ∨ m.Lasting b := by
    rintro b ⟨hmem, hnot⟩
    rw [show env ⟨(h.put name value m.scope).2, m.arena, (h.put name value m.scope).1, m.log⟩ =
      ⟨h.bindings.size⟩ :: m.env from hlinked.chain_eq] at hmem
    exact (List.mem_cons.mp hmem).imp_right fun hb => ⟨hb, hnot⟩
  have hold : ∀ b, m.Lasting b → (h.put name value m.scope).2.binding b = m.heap.binding b :=
    fun b hb => he.binding b (hs.env_has hb.1)
  have hkept : ∀ n ∈ ns, ∀ k, h.Reaches n k → h.AgreeAt (h.put name value m.scope).2 k :=
    fun n hn k hk => hc.agreeAt hput hn hk
  have htree : ∀ n ∈ ns, (h.put name value m.scope).2.Unshared n :=
    fun n hn => (hc.forest.trees n hn).congr (hkept n hn)
  -- the new name is made of nodes that no name of before can hold
  have hfresh : ∀ b, m.Lasting b → ∀ k, (h.put name value m.scope).2.Holds name k →
      ¬(h.put name value m.scope).2.Holds (m.heap.binding b).name k := by
    intro b hb k hk hk'
    obtain ⟨p, hp, hr⟩ := Heap.holds_iff.mp hk
    have hr' := (Heap.reaches_congr (hkept p (hname p hp))).mp hr
    refine (hc.made p (hname p hp) k hr').2 (hs.names b hb.1 k ?_).1
    exact (he.holds_iff fun k hk => (hs.names b hb.1 k hk).1).mp hk'
  refine ⟨fun b hb => ?_, fun b hb => ?_, fun b hb b' hb' hne k => ?_⟩
  · rcases hcases b hb with rfl | hl
    · simp only [hnew]
      exact fun n hn => htree n (hname n hn)
    · simp only [hold b hl]
      exact (ho.names b hl).of_extends (hs.names b hl.1) he
  · rcases hcases b hb with rfl | hl
    · simp only [hnew]
      exact fun n hn => htree n (hvalue n hn)
    · simp only [hold b hl]
      exact (ho.values b hl).of_extends (hs.values b hl.1) he
  · rcases hcases b hb with rfl | hl <;> rcases hcases b' hb' with rfl | hl'
    · exact absurd rfl hne
    · simp only [hnew, hold b' hl']
      exact hfresh b' hl' k
    · simp only [hnew, hold b hl]
      exact fun hk hk' => hfresh b hl k hk' hk
    · simp only [hold b hl, hold b' hl']
      rw [he.holds_iff fun k hk => (hs.names b hl.1 k hk).1,
        he.holds_iff fun k hk => (hs.names b' hl'.1 k hk).1]
      exact ho.names_apart b hl b' hl' hne k

/-- `set` binds a name to a tree that nothing else refers to. -/
theorem Owned.assign {m m' : Machine} (ho : m.Owned) (hs : m.Sound) {name : String} {v w : Ref}
    (hv : m.heap.LiveRef v) (hw : ArenaLisp.assign name v m = .ok w m') : m'.Owned := by
  have hcopy := Heap.copy_trees m.heap v
  rw [assign_eq] at hw
  cases hfind : (m.heap.copy v).2.findBinding? m.scope name with
  | some b =>
      rw [hfind] at hw
      cases hw
      have ho₁ : Owned ⟨(m.heap.copy v).2, m.arena, m.scope, m.log⟩ :=
        ho.build hs hcopy.grown fun _ hn => hn
      exact ho₁.overwrite (hs.copied hv rfl).1 (Heap.mem_of_findBinding? hfind) hcopy.forest.trees
        fun n hn => Arena.mem_trackNodes.mpr (Or.inl hn)
  | none =>
      rw [hfind] at hw
      cases hw
      have hatom : (m.heap.copy v).2.CopiesTrees ((m.heap.copy v).2.new (.atom name)).2
          (Node.ofRef ((m.heap.copy v).2.new (.atom name)).1) :=
        Heap.CopiesTrees.new (d := .atom name) (.refl _)
      exact ho.define hs (hcopy.append hatom) (fun _ hn => List.mem_append_right _ hn)
        fun _ hn => List.mem_append_left _ hn

/-- What is owned is not registered, so releasing does not touch it. -/
theorem Owned.releaseAll {m : Machine} (ho : m.Owned) (hr : m.Rooted) : m.releaseAll.2.Owned := by
  refine ho.of_agree (fun b hb k hk => hr.releaseAll_agreeAt hb.1 (Or.inl rfl) hk)
    (fun b hb k hk => hr.releaseAll_agreeAt hb.1 (Or.inr rfl) hk) fun b hb => ?_
  have hmem := hb.1
  rw [hr.releaseAll_env] at hmem
  rw [hr.releaseAll_binding hmem]
  exact ⟨⟨hmem, hr.lasting b hmem⟩, rfl, Or.inl rfl⟩

theorem owned_persistent : Persistent Owned where
  invariant :=
    { change := by
        intro m m' hs hc ho
        cases hc with
        | build hb _ _ hmono _ => exact ho.build hs hb.grown hmono
        | bind hv hname hw => exact ho.assign hs hv hw
      enter := by
        -- the bindings of a call are registered, so those that last are the caller's
        intro m m' values front hs hcalls hent _ hfront ho
        refine ho.of_extends hs hent.grown fun b hb => ?_
        have hmem := hb.1
        rw [show m'.env = front ++ m.env from hent.linked.chain_eq] at hmem
        rcases List.mem_append.mp hmem with hmem | hmem
        · exact absurd (hfront b hmem).1 hb.2
        · exact ⟨hmem, fun ht => hb.2 (hcalls.tracked _ ht)⟩
      leave := by
        intro m c front env hs henv hlinked ho
        exact ho.of_extends hs (Heap.Extends.refl _) fun b hb =>
          ⟨mem_env_of_suffix henv hlinked hb.1, hb.2⟩ }
  release hr ho := ho.releaseAll hr

/-! ## New interpreters -/

theorem owned_empty : Machine.empty.Owned :=
  ⟨fun _ hb => absurd hb.1 List.not_mem_nil, fun _ hb => absurd hb.1 List.not_mem_nil,
    fun _ hb => absurd hb.1 List.not_mem_nil⟩

end Machine

namespace Interpreter

open Machine

theorem bindPrimitives_owned (ps : List (String × Builtin)) {i : Interpreter}
    (hr : i.machine.Rooted) (ho : i.machine.Owned) : (bindPrimitives ps i).2.machine.Owned := by
  refine (bindPrimitives_keeps (I := (·.machine.Owned)) (fun j hr ho name builtin => ?_) ps hr ho).2
  have hname := Heap.CopiesTrees.new (d := .atom name) (.refl j.machine.heap)
  have hvalue := Heap.CopiesTrees.new (d := .primitive ⟨j.serial, name, builtin⟩)
    (.refl (j.machine.heap.new (.atom name)).2)
  exact ho.define hr.sound (hname.append hvalue) (fun _ hn => List.mem_append_left _ hn)
    fun _ hn => List.mem_append_right _ hn

theorem new_owned {extra : List (String × Builtin)} {print reads : Bool} {i : Interpreter}
    (hi : new extra print reads = .ok i) : i.machine.Owned := by
  obtain ⟨bare, hmachine, -, -, -, hbinds⟩ := new_binds hi
  have hbound := bindPrimitives_owned bare.builtins (i := bare) (hmachine ▸ rooted_empty)
    (hmachine ▸ owned_empty)
  rwa [hbinds] at hbound

end Interpreter

/-! ## Between the steps -/

/--
Whether bindings have what they refer to for themselves: no node is reached from two of them,
nor from one along two paths, the way on to the next binding aside.
-/
def Heap.Owns (h : Heap) (bs : List BindingId) : Prop :=
  ∀ b ∈ bs, ∀ b' ∈ bs, ∀ p p' k, p.head? ≠ some .next → p'.head? ≠ some .next →
    h.Leads (.binding b) p k → h.Leads (.binding b') p' k → b = b' ∧ p = p'

namespace Machine

/-- What the names and values of two lasting bindings have in common is the same name or value. -/
theorem Owned.common {m : Machine} (ho : m.Owned) (hs : m.Sound) {b b' : BindingId}
    (hb : m.Lasting b) (hb' : m.Lasting b') {f f' : Field} {v v' : Ref} {k : Node}
    (hv : f = .name ∧ v = (m.heap.binding b).name ∨ f = .value ∧ v = (m.heap.binding b).value)
    (hv' : f' = .name ∧ v' = (m.heap.binding b').name ∨
      f' = .value ∧ v' = (m.heap.binding b').value)
    (hk : m.heap.Holds v k) (hk' : m.heap.Holds v' k) :
    b = b' ∧ f = f' ∧ v = v' ∧ m.heap.UnsharedRef v := by
  by_cases hne : b = b'
  · subst hne
    rcases hv with ⟨rfl, rfl⟩ | ⟨rfl, rfl⟩ <;> rcases hv' with ⟨rfl, rfl⟩ | ⟨rfl, rfl⟩
    · exact ⟨rfl, rfl, rfl, ho.names b hb⟩
    · exact absurd hk' (hs.names_apart b hb b hb.1 k hk)
    · exact absurd hk (hs.names_apart b hb b hb.1 k hk')
    · exact ⟨rfl, rfl, rfl, ho.values b hb⟩
  · rcases hv with ⟨rfl, rfl⟩ | ⟨rfl, rfl⟩ <;> rcases hv' with ⟨rfl, rfl⟩ | ⟨rfl, rfl⟩
    · exact absurd hk' (ho.names_apart b hb b' hb' hne k hk)
    · exact absurd hk' (hs.names_apart b hb b' hb'.1 k hk)
    · exact absurd hk (hs.names_apart b' hb' b hb.1 k hk')
    · exact absurd hk' (hs.values_apart b hb b' hb'.1 hne k hk)

theorem Owned.owns {m : Machine} (ho : m.Owned) (hr : m.Rooted) : m.heap.Owns m.env := by
  intro b hb b' hb' p p' k hnext hnext' hp hp'
  have hlasting : ∀ b ∈ m.env, m.Lasting b := fun b hb => ⟨hb, hr.lasting b hb⟩
  -- no value reaches a binding of the environment, so a path that takes a field does not end there
  have hsealed : ∀ {b b' : BindingId} {f path}, b' ∈ m.env → f ≠ .next →
      ¬m.heap.Leads (.binding b) (f :: path) (.binding b') := by
    intro b b' f path hb' hf hlead
    obtain ⟨v, l, -, hl, hrest⟩ := hlead.of_binding hf
    obtain ⟨a, -, rfl⟩ := Node.mem_ofRef.mp hl
    exact hr.sound.sealed a b' hb' hrest.reaches
  cases p with
  | nil =>
      obtain rfl : Node.binding b = k := hp
      cases p' with
      | nil =>
          cases (show Node.binding b' = .binding b from hp')
          exact ⟨rfl, rfl⟩
      | cons f' p' => exact absurd hp' (hsealed hb fun hf => hnext' (by rw [hf]; rfl))
  | cons f p =>
      cases p' with
      | nil =>
          obtain rfl : Node.binding b' = k := hp'
          exact absurd hp (hsealed hb' fun hf => hnext (by rw [hf]; rfl))
      | cons f' p' =>
          obtain ⟨v, l, hv, hl, hlead⟩ := hp.of_binding fun hf => hnext (by rw [hf]; rfl)
          obtain ⟨v', l', hv', hl', hlead'⟩ := hp'.of_binding fun hf => hnext' (by rw [hf]; rfl)
          -- two values that share a node are the same value, so the paths only part below it.
          obtain ⟨rfl, rfl, rfl, htree⟩ := ho.common hr.sound (hlasting b hb) (hlasting b' hb')
            hv hv' (Heap.holds_iff.mpr ⟨l, hl, hlead.reaches⟩)
            (Heap.holds_iff.mpr ⟨l', hl', hlead'.reaches⟩)
          obtain ⟨a, rfl, rfl⟩ := Node.mem_ofRef.mp hl
          obtain ⟨_, ha, rfl⟩ := Node.mem_ofRef.mp hl'
          cases ha
          rw [htree _ hl p p' k hlead hlead']
          exact ⟨rfl, rfl⟩

/-- Nothing that the environment of a rooted machine reaches is registered. -/
theorem Rooted.not_tracked {m : Machine} (hr : m.Rooted) {n k : Node}
    (hn : n ∈ Node.ofChain m.scope) (hk : m.heap.Reaches n k) : ¬m.Tracked k := by
  obtain ⟨b, hb, rfl | hname | hvalue⟩ := hr.sound.linked.reaches_cases hn hk
  · exact hr.lasting b hb
  · exact hr.sound.names_free b ⟨hb, hr.lasting b hb⟩ k hname
  · exact hr.sound.values_free b ⟨hb, hr.lasting b hb⟩ k hvalue

end Machine

namespace Interpreter

open Machine

/--
**Ownership.** After any steps, the bindings of the root environment have what they refer to for
themselves, each as a tree, and nothing that the root environment reaches is registered.
-/
theorem run_root_owns {extra : List (String × Builtin)} {print reads : Bool} {i : Interpreter}
    (hi : new extra print reads = .ok i) (steps : List Step) :
    (∃ env, (i.run steps).heap.Linked (i.run steps).root env ∧ (i.run steps).heap.Owns env) ∧
    ∀ n ∈ Node.ofChain (i.run steps).root, ∀ k, (i.run steps).heap.Reaches n k →
      k ∉ (i.run steps).arena.tracked := by
  have hnew := (new_rooted hi).1
  have hr := (run_advances steps hnew).rooted
  have ho := run_persistent owned_persistent steps hnew (new_owned hi)
  exact ⟨⟨_, hr.sound.linked, ho.owns hr⟩, fun n hn k hk => hr.not_tracked hn hk⟩

/-- One list is bound to two names, and is captured by a function that is bound to a third. -/
theorem run_root_owns_aliases : ∃ i e₁ e₂ e₃,
    new [("list-args", .arguments)] true true = .ok i ∧
    e₁.tree = .ofList [.atom "set", .quote (.atom "x"), .quote (.ofList [.number (.int 1)])] ∧
    e₂.tree = .ofList [.atom "set", .quote (.atom "y"), .ofList [.atom "cons", .atom "x",
      .atom "x"]] ∧
    e₃.tree = .ofList [.atom "set", .quote (.atom "f"), .ofList [.atom "lambda",
      .ofList [.atom "z"], .ofList [.atom "cons", .atom "y", .atom "z"]]] ∧
    (∃ env, (i.run [.exec 9 e₁, .eval 9 e₂, .exec 9 e₃]).heap.Linked
        (i.run [.exec 9 e₁, .eval 9 e₂, .exec 9 e₃]).root env ∧
      (i.run [.exec 9 e₁, .eval 9 e₂, .exec 9 e₃]).heap.Owns env) ∧
    ∀ n ∈ Node.ofChain (i.run [.exec 9 e₁, .eval 9 e₂, .exec 9 e₃]).root,
      ∀ k, (i.run [.exec 9 e₁, .eval 9 e₂, .exec 9 e₃]).heap.Reaches n k →
        k ∉ (i.run [.exec 9 e₁, .eval 9 e₂, .exec 9 e₃]).arena.tracked := by
  obtain ⟨i, hi⟩ := new_arguments
  have h₁ : readOne "(set 'x '(1))".toUTF8.toList = .ok (.ofList [.atom "set",
      .quote (.atom "x"), .quote (.ofList [.number (.int 1)])]) := by decide +kernel
  have h₂ : readOne "(set 'y (cons x x))".toUTF8.toList = .ok (.ofList [.atom "set",
      .quote (.atom "y"), .ofList [.atom "cons", .atom "x", .atom "x"]]) := by decide +kernel
  have h₃ : readOne "(set 'f (lambda (z) (cons y z)))".toUTF8.toList = .ok (.ofList [.atom "set",
      .quote (.atom "f"), .ofList [.atom "lambda", .ofList [.atom "z"],
        .ofList [.atom "cons", .atom "y", .atom "z"]]]) := by decide +kernel
  obtain ⟨howns, hfree⟩ := run_root_owns hi [.exec 9 (.ofText _ h₁), .eval 9 (.ofText _ h₂),
    .exec 9 (.ofText _ h₃)]
  exact ⟨i, .ofText _ h₁, .ofText _ h₂, .ofText _ h₃, hi, rfl, rfl, rfl, howns, hfree⟩

end Interpreter

end ArenaLisp
