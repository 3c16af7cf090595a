import ArenaLisp.Proofs.Paths
import ArenaLisp.Proofs.Walks

/-!
# Deep copies

A copy *resembles* what it was made from: along the same paths of fields it comes to the same
contents. What is compared is everything that a node has besides its references, so the kind of a
value, its name or number, the primitive it names and whether it is released. Which nodes the two
are made of is not compared, and a copy is made of new ones only, each reached along one path.

Resemblance is compared field by field, so it can be followed down the recursion of copying. It is
all that a walk sees. Values that resemble each other unfold to the same tree, except that nothing
is said about which bindings are released, and no text shows that.
-/

namespace ArenaLisp

/-- A cell without its references. -/
def Cell.bare : Cell → Cell
  | .live (.pair _ _) => .live (.pair none none)
  | .live (.closure _) => .live (.closure ⟨none, none, none⟩)
  | c => c

mutual

/-- A tree with no binding marked as released. -/
def Tree.unmarked : Tree → Tree
  | .pair car cdr => .pair car.unmarked cdr.unmarked
  | .closure params body captured => .closure params.unmarked body.unmarked captured.unmarked
  | t => t

/-- A chain with no binding marked as released. -/
def Scope.unmarked : Scope → Scope
  | .empty => .empty
  | .binding _ name value rest => .binding false name.unmarked value.unmarked rest.unmarked

end

/-- Two cells that differ in their references at most. -/
theorem Cell.bare_cases {c c' : Cell} (hc : c'.bare = c.bare) :
    (∃ car cdr car' cdr', c = .live (.pair car cdr) ∧ c' = .live (.pair car' cdr')) ∨
    (∃ f f', c = .live (.closure f) ∧ c' = .live (.closure f')) ∨
    c' = c ∧ (∀ car cdr, c ≠ .live (.pair car cdr)) ∧ ∀ f, c ≠ .live (.closure f) := by
  cases c with
  | released husk =>
      cases c' with
      | released husk' => exact Or.inr (Or.inr ⟨hc, nofun, nofun⟩)
      | live d' => cases d' <;> cases hc
  | live d =>
      cases c' with
      | released husk' => cases d <;> cases hc
      | live d' => cases d <;> cases d' <;> simp_all [Cell.bare]

theorem Tree.unmarked_eq_absent {t : Tree} : t.unmarked = .absent ↔ t = .absent := by
  cases t <;> simp [Tree.unmarked]

/-- The marks of bindings are not shown. -/
theorem Tree.render_unmarked (t : Tree) :
    t.unmarked.render = t.render ∧ t.unmarked.renderTail = t.renderTail := by
  induction t using Tree.rec (motive_2 := fun _ => True) with
  | pair car cdr ihcar ihcdr =>
      rw [Tree.unmarked]
      by_cases hnil : car = .absent ∧ cdr = .absent
      · obtain ⟨rfl, rfl⟩ := hnil
        exact ⟨rfl, rfl⟩
      · have hnil' : ¬(car.unmarked = .absent ∧ cdr.unmarked = .absent) := by
          rwa [unmarked_eq_absent, unmarked_eq_absent]
        rw [render_pair hnil, render_pair hnil', renderTail_pair hnil, renderTail_pair hnil',
          ihcar.1, ihcdr.2]
        exact ⟨rfl, rfl⟩
  | closure params body captured ihparams ihbody _ =>
      constructor
      · show "(lambda " ++ params.unmarked.render ++ " " ++ body.unmarked.render ++ ")" = _
        rw [ihparams.1, ihbody.1]
        rfl
      · show " . (lambda " ++ params.unmarked.render ++ " " ++ body.unmarked.render ++ "))" = _
        rw [ihparams.1, ihbody.1]
        rfl
  | empty => trivial
  | binding _ _ _ _ _ _ _ => trivial
  | _ => exact ⟨rfl, rfl⟩

theorem Scope.entries_unmarked : ∀ s : Scope, s.unmarked.entries = s.entries
  | .empty => rfl
  | .binding _ name value rest => by
      rw [Scope.unmarked, Scope.entries, Scope.entries, name.render_unmarked.1,
        value.render_unmarked.1, rest.entries_unmarked]

/-- What is in one of two lists related member by member is related to some member of the other. -/
theorem exists_of_forall₂ {α β : Type} {R : α → β → Prop} {l : List α} {l' : List β}
    (hl : List.Forall₂ R l l') {a : α} (ha : a ∈ l) : ∃ b ∈ l', R a b := by
  induction hl with
  | nil => cases ha
  | cons hr _ ih =>
      rcases List.mem_cons.mp ha with rfl | ha
      · exact ⟨_, List.mem_cons_self, hr⟩
      · obtain ⟨b, hb, hab⟩ := ih ha
        exact ⟨b, List.mem_cons_of_mem _ hb, hab⟩

namespace Heap

/-! ## Resemblance -/

/-- What a node has besides its references. -/
def content (h : Heap) : Node → Option Cell
  | .value a => some (h.cell a).bare
  | .binding _ => none

/-- Whether the same paths lead from two nodes, and to the same contents. -/
structure Resembles (h h' : Heap) (n n' : Node) : Prop where
  forth : ∀ path k, h.Leads n path k → ∃ k', h'.Leads n' path k' ∧ h'.content k' = h.content k
  back : ∀ path k', h'.Leads n' path k' → ∃ k, h.Leads n path k ∧ h'.content k' = h.content k

variable {h h' : Heap}

theorem AgreeAt.content_eq {n : Node} (hn : h.AgreeAt h' n) : h'.content n = h.content n := by
  cases n with
  | value a => exact congrArg (fun c : Cell => some c.bare) hn
  | binding b => rfl

/-- Resemblance depends on what the two nodes reach and on nothing else. -/
theorem Resembles.congr {h₀ h'' : Heap} {n n' : Node} (hn : h.Resembles h' n n')
    (ha : ∀ k, h₀.Reaches n k → h₀.AgreeAt h k) (ha' : ∀ k, h'.Reaches n' k → h'.AgreeAt h'' k) :
    h₀.Resembles h'' n n' where
  forth path k hk := by
    obtain ⟨k', hk', heq⟩ := hn.forth path k ((leads_congr ha).mpr hk)
    refine ⟨k', (leads_congr ha').mpr hk', ?_⟩
    rw [(ha' k' hk'.reaches).content_eq, heq, (ha k hk.reaches).content_eq]
  back path k' hk' := by
    have hold := (leads_congr ha').mp hk'
    obtain ⟨k, hk, heq⟩ := hn.back path k' hold
    have hk₀ := (leads_congr ha).mp hk
    refine ⟨k, hk₀, ?_⟩
    rw [(ha' k' hold.reaches).content_eq, heq, (ha k hk₀.reaches).content_eq]

/-- Whether two fields are the same one, with nodes that resemble each other. -/
def SameField (h h' : Heap) (e e' : Field × Node) : Prop := e'.1 = e.1 ∧ h.Resembles h' e.2 e'.2

/-- Two nodes resemble each other when their contents are the same and their fields do. -/
theorem Resembles.of_fields {n n' : Node} (hcontent : h'.content n' = h.content n)
    (hfields : List.Forall₂ (h.SameField h') (h.fields n) (h'.fields n')) :
    h.Resembles h' n n' where
  forth path k hk := by
    cases path with
    | nil =>
        obtain rfl : n = k := hk
        exact ⟨n', rfl, hcontent⟩
    | cons f path =>
        obtain ⟨l, hl, hlead⟩ := hk
        obtain ⟨⟨f', l'⟩, hl', hsame⟩ := exists_of_forall₂ hfields hl
        obtain ⟨rfl, hres⟩ := hsame
        obtain ⟨k', hk', heq⟩ := hres.forth path k hlead
        exact ⟨k', ⟨l', hl', hk'⟩, heq⟩
  back path k' hk' := by
    cases path with
    | nil =>
        obtain rfl : n' = k' := hk'
        exact ⟨n, rfl, hcontent⟩
    | cons f path =>
        obtain ⟨l', hl', hlead⟩ := hk'
        obtain ⟨⟨f', l⟩, hl, hsame⟩ := exists_of_forall₂ (R := flip (h.SameField h'))
          hfields.flip hl'
        obtain ⟨rfl, hres⟩ := hsame
        obtain ⟨k, hk, heq⟩ := hres.back path k' hlead
        exact ⟨k, ⟨l, hl, hk⟩, heq⟩

/-- Whether two lists of nodes resemble each other, one by one. -/
abbrev Alike (h h' : Heap) (ns ns' : List Node) : Prop := List.Forall₂ (h.Resembles h') ns ns'

theorem Alike.sameField {ns ns' : List Node} (hns : h.Alike h' ns ns') (f : Field) :
    List.Forall₂ (h.SameField h') (ns.map (f, ·)) (ns'.map (f, ·)) := by
  rw [List.forall₂_map_left_iff, List.forall₂_map_right_iff]
  exact hns.imp fun _ _ hn => ⟨rfl, hn⟩

theorem Alike.congr {h₀ h'' : Heap} {ns ns' : List Node} (hns : h.Alike h' ns ns')
    (ha : ∀ n ∈ ns, ∀ k, h₀.Reaches n k → h₀.AgreeAt h k)
    (ha' : ∀ n ∈ ns', ∀ k, h'.Reaches n k → h'.AgreeAt h'' k) : h₀.Alike h'' ns ns' := by
  induction hns with
  | nil => exact .nil
  | cons hn _ ih =>
      refine .cons (hn.congr (ha _ List.mem_cons_self) (ha' _ List.mem_cons_self)) (ih ?_ ?_)
      · exact fun n hn => ha n (List.mem_cons_of_mem _ hn)
      · exact fun n hn => ha' n (List.mem_cons_of_mem _ hn)

theorem alike_pair {a a' : Addr} {car cdr car' cdr' : Ref}
    (hcell : h.cell a = .live (.pair car cdr)) (hcell' : h'.cell a' = .live (.pair car' cdr'))
    (hcar : h.Alike h' (Node.ofRef car) (Node.ofRef car'))
    (hcdr : h.Alike h' (Node.ofRef cdr) (Node.ofRef cdr')) :
    h.Resembles h' (.value a) (.value a') := by
  refine .of_fields (by simp [content, hcell, hcell', Cell.bare]) ?_
  simp only [Heap.fields, hcell, hcell', Datum.fields]
  exact List.rel_append (hcar.sameField .car) (hcdr.sameField .cdr)

theorem alike_closure {a a' : Addr} {c c' : Closure}
    (hcell : h.cell a = .live (.closure c)) (hcell' : h'.cell a' = .live (.closure c'))
    (hparams : h.Alike h' (Node.ofRef c.params) (Node.ofRef c'.params))
    (hbody : h.Alike h' (Node.ofRef c.body) (Node.ofRef c'.body))
    (hcaptured : h.Alike h' (Node.ofChain c.captured) (Node.ofChain c'.captured)) :
    h.Resembles h' (.value a) (.value a') := by
  refine .of_fields (by simp [content, hcell, hcell', Cell.bare]) ?_
  simp only [Heap.fields, hcell, hcell', Datum.fields]
  exact List.rel_append (hparams.sameField .params)
    (List.rel_append (hbody.sameField .body) (hcaptured.sameField .captured))

theorem alike_binding {b b' : BindingId}
    (hname : h.Alike h' (Node.ofRef (h.binding b).name) (Node.ofRef (h'.binding b').name))
    (hvalue : h.Alike h' (Node.ofRef (h.binding b).value) (Node.ofRef (h'.binding b').value))
    (hnext : h.Alike h' (Node.ofChain (h.binding b).next) (Node.ofChain (h'.binding b').next)) :
    h.Resembles h' (.binding b) (.binding b') := by
  refine .of_fields rfl ?_
  exact List.rel_append (hname.sameField .name)
    (List.rel_append (hvalue.sameField .value) (hnext.sameField .next))

/-- A cell that refers to nothing resembles any cell that is the same. -/
theorem alike_simple {a a' : Addr} (hcell : h'.cell a' = h.cell a)
    (hfields : h.fields (.value a) = []) : h.Resembles h' (.value a) (.value a') := by
  refine .of_fields (by simp [content, hcell]) ?_
  have hfields' : h'.fields (.value a') = [] := by
    rw [← hfields, Heap.fields, Heap.fields, hcell]
  rw [hfields, hfields']
  exact .nil

/-! ## Copies resemble what they are made from -/

/-- What is confined to the heap agrees with any heap grown from it. -/
theorem Confined.agreeAt {d : Nat} {ns : List Node} (hns : h.Confined d ns) (he : h.Extends h')
    {n k : Node} (hn : n ∈ ns) (hk : h.Reaches n k) : h.AgreeAt h' k := by
  refine he.agreeAt ?_
  induction d generalizing ns n with
  | zero => exact (hns n hn).elim
  | succ d ih =>
      rcases reaches_iff.mp hk with rfl | ⟨p, hp, hpk⟩
      · exact hns.has hn
      · exact ih (hns.parts hn) hp hpk

/--
Whether some nodes are copies of others: trees of new nodes, apart from each other, that resemble
what they were made from, in a heap where nothing else has changed.
-/
structure Duplicates (h : Heap) (ns : List Node) (h' : Heap) (ns' : List Node) : Prop where
  trees : h.CopiesTrees h' ns'
  alike : h.Alike h' ns ns'

/-- Copies stay copies when the heap grows. -/
theorem Duplicates.keep {h'' : Heap} {ns ns' : List Node} (hd : h.Duplicates ns h' ns')
    (he : h'.Extends h'') : h.Duplicates ns h'' ns' :=
  ⟨hd.trees.keep he, hd.alike.congr (fun _ _ k _ => AgreeAt.refl h k)
    fun _ hn _ hk => hd.trees.agreeAt he hn hk⟩

/-- Copies of what was there before are copies of what it was then. -/
theorem Duplicates.since {h₀ : Heap} {ns ns' : List Node} (hd : h.Duplicates ns h' ns')
    (he : h₀.Extends h) {d : Nat} (hns : h₀.Confined d ns) : h₀.Duplicates ns h' ns' :=
  ⟨hd.trees.since he, hd.alike.congr (fun _ hn _ hk => hns.agreeAt he hn hk)
    fun _ _ k _ => AgreeAt.refl h' k⟩

namespace Duplicates

variable {h₁ h₂ h₃ : Heap} {d : Nat}

/-- A new cell that is the same, where there is nothing to refer to. -/
theorem simple {a : Addr} (hfields : h.fields (.value a) = []) :
    h.Duplicates (Node.ofRef (some a)) (h.alloc (h.cell a)).2
      (Node.ofRef (some (h.alloc (h.cell a)).1)) where
  trees := by
    have hparts : (h.cell a).parts = [] := by
      rw [show (h.cell a).parts = h.parts (.value a) from rfl, parts_eq_fields, hfields]
      rfl
    refine CopiesTrees.alloc ?_
    rw [hparts]
    exact .refl h
  alike := .cons (alike_simple (cell_alloc h _) hfields) .nil

/-- A new pair of copies, the second made after the first. -/
theorem pair {a : Addr} {car cdr car' cdr' : Ref} (hcell : h.cell a = .live (.pair car cdr))
    (hcar : h.Duplicates (Node.ofRef car) h₁ (Node.ofRef car'))
    (hcdr : h₁.Duplicates (Node.ofRef cdr) h₂ (Node.ofRef cdr'))
    (hcdr₀ : h.Confined d (Node.ofRef cdr)) :
    h.Duplicates (Node.ofRef (some a)) (h₂.new (.pair car' cdr')).2
      (Node.ofRef (h₂.new (.pair car' cdr')).1) where
  trees := (hcar.trees.append hcdr.trees).new
  alike := by
    have hnew := extends_new h₂ (.pair car' cdr')
    refine .cons (alike_pair hcell (cell_new h₂ _) ?_ ?_) .nil
    · exact (hcar.keep (hcdr.trees.grown.trans hnew)).alike
    · exact ((hcdr.since hcar.trees.grown hcdr₀).keep hnew).alike

/-- A new closure of copies, made one after the other. -/
theorem closure {a : Addr} {c c' : Closure} (hcell : h.cell a = .live (.closure c))
    (hparams : h.Duplicates (Node.ofRef c.params) h₁ (Node.ofRef c'.params))
    (hbody : h₁.Duplicates (Node.ofRef c.body) h₂ (Node.ofRef c'.body))
    (hbody₀ : h.Confined d (Node.ofRef c.body))
    (hcaptured : h₂.Duplicates (Node.ofChain c.captured) h₃ (Node.ofChain c'.captured))
    (hcaptured₀ : h.Confined d (Node.ofChain c.captured)) :
    h.Duplicates (Node.ofRef (some a)) (h₃.new (.closure c')).2
      (Node.ofRef (h₃.new (.closure c')).1) where
  trees := (hparams.trees.append (hbody.trees.append hcaptured.trees)).new
  alike := by
    have hnew := extends_new h₃ (.closure c')
    have hrest := hcaptured.trees.grown.trans hnew
    have he := hparams.trees.grown
    refine .cons (alike_closure hcell (cell_new h₃ _) ?_ ?_ ?_) .nil
    · exact (hparams.keep (hbody.trees.grown.trans hrest)).alike
    · exact ((hbody.since he hbody₀).keep hrest).alike
    · exact ((hcaptured.since (he.trans hbody.trees.grown) hcaptured₀).keep hnew).alike

/-- A new binding of copies, made one after the other. -/
theorem binding {b : BindingId} {name value : Ref} {next : Chain}
    (hname : h.Duplicates (Node.ofRef (h.binding b).name) h₁ (Node.ofRef name))
    (hvalue : h₁.Duplicates (Node.ofRef (h.binding b).value) h₂ (Node.ofRef value))
    (hvalue₀ : h.Confined d (Node.ofRef (h.binding b).value))
    (hnext : h₂.Duplicates (Node.ofChain (h.binding b).next) h₃ (Node.ofChain next))
    (hnext₀ : h.Confined d (Node.ofChain (h.binding b).next)) :
    h.Duplicates (Node.ofChain (some b)) (h₃.put name value next).2
      (Node.ofChain (h₃.put name value next).1) where
  trees := (hname.trees.append (hvalue.trees.append hnext.trees)).put name value next
  alike := by
    have hput := extends_put h₃ name value next
    have hrest := hnext.trees.grown.trans hput
    have he := hname.trees.grown
    refine .cons (alike_binding ?_ ?_ ?_) .nil
    all_goals rw [binding_put]
    · exact (hname.keep (hvalue.trees.grown.trans hrest)).alike
    · exact ((hvalue.since he hvalue₀).keep hrest).alike
    · exact ((hnext.since (he.trans hvalue.trees.grown) hnext₀).keep hput).alike

end Duplicates

/-- **A copy is a duplicate**, where all paths end before copying stops. -/
theorem copyTo_duplicates (d : Nat) :
    (∀ h v, Confined h d (Node.ofRef v) → ∀ n, d ≤ n →
      h.Duplicates (Node.ofRef v) (copyTo n h v).2 (Node.ofRef (copyTo n h v).1)) ∧
    (∀ h c, Confined h d (Node.ofChain c) → ∀ n, d ≤ n →
      h.Duplicates (Node.ofChain c) (copyChainTo n h c).2
        (Node.ofChain (copyChainTo n h c).1)) := by
  induction d with
  | zero =>
      constructor
      · intro h v hv n _
        rw [hv.ref_eq_none]
        cases n <;> exact ⟨.refl h, .nil⟩
      · intro h c hc n _
        rw [hc.chain_eq_none]
        cases n <;> exact ⟨.refl h, .nil⟩
  | succ d ih =>
      obtain ⟨ihv, ihc⟩ := ih
      constructor
      · intro h v hv n hn
        obtain ⟨n, rfl⟩ : ∃ k, n = k + 1 := ⟨n - 1, by omega⟩
        have hle : d ≤ n := by omega
        cases v with
        | none => exact ⟨.refl h, .nil⟩
        | some a =>
            have hsimple := Duplicates.simple (h := h) (a := a)
            rw [copyTo]
            cases hcell : h.cell a with
            | released husk =>
                rw [hcell] at hsimple
                exact hsimple (by simp [Heap.fields, hcell])
            | live datum =>
                cases datum with
                | pair car cdr =>
                    obtain ⟨hcar, hcdr⟩ := hv.pair hcell
                    have hcar' := ihv h car hcar n hle
                    have hcdr' := ihv _ cdr (hcdr.of_extends hcar'.trees.grown) n hle
                    exact .pair hcell hcar' hcdr' hcdr
                | closure c =>
                    obtain ⟨hparams, hbody, hcaptured⟩ := hv.closure hcell
                    have hparams' := ihv h c.params hparams n hle
                    have he := hparams'.trees.grown
                    have hbody' := ihv _ c.body (hbody.of_extends he) n hle
                    have he' := he.trans hbody'.trees.grown
                    have hcaptured' := ihc _ c.captured (hcaptured.of_extends he') n hle
                    exact .closure hcell hparams' hbody' hbody hcaptured' hcaptured
                | _ =>
                    rw [hcell] at hsimple
                    exact hsimple (by simp [Heap.fields, hcell, Datum.fields])
      · intro h c hc n hn
        obtain ⟨n, rfl⟩ : ∃ k, n = k + 1 := ⟨n - 1, by omega⟩
        have hle : d ≤ n := by omega
        cases c with
        | none => exact ⟨.refl h, .nil⟩
        | some b =>
            obtain ⟨hname, hvalue, hnext⟩ := hc.fields
            have hname' := ihv h _ hname n hle
            have he := hname'.trees.grown
            have hvalue' := ihv _ _ (hvalue.of_extends he) n hle
            have he' := he.trans hvalue'.trees.grown
            have hnext' := ihc _ _ (hnext.of_extends he') n hle
            exact .binding hname' hvalue' hvalue hnext' hnext

/-! ## Walks do not tell them apart -/

/-- What two nodes that resemble each other have in a field resembles each other. -/
theorem Resembles.field {n n' : Node} (hn : h.Resembles h' n n') {f : Field} {ns ns' : List Node}
    (hns : ∀ l, (f, l) ∈ h.fields n ↔ l ∈ ns) (hns' : ∀ l, (f, l) ∈ h'.fields n' ↔ l ∈ ns')
    (hone : ns.length ≤ 1) (hone' : ns'.length ≤ 1) : h.Alike h' ns ns' := by
  have hforth : ∀ l ∈ ns, ∀ path k, h.Leads l path k →
      ∃ l' ∈ ns', ∃ k', h'.Leads l' path k' ∧ h'.content k' = h.content k := by
    intro l hl path k hk
    obtain ⟨k', ⟨l', hl', hk'⟩, heq⟩ := hn.forth (f :: path) k ⟨l, (hns l).mpr hl, hk⟩
    exact ⟨l', (hns' l').mp hl', k', hk', heq⟩
  have hback : ∀ l' ∈ ns', ∀ path k', h'.Leads l' path k' →
      ∃ l ∈ ns, ∃ k, h.Leads l path k ∧ h'.content k' = h.content k := by
    intro l' hl' path k' hk'
    obtain ⟨k, ⟨l, hl, hk⟩, heq⟩ := hn.back (f :: path) k' ⟨l', (hns' l').mpr hl', hk'⟩
    exact ⟨l, (hns l).mp hl, k, hk, heq⟩
  match ns, ns', hone, hone' with
  | [], [], _, _ => exact .nil
  | [], l' :: _, _, _ =>
      obtain ⟨l, hl, -⟩ := hback l' List.mem_cons_self [] l' rfl
      cases hl
  | l :: _, [], _, _ =>
      obtain ⟨l', hl', -⟩ := hforth l List.mem_cons_self [] l rfl
      cases hl'
  | [l], [l'], _, _ =>
      refine .cons ⟨fun path k hk => ?_, fun path k' hk' => ?_⟩ .nil
      · obtain ⟨l₁, hl₁, hfound⟩ := hforth l List.mem_cons_self path k hk
        rwa [List.mem_singleton.mp hl₁] at hfound
      · obtain ⟨l₁, hl₁, hfound⟩ := hback l' List.mem_cons_self path k' hk'
        rwa [List.mem_singleton.mp hl₁] at hfound

theorem Resembles.content_eq {n n' : Node} (hn : h.Resembles h' n n') :
    h'.content n' = h.content n := by
  obtain ⟨k', rfl, heq⟩ := hn.forth [] n rfl
  exact heq

theorem length_ofRef (v : Ref) : (Node.ofRef v).length ≤ 1 := by cases v <;> simp [Node.ofRef]

theorem length_ofChain (c : Chain) : (Node.ofChain c).length ≤ 1 := by
  cases c <;> simp [Node.ofChain]

theorem Resembles.pair_fields {a a' : Addr} {car cdr car' cdr' : Ref}
    (hn : h.Resembles h' (.value a) (.value a')) (hcell : h.cell a = .live (.pair car cdr))
    (hcell' : h'.cell a' = .live (.pair car' cdr')) :
    h.Alike h' (Node.ofRef car) (Node.ofRef car') ∧
      h.Alike h' (Node.ofRef cdr) (Node.ofRef cdr') := by
  constructor
  · refine hn.field (f := .car) ?_ ?_ (length_ofRef _) (length_ofRef _) <;>
      simp [Heap.fields, hcell, hcell', Datum.fields]
  · refine hn.field (f := .cdr) ?_ ?_ (length_ofRef _) (length_ofRef _) <;>
      simp [Heap.fields, hcell, hcell', Datum.fields]

theorem Resembles.closure_fields {a a' : Addr} {c c' : Closure}
    (hn : h.Resembles h' (.value a) (.value a')) (hcell : h.cell a = .live (.closure c))
    (hcell' : h'.cell a' = .live (.closure c')) :
    h.Alike h' (Node.ofRef c.params) (Node.ofRef c'.params) ∧
      h.Alike h' (Node.ofRef c.body) (Node.ofRef c'.body) ∧
      h.Alike h' (Node.ofChain c.captured) (Node.ofChain c'.captured) := by
  refine ⟨?_, ?_, ?_⟩
  · refine hn.field (f := .params) ?_ ?_ (length_ofRef _) (length_ofRef _) <;>
      simp [Heap.fields, hcell, hcell', Datum.fields]
  · refine hn.field (f := .body) ?_ ?_ (length_ofRef _) (length_ofRef _) <;>
      simp [Heap.fields, hcell, hcell', Datum.fields]
  · refine hn.field (f := .captured) ?_ ?_ (length_ofChain _) (length_ofChain _) <;>
      simp [Heap.fields, hcell, hcell', Datum.fields]

theorem Resembles.binding_fields {b b' : BindingId}
    (hn : h.Resembles h' (.binding b) (.binding b')) :
    h.Alike h' (Node.ofRef (h.binding b).name) (Node.ofRef (h'.binding b').name) ∧
      h.Alike h' (Node.ofRef (h.binding b).value) (Node.ofRef (h'.binding b').value) ∧
      h.Alike h' (Node.ofChain (h.binding b).next) (Node.ofChain (h'.binding b').next) := by
  refine ⟨?_, ?_, ?_⟩
  · refine hn.field (f := .name) ?_ ?_ (length_ofRef _) (length_ofRef _) <;>
      simp [Heap.fields, Binding.fields]
  · refine hn.field (f := .value) ?_ ?_ (length_ofRef _) (length_ofRef _) <;>
      simp [Heap.fields, Binding.fields]
  · refine hn.field (f := .next) ?_ ?_ (length_ofChain _) (length_ofChain _) <;>
      simp [Heap.fields, Binding.fields]

/-- Two references that resemble each other are both absent, or name cells that do. -/
theorem Alike.ref_cases {v v' : Ref} (hv : h.Alike h' (Node.ofRef v) (Node.ofRef v')) :
    v = none ∧ v' = none ∨ ∃ a a', v = some a ∧ v' = some a' ∧
      h.Resembles h' (.value a) (.value a') ∧ (h'.cell a').bare = (h.cell a).bare := by
  cases v with
  | none =>
      cases v' with
      | none => exact Or.inl ⟨rfl, rfl⟩
      | some a' => cases hv
  | some a =>
      cases v' with
      | none => cases hv
      | some a' =>
          have hn : h.Resembles h' (.value a) (.value a') := (List.forall₂_cons.mp hv).1
          exact Or.inr ⟨a, a', rfl, rfl, hn, Option.some.inj hn.content_eq⟩

theorem Alike.chain_cases {c c' : Chain} (hc : h.Alike h' (Node.ofChain c) (Node.ofChain c')) :
    c = none ∧ c' = none ∨ ∃ b b', c = some b ∧ c' = some b' ∧
      h.Resembles h' (.binding b) (.binding b') := by
  cases c with
  | none =>
      cases c' with
      | none => exact Or.inl ⟨rfl, rfl⟩
      | some b' => cases hc
  | some b =>
      cases c' with
      | none => cases hc
      | some b' => exact Or.inr ⟨b, b', rfl, rfl, (List.forall₂_cons.mp hc).1⟩

/-- Values that resemble each other unfold to the same, to any depth. -/
theorem viewTo_of_alike (n : Nat) :
    (∀ v v', h.Alike h' (Node.ofRef v) (Node.ofRef v') →
      (viewTo n h' v').unmarked = (viewTo n h v).unmarked) ∧
    (∀ c c', h.Alike h' (Node.ofChain c) (Node.ofChain c') →
      (viewChainTo n h' c').unmarked = (viewChainTo n h c).unmarked) := by
  induction n with
  | zero =>
      constructor
      · intro v v' _
        cases v <;> cases v' <;> rfl
      · intro c c' _
        cases c <;> cases c' <;> rfl
  | succ n ih =>
      obtain ⟨ihv, ihc⟩ := ih
      constructor
      · intro v v' hv
        rcases hv.ref_cases with ⟨rfl, rfl⟩ | ⟨a, a', rfl, rfl, hn, hbare⟩
        · rfl
        · rw [viewTo, viewTo]
          rcases Cell.bare_cases hbare with
            ⟨car, cdr, car', cdr', hcell, hcell'⟩ | ⟨c, c', hcell, hcell'⟩ | ⟨heq, hpair, hclosure⟩
          · obtain ⟨hcar, hcdr⟩ := hn.pair_fields hcell hcell'
            simp only [hcell, hcell', Tree.unmarked, ihv _ _ hcar, ihv _ _ hcdr]
          · obtain ⟨hparams, hbody, hcaptured⟩ := hn.closure_fields hcell hcell'
            simp only [hcell, hcell', Tree.unmarked, ihv _ _ hparams, ihv _ _ hbody,
              ihc _ _ hcaptured]
          · rw [heq]
            cases hcell : h.cell a with
            | released husk => rfl
            | live datum =>
                cases datum with
                | pair car cdr => exact absurd hcell (hpair car cdr)
                | closure c => exact absurd hcell (hclosure c)
                | _ => rfl
      · intro c c' hc
        rcases hc.chain_cases with ⟨rfl, rfl⟩ | ⟨b, b', rfl, rfl, hn⟩
        · rfl
        · obtain ⟨hname, hvalue, hnext⟩ := hn.binding_fields
          rw [viewChainTo, viewChainTo]
          simp only [Scope.unmarked, ihv _ _ hname, ihv _ _ hvalue, ihc _ _ hnext]

/-! ## Copies -/

/-- Nothing that was there has anything in common with copies. -/
theorem CopiesTrees.apart {ns : List Node} (hc : h.CopiesTrees h' ns) (hb : h.Bounded)
    {k n : Node} (hk : h.Has k) (hn : n ∈ ns) : h'.Apart k n := by
  intro l hkl hnl
  have hold : h.Reaches k l := (hc.grown.reaches_iff hb hk).mp hkl
  exact (hc.made n hn l hnl).2 (hb.reaches_has hk hold)

theorem copy_duplicates (hb : h.Bounded) {v : Ref}
    (hv : ∀ n ∈ Node.ofRef v, h.Has n ∧ h.AcyclicFrom n) :
    h.Duplicates (Node.ofRef v) (h.copy v).2 (Node.ofRef (h.copy v).1) :=
  (copyTo_duplicates h.depth).1 h v (AcyclicFrom.confined hb hv) h.depth (Nat.le_refl _)

theorem copyChain_duplicates (hb : h.Bounded) {c : Chain}
    (hc : ∀ n ∈ Node.ofChain c, h.Has n ∧ h.AcyclicFrom n) :
    h.Duplicates (Node.ofChain c) (h.copyChain c).2 (Node.ofChain (h.copyChain c).1) :=
  (copyTo_duplicates h.depth).2 h c (AcyclicFrom.confined hb hc) h.depth (Nat.le_refl _)

/-- A value and one that resembles it unfold to the same tree. -/
theorem Alike.view_eq {v v' : Ref} (hv : h.Alike h' (Node.ofRef v) (Node.ofRef v'))
    (hends : h.WalksEnd v) (hd : h.depth ≤ h'.depth) :
    (h'.view v').unmarked = (h.view v).unmarked := by
  rw [← hends.view h'.depth hd]
  exact (viewTo_of_alike h'.depth).1 v v' hv

theorem Alike.viewChain_eq {c c' : Chain} (hc : h.Alike h' (Node.ofChain c) (Node.ofChain c'))
    (hends : h.ChainEnds c) (hd : h.depth ≤ h'.depth) :
    (h'.viewChain c').unmarked = (h.viewChain c).unmarked := by
  rw [← hends.view h'.depth hd]
  exact (viewTo_of_alike h'.depth).2 c c' hc

/--
**Copying is deep.** Where a value reaches no cycle, its copy is a tree of new nodes that resembles
it: the same paths of fields lead in both to the same contents, every path of the copy to a node of
its own. Nothing that was there has changed or has anything in common with the copy, and the two
have the same text. So it is with the copy of a chain of bindings.
-/
theorem copies_are_deep (hb : h.Bounded) :
    (∀ v, (∀ n ∈ Node.ofRef v, h.Has n ∧ h.AcyclicFrom n) →
      h.Duplicates (Node.ofRef v) (h.copy v).2 (Node.ofRef (h.copy v).1) ∧
      (∀ k, h.Has k → ∀ n ∈ Node.ofRef (h.copy v).1, (h.copy v).2.Apart k n) ∧
      (h.copy v).2.render (h.copy v).1 = h.render v) ∧
    (∀ c, (∀ n ∈ Node.ofChain c, h.Has n ∧ h.AcyclicFrom n) →
      h.Duplicates (Node.ofChain c) (h.copyChain c).2 (Node.ofChain (h.copyChain c).1) ∧
      (∀ k, h.Has k → ∀ n ∈ Node.ofChain (h.copyChain c).1, (h.copyChain c).2.Apart k n) ∧
      ((h.copyChain c).2.viewChain (h.copyChain c).1).render = (h.viewChain c).render) := by
  constructor
  · intro v hv
    have hcopy := copy_duplicates hb hv
    refine ⟨hcopy, fun k hk n hn => hcopy.trees.apart hb hk hn, ?_⟩
    have hview := hcopy.alike.view_eq (walksEnd_of_acyclic hb hv) hcopy.trees.grown.depth_le
    rw [Heap.render, Heap.render, ← (Tree.render_unmarked _).1, hview, (Tree.render_unmarked _).1]
  · intro c hc
    have hcopy := copyChain_duplicates hb hc
    refine ⟨hcopy, fun k hk n hn => hcopy.trees.apart hb hk hn, ?_⟩
    have hview := hcopy.alike.viewChain_eq (chainEnds_of_acyclic hb hc) hcopy.trees.grown.depth_le
    rw [Scope.render, Scope.render, ← Scope.entries_unmarked, hview, Scope.entries_unmarked]

/-- A closure over a pair with the same atom in both fields, which its binding holds too. -/
def entangled : Heap where
  cells := #[.live (.atom "x"), .live (.pair (some ⟨0⟩) (some ⟨0⟩)), .released (.atom "y"),
    .live (.closure ⟨some ⟨1⟩, some ⟨2⟩, some ⟨0⟩⟩)]
  bindings := #[⟨some ⟨0⟩, some ⟨1⟩, none, false⟩]

theorem entangled_edits : Heap.empty.Edits entangled := by
  have hatom := (Edits.refl Heap.empty).step (.alloc (.live (.atom "x")) nofun)
  have hpair := hatom.step (.alloc (.live (.pair (some ⟨0⟩) (some ⟨0⟩))) ?_)
  · have hreleased := hpair.step (.alloc (.released (.atom "y")) nofun)
    have hbinding := hreleased.step (.put (some ⟨0⟩) (some ⟨1⟩) none ?_)
    · refine hbinding.step (.alloc (.live (.closure ⟨some ⟨1⟩, some ⟨2⟩, some ⟨0⟩⟩)) ?_)
      simp [Cell.parts, Datum.parts, Node.ofRef, Node.ofChain, Has, Heap.alloc, Heap.put,
        Heap.empty]
    · simp [Binding.parts, Node.ofRef, Node.ofChain, Has, Heap.alloc, Heap.empty]
  · simp [Cell.parts, Datum.parts, Node.ofRef, Has, Heap.alloc, Heap.empty]

/-- The atom is reached along several paths, and each of them gets a copy of its own. -/
theorem copies_are_deep_entangled :
    entangled.Bounded ∧ (entangled.Has (.value ⟨3⟩) ∧ entangled.AcyclicFrom (.value ⟨3⟩)) ∧
    entangled.Leads (.value ⟨3⟩) [.params, .car] (.value ⟨0⟩) ∧
    entangled.Leads (.value ⟨3⟩) [.captured, .value, .cdr] (.value ⟨0⟩) ∧
    entangled.Duplicates (Node.ofRef (some ⟨3⟩)) (entangled.copy (some ⟨3⟩)).2
      (Node.ofRef (entangled.copy (some ⟨3⟩)).1) ∧
    (entangled.copy (some ⟨3⟩)).2.render (entangled.copy (some ⟨3⟩)).1 =
      entangled.render (some ⟨3⟩) := by
  obtain ⟨hb, hac⟩ := entangled_edits.acyclic bounded_empty acyclic_empty
  have hroot : entangled.Has (.value ⟨3⟩) := by simp [Has, entangled]
  refine ⟨hb, ⟨hroot, hac.acyclicFrom _⟩, ?_, ?_, ?_⟩
  · simp [Leads, Heap.fields, Heap.cell, entangled, Datum.fields, Node.ofRef]
  · simp [Leads, Heap.fields, Heap.cell, Heap.binding, entangled, Datum.fields, Binding.fields,
      Node.ofRef, Node.ofChain]
  · have hcopy := (copies_are_deep hb).1 (some ⟨3⟩) fun n hn => by
      rw [List.mem_singleton.mp hn]
      exact ⟨hroot, hac.acyclicFrom _⟩
    exact ⟨hcopy.1, hcopy.2.2⟩

end Heap

end ArenaLisp
