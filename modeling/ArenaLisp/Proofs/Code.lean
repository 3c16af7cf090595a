import ArenaLisp.Proofs.Faithful

/-!
# Code and data

What is read from a text is *code*: atoms, numbers and proper lists of code. Data need not be.
The list of the environment holds pairs whose second field is no list, and `cons` puts
anything in front of them. But data never turn into code: an expression is a part of a text,
or the body of a closure, and that was a part of a text when the closure was made.

So a value is *whole* when nothing of it is missing, except both fields of an empty list, and
when the bodies of the closures in it, also of those that closures have taken along, are code.
A tree that some value unfolds into is moreover *intact*: nothing in it is released or of no
known kind.
-/

namespace ArenaLisp

namespace Tree

/-! ## Code -/

/-- Whether a tree is an atom, a number or a proper list of such trees. -/
inductive Code : Tree → Prop
  | atom (name : String) : Code (.atom name)
  | number (x : Number) : Code (.number x)
  | nil : Code (.pair .absent .absent)
  | cons {t a b : Tree} (ht : Code t) (hrest : Code (.pair a b)) : Code (.pair t (.pair a b))

theorem Code.ne_absent {t : Tree} (ht : t.Code) : t ≠ .absent := by
  intro habsent
  subst habsent
  cases ht

theorem code_ofList {ts : List Tree} (hts : ∀ t ∈ ts, t.Code) : (ofList ts).Code := by
  induction ts with
  | nil => exact .nil
  | cons t ts ih =>
      have hrest := ih fun t' ht' => hts t' (List.mem_cons_of_mem _ ht')
      have ht := hts t List.mem_cons_self
      cases ts with
      | nil => exact .cons ht hrest
      | cons _ _ => exact .cons ht hrest

/-- A list that is code is a proper one, and its elements are code. -/
theorem Code.eq_ofList {t u : Tree} (hc : (Tree.pair t u).Code) :
    ∃ ts, Tree.pair t u = ofList ts ∧ ∀ t ∈ ts, t.Code := by
  generalize hlist : Tree.pair t u = list at hc
  induction hc generalizing t u with
  | atom | number => cases hlist
  | nil => exact ⟨[], rfl, fun t ht => absurd ht List.not_mem_nil⟩
  | @cons x a b hx _ _ ihrest =>
      obtain ⟨ts, hts, hcode⟩ := ihrest rfl
      refine ⟨x :: ts, by rw [ofList, hts], fun t' ht' => ?_⟩
      rcases List.mem_cons.mp ht' with rfl | ht'
      · exact hx
      · exact hcode t' ht'

/-- The first field of a list that is code is code, and so is the rest, which is a list. -/
theorem Code.fields {t u : Tree} (hc : (Tree.pair t u).Code) (hnil : ¬(t = .absent ∧ u = .absent)) :
    t.Code ∧ u.Code ∧ ∃ a b, u = .pair a b := by
  cases hc with
  | nil => exact absurd ⟨rfl, rfl⟩ hnil
  | cons ht hrest => exact ⟨ht, hrest, _, _, rfl⟩

/-- The elements of a list that is code are code. -/
theorem Code.elements? {t : Tree} (hc : t.Code) {ts : List Tree} (hts : t.elements? = some ts) :
    ∀ t' ∈ ts, t'.Code := by
  cases t with
  | pair car cdr =>
      obtain ⟨us, hlist, hcode⟩ := hc.eq_ofList
      rw [hlist, elements?_ofList] at hts
      cases hts
      exact hcode
  | _ => cases hc <;> cases hts

theorem hereditary_code : Hereditary Code :=
  ⟨.atom, .number, fun _ => code_ofList⟩

end Tree

/-! ## Whole values -/

mutual

/-- Whether a value has all its parts, and closures only with code for their bodies. -/
def Tree.Whole : Tree → Prop
  | .atom _ | .number _ | .primitive _ => True
  | .pair car cdr => (car = .absent ∧ cdr = .absent) ∨ (car.Whole ∧ cdr.Whole)
  | .closure _ body captured => body.Code ∧ captured.Whole
  | .absent | .released _ | .unknown _ => False

/-- Whether the values of a chain of bindings are whole. -/
def Scope.Whole : Scope → Prop
  | .empty => True
  | .binding _ _ value rest => value.Whole ∧ rest.Whole

end

namespace Tree

theorem whole_nil : nil.Whole := Or.inl ⟨rfl, rfl⟩

theorem Whole.ne_absent {t : Tree} (ht : t.Whole) : t ≠ .absent := by
  intro habsent
  subst habsent
  exact ht

theorem Code.whole {t : Tree} (hc : t.Code) : t.Whole := by
  induction hc with
  | atom => trivial
  | number => trivial
  | nil => exact whole_nil
  | cons _ _ iht ihrest => exact Or.inr ⟨iht, ihrest⟩

theorem whole_ofList {ts : List Tree} (hts : ∀ t ∈ ts, t.Whole) : (ofList ts).Whole := by
  induction ts with
  | nil => exact whole_nil
  | cons t ts ih =>
      exact Or.inr ⟨hts t List.mem_cons_self, ih fun t' ht' => hts t' (List.mem_cons_of_mem _ ht')⟩

/-- A field of a whole value is whole, unless the value is the empty list. -/
theorem Whole.fields {t u : Tree} (hw : (Tree.pair t u).Whole) :
    (t = .absent ∨ t.Whole) ∧ (u = .absent ∨ u.Whole) := by
  rcases hw with ⟨ht, hu⟩ | ⟨ht, hu⟩
  · exact ⟨Or.inl ht, Or.inl hu⟩
  · exact ⟨Or.inr ht, Or.inr hu⟩

end Tree

/-! ## Intact trees -/

mutual

/-- Whether nothing in a tree is released or of no known kind. -/
def Tree.intact : Tree → Bool
  | .absent | .atom _ | .number _ | .primitive _ => true
  | .pair car cdr => car.intact && cdr.intact
  | .closure params body captured => params.intact && body.intact && captured.intact
  | .released _ | .unknown _ => false

def Scope.intact : Scope → Bool
  | .empty => true
  | .binding released name value rest =>
    !released && name.intact && value.intact && rest.intact

end

theorem Tree.Code.intact {t : Tree} (hc : t.Code) : t.intact = true := by
  induction hc with
  | atom | number => rw [Tree.intact]
  | nil => rw [Tree.intact, Tree.intact]; rfl
  | cons _ _ iht ihrest => rw [Tree.intact, iht, ihrest]; rfl

/-! ## Entries -/

namespace Reference

/-- Whether the values of entries are whole. -/
def Env.Whole (env : Env) : Prop := ∀ e ∈ env, e.2.Whole

theorem Env.whole_append {env env' : Env} (he : env.Whole) (he' : env'.Whole) :
    (env ++ env').Whole := by
  intro e hmem
  rcases List.mem_append.mp hmem with hmem | hmem
  · exact he e hmem
  · exact he' e hmem

theorem whole_toScope {env : Env} (he : env.Whole) : (toScope env).Whole := by
  induction env with
  | nil => trivial
  | cons e env ih =>
      exact ⟨he e List.mem_cons_self, ih fun e' he' => he e' (List.mem_cons_of_mem _ he')⟩

theorem whole_ofScope : ∀ {s : Scope}, s.Whole → (ofScope s).Whole
  | .empty, _ => fun e he => absurd he List.not_mem_nil
  | .binding _ _ _ _, hs => fun e he => by
      rcases List.mem_cons.mp he with rfl | he
      · exact hs.1
      · exact whole_ofScope hs.2 e he

theorem whole_of_lookup? {env : Env} (he : env.Whole) {name : String} {t : Tree}
    (ht : lookup? env name = some t) : t.Whole := by
  obtain ⟨e, hfind, rfl⟩ := Option.map_eq_some_iff.mp ht
  exact he e (List.mem_of_find?_eq_some hfind)

theorem whole_capture {env : Env} (he : env.Whole) (names : List String) {captured : Env}
    (hc : captured.Whole) : (capture env names captured).Whole := by
  induction names generalizing captured with
  | nil => exact hc
  | cons name names ih =>
      rw [capture, List.foldl_cons]
      cases hlookup : lookup? env name with
      | none => exact ih hc
      | some t =>
          refine ih fun e hmem => ?_
          rcases List.mem_cons.mp hmem with rfl | hmem
          · exact whole_of_lookup? he hlookup
          · exact hc e hmem

theorem whole_update {env : Env} (he : env.Whole) (name : String) {t : Tree} (ht : t.Whole) :
    (update name t env).Whole := by
  have hreplace : ∀ {env env' : Env}, env.Whole → replace? name t env = some env' → env'.Whole := by
    intro env
    induction env with
    | nil => intro env' _ hr; cases hr
    | cons e env ih =>
        intro env' he hr e' he'
        have hrest : Env.Whole env := fun e' he' => he e' (List.mem_cons_of_mem _ he')
        rw [replace?] at hr
        split at hr
        · cases hr
          rcases List.mem_cons.mp he' with rfl | he'
          · exact ht
          · exact hrest e' he'
        · obtain ⟨left, hleft, rfl⟩ := Option.map_eq_some_iff.mp hr
          rcases List.mem_cons.mp he' with rfl | he'
          · exact he _ List.mem_cons_self
          · exact ih hrest hleft e' he'
  rw [update]
  cases hr : replace? name t env with
  | some env' => exact hreplace he hr
  | none =>
      intro e hmem
      rcases List.mem_cons.mp hmem with rfl | hmem
      · exact ht
      · exact he e hmem

theorem whole_zip (names : List String) {ts : List Tree} (hts : ∀ t ∈ ts, t.Whole) :
    Env.Whole (names.zip ts) := fun e he => hts e.2 (List.of_mem_zip he).2

end Reference

/-! ## Values of the heap -/

namespace Heap

mutual

/-- A value unfolds only where nothing of it is released. -/
theorem Unfolds.intact {h : Heap} : ∀ {t : Tree} {v : Ref}, h.Unfolds v t → t.intact = true
  | _, _, .absent | _, _, .atom _ | _, _, .number _ | _, _, .primitive _ => by rw [Tree.intact]
  | .pair t u, _, .pair _ hcar hcdr => by rw [Tree.intact, hcar.intact, hcdr.intact]; rfl
  | .closure params body s, _, .closure _ hparams _ hbody hcaptured => by
      rw [Tree.intact, hparams.intact, hbody.intact, hcaptured.intact]
      rfl

theorem UnfoldsChain.intact {h : Heap} :
    ∀ {s : Scope} {c : Chain}, h.UnfoldsChain c s → s.intact = true
  | _, _, .empty => by rw [Scope.intact]
  | .binding _ _ t s, _, .binding _ _ hvalue hnext => by
      rw [Scope.intact, Tree.intact, hvalue.intact, hnext.intact]
      rfl

end

end Heap

theorem Expression.code (e : Expression) : e.tree.Code := by
  obtain ⟨text, ts, hts, hmem⟩ := e.read
  exact readData_satisfies Tree.hereditary_code hts e.tree hmem

end ArenaLisp
