import ArenaLisp.Proofs.Code
import ArenaLisp.Proofs.Nested
import ArenaLisp.Proofs.Simulation

/-!
# Evaluation of code

A machine is *orderly* when its environment binds whole values. Evaluating code on an orderly
machine gives a whole value, and leaves an orderly machine however it ends. What it asks for on
the way is again the evaluation of code on an orderly machine. Unlike the agreement with
immutable values this has no exception: what `eq` says of two lists is true or false, and both
are whole.

`Settles` says how a run has to end, and which errors it can end with. There is one lemma for
each function of the evaluator, all of one form, and `eval_settles` is the induction on depth.
-/

namespace ArenaLisp

open EvalM Machine

/-! ## Errors -/

/-- The values that the message of a cause shows. -/
def Cause.shown : Cause → List Tree
  | .notApplicable t | .improperArguments t | .notAnAtom t | .constant t | .notANumber _ t
  | .malformedClause _ t | .paramsNotList t | .paramsImproper t | .paramNotAtom _ t
  | .paramConstant _ t | .frameNames t | .frameValues t => [t]
  | _ => []

/-- Whether a cause is one that no code comes to. -/
def Cause.foreignToCode : Cause → Bool
  | .cannotEvaluate _ | .releasedExpression | .improperArguments _ | .paramsImproper _
  | .frameNames _ | .frameValues _ | .raised _ _ => true
  | _ => false

/-- Whether code can come to an error. What is raised under no name is not about a frame. -/
structure EvalError.Expected (e : EvalError) : Prop where
  cause : e.cause.foreignToCode = false
  frame : ∀ expected given, e ≠ ⟨"", .argumentCount expected given⟩
  intact : ∀ t ∈ e.cause.shown, t.intact = true

/-- Whether the evaluation of code can end in this way without a value. -/
def Halt.Expected : Halt → Prop
  | .error e => e.Expected
  | .dangling => False
  | .tooDeep => True

/-- An error that shows no value, other than a wrong number of arguments. -/
theorem EvalError.Expected.plain {operator : String} {cause : Cause}
    (hcause : cause.foreignToCode = false) (hframe : ∀ x y, cause ≠ .argumentCount x y)
    (hshown : cause.shown = []) : Halt.Expected (.error ⟨operator, cause⟩) :=
  ⟨hcause, fun x y heq => hframe x y (congrArg EvalError.cause heq),
    fun t ht => by rw [hshown] at ht; exact absurd ht List.not_mem_nil⟩

/-- An error that shows one value. -/
theorem EvalError.Expected.showing {operator : String} {cause : Cause} {t : Tree}
    (hcause : cause.foreignToCode = false) (hframe : ∀ x y, cause ≠ .argumentCount x y)
    (hshown : cause.shown = [t]) (ht : t.intact = true) :
    Halt.Expected (.error ⟨operator, cause⟩) :=
  ⟨hcause, fun x y heq => hframe x y (congrArg EvalError.cause heq), fun t' ht' => by
    rw [hshown] at ht'
    rw [List.mem_singleton.mp ht']
    exact ht⟩

theorem EvalError.Expected.count {operator : String} (ho : operator ≠ "") {x y : Nat} :
    Halt.Expected (.error ⟨operator, .argumentCount x y⟩) :=
  ⟨rfl, fun _ _ heq => ho (congrArg EvalError.operator heq), fun _ ht => absurd ht List.not_mem_nil⟩

/-- Of a parameter list that is code, what is wrong is not that it is improper. -/
theorem Tree.Code.paramsFault?_expected {t : Tree} (hc : t.Code) {cause : Cause}
    (hfault : t.paramsFault? = some cause) : Halt.Expected (.error ⟨"lambda", cause⟩) := by
  have hparam : ∀ (ts : List Tree) (position : Nat), (∀ t ∈ ts, t.Code) →
      firstParamFault? position ts = some cause → Halt.Expected (.error ⟨"lambda", cause⟩) := by
    intro ts
    induction ts with
    | nil => intro position _ hf; cases hf
    | cons t ts ih =>
        intro position hts hf
        rw [firstParamFault?, paramFault?] at hf
        have ht := hts t List.mem_cons_self
        by_cases hnil : t.isNil = true
        · rw [if_pos hnil] at hf
          cases hf
          exact .plain rfl (by simp) rfl
        · rw [if_neg hnil] at hf
          by_cases hkind : (t.kind != .atom) = true
          · rw [if_pos hkind] at hf
            cases hf
            exact .showing rfl (by simp) rfl ht.intact
          · rw [if_neg hkind] at hf
            by_cases htruth : (t.name == truthName) = true
            · rw [if_pos htruth] at hf
              cases hf
              exact .showing rfl (by simp) rfl ht.intact
            · rw [if_neg htruth] at hf
              exact ih (position + 1) (fun t' ht' => hts t' (List.mem_cons_of_mem _ ht')) hf
  rw [paramsFault?] at hfault
  by_cases hkind : (t.kind != .pair) = true
  · rw [if_pos hkind] at hfault
    cases hfault
    exact .showing rfl (by simp) rfl hc.intact
  · rw [if_neg hkind] at hfault
    cases t with
    | pair car cdr =>
        obtain ⟨ts, hlist, hcode⟩ := hc.eq_ofList
        rw [hlist, spine_ofList, show Tree.nil.isNil = true from rfl, if_pos rfl, Option.or_none] at hfault
        exact hparam ts 1 hcode hfault
    | number x => cases x <;> exact absurd rfl hkind
    | _ => cases hc <;> exact absurd rfl hkind

namespace Machine

/-! ## Orderly machines -/

/-- Whether a machine is sound and its environment binds whole values. -/
structure Orderly (m : Machine) : Prop where
  sound : m.Sound
  bound : ∃ env, m.Models env ∧ env.Whole

/-- Whether a value is whole. -/
def HasWhole (m : Machine) (v : Ref) : Prop := ∃ t, m.heap.Unfolds v t ∧ t.Whole

/-- Whether a value is code. -/
def HasCode (m : Machine) (v : Ref) : Prop := ∃ t, m.heap.Unfolds v t ∧ t.Code

/-- Whether a value is a proper list of code. -/
def HasCodes (m : Machine) (v : Ref) : Prop :=
  ∃ ts, m.heap.Unfolds v (.ofList ts) ∧ ∀ t ∈ ts, t.Code

theorem HasCode.liveRef {m : Machine} {v : Ref} (hv : m.HasCode v) : m.heap.LiveRef v := by
  obtain ⟨t, hu, -⟩ := hv
  exact hu.liveRef

theorem HasCode.whole {m : Machine} {v : Ref} (hv : m.HasCode v) : m.HasWhole v := by
  obtain ⟨t, hu, ht⟩ := hv
  exact ⟨t, hu, ht.whole⟩

theorem HasCodes.whole {m : Machine} {v : Ref} (hv : m.HasCodes v) : m.HasWhole v := by
  obtain ⟨ts, hu, hts⟩ := hv
  exact ⟨_, hu, (Tree.code_ofList hts).whole⟩

theorem Evolves.hasWhole {m m' : Machine} (he : m.Evolves m') (hs : m.Sound) {v : Ref}
    (hv : m.HasWhole v) : m'.HasWhole v := by
  obtain ⟨t, hu, ht⟩ := hv
  exact ⟨t, he.unfolds hs hu, ht⟩

theorem Evolves.hasCode {m m' : Machine} (he : m.Evolves m') (hs : m.Sound) {v : Ref}
    (hv : m.HasCode v) : m'.HasCode v := by
  obtain ⟨t, hu, ht⟩ := hv
  exact ⟨t, he.unfolds hs hu, ht⟩

theorem Evolves.hasCodes {m m' : Machine} (he : m.Evolves m') (hs : m.Sound) {v : Ref}
    (hv : m.HasCodes v) : m'.HasCodes v := by
  obtain ⟨ts, hu, hts⟩ := hv
  exact ⟨ts, he.unfolds hs hu, hts⟩

/-- Values that are each related to some tree with a property are related to trees that have it. -/
theorem exists_related {R : Ref → Tree → Prop} {P : Tree → Prop} {vs : List Ref}
    (hvs : ∀ v ∈ vs, ∃ t, R v t ∧ P t) : ∃ ts, List.Forall₂ R vs ts ∧ ∀ t ∈ ts, P t := by
  induction vs with
  | nil => exact ⟨[], .nil, fun t ht => absurd ht List.not_mem_nil⟩
  | cons v vs ih =>
      obtain ⟨t, hu, ht⟩ := hvs v List.mem_cons_self
      obtain ⟨ts, hus, hts⟩ := ih fun v' hv' => hvs v' (List.mem_cons_of_mem _ hv')
      refine ⟨t :: ts, .cons hu hus, fun t' ht' => ?_⟩
      rcases List.mem_cons.mp ht' with rfl | ht'
      · exact ht
      · exact hts t' ht'

theorem forall_of_trees {m : Machine} {P : Tree → Prop} {vs : List Ref} {ts : List Tree}
    (hvs : List.Forall₂ m.heap.Unfolds vs ts) (hts : ∀ t ∈ ts, P t) :
    ∀ v ∈ vs, ∃ t, m.heap.Unfolds v t ∧ P t := by
  induction hvs with
  | nil => exact fun v hv => absurd hv List.not_mem_nil
  | @cons v t vs ts hv _ ih =>
      intro v' hv'
      rcases List.mem_cons.mp hv' with rfl | hv'
      · exact ⟨t, hv, hts t List.mem_cons_self⟩
      · exact ih (fun t' ht' => hts t' (List.mem_cons_of_mem _ ht')) v' hv'

/-- The elements of a list that is code. -/
theorem HasCode.elements? {m : Machine} {v : Ref} (hv : m.HasCode v) (vs : List Ref)
    (hvs : m.heap.elements? v = some vs) : ∀ w ∈ vs, m.HasCode w := by
  obtain ⟨t, hu, ht⟩ := hv
  have hparts := hu.elements?
  rw [hvs] at hparts
  generalize hts : t.elements? = ts at hparts
  cases hparts with
  | some hus => exact forall_of_trees hus (ht.elements? hts)

theorem HasCodes.elements? {m : Machine} {v : Ref} (hv : m.HasCodes v) :
    ∃ vs, m.heap.elements? v = some vs ∧ ∀ w ∈ vs, m.HasCode w := by
  obtain ⟨ts, hu, hts⟩ := hv
  obtain ⟨vs, hvs, hus⟩ := hu.elements?_some (Tree.elements?_ofList ts)
  exact ⟨vs, hvs, forall_of_trees hus hts⟩

/-- Of a list that is code, the first field is code and the rest is a list of code. -/
theorem HasCode.fields {m : Machine} {a : Addr} {car cdr : Ref} (hv : m.HasCode (some a))
    (hcell : m.heap.cell a = .live (.pair car cdr)) (hnil : ¬(car = none ∧ cdr = none)) :
    m.HasCode car ∧ m.HasCodes cdr := by
  obtain ⟨t, hu, ht⟩ := hv
  cases hu with
  | atom hcell' | number hcell' | primitive hcell' | closure hcell' =>
      rw [hcell] at hcell'
      cases hcell'
  | @pair _ car' cdr' t u hcell' hcar hcdr =>
      rw [hcell] at hcell'
      cases hcell'
      obtain ⟨hcode, hrest, _, _, rfl⟩ := ht.fields (by rwa [← hcar.none_iff, ← hcdr.none_iff])
      obtain ⟨ts, hlist, hts⟩ := hrest.eq_ofList
      rw [hlist] at hcdr
      exact ⟨⟨t, hcar, hcode⟩, ts, hcdr, hts⟩

/-- How a run of code has to end. -/
def Settles {α : Type} (m : Machine) (P : Machine → α → Prop) :
    EStateM.Result Halt Machine α → Prop
  | .ok a m' => m'.Orderly ∧ m.Evolves m' ∧ P m' a
  | .error e m' => m'.Orderly ∧ m.Evolves m' ∧ e.Expected

namespace Settles

variable {α β : Type} {m : Machine}

theorem done {P : Machine → α → Prop} (ho : m.Orderly) {a : α} (ha : P m a) :
    m.Settles P (.ok a m) :=
  ⟨ho, .refl m, ha⟩

theorem failing {P : Machine → α → Prop} (ho : m.Orderly) {e : Halt} (he : e.Expected) :
    m.Settles P (.error e m) :=
  ⟨ho, .refl m, he⟩

/-- Fails with a message that shows a value. -/
theorem failingWith {P : Machine → α → Prop} (ho : m.Orderly) {v : Ref} {t : Tree}
    (hu : m.heap.Unfolds v t) {operator : String} {cause : Tree → Cause}
    (hcause : (cause t).foreignToCode = false) (hframe : ∀ x y, cause t ≠ .argumentCount x y)
    (hshown : (cause t).shown = [t]) :
    m.Settles P ((view v >>= fun t => fail operator (cause t)) m) := by
  show m.Settles P (.error (.error ⟨operator, cause (m.heap.view v)⟩) m)
  rw [hu.view_eq]
  exact failing ho (.showing hcause hframe hshown hu.intact)

theorem final {P : Machine → α → Prop} {r : EStateM.Result Halt Machine α} (hr : m.Settles P r) :
    (finalMachine r).Orderly := by
  cases r with
  | ok a m' => exact hr.1
  | error e m' => exact hr.1

theorem mono {m' : Machine} {P : Machine → α → Prop} {r : EStateM.Result Halt Machine α}
    (hs : m.Sound) (he : m.Evolves m') (hr : m'.Settles P r) : m.Settles P r := by
  cases r with
  | ok a m'' => exact ⟨hr.1, he.trans hs hr.2.1, hr.2.2⟩
  | error e m'' => exact ⟨hr.1, he.trans hs hr.2.1, hr.2.2⟩

theorem weaken {P Q : Machine → α → Prop} {r : EStateM.Result Halt Machine α}
    (hr : m.Settles P r) (hPQ : ∀ m' a, P m' a → Q m' a) : m.Settles Q r := by
  cases r with
  | ok a m' => exact ⟨hr.1, hr.2.1, hPQ m' a hr.2.2⟩
  | error e m' => exact hr

theorem bind {P : Machine → α → Prop} {Q : Machine → β → Prop} {x : EvalM α} {f : α → EvalM β}
    (hs : m.Sound) (hx : m.Settles P (x m))
    (hf : ∀ m' a, m'.Orderly → m.Evolves m' → P m' a → m'.Settles Q (f a m')) :
    m.Settles Q ((x >>= f) m) := by
  cases hrun : x m with
  | ok a m' =>
      rw [hrun] at hx
      obtain ⟨ho, he, ha⟩ := hx
      rw [bind_ok hrun]
      exact (hf m' a ho he ha).mono hs he
  | error e m' =>
      rw [hrun] at hx
      rw [bind_error hrun]
      exact hx

/-- A run settles if it agrees with one on immutable values that does. -/
theorem of_agrees {R : Machine → α → β → Prop} {P Q : Machine → α → Prop}
    {r : EStateM.Result Halt Machine α} {r' : EStateM.Result Halt Reference.Env β}
    (hr : m.Agrees R r r') (hends : m.Ends Q r)
    (hok : ∀ b env, r' = .ok b env → env.Whole ∧ ∀ m' a, R m' a b → P m' a)
    (herror : ∀ e env, r' = .error e env → env.Whole ∧ e.Expected) : m.Settles P r := by
  cases r with
  | ok a m' =>
      obtain ⟨b, env, hb, hs', he', hm', hR⟩ := hr
      obtain ⟨hwhole, hP⟩ := hok b env hb
      exact ⟨⟨hs', env, hm', hwhole⟩, he', hP m' a hR⟩
  | error e m' =>
      rcases hr with hr | ⟨env, henv, hs', he', hm'⟩
      · exact absurd hr hends.2.2
      · obtain ⟨hwhole, hexpected⟩ := herror e env henv
        exact ⟨⟨hs', env, hm', hwhole⟩, he', hexpected⟩

/-- Makes a whole value and leaves the environment alone. -/
theorem making {x : EvalM Ref} {w : Ref} {h : Heap} {t : Tree} {Q : Machine → Ref → Prop}
    (ho : m.Orderly)
    (hx : m.Operates False x fun m' v => Q m' v ∧ v = w ∧ m'.heap = h ∧ m'.scope = m.scope)
    (hok : ∃ v m', x m = .ok v m') (he : m.heap.Extends h) (hu : h.Unfolds w t) (ht : t.Whole) :
    m.Settles (fun m' v => Q m' v ∧ m'.HasWhole v) (x m) := by
  obtain ⟨env, hm, henv⟩ := ho.bound
  refine of_agrees (Agrees.making ho.sound hm hx hok he hu) hx.ends (fun b env' heq => ?_)
    fun e env' heq => by cases heq
  cases heq
  exact ⟨henv, fun m' v hv => ⟨hv.1, t, hv.2, ht⟩⟩

end Settles

end Machine

/-- Whether a way to evaluate gives whole values of code, and keeps machines orderly. -/
def Evaluator.Settles (ev : Evaluator) : Prop :=
  ∀ v (m : Machine), m.Orderly → m.HasCode v → m.Settles HasWhole (ev v m)

section

variable {m : Machine} {ev : Evaluator}

/-! ## Arguments -/

theorem argumentList_settles (ho : m.Orderly) {v : Ref} (hv : m.HasCodes v) (operator : String) :
    m.Settles (fun m' vs => ∀ w ∈ vs, m'.HasCode w) (argumentList operator v m) := by
  obtain ⟨vs, hvs, hcode⟩ := hv.elements?
  unfold argumentList
  rw [see_bind, hvs]
  exact .done ho hcode

theorem oneArgument_settles (ho : m.Orderly) {operator : String} (hop : operator ≠ "") {v : Ref}
    (hv : m.HasCodes v) : m.Settles HasCode (oneArgument operator v m) := by
  refine .bind ho.sound (argumentList_settles ho hv operator) ?_
  intro m₁ vs ho₁ _ hcode
  match vs with
  | [w] => exact .done ho₁ (hcode w List.mem_cons_self)
  | [] => exact .failing ho₁ (.count hop)
  | _ :: _ :: _ => exact .failing ho₁ (.count hop)

theorem twoArguments_settles (ho : m.Orderly) {operator : String} (hop : operator ≠ "") {v : Ref}
    (hv : m.HasCodes v) :
    m.Settles (fun m' p => m'.HasCode p.1 ∧ m'.HasCode p.2) (twoArguments operator v m) := by
  refine .bind ho.sound (argumentList_settles ho hv operator) ?_
  intro m₁ vs ho₁ _ hcode
  match vs with
  | [w, w'] => exact .done ho₁ ⟨hcode w (by simp), hcode w' (by simp)⟩
  | [] => exact .failing ho₁ (.count hop)
  | [_] => exact .failing ho₁ (.count hop)
  | _ :: _ :: _ :: _ => exact .failing ho₁ (.count hop)

theorem evalOne_settles (hev : ev.Settles) (ho : m.Orderly) {operator : String}
    (hop : operator ≠ "") {v : Ref} (hv : m.HasCodes v) :
    m.Settles HasWhole (evalOne ev operator v m) :=
  .bind ho.sound (oneArgument_settles ho hop hv) fun m₁ w ho₁ _ hw => hev w m₁ ho₁ hw

theorem evalTwo_settles (hev : ev.Settles) (ho : m.Orderly) {operator : String}
    (hop : operator ≠ "") {v : Ref} (hv : m.HasCodes v) :
    m.Settles (fun m' p => m'.HasWhole p.1 ∧ m'.HasWhole p.2) (evalTwo ev operator v m) := by
  refine .bind ho.sound (twoArguments_settles ho hop hv) ?_
  intro m₁ p ho₁ _ hp
  refine .bind ho₁.sound (hev p.1 m₁ ho₁ hp.1) ?_
  intro m₂ w ho₂ he₂ hw
  refine .bind ho₂.sound (hev p.2 m₂ ho₂ (he₂.hasCode ho₁.sound hp.2)) ?_
  intro m₃ w' ho₃ he₃ hw'
  exact .done ho₃ ⟨he₃.hasWhole ho₂.sound hw, hw'⟩

theorem numberAt_settles (ho : m.Orderly) (operator : String) (position : Nat) {v : Ref}
    (hv : m.HasWhole v) : m.Settles (fun _ _ => True) (numberAt operator position v m) := by
  obtain ⟨t, hu, _⟩ := hv
  unfold numberAt
  rw [see_bind]
  cases (m.heap.cell? v).bind Cell.number? with
  | some n => exact .done ho trivial
  | none => exact .failingWith ho hu rfl (by simp) rfl

theorem evalNumbers_settles (hev : ev.Settles) (ho : m.Orderly) {operator : String}
    (hop : operator ≠ "") {v : Ref} (hv : m.HasCodes v) :
    m.Settles (fun _ _ => True) (evalNumbers ev operator v m) := by
  refine .bind ho.sound (evalTwo_settles hev ho hop hv) ?_
  intro m₁ p ho₁ _ hp
  refine .bind ho₁.sound (numberAt_settles ho₁ operator 1 hp.1) ?_
  intro m₂ a ho₂ he₂ _
  refine .bind ho₂.sound (numberAt_settles ho₂ operator 2 (he₂.hasWhole ho₁.sound hp.2)) ?_
  intro m₃ b ho₃ _ _
  exact .done ho₃ trivial

/-! ## Making values -/

theorem make_settles (ho : m.Orderly) {d : Datum} {t : Tree}
    (hd : ∀ k ∈ d.parts, (∃ a, k = .value a) ∧ m.heap.Live k)
    (hu : (m.heap.new d).2.Unfolds (m.heap.new d).1 t) (ht : t.Whole) :
    m.Settles HasWhole (make d m) :=
  (Settles.making ho (operates_make ho.sound hd) ⟨_, _, rfl⟩ (Heap.extends_new _ d) hu ht).weaken
    fun _ _ h => h.2

theorem makeNil_settles (ho : m.Orderly) : m.Settles HasWhole (make .nil m) :=
  make_settles ho (fun _ hk => absurd hk List.not_mem_nil) (Heap.unfolds_nil m.heap) Tree.whole_nil

theorem makeBool_settles (ho : m.Orderly) (b : Bool) : m.Settles HasWhole (makeBool b m) := by
  cases b with
  | false => exact makeNil_settles ho
  | true =>
      exact make_settles (d := .truth) (t := .atom truthName) ho
        (fun _ hk => absurd hk List.not_mem_nil) (.atom (Heap.cell_new m.heap _)) trivial

theorem makePair_settles (ho : m.Orderly) {v w : Ref} (hv : m.HasWhole v) (hw : m.HasWhole w) :
    m.Settles HasWhole (make (.pair v w) m) := by
  obtain ⟨t, hu, ht⟩ := hv
  obtain ⟨t', hu', ht'⟩ := hw
  refine make_settles ho (fun k hk => ?_) (Heap.unfolds_newPair hu hu') (Or.inr ⟨ht, ht'⟩)
  rcases List.mem_append.mp hk with hk | hk
  · obtain ⟨a, rfl, rfl⟩ := Node.mem_ofRef.mp hk
    exact ⟨⟨a, rfl⟩, Heap.liveRef_some.mp hu.liveRef⟩
  · obtain ⟨a, rfl, rfl⟩ := Node.mem_ofRef.mp hk
    exact ⟨⟨a, rfl⟩, Heap.liveRef_some.mp hu'.liveRef⟩

/-! ## Fields, names and clauses -/

theorem field_settles (ho : m.Orderly) (operator : String) {v : Ref} (hv : m.HasWhole v)
    {part : Cell → Ref} (part' : Tree → Tree → Tree)
    (hpart : ∀ a car cdr t u, m.heap.cell a = .live (.pair car cdr) → m.heap.Unfolds car t →
      m.heap.Unfolds cdr u → m.heap.Unfolds (part (m.heap.cell a)) (part' t u))
    (hwhole : ∀ t u, (Tree.pair t u).Whole → part' t u = .absent ∨ (part' t u).Whole) :
    m.Settles HasWhole (field operator v part m) := by
  obtain ⟨t, hu, ht⟩ := hv
  unfold field
  rw [see_bind]
  cases v with
  | none => exact makeNil_settles ho
  | some a =>
      rw [Heap.cell?, Option.map_some]
      dsimp only
      by_cases hkind : ((m.heap.cell a).kind != .pair) = true
      · rw [if_pos hkind]
        exact .failing ho (.plain rfl (by simp) rfl)
      · rw [if_neg hkind]
        rw [hu.cell.1] at hkind
        cases hu with
        | @pair a car cdr t u hcell hcar hcdr =>
            have hfield := hpart a car cdr t u hcell hcar hcdr
            generalize part (m.heap.cell a) = w at hfield
            cases w with
            | none => exact makeNil_settles ho
            | some b =>
                refine .done ho ⟨_, hfield, ?_⟩
                rcases hwhole t u ht with habsent | hw
                · exact absurd (hfield.none_iff.mpr habsent) (by simp)
                · exact hw
        | @number a x _ => cases x <;> exact absurd rfl hkind
        | atom | primitive | closure => exact absurd rfl hkind

theorem settableName_settles (ho : m.Orderly) {v : Ref} (hv : m.HasWhole v) :
    m.Settles (fun _ _ => True) (settableName v m) := by
  obtain ⟨t, hu, -⟩ := hv
  unfold settableName
  rw [see_bind]
  cases v with
  | none => exact .failing ho (.showing rfl (by simp) rfl (by rw [Tree.intact]))
  | some a =>
      rw [Heap.cell?, Option.map_some]
      dsimp only
      split
      · exact .failingWith ho hu rfl (by simp) rfl
      · split
        · exact .failingWith ho hu rfl (by simp) rfl
        · exact .done ho trivial

theorem evalClauses_settles (hev : ev.Settles) (ho : m.Orderly) {arguments tail : Ref}
    {clauses : List Ref} (ht : m.heap.Unfolds tail .nil) (hc : ∀ v ∈ clauses, m.HasCode v)
    (position : Nat) : m.Settles HasWhole (evalClauses ev arguments tail position clauses m) := by
  induction clauses generalizing m position with
  | nil =>
      rw [evalClauses, see_bind, ht.isNil_eq]
      exact makeNil_settles ho
  | cons clause clauses ih =>
      have hclause := hc clause List.mem_cons_self
      have hparts := hclause.elements?
      obtain ⟨t, hu, -⟩ := hclause
      rw [evalClauses, see_bind]
      generalize m.heap.elements? clause = vs at hparts
      rcases vs with _ | _ | ⟨predicate, _ | ⟨value, _ | _⟩⟩
      -- only a clause of two parts is looked at
      case some.cons.cons.nil =>
          have hvalue := hparts _ rfl value (by simp)
          refine .bind ho.sound (hev predicate m ho (hparts _ rfl predicate (by simp))) ?_
          intro m₁ p ho₁ he₁ _
          rw [see_bind]
          split
          · exact ih ho₁ (he₁.unfolds ho.sound ht)
              (fun v hv => he₁.hasCode ho.sound (hc v (List.mem_cons_of_mem _ hv))) (position + 1)
          · exact hev value m₁ ho₁ (he₁.hasCode ho.sound hvalue)
      all_goals exact .failingWith ho hu rfl (by simp) rfl

/-! ## The environment -/

theorem environmentList_settles (ho : m.Orderly) : m.Settles HasWhole (environmentList m) := by
  obtain ⟨env, hm, henv⟩ := ho.bound
  have hprogram : Program False False m (fun _ => environmentList) _ :=
    environmentList_program ho.sound
  have hends := hprogram.ends (eval_keeps 0) ho.sound
  refine .of_agrees (environmentList_agrees ho.sound hm) hends (fun b env' heq => ?_)
    fun e env' heq => by cases heq
  cases heq
  refine ⟨henv, fun m' v hv => ⟨_, hv, Tree.whole_ofList fun t ht => ?_⟩⟩
  obtain ⟨e, he, rfl⟩ := List.mem_map.mp ht
  exact Or.inr ⟨trivial, henv e he⟩

theorem assign_settles (ho : m.Orderly) (name : String) {v : Ref} (hv : m.HasWhole v) :
    m.Settles HasWhole (assign name v m) := by
  obtain ⟨env, hm, henv⟩ := ho.bound
  obtain ⟨t, hu, ht⟩ := hv
  refine .of_agrees (assign_agrees ho.sound hm name hu) (assign_ends ho.sound hu.liveRef name)
    (fun b env' heq => ?_) fun e env' heq => by cases heq
  cases heq
  exact ⟨Reference.whole_update henv name ht, fun m' w hw => ⟨t, hw, ht⟩⟩

/-! ## Closures -/

theorem makeClosure_settles (ho : m.Orderly) {params body : Ref} (hp : m.HasCode params)
    (hb : m.HasCode body) : m.Settles HasWhole (makeClosure params body m) := by
  obtain ⟨env, hm, henv⟩ := ho.bound
  obtain ⟨t, hparams, ht⟩ := hp
  obtain ⟨u, hbody, hu⟩ := hb
  have hprogram : Program False False m (fun _ => makeClosure params body) _ :=
    makeClosure_program ho.sound hparams.liveRef hbody.liveRef
  have hends := hprogram.ends (eval_keeps 0) ho.sound
  have hagrees := makeClosure_agrees ho.sound hm hparams hbody
  unfold Reference.makeClosure at hagrees
  cases hfault : t.paramsFault? with
  | some cause =>
      rw [hfault] at hagrees
      refine .of_agrees hagrees hends (fun b env' heq => by cases heq) fun e env' heq => ?_
      cases heq
      exact ⟨henv, ht.paramsFault?_expected hfault⟩
  | none =>
      rw [hfault] at hagrees
      refine .of_agrees hagrees hends (fun b env' heq => ?_) fun e env' heq => by cases heq
      cases heq
      have hempty : Reference.Env.Whole [] := fun e he => absurd he List.not_mem_nil
      have hcaptured := Reference.whole_capture henv (t.freeNames u) hempty
      exact ⟨henv, fun m' v hv => ⟨_, hv, hu, Reference.whole_toScope hcaptured⟩⟩

/-- Whether a value is whole and everything it holds is registered. -/
def Machine.Takes (m : Machine) (v : Ref) : Prop := ∃ t, m.Passes v t ∧ t.Whole

theorem Machine.Evolves.takes {m m' : Machine} (he : m.Evolves m') (hs : m.Sound) {v : Ref}
    (hv : m.Takes v) : m'.Takes v := by
  obtain ⟨t, hp, ht⟩ := hv
  exact ⟨t, he.passes hs hp, ht⟩

theorem passArgument_settles (hev : ev.Settles) (ho : m.Orderly) {v : Ref} (hv : m.HasCode v) :
    m.Settles Takes (passArgument ev v m) := by
  show m.Settles Takes ((ev v >>= handOver) m)
  refine .bind ho.sound (hev v m ho hv) ?_
  intro m₁ w ho₁ _ hw
  obtain ⟨t, hu, ht⟩ := hw
  have hop : m₁.Operates False _ _ := (operates_handOver ho₁.sound hu.liveRef).weaken
    (Q := fun m' v => m'.Handed v ∧ v = (m₁.heap.copy w).1 ∧ m'.heap = (m₁.heap.copy w).2 ∧
      m'.scope = m₁.scope) fun _ _ h => h.2
  refine (Settles.making ho₁ hop ⟨_, _, rfl⟩ (Heap.copy_copies hu.liveRef).grown hu.copy ht).weaken ?_
  intro m' w' hw'
  obtain ⟨hhanded, t', hu', ht'⟩ := hw'
  exact ⟨t', ⟨hhanded, hu'⟩, ht'⟩

theorem passArguments_settles (hev : ev.Settles) (ho : m.Orderly) {vs : List Ref}
    (hvs : ∀ v ∈ vs, m.HasCode v) :
    m.Settles (fun m' ws => ∀ w ∈ ws, m'.Takes w) (vs.mapM (passArgument ev) m) := by
  induction vs generalizing m with
  | nil => exact .done ho fun w hw => absurd hw List.not_mem_nil
  | cons v vs ih =>
      rw [List.mapM_cons]
      refine .bind ho.sound (passArgument_settles hev ho (hvs v List.mem_cons_self)) ?_
      intro m₁ w ho₁ he₁ hw
      refine .bind ho₁.sound (ih ho₁ fun v' hv' =>
        he₁.hasCode ho.sound (hvs v' (List.mem_cons_of_mem _ hv'))) ?_
      intro m₂ ws ho₂ he₂ hws
      refine .done ho₂ fun w' hw' => ?_
      rcases List.mem_cons.mp hw' with rfl | hw'
      · exact he₂.takes ho₁.sound hw
      · exact hws w' hw'

/-- Coming back from a call, the environment is the caller's. -/
theorem Machine.Settles.leave {m' : Machine} {call : Chain} {body : Ref} (ho : m.Orderly)
    (hscope : m'.scope = m.scope) (hc : m.Calls { m' with scope := call })
    (hr : Settles { m' with scope := call } HasWhole (ev body { m' with scope := call })) :
    m.Settles HasWhole (inScope call (ev body) m') := by
  have hleave : ∀ m'', m''.Orderly → Evolves { m' with scope := call } m'' →
      Orderly { m'' with scope := m.scope } ∧ m.Evolves { m'' with scope := m.scope } := by
    intro m'' ho'' he
    obtain ⟨env, hm, henv⟩ := ho.bound
    obtain ⟨left, hleft, hwhole⟩ := ho''.bound
    obtain ⟨hs', he'⟩ := ho.sound.leave hc he ho''.sound
    exact ⟨⟨hs', _, hm.leave ho.sound hc he hleft, fun e hmem =>
      hwhole e (List.mem_of_mem_drop hmem)⟩, he'⟩
  rw [inScope_eq, hscope]
  cases hend : ev body { m' with scope := call } with
  | ok w m'' =>
      rw [hend] at hr
      obtain ⟨ho', he'⟩ := hleave m'' hr.1 hr.2.1
      exact ⟨ho', he', hr.2.2⟩
  | error e m'' =>
      rw [hend] at hr
      obtain ⟨ho', he'⟩ := hleave m'' hr.1 hr.2.1
      exact ⟨ho', he', hr.2.2⟩

theorem Heap.Unfolds.eq_closure {h : Heap} {o : Addr} {c : Closure} {t : Tree}
    (hu : h.Unfolds (some o) t) (hcell : h.cell o = .live (.closure c)) :
    ∃ params body s, t = .closure params body s := by
  cases hu with
  | closure => exact ⟨_, _, _, rfl⟩
  | atom hcell' | number hcell' | primitive hcell' | pair hcell' =>
      rw [hcell] at hcell'
      cases hcell'

theorem call_settles (hev : ev.Settles) (ho : m.Orderly) {c : Closure} {ns values : List Ref}
    {names : List String} {body : Tree} {s : Scope} (hparams : m.heap.LiveRef c.params)
    (hns : m.heap.elements? c.params = some ns)
    (hnames : List.Forall₂ m.heap.Unfolds ns (names.map .atom))
    (hvalues : ∀ v ∈ values, m.Takes v) (hlength : ns.length = values.length)
    (hbody : m.heap.Unfolds c.body body) (hcode : body.Code)
    (hcaptured : m.heap.UnfoldsChain c.captured s) (hs : s.Whole) :
    m.Settles HasWhole ((callScope c values >>= fun call => inScope call (ev c.body)) m) := by
  obtain ⟨env, hm, henv⟩ := ho.bound
  obtain ⟨ts, hpassed, hwhole⟩ := exists_related hvalues
  obtain ⟨call, m', hcall, hscope, hs', hc, hgrown, hm'⟩ :=
    callScope_models ho.sound hm hparams hns hnames hpassed hlength hcaptured
  have henv' := Reference.Env.whole_append (Reference.Env.whole_append
    (Reference.whole_ofScope hs) (Reference.whole_zip names hwhole)) henv
  rw [bind_ok hcall]
  exact .leave ho hscope hc (hev c.body _ ⟨hs', _, hm', henv'⟩ ⟨body, hgrown.unfolds hbody, hcode⟩)

theorem applyClosure_settles (hev : ev.Settles) (ho : m.Orderly) {o : Addr} {c : Closure}
    {arguments : Ref} (hcell : m.heap.cell o = .live (.closure c)) (hclosure : m.HasWhole (some o))
    (ha : m.HasCodes arguments) : m.Settles HasWhole (applyClosure ev c arguments m) := by
  obtain ⟨t, hu, ht⟩ := hclosure
  obtain ⟨params, body, s, rfl⟩ := hu.eq_closure hcell
  obtain ⟨hcode, hwhole⟩ := ht
  obtain ⟨given, hgiven, hcodes⟩ := ha.elements?
  obtain ⟨hparams, ⟨names, hnames⟩, -, -⟩ := hu.closure_parts hcell
  obtain ⟨ns, hns, hunfolds⟩ := hparams.elements?_some hnames
  unfold applyClosure
  rw [see_bind, hgiven]
  dsimp only
  rw [see_bind, hns, Option.getD_some]
  by_cases hmany : ns.length < given.length
  · rw [if_pos hmany]
    exact .failing ho (.plain rfl (by simp) rfl)
  rw [if_neg hmany]
  have hpass := passArguments_settles hev ho hcodes
  cases hrun : given.mapM (passArgument ev) m with
  | error e m₁ =>
      rw [hrun] at hpass
      rw [bind_error hrun]
      exact hpass
  | ok values m₁ =>
      rw [hrun] at hpass
      obtain ⟨ho₁, he₁, hvalues⟩ := hpass
      have hlength := length_of_mapM hrun
      rw [bind_ok hrun]
      refine .mono ho.sound he₁ ?_
      -- the closure is a value, so it is as it was
      have hcell₁ : m₁.heap.cell o = .live (.closure c) :=
        (he₁.cell o (Heap.liveRef_some.mp hu.liveRef).has).trans hcell
      obtain ⟨hparams₁, -, hbody₁, hcaptured₁⟩ := (he₁.unfolds ho.sound hu).closure_parts hcell₁
      by_cases hfew : values.length < ns.length
      · rw [if_pos hfew]
        obtain ⟨ts, hpassed, hts⟩ := exists_related hvalues
        have hunfolds₁ := hunfolds.imp fun _ _ => he₁.unfolds ho.sound
        have hlive := Heap.liveRef_of_unfolds hunfolds₁
        have hgrown := (Heap.newPartial_builds hlive hbody₁.liveRef hcaptured₁.liveChain
          fun v hv => (passes_live hpassed v hv).1).grown
        have hmade := Heap.newPartial_unfolds hunfolds₁ (hpassed.imp fun _ _ => And.right) hbody₁
          hcaptured₁
        have hcaptured : Scope.Whole (Reference.toScope ((names.zip ts).reverse ++
            Reference.ofScope s)) :=
          Reference.whole_toScope (Reference.Env.whole_append
            (fun e he => Reference.whole_zip _ hts e (List.mem_reverse.mp he))
            (Reference.whole_ofScope hwhole))
        exact (Settles.making ho₁ (operates_makePartial ho₁.sound hlive hbody₁.liveRef
          hcaptured₁.liveChain (passes_live hpassed)) ⟨_, _, rfl⟩ hgrown hmade
          ⟨hcode, hcaptured⟩).weaken fun _ _ h => h.2
      · rw [if_neg hfew]
        obtain ⟨ns₁, hns₁, hunfolds₁⟩ := hparams₁.elements?_some hnames
        refine call_settles hev ho₁ hparams₁.liveRef hns₁ hunfolds₁ hvalues ?_ hbody₁ hcode
          hcaptured₁ hwhole
        have hsame := hunfolds₁.length_eq
        have hsame' := hunfolds.length_eq
        omega

/-! ## The built-in operations -/

theorem makeCons_settles (ho : m.Orderly) {v w : Ref} (hv : m.HasWhole v) (hw : m.HasWhole w) :
    m.Settles HasWhole ((see (·.cell? w) >>= fun c? => match c? with
      | some c => if c.kind != .pair then fail "cons" (.secondNotAList c.kind) else make (.pair v w)
      | none => make (.pair v w)) m) := by
  rw [see_bind]
  cases m.heap.cell? w with
  | none => exact makePair_settles ho hv hw
  | some c =>
      dsimp only
      split
      · exact .failing ho (.plain rfl (by simp) rfl)
      · exact makePair_settles ho hv hw

theorem run_settles (hev : ev.Settles) (ho : m.Orderly) {arguments : Ref}
    (ha : m.HasCodes arguments) (b : Builtin) : m.Settles HasWhole (b.run ev arguments m) := by
  cases b with
  | quote => exact (oneArgument_settles ho (by decide) ha).weaken fun _ _ hv => hv.whole
  | atom =>
      refine .bind ho.sound (evalOne_settles hev ho (by decide) ha) ?_
      intro m₁ v ho₁ _ _
      exact makeBool_settles ho₁ _
  | eq =>
      refine .bind ho.sound (evalTwo_settles hev ho (by decide) ha) ?_
      intro m₁ p ho₁ _ _
      exact makeBool_settles ho₁ _
  | car =>
      refine .bind ho.sound (evalOne_settles hev ho (by decide) ha) ?_
      intro m₁ v ho₁ _ hv
      refine field_settles ho₁ "car" hv (fun t _ => t) (fun a car cdr t u hcell hcar _ => ?_)
        fun t u hw => hw.fields.1
      rw [hcell]
      exact hcar
  | cdr =>
      refine .bind ho.sound (evalOne_settles hev ho (by decide) ha) ?_
      intro m₁ v ho₁ _ hv
      refine field_settles ho₁ "cdr" hv (fun _ u => u) (fun a car cdr t u hcell _ hcdr => ?_)
        fun t u hw => hw.fields.2
      rw [hcell]
      exact hcdr
  | cons =>
      refine .bind ho.sound (evalTwo_settles hev ho (by decide) ha) ?_
      intro m₁ p ho₁ _ hp
      exact makeCons_settles ho₁ hp.1 hp.2
  | cond =>
      obtain ⟨ts, hu, hts⟩ := ha
      have hspine := hu.spine
      rw [Tree.spine_ofList] at hspine
      exact evalClauses_settles hev ho hspine.2 (forall_of_trees hspine.1 hts) 1
  | set =>
      refine .bind ho.sound (evalTwo_settles hev ho (by decide) ha) ?_
      intro m₁ p ho₁ _ hp
      refine .bind ho₁.sound (settableName_settles ho₁ hp.1) ?_
      intro m₂ name ho₂ he₂ _
      exact assign_settles ho₂ name (he₂.hasWhole ho₁.sound hp.2)
  | env =>
      refine .bind ho.sound (argumentList_settles ho ha "env") ?_
      intro m₁ vs ho₁ _ _
      cases vs with
      | nil => exact environmentList_settles ho₁
      | cons _ _ => exact .failing ho₁ (.count (by decide))
  | lambda =>
      refine .bind ho.sound (twoArguments_settles ho (by decide) ha) ?_
      intro m₁ p ho₁ _ hp
      exact makeClosure_settles ho₁ hp.1 hp.2
  | macroDefinition => exact .failing ho (.plain rfl (by simp) rfl)
  | arith op =>
      refine .bind ho.sound (evalNumbers_settles hev ho (by cases op <;> decide) ha) ?_
      intro m₁ p ho₁ _ _
      dsimp only
      cases op.apply p.1 p.2 with
      | none => exact .failing ho₁ (.plain rfl (by simp) rfl)
      | some n =>
          exact make_settles (d := .number n) ho₁ (fun _ hk => absurd hk List.not_mem_nil)
            (.number (Heap.cell_new m₁.heap _)) trivial
  | compare relation =>
      refine .bind ho.sound (evalNumbers_settles hev ho (by cases relation <;> decide) ha) ?_
      intro m₁ p ho₁ _ _
      exact makeBool_settles ho₁ _
  | arguments => exact .done ho ha.whole

/-! ## Evaluation -/

theorem apply_settles (hev : ev.Settles) (ho : m.Orderly) {operator arguments : Ref}
    (hoperator : m.HasWhole operator) (ha : m.HasCodes arguments) :
    m.Settles HasWhole (apply ev operator arguments m) := by
  obtain ⟨t, hu, ht⟩ := hoperator
  have hu' := hu
  unfold apply
  rw [see_bind]
  cases hu with
  | absent => exact absurd rfl ht.ne_absent
  | atom hcell | number hcell | pair hcell =>
      rw [Heap.cell?, Option.map_some, hcell]
      exact .failingWith ho hu' rfl (by simp) rfl
  | primitive hcell =>
      rw [Heap.cell?, Option.map_some, hcell]
      exact run_settles hev ho ha _
  | closure hcell =>
      rw [Heap.cell?, Option.map_some, hcell]
      exact applyClosure_settles hev ho hcell ⟨_, hu', ht⟩ ha

theorem evalStep_settles (hev : ev.Settles) (ho : m.Orderly) {v : Ref} (hv : m.HasCode v) :
    m.Settles HasWhole (evalStep ev v m) := by
  obtain ⟨env, hm, henv⟩ := ho.bound
  have hv' := hv
  obtain ⟨t, hu, ht⟩ := hv
  have hu' := hu
  cases hu with
  | absent => exact absurd rfl ht.ne_absent
  | primitive | closure => cases ht
  | number hcell =>
      rw [evalStep, see_bind, Heap.cell?, Option.map_some, hcell]
      exact .done ho ⟨_, hu', trivial⟩
  | @atom a name hcell =>
      rw [evalStep, see_bind, Heap.cell?, Option.map_some, hcell]
      dsimp only
      by_cases htruth : (name == truthName) = true
      · rw [if_pos htruth]
        exact .done ho ⟨_, hu', trivial⟩
      · rw [if_neg htruth]
        rw [scope_bind, see_bind]
        have hlookup := Heap.lookup?_unfolds ho.sound.linked hm name
        generalize m.heap.lookup? m.scope name = value at hlookup
        generalize hfound : Reference.lookup? env name = found at hlookup
        cases hlookup with
        | none => exact .failing ho (.plain rfl (by simp) rfl)
        | some hvalue => exact .done ho ⟨_, hvalue, Reference.whole_of_lookup? henv hfound⟩
  | @pair a car cdr t u hcell hcar hcdr =>
      by_cases hnil : car = none ∧ cdr = none
      · obtain ⟨rfl, rfl⟩ := hnil
        rw [evalStep, see_bind, Heap.cell?, Option.map_some, hcell]
        exact .done ho ⟨_, hu', ht.whole⟩
      · rw [evalStep_pair hcell hnil]
        obtain ⟨hcode, hcodes⟩ := hv'.fields hcell hnil
        refine .bind ho.sound (hev car m ho hcode) ?_
        intro m₁ f ho₁ he₁ hf
        exact apply_settles hev ho₁ hf (he₁.hasCodes ho.sound hcodes)

end

/-- **Evaluating code on an orderly machine gives a whole value**, if it gives any. -/
theorem eval_settles (n : Nat) : (eval n).Settles := by
  induction n with
  | zero => exact fun v m ho _ => .failing ho trivial
  | succ n ih => exact fun v m ho hv => evalStep_settles ih ho hv

/-! ## Nested evaluations -/

/-- What code asks for is again code, on an orderly machine. -/
theorem Asks.orderly {ev : Evaluator} (hev : ev.Settles) {m : Machine} (ho : m.Orderly) {v : Ref}
    (hv : m.HasCode v) {w : Ref} {s : Machine} (hask : Asks (fun ev => evalStep ev v) ev m w s) :
    s.Orderly ∧ s.HasCode w := by
  refine Classical.byContradiction fun hnot => ?_
  -- otherwise evaluation could as well end there as no evaluation of code does
  have hsettles : (ev.haltingAt w s .dangling).Settles := by
    intro w' s' ho' hw'
    by_cases heq : w' = w ∧ s' = s
    · obtain ⟨rfl, rfl⟩ := heq
      exact absurd ⟨ho', hw'⟩ hnot
    · rw [Evaluator.haltingAt, if_neg heq]
      exact hev w' s' ho' hw'
  obtain ⟨m', hm'⟩ := hask
  have hends := evalStep_settles hsettles ho hv
  rw [show evalStep (ev.haltingAt w s .dangling) v m = .error .dangling m' from hm' .dangling] at hends
  exact hends.2.2

theorem Nested.orderly {n k : Nat} {v w : Ref} {m s : Machine} (ho : m.Orderly) (hv : m.HasCode v)
    (hw : Nested n v m k w s) : s.Orderly ∧ s.HasCode w := by
  induction hw with
  | whole => exact ⟨ho, hv⟩
  | part _ hask ih => exact hask.orderly (eval_settles _) ih.1 ih.2

end ArenaLisp
