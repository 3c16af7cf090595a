import ArenaLisp.Proofs.Evaluation
import ArenaLisp.Proofs.Faithful

/-!
# Runs that agree with those on immutable values

A machine *models* a list of entries when its environment binds their names to values that
unfold into theirs, in the same order. `Agrees` says that a run on the machine ends as a run
on the entries does: with a value that unfolds into the other's, or with the same error, and
on a machine that models the entries that are left.

The functions that the built-in operations are made of agree with their counterparts, given
ways to evaluate that do. A way to evaluate may also give up, which it says by the one halt
that no evaluation on a sound machine ends with.
-/

namespace ArenaLisp

open EvalM

theorem Reference.get_bind {α : Type} (k : Env → RefM α) (env : Env) :
    (get >>= k) env = k env env := rfl

namespace Machine

/-- Whether the environment binds what entries say, in their order. -/
def Models (m : Machine) (env : Reference.Env) : Prop := List.Forall₂ m.heap.Entry m.env env

theorem Evolves.unfolds {m m' : Machine} (he : m.Evolves m') (hs : m.Sound) {v : Ref} {t : Tree}
    (hu : m.heap.Unfolds v t) : m'.heap.Unfolds v t :=
  hu.congr fun _ hk => he.agree_of_holds hs hu.liveRef hk

theorem Models.of_extends {m m' : Machine} {env : Reference.Env} (hm : m.Models env) (hs : m.Sound)
    (he : m.heap.Extends m'.heap) (hscope : m'.scope = m.scope) : m'.Models env := by
  have henv : m'.env = m.env := by
    rw [Machine.env, hscope]
    exact hs.env_of_extends he
  rw [Models, henv]
  exact hm.imp fun _ _ => he.entry

/--
Whether a run that starts on a machine ends as another does. It may also have given up.
-/
def Agrees {α β : Type} (m : Machine) (R : Machine → α → β → Prop)
    (r : EStateM.Result Halt Machine α) (r' : EStateM.Result Halt Reference.Env β) : Prop :=
  match r with
  | .ok a m' => ∃ b env, r' = .ok b env ∧ m'.Sound ∧ m.Evolves m' ∧ m'.Models env ∧ R m' a b
  | .error e m' =>
    e = .dangling ∨ ∃ env, r' = .error e env ∧ m'.Sound ∧ m.Evolves m' ∧ m'.Models env

/-- Whether a value unfolds into a tree, on a machine. -/
def Denotes (m : Machine) (v : Ref) (t : Tree) : Prop := m.heap.Unfolds v t

namespace Agrees

variable {α β γ δ : Type} {m : Machine} {env : Reference.Env}

theorem done {R : Machine → α → β → Prop} (hs : m.Sound) (hm : m.Models env) {a : α} {b : β}
    (hR : R m a b) : m.Agrees R (.ok a m) (.ok b env) :=
  ⟨b, env, rfl, hs, .refl m, hm, hR⟩

theorem failing {R : Machine → α → β → Prop} (hs : m.Sound) (hm : m.Models env) {e : Halt} :
    m.Agrees R (.error e m) (.error e env) :=
  Or.inr ⟨env, rfl, hs, .refl m, hm⟩

theorem failingWith {R : Machine → α → β → Prop} (hs : m.Sound) (hm : m.Models env) {v : Ref}
    {t : Tree} (hu : m.heap.Unfolds v t) {operator : String} {cause : Tree → Cause} :
    m.Agrees R ((view v >>= fun t => fail operator (cause t)) m)
      (Reference.fail operator (cause t) env) := by
  show m.Agrees R (.error (.error ⟨operator, cause (m.heap.view v)⟩) m) _
  rw [hu.view_eq]
  exact failing hs hm

theorem mono {m' : Machine} {R : Machine → α → β → Prop} {r : EStateM.Result Halt Machine α}
    {r' : EStateM.Result Halt Reference.Env β} (hs : m.Sound) (he : m.Evolves m')
    (hr : m'.Agrees R r r') : m.Agrees R r r' := by
  cases r with
  | ok a m'' =>
      obtain ⟨b, env, hb, hs', he', hm, hR⟩ := hr
      exact ⟨b, env, hb, hs', he.trans hs he', hm, hR⟩
  | error e m'' =>
      rcases hr with hr | ⟨env, henv, hs', he', hm⟩
      · exact Or.inl hr
      · exact Or.inr ⟨env, henv, hs', he.trans hs he', hm⟩

theorem weaken {R Q : Machine → α → β → Prop} {r : EStateM.Result Halt Machine α}
    {r' : EStateM.Result Halt Reference.Env β} (hr : m.Agrees R r r')
    (hRQ : ∀ m' a b, R m' a b → Q m' a b) : m.Agrees Q r r' := by
  cases r with
  | ok a m' =>
      obtain ⟨b, env, hb, hs, he, hm, hR⟩ := hr
      exact ⟨b, env, hb, hs, he, hm, hRQ m' a b hR⟩
  | error e m' => exact hr

/-- Runs that agree go on to runs that agree. -/
theorem bind {R : Machine → α → β → Prop} {Q : Machine → γ → δ → Prop} {x : EvalM α}
    {y : Reference.RefM β} {f : α → EvalM γ} {g : β → Reference.RefM δ} (hs : m.Sound)
    (hx : m.Agrees R (x m) (y env))
    (hf : ∀ m' env' a b, m'.Sound → m.Evolves m' → m'.Models env' → R m' a b →
      x m = .ok a m' → m'.Agrees Q (f a m') (g b env')) :
    m.Agrees Q ((x >>= f) m) ((y >>= g) env) := by
  cases hrun : x m with
  | ok a m' =>
      rw [hrun] at hx
      obtain ⟨b, env', hy, hs', he, hm, hR⟩ := hx
      rw [bind_ok hrun, show (y >>= g) env = g b env' by simp only [Bind.bind, EStateM.bind, hy]]
      exact (hf m' env' a b hs' he hm hR hrun).mono hs he
  | error e m' =>
      rw [hrun] at hx
      rw [bind_error hrun]
      rcases hx with hx | ⟨env', hy, hs', he, hm⟩
      · exact Or.inl hx
      · rw [show (y >>= g) env = .error e env' by simp only [Bind.bind, EStateM.bind, hy]]
        exact Or.inr ⟨env', rfl, hs', he, hm⟩

/-- An operation that makes a value makes what the other run has. -/
theorem making {x : EvalM Ref} {w : Ref} {h : Heap} {t : Tree} {Q : Machine → Ref → Prop}
    (hs : m.Sound) (hm : m.Models env)
    (hx : m.Operates False x fun m' v => Q m' v ∧ v = w ∧ m'.heap = h ∧ m'.scope = m.scope)
    (hok : ∃ v m', x m = .ok v m') (he : m.heap.Extends h) (ht : h.Unfolds w t) :
    m.Agrees (fun m' v u => Q m' v ∧ m'.Denotes v u) (x m) (.ok t env) := by
  obtain ⟨v, m', hrun⟩ := hok
  have hends := hx.ends
  rw [hrun] at hends ⊢
  obtain ⟨hs', hev, hQ, rfl, hheap, hscope⟩ := hends
  refine ⟨t, env, rfl, hs', hev, hm.of_extends hs (hheap ▸ he) hscope, hQ, ?_⟩
  rw [Denotes, hheap]
  exact ht

end Agrees

end Machine

/-- Whether a way to evaluate agrees with another. -/
def Evaluator.Simulates (ev : Evaluator) (rev : Reference.Meaning) : Prop :=
  ∀ v (m : Machine) t env, m.Sound → m.Models env → m.heap.Unfolds v t →
    m.Agrees Machine.Denotes (ev v m) (rev t env)

open Machine

section

variable {m : Machine} {env : Reference.Env} {ev : Evaluator} {rev : Reference.Meaning}

/-! ## Arguments -/

/-- Values that unfold into trees, one by one. -/
def Machine.DenotesAll (m : Machine) (vs : List Ref) (ts : List Tree) : Prop :=
  List.Forall₂ m.heap.Unfolds vs ts

/-- Two values that unfold into two trees. -/
def Machine.DenotesBoth (m : Machine) (v : Ref × Ref) (t : Tree × Tree) : Prop :=
  m.Denotes v.1 t.1 ∧ m.Denotes v.2 t.2

theorem argumentList_agrees (hs : m.Sound) (hm : m.Models env) (operator : String) {v : Ref}
    {t : Tree} (hu : m.heap.Unfolds v t) :
    m.Agrees DenotesAll (argumentList operator v m) (Reference.argumentList operator t env) := by
  have helements := hu.elements?
  unfold argumentList Reference.argumentList
  rw [see_bind]
  generalize m.heap.elements? v = vs at helements
  generalize t.elements? = ts at helements
  cases helements with
  | none => exact .failingWith hs hm hu
  | some hvs => exact .done hs hm hvs

theorem oneArgument_agrees (hs : m.Sound) (hm : m.Models env) (operator : String) {v : Ref}
    {t : Tree} (hu : m.heap.Unfolds v t) :
    m.Agrees Denotes (oneArgument operator v m) (Reference.oneArgument operator t env) := by
  refine .bind hs (argumentList_agrees hs hm operator hu) fun m₁ env₁ vs ts hs₁ _ hm₁ hvs _ => ?_
  cases hvs with
  | nil => exact .failing hs₁ hm₁
  | cons hv hvs =>
      cases hvs with
      | nil => exact .done hs₁ hm₁ hv
      | cons hw hvs =>
          dsimp only
          rw [List.length_cons, List.length_cons, hvs.length_eq]
          exact .failing hs₁ hm₁

theorem twoArguments_agrees (hs : m.Sound) (hm : m.Models env) (operator : String) {v : Ref}
    {t : Tree} (hu : m.heap.Unfolds v t) :
    m.Agrees DenotesBoth (twoArguments operator v m) (Reference.twoArguments operator t env) := by
  refine .bind hs (argumentList_agrees hs hm operator hu) fun m₁ env₁ vs ts hs₁ _ hm₁ hvs _ => ?_
  cases hvs with
  | nil => exact .failing hs₁ hm₁
  | cons hv hvs =>
      cases hvs with
      | nil => exact .failing hs₁ hm₁
      | cons hw hvs =>
          cases hvs with
          | nil => exact .done hs₁ hm₁ ⟨hv, hw⟩
          | cons hx hvs =>
              dsimp only
              rw [List.length_cons, List.length_cons, List.length_cons, hvs.length_eq]
              exact .failing hs₁ hm₁

theorem evalOne_agrees (hev : ev.Simulates rev) (hs : m.Sound) (hm : m.Models env)
    (operator : String) {v : Ref} {t : Tree} (hu : m.heap.Unfolds v t) :
    m.Agrees Denotes (evalOne ev operator v m) (Reference.evalOne rev operator t env) :=
  .bind hs (oneArgument_agrees hs hm operator hu) fun m₁ env₁ w u hs₁ _ hm₁ hw _ =>
    hev w m₁ u env₁ hs₁ hm₁ hw

theorem evalTwo_agrees (hev : ev.Simulates rev) (hs : m.Sound) (hm : m.Models env)
    (operator : String) {v : Ref} {t : Tree} (hu : m.heap.Unfolds v t) :
    m.Agrees DenotesBoth (evalTwo ev operator v m) (Reference.evalTwo rev operator t env) := by
  refine .bind hs (twoArguments_agrees hs hm operator hu) ?_
  intro m₁ env₁ p q hs₁ _ hm₁ hpq _
  refine .bind hs₁ (hev p.1 m₁ q.1 env₁ hs₁ hm₁ hpq.1) ?_
  intro m₂ env₂ v₂ t₂ hs₂ he₂ hm₂ hv₂ _
  refine .bind hs₂ (hev p.2 m₂ q.2 env₂ hs₂ hm₂ (he₂.unfolds hs₁ hpq.2)) ?_
  intro m₃ env₃ v₃ t₃ hs₃ he₃ hm₃ hv₃ _
  exact .done hs₃ hm₃ ⟨he₃.unfolds hs₂ hv₂, hv₃⟩

theorem numberAt_agrees (hs : m.Sound) (hm : m.Models env) (operator : String) (position : Nat)
    {v : Ref} {t : Tree} (hu : m.heap.Unfolds v t) :
    m.Agrees (fun _ => Eq) (numberAt operator position v m)
      (Reference.numberAt operator position t env) := by
  have hnumber : (m.heap.cell? v).bind Cell.number? = t.number? := by
    cases v with
    | none =>
        cases hu
        rfl
    | some a => exact hu.cell.2.2
  unfold numberAt Reference.numberAt
  rw [see_bind, hnumber]
  cases t.number? with
  | none => exact .failingWith hs hm hu
  | some n => exact .done hs hm rfl

theorem evalNumbers_agrees (hev : ev.Simulates rev) (hs : m.Sound) (hm : m.Models env)
    (operator : String) {v : Ref} {t : Tree} (hu : m.heap.Unfolds v t) :
    m.Agrees (fun _ => Eq) (evalNumbers ev operator v m)
      (Reference.evalNumbers rev operator t env) := by
  refine .bind hs (evalTwo_agrees hev hs hm operator hu) ?_
  intro m₁ env₁ p q hs₁ _ hm₁ hpq _
  refine .bind hs₁ (numberAt_agrees hs₁ hm₁ operator 1 hpq.1) ?_
  rintro m₂ env₂ a b hs₂ he₂ hm₂ rfl _
  refine .bind hs₂ (numberAt_agrees hs₂ hm₂ operator 2 (he₂.unfolds hs₁ hpq.2)) ?_
  rintro m₃ env₃ c d hs₃ _ hm₃ rfl _
  exact .done hs₃ hm₃ rfl

/-! ## Making values -/

theorem make_agrees (hs : m.Sound) (hm : m.Models env) {d : Datum} {t : Tree}
    (hd : ∀ k ∈ d.parts, (∃ a, k = .value a) ∧ m.heap.Live k)
    (ht : (m.heap.new d).2.Unfolds (m.heap.new d).1 t) :
    m.Agrees Denotes (make d m) (.ok t env) :=
  (Agrees.making hs hm (operates_make hs hd) ⟨_, _, rfl⟩ (Heap.extends_new _ d) ht).weaken
    fun _ _ _ h => h.2

theorem makeNil_agrees (hs : m.Sound) (hm : m.Models env) :
    m.Agrees Denotes (make .nil m) (.ok .nil env) :=
  make_agrees hs hm (fun _ hk => absurd hk List.not_mem_nil) (Heap.unfolds_nil m.heap)

theorem makeBool_agrees (hs : m.Sound) (hm : m.Models env) (b : Bool) :
    m.Agrees Denotes (makeBool b m) (.ok (Reference.truth b) env) := by
  cases b with
  | false => exact makeNil_agrees hs hm
  | true =>
      exact make_agrees (d := .truth) hs hm (fun _ hk => absurd hk List.not_mem_nil)
        (.atom (Heap.cell_new m.heap _))

theorem makePair_agrees (hs : m.Sound) (hm : m.Models env) {v w : Ref} {t u : Tree}
    (hv : m.heap.Unfolds v t) (hw : m.heap.Unfolds w u) :
    m.Agrees Denotes (make (.pair v w) m) (.ok (.pair t u) env) := by
  refine make_agrees hs hm (fun k hk => ?_) (Heap.unfolds_newPair hv hw)
  rcases List.mem_append.mp hk with hk | hk
  · obtain ⟨a, rfl, rfl⟩ := Node.mem_ofRef.mp hk
    exact ⟨⟨a, rfl⟩, Heap.liveRef_some.mp hv.liveRef⟩
  · obtain ⟨a, rfl, rfl⟩ := Node.mem_ofRef.mp hk
    exact ⟨⟨a, rfl⟩, Heap.liveRef_some.mp hw.liveRef⟩

/-- Does something for every element of a list, while what is known of the others stays true. -/
theorem Machine.Agrees.mapping {α β γ δ : Type} {f : α → EvalM γ} {g : β → Reference.RefM δ}
    {I : Machine → α → β → Prop} {J : Machine → γ → δ → Prop}
    (hI : ∀ m m' a b, m.Sound → m.Evolves m' → I m a b → I m' a b)
    (hJ : ∀ m m' c d, m.Sound → m.Evolves m' → J m c d → J m' c d)
    (hf : ∀ m env a b, m.Sound → m.Models env → I m a b → m.Agrees J (f a m) (g b env))
    (hs : m.Sound) (hm : m.Models env) {xs : List α} {ys : List β}
    (hxs : List.Forall₂ (I m) xs ys) :
    m.Agrees (fun m' => List.Forall₂ (J m')) (xs.mapM f m) (ys.mapM g env) := by
  induction xs generalizing m env ys with
  | nil =>
      cases hxs
      exact .done hs hm .nil
  | cons x xs ih =>
      cases hxs with
      | cons hx hxs =>
          rw [List.mapM_cons, List.mapM_cons]
          refine .bind hs (hf m env x _ hs hm hx) ?_
          intro m₁ env₁ c d hs₁ he₁ hm₁ hc _
          refine .bind hs₁ (ih hs₁ hm₁ (hxs.imp fun a b => hI m m₁ a b hs he₁)) ?_
          intro m₂ env₂ cs ds hs₂ he₂ hm₂ hcs _
          exact .done hs₂ hm₂ (.cons (hJ m₁ m₂ c d hs₁ he₂ hc) hcs)

/-! ## Fields, names and clauses -/

theorem field_agrees (hs : m.Sound) (hm : m.Models env) (operator : String) {v : Ref} {t : Tree}
    (hu : m.heap.Unfolds v t) {part : Cell → Ref} {part' : Tree → Tree → Tree}
    (hpart : ∀ a car cdr t u, m.heap.cell a = .live (.pair car cdr) → m.heap.Unfolds car t →
      m.heap.Unfolds cdr u → m.heap.Unfolds (part (m.heap.cell a)) (part' t u)) :
    m.Agrees Denotes (field operator v part m) (Reference.field operator t part' env) := by
  unfold field
  rw [see_bind]
  cases v with
  | none =>
      cases hu
      exact makeNil_agrees hs hm
  | some a =>
      have hkind := hu.cell.1
      rw [Heap.cell?, Option.map_some]
      dsimp only
      rw [hkind]
      cases hu with
      | @pair a car cdr t u hcell hcar hcdr =>
          have hfield := hpart a car cdr t u hcell hcar hcdr
          rw [if_neg (by simp [Tree.kind]), Reference.field]
          generalize part (m.heap.cell a) = w at hfield
          generalize part' t u = x at hfield
          cases hfield with
          | absent => exact makeNil_agrees hs hm
          | atom hcell => exact .done hs hm (.atom hcell)
          | number hcell => exact .done hs hm (.number hcell)
          | primitive hcell => exact .done hs hm (.primitive hcell)
          | pair hcell hcar hcdr => exact .done hs hm (.pair hcell hcar hcdr)
          | closure hcell hparams hnames hbody hcaptured =>
              exact .done hs hm (.closure hcell hparams hnames hbody hcaptured)
      | number hcell =>
          rename_i x
          cases x <;> exact .failing hs hm
      | atom | primitive | closure => exact .failing hs hm

theorem settableName_agrees (hs : m.Sound) (hm : m.Models env) {v : Ref} {t : Tree}
    (hu : m.heap.Unfolds v t) :
    m.Agrees (fun _ => Eq) (settableName v m) (Reference.settableName t env) := by
  unfold settableName
  rw [see_bind]
  cases v with
  | none =>
      cases hu
      exact .failing hs hm
  | some a =>
      obtain ⟨hkind, hname, -⟩ := hu.cell
      rw [Heap.cell?, Option.map_some]
      dsimp only
      rw [hkind, hname]
      have hu' := hu
      cases hu with
      | atom hcell =>
          rename_i name
          rw [if_neg (by simp [Tree.kind]), Reference.settableName]
          by_cases htruth : ((Tree.atom name).name == truthName) = true
          · rw [if_pos htruth, if_pos (show (name == truthName) = true from htruth)]
            exact .failingWith hs hm hu'
          · rw [if_neg htruth, if_neg (show ¬(name == truthName) = true from htruth)]
            exact .done hs hm rfl
      | number hcell =>
          rename_i x
          cases x <;> exact .failingWith hs hm hu'
      | pair | primitive | closure => exact .failingWith hs hm hu'

theorem evalClauses_agrees (hev : ev.Simulates rev) (hs : m.Sound) (hm : m.Models env)
    {arguments tail : Ref} {t u : Tree} {clauses : List Ref} {ts : List Tree}
    (ha : m.heap.Unfolds arguments t) (ht : m.heap.Unfolds tail u)
    (hc : List.Forall₂ m.heap.Unfolds clauses ts) (position : Nat) :
    m.Agrees Denotes (evalClauses ev arguments tail position clauses m)
      (Reference.evalClauses rev t u position ts env) := by
  induction clauses generalizing m env position ts with
  | nil =>
      cases hc
      rw [evalClauses, see_bind, ht.isNil_eq, Reference.evalClauses]
      split
      · exact makeNil_agrees hs hm
      · exact .failingWith hs hm ha
  | cons clause clauses ih =>
      cases hc with
      | @cons _ w _ ts hclause hc =>
          have helements := hclause.elements?
          rw [evalClauses, see_bind, Reference.evalClauses]
          generalize m.heap.elements? clause = vs at helements
          generalize w.elements? = ws at helements
          cases helements with
          | none => exact .failingWith hs hm hclause
          | some hvs =>
              cases hvs with
              | nil => exact .failingWith hs hm hclause
              | cons hp hvs =>
                  cases hvs with
                  | nil => exact .failingWith hs hm hclause
                  | cons hv hvs =>
                      cases hvs with
                      | cons _ _ => exact .failingWith hs hm hclause
                      | nil =>
                          refine .bind hs (hev _ m _ env hs hm hp) ?_
                          intro m₁ env₁ p q hs₁ he₁ hm₁ hpq _
                          rw [see_bind, Heap.Unfolds.isNil_eq hpq]
                          split
                          · exact ih hs₁ hm₁ (he₁.unfolds hs ha) (he₁.unfolds hs ht)
                              (hc.imp fun _ _ => he₁.unfolds hs) (position + 1)
                          · exact hev _ m₁ _ env₁ hs₁ hm₁ (he₁.unfolds hs hv)

/-! ## The environment -/

theorem foldrPairs_agrees (hs : m.Sound) (hm : m.Models env) {vs : List Ref} {ts : List Tree}
    (hvs : List.Forall₂ m.heap.Unfolds vs ts) {tail : Ref} {u : Tree}
    (htail : m.heap.Unfolds tail u) :
    m.Agrees Denotes (vs.foldrM (fun v rest => make (.pair v rest)) tail m)
      (.ok (ts.foldr .pair u) env) := by
  induction vs generalizing ts with
  | nil =>
      cases hvs
      exact .done hs hm htail
  | cons v vs ih =>
      cases hvs with
      | @cons _ t _ ts hv hvs =>
          rw [List.foldrM_cons]
          show m.Agrees Denotes _ (((pure (ts.foldr .pair u) : Reference.RefM Tree) >>=
            fun rest => pure (.pair t rest)) env)
          refine .bind hs (ih hvs) fun m₁ env₁ w x hs₁ he₁ hm₁ hw _ => ?_
          exact makePair_agrees hs₁ hm₁ (he₁.unfolds hs hv) hw

theorem environmentList_agrees (hs : m.Sound) (hm : m.Models env) :
    m.Agrees Denotes (environmentList m) (Reference.environmentList env) := by
  have hbindings : List.Forall₂ (fun (b : Binding) e => m.heap.Unfolds b.name (.atom e.1) ∧
      m.heap.Unfolds b.value e.2) ((m.heap.chain m.scope).map m.heap.binding) env :=
    List.forall₂_map_left_iff.mpr hm
  have hentries : Reference.environmentList env = ((env.mapM fun e =>
      (pure (.pair (.atom e.1) e.2) : Reference.RefM Tree)) >>= fun ts => pure (.ofList ts)) env := by
    rw [List.mapM_pure]
    rfl
  rw [hentries]
  show m.Agrees Denotes ((((m.heap.chain m.scope).map m.heap.binding).mapM
    (fun b => make (.pair b.name b.value)) >>= fun pairs => make .nil >>= fun tail =>
      pairs.foldrM (fun pair rest => make (.pair pair rest)) tail) m) _
  refine .bind hs (.mapping (I := fun m b e => m.heap.Unfolds b.name (.atom e.1) ∧
    m.heap.Unfolds b.value e.2) (J := Denotes) ?_ ?_ ?_ hs hm hbindings) ?_
  · exact fun m₁ m₂ b e hs₁ he hb => ⟨he.unfolds hs₁ hb.1, he.unfolds hs₁ hb.2⟩
  · exact fun m₁ m₂ v t hs₁ he hv => he.unfolds hs₁ hv
  · exact fun m₁ env₁ b e hs₁ hm₁ hb => makePair_agrees hs₁ hm₁ hb.1 hb.2
  intro m₁ env₁ pairs ts hs₁ _ hm₁ hpairs _
  rw [Tree.ofList_eq_foldr]
  show m₁.Agrees Denotes _ (((pure Tree.nil : Reference.RefM Tree) >>=
    fun tail => pure (ts.foldr .pair tail)) env₁)
  refine .bind hs₁ (makeNil_agrees hs₁ hm₁) fun m₂ env₂ tail u hs₂ he₂ hm₂ htail _ => ?_
  exact foldrPairs_agrees hs₂ hm₂ (hpairs.imp fun _ _ => he₂.unfolds hs₁) htail

theorem Machine.Sound.overwritten_unfolds (hs : m.Sound) {b : BindingId} (hb : b ∈ m.env) {v w : Ref}
    {t : Tree} (hw : m.heap.Unfolds w t) : (m.heap.overwritten b v).Unfolds w t :=
  hw.congr fun _ hk => hs.overwritten_agreeAt hb hk

/-- Overwriting the first binding of a name replaces the first entry of it. -/
theorem Machine.Models.overwritten (hs : m.Sound) (hm : m.Models env) {name : String}
    {b : BindingId} (hfind : m.heap.findBinding? m.scope name = some b) {v : Ref} {t : Tree}
    (hv : m.heap.Unfolds v t) (arena : Arena) (log : Array LogRecord) :
    Models ⟨m.heap.overwritten b v, arena, m.scope, log⟩ (Reference.update name t env) := by
  have hb : b ∈ m.env := Heap.mem_of_findBinding? hfind
  have henv : Machine.env ⟨m.heap.overwritten b v, arena, m.scope, log⟩ = m.env :=
    hs.overwritten_linked.chain_eq
  have hself : (m.heap.overwritten b v).Entry b (name, t) := by
    have hentry := Heap.findBinding?_entry hs.linked hm name
    rw [hfind] at hentry
    generalize (env.find? fun e => e.1 == name) = e at hentry
    cases hentry with
    | @some _ e he =>
        have hname : e.1 = name :=
          Option.some.inj (he.boundName?.symm.trans (Heap.findBinding?_eq_some hfind).2)
        rw [Heap.Entry, Heap.overwritten_self he.has, ← hname]
        exact ⟨hs.overwritten_unfolds hb he.1, hs.overwritten_unfolds hb hv⟩
  have hothers : ∀ b' ∈ m.env, b' ≠ b → ∀ e, m.heap.Entry b' e →
      (m.heap.overwritten b v).Entry b' e := by
    intro b' _ hne e he
    rw [Heap.Entry, Heap.overwritten_ne hne.symm]
    exact ⟨hs.overwritten_unfolds hb he.1, hs.overwritten_unfolds hb he.2⟩
  rw [Heap.findBinding?_eq] at hfind
  obtain ⟨env', hreplaced, henv'⟩ := Heap.replace?_entries hs.linked.nodup hm hfind hself hothers
  rw [Models, henv, Reference.update, hreplaced]
  exact henv'

/-- A binding that is put in front of the environment is an entry in front. -/
theorem Machine.Models.put (hs : m.Sound) (hm : m.Models env) {h : Heap} (he : m.heap.Extends h)
    {name value : Ref} {n : String} {t : Tree} (hname : h.Unfolds name (.atom n))
    (hvalue : h.Unfolds value t) (arena : Arena) (log : Array LogRecord) :
    Models ⟨(h.put name value m.scope).2, arena, (h.put name value m.scope).1, log⟩
      ((n, t) :: env) := by
  have he' := Heap.extends_put h name value m.scope
  rw [Models, Machine.env, (Heap.linked_put name value (he.linked hs.linked)).chain_eq]
  refine .cons ?_ (hm.imp fun _ _ => (he.trans he').entry)
  rw [Heap.Entry, Heap.binding_put]
  exact ⟨he'.unfolds hname, he'.unfolds hvalue⟩

theorem assign_agrees (hs : m.Sound) (hm : m.Models env) (name : String) {v : Ref} {t : Tree}
    (hu : m.heap.Unfolds v t) :
    m.Agrees Denotes (assign name v m) (Reference.assign name t env) := by
  have hends := assign_ends hs hu.liveRef name
  obtain ⟨hs₁, -, -, -⟩ := hs.copied hu.liveRef rfl
  have hm₁ : Models ⟨(m.heap.copy v).2, m.arena, m.scope, m.log⟩ env :=
    hm.of_extends hs (Heap.copy_copies hu.liveRef).grown rfl
  have hentry := Heap.findBinding?_entry hs₁.linked hm₁ name
  show m.Agrees Denotes _ (.ok t (Reference.update name t env))
  rw [assign_eq] at hends ⊢
  cases hfind : (m.heap.copy v).2.findBinding? m.scope name with
  | some b =>
      rw [hfind] at hends
      obtain ⟨hs₂, he₂, -⟩ := hends
      refine ⟨t, _, rfl, hs₂, he₂, hm₁.overwritten hs₁ hfind hu.copy _ _, ?_⟩
      exact hs₁.overwritten_unfolds (Heap.mem_of_findBinding? hfind) hu.copy
  | none =>
      rw [hfind] at hends
      obtain ⟨hs₂, he₂, -⟩ := hends
      rw [hfind] at hentry
      generalize hnone : (env.find? fun e => e.1 == name) = e at hentry
      cases hentry with
      | none =>
          refine ⟨t, _, rfl, hs₂, he₂, ?_, ?_⟩
          · rw [Reference.update, Heap.replace?_eq_none hnone]
            have he := Heap.extends_new (m.heap.copy v).2 (.atom name)
            exact hm₁.put hs₁ he (.atom (Heap.cell_new _ _)) (he.unfolds hu.copy) _ _
          · exact (Heap.extends_put _ _ _ _).unfolds ((Heap.extends_new _ _).unfolds hu.copy)

end

end ArenaLisp
