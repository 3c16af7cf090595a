import ArenaLisp.Proofs.Agreement

/-!
# The evaluator simulates the one of immutable values

Closures, built-in operations and evaluation agree with their counterparts, with one
exception: what `eq` says of two lists depends on where they are. So evaluation is *watched*.
It gives up where `eq` is about to compare two lists that are not empty, and where it does
not, it is evaluation.

- `watched_simulates`: watched evaluation agrees with that of immutable values.
- `watched_follows`: unless it gives up, it does what evaluation does.
-/

namespace ArenaLisp

open EvalM Machine

section

variable {m : Machine} {env : Reference.Env} {ev : Evaluator} {rev : Reference.Meaning}

/-! ## Closures -/

theorem makeClosure_agrees (hs : m.Sound) (hm : m.Models env) {params body : Ref} {t u : Tree}
    (hparams : m.heap.Unfolds params t) (hbody : m.heap.Unfolds body u) :
    m.Agrees Denotes (makeClosure params body m) (Reference.makeClosure t u env) := by
  unfold makeClosure Reference.makeClosure
  rw [see_bind, hparams.paramsFault?_eq]
  cases hfault : t.paramsFault? with
  | some cause => exact .failing hs hm
  | none =>
      have hlive : ∀ b ∈ m.env, m.heap.LiveRef (m.heap.binding b).name ∧
          m.heap.LiveRef (m.heap.binding b).value := fun b hb => ⟨hs.names b hb, hs.values b hb⟩
      have hgrown :=
        (Heap.newClosure_copies hs.linked hlive hparams.liveRef hbody.liveRef).grown
      have hmade := Heap.newClosure_unfolds hparams (hparams.names hfault) hbody hs.linked hm
      exact (Agrees.making hs hm (operates_makeLambda hs hparams.liveRef hbody.liveRef)
        ⟨_, _, rfl⟩ hgrown hmade).weaken fun _ _ _ h => h.2

/-- A value that is passed to a call: what it holds is registered. -/
def Machine.Passes (m : Machine) (v : Ref) (t : Tree) : Prop := m.Handed v ∧ m.Denotes v t

theorem Machine.Evolves.passes {m m' : Machine} (he : m.Evolves m') (hs : m.Sound) {v : Ref}
    {t : Tree} (hp : m.Passes v t) : m'.Passes v t :=
  ⟨he.handed hs hp.2.liveRef hp.1, he.unfolds hs hp.2⟩

theorem passes_live {vs : List Ref} {ts : List Tree} (hvs : List.Forall₂ m.Passes vs ts) :
    ∀ v ∈ vs, m.heap.LiveRef v ∧ m.Handed v :=
  ((List.forall₂_and_left _ _).mp (hvs.imp fun _ _ hv => ⟨⟨hv.2.liveRef, hv.1⟩, hv⟩)).1

theorem passArgument_agrees (hev : ev.Simulates rev) (hs : m.Sound) (hm : m.Models env) {v : Ref}
    {t : Tree} (hu : m.heap.Unfolds v t) :
    m.Agrees Passes (passArgument ev v m) (rev t env) := by
  rw [← bind_pure (rev t)]
  show m.Agrees Passes ((ev v >>= handOver) m) _
  refine .bind hs (hev v m t env hs hm hu) fun m₁ env₁ w u hs₁ _ hm₁ hw _ => ?_
  have hlive : m₁.heap.LiveRef w := hw.liveRef
  have hop : m₁.Operates False _ _ := (operates_handOver hs₁ hlive).weaken
    (Q := fun m' v => m'.Handed v ∧ v = (m₁.heap.copy w).1 ∧ m'.heap = (m₁.heap.copy w).2 ∧
      m'.scope = m₁.scope) fun _ _ h => h.2
  exact Agrees.making hs₁ hm₁ hop ⟨_, _, rfl⟩ (Heap.copy_copies hlive).grown
    (Heap.Unfolds.copy hw)

theorem passArguments_agrees (hev : ev.Simulates rev) (hs : m.Sound) (hm : m.Models env)
    {vs : List Ref} {ts : List Tree} (hvs : List.Forall₂ m.heap.Unfolds vs ts) :
    m.Agrees (fun m' => List.Forall₂ m'.Passes) (vs.mapM (passArgument ev) m) (ts.mapM rev env) := by
  refine .mapping (I := Denotes) ?_ ?_ ?_ hs hm hvs
  · exact fun m₁ m₂ v t hs₁ he hv => he.unfolds hs₁ hv
  · exact fun m₁ m₂ v t hs₁ he hv => he.passes hs₁ hv
  · exact fun m₁ env₁ v t hs₁ hm₁ hv => passArgument_agrees hev hs₁ hm₁ hv

/-- Of the entries that a call leaves, the last ones are the caller's. -/
theorem Machine.Models.leave {m' m'' : Machine} {left : Reference.Env} (hs : m.Sound)
    (hm : m.Models env) (hc : m.Calls m') (he : m'.Evolves m'') (hleft : m''.Models left) :
    Models { m'' with scope := m.scope } (left.drop (left.length - env.length)) := by
  obtain ⟨front, hfront, _⟩ := hc.env
  obtain ⟨news, hnews, _⟩ := he.grown
  have henv : m''.env = (news ++ front) ++ m.env := by
    rw [hnews, hfront, List.append_assoc]
  have hlength : left.length - env.length = (news ++ front).length := by
    have h₁ := hleft.length_eq
    have h₂ := hm.length_eq
    rw [henv, List.length_append] at h₁
    omega
  have hdrop := List.forall₂_drop (left.length - env.length) hleft
  rw [hlength, henv, List.drop_left, ← hlength] at hdrop
  rw [Models, Machine.env, (hc.linked hs he).chain_eq]
  exact hdrop

/-- Coming back from a call, the entries of the caller are left. -/
theorem Machine.Agrees.leave {m' : Machine} {call : Chain} {body : Ref} {u : Tree}
    {front : Reference.Env} (hs : m.Sound) (hm : m.Models env) (hscope : m'.scope = m.scope)
    (hc : m.Calls { m' with scope := call })
    (hr : Agrees { m' with scope := call } Denotes (ev body { m' with scope := call })
      (rev u (front ++ env))) :
    m.Agrees Denotes (inScope call (ev body) m') (Reference.within front (rev u) env) := by
  rw [inScope_eq, hscope, Reference.within]
  cases hend : ev body { m' with scope := call } with
  | ok w m'' =>
      rw [hend] at hr
      obtain ⟨t, left, hrev, hs'', he, hm'', hw⟩ := hr
      obtain ⟨hs', he'⟩ := hs.leave hc he hs''
      rw [hrev]
      exact ⟨t, _, rfl, hs', he', hm.leave hs hc he hm'', hw⟩
  | error e m'' =>
      rw [hend] at hr
      rcases hr with hr | ⟨left, hrev, hs'', he, hm''⟩
      · exact Or.inl hr
      · obtain ⟨hs', he'⟩ := hs.leave hc he hs''
        rw [hrev]
        exact Or.inr ⟨_, rfl, hs', he', hm.leave hs hc he hm''⟩

/-- The environment of a call binds what was captured, in front. -/
theorem Heap.Binds.captured_entries {h h' : Heap} {c : Closure} {values ns : List Ref}
    {cs fs : List BindingId} {s : Scope} (hb : h.Binds h' c values cs fs ns)
    (hcaptured : h.UnfoldsChain c.captured s) :
    List.Forall₂ h'.Entry cs (Reference.ofScope s) := by
  obtain ⟨cs', hlinked, hentries, -⟩ := hcaptured.copyChain.entries
  obtain rfl := hb.copied.unique hlinked
  refine ((List.forall₂_and_left _ _).mpr ⟨hb.captured, hentries⟩).imp fun b e hbe => ?_
  obtain ⟨hbound, hname, hvalue⟩ := hbe
  rw [Entry, show (h'.binding b).name = _ from congrArg Prod.fst hbound,
    show (h'.binding b).value = _ from congrArg Prod.snd hbound]
  exact ⟨hname.congr (hb.kept _ hname.liveRef), hvalue.congr (hb.kept _ hvalue.liveRef)⟩

/-- The environment of a call binds what was captured, then the parameters. -/
theorem Heap.Binds.entries {h h' : Heap} {c : Closure} {values ns : List Ref}
    {cs fs : List BindingId} {names : List String} {ts : List Tree} {s : Scope}
    (hb : h.Binds h' c values cs fs ns) (he : h.Extends h') (hcaptured : h.UnfoldsChain c.captured s)
    (hns : List.Forall₂ h.Unfolds ns (names.map .atom))
    (hvalues : List.Forall₂ h.Unfolds values ts) :
    List.Forall₂ h'.Entry (cs ++ fs) (Reference.ofScope s ++ names.zip ts) := by
  refine List.rel_append (hb.captured_entries hcaptured) ?_
  have hframe := zip_unfolds (hns.imp fun _ _ => he.unfolds) (hvalues.imp fun _ _ => he.unfolds)
  rw [← hb.frame, List.forall₂_map_left_iff] at hframe
  exact hframe

/--
A call with as many values as parameters succeeds, and its environment binds what was captured,
then the parameters, then what the caller's binds.
-/
theorem callScope_models (hs : m.Sound) (hm : m.Models env) {c : Closure} {ns values : List Ref}
    {names : List String} {ts : List Tree} {s : Scope} (hparams : m.heap.LiveRef c.params)
    (hns : m.heap.elements? c.params = some ns)
    (hnames : List.Forall₂ m.heap.Unfolds ns (names.map .atom))
    (hvalues : List.Forall₂ m.Passes values ts) (hlength : ns.length = values.length)
    (hcaptured : m.heap.UnfoldsChain c.captured s) :
    ∃ call m', callScope c values m = .ok call m' ∧ m'.scope = m.scope ∧
      Sound { m' with scope := call } ∧ m.Calls { m' with scope := call } ∧
      m.heap.Extends m'.heap ∧
      Models { m' with scope := call } ((Reference.ofScope s ++ names.zip ts) ++ env) := by
  have hlive := hcaptured.liveChain
  have hpassed := passes_live hvalues
  obtain ⟨call, m', hcall⟩ := callScope_isOk hparams hlive hns hlength
  have hends := callScope_ends hs hparams hlive hpassed
  rw [hcall] at hends
  obtain ⟨hscope, hs', hc⟩ := hends
  obtain ⟨cs, fs, ns', hent, hbinds⟩ :=
    callScope_ok hs hparams hlive (fun v hv => (hpassed v hv).1) hcall
  have hsame := ((Heap.copyChain_copies hlive).grown.trans
    (Heap.extends_list values _)).elements?_eq hparams hns
  obtain rfl : ns' = ns := Option.some.inj (hbinds.params.symm.trans hsame)
  have henv : Machine.env { m' with scope := call } = (cs ++ fs) ++ m.env := hent.linked.chain_eq
  refine ⟨call, m', hcall, hscope, hs', hc, hent.grown, ?_⟩
  rw [Models, henv]
  exact List.rel_append (hbinds.entries hent.grown hcaptured hnames (hvalues.imp fun _ _ => And.right))
    (hm.imp fun _ _ => hent.grown.entry)

theorem call_agrees (hev : ev.Simulates rev) (hs : m.Sound) (hm : m.Models env) {c : Closure}
    {ns values : List Ref} {names : List String} {ts : List Tree} {u : Tree} {s : Scope}
    (hparams : m.heap.LiveRef c.params) (hns : m.heap.elements? c.params = some ns)
    (hnames : List.Forall₂ m.heap.Unfolds ns (names.map .atom))
    (hvalues : List.Forall₂ m.Passes values ts) (hlength : ns.length = values.length)
    (hbody : m.heap.Unfolds c.body u) (hcaptured : m.heap.UnfoldsChain c.captured s) :
    m.Agrees Denotes ((callScope c values >>= fun call => inScope call (ev c.body)) m)
      (Reference.within (Reference.ofScope s ++ names.zip ts) (rev u) env) := by
  obtain ⟨call, m', hcall, hscope, hs', hc, hgrown, hm'⟩ :=
    callScope_models hs hm hparams hns hnames hvalues hlength hcaptured
  rw [bind_ok hcall]
  exact .leave hs hm hscope hc (hev c.body _ u _ hs' hm' (hgrown.unfolds hbody))

theorem applyClosure_agrees (hev : ev.Simulates rev) (hs : m.Sound) (hm : m.Models env)
    {o : Addr} {c : Closure} {arguments : Ref} {params body t : Tree} {s : Scope}
    (hcell : m.heap.cell o = .live (.closure c))
    (hclosure : m.heap.Unfolds (some o) (.closure params body s))
    (hu : m.heap.Unfolds arguments t) :
    m.Agrees Denotes (applyClosure ev c arguments m)
      (Reference.applyClosure rev params body s t env) := by
  obtain ⟨hparams, ⟨names, hnames⟩, -, -⟩ := hclosure.closure_parts hcell
  obtain ⟨ns, hns, hunfolds⟩ := hparams.elements?_some hnames
  have helements := hu.elements?
  unfold applyClosure Reference.applyClosure
  rw [see_bind]
  generalize m.heap.elements? arguments = given at helements
  generalize t.elements? = ts at helements
  cases helements with
  | none => exact .failingWith hs hm hu
  | @some given ts hgiven =>
      dsimp only
      rw [see_bind, hns, hnames, Option.getD_some, Option.getD_some, hunfolds.length_eq,
        hgiven.length_eq]
      split
      · exact .failing hs hm
      rename_i hmany
      refine .bind hs (passArguments_agrees hev hs hm hgiven) ?_
      intro m₁ env₁ values us hs₁ he₁ hm₁ hvalues hrun
      -- the closure is a value, so it is as it was
      have hclosure₁ := he₁.unfolds hs hclosure
      have hcell₁ : m₁.heap.cell o = .live (.closure c) :=
        (he₁.cell o (Heap.liveRef_some.mp hclosure.liveRef).has).trans hcell
      obtain ⟨hparams₁, -, hbody₁, hcaptured₁⟩ := hclosure₁.closure_parts hcell₁
      have hunfolds₁ := hunfolds.imp fun _ _ => he₁.unfolds hs
      have hvalues₁ := hvalues.imp fun _ _ => And.right
      rw [hvalues.length_eq, Heap.map_name_atom]
      split
      · have hlive := Heap.liveRef_of_unfolds hunfolds₁
        have hgrown := (Heap.newPartial_builds hlive hbody₁.liveRef hcaptured₁.liveChain
          fun v hv => (passes_live hvalues v hv).1).grown
        exact (Agrees.making hs₁ hm₁ (operates_makePartial hs₁ hlive hbody₁.liveRef
          hcaptured₁.liveChain (passes_live hvalues)) ⟨_, _, rfl⟩ hgrown
          (Heap.newPartial_unfolds hunfolds₁ hvalues₁ hbody₁ hcaptured₁)).weaken fun _ _ _ h => h.2
      · rename_i hfew
        obtain ⟨ns₁, hns₁, hunfolds₁⟩ := hparams₁.elements?_some hnames
        refine call_agrees hev hs₁ hm₁ hparams₁.liveRef hns₁ hunfolds₁ hvalues ?_ hbody₁ hcaptured₁
        have hpassed := length_of_mapM hrun
        have hgiven := hgiven.length_eq
        have hsame := hvalues.length_eq
        rw [hunfolds₁.length_eq]
        omega

/-! ## The built-in operations -/

theorem isAtomic_eq {v : Ref} {t : Tree} (hu : m.heap.Unfolds v t) :
    (m.heap.isNil v || (m.heap.cell? v).any fun c => c.kind == .atom || c.number?.isSome) =
      (t.isNil || t.kind == .atom || t.number?.isSome) := by
  rw [hu.isNil_eq, Bool.or_assoc]
  cases v with
  | none =>
      cases hu
      rfl
  | some a =>
      obtain ⟨hkind, -, hnumber⟩ := hu.cell
      rw [Heap.cell?, Option.map_some, Option.any_some, hkind, hnumber]

theorem makeCons_agrees (hs : m.Sound) (hm : m.Models env) {v w : Ref} {t u : Tree}
    (hv : m.heap.Unfolds v t) (hw : m.heap.Unfolds w u) :
    m.Agrees Denotes ((see (·.cell? w) >>= fun c? => match c? with
      | some c => if c.kind != .pair then fail "cons" (.secondNotAList c.kind) else make (.pair v w)
      | none => make (.pair v w)) m)
      ((if u.kind != .pair then Reference.fail "cons" (.secondNotAList u.kind)
        else pure (.pair t u) : Reference.RefM Tree) env) := by
  rw [see_bind]
  cases w with
  | none =>
      cases hw
      exact makePair_agrees hs hm hv .absent
  | some a =>
      rw [Heap.cell?, Option.map_some]
      dsimp only
      rw [hw.cell.1]
      split
      · exact .failing hs hm
      · exact makePair_agrees hs hm hv hw

/--
Every built-in operation agrees with its counterpart, except that `eq` must not compare two
lists that are not empty.
-/
theorem run_agrees (hev : ev.Simulates rev) (hs : m.Sound) (hm : m.Models env) {arguments : Ref}
    {t : Tree} (hu : m.heap.Unfolds arguments t) (b : Builtin)
    (hlists : b = .eq → ∀ p m', evalTwo ev "eq" arguments m = .ok p m' →
      (m'.heap.isFilled p.1 && m'.heap.isFilled p.2) = false) :
    m.Agrees Denotes (b.run ev arguments m) (Reference.run rev t b env) := by
  cases b with
  | quote => exact oneArgument_agrees hs hm "quote" hu
  | atom =>
      refine .bind hs (evalOne_agrees hev hs hm "atom" hu) ?_
      intro m₁ env₁ v t hs₁ _ hm₁ hv _
      rw [see_bind, isAtomic_eq hv]
      exact makeBool_agrees hs₁ hm₁ _
  | eq =>
      refine .bind hs (evalTwo_agrees hev hs hm "eq" hu) ?_
      intro m₁ env₁ p q hs₁ _ hm₁ hpq hrun
      have hsame : m₁.heap.same p.1 p.2 = q.1.same q.2 :=
        Heap.Unfolds.same_eq hpq.1 hpq.2 (hlists rfl p m₁ hrun)
      show m₁.Agrees Denotes ((see (·.same p.1 p.2) >>= makeBool) m₁) _
      rw [see_bind, hsame]
      exact makeBool_agrees hs₁ hm₁ _
  | car =>
      refine .bind hs (evalOne_agrees hev hs hm "car" hu) ?_
      intro m₁ env₁ v t hs₁ _ hm₁ hv _
      refine field_agrees hs₁ hm₁ "car" hv fun a car cdr t u hcell hcar _ => ?_
      rw [hcell]
      exact hcar
  | cdr =>
      refine .bind hs (evalOne_agrees hev hs hm "cdr" hu) ?_
      intro m₁ env₁ v t hs₁ _ hm₁ hv _
      refine field_agrees hs₁ hm₁ "cdr" hv fun a car cdr t u hcell _ hcdr => ?_
      rw [hcell]
      exact hcdr
  | cons =>
      refine .bind hs (evalTwo_agrees hev hs hm "cons" hu) ?_
      intro m₁ env₁ p q hs₁ _ hm₁ hpq _
      exact makeCons_agrees hs₁ hm₁ hpq.1 hpq.2
  | cond => exact evalClauses_agrees hev hs hm hu hu.spine.2 hu.spine.1 1
  | set =>
      refine .bind hs (evalTwo_agrees hev hs hm "set" hu) ?_
      intro m₁ env₁ p q hs₁ _ hm₁ hpq _
      refine .bind hs₁ (settableName_agrees hs₁ hm₁ hpq.1) ?_
      rintro m₂ env₂ name _ hs₂ he₂ hm₂ rfl _
      exact assign_agrees hs₂ hm₂ name (he₂.unfolds hs₁ hpq.2)
  | env =>
      refine .bind hs (argumentList_agrees hs hm "env" hu) ?_
      intro m₁ env₁ vs ts hs₁ _ hm₁ hvs _
      cases hvs with
      | nil => exact environmentList_agrees hs₁ hm₁
      | cons _ hvs =>
          dsimp only
          rw [List.length_cons, List.length_cons, hvs.length_eq]
          exact .failing hs₁ hm₁
  | lambda =>
      refine .bind hs (twoArguments_agrees hs hm "lambda" hu) ?_
      intro m₁ env₁ p q hs₁ _ hm₁ hpq _
      exact makeClosure_agrees hs₁ hm₁ hpq.1 hpq.2
  | macroDefinition => exact .failing hs hm
  | arith op =>
      refine .bind hs (evalNumbers_agrees hev hs hm op.symbol hu) ?_
      rintro m₁ env₁ p _ hs₁ _ hm₁ rfl _
      dsimp only
      cases op.apply p.1 p.2 with
      | none => exact .failing hs₁ hm₁
      | some n =>
          exact make_agrees (d := .number n) hs₁ hm₁ (fun _ hk => absurd hk List.not_mem_nil)
            (.number (Heap.cell_new m₁.heap _))
  | compare relation =>
      refine .bind hs (evalNumbers_agrees hev hs hm relation.symbol hu) ?_
      rintro m₁ env₁ p _ hs₁ _ hm₁ rfl _
      exact makeBool_agrees hs₁ hm₁ _
  | arguments => exact .done hs hm hu

/-! ## Evaluation -/

/-- Whether applying a value compares two lists that are not empty, as `eq` does. -/
def appliesToLists (ev : Evaluator) (operator arguments : Ref) (m : Machine) : Bool :=
  match m.heap.cell? operator with
  | some (.live (.primitive p)) =>
    p.builtin == .eq &&
      match evalTwo ev "eq" arguments m with
      | .ok (v, w) m' => m'.heap.isFilled v && m'.heap.isFilled w
      | .error _ _ => false
  | _ => false

/-- Whether an expression applies `eq` to two lists that are not empty. -/
def comparesLists (ev : Evaluator) (v : Ref) (m : Machine) : Bool :=
  match m.heap.cell? v with
  | some (.live (.pair none none)) => false
  | some (.live (.pair car cdr)) =>
    match ev car m with
    | .ok operator m' => appliesToLists ev operator cdr m'
    | .error _ _ => false
  | _ => false

theorem comparesLists_pair {a : Addr} {car cdr : Ref} (hcell : m.heap.cell a = .live (.pair car cdr))
    (hnil : ¬(car = none ∧ cdr = none)) :
    comparesLists ev (some a) m = match ev car m with
      | .ok operator m' => appliesToLists ev operator cdr m'
      | .error _ _ => false := by
  rw [comparesLists, Heap.cell?, Option.map_some, hcell]
  cases car with
  | some car => rfl
  | none =>
      cases cdr with
      | some cdr => rfl
      | none => exact absurd ⟨rfl, rfl⟩ hnil

theorem apply_agrees (hev : ev.Simulates rev) (hs : m.Sound) (hm : m.Models env)
    {operator arguments : Ref} {f t : Tree} (ho : m.heap.Unfolds operator f)
    (hu : m.heap.Unfolds arguments t) (hlists : appliesToLists ev operator arguments m = false) :
    m.Agrees Denotes (apply ev operator arguments m) (Reference.apply rev f t env) := by
  unfold apply
  rw [see_bind]
  have ho' := ho
  cases ho with
  | absent => exact .failingWith hs hm ho'
  | atom hcell | number hcell | pair hcell =>
      rw [Heap.cell?, Option.map_some, hcell]
      exact .failingWith hs hm ho'
  | @primitive a p hcell =>
      rw [appliesToLists, Heap.cell?, Option.map_some, hcell] at hlists
      rw [Heap.cell?, Option.map_some, hcell]
      refine run_agrees hev hs hm hu p.builtin fun heq q m' hrun => ?_
      dsimp only at hlists
      rw [heq, hrun] at hlists
      exact hlists
  | closure hcell =>
      rw [Heap.cell?, Option.map_some, hcell]
      exact applyClosure_agrees hev hs hm hcell ho' hu

/-- **Evaluation agrees** where the evaluation of the parts does. -/
theorem evalStep_agrees (hev : ev.Simulates rev) (hs : m.Sound) (hm : m.Models env) {v : Ref}
    {t : Tree} (hu : m.heap.Unfolds v t) (hlists : comparesLists ev v m = false) :
    m.Agrees Denotes (evalStep ev v m) (Reference.evalStep rev t env) := by
  have hu' := hu
  cases hu with
  | absent => exact makeNil_agrees hs hm
  | number hcell | primitive hcell | closure hcell =>
      rw [evalStep, see_bind, Heap.cell?, Option.map_some, hcell]
      exact .done hs hm hu'
  | @atom a name hcell =>
      rw [evalStep, see_bind, Heap.cell?, Option.map_some, hcell]
      have hlookup := Heap.lookup?_unfolds hs.linked hm name
      unfold Reference.evalStep
      dsimp only
      by_cases htruth : (name == truthName) = true
      · rw [if_pos htruth, if_pos htruth]
        exact .done hs hm hu'
      · rw [if_neg htruth, if_neg htruth]
        rw [scope_bind, see_bind, Reference.get_bind]
        generalize m.heap.lookup? m.scope name = value at hlookup
        generalize Reference.lookup? env name = value' at hlookup
        cases hlookup with
        | none => exact .failing hs hm
        | some hvalue => exact .done hs hm hvalue
  | @pair a car cdr t u hcell hcar hcdr =>
      by_cases hnil : car = none ∧ cdr = none
      · obtain ⟨rfl, rfl⟩ := hnil
        cases hcar
        cases hcdr
        rw [evalStep, see_bind, Heap.cell?, Option.map_some, hcell]
        exact .done hs hm hu'
      · rw [evalStep_pair hcell hnil, Reference.evalStep_pair (by rwa [← hcar.none_iff, ← hcdr.none_iff])]
        rw [comparesLists_pair hcell hnil] at hlists
        refine .bind hs (hev car m t env hs hm hcar) fun m₁ env₁ f g hs₁ he₁ hm₁ hf hrun => ?_
        rw [hrun] at hlists
        exact apply_agrees hev hs₁ hm₁ hf (he₁.unfolds hs hcdr) hlists

end

/-! ## Watched evaluation -/

/-- Evaluation that gives up where `eq` is to compare two lists that are not empty. -/
def watched : Nat → Evaluator
  | 0, _ => throw .tooDeep
  | n + 1, v => fun m =>
    if comparesLists (watched n) v m then .error .dangling m else evalStep (watched n) v m

/-- Whether a run gave up. -/
def gaveUp {α : Type} : EStateM.Result Halt Machine α → Bool
  | .error .dangling _ => true
  | _ => false

theorem watched_succ (n : Nat) (v : Ref) (m : Machine) : watched (n + 1) v m =
    if comparesLists (watched n) v m then .error .dangling m else evalStep (watched n) v m := rfl

theorem watched_simulates (n : Nat) : (watched n).Simulates (Reference.eval n) := by
  induction n with
  | zero => exact fun v m t env hs hm _ => .failing hs hm
  | succ n ih =>
      intro v m t env hs hm hu
      rw [watched_succ]
      by_cases hlists : comparesLists (watched n) v m = true
      · rw [if_pos hlists]
        exact Or.inl rfl
      · rw [if_neg hlists]
        exact evalStep_agrees ih hs hm hu (eq_false_of_ne_true hlists)

/-- Whether a way to evaluate does what another does, unless it gives up. -/
def Evaluator.Follows (ev ev' : Evaluator) : Prop :=
  ∀ v (m : Machine), m.Sound → m.heap.LiveRef v → gaveUp (ev v m) = false → ev v m = ev' v m

theorem gaveUp_inScope {x : EvalM Ref} {c : Chain} {m : Machine} :
    gaveUp (inScope c x m) = gaveUp (x { m with scope := c }) := by
  rw [inScope_eq]
  cases x { m with scope := c } with
  | ok a m' => rfl
  | error e m' => cases e <;> rfl

/-- A program does what it does with another way to evaluate, unless it gives up. -/
theorem Program.follows {calls binds : Prop} {α : Type} {m : Machine} {x : Evaluator → EvalM α}
    {P : Machine → α → Prop} (hp : Program calls binds m x P) {ev ev' : Evaluator} (hkeeps : ev'.Keeps)
    (hev : ev.Follows ev') (hs : m.Sound) (hup : gaveUp (x ev m) = false) : x ev m = x ev' m := by
  induction hp with
  | operate hx => rfl
  | evaluate hv => exact hev _ _ hs hv hup
  | @call m x body hx hbody =>
      show (x >>= fun c => inScope c (ev body)) m = (x >>= fun c => inScope c (ev' body)) m
      have hup' : gaveUp ((x >>= fun c => inScope c (ev body)) m) = false := hup
      have hends := hx.ends
      cases hcall : x m with
      | error e m' => rw [bind_error hcall, bind_error hcall]
      | ok c m' =>
          rw [hcall] at hends
          obtain ⟨_, hs', hc⟩ := hends
          rw [bind_ok hcall, gaveUp_inScope] at hup'
          rw [bind_ok hcall, bind_ok hcall, inScope_eq, inScope_eq,
            hev body _ hs' (hc.grown.liveRef hbody) hup']
  | @bind α β m x f P Q hx hf ihx ihf =>
      show (x ev >>= fun a => f a ev) m = (x ev' >>= fun a => f a ev') m
      have hup' : gaveUp ((x ev >>= fun a => f a ev) m) = false := hup
      have hends := hx.ends hkeeps hs
      cases hrun : x ev m with
      | error e m' =>
          rw [bind_error hrun] at hup'
          have hsame := ihx hs (by rw [hrun]; cases e <;> exact hup')
          rw [bind_error hrun, bind_error (hsame.symm.trans hrun)]
      | ok a m' =>
          have hsame := (ihx hs (by rw [hrun]; rfl)).symm.trans hrun
          rw [hsame] at hends
          rw [bind_ok hrun] at hup'
          rw [bind_ok hrun, bind_ok hsame]
          exact ihf m' a hends.1 hends.2.1 hends.2.2 hends.1 hup'
  | weaken _ _ ih => exact ih hs hup

theorem watched_follows (n : Nat) : (watched n).Follows (eval n) := by
  induction n with
  | zero => exact fun v m _ _ _ => rfl
  | succ n ih =>
      intro v m hs hv hup
      rw [watched_succ] at hup ⊢
      by_cases hlists : comparesLists (watched n) v m = true
      · rw [if_pos hlists] at hup
        cases hup
      · rw [if_neg hlists] at hup ⊢
        exact (evalStep_program hs hv).follows (eval_keeps n) ih hs hup

/-- **Evaluation agrees with that of immutable values** where it compares no lists. -/
theorem eval_agrees {m : Machine} {env : Reference.Env} (hs : m.Sound) (hm : m.Models env) {v : Ref}
    {t : Tree} (hu : m.heap.Unfolds v t) {n : Nat} (hup : gaveUp (watched n v m) = false) :
    m.Agrees Denotes (eval n v m) (Reference.eval n t env) := by
  rw [← watched_follows n v m hs hu.liveRef hup]
  exact watched_simulates n v m t env hs hm hu

end ArenaLisp
