import ArenaLisp.Proofs.Retention

/-!
# The frame of evaluation

What an evaluation cannot change, wherever it stands in a session and however it ends. Of
values it changes nothing at all, and of bindings only the value, and that only where a name
is looked up from where the evaluation is: a binding that another hides is out of its reach.

A call puts bindings of the names that the closure has taken along, and of its parameters, in
front of the caller's. So these names of the caller's are hidden from the body, and stay as
they are whatever the body calls.
-/

namespace ArenaLisp

namespace Heap

/-- The names of the parameters of a closure. -/
def paramNames (h : Heap) (c : Closure) : List String :=
  ((h.elements? c.params).getD []).filterMap fun p => (h.cell? p).map Cell.name

/-- The names that a closure has taken along. -/
def capturedNames (h : Heap) (c : Closure) : List String :=
  (h.chain c.captured).filterMap h.boundName?

/-! ## Names of copies -/

theorem Extends.boundName?_eq {h h' : Heap} (he : h.Extends h') {b : BindingId}
    (hb : h.Live (.binding b)) : h'.boundName? b = h.boundName? b := by
  rw [boundName?, boundName?, he.binding b hb.has, he.cell?_eq hb.fields.1]

theorem chainTo_live (n : Nat) {h : Heap} {c : Chain} (hc : h.LiveChain c) :
    ∀ b ∈ chainTo n h c, h.Live (.binding b) := by
  induction n generalizing c with
  | zero => cases c <;> exact fun b hb => absurd hb List.not_mem_nil
  | succ n ih =>
      cases c with
      | none => exact fun b hb => absurd hb List.not_mem_nil
      | some b =>
          have hb : h.Live (.binding b) := hc _ (by simp)
          intro b' hb'
          rcases List.mem_cons.mp hb' with rfl | hb'
          · exact hb
          · exact ih hb.fields.2.2 b' hb'

theorem Extends.chainTo_eq {h h' : Heap} (he : h.Extends h') (n : Nat) {c : Chain}
    (hc : h.LiveChain c) : chainTo n h' c = chainTo n h c := by
  induction n generalizing c with
  | zero => cases c <;> rfl
  | succ n ih =>
      cases c with
      | none => rfl
      | some b =>
          have hb : h.Live (.binding b) := hc _ (by simp)
          rw [chainTo, chainTo, he.binding b hb.has, ih hb.fields.2.2]

/-- A copy of a value has its name. -/
theorem copyTo_name (n : Nat) (h : Heap) (v : Ref) :
    ((copyTo (n + 1) h v).2.cell? (copyTo (n + 1) h v).1).map Cell.name =
      (h.cell? v).map Cell.name := by
  cases v with
  | none => rfl
  | some a =>
      have hnew : ∀ (h' : Heap) (d : Datum), (h'.new d).2.cell? (h'.new d).1 = some (.live d) :=
        fun h' d => congrArg some (cell_new h' d)
      rw [copyTo]
      split
      · rename_i hcell
        rw [hnew, show h.cell? (some a) = some (h.cell a) from rfl, hcell]
        rfl
      · rename_i hcell
        rw [hnew, show h.cell? (some a) = some (h.cell a) from rfl, hcell]
        rfl
      · exact congrArg (fun c => some c.name) (cell_alloc h (h.cell a))

/-- Every name along a chain is a name of its copy, as far as the copy goes beyond it. -/
theorem copyChainTo_names {k n : Nat} (hk : k < n) {h : Heap} {c : Chain} (hbd : h.Bounded)
    (hc : h.LiveChain c) {cs : List BindingId}
    (hcs : (copyChainTo n h c).2.Linked (copyChainTo n h c).1 cs) :
    ∀ b₀ ∈ chainTo k h c, ∃ b ∈ cs, (copyChainTo n h c).2.boundName? b = h.boundName? b₀ := by
  induction k generalizing n h c cs with
  | zero => cases c <;> exact fun b₀ hb₀ => absurd hb₀ List.not_mem_nil
  | succ k ih =>
      obtain ⟨n, rfl⟩ : ∃ j, n = j + 2 := ⟨n - 2, by omega⟩
      cases c with
      | none => exact fun b₀ hb₀ => absurd hb₀ List.not_mem_nil
      | some b =>
          have hb : h.Live (.binding b) := hc _ (by simp)
          obtain ⟨hn, hv, hnext⟩ := hb.fields
          have hname := copyTo_name n h (h.binding b).name
          have h₁ := ((copyTo_copies (n + 1)).1 h (h.binding b).name hn).copies
          have h₂ := ((copyTo_copies (n + 1)).1 _ (h.binding b).value
            (h₁.grown.liveRef hv)).copies
          have he₂ := h₁.grown.trans h₂.grown
          have hbd₂ := h₂.clean.bounded h₂.grown (h₁.clean.bounded h₁.grown hbd)
          have h₃ := ((copyTo_copies (n + 1)).2 _ _ (he₂.liveChain hnext)).copies
          obtain ⟨cs', hcs', _⟩ := copyChainTo_linked (n + 1) hbd₂ (he₂.liveChain hnext)
          have ih := ih (n := n + 1) (by omega) hbd₂ (he₂.liveChain hnext) hcs'
          rw [copyChainTo] at hcs ⊢
          dsimp only at hcs ⊢
          generalize copyTo (n + 1) h (h.binding b).name = r₁ at *
          obtain ⟨name, h₁'⟩ := r₁
          dsimp only at *
          generalize copyTo (n + 1) h₁' (h.binding b).value = r₂ at *
          obtain ⟨value, h₂'⟩ := r₂
          dsimp only at *
          generalize copyChainTo (n + 1) h₂' (h.binding b).next = r₃ at *
          obtain ⟨next, h₃'⟩ := r₃
          dsimp only at *
          obtain rfl := hcs.unique (linked_put name value hcs')
          have hput := extends_put h₃' name value next
          have hlive := h₁.liveRef fun _ hf => hf.elim
          intro b₀ hb₀
          rcases List.mem_cons.mp hb₀ with rfl | hb₀
          · refine ⟨_, List.mem_cons_self, ?_⟩
            rw [boundName?, binding_put, (h₂.grown.trans (h₃.grown.trans hput)).cell?_eq hlive]
            exact hname
          · rw [← he₂.chainTo_eq k hnext] at hb₀
            obtain ⟨b', hb', hsame⟩ := ih b₀ hb₀
            rw [he₂.chainTo_eq k hnext] at hb₀
            obtain ⟨p, hp, hr⟩ := hcs'.reaches hb'
            have hlive' := (Copies.live h₃ hp).of_reaches hr
            refine ⟨b', List.mem_cons_of_mem _ hb', ?_⟩
            rw [hput.boundName?_eq hlive', hsame, he₂.boundName?_eq (chainTo_live k hnext b₀ hb₀)]

/-- A call binds every name of a parameter, and every name the closure has taken along. -/
theorem Binds.names {h h' : Heap} {c : Closure} {values : List Ref} {cs fs : List BindingId}
    {ns : List Ref} (hbd : h.Bounded) (hparams : h.LiveRef c.params)
    (hcaptured : h.LiveChain c.captured) (he : h.Extends h') (hb : h.Binds h' c values cs fs ns) :
    ∀ name ∈ h.paramNames c ++ h.capturedNames c,
      ∃ b ∈ cs ++ fs, h'.boundName? b = some name := by
  have hcopies := copyChain_copies hcaptured
  intro name hname
  rcases List.mem_append.mp hname with hname | hname
  · obtain ⟨p, hp, hname⟩ := List.mem_filterMap.mp hname
    cases hes : h.elements? c.params with
    | none =>
        rw [hes] at hp
        exact absurd hp List.not_mem_nil
    | some es =>
        rw [hes] at hp
        have hns := (hcopies.grown.trans (extends_list values _)).elements?_eq hparams hes
        rw [hb.params] at hns
        cases hns
        -- as there are as many values as parameters, each parameter is bound
        have hmem : p ∈ (fs.map h'.bound).map Prod.fst := by
          rw [hb.frame, List.map_fst_zip (Nat.le_of_eq hb.length)]
          exact hp
        obtain ⟨q, hq, rfl⟩ := List.mem_map.mp hmem
        obtain ⟨b, hbf, rfl⟩ := List.mem_map.mp hq
        refine ⟨b, List.mem_append_right _ hbf, ?_⟩
        rw [boundName?]
        exact (congrArg (Option.map Cell.name) (he.cell?_eq (elements?_live hparams hes _ hp))).trans
          hname
  · obtain ⟨b₀, hb₀, hname⟩ := List.mem_filterMap.mp hname
    have hlive₀ := chainTo_live _ hcaptured b₀ hb₀
    -- there is a cell for the name, so the copy goes beyond the chain
    have hdepth : h.bindings.size < h.depth := by
      cases href : (h.binding b₀).name with
      | none => rw [boundName?, href] at hname; cases hname
      | some a =>
          have hname₀ := hlive₀.fields.1
          rw [href] at hname₀
          have hhas : a.index < h.cells.size := (liveRef_some.mp hname₀).has
          rw [depth]
          omega
    obtain ⟨b, hbc, hsame⟩ := copyChainTo_names hdepth hbd hcaptured hb.copied b₀ hb₀
    obtain ⟨cs', hcs', _, hlive⟩ := copyChain_linked hbd hcaptured
    obtain rfl := hb.copied.unique hcs'
    refine ⟨b, List.mem_append_left _ hbc, ?_⟩
    have hfields := (hlive b hbc).1.fields.1
    have hcell : h'.cell? ((h.copyChain c.captured).2.binding b).name =
        (h.copyChain c.captured).2.cell? ((h.copyChain c.captured).2.binding b).name := by
      have hkept := hb.kept _ hfields
      generalize ((h.copyChain c.captured).2.binding b).name = name at hkept
      cases name with
      | none => rfl
      | some a => exact congrArg some (hkept (.value a) (holds_some.mpr (Reaches.refl _)))
    rw [boundName?, show (h'.binding b).name = _ from congrArg Prod.fst (hb.captured b hbc)]
    show (h'.cell? ((h.copyChain c.captured).2.binding b).name).map Cell.name = _
    rw [hcell, ← hname]
    exact hsame

end Heap

open EvalM Machine

/-! ## Calls -/

/--
Evaluating an expression to a depth above `n` calls a closure: that is the value of its
operator, the arguments have been passed, as many as there are parameters, and what is left is
to evaluate the body on the machine `entered`.
-/
inductive CallsClosure (n : Nat) : Ref → Machine → Closure → Machine → Machine → Prop
  | intro {a o : Addr} {car cdr : Ref} {given values : List Ref} {call : Chain} {c : Closure}
      {m m₁ caller m₂ : Machine} (hpair : m.heap.cell a = .live (.pair car cdr))
      (hnil : car ≠ none ∨ cdr ≠ none) (hoperator : eval n car m = .ok (some o) m₁)
      (hclosure : m₁.heap.cell o = .live (.closure c))
      (hgiven : m₁.heap.elements? cdr = some given)
      (hlength : given.length = ((m₁.heap.elements? c.params).getD []).length)
      (hvalues : given.mapM (passArgument (eval n)) m₁ = .ok values caller)
      (hcall : callScope c values caller = .ok call m₂) :
      CallsClosure n (some a) m c caller { m₂ with scope := call }

/-- The call that evaluating an expression makes, if it comes to one. -/
def closureCall? (n : Nat) (v : Ref) (m : Machine) : Option (Closure × Machine × Machine) :=
  match m.heap.cell? v with
  | some (.live (.pair none none)) => none
  | some (.live (.pair car cdr)) =>
    match eval n car m with
    | .error _ _ => none
    | .ok operator m₁ =>
      match m₁.heap.cell? operator, m₁.heap.elements? cdr with
      | some (.live (.closure c)), some given =>
        if given.length = ((m₁.heap.elements? c.params).getD []).length then
          match given.mapM (passArgument (eval n)) m₁ with
          | .error _ _ => none
          | .ok values caller =>
            match callScope c values caller with
            | .error _ _ => none
            | .ok call m₂ => some (c, caller, { m₂ with scope := call })
        else none
      | _, _ => none
  | _ => none

theorem callsClosure_of_closureCall? {n : Nat} {v : Ref} {m caller entered : Machine} {c : Closure}
    (hc : closureCall? n v m = some (c, caller, entered)) : CallsClosure n v m c caller entered := by
  unfold closureCall? at hc
  split at hc
  · cases hc
  · rename_i car cdr hnil hcell
    obtain ⟨a, rfl, -⟩ := Option.map_eq_some_iff.mp hcell
    split at hc
    · cases hc
    · rename_i operator m₁ hoperator
      split at hc
      · rename_i c' given hclosure hgiven
        obtain ⟨o, rfl, -⟩ := Option.map_eq_some_iff.mp hclosure
        split at hc
        · rename_i hlength
          split at hc
          · cases hc
          · rename_i values caller hvalues
            split at hc
            · cases hc
            · rename_i call m₂ hcall
              cases hc
              refine .intro (Option.some.inj hcell) ?_ hoperator (Option.some.inj hclosure) hgiven
                hlength hvalues hcall
              cases car with
              | some car => exact Or.inl (by simp)
              | none => exact Or.inr (hnil rfl)
        · cases hc
      · cases hc
  · cases hc

namespace CallsClosure

variable {n : Nat} {v : Ref} {m caller entered : Machine} {c : Closure}

/-- The call ends as the body does, back in the environment of the caller. -/
theorem eval_eq (hc : CallsClosure n v m c caller entered) :
    m.eval (n + 1) v = ((entered.eval n c.body).1,
      { (entered.eval n c.body).2 with scope := caller.scope }) := by
  cases hc with
  | @intro a o car cdr given values call c m m₁ caller m₂ hpair hnil hoperator hclosure hgiven
      hlength hvalues hcall =>
      have heval : ArenaLisp.eval (n + 1) (some a) m =
          inScope call (ArenaLisp.eval n c.body) m₂ := by
        show evalStep (ArenaLisp.eval n) (some a) m = _
        rw [evalStep_pair hpair fun hboth => by simp [hboth] at hnil, bind_ok hoperator,
          apply_closure hclosure, applyClosure_full hgiven hlength, bind_ok hvalues, bind_ok hcall]
      unfold Machine.eval
      rw [heval, inScope_eq, (callScope_grows hcall).1]
      cases ArenaLisp.eval n c.body { m₂ with scope := call } <;> rfl

/-- The call is made on a sound machine, of a closure that is there, with registered values. -/
theorem opened (hs : m.Sound) (hv : m.heap.LiveRef v) (hc : CallsClosure n v m c caller entered) :
    caller.Sound ∧ m.Evolves caller ∧ caller.heap.HasClosure c ∧
      ∃ values call m₂, (∀ w ∈ values, caller.heap.LiveRef w ∧ caller.Handed w) ∧
        callScope c values caller = .ok call m₂ ∧ entered = { m₂ with scope := call } := by
  cases hc with
  | @intro a o car cdr given values call c m m₁ caller m₂ hpair hnil hoperator hclosure hgiven
      hlength hvalues hcall =>
      obtain ⟨hcar, hcdr⟩ := (Heap.liveRef_some.mp hv).pair hpair
      have hends := eval_keeps n car m hs hcar
      rw [hoperator] at hends
      obtain ⟨hs₁, he₁, ho⟩ := hends
      have hclosure₁ : m₁.heap.HasClosure c := ⟨o, hclosure, Heap.liveRef_some.mp ho⟩
      have hpassed := (passArguments_program hs₁
        (Heap.elements?_live (he₁.liveRef hs hcdr) hgiven)).ends (eval_keeps n) hs₁
      rw [hvalues] at hpassed
      obtain ⟨hs₂, he₂, -, hlive⟩ := hpassed
      exact ⟨hs₂, he₁.trans hs he₂, he₂.hasClosure hs₁ hclosure₁, values, call, m₂, hlive, hcall, rfl⟩

/-- The environment of the body is made in front of the caller's and registered. -/
theorem calls (hs : m.Sound) (hv : m.heap.LiveRef v) (hc : CallsClosure n v m c caller entered) :
    entered.Sound ∧ caller.Calls entered ∧ entered.heap.LiveRef c.body ∧
      ∃ values front, caller.heap.Enters entered.heap values caller.env front entered.scope ∧
        (∀ w ∈ values, caller.heap.LiveRef w ∧ caller.Handed w) ∧
        ∀ b ∈ front, entered.Tracked (.binding b) ∧ entered.Handed (entered.heap.binding b).value := by
  obtain ⟨hs₂, -, hclosure, values, call, m₂, hlive, hcall, rfl⟩ := hc.opened hs hv
  obtain ⟨hparams, hbody, hcaptured⟩ := hclosure.live
  have hopens := opens_callScope hs₂ hparams hcaptured hlive
  have hends := hopens.ends
  rw [hcall] at hends
  exact ⟨hends.2.1, hends.2.2, hends.2.2.grown.liveRef hbody, hopens.entered call m₂ hcall⟩

/-- The body is asked for in the end. -/
theorem asks (hs : m.Sound) (hv : m.heap.LiveRef v) (hc : CallsClosure n v m c caller entered) :
    Asks (fun ev => evalStep ev v) (ArenaLisp.eval n) m c.body entered := by
  cases hc with
  | @intro a o car cdr given values call c m m₁ caller m₂ hpair hnil hoperator hclosure hgiven
      hlength hvalues hcall =>
      obtain ⟨hcar, hcdr⟩ := (Heap.liveRef_some.mp hv).pair hpair
      have hends := eval_keeps n car m hs hcar
      rw [hoperator] at hends
      obtain ⟨hs₁, he₁, -⟩ := hends
      have hbody : Asks (fun ev => callScope c values >>= fun call => inScope call (ev c.body))
          (ArenaLisp.eval n) caller c.body { m₂ with scope := call } := by
        refine ⟨{ m₂ with scope := m₂.scope }, fun halt => ?_⟩
        show (callScope c values >>= _) caller = _
        rw [bind_ok hcall, inScope_eq, Evaluator.haltingAt, if_pos ⟨rfl, rfl⟩]
      have hpassed := (passArguments_program hs₁ (Heap.elements?_live (he₁.liveRef hs hcdr)
        hgiven)).asks_bind (f := fun values ev => callScope c values >>= fun call =>
          inScope call (ev c.body)) (eval_keeps n) hs₁ hvalues hbody
      have happly : Asks (fun ev => apply ev (some o) cdr) (ArenaLisp.eval n) m₁ c.body _ :=
        hpassed.congr fun ev => by rw [apply_closure hclosure, applyClosure_full hgiven hlength]
      exact happly.applied (eval_keeps n) hs hv hpair (fun hboth => by simp [hboth] at hnil) hoperator

/-- The caller is sound, and its names that the closure binds are hidden from the body. -/
theorem enters (hs : m.Sound) (hv : m.heap.LiveRef v) (hc : CallsClosure n v m c caller entered) :
    caller.Sound ∧ entered.Sound ∧ entered.heap.LiveRef c.body ∧
      caller.heap.Extends entered.heap ∧
      ∃ front, entered.env = front ++ caller.env ∧ (∀ b ∈ front, ¬caller.heap.Has (.binding b)) ∧
        ∀ name ∈ caller.heap.paramNames c ++ caller.heap.capturedNames c,
          ∃ b ∈ front, entered.heap.boundName? b = some name := by
  obtain ⟨hs₃, hcalls, hbody, -⟩ := hc.calls hs hv
  obtain ⟨hs₂, -, hclosure, values, call, m₂, hlive, hcall, rfl⟩ := hc.opened hs hv
  obtain ⟨hparams, -, hcaptured⟩ := hclosure.live
  obtain ⟨cs, fs, ns, hent, hbinds⟩ := callScope_ok hs₂ hparams hcaptured
    (fun w hw => (hlive w hw).1) hcall
  refine ⟨hs₂, hs₃, hbody, hent.grown, cs ++ fs, hent.linked.chain_eq, hent.fresh, ?_⟩
  exact hbinds.names hs₂.bounded hparams hcaptured hent.grown

end CallsClosure

/-! ## The frame -/

/-- What evaluation leaves as it was. -/
structure Machine.Frame (m m' : Machine) : Prop where
  /-- Values, with the bindings that closures among them have taken along. -/
  values : ∀ a, m.heap.Has (.value a) → ∀ k, m.heap.Reaches (.value a) k →
    m.heap.AgreeAt m'.heap k
  /-- Names and links of bindings, and whether they are released. -/
  bindings : ∀ b, m.heap.Has (.binding b) →
    (m'.heap.binding b).name = (m.heap.binding b).name ∧
    (m'.heap.binding b).next = (m.heap.binding b).next ∧
    (m'.heap.binding b).released = (m.heap.binding b).released
  /-- The values of bindings that cannot be looked up from the environment. -/
  unwritten : ∀ b, m.heap.Has (.binding b) → ¬m.heap.Exposed m.scope b →
    (m'.heap.binding b).value = (m.heap.binding b).value
  /-- The environment, behind bindings that are new. -/
  env : ∃ news, m'.heap.chain m'.scope = news ++ m.heap.chain m.scope ∧
    ∀ b ∈ news, ¬m.heap.Has (.binding b)
  /-- Every other environment. -/
  chains : ∀ c bs, m.heap.Linked c bs → m'.heap.Linked c bs

theorem Machine.Evolves.frame {m m' : Machine} (hs : m.Sound) (he : m.Evolves m') :
    m.Frame m' where
  values a ha k hk := by
    refine he.agreeAt (hs.bounded.reaches_has ha hk) fun b hb => ?_
    rintro rfl
    exact hs.sealed a b hb hk
  bindings := he.fixed
  unwritten b hb hx := (he.written b hb).resolve_right hx
  env := by
    obtain ⟨news, henv, hnews⟩ := he.grown
    exact ⟨news, henv, fun b hb => (hnews b hb).1⟩
  chains c bs hc := hc.congr fun b hb => ⟨he.has (hc.has hb), (he.fixed b (hc.has hb)).2.1⟩

theorem Machine.Sound.frame_eval {m : Machine} (hs : m.Sound) {v : Ref} (hv : m.heap.LiveRef v)
    (n : Nat) : m.Frame (m.eval n v).2 := by
  rw [eval_snd]
  exact (eval_keeps n v m hs hv).final.2.frame hs

/-- A binding is out of reach where another of its name stands in front. -/
theorem CallsClosure.spares {n : Nat} {v : Ref} {m caller entered : Machine} {c : Closure}
    (hs : m.Sound) (hv : m.heap.LiveRef v) (hc : CallsClosure n v m c caller entered)
    {b : BindingId} (hb : b ∈ caller.env) {name : String}
    (hname : name ∈ caller.heap.paramNames c ++ caller.heap.capturedNames c)
    (hbound : caller.heap.boundName? b = some name) :
    (entered.eval n c.body).2.heap.binding b = caller.heap.binding b := by
  obtain ⟨hs₂, hs₃, hbody, hgrown, front, henv, hfresh, hnames⟩ := hc.enters hs hv
  have hhas := hs₂.env_has hb
  have hframe := hs₃.frame_eval hbody n
  have hbound' : entered.heap.boundName? b = some name := by
    rw [← hbound]
    exact hs₂.boundName?_congr hb (by rw [hgrown.binding b hhas]) hgrown.cell
  have hhidden : ¬entered.heap.Exposed entered.scope b := by
    intro hx
    obtain ⟨before, after, _, hbefore⟩ := hx.split henv fun hmem => hfresh b hmem hhas
    obtain ⟨b', hb', hsame⟩ := hnames name hname
    exact hbefore b' (List.mem_append_left _ hb') (hsame.trans hbound'.symm)
  obtain ⟨hn, hnext, hreleased⟩ := hframe.bindings b (hgrown.has hhas)
  have hvalue := hframe.unwritten b (hgrown.has hhas) hhidden
  rw [← hgrown.binding b hhas]
  cases hold : entered.heap.binding b
  cases hnew : (entered.eval n c.body).2.heap.binding b
  simp_all

namespace Interpreter

/--
**The frame of evaluation.** Whatever a session evaluates, at whatever depth and with
whatever end, leaves its frame as it was. The body of a closure moreover adds nothing to the
environment of the caller, and leaves alone the caller's bindings of the closure's parameters
and of the names it has taken along.
-/
theorem evaluation_frame {extra : List (String × Builtin)} {print reads : Bool}
    {i : Interpreter} (hi : new extra print reads = .ok i) {n : Nat} {v : Ref} {m : Machine}
    (hv : i.Evaluates n v m) :
    m.Frame (m.eval n v).2 ∧
    ∀ k c caller entered, n = k + 1 → CallsClosure k v m c caller entered →
      (m.eval n v).2 = { (entered.eval k c.body).2 with scope := caller.scope } ∧
      entered.Frame (entered.eval k c.body).2 ∧
      (m.eval n v).2.env = caller.env ∧
      ∀ b ∈ caller.env, ∀ name ∈ caller.heap.paramNames c ++ caller.heap.capturedNames c,
        caller.heap.boundName? b = some name →
        (m.eval n v).2.heap.binding b = caller.heap.binding b := by
  obtain ⟨hs, hlive⟩ := hv.sound (new_rooted hi).1
  refine ⟨hs.frame_eval hlive n, ?_⟩
  rintro k c caller entered rfl hc
  obtain ⟨hs₂, hs₃, hbody, hgrown, _⟩ := hc.enters hs hlive
  have hframe := hs₃.frame_eval hbody k
  rw [hc.eval_eq]
  refine ⟨rfl, hframe, ?_, fun b hb name hname hbound => hc.spares hs hlive hb hname hbound⟩
  exact (hframe.chains _ _ (hgrown.linked hs₂.linked)).chain_eq

/-- A parameter is set by the body where the caller has a variable of the same name. -/
theorem evaluation_frame_hidden : ∃ (i : Interpreter) (e₁ e₂ : Expression) (v : Ref) (m : Machine)
    (c : Closure) (caller entered : Machine) (b : BindingId),
    new [("list-args", .arguments)] true true = .ok i ∧
    e₁.tree = .ofList [.atom "set", .quote (.atom "x"), .number (.int 1)] ∧
    e₂.tree = .ofList [.ofList [.atom "lambda", .ofList [.atom "x"],
      .ofList [.atom "set", .quote (.atom "x"), .number (.int 2)]], .number (.int 3)] ∧
    v = (Heap.store e₂.tree (i.run [.exec 9 e₁]).heap).1 ∧
    m = (i.run [.exec 9 e₁]).machine.started e₂.tree ∧
    i.Evaluates 9 v m ∧ CallsClosure 8 v m c caller entered ∧
    m.Frame (m.eval 9 v).2 ∧ entered.Frame (entered.eval 8 c.body).2 ∧
    (m.eval 9 v).2.env = caller.env ∧ b ∈ caller.env ∧ caller.heap.boundName? b = some "x" ∧
    (m.eval 9 v).2.heap.binding b = caller.heap.binding b := by
  have h₁ : readOne "(set 'x 1)".toUTF8.toList = .ok (.ofList [.atom "set", .quote (.atom "x"),
    .number (.int 1)]) := by decide +kernel
  have h₂ : readOne "((lambda (x) (set 'x 2)) 3)".toUTF8.toList = .ok (.ofList [.ofList
    [.atom "lambda", .ofList [.atom "x"], .ofList [.atom "set", .quote (.atom "x"),
    .number (.int 2)]], .number (.int 3)]) := by decide +kernel
  have hcall : ((new [("list-args", .arguments)] true true).toOption.any fun i =>
      let j := (i.execTree 9 (.ofList [.atom "set", .quote (.atom "x"), .number (.int 1)])).2
      let t : Tree := .ofList [.ofList [.atom "lambda", .ofList [.atom "x"],
        .ofList [.atom "set", .quote (.atom "x"), .number (.int 2)]], .number (.int 3)]
      (closureCall? 8 (Heap.store t j.heap).1 (j.machine.started t)).any fun (c, caller, _) =>
        (caller.heap.paramNames c).contains "x" &&
          caller.env.any fun b => caller.heap.boundName? b == some "x") = true := by
    decide +kernel
  obtain ⟨i, hi⟩ := new_arguments
  have hev := Evaluates.turn (i := i) [.exec 9 (.ofText _ h₁)] 9 (.ofText _ h₂) .whole
  obtain ⟨hframe, hcalls⟩ := evaluation_frame hi hev
  rw [hi] at hcall
  obtain ⟨i', hi', hcall⟩ := (Option.any_eq_true _ _).mp hcall
  obtain rfl : i = i' := Option.some.inj hi'
  dsimp only at hcall
  obtain ⟨⟨c, caller, entered⟩, hc, hx⟩ := (Option.any_eq_true _ _).mp hcall
  dsimp only at hx
  obtain ⟨hparam, hx⟩ := Bool.and_eq_true_iff.mp hx
  obtain ⟨b, hb, hname⟩ := List.any_eq_true.mp hx
  have hname' : caller.heap.boundName? b = some "x" := by simpa using hname
  have hrun : i.run [.exec 9 (.ofText _ h₁)] = (i.execTree 9 (.ofList [.atom "set",
    .quote (.atom "x"), .number (.int 1)])).2 := rfl
  rw [← hrun] at hc
  have hcc := callsClosure_of_closureCall? hc
  obtain ⟨_, hentered, henv, hspares⟩ := hcalls 8 c caller entered rfl hcc
  refine ⟨i, .ofText _ h₁, .ofText _ h₂, _, _, c, caller, entered, b, hi, rfl, rfl, rfl, rfl, hev,
    hcc, hframe, hentered, henv, hb, hname', hspares b hb "x" ?_ hname'⟩
  exact List.mem_append_left _ (by simpa using hparam)

end Interpreter

end ArenaLisp
