import ArenaLisp.Proofs.Course

/-!
# Names in the body of a closure

Where the body of a closure starts, every name has one of three meanings. A parameter stands for
a copy of the value of its argument. Another name of the body that was bound where the closure
was made stands for a copy of what it was bound to there and then. All others have the meaning
they have for the caller.

What the closure has taken along is searched first, so this rests on two facts: a closure takes
no parameter along, and what it has taken along is the same however often the closure was copied
and whatever was bound in between.
-/

namespace ArenaLisp

namespace Heap

/-- The value of the first of some bindings that has a given name. -/
def lookupAmong (h : Heap) (bs : List BindingId) (x : String) : Option Ref :=
  (bs.find? fun b => h.boundName? b == some x).map fun b => (h.binding b).value

variable {h h' : Heap}

theorem lookup?_eq (c : Chain) (x : String) : h.lookup? c x = h.lookupAmong (h.chain c) x := by
  rw [lookup?, findBinding?_eq, lookupAmong]

theorem lookupAmong_cons (b : BindingId) (bs : List BindingId) (x : String) :
    h.lookupAmong (b :: bs) x =
      if h.boundName? b = some x then some (h.binding b).value else h.lookupAmong bs x := by
  unfold lookupAmong
  rw [List.find?_cons]
  by_cases hx : h.boundName? b = some x
  · rw [if_pos hx, show (h.boundName? b == some x) = true from beq_iff_eq.mpr hx]
    rfl
  · rw [if_neg hx, show (h.boundName? b == some x) = false from beq_eq_false_iff_ne.mpr hx]

theorem lookupAmong_append (front bs : List BindingId) (x : String) :
    h.lookupAmong (front ++ bs) x = (h.lookupAmong front x).or (h.lookupAmong bs x) := by
  unfold lookupAmong
  rw [List.find?_append]
  cases front.find? fun b => h.boundName? b == some x with
  | some b => rfl
  | none => rfl

theorem lookupAmong_congr {bs : List BindingId}
    (hbs : ∀ b ∈ bs, h'.boundName? b = h.boundName? b ∧ (h'.binding b).value = (h.binding b).value)
    (x : String) : h'.lookupAmong bs x = h.lookupAmong bs x := by
  induction bs with
  | nil => rfl
  | cons b bs ih =>
      obtain ⟨hname, hvalue⟩ := hbs b List.mem_cons_self
      rw [lookupAmong_cons, lookupAmong_cons, hname, hvalue,
        ih fun b' hb' => hbs b' (List.mem_cons_of_mem _ hb')]

theorem lookupAmong_unfolds {bs : List BindingId} {env : Reference.Env}
    (henv : List.Forall₂ h.Entry bs env) (x : String) :
    Option.Rel h.Unfolds (h.lookupAmong bs x) (Reference.lookup? env x) := by
  induction henv with
  | nil => exact .none
  | @cons b e bs env hb _ ih =>
      rw [lookupAmong_cons, Reference.lookup?_cons, hb.boundName?]
      by_cases hx : e.1 = x
      · rw [if_pos (congrArg some hx), if_pos hx]
        exact .some hb.2
      · rw [if_neg (fun heq => hx (Option.some.inj heq)), if_neg hx]
        exact ih

/-- The bindings of a frame bind each name to the value at its first position. -/
theorem lookupAmong_frame {fs : List BindingId} {ns values : List Ref} {names : List String}
    (hframe : fs.map h.bound = ns.zip values)
    (hnames : List.Forall₂ h.Unfolds ns (names.map .atom)) (hlength : ns.length = values.length)
    (x : String) : h.lookupAmong fs x = values[names.idxOf x]? := by
  induction names generalizing fs ns values with
  | nil =>
      cases hnames
      obtain rfl := List.length_eq_zero_iff.mp hlength.symm
      obtain rfl := List.map_eq_nil_iff.mp hframe
      rfl
  | cons name names ih =>
      cases hnames with
      | @cons p _ ns _ hp hnames =>
          cases values with
          | nil => cases hlength
          | cons value values =>
              cases fs with
              | nil => cases hframe
              | cons b fs =>
                  obtain ⟨hbound, hrest⟩ := List.cons.inj hframe
                  have hname : h.boundName? b = some name := by
                    rw [boundName?, show (h.binding b).name = p from congrArg Prod.fst hbound,
                      hp.cell?_atom]
                    rfl
                  have hvalue : (h.binding b).value = value := congrArg Prod.snd hbound
                  rw [lookupAmong_cons, hname, hvalue, List.idxOf_cons]
                  by_cases hx : name = x
                  · rw [if_pos (congrArg some hx), show (name == x) = true from beq_iff_eq.mpr hx]
                    rfl
                  · rw [if_neg (fun heq => hx (Option.some.inj heq)),
                      show (name == x) = false from beq_eq_false_iff_ne.mpr hx,
                      ih hrest hnames (Nat.succ.inj hlength)]
                    rfl

/-- What a call binds to what the closure has taken along is made for the call. -/
theorem Binds.captured_made {c : Closure} {values ns : List Ref} {cs fs : List BindingId}
    (hb : h.Binds h' c values cs fs ns) (hbd : h.Bounded) (hc : h.LiveChain c.captured)
    {b : BindingId} (hmem : b ∈ cs) {k : Node} (hk : h'.Holds (h'.binding b).value k) :
    ¬h.Has k := by
  obtain ⟨cs', hlinked, -, hmade⟩ := copyChain_linked hbd hc
  obtain rfl := hb.copied.unique hlinked
  obtain ⟨hlive, hreaches⟩ := hmade b hmem
  have hvalue : (h'.binding b).value = ((h.copyChain c.captured).2.binding b).value :=
    congrArg Prod.snd (hb.captured b hmem)
  rw [hvalue] at hk
  have hk' := (holds_congr (hb.kept _ hlive.fields.2.1)).mp hk
  obtain ⟨a, ha, hr⟩ := hk'
  refine (hreaches k ((Reaches.of_part ?_).trans hr)).2
  simp only [parts, Binding.parts, List.mem_append]
  exact Or.inr (Or.inl (by rw [ha]; exact Node.mem_ofRef.mpr ⟨a, rfl, rfl⟩))

end Heap

namespace Machine

/-- Whether a value has the structure of an earlier one, and nothing of it was there then. -/
structure HasCopy (m : Machine) (v : Ref) (m' : Machine) (v' : Ref) : Prop where
  view_eq : m'.heap.view v' = m.heap.view v
  fresh : ∀ k, m'.heap.Holds v' k → ¬m.heap.Has k

/-- What a name stands for in the environment, if it is bound. -/
def resolve? (m : Machine) (x : String) : Option Tree :=
  (m.heap.lookup? m.scope x).map m.heap.view

theorem Models.resolve?_eq {m : Machine} {env : Reference.Env} (hm : m.Models env) (hs : m.Sound)
    (x : String) : m.resolve? x = Reference.lookup? env x := by
  have hlookup := Heap.lookup?_unfolds hs.linked hm x
  rw [resolve?]
  generalize m.heap.lookup? m.scope x = v at hlookup
  generalize Reference.lookup? env x = t at hlookup
  cases hlookup with
  | none => rfl
  | some hu => exact congrArg some hu.view_eq

end Machine

open EvalM Machine

/--
Where a body starts, a name is looked up among what was taken along, then among the parameters,
then where the caller looks it up.
-/
theorem Application.Entered.lookup?_eq {n : Nat} {v : Ref} {m entered : Machine}
    {f : Application n v m} {names : List String} {body : Tree} {captured : Scope}
    {values : List Tree} (he : f.Entered names body captured values entered)
    (hd : f.Denotes names body captured values) (x : String) :
    ∃ taken, Option.Rel entered.heap.Unfolds taken
        (Reference.lookup? (Reference.ofScope captured) x) ∧
      (∀ w ∈ taken, ∀ k, entered.heap.Holds w k → ¬f.caller.heap.Has k) ∧
      entered.heap.lookup? entered.scope x =
        taken.or ((f.values[names.idxOf x]?).or (f.caller.heap.lookup? f.caller.scope x)) := by
  obtain ⟨cs, fs, ns, henters, hbinds, hnames⟩ := he.binds
  obtain ⟨-, -, -, -, hcaptured⟩ := hd.parts
  have hs := hd.caller.sound
  refine ⟨entered.heap.lookupAmong cs x,
    Heap.lookupAmong_unfolds (hbinds.captured_entries hcaptured) x, ?_, ?_⟩
  · intro w hw k hk
    obtain ⟨b, hfind, rfl⟩ := Option.map_eq_some_iff.mp hw
    exact hbinds.captured_made hs.bounded hcaptured.liveChain (List.mem_of_find?_eq_some hfind) hk
  · have hframe := Heap.lookupAmong_frame hbinds.frame
      (hnames.imp fun _ _ => henters.grown.unfolds) hbinds.length x
    -- the bindings of the caller are as they were
    have hcaller : entered.heap.lookupAmong f.caller.env x =
        f.caller.heap.lookup? f.caller.scope x := by
      rw [Heap.lookup?_eq]
      refine Heap.lookupAmong_congr (fun b hb => ?_) x
      have hsame := henters.grown.binding b (hs.env_has hb)
      refine ⟨hs.boundName?_congr hb (by rw [hsame]) henters.grown.cell, by rw [hsame]⟩
    rw [Heap.lookup?_eq, henters.linked.chain_eq, Heap.lookupAmong_append, Heap.lookupAmong_append,
      hframe, hcaller, Option.or_assoc]

section

variable {n : Nat} {v : Ref} {m entered : Machine} {f : Application n v m} {names : List String}
  {body : Tree} {captured : Scope} {values : List Tree} {x : String}

/-- A parameter that was not taken along stands for a copy of its first argument. -/
theorem Application.Entered.lookup?_parameter (he : f.Entered names body captured values entered)
    (hd : f.Denotes names body captured values)
    (hfull : f.given.length = f.reached.heap.arity f.closure) (hx : x ∈ names)
    (hcaptured : Reference.lookup? (Reference.ofScope captured) x = none) :
    ∃ r copy, f.results[names.idxOf x]? = some r ∧
      entered.heap.lookup? entered.scope x = some copy ∧ r.2.HasCopy r.1 entered copy := by
  obtain ⟨taken, htaken, -, hlookup⟩ := he.lookup?_eq hd x
  rw [hcaptured] at htaken
  cases htaken
  have hidx : names.idxOf x < f.results.length := by
    rw [hd.results.length_eq, hd.length_eq, hfull, hd.arity]
    exact List.idxOf_lt_length_of_mem hx
  have hresult := List.getElem?_eq_getElem hidx
  obtain ⟨copy, hcopied, -, hfresh⟩ := forall₂_getElem? hd.copied hresult
  obtain ⟨t, ht, -, hu⟩ := forall₂_getElem? hd.results hresult
  obtain ⟨t', ht', -, hu'⟩ := forall₂_getElem? hd.passes hcopied
  cases ht.symm.trans ht'
  have hentered := he.calls.grown.unfolds hu'
  refine ⟨_, copy, hresult, ?_, ?_, fun k hk => hfresh k ?_⟩
  · rw [hlookup, hcopied]
    rfl
  · rw [hentered.view_eq, Heap.Unfolds.view_eq hu]
  · exact ((Retains.of_calls he.calls).holds_iff hd.caller.sound hu'.liveRef hentered.liveRef).mp hk

/-- A name that was taken along stands for a copy made for the call. -/
theorem Application.Entered.lookup?_captured (he : f.Entered names body captured values entered)
    (hd : f.Denotes names body captured values) {t : Tree}
    (hcaptured : Reference.lookup? (Reference.ofScope captured) x = some t) :
    ∃ copy, entered.heap.lookup? entered.scope x = some copy ∧ entered.heap.Unfolds copy t ∧
      ∀ k, entered.heap.Holds copy k → ¬f.caller.heap.Has k := by
  obtain ⟨taken, htaken, hmade, hlookup⟩ := he.lookup?_eq hd x
  rw [hcaptured] at htaken
  cases htaken with
  | @some copy _ hu => exact ⟨copy, hlookup, hu, hmade copy rfl⟩

/-- Any other name is bound where the caller has it bound. -/
theorem Application.Entered.lookup?_caller (he : f.Entered names body captured values entered)
    (hd : f.Denotes names body captured values)
    (hfull : f.given.length = f.reached.heap.arity f.closure) (hx : x ∉ names)
    (hcaptured : Reference.lookup? (Reference.ofScope captured) x = none) :
    entered.heap.lookup? entered.scope x = f.caller.heap.lookup? f.caller.scope x ∧
      entered.resolve? x = f.caller.resolve? x := by
  obtain ⟨taken, htaken, -, hlookup⟩ := he.lookup?_eq hd x
  rw [hcaptured] at htaken
  cases htaken
  have hlength : f.values.length = names.idxOf x := by
    rw [List.idxOf_eq_length hx, hd.passes.length_eq, hd.length_eq, hfull, hd.arity]
  rw [Option.none_or, List.getElem?_eq_none (Nat.le_of_eq hlength), Option.none_or] at hlookup
  refine ⟨hlookup, ?_⟩
  obtain ⟨env, hm, -⟩ := hd.caller.bound
  have hcaller := Heap.lookup?_unfolds hd.caller.sound.linked hm x
  rw [resolve?, resolve?, hlookup]
  generalize f.caller.heap.lookup? f.caller.scope x = found at hcaller
  generalize Reference.lookup? env x = t at hcaller
  cases hcaller with
  | none => rfl
  | some hu =>
      rw [Option.map_some, Option.map_some, (he.calls.grown.unfolds hu).view_eq, hu.view_eq]

end

/-- What a closure has taken along: the names of its body that are not parameters. -/
theorem Creation.Denotes.lookup?_taken {n : Nat} {v : Ref} {m : Machine} {f : Creation n v m}
    {env : Reference.Env} {params body : Tree} {names : List String}
    (hd : f.Denotes env params body names) (x : String) :
    Reference.lookup? (Reference.capture env (params.freeNames body) []) x =
      if x ∈ body.atoms ∧ x ∉ names then Reference.lookup? env x else none := by
  rw [Reference.lookup?_capture]
  simp only [Tree.mem_freeNames hd.hasNames]
  exact if_congr Iff.rfl Option.or_none rfl

namespace Interpreter

/--
What is applied is what was made: if a closure is a copy of one that was made, it unfolds into
what that did.
-/
theorem Carries.denotes {i : Interpreter} (hr : i.machine.Resting) {n : Nat} {v : Ref} {m : Machine}
    {f : Creation n v m} {env : Reference.Env} {params body : Tree} {names : List String}
    (hf : f.Denotes env params body names) {k : Nat} {w : Ref} {s : Machine} {g : Application k w s}
    {names' : List String} {body' : Tree} {captured : Scope} {values : List Tree}
    (hg : g.Denotes names' body' captured values)
    (hcopy : i.Carries f.after f.made g.reached (some g.operator)) :
    names' = names ∧ body' = body ∧
      captured = Reference.toScope (Reference.capture env (params.freeNames body) []) := by
  obtain ⟨params', hu, -⟩ := hg.closure
  exact hg.unique (hcopy.unfolds hr hf.sound hf.made hu.liveRef) hf.hasNames

/--
**The names of a body.** Let `lambda` make a closure, and let this closure or any copy of it be
applied later, in whatever environment, to as many arguments as it has parameters. Then its body
is evaluated. Where that starts, a parameter stands for a copy of the value of the argument at its
first position. Any other name of the body that was bound where the closure was made stands for a
copy of what it was bound to then. And any other name at all is bound where the caller has it bound
once the arguments are evaluated.
-/
theorem body_resolves_names {extra : List (String × Builtin)} {print reads : Bool}
    {i : Interpreter} (hi : new extra print reads = .ok i) {n : Nat} {v : Ref} {m : Machine}
    (hmakes : i.Evaluates (n + 1) v m) (f : Creation n v m) {k : Nat} {w : Ref} {s : Machine}
    (happlies : i.Evaluates (k + 1) w s) (g : Application k w s)
    (hcopy : i.Carries f.after f.made g.reached (some g.operator))
    (hfull : g.given.length = g.reached.heap.arity g.closure) :
    ∃ (names : List String) (entered : Machine),
      (f.defined.heap.view f.params).elements? = some (names.map .atom) ∧
      g.Enters entered ∧
      Asks (fun ev => evalStep ev w) (ArenaLisp.eval k) s g.closure.body entered ∧
      entered.heap.view g.closure.body = f.defined.heap.view f.body ∧
      ∀ x,
        (x ∈ names → ∃ r copy, g.results[names.idxOf x]? = some r ∧
          entered.heap.lookup? entered.scope x = some copy ∧ r.2.HasCopy r.1 entered copy) ∧
        (x ∉ names → x ∈ (f.defined.heap.view f.body).atoms → ∀ value,
          f.defined.heap.lookup? f.defined.scope x = some value → ∃ copy,
            entered.heap.lookup? entered.scope x = some copy ∧
            f.defined.HasCopy value entered copy) ∧
        (x ∉ names →
          (x ∈ (f.defined.heap.view f.body).atoms →
            f.defined.heap.lookup? f.defined.scope x = none) →
          entered.heap.lookup? entered.scope x = g.caller.heap.lookup? g.caller.scope x ∧
          entered.resolve? x = g.caller.resolve? x) := by
  have hr := new_resting hi
  obtain ⟨ho, hcode⟩ := hmakes.orderly hr
  obtain ⟨env, params, body, names, hf⟩ := f.denotes ho hcode
  obtain ⟨ho', hcode'⟩ := happlies.orderly hr
  obtain ⟨names', body', captured, values, hg⟩ := g.denotes ho' hcode'
  obtain ⟨rfl, rfl, rfl⟩ := hcopy.denotes hr hf hg
  obtain ⟨entered, he⟩ := hg.entered ho' hcode' hfull
  refine ⟨names', entered, ?_, he.enters, he.asked, ?_, fun x => ?_⟩
  · rw [hf.hasParams.view_eq]
    exact hf.hasNames
  · rw [he.body.view_eq, hf.hasBody.view_eq]
  · rw [hf.hasBody.view_eq]
    have hcaptured := hf.lookup?_taken x
    rw [← Reference.ofScope_toScope (Reference.capture _ _ _)] at hcaptured
    have hbound := Heap.lookup?_unfolds hf.orderly.sound.linked hf.models x
    refine ⟨fun hx => ?_, fun hx hatom value hvalue => ?_, fun hx hunbound => ?_⟩
    -- what was taken along is searched first, so a parameter must not be among it
    · rw [if_neg fun h => h.2 hx] at hcaptured
      exact he.lookup?_parameter hg hfull hx hcaptured
    · rw [hvalue] at hbound
      rw [if_pos ⟨hatom, hx⟩] at hcaptured
      generalize Reference.lookup? env x = t at hbound hcaptured
      cases hbound with
      | some hbound =>
          obtain ⟨copy, hfound, hu, hmade⟩ := he.lookup?_captured hg hcaptured
          have hlater := ((Retains.of_evolves hf.evolves).trans (hcopy.retains hr)).trans
            (Retains.of_evolves hg.passed)
          refine ⟨copy, hfound, ?_, fun l hl hhas => hmade l hl (hlater.has l hhas)⟩
          rw [hu.view_eq, hbound.view_eq]
    · refine he.lookup?_caller hg hfull hx (hcaptured.trans ?_)
      by_cases hatom : x ∈ body'.atoms
      · rw [hunbound hatom] at hbound
        generalize Reference.lookup? env x = t at hbound
        cases hbound
        exact ite_self none
      · exact if_neg fun h => hatom h.1

/-! ## Turns that define a closure -/

/-- A turn that sets a variable to a closure. -/
structure Definition (i : Interpreter) (n : Nat) (steps : List Step) (e : Expression) where
  assignment : Assignment (n + 1) (Heap.store e.tree (i.run steps).heap).1
    ((i.run steps).machine.started e.tree)
  creation : Creation n assignment.source assignment.named
  asks : Asks (fun ev => evalStep ev (Heap.store e.tree (i.run steps).heap).1)
    (ArenaLisp.eval (n + 1)) ((i.run steps).machine.started e.tree) assignment.source assignment.named

/-- The closure that a turn sets a variable to, if it does. -/
def definition? {i : Interpreter} (hr : i.machine.Resting) (n : Nat) (steps : List Step)
    (e : Expression) : Option (Definition i n steps e) :=
  match assignment? (n + 1) (Heap.store e.tree (i.run steps).heap).1
    ((i.run steps).machine.started e.tree) with
  | none => none
  | some a =>
    match creation? n a.source a.named with
    | none => none
    | some f =>
      if hup : gaveUp (evalStep ((ArenaLisp.eval (n + 1)).haltingAt a.source a.named .dangling)
          (Heap.store e.tree (i.run steps).heap).1 ((i.run steps).machine.started e.tree)) = true then
        some ⟨a, f, (Evaluates.turn steps (n + 2) e .whole).asks hr hup⟩
      else none

namespace Definition

variable {i : Interpreter} {n : Nat} {steps : List Step} {e : Expression}

theorem makes (d : Definition i n steps e) :
    i.Evaluates (n + 1) d.assignment.source d.assignment.named :=
  (Evaluates.turn steps (n + 2) e .whole).asked d.asks

/-- In any later turn the variable stands for a copy of the closure. -/
theorem carries (d : Definition i n steps e) (more : List Step) {e' : Expression} {k : Nat} {v : Ref}
    {s : Machine} (hs : s = (i.run (steps ++ .exec (n + 2) e :: more)).machine.started e'.tree)
    (hv : i.Evaluates (k + 1) v s) (g : Application k v s)
    (hbound : d.assignment.bound = some g.operator) :
    i.Carries d.creation.after d.creation.made g.reached (some g.operator) := by
  have hset := Evaluates.turn (i := i) steps (n + 2) e .whole
  have hend := Precedes.ended (i := i) (.steps steps) (n + 2) e
  rw [Machine.eval_snd, d.assignment.result, ← run_concat] at hend
  obtain ⟨_, hmore⟩ := Precedes.steps i (steps ++ [.exec (n + 2) e]) more
  rw [List.append_assoc] at hmore
  have hstart := Precedes.begun (i := i) (.steps (steps ++ .exec (n + 2) e :: more)) e'
  rw [← hs] at hstart
  have hlater := ((hend.trans hmore).trans hstart).trans (.operator hv g.applies)
  have hsame := d.creation.result.symm.trans d.assignment.evaluatesValue
  injection hsame with hmade hafter
  rw [hmade, hafter, ← hbound]
  exact .copied (.itself (.refl _)) (.bound hset d.assignment) hlater

end Definition

/--
A variable of the body is set to something else between the turn that makes the closure and the
one that applies it.
-/
theorem body_resolves_names_replaced : ∃ (i : Interpreter) (e₁ e₂ e₃ e₄ : Expression) (v w : Ref)
    (m s entered : Machine) (f : Creation 7 v m) (g : Application 8 w s),
    new [("list-args", .arguments)] true true = .ok i ∧
    Expression.ofString? "(set 'y 1)" = some e₁ ∧
    Expression.ofString? "(set 'f (lambda (x) (cons x y)))" = some e₂ ∧
    Expression.ofString? "(set 'y 2)" = some e₃ ∧ Expression.ofString? "(f 3)" = some e₄ ∧
    i.Evaluates 8 v m ∧ i.Evaluates 9 w s ∧
    s = (i.run [.exec 9 e₁, .exec 9 e₂, .exec 9 e₃]).machine.started e₄.tree ∧
    i.Carries f.after f.made g.reached (some g.operator) ∧
    g.given.length = g.reached.heap.arity g.closure ∧ g.Enters entered ∧
    entered.resolve? "x" = some (.number (.int 3)) ∧
    entered.resolve? "y" = some (.number (.int 1)) ∧
    g.caller.resolve? "y" = some (.number (.int 2)) := by
  have hsession : newAny [("list-args", .arguments)] (fun i hr =>
      (Expression.ofString? "(set 'y 1)").any fun e₁ =>
      (Expression.ofString? "(set 'f (lambda (x) (cons x y)))").any fun e₂ =>
      (Expression.ofString? "(set 'y 2)").any fun e₃ => (Expression.ofString? "(f 3)").any fun e₄ =>
      (definition? hr 7 [.exec 9 e₁] e₂).any fun d =>
        (application? 8 (Heap.store e₄.tree (i.run [.exec 9 e₁, .exec 9 e₂, .exec 9 e₃]).heap).1
          ((i.run [.exec 9 e₁, .exec 9 e₂, .exec 9 e₃]).machine.started e₄.tree)).any fun g =>
        decide ((d.creation.defined.heap.view d.creation.params).elements? =
          some (["x"].map .atom)) &&
        (d.creation.defined.heap.view d.creation.body).atoms.contains "y" &&
        decide (d.creation.defined.resolve? "y" = some (.number (.int 1))) &&
        decide (d.assignment.bound = some g.operator) &&
        decide (g.given.length = g.reached.heap.arity g.closure) &&
        decide (g.caller.resolve? "y" = some (.number (.int 2))) &&
        decide (g.results.map (fun r => r.2.heap.view r.1) = [.number (.int 3)])) = true := by
    decide +kernel
  obtain ⟨i, hi, hsession⟩ := exists_of_newAny hsession
  obtain ⟨e₁, he₁, hsession⟩ := (Option.any_eq_true _ _).mp hsession
  obtain ⟨e₂, he₂, hsession⟩ := (Option.any_eq_true _ _).mp hsession
  obtain ⟨e₃, he₃, hsession⟩ := (Option.any_eq_true _ _).mp hsession
  obtain ⟨e₄, he₄, hsession⟩ := (Option.any_eq_true _ _).mp hsession
  obtain ⟨d, -, hsession⟩ := (Option.any_eq_true _ _).mp hsession
  obtain ⟨g, -, hsession⟩ := (Option.any_eq_true _ _).mp hsession
  simp only [Bool.and_eq_true, decide_eq_true_eq] at hsession
  obtain ⟨⟨⟨⟨⟨⟨hnames, hatom⟩, hy⟩, hbound⟩, hfull⟩, hy'⟩, hresults⟩ := hsession
  have happlies := Evaluates.turn (i := i) [.exec 9 e₁, .exec 9 e₂, .exec 9 e₃] 9 e₄ .whole
  have hcopy := d.carries [.exec 9 e₃] rfl happlies g hbound
  obtain ⟨names, entered, hparams, henters, -, -, hresolves⟩ :=
    body_resolves_names hi d.makes d.creation happlies g hcopy hfull
  obtain rfl := Tree.names_unique hparams hnames
  refine ⟨i, e₁, e₂, e₃, e₄, _, _, _, _, entered, d.creation, g, hi, he₁, he₂, he₃, he₄, d.makes,
    happlies, rfl, hcopy, hfull, henters, ?_, ?_, hy'⟩
  · obtain ⟨r, copy, hr, hfound, hcopied⟩ := (hresolves "x").1 (by simp)
    have hr' : g.results[0]? = some r := hr
    have hvalue : (g.results.map fun r => r.2.heap.view r.1)[0]? = some (.number (.int 3)) := by
      rw [hresults]
      rfl
    rw [List.getElem?_map, hr'] at hvalue
    rw [resolve?, hfound, Option.map_some, hcopied.view_eq]
    exact hvalue
  · obtain ⟨value, hvalue, hview⟩ := Option.map_eq_some_iff.mp hy
    obtain ⟨copy, hfound, hcopied⟩ :=
      (hresolves "y").2.1 (by simp) (List.contains_iff_mem.mp hatom) value hvalue
    rw [resolve?, hfound, Option.map_some, hcopied.view_eq, hview]

end Interpreter

end ArenaLisp
