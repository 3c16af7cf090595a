import ArenaLisp.Proofs.Operations

/-!
# The evaluator as a program

One step of evaluation is a program over a way to evaluate parts: operations on the
machine, evaluations, and calls, one after the other. `Program` says so of a step that
starts on a given machine. What comes later may depend on anything known of the machine
at that point, so whatever has to be true of the operands of an operation is shown here,
and what is true of every evaluation is shown by induction on the program.

Calls are what distinguishes one step from another: only a closure that is applied to as many
arguments as it has parameters makes one. The proposition `calls` is a condition for a program
to have a call in it, so a program under a false one has none. In the same way `binds` is a
condition for a program to bind a name, which is what the operation `set` does and no other.

The main statement is `evalStep_program`.
-/

namespace ArenaLisp

open EvalM Machine

/-- A program that starts on a machine and, if it gives a value, gives one with a property. -/
inductive Program (calls binds : Prop) :
    {α : Type} → Machine → (Evaluator → EvalM α) → (Machine → α → Prop) → Prop
  | operate {α : Type} {m : Machine} {x : EvalM α} {P : Machine → α → Prop}
      (hx : m.Operates binds x P) : Program calls binds m (fun _ => x) P
  | evaluate {m : Machine} {v : Ref} (hv : m.heap.LiveRef v) :
      Program calls binds m (fun ev => ev v) fun m' w => m'.heap.LiveRef w
  | call {m : Machine} {x : EvalM Chain} {body : Ref} (hx : m.Opens x)
      (hbody : m.heap.LiveRef body) (hcalls : calls) :
      Program calls binds m (fun ev => x >>= fun c => inScope c (ev body))
        fun m' w => m'.heap.LiveRef w
  | bind {α β : Type} {m : Machine} {x : Evaluator → EvalM α} {f : α → Evaluator → EvalM β}
      {P : Machine → α → Prop} {Q : Machine → β → Prop}
      (hx : Program calls binds m x P)
      (hf : ∀ m' a, m'.Sound → m.Evolves m' → P m' a → Program calls binds m' (f a) Q) :
      Program calls binds m (fun ev => x ev >>= fun a => f a ev) Q
  | weaken {α : Type} {m : Machine} {x : Evaluator → EvalM α} {P Q : Machine → α → Prop}
      (hx : Program calls binds m x P) (hPQ : ∀ m' a, P m' a → Q m' a) :
      Program calls binds m x Q

namespace Program

variable {calls binds : Prop} {m : Machine}

theorem done {α : Type} (hs : m.Sound) {a : α} {P : Machine → α → Prop} (ha : P m a) :
    Program calls binds m (fun _ => pure a) P :=
  .operate (operates_pure hs ha)

theorem failing {α : Type} (hs : m.Sound) {operator : String} {cause : Cause}
    {P : Machine → α → Prop} : Program calls binds m (fun _ => fail operator cause) P :=
  .operate (operates_fail hs)

/-- Looks at the heap and goes on, on the same machine. -/
theorem seeing {α β : Type} (hs : m.Sound) {f : Heap → α} {g : α → Evaluator → EvalM β}
    {Q : Machine → β → Prop} (hf : ∀ h', m.heap.Mirrors h' → f h' = f m.heap)
    (hg : Program calls binds m (g (f m.heap)) Q) :
    Program calls binds m (fun ev => see f >>= fun a => g a ev) Q :=
  .bind (.operate (operates_see hs hf)) fun m' a _ _ ⟨hm', ha⟩ => by
    subst hm' ha
    exact hg

/-- Fails with a message that shows a value. -/
theorem failingWith {α : Type} (hs : m.Sound) {operator : String} {v : Ref} {cause : Tree → Cause}
    {P : Machine → α → Prop} (hv : m.heap.LiveRef v) :
    Program calls binds m (fun _ => view v >>= fun t => fail operator (cause t)) P :=
  seeing (g := fun t _ => fail operator (cause t)) hs (fun _ hm => hm.view_eq hv) (failing hs)

/-- The conditions for a program to make a call and to bind a name can be weakened. -/
theorem mono {calls' binds' : Prop} {α : Type} {x : Evaluator → EvalM α} {P : Machine → α → Prop}
    (hp : Program calls binds m x P) (hcalls : calls → calls') (hbinds : binds → binds') :
    Program calls' binds' m x P := by
  induction hp with
  | operate hx => exact .operate (hx.mono hbinds)
  | evaluate hv => exact .evaluate hv
  | call hx hbody hc => exact .call hx hbody (hcalls hc)
  | bind _ _ ihx ihf => exact .bind ihx ihf
  | weaken _ hPQ ih => exact .weaken ih hPQ

/-- Does something for every element of a list, while what is known of the others stays true. -/
theorem mapping {α β : Type} {f : α → Evaluator → EvalM β} {I : Machine → α → Prop}
    {J : Machine → β → Prop} (hI : ∀ m m' a, m.Sound → m.Evolves m' → I m a → I m' a)
    (hJ : ∀ m m' b, m.Sound → m.Evolves m' → J m b → J m' b)
    (hf : ∀ m a, m.Sound → I m a → Program calls binds m (f a) J) (hs : m.Sound) {xs : List α}
    (hxs : ∀ a ∈ xs, I m a) :
    Program calls binds m (fun ev => xs.mapM fun a => f a ev) fun m' ys =>
      ys.length = xs.length ∧ ∀ b ∈ ys, J m' b := by
  induction xs generalizing m with
  | nil => exact .done hs ⟨rfl, fun _ hb => absurd hb List.not_mem_nil⟩
  | cons a xs ih =>
      simp only [List.mapM_cons]
      refine .bind (hf m a hs (hxs a List.mem_cons_self)) fun m₁ b hs₁ he₁ hb => ?_
      refine .bind (ih hs₁ fun a' ha' => hI m m₁ a' hs he₁ (hxs a' (List.mem_cons_of_mem _ ha')))
        fun m₂ bs hs₂ he₂ hbs => .done hs₂ ⟨by simp [hbs.1], fun b' hb' => ?_⟩
      rcases List.mem_cons.mp hb' with rfl | hb'
      · exact hJ m₁ m₂ b' hs₁ he₂ hb
      · exact hbs.2 b' hb'

end Program

/-- Whether a live value is a closure with the given parts. -/
def Heap.HasClosure (h : Heap) (c : Closure) : Prop :=
  ∃ a, h.cell a = .live (.closure c) ∧ h.Live (.value a)

theorem Heap.HasClosure.live {h : Heap} {c : Closure} (hc : h.HasClosure c) :
    h.LiveRef c.params ∧ h.LiveRef c.body ∧ h.LiveChain c.captured := by
  obtain ⟨a, hcell, ha⟩ := hc
  exact ha.closure hcell

theorem Machine.Evolves.hasClosure {m m' : Machine} (he : m.Evolves m') (hs : m.Sound)
    {c : Closure} (hc : m.heap.HasClosure c) : m'.heap.HasClosure c := by
  obtain ⟨a, hcell, ha⟩ := hc
  refine ⟨a, by rw [he.cell a ha.has, hcell], ?_⟩
  exact Heap.liveRef_some.mp (he.liveRef hs (Heap.liveRef_some.mpr ha))

/-- How many parameters a closure has. -/
def Heap.arity (h : Heap) (c : Closure) : Nat := ((h.elements? c.params).getD []).length

/-- Whether there are as many arguments as a closure has parameters. -/
def Heap.Fits (h : Heap) (c : Closure) (arguments : Ref) : Prop :=
  ∃ given, h.elements? arguments = some given ∧
    given.length = ((h.elements? c.params).getD []).length

/-- Whether an expression is an operator with its arguments. -/
def Heap.IsForm (h : Heap) (v : Ref) : Prop :=
  ∃ a car cdr, v = some a ∧ h.cell a = .live (.pair car cdr) ∧ (car ≠ none ∨ cdr ≠ none)

section

variable {calls binds : Prop} {m : Machine}

/-! ## Arguments -/

theorem argumentList_program (hs : m.Sound) (operator : String) {arguments : Ref}
    (ha : m.heap.LiveRef arguments) :
    Program False binds m (fun _ => argumentList operator arguments) fun m' cells =>
      m' = m ∧ ∀ v ∈ cells, m.heap.LiveRef v := by
  refine .seeing hs (fun _ hm => hm.elements?_eq ha) ?_
  cases hcells : m.heap.elements? arguments with
  | none => exact .failingWith hs ha
  | some cells => exact .done hs ⟨rfl, Heap.elements?_live ha hcells⟩

theorem oneArgument_program (hs : m.Sound) (operator : String) {arguments : Ref}
    (ha : m.heap.LiveRef arguments) :
    Program False binds m (fun _ => oneArgument operator arguments) fun m' v =>
      m' = m ∧ m.heap.LiveRef v := by
  refine .bind (argumentList_program hs operator ha) ?_
  rintro m' cells hs' - ⟨rfl, hcells⟩
  match cells with
  | [v] => exact .done hs ⟨rfl, hcells v List.mem_cons_self⟩
  | [] => exact .failing hs
  | _ :: _ :: _ => exact .failing hs

theorem twoArguments_program (hs : m.Sound) (operator : String) {arguments : Ref}
    (ha : m.heap.LiveRef arguments) :
    Program False binds m (fun _ => twoArguments operator arguments) fun m' p =>
      m' = m ∧ m.heap.LiveRef p.1 ∧ m.heap.LiveRef p.2 := by
  refine .bind (argumentList_program hs operator ha) ?_
  rintro m' cells hs' - ⟨rfl, hcells⟩
  match cells with
  | [v, w] => exact .done hs ⟨rfl, hcells v (by simp), hcells w (by simp)⟩
  | [] => exact .failing hs
  | [_] => exact .failing hs
  | _ :: _ :: _ :: _ => exact .failing hs

theorem evalOne_program (hs : m.Sound) (operator : String) {arguments : Ref}
    (ha : m.heap.LiveRef arguments) :
    Program False binds m (fun ev => evalOne ev operator arguments)
      fun m' w => m'.heap.LiveRef w := by
  refine .bind (oneArgument_program hs operator ha) ?_
  rintro m' v hs' - ⟨rfl, hv⟩
  exact .evaluate hv

theorem evalTwo_program (hs : m.Sound) (operator : String) {arguments : Ref}
    (ha : m.heap.LiveRef arguments) :
    Program False binds m (fun ev => evalTwo ev operator arguments) fun m' p =>
      m'.heap.LiveRef p.1 ∧ m'.heap.LiveRef p.2 := by
  refine .bind (twoArguments_program hs operator ha) ?_
  rintro m' ⟨v, w⟩ hs' - ⟨rfl, hv, hw⟩
  refine .bind (.evaluate hv) fun m₁ v' hs₁ he₁ hv' => ?_
  refine .bind (.evaluate (he₁.liveRef hs hw)) fun m₂ w' hs₂ he₂ hw' => ?_
  exact .done hs₂ ⟨he₂.liveRef hs₁ hv', hw'⟩

theorem numberAt_program (hs : m.Sound) (operator : String) (position : Nat) {v : Ref}
    (hv : m.heap.LiveRef v) :
    Program False binds m (fun _ => numberAt operator position v) fun m' _ => m' = m := by
  refine .seeing hs (fun _ hm => hm.cell?_eq hv) ?_
  cases (m.heap.cell? v).bind Cell.number? with
  | none => exact .failingWith hs hv
  | some n => exact .done hs rfl

theorem evalNumbers_program (hs : m.Sound) (operator : String) {arguments : Ref}
    (ha : m.heap.LiveRef arguments) :
    Program False binds m (fun ev => evalNumbers ev operator arguments) fun _ _ => True := by
  refine .bind (evalTwo_program hs operator ha) ?_
  rintro m₁ ⟨v, w⟩ hs₁ - ⟨hv, hw⟩
  refine .bind (numberAt_program hs₁ operator 1 hv) ?_
  rintro m₂ a - - rfl
  refine .bind (numberAt_program hs₁ operator 2 hw) ?_
  rintro m₃ b - - rfl
  exact .done hs₁ trivial

/-! ## Lists and variables -/

theorem makeBool_program (hs : m.Sound) (b : Bool) :
    Program False binds m (fun _ => makeBool b) fun m' w => m'.heap.LiveRef w := by
  refine .weaken (.operate (operates_make hs fun k hk => ?_)) fun _ _ h => h.1
  cases b <;> simp [Datum.truth, Datum.nil, Datum.parts] at hk

theorem makeNil_program (hs : m.Sound) :
    Program False binds m (fun _ => make .nil) fun m' w => m'.heap.LiveRef w :=
  makeBool_program hs false

theorem makePair_program (hs : m.Sound) {v w : Ref} (hv : m.heap.LiveRef v)
    (hw : m.heap.LiveRef w) :
    Program False binds m (fun _ => make (.pair v w)) fun m' w => m'.heap.LiveRef w := by
  refine .weaken (.operate (operates_make hs fun k hk => ?_)) fun _ _ h => h.1
  have hlive : m.heap.Live k := by
    rcases List.mem_append.mp hk with hk | hk
    · exact Heap.liveRef_iff.mp hv k hk
    · exact Heap.liveRef_iff.mp hw k hk
  rcases List.mem_append.mp hk with hk | hk
  all_goals
    obtain ⟨a, _, rfl⟩ := Node.mem_ofRef.mp hk
    exact ⟨⟨a, rfl⟩, hlive⟩

theorem field_program (hs : m.Sound) (operator : String) {v : Ref} {part : Cell → Ref}
    (hv : m.heap.LiveRef v) (hpart : ∀ a, v = some a → m.heap.LiveRef (part (m.heap.cell a))) :
    Program False binds m (fun _ => field operator v part) fun m' w => m'.heap.LiveRef w := by
  refine .seeing hs (fun _ hm => hm.cell?_eq hv) ?_
  cases v with
  | none => exact makeNil_program hs
  | some a =>
      have hlive := hpart a rfl
      simp only [Heap.cell?, Option.map_some]
      split
      · exact .failing hs
      · cases hp : part (m.heap.cell a) with
        | none => exact makeNil_program hs
        | some a' =>
            rw [hp] at hlive
            exact .done hs hlive

theorem settableName_program (hs : m.Sound) {v : Ref} (hv : m.heap.LiveRef v) :
    Program False binds m (fun _ => settableName v) fun m' name => m' = m ∧ name ≠ truthName := by
  refine .seeing hs (fun _ hm => hm.cell?_eq hv) ?_
  cases v with
  | none => exact .failing hs
  | some a =>
      simp only [Heap.cell?, Option.map_some]
      split
      · exact .failingWith hs hv
      · split
        · exact .failingWith hs hv
        · rename_i hname
          exact .done hs ⟨rfl, fun heq => hname (beq_iff_eq.mpr heq)⟩

theorem environmentList_program (hs : m.Sound) :
    Program False binds m (fun _ => environmentList) fun m' w => m'.heap.LiveRef w := by
  refine .bind (.operate (operates_scope hs)) ?_
  rintro m' here - - ⟨rfl, rfl⟩
  refine .seeing hs (fun h' hm => ?_) ?_
  · rw [hm.chain_eq hs.linked hs.unreleased]
    exact List.map_congr_left fun b hb => hm.binding_eq (hs.unreleased b hb)
  have hlive : ∀ b ∈ (m'.heap.chain m'.scope).map m'.heap.binding,
      m'.heap.LiveRef b.name ∧ m'.heap.LiveRef b.value := by
    intro x hx
    obtain ⟨b, hb, rfl⟩ := List.mem_map.mp hx
    exact ⟨hs.names b hb, hs.values b hb⟩
  refine .bind (.mapping (I := fun m b => m.heap.LiveRef b.name ∧ m.heap.LiveRef b.value)
    (J := fun m v => m.heap.LiveRef v) ?_ ?_ ?_ hs hlive) ?_
  · exact fun m₁ m₂ b hs₁ he hb => ⟨he.liveRef hs₁ hb.1, he.liveRef hs₁ hb.2⟩
  · exact fun m₁ m₂ v hs₁ he hv => he.liveRef hs₁ hv
  · exact fun m₁ b hs₁ hb => makePair_program hs₁ hb.1 hb.2
  rintro m₁ pairs hs₁ - ⟨-, hpairs⟩
  refine .bind (makeNil_program hs₁) fun m₂ tail hs₂ he₂ htail => ?_
  have hpairs₂ : ∀ v ∈ pairs, m₂.heap.LiveRef v := fun v hv => he₂.liveRef hs₁ (hpairs v hv)
  clear hpairs he₂
  induction pairs with
  | nil => exact .done hs₂ htail
  | cons pair pairs ih =>
      simp only [List.foldrM_cons]
      refine .bind (ih fun v hv => hpairs₂ v (List.mem_cons_of_mem _ hv))
        fun m₃ rest hs₃ he₃ hrest => ?_
      exact makePair_program hs₃ (he₃.liveRef hs₂ (hpairs₂ pair List.mem_cons_self)) hrest

theorem evalClauses_program (hs : m.Sound) {arguments tail : Ref} {clauses : List Ref}
    (ha : m.heap.LiveRef arguments) (ht : m.heap.LiveRef tail)
    (hc : ∀ v ∈ clauses, m.heap.LiveRef v) (position : Nat) :
    Program False binds m (fun ev => evalClauses ev arguments tail position clauses)
      fun m' w => m'.heap.LiveRef w := by
  induction clauses generalizing m position with
  | nil =>
      refine .seeing hs (fun _ hm => hm.isNil_eq ht) ?_
      split
      · exact makeNil_program hs
      · exact .failingWith hs ha
  | cons clause clauses ih =>
      have hclause := hc clause List.mem_cons_self
      refine .seeing hs (fun _ hm => hm.elements?_eq hclause) ?_
      split
      · rename_i predicate value heq
        have hlive := Heap.elements?_live hclause heq
        refine .bind (.evaluate (hlive predicate (by simp))) fun m₁ p hs₁ he₁ hp => ?_
        refine .seeing hs₁ (fun _ hm => hm.isNil_eq hp) ?_
        split
        · exact ih hs₁ (he₁.liveRef hs ha) (he₁.liveRef hs ht)
            (fun v hv => he₁.liveRef hs (hc v (List.mem_cons_of_mem _ hv))) (position + 1)
        · exact .evaluate (he₁.liveRef hs (hlive value (by simp)))
      · exact .failingWith hs hclause

/-! ## Closures -/

theorem makeClosure_program (hs : m.Sound) {params body : Ref} (hp : m.heap.LiveRef params)
    (hb : m.heap.LiveRef body) :
    Program False binds m (fun _ => makeClosure params body) fun m' w => m'.heap.LiveRef w := by
  refine .seeing hs (fun _ hm => hm.paramsFault?_eq hp) ?_
  cases m.heap.paramsFault? params with
  | some cause => exact .failing hs
  | none => exact .weaken (.operate (operates_makeLambda hs hp hb)) fun _ _ h => h.1

theorem passArgument_program {v : Ref} (hv : m.heap.LiveRef v) :
    Program False False m (fun ev => passArgument ev v)
      fun m' w => m'.heap.LiveRef w ∧ m'.Handed w := by
  refine .bind (.evaluate hv) fun m₁ w hs₁ _ hw => ?_
  exact .weaken (.operate (operates_handOver hs₁ hw)) fun _ _ h => ⟨h.1, h.2.1⟩

theorem passArguments_program (hs : m.Sound) {given : List Ref}
    (hgiven : ∀ v ∈ given, m.heap.LiveRef v) :
    Program False False m (fun ev => given.mapM (passArgument ev))
      fun m' ws => ws.length = given.length ∧ ∀ w ∈ ws, m'.heap.LiveRef w ∧ m'.Handed w :=
  .mapping (I := fun m v => m.heap.LiveRef v) (J := fun m v => m.heap.LiveRef v ∧ m.Handed v)
    (fun _ _ _ hs₁ he hv => he.liveRef hs₁ hv)
    (fun _ _ _ hs₁ he hv => ⟨he.liveRef hs₁ hv.1, he.handed hs₁ hv.1 hv.2⟩)
    (fun _ _ _ hv => passArgument_program hv) hs hgiven

theorem applyClosure_program (hs : m.Sound) {c : Closure} {arguments : Ref}
    (hc : m.heap.HasClosure c) (ha : m.heap.LiveRef arguments)
    (hcalls : m.heap.Fits c arguments → calls) :
    Program calls binds m (fun ev => applyClosure ev c arguments) fun m' w => m'.heap.LiveRef w := by
  refine .seeing hs (fun _ hm => hm.elements?_eq ha) ?_
  cases hgiven : m.heap.elements? arguments with
  | none => exact .failingWith hs ha
  | some given =>
      refine .seeing hs (fun _ hm => hm.elements?_eq hc.live.1) ?_
      have hparams : ∀ v ∈ (m.heap.elements? c.params).getD [], m.heap.LiveRef v := by
        cases hp : m.heap.elements? c.params with
        | none => exact fun v hv => absurd hv List.not_mem_nil
        | some params => exact Heap.elements?_live hc.live.1 hp
      have hfull : given.length = ((m.heap.elements? c.params).getD []).length → calls :=
        fun hlength => hcalls ⟨given, hgiven, hlength⟩
      generalize (m.heap.elements? c.params).getD [] = params at hparams hfull ⊢
      dsimp only
      split
      · exact .failing hs
      · have hpassing := passArguments_program hs (Heap.elements?_live ha hgiven)
        refine .bind (hpassing.mono False.elim False.elim) ?_
        rintro m₁ values hs₁ he₁ ⟨hlength, hvalues⟩
        obtain ⟨hp₁, hb₁, hc₁⟩ := (he₁.hasClosure hs hc).live
        split
        · exact .weaken (.operate (operates_makePartial hs₁
            (fun v hv => he₁.liveRef hs (hparams v hv)) hb₁ hc₁ hvalues)) fun _ _ h => h.1
        · exact .call (opens_callScope hs₁ hp₁ hc₁ hvalues) hb₁ (hfull (by omega))

/-! ## Evaluation -/

theorem run_program (hs : m.Sound) {arguments : Ref} (ha : m.heap.LiveRef arguments)
    (b : Builtin) (hbinds : b = .set → binds) :
    Program False binds m (fun ev => b.run ev arguments) fun m' w => m'.heap.LiveRef w := by
  cases b with
  | quote =>
      refine .weaken (oneArgument_program hs "quote" ha) ?_
      rintro m' v ⟨rfl, hv⟩
      exact hv
  | atom =>
      refine .bind (evalOne_program hs "atom" ha) fun m₁ v hs₁ _ hv => ?_
      refine .seeing hs₁ (fun _ hm => ?_) (makeBool_program hs₁ _)
      rw [hm.isNil_eq hv, hm.cell?_eq hv]
  | eq =>
      refine .bind (evalTwo_program hs "eq" ha) ?_
      rintro m₁ ⟨v, w⟩ hs₁ - ⟨hv, hw⟩
      exact .seeing hs₁ (fun _ hm => hm.same_eq hv hw) (makeBool_program hs₁ _)
  | car =>
      refine .bind (evalOne_program hs "car" ha) fun m₁ v hs₁ _ hv => ?_
      refine field_program hs₁ "car" hv fun a ha' => ?_
      subst ha'
      exact (Heap.liveRef_fields hv).1
  | cdr =>
      refine .bind (evalOne_program hs "cdr" ha) fun m₁ v hs₁ _ hv => ?_
      refine field_program hs₁ "cdr" hv fun a ha' => ?_
      subst ha'
      exact (Heap.liveRef_fields hv).2
  | cons =>
      refine .bind (evalTwo_program hs "cons" ha) ?_
      rintro m₁ ⟨v, w⟩ hs₁ - ⟨hv, hw⟩
      refine .seeing hs₁ (fun _ hm => hm.cell?_eq hw) ?_
      cases m₁.heap.cell? w with
      | none => exact makePair_program hs₁ hv hw
      | some c =>
          dsimp only
          split
          · exact .failing hs₁
          · exact makePair_program hs₁ hv hw
  | cond =>
      refine .seeing hs (fun _ hm => hm.spine_eq ha) ?_
      obtain ⟨hcars, htail⟩ := Heap.spineTo_live m.heap.cells.size ha
      exact evalClauses_program hs ha htail hcars 1
  | set =>
      refine .bind (evalTwo_program hs "set" ha) ?_
      rintro m₁ ⟨v, w⟩ hs₁ - ⟨hv, hw⟩
      refine .bind (settableName_program hs₁ hv) ?_
      rintro m₂ name - - ⟨rfl, hname⟩
      exact .operate (operates_assign (hbinds rfl) hs₁ hw hname)
  | env =>
      refine .bind (argumentList_program hs "env" ha) ?_
      rintro m' cells - - ⟨rfl, _⟩
      match cells with
      | [] => exact environmentList_program hs
      | _ :: _ => exact .failing hs
  | lambda =>
      refine .bind (twoArguments_program hs "lambda" ha) ?_
      rintro m' ⟨params, body⟩ - - ⟨rfl, hp, hb⟩
      exact makeClosure_program hs hp hb
  | macroDefinition => exact .failing hs
  | arith op =>
      refine .bind (evalNumbers_program hs op.symbol ha) ?_
      rintro m₁ ⟨a, b⟩ hs₁ - -
      dsimp only
      cases op.apply a b with
      | none => exact .failing hs₁
      | some n =>
          exact .weaken (.operate (operates_make hs₁ fun k hk => by simp [Datum.parts] at hk))
            fun _ _ h => h.1
  | compare relation =>
      refine .bind (evalNumbers_program hs relation.symbol ha) ?_
      rintro m₁ ⟨a, b⟩ hs₁ - -
      exact makeBool_program hs₁ _
  | arguments => exact .done hs ha

theorem apply_program (hs : m.Sound) {operator arguments : Ref} (ho : m.heap.LiveRef operator)
    (ha : m.heap.LiveRef arguments)
    (hcalls : ∀ a c, operator = some a → m.heap.cell a = .live (.closure c) →
      m.heap.Fits c arguments → calls)
    (hbinds : ∀ a p, operator = some a → m.heap.cell a = .live (.primitive p) →
      p.builtin = .set → binds) :
    Program calls binds m (fun ev => apply ev operator arguments) fun m' w => m'.heap.LiveRef w := by
  refine .seeing hs (fun _ hm => hm.cell?_eq ho) ?_
  cases operator with
  | none => exact .failingWith hs ho
  | some a =>
      have hlive := Heap.liveRef_some.mp ho
      simp only [Heap.cell?, Option.map_some]
      cases hcell : m.heap.cell a with
      | released husk => exact absurd (by rw [Heap.Released, hcell]; rfl) hlive.not_released
      | live d =>
          cases d with
          | primitive p => exact (run_program hs ha p.builtin (hbinds a p rfl hcell)).mono False.elim id
          | closure c => exact applyClosure_program hs ⟨a, hcell, hlive⟩ ha (hcalls a c rfl hcell)
          | _ => exact .failingWith hs ho

/-- One step of evaluation, which makes no call and binds nothing unless it applies something. -/
theorem evalStep_routine (hs : m.Sound) {v : Ref} (hv : m.heap.LiveRef v)
    (hform : m.heap.IsForm v → calls ∧ binds) :
    Program calls binds m (fun ev => evalStep ev v) fun m' w => m'.heap.LiveRef w := by
  refine .seeing hs (fun _ hm => hm.cell?_eq hv) ?_
  cases v with
  | none => exact (makeNil_program hs).mono False.elim id
  | some a =>
      have hlive := Heap.liveRef_some.mp hv
      simp only [Heap.cell?, Option.map_some]
      cases hcell : m.heap.cell a with
      | released husk => exact absurd (by rw [Heap.Released, hcell]; rfl) hlive.not_released
      | live d =>
          cases d with
          | number n => exact .done hs hv
          | primitive p => exact .done hs hv
          | closure c => exact .done hs hv
          | unknown code => exact .failing hs
          | atom name =>
              dsimp only
              split
              · exact .done hs hv
              · refine .bind (.operate (operates_scope hs)) ?_
                rintro m' here - - ⟨rfl, rfl⟩
                refine .seeing hs (fun h' hm =>
                  hm.lookup?_eq hs.linked hs.unreleased hs.names name) ?_
                cases hfind : m'.heap.lookup? m'.scope name with
                | none => exact .failing hs
                | some value =>
                    obtain ⟨b, hb, rfl⟩ := Option.map_eq_some_iff.mp hfind
                    exact .done hs (hs.values b (Heap.mem_of_findBinding? hb))
          | pair car cdr =>
              obtain ⟨hcar, hcdr⟩ := hlive.pair hcell
              have happly : car ≠ none ∨ cdr ≠ none →
                  Program calls binds m (fun ev => ev car >>= fun f => apply ev f cdr)
                    fun m' w => m'.heap.LiveRef w := fun hnil =>
                .bind (.evaluate hcar) fun m₁ f hs₁ he₁ hf =>
                  apply_program hs₁ hf (he₁.liveRef hs hcdr)
                    (fun _ _ _ _ _ => (hform ⟨a, car, cdr, rfl, hcell, hnil⟩).1)
                    fun _ _ _ _ _ => (hform ⟨a, car, cdr, rfl, hcell, hnil⟩).2
              cases car with
              | some car => exact happly (Or.inl (by simp))
              | none =>
                  cases cdr with
                  | some cdr => exact happly (Or.inr (by simp))
                  | none => exact .done hs hv

/-- **One step of evaluation is a program.** -/
theorem evalStep_program (hs : m.Sound) {v : Ref} (hv : m.heap.LiveRef v) :
    Program True True m (fun ev => evalStep ev v) fun m' w => m'.heap.LiveRef w :=
  evalStep_routine hs hv fun _ => ⟨trivial, trivial⟩

end

end ArenaLisp
