import ArenaLisp.Proofs.Constancy
import ArenaLisp.Proofs.Nested

/-!
# The clauses of `cond`

Clauses are checked and evaluated in one pass. One that decides, because it is malformed, its
predicate fails or its predicate is not the empty list, ends the pass, and nothing behind it is
looked at. What is evaluated up to there is said in order, each expression with the machine on which
it is evaluated, which is the one that the expression before it leaves. This holds of every way to
evaluate, so also of one that counts.
-/

namespace ArenaLisp

open EvalM Machine

/--
Clauses that do not decide: the predicate of each is the empty list. With them stand the predicates,
each with the machine on which it is evaluated, and the machine left at the end.
-/
inductive Skips (ev : Evaluator) : List Ref → Machine → List (Ref × Machine) → Machine → Prop
  | nil {m : Machine} : Skips ev [] m [] m
  | cons {clause predicate value p : Ref} {clauses : List Ref} {tried : List (Ref × Machine)}
      {m m₁ m' : Machine} (hclause : m.heap.elements? clause = some [predicate, value])
      (hpredicate : ev predicate m = .ok p m₁) (hnil : m₁.heap.isNil p = true)
      (hrest : Skips ev clauses m₁ tried m') :
      Skips ev (clause :: clauses) m ((predicate, m) :: tried) m'

/-- A clause that decides, what is evaluated of it, and what comes of it. -/
inductive Decides (ev : Evaluator) (position : Nat) (clause : Ref) (m : Machine) :
    List (Ref × Machine) → EStateM.Result Halt Machine Ref → Prop
  | malformed (hclause : ∀ predicate value, m.heap.elements? clause ≠ some [predicate, value]) :
      Decides ev position clause m []
        (.error (.error ⟨"cond", .malformedClause position (m.heap.view clause)⟩) m)
  | fails {predicate value : Ref} {halt : Halt} {m₁ : Machine}
      (hclause : m.heap.elements? clause = some [predicate, value])
      (hpredicate : ev predicate m = .error halt m₁) :
      Decides ev position clause m [(predicate, m)] (.error halt m₁)
  | holds {predicate value p : Ref} {m₁ : Machine}
      (hclause : m.heap.elements? clause = some [predicate, value])
      (hpredicate : ev predicate m = .ok p m₁) (hnil : m₁.heap.isNil p = false) :
      Decides ev position clause m [(predicate, m), (value, m₁)] (ev value m₁)

section

variable {ev : Evaluator} {arguments tail clause predicate value p w : Ref} {m m₁ m' s : Machine}
  {position : Nat} {clauses before : List Ref} {tried asked : List (Ref × Machine)}
  {r : EStateM.Result Halt Machine Ref}

/-! ## One clause -/

theorem evalClauses_malformed
    (hclause : ∀ predicate value, m.heap.elements? clause ≠ some [predicate, value]) :
    evalClauses ev arguments tail position (clause :: clauses) m =
      .error (.error ⟨"cond", .malformedClause position (m.heap.view clause)⟩) m := by
  rw [evalClauses, see_bind]
  generalize m.heap.elements? clause = given at hclause
  match given, hclause with
  | none, _ => rfl
  | some [], _ => rfl
  | some [_], _ => rfl
  | some [predicate, value], hclause => exact absurd rfl (hclause predicate value)
  | some (_ :: _ :: _ :: _), _ => rfl

theorem evalClauses_wellFormed (hclause : m.heap.elements? clause = some [predicate, value]) :
    evalClauses ev arguments tail position (clause :: clauses) m =
      (ev predicate >>= fun p => see (·.isNil p) >>= fun nil =>
        if nil then evalClauses ev arguments tail (position + 1) clauses else ev value) m := by
  rw [evalClauses, see_bind, hclause]

theorem evalClauses_fails {halt : Halt}
    (hclause : m.heap.elements? clause = some [predicate, value])
    (hpredicate : ev predicate m = .error halt m₁) :
    evalClauses ev arguments tail position (clause :: clauses) m = .error halt m₁ := by
  rw [evalClauses_wellFormed hclause, bind_error hpredicate]

theorem evalClauses_holds (hclause : m.heap.elements? clause = some [predicate, value])
    (hpredicate : ev predicate m = .ok p m₁) (hnil : m₁.heap.isNil p = false) :
    evalClauses ev arguments tail position (clause :: clauses) m = ev value m₁ := by
  rw [evalClauses_wellFormed hclause, bind_ok hpredicate, see_bind, if_neg (by simp [hnil])]

theorem evalClauses_skips (hclause : m.heap.elements? clause = some [predicate, value])
    (hpredicate : ev predicate m = .ok p m₁) (hnil : m₁.heap.isNil p = true) :
    evalClauses ev arguments tail position (clause :: clauses) m =
      evalClauses ev arguments tail (position + 1) clauses m₁ := by
  rw [evalClauses_wellFormed hclause, bind_ok hpredicate, see_bind, if_pos hnil]

/-! ## All clauses -/

/-- Clauses that do not decide are skipped, whatever stands behind them. -/
theorem Skips.evalClauses_append (h : Skips ev before m tried m') (arguments tail : Ref)
    (position : Nat) (clauses : List Ref) :
    evalClauses ev arguments tail position (before ++ clauses) m =
      evalClauses ev arguments tail (position + before.length) clauses m' := by
  induction h generalizing position with
  | nil => rfl
  | cons hclause hpredicate hnil _ ih =>
      rw [List.cons_append, evalClauses_skips hclause hpredicate hnil, ih, List.length_cons,
        Nat.add_assoc, Nat.add_comm 1]

/-- A clause that decides is the last, whatever stands behind it. -/
theorem Decides.evalClauses_cons (h : Decides ev position clause m asked r) (clauses : List Ref) :
    evalClauses ev arguments tail position (clause :: clauses) m = r := by
  cases h with
  | malformed hclause => exact evalClauses_malformed hclause
  | fails hclause hpredicate => exact evalClauses_fails hclause hpredicate
  | holds hclause hpredicate hnil => exact evalClauses_holds hclause hpredicate hnil

/-- One of the clauses is the first that decides, or all of them are skipped. -/
theorem exists_decides (ev : Evaluator) (clauses : List Ref) (m : Machine) (position : Nat) :
    (∃ before clause tried m' asked r, before ++ [clause] <+: clauses ∧
      Skips ev before m tried m' ∧ Decides ev (position + before.length) clause m' asked r) ∨
    ∃ tried m', Skips ev clauses m tried m' := by
  induction clauses generalizing m position with
  | nil => exact Or.inr ⟨[], m, .nil⟩
  | cons clause clauses ih =>
      have hfirst : ∀ {asked r}, Decides ev position clause m asked r →
          ∃ before c tried m' asked r, before ++ [c] <+: clause :: clauses ∧
            Skips ev before m tried m' ∧ Decides ev (position + before.length) c m' asked r :=
        fun h => ⟨[], clause, [], m, _, _, ⟨clauses, rfl⟩, .nil, h⟩
      by_cases hclause : ∃ predicate value, m.heap.elements? clause = some [predicate, value]
      · obtain ⟨predicate, value, hclause⟩ := hclause
        cases hpredicate : ev predicate m with
        | error halt m₁ => exact Or.inl (hfirst (.fails hclause hpredicate))
        | ok p m₁ =>
            cases hnil : m₁.heap.isNil p with
            | false => exact Or.inl (hfirst (.holds hclause hpredicate hnil))
            | true =>
                rcases ih m₁ (position + 1) with hlater | ⟨tried, m', hskips⟩
                · obtain ⟨before, c, tried, m', asked, r, hc, hskips, hdecides⟩ := hlater
                  refine Or.inl ⟨clause :: before, c, _, m', asked, r,
                    List.cons_prefix_cons.mpr ⟨rfl, hc⟩,
                    .cons hclause hpredicate hnil hskips, ?_⟩
                  rwa [List.length_cons, Nat.add_comm before.length, ← Nat.add_assoc]
                · exact Or.inr ⟨_, m', .cons hclause hpredicate hnil hskips⟩
      · exact Or.inl (hfirst (.malformed fun predicate value heq =>
          hclause ⟨predicate, value, heq⟩))

/-! ## What is evaluated -/

theorem Evaluator.haltingAt_self (halt : Halt) : ev.haltingAt w s halt w s = .error halt s :=
  if_pos ⟨rfl, rfl⟩

theorem Evaluator.haltingAt_of_ne {w' : Ref} {s' : Machine} (hne : (w', s') ≠ (w, s))
    (halt : Halt) : ev.haltingAt w s halt w' s' = ev w' s' :=
  if_neg fun ⟨hw, hs⟩ => hne (by rw [hw, hs])

/-- A program that ends in one way, wherever evaluation halts, does not ask for it. -/
theorem not_asks {α : Type} {x : Evaluator → EvalM α} {r : EStateM.Result Halt Machine α}
    (h : ∀ halt, x (ev.haltingAt w s halt) m = r) : ¬Asks x ev m w s := by
  rintro ⟨m', hm'⟩
  have hdangling := (h .dangling).symm.trans (hm' .dangling)
  have htooDeep := (h .tooDeep).symm.trans (hm' .tooDeep)
  cases hdangling.symm.trans htooDeep

theorem asks_predicate (hclause : m.heap.elements? clause = some [predicate, value]) :
    Asks (fun ev => evalClauses ev arguments tail position (clause :: clauses)) ev m predicate m :=
  ⟨m, fun halt => evalClauses_fails hclause (Evaluator.haltingAt_self halt)⟩

theorem Skips.asks_append (h : Skips ev before m tried m') (arguments tail w : Ref)
    (s : Machine) (position : Nat) (clauses : List Ref) :
    Asks (fun ev => evalClauses ev arguments tail position (before ++ clauses)) ev m w s ↔
      (w, s) ∈ tried ∨ Asks
        (fun ev => evalClauses ev arguments tail (position + before.length) clauses) ev m' w s := by
  induction h generalizing position with
  | nil => simp
  | @cons clause predicate value p before tried m m₁ m' hclause hpredicate hnil _ ih =>
      by_cases heq : (predicate, m) = (w, s)
      · obtain ⟨rfl, rfl⟩ := Prod.mk.inj heq
        exact iff_of_true (asks_predicate hclause) (Or.inl List.mem_cons_self)
      · -- it is asked for behind this clause, if it is
        have hnext : ∀ halt, evalClauses (ev.haltingAt w s halt) arguments tail position
            (clause :: before ++ clauses) m = evalClauses (ev.haltingAt w s halt) arguments tail
            (position + 1) (before ++ clauses) m₁ :=
          fun halt => evalClauses_skips hclause
            ((Evaluator.haltingAt_of_ne heq halt).trans hpredicate) hnil
        have hmem : (w, s) ∈ (predicate, m) :: tried ↔ (w, s) ∈ tried := by
          rw [List.mem_cons, or_iff_right (Ne.symm heq)]
        have hrest := ih (position + 1)
        rw [Nat.add_assoc, Nat.add_comm 1] at hrest
        rw [hmem, List.length_cons, ← hrest, Asks, Asks]
        simp only [hnext]

theorem Decides.asks_cons (h : Decides ev position clause m asked r) (clauses : List Ref) :
    Asks (fun ev => evalClauses ev arguments tail position (clause :: clauses)) ev m w s ↔
      (w, s) ∈ asked := by
  cases h with
  | malformed hclause =>
      exact iff_of_false (not_asks fun _ => evalClauses_malformed hclause) List.not_mem_nil
  | @fails predicate _ halt m₁ hclause hpredicate =>
      rw [List.mem_singleton]
      by_cases heq : (predicate, m) = (w, s)
      · obtain ⟨rfl, rfl⟩ := Prod.mk.inj heq
        exact iff_of_true (asks_predicate hclause) rfl
      · refine iff_of_false (not_asks (r := .error halt m₁) fun halt => ?_) (Ne.symm heq)
        exact evalClauses_fails hclause ((Evaluator.haltingAt_of_ne heq halt).trans hpredicate)
  | @holds predicate value p m₁ hclause hpredicate hnil =>
      rw [List.mem_cons, List.mem_singleton]
      by_cases heq : (predicate, m) = (w, s)
      · obtain ⟨rfl, rfl⟩ := Prod.mk.inj heq
        exact iff_of_true (asks_predicate hclause) (Or.inl rfl)
      have hvalue : ∀ halt, evalClauses (ev.haltingAt w s halt) arguments tail position
          (clause :: clauses) m = ev.haltingAt w s halt value m₁ := fun halt =>
        evalClauses_holds hclause ((Evaluator.haltingAt_of_ne heq halt).trans hpredicate) hnil
      by_cases heq' : (value, m₁) = (w, s)
      · obtain ⟨rfl, rfl⟩ := Prod.mk.inj heq'
        refine iff_of_true ⟨m₁, fun halt => ?_⟩ (Or.inr rfl)
        exact (hvalue halt).trans (Evaluator.haltingAt_self halt)
      · refine iff_of_false (not_asks (r := ev value m₁) fun halt => ?_)
          (not_or.mpr ⟨Ne.symm heq, Ne.symm heq'⟩)
        exact (hvalue halt).trans (Evaluator.haltingAt_of_ne heq' halt)

/-! ## Where no clause decides -/

theorem evalClauses_end : evalClauses ev arguments tail position [] m =
    if m.heap.isNil tail then make .nil m
    else .error (.error ⟨"cond", .improperArguments (m.heap.view arguments)⟩) m := by
  rw [evalClauses, see_bind]
  split <;> rfl

/-- What is evaluated changes no value that was there. -/
theorem Skips.preserves {n : Nat} (h : Skips (eval n) clauses m tried m') :
    m.heap.Preserves m'.heap := by
  induction h with
  | nil => exact .refl _
  | @cons _ predicate _ _ _ _ m _ _ _ hpredicate _ _ ih =>
      have hfirst := eval_preserving n predicate m
      rw [hpredicate] at hfirst
      exact hfirst.trans ih

end

/-! ## `cond` -/

section

variable {ev : Evaluator} {arguments clause : Ref} {m m' : Machine} {clauses before : List Ref}
  {tried asked : List (Ref × Machine)} {r : EStateM.Result Halt Machine Ref}

theorem run_cond (ev : Evaluator) (arguments : Ref) (m : Machine) :
    Builtin.cond.run ev arguments m =
      evalClauses ev arguments (m.heap.spine arguments).2 1 (m.heap.spine arguments).1 m := rfl

/-- Where a clause decides, nothing is asked of the arguments but that they begin up to it. -/
theorem Decides.run_cond (hdecides : Decides ev (1 + before.length) clause m' asked r)
    (hskips : Skips ev before m tried m')
    (harguments : before ++ [clause] <+: (m.heap.spine arguments).1) :
    Builtin.cond.run ev arguments m = r ∧
    ∀ w s, Asks (fun ev => Builtin.cond.run ev arguments) ev m w s ↔ (w, s) ∈ tried ++ asked := by
  obtain ⟨after, hspine⟩ := harguments
  rw [List.append_assoc, List.singleton_append] at hspine
  refine ⟨?_, fun w s => ?_⟩
  · rw [ArenaLisp.run_cond, ← hspine, hskips.evalClauses_append, hdecides.evalClauses_cons]
  · have hasks := hskips.asks_append arguments (m.heap.spine arguments).2 w s 1 (clause :: after)
    rw [hspine, hdecides.asks_cons, ← List.mem_append] at hasks
    exact hasks

/-- Where none decides, the list is still proper when its end is looked at. -/
theorem Skips.run_cond {n : Nat} (hskips : Skips (eval n) clauses m tried m')
    (hproper : m.heap.elements? arguments = some clauses) :
    Makes (Builtin.cond.run (eval n) arguments m) m' .nil ∧
    ∀ w s, Asks (fun ev => Builtin.cond.run ev arguments) (eval n) m w s ↔ (w, s) ∈ tried := by
  obtain ⟨rfl, hnil⟩ := Heap.spine_of_elements? hproper
  have hnil' : m'.heap.isNil (m.heap.spine arguments).2 = true := hskips.preserves.isNil hnil
  refine ⟨?_, fun w s => ?_⟩
  · have hend := hskips.evalClauses_append arguments (m.heap.spine arguments).2 1 []
    rw [List.append_nil, evalClauses_end, if_pos hnil'] at hend
    rw [ArenaLisp.run_cond, hend]
    exact makes_make m' .nil
  · have hasks := hskips.asks_append arguments (m.heap.spine arguments).2 w s 1 []
    rw [List.append_nil, or_iff_left (not_asks fun _ => evalClauses_end)] at hasks
    exact hasks

end

/--
**`cond` depends on nothing behind the clause that decides.** Whatever is behind it in the
arguments, the outcome is that of this clause, and what is evaluated is the predicates up to there,
each once on the machine that the one before it leaves, and then the value of this clause if its
predicate is not the empty list. There is such a clause, or all of them are skipped, and then `cond`
makes an empty list if the arguments are a proper list.
-/
theorem cond_stops_at_deciding_clause (m : Machine) :
    (∀ ev before clause tried m' asked r, Skips ev before m tried m' →
      Decides ev (1 + before.length) clause m' asked r →
      ∀ arguments, before ++ [clause] <+: (m.heap.spine arguments).1 →
        Builtin.cond.run ev arguments m = r ∧
        ∀ w s, Asks (fun ev => Builtin.cond.run ev arguments) ev m w s ↔ (w, s) ∈ tried ++ asked) ∧
    (∀ ev clauses,
      (∃ before clause tried m' asked r, before ++ [clause] <+: clauses ∧
        Skips ev before m tried m' ∧ Decides ev (1 + before.length) clause m' asked r) ∨
      ∃ tried m', Skips ev clauses m tried m') ∧
    ∀ n arguments clauses tried m', m.heap.elements? arguments = some clauses →
      Skips (eval n) clauses m tried m' →
        Makes (Builtin.cond.run (eval n) arguments m) m' .nil ∧
        ∀ w s, Asks (fun ev => Builtin.cond.run ev arguments) (eval n) m w s ↔ (w, s) ∈ tried := by
  refine ⟨?_, fun ev clauses => exists_decides ev clauses m 1, ?_⟩
  · intro ev before clause tried m' asked r hskips hdecides arguments harguments
    exact hdecides.run_cond hskips harguments
  · intro n arguments clauses tried m' hproper hskips
    exact hskips.run_cond hproper

/--
`(() 4)` is skipped and `(t 3)` decides, at the head of a proper list and at the head of one that
goes on with `3` and has a tail. Where `(() 4)` is alone, `cond` makes an empty list.
-/
theorem cond_stops_at_deciding_clause_shared : ∃ (m m' : Machine) (one other alone : Ref),
    m.heap.view one =
      .ofList [.ofList [.nil, .number (.int 4)], .ofList [.atom "t", .number (.int 3)]] ∧
    m.heap.spine one = ([some ⟨6⟩, some ⟨7⟩], some ⟨0⟩) ∧
    m.heap.spine other = ([some ⟨6⟩, some ⟨7⟩, some ⟨2⟩], some ⟨2⟩) ∧
    Builtin.cond.run (eval 1) one m = .ok (some ⟨2⟩) m ∧
    Builtin.cond.run (eval 1) other m = .ok (some ⟨2⟩) m ∧
    (∀ w s, Asks (fun ev => Builtin.cond.run ev other) (eval 1) m w s ↔
      (w, s) ∈ [(some ⟨0⟩, m), (some ⟨1⟩, m), (some ⟨2⟩, m)]) ∧
    m'.heap.view alone = .ofList [.ofList [.nil, .number (.int 4)]] ∧
    Makes (Builtin.cond.run (eval 1) alone m') m' .nil := by
  let heap : Heap := ⟨#[
    .live .nil, .live .truth, .live (.number (.int 3)), .live (.number (.int 4)),
    .live (.pair (some ⟨3⟩) (some ⟨0⟩)), .live (.pair (some ⟨2⟩) (some ⟨0⟩)),
    .live (.pair (some ⟨0⟩) (some ⟨4⟩)), .live (.pair (some ⟨1⟩) (some ⟨5⟩)),
    .live (.pair (some ⟨7⟩) (some ⟨0⟩)), .live (.pair (some ⟨6⟩) (some ⟨8⟩)),
    .live (.pair (some ⟨2⟩) (some ⟨2⟩)), .live (.pair (some ⟨7⟩) (some ⟨10⟩)),
    .live (.pair (some ⟨6⟩) (some ⟨11⟩))], #[]⟩
  let m : Machine := ⟨heap, .empty, none, #[]⟩
  have hfirst : m.heap.elements? (some ⟨6⟩) = some [some ⟨0⟩, some ⟨3⟩] := by decide
  have hskips : Skips (eval 1) [some ⟨6⟩] m [(some ⟨0⟩, m)] m :=
    .cons hfirst rfl (by decide) .nil
  have hdecides : Decides (eval 1) 2 (some ⟨7⟩) m [(some ⟨1⟩, m), (some ⟨2⟩, m)]
      (.ok (some ⟨2⟩) m) :=
    .holds (p := some ⟨1⟩) (by decide) rfl (by decide)
  have hstops := (cond_stops_at_deciding_clause m).1 _ _ _ _ _ _ _ hskips hdecides
  let t : Tree := .ofList [.ofList [.nil, .number (.int 4)]]
  have hclause : (Machine.empty.started t).heap.elements? (some ⟨4⟩) =
      some [some ⟨0⟩, some ⟨1⟩] := by decide
  have halone : Skips (eval 1) [some ⟨4⟩] (Machine.empty.started t)
      [(some ⟨0⟩, Machine.empty.started t)] (Machine.empty.started t) :=
    .cons hclause rfl (by decide) .nil
  refine ⟨m, Machine.empty.started t, some ⟨9⟩, some ⟨12⟩, (Heap.store t Machine.empty.heap).1,
    by decide, by decide, by decide, (hstops (some ⟨9⟩) (by decide)).1,
    (hstops (some ⟨12⟩) (by decide)).1, (hstops (some ⟨12⟩) (by decide)).2, by decide, ?_⟩
  exact ((cond_stops_at_deciding_clause _).2.2 1 _ _ _ _ (by decide) halone).1

end ArenaLisp
