import ArenaLisp.Proofs.Application
import ArenaLisp.Proofs.Lookup

/-!
# The course of a session

The moments of a session are machines: where an evaluation starts and where it ends, the caller
of a closure with the arguments passed, and the machine between two turns. `Precedes` puts them
in order, at any depth of nesting and over any number of turns, and what precedes is retained.

A value is copied when `set` binds it, when it is passed to a call, when a closure takes it
along, and when what a closure has taken along is brought to a call or to another closure.
`Copies` has a rule for each of these, and rules for what stands at the same place in a value
and its copy. `Carries` follows a value from copy to copy through a session, and
`Carries.unfolds` says that nothing is lost on the way.
-/

namespace ArenaLisp

open EvalM Machine

namespace Interpreter

theorem run_concat (i : Interpreter) (steps : List Step) (s : Step) :
    i.run (steps ++ [s]) = (i.run steps).step s := by
  rw [run, List.foldl_append]
  rfl

/-! ## The order of moments -/

/-- An interpreter between two turns: after any steps, or after some of the turns of a source. -/
inductive Pauses (i : Interpreter) : Interpreter → Prop
  | steps (steps : List Step) : Pauses i (i.run steps)
  | source (steps : List Step) (depth : Nat) {text : Bytes} {before after : List Tree}
      (hread : readData text = .ok (before ++ after)) :
      Pauses i ((i.run steps).execAll depth before).2.2

/--
Whether a moment of a session comes before another, or is the same, and everything registered is
released so many times in between.
-/
inductive Precedes (i : Interpreter) : Nat → Machine → Machine → Prop
  | refl (m : Machine) : Precedes i 0 m m
  | trans {k k' : Nat} {m m' m'' : Machine} (h : Precedes i k m m') (h' : Precedes i k' m' m'') :
      Precedes i (k + k') m m''
  /-- An evaluation starts before it ends. -/
  | evaluated {n : Nat} {v : Ref} {m : Machine} (hv : i.Evaluates n v m) :
      Precedes i 0 m (m.eval n v).2
  /-- It starts before those that it asks for. -/
  | asked {n : Nat} {v w : Ref} {m s : Machine} (hv : i.Evaluates (n + 1) v m)
      (hask : Asks (fun ev => evalStep ev v) (ArenaLisp.eval n) m w s) : Precedes i 0 m s
  /-- Those end before it does. -/
  | answered {n : Nat} {v w : Ref} {m s : Machine} (hv : i.Evaluates (n + 1) v m)
      (hask : Asks (fun ev => evalStep ev v) (ArenaLisp.eval n) m w s) :
      Precedes i 0 (s.eval n w).2 (m.eval (n + 1) v).2
  /-- One of them ends before another starts, if it is asked for also when evaluation halts there. -/
  | next {n : Nat} {v w w' : Ref} {m s s' : Machine} (hv : i.Evaluates (n + 1) v m)
      (hask' : Asks (fun ev => evalStep ev v) (ArenaLisp.eval n) m w' s')
      (hask : Asks (fun ev => evalStep ev v) ((ArenaLisp.eval n).haltingAt w' s' .tooDeep) m w s)
      (hne : ¬(w = w' ∧ s = s')) : Precedes i 0 (s.eval n w).2 s'
  /-- The arguments of a closure are passed before its body starts. -/
  | entered {n : Nat} {v : Ref} {m entered : Machine} (hv : i.Evaluates (n + 1) v m)
      (f : Application n v m) (hfull : f.given.length = f.reached.heap.arity f.closure)
      (hentered : f.Enters entered) : Precedes i 0 f.caller entered
  /-- The arguments of a closure are passed before it is known to wait for others. -/
  | waited {n : Nat} {v : Ref} {m : Machine} (hv : i.Evaluates (n + 1) v m)
      (f : Application n v m) (hfew : f.given.length < f.reached.heap.arity f.closure) :
      Precedes i 0 f.caller (m.eval (n + 1) v).2
  /-- A turn starts after what came before it, and what it leaves is released at its end. -/
  | begun {j : Interpreter} (hj : i.Pauses j) (e : Expression) :
      Precedes i 0 j.machine (j.machine.started e.tree)
  | ended {j : Interpreter} (hj : i.Pauses j) (depth : Nat) (e : Expression) :
      Precedes i 1 ((j.machine.started e.tree).eval depth (Heap.store e.tree j.heap).1).2
        (j.step (.exec depth e)).machine
  /-- So does an evaluation that is no turn, and nothing is released. -/
  | built {j : Interpreter} (hj : i.Pauses j) (e : Expression) :
      Precedes i 0 j.machine (j.onHeap (Heap.store e.tree)).2.machine
  | left {j : Interpreter} (hj : i.Pauses j) (depth : Nat) (e : Expression) :
      Precedes i 0
        ((j.onHeap (Heap.store e.tree)).2.machine.eval depth (Heap.store e.tree j.heap).1).2
        (j.step (.eval depth e)).machine
  /-- The turns of a source come before what follows it. -/
  | loaded {j : Interpreter} (hj : i.Pauses j) (depth : Nat) {name : String}
      {text : Except String Bytes} {ts : List Tree} (hreads : j.reads = true)
      (hread : readSource name text = .ok ts) :
      Precedes i 0 (j.execAll depth ts).2.2.machine (j.step (.load depth name text)).machine
  /-- Every step comes after those before it. -/
  | stepped {j : Interpreter} (hj : i.Pauses j) (s : Step) :
      Precedes i (j.releases s) j.machine (j.step s).machine

variable {i : Interpreter}

theorem Evaluates.asked {n : Nat} {v w : Ref} {m s : Machine} (hv : i.Evaluates (n + 1) v m)
    (hask : Asks (fun ev => evalStep ev v) (ArenaLisp.eval n) m w s) : i.Evaluates n w s := by
  cases hv with
  | turn steps depth e hv => exact .turn steps depth e (.part hv hask)
  | source steps depth hread hv => exact .source steps depth hread (.part hv hask)
  | bare steps depth e hv => exact .bare steps depth e (.part hv hask)

/-- An evaluation that halts at another asks for it. -/
theorem Evaluates.asks {n : Nat} {v w : Ref} {m s : Machine} (hv : i.Evaluates (n + 1) v m)
    (hr : i.machine.Resting)
    (hup : gaveUp (evalStep ((ArenaLisp.eval n).haltingAt w s .dangling) v m) = true) :
    Asks (fun ev => evalStep ev v) (ArenaLisp.eval n) m w s := by
  obtain ⟨hs, hlive⟩ := hv.sound hr.rooted
  exact ((evalStep_program hs hlive).asked (eval_keeps n) hs hup).1

/-- An operator is evaluated after the start. -/
theorem Precedes.operator {n : Nat} {v operator arguments : Ref} {m reached : Machine}
    (hv : i.Evaluates (n + 1) v m) (ha : Applies n v m operator arguments reached) :
    i.Precedes 0 m reached := by
  obtain ⟨car, hcar⟩ := ha.isOperator
  obtain ⟨hoperator, hask⟩ := ha.asks hcar
  have hlater := Precedes.evaluated (hv.asked hask)
  rwa [Machine.eval_snd, hoperator] at hlater

theorem Precedes.steps (i : Interpreter) (steps more : List Step) :
    ∃ releases, i.Precedes releases (i.run steps).machine (i.run (steps ++ more)).machine := by
  induction more generalizing steps with
  | nil =>
      rw [List.append_nil]
      exact ⟨0, .refl _⟩
  | cons s more ih =>
      have hstep := Precedes.stepped (i := i) (.steps steps) s
      rw [← run_concat] at hstep
      obtain ⟨releases, hrest⟩ := ih (steps ++ [s])
      rw [List.append_assoc] at hrest
      exact ⟨_, hstep.trans hrest⟩

theorem Pauses.resting {j : Interpreter} (hj : i.Pauses j) (hr : i.machine.Resting) :
    j.machine.Resting := by
  cases hj with
  | steps steps => exact run_resting steps hr
  | source steps depth hread =>
      exact execAll_resting depth (fun t ht => readData_code hread t (List.mem_append_left _ ht))
        (run_resting steps hr)

section

variable {R : Nat → Machine → Machine → Prop} (hR : Respected R) {j : Interpreter}

include hR

/-- At the end of a turn, everything registered is released. -/
theorem exec_respects (hr : j.machine.Resting) {t : Tree} (hc : t.Code) (depth : Nat) :
    R 1 ((j.machine.started t).eval depth (Heap.store t j.heap).1).2
      (j.execTree depth t).2.machine := by
  obtain ⟨hr₁, hv⟩ := hr.started hc
  have hr₂ := (hr₁.eval depth hv).rooted
  rw [execTree_machine]
  exact hR.trans (hR.release hr₂) (hR.evolves (.withLog _ _))

theorem execTree_respects (hr : j.machine.Resting) {t : Tree} (hc : t.Code) (depth : Nat) :
    R 1 j.machine (j.execTree depth t).2.machine := by
  obtain ⟨hr₁, he₁, hlive⟩ := hr.rooted.started hc.plain
  have hrun := (eval_keeps depth _ _ hr₁.sound hlive).final.2
  have hends := exec_respects hR hr hc depth
  rw [Machine.eval_snd] at hends
  exact hR.trans (hR.trans (hR.evolves he₁) (hR.evolves hrun)) hends

theorem execAll_respects (hr : j.machine.Resting) (depth : Nat) {ts : List Tree}
    (hts : ∀ t ∈ ts, t.Code) : R ts.length j.machine (j.execAll depth ts).2.2.machine := by
  induction ts generalizing j with
  | nil => exact hR.refl _
  | cons t ts ih =>
      have ht := hts t List.mem_cons_self
      rw [List.length_cons, Nat.add_comm]
      exact hR.trans (execTree_respects hR hr ht depth)
        (ih (execTree_resting hr depth ht) fun t' ht' => hts t' (List.mem_cons_of_mem _ ht'))

theorem load_respects (hr : j.machine.Resting) (depth : Nat) (name : String)
    (text : Except String Bytes) :
    R (j.turns name text) j.machine (j.load depth name text).2.machine := by
  rcases load_cases j depth name text with ⟨hturns, hload⟩ | ⟨ts, -, hread, hturns, hload⟩
  · rw [hturns, hload]
    exact hR.refl _
  · obtain ⟨_, -, hdata⟩ := readSource_ok hread
    rw [hturns, hload]
    exact execAll_respects hR hr depth (readData_code hdata)

end

theorem built_evolves {j : Interpreter} (hr : j.machine.Resting) {t : Tree} (hc : t.Code) :
    (j.onHeap (Heap.store t)).2.machine.Sound ∧
      j.machine.Evolves (j.onHeap (Heap.store t)).2.machine ∧
      (j.onHeap (Heap.store t)).2.machine.heap.LiveRef (Heap.store t j.heap).1 := by
  obtain ⟨hr', he, hlive⟩ := hr.rooted.stored hc.plain rfl
  exact ⟨hr'.sound, he, hlive⟩

/-- **A step respects every such relation.** -/
theorem step_respects {R : Nat → Machine → Machine → Prop} (hR : Respected R) {j : Interpreter}
    (hr : j.machine.Resting) (s : Step) : R (j.releases s) j.machine (j.step s).machine := by
  cases s with
  | exec depth e => exact execTree_respects hR hr e.code depth
  | eval depth e =>
      obtain ⟨hs, he, hlive⟩ := built_evolves hr e.code
      have hrun := (eval_keeps depth _ _ hs hlive).final.2
      rw [← Machine.eval_snd] at hrun
      exact hR.trans (hR.evolves he) (hR.evolves hrun)
  | load depth name text => exact load_respects hR hr depth name text
  | release => exact hR.release hr.rooted

/-- **What precedes is related to what follows** by everything that a session respects. -/
theorem Precedes.respects {k : Nat} {m m' : Machine} (hp : i.Precedes k m m')
    {R : Nat → Machine → Machine → Prop} (hR : Respected R) (hr : i.machine.Resting) :
    R k m m' := by
  induction hp with
  | refl m => exact hR.refl m
  | trans _ _ ih ih' => exact hR.trans ih ih'
  | @evaluated n v m hv =>
      obtain ⟨hs, hlive⟩ := hv.sound hr.rooted
      rw [Machine.eval_snd]
      exact hR.evolves (eval_keeps n v m hs hlive).final.2
  | @asked n v w m s hv hask =>
      obtain ⟨hs, hlive⟩ := hv.sound hr.rooted
      exact ((evalStep_program hs hlive).asked_respects (eval_keeps n) hs hR hask.gaveUp).1
  | @answered n v w m s hv hask =>
      obtain ⟨hs, hlive⟩ := hv.sound hr.rooted
      rw [Machine.eval_snd, Machine.eval_snd]
      exact ((evalStep_program hs hlive).asked_respects (eval_keeps n) hs hR hask.gaveUp).2
  | @next n v w w' m s s' hv hask' hask hne =>
      obtain ⟨hs, hlive⟩ := hv.sound hr.rooted
      rw [Machine.eval_snd]
      exact (evalStep_program hs hlive).asked_next (eval_keeps n) hs hR hne hask'.gaveUp hask.gaveUp
  | @entered n v m entered hv f hfull hentered =>
      obtain ⟨ho, hcode⟩ := hv.orderly hr
      obtain ⟨names, body, captured, values, hd⟩ := f.denotes ho hcode
      obtain ⟨entered', he⟩ := hd.entered ho hcode hfull
      obtain rfl := he.enters.unique hentered
      exact hR.calls he.calls
  | @waited n v m hv f hfew =>
      obtain ⟨ho, hcode⟩ := hv.orderly hr
      obtain ⟨names, body, captured, values, hd⟩ := f.denotes ho hcode
      obtain ⟨result, after, hresult, -, he, -⟩ := hd.waits hfew
      rw [Machine.eval_snd, hresult]
      exact hR.evolves he
  | begun hj e => exact hR.evolves ((hj.resting hr).rooted.started e.plain).2.1
  | ended hj depth e => exact exec_respects hR (hj.resting hr) e.code depth
  | built hj e => exact hR.evolves (built_evolves (hj.resting hr) e.code).2.1
  | left hj depth e => exact hR.refl _
  | loaded hj depth hreads hread =>
      rw [step, load_machine depth hreads hread]
      exact hR.refl _
  | stepped hj s => exact step_respects hR (hj.resting hr) s

/-- **What precedes is retained.** -/
theorem Precedes.retains {k : Nat} {m m' : Machine} (hp : i.Precedes k m m')
    (hr : i.machine.Resting) : m.Retains m' :=
  hp.respects retains_respected hr

/-! ## Copies -/

/-- Whether a value is copied: with the machine it is on, and the one its copy is on. -/
inductive Copies (i : Interpreter) : Machine → Ref → Machine → Ref → Prop
  /-- `set` binds a copy of a value. -/
  | bound {n : Nat} {v : Ref} {m : Machine} (hv : i.Evaluates (n + 1) v m) (f : Assignment n v m) :
      Copies i f.evaluated f.value f.after f.bound
  /-- A copy of a value is passed to a call. -/
  | passed {n k : Nat} {v w w' : Ref} {m s : Machine} (hv : i.Evaluates (n + 1) v m)
      (f : Application n v m) (hresult : f.results[k]? = some (w, s))
      (hvalue : f.values[k]? = some w') : Copies i s w f.caller w'
  /-- A closure takes along a copy of what a name is bound to. -/
  | captured {n : Nat} {v w w' : Ref} {m : Machine} {a : Addr} {c : Closure} {name : String}
      (hv : i.Evaluates (n + 1) v m) (f : Creation n v m)
      (hbound : f.defined.heap.lookup? f.defined.scope name = some w) (hmade : f.made = some a)
      (hcell : f.after.heap.cell a = .live (.closure c))
      (hcaptured : f.after.heap.lookup? c.captured name = some w') :
      Copies i f.defined w f.after w'
  /-- What a closure has taken along is copied for the body. -/
  | entered {n k : Nat} {v : Ref} {m entered : Machine} {b b' : BindingId}
      (hv : i.Evaluates (n + 1) v m) (f : Application n v m)
      (hfull : f.given.length = f.reached.heap.arity f.closure) (hentered : f.Enters entered)
      (hb : (f.caller.heap.chain f.closure.captured)[k]? = some b)
      (hb' : (entered.heap.chain entered.scope)[k]? = some b') :
      Copies i f.caller (f.caller.heap.binding b).value entered (entered.heap.binding b').value
  /-- What a closure has taken along is copied for one that waits, behind the values passed. -/
  | waited {n k : Nat} {v : Ref} {m after : Machine} {a : Addr} {c : Closure} {b b' : BindingId}
      (hv : i.Evaluates (n + 1) v m) (f : Application n v m)
      (hfew : f.given.length < f.reached.heap.arity f.closure)
      (hresult : ArenaLisp.eval (n + 1) v m = .ok (some a) after)
      (hcell : after.heap.cell a = .live (.closure c))
      (hb : (f.caller.heap.chain f.closure.captured)[k]? = some b)
      (hb' : (after.heap.chain c.captured)[f.values.length + k]? = some b') :
      Copies i f.caller (f.caller.heap.binding b).value after (after.heap.binding b').value
  /-- The copy of a list has copies of its fields. -/
  | car {a a' : Addr} {x y x' y' : Ref} {m m' : Machine} (h : Copies i m (some a) m' (some a'))
      (hcell : m.heap.cell a = .live (.pair x y)) (hcell' : m'.heap.cell a' = .live (.pair x' y')) :
      Copies i m x m' x'
  | cdr {a a' : Addr} {x y x' y' : Ref} {m m' : Machine} (h : Copies i m (some a) m' (some a'))
      (hcell : m.heap.cell a = .live (.pair x y)) (hcell' : m'.heap.cell a' = .live (.pair x' y')) :
      Copies i m y m' y'
  /-- The copy of a closure has copies of what it has taken along. -/
  | inside {a a' : Addr} {c c' : Closure} {k : Nat} {b b' : BindingId} {m m' : Machine}
      (h : Copies i m (some a) m' (some a')) (hcell : m.heap.cell a = .live (.closure c))
      (hcell' : m'.heap.cell a' = .live (.closure c'))
      (hb : (m.heap.chain c.captured)[k]? = some b)
      (hb' : (m'.heap.chain c'.captured)[k]? = some b') :
      Copies i m (m.heap.binding b).value m' (m'.heap.binding b').value

/--
Whether a value on a machine is, or was copied in any number of steps from, a value on an
earlier one.
-/
inductive Carries (i : Interpreter) (m₀ : Machine) (v₀ : Ref) : Machine → Ref → Prop
  | itself {releases : Nat} {m : Machine} (hlater : i.Precedes releases m₀ m) :
      Carries i m₀ v₀ m v₀
  | copied {releases : Nat} {m m₁ m' : Machine} {v v' : Ref} (h : Carries i m₀ v₀ m v)
      (hcopy : i.Copies m v m₁ v') (hlater : i.Precedes releases m₁ m') : Carries i m₀ v₀ m' v'

end Interpreter

theorem forall₂_getElem? {α β : Type} {R : α → β → Prop} {xs : List α} {ys : List β}
    (h : List.Forall₂ R xs ys) {k : Nat} {x : α} (hx : xs[k]? = some x) :
    ∃ y, ys[k]? = some y ∧ R x y := by
  induction h generalizing k with
  | nil => cases hx
  | @cons a b xs ys hab _ ih =>
      cases k with
      | zero =>
          cases hx
          exact ⟨b, rfl, hab⟩
      | succ k => exact ih hx

namespace Heap

/-- The bindings that a closure has taken along bind what it unfolds into. -/
theorem UnfoldsChain.getElem? {h : Heap} {c : Chain} {s : Scope} (hu : h.UnfoldsChain c s) {k : Nat}
    {b : BindingId} (hb : (h.chain c)[k]? = some b) :
    ∃ e, (Reference.ofScope s)[k]? = some e ∧ h.Entry b e := by
  obtain ⟨bs, hlinked, hentries, -⟩ := hu.entries
  rw [hlinked.chain_eq] at hb
  exact forall₂_getElem? hentries hb

theorem UnfoldsChain.lookup? {h : Heap} {c : Chain} {s : Scope} (hu : h.UnfoldsChain c s)
    (name : String) :
    Option.Rel h.Unfolds (h.lookup? c name) (Reference.lookup? (Reference.ofScope s) name) := by
  obtain ⟨bs, hlinked, hentries, -⟩ := hu.entries
  exact lookup?_unfolds hlinked hentries name

/-- The fields of a list unfold into those of its tree. -/
theorem Unfolds.pair_parts {h : Heap} {a : Addr} {x y : Ref} {t : Tree} (hu : h.Unfolds (some a) t)
    (hcell : h.cell a = .live (.pair x y)) : ∃ u w, t = .pair u w ∧ h.Unfolds x u ∧ h.Unfolds y w := by
  cases hu with
  | pair hcell' hcar hcdr =>
      rw [hcell] at hcell'
      cases hcell'
      exact ⟨_, _, rfl, hcar, hcdr⟩
  | atom hcell' | number hcell' | primitive hcell' | closure hcell' =>
      rw [hcell] at hcell'
      cases hcell'

end Heap

/-- What a closure takes along under a name unfolds into what the name is bound to. -/
theorem Creation.Denotes.captured_unfolds {n : Nat} {v : Ref} {m : Machine} {f : Creation n v m}
    {env : Reference.Env} {params body : Tree} {names : List String}
    (hd : f.Denotes env params body names) {a : Addr} {c : Closure} {name : String} {w w' : Ref}
    (hbound : f.defined.heap.lookup? f.defined.scope name = some w) (hmade : f.made = some a)
    (hcell : f.after.heap.cell a = .live (.closure c))
    (hcaptured : f.after.heap.lookup? c.captured name = some w') :
    ∃ t, f.defined.heap.Unfolds w t ∧ f.after.heap.Unfolds w' t := by
  have hvalue := Heap.lookup?_unfolds hd.orderly.sound.linked hd.models name
  rw [hbound] at hvalue
  have hu := hd.made
  rw [hmade] at hu
  obtain ⟨-, -, -, hchain⟩ := hu.closure_parts hcell
  have htaken := hchain.lookup? name
  rw [Reference.ofScope_toScope, Reference.lookup?_capture, hcaptured] at htaken
  split at htaken
  · generalize Reference.lookup? env name = t at hvalue htaken
    cases hvalue with
    | some hvalue =>
        rw [Option.some_or] at htaken
        cases htaken with
        | some htaken => exact ⟨_, hvalue, htaken⟩
  · cases htaken

/-- Behind the values passed, a closure that waits has what the closure applied has. -/
theorem Application.Denotes.waiting_unfolds {n : Nat} {v : Ref} {m : Machine}
    {f : Application n v m} {names : List String} {body : Tree} {captured : Scope}
    {values : List Tree} (hd : f.Denotes names body captured values)
    (hfew : f.given.length < f.reached.heap.arity f.closure) {after : Machine} {a : Addr}
    {c : Closure} (hresult : ArenaLisp.eval (n + 1) v m = .ok (some a) after)
    (hcell : after.heap.cell a = .live (.closure c)) {k : Nat} {b b' : BindingId}
    (hb : (f.caller.heap.chain f.closure.captured)[k]? = some b)
    (hb' : (after.heap.chain c.captured)[f.values.length + k]? = some b') :
    after.Sound ∧ ∃ t, f.caller.heap.Unfolds (f.caller.heap.binding b).value t ∧
      after.heap.Unfolds (after.heap.binding b').value t := by
  obtain ⟨result, after', hresult', hs', -, hu⟩ := hd.waits hfew
  cases hresult.symm.trans hresult'
  obtain ⟨-, -, -, -, hchain⟩ := hd.parts
  obtain ⟨e, hentry, hbound⟩ := hchain.getElem? hb
  obtain ⟨-, -, -, hchain'⟩ := hu.closure_parts hcell
  obtain ⟨e', hentry', hbound'⟩ := hchain'.getElem? hb'
  have hlength : (names.zip values).reverse.length = f.values.length := by
    have h₁ := hd.passes.length_eq
    have h₂ := hd.length_eq
    have h₃ := hd.arity
    rw [List.length_reverse, List.length_zip]
    omega
  rw [Reference.ofScope_toScope, List.getElem?_append_right (by omega), hlength,
    Nat.add_sub_cancel_left, hentry] at hentry'
  cases hentry'
  exact ⟨hs', e.2, hbound.2, hbound'.2⟩

namespace Interpreter

variable {i : Interpreter}

/-- **A copy unfolds into what is copied.** -/
theorem Copies.unfolds {m m' : Machine} {v v' : Ref} (hc : i.Copies m v m' v')
    (hr : i.machine.Resting) :
    m.Sound ∧ m'.Sound ∧ ∃ t, m.heap.Unfolds v t ∧ m'.heap.Unfolds v' t := by
  induction hc with
  | bound hv f =>
      obtain ⟨ho, hcode⟩ := hv.orderly hr
      obtain ⟨hs, hs', -, hunfolds⟩ := f.unfolds ho hcode
      exact ⟨hs, hs', hunfolds⟩
  | passed hv f hresult hvalue =>
      obtain ⟨ho, hcode⟩ := hv.orderly hr
      obtain ⟨names, body, captured, values, hd⟩ := f.denotes ho hcode
      obtain ⟨t, ht, hs, hu⟩ := forall₂_getElem? hd.results hresult
      obtain ⟨t', ht', -, hu'⟩ := forall₂_getElem? hd.passes hvalue
      cases ht.symm.trans ht'
      exact ⟨hs, hd.caller.sound, t, hu, hu'⟩
  | @captured n v w w' m a c name hv f hbound hmade hcell hcaptured =>
      obtain ⟨ho, hcode⟩ := hv.orderly hr
      obtain ⟨env, params, body, names, hd⟩ := f.denotes ho hcode
      exact ⟨hd.orderly.sound, hd.sound, hd.captured_unfolds hbound hmade hcell hcaptured⟩
  | @entered n k v m entered b b' hv f hfull hentered hb hb' =>
      obtain ⟨ho, hcode⟩ := hv.orderly hr
      obtain ⟨names, body, captured, values, hd⟩ := f.denotes ho hcode
      obtain ⟨entered', he⟩ := hd.entered ho hcode hfull
      obtain rfl := he.enters.unique hentered
      obtain ⟨-, -, -, -, hchain⟩ := hd.parts
      obtain ⟨e, hentry, hbound⟩ := hchain.getElem? hb
      obtain ⟨env, hm, -⟩ := hd.caller.bound
      obtain ⟨e', hentry', hbound'⟩ := forall₂_getElem? (he.models env hm) hb'
      rw [List.append_assoc, List.getElem?_append_left (List.getElem?_eq_some_iff.mp hentry).1,
        hentry] at hentry'
      cases hentry'
      exact ⟨hd.caller.sound, he.sound, e.2, hbound.2, hbound'.2⟩
  | @waited n k v m after a c b b' hv f hfew hresult hcell hb hb' =>
      obtain ⟨ho, hcode⟩ := hv.orderly hr
      obtain ⟨names, body, captured, values, hd⟩ := f.denotes ho hcode
      exact ⟨hd.caller.sound, hd.waiting_unfolds hfew hresult hcell hb hb'⟩
  | car _ hcell hcell' ih =>
      obtain ⟨hs, hs', t, hu, hu'⟩ := ih
      obtain ⟨x, y, rfl, hx, -⟩ := hu.pair_parts hcell
      obtain ⟨x', y', heq, hx', -⟩ := hu'.pair_parts hcell'
      cases heq
      exact ⟨hs, hs', x, hx, hx'⟩
  | cdr _ hcell hcell' ih =>
      obtain ⟨hs, hs', t, hu, hu'⟩ := ih
      obtain ⟨x, y, rfl, -, hy⟩ := hu.pair_parts hcell
      obtain ⟨x', y', heq, -, hy'⟩ := hu'.pair_parts hcell'
      cases heq
      exact ⟨hs, hs', y, hy, hy'⟩
  | inside _ hcell hcell' hb hb' ih =>
      obtain ⟨hs, hs', t, hu, hu'⟩ := ih
      obtain ⟨params, body, s, rfl⟩ := hu.eq_closure hcell
      obtain ⟨-, -, -, hchain⟩ := hu.closure_parts hcell
      obtain ⟨-, -, -, hchain'⟩ := hu'.closure_parts hcell'
      obtain ⟨e, hentry, hbound⟩ := hchain.getElem? hb
      obtain ⟨e', hentry', hbound'⟩ := hchain'.getElem? hb'
      cases hentry.symm.trans hentry'
      exact ⟨hs, hs', e.2, hbound.2, hbound'.2⟩

/-- A copy comes after what is copied. -/
theorem Copies.retains {m m' : Machine} {v v' : Ref} (hc : i.Copies m v m' v')
    (hr : i.machine.Resting) : m.Retains m' := by
  induction hc with
  | bound hv f =>
      obtain ⟨ho, hcode⟩ := hv.orderly hr
      exact .of_evolves (f.unfolds ho hcode).2.2.1
  | passed hv f hresult hvalue =>
      obtain ⟨ho, hcode⟩ := hv.orderly hr
      obtain ⟨names, body, captured, values, hd⟩ := f.denotes ho hcode
      obtain ⟨w, -, he, -⟩ := forall₂_getElem? hd.copied hresult
      exact .of_evolves he
  | captured hv f =>
      obtain ⟨ho, hcode⟩ := hv.orderly hr
      obtain ⟨env, params, body, names, hd⟩ := f.denotes ho hcode
      exact .of_evolves hd.evolves
  | entered hv f hfull hentered => exact (Precedes.entered hv f hfull hentered).retains hr
  | waited hv f hfew hresult =>
      have hlater := (Precedes.waited hv f hfew).retains hr
      rwa [Machine.eval_snd, hresult] at hlater
  | car _ _ _ ih => exact ih
  | cdr _ _ _ ih => exact ih
  | inside _ _ _ _ _ ih => exact ih

theorem Carries.retains {m₀ m : Machine} {v₀ v : Ref} (hc : i.Carries m₀ v₀ m v)
    (hr : i.machine.Resting) : m₀.Retains m := by
  induction hc with
  | itself hlater => exact hlater.retains hr
  | copied _ hcopy hlater ih => exact (ih.trans (hcopy.retains hr)).trans (hlater.retains hr)

/-- **Nothing of a value is lost on its way from copy to copy.** -/
theorem Carries.unfolds {m₀ m : Machine} {v₀ v : Ref} (hc : i.Carries m₀ v₀ m v)
    (hr : i.machine.Resting) (hs : m₀.Sound) {t : Tree} (hu : m₀.heap.Unfolds v₀ t)
    (hlive : m.heap.LiveRef v) : m.heap.Unfolds v t := by
  induction hc with
  | itself hlater => exact (hlater.retains hr).unfolds hs hu hlive
  | copied _ hcopy hlater ih =>
      -- what is copied is live, so it is what it was
      obtain ⟨-, hs₁, u, hsource, hcopied⟩ := hcopy.unfolds hr
      obtain rfl := hsource.unique (ih hsource.liveRef)
      exact (hlater.retains hr).unfolds hs₁ hcopied hlive

end Interpreter

end ArenaLisp
