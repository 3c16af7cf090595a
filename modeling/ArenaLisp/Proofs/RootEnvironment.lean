import ArenaLisp.Proofs.Origin

/-!
# The root environment of a session

A session in which primitives can be added at any time, between the steps. Its root environment only
grows, at its front: what is bound stays bound, under the same name and in the same order, and no
name is bound twice. New bindings come from added primitives and from `set`, and of these only from
those that are evaluated in the root environment itself. What a `set` in the body of a closure binds
never gets there, then or later.

The main statement is `root_environment_keeps_its_shape`.
-/

namespace ArenaLisp

open EvalM Machine

namespace Machine

/-! ## Growing at the front -/

/--
Whether an environment has grown from another: the bindings that were there are an end of the chain,
each with the link and the name it had.
-/
structure Prolongs (m m' : Machine) : Prop where
  env : m.env <:+ m'.env
  binding : ∀ b ∈ m.env, (m'.heap.binding b).name = (m.heap.binding b).name ∧
    (m'.heap.binding b).next = (m.heap.binding b).next
  name : ∀ b ∈ m.env, m'.heap.cell? (m.heap.binding b).name = m.heap.cell? (m.heap.binding b).name
  retains : m.Retains m'

namespace Prolongs

variable {m m' m'' : Machine}

/-- Neither the arena nor the log matters. -/
theorem of_eq (hheap : m'.heap = m.heap) (hscope : m'.scope = m.scope) : m.Prolongs m' where
  env := by simp only [Machine.env, hheap, hscope, List.suffix_rfl]
  binding b _ := by rw [hheap]; exact ⟨rfl, rfl⟩
  name b _ := by rw [hheap]
  retains := .of_eq hheap hscope

theorem refl (m : Machine) : m.Prolongs m := of_eq rfl rfl

theorem trans (h : m.Prolongs m') (h' : m'.Prolongs m'') : m.Prolongs m'' := by
  have hmem : ∀ b ∈ m.env, b ∈ m'.env := fun b hb => h.env.subset hb
  refine ⟨h.env.trans h'.env, fun b hb => ?_, fun b hb => ?_, h.retains.trans h'.retains⟩
  · obtain ⟨hname, hnext⟩ := h.binding b hb
    obtain ⟨hname', hnext'⟩ := h'.binding b (hmem b hb)
    exact ⟨hname'.trans hname, hnext'.trans hnext⟩
  · have hcell := h'.name b (hmem b hb)
    rw [(h.binding b hb).1] at hcell
    exact hcell.trans (h.name b hb)

theorem of_evolves (he : m.Evolves m') (hs : m.Sound) : m.Prolongs m' where
  env := he.env_suffix
  binding b hb := ⟨(he.fixed b (hs.env_has hb)).1, (he.fixed b (hs.env_has hb)).2.1⟩
  name b hb := by
    cases hname : (m.heap.binding b).name with
    | none => rfl
    | some a => exact congrArg some (he.cell a (hs.name_has hb hname))
  retains := .of_evolves he

/-- Releasing what is registered leaves a root environment alone. -/
theorem of_releaseAll (hr : m.Rooted) : m.Prolongs m.releaseAll.2 where
  env := hr.releaseAll_env ▸ List.suffix_rfl
  binding b hb := by rw [hr.releaseAll_binding hb]; exact ⟨rfl, rfl⟩
  name b hb := by
    cases hname : (m.heap.binding b).name with
    | none => rfl
    | some a =>
        refine congrArg some (hr.releaseAll_agreeAt hb (Or.inl hname.symm) (k := .value a) ?_)
        exact Heap.holds_some.mpr (Heap.Reaches.refl _)
  retains := .of_releaseAll hr

/-- A name is still a name. -/
theorem named (h : m.Prolongs m') {b : BindingId} (hb : b ∈ m.env) {name : String}
    (hn : m.heap.Named b name) : m'.heap.Named b name := by
  refine hn.congr (h.binding b hb).1 fun a ha => ?_
  have hcell := h.name b hb
  rw [ha] at hcell
  exact Option.some.inj hcell

end Prolongs

/-- Evaluating an expression in the root environment. -/
theorem Rooted.eval_prolongs {m : Machine} (hr : m.Rooted) (n : Nat) {v : Ref}
    (hv : m.heap.LiveRef v) : m.Prolongs (m.eval n v).2 :=
  .of_evolves (hr.eval n hv).2 hr.sound

end Machine

namespace Interpreter

variable {j : Interpreter}

/-! ## The evaluations of a step -/

/-- The evaluations that a step starts in the root environment. -/
inductive Starts (j : Interpreter) : Step → Nat → Ref → Machine → Prop
  | exec (depth : Nat) (e : Expression) :
      Starts j (.exec depth e) depth (Heap.store e.tree j.heap).1 (j.machine.started e.tree)
  | eval (depth : Nat) (e : Expression) :
      Starts j (.eval depth e) depth (Heap.store e.tree j.heap).1
        (j.onHeap (Heap.store e.tree)).2.machine
  | load {depth : Nat} {name : String} {text : Except String Bytes} {before after : List Tree}
      {t : Tree} (hreads : j.reads = true)
      (hread : readSource name text = .ok (before ++ t :: after)) :
      Starts j (.load depth name text) depth (Heap.store t (j.execAll depth before).2.2.heap).1
        ((j.execAll depth before).2.2.machine.started t)

/-- A turn is prolonged from its start to its end. -/
theorem exec_prolongs (hr : j.machine.Rooted) {t : Tree} (ht : t.Plain) (depth : Nat) :
    ((j.machine.started t).eval depth (Heap.store t j.heap).1).2.Prolongs
      (j.execTree depth t).2.machine := by
  obtain ⟨hr₁, -, hv⟩ := hr.started ht
  rw [execTree_machine]
  exact (Prolongs.of_releaseAll (hr₁.eval depth hv).1).trans (.of_eq rfl rfl)

theorem execTree_prolongs (hr : j.machine.Rooted) {t : Tree} (ht : t.Plain) (depth : Nat) :
    j.machine.Prolongs (j.execTree depth t).2.machine := by
  obtain ⟨hr₁, he₁, hv⟩ := hr.started ht
  exact ((Prolongs.of_evolves he₁ hr.sound).trans (hr₁.eval_prolongs depth hv)).trans
    (exec_prolongs hr ht depth)

theorem execAll_prolongs (hr : j.machine.Rooted) (depth : Nat) {ts : List Tree}
    (hts : ∀ t ∈ ts, t.Plain) : j.machine.Prolongs (j.execAll depth ts).2.2.machine := by
  induction ts generalizing j with
  | nil => exact .refl _
  | cons t ts ih =>
      have ht := hts t List.mem_cons_self
      refine (execTree_prolongs hr ht depth).trans ?_
      refine ih (execTree_advances hr depth ht).1.rooted fun t' ht' => ?_
      exact hts t' (List.mem_cons_of_mem _ ht')

/-- An evaluation that a step starts comes after what was before the step, and before its end. -/
theorem Starts.prolongs (hr : j.machine.Rooted) {s : Step} {n : Nat} {v : Ref} {m : Machine}
    (hs : j.Starts s n v m) : m.Rooted ∧ m.heap.LiveRef v ∧ j.machine.Prolongs m ∧
      (m.eval n v).2.Prolongs (j.step s).machine := by
  cases hs with
  | exec depth e =>
      obtain ⟨hr₁, he₁, hv⟩ := hr.started e.plain
      exact ⟨hr₁, hv, .of_evolves he₁ hr.sound, exec_prolongs hr e.plain n⟩
  | eval depth e =>
      obtain ⟨hr₁, he₁, hv⟩ := hr.stored e.plain rfl
      exact ⟨hr₁, hv, .of_evolves he₁ hr.sound, .refl _⟩
  | @load depth name text before after t hreads hread =>
      obtain ⟨_, -, hdata⟩ := readSource_ok hread
      have hplain := readData_plain hdata
      have hbefore : ∀ t' ∈ before, t'.Plain := fun t' ht' => hplain t' (List.mem_append_left _ ht')
      have ht : t.Plain := hplain t (List.mem_append_right _ List.mem_cons_self)
      have hafter : ∀ t' ∈ after, t'.Plain := fun t' ht' =>
        hplain t' (List.mem_append_right _ (List.mem_cons_of_mem _ ht'))
      have hr₀ := (execAll_advances n hbefore hr).rooted
      obtain ⟨hr₁, he₁, hv⟩ := hr₀.started ht
      refine ⟨hr₁, hv, (execAll_prolongs hr n hbefore).trans (.of_evolves he₁ hr₀.sound), ?_⟩
      have hrest := execAll_prolongs (execTree_advances hr₀ n ht).1.rooted n hafter
      have hstep : (j.step (.load n name text)).machine =
          (((j.execAll n before).2.2.execTree n t).2.execAll n after).2.2.machine := by
        rw [step, load_machine n hreads hread, execAll_append]
        rfl
      rw [hstep]
      exact (exec_prolongs hr₀ ht n).trans hrest

/-- **A step prolongs the root environment.** -/
theorem step_prolongs (hr : j.machine.Rooted) (s : Step) :
    j.machine.Prolongs (j.step s).machine := by
  cases s with
  | exec depth e => exact execTree_prolongs hr e.plain depth
  | eval depth e =>
      obtain ⟨hr₁, hv, hbefore, hafter⟩ := (Starts.eval depth e).prolongs hr
      exact hbefore.trans ((hr₁.eval_prolongs depth hv).trans hafter)
  | load depth name text =>
      rcases load_cases j depth name text with ⟨-, hsame⟩ | ⟨ts, -, hread, -, hload⟩
      · rw [step, hsame]
        exact .refl _
      · obtain ⟨_, -, hdata⟩ := readSource_ok hread
        rw [step, hload]
        exact execAll_prolongs hr depth (readData_plain hdata)
  | release => exact .of_releaseAll hr

/-! ## New bindings -/

/-- A turn ends with the environment that its evaluation ends with, and starts with the old one. -/
theorem execTree_env (hr : j.machine.Rooted) {t : Tree} (ht : t.Plain) (depth : Nat) :
    (j.machine.started t).env = j.machine.env ∧ (j.execTree depth t).2.machine.env =
      ((j.machine.started t).eval depth (Heap.store t j.heap).1).2.env := by
  obtain ⟨hr₁, he₁, hv⟩ := hr.started ht
  refine ⟨he₁.env_eq hr.sound rfl, ?_⟩
  rw [execTree_machine]
  exact (hr₁.eval depth hv).1.releaseAll_env

/-- What the turns of a source put into the root environment, one of them puts there. -/
theorem execAll_introduces (hr : j.machine.Rooted) (depth : Nat) {ts : List Tree}
    (hts : ∀ t ∈ ts, t.Plain) {b : BindingId} (hout : b ∉ j.machine.env)
    (hin : b ∈ (j.execAll depth ts).2.2.machine.env) :
    ∃ before t after, ts = before ++ t :: after ∧
      b ∉ ((j.execAll depth before).2.2.machine.started t).env ∧
      b ∈ (((j.execAll depth before).2.2.machine.started t).eval depth
        (Heap.store t (j.execAll depth before).2.2.heap).1).2.env := by
  induction ts generalizing j with
  | nil => exact absurd hin hout
  | cons t ts ih =>
      have ht := hts t List.mem_cons_self
      obtain ⟨hstart, hend⟩ := execTree_env hr ht depth
      by_cases hmem : b ∈ (j.execTree depth t).2.machine.env
      · refine ⟨[], t, ts, rfl, ?_, ?_⟩
        · show b ∉ (j.machine.started t).env
          rwa [hstart]
        · rw [hend] at hmem
          exact hmem
      · obtain ⟨before, t', after, rfl, hout', hin'⟩ := ih (execTree_advances hr depth ht).1.rooted
          (fun t' ht' => hts t' (List.mem_cons_of_mem _ ht')) hmem hin
        exact ⟨t :: before, t', after, rfl, hout', hin'⟩

/-- **What a step puts into the root environment**, one of the evaluations it starts puts there. -/
theorem step_introduces (hr : j.machine.Rooted) {s : Step} {b : BindingId}
    (hout : b ∉ j.machine.env) (hin : b ∈ (j.step s).machine.env) :
    ∃ n v m, j.Starts s n v m ∧ b ∉ m.env ∧ b ∈ (m.eval n v).2.env := by
  cases s with
  | exec depth e =>
      obtain ⟨hstart, hend⟩ := execTree_env hr e.plain depth
      have hin' : b ∈ (j.execTree depth e.tree).2.machine.env := hin
      rw [hend] at hin'
      exact ⟨depth, _, _, .exec depth e, by rwa [hstart], hin'⟩
  | eval depth e =>
      obtain ⟨-, he₁, -⟩ := hr.stored e.plain rfl
      refine ⟨depth, _, _, .eval depth e, ?_, hin⟩
      rw [show (j.onHeap (Heap.store e.tree)).2.machine.env = j.machine.env from
        he₁.env_eq hr.sound rfl]
      exact hout
  | load depth name text =>
      have hin' : b ∈ (j.load depth name text).2.machine.env := hin
      rcases load_cases j depth name text with ⟨-, hsame⟩ | ⟨ts, hreads, hread, -, hload⟩
      · rw [hsame] at hin'
        exact absurd hin' hout
      · obtain ⟨_, -, hdata⟩ := readSource_ok hread
        rw [hload] at hin'
        obtain ⟨before, t, after, rfl, hout', hin''⟩ :=
          execAll_introduces hr depth (readData_plain hdata) hout hin'
        exact ⟨depth, _, _, .load hreads hread, hout', hin''⟩
  | release =>
      have hin' : b ∈ j.machine.releaseAll.2.env := hin
      rw [hr.releaseAll_env] at hin'
      exact absurd hin' hout

/-! ## Adding primitives -/

/-- What is to be known of an interpreter to which primitives have been added. -/
structure Enriches (i j : Interpreter) (ps : List (String × Builtin)) : Prop where
  rooted : j.machine.Rooted
  prolongs : i.machine.Prolongs j.machine
  builtins : j.builtins = i.builtins
  added : ∀ b ∈ j.machine.env, b ∉ i.machine.env → ∃ p ∈ ps, j.heap.Named b p.1
  shaped : (∀ p ∈ ps, p.1 ≠ truthName) → i.machine.Shaped → j.machine.Shaped

theorem Enriches.refl {i : Interpreter} (hr : i.machine.Rooted) (ps : List (String × Builtin)) :
    i.Enriches i ps :=
  ⟨hr, .refl _, rfl, fun _ hin hout => absurd hin hout, fun _ hsh => hsh⟩

theorem Enriches.trans {i j k : Interpreter} {ps qs : List (String × Builtin)}
    (h : i.Enriches j ps) (h' : j.Enriches k qs) : i.Enriches k (ps ++ qs) := by
  refine ⟨h'.rooted, h.prolongs.trans h'.prolongs, h'.builtins.trans h.builtins, ?_, ?_⟩
  · intro b hin hout
    by_cases hmem : b ∈ j.machine.env
    · obtain ⟨p, hp, hnamed⟩ := h.added b hmem hout
      exact ⟨p, List.mem_append_left _ hp, h'.prolongs.named hmem hnamed⟩
    · obtain ⟨p, hp, hnamed⟩ := h'.added b hin hmem
      exact ⟨p, List.mem_append_right _ hp, hnamed⟩
  · intro hall hsh
    refine h'.shaped (fun p hp => hall p (List.mem_append_right _ hp)) ?_
    exact h.shaped (fun p hp => hall p (List.mem_append_left _ hp)) hsh

/-- A primitive whose name is not bound gets a binding of its own, in front of the others. -/
theorem withPrimitive_enriches {i : Interpreter} (hr : i.machine.Rooted) {name : String}
    (builtin : Builtin) (hfree : i.heap.lookup? i.root name = none) :
    i.Enriches (i.withPrimitive name builtin) [(name, builtin)] := by
  have hatom := Heap.extends_new i.machine.heap (.atom name)
  have hvalue := Heap.extends_new (i.machine.heap.new (.atom name)).2
    (.primitive ⟨i.serial, name, builtin⟩)
  have hr' := withPrimitive_rooted hr name builtin
  have he := (withPrimitive_evolves hr.sound name builtin).2
  have henv : (i.withPrimitive name builtin).machine.env =
      ⟨i.machine.heap.bindings.size⟩ :: i.machine.env :=
    (Heap.linked_put _ _ ((hatom.trans hvalue).linked hr.sound.linked)).chain_eq
  have hcell := (hvalue.cell ⟨i.machine.heap.cells.size⟩ (Heap.made_new.mpr rfl).1).trans
    (Heap.cell_new i.machine.heap (.atom name))
  have hnamed : (i.withPrimitive name builtin).heap.Named ⟨i.machine.heap.bindings.size⟩ name :=
    Heap.named_put hcell _ _
  have hfresh : ∀ b ∈ i.machine.env, i.machine.heap.boundName? b ≠ some name := by
    intro b hb heq
    rw [Heap.lookup?, Option.map_eq_none_iff, Heap.findBinding?_eq, List.find?_eq_none] at hfree
    exact hfree b hb (beq_iff_eq.mpr heq)
  refine ⟨hr', .of_evolves he hr.sound, rfl, fun b hin hout => ?_, fun hall hsh => ?_⟩
  · rw [henv] at hin
    obtain rfl := (List.mem_cons.mp hin).resolve_right hout
    exact ⟨_, List.mem_cons_self, hnamed⟩
  · exact hsh.define hr.sound he henv hnamed (hall _ List.mem_cons_self) hfresh

theorem bindPrimitives_enriches (ps : List (String × Builtin)) {i : Interpreter}
    (hr : i.machine.Rooted) : i.Enriches (bindPrimitives ps i).2 ps := by
  induction ps generalizing i with
  | nil => exact .refl hr []
  | cons p ps ih =>
      obtain ⟨name, builtin⟩ := p
      rw [bindPrimitives_cons]
      split
      · exact .refl hr _
      · rename_i hfree
        have hone := withPrimitive_enriches hr builtin (Option.not_isSome_iff_eq_none.mp hfree)
        exact hone.trans (ih hone.rooted)

/-! ## Sessions with primitives -/

end Interpreter

/-- What can be done with an interpreter, between the steps included. -/
inductive Deed where
  | step (s : Step)
  | add (primitives : List (String × Builtin))

/-- Whether no primitive has the name of the constant. -/
def Deed.Allowed : Deed → Prop
  | .step _ => True
  | .add primitives => ∀ p ∈ primitives, p.1 ≠ truthName

namespace Interpreter

variable {i j : Interpreter}

def act (i : Interpreter) : Deed → Interpreter
  | .step s => i.step s
  | .add primitives => (i.addPrimitives primitives).2

/-- Does one thing after the other. -/
def acts (i : Interpreter) (deeds : List Deed) : Interpreter := deeds.foldl act i

theorem acts_append (i : Interpreter) (deeds more : List Deed) :
    i.acts (deeds ++ more) = (i.acts deeds).acts more :=
  List.foldl_append

theorem step_builtins (i : Interpreter) (s : Step) : (i.step s).builtins = i.builtins := by
  have hturn : ∀ (i : Interpreter) depth t, (i.execTree depth t).2.builtins = i.builtins :=
    fun i depth t => by rw [execTree_eq]
  cases s with
  | exec depth e => exact hturn i depth e.tree
  | eval depth e => rfl
  | load depth name text =>
      show (i.load depth name text).2.builtins = _
      rcases load_cases i depth name text with ⟨-, hsame⟩ | ⟨ts, -, -, -, hload⟩
      · rw [hsame]
      · rw [hload]
        clear hload
        induction ts generalizing i with
        | nil => rfl
        | cons t ts ih => exact (ih _).trans (hturn i depth t)
  | release => rfl

/-- What is kept whatever is done. -/
structure Stands (i : Interpreter) : Prop where
  rooted : i.machine.Rooted
  shaped : i.machine.Shaped
  builtins : ∀ p ∈ i.builtins, p.1 ≠ truthName

theorem addPrimitives_enriches (hr : i.machine.Rooted) (ps : List (String × Builtin)) :
    i.Enriches (i.addPrimitives ps).2 (if ps.isEmpty then i.builtins else ps) :=
  bindPrimitives_enriches _ hr

theorem Stands.act (hi : i.Stands) {d : Deed} (hd : d.Allowed) : (i.act d).Stands := by
  cases d with
  | step s =>
      have hshaped := step_persistent shaped_persistent hi.rooted s hi.shaped
      refine ⟨(step_advances hi.rooted s).rooted, hshaped, ?_⟩
      rw [show (i.act (.step s)).builtins = i.builtins from step_builtins i s]
      exact hi.builtins
  | add ps =>
      have hadd := addPrimitives_enriches hi.rooted ps
      refine ⟨hadd.rooted, hadd.shaped ?_ hi.shaped, ?_⟩
      · split
        · exact hi.builtins
        · exact hd
      · rw [show (i.act (.add ps)).builtins = i.builtins from hadd.builtins]
        exact hi.builtins

theorem Stands.acts (hi : i.Stands) {deeds : List Deed} (hdeeds : ∀ d ∈ deeds, d.Allowed) :
    (i.acts deeds).Stands := by
  induction deeds generalizing i with
  | nil => exact hi
  | cons d deeds ih =>
      refine ih (hi.act (hdeeds d List.mem_cons_self)) fun d' hd' => ?_
      exact hdeeds d' (List.mem_cons_of_mem _ hd')

/-- **Whatever is done prolongs the root environment.** -/
theorem act_prolongs (hr : i.machine.Rooted) (d : Deed) :
    (i.act d).machine.Rooted ∧ i.machine.Prolongs (i.act d).machine := by
  cases d with
  | step s => exact ⟨(step_advances hr s).rooted, step_prolongs hr s⟩
  | add ps => exact ⟨(addPrimitives_enriches hr ps).rooted, (addPrimitives_enriches hr ps).prolongs⟩

theorem acts_prolongs (hr : i.machine.Rooted) (deeds : List Deed) :
    i.machine.Prolongs (i.acts deeds).machine := by
  induction deeds generalizing i with
  | nil => exact .refl _
  | cons d deeds ih =>
      obtain ⟨hr', hone⟩ := act_prolongs hr d
      exact hone.trans (ih hr')

theorem new_stands {extra : List (String × Builtin)} {print reads : Bool} {i : Interpreter}
    (hi : new extra print reads = .ok i) (hextra : ∀ p ∈ extra, p.1 ≠ truthName) : i.Stands := by
  obtain ⟨bare, hmachine, -, hbuiltins, -, hbinds⟩ := new_binds hi
  have hstandard : ∀ p ∈ Builtin.standard, p.1 ≠ truthName := by decide
  have hnames : ∀ p ∈ bare.builtins, p.1 ≠ truthName := by
    rw [hbuiltins]
    intro p hp
    rcases List.mem_append.mp hp with hp | hp
    · exact hstandard p hp
    · exact hextra p hp
  have hadd := bindPrimitives_enriches bare.builtins (i := bare) (hmachine ▸ rooted_empty)
  rw [hbinds] at hadd
  refine ⟨hadd.rooted, hadd.shaped hnames (hmachine ▸ shaped_empty), ?_⟩
  rw [hadd.builtins]
  exact hnames

/-! ## The shape of the root environment -/

/-- Where a new binding of the root environment comes from. -/
inductive Adds (j : Interpreter) (b : BindingId) : Deed → Prop
  /-- A primitive that is added has its name. -/
  | primitive {ps : List (String × Builtin)} {p : String × Builtin}
      (hp : p ∈ if ps.isEmpty then j.builtins else ps)
      (hnamed : (j.addPrimitives ps).2.heap.Named b p.1) : Adds j b (.add ps)
  /-- A `set` puts it there whose own environment is the root environment. -/
  | set {s : Step} {n k : Nat} {v w : Ref} {m t : Machine} (hstarts : j.Starts s n v m)
      (hhome : AtHome n v m (k + 1) w t) (f : Assignment k w t)
      (hbefore : j.machine.env <:+ f.evaluated.env) (hputs : f.after.env = b :: f.evaluated.env)
      (hafter : f.after.env <:+ (j.step s).machine.env) : Adds j b (.step s)

theorem act_adds (hr : j.machine.Rooted) {d : Deed} {b : BindingId} (hout : b ∉ j.machine.env)
    (hin : b ∈ (j.act d).machine.env) : j.Adds b d := by
  cases d with
  | step s =>
      obtain ⟨n, v, m, hstarts, hout', hin'⟩ := step_introduces hr hout hin
      obtain ⟨hr', hv, hbefore, hafter⟩ := hstarts.prolongs hr
      rw [Machine.eval_snd] at hin' hafter
      obtain ⟨k, w, t, hhome, f, hbefore', hputs, hafter'⟩ := eval_origin n hr'.sound hv hout' hin'
      exact .set hstarts hhome f (hbefore.env.trans hbefore') hputs (hafter'.trans hafter.env)
  | add ps =>
      obtain ⟨p, hp, hnamed⟩ := (addPrimitives_enriches hr ps).added b hin hout
      exact .primitive hp hnamed

/-- What a `set` in the body of a closure binds is never in the root environment. -/
theorem Starts.body_outside (hr : j.machine.Rooted) {s : Step} {n l : Nat} {v u : Ref}
    {m t : Machine} (hstarts : j.Starts s n v m) (hbody : InBody n v m (l + 1) u t)
    (f : Assignment l u t) {b : BindingId} (hin : b ∈ f.after.env) (hout : b ∉ f.evaluated.env)
    (more : List Deed) : b ∉ ((j.step s).acts more).machine.env := by
  obtain ⟨hr', hv, -, hafter⟩ := hstarts.prolongs hr
  obtain ⟨hhas, hout'⟩ := hbody.outside hr'.sound hv f hin hout
  have hlater := acts_prolongs (step_advances hr s).rooted more
  exact (hafter.trans hlater).retains.outside b hhas hout'

/--
**The root environment keeps its shape.** Steps are taken and primitives added in any order, none of
these with the name of the constant. Then the names of the root environment are atoms, all different
and never the constant's, and no binding hides another. Whatever is done next leaves the bindings
where they are, with their links and names, and puts new ones in front of them only by adding
primitives, or by a `set` that is evaluated in the root environment. No `set` that is evaluated in
the body of a closure binds anything there, not even later on.
-/
theorem root_environment_keeps_its_shape {extra : List (String × Builtin)} {print reads : Bool}
    {i : Interpreter} (hi : new extra print reads = .ok i) (hextra : ∀ p ∈ extra, p.1 ≠ truthName)
    {deeds : List Deed} (hdeeds : ∀ d ∈ deeds, d.Allowed) :
    (i.acts deeds).machine.RootShape ∧
    (∀ more, (i.acts deeds).machine.Prolongs (i.acts (deeds ++ more)).machine) ∧
    (∀ d b, b ∈ (i.acts (deeds ++ [d])).machine.env → b ∉ (i.acts deeds).machine.env →
      (i.acts deeds).Adds b d) ∧
    ∀ s n v m, (i.acts deeds).Starts s n v m → ∀ l u t, InBody n v m (l + 1) u t →
      ∀ (f : Assignment l u t) (b : BindingId), b ∈ f.after.env → b ∉ f.evaluated.env →
      ∀ more, b ∉ (i.acts (deeds ++ .step s :: more)).machine.env := by
  have hstands := (new_stands hi hextra).acts hdeeds
  refine ⟨hstands.shaped.rootShape hstands.rooted, fun more => ?_, fun d b hin hout => ?_, ?_⟩
  · rw [acts_append]
    exact acts_prolongs hstands.rooted more
  · rw [acts_append] at hin
    exact act_adds hstands.rooted hout hin
  · intro s n v m hstarts l u t hbody f b hin hout more
    rw [acts_append]
    exact hstarts.body_outside hstands.rooted hbody f hin hout more

/-- A function that binds a name is bound, a primitive is added, and the function is called. -/
theorem root_environment_keeps_its_shape_called : ∃ i e₁ e₂,
    new [("list-args", .arguments)] true true = .ok i ∧
    e₁.tree = .ofList [.atom "set", .quote (.atom "f"), .ofList [.atom "lambda",
      .ofList [.atom "y"], .ofList [.atom "set", .quote (.atom "z"), .atom "y"]]] ∧
    e₂.tree = .ofList [.atom "f", .number (.int 1)] ∧
    (i.acts [.step (.exec 9 e₁), .add [("rest", .cdr)]]).machine.RootShape ∧
    (i.acts [.step (.exec 9 e₁), .add [("rest", .cdr)]]).machine.Prolongs
      (i.acts [.step (.exec 9 e₁), .add [("rest", .cdr)], .step (.exec 9 e₂)]).machine := by
  obtain ⟨i, hi⟩ := new_arguments
  have h₁ : readOne "(set 'f (lambda (y) (set 'z y)))".toUTF8.toList = .ok (.ofList [.atom "set",
      .quote (.atom "f"), .ofList [.atom "lambda", .ofList [.atom "y"],
        .ofList [.atom "set", .quote (.atom "z"), .atom "y"]]]) := by decide +kernel
  have h₂ : readOne "(f 1)".toUTF8.toList = .ok (.ofList [.atom "f", .number (.int 1)]) := by
    decide +kernel
  have hextra : ∀ p ∈ [("list-args", Builtin.arguments)], p.1 ≠ truthName := by decide
  have hrest : ∀ p ∈ [("rest", Builtin.cdr)], p.1 ≠ truthName := by decide
  have hdeeds : ∀ d ∈ [.step (.exec 9 (.ofText _ h₁)), .add [("rest", .cdr)]], Deed.Allowed d := by
    intro d hd
    rcases List.mem_pair.mp hd with rfl | rfl
    · trivial
    · exact hrest
  obtain ⟨hshape, hprolongs, -⟩ := root_environment_keeps_its_shape hi hextra hdeeds
  exact ⟨i, .ofText _ h₁, .ofText _ h₂, hi, rfl, rfl, hshape,
    hprolongs [.step (.exec 9 (.ofText _ h₂))]⟩

end Interpreter

end ArenaLisp
