import ArenaLisp.Interpreter
import ArenaLisp.Proofs.Splicing

/-!
# Frames and splices of environments

An environment has an identity, so it matters which one is changed. A frame makes a new environment
and leaves its base as it was. A splice changes the environment in front, or makes a new one where
there is none or it is empty, and leaves the one behind as it was. What is put into the answer
later, once or many times, changes neither the base nor the one behind.

The base and the one behind may come back to themselves; of the one in front it is asked that it
ends and that it shares no binding with the other.
-/

namespace ArenaLisp

namespace Interpreter

open Heap

/-- Whether an environment was made, if it is one, and all its bindings are there. -/
structure HasEnvironment (i : Interpreter) (e : Option EnvName) : Prop where
  made : ∀ index, e = some (.made index) → index < i.environments.size
  chain : i.heap.HasChain (i.front e)

/-- Puts bindings into an environment, one after the other. -/
def puts (e : EnvName) (pairs : List (Ref × Ref)) (i : Interpreter) : Interpreter :=
  pairs.foldl (fun i p => i.put e p.1 p.2) i

/-- Whether an environment contains what it contained: the same bindings at the same places. -/
structure Untouched (i j : Interpreter) (e : Option EnvName) : Prop where
  cells : j.heap.cells = i.heap.cells
  place : ∀ n, j.heap.bindingAt? (j.front e) n = i.heap.bindingAt? (i.front e) n
  binding : ∀ b, i.heap.InChain (i.front e) b → j.heap.binding b = i.heap.binding b
  lookup : ∀ x, j.heap.lookup? (j.front e) x = i.heap.lookup? (i.front e) x

/-- Whether an environment is another one than all that were made. -/
def IsNew (i : Interpreter) (e : EnvName) : Prop := ∀ e', i.HasEnvironment e' → e' ≠ some e

/-- Whether an environment is a frame of the given names and values in front of a base. -/
structure Framed (i j : Interpreter) (pairs : List (Ref × Ref)) (base : Option EnvName)
    (e : EnvName) : Prop where
  isNew : i.IsNew e
  has : j.HasEnvironment (some e)
  frame : ∃ fs : List BindingId, fs.map j.heap.bound = pairs ∧ fs.Nodup ∧
    (∀ b ∈ fs, ¬i.heap.Has (.binding b)) ∧
    ∀ n, j.heap.bindingAt? (j.front (some e)) n =
      fs[n]?.or (i.heap.bindingAt? (i.front base) (n - fs.length))
  base : ∀ pairs, i.Untouched (j.puts e pairs) base

/-- Whether an environment has the bindings of one and then those of another. -/
structure Spliced (i j : Interpreter) (front : Option EnvName) (fs : List BindingId)
    (back : Option EnvName) (e : EnvName) : Prop where
  isNew : fs = [] → i.IsNew e
  isFront : fs ≠ [] → front = some e
  has : j.HasEnvironment (some e)
  bound : fs.map j.heap.bound = fs.map i.heap.bound
  place : ∀ n, j.heap.bindingAt? (j.front (some e)) n =
    fs[n]?.or (i.heap.bindingAt? (i.front back) (n - fs.length))
  lookup : ∀ x, j.heap.lookup? (j.front (some e)) x =
    (i.heap.lookup? (i.front front) x).or (i.heap.lookup? (i.front back) x)
  back : ∀ pairs, i.Untouched (j.puts e pairs) back

section

variable {i j k : Interpreter} {e : EnvName} {e' : Option EnvName}

/-! ## Putting -/

/-- Whether an environment is kept while other things are done. -/
structure Keeps (i j : Interpreter) (e : Option EnvName) : Prop where
  made : i.environments.size ≤ j.environments.size
  front : j.front e = i.front e
  chain : i.heap.KeepsChain j.heap (i.front e)

theorem Keeps.trans (hij : i.Keeps j e') (hjk : j.Keeps k e') : i.Keeps k e' where
  made := Nat.le_trans hij.made hjk.made
  front := hjk.front.trans hij.front
  chain := hij.chain.trans (hij.front ▸ hjk.chain)

theorem Keeps.hasEnvironment (hk : i.Keeps j e') (he : i.HasEnvironment e') :
    j.HasEnvironment e' where
  made index hindex := Nat.lt_of_lt_of_le (he.made index hindex) hk.made
  chain := by
    rw [hk.front]
    exact hk.chain.hasChain he.chain

theorem Keeps.untouched (hk : i.Keeps j e') (he : i.HasEnvironment e') : i.Untouched j e' where
  cells := hk.chain.cells
  place n := by rw [hk.front, hk.chain.bindingAt?_eq]
  binding := hk.chain.binding
  lookup x := by rw [hk.front, hk.chain.lookup?_eq he.chain]

theorem put_heap (i : Interpreter) (e : EnvName) (name value : Ref) :
    (i.put e name value).heap = (i.heap.put name value (i.front (some e))).2 := by
  cases e <;> rfl

theorem put_environments_size (i : Interpreter) (e : EnvName) (name value : Ref) :
    (i.put e name value).environments.size = i.environments.size := by
  cases e with
  | root => rfl
  | made index => exact Array.size_modify

theorem put_front (hne : e' ≠ some e) (name value : Ref) :
    (i.put e name value).front e' = i.front e' := by
  cases e' with
  | none => rfl
  | some e' =>
      have hne' : e' ≠ e := fun heq => hne (congrArg some heq)
      cases e with
      | root =>
          cases e' with
          | root => exact absurd rfl hne'
          | made index' => rfl
      | made index =>
          cases e' with
          | root => rfl
          | made index' =>
              have hindex : index ≠ index' := fun heq => hne' (heq ▸ rfl)
              show ((i.environments.modify index _)[index']?).getD none = _
              rw [Array.getElem?_modify, if_neg hindex]
              rfl

/-- Putting a binding into one environment changes no other one. -/
theorem put_keeps (he : i.HasEnvironment e') (hne : e' ≠ some e) (name value : Ref) :
    i.Keeps (i.put e name value) e' where
  made := Nat.le_of_eq (put_environments_size i e name value).symm
  front := put_front hne name value
  chain := by
    have hgrown := extends_put i.heap name value (i.front (some e))
    rw [put_heap]
    exact ⟨rfl, hgrown.bindings_le, fun b hb => hgrown.binding b (he.chain b hb)⟩

/-- Nor does putting any number of them. -/
theorem puts_keeps (he : i.HasEnvironment e') (hne : e' ≠ some e) (pairs : List (Ref × Ref)) :
    i.Keeps (i.puts e pairs) e' := by
  induction pairs generalizing i with
  | nil => exact ⟨Nat.le_refl _, rfl, .refl _ _⟩
  | cons p pairs ih =>
      have hput := put_keeps he hne p.1 p.2
      exact hput.trans (ih (hput.hasEnvironment he))

/-! ## Making -/

theorem onHeap_eq {α : Type} (f : Heap → α × Heap) (i : Interpreter) :
    i.onHeap f = ((f i.heap).1, { i with machine := { i.machine with heap := (f i.heap).2 } }) :=
  rfl

theorem isNew_made (i : Interpreter) : i.IsNew (.made i.environments.size) := by
  intro e he heq
  exact Nat.lt_irrefl _ (he.made _ heq)

/-- An interpreter with another heap and one more environment. -/
def enlarged (i : Interpreter) (h : Heap) (c : Chain) : Interpreter :=
  { i with machine := { i.machine with heap := h }, environments := i.environments.push c }

theorem enlarged_keeps (he : i.HasEnvironment e') {h : Heap}
    (hk : i.heap.KeepsChain h (i.front e')) (c : Chain) : i.Keeps (i.enlarged h c) e' where
  made := by simp [enlarged]
  front := by
    cases e' with
    | none => rfl
    | some e' =>
        cases e' with
        | root => rfl
        | made index =>
            have hlt := he.made index rfl
            show ((i.environments.push c)[index]?).getD none = _
            rw [Array.getElem?_push_lt hlt, ← Array.getElem?_eq_getElem hlt]
            rfl
  chain := hk

theorem front_enlarged (i : Interpreter) (h : Heap) (c : Chain) :
    (i.enlarged h c).front (some (.made i.environments.size)) = c := by
  show ((i.environments.push c)[i.environments.size]?).getD none = c
  rw [Array.getElem?_push_size]
  rfl

theorem hasEnvironment_enlarged {h : Heap} {c : Chain} (hc : h.HasChain c) :
    (i.enlarged h c).HasEnvironment (some (.made i.environments.size)) where
  made index heq := by
    cases heq
    simp [enlarged]
  chain := by
    rw [front_enlarged]
    exact hc

theorem bindFrame_of_error {names values : Ref} {base : Option EnvName} {cause : Cause}
    (hb : i.heap.bindFrame names values (i.front base) = (.error cause, i.heap)) :
    i.bindFrame names values base = (.error (.evaluation ⟨"", cause⟩), i) := by
  rw [bindFrame]
  simp only [onHeap_eq, hb]
  rfl

theorem bindFrame_of_ok {names values : Ref} {base : Option EnvName} {c : Chain} {h : Heap}
    (hb : i.heap.bindFrame names values (i.front base) = (.ok c, h)) :
    i.bindFrame names values base = (.ok (.made i.environments.size), i.enlarged h c) := by
  rw [bindFrame]
  simp only [onHeap_eq, hb]
  rfl

/-- A frame is put in front of a base, and the base is as it was. -/
theorem framed_of_lists {names values : Ref} {ns vs : List Ref} {base : Option EnvName}
    (hbase : i.HasEnvironment base) (hns : i.heap.Lists names ns) (hvs : i.heap.Lists values vs)
    (hlength : ns.length = vs.length) :
    ∃ e j, i.bindFrame names values base = (.ok e, j) ∧ i.Framed j (ns.zip vs) base e := by
  have hframe := bindFrame_of_lists hns hvs (i.front base)
  rw [if_pos hlength] at hframe
  obtain ⟨fs, hfs⟩ := putAll_fronts (ns.zip vs) i.heap (i.front base)
  have hchain := hfs.keepsChain hbase.chain
  have hkept := enlarged_keeps hbase hchain (i.heap.putAll (ns.zip vs) (i.front base)).1
  refine ⟨_, _, bindFrame_of_ok hframe, isNew_made i, ?_, ⟨fs, hfs.bound, hfs.nodup, hfs.fresh, ?_⟩,
    ?_⟩
  · exact hasEnvironment_enlarged (hfs.stretch.hasChain (hchain.hasChain hbase.chain))
  · intro n
    rw [front_enlarged, ← hchain.bindingAt?_eq]
    exact hfs.stretch.bindingAt?_eq n
  · intro pairs
    have hputs := puts_keeps (hkept.hasEnvironment hbase) (isNew_made i base hbase) pairs
    exact (hkept.trans hputs).untouched hbase

theorem join_of_empty {front : Option EnvName} (hfront : i.front front = none)
    (back : Option EnvName) :
    i.join front back = (.made i.environments.size, i.enlarged i.heap (i.front back)) := by
  unfold join
  simp only [hfront]
  rfl

theorem join_of_filled {b : BindingId} (hfront : i.front (some e) = some b)
    (back : Option EnvName) : i.join (some e) back = (e, { i with
      machine := { i.machine with heap := (i.heap.join (some b) (i.front back)).2 } }) := by
  unfold join
  simp only [hfront]
  rfl

section

variable {front back : Option EnvName} {fs : List BindingId}

/-- Where the heap is spliced and the other environment is kept, the answer is spliced. -/
theorem spliced_of_join (hfront : i.heap.Linked (i.front front) fs) (hback : i.HasEnvironment back)
    (hdisj : ∀ b ∈ fs, ¬i.heap.InChain (i.front back) b)
    (hisNew : fs = [] → i.IsNew e) (hisFront : fs ≠ [] → front = some e)
    (hmade : ∀ index, some e = some (.made index) → index < j.environments.size)
    (hheap : j.heap = (i.heap.join (i.front front) (i.front back)).2)
    (hchain : j.front (some e) = (i.heap.join (i.front front) (i.front back)).1)
    (hkept : i.Keeps j back) (hne : back ≠ some e) : i.Spliced j front fs back e := by
  have hstretch := join_stretch hfront (i.front back)
  have hkeeps := join_keepsChain hfront hdisj
  refine ⟨hisNew, hisFront, ⟨hmade, ?_⟩, ?_, ?_, ?_, ?_⟩
  · rw [hheap, hchain]
    exact hstretch.hasChain (hkeeps.hasChain hback.chain)
  · refine List.map_congr_left fun b hb => ?_
    rw [hheap, join_bound _ _ (hfront.has hb)]
  · intro n
    rw [hheap, hchain, hstretch.bindingAt?_eq, hkeeps.bindingAt?_eq]
  · intro x
    rw [hheap, hchain, join_lookup? hfront hback.chain hdisj]
  · intro pairs
    have hputs := puts_keeps (hkept.hasEnvironment hback) hne pairs
    exact (hkept.trans hputs).untouched hback

/-- **One environment is spliced onto another**, which is as it was. -/
theorem join_spliced (hfront : i.heap.Linked (i.front front) fs) (hback : i.HasEnvironment back)
    (hdisj : ∀ b ∈ fs, ¬i.heap.InChain (i.front back) b) :
    i.Spliced (i.join front back).2 front fs back (i.join front back).1 := by
  cases fs with
  | nil =>
      -- no environment or an empty one: the answer is a new environment with the other's front
      have hnone : i.front front = none := hfront
      have hkept := enlarged_keeps hback (.refl i.heap _) (i.front back)
      rw [join_of_empty hnone]
      refine spliced_of_join hfront hback hdisj (fun _ => isNew_made i) (absurd rfl)
        (hasEnvironment_enlarged hback.chain).made ?_ ?_ hkept (isNew_made i back hback)
      · rw [hnone, join_none]
        rfl
      · rw [hnone, join_none]
        exact front_enlarged i i.heap (i.front back)
  | cons b fs =>
      have hsome : i.front front = some b := hfront.1
      cases front with
      | none => cases hsome
      | some e =>
          -- an environment is not spliced onto itself: it would share its first binding
          have hapart : back ≠ some e := by
            rintro rfl
            exact hdisj b List.mem_cons_self (hsome ▸ .front)
          have hmade : ∀ index, some e = some (.made index) → index < i.environments.size := by
            rintro index ⟨⟩
            by_contra hout
            rw [front, Array.getElem?_eq_none (Nat.le_of_not_lt hout)] at hsome
            cases hsome
          have hkept : i.heap.KeepsChain (i.heap.join (i.front (some e)) (i.front back)).2
              (i.front back) := join_keepsChain hfront hdisj
          rw [join_of_filled hsome, ← hsome]
          refine spliced_of_join hfront hback hdisj nofun (fun _ => rfl) hmade rfl ?_
            ⟨Nat.le_refl _, ?_, hkept⟩ hapart
          · rw [join_fst hfront (List.cons_ne_nil b fs)]
            cases e <;> rfl
          · rcases back with _ | _ | _ <;> rfl

end

theorem bindFrame_ok_iff {names values : Ref} {base : Option EnvName} :
    (∃ e j, i.bindFrame names values base = (.ok e, j)) ↔
      ∃ ns vs, i.heap.Lists names ns ∧ i.heap.Lists values vs ∧ ns.length = vs.length := by
  constructor
  · rintro ⟨e, j, hok⟩
    by_contra hnot
    obtain ⟨cause, hcause⟩ : ∃ cause,
        i.heap.bindFrame names values (i.front base) = (.error cause, i.heap) := by
      by_cases hnames : ∃ ns, i.heap.Lists names ns
      · obtain ⟨ns, hns⟩ := hnames
        by_cases hvalues : ∃ vs, i.heap.Lists values vs
        · obtain ⟨vs, hvs⟩ := hvalues
          have hne : ns.length ≠ vs.length := fun heq => hnot ⟨ns, vs, hns, hvs, heq⟩
          exact ⟨_, (bindFrame_of_lists hns hvs _).trans (if_neg hne)⟩
        · exact ⟨_, bindFrame_of_values hns hvalues _⟩
      · exact ⟨_, bindFrame_of_names hnames values _⟩
    rw [bindFrame_of_error hcause] at hok
    cases hok
  · rintro ⟨ns, vs, hns, hvs, heq⟩
    exact ⟨_, _, bindFrame_of_ok ((bindFrame_of_lists hns hvs _).trans (if_pos heq))⟩

end

/--
**Frames and splices.** A frame is made of two proper lists of one length, in front of any base.
Otherwise nothing is changed and the first fault is reported: the names are no list, the values are
none, or their numbers differ. A splice onto any environment takes a chain that ends and shares no
binding with it.
-/
theorem frames_and_splices (i : Interpreter) :
    (∀ v vs, i.heap.elements? v = some vs ↔ i.heap.Lists v vs) ∧
    (∀ names values base,
      ((∃ e j, i.bindFrame names values base = (.ok e, j)) ↔
        ∃ ns vs, i.heap.Lists names ns ∧ i.heap.Lists values vs ∧ ns.length = vs.length) ∧
      ((¬∃ ns, i.heap.Lists names ns) → ∃ f, i.bindFrame names values base = (.error f, i) ∧
        f.kind = .type ∧ f.message = "parameters are not a list: " ++ i.heap.render names) ∧
      (∀ ns, i.heap.Lists names ns → (¬∃ vs, i.heap.Lists values vs) →
        ∃ f, i.bindFrame names values base = (.error f, i) ∧
          f.kind = .type ∧ f.message = "arguments are not a list: " ++ i.heap.render values) ∧
      ∀ ns vs, i.heap.Lists names ns → i.heap.Lists values vs →
        (ns.length ≠ vs.length → ∃ f, i.bindFrame names values base = (.error f, i) ∧
          f.kind = .arity ∧ f.message = "expected " ++ Cause.arguments ns.length ++
            " (got " ++ toString vs.length ++ ")") ∧
        (ns.length = vs.length → i.HasEnvironment base →
          ∃ e j, i.bindFrame names values base = (.ok e, j) ∧
            i.Framed j (ns.zip vs) base e)) ∧
    ∀ front back fs, i.heap.Linked (i.front front) fs → i.HasEnvironment back →
      (∀ b ∈ fs, ¬i.heap.InChain (i.front back) b) →
      i.Spliced (i.join front back).2 front fs back (i.join front back).1 := by
  refine ⟨fun _ _ => elements?_eq_some_iff, ?_, fun _ _ _ => join_spliced⟩
  intro names values base
  refine ⟨bindFrame_ok_iff, ?_, ?_, ?_⟩
  · intro hnames
    exact ⟨_, bindFrame_of_error (bindFrame_of_names hnames values _), rfl, rfl⟩
  · intro ns hns hvalues
    exact ⟨_, bindFrame_of_error (bindFrame_of_values hns hvalues _), rfl, rfl⟩
  · intro ns vs hns hvs
    refine ⟨fun hne => ?_, fun heq hbase => framed_of_lists hbase hns hvs heq⟩
    exact ⟨_, bindFrame_of_error ((bindFrame_of_lists hns hvs _).trans (if_neg hne)), rfl, rfl⟩

/--
`(x y)` and `(1 2)` make a frame in front of an environment of one binding that comes back to
itself, and `(x y)` and `2` do not. A binding of `x` is spliced onto the same environment, and so is
no environment at all.
-/
theorem frames_and_splices_onto_cycle : ∃ (i : Interpreter) (names values : Ref),
    i.heap.view names = .ofList [.atom "x", .atom "y"] ∧
    i.heap.view values = .ofList [.number (.int 1), .number (.int 2)] ∧
    (∀ n, i.heap.bindingAt? (i.front (some .root)) n = some ⟨0⟩) ∧
    (∃ e j, i.bindFrame names values (some .root) = (.ok e, j) ∧
      i.Framed j [(some ⟨1⟩, some ⟨3⟩), (some ⟨2⟩, some ⟨4⟩)] (some .root) e) ∧
    (∃ f, i.bindFrame names (some ⟨4⟩) (some .root) = (.error f, i) ∧ f.kind = .type ∧
      f.message = "arguments are not a list: 2") ∧
    i.Spliced (i.join (some (.made 0)) (some .root)).2 (some (.made 0)) [⟨1⟩] (some .root)
      (.made 0) ∧
    i.Spliced (i.join none (some .root)).2 none [] (some .root) (.made 1) := by
  let heap : Heap := ⟨#[
    .live .nil, .live (.atom "x"), .live (.atom "y"), .live (.number (.int 1)),
    .live (.number (.int 2)), .live (.pair (some ⟨2⟩) (some ⟨0⟩)),
    .live (.pair (some ⟨1⟩) (some ⟨5⟩)), .live (.pair (some ⟨4⟩) (some ⟨0⟩)),
    .live (.pair (some ⟨3⟩) (some ⟨7⟩))],
    #[⟨some ⟨2⟩, some ⟨3⟩, some ⟨0⟩, false⟩, ⟨some ⟨1⟩, some ⟨4⟩, none, false⟩]⟩
  let i : Interpreter := ⟨⟨heap, .empty, some ⟨0⟩, #[]⟩, #[some ⟨1⟩], 0, [], false, false⟩
  have hcycle : ∀ n, i.heap.bindingAt? (i.front (some .root)) n = some ⟨0⟩ := by
    intro n
    induction n with
    | zero => rfl
    | succ n ih => exact ih
  have hroot : i.HasEnvironment (some .root) := by
    refine ⟨nofun, ?_⟩
    rintro b ⟨n, hn⟩
    cases (hcycle n).symm.trans hn
    exact Nat.zero_lt_two
  have hns : i.heap.Lists (some ⟨6⟩) [some ⟨1⟩, some ⟨2⟩] := elements?_eq_some_iff.mp (by decide)
  have hvs : i.heap.Lists (some ⟨8⟩) [some ⟨3⟩, some ⟨4⟩] := elements?_eq_some_iff.mp (by decide)
  have hnot : ¬∃ vs, i.heap.Lists (some ⟨4⟩) vs := elements?_eq_none_iff.mp (by decide)
  have hapart : ∀ b ∈ [(⟨1⟩ : BindingId)], ¬i.heap.InChain (i.front (some .root)) b := by
    rintro b hb ⟨n, hn⟩
    cases (hcycle n).symm.trans hn
    simp at hb
  obtain ⟨-, hframes, hsplices⟩ := frames_and_splices i
  refine ⟨i, some ⟨6⟩, some ⟨8⟩, by decide, by decide, hcycle, ?_, ?_, ?_, ?_⟩
  · exact ((hframes _ _ _).2.2.2 _ _ hns hvs).2 rfl hroot
  · exact (hframes _ _ _).2.2.1 _ hns hnot
  · exact hsplices (some (.made 0)) _ _ ⟨rfl, Nat.one_lt_two, rfl⟩ hroot hapart
  · exact hsplices none _ [] rfl hroot nofun

end Interpreter

end ArenaLisp
