import ArenaLisp.Proofs.Growth
import Mathlib.Data.Nat.Find

/-!
# Chains by place

A chain of bindings may come back to itself, and then it has no end and no list of its bindings.
What it has in any case is a binding at every place, counted from the front, or none behind the end.
A chain whose bindings are in the heap comes to all of them within as many places as there are
bindings, so looking a name up finds its first binding, whether the chain ends or not.
-/

namespace ArenaLisp.Heap

/-- The binding at a place of a chain; behind the end there is none. -/
def bindingAt? (h : Heap) : Chain → Nat → Option BindingId
  | c, 0 => c
  | c, n + 1 => h.bindingAt? (c.bind fun b => (h.binding b).next) n

/-- Whether a binding is one of a chain. -/
def InChain (h : Heap) (c : Chain) (b : BindingId) : Prop := ∃ n, h.bindingAt? c n = some b

/-- Whether all bindings of a chain are in the heap. -/
def HasChain (h : Heap) (c : Chain) : Prop := ∀ b, h.InChain c b → h.Has (.binding b)

variable {h h' h'' : Heap} {c d : Chain} {b b' : BindingId} {bs fs : List BindingId}

/-! ## Places -/

theorem bindingAt?_none (h : Heap) (n : Nat) : h.bindingAt? none n = none := by
  induction n with
  | zero => rfl
  | succ n ih => exact ih

/-- The chain from a place on begins with the binding at that place. -/
theorem bindingAt?_add (h : Heap) (c : Chain) (m n : Nat) :
    h.bindingAt? c (m + n) = h.bindingAt? (h.bindingAt? c m) n := by
  induction m generalizing c with
  | zero => rw [Nat.zero_add]; rfl
  | succ m ih => rw [Nat.add_right_comm]; exact ih _

theorem InChain.front : h.InChain (some b) b := ⟨0, rfl⟩

theorem InChain.of_next (hb : h.InChain (h.binding b').next b) : h.InChain (some b') b := by
  obtain ⟨n, hn⟩ := hb
  exact ⟨n + 1, hn⟩

theorem bindingAt?_congr
    (hb : ∀ b, h.InChain c b → (h'.binding b).next = (h.binding b).next) (n : Nat) :
    h'.bindingAt? c n = h.bindingAt? c n := by
  induction n generalizing c with
  | zero => rfl
  | succ n ih =>
      cases c with
      | none => rw [bindingAt?_none, bindingAt?_none]
      | some b =>
          show h'.bindingAt? (h'.binding b).next n = h.bindingAt? (h.binding b).next n
          rw [hb b .front]
          exact ih fun b' hb' => hb b' hb'.of_next

theorem getElem?_chainTo (h : Heap) (c : Chain) (n m : Nat) :
    (chainTo n h c)[m]? = if m < n then h.bindingAt? c m else none := by
  induction n generalizing c m with
  | zero => cases c <;> rfl
  | succ n ih =>
      cases c with
      | none => rw [bindingAt?_none, chainTo]; simp
      | some b =>
          rw [chainTo]
          cases m with
          | zero => rfl
          | succ m =>
              rw [List.getElem?_cons_succ, ih]
              simp only [Nat.add_lt_add_iff_right]
              rfl

theorem chainTo_add (m n : Nat) (h : Heap) (c : Chain) :
    chainTo (m + n) h c = chainTo m h c ++ chainTo n h (h.bindingAt? c m) := by
  induction m generalizing c with
  | zero => rw [Nat.zero_add]; cases c <;> rfl
  | succ m ih =>
      cases c with
      | none => rw [bindingAt?_none]; cases n <;> simp [chainTo]
      | some b => rw [Nat.add_right_comm, chainTo, chainTo, ih]; rfl

theorem mem_chainTo {n : Nat} : b ∈ chainTo n h c ↔ ∃ m < n, h.bindingAt? c m = some b := by
  simp only [List.mem_iff_getElem?, getElem?_chainTo]
  grind

/-! ## As many places as there are bindings -/

/-- A chain comes to each of its bindings within as many places as it has different bindings. -/
theorem InChain.exists_lt {N : Nat}
    (hN : ∀ l : List BindingId, l.Nodup → (∀ b ∈ l, h.InChain c b) → l.length ≤ N)
    (hb : h.InChain c b) : ∃ n < N, h.bindingAt? c n = some b := by
  classical
  have hfirst : h.bindingAt? c (Nat.find hb) = some b := Nat.find_spec hb
  have hplace : (chainTo (Nat.find hb + 1) h c)[Nat.find hb]? = some b := by
    rw [getElem?_chainTo, if_pos (Nat.lt_succ_self _), hfirst]
  -- up to the first place where the binding is, none is twice: else it would be there before
  have hnodup : (chainTo (Nat.find hb + 1) h c).Nodup := by
    rw [List.nodup_iff_getElem?_ne_getElem?]
    intro m k hmk hk heq
    have hk' : k < Nat.find hb + 1 := by
      by_contra hnot
      have hsome := List.getElem?_eq_getElem hk
      rw [getElem?_chainTo, if_neg hnot] at hsome
      cases hsome
    rw [getElem?_chainTo, getElem?_chainTo, if_pos hk', if_pos (Nat.lt_trans hmk hk')] at heq
    refine Nat.find_min hb (m := m + (Nat.find hb - k)) (by omega) ?_
    rw [bindingAt?_add, heq, ← bindingAt?_add, Nat.add_sub_cancel' (Nat.le_of_lt_succ hk'), hfirst]
  have hle := hN _ hnodup fun b' hb' =>
    let ⟨m, _, hm⟩ := mem_chainTo.mp hb'
    ⟨m, hm⟩
  exact ⟨Nat.find hb, Nat.lt_of_lt_of_le (List.getElem?_eq_some_iff.mp hplace).1 hle, hfirst⟩

/-- Looking a name up needs as many steps as a chain has different bindings. -/
theorem findBindingTo_eq_of_le {N n : Nat}
    (hN : ∀ l : List BindingId, l.Nodup → (∀ b ∈ l, h.InChain c b) → l.length ≤ N) (hn : N ≤ n)
    (name : String) : findBindingTo n h c name = findBindingTo N h c name := by
  obtain ⟨k, rfl⟩ := Nat.exists_eq_add_of_le hn
  rw [findBindingTo_eq, findBindingTo_eq, chainTo_add, List.find?_append]
  cases hfind : (chainTo N h c).find? fun b => h.boundName? b == some name with
  | some b => rfl
  | none =>
      rw [Option.none_or, List.find?_eq_none]
      intro b hb
      obtain ⟨m, -, hm⟩ := mem_chainTo.mp hb
      rw [← bindingAt?_add] at hm
      exact List.find?_eq_none.mp hfind b (mem_chainTo.mpr (InChain.exists_lt hN ⟨_, hm⟩))

theorem HasChain.findBindingTo_eq (hc : h.HasChain c) {n : Nat} (hn : h.bindings.size ≤ n)
    (name : String) : findBindingTo n h c name = h.findBinding? c name :=
  findBindingTo_eq_of_le (fun _ hd hl => length_le_bindings hd fun b hb => hc b (hl b hb)) hn name

/-! ## Chains that are kept -/

/-- Whether a chain has the same bindings in a later heap, which has no other values. -/
structure KeepsChain (h h' : Heap) (c : Chain) : Prop where
  cells : h'.cells = h.cells
  bindings_le : h.bindings.size ≤ h'.bindings.size
  binding : ∀ b, h.InChain c b → h'.binding b = h.binding b

namespace KeepsChain

theorem refl (h : Heap) (c : Chain) : h.KeepsChain h c := ⟨rfl, Nat.le_refl _, fun _ _ => rfl⟩

theorem bindingAt?_eq (hk : h.KeepsChain h' c) (n : Nat) : h'.bindingAt? c n = h.bindingAt? c n :=
  bindingAt?_congr (fun b hb => by rw [hk.binding b hb]) n

theorem inChain_iff (hk : h.KeepsChain h' c) : h'.InChain c b ↔ h.InChain c b :=
  exists_congr fun n => by rw [hk.bindingAt?_eq]

theorem hasChain (hk : h.KeepsChain h' c) (hc : h.HasChain c) : h'.HasChain c := fun b hb =>
  Nat.lt_of_lt_of_le (hc b (hk.inChain_iff.mp hb)) hk.bindings_le

theorem trans (hk : h.KeepsChain h' c) (hk' : h'.KeepsChain h'' c) : h.KeepsChain h'' c where
  cells := hk'.cells.trans hk.cells
  bindings_le := Nat.le_trans hk.bindings_le hk'.bindings_le
  binding b hb := (hk'.binding b (hk.inChain_iff.mpr hb)).trans (hk.binding b hb)

theorem boundName?_eq (hk : h.KeepsChain h' c) (hb : h.InChain c b) :
    h'.boundName? b = h.boundName? b := by
  have hcell : h'.cell = h.cell := by
    funext a
    rw [cell, cell, hk.cells]
  rw [boundName?, boundName?, hk.binding b hb, cell?, cell?, hcell]

theorem findBindingTo_eq (hk : h.KeepsChain h' c) (n : Nat) (name : String) :
    findBindingTo n h' c name = findBindingTo n h c name := by
  induction n generalizing c with
  | zero => cases c <;> rfl
  | succ n ih =>
      cases c with
      | none => rfl
      | some b =>
          have hnext : h.KeepsChain h' (h.binding b).next :=
            ⟨hk.cells, hk.bindings_le, fun b' hb' => hk.binding b' hb'.of_next⟩
          rw [findBindingTo, findBindingTo, hk.boundName?_eq .front, hk.binding b .front, ih hnext]

theorem findBinding?_eq (hk : h.KeepsChain h' c) (hc : h.HasChain c) (name : String) :
    h'.findBinding? c name = h.findBinding? c name := by
  rw [findBinding?, hk.findBindingTo_eq, hc.findBindingTo_eq hk.bindings_le]

/-- **A chain that is kept finds the same under every name.** -/
theorem lookup?_eq (hk : h.KeepsChain h' c) (hc : h.HasChain c) (name : String) :
    h'.lookup? c name = h.lookup? c name := by
  rw [lookup?, lookup?, hk.findBinding?_eq hc]
  cases hfind : h.findBinding? c name with
  | none => rfl
  | some b =>
      obtain ⟨m, -, hm⟩ := mem_chainTo.mp (mem_of_findBinding? hfind)
      rw [Option.map_some, Option.map_some, hk.binding b ⟨m, hm⟩]

end KeepsChain

/-! ## Stretches -/

/-- The places of a stretch are followed by those of the chain it goes on as. -/
theorem Stretch.bindingAt?_eq (hs : h.Stretch c bs d) (n : Nat) :
    h.bindingAt? c n = bs[n]?.or (h.bindingAt? d (n - bs.length)) := by
  induction bs generalizing c n with
  | nil =>
      rw [show c = d from hs]
      simp
  | cons b bs ih =>
      obtain ⟨rfl, -, hrest⟩ := hs
      cases n with
      | zero => rfl
      | succ n =>
          rw [List.getElem?_cons_succ, List.length_cons, Nat.add_sub_add_right]
          exact ih hrest n

theorem Stretch.hasChain (hs : h.Stretch c bs d) (hd : h.HasChain d) : h.HasChain c := by
  rintro b ⟨n, hn⟩
  rw [hs.bindingAt?_eq] at hn
  rcases Option.or_eq_some_iff.mp hn with hb | ⟨-, hb⟩
  · exact hs.has (List.mem_of_getElem? hb)
  · exact hd b ⟨_, hb⟩

end ArenaLisp.Heap
