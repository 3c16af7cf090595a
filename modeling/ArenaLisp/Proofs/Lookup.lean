import ArenaLisp.Proofs.Reference
import Mathlib.Data.List.Basic

/-!
# Looking names up

What a name stands for among entries that were put together: one list in front of another,
names paired with values, the names that a closure takes along. Of these the entries of a call
are made. A closure that was given its arguments in several groups has those of the earlier
groups in front, the last one first, then what it has taken along, then those of the last group,
in their order.

So a parameter that is named once stands for its argument however the arguments are grouped, and
one that is named more often stands for its last argument among those of the earlier groups.
-/

namespace ArenaLisp

namespace Reference

theorem lookup?_cons (e : String × Tree) (env : Env) (x : String) :
    lookup? (e :: env) x = if e.1 = x then some e.2 else lookup? env x := by
  unfold lookup?
  rw [List.find?_cons]
  by_cases hx : e.1 = x
  · rw [if_pos hx, show (e.1 == x) = true from beq_iff_eq.mpr hx]
    rfl
  · rw [if_neg hx, show (e.1 == x) = false from beq_eq_false_iff_ne.mpr hx]

theorem lookup?_append (front env : Env) (x : String) :
    lookup? (front ++ env) x = (lookup? front x).or (lookup? env x) := by
  unfold lookup?
  rw [List.find?_append]
  cases front.find? fun e => e.1 == x with
  | some e => rfl
  | none => rfl

/-- A name that is paired with a value stands for the value at its first position. -/
theorem lookup?_zip {names : List String} {ts : List Tree} (hlength : names.length = ts.length)
    (x : String) : lookup? (names.zip ts) x = ts[names.idxOf x]? := by
  induction names generalizing ts with
  | nil =>
      obtain rfl := List.length_eq_zero_iff.mp hlength.symm
      rfl
  | cons name names ih =>
      cases ts with
      | nil => cases hlength
      | cons t ts =>
          rw [List.zip_cons_cons, lookup?_cons, List.idxOf_cons]
          by_cases hx : name = x
          · rw [if_pos hx, show (name == x) = true from beq_iff_eq.mpr hx]
            rfl
          · rw [if_neg hx, show (name == x) = false from beq_eq_false_iff_ne.mpr hx,
              ih (Nat.succ.inj hlength)]
            rfl

/-- In the other order it stands for the value at its last position. -/
theorem lookup?_reverse_zip {names : List String} {ts : List Tree}
    (hlength : names.length = ts.length) (x : String) :
    lookup? (names.zip ts).reverse x = ts.reverse[names.reverse.idxOf x]? := by
  rw [List.zip_eq_zipWith, List.reverse_zipWith hlength, ← List.zip_eq_zipWith]
  exact lookup?_zip (by rw [List.length_reverse, List.length_reverse, hlength]) x

theorem ofScope_toScope (env : Env) : ofScope (toScope env) = env := by
  induction env with
  | nil => rfl
  | cons e env ih => rw [toScope, ofScope, ih]; rfl

/-- A name that is taken along stands for what it stood for. -/
theorem lookup?_capture (env : Env) (names : List String) (captured : Env) (x : String) :
    lookup? (capture env names captured) x =
      if x ∈ names then (lookup? env x).or (lookup? captured x) else lookup? captured x := by
  induction names generalizing captured with
  | nil => rfl
  | cons name names ih =>
      have hmem : name ≠ x → (x ∈ name :: names ↔ x ∈ names) := fun hne => by
        simp [Ne.symm hne]
      rw [capture, List.foldl_cons, ← capture]
      cases hlookup : lookup? env name with
      | none =>
          dsimp only
          rw [ih]
          by_cases hname : name = x
          · subst hname
            simp [hlookup]
          · simp only [hmem hname]
      | some value =>
          dsimp only
          rw [ih, lookup?_cons]
          by_cases hname : name = x
          · subst hname
            simp [hlookup]
          · rw [if_neg hname]
            simp only [hmem hname]

/-! ## The entries of a call -/

/--
The entries of a call. Of the arguments of the closure some were `supplied` in groups before, the
others are `given` at last.
-/
def callEnv (names : List String) (supplied given : List Tree) (captured env : Env) : Env :=
  (((names.zip supplied).reverse ++ captured) ++ (names.drop supplied.length).zip given) ++ env

/--
The position of the argument that a parameter stands for, if `k` arguments were supplied in groups
before: its last one among these, and otherwise its first one.
-/
def argumentIndex (names : List String) (k : Nat) (x : String) : Nat :=
  if x ∈ names.take k then k - 1 - (names.take k).reverse.idxOf x else names.idxOf x

theorem zip_take_of_le {names : List String} {ts : List Tree} (hlength : ts.length ≤ names.length) :
    names.zip ts = (names.take ts.length).zip ts := by
  conv_lhs => rw [List.zip_eq_zip_take_min, show min names.length ts.length = ts.length by omega,
    List.take_length]

/-- Arguments that are supplied in groups are paired as if they were supplied at once. -/
theorem zip_append_of_le {names : List String} {ts us : List Tree}
    (hlength : ts.length ≤ names.length) :
    names.zip (ts ++ us) = names.zip ts ++ (names.drop ts.length).zip us := by
  have htake : (names.take ts.length).length = ts.length := by
    rw [List.length_take]
    omega
  conv_lhs => rw [← List.take_append_drop ts.length names]
  rw [List.zip_append htake, ← zip_take_of_le hlength]

/-- What the names of a call stand for. -/
theorem lookup?_callEnv {names : List String} {supplied given : List Tree} {captured : Env}
    (hlength : supplied.length + given.length = names.length)
    (hcaptured : ∀ x ∈ names, lookup? captured x = none) (env : Env) (x : String) :
    lookup? (callEnv names supplied given captured env) x =
      if x ∈ names then (supplied ++ given)[argumentIndex names supplied.length x]?
      else (lookup? captured x).or (lookup? env x) := by
  have htake : (names.take supplied.length).length = supplied.length := by
    rw [List.length_take]
    omega
  have hdrop : (names.drop supplied.length).length = given.length := by
    rw [List.length_drop]
    omega
  rw [callEnv, lookup?_append, lookup?_append, lookup?_append, zip_take_of_le (by omega),
    lookup?_reverse_zip htake, lookup?_zip hdrop, argumentIndex]
  by_cases hfirst : x ∈ names.take supplied.length
  · -- an earlier group binds it, in front of everything else
    rw [if_pos hfirst, if_pos (List.mem_of_mem_take hfirst)]
    have hidx := List.idxOf_lt_length_of_mem (List.mem_reverse.mpr hfirst)
    rw [List.length_reverse, htake] at hidx
    rw [List.getElem?_reverse hidx, List.getElem?_append_left (by omega),
      List.getElem?_eq_getElem (by omega)]
    rfl
  · rw [if_neg hfirst]
    have hnone : supplied.reverse[(names.take supplied.length).reverse.idxOf x]? = none := by
      rw [List.getElem?_eq_none_iff, List.idxOf_eq_length fun hmem => hfirst (List.mem_reverse.mp hmem)]
      simp [htake]
    rw [hnone, Option.none_or]
    by_cases hname : x ∈ names
    · rw [if_pos hname, hcaptured x hname, Option.none_or]
      have hlast : x ∈ names.drop supplied.length := by
        rw [← List.take_append_drop supplied.length names] at hname
        exact (List.mem_append.mp hname).resolve_left hfirst
      have hposition : names.idxOf x = supplied.length + (names.drop supplied.length).idxOf x := by
        conv_lhs => rw [← List.take_append_drop supplied.length names]
        rw [List.idxOf_append_of_notMem hfirst, htake, Nat.add_comm]
      have hidx := List.idxOf_lt_length_of_mem hlast
      rw [hdrop] at hidx
      rw [hposition, List.getElem?_append_right (Nat.le_add_right _ _), Nat.add_sub_cancel_left,
        List.getElem?_eq_getElem hidx]
      rfl
    · rw [if_neg hname]
      have hrest : x ∉ names.drop supplied.length := fun hmem => hname (List.mem_of_mem_drop hmem)
      rw [List.idxOf_eq_length hrest, hdrop, List.getElem?_eq_none (Nat.le_refl _), Option.or_none]

/-- Where a name occurs once, it is as far from the front as it is said to be from the back. -/
theorem idxOf_reverse {l : List String} {x : String} (hx : x ∈ l) (hcount : l.count x ≤ 1) :
    l.reverse.idxOf x + l.idxOf x + 1 = l.length := by
  obtain ⟨a, b, rfl, ha⟩ := List.eq_append_cons_of_mem hx
  have hb : x ∉ b := by
    intro hmem
    have hpos := List.count_pos_iff.mpr hmem
    rw [List.count_append, List.count_cons_self] at hcount
    omega
  rw [List.reverse_append, List.reverse_cons, List.append_assoc,
    List.idxOf_append_of_notMem (fun h => hb (List.mem_reverse.mp h)), List.idxOf_append_of_notMem ha]
  simp
  omega

/-- A name that the earlier groups bind at most once stands for its first argument. -/
theorem argumentIndex_eq {names : List String} {k : Nat} {x : String}
    (hcount : (names.take k).count x ≤ 1) (hk : k ≤ names.length) :
    argumentIndex names k x = names.idxOf x := by
  unfold argumentIndex
  by_cases hfirst : x ∈ names.take k
  · have hposition := idxOf_reverse hfirst hcount
    have hsame : names.idxOf x = (names.take k).idxOf x := by
      conv_lhs => rw [← List.take_append_drop k names]
      rw [List.idxOf_append_of_mem hfirst]
    rw [List.length_take, Nat.min_eq_left hk] at hposition
    rw [if_pos hfirst, hsame]
    omega
  · rw [if_neg hfirst]

theorem argumentIndex_zero (names : List String) (x : String) :
    argumentIndex names 0 x = names.idxOf x :=
  argumentIndex_eq (by simp) (Nat.zero_le _)

end Reference

theorem Tree.mem_freeNames {params body : Tree} {names : List String}
    (hnames : params.elements? = some (names.map .atom)) {x : String} :
    x ∈ params.freeNames body ↔ x ∈ body.atoms ∧ x ∉ names := by
  have hspine : params.spine.1.map Tree.name = names := by
    rw [elements?] at hnames
    split at hnames
    · rw [Option.some.inj hnames, List.map_map]
      exact List.map_id'' (fun _ => rfl) names
    · cases hnames
  rw [freeNames, hspine, List.mem_eraseDups, List.mem_filter]
  simp

end ArenaLisp
