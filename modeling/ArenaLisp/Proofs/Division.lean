import ArenaLisp.Proofs.Application
import Mathlib.Algebra.Order.Group.Unbundled.Int
import Mathlib.Data.Int.ModEq

/-!
# Division of whole numbers

Of all the quotients of two numbers of 32 bits, one does not fit: the least number has no
counterpart above zero, so divided by -1 it stays what it is. The modulus is the remainder of the
magnitudes. It is below the magnitude of the divisor, and so it always fits, though the magnitude of
the least number itself does not. Together, the two make up the number divided, up to a multiple
of `2³²`.
-/

namespace ArenaLisp

open EvalM

/-! ## Quotients and moduli -/

/-- What the quotient `q` and the modulus `r` of two whole numbers are. -/
structure Arith.Divides (a b q r : Int32) : Prop where
  quotient : q.toInt = (a.toInt.tdiv b.toInt).bmod (2 ^ 32)
  /-- The quotient is reduced in one case only. -/
  reduced : q.toInt = if a.toInt = -2 ^ 31 ∧ b.toInt = -1 then -2 ^ 31 else a.toInt.tdiv b.toInt
  modulus : r.toInt = |a.toInt| % |b.toInt|
  nonneg : 0 ≤ r.toInt
  lt : r.toInt < |b.toInt|
  whole : a.toInt ≡ q.toInt * b.toInt + a.toInt.sign * r.toInt [ZMOD 2 ^ 32]

namespace Arith

variable {a b : Int32}

theorem toInt_ne_zero (hb : b ≠ 0) : b.toInt ≠ 0 := fun h =>
  hb (Int32.toInt_inj.mp (h.trans Int32.toInt_zero.symm))

theorem natAbs_tmod_lt {x y : Int} (hy : y ≠ 0) : (x.tmod y).natAbs < y.natAbs := by
  rw [Int.natAbs_tmod]
  exact Nat.mod_lt _ (Int.natAbs_pos.mpr hy)

/-- A remainder has the sign of the number divided. -/
theorem tmod_eq_sign_mul (x y : Int) : x.tmod y = x.sign * (|x| % |y|) := by
  have habs : |x| % |y| = ((x.tmod y).natAbs : Int) := by
    rw [Int.natAbs_tmod, Int.natCast_mod, Int.natCast_natAbs, Int.natCast_natAbs]
  rw [habs]
  rcases lt_trichotomy x 0 with hx | rfl | hx
  · have hneg := Int.tmod_nonneg y (Int.neg_nonneg.mpr hx.le)
    rw [Int.neg_tmod] at hneg
    rw [Int.sign_eq_neg_one_of_neg hx]
    omega
  · simp
  · have hpos := Int.tmod_nonneg y hx.le
    rw [Int.sign_eq_one_of_pos hx]
    omega

/-- The quotient of the least number by -1 is the only one that does not fit. -/
theorem tdiv_bounds (hb : b ≠ 0) (hlimit : ¬(a.toInt = -2 ^ 31 ∧ b.toInt = -1)) :
    -2 ^ 31 ≤ a.toInt.tdiv b.toInt ∧ a.toInt.tdiv b.toInt < 2 ^ 31 := by
  have hle := Int.natAbs_tdiv_le_natAbs a.toInt b.toInt
  have hlow := a.le_toInt
  have hhigh := a.toInt_lt
  refine ⟨by omega, ?_⟩
  by_contra hbig
  have hq : a.toInt.tdiv b.toInt = 2 ^ 31 := by omega
  -- then the divisor, times a number so large, would be about the number divided
  have hcut := Int.tdiv_mul_add_tmod a.toInt b.toInt
  have hrem := natAbs_tmod_lt (x := a.toInt) (toInt_ne_zero hb)
  rw [hq] at hcut
  omega

theorem toInt_quotient (hb : b ≠ 0) : (Int32.ofInt (a.toInt.tdiv b.toInt)).toInt =
    if a.toInt = -2 ^ 31 ∧ b.toInt = -1 then -2 ^ 31 else a.toInt.tdiv b.toInt := by
  by_cases hlimit : a.toInt = -2 ^ 31 ∧ b.toInt = -1
  · rw [if_pos hlimit, hlimit.1, hlimit.2]
    decide
  · obtain ⟨hlow, hhigh⟩ := tdiv_bounds hb hlimit
    rw [if_neg hlimit, Int32.toInt_ofInt_of_le hlow hhigh]

theorem toInt_modulus (hb : b ≠ 0) :
    (Int32.ofInt (a.toInt.tmod b.toInt).natAbs).toInt = |a.toInt| % |b.toInt| ∧
      |a.toInt| % |b.toInt| < |b.toInt| := by
  have hrem := natAbs_tmod_lt (x := a.toInt) (toInt_ne_zero hb)
  have hlow := b.le_toInt
  have hhigh := b.toInt_lt
  rw [Int32.toInt_ofInt_of_le (by omega) (by omega)]
  rw [← Int.natCast_natAbs, ← Int.natCast_natAbs, ← Int.natCast_mod, ← Int.natAbs_tmod]
  exact ⟨rfl, Int.ofNat_lt.mpr hrem⟩

/-- **Where the divisor is not zero, there are a quotient and a modulus.** -/
theorem onInts_divides (a : Int32) (hb : b ≠ 0) : ∃ q r, div.onInts a b = some q ∧
    mod.onInts a b = some r ∧ Divides a b q r := by
  refine ⟨_, _, if_neg hb, if_neg hb, ?_⟩
  obtain ⟨hmod, hlt⟩ := toInt_modulus (a := a) hb
  have hq : (Int32.ofInt (a.toInt.tdiv b.toInt)).toInt ≡ a.toInt.tdiv b.toInt [ZMOD 2 ^ 32] := by
    rw [Int32.toInt_ofInt]
    exact Int.bmod_emod
  refine ⟨Int32.toInt_ofInt, toInt_quotient hb, hmod, ?_, hmod ▸ hlt, ?_⟩
  · rw [hmod]
    exact Int.emod_nonneg _ (abs_ne_zero.mpr (toInt_ne_zero hb))
  · calc a.toInt
      _ = a.toInt.tdiv b.toInt * b.toInt + a.toInt.tmod b.toInt :=
          (Int.tdiv_mul_add_tmod _ _).symm
      _ ≡ _ [ZMOD 2 ^ 32] := by
          rw [hmod, ← tmod_eq_sign_mul]
          exact (hq.symm.mul_right _).add_right _

end Arith

/-! ## Evaluating an operation -/

/--
Evaluating an expression to a depth above `n` comes to apply the operation first bound to a name to
two expressions. On the machine that the evaluation of both leaves, their values are whole numbers.
-/
inductive Computes (n : Nat) (name : String) (a b : Int32) (v : Ref) (m evaluated : Machine) : Prop
  | intro {operator : Addr} {p : Primitive} {arguments first second x y : Ref}
      {reached halfway : Machine}
      (happlies : Applies n v m (some operator) arguments reached)
      (hprimitive : reached.heap.cell operator = .live (.primitive p))
      (hname : Builtin.standard.lookup name = some p.builtin)
      (hgiven : reached.heap.elements? arguments = some [first, second])
      (hfirst : eval n first reached = .ok x halfway)
      (hsecond : eval n second halfway = .ok y evaluated)
      (hx : (evaluated.heap.cell? x).bind Cell.number? = some (.int a))
      (hy : (evaluated.heap.cell? y).bind Cell.number? = some (.int b)) :
      Computes n name a b v m evaluated

/-- An operation written with two numbers. -/
def Tree.calculation (name : String) (a b : Int32) : Tree :=
  .ofList [.atom name, .number (.int a), .number (.int b)]

theorem numberAt_eq {m : Machine} {v : Ref} {x : Number} (operator : String) (position : Nat)
    (hv : (m.heap.cell? v).bind Cell.number? = some x) :
    numberAt operator position v m = .ok x m := by
  rw [numberAt, see_bind, hv]
  rfl

namespace Computes

variable {n : Nat} {name : String} {a b : Int32} {v : Ref} {m evaluated : Machine}

theorem eval_eq (h : Computes n name a b v m evaluated) {op : Arith}
    (hop : Builtin.standard.lookup name = some (.arith op)) :
    eval (n + 1) v m = (op.onInts a b).elim (fail op.symbol .divisionByZero)
      (fun c => make (.number (.int c))) evaluated := by
  cases h with
  | @intro _ p arguments first second x y reached _ happlies hprimitive hname hgiven hfirst hsecond
      hx hy =>
      have htwo : evalTwo (eval n) op.symbol arguments reached = .ok (x, y) evaluated := by
        rw [evalTwo, bind_ok (twoArguments_eq op.symbol hgiven)]
        show (eval n first >>= fun v => eval n second >>= fun w => pure (v, w)) reached = _
        rw [bind_ok hfirst, bind_ok hsecond]
        rfl
      have hnumbers : evalNumbers (eval n) op.symbol arguments reached =
          .ok (.int a, .int b) evaluated := by
        rw [evalNumbers, bind_ok htwo]
        show (numberAt op.symbol 1 x >>= fun a => numberAt op.symbol 2 y >>= fun b =>
          pure (a, b)) evaluated = _
        rw [bind_ok (numberAt_eq op.symbol 1 hx), bind_ok (numberAt_eq op.symbol 2 hy)]
        rfl
      rw [happlies.run_eq hprimitive, ← Option.some.inj (hop.symm.trans hname), Builtin.run,
        bind_ok hnumbers]
      have happly : op.apply (.int a) (.int b) = (op.onInts a b).map .int := rfl
      dsimp only
      rw [happly]
      cases op.onInts a b <;> rfl

/-- Numbers stand for themselves. -/
theorem of_calculation {o : Addr} {p : Primitive} (hv : m.heap.Unfolds v (.calculation name a b))
    (hlookup : m.heap.lookup? m.scope name = some (some o))
    (hprimitive : m.heap.cell o = .live (.primitive p))
    (hname : Builtin.standard.lookup name = some p.builtin) (n : Nat) :
    Computes (n + 1) name a b v m m := by
  have htruth : (name == truthName) = false := by
    rw [beq_eq_false_iff_ne]
    rintro rfl
    cases hname
  have hnumber : ∀ {w c}, m.heap.Unfolds w (.number (.int c)) → eval (n + 1) w m = .ok w m ∧
      (m.heap.cell? w).bind Cell.number? = some (.int c) := by
    rintro _ c (_ | _ | ⟨hcell⟩)
    rw [show eval (n + 1) _ m = evalStep (eval n) _ m from rfl, evalStep, see_bind, Heap.cell?,
      Option.map_some, hcell]
    exact ⟨rfl, rfl⟩
  cases hv with
  | pair hcell hcar hcdr =>
      cases hcar with
      | @atom k _ hatom =>
          have hoperator : eval (n + 1) (some k) m = .ok (some o) m := by
            rw [show eval (n + 1) _ m = evalStep (eval n) _ m from rfl, evalStep, see_bind,
              Heap.cell?, Option.map_some, hatom]
            simp only [htruth, Bool.false_eq_true, if_false]
            rw [scope_bind, see_bind, hlookup]
            rfl
          obtain ⟨vs, hvs, hforall⟩ :=
            hcdr.elements?_some (Tree.elements?_ofList [.number (.int a), .number (.int b)])
          obtain _ | ⟨hfirst, _ | ⟨hsecond, _ | _⟩⟩ := hforall
          exact .intro (.intro hcell (fun h => by cases h.1) hoperator) hprimitive hname hvs
            (hnumber hfirst).1 (hnumber hsecond).1 (hnumber hfirst).2 (hnumber hsecond).2

end Computes

/--
**Division at the limits.** Where `b` is not zero, `/` gives the quotient of `a` and `b`, truncated
toward zero and reduced to 32 bits, and `%` and `mod` give the modulus, which is never negative and
below the magnitude of `b`. Where `b` is zero, all three fail, and nothing is made or registered. So
it is wherever two expressions are evaluated to `a` and `b`, which may be the numbers themselves.
-/
theorem division_at_the_limits (a b : Int32) :
    (b ≠ 0 → ∃ q r, Arith.Divides a b q r ∧
      ∀ n name v m evaluated, Computes n name a b v m evaluated →
        (name = "/" → Makes (eval (n + 1) v m) evaluated (.number (.int q))) ∧
        (name = "%" ∨ name = "mod" → Makes (eval (n + 1) v m) evaluated (.number (.int r)))) ∧
    (b = 0 → ∀ n name v m evaluated, Computes n name a b v m evaluated →
      name = "/" ∨ name = "%" ∨ name = "mod" →
        ∃ e, eval (n + 1) v m = .error (.error e) evaluated ∧ e.kind = .divisionByZero) ∧
    ∀ n name v m o p, m.heap.Unfolds v (.calculation name a b) →
      m.heap.lookup? m.scope name = some (some o) → m.heap.cell o = .live (.primitive p) →
      Builtin.standard.lookup name = some p.builtin → Computes (n + 1) name a b v m m := by
  refine ⟨fun hb => ?_, fun hb => ?_, ?_⟩
  · obtain ⟨q, r, hq, hr, hdivides⟩ := Arith.onInts_divides a hb
    refine ⟨q, r, hdivides, fun n name v m evaluated h => ⟨?_, ?_⟩⟩
    · rintro rfl
      have hop : Builtin.standard.lookup "/" = some (.arith .div) := rfl
      rw [h.eval_eq hop, hq]
      exact makes_make evaluated _
    · intro hname
      have hop : Builtin.standard.lookup name = some (.arith .mod) := by
        rcases hname with rfl | rfl <;> rfl
      rw [h.eval_eq hop, hr]
      exact makes_make evaluated _
  · subst hb
    intro n name v m evaluated h hname
    obtain ⟨op, hop, hnone⟩ : ∃ op, Builtin.standard.lookup name = some (.arith op) ∧
        op.onInts a 0 = none := by
      rcases hname with rfl | rfl | rfl
      · exact ⟨.div, rfl, rfl⟩
      · exact ⟨.mod, rfl, rfl⟩
      · exact ⟨.mod, rfl, rfl⟩
    rw [h.eval_eq hop, hnone]
    exact ⟨_, rfl, rfl⟩
  · intro n name v m o p hv hlookup hprimitive hname
    exact .of_calculation hv hlookup hprimitive hname n

/-- A new interpreter looks a primitive up, also where an expression was stored. -/
theorem Interpreter.new_lookup {extra : List (String × Builtin)} {print reads : Bool}
    {i : Interpreter} (hi : new extra print reads = .ok i) {t : Tree} (ht : t.Plain) {name : String}
    {p : Primitive}
    (hname : Reference.lookup? (Reference.initial (Builtin.standard ++ extra)) name =
      some (.primitive p)) :
    ∃ o, (i.machine.started t).heap.lookup? (i.machine.started t).scope name = some (some o) ∧
      (i.machine.started t).heap.cell o = .live (.primitive p) := by
  have hr := (new_rooted hi).1
  obtain ⟨hm, -⟩ := (new_models hi).1.started hr ht
  have hlookup := Heap.lookup?_unfolds (hr.started ht).1.sound.linked hm name
  rw [hname] at hlookup
  generalize (i.machine.started t).heap.lookup? (i.machine.started t).scope name = found at hlookup
  cases hlookup with
  | some hvalue =>
      cases hvalue with
      | primitive hcell => exact ⟨_, rfl, hcell⟩

/-- The least number is divided by -1, divides, and is divided by zero. -/
theorem division_at_the_limits_least : ∃ (i : Interpreter) (v : Tree → Ref) (m : Tree → Machine),
    Interpreter.new [("list-args", .arguments)] true true = .ok i ∧
    v = (fun t => (Heap.store t i.heap).1) ∧ m = i.machine.started ∧
    Makes (eval 3 (v (.calculation "/" (-2147483648) (-1)))
      (m (.calculation "/" (-2147483648) (-1)))) (m (.calculation "/" (-2147483648) (-1)))
      (.number (.int (-2147483648))) ∧
    Makes (eval 3 (v (.calculation "mod" (-7) (-2147483648)))
      (m (.calculation "mod" (-7) (-2147483648)))) (m (.calculation "mod" (-7) (-2147483648)))
      (.number (.int 7)) ∧
    ∃ e, eval 3 (v (.calculation "%" (-2147483648) 0)) (m (.calculation "%" (-2147483648) 0)) =
      .error (.error e) (m (.calculation "%" (-2147483648) 0)) ∧ e.kind = .divisionByZero := by
  obtain ⟨i, hi⟩ := Interpreter.new_arguments
  have hcomputes : ∀ {name : String} {p : Primitive} (a b : Int32),
      Reference.lookup? (Reference.initial (Builtin.standard ++ [("list-args", .arguments)])) name =
        some (.primitive p) → Builtin.standard.lookup name = some p.builtin →
      Computes 2 name a b (Heap.store (.calculation name a b) i.heap).1
        (i.machine.started (.calculation name a b))
        (i.machine.started (.calculation name a b)) := by
    intro name p a b hfound hname
    have hplain : (Tree.calculation name a b).Plain := Tree.plain_ofList (by simp [Tree.Plain])
    obtain ⟨o, hlookup, hcell⟩ := Interpreter.new_lookup hi hplain hfound
    have hv := Heap.unfolds_store i.heap hplain
    exact (division_at_the_limits a b).2.2 1 name _ _ o p hv hlookup hcell hname
  refine ⟨i, _, _, hi, rfl, rfl, ?_, ?_, ?_⟩
  · obtain ⟨q, r, hdivides, hmakes⟩ := (division_at_the_limits (-2147483648) (-1)).1 (by decide)
    obtain rfl : q = -2147483648 := Int32.toInt_inj.mp hdivides.reduced
    exact (hmakes _ _ _ _ _ (hcomputes (p := ⟨14, "/", .arith .div⟩) _ _ rfl rfl)).1 rfl
  · obtain ⟨q, r, hdivides, hmakes⟩ := (division_at_the_limits (-7) (-2147483648)).1 (by decide)
    obtain rfl : r = 7 := Int32.toInt_inj.mp hdivides.modulus
    exact (hmakes _ _ _ _ _ (hcomputes (p := ⟨16, "mod", .arith .mod⟩) _ _ rfl rfl)).2 (Or.inr rfl)
  · exact (division_at_the_limits (-2147483648) 0).2.1 rfl _ _ _ _ _
      (hcomputes (p := ⟨15, "%", .arith .mod⟩) _ _ rfl rfl) (Or.inr (Or.inl rfl))

end ArenaLisp
