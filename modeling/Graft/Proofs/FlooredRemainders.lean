import Graft.Machine.Exec
import Mathlib.Data.Rat.Floor
import Mathlib.Tactic.Linarith

/-! # Floored remainders

The remainder of the host is computed in 64 bits: the remainder of truncated division, which has the
sign of the dividend, and a correction by the divisor where the two signs differ.  This module says
what comes out of it on the integers: the remainder of division rounded to the floor
(`IsFlooredRemainder`), with every step inside 64 bits (`StaysInside`).

Two kinds of operands have no remainder.  A zero divisor is a fault of the program.  The least
integer divided by minus one has a quotient that does not fit (`fits_tdiv_iff`), and nothing catches
that.

The two halves are kept apart.  On integers of any size it is shown that the correction makes
truncated division floored division; here a quotient is known by its remainder, which lies between
zero and the divisor.  On 64 bits it is shown that each step has the value that it has on integers,
since a correction adds numbers of different signs and so cannot overflow.
-/

namespace Graft.Arithmetic

/-- The integer is one of 64 bits. -/
def Fits (z : Int) : Prop := -2 ^ 63 ≤ z ∧ z < 2 ^ 63

/-- `q` is the remainder of `l` by `r` when the quotient is rounded to the floor; it lies between
zero and the divisor. -/
structure IsFlooredRemainder (l r q : Int) : Prop where
  eq : q = l - r * ⌊(l : ℚ) / r⌋
  of_pos : 0 < r → 0 ≤ q ∧ q < r
  of_neg : r < 0 → r < q ∧ q ≤ 0

/-- The remainder `m` and the divisor `r` lie on different sides of zero. -/
def NeedsCorrection (m r : Int) : Prop := m < 0 ∧ 0 < r ∨ 0 < m ∧ r < 0

instance (m r : Int) : Decidable (NeedsCorrection m r) := inferInstanceAs (Decidable (_ ∨ _))

/-- No step of the computation leaves 64 bits: the quotient that belongs to the remainder fits, and
remainder and correction are those of integers of any size. -/
structure StaysInside (l r : Int64) : Prop where
  quotient : Fits (l.toInt.tdiv r.toInt)
  remainder : Fits (l.toInt.tmod r.toInt) ∧ (l % r).toInt = l.toInt.tmod r.toInt
  correction : NeedsCorrection (l.toInt.tmod r.toInt) r.toInt →
    Fits (l.toInt.tmod r.toInt + r.toInt) ∧ (l % r + r).toInt = l.toInt.tmod r.toInt + r.toInt

/-! ### Integers of any size -/

/-- **The floor of a quotient** is the quotient whose remainder lies between zero and the
divisor. -/
theorem floor_div_eq {l r k q : Int} (h : l = r * k + q)
    (hq : (0 ≤ q ∧ q < r) ∨ (r < q ∧ q ≤ 0)) : ⌊(l : ℚ) / r⌋ = k := by
  have sum : (l : ℚ) = r * k + q := by exact_mod_cast h
  rw [Int.floor_eq_iff]
  rcases hq with ⟨low, high⟩ | ⟨low, high⟩
  · have pos : (0 : ℚ) < r := by exact_mod_cast low.trans_lt high
    have low : (0 : ℚ) ≤ q := by exact_mod_cast low
    have high : (q : ℚ) < r := by exact_mod_cast high
    rw [le_div_iff₀ pos, div_lt_iff₀ pos]
    constructor <;> linarith
  · have neg : (r : ℚ) < 0 := by exact_mod_cast low.trans_le high
    have low : (r : ℚ) < q := by exact_mod_cast low
    have high : (q : ℚ) ≤ 0 := by exact_mod_cast high
    rw [le_div_iff_of_neg neg, div_lt_iff_of_neg neg]
    constructor <;> linarith

theorem IsFlooredRemainder.of_quotient {l r k q : Int} (h : l = r * k + q)
    (hq : (0 ≤ q ∧ q < r) ∨ (r < q ∧ q ≤ 0)) : IsFlooredRemainder l r q := by
  refine ⟨?_, fun hr => ?_, fun hr => ?_⟩
  · rw [floor_div_eq h hq]
    omega
  · omega
  · omega

/-- The remainder of truncated division is smaller than the divisor. -/
theorem natAbs_tmod_lt (l : Int) {r : Int} (hr : r ≠ 0) : (l.tmod r).natAbs < r.natAbs := by
  rw [Int.natAbs_tmod]
  exact Nat.mod_lt _ (by omega)

/-- **Truncated division, corrected, is floored division.**  The correction takes one off the
quotient, which leaves a remainder on the other side of zero. -/
theorem isFlooredRemainder_corrected (l : Int) {r : Int} (hr : r ≠ 0) :
    IsFlooredRemainder l r
      (if NeedsCorrection (l.tmod r) r then l.tmod r + r else l.tmod r) := by
  have size := natAbs_tmod_lt l hr
  have sum := Int.mul_tdiv_add_tmod l r
  split
  next wrong =>
    have off : l = r * (l.tdiv r - 1) + (l.tmod r + r) := by rw [Int.mul_sub]; omega
    unfold NeedsCorrection at wrong
    exact .of_quotient off (by omega)
  next right =>
    unfold NeedsCorrection at right
    exact .of_quotient sum.symm (by omega)

/-! ### Integers of 64 bits -/

theorem fits_toInt (x : Int64) : Fits x.toInt := ⟨x.le_toInt, x.toInt_lt⟩

theorem toInt_eq_zero_iff {x : Int64} : x.toInt = 0 ↔ x = 0 := by
  rw [← Int64.toInt_zero, Int64.toInt_inj]

theorem toInt_eq_least_iff {x : Int64} : x.toInt = -2 ^ 63 ↔ x = Int64.minValue := by
  rw [← Int64.toInt_inj, Int64.toInt_minValue]

theorem toInt_eq_neg_one_iff {x : Int64} : x.toInt = -1 ↔ x = -1 := by
  rw [← Int64.toInt_inj]
  exact Iff.rfl

/-- A sum that fits is not wrapped around. -/
theorem toInt_add_of_fits {a b : Int64} (h : Fits (a.toInt + b.toInt)) :
    (a + b).toInt = a.toInt + b.toInt := by
  obtain ⟨low, high⟩ := h
  rw [Int64.toInt_add, Int.bmod_eq_of_le] <;> omega

/-- **When the quotient fits.**  Only the least integer, divided by minus one, has a quotient that
is too large. -/
theorem fits_tdiv_iff (l r : Int64) :
    Fits (l.toInt.tdiv r.toInt) ↔ ¬ (l.toInt = -2 ^ 63 ∧ r.toInt = -1) := by
  obtain ⟨low, high⟩ := fits_toInt l
  unfold Fits
  by_cases hr : r.toInt = 0 ∨ r.toInt = 1 ∨ r.toInt = -1
  · rcases hr with hr | hr | hr <;> rw [hr]
    · rw [Int.tdiv_zero]
      omega
    · rw [Int.tdiv_one]
      omega
    · rw [Int.tdiv_neg, Int.tdiv_one]
      omega
  · -- any other divisor at least halves the dividend
    have half : (l.toInt.tdiv r.toInt).natAbs ≤ l.toInt.natAbs / 2 := by
      rw [Int.natAbs_tdiv]
      exact Nat.div_le_div_left (by omega) (by decide)
    omega

/-- The remainder fits since it is smaller than the divisor, and so does the correction, which adds
numbers of different signs. -/
theorem staysInside {l r : Int64} (hr : r ≠ 0)
    (h : ¬ (l.toInt = -2 ^ 63 ∧ r.toInt = -1)) : StaysInside l r := by
  have size := natAbs_tmod_lt l.toInt (mt toInt_eq_zero_iff.mp hr)
  obtain ⟨low, high⟩ := fits_toInt r
  have rem := l.toInt_mod r
  refine ⟨(fits_tdiv_iff l r).mpr h, ⟨?_, rem⟩, fun wrong => ?_⟩
  · unfold Fits
    omega
  · have fits : Fits (l.toInt.tmod r.toInt + r.toInt) := by
      unfold NeedsCorrection at wrong
      unfold Fits
      omega
    rw [← rem] at fits ⊢
    exact ⟨fits, toInt_add_of_fits fits⟩

/-- The computation asks for the correction where it is needed. -/
theorem mismatched_iff {m r : Int64} (hr : r ≠ 0) :
    (m ≠ 0 ∧ decide (m < 0) ≠ decide (r < 0)) ↔ NeedsCorrection m.toInt r.toInt := by
  have hr := mt toInt_eq_zero_iff.mp hr
  rw [ne_eq, ← toInt_eq_zero_iff, ne_eq, decide_eq_decide, Int64.lt_iff_toInt_lt,
    Int64.lt_iff_toInt_lt, Int64.toInt_zero]
  unfold NeedsCorrection
  omega

/-- Apart from the two kinds of operands without one, there is a remainder. -/
theorem exists_flooredRemainder {l r : Int64} (hr : r ≠ 0)
    (h : ¬ (l.toInt = -2 ^ 63 ∧ r.toInt = -1)) : ∃ q, flooredRemainder l r = .ok q ∧
      IsFlooredRemainder l.toInt r.toInt q.toInt := by
  have inside := staysInside hr h
  have floored := isFlooredRemainder_corrected l.toInt (mt toInt_eq_zero_iff.mp hr)
  rw [toInt_eq_least_iff, toInt_eq_neg_one_iff] at h
  refine ⟨_, by rw [flooredRemainder, if_neg hr, if_neg h], ?_⟩
  simp only [mismatched_iff hr, inside.remainder.2]
  split
  next wrong =>
    rw [if_pos wrong] at floored
    rwa [(inside.correction wrong).2]
  next right =>
    rw [if_neg right] at floored
    rwa [inside.remainder.2]

theorem flooredRemainder_eq_zeroModulus_iff {l r : Int64} :
    flooredRemainder l r = .error .zeroModulus ↔ r = 0 := by
  unfold flooredRemainder
  split
  next hr => simp [hr]
  next hr => split <;> simp [hr]

theorem flooredRemainder_eq_overflow_iff {l r : Int64} :
    flooredRemainder l r = .error .overflow ↔ l.toInt = -2 ^ 63 ∧ r.toInt = -1 := by
  rw [toInt_eq_least_iff, toInt_eq_neg_one_iff]
  unfold flooredRemainder
  split
  next hr =>
    rw [hr]
    simp
  next hr => split <;> simp_all

/-! ### The operation of the host -/

variable {x y : Float} {m : Machine} {e : ArithmeticError}

theorem apply_modulo (x y : Float) :
    apply .modulo x y = (flooredRemainder (cut x) (cut y)).map Int64.toFloat := rfl

theorem calculate_modulo_of_ok {q : Int64} (h : flooredRemainder (cut x) (cut y) = .ok q) :
    Machine.calculate .modulo x y m = .ok q.toFloat m := by
  rw [Machine.calculate, apply_modulo, h]
  rfl

theorem calculate_modulo_of_error (h : flooredRemainder (cut x) (cut y) = .error e) :
    Machine.calculate .modulo x y m = .error e.halt m := by
  rw [Machine.calculate, apply_modulo, h]
  rfl

theorem halt_inj {e' : ArithmeticError} : e.halt = e'.halt ↔ e = e' := by
  cases e <;> cases e' <;> simp [ArithmeticError.halt]

/-- The host halts for the reason for which there is no remainder. -/
theorem calculate_modulo_eq_error_iff (x y : Float) (m : Machine) (e : ArithmeticError) :
    Machine.calculate .modulo x y m = .error e.halt m ↔
      flooredRemainder (cut x) (cut y) = .error e := by
  cases h : flooredRemainder (cut x) (cut y) with
  | ok q => simp [calculate_modulo_of_ok h]
  | error e' => simp [calculate_modulo_of_error h, halt_inj]

/-- **The remainder of the host is that of floored division.**  There is none only if the divisor is
zero, which is a fault, or if the least integer is divided by minus one, which ends the run.  In all
other cases the quotient is rounded to the floor, and nothing that is computed on the way leaves 64
bits.  Doubles are cut to such operands, and the remainder is made a double again.

On integers a corrected remainder lies between zero and the divisor and differs from the dividend by
a multiple of the divisor, which makes it the floored one.  In 64 bits only the quotient can be too
large, and the correction adds numbers of different signs. -/
theorem modulo_floors (l r : Int64) :
    (flooredRemainder l r = .error .zeroModulus ↔ r = 0) ∧
    (flooredRemainder l r = .error .overflow ↔ l.toInt = -2 ^ 63 ∧ r.toInt = -1) ∧
    (r ≠ 0 → ¬ (l.toInt = -2 ^ 63 ∧ r.toInt = -1) → ∃ q, flooredRemainder l r = .ok q ∧
      IsFlooredRemainder l.toInt r.toInt q.toInt ∧ StaysInside l r) ∧
    ∀ (x y : Float) (m : Machine), cut x = l → cut y = r →
      (Machine.calculate .modulo x y m = .error (.fault .illegalModulus) m ↔ r = 0) ∧
      (Machine.calculate .modulo x y m = .error .overflow m ↔
        l.toInt = -2 ^ 63 ∧ r.toInt = -1) ∧
      ∀ q, flooredRemainder l r = .ok q → Machine.calculate .modulo x y m = .ok q.toFloat m := by
  refine ⟨flooredRemainder_eq_zeroModulus_iff, flooredRemainder_eq_overflow_iff, fun hr h => ?_, ?_⟩
  · obtain ⟨q, hq, floored⟩ := exists_flooredRemainder hr h
    exact ⟨q, hq, floored, staysInside hr h⟩
  · rintro x y m rfl rfl
    refine ⟨?_, ?_, fun q hq => ?_⟩
    · exact (calculate_modulo_eq_error_iff x y m .zeroModulus).trans
        flooredRemainder_eq_zeroModulus_iff
    · exact (calculate_modulo_eq_error_iff x y m .overflow).trans flooredRemainder_eq_overflow_iff
    · exact calculate_modulo_of_ok hq

/-- The least integer by the greatest: the remainder minus one is corrected. -/
theorem modulo_floors_least : ∃ q, flooredRemainder Int64.minValue Int64.maxValue = .ok q ∧
    IsFlooredRemainder Int64.minValue.toInt Int64.maxValue.toInt q.toInt ∧
    StaysInside Int64.minValue Int64.maxValue :=
  (modulo_floors Int64.minValue Int64.maxValue).2.2.1 (by decide) (by decide)

example : flooredRemainder (-7) 3 = .ok 2 ∧ flooredRemainder 7 (-3) = .ok (-2) := by decide

end Graft.Arithmetic
