import Mathlib.Data.Int.DivMod
import Mathlib.Tactic.Linarith
import Mathlib.Tactic.Ring

/-!
# Floor division of a progression

The quotients of `b, b + d, b + 2 * d, …` by `m` are those of a progression of the
quotients, `b / m + k * (d / m)`, and of a carry from the remainders. The carry grows
by 0 or 1 at each step; it is what dividing the base and the step forgets.
-/

namespace Otawa.Rounding

variable {b d m : ℤ} {k n : ℕ}

/-- What the remainders of the base and of `k` steps carry into the quotient. -/
def carry (m b d : ℤ) (k : ℕ) : ℤ := (b % m + k * (d % m)) / m

section

variable (pos : 0 < m)
include pos

/-- The quotient from the base on. -/
theorem add_ediv_eq (p : ℤ) : (b + p) / m = b / m + (b % m + p) / m := by
  conv_lhs => rw [← Int.emod_add_mul_ediv b m, add_right_comm, Int.add_mul_ediv_left _ _ pos.ne',
    add_comm]

theorem ediv_eq : (b + k * d) / m = b / m + k * (d / m) + carry m b d k := by
  have split : b + k * d = b % m + k * (d % m) + (b / m + k * (d / m)) * m := by
    conv_lhs => rw [← Int.emod_add_mul_ediv b m, ← Int.emod_add_mul_ediv d m]
    ring
  rw [split, Int.add_mul_ediv_right _ _ pos.ne', carry]
  ring

theorem carry_zero : carry m b d 0 = 0 := by
  rw [carry, Nat.cast_zero, zero_mul, add_zero]
  exact Int.ediv_eq_zero_of_lt (Int.emod_nonneg b pos.ne') (Int.emod_lt_of_pos b pos)

theorem carry_of_dvd (dvd : m ∣ d) : carry m b d k = 0 := by
  rw [carry, Int.emod_eq_zero_of_dvd dvd, mul_zero, add_zero]
  exact Int.ediv_eq_zero_of_lt (Int.emod_nonneg b pos.ne') (Int.emod_lt_of_pos b pos)

theorem carry_mono (le : k ≤ n) : carry m b d k ≤ carry m b d n := by
  have nonneg := Int.emod_nonneg d pos.ne'
  have le' : (k : ℤ) ≤ n := Int.ofNat_le.mpr le
  refine Int.ediv_le_ediv pos (add_le_add_right ?_ _)
  exact mul_le_mul_of_nonneg_right le' nonneg

theorem carry_nonneg : 0 ≤ carry m b d k := by
  rw [← carry_zero (b := b) (d := d) pos]
  exact carry_mono pos (Nat.zero_le k)

theorem carry_succ_le : carry m b d (k + 1) ≤ carry m b d k + 1 := by
  have lt := Int.emod_lt_of_pos d pos
  have next := Int.add_mul_ediv_right (b % m + k * (d % m)) 1 pos.ne'
  rw [one_mul] at next
  rw [carry, carry, ← next]
  refine Int.ediv_le_ediv pos ?_
  push_cast
  linarith

theorem carry_le : carry m b d k ≤ k := by
  induction k with
  | zero => exact (carry_zero pos).le
  | succ k ih =>
    have step := carry_succ_le (b := b) (d := d) (k := k) pos
    push_cast
    linarith

/-- Nothing is carried as long as the remainders stay below the divisor. -/
theorem carry_eq_zero_iff : carry m b d n = 0 ↔ b % m + n * (d % m) < m := by
  have remB := Int.emod_nonneg b pos.ne'
  have remD := Int.emod_nonneg d pos.ne'
  have sum : 0 ≤ b % m + n * (d % m) := by positivity
  constructor
  · intro zero
    by_contra above
    have one : 1 ≤ carry m b d n := by
      rw [carry, Int.le_ediv_iff_mul_le pos, one_mul]
      exact not_lt.mp above
    omega
  · exact Int.ediv_eq_zero_of_lt sum

/-- A carry passes through 1. -/
theorem exists_carry_eq_one (ne : carry m b d n ≠ 0) : ∃ k ≤ n, carry m b d k = 1 := by
  induction n with
  | zero => exact absurd (carry_zero pos) ne
  | succ n ih =>
    by_cases zero : carry m b d n = 0
    · have step := carry_succ_le (b := b) (d := d) (k := n) pos
      have nonneg := carry_nonneg (b := b) (d := d) (k := n + 1) pos
      exact ⟨n + 1, le_rfl, by omega⟩
    · obtain ⟨k, le, eq⟩ := ih zero
      exact ⟨k, le.trans (Nat.le_succ n), eq⟩

end

end Otawa.Rounding
