import Mathlib.Algebra.Order.BigOperators.Group.Finset
import Mathlib.Algebra.BigOperators.Ring.Finset
import Mathlib.Data.Fintype.BigOperators

/-!
# Nested counters

Counters sit at the vertices of a finite type, each at a depth. When a counter goes down and counters at
greater depths start again from at most `M`, the weighted sum of all counters decreases, if the weight of
each depth outweighs all counters below it. This is the termination measure of nested iterations.
-/

namespace Otawa.Nested

variable {V : Type} [Fintype V]

/-- The sum of the counters, a counter at depth `d` with weight `K ^ (L - d)`. -/
def potential (depth counter : V → ℕ) (K L : ℕ) : ℕ :=
  ∑ a, counter a * K ^ (L - depth a)

variable {depth counter counter' : V → ℕ} {K L M : ℕ}

theorem potential_lt (b : V) (hdepth : ∀ a, depth a ≤ L) (hcounter : ∀ a, counter' a ≤ M)
    (hK : Fintype.card V * M < K) (hdown : counter' b < counter b)
    (hother : ∀ a, a ≠ b → counter' a ≤ counter a ∨ depth b < depth a) :
    potential depth counter' K L < potential depth counter K L := by
  classical
  have hpos : 0 < K := Nat.zero_lt_of_lt hK
  let started : V → ℕ := fun a => if depth b < depth a then M * K ^ (L - depth a) else 0
  -- all the counters that start again weigh less than one turn of `b`
  have hstarted : ∑ a, started a < K ^ (L - depth b) := by
    refine Nat.lt_of_mul_lt_mul_right (a := K) ?_
    calc (∑ a, started a) * K = ∑ a, started a * K := Finset.sum_mul ..
      _ ≤ ∑ _a : V, M * K ^ (L - depth b) := by
        refine Finset.sum_le_sum fun a _ => ?_
        by_cases hda : depth b < depth a
        · have hle : L - depth a + 1 ≤ L - depth b := by
            have := hdepth a
            omega
          calc started a * K = M * K ^ (L - depth a + 1) := by simp [started, hda, pow_succ, mul_assoc]
            _ ≤ M * K ^ (L - depth b) := Nat.mul_le_mul_left M (Nat.pow_le_pow_right hpos hle)
        · simp [started, hda]
      _ = Fintype.card V * M * K ^ (L - depth b) := by simp [mul_assoc]
      _ < K * K ^ (L - depth b) := Nat.mul_lt_mul_of_pos_right hK (Nat.pow_pos hpos)
      _ = K ^ (L - depth b) * K := Nat.mul_comm ..
  have hothers : ∑ a ∈ Finset.univ.erase b, counter' a * K ^ (L - depth a) ≤
      ∑ a ∈ Finset.univ.erase b, counter a * K ^ (L - depth a) + ∑ a, started a := by
    calc _ ≤ ∑ a ∈ Finset.univ.erase b, (counter a * K ^ (L - depth a) + started a) := by
          refine Finset.sum_le_sum fun a hmem => ?_
          obtain hle | hda := hother a (Finset.ne_of_mem_erase hmem)
          · exact (Nat.mul_le_mul_right _ hle).trans (Nat.le_add_right ..)
          · have hle := Nat.mul_le_mul_right (K ^ (L - depth a)) (hcounter a)
            exact hle.trans (by simp [started, hda])
      _ ≤ _ := by
          rw [Finset.sum_add_distrib]
          exact Nat.add_le_add_left (Finset.sum_le_sum_of_subset (Finset.subset_univ _)) _
  have hb : counter' b * K ^ (L - depth b) + K ^ (L - depth b) ≤ counter b * K ^ (L - depth b) := by
    calc _ = (counter' b + 1) * K ^ (L - depth b) := by rw [Nat.add_mul, Nat.one_mul]
      _ ≤ _ := Nat.mul_le_mul_right _ hdown
  unfold potential
  rw [← Finset.add_sum_erase _ _ (Finset.mem_univ b), ← Finset.add_sum_erase _ (fun a => counter a * _)
    (Finset.mem_univ b)]
  omega

end Otawa.Nested
