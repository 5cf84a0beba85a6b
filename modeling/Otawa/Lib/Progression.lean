import Mathlib.GroupTheory.OrderOfElement
import Mathlib.Tactic.Abel
import Mathlib.Tactic.Ring

/-!
# Finite progressions in a commutative group

`prog b d n` is the set `b, b + d, …, b + n • d`. In a group where steps can come back
to the start the same set has many descriptions and a progression may run over
itself several times; nothing here excludes that.

The rules are the ones an abstract domain of progressions needs: reading a
progression backward, adding and negating two of them, refining the step to a
divisor, and the progression that is long enough to reach every multiple of its
step.
-/

namespace Otawa.Progression

variable {G : Type*} [AddCommGroup G]

/-- The elements `b + k • d` for `k ≤ n`. -/
def prog (b d : G) (n : ℕ) : Set G := {x | ∃ k ≤ n, x = b + k • d}

variable {b c d e g x y : G} {m n p q k : ℕ}

theorem add_nsmul_mem (le : k ≤ n) : b + k • d ∈ prog b d n := ⟨k, le, rfl⟩

theorem base_mem (b d : G) (n : ℕ) : b ∈ prog b d n := ⟨0, Nat.zero_le n, by simp⟩

theorem prog_mono (le : m ≤ n) : prog b d m ⊆ prog b d n := by
  rintro x ⟨k, lek, rfl⟩
  exact add_nsmul_mem (lek.trans le)

@[simp] theorem prog_zero_step : prog b 0 n = {b} := by
  ext x
  simp only [prog, smul_zero, add_zero, Set.mem_ofPred_eq, Set.mem_singleton_iff]
  exact ⟨fun ⟨_, _, eq⟩ => eq, fun eq => ⟨0, Nat.zero_le n, eq⟩⟩

@[simp] theorem prog_zero_count : prog b d 0 = {b} := by
  ext x
  simp [prog]

/-- A progression read from its last element. -/
theorem prog_reverse (b d : G) (n : ℕ) : prog (b + n • d) (-d) n = prog b d n := by
  ext x
  constructor
  · rintro ⟨k, le, rfl⟩
    refine ⟨n - k, Nat.sub_le n k, ?_⟩
    rw [smul_neg, add_assoc, ← sub_eq_add_neg, sub_nsmul d le]
    simp [sub_eq_add_neg]
  · rintro ⟨k, le, rfl⟩
    refine ⟨n - k, Nat.sub_le n k, ?_⟩
    rw [smul_neg, sub_nsmul d le]
    abel

theorem neg_mem_prog (h : x ∈ prog b d n) : -x ∈ prog (-b) (-d) n := by
  obtain ⟨k, le, rfl⟩ := h
  exact ⟨k, le, by rw [neg_add, smul_neg]⟩

/-- Two progressions whose steps are multiples of one step add up to a progression of
that step. -/
theorem add_mem_prog (hx : x ∈ prog b (p • g) m) (hy : y ∈ prog c (q • g) n) :
    x + y ∈ prog (b + c) g (m * p + n * q) := by
  obtain ⟨i, lei, rfl⟩ := hx
  obtain ⟨j, lej, rfl⟩ := hy
  refine ⟨i * p + j * q, Nat.add_le_add (Nat.mul_le_mul_right p lei) (Nat.mul_le_mul_right q lej), ?_⟩
  rw [add_smul, mul_smul, mul_smul]
  abel

/-- A progression inside one of a smaller step and an earlier start. -/
theorem prog_subset (le : q + n * p ≤ m) : prog (b + q • g) (p • g) n ⊆ prog b g m := by
  rintro x ⟨k, lek, rfl⟩
  refine ⟨q + k * p, (Nat.add_le_add_left (Nat.mul_le_mul_right p lek) q).trans le, ?_⟩
  rw [add_smul, mul_smul, add_assoc]

/-! ### Progressions that reach every multiple of their step -/

section Periodic

variable {N : ℕ}

/-- When `N` steps lead back, `N - 1` steps reach every multiple. -/
theorem nsmul_mem_of_period (pos : 0 < N) (period : N • g = 0) (k : ℕ) :
    b + k • g ∈ prog b g (N - 1) := by
  refine ⟨k % N, by have := Nat.mod_lt k pos; omega, ?_⟩
  conv_lhs => rw [← Nat.mod_add_div k N, add_smul, mul_comm, mul_smul, period, smul_zero, add_zero]

theorem zsmul_mem_of_period (pos : 0 < N) (period : N • g = 0) (z : ℤ) :
    b + z • g ∈ prog b g (N - 1) := by
  have nonneg : 0 ≤ z % N := Int.emod_nonneg z (by omega)
  have split : z • g = (z % N).toNat • g := by
    conv_lhs => rw [← Int.emod_add_mul_ediv z N, add_smul, mul_comm, mul_smul, natCast_zsmul,
      period, smul_zero, add_zero, ← Int.toNat_of_nonneg nonneg, natCast_zsmul]
  rw [split]
  exact nsmul_mem_of_period pos period _

/-- A sum of multiples of the step stays in a progression of the whole period. -/
theorem add_mem_of_period (pos : 0 < N) (period : N • g = 0) (hx : x ∈ prog b (p • g) m)
    (hy : y ∈ prog c (q • g) n) : x + y ∈ prog (b + c) g (N - 1) := by
  obtain ⟨k, -, eq⟩ := add_mem_prog hx hy
  rw [eq]
  exact nsmul_mem_of_period pos period k

end Periodic

/-- Steps below the order of the step tell the elements of a progression apart. -/
theorem add_nsmul_mem_prog_iff (lt : k < addOrderOf d) (ltn : n < addOrderOf d) :
    b + k • d ∈ prog b d n ↔ k ≤ n := by
  constructor
  · rintro ⟨j, le, eq⟩
    have same : k • d = j • d := add_left_cancel eq
    have := nsmul_inj_mod.mp same
    rw [Nat.mod_eq_of_lt lt, Nat.mod_eq_of_lt (le.trans_lt ltn)] at this
    omega
  · exact add_nsmul_mem

/-- A progression as short as that contains another one of its step, from its base or
some steps on, just when the last element is in. -/
theorem prog_subset_prog_iff (lt : m + 1 < addOrderOf g) (le : q ≤ m + 1) :
    prog (b + q • g) g n ⊆ prog b g m ↔ q + n ≤ m := by
  constructor
  · intro subset
    by_contra above
    have shift : m + 1 - q + q = m + 1 := Nat.sub_add_cancel le
    have next : b + (m + 1) • g ∈ prog b g m := by
      apply subset
      refine ⟨m + 1 - q, by omega, ?_⟩
      rw [add_assoc, ← add_smul, add_comm q, shift]
    have := (add_nsmul_mem_prog_iff lt (by omega)).mp next
    omega
  · intro le
    have inside := prog_subset (b := b) (g := g) (q := q) (p := 1) (n := n) (m := m) (by omega)
    rwa [one_smul] at inside

/-! ### Progressions of a step that reaches all -/

/-- Steps below the order of the step make a progression of that many elements. -/
theorem ncard_prog (ltn : n < addOrderOf d) : (prog b d n).ncard = n + 1 := by
  have image : prog b d n = (fun k => b + k • d) '' (Finset.range (n + 1) : Set ℕ) := by
    ext x
    constructor
    · rintro ⟨k, le, rfl⟩
      exact ⟨k, by simpa [Nat.lt_succ_iff] using le, rfl⟩
    · rintro ⟨k, mem, rfl⟩
      exact add_nsmul_mem (by simpa [Nat.lt_succ_iff] using mem)
  have injective : Set.InjOn (fun k => b + k • d) (Finset.range (n + 1) : Set ℕ) := by
    intro i hi j hj eq
    have hi : i < n + 1 := by simpa using hi
    have hj : j < n + 1 := by simpa using hj
    have same := nsmul_inj_mod.mp (add_left_cancel eq)
    rwa [Nat.mod_eq_of_lt (by omega), Nat.mod_eq_of_lt (by omega)] at same
  rw [image, injective.ncard_image, Set.ncard_coe_finset, Finset.card_range]

theorem step_mem (pos : 0 < n) : b + d ∈ prog b d n := ⟨1, pos, by rw [one_smul]⟩

/-- A step that leads back to a generator is prime to its order. -/
theorem coprime_of_mem (one : b + g ∈ prog b (q • g) n) : Nat.Coprime q (addOrderOf g) := by
  obtain ⟨k, -, eq⟩ := one
  have same : 1 • g = (k * q) • g := by
    rw [one_smul, mul_smul]
    exact add_left_cancel eq
  refine Nat.coprime_of_mul_modEq_one k ?_
  rw [mul_comm]
  exact (nsmul_inj_mod.mp same).symm

/-- A shorter step than the whole group that makes the same elements is the generator: with another one, there would be
an element before the end that the step takes out. -/
theorem eq_one_of_same (ltq : q < addOrderOf g) (short : m + 1 < addOrderOf g) (ne : m ≠ 0)
    (same : prog b g m = prog b (q • g) m) : q = 1 := by
  have coprime := coprime_of_mem (same ▸ step_mem (Nat.pos_of_ne_zero ne))
  have pos : q ≠ 0 := by
    rintro rfl
    rw [Nat.coprime_zero_left] at coprime
    omega
  by_contra other
  have leq : q ≤ m := by
    have one : b + q • g ∈ prog b g m := same ▸ step_mem (Nat.pos_of_ne_zero ne)
    exact (add_nsmul_mem_prog_iff ltq (by omega)).mp one
  -- an element after which a step leads out is the last one of the other progression
  have last : ∀ k ≤ m, m < k + q → k + q < addOrderOf g → k • g = m • q • g := by
    intro k lek out inside
    obtain ⟨j, lej, eq⟩ : b + k • g ∈ prog b (q • g) m := same ▸ add_nsmul_mem lek
    have eq := add_left_cancel eq
    rcases Nat.lt_or_eq_of_le lej with lt | rfl
    · have next : b + (k + q) • g ∈ prog b g m := by
        rw [same, add_smul, eq, ← succ_nsmul]
        exact add_nsmul_mem lt
      exact absurd ((add_nsmul_mem_prog_iff inside (by omega)).mp next) (by omega)
    · exact eq
  have first := last (m + 1 - q) (by omega) (by omega) (by omega)
  rcases Nat.lt_or_ge (m + 2) (addOrderOf g) with lt | ge
  · have second := last (m + 2 - q) (by omega) (by omega) (by omega)
    have twice := nsmul_inj_mod.mp (second.trans first.symm)
    rw [Nat.mod_eq_of_lt (by omega), Nat.mod_eq_of_lt (by omega)] at twice
    omega
  · -- only one element is missing
    have whole : (m + 1) • g = (m + 1) • q • g := by
      rw [succ_nsmul (q • g), ← first, ← add_smul, Nat.sub_add_cancel (by omega)]
    have back : ∀ x : G, addOrderOf g • x = 0 → (m + 1) • x = -x := by
      intro x zero
      rw [eq_neg_iff_add_eq_zero, ← succ_nsmul, show m + 1 + 1 = addOrderOf g by omega, zero]
    have zero : addOrderOf g • q • g = 0 := by rw [smul_comm, addOrderOf_nsmul_eq_zero, smul_zero]
    rw [back g (addOrderOf_nsmul_eq_zero g), back _ zero, neg_inj] at whole
    have mod := nsmul_inj_mod.mp ((one_smul ℕ g).trans whole)
    rw [Nat.mod_eq_of_lt (by omega), Nat.mod_eq_of_lt ltq] at mod
    exact other mod.symm

/-- When a progression of a generator is one of another step. -/
theorem prog_eq_prog_iff (ltq : q < addOrderOf g) (ltm : m < addOrderOf g) (ltn : n < addOrderOf g) :
    prog b g m = prog b (q • g) n ↔
      m = 0 ∧ (n = 0 ∨ q = 0) ∨ m ≠ 0 ∧ n = m ∧ (q = 1 ∨ m + 1 = addOrderOf g ∧ Nat.Coprime q (addOrderOf g)) := by
  constructor
  · intro same
    by_cases zero : m = 0
    · subst zero
      refine .inl ⟨rfl, ?_⟩
      by_contra other
      rw [not_or] at other
      have one : b + q • g ∈ prog b g 0 := same ▸ step_mem (Nat.pos_of_ne_zero other.1)
      rw [add_nsmul_mem_prog_iff ltq ltm] at one
      exact other.2 (Nat.le_zero.mp one)
    · have coprime := coprime_of_mem (same ▸ step_mem (Nat.pos_of_ne_zero zero))
      have order : addOrderOf (q • g) = addOrderOf g := coprime.symm.addOrderOf_nsmul
      have card := congrArg Set.ncard same
      rw [ncard_prog ltm, ncard_prog (order ▸ ltn)] at card
      obtain rfl : n = m := by omega
      refine .inr ⟨zero, rfl, ?_⟩
      rcases Nat.lt_or_ge (n + 1) (addOrderOf g) with short | long
      · exact .inl (eq_one_of_same ltq short zero same)
      · exact .inr ⟨by omega, coprime⟩
  · rintro (⟨rfl, rfl | rfl⟩ | ⟨zero, rfl, rfl | ⟨long, coprime⟩⟩)
    · rw [prog_zero_count, prog_zero_count]
    · rw [zero_smul, prog_zero_count, prog_zero_step]
    · rw [one_smul]
    · -- both reach all the multiples of the generator
      have pos : 0 < addOrderOf g := by omega
      have cycle : addOrderOf g • q • g = 0 := by rw [smul_comm, addOrderOf_nsmul_eq_zero, smul_zero]
      obtain ⟨r, -, inverse⟩ := Nat.exists_mul_mod_eq_one_of_coprime coprime (show 1 < addOrderOf g by omega)
      have back : g = r • q • g := by
        rw [← mul_smul, mul_comm, ← mod_addOrderOf_nsmul, inverse, one_smul]
      obtain rfl : n = addOrderOf g - 1 := by omega
      ext x
      constructor
      · rintro ⟨k, -, rfl⟩
        have reach := nsmul_mem_of_period (b := b) pos cycle (k * r)
        rwa [mul_smul, ← back] at reach
      · rintro ⟨k, -, rfl⟩
        rw [← mul_smul]
        exact nsmul_mem_of_period pos (addOrderOf_nsmul_eq_zero g) _

/-! ### Where two progressions of numbers meet

The progression of step `d` starts `D` after the one of step `e`; they meet at the
indices `k` with `e ∣ D + k * d`. -/

section Meeting

variable {D i j : ℕ} {d e : ℕ}

/-- Two progressions that meet do so within the first `e` indices. -/
theorem meets_mod (meets : e ∣ D + k * d) : e ∣ D + k % e * d := by
  have split : D + k * d = D + k % e * d + e * (k / e * d) := by
    conv_lhs => rw [← Nat.mod_add_div k e]
    ring
  rw [split] at meets
  exact (Nat.dvd_add_left (dvd_mul_right _ _)).mp meets

/-- From one meeting to another, the distance is a multiple of the lcm. -/
theorem lcm_dvd_of_meets (here : e ∣ D + j * d) (there : e ∣ D + k * d) :
    Nat.lcm d e ∣ (k - j) * d := by
  refine Nat.lcm_dvd (dvd_mul_left _ _) ?_
  have apart : D + k * d - (D + j * d) = (k - j) * d := by
    rw [Nat.add_sub_add_left, Nat.sub_mul]
  rw [← apart]
  exact Nat.dvd_sub there here

/-- The multiples of two steps up to a bound are the same just when the steps are, or
both steps are above the bound. -/
theorem multiples_iff {s : ℕ} (posD : 0 < d) (posE : 0 < e) :
    (∀ m ≤ s, (d ∣ m ↔ e ∣ m)) ↔ d = e ∨ (s < d ∧ s < e) := by
  constructor
  · intro same
    by_cases leD : d ≤ s
    · have dvd : e ∣ d := (same d leD).mp dvd_rfl
      have leE : e ≤ s := (Nat.le_of_dvd posD dvd).trans leD
      exact .inl (Nat.dvd_antisymm ((same e leE).mpr dvd_rfl) dvd)
    · by_cases leE : e ≤ s
      · have dvd : d ∣ e := (same e leE).mpr dvd_rfl
        exact absurd ((Nat.le_of_dvd posE dvd).trans leE) leD
      · exact .inr ⟨not_le.mp leD, not_le.mp leE⟩
  · rintro (rfl | ⟨aboveD, aboveE⟩) m le
    · exact Iff.rfl
    · rcases Nat.eq_zero_or_pos m with rfl | pos
      · exact iff_of_true (dvd_zero d) (dvd_zero e)
      · exact iff_of_false (Nat.not_dvd_of_pos_of_lt pos (le.trans_lt aboveD))
          (Nat.not_dvd_of_pos_of_lt pos (le.trans_lt aboveE))

end Meeting

end Otawa.Progression
