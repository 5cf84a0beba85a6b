import Mathlib.Algebra.BigOperators.Group.Finset.Piecewise

/-!
# Occurrences of a list in another one

The occurrences, which may overlap, are counted by the places where they begin. Each of them is continued by one
element, or is at the end (`occurrences_eq_sum`).
-/

namespace Otawa

universe u

variable {α : Type u} [DecidableEq α] {l w p : List α} {a x : α}

def occurrences (w p : List α) : ℕ :=
  w.tails.countP fun rest => p.isPrefixOf rest

theorem occurrences_nil (hp : p ≠ []) : occurrences [] p = 0 := by
  refine List.countP_eq_zero.mpr fun rest hrest => ?_
  rw [List.mem_singleton.mp hrest, List.isPrefixOf_iff_prefix, List.prefix_nil]
  exact hp

theorem occurrences_cons : occurrences (a :: w) p = occurrences w p + if p <+: a :: w then 1 else 0 := by
  rw [occurrences, List.tails_cons, List.countP_cons, occurrences]
  simp only [List.isPrefixOf_iff_prefix]

theorem occurrences_append_le (w p q : List α) : occurrences w (p ++ q) ≤ occurrences w p := by
  refine List.countP_mono_left fun rest _ h => ?_
  rw [List.isPrefixOf_iff_prefix] at h ⊢
  exact (List.prefix_append p q).trans h

theorem occurrences_tail_le (w p : List α) : occurrences w.tail p ≤ occurrences w p := by
  cases w with
  | nil => exact Nat.le_refl _
  | cons b w =>
    rw [List.tail_cons, occurrences_cons]
    exact Nat.le_add_right _ _

/-- An occurrence of `a :: p` is one of `p` at the next place. -/
theorem occurrences_cons_le_tail (w : List α) (a : α) (hp : p ≠ []) :
    occurrences w (a :: p) ≤ occurrences w.tail p := by
  induction w with
  | nil =>
    rw [occurrences_nil (List.cons_ne_nil a p)]
    exact Nat.zero_le _
  | cons b w ih =>
    rw [occurrences_cons, List.tail_cons]
    by_cases hpre : a :: p <+: b :: w
    · obtain ⟨-, hpre'⟩ := List.cons_prefix_cons.mp hpre
      cases w with
      | nil => exact absurd (List.prefix_nil.mp hpre') hp
      | cons c w =>
        have hnext : occurrences (c :: w) p = occurrences w p + 1 := by rw [occurrences_cons, if_pos hpre']
        rw [if_pos hpre, hnext]
        exact Nat.succ_le_succ ih
    · rw [if_neg hpre, Nat.add_zero]
      exact ih.trans (occurrences_tail_le w p)

theorem occurrences_cons_le (w : List α) (a : α) (hp : p ≠ []) : occurrences w (a :: p) ≤ occurrences w p :=
  (occurrences_cons_le_tail w a hp).trans (occurrences_tail_le w p)

/-- What is before the last elements does not add occurrences. -/
theorem occurrences_prepend_le (w q : List α) (hp : p ≠ []) : occurrences w (q ++ p) ≤ occurrences w p := by
  induction q with
  | nil => exact Nat.le_refl _
  | cons a q ih => exact (occurrences_cons_le w a (List.append_ne_nil_of_right_ne_nil q hp)).trans ih

/-- A prefix is continued by one element, or is the whole list. -/
theorem prefix_eq_sum {S : Finset α} (hS : ∀ x, p ++ [x] <+: l → x ∈ S) :
    (if p <+: l then 1 else 0) = (∑ x ∈ S, if p ++ [x] <+: l then 1 else 0) + if p = l then 1 else 0 := by
  by_cases hpre : p <+: l
  · obtain ⟨t, rfl⟩ := hpre
    simp only [List.prefix_append_right_inj]
    cases t with
    | nil => simp
    | cons y t =>
      have hy : y ∈ S := hS y ((List.prefix_append_right_inj p).mpr (List.prefix_append [y] t))
      simp [hy]
  · have hnone : ∀ x ∈ S, (if p ++ [x] <+: l then 1 else 0) = 0 := fun x _ =>
      if_neg fun h => hpre ((List.prefix_append p [x]).trans h)
    rw [if_neg hpre, Finset.sum_eq_zero hnone, if_neg fun heq : p = l => hpre (heq ▸ List.prefix_refl p)]

/-- The occurrences that are not at the end are continued. -/
theorem occurrences_eq_sum {S : Finset α} (hp : p ≠ []) (hS : ∀ x, p ++ [x] <:+: w → x ∈ S) :
    occurrences w p = (∑ x ∈ S, occurrences w (p ++ [x])) + if p <:+ w then 1 else 0 := by
  induction w with
  | nil =>
    have hnone : ∀ x ∈ S, occurrences [] (p ++ [x]) = 0 := fun x _ =>
      occurrences_nil (List.append_ne_nil_of_left_ne_nil hp [x])
    rw [occurrences_nil hp, Finset.sum_eq_zero hnone, if_neg fun h => hp (List.suffix_nil.mp h)]
  | cons a w ih =>
    have hpre := prefix_eq_sum (l := a :: w) fun x h => hS x h.isInfix
    have hsuf : (if p <:+ a :: w then 1 else 0) = (if p <:+ w then 1 else 0) + if p = a :: w then 1 else 0 := by
      by_cases heq : p = a :: w
      · have hnot : ¬a :: w <:+ w := fun h => Nat.not_succ_le_self _ h.length_le
        rw [if_pos heq, heq, if_pos (List.suffix_refl _), if_neg hnot]
      · rw [if_neg heq, Nat.add_zero]
        exact if_congr (by rw [List.suffix_cons_iff, or_iff_right heq]) rfl rfl
    simp only [occurrences_cons]
    rw [ih fun x h => hS x (h.trans (List.infix_cons_iff.mpr (.inr (List.infix_refl w)))), hpre, hsuf,
      Finset.sum_add_distrib]
    omega

end Otawa
