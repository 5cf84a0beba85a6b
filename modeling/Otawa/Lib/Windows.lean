import Mathlib.Algebra.BigOperators.Group.List.Basic
import Mathlib.Data.List.Infix
import Mathlib.Tactic.Abel

/-!
# Sums over windows

The windows of a list are its parts without a gap, one for each first and last place. What a value of a list is
more than what its parts without the last element and without the first one give is its excess; the value is the
sum of the excesses of all windows (`sum_excess`).
-/

namespace Otawa

universe u v

variable {α : Type u} {G : Type v} [AddCommGroup G]

/-- The windows that are not empty: the ones that begin with the first element, then the ones after it. -/
def windows : List α → List (List α)
  | [] => []
  | a :: l => l.inits.map (a :: ·) ++ windows l

/-- What the value of a list is more than what its two parts with one element less give. -/
def excess (value : List α → G) (w : List α) : G :=
  value w - value w.dropLast - value w.tail + value w.tail.dropLast

variable {value : List α → G}

/-- The windows that begin with `a`. -/
theorem sum_excess_inits (nil : value [] = 0) (a : α) (l : List α) :
    ((l.inits.map (a :: ·)).map (excess value)).sum = value (a :: l) - value l := by
  induction l using List.reverseRecOn with
  | nil => simp [excess, nil]
  | append_singleton l b ih =>
    have last : excess value (a :: (l ++ [b])) = value (a :: (l ++ [b])) - value (a :: l) - value (l ++ [b]) + value l := by
      rw [excess, ← List.cons_append, List.dropLast_concat, List.cons_append, List.tail_cons, List.dropLast_concat]
    have one : (l ++ [b]).inits = l.inits ++ [l ++ [b]] := List.inits_append l [b]
    rw [one, List.map_append, List.map_append, List.sum_append, ih, List.map_singleton, List.map_singleton,
      List.sum_singleton, last]
    abel

/-- The value of a list is the sum of the excesses of its windows. -/
theorem sum_excess (nil : value [] = 0) (l : List α) : ((windows l).map (excess value)).sum = value l := by
  induction l with
  | nil => exact nil.symm
  | cons a l ih =>
    rw [windows, List.map_append, List.sum_append, sum_excess_inits nil, ih]
    exact sub_add_cancel _ _

/-- The windows of one element are the elements. -/
theorem sum_windows_split (f : List α → G) (l : List α) :
    ((windows l).map f).sum = (((windows l).filter (2 ≤ ·.length)).map f).sum + (l.map fun a => f [a]).sum := by
  induction l with
  | nil => simp [windows]
  | cons a l ih =>
    obtain ⟨more, inits⟩ : ∃ more, l.inits = [] :: more ∧ ∀ t ∈ more, t ≠ [] := by
      cases l with
      | nil => exact ⟨[], rfl, List.forall_mem_nil _⟩
      | cons b l => exact ⟨_, List.inits_cons b l, by simp⟩
    have long : (more.map (a :: ·)).filter (2 ≤ ·.length) = more.map (a :: ·) := by
      rw [List.filter_eq_self]
      intro w mem
      obtain ⟨t, own, rfl⟩ := List.mem_map.mp mem
      have := List.length_pos_iff.mpr (inits.2 t own)
      rw [decide_eq_true_eq, List.length_cons]
      omega
    rw [windows, inits.1, List.map_cons, List.cons_append, List.map_cons, List.sum_cons, List.map_append, List.sum_append,
      ih, List.filter_cons_of_neg (by simp), List.filter_append, long, List.map_append, List.sum_append, List.map_cons,
      List.sum_cons]
    abel

end Otawa
