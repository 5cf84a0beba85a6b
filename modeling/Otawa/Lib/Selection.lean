import Mathlib.Data.List.TakeWhile

/-!
# Selected items of a list

The items up to the first one that is not selected are all the selected ones only when none is selected after it. When
the lists that are put together are parts of others, no item is lost only if each is the whole.
-/

namespace Otawa.Lib

variable {α β : Type} {q : α → Bool} {l : List α}

theorem takeWhile_sublist_filter (q : α → Bool) (l : List α) : (l.takeWhile q).Sublist (l.filter q) := by
  have hself : (l.takeWhile q).filter q = l.takeWhile q :=
    List.filter_eq_self.mpr fun _ ha => List.mem_takeWhile_imp ha
  rw [← hself]
  exact (List.takeWhile_sublist q).filter q

theorem takeWhile_eq_filter_iff : l.takeWhile q = l.filter q ↔ l.Pairwise fun a b => q b = true → q a = true := by
  induction l with
  | nil => exact iff_of_true rfl .nil
  | cons a l ih =>
    by_cases ha : q a = true
    · rw [List.takeWhile_cons_of_pos ha, List.filter_cons_of_pos ha, List.pairwise_cons, List.cons_inj_right, ih]
      exact ⟨fun h => ⟨fun _ _ _ => ha, h⟩, fun h => h.2⟩
    · rw [List.takeWhile_cons_of_neg ha, List.filter_cons_of_neg ha, List.pairwise_cons, eq_comm,
        List.filter_eq_nil_iff]
      constructor
      · intro hnone
        refine ⟨fun b hb hqb => absurd hqb (hnone b hb), ?_⟩
        exact List.pairwise_of_forall_mem_list fun b _ c hc hqc => absurd hqc (hnone c hc)
      · rintro ⟨hnone, -⟩ b hb hqb
        exact ha (hnone b hb hqb)

theorem length_flatMap_le {parts whole : α → List β} (hpart : ∀ a ∈ l, (parts a).Sublist (whole a)) :
    (l.flatMap parts).length ≤ (l.flatMap whole).length := by
  induction l with
  | nil => exact Nat.le_refl _
  | cons a l ih =>
    obtain ⟨ha, hl⟩ := List.forall_mem_cons.mp hpart
    rw [List.flatMap_cons, List.flatMap_cons, List.length_append, List.length_append]
    exact Nat.add_le_add ha.length_le (ih hl)

/-- Parts that are as long as the whole lists are these. -/
theorem eq_of_length_flatMap_le {parts whole : α → List β} (hpart : ∀ a ∈ l, (parts a).Sublist (whole a))
    (hlength : (l.flatMap whole).length ≤ (l.flatMap parts).length) : ∀ a ∈ l, parts a = whole a := by
  induction l with
  | nil => exact fun a ha => absurd ha List.not_mem_nil
  | cons a l ih =>
    obtain ⟨ha, hl⟩ := List.forall_mem_cons.mp hpart
    have hlea := ha.length_le
    have hlel := length_flatMap_le hl
    rw [List.flatMap_cons, List.flatMap_cons, List.length_append, List.length_append] at hlength
    exact List.forall_mem_cons.mpr ⟨ha.eq_of_length_le (by omega), ih hl (by omega)⟩

end Otawa.Lib
