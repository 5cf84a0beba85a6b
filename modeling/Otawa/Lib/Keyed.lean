import Mathlib.Data.List.Induction
import Mathlib.Order.Lattice

/-!
# Sorted lists of keyed items

The items of a map in the order of their keys, with the insertion that replaces an item of the same key.
-/

namespace Otawa.Keyed

universe u v

variable {α : Type u} {K : Type v} [LinearOrder K] {key : α → K} {l : List α} {a item : α}

def put (key : α → K) (item : α) : List α → List α
  | [] => [item]
  | a :: l =>
    if key item < key a then item :: a :: l
    else if key a < key item then a :: put key item l
    else item :: l

/-- The keys increase. -/
def Sorted (key : α → K) (l : List α) : Prop :=
  l.Pairwise fun a b => key a < key b

theorem Sorted.nil : Sorted key ([] : List α) := List.Pairwise.nil

theorem mem_put (h : Sorted key l) : a ∈ put key item l ↔ a = item ∨ (a ∈ l ∧ key a ≠ key item) := by
  induction l with
  | nil => simp [put]
  | cons b l ih =>
    obtain ⟨hfirst, hrest⟩ := List.pairwise_cons.mp h
    rw [put]
    split
    case isTrue hlt =>
      have hne : ∀ c ∈ b :: l, key c ≠ key item := by
        intro c hc
        rcases List.mem_cons.mp hc with rfl | hc
        · exact hlt.ne'
        · exact (hlt.trans (hfirst c hc)).ne'
      rw [List.mem_cons]
      exact or_congr_right (iff_self_and.mpr fun hmem => hne a hmem)
    case isFalse hle =>
      split
      case isTrue hlt =>
        rw [List.mem_cons, List.mem_cons, ih hrest]
        constructor
        · rintro (rfl | rfl | ⟨hmem, hne⟩)
          · exact .inr ⟨.inl rfl, hlt.ne⟩
          · exact .inl rfl
          · exact .inr ⟨.inr hmem, hne⟩
        · rintro (rfl | ⟨rfl | hmem, hne⟩)
          · exact .inr (.inl rfl)
          · exact .inl rfl
          · exact .inr (.inr ⟨hmem, hne⟩)
      case isFalse hge =>
        have heq : key b = key item := le_antisymm (not_lt.mp hle) (not_lt.mp hge)
        rw [List.mem_cons, List.mem_cons]
        constructor
        · rintro (rfl | hmem)
          · exact .inl rfl
          · exact .inr ⟨.inr hmem, (heq ▸ hfirst a hmem).ne'⟩
        · rintro (rfl | ⟨rfl | hmem, hne⟩)
          · exact .inl rfl
          · exact absurd heq hne
          · exact .inr hmem

theorem Sorted.put (h : Sorted key l) (item : α) : Sorted key (put key item l) := by
  induction l with
  | nil => exact List.pairwise_singleton _ _
  | cons b l ih =>
    obtain ⟨hfirst, hrest⟩ := List.pairwise_cons.mp h
    rw [Keyed.put]
    split
    case isTrue hlt =>
      refine List.pairwise_cons.mpr ⟨fun c hc => ?_, h⟩
      rcases List.mem_cons.mp hc with rfl | hc
      · exact hlt
      · exact hlt.trans (hfirst c hc)
    case isFalse hle =>
      split
      case isTrue hlt =>
        refine List.pairwise_cons.mpr ⟨fun c hc => ?_, ih hrest⟩
        rcases (mem_put hrest).mp hc with rfl | ⟨hc, -⟩
        · exact hlt
        · exact hfirst c hc
      case isFalse hge =>
        have heq : key b = key item := le_antisymm (not_lt.mp hle) (not_lt.mp hge)
        exact List.pairwise_cons.mpr ⟨fun c hc => heq ▸ hfirst c hc, hrest⟩

/-- The items put one after the other. -/
def putAll (key : α → K) (items : List α) : List α :=
  items.foldl (fun l item => put key item l) []

theorem putAll_append (items : List α) (item : α) : putAll key (items ++ [item]) = put key item (putAll key items) := by
  rw [putAll, List.foldl_append]
  rfl

theorem sorted_putAll (key : α → K) (items : List α) : Sorted key (putAll key items) := by
  induction items using List.reverseRecOn with
  | nil => exact .nil
  | append_singleton items item ih =>
    rw [putAll_append]
    exact ih.put item

theorem length_put_le (item : α) (l : List α) : (put key item l).length ≤ l.length + 1 := by
  induction l with
  | nil => exact Nat.le_refl _
  | cons b l ih =>
    rw [put]
    split
    case isTrue => exact Nat.le_refl _
    case isFalse =>
      split
      case isTrue => exact Nat.succ_le_succ ih
      case isFalse => exact Nat.le_succ _

theorem length_putAll_le (key : α → K) (items : List α) : (putAll key items).length ≤ items.length := by
  induction items using List.reverseRecOn with
  | nil => exact Nat.le_refl _
  | append_singleton items item ih =>
    rw [putAll_append, List.length_append, List.length_singleton]
    exact Nat.le_trans (length_put_le item _) (Nat.succ_le_succ ih)

/-- The items that are there are the last ones of their keys. -/
theorem mem_putAll (items : List α) :
    a ∈ putAll key items ↔ ∃ before after, items = before ++ a :: after ∧ ∀ b ∈ after, key b ≠ key a := by
  induction items using List.reverseRecOn with
  | nil => simp [putAll]
  | append_singleton items item ih =>
    rw [putAll_append, mem_put (sorted_putAll key items), ih]
    constructor
    · rintro (rfl | ⟨⟨before, after, rfl, hafter⟩, hne⟩)
      · exact ⟨items, [], rfl, fun b hb => absurd hb List.not_mem_nil⟩
      · refine ⟨before, after ++ [item], by simp, fun b hb => ?_⟩
        rcases List.mem_append.mp hb with hb | hb
        · exact hafter b hb
        · rw [List.mem_singleton.mp hb]
          exact hne.symm
    · rintro ⟨before, after, heq, hafter⟩
      rcases List.eq_nil_or_concat after with rfl | ⟨after, last, rfl⟩
      · exact .inl (List.head_eq_of_cons_eq (List.append_inj_right' heq rfl)).symm
      · rw [List.concat_eq_append, ← List.cons_append, ← List.append_assoc] at heq
        obtain ⟨hitems, hlast⟩ := List.append_inj' heq rfl
        obtain rfl := List.head_eq_of_cons_eq hlast
        rw [List.concat_eq_append] at hafter
        refine .inr ⟨⟨before, after, hitems, fun b hb => hafter b (List.mem_append_left _ hb)⟩, ?_⟩
        exact (hafter item (List.mem_append_right _ List.mem_cons_self)).symm

theorem mem_map_putAll {k : K} (items : List α) : k ∈ (putAll key items).map key ↔ k ∈ items.map key := by
  induction items using List.reverseRecOn with
  | nil => rfl
  | append_singleton items item ih =>
    rw [putAll_append, List.map_append, List.mem_append, ← ih, List.map_singleton, List.mem_singleton]
    simp only [List.mem_map, mem_put (sorted_putAll key items)]
    constructor
    · rintro ⟨a, rfl | ⟨hmem, -⟩, rfl⟩
      · exact .inr rfl
      · exact .inl ⟨a, hmem, rfl⟩
    · rintro (⟨a, hmem, rfl⟩ | rfl)
      · by_cases heq : key a = key item
        · exact ⟨item, .inl rfl, heq.symm⟩
        · exact ⟨a, .inr ⟨hmem, heq⟩, rfl⟩
      · exact ⟨item, .inl rfl, rfl⟩

/-- Items with different keys are all there. -/
theorem mem_putAll_of_distinct {items : List α} (h : items.Pairwise fun a b => key a ≠ key b) :
    a ∈ putAll key items ↔ a ∈ items := by
  rw [mem_putAll]
  constructor
  · rintro ⟨before, after, rfl, -⟩
    exact List.mem_append_right before List.mem_cons_self
  · intro ha
    obtain ⟨before, after, rfl⟩ := List.append_of_mem ha
    refine ⟨before, after, rfl, fun b hb => ?_⟩
    exact ((List.pairwise_cons.mp (List.pairwise_append.mp h).2.1).1 b hb).symm

end Otawa.Keyed
