import Otawa.Cache.May
import Mathlib.Data.Finset.Card
import Mathlib.Data.List.TakeWhile

/-!
# The ages of the MAY cache problem

An age is -1 or goes from 0 to `A - 1`. A miss evicts what gets the age `A`; a hit does not, and it ages a block of
age `A - 1` that is as old as the accessed block or, when it is numbered after it, one step older. `ages_in_range_iff`
says that the ages are in range exactly where no hit does that (`Domain.KeepsBelow`). Then a block is evicted after
accesses to `A` other ones, as its age is no less than the number of blocks accessed since (`Tracks`).
-/

namespace Otawa.MAYProblem

open Otawa.Cache Otawa.Analysis

variable {A size : Nat}

namespace Domain

/-- Ages go from 0 for the newest block to `A - 1`, or are -1. -/
def InRange (d : Domain A size) : Prop :=
  ∀ i, d.age i = -1 ∨ 0 ≤ d.age i ∧ d.age i < A

/-- A hit ages no other block of the age `A - 1`. -/
def KeepsBelow (d : Domain A size) (id : Fin size) : Prop :=
  d.contains id → ∀ i, d.age i = A - 1 → (i < id → d.age id < A - 1) ∧ (id < i → d.age id < A - 2)

instance (d : Domain A size) : Decidable d.InRange :=
  inferInstanceAs (Decidable (∀ i, d.age i = -1 ∨ 0 ≤ d.age i ∧ d.age i < A))

variable {d dom : Domain A size} {id i : Fin size}

theorem inRange_iff : d.InRange ↔ ∀ i, d.age i < A := by
  refine forall_congr' fun i => ?_
  have := d.absent_le i
  omega

theorem inRange_empty : (empty A size).InRange := fun _ => .inl rfl

theorem InRange.lub (h : d.InRange) (h' : dom.InRange) : (d.lub dom).InRange := by
  intro i
  unfold Domain.lub
  dsimp only
  split
  · exact h' i
  · exact h i

/-- A miss evicts the blocks of age `A - 1`. -/
theorem InRange.ageAll_lt (h : d.InRange) (pos : 0 < A) (i : Fin size) : ageAll A (d.age i) < A := by
  have := h i
  simp only [ageAll]
  split <;> split <;> omega

/-- The access keeps the ages in range exactly if it is a miss or ages no block of age `A - 1`. -/
theorem InRange.inject_iff (h : d.InRange) (pos : 0 < A) : (d.inject id).InRange ↔ d.KeepsBelow id := by
  rw [inRange_iff]
  by_cases hit : d.contains id
  · have nonneg := Ages.contains_iff_nonneg.mp hit
    constructor
    · intro inRange _ i oldest
      constructor
      · intro lt
        have after := inRange i
        rw [inject_age_of_ne d (Fin.ne_of_lt lt), if_pos hit, if_pos (Fin.le_of_lt lt)] at after
        unfold ageUpTo at after
        split at after <;> omega
      · intro lt
        have after := inRange i
        rw [inject_age_of_ne d (Fin.ne_of_gt lt), if_pos hit, if_neg (not_le.mpr lt)] at after
        unfold ageUpTo at after
        split at after <;> omega
    · intro keeps i
      by_cases eq : i = id
      · rw [eq, inject_age_self]
        omega
      rw [inject_age_of_ne d eq, if_pos hit]
      have before := h i
      have oldest := keeps hit i
      unfold ageUpTo
      rcases lt_or_gt_of_ne eq with lt | lt
      · rw [if_pos (Fin.le_of_lt lt)]
        split
        · have := fun last => (oldest last).1 lt
          omega
        · omega
      · rw [if_neg (not_le.mpr lt)]
        split
        · have := fun last => (oldest last).2 lt
          omega
        · omega
  · refine iff_of_true (fun i => ?_) fun contained => absurd contained hit
    by_cases eq : i = id
    · rw [eq, inject_age_self]
      omega
    · rw [inject_age_of_ne d eq, if_neg hit]
      exact h.ageAll_lt pos i

end Domain

/-! ### Eviction -/

/-- The blocks accessed since the last access to a block. -/
def since (h : List (Fin size)) (i : Fin size) : Finset (Fin size) :=
  (h.reverse.takeWhile (· ≠ i)).toFinset

variable {h : List (Fin size)} {d : Domain A size} {i id : Fin size}

theorem since_self (h : List (Fin size)) (i : Fin size) : since (h ++ [i]) i = ∅ := by
  simp [since]

theorem since_of_ne (h : List (Fin size)) (ne : id ≠ i) : since (h ++ [id]) i = insert id (since h i) := by
  simp [since, ne]

theorem subset_since {before after : List (Fin size)} (out : i ∉ after) :
    after.toFinset ⊆ since (before ++ after) i := by
  intro x mem
  have kept : ∀ y ∈ after.reverse, decide (y ≠ i) = true := by
    intro y mem
    rw [decide_eq_true_eq]
    rintro rfl
    exact out (List.mem_reverse.mp mem)
  unfold since
  rw [List.reverse_append, List.takeWhile_append_of_pos kept, List.mem_toFinset]
  exact List.mem_append_left _ (List.mem_reverse.mpr (List.mem_toFinset.mp mem))

/-- A block accessed before the last access to another one has all of its accesses behind it. -/
theorem since_subset (accessed : id ∈ h) (ne : i ≠ id) (older : id ∉ since h i) :
    insert i (since h i) ⊆ since h id := by
  unfold since at *
  rw [← List.mem_reverse] at accessed
  rw [List.mem_toFinset] at older
  generalize h.reverse = l at *
  induction l with
  | nil => exact absurd accessed List.not_mem_nil
  | cons a l ih =>
    by_cases last : a = i
    · subst last
      simp [ne]
    · have first : a ≠ id := by
        rintro rfl
        exact older (by simp [last])
      have goes : ∀ {j}, a ≠ j → (a :: l).takeWhile (· ≠ j) = a :: l.takeWhile (· ≠ j) :=
        fun ne => List.takeWhile_cons_of_pos (decide_eq_true ne)
      rw [goes last] at older ⊢
      rw [goes first]
      have rest := ih ((List.mem_cons.mp accessed).resolve_left (Ne.symm first)) (mt (List.mem_cons_of_mem a) older)
      rw [List.toFinset_cons, List.toFinset_cons]
      rw [Finset.insert_comm]
      exact Finset.insert_subset_insert a rest

/-- The age of a block is no less than the number of blocks accessed since. -/
structure Tracks (h : List (Fin size)) (d : Domain A size) : Prop where
  accessed : ∀ i, d.contains i → i ∈ h
  card_le : ∀ i, d.contains i → (since h i).card ≤ d.age i

theorem Tracks.contains_of_inject (ne : i ≠ id) (after : (d.inject id).contains i) : d.contains i := by
  unfold Ages.contains at *
  intro absent
  rw [Domain.inject_age_of_ne d ne, absent] at after
  split at after
  · simp [Domain.ageUpTo] at after
  · simp [Domain.ageAll] at after

theorem Tracks.inject (tracks : Tracks h d) : Tracks (h ++ [id]) (d.inject id) := by
  constructor
  · intro i after
    by_cases eq : i = id
    · rw [eq]
      exact List.mem_append_right h List.mem_cons_self
    · exact List.mem_append_left _ (tracks.accessed i (contains_of_inject eq after))
  · intro i after
    by_cases eq : i = id
    · rw [eq, since_self, Domain.inject_age_self]
      exact le_of_eq rfl
    have before := contains_of_inject eq after
    have card := tracks.card_le i before
    rw [since_of_ne h (Ne.symm eq)]
    have le := Finset.card_insert_le id (since h i)
    unfold Ages.contains at after
    rw [Domain.inject_age_of_ne d eq] at after ⊢
    by_cases hit : d.contains id
    · rw [if_pos hit]
      by_cases younger : id ∈ since h i
      · rw [Finset.insert_eq_of_mem younger]
        unfold Domain.ageUpTo
        split <;> omega
      · -- the accessed block is the older one, so its age is above the number of blocks since the other one
        have older := Finset.card_le_card (since_subset (tracks.accessed id hit) eq younger)
        have fresh : i ∉ since h i := by
          unfold since
          rw [List.mem_toFinset]
          intro mem
          simpa using List.mem_takeWhile_imp mem
        rw [Finset.card_insert_of_notMem fresh] at older
        have last := tracks.card_le id hit
        unfold Domain.ageUpTo
        split <;> split <;> omega
    · rw [if_neg hit] at after ⊢
      have stays : d.age i ≠ -1 := before
      simp only [Domain.ageAll, if_pos stays] at after ⊢
      split at after
      · exact absurd rfl after
      · rename_i evicted
        rw [if_neg evicted]
        omega

theorem tracks_line (h : List (Fin size)) : Tracks h ((Run.line h).eval (transfer (Domain.empty A size))) := by
  induction h using List.reverseRecOn with
  | nil => exact ⟨fun i contained => absurd rfl contained, fun i contained => absurd rfl contained⟩
  | append_singleton h id ih =>
    rw [Run.line_concat]
    exact ih.inject

/-! ### All states of a run -/

/-- On a straight-line run a block is not contained after accesses to `A` other blocks since its last access. -/
def Evicts (A : Nat) (r : Run (Fin size)) : Prop :=
  ∀ before after i, r = Run.line (before ++ after) → i ∉ after → A ≤ after.toFinset.card →
    ¬ (r.eval (transfer (Domain.empty A size))).contains i

/-- What is said of the ages of a state that a run reaches from the empty one. -/
def AgeInvariant (A : Nat) (r : Run (Fin size)) : Prop :=
  (r.eval (transfer (Domain.empty A size))).InRange ∧ Evicts A r

theorem evicts_of_inRange {r : Run (Fin size)} (inRange : (r.eval (transfer (Domain.empty A size))).InRange) :
    Evicts A r := by
  rintro before after i rfl out distinct contained
  have card := (tracks_line (before ++ after)).card_le i contained
  have le : after.toFinset.card ≤ (since (before ++ after) i).card := Finset.card_le_card (subset_since out)
  have lt := Domain.inRange_iff.mp inRange i
  omega

/-- The ages of all states of a run are in range, and blocks are evicted in time, exactly where no hit ages a block of
age `A - 1`. -/
theorem ages_in_range_iff (pos : 1 ≤ A) (r : Run (Fin size)) : (∀ p, Run.Part p r → AgeInvariant A p) ↔
    r.Within (transfer (Domain.empty A size)) Domain.KeepsBelow fun _ _ => True := by
  rw [← Run.forall_part_iff Domain.InRange Domain.inRange_empty Domain.inRange_empty
    (fun d id inRange => inRange.inject_iff pos) (fun d dom inRange inRange' => inRange.lub inRange')]
  exact forall₂_congr fun p _ => and_iff_left_of_imp evicts_of_inRange

/-- Two ways, accesses to 0 and 1: no hit. -/
theorem ages_in_range_misses : (∀ p, Run.Part p (Run.line [(0 : Fin 2), 1]) → AgeInvariant 2 p) ↔
    (Run.line [(0 : Fin 2), 1]).Within (transfer (Domain.empty 2 2)) Domain.KeepsBelow fun _ _ => True :=
  ages_in_range_iff (by decide) _

/-- Two ways, accesses to 1, 0 and 0: the hit gives the block 1 the age 2. -/
theorem age_out_of_range :
    ¬ ∀ (A : Nat), 1 ≤ A → ∀ r : Run (Fin 2), AgeInvariant A r := by
  intro invariant
  exact absurd (invariant 2 (by decide) (Run.line [1, 0, 0])).1 (by decide)

end Otawa.MAYProblem
