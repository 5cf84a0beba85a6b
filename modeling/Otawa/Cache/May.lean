import Otawa.Cache.Ages
import Otawa.Lib.Run
import Otawa.Lib.Sweep
import Mathlib.Algebra.Ring.Nat

/-!
# The MAY cache problem

`MAYProblem::Domain` records for each block that may be in the set a lower bound of
its position. On a hit, `inject` means to age the blocks that are younger than the
accessed block or as old as it; but its loop runs in place, ages the accessed block
itself when it comes to it, and compares the blocks numbered after it with that
larger age. A block one step older, numbered after the accessed block, is aged as
well (`Domain.inject_age_of_gt`) and its recorded age is then no lower bound any
more (`not_lower_bound_after_repeated_hit`).

`run_lower_bounds` is the soundness of the runs that never age such a block.
-/

namespace Otawa.MAYProblem

open Otawa.Cache Otawa.Lru Otawa.Loop Otawa.Analysis

/-- Ages go from 0 for the newest block to `A - 1`; -1 is a block out of the set. -/
structure Domain (A size : Nat) extends Ages size

namespace Domain

variable {A size : Nat}

/-- The state after `empty()`, which is also the one of the constructor. -/
def empty (A size : Nat) : Domain A size := ⟨Ages.empty size⟩

def lub (d dom : Domain A size) : Domain A size where
  age i := if (d.age i > dom.age i ∧ dom.age i ≠ -1) ∨ d.age i = -1 then dom.age i else d.age i
  absent_le i := by
    split
    · exact dom.absent_le i
    · exact d.absent_le i

/-- The body of the first loop of `inject`, for the age `own` of a block and the age
`accessed` of the accessed one. -/
def ageUpTo (accessed own : Int) : Int := if own ≤ accessed ∧ own ≠ -1 then own + 1 else own

/-- The body of the second loop of `inject`, with the age `A` left to -1. -/
def ageAll (A : Nat) (own : Int) : Int :=
  let own := if own ≠ -1 then own + 1 else own
  if own = A then -1 else own

theorem absent_le_ageUpTo {accessed own : Int} (h : -1 ≤ own) : -1 ≤ ageUpTo accessed own := by
  unfold ageUpTo
  split <;> omega

theorem absent_le_ageAll {own : Int} (h : -1 ≤ own) : -1 ≤ ageAll A own := by
  simp only [ageAll]
  split <;> split <;> omega

/-- The ages after the loops of `inject`, before the accessed block gets age 0. -/
def aged (d : Domain A size) (id : Fin size) : Fin size → Int :=
  if d.contains id then sweep (fun age i => ageUpTo (age id) (age i)) d.age
  else sweep (fun age i => ageAll A (age i)) d.age

/-- The blocks numbered after the accessed one are compared with its age plus one. -/
theorem aged_apply (d : Domain A size) (id i : Fin size) : d.aged id i =
    if d.contains id then ageUpTo (if i ≤ id then d.age id else d.age id + 1) (d.age i)
    else ageAll A (d.age i) := by
  unfold aged
  by_cases hit : d.contains id
  · have own : ageUpTo (d.age id) (d.age id) = d.age id + 1 := if_pos ⟨Int.le_refl _, hit⟩
    rw [if_pos hit, if_pos hit, sweep_keyed, own, apply_ite (ageUpTo · (d.age i))]
  · rw [if_neg hit, if_neg hit, sweep_pointwise]

def inject (d : Domain A size) (id : Fin size) : Domain A size where
  age := Function.update (d.aged id) id 0
  absent_le i := by
    by_cases eq : i = id
    · simp [eq]
    · rw [Function.update_of_ne eq, aged_apply]
      split
      · exact absent_le_ageUpTo (d.absent_le i)
      · exact absent_le_ageAll (d.absent_le i)

@[simp] theorem inject_age_self (d : Domain A size) (id : Fin size) : (d.inject id).age id = 0 := by
  simp [inject]

theorem inject_age_of_ne (d : Domain A size) {id i : Fin size} (ne : i ≠ id) :
    (d.inject id).age i =
      if d.contains id then ageUpTo (if i ≤ id then d.age id else d.age id + 1) (d.age i)
      else ageAll A (d.age i) := by
  simp [inject, Function.update_of_ne ne, aged_apply]

/-- No block numbered after the accessed one is exactly one step older: then the
loop of a hit ages the blocks it means to age. -/
def KeepsOlder (d : Domain A size) (id : Fin size) : Prop :=
  d.contains id → ∀ i, id < i → d.age i ≠ d.age id + 1

instance (d : Domain A size) (id : Fin size) : Decidable (d.KeepsOlder id) :=
  inferInstanceAs (Decidable (_ → _))

end Domain

/-- The transfer of the problem on the accesses to one set, from what is known of
the set at the start. -/
def transfer {A size : Nat} (known : Domain A size) : Transfer (Domain A size) (Fin size) where
  entry := known
  bottom := Domain.empty A size
  step := Domain.inject
  join := Domain.lub

/-! ### Soundness -/

namespace Domain

variable {A size : Nat} {d dom : Domain A size} {s : LruSet Nat A}

/-- The concretization: a block of the set is contained, with an age that is a lower
bound of its position. -/
def LowerBounds (d : Domain A size) (s : LruSet Nat A) : Prop :=
  ∀ (i : Fin size) (p : Nat), s.At i p → d.contains i ∧ d.age i ≤ p

theorem lowerBounds_empty : (empty A size).LowerBounds (LruSet.empty : LruSet Nat A) := by
  intro i p h
  exact absurd h.mem List.not_mem_nil

/-- The age of a block after a hit, when no older block is overtaken. -/
theorem inject_age_of_hit (d : Domain A size) {id i : Fin size} (ne : i ≠ id)
    (keeps : d.KeepsOlder id) (hit : d.contains id) :
    (d.inject id).age i = ageUpTo (d.age id) (d.age i) := by
  rw [inject_age_of_ne d ne, if_pos hit]
  by_cases le : i ≤ id
  · rw [if_pos le]
  · have := keeps hit i (by omega)
    rw [if_neg le]
    unfold ageUpTo
    split <;> split <;> omega

/-- The position of a block after an access, seen from the block's age before. -/
private theorem LowerBounds.hit (h : d.LowerBounds s) {id i : Fin size} {p : Nat} (ne : i ≠ id)
    (hp : (s.access id).At i p) :
    d.contains i ∧ ageUpTo (d.age id) (d.age i) ≤ p := by
  have ne' : (i : Nat) ≠ id := fun eq => ne (Fin.ext eq)
  unfold ageUpTo
  rcases hp.of_access ne' with ⟨before, rfl, hq, -⟩ | ⟨hq, q, lt, hid⟩
  · obtain ⟨has, le⟩ := h i before hq
    refine ⟨has, ?_⟩
    split <;> omega
  · obtain ⟨has, le⟩ := h i p hq
    obtain ⟨-, leId⟩ := h id q hid
    refine ⟨has, ?_⟩
    split <;> omega

private theorem LowerBounds.miss (h : d.LowerBounds s) {id i : Fin size} {p : Nat} (ne : i ≠ id)
    (miss : ¬ d.contains id) (hp : (s.access id).At i p) :
    ageAll A (d.age i) ≠ -1 ∧ ageAll A (d.age i) ≤ p := by
  have ne' : (i : Nat) ≠ id := fun eq => ne (Fin.ext eq)
  have fit := hp.lt_ways
  rcases hp.of_access ne' with ⟨before, rfl, hq, -⟩ | ⟨-, q, -, hid⟩
  · obtain ⟨has, le⟩ := h i before hq
    have nonneg := Ages.contains_iff_nonneg.mp has
    simp only [ageAll, if_pos (show d.age i ≠ -1 from has)]
    rw [if_neg (by omega)]
    omega
  · exact absurd (h id q hid).1 miss

/-- `inject` follows the access of the block when it overtakes no older block. -/
theorem LowerBounds.inject (h : d.LowerBounds s) {id : Fin size} (keeps : d.KeepsOlder id) :
    (d.inject id).LowerBounds (s.access id) := by
  intro i p hp
  unfold Ages.contains
  by_cases eq : i = id
  · subst eq
    rw [inject_age_self]
    omega
  · by_cases hit : d.contains id
    · obtain ⟨has, le⟩ := h.hit eq hp
      have nonneg := Ages.contains_iff_nonneg.mp has
      rw [inject_age_of_hit d eq keeps hit]
      refine ⟨?_, le⟩
      unfold ageUpTo
      split <;> omega
    · rw [inject_age_of_ne d eq, if_neg hit]
      exact h.miss eq hit hp

theorem LowerBounds.lub_left (h : d.LowerBounds s) (dom : Domain A size) :
    (d.lub dom).LowerBounds s := by
  intro i p hp
  obtain ⟨has, le⟩ := h i p hp
  unfold Ages.contains lub at *
  simp only
  split <;> omega

theorem LowerBounds.lub_right (h : dom.LowerBounds s) (d : Domain A size) :
    (d.lub dom).LowerBounds s := by
  intro i p hp
  obtain ⟨has, le⟩ := h i p hp
  have := d.absent_le i
  unfold Ages.contains lub at *
  simp only
  split <;> omega

end Domain

/-- The runs whose hits overtake no older block. -/
abbrev Careful {A size : Nat} (known : Domain A size) (r : Run (Fin size)) : Prop :=
  r.Within (transfer known) Domain.KeepsOlder fun _ _ => True

/-- MAY is sound on the runs that overtake no older block: a block at position `p`
after some joined history is recorded with an age of at most `p`, and a block the
state does not contain is in the set after none of them. -/
theorem run_lower_bounds {A size : Nat} (known : Domain A size) (r : Run (Fin size))
    (careful : Careful known r) (s : LruSet Nat A) (covers : known.LowerBounds s) :
    ∀ h ∈ r.histories, ∀ i : Fin size,
      (∀ p, (accesses s h).At i p →
        (r.eval (transfer known)).contains i ∧ (r.eval (transfer known)).age i ≤ p) ∧
      (¬ (r.eval (transfer known)).contains i → (i : Nat) ∉ (accesses s h).lines) := by
  have sound := Run.sound Domain.LowerBounds (fun s (id : Fin size) => s.access id.val) s covers
    (fun _ _ _ h keeps => h.inject keeps) (fun _ dom _ h _ => h.lub_left dom)
    (fun d _ _ h _ => h.lub_right d) careful
  intro h mem i
  have bounds : (r.eval (transfer known)).LowerBounds (accesses s h) := by
    simpa [accesses, LruSet.run, List.foldl_map] using sound h mem
  refine ⟨bounds i, fun absent inSet => ?_⟩
  obtain ⟨p, hp⟩ := LruSet.mem_iff_at.mp inSet
  exact absent (bounds i p hp).1

theorem neZero_three : NeZero 3 := ⟨by decide⟩

attribute [local instance] neZero_three in
/-- A repeated access to 0 joined with one to 1: no hit overtakes a block. -/
def inOrder : Run (Fin 3) := .join (.step (.step .start 0) 0) (.step .start 1)

/-- Three ways, after the path that accesses 1: the bounds of the block 0. -/
theorem run_lower_bounds_in_order :
    (∀ p, (accesses (LruSet.empty : LruSet Nat 3) [(1 : Fin 3)]).At (0 : Fin 3) p →
        (inOrder.eval (transfer (Domain.empty 3 3))).contains 0 ∧
          (inOrder.eval (transfer (Domain.empty 3 3))).age 0 ≤ p) ∧
      (¬ (inOrder.eval (transfer (Domain.empty 3 3))).contains 0 →
        ((0 : Fin 3) : Nat) ∉ (accesses (LruSet.empty : LruSet Nat 3) [(1 : Fin 3)]).lines) :=
  run_lower_bounds (Domain.empty 3 3) inOrder (by decide) LruSet.empty Domain.lowerBounds_empty _
    (by decide) 0

attribute [local instance] neZero_three in
/-- Accesses to 1, 0, 0 and 2: the second access to 0 overtakes the block 1. -/
def repeatedHit : Run (Fin 3) := .step (.step (.step (.step .start 1) 0) 0) 2

/-- Three ways, from an empty set: after `repeatedHit` the block 1 is still in the
set, at position 2, and the state does not contain it. -/
theorem not_lower_bound_after_repeated_hit :
    ¬ ∀ h ∈ repeatedHit.histories, ∀ (i : Fin 3) (p : Nat),
      (accesses (LruSet.empty : LruSet Nat 3) h).At i p →
        (repeatedHit.eval (transfer (Domain.empty 3 3))).contains i ∧
          (repeatedHit.eval (transfer (Domain.empty 3 3))).age i ≤ p := by
  intro sound
  have inSet : (accesses (LruSet.empty : LruSet Nat 3) [1, 0, 0, (2 : Fin 3)]).At (1 : Fin 3) 2 := by
    decide
  exact absurd (sound _ (by decide) 1 2 inSet).1 (by decide)

end Otawa.MAYProblem
