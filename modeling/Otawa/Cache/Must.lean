import Otawa.Cache.Ages
import Otawa.Lib.Run
import Otawa.Lib.Sweep

/-!
# The MUST cache problem

`MUSTProblem::Domain` and its soundness: an age recorded for a block is an upper
bound of the position of the block in the LRU set, on every history that the
joins behind the state merge. The concretization is `Domain.Bounds`; it is kept by
`inject` (`Domain.Bounds.inject`) and by `lub` on either side
(`Domain.Bounds.lub_left`, `Domain.Bounds.lub_right`).
-/

namespace Otawa.MUSTProblem

open Otawa.Cache Otawa.Lru Otawa.Loop Otawa.Analysis

/-- Ages go from 0 for the newest block to `A - 1`; -1 is a block out of the set. -/
structure Domain (A size : Nat) extends Ages size

namespace Domain

variable {A size : Nat}

/-- The constructor of the class, used for the bottom state: all ages are 0. -/
def init (A size : Nat) : Domain A size := ⟨⟨fun _ => 0, fun _ => by omega⟩⟩

/-- The entry state, after `empty()`. -/
def empty (A size : Nat) : Domain A size := ⟨Ages.empty size⟩

def lub (d dom : Domain A size) : Domain A size where
  age i := if (d.age i < dom.age i ∧ d.age i ≠ -1) ∨ dom.age i = -1 then dom.age i else d.age i
  absent_le i := by
    split
    · exact dom.absent_le i
    · exact d.absent_le i

/-- The body of the first loop of `inject`, for the age `own` of a block and the age
`accessed` of the accessed one. -/
def ageYounger (accessed own : Int) : Int := if own < accessed ∧ own ≠ -1 then own + 1 else own

/-- The body of the second loop of `inject`, with the age `A` left to -1. -/
def ageAll (A : Nat) (own : Int) : Int :=
  let own := if own ≠ -1 then own + 1 else own
  if own = A then -1 else own

theorem absent_le_ageYounger {accessed own : Int} (h : -1 ≤ own) : -1 ≤ ageYounger accessed own := by
  unfold ageYounger
  split <;> omega

theorem absent_le_ageAll {own : Int} (h : -1 ≤ own) : -1 ≤ ageAll A own := by
  simp only [ageAll]
  split <;> split <;> omega

/-- The ages after the loops of `inject`, before the accessed block gets age 0. -/
def aged (d : Domain A size) (id : Fin size) : Fin size → Int :=
  if d.contains id then sweep (fun age i => ageYounger (age id) (age i)) d.age
  else sweep (fun age i => ageAll A (age i)) d.age

theorem aged_apply (d : Domain A size) (id i : Fin size) : d.aged id i =
    if d.contains id then ageYounger (d.age id) (d.age i) else ageAll A (d.age i) := by
  have frozen : ageYounger (d.age id) (d.age id) = d.age id := by simp [ageYounger]
  unfold aged
  split
  · rw [sweep_keyed, frozen, ite_self]
  · rw [sweep_pointwise]

def inject (d : Domain A size) (id : Fin size) : Domain A size where
  age := Function.update (d.aged id) id 0
  absent_le i := by
    by_cases eq : i = id
    · simp [eq]
    · rw [Function.update_of_ne eq, aged_apply]
      split
      · exact absent_le_ageYounger (d.absent_le i)
      · exact absent_le_ageAll (d.absent_le i)

@[simp] theorem inject_age_self (d : Domain A size) (id : Fin size) : (d.inject id).age id = 0 := by
  simp [inject]

theorem inject_age_of_ne (d : Domain A size) {id i : Fin size} (ne : i ≠ id) :
    (d.inject id).age i =
      if d.contains id then ageYounger (d.age id) (d.age i) else ageAll A (d.age i) := by
  simp [inject, Function.update_of_ne ne, aged_apply]

/-- Every age is below the number of ways. -/
def Young (d : Domain A size) : Prop := ∀ i, d.age i < A

theorem Young.inject {d : Domain A size} (h : d.Young) (pos : 0 < A) (id : Fin size) :
    (d.inject id).Young := by
  intro i
  by_cases eq : i = id
  · subst eq
    rw [inject_age_self]
    omega
  · have young := h i
    have accessed := h id
    rw [inject_age_of_ne d eq]
    split
    · unfold ageYounger
      split <;> omega
    · simp only [ageAll]
      split <;> split <;> omega

theorem Young.lub {d dom : Domain A size} (h : d.Young) (h' : dom.Young) : (d.lub dom).Young := by
  intro i
  simp only [Domain.lub]
  split
  · exact h' i
  · exact h i

end Domain

/-- The transfer of the problem on the accesses to one set. `update` injects the
accessed cache block; entering or leaving a context does nothing. -/
def transfer (A size : Nat) : Transfer (Domain A size) (Fin size) where
  entry := Domain.empty A size
  bottom := Domain.init A size
  step := Domain.inject
  join := Domain.lub

/-! ### Soundness -/

namespace Domain

variable {A size : Nat} {d dom : Domain A size} {s : LruSet Nat A}

/-- The concretization: a block with an age below `A` is in the set, at a position
bounded by the age. -/
def Bounds (d : Domain A size) (s : LruSet Nat A) : Prop :=
  ∀ i, d.contains i → d.age i < A → ∃ p : Nat, p ≤ d.age i ∧ s.At i p

theorem bounds_empty (s : LruSet Nat A) : (empty A size).Bounds s :=
  fun _ has => absurd rfl has

/-- A hit ages the younger blocks only: the ones before the accessed block. -/
private theorem Bounds.hit (h : d.Bounds s) {id i : Fin size} (ne : i ≠ id) (hit : d.contains id)
    (has : d.contains i) (lt : ageYounger (d.age id) (d.age i) < A) :
    ∃ p : Nat, p ≤ ageYounger (d.age id) (d.age i) ∧ (s.access id).At i p := by
  unfold ageYounger at lt ⊢
  by_cases younger : d.age i < d.age id
  · rw [if_pos ⟨younger, has⟩] at lt ⊢
    obtain ⟨p, le, hp⟩ := h i has (by omega)
    obtain ⟨p', le', hp'⟩ := hp.access_le (b := (id : Nat)) (by omega)
    exact ⟨p', by omega, hp'⟩
  · rw [if_neg (fun c => younger c.1)] at lt ⊢
    obtain ⟨p, le, hp⟩ := h i has lt
    obtain ⟨q, leq, hq⟩ := h id hit (by omega)
    rcases Nat.lt_trichotomy p q with before | same | after
    · exact ⟨p + 1, by omega, hp.access_younger hq before⟩
    · subst same
      exact absurd (Fin.ext (hp.line_unique hq)) ne
    · exact ⟨p, le, hp.access_older hq after⟩

/-- Whatever is accessed, the ages of `ageAll` are bounds after the access; the blocks of
age `A` are dropped. -/
theorem Bounds.aged (h : d.Bounds s) (b : Nat) {i : Fin size}
    (has : ageAll A (d.age i) ≠ -1) (lt : ageAll A (d.age i) < A) :
    ∃ p : Nat, p ≤ ageAll A (d.age i) ∧ (s.access b).At i p := by
  unfold ageAll at has lt ⊢
  have present : d.age i ≠ -1 := by
    intro absent
    simp [absent] at has
  simp only [if_pos present] at has lt ⊢
  have kept : ¬ d.age i + 1 = A := fun eq => has (if_pos eq)
  rw [if_neg kept] at lt ⊢
  obtain ⟨p, le, hp⟩ := h i present (by omega)
  obtain ⟨p', le', hp'⟩ := hp.access_le (b := b) (by omega)
  exact ⟨p', by omega, hp'⟩

/-- `inject` follows the access of the block. -/
theorem Bounds.inject (h : d.Bounds s) (id : Fin size) : (d.inject id).Bounds (s.access id) := by
  intro i has lt
  by_cases eq : i = id
  · subst eq
    rw [inject_age_self] at lt ⊢
    exact ⟨0, Int.le_refl _, s.access_front i (by omega)⟩
  · unfold Ages.contains at has
    rw [inject_age_of_ne d eq] at has lt ⊢
    by_cases hit : d.contains id
    · rw [if_pos hit] at has lt ⊢
      refine h.hit eq hit (fun absent => has ?_) lt
      simp [ageYounger, absent]
    · rw [if_neg hit] at has lt ⊢
      exact h.aged id has lt

/-- The joined age of a block: the larger one of two present ages. -/
theorem lub_age_of_contains {i : Fin size} (has : (d.lub dom).contains i) :
    d.contains i ∧ dom.contains i ∧ (d.lub dom).age i = max (d.age i) (dom.age i) := by
  unfold Ages.contains lub at *
  simp only at has ⊢
  split at has <;> rename_i c
  · rw [if_pos c]
    omega
  · rw [if_neg c]
    omega

theorem Bounds.lub_left (h : d.Bounds s) (dom : Domain A size) : (d.lub dom).Bounds s := by
  intro i has lt
  obtain ⟨left, -, eq⟩ := lub_age_of_contains has
  obtain ⟨p, le, hp⟩ := h i left (by omega)
  exact ⟨p, by omega, hp⟩

theorem Bounds.lub_right (h : dom.Bounds s) (d : Domain A size) : (d.lub dom).Bounds s := by
  intro i has lt
  obtain ⟨-, right, eq⟩ := lub_age_of_contains has
  obtain ⟨p, le, hp⟩ := h i right (by omega)
  exact ⟨p, by omega, hp⟩

end Domain

/-- The state a run reaches bounds the set after each history it joins, whatever the
set holds at the start. -/
theorem run_bounds {A size : Nat} (r : Run (Fin size)) (s : LruSet Nat A) :
    ∀ h ∈ r.histories, (r.eval (transfer A size)).Bounds (accesses s h) := by
  have sound := Run.sound Domain.Bounds (fun s (id : Fin size) => s.access id.val) s
    (Domain.bounds_empty s) (fun _ _ id h _ => h.inject id) (fun _ dom _ h _ => h.lub_left dom)
    (fun d _ _ h _ => h.lub_right d)
    (r.within_of_forall (T := transfer A size) (fun _ _ => trivial) (fun _ _ => trivial))
  intro h mem
  simpa [accesses, LruSet.run, List.foldl_map] using sound h mem

/-- MUST is sound: a block the state contains with age `a` is in the set at a
position of at most `a`, on every history joined and from any initial content. -/
theorem contains_sound {A size : Nat} (r : Run (Fin size)) (id : Fin size) (a : Nat) (lt : a < A)
    (has : (r.eval (transfer A size)).contains id) (age : (r.eval (transfer A size)).age id = a) :
    ∀ h ∈ r.histories, ∀ s : LruSet Nat A, ∃ p ≤ a, (accesses s h).At id p := by
  intro h mem s
  obtain ⟨p, le, hp⟩ := run_bounds r s h mem id has (by omega)
  exact ⟨p, by omega, hp⟩

/-- Accesses to the blocks 0 and 1 in either order. -/
def eitherOrder : Run (Fin 2) := .join (.step (.step .start 0) 1) (.step (.step .start 1) 0)

/-- Blocks 0 and 1 accessed in either order: 0 is in a set of two ways. -/
theorem contains_sound_either_order :
    (∃ p ≤ 1, (accesses (LruSet.empty : LruSet Nat 2) [(0 : Fin 2), 1]).At (0 : Fin 2) p) ∧
      ∃ p ≤ 1, (accesses (LruSet.empty : LruSet Nat 2) [(1 : Fin 2), 0]).At (0 : Fin 2) p :=
  have sound := contains_sound (A := 2) eitherOrder 0 1 (by decide) (by decide) (by decide)
  ⟨sound _ (by decide) _, sound _ (by decide) _⟩

end Otawa.MUSTProblem
