import Otawa.Cache.May
import Otawa.Dcache.Access

/-!
# MAY for the data cache

`dcache::MAYProblem`; its domain has the code of the one of the instruction cache.
`update` looks at the kind of an access only. An access to a range or to any block is
passed over, although it may bring a block in (`any_access_missing`), and a purge counts
as an access to the block. The accesses to blocks, as far as `inject` keeps the lower
bounds, are sound (`age_le_position`).
-/

namespace Otawa.Dcache.MAYProblem

open Otawa.Cache Otawa.Lru Otawa.Analysis
open Otawa.MAYProblem (Domain)

variable {A : Nat} {colls : Nat → BlockCollection} {set : Nat}

def update (set : Nat) (s : Domain A (colls set).count) (access : BlockAccess colls) :
    Domain A (colls set).count :=
  match access.kind with
  | .range _ _ => s
  | .any => s
  | .block b =>
      match b.indexIn set with
      | some id => s.inject id
      | none => s

/-- The problem for one set, from what is known of it at the start. -/
def transfer (colls : Nat → BlockCollection) (set : Nat) (known : Domain A (colls set).count) :
    Transfer (Domain A (colls set).count) (Event colls) where
  entry := known
  bottom := .empty A _
  step := Event.onAccess (update set)
  join := Domain.lub

/-! ### Soundness -/

/-- The other blocks of the state are older than the block: an access to it ages none of them. -/
def Youngest {size : Nat} (d : Domain A size) (id : Fin size) : Prop :=
  ∀ i, i ≠ id → d.contains i → d.contains id ∧ d.age id < d.age i

instance {size : Nat} (d : Domain A size) (id : Fin size) : Decidable (Youngest d id) :=
  inferInstanceAs (Decidable (∀ _, _))

/-- What an update has to respect: an access that may touch the set is a load or a store of one block,
which overtakes no older block and, when it is a store that may not allocate, ages no other one. -/
def AllowAccess (allocate : Bool) (set : Nat) (d : Domain A (colls set).count) : BlockAccess colls → Prop
  | ⟨_, .any⟩ => False
  | ⟨_, .range first last⟩ => ¬ Spans first last set
  | ⟨action, .block b⟩ => ∀ id, b.indexIn set = some id →
      action ≠ .purge ∧ d.KeepsOlder id ∧ (action = .store → allocate = false → Youngest d id)

instance (allocate : Bool) (set : Nat) (d : Domain A (colls set).count) :
    ∀ acc : BlockAccess colls, Decidable (AllowAccess allocate set d acc)
  | ⟨_, .any⟩ => inferInstanceAs (Decidable False)
  | ⟨_, .range first last⟩ => inferInstanceAs (Decidable (¬ Spans first last set))
  | ⟨action, .block b⟩ => inferInstanceAs (Decidable (∀ id, b.indexIn set = some id →
      action ≠ .purge ∧ d.KeepsOlder id ∧ (action = .store → allocate = false → Youngest d id)))

/-- Loops are entered and left freely. -/
def AllowStep (allocate : Bool) (set : Nat) (d : Domain A (colls set).count) : Event colls → Prop
  | .access acc => AllowAccess allocate set d acc
  | .enterContext => True
  | .leaveContext => True

instance (allocate : Bool) (set : Nat) (d : Domain A (colls set).count) :
    ∀ e : Event colls, Decidable (AllowStep allocate set d e)
  | .access acc => inferInstanceAs (Decidable (AllowAccess allocate set d acc))
  | .enterContext => inferInstanceAs (Decidable True)
  | .leaveContext => inferInstanceAs (Decidable True)

abbrev Careful (allocate : Bool) (set : Nat) (known : Domain A (colls set).count)
    (r : Run (Event colls)) : Prop :=
  r.Within (transfer colls set known) (AllowStep allocate set) fun _ _ => True

/-- A store that brings nothing in, to a block that is younger than the others. -/
theorem lowerBounds_inject {size : Nat} {d : Domain A size} {s : LruSet Nat A} (bounds : d.LowerBounds s)
    {id : Fin size} (keeps : d.KeepsOlder id) (youngest : Youngest d id) : (d.inject id).LowerBounds s := by
  intro i p hp
  obtain ⟨has, le⟩ := bounds i p hp
  unfold Ages.contains at has ⊢
  by_cases eq : i = id
  · subst eq
    rw [Domain.inject_age_self]
    omega
  · obtain ⟨hit, younger⟩ := youngest i eq has
    rw [Domain.inject_age_of_hit d eq keeps hit, Domain.ageUpTo, if_neg (by omega)]
    exact ⟨has, le⟩

/-- An update follows every touch that the access covers. -/
theorem lowerBounds_update {d : Domain A (colls set).count} {s : LruSet Nat A} (bounds : d.LowerBounds s)
    {allocate : Bool} {acc : BlockAccess colls} {t : Touch} (covers : acc.Covers t)
    (allowed : AllowAccess allocate set d acc) :
    (update set d acc).LowerBounds (touch allocate set s t) := by
  obtain ⟨action, kind⟩ := acc
  obtain ⟨same, covers⟩ := covers
  cases kind with
  | any => exact allowed.elim
  | range first last =>
    have miss : t.set ≠ set := fun here => allowed (here ▸ covers)
    rwa [touch_of_ne miss]
  | block b =>
    obtain ⟨here, line⟩ := covers
    cases known : b.indexIn set with
    | none =>
      rw [touch_of_ne (here.trans_ne (Block.indexIn_eq_none.mp known))]
      simpa only [update, known] using bounds
    | some id =>
      obtain ⟨mine, index⟩ := Block.indexIn_eq_some.mp known
      obtain ⟨noPurge, keeps, stored⟩ := allowed id known
      simp only [update, known]
      rw [touch, if_pos (here.trans mine), ← same, line, index]
      cases action with
      | load => exact bounds.inject keeps
      | store =>
        dsimp only
        split
        case isTrue => exact bounds.inject keeps
        case isFalse out =>
          exact lowerBounds_inject bounds keeps (stored rfl (Bool.eq_false_iff.mpr fun eq => out (.inl eq)))
      | purge => exact absurd rfl noPurge

/-- MAY is sound on the runs whose accesses to the set name their block and overtake none: a block at
position `p` after covered steps of some joined history is in the state with an age of at most `p`, and
a block that is not in the state is in the set after none of them. -/
theorem age_le_position {allocate : Bool} (known : Domain A (colls set).count) (r : Run (Event colls))
    (careful : Careful allocate set known r) (s : LruSet Nat A) (covers : known.LowerBounds s) :
    ∀ h ∈ r.histories, ∀ steps, List.Forall₂ Event.Covers h steps → ∀ i : Fin (colls set).count,
      (∀ p, (after allocate set s steps).At i p →
        (r.eval (transfer colls set known)).contains i ∧ (r.eval (transfer colls set known)).age i ≤ p) ∧
      (¬ (r.eval (transfer colls set known)).contains i → (i : Nat) ∉ (after allocate set s steps).lines) := by
  intro h mem steps covered i
  have bounds := Run.sound_of_covers Event.Covers Domain.LowerBounds (Step.onTouch (touch allocate set)) s
    covers
    (fun d s e x bounds allowed covers => covers.rel bounds fun acc t eq _ touched => by
      subst eq
      exact lowerBounds_update bounds touched allowed)
    (fun _ dom _ bounds _ => bounds.lub_left dom) (fun d _ _ bounds _ => bounds.lub_right d)
    careful h mem steps covered
  refine ⟨bounds i, fun absent inSet => ?_⟩
  obtain ⟨p, hp⟩ := LruSet.mem_iff_at.mp inSet
  exact absent (bounds i p hp).1

/-- One block in every set. -/
abbrev oneBlock : Nat → BlockCollection := fun _ => ⟨1, fun _ => 16⟩

/-- The block is loaded, or stored to. -/
def named : Run (Event oneBlock) :=
  .join (.step .start (.access ⟨.load, .block ⟨0, 0, Nat.one_pos⟩⟩))
    (.step .start (.access ⟨.store, .block ⟨0, 0, Nat.one_pos⟩⟩))

/-- After the store the block is in the set and in the state. -/
theorem age_le_position_named :
    (∀ p, (after (A := 1) true 0 LruSet.empty [.touch ⟨.store, 0, 0⟩]).At ((0 : Fin 1) : Nat) p →
        (named.eval (transfer oneBlock 0 (Domain.empty 1 1))).contains (0 : Fin 1) ∧
          (named.eval (transfer oneBlock 0 (Domain.empty 1 1))).age (0 : Fin 1) ≤ p) ∧
      (¬ (named.eval (transfer oneBlock 0 (Domain.empty 1 1))).contains (0 : Fin 1) →
        ((0 : Fin 1) : Nat) ∉ (after (A := 1) true 0 LruSet.empty [.touch ⟨.store, 0, 0⟩]).lines) :=
  @age_le_position 1 oneBlock 0 true (Domain.empty 1 1) named (by decide) LruSet.empty
    Domain.lowerBounds_empty _ (List.mem_cons_of_mem _ List.mem_cons_self) _ (by decide) 0

/-- An access to any block. -/
def anyAccess : Run (Event oneBlock) := .step .start (.access ⟨.load, .any⟩)

/-- The access may load the block; the state does not contain it. -/
theorem any_access_missing :
    ¬ ∀ h ∈ anyAccess.histories, ∀ steps, List.Forall₂ Event.Covers h steps → ∀ i : Fin 1,
      ∀ p, (after (A := 1) true 0 LruSet.empty steps).At (i : Nat) p →
        (anyAccess.eval (transfer oneBlock 0 (Domain.empty 1 1))).contains i ∧
          (anyAccess.eval (transfer oneBlock 0 (Domain.empty 1 1))).age i ≤ p := by
  intro sound
  have inSet : (after (A := 1) true 0 LruSet.empty [.touch ⟨.load, 0, 0⟩]).At ((0 : Fin 1) : Nat) 0 := by
    decide
  exact absurd (sound _ List.mem_cons_self _ (by decide) 0 0 inSet).1 (by decide)

end Otawa.Dcache.MAYProblem
