import Otawa.Cache.Pers
import Otawa.Dcache.Access
import Mathlib.Data.Fin.VecNotation

/-!
# MUST for the data cache

`dcache::MUSTProblem` and `dcache::MUSTPERS`. Their domains have the code of the ones of the
instruction cache; new are the accesses that touch some set of a range or any block
(`ageAll`) and the purges.

A range that wraps over set 0 is tested the wrong way round: `skips` drops it for the
sets behind its first one and before its last one, which it covers
(`wrapped_range_skips`). The other accesses keep the bounds (`position_le_age`).
-/

namespace Otawa.Dcache

open Otawa.Cache Otawa.Lru Otawa.Loop Otawa.Analysis

variable {A : Nat} {colls : Nat → BlockCollection} {set : Nat}

/-- The test of the RANGE case of `update`, by which a set is left as it is. -/
def skips (first last set : Nat) : Bool :=
  if first < last then set < first || last < set else first < set || set < last

namespace MUSTProblem

open Otawa.MUSTProblem (Domain)

/-- `MUSTProblem::Domain::ageAll`. -/
def ageAll {size : Nat} (s : Domain A size) : Domain A size where
  age := sweep (fun age i => Domain.ageAll A (age i)) s.age
  absent_le i := by
    rw [sweep_pointwise]
    exact Domain.absent_le_ageAll (s.absent_le i)

theorem ageAll_age {size : Nat} (s : Domain A size) (i : Fin size) :
    (ageAll s).age i = Domain.ageAll A (s.age i) :=
  sweep_pointwise _ _ i

/-- `out[id] = -1`. -/
def drop {size : Nat} (out : Domain A size) (id : Fin size) : Domain A size where
  age := Function.update out.age id (-1)
  absent_le i := by
    by_cases eq : i = id
    · simp [eq]
    · simpa [eq] using out.absent_le i

def purge (set : Nat) (out : Domain A (colls set).count) : Kind colls → Domain A (colls set).count
  | .range first last => if inRange first last set then .empty A _ else out
  | .any => .empty A _
  | .block b =>
      match b.indexIn set with
      | some id => drop out id
      | none => out

def update (set : Nat) (s : Domain A (colls set).count) (access : BlockAccess colls) :
    Domain A (colls set).count :=
  match access.action with
  | .load | .store =>
      match access.kind with
      | .range first last => if skips first last set then s else ageAll s
      | .any => ageAll s
      | .block b =>
          match b.indexIn set with
          | some id => s.inject id
          | none => s
  | .purge => purge set s access.kind

/-- The problem for one set; `enterContext` and `leaveContext` do nothing. -/
def transfer (A : Nat) (colls : Nat → BlockCollection) (set : Nat) :
    Transfer (Domain A (colls set).count) (Event colls) where
  entry := .empty A _
  bottom := .init A _
  step := Event.onAccess (update set)
  join := Domain.lub

end MUSTProblem

/-! ### The persistence part -/

namespace PERSProblem

open Otawa.PERSProblem (Item Domain)

/-- The body of the loop of `Item::ageAll`. -/
def older (A : Nat) (own : Int) : Int := if 0 ≤ own ∧ own < A then own + 1 else own

/-- The body of the loop of `Item::purge`: a block that has been in the cache is wiped. -/
def wipe (A : Nat) (own : Int) : Int := if own ≠ -1 then A else own

theorem older_bounds {own : Int} (lo : -1 ≤ own) (hi : own ≤ A) : -1 ≤ older A own ∧ older A own ≤ A := by
  unfold older
  split <;> omega

theorem wipe_bounds {own : Int} (hi : own ≤ A) : -1 ≤ wipe A own ∧ wipe A own ≤ A := by
  unfold wipe
  split <;> omega

namespace Item

variable {size : Nat}

def ageAll (item : Item A size) : Item A size where
  age := sweep (fun age i => older A (age i)) item.age
  absent_le i := by
    rw [sweep_pointwise]
    exact (older_bounds (item.absent_le i) (item.le_wiped i)).1
  le_wiped i := by
    rw [sweep_pointwise]
    exact (older_bounds (item.absent_le i) (item.le_wiped i)).2

def wipeAll (item : Item A size) : Item A size where
  age := sweep (fun age i => wipe A (age i)) item.age
  absent_le i := by
    rw [sweep_pointwise]
    exact (wipe_bounds (item.le_wiped i)).1
  le_wiped i := by
    rw [sweep_pointwise]
    exact (wipe_bounds (item.le_wiped i)).2

def wipeOne (item : Item A size) (id : Fin size) : Item A size where
  age := Function.update item.age id (wipe A (item.age id))
  absent_le i := by
    by_cases eq : i = id
    · subst eq
      simpa using (wipe_bounds (item.le_wiped i)).1
    · simpa [eq] using item.absent_le i
  le_wiped i := by
    by_cases eq : i = id
    · subst eq
      simpa using (wipe_bounds (item.le_wiped i)).2
    · simpa [eq] using item.le_wiped i

/-- `PERSProblem::purge` of an item. For a block the source takes the number of its set
for its index; past the end of the ages that is undefined. -/
def purge (set : Nat) (item : Item A size) : Kind colls → Item A size
  | .range first last => if inRange first last set then wipeAll item else item
  | .any => wipeAll item
  | .block b =>
      if b.set = set then
        if inAges : b.set < size then wipeOne item ⟨b.set, inAges⟩ else item
      else item

end Item

/-- An operation on the whole item and on each level. -/
def onItems {size : Nat} (f : Item A size → Item A size) (d : Domain A size) : Domain A size where
  isBottom := d.isBottom
  whole := f d.whole
  data := d.data.map f
  bottom_data h := by rw [d.bottom_data h, List.map_nil]

def ageAll {size : Nat} (d : Domain A size) : Domain A size := onItems Item.ageAll d

def purge (set : Nat) (d : Domain A (colls set).count) (kind : Kind colls) : Domain A (colls set).count :=
  onItems (fun item => Item.purge set item kind) d

end PERSProblem

namespace MUSTPERS

open Otawa.MUSTPERS (Domain)

def ageAll {size : Nat} (d : Domain A size) : Domain A size :=
  ⟨PERSProblem.ageAll d.pers, MUSTProblem.ageAll d.must⟩

def update (set : Nat) (s : Domain A (colls set).count) (access : BlockAccess colls) :
    Domain A (colls set).count :=
  match access.action with
  | .load | .store =>
      match access.kind with
      | .range first last => if skips first last set then s else ageAll s
      | .any => ageAll s
      | .block b =>
          match b.indexIn set with
          | some id => s.inject id
          | none => s
  | .purge => ⟨PERSProblem.purge set s.pers access.kind, MUSTProblem.purge set s.must access.kind⟩

def transfer (A : Nat) (colls : Nat → BlockCollection) (set : Nat) :
    Transfer (Domain A (colls set).count) (Event colls) where
  entry := ⟨.empty A _, .empty A _⟩
  bottom := ⟨.bottom A _, .init A _⟩
  step s e :=
    match e with
    | .access acc => update set s acc
    | .enterContext => { s with pers := s.pers.enterContext }
    | .leaveContext => { s with pers := s.pers.leaveContext }
  join := Domain.lub

/-- The MUST part of the update is the one of the MUST problem. -/
theorem update_must (s : Domain A (colls set).count) (access : BlockAccess colls) :
    (update set s access).must = MUSTProblem.update set s.must access := by
  obtain ⟨action, kind⟩ := access
  unfold update MUSTProblem.update
  cases action <;> cases kind <;> try rfl
  case load.range first last => dsimp only; split <;> rfl
  case store.range first last => dsimp only; split <;> rfl
  case load.block b => dsimp only; split <;> rfl
  case store.block b => dsimp only; split <;> rfl

theorem eval_must (r : Run (Event colls)) :
    (r.eval (transfer A colls set)).must = r.eval (MUSTProblem.transfer A colls set) := by
  induction r with
  | start => rfl
  | unreached => rfl
  | step r e ih =>
    cases e with
    | access acc => exact (update_must _ acc).trans (congrArg (MUSTProblem.update set · acc) ih)
    | enterContext => exact ih
    | leaveContext => exact ih
  | join r r' ih ih' => exact congrArg₂ Otawa.MUSTProblem.Domain.lub ih ih'

end MUSTPERS

/-! ### Soundness -/

namespace MUSTProblem

open Otawa.MUSTProblem (Domain)

/-- What an update has to respect: no range that wraps over set 0 covers the set beyond
its ends, and without allocation on writes a stored block is in the state. -/
def AllowStep (allocate : Bool) (set : Nat) (d : Domain A (colls set).count) : Event colls → Prop
  | .access ⟨.load, .range first last⟩ => last < first → last ≤ set ∧ set ≤ first
  | .access ⟨.store, .range first last⟩ => last < first → last ≤ set ∧ set ≤ first
  | .access ⟨.store, .block b⟩ => allocate = false → ∀ id, b.indexIn set = some id → d.contains id
  | _ => True

instance (allocate : Bool) (set : Nat) (d : Domain A (colls set).count) :
    ∀ e : Event colls, Decidable (AllowStep allocate set d e)
  | .access ⟨.load, .range first last⟩ => inferInstanceAs (Decidable (last < first → last ≤ set ∧ set ≤ first))
  | .access ⟨.store, .range first last⟩ => inferInstanceAs (Decidable (last < first → last ≤ set ∧ set ≤ first))
  | .access ⟨.store, .block b⟩ =>
      inferInstanceAs (Decidable (allocate = false → ∀ id, b.indexIn set = some id → d.contains id))
  | .access ⟨.load, .any⟩ => inferInstanceAs (Decidable True)
  | .access ⟨.load, .block _⟩ => inferInstanceAs (Decidable True)
  | .access ⟨.store, .any⟩ => inferInstanceAs (Decidable True)
  | .access ⟨.purge, _⟩ => inferInstanceAs (Decidable True)
  | .enterContext => inferInstanceAs (Decidable True)
  | .leaveContext => inferInstanceAs (Decidable True)

abbrev Careful (A : Nat) (allocate : Bool) (set : Nat) (r : Run (Event colls)) : Prop :=
  r.Within (transfer A colls set) (AllowStep allocate set) fun _ _ => True

section

variable {size : Nat} {d : Domain A size} {s : LruSet Nat A}

theorem bounds_ageAll_access (bounds : d.Bounds s) (b : Nat) : (ageAll d).Bounds (s.access b) := by
  intro i has lt
  unfold Ages.contains at has
  rw [ageAll_age] at has lt ⊢
  exact bounds.aged b has lt

theorem bounds_ageAll (bounds : d.Bounds s) : (ageAll d).Bounds s := by
  intro i has lt
  unfold Ages.contains at has
  rw [ageAll_age] at has lt ⊢
  have present : d.contains i := fun absent => has (by simp [Domain.ageAll, absent])
  have older : d.age i ≤ Domain.ageAll A (d.age i) := by
    simp only [Domain.ageAll, if_pos (show d.age i ≠ -1 from present)] at has ⊢
    by_cases full : d.age i + 1 = A
    · exact absurd (if_pos full) has
    · rw [if_neg full]
      omega
  obtain ⟨p, le, hp⟩ := bounds i present (by omega)
  exact ⟨p, by omega, hp⟩

theorem bounds_drop (bounds : d.Bounds s) (id : Fin size) : (drop d id).Bounds (s.remove id) := by
  intro i has lt
  by_cases eq : i = id
  · subst eq
    simp [Ages.contains, drop] at has
  · have same : (drop d id).age i = d.age i := Function.update_of_ne eq _ _
    unfold Ages.contains at has
    rw [same] at has lt ⊢
    obtain ⟨p, le, hp⟩ := bounds i has lt
    obtain ⟨p', le', hp'⟩ := hp.remove (b := (id : Nat)) fun eq' => eq (Fin.ext eq')
    exact ⟨p', by omega, hp'⟩

theorem young_ageAll (young : d.Young) (pos : 0 < A) : (ageAll d).Young := by
  intro i
  have := young i
  rw [ageAll_age]
  simp only [Domain.ageAll]
  split <;> split <;> omega

theorem young_empty : (Domain.empty A size).Young := by
  intro i
  show (-1 : Int) < A
  omega

theorem young_drop (young : d.Young) (id : Fin size) : (drop d id).Young := by
  intro i
  by_cases eq : i = id
  · subst eq
    simp only [drop, Function.update_self]
    omega
  · have same : (drop d id).age i = d.age i := Function.update_of_ne eq _ _
    rw [same]
    exact young i

end

/-- A set that a range covers is not skipped, wrapped ranges apart. -/
theorem skips_eq_false {first last : Nat} (spans : Spans first last set)
    (careful : last < first → last ≤ set ∧ set ≤ first) : skips first last set = false := by
  unfold Spans at spans
  unfold skips
  split <;> simp only [Bool.or_eq_false_iff, decide_eq_false_iff_not] <;> split at spans <;> omega

theorem inRange_of_spans {first last : Nat} (spans : Spans first last set) :
    inRange first last set = true := by
  unfold Spans at spans
  unfold inRange
  split <;> simp only [Bool.and_eq_true, Bool.or_eq_true, decide_eq_true_eq] <;> split at spans <;> omega

theorem young_update {d : Domain A (colls set).count} (young : d.Young) (pos : 0 < A)
    (acc : BlockAccess colls) : (update set d acc).Young := by
  obtain ⟨action, kind⟩ := acc
  have aged := young_ageAll young pos
  cases action <;> cases kind <;> simp only [update, purge] <;> try split
  all_goals first
    | exact young
    | exact aged
    | exact young_empty
    | exact young.inject pos _
    | exact young_drop young _

/-- A load or store of some line of the set. -/
theorem bounds_ageAll_touch {size : Nat} {d : Domain A size} {s : LruSet Nat A} (bounds : d.Bounds s)
    (allocate : Bool) {t : Touch} (action : t.action ≠ .purge) :
    (ageAll d).Bounds (touch allocate set s t) := by
  obtain ⟨action', set', line⟩ := t
  unfold touch
  by_cases here : set' = set
  · rw [if_pos here]
    cases action' with
    | load => exact bounds_ageAll_access bounds line
    | store =>
      dsimp only
      split
      · exact bounds_ageAll_access bounds line
      · exact bounds_ageAll bounds
    | purge => exact absurd rfl action
  · rw [if_neg here]
    exact bounds_ageAll bounds

/-- A load or store of a block, which is there after it. -/
theorem bounds_inject_touch {d : Domain A (colls set).count} {s : LruSet Nat A} (bounds : d.Bounds s)
    (young : d.Young) {allocate : Bool} {id : Fin (colls set).count} {t : Touch} (here : t.set = set)
    (line : t.line = id) (action : t.action ≠ .purge)
    (stored : t.action = .store → allocate = false → d.contains id) :
    (d.inject id).Bounds (touch allocate set s t) := by
  obtain ⟨action', set', line'⟩ := t
  obtain rfl : line' = id := line
  unfold touch
  rw [if_pos here]
  cases action' with
  | load => exact bounds.inject id
  | store =>
    dsimp only
    rw [if_pos]
    · exact bounds.inject id
    · refine or_iff_not_imp_left.mpr fun noAllocate => ?_
      obtain ⟨p, -, hp⟩ := bounds id (stored rfl (Bool.eq_false_iff.mpr noAllocate)) (young id)
      exact hp.mem
  | purge => exact absurd rfl action

/-- An update follows every touch that the access covers. -/
theorem bounds_update {d : Domain A (colls set).count} {s : LruSet Nat A} (bounds : d.Bounds s)
    (young : d.Young) {allocate : Bool} {acc : BlockAccess colls} {t : Touch} (covers : acc.Covers t)
    (allowed : AllowStep allocate set d (.access acc)) :
    (update set d acc).Bounds (touch allocate set s t) := by
  obtain ⟨action, kind⟩ := acc
  obtain ⟨same, covers⟩ := covers
  cases kind with
  | any =>
    cases action with
    | load => exact bounds_ageAll_touch bounds allocate (by simp [← same])
    | store => exact bounds_ageAll_touch bounds allocate (by simp [← same])
    | purge => exact Otawa.MUSTProblem.Domain.bounds_empty _
  | block b =>
    obtain ⟨here, line⟩ := covers
    cases known : b.indexIn set with
    | none =>
      rw [touch_of_ne (here.trans_ne (Block.indexIn_eq_none.mp known))]
      cases action <;> simpa only [update, purge, known] using bounds
    | some id =>
      obtain ⟨mine, index⟩ := Block.indexIn_eq_some.mp known
      rw [index] at line
      cases action with
      | load =>
        simp only [update, known]
        exact bounds_inject_touch bounds young (here.trans mine) line (by simp [← same]) (by simp [← same])
      | store =>
        simp only [update, known]
        exact bounds_inject_touch bounds young (here.trans mine) line (by simp [← same]) fun _ noAllocate =>
          allowed noAllocate id known
      | purge =>
        simp only [update, purge, known]
        rw [touch, if_pos (here.trans mine), ← same, line]
        exact bounds_drop bounds id
  | range first last =>
    by_cases here : t.set = set
    · have spans : Spans first last set := here ▸ covers
      cases action with
      | load =>
        simp only [update, skips_eq_false spans allowed, Bool.false_eq_true, if_false]
        exact bounds_ageAll_touch bounds allocate (by simp [← same])
      | store =>
        simp only [update, skips_eq_false spans allowed, Bool.false_eq_true, if_false]
        exact bounds_ageAll_touch bounds allocate (by simp [← same])
      | purge =>
        simp only [update, purge, inRange_of_spans spans, if_true]
        exact Otawa.MUSTProblem.Domain.bounds_empty _
    · rw [touch_of_ne here]
      have aged := bounds_ageAll bounds
      cases action <;> simp only [update, purge] <;> split
      all_goals first
        | exact bounds
        | exact aged
        | exact Otawa.MUSTProblem.Domain.bounds_empty _

/-- MUST is sound for the data cache: a block that the state contains with age `a` is in the set at a
position of at most `a`, after all covered steps of every history joined and from any initial content. -/
theorem position_le_age {allocate : Bool} (r : Run (Event colls)) (careful : Careful A allocate set r)
    (d : Domain A (colls set).count)
    (hd : d = r.eval (transfer A colls set) ∨ d = (r.eval (MUSTPERS.transfer A colls set)).must)
    (id : Fin (colls set).count) (a : Nat) (lt : a < A) (has : d.contains id) (age : d.age id = a) :
    ∀ h ∈ r.histories, ∀ steps, List.Forall₂ Event.Covers h steps → ∀ s : LruSet Nat A,
      ∃ p ≤ a, (after allocate set s steps).At id p := by
  intro h mem steps covered s
  have pos : 0 < A := by omega
  have same : d = r.eval (transfer A colls set) := hd.elim (·) fun eq => eq.trans (MUSTPERS.eval_must r)
  have young := Run.Within.of_invariant (fun d => d.Young) young_empty (fun _ => by simpa [transfer, Domain.init] using pos)
    (fun d e young _ => by
      cases e with
      | access acc => exact young_update young pos acc
      | enterContext => exact young
      | leaveContext => exact young)
    (fun _ _ young young' _ => young.lub young') careful
  have sound := Run.sound_of_covers Event.Covers Domain.Bounds (Step.onTouch (touch allocate set)) s
    (Otawa.MUSTProblem.Domain.bounds_empty s)
    (fun d s e x bounds allowed covers => covers.rel bounds fun acc t eq _ covers =>
      bounds_update bounds allowed.1 covers (eq ▸ allowed.2))
    (fun _ dom _ bounds _ => bounds.lub_left dom) (fun d _ _ bounds _ => bounds.lub_right d) young h mem steps covered
  rw [same] at has age
  obtain ⟨p, le, hp⟩ := sound id has (by omega)
  exact ⟨p, by omega, hp⟩

/-- Two blocks of set 3 at the addresses 48 and 112, on a cache of 4 sets of 16 bytes. -/
abbrev thirdSet : Nat → BlockCollection := fun _ => ⟨2, ![48, 112]⟩

/-- The block 0 is loaded, then some block of the sets 2 to 0. -/
def wrapped : Run (Event thirdSet) :=
  .step (.step .start (.access ⟨.load, .block ⟨3, 0, Nat.two_pos⟩⟩)) (.access ⟨.load, .range 2 0⟩)

/-- The block 0 is loaded, then some block of the sets 2 to 3. -/
def straight : Run (Event thirdSet) :=
  .step (.step .start (.access ⟨.load, .block ⟨3, 0, Nat.two_pos⟩⟩)) (.access ⟨.load, .range 2 3⟩)

/-- Two ways: the block 0 stays in the set 3. -/
theorem position_le_age_straight : ∃ p ≤ 1, (after (A := 2) true 3 LruSet.empty
    [.touch ⟨.load, 3, 0⟩, .touch ⟨.load, 3, 1⟩]).At ((0 : Fin 2) : Nat) p :=
  position_le_age (A := 2) straight
    (by decide) _ (.inl rfl) (0 : Fin 2) 1 (by decide) (by decide) (by decide) _ List.mem_cons_self _ (by decide) _

/-- One way: the access to the wrapped range may load the block 1 of the set 3, which is between its
ends; the state says that the block 0 is still there. -/
theorem wrapped_range_skips :
    (wrapped.eval (transfer 1 thirdSet 3)).contains (0 : Fin 2) ∧
      (wrapped.eval (transfer 1 thirdSet 3)).age (0 : Fin 2) = 0 ∧
        ¬ ∀ h ∈ wrapped.histories, ∀ steps, List.Forall₂ Event.Covers h steps → ∀ s : LruSet Nat 1,
          ∃ p ≤ 0, (after true 3 s steps).At ((0 : Fin 2) : Nat) p := by
  refine ⟨by decide, by decide, fun sound => ?_⟩
  obtain ⟨p, le, hp⟩ := sound _ List.mem_cons_self [.touch ⟨.load, 3, 0⟩, .touch ⟨.load, 3, 1⟩] (by decide)
    LruSet.empty
  obtain rfl : p = 0 := by omega
  exact absurd hp (by decide)

end MUSTProblem

end Otawa.Dcache
