import Otawa.Dcache.Category
import Otawa.Dcache.Dirty

/-!
# Write-backs of the data accesses

`PurgeAnalysis` says of each access of a write-back cache whether it may, or must, evict a
dirty line. It looks for a dirty block that is outside the access and stands at the age
`blockCount() - 1`, the last position if the cache has one set only; with more sets no
block of a set is that old (`mayPurge_eq_false`) and every access that is looked at is
`NO_PURGE`. The loop of `mustPurge` runs up to the number of the set instead of the number
of its blocks, and ends at once for the set 0, so no access is `MUST_PURGE`
(`purge_ne_must`). An age is taken for the position although it only bounds it, and
the blocks that no access names are not looked at.

`purge_right_iff` says on which executions the answer is right all the same.
-/

namespace Otawa.Dcache.PurgeAnalysis

open Otawa.Lru
open Otawa.CAT2Builder (Category)

/-- `purge_t`; no access has been looked at as long as it is `inv`. -/
inductive Purge where
  | inv
  | no
  | pers
  | may
  | must
  deriving DecidableEq, Repr

/-- The order of `purge_t`. -/
def Purge.rank : Purge → Nat
  | .inv => 0
  | .no => 1
  | .pers => 2
  | .may => 3
  | .must => 4

/-- `hard::Cache`: the bits of an offset in a block, of a row and of a way. -/
structure Cache where
  blockBits : Nat
  rowBits : Nat
  wayBits : Nat

namespace Cache

variable (cache : Cache)

def setCount : Nat := 2 ^ cache.rowBits

def wayCount : Nat := 2 ^ cache.wayBits

/-- The blocks of all the sets. -/
def blockCount : Nat := 2 ^ (cache.rowBits + cache.wayBits)

def set (address : Nat) : Nat := address / 2 ^ cache.blockBits % 2 ^ cache.rowBits

def tag (address : Nat) : Nat := address / 2 ^ (cache.blockBits + cache.rowBits)

/-- `BlockAccess::inSet`, for the bounds of a range; they are taken for addresses. -/
def inSet (first last set : Nat) : Bool :=
  if first < last ∧ cache.setCount ≤ cache.tag last - cache.tag first then true
  else if ¬ first < last ∧ cache.setCount ≤ cache.tag first + cache.setCount - cache.tag last then true
  else if cache.set first < cache.set last then cache.set first ≤ set && set ≤ cache.set last
  else set ≤ cache.set first || cache.set last ≤ set

/-- With several sets there are more blocks than ways. -/
theorem lt_blockCount (sets : cache.rowBits ≠ 0) : cache.wayCount < cache.blockCount := by
  refine Nat.pow_lt_pow_right Nat.one_lt_two ?_
  omega

end Cache

variable {colls : Nat → BlockCollection}

/-- `BlockAccess::in`, for a block of the set of the access; the bounds of a range are taken for addresses. -/
def inAccess (acc : BlockAccess colls) (set : Nat) (i : Fin (colls set).count) : Bool :=
  match acc.kind with
  | .any => true
  | .block b => (b.index : Nat) == i
  | .range first last =>
      if first ≤ last then first ≤ (colls set).address i && (colls set).address i ≤ last
      else (colls set).address i ≤ first || last ≤ (colls set).address i

/-- `isAny() || !inRange(block)`; `first()` asserts that the access is one to a range. -/
def outsideRange (acc : BlockAccess colls) (block : Nat) : Option Bool :=
  match acc.kind with
  | .any => some true
  | .block _ => none
  | .range first last => some (!inRange first last block)

/-- `isAny() || !in(block)`. -/
def outsideAccess (acc : BlockAccess colls) (set : Nat) (i : Fin (colls set).count) : Bool :=
  match acc.kind with
  | .any => true
  | _ => !inAccess acc set i

/-- The states of a set before an access. -/
structure State (A size : Nat) where
  must : Otawa.MUSTProblem.Domain A size
  may : Otawa.MAYProblem.Domain A size
  dirty : DirtyManager.State size

section

variable (cache : Cache) (acc : BlockAccess colls)

/-- The test of the loop of `mustPurge`; `none` for an assertion that fails. -/
def mustBePurged (set : Nat) (state : State cache.wayCount (colls set).count) (i : Nat) : Option Bool :=
  if known : i < (colls set).count then do
    let outside ← outsideRange acc i
    pure (outside && decide (state.must.age ⟨i, known⟩ = cache.blockCount - 1) &&
      decide (⟨i, known⟩ ∈ state.dirty.must))
  else none

/-- The loop runs up to the number of the set. -/
def mustPurge (set : Nat) (state : State cache.wayCount (colls set).count) : Option Bool :=
  (List.range set).anyM (mustBePurged cache acc set state)

/-- The test of the loop of `mayPurge`. -/
def mayBePurged (set : Nat) (state : State cache.wayCount (colls set).count) (i : Fin (colls set).count) :
    Bool :=
  outsideAccess acc set i && decide (state.may.age i = cache.blockCount - 1) && decide (i ∈ state.dirty.may)

def mayPurge (set : Nat) (state : State cache.wayCount (colls set).count) : Bool :=
  (List.finRange (colls set).count).any (mayBePurged cache acc set state)

/-- The switch over the category; the categories are those that `CATBuilder` gives. -/
def predict (category : Category) (set : Nat) (state : State cache.wayCount (colls set).count) : Option Purge :=
  match category with
  | .alwaysHit => some .no
  | .firstMiss => some (if mayPurge cache acc set state then .pers else .no)
  | .alwaysMiss =>
      if !mayPurge cache acc set state then some .no
      else (mustPurge cache acc set state).map fun must => if !must then .may else .must
  | .notClassified => some (if mayPurge cache acc set state then .may else .no)

/-- The access is looked at for the set. -/
def concerns (set : Nat) : Bool :=
  match acc.kind with
  | .any => true
  | .block b => b.set == set
  | .range first last => cache.inSet first last set

/-- `PURGE(access)` after the access is processed for the set. -/
def processAccess (category : Category) (set : Nat) (state : State cache.wayCount (colls set).count)
    (old : Purge) : Option Purge :=
  if concerns cache acc set then
    (predict cache acc category set state).map fun purge => if old.rank ≤ purge.rank then purge else old
  else some old

/-- The sets without blocks are passed over. -/
def processSet (category : Category) (states : ∀ set, State cache.wayCount (colls set).count) (old : Purge)
    (set : Nat) : Option Purge :=
  if (colls set).count ≠ 0 then processAccess cache acc category set (states set) old else some old

/-- `PURGE(access)` after the analysis of all the sets, for the states before the access. -/
def purge (category : Category) (states : ∀ set, State cache.wayCount (colls set).count) : Option Purge :=
  (List.range cache.setCount).foldlM (processSet cache acc category states) .inv

end

/-! ### What the analysis answers -/

section

variable {cache : Cache} {acc : BlockAccess colls} {category : Category}
  {states : ∀ set, State cache.wayCount (colls set).count}

/-- The sets for which the access is looked at. -/
def Processed (cache : Cache) (acc : BlockAccess colls) (set : Nat) : Prop :=
  concerns cache acc set = true ∧ (colls set).count ≠ 0

theorem processSet_of_processed {set : Nat} (processed : Processed cache acc set) (old : Purge) :
    processSet cache acc category states old set =
      (predict cache acc category set (states set)).map fun purge =>
        if old.rank ≤ purge.rank then purge else old := by
  rw [processSet, if_pos processed.2, processAccess, if_pos processed.1]

theorem processSet_of_not_processed {set : Nat} (passed : ¬ Processed cache acc set) (old : Purge) :
    processSet cache acc category states old set = some old := by
  unfold processSet processAccess
  by_cases blocks : (colls set).count ≠ 0
  · rw [if_pos blocks, if_neg fun concerned => passed ⟨concerned, blocks⟩]
  · rw [if_neg blocks]

/-- `PURGE(access)` is only raised. -/
theorem Purge.rank_raised {old answer : Purge} (looked : answer ≠ .inv) :
    (if old.rank ≤ answer.rank then answer else old).rank ≤ 1 ↔ old.rank ≤ 1 ∧ answer = .no := by
  cases old <;> cases answer <;> simp [rank] at looked ⊢

theorem Purge.raised_no {old : Purge} (low : old.rank ≤ 1) :
    (if old.rank ≤ Purge.no.rank then Purge.no else old) = .no :=
  if_pos low

theorem predict_ne_inv {set : Nat} {state : State cache.wayCount (colls set).count} :
    predict cache acc category set state ≠ some .inv := by
  intro eq
  cases category with
  | alwaysHit => cases eq
  | firstMiss =>
    simp only [predict] at eq
    split at eq <;> cases eq
  | alwaysMiss =>
    simp only [predict] at eq
    split at eq
    · cases eq
    · obtain ⟨must, -, eq⟩ := Option.map_eq_some_iff.mp eq
      split at eq <;> cases eq
  | notClassified =>
    simp only [predict] at eq
    split at eq <;> cases eq

/-- An access is left at `NO_PURGE` when every set that is looked at says so. -/
theorem foldlM_eq_no (sets : List Nat) (old : Purge) :
    sets.foldlM (processSet cache acc category states) old = some .no ↔
      old.rank ≤ 1 ∧ (∀ set ∈ sets, Processed cache acc set → predict cache acc category set (states set) = some .no) ∧
        (old = .no ∨ ∃ set ∈ sets, Processed cache acc set) := by
  induction sets generalizing old with
  | nil => cases old <;> simp [Purge.rank]
  | cons set sets ih =>
    rw [List.foldlM_cons]
    by_cases processed : Processed cache acc set
    · rw [processSet_of_processed processed]
      cases predicted : predict cache acc category set (states set) with
      | none =>
        constructor
        · intro eq
          cases eq
        · rintro ⟨-, all, -⟩
          exact absurd (predicted.symm.trans (all set List.mem_cons_self processed)) (by simp)
      | some answer =>
        rw [Option.map_some, Option.bind_eq_bind, Option.bind_some, ih]
        have looked : answer ≠ .inv := fun eq => predict_ne_inv (eq ▸ predicted)
        rw [Purge.rank_raised looked]
        constructor
        · rintro ⟨⟨low, no⟩, all, -⟩
          refine ⟨low, ?_, .inr ⟨set, List.mem_cons_self, processed⟩⟩
          intro other mem
          rcases List.mem_cons.mp mem with rfl | mem
          · exact fun _ => predicted.trans (congrArg some no)
          · exact all other mem
        · rintro ⟨low, all, -⟩
          have no : answer = .no :=
            Option.some.inj (predicted.symm.trans (all set List.mem_cons_self processed))
          refine ⟨⟨low, no⟩, fun other mem => all other (List.mem_cons_of_mem _ mem), .inl ?_⟩
          rw [no]
          exact Purge.raised_no low
    · rw [processSet_of_not_processed processed, Option.bind_eq_bind, Option.bind_some, ih]
      simp [processed]

theorem purge_eq_no : purge cache acc category states = some .no ↔
    (∀ set < cache.setCount, Processed cache acc set → predict cache acc category set (states set) = some .no) ∧
      ∃ set < cache.setCount, Processed cache acc set := by
  rw [purge, foldlM_eq_no]
  simp [Purge.rank]

section

variable {set : Nat} {state : State cache.wayCount (colls set).count}

/-- What is looked at is `NO_PURGE` for an access that is always a hit, and where `mayPurge` finds no block. -/
theorem predict_eq_no :
    predict cache acc category set state = some .no ↔
      category = .alwaysHit ∨ mayPurge cache acc set state = false := by
  cases found : mayPurge cache acc set state with
  | false => cases category <;> simp [predict, found]
  | true =>
    cases category with
    | alwaysHit => simp [predict]
    | firstMiss => simp [predict, found]
    | alwaysMiss =>
      simp only [predict, found]
      cases mustPurge cache acc set state with
      | none => simp
      | some must => cases must <;> simp
    | notClassified => simp [predict, found]

/-- No block of one set among several is as old as the test asks for. -/
theorem mayPurge_eq_false (sets : cache.rowBits ≠ 0) (young : ∀ i, state.may.age i < cache.wayCount) :
    mayPurge cache acc set state = false := by
  refine List.any_eq_false.mpr fun i _ found => ?_
  have old : state.may.age i = cache.blockCount - 1 := by
    simp only [mayBePurged, Bool.and_eq_true, decide_eq_true_eq] at found
    exact found.1.2
  have := cache.lt_blockCount sets
  have := young i
  omega

/-- No block that must be in one set among several is as old as the test asks for, and the loop over the
blocks of the only set ends at once. -/
theorem mustPurge_ne_true
    (known : set < cache.setCount) (young : state.must.Young) : mustPurge cache acc set state ≠ some true := by
  have none_purged : ∀ blocks : List Nat, (∀ i ∈ blocks, i < set) →
      blocks.anyM (mustBePurged cache acc set state) ≠ some true := by
    intro blocks inLoop
    induction blocks with
    | nil => simp [List.anyM]
    | cons i blocks ih =>
      have notHere : mustBePurged cache acc set state i ≠ some true := by
        intro here
        have sets : cache.rowBits ≠ 0 := by
          rintro one
          have := inLoop i List.mem_cons_self
          rw [Cache.setCount, one] at known
          omega
        unfold mustBePurged at here
        split at here
        case isFalse => cases here
        case isTrue block =>
          obtain ⟨outside, -, here⟩ := Option.bind_eq_some_iff.mp here
          have old : state.must.age ⟨i, block⟩ = cache.blockCount - 1 := by
            simp only [Option.pure_def, Option.some.injEq, Bool.and_eq_true, decide_eq_true_eq] at here
            exact here.1.2
          have := cache.lt_blockCount sets
          have := young ⟨i, block⟩
          omega
      have rest := ih fun j mem => inLoop j (List.mem_cons_of_mem _ mem)
      rw [List.anyM]
      cases here : mustBePurged cache acc set state i with
      | none => simp
      | some purged =>
        cases purged with
        | false => simpa using rest
        | true => exact absurd here notHere
  exact none_purged _ fun i mem => List.mem_range.mp mem

theorem predict_ne_must (known : set < cache.setCount) (young : state.must.Young) :
    predict cache acc category set state ≠ some .must := by
  have notPurged : mustPurge cache acc set state ≠ some true := mustPurge_ne_true known young
  cases category with
  | alwaysHit => simp [predict]
  | firstMiss =>
    simp only [predict]
    split <;> simp
  | alwaysMiss =>
    simp only [predict]
    split
    · simp
    · cases purged : mustPurge cache acc set state with
      | none => simp
      | some must =>
        cases must with
        | false => simp
        | true => exact absurd purged notPurged
  | notClassified =>
    simp only [predict]
    split <;> simp

end

/-- `MUST_PURGE` is never answered. -/
theorem purge_ne_must (young : ∀ set < cache.setCount, (states set).must.Young) :
    purge cache acc category states ≠ some .must := by
  have folded : ∀ sets : List Nat, (∀ set ∈ sets, set < cache.setCount) → ∀ old : Purge, old ≠ .must →
      sets.foldlM (processSet cache acc category states) old ≠ some .must := by
    intro sets
    induction sets with
    | nil => exact fun _ old ne eq => ne (Option.some.inj eq)
    | cons set sets ih =>
      intro known old ne
      have rest := ih fun other mem => known other (List.mem_cons_of_mem _ mem)
      have here := known set List.mem_cons_self
      rw [List.foldlM_cons]
      by_cases processed : Processed cache acc set
      · rw [processSet_of_processed processed]
        cases predicted : predict cache acc category set (states set) with
        | none => simp
        | some answer =>
          rw [Option.map_some, Option.bind_eq_bind, Option.bind_some]
          refine rest _ ?_
          split
          · exact fun eq => predict_ne_must here (young set here) (eq ▸ predicted)
          · exact ne
      · rw [processSet_of_not_processed processed]
        exact rest old ne
  exact folded _ (fun set mem => List.mem_range.mp mem) .inv (by simp)

end

/-! ### Executions -/

section

variable {cache : Cache} {allocate : Bool}

/-- The access evicts a dirty line: it leaves its set, and not by a purge. -/
def EvictsDirty (allocate : Bool) (c : Nat → DirtyManager.Cache cache.wayCount) (t : Touch) : Prop :=
  t.action ≠ .purge ∧ ∃ n ∈ (c t.set).dirty, n ∉ ((c t.set).touch allocate t.set t).set.lines

/-- An answer is right for an execution. -/
structure Right (answer : Option Purge) (evicts : Prop) : Prop where
  no : answer = some .no → ¬ evicts
  must : answer = some .must → evicts

/-- The states of a set are sound for its content. -/
structure SoundAt {A size : Nat} (state : State A size) (c : DirtyManager.Cache A) : Prop where
  must : state.must.Bounds c.set
  young : state.must.Young
  may : state.may.LowerBounds c.set
  dirty : DirtyManager.Sound state.dirty c

/-- The category is right for an execution. -/
structure CategoryRight (category : Category) (c : Nat → DirtyManager.Cache cache.wayCount) (t : Touch) :
    Prop where
  hit : category = .alwaysHit → t.line ∈ (c t.set).set.lines
  miss : category = .alwaysMiss → t.line ∉ (c t.set).set.lines

/-- The line of the access comes into a full set whose last line is dirty. -/
def ReplacesDirty (allocate : Bool) (c : Nat → DirtyManager.Cache cache.wayCount) (t : Touch) : Prop :=
  (t.action = .load ∨ t.action = .store ∧ allocate = true) ∧ t.line ∉ (c t.set).set.lines ∧
    ∃ n ∈ (c t.set).dirty, (c t.set).set.At n (cache.wayCount - 1)

/-- An access that evicts a dirty line brings its line in, into a full set whose last line is dirty, and its last line is
dirty. -/
theorem evictsDirty_iff {c : Nat → DirtyManager.Cache cache.wayCount} {t : Touch} :
    EvictsDirty allocate c t ↔ ReplacesDirty allocate c t := by
  have out : ∀ n ∈ (c t.set).dirty, n ∉ ((c t.set).set.access t.line).lines ↔
      t.line ∉ (c t.set).set.lines ∧ (c t.set).set.At n (cache.wayCount - 1) :=
    fun n dirty => LruSet.not_mem_access_iff ((c t.set).resident n dirty)
  unfold EvictsDirty ReplacesDirty DirtyManager.Cache.touch
  rw [if_pos rfl]
  cases t.action with
  | load =>
    constructor
    · rintro ⟨-, n, dirty, gone⟩
      obtain ⟨away, last⟩ := (out n dirty).mp gone
      exact ⟨.inl rfl, away, n, dirty, last⟩
    · rintro ⟨-, away, n, dirty, last⟩
      exact ⟨by simp, n, dirty, (out n dirty).mpr ⟨away, last⟩⟩
  | store =>
    dsimp only
    by_cases brought : allocate = true ∨ t.line ∈ (c t.set).set.lines
    · rw [if_pos brought]
      constructor
      · rintro ⟨-, n, dirty, gone⟩
        obtain ⟨away, last⟩ := (out n dirty).mp gone
        exact ⟨.inr ⟨rfl, brought.resolve_right away⟩, away, n, dirty, last⟩
      · rintro ⟨-, away, n, dirty, last⟩
        exact ⟨by simp, n, dirty, (out n dirty).mpr ⟨away, last⟩⟩
    · rw [if_neg brought]
      constructor
      · rintro ⟨-, n, dirty, gone⟩
        exact absurd ((c t.set).resident n dirty) gone
      · rintro ⟨load | ⟨-, allocates⟩, -⟩
        · cases load
        · exact absurd (.inl allocates) brought
  | purge => simp

/-- An execution of an access: what it touches is covered, and what is known before it is right. -/
structure Executes (cache : Cache) (acc : BlockAccess colls) (category : Category)
    (states : ∀ set, State cache.wayCount (colls set).count)
    (c : Nat → DirtyManager.Cache cache.wayCount) (t : Touch) : Prop where
  covers : acc.Covers t
  known : t.set < cache.setCount
  sound : ∀ set < cache.setCount, SoundAt (states set) (c set)
  category : CategoryRight category c t

/-- Some block outside the access may be dirty and has the age `blockCount() - 1`. -/
def Aged (cache : Cache) (acc : BlockAccess colls) (states : ∀ set, State cache.wayCount (colls set).count)
    (set : Nat) : Prop :=
  ∃ i, outsideAccess acc set i = true ∧ (states set).may.age i = cache.blockCount - 1 ∧
    i ∈ (states set).dirty.may

theorem mayPurge_iff {acc : BlockAccess colls} {states : ∀ set, State cache.wayCount (colls set).count}
    {set : Nat} : mayPurge cache acc set (states set) = true ↔ Aged cache acc states set := by
  unfold mayPurge Aged
  rw [List.any_eq_true]
  simp [mayBePurged, and_assoc]

end

/-! ### Caches of one way -/

/-- Two blocks in every set. -/
abbrev twoBlocks : Nat → BlockCollection := fun _ => ⟨2, fun i => 32 * i + 32⟩

/-- Sets of one way. -/
def oneWay (rowBits : Nat) : Cache := ⟨4, rowBits, 0⟩

/-- Block 0 is in the set and dirty. -/
def dirtyZero : DirtyManager.Cache 1 := ⟨⟨[0], List.nodup_singleton 0, Nat.le_refl 1⟩, [0], fun _ mem => mem⟩

theorem neZero_two : NeZero 2 := ⟨by decide⟩

attribute [local instance] neZero_two in
def knownZero : State 1 2 where
  must := ⟨⟨![0, -1], by decide⟩⟩
  may := ⟨⟨![0, -1], by decide⟩⟩
  dirty := ⟨{0}, {0}⟩

theorem soundAt_knownZero : SoundAt knownZero dirtyZero where
  must := by
    intro i has young
    match i with
    | 0 => exact ⟨0, Int.le_refl 0, rfl⟩
    | 1 => exact absurd rfl has
  young := by unfold Otawa.MUSTProblem.Domain.Young; decide
  may := by
    intro i p hp
    have front : p = 0 := Nat.lt_one_iff.mp hp.lt_ways
    subst front
    match i with
    | 0 => exact ⟨by decide, Int.le_refl 0⟩
    | 1 => cases hp
  dirty := by
    unfold DirtyManager.Sound
    decide

attribute [local instance] neZero_two in
/-- A load of block 1. -/
def loadOne : BlockAccess twoBlocks := ⟨.load, .block ⟨0, (1 : Fin 2)⟩⟩

theorem executes_loadOne (rowBits : Nat) :
    Executes (oneWay rowBits) loadOne .alwaysMiss (fun _ => knownZero) (fun _ => dirtyZero) ⟨.load, 0, 1⟩ where
  covers := by decide
  known := Nat.two_pow_pos rowBits
  sound _ _ := soundAt_knownZero
  category := ⟨fun hit => Category.noConfusion hit, fun _ mem => absurd (List.mem_singleton.mp mem) (by decide)⟩

end Otawa.Dcache.PurgeAnalysis
