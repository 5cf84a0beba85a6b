import Otawa.Cache.Must

/-!
# The persistence problem

`PERSProblem::Item` keeps, for the blocks accessed in one loop context, an upper
bound of their position in the set since their last access, up to the age `A` of a
block that may have been wiped out. `PERSProblem::Domain` is a stack of items, one
for each loop entered, and `MUSTPERS::Domain` runs it beside the MUST problem.

A persistent block is in the set whenever the context has accessed it
(`persistent_in_set`). Two places of the code are left out there:

* when MUST contains the accessed block, `Item::inject` ages the blocks younger than
  the *persistence* age of that block, where the comment of `MUSTPERS` has its MUST
  age; an item that does not know the block, or knows it from another path, then
  ages too few blocks (`AgesYounger` says when it ages all it should);
* `Domain::lub` drops the outer items of its left operand by `data.remove(0)`, which
  removes a null pointer from a vector that has none; the items stay.

An access to a wiped block makes it persistent again, so a persistent block may have
been evicted since its first access in the context
(`evicted_since_first_access`); it has not been since the last one.
-/

namespace Otawa.PERSProblem

open Otawa.Cache Otawa.Lru Otawa.Loop Otawa.Analysis

/-- Ages go from 0 to `A - 1`; the age `A` is a block wiped out of the set and -1 a
block that the context has not accessed. -/
structure Item (A size : Nat) extends Ages size where
  le_wiped : ∀ i, age i ≤ A

namespace Item

variable {A size : Nat}

def empty (A size : Nat) : Item A size := ⟨Ages.empty size, fun _ => by simp⟩

def lub (d dom : Item A size) : Item A size where
  age i := if d.age i = -1 ∨ (d.age i < dom.age i ∧ dom.age i ≠ -1) then dom.age i else d.age i
  absent_le i := by
    split
    · exact dom.absent_le i
    · exact d.absent_le i
  le_wiped i := by
    split
    · exact dom.le_wiped i
    · exact d.le_wiped i

/-- The absent age is the least one, so the join is the maximum. -/
theorem lub_age (d dom : Item A size) (i : Fin size) :
    (d.lub dom).age i = max (d.age i) (dom.age i) := by
  have := d.absent_le i
  have := dom.absent_le i
  simp only [lub]
  split <;> omega

/-- The body of the first loop of `inject`, for the age `own` of a block and the age
`accessed` of the accessed one. -/
def ageYounger (A : Nat) (accessed own : Int) : Int :=
  if own < accessed ∧ own ≠ -1 ∧ own ≠ A then own + 1 else own

/-- The body of the second loop of `inject`. -/
def ageAll (A : Nat) (own : Int) : Int := if own ≠ -1 ∧ own ≠ A then own + 1 else own

theorem ageYounger_bounds {accessed own : Int} (lo : -1 ≤ own) (hi : own ≤ A) :
    -1 ≤ ageYounger A accessed own ∧ ageYounger A accessed own ≤ A := by
  unfold ageYounger
  split <;> omega

theorem ageAll_bounds {own : Int} (lo : -1 ≤ own) (hi : own ≤ A) :
    -1 ≤ ageAll A own ∧ ageAll A own ≤ A := by
  unfold ageAll
  split <;> omega

/-- The ages after the loops of `inject`, before the accessed block gets age 0. -/
def aged (d : Item A size) (must : MUSTProblem.Domain A size) (id : Fin size) : Fin size → Int :=
  if must.contains id then sweep (fun age i => ageYounger A (age id) (age i)) d.age
  else sweep (fun age i => ageAll A (age i)) d.age

theorem aged_apply (d : Item A size) (must : MUSTProblem.Domain A size) (id i : Fin size) :
    d.aged must id i =
      if must.contains id then ageYounger A (d.age id) (d.age i) else ageAll A (d.age i) := by
  have frozen : ageYounger A (d.age id) (d.age id) = d.age id := by simp [ageYounger]
  unfold aged
  split
  · rw [sweep_keyed, frozen, ite_self]
  · rw [sweep_pointwise]

theorem aged_bounds (d : Item A size) (must : MUSTProblem.Domain A size) (id i : Fin size) :
    -1 ≤ d.aged must id i ∧ d.aged must id i ≤ A := by
  rw [aged_apply]
  split
  · exact ageYounger_bounds (d.absent_le i) (d.le_wiped i)
  · exact ageAll_bounds (d.absent_le i) (d.le_wiped i)

def inject (d : Item A size) (must : MUSTProblem.Domain A size) (id : Fin size) : Item A size where
  age := Function.update (d.aged must id) id 0
  absent_le i := by
    by_cases eq : i = id
    · simp [eq]
    · rw [Function.update_of_ne eq]
      exact (d.aged_bounds must id i).1
  le_wiped i := by
    by_cases eq : i = id
    · simp [eq]
    · rw [Function.update_of_ne eq]
      exact (d.aged_bounds must id i).2

@[simp] theorem inject_age_self (d : Item A size) (must : MUSTProblem.Domain A size)
    (id : Fin size) : (d.inject must id).age id = 0 := by
  simp [inject]

theorem inject_age_of_ne (d : Item A size) (must : MUSTProblem.Domain A size) {id i : Fin size}
    (ne : i ≠ id) : (d.inject must id).age i =
      if must.contains id then ageYounger A (d.age id) (d.age i) else ageAll A (d.age i) := by
  simp [inject, Function.update_of_ne ne, aged_apply]

def isWiped (d : Item A size) (id : Fin size) : Prop := d.age id = A

instance (d : Item A size) (id : Fin size) : Decidable (d.isWiped id) :=
  inferInstanceAs (Decidable (d.age id = A))

def isPersistent (d : Item A size) (id : Fin size) : Prop := d.contains id ∧ ¬ d.isWiped id

instance (d : Item A size) (id : Fin size) : Decidable (d.isPersistent id) :=
  inferInstanceAs (Decidable (_ ∧ _))

end Item

/-- The stack of items, the one of the innermost context first; the vector of the
class has it last. -/
structure Domain (A size : Nat) where
  isBottom : Bool
  whole : Item A size
  data : List (Item A size)
  bottom_data : isBottom = true → data = []

namespace Domain

variable {A size : Nat}

/-- The constructor, and `setToBottom()`. -/
def bottom (A size : Nat) : Domain A size := ⟨true, Item.empty A size, [], fun _ => rfl⟩

def empty (A size : Nat) : Domain A size := ⟨false, Item.empty A size, [], fun h => nomatch h⟩

/-- The items of the same depth are joined, from the innermost ones. The loop over
`data.remove(0)` that follows removes nothing: the surplus items of `d` stay. -/
def lub (d dom : Domain A size) : Domain A size :=
  if dom.isBottom then d
  else if d.isBottom then ⟨false, dom.whole, dom.data, fun h => nomatch h⟩
  else
    ⟨false, d.whole.lub dom.whole,
      List.zipWith Item.lub d.data dom.data ++ d.data.drop dom.data.length, fun h => nomatch h⟩

def inject (d : Domain A size) (must : MUSTProblem.Domain A size) (id : Fin size) : Domain A size where
  isBottom := d.isBottom
  whole := d.whole.inject must id
  data := d.data.map fun item => item.inject must id
  bottom_data h := by rw [d.bottom_data h, List.map_nil]

/-- Called on a reached state only (an assertion of the source). -/
def enterContext (d : Domain A size) : Domain A size :=
  ⟨false, d.whole, Item.empty A size :: d.data, fun h => nomatch h⟩

/-- Called on a reached state with an open context only (assertions of the source). -/
def leaveContext (d : Domain A size) : Domain A size :=
  ⟨false, d.whole, d.data.tail, fun h => nomatch h⟩

/-- The item of `data[index]`, where index 0 is the outermost context. -/
def item? (d : Domain A size) (index : Nat) : Option (Item A size) :=
  if index < d.data.length then d.data[d.data.length - 1 - index]? else none

def isPersistent (d : Domain A size) (id : Fin size) (index : Nat) : Prop :=
  ∃ item ∈ d.item? index, item.isPersistent id

instance (d : Domain A size) (id : Fin size) (index : Nat) : Decidable (d.isPersistent id index) :=
  decidable_of_iff (∃ item ∈ (d.item? index).toList, item.isPersistent id) (by simp [isPersistent])

end Domain

end Otawa.PERSProblem

namespace Otawa.MUSTPERS

open Otawa.Cache Otawa.Lru Otawa.Analysis
open Otawa.PERSProblem (Item)

structure Domain (A size : Nat) where
  pers : PERSProblem.Domain A size
  must : MUSTProblem.Domain A size

inductive Event (size : Nat) where
  | access (id : Fin size)
  | enterContext
  | leaveContext
  deriving Repr, DecidableEq

namespace Domain

variable {A size : Nat}

def lub (d dom : Domain A size) : Domain A size := ⟨d.pers.lub dom.pers, d.must.lub dom.must⟩

def inject (d : Domain A size) (id : Fin size) : Domain A size :=
  ⟨d.pers.inject d.must id, d.must.inject id⟩

def step (d : Domain A size) : Event size → Domain A size
  | .access id => d.inject id
  | .enterContext => { d with pers := d.pers.enterContext }
  | .leaveContext => { d with pers := d.pers.leaveContext }

end Domain

def transfer (A size : Nat) : Transfer (Domain A size) (Event size) where
  entry := ⟨PERSProblem.Domain.empty A size, MUSTProblem.Domain.empty A size⟩
  bottom := ⟨PERSProblem.Domain.bottom A size, MUSTProblem.Domain.init A size⟩
  step := Domain.step
  join := Domain.lub

/-! ### Concrete runs with contexts -/

/-- What has happened in one context since it was entered. -/
structure Context where
  accessed : List Nat
  evicted : List Nat
  deriving Repr, DecidableEq

/-- An access to `b` that leaves `lines` in the set. The blocks of the context that
are no longer there have been evicted. -/
def Context.access (c : Context) (b : Nat) (lines : List Nat) : Context where
  accessed := b :: c.accessed
  evicted := c.evicted ++ (b :: c.accessed).filter (· ∉ lines)

/-- The set and the contexts open, the innermost one first. -/
structure Machine (A : Nat) where
  set : LruSet Nat A
  contexts : List Context

namespace Machine

variable {A size : Nat}

def step (m : Machine A) : Event size → Machine A
  | .access id =>
      ⟨m.set.access id, m.contexts.map fun c => c.access id (m.set.access (id : Nat)).lines⟩
  | .enterContext => { m with contexts := ⟨[], []⟩ :: m.contexts }
  | .leaveContext => { m with contexts := m.contexts.tail }

/-- The machine after a history, from a set content and no open context. -/
def after (s : LruSet Nat A) (h : List (Event size)) : Machine A := h.foldl step ⟨s, []⟩

/-- The context of the item `index` of a stack of `depth` items. -/
def context? (m : Machine A) (depth index : Nat) : Option Context := m.contexts[depth - 1 - index]?

end Machine

/-! ### Soundness -/

section Soundness

variable {A size : Nat}

/-- A block accessed in the context is wiped or at a position bounded by its age. -/
def ItemBounds (item : Item A size) (c : Context) (s : LruSet Nat A) : Prop :=
  ∀ i : Fin size, (i : Nat) ∈ c.accessed → item.contains i ∧
    (item.isWiped i ∨ ∃ p : Nat, p ≤ item.age i ∧ s.At i p)

/-- An access to `id` in this state ages, in each item, every block that is younger
than `id` in the MUST state, as the comment of `MUSTPERS` has it. -/
def AgesYounger (d : Domain A size) (id : Fin size) : Prop :=
  d.must.contains id → ∀ item ∈ d.pers.data, ∀ i, i ≠ id → item.isPersistent i →
    item.age i < d.must.age id → item.age i < item.age id

instance (d : Domain A size) (id : Fin size) : Decidable (AgesYounger d id) :=
  inferInstanceAs (Decidable (_ → ∀ item ∈ d.pers.data, _))

/-- The steps the source allows in a state, less the hits that age too few blocks. -/
def AllowStep (d : Domain A size) : Event size → Prop
  | .access id => d.pers.isBottom = false ∧ AgesYounger d id
  | .enterContext => d.pers.isBottom = false
  | .leaveContext => d.pers.isBottom = false ∧ 0 < d.pers.data.length

instance (d : Domain A size) : ∀ e : Event size, Decidable (AllowStep d e)
  | .access _ => inferInstanceAs (Decidable (_ ∧ _))
  | .enterContext => inferInstanceAs (Decidable (_ = _))
  | .leaveContext => inferInstanceAs (Decidable (_ ∧ _))

/-- The joins that have no outer item of the left operand to drop. -/
def AllowJoin (d dom : Domain A size) : Prop :=
  dom.pers.isBottom = true ∨ d.pers.data.length ≤ dom.pers.data.length

instance (d dom : Domain A size) : Decidable (AllowJoin d dom) :=
  inferInstanceAs (Decidable (_ ∨ _))

abbrev Careful (A : Nat) (r : Run (Event size)) : Prop :=
  r.Within (transfer A size) AllowStep AllowJoin

/-- The concretization: MUST bounds the set, and each item the context of its depth. -/
structure Covers (d : Domain A size) (m : Machine A) : Prop where
  reached : d.pers.isBottom = false
  must : d.must.Bounds m.set
  items : ∀ (j : Nat) (item : Item A size), d.pers.data[j]? = some item →
    ∃ c, m.contexts[j]? = some c ∧ ItemBounds item c m.set

section

variable {d : Domain A size} {item : Item A size} {c : Context} {s : LruSet Nat A} (h : ItemBounds item c s)
include h

/-- A younger block of an item is aged, or MUST puts the accessed block before it. -/
private theorem ItemBounds.hit (must : d.must.Bounds s) {id i : Fin size}
    (hit : d.must.contains id) (ages : AgesYounger d id) (mem : item ∈ d.pers.data) (ne : i ≠ id)
    (accessed : (i : Nat) ∈ c.accessed) :
    (item.inject d.must id).isWiped i ∨
      ∃ p : Nat, p ≤ (item.inject d.must id).age i ∧ (s.access id).At i p := by
  obtain ⟨has, bound⟩ := h i accessed
  unfold Item.isWiped at *
  rw [Item.inject_age_of_ne item d.must ne, if_pos hit]
  unfold Item.ageYounger
  have le := item.le_wiped i
  by_cases wiped : item.age i = A
  · simp [wiped]
  obtain ⟨p, leP, hp⟩ := bound.resolve_left wiped
  by_cases younger : item.age i < item.age id
  · rw [if_pos ⟨younger, has, wiped⟩]
    by_cases full : item.age i + 1 = A
    · exact .inl full
    · obtain ⟨p', le', hp'⟩ := hp.access_le (b := (id : Nat)) (by omega)
      exact .inr ⟨p', by omega, hp'⟩
  · rw [if_neg fun c => younger c.1]
    have after : d.must.age id ≤ item.age i := by
      by_contra lt
      exact younger (ages hit item mem i ne ⟨has, wiped⟩ (by omega))
    obtain ⟨q, leQ, hq⟩ := must id hit (by omega)
    rcases Nat.lt_trichotomy p q with before | same | behind
    · exact .inr ⟨p + 1, by omega, hp.access_younger hq before⟩
    · subst same
      exact absurd (Fin.ext (hp.line_unique hq)) ne
    · exact .inr ⟨p, leP, hp.access_older hq behind⟩

private theorem ItemBounds.miss {id i : Fin size} (miss : ¬ d.must.contains id)
    (ne : i ≠ id) (accessed : (i : Nat) ∈ c.accessed) :
    (item.inject d.must id).isWiped i ∨
      ∃ p : Nat, p ≤ (item.inject d.must id).age i ∧ (s.access id).At i p := by
  obtain ⟨has, bound⟩ := h i accessed
  unfold Item.isWiped at *
  rw [Item.inject_age_of_ne item d.must ne, if_neg miss]
  unfold Item.ageAll
  have le := item.le_wiped i
  by_cases wiped : item.age i = A
  · simp [wiped]
  obtain ⟨p, leP, hp⟩ := bound.resolve_left wiped
  rw [if_pos ⟨has, wiped⟩]
  by_cases full : item.age i + 1 = A
  · exact .inl full
  · obtain ⟨p', le', hp'⟩ := hp.access_le (b := (id : Nat)) (by omega)
    exact .inr ⟨p', by omega, hp'⟩

/-- `Item::inject` follows the access in its context. -/
theorem ItemBounds.inject (must : d.must.Bounds s) {id : Fin size}
    (ages : AgesYounger d id) (mem : item ∈ d.pers.data) :
    ItemBounds (item.inject d.must id) (c.access id (s.access (id : Nat)).lines) (s.access id) := by
  intro i accessed
  by_cases eq : i = id
  · subst eq
    unfold Ages.contains Item.isWiped
    rw [Item.inject_age_self]
    refine ⟨by omega, ?_⟩
    rcases Nat.eq_zero_or_pos A with zero | pos
    · exact .inl (by omega)
    · exact .inr ⟨0, Int.le_refl _, s.access_front i pos⟩
  · have before : (i : Nat) ∈ c.accessed :=
      (List.mem_cons.mp accessed).resolve_left fun eq' => eq (Fin.ext eq')
    constructor
    · have has := (h i before).1
      unfold Ages.contains at has ⊢
      rw [Item.inject_age_of_ne item d.must eq]
      unfold Item.ageYounger Item.ageAll
      have := item.absent_le i
      split <;> split <;> omega
    · by_cases hit : d.must.contains id
      · exact h.hit must hit ages mem eq before
      · exact h.miss hit eq before

end

theorem ItemBounds.lub_left {item : Item A size} {c : Context} {s : LruSet Nat A}
    (h : ItemBounds item c s) (dom : Item A size) : ItemBounds (item.lub dom) c s := by
  intro i accessed
  have := item.absent_le i
  have := dom.le_wiped i
  obtain ⟨has, wiped | ⟨p, le, hp⟩⟩ := h i accessed <;> unfold Ages.contains Item.isWiped at * <;>
    rw [Item.lub_age]
  · exact ⟨by omega, .inl (by omega)⟩
  · exact ⟨by omega, .inr ⟨p, by omega, hp⟩⟩

theorem ItemBounds.lub_right {dom : Item A size} {c : Context} {s : LruSet Nat A}
    (h : ItemBounds dom c s) (item : Item A size) : ItemBounds (item.lub dom) c s := by
  intro i accessed
  have := dom.absent_le i
  have := item.le_wiped i
  obtain ⟨has, wiped | ⟨p, le, hp⟩⟩ := h i accessed <;> unfold Ages.contains Item.isWiped at * <;>
    rw [Item.lub_age]
  · exact ⟨by omega, .inl (by omega)⟩
  · exact ⟨by omega, .inr ⟨p, by omega, hp⟩⟩

theorem covers_entry (s : LruSet Nat A) : Covers (transfer A size).entry ⟨s, []⟩ where
  reached := rfl
  must := MUSTProblem.Domain.bounds_empty s
  items j item h := by simp [transfer, PERSProblem.Domain.empty] at h

/-- One step of the analysis follows one step of the machine. -/
theorem Covers.step {d : Domain A size} {m : Machine A} (h : Covers d m) (e : Event size)
    (allowed : AllowStep d e) : Covers (d.step e) (m.step e) := by
  cases e with
  | access id =>
    refine ⟨h.reached, h.must.inject id, ?_⟩
    intro j injected at_j
    obtain ⟨item, hj, rfl⟩ := Option.map_eq_some_iff.mp (List.getElem?_map ▸ at_j)
    obtain ⟨c, hc, bounds⟩ := h.items j item hj
    refine ⟨c.access id (m.set.access (id : Nat)).lines, ?_, ?_⟩
    · simp [Machine.step, hc]
    · exact bounds.inject h.must allowed.2 (List.mem_of_getElem? hj)
  | enterContext =>
    refine ⟨rfl, h.must, ?_⟩
    intro j item at_j
    cases j with
    | zero => exact ⟨⟨[], []⟩, rfl, fun i mem => absurd mem List.not_mem_nil⟩
    | succ j => exact h.items j item at_j
  | leaveContext =>
    refine ⟨rfl, h.must, ?_⟩
    intro j item at_j
    simp only [Domain.step, PERSProblem.Domain.leaveContext, List.getElem?_tail] at at_j
    obtain ⟨c, hc, bounds⟩ := h.items (j + 1) item at_j
    exact ⟨c, by simpa [Machine.step] using hc, bounds⟩

/-- The items of a join, when the left operand has no surplus ones. -/
theorem lub_data {d dom : PERSProblem.Domain A size} (reached : d.isBottom = false)
    (reached' : dom.isBottom = false) (le : d.data.length ≤ dom.data.length) :
    (d.lub dom).data = List.zipWith Item.lub d.data dom.data := by
  simp [PERSProblem.Domain.lub, reached, reached', List.drop_eq_nil_of_le le]

theorem Covers.lub_left {d dom : Domain A size} {m : Machine A} (h : Covers d m)
    (allowed : AllowJoin d dom) : Covers (d.lub dom) m := by
  cases bottom : dom.pers.isBottom with
  | true =>
    have eq : d.pers.lub dom.pers = d.pers := by simp [PERSProblem.Domain.lub, bottom]
    refine ⟨?_, h.must.lub_left _, ?_⟩
    · simpa [Domain.lub, eq] using h.reached
    · simpa [Domain.lub, eq] using h.items
  | false =>
    have le := allowed.resolve_left (by simp [bottom])
    have data := lub_data h.reached bottom le
    refine ⟨?_, h.must.lub_left _, ?_⟩
    · simp [Domain.lub, PERSProblem.Domain.lub, bottom, h.reached]
    · intro j item at_j
      rw [show (d.lub dom).pers.data = _ from data, List.getElem?_zipWith_eq_some] at at_j
      obtain ⟨left, right, hl, -, rfl⟩ := at_j
      obtain ⟨c, hc, bounds⟩ := h.items j left hl
      exact ⟨c, hc, bounds.lub_left right⟩

theorem Covers.lub_right {d dom : Domain A size} {m : Machine A} (h : Covers dom m)
    (allowed : AllowJoin d dom) : Covers (d.lub dom) m := by
  have le := allowed.resolve_left (by simp [h.reached])
  cases bottom : d.pers.isBottom with
  | true =>
    have data : (d.lub dom).pers.data = dom.pers.data := by
      simp [Domain.lub, PERSProblem.Domain.lub, bottom, h.reached]
    refine ⟨?_, h.must.lub_right _, ?_⟩
    · simp [Domain.lub, PERSProblem.Domain.lub, bottom, h.reached]
    · rw [data]
      exact h.items
  | false =>
    have data := lub_data bottom h.reached le
    refine ⟨?_, h.must.lub_right _, ?_⟩
    · simp [Domain.lub, PERSProblem.Domain.lub, bottom, h.reached]
    · intro j item at_j
      rw [show (d.lub dom).pers.data = _ from data, List.getElem?_zipWith_eq_some] at at_j
      obtain ⟨left, right, -, hr, rfl⟩ := at_j
      obtain ⟨c, hc, bounds⟩ := h.items j right hr
      exact ⟨c, hc, bounds.lub_right left⟩

/-- The state of a careful run covers the machine after each history it joins. -/
theorem run_covers (r : Run (Event size)) (careful : Careful A r) (s : LruSet Nat A) :
    ∀ h ∈ r.histories, Covers (r.eval (transfer A size)) (Machine.after s h) :=
  Run.sound Covers Machine.step ⟨s, []⟩ (covers_entry s) (fun _ _ e h allowed => h.step e allowed)
    (fun _ _ _ h allowed => h.lub_left allowed) (fun _ _ _ h allowed => h.lub_right allowed) careful

/-- What the concretization says of a persistent block. -/
theorem Covers.persistent {d : Domain A size} {m : Machine A} (h : Covers d m) {id : Fin size}
    {level : Nat} (persistent : d.pers.isPersistent id level) :
    ∃ c, m.context? d.pers.data.length level = some c ∧
      ((id : Nat) ∈ c.accessed → (id : Nat) ∈ m.set.lines) := by
  obtain ⟨item, at_level, has, kept⟩ := persistent
  unfold PERSProblem.Domain.item? at at_level
  split at at_level
  · obtain ⟨c, hc, bounds⟩ := h.items _ item at_level
    refine ⟨c, hc, fun accessed => ?_⟩
    obtain ⟨p, -, hp⟩ := (bounds id accessed).2.resolve_left kept
    exact hp.mem
  · exact nomatch at_level

end Soundness

/-- Persistence is sound on careful runs: a block persistent for a level and accessed
in the context of that level has not been evicted since its last access, so its
accesses in the context miss once at most. -/
theorem persistent_in_set {A size : Nat} (r : Run (Event size)) (careful : Careful A r)
    (id : Fin size) (level : Nat)
    (persistent : (r.eval (transfer A size)).pers.isPersistent id level) :
    ∀ h ∈ r.histories, ∀ s : LruSet Nat A, ∃ c,
      (Machine.after s h).context? (r.eval (transfer A size)).pers.data.length level = some c ∧
        ((id : Nat) ∈ c.accessed → (id : Nat) ∈ (Machine.after s h).set.lines) :=
  fun h mem s => (run_covers r careful s h mem).persistent persistent

/-- A context that accesses 0 and then 1, or 1 and then 0. -/
def bothOrders : Run (Event 2) :=
  .join (.step (.step (.step .start .enterContext) (.access ⟨0, Nat.two_pos⟩)) (.access (Fin.last 1)))
    (.step (.step (.step .start .enterContext) (.access (Fin.last 1))) (.access ⟨0, Nat.two_pos⟩))

/-- Two ways, the second order: the block 0 is persistent in the context and in the set. -/
theorem persistent_in_set_both_orders :
    ∃ c, (Machine.after (LruSet.empty : LruSet Nat 2)
        [.enterContext, .access 1, .access (0 : Fin 2)]).context?
          (bothOrders.eval (transfer 2 2)).pers.data.length 0 = some c ∧
      (((0 : Fin 2) : Nat) ∈ c.accessed →
        ((0 : Fin 2) : Nat) ∈ (Machine.after (LruSet.empty : LruSet Nat 2)
          [.enterContext, .access 1, .access (0 : Fin 2)]).set.lines) :=
  persistent_in_set bothOrders (by decide) 0 0 (by decide) _ (by decide) _

/-- One way, a context that accesses 0, 1 and 0 again. -/
def reloaded : Run (Event 2) :=
  .step (.step (.step (.step .start .enterContext) (.access ⟨0, Nat.two_pos⟩)) (.access (Fin.last 1)))
    (.access ⟨0, Nat.two_pos⟩)

/-- After `reloaded` the block 0 is persistent, and it has been evicted since its first
access in the context. -/
theorem evicted_since_first_access :
    Careful 1 reloaded ∧ (reloaded.eval (transfer 1 2)).pers.isPersistent 0 0 ∧
      ¬ ∀ h ∈ reloaded.histories, ∃ c,
        (Machine.after (LruSet.empty : LruSet Nat 1) h).context? 1 0 = some c ∧
          (0 ∈ c.accessed → 0 ∉ c.evicted) := by
  refine ⟨by decide, by decide, fun sound => ?_⟩
  obtain ⟨c, at_level, kept⟩ := sound _ List.mem_cons_self
  cases Option.some.inj (at_level.symm.trans (show _ = some ⟨[0, 1, 0], [0, 1]⟩ by decide))
  exact absurd (kept (by decide)) (by decide)

-- A hit of MUST on a block the context has not accessed: block 1 is not aged by the
-- access to 0, and the access to 2 pushes it out while it stays persistent.
example : (Run.eval (transfer 2 3) (.step (.step (.step (.step (.step .start (.access 0))
      .enterContext) (.access 1)) (.access 0)) (.access 2))).pers.isPersistent 1 0 ∧
    1 ∉ (Machine.after (LruSet.empty : LruSet Nat 2)
      [.access 0, .enterContext, .access 1, .access 0, .access (2 : Fin 3)]).set.lines := by
  decide

end Otawa.MUSTPERS
