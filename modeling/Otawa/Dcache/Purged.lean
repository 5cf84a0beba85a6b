import Otawa.Dcache.Must

/-!
# Purged lines

The states of a set after a purge, against the contents of the set from which lines that
the access may purge have been removed. An item of the persistence says of a purged block
that it is wiped, if its context has accessed it.

A purge is followed (`purge_sound_iff`) but for

* a block of the set whose index is not the number of the set: the items wipe the block
  with the number of the set for index;
* a range that ends at its first set, or before it: `inRange` has every set in it.
-/

namespace Otawa.Dcache

open Otawa.Cache Otawa.Lru
open Otawa.MUSTPERS (Context ItemBounds Machine)
open Otawa.PERSProblem (Item)

variable {A : Nat} {colls : Nat → BlockCollection} {set : Nat} {kind : Kind colls}

/-- Lines of the set that the access may purge are removed from its content. -/
inductive Purged (set : Nat) (kind : Kind colls) (s : LruSet Nat A) : LruSet Nat A → Prop
  | none : Purged set kind s s
  | remove {s' : LruSet Nat A} (line : Nat) (before : Purged set kind s s')
      (covers : BlockAccess.Covers ⟨.purge, kind⟩ ⟨.purge, set, line⟩) :
      Purged set kind s (s'.remove line)

/-- The purge can touch the set. -/
def Reaches (set : Nat) (kind : Kind colls) : Prop :=
  ∃ line, BlockAccess.Covers ⟨.purge, kind⟩ ⟨.purge, set, line⟩

/-- The state after the purge is sound for what is left of the set, in the contexts that are
open, and the state of a set that the purge cannot touch is as before. -/
structure FollowsPurge {State : Type} (Covers : State → Machine A → Prop) (set : Nat) (kind : Kind colls)
    (d d' : State) : Prop where
  covers : ∀ m s', Covers d m → Purged set kind m.set s' → Covers d' { m with set := s' }
  keeps : ¬ Reaches set kind → d' = d

theorem not_reaches_range {first last : Nat} (out : ¬ Spans first last set) :
    ¬ Reaches set (.range first last : Kind colls) := by
  rintro ⟨line, -, spans⟩
  exact out spans

theorem not_reaches_block {b : Block colls} (away : b.set ≠ set) : ¬ Reaches set (.block b) := by
  rintro ⟨line, -, here, -⟩
  exact away here.symm

theorem covers_block {b : Block colls} {id : Fin (colls set).count} (known : b.indexIn set = some id) :
    BlockAccess.Covers ⟨.purge, .block b⟩ ⟨.purge, set, id⟩ := by
  obtain ⟨mine, index⟩ := Block.indexIn_eq_some.mp known
  exact ⟨rfl, mine.symm, index.symm⟩

theorem Purged.eq_of_not_reaches {s s' : LruSet Nat A} (purged : Purged set kind s s')
    (away : ¬ Reaches set kind) : s' = s := by
  cases purged with
  | none => rfl
  | remove line before covers => exact absurd ⟨line, covers⟩ away

/-- A range in which a set is that it does not reach. -/
theorem last_le_first {first last : Nat} (out : ¬ Spans first last set)
    (inside : inRange first last set = true) : last ≤ first := by
  by_contra lt
  apply out
  unfold inRange at inside
  rw [if_pos (not_le.mp lt)] at inside
  unfold Spans
  rw [if_pos (not_le.mp lt).le]
  simpa using inside

theorem inRange_of_le {first last : Nat} (le : last ≤ first) (set : Nat) : inRange first last set = true := by
  unfold inRange
  rw [if_neg (not_lt.mpr le)]
  simp only [Bool.or_eq_true, decide_eq_true_eq]
  omega

/-! ### MUST -/

namespace MUSTProblem

open Otawa.MUSTProblem (Domain)

/-- The purges that leave the state of a set alone that they cannot touch. -/
def PurgeFits (set : Nat) (d : Domain A (colls set).count) : Kind colls → Prop
  | .range first last => last ≤ first → Spans first last set ∨ ∀ i, ¬ d.contains i
  | _ => True

variable {d : Domain A (colls set).count} {s s' : LruSet Nat A}

theorem purge_range (first last : Nat) :
    purge set d (.range first last) = if inRange first last set = true then .empty A _ else d := rfl

theorem purge_block_of_ne {b : Block colls} (away : b.set ≠ set) : purge set d (.block b) = d := by
  simp only [purge, Block.indexIn_eq_none.mpr away]

theorem purge_block {b : Block colls} {id : Fin (colls set).count} (known : b.indexIn set = some id) :
    purge set d (.block b) = drop d id := by
  simp only [purge, known]

/-- A state that does not contain the purged blocks is sound after their removal. -/
theorem bounds_purged (bounds : d.Bounds s) (purged : Purged set kind s s')
    (absent : ∀ i : Fin (colls set).count, BlockAccess.Covers ⟨.purge, kind⟩ ⟨.purge, set, i⟩ → ¬ d.contains i) :
    d.Bounds s' := by
  induction purged with
  | none => exact bounds
  | remove line before covers ih =>
    intro i has young
    have ne : (i : Nat) ≠ line := by
      rintro rfl
      exact absent i covers has
    obtain ⟨p, le, hp⟩ := ih i has young
    obtain ⟨p', le', hp'⟩ := hp.remove ne
    exact ⟨p', by omega, hp'⟩

theorem bounds_of_drop (bounds : d.Bounds s) (id : Fin (colls set).count) : (drop d id).Bounds s := by
  intro i has young
  have ne : i ≠ id := by
    rintro rfl
    exact has (Function.update_self _ _ _)
  have same : (drop d id).age i = d.age i := Function.update_of_ne ne _ _
  unfold Ages.contains at has
  rw [same] at has young ⊢
  exact bounds i has young

theorem not_contains_drop (id : Fin (colls set).count) : ¬ (drop d id).contains id := by
  intro has
  exact has (Function.update_self _ _ _)

/-- Every purge is followed. -/
theorem bounds_purge (bounds : d.Bounds s) (purged : Purged set kind s s') : (purge set d kind).Bounds s' := by
  cases kind with
  | any => exact Otawa.MUSTProblem.Domain.bounds_empty s'
  | range first last =>
    rw [purge_range]
    by_cases inside : inRange first last set = true
    · rw [if_pos inside]
      exact Otawa.MUSTProblem.Domain.bounds_empty s'
    · rw [if_neg inside]
      have out : ¬ Spans first last set := fun spans => inside (inRange_of_spans spans)
      rwa [purged.eq_of_not_reaches (not_reaches_range out)]
  | block b =>
    cases known : b.indexIn set with
    | none =>
      have away := Block.indexIn_eq_none.mp known
      rwa [purge_block_of_ne away, purged.eq_of_not_reaches (not_reaches_block away)]
    | some id =>
      rw [purge_block known]
      apply bounds_purged (bounds_of_drop bounds id) purged
      rintro i ⟨-, -, line⟩
      obtain ⟨-, index⟩ := Block.indexIn_eq_some.mp known
      obtain rfl : i = id := Fin.ext (line.trans index)
      exact not_contains_drop i

theorem empty_eq_iff : Domain.empty A (colls set).count = d ↔ ∀ i, ¬ d.contains i := by
  constructor
  · rintro rfl i has
    exact has rfl
  · intro absent
    obtain ⟨ages⟩ := d
    unfold Domain.empty
    congr 1
    ext i
    exact (not_not.mp (absent i)).symm

theorem purge_eq_iff : (¬ Reaches set kind → purge set d kind = d) ↔ PurgeFits set d kind := by
  cases kind with
  | any =>
    refine iff_of_true (fun away => ?_) trivial
    exact absurd ⟨0, rfl, trivial⟩ away
  | block b =>
    refine iff_of_true (fun away => ?_) trivial
    have out : b.set ≠ set := fun here => away ⟨b.index, rfl, here.symm, rfl⟩
    exact purge_block_of_ne out
  | range first last =>
    constructor
    · intro keeps le
      by_cases spans : Spans first last set
      · exact .inl spans
      · have same := keeps (not_reaches_range spans)
        rw [purge_range, if_pos (inRange_of_le le set)] at same
        exact .inr (empty_eq_iff.mp same)
    · intro fits away
      have out : ¬ Spans first last set := fun spans => away ⟨0, rfl, spans⟩
      rw [purge_range]
      by_cases inside : inRange first last set = true
      · rw [if_pos inside]
        exact empty_eq_iff.mpr ((fits (last_le_first out inside)).resolve_left out)
      · rw [if_neg inside]

end MUSTProblem

/-! ### Persistence -/

namespace PERSProblem

open Otawa.PERSProblem (Domain)

/-- The index that the source reads of each item is one of its ages. -/
def InAges (set : Nat) : Kind colls → Prop
  | .block b => b.set = set → b.set < (colls set).count
  | _ => True

/-- A persistence state is sound for a content of the set: its items bound the blocks of the
program and of the loops that are open. -/
structure Covers (program : Context) (d : Domain A (colls set).count) (m : Machine A) : Prop where
  reached : d.isBottom = false
  whole : ItemBounds d.whole program m.set
  items : ∀ (j : Nat) (item : Item A (colls set).count), d.data[j]? = some item →
    ∃ c, m.contexts[j]? = some c ∧ ItemBounds item c m.set

/-- A block is persistent, and in one of the contents that are known to be possible it is in the
set as its age says. -/
def Kept (known : LruSet Nat A → Prop) (item : Item A (colls set).count) (id : Fin (colls set).count) : Prop :=
  item.isPersistent id ∧ ∃ s, known s ∧ ∃ p : Nat, p ≤ item.age id ∧ s.At id p

/-- The purges that keep the items sound, when `kept` are the blocks that an item has in the set. -/
def PurgeFits (kept : Item A (colls set).count → Fin (colls set).count → Prop) (d : Domain A (colls set).count) :
    Kind colls → Prop
  | .any => True
  | .range first last => last ≤ first → Spans first last set ∨
      ∀ item, (item = d.whole ∨ item ∈ d.data) → ∀ i, ¬ item.isPersistent i
  | .block b => b.set = set → b.set < (colls set).count ∧ ((b.index : Nat) = b.set ∨ d.isBottom = true ∨
      ∀ item, (item = d.whole ∨ item ∈ d.data) → ∀ id, b.indexIn set = some id → ¬ kept item id)

variable {item : Item A (colls set).count} {c : Context} {s s' : LruSet Nat A} {i : Fin (colls set).count}

theorem wipeAll_age (item : Item A (colls set).count) (i : Fin (colls set).count) :
    (Item.wipeAll item).age i = wipe A (item.age i) :=
  Loop.sweep_pointwise _ _ i

theorem wipeOne_age (item : Item A (colls set).count) (id i : Fin (colls set).count) :
    (Item.wipeOne item id).age i = if i = id then wipe A (item.age i) else item.age i := by
  unfold Item.wipeOne
  by_cases eq : i = id
  · rw [if_pos eq, eq]
    exact Function.update_self _ _ _
  · rw [if_neg eq]
    exact Function.update_of_ne eq _ _

theorem purge_range (first last : Nat) : Item.purge set item (.range first last : Kind colls) =
    if inRange first last set = true then Item.wipeAll item else item := rfl

theorem purge_block_of_ne {b : Block colls} (away : b.set ≠ set) : Item.purge set item (.block b) = item :=
  if_neg away

theorem purge_block {b : Block colls} (here : b.set = set) (inAges : b.set < (colls set).count) :
    Item.purge set item (.block b) = Item.wipeOne item ⟨b.set, inAges⟩ :=
  (if_pos here).trans (dif_pos inAges)

/-- A purge leaves an age or wipes its block. -/
theorem purge_age (item : Item A (colls set).count) (kind : Kind colls) (i : Fin (colls set).count) :
    (Item.purge set item kind).age i = item.age i ∨ (Item.purge set item kind).age i = wipe A (item.age i) := by
  cases kind with
  | any => exact .inr (wipeAll_age item i)
  | range first last =>
    rw [purge_range]
    split
    · exact .inr (wipeAll_age item i)
    · exact .inl rfl
  | block b =>
    by_cases here : b.set = set
    · by_cases inAges : b.set < (colls set).count
      · rw [purge_block here inAges, wipeOne_age]
        split
        · exact .inr rfl
        · exact .inl rfl
      · have same : Item.purge set item (.block b) = item := (if_pos here).trans (dif_neg inAges)
        rw [same]
        exact .inl rfl
    · rw [purge_block_of_ne here]
      exact .inl rfl

theorem wipe_of_contains (has : item.contains i) : wipe A (item.age i) = A :=
  if_pos has

theorem isWiped_purge (wiped : item.isWiped i) (kind : Kind colls) : (Item.purge set item kind).isWiped i := by
  unfold Item.isWiped at *
  rcases purge_age item kind i with same | gone
  · exact same.trans wiped
  · exact gone.trans (wipe_of_contains fun absent => by omega)

/-- An item with more blocks wiped bounds the same contents. -/
theorem itemBounds_purge (bounds : ItemBounds item c s) (kind : Kind colls) :
    ItemBounds (Item.purge set item kind) c s := by
  intro i accessed
  obtain ⟨has, place⟩ := bounds i accessed
  unfold Ages.contains Item.isWiped
  rcases purge_age item kind i with same | wiped
  · rw [same]
    exact ⟨has, place⟩
  · rw [wiped, wipe_of_contains has]
    exact ⟨by omega, .inl rfl⟩

/-- An item with the purged blocks of its context wiped bounds the content that is left. -/
theorem itemBounds_purged (bounds : ItemBounds item c s) (purged : Purged set kind s s')
    (wiped : ∀ i : Fin (colls set).count, BlockAccess.Covers ⟨.purge, kind⟩ ⟨.purge, set, i⟩ →
      (i : Nat) ∈ c.accessed → item.isWiped i) : ItemBounds item c s' := by
  induction purged with
  | none => exact bounds
  | remove line before covers ih =>
    intro i accessed
    obtain ⟨has, place⟩ := ih i accessed
    refine ⟨has, ?_⟩
    by_cases eq : (i : Nat) = line
    · exact .inl (wiped i (eq ▸ covers) accessed)
    · rcases place with wiped | ⟨p, le, hp⟩
      · exact .inl wiped
      · obtain ⟨p', le', hp'⟩ := hp.remove eq
        exact .inr ⟨p', by omega, hp'⟩

/-- What the condition says of one item. -/
def ItemFits (known : LruSet Nat A → Prop) (item : Item A (colls set).count) : Kind colls → Prop
  | .block b => b.set = set → b.set < (colls set).count ∧ ((b.index : Nat) = b.set ∨
      ∀ id, b.indexIn set = some id → ¬ Kept known item id)
  | _ => True

theorem itemBounds_follows {known : LruSet Nat A → Prop} (possible : known s) (bounds : ItemBounds item c s)
    (fits : ItemFits known item kind) (purged : Purged set kind s s') :
    ItemBounds (Item.purge set item kind) c s' := by
  have after := itemBounds_purge bounds kind
  have wipedAll : ∀ i : Fin (colls set).count, (i : Nat) ∈ c.accessed → (Item.wipeAll item).isWiped i :=
    fun i accessed => (wipeAll_age item i).trans (wipe_of_contains (bounds i accessed).1)
  apply itemBounds_purged after purged
  intro i covers accessed
  cases kind with
  | any => exact wipedAll i accessed
  | range first last =>
    rw [purge_range, if_pos (MUSTProblem.inRange_of_spans covers.2)]
    exact wipedAll i accessed
  | block b =>
    obtain ⟨-, here, line⟩ := covers
    obtain ⟨inAges, own | unkept⟩ := fits here.symm
    · rw [purge_block here.symm inAges]
      unfold Item.isWiped
      rw [wipeOne_age, if_pos (Fin.ext (line.trans own)), wipe_of_contains (bounds i accessed).1]
    · obtain ⟨has, place⟩ := bounds i accessed
      have named : b.indexIn set = some i := Block.indexIn_eq_some.mpr ⟨here.symm, line.symm⟩
      apply isWiped_purge
      by_contra wiped
      obtain ⟨p, le, hp⟩ := place.resolve_left wiped
      exact unkept i named ⟨⟨has, wiped⟩, s, possible, p, le, hp⟩

variable {program : Context} {d : Domain A (colls set).count} {known : LruSet Nat A → Prop}

theorem itemFits_of_fits (fits : PurgeFits (Kept known) d kind) (reached : d.isBottom = false)
    (mem : item = d.whole ∨ item ∈ d.data) : ItemFits known item kind := by
  cases kind with
  | any => trivial
  | range first last => trivial
  | block b =>
    intro here
    obtain ⟨inAges, own | bottom | unkept⟩ := fits here
    · exact ⟨inAges, .inl own⟩
    · exact absurd (reached.symm.trans bottom) Bool.false_ne_true
    · exact ⟨inAges, .inr (unkept item mem)⟩

/-- A purge that fits is followed in all items. -/
theorem covers_purge {m : Machine A} (fits : PurgeFits (Kept known) d kind) (possible : known m.set)
    (covers : Covers program d m) (purged : Purged set kind m.set s') :
    Covers program (purge set d kind) { m with set := s' } where
  reached := covers.reached
  whole := itemBounds_follows possible covers.whole (itemFits_of_fits fits covers.reached (.inl rfl)) purged
  items j item at_j := by
    obtain ⟨before, at_j', rfl⟩ := Option.map_eq_some_iff.mp (List.getElem?_map.symm.trans at_j)
    obtain ⟨c, at_c, bounds⟩ := covers.items j before at_j'
    have mem : before = d.whole ∨ before ∈ d.data := .inr (List.mem_of_getElem? at_j')
    exact ⟨c, at_c, itemBounds_follows possible bounds (itemFits_of_fits fits covers.reached mem) purged⟩

theorem wipeAll_eq_iff : Item.wipeAll item = item ↔ ∀ i, ¬ item.isPersistent i := by
  constructor
  · rintro same i ⟨has, wiped⟩
    apply wiped
    unfold Item.isWiped
    rw [← same, wipeAll_age, wipe_of_contains has]
  · intro gone
    have ages : (Item.wipeAll item).toAges = item.toAges := by
      ext i
      rw [wipeAll_age, wipe]
      split
      · next has => exact (not_not.mp fun wiped => gone i ⟨has, wiped⟩).symm
      · rfl
    cases item
    unfold Item.wipeAll at *
    congr 1

theorem purge_eq_iff : purge set d kind = d ↔
    ∀ item, (item = d.whole ∨ item ∈ d.data) → Item.purge set item kind = item := by
  constructor
  · intro same item mem
    rcases mem with rfl | mem
    · exact congrArg Domain.whole same
    · have data := congrArg Domain.data same
      exact List.map_inj_left.mp (data.trans (List.map_id d.data).symm) item mem
  · intro same
    obtain ⟨isBottom, whole, data, bottom⟩ := d
    unfold purge onItems
    congr 1
    · exact same whole (.inl rfl)
    · exact (List.map_congr_left fun item mem => same item (.inr mem)).trans (List.map_id data)

/-- A set that the purge cannot touch is left alone. -/
theorem purge_of_not_reaches {kept : Item A (colls set).count → Fin (colls set).count → Prop}
    (fits : PurgeFits kept d kind) (away : ¬ Reaches set kind) : purge set d kind = d := by
  rw [purge_eq_iff]
  intro item mem
  cases kind with
  | any => exact absurd ⟨0, rfl, trivial⟩ away
  | range first last =>
    have out : ¬ Spans first last set := fun spans => away ⟨0, rfl, spans⟩
    rw [purge_range]
    by_cases inside : inRange first last set = true
    · rw [if_pos inside]
      have gone := (fits (last_le_first out inside)).resolve_left out
      exact wipeAll_eq_iff.mpr (gone item mem)
    · rw [if_neg inside]
  | block b => exact purge_block_of_ne fun here => away ⟨b.index, rfl, here.symm, rfl⟩

/-- A block that is in the set stays persistent in an item after its purge, if the item wipes another one. -/
theorem not_itemBounds_purge {b : Block colls} (here : b.set = set) (inAges : b.set < (colls set).count)
    (other : (b.index : Nat) ≠ b.set) (known : b.indexIn set = some i) (persistent : item.isPersistent i) :
    ¬ ItemBounds (Item.purge set item (.block b)) ⟨[i], []⟩ (s.remove (i : Nat)) := by
  intro bounds
  obtain ⟨-, index⟩ := Block.indexIn_eq_some.mp known
  have same : (Item.purge set item (.block b)).age i = item.age i := by
    rw [purge_block here inAges, wipeOne_age, if_neg]
    rintro rfl
    exact other index
  obtain ⟨-, wiped | ⟨p, -, hp⟩⟩ := bounds i List.mem_cons_self
  · unfold Item.isWiped at wiped
    rw [same] at wiped
    exact persistent.2 wiped
  · exact (LruSet.mem_remove.mp hp.mem).1 rfl

open Classical in
/-- The largest context, of no block or of one, that an item bounds. -/
noncomputable def contextOf (item : Item A (colls set).count) (id : Nat) (s : LruSet Nat A) : Context :=
  if ItemBounds item ⟨[id], []⟩ s then ⟨[id], []⟩ else ⟨[], []⟩

theorem itemBounds_contextOf (item : Item A (colls set).count) (id : Nat) (s : LruSet Nat A) :
    ItemBounds item (contextOf item id s) s := by
  unfold contextOf
  split
  · assumption
  · exact fun i accessed => absurd accessed List.not_mem_nil

/-- The state is sound for the set when each item has the block accessed that it bounds. -/
theorem covers_contextOf (reached : d.isBottom = false) (id : Nat) (s : LruSet Nat A) :
    Covers (contextOf d.whole id s) d ⟨s, d.data.map fun item => contextOf item id s⟩ where
  reached := reached
  whole := itemBounds_contextOf d.whole id s
  items _ item at_j :=
    ⟨contextOf item id s, List.getElem?_map.trans (congrArg _ at_j), itemBounds_contextOf item id s⟩

theorem itemBounds_single {p : Nat} (persistent : item.isPersistent i) (le : p ≤ item.age i) (at_p : s.At i p) :
    ItemBounds item ⟨[i], []⟩ s := by
  intro i' accessed
  obtain rfl : i' = i := Fin.ext (List.mem_singleton.mp accessed)
  exact ⟨persistent.1, .inr ⟨p, le, at_p⟩⟩

/-- No other purges are followed in all items. -/
theorem fits_of_follows (inAges : InAges set kind) (keeps : ¬ Reaches set kind → purge set d kind = d)
    (follows : ∀ program m s', known m.set → Covers program d m → Purged set kind m.set s' →
      Covers program (purge set d kind) { m with set := s' }) : PurgeFits (Kept known) d kind := by
  cases kind with
  | any => trivial
  | range first last =>
    intro le
    by_cases spans : Spans first last set
    · exact .inl spans
    right
    intro item mem
    have same := purge_eq_iff.mp (keeps (not_reaches_range spans)) item mem
    rw [purge_range, if_pos (inRange_of_le le set)] at same
    exact wipeAll_eq_iff.mp same
  | block b =>
    intro here
    refine ⟨inAges here, ?_⟩
    by_cases own : (b.index : Nat) = b.set
    · exact .inl own
    cases reached : d.isBottom with
    | true => exact .inr (.inl rfl)
    | false =>
      right; right
      rintro item mem id named ⟨persistent, s, possible, p, le, at_p⟩
      have purged : Purged set (.block b) s (s.remove (id : Nat)) := .remove id .none (covers_block named)
      have after := follows _ ⟨s, _⟩ _ possible (covers_contextOf reached id s) purged
      have context : contextOf item id s = ⟨[id], []⟩ := if_pos (itemBounds_single persistent le at_p)
      have broken := @not_itemBounds_purge A colls set item (s := s) id b here (inAges here) own named persistent
      rcases mem with rfl | mem
      · apply broken
        rw [← context]
        exact after.whole
      · obtain ⟨j, at_j⟩ := List.getElem?_of_mem mem
        obtain ⟨c, at_c, bounds⟩ := after.items j _ (List.getElem?_map.trans (congrArg _ at_j))
        cases Option.some.inj (at_c.symm.trans (List.getElem?_map.trans (congrArg _ at_j)))
        apply broken
        rw [← context]
        exact bounds

theorem inAges_of_fits {kept : Item A (colls set).count → Fin (colls set).count → Prop}
    (fits : PurgeFits kept d kind) : InAges set kind := by
  cases kind with
  | any => trivial
  | range first last => trivial
  | block b => exact fun here => (fits here).1

/-- A persistent block is in some content of the set. -/
theorem kept_iff (item : Item A (colls set).count) (id : Fin (colls set).count) :
    Kept (fun _ => True) item id ↔ item.isPersistent id := by
  refine ⟨And.left, fun persistent => ⟨persistent, ?_⟩⟩
  have nonneg := Ages.contains_iff_nonneg.mp persistent.1
  have le := item.le_wiped id
  have young : item.age id ≠ A := persistent.2
  refine ⟨⟨[id], List.nodup_singleton _, ?_⟩, trivial, 0, nonneg, rfl⟩
  rw [List.length_singleton]
  omega

theorem kept_eq : Kept (fun _ => True) = @Item.isPersistent A (colls set).count :=
  funext₂ fun item id => propext (kept_iff item id)

end PERSProblem

/-! ### MUST and persistence -/

namespace MUSTPERS

open Otawa.MUSTPERS (Domain)

/-- Both parts are sound for the content of the set. -/
def Covers (program : Context) (d : Domain A (colls set).count) (m : Machine A) : Prop :=
  d.must.Bounds m.set ∧ PERSProblem.Covers program d.pers m

theorem follows_iff (d : Domain A (colls set).count) (kind : Kind colls) :
    (PERSProblem.InAges set kind ∧
      ∀ program, FollowsPurge (Covers program) set kind d (update set d ⟨.purge, kind⟩)) ↔
    MUSTProblem.PurgeFits set d.must kind ∧
      PERSProblem.PurgeFits (PERSProblem.Kept d.must.Bounds) d.pers kind := by
  constructor
  · rintro ⟨inAges, follows⟩
    have keeps : ¬ Reaches set kind → update set d ⟨.purge, kind⟩ = d := (follows ⟨[], []⟩).keeps
    constructor
    · exact MUSTProblem.purge_eq_iff.mp fun away => congrArg Domain.must (keeps away)
    · apply PERSProblem.fits_of_follows inAges fun away => congrArg Domain.pers (keeps away)
      intro program m s' bounds covers purged
      exact ((follows program).covers m s' ⟨bounds, covers⟩ purged).2
  · rintro ⟨must, pers⟩
    refine ⟨PERSProblem.inAges_of_fits pers, fun program => ⟨?_, fun away => ?_⟩⟩
    · rintro m s' ⟨bounds, covers⟩ purged
      exact ⟨MUSTProblem.bounds_purge bounds purged, PERSProblem.covers_purge pers bounds covers purged⟩
    · obtain ⟨persPart, mustPart⟩ := d
      have samePers : PERSProblem.purge set persPart kind = persPart := PERSProblem.purge_of_not_reaches pers away
      have sameMust : MUSTProblem.purge set mustPart kind = mustPart := MUSTProblem.purge_eq_iff.mpr must away
      exact congrArg₂ Domain.mk samePers sameMust

end MUSTPERS

/-- A purge is sound, and leaves the sets alone that it cannot touch, exactly when it fits: in the MUST
states, in the persistence states and in both together. -/
theorem purge_sound_iff (A : Nat) (colls : Nat → BlockCollection) (set : Nat) (kind : Kind colls)
    (must : Otawa.MUSTProblem.Domain A (colls set).count) (pers : Otawa.PERSProblem.Domain A (colls set).count)
    (d : Otawa.MUSTPERS.Domain A (colls set).count) :
    (FollowsPurge (fun d m => d.Bounds m.set) set kind must (MUSTProblem.update set must ⟨.purge, kind⟩) ↔
      MUSTProblem.PurgeFits set must kind) ∧
    ((PERSProblem.InAges set kind ∧ ∀ program,
        FollowsPurge (PERSProblem.Covers program) set kind pers (PERSProblem.purge set pers kind)) ↔
      PERSProblem.PurgeFits Item.isPersistent pers kind) ∧
    ((PERSProblem.InAges set kind ∧ ∀ program,
        FollowsPurge (MUSTPERS.Covers program) set kind d (MUSTPERS.update set d ⟨.purge, kind⟩)) ↔
      MUSTProblem.PurgeFits set d.must kind ∧
        PERSProblem.PurgeFits (PERSProblem.Kept d.must.Bounds) d.pers kind) := by
  refine ⟨⟨?_, ?_⟩, ⟨?_, ?_⟩, MUSTPERS.follows_iff d kind⟩
  · intro follows
    exact MUSTProblem.purge_eq_iff.mp follows.keeps
  · intro fits
    exact ⟨fun m s' bounds purged => MUSTProblem.bounds_purge bounds purged, MUSTProblem.purge_eq_iff.mpr fits⟩
  · rintro ⟨inAges, follows⟩
    rw [← PERSProblem.kept_eq]
    apply PERSProblem.fits_of_follows inAges (follows ⟨[], []⟩).keeps
    exact fun program m s' _ covers purged => (follows program).covers m s' covers purged
  · intro fits
    refine ⟨PERSProblem.inAges_of_fits fits, fun program => ⟨fun m s' covers purged => ?_, ?_⟩⟩
    · rw [← PERSProblem.kept_eq] at fits
      exact PERSProblem.covers_purge fits trivial covers purged
    · exact PERSProblem.purge_of_not_reaches fits

/-- Two blocks in each set. -/
abbrev twoInSet : Nat → BlockCollection := fun _ => ⟨2, ![0, 16]⟩

/-- The block 1 has been accessed, and the block 0 has not. -/
def secondAccessed : Item 1 (twoInSet 0).count where
  age := ![-1, 0]
  absent_le := by decide
  le_wiped := by decide

/-- The persistence state with this item for the program, in no loop. -/
def inProgram : Otawa.PERSProblem.Domain 1 (twoInSet 0).count :=
  ⟨false, secondAccessed, [], fun _ => rfl⟩

/-- The block 1 alone is in the set. -/
def secondLoaded : LruSet Nat 1 := ⟨[1], by decide, by decide⟩

/-- The block 1 of the set 0 is purged: it stays persistent, and is not in the set. -/
theorem purge_wipes_other : ¬ ∀ (A : Nat) (colls : Nat → BlockCollection) (set : Nat) (kind : Kind colls)
    (must : Otawa.MUSTProblem.Domain A (colls set).count) (pers : Otawa.PERSProblem.Domain A (colls set).count)
    (d : Otawa.MUSTPERS.Domain A (colls set).count),
    FollowsPurge (fun d m => d.Bounds m.set) set kind must (MUSTProblem.update set must ⟨.purge, kind⟩) ∧
    (∀ program, FollowsPurge (PERSProblem.Covers program) set kind pers (PERSProblem.purge set pers kind)) ∧
    ∀ program, FollowsPurge (MUSTPERS.Covers program) set kind d (MUSTPERS.update set d ⟨.purge, kind⟩) := by
  intro sound
  let second : Block twoInSet := ⟨0, 1, by decide⟩
  have persistent : secondAccessed.isPersistent 1 := by decide
  have bounds : ItemBounds secondAccessed ⟨[1], []⟩ secondLoaded :=
    PERSProblem.itemBounds_single persistent (p := 0) (by decide) rfl
  have covers : PERSProblem.Covers ⟨[1], []⟩ inProgram ⟨secondLoaded, []⟩ :=
    ⟨rfl, bounds, fun j item at_j => by cases at_j⟩
  have purged : Purged 0 (.block second) secondLoaded (secondLoaded.remove 1) :=
    .remove 1 .none ⟨rfl, rfl, rfl⟩
  have follows := (sound 1 twoInSet 0 (.block second) (.empty 1 2) inProgram
    ⟨.empty 1 2, .empty 1 2⟩).2.1 ⟨[1], []⟩
  have after := follows.covers ⟨secondLoaded, []⟩ _ covers purged
  exact PERSProblem.not_itemBounds_purge (b := second) (i := 1) rfl (by decide) (by decide) rfl persistent
    after.whole

end Otawa.Dcache
