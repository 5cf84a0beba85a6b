import Otawa.Dcache.Access
import Mathlib.Data.Fintype.Basic

/-!
# Dirty lines of the data cache

`DirtyManager` keeps, for one cache set, the blocks that may be dirty and the blocks
that must be dirty.

The analysis starts from `bottom`, where every block must be dirty and none may be, which
is right for a set without blocks only. Loads leave the state as it is, although they
may evict a dirty block, and ranges of sets are compared with the addresses of the
blocks. `AllowStep` says which steps are interpreted rightly, and `dirty_sound` that
from a sound state they keep it sound.
-/

namespace Otawa.Dcache.DirtyManager

open Otawa.Lru Otawa.Analysis

variable {colls : Nat → BlockCollection} {set : Nat}

/-- `DirtyManager::t`. -/
structure State (size : Nat) where
  may : Finset (Fin size)
  must : Finset (Fin size)
  deriving DecidableEq

def bottom (size : Nat) : State size := ⟨∅, Finset.univ⟩

def top (size : Nat) : State size := ⟨Finset.univ, ∅⟩

/-- What the loop of a store to a range keeps: the first block of the range, and whether
there is another one. -/
structure Found (size : Nat) where
  may : Finset (Fin size)
  first : Option (Fin size)
  many : Bool

def storeLoop (coll : BlockCollection) (first last : Nat) (found : Found coll.count)
    (i : Fin coll.count) : Found coll.count :=
  if inRange first last (coll.address i) then
    match found.first with
    | none => { found with first := some i }
    | some _ => { found with may := insert i found.may, many := true }
  else found

def storeRange (coll : BlockCollection) (first last : Nat) (d : State coll.count) : State coll.count :=
  let found := (List.finRange coll.count).foldl (storeLoop coll first last) ⟨d.may, none, false⟩
  match found.first with
  | none => ⟨found.may, d.must⟩
  | some i => ⟨insert i found.may, if found.many then d.must else insert i d.must⟩

/-- `first` and `many` are set anew for each block, so that no block is another one than the first. -/
def purgeRange (coll : BlockCollection) (first last : Nat) (d : State coll.count) : State coll.count :=
  (List.finRange coll.count).foldl (fun d i =>
    if inRange first last (coll.address i) then ⟨d.may.erase i, d.must.erase i⟩ else d) d

def update (set : Nat) (d : State (colls set).count) (acc : BlockAccess colls) : State (colls set).count :=
  match acc.action with
  | .load => d
  | .store =>
      match acc.kind with
      | .block b =>
          match b.indexIn set with
          | some id => ⟨insert id d.may, insert id d.must⟩
          | none => d
      | .range first last => storeRange (colls set) first last d
      | .any => ⟨Finset.univ, d.must⟩
  | .purge =>
      match acc.kind with
      | .block b =>
          match b.indexIn set with
          | some id => ⟨d.may.erase id, d.must.erase id⟩
          | none => d
      | .range first last => purgeRange (colls set) first last d
      | .any => ⟨d.may, ∅⟩

def join {size : Nat} (d s : State size) : State size := ⟨d.may ∪ s.may, d.must ∩ s.must⟩

/-- The problem for one set. The analysis takes `bottom` for the state at the entry. -/
def transfer (colls : Nat → BlockCollection) (set : Nat) (known : State (colls set).count) :
    Transfer (State (colls set).count) (Event colls) where
  entry := known
  bottom := bottom _
  step := Event.onAccess (update set)
  join := join

/-! ### The loops over a range -/

section Loops

variable {coll : BlockCollection} {first last : Nat}

/-- After some blocks, the first one in the range is the head of those that are, and the others may be dirty. -/
private theorem foldl_storeLoop (l : List (Fin coll.count)) (may : Finset (Fin coll.count)) :
    let inside := l.filter fun i => inRange first last (coll.address i)
    l.foldl (storeLoop coll first last) ⟨may, none, false⟩ =
      ⟨may ∪ inside.tail.toFinset, inside.head?, !inside.tail.isEmpty⟩ := by
  induction l using List.reverseRecOn with
  | nil => simp
  | append_singleton l i ih =>
    simp only [List.foldl_append, List.foldl_cons, List.foldl_nil, ih, List.filter_append]
    by_cases inside : inRange first last (coll.address i) = true
    · cases found : l.filter fun i => inRange first last (coll.address i) with
      | nil => simp [storeLoop, inside]
      | cons j rest =>
        simp only [storeLoop, inside, if_true, List.head?_cons, List.filter_cons, List.filter_nil,
          List.cons_append, List.tail_cons]
        congr 1
        · ext x
          simp only [Finset.mem_insert, Finset.mem_union, List.mem_toFinset, List.mem_append,
            List.mem_singleton]
          tauto
        · simp
    · simp [storeLoop, inside]

/-- The blocks of the range, in order. -/
private theorem mem_inside (i : Fin coll.count) :
    i ∈ (List.finRange coll.count).filter (fun i => inRange first last (coll.address i)) ↔
      inRange first last (coll.address i) = true := by
  rw [List.mem_filter, and_iff_right (List.mem_finRange i)]

section

variable (d : State coll.count) (i : Fin coll.count)

theorem mem_storeRange_may :
    i ∈ (storeRange coll first last d).may ↔ i ∈ d.may ∨ inRange first last (coll.address i) = true := by
  rw [← mem_inside]
  unfold storeRange
  rw [foldl_storeLoop]
  cases (List.finRange coll.count).filter fun i => inRange first last (coll.address i) with
  | nil => simp
  | cons j rest =>
    simp only [List.head?_cons, List.tail_cons, Finset.mem_insert, Finset.mem_union, List.mem_toFinset,
      List.mem_cons]
    tauto

/-- A block becomes one that must be dirty when it is the only one of the range. -/
theorem mem_storeRange_must :
    i ∈ (storeRange coll first last d).must ↔ i ∈ d.must ∨ (inRange first last (coll.address i) = true ∧
      ∀ j, inRange first last (coll.address j) = true → j = i) := by
  simp only [← mem_inside]
  have nodup := (List.nodup_finRange coll.count).filter fun i => inRange first last (coll.address i)
  unfold storeRange
  rw [foldl_storeLoop]
  generalize (List.finRange coll.count).filter (fun i => inRange first last (coll.address i)) = inside at nodup ⊢
  cases inside with
  | nil => simp
  | cons j rest =>
    cases rest with
    | nil =>
      have same : i = j ∧ j = i ↔ i = j := ⟨And.left, fun eq => ⟨eq, eq.symm⟩⟩
      simp [same, or_comm]
    | cons k rest =>
      have ne : j ≠ k := fun eq => (List.nodup_cons.mp nodup).1 (eq ▸ List.mem_cons_self)
      simp only [List.head?_cons, List.tail_cons, List.isEmpty_cons, Bool.not_false, if_true]
      refine ⟨.inl, fun mem => mem.resolve_right ?_⟩
      rintro ⟨-, only⟩
      have := only j List.mem_cons_self
      have := only k (List.mem_cons_of_mem _ List.mem_cons_self)
      exact ne (by simp_all)

/-- Every block of the range is removed on both sides. -/
theorem mem_purgeRange :
    (i ∈ (purgeRange coll first last d).may ↔ i ∈ d.may ∧ inRange first last (coll.address i) = false) ∧
    (i ∈ (purgeRange coll first last d).must ↔ i ∈ d.must ∧ inRange first last (coll.address i) = false) := by
  suffices folded : ∀ l : List (Fin coll.count),
      let d' := l.foldl (fun d i =>
        if inRange first last (coll.address i) then (⟨d.may.erase i, d.must.erase i⟩ : State coll.count) else d) d
      (i ∈ d'.may ↔ i ∈ d.may ∧ (i ∈ l → inRange first last (coll.address i) = false)) ∧
      (i ∈ d'.must ↔ i ∈ d.must ∧ (i ∈ l → inRange first last (coll.address i) = false)) by
    simpa [purgeRange] using folded (List.finRange coll.count)
  intro l
  induction l using List.reverseRecOn with
  | nil => simp
  | append_singleton l j ih =>
    simp only [List.foldl_append, List.foldl_cons, List.foldl_nil, List.mem_append, List.mem_singleton]
    dsimp only at ih
    by_cases eq : i = j
    · subst eq
      cases inside : inRange first last (coll.address i) <;> simp [inside, ih]
    · cases inRange first last (coll.address j) <;> simp [ih, eq]

end

end Loops

/-! ### Soundness -/

/-- One set of a write-back cache: its content and the lines that are dirty. -/
structure Cache (A : Nat) where
  set : LruSet Nat A
  dirty : List Nat
  resident : ∀ n ∈ dirty, n ∈ set.lines

namespace Cache

variable {A : Nat}

/-- A dirty line that is evicted is written back. -/
def keep (set : LruSet Nat A) (dirty : List Nat) : Cache A where
  set := set
  dirty := dirty.filter fun n => n ∈ set.lines
  resident n mem := by simpa using (List.mem_filter.mp mem).2

def touch (allocate : Bool) (set : Nat) (c : Cache A) (t : Touch) : Cache A :=
  if t.set = set then
    match t.action with
    | .load => keep (c.set.access t.line) c.dirty
    | .store =>
        if allocate = true ∨ t.line ∈ c.set.lines then keep (c.set.access t.line) (t.line :: c.dirty) else c
    | .purge => keep (c.set.remove t.line) c.dirty
  else c

theorem mem_keep {set : LruSet Nat A} {dirty : List Nat} {n : Nat} :
    n ∈ (keep set dirty).dirty ↔ n ∈ dirty ∧ n ∈ set.lines := by
  simp [keep, List.mem_filter]

section

variable {allocate : Bool} {set : Nat} {c : Cache A} {t : Touch}

/-- Only a store makes its line dirty. -/
theorem of_mem_touch {n : Nat}
    (mem : n ∈ (c.touch allocate set t).dirty) :
    n ∈ c.dirty ∨ (t.set = set ∧ t.action = .store ∧ t.line = n) := by
  obtain ⟨action, set', line⟩ := t
  unfold touch at mem
  split at mem
  case isTrue here =>
    cases action with
    | load => exact .inl (mem_keep.mp mem).1
    | store =>
      dsimp only at mem
      split at mem
      · rcases List.mem_cons.mp (mem_keep.mp mem).1 with rfl | old
        · exact .inr ⟨here, rfl, rfl⟩
        · exact .inl old
      · exact .inl mem
    | purge => exact .inl (mem_keep.mp mem).1
  case isFalse => exact .inl mem

/-- A dirty line stays so while it is in the set. -/
theorem mem_touch {n : Nat} (dirty : n ∈ c.dirty)
    (stays : n ∈ (c.touch allocate set t).set.lines) : n ∈ (c.touch allocate set t).dirty := by
  obtain ⟨action, set', line⟩ := t
  unfold touch at stays ⊢
  split at stays
  case isTrue here =>
    rw [if_pos here]
    cases action with
    | load => exact mem_keep.mpr ⟨dirty, stays⟩
    | store =>
      dsimp only at stays ⊢
      split at stays <;> rename_i brought
      · rw [if_pos brought]
        exact mem_keep.mpr ⟨List.mem_cons_of_mem _ dirty, stays⟩
      · rwa [if_neg brought]
    | purge => exact mem_keep.mpr ⟨dirty, stays⟩
  case isFalse here => rwa [if_neg here]

/-- The line stored to is dirty if it is in the set after the store. -/
theorem stored_mem_touch (here : t.set = set)
    (store : t.action = .store) (stays : t.line ∈ (c.touch allocate set t).set.lines) :
    t.line ∈ (c.touch allocate set t).dirty := by
  unfold touch at stays ⊢
  simp only [if_pos here, store] at stays ⊢
  split at stays <;> rename_i brought
  · rw [if_pos brought]
    exact mem_keep.mpr ⟨List.mem_cons_self, stays⟩
  · exact absurd (.inr stays) brought

theorem touch_of_ne (ne : t.set ≠ set) : c.touch allocate set t = c :=
  if_neg ne

/-- A purged line is not in the set any more, and the others are. -/
theorem mem_lines_purge {n : Nat}
    (here : t.set = set) (purge : t.action = .purge) :
    n ∈ (c.touch allocate set t).set.lines ↔ n ≠ t.line ∧ n ∈ c.set.lines := by
  unfold touch
  simp only [if_pos here, purge]
  exact LruSet.mem_remove

end

end Cache

/-- The state is right for a content of the set. -/
def Sound {A size : Nat} (d : State size) (c : Cache A) : Prop :=
  (∀ i : Fin size, (i : Nat) ∈ c.dirty → i ∈ d.may) ∧ ∀ i ∈ d.must, (i : Nat) ∈ c.dirty

section

variable {A : Nat} {allocate : Bool}

/-- What an access has to respect: no load or store evicts a block that must be dirty, a block stored to
is in the set afterwards, and a range is right about the blocks that the state changes for. -/
def AllowTouch (allocate : Bool) (set : Nat) (d : State (colls set).count) (c : Cache A)
    (acc : BlockAccess colls) (t : Touch) : Prop :=
  (acc.action ≠ .purge → ∀ i ∈ d.must, (i : Nat) ∈ (c.touch allocate set t).set.lines) ∧
  match acc with
  | ⟨.store, .block b⟩ => ∀ id, b.indexIn set = some id → (id : Nat) ∈ (c.touch allocate set t).set.lines
  | ⟨.store, .range first last⟩ =>
      (t.set = set → ∀ i : Fin (colls set).count, t.line = i →
        i ∈ d.may ∨ inRange first last ((colls set).address i) = true) ∧
      ∀ i : Fin (colls set).count, inRange first last ((colls set).address i) = true →
        (∀ j, inRange first last ((colls set).address j) = true → j = i) →
          i ∈ d.must ∨ (t.set = set ∧ t.line = i ∧ (i : Nat) ∈ (c.touch allocate set t).set.lines)
  | ⟨.purge, .range first last⟩ =>
      (∀ i : Fin (colls set).count, inRange first last ((colls set).address i) = true →
        (i : Nat) ∈ c.dirty → t.set = set ∧ t.line = i) ∧
      (t.set = set → ∀ i ∈ d.must, t.line = i → inRange first last ((colls set).address i) = true)
  | _ => True

def AllowStep (allocate : Bool) (set : Nat) (d : State (colls set).count) (c : Cache A) :
    Event colls → Step → Prop
  | .access acc, .touch t => AllowTouch allocate set d c acc t
  | _, _ => True

/-- The blocks that may be dirty, after an action that is no store. -/
theorem may_of_no_store {size : Nat} {d : State size} {c : Cache A} {t : Touch} (sound : Sound d c)
    (noStore : t.action ≠ .store) {i : Fin size} (dirty : (i : Nat) ∈ (c.touch allocate set t).dirty) :
    i ∈ d.may :=
  sound.1 i ((Cache.of_mem_touch dirty).resolve_right fun store => noStore store.2.1)

variable {d : State (colls set).count} {c : Cache A} {kind : Kind colls}

/-- A store: the blocks that must be dirty stay, and the ones it may make dirty are in the state. -/
theorem sound_store (sound : Sound d c)
    {t : Touch} (covers : (⟨.store, kind⟩ : BlockAccess colls).Covers t)
    (allowed : AllowTouch allocate set d c ⟨.store, kind⟩ t) :
    Sound (update set d ⟨.store, kind⟩) (c.touch allocate set t) := by
  obtain ⟨same, covers⟩ := covers
  obtain ⟨stays, allowed⟩ := allowed
  have kept : ∀ i ∈ d.must, (i : Nat) ∈ (c.touch allocate set t).dirty := fun i mem =>
    Cache.mem_touch (sound.2 i mem) (stays (by simp) i mem)
  cases kind with
  | any => exact ⟨fun i _ => Finset.mem_univ i, kept⟩
  | block b =>
    obtain ⟨here, line⟩ := covers
    cases known : b.indexIn set with
    | none =>
      rw [Cache.touch_of_ne (here.trans_ne (Block.indexIn_eq_none.mp known))]
      simpa only [update, known] using sound
    | some id =>
      obtain ⟨mine, index⟩ := Block.indexIn_eq_some.mp known
      have line : t.line = id := line.trans index
      simp only [update, known]
      constructor
      · intro i dirty
        rw [Finset.mem_insert]
        rcases Cache.of_mem_touch dirty with old | ⟨-, -, new⟩
        · exact .inr (sound.1 i old)
        · exact .inl (Fin.ext (new.symm.trans line))
      · intro i mem
        rcases Finset.mem_insert.mp mem with rfl | mem
        · have inSet := allowed i known
          rw [← line] at inSet ⊢
          exact Cache.stored_mem_touch (here.trans mine) same.symm inSet
        · exact kept i mem
  | range first last =>
    obtain ⟨inMay, only⟩ := allowed
    constructor
    · intro i dirty
      refine (mem_storeRange_may d i).mpr ?_
      rcases Cache.of_mem_touch dirty with old | ⟨here, -, line⟩
      · exact .inl (sound.1 i old)
      · exact inMay here i line
    · intro i mem
      rcases (mem_storeRange_must d i).mp mem with old | ⟨inside, alone⟩
      · exact kept i old
      · rcases only i inside alone with old | ⟨here, line, inSet⟩
        · exact kept i old
        · rw [← line] at inSet ⊢
          exact Cache.stored_mem_touch here same.symm inSet

/-- A purge: no block becomes dirty, and the ones that must be dirty are not the purged one. -/
theorem sound_purge (sound : Sound d c)
    {t : Touch} (covers : (⟨.purge, kind⟩ : BlockAccess colls).Covers t)
    (allowed : AllowTouch allocate set d c ⟨.purge, kind⟩ t) :
    Sound (update set d ⟨.purge, kind⟩) (c.touch allocate set t) := by
  obtain ⟨same, covers⟩ := covers
  obtain ⟨stays, allowed⟩ := allowed
  have noStore : t.action ≠ .store := by simp [← same]
  cases kind with
  | any => exact ⟨fun i dirty => may_of_no_store sound noStore dirty, fun i mem => absurd mem (Finset.notMem_empty i)⟩
  | block b =>
    obtain ⟨here, line⟩ := covers
    cases known : b.indexIn set with
    | none =>
      rw [Cache.touch_of_ne (here.trans_ne (Block.indexIn_eq_none.mp known))]
      simpa only [update, known] using sound
    | some id =>
      obtain ⟨mine, index⟩ := Block.indexIn_eq_some.mp known
      have line : t.line = id := line.trans index
      have lines := fun n => @Cache.mem_lines_purge _ allocate set c t n
        (here.trans mine) same.symm
      simp only [update, known]
      constructor
      · intro i dirty
        refine Finset.mem_erase.mpr ⟨?_, may_of_no_store sound noStore dirty⟩
        rintro rfl
        exact ((lines i).mp ((c.touch allocate set t).resident i dirty)).1 line.symm
      · intro i mem
        obtain ⟨ne, mem⟩ := Finset.mem_erase.mp mem
        have dirty := sound.2 i mem
        refine Cache.mem_touch dirty ((lines i).mpr ⟨fun eq => ?_, c.resident i dirty⟩)
        exact ne (Fin.ext (eq.trans line))
  | range first last =>
    obtain ⟨outside, purged⟩ := allowed
    constructor
    · intro i dirty
      refine (mem_purgeRange d i).1.mpr ⟨may_of_no_store sound noStore dirty, ?_⟩
      by_contra inside
      have old := (Cache.of_mem_touch dirty).resolve_right fun store => noStore store.2.1
      obtain ⟨here, line⟩ := outside i (by simpa using inside) old
      have inSet := (c.touch allocate set t).resident i dirty
      exact ((Cache.mem_lines_purge here same.symm).mp inSet).1 line.symm
    · intro i mem
      obtain ⟨mem, inside⟩ := (mem_purgeRange d i).2.mp mem
      have dirty := sound.2 i mem
      by_cases here : t.set = set
      · refine Cache.mem_touch dirty ((Cache.mem_lines_purge here same.symm).mpr ⟨fun eq => ?_, c.resident i dirty⟩)
        rw [purged here i mem eq.symm] at inside
        exact absurd inside (by decide)
      · rwa [Cache.touch_of_ne here]

/-- An update follows the touch. -/
theorem sound_update (sound : Sound d c) {acc : BlockAccess colls}
    {t : Touch} (covers : acc.Covers t) (allowed : AllowTouch allocate set d c acc t) :
    Sound (update set d acc) (c.touch allocate set t) := by
  obtain ⟨action, kind⟩ := acc
  cases action with
  | load =>
    obtain ⟨same, -⟩ := covers
    obtain ⟨stays, -⟩ := allowed
    refine ⟨fun i dirty => may_of_no_store sound (by simp [← same]) dirty, fun i mem => ?_⟩
    exact Cache.mem_touch (sound.2 i mem) (stays (by simp) i mem)
  | store => exact sound_store sound covers allowed
  | purge => exact sound_purge sound covers allowed

/-- The dirty-line analysis is sound on the runs that start from a sound state and whose steps are
allowed; the state it starts from is sound for a set without blocks only. -/
theorem dirty_sound (known : State (colls set).count) (init : Cache A) (entry : Sound known init)
    (r : Run (Event colls)) (c : Cache A)
    (reaches : r.Reaches (transfer colls set known) Event.Covers (Step.onTouch (Cache.touch allocate set))
      (AllowStep allocate set) init c) :
    Sound (r.eval (transfer colls set known)) c ∧
      (Sound (bottom (colls set).count) init ↔ (colls set).count = 0) := by
  constructor
  · refine reaches.sound Sound entry ?_ ?_ ?_
    · intro d c e x sound covers allowed
      refine covers.rel sound fun acc t isAccess isTouch touched => ?_
      subst isAccess isTouch
      exact sound_update sound touched allowed
    · intro d s c sound
      exact ⟨fun i dirty => Finset.mem_union_left _ (sound.1 i dirty),
        fun i mem => sound.2 i (Finset.mem_inter.mp mem).1⟩
    · intro d s c sound
      exact ⟨fun i dirty => Finset.mem_union_right _ (sound.1 i dirty),
        fun i mem => sound.2 i (Finset.mem_inter.mp mem).2⟩
  · constructor
    · intro sound
      by_contra ne
      have first : Fin (colls set).count := ⟨0, Nat.pos_of_ne_zero ne⟩
      exact absurd (sound.1 first (sound.2 first (Finset.mem_univ first))) (Finset.notMem_empty first)
    · intro none
      exact ⟨fun i => absurd i.isLt (by omega), fun i => absurd i.isLt (by omega)⟩

end

/-- One block in every set. -/
abbrev oneBlock : Nat → BlockCollection := fun _ => ⟨1, fun _ => 16⟩

def clean : Cache 1 := ⟨LruSet.empty, [], fun _ mem => absurd mem List.not_mem_nil⟩

/-- The block is stored to. -/
def stored : Run (Event oneBlock) := .step .start (.access ⟨.store, .block ⟨0, (0 : Fin 1)⟩⟩)

/-- From `top`, the block is dirty after the store. -/
theorem dirty_sound_stored :
    Sound (stored.eval (transfer oneBlock 0 (top 1))) (clean.touch true 0 ⟨.store, 0, 0⟩) ∧
      (Sound (bottom 1) clean ↔ 1 = 0) := by
  have nothingDirty : Sound (top 1) clean :=
    ⟨fun i _ => Finset.mem_univ i, fun i mem => absurd mem (Finset.notMem_empty i)⟩
  refine @dirty_sound oneBlock 0 1 true (top 1) clean nothingDirty stored _ ?_
  refine .step (x := Step.touch ⟨.store, 0, 0⟩) .start (by decide) ⟨?_, ?_⟩
  · exact fun _ i mem => absurd mem (Finset.notMem_empty i)
  · intro id _
    revert id
    decide

/-- At the entry of the analysis the block must be dirty, and the cache is clean. -/
theorem entry_not_dirty :
    ¬ ∀ c : Cache 1, (Run.start : Run (Event oneBlock)).Reaches (transfer oneBlock 0 (bottom 1)) Event.Covers
      (Step.onTouch (Cache.touch true 0)) (fun _ _ _ _ => True) clean c →
        Sound ((Run.start : Run (Event oneBlock)).eval (transfer oneBlock 0 (bottom 1))) c := by
  intro sound
  exact absurd ((sound clean .start).2 (0 : Fin 1) (Finset.mem_univ _)) List.not_mem_nil

end Otawa.Dcache.DirtyManager
