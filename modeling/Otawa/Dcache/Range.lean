import Otawa.Dcache.Blocks
import Otawa.Dcache.Purge

/-!
# What a range is for its readers

`CLPBlockBuilder` makes a range of the set of the first and the set of the last address of a progression.
`BlockAccess::inRange` and `MUSTProblem::update` compare a set with them, without the way around the last set;
`inSet`, `in` and the loops of `DirtyManager` take them for addresses.

`agrees_iff` says when all of them see the sets and the blocks that the progression goes through: where sets and
addresses are the same numbers, or where everything is gone through.
-/

namespace Otawa.Dcache.CLPBlockBuilder

open Otawa.Clp

/-- The bytes from the first address of a progression to the last one. -/
def span (v : Value) : Nat := v.mtimes.toNat * mag v.delta

/-- The addresses of a progression and the ones between them, around the end of the addresses if need be. -/
def Between (v : Value) (x : Word) : Prop :=
  ∃ j ≤ span v, x.toNat = (v.start.toNat + j) % 2 ^ 32

/-- The set has an address of the access, or lies between two that have one. -/
def SetTouched (cache : Cache) (v : Value) (set : Nat) : Prop :=
  ∃ x, Between v x ∧ cache.set x = set

/-- The block at an address has an address of the access, or lies between two that have one. -/
def BlockTouched (cache : Cache) (v : Value) (address : Word) : Prop :=
  ∃ x, Between v x ∧ cache.round x = address

/-- `inSet` with the bits of the cache; it does not look at the ways. -/
def inSet (cache : Cache) (first last set : Nat) : Bool :=
  PurgeAnalysis.Cache.inSet ⟨cache.blockBits, cache.rowBits, 0⟩ first last set

/-- `in`, for the address of a block. -/
def inBlock (first last : Nat) (address : Word) : Bool :=
  if first ≤ last then first ≤ address.toNat && address.toNat ≤ last
  else address.toNat ≤ first || last ≤ address.toNat

/-- `inRange`, as the dirty analysis calls it: the address of a block is converted to a signed number. -/
def inRangeAddress (first last : Nat) (address : Word) : Bool :=
  if first < last then (first : Int) ≤ address.toInt && address.toInt ≤ last
  else address.toInt ≤ first || (last : Int) ≤ address.toInt

/-- All readers of a range see the sets and the blocks of the progression. -/
structure Agrees (cache : Cache) (v : Value) (first last : Nat) : Prop where
  inRange : ∀ set < cache.rowCount, inRange first last set = true ↔ SetTouched cache v set
  inSet : ∀ set < cache.rowCount, inSet cache first last set = true ↔ SetTouched cache v set
  must : ∀ set < cache.rowCount, skips first last set = false ↔ SetTouched cache v set
  inBlock : ∀ address, cache.offset address = 0 → (inBlock first last address = true ↔ BlockTouched cache v address)
  dirty : ∀ address, cache.offset address = 0 →
    (inRangeAddress first last address = true ↔ BlockTouched cache v address)

/-- Blocks are bytes, and the access is in the first ones, as many as there are sets. -/
def SameNumbers (cache : Cache) (v : Value) : Prop :=
  cache.blockBits = 0 ∧ v.start.toNat + span v < cache.rowCount

/-- The access goes through all blocks, from the last set to the first one. -/
def Everything (cache : Cache) (v : Value) : Prop :=
  (∀ address, cache.offset address = 0 → BlockTouched cache v address) ∧ cache.rowCount ≠ 1 ∧
    cache.set v.start = cache.rowCount - 1 ∧ cache.set v.stop = 0

variable {cache : Cache} {mem : Banks} {v : Value} {x : Word} {inst : Nat} {action : Action} {built : Built}
  {first last : Nat}

/-- A range has the sets of two addresses in different blocks. -/
theorem range_of_added
    (added : addAccess cache mem inst built (v, some action) = .ok (built.add inst action (.range first last))) :
    cache.block v.start ≠ cache.block v.stop ∧ first = cache.set v.start ∧ last = cache.set v.stop := by
  have place_eq : ∀ {place place' : Place}, built.add inst action place = built.add inst action place' →
      place = place' := by
    intro place place' eq
    have accs := congrArg Built.accs eq
    simpa [Built.add] using accs
  have not_block : ∀ {set address}, built.addBlock inst action set address ≠
      built.add inst action (.range first last) := by
    intro set address eq
    have accs := congrArg Built.accs eq
    simp [Built.add, Built.addBlock] at accs
  have not_same : built ≠ built.add inst action (.range first last) := by
    intro eq
    have accs := congrArg (fun b => b.accs.length) eq
    simp [Built.add] at accs
  unfold addAccess at added
  simp only at added
  split at added
  · exact nomatch place_eq (Except.ok.inj added)
  split at added
  · split at added
    · cases added
    · exact absurd (Except.ok.inj added) not_same
    · exact absurd (Except.ok.inj added) not_block
  split at added
  · exact nomatch place_eq (Except.ok.inj added)
  split at added
  · cases added
  · exact absurd (Except.ok.inj added) not_same
  split at added
  · exact absurd (Except.ok.inj added) not_block
  case isFalse apart =>
    cases place_eq (Except.ok.inj added)
    exact ⟨apart, rfl, rfl⟩

theorem between_start (v : Value) : Between v v.start :=
  ⟨0, Nat.zero_le _, (Nat.mod_eq_of_lt v.start.isLt).symm⟩

theorem between_stop (v : Value) : Between v v.stop :=
  ⟨span v, le_rfl, toNat_stop v⟩

theorem touched_of_between (between : Between v x) : BlockTouched cache v (cache.round x) :=
  ⟨x, between, rfl⟩

theorem set_lt (cache : Cache) (x : Word) : cache.set x < cache.rowCount :=
  Nat.mod_lt _ (rowCount_pos cache)

/-- A set of a block that is gone through. -/
theorem setTouched_of_all (all : ∀ address, cache.offset address = 0 → BlockTouched cache v address) {set : Nat}
    (lt : set < cache.rowCount) : SetTouched cache v set := by
  have small : set * cache.blockSize < 2 ^ 32 := by
    have := Nat.le_of_dvd (Nat.two_pow_pos 32) (rows_dvd cache)
    have := Nat.mul_lt_mul_of_lt_of_le lt (le_refl cache.blockSize) (blockSize_pos cache)
    rw [mul_comm cache.rowCount] at this
    omega
  have toNat : (BitVec.ofNat 32 (set * cache.blockSize)).toNat = set * cache.blockSize := by
    rw [BitVec.toNat_ofNat, Nat.mod_eq_of_lt small]
  have aligned : cache.offset (BitVec.ofNat 32 (set * cache.blockSize)) = 0 := by
    rw [Cache.offset, toNat, Nat.mul_mod_left]
  obtain ⟨x, between, eq⟩ := all _ aligned
  refine ⟨x, between, ?_⟩
  have block := congrArg BitVec.toNat eq
  rw [toNat_round, toNat, mul_comm] at block
  rw [Cache.set, Nat.eq_of_mul_eq_mul_right (blockSize_pos cache) block, Nat.mod_eq_of_lt lt]

/-! ### The ways to agree -/

/-- With the last set before the first one every reader but the must analysis sees everything. -/
theorem agrees_of_everything (everything : Everything cache v) :
    Agrees cache v (cache.set v.start) (cache.set v.stop) := by
  obtain ⟨all, rows, start, stop⟩ := everything
  have pos := rowCount_pos cache
  have touched : ∀ set < cache.rowCount, SetTouched cache v set := fun set lt => setTouched_of_all all lt
  rw [start, stop]
  have wraps : ¬ cache.rowCount - 1 < 0 := Nat.not_lt_zero _
  have beyond : ¬ cache.rowCount - 1 ≤ 0 := by omega
  constructor
  · intro set lt
    refine iff_of_true ?_ (touched set lt)
    simp [Dcache.inRange]
  · intro set lt
    refine iff_of_true ?_ (touched set lt)
    have tag : (PurgeAnalysis.Cache.tag ⟨cache.blockBits, cache.rowBits, 0⟩ 0) = 0 := Nat.zero_div _
    simp [inSet, PurgeAnalysis.Cache.inSet, tag]
  · intro set lt
    refine iff_of_true ?_ (touched set lt)
    simp only [skips, wraps, if_false, Bool.or_eq_false_iff, decide_eq_false_iff_not]
    omega
  · intro address aligned
    refine iff_of_true ?_ (all address aligned)
    simp [inBlock, beyond]
  · intro address aligned
    refine iff_of_true ?_ (all address aligned)
    simp only [inRangeAddress, wraps, if_false, Bool.or_eq_true, decide_eq_true_eq]
    omega

/-- The addresses of an access that does not go around the end of the addresses. -/
theorem between_iff (inside : v.start.toNat + span v < 2 ^ 32) :
    Between v x ↔ v.start.toNat ≤ x.toNat ∧ x.toNat ≤ v.start.toNat + span v := by
  constructor
  · rintro ⟨j, le, eq⟩
    rw [Nat.mod_eq_of_lt (by omega)] at eq
    omega
  · rintro ⟨le, le'⟩
    exact ⟨x.toNat - v.start.toNat, by omega, by rw [Nat.add_sub_cancel' le, Nat.mod_eq_of_lt x.isLt]⟩

/-- Sets and blocks have the numbers of their only address. -/
theorem agrees_of_sameNumbers (rows : cache.rowBits < 31) (apart : cache.block v.start ≠ cache.block v.stop)
    (same : SameNumbers cache v) : Agrees cache v (cache.set v.start) (cache.set v.stop) := by
  obtain ⟨bytes, inside⟩ := same
  have few : cache.rowCount ≤ 2 ^ 30 := Nat.pow_le_pow_right Nat.two_pos (by omega)
  have size : cache.blockSize = 1 := by rw [Cache.blockSize, bytes, Nat.pow_zero]
  have block : ∀ x, cache.block x = x.toNat := fun x => by rw [Cache.block, size, Nat.div_one]
  have set_eq : ∀ x : Word, x.toNat < cache.rowCount → cache.set x = x.toNat := fun x lt => by
    rw [Cache.set, block, Nat.mod_eq_of_lt lt]
  have round : ∀ x, cache.round x = x := fun x => round_of_offset (by rw [Cache.offset, size, Nat.mod_one])
  have stop : v.stop.toNat = v.start.toNat + span v := (toNat_stop v).trans (Nat.mod_eq_of_lt (by rw [span] at inside; omega))
  have between := fun x => @between_iff v x (by omega)
  rw [block, block] at apart
  have touchedSet : ∀ set < cache.rowCount,
      SetTouched cache v set ↔ v.start.toNat ≤ set ∧ set ≤ v.start.toNat + span v := by
    intro set lt
    constructor
    · rintro ⟨x, x_between, eq⟩
      rw [between] at x_between
      rw [set_eq x (by omega)] at eq
      omega
    · rintro ⟨le, le'⟩
      have toNat : (BitVec.ofNat 32 set).toNat = set := by
        rw [BitVec.toNat_ofNat, Nat.mod_eq_of_lt (by omega)]
      refine ⟨BitVec.ofNat 32 set, (between _).mpr (by omega), ?_⟩
      rw [set_eq _ (by omega), toNat]
  have touchedBlock : ∀ address,
      BlockTouched cache v address ↔ v.start.toNat ≤ address.toNat ∧ address.toNat ≤ v.start.toNat + span v := by
    intro address
    constructor
    · rintro ⟨x, x_between, rfl⟩
      rw [round]
      exact (between x).mp x_between
    · intro inside'
      exact ⟨address, (between address).mpr inside', round address⟩
  rw [set_eq _ (by omega), set_eq _ (by omega), stop]
  have lt : v.start.toNat < v.start.toNat + span v := by omega
  constructor
  · intro set lt'
    rw [touchedSet set lt']
    simp [Dcache.inRange, lt]
  · intro set lt'
    rw [touchedSet set lt']
    have tag : ∀ a < cache.rowCount, PurgeAnalysis.Cache.tag ⟨cache.blockBits, cache.rowBits, 0⟩ a = 0 := by
      intro a small
      rw [PurgeAnalysis.Cache.tag, bytes, Nat.zero_add]
      exact Nat.div_eq_of_lt small
    have set' : ∀ a < cache.rowCount, PurgeAnalysis.Cache.set ⟨cache.blockBits, cache.rowBits, 0⟩ a = a := by
      intro a small
      rw [PurgeAnalysis.Cache.set, bytes, Nat.pow_zero, Nat.div_one]
      exact Nat.mod_eq_of_lt small
    have pos := rowCount_pos cache
    rw [inSet, PurgeAnalysis.Cache.inSet, tag _ (by omega), tag _ (by omega), set' _ (by omega), set' _ (by omega)]
    have sets : ¬ PurgeAnalysis.Cache.setCount ⟨cache.blockBits, cache.rowBits, 0⟩ ≤ 0 := by
      exact not_le.mpr pos
    simp [lt, sets]
  · intro set lt'
    rw [touchedSet set lt']
    simp [skips, lt]
  · intro address _
    rw [touchedBlock]
    simp [inBlock, lt.le]
  · intro address _
    rw [touchedBlock]
    simp only [inRangeAddress, lt, if_true, Bool.and_eq_true, decide_eq_true_eq]
    have toInt := address.toInt_eq_toNat_cond
    split at toInt <;> omega

/-! ### No other way -/

/-- Where the first set is before the last one, blocks are bytes and the addresses are the numbers of the sets. -/
theorem sameNumbers_of_agrees (rows : cache.rowBits < 31) (lt : cache.set v.start < cache.set v.stop)
    (agrees : Agrees cache v (cache.set v.start) (cache.set v.stop)) : SameNumbers cache v := by
  have few : cache.rowCount ≤ 2 ^ 30 := Nat.pow_le_pow_right Nat.two_pos (by omega)
  have last_lt := set_lt cache v.stop
  have size := blockSize_pos cache
  have inside : ∀ x, Between v x → cache.set v.start ≤ (cache.round x).toNat ∧
      (cache.round x).toNat ≤ cache.set v.stop := by
    intro x between
    have seen := (agrees.inBlock _ (offset_round cache x)).mpr (touched_of_between between)
    simpa [inBlock, lt.le] using seen
  have start := inside _ (between_start v)
  have stop := inside _ (between_stop v)
  rw [toNat_round] at start stop
  -- The number of the last set is not less than the address of its block.
  have block_le : ∀ x, cache.block x ≤ cache.blockSize * cache.block x := fun x => Nat.le_mul_of_pos_left _ size
  have last : cache.set v.stop = cache.block v.stop :=
    Nat.mod_eq_of_lt (lt_of_le_of_lt ((block_le _).trans stop.2) last_lt)
  have one : cache.blockSize = 1 := by
    rw [last] at stop lt
    have pos : 0 < cache.block v.stop := by omega
    have le : cache.blockSize * cache.block v.stop ≤ 1 * cache.block v.stop := by rw [one_mul]; exact stop.2
    have := Nat.le_of_mul_le_mul_right le pos
    omega
  have bytes : cache.blockBits = 0 := by
    by_contra bits
    have := Nat.one_lt_two_pow bits
    rw [← Cache.blockSize] at this
    omega
  refine ⟨bytes, ?_⟩
  by_contra beyond
  -- The address after those that are set numbers is gone through, too.
  rw [one, one_mul] at start
  have small : v.start.toNat < cache.rowCount := by
    have : cache.block v.start = v.start.toNat := by rw [Cache.block, one, Nat.div_one]
    omega
  have toNat : (BitVec.ofNat 32 cache.rowCount).toNat = cache.rowCount := by
    rw [BitVec.toNat_ofNat, Nat.mod_eq_of_lt (by omega)]
  have between : Between v (BitVec.ofNat 32 cache.rowCount) := by
    refine ⟨cache.rowCount - v.start.toNat, by omega, ?_⟩
    rw [toNat, Nat.add_sub_cancel' small.le, Nat.mod_eq_of_lt (by omega)]
  have seen := (inside _ between).2
  rw [toNat_round, one, one_mul, Cache.block, one, Nat.div_one, toNat] at seen
  omega

/-- Where the last set is not after the first one, everything is gone through. -/
theorem everything_of_agrees (apart : cache.block v.start ≠ cache.block v.stop)
    (le : cache.set v.stop ≤ cache.set v.start)
    (agrees : Agrees cache v (cache.set v.start) (cache.set v.stop)) : Everything cache v := by
  have ne : cache.set v.stop ≠ cache.set v.start := by
    intro eq
    -- The only block that is seen is at the address that the set is taken for.
    have only : ∀ x, Between v x → cache.blockSize * cache.block x = cache.set v.start := by
      intro x between
      have seen := (agrees.inBlock _ (offset_round cache x)).mpr (touched_of_between between)
      rw [eq] at seen
      simp only [inBlock, le_refl, if_true, Bool.and_eq_true, decide_eq_true_eq, toNat_round] at seen
      exact le_antisymm seen.2 seen.1
    have same := (only _ (between_start v)).trans (only _ (between_stop v)).symm
    exact apart (Nat.eq_of_mul_eq_mul_left (blockSize_pos cache) same)
  have lt : cache.set v.stop < cache.set v.start := lt_of_le_of_ne le ne
  have all : ∀ address, cache.offset address = 0 → BlockTouched cache v address := by
    intro address aligned
    refine (agrees.inBlock address aligned).mp ?_
    simp only [inBlock, not_le.mpr lt, if_false, Bool.or_eq_true, decide_eq_true_eq]
    omega
  have first_lt := set_lt cache v.start
  have must : ∀ set < cache.rowCount, set ≤ cache.set v.start ∧ cache.set v.stop ≤ set := by
    intro set small
    have seen := (agrees.must set small).mpr (setTouched_of_all all small)
    simpa [skips, not_lt.mpr le] using seen
  refine ⟨all, by omega, ?_, ?_⟩
  · have := (must (cache.rowCount - 1) (by omega)).1
    omega
  · have := (must 0 (by omega)).2
    omega

/-- All readers of a range that is built agree if and only if sets and addresses are the same numbers, or
everything is gone through. -/
theorem agrees_iff (cache : Cache) (mem : Banks) (v : Value) (inst : Nat) (action : Action) (built : Built)
    (first last : Nat) (rows : cache.rowBits < 31)
    (added : addAccess cache mem inst built (v, some action) = .ok (built.add inst action (.range first last))) :
    Agrees cache v first last ↔ SameNumbers cache v ∨ Everything cache v := by
  obtain ⟨apart, rfl, rfl⟩ := range_of_added added
  constructor
  · intro agrees
    rcases lt_or_ge (cache.set v.start) (cache.set v.stop) with lt | le
    · exact .inl (sameNumbers_of_agrees rows lt agrees)
    · exact .inr (everything_of_agrees apart le agrees)
  · rintro (same | everything)
    · exact agrees_of_sameNumbers rows apart same
    · exact agrees_of_everything everything

/-- A cache of 16 sets, and the block size in bits. -/
def sixteenSets (blockBits : Nat) (fits : blockBits + 4 ≤ 32) : Cache := ⟨blockBits, 4, fits⟩

/-- Four bytes, one after the other. -/
def fourBytes : Value := ⟨.val, 2, 1, 3⟩

theorem agrees_iff_bytes : Agrees (sixteenSets 0 (by decide)) fourBytes 2 5 ↔
    SameNumbers (sixteenSets 0 (by decide)) fourBytes ∨ Everything (sixteenSets 0 (by decide)) fourBytes :=
  agrees_iff _ (fun _ => some true) fourBytes 0 .load ⟨fun _ => [], []⟩ 2 5 (by decide) rfl

/-- Four words in a row of four blocks. -/
def fourBlocks : Value := ⟨.val, 32, 16, 3⟩

/-- The dirty analysis does not see the block at the address 32, which is the first one of the access. -/
theorem dirty_not_seen : ¬ ∀ (cache : Cache) (mem : Banks) (v : Value) (inst : Nat) (action : Action) (built : Built)
    (first last : Nat), cache.rowBits < 31 →
    addAccess cache mem inst built (v, some action) = .ok (built.add inst action (.range first last)) →
    Agrees cache v first last := by
  intro agrees
  have readers := agrees (sixteenSets 4 (by decide)) (fun _ => some true) fourBlocks 0 .store ⟨fun _ => [], []⟩ 2 5
    (by decide) rfl
  have seen := (readers.dirty 32 (by decide)).mpr (touched_of_between (between_start fourBlocks))
  exact absurd seen (by decide)

end Otawa.Dcache.CLPBlockBuilder
