import Otawa.Clp.Inter
import Otawa.Clp.Manager
import Otawa.Dcache.Access

/-!
# Data accesses from the CLP analysis

`CLPBlockBuilder` replays the CLP analysis on a basic block and attaches to each machine
instruction the places of the cache that its loads and stores may touch: one block, the sets
between two ones, or any place.

The address of an access is read in the state after the instruction, so it is lost when a load
overwrites its address register; the accesses of an instruction are not attached to it when the
last step of its last path is not reached; a progression inside one block is given a block at
its first address, which is not the block of that address unless it is aligned; the product that
bounds a progression is tested for the overflow of a sum; and only the first address of a
progression is looked up in the memory banks.
-/

namespace Otawa.Dcache.CLPBlockBuilder

open Otawa.Clp Otawa.Sem

/-- `hard::Cache`: the bits of the offset in a block and the ones of the row. -/
structure Cache where
  blockBits : Nat
  rowBits : Nat
  fits : blockBits + rowBits ≤ 32

namespace Cache

variable (cache : Cache)

def blockSize : Nat := 2 ^ cache.blockBits

def rowCount : Nat := 2 ^ cache.rowBits

def offset (address : Word) : Nat := address.toNat % cache.blockSize

def block (address : Word) : Nat := address.toNat / cache.blockSize

def set (address : Word) : Nat := cache.block address % cache.rowCount

/-- The address of the block of an address. -/
def round (address : Word) : Word := address - BitVec.ofNat 32 (cache.offset address)

end Cache

/-- A place of the cache: anywhere, one block with its index in its set and its address, or the sets from the
first one to the last one. -/
inductive Place where
  | any
  | block (set index : Nat) (address : Word)
  | range (first last : Nat)
  deriving DecidableEq, Repr

/-- `BlockAccess`, with the place of its instruction in the basic block. -/
structure Entry where
  inst : Nat
  action : Action
  place : Place
  deriving DecidableEq, Repr

/-- `BlockCollection::obtain`: the index of the block at an address of a set, which is added if need be. -/
def obtain (blocks : List Word) (address : Word) : List Word × Nat :=
  if address ∈ blocks then (blocks, blocks.idxOf address) else (blocks ++ [address], blocks.length)

/-- `Memory::get`, and whether the bank is cached. -/
abbrev Banks := Word → Option Bool

/-- What has been built: the blocks of each set and the accesses. -/
structure Built where
  colls : Nat → List Word
  accs : List Entry

def Built.add (built : Built) (inst : Nat) (action : Action) (place : Place) : Built :=
  { built with accs := built.accs ++ [⟨inst, action, place⟩] }

/-- The access to one block, at `address` in its set. -/
def Built.addBlock (built : Built) (inst : Nat) (action : Action) (set : Nat) (address : Word) : Built :=
  let (blocks, index) := obtain (built.colls set) address
  { built with colls := Function.update built.colls set blocks }.add inst action (.block set index address)

/-- The low word of a product, and `elm::mult`'s test of overflow. -/
def mult (a b : Word) : Word × Bool :=
  let r := a * b
  (r, r.toNat < a.toNat || r.toNat < b.toNat)

/-- A progression is taken to go through all sets. -/
def full (cache : Cache) (v : Value) : Prop :=
  let (m, overflow) := mult (Clp.abs v.delta) v.mtimes
  overflow ∨ (BitVec.ofNat 32 ((cache.rowCount - 1) * cache.blockSize) -
    BitVec.ofNat 32 (cache.offset v.base)).toNat ≤ m.toNat

instance (cache : Cache) (v : Value) : Decidable (full cache v) := inferInstanceAs (Decidable (_ ∨ _))

/-- The access of an address value; there is an exception when the bank is not known. -/
def addAccess (cache : Cache) (mem : Banks) (inst : Nat) (built : Built) (p : Value × Option Action) :
    Except Unit Built :=
  match p.2 with
  | none => .ok built
  | some action =>
    let v := p.1
    if v = .all then .ok (built.add inst action .any)
    else if v.isConst then
      match mem v.base with
      | none => .error ()
      | some false => .ok built
      | some true => .ok (built.addBlock inst action (cache.set v.base) (cache.round v.base))
    else if full cache v then .ok (built.add inst action .any)
    else
      let l := v.start
      let h := v.stop
      match mem l with
      | none => .error ()
      | some false => .ok built
      | some true =>
        if cache.block l = cache.block h then .ok (built.addBlock inst action (cache.set l) l)
        else .ok (built.add inst action (.range (cache.set l) (cache.set h)))

/-! ### Places of an address -/

variable {cache : Cache} {mem : Banks} {v : Value} {x : Word}

/-- The place has the set and the block of an address. -/
def Place.Covers (cache : Cache) (x : Word) : Place → Prop
  | .any => True
  | .block set _ address => cache.set x = set ∧ cache.round x = address
  | .range first last => Spans first last (cache.set x)

/-- The address values whose access covers all their words in cached banks. A progression that is not taken for
one through all sets is not longer than a word; its first address is in a cached bank if one of the others is;
and if it is inside one block, its first address is the one of the block. -/
def AddressFits (cache : Cache) (mem : Banks) (v : Value) : Prop :=
  (v.kind = .all → v = .all) ∧
    (v = .all ∨ v.isConst ∨ full cache v ∨
      (mag v.delta * v.mtimes.toNat < 2 ^ 32 ∧ (mem v.start = some false → ∀ x ∈ v.gamma, mem x ≠ some true) ∧
        (cache.block v.start = cache.block v.stop → cache.offset v.start = 0)))

theorem blockSize_pos (cache : Cache) : 0 < cache.blockSize := Nat.two_pow_pos _

theorem rowCount_pos (cache : Cache) : 0 < cache.rowCount := Nat.two_pow_pos _

theorem toNat_round (cache : Cache) (x : Word) : (cache.round x).toNat = cache.blockSize * cache.block x := by
  have le : x.toNat % cache.blockSize ≤ x.toNat := Nat.mod_le _ _
  have lt := x.isLt
  have split := Nat.div_add_mod x.toNat cache.blockSize
  unfold Cache.round Cache.offset Cache.block
  rw [BitVec.toNat_sub, BitVec.toNat_ofNat]
  omega

theorem offset_round (cache : Cache) (x : Word) : cache.offset (cache.round x) = 0 := by
  rw [Cache.offset, toNat_round]
  exact Nat.mul_mod_right _ _

theorem round_of_offset (aligned : cache.offset x = 0) : cache.round x = x := by
  unfold Cache.round
  rw [aligned]
  exact BitVec.sub_zero x

/-- The sets go around the address space. -/
theorem rows_dvd (cache : Cache) : cache.blockSize * cache.rowCount ∣ 2 ^ 32 := by
  rw [Cache.blockSize, Cache.rowCount, ← pow_add]
  exact Nat.pow_dvd_pow 2 cache.fits

theorem set_eq (cache : Cache) (x : Word) {n : Nat} (eq : x.toNat = n % 2 ^ 32) :
    cache.set x = n / cache.blockSize % cache.rowCount := by
  unfold Cache.set Cache.block
  rw [eq, ← Nat.mod_mul_right_div_self, Nat.mod_mod_of_dvd n (rows_dvd cache), Nat.mod_mul_right_div_self]

/-- Consecutive sets, fewer than there are, are between the first and the last one. -/
theorem spans_of_le {a q t R : Nat} (le : t ≤ q) (lt : q < R) : Spans (a % R) ((a + q) % R) ((a + t) % R) := by
  have pos : 0 < R := by omega
  have first := Nat.mod_lt a pos
  have sum : ∀ k < R, (a + k) % R = if a % R + k < R then a % R + k else a % R + k - R := by
    intro k small
    rw [Nat.add_mod, Nat.mod_eq_of_lt small]
    split
    case isTrue inside => exact Nat.mod_eq_of_lt inside
    case isFalse outside => rw [Nat.mod_eq_sub_mod (by omega), Nat.mod_eq_of_lt (by omega)]
  unfold Spans
  rw [sum q lt, sum t (by omega)]
  split_ifs <;> omega

/-- The words of a progression, from its start on. -/
theorem toNat_mem (val : v.kind = .val) (hx : x ∈ v.gamma) :
    ∃ k ≤ v.mtimes.toNat, x.toNat = (v.start.toNat + k * mag v.delta) % 2 ^ 32 := by
  rw [Value.gamma_of_val val, ← Value.prog_start] at hx
  obtain ⟨k, le, rfl⟩ := hx
  refine ⟨k, le, ?_⟩
  rw [Value.nsmul_eq_ofNat, toNat_abs, BitVec.toNat_add, BitVec.toNat_ofNat]
  omega

theorem toNat_stop (v : Value) : v.stop.toNat = (v.start.toNat + v.mtimes.toNat * mag v.delta) % 2 ^ 32 := by
  have eq : v.stop = v.start + v.mtimes.toNat • Clp.abs v.delta := by
    unfold Value.stop Value.start Clp.abs
    by_cases neg : v.delta.toInt < 0
    · rw [if_pos neg, if_pos neg, if_neg (not_le.mpr neg), ← Value.toNat_nsmul, smul_neg, add_neg_cancel_right]
    · rw [if_neg neg, if_neg neg, if_pos (not_lt.mp neg), Value.toNat_nsmul]
  rw [eq, Value.nsmul_eq_ofNat, toNat_abs, BitVec.toNat_add, BitVec.toNat_ofNat]
  omega

/-- A progression that is not taken for one through all sets ends less than all sets later. -/
theorem span_lt (few : ¬ full cache v) (product : mag v.delta * v.mtimes.toNat < 2 ^ 32) :
    cache.rowCount = 1 ∨
      (v.start.toNat % cache.blockSize + v.mtimes.toNat * mag v.delta) / cache.blockSize < cache.rowCount := by
  by_cases one : cache.rowCount = 1
  · exact .inl one
  right
  have rows : 2 ≤ cache.rowCount := by
    have := rowCount_pos cache
    omega
  have size := blockSize_pos cache
  have offset := Nat.mod_lt v.base.toNat size
  have start := Nat.mod_lt v.start.toNat size
  have last : cache.blockSize ≤ (cache.rowCount - 1) * cache.blockSize := Nat.le_mul_of_pos_left _ (by omega)
  have all : (cache.rowCount - 1) * cache.blockSize + cache.blockSize ≤ 2 ^ 32 := by
    rw [← Nat.succ_mul, Nat.succ_eq_add_one, Nat.sub_add_cancel (by omega), mul_comm]
    exact Nat.le_of_dvd (Nat.two_pow_pos 32) (rows_dvd cache)
  have below := not_le.mp (not_or.mp few).2
  have first : cache.offset v.base < cache.blockSize := offset
  simp only [BitVec.toNat_mul, toNat_abs, Nat.mod_eq_of_lt product, BitVec.toNat_sub, BitVec.toNat_ofNat]
    at below
  rw [Nat.div_lt_iff_lt_mul size, mul_comm v.mtimes.toNat]
  have total : cache.rowCount * cache.blockSize = (cache.rowCount - 1) * cache.blockSize + cache.blockSize := by
    rw [← Nat.succ_mul, Nat.succ_eq_add_one, Nat.sub_add_cancel (by omega)]
  omega

/-- The sets between the ends of a progression. -/
theorem range_covers (val : v.kind = .val) (few : ¬ full cache v)
    (product : mag v.delta * v.mtimes.toNat < 2 ^ 32) (hx : x ∈ v.gamma) :
    Spans (cache.set v.start) (cache.set v.stop) (cache.set x) := by
  obtain ⟨k, le, place⟩ := toNat_mem val hx
  have size := blockSize_pos cache
  have row : ∀ n, (v.start.toNat + n) / cache.blockSize =
      v.start.toNat / cache.blockSize + (v.start.toNat % cache.blockSize + n) / cache.blockSize := by
    intro n
    conv_lhs => rw [← Nat.div_add_mod v.start.toNat cache.blockSize, add_assoc, Nat.mul_add_div size]
  have first : cache.set v.start = v.start.toNat / cache.blockSize % cache.rowCount := rfl
  rw [first, set_eq cache v.stop (toNat_stop v), set_eq cache x place, row, row]
  rcases span_lt few product with one | lt
  · rw [one, Nat.mod_one, Nat.mod_one, Nat.mod_one]
    decide
  · exact spans_of_le (Nat.div_le_div_right (Nat.add_le_add_left (Nat.mul_le_mul_right _ le) _)) lt

/-- A progression inside the block of its first address. -/
theorem block_covers (val : v.kind = .val) (product : mag v.delta * v.mtimes.toNat < 2 ^ 32)
    (inside : cache.block v.start = cache.block v.stop) (aligned : cache.offset v.start = 0) (hx : x ∈ v.gamma) :
    cache.set x = cache.set v.start ∧ cache.round x = v.start := by
  obtain ⟨k, le, place⟩ := toNat_mem val hx
  have size := blockSize_pos cache
  have start := v.start.isLt
  have steps : k * mag v.delta ≤ v.mtimes.toNat * mag v.delta := Nat.mul_le_mul_right _ le
  unfold Cache.block at inside
  unfold Cache.offset at aligned
  rw [mul_comm] at product
  have base : v.start.toNat = cache.blockSize * (v.start.toNat / cache.blockSize) := by
    have := Nat.div_add_mod v.start.toNat cache.blockSize
    omega
  -- The last word is not before the first one, so the progression does not pass the end of the addresses.
  have after : cache.blockSize * (v.start.toNat / cache.blockSize) ≤ v.stop.toNat := by
    rw [inside]
    exact Nat.mul_div_le _ _
  have stop := toNat_stop v
  have stopped : v.stop.toNat = v.start.toNat + v.mtimes.toNat * mag v.delta := by omega
  have near : v.stop.toNat < cache.blockSize * (v.start.toNat / cache.blockSize) + cache.blockSize := by
    rw [inside]
    exact Nat.lt_mul_div_succ _ size
  have word : x.toNat = v.start.toNat + k * mag v.delta := by
    have := v.stop.isLt
    omega
  have split : x.toNat = cache.blockSize * (v.start.toNat / cache.blockSize) + k * mag v.delta := by omega
  have small : k * mag v.delta < cache.blockSize := by omega
  have offset : x.toNat % cache.blockSize = k * mag v.delta := by
    rw [split, Nat.mul_add_mod, Nat.mod_eq_of_lt small]
  have block : x.toNat / cache.blockSize = v.start.toNat / cache.blockSize := by
    rw [split, Nat.mul_add_div size, Nat.div_eq_of_lt small, add_zero]
  refine ⟨by rw [Cache.set, Cache.set, Cache.block, Cache.block, block], ?_⟩
  apply BitVec.eq_of_toNat_eq
  have := x.isLt
  rw [Cache.round, Cache.offset, offset, BitVec.toNat_sub, BitVec.toNat_ofNat]
  omega

/-! ### The entries of address values -/

variable {inst : Nat} {action : Action} {built built' : Built} {place : Place}

/-- An entry of an instruction has the place of an access. -/
def Attached (cache : Cache) (built : Built) (inst : Nat) (action : Action) (x : Word) : Prop :=
  ∃ e ∈ built.accs, e.inst = inst ∧ e.action = action ∧ e.place.Covers cache x

theorem Attached.mono (attached : Attached cache built inst action x) (sub : built.accs ⊆ built'.accs) :
    Attached cache built' inst action x := by
  obtain ⟨e, mem, rest⟩ := attached
  exact ⟨e, sub mem, rest⟩

theorem attached_add (covers : place.Covers cache x) : Attached cache (built.add inst action place) inst action x :=
  ⟨⟨inst, action, place⟩, List.mem_append_right _ (List.mem_singleton_self _), rfl, rfl, covers⟩

theorem attached_addBlock {set : Nat} {address : Word} (isSet : cache.set x = set)
    (isBlock : cache.round x = address) :
    Attached cache (built.addBlock inst action set address) inst action x := by
  refine ⟨⟨inst, action, _⟩, List.mem_append_right _ (List.mem_singleton_self _), rfl, rfl, ?_⟩
  exact ⟨isSet, isBlock⟩

/-- What is attached stays attached. -/
theorem addAccess_grows {p : Value × Option Action} (added : addAccess cache mem inst built p = .ok built') :
    built.accs ⊆ built'.accs := by
  unfold addAccess at added
  split at added
  case h_1 => cases added; exact List.Subset.refl _
  case h_2 action _ =>
    have block : ∀ set address, built.accs ⊆ (built.addBlock inst action set address).accs :=
      fun set address => List.subset_append_left _ _
    have other : ∀ place, built.accs ⊆ (built.add inst action place).accs :=
      fun place => List.subset_append_left _ _
    simp only at added
    split at added
    · cases added; exact other _
    split at added
    · split at added
      · cases added
      · cases added; exact List.Subset.refl _
      · cases added; exact block _ _
    split at added
    · cases added; exact other _
    split at added
    · cases added
    · cases added; exact List.Subset.refl _
    split at added
    · cases added; exact block _ _
    · cases added; exact other _

/-- The access of an address value has the places of its words in cached banks. -/
theorem addAccess_covers (added : addAccess cache mem inst built (v, some action) = .ok built')
    (fits : AddressFits cache mem v) (hx : x ∈ v.gamma) (cached : mem x = some true) :
    Attached cache built' inst action x := by
  unfold addAccess at added
  simp only at added
  split at added
  case isTrue =>
    cases added
    exact attached_add trivial
  case isFalse top =>
  have val : v.kind = .val := (Value.kind_of_mem hx).resolve_right fun all => top (fits.1 all)
  split at added
  case isTrue const =>
    have base : x = v.base := Value.gamma_subset_const (by simp [val]) const hx
    rw [← base, cached] at added
    cases added
    exact attached_addBlock rfl rfl
  case isFalse nonconst =>
  split at added
  case isTrue =>
    cases added
    exact attached_add trivial
  case isFalse few =>
  obtain ⟨product, bank, aligned⟩ := ((fits.2.resolve_left top).resolve_left nonconst).resolve_left few
  split at added
  case h_1 => cases added
  case h_2 uncached => exact absurd cached (bank uncached x hx)
  case h_3 =>
  split at added
  case isTrue inside =>
    cases added
    obtain ⟨sameSet, sameBlock⟩ := block_covers val product inside (aligned inside) hx
    exact attached_addBlock sameSet sameBlock
  case isFalse =>
    cases added
    exact attached_add (range_covers val few product hx)

/-- The accesses of an instruction. -/
def flush (cache : Cache) (mem : Banks) (inst : Nat) (built : Built) (addrs : List (Value × Option Action)) :
    Except Unit Built :=
  addrs.foldlM (addAccess cache mem inst) built

theorem flush_grows {addrs : List (Value × Option Action)} (flushed : flush cache mem inst built addrs = .ok built') :
    built.accs ⊆ built'.accs := by
  induction addrs generalizing built with
  | nil => cases flushed; exact List.Subset.refl _
  | cons p rest ih =>
    rw [flush, List.foldlM_cons] at flushed
    cases added : addAccess cache mem inst built p with
    | error => rw [added] at flushed; cases flushed
    | ok next =>
      rw [added] at flushed
      exact List.Subset.trans (addAccess_grows added) (ih flushed)

theorem flush_covers {addrs : List (Value × Option Action)} (flushed : flush cache mem inst built addrs = .ok built')
    (found : (v, some action) ∈ addrs) (fits : AddressFits cache mem v) (hx : x ∈ v.gamma)
    (cached : mem x = some true) : Attached cache built' inst action x := by
  induction addrs generalizing built with
  | nil => exact absurd found List.not_mem_nil
  | cons p rest ih =>
    rw [flush, List.foldlM_cons] at flushed
    cases added : addAccess cache mem inst built p with
    | error => rw [added] at flushed; cases flushed
    | ok next =>
      rw [added] at flushed
      rcases List.mem_cons.mp found with rfl | found
      · exact (addAccess_covers added fits hx cached).mono (flush_grows flushed)
      · exact ih flushed found

end Otawa.Dcache.CLPBlockBuilder
