import Mathlib.Algebra.Ring.Nat
import Mathlib.Data.Int.Basic
import Mathlib.Data.List.Sort
import Otawa.Lib.Numbering

/-!
# `LBlockBuilder`

The l-blocks of a basic block are its parts in the lines of the instruction cache. The builder
walks the instructions and takes a change of the set for a change of line; the size of the
table of the l-blocks is computed apart, from the addresses of the block. An l-block gets the
number of its line from a map, or a new one, the count of the l-blocks of its set.

With one set the change of line is never seen; a line in which no instruction of the block starts has no
l-block, and one that an instruction crosses gets its l-block late; an uncached line is counted but has none.
And the count of the l-blocks is not the count of the lines: `cblock_count`, which is, is never read, so that
a line that comes again leaves a gap in the numbers. `partitioned_iff` says which blocks are treated right.
-/

namespace Otawa.LBlockBuilder

open Otawa.Numbering

/-- `hard::Bank`; an address is an offset of 32 bits, on the page of the code. -/
structure Bank where
  address : Nat
  size : Nat
  cached : Bool

def Bank.contains (bank : Bank) (addr : Nat) : Bool :=
  bank.address ≤ addr && addr ≤ (bank.address + bank.size + 2 ^ 32 - 1) % 2 ^ 32

/-- `Memory::get`. -/
def get (mem : List Bank) (addr : Nat) : Option Bank :=
  mem.find? (·.contains addr)

/-- Code that no bank holds is considered as cached. -/
def isCached (mem : List Bank) (addr : Nat) : Bool :=
  match get mem addr with
  | none => true
  | some bank => bank.cached

/-- `hard::Cache`: the bits of the offset in a block and the ones of the row. -/
structure Cache where
  blockBits : Nat
  rowBits : Nat
  fits : blockBits + rowBits < 32

namespace Cache

variable (cache : Cache)

def rowCount : Nat := 2 ^ cache.rowBits

def blockSize : Nat := 2 ^ cache.blockBits

def blockMask : Nat := cache.blockSize - 1

def block (addr : Nat) : Nat := addr / cache.blockSize

def set (addr : Nat) : Nat := cache.block addr % cache.rowCount

theorem blockSize_pos : 0 < cache.blockSize := Nat.two_pow_pos _

theorem rowCount_pos : 0 < cache.rowCount := Nat.two_pow_pos _

theorem blockMask_add_one : cache.blockMask + 1 = cache.blockSize :=
  Nat.sub_add_cancel cache.blockSize_pos

end Cache

/-- The addresses of contiguous instructions. -/
def instsFrom : Nat → List Nat → List Nat
  | _, [] => []
  | addr, size :: sizes => addr :: instsFrom (addr + size) sizes

/-- A basic block of code; the entry and the exit of a CFG are not processed. -/
structure BasicBlock where
  address : Nat
  /-- The sizes of its instructions. -/
  sizes : List Nat
  nonempty : sizes ≠ []
  pos : ∀ size ∈ sizes, 0 < size
  /-- `topAddress` is an address. -/
  top_lt : address + sizes.sum < 2 ^ 32

namespace BasicBlock

variable (bb : BasicBlock)

def size : Nat := bb.sizes.sum

def topAddress : Nat := bb.address + bb.size

/-- `InstIterator`. -/
def insts : List Nat := instsFrom bb.address bb.sizes

end BasicBlock

/-- An l-block, with the address of its first instruction: the first and the last one of a set have none. -/
structure LBlock where
  inst : Option Nat
  size : Nat
  cid : Nat
  deriving DecidableEq, Repr

/-- `LBLOCKS` and `block_map`. -/
structure State where
  sets : Nat → List LBlock
  blockMap : Nat → Option Nat

section Code

variable (cache : Cache) (mem : List Bank)

/-- The first l-block of each set. -/
def setup : State where
  sets i := if i < cache.rowCount then [⟨none, 0, 0⟩] else []
  blockMap _ := none

/-- The last l-block of each set. -/
def cleanup (st : State) : State :=
  { st with sets := fun i =>
      if i < cache.rowCount then st.sets i ++ [⟨none, 0, (st.sets i).length⟩] else st.sets i }

/-- `num_lblocks`: a difference of 32 bits that is taken for an `int`. -/
def numLBlocks (bb : BasicBlock) : Int :=
  (((bb.topAddress + cache.blockMask) % 2 ^ 32 / cache.blockSize : Nat) -
    (bb.address / cache.blockSize : Nat) : Int).bmod (2 ^ 32)

/-- Where the line of an instruction ends, or the block if it is before. -/
def top (bb : BasicBlock) (addr : Nat) : Nat :=
  min ((addr + cache.blockMask + 1) % 2 ^ 32 / cache.blockSize * cache.blockSize) bb.topAddress

/-- The number of the line of an address. -/
def cidOf (st : State) (addr : Nat) : Nat :=
  (st.blockMap (cache.block addr)).getD (st.sets (cache.set addr)).length

def makeLBlock (bb : BasicBlock) (st : State) (addr : Nat) : LBlock where
  inst := some addr
  size := (top cache bb addr + 2 ^ 32 - addr) % 2 ^ 32
  cid := cidOf cache st addr

def State.add (st : State) (addr : Nat) (lblock : LBlock) : State where
  sets := Function.update st.sets (cache.set addr) (st.sets (cache.set addr) ++ [lblock])
  blockMap := Function.update st.blockMap (cache.block addr) (some lblock.cid)

/-- `addLBlock`, with the table of the block up to `index`; there is an assertion on the index in the table. -/
def addLBlock (bb : BasicBlock) (r : State × List LBlock) (addr : Nat) : Option (State × List LBlock) :=
  if isCached mem addr then
    if (r.2.length : Int) < numLBlocks cache bb then
      let lblock := makeLBlock cache bb r.1 addr
      some (r.1.add cache addr lblock, r.2 ++ [lblock])
    else none
  else some r

/-- The loop on the instructions; `set` is the set of the one before. -/
def walk (bb : BasicBlock) : Nat → List Nat → State × List LBlock → Option (State × List LBlock)
  | _, [], r => some r
  | set, addr :: insts, r =>
    if set ≠ cache.set addr then (addLBlock cache mem bb r addr).bind (walk bb (cache.set addr) insts)
    else walk bb set insts r

/-- `processBB`; the result is none when an assertion fails. -/
def processBB (st : State) (bb : BasicBlock) : Option (State × List LBlock) := do
  let r ← walk cache mem bb ((cache.set bb.address + 2 ^ 32 - 1) % 2 ^ 32) bb.insts (st, [])
  if (r.2.length : Int) = numLBlocks cache bb then some r else none

/-- The basic blocks one after the other, with the table of each. -/
def processBBs : State → List BasicBlock → Option (State × List (List LBlock))
  | st, [] => some (st, [])
  | st, bb :: bbs => do
    let (st, table) ← processBB cache mem st bb
    let (st, tables) ← processBBs st bbs
    some (st, table :: tables)

def build (bbs : List BasicBlock) : Option (State × List (List LBlock)) :=
  (processBBs cache mem (setup cache) bbs).map fun r => (cleanup cache r.1, r.2)

end Code

/-! ## What a basic block creates -/

section Created

variable (cache : Cache) (mem : List Bank)

/-- The instructions at which the set changes. -/
def changes : Nat → List Nat → List Nat
  | _, [] => []
  | set, addr :: insts =>
    if set ≠ cache.set addr then addr :: changes (cache.set addr) insts else changes set insts

/-- The instructions that start an l-block. -/
def created (bb : BasicBlock) : List Nat :=
  (changes cache ((cache.set bb.address + 2 ^ 32 - 1) % 2 ^ 32) bb.insts).filter (isCached mem)

/-- `addLBlock` where it adds one. -/
def push (bb : BasicBlock) (r : State × List LBlock) (addr : Nat) : State × List LBlock :=
  (r.1.add cache addr (makeLBlock cache bb r.1 addr), r.2 ++ [makeLBlock cache bb r.1 addr])

variable {cache mem} {bb : BasicBlock}

theorem walk_eq (set : Nat) (insts : List Nat) (r : State × List LBlock) :
    walk cache mem bb set insts r = (changes cache set insts).foldlM (addLBlock cache mem bb) r := by
  induction insts generalizing set r with
  | nil => rfl
  | cons addr insts ih =>
    rw [walk, changes]
    split
    · rw [List.foldlM_cons]
      exact congrArg _ (funext (ih _))
    · exact ih set r

theorem length_foldl_push (addrs : List Nat) (r : State × List LBlock) :
    (addrs.foldl (push cache bb) r).2.length = r.2.length + addrs.length := by
  induction addrs generalizing r with
  | nil => rfl
  | cons addr addrs ih =>
    rw [List.foldl_cons, ih, push, List.length_append, List.length_singleton, List.length_cons]
    omega

theorem foldlM_eq_some {addrs : List Nat} {r r' : State × List LBlock}
    (added : addrs.foldlM (addLBlock cache mem bb) r = some r') :
    r' = (addrs.filter (isCached mem)).foldl (push cache bb) r := by
  induction addrs generalizing r with
  | nil => exact (Option.some.inj added).symm
  | cons addr addrs ih =>
    rw [List.foldlM_cons] at added
    obtain ⟨r₁, one, more⟩ := Option.bind_eq_some_iff.mp added
    rw [addLBlock] at one
    split at one
    case isFalse uncached =>
      rw [List.filter_cons_of_neg uncached, Option.some.inj one]
      exact ih more
    case isTrue isCached =>
      rw [List.filter_cons_of_pos isCached, List.foldl_cons]
      obtain ⟨-, pushed⟩ := Option.ite_none_right_eq_some.mp one
      obtain rfl := Option.some.inj pushed
      exact ih more

/-- No assertion fails as long as there is room. -/
theorem foldlM_of_room (addrs : List Nat) (r : State × List LBlock)
    (room : (r.2.length + (addrs.filter (isCached mem)).length : Int) ≤ numLBlocks cache bb) :
    addrs.foldlM (addLBlock cache mem bb) r = some ((addrs.filter (isCached mem)).foldl (push cache bb) r) := by
  induction addrs generalizing r with
  | nil => rfl
  | cons addr addrs ih =>
    rw [List.foldlM_cons, addLBlock]
    split
    case isFalse uncached =>
      rw [List.filter_cons_of_neg uncached] at room ⊢
      exact ih r room
    case isTrue isCached =>
      rw [List.filter_cons_of_pos isCached] at room ⊢
      rw [List.length_cons] at room
      rw [if_pos (by omega), List.foldl_cons]
      refine ih (push cache bb r addr) ?_
      rw [push, List.length_append, List.length_singleton]
      omega

theorem processBB_eq_some {st : State} {r : State × List LBlock} :
    processBB cache mem st bb = some r ↔
      ((created cache mem bb).length : Int) = numLBlocks cache bb ∧
        r = (created cache mem bb).foldl (push cache bb) (st, []) := by
  have length : ((created cache mem bb).foldl (push cache bb) (st, [])).2.length = _ := length_foldl_push _ _
  rw [List.length_nil, Nat.zero_add] at length
  rw [processBB, walk_eq]
  constructor
  · intro processed
    obtain ⟨r', added, assert⟩ := Option.bind_eq_some_iff.mp processed
    obtain ⟨filled, same⟩ := Option.ite_none_right_eq_some.mp assert
    obtain rfl := Option.some.inj same
    obtain rfl := foldlM_eq_some added
    exact ⟨length ▸ filled, rfl⟩
  · rintro ⟨filled, rfl⟩
    rw [foldlM_of_room _ _ (by rw [List.length_nil, Int.natCast_zero, Int.zero_add]; exact filled.le)]
    refine if_pos ?_
    exact length ▸ filled

end Created

/-! ## The sets and the numbers -/

/-- `address`; it is not asked of the first and the last l-block of a set. -/
def LBlock.address (l : LBlock) : Nat := l.inst.getD 0

/-- The l-blocks of a set that are of the program. -/
def program (set : List LBlock) : List LBlock := set.filter (·.inst.isSome)

section Numbers

variable (cache : Cache)

/-- The l-blocks of a set among the ones that have been made. -/
def ofSet (i : Nat) (made : List LBlock) : List LBlock := made.filter (cache.set ·.address = i)

def linesOf (made : List LBlock) : List Nat := made.map (cache.block ·.address)

/-- The state after the l-blocks of `made`: a line is numbered by the place of its first l-block in its set. -/
structure Holds (st : State) (made : List LBlock) : Prop where
  inst : ∀ l ∈ made, l.inst.isSome
  sets : ∀ i < cache.rowCount, st.sets i = ⟨none, 0, 0⟩ :: ofSet cache i made
  cid : ∀ l ∈ made, l.cid =
    1 + (linesOf cache (ofSet cache (cache.set l.address) made)).idxOf (cache.block l.address)
  known : ∀ addr, st.blockMap (cache.block addr) =
    if cache.block addr ∈ linesOf cache made then
      some (1 + (linesOf cache (ofSet cache (cache.set addr) made)).idxOf (cache.block addr)) else none

variable {cache}

theorem holds_setup : Holds cache (setup cache) [] where
  inst := by simp
  sets i lt := if_pos lt
  cid := by simp
  known addr := rfl

theorem set_lt (addr : Nat) : cache.set addr < cache.rowCount :=
  Nat.mod_lt _ cache.rowCount_pos

/-- The lines of a set are the lines whose addresses are of the set. -/
theorem mem_linesOf_ofSet {made : List LBlock} {addr : Nat} :
    cache.block addr ∈ linesOf cache (ofSet cache (cache.set addr) made) ↔ cache.block addr ∈ linesOf cache made := by
  simp only [linesOf, ofSet, List.mem_map, List.mem_filter, decide_eq_true_eq]
  refine exists_congr fun l => ⟨fun ⟨⟨mem, _⟩, line⟩ => ⟨mem, line⟩, fun ⟨mem, line⟩ => ⟨⟨mem, ?_⟩, line⟩⟩
  rw [Cache.set, line, Cache.set]

theorem linesOf_append (made more : List LBlock) :
    linesOf cache (made ++ more) = linesOf cache made ++ linesOf cache more :=
  List.map_append

theorem ofSet_append (i : Nat) (made more : List LBlock) :
    ofSet cache i (made ++ more) = ofSet cache i made ++ ofSet cache i more :=
  List.filter_append made more

variable {st : State} {made : List LBlock}

/-- The number of an l-block is the place of the first l-block of its line, which it may be. -/
theorem Holds.cidOf_eq (holds : Holds cache st made) {l : LBlock} {addr : Nat} (address : l.address = addr) :
    cidOf cache st addr =
      1 + (linesOf cache (ofSet cache (cache.set addr) (made ++ [l]))).idxOf (cache.block addr) := by
  subst address
  have own : ofSet cache (cache.set l.address) [l] = [l] := List.filter_cons_of_pos (by simp)
  rw [cidOf, holds.known, ofSet_append, linesOf_append, own]
  split
  case isTrue mem => rw [List.idxOf_append_of_mem (mem_linesOf_ofSet.mpr mem), Option.getD_some]
  case isFalse new =>
    rw [List.idxOf_append_of_notMem (mt mem_linesOf_ofSet.mp new), holds.sets _ (set_lt _)]
    simp [linesOf, Nat.add_comm]

/-- A line that has a number keeps it. -/
theorem idxOf_grows (made more : List LBlock) {addr : Nat} (mem : cache.block addr ∈ linesOf cache made) :
    (linesOf cache (ofSet cache (cache.set addr) (made ++ more))).idxOf (cache.block addr) =
      (linesOf cache (ofSet cache (cache.set addr) made)).idxOf (cache.block addr) := by
  rw [ofSet_append, linesOf_append, List.idxOf_append_of_mem (mem_linesOf_ofSet.mpr mem)]

theorem add_sets (addr : Nat) (l : LBlock) (i : Nat) :
    (st.add cache addr l).sets i = if i = cache.set addr then st.sets i ++ [l] else st.sets i := by
  refine (Function.update_apply _ _ _ _).trans ?_
  split
  case isTrue eq => rw [eq]
  case isFalse => rfl

theorem add_blockMap (addr : Nat) (l : LBlock) (line : Nat) :
    (st.add cache addr l).blockMap line = if line = cache.block addr then some l.cid else st.blockMap line :=
  Function.update_apply _ _ _ _

theorem Holds.add (holds : Holds cache st made) (bb : BasicBlock) (addr : Nat) :
    Holds cache (st.add cache addr (makeLBlock cache bb st addr)) (made ++ [makeLBlock cache bb st addr]) := by
  set l := makeLBlock cache bb st addr with hl
  have address : l.address = addr := rfl
  have number := holds.cidOf_eq address
  refine ⟨fun l' mem => ?_, fun i lt => ?_, fun l' mem => ?_, fun addr' => ?_⟩
  · rcases List.mem_append.mp mem with mem | mem
    · exact holds.inst l' mem
    · rw [List.mem_singleton.mp mem]
      rfl
  · rw [add_sets, ofSet_append, holds.sets i lt]
    split
    case isTrue eq =>
      have own : ofSet cache i [l] = [l] := List.filter_cons_of_pos (by simp [address, eq])
      rw [own, List.cons_append]
    case isFalse ne =>
      have other : ofSet cache i [l] = [] := List.filter_cons_of_neg (by simpa [address] using Ne.symm ne)
      rw [other, List.append_nil]
  · rcases List.mem_append.mp mem with mem | mem
    · rw [idxOf_grows made [l] (List.mem_map_of_mem mem)]
      exact holds.cid l' mem
    · rw [List.mem_singleton.mp mem, address]
      exact number
  · rw [add_blockMap]
    split
    case isTrue eq =>
      have sameSet : cache.set addr' = cache.set addr := by rw [Cache.set, eq, Cache.set]
      rw [eq, sameSet, if_pos]
      · exact congrArg some number
      · rw [linesOf_append]
        exact List.mem_append_right _ (List.mem_singleton.mpr rfl)
    case isFalse eq =>
      rw [holds.known]
      have new : cache.block addr' ∈ linesOf cache (made ++ [l]) ↔ cache.block addr' ∈ linesOf cache made := by
        rw [linesOf_append, List.mem_append, or_iff_left]
        exact fun mem => eq (List.mem_singleton.mp mem)
      by_cases mem : cache.block addr' ∈ linesOf cache made
      · rw [if_pos mem, if_pos (new.mpr mem), idxOf_grows made [l] mem]
      · rw [if_neg mem, if_neg (mt new.mp mem)]

theorem Holds.foldl {bb : BasicBlock} (addrs : List Nat) {r : State × List LBlock}
    (holds : Holds cache r.1 (made ++ r.2)) :
    Holds cache (addrs.foldl (push cache bb) r).1 (made ++ (addrs.foldl (push cache bb) r).2) := by
  induction addrs generalizing r with
  | nil => exact holds
  | cons addr addrs ih =>
    refine ih ?_
    rw [push, ← List.append_assoc]
    exact holds.add bb addr

theorem Holds.processBB {mem : List Bank} {bb : BasicBlock} (holds : Holds cache st made) {r : State × List LBlock}
    (processed : LBlockBuilder.processBB cache mem st bb = some r) : Holds cache r.1 (made ++ r.2) := by
  obtain ⟨-, rfl⟩ := processBB_eq_some.mp processed
  refine Holds.foldl _ ?_
  rw [List.append_nil]
  exact holds

theorem Holds.processBBs {mem : List Bank} {bbs : List BasicBlock} {st : State} {made : List LBlock}
    (holds : Holds cache st made) {r : State × List (List LBlock)}
    (processed : LBlockBuilder.processBBs cache mem st bbs = some r) : Holds cache r.1 (made ++ r.2.flatten) := by
  induction bbs generalizing st made r with
  | nil =>
    cases processed
    rw [List.flatten_nil, List.append_nil]
    exact holds
  | cons bb bbs ih =>
    obtain ⟨r₁, one, rest⟩ := Option.bind_eq_some_iff.mp processed
    obtain ⟨r₂, more, same⟩ := Option.bind_eq_some_iff.mp rest
    cases same
    have := ih (holds.processBB one) more
    rwa [List.append_assoc] at this

theorem cleanup_sets {i : Nat} (lt : i < cache.rowCount) :
    (cleanup cache st).sets i = st.sets i ++ [⟨none, 0, (st.sets i).length⟩] :=
  if_pos lt

section

variable (holds : Holds cache st made)
include holds

theorem Holds.program_cleanup {i : Nat} (lt : i < cache.rowCount) :
    program ((cleanup cache st).sets i) = ofSet cache i made := by
  have all : ∀ l ∈ ofSet cache i made, l.inst.isSome := fun l mem => holds.inst l (List.mem_of_mem_filter mem)
  rw [cleanup_sets lt, holds.sets i lt, program, List.filter_append, List.filter_cons_of_neg (by simp),
    List.filter_cons_of_neg (by simp), List.filter_nil, List.append_nil]
  exact List.filter_eq_self.mpr all

theorem Holds.cid_eq {i : Nat} {l : LBlock} (mem : l ∈ ofSet cache i made) :
    l.cid = 1 + (linesOf cache (ofSet cache i made)).idxOf (cache.block l.address) := by
  obtain ⟨mem, own⟩ := List.mem_filter.mp mem
  rw [← of_decide_eq_true own]
  exact holds.cid l mem

/-- The l-blocks of a line have the same number and others have another. -/
theorem Holds.cid_eq_cid {i : Nat} {l l' : LBlock} (mem : l ∈ ofSet cache i made)
    (mem' : l' ∈ ofSet cache i made) : l.cid = l'.cid ↔ cache.block l.address = cache.block l'.address := by
  rw [holds.cid_eq mem, holds.cid_eq mem', Nat.add_left_cancel_iff]
  exact List.idxOf_inj (List.mem_map_of_mem mem)

theorem Holds.contiguous_iff (i : Nat) :
    (∃ m, ∀ n, (∃ l ∈ ofSet cache i made, l.cid = n) ↔ 1 ≤ n ∧ n ≤ m) ↔
      Settled (linesOf cache (ofSet cache i made)) := by
  rw [← settled_iff]
  have place : ∀ n, (∃ l ∈ ofSet cache i made, l.cid = n + 1) ↔
      ∃ line ∈ linesOf cache (ofSet cache i made), (linesOf cache (ofSet cache i made)).idxOf line = n := by
    intro n
    simp only [linesOf, List.mem_map]
    constructor
    · rintro ⟨l, mem, number⟩
      have := holds.cid_eq mem
      exact ⟨_, ⟨l, mem, rfl⟩, by rw [linesOf] at this; omega⟩
    · rintro ⟨_, ⟨l, mem, rfl⟩, first⟩
      have := holds.cid_eq mem
      exact ⟨l, mem, by rw [linesOf] at this; omega⟩
  refine exists_congr fun m => ⟨fun numbers n => ?_, fun places n => ?_⟩
  · rw [← place, numbers]
    omega
  · cases n with
    | zero =>
      refine ⟨fun ⟨l, mem, zero⟩ => ?_, fun bounds => by omega⟩
      have := holds.cid_eq mem
      omega
    | succ n =>
      rw [place, places]
      omega

/-- `cacheBlockCount`, the count of the l-blocks, is above the numbers of the set. -/
theorem Holds.cid_lt {i : Nat} (lt : i < cache.rowCount) {l : LBlock}
    (mem : l ∈ (cleanup cache st).sets i) : l.cid < ((cleanup cache st).sets i).length := by
  rw [cleanup_sets lt] at mem ⊢
  rw [List.length_append, List.length_singleton]
  rcases List.mem_append.mp mem with mem | mem
  · rw [holds.sets i lt] at mem ⊢
    rcases List.mem_cons.mp mem with rfl | mem
    · exact Nat.succ_pos _
    · have used : cache.block l.address ∈ linesOf cache (ofSet cache i made) := List.mem_map_of_mem mem
      have place := List.idxOf_lt_length_of_mem used
      rw [linesOf, List.length_map] at place
      rw [holds.cid_eq mem, List.length_cons, linesOf]
      omega
  · rw [List.mem_singleton.mp mem]
    exact Nat.lt_succ_self _

end

end Numbers

end Otawa.LBlockBuilder
