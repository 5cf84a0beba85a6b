import Mathlib.Data.Nat.ModEq
import Otawa.Cache.LBlockBuilder

/-!
# Basic blocks cut by the lines of the cache

The parts of a basic block in the lines that it overlaps, and when `LBlockBuilder` makes an l-block of each:
`changes_eq` compares the two ways to cut, by the changes of the set on the instructions and by the addresses
of the lines, and `right_iff` says when the table of a block is right. `partitioned_iff` is about any
sequence of basic blocks.
-/

namespace Otawa.LBlockBuilder

open Otawa.Numbering

section Parts

variable (cache : Cache) (mem : List Bank) (bb : BasicBlock)

/-- The lines that a basic block overlaps, in address order. -/
def lines : List Nat :=
  List.range' (cache.block bb.address) (cache.block (bb.topAddress - 1) + 1 - cache.block bb.address)

/-- The first byte of the block in a line. -/
def start (line : Nat) : Nat := max bb.address (line * cache.blockSize)

/-- The bounds of the part of the block in a line. -/
def part (line : Nat) : Nat × Nat := (start cache bb line, min bb.topAddress ((line + 1) * cache.blockSize))

/-- The lines of the block that are cached where the block enters them. -/
def cachedLines : List Nat := (lines cache bb).filter fun line => isCached mem (start cache bb line)

/-- Each line is known, from its start, and found by a change of set. -/
structure Fits : Prop where
  /-- The block does not end in the last line of the addresses, and its lines are counted by an `int`. -/
  noWrap : bb.topAddress + cache.blockMask < 2 ^ 32
  counted : (lines cache bb).length < 2 ^ 31
  cached : ∀ line ∈ lines cache bb, isCached mem (start cache bb line)
  /-- An instruction starts where the block enters a line. -/
  starts : ∀ line ∈ lines cache bb, start cache bb line ∈ bb.insts
  sets : (lines cache bb).length = 1 ∨ cache.rowBits ≠ 0

/-- A block from the first line to the last one has a table of size 0, which is right if nothing is cached. -/
structure Blank : Prop where
  wraps : 2 ^ 32 ≤ bb.topAddress + cache.blockMask
  first : bb.address < cache.blockSize
  uncached : ∀ line ∈ lines cache bb, isCached mem (start cache bb line) = false
  silent : ∀ addr ∈ changes cache ((cache.set bb.address + 2 ^ 32 - 1) % 2 ^ 32) bb.insts, isCached mem addr = false

end Parts

section Insts

theorem insts_bounds {addr x : Nat} {sizes : List Nat} (pos : ∀ size ∈ sizes, 0 < size)
    (mem : x ∈ instsFrom addr sizes) : addr ≤ x ∧ x < addr + sizes.sum := by
  induction sizes generalizing addr with
  | nil => cases mem
  | cons size sizes ih =>
    have positive := pos size List.mem_cons_self
    rw [List.sum_cons]
    rcases List.mem_cons.mp mem with rfl | mem
    · omega
    · have := ih (fun s mem => pos s (List.mem_cons_of_mem size mem)) mem
      omega

theorem insts_sorted (addr : Nat) {sizes : List Nat} (pos : ∀ size ∈ sizes, 0 < size) :
    (instsFrom addr sizes).Pairwise (· < ·) := by
  induction sizes generalizing addr with
  | nil => exact .nil
  | cons size sizes ih =>
    have positive := pos size List.mem_cons_self
    have later := fun s mem => pos s (List.mem_cons_of_mem size mem)
    refine .cons (fun x mem => ?_) (ih (addr + size) later)
    have := (insts_bounds later mem).1
    omega

namespace BasicBlock

variable (bb : BasicBlock)

theorem insts_eq : ∃ more, bb.insts = bb.address :: more := by
  obtain ⟨size, sizes, eq⟩ := List.exists_cons_of_ne_nil bb.nonempty
  exact ⟨instsFrom (bb.address + size) sizes, by rw [insts, eq, instsFrom]⟩

theorem sorted_insts : bb.insts.Pairwise (· < ·) := insts_sorted bb.address bb.pos

theorem mem_insts {x : Nat} (mem : x ∈ bb.insts) : bb.address ≤ x ∧ x < bb.topAddress :=
  insts_bounds bb.pos mem

theorem address_lt : bb.address < bb.topAddress := by
  obtain ⟨more, eq⟩ := bb.insts_eq
  exact (bb.mem_insts (eq ▸ List.mem_cons_self)).2

end BasicBlock

end Insts

/-! ## The two ways to cut -/

section Changes

variable {cache : Cache} {mem : List Bank} {bb : BasicBlock}

theorem changes_sublist (set : Nat) (insts : List Nat) : (changes cache set insts).Sublist insts := by
  induction insts generalizing set with
  | nil => exact .slnil
  | cons addr insts ih =>
    rw [changes]
    split
    · exact (ih _).cons_cons addr
    · exact (ih _).cons addr

/-- The set before the first instruction is not its own one. -/
theorem first_change (addr : Nat) (insts : List Nat) :
    changes cache ((cache.set addr + 2 ^ 32 - 1) % 2 ^ 32) (addr :: insts) =
      addr :: changes cache (cache.set addr) insts :=
  if_pos (by omega)

/-- With one set no change is seen. -/
theorem changes_of_one_set (one : cache.rowBits = 0) (addr : Nat) (insts : List Nat) :
    changes cache (cache.set addr) insts = [] := by
  have zero : ∀ x, cache.set x = 0 := fun x => by rw [Cache.set, Cache.rowCount, one, Nat.pow_zero, Nat.mod_one]
  induction insts with
  | nil => rfl
  | cons x insts ih => rw [changes, if_neg (by rw [zero, zero]; exact fun ne => ne rfl), ih]

/-- An address with no boundary of a line after `prev` is in the line of `prev`. -/
theorem block_eq {prev addr : Nat} (le : prev ≤ addr)
    (none : ∀ line, prev < line * cache.blockSize → addr < line * cache.blockSize) :
    cache.block addr = cache.block prev := by
  have bound := none _ (Nat.lt_mul_of_div_lt (Nat.lt_succ_self (prev / cache.blockSize)) cache.blockSize_pos)
  have upper : cache.block addr < cache.block prev + 1 := (Nat.div_lt_iff_lt_mul cache.blockSize_pos).mpr bound
  have lower : cache.block prev ≤ cache.block addr := Nat.div_le_div_right le
  omega

/-- The lines of consecutive instructions have different sets, unless there is one set only. -/
theorem set_ne (sets : cache.rowBits ≠ 0) {prev addr : Nat} (next : cache.block addr = cache.block prev + 1) :
    cache.set prev ≠ cache.set addr := by
  have two : 2 ≤ cache.rowCount := Nat.le_self_pow sets 2
  rw [Cache.set, Cache.set, next]
  intro eq
  have dvd := (Nat.modEq_iff_dvd' (Nat.le_succ (cache.block prev))).mp eq
  rw [Nat.succ_sub (Nat.le_refl _), Nat.sub_self] at dvd
  have := Nat.le_of_dvd Nat.one_pos dvd
  omega

/-- The changes are the boundaries of the lines if an instruction starts at each. -/
theorem changes_eq {prev top : Nat} {insts : List Nat} (sorted : (prev :: insts).Pairwise (· < ·))
    (below : ∀ addr ∈ insts, addr < top)
    (starts : ∀ line, prev < line * cache.blockSize → line * cache.blockSize < top → line * cache.blockSize ∈ insts)
    (sets : ∀ line, prev < line * cache.blockSize → line * cache.blockSize < top → cache.rowBits ≠ 0) :
    changes cache (cache.set prev) insts = insts.filter (cache.blockSize ∣ ·) := by
  induction insts generalizing prev with
  | nil => rfl
  | cons addr insts ih =>
    obtain ⟨after, sorted⟩ := List.pairwise_cons.mp sorted
    have lt := after addr List.mem_cons_self
    have first : ∀ line, prev < line * cache.blockSize → line * cache.blockSize < top →
        addr ≤ line * cache.blockSize := by
      intro line later bound
      rcases List.mem_cons.mp (starts line later bound) with eq | mem
      · exact eq.ge
      · exact (List.rel_of_pairwise_cons sorted mem).le
    have rest : changes cache (cache.set addr) insts = insts.filter (cache.blockSize ∣ ·) := by
      refine ih sorted (fun x mem => below x (List.mem_cons_of_mem addr mem)) ?_ ?_
      · intro line later bound
        exact (List.mem_cons.mp (starts line (lt.trans later) bound)).resolve_left later.ne'
      · exact fun line later => sets line (lt.trans later)
    have inside := below addr List.mem_cons_self
    by_cases boundary : cache.blockSize ∣ addr
    · obtain ⟨line, rfl⟩ := boundary
      rw [Nat.mul_comm] at lt first rest inside ⊢
      have next : cache.block (line * cache.blockSize) = cache.block prev + 1 := by
        have own : cache.block (line * cache.blockSize) = line := Nat.mul_div_cancel line cache.blockSize_pos
        have later : prev < (cache.block prev + 1) * cache.blockSize :=
          Nat.lt_mul_of_div_lt (Nat.lt_succ_self _) cache.blockSize_pos
        have upper : line * cache.blockSize ≤ (cache.block prev + 1) * cache.blockSize := by
          by_contra before
          exact before (first _ later ((Nat.not_le.mp before).trans inside))
        have lower : cache.block prev < line := (Nat.div_lt_iff_lt_mul cache.blockSize_pos).mpr lt
        have := Nat.le_of_mul_le_mul_right upper cache.blockSize_pos
        omega
      rw [changes, if_pos (set_ne (sets line lt inside) next), rest,
        List.filter_cons_of_pos (by simp)]
    · have same : cache.block addr = cache.block prev := by
        refine block_eq lt.le fun line later => ?_
        by_contra le
        rw [Nat.not_lt] at le
        have eq := le.antisymm (first line later (le.trans_lt inside))
        exact boundary ⟨line, by rw [← eq, Nat.mul_comm]⟩
      have sameSet : cache.set prev = cache.set addr := by rw [Cache.set, Cache.set, same]
      rw [changes, if_neg (fun ne => ne sameSet), sameSet, rest, List.filter_cons_of_neg (by simpa using boundary)]

theorem mem_lines {line : Nat} :
    line ∈ lines cache bb ↔ cache.block bb.address ≤ line ∧ line ≤ cache.block (bb.topAddress - 1) := by
  rw [lines, List.mem_range'_1]
  omega

/-- The lines are the ones of the bytes of the block. -/
theorem block_mem_lines {x : Nat} (le : bb.address ≤ x) (lt : x < bb.topAddress) : cache.block x ∈ lines cache bb :=
  mem_lines.mpr ⟨Nat.div_le_div_right le, Nat.div_le_div_right (Nat.le_sub_one_of_lt lt)⟩

theorem first_mem_lines : cache.block bb.address ∈ lines cache bb := block_mem_lines le_rfl bb.address_lt

theorem start_bounds {line : Nat} (mem : line ∈ lines cache bb) :
    bb.address ≤ start cache bb line ∧ start cache bb line < bb.topAddress ∧
      cache.block (start cache bb line) = line := by
  obtain ⟨lower, upper⟩ := mem_lines.mp mem
  have lt := bb.address_lt
  have inside : line * cache.blockSize ≤ bb.topAddress - 1 :=
    (Nat.mul_le_mul_right _ upper).trans (Nat.div_mul_le_self _ _)
  refine ⟨le_max_left _ _, max_lt lt (by omega), ?_⟩
  refine Nat.div_eq_of_lt_le (le_max_right _ _) (max_lt ?_ ?_)
  · exact (Nat.div_lt_iff_lt_mul cache.blockSize_pos).mp (Nat.lt_succ_of_le lower)
  · exact Nat.mul_lt_mul_of_pos_right (Nat.lt_succ_self line) cache.blockSize_pos

theorem starts_sorted : ((lines cache bb).map (start cache bb)).Pairwise (· < ·) := by
  rw [List.pairwise_map]
  refine List.Pairwise.imp_of_mem ?_ List.pairwise_lt_range'
  intro line line' mem mem' lt
  by_contra le
  have blocks : cache.block (start cache bb line') ≤ cache.block (start cache bb line) :=
    Nat.div_le_div_right (Nat.not_lt.mp le)
  rw [(start_bounds mem).2.2, (start_bounds mem').2.2] at blocks
  exact blocks.not_gt lt

/-- An address of the block on the boundary of a line is the start of the line. -/
theorem start_eq {line : Nat} (le : bb.address ≤ line * cache.blockSize) :
    start cache bb line = line * cache.blockSize :=
  max_eq_right le

theorem start_first : start cache bb (cache.block bb.address) = bb.address :=
  max_eq_left (Nat.div_mul_le_self _ _)

/-- The changes of the set are the starts of the lines where these are instructions of different sets. -/
theorem changes_eq_starts (starts : ∀ line ∈ lines cache bb, start cache bb line ∈ bb.insts)
    (sets : (lines cache bb).length = 1 ∨ cache.rowBits ≠ 0) :
    changes cache ((cache.set bb.address + 2 ^ 32 - 1) % 2 ^ 32) bb.insts =
      (lines cache bb).map (start cache bb) := by
  obtain ⟨more, eq⟩ := bb.insts_eq
  have sorted := bb.sorted_insts
  have bounds : ∀ x ∈ more, bb.address < x ∧ x < bb.topAddress := fun x mem =>
    ⟨List.rel_of_pairwise_cons (eq ▸ sorted) mem, (bb.mem_insts (eq ▸ List.mem_cons_of_mem _ mem)).2⟩
  -- a boundary inside the block is the start of a line
  have boundary : ∀ line, bb.address < line * cache.blockSize → line * cache.blockSize < bb.topAddress →
      line ∈ lines cache bb ∧ line * cache.blockSize ∈ more := by
    intro line lower upper
    have own : cache.block (line * cache.blockSize) = line := Nat.mul_div_cancel line cache.blockSize_pos
    have mem : line ∈ lines cache bb := own ▸ block_mem_lines lower.le upper
    have inst := starts line mem
    rw [start_eq lower.le, eq] at inst
    exact ⟨mem, (List.mem_cons.mp inst).resolve_left lower.ne'⟩
  have several : ∀ line, bb.address < line * cache.blockSize → line * cache.blockSize < bb.topAddress →
      cache.rowBits ≠ 0 := by
    intro line lower upper
    refine sets.resolve_left fun one => ?_
    obtain ⟨only, single⟩ := List.length_eq_one_iff.mp one
    have first := List.mem_singleton.mp (single ▸ first_mem_lines)
    have same := List.mem_singleton.mp (single ▸ (boundary line lower upper).1)
    have start := start_eq lower.le
    rw [same, ← first, start_first] at start
    rw [same, ← first] at lower
    omega
  have cut := changes_eq (eq ▸ sorted) (fun x mem => (bounds x mem).2)
    (fun line lower upper => (boundary line lower upper).2) several
  rw [eq, first_change, cut]
  refine List.Pairwise.eq_of_mem_iff ?_ starts_sorted ?_
  · exact (eq ▸ sorted).sublist (List.filter_sublist.cons_cons _)
  · intro x
    rw [List.mem_map, List.mem_cons, List.mem_filter, decide_eq_true_eq]
    constructor
    · rintro (rfl | ⟨mem, line, rfl⟩)
      · exact ⟨_, first_mem_lines, start_first⟩
      · obtain ⟨lower, upper⟩ := bounds _ mem
        rw [Nat.mul_comm] at lower upper ⊢
        exact ⟨line, (boundary line lower upper).1, start_eq lower.le⟩
    · rintro ⟨line, mem, rfl⟩
      have inst := starts line mem
      rw [eq] at inst
      refine (List.mem_cons.mp inst).imp_right fun later => ⟨later, ?_⟩
      have := (bounds _ later).1
      rw [start, lt_max_iff] at this
      rw [start_eq (this.resolve_left (lt_irrefl _)).le]
      exact Nat.dvd_mul_left _ line

end Changes

/-! ## The size of the table and the bounds of the l-blocks -/

section Bounds

variable {cache : Cache} {bb : BasicBlock}

theorem blockMask_lt : cache.blockMask < 2 ^ 31 := by
  have le : cache.blockSize ≤ 2 ^ 31 := Nat.pow_le_pow_right Nat.two_pos (by have := cache.fits; omega)
  have := cache.blockMask_add_one
  omega

theorem lines_length : (lines cache bb).length = (bb.topAddress + cache.blockMask) / cache.blockSize -
    bb.address / cache.blockSize := by
  have lt := bb.address_lt
  have mask := cache.blockMask_add_one
  have last : (bb.topAddress + cache.blockMask) / cache.blockSize = cache.block (bb.topAddress - 1) + 1 := by
    rw [Cache.block, ← Nat.add_div_right _ cache.blockSize_pos]
    congr 1
    omega
  rw [lines, List.length_range', last, Cache.block, Cache.block]

/-- The size of the table is the count of the lines if nothing wraps. -/
theorem numLBlocks_eq (noWrap : bb.topAddress + cache.blockMask < 2 ^ 32) :
    numLBlocks cache bb = ((lines cache bb).length : Int).bmod (2 ^ 32) := by
  have le : bb.address / cache.blockSize ≤ (bb.topAddress + cache.blockMask) / cache.blockSize :=
    Nat.div_le_div_right (bb.address_lt.le.trans (Nat.le_add_right _ _))
  rw [numLBlocks, Nat.mod_eq_of_lt noWrap, lines_length, Int.natCast_sub le]

theorem numLBlocks_wraps (wraps : 2 ^ 32 ≤ bb.topAddress + cache.blockMask) :
    numLBlocks cache bb = -(cache.block bb.address : Int) := by
  have top_lt : bb.topAddress < 2 ^ 32 := bb.top_lt
  have mask_lt : cache.blockMask < 2 ^ 31 := blockMask_lt
  have mask := cache.blockMask_add_one
  have zero : (bb.topAddress + cache.blockMask) % 2 ^ 32 / cache.blockSize = 0 :=
    Nat.div_eq_of_lt (by omega)
  have two : 2 ≤ cache.blockSize := by omega
  have small : cache.block bb.address < 2 ^ 31 := by
    refine (Nat.div_le_div_left two Nat.two_pos).trans_lt ?_
    have := bb.address_lt
    omega
  rw [numLBlocks, zero, Int.bmod_def, ← Cache.block]
  split <;> omega

/-- The bounds of an l-block that starts at an address. -/
def boundsAt (cache : Cache) (bb : BasicBlock) (addr : Nat) : Nat × Nat :=
  (addr, addr + (top cache bb addr + 2 ^ 32 - addr) % 2 ^ 32)

theorem boundsAt_start (noWrap : bb.topAddress + cache.blockMask < 2 ^ 32) {line : Nat} (mem : line ∈ lines cache bb) :
    boundsAt cache bb (start cache bb line) = part cache bb line := by
  obtain ⟨-, lt, own⟩ := start_bounds mem
  have top_lt : bb.topAddress < 2 ^ 32 := bb.top_lt
  have mask := cache.blockMask_add_one
  have next : (start cache bb line + cache.blockSize) / cache.blockSize = line + 1 := by
    rw [Nat.add_div_right _ cache.blockSize_pos]
    exact congrArg Nat.succ own
  have after : start cache bb line < (line + 1) * cache.blockSize := by
    rw [← Nat.div_lt_iff_lt_mul cache.blockSize_pos]
    exact Nat.lt_succ_of_le own.le
  have ends : top cache bb (start cache bb line) = min bb.topAddress ((line + 1) * cache.blockSize) := by
    rw [top, Nat.add_assoc, mask, Nat.mod_eq_of_lt (by omega), next, min_comm]
  rw [boundsAt, ends, part]
  have := lt_min lt after
  have := min_le_left bb.topAddress ((line + 1) * cache.blockSize)
  congr 1
  omega

end Bounds

/-! ## The table of a block -/

section Tables

variable {cache : Cache} {mem : List Bank} {bb : BasicBlock}

theorem numLBlocks_small (noWrap : bb.topAddress + cache.blockMask < 2 ^ 32) (counted : (lines cache bb).length < 2 ^ 31) :
    numLBlocks cache bb = (lines cache bb).length := by
  rw [numLBlocks_eq noWrap, Int.bmod_def]
  split <;> omega

theorem counted_of_numLBlocks (noWrap : bb.topAddress + cache.blockMask < 2 ^ 32) (nonneg : 0 ≤ numLBlocks cache bb) :
    (lines cache bb).length < 2 ^ 31 := by
  have lt : (lines cache bb).length < 2 ^ 32 := by
    rw [lines_length]
    exact (Nat.sub_le _ _).trans_lt ((Nat.div_le_self _ _).trans_lt noWrap)
  rw [numLBlocks_eq noWrap, Int.bmod_def] at nonneg
  split at nonneg <;> omega

/-- The table of the block is filled and has an l-block for each cached line, with the bounds of its part. -/
def Right (cache : Cache) (mem : List Bank) (bb : BasicBlock) : Prop :=
  ((created cache mem bb).length : Int) = numLBlocks cache bb ∧
    (created cache mem bb).map (boundsAt cache bb) = (cachedLines cache mem bb).map (part cache bb)

theorem Fits.right (fits : Fits cache mem bb) : Right cache mem bb := by
  have all : cachedLines cache mem bb = lines cache bb := List.filter_eq_self.mpr fits.cached
  have starts : created cache mem bb = (lines cache bb).map (start cache bb) := by
    rw [created, changes_eq_starts fits.starts fits.sets, List.filter_eq_self]
    intro addr at_start
    obtain ⟨line, own, rfl⟩ := List.mem_map.mp at_start
    exact fits.cached line own
  refine ⟨?_, ?_⟩
  · rw [starts, List.length_map, numLBlocks_small fits.noWrap fits.counted]
  · rw [starts, all, List.map_map]
    exact List.map_congr_left fun line mem => boundsAt_start fits.noWrap mem

theorem Right.fits (right : Right cache mem bb) (noWrap : bb.topAddress + cache.blockMask < 2 ^ 32) :
    Fits cache mem bb := by
  obtain ⟨filled, parts⟩ := right
  have counted := counted_of_numLBlocks noWrap (filled ▸ Int.natCast_nonneg _)
  have count : (created cache mem bb).length = (lines cache bb).length := by
    rw [numLBlocks_small noWrap counted] at filled
    exact Int.ofNat_inj.mp filled
  have lengths := congrArg List.length parts
  rw [List.length_map, List.length_map, count] at lengths
  have all : cachedLines cache mem bb = lines cache bb := List.filter_sublist.eq_of_length lengths.symm
  have starts : created cache mem bb = (lines cache bb).map (start cache bb) := by
    have := congrArg (List.map Prod.fst) parts
    rw [all, List.map_map, List.map_map] at this
    simpa [Function.comp_def, boundsAt, part] using this
  refine ⟨noWrap, counted, List.filter_eq_self.mp all, fun line own => ?_, ?_⟩
  · have made : start cache bb line ∈ created cache mem bb := starts ▸ List.mem_map_of_mem own
    exact (changes_sublist _ _).subset (List.mem_of_mem_filter made)
  · by_cases one : cache.rowBits = 0
    · left
      obtain ⟨more, eq⟩ := bb.insts_eq
      have upper : (created cache mem bb).length ≤ 1 := by
        rw [created, eq, first_change, changes_of_one_set one]
        exact List.length_filter_le _ _
      have lower : 0 < (lines cache bb).length := List.length_pos_of_mem first_mem_lines
      omega
    · exact .inr one

theorem created_eq_nil : created cache mem bb = [] ↔
    ∀ addr ∈ changes cache ((cache.set bb.address + 2 ^ 32 - 1) % 2 ^ 32) bb.insts, isCached mem addr = false := by
  rw [created, List.filter_eq_nil_iff]
  exact forall₂_congr fun addr _ => Bool.eq_false_iff.symm

theorem cachedLines_eq_nil :
    cachedLines cache mem bb = [] ↔ ∀ line ∈ lines cache bb, isCached mem (start cache bb line) = false := by
  rw [cachedLines, List.filter_eq_nil_iff]
  exact forall₂_congr fun line _ => Bool.eq_false_iff.symm

theorem right_iff_blank (wraps : 2 ^ 32 ≤ bb.topAddress + cache.blockMask) :
    Right cache mem bb ↔ Blank cache mem bb := by
  rw [Right, numLBlocks_wraps wraps]
  constructor
  · rintro ⟨filled, parts⟩
    have none : created cache mem bb = [] := List.length_eq_zero_iff.mp (by omega)
    have first : cache.block bb.address = 0 := by omega
    rw [none, List.map_nil, eq_comm, List.map_eq_nil_iff] at parts
    refine ⟨wraps, ?_, ?_, ?_⟩
    · exact (Nat.div_eq_zero_iff_lt cache.blockSize_pos).mp first
    · exact cachedLines_eq_nil.mp parts
    · exact created_eq_nil.mp none
  · intro blank
    have none := created_eq_nil.mpr blank.silent
    have uncached := cachedLines_eq_nil.mpr blank.uncached
    have first : cache.block bb.address = 0 := (Nat.div_eq_zero_iff_lt cache.blockSize_pos).mpr blank.first
    rw [none, uncached, first]
    exact ⟨rfl, rfl⟩

theorem right_iff : Right cache mem bb ↔ Fits cache mem bb ∨ Blank cache mem bb := by
  by_cases noWrap : bb.topAddress + cache.blockMask < 2 ^ 32
  · refine ⟨fun right => .inl (right.fits noWrap), ?_⟩
    rintro (fits | blank)
    · exact fits.right
    · exact absurd noWrap (Nat.not_lt.mpr blank.wraps)
  · rw [right_iff_blank (Nat.not_lt.mp noWrap)]
    exact ⟨.inr, fun either => either.resolve_left fun fits => noWrap fits.noWrap⟩

end Tables

/-! ## Sequences of basic blocks -/

/-- The bounds of an l-block. -/
def LBlock.bounds (l : LBlock) : Nat × Nat := (l.address, l.address + l.size)

/-- Each basic block has an l-block for each cached line that it overlaps, in address order and with the bounds
of its part in it; these are the l-blocks of the sets; and they are numbered by their lines. -/
structure Partitioned (cache : Cache) (mem : List Bank) (bbs : List BasicBlock) (st : State)
    (tables : List (List LBlock)) : Prop where
  parts : tables.map (·.map LBlock.bounds) = bbs.map fun bb => (cachedLines cache mem bb).map (part cache bb)
  sets : ∀ i < cache.rowCount, program (st.sets i) = ofSet cache i tables.flatten
  same : ∀ i < cache.rowCount, ∀ l ∈ program (st.sets i), ∀ l' ∈ program (st.sets i),
    l.cid = l'.cid ↔ cache.block l.address = cache.block l'.address
  contiguous : ∀ i < cache.rowCount, ∃ m, ∀ n, (∃ l ∈ program (st.sets i), l.cid = n) ↔ 1 ≤ n ∧ n ≤ m
  below : ∀ i < cache.rowCount, ∀ l ∈ st.sets i, l.cid < (st.sets i).length

section Sequences

variable (cache : Cache) (mem : List Bank)

/-- The lines of a set that the blocks use, in this order. -/
def uses (bbs : List BasicBlock) (i : Nat) : List Nat :=
  (bbs.flatMap (cachedLines cache mem)).filter (· % cache.rowCount = i)

variable {cache mem}

theorem bounds_foldl {bb : BasicBlock} (addrs : List Nat) (r : State × List LBlock) :
    (addrs.foldl (push cache bb) r).2.map LBlock.bounds = r.2.map LBlock.bounds ++ addrs.map (boundsAt cache bb) := by
  induction addrs generalizing r with
  | nil => exact (List.append_nil _).symm
  | cons addr addrs ih =>
    rw [List.foldl_cons, ih, push, List.map_append, List.append_assoc]
    rfl

/-- Whether the table of a block is right does not depend on the blocks before. -/
theorem processBB_right (st : State) (bb : BasicBlock) :
    (∃ r, processBB cache mem st bb = some r ∧
      r.2.map LBlock.bounds = (cachedLines cache mem bb).map (part cache bb)) ↔ Right cache mem bb := by
  simp only [processBB_eq_some]
  constructor
  · rintro ⟨r, ⟨filled, rfl⟩, parts⟩
    exact ⟨filled, (bounds_foldl _ _).symm.trans parts⟩
  · intro right
    exact ⟨_, ⟨right.1, rfl⟩, (bounds_foldl _ _).trans right.2⟩

theorem processBBs_right (st : State) (bbs : List BasicBlock) :
    (∃ r, processBBs cache mem st bbs = some r ∧ r.2.map (·.map LBlock.bounds) =
      bbs.map fun bb => (cachedLines cache mem bb).map (part cache bb)) ↔ ∀ bb ∈ bbs, Right cache mem bb := by
  induction bbs generalizing st with
  | nil => exact ⟨fun _ => List.forall_mem_nil _, fun _ => ⟨_, rfl, rfl⟩⟩
  | cons bb bbs ih =>
    rw [List.forall_mem_cons]
    constructor
    · rintro ⟨r, processed, parts⟩
      obtain ⟨r₁, one, rest⟩ := Option.bind_eq_some_iff.mp processed
      obtain ⟨r₂, more, same⟩ := Option.bind_eq_some_iff.mp rest
      cases same
      obtain ⟨here, later⟩ := List.cons.inj parts
      exact ⟨(processBB_right st bb).mp ⟨r₁, one, here⟩, (ih r₁.1).mp ⟨r₂, more, later⟩⟩
    · rintro ⟨here, later⟩
      obtain ⟨r₁, one, parts⟩ := (processBB_right st bb).mpr here
      obtain ⟨r₂, more, parts'⟩ := (ih r₁.1).mpr later
      refine ⟨(r₂.1, r₁.2 :: r₂.2), ?_, congrArg₂ List.cons parts parts'⟩
      rw [processBBs, one]
      change (processBBs cache mem r₁.1 bbs).bind _ = _
      rw [more]
      rfl

theorem lines_of_parts (bb : BasicBlock) :
    ((cachedLines cache mem bb).map (part cache bb)).map (fun p => cache.block p.1) = cachedLines cache mem bb := by
  rw [List.map_map]
  refine (List.map_congr_left fun line own => ?_).trans (List.map_id _)
  exact (start_bounds (List.mem_of_mem_filter own)).2.2

theorem uses_eq {bbs : List BasicBlock} {tables : List (List LBlock)}
    (parts : tables.map (·.map LBlock.bounds) = bbs.map fun bb => (cachedLines cache mem bb).map (part cache bb))
    (i : Nat) : linesOf cache (ofSet cache i tables.flatten) = uses cache mem bbs i := by
  have lines : linesOf cache tables.flatten = bbs.flatMap (cachedLines cache mem) := by
    have bounds := congrArg (List.map (List.map fun p => cache.block p.1)) parts
    rw [List.map_map, List.map_map] at bounds
    rw [linesOf, List.map_flatten, List.flatMap_def]
    refine congrArg List.flatten (Eq.trans ?_ (bounds.trans (List.map_congr_left fun bb _ => lines_of_parts bb)))
    refine List.map_congr_left fun table _ => ?_
    rw [Function.comp_apply, List.map_map]
    rfl
  rw [uses, ← lines, linesOf, linesOf, List.filter_map]
  rfl

/-- Every basic block is cut right and the lines are numbered right exactly when each block fits, or is blank,
and in no set a line is new after a line came again. -/
theorem partitioned_iff (cache : Cache) (mem : List Bank) (bbs : List BasicBlock) :
    (∃ st tables, build cache mem bbs = some (st, tables) ∧ Partitioned cache mem bbs st tables) ↔
      (∀ bb ∈ bbs, Fits cache mem bb ∨ Blank cache mem bb) ∧
        ∀ i < cache.rowCount, Settled (uses cache mem bbs i) := by
  simp only [← right_iff]
  constructor
  · rintro ⟨st, tables, built, partitioned⟩
    obtain ⟨r, processed, same⟩ := Option.map_eq_some_iff.mp built
    cases same
    have holds := holds_setup.processBBs processed
    refine ⟨(processBBs_right _ bbs).mp ⟨r, processed, partitioned.parts⟩, fun i lt => ?_⟩
    have contiguous := partitioned.contiguous i lt
    rw [partitioned.sets i lt] at contiguous
    rw [← uses_eq partitioned.parts]
    exact (holds.contiguous_iff i).mp contiguous
  · rintro ⟨right, settled⟩
    obtain ⟨r, processed, parts⟩ := (processBBs_right (setup cache) bbs).mpr right
    have holds := holds_setup.processBBs processed
    rw [List.nil_append] at holds
    refine ⟨_, r.2, Option.map_eq_some_iff.mpr ⟨r, processed, rfl⟩, parts, fun i lt => holds.program_cleanup lt,
      fun i lt => ?_, fun i lt => ?_, fun i lt l mem => holds.cid_lt lt mem⟩
    · rw [holds.program_cleanup lt]
      exact fun l mem l' mem' => holds.cid_eq_cid mem mem'
    · rw [holds.program_cleanup lt, holds.contiguous_iff, uses_eq parts]
      exact settled i lt

/-- A block of two lines in a cache with one set: the second line is not seen, and the assertion on the index fails. -/
theorem one_set_stops : build ⟨4, 0, by decide⟩ [] [⟨0, [16, 16], by decide, by decide, by decide⟩] = none ∧
    ¬ ∃ st tables, build ⟨4, 0, by decide⟩ [] [⟨0, [16, 16], by decide, by decide, by decide⟩] = some (st, tables) ∧
      Partitioned ⟨4, 0, by decide⟩ [] [⟨0, [16, 16], by decide, by decide, by decide⟩] st tables := by
  have stops : build ⟨4, 0, by decide⟩ [] [⟨0, [16, 16], by decide, by decide, by decide⟩] = none := rfl
  refine ⟨stops, ?_⟩
  rintro ⟨st, tables, built, -⟩
  rw [stops] at built
  cases built

end Sequences

end Otawa.LBlockBuilder
