import Otawa.Elm.STreeBuilders
import Mathlib.Algebra.Order.Ring.Int

/-!
# The simple garbage collector of ELM

`SimpleGC` carves blocks from the end of the blocks of its free list. A collection marks the granules of the live blocks
in a bit vector for each chunk, and makes the free list from the runs of bits that are not set.

Addresses are numbers. The free list is the list of its blocks, and `marks` are the calls to `mark` of `collect`. An
assertion that fails and an access to a chunk that is deleted give `none`.
-/

namespace Otawa.Elm.GC

/-- `sizeof(block_t)`. -/
def granule : ℕ := 16

/-- `sizeof(chunk_t)`, before the buffer. -/
def header : ℕ := 8

/-- A size on 64 bits. -/
def round (size : ℕ) : ℕ :=
  (size + granule - 1) % 2 ^ 64 / granule * granule

/-- The conversion to `int`. -/
def int (n : ℕ) : ℤ :=
  Int.bmod n (2 ^ 32)

structure Block where
  addr : ℕ
  size : ℕ
  deriving DecidableEq

/-- A chunk is given by the address of its buffer, the last one first. -/
structure SimpleGC where
  csize : ℕ
  chunks : List ℕ
  free_list : List Block

/-- The bytes of the block. -/
def Block.bytes (block : Block) : Set ℕ :=
  Set.Ico block.addr (block.addr + block.size)

/-- The block with the rest of its last granule. -/
def Block.rounded (block : Block) : Block :=
  ⟨block.addr, round block.size⟩

abbrev Bits := ℕ → List Bool

abbrev ChunkTree := STree.Tree ℕ (Option ℕ)

namespace SimpleGC

def make (size : ℕ) : SimpleGC :=
  ⟨round size, [], []⟩

def newChunk (gc : SimpleGC) (buffer : ℕ) : SimpleGC :=
  { gc with chunks := buffer :: gc.chunks, free_list := ⟨buffer, gc.csize⟩ :: gc.free_list }

/-- The chunks are deleted, and stay in the list. -/
def clear (gc : SimpleGC) : SimpleGC :=
  { gc with free_list := [] }

def allocFromFreeList (size : ℕ) : List Block → Option (ℕ × List Block)
  | [] => none
  | block :: blocks =>
      if block.size ≥ size then
        let res := block.addr + block.size - size
        let left := block.size - size
        some (res, if left = 0 then blocks else ⟨block.addr, left⟩ :: blocks)
      else (allocFromFreeList size blocks).map fun found => (found.1, block :: found.2)

/-- `chunk` with the bounds of its buffer. -/
def segment (csize : ℕ) (chunk : ℕ) : STree.Segment ℕ (Option ℕ) :=
  ⟨chunk, chunk + csize, some chunk⟩

/-- `heap` are the chunks that are not deleted. A bit vector has at least one bit. -/
def beginGC (gc : SimpleGC) (heap : List ℕ) : Option (ChunkTree × Bits) :=
  if (∀ chunk ∈ gc.chunks, chunk ∈ heap) ∧ (gc.chunks ≠ [] → 0 < int (gc.csize / granule)) then do
    let st ← STree.SegmentBuilder.make (2 * gc.chunks.length) none
      (STree.SegmentBuilder.addAll (gc.chunks.map (segment gc.csize))) STree.Tree.empty
    return (st, fun _ => List.replicate (int (gc.csize / granule)).toNat false)
  else none

def bit (bits : List Bool) (i : ℤ) : Option Bool :=
  if i < 0 then none else bits[i.toNat]?

/-- The loop of `mark` for `n` bits from `i` on. -/
def setBits : ℕ → ℤ → List Bool → Bool → Option (List Bool × Bool)
  | 0, _, bits, res => some (bits, res)
  | n + 1, i, bits, res => do
      if ← bit bits i then setBits n (i + 1) bits res
      else setBits n (i + 1) (bits.set i.toNat true) false

def mark (st : ChunkTree) (bits : Bits) (data size : ℕ) : Option (Bits × Bool) := do
  let val ← ← st.find data
  let gcc ← val
  let p := int ((data - gcc) / granule)
  let s := int ((size + granule - 1) % 2 ^ 64 / granule)
  let (vector, res) ← setBits s.toNat p (bits gcc) true
  return (Function.update bits gcc vector, res)

/-- The marks of `collect`, with their results not used. -/
def collect (st : ChunkTree) (bits : Bits) (marks : List Block) : Option Bits :=
  marks.foldlM (fun bits block => (mark st bits block.addr block.size).map Prod.fst) bits

/-- The traversal of the bits from `i` on, with the start of the run of zeroes. -/
def sweep (chunk : ℕ) : List Bool → ℕ → Option ℕ → List Block → List Block
  | [], _, none, free => free
  | [], i, some b, free => ⟨chunk + b * granule, (i - b) * granule⟩ :: free
  | true :: bits, i, none, free => sweep chunk bits (i + 1) none free
  | true :: bits, i, some b, free =>
      sweep chunk bits (i + 1) none (⟨chunk + b * granule, (i - b) * granule⟩ :: free)
  | false :: bits, i, none, free => sweep chunk bits (i + 1) (some i) free
  | false :: bits, i, some b, free => sweep chunk bits (i + 1) (some b) free

def endGC (gc : SimpleGC) (bits : Bits) : SimpleGC :=
  { gc with free_list := gc.chunks.foldl (fun free chunk => sweep chunk (bits chunk) 0 none free) [] }

def doGC (gc : SimpleGC) (heap : List ℕ) (marks : List Block) : Option SimpleGC := do
  let (st, bits) ← beginGC gc heap
  let bits ← collect st bits marks
  return endGC gc bits

/-- The address of the block, and whether the chunk at `fresh` is allocated. -/
def allocate (gc : SimpleGC) (heap : List ℕ) (size : ℕ) (marks : List Block) (fresh : ℕ) :
    Option (ℕ × SimpleGC × Bool) :=
  if size < gc.csize then
    match allocFromFreeList (round size) gc.free_list with
    | some (res, free) => some (res, { gc with free_list := free }, false)
    | none => do
        let gc ← doGC gc heap marks
        match allocFromFreeList (round size) gc.free_list with
        | some (res, free) => return (res, { gc with free_list := free }, false)
        | none =>
            let gc := newChunk gc fresh
            let (res, free) ← allocFromFreeList (round size) gc.free_list
            return (res, { gc with free_list := free }, true)
  else none

end SimpleGC

variable {csize size res i n x : ℕ} {chunks : List ℕ} {free free' : List Block} {block : Block} {bits : List Bool}

/-! ### Sizes -/

theorem granule_dvd_round (size : ℕ) : granule ∣ round size :=
  Dvd.intro_left _ rfl

theorem round_le (h : size < csize) (hcsize : csize < 2 ^ 35) (hdvd : granule ∣ csize) : round size ≤ csize := by
  rw [round, granule, Nat.mod_eq_of_lt (by omega)]
  rw [granule] at hdvd
  omega

theorem int_of_lt (h : n < 2 ^ 31) : int n = n :=
  Int.bmod_eq_of_le (by omega) (by omega)

theorem mem_bytes : x ∈ block.bytes ↔ block.addr ≤ x ∧ x < block.addr + block.size :=
  Set.mem_Ico

/-! ### The free list -/

/-- The block is made of granules of a chunk. -/
def Within (csize : ℕ) (chunks : List ℕ) (block : Block) : Prop :=
  ∃ chunk ∈ chunks, chunk ≤ block.addr ∧ granule ∣ block.addr - chunk ∧ block.addr + block.size ≤ chunk + csize

/-- The byte is in a block of the list. -/
def Covered (free : List Block) (x : ℕ) : Prop :=
  ∃ block ∈ free, x ∈ block.bytes

structure FreeList (csize : ℕ) (chunks : List ℕ) (free : List Block) : Prop where
  within : ∀ block ∈ free, Within csize chunks block
  size : ∀ block ∈ free, 0 < block.size ∧ granule ∣ block.size
  disjoint : free.Pairwise fun a b => Disjoint a.bytes b.bytes

theorem FreeList.nil : FreeList csize chunks [] :=
  ⟨fun _ h => absurd h List.not_mem_nil, fun _ h => absurd h List.not_mem_nil, .nil⟩

theorem covered_nil : ¬Covered [] x :=
  fun ⟨_, h, _⟩ => absurd h List.not_mem_nil

theorem covered_cons : Covered (block :: free) x ↔ x ∈ block.bytes ∨ Covered free x := by
  simp only [Covered, List.mem_cons, or_and_right, exists_or, exists_eq_left]

theorem FreeList.cons_iff :
    FreeList csize chunks (block :: free) ↔
      Within csize chunks block ∧ (0 < block.size ∧ granule ∣ block.size) ∧
        (∀ x ∈ block.bytes, ¬Covered free x) ∧ FreeList csize chunks free := by
  constructor
  · rintro ⟨hwithin, hsize, hdisjoint⟩
    obtain ⟨hblock, hrest⟩ := List.pairwise_cons.mp hdisjoint
    refine ⟨hwithin block List.mem_cons_self, hsize block List.mem_cons_self, ?_, ?_⟩
    · rintro x hx ⟨other, hother, hx'⟩
      exact Set.disjoint_left.mp (hblock other hother) hx hx'
    · exact ⟨fun b hb => hwithin b (List.mem_cons_of_mem _ hb), fun b hb => hsize b (List.mem_cons_of_mem _ hb), hrest⟩
  · rintro ⟨hwithin, hsize, hcovered, hfree⟩
    refine ⟨List.forall_mem_cons.mpr ⟨hwithin, hfree.within⟩, List.forall_mem_cons.mpr ⟨hsize, hfree.size⟩, ?_⟩
    refine List.pairwise_cons.mpr ⟨fun other hother => Set.disjoint_left.mpr fun x hx hx' => ?_, hfree.disjoint⟩
    exact hcovered x hx ⟨other, hother, hx'⟩

theorem FreeList.mono {chunks' : List ℕ} (h : FreeList csize chunks free) (hsub : chunks ⊆ chunks') :
    FreeList csize chunks' free := by
  refine ⟨fun block hblock => ?_, h.size, h.disjoint⟩
  obtain ⟨chunk, hchunk, hbounds⟩ := h.within block hblock
  exact ⟨chunk, hsub hchunk, hbounds⟩

/-- An allocation takes the bytes of its block from the free list. -/
theorem allocFromFreeList_spec (hdvd : granule ∣ size) (h : FreeList csize chunks free)
    (halloc : SimpleGC.allocFromFreeList size free = some (res, free')) :
    Within csize chunks ⟨res, size⟩ ∧ FreeList csize chunks free' ∧ (∀ x ∈ (⟨res, size⟩ : Block).bytes, ¬Covered free' x) ∧
      ∀ x, Covered free x ↔ x ∈ (⟨res, size⟩ : Block).bytes ∨ Covered free' x := by
  induction free generalizing res free' with
  | nil => cases halloc
  | cons block free ih =>
    obtain ⟨⟨chunk, hchunk, hlow, halign, hhigh⟩, ⟨hpos, hsize⟩, hcovered, hfree⟩ := FreeList.cons_iff.mp h
    rw [SimpleGC.allocFromFreeList] at halloc
    split at halloc
    case isTrue hle =>
      have hres : Within csize chunks ⟨block.addr + block.size - size, size⟩ := by
        refine ⟨chunk, hchunk, by dsimp only; omega, ?_, by dsimp only; omega⟩
        have heq : block.addr + block.size - size - chunk = (block.addr - chunk) + (block.size - size) := by omega
        dsimp only
        rw [heq]
        exact Nat.dvd_add halign (Nat.dvd_sub hsize hdvd)
      have hsplit : ∀ x, x ∈ block.bytes ↔ x ∈ (⟨block.addr + block.size - size, size⟩ : Block).bytes ∨
          x ∈ (⟨block.addr, block.size - size⟩ : Block).bytes := by
        intro x
        simp only [mem_bytes]
        omega
      obtain ⟨rfl, rfl⟩ := Prod.mk.inj (Option.some.inj halloc)
      by_cases hzero : block.size - size = 0
      · simp only [if_pos hzero]
        have hempty : ∀ x, x ∉ (⟨block.addr, block.size - size⟩ : Block).bytes := by
          intro x hx
          have hbounds := mem_bytes.mp hx
          dsimp only at hbounds
          omega
        refine ⟨hres, hfree, fun x hx => hcovered x ((hsplit x).mpr (.inl hx)), fun x => ?_⟩
        rw [covered_cons, hsplit x, or_iff_left (hempty x)]
      · simp only [if_neg hzero]
        have hrest : ∀ x ∈ (⟨block.addr, block.size - size⟩ : Block).bytes, ¬Covered free x :=
          fun x hx => hcovered x ((hsplit x).mpr (.inr hx))
        refine ⟨hres, FreeList.cons_iff.mpr ⟨⟨chunk, hchunk, hlow, halign, ?_⟩, ⟨?_, ?_⟩, hrest, hfree⟩, ?_, ?_⟩
        · dsimp only
          omega
        · exact Nat.pos_of_ne_zero hzero
        · exact Nat.dvd_sub hsize hdvd
        · intro x hx
          rw [covered_cons]
          refine not_or.mpr ⟨fun hx' => ?_, hcovered x ((hsplit x).mpr (.inl hx))⟩
          have hbounds := mem_bytes.mp hx
          have hbounds' := mem_bytes.mp hx'
          dsimp only at hbounds hbounds'
          omega
        · intro x
          rw [covered_cons, covered_cons, hsplit x, or_assoc]
    case isFalse =>
      obtain ⟨⟨res', rest⟩, halloc', heq⟩ := Option.map_eq_some_iff.mp halloc
      obtain ⟨rfl, rfl⟩ := Prod.mk.inj heq
      obtain ⟨hres, hrest, hout, hiff⟩ := ih hfree halloc'
      have hblock : ∀ x ∈ block.bytes, ¬Covered rest x := fun x hx hx' => hcovered x hx ((hiff x).mpr (.inr hx'))
      refine ⟨hres, FreeList.cons_iff.mpr ⟨⟨chunk, hchunk, hlow, halign, hhigh⟩, ⟨hpos, hsize⟩, hblock, hrest⟩, ?_, ?_⟩
      · intro x hx
        rw [covered_cons]
        exact not_or.mpr ⟨fun hx' => hcovered x hx' ((hiff x).mpr (.inl hx)), hout x hx⟩
      · intro x
        rw [covered_cons, covered_cons, hiff x]
        exact or_left_comm

theorem allocFromFreeList_eq_none :
    SimpleGC.allocFromFreeList size free = none ↔ ∀ block ∈ free, block.size < size := by
  induction free with
  | nil => exact iff_of_true rfl fun _ h => absurd h List.not_mem_nil
  | cons block free ih =>
    rw [SimpleGC.allocFromFreeList, List.forall_mem_cons]
    split
    case isTrue hle => exact iff_of_false nofun fun h => hle.not_gt h.1
    case isFalse hlt => rw [Option.map_eq_none_iff, ih, and_iff_right (not_le.mp hlt)]

/-! ### The sweep -/

/-- The byte is in a granule whose bit is not set, with the bits from `i` on. -/
def Unmarked (chunk i : ℕ) (bits : List Bool) (x : ℕ) : Prop :=
  ∃ j, bits[j]? = some false ∧ chunk + (i + j) * granule ≤ x ∧ x < chunk + (i + j + 1) * granule

theorem not_unmarked_nil {chunk : ℕ} : ¬Unmarked chunk i [] x := by
  rintro ⟨j, hj, -⟩
  rw [List.getElem?_nil] at hj
  cases hj

theorem unmarked_cons {chunk : ℕ} {b : Bool} :
    Unmarked chunk i (b :: bits) x ↔
      (b = false ∧ chunk + i * granule ≤ x ∧ x < chunk + (i + 1) * granule) ∨ Unmarked chunk (i + 1) bits x := by
  constructor
  · rintro ⟨j, hj, hx⟩
    cases j with
    | zero => exact .inl ⟨Option.some.inj hj, hx⟩
    | succ j => exact .inr ⟨j, hj, by rwa [Nat.add_assoc i, Nat.add_comm 1]⟩
  · rintro (⟨rfl, hx⟩ | ⟨j, hj, hx⟩)
    · exact ⟨0, rfl, hx⟩
    · exact ⟨j + 1, hj, by rwa [Nat.add_assoc i, Nat.add_comm 1] at hx⟩

theorem mem_run {chunk b : ℕ} (h : b ≤ i) :
    x ∈ (⟨chunk + b * granule, (i - b) * granule⟩ : Block).bytes ↔
      chunk + b * granule ≤ x ∧ x < chunk + i * granule := by
  rw [mem_bytes, granule]
  dsimp only
  omega

theorem FreeList.push {chunk b : ℕ} (h : FreeList csize chunks free) (hchunk : chunk ∈ chunks) (hb : b < i)
    (hfits : i * granule ≤ csize) (hout : ∀ x, chunk + b * granule ≤ x → x < chunk + csize → ¬Covered free x) :
    FreeList csize chunks (⟨chunk + b * granule, (i - b) * granule⟩ :: free) := by
  refine FreeList.cons_iff.mpr ⟨⟨chunk, hchunk, Nat.le_add_right _ _, ?_, ?_⟩, ⟨?_, Nat.dvd_mul_left _ _⟩, ?_, h⟩
  · rw [Nat.add_sub_cancel_left]
    exact Nat.dvd_mul_left _ _
  · rw [granule] at hfits ⊢
    dsimp only
    omega
  · exact Nat.mul_pos (Nat.sub_pos_of_lt hb) (by decide)
  · intro x hx
    obtain ⟨hlow, hhigh⟩ := (mem_run hb.le).mp hx
    exact hout x hlow (by omega)

/-- The sweep of a chunk adds the granules whose bits are not set. -/
theorem sweep_spec {chunk : ℕ} {start : Option ℕ} (hchunk : chunk ∈ chunks)
    (hfits : (i + bits.length) * granule ≤ csize) (hstart : ∀ b, start = some b → b < i)
    (h : FreeList csize chunks free)
    (hout : ∀ x, chunk + start.getD i * granule ≤ x → x < chunk + csize → ¬Covered free x) :
    FreeList csize chunks (SimpleGC.sweep chunk bits i start free) ∧
      ∀ x, Covered (SimpleGC.sweep chunk bits i start free) x ↔
        Covered free x ∨ (∃ b, start = some b ∧ chunk + b * granule ≤ x ∧ x < chunk + i * granule) ∨
          Unmarked chunk i bits x := by
  induction bits generalizing i start free with
  | nil =>
    cases start with
    | none =>
      refine ⟨h, fun x => ?_⟩
      rw [SimpleGC.sweep, or_iff_left not_unmarked_nil]
      simp
    | some b =>
      have hb := hstart b rfl
      refine ⟨h.push hchunk hb hfits hout, fun x => ?_⟩
      rw [SimpleGC.sweep, covered_cons, mem_run hb.le, or_iff_left not_unmarked_nil, or_comm]
      simp
  | cons a bits ih =>
    have hfits' : (i + 1 + bits.length) * granule ≤ csize := by
      rwa [List.length_cons, Nat.add_comm bits.length, ← Nat.add_assoc] at hfits
    have hi : (i + 1) * granule ≤ csize := (Nat.mul_le_mul_right _ (Nat.le_add_right _ _)).trans hfits'
    cases a with
    | true =>
      have hnone : ∀ b, none = some b → b < i + 1 := nofun
      cases start with
      | none =>
        obtain ⟨hlist, hiff⟩ := ih hfits' hnone h fun x hlow => hout x (by
          rw [Option.getD_none, granule] at hlow ⊢
          omega)
        refine ⟨hlist, fun x => (hiff x).trans ?_⟩
        rw [unmarked_cons]
        simp
      | some b =>
        have hb := hstart b rfl
        have hi' : i * granule ≤ csize := (Nat.mul_le_mul_right _ (Nat.le_succ i)).trans hi
        have hpush := h.push hchunk hb hi' hout
        obtain ⟨hlist, hiff⟩ := ih hfits' hnone hpush fun x hlow hhigh => by
          rw [covered_cons, mem_run hb.le]
          rw [Option.getD_none] at hlow
          rw [Option.getD_some] at hout
          rw [granule] at hlow hout ⊢
          exact not_or.mpr ⟨by omega, hout x (by omega) hhigh⟩
        refine ⟨hlist, fun x => (hiff x).trans ?_⟩
        rw [unmarked_cons, covered_cons, mem_run hb.le]
        simp [or_assoc, or_left_comm]
    | false =>
      cases start with
      | none =>
        have hsome : ∀ b, some i = some b → b < i + 1 := fun b hb => Option.some.inj hb ▸ Nat.lt_succ_self i
        obtain ⟨hlist, hiff⟩ := ih hfits' hsome h hout
        refine ⟨hlist, fun x => (hiff x).trans ?_⟩
        rw [unmarked_cons]
        simp
      | some b =>
        have hb := hstart b rfl
        have hsome : ∀ c, some b = some c → c < i + 1 := fun c hc => (hstart c hc).trans (Nat.lt_succ_self i)
        obtain ⟨hlist, hiff⟩ := ih hfits' hsome h hout
        refine ⟨hlist, fun x => (hiff x).trans ?_⟩
        have hrun : chunk + b * granule ≤ x ∧ x < chunk + (i + 1) * granule ↔
            (chunk + b * granule ≤ x ∧ x < chunk + i * granule) ∨
              chunk + i * granule ≤ x ∧ x < chunk + (i + 1) * granule := by
          rw [granule]
          omega
        rw [unmarked_cons]
        simp [hrun, or_assoc]

/-- The buffers do not share bytes. -/
def Apart (csize : ℕ) (chunks : List ℕ) : Prop :=
  chunks.Pairwise fun a b => a + csize < b ∨ b + csize < a

theorem Apart.eq (h : Apart csize chunks) {a b : ℕ} (ha : a ∈ chunks) (hb : b ∈ chunks) (hlow : a ≤ b)
    (hhigh : b ≤ a + csize) : a = b := by
  have hsymm : Std.Symm fun a b : ℕ => a + csize < b ∨ b + csize < a := ⟨fun _ _ h => h.symm⟩
  by_contra hne
  have hor := h.forall ha hb hne
  omega

/-- The free list of `endGC` has the bytes whose bits are not set. -/
theorem foldl_sweep_spec (vectors : Bits) {done rest : List ℕ} (hapart : Apart csize (done ++ rest))
    (hlength : ∀ chunk ∈ rest, (vectors chunk).length * granule ≤ csize)
    (h : FreeList csize (done ++ rest) free) (hout : ∀ chunk ∈ rest, ∀ x, chunk ≤ x → x < chunk + csize → ¬Covered free x) :
    FreeList csize (done ++ rest) (rest.foldl (fun free chunk => SimpleGC.sweep chunk (vectors chunk) 0 none free) free) ∧
      ∀ x, Covered (rest.foldl (fun free chunk => SimpleGC.sweep chunk (vectors chunk) 0 none free) free) x ↔
        Covered free x ∨ ∃ chunk ∈ rest, Unmarked chunk 0 (vectors chunk) x := by
  induction rest generalizing done free with
  | nil => exact ⟨h, fun x => by simp⟩
  | cons chunk rest ih =>
    have hfits : (0 + (vectors chunk).length) * granule ≤ csize := by
      rw [Nat.zero_add]
      exact hlength chunk List.mem_cons_self
    have hchunk : chunk ∈ done ++ chunk :: rest := List.mem_append_right _ List.mem_cons_self
    have hnone : ∀ b, none = some b → b < 0 := nofun
    obtain ⟨hlist, hiff⟩ := sweep_spec hchunk hfits hnone h fun x hlow => hout chunk List.mem_cons_self x (by
      rw [Option.getD_none, Nat.zero_mul] at hlow
      exact hlow)
    have hout' : ∀ other ∈ rest, ∀ x, other ≤ x → x < other + csize →
        ¬Covered (SimpleGC.sweep chunk (vectors chunk) 0 none free) x := by
      intro other hother x hlow hhigh
      rw [hiff x]
      have hne := (List.pairwise_cons.mp (List.pairwise_append.mp hapart).2.1).1 other hother
      refine not_or.mpr ⟨hout other (List.mem_cons_of_mem _ hother) x hlow hhigh, ?_⟩
      rintro (⟨b, hb, -⟩ | ⟨j, hj, hlow', hhigh'⟩)
      · cases hb
      · have hlt := (List.getElem?_eq_some_iff.mp hj).1
        rw [granule] at hfits hlow' hhigh'
        omega
    rw [List.append_cons] at hapart hlist ⊢
    obtain ⟨hlist', hiff'⟩ := ih hapart (fun other hother => hlength other (List.mem_cons_of_mem _ hother)) hlist hout'
    refine ⟨hlist', fun x => (hiff' x).trans ?_⟩
    rw [hiff x]
    simp [or_assoc]

end Otawa.Elm.GC
