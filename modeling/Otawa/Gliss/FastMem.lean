import Otawa.Lib.Bytes

/-!
# The paged memory

The memories of the simulator: two levels of hash tables with chains of pages, which are made when they are first read or
written. The storages of the pages are blocks of the heap, and a page has the place of its own. An access outside of a
block or of a table has no result.
-/

namespace Otawa.Gliss

open Bytes

abbrev Byte := BitVec 8

def MEMORY_PAGE_SIZE : ℕ := 4096

def PRIMARYMEMORY_HASH_TABLE_SIZE : ℕ := 4096

def SECONDARYMEMORY_HASH_TABLE_SIZE : ℕ := 16

/-- `memory_page_table_entry_t`, whose chain is a list. -/
structure PageEntry where
  addr : ℕ
  storage : ℕ
  deriving DecidableEq, Repr

/-- `secondary_memory_hash_table_t`, by the secondary hash. -/
abbrev SecondaryTable := ℕ → List PageEntry

/-- `gliss_memory_t`, by the primary hash. -/
abbrev Memory := ℕ → Option SecondaryTable

/-- The blocks that were allocated, each of the size of a page. -/
abbrev Heap := List (ℕ → Byte)

/-- A memory with the heap. -/
structure Space where
  heap : Heap
  mem : Memory

def memHash1 (addr : ℕ) : ℕ := addr / MEMORY_PAGE_SIZE % PRIMARYMEMORY_HASH_TABLE_SIZE

def memHash2 (addr : ℕ) : ℕ :=
  addr / MEMORY_PAGE_SIZE / PRIMARYMEMORY_HASH_TABLE_SIZE % SECONDARYMEMORY_HASH_TABLE_SIZE

/-- `gliss_mem_new`. -/
def memNew : Memory := fun _ => none

/-- The first address of a page. -/
def pageAddr (addr : ℕ) : ℕ := addr - addr % MEMORY_PAGE_SIZE

def memSearchPage (mem : Memory) (addr : ℕ) : Option PageEntry :=
  match mem (memHash1 (pageAddr addr)) with
  | none => none
  | some table => (table (memHash2 (pageAddr addr))).find? fun pte => pte.addr = pageAddr addr

/-- `mem_get_secondary_hash_table`; a new table has no pages. -/
def memGetSecondaryHashTable (mem : Memory) (addr : ℕ) : SecondaryTable :=
  (mem (memHash1 addr)).getD fun _ => []

/-- `mem_get_page`; a new page is filled with zeros. -/
def memGetPage (s : Space) (addr : ℕ) : PageEntry × Space :=
  match memSearchPage s.mem (pageAddr addr) with
  | some pte => (pte, s)
  | none =>
      let table := memGetSecondaryHashTable s.mem (pageAddr addr)
      let h2 := memHash2 (pageAddr addr)
      let pte : PageEntry := ⟨pageAddr addr, s.heap.length⟩
      (pte, ⟨s.heap ++ [fun _ => 0],
        Function.update s.mem (memHash1 (pageAddr addr)) (some (Function.update table h2 (pte :: table h2)))⟩)

/-! ### Transfers -/

/-- `memcpy` to a storage. -/
def copyTo (heap : Heap) (storage offset : ℕ) (buffer : List Byte) : Option Heap :=
  if offset + buffer.length ≤ MEMORY_PAGE_SIZE then
    some (heap.modify storage fun bytes i =>
      if offset ≤ i ∧ i < offset + buffer.length then buffer.getD (i - offset) 0 else bytes i)
  else none

/-- `memcpy` from a storage. -/
def copyFrom (heap : Heap) (storage offset size : ℕ) : Option (List Byte) :=
  if offset + size ≤ MEMORY_PAGE_SIZE then
    (heap[storage]?).map fun bytes => (List.range size).map fun i => bytes (offset + i)
  else none

/-- One of the copies of a write. -/
def writePart (s : Space) (address offset : ℕ) (buffer : List Byte) : Option Space := do
  let r := memGetPage s address
  let heap ← copyTo r.2.heap r.1.storage offset buffer
  some ⟨heap, r.2.mem⟩

/-- One of the copies of a read. -/
def readPart (s : Space) (address offset size : ℕ) : Option (List Byte × Space) := do
  let r := memGetPage s address
  let bytes ← copyFrom r.2.heap r.1.storage offset size
  some (bytes, r.2)

/-- The address after some bytes, in 32 bits. -/
def advance (address size : ℕ) : ℕ := (address + size) % 2 ^ 32

/-- The full pages of a write and the rest. -/
def writePages (s : Space) (address : ℕ) (buffer : List Byte) : Option Space :=
  if MEMORY_PAGE_SIZE ≤ buffer.length then do
    let s ← writePart s address 0 (buffer.take MEMORY_PAGE_SIZE)
    writePages s (advance address MEMORY_PAGE_SIZE) (buffer.drop MEMORY_PAGE_SIZE)
  else if 0 < buffer.length then writePart s address 0 buffer
  else some s
termination_by buffer.length
decreasing_by
  rename_i hle
  have hpos : 0 < MEMORY_PAGE_SIZE := by decide
  rw [List.length_drop]
  omega

/-- `gliss_mem_write`. -/
def memWrite (s : Space) (address : ℕ) (buffer : List Byte) : Option Space :=
  if 0 < buffer.length then
    let offset := address % MEMORY_PAGE_SIZE
    let sz := MEMORY_PAGE_SIZE - offset
    if sz < buffer.length then do
      let s ← writePart s address offset (buffer.take sz)
      writePages s (advance address sz) (buffer.drop sz)
    else writePart s address offset buffer
  else some s

/-- The full pages of a read and the rest. -/
def readPages (s : Space) (address size : ℕ) : Option (List Byte × Space) :=
  if MEMORY_PAGE_SIZE ≤ size then do
    let r ← readPart s address 0 MEMORY_PAGE_SIZE
    let rest ← readPages r.2 (advance address MEMORY_PAGE_SIZE) (size - MEMORY_PAGE_SIZE)
    some (r.1 ++ rest.1, rest.2)
  else if 0 < size then readPart s address 0 size
  else some ([], s)
termination_by size
decreasing_by
  rename_i hle
  have hpos : 0 < MEMORY_PAGE_SIZE := by decide
  omega

/-- `gliss_mem_read`. -/
def memRead (s : Space) (address size : ℕ) : Option (List Byte × Space) :=
  if 0 < size then
    let offset := address % MEMORY_PAGE_SIZE
    let sz := MEMORY_PAGE_SIZE - offset
    if sz < size then do
      let r ← readPart s address offset sz
      let rest ← readPages r.2 (advance address sz) (size - sz)
      some (r.1 ++ rest.1, rest.2)
    else readPart s address offset size
  else some ([], s)

/-! ### Integers -/

/-- The bytes of a number of `n` bytes in an order. -/
def bytesOf (o : Order) (n x : ℕ) : List Byte :=
  (List.range n).map fun i => digit x (o.place n i)

/-- The number of the bytes in an order. -/
def numberOf (o : Order) (bytes : List Byte) : ℕ :=
  number bytes.length fun i => bytes.getD (o.place bytes.length i) 0

variable (host target : Order)

/-- The bytes are inverted when the orders differ. -/
def invert (bytes : List Byte) : List Byte :=
  if host = target then bytes else bytes.reverse

/-- A read of a number of `n` bytes; an aligned access has the bytes that the copy of an unaligned one has. -/
def readUint (n : ℕ) (s : Space) (address : ℕ) : Option (ℕ × Space) := do
  let r ← readPart s address (address % MEMORY_PAGE_SIZE) n
  some (numberOf host (invert host target r.1), r.2)

def memRead8 (s : Space) (address : ℕ) : Option (ℕ × Space) := do
  let r ← readPart s address (address % MEMORY_PAGE_SIZE) 1
  some (numberOf host r.1, r.2)

def memRead16 : Space → ℕ → Option (ℕ × Space) := readUint host target 2

def memRead32 : Space → ℕ → Option (ℕ × Space) := readUint host target 4

def memRead64 : Space → ℕ → Option (ℕ × Space) := readUint host target 8

/-- A write of a number of `n` bytes. -/
def writeUint (n : ℕ) (s : Space) (address val : ℕ) : Option Space :=
  writePart s address (address % MEMORY_PAGE_SIZE) (invert host target (bytesOf host n val))

def memWrite8 (s : Space) (address val : ℕ) : Option Space :=
  writePart s address (address % MEMORY_PAGE_SIZE) (bytesOf host 1 val)

def memWrite16 : Space → ℕ → ℕ → Option Space := writeUint host target 2

def memWrite32 : Space → ℕ → ℕ → Option Space := writeUint host target 4

def memWrite64 : Space → ℕ → ℕ → Option Space := writeUint host target 8

/-! ### Copies -/

/-- A page of the copied memory is written to the copy. -/
def copyPage (t : Space) (pte : PageEntry) : Option Space := do
  let bytes ← copyFrom t.heap pte.storage 0 MEMORY_PAGE_SIZE
  memWrite t pte.addr bytes

/-- The pages that are copied for an index of the primary table: each time the chain with this index, which is outside of
the secondary table from `SECONDARYMEMORY_HASH_TABLE_SIZE` on. -/
def copyTable (table : SecondaryTable) (i : ℕ) (t : Space) : Option Space :=
  (List.range SECONDARYMEMORY_HASH_TABLE_SIZE).foldlM (fun t _ =>
    if i < SECONDARYMEMORY_HASH_TABLE_SIZE then (table i).foldlM copyPage t else none) t

/-- `gliss_mem_copy`. -/
def memCopy (heap : Heap) (mem : Memory) : Option Space :=
  (List.range PRIMARYMEMORY_HASH_TABLE_SIZE).foldlM (fun t i =>
    match mem i with
    | none => some t
    | some table => copyTable table i t) ⟨heap, memNew⟩

end Otawa.Gliss
