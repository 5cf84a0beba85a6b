import Mathlib.Data.List.Basic

/-!
# The plain bit vector

`BitVector` keeps its bits in an array of bytes, and the array is given here as the list of its bits. The bits
of the last byte that are beyond the size are part of the array: some operations leave them set, `countOnes`
counts them, and `mask` clears them.
-/

namespace Otawa.Elm

structure BitVector where
  size : ℕ
  bits : List Bool
  deriving DecidableEq, Repr

namespace BitVector

/-- The number of bits of the `bytes()` bytes. -/
def capacity (size : ℕ) : ℕ :=
  8 * ((size + 7) / 8)

/-- `BitVector(size, set)`. -/
def make (size : ℕ) (set : Bool) : BitVector where
  size := size
  bits := List.replicate (capacity size) set

/-- The bits from the size on are cleared; with no such bits the mask is 0 and nothing is done. -/
def mask (v : BitVector) : BitVector :=
  if v.size % 8 = 0 then v
  else { v with bits := v.bits.mapIdx fun i b => b && decide (i < v.size) }

def bit (v : BitVector) (index : ℕ) : Bool :=
  v.bits.getD index false

/-- `isEmpty` masks the vector first. -/
def isEmpty (v : BitVector) : Bool × BitVector :=
  (v.mask.bits.all fun b => !b, v.mask)

def countOnes (v : BitVector) : ℕ :=
  v.bits.countP id

/-- Every bit of the vector is set. -/
def isFull (v : BitVector) : Bool :=
  (List.range v.size).all v.bit

/-- `set(index, value)`, that is `set(index)` or `clear(index)`. -/
def setBit (v : BitVector) (index : ℕ) (value : Bool) : BitVector :=
  { v with bits := v.bits.set index value }

/-- `set()`. -/
def setAll (v : BitVector) : BitVector :=
  mask { v with bits := List.replicate (capacity v.size) true }

/-- `clear()`. -/
def clearAll (v : BitVector) : BitVector :=
  { v with bits := List.replicate (capacity v.size) false }

def applyNot (v : BitVector) : BitVector :=
  { v with bits := v.bits.map not }

/-- The vector whose bytes are computed from those of two others. -/
def zip (op : Bool → Bool → Bool) (v vec : BitVector) : BitVector :=
  { v with bits := List.zipWith op v.bits vec.bits }

def applyOr (v vec : BitVector) : BitVector :=
  zip (fun a b => a || b) v vec

def applyAnd (v vec : BitVector) : BitVector :=
  zip (fun a b => a && b) v vec

def applyReset (v vec : BitVector) : BitVector :=
  mask (zip (fun a b => a && !b) v vec)

def makeNot (v : BitVector) : BitVector :=
  applyNot v

def makeOr (v vec : BitVector) : BitVector :=
  zip (fun a b => a || b) v vec

def makeAnd (v vec : BitVector) : BitVector :=
  zip (fun a b => a && b) v vec

def makeReset (v vec : BitVector) : BitVector :=
  zip (fun a b => a && !b) v vec

/-- The array has the bytes of the size. -/
structure Sized (n : ℕ) (v : BitVector) : Prop where
  size : v.size = n
  length : v.bits.length = capacity n

/-- No bit beyond the size is set. -/
def Clean (v : BitVector) : Prop :=
  ∀ i, v.size ≤ i → v.bit i = false

theorem le_capacity (n : ℕ) : n ≤ capacity n := by
  unfold capacity
  omega

variable {n i j : ℕ} {v vec : BitVector}

theorem lt_capacity (hi : i < n) : i < capacity n :=
  Nat.lt_of_lt_of_le hi (le_capacity n)

/-! ### The bits that an operation gives -/

theorem sized_make (n : ℕ) (set : Bool) : (make n set).Sized n :=
  ⟨rfl, List.length_replicate⟩

theorem bit_make {set : Bool} (hi : i < n) : (make n set).bit i = set := by
  simp [make, bit, lt_capacity hi]

theorem Sized.mask (hv : v.Sized n) : v.mask.Sized n := by
  unfold BitVector.mask
  split
  · exact hv
  · exact ⟨hv.size, by simpa using hv.length⟩

theorem bit_mask (hi : i < v.size) : v.mask.bit i = v.bit i := by
  unfold BitVector.mask
  split
  · rfl
  · simp only [bit, List.getD_eq_getElem?_getD, List.getElem?_mapIdx, hi, decide_true, Bool.and_true]
    cases v.bits[i]? <;> rfl

theorem clean_mask (hv : v.Sized n) : v.mask.Clean := by
  intro i hi
  have hn := hv.size
  unfold BitVector.mask at hi ⊢
  split at hi
  · rename_i hfull
    have hlength : v.bits.length ≤ i := by
      rw [hv.length, capacity]
      omega
    simp [hfull, bit, List.getElem?_eq_none hlength]
  · rename_i hpart
    have hnot : ¬ i < v.size := Nat.not_lt.mpr hi
    rw [if_neg hpart]
    simp only [bit, List.getD_eq_getElem?_getD, List.getElem?_mapIdx, hnot, decide_false, Bool.and_false]
    cases v.bits[i]? <;> rfl

theorem sized_setBit (hv : v.Sized n) (index : ℕ) (value : Bool) : (v.setBit index value).Sized n :=
  ⟨hv.size, by simpa [setBit] using hv.length⟩

theorem bit_setBit {value : Bool} (hv : v.Sized n) (hj : j < n) :
    (v.setBit j value).bit i = if i = j then value else v.bit i := by
  have hlength : j < v.bits.length := by
    rw [hv.length]
    exact lt_capacity hj
  simp only [setBit, bit, List.getD_eq_getElem?_getD, List.getElem?_set]
  by_cases hij : i = j
  · subst hij
    simp [hlength]
  · simp [hij, Ne.symm hij]

theorem Sized.setAll (hv : v.Sized n) : v.setAll.Sized n := by
  apply Sized.mask
  exact ⟨hv.size, by simp [hv.size]⟩

theorem bit_setAll (hv : v.Sized n) (hi : i < n) : v.setAll.bit i = true := by
  unfold BitVector.setAll
  rw [bit_mask (by simpa [hv.size] using hi)]
  simp [bit, hv.size, lt_capacity hi]

theorem Sized.clearAll (hv : v.Sized n) : v.clearAll.Sized n :=
  ⟨hv.size, by simp [BitVector.clearAll, hv.size]⟩

theorem bit_clearAll (i : ℕ) : v.clearAll.bit i = false := by
  simp [BitVector.clearAll, bit, List.getElem?_replicate]
  split <;> rfl

theorem Sized.applyNot (hv : v.Sized n) : v.applyNot.Sized n :=
  ⟨hv.size, by simpa [BitVector.applyNot] using hv.length⟩

theorem Sized.getElem? (hv : v.Sized n) (hi : i < n) : v.bits[i]? = some (v.bit i) := by
  have hlength : i < v.bits.length := by
    rw [hv.length]
    exact lt_capacity hi
  simp [bit, List.getElem?_eq_getElem hlength]

theorem bit_applyNot (hv : v.Sized n) (hi : i < n) : v.applyNot.bit i = !v.bit i := by
  rw [bit, BitVector.applyNot, List.getD_eq_getElem?_getD, List.getElem?_map, hv.getElem? hi]
  rfl

theorem Sized.zip {op : Bool → Bool → Bool} (hv : v.Sized n) (hvec : vec.Sized n) : (zip op v vec).Sized n :=
  ⟨hv.size, by simp [BitVector.zip, hv.length, hvec.length]⟩

theorem bit_zip {op : Bool → Bool → Bool} (hv : v.Sized n) (hvec : vec.Sized n) (hi : i < n) :
    (zip op v vec).bit i = op (v.bit i) (vec.bit i) := by
  rw [bit, BitVector.zip, List.getD_eq_getElem?_getD, List.getElem?_zipWith, hv.getElem? hi, hvec.getElem? hi]
  rfl

theorem Sized.applyReset (hv : v.Sized n) (hvec : vec.Sized n) : (v.applyReset vec).Sized n :=
  (hv.zip hvec).mask

theorem bit_applyReset (hv : v.Sized n) (hvec : vec.Sized n) (hi : i < n) :
    (v.applyReset vec).bit i = (v.bit i && !vec.bit i) := by
  have hsize : i < (BitVector.zip (fun a b => a && !b) v vec).size := by
    rw [(hv.zip hvec).size]
    exact hi
  rw [BitVector.applyReset, bit_mask hsize, bit_zip hv hvec hi]

/-! ### The queries -/

theorem isEmpty_iff (hv : v.Sized n) : v.isEmpty.1 = true ↔ ∀ i < n, v.bit i = false := by
  have hmask := hv.mask
  simp only [isEmpty, List.all_eq_true, Bool.not_eq_true']
  constructor
  · intro hall i hi
    have hmem := List.mem_of_getElem? (hmask.getElem? hi)
    rw [← bit_mask (hv.size.symm ▸ hi)]
    exact hall _ hmem
  · intro hall b hb
    obtain ⟨i, hi, rfl⟩ := List.getElem_of_mem hb
    have hbit : v.mask.bits[i] = v.mask.bit i := by
      simp [bit, List.getElem?_eq_getElem hi]
    rw [hbit]
    by_cases hin : i < n
    · rw [bit_mask (hv.size.symm ▸ hin)]
      exact hall i hin
    · exact clean_mask hv i (by rw [hmask.size]; omega)

theorem isFull_iff (hv : v.Sized n) : v.isFull = true ↔ ∀ i < n, v.bit i = true := by
  simp [isFull, hv.size]

/-- A vector without bits beyond its size counts its bits. -/
theorem countOnes_eq (hv : v.Sized n) (hclean : v.Clean) : v.countOnes = (List.range n).countP v.bit := by
  have hbits : v.bits = (List.range (capacity n)).map v.bit := by
    apply List.ext_getElem
    · simp [hv.length]
    · intro i hi _
      simp [bit, List.getElem?_eq_getElem hi]
  have hsplit : capacity n = n + (capacity n - n) := by
    have := le_capacity n
    omega
  rw [countOnes, hbits, List.countP_map, hsplit, List.range_add, List.countP_append]
  have hrest : ((List.range (capacity n - n)).map (n + ·)).countP (id ∘ v.bit) = 0 := by
    rw [List.countP_eq_zero]
    intro j hj
    obtain ⟨k, -, rfl⟩ := List.mem_map.mp hj
    simp [hclean (n + k) (by rw [hv.size]; omega)]
  rw [hrest]
  rfl

end BitVector

end Otawa.Elm
