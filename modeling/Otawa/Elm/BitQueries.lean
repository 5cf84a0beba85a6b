import Mathlib.Data.Finset.Card
import Otawa.Elm.BitVector

/-!
# The queries of the plain bit vector

`equals`, `includes` and `includesStrictly` mask the vector they are called on, and not the one they compare it
with; `countBits` and `countOnes` mask nothing, and `countZeroes` is their difference although both count ones.
The iterators stop at the size. Each query is related here to the indices below the size whose bits are set.
-/

namespace Otawa.Elm

/-- A set of indices below a size. -/
@[ext] structure IndexSet where
  size : ℕ
  elements : Finset ℕ
  below : ∀ i ∈ elements, i < size
  deriving DecidableEq

namespace IndexSet

/-- The elements below the size. -/
def of (size : ℕ) (elements : Finset ℕ) : IndexSet where
  size := size
  elements := elements.filter (· < size)
  below := fun _ hi => (Finset.mem_filter.mp hi).2

@[simp] theorem size_of (n : ℕ) (e : Finset ℕ) : (of n e).size = n := rfl

@[simp] theorem mem_of {n i : ℕ} {e : Finset ℕ} : i ∈ (of n e).elements ↔ i ∈ e ∧ i < n :=
  Finset.mem_filter

/-- The indices in the set, or those not in it for the value false, in ascending order. -/
def listing (s : IndexSet) (value : Bool) : List ℕ :=
  (List.range s.size).filter fun i => decide (i ∈ s.elements) == value

end IndexSet

namespace BitVector

/-! ### The queries -/

def equals (v vec : BitVector) : Bool :=
  v.mask.bits == vec.bits

def includes (v vec : BitVector) : Bool :=
  (List.zipWith (fun a b => !a && b) v.mask.bits vec.bits).all not

/-- The loop of `includesStrictly`, with its variable `equal`. -/
def strictLoop (equal : Bool) : List (Bool × Bool) → Bool
  | [] => !equal
  | (a, b) :: rest => if !a && b then false else strictLoop (if a != b then false else equal) rest

def includesStrictly (v vec : BitVector) : Bool :=
  strictLoop true (v.mask.bits.zip vec.bits)

/-- The table gives the ones of a byte. -/
def countBits (v : BitVector) : ℕ :=
  v.bits.countP id

def countZeroes (v : BitVector) : ℤ :=
  v.countBits - v.countOnes

/-- The loop of `next()`, from the index after the current one. -/
def seek (v : BitVector) (value : Bool) (i : ℕ) : ℕ :=
  if i < v.size ∧ v.bit i ≠ value then v.seek value (i + 1) else i
termination_by v.size - i

theorem le_seek (v : BitVector) (value : Bool) (i : ℕ) : i ≤ v.seek value i := by
  fun_induction v.seek value i with
  | case1 i hmore ih => omega
  | case2 i hstop => exact le_rfl

/-- The items of an iterator that is at an index. -/
def items (v : BitVector) (value : Bool) (i : ℕ) : List ℕ :=
  if i < v.size then i :: v.items value (v.seek value (i + 1)) else []
termination_by v.size - i
decreasing_by
  have := v.le_seek value (i + 1)
  omega

/-- `OneIterator`, or `ZeroIterator` for the value false; the constructor calls `next()` at -1. -/
def iterate (v : BitVector) (value : Bool) : List ℕ :=
  v.items value (v.seek value 0)

/-- The vector as a set. -/
def indices (v : BitVector) : IndexSet :=
  .of v.size ((Finset.range v.size).filter fun i => v.bit i)

variable {n i : ℕ} {v vec : BitVector}

@[simp] theorem size_indices (v : BitVector) : v.indices.size = v.size := rfl

@[simp] theorem mem_indices : i ∈ v.indices.elements ↔ i < v.size ∧ v.bit i = true := by
  simp only [indices, IndexSet.mem_of, Finset.mem_filter, Finset.mem_range]
  tauto

/-! ### What they answer -/

theorem bit_mask_eq (hv : v.Sized n) (i : ℕ) : v.mask.bit i = (decide (i < n) && v.bit i) := by
  by_cases hi : i < n
  · simp [hi, bit_mask (hv.size.symm ▸ hi)]
  · have hclean := clean_mask hv i (by rw [hv.mask.size]; omega)
    simp [hi, hclean]

theorem Sized.bits_eq (hv : v.Sized n) : v.bits = (List.range (capacity n)).map v.bit := by
  apply List.ext_getElem
  · simp [hv.length]
  · intro i hi _
    simp [bit, List.getElem?_eq_getElem hi]

/-- The array has no bit from the size on exactly when its own bits from there are clear. -/
theorem clean_iff (hv : v.Sized n) : v.Clean ↔ ∀ i < capacity n, n ≤ i → v.bit i = false := by
  constructor
  · intro hclean i _ hi
    exact hclean i (hv.size.symm ▸ hi)
  · intro hbits i hi
    by_cases hin : i < capacity n
    · exact hbits i hin (hv.size ▸ hi)
    · have hlength : v.bits.length ≤ i := by
        rw [hv.length]
        omega
      simp [bit, List.getElem?_eq_none hlength]

theorem equals_iff (hv : v.Sized n) (hvec : vec.Sized n) :
    v.equals vec = true ↔ (∀ i < n, v.bit i = vec.bit i) ∧ vec.Clean := by
  rw [equals, beq_iff_eq, hv.mask.bits_eq, hvec.bits_eq, clean_iff hvec]
  simp only [List.map_inj_left, List.mem_range, bit_mask_eq hv]
  constructor
  · intro hsame
    refine ⟨fun i hi => ?_, fun i hi hn => ?_⟩
    · simpa [hi] using hsame i (lt_capacity hi)
    · simpa [Nat.not_lt.mpr hn] using (hsame i hi).symm
  · rintro ⟨hsame, hclean⟩ i hi
    by_cases hin : i < n
    · simpa [hin] using hsame i hin
    · simp [hin, hclean i hi (Nat.not_lt.mp hin)]

theorem includes_iff (hv : v.Sized n) (hvec : vec.Sized n) :
    v.includes vec = true ↔ (∀ i < n, vec.bit i = true → v.bit i = true) ∧ vec.Clean := by
  rw [includes, hv.mask.bits_eq, hvec.bits_eq, List.zipWith_map, List.zipWith_self, clean_iff hvec]
  simp only [List.all_map, List.all_eq_true, List.mem_range, Function.comp_apply, bit_mask_eq hv]
  constructor
  · intro hall
    refine ⟨fun i hi hbit => ?_, fun i hi hn => ?_⟩
    · simpa [hi, hbit] using hall i (lt_capacity hi)
    · simpa [Nat.not_lt.mpr hn] using hall i hi
  · rintro ⟨hsub, hclean⟩ i hi
    by_cases hin : i < n
    · cases hbit : vec.bit i with
      | false => simp
      | true => simp [hin, hsub i hin hbit]
    · simp [hclean i hi (Nat.not_lt.mp hin)]

/-- The loop finds an inclusion, and a difference here or before. -/
theorem strictLoop_iff (equal : Bool) (rest : List (Bool × Bool)) :
    strictLoop equal rest = true ↔
      (∀ p ∈ rest, (!p.1 && p.2) = false) ∧ (equal = false ∨ ∃ p ∈ rest, p.1 ≠ p.2) := by
  induction rest generalizing equal with
  | nil => simp [strictLoop]
  | cons p rest ih =>
    obtain ⟨a, b⟩ := p
    rw [strictLoop]
    cases a <;> cases b <;> simp [ih]

theorem includesStrictly_iff (hv : v.Sized n) (hvec : vec.Sized n) :
    v.includesStrictly vec = true ↔ v.includes vec = true ∧ ¬ v.equals vec = true := by
  have hzip : v.mask.bits.zip vec.bits = (List.range (capacity n)).map fun i => (v.mask.bit i, vec.bit i) := by
    rw [hv.mask.bits_eq, hvec.bits_eq, List.zip_map']
  have hsub : (∀ p ∈ v.mask.bits.zip vec.bits, (!p.1 && p.2) = false) ↔ v.includes vec = true := by
    rw [includes, hzip, hv.mask.bits_eq, hvec.bits_eq, List.zipWith_map, List.zipWith_self]
    simp only [List.forall_mem_map, List.all_map, List.all_eq_true, Function.comp_apply, Bool.not_eq_true']
  have hdiffer : (∃ p ∈ v.mask.bits.zip vec.bits, p.1 ≠ p.2) ↔ ¬ v.equals vec = true := by
    rw [equals, beq_iff_eq, hzip, hv.mask.bits_eq, hvec.bits_eq, List.map_inj_left]
    simp
  rw [includesStrictly, strictLoop_iff, hsub, hdiffer]
  simp only [Bool.true_eq_false, false_or]

theorem card_indices (hv : v.Sized n) : v.indices.elements.card = (List.range n).countP v.bit := by
  have hlist : v.indices.elements = ((List.range n).filter v.bit).toFinset := by
    ext i
    simp [hv.size]
  rw [hlist, List.toFinset_card_of_nodup (List.nodup_range.filter _), List.countP_eq_length_filter]

/-- The bits beyond the size are counted too. -/
theorem countOnes_eq_card (hv : v.Sized n) :
    v.countOnes = v.indices.elements.card + (List.range (capacity n - n)).countP fun k => v.bit (n + k) := by
  have hsplit : capacity n = n + (capacity n - n) := by
    have := le_capacity n
    omega
  rw [card_indices hv, countOnes, hv.bits_eq, List.countP_map, hsplit, List.range_add, List.countP_append,
    List.countP_map, Nat.add_sub_cancel_left]
  rfl

theorem countOnes_iff (hv : v.Sized n) : v.countOnes = v.indices.elements.card ↔ v.Clean := by
  rw [countOnes_eq_card hv, Nat.add_eq_left, List.countP_eq_zero, clean_iff hv]
  constructor
  · intro hrest i hi hn
    have hk := hrest (i - n) (List.mem_range.mpr (by omega))
    rwa [Nat.add_sub_cancel' hn, Bool.not_eq_true] at hk
  · intro hclean k hk
    have hlt := List.mem_range.mp hk
    simp [hclean (n + k) (by omega) (Nat.le_add_right n k)]

theorem countZeroes_eq (v : BitVector) : v.countZeroes = 0 := by
  simp [countZeroes, countBits, countOnes]

/-- What the iterator gives from the next item on. -/
theorem items_seek (v : BitVector) (value : Bool) (i : ℕ) :
    v.items value (v.seek value i) = (List.range' i (v.size - i)).filter fun k => v.bit k == value := by
  induction hleft : v.size - i generalizing i with
  | zero =>
    have hend : ¬ i < v.size := by omega
    rw [seek, if_neg fun h => hend h.1, items, if_neg hend]
    rfl
  | succ left ih =>
    have hi : i < v.size := by omega
    have hrest := ih (i + 1) (by omega)
    rw [seek, List.range'_succ, List.filter_cons]
    by_cases hbit : v.bit i = value
    · rw [if_neg fun h => h.2 hbit, items, if_pos hi, hrest]
      simp [hbit]
    · rw [if_pos ⟨hi, hbit⟩, hrest]
      simp [hbit]

/-- The iterators give the indices of their value below the size, in ascending order. -/
theorem iterate_eq (v : BitVector) (value : Bool) : v.iterate value = v.indices.listing value := by
  rw [iterate, items_seek, IndexSet.listing, Nat.sub_zero, ← List.range_eq_range']
  apply List.filter_congr
  intro i hi
  simp [List.mem_range.mp hi]

end BitVector

end Otawa.Elm
