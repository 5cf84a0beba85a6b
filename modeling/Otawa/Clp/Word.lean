import Mathlib.Data.BitVec
import Mathlib.Tactic.Ring

/-!
# 32-bit words of the CLP analysis

`intn_t` and `uintn_t` are one type here: a conversion between them keeps the bits.
The sign is in the operations, through `toInt` (signed) and `toNat` (unsigned);
sums and products wrap. The functions are the arithmetic helpers of the analysis
under their names, with what they compute on integers.
-/

namespace Otawa.Clp

/-- `intn_t` and `uintn_t`. -/
abbrev Word := BitVec 32

def UMAXn : Word := 0xffffffff
def MAXn : Word := 0x7fffffff
def MINn : Word := 0x80000000

@[simp] theorem toNat_UMAXn : UMAXn.toNat = 2 ^ 32 - 1 := rfl

/-- `elm::abs`, whose result is unsigned. -/
def abs (v : Word) : Word := if 0 ≤ v.toInt then v else -v

def ugcd (a b : Word) : Word :=
  if a = 0 then b
  else if b = 0 then a
  else ugcd b (a % b)
termination_by b.toNat
decreasing_by
  rename_i ne
  have := Nat.mod_lt a.toNat (show 0 < b.toNat by bv_omega)
  simpa [BitVec.toNat_umod] using this

def gcd (a b : Word) : Word :=
  if 0 < a.toInt then
    if 0 < b.toInt then ugcd a b else ugcd a (-b)
  else
    if 0 < b.toInt then ugcd (-a) b else -ugcd (-a) (-b)

/-- `lcm` computes its product in a longer type and gives it to `elm::abs`, which
reads its low 32 bits. -/
def lcm (a b : Word) : Word := abs (a * b) / gcd a b

/-- The signed minimum. -/
def min (a b : Word) : Word := if a.toInt < b.toInt then a else b

/-! ### Magnitudes and gcds -/

/-- The magnitude of a signed word. -/
def mag (v : Word) : Nat := v.toInt.natAbs

theorem mag_le (v : Word) : mag v ≤ 2 ^ 31 := by
  have := v.le_toInt
  have := v.toInt_lt
  simp only [mag]
  omega

theorem toInt_eq (v : Word) :
    v.toInt = if v.toNat < 2 ^ 31 then (v.toNat : Int) else v.toNat - 2 ^ 32 := by
  rw [BitVec.toInt_eq_toNat_cond]
  split <;> split <;> omega

@[simp] theorem toNat_abs (v : Word) : (abs v).toNat = mag v := by
  have := v.isLt
  unfold abs mag
  rw [toInt_eq]
  split <;> split at * <;> bv_omega

theorem abs_eq (v : Word) : abs v = BitVec.ofNat 32 (mag v) := by
  rw [← toNat_abs, BitVec.ofNat_toNat, BitVec.setWidth_eq]

/-- A word from its magnitude and sign. -/
theorem eq_of_nonneg {v : Word} (nonneg : 0 ≤ v.toInt) : v = BitVec.ofNat 32 (mag v) := by
  have := v.isLt
  rw [toInt_eq] at nonneg
  unfold mag
  rw [toInt_eq]
  apply BitVec.eq_of_toNat_eq
  rw [BitVec.toNat_ofNat]
  split at * <;> omega

theorem eq_of_nonpos {v : Word} (nonpos : v.toInt ≤ 0) : v = -BitVec.ofNat 32 (mag v) := by
  have := v.isLt
  rw [toInt_eq] at nonpos
  unfold mag
  rw [toInt_eq]
  apply BitVec.eq_of_toNat_eq
  rw [BitVec.toNat_neg, BitVec.toNat_ofNat]
  split at * <;> omega

theorem toNat_of_nonneg {v : Word} (nonneg : 0 ≤ v.toInt) : v.toNat = mag v := by
  have := v.isLt
  unfold mag
  rw [toInt_eq] at *
  split at * <;> omega

theorem toNat_neg_of_nonpos {v : Word} (nonpos : v.toInt ≤ 0) : (-v).toNat = mag v := by
  have := v.isLt
  unfold mag
  rw [toInt_eq] at *
  rw [BitVec.toNat_neg]
  split at * <;> omega

theorem mag_eq_zero {v : Word} : mag v = 0 ↔ v = 0 := by
  constructor
  · intro h
    have nonneg : 0 ≤ v.toInt := by
      unfold mag at h
      omega
    rw [eq_of_nonneg nonneg, h]
    rfl
  · rintro rfl
    rfl

theorem mag_neg (v : Word) : mag (-v) = mag v := by
  have := v.isLt
  unfold mag
  rw [toInt_eq, toInt_eq, BitVec.toNat_neg]
  split <;> split <;> omega

theorem toNat_ugcd (a b : Word) : (ugcd a b).toNat = Nat.gcd a.toNat b.toNat := by
  fun_induction ugcd a b with
  | case1 b => simp
  | case2 a => simp
  | case3 a b _ _ ih => rw [ih, BitVec.toNat_umod, Nat.gcd_comm, ← Nat.gcd_rec, Nat.gcd_comm]

/-- The magnitude of `gcd` is the gcd of the magnitudes. -/
theorem toNat_gcd (a b : Word) : (gcd a b).toNat =
    if 0 < a.toInt ∨ 0 < b.toInt then Nat.gcd (mag a) (mag b)
    else (2 ^ 32 - Nat.gcd (mag a) (mag b)) % 2 ^ 32 := by
  unfold gcd
  by_cases ha : 0 < a.toInt <;> by_cases hb : 0 < b.toInt
  · rw [if_pos ha, if_pos hb, if_pos (.inl ha), toNat_ugcd, toNat_of_nonneg ha.le,
      toNat_of_nonneg hb.le]
  · rw [if_pos ha, if_neg hb, if_pos (.inl ha), toNat_ugcd, toNat_of_nonneg ha.le,
      toNat_neg_of_nonpos (not_lt.mp hb)]
  · rw [if_neg ha, if_pos hb, if_pos (.inr hb), toNat_ugcd, toNat_neg_of_nonpos (not_lt.mp ha),
      toNat_of_nonneg hb.le]
  · rw [if_neg ha, if_neg hb, if_neg (not_or.mpr ⟨ha, hb⟩), BitVec.toNat_neg, toNat_ugcd,
      toNat_neg_of_nonpos (not_lt.mp ha), toNat_neg_of_nonpos (not_lt.mp hb)]

theorem mag_ofNat {n : Nat} (le : n ≤ 2 ^ 31) : mag (BitVec.ofNat 32 n) = n := by
  unfold mag
  rw [toInt_eq, BitVec.toNat_ofNat, Nat.mod_eq_of_lt (by omega)]
  split <;> omega

theorem gcd_mag_le {a b : Word} (ne : a ≠ 0 ∨ b ≠ 0) : Nat.gcd (mag a) (mag b) ≤ 2 ^ 31 := by
  rcases ne with ne | ne
  · exact (Nat.gcd_le_left _ (Nat.pos_of_ne_zero (mag_eq_zero.not.mpr ne))).trans (mag_le a)
  · exact (Nat.gcd_le_right _ (Nat.pos_of_ne_zero (mag_eq_zero.not.mpr ne))).trans (mag_le b)

/-- `gcd` is positive as soon as one operand is. -/
theorem gcd_of_pos {a b : Word} (pos : 0 < a.toInt ∨ 0 < b.toInt) :
    gcd a b = BitVec.ofNat 32 (Nat.gcd (mag a) (mag b)) := by
  apply BitVec.eq_of_toNat_eq
  have le := gcd_mag_le (a := a) (b := b) (by
    rcases pos with pos | pos
    · exact .inl fun eq => by simp [eq] at pos
    · exact .inr fun eq => by simp [eq] at pos)
  rw [toNat_gcd, if_pos pos, BitVec.toNat_ofNat, Nat.mod_eq_of_lt (by omega)]

/-- `gcd` is negative, or 0, when neither operand is positive. -/
theorem gcd_of_nonpos {a b : Word} (ha : a.toInt ≤ 0) (hb : b.toInt ≤ 0) :
    gcd a b = -BitVec.ofNat 32 (Nat.gcd (mag a) (mag b)) := by
  apply BitVec.eq_of_toNat_eq
  have le : Nat.gcd (mag a) (mag b) ≤ 2 ^ 31 := by
    by_cases ne : a ≠ 0 ∨ b ≠ 0
    · exact gcd_mag_le ne
    · obtain ⟨rfl, rfl⟩ := not_or.mp ne |>.imp not_not.mp not_not.mp
      decide
  rw [toNat_gcd, if_neg (by omega), BitVec.toNat_neg, BitVec.toNat_ofNat,
    Nat.mod_eq_of_lt (a := Nat.gcd _ _) (by omega)]

theorem mag_gcd {a b : Word} (ne : a ≠ 0 ∨ b ≠ 0) :
    mag (gcd a b) = Nat.gcd (mag a) (mag b) := by
  have le := gcd_mag_le ne
  by_cases pos : 0 < a.toInt ∨ 0 < b.toInt
  · rw [gcd_of_pos pos, mag_ofNat le]
  · rw [gcd_of_nonpos (by omega) (by omega), mag_neg, mag_ofNat le]

end Otawa.Clp
