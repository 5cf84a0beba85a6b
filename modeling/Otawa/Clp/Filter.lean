import Otawa.Clp.Inter

/-!
# Filters of CLP values

`Value.le`, `ge`, `leu` and `geu` keep the words of a value on one side of a bound, as signed
or as unsigned numbers. A progression that comes down to the bound, or goes up to it, is cut
there; one that starts at the other side is intersected with the half line.

Three of the four drop words that satisfy the bound:

* a progression whose first word is the bound is answered by `none` in `ge`, `geu` and `leu`;
* a progression that passes the end of its numbers loses what comes after it; the comment of
  `le` assumes that there is none;
* a distance to the bound that is not below `2 ^ 31` is divided as a negative number.

`LeFits` and its sisters exclude these and no more, except for what the intersection excludes.
-/

namespace Otawa.Clp

/-- What stops an edge: the assertion of `le`, a null operand, and the faults of `inter`. -/
inductive Fault where
  | assertion
  | null
  | inter (fault : Value.Fault)
  deriving DecidableEq, Repr

namespace Value

open Otawa.Progression

def swrap (v : Value) : Prop :=
  v.delta ≠ 0 ∧ ((MAXn - v.base) / abs v.delta).toNat < v.mtimes.toNat

instance (v : Value) : Decidable v.swrap := inferInstanceAs (Decidable (_ ∧ _))

def uwrap (v : Value) : Prop :=
  v.delta ≠ 0 ∧ ((UMAXn - v.base) / abs v.delta).toNat < v.mtimes.toNat

instance (v : Value) : Decidable v.uwrap := inferInstanceAs (Decidable (_ ∧ _))

/-- The call of `inter` from a filter. -/
def interWith (v w : Value) : Except Clp.Fault Value := (inter v w).mapError .inter

/-- The change for no wrapping in `ge`. -/
def geFix (v : Value) (k : Word) : Value :=
  if v.swrap then { v with mtimes := (MAXn - k).sdiv (-v.delta) } else v

def ge (v : Value) (k : Word) : Except Clp.Fault Value :=
  if v = all ∨ v = none then .ok v
  else if v.isConst then .ok (if v.base.toInt < k.toInt then none else v)
  else if 0 < v.delta.toInt then interWith v ⟨.val, k, 1, MAXn - k⟩
  else
    let v := v.geFix k
    if v.base.toInt ≤ k.toInt then .ok none
    else if k.toInt ≤ (v.base + v.delta * v.mtimes).toInt then .ok v
    else .ok { v with mtimes := (k - v.base).sdiv v.delta }

/-- The `wrap fix` of `le`. -/
def wrapFix (v : Value) : Value :=
  if v.swrap then
    if 0 ≤ v.delta.toInt then { v with mtimes := (MAXn - v.base) / v.delta }
    else { v with mtimes := (MINn + v.base) / (-v.delta) }
  else v

def le (v : Value) (k : Word) : Except Clp.Fault Value :=
  if v = all ∨ v = none then .ok v
  else if v.isConst then .ok (if k.toInt < v.base.toInt then none else v)
  else
    let v := v.wrapFix
    if k.toInt < v.start.toInt then .ok none
    else if v.stop.toInt < k.toInt then .ok v
    else if 0 ≤ v.delta.toInt then .ok { v with mtimes := (k - v.base).sdiv v.delta }
    else
      let s := (v.base - k - v.delta - 1).sdiv (-v.delta)
      if s.toInt < 0 then .error .assertion
      else .ok { v with base := v.base + v.delta * s, mtimes := v.mtimes - s }

/-- The change for no wrapping in `geu`. -/
def geuFix (v : Value) (k : Word) : Value :=
  if v.uwrap then { v with mtimes := (UMAXn - k) / (-v.delta) } else v

def geu (v : Value) (k : Word) : Except Clp.Fault Value :=
  if v = all ∨ v = none then .ok v
  else if v.isConst then .ok (if v.base.toNat < k.toNat then none else v)
  else if 0 < v.delta.toInt then interWith v ⟨.val, k, 1, UMAXn - k⟩
  else
    let v := v.geuFix k
    if v.base.toNat ≤ k.toNat then .ok none
    else if k.toNat ≤ (v.base + v.delta * v.mtimes).toNat then .ok v
    else .ok { v with mtimes := (k - v.base).sdiv v.delta }

def leu (v : Value) (k : Word) : Except Clp.Fault Value :=
  if v = all ∨ v = none then .ok v
  else if v.isConst then .ok (if k.toNat < v.base.toNat then none else v)
  else if v.delta.toInt < 0 then interWith v ⟨.val, 0, 1, k⟩
  else
    let v := if v.uwrap then { v with mtimes := k / v.delta } else v
    if k.toNat ≤ v.base.toNat then .ok none
    else if (v.base + v.delta * v.mtimes).toNat ≤ k.toNat then .ok v
    else .ok { v with mtimes := (k - v.base) / v.delta }

/-! ### Progressions that stay inside the numbers -/

variable {v : Value} {x y k : Word} {j : Nat}

/-- The words go from the base to the last one as signed numbers. -/
def Signed (v : Value) : Prop :=
  -2 ^ 31 ≤ v.base.toInt + v.mtimes.toNat * v.delta.toInt ∧
    v.base.toInt + v.mtimes.toNat * v.delta.toInt < 2 ^ 31

instance (v : Value) : Decidable v.Signed := inferInstanceAs (Decidable (_ ∧ _))

/-- The words go from the base to the last one as unsigned numbers. -/
def Unsigned (v : Value) : Prop :=
  0 ≤ v.base.toNat + v.mtimes.toNat * v.delta.toInt ∧
    v.base.toNat + v.mtimes.toNat * v.delta.toInt < 2 ^ 32

instance (v : Value) : Decidable v.Unsigned := inferInstanceAs (Decidable (_ ∧ _))

theorem step_eq_ofInt (b d : Word) (j : Nat) : b + j • d = BitVec.ofInt 32 (b.toInt + j * d.toInt) := by
  rw [nsmul_eq, BitVec.ofInt_add, BitVec.ofInt_mul, BitVec.ofInt_toInt, BitVec.ofInt_toInt, BitVec.ofInt_natCast]

theorem step_eq_ofInt_toNat (b d : Word) (j : Nat) :
    b + j • d = BitVec.ofInt 32 (b.toNat + j * d.toInt) := by
  rw [nsmul_eq, BitVec.ofInt_add, BitVec.ofInt_mul, BitVec.ofInt_toInt, BitVec.ofInt_natCast,
    BitVec.ofInt_natCast, BitVec.ofNat_toNat, BitVec.setWidth_eq]

theorem toInt_ofInt {i : Int} (lo : -2 ^ 31 ≤ i) (hi : i < 2 ^ 31) : (BitVec.ofInt 32 i).toInt = i := by
  rw [BitVec.toInt_ofInt]
  exact Int.bmod_eq_of_le (by simpa using lo) (by simpa using hi)

theorem toNat_ofInt {i : Int} (lo : 0 ≤ i) (hi : i < 2 ^ 32) : ((BitVec.ofInt 32 i).toNat : Int) = i := by
  rw [BitVec.toNat_ofInt]
  omega

/-- A step is between the first and the last one. -/
theorem step_between (d : Int) {n : Nat} (le : j ≤ n) :
    (0 ≤ d → 0 ≤ j * d ∧ j * d ≤ n * d) ∧ (d ≤ 0 → n * d ≤ j * d ∧ j * d ≤ 0) := by
  have cast : (j : Int) ≤ n := by exact_mod_cast le
  constructor
  · intro nonneg
    exact ⟨mul_nonneg (by omega) nonneg, mul_le_mul_of_nonneg_right cast nonneg⟩
  · intro nonpos
    exact ⟨mul_le_mul_of_nonpos_right cast nonpos, mul_nonpos_of_nonneg_of_nonpos (by omega) nonpos⟩

theorem Signed.toInt_step (signed : v.Signed) (le : j ≤ v.mtimes.toNat) :
    (v.base + j • v.delta).toInt = v.base.toInt + j * v.delta.toInt := by
  obtain ⟨lo, hi⟩ := signed
  obtain ⟨up, down⟩ := step_between v.delta.toInt le
  have := v.base.le_toInt
  have := v.base.toInt_lt
  rw [step_eq_ofInt]
  rcases le_total 0 v.delta.toInt with nonneg | nonpos
  · have := up nonneg
    exact toInt_ofInt (by omega) (by omega)
  · have := down nonpos
    exact toInt_ofInt (by omega) (by omega)

theorem Unsigned.toNat_step (unsigned : v.Unsigned) (le : j ≤ v.mtimes.toNat) :
    ((v.base + j • v.delta).toNat : Int) = v.base.toNat + j * v.delta.toInt := by
  obtain ⟨lo, hi⟩ := unsigned
  obtain ⟨up, down⟩ := step_between v.delta.toInt le
  have := v.base.isLt
  rw [step_eq_ofInt_toNat]
  rcases le_total 0 v.delta.toInt with nonneg | nonpos
  · have := up nonneg
    exact toNat_ofInt (by omega) (by omega)
  · have := down nonpos
    exact toNat_ofInt (by omega) (by omega)

theorem Signed.toInt_last (signed : v.Signed) :
    (v.base + v.delta * v.mtimes).toInt = v.base.toInt + v.mtimes.toNat * v.delta.toInt := by
  rw [← toNat_nsmul]
  exact signed.toInt_step le_rfl

theorem Unsigned.toNat_last (unsigned : v.Unsigned) :
    ((v.base + v.delta * v.mtimes).toNat : Int) = v.base.toNat + v.mtimes.toNat * v.delta.toInt := by
  rw [← toNat_nsmul]
  exact unsigned.toNat_step le_rfl

theorem sdiv_eq_ofInt (a p : Word) : a.sdiv p = BitVec.ofInt 32 (a.toInt.tdiv p.toInt) := by
  apply BitVec.eq_of_toInt_eq
  rw [BitVec.toInt_sdiv, BitVec.toInt_ofInt]

theorem toNat_sdiv_of_nonneg {a p : Word} (nonneg : 0 ≤ a.toInt) (pos : 0 < p.toInt) :
    ((a.sdiv p).toNat : Int) = a.toInt / p.toInt := by
  have := a.toInt_lt
  have := Int.ediv_le_self p.toInt nonneg
  have := Int.ediv_nonneg nonneg pos.le
  rw [sdiv_eq_ofInt, Int.tdiv_eq_ediv_of_nonneg nonneg]
  exact toNat_ofInt (by omega) (by omega)

theorem toNat_sdiv_of_nonpos {a p : Word} (nonpos : a.toInt ≤ 0) (neg : p.toInt < 0) :
    ((a.sdiv p).toNat : Int) = -a.toInt / -p.toInt := by
  have := a.le_toInt
  have nonneg : 0 ≤ -a.toInt := by omega
  have := Int.ediv_le_self (-p.toInt) nonneg
  have := Int.ediv_nonneg nonneg (by omega : 0 ≤ -p.toInt)
  have quotient : a.toInt.tdiv p.toInt = -a.toInt / -p.toInt := by
    rw [← Int.tdiv_eq_ediv_of_nonneg nonneg, Int.neg_tdiv, Int.tdiv_neg, neg_neg]
  rw [sdiv_eq_ofInt, quotient]
  exact toNat_ofInt (by omega) (by omega)

theorem toInt_sub_word {a k : Word} (lo : -2 ^ 31 ≤ a.toInt - k.toInt) (hi : a.toInt - k.toInt < 2 ^ 31) :
    (a - k).toInt = a.toInt - k.toInt := by
  rw [BitVec.toInt_sub]
  exact Int.bmod_eq_of_le (by simpa using lo) (by simpa using hi)

theorem toNat_MINn_add (b : Word) : ((MINn + b).toNat : Int) = b.toInt + 2 ^ 31 := by
  have := b.isLt
  rw [toInt_eq, BitVec.toNat_add, show MINn.toNat = 2 ^ 31 from rfl]
  split <;> omega

theorem toNat_neg_of_neg {d : Word} (neg : d.toInt < 0) : ((-d).toNat : Int) = -d.toInt := by
  rw [toNat_neg_of_nonpos neg.le, mag]
  omega
/-- What is left above a word up to the greatest signed number, in steps. -/
theorem toNat_room (b d : Word) :
    ((MAXn - b) / abs d).toNat = (2 ^ 31 - 1 - b.toInt).toNat / mag d := by
  have room : (MAXn - b).toNat = (2 ^ 31 - 1 - b.toInt).toNat := by
    refine toNat_sub_of_le ?_
    have := b.toInt_lt
    rw [show MAXn.toInt = 2 ^ 31 - 1 from rfl]
    omega
  rw [BitVec.toNat_udiv, toNat_abs, room]

theorem mag_pos {d : Word} (ne : d.toInt ≠ 0) : 0 < mag d := by
  unfold mag
  omega

/-- `swrap` measures the steps to the greatest signed number, whichever the direction. -/
theorem not_swrap_iff (ne : v.delta.toInt ≠ 0) :
    ¬ v.swrap ↔ (v.mtimes.toNat : Int) * mag v.delta ≤ 2 ^ 31 - 1 - v.base.toInt := by
  have nonzero : v.delta ≠ 0 := fun zero => ne (by rw [zero]; rfl)
  have hi := v.base.toInt_lt
  unfold swrap
  rw [toNat_room, not_and, not_lt, Nat.le_div_iff_mul_le (mag_pos ne)]
  constructor
  · intro few
    have few' : ((v.mtimes.toNat * mag v.delta : Nat) : Int) ≤ (2 ^ 31 - 1 - v.base.toInt).toNat := by
      exact_mod_cast few nonzero
    rw [Nat.cast_mul] at few'
    omega
  · intro few _
    have few' : ((v.mtimes.toNat * mag v.delta : Nat) : Int) ≤ (2 ^ 31 - 1 - v.base.toInt).toNat := by
      rw [Nat.cast_mul]
      omega
    exact_mod_cast few'

theorem mag_of_pos {d : Word} (pos : 0 < d.toInt) : (mag d : Int) = d.toInt := by
  unfold mag
  omega

theorem mag_of_neg {d : Word} (neg : d.toInt < 0) : (mag d : Int) = -d.toInt := by
  unfold mag
  omega

/-- A progression that goes up passes the greatest signed number when `swrap` says so. -/
theorem signed_iff_of_pos (pos : 0 < v.delta.toInt) : v.Signed ↔ ¬ v.swrap := by
  have := v.base.le_toInt
  have steps := mul_nonneg (Int.natCast_nonneg v.mtimes.toNat) pos.le
  rw [not_swrap_iff pos.ne', mag_of_pos pos]
  unfold Signed
  omega

/-! ### Up to the end of the numbers -/

/-- The words that the progression reaches as numbers, as `num` reads them, before it passes an end of the
numbers. -/
def reached (num : Word → Int) (v : Value) : Set Word :=
  match v.kind with
  | .none => ∅
  | .reg => ∅
  | .val => {x | ∃ j ≤ v.mtimes.toNat, x = v.base + j • v.delta ∧ num x = num v.base + j * v.delta.toInt}
  | .all => Set.univ

/-- Up to the greatest or the least signed number. -/
def signedPart (v : Value) : Set Word := v.reached BitVec.toInt

/-- Up to the greatest unsigned number or to 0. -/
def unsignedPart (v : Value) : Set Word := v.reached fun x => x.toNat

theorem reached_subset (num : Word → Int) (v : Value) : v.reached num ⊆ v.gamma := by
  intro x hx
  unfold reached at hx
  unfold gamma
  cases kind : v.kind with
  | none => rwa [kind] at hx
  | reg => rwa [kind] at hx
  | val =>
    rw [kind] at hx
    obtain ⟨j, le, eq, -⟩ := hx
    exact ⟨j, le, eq.trans (by rw [nsmul_eq])⟩
  | all => trivial

/-- A progression that passes no end reaches all its words. -/
theorem subset_reached {num : Word → Int}
    (inside : ∀ j ≤ v.mtimes.toNat, num (v.base + j • v.delta) = num v.base + j * v.delta.toInt) :
    v.gamma ⊆ v.reached num := by
  intro x hx
  unfold gamma at hx
  unfold reached
  cases kind : v.kind with
  | none => rwa [kind] at hx
  | reg => rwa [kind] at hx
  | val =>
    rw [kind] at hx
    obtain ⟨j, le, eq⟩ := hx
    rw [← nsmul_eq] at eq
    exact ⟨j, le, eq, by rw [eq, inside j le]⟩
  | all => trivial

theorem Signed.subset_part (signed : v.Signed) : v.gamma ⊆ v.signedPart :=
  subset_reached fun _ le => signed.toInt_step le

theorem Unsigned.subset_part (unsigned : v.Unsigned) : v.gamma ⊆ v.unsignedPart :=
  subset_reached fun _ le => unsigned.toNat_step le

theorem of_reached {num : Word → Int} (top : v.kind = .all → v = all) (nall : v ≠ all) (hx : x ∈ v.reached num) :
    v.kind = .val ∧ ∃ j ≤ v.mtimes.toNat, x = v.base + j • v.delta ∧ num x = num v.base + j * v.delta.toInt := by
  have val := (kind_of_mem (reached_subset num v hx)).resolve_right fun isAll => nall (top isAll)
  unfold reached at hx
  rw [val] at hx
  exact ⟨val, hx⟩

/-- The wrap fix stays inside the signed numbers and keeps the words reached there: one that goes down may be
lengthened to the least number. A progression that goes down past the least number is fixed where `swrap` sees it. -/
theorem wrapFix_part (ne : v.delta.toInt ≠ 0) (seen : 0 < v.delta.toInt ∨ v.swrap ∨ v.Signed) :
    v.wrapFix.kind = v.kind ∧ v.wrapFix.base = v.base ∧ v.wrapFix.delta = v.delta ∧ v.wrapFix.Signed ∧
      ∀ j ≤ v.mtimes.toNat, -2 ^ 31 ≤ v.base.toInt + j * v.delta.toInt →
        v.base.toInt + j * v.delta.toInt < 2 ^ 31 → j ≤ v.wrapFix.mtimes.toNat := by
  have lo := v.base.le_toInt
  have hi := v.base.toInt_lt
  unfold Value.wrapFix
  by_cases wraps : v.swrap
  case neg =>
    have signed : v.Signed := by
      rcases seen with pos | wraps' | signed
      · exact (signed_iff_of_pos pos).mpr wraps
      · exact absurd wraps' wraps
      · exact signed
    rw [if_neg wraps]
    exact ⟨rfl, rfl, rfl, signed, fun j le _ _ => le⟩
  rw [if_pos wraps]
  by_cases nonneg : 0 ≤ v.delta.toInt
  · have pos : 0 < v.delta.toInt := lt_of_le_of_ne nonneg ne.symm
    have count : (((MAXn - v.base) / v.delta).toNat : Int) = (2 ^ 31 - 1 - v.base.toInt) / v.delta.toInt := by
      have room := toNat_room v.base v.delta
      rw [abs, if_pos nonneg] at room
      rw [room, Int.natCast_ediv, mag_of_pos pos, Int.toNat_of_nonneg (by omega)]
    have most := Int.ediv_mul_le (2 ^ 31 - 1 - v.base.toInt) pos.ne'
    have none := Int.ediv_nonneg (by omega : 0 ≤ 2 ^ 31 - 1 - v.base.toInt) nonneg
    rw [if_pos nonneg]
    refine ⟨rfl, rfl, rfl, ⟨?_, ?_⟩, fun j _ _ below => ?_⟩
    · simp only [count]
      have := mul_nonneg none nonneg
      omega
    · simp only [count]
      omega
    · have : (j : Int) ≤ (2 ^ 31 - 1 - v.base.toInt) / v.delta.toInt := by
        rw [Int.le_ediv_iff_mul_le pos]
        omega
      show j ≤ ((MAXn - v.base) / v.delta).toNat
      omega
  · have neg := not_le.mp nonneg
    have count : (((MINn + v.base) / (-v.delta)).toNat : Int) = (v.base.toInt + 2 ^ 31) / -v.delta.toInt := by
      rw [BitVec.toNat_udiv, Int.natCast_ediv, toNat_MINn_add, toNat_neg_of_neg neg]
    have most := Int.ediv_mul_le (v.base.toInt + 2 ^ 31) (by omega : -v.delta.toInt ≠ 0)
    rw [mul_neg] at most
    rw [if_neg nonneg]
    refine ⟨rfl, rfl, rfl, ⟨?_, ?_⟩, fun j _ above _ => ?_⟩
    · simp only [count]
      omega
    · have := mul_nonpos_of_nonneg_of_nonpos (Int.natCast_nonneg ((MINn + v.base) / (-v.delta)).toNat) neg.le
      simp only
      omega
    · have : (j : Int) ≤ (v.base.toInt + 2 ^ 31) / -v.delta.toInt := by
        rw [Int.le_ediv_iff_mul_le (by omega), mul_neg]
        omega
      show j ≤ ((MINn + v.base) / (-v.delta)).toNat
      omega

/-! ### Bounds -/

/-- The values of which `le` keeps every word that satisfies the bound. -/
def LeFits (v : Value) (k : Word) : Prop :=
  v = all ∨ v = none ∨ v.isConst ∨
    (v.Signed ∧ (v.wrapFix.start.toInt ≤ k.toInt → k.toInt ≤ v.wrapFix.stop.toInt →
      if 0 ≤ v.delta.toInt then k.toInt - v.base.toInt < 2 ^ 31
      else v.base.toInt - k.toInt - v.delta.toInt ≤ 2 ^ 31))

/-- The values of which `le` keeps every word that satisfies the bound and is reached as a signed number: `swrap`
sees a progression that goes down past the least one, and the distance to the bound is a signed number. -/
def LeKeeps (v : Value) (k : Word) : Prop :=
  v = all ∨ v = none ∨ v.isConst ∨
    ((0 < v.delta.toInt ∨ v.swrap ∨ v.Signed) ∧
      (v.wrapFix.start.toInt ≤ k.toInt → k.toInt ≤ v.wrapFix.stop.toInt →
        if 0 ≤ v.delta.toInt then k.toInt - v.base.toInt < 2 ^ 31
        else v.base.toInt - k.toInt - v.delta.toInt ≤ 2 ^ 31))

/-- A constant is kept when it satisfies the bound. -/
theorem const_kept {out : Prop} [Decidable out] (top : v.kind = .all → v = all) (const : v.isConst)
    (nall : v ≠ all) (hx : x ∈ v.gamma) (inside : x = v.base → ¬ out) :
    x ∈ (if out then none else v).gamma := by
  have eq := gamma_subset_const (fun isAll => nall (top isAll)) const hx
  rwa [if_neg (inside eq)]

theorem words (top : v.kind = .all → v = all) (nall : v ≠ all) (hx : x ∈ v.gamma) :
    v.kind = .val ∧ ∃ j ≤ v.mtimes.toNat, x = v.base + j • v.delta := by
  have val := (kind_of_mem hx).resolve_right fun isAll => nall (top isAll)
  rw [gamma_of_val val] at hx
  exact ⟨val, hx⟩

theorem delta_ne (nonconst : ¬ v.isConst) : v.delta.toInt ≠ 0 := fun zero =>
  nonconst (.inl (mag_eq_zero.mp (by unfold mag; omega)))

theorem start_of_neg (neg : v.delta.toInt < 0) : v.start = v.base + v.delta * v.mtimes := if_pos neg

theorem stop_of_neg (neg : v.delta.toInt < 0) : v.stop = v.base := if_pos neg

theorem start_of_nonneg (nonneg : 0 ≤ v.delta.toInt) : v.start = v.base := if_neg (not_lt.mpr nonneg)

theorem stop_of_nonneg (nonneg : 0 ≤ v.delta.toInt) : v.stop = v.base + v.delta * v.mtimes :=
  if_neg (not_lt.mpr nonneg)

/-- The words of a progression inside the signed numbers are between its ends. -/
theorem Signed.start_le (signed : v.Signed) (le : j ≤ v.mtimes.toNat) :
    v.start.toInt ≤ (v.base + j • v.delta).toInt := by
  obtain ⟨up, down⟩ := step_between v.delta.toInt le
  rw [signed.toInt_step le]
  rcases lt_or_ge v.delta.toInt 0 with neg | nonneg
  · rw [start_of_neg neg, signed.toInt_last]
    have := down neg.le
    omega
  · rw [start_of_nonneg nonneg]
    have := up nonneg
    omega

theorem Signed.le_stop (signed : v.Signed) (le : j ≤ v.mtimes.toNat) :
    (v.base + j • v.delta).toInt ≤ v.stop.toInt := by
  obtain ⟨up, down⟩ := step_between v.delta.toInt le
  rw [signed.toInt_step le]
  rcases lt_or_ge v.delta.toInt 0 with neg | nonneg
  · rw [stop_of_neg neg]
    have := down neg.le
    omega
  · rw [stop_of_nonneg nonneg, signed.toInt_last]
    have := up nonneg
    omega

theorem Unsigned.start_le (unsigned : v.Unsigned) (le : j ≤ v.mtimes.toNat) :
    v.start.toNat ≤ (v.base + j • v.delta).toNat := by
  obtain ⟨up, down⟩ := step_between v.delta.toInt le
  have place := unsigned.toNat_step le
  rcases lt_or_ge v.delta.toInt 0 with neg | nonneg
  · have last := unsigned.toNat_last
    have := down neg.le
    rw [start_of_neg neg]
    omega
  · have := up nonneg
    rw [start_of_nonneg nonneg]
    omega

theorem Unsigned.le_stop (unsigned : v.Unsigned) (le : j ≤ v.mtimes.toNat) :
    (v.base + j • v.delta).toNat ≤ v.stop.toNat := by
  obtain ⟨up, down⟩ := step_between v.delta.toInt le
  have place := unsigned.toNat_step le
  rcases lt_or_ge v.delta.toInt 0 with neg | nonneg
  · have := down neg.le
    rw [stop_of_neg neg]
    omega
  · have last := unsigned.toNat_last
    have := up nonneg
    rw [stop_of_nonneg nonneg]
    omega

theorem mem_step (val : v.kind = .val) (le : j ≤ v.mtimes.toNat) : v.base + j • v.delta ∈ v.gamma := by
  rw [gamma_of_val val]
  exact add_nsmul_mem le

theorem ofInt_sub (p q : Int) : BitVec.ofInt 32 (p - q) = BitVec.ofInt 32 p - BitVec.ofInt 32 q := by
  rw [sub_eq_add_neg, BitVec.ofInt_add, BitVec.ofInt_neg, ← sub_eq_add_neg]

/-- The quotient by the opposite of a negative number. The least one has no opposite; then the dividend is
below it, and both quotients are 0. -/
theorem toInt_sdiv_neg {a d : Word} (nonneg : 0 ≤ a.toInt) (neg : d.toInt < 0) :
    (a.sdiv (-d)).toInt = a.toInt / -d.toInt := by
  have high := a.toInt_lt
  have small := Int.ediv_le_self (-d.toInt) nonneg
  have positive := Int.ediv_nonneg nonneg (by omega : 0 ≤ -d.toInt)
  have quotient : a.toInt.tdiv (-d).toInt = a.toInt / -d.toInt := by
    rw [← Int.tdiv_eq_ediv_of_nonneg nonneg]
    by_cases least : d = MINn
    · subst least
      rw [show (MINn : Word).toInt = -2 ^ 31 from rfl, show (-MINn).toInt = -2 ^ 31 from rfl, Int.tdiv_neg,
        neg_neg, Int.tdiv_eq_ediv_of_nonneg nonneg, Int.ediv_eq_zero_of_lt nonneg (by omega), neg_zero]
    · rw [BitVec.toInt_neg_of_ne_intMin least]
  rw [sdiv_eq_ofInt, quotient]
  exact toInt_ofInt (by omega) (by omega)

/-- The number of steps after which a progression that goes down is not above the bound. -/
theorem toInt_stepsDown {b d : Word} (neg : d.toInt < 0) (le : k.toInt ≤ b.toInt)
    (near : b.toInt - k.toInt - d.toInt ≤ 2 ^ 31) :
    ((b - k - d - 1).sdiv (-d)).toInt = (b.toInt - k.toInt - d.toInt - 1) / -d.toInt := by
  have distance : (b - k - d - 1).toInt = b.toInt - k.toInt - d.toInt - 1 := by
    have : b - k - d - 1 = BitVec.ofInt 32 (b.toInt - k.toInt - d.toInt - 1) := by
      rw [ofInt_sub, ofInt_sub, ofInt_sub, BitVec.ofInt_toInt, BitVec.ofInt_toInt, BitVec.ofInt_toInt]
      rfl
    rw [this]
    exact toInt_ofInt (by omega) (by omega)
  rw [toInt_sdiv_neg (by omega) neg, distance]
/-- The cut of a progression that goes up to the bound. -/
theorem le_cut_up {w : Value} (signed : w.Signed) (val : w.kind = .val) (pos : 0 < w.delta.toInt)
    (le : j ≤ w.mtimes.toNat) (near : k.toInt - w.base.toInt < 2 ^ 31) (above : w.base.toInt ≤ k.toInt)
    (low : (w.base + j • w.delta).toInt ≤ k.toInt) :
    w.base + j • w.delta ∈ ({ w with mtimes := (k - w.base).sdiv w.delta } : Value).gamma := by
  refine mem_step (v := { w with mtimes := (k - w.base).sdiv w.delta }) val ?_
  have distance := toInt_sub_word (a := k) (k := w.base) (by omega) (by omega)
  have count := toNat_sdiv_of_nonneg (a := k - w.base) (by omega) pos
  rw [signed.toInt_step le] at low
  have : (j : Int) ≤ (k.toInt - w.base.toInt) / w.delta.toInt := by
    rw [Int.le_ediv_iff_mul_le pos]
    omega
  rw [distance] at count
  show j ≤ ((k - w.base).sdiv w.delta).toNat
  omega

/-- The cut of a progression that comes down to the bound: the assertion holds, and the words that are cut come
before the ones that are not above the bound. -/
theorem le_cut_down {w : Value} (signed : w.Signed) (neg : w.delta.toInt < 0) (below : k.toInt ≤ w.base.toInt)
    (near : w.base.toInt - k.toInt - w.delta.toInt ≤ 2 ^ 31) :
    0 ≤ ((w.base - k - w.delta - 1).sdiv (-w.delta)).toInt ∧
      ∀ j ≤ w.mtimes.toNat, w.kind = .val → (w.base + j • w.delta).toInt ≤ k.toInt →
        w.base + j • w.delta ∈
          ({ w with
              base := w.base + w.delta * (w.base - k - w.delta - 1).sdiv (-w.delta)
              mtimes := w.mtimes - (w.base - k - w.delta - 1).sdiv (-w.delta) } : Value).gamma := by
  have steps := toInt_stepsDown neg below near
  generalize (w.base - k - w.delta - 1).sdiv (-w.delta) = s at *
  have positive : 0 ≤ s.toInt := by
    rw [steps]
    exact Int.ediv_nonneg (by omega) (by omega)
  refine ⟨positive, fun j lej val low => ?_⟩
  rw [signed.toInt_step lej] at low
  have nat : (s.toNat : Int) = s.toInt := by
    rw [toInt_eq] at positive ⊢
    split at positive <;> split <;> omega
  have reached : s.toNat ≤ j := by
    have : s.toInt ≤ j := by
      rw [steps, ← Int.lt_add_one_iff, Int.ediv_lt_iff_lt_mul (by omega), add_mul, mul_neg]
      omega
    omega
  have rest : (w.mtimes - s).toNat = w.mtimes.toNat - s.toNat :=
    BitVec.toNat_sub_of_le (reached.trans lej)
  have inside := mem_step (v := { w with base := w.base + w.delta * s, mtimes := w.mtimes - s })
    (j := j - s.toNat) val (rest ▸ Nat.sub_le_sub_right lej _)
  rw [← toNat_nsmul] at inside ⊢
  rwa [add_assoc, ← add_smul, Nat.add_sub_cancel' reached] at inside

theorem le_keeps (top : v.kind = .all → v = all) (keeps : LeKeeps v k) :
    ∃ r, v.le k = .ok r ∧ ∀ x ∈ v.signedPart, x.toInt ≤ k.toInt → x ∈ r.gamma := by
  unfold le
  by_cases same : v = all ∨ v = none
  · exact ⟨v, if_pos same, fun x hx _ => reached_subset _ v hx⟩
  rw [if_neg same]
  by_cases const : v.isConst
  · refine ⟨_, if_pos const, fun x hx low => ?_⟩
    exact const_kept top const (fun h => same (.inl h)) (reached_subset _ v hx) fun eq => by rw [← eq]; omega
  rw [if_neg const]
  obtain ⟨seen, near⟩ := ((keeps.resolve_left fun h => same (.inl h)).resolve_left
    fun h => same (.inr h)).resolve_left const
  have nonzero := delta_ne const
  obtain ⟨kind, base, delta, signed, longer⟩ := wrapFix_part nonzero seen
  -- The words are among the ones of the fixed progression.
  have words : ∀ x ∈ v.signedPart, v.wrapFix.kind = .val ∧
      ∃ j ≤ v.wrapFix.mtimes.toNat, x = v.wrapFix.base + j • v.wrapFix.delta := by
    intro x hx
    obtain ⟨val, j, lej, eq, place⟩ := of_reached top (fun h => same (.inl h)) hx
    have := x.le_toInt
    have := x.toInt_lt
    exact ⟨kind.trans val, j, longer j lej (by omega) (by omega), by rw [base, delta]; exact eq⟩
  rw [← delta] at near nonzero
  rw [← base] at near
  simp only
  generalize v.wrapFix = w at *
  by_cases above : k.toInt < w.start.toInt
  · refine ⟨_, if_pos above, fun x hx low => ?_⟩
    obtain ⟨-, j, lej, rfl⟩ := words x hx
    have := signed.start_le lej
    omega
  rw [if_neg above]
  by_cases below : w.stop.toInt < k.toInt
  · refine ⟨_, if_pos below, fun x hx _ => ?_⟩
    obtain ⟨val, j, lej, rfl⟩ := words x hx
    exact mem_step val lej
  rw [if_neg below]
  have near := near (not_lt.mp above) (not_lt.mp below)
  by_cases nonneg : 0 ≤ w.delta.toInt
  · rw [if_pos nonneg] at near
    rw [start_of_nonneg nonneg] at above
    refine ⟨_, if_pos nonneg, fun x hx low => ?_⟩
    obtain ⟨val, j, lej, rfl⟩ := words x hx
    exact le_cut_up signed val (lt_of_le_of_ne nonneg nonzero.symm) lej near (not_lt.mp above) low
  · rw [if_neg nonneg] at near ⊢
    rw [stop_of_neg (not_le.mp nonneg)] at below
    obtain ⟨positive, inside⟩ := le_cut_down signed (not_le.mp nonneg) (not_lt.mp below) near
    refine ⟨_, if_neg (not_lt.mpr positive), fun x hx low => ?_⟩
    obtain ⟨val, j, lej, rfl⟩ := words x hx
    exact inside j lej val low

/-- The values that have nothing to cut reach all their words. -/
theorem subset_reached_of_easy (num : Word → Int) (easy : v = all ∨ v = none ∨ v.isConst) :
    v.gamma ⊆ v.reached num := by
  rcases easy with rfl | rfl | const
  · exact Set.subset_univ _
  · exact Set.Subset.rfl
  · refine subset_reached fun j le => ?_
    rcases const with step | count
    · rw [step]
      simp
    · rw [count] at le
      rw [Nat.le_zero.mp le]
      simp

theorem LeFits.keeps (fits : LeFits v k) : v.gamma ⊆ v.signedPart ∧ LeKeeps v k := by
  rcases fits with easy | easy | easy | ⟨signed, near⟩
  · exact ⟨subset_reached_of_easy _ (.inl easy), .inl easy⟩
  · exact ⟨subset_reached_of_easy _ (.inr (.inl easy)), .inr (.inl easy)⟩
  · exact ⟨subset_reached_of_easy _ (.inr (.inr easy)), .inr (.inr (.inl easy))⟩
  · exact ⟨signed.subset_part, .inr (.inr (.inr ⟨.inr (.inr signed), near⟩))⟩

/-! ### Half lines -/

theorem interWith_sound {w : Value} (fits : InterFits v w) :
    ∃ r, interWith v w = .ok r ∧ v.gamma ∩ w.gamma ⊆ r.gamma := by
  obtain ⟨r, ok, sound⟩ := subset_inter fits
  exact ⟨r, by rw [interWith, ok]; rfl, sound⟩

theorem ite_part_subset {c : Prop} [Decidable c] (num : Word → Int) :
    (if c then v.gamma else v.reached num) ⊆ v.gamma := by
  split
  · exact Set.Subset.rfl
  · exact reached_subset num v

theorem subset_ite_part {c : Prop} [Decidable c] {num : Word → Int} (all : v.gamma ⊆ v.reached num) :
    v.gamma ⊆ if c then v.gamma else v.reached num := by
  split
  · exact Set.Subset.rfl
  · exact all

/-- A filter keeps the words that satisfy the bound when its cut does. Where `c` says so it is an intersection, which goes
around the numbers; otherwise the words are those that are reached as numbers. -/
theorem filter_keeps {c out rest : Prop} [Decidable c] [Decidable out] {w : Value} {cut : Except Clp.Fault Value}
    (num : Word → Int) (holds : Word → Prop) (top : v.kind = .all → v = all)
    (keeps : v = all ∨ v = none ∨ v.isConst ∨ if c then InterFits v w else rest) (inside : holds v.base → ¬ out)
    (half : ∀ x, holds x → x ∈ w.gamma)
    (kept : ¬ c → v.delta.toInt ≠ 0 → rest → ∃ r, cut = .ok r ∧ ∀ x, v.kind = .val →
      (∃ j ≤ v.mtimes.toNat, x = v.base + j • v.delta ∧ num x = num v.base + j * v.delta.toInt) → holds x → x ∈ r.gamma) :
    ∃ r, (if v = all ∨ v = none then .ok v else if v.isConst then .ok (if out then none else v)
        else if c then interWith v w else cut) = .ok r ∧
      ∀ x ∈ (if c then v.gamma else v.reached num), holds x → x ∈ r.gamma := by
  by_cases same : v = all ∨ v = none
  · exact ⟨v, if_pos same, fun x hx _ => ite_part_subset _ hx⟩
  rw [if_neg same]
  have nall : v ≠ all := fun h => same (.inl h)
  by_cases const : v.isConst
  · refine ⟨_, if_pos const, fun x hx high => ?_⟩
    exact const_kept top const nall (ite_part_subset _ hx) fun eq => inside (eq ▸ high)
  rw [if_neg const]
  have keeps := ((keeps.resolve_left nall).resolve_left fun h => same (.inr h)).resolve_left const
  by_cases cross : c
  · rw [if_pos cross] at keeps ⊢
    obtain ⟨r, ok, sound⟩ := interWith_sound keeps
    exact ⟨r, ok, fun x hx high => sound ⟨ite_part_subset _ hx, half x high⟩⟩
  · rw [if_neg cross] at keeps
    rw [if_neg cross, if_neg cross]
    obtain ⟨r, ok, sound⟩ := kept cross (delta_ne const) keeps
    refine ⟨r, ok, fun x hx high => ?_⟩
    obtain ⟨val, step⟩ := of_reached top nall hx
    exact sound x val step high

/-- The values that fit have all their words among those to keep. -/
theorem keeps_of_fits {c inter part rest : Prop} [Decidable c] {num : Word → Int}
    (fits : v = all ∨ v = none ∨ v.isConst ∨ if c then inter else part ∧ rest) (all : part → v.gamma ⊆ v.reached num) :
    v.gamma ⊆ (if c then v.gamma else v.reached num) ∧
      (v = Value.all ∨ v = none ∨ v.isConst ∨ if c then inter else rest) := by
  rcases fits with easy | easy | easy | fits
  · exact ⟨subset_ite_part (subset_reached_of_easy _ (.inl easy)), .inl easy⟩
  · exact ⟨subset_ite_part (subset_reached_of_easy _ (.inr (.inl easy))), .inr (.inl easy)⟩
  · exact ⟨subset_ite_part (subset_reached_of_easy _ (.inr (.inr easy))), .inr (.inr (.inl easy))⟩
  · split at fits
    case isTrue cross =>
      rw [if_pos cross, if_pos cross]
      exact ⟨Set.Subset.rfl, .inr (.inr (.inr fits))⟩
    case isFalse cross =>
      rw [if_neg cross, if_neg cross]
      exact ⟨all fits.1, .inr (.inr (.inr fits.2))⟩

/-- The words that come after another one. -/
theorem mem_halfLine {n : Word} (le : (x - k).toNat ≤ n.toNat) : x ∈ (⟨.val, k, 1, n⟩ : Value).gamma := by
  have inside := mem_step (v := ⟨.val, k, 1, n⟩) rfl le
  rwa [toNat_nsmul, one_mul, add_sub_cancel] at inside

theorem mem_above (le : k.toInt ≤ x.toInt) : x ∈ (⟨.val, k, 1, MAXn - k⟩ : Value).gamma := by
  have := x.toInt_lt
  have max : MAXn.toInt = 2 ^ 31 - 1 := rfl
  refine mem_halfLine ?_
  rw [toNat_sub_of_le le, toNat_sub_of_le (by omega)]
  omega

theorem mem_above_unsigned (le : k.toNat ≤ x.toNat) : x ∈ (⟨.val, k, 1, UMAXn - k⟩ : Value).gamma := by
  have := x.isLt
  refine mem_halfLine ?_
  rw [BitVec.toNat_sub_of_le le, BitVec.toNat_sub_of_le (by rw [BitVec.le_def, toNat_UMAXn]; omega), toNat_UMAXn]
  omega

theorem mem_below_unsigned (le : x.toNat ≤ k.toNat) : x ∈ (⟨.val, 0, 1, k⟩ : Value).gamma := by
  refine mem_halfLine ?_
  rwa [sub_zero]

/-- The values of which `ge` keeps every word that satisfies the bound. -/
def GeFits (v : Value) (k : Word) : Prop :=
  v = all ∨ v = none ∨ v.isConst ∨
    if 0 < v.delta.toInt then InterFits v ⟨.val, k, 1, MAXn - k⟩
    else v.Signed ∧ v.base ≠ k ∧ (k.toInt < v.base.toInt → v.swrap → 0 ≤ k.toInt)

/-- The steps of a progression that goes down to a bound. -/
theorem step_le_of_down {b d i : Int} (neg : d < 0) (above : i ≤ b + j * d) : (j : Int) ≤ (b - i) / -d := by
  rw [Int.le_ediv_iff_mul_le (by omega), mul_neg]
  omega

@[simp] theorem geFix_kind : (v.geFix k).kind = v.kind := by unfold geFix; split <;> rfl

@[simp] theorem geFix_base : (v.geFix k).base = v.base := by unfold geFix; split <;> rfl

@[simp] theorem geFix_delta : (v.geFix k).delta = v.delta := by unfold geFix; split <;> rfl

/-- The steps to the words above the bound stay in the changed progression. -/
theorem le_geFix (neg : v.delta.toInt < 0) (room : v.swrap → 0 ≤ k.toInt) (le : j ≤ v.mtimes.toNat)
    (high : k.toInt ≤ v.base.toInt + j * v.delta.toInt) : j ≤ (v.geFix k).mtimes.toNat := by
  unfold geFix
  by_cases wraps : v.swrap
  · have nonneg := room wraps
    have max : MAXn.toInt = 2 ^ 31 - 1 := rfl
    have := v.base.toInt_lt
    have := k.toInt_lt
    have distance := toInt_sub_word (a := MAXn) (k := k) (by omega) (by omega)
    have count := toInt_sdiv_neg (a := MAXn - k) (by omega) neg
    have steps := step_le_of_down neg high
    have more : (v.base.toInt - k.toInt) / -v.delta.toInt ≤ (MAXn - k).toInt / -v.delta.toInt :=
      Int.ediv_le_ediv (by omega) (by omega)
    rw [if_pos wraps]
    show j ≤ ((MAXn - k).sdiv (-v.delta)).toNat
    rw [toInt_eq] at count
    split at count <;> omega
  · rwa [if_neg wraps]

/-- The words that `ge` is made to keep: those of a progression that goes down are cut where it passes the least
number, and the others go through an intersection, which goes around the numbers. -/
def geWords (v : Value) : Set Word := if 0 < v.delta.toInt then v.gamma else v.signedPart

def geuWords (v : Value) : Set Word := if 0 < v.delta.toInt then v.gamma else v.unsignedPart

def leuWords (v : Value) : Set Word := if v.delta.toInt < 0 then v.gamma else v.unsignedPart

/-- The values of which `ge` keeps the words that satisfy the bound: the intersection is sound, or the progression
goes down, does not start at the bound, and is not changed against a bound whose distance from the greatest number
is not a signed number. -/
def GeKeeps (v : Value) (k : Word) : Prop :=
  v = all ∨ v = none ∨ v.isConst ∨
    if 0 < v.delta.toInt then InterFits v ⟨.val, k, 1, MAXn - k⟩
    else v.base ≠ k ∧ (k.toInt < v.base.toInt → v.swrap → 0 ≤ k.toInt)

/-- A number that passes the least one comes back from above. -/
theorem toInt_ofInt_below {i : Int} (lo : -2 ^ 31 ≤ i + 2 ^ 32) (hi : i < -2 ^ 31) :
    (BitVec.ofInt 32 i).toInt = i + 2 ^ 32 := by
  have around : BitVec.ofInt 32 i = BitVec.ofInt 32 (i + 2 ^ 32) := by
    rw [BitVec.ofInt_add]
    simp
  rw [around]
  exact toInt_ofInt lo (by omega)

/-- A progression that is cut comes down to the bound from at most `2 ^ 31` above it. -/
theorem near_of_cut (neg : v.delta.toInt < 0) (high : k.toInt < v.base.toInt) (room : v.swrap → 0 ≤ k.toInt)
    (cut : ((v.geFix k).base + (v.geFix k).delta * (v.geFix k).mtimes).toInt < k.toInt) :
    v.base.toInt - k.toInt ≤ 2 ^ 31 := by
  have := v.base.toInt_lt
  have := k.le_toInt
  by_cases wraps : v.swrap
  · have := room wraps
    omega
  · have few := (not_swrap_iff neg.ne).mp wraps
    rw [mag_of_neg neg, mul_neg] at few
    rw [geFix, if_neg wraps, ← toNat_nsmul, step_eq_ofInt] at cut
    by_cases inside : -2 ^ 31 ≤ v.base.toInt + v.mtimes.toNat * v.delta.toInt
    · have steps := mul_nonpos_of_nonneg_of_nonpos (Int.natCast_nonneg v.mtimes.toNat) neg.le
      rw [toInt_ofInt inside (by omega)] at cut
      omega
    · -- Past the least number, the last word is above the first one.
      rw [toInt_ofInt_below (by omega) (not_le.mp inside)] at cut
      omega

theorem ge_keeps (top : v.kind = .all → v = all) (keeps : GeKeeps v k) :
    ∃ r, v.ge k = .ok r ∧ ∀ x ∈ v.geWords, k.toInt ≤ x.toInt → x ∈ r.gamma := by
  refine filter_keeps BitVec.toInt (fun x => k.toInt ≤ x.toInt) top keeps not_lt.mpr (fun x => mem_above)
    fun up nonzero ⟨apart, room⟩ => ?_
  have neg : v.delta.toInt < 0 := lt_of_le_of_ne (not_lt.mp up) nonzero
  simp only [geFix_base]
  by_cases low : v.base.toInt ≤ k.toInt
  · refine ⟨_, if_pos low, fun x _ step high => absurd (BitVec.eq_of_toInt_eq ?_) apart⟩
    obtain ⟨j, lej, -, place⟩ := step
    have := (step_between v.delta.toInt lej).2 neg.le
    omega
  rw [if_neg low]
  have room := room (not_le.mp low)
  by_cases all : k.toInt ≤ (v.base + (v.geFix k).delta * (v.geFix k).mtimes).toInt
  · refine ⟨_, if_pos all, fun x val step high => ?_⟩
    obtain ⟨j, lej, rfl, place⟩ := step
    have inside := mem_step (v := v.geFix k) (geFix_kind.trans val) (le_geFix neg room lej (by omega))
    rwa [geFix_base, geFix_delta] at inside
  · refine ⟨_, if_neg all, fun x val step high => ?_⟩
    have near := near_of_cut neg (not_le.mp low) room (by rw [geFix_base]; exact not_le.mp all)
    obtain ⟨j, lej, rfl, place⟩ := step
    simp only [geFix_kind, geFix_delta]
    refine mem_step (v := ⟨v.kind, v.base, v.delta, (k - v.base).sdiv v.delta⟩) val ?_
    have distance := toInt_sub_word (a := k) (k := v.base) (by omega) (by omega)
    have count := toNat_sdiv_of_nonpos (a := k - v.base) (by omega) neg
    have steps : (j : Int) ≤ (v.base.toInt - k.toInt) / -v.delta.toInt := step_le_of_down neg (by omega)
    rw [distance, neg_sub] at count
    show j ≤ ((k - v.base).sdiv v.delta).toNat
    omega

theorem GeFits.keeps (fits : GeFits v k) : v.gamma ⊆ v.geWords ∧ GeKeeps v k :=
  keeps_of_fits fits fun part => part.subset_part

/-- The values of which `geu` keeps every word that satisfies the bound. -/
def GeuFits (v : Value) (k : Word) : Prop :=
  v = all ∨ v = none ∨ v.isConst ∨
    if 0 < v.delta.toInt then InterFits v ⟨.val, k, 1, UMAXn - k⟩
    else v.Unsigned ∧ v.base ≠ k ∧
      (k.toNat < v.base.toNat → ((v.geuFix k).base + (v.geuFix k).delta * (v.geuFix k).mtimes).toNat < k.toNat →
        v.base.toNat - k.toNat ≤ 2 ^ 31)

@[simp] theorem geuFix_kind : (v.geuFix k).kind = v.kind := by unfold geuFix; split <;> rfl

@[simp] theorem geuFix_base : (v.geuFix k).base = v.base := by unfold geuFix; split <;> rfl

@[simp] theorem geuFix_delta : (v.geuFix k).delta = v.delta := by unfold geuFix; split <;> rfl

theorem le_geuFix (neg : v.delta.toInt < 0) (le : j ≤ v.mtimes.toNat)
    (high : (k.toNat : Int) ≤ v.base.toNat + j * v.delta.toInt) : j ≤ (v.geuFix k).mtimes.toNat := by
  unfold geuFix
  by_cases wraps : v.uwrap
  · have := v.base.isLt
    have := k.isLt
    have distance : ((UMAXn - k).toNat : Int) = 2 ^ 32 - 1 - k.toNat := by
      rw [BitVec.toNat_sub_of_le (by rw [BitVec.le_def, toNat_UMAXn]; omega), toNat_UMAXn]
      omega
    have count : (((UMAXn - k) / (-v.delta)).toNat : Int) = (2 ^ 32 - 1 - k.toNat : Int) / -v.delta.toInt := by
      rw [BitVec.toNat_udiv, Int.natCast_ediv, toNat_neg_of_neg neg, distance]
    have steps := step_le_of_down neg high
    have more : ((v.base.toNat : Int) - k.toNat) / -v.delta.toInt ≤ (2 ^ 32 - 1 - k.toNat : Int) / -v.delta.toInt :=
      Int.ediv_le_ediv (by omega) (by omega)
    rw [if_pos wraps]
    show j ≤ ((UMAXn - k) / (-v.delta)).toNat
    omega
  · rwa [if_neg wraps]

theorem toInt_sub_unsigned {b : Word} (lt : k.toNat < b.toNat) (near : b.toNat - k.toNat ≤ 2 ^ 31) :
    (k - b).toInt = (k.toNat : Int) - b.toNat := by
  have := b.isLt
  rw [toInt_eq, BitVec.toNat_sub]
  split <;> omega

/-- The values of which `geu` keeps the words that satisfy the bound: the intersection is sound, or the progression
goes down, does not start at the bound, and is not cut at a distance that is not a signed number. -/
def GeuKeeps (v : Value) (k : Word) : Prop :=
  v = all ∨ v = none ∨ v.isConst ∨
    if 0 < v.delta.toInt then InterFits v ⟨.val, k, 1, UMAXn - k⟩
    else v.base ≠ k ∧
      (k.toNat < v.base.toNat → ((v.geuFix k).base + (v.geuFix k).delta * (v.geuFix k).mtimes).toNat < k.toNat →
        v.base.toNat - k.toNat ≤ 2 ^ 31)

theorem geu_keeps (top : v.kind = .all → v = all) (keeps : GeuKeeps v k) :
    ∃ r, v.geu k = .ok r ∧ ∀ x ∈ v.geuWords, k.toNat ≤ x.toNat → x ∈ r.gamma := by
  refine filter_keeps (fun x => x.toNat) (fun x => k.toNat ≤ x.toNat) top keeps not_lt.mpr (fun x => mem_above_unsigned)
    fun up nonzero ⟨apart, near⟩ => ?_
  have neg : v.delta.toInt < 0 := lt_of_le_of_ne (not_lt.mp up) nonzero
  simp only [geuFix_base] at near ⊢
  by_cases low : v.base.toNat ≤ k.toNat
  · refine ⟨_, if_pos low, fun x _ step high => absurd (BitVec.eq_of_toNat_eq ?_) apart⟩
    obtain ⟨j, lej, -, place⟩ := step
    have := (step_between v.delta.toInt lej).2 neg.le
    omega
  rw [if_neg low]
  by_cases all : k.toNat ≤ (v.base + (v.geuFix k).delta * (v.geuFix k).mtimes).toNat
  · refine ⟨_, if_pos all, fun x val step high => ?_⟩
    obtain ⟨j, lej, rfl, place⟩ := step
    have inside := mem_step (v := v.geuFix k) (geuFix_kind.trans val) (le_geuFix neg lej (by omega))
    rwa [geuFix_base, geuFix_delta] at inside
  · refine ⟨_, if_neg all, fun x val step high => ?_⟩
    have near := near (not_le.mp low) (not_le.mp all)
    obtain ⟨j, lej, rfl, place⟩ := step
    simp only [geuFix_kind, geuFix_delta]
    refine mem_step (v := ⟨v.kind, v.base, v.delta, (k - v.base).sdiv v.delta⟩) val ?_
    have distance := toInt_sub_unsigned (not_le.mp low) near
    have count := toNat_sdiv_of_nonpos (a := k - v.base) (by omega) neg
    have steps : (j : Int) ≤ ((v.base.toNat : Int) - k.toNat) / -v.delta.toInt := step_le_of_down neg (by omega)
    rw [distance, neg_sub] at count
    show j ≤ ((k - v.base).sdiv v.delta).toNat
    omega

theorem GeuFits.keeps (fits : GeuFits v k) : v.gamma ⊆ v.geuWords ∧ GeuKeeps v k :=
  keeps_of_fits fits fun part => part.subset_part

/-- The values of which `leu` keeps every word that satisfies the bound. -/
def LeuFits (v : Value) (k : Word) : Prop :=
  v = all ∨ v = none ∨ v.isConst ∨
    if v.delta.toInt < 0 then InterFits v ⟨.val, 0, 1, k⟩ else v.Unsigned ∧ v.base ≠ k

/-- The values of which `leu` keeps the words that satisfy the bound: the intersection is sound, or the progression
goes up and does not start at the bound. -/
def LeuKeeps (v : Value) (k : Word) : Prop :=
  v = all ∨ v = none ∨ v.isConst ∨
    if v.delta.toInt < 0 then InterFits v ⟨.val, 0, 1, k⟩ else v.base ≠ k

/-- The change for no wrapping in `leu`. -/
def leuFix (v : Value) (k : Word) : Value :=
  if v.uwrap then { v with mtimes := k / v.delta } else v

@[simp] theorem leuFix_kind : (v.leuFix k).kind = v.kind := by unfold leuFix; split <;> rfl

@[simp] theorem leuFix_base : (v.leuFix k).base = v.base := by unfold leuFix; split <;> rfl

@[simp] theorem leuFix_delta : (v.leuFix k).delta = v.delta := by unfold leuFix; split <;> rfl

/-- The steps to the words below the bound stay in the changed progression. -/
theorem le_leuFix (pos : 0 < v.delta.toInt) (le : j ≤ v.mtimes.toNat)
    (low : v.base.toNat + j * v.delta.toInt ≤ k.toNat) : j ≤ (v.leuFix k).mtimes.toNat := by
  unfold leuFix
  by_cases wraps : v.uwrap
  · have step := toNat_eq_toInt pos
    rw [if_pos wraps]
    show j ≤ (k / v.delta).toNat
    rw [BitVec.toNat_udiv, Nat.le_div_iff_mul_le (by omega)]
    have : ((j * v.delta.toNat : Nat) : Int) = j * v.delta.toInt := by rw [← step]; push_cast; rfl
    omega
  · rwa [if_neg wraps]

theorem leu_keeps (top : v.kind = .all → v = all) (keeps : LeuKeeps v k) :
    ∃ r, v.leu k = .ok r ∧ ∀ x ∈ v.leuWords, x.toNat ≤ k.toNat → x ∈ r.gamma := by
  refine filter_keeps (fun x => x.toNat) (fun x => x.toNat ≤ k.toNat) top keeps not_lt.mpr (fun x => mem_below_unsigned)
    fun down nonzero apart => ?_
  have pos : 0 < v.delta.toInt := lt_of_le_of_ne (not_lt.mp down) nonzero.symm
  rw [← leuFix]
  simp only [leuFix_base, leuFix_delta]
  by_cases above : k.toNat ≤ v.base.toNat
  · refine ⟨_, if_pos above, fun x _ step low => absurd (BitVec.eq_of_toNat_eq ?_) apart⟩
    obtain ⟨j, lej, -, place⟩ := step
    have := (step_between v.delta.toInt lej).1 pos.le
    omega
  rw [if_neg above]
  by_cases all : (v.base + v.delta * (v.leuFix k).mtimes).toNat ≤ k.toNat
  · refine ⟨_, if_pos all, fun x val step low => ?_⟩
    obtain ⟨j, lej, rfl, place⟩ := step
    have inside := mem_step (v := v.leuFix k) (leuFix_kind.trans val) (le_leuFix pos lej (by omega))
    rwa [leuFix_base, leuFix_delta] at inside
  · refine ⟨_, if_neg all, fun x val step low => ?_⟩
    obtain ⟨j, lej, rfl, place⟩ := step
    simp only [leuFix_kind]
    refine mem_step (v := ⟨v.kind, v.base, v.delta, (k - v.base) / v.delta⟩) val ?_
    have distance : (k - v.base).toNat = k.toNat - v.base.toNat :=
      BitVec.toNat_sub_of_le (BitVec.le_def.mpr (not_le.mp above).le)
    have step := toNat_eq_toInt pos
    show j ≤ ((k - v.base) / v.delta).toNat
    rw [BitVec.toNat_udiv, distance, Nat.le_div_iff_mul_le (by omega)]
    have : ((j * v.delta.toNat : Nat) : Int) = j * v.delta.toInt := by rw [← step]; push_cast; rfl
    omega

theorem LeuFits.keeps (fits : LeuFits v k) : v.gamma ⊆ v.leuWords ∧ LeuKeeps v k :=
  keeps_of_fits fits fun part => part.subset_part

end Value

end Otawa.Clp
