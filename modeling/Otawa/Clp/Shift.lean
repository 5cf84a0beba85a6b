import Otawa.Clp.Exact
import Otawa.Clp.Update
import Otawa.Lib.Rounding

/-!
# Shifts of CLP values

`Value.shl` and `Value.shr` as `Problem.update` applies them, the second one to the
logical and to the arithmetic right shifts alike. A left shift keeps every word. A right
shift divides the base and the step apart and shifts them as signed numbers, so that it
is right for

* words of which none is negative, since a logical shift of a negative word is positive;
* steps and bases whose remainders do not carry into the quotients (`Rounds`);
* progressions that do not wrap, or come back to their start after the shift (`Closes`).
-/

namespace Otawa.Clp

open Otawa.Progression Otawa.Rounding

/-! ### Words and integers -/

section

variable {b d x y : Word} {k n t : Nat}

theorem toInt_add_nsmul (b d : Word) (k : Nat) :
    (b + k • d).toInt = (b.toInt + k * d.toInt).bmod (2 ^ 32) := by
  have ofInt : b + k • d = BitVec.ofInt 32 (b.toInt + k * d.toInt) := by
    rw [BitVec.ofInt_add, BitVec.ofInt_mul, BitVec.ofInt_toInt, BitVec.ofInt_toInt,
      BitVec.ofInt_natCast, Value.nsmul_eq]
  rw [ofInt, BitVec.toInt_ofInt]

theorem eq_add_nsmul (eq : y.toInt = b.toInt + k * d.toInt) : y = b + k • d := by
  rw [Value.nsmul_eq, ← BitVec.ofInt_natCast, ← BitVec.ofInt_toInt (x := b),
    ← BitVec.ofInt_toInt (x := d), ← BitVec.ofInt_mul, ← BitVec.ofInt_add, ← eq, BitVec.ofInt_toInt]

/-- A word of a progression is the integer, up to multiples of `2 ^ 32`. -/
theorem exists_toInt (eq : y = b + k • d) : ∃ z : Int, y.toInt = b.toInt + k * d.toInt + 2 ^ 32 * z := by
  rw [eq, toInt_add_nsmul]
  obtain ⟨z, eqz⟩ := Int.dvd_bmod_sub_self (x := b.toInt + k * d.toInt) (m := 2 ^ 32)
  exact ⟨z, by omega⟩

theorem toInt_asr (x : Word) (t : Nat) : (x.sshiftRight t).toInt = x.toInt / 2 ^ t := by
  rw [BitVec.toInt_sshiftRight, Int.shiftRight_eq_div_pow]
  rfl

theorem lsr_of_nonneg (nonneg : 0 ≤ x.toInt) (t : Nat) : x >>> t = x.sshiftRight t := by
  refine (BitVec.sshiftRight_eq_of_msb_false ?_).symm
  rw [BitVec.msb_eq_toInt]
  exact decide_eq_false (not_lt.mpr nonneg)

/-- A logical shift reads a negative word `2 ^ 32` higher. -/
theorem toNat_lsr_of_neg (neg : x.toInt < 0) (t : Nat) :
    ((x >>> t).toNat : Int) = (x.toInt + 2 ^ 32) / 2 ^ t := by
  have unsigned : (x.toNat : Int) = x.toInt + 2 ^ 32 := by
    rw [toInt_eq] at *
    split at neg <;> omega
  rw [BitVec.toNat_ushiftRight, Nat.shiftRight_eq_div_pow, ← unsigned]
  push_cast
  rfl

end

namespace Value

variable {v s : Value} {x y : Word} {k n t : Nat}

theorem StaysSigned.bounds (stays : StaysSigned v) (le : k ≤ v.mtimes.toNat) :
    -2 ^ 31 ≤ v.base.toInt + k * v.delta.toInt ∧ v.base.toInt + k * v.delta.toInt < 2 ^ 31 := by
  obtain ⟨lo, hi⟩ := stays
  have loB := v.base.le_toInt
  have hiB := v.base.toInt_lt
  have le' : (k : Int) ≤ v.mtimes.toNat := Int.ofNat_le.mpr le
  rcases le_total 0 v.delta.toInt with nonneg | nonpos
  · have most := mul_le_mul_of_nonneg_right le' nonneg
    have least := mul_nonneg (Int.natCast_nonneg k) nonneg
    omega
  · have least := mul_le_mul_of_nonpos_right le' nonpos
    have most := mul_nonpos_of_nonneg_of_nonpos (Int.natCast_nonneg k) nonpos
    omega

theorem StaysSigned.toInt_step (stays : StaysSigned v) (le : k ≤ v.mtimes.toNat) :
    (v.base + k • v.delta).toInt = v.base.toInt + k * v.delta.toInt := by
  obtain ⟨lo, hi⟩ := stays.bounds le
  rw [toInt_add_nsmul, Int.bmod_eq_of_le] <;> omega

/-! ### The results of the shifts -/

/-- The step is even, as the code tests it. -/
abbrev EvenStep (v : Value) : Prop := v.delta.srem 2 = 0

theorem evenStep_iff : EvenStep v ↔ 2 ∣ v.delta.toInt := by
  unfold EvenStep
  rw [← BitVec.toInt_inj, BitVec.toInt_srem]
  change v.delta.toInt.tmod 2 = 0 ↔ _
  exact Int.dvd_iff_tmod_eq_zero.symm

/-- A shift amount that the code takes: the base of a constant that is not negative. -/
structure Amount (s : Value) : Prop where
  const : s.isConst
  nonneg : 0 ≤ s.base.toInt

theorem Amount.accepted (h : Amount s) : ¬ (¬ s.isConst ∨ s.base.toInt < 0) := by
  rintro (nonconst | neg)
  · exact nonconst h.const
  · exact absurd h.nonneg (not_le.mpr neg)

theorem refused_of_not_amount (h : ¬ Amount s) : ¬ s.isConst ∨ s.base.toInt < 0 := by
  by_cases const : s.isConst
  · exact .inr (not_le.mp fun nonneg => h ⟨const, nonneg⟩)
  · exact .inl const

theorem shl_of_not_amount (h : ¬ Amount s) : v.shl s = all := if_pos (refused_of_not_amount h)

theorem shr_of_not_amount (h : ¬ Amount s) : v.shr s = all := if_pos (refused_of_not_amount h)

theorem proper_of_val (kind : v.kind = .val) : v.kind ≠ .none ∧ v.kind ≠ .all := by
  rw [kind]
  decide

/-- A left shift of a progression. -/
theorem gamma_shl (h : Amount s) (kind : v.kind = .val) :
    (v.shl s).gamma = prog (v.base <<< s.base.toNat) (v.delta <<< s.base.toNat) v.mtimes.toNat := by
  unfold shl
  rw [if_neg h.accepted, if_pos (proper_of_val kind)]
  by_cases const : v.delta = 0 ∧ v.mtimes = 0
  · rw [if_pos const, gamma_const, const.2]
    exact prog_zero_count.symm
  · rw [if_neg const, gamma_val]

/-- The count of the words from the shifted base on, for a step that is not even. -/
def spread (v : Value) (t : Nat) : Word := (v.delta * v.mtimes) >>> t

/-- A right shift of a progression: by the shifted step, or by 1. -/
theorem gamma_shr (h : Amount s) (kind : v.kind = .val) :
    (v.shr s).gamma =
      if EvenStep v then
        prog (v.base.sshiftRight s.base.toNat) (v.delta.sshiftRight s.base.toNat) v.mtimes.toNat
      else prog (v.base.sshiftRight s.base.toNat) 1 (spread v s.base.toNat).toNat := by
  unfold shr
  rw [if_neg h.accepted, if_pos (proper_of_val kind)]
  dsimp only
  by_cases const : v.delta = 0 ∧ v.mtimes = 0
  · have even : EvenStep v := by
      rw [evenStep_iff, const.1]
      exact dvd_zero 2
    rw [if_pos const, if_pos even, gamma_const, const.2]
    exact prog_zero_count.symm
  rw [if_neg const]
  by_cases even : EvenStep v
  · rw [if_pos even, if_pos even, gamma_val]
  · rw [if_neg even, if_neg even, gamma_val]
    rfl

theorem shiftLeft_step (b d : Word) (k t : Nat) : (b + k • d) <<< t = b <<< t + k • d <<< t := by
  rw [BitVec.shiftLeft_eq_mul_twoPow, BitVec.shiftLeft_eq_mul_twoPow, BitVec.shiftLeft_eq_mul_twoPow,
    add_mul, smul_mul_assoc]

/-! ### Right shifts that keep every word -/

/-- No remainder carries: the words of the shifted step, or of the span for a step that
is not even, are the shifted words. A step between `-2 ^ t` and 0 is shifted to -1, and
then a carry does not matter. -/
def Rounds (v : Value) (t : Nat) : Prop :=
  if EvenStep v then
    v.base.toInt % 2 ^ t + v.mtimes.toNat * (v.delta.toInt % 2 ^ t) < 2 ^ t ∨
      v.delta.toInt / 2 ^ t = -1
  else if 0 < v.delta.toInt then
    v.base.toInt % 2 ^ t + v.mtimes.toNat * v.delta.toInt % 2 ^ t < 2 ^ t
  else -(v.mtimes.toNat * v.delta.toInt) ≤ v.base.toInt % 2 ^ t

/-- The ends of a progression that does not wrap are not negative. -/
def NonNegative (v : Value) : Prop :=
  0 ≤ v.base.toInt ∧ 0 ≤ v.base.toInt + v.mtimes.toNat * v.delta.toInt

/-- The shift divides the step, and the shifted progression comes back to its start. -/
def Closes (v : Value) (t : Nat) : Prop :=
  v.delta ≠ 0 ∧ (2 ^ t : Int) ∣ v.delta.toInt ∧
    ∃ m, 0 < m ∧ m ≤ v.mtimes.toNat + 1 ∧ m • v.delta.sshiftRight t = 0

/-- The progressions of which a right shift by `t` keeps the words, for a logical and
for an arithmetic shift. -/
def RightFits (v : Value) (t : Nat) : Prop :=
  (t = 0 ∧ (EvenStep v ∨ OneLap v)) ∨
    (0 < t ∧ ((StaysSigned v ∧ NonNegative v ∧ Rounds v t) ∨ Closes v t))

/-- The words of a right shift. -/
def rightWords (v : Value) (t : Nat) : Set Word :=
  if EvenStep v then prog (v.base.sshiftRight t) (v.delta.sshiftRight t) v.mtimes.toNat
  else prog (v.base.sshiftRight t) 1 (spread v t).toNat

theorem NonNegative.word (nonneg : NonNegative v) (le : k ≤ v.mtimes.toNat) :
    0 ≤ v.base.toInt + k * v.delta.toInt := by
  obtain ⟨first, last⟩ := nonneg
  have le' : (k : Int) ≤ v.mtimes.toNat := Int.ofNat_le.mpr le
  rcases le_total 0 v.delta.toInt with up | down
  · have := mul_nonneg (Int.natCast_nonneg k) up
    omega
  · have := mul_le_mul_of_nonpos_right le' down
    omega

theorem toInt_one : (1 : Word).toInt = 1 := rfl

/-- The count of the span, when it does not wrap. -/
theorem toNat_spread (lap : OneLap v) (t : Nat) :
    (spread v t).toNat = v.mtimes.toNat * v.delta.toNat / 2 ^ t := by
  rw [spread, BitVec.toNat_ushiftRight, BitVec.toNat_mul, mul_comm, Nat.mod_eq_of_lt lap,
    Nat.shiftRight_eq_div_pow]

theorem StaysSigned.oneLap (stays : StaysSigned v) (pos : 0 < v.delta.toInt) : OneLap v := by
  obtain ⟨-, hi⟩ := stays
  have lo := v.base.le_toInt
  have product : ((v.mtimes.toNat * v.delta.toNat : Nat) : Int) = v.mtimes.toNat * v.delta.toInt := by
    rw [Nat.cast_mul, toNat_eq_toInt pos]
  unfold OneLap
  omega

/-- A shift by nothing. -/
private theorem zero_right (fits : EvenStep v ∨ OneLap v)
    (hx : x ∈ prog v.base v.delta v.mtimes.toNat) : x ∈ rightWords v 0 := by
  unfold rightWords
  by_cases even : EvenStep v
  · rw [if_pos even, BitVec.sshiftRight_zero, BitVec.sshiftRight_zero]
    exact hx
  · have lap := fits.resolve_left even
    obtain ⟨k, le, rfl⟩ := hx
    rw [if_neg even, BitVec.sshiftRight_zero, toNat_spread lap, pow_zero, Nat.div_one]
    refine ⟨k * v.delta.toNat, Nat.mul_le_mul_right _ le, ?_⟩
    rw [nsmul_eq_ofNat, nsmul_eq_ofNat (k * v.delta.toNat)]
    exact congrArg _ (congrArg _ (mul_one _).symm)

/-- The arithmetic shift of a word of a progression that does not wrap, without a carry. -/
private theorem asr_mem (stays : StaysSigned v) (rounds : Rounds v t) (le : k ≤ v.mtimes.toNat) :
    (v.base + k • v.delta).sshiftRight t ∈ rightWords v t := by
  have pos : (0 : Int) < 2 ^ t := by positivity
  have word := stays.toInt_step le
  have image : ((v.base + k • v.delta).sshiftRight t).toInt =
      (v.base.toInt + k * v.delta.toInt) / 2 ^ t := by rw [toInt_asr, word]
  unfold rightWords
  unfold Rounds at rounds
  by_cases even : EvenStep v
  · rw [if_pos even] at rounds
    rw [if_pos even]
    rw [ediv_eq pos] at image
    rcases rounds with small | minus
    · have none := (carry_eq_zero_iff pos).mpr small
      have mono := carry_mono (b := v.base.toInt) (d := v.delta.toInt) pos le
      have nonneg := carry_nonneg (b := v.base.toInt) (d := v.delta.toInt) (k := k) pos
      rw [show carry (2 ^ t) v.base.toInt v.delta.toInt k = 0 by omega, add_zero] at image
      refine ⟨k, le, eq_add_nsmul ?_⟩
      rw [image, toInt_asr, toInt_asr]
    · -- With the step -1, what is carried is a number of steps back.
      have nonneg := carry_nonneg (b := v.base.toInt) (d := v.delta.toInt) (k := k) pos
      have most := carry_le (b := v.base.toInt) (d := v.delta.toInt) (k := k) pos
      obtain ⟨c, eqc⟩ := Int.eq_ofNat_of_zero_le nonneg
      refine ⟨k - c, (Nat.sub_le _ _).trans le, eq_add_nsmul ?_⟩
      rw [image, toInt_asr, toInt_asr, minus, eqc, Nat.cast_sub (by omega)]
      ring
  · rw [if_neg even] at rounds
    rw [if_neg even]
    rw [add_ediv_eq pos] at image
    by_cases up : 0 < v.delta.toInt
    · rw [if_pos up] at rounds
      have rem := Int.emod_nonneg v.base.toInt pos.ne'
      have sum : 0 ≤ v.base.toInt % 2 ^ t + k * v.delta.toInt := by positivity
      obtain ⟨c, eqc⟩ := Int.eq_ofNat_of_zero_le (Int.ediv_nonneg sum pos.le)
      refine ⟨c, ?_, eq_add_nsmul ?_⟩
      · -- The last word is the farthest, and it does not carry.
        have last : (v.base.toInt % 2 ^ t + k * v.delta.toInt) / 2 ^ t ≤
            v.mtimes.toNat * v.delta.toInt / 2 ^ t := by
          have le' : (k : Int) ≤ v.mtimes.toNat := Int.ofNat_le.mpr le
          have most := mul_le_mul_of_nonneg_right le' up.le
          rw [Int.ediv_le_iff_le_mul pos]
          have := Int.emod_add_mul_ediv (v.mtimes.toNat * v.delta.toInt) (2 ^ t)
          rw [mul_comm _ ((2 : Int) ^ t)]
          omega
        have count : ((spread v t).toNat : Int) = v.mtimes.toNat * v.delta.toInt / 2 ^ t := by
          rw [toNat_spread (stays.oneLap up), Int.natCast_ediv, Nat.cast_mul, toNat_eq_toInt up]
          push_cast
          rfl
        omega
      · rw [image, toInt_asr, eqc, toInt_one, mul_one]
    · rw [if_neg up] at rounds
      have rem := Int.emod_lt_of_pos v.base.toInt pos
      have le' : (k : Int) ≤ v.mtimes.toNat := Int.ofNat_le.mpr le
      have most := mul_le_mul_of_nonpos_right le' (not_lt.mp up)
      have least := mul_nonpos_of_nonneg_of_nonpos (Int.natCast_nonneg k) (not_lt.mp up)
      have none : (v.base.toInt % 2 ^ t + k * v.delta.toInt) / 2 ^ t = 0 :=
        Int.ediv_eq_zero_of_lt (by omega) (by omega)
      refine ⟨0, Nat.zero_le _, eq_add_nsmul ?_⟩
      rw [image, none, toInt_asr, Nat.cast_zero, zero_mul]

/-- A nonzero step shifted without remainder has the quotient of the words as one of its
multiples. -/
private theorem quotient_multiple {d : Word} (ne : d ≠ 0) (dvd : (2 ^ t : Int) ∣ d.toInt) (lt : t < 32) :
    ∃ w : Int, BitVec.ofNat 32 (2 ^ (32 - t)) = w • d.sshiftRight t := by
  obtain ⟨q, eq⟩ := dvd
  have pos : (0 : Int) < 2 ^ t := by positivity
  have image : (d.sshiftRight t).toInt = q := by
    rw [toInt_asr, eq, Int.mul_ediv_cancel_left _ pos.ne']
  have nonzero : q ≠ 0 := by
    rintro rfl
    exact ne (mag_eq_zero.mp (by rw [mag, eq, mul_zero]; rfl))
  have powers : (2 : Int) ^ t * 2 ^ (32 - t) = 2 ^ 32 := by
    rw [← pow_add]
    congr 1
    omega
  -- The gcd of the step and `2 ^ 32` is a power of 2 below the quotient.
  obtain ⟨i, lei, gcd⟩ := (Nat.dvd_prime_pow Nat.prime_two).mp (Nat.gcd_dvd_right q.natAbs (2 ^ 32))
  have small : q.natAbs < 2 ^ (32 - t) := by
    have lo := d.le_toInt
    have hi := d.toInt_lt
    have size : 2 ^ t * q.natAbs < 2 ^ t * 2 ^ (32 - t) := by
      rw [← pow_add, show t + (32 - t) = 32 by omega]
      have := congrArg Int.natAbs eq
      rw [Int.natAbs_mul, Int.natAbs_pow] at this
      change d.toInt.natAbs = 2 ^ t * q.natAbs at this
      omega
    exact Nat.lt_of_mul_lt_mul_left size
  have divides : 2 ^ i ∣ 2 ^ (32 - t) := by
    have le := Nat.le_of_dvd (Int.natAbs_pos.mpr nonzero) (gcd ▸ Nat.gcd_dvd_left q.natAbs (2 ^ 32))
    have lt' := (Nat.pow_lt_pow_iff_right one_lt_two).mp (le.trans_lt small)
    exact pow_dvd_pow 2 lt'.le
  obtain ⟨e, eqe⟩ := divides
  have bezout := Int.gcd_eq_gcd_ab q (2 ^ 32)
  rw [show Int.gcd q (2 ^ 32) = 2 ^ i from gcd] at bezout
  refine ⟨Int.gcdA q (2 ^ 32) * e, ?_⟩
  have sum : ((2 ^ (32 - t) : Nat) : Int) =
      Int.gcdA q (2 ^ 32) * e * q + 2 ^ 32 * (Int.gcdB q (2 ^ 32) * e) := by
    rw [eqe, Nat.cast_mul, bezout]
    ring
  have period : BitVec.ofInt 32 (2 ^ 32 * (Int.gcdB q (2 ^ 32) * e)) = 0 := by
    rw [BitVec.ofInt_mul]
    exact BitVec.zero_mul
  rw [zsmul_eq, ← BitVec.ofInt_natCast, sum, BitVec.ofInt_add, period, add_zero,
    BitVec.ofInt_mul _ q, ← image, BitVec.ofInt_toInt]

/-- A shifted progression that has come back to its start holds the shifted words,
whatever they wrap. -/
private theorem closed_mem (closes : Closes v t) (lt : t < 32)
    (hx : x ∈ prog v.base v.delta v.mtimes.toNat) :
    x.sshiftRight t ∈ prog (v.base.sshiftRight t) (v.delta.sshiftRight t) v.mtimes.toNat ∧
      x >>> t ∈ prog (v.base.sshiftRight t) (v.delta.sshiftRight t) v.mtimes.toNat := by
  obtain ⟨ne, dvd, m, posM, lem, closed⟩ := closes
  obtain ⟨w, multiple⟩ := quotient_multiple ne dvd lt
  obtain ⟨k, le, eq⟩ := hx
  obtain ⟨z, eqz⟩ := exists_toInt eq
  have pos : (0 : Int) < 2 ^ t := by positivity
  have powers : (2 : Int) ^ t * 2 ^ (32 - t) = 2 ^ 32 := by
    rw [← pow_add]
    congr 1
    omega
  have reach : ∀ j : Int, v.base.sshiftRight t + j • v.delta.sshiftRight t ∈
      prog (v.base.sshiftRight t) (v.delta.sshiftRight t) v.mtimes.toNat := fun j =>
    prog_mono (Nat.sub_le_of_le_add lem) (zsmul_mem_of_period posM closed j)
  have arithmetic : x.sshiftRight t = v.base.sshiftRight t + (k + z * w) • v.delta.sshiftRight t := by
    obtain ⟨q, eqd⟩ := dvd
    have step : (v.delta.sshiftRight t).toInt = q := by
      rw [toInt_asr, eqd, Int.mul_ediv_cancel_left _ pos.ne']
    have whole : x.toInt = v.base.toInt + 2 ^ t * (k * q + 2 ^ (32 - t) * z) := by
      rw [eqz, eqd, ← powers]
      ring
    have image : (x.sshiftRight t).toInt =
        (v.base.sshiftRight t).toInt + k * q + ((2 ^ (32 - t) : Nat) : Int) * z := by
      rw [toInt_asr, whole, Int.add_mul_ediv_left _ _ pos.ne', toInt_asr, add_assoc]
      push_cast
      rfl
    rw [← BitVec.ofInt_toInt (x := x.sshiftRight t), image, BitVec.ofInt_add, BitVec.ofInt_add,
      BitVec.ofInt_toInt, BitVec.ofInt_mul, BitVec.ofInt_mul, BitVec.ofInt_natCast (n := 2 ^ (32 - t)),
      multiple, ← step, BitVec.ofInt_toInt, add_smul, mul_smul, zsmul_eq z, zsmul_eq k, add_assoc,
      mul_comm (w • _)]
  refine ⟨arithmetic ▸ reach _, ?_⟩
  by_cases nonneg : 0 ≤ x.toInt
  · rw [lsr_of_nonneg nonneg, arithmetic]
    exact reach _
  · have logical : x >>> t = x.sshiftRight t + BitVec.ofNat 32 (2 ^ (32 - t)) := by
      have image := toNat_lsr_of_neg (not_le.mp nonneg) t
      rw [← powers, Int.add_mul_ediv_left _ _ pos.ne', ← toInt_asr] at image
      calc x >>> t = BitVec.ofInt 32 ((x >>> t).toNat : Int) := by
            rw [BitVec.ofInt_natCast, BitVec.ofNat_toNat, BitVec.setWidth_eq]
        _ = x.sshiftRight t + BitVec.ofNat 32 (2 ^ (32 - t)) := by
            rw [image, BitVec.ofInt_add, BitVec.ofInt_toInt, ← BitVec.ofInt_natCast]
            push_cast
            rfl
    rw [logical, arithmetic, multiple, add_assoc, ← add_smul]
    exact reach _

theorem right_sound (fits : RightFits v t) (lt : t < 32)
    (hx : x ∈ prog v.base v.delta v.mtimes.toNat) :
    x >>> t ∈ rightWords v t ∧ x.sshiftRight t ∈ rightWords v t := by
  rcases fits with ⟨rfl, fits⟩ | ⟨pos, ⟨stays, nonneg, rounds⟩ | closes⟩
  · have same := zero_right fits hx
    rw [BitVec.sshiftRight_zero, BitVec.ushiftRight_zero]
    exact ⟨same, same⟩
  · obtain ⟨k, le, rfl⟩ := hx
    have word : 0 ≤ (v.base + k • v.delta).toInt := by
      rw [stays.toInt_step le]
      exact nonneg.word le
    have arithmetic := asr_mem stays rounds le
    rw [lsr_of_nonneg word]
    exact ⟨arithmetic, arithmetic⟩
  · have even : EvenStep v := evenStep_iff.mpr ((dvd_pow_self 2 pos.ne').trans closes.2.1)
    unfold rightWords
    rw [if_pos even]
    exact (closed_mem closes lt hx).symm

/-! ### Right shifts that lose a word -/

/-- The words of a span, which can pass the greatest signed word. -/
theorem mem_prog_one {b : Word} {m : Nat} (small : m < 2 ^ 32) :
    y ∈ prog b 1 m ↔ (b.toInt ≤ y.toInt ∧ y.toInt - b.toInt ≤ m) ∨
      (y.toInt < b.toInt ∧ y.toInt - b.toInt + 2 ^ 32 ≤ m) := by
  have loY := y.le_toInt
  have hiY := y.toInt_lt
  have loB := b.le_toInt
  have hiB := b.toInt_lt
  constructor
  · rintro ⟨i, le, eq⟩
    obtain ⟨z, eqz⟩ := exists_toInt eq
    rw [toInt_one, mul_one] at eqz
    omega
  · rintro (⟨above, near⟩ | ⟨below, near⟩)
    · refine ⟨(y.toInt - b.toInt).toNat, by omega, eq_add_nsmul ?_⟩
      rw [toInt_one, mul_one]
      omega
    · refine ⟨(y.toInt - b.toInt + 2 ^ 32).toNat, by omega, ?_⟩
      have back : (y.toInt - b.toInt + 2 ^ 32).toNat = (y - b).toNat := by
        rw [BitVec.toNat_sub]
        rw [toInt_eq, toInt_eq] at *
        have := y.isLt
        have := b.isLt
        split at below <;> split at below <;> omega
      rw [back, toNat_nsmul, one_mul, add_sub_cancel]

/-- The quotients of words, by a power `2 ^ t` of which `2 ^ 31` is `h` times. -/
private theorem quotient_bounds {T h : Int} (pos : 0 < T) (half : T * h = 2 ^ 31) {a : Int}
    (lo : -2 ^ 31 ≤ a) (hi : a < 2 ^ 31) : -h ≤ a / T ∧ a / T < h := by
  rw [← half] at lo hi
  constructor
  · rw [Int.le_ediv_iff_mul_le pos, neg_mul, mul_comm]
    exact lo
  · rw [Int.ediv_lt_iff_lt_mul pos, mul_comm]
    exact hi

private theorem halves (posT : 0 < t) (lt : t < 32) :
    ∃ h : Int, 0 < h ∧ h ≤ 2 ^ 30 ∧ (2 : Int) ^ t * h = 2 ^ 31 ∧ (1 < t → h ≤ 2 ^ 29) := by
  refine ⟨2 ^ (31 - t), by positivity, ?_, ?_, fun more => ?_⟩
  · exact pow_le_pow_right₀ one_le_two (by omega)
  · rw [← pow_add, show t + (31 - t) = 31 by omega]
  · exact pow_le_pow_right₀ one_le_two (by omega)

/-- A logical shift of a negative word is in the upper half of the quotients. -/
private theorem lsr_of_neg {h : Int} (half : (2 : Int) ^ t * h = 2 ^ 31)
    (small : h ≤ 2 ^ 30) (neg : x.toInt < 0) :
    (x >>> t).toInt = x.toInt / 2 ^ t + 2 * h ∧ h ≤ (x >>> t).toInt ∧ (x >>> t).toInt < 2 * h := by
  have pos : (0 : Int) < 2 ^ t := by positivity
  have bounds := quotient_bounds pos half x.le_toInt x.toInt_lt
  have below : x.toInt / 2 ^ t < 0 := Int.ediv_neg_of_neg_of_pos neg pos
  have image := toNat_lsr_of_neg neg t
  rw [show (2 : Int) ^ 32 = 2 ^ t * (2 * h) by rw [mul_left_comm, half]; rfl,
    Int.add_mul_ediv_left _ _ pos.ne'] at image
  rw [toInt_eq]
  split <;> omega

/-- A word of a progression that does not wrap is negative when one of its ends is. -/
private theorem exists_neg (nonneg : ¬ NonNegative v) (stays : StaysSigned v) :
    ∃ k, (k = 0 ∨ k = v.mtimes.toNat) ∧ (v.base + k • v.delta).toInt < 0 := by
  by_cases first : 0 ≤ v.base.toInt
  · refine ⟨v.mtimes.toNat, .inr rfl, ?_⟩
    rw [stays.toInt_step le_rfl]
    exact not_le.mp fun last => nonneg ⟨first, last⟩
  · refine ⟨0, .inl rfl, ?_⟩
    rw [zero_smul, add_zero]
    exact not_le.mp first

private theorem le_of_end (h : k = 0 ∨ k = n) : k ≤ n := by
  rcases h with rfl | rfl
  · exact Nat.zero_le n
  · exact le_rfl

/-- An even step downward takes fewer than `2 ^ 31` steps. -/
private theorem even_count (stays : StaysSigned v) (even : EvenStep v) (down : v.delta.toInt < 0) :
    (v.mtimes.toNat : Int) < 2 ^ 31 := by
  obtain ⟨q, eq⟩ := evenStep_iff.mp even
  have lo := stays.1
  have hi := v.base.toInt_lt
  have steps : (v.mtimes.toNat : Int) * v.delta.toInt ≤ v.mtimes.toNat * (-2) :=
    mul_le_mul_of_nonneg_left (by omega) (Int.natCast_nonneg _)
  omega

/-- With an even step the logical shift of a negative word is lost. -/
private theorem even_nonNegative (stays : StaysSigned v) (even : EvenStep v) (posT : 0 < t)
    (lt : t < 32)
    (sound : ∀ k ≤ v.mtimes.toNat, (v.base + k • v.delta) >>> t ∈
      prog (v.base.sshiftRight t) (v.delta.sshiftRight t) v.mtimes.toNat) : NonNegative v := by
  by_contra nonneg
  obtain ⟨h, posH, small, half, smaller⟩ := halves posT lt
  have pos : (0 : Int) < 2 ^ t := by positivity
  obtain ⟨k, theEnd, neg⟩ := exists_neg nonneg stays
  obtain ⟨-, upper, most⟩ := lsr_of_neg half small neg
  obtain ⟨i, lei, eq⟩ := sound k (le_of_end theEnd)
  obtain ⟨w, eqw⟩ := exists_toInt eq
  rw [toInt_asr, toInt_asr] at eqw
  have lei' : (i : Int) ≤ v.mtimes.toNat := Int.ofNat_le.mpr lei
  have first := quotient_bounds pos half v.base.le_toInt v.base.toInt_lt
  have last := quotient_bounds pos half stays.1 stays.2
  rw [ediv_eq pos] at last
  have carried := carry_nonneg (b := v.base.toInt) (d := v.delta.toInt) (k := v.mtimes.toNat) pos
  rcases le_or_gt 0 (v.delta.toInt / 2 ^ t) with up | down
  · have least := mul_nonneg (Int.natCast_nonneg i) up
    have greatest := mul_le_mul_of_nonneg_right lei' up
    omega
  · have greatest := mul_nonpos_of_nonneg_of_nonpos (Int.natCast_nonneg i) down.le
    have least := mul_le_mul_of_nonpos_right lei' down.le
    have stepDown : v.delta.toInt < 0 :=
      not_le.mp fun up => absurd (Int.ediv_nonneg up pos.le) (not_le.mpr down)
    have count := even_count stays even stepDown
    have carry := carry_le (b := v.base.toInt) (d := v.delta.toInt) (k := v.mtimes.toNat) pos
    rcases Nat.eq_or_lt_of_le (Nat.succ_le_of_lt posT) with one | more
    · have none := carry_of_dvd (b := v.base.toInt) (k := v.mtimes.toNat) pos
        (show (2 ^ t : Int) ∣ v.delta.toInt by rw [← one, pow_one]; exact evenStep_iff.mp even)
      omega
    · have := smaller more
      omega

/-- The shifted steps of a progression downward to a word that is not negative. -/
private theorem far_lt (nonneg : NonNegative v) (down : v.delta.toInt ≤ -2) (posT : 0 < t) :
    -(v.mtimes.toNat * (v.delta.toInt / 2 ^ t)) ≤ 2 ^ 31 := by
  have pos : (0 : Int) < 2 ^ t := by positivity
  have two : (2 : Int) ≤ 2 ^ t := by
    calc (2 : Int) = 2 ^ 1 := (pow_one 2).symm
      _ ≤ 2 ^ t := pow_le_pow_right₀ one_le_two posT
  have hiB := v.base.toInt_lt
  have last := nonneg.2
  have count := mul_le_mul_of_nonneg_left down (Int.natCast_nonneg v.mtimes.toNat)
  have rem := Int.emod_add_mul_ediv v.delta.toInt (2 ^ t)
  have remLt := Int.emod_lt_of_pos v.delta.toInt pos
  -- `2 ^ t` times the shifted steps exceed the steps by less than `2 ^ t` each.
  have scaled : 2 ^ t * (-(v.mtimes.toNat * (v.delta.toInt / 2 ^ t)) - v.mtimes.toNat) ≤ 2 ^ 31 := by
    have step : -(2 ^ t * (v.delta.toInt / 2 ^ t)) - 2 ^ t ≤ -v.delta.toInt := by omega
    have steps := mul_le_mul_of_nonneg_left step (Int.natCast_nonneg v.mtimes.toNat)
    calc 2 ^ t * (-(v.mtimes.toNat * (v.delta.toInt / 2 ^ t)) - v.mtimes.toNat)
        = v.mtimes.toNat * (-(2 ^ t * (v.delta.toInt / 2 ^ t)) - 2 ^ t) := by ring
      _ ≤ v.mtimes.toNat * -v.delta.toInt := steps
      _ ≤ 2 ^ 31 := by
          rw [mul_neg]
          omega
  by_contra far
  have above : 2 ^ 30 < -(v.mtimes.toNat * (v.delta.toInt / 2 ^ t)) - (v.mtimes.toNat : Int) := by omega
  have twice := mul_le_mul_of_nonneg_right two (by omega :
    0 ≤ -(v.mtimes.toNat * (v.delta.toInt / 2 ^ t)) - (v.mtimes.toNat : Int))
  omega

/-- With an even step, a carry leads to a word that is not one of the shifted step. -/
private theorem even_rounds (stays : StaysSigned v) (nonneg : NonNegative v) (even : EvenStep v)
    (posT : 0 < t) (lt : t < 32)
    (sound : ∀ k ≤ v.mtimes.toNat, (v.base + k • v.delta).sshiftRight t ∈
      prog (v.base.sshiftRight t) (v.delta.sshiftRight t) v.mtimes.toNat) : Rounds v t := by
  have pos : (0 : Int) < 2 ^ t := by positivity
  unfold Rounds
  rw [if_pos even, ← carry_eq_zero_iff pos]
  by_contra! carries
  obtain ⟨carried, minus⟩ := carries
  obtain ⟨h, posH, small, half, -⟩ := halves posT lt
  have hit : ∀ k ≤ v.mtimes.toNat, ∃ i ≤ v.mtimes.toNat, ∃ w : Int,
      v.base.toInt / 2 ^ t + k * (v.delta.toInt / 2 ^ t) + carry (2 ^ t) v.base.toInt v.delta.toInt k =
        v.base.toInt / 2 ^ t + i * (v.delta.toInt / 2 ^ t) + 2 ^ 32 * w := by
    intro k le
    obtain ⟨i, lei, eq⟩ := sound k le
    obtain ⟨w, eqw⟩ := exists_toInt eq
    rw [toInt_asr, toInt_asr, toInt_asr, stays.toInt_step le, ediv_eq pos] at eqw
    exact ⟨i, lei, w, eqw⟩
  rcases le_or_gt 0 v.delta.toInt with up | down
  · -- Upward, the last word is past the last step.
    obtain ⟨i, lei, w, eqw⟩ := hit _ le_rfl
    have lei' : (i : Int) ≤ v.mtimes.toNat := Int.ofNat_le.mpr lei
    have quotient := Int.ediv_nonneg up pos.le
    have least := mul_nonneg (Int.natCast_nonneg i) quotient
    have greatest := mul_le_mul_of_nonneg_right lei' quotient
    have last := quotient_bounds pos half stays.1 stays.2
    rw [ediv_eq pos] at last
    have base := Int.ediv_nonneg nonneg.1 pos.le
    have more := carry_nonneg (b := v.base.toInt) (d := v.delta.toInt) (k := v.mtimes.toNat) pos
    omega
  · -- Downward, a word with the carry 1 is between two steps.
    obtain ⟨k, le, one⟩ := exists_carry_eq_one pos carried
    obtain ⟨i, lei, w, eqw⟩ := hit k le
    rw [one] at eqw
    obtain ⟨q, eqq⟩ := evenStep_iff.mp even
    have quotient : v.delta.toInt / 2 ^ t < 0 := Int.ediv_neg_of_neg_of_pos down pos
    have lei' : (i : Int) ≤ v.mtimes.toNat := Int.ofNat_le.mpr lei
    have lek' : (k : Int) ≤ v.mtimes.toNat := Int.ofNat_le.mpr le
    have span := far_lt nonneg (by omega) posT
    have product : (k - i : Int) * (v.delta.toInt / 2 ^ t) = 2 ^ 32 * w - 1 := by
      rw [sub_mul]
      omega
    have greatest := mul_le_mul_of_nonpos_right (show -(v.mtimes.toNat : Int) ≤ k - i by omega)
      quotient.le
    have least := mul_le_mul_of_nonpos_right (show (k - i : Int) ≤ v.mtimes.toNat by omega) quotient.le
    rw [neg_mul] at greatest
    have zero : w = 0 := by omega
    rw [zero, mul_zero, zero_sub, mul_comm] at product
    rcases Int.eq_one_or_neg_one_of_mul_eq_neg_one product with eq | eq
    · omega
    · exact minus eq

theorem spread_lt {h : Int} (half : (2 : Int) ^ t * h = 2 ^ 31) : ((spread v t).toNat : Int) < 2 * h := by
  have pos : (0 : Int) < 2 ^ t := by positivity
  have isLt := (v.delta * v.mtimes).isLt
  rw [spread, BitVec.toNat_ushiftRight, Nat.shiftRight_eq_div_pow]
  push_cast
  have total : 2 * h * 2 ^ t = 2 ^ 32 := by
    rw [mul_assoc, mul_comm h, half]
    rfl
  rw [Int.ediv_lt_iff_lt_mul pos, total]
  omega

section

variable (stays : StaysSigned v)
include stays

/-- The last word is not shifted below the base: the span does not reach it the other
way round. -/
private theorem odd_above (posT : 0 < t) (lt : t < 32)
    (sound : (v.base + v.mtimes.toNat • v.delta).sshiftRight t ∈
      prog (v.base.sshiftRight t) 1 (spread v t).toNat) :
    0 ≤ (v.base.toInt % 2 ^ t + v.mtimes.toNat * v.delta.toInt) / 2 ^ t ∧
      (v.base.toInt % 2 ^ t + v.mtimes.toNat * v.delta.toInt) / 2 ^ t ≤ (spread v t).toNat := by
  have pos : (0 : Int) < 2 ^ t := by positivity
  obtain ⟨h, posH, small, half, -⟩ := halves posT lt
  have reach := (mem_prog_one (spread v t).isLt).mp sound
  rw [toInt_asr, toInt_asr, stays.toInt_step le_rfl] at reach
  have first := quotient_bounds pos half v.base.le_toInt v.base.toInt_lt
  have last := quotient_bounds pos half stays.1 stays.2
  have span := spread_lt (v := v) half
  rw [add_ediv_eq pos] at reach last
  omega

/-- With an odd step. -/
private theorem odd_rounds (odd : ¬ EvenStep v) (posT : 0 < t) (lt : t < 32)
    (sound : (v.base + v.mtimes.toNat • v.delta).sshiftRight t ∈
      prog (v.base.sshiftRight t) 1 (spread v t).toNat) : Rounds v t := by
  have pos : (0 : Int) < 2 ^ t := by positivity
  obtain ⟨above, near⟩ := odd_above stays posT lt sound
  unfold Rounds
  rw [if_neg odd]
  by_cases up : 0 < v.delta.toInt
  · rw [if_pos up]
    rw [toNat_spread (stays.oneLap up), Int.natCast_ediv, Nat.cast_mul, toNat_eq_toInt up] at near
    push_cast at near
    by_contra carries
    have rem := Int.emod_add_mul_ediv (v.mtimes.toNat * v.delta.toInt) (2 ^ t)
    have more : v.mtimes.toNat * v.delta.toInt / 2 ^ t + 1 ≤
        (v.base.toInt % 2 ^ t + v.mtimes.toNat * v.delta.toInt) / 2 ^ t := by
      rw [Int.le_ediv_iff_mul_le pos, add_mul, one_mul, mul_comm _ ((2 : Int) ^ t)]
      omega
    omega
  · rw [if_neg up]
    by_contra! below
    have neg : (v.base.toInt % 2 ^ t + v.mtimes.toNat * v.delta.toInt) / 2 ^ t < 0 :=
      Int.ediv_neg_of_neg_of_pos (by omega) pos
    omega

private theorem odd_nonNegative (odd : ¬ EvenStep v) (posT : 0 < t) (lt : t < 32)
    (rounds : Rounds v t)
    (sound : ∀ k ≤ v.mtimes.toNat, (v.base + k • v.delta) >>> t ∈
      prog (v.base.sshiftRight t) 1 (spread v t).toNat) : NonNegative v := by
  by_contra nonneg
  have pos : (0 : Int) < 2 ^ t := by positivity
  obtain ⟨h, posH, small, half, -⟩ := halves posT lt
  obtain ⟨k, theEnd, neg⟩ := exists_neg nonneg stays
  obtain ⟨image, upper, most⟩ := lsr_of_neg half small neg
  have reach := (mem_prog_one (spread v t).isLt).mp (sound k (le_of_end theEnd))
  rw [toInt_asr] at reach
  have first := quotient_bounds pos half v.base.le_toInt v.base.toInt_lt
  have last := quotient_bounds pos half stays.1 stays.2
  have span := spread_lt (v := v) half
  unfold Rounds at rounds
  rw [if_neg odd] at rounds
  by_cases up : 0 < v.delta.toInt
  · rw [toNat_spread (stays.oneLap up), Int.natCast_ediv, Nat.cast_mul, toNat_eq_toInt up] at reach
    push_cast at reach
    rw [add_ediv_eq pos] at last
    have rem := Int.emod_nonneg v.base.toInt pos.ne'
    have mono : v.mtimes.toNat * v.delta.toInt / 2 ^ t ≤
        (v.base.toInt % 2 ^ t + v.mtimes.toNat * v.delta.toInt) / 2 ^ t :=
      Int.ediv_le_ediv pos (by omega)
    omega
  · rw [if_neg up] at rounds
    rw [stays.toInt_step (le_of_end theEnd), add_ediv_eq pos] at image
    have remLt := Int.emod_lt_of_pos v.base.toInt pos
    have same : (v.base.toInt % 2 ^ t + k * v.delta.toInt) / 2 ^ t = 0 := by
      have down := mul_nonpos_of_nonneg_of_nonpos (Int.natCast_nonneg k) (not_lt.mp up)
      refine Int.ediv_eq_zero_of_lt ?_ (by omega)
      rcases theEnd with rfl | rfl
      · have := Int.emod_nonneg v.base.toInt pos.ne'
        simpa using this
      · omega
    omega

/-- Without a shift, an odd step downward is taken at most once. -/
private theorem zero_fits (sound : ∀ k ≤ v.mtimes.toNat, v.base + k • v.delta ∈ rightWords v 0) :
    EvenStep v ∨ OneLap v := by
  by_cases even : EvenStep v
  · exact .inl even
  right
  by_cases up : 0 < v.delta.toInt
  · exact stays.oneLap up
  have down : v.delta.toInt < 0 := by
    refine lt_of_le_of_ne (not_lt.mp up) fun zero => even ?_
    rw [evenStep_iff, zero]
    exact dvd_zero 2
  by_contra far
  have many : 2 ≤ v.mtimes.toNat := by
    by_contra few
    have isLt := v.delta.isLt
    have le := Nat.mul_le_mul_right v.delta.toNat (show v.mtimes.toNat ≤ 1 by omega)
    unfold OneLap at far
    omega
  have reach := sound 1 (by omega)
  unfold rightWords at reach
  rw [if_neg even, BitVec.sshiftRight_zero] at reach
  obtain ⟨m, le, eq⟩ := reach
  rw [one_smul, add_right_inj, nsmul_eq_ofNat, show (1 : Word).toNat = 1 from rfl, mul_one] at eq
  have isLt := (spread v 0).isLt
  have first := congrArg BitVec.toNat eq
  rw [BitVec.toNat_ofNat, Nat.mod_eq_of_lt (by omega)] at first
  -- The count is the distance of the last word, read upward.
  have steps := mul_le_mul_of_nonpos_right (show (2 : Int) ≤ v.mtimes.toNat by omega) down.le
  have lo := stays.1
  have hi := v.base.toInt_lt
  have unsigned : (v.delta.toNat : Int) = v.delta.toInt + 2 ^ 32 := by
    rw [toInt_eq] at *
    split at down <;> omega
  have count : ((spread v 0).toNat : Int) = v.mtimes.toNat * v.delta.toInt + 2 ^ 32 := by
    rw [spread, BitVec.ushiftRight_zero, BitVec.toNat_mul]
    push_cast
    rw [unsigned, add_mul, mul_comm v.delta.toInt]
    omega
  omega

/-- A right shift keeps the words of a progression that does not wrap, for a logical and
for an arithmetic shift, only where it fits. -/
theorem right_complete (lt : t < 32)
    (sound : ∀ x ∈ prog v.base v.delta v.mtimes.toNat,
      x >>> t ∈ rightWords v t ∧ x.sshiftRight t ∈ rightWords v t) : RightFits v t := by
  have logical : ∀ k ≤ v.mtimes.toNat, (v.base + k • v.delta) >>> t ∈ rightWords v t :=
    fun k le => (sound _ (add_nsmul_mem le)).1
  have arithmetic : ∀ k ≤ v.mtimes.toNat, (v.base + k • v.delta).sshiftRight t ∈ rightWords v t :=
    fun k le => (sound _ (add_nsmul_mem le)).2
  rcases Nat.eq_zero_or_pos t with rfl | posT
  · simp only [BitVec.ushiftRight_zero] at logical
    exact .inl ⟨rfl, zero_fits stays logical⟩
  refine .inr ⟨posT, .inl ⟨stays, ?_⟩⟩
  unfold rightWords at logical arithmetic
  by_cases even : EvenStep v
  · simp only [if_pos even] at logical arithmetic
    have nonneg := even_nonNegative stays even posT lt logical
    exact ⟨nonneg, even_rounds stays nonneg even posT lt arithmetic⟩
  · simp only [if_neg even] at logical arithmetic
    have rounds := odd_rounds stays even posT lt (arithmetic _ le_rfl)
    exact ⟨odd_nonNegative stays even posT lt rounds logical, rounds⟩

end

/-! ### Shift amounts -/

/-- The operands of which the shifts keep every word. -/
def ShiftFits (v s : Value) : Prop :=
  v.kind ≠ .val ∨ s.kind = .none ∨ s.kind = .reg ∨ ¬ Amount s ∨
    (s.kind = .val ∧ (32 ≤ s.base.toNat ∨ RightFits v s.base.toNat))

theorem ShiftFits.progression (fits : ShiftFits v s) (val : v.kind = .val) (amount : Amount s)
    (hy : y ∈ s.gamma) : s.kind = .val ∧ (32 ≤ s.base.toNat ∨ RightFits v s.base.toNat) := by
  rcases fits with h | h | h | h | h
  · exact absurd val h
  · rw [gamma_eq_empty (by rw [h]; decide) (by rw [h]; decide)] at hy
    exact absurd hy (Set.notMem_empty y)
  · rw [gamma_eq_empty (by rw [h]; decide) (by rw [h]; decide)] at hy
    exact absurd hy (Set.notMem_empty y)
  · exact absurd amount h
  · exact h

theorem shl_of_all (top : v.kind = .all) (amount : Amount s) : v.shl s = v := by
  unfold shl
  rw [if_neg amount.accepted, if_neg fun h => h.2 top]

theorem shr_of_all (top : v.kind = .all) (amount : Amount s) : v.shr s = v := by
  unfold shr
  rw [if_neg amount.accepted, if_neg fun h => h.2 top]

/-- A left shift keeps every word. -/
theorem shl_sound (fits : ShiftFits v s) (hx : x ∈ v.gamma) (hy : y ∈ s.gamma) :
    x <<< y.toNat ∈ (v.shl s).gamma := by
  by_cases amount : Amount s
  · rcases kind_of_mem hx with val | top
    · obtain ⟨valS, -⟩ := fits.progression val amount hy
      cases gamma_subset_const (proper_of_val valS).2 amount.const hy
      rw [gamma_of_val val] at hx
      obtain ⟨k, le, rfl⟩ := hx
      rw [gamma_shl amount val, shiftLeft_step]
      exact add_nsmul_mem le
    · rw [shl_of_all top amount, gamma_of_all top]
      exact Set.mem_univ _
  · rw [shl_of_not_amount amount]
    exact Set.mem_univ _

/-- The right shifts of a word that is in the value, by an amount that is in the other. -/
theorem shr_sound (fits : ShiftFits v s) (hx : x ∈ v.gamma) (hy : y ∈ s.gamma) (lt : y.toNat < 32) :
    x >>> y.toNat ∈ (v.shr s).gamma ∧ x.sshiftRight y.toNat ∈ (v.shr s).gamma := by
  by_cases amount : Amount s
  · rcases kind_of_mem hx with val | top
    · obtain ⟨valS, fits⟩ := fits.progression val amount hy
      cases gamma_subset_const (proper_of_val valS).2 amount.const hy
      rw [gamma_of_val val] at hx
      rw [gamma_shr amount val]
      exact right_sound (fits.resolve_left (not_le.mpr lt)) lt hx
    · rw [shr_of_all top amount, gamma_of_all top]
      exact ⟨Set.mem_univ _, Set.mem_univ _⟩
  · rw [shr_of_not_amount amount]
    exact ⟨Set.mem_univ _, Set.mem_univ _⟩

/-- On a progression that does not wrap, no other operands will do. -/
theorem shr_complete (stays : StaysSigned v) (top : s.kind = .all → s = all)
    (sound : ∀ x ∈ v.gamma, ∀ y ∈ s.gamma, y.toNat < 32 →
      x >>> y.toNat ∈ (v.shr s).gamma ∧ x.sshiftRight y.toNat ∈ (v.shr s).gamma) :
    ShiftFits v s := by
  unfold ShiftFits
  by_contra! no
  obtain ⟨val, nonempty, nonreg, amount, loses⟩ := no
  have valS : s.kind = .val := by
    cases kind : s.kind with
    | none => exact absurd kind nonempty
    | reg => exact absurd kind nonreg
    | val => rfl
    | all =>
      rw [top kind] at amount
      exact absurd amount.const (by decide)
  obtain ⟨lt, unfit⟩ := loses valS
  have base : s.base ∈ s.gamma := by
    rw [gamma_of_val valS]
    exact base_mem _ _ _
  refine unfit (right_complete stays lt fun x hx => ?_)
  rw [← gamma_of_val val] at hx
  have both := sound x hx s.base base lt
  rwa [gamma_shr amount val] at both

theorem shr_ne_none (val : v.kind = .val) : v.shr s ≠ none := by
  intro eq
  by_cases amount : Amount s
  · have base : v.base.sshiftRight s.base.toNat ∈ (none : Value).gamma := by
      rw [← eq, gamma_shr amount val]
      split
      · exact base_mem _ _ _
      · exact base_mem _ _ _
    exact absurd base (Set.notMem_empty _)
  · rw [shr_of_not_amount amount] at eq
    cases eq

end Value

/-! ### The transfers -/

namespace Problem

open Sem Value

variable {proc : Process} {s : State} {v : Value} {r x : Word}

/-- What is read of a register that was set. -/
theorem gamma_get_set (reached : s.first ≠ .none) (stored : v ≠ .none) (r : Word) :
    (get (set s r v) r).gamma = v.gamma := by
  have nall : (⟨.reg, r, 0, 0⟩ : Value) ≠ .all := fun eq => nomatch congrArg Value.kind eq
  have known := (State.known_set reached stored nall).2 (reg r)
  exact known.trans (if_pos rfl)

/-- The words that the transfers of the shifts are to keep. -/
def ShiftsKept (proc : Process) (s : State) (i : Inst) : Prop :=
  ∀ x ∈ (get s i.a).gamma, ∀ t ∈ (get s i.b).gamma, t.toNat < 32 →
    x <<< t.toNat ∈ (get (update proc { i with op := .shl } s) i.d).gamma ∧
    x >>> t.toNat ∈ (get (update proc { i with op := .shr } s) i.d).gamma ∧
    x.sshiftRight t.toNat ∈ (get (update proc { i with op := .asr } s) i.d).gamma

theorem shiftsKept_of_values (reached : s.first ≠ .none) {i : Inst}
    (values : ∀ x ∈ (get s i.a).gamma, ∀ t ∈ (get s i.b).gamma, t.toNat < 32 →
      x <<< t.toNat ∈ ((get s i.a).shl (get s i.b)).gamma ∧
      x >>> t.toNat ∈ ((get s i.a).shr (get s i.b)).gamma ∧
      x.sshiftRight t.toNat ∈ ((get s i.a).shr (get s i.b)).gamma) : ShiftsKept proc s i := by
  intro x hx t ht lt
  obtain ⟨left, logical, arithmetic⟩ := values x hx t ht lt
  have stored : ∀ {w : Value} {y : Word}, y ∈ w.gamma → y ∈ (get (set s i.d w) i.d).gamma := by
    intro w y hy
    have ne : w ≠ .none := by
      rintro rfl
      exact absurd hy (Set.notMem_empty y)
    rwa [gamma_get_set reached ne]
  exact ⟨stored left, stored logical, stored arithmetic⟩

/-- The shifts keep every word of the operands that fit; among the progressions that do
not wrap in the signed sense, of no others. -/
theorem shift_transfers_sound (proc : Process) (s : State) (i : Inst) (reached : s.first ≠ .none) :
    (ShiftFits (get s i.a) (get s i.b) → ShiftsKept proc s i) ∧
      (StaysSigned (get s i.a) → ((get s i.b).kind = .all → get s i.b = .all) →
        ShiftsKept proc s i → ShiftFits (get s i.a) (get s i.b)) := by
  constructor
  · intro fits
    refine shiftsKept_of_values reached fun x hx t ht lt => ⟨shl_sound fits hx ht, ?_⟩
    exact shr_sound fits hx ht lt
  · intro stays top kept
    by_cases val : (get s i.a).kind = .val
    · refine shr_complete stays top fun x hx t ht lt => ?_
      obtain ⟨-, logical, arithmetic⟩ := kept x hx t ht lt
      have stored := gamma_get_set reached (shr_ne_none (s := get s i.b) val) i.d
      exact ⟨stored ▸ logical, stored ▸ arithmetic⟩
    · exact .inl val

/-- The registers 0 and 1 hold a progression and an amount. -/
def operands (v amount : Value) : State := { State.full with registers := [v, amount] }

/-- A program without data. -/
def noData : Process := ⟨fun _ => 0, fun _ => 0, fun _ => 0, 0, 0, fun _ => Option.none⟩

/-- 8, 12, 16 and 20 by 2. -/
theorem shift_transfers_sound_small :
    (ShiftFits (get (operands ⟨.val, 8, 4, 3⟩ (.const 2)) 0) (get (operands ⟨.val, 8, 4, 3⟩ (.const 2)) 1) →
      ShiftsKept noData (operands ⟨.val, 8, 4, 3⟩ (.const 2)) { op := .shr, d := 2, a := 0, b := 1 }) ∧
    (StaysSigned (get (operands ⟨.val, 8, 4, 3⟩ (.const 2)) 0) →
      ((get (operands ⟨.val, 8, 4, 3⟩ (.const 2)) 1).kind = .all →
        get (operands ⟨.val, 8, 4, 3⟩ (.const 2)) 1 = .all) →
      ShiftsKept noData (operands ⟨.val, 8, 4, 3⟩ (.const 2)) { op := .shr, d := 2, a := 0, b := 1 } →
      ShiftFits (get (operands ⟨.val, 8, 4, 3⟩ (.const 2)) 0)
        (get (operands ⟨.val, 8, 4, 3⟩ (.const 2)) 1)) :=
  shift_transfers_sound noData (operands ⟨.val, 8, 4, 3⟩ (.const 2))
    { op := .shr, d := 2, a := 0, b := 1 } (by decide)

/-- 2 and 4 by 2: the step 2 is shifted to 0, and the second word, 1, is lost. -/
theorem shift_drops_word :
    ¬ ∀ (proc : Process) (s : State) (i : Inst), s.first ≠ .none → ShiftsKept proc s i := by
  intro kept
  have both := kept noData (operands ⟨.val, 2, 2, 1⟩ (.const 2)) { op := .shr, d := 2, a := 0, b := 1 }
    (by decide) 4 ⟨1, by decide, by decide⟩ 2 ⟨0, by decide, by decide⟩ (by decide)
  have result : get (update noData { op := .shr, d := 2, a := 0, b := 1 }
      (operands ⟨.val, 2, 2, 1⟩ (.const 2))) 2 = ⟨.val, 0, 0, 1⟩ := by decide +kernel
  have lost := both.2.1
  change _ ∈ (get (update noData { op := .shr, d := 2, a := 0, b := 1 }
    (operands ⟨.val, 2, 2, 1⟩ (.const 2))) 2).gamma at lost
  rw [result] at lost
  exact absurd lost (by simp only [gamma]; decide)

end Problem

end Otawa.Clp
