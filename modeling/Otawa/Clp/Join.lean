import Otawa.Clp.Value

/-!
# Join of CLP values

`Value.join`, the union of two values. Two progressions are read from their signed
starts, the step of the result is the gcd of the steps and of the distance of the
starts, and its count spans up to the larger of the two last elements.

The formulas leave the words of an operand out in four ways, which `JoinFits`
excludes:

* two constants more than `2 ^ 31` apart, whose 32-bit distance is the wrong one;
* starts so far apart that the gcd, taken with the 32-bit distance, does not divide
  the distance;
* equal starts, or starts `2 ^ 31` apart, with no increasing operand: `gcd` is then
  negative and the division that gives the count is by `2 ^ 32` less the gcd;
* a count of `2 ^ 32` or more, which is truncated.
-/

namespace Otawa.Clp

/-- A value of `t::int64`. -/
def int64 (x : Int) : Int := x.bmod (2 ^ 64)

theorem int64_of_lt {x : Int} (lo : -2 ^ 63 ≤ x) (hi : x < 2 ^ 63) : int64 x = x :=
  Int.bmod_eq_of_le (by omega) (by omega)

namespace Value

open Otawa.Progression

/-- `t::int64(start()) + t::int64(elm::abs(_delta)) * t::int64(_mtimes)`. -/
def last (v : Value) : Int :=
  int64 (v.start.toInt + int64 ((abs v.delta).toNat * v.mtimes.toNat))

def join (a val : Value) : Value :=
  if a = val then a
  else if a.kind = .all ∨ val.kind = .all then ⟨.all, 0, 1, UMAXn⟩
  else if a.kind = .none then ⟨.val, val.base, val.delta, val.mtimes⟩
  else if val.kind = .none then a
  else if a.isConst ∧ val.isConst then
    ⟨.val, min a.base val.base, abs (a.base - val.base), 1⟩
  else
    let g := gcd (gcd (abs (a.start - val.start)) a.delta) val.delta
    let ls := min a.start val.start
    let u1 := a.last
    let u2 := val.last
    let umax := if u1 > u2 then u1 else u2
    ⟨.val, ls, g, BitVec.ofInt 32 ((int64 (umax - ls.toInt)).tdiv g.toNat)⟩

/-! ### Progressions read from their start -/

variable {a c v : Value} {x : Word}

theorem gamma_subset_const (h : v.kind ≠ .all) (const : v.isConst) : v.gamma ⊆ {v.base} := by
  refine (gamma_subset_prog h).trans (Eq.subset ?_)
  rcases const with zero | zero
  · rw [zero, prog_zero_step]
  · rw [zero]
    exact prog_zero_count

/-- The distance of two words read as signed numbers. -/
def dist (p q : Word) : Nat := (p.toInt - q.toInt).natAbs

/-- The step `join` means to use: the gcd of the 32-bit distance and the two steps. -/
def joinStep (a c : Value) : Nat :=
  Nat.gcd (Nat.gcd (mag (a.start - c.start)) (mag a.delta)) (mag c.delta)

/-- The span from the smaller start to the larger last element. -/
def joinSpan (a c : Value) : Nat :=
  max ((a.start.toInt - (min a.start c.start).toInt).toNat + mag a.delta * a.mtimes.toNat)
    ((c.start.toInt - (min a.start c.start).toInt).toNat + mag c.delta * c.mtimes.toNat)

/-- The inputs on which the formulas of `join` hold. -/
def JoinFits (a c : Value) : Prop :=
  a = c ∨ a.kind = .none ∨ c.kind = .none ∨ a.kind = .all ∨ c.kind = .all ∨
    (a.isConst ∧ c.isConst ∧ dist a.base c.base ≤ 2 ^ 31) ∨
    (¬ (a.isConst ∧ c.isConst) ∧ joinStep a c ∣ dist a.start c.start ∧
      (0 < a.delta.toInt ∨ 0 < c.delta.toInt ∨ 0 < (abs (a.start - c.start)).toInt ∨
        joinStep a c = 2 ^ 31) ∧
      joinSpan a c / joinStep a c < 2 ^ 32)

/-! ### The case of two constants -/

/-- The larger of two words from the smaller one and their distance. -/
theorem eq_add_dist {p q : Word} (le : p.toInt ≤ q.toInt) : q = p + BitVec.ofNat 32 (dist p q) := by
  have hp := p.isLt
  have hq := q.isLt
  apply BitVec.eq_of_toNat_eq
  unfold dist
  rw [toInt_eq, toInt_eq] at *
  rw [BitVec.toNat_add, BitVec.toNat_ofNat]
  split at le <;> split at le <;> omega

theorem dist_comm (p q : Word) : dist p q = dist q p := by
  unfold dist
  omega

theorem min_eq_or (p q : Word) : (p.toInt < q.toInt ∧ min p q = p) ∨ (q.toInt ≤ p.toInt ∧ min p q = q) := by
  unfold min
  split <;> simp_all

/-- Up to `2 ^ 31`, the 32-bit distance is the distance. -/
theorem mag_sub_of_dist_le {p q : Word} (le : dist p q ≤ 2 ^ 31) : mag (p - q) = dist p q := by
  have hp := p.isLt
  have hq := q.isLt
  unfold dist at *
  unfold mag
  rw [toInt_eq, toInt_eq] at *
  rw [toInt_eq, BitVec.toNat_sub]
  split at le <;> split at le <;> split <;> omega

theorem abs_sub_of_dist_le {p q : Word} (le : dist p q ≤ 2 ^ 31) :
    abs (p - q) = BitVec.ofNat 32 (dist p q) := by
  apply BitVec.eq_of_toNat_eq
  rw [toNat_abs, mag_sub_of_dist_le le, BitVec.toNat_ofNat, Nat.mod_eq_of_lt (by omega)]

private theorem join_const (ha : a.kind ≠ .all) (hc : c.kind ≠ .all) (constA : a.isConst)
    (constC : c.isConst) (near : dist a.base c.base ≤ 2 ^ 31) :
    a.gamma ∪ c.gamma ⊆ prog (min a.base c.base) (abs (a.base - c.base)) 1 := by
  refine (Set.union_subset_union (gamma_subset_const ha constA) (gamma_subset_const hc constC)).trans ?_
  rw [abs_sub_of_dist_le near]
  rcases min_eq_or a.base c.base with ⟨lt, eq⟩ | ⟨le, eq⟩
  · rw [eq]
    rintro x (rfl | rfl)
    · exact base_mem _ _ _
    · exact ⟨1, le_rfl, by rw [one_smul]; exact eq_add_dist lt.le⟩
  · rw [eq, dist_comm]
    rintro x (rfl | rfl)
    · exact ⟨1, le_rfl, by rw [one_smul]; exact eq_add_dist le⟩
    · exact base_mem _ _ _

/-! ### The case of progressions -/

/-- The step `join` computes is the one it means to use. -/
theorem gcd_eq_joinStep
    (sign : 0 < a.delta.toInt ∨ 0 < c.delta.toInt ∨ 0 < (abs (a.start - c.start)).toInt ∨
      joinStep a c = 2 ^ 31) :
    gcd (gcd (abs (a.start - c.start)) a.delta) c.delta = BitVec.ofNat 32 (joinStep a c) := by
  have magAbs : mag (abs (a.start - c.start)) = mag (a.start - c.start) := by
    unfold abs
    split
    · rfl
    · rw [mag_neg]
  have magGcd : mag (gcd (abs (a.start - c.start)) a.delta) =
      Nat.gcd (mag (a.start - c.start)) (mag a.delta) := by
    by_cases ne : abs (a.start - c.start) ≠ 0 ∨ a.delta ≠ 0
    · rw [mag_gcd ne, magAbs]
    · obtain ⟨zero, zero'⟩ := not_or.mp ne |>.imp not_not.mp not_not.mp
      rw [← magAbs, zero, zero']
      decide +kernel
  have step : joinStep a c = Nat.gcd (mag (gcd (abs (a.start - c.start)) a.delta)) (mag c.delta) := by
    rw [magGcd, joinStep]
  by_cases positive : 0 < (gcd (abs (a.start - c.start)) a.delta).toInt ∨ 0 < c.delta.toInt
  · rw [gcd_of_pos positive, step]
  · obtain ⟨nonpos, nonposC⟩ := not_or.mp positive
    rw [gcd_of_nonpos (not_lt.mp nonpos) (not_lt.mp nonposC), ← step]
    -- The inner gcd is not positive either, so only the step `2 ^ 31` is left: it is
    -- its own opposite.
    have inner : ¬ (0 < (abs (a.start - c.start)).toInt ∨ 0 < a.delta.toInt) := by
      intro pos'
      apply nonpos
      rw [gcd_of_pos pos']
      have ne : abs (a.start - c.start) ≠ 0 ∨ a.delta ≠ 0 := by
        rcases pos' with h | h
        · exact .inl fun eq => by simp [eq] at h
        · exact .inr fun eq => by simp [eq] at h
      have lt : Nat.gcd (mag (abs (a.start - c.start))) (mag a.delta) < 2 ^ 31 := by
        have bound : ∀ w : Word, 0 < w.toInt → 0 < mag w ∧ mag w < 2 ^ 31 := by
          intro w h
          have := w.toInt_lt
          unfold mag
          omega
        rcases pos' with h | h
        · exact (Nat.gcd_le_left _ (bound _ h).1).trans_lt (bound _ h).2
        · exact (Nat.gcd_le_right _ (bound _ h).1).trans_lt (bound _ h).2
      have gpos : 0 < Nat.gcd (mag (abs (a.start - c.start))) (mag a.delta) := by
        apply Nat.pos_of_ne_zero
        intro zero
        rcases ne with ne | ne
        · exact ne (mag_eq_zero.mp (Nat.eq_zero_of_gcd_eq_zero_left zero))
        · exact ne (mag_eq_zero.mp (Nat.eq_zero_of_gcd_eq_zero_right zero))
      rw [toInt_eq, BitVec.toNat_ofNat, Nat.mod_eq_of_lt (by omega), if_pos lt]
      omega
    have wrap := ((sign.resolve_left fun h => inner (.inr h)).resolve_left nonposC).resolve_left
      fun h => inner (.inl h)
    rw [wrap]
    rfl

/-- `last` does not overflow. -/
theorem last_eq (v : Value) : v.last = v.start.toInt + mag v.delta * v.mtimes.toNat := by
  have lo := v.start.le_toInt
  have hi := v.start.toInt_lt
  have le : mag v.delta * v.mtimes.toNat ≤ 2 ^ 31 * (2 ^ 32 - 1) :=
    Nat.mul_le_mul (mag_le v.delta) (by have := v.mtimes.isLt; omega)
  unfold last
  rw [toNat_abs, int64_of_lt (x := _ * _) (by omega) (by push_cast at *; omega)]
  exact int64_of_lt (by omega) (by push_cast at *; omega)

/-- One operand inside a progression from the smaller start by the common step. -/
private theorem operand_subset {ls : Word} {g m : Nat} (kind : v.kind ≠ .all)
    (le : ls.toInt ≤ v.start.toInt) (dvdDist : g ∣ dist ls v.start) (dvd : g ∣ mag v.delta)
    (pos : 0 < g) (span : (v.start.toInt - ls.toInt).toNat + mag v.delta * v.mtimes.toNat ≤ m * g) :
    v.gamma ⊆ prog ls (BitVec.ofNat 32 g) m := by
  have multiple : ∀ w, g ∣ w → BitVec.ofNat 32 w = (w / g) • BitVec.ofNat 32 g := by
    intro w dvd
    rw [nsmul_eq, ← BitVec.ofNat_mul, Nat.div_mul_cancel dvd]
  refine (gamma_subset_prog kind).trans ?_
  rw [← prog_start, abs_eq, eq_add_dist le, multiple _ dvdDist, multiple _ dvd]
  refine prog_subset (Nat.le_of_mul_le_mul_right ?_ pos)
  have toNat : (v.start.toInt - ls.toInt).toNat = dist ls v.start := by
    unfold dist
    omega
  calc (dist ls v.start / g + v.mtimes.toNat * (mag v.delta / g)) * g
      = dist ls v.start / g * g + v.mtimes.toNat * (mag v.delta / g * g) := by ring
    _ = dist ls v.start + mag v.delta * v.mtimes.toNat := by
        rw [Nat.div_mul_cancel dvdDist, Nat.div_mul_cancel dvd, mul_comm (mag v.delta)]
    _ ≤ m * g := by rw [← toNat]; exact span

theorem joinStep_pos (nonconst : ¬ (a.isConst ∧ c.isConst)) : 0 < joinStep a c := by
  apply Nat.pos_of_ne_zero
  intro zero
  have zeroA := Nat.eq_zero_of_gcd_eq_zero_right (Nat.eq_zero_of_gcd_eq_zero_left zero)
  have zeroC := Nat.eq_zero_of_gcd_eq_zero_right zero
  exact nonconst ⟨.inl (mag_eq_zero.mp zeroA), .inl (mag_eq_zero.mp zeroC)⟩

/-- The span of the result, as `join` computes it. -/
theorem umax_sub_eq_joinSpan (a c : Value) :
    (if a.last > c.last then a.last else c.last) - (min a.start c.start).toInt = joinSpan a c := by
  have le : (min a.start c.start).toInt ≤ a.start.toInt ∧ (min a.start c.start).toInt ≤ c.start.toInt := by
    rcases min_eq_or a.start c.start with ⟨lt, eq⟩ | ⟨le, eq⟩ <;> rw [eq] <;> omega
  unfold joinSpan
  rw [last_eq, last_eq]
  split <;> push_cast <;> omega

/-- The words of both operands, in the progression the formulas describe. -/
private theorem join_progressions (ha : a.kind ≠ .all) (hc : c.kind ≠ .all)
    (nonconst : ¬ (a.isConst ∧ c.isConst)) (dvd : joinStep a c ∣ dist a.start c.start) :
    a.gamma ∪ c.gamma ⊆ prog (min a.start c.start) (BitVec.ofNat 32 (joinStep a c))
      (joinSpan a c / joinStep a c) := by
  have pos := joinStep_pos nonconst
  have dvdA : joinStep a c ∣ mag a.delta := (Nat.gcd_dvd_left _ _).trans (Nat.gcd_dvd_right _ _)
  have dvdC : joinStep a c ∣ mag c.delta := Nat.gcd_dvd_right _ _
  -- The spans are multiples of the step, so the rounded quotient covers them.
  have operand : ∀ v : Value, v.kind ≠ .all → (min a.start c.start).toInt ≤ v.start.toInt →
      joinStep a c ∣ dist (min a.start c.start) v.start → joinStep a c ∣ mag v.delta →
      (v.start.toInt - (min a.start c.start).toInt).toNat + mag v.delta * v.mtimes.toNat ≤
        joinSpan a c →
      v.gamma ⊆ prog (min a.start c.start) (BitVec.ofNat 32 (joinStep a c))
        (joinSpan a c / joinStep a c) := by
    intro v kind le dvdDist dvdDelta span
    refine operand_subset kind le dvdDist dvdDelta pos ?_
    have whole : joinStep a c ∣
        (v.start.toInt - (min a.start c.start).toInt).toNat + mag v.delta * v.mtimes.toNat := by
      refine Dvd.dvd.add ?_ (dvdDelta.mul_right _)
      have distance : (v.start.toInt - (min a.start c.start).toInt).toNat =
          dist (min a.start c.start) v.start := by
        unfold dist
        omega
      rw [distance]
      exact dvdDist
    rw [← Nat.div_mul_cancel whole]
    exact Nat.mul_le_mul_right _ (Nat.div_le_div_right span)
  have self : ∀ p : Word, dist p p = 0 := fun p => by simp [dist]
  refine Set.union_subset (operand a ha ?_ ?_ dvdA (Nat.le_max_left _ _))
    (operand c hc ?_ ?_ dvdC (Nat.le_max_right _ _))
  all_goals rcases min_eq_or a.start c.start with ⟨lt, eq⟩ | ⟨le, eq⟩ <;> rw [eq]
  · exact le
  · rw [self]
    exact dvd_zero _
  · rw [dist_comm]
    exact dvd
  · exact lt.le
  · exact dvd
  · rw [self]
    exact dvd_zero _

/-! ### Soundness -/

/-- The third formula is reached by two operands that are neither empty nor the top
value. -/
private theorem join_eq (ne : a ≠ c) (top : ¬ (a.kind = .all ∨ c.kind = .all))
    (noneA : a.kind ≠ .none) (noneC : c.kind ≠ .none) (nonconst : ¬ (a.isConst ∧ c.isConst))
    (sign : 0 < a.delta.toInt ∨ 0 < c.delta.toInt ∨ 0 < (abs (a.start - c.start)).toInt ∨
      joinStep a c = 2 ^ 31)
    (count : joinSpan a c / joinStep a c < 2 ^ 32) :
    a.join c = ⟨.val, min a.start c.start, BitVec.ofNat 32 (joinStep a c),
      BitVec.ofNat 32 (joinSpan a c / joinStep a c)⟩ := by
  have pos := joinStep_pos nonconst
  have stepLe : joinStep a c ≤ 2 ^ 31 := by
    by_cases zero : c.delta = 0
    · have neA : a.delta ≠ 0 := fun zeroA => nonconst ⟨.inl zeroA, .inl zero⟩
      have posA := Nat.pos_of_ne_zero (mag_eq_zero.not.mpr neA)
      exact (Nat.gcd_le_left _ (Nat.gcd_pos_of_pos_right _ posA)).trans
        ((Nat.gcd_le_right _ posA).trans (mag_le _))
    · exact (Nat.gcd_le_right _ (Nat.pos_of_ne_zero (mag_eq_zero.not.mpr zero))).trans (mag_le _)
  have spanLt : joinSpan a c < 2 ^ 63 := by
    have lt : joinSpan a c < 2 ^ 32 * joinStep a c := (Nat.div_lt_iff_lt_mul pos).mp count
    have le : 2 ^ 32 * joinStep a c ≤ 2 ^ 32 * 2 ^ 31 := Nat.mul_le_mul_left _ stepLe
    omega
  unfold join
  rw [if_neg ne, if_neg top, if_neg noneA, if_neg noneC, if_neg nonconst]
  simp only [gcd_eq_joinStep sign, umax_sub_eq_joinSpan, BitVec.toNat_ofNat]
  rw [Nat.mod_eq_of_lt (b := 2 ^ 32) (by omega), int64_of_lt (by omega) (by omega),
    Int.tdiv_eq_ediv_of_nonneg (by omega), ← Int.natCast_ediv, BitVec.ofInt_natCast]

theorem union_subset_join {a c : Value} (fits : JoinFits a c) : a.gamma ∪ c.gamma ⊆ (a.join c).gamma := by
  by_cases eq : a = c
  · rw [join, if_pos eq, eq, Set.union_self]
  by_cases top : a.kind = .all ∨ c.kind = .all
  · rw [join, if_neg eq, if_pos top, show (⟨.all, 0, 1, UMAXn⟩ : Value).gamma = Set.univ from rfl]
    exact Set.subset_univ _
  obtain ⟨topA, topC⟩ := not_or.mp top
  by_cases noneA : a.kind = .none
  · rw [join, if_neg eq, if_neg top, if_pos noneA, gamma_val, show a.gamma = ∅ by simp [gamma, noneA],
      Set.empty_union]
    exact gamma_subset_prog topC
  by_cases noneC : c.kind = .none
  · rw [join, if_neg eq, if_neg top, if_neg noneA, if_pos noneC,
      show c.gamma = ∅ by simp [gamma, noneC], Set.union_empty]
  simp only [JoinFits, eq, noneA, noneC, topA, topC, false_or] at fits
  rcases fits with ⟨constA, constC, near⟩ | ⟨nonconst, dvd, sign, count⟩
  · rw [join, if_neg eq, if_neg top, if_neg noneA, if_neg noneC, if_pos ⟨constA, constC⟩, gamma_val]
    exact join_const topA topC constA constC near
  · rw [join_eq eq top noneA noneC nonconst sign count, gamma_val, BitVec.toNat_ofNat,
      Nat.mod_eq_of_lt count]
    exact join_progressions topA topC nonconst dvd

/-- Both operands are inside the join, on the inputs on which its formulas hold. -/
theorem join_sound (a c : Value) (fits : JoinFits a c) :
    a.gamma ⊆ (a.join c).gamma ∧ c.gamma ⊆ (a.join c).gamma :=
  Set.union_subset_iff.mp (union_subset_join fits)

instance (a c : Value) : Decidable (JoinFits a c) := by
  unfold JoinFits
  infer_instance

/-- The words 0, 6, …, 60 and 10, 6, 2: the join goes by 2. -/
theorem join_sound_small :
    (⟨.val, 0, 6, 10⟩ : Value).gamma ⊆ ((⟨.val, 0, 6, 10⟩ : Value).join ⟨.val, 10, -4, 2⟩).gamma ∧
      (⟨.val, 10, -4, 2⟩ : Value).gamma ⊆
        ((⟨.val, 0, 6, 10⟩ : Value).join ⟨.val, 10, -4, 2⟩).gamma :=
  join_sound ⟨.val, 0, 6, 10⟩ ⟨.val, 10, -4, 2⟩ (by decide +kernel)

/-- The join of the greatest and the least signed constant is the least one and the
word after it. -/
theorem join_drops_constant :
    ¬ ((const MAXn).gamma ⊆ ((const MAXn).join (const MINn)).gamma ∧
      (const MINn).gamma ⊆ ((const MAXn).join (const MINn)).gamma) := by
  rintro ⟨left, -⟩
  have union : (const MAXn).join (const MINn) = ⟨.val, MINn, 1, 1⟩ := by decide +kernel
  have lost := left (show MAXn ∈ (const MAXn).gamma from ⟨0, le_rfl, by decide⟩)
  rw [union] at lost
  exact absurd lost (by simp only [gamma]; decide)

end Value

end Otawa.Clp
