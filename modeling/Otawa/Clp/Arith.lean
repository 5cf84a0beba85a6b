import Otawa.Clp.Value

/-!
# Addition and subtraction of CLP values

`Value.add` and `Value.sub`. A sum of two progressions is a progression of the gcd of
the steps; its count is the sum of the two counts, each scaled by the quotient of
its step by the gcd. The code saturates the sum of the scaled counts, but computes
each of them by a 32-bit product that it does not check: a product of `2 ^ 32` or
more loses words of the sum (`add_drops_words`). `NoOverflow` is the condition that
both products fit; under it, or where the code does not compute them, addition and
subtraction are sound (`add_sub_sound`).
-/

namespace Otawa.Clp.Value

open Otawa.Progression

/-- The progression of two operands that go in the same direction. -/
def sumProgression (a b : Value) : Value :=
  let g := gcd a.delta b.delta
  let m1 := a.mtimes * (abs a.delta / abs g)
  let m2 := b.mtimes * (abs b.delta / abs g)
  let mtimes := if UMAXn - m1 < m2 then UMAXn else m1 + m2
  ⟨.val, a.base + b.base, g, mtimes⟩

/-- The operands of a sum in different directions, one of them reversed: the finite
one if the other is infinite, else the decreasing one. -/
def align (a val : Value) : Value × Value :=
  if a.isInf then (a, val.reverse)
  else if val.isInf then (a.reverse, val)
  else if a.delta.toInt < 0 then (a.reverse, val)
  else (a, val.reverse)

def add (a val : Value) : Value :=
  if a.kind = .none ∧ val.kind = .none then none
  else if a.kind = .all ∨ val.kind = .all then all
  else if a.delta = 0 ∧ val.delta = 0 then ⟨a.kind, a.base + val.base, 0, 0⟩
  else if a.direction = val.direction then
    if a.isInf ∨ val.isInf then ⟨.val, a.base + val.base, gcd a.delta val.delta, UMAXn⟩
    else sumProgression a val
  else if a.isInf ∧ val.isInf then all
  else sumProgression (align a val).1 (align a val).2

/-- The copy of its operand that `sub` adds. -/
def opposite (val : Value) : Value := { val with delta := -val.delta, base := -val.base }

def sub (a val : Value) : Value :=
  if a.kind = .none ∧ val.kind = .none then none
  else if a.kind = .all ∨ val.kind = .all then all
  else if a.delta = 0 ∧ val.delta = 0 then ⟨a.kind, a.base - val.base, 0, 0⟩
  else add a val.opposite

/-! ### The scaled counts -/

variable {a b c : Value} {x y : Word}

/-- Both counts, scaled to the gcd of the steps, are below `2 ^ 32`. -/
def NoOverflow (a b : Value) : Prop :=
  a.mtimes.toNat * (mag a.delta / Nat.gcd (mag a.delta) (mag b.delta)) < 2 ^ 32 ∧
    b.mtimes.toNat * (mag b.delta / Nat.gcd (mag a.delta) (mag b.delta)) < 2 ^ 32

instance (a b : Value) : Decidable (NoOverflow a b) := inferInstanceAs (Decidable (_ ∧ _))

/-- The steps are multiples of one step, the gcd, that goes their way. -/
structure SameWay (a b : Value) : Prop where
  left : a.delta = (mag a.delta / Nat.gcd (mag a.delta) (mag b.delta)) • gcd a.delta b.delta
  right : b.delta = (mag b.delta / Nat.gcd (mag a.delta) (mag b.delta)) • gcd a.delta b.delta

private theorem quotient_nsmul {m g : Nat} (dvd : g ∣ m) :
    (m / g) • BitVec.ofNat 32 g = BitVec.ofNat 32 m := by
  rw [nsmul_eq, ← BitVec.ofNat_mul, Nat.div_mul_cancel dvd]

/-- A step that is its own magnitude: a positive one, or the least word. -/
theorem sameWay_of_pos (ha : a.delta = BitVec.ofNat 32 (mag a.delta))
    (hb : b.delta = BitVec.ofNat 32 (mag b.delta)) (pos : 0 < a.delta.toInt ∨ 0 < b.delta.toInt) :
    SameWay a b where
  left := by rw [gcd_of_pos pos, quotient_nsmul (Nat.gcd_dvd_left _ _), ← ha]
  right := by rw [gcd_of_pos pos, quotient_nsmul (Nat.gcd_dvd_right _ _), ← hb]

theorem sameWay_of_nonpos (ha : a.delta.toInt ≤ 0) (hb : b.delta.toInt ≤ 0) : SameWay a b where
  left := by
    rw [gcd_of_nonpos ha hb, smul_neg, quotient_nsmul (Nat.gcd_dvd_left _ _), ← eq_of_nonpos ha]
  right := by
    rw [gcd_of_nonpos ha hb, smul_neg, quotient_nsmul (Nat.gcd_dvd_right _ _), ← eq_of_nonpos hb]

theorem sameWay_of_direction (same : a.direction = b.direction) : SameWay a b := by
  unfold direction at same
  by_cases pos : 0 < a.delta.toInt
  · have pos' : 0 < b.delta.toInt := by simpa [pos] using same
    exact sameWay_of_pos (eq_of_nonneg pos.le) (eq_of_nonneg pos'.le) (.inl pos)
  · have pos' : ¬ 0 < b.delta.toInt := by simpa [pos] using same
    exact sameWay_of_nonpos (not_lt.mp pos) (not_lt.mp pos')

/-- The opposite of a negative step is its magnitude, also when negation wraps. -/
theorem neg_eq_ofNat {d : Word} (h : d.toInt ≤ 0) : -d = BitVec.ofNat 32 (mag (-d)) := by
  rw [mag_neg]
  conv_lhs => rw [eq_of_nonpos h, neg_neg]

/-- One operand reversed, the two go the same way. -/
theorem sameWay_align (ne : a.direction ≠ b.direction) :
    SameWay (align a b).1 (align a b).2 := by
  have signs : (0 < a.delta.toInt ∧ b.delta.toInt ≤ 0) ∨ (a.delta.toInt ≤ 0 ∧ 0 < b.delta.toInt) := by
    unfold direction at ne
    by_cases pos : 0 < a.delta.toInt
    · exact .inl ⟨pos, not_lt.mp (by simpa [pos] using ne)⟩
    · exact .inr ⟨not_lt.mp pos, by simpa [pos] using ne⟩
  -- Reversing the decreasing operand makes both steps magnitudes, reversing the
  -- increasing one makes both steps negative.
  have reverseRight : SameWay a b.reverse := by
    rcases signs with ⟨pos, nonpos⟩ | ⟨nonpos, pos⟩
    · exact sameWay_of_pos (b := b.reverse) (eq_of_nonneg pos.le) (neg_eq_ofNat nonpos) (.inl pos)
    · refine sameWay_of_nonpos (b := b.reverse) nonpos ?_
      have := b.delta.toInt_lt
      simp only [reverse, BitVec.toInt_neg]
      rw [Int.bmod_eq_of_le] <;> omega
  have reverseLeft : SameWay a.reverse b := by
    rcases signs with ⟨pos, nonpos⟩ | ⟨nonpos, pos⟩
    · refine sameWay_of_nonpos (a := a.reverse) ?_ nonpos
      have := a.delta.toInt_lt
      simp only [reverse, BitVec.toInt_neg]
      rw [Int.bmod_eq_of_le] <;> omega
    · exact sameWay_of_pos (a := a.reverse) (neg_eq_ofNat nonpos) (eq_of_nonneg pos.le) (.inr pos)
  unfold align
  split
  · exact reverseRight
  · split
    · exact reverseLeft
    · split
      · exact reverseLeft
      · exact reverseRight

/-- `reverse` changes neither the counts nor the magnitudes. -/
theorem noOverflow_align (h : NoOverflow a b) : NoOverflow (align a b).1 (align a b).2 := by
  unfold NoOverflow align at *
  split
  · simpa only [reverse, mag_neg] using h
  · split
    · simpa only [reverse, mag_neg] using h
    · split <;> simpa only [reverse, mag_neg] using h

theorem gamma_align (ha : a.kind = .val) (hb : b.kind = .val) :
    (align a b).1.kind = .val ∧ (align a b).2.kind = .val ∧
      (align a b).1.gamma = a.gamma ∧ (align a b).2.gamma = b.gamma := by
  unfold align
  split
  · exact ⟨ha, rfl, rfl, gamma_reverse hb⟩
  · split
    · exact ⟨rfl, hb, gamma_reverse ha, rfl⟩
    · split
      · exact ⟨rfl, hb, gamma_reverse ha, rfl⟩
      · exact ⟨ha, rfl, rfl, gamma_reverse hb⟩

/-- The count the code computes: the sum of the scaled counts, saturated. -/
theorem sumProgression_mtimes (ne : a.delta ≠ 0 ∨ b.delta ≠ 0) (fits : NoOverflow a b) :
    (sumProgression a b).mtimes.toNat =
      Min.min (2 ^ 32 - 1)
        (a.mtimes.toNat * (mag a.delta / Nat.gcd (mag a.delta) (mag b.delta)) +
          b.mtimes.toNat * (mag b.delta / Nat.gcd (mag a.delta) (mag b.delta))) := by
  obtain ⟨fitA, fitB⟩ := fits
  have scaled : ∀ n d : Word, n.toNat * (mag d / Nat.gcd (mag a.delta) (mag b.delta)) < 2 ^ 32 →
      (n * (abs d / abs (gcd a.delta b.delta))).toNat =
        n.toNat * (mag d / Nat.gcd (mag a.delta) (mag b.delta)) := by
    intro n d fit
    rw [BitVec.toNat_mul, BitVec.toNat_udiv, toNat_abs, toNat_abs, mag_gcd ne,
      Nat.mod_eq_of_lt fit]
  simp only [sumProgression]
  have left := scaled _ _ fitA
  have right := scaled _ _ fitB
  generalize a.mtimes * (abs a.delta / abs (gcd a.delta b.delta)) = m1 at *
  generalize b.mtimes * (abs b.delta / abs (gcd a.delta b.delta)) = m2 at *
  rw [← left, ← right]
  have max := toNat_UMAXn
  split <;> rename_i c
  · rw [toNat_UMAXn]
    bv_omega
  · bv_omega

/-- The sum of two progressions that go the same way. -/
theorem sumProgression_sound (ha : a.kind = .val) (hb : b.kind = .val) (way : SameWay a b)
    (ne : a.delta ≠ 0 ∨ b.delta ≠ 0) (fits : NoOverflow a b) (hx : x ∈ a.gamma) (hy : y ∈ b.gamma) :
    x + y ∈ (sumProgression a b).gamma := by
  rw [gamma_of_val ha, way.left] at hx
  rw [gamma_of_val hb, way.right] at hy
  rw [gamma_of_val rfl, sumProgression_mtimes ne fits]
  simp only [sumProgression]
  rcases Nat.le_total (2 ^ 32 - 1) (a.mtimes.toNat * (mag a.delta / Nat.gcd (mag a.delta) (mag b.delta)) +
      b.mtimes.toNat * (mag b.delta / Nat.gcd (mag a.delta) (mag b.delta))) with saturated | exactCount
  · rw [Nat.min_eq_left saturated]
    exact add_mem_of_period (Nat.two_pow_pos 32) (period _) hx hy
  · rw [Nat.min_eq_right exactCount]
    exact add_mem_prog hx hy

/-! ### Soundness -/

/-- The scaled counts fit, or `add` does not compute them: an operand is not a
progression, one of two operands of the same direction is infinite, or both of two
operands of different directions are. -/
def AddFits (a c : Value) : Prop :=
  a.kind ≠ .val ∨ c.kind ≠ .val ∨ (a.direction = c.direction ∧ (a.isInf ∨ c.isInf)) ∨
    (a.direction ≠ c.direction ∧ a.isInf ∧ c.isInf) ∨ NoOverflow a c

instance (a c : Value) : Decidable (AddFits a c) := inferInstanceAs (Decidable (_ ∨ _))

theorem add_sound (fits : AddFits a c) (hx : x ∈ a.gamma) (hy : y ∈ c.gamma) :
    x + y ∈ (a.add c).gamma := by
  unfold add
  by_cases top : a.kind = .all ∨ c.kind = .all
  · rw [if_neg (by rcases top with h | h <;> simp [h]), if_pos top]
    exact Set.mem_univ _
  have ha : a.kind = .val := (kind_of_mem hx).resolve_right fun h => top (.inl h)
  have hb : c.kind = .val := (kind_of_mem hy).resolve_right fun h => top (.inr h)
  rw [if_neg (by simp [ha]), if_neg top]
  by_cases consts : a.delta = 0 ∧ c.delta = 0
  · rw [gamma_of_val ha, consts.1, prog_zero_step, Set.mem_singleton_iff] at hx
    rw [gamma_of_val hb, consts.2, prog_zero_step, Set.mem_singleton_iff] at hy
    rw [if_pos consts, ha, gamma_val, hx, hy]
    exact base_mem _ _ _
  have ne : a.delta ≠ 0 ∨ c.delta ≠ 0 := by
    by_contra h
    exact consts ⟨not_not.mp (not_or.mp h).1, not_not.mp (not_or.mp h).2⟩
  rw [if_neg consts]
  have fits' := (fits.resolve_left (not_not.mpr ha)).resolve_left (not_not.mpr hb)
  by_cases same : a.direction = c.direction
  · rw [if_pos same]
    by_cases inf : a.isInf ∨ c.isInf
    · have way := sameWay_of_direction same
      rw [gamma_of_val ha, way.left] at hx
      rw [gamma_of_val hb, way.right] at hy
      rw [if_pos inf, gamma_val]
      exact add_mem_of_period (Nat.two_pow_pos 32) (period _) hx hy
    · rw [if_neg inf]
      have fits := (fits'.resolve_left fun h => inf h.2).resolve_left fun h => h.1 same
      exact sumProgression_sound ha hb (sameWay_of_direction same) ne fits hx hy
  · rw [if_neg same]
    by_cases inf : a.isInf ∧ c.isInf
    · rw [if_pos inf]
      exact Set.mem_univ _
    · rw [if_neg inf]
      have fits := (fits'.resolve_left fun h => same h.1).resolve_left fun h => inf h.2
      obtain ⟨ka, kb, ga, gb⟩ := gamma_align ha hb
      refine sumProgression_sound ka kb (sameWay_align same) ?_ (noOverflow_align fits)
        (ga ▸ hx) (gb ▸ hy)
      unfold align
      split
      · simpa [reverse] using ne
      · split
        · simpa [reverse] using ne
        · split <;> simpa [reverse] using ne

/-- The opposite value stands for the opposite words. -/
theorem neg_mem_opposite (hy : y ∈ c.gamma) : -y ∈ c.opposite.gamma := by
  rcases kind_of_mem hy with val | all
  · rw [gamma_of_val val] at hy
    rw [gamma_of_val (show c.opposite.kind = .val from val)]
    exact neg_mem_prog hy
  · rw [gamma_of_all (show c.opposite.kind = .all from all)]
    exact Set.mem_univ _

theorem sub_sound (fits : AddFits a c.opposite) (hx : x ∈ a.gamma) (hy : y ∈ c.gamma) :
    x - y ∈ (a.sub c).gamma := by
  unfold sub
  by_cases nones : a.kind = .none ∧ c.kind = .none
  · rcases kind_of_mem hx with h | h <;> simp [h] at nones
  rw [if_neg nones]
  by_cases top : a.kind = .all ∨ c.kind = .all
  · rw [if_pos top]
    exact Set.mem_univ _
  rw [if_neg top]
  by_cases consts : a.delta = 0 ∧ c.delta = 0
  · have ha : a.kind = .val := (kind_of_mem hx).resolve_right fun h => top (.inl h)
    have hb : c.kind = .val := (kind_of_mem hy).resolve_right fun h => top (.inr h)
    rw [gamma_of_val ha, consts.1, prog_zero_step, Set.mem_singleton_iff] at hx
    rw [gamma_of_val hb, consts.2, prog_zero_step, Set.mem_singleton_iff] at hy
    rw [if_pos consts, ha, gamma_val, hx, hy]
    exact base_mem _ _ _
  · rw [if_neg consts, sub_eq_add_neg]
    exact add_sound fits hx (neg_mem_opposite hy)

/-- Addition and subtraction contain every sum and difference of their operands'
words, when the scaled counts fit or are not computed. -/
theorem add_sub_sound (a c : Value) :
    (AddFits a c → ∀ x ∈ a.gamma, ∀ y ∈ c.gamma, x + y ∈ (a.add c).gamma) ∧
      (AddFits a c.opposite → ∀ x ∈ a.gamma, ∀ y ∈ c.gamma, x - y ∈ (a.sub c).gamma) :=
  ⟨fun fits _ hx _ hy => add_sound fits hx hy, fun fits _ hx _ hy => sub_sound fits hx hy⟩

/-- Steps 6 and 4, counts 10 and 20: the sum goes by 2 and both scaled counts fit. -/
theorem add_sub_sound_small :
    (∀ x ∈ (⟨.val, 5, 6, 10⟩ : Value).gamma, ∀ y ∈ (⟨.val, 1, 4, 20⟩ : Value).gamma,
      x + y ∈ ((⟨.val, 5, 6, 10⟩ : Value).add ⟨.val, 1, 4, 20⟩).gamma) ∧
    ∀ x ∈ (⟨.val, 5, 6, 10⟩ : Value).gamma, ∀ y ∈ (⟨.val, 1, 4, 20⟩ : Value).gamma,
      x - y ∈ ((⟨.val, 5, 6, 10⟩ : Value).sub ⟨.val, 1, 4, 20⟩).gamma :=
  ⟨(add_sub_sound ⟨.val, 5, 6, 10⟩ ⟨.val, 1, 4, 20⟩).1 (by decide),
    (add_sub_sound ⟨.val, 5, 6, 10⟩ ⟨.val, 1, 4, 20⟩).2 (by decide)⟩

/-- The even words, counted `2 ^ 31 + 1` times, and {0, 1}: the scaled count of the
first operand wraps to 0 and the sum is left with {0, 1}. -/
theorem add_drops_words :
    ¬ ∀ x ∈ (⟨.val, 0, 2, 0x80000000⟩ : Value).gamma, ∀ y ∈ (⟨.val, 0, 1, 1⟩ : Value).gamma,
      x + y ∈ ((⟨.val, 0, 2, 0x80000000⟩ : Value).add ⟨.val, 0, 1, 1⟩).gamma := by
  intro sound
  have sum : (⟨.val, 0, 2, 0x80000000⟩ : Value).add ⟨.val, 0, 1, 1⟩ = ⟨.val, 0, 1, 1⟩ := by
    decide +kernel
  have lost := sound 2 ⟨1, by decide, by decide⟩ 1 ⟨1, by decide, by decide⟩
  rw [sum] at lost
  exact absurd lost (by simp only [gamma]; decide)

end Otawa.Clp.Value
