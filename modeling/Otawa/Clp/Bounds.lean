import Otawa.Clp.Filter

/-!
# The signed and the unsigned filters

What `ge`, `le`, `geu` and `leu` keep of a value. The comment of `le` assumes that no progression
wraps: the filters that walk a progression cut it where it passes the end of the numbers, and keep
the words before. The filters that intersect it with a half line go around the numbers with it.

A progression that stays below `2 ^ 31` meets its half line, unless the half line is one word that
the progression has (`InterFits` excludes it).
-/

namespace Otawa.Clp.Value

variable {v w : Value} {k x : Word}

/-! ### Half lines -/

theorem lcm_one {d : Word} (pos : 0 < d.toInt) : lcm d 1 = d := by
  have one : gcd d 1 = 1 := by
    rw [gcd_of_pos (.inl pos), show mag 1 = 1 from rfl, Nat.gcd_one_right]
    rfl
  rw [lcm, mul_one, one]
  exact BitVec.udiv_one.trans (if_pos pos.le)

/-- A progression by one and another one, each on one side of the signed numbers. -/
theorem lcmFits_one (pos : 0 < v.delta.toInt) (step : w.delta = 1) : LcmFits v w := by
  unfold LcmFits
  rw [step, lcm_one pos]
  refine ⟨fun zero => ?_, .inl ?_⟩
  · rw [zero] at pos
    exact absurd pos (by decide)
  · rw [show (1 : Word).toNat = 1 from rfl, Nat.lcm_one_right]

theorem Signed.flat (signed : v.Signed) (pos : 0 < v.delta.toInt) : Flat v := by
  unfold Flat
  obtain ⟨-, hi⟩ := signed
  rw [← toNat_eq_toInt pos] at hi
  exact_mod_cast hi

theorem Flat.oneLap (flat : Flat v) : OneLap v := by
  have := v.base.le_toInt
  unfold Flat at flat
  unfold OneLap
  omega

theorem Flat.le_last (flat : Flat v) : v.base.toInt ≤ v.upper.toInt := by
  rw [flat.upper]
  omega

theorem not_wraps (flatV : Flat v) (flatW : Flat w) : ¬ Wraps v w :=
  not_or.mpr ⟨not_lt.mpr flatV.le_last, not_lt.mpr flatW.le_last⟩

/-- A half line that stays on one side meets a progression that does. -/
theorem stepFits_halfLine {SplitFits : Value → Value → Prop} {a m : Word} (nonconst : ¬ v.isConst)
    (pos : 0 < v.upward.delta.toInt) (flatV : Flat v.upward) (flatW : Flat ⟨.val, a, 1, m⟩)
    (single : m = 0 → a ∉ v.gamma) : StepFits SplitFits v ⟨.val, a, 1, m⟩ := by
  have up : (⟨.val, a, 1, m⟩ : Value).upward = ⟨.val, a, 1, m⟩ :=
    upward_of_pos (show 0 < (1 : Word).toInt by decide)
  refine .inr (.inr (.inr (.inr (.inr (.inr (.inr ?_))))))
  by_cases const : (⟨.val, a, 1, m⟩ : Value).isConst
  · left
    have zero : m = 0 := const.resolve_left (show (1 : Word) ≠ 0 by decide)
    exact ⟨const, nonconst, fun mem => absurd mem (single zero)⟩
  · right
    rw [up]
    refine ⟨nonconst, const, flatV.oneLap, flatW.oneLap, fun wraps => ?_, fun _ => ?_⟩
    · exact absurd wraps (not_wraps flatV flatW)
    · exact lcmFits_one pos rfl

/-! ### Half lines around the signed numbers -/

/-- A progression above 0 and words below 0 have nothing in common. -/
theorem interPart_apart {m : Word} (val : v.kind = .val) (nonconst : ¬ v.isConst) (pos : 0 < v.delta.toInt)
    (flat : Flat v) (nonneg : 0 ≤ v.base.toInt) (many : m ≠ 0) (few : m.toNat < 2 ^ 31) :
    interPart v ⟨.val, MINn, 1, m⟩ = .ok none := by
  have least : (MINn : Word).toInt = -2 ^ 31 := rfl
  have flatW : Flat ⟨.val, MINn, 1, m⟩ := by
    unfold Flat
    simp only [least, show (1 : Word).toNat = 1 from rfl]
    omega
  have upper := flatW.upper
  simp only [least, show (1 : Word).toNat = 1 from rfl, Nat.mul_one] at upper
  have of_val : ∀ {u : Value}, u.kind = .val → u ≠ none ∧ ¬ u.isTop := by
    rintro u isVal
    exact ⟨fun eq => (by rw [eq] at isVal; cases isVal), by rw [isTop, isVal]; decide⟩
  have ne : v ≠ ⟨.val, MINn, 1, m⟩ := by
    rintro rfl
    exact absurd nonneg (by rw [least]; decide)
  have constW : ¬ (⟨.val, MINn, 1, m⟩ : Value).isConst := not_or.mpr ⟨show (1 : Word) ≠ 0 by decide, many⟩
  have upV := upward_of_pos pos
  have upW : (⟨.val, MINn, 1, m⟩ : Value).upward = ⟨.val, MINn, 1, m⟩ :=
    upward_of_pos (show 0 < (1 : Word).toInt by decide)
  rcases interStep_of_progressions (fun _ _ => .error .reentry) (of_val val).1
    (of_val (u := ⟨.val, MINn, 1, m⟩) rfl).1 ne (of_val val).2 (of_val (u := ⟨.val, MINn, 1, m⟩) rfl).2 nonconst
    constW with ⟨wraps, -⟩ | ⟨-, eq⟩
  · rw [upV, upW] at wraps
    exact absurd wraps (not_wraps flat flatW)
  refine eq.trans ?_
  rw [upV, upW]
  unfold interFlat
  split
  · rfl
  · have below : (MINn : Word).toInt ≤ v.base.toInt := by
      rw [least]
      omega
    have found : findj v ⟨.val, MINn, 1, m⟩ = some 0 := by
      unfold findj
      simp [List.range_succ]
    have first : v.base + BitVec.ofNat 32 0 * v.delta = v.base := by simp
    have last : (min (⟨.val, MINn, 1, m⟩ : Value).upper v.upper).toInt < v.base.toInt := by
      rcases min_eq_or (⟨.val, MINn, 1, m⟩ : Value).upper v.upper with ⟨-, eq⟩ | ⟨le, eq⟩ <;> rw [eq] <;> omega
    rw [if_pos below]
    unfold interFrom
    rw [found]
    dsimp only
    rw [first]
    exact if_pos last

theorem interPart_none (w : Value) : interPart none w = .ok none := by
  unfold interPart interStep
  exact if_pos (.inl rfl)

theorem gamma_upward (val : v.kind = .val) : v.upward.gamma = v.gamma := by
  unfold upward
  split
  · rfl
  · exact gamma_reverse val

/-- The parts of a half line that passes the greatest signed number. -/
theorem parts_halfLine {a m : Word} (low : 0 ≤ a.toInt) (inside : a.toNat + m.toNat < 2 ^ 32)
    (long : 2 ^ 31 < a.toNat + m.toNat) :
    (∃ n, beforeWrap ⟨.val, a, 1, m⟩ = ⟨.val, a, if n = 0 then 0 else 1, n⟩ ∧ (n = 0 → a = MAXn)) ∧
      afterWrap ⟨.val, a, 1, m⟩ = ⟨.val, MINn, 1, BitVec.ofNat 32 (a.toNat + m.toNat - 2 ^ 31)⟩ := by
  have base := toNat_of_nonneg low
  have size : (mag a : Int) = a.toInt := by
    unfold mag
    omega
  have hi := a.toInt_lt
  have one : (1 : Word).toNat = 1 := rfl
  have upper : (a + 1 * m).toInt = a.toNat + m.toNat - 2 ^ 32 := by
    rw [one_mul, toInt_eq, BitVec.toNat_add, Nat.mod_eq_of_lt inside, if_neg (by omega)]
    push_cast
    rfl
  constructor
  · have count : beforeCount ⟨.val, a, 1, m⟩ = (2 ^ 31 - 1 - a.toInt).toNat := Nat.div_one _
    have small : (BitVec.ofNat 32 (2 ^ 31 - 1 - a.toInt).toNat).toNat = (2 ^ 31 - 1 - a.toInt).toNat := by
      rw [BitVec.toNat_ofNat, Nat.mod_eq_of_lt (by omega)]
    have zero : BitVec.ofNat 32 (2 ^ 31 - 1 - a.toInt).toNat = 0 ↔ (2 ^ 31 - 1 - a.toInt).toNat = 0 := by
      rw [← BitVec.toNat_inj, small]
      rfl
    refine ⟨BitVec.ofNat 32 (2 ^ 31 - 1 - a.toInt).toNat, ?_, fun none => ?_⟩
    · unfold beforeWrap
      rw [count]
      congr 1
      exact if_congr zero.symm rfl rfl
    · apply BitVec.eq_of_toInt_eq
      rw [show MAXn.toInt = 2 ^ 31 - 1 from rfl]
      have := zero.mp none
      omega
  · have count : afterCount ⟨.val, a, 1, m⟩ = a.toNat + m.toNat - 2 ^ 31 := by
      unfold afterCount Value.upper
      simp only [one, Nat.div_one]
      rw [upper]
      omega
    unfold afterWrap
    rw [count, if_neg (by omega)]
    congr 1
    unfold Value.upper
    simp only [one_mul]
    apply BitVec.eq_of_toNat_eq
    rw [BitVec.toNat_sub, BitVec.toNat_add, BitVec.toNat_ofNat, Nat.mod_eq_of_lt inside,
      show MINn.toNat = 2 ^ 31 from rfl]
    omega

/-- A half line that passes the greatest signed number is split in the part up to it and the part from the least one,
which has no word of a progression above 0. -/
theorem splitFits_halfLine {a m : Word} (val : v.kind = .val) (nonconst : ¬ v.isConst) (pos : 0 < v.delta.toInt)
    (flat : Flat v) (nonneg : 0 ≤ v.base.toInt) (low : 0 ≤ a.toInt) (inside : a.toNat + m.toNat < 2 ^ 32)
    (long : 2 ^ 31 < a.toNat + m.toNat) (single : a = MAXn → a ∉ v.gamma) : SplitFits v ⟨.val, a, 1, m⟩ := by
  have one : (1 : Word).toNat = 1 := rfl
  obtain ⟨⟨n, before, single'⟩, after⟩ := parts_halfLine low inside long
  refine ⟨pos, show 0 < (1 : Word).toInt by decide, fun PA QA PB QB okA okB => ?_⟩
  rcases PQValue_cases okA with ⟨-, -, isPA, isQA⟩ | ⟨wraps, -⟩
  case inr => exact absurd flat.le_last (not_le.mpr wraps)
  rw [isPA, isQA]
  rcases PQValue_cases okB with ⟨le, -, -⟩ | ⟨-, -, isPB, isQB⟩
  case inl =>
    have lap : OneLap ⟨.val, a, 1, m⟩ := by
      unfold OneLap
      simp only [one]
      omega
    have upper := (lap.flat le).upper
    have hi := (⟨.val, a, 1, m⟩ : Value).upper.toInt_lt
    have base := toNat_of_nonneg low
    simp only [one, Nat.mul_one] at upper
    have size : (mag a : Int) = a.toInt := by
      unfold mag
      omega
    omega
  have flatPB := isPB ▸ beforeWrap_flat ⟨.val, a, 1, m⟩
  have flatQB := isQB ▸ afterWrap_flat ⟨.val, a, 1, m⟩
  rw [before] at isPB
  rw [after] at isQB
  have few : (BitVec.ofNat 32 (a.toNat + m.toNat - 2 ^ 31)).toNat = a.toNat + m.toNat - 2 ^ 31 := by
    rw [BitVec.toNat_ofNat, Nat.mod_eq_of_lt (by omega)]
  have some' : BitVec.ofNat 32 (a.toNat + m.toNat - 2 ^ 31) ≠ 0 := by
    intro zero
    rw [zero] at few
    simp only [show (0 : Word).toNat = 0 from rfl] at few
    omega
  have up := upward_of_pos pos
  have fitsPB : PartFits v PB := by
    rw [isPB] at flatPB ⊢
    by_cases empty : n = 0
    · rw [if_pos empty]
      refine .inr (.inr (.inr (.inr (.inr (.inr (.inr (.inl ⟨.inl rfl, nonconst, fun mem => ?_⟩)))))))
      exact absurd mem (single (single' empty))
    · rw [if_neg empty] at flatPB ⊢
      exact stepFits_halfLine nonconst (up.symm ▸ pos) (up.symm ▸ flat) flatPB fun zero => absurd zero empty
  have fitsQB : PartFits v QB := by
    rw [isQB] at flatQB ⊢
    exact stepFits_halfLine nonconst (up.symm ▸ pos) (up.symm ▸ flat) flatQB fun zero => absurd zero some'
  have nothing : interPart v QB = .ok none := by
    rw [isQB]
    exact interPart_apart val nonconst pos flat nonneg some' (by omega)
  refine ⟨⟨fitsPB, fitsQB, .inl rfl, .inl rfl⟩, fun PA' PA2 QA' QA2 okPP okPQ okQP okQQ => ?_⟩
  cases nothing.symm.trans okPQ
  cases (interPart_none PB).symm.trans okQP
  cases (interPart_none QB).symm.trans okQQ
  exact ⟨.inr (.inr (.inl rfl)), .inr (.inr (.inl rfl)), .inr (.inr (.inl rfl))⟩

/-- A half line of unsigned numbers meets a progression that stays above 0 as signed numbers. -/
theorem interFits_halfLine {a m : Word} (val : v.kind = .val) (nonconst : ¬ v.isConst)
    (pos : 0 < v.upward.delta.toInt) (flat : Flat v.upward) (nonneg : 0 ≤ v.upward.base.toInt)
    (low : 0 ≤ a.toInt) (inside : a.toNat + m.toNat < 2 ^ 32) (apart : a.toNat + m.toNat ≠ 2 ^ 31)
    (single : m = 0 ∨ a = MAXn → a ∉ v.gamma) : InterFits v ⟨.val, a, 1, m⟩ := by
  have one : (1 : Word).toNat = 1 := rfl
  have up : (⟨.val, a, 1, m⟩ : Value).upward = ⟨.val, a, 1, m⟩ :=
    upward_of_pos (show 0 < (1 : Word).toInt by decide)
  by_cases flatW : Flat ⟨.val, a, 1, m⟩
  · exact stepFits_halfLine nonconst pos flat flatW fun zero => single (.inl zero)
  have base := toNat_of_nonneg low
  have size : (mag a : Int) = a.toInt := by
    unfold mag
    omega
  have long : 2 ^ 31 < a.toNat + m.toNat := by
    unfold Flat at flatW
    simp only [one, Nat.mul_one] at flatW
    omega
  have many : m ≠ 0 := by
    rintro rfl
    have := a.toInt_lt
    simp only [show (0 : Word).toNat = 0 from rfl] at long
    omega
  have constW : ¬ (⟨.val, a, 1, m⟩ : Value).isConst := not_or.mpr ⟨show (1 : Word) ≠ 0 by decide, many⟩
  refine .inr (.inr (.inr (.inr (.inr (.inr (.inr (.inr ⟨nonconst, constW, flat.oneLap, ?_, fun _ => ?_, fun _ => ?_⟩)))))))
  · rw [up]
    unfold OneLap
    simp only [one]
    omega
  · rw [up]
    have valU : v.upward.kind = .val := by
      unfold upward
      split
      · exact val
      · rfl
    refine splitFits_halfLine valU (upward_nonconst nonconst) pos flat nonneg low inside long fun greatest => ?_
    rw [gamma_upward val]
    exact single (.inr greatest)
  · rw [up]
    exact lcmFits_one pos rfl

/-! ### Progressions that pass no end -/

/-- A progression that goes up inside the signed numbers meets the half line of `ge`. -/
theorem geKeeps_of_signed (signed : v.Signed) (pos : 0 < v.delta.toInt) (single : k = MAXn → k ∉ v.gamma) :
    GeKeeps v k := by
  by_cases const : v.isConst
  · exact .inr (.inr (.inl const))
  have up := upward_of_pos pos
  have hi := k.toInt_lt
  have max : MAXn.toInt = 2 ^ 31 - 1 := rfl
  have flat : Flat ⟨.val, k, 1, MAXn - k⟩ := by
    unfold Flat
    simp only [show (1 : Word).toNat = 1 from rfl, toNat_sub_of_le (p := k) (q := MAXn) (by omega)]
    omega
  refine .inr (.inr (.inr ?_))
  rw [if_pos pos]
  refine stepFits_halfLine const (up.symm ▸ pos) (up.symm ▸ signed.flat pos) flat fun zero => single ?_
  exact (sub_eq_zero.mp zero).symm

/-- The words of a progression inside the signed numbers that starts above 0. -/
theorem Signed.nonneg (signed : v.Signed) (start : 0 ≤ v.start.toInt) (val : v.kind = .val) (hx : x ∈ v.gamma) :
    0 ≤ x.toInt := by
  rw [gamma_of_val val] at hx
  obtain ⟨j, le, rfl⟩ := hx
  exact start.trans (signed.start_le le)

theorem toNat_eq_of_nonneg {d : Word} (nonneg : 0 ≤ d.toInt) : (d.toNat : Int) = d.toInt := by
  rw [toInt_eq] at *
  split at * <;> omega

section

variable (signed : v.Signed) (start : 0 ≤ v.start.toInt) (val : v.kind = .val)
include signed start val

theorem Signed.subset_unsignedPart : v.gamma ⊆ v.unsignedPart := by
  have words : ∀ j ≤ v.mtimes.toNat, 0 ≤ (v.base + j • v.delta).toInt := fun j le =>
    signed.nonneg start val (mem_step val le)
  have first := words 0 (Nat.zero_le _)
  rw [zero_smul, add_zero] at first
  refine subset_reached fun j le => ?_
  rw [toNat_eq_of_nonneg (words j le), toNat_eq_of_nonneg first, signed.toInt_step le]

/-- A progression that goes up from 0 or above inside the signed numbers meets the half line of `geu`. -/
theorem geuKeeps_of_signed (pos : 0 < v.delta.toInt) (single : k = MAXn → k ∉ v.gamma) : GeuKeeps v k := by
  by_cases const : v.isConst
  · exact .inr (.inr (.inl const))
  have up := upward_of_pos pos
  have below := k.isLt
  have rest : (UMAXn - k).toNat = 2 ^ 32 - 1 - k.toNat := by
    rw [BitVec.toNat_sub_of_le (by rw [BitVec.le_def, toNat_UMAXn]; omega), toNat_UMAXn]
  have last : UMAXn - k = 0 → k = UMAXn := fun zero => (sub_eq_zero.mp zero).symm
  have negative : UMAXn ∉ v.gamma := fun mem =>
    absurd (signed.nonneg start val mem) (by decide)
  refine .inr (.inr (.inr ?_))
  rw [if_pos pos]
  by_cases low : 0 ≤ k.toInt
  · rw [start_of_nonneg pos.le] at start
    refine interFits_halfLine val const (up.symm ▸ pos) (up.symm ▸ signed.flat pos) (up.symm ▸ start) low
      (by omega) (by omega) fun ends => ?_
    rcases ends with zero | eq
    · rw [last zero]
      exact negative
    · exact single eq
  · have flat : Flat ⟨.val, k, 1, UMAXn - k⟩ := by
      have := toInt_eq k
      unfold Flat
      simp only [show (1 : Word).toNat = 1 from rfl, rest]
      split at this <;> omega
    refine stepFits_halfLine const (up.symm ▸ pos) (up.symm ▸ signed.flat pos) flat fun zero => ?_
    rw [last zero]
    exact negative

/-- A progression that goes down to 0 or above meets the half line of `leu`. -/
theorem leuKeeps_of_signed
    (neg : v.delta.toInt < 0) (ne : k ≠ MINn) (single : k = 0 → k ∉ v.gamma) : LeuKeeps v k := by
  by_cases const : v.isConst
  · exact .inr (.inr (.inl const))
  have below := k.isLt
  have many : 0 < v.mtimes.toNat := Nat.pos_of_ne_zero fun zero => const (.inr (BitVec.eq_of_toNat_eq zero))
  have up : v.upward = v.reverse := if_neg (by simp [direction, neg.le])
  have hi := v.base.toInt_lt
  rw [start_of_neg neg] at start
  have first := signed.toInt_last
  have step : -v.delta.toInt ≤ v.mtimes.toNat * -v.delta.toInt :=
    le_mul_of_one_le_left (by omega) (by exact_mod_cast many)
  rw [mul_neg] at step
  have opposite : (-v.delta).toInt = -v.delta.toInt := by
    refine BitVec.toInt_neg_of_ne_intMin fun least => ?_
    have : v.delta.toInt = -2 ^ 31 := by rw [least]; rfl
    omega
  have pos : 0 < v.upward.delta.toInt := by
    rw [up]
    show 0 < (-v.delta).toInt
    omega
  have flat : Flat v.upward := by
    rw [up]
    unfold Flat reverse
    simp only
    rw [first, Nat.cast_mul, toNat_neg_of_neg neg, mul_neg]
    omega
  refine .inr (.inr (.inr ?_))
  rw [if_pos neg]
  refine interFits_halfLine val const pos flat (by rw [up]; exact start) (by decide) ?_ ?_ ?_
  · simp only [show (0 : Word).toNat = 0 from rfl]
    omega
  · simp only [show (0 : Word).toNat = 0 from rfl, zero_add]
    exact fun eq => ne (BitVec.eq_of_toNat_eq eq)
  · rintro (zero | max)
    · exact zero ▸ single zero
    · exact absurd max (by decide)

end

/-! ### The filters -/

end Otawa.Clp.Value
