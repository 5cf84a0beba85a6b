import Otawa.Clp.State

/-!
# Widening with a known loop bound

`Value.ffwidening`, which `State.widening` applies when the bound of the loop is known.
Two constants give the progression of `loopBound` steps from the one to the other, and
that is every word `k1 + i * (k2 - k1)` up to the bound, in 32 bits as anywhere else.
What can be lost are the words of the second value:

* the shortcut for a value that is already shifted by the step returns the first value,
  which need not hold the shifted one (`Covered`), nor anything if its kind is `NONE`;
* with the bound 0, two constants give the first one.
-/

namespace Otawa.Clp.Value

open Otawa.Progression

variable {s c : Value} {N : Word}

/-- The test of the shortcut: `val == this + k`. -/
def Shifted (s c : Value) : Prop :=
  s.delta = c.delta ∧ (c.base - s.base).srem s.delta = 0 ∧ c.mtimes ≤ s.mtimes

/-- The second progression, of the same step, starts and ends within the first one, or
the first one has come back to its start. -/
def Covered (s c : Value) : Prop :=
  (∃ q, c.base = s.base + q • s.delta ∧ q + c.mtimes.toNat ≤ s.mtimes.toNat) ∨
    ∃ m, 0 < m ∧ m ≤ s.mtimes.toNat + 1 ∧ m • s.delta = 0

/-- The operands of which the widening holds every word. -/
def FfWideningFits (s c : Value) (loopBound : Word) : Prop :=
  s = c ∨ s.kind = .all ∨ c.kind ≠ .val ∨
    (s.isConst ∧ c.isConst ∧ (loopBound ≠ 0 ∨ s.base = c.base)) ∨
    (¬ (s.isConst ∧ c.isConst) ∧ (Shifted s c → s.kind = .val ∧ Covered s c))

/-! ### Constants -/

/-- The progression between two constants, in either direction. -/
theorem ffwidening_consts (nones : ¬ (s.kind = .none ∧ c.kind = .none))
    (tops : ¬ (s.kind = .all ∨ c.kind = .all)) (ne : s ≠ c) (consts : s.isConst ∧ c.isConst) :
    (s.ffwidening c N).gamma = prog s.base (c.base - s.base) N.toNat := by
  unfold ffwidening
  rw [if_neg nones, if_neg tops, if_neg ne, if_pos consts]
  by_cases up : s.base.toInt < c.base.toInt
  · rw [if_pos up, gamma_val]
  · rw [if_neg up, gamma_val]
    -- Read from its other end.
    have steps : N.toNat • (s.base - c.base) = N * (s.base - c.base) := by
      rw [toNat_nsmul, mul_comm]
    have back := prog_reverse (s.base - N * (s.base - c.base)) (s.base - c.base) N.toNat
    rw [steps, sub_add_cancel, neg_sub] at back
    exact back.symm

/-- The second constant is reached by the first step. -/
theorem second_mem_iff : c.base ∈ prog s.base (c.base - s.base) N.toNat ↔ N ≠ 0 ∨ s.base = c.base := by
  constructor
  · intro mem
    by_cases zero : N = 0
    · rw [zero] at mem
      rw [show (0 : Word).toNat = 0 from rfl, prog_zero_count] at mem
      exact .inr mem.symm
    · exact .inl zero
  · rintro (ne | eq)
    · have one : 1 ≤ N.toNat := Nat.pos_of_ne_zero fun zero => ne (BitVec.eq_of_toNat_eq zero)
      exact ⟨1, one, by rw [one_smul, add_sub_cancel]⟩
    · rw [← eq]
      exact base_mem _ _ _

/-! ### The shortcut -/

/-- A distance without remainder is a multiple of the step. -/
theorem Shifted.multiple (h : Shifted s c) : ∃ z : Int, c.base = s.base + z • s.delta := by
  have rem := congrArg BitVec.toInt h.2.1
  rw [BitVec.toInt_srem] at rem
  obtain ⟨z, eq⟩ := Int.dvd_of_tmod_eq_zero rem
  refine ⟨z, ?_⟩
  have distance : c.base - s.base = z • s.delta := by
    rw [← BitVec.ofInt_toInt (x := c.base - s.base), eq, BitVec.ofInt_mul, BitVec.ofInt_toInt, mul_comm,
      zsmul_eq]
  rw [← distance, add_sub_cancel]

/-- A shifted progression is within the first one just when it is covered. -/
theorem Shifted.subset_iff (h : Shifted s c) :
    prog c.base c.delta c.mtimes.toNat ⊆ prog s.base s.delta s.mtimes.toNat ↔ Covered s c := by
  rw [← h.1]
  constructor
  · intro subset
    by_cases closed : addOrderOf s.delta ≤ s.mtimes.toNat + 1
    · have pos : 0 < addOrderOf s.delta := by
        rw [addOrderOf_pos_iff]
        exact isOfFinAddOrder_iff_nsmul_eq_zero.mpr ⟨2 ^ 32, Nat.two_pow_pos 32, period s.delta⟩
      exact .inr ⟨addOrderOf s.delta, pos, closed, addOrderOf_nsmul_eq_zero s.delta⟩
    · obtain ⟨q, le, eq⟩ := subset (base_mem c.base s.delta c.mtimes.toNat)
      rw [eq] at subset
      have inside := (prog_subset_prog_iff (not_le.mp closed) (le.trans (Nat.le_add_right _ 1))).mp subset
      exact .inl ⟨q, eq, inside⟩
  · rintro (⟨q, eq, le⟩ | ⟨m, pos, le, closed⟩)
    · have inside := prog_subset (b := s.base) (g := s.delta) (q := q) (p := 1)
        (n := c.mtimes.toNat) (m := s.mtimes.toNat) (by rwa [mul_one])
      rwa [one_smul, ← eq] at inside
    · obtain ⟨z, eq⟩ := h.multiple
      rintro x ⟨k, -, rfl⟩
      have reach := zsmul_mem_of_period (b := s.base) pos closed (z + k)
      rw [add_smul, natCast_zsmul, ← add_assoc, ← eq] at reach
      exact prog_mono (Nat.sub_le_of_le_add le) reach

/-! ### Soundness -/

/-- A set with the words of both values and, between two constants, each word up to the
bound. -/
def Bounds (s c : Value) (loopBound : Word) (t : Set Word) : Prop :=
  s.gamma ⊆ t ∧ c.gamma ⊆ t ∧
    (s.kind = .val → s.isConst → c.kind = .val → c.isConst → ∀ i ≤ loopBound.toNat,
      s.base + i • (c.base - s.base) ∈ t)

theorem bounds_univ : Bounds s c N Set.univ :=
  ⟨Set.subset_univ _, Set.subset_univ _, fun _ _ _ _ _ _ => Set.mem_univ _⟩

theorem bounds_self : Bounds s s N s.gamma := by
  refine ⟨subset_rfl, subset_rfl, fun val _ _ _ i _ => ?_⟩
  rw [sub_self, smul_zero, add_zero, gamma_of_val val]
  exact base_mem _ _ _

/-- Two constants: the second one is reached by the first step, if there is one. -/
theorem bounds_consts_iff (kindS : s.kind ≠ .all) (kindC : c.kind ≠ .all)
    (consts : s.isConst ∧ c.isConst) :
    Bounds s c N (prog s.base (c.base - s.base) N.toNat) ↔
      (c.kind = .val → N ≠ 0 ∨ s.base = c.base) := by
  have first : s.gamma ⊆ prog s.base (c.base - s.base) N.toNat :=
    (gamma_subset_const kindS consts.1).trans (Set.singleton_subset_iff.mpr (base_mem _ _ _))
  have second := subset_iff_of_kind (P := N ≠ 0 ∨ s.base = c.base)
    (t := prog s.base (c.base - s.base) N.toNat) kindC fun val => by
      have base : c.base ∈ c.gamma := by
        rw [gamma_of_val val]
        exact base_mem _ _ _
      rw [← second_mem_iff, ← gamma_of_val val]
      exact ⟨fun subset => subset base, fun mem =>
        (gamma_subset_const kindC consts.2).trans (Set.singleton_subset_iff.mpr mem)⟩
  unfold Bounds
  rw [second]
  exact ⟨fun h => h.2.1, fun h => ⟨first, h, fun _ _ _ _ i le => ⟨i, le, rfl⟩⟩⟩

/-- The shortcut: the first value is the bound of both. -/
theorem bounds_shifted_iff (kindS : s.kind ≠ .all) (kindC : c.kind ≠ .all)
    (nonconst : ¬ (s.isConst ∧ c.isConst)) (shifted : Shifted s c) :
    Bounds s c N s.gamma ↔ (c.kind = .val → s.kind = .val ∧ Covered s c) := by
  have second := subset_iff_of_kind (P := s.kind = .val ∧ Covered s c) (t := s.gamma) kindC
    fun val => by
      constructor
      · intro subset
        have valS := (kind_of_mem (subset (base_mem _ _ _))).resolve_right kindS
        rw [gamma_of_val valS] at subset
        exact ⟨valS, shifted.subset_iff.mp subset⟩
      · rintro ⟨valS, covered⟩
        rw [gamma_of_val valS]
        exact shifted.subset_iff.mpr covered
  unfold Bounds
  rw [second]
  exact ⟨fun h => h.2.1, fun h => ⟨subset_rfl, h, fun _ const _ const' => absurd ⟨const, const'⟩ nonconst⟩⟩

/-- With a known bound, the widening holds the words of both values, and each word
between two constants up to the bound, on these operands and no others. -/
theorem ffwidening_sound_iff (s c : Value) (loopBound : Word) :
    (s.gamma ⊆ (s.ffwidening c loopBound).gamma ∧ c.gamma ⊆ (s.ffwidening c loopBound).gamma ∧
      (s.kind = .val → s.isConst → c.kind = .val → c.isConst → ∀ i ≤ loopBound.toNat,
        s.base + i • (c.base - s.base) ∈ (s.ffwidening c loopBound).gamma)) ↔
      FfWideningFits s c loopBound := by
  change Bounds s c loopBound (s.ffwidening c loopBound).gamma ↔ _
  unfold FfWideningFits
  by_cases nones : s.kind = .none ∧ c.kind = .none
  · have result : s.ffwidening c loopBound = s := if_pos nones
    have kind : c.kind ≠ .val := fun h => nomatch nones.2.symm.trans h
    have empty : c.gamma = ∅ := gamma_eq_empty (fun h => nomatch nones.2.symm.trans h) kind
    rw [result, Bounds, empty]
    refine iff_of_true ⟨subset_rfl, Set.empty_subset _, fun h => ?_⟩ (.inr (.inr (.inl kind)))
    exact nomatch nones.1.symm.trans h
  by_cases tops : s.kind = .all ∨ c.kind = .all
  · have result : s.ffwidening c loopBound = all := (if_neg nones).trans (if_pos tops)
    rw [result, gamma_all]
    refine iff_of_true bounds_univ ?_
    rcases tops with top | top
    · exact .inr (.inl top)
    · exact .inr (.inr (.inl fun h => nomatch top.symm.trans h))
  by_cases same : s = c
  · have result : s.ffwidening c loopBound = s :=
      (if_neg nones).trans ((if_neg tops).trans (if_pos same))
    rw [result, ← same]
    exact iff_of_true bounds_self (.inl rfl)
  have kindS : s.kind ≠ .all := fun h => tops (.inl h)
  have kindC : c.kind ≠ .all := fun h => tops (.inr h)
  rw [or_iff_right same, or_iff_right kindS]
  by_cases consts : s.isConst ∧ c.isConst
  · have others : ¬ (¬ (s.isConst ∧ c.isConst) ∧
        (Shifted s c → s.kind = .val ∧ Covered s c)) := fun h => h.1 consts
    rw [ffwidening_consts nones tops same consts, bounds_consts_iff kindS kindC consts,
      or_iff_left others, ← and_assoc, and_iff_right consts]
    exact imp_iff_not_or
  have others : ¬ (s.isConst ∧ c.isConst ∧ (loopBound ≠ 0 ∨ s.base = c.base)) :=
    fun h => consts ⟨h.1, h.2.1⟩
  rw [or_iff_right others, and_iff_right consts]
  by_cases shifted : Shifted s c
  · have result : s.ffwidening c loopBound = s :=
      (if_neg nones).trans ((if_neg tops).trans ((if_neg same).trans
        ((if_neg consts).trans (if_pos shifted))))
    rw [result, bounds_shifted_iff kindS kindC consts shifted, forall_prop_of_true shifted]
    exact imp_iff_not_or
  · have result : s.ffwidening c loopBound = all :=
      (if_neg nones).trans ((if_neg tops).trans ((if_neg same).trans
        ((if_neg consts).trans (if_neg shifted))))
    rw [result, gamma_all]
    exact iff_of_true bounds_univ (.inr fun h => absurd h shifted)

/-- 0, …, 10 after one iteration that adds 1: the shortcut returns 0, …, 10, without 11. -/
theorem ffwidening_forgets_shift :
    ¬ ∀ (s c : Value) (loopBound : Word),
      s.gamma ⊆ (s.ffwidening c loopBound).gamma ∧ c.gamma ⊆ (s.ffwidening c loopBound).gamma ∧
        (s.kind = .val → s.isConst → c.kind = .val → c.isConst → ∀ i ≤ loopBound.toNat,
          s.base + i • (c.base - s.base) ∈ (s.ffwidening c loopBound).gamma) := by
  intro sound
  have kept := (sound ⟨.val, 0, 1, 10⟩ ⟨.val, 1, 1, 10⟩ 5).2.1
  have result : (⟨.val, 0, 1, 10⟩ : Value).ffwidening ⟨.val, 1, 1, 10⟩ 5 = ⟨.val, 0, 1, 10⟩ := by
    decide
  rw [result] at kept
  have lost := kept (show (11 : Word) ∈ gamma _ from ⟨10, by decide, by decide⟩)
  exact absurd lost (by simp only [gamma]; decide)

end Otawa.Clp.Value
