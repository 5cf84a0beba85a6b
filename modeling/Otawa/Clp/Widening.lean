import Otawa.Clp.Value
import Otawa.Lib.Chain

/-!
# Widening of CLP values

`Value.widening`, which the loop of `WideningFixPoint` applies at each iteration.
Two values whose starts and stops moved the same way are widened to the infinite on
that side, by their common step when the move is of one step and by 1 otherwise.

Three things go wrong, and `widening_sound_and_settles` says exactly when:

* a left operand of kind `NONE` keeps its kind, so the words of the right one are
  lost (`join` has a case for it);
* the infinite count of a step `d` is `UMAXn / d`, which stops before `2 ^ 32`; an
  operand that wraps further than that loses words, unless `d` divides `2 ^ 32`;
* a value that went to the infinite upward is read from its other end when the next
  value is below, and goes to the infinite downward: two such values can follow each
  other for ever.
-/

namespace Otawa.Clp.Value

open Otawa.Progression Otawa.Chain

/-- The step kept by a move of `near` and `far` ends: the common step of the operands
when the far end moves by one step and the near end by none or one, else 1. -/
def widenedStep (s c : Value) (near far : Word) : Word :=
  let absd := abs s.delta
  if absd ≠ abs c.delta ∨ (near ≠ 0 ∧ near ≠ absd) ∨ far ≠ absd then 1 else absd

def widening (s val : Value) : Value :=
  if s.kind = .none ∧ val.kind = .none then s
  else if s.kind = .all ∨ val.kind = .all then all
  else if s = val then s
  else if s.isConst ∧ val.isConst then { s with delta := val.base - s.base, mtimes := UMAXn }
  else if val.start.toInt ≤ s.start.toInt ∧ val.stop.toInt ≤ s.stop.toInt then
    let absd := widenedStep s val (s.stop - val.stop) (s.start - val.start)
    ⟨s.kind, s.stop, -absd, UMAXn / absd⟩
  else if s.start.toInt ≤ val.start.toInt ∧ s.stop.toInt ≤ val.stop.toInt then
    let absd := widenedStep s val (val.start - s.start) (val.stop - s.stop)
    ⟨s.kind, s.start, absd, UMAXn / absd⟩
  else all

/-! ### The cases of the widening -/

variable {s c v : Value} {x : Word}

/-- The operands are compared by their ends: the earlier cases do not apply. -/
structure Compared (s c : Value) : Prop where
  nonempty : ¬ (s.kind = .none ∧ c.kind = .none)
  nontop : ¬ (s.kind = .all ∨ c.kind = .all)
  ne : s ≠ c
  nonconst : ¬ (s.isConst ∧ c.isConst)

/-- Both ends moved down. -/
def Lowers (s c : Value) : Prop := c.start.toInt ≤ s.start.toInt ∧ c.stop.toInt ≤ s.stop.toInt

/-- Both ends moved up, and not both down. -/
def Raises (s c : Value) : Prop :=
  ¬ Lowers s c ∧ s.start.toInt ≤ c.start.toInt ∧ s.stop.toInt ≤ c.stop.toInt

def lowered (s c : Value) : Value :=
  let absd := widenedStep s c (s.stop - c.stop) (s.start - c.start)
  ⟨s.kind, s.stop, -absd, UMAXn / absd⟩

def raised (s c : Value) : Value :=
  let absd := widenedStep s c (c.start - s.start) (c.stop - s.stop)
  ⟨s.kind, s.start, absd, UMAXn / absd⟩

/-- What the widening can do, with the tests that lead there. -/
theorem widening_cases (s c : Value) :
    (((s.kind = .none ∧ c.kind = .none) ∨ s.kind ≠ .all ∧ s = c) ∧ s.widening c = s) ∨
      ((s.kind = .all ∨ c.kind = .all ∨ (Compared s c ∧ ¬ Lowers s c ∧ ¬ Raises s c)) ∧
        s.widening c = all) ∨
      ((s.kind ≠ .all ∧ c.kind ≠ .all ∧ s.isConst ∧ c.isConst) ∧
        s.widening c = { s with delta := c.base - s.base, mtimes := UMAXn }) ∨
      ((Compared s c ∧ Lowers s c) ∧ s.widening c = lowered s c) ∨
      ((Compared s c ∧ Raises s c) ∧ s.widening c = raised s c) := by
  unfold widening
  by_cases nones : s.kind = .none ∧ c.kind = .none
  · exact .inl ⟨.inl nones, if_pos nones⟩
  rw [if_neg nones]
  by_cases top : s.kind = .all ∨ c.kind = .all
  · exact .inr (.inl ⟨top.imp_right .inl, if_pos top⟩)
  rw [if_neg top]
  by_cases same : s = c
  · exact .inl ⟨.inr ⟨fun h => top (.inl h), same⟩, if_pos same⟩
  rw [if_neg same]
  by_cases consts : s.isConst ∧ c.isConst
  · exact .inr (.inr (.inl ⟨⟨fun h => top (.inl h), fun h => top (.inr h), consts⟩, if_pos consts⟩))
  rw [if_neg consts]
  have compared : Compared s c := ⟨nones, top, same, consts⟩
  by_cases lowers : c.start.toInt ≤ s.start.toInt ∧ c.stop.toInt ≤ s.stop.toInt
  · exact .inr (.inr (.inr (.inl ⟨⟨compared, lowers⟩, if_pos lowers⟩)))
  rw [if_neg lowers]
  by_cases raises : s.start.toInt ≤ c.start.toInt ∧ s.stop.toInt ≤ c.stop.toInt
  · exact .inr (.inr (.inr (.inr ⟨⟨compared, lowers, raises⟩, if_pos raises⟩)))
  · exact .inr (.inl ⟨.inr (.inr ⟨compared, lowers, fun h => raises h.2⟩), if_neg raises⟩)

/-- The step is kept: the far end moved by the common step, the near one by none or
one step. -/
def KeepsStep (s c : Value) (near far : Word) : Prop :=
  abs s.delta = abs c.delta ∧ (near = 0 ∨ near = abs s.delta) ∧ far = abs s.delta

theorem widenedStep_of_keeps {near far : Word} (keeps : KeepsStep s c near far) :
    widenedStep s c near far = abs s.delta := by
  obtain ⟨same, nearEnd, farEnd⟩ := keeps
  refine if_neg ?_
  rintro (ne | ⟨ne, ne'⟩ | ne)
  · exact ne same
  · exact nearEnd.elim ne ne'
  · exact ne farEnd

theorem widenedStep_of_not_keeps {near far : Word} (loses : ¬ KeepsStep s c near far) :
    widenedStep s c near far = 1 := by
  refine if_pos ?_
  by_contra h
  simp only [not_or, not_and, not_not] at h
  exact loses ⟨h.1, or_iff_not_imp_left.mpr h.2.1, h.2.2⟩

/-! ### Infinite progressions of a step -/

/-- A step that does not divide `2 ^ 32` and its infinite count stop before the
progression closes. -/
private theorem infinite_lt_addOrderOf {d : Word} (ne : d ≠ 0) (le : d.toNat ≤ 2 ^ 31)
    (ndvd : ¬ d.toNat ∣ 2 ^ 32) : (2 ^ 32 - 1) / d.toNat + 1 < addOrderOf d := by
  have pos : 0 < d.toNat := Nat.pos_of_ne_zero fun zero => ne (BitVec.eq_of_toNat_eq zero)
  have closes : addOrderOf d • d = 0 := addOrderOf_nsmul_eq_zero d
  have multiple : 2 ^ 32 ∣ addOrderOf d * d.toNat := by
    apply Nat.dvd_of_mod_eq_zero
    have := congrArg BitVec.toNat closes
    rwa [nsmul_eq, BitVec.toNat_mul, BitVec.toNat_ofNat, Nat.mod_mul_mod] at this
  obtain ⟨t, eq⟩ := multiple
  have ordPos : 0 < addOrderOf d := by
    rw [addOrderOf_pos_iff]
    exact isOfFinAddOrder_iff_nsmul_eq_zero.mpr ⟨2 ^ 32, Nat.two_pow_pos 32, period d⟩
  have twice : 2 ≤ t := by
    rcases t with - | - | t
    · have := Nat.mul_pos ordPos pos
      omega
    · exact absurd ⟨addOrderOf d, by rw [mul_comm, eq, zero_add, mul_one]⟩ ndvd
    · omega
  have quotient := Nat.div_mul_le_self (2 ^ 32 - 1) d.toNat
  refine Nat.lt_of_mul_lt_mul_right (a := d.toNat) ?_
  rw [add_mul, one_mul]
  omega

/-- A step that divides `2 ^ 32` closes with its infinite count. -/
private theorem mem_infinite_of_dvd {b d g : Word} (way : g = d ∨ g = -d) (dvd : d.toNat ∣ 2 ^ 32)
    (k : Nat) : b + k • g ∈ prog b g ((2 ^ 32 - 1) / d.toNat) := by
  have pos : 0 < d.toNat := Nat.pos_of_dvd_of_pos dvd (Nat.two_pow_pos 32)
  obtain ⟨t, eq⟩ := dvd
  have tpos : 0 < t := Nat.pos_of_ne_zero fun zero => by simp [zero] at eq
  have count : (2 ^ 32 - 1) / d.toNat = t - 1 := by
    obtain ⟨t, rfl⟩ := Nat.exists_eq_succ_of_ne_zero tpos.ne'
    have expand : 2 ^ 32 - 1 = d.toNat - 1 + d.toNat * t := by
      rw [eq, Nat.mul_succ]
      omega
    rw [expand, Nat.add_mul_div_left _ _ pos, Nat.div_eq_of_lt (by omega)]
    omega
  have closed : t • d = 0 := by
    rw [nsmul_eq]
    apply BitVec.eq_of_toNat_eq
    rw [BitVec.toNat_mul, BitVec.toNat_ofNat, Nat.mod_mul_mod, mul_comm, ← eq]
    rfl
  have back : t • g = 0 := by
    rcases way with rfl | rfl
    · exact closed
    · rw [smul_neg, closed, neg_zero]
  rw [count]
  exact nsmul_mem_of_period tpos back k

/-- `n` steps of `d` are within its infinite progression. -/
def CountFits (d : Word) (n : Nat) : Prop := d.toNat ∣ 2 ^ 32 ∨ n ≤ (2 ^ 32 - 1) / d.toNat

/-- A progression is within the infinite one of its step, from the base or one step
on, just when its count fits. -/
theorem prog_subset_infinite_iff {b d g : Word} {q n : Nat} (way : g = d ∨ g = -d) (ne : d ≠ 0)
    (le : d.toNat ≤ 2 ^ 31) (leq : q ≤ 1) :
    prog (b + q • g) g n ⊆ prog b g (UMAXn / d).toNat ↔ CountFits d (q + n) := by
  rw [BitVec.toNat_udiv, toNat_UMAXn]
  by_cases dvd : d.toNat ∣ 2 ^ 32
  · refine iff_of_true ?_ (.inl dvd)
    rintro x ⟨k, -, rfl⟩
    rw [add_assoc, ← add_smul]
    exact mem_infinite_of_dvd way dvd (q + k)
  · have lt := infinite_lt_addOrderOf ne le dvd
    have order : addOrderOf g = addOrderOf d := by
      rcases way with rfl | rfl
      · rfl
      · exact addOrderOf_neg d
    rw [prog_subset_prog_iff (order ▸ lt) (leq.trans (Nat.le_add_left 1 _))]
    exact ⟨.inr, fun fits => fits.resolve_left dvd⟩

/-! ### Soundness of one widening -/

/-- The counts of both operands fit, that of the right one with the step by which its
near end is away. -/
def KeptFits (s c : Value) (near : Word) : Prop :=
  CountFits (abs s.delta) s.mtimes.toNat ∧
    (c.kind = .val → CountFits (abs s.delta) ((if near = 0 then 0 else 1) + c.mtimes.toNat))

/-- The operands of which the widening holds every word. -/
def WideningFits (s c : Value) : Prop :=
  s = c ∨ s.kind = .all ∨ c.kind = .all ∨ (s.kind ≠ .val ∧ c.kind ≠ .val) ∨
    (Compared s c ∧ ¬ Lowers s c ∧ ¬ Raises s c) ∨
    (s.kind = .val ∧ (Compared s c →
      (Lowers s c → KeepsStep s c (s.stop - c.stop) (s.start - c.start) →
        KeptFits s c (s.stop - c.stop)) ∧
      (Raises s c → KeepsStep s c (c.start - s.start) (c.stop - s.stop) →
        KeptFits s c (c.start - s.start))))

theorem gamma_eq_empty (h : v.kind ≠ .all) (h' : v.kind ≠ .val) : v.gamma = ∅ :=
  Set.eq_empty_iff_forall_notMem.mpr fun _ mem => (kind_of_mem mem).elim h' h

/-- A right operand without words is in any progression. -/
theorem subset_iff_of_kind {t : Set Word} {P : Prop} (top : c.kind ≠ .all)
    (val : c.kind = .val → (prog c.base c.delta c.mtimes.toNat ⊆ t ↔ P)) :
    c.gamma ⊆ t ↔ (c.kind = .val → P) := by
  by_cases h : c.kind = .val
  · rw [gamma_of_val h, val h]
    exact ⟨fun p _ => p, fun p => p h⟩
  · rw [gamma_eq_empty top h]
    exact iff_of_true (Set.empty_subset _) fun h' => absurd h' h

theorem Compared.delta_ne (h : Compared s c) (same : abs s.delta = abs c.delta) :
    abs s.delta ≠ 0 := by
  intro zero
  have isZero : ∀ d : Word, abs d = 0 → d = 0 := by
    intro d zero
    rw [← mag_eq_zero, ← toNat_abs, zero]
    rfl
  exact h.nonconst ⟨.inl (isZero _ zero), .inl (isZero _ (same ▸ zero))⟩

/-- The kept step, in either direction: both operands are read from the end `e` and
`e'` of the near side, by the step `g` that goes to the far side. -/
private theorem kept_iff {e e' g near : Word} (h : Compared s c) (val : s.kind = .val)
    (same : abs s.delta = abs c.delta) (way : g = abs s.delta ∨ g = -abs s.delta)
    (left : prog e g s.mtimes.toNat = prog s.base s.delta s.mtimes.toNat)
    (right : prog e' g c.mtimes.toNat = prog c.base c.delta c.mtimes.toNat)
    (ends : (near = 0 → e' = e) ∧ (near ≠ 0 → e' = e + g)) :
    (s.gamma ⊆ prog e g (UMAXn / abs s.delta).toNat ∧
      c.gamma ⊆ prog e g (UMAXn / abs s.delta).toNat) ↔ KeptFits s c near := by
  have ne := h.delta_ne same
  have le : (abs s.delta).toNat ≤ 2 ^ 31 := by
    rw [toNat_abs]
    exact mag_le _
  refine and_congr ?_ (subset_iff_of_kind (fun top => h.nontop (.inr top)) fun _ => ?_)
  · rw [gamma_of_val val, ← left]
    have inside := prog_subset_infinite_iff (b := e) (q := 0) (n := s.mtimes.toNat) way ne le
      (Nat.zero_le 1)
    rwa [zero_smul, add_zero, zero_add] at inside
  · rw [← right]
    by_cases zero : near = 0
    · rw [if_pos zero, ends.1 zero]
      have inside := prog_subset_infinite_iff (b := e) (q := 0) (n := c.mtimes.toNat) way ne le
        (Nat.zero_le 1)
      rwa [zero_smul, add_zero] at inside
    · rw [if_neg zero, ends.2 zero]
      have inside := prog_subset_infinite_iff (b := e) (q := 1) (n := c.mtimes.toNat) way ne le le_rfl
      rwa [one_smul] at inside

private theorem lowered_iff (h : Compared s c) (val : s.kind = .val)
    (keeps : KeepsStep s c (s.stop - c.stop) (s.start - c.start)) :
    (s.gamma ⊆ (lowered s c).gamma ∧ c.gamma ⊆ (lowered s c).gamma) ↔
      KeptFits s c (s.stop - c.stop) := by
  have result : (lowered s c).gamma = prog s.stop (-abs s.delta) (UMAXn / abs s.delta).toNat := by
    rw [gamma_of_val (show (lowered s c).kind = .val from val)]
    simp only [lowered, widenedStep_of_keeps keeps]
  obtain ⟨same, near, -⟩ := keeps
  rw [result]
  refine kept_iff h val same (.inr rfl) (prog_stop s) (same ▸ prog_stop c)
    ⟨fun zero => (sub_eq_zero.mp zero).symm, fun ne => ?_⟩
  rw [← near.resolve_left ne]
  abel

private theorem raised_iff (h : Compared s c) (val : s.kind = .val)
    (keeps : KeepsStep s c (c.start - s.start) (c.stop - s.stop)) :
    (s.gamma ⊆ (raised s c).gamma ∧ c.gamma ⊆ (raised s c).gamma) ↔
      KeptFits s c (c.start - s.start) := by
  have result : (raised s c).gamma = prog s.start (abs s.delta) (UMAXn / abs s.delta).toNat := by
    rw [gamma_of_val (show (raised s c).kind = .val from val)]
    simp only [raised, widenedStep_of_keeps keeps]
  obtain ⟨same, near, -⟩ := keeps
  rw [result]
  refine kept_iff h val same (.inl rfl) (prog_start s) (same ▸ prog_start c)
    ⟨sub_eq_zero.mp, fun ne => ?_⟩
  rw [← near.resolve_left ne]
  abel

/-- The step 1 reaches every word. -/
private theorem lowered_eq_univ (val : s.kind = .val)
    (loses : ¬ KeepsStep s c (s.stop - c.stop) (s.start - c.start)) :
    (lowered s c).gamma = Set.univ := by
  rw [gamma_of_val (show (lowered s c).kind = .val from val)]
  simp only [lowered, widenedStep_of_not_keeps loses]
  exact prog_neg_one_eq_univ _

private theorem raised_eq_univ (val : s.kind = .val)
    (loses : ¬ KeepsStep s c (c.start - s.start) (c.stop - s.stop)) :
    (raised s c).gamma = Set.univ := by
  rw [gamma_of_val (show (raised s c).kind = .val from val)]
  simp only [raised, widenedStep_of_not_keeps loses]
  exact prog_one_eq_univ _

/-- Two constants are both in the progression that goes from one to the other. -/
private theorem constants_subset (topS : s.kind = .val) (topC : c.kind ≠ .all)
    (consts : s.isConst ∧ c.isConst) :
    s.gamma ⊆ prog s.base (c.base - s.base) (UMAXn).toNat ∧
      c.gamma ⊆ prog s.base (c.base - s.base) (UMAXn).toNat := by
  have only : ∀ v : Value, v.isConst → prog v.base v.delta v.mtimes.toNat = {v.base} := by
    rintro v (zero | zero)
    · rw [zero, prog_zero_step]
    · rw [zero]
      exact prog_zero_count
  constructor
  · rw [gamma_of_val topS, only s consts.1, Set.singleton_subset_iff]
    exact base_mem _ _ _
  · refine (gamma_subset_prog topC).trans ?_
    rw [only c consts.2, Set.singleton_subset_iff]
    have next := mem_prog_UMAXn s.base (c.base - s.base) 1
    rwa [one_smul, add_sub_cancel] at next

/-- A left operand without words keeps its kind, and so loses the right one's. -/
private theorem subset_iff_of_no_words {t : Value} (top : s.kind ≠ .all) (no : s.kind ≠ .val)
    (topC : c.kind ≠ .all) (kind : t.kind = s.kind) :
    (s.gamma ⊆ t.gamma ∧ c.gamma ⊆ t.gamma) ↔ c.kind ≠ .val := by
  rw [gamma_eq_empty top no, gamma_eq_empty (kind ▸ top) (kind ▸ no)]
  constructor
  · rintro ⟨-, empty⟩ val
    rw [gamma_of_val val] at empty
    exact empty (base_mem _ _ _)
  · intro noC
    rw [gamma_eq_empty topC noC]
    exact ⟨Set.Subset.rfl, Set.Subset.rfl⟩

/-- `WideningFits` where the left operand has no word and the result keeps its kind. -/
private theorem fits_iff_of_no_words (top : s.kind ≠ .all) (no : s.kind ≠ .val)
    (topC : c.kind ≠ .all) (near : ¬ (Compared s c ∧ ¬ Lowers s c ∧ ¬ Raises s c)) :
    WideningFits s c ↔ c.kind ≠ .val := by
  constructor
  · rintro (rfl | h | h | ⟨-, noC⟩ | h | ⟨h, -⟩)
    · exact no
    · exact absurd h top
    · exact absurd h topC
    · exact noC
    · exact absurd h near
    · exact absurd h no
  · exact fun noC => .inr (.inr (.inr (.inl ⟨no, noC⟩)))

/-- `WideningFits` where the left operand is a progression. -/
private theorem fits_iff_of_val (h : Compared s c) (val : s.kind = .val)
    (near : Lowers s c ∨ Raises s c) :
    WideningFits s c ↔
      (Lowers s c → KeepsStep s c (s.stop - c.stop) (s.start - c.start) →
        KeptFits s c (s.stop - c.stop)) ∧
      (Raises s c → KeepsStep s c (c.start - s.start) (c.stop - s.stop) →
        KeptFits s c (c.start - s.start)) := by
  constructor
  · rintro (same | top | top | ⟨no, -⟩ | ⟨-, notLowers, notRaises⟩ | ⟨-, fits⟩)
    · exact absurd same h.ne
    · exact absurd (.inl top) h.nontop
    · exact absurd (.inr top) h.nontop
    · exact absurd val no
    · exact absurd near (not_or.mpr ⟨notLowers, notRaises⟩)
    · exact fits h
  · exact fun fits => .inr (.inr (.inr (.inr (.inr ⟨val, fun _ => fits⟩))))

/-- Exactly when the widening holds the words of both operands. -/
theorem widening_sound_iff (s c : Value) :
    (s.gamma ⊆ (s.widening c).gamma ∧ c.gamma ⊆ (s.widening c).gamma) ↔ WideningFits s c := by
  rcases widening_cases s c with ⟨guard, eq⟩ | ⟨guard, eq⟩ | ⟨⟨topS, topC, consts⟩, eq⟩ |
    ⟨⟨compared, lowers⟩, eq⟩ | ⟨⟨compared, raises⟩, eq⟩ <;> rw [eq]
  · rcases guard with ⟨noneS, noneC⟩ | ⟨-, rfl⟩
    · refine iff_of_true ?_ (.inr (.inr (.inr (.inl (by simp [noneS, noneC])))))
      simp [gamma, noneS, noneC]
    · exact iff_of_true ⟨Set.Subset.rfl, Set.Subset.rfl⟩ (.inl rfl)
  · refine iff_of_true ⟨Set.subset_univ _, Set.subset_univ _⟩ ?_
    rcases guard with top | top | apart
    · exact .inr (.inl top)
    · exact .inr (.inr (.inl top))
    · exact .inr (.inr (.inr (.inr (.inl apart))))
  · by_cases val : s.kind = .val
    · have subset := constants_subset val topC consts
      rw [gamma_of_val (v := ⟨s.kind, s.base, c.base - s.base, UMAXn⟩) val]
      exact iff_of_true subset
        (.inr (.inr (.inr (.inr (.inr ⟨val, fun h => absurd consts h.nonconst⟩)))))
    · rw [fits_iff_of_no_words topS val topC fun h => h.1.nonconst consts]
      exact subset_iff_of_no_words topS val topC rfl
  · obtain ⟨topS, topC⟩ := not_or.mp compared.nontop
    by_cases val : s.kind = .val
    · rw [fits_iff_of_val compared val (.inl lowers)]
      have only : Raises s c → KeepsStep s c (c.start - s.start) (c.stop - s.stop) →
          KeptFits s c (c.start - s.start) := fun raises => absurd lowers raises.1
      by_cases keeps : KeepsStep s c (s.stop - c.stop) (s.start - c.start)
      · rw [lowered_iff compared val keeps]
        exact ⟨fun fits => ⟨fun _ _ => fits, only⟩, fun fits => fits.1 lowers keeps⟩
      · rw [lowered_eq_univ val keeps]
        exact iff_of_true ⟨Set.subset_univ _, Set.subset_univ _⟩ ⟨fun _ h => absurd h keeps, only⟩
    · rw [fits_iff_of_no_words topS val topC fun h => h.2.1 lowers]
      exact subset_iff_of_no_words topS val topC rfl
  · obtain ⟨topS, topC⟩ := not_or.mp compared.nontop
    by_cases val : s.kind = .val
    · rw [fits_iff_of_val compared val (.inr raises)]
      have only : Lowers s c → KeepsStep s c (s.stop - c.stop) (s.start - c.start) →
          KeptFits s c (s.stop - c.stop) := fun lowers => absurd lowers raises.1
      by_cases keeps : KeepsStep s c (c.start - s.start) (c.stop - s.stop)
      · rw [raised_iff compared val keeps]
        exact ⟨fun fits => ⟨only, fun _ _ => fits⟩, fun fits => fits.2 raises keeps⟩
      · rw [raised_eq_univ val keeps]
        exact iff_of_true ⟨Set.subset_univ _, Set.subset_univ _⟩ ⟨only, fun _ h => absurd h keeps⟩
    · rw [fits_iff_of_no_words topS val topC fun h => h.2.2 raises]
      exact subset_iff_of_no_words topS val topC rfl

/-! ### Chains of widenings -/

/-- `(lower, delta, mtimes)`. -/
def representation (v : Value) : Word × Word × Word := (v.base, v.delta, v.mtimes)

/-- A value that goes up is widened down, or the reverse. -/
def Turns (s c : Value) : Prop :=
  Compared s c ∧ ((Lowers s c ∧ 0 < s.delta.toInt) ∨ (Raises s c ∧ s.delta.toInt < 0))

/-- The result of a widening by the ends. -/
def Widened (v : Value) : Prop := v.delta ≠ 0 ∧ v.mtimes = UMAXn / abs v.delta

instance (v : Value) : Decidable (Widened v) := inferInstanceAs (Decidable (_ ∧ _))

/-- How far a value is from one that is widened no more, unless it turns. -/
def rank (v : Value) : Nat :=
  if v = all then 0
  else if v.kind = .all then 5
  else if Widened v then (if abs v.delta = 1 then 1 else 2)
  else if ¬ v.isConst then 3
  else if v.delta = 0 ∧ v.mtimes = UMAXn then 4
  else 5

/-- The step of a widening by the ends is not 0, and at most `2 ^ 31`. -/
theorem widenedStep_bounds (h : Compared s c) (near far : Word) :
    widenedStep s c near far ≠ 0 ∧ (widenedStep s c near far).toNat ≤ 2 ^ 31 := by
  by_cases keeps : KeepsStep s c near far
  · rw [widenedStep_of_keeps keeps]
    refine ⟨h.delta_ne keeps.1, ?_⟩
    rw [toNat_abs]
    exact mag_le _
  · rw [widenedStep_of_not_keeps keeps]
    exact ⟨by decide, by decide⟩

theorem abs_of_toNat_le {d : Word} (le : d.toNat ≤ 2 ^ 31) : abs d = d ∧ abs (-d) = d := by
  have magEq : mag d = d.toNat := by
    conv_lhs => rw [← BitVec.setWidth_eq d, ← BitVec.ofNat_toNat, mag_ofNat le]
  constructor
  · rw [abs_eq, magEq, BitVec.ofNat_toNat, BitVec.setWidth_eq]
  · rw [abs_eq, mag_neg, magEq, BitVec.ofNat_toNat, BitVec.setWidth_eq]

theorem rank_of_widened (top : v.kind ≠ .all) (w : Widened v) :
    rank v = if abs v.delta = 1 then 1 else 2 := by
  unfold rank
  rw [if_neg (fun eq => top (by rw [eq]; rfl)), if_neg top, if_pos w]

theorem two_lt_rank (top : v.kind ≠ .all) (w : ¬ Widened v) : 2 < rank v := by
  unfold rank
  rw [if_neg (fun eq => top (by rw [eq]; rfl)), if_neg top, if_neg w]
  split
  · omega
  · split <;> omega

/-- A widening by the ends, of a value that was already widened the same way, only
gives up the step. -/
private theorem calm_of_widened {t : Value} (top : s.kind ≠ .all) (kind : t.kind = s.kind)
    (w : Widened t) (step : abs t.delta = abs s.delta ∨ abs t.delta = 1)
    (same : Widened s → abs t.delta = abs s.delta → t = s) : t = s ∨ rank t < rank s := by
  have rankT := rank_of_widened (kind ▸ top) w
  by_cases ws : Widened s
  · by_cases eq : abs t.delta = abs s.delta
    · exact .inl (same ws eq)
    · have one := step.resolve_left eq
      rw [rankT, rank_of_widened top ws, if_pos one, if_neg (fun one' => eq (one.trans one'.symm))]
      exact .inr (by omega)
  · have := two_lt_rank top ws
    rw [rankT]
    split <;> exact .inr (by omega)

/-- The step a widening by the ends takes. -/
private theorem widenedStep_eq_or (s c : Value) (near far : Word) :
    widenedStep s c near far = abs s.delta ∨ widenedStep s c near far = 1 := by
  by_cases keeps : KeepsStep s c near far
  · exact .inl (widenedStep_of_keeps keeps)
  · exact .inr (widenedStep_of_not_keeps keeps)

private theorem lowered_calm (h : Compared s c) (down : ¬ 0 < s.delta.toInt) :
    lowered s c = s ∨ rank (lowered s c) < rank s := by
  obtain ⟨ne, le⟩ := widenedStep_bounds h (s.stop - c.stop) (s.start - c.start)
  have step := widenedStep_eq_or s c (s.stop - c.stop) (s.start - c.start)
  have magnitude : abs (lowered s c).delta = widenedStep s c (s.stop - c.stop) (s.start - c.start) :=
    (abs_of_toNat_le le).2
  refine calm_of_widened (fun top => h.nontop (.inl top)) rfl ⟨neg_ne_zero.mpr ne, ?_⟩
    (magnitude ▸ step) ?_
  · rw [magnitude]
    rfl
  · intro w eq
    have neg : s.delta.toInt < 0 := by
      have := mag_eq_zero.not.mpr w.1
      unfold mag at this
      omega
    rw [magnitude] at eq
    apply Value.ext
    · rfl
    · exact if_pos neg
    · simp only [lowered, eq, abs, if_neg (not_le.mpr neg), neg_neg]
    · simp only [lowered, eq, w.2]

private theorem raised_calm (h : Compared s c) (up : ¬ s.delta.toInt < 0) :
    raised s c = s ∨ rank (raised s c) < rank s := by
  obtain ⟨ne, le⟩ := widenedStep_bounds h (c.start - s.start) (c.stop - s.stop)
  have step := widenedStep_eq_or s c (c.start - s.start) (c.stop - s.stop)
  have magnitude : abs (raised s c).delta = widenedStep s c (c.start - s.start) (c.stop - s.stop) :=
    (abs_of_toNat_le le).1
  refine calm_of_widened (fun top => h.nontop (.inl top)) rfl ⟨ne, ?_⟩ (magnitude ▸ step) ?_
  · rw [magnitude]
    rfl
  · intro w eq
    rw [magnitude] at eq
    apply Value.ext
    · rfl
    · exact if_neg up
    · simp only [raised, eq, abs, if_pos (not_lt.mp up)]
    · simp only [raised, eq, w.2]

theorem Widened.nonconst (w : Widened v) : ¬ v.isConst := by
  rintro (zero | zero)
  · exact w.1 zero
  · have quotient := congrArg BitVec.toNat (zero.symm.trans w.2)
    have pos := Nat.pos_of_ne_zero (mag_eq_zero.not.mpr w.1)
    have le : mag v.delta ≤ 2 ^ 32 - 1 := (mag_le v.delta).trans (by omega)
    rw [BitVec.toNat_udiv, toNat_abs, toNat_UMAXn] at quotient
    exact (Nat.div_pos le pos).ne quotient

/-- Two constants are widened to a progression, or to the same constant. -/
private theorem constants_calm (top : s.kind ≠ .all) (const : s.isConst) (d : Word) :
    { s with delta := d, mtimes := UMAXn } = s ∨
      rank { s with delta := d, mtimes := UMAXn } < rank s := by
  have rankS : rank s = if s.delta = 0 ∧ s.mtimes = UMAXn then 4 else 5 := by
    unfold rank
    rw [if_neg (fun eq => top (by rw [eq]; rfl)), if_neg top, if_neg fun w => w.nonconst const,
      if_neg (not_not.mpr const)]
  have rankT : rank { s with delta := d, mtimes := UMAXn } ≤ if d = 0 then 4 else 3 := by
    unfold rank
    rw [if_neg (fun eq => top (congrArg kind eq)), if_neg top]
    by_cases zero : d = 0
    · subst zero
      rw [if_neg fun w => w.1 rfl, if_neg (not_not.mpr (.inl rfl)), if_pos ⟨rfl, rfl⟩, if_pos rfl]
    · have nonconst : ¬ ({ s with delta := d, mtimes := UMAXn } : Value).isConst := by
        rintro (eq | eq)
        · exact zero eq
        · exact absurd (show UMAXn = 0 from eq) (by decide)
      rw [if_pos nonconst, if_neg zero]
      split
      · split <;> omega
      · exact le_rfl
  by_cases same : s.delta = d ∧ s.mtimes = UMAXn
  · exact .inl (Value.ext rfl rfl same.1.symm same.2.symm)
  · right
    refine rankT.trans_lt ?_
    rw [rankS]
    by_cases zero : d = 0
    · rw [if_pos zero, if_neg (zero ▸ same)]
      omega
    · rw [if_neg zero]
      split <;> omega

/-- A widening that does not turn leaves the value as it is or lowers its rank. -/
theorem widening_calm (straight : ¬ Turns s c) : s.widening c = s ∨ rank (s.widening c) < rank s := by
  rcases widening_cases s c with ⟨-, eq⟩ | ⟨guard, eq⟩ | ⟨⟨topS, -, const, -⟩, eq⟩ |
    ⟨⟨compared, lowers⟩, eq⟩ | ⟨⟨compared, raises⟩, eq⟩ <;> rw [eq]
  · exact .inl rfl
  · by_cases same : s = all
    · exact .inl same.symm
    · right
      unfold rank
      rw [if_pos rfl, if_neg same]
      split_ifs <;> omega
  · exact constants_calm topS const _
  · exact lowered_calm compared fun up => straight ⟨compared, .inl ⟨lowers, up⟩⟩
  · exact raised_calm compared fun down => straight ⟨compared, .inr ⟨raises, down⟩⟩

/-- A turn changes the representation. -/
theorem turn_visible (turn : Turns s c) : (s.widening c).representation ≠ s.representation := by
  obtain ⟨compared, way⟩ := turn
  rcases widening_cases s c with ⟨guard, -⟩ | ⟨guard, -⟩ | ⟨⟨-, -, consts⟩, -⟩ |
    ⟨⟨-, lowers⟩, eq⟩ | ⟨⟨-, raises⟩, eq⟩
  · rcases guard with nones | ⟨-, same⟩
    · exact absurd nones compared.nonempty
    · exact absurd same compared.ne
  · rcases guard with top | top | ⟨-, notLowers, notRaises⟩
    · exact absurd (.inl top) compared.nontop
    · exact absurd (.inr top) compared.nontop
    · rcases way with ⟨lowers, -⟩ | ⟨raises, -⟩
      · exact absurd lowers notLowers
      · exact absurd raises notRaises
  · exact absurd consts compared.nonconst
  · have up : 0 < s.delta.toInt := by
      rcases way with ⟨-, up⟩ | ⟨raises, -⟩
      · exact up
      · exact absurd lowers raises.1
    obtain ⟨ne, le⟩ := widenedStep_bounds compared (s.stop - c.stop) (s.start - c.start)
    rw [eq]
    intro same
    have step : s.delta = -widenedStep s c (s.stop - c.stop) (s.start - c.start) :=
      (congrArg (fun r => r.2.1) same).symm
    generalize widenedStep s c (s.stop - c.stop) (s.start - c.start) = d at *
    rw [step, toInt_eq] at up
    bv_omega
  · have down : s.delta.toInt < 0 := by
      rcases way with ⟨lowers, -⟩ | ⟨-, down⟩
      · exact absurd lowers raises.1
      · exact down
    obtain ⟨ne, le⟩ := widenedStep_bounds compared (c.start - s.start) (c.stop - s.stop)
    rw [eq]
    intro same
    have base : s.start = s.base := congrArg (fun r => r.1) same
    have step : s.delta = widenedStep s c (c.start - s.start) (c.stop - s.stop) :=
      (congrArg (fun r => r.2.1) same).symm
    have count : s.mtimes = UMAXn / s.delta := by
      rw [step]
      exact (congrArg (fun r => r.2.2) same).symm
    -- Only the step `2 ^ 31` is its own opposite, and it moves the base.
    have least : s.delta = 0x80000000 := by
      rw [← step] at le
      rw [toInt_eq] at down
      bv_omega
    rw [start, if_pos down, count, least] at base
    exact absurd (add_left_cancel (base.trans (add_zero s.base).symm)) (by decide)

/-- A chain of widenings settles just when it turns finitely often. -/
theorem widening_settles_iff (c : ℕ → Value) :
    Settles (fun i => (chain widening c i).representation) ↔
      ∃ N, ∀ i, N ≤ i → ¬ Turns (chain widening c i) (c (i + 1)) :=
  settles_iff rank representation (fun _ _ => widening_calm) (fun _ _ => turn_visible) c

/-- Exactly when `widening` is sound, and exactly which chains of widenings end. -/
theorem widening_sound_and_settles (s c : Value) (body : ℕ → Value) :
    ((s.gamma ⊆ (s.widening c).gamma ∧ c.gamma ⊆ (s.widening c).gamma) ↔ WideningFits s c) ∧
    ((∃ N, ∀ i, N ≤ i →
        (chain widening body i).representation = (chain widening body N).representation) ↔
      ∃ N, ∀ i, N ≤ i → ¬ Turns (chain widening body i) (body (i + 1))) :=
  ⟨widening_sound_iff s c, widening_settles_iff body⟩

/-- A loop that starts with 0 and 1 and whose body gives 5 and -5 by turns. -/
def seesaw : ℕ → Value
  | 0 => ⟨.val, 0, 1, 1⟩
  | n + 1 => if n % 2 = 0 then const 5 else const (-5)

private theorem chain_seesaw (k : ℕ) :
    chain widening seesaw (2 * k + 1) = ⟨.val, 0, 1, UMAXn⟩ ∧
      chain widening seesaw (2 * k + 2) = ⟨.val, -1, -1, UMAXn⟩ := by
  have down : ∀ j, chain widening seesaw (2 * j + 1) = ⟨.val, 0, 1, UMAXn⟩ →
      chain widening seesaw (2 * j + 2) = ⟨.val, -1, -1, UMAXn⟩ := by
    intro j before
    have next : seesaw (2 * j + 2) = const (-5) := if_neg (by omega)
    rw [chain_succ, before, next]
    decide +kernel
  induction k with
  | zero => exact ⟨by decide +kernel, down 0 (by decide +kernel)⟩
  | succ k ih =>
    have up : chain widening seesaw (2 * (k + 1) + 1) = ⟨.val, 0, 1, UMAXn⟩ := by
      have next : seesaw (2 * (k + 1) + 1) = const 5 := if_pos (by omega)
      rw [chain_succ, next, show 2 * (k + 1) = 2 * k + 2 by ring, ih.2]
      decide +kernel
    exact ⟨up, down (k + 1) up⟩

/-- The empty value loses the constant it is widened with, and the two readings of
every word replace each other for ever. -/
theorem widening_drops_and_seesaws :
    ¬ ((const 5).gamma ⊆ (none.widening (const 5)).gamma) ∧
      ¬ ∃ N, ∀ i, N ≤ i →
        (chain widening seesaw i).representation = (chain widening seesaw N).representation := by
  constructor
  · intro subset
    have kept : (none.widening (const 5)).gamma = ∅ := by
      rw [show none.widening (const 5) = ⟨.none, 0, 5, UMAXn⟩ by decide +kernel]
      rfl
    rw [kept] at subset
    exact subset ⟨0, le_rfl, rfl⟩
  · rintro ⟨N, settled⟩
    have upward := settled (2 * N + 1) (by omega)
    have downward := settled (2 * N + 2) (by omega)
    rw [(chain_seesaw N).1] at upward
    rw [(chain_seesaw N).2, ← upward] at downward
    exact absurd downward (by decide)

end Otawa.Clp.Value
