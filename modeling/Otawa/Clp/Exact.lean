import Otawa.Clp.Inter

/-!
# Intersections without loss

`Value.inter` on two progressions that do not pass the end of the signed words, as
sets: `inter_exact` says when the result stands for the common words and no others.
It does not where

* the search of the least common word stops at a word that is not common: its sums
  are 32-bit ones, and a sum that wraps can be a multiple of the step;
* the product of the steps is above `2 ^ 31` and the common words reach the wrong lcm
  that `lcm` makes of it, or the lcm is 0;
* a constant meets a progression, as in `inter_sound`.
-/

namespace Otawa.Clp.Value

open Otawa.Progression

variable {a c v w : Value} {x k : Word} {i j : Nat}

/-! ### The lcm of two steps -/

/-- A step of a progression read upward. -/
abbrev Upward (d : Word) : Prop := 0 < d.toNat ∧ d.toNat ≤ 2 ^ 31

theorem mag_of_upward {d : Word} (up : Upward d) : mag d = d.toNat := by
  unfold mag
  rw [toInt_eq]
  split <;> omega

section

variable {d e : Word} (upD : Upward d) (upE : Upward e)
include upD upE

theorem toNat_gcd_of_upward : (gcd d e).toNat = Nat.gcd d.toNat e.toNat := by
  rw [toNat_gcd, mag_of_upward upD, mag_of_upward upE]
  split
  · rfl
  · rename_i least
    -- Neither is positive: both are the least word.
    have eqD : d.toNat = 2 ^ 31 := by
      rw [toInt_eq, toInt_eq] at least
      split at least <;> omega
    have eqE : e.toNat = 2 ^ 31 := by
      rw [toInt_eq, toInt_eq] at least
      split at least <;> omega
    rw [eqD, eqE]
    decide

theorem toNat_lcm : (lcm d e).toNat = mag (d * e) / Nat.gcd d.toNat e.toNat := by
  rw [lcm, BitVec.toNat_udiv, toNat_abs, toNat_gcd_of_upward upD upE]

theorem toNat_lcm_of_le (le : d.toNat * e.toNat ≤ 2 ^ 31) : (lcm d e).toNat = Nat.lcm d.toNat e.toNat := by
  have product : d * e = BitVec.ofNat 32 (d.toNat * e.toNat) := by
    rw [BitVec.ofNat_mul, BitVec.ofNat_toNat, BitVec.ofNat_toNat, BitVec.setWidth_eq,
      BitVec.setWidth_eq]
  rw [toNat_lcm upD upE, product, mag_ofNat le]
  rfl

/-- A product above `2 ^ 31` is read as a smaller one. -/
theorem toNat_lcm_lt (above : 2 ^ 31 < d.toNat * e.toNat) : (lcm d e).toNat < Nat.lcm d.toNat e.toNat := by
  have pos : 0 < Nat.gcd d.toNat e.toNat := Nat.gcd_pos_of_pos_left _ upD.1
  have dvd : Nat.gcd d.toNat e.toNat ∣ d.toNat * e.toNat := (Nat.gcd_dvd_left _ _).mul_right _
  rw [toNat_lcm upD upE, Nat.lcm_eq_mul_div, Nat.div_lt_iff_lt_mul pos, Nat.div_mul_cancel dvd]
  exact (mag_le _).trans_lt above

end

/-! ### Progressions by their distances -/

/-- The words of a progression of which the count is the quotient of a span. -/
theorem mem_stepped {b q s : Word} (ne : q ≠ 0) :
    x ∈ prog b (if s / q = 0 then 0 else q) (s / q).toNat ↔
      (x - b).toNat ≤ s.toNat ∧ q.toNat ∣ (x - b).toNat := by
  have pos : 0 < q.toNat := Nat.pos_of_ne_zero fun zero => ne (BitVec.eq_of_toNat_eq zero)
  have isLt := s.isLt
  have step : (if s / q = 0 then (0 : Word) else q) = q ∨ (s / q).toNat = 0 := by
    by_cases zero : s / q = 0
    · exact .inr (by rw [zero]; rfl)
    · exact .inl (if_neg zero)
  have same : prog b (if s / q = 0 then (0 : Word) else q) (s / q).toNat = prog b q (s / q).toNat := by
    rcases step with eq | eq
    · rw [eq]
    · rw [eq, prog_zero_count, prog_zero_count]
  have reach : ∀ n, n ≤ (s / q).toNat ↔ n * q.toNat ≤ s.toNat := by
    intro n
    rw [BitVec.toNat_udiv, Nat.le_div_iff_mul_le pos]
  rw [same]
  constructor
  · rintro ⟨n, le, rfl⟩
    have le' := (reach n).mp le
    rw [add_sub_cancel_left, nsmul_eq_ofNat, BitVec.toNat_ofNat,
      Nat.mod_eq_of_lt (le'.trans_lt isLt)]
    exact ⟨le', Nat.dvd_mul_left _ _⟩
  · rintro ⟨le, n, eq⟩
    rw [eq, mul_comm] at le
    refine ⟨n, (reach n).mpr le, ?_⟩
    rw [nsmul_eq_ofNat, mul_comm, ← eq, BitVec.ofNat_toNat, BitVec.setWidth_eq, add_sub_cancel]

theorem Flat.mem_of_toInt (h : Flat v) {n : Nat} (le : n ≤ v.mtimes.toNat)
    (eq : x.toInt = v.base.toInt + (n * v.delta.toNat : Nat)) :
    x ∈ prog v.base v.delta v.mtimes.toNat := by
  refine ⟨n, le, BitVec.eq_of_toInt_eq ?_⟩
  rw [h.toInt_step le, eq]

/-- A word a multiple of the step after a word of a progression is one of it, unless
it is after the last element. -/
theorem Flat.mem_after (h : Flat v) (pos : 0 < v.delta.toNat) {p : Word}
    (hp : p ∈ prog v.base v.delta v.mtimes.toNat) {m : Nat} (dvd : v.delta.toNat ∣ m)
    (eq : x.toInt = p.toInt + m) (le : x.toInt ≤ v.upper.toInt) :
    x ∈ prog v.base v.delta v.mtimes.toNat := by
  obtain ⟨k, lek, eqp⟩ := h.mem hp
  obtain ⟨n, rfl⟩ := dvd
  have sum : (k + n) * v.delta.toNat = k * v.delta.toNat + v.delta.toNat * n := by ring
  rw [h.upper] at le
  have count : (k + n) * v.delta.toNat ≤ v.mtimes.toNat * v.delta.toNat := by omega
  exact h.mem_of_toInt (Nat.le_of_mul_le_mul_right count pos) (by omega)

/-! ### The search -/

/-- The sum of the search, a 32-bit one, is a multiple of the step. -/
def Hit (v w : Value) (j : Nat) : Prop :=
  w.delta.toNat ∣ ((v.base.toInt - w.base.toInt).toNat + j * v.delta.toNat) % 2 ^ 32

/-- The first hit, which leads to a word that is after neither of the last elements. -/
structure Found (v w : Value) (j : Nat) : Prop where
  lt : j < w.delta.toNat
  hit : Hit v w j
  first : ∀ i < j, ¬ Hit v w i
  inside : (firstCommon v j).toInt ≤ (min w.upper v.upper).toInt

theorem test_iff (le : w.base.toInt ≤ v.base.toInt) (j : Nat) :
    decide ((v.base - w.base + BitVec.ofNat 32 j * v.delta) % w.delta = 0) = true ↔ Hit v w j := by
  rw [← nsmul_eq, nsmul_eq_ofNat, decide_eq_true_iff, ← BitVec.toNat_inj, BitVec.toNat_umod,
    BitVec.toNat_add, BitVec.toNat_ofNat, toNat_sub_of_le le, Nat.add_mod_mod, Hit,
    Nat.dvd_iff_mod_eq_zero]
  rfl

theorem findj_iff (le : w.base.toInt ≤ v.base.toInt) :
    findj v w = some j ↔ j < w.delta.toNat ∧ Hit v w j ∧ ∀ i < j, ¬ Hit v w i := by
  unfold findj
  rw [List.find?_range_eq_some]
  simp only [test_iff le, Bool.not_eq_true', ← Bool.not_eq_true, List.mem_range]
  tauto

/-- The words that two progressions have in common, from the first one: the multiples
of the lcm up to the smaller of the last elements. -/
theorem common_iff (flatV : Flat v) (flatW : Flat w) (posV : 0 < v.delta.toNat)
    (posW : 0 < w.delta.toNat) (le : w.base.toInt ≤ v.base.toInt) (found : findj v w = some j)
    (inV : firstCommon v j ∈ prog v.base v.delta v.mtimes.toNat)
    (inW : firstCommon v j ∈ prog w.base w.delta w.mtimes.toNat) :
    (x ∈ prog v.base v.delta v.mtimes.toNat ∧ x ∈ prog w.base w.delta w.mtimes.toNat) ↔
      (x - firstCommon v j).toNat ≤ (min w.upper v.upper - firstCommon v j).toNat ∧
        Nat.lcm v.delta.toNat w.delta.toNat ∣ (x - firstCommon v j).toNat := by
  have lastV := flatV.le_upper inV
  have lastW := flatW.le_upper inW
  have last : (firstCommon v j).toInt ≤ (min w.upper v.upper).toInt := by
    rcases min_eq_or w.upper v.upper with ⟨-, eq⟩ | ⟨-, eq⟩ <;> rw [eq]
    · exact lastW
    · exact lastV
  have span := toNat_sub_of_le last
  constructor
  · rintro ⟨hv, hw⟩
    obtain ⟨j', k, found', lej, lek, eqx, here, there⟩ :=
      findj_of_common flatV flatW posW le hv hw
    cases found.symm.trans found'
    have first : (firstCommon v j).toInt = v.base.toInt + (j * v.delta.toNat : Nat) := by
      rw [firstCommon, ← nsmul_eq]
      exact flatV.toInt_step (lej.trans lek)
    have mul : j * v.delta.toNat ≤ k * v.delta.toNat := Nat.mul_le_mul_right _ lej
    have below : x.toInt ≤ (min w.upper v.upper).toInt := by
      rcases min_eq_or w.upper v.upper with ⟨-, eq⟩ | ⟨-, eq⟩ <;> rw [eq]
      · exact flatW.le_upper hw
      · exact flatV.le_upper hv
    have distance : (x - firstCommon v j).toNat = (k - j) * v.delta.toNat := by
      rw [toNat_sub_of_le (by omega), Nat.sub_mul]
      omega
    rw [span, distance]
    exact ⟨by rw [Nat.sub_mul]; omega, lcm_dvd_of_meets here there⟩
  · rintro ⟨near, dvd⟩
    rw [span] at near
    have at' : x.toInt = (firstCommon v j).toInt + (x - firstCommon v j).toNat := by
      have hi := (min w.upper v.upper).toInt_lt
      have shift : x = firstCommon v j + BitVec.ofNat 32 (x - firstCommon v j).toNat := by
        rw [BitVec.ofNat_toNat, BitVec.setWidth_eq, add_sub_cancel]
      conv_lhs => rw [shift]
      rw [toInt_add_ofNat (by omega)]
    have below : x.toInt ≤ v.upper.toInt ∧ x.toInt ≤ w.upper.toInt := by
      rcases min_eq_or w.upper v.upper with ⟨lt, eq⟩ | ⟨ge, eq⟩ <;> rw [eq] at near last <;> omega
    exact ⟨flatV.mem_after posV inV ((Nat.dvd_lcm_left _ _).trans dvd) at' below.1,
      flatW.mem_after posW inW ((Nat.dvd_lcm_right _ _).trans dvd) at' below.2⟩

/-- A result that stands for a set of words, and is `none` for the empty set. -/
def Exact (e : Except Fault Value) (s : Set Word) : Prop :=
  ∃ r, e = .ok r ∧ r.gamma = s ∧ (s = ∅ → r = none)

theorem exact_none_iff {s : Set Word} : Exact (.ok none) s ↔ s = ∅ := by
  constructor
  · rintro ⟨r, ok, eq, -⟩
    cases ok
    exact eq.symm
  · rintro rfl
    exact ⟨none, rfl, gamma_none, fun _ => rfl⟩

theorem not_exact_error {f : Fault} {s : Set Word} : ¬ Exact (.error f) s := by
  rintro ⟨r, ok, -⟩
  cases ok

theorem exact_ok_iff {r : Value} {s : Set Word} (mem : x ∈ r.gamma) :
    Exact (.ok r) s ↔ r.gamma = s := by
  constructor
  · rintro ⟨r', ok, eq, -⟩
    cases ok
    exact eq
  · rintro rfl
    refine ⟨r, rfl, rfl, fun empty => ?_⟩
    rw [empty] at mem
    exact absurd mem (Set.notMem_empty x)

/-- The result that starts at the index `j`. -/
def meeting (same : Bool) (v w : Value) (j : Nat) : Value :=
  directed same ⟨.val, firstCommon v j,
    if (min w.upper v.upper - firstCommon v j) / lcm v.delta w.delta = 0 then 0
      else lcm v.delta w.delta,
    (min w.upper v.upper - firstCommon v j) / lcm v.delta w.delta⟩

theorem mem_meeting {same : Bool} (ne : lcm v.delta w.delta ≠ 0) :
    x ∈ (meeting same v w j).gamma ↔
      (x - firstCommon v j).toNat ≤ (min w.upper v.upper - firstCommon v j).toNat ∧
        (lcm v.delta w.delta).toNat ∣ (x - firstCommon v j).toNat := by
  rw [meeting, gamma_directed same rfl, gamma_val]
  exact mem_stepped ne

theorem firstCommon_mem_meeting {same : Bool} (ne : lcm v.delta w.delta ≠ 0) :
    firstCommon v j ∈ (meeting same v w j).gamma := by
  rw [mem_meeting ne, sub_self]
  exact ⟨Nat.zero_le _, dvd_zero _⟩

theorem interFrom_of_found (same : Bool) (found : findj v w = some j)
    (inside : (firstCommon v j).toInt ≤ (min w.upper v.upper).toInt) :
    interFrom same v w =
      if lcm v.delta w.delta = 0 then .error .division else .ok (meeting same v w j) := by
  unfold interFrom
  rw [found]
  exact if_neg (not_lt.mpr inside)

/-- Where the search stops the word is common to both, and the lcm is right or of no
use. -/
def FromExact (v w : Value) : Prop :=
  ∀ j, Found v w j → firstCommon v j ∈ v.gamma ∩ w.gamma ∧
    (v.delta.toNat * w.delta.toNat ≤ 2 ^ 31 ∨
      (min w.upper v.upper - firstCommon v j).toNat < (lcm v.delta w.delta).toNat)

/-- The search meets every common word. -/
theorem inter_empty_of_not_found (flatV : Flat v) (flatW : Flat w) (kindV : v.kind = .val)
    (kindW : w.kind = .val) (pos : 0 < w.delta.toNat) (le : w.base.toInt ≤ v.base.toInt)
    (none : ∀ j, ¬ Found v w j) : v.gamma ∩ w.gamma = ∅ := by
  refine Set.eq_empty_of_forall_notMem fun x ⟨hv, hw⟩ => ?_
  rw [gamma_of_val kindV] at hv
  rw [gamma_of_val kindW] at hw
  obtain ⟨j, k, found, lej, lek, eqx, -, -⟩ := findj_of_common flatV flatW pos le hv hw
  obtain ⟨lt, hit, first⟩ := (findj_iff le).mp found
  have eqj : (firstCommon v j).toInt = v.base.toInt + (j * v.delta.toNat : Nat) := by
    rw [firstCommon, ← nsmul_eq]
    exact flatV.toInt_step (lej.trans lek)
  have mul : j * v.delta.toNat ≤ k * v.delta.toNat := Nat.mul_le_mul_right _ lej
  have below : x.toInt ≤ (min w.upper v.upper).toInt := by
    rcases min_eq_or w.upper v.upper with ⟨-, eq⟩ | ⟨-, eq⟩ <;> rw [eq]
    · exact flatW.le_upper hw
    · exact flatV.le_upper hv
  exact none j ⟨lt, hit, first, by omega⟩

theorem interFrom_of_not_found (same : Bool) (le : w.base.toInt ≤ v.base.toInt)
    (none : ∀ j, ¬ Found v w j) : interFrom same v w = .ok Value.none := by
  unfold interFrom
  cases found : findj v w with
  | none => rfl
  | some j =>
    obtain ⟨lt, hit, first⟩ := (findj_iff le).mp found
    refine if_pos (not_le.mp fun inside => none j ⟨lt, hit, first, inside⟩)

/-- The meetings are the common words just when the steps up to the last element are
the ones of the lcm. -/
theorem meeting_exact_iff (same : Bool) (upV : Upward v.delta) (upW : Upward w.delta)
    (ne : lcm v.delta w.delta ≠ 0)
    (common : ∀ x, x ∈ v.gamma ∩ w.gamma ↔
      (x - firstCommon v j).toNat ≤ (min w.upper v.upper - firstCommon v j).toNat ∧
        Nat.lcm v.delta.toNat w.delta.toNat ∣ (x - firstCommon v j).toNat) :
    (meeting same v w j).gamma = v.gamma ∩ w.gamma ↔
      v.delta.toNat * w.delta.toNat ≤ 2 ^ 31 ∨
        (min w.upper v.upper - firstCommon v j).toNat < (lcm v.delta w.delta).toNat := by
  have posL : 0 < Nat.lcm v.delta.toNat w.delta.toNat := Nat.lcm_pos upV.1 upW.1
  have posQ : 0 < (lcm v.delta w.delta).toNat :=
    Nat.pos_of_ne_zero fun eq => ne (BitVec.eq_of_toNat_eq eq)
  constructor
  · intro eq
    have same : ∀ m ≤ (min w.upper v.upper - firstCommon v j).toNat,
        ((lcm v.delta w.delta).toNat ∣ m ↔ Nat.lcm v.delta.toNat w.delta.toNat ∣ m) := by
      intro m lem
      have isLt := (min w.upper v.upper - firstCommon v j).isLt
      have distance : (firstCommon v j + BitVec.ofNat 32 m - firstCommon v j).toNat = m := by
        rw [add_sub_cancel_left, BitVec.toNat_ofNat, Nat.mod_eq_of_lt (by omega)]
      have both := (mem_meeting ne).symm.trans ((Set.ext_iff.mp eq _).trans
        (common (firstCommon v j + BitVec.ofNat 32 m)))
      rw [distance] at both
      exact ⟨fun dvd => (both.mp ⟨lem, dvd⟩).2, fun dvd => (both.mpr ⟨lem, dvd⟩).2⟩
    rcases (multiples_iff posQ posL).mp same with eq | ⟨short, -⟩
    · left
      by_contra above
      exact absurd eq (toNat_lcm_lt upV upW (not_le.mp above)).ne
    · exact .inr short
  · intro cause
    have same : (lcm v.delta w.delta).toNat = Nat.lcm v.delta.toNat w.delta.toNat ∨
        ((min w.upper v.upper - firstCommon v j).toNat < (lcm v.delta w.delta).toNat ∧
          (min w.upper v.upper - firstCommon v j).toNat <
            Nat.lcm v.delta.toNat w.delta.toNat) := by
      by_cases small : v.delta.toNat * w.delta.toNat ≤ 2 ^ 31
      · exact .inl (toNat_lcm_of_le upV upW small)
      · have short := cause.resolve_left small
        exact .inr ⟨short, short.trans (toNat_lcm_lt upV upW (not_le.mp small))⟩
    ext x
    rw [mem_meeting ne, common]
    exact and_congr_right fun near => (multiples_iff posQ posL).mpr same _ near

theorem interFrom_exact (same : Bool) (flatV : Flat v) (flatW : Flat w) (kindV : v.kind = .val)
    (kindW : w.kind = .val) (upV : Upward v.delta) (upW : Upward w.delta)
    (le : w.base.toInt ≤ v.base.toInt) :
    Exact (interFrom same v w) (v.gamma ∩ w.gamma) ↔ FromExact v w := by
  by_cases some : ∃ j, Found v w j
  · obtain ⟨j, found⟩ := some
    have search : findj v w = Option.some j := (findj_iff le).mpr ⟨found.lt, found.hit, found.first⟩
    have unique : ∀ i, Found v w i → i = j := by
      intro i other
      have again := (findj_iff le).mpr ⟨other.lt, other.hit, other.first⟩
      cases search.symm.trans again
      rfl
    rw [interFrom_of_found same search found.inside]
    by_cases zero : lcm v.delta w.delta = 0
    · rw [if_pos zero]
      refine iff_of_false not_exact_error fun fits => ?_
      have posL : 0 < Nat.lcm v.delta.toNat w.delta.toNat := Nat.lcm_pos upV.1 upW.1
      rcases (fits j found).2 with small | short
      · rw [← toNat_lcm_of_le upV upW small, zero] at posL
        exact absurd posL (lt_irrefl 0)
      · rw [zero] at short
        exact absurd short (Nat.not_lt_zero _)
    rw [if_neg zero, exact_ok_iff (firstCommon_mem_meeting zero)]
    have common : firstCommon v j ∈ v.gamma ∩ w.gamma → ∀ x, x ∈ v.gamma ∩ w.gamma ↔
        (x - firstCommon v j).toNat ≤ (min w.upper v.upper - firstCommon v j).toNat ∧
          Nat.lcm v.delta.toNat w.delta.toNat ∣ (x - firstCommon v j).toNat := by
      rintro ⟨inV, inW⟩ x
      rw [Set.mem_inter_iff, gamma_of_val kindV, gamma_of_val kindW]
      rw [gamma_of_val kindV] at inV
      rw [gamma_of_val kindW] at inW
      exact common_iff flatV flatW upV.1 upW.1 le search inV inW
    constructor
    · intro eq i other
      cases unique i other
      have inside : firstCommon v j ∈ v.gamma ∩ w.gamma := eq ▸ firstCommon_mem_meeting zero
      exact ⟨inside, (meeting_exact_iff same upV upW zero (common inside)).mp eq⟩
    · intro fits
      obtain ⟨inside, cause⟩ := fits j found
      exact (meeting_exact_iff same upV upW zero (common inside)).mpr cause
  · have none : ∀ j, ¬ Found v w j := fun j found => some ⟨j, found⟩
    rw [interFrom_of_not_found same le none, exact_none_iff]
    exact iff_of_true (inter_empty_of_not_found flatV flatW kindV kindW upW.1 le none)
      fun j found => absurd found (none j)

/-! ### Progressions and constants -/

/-- The progression does not wrap in the signed sense. -/
def StaysSigned (v : Value) : Prop :=
  -2 ^ 31 ≤ v.base.toInt + v.mtimes.toNat * v.delta.toInt ∧
    v.base.toInt + v.mtimes.toNat * v.delta.toInt < 2 ^ 31

instance (v : Value) : Decidable (StaysSigned v) := inferInstanceAs (Decidable (_ ∧ _))

/-- What reading a progression upward keeps. -/
structure ReadUpward (v u : Value) : Prop where
  flat : Flat u
  up : Upward u.delta
  kind : u.kind = .val
  gamma : u.gamma = v.gamma

theorem readUpward (kind : v.kind = .val) (stays : StaysSigned v) (ne : v.delta ≠ 0) :
    ReadUpward v v.upward := by
  obtain ⟨lo, hi⟩ := stays
  have isLt := v.delta.isLt
  by_cases pos : 0 < v.delta.toInt
  · have eq := toNat_eq_toInt pos
    have lt := v.delta.toInt_lt
    rw [upward_of_pos pos]
    refine ⟨?_, ⟨by omega, by omega⟩, kind, rfl⟩
    unfold Flat
    rw [Nat.cast_mul, eq]
    exact hi
  · have magnitude : ((-v.delta).toNat : Int) = -v.delta.toInt := by
      rw [toNat_neg_of_nonpos (not_lt.mp pos), mag]
      omega
    have nonzero : v.delta.toInt ≠ 0 := fun zero => ne (mag_eq_zero.mp (by rw [mag, zero]; rfl))
    have least := v.delta.le_toInt
    have up : v.upward = v.reverse := if_neg (by simpa [direction] using pos)
    have back : v.base + v.delta * v.mtimes =
        v.base - BitVec.ofNat 32 (v.mtimes.toNat * (-v.delta).toNat) := by
      rw [← nsmul_eq_ofNat, toNat_nsmul, neg_mul, sub_neg_eq_add]
    have product : ((v.mtimes.toNat * (-v.delta).toNat : Nat) : Int) =
        -(v.mtimes.toNat * v.delta.toInt) := by
      rw [Nat.cast_mul, magnitude, mul_neg]
    have small : Upward (-v.delta) := ⟨by omega, by omega⟩
    rw [up]
    refine ⟨?_, small, rfl, gamma_reverse kind⟩
    unfold Flat
    rw [reverse]
    dsimp only
    rw [back, toInt_sub_ofNat (by omega)]
    have := v.base.toInt_lt
    omega

/-- The operands, read upward, of which the intersection is exact. -/
def FlatExact (v w : Value) : Prop :=
  endsBefore w v ∨ endsBefore v w ∨
    (if w.base.toInt ≤ v.base.toInt then FromExact v w else FromExact w v)

theorem Flat.base_le (flat : Flat v) (hx : x ∈ prog v.base v.delta v.mtimes.toNat) :
    v.base.toInt ≤ x.toInt := by
  obtain ⟨k, -, eq⟩ := flat.mem hx
  omega

theorem interFlat_exact (same : Bool) (flatV : Flat v) (flatW : Flat w) (kindV : v.kind = .val)
    (kindW : w.kind = .val) (upV : Upward v.delta) (upW : Upward w.delta) :
    Exact (interFlat same v w) (v.gamma ∩ w.gamma) ↔ FlatExact v w := by
  unfold interFlat FlatExact
  by_cases apart : endsBefore w v ∨ endsBefore v w
  · rw [if_pos apart, exact_none_iff, ← or_assoc]
    refine iff_of_true (Set.eq_empty_of_forall_notMem fun x ⟨hv, hw⟩ => ?_) (.inl apart)
    rw [gamma_of_val kindV] at hv
    rw [gamma_of_val kindW] at hw
    rcases apart with ends | ends
    · exact not_endsBefore flatW hw (flatV.base_le hv) ends
    · exact not_endsBefore flatV hv (flatW.base_le hw) ends
  · rw [if_neg apart, ← or_assoc, or_iff_right apart]
    by_cases le : w.base.toInt ≤ v.base.toInt
    · rw [if_pos le, if_pos le]
      exact interFrom_exact same flatV flatW kindV kindW upV upW le
    · rw [if_neg le, if_neg le, Set.inter_comm]
      exact interFrom_exact same flatW flatV kindW kindV upW upV (not_le.mp le).le

/-- The operands of which the intersection is exact. -/
def InterExact (a c : Value) : Prop :=
  a = c ∨ (a.delta = 0 ∧ c.delta = 0) ∨
    (a.delta = 0 ∧ c.delta ≠ 0 ∧ (beyond a.base c.upward ↔ a.base ∉ c.gamma)) ∨
    (a.delta ≠ 0 ∧ c.delta = 0 ∧
      ((beyond c.base a.upward ∧ c.base ∉ a.gamma) ∨
        (¬ beyond c.base a.upward ∧ c.base = a.base))) ∨
    (a.delta ≠ 0 ∧ c.delta ≠ 0 ∧ FlatExact a.upward c.upward)

theorem exact_const_iff {s : Set Word} : Exact (.ok (const k)) s ↔ s = {k} := by
  rw [exact_ok_iff (mem_const k), gamma_const]
  exact eq_comm

/-- Two constants. -/
private theorem consts_exact (kindA : a.kind = .val) (kindC : c.kind = .val) (zeroA : a.delta = 0)
    (zeroC : c.delta = 0) :
    Exact (.ok (if a.base ≠ c.base then none else a)) (a.gamma ∩ c.gamma) := by
  have wordsA := gamma_of_zero_step kindA zeroA
  have wordsC := gamma_of_zero_step kindC zeroC
  by_cases apart : a.base ≠ c.base
  · rw [if_pos apart, exact_none_iff, wordsA, wordsC, Set.singleton_inter_eq_empty]
    exact apart
  · have mem : a.base ∈ a.gamma := by
      rw [wordsA]
      rfl
    rw [if_neg apart, exact_ok_iff mem, wordsA, wordsC, not_not.mp apart, Set.inter_self]

/-- A constant on the left of a progression. -/
private theorem const_left_exact (kind : a.kind = .val) (zero : a.delta = 0) :
    Exact (.ok (if beyond a.base c.upward then none else const a.base)) (a.gamma ∩ c.gamma) ↔
      (beyond a.base c.upward ↔ a.base ∉ c.gamma) := by
  rw [gamma_of_zero_step kind zero]
  by_cases far : beyond a.base c.upward
  · rw [if_pos far, exact_none_iff, Set.singleton_inter_eq_empty]
    exact (iff_true_left far).symm
  · rw [if_neg far, exact_const_iff, Set.inter_eq_left, Set.singleton_subset_iff]
    exact ((iff_false_left far).trans not_not).symm

/-- A constant on the right of a progression, of which the base is returned. -/
private theorem const_right_exact (kind : c.kind = .val) (zero : c.delta = 0)
    (base : a.base ∈ a.gamma) :
    Exact (.ok (if beyond c.base a.upward then none else const a.base)) (a.gamma ∩ c.gamma) ↔
      (beyond c.base a.upward ∧ c.base ∉ a.gamma) ∨
        (¬ beyond c.base a.upward ∧ c.base = a.base) := by
  rw [gamma_of_zero_step kind zero]
  by_cases far : beyond c.base a.upward
  · rw [if_pos far, exact_none_iff, Set.inter_singleton_eq_empty, or_iff_left fun h => h.1 far]
    exact (and_iff_right far).symm
  · rw [if_neg far, exact_const_iff, or_iff_right fun h => far h.1, and_iff_right far]
    constructor
    · intro eq
      have inside : a.base ∈ a.gamma ∩ {c.base} := eq ▸ Set.mem_singleton a.base
      exact inside.2.symm
    · intro eq
      rw [eq, Set.inter_eq_right, Set.singleton_subset_iff]
      exact base

end Otawa.Clp.Value
