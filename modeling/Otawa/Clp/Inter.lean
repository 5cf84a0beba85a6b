import Otawa.Clp.Join

/-!
# Intersection of CLP values

`Value.inter`. Two progressions are read upward; if one of them passes from the
greatest to the least signed word, both are split there by `PQValue`, the four pairs
of parts are intersected, and the results joined. Two progressions that stay on one
side are intersected by `interFlat`: the least common word is searched, and the step
is the lcm.

The result can lack common words, or there is no result, where

* a progression meets a constant: the distance is divided as a signed number and the
  quotient compared as an unsigned one, and it is the base of the left operand that
  is returned, also when the constant is the right one;
* a progression goes around the words more than once, which the comparison of its
  ends does not show;
* the product of the steps, which `lcm` reads in 32 bits, is not below `2 ^ 31`;
* a join of partial results is not sound (`JoinFits`);
* the step is the least word, which `reverse` does not make positive.

`InterFits` excludes these, and no more; `inter_sound` is the result. A split operand
is never split again (`inter_ne_reentry`).
-/

namespace Otawa.Clp.Value

open Otawa.Progression

/-- What stops the program: the assertion on the nesting of splits, the one of
`PQValue` on the direction, and a division by zero. -/
inductive Fault where
  | reentry
  | direction
  | division
  deriving DecidableEq, Repr

/-- `if(!temp.direction()) temp.reverse();` -/
def upward (v : Value) : Value := if v.direction then v else v.reverse

def upper (v : Value) : Word := v.base + v.delta * v.mtimes

def PQValue (v : Value) : Except Fault (Value × Value) :=
  if v.delta.toInt < 0 then .error .direction
  else
    let l := v.base
    let u := v.upper
    if l.toInt ≤ u.toInt then .ok (v, none)
    else
      let maxPm := (MAXn.toInt - l.toInt).tdiv v.delta.toInt
      let maxPd := if maxPm = 0 then 0 else v.delta
      let minQm := (u.toInt - MINn.toInt).tdiv v.delta.toInt
      let minQ := u - v.delta * BitVec.ofInt 32 minQm
      let minQd := if minQm = 0 then 0 else v.delta
      .ok (⟨.val, l, maxPd, BitVec.ofInt 32 maxPm⟩, ⟨.val, minQ, minQd, BitVec.ofInt 32 minQm⟩)

/-- The test of a constant against a progression, which is read upward. -/
def beyond (k : Word) (temp : Value) : Prop :=
  temp.mtimes.toNat < (BitVec.ofInt 32 ((k - temp.base).toInt.tdiv temp.delta.toInt)).toNat

instance (k : Word) (temp : Value) : Decidable (beyond k temp) :=
  inferInstanceAs (Decidable (_ < _))

/-- The first progression ends before the second one starts. -/
def endsBefore (v w : Value) : Prop :=
  v.base.toInt < w.base.toInt ∧ v.mtimes.toNat < (abs (w.base - v.base) / v.delta).toNat

instance (v w : Value) : Decidable (endsBefore v w) := inferInstanceAs (Decidable (_ ∧ _))

/-- The search of the minimal `j`. -/
def findj (largerBaseV smallerBaseV : Value) : Option Nat :=
  (List.range smallerBaseV.delta.toNat).find? fun j =>
    decide ((largerBaseV.base - smallerBaseV.base + BitVec.ofNat 32 j * largerBaseV.delta) %
      smallerBaseV.delta = 0)

/-- `if both directions are the same, we keep the direction`; the result is read upward
otherwise. -/
def directed (same : Bool) (v : Value) : Value :=
  if same then v else if ¬ v.direction then v.reverse else v

/-- The common words, from the least one; `same` says that the operands had the same
direction. -/
def interFrom (same : Bool) (largerBaseV smallerBaseV : Value) : Except Fault Value :=
  let resultDelta := lcm largerBaseV.delta smallerBaseV.delta
  match findj largerBaseV smallerBaseV with
  | .none => .ok none
  | some j =>
    let resultBase := largerBaseV.base + BitVec.ofNat 32 j * largerBaseV.delta
    let ux := min smallerBaseV.upper largerBaseV.upper
    if ux.toInt < resultBase.toInt then .ok none
    else if resultDelta = 0 then .error .division
    else
      let resultMtimes := (ux - resultBase) / resultDelta
      .ok (directed same
        ⟨.val, resultBase, if resultMtimes = 0 then 0 else resultDelta, resultMtimes⟩)

/-- Sections 2.5.0 and 2.5.1, for two progressions read upward. -/
def interFlat (same : Bool) (val1 val2 : Value) : Except Fault Value :=
  if endsBefore val2 val1 ∨ endsBefore val1 val2 then .ok none
  else if val2.base.toInt ≤ val1.base.toInt then interFrom same val1 val2
  else interFrom same val2 val1

/-- The function but for the split of wrapping operands. -/
def interStep (split : Value → Value → Except Fault Value) (a val : Value) : Except Fault Value :=
  if a = none ∨ val = none then .ok none
  else if a = val then .ok a
  else if a.isTop then .ok val
  else if val.isTop then .ok a
  else if a.isConst ∧ val.isConst then .ok (if a.base ≠ val.base then none else a)
  else if a.isConst then .ok (if beyond a.base val.upward then none else const a.base)
  else if val.isConst then .ok (if beyond val.base a.upward then none else const a.base)
  else if a.upward.upper.toInt < a.upward.base.toInt ∨ val.upward.upper.toInt < val.upward.base.toInt then
    split a.upward val.upward
  else interFlat (a.direction = val.direction) a.upward val.upward

/-- A call from inside a split: the counter `iii` is 1, and one more split fails the
assertion. -/
def interPart : Value → Value → Except Fault Value := interStep fun _ _ => .error .reentry

def interSplit (val1 val2 : Value) : Except Fault Value := do
  let (PA, QA) ← PQValue val1
  let (PB, QB) ← PQValue val2
  let PA' ← interPart PA PB
  let PA2 ← interPart PA QB
  let QA' ← interPart QA PB
  let QA2 ← interPart QA QB
  return ((PA'.join PA2).join QA').join QA2

def inter : Value → Value → Except Fault Value := interStep interSplit

/-! ### Splits do not nest -/

variable {a c p q v w : Value} {x k : Word}

/-- A value that a nested call does not split. -/
def Unsplit (v : Value) : Prop :=
  v.isConst ∨ (0 < v.delta.toInt ∧ v.base.toInt ≤ v.upper.toInt)

theorem upward_of_pos (pos : 0 < v.delta.toInt) : v.upward = v :=
  if_pos (decide_eq_true pos)

theorem toInt_add_ofNat {b : Word} {n : Nat} (lt : b.toInt + n < 2 ^ 31) :
    (b + BitVec.ofNat 32 n).toInt = b.toInt + n := by
  have lo := b.le_toInt
  have small : n < 2 ^ 32 := by omega
  have isLt := b.isLt
  rw [toInt_eq] at lt lo
  rw [toInt_eq, toInt_eq, BitVec.toNat_add, BitVec.toNat_ofNat, Nat.mod_eq_of_lt small]
  split at lt <;> split <;> omega

theorem toInt_sub_ofNat {b : Word} {n : Nat} (le : -2 ^ 31 ≤ b.toInt - n) :
    (b - BitVec.ofNat 32 n).toInt = b.toInt - n := by
  have hi := b.toInt_lt
  have small : n < 2 ^ 32 := by omega
  have isLt := b.isLt
  rw [toInt_eq] at le hi
  rw [toInt_eq, toInt_eq, BitVec.toNat_sub, BitVec.toNat_ofNat, Nat.mod_eq_of_lt small]
  split at le <;> split <;> omega

theorem nsmul_eq_ofNat (n : Nat) (d : Word) : n • d = BitVec.ofNat 32 (n * d.toNat) := by
  rw [nsmul_eq, BitVec.ofNat_mul, BitVec.ofNat_toNat, BitVec.setWidth_eq]

/-- The words of a progression upward do not pass the greatest signed word. -/
def Flat (v : Value) : Prop := v.base.toInt + (v.mtimes.toNat * v.delta.toNat : Nat) < 2 ^ 31

theorem Flat.toInt_step (h : Flat v) {n : Nat} (le : n ≤ v.mtimes.toNat) :
    (v.base + n • v.delta).toInt = v.base.toInt + (n * v.delta.toNat : Nat) := by
  have mul : n * v.delta.toNat ≤ v.mtimes.toNat * v.delta.toNat := Nat.mul_le_mul_right _ le
  unfold Flat at h
  rw [nsmul_eq_ofNat, toInt_add_ofNat (by omega)]

theorem Flat.upper (h : Flat v) :
    v.upper.toInt = v.base.toInt + (v.mtimes.toNat * v.delta.toNat : Nat) := by
  rw [Value.upper, ← toNat_nsmul]
  exact h.toInt_step le_rfl

/-- A positive word is its magnitude. -/
theorem toNat_eq_toInt {d : Word} (pos : 0 < d.toInt) : (d.toNat : Int) = d.toInt := by
  rw [toInt_eq] at *
  split at * <;> omega

theorem posNat {d : Word} (pos : 0 < d.toInt) : 0 < d.toNat := by
  have := toNat_eq_toInt pos
  omega

theorem Flat.unsplit (h : Flat v) (pos : 0 < v.delta.toInt) : Unsplit v := by
  refine .inr ⟨pos, ?_⟩
  rw [h.upper]
  omega

/-- The counts of the parts before and after the greatest signed word. -/
def beforeCount (v : Value) : Nat := (2 ^ 31 - 1 - v.base.toInt).toNat / v.delta.toNat

def afterCount (v : Value) : Nat := (v.upper.toInt + 2 ^ 31).toNat / v.delta.toNat

def beforeWrap (v : Value) : Value :=
  ⟨.val, v.base, if beforeCount v = 0 then 0 else v.delta, BitVec.ofNat 32 (beforeCount v)⟩

def afterWrap (v : Value) : Value :=
  ⟨.val, v.upper - v.delta * BitVec.ofNat 32 (afterCount v),
    if afterCount v = 0 then 0 else v.delta, BitVec.ofNat 32 (afterCount v)⟩

private theorem tdiv_toInt {n : Int} {d : Word} (nonneg : 0 ≤ n) (pos : 0 < d.toInt) :
    n.tdiv d.toInt = ((n.toNat / d.toNat : Nat) : Int) := by
  rw [Int.tdiv_eq_ediv_of_nonneg nonneg, ← toNat_eq_toInt pos, Int.natCast_ediv,
    Int.toNat_of_nonneg nonneg]

/-- What `PQValue` gives: the value itself, or its two parts. -/
theorem PQValue_cases (h : PQValue v = .ok (p, q)) :
    (v.base.toInt ≤ v.upper.toInt ∧ 0 ≤ v.delta.toInt ∧ p = v ∧ q = none) ∨
      (v.upper.toInt < v.base.toInt ∧ 0 < v.delta.toInt ∧ p = beforeWrap v ∧ q = afterWrap v) := by
  unfold PQValue at h
  by_cases neg : v.delta.toInt < 0
  · rw [if_pos neg] at h
    cases h
  rw [if_neg neg] at h
  by_cases le : v.base.toInt ≤ v.upper.toInt
  · rw [if_pos le] at h
    cases h
    exact .inl ⟨le, not_lt.mp neg, rfl, rfl⟩
  · rw [if_neg le] at h
    have pos : 0 < v.delta.toInt := by
      refine lt_of_le_of_ne (not_lt.mp neg) fun zero => le ?_
      have zero' : v.delta = 0 := mag_eq_zero.mp (by unfold mag; omega)
      rw [upper, zero', zero_mul, add_zero]
    have before := tdiv_toInt (n := MAXn.toInt - v.base.toInt)
      (by have := v.base.toInt_lt; simp only [show MAXn.toInt = 2 ^ 31 - 1 from rfl]; omega) pos
    have after := tdiv_toInt (n := v.upper.toInt - MINn.toInt)
      (by have := v.upper.le_toInt; simp only [show MINn.toInt = -2 ^ 31 from rfl]; omega) pos
    simp only [before, after, Nat.cast_eq_zero, BitVec.ofInt_natCast, Except.ok.injEq,
      Prod.mk.injEq] at h
    exact .inr ⟨not_le.mp le, pos, h.1.symm, h.2.symm⟩

/-- A part keeps its step, unless it is a constant. -/
private theorem part_delta (d : Word) (n : Nat) :
    n * (if n = 0 then (0 : Word) else d).toNat = n * d.toNat := by
  by_cases zero : n = 0
  · rw [zero, zero_mul, zero_mul]
  · rw [if_neg zero]

theorem beforeCount_lt (v : Value) : beforeCount v < 2 ^ 32 := by
  have := v.base.le_toInt
  exact (Nat.div_le_self _ _).trans_lt (by omega)

theorem afterCount_lt (v : Value) : afterCount v < 2 ^ 32 := by
  have := v.upper.toInt_lt
  exact (Nat.div_le_self _ _).trans_lt (by omega)

theorem beforeWrap_flat (v : Value) : Flat (beforeWrap v) := by
  have le : beforeCount v * v.delta.toNat ≤ (2 ^ 31 - 1 - v.base.toInt).toNat :=
    Nat.div_mul_le_self _ _
  have := v.base.toInt_lt
  unfold Flat beforeWrap
  simp only [BitVec.toNat_ofNat, Nat.mod_eq_of_lt (beforeCount_lt v), part_delta]
  omega

theorem afterCount_mul_le (v : Value) :
    afterCount v * v.delta.toNat ≤ (v.upper.toInt + 2 ^ 31).toNat :=
  Nat.div_mul_le_self _ _

/-- The first element after the greatest signed word. -/
theorem afterWrap_base (v : Value) :
    (afterWrap v).base.toInt = v.upper.toInt - (afterCount v * v.delta.toNat : Nat) := by
  have le := afterCount_mul_le v
  have lo := v.upper.le_toInt
  have eq : (afterWrap v).base = v.upper - BitVec.ofNat 32 (afterCount v * v.delta.toNat) := by
    rw [BitVec.ofNat_mul, BitVec.ofNat_toNat, BitVec.setWidth_eq, mul_comm]
    rfl
  rw [eq, toInt_sub_ofNat (by omega)]

theorem afterWrap_flat (v : Value) : Flat (afterWrap v) := by
  have := v.upper.toInt_lt
  unfold Flat
  rw [afterWrap_base]
  simp only [afterWrap, BitVec.toNat_ofNat, Nat.mod_eq_of_lt (afterCount_lt v), part_delta]
  omega

private theorem part_unsplit {d b : Word} {n : Nat} (pos : 0 < d.toInt)
    (flat : Flat ⟨.val, b, if n = 0 then 0 else d, BitVec.ofNat 32 n⟩) :
    Unsplit ⟨.val, b, if n = 0 then 0 else d, BitVec.ofNat 32 n⟩ := by
  by_cases zero : n = 0
  · exact .inl (.inl (if_pos zero))
  · refine flat.unsplit ?_
    rwa [if_neg zero]

/-- The parts of a value are not split again. -/
theorem unsplit_of_PQValue (h : PQValue v = .ok (p, q)) : Unsplit p ∧ Unsplit q := by
  rcases PQValue_cases h with ⟨le, nonneg, rfl, rfl⟩ | ⟨-, pos, rfl, rfl⟩
  · refine ⟨?_, .inl (.inl rfl)⟩
    rcases nonneg.lt_or_eq with pos | zero
    · exact .inr ⟨pos, le⟩
    · exact .inl (.inl (mag_eq_zero.mp (by unfold mag; omega)))
  · exact ⟨part_unsplit pos (beforeWrap_flat v), part_unsplit pos (afterWrap_flat v)⟩

/-- The least common word, as `interFrom` finds it. -/
def firstCommon (v : Value) (j : Nat) : Word := v.base + BitVec.ofNat 32 j * v.delta

theorem gamma_directed (same : Bool) (h : v.kind = .val) : (directed same v).gamma = v.gamma := by
  unfold directed
  split
  · rfl
  · split
    · exact gamma_reverse h
    · rfl

/-- What `interFrom` gives: nothing, a division by zero, or the progression by the lcm
up to the smaller of the two last elements. -/
theorem interFrom_cases (same : Bool) (v w : Value) :
    (interFrom same v w = .ok none ∧
        ∀ j, findj v w = some j → (min w.upper v.upper).toInt < (firstCommon v j).toInt) ∨
      (interFrom same v w = .error .division ∧ lcm v.delta w.delta = 0) ∨
      ∃ j r, findj v w = some j ∧ interFrom same v w = .ok r ∧
        r.gamma = prog (firstCommon v j)
          (if (min w.upper v.upper - firstCommon v j) / lcm v.delta w.delta = 0 then 0
            else lcm v.delta w.delta)
          ((min w.upper v.upper - firstCommon v j) / lcm v.delta w.delta).toNat := by
  unfold interFrom
  cases found : findj v w with
  | none => exact .inl ⟨rfl, fun j h => nomatch h⟩
  | some j =>
    by_cases above : (min w.upper v.upper).toInt < (firstCommon v j).toInt
    · refine .inl ⟨if_pos above, fun i h => ?_⟩
      cases h
      exact above
    · by_cases zero : lcm v.delta w.delta = 0
      · exact .inr (.inl ⟨(if_neg above).trans (if_pos zero), zero⟩)
      · refine .inr (.inr ⟨j, _, rfl, (if_neg above).trans (if_neg zero), ?_⟩)
        rw [gamma_directed same rfl]
        exact gamma_val _ _ _

theorem interFlat_ne_reentry (same : Bool) (v w : Value) : interFlat same v w ≠ .error .reentry := by
  have from' : ∀ v w : Value, interFrom same v w ≠ .error .reentry := by
    intro v w fault
    rcases interFrom_cases same v w with ⟨eq, -⟩ | ⟨eq, -⟩ | ⟨_, _, -, eq, -⟩
    · exact nomatch eq.symm.trans fault
    · exact nomatch eq.symm.trans fault
    · exact nomatch eq.symm.trans fault
  unfold interFlat
  split
  · exact fun fault => nomatch fault
  · split
    · exact from' v w
    · exact from' w v

/-- One of the two operands passes the greatest signed word. -/
def Wraps (v w : Value) : Prop := v.upper.toInt < v.base.toInt ∨ w.upper.toInt < w.base.toInt

/-- Two progressions are split when one of them wraps, and intersected otherwise. -/
theorem interStep_of_progressions (split : Value → Value → Except Fault Value) (none₁ : a ≠ none)
    (none₂ : c ≠ none) (ne : a ≠ c) (top₁ : ¬ a.isTop) (top₂ : ¬ c.isTop) (const₁ : ¬ a.isConst)
    (const₂ : ¬ c.isConst) :
    (Wraps a.upward c.upward ∧ interStep split a c = split a.upward c.upward) ∨
      (¬ Wraps a.upward c.upward ∧
        interStep split a c = interFlat (a.direction = c.direction) a.upward c.upward) := by
  unfold interStep
  rw [if_neg (not_or.mpr ⟨none₁, none₂⟩), if_neg ne, if_neg top₁, if_neg top₂,
    if_neg fun h => const₁ h.1, if_neg const₁, if_neg const₂]
  by_cases wraps : Wraps a.upward c.upward
  · exact .inl ⟨wraps, if_pos wraps⟩
  · exact .inr ⟨wraps, if_neg wraps⟩

/-- Every other case has a result. -/
theorem interStep_ok (split : Value → Value → Except Fault Value)
    (easy : a = none ∨ c = none ∨ a = c ∨ a.isTop ∨ c.isTop ∨ a.isConst ∨ c.isConst) :
    ∃ r, interStep split a c = .ok r := by
  unfold interStep
  by_cases nones : a = none ∨ c = none
  · exact ⟨_, if_pos nones⟩
  rw [if_neg nones]
  by_cases same : a = c
  · exact ⟨_, if_pos same⟩
  rw [if_neg same]
  by_cases top₁ : a.isTop
  · exact ⟨_, if_pos top₁⟩
  rw [if_neg top₁]
  by_cases top₂ : c.isTop
  · exact ⟨_, if_pos top₂⟩
  rw [if_neg top₂]
  by_cases consts : a.isConst ∧ c.isConst
  · exact ⟨_, if_pos consts⟩
  rw [if_neg consts]
  by_cases const₁ : a.isConst
  · exact ⟨_, if_pos const₁⟩
  rw [if_neg const₁]
  have const₂ : c.isConst := by
    rcases easy with h | h | h | h | h | h | h
    · exact absurd (.inl h) nones
    · exact absurd (.inr h) nones
    · exact absurd h same
    · exact absurd h top₁
    · exact absurd h top₂
    · exact absurd h const₁
    · exact h
  exact ⟨_, if_pos const₂⟩

theorem Unsplit.upward (h : Unsplit v) (nonconst : ¬ v.isConst) :
    v.upward = v ∧ v.base.toInt ≤ v.upper.toInt :=
  ⟨upward_of_pos (h.resolve_left nonconst).1, (h.resolve_left nonconst).2⟩

/-- A nested call of two parts does not split them. -/
theorem interPart_ne_reentry (hp : Unsplit p) (hq : Unsplit q) :
    interPart p q ≠ .error .reentry := by
  by_cases easy : p = none ∨ q = none ∨ p = q ∨ p.isTop ∨ q.isTop ∨ p.isConst ∨ q.isConst
  · obtain ⟨r, ok⟩ := interStep_ok (fun _ _ => .error .reentry) easy
    exact fun fault => nomatch ok.symm.trans fault
  · simp only [not_or] at easy
    obtain ⟨none₁, none₂, ne, top₁, top₂, const₁, const₂⟩ := easy
    obtain ⟨up₁, le₁⟩ := hp.upward (not_or.mpr const₁)
    obtain ⟨up₂, le₂⟩ := hq.upward (not_or.mpr const₂)
    rcases interStep_of_progressions (fun _ _ => .error .reentry) none₁ none₂ ne top₁ top₂
      (not_or.mpr const₁) (not_or.mpr const₂) with ⟨wraps, -⟩ | ⟨-, flat⟩
    · rw [up₁, up₂] at wraps
      exact absurd wraps (not_or.mpr ⟨not_lt.mpr le₁, not_lt.mpr le₂⟩)
    · intro fault
      exact interFlat_ne_reentry _ _ _ (flat.symm.trans fault)

/-- From a sequence of calls with a result, the result of the first one. -/
private theorem bind_ok {α β : Type} {e : Except Fault α} {f : α → Except Fault β} {r : β}
    (h : e >>= f = .ok r) : ∃ y, e = .ok y ∧ f y = .ok r := by
  cases e with
  | error fault => exact nomatch h
  | ok y => exact ⟨y, rfl, h⟩

private theorem bind_error {α β : Type} {e : Except Fault α} {f : α → Except Fault β} {x : Fault}
    (h : e >>= f = .error x) : e = .error x ∨ ∃ y, e = .ok y ∧ f y = .error x := by
  cases e with
  | error fault =>
    cases h
    exact .inl rfl
  | ok y => exact .inr ⟨y, rfl, h⟩

private theorem PQValue_ne_reentry (v : Value) : PQValue v ≠ .error .reentry := by
  unfold PQValue
  split
  · exact fun fault => nomatch fault
  · simp only
    split
    · exact fun fault => nomatch fault
    · exact fun fault => nomatch fault

private theorem interSplit_ne_reentry (v w : Value) : interSplit v w ≠ .error .reentry := by
  intro fault
  rcases bind_error fault with fault | ⟨⟨PA, QA⟩, okA, fault⟩
  · exact PQValue_ne_reentry v fault
  rcases bind_error fault with fault | ⟨⟨PB, QB⟩, okB, fault⟩
  · exact PQValue_ne_reentry w fault
  obtain ⟨unsplitPA, unsplitQA⟩ := unsplit_of_PQValue okA
  obtain ⟨unsplitPB, unsplitQB⟩ := unsplit_of_PQValue okB
  rcases bind_error fault with fault | ⟨_, -, fault⟩
  · exact interPart_ne_reentry unsplitPA unsplitPB fault
  rcases bind_error fault with fault | ⟨_, -, fault⟩
  · exact interPart_ne_reentry unsplitPA unsplitQB fault
  rcases bind_error fault with fault | ⟨_, -, fault⟩
  · exact interPart_ne_reentry unsplitQA unsplitPB fault
  rcases bind_error fault with fault | ⟨_, -, fault⟩
  · exact interPart_ne_reentry unsplitQA unsplitQB fault
  exact nomatch fault

/-- The assertion on the nesting of splits never fails. -/
theorem inter_ne_reentry (a c : Value) : inter a c ≠ .error .reentry := by
  by_cases easy : a = none ∨ c = none ∨ a = c ∨ a.isTop ∨ c.isTop ∨ a.isConst ∨ c.isConst
  · obtain ⟨r, ok⟩ := interStep_ok interSplit easy
    exact fun fault => nomatch ok.symm.trans fault
  · simp only [not_or] at easy
    obtain ⟨none₁, none₂, ne, top₁, top₂, const₁, const₂⟩ := easy
    rcases interStep_of_progressions interSplit none₁ none₂ ne top₁ top₂
      (not_or.mpr const₁) (not_or.mpr const₂) with ⟨-, eq⟩ | ⟨-, eq⟩
    · exact fun fault => interSplit_ne_reentry _ _ (eq.symm.trans fault)
    · exact fun fault => interFlat_ne_reentry _ _ _ (eq.symm.trans fault)

/-! ### Two progressions on one side -/

theorem Flat.mem (h : Flat v) (hx : x ∈ prog v.base v.delta v.mtimes.toNat) :
    ∃ k ≤ v.mtimes.toNat, x.toInt = v.base.toInt + (k * v.delta.toNat : Nat) := by
  obtain ⟨k, le, rfl⟩ := hx
  exact ⟨k, le, h.toInt_step le⟩

theorem Flat.le_upper (h : Flat v) (hx : x ∈ prog v.base v.delta v.mtimes.toNat) :
    x.toInt ≤ v.upper.toInt := by
  obtain ⟨k, le, eq⟩ := h.mem hx
  have mul : k * v.delta.toNat ≤ v.mtimes.toNat * v.delta.toNat := Nat.mul_le_mul_right _ le
  rw [eq, h.upper]
  omega

/-- The 32-bit distance upward is the distance. -/
theorem toNat_sub_of_le {p q : Word} (le : p.toInt ≤ q.toInt) :
    (q - p).toNat = (q.toInt - p.toInt).toNat := by
  have hp := p.isLt
  have hq := q.isLt
  rw [toInt_eq, toInt_eq] at *
  rw [BitVec.toNat_sub]
  split at le <;> split <;> omega

/-- Two progressions with a common word are not apart. -/
theorem not_endsBefore (flat : Flat v) (hv : x ∈ prog v.base v.delta v.mtimes.toNat)
    (le : w.base.toInt ≤ x.toInt) : ¬ endsBefore v w := by
  rintro ⟨lt, beyond⟩
  obtain ⟨k, lek, eq⟩ := flat.mem hv
  rw [BitVec.toNat_udiv, toNat_abs] at beyond
  -- The magnitude of the 32-bit distance is at most the distance.
  have short : mag (w.base - v.base) ≤ (w.base.toInt - v.base.toInt).toNat := by
    rw [← toNat_sub_of_le lt.le]
    unfold mag
    rw [toInt_eq]
    split <;> omega
  have reach : mag (w.base - v.base) ≤ v.delta.toNat * k := by
    rw [mul_comm]
    omega
  exact absurd (beyond.trans_le (Nat.div_le_of_le_mul reach)) (not_lt.mpr lek)

/-- At most one word is in both values. -/
def MeetOnce (v w : Value) : Prop :=
  ∀ x ∈ v.gamma, x ∈ w.gamma → ∀ y ∈ v.gamma, y ∈ w.gamma → x = y

/-- The step of the result divides the lcm of the steps, or is of no use. -/
def LcmFits (v w : Value) : Prop :=
  lcm v.delta w.delta ≠ 0 ∧
    ((lcm v.delta w.delta).toNat ∣ Nat.lcm v.delta.toNat w.delta.toNat ∨ MeetOnce v w)

theorem gcd_comm (d e : Word) : gcd d e = gcd e d := by
  apply BitVec.eq_of_toNat_eq
  rw [toNat_gcd, toNat_gcd, Nat.gcd_comm]
  exact if_congr or_comm rfl rfl

theorem lcm_comm (d e : Word) : lcm d e = lcm e d := by
  unfold lcm
  rw [mul_comm, gcd_comm]

theorem LcmFits.symm (h : LcmFits v w) : LcmFits w v := by
  unfold LcmFits
  rw [lcm_comm, Nat.lcm_comm]
  exact ⟨h.1, h.2.imp_right fun once x hx hx' y hy hy' => once x hx' hx y hy' hy⟩

/-- The search stops at a true meeting when the operands have a common word, no later
than at that word. -/
theorem findj_of_common (flatV : Flat v) (flatW : Flat w) (pos : 0 < w.delta.toNat)
    (le : w.base.toInt ≤ v.base.toInt) (hv : x ∈ prog v.base v.delta v.mtimes.toNat)
    (hw : x ∈ prog w.base w.delta w.mtimes.toNat) :
    ∃ j k, findj v w = some j ∧ j ≤ k ∧ k ≤ v.mtimes.toNat ∧
      x.toInt = v.base.toInt + (k * v.delta.toNat : Nat) ∧
      w.delta.toNat ∣ (v.base.toInt - w.base.toInt).toNat + j * v.delta.toNat ∧
      w.delta.toNat ∣ (v.base.toInt - w.base.toInt).toNat + k * v.delta.toNat := by
  obtain ⟨k, lek, eqk⟩ := flatV.mem hv
  obtain ⟨l, lel, eql⟩ := flatW.mem hw
  have meets : (v.base.toInt - w.base.toInt).toNat + k * v.delta.toNat = l * w.delta.toNat := by omega
  have there : w.delta.toNat ∣ (v.base.toInt - w.base.toInt).toNat + k * v.delta.toNat :=
    ⟨l, by rw [meets, mul_comm]⟩
  -- Up to the index of a common word, the 32-bit sums of the search do not wrap.
  have test : ∀ i ≤ k, decide ((v.base - w.base + BitVec.ofNat 32 i * v.delta) % w.delta = 0) = true ↔
      w.delta.toNat ∣ (v.base.toInt - w.base.toInt).toNat + i * v.delta.toNat := by
    intro i lei
    have hiX := x.toInt_lt
    have loW := w.base.le_toInt
    have mul : i * v.delta.toNat ≤ k * v.delta.toNat := Nat.mul_le_mul_right _ lei
    rw [← nsmul_eq, nsmul_eq_ofNat, decide_eq_true_iff, ← BitVec.toNat_inj, BitVec.toNat_umod,
      BitVec.toNat_add, BitVec.toNat_ofNat, toNat_sub_of_le le, Nat.add_mod_mod,
      Nat.mod_eq_of_lt (b := 2 ^ 32) (by omega), Nat.dvd_iff_mod_eq_zero]
    rfl
  have early : k % w.delta.toNat ≤ k := Nat.mod_le _ _
  have hit := (test _ early).mpr (meets_mod there)
  unfold findj
  cases found : (List.range w.delta.toNat).find? fun j =>
      decide ((v.base - w.base + BitVec.ofNat 32 j * v.delta) % w.delta = 0) with
  | none =>
    have miss := List.find?_range_eq_none.mp found _ (Nat.mod_lt k pos)
    rw [hit] at miss
    cases miss
  | some j =>
    obtain ⟨hitj, -, before⟩ := List.find?_range_eq_some.mp found
    have lej : j ≤ k := by
      by_contra gt
      have miss := before _ (by omega : k % w.delta.toNat < j)
      rw [hit] at miss
      cases miss
    exact ⟨j, k, rfl, lej, lek, eqk, (test j lej).mp hitj, there⟩

/-- `interFrom` keeps every common word. -/
private theorem interFrom_sound (same : Bool) (flatV : Flat v) (flatW : Flat w)
    (kindV : v.kind = .val) (kindW : w.kind = .val) (pos : 0 < w.delta.toNat)
    (le : w.base.toInt ≤ v.base.toInt) (fits : LcmFits v w) (hv : x ∈ v.gamma) (hw : x ∈ w.gamma) :
    ∃ r, interFrom same v w = .ok r ∧ x ∈ r.gamma := by
  rw [gamma_of_val kindV] at hv
  rw [gamma_of_val kindW] at hw
  obtain ⟨j, k, found, lej, lek, eqx, here, there⟩ := findj_of_common flatV flatW pos le hv hw
  have first : (firstCommon v j).toInt = v.base.toInt + (j * v.delta.toNat : Nat) := by
    rw [firstCommon, ← nsmul_eq]
    exact flatV.toInt_step (lej.trans lek)
  have last : x.toInt ≤ (min w.upper v.upper).toInt := by
    rcases min_eq_or w.upper v.upper with ⟨-, eq⟩ | ⟨-, eq⟩ <;> rw [eq]
    · exact flatW.le_upper hw
    · exact flatV.le_upper hv
  have mul : j * v.delta.toNat ≤ k * v.delta.toNat := Nat.mul_le_mul_right _ lej
  rcases interFrom_cases same v w with ⟨-, above⟩ | ⟨-, zero⟩ | ⟨i, r, found', ok, result⟩
  · have := above j found
    omega
  · exact absurd zero fits.1
  refine ⟨r, ok, ?_⟩
  cases found.symm.trans found'
  rw [result]
  have span : (min w.upper v.upper - firstCommon v j).toNat =
      ((min w.upper v.upper).toInt - (firstCommon v j).toInt).toNat := toNat_sub_of_le (by omega)
  have shift : x = firstCommon v j + BitVec.ofNat 32 ((k - j) * v.delta.toNat) := by
    apply BitVec.eq_of_toInt_eq
    have hi := x.toInt_lt
    rw [toInt_add_ofNat (by rw [Nat.sub_mul]; omega), Nat.sub_mul]
    omega
  rcases fits.2 with dvd | once
  · obtain ⟨m, eqm⟩ := dvd.trans (lcm_dvd_of_meets here there)
    have count : m ≤ ((min w.upper v.upper - firstCommon v j) / lcm v.delta w.delta).toNat := by
      have pos' : 0 < (lcm v.delta w.delta).toNat :=
        Nat.pos_of_ne_zero fun zero => fits.1 (BitVec.eq_of_toNat_eq zero)
      rw [BitVec.toNat_udiv, Nat.le_div_iff_mul_le pos', mul_comm, ← eqm, span, Nat.sub_mul]
      omega
    by_cases zero : (min w.upper v.upper - firstCommon v j) / lcm v.delta w.delta = 0
    · have none : m = 0 := by
        rw [zero] at count
        exact Nat.le_zero.mp count
      have same : x = firstCommon v j := by
        rw [shift, eqm, none, mul_zero]
        exact add_zero _
      rw [← same]
      exact base_mem _ _ _
    · rw [if_neg zero, shift, eqm, mul_comm, ← nsmul_eq_ofNat]
      exact add_nsmul_mem count
  · have inV : firstCommon v j ∈ v.gamma := by
      rw [gamma_of_val kindV, firstCommon, ← nsmul_eq]
      exact add_nsmul_mem (lej.trans lek)
    have inW : firstCommon v j ∈ w.gamma := by
      obtain ⟨q, eqq⟩ := here
      have within : q ≤ w.mtimes.toNat := by
        have := flatW.le_upper hw
        rw [flatW.upper] at this
        refine Nat.le_of_mul_le_mul_left ?_ pos
        rw [← eqq, mul_comm w.delta.toNat]
        omega
      have eq : firstCommon v j = w.base + q • w.delta := by
        apply BitVec.eq_of_toInt_eq
        rw [flatW.toInt_step within, first, mul_comm q, ← eqq]
        omega
      rw [gamma_of_val kindW, eq]
      exact add_nsmul_mem within
    have same : x = firstCommon v j :=
      once x (gamma_of_val kindV ▸ hv) (gamma_of_val kindW ▸ hw) _ inV inW
    rw [← same]
    exact base_mem _ _ _

/-- Two progressions that stay on one side, with steps whose lcm fits. -/
private theorem interFlat_sound (same : Bool) (flatV : Flat v) (flatW : Flat w)
    (kindV : v.kind = .val) (kindW : w.kind = .val) (posV : 0 < v.delta.toNat)
    (posW : 0 < w.delta.toNat) (fits : LcmFits v w) (hv : x ∈ v.gamma) (hw : x ∈ w.gamma) :
    ∃ r, interFlat same v w = .ok r ∧ x ∈ r.gamma := by
  have inV := gamma_of_val kindV ▸ hv
  have inW := gamma_of_val kindW ▸ hw
  have baseLe : ∀ u : Value, Flat u → x ∈ prog u.base u.delta u.mtimes.toNat →
      u.base.toInt ≤ x.toInt := by
    intro u flat mem
    obtain ⟨k, -, eq⟩ := flat.mem mem
    omega
  unfold interFlat
  rw [if_neg (not_or.mpr ⟨not_endsBefore flatW inW (baseLe v flatV inV),
    not_endsBefore flatV inV (baseLe w flatW inW)⟩)]
  by_cases le : w.base.toInt ≤ v.base.toInt
  · rw [if_pos le]
    exact interFrom_sound same flatV flatW kindV kindW posW le fits hv hw
  · rw [if_neg le]
    exact interFrom_sound same flatW flatV kindW kindV posV (not_le.mp le).le fits.symm hw hv

/-! ### The two parts of a progression that wraps -/

/-- A progression goes around the words at most once. -/
def OneLap (v : Value) : Prop := v.mtimes.toNat * v.delta.toNat < 2 ^ 32

/-- The signed last element, in one lap: with or without `2 ^ 32`. -/
theorem OneLap.upper (h : OneLap v) :
    v.upper.toInt = v.base.toInt + (v.mtimes.toNat * v.delta.toNat : Nat) ∨
      v.upper.toInt = v.base.toInt + (v.mtimes.toNat * v.delta.toNat : Nat) - 2 ^ 32 := by
  unfold OneLap at h
  have isLt := v.base.isLt
  rw [Value.upper, ← toNat_nsmul, nsmul_eq_ofNat, toInt_eq, toInt_eq, BitVec.toNat_add,
    BitVec.toNat_ofNat, Nat.mod_eq_of_lt h]
  split <;> split <;> omega

theorem OneLap.flat (h : OneLap v) (le : v.base.toInt ≤ v.upper.toInt) : Flat v := by
  have hi := v.upper.toInt_lt
  have upper := h.upper
  unfold OneLap at h
  unfold Flat
  rcases upper with eq | eq <;> omega

theorem afterWrap_reach (v : Value) {k : Nat} (le : k ≤ v.mtimes.toNat)
    (inside : v.mtimes.toNat - k ≤ afterCount v) :
    v.base + k • v.delta =
      (afterWrap v).base + (afterCount v - (v.mtimes.toNat - k)) • v.delta := by
  have total : v.upper = v.base + v.mtimes.toNat • v.delta := by rw [Value.upper, toNat_nsmul]
  have base : (afterWrap v).base = v.upper - afterCount v • v.delta := by
    rw [nsmul_eq, mul_comm]
    rfl
  rw [base, total, sub_nsmul _ inside, sub_nsmul _ le]
  abel

/-- A progression of one lap is in its two parts. -/
theorem subset_parts (lap : OneLap v) (pos : 0 < v.delta.toInt)
    (wraps : v.upper.toInt < v.base.toInt) :
    prog v.base v.delta v.mtimes.toNat ⊆ (beforeWrap v).gamma ∪ (afterWrap v).gamma := by
  rintro x ⟨k, lek, rfl⟩
  have posNat := posNat pos
  have mul : k * v.delta.toNat ≤ v.mtimes.toNat * v.delta.toNat := Nat.mul_le_mul_right _ lek
  by_cases before : v.base.toInt + (k * v.delta.toNat : Nat) < 2 ^ 31
  · left
    have count : k ≤ beforeCount v := by
      rw [beforeCount, Nat.le_div_iff_mul_le posNat]
      omega
    unfold beforeWrap
    rw [gamma_val, BitVec.toNat_ofNat, Nat.mod_eq_of_lt (beforeCount_lt v)]
    by_cases zero : beforeCount v = 0
    · rw [show k = 0 by omega, zero_smul, add_zero]
      exact base_mem _ _ _
    · rw [if_neg zero]
      exact add_nsmul_mem count
  · right
    have wrapped : v.upper.toInt = v.base.toInt + (v.mtimes.toNat * v.delta.toNat : Nat) - 2 ^ 32 :=
      lap.upper.resolve_left (by omega)
    have count : v.mtimes.toNat - k ≤ afterCount v := by
      rw [afterCount, Nat.le_div_iff_mul_le posNat, Nat.sub_mul]
      omega
    rw [afterWrap_reach v lek count]
    unfold afterWrap
    rw [gamma_val, BitVec.toNat_ofNat, Nat.mod_eq_of_lt (afterCount_lt v)]
    by_cases zero : afterCount v = 0
    · rw [zero, Nat.zero_sub, zero_smul, add_zero]
      exact base_mem _ _ _
    · rw [if_neg zero]
      exact add_nsmul_mem (Nat.sub_le _ _)

theorem PQValue_ok (nonneg : 0 ≤ v.delta.toInt) : ∃ p q, PQValue v = .ok (p, q) := by
  unfold PQValue
  rw [if_neg (not_lt.mpr nonneg)]
  simp only
  split
  · exact ⟨_, _, rfl⟩
  · exact ⟨_, _, rfl⟩

theorem PQValue_sound (h : PQValue v = .ok (p, q)) (lap : OneLap v) (top : v.kind ≠ .all) :
    v.gamma ⊆ p.gamma ∪ q.gamma := by
  rcases PQValue_cases h with ⟨-, -, rfl, rfl⟩ | ⟨wraps, pos, rfl, rfl⟩
  · exact Set.subset_union_left
  · exact (gamma_subset_prog top).trans (subset_parts lap pos wraps)

section

variable (wrapped : v.upper.toInt = v.base.toInt + (v.mtimes.toNat * v.delta.toNat : Nat) - 2 ^ 32)
  (pos : 0 < v.delta.toInt)
include wrapped pos

theorem before_subset : (beforeWrap v).gamma ⊆ prog v.base v.delta v.mtimes.toNat := by
  have lo := v.upper.le_toInt
  have le : beforeCount v * v.delta.toNat ≤ (2 ^ 31 - 1 - v.base.toInt).toNat := Nat.div_mul_le_self _ _
  have count : beforeCount v ≤ v.mtimes.toNat := by
    refine Nat.le_of_mul_le_mul_right (c := v.delta.toNat) ?_ (posNat pos)
    omega
  unfold beforeWrap
  rw [gamma_val, BitVec.toNat_ofNat, Nat.mod_eq_of_lt (beforeCount_lt v)]
  by_cases zero : beforeCount v = 0
  · rw [zero, prog_zero_count, Set.singleton_subset_iff]
    exact base_mem _ _ _
  · rw [if_neg zero]
    exact prog_mono count

theorem after_subset : (afterWrap v).gamma ⊆ prog v.base v.delta v.mtimes.toNat := by
  have hi := v.base.toInt_lt
  have le := afterCount_mul_le v
  have count : afterCount v ≤ v.mtimes.toNat := by
    refine Nat.le_of_mul_le_mul_right (c := v.delta.toNat) ?_ (posNat pos)
    omega
  have reach : ∀ j ≤ afterCount v, (afterWrap v).base + j • v.delta ∈ prog v.base v.delta v.mtimes.toNat := by
    intro j lej
    have step := afterWrap_reach v (k := v.mtimes.toNat - (afterCount v - j)) (Nat.sub_le _ _) (by omega)
    rw [show afterCount v - (v.mtimes.toNat - (v.mtimes.toNat - (afterCount v - j))) = j by omega] at step
    exact ⟨_, Nat.sub_le _ _, step.symm⟩
  have kind : (afterWrap v).gamma = prog (afterWrap v).base (afterWrap v).delta (afterWrap v).mtimes.toNat :=
    gamma_of_val rfl
  rintro x hx
  rw [kind] at hx
  obtain ⟨j, lej, rfl⟩ := hx
  have lej : j ≤ afterCount v := by
    rwa [afterWrap, BitVec.toNat_ofNat, Nat.mod_eq_of_lt (afterCount_lt v)] at lej
  have delta : (afterWrap v).delta = if afterCount v = 0 then 0 else v.delta := rfl
  rw [delta]
  by_cases zero : afterCount v = 0
  · rw [if_pos zero, smul_zero, ← zero_smul Nat v.delta]
    exact reach 0 (Nat.zero_le _)
  · rw [if_neg zero]
    exact reach j lej

end

/-- The parts have no other words, and the second one is empty just when the value stays on its side. -/
theorem PQValue_exact {b d n : Word} (pos : 0 < d.toInt) (lap : d.toNat * n.toNat < 2 ^ 32) :
    ∃ p q, PQValue ⟨.val, b, d, n⟩ = .ok (p, q) ∧
      p.gamma ∪ q.gamma = {x | ∃ k ≤ n.toNat, x = b + BitVec.ofNat 32 k * d} ∧ Flat p ∧ Flat q ∧
      (q.gamma = ∅ ↔ b.toInt + n.toNat * d.toInt < 2 ^ 31) := by
  let v : Value := ⟨.val, b, d, n⟩
  have lap' : OneLap v := by
    unfold OneLap
    rwa [mul_comm]
  have stays : Flat v ↔ b.toInt + n.toNat * d.toInt < 2 ^ 31 := by
    rw [Flat, Nat.cast_mul, toNat_eq_toInt pos]
  obtain ⟨p, q, ok⟩ := PQValue_ok (v := v) (le_of_lt pos)
  have sound := PQValue_sound ok lap' nofun
  rcases PQValue_cases ok with ⟨le, -, rfl, rfl⟩ | ⟨wraps, -, rfl, rfl⟩
  · have flat := lap'.flat le
    exact ⟨v, none, ok, Set.union_empty _, flat, by unfold Flat; decide, iff_of_true rfl (stays.mp flat)⟩
  · have wrapped : v.upper.toInt = v.base.toInt + (v.mtimes.toNat * v.delta.toNat : Nat) - 2 ^ 32 :=
      lap'.upper.resolve_left (by omega)
    have crosses : ¬ Flat v := by
      have := v.upper.le_toInt
      unfold Flat
      omega
    have kind : (afterWrap v).gamma = prog (afterWrap v).base (afterWrap v).delta (afterWrap v).mtimes.toNat :=
      gamma_of_val rfl
    refine ⟨_, _, ok, Set.Subset.antisymm (Set.union_subset (before_subset wrapped pos) (after_subset wrapped pos)) sound,
      beforeWrap_flat v, afterWrap_flat v, iff_of_false ?_ (stays.not.mp crosses)⟩
    rw [kind]
    exact Set.nonempty_iff_ne_empty.mp ⟨_, base_mem _ _ _⟩

/-- A value that ends on the greatest signed word, and one that goes on after it. -/
theorem PQValue_exact_boundary :
    (∃ p q, PQValue ⟨.val, 0x7ffffff0, 5, 3⟩ = .ok (p, q) ∧
      p.gamma ∪ q.gamma = {x | ∃ k ≤ 3, x = 0x7ffffff0 + BitVec.ofNat 32 k * 5} ∧ Flat p ∧ Flat q ∧
      (q.gamma = ∅ ↔ (0x7ffffff0 : Word).toInt + (3 : Word).toNat * (5 : Word).toInt < 2 ^ 31)) ∧
    ∃ p q, PQValue ⟨.val, 0x7ffffff0, 5, 4⟩ = .ok (p, q) ∧
      p.gamma ∪ q.gamma = {x | ∃ k ≤ 4, x = 0x7ffffff0 + BitVec.ofNat 32 k * 5} ∧ Flat p ∧ Flat q ∧
      (q.gamma = ∅ ↔ (0x7ffffff0 : Word).toInt + (4 : Word).toNat * (5 : Word).toInt < 2 ^ 31) :=
  ⟨PQValue_exact (by decide) (by decide), PQValue_exact (by decide) (by decide)⟩

/-! ### A constant and a progression -/

/-- The test against a progression finds a word of it: the word is not below the base
as a signed number, or less than a step below it, or the count is as large as the
quotient read as an unsigned number. -/
def FoundFrom (k : Word) (temp : Value) : Prop :=
  temp.delta = MINn ∨ 0 ≤ (k - temp.base).toInt ∨ mag (k - temp.base) < mag temp.delta ∨
    2 ^ 32 ≤ temp.mtimes.toNat + mag (k - temp.base) / mag temp.delta

theorem not_beyond (mem : k ∈ prog v.base v.delta v.mtimes.toNat) (nonconst : ¬ v.isConst)
    (up : 0 < v.delta.toInt ∨ v.delta = MINn) (found : FoundFrom k v) : ¬ beyond k v := by
  have lo := (k - v.base).le_toInt
  have hi := (k - v.base).toInt_lt
  have many : v.mtimes.toNat ≠ 0 := fun zero => nonconst (.inr (BitVec.eq_of_toNat_eq zero))
  have size : ((k - v.base).toInt.tdiv v.delta.toInt).natAbs = mag (k - v.base) / mag v.delta :=
    Int.natAbs_tdiv _ _
  unfold beyond
  rw [not_lt]
  by_cases least : v.delta = MINn
  · -- The quotient is 0 or 1.
    have quotient : (k - v.base).toInt.tdiv MINn.toInt = 0 ∨ (k - v.base).toInt.tdiv MINn.toInt = 1 := by
      rw [show MINn.toInt = -2 ^ 31 from rfl]
      rcases lo.eq_or_lt with eq | lt
      · rw [← eq]
        exact .inr (by decide)
      · left
        rw [← Int.natAbs_eq_zero, Int.natAbs_tdiv]
        exact Nat.div_eq_of_lt (by omega)
    rw [least]
    rcases quotient with eq | eq <;> rw [eq]
    · exact Nat.zero_le _
    · exact Nat.one_le_iff_ne_zero.mpr many
  have pos := up.resolve_right least
  rcases found.resolve_left least with nonneg | near | large
  · -- The distance is at most the steps to the word.
    obtain ⟨i, lei, eqk⟩ := mem
    have distance : mag (k - v.base) ≤ mag v.delta * i := by
      have steps : (k - v.base).toNat = i * v.delta.toNat % 2 ^ 32 := by
        rw [eqk, add_sub_cancel_left, nsmul_eq_ofNat, BitVec.toNat_ofNat]
      rw [← toNat_of_nonneg nonneg, ← toNat_of_nonneg pos.le, steps, mul_comm]
      exact Nat.mod_le _ _
    have le : mag (k - v.base) / mag v.delta ≤ i := Nat.div_le_of_le_mul distance
    rw [tdiv_toInt nonneg pos, BitVec.ofInt_natCast, BitVec.toNat_ofNat]
    refine (Nat.mod_le _ _).trans (le_trans ?_ lei)
    have magnitude : (k - v.base).toInt.toNat = mag (k - v.base) := by
      unfold mag
      omega
    rw [toNat_of_nonneg pos.le, magnitude]
    exact le
  · rw [Nat.div_eq_of_lt near, Int.natAbs_eq_zero] at size
    rw [size]
    exact Nat.zero_le _
  · have small : mag (k - v.base) / mag v.delta ≤ 2 ^ 31 := (Nat.div_le_self _ _).trans (mag_le _)
    rw [BitVec.toNat_ofInt]
    generalize mag (k - v.base) / mag v.delta = m at *
    omega

/-! ### Soundness -/

/-- The operands of which the intersection holds every common word, given those of
which a split does. -/
def StepFits (SplitFits : Value → Value → Prop) (a c : Value) : Prop :=
  a = none ∨ c = none ∨ a = c ∨ a.isTop ∨ c.isTop ∨ (a.isConst ∧ c.isConst) ∨
    (a.isConst ∧ ¬ c.isConst ∧ (a.base ∈ c.gamma → FoundFrom a.base c.upward)) ∨
    (c.isConst ∧ ¬ a.isConst ∧ (c.base ∈ a.gamma → c.base = a.base ∧ FoundFrom c.base a.upward)) ∨
    (¬ a.isConst ∧ ¬ c.isConst ∧ OneLap a.upward ∧ OneLap c.upward ∧
      (Wraps a.upward c.upward → SplitFits a.upward c.upward) ∧
      (¬ Wraps a.upward c.upward → LcmFits a.upward c.upward))

/-- Two parts, which are not split again. -/
def PartFits : Value → Value → Prop := StepFits fun _ _ => False

/-- The four pairs of parts fit, and so do the three joins of what they give. -/
def SplitFits (v w : Value) : Prop :=
  0 < v.delta.toInt ∧ 0 < w.delta.toInt ∧
    ∀ PA QA PB QB, PQValue v = .ok (PA, QA) → PQValue w = .ok (PB, QB) →
      (PartFits PA PB ∧ PartFits PA QB ∧ PartFits QA PB ∧ PartFits QA QB) ∧
      ∀ PA' PA2 QA' QA2, interPart PA PB = .ok PA' → interPart PA QB = .ok PA2 →
        interPart QA PB = .ok QA' → interPart QA QB = .ok QA2 →
        JoinFits PA' PA2 ∧ JoinFits (PA'.join PA2) QA' ∧ JoinFits ((PA'.join PA2).join QA') QA2

/-- The operands of which the intersection holds every common word. -/
def InterFits : Value → Value → Prop := StepFits SplitFits

/-- A nonzero 32-bit lcm is all that a result takes. -/
private theorem interFlat_ok (same : Bool) (ne : lcm v.delta w.delta ≠ 0) :
    ∃ r, interFlat same v w = .ok r := by
  have from' : ∀ v w : Value, lcm v.delta w.delta ≠ 0 → ∃ r, interFrom same v w = .ok r := by
    intro v w ne
    rcases interFrom_cases same v w with ⟨eq, -⟩ | ⟨-, zero⟩ | ⟨_, r, -, eq, -⟩
    · exact ⟨_, eq⟩
    · exact absurd zero ne
    · exact ⟨r, eq⟩
  unfold interFlat
  split
  · exact ⟨_, rfl⟩
  · split
    · exact from' v w ne
    · exact from' w v (lcm_comm v.delta w.delta ▸ ne)

/-- A value read upward keeps its words. -/
theorem gamma_subset_upward (top : v.kind ≠ .all) : v.gamma ⊆ v.upward.gamma := by
  intro x hx
  have val := (kind_of_mem hx).resolve_right top
  unfold upward
  split
  · exact hx
  · rwa [gamma_reverse val]

theorem upward_kind_ne (top : v.kind ≠ .all) : v.upward.kind ≠ .all := by
  unfold upward
  split
  · exact top
  · exact fun h => nomatch h

theorem upward_nonconst (nonconst : ¬ v.isConst) : ¬ v.upward.isConst := by
  unfold upward
  split
  · exact nonconst
  · exact fun h => nonconst (h.imp_left neg_eq_zero.mp)

/-- Read upward, only the step `2 ^ 31` is not positive. -/
theorem upward_delta (ne : v.delta ≠ 0) : 0 < v.upward.delta.toInt ∨ v.upward.delta = MINn := by
  unfold upward direction
  by_cases pos : 0 < v.delta.toInt
  · rw [if_pos (decide_eq_true pos)]
    exact .inl pos
  · rw [if_neg (by simpa using pos)]
    have isLt := v.delta.isLt
    have nonzero := mag_eq_zero.not.mpr ne
    unfold mag at nonzero
    simp only [reverse]
    rw [toInt_eq] at *
    by_cases least : -v.delta = MINn
    · exact .inr least
    · left
      have : v.delta.toNat ≠ 2 ^ 31 := by
        intro eq
        apply least
        rw [show v.delta = MINn from BitVec.eq_of_toNat_eq eq]
        decide
      rw [BitVec.toNat_neg]
      split at pos <;> split <;> omega

/-- A constant found in a progression. -/
private theorem const_found (top : v.kind ≠ .all) (nonconst : ¬ v.isConst) (hk : k ∈ v.gamma)
    (found : FoundFrom k v.upward) : ¬ beyond k v.upward :=
  not_beyond (gamma_subset_prog (upward_kind_ne top) (gamma_subset_upward top hk))
    (upward_nonconst nonconst) (upward_delta fun zero => nonconst (.inl zero)) found

private theorem flat_sound (same : Bool) (top₁ : v.kind ≠ .all) (top₂ : w.kind ≠ .all)
    (const₁ : ¬ v.isConst) (const₂ : ¬ w.isConst) (lap₁ : OneLap v) (lap₂ : OneLap w)
    (flat : ¬ Wraps v w) (fits : LcmFits v w) :
    ∃ r, interFlat same v w = .ok r ∧ v.gamma ∩ w.gamma ⊆ r.gamma := by
  obtain ⟨r, ok⟩ := interFlat_ok same fits.1
  obtain ⟨le₁, le₂⟩ := not_or.mp flat
  have nonzero : ∀ u : Value, ¬ u.isConst → 0 < u.delta.toNat := fun u nonconst =>
    Nat.pos_of_ne_zero fun zero => nonconst (.inl (BitVec.eq_of_toNat_eq zero))
  refine ⟨r, ok, fun x ⟨hv, hw⟩ => ?_⟩
  obtain ⟨r', ok', mem⟩ := interFlat_sound same (lap₁.flat (not_lt.mp le₁)) (lap₂.flat (not_lt.mp le₂))
    ((kind_of_mem hv).resolve_right top₁) ((kind_of_mem hw).resolve_right top₂)
    (nonzero v const₁) (nonzero w const₂) fits hv hw
  cases ok.symm.trans ok'
  exact mem

theorem interStep_sound {split : Value → Value → Except Fault Value}
    {SplitFits : Value → Value → Prop}
    (splitSound : ∀ v w, v.kind ≠ .all → w.kind ≠ .all → OneLap v → OneLap w → SplitFits v w →
      ∃ r, split v w = .ok r ∧ v.gamma ∩ w.gamma ⊆ r.gamma)
    (fits : StepFits SplitFits a c) :
    ∃ r, interStep split a c = .ok r ∧ a.gamma ∩ c.gamma ⊆ r.gamma := by
  unfold interStep
  by_cases nones : a = none ∨ c = none
  · refine ⟨_, if_pos nones, ?_⟩
    rcases nones with rfl | rfl
    · exact Set.inter_subset_left
    · exact Set.inter_subset_right
  rw [if_neg nones]
  by_cases same : a = c
  · exact ⟨_, if_pos same, Set.inter_subset_left⟩
  rw [if_neg same]
  by_cases top₁ : a.isTop
  · exact ⟨_, if_pos top₁, Set.inter_subset_right⟩
  rw [if_neg top₁]
  by_cases top₂ : c.isTop
  · exact ⟨_, if_pos top₂, Set.inter_subset_left⟩
  rw [if_neg top₂]
  obtain ⟨none₁, none₂⟩ := not_or.mp nones
  simp only [StepFits, none₁, none₂, same, top₁, top₂, false_or] at fits
  rcases fits with consts | ⟨const₁, const₂, found⟩ | ⟨const₂, const₁, found⟩ |
    ⟨const₁, const₂, lap₁, lap₂, wrapping, flat⟩
  · refine ⟨_, if_pos consts, fun x ⟨ha, hc⟩ => ?_⟩
    have eq := (gamma_subset_const top₁ consts.1 ha).symm.trans (gamma_subset_const top₂ consts.2 hc)
    rwa [if_neg (not_not.mpr eq)]
  · rw [if_neg fun h => const₂ h.2, if_pos const₁]
    refine ⟨_, rfl, fun x ⟨ha, hc⟩ => ?_⟩
    cases gamma_subset_const top₁ const₁ ha
    rw [if_neg (const_found top₂ const₂ hc (found hc))]
    exact mem_const _
  · rw [if_neg fun h => const₁ h.1, if_neg const₁, if_pos const₂]
    refine ⟨_, rfl, fun x ⟨ha, hc⟩ => ?_⟩
    cases gamma_subset_const top₂ const₂ hc
    rw [if_neg (const_found top₁ const₁ ha (found ha).2), (found ha).1]
    exact mem_const _
  · rw [if_neg fun h => const₁ h.1, if_neg const₁, if_neg const₂]
    have up := Set.inter_subset_inter (gamma_subset_upward top₁) (gamma_subset_upward top₂)
    by_cases wraps : Wraps a.upward c.upward
    · obtain ⟨r, ok, sound⟩ := splitSound _ _ (upward_kind_ne top₁) (upward_kind_ne top₂) lap₁ lap₂
        (wrapping wraps)
      exact ⟨r, (if_pos wraps).trans ok, up.trans sound⟩
    · obtain ⟨r, ok, sound⟩ := flat_sound (a.direction = c.direction) (upward_kind_ne top₁)
        (upward_kind_ne top₂) (upward_nonconst const₁) (upward_nonconst const₂) lap₁ lap₂ wraps
        (flat wraps)
      exact ⟨r, (if_neg wraps).trans ok, up.trans sound⟩

/-- The parts of a split meet where the operands do. -/
private theorem interSplit_sound (top₁ : v.kind ≠ .all) (top₂ : w.kind ≠ .all) (lap₁ : OneLap v)
    (lap₂ : OneLap w) (fits : SplitFits v w) :
    ∃ r, interSplit v w = .ok r ∧ v.gamma ∩ w.gamma ⊆ r.gamma := by
  obtain ⟨pos₁, pos₂, parts⟩ := fits
  obtain ⟨PA, QA, okA⟩ := PQValue_ok pos₁.le
  obtain ⟨PB, QB, okB⟩ := PQValue_ok pos₂.le
  obtain ⟨⟨fitsPP, fitsPQ, fitsQP, fitsQQ⟩, joins⟩ := parts _ _ _ _ okA okB
  have part : ∀ p q, PartFits p q → ∃ r, interPart p q = .ok r ∧ p.gamma ∩ q.gamma ⊆ r.gamma :=
    fun p q fits => interStep_sound (fun _ _ _ _ _ _ h => nomatch h) fits
  obtain ⟨PA', okPP, soundPP⟩ := part PA PB fitsPP
  obtain ⟨PA2, okPQ, soundPQ⟩ := part PA QB fitsPQ
  obtain ⟨QA', okQP, soundQP⟩ := part QA PB fitsQP
  obtain ⟨QA2, okQQ, soundQQ⟩ := part QA QB fitsQQ
  obtain ⟨join₁, join₂, join₃⟩ := joins _ _ _ _ okPP okPQ okQP okQQ
  have left₁ := Set.union_subset_iff.mp (union_subset_join join₁)
  have left₂ := Set.union_subset_iff.mp (union_subset_join join₂)
  have left₃ := Set.union_subset_iff.mp (union_subset_join join₃)
  refine ⟨((PA'.join PA2).join QA').join QA2, ?_, fun x ⟨hv, hw⟩ => ?_⟩
  · unfold interSplit
    simp only [bind, Except.bind, okA, okB, okPP, okPQ, okQP, okQQ]
    rfl
  · rcases PQValue_sound okA lap₁ top₁ hv with hA | hA <;>
      rcases PQValue_sound okB lap₂ top₂ hw with hB | hB
    · exact left₃.1 (left₂.1 (left₁.1 (soundPP ⟨hA, hB⟩)))
    · exact left₃.1 (left₂.1 (left₁.2 (soundPQ ⟨hA, hB⟩)))
    · exact left₃.1 (left₂.2 (soundQP ⟨hA, hB⟩))
    · exact left₃.2 (soundQQ ⟨hA, hB⟩)

theorem subset_inter (fits : InterFits a c) : ∃ r, inter a c = .ok r ∧ a.gamma ∩ c.gamma ⊆ r.gamma :=
  interStep_sound (fun _ _ top₁ top₂ lap₁ lap₂ h => interSplit_sound top₁ top₂ lap₁ lap₂ h) fits

end Otawa.Clp.Value
