import Otawa.Clp.Word
import Otawa.Lib.Progression

/-!
# CLP values

`Value` is the triplet `(base, delta, mtimes)` of the class with its kind, and
`Value.gamma` the set of 32-bit words it stands for: the progression from `base` by
`delta`, with `mtimes` steps, modulo `2 ^ 32`. A register name (`REG`) stands for no
word. The accessors are the ones of the class.
-/

namespace Otawa.Clp

open Otawa.Progression

/-- `kind_t`. -/
inductive Kind where
  | none
  | reg
  | val
  | all
  deriving DecidableEq, Repr

@[ext] structure Value where
  kind : Kind
  base : Word
  delta : Word
  mtimes : Word
  deriving DecidableEq, Repr

namespace Value

/-- `Value::none`. -/
def none : Value := ⟨.none, 0, 0, 0⟩

/-- `Value::all`. -/
def all : Value := ⟨.all, 0, 1, UMAXn⟩

/-- The constructor of a constant. -/
def const (k : Word) : Value := ⟨.val, k, 0, 0⟩

/-- The words a value stands for. -/
def gamma (v : Value) : Set Word :=
  match v.kind with
  | .none => ∅
  | .reg => ∅
  | .val => {x | ∃ k ≤ v.mtimes.toNat, x = v.base + BitVec.ofNat 32 k * v.delta}
  | .all => Set.univ

abbrev isConst (v : Value) : Prop := v.delta = 0 ∨ v.mtimes = 0

abbrev isInf (v : Value) : Prop := v.mtimes = UMAXn

abbrev isTop (v : Value) : Prop := v.kind = .all

def direction (v : Value) : Bool := decide (0 < v.delta.toInt)

def start (v : Value) : Word := if v.delta.toInt < 0 then v.base + v.delta * v.mtimes else v.base

def stop (v : Value) : Word := if v.delta.toInt < 0 then v.base else v.base + v.delta * v.mtimes

def reverse (v : Value) : Value := ⟨.val, v.base + v.delta * v.mtimes, -v.delta, v.mtimes⟩

/-! ### The words of a value -/

variable {v : Value}

@[simp] theorem gamma_none : none.gamma = ∅ := rfl

@[simp] theorem gamma_all : all.gamma = Set.univ := rfl

theorem gamma_of_all (h : v.kind = .all) : v.gamma = Set.univ := by simp [gamma, h]

/-- The words of a progression. -/
theorem gamma_of_val (h : v.kind = .val) : v.gamma = prog v.base v.delta v.mtimes.toNat := by
  simp [gamma, h, prog]

@[simp] theorem gamma_val (b d n : Word) : (⟨.val, b, d, n⟩ : Value).gamma = prog b d n.toNat :=
  gamma_of_val rfl

theorem gamma_of_zero_step (kind : v.kind = .val) (zero : v.delta = 0) : v.gamma = {v.base} := by
  rw [gamma_of_val kind, zero, prog_zero_step]

theorem gamma_const (k : Word) : (const k).gamma = {k} := gamma_of_zero_step rfl rfl

theorem mem_const (k : Word) : k ∈ (const k).gamma := by
  rw [gamma_const]
  exact Set.mem_singleton k

/-- A value with a word is a progression or the top value. -/
theorem kind_of_mem {x : Word} (h : x ∈ v.gamma) : v.kind = .val ∨ v.kind = .all := by
  cases hk : v.kind <;> simp [gamma, hk] at h ⊢

/-- Steps in the group of words. -/
theorem nsmul_eq (k : Nat) (d : Word) : k • d = BitVec.ofNat 32 k * d := by simp

theorem zsmul_eq (z : Int) (d : Word) : z • d = BitVec.ofInt 32 z * d := by
  rw [zsmul_eq_mul]
  rfl

theorem toNat_nsmul (n d : Word) : n.toNat • d = d * n := by
  rw [nsmul_eq, BitVec.ofNat_toNat, BitVec.setWidth_eq, mul_comm]

/-- `2 ^ 32` steps lead back. -/
theorem period (g : Word) : (2 ^ 32) • g = 0 := by simp

/-- The words of a value do not depend on the end it is read from. -/
theorem gamma_reverse (h : v.kind = .val) : v.reverse.gamma = v.gamma := by
  rw [gamma_of_val h, reverse, gamma_val, ← toNat_nsmul]
  exact prog_reverse _ _ _

/-- A value other than the top one has no words but those of its progression. -/
theorem gamma_subset_prog (h : v.kind ≠ .all) : v.gamma ⊆ prog v.base v.delta v.mtimes.toNat := by
  intro x hx
  rwa [gamma_of_val ((kind_of_mem hx).resolve_right h)] at hx

/-- A progression read upward from its signed start. -/
theorem prog_start (v : Value) :
    prog v.start (abs v.delta) v.mtimes.toNat = prog v.base v.delta v.mtimes.toNat := by
  unfold start abs
  by_cases neg : v.delta.toInt < 0
  · rw [if_pos neg, if_neg (not_le.mpr neg), ← toNat_nsmul, prog_reverse]
  · rw [if_neg neg, if_pos (not_lt.mp neg)]

/-- A progression read downward from its signed stop. -/
theorem prog_stop (v : Value) :
    prog v.stop (-abs v.delta) v.mtimes.toNat = prog v.base v.delta v.mtimes.toNat := by
  unfold stop abs
  by_cases neg : v.delta.toInt < 0
  · rw [if_pos neg, if_neg (not_le.mpr neg), neg_neg]
  · rw [if_neg neg, if_pos (not_lt.mp neg), ← toNat_nsmul, prog_reverse]

/-- A step with `UMAXn` repetitions reaches every multiple of the step. -/
theorem mem_prog_UMAXn (b g : Word) (k : Nat) : b + k • g ∈ prog b g (UMAXn).toNat :=
  nsmul_mem_of_period (Nat.two_pow_pos 32) (period g) k

/-- A progression by 1 or -1 with `UMAXn` repetitions is every word. -/
theorem prog_one_eq_univ (b : Word) : prog b 1 (UMAXn).toNat = Set.univ := by
  refine Set.eq_univ_of_forall fun x => ?_
  have reach := mem_prog_UMAXn b 1 (x - b).toNat
  rwa [toNat_nsmul, one_mul, add_sub_cancel] at reach

theorem prog_neg_one_eq_univ (b : Word) : prog b (-1) (UMAXn).toNat = Set.univ := by
  refine Set.eq_univ_of_forall fun x => ?_
  have reach := mem_prog_UMAXn b (-1) (b - x).toNat
  rw [toNat_nsmul] at reach
  convert reach using 1
  ring

end Value

end Otawa.Clp
