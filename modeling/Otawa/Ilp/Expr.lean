import Mathlib.Algebra.BigOperators.Group.List.Basic
import Mathlib.Algebra.Order.Ring.Int
import Mathlib.Tactic.Ring

/-!
# Expressions of an ILP system

A constraint compares a sum of terms with 0. A term without a variable is a constant. `Cons` writes a
constraint from the left to the right: what is added after the comparator goes to the other side.
-/

namespace Otawa.Ilp

/-- `Constraint::comparator_t`. -/
inductive Comparator where
  | undef
  | lt
  | le
  | eq
  | ge
  | gt
  deriving DecidableEq, Repr

/-- How a number compares with 0. -/
def Comparator.Holds : Comparator → ℤ → Prop
  | .undef, _ => False
  | .lt, n => n < 0
  | .le, n => n ≤ 0
  | .eq, n => n = 0
  | .ge, n => 0 ≤ n
  | .gt, n => 0 < n

instance : (cmp : Comparator) → (n : ℤ) → Decidable (cmp.Holds n)
  | .undef, _ => inferInstanceAs (Decidable False)
  | .lt, n => inferInstanceAs (Decidable (n < 0))
  | .le, n => inferInstanceAs (Decidable (n ≤ 0))
  | .eq, n => inferInstanceAs (Decidable (n = 0))
  | .ge, n => inferInstanceAs (Decidable (0 ≤ n))
  | .gt, n => inferInstanceAs (Decidable (0 < n))

structure Term (V : Type) where
  coef : ℤ
  var : Option V

/-- `x(v)`. -/
def Term.x {V : Type} (v : V) : Term V := ⟨1, some v⟩

def Term.const {V : Type} (n : ℤ) : Term V := ⟨n, none⟩

def Term.value {V : Type} (val : V → ℤ) (t : Term V) : ℤ :=
  t.coef * t.var.elim 1 val

structure Constraint (V : Type) where
  comparator : Comparator
  terms : List (Term V)

namespace Constraint

variable {V : Type}

def add (c : Constraint V) (t : Term V) : Constraint V :=
  { c with terms := c.terms ++ [t] }

def sub (c : Constraint V) (t : Term V) : Constraint V :=
  c.add ⟨-t.coef, t.var⟩

/-- A null variable stands for the constant. -/
def addLeft (c : Constraint V) (coef : ℤ) (var : Option V) : Constraint V :=
  c.add ⟨coef, var⟩

def addRight (c : Constraint V) (coef : ℤ) (var : Option V) : Constraint V :=
  c.add ⟨-coef, var⟩

/-- The terms, all on the left side. -/
def lhs (val : V → ℤ) (c : Constraint V) : ℤ :=
  (c.terms.map fun t => t.value val).sum

def Holds (val : V → ℤ) (c : Constraint V) : Prop :=
  c.comparator.Holds (c.lhs val)

instance (val : V → ℤ) (c : Constraint V) : Decidable (c.Holds val) :=
  inferInstanceAs (Decidable (c.comparator.Holds (c.lhs val)))

variable {val : V → ℤ} {c : Constraint V} {t : Term V}

@[simp] theorem comparator_add : (c.add t).comparator = c.comparator := rfl

@[simp] theorem comparator_sub : (c.sub t).comparator = c.comparator := rfl

@[simp] theorem lhs_nil (cmp : Comparator) : lhs val ⟨cmp, []⟩ = 0 := rfl

@[simp] theorem lhs_add : (c.add t).lhs val = c.lhs val + t.value val := by
  simp [lhs, add]

@[simp] theorem lhs_sub : (c.sub t).lhs val = c.lhs val - t.value val := by
  rw [sub, lhs_add, Term.value, Term.value]
  ring

@[simp] theorem lhs_addLeft (coef : ℤ) (var : Option V) :
    (c.addLeft coef var).lhs val = c.lhs val + coef * var.elim 1 val :=
  lhs_add

@[simp] theorem lhs_addRight (coef : ℤ) (var : Option V) :
    (c.addRight coef var).lhs val = c.lhs val - coef * var.elim 1 val := by
  rw [addRight, lhs_add, Term.value]
  ring

/-- A loop that adds to a constraint. -/
theorem foldl_lhs {α : Type} {f : Constraint V → α → Constraint V} {w : α → ℤ}
    (hcomp : ∀ c a, (f c a).comparator = c.comparator) (hlhs : ∀ c a, (f c a).lhs val = c.lhs val + w a) (l : List α)
    (c : Constraint V) :
    (l.foldl f c).comparator = c.comparator ∧ (l.foldl f c).lhs val = c.lhs val + (l.map w).sum := by
  induction l generalizing c with
  | nil => exact ⟨rfl, by simp⟩
  | cons a l ih =>
    obtain ⟨hcomp', hlhs'⟩ := ih (f c a)
    refine ⟨hcomp'.trans (hcomp c a), ?_⟩
    rw [List.foldl_cons, hlhs', hlhs, List.map_cons, List.sum_cons]
    ring

/-- The comparator does not count for the sum. -/
@[simp] theorem lhs_comparator (cmp : Comparator) : ({ c with comparator := cmp } : Constraint V).lhs val = c.lhs val :=
  rfl

end Constraint

@[simp] theorem Term.value_x {V : Type} (val : V → ℤ) (v : V) : (Term.x v).value val = val v :=
  one_mul _

@[simp] theorem Term.value_const {V : Type} (val : V → ℤ) (n : ℤ) : (Term.const n).value val = n :=
  mul_one _

/-- `cons`: a constraint and whether its left side is written. -/
structure Cons (V : Type) where
  left : Bool
  c : Constraint V

namespace Cons

variable {V : Type}

/-- `m(label)`, for a model `m`. -/
def new : Cons V := ⟨true, ⟨.undef, []⟩⟩

/-- `cons(Constraint *)`. -/
def ofConstraint (c : Constraint V) : Cons V := ⟨c.comparator = .undef, c⟩

def plus (k : Cons V) (t : Term V) : Cons V :=
  if k.left then { k with c := k.c.add t } else { k with c := k.c.sub t }

def set (k : Cons V) (comp : Comparator) : Cons V :=
  ⟨false, { k.c with comparator := comp }⟩

def eq (k : Cons V) (t : Term V) : Cons V := (k.set .eq).plus t

def ge (k : Cons V) (t : Term V) : Cons V := (k.set .ge).plus t

variable {val : V → ℤ} {k : Cons V} {t : Term V}

theorem plus_of_left (hleft : k.left = true) : k.plus t = ⟨true, k.c.add t⟩ := by
  rw [plus, if_pos hleft, hleft]

theorem plus_of_right (hright : k.left = false) : k.plus t = ⟨false, k.c.sub t⟩ := by
  rw [plus, if_neg (by rw [hright]; decide), hright]

/-- `m(label) + x(v) == n`, or another comparator. -/
theorem compare (v : V) (cmp : Comparator) (n : ℤ) :
    ∃ k : Cons V, ((new.plus (.x v)).set cmp).plus (.const n) = k ∧
      k.left = false ∧ k.c.comparator = cmp ∧ ∀ val, k.c.lhs val = val v - n := by
  have hset : ((new.plus (.x v)).set cmp).left = false := rfl
  have hnew : (new : Cons V).left = true := rfl
  rw [plus_of_right hset]
  refine ⟨_, rfl, rfl, rfl, ?_⟩
  intro val
  rw [Constraint.lhs_sub, Term.value_const, set, Constraint.lhs_comparator, plus_of_left hnew,
    Constraint.lhs_add, Term.value_x]
  congr 1
  exact zero_add _

/-- A constraint with the comparator in it: what is added goes to the right side. -/
theorem foldl_plus {α : Type} (f : α → Term V) (l : List α) (hright : k.left = false) :
    (l.foldl (fun k a => k.plus (f a)) k).left = false ∧
      (l.foldl (fun k a => k.plus (f a)) k).c.comparator = k.c.comparator ∧
      (l.foldl (fun k a => k.plus (f a)) k).c.lhs val = k.c.lhs val - (l.map fun a => (f a).value val).sum := by
  induction l generalizing k with
  | nil => exact ⟨hright, rfl, by simp⟩
  | cons a l ih =>
    rw [List.foldl_cons, plus_of_right hright]
    obtain ⟨hleft, hcomp, hlhs⟩ := @ih ⟨false, k.c.sub (f a)⟩ rfl
    refine ⟨hleft, hcomp, ?_⟩
    rw [hlhs, List.map_cons, List.sum_cons, Constraint.lhs_sub]
    ring

end Cons

end Otawa.Ilp
