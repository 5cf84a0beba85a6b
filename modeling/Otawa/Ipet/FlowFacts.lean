import Otawa.Ilp.Expr
import Mathlib.Algebra.BigOperators.Ring.List
import Mathlib.Data.List.Flatten

/-!
# `FlowFactConstraintBuilder`

The constraints of the loop bounds. A bound is lowered by one for each copy that the header was unrolled from; the
edges into the header are back edges where it dominates their source, and entries else. `boundConstraints_holds_iff` and
`totalConstraints_holds_iff` say what the constraints ask of the numbers of entries and of back edges.
-/

namespace Otawa.Ipet

open Ilp

/-- What the builder reads of the graph and of the flow facts; a bound that is not given is negative. -/
structure FlowFacts (B E : Type) where
  ins : B → List E
  source : E → B
  target : E → B
  /-- `Dominance::dominates`. -/
  dominates : B → B → Bool
  loopHeader : B → Bool
  maxIteration : B → ℤ
  totalIteration : B → ℤ
  minIteration : B → ℤ
  /-- The blocks that `UNROLLED_FROM` leads to, one from the other. -/
  unrolledFrom : B → List B
  /-- `VAR`; the edges of a graph that was replaced have none. -/
  var : E → Option E

namespace FlowFactConstraintBuilder

variable {B E : Type} (ff : FlowFacts B E)

/-- "Set execution count to 0 for each unrolled iteration that cannot be taken". -/
def zeroConstraint (bb : B) (count : ℕ) : Constraint E :=
  (List.range count).foldl (fun cons0 _ => (ff.ins bb).foldl (fun cons0 edge => cons0.addLeft 1 (ff.var edge)) cons0)
    ⟨.eq, []⟩

/-- "sum{(i,h) / h dom i} eih <= max * sum{(i, h) / not h dom x} xeih", or ">= min". -/
def loopConstraint (bb : B) (comp : Comparator) (bound : ℤ) : Constraint E :=
  (ff.ins bb).foldl (fun cons edge =>
    if ff.dominates bb (ff.source edge) then cons.addLeft 1 (ff.var edge)
    else cons.addRight (if bound < 0 then 0 else bound) (ff.var edge)) ⟨comp, []⟩

/-- The constraints of a bound, if it is given. -/
def boundConstraints (bb : B) (comp : Comparator) (bound : ℤ) : List (Constraint E) :=
  if 0 ≤ bound then
    let bound := (ff.unrolledFrom bb).foldl (fun bound _ => bound - 1) bound
    (if bound < 0 then [zeroConstraint ff bb (-bound).toNat] else []) ++ [loopConstraint ff bb comp bound]
  else []

/-- "constraint for MAX_ITERATION". -/
def maxConstraints (bb : B) : List (Constraint E) :=
  boundConstraints ff bb .le (ff.maxIteration bb)

/-- "constraint for MIN_ITERATION". -/
def minConstraints (bb : B) : List (Constraint E) :=
  boundConstraints ff bb .ge (ff.minIteration bb)

/-- `cons` of TOTAL_ITERATION: the edges into the header, then those into the headers it was unrolled from. -/
def totalConstraint (bb : B) : Constraint E :=
  (ff.unrolledFrom bb).foldl (fun cons hd => (ff.ins hd).foldl (fun cons edge =>
      if ff.dominates (ff.source edge) hd then cons.addLeft 1 (ff.var edge) else cons) cons)
    ((ff.ins bb).foldl (fun cons edge =>
      if ff.dominates bb (ff.source edge) then cons.addLeft 1 (ff.var edge) else cons)
      (Constraint.addRight ⟨.le, []⟩ (ff.totalIteration bb) none))

/-- `zero` of TOTAL_ITERATION: "ensure that the back-edges does not increase alone". -/
def totalZero (bb : B) : Constraint E :=
  (ff.ins bb).foldl (fun zero edge =>
    if ff.dominates bb (ff.source edge) then zero.addLeft 1 (ff.var edge)
    else zero.addRight (ff.totalIteration bb) (ff.var edge)) ⟨.le, []⟩

/-- "constraint for TOTAL_ITERATION". -/
def totalConstraints (bb : B) : List (Constraint E) :=
  if 0 ≤ ff.totalIteration bb then [totalConstraint ff bb, totalZero ff bb] else []

/-- `processBB`: the constraints that it adds to the system. -/
def processBB (bb : B) : List (Constraint E) :=
  if ff.loopHeader bb then
    if ff.maxIteration bb < 0 ∧ ff.totalIteration bb < 0 then []
    else maxConstraints ff bb ++ minConstraints ff bb ++ totalConstraints ff bb
  else []

/-! ### What the constraints say -/

variable {ff} {val : E → ℤ} {bb : B}

/-- The value of the variable of an edge; no variable counts as 1. -/
def valueOf (ff : FlowFacts B E) (val : E → ℤ) (edge : E) : ℤ :=
  (ff.var edge).elim 1 val

/-- The back edges of a header. -/
def backs (ff : FlowFacts B E) (val : E → ℤ) (bb : B) : ℤ :=
  (((ff.ins bb).filter fun edge => ff.dominates bb (ff.source edge)).map (valueOf ff val)).sum

/-- The entries into the loop of a header. -/
def entries (ff : FlowFacts B E) (val : E → ℤ) (bb : B) : ℤ :=
  (((ff.ins bb).filter fun edge => !ff.dominates bb (ff.source edge)).map (valueOf ff val)).sum

/-- The edges into the headers it was unrolled from whose source dominates the header. -/
def counted (ff : FlowFacts B E) (val : E → ℤ) (bb : B) : ℤ :=
  (((ff.unrolledFrom bb).flatMap fun hd => (ff.ins hd).filter fun edge => ff.dominates (ff.source edge) hd).map
    (valueOf ff val)).sum

/-- A sum by cases. -/
theorem sum_map_ite {α : Type} (p : α → Bool) (f g : α → ℤ) (l : List α) :
    (l.map fun a => if p a then f a else g a).sum =
      ((l.filter p).map f).sum + ((l.filter fun a => !p a).map g).sum := by
  induction l with
  | nil => rfl
  | cons a l ih =>
    rw [List.map_cons, List.sum_cons, ih, List.filter_cons, List.filter_cons]
    cases p a
    · simp
      ring
    · simp
      ring

theorem sum_ins (ff : FlowFacts B E) (val : E → ℤ) (bb : B) :
    ((ff.ins bb).map (valueOf ff val)).sum = backs ff val bb + entries ff val bb := by
  rw [backs, entries, ← sum_map_ite]
  simp only [ite_self]

/-- A loop over edges that adds them. -/
theorem foldl_addLeft (edges : List E) (cons : Constraint E) :
    (edges.foldl (fun cons edge => cons.addLeft 1 (ff.var edge)) cons).comparator = cons.comparator ∧
      (edges.foldl (fun cons edge => cons.addLeft 1 (ff.var edge)) cons).lhs val =
        cons.lhs val + (edges.map (valueOf ff val)).sum := by
  apply Constraint.foldl_lhs
  · exact fun _ _ => rfl
  · intro cons edge
    rw [Constraint.lhs_addLeft, one_mul]
    rfl

theorem zeroConstraint_spec (bb : B) (count : ℕ) : (zeroConstraint ff bb count).comparator = .eq ∧
    (zeroConstraint ff bb count).lhs val = count * (backs ff val bb + entries ff val bb) := by
  have hinner (cons : Constraint E) := @foldl_addLeft B E ff val (ff.ins bb) cons
  obtain ⟨hcomp, hlhs⟩ := @Constraint.foldl_lhs E val ℕ
    (fun cons0 _ => (ff.ins bb).foldl (fun cons0 edge => cons0.addLeft 1 (ff.var edge)) cons0)
    (fun _ => backs ff val bb + entries ff val bb) (fun cons _ => (hinner cons).1)
    (fun cons _ => by rw [(hinner cons).2, sum_ins]) (List.range count) ⟨.eq, []⟩
  refine ⟨hcomp, hlhs.trans ?_⟩
  rw [Constraint.lhs_nil, List.map_const', List.sum_replicate, List.length_range]
  simp

/-- A constraint of the back edges against the entries. -/
theorem back_spec (bb : B) (comp : Comparator) (bound : ℤ) {k : Constraint E}
    (hk : k = (ff.ins bb).foldl (fun cons edge =>
      if ff.dominates bb (ff.source edge) then cons.addLeft 1 (ff.var edge)
      else cons.addRight bound (ff.var edge)) ⟨comp, []⟩) :
    k.comparator = comp ∧ k.lhs val = backs ff val bb - bound * entries ff val bb := by
  obtain ⟨hcomp, hlhs⟩ := @Constraint.foldl_lhs E val E
    (fun cons edge => if ff.dominates bb (ff.source edge) then cons.addLeft 1 (ff.var edge)
      else cons.addRight bound (ff.var edge))
    (fun edge => if ff.dominates bb (ff.source edge) then valueOf ff val edge else -bound * valueOf ff val edge)
    (fun cons edge => by split <;> rfl)
    (fun cons edge => by
      split
      · rw [Constraint.lhs_addLeft, one_mul]
        rfl
      · rw [Constraint.lhs_addRight, neg_mul, sub_eq_add_neg]
        rfl) (ff.ins bb) ⟨comp, []⟩
  rw [hk]
  refine ⟨hcomp, hlhs.trans ?_⟩
  rw [Constraint.lhs_nil, zero_add, sum_map_ite (fun edge => ff.dominates bb (ff.source edge)), List.sum_map_mul_left]
  simp only [backs, entries]
  ring

/-- The constraints of a bound, for a header with `n` copies before it. -/
theorem boundConstraints_holds_iff (comp : Comparator) (bound : ℤ) :
    (∀ k ∈ boundConstraints ff bb comp bound, k.Holds val) ↔
      (0 ≤ bound → (bound < (ff.unrolledFrom bb).length → backs ff val bb + entries ff val bb = 0) ∧
        comp.Holds (backs ff val bb - max (bound - (ff.unrolledFrom bb).length) 0 * entries ff val bb)) := by
  have hfold : ∀ (bbs : List B) (bound : ℤ), bbs.foldl (fun bound _ => bound - 1) bound = bound - bbs.length := by
    intro bbs
    induction bbs with
    | nil => exact fun bound => (sub_zero bound).symm
    | cons b bbs ih =>
      intro bound
      rw [List.foldl_cons, ih, List.length_cons]
      push_cast
      ring
  unfold boundConstraints
  split
  case isFalse hno => exact ⟨fun _ h => absurd h hno, fun _ k hk => absurd hk List.not_mem_nil⟩
  case isTrue hgiven =>
    have hloop : (loopConstraint ff bb comp (bound - (ff.unrolledFrom bb).length)).Holds val ↔
        comp.Holds (backs ff val bb - max (bound - (ff.unrolledFrom bb).length) 0 * entries ff val bb) := by
      obtain ⟨hcomp, hlhs⟩ := @back_spec B E ff val bb comp
        (if bound - (ff.unrolledFrom bb).length < 0 then 0 else bound - (ff.unrolledFrom bb).length) _ rfl
      have hmax : (if bound - (ff.unrolledFrom bb).length < 0 then 0 else bound - (ff.unrolledFrom bb).length) =
          max (bound - (ff.unrolledFrom bb).length) 0 := by
        split <;> omega
      rw [loopConstraint, Constraint.Holds, hcomp, hlhs, hmax]
    have hzero : (∀ k ∈ (if bound - (ff.unrolledFrom bb).length < 0 then
        [zeroConstraint ff bb (-(bound - (ff.unrolledFrom bb).length)).toNat] else []), k.Holds val) ↔
        (bound < (ff.unrolledFrom bb).length → backs ff val bb + entries ff val bb = 0) := by
      split
      case isTrue hneg =>
        obtain ⟨hcomp, hlhs⟩ := @zeroConstraint_spec B E ff val bb (-(bound - (ff.unrolledFrom bb).length)).toNat
        rw [List.forall_mem_singleton, Constraint.Holds, hcomp, hlhs]
        have hne : ((-(bound - (ff.unrolledFrom bb).length)).toNat : ℤ) ≠ 0 := by omega
        change _ * _ = 0 ↔ _
        rw [mul_eq_zero, or_iff_right hne]
        exact ⟨fun h _ => h, fun h => h (by omega)⟩
      case isFalse hpos => exact ⟨fun _ hless => absurd hless (by omega), fun _ k hk => absurd hk List.not_mem_nil⟩
    dsimp only
    rw [hfold, List.forall_mem_append, List.forall_mem_singleton, hzero, hloop]
    exact ⟨fun h _ => h, fun h => h hgiven⟩

/-- A loop over edges that adds some of them. -/
theorem foldl_addLeft_if (p : E → Bool) (edges : List E) (cons : Constraint E) :
    (edges.foldl (fun cons edge => if p edge then cons.addLeft 1 (ff.var edge) else cons) cons).comparator =
        cons.comparator ∧
      (edges.foldl (fun cons edge => if p edge then cons.addLeft 1 (ff.var edge) else cons) cons).lhs val =
        cons.lhs val + ((edges.filter p).map (valueOf ff val)).sum := by
  have heq : edges.foldl (fun cons edge => if p edge then cons.addLeft 1 (ff.var edge) else cons) cons =
      (edges.filter p).foldl (fun cons edge => cons.addLeft 1 (ff.var edge)) cons := by
    rw [List.foldl_filter]
  rw [heq]
  exact foldl_addLeft (edges.filter p) cons

/-- The total constraint. -/
theorem totalConstraint_spec (bb : B) : (totalConstraint ff bb).comparator = .le ∧
    (totalConstraint ff bb).lhs val = backs ff val bb + counted ff val bb - ff.totalIteration bb := by
  obtain ⟨hcomp, hlhs⟩ := @foldl_addLeft_if B E ff val (fun edge => ff.dominates bb (ff.source edge)) (ff.ins bb)
    (Constraint.addRight ⟨.le, []⟩ (ff.totalIteration bb) none)
  obtain ⟨hcomp', hlhs'⟩ := @Constraint.foldl_lhs E val B
    (fun cons hd => (ff.ins hd).foldl (fun cons edge =>
      if ff.dominates (ff.source edge) hd then cons.addLeft 1 (ff.var edge) else cons) cons)
    (fun hd => (((ff.ins hd).filter fun edge => ff.dominates (ff.source edge) hd).map (valueOf ff val)).sum)
    (fun cons hd => (@foldl_addLeft_if B E ff val (fun edge => ff.dominates (ff.source edge) hd) (ff.ins hd) cons).1)
    (fun cons hd => (@foldl_addLeft_if B E ff val (fun edge => ff.dominates (ff.source edge) hd) (ff.ins hd) cons).2)
    (ff.unrolledFrom bb) _
  refine ⟨hcomp'.trans hcomp, hlhs'.trans ?_⟩
  have hcounted : counted ff val bb = ((ff.unrolledFrom bb).map fun hd =>
      (((ff.ins hd).filter fun edge => ff.dominates (ff.source edge) hd).map (valueOf ff val)).sum).sum := by
    rw [counted, List.map_flatMap, List.flatMap_def, List.sum_flatten, List.map_map]
    rfl
  rw [hlhs, Constraint.lhs_addRight, Constraint.lhs_nil, Option.elim_none, hcounted, backs]
  ring

theorem totalConstraints_holds_iff (bb : B) : (∀ k ∈ totalConstraints ff bb, k.Holds val) ↔
    (0 ≤ ff.totalIteration bb → backs ff val bb + counted ff val bb ≤ ff.totalIteration bb ∧
      backs ff val bb ≤ ff.totalIteration bb * entries ff val bb) := by
  unfold totalConstraints
  split
  case isFalse hno => exact ⟨fun _ h => absurd h hno, fun _ k hk => absurd hk List.not_mem_nil⟩
  case isTrue hgiven =>
    obtain ⟨hcomp, hlhs⟩ := @totalConstraint_spec B E ff val bb
    obtain ⟨hcomp', hlhs'⟩ := @back_spec B E ff val bb .le (ff.totalIteration bb) _ rfl
    rw [List.forall_mem_cons, List.forall_mem_singleton, Constraint.Holds, hcomp, hlhs, totalZero, Constraint.Holds,
      hcomp', hlhs']
    change _ ≤ 0 ∧ _ ≤ 0 ↔ _
    rw [sub_nonpos, sub_nonpos]
    exact ⟨fun h _ => h, fun h => h hgiven⟩

end FlowFactConstraintBuilder

end Otawa.Ipet
