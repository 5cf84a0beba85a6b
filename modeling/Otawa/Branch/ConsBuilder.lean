import Otawa.Cfg.Graph
import Otawa.Ilp.Expr

/-!
# `BranchBuilder` and `OnlyConsBuilder`

The categories of the branches, and the constraints on the numbers of their mispredictions. A variable that is not found is
null and stands for the constant 1; a second edge of one kind fails an assertion.
-/

namespace Otawa.Branch

open Ilp

/-- `category_t`. -/
inductive Category where
  | undef
  | alwaysD
  | alwaysH
  | firstUnknown
  | notClassified
  deriving DecidableEq, Repr

/-- `VAR` of the blocks and of the edges, and `MISSPRED_VAR`. -/
inductive Var (B E : Type) where
  | block (b : B)
  | edge (e : E)
  | misspred (b : B)
  deriving DecidableEq, Repr

/-- What the builders read of the blocks. -/
structure Branches (B : Type) where
  /-- `COND_NUMBER`, -1 for a block without a branch. -/
  condNumber : B → ℤ
  /-- `CATEGORY`. -/
  category : B → Category
  /-- `HEADER`. -/
  header : B → Option B
  /-- `Dominance::dominates`. -/
  dominates : B → B → Bool

variable {B E : Type}

/-- The constant is on the right side. -/
def newConstraint {V : Type} (comp : Comparator) (constant : ℤ) : Constraint V :=
  Constraint.addRight ⟨comp, []⟩ constant none

section

variable (c : CFG B E) (p : Branches B)

/-- The variable of the only edge of a kind out of a block. -/
def edgeVar (kind : EdgeKind) (b : B) : Option (Option (Var B E)) :=
  match (c.outs b).filter fun outedge => c.kind outedge = kind with
  | [] => some none
  | [e] => some (some (.edge e))
  | _ => none

/-- The edges into the loop of a header. -/
def entryEdges (header : B) : List E :=
  (c.ins header).filter fun inedge => !p.dominates header (c.source inedge)

/-- The entry-edges on the right side. -/
def addEntries (cons : Constraint (Var B E)) (header : B) : Constraint (Var B E) :=
  (c.ins header).foldl (fun cons inedge =>
    if !p.dominates header (c.source inedge) then cons.addRight 2 (some (.edge inedge)) else cons) cons

/-- `OnlyConsBuilder::processBB`. -/
def processBB (b : B) : Option (List (Constraint (Var B E))) :=
  let misspred : Option (Var B E) := some (.misspred b)
  let bbvar : Option (Var B E) := some (.block b)
  if p.condNumber b ≠ -1 then
    match p.category b with
    -- the edge of this variable is the not-taken one
    | .alwaysD => do
        let tvar ← edgeVar c .notTaken b
        some [((newConstraint .eq 0).addLeft 1 misspred).addRight 1 tvar]
    | .alwaysH => do
        let ntvar ← edgeVar c .notTaken b
        let tvar ← edgeVar c .taken b
        some [((newConstraint .le 2).addLeft 1 misspred).addRight 2 tvar,
          ((newConstraint .le 2).addLeft 1 misspred).addRight 2 ntvar,
          ((newConstraint .le 0).addLeft 1 misspred).addRight 1 bbvar]
    | .firstUnknown => do
        let ntvar ← edgeVar c .notTaken b
        let tvar ← edgeVar c .taken b
        let header ← p.header b
        some [addEntries c p (((newConstraint .le 0).addLeft 1 misspred).addRight 2 tvar) header,
          addEntries c p (((newConstraint .le 0).addLeft 1 misspred).addRight 2 ntvar) header,
          ((newConstraint .le 0).addLeft 1 misspred).addRight 1 bbvar]
    | .notClassified => some [((newConstraint .le 0).addLeft 1 misspred).addRight 1 bbvar]
    | .undef => none
  else some []

end

/-! ### The categories -/

/-- `BranchProblem::Domain`: what the analyses know of the entries, and the persistence for each loop, the outermost
first. -/
structure Domain where
  must : ℤ → Bool
  may : ℤ → Bool
  pers : List (ℤ → Bool)

/-- The loop over the headers, from the innermost level on: the last header that is persistent. -/
def catHeader (enclosing : B → Option B) (id : ℤ) : List (ℤ → Bool) → Option B → Option B → Option B
  | isPersistent :: levels, some currentHeader, header =>
      catHeader enclosing id levels (enclosing currentHeader) (if isPersistent id then some currentHeader else header)
  | _, _, header => header

/-- The header that `catHeader` comes to at a level. -/
def headerAt (enclosing : B → Option B) (current : Option B) : ℕ → Option B
  | 0 => current
  | n + 1 => headerAt enclosing (current.bind enclosing) n

theorem catHeader_cases {enclosing : B → Option B} {id : ℤ} {levels : List (ℤ → Bool)} {current header : Option B} {h : B}
    (hcat : catHeader enclosing id levels current header = some h) : header = some h ∨ ∃ i isPersistent,
      levels[i]? = some isPersistent ∧ isPersistent id = true ∧ headerAt enclosing current i = some h := by
  induction levels generalizing current header with
  | nil => exact .inl hcat
  | cons isPersistent levels ih =>
    cases current with
    | none => exact .inl hcat
    | some currentHeader =>
      obtain hheader | ⟨i, isPersistent', hlevel, hpers, hat⟩ := ih hcat
      · split at hheader
        case isTrue hpers => exact .inr ⟨0, isPersistent, rfl, hpers, hheader⟩
        case isFalse => exact .inl hheader
      · exact .inr ⟨i + 1, isPersistent', hlevel, hpers, hat⟩

/-- `BranchBuilder::categorize`. -/
def categorize (p : Branches B) (isLoopHeader : B → Bool) (enclosing : B → Option B) (dom : Domain) (b : B) :
    Category × Option B :=
  let id := p.condNumber b
  if dom.must id then (.alwaysH, none)
  else if !dom.may id then (.alwaysD, none)
  else
    match catHeader enclosing id dom.pers.reverse (if isLoopHeader b then some b else enclosing b) none with
    | none => (.notClassified, none)
    | some header => (.firstUnknown, some header)

theorem categorize_cases (p : Branches B) (isLoopHeader : B → Bool) (enclosing : B → Option B) (dom : Domain) (b : B) :
    (dom.must (p.condNumber b) = true ∧ categorize p isLoopHeader enclosing dom b = (.alwaysH, none)) ∨
    (dom.may (p.condNumber b) = false ∧ categorize p isLoopHeader enclosing dom b = (.alwaysD, none)) ∨
    categorize p isLoopHeader enclosing dom b = (.notClassified, none) ∨
    ∃ i isPersistent header, dom.pers.reverse[i]? = some isPersistent ∧ isPersistent (p.condNumber b) = true ∧
      headerAt enclosing (if isLoopHeader b then some b else enclosing b) i = some header ∧
      categorize p isLoopHeader enclosing dom b = (.firstUnknown, some header) := by
  unfold categorize
  dsimp only
  split
  case isTrue hmust => exact .inl ⟨hmust, rfl⟩
  split
  case isTrue hmay => exact .inr (.inl ⟨by simpa using hmay, rfl⟩)
  split
  case h_1 => exact .inr (.inr (.inl rfl))
  case h_2 header hfound =>
    obtain hnone | ⟨i, isPersistent, hlevel, hpers, hat⟩ := catHeader_cases hfound
    · cases hnone
    · exact .inr (.inr (.inr ⟨i, isPersistent, header, hlevel, hpers, hat, rfl⟩))

/-- The categories and headers are those of the builder. -/
def Categorized (p : Branches B) (isLoopHeader : B → Bool) (enclosing : B → Option B) (dom : B → Domain) : Prop :=
  ∀ b, p.condNumber b ≠ -1 → categorize p isLoopHeader enclosing (dom b) b = (p.category b, p.header b)

variable {c : CFG B E} {p : Branches B} {b : B} {val : Var B E → ℤ}

/-- The constraints of a branch, by its category. -/
theorem processBB_cases {cs : List (Constraint (Var B E))} (hcs : processBB c p b = some cs)
    (hbranch : p.condNumber b ≠ -1) :
    (p.category b = .alwaysD ∧ ∃ tvar, edgeVar c .notTaken b = some tvar ∧
      cs = [((newConstraint .eq 0).addLeft 1 (some (.misspred b))).addRight 1 tvar]) ∨
    (p.category b = .alwaysH ∧ ∃ ntvar tvar, edgeVar c .notTaken b = some ntvar ∧ edgeVar c .taken b = some tvar ∧
      cs = [((newConstraint .le 2).addLeft 1 (some (.misspred b))).addRight 2 tvar,
        ((newConstraint .le 2).addLeft 1 (some (.misspred b))).addRight 2 ntvar,
        ((newConstraint .le 0).addLeft 1 (some (.misspred b))).addRight 1 (some (.block b))]) ∨
    (p.category b = .firstUnknown ∧ ∃ ntvar tvar header, edgeVar c .notTaken b = some ntvar ∧
      edgeVar c .taken b = some tvar ∧ p.header b = some header ∧
      cs = [addEntries c p (((newConstraint .le 0).addLeft 1 (some (.misspred b))).addRight 2 tvar) header,
        addEntries c p (((newConstraint .le 0).addLeft 1 (some (.misspred b))).addRight 2 ntvar) header,
        ((newConstraint .le 0).addLeft 1 (some (.misspred b))).addRight 1 (some (.block b))]) ∨
    (p.category b = .notClassified ∧
      cs = [((newConstraint .le 0).addLeft 1 (some (.misspred b))).addRight 1 (some (.block b))]) := by
  unfold processBB at hcs
  rw [if_pos hbranch] at hcs
  split at hcs
  · rename_i hcategory
    obtain ⟨tvar, htvar, hcs⟩ := Option.bind_eq_some_iff.mp hcs
    exact .inl ⟨hcategory, tvar, htvar, (Option.some.inj hcs).symm⟩
  · rename_i hcategory
    obtain ⟨ntvar, hntvar, hcs⟩ := Option.bind_eq_some_iff.mp hcs
    obtain ⟨tvar, htvar, hcs⟩ := Option.bind_eq_some_iff.mp hcs
    exact .inr (.inl ⟨hcategory, ntvar, tvar, hntvar, htvar, (Option.some.inj hcs).symm⟩)
  · rename_i hcategory
    obtain ⟨ntvar, hntvar, hcs⟩ := Option.bind_eq_some_iff.mp hcs
    obtain ⟨tvar, htvar, hcs⟩ := Option.bind_eq_some_iff.mp hcs
    obtain ⟨header, hheader, hcs⟩ := Option.bind_eq_some_iff.mp hcs
    exact .inr (.inr (.inl ⟨hcategory, ntvar, tvar, header, hntvar, htvar, hheader, (Option.some.inj hcs).symm⟩))
  · rename_i hcategory
    exact .inr (.inr (.inr ⟨hcategory, (Option.some.inj hcs).symm⟩))
  · cases hcs

theorem processBB_of_not_branch (hbranch : ¬ p.condNumber b ≠ -1) : processBB c p b = some [] :=
  if_neg hbranch

/-! ### What the constraints say -/

/-- The entries into the loop of a header. -/
def entriesOf (c : CFG B E) (p : Branches B) (val : Var B E → ℤ) (header : B) : ℤ :=
  ((entryEdges c p header).map fun e => val (.edge e)).sum

theorem addEntries_spec (k : Constraint (Var B E)) (header : B) :
    (addEntries c p k header).comparator = k.comparator ∧
      (addEntries c p k header).lhs val = k.lhs val - 2 * entriesOf c p val header := by
  have hfold : addEntries c p k header =
      (entryEdges c p header).foldl (fun cons e => cons.addRight 2 (some (.edge e))) k := by
    rw [entryEdges, List.foldl_filter]
    rfl
  have hspec := @Constraint.foldl_lhs (Var B E) val E (fun cons e => cons.addRight 2 (some (.edge e)))
    (fun e => -(2 * val (.edge e))) (fun _ _ => rfl) (fun k e => by rw [Constraint.lhs_addRight]; rfl)
    (entryEdges c p header) k
  rw [hfold]
  refine ⟨hspec.1, ?_⟩
  have hsum : ((entryEdges c p header).map fun e => -(2 * val (.edge e))).sum = -(2 * entriesOf c p val header) := by
    unfold entriesOf
    induction entryEdges c p header with
    | nil => rfl
    | cons e es ih =>
      rw [List.map_cons, List.map_cons, List.sum_cons, List.sum_cons, ih]
      ring
  rw [hspec.2, hsum]
  ring

theorem newConstraint_holds {comp : Comparator} {constant n : ℤ} {var var' : Option (Var B E)} :
    (((newConstraint comp constant).addLeft 1 var).addRight n var').Holds val ↔
      comp.Holds (var.elim 1 val - constant - n * var'.elim 1 val) := by
  unfold Constraint.Holds newConstraint
  rw [Constraint.lhs_addRight, Constraint.lhs_addLeft, Constraint.lhs_addRight, Constraint.lhs_nil]
  have heq : (0 : ℤ) - constant * (none : Option (Var B E)).elim 1 val + 1 * var.elim 1 val - n * var'.elim 1 val =
      var.elim 1 val - constant - n * var'.elim 1 val := by
    rw [Option.elim_none]
    ring
  rw [heq]
  exact Iff.rfl

theorem addEntries_holds {n : ℤ} {var var' : Option (Var B E)} {header : B} :
    (addEntries c p (((newConstraint .le 0).addLeft 1 var).addRight n var') header).Holds val ↔
      var.elim 1 val ≤ n * var'.elim 1 val + 2 * entriesOf c p val header := by
  obtain ⟨hcomp, hlhs⟩ := @addEntries_spec B E c p val (((newConstraint .le 0).addLeft 1 var).addRight n var') header
  unfold Constraint.Holds
  rw [hcomp, hlhs]
  unfold newConstraint
  rw [Constraint.lhs_addRight, Constraint.lhs_addLeft, Constraint.lhs_addRight, Constraint.lhs_nil]
  change _ ≤ (0 : ℤ) ↔ _
  omega

end Otawa.Branch
