import Otawa.Cache.LinkedBlocks
import Otawa.Ilp.Expr
import Mathlib.Algebra.BigOperators.Ring.List
import Mathlib.Data.List.Pairwise

/-!
# `CAT2OnlyConstraintBuilder` and `CAT2ConstraintBuilder`

The l-blocks get their miss variables one after the other. The constraint of a group of linked l-blocks is built at
the last one, whose variable is not recorded yet: the null variable stands for the constant 1
(`group_holds_iff`). The objective function gets a term for each l-block, also for the first and the last one of a
set, which have no variable.
-/

namespace Otawa

open Ilp

namespace CAT2OnlyConstraintBuilder

/-- `VAR` of the blocks and of the edges, and the variable that `newVar` makes for an l-block. -/
inductive Var (B E L : Type) where
  | block (b : B)
  | edge (e : E)
  | miss (lblock : L)
  deriving DecidableEq

/-- The edges into the blocks of all CFGs. -/
structure Flow (B E : Type) where
  ins : B → List E
  source : E → B
  /-- `Dominance::dominates`. -/
  dominates : B → B → Bool

structure State (B E L : Type) where
  constraints : List (Constraint (Var B E L))
  missVar : L → Option (Var B E L)

section

variable {B E L : Type} [DecidableEq L] (c : LBlocks B L) (fl : Flow B E) (linked : L → Option (List L))

/-- The edges into the loop of a header. -/
def entryEdges (header : B) : List E :=
  (fl.ins header).filter fun inedge => !fl.dominates header (fl.source inedge)

/-- The right side: the entry-edges of the loop. -/
def addEntries (cons : Constraint (Var B E L)) (header : B) : Constraint (Var B E L) :=
  (fl.ins header).foldl (fun cons inedge =>
    if !fl.dominates header (fl.source inedge) then cons.addRight 1 (some (.edge inedge)) else cons) cons

/-- "linked l-blocks first-miss", only once per group, and "standard first-miss". -/
def firstMiss (missVar : L → Option (Var B E L)) (lblock : L) (header : B) : List (Constraint (Var B E L)) :=
  match linked lblock with
  | some group =>
    if group.getLast? = some lblock then
      [addEntries fl (group.foldl (fun cons lb => cons.addLeft 1 (missVar lb)) ⟨.le, []⟩) header]
    else []
  | none => [addEntries fl (Constraint.addLeft ⟨.le, []⟩ 1 (some (.miss lblock))) header]

/-- The constraints that depend on the category of the l-block. -/
def constraintsOf (missVar : L → Option (Var B E L)) (lblock : L) : List (Constraint (Var B E L)) :=
  match c.category lblock with
  | .alwaysHit => [Constraint.addLeft ⟨.eq, []⟩ 1 (some (.miss lblock))]
  | .firstHit => [(Constraint.addLeft ⟨.le, []⟩ 1 (some (.miss lblock))).addRight 1 (some (.block (c.bb lblock)))]
  | .notClassified => [(Constraint.addLeft ⟨.le, []⟩ 1 (some (.miss lblock))).addRight 1 (some (.block (c.bb lblock)))]
  | .alwaysMiss => [(Constraint.addLeft ⟨.eq, []⟩ 1 (some (.miss lblock))).addRight 1 (some (.block (c.bb lblock)))]
  | .firstMiss header => firstMiss fl linked missVar lblock header ++
      [(Constraint.addRight ⟨.le, []⟩ 1 (some (.block (c.bb lblock)))).addLeft 1 (some (.miss lblock))]

/-- One turn of the loop over the l-blocks. -/
def processLBlock (s : State B E L) (lblock : L) : State B E L where
  constraints := s.constraints ++ constraintsOf c fl linked s.missVar lblock
  missVar := Function.update s.missVar lblock (some (.miss lblock))

def processWorkSpace : State B E L :=
  c.sets.foldl (fun s set => set.foldl (fun s lblock =>
    if c.isEnd set lblock then s else processLBlock c fl linked s lblock) s) ⟨[], fun _ => none⟩

end

end CAT2OnlyConstraintBuilder

namespace CAT2ConstraintBuilder

open CAT2OnlyConstraintBuilder

/-- What `processWorkSpace` adds to the object function. -/
def objectFunction {B E L : Type} (c : LBlocks B L) (missVar : L → Option (Var B E L)) (penalty : ℤ) :
    List (Term (Var B E L)) :=
  c.sets.flatMap fun set => set.map fun lblock => ⟨penalty, missVar lblock⟩

end CAT2ConstraintBuilder

namespace CAT2OnlyConstraintBuilder

variable {B E L : Type} [DecidableEq L] {c : LBlocks B L} {fl : Flow B E} {linked : L → Option (List L)}
  {val : Var B E L → ℤ} {s : State B E L} {lblock : L} {header : B}

/-! ### The order of the l-blocks -/

theorem processWorkSpace_eq :
    processWorkSpace c fl linked = c.lblocks.foldl (processLBlock c fl linked) ⟨[], fun _ => none⟩ := by
  rw [processWorkSpace, LBlocks.lblocks, List.foldl_flatMap]
  congr 1
  funext s set
  rw [List.foldl_filter]
  congr 1
  funext s lblock
  cases c.isEnd set lblock <;> rfl

@[simp] theorem missVar_processLBlock (s : State B E L) (lblock : L) :
    (processLBlock c fl linked s lblock).missVar = Function.update s.missVar lblock (some (.miss lblock)) := rfl

@[simp] theorem constraints_processLBlock (s : State B E L) (lblock : L) :
    (processLBlock c fl linked s lblock).constraints =
      s.constraints ++ constraintsOf c fl linked s.missVar lblock := rfl

theorem foldl_missVar (lbs : List L) (s : State B E L) (lb : L) :
    (lbs.foldl (processLBlock c fl linked) s).missVar lb =
      if lb ∈ lbs then some (.miss lb) else s.missVar lb := by
  induction lbs generalizing s with
  | nil => rfl
  | cons lb' lbs ih =>
    rw [List.foldl_cons, ih]
    by_cases hmem : lb ∈ lbs
    · rw [if_pos hmem, if_pos (List.mem_cons_of_mem lb' hmem)]
    · rw [if_neg hmem, missVar_processLBlock]
      by_cases heq : lb = lb'
      · subst heq
        rw [Function.update_self, if_pos List.mem_cons_self]
      · rw [Function.update_of_ne heq, if_neg (List.not_mem_cons_of_ne_of_not_mem heq hmem)]

/-- A constraint is the one of an l-block, with the variables of those before it. -/
theorem mem_foldl_constraints (lbs : List L) (s : State B E L) (k : Constraint (Var B E L)) :
    k ∈ (lbs.foldl (processLBlock c fl linked) s).constraints ↔ k ∈ s.constraints ∨ ∃ pre lb post,
      lbs = pre ++ lb :: post ∧
        k ∈ constraintsOf c fl linked (pre.foldl (processLBlock c fl linked) s).missVar lb := by
  induction lbs generalizing s with
  | nil => simp
  | cons lb lbs ih =>
    rw [List.foldl_cons, ih, constraints_processLBlock, List.mem_append]
    constructor
    · rintro ((hold | hnew) | ⟨pre, lb', post, hsplit, hk⟩)
      · exact .inl hold
      · exact .inr ⟨[], lb, lbs, rfl, hnew⟩
      · exact .inr ⟨lb :: pre, lb', post, by rw [hsplit]; rfl, hk⟩
    · rintro (hold | ⟨pre, lb', post, hsplit, hk⟩)
      · exact .inl (.inl hold)
      · cases pre with
        | nil =>
          obtain ⟨rfl, rfl⟩ := List.cons.inj hsplit
          exact .inl (.inr hk)
        | cons lb'' pre =>
          obtain ⟨rfl, hrest⟩ := List.cons.inj hsplit
          exact .inr ⟨pre, lb', post, hrest, hk⟩

/-! ### What the constraints say -/

/-- The sum of the miss variables of some l-blocks. -/
def missesOf (val : Var B E L → ℤ) (lbs : List L) : ℤ :=
  (lbs.map fun lb => val (.miss lb)).sum

/-- The entries into the loop of a header. -/
def entriesOf (fl : Flow B E) (val : Var B E L → ℤ) (header : B) : ℤ :=
  ((entryEdges fl header).map fun e => val (.edge e)).sum

omit [DecidableEq L] in
theorem addEntries_spec (k : Constraint (Var B E L)) :
    (addEntries fl k header).comparator = k.comparator ∧
      (addEntries fl k header).lhs val = k.lhs val - entriesOf fl val header ∧
      ((∀ t ∈ (addEntries fl k header).terms, t.var.isSome) ↔ ∀ t ∈ k.terms, t.var.isSome) := by
  have hfold : ∀ (es : List E) (k : Constraint (Var B E L)),
      (es.foldl (fun cons e => cons.addRight 1 (some (.edge e))) k).comparator = k.comparator ∧
      (es.foldl (fun cons e => cons.addRight 1 (some (.edge e))) k).lhs val =
        k.lhs val - (es.map fun e => val (.edge e)).sum ∧
      ((∀ t ∈ (es.foldl (fun cons e => cons.addRight 1 (some (Var.edge e))) k).terms, t.var.isSome) ↔
        ∀ t ∈ k.terms, t.var.isSome) := by
    intro es
    induction es with
    | nil => exact fun k => ⟨rfl, by simp, Iff.rfl⟩
    | cons e es ih =>
      intro k
      obtain ⟨hcomp, hlhs, hterms⟩ := ih (k.addRight 1 (some (.edge e)))
      refine ⟨hcomp, ?_, ?_⟩
      · rw [List.foldl_cons, hlhs, Constraint.lhs_addRight, Option.elim_some, List.map_cons, List.sum_cons]
        ring
      · rw [List.foldl_cons, hterms, Constraint.addRight, Constraint.add, List.forall_mem_append]
        simp
  have heq : addEntries fl k header =
      (entryEdges fl header).foldl (fun cons e => cons.addRight 1 (some (.edge e))) k := by
    rw [entryEdges, List.foldl_filter]
    rfl
  rw [heq]
  exact hfold _ k

omit [DecidableEq L] in
theorem foldl_addLeft_spec (group : List L) (missVar : L → Option (Var B E L)) (k : Constraint (Var B E L)) :
    (group.foldl (fun cons lb => cons.addLeft 1 (missVar lb)) k).comparator = k.comparator ∧
      (group.foldl (fun cons lb => cons.addLeft 1 (missVar lb)) k).lhs val =
        k.lhs val + (group.map fun lb => (missVar lb).elim 1 val).sum ∧
      ((∀ t ∈ (group.foldl (fun cons lb => cons.addLeft 1 (missVar lb)) k).terms, t.var.isSome) ↔
        (∀ t ∈ k.terms, t.var.isSome) ∧ ∀ lb ∈ group, (missVar lb).isSome) := by
  induction group generalizing k with
  | nil => exact ⟨rfl, by simp, by simp⟩
  | cons lb group ih =>
    obtain ⟨hcomp, hlhs, hterms⟩ := ih (k.addLeft 1 (missVar lb))
    refine ⟨hcomp, ?_, ?_⟩
    · rw [List.foldl_cons, hlhs, Constraint.lhs_addLeft, List.map_cons, List.sum_cons]
      ring
    · rw [List.foldl_cons, hterms, Constraint.addLeft, Constraint.add, List.forall_mem_append, List.forall_mem_cons]
      simp [and_assoc]

/-- What `LINKED_BLOCKS` is after the detector, or without it. -/
structure Grouped (c : LBlocks B L) (linked : L → Option (List L)) : Prop where
  mem : ∀ {lblock group}, linked lblock = some group → lblock ∈ group
  sublist : ∀ {lblock group}, linked lblock = some group → group.Sublist c.lblocks
  header : ∀ {lblock group}, linked lblock = some group →
    ∃ header, ∀ lb ∈ group, c.header lb = some header ∧ linked lb = some group

omit [DecidableEq L] in
theorem grouped_none (c : LBlocks B L) : Grouped c fun _ => none :=
  ⟨fun h => absurd h (by simp), fun h => absurd h (by simp), fun h => absurd h (by simp)⟩

theorem grouped_detector [DecidableEq B] (hc : c.WellFormed) : Grouped c (LinkedBlocksDetector.processWorkSpace c) := by
  constructor
  · intro lblock group hlinked
    exact (LinkedBlocksDetector.linked_group hc hlinked).1
  · intro lblock group hlinked
    obtain ⟨-, set, hset, header, hsublist, hmembers⟩ := LinkedBlocksDetector.linked_group hc hlinked
    have hself : group.filter (fun lb => !c.isEnd set lb) = group := by
      rw [List.filter_eq_self]
      intro lb hlb
      rw [(hmembers lb hlb).1]
      rfl
    rw [← hself, LBlocks.lblocks, List.flatMap_def]
    exact (hsublist.filter _).trans (List.sublist_flatten_of_mem (List.mem_map_of_mem hset))
  · intro lblock group hlinked
    obtain ⟨-, set, hset, header, hsublist, hmembers⟩ := LinkedBlocksDetector.linked_group hc hlinked
    exact ⟨header, fun lb hlb => (hmembers lb hlb).2⟩

omit [DecidableEq L] in
theorem nodup_lblocks (hc : c.WellFormed) : c.lblocks.Nodup := by
  obtain ⟨hsets, hdisjoint⟩ := List.nodup_flatten.mp hc.nodup
  rw [LBlocks.lblocks, List.nodup_flatMap]
  refine ⟨fun set hset => (hsets set hset).filter _, hdisjoint.imp fun hdisjoint lb hlb hlb' => ?_⟩
  exact hdisjoint (List.mem_of_mem_filter hlb) (List.mem_of_mem_filter hlb')

omit [DecidableEq L] in
/-- What comes before the last item of a sublist comes before it in the list. -/
theorem before_of_sublist {front pre post : List L} (hsublist : (front ++ [lblock]).Sublist (pre ++ lblock :: post))
    (hnodup : (pre ++ lblock :: post).Nodup) : front.Sublist pre := by
  obtain ⟨-, hrest, hdisjoint⟩ := List.nodup_append.mp hnodup
  obtain ⟨hnew, -⟩ := List.nodup_cons.mp hrest
  obtain ⟨l, r, heq, hl, hr⟩ := List.sublist_append_iff.mp hsublist
  obtain rfl | ⟨r, last, rfl⟩ := List.eq_nil_or_concat' r
  · have hmem : lblock ∈ l := by
      rw [List.append_nil] at heq
      rw [← heq]
      exact List.mem_append_right _ (List.mem_singleton_self _)
    exact absurd rfl (hdisjoint lblock (hl.mem hmem) lblock List.mem_cons_self)
  · rw [← List.append_assoc] at heq
    obtain ⟨rfl, hlast⟩ := List.append_inj' heq rfl
    obtain rfl := List.singleton_inj.mp hlast
    -- the last item is at its place in the list, so nothing of the sublist comes between
    cases r with
    | nil =>
      rw [List.append_nil]
      exact hl
    | cons first r =>
      cases hr with
      | cons _ hr => exact absurd (hr.mem (List.mem_append_right _ (List.mem_singleton_self _))) hnew
      | cons_cons _ hr => exact absurd (hr.mem (List.mem_append_right _ (List.mem_singleton_self _))) hnew

/-- The constraint of a group at its last l-block: the variable of this one is null. -/
theorem group_spec {group pre post : List L} {missVar : L → Option (Var B E L)} {k : Constraint (Var B E L)}
    (hc : c.WellFormed) (hgroup : group.Sublist c.lblocks) (hlast : group.getLast? = some lblock)
    (hsplit : c.lblocks = pre ++ lblock :: post)
    (hmissVar : ∀ lb, missVar lb = if lb ∈ pre then some (.miss lb) else none)
    (hk : k = addEntries fl (group.foldl (fun cons lb => cons.addLeft 1 (missVar lb)) ⟨.le, []⟩) header) :
    (k.Holds val ↔ missesOf val group.dropLast < entriesOf fl val header) ∧ ¬ ∀ t ∈ k.terms, t.var.isSome := by
  have hfront : group.dropLast ++ [lblock] = group := List.dropLast_append_getLast? _ hlast
  have hnodup := nodup_lblocks hc
  have hpre : group.dropLast.Sublist pre := by
    apply before_of_sublist
    · rw [hfront, ← hsplit]
      exact hgroup
    · rw [← hsplit]
      exact hnodup
  have hnew : lblock ∉ pre := by
    rw [hsplit] at hnodup
    intro hmem
    exact absurd rfl ((List.nodup_append.mp hnodup).2.2 lblock hmem lblock List.mem_cons_self)
  have hnull : missVar lblock = none := by
    rw [hmissVar, if_neg hnew]
  have hsum : (group.map fun lb => (missVar lb).elim 1 val).sum = missesOf val group.dropLast + 1 := by
    have hmap : group.dropLast.map (fun lb => (missVar lb).elim 1 val) = group.dropLast.map fun lb => val (.miss lb) := by
      apply List.map_congr_left
      intro lb hlb
      rw [hmissVar, if_pos (hpre.mem hlb)]
      rfl
    rw [← hfront, List.map_append, List.sum_append, List.dropLast_concat, hmap, missesOf]
    simp [hnull]
  obtain ⟨hcomp, hlhs, hterms⟩ := @addEntries_spec B E L fl val header
    (group.foldl (fun cons lb => cons.addLeft 1 (missVar lb)) ⟨.le, []⟩)
  obtain ⟨hcomp', hlhs', hterms'⟩ := @foldl_addLeft_spec B E L val group missVar ⟨.le, []⟩
  rw [hk]
  constructor
  · rw [Constraint.Holds, hcomp, hcomp', hlhs, hlhs', hsum, Constraint.lhs_nil]
    change _ ≤ 0 ↔ _
    omega
  · rw [hterms, hterms']
    rintro ⟨-, hall⟩
    have hmem : lblock ∈ group := by
      rw [← hfront]
      exact List.mem_append_right _ (List.mem_singleton_self _)
    have hsome := hall lblock hmem
    rw [hnull] at hsome
    exact Bool.false_ne_true hsome

/-- Numbers of misses as the categories say. -/
structure Counted (c : LBlocks B L) (fl : Flow B E) (val : Var B E L → ℤ) : Prop where
  le : ∀ lb ∈ c.lblocks, val (.miss lb) ≤ val (.block (c.bb lb))
  alwaysHit : ∀ lb ∈ c.lblocks, c.category lb = .alwaysHit → val (.miss lb) = 0
  alwaysMiss : ∀ lb ∈ c.lblocks, c.category lb = .alwaysMiss → val (.miss lb) = val (.block (c.bb lb))
  firstMiss : ∀ lb ∈ c.lblocks, ∀ header, c.category lb = .firstMiss header →
    val (.miss lb) ≤ entriesOf fl val header

omit [DecidableEq L] in
/-- The miss variable of an l-block and the variable of its block. -/
theorem lhs_miss (cmp : Comparator) (lblock : L) (b : B) :
    ((Constraint.addLeft ⟨cmp, []⟩ 1 (some (.miss lblock))).addRight 1 (some (.block b)) :
        Constraint (Var B E L)).lhs val = val (.miss lblock) - val (.block b) ∧
      ((Constraint.addRight ⟨cmp, []⟩ 1 (some (.block b))).addLeft 1 (some (.miss lblock)) :
        Constraint (Var B E L)).lhs val = val (.miss lblock) - val (.block b) := by
  simp only [Constraint.lhs_addLeft, Constraint.lhs_addRight, Constraint.lhs_nil, Option.elim_some]
  constructor <;> ring

/-- The constraint of a group, at its last l-block. -/
def IsGroupConstraint (c : LBlocks B L) (fl : Flow B E) (linked : L → Option (List L))
    (missVar : L → Option (Var B E L)) (lblock : L) (k : Constraint (Var B E L)) : Prop :=
  ∃ header group, c.category lblock = .firstMiss header ∧ linked lblock = some group ∧
    group.getLast? = some lblock ∧
    k = addEntries fl (group.foldl (fun cons lb => cons.addLeft 1 (missVar lb)) ⟨.le, []⟩) header

/-- The constraints of an l-block, but the one of its group. -/
theorem spec_of_mem {missVar : L → Option (Var B E L)} {k : Constraint (Var B E L)} (h : Counted c fl val)
    (hmem : lblock ∈ c.lblocks) (hk : k ∈ constraintsOf c fl linked missVar lblock) :
    (k.Holds val ∧ ∀ t ∈ k.terms, t.var.isSome) ∨ IsGroupConstraint c fl linked missVar lblock k := by
  have hle := h.le lblock hmem
  unfold constraintsOf at hk
  cases hcategory : c.category lblock with
  | alwaysHit =>
    rw [hcategory] at hk
    obtain rfl := List.mem_singleton.mp hk
    refine .inl ⟨?_, by simp [Constraint.addLeft, Constraint.add]⟩
    rw [Constraint.Holds, Constraint.lhs_addLeft, Constraint.lhs_nil, Option.elim_some, one_mul, zero_add]
    exact h.alwaysHit lblock hmem hcategory
  | firstHit =>
    rw [hcategory] at hk
    obtain rfl := List.mem_singleton.mp hk
    refine .inl ⟨?_, by simp [Constraint.addLeft, Constraint.addRight, Constraint.add]⟩
    rw [Constraint.Holds, (lhs_miss _ _ _).1]
    exact sub_nonpos.mpr hle
  | notClassified =>
    rw [hcategory] at hk
    obtain rfl := List.mem_singleton.mp hk
    refine .inl ⟨?_, by simp [Constraint.addLeft, Constraint.addRight, Constraint.add]⟩
    rw [Constraint.Holds, (lhs_miss _ _ _).1]
    exact sub_nonpos.mpr hle
  | alwaysMiss =>
    rw [hcategory] at hk
    obtain rfl := List.mem_singleton.mp hk
    refine .inl ⟨?_, by simp [Constraint.addLeft, Constraint.addRight, Constraint.add]⟩
    rw [Constraint.Holds, (lhs_miss _ _ _).1]
    exact sub_eq_zero.mpr (h.alwaysMiss lblock hmem hcategory)
  | firstMiss header =>
    rw [hcategory] at hk
    obtain hk | hk := List.mem_append.mp hk
    · unfold firstMiss at hk
      cases hlinked : linked lblock with
      | none =>
        rw [hlinked] at hk
        obtain rfl := List.mem_singleton.mp hk
        obtain ⟨hcomp, hlhs, hterms⟩ := @addEntries_spec B E L fl val header
          (Constraint.addLeft ⟨.le, []⟩ 1 (some (.miss lblock)))
        refine .inl ⟨?_, hterms.mpr (by simp [Constraint.addLeft, Constraint.add])⟩
        rw [Constraint.Holds, hcomp, hlhs, Constraint.lhs_addLeft, Constraint.lhs_nil, Option.elim_some, one_mul,
          zero_add]
        exact sub_nonpos.mpr (h.firstMiss lblock hmem header hcategory)
      | some group =>
        rw [hlinked] at hk
        dsimp only at hk
        split at hk
        case isTrue hlast =>
          exact .inr ⟨header, group, hcategory, hlinked, hlast, List.mem_singleton.mp hk⟩
        case isFalse => exact absurd hk List.not_mem_nil
    · obtain rfl := List.mem_singleton.mp hk
      refine .inl ⟨?_, by simp [Constraint.addLeft, Constraint.addRight, Constraint.add]⟩
      rw [Constraint.Holds, (lhs_miss _ _ _).2]
      exact sub_nonpos.mpr hle

/-! ### The system -/

/-- The constraint of a group is built at its last l-block. -/
theorem exists_group_constraint {group : List L} (hgrouped : Grouped c linked) (hlinked : linked lblock = some group)
    (hcategory : c.category lblock = .firstMiss header) : ∃ pre lb post, c.lblocks = pre ++ lb :: post ∧
      IsGroupConstraint c fl linked (pre.foldl (processLBlock c fl linked) ⟨[], fun _ => none⟩).missVar lb
        (addEntries fl (group.foldl (fun cons lb => cons.addLeft 1
          ((pre.foldl (processLBlock c fl linked) ⟨[], fun _ => none⟩).missVar lb)) ⟨.le, []⟩) header) ∧
      group.getLast? = some lb := by
  have hmem := hgrouped.mem hlinked
  obtain ⟨header', hmembers⟩ := hgrouped.header hlinked
  obtain ⟨lb, hlast⟩ := Option.isSome_iff_exists.mp
    (List.getLast?_isSome.mpr (List.ne_nil_of_mem hmem))
  have hlb := List.mem_of_getLast? hlast
  have hsame : header' = header :=
    Option.some.inj ((hmembers lblock hmem).1.symm.trans (LBlocks.header_eq_some.mpr hcategory))
  subst hsame
  obtain ⟨pre, post, hsplit⟩ := List.append_of_mem ((hgrouped.sublist hlinked).mem hlb)
  obtain ⟨hheader, hgroup⟩ := hmembers lb hlb
  exact ⟨pre, lb, post, hsplit, ⟨header', group, LBlocks.header_eq_some.mp hheader, hgroup, hlast, rfl⟩, hlast⟩

theorem mem_constraints_iff (k : Constraint (Var B E L)) : k ∈ (processWorkSpace c fl linked).constraints ↔
    ∃ pre lb post, c.lblocks = pre ++ lb :: post ∧ k ∈ constraintsOf c fl linked
      (pre.foldl (processLBlock c fl linked) ⟨[], fun _ => none⟩).missVar lb := by
  rw [processWorkSpace_eq, mem_foldl_constraints]
  exact or_iff_right List.not_mem_nil

theorem mem_of_isGroupConstraint {missVar : L → Option (Var B E L)} {k : Constraint (Var B E L)}
    (hk : IsGroupConstraint c fl linked missVar lblock k) : k ∈ constraintsOf c fl linked missVar lblock := by
  obtain ⟨header, group, hcategory, hlinked, hlast, rfl⟩ := hk
  simp [constraintsOf, hcategory, firstMiss, hlinked, hlast]

theorem missVar_eq_none_or {pre : List L} (lb : L) :
    (pre.foldl (processLBlock c fl linked) ⟨[], fun _ => none⟩).missVar lb =
      if lb ∈ pre then some (.miss lb) else none :=
  foldl_missVar pre _ lb

/-- The numbers of misses satisfy the system if and only if in each group the l-blocks before the last one miss less
often than the loop is entered. -/
theorem constraints_hold_iff (hc : c.WellFormed) (hgrouped : Grouped c linked) (h : Counted c fl val) :
    (∀ k ∈ (processWorkSpace c fl linked).constraints, k.Holds val) ↔
      ∀ lb ∈ c.lblocks, ∀ header group, c.category lb = .firstMiss header → linked lb = some group →
        missesOf val group.dropLast < entriesOf fl val header := by
  constructor
  · intro hall lb _ header group hcategory hlinked
    obtain ⟨pre, lb', post, hsplit, hk, hlast⟩ := exists_group_constraint hgrouped hlinked hcategory
    have hholds := hall _ ((mem_constraints_iff _).mpr ⟨pre, lb', post, hsplit, mem_of_isGroupConstraint hk⟩)
    exact (group_spec hc (hgrouped.sublist hlinked) hlast hsplit missVar_eq_none_or rfl).1.mp hholds
  · intro hgroups k hk
    obtain ⟨pre, lb, post, hsplit, hk⟩ := (mem_constraints_iff k).mp hk
    have hmem : lb ∈ c.lblocks := by
      rw [hsplit]
      exact List.mem_append_right _ List.mem_cons_self
    obtain ⟨hholds, -⟩ | ⟨header, group, hcategory, hlinked, hlast, hk⟩ := spec_of_mem h hmem hk
    · exact hholds
    · exact (group_spec hc (hgrouped.sublist hlinked) hlast hsplit missVar_eq_none_or hk).1.mpr
        (hgroups lb hmem header group hcategory hlinked)

/-- Each term of the system has a variable if and only if no l-blocks are linked. -/
theorem constraints_named_iff (hc : c.WellFormed) (hgrouped : Grouped c linked) (h : Counted c fl val) :
    (∀ k ∈ (processWorkSpace c fl linked).constraints, ∀ t ∈ k.terms, t.var.isSome) ↔
      ∀ lb ∈ c.lblocks, linked lb = none := by
  constructor
  · intro hall lb hmem
    by_contra hsome
    obtain ⟨group, hlinked⟩ := Option.ne_none_iff_exists'.mp hsome
    obtain ⟨header, hmembers⟩ := hgrouped.header hlinked
    have hcategory := LBlocks.header_eq_some.mp (hmembers lb (hgrouped.mem hlinked)).1
    obtain ⟨pre, lb', post, hsplit, hk, hlast⟩ := @exists_group_constraint B E L _ c fl linked lb header group
      hgrouped hlinked hcategory
    have hnamed := hall _ ((mem_constraints_iff _).mpr ⟨pre, lb', post, hsplit, mem_of_isGroupConstraint hk⟩)
    exact (@group_spec B E L _ c fl val lb' header group pre post _ _ hc (hgrouped.sublist hlinked) hlast hsplit
      missVar_eq_none_or rfl).2 hnamed
  · intro hnone k hk
    obtain ⟨pre, lb, post, hsplit, hk⟩ := (mem_constraints_iff k).mp hk
    have hmem : lb ∈ c.lblocks := by
      rw [hsplit]
      exact List.mem_append_right _ List.mem_cons_self
    obtain ⟨-, hnamed⟩ | ⟨header, group, -, hlinked, -⟩ := spec_of_mem h hmem hk
    · exact hnamed
    · rw [hnone lb hmem] at hlinked
      exact absurd hlinked (by simp)

theorem missVar_eq (lb : L) :
    (processWorkSpace c fl linked).missVar lb = if lb ∈ c.lblocks then some (.miss lb) else none := by
  rw [processWorkSpace_eq]
  exact foldl_missVar _ _ lb

end CAT2OnlyConstraintBuilder

/-! ### The object function -/

namespace CAT2ConstraintBuilder

open CAT2OnlyConstraintBuilder

variable {B E L : Type} [DecidableEq L] {c : LBlocks B L} {fl : Flow B E} {linked : L → Option (List L)}
  {val : Var B E L → ℤ} {penalty : ℤ}

/-- The number of the l-blocks that are not of the program. -/
def ends (c : LBlocks B L) : ℕ :=
  (c.sets.map fun set => set.countP (c.isEnd set)).sum

/-- The value of an expression. -/
def valueOf (val : Var B E L → ℤ) (e : List (Term (Var B E L))) : ℤ :=
  (e.map fun t => t.value val).sum

omit [DecidableEq L] in
theorem set_unique (hc : c.WellFormed) {set set' : List L} {lb : L} (hset : set ∈ c.sets) (hset' : set' ∈ c.sets)
    (hlb : lb ∈ set) (hlb' : lb ∈ set') : set = set' := by
  obtain ⟨-, hdisjoint⟩ := List.nodup_flatten.mp hc.nodup
  have hsymm : Std.Symm (@List.Disjoint L) := ⟨fun _ _ h => h.symm⟩
  by_contra hne
  exact hdisjoint.forall hset hset' hne hlb hlb'

omit [DecidableEq L] in
theorem mem_lblocks_iff (hc : c.WellFormed) {set : List L} {lb : L} (hset : set ∈ c.sets) (hlb : lb ∈ set) :
    lb ∈ c.lblocks ↔ c.isEnd set lb = false := by
  rw [LBlocks.lblocks, List.mem_flatMap]
  constructor
  · rintro ⟨set', hset', hmem⟩
    obtain ⟨hlb', hend⟩ := List.mem_filter.mp hmem
    obtain rfl := set_unique hc hset hset' hlb hlb'
    simpa using hend
  · intro hend
    exact ⟨set, hset, List.mem_filter.mpr ⟨hlb, by rw [hend]; rfl⟩⟩

/-- The l-blocks of the program cost their misses and the other ones the penalty. -/
theorem valueOf_objectFunction (hc : c.WellFormed) :
    valueOf val (objectFunction c (CAT2OnlyConstraintBuilder.processWorkSpace c fl linked).missVar penalty) =
      penalty * (missesOf val c.lblocks + ends c) := by
  have hset : ∀ set ∈ c.sets,
      (set.map fun lb => ((CAT2OnlyConstraintBuilder.processWorkSpace c fl linked).missVar lb).elim 1 val).sum =
        missesOf val (set.filter fun lb => !c.isEnd set lb) + set.countP (c.isEnd set) := by
    intro set hset
    have hvalue : ∀ lb ∈ set, ((CAT2OnlyConstraintBuilder.processWorkSpace c fl linked).missVar lb).elim 1 val =
        if c.isEnd set lb then 1 else val (.miss lb) := by
      intro lb hlb
      rw [missVar_eq]
      by_cases hend : c.isEnd set lb = true
      · rw [if_neg (by rw [mem_lblocks_iff hc hset hlb, hend]; decide), if_pos hend]
        rfl
      · rw [if_pos ((mem_lblocks_iff hc hset hlb).mpr (Bool.not_eq_true _ ▸ hend)), if_neg hend]
        rfl
    rw [List.map_congr_left hvalue]
    generalize c.isEnd set = p
    clear hvalue hset
    induction set with
    | nil => rfl
    | cons lb set ih =>
      rw [List.map_cons, List.sum_cons, ih, List.countP_cons, List.filter_cons]
      by_cases hend : p lb = true
      · simp [hend]
        ring
      · simp [hend, missesOf]
        ring
  have hsets : ∀ sets : List (List L), (∀ set ∈ sets, set ∈ c.sets) →
      valueOf val (sets.flatMap fun set => set.map fun lb =>
        (⟨penalty, (CAT2OnlyConstraintBuilder.processWorkSpace c fl linked).missVar lb⟩ : Term (Var B E L))) =
      penalty * (missesOf val (sets.flatMap fun set => set.filter fun lb => !c.isEnd set lb) +
        (sets.map fun set => set.countP (c.isEnd set)).sum) := by
    intro sets
    induction sets with
    | nil => exact fun _ => (mul_zero penalty).symm
    | cons set sets ih =>
      intro hmem
      have hrest := ih fun set' hset' => hmem set' (List.mem_cons_of_mem set hset')
      have hfirst := hset set (hmem set List.mem_cons_self)
      rw [valueOf, List.flatMap_cons, List.map_append, List.sum_append]
      rw [valueOf] at hrest
      rw [hrest, List.flatMap_cons, List.map_cons, List.sum_cons, missesOf, missesOf, List.map_append,
        List.sum_append, List.map_map]
      have hterms : (set.map ((fun t => t.value val) ∘ fun lb =>
          (⟨penalty, (CAT2OnlyConstraintBuilder.processWorkSpace c fl linked).missVar lb⟩ : Term (Var B E L)))).sum =
          penalty * (missesOf val (set.filter fun lb => !c.isEnd set lb) + set.countP (c.isEnd set)) := by
        rw [← hfirst]
        exact List.sum_map_mul_left ..
      rw [hterms, missesOf]
      push_cast
      ring
  exact hsets c.sets fun _ hset => hset

omit [DecidableEq L] in
/-- Each set has l-blocks that are not of the program. -/
theorem exists_isEnd {set : List L} (hc : c.WellFormed) (hset : set ∈ c.sets) : ∃ lb ∈ set, c.isEnd set lb = true := by
  have hlength : 0 < set.length := Nat.lt_of_lt_of_le Nat.zero_lt_two (hc.ends set hset)
  refine ⟨set[0], List.getElem_mem hlength, ?_⟩
  rw [LBlocks.isEnd, hc.id_eq set hset 0 hlength]
  rfl

omit [DecidableEq L] in
theorem ends_eq_zero_iff (hc : c.WellFormed) : ends c = 0 ↔ c.sets = [] := by
  constructor
  · intro hzero
    by_contra hne
    obtain ⟨set, hset⟩ := List.exists_mem_of_ne_nil _ hne
    obtain ⟨lb, hlb, hend⟩ := exists_isEnd hc hset
    have hcount : 0 < set.countP (c.isEnd set) := List.countP_pos_iff.mpr ⟨lb, hlb, hend⟩
    have hle := List.le_sum_of_mem (List.mem_map_of_mem (f := fun set => set.countP (c.isEnd set)) hset)
    rw [ends] at hzero
    omega
  · intro hnil
    rw [ends, hnil]
    rfl

/-- Each term of the object function has a variable if and only if there is no set. -/
theorem objectFunction_named_iff (hc : c.WellFormed) :
    (∀ t ∈ objectFunction c (CAT2OnlyConstraintBuilder.processWorkSpace c fl linked).missVar penalty,
      t.var.isSome) ↔ c.sets = [] := by
  constructor
  · intro hall
    by_contra hne
    obtain ⟨set, hset⟩ := List.exists_mem_of_ne_nil _ hne
    obtain ⟨lb, hlb, hend⟩ := exists_isEnd hc hset
    have hsome := hall ⟨penalty, _⟩ (List.mem_flatMap.mpr ⟨set, hset, List.mem_map_of_mem hlb⟩)
    rw [missVar_eq, if_neg (by rw [mem_lblocks_iff hc hset hlb, hend]; decide)] at hsome
    exact Bool.false_ne_true hsome
  · intro hnil t ht
    rw [objectFunction, hnil] at ht
    exact absurd ht List.not_mem_nil

end CAT2ConstraintBuilder

end Otawa
