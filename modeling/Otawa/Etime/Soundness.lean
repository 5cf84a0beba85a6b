import Otawa.Etime.Split
import Mathlib.Algebra.Order.BigOperators.Group.List

/-!
# The constraints and the object function of an execution

An execution meets a configuration each time that it traverses an edge. Where the costs of an edge are met in increasing
order, its numbers satisfy the constraints of the edge and of the collectors, and the object function bounds its costs
(`processEdges_sound`). The order of the masks does not give this order of the costs (`costs_out_of_order`).
-/

namespace Otawa.Etime

open Ilp

variable {E Ev V : Type} [DecidableEq Ev] {info : Ev → Event E V}

/-! ### The split is one of the sets -/

variable (info) in
omit [DecidableEq Ev] in
theorem bestSplit_range (events : List (Ev × Place)) (weight : ℤ) {confs : List ConfigSet} (hlength : 2 ≤ confs.length) :
    0 < bestSplit info events weight confs ∧ bestSplit info events weight confs < confs.length := by
  have hfold : ∀ (l : List ℕ) (best : Best), (∀ p ∈ l, 0 < p ∧ p < confs.length) →
      (best.cost ≠ none → 0 < best.p ∧ best.p < confs.length) → l ≠ [] ∨ best.cost ≠ none →
      0 < (l.foldl (tryLess info events weight confs) best).p ∧
        (l.foldl (tryLess info events weight confs) best).p < confs.length := by
    intro l
    induction l with
    | nil =>
      intro best _ hbest hsome
      exact hbest (hsome.resolve_left fun h => h rfl)
    | cons p l ih =>
      intro best hl hbest _
      obtain ⟨hp, hl⟩ := List.forall_mem_cons.mp hl
      rw [List.foldl_cons]
      unfold tryLess
      dsimp only
      split
      · exact ih _ hl (fun _ => hp) (.inr (Option.some_ne_none _))
      · rename_i hless
        have hsome : best.cost ≠ none := by
          intro hnone
          rw [hnone] at hless
          exact hless rfl
        exact ih _ hl hbest (.inr hsome)
  refine hfold _ _ (fun p hp => ?_) (fun h => absurd rfl h) (.inl ?_)
  · obtain ⟨hle, hlt⟩ := List.mem_range'_1.mp hp
    omega
  · intro hnil
    have hlen := congrArg List.length hnil
    rw [List.length_range'] at hlen
    change confs.length - 1 = 0 at hlen
    omega

/-! ### Executions -/

/-- The configurations that are met at the edges, the occurrences of the events, on or off, and the values of their
variables. -/
structure Execution (E Ev V : Type) where
  traversals : E → List Mask
  occurrences : Ev → Bool → ℤ
  eventVal : V → ℤ

variable (info) in
/-- The high time set that `applyWeightedSplit` takes. -/
def htsOf (sq : Sequence E Ev) : List Mask := (split info sq).elim [] Split.hts

theorem lawfulBEq_mask : LawfulBEq Mask := inferInstance

attribute [local instance] lawfulBEq_mask in
variable (info) in
/-- The numbers of an execution. -/
def val (seq : E → Sequence E Ev) (x : Execution E Ev V) : Var E V → ℤ
  | .edge e => (x.traversals e).length
  | .hts e => (x.traversals e).countP (· ∈ htsOf info (seq e))
  | .event v => x.eventVal v

variable (info) in
/-- How often an edge meets a variable event in a case of the collectors. -/
def metVar (sq : Sequence E Ev) (ts : List Mask) (ev : Ev) (c : Case) : ℤ :=
  ((varEvents info sq).zipIdx.map fun e =>
    if e.1.1 = ev ∧ makeCase info e.1.1 e.1.2 c.isOn = c then (ts.countP fun m => m.getLsbD e.2 = c.isOn : ℤ) else 0).sum

variable (info) in
/-- How often an edge meets an event that is always on, or never. -/
def metConst (sq : Sequence E Ev) (ts : List Mask) (ev : Ev) (c : Case) : ℤ :=
  (sq.allEvents.map fun e =>
    if e.1 = ev ∧ makeCase info e.1 e.2 c.isOn = c ∧ (info e.1).occurrence = (if c.isOn then .always else .never) then
      (ts.length : ℤ) else 0).sum

/-- The value of an estimation. -/
def estimation (v : Var E V → ℤ) (terms : List (Term (Var E V))) : ℤ := (terms.map fun t => t.value v).sum

variable (info) in
/-- Each edge is traversed in any configurations of its variable events. What the edges meet of an event, before or in the
block, are different occurrences of it, and the estimations count the occurrences. -/
structure Faithful (seq : E → Sequence E Ev) (edges : List E) (x : Execution E Ev V) : Prop where
  masks : ∀ e ∈ edges, ∀ m ∈ x.traversals e, m ∈ masks (varEvents info (seq e)).length
  met : ∀ ev c, (edges.map fun e => metVar info (seq e) (x.traversals e) ev c +
    metConst info (seq e) (x.traversals e) ev c).sum ≤ x.occurrences ev c.isOn
  estimate : ∀ ev on, (info ev).isEstimating on = true →
    estimation (val info seq x) ((info ev).estimate on) = x.occurrences ev on

variable (info) in
/-- The cost does not decrease when an event is switched on. -/
def Monotone (sq : Sequence E Ev) : Prop :=
  ∀ c ∈ masks (varEvents info sq).length, ∀ i < (varEvents info sq).length, sq.cost c ≤ sq.cost (c ||| bit i)

variable (info) in
/-- The costs are met in increasing order, and the variable events are estimated. -/
structure Ordered (sq : Sequence E Ev) : Prop where
  increasing : Increasing (configs info sq)
  estimating : ∀ e ∈ varEvents info sq, (info e.1).isEstimating true = true

variable {seq : E → Sequence E Ev} {edges : List E} {x : Execution E Ev V} {sq : Sequence E Ev} {ts : List Mask}
  {vars : Ev → Case → List (Var E V)} {v : Var E V → ℤ} {ev : Ev} {c : Case} {st st' : State E Ev V} {sp : Split}

variable (info) in
omit [DecidableEq Ev] in
theorem isOn_makeCase (ev : Ev) (place : Place) (on : Bool) : (makeCase info ev place on).isOn = on := by
  unfold makeCase
  split
  · cases on <;> rfl
  · cases place <;> cases on <;> rfl

theorem ite_count_nonneg (P : Prop) [Decidable P] (k : ℕ) : 0 ≤ if P then (k : ℤ) else 0 := by
  split
  · exact Int.natCast_nonneg k
  · exact Int.le_refl _

variable (info) in
theorem metVar_nonneg (sq : Sequence E Ev) (ts : List Mask) (ev : Ev) (c : Case) : 0 ≤ metVar info sq ts ev c := by
  refine List.sum_nonneg fun y hy => ?_
  obtain ⟨e, -, rfl⟩ := List.mem_map.mp hy
  exact ite_count_nonneg _ _

variable (info) in
theorem metConst_nonneg (sq : Sequence E Ev) (ts : List Mask) (ev : Ev) (c : Case) : 0 ≤ metConst info sq ts ev c := by
  refine List.sum_nonneg fun y hy => ?_
  obtain ⟨e, -, rfl⟩ := List.mem_map.mp hy
  exact ite_count_nonneg _ _

/-- A variable event occurs at least as often as an edge meets it. -/
theorem count_le_occurrences (hx : Faithful info seq edges x) {e : E} (he : e ∈ edges) {ev : Ev × Place} {i : ℕ}
    (hev : (ev, i) ∈ (varEvents info (seq e)).zipIdx) :
    ((x.traversals e).countP (fun m => m.getLsbD i) : ℤ) ≤ x.occurrences ev.1 true := by
  have hon := isOn_makeCase info ev.1 ev.2 true
  have hmet := hx.met ev.1 (makeCase info ev.1 ev.2 true)
  rw [hon] at hmet
  have hedge := List.single_le_sum (l := edges.map fun e =>
    metVar info (seq e) (x.traversals e) ev.1 (makeCase info ev.1 ev.2 true) +
      metConst info (seq e) (x.traversals e) ev.1 (makeCase info ev.1 ev.2 true)) (fun y hy => by
    obtain ⟨e, -, rfl⟩ := List.mem_map.mp hy
    exact Int.add_nonneg (metVar_nonneg _ _ _ _ _) (metConst_nonneg _ _ _ _ _)) _ (List.mem_map_of_mem he)
  have hcount : ((x.traversals e).countP (fun m => m.getLsbD i) : ℤ) ≤
      metVar info (seq e) (x.traversals e) ev.1 (makeCase info ev.1 ev.2 true) := by
    have hsingle := List.single_le_sum (l := (varEvents info (seq e)).zipIdx.map fun e' =>
      if e'.1.1 = ev.1 ∧ makeCase info e'.1.1 e'.1.2 (makeCase info ev.1 ev.2 true).isOn = makeCase info ev.1 ev.2 true then
        ((x.traversals e).countP fun m => m.getLsbD e'.2 = (makeCase info ev.1 ev.2 true).isOn : ℤ) else 0) (fun y hy => by
      obtain ⟨e', -, rfl⟩ := List.mem_map.mp hy
      exact ite_count_nonneg _ _) _ (List.mem_map_of_mem hev)
    rw [hon, if_pos ⟨rfl, rfl⟩] at hsingle
    unfold metVar
    rw [hon]
    refine Int.le_trans (Int.le_of_eq ?_) hsingle
    simp
  have hconst := metConst_nonneg info (seq e) (x.traversals e) ev.1 (makeCase info ev.1 ev.2 true)
  omega

/-! ### The contributions -/

/-- The sum of the variables of a collector. -/
def sumVars (v : Var E V → ℤ) (vars : Ev → Case → List (Var E V)) (ev : Ev) (c : Case) : ℤ := ((vars ev c).map v).sum

theorem sumVars_contribute (ev' : Ev) (c' : Case) (var : Var E V) :
    sumVars v (contribute vars ev' c' (some var)) ev c =
      sumVars v vars ev c + if ev' = ev ∧ c' = c then v var else 0 := by
  unfold sumVars contribute
  dsimp only
  by_cases hev : ev' = ev
  · subst hev
    rw [Function.update_self]
    by_cases hc : c' = c
    · subst hc
      rw [Function.update_self, if_pos ⟨rfl, rfl⟩, List.map_cons, List.sum_cons, add_comm]
    · rw [Function.update_of_ne (Ne.symm hc), if_neg fun h => hc h.2, add_zero]
  · rw [Function.update_of_ne (Ne.symm hev), if_neg fun h => hev h.1, add_zero]

omit [DecidableEq Ev] in
theorem makeCase_eq_iff (ev : Ev) (place : Place) (on : Bool) (c : Case) :
    makeCase info ev place on = c ↔ makeCase info ev place c.isOn = c ∧ c.isOn = on := by
  constructor
  · rintro rfl
    rw [isOn_makeCase]
    exact ⟨rfl, rfl⟩
  · rintro ⟨hcase, rfl⟩
    exact hcase

theorem sumVars_contribute_makeCase (ev' : Ev) (place : Place) (on : Bool) (var : Var E V) :
    sumVars v (contribute vars ev' (makeCase info ev' place on) (some var)) ev c =
      sumVars v vars ev c + if ev' = ev ∧ makeCase info ev' place c.isOn = c ∧ c.isOn = on then v var else 0 := by
  rw [sumVars_contribute]
  congr 1
  exact if_congr (and_congr_right fun _ => makeCase_eq_iff ev' place on c) rfl rfl

variable (info sq) in
/-- The body of the loop of `contributeConst`. -/
def constStep (vars : Ev → Case → List (Var E V)) (event : Ev × Place) : Ev → Case → List (Var E V) :=
  match (info event.1).occurrence with
  | .always => contribute vars event.1 (makeCase info event.1 event.2 true) (some (.edge sq.edge))
  | .never => contribute vars event.1 (makeCase info event.1 event.2 false) (some (.edge sq.edge))
  | .sometimes => vars

variable (info) in
theorem sumVars_contributeConst (vars) (ev : Ev) (c : Case) (hedge : v (.edge sq.edge) = ts.length) :
    sumVars v (contributeConst info sq vars) ev c = sumVars v vars ev c + metConst info sq ts ev c := by
  have hfold : ∀ (l : List (Ev × Place)) vars,
      sumVars v (l.foldl (constStep info sq) vars) ev c = sumVars v vars ev c + (l.map fun e =>
        if e.1 = ev ∧ makeCase info e.1 e.2 c.isOn = c ∧ (info e.1).occurrence = (if c.isOn then .always else .never) then
          (ts.length : ℤ) else 0).sum := by
    intro l
    induction l with
    | nil => simp
    | cons e l ih =>
      intro vars
      rw [List.foldl_cons, ih, List.map_cons, List.sum_cons, ← add_assoc]
      congr 1
      unfold constStep
      cases hocc : (info e.1).occurrence with
      | sometimes =>
        have hno : ¬ (e.1 = ev ∧ makeCase info e.1 e.2 c.isOn = c ∧
            Occurrence.sometimes = if c.isOn then .always else .never) := by
          rintro ⟨-, -, h⟩
          cases hon : c.isOn <;> rw [hon] at h <;> cases h
        rw [if_neg hno, add_zero]
      | always =>
        dsimp only
        rw [sumVars_contribute_makeCase, hedge]
        congr 1
        refine if_congr (and_congr_right fun _ => and_congr_right fun _ => ?_) rfl rfl
        cases c.isOn <;> decide
      | never =>
        dsimp only
        rw [sumVars_contribute_makeCase, hedge]
        congr 1
        refine if_congr (and_congr_right fun _ => and_congr_right fun _ => ?_) rfl rfl
        cases c.isOn <;> decide
  exact hfold sq.allEvents vars

/-- The high configurations have the event on, or off. -/
theorem count_le_of_const {i : ℕ} {on : Bool} {hts : List Mask} (h : ∀ m ∈ hts, m.getLsbD i = on) :
    (ts.countP (· ∈ hts) : ℤ) ≤ ts.countP fun m => m.getLsbD i = on := by
  refine Int.ofNat_le.mpr (List.countP_mono_left fun m _ hm => ?_)
  exact decide_eq_true (h m (of_decide_eq_true hm))

variable (info) in
theorem sumVars_contributeVars (vars) (ev : Ev) (c : Case) (hn : (varEvents info sq).length < 32) {hts : List Mask}
    (hhts : v (.hts sq.edge) = ts.countP (· ∈ hts)) :
    sumVars v (contributeVars info sq (scan (varEvents info sq).length hts) vars) ev c ≤
      sumVars v vars ev c + metVar info sq ts ev c := by
  have hfold : ∀ (l : List ((Ev × Place) × ℕ)) vars, (∀ e ∈ l, e.2 < 32) → sumVars v (l.foldl (fun vars e =>
      if (scan (varEvents info sq).length hts).pos.getLsbD e.2 then
        contribute vars e.1.1 (makeCase info e.1.1 e.1.2 true) (some (.hts sq.edge))
      else if (scan (varEvents info sq).length hts).neg.getLsbD e.2 then
        contribute vars e.1.1 (makeCase info e.1.1 e.1.2 false) (some (.hts sq.edge))
      else vars) vars) ev c ≤ sumVars v vars ev c + (l.map fun e =>
        if e.1.1 = ev ∧ makeCase info e.1.1 e.1.2 c.isOn = c then
          (ts.countP fun m => m.getLsbD e.2 = c.isOn : ℤ) else 0).sum := by
    intro l
    induction l with
    | nil => simp
    | cons e l ih =>
      intro vars hl
      obtain ⟨he, hl⟩ := List.forall_mem_cons.mp hl
      rw [List.foldl_cons, List.map_cons, List.sum_cons, ← add_assoc]
      refine (ih _ hl).trans (Int.add_le_add_right ?_ _)
      have hstep : ∀ on, (∀ m ∈ hts, m.getLsbD e.2 = on) →
          sumVars v (contribute vars e.1.1 (makeCase info e.1.1 e.1.2 on) (some (.hts sq.edge))) ev c ≤
            sumVars v vars ev c + if e.1.1 = ev ∧ makeCase info e.1.1 e.1.2 c.isOn = c then
              (ts.countP fun m => m.getLsbD e.2 = c.isOn : ℤ) else 0 := by
        intro on hconst
        rw [sumVars_contribute_makeCase, hhts]
        apply Int.add_le_add_left
        by_cases hcase : e.1.1 = ev ∧ makeCase info e.1.1 e.1.2 c.isOn = c
        · rw [if_pos hcase]
          split
          · rename_i hon
            rw [hon.2.2]
            exact count_le_of_const hconst
          · exact Int.natCast_nonneg _
        · rw [if_neg hcase, if_neg fun h => hcase ⟨h.1, h.2.1⟩]
      have hzero : (0 : ℤ) ≤ if e.1.1 = ev ∧ makeCase info e.1.1 e.1.2 c.isOn = c then
          (ts.countP fun m => m.getLsbD e.2 = c.isOn : ℤ) else 0 := ite_count_nonneg _ _
      split
      · rename_i hpos
        exact hstep true ((getLsbD_posConst he).mp hpos)
      · split
        · rename_i hneg
          exact hstep false ((getLsbD_negConst he).mp hneg)
        · omega
  refine hfold (varEvents info sq).zipIdx vars fun e he => ?_
  have hlt := List.snd_lt_of_mem_zipIdx he
  omega

/-! ### One edge -/

theorem addRight_holds {k : Constraint (Var E V)} {var : Var E V} (hcomp : k.comparator = .ge) (hle : v var ≤ k.lhs v) :
    (k.addRight 1 (some var)).Holds v := by
  have hcomp' : (k.addRight 1 (some var)).comparator = .ge := hcomp
  unfold Constraint.Holds
  rw [hcomp', Constraint.lhs_addRight, Option.elim_some]
  change 0 ≤ _
  omega

variable (info) in
omit [DecidableEq Ev] in
/-- The estimations of the complex events. -/
theorem lhs_complex (l : List ((Ev × Place) × ℕ)) (comp : Mask) (k : Constraint (Var E V)) :
    (l.foldl (fun c e => if comp.getLsbD e.2 then ((info e.1.1).estimate true).foldl Constraint.add c else c) k).comparator =
      k.comparator ∧
    (l.foldl (fun c e => if comp.getLsbD e.2 then ((info e.1.1).estimate true).foldl Constraint.add c else c) k).lhs v =
      k.lhs v + (l.map fun e => if comp.getLsbD e.2 then estimation v ((info e.1.1).estimate true) else 0).sum := by
  have hadd := @Constraint.foldl_lhs (Var E V) v (Term (Var E V)) Constraint.add (fun t => t.value v)
    (fun _ _ => rfl) (fun _ _ => Constraint.lhs_add)
  refine Constraint.foldl_lhs (fun k e => ?_) (fun k e => ?_) l k
  · split
    · exact (hadd _ k).1
    · rfl
  · split
    · exact (hadd _ k).2
    · exact (add_zero _).symm

omit [DecidableEq Ev] in
/-- Each high configuration has a complex event on. -/
theorem count_hts_le {l : List ((Ev × Place) × ℕ)} {comp : Mask} {hts : List Mask}
    (h : ∀ m ∈ hts, ∃ e ∈ l, comp.getLsbD e.2 = true ∧ m.getLsbD e.2 = true) (ts : List Mask) :
    (ts.countP (· ∈ hts) : ℤ) ≤
      (l.map fun e => if comp.getLsbD e.2 then (ts.countP (fun m => m.getLsbD e.2) : ℤ) else 0).sum := by
  induction ts with
  | nil => simp
  | cons m ts ih =>
    have hsplit : ∀ e : (Ev × Place) × ℕ,
        (if comp.getLsbD e.2 then ((m :: ts).countP (fun m => m.getLsbD e.2) : ℤ) else 0) =
          (if comp.getLsbD e.2 then (ts.countP (fun m => m.getLsbD e.2) : ℤ) else 0) +
            if comp.getLsbD e.2 && m.getLsbD e.2 then 1 else 0 := by
      intro e
      rw [List.countP_cons]
      cases comp.getLsbD e.2 <;> cases m.getLsbD e.2 <;> simp
    have hnonneg : ∀ y ∈ l.map fun e => if comp.getLsbD e.2 && m.getLsbD e.2 then (1 : ℤ) else 0, 0 ≤ y := by
      intro y hy
      obtain ⟨e, -, rfl⟩ := List.mem_map.mp hy
      split
      · exact Int.le_of_lt Int.one_pos
      · exact Int.le_refl _
    have hone : (if m ∈ hts then (1 : ℤ) else 0) ≤
        (l.map fun e => if comp.getLsbD e.2 && m.getLsbD e.2 then (1 : ℤ) else 0).sum := by
      split
      · rename_i hm
        obtain ⟨e, he, hcomp, hon⟩ := h m hm
        have hsingle := List.single_le_sum hnonneg _ (List.mem_map_of_mem he)
        rwa [hcomp, hon, Bool.and_self, if_pos rfl] at hsingle
      · exact List.sum_nonneg hnonneg
    simp only [hsplit, List.sum_map_add]
    rw [List.countP_cons]
    push_cast
    simp only [decide_eq_true_eq]
    omega

theorem complexConstraint_holds (hx : Faithful info seq edges x) {e : E} (he : e ∈ edges)
    (hn : (varEvents info (seq e)).length < 32) (hordered : Ordered info (seq e)) (hedge : (seq e).edge = e)
    (hsplit : split info (seq e) = some sp) (hsides : Sides (varEvents info (seq e)).length (seq e).cost sp)
    (hcomp : (scan (varEvents info (seq e)).length sp.hts).comp ≠ 0#32) :
    (complexConstraint info (seq e) (scan (varEvents info (seq e)).length sp.hts).comp).Holds (val info seq x) := by
  obtain ⟨hcomparator, hlhs⟩ := lhs_complex info (v := val info seq x) (varEvents info (seq e)).zipIdx
    (scan (varEvents info (seq e)).length sp.hts).comp ⟨.ge, []⟩
  refine addRight_holds hcomparator ?_
  rw [hlhs, Constraint.lhs_nil, zero_add, hedge]
  have hhts : val info seq x (.hts e) = (x.traversals e).countP (· ∈ sp.hts) := by
    change (((x.traversals e).countP (· ∈ htsOf info (seq e)) : ℕ) : ℤ) = _
    rw [htsOf, hsplit]
    rfl
  have hexists : ∀ m ∈ sp.hts, ∃ ev ∈ (varEvents info (seq e)).zipIdx,
      (scan (varEvents info (seq e)).length sp.hts).comp.getLsbD ev.2 = true ∧ m.getLsbD ev.2 = true := by
    intro m hm
    have hk : ∃ k, (scan (varEvents info (seq e)).length sp.hts).comp.getLsbD k = true := by
      by_contra hnone
      push Not at hnone
      refine hcomp (ext_bits fun j => ?_)
      rw [BitVec.getLsbD_zero]
      exact Bool.eq_false_iff.mpr (hnone j)
    obtain ⟨k, hk⟩ := hk
    obtain ⟨i, hi, hci, hmi⟩ := exists_complex hn hsides.nodup
      (fun c hc => (mem_masks hn).mp (hsides.below c hc)) hsides.larger hm hk
    exact ⟨((varEvents info (seq e))[i], i), List.mem_zipIdx_iff_getElem?.mpr (List.getElem?_eq_getElem hi), hci, hmi⟩
  rw [hhts]
  refine (count_hts_le hexists (x.traversals e)).trans (List.sum_le_sum fun ev hev => ?_)
  split
  · have hmem : ev.1 ∈ varEvents info (seq e) := List.fst_mem_of_mem_zipIdx hev
    rw [hx.estimate ev.1.1 true (hordered.estimating ev.1 hmem)]
    exact count_le_occurrences hx he hev
  · exact Int.le_refl _

/-- The costs of some traversals are below those of the time sets. -/
theorem costs_le {n : ℕ} {cost : Mask → ℤ} (hsides : Sides n cost sp) (hts : ∀ m ∈ ts, m ∈ masks n) :
    (ts.map cost).sum ≤ sp.ltsTime * ts.length + (sp.htsTime - sp.ltsTime) * ts.countP (· ∈ sp.hts) := by
  induction ts with
  | nil => simp
  | cons m ts ih =>
    obtain ⟨hm, hts⟩ := List.forall_mem_cons.mp hts
    have hrest := ih hts
    rw [List.map_cons, List.sum_cons, List.length_cons, List.countP_cons]
    by_cases hmem : m ∈ sp.hts
    · have hhigh := hsides.high m hmem
      rw [if_pos (decide_eq_true hmem)]
      push_cast
      rw [mul_add, mul_add]
      omega
    · have hlow := hsides.low m hm hmem
      rw [if_neg (by rwa [decide_eq_true_eq]), add_zero]
      push_cast
      rw [mul_add]
      omega

variable (info) in
/-- What an edge adds. -/
structure Adds (seq : E → Sequence E Ev) (x : Execution E Ev V) (e : E) (st st' : State E Ev V) : Prop where
  constraints : ∀ k ∈ st'.constraints, k ∈ st.constraints ∨ k.Holds (val info seq x)
  vars : ∀ ev c, sumVars (val info seq x) st'.vars ev c ≤ sumVars (val info seq x) st.vars ev c +
    (metVar info (seq e) (x.traversals e) ev c + metConst info (seq e) (x.traversals e) ev c)
  objective : estimation (val info seq x) st.objective + ((x.traversals e).map (seq e).cost).sum ≤
    estimation (val info seq x) st'.objective

theorem estimation_append (v : Var E V → ℤ) (l l' : List (Term (Var E V))) :
    estimation v (l ++ l') = estimation v l + estimation v l' := by
  rw [estimation, List.map_append, List.sum_append]
  rfl

theorem genForOneCost_adds {e : E} {cost : ℤ} (hedge : (seq e).edge = e)
    (hcost : ∀ m ∈ x.traversals e, (seq e).cost m = cost) :
    Adds info seq x e st (genForOneCost info st cost (seq e)) := by
  have hlength : val info seq x (.edge (seq e).edge) = (x.traversals e).length := by
    rw [hedge]
    rfl
  refine ⟨fun k hk => .inl hk, fun ev c => ?_, ?_⟩
  · have hconst := sumVars_contributeConst info st.vars ev c hlength
    have hvar := metVar_nonneg info (seq e) (x.traversals e) ev c
    change sumVars _ (contributeConst info (seq e) st.vars) ev c ≤ _
    omega
  · have hsum : ((x.traversals e).map (seq e).cost).sum = cost * (x.traversals e).length := by
      rw [List.map_congr_left hcost, List.map_const', List.sum_replicate, nsmul_eq_mul, mul_comm]
    change _ ≤ estimation _ (st.objective ++ [⟨cost, some (.edge (seq e).edge)⟩])
    rw [estimation_append, hsum]
    apply Int.add_le_add_left
    unfold estimation Term.value
    rw [List.map_singleton, List.sum_singleton, Option.elim_some, hlength]

theorem contributeSplit_adds (hx : Faithful info seq edges x) {e : E} (he : e ∈ edges)
    (hn : (varEvents info (seq e)).length < 32) (hordered : Ordered info (seq e)) (hedge : (seq e).edge = e)
    (hsplit : split info (seq e) = some sp) (hsides : Sides (varEvents info (seq e)).length (seq e).cost sp) :
    Adds info seq x e st
      (contributeSplit info st (seq e) (scan (varEvents info (seq e)).length sp.hts) sp) := by
  have hlength : val info seq x (.edge (seq e).edge) = (x.traversals e).length := by
    rw [hedge]
    rfl
  have hhts : val info seq x (.hts (seq e).edge) = (x.traversals e).countP (· ∈ sp.hts) := by
    rw [hedge]
    change (((x.traversals e).countP (· ∈ htsOf info (seq e)) : ℕ) : ℤ) = _
    rw [htsOf, hsplit]
    rfl
  have hcount : (x.traversals e).countP (· ∈ sp.hts) ≤ (x.traversals e).length := List.countP_le_length
  refine ⟨fun k hk => ?_, fun ev c => ?_, ?_⟩
  · change k ∈ st.constraints ++ [_, _] ++ _ at hk
    rcases List.mem_append.mp hk with hk | hk
    · rcases List.mem_append.mp hk with hk | hk
      · exact .inl hk
      · right
        rcases List.mem_cons.mp hk with rfl | hk
        · unfold Constraint.Holds
          rw [Constraint.lhs_addRight, Constraint.lhs_nil, Option.elim_some, hhts]
          change (0 : ℤ) - 1 * _ ≤ 0
          omega
        · cases List.mem_singleton.mp hk
          unfold Constraint.Holds
          rw [Constraint.lhs_addRight, Constraint.lhs_addLeft, Constraint.lhs_nil, Option.elim_some, Option.elim_some, hhts,
            hlength]
          change (0 : ℤ) + 1 * _ - 1 * _ ≤ 0
          omega
    · split at hk
      · exact absurd hk List.not_mem_nil
      · rename_i hcomp
        cases List.mem_singleton.mp hk
        exact .inr (complexConstraint_holds hx he hn hordered hedge hsplit hsides hcomp)
  · have hconst := sumVars_contributeConst info
      (contributeVars info (seq e) (scan (varEvents info (seq e)).length sp.hts) st.vars) ev c hlength
    have hvar := sumVars_contributeVars info st.vars ev c hn hhts
    change sumVars _ (contributeConst info (seq e) _) ev c ≤ _
    omega
  · have hcosts := costs_le hsides (hx.masks e he)
    change _ ≤ estimation _ (st.objective ++ [⟨sp.ltsTime, some (.edge (seq e).edge)⟩,
      ⟨sp.htsTime - sp.ltsTime, some (.hts (seq e).edge)⟩])
    rw [estimation_append]
    apply Int.add_le_add_left
    unfold estimation Term.value
    rw [List.map_cons, List.map_singleton, List.sum_cons, List.sum_singleton, Option.elim_some, Option.elim_some, hlength,
      hhts]
    exact hcosts

/-! ### The whole run -/

omit [DecidableEq Ev] in
/-- Without variable events there is one configuration. -/
theorem eq_zero_of_mem_masks {m : Mask} (hm : m ∈ masks 0) : m = 0#32 :=
  ext_bits fun j => ((mem_masks (by decide)).mp hm j (Nat.zero_le j)).trans BitVec.getLsbD_zero.symm

theorem processSequence_adds (hx : Faithful info seq edges x) {e : E} (he : e ∈ edges) (hedge : (seq e).edge = e)
    (hmono : Monotone info (seq e)) (hordered : Ordered info (seq e)) (h : processSequence info st (seq e) = some st') :
    Adds info seq x e st st' := by
  unfold processSequence at h
  dsimp only at h
  split at h
  · cases h
  rename_i hn
  rw [Nat.not_le] at hn
  split at h
  · rename_i hnil
    cases h
    refine genForOneCost_adds hedge fun m hm => ?_
    have hmask := hx.masks e he m hm
    rw [hnil] at hmask
    rw [eq_zero_of_mem_masks hmask]
  split at h
  · rename_i hone
    cases h
    refine genForOneCost_adds hedge fun m hm => ?_
    obtain ⟨s, hs, htime⟩ := (collected (seq e).cost (nodup_masks hn)).covers m (hx.masks e he m hm)
    change s ∈ configs info (seq e) at hs
    obtain ⟨only, honly⟩ := List.length_eq_one_iff.mp hone
    rw [honly] at hs ⊢
    cases List.mem_singleton.mp hs
    exact htime.symm
  · rename_i hone
    obtain ⟨sp, hsplit, rfl⟩ := Option.map_eq_some_iff.mp h
    have hzero : configs info (seq e) ≠ [] := by
      intro hnil
      have hmem : 0#32 ∈ masks (varEvents info (seq e)).length := (mem_masks hn).mpr fun i _ => BitVec.getLsbD_zero
      obtain ⟨s, hs, -⟩ := (collected (seq e).cost (nodup_masks hn)).covers _ hmem
      change s ∈ configs info (seq e) at hs
      rw [hnil] at hs
      cases hs
    have hlength : 2 ≤ (configs info (seq e)).length := by
      have hpos := List.length_pos_of_ne_nil hzero
      omega
    have hrange := (bestSplit_range info (varEvents info (seq e)) (seq e).weight hlength).2
    exact contributeSplit_adds hx he hn hordered hedge hsplit
      (makeSplit_sides hn hmono hordered.increasing hrange hsplit)

/-- All the edges of a run. -/
theorem foldlM_adds (hx : Faithful info seq edges x) (hedge : ∀ e ∈ edges, (seq e).edge = e)
    (hmono : ∀ e ∈ edges, Monotone info (seq e)) (hordered : ∀ e ∈ edges, Ordered info (seq e)) :
    ∀ (l : List E) (st st' : State E Ev V), (∀ e ∈ l, e ∈ edges) →
      l.foldlM (fun st e => processSequence info st (seq e)) st = some st' →
      (∀ k ∈ st'.constraints, k ∈ st.constraints ∨ k.Holds (val info seq x)) ∧
      (∀ ev c, sumVars (val info seq x) st'.vars ev c ≤ sumVars (val info seq x) st.vars ev c +
        (l.map fun e => metVar info (seq e) (x.traversals e) ev c + metConst info (seq e) (x.traversals e) ev c).sum) ∧
      estimation (val info seq x) st.objective + (l.map fun e => ((x.traversals e).map (seq e).cost).sum).sum ≤
        estimation (val info seq x) st'.objective := by
  intro l
  induction l with
  | nil =>
    intro st st' _ h
    cases h
    exact ⟨fun k hk => .inl hk, fun ev c => by simp, by simp⟩
  | cons e l ih =>
    intro st st' hl h
    obtain ⟨he, hl⟩ := List.forall_mem_cons.mp hl
    rw [List.foldlM_cons] at h
    obtain ⟨st₁, hstep, hrest⟩ := Option.bind_eq_some_iff.mp h
    have hadds := processSequence_adds hx he (hedge e he) (hmono e he) (hordered e he) hstep
    obtain ⟨hcons, hvars, hobj⟩ := ih st₁ st' hl hrest
    refine ⟨fun k hk => ?_, fun ev c => ?_, ?_⟩
    · rcases hcons k hk with hk | hholds
      · exact hadds.constraints k hk
      · exact .inr hholds
    · have hthis := hadds.vars ev c
      have hthose := hvars ev c
      rw [List.map_cons, List.sum_cons]
      omega
    · have hthis := hadds.objective
      rw [List.map_cons, List.sum_cons]
      omega

/-- The constraint of a collector. -/
theorem lhs_collector (l : List (Var E V)) (k : Constraint (Var E V)) :
    (l.foldl (fun cons var => cons.addRight 1 (some var)) k).comparator = k.comparator ∧
      (l.foldl (fun cons var => cons.addRight 1 (some var)) k).lhs v = k.lhs v + (l.map fun var => - v var).sum := by
  refine Constraint.foldl_lhs (f := fun cons var => cons.addRight 1 (some var)) (fun k var => rfl) (fun k var => ?_) l k
  rw [Constraint.lhs_addRight, Option.elim_some]
  omega

theorem sum_neg (l : List ℤ) : (l.map fun a => -a).sum = -l.sum := by
  induction l with
  | nil => rfl
  | cons a l ih => rw [List.map_cons, List.sum_cons, List.sum_cons, ih, neg_add]

/-- Where the costs of each edge are met in increasing order and the variable events are estimated, the numbers of an execution
satisfy the constraints of the edges and of the collectors, and the object function bounds its costs. -/
theorem processEdges_sound (info : Ev → Event E V) (seq : E → Sequence E Ev) (edges : List E) (st : State E Ev V)
    (x : Execution E Ev V) (hedge : ∀ e ∈ edges, (seq e).edge = e) (hmono : ∀ e ∈ edges, Monotone info (seq e))
    (hordered : ∀ e ∈ edges, Ordered info (seq e)) (hst : processEdges info seq edges = some st)
    (hx : Faithful info seq edges x) :
    (∀ k ∈ st.constraints, k.Holds (val info seq x)) ∧
    (∀ ev, ∀ k ∈ collectorMake (info ev) (st.vars ev), k.Holds (val info seq x)) ∧
    (edges.map fun e => ((x.traversals e).map (seq e).cost).sum).sum ≤ estimation (val info seq x) st.objective := by
  obtain ⟨hcons, hvars, hobj⟩ := foldlM_adds hx hedge hmono hordered edges _ st (fun e he => he) hst
  refine ⟨fun k hk => (hcons k hk).resolve_left List.not_mem_nil, fun ev k hk => ?_, ?_⟩
  · obtain ⟨c, -, hk⟩ := List.mem_filterMap.mp hk
    split at hk
    · rename_i hif
      cases hk
      obtain ⟨hcomparator, hlhs⟩ := lhs_collector (v := val info seq x) (st.vars ev c) ⟨.ge, (info ev).estimate c.isOn⟩
      unfold Constraint.Holds
      rw [hcomparator, hlhs]
      have hsum := hvars ev c
      have hmet := hx.met ev c
      have hestimate := hx.estimate ev c.isOn hif.2
      have hneg : ((st.vars ev c).map fun var => - val info seq x var).sum =
          - sumVars (val info seq x) st.vars ev c := by
        rw [sumVars, ← sum_neg, List.map_map]
        rfl
      have hnone : sumVars (val info seq x) (fun _ _ => []) ev c = 0 := rfl
      change 0 ≤ estimation (val info seq x) ((info ev).estimate c.isOn) + _
      rw [hneg, hestimate]
      rw [hnone] at hsum
      omega
    · cases hk
  · have hnone : estimation (val info seq x) [] = 0 := rfl
    rwa [hnone, zero_add] at hobj

/-! ### Two events -/

/-- Two events of a block, each with a variable for its number of occurrences. -/
def twoEvents (ev : Bool) : Event Unit Bool :=
  ⟨.block, .sometimes, 1, fun on => on, fun on => if on then [⟨1, some (.event ev)⟩] else []⟩

/-- An edge with its costs in the order of the masks. -/
def twoEventsEdge (costs : List ℤ) (weight : ℤ) : Sequence Unit Bool :=
  ⟨(), [(false, .inBlock), (true, .inBlock)], fun m => costs.getD m.toNat 0, weight⟩

def traversing (ts : List Mask) : Execution Unit Bool Bool where
  traversals _ := ts
  occurrences ev on := ts.countP fun m => m.getLsbD ev.toNat = on
  eventVal ev := ts.countP fun m => m.getLsbD ev.toNat

theorem faithful_traversing (costs : List ℤ) (weight : ℤ) {ts : List Mask}
    (hts : ∀ m ∈ ts, m ∈ [0#32, 1#32, 2#32, 3#32]) :
    Faithful twoEvents (fun _ => twoEventsEdge costs weight) [()] (traversing ts) := by
  constructor
  · exact fun e _ => hts
  · intro ev c
    cases ev <;> cases c <;>
      simp [metVar, metConst, varEvents, twoEvents, twoEventsEdge, traversing, makeCase, Case.isOn]
  · intro ev on hon
    cases on
    · cases hon
    · cases ev <;> simp [estimation, twoEvents, traversing, Term.value, val]

theorem monotone_twoEventsEdge {c₀ c₁ c₂ c₃ : ℤ} (weight : ℤ) (h₁ : c₀ ≤ c₁) (h₂ : c₀ ≤ c₂) (h₃ : c₁ ≤ c₃) (h₄ : c₂ ≤ c₃) :
    Monotone twoEvents (twoEventsEdge [c₀, c₁, c₂, c₃] weight) := by
  intro c hc i hi
  have hc' : c ∈ [0#32, 1#32, 2#32, 3#32] := hc
  have hi' : i = 0 ∨ i = 1 := by
    change i < 2 at hi
    omega
  simp only [List.mem_cons, List.not_mem_nil, or_false] at hc'
  rcases hi' with rfl | rfl <;> rcases hc' with rfl | rfl | rfl | rfl
  · exact h₁
  · exact Int.le_refl _
  · exact h₄
  · exact Int.le_refl _
  · exact h₂
  · exact h₃
  · exact Int.le_refl _
  · exact Int.le_refl _

set_option maxRecDepth 4000 in
theorem processEdges_sound_complex : ∃ st, processEdges twoEvents (fun _ => twoEventsEdge [1, 3, 5, 7] 10) [()] = some st ∧
    (∀ k ∈ st.constraints, k.Holds
      (val twoEvents (fun _ => twoEventsEdge [1, 3, 5, 7] 10) (traversing [0#32, 1#32, 2#32, 3#32, 2#32]))) ∧
    (∀ ev, ∀ k ∈ collectorMake (twoEvents ev) (st.vars ev),
      k.Holds (val twoEvents (fun _ => twoEventsEdge [1, 3, 5, 7] 10) (traversing [0#32, 1#32, 2#32, 3#32, 2#32]))) ∧
    21 ≤ estimation
      (val twoEvents (fun _ => twoEventsEdge [1, 3, 5, 7] 10) (traversing [0#32, 1#32, 2#32, 3#32, 2#32])) st.objective := by
  have hmono : ∀ e ∈ [()], Monotone twoEvents ((fun _ => twoEventsEdge [1, 3, 5, 7] 10) e) := by
    exact fun _ _ => monotone_twoEventsEdge 10 (by decide) (by decide) (by decide) (by decide)
  have hordered : ∀ e ∈ [()], Ordered twoEvents ((fun _ => twoEventsEdge [1, 3, 5, 7] 10) e) := by
    rintro ⟨⟩ -
    constructor
    · unfold Increasing
      decide
    · decide
  exact ⟨_, rfl, processEdges_sound twoEvents _ [()] _ _ (fun _ _ => rfl) hmono hordered rfl
    (faithful_traversing [1, 3, 5, 7] 10 (by simp))⟩

set_option maxRecDepth 4000 in
/-- The second event alone is cheaper than the first, and comes after it: the last split has its low time, and the first event
is in the low time set. -/
theorem costs_out_of_order :
    Monotone twoEvents (twoEventsEdge [1, 5, 3, 7] 3) ∧
    Faithful twoEvents (fun _ => twoEventsEdge [1, 5, 3, 7] 3) [()] (traversing [1#32]) ∧
    ∃ st, processEdges twoEvents (fun _ => twoEventsEdge [1, 5, 3, 7] 3) [()] = some st ∧
      estimation (val twoEvents (fun _ => twoEventsEdge [1, 5, 3, 7] 3) (traversing [1#32])) st.objective <
        (((traversing [1#32]).traversals ()).map (twoEventsEdge [1, 5, 3, 7] 3).cost).sum := by
  have hsplit : split twoEvents (twoEventsEdge [1, 5, 3, 7] 3) = some ⟨3, 7, [3#32]⟩ := by decide
  have hhts : val twoEvents (fun _ => twoEventsEdge [1, 5, 3, 7] 3) (traversing [1#32]) (.hts ()) = 0 := by
    change (([1#32].countP (· ∈ (split twoEvents (twoEventsEdge [1, 5, 3, 7] 3)).elim [] Split.hts) : ℕ) : ℤ) = 0
    rw [hsplit]
    rfl
  refine ⟨monotone_twoEventsEdge 3 (by decide) (by decide) (by decide) (by decide),
    faithful_traversing [1, 5, 3, 7] 3 (by simp), _, rfl, ?_⟩
  change 3 * 1 + (4 * val twoEvents (fun _ => twoEventsEdge [1, 5, 3, 7] 3) (traversing [1#32]) (.hts ()) + 0) < 5
  rw [hhts]
  decide

end Otawa.Etime
