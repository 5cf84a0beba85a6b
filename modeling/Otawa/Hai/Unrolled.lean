import Otawa.Hai.Peeling
import Otawa.Hai.Progress

/-!
# Visits with the first iterations unrolled

The turn of the solver for a block of one CFG, with what it reads (`visit_cases`) and the counters that it
makes decrease (`potential_advanced`, `potential_left`).
-/

set_option linter.unusedSectionVars false

namespace Otawa.HalfAbsInt.FirstUnrolling

variable {B E D : Type} [DecidableEq B] [DecidableEq E] [SemilatticeSup D] [OrderBot D]
variable {c : Cfg B E} {hc : c.Consistent} {p : Problem B D} {entdom : D} {st : Store B E D}
  {u u' : Unroll B D} {workList : List B} {done : B → Prop} {val : Phase B → B → D} {a b : B} {x y z s : D}
  {r : Store B E D × List B} {N : ℕ}

section HeaderInput

variable [DecidableEq D]

theorem entered_fresh (hc : c.Consistent) (hfirst : st.firstIter b = true)
    (hentry : st.entryEdgeUnion c p b = some x) :
    ∃ r, Unroll.headerInput c p st u b = some (x, false, r, (u.newState b).count b ⊥) ∧
      Store.Entered c st b false x r := by
  have hentry' : Store.entryEdgeUnion c p
      { st with headerState := Function.update st.headerState b (some ⊥) } b = some x := hentry
  have hzero : (u.newState b).numIter b = 0 := by simp [Unroll.newState]
  have hbot : (u.newState b).firstIterState b = ⊥ := by simp [Unroll.newState]
  simp only [Unroll.headerInput, hfirst, Unroll.fixPoint, hentry', if_true, Function.update_self,
    Function.update_idem, Option.bind_eq_bind, Option.bind_some, hzero, Option.map_some, hbot]
  refine ⟨_, rfl, fun e => ?_, by simp, by simp, by simp⟩
  simp [Store.unmarkEdges_mark, Store.mem_backEdges hc]

theorem entered_second (hc : c.Consistent) (hfirst : st.firstIter b = false) (hstate : st.headerState b = some s)
    (hone : u.numIter b = 1) (hback : Store.union st.mark (c.backEdges b) = some z) :
    ∃ r, Unroll.headerInput c p st u b = some (z, false, r, u.count b z) ∧ Store.Entered c st b false z r := by
  simp only [Unroll.headerInput, hfirst, Unroll.fixPoint, hstate, Store.backEdgeUnion, hback, hone,
    Option.bind_eq_bind, Option.bind_some, Option.map_some, Bool.false_eq_true, if_false, pure]
  refine ⟨_, rfl, fun e => ?_, by simp, by simp, by simp⟩
  simp [Store.unmarkEdges_mark, Store.mem_backEdges hc]

theorem entered_later (hc : c.Consistent) (hfirst : st.firstIter b = false) (hstate : st.headerState b = some s)
    (hlater : u.later b = true) (hback : Store.union st.mark (c.backEdges b) = some z) :
    ∃ r, Unroll.headerInput c p st u b = some (z ⊔ u.firstIterState b, decide (z ⊔ u.firstIterState b = s), r,
        u.count b (u.firstIterState b)) ∧
      Store.Entered c st b (decide (z ⊔ u.firstIterState b = s)) (z ⊔ u.firstIterState b) r := by
  obtain ⟨n, hn⟩ : ∃ n, u.numIter b = n + 2 := Nat.exists_eq_add_of_le' (of_decide_eq_true hlater)
  simp only [Unroll.headerInput, hfirst, Unroll.fixPoint, hstate, Store.backEdgeUnion, hback, hn,
    Option.bind_eq_bind, Option.bind_some, Option.map_some, Bool.false_eq_true, if_false, pure]
  by_cases hfix : z ⊔ u.firstIterState b = s
  · simp only [hfix, decide_true, if_true]
    refine ⟨_, rfl, fun e => ?_, by simp, by simp, by simp⟩
    cases hisBack : c.isBack e <;>
      simp [Store.unmarkEdges_mark, Store.mem_backEdges hc, Store.mem_entryEdges hc, hisBack]
  · simp only [hfix, decide_false, Bool.false_eq_true, if_false]
    refine ⟨_, rfl, fun e => ?_, by simp, by simp, by simp⟩
    simp [Store.unmarkEdges_mark, Store.mem_backEdges hc]

/-! ### Visits -/

/-- The turn of the solver for a block of one CFG that has no calls. The first component is the input state,
when the block gives a state to its successors. -/
def visit (c : Cfg B E) (p : Problem B D) (entdom : D) (st : Store B E D) (u : Unroll B D) (b : B) :
    Option (Option D × (Store B E D × List B) × Unroll B D) :=
  if c.loopHeader b then
    (Unroll.headerInput c p st u b).bind fun r =>
      if r.2.1 then (r.2.2.1.exitLoop c p b).map fun t => (none, t, r.2.2.2)
      else some (some r.1, r.2.2.1.addSuccessors c b (p.update b r.1), r.2.2.2)
  else
    (HalfAbsInt.visit c p entdom st b).map fun r => (r.1, r.2, u)

/-- What is known when a visit reaches the fixpoint of a loop. -/
structure Settled (c : Cfg B E) (p : Problem B D) (st : Store B E D) (u : Unroll B D) (b : B)
    (r : Store B E D × List B) (u' : Unroll B D) (s z : D) : Prop where
  active : st.firstIter b = false
  later : u.later b = true
  union_eq : Store.union st.mark (c.backEdges b) = some z
  headerState_eq : st.headerState b = some s
  fixed : z ⊔ u.firstIterState b = s
  left : LoopLeft c p st b r
  count_eq : u' = u.count b (u.firstIterState b)

section

omit [DecidableEq D]

theorem Settled.later_eq (h : Settled c p st u b r u' s z) : u'.later = u.later := by
  funext a
  rw [h.count_eq]
  have hlater := h.later
  by_cases hab : a = b
  · subst hab
    simp only [Unroll.later, decide_eq_true_eq] at hlater
    simp only [Unroll.later, Unroll.count, Function.update_self, decide_eq_decide]
    omega
  · simp [Unroll.later, Unroll.count, hab]

theorem Settled.firstIterState_eq (h : Settled c p st u b r u' s z) : u'.firstIterState = u.firstIterState := by
  rw [h.count_eq]
  exact Function.update_eq_self b u.firstIterState

theorem Settled.numIter_other (h : Settled c p st u b r u' s z) (hne : a ≠ b) : u'.numIter a = u.numIter a := by
  rw [h.count_eq]
  exact Input.count_numIter _ hne

end

/-- The invariant of the iteration over one CFG. -/
structure Iterates (hc : c.Consistent) (p : Problem B D) (entdom : D) (st : Store B E D) (u : Unroll B D)
    (workList : List B) (done : B → Prop) (val : Phase B → B → D) : Prop where
  placed : Placed hc st done
  listed : Listed c st workList done
  peeled : Peeled hc p entdom st u done val

omit [DecidableEq D] in
/-- A CFG in which nothing is marked, with its entry on the work-list. -/
theorem Iterates.start (hc : c.Consistent) (p : Problem B D) (entdom : D) (u : Unroll B D)
    (hmark : ∀ e, st.mark e = none) (hfirst : ∀ b, st.firstIter b = true) :
    Iterates hc p entdom st u [c.entry] (fun _ => False) fun _ _ => ⊥ where
  placed := .start hc hmark hfirst
  listed := .start hc hfirst
  peeled := by
    refine ⟨fun _ _ _ _ => rfl, ?_, ?_, ?_, ?_, ?_, ?_, ?_, ?_, ?_, ?_⟩ <;>
      simp [Known, Full, Past, Visited, hmark, hfirst]

/-- Every block of the work-list can be taken: each mark that the visit reads is there. -/
theorem Iterates.visit_cases (hI : Iterates hc p entdom st u workList done val) (hmem : b ∈ workList) :
    (∃ x r u', visit c p entdom st u b = some (some x, r, u') ∧ Input c p entdom st u b x u' ∧
      Advanced c st b x (p.update b x) r ∧
      (st.firstIter b = false → u.later b = true → x ≠ val u.later b)) ∨
    (∃ r u' z, visit c p entdom st u b = some (none, r, u') ∧
      Settled c p st u b r u' (val u.later b) z) := by
  obtain ⟨hdone, hready⟩ := (hI.listed.mem_iff b).mp hmem
  have hP := hI.placed
  cases hheader : c.loopHeader b with
  | false =>
    obtain ⟨hfirst, x, r, hvisit, hx, hA⟩ := hP.visit_simple p entdom hdone hready hheader
    have hvisit' : visit c p entdom st u b = some (some x, r, u) := by simp [visit, hheader, hvisit]
    refine .inl ⟨x, r, u, hvisit', ?_, hA, by simp [hfirst]⟩
    obtain ⟨hentry, rfl⟩ | ⟨hentry, y, z, hy, rfl, ⟨-, rfl⟩ | ⟨hactive, -⟩⟩ := hx
    · exact .entry hentry
    · rw [sup_bot_eq]
      exact .first hentry hfirst hy (by simp [hheader])
    · rw [hfirst] at hactive
      exact absurd hactive (by decide)
  | true =>
    have hentry : b ≠ c.entry := by
      rintro rfl
      rw [hc.loopHeader_entry] at hheader
      exact absurd hheader (by decide)
    cases hfirst : st.firstIter b with
    | true =>
      obtain ⟨y, hy⟩ : ∃ y, Store.union st.mark (c.entryEdges b) = some y := Store.exists_union fun e hin =>
        have hin := (Store.mem_entryEdges hc).mp hin
        hP.isSome_finished hdone hready hin.1 (.inl hin.2)
      have hunion : st.entryEdgeUnion c p b = some (entryContext c p b y) := by
        simp [Store.entryEdgeUnion, hy, entryContext_header hheader]
      obtain ⟨r, hr, hentered⟩ := entered_fresh (u := u) hc hfirst hunion
      exact .inl ⟨_, _, (u.newState b).count b ⊥, by simp [visit, hheader, hr],
        .first hentry hfirst hy (by simp [hheader]),
        (Opened.of_entered hheader hentered).advanced hP hdone hready _, by simp⟩
    | false =>
      obtain ⟨z, hz⟩ : ∃ z, Store.union st.mark (c.backEdges b) = some z := Store.exists_union fun e hin =>
        hP.isSome_finished hdone hready ((Store.mem_backEdges hc).mp hin).1 (.inr hfirst)
      have hstate := hI.peeled.headerState b hfirst
      cases hlater : u.later b with
      | false =>
        have hone : u.numIter b = 1 := by
          have hle := hI.peeled.counted b hfirst
          have hlt := of_decide_eq_false hlater
          omega
        obtain ⟨r, hr, hentered⟩ := entered_second (p := p) hc hfirst hstate hone hz
        exact .inl ⟨_, _, _, by simp [visit, hheader, hr], .second hfirst hone hz,
          (Opened.of_entered hheader hentered).advanced hP hdone hready _, by simp⟩
      | true =>
        obtain ⟨r, hr, hentered⟩ := entered_later (p := p) hc hfirst hstate hlater hz
        by_cases hfix : z ⊔ u.firstIterState b = val u.later b
        · simp only [hfix, decide_true] at hr hentered
          obtain ⟨r', hr', hleft⟩ := Store.left_exitLoop (p := p) hc r b fun e hexit => by
            have hexit := (hc.mem_exitList e b).mp hexit
            have hne : c.target e ≠ b := fun heq => hc.exit_target hexit (heq ▸ hc.inLoop_self b)
            rw [hentered.mark_eq, if_neg fun heq => hne heq.1]
            exact hP.exit_marked hdone hready hfirst hexit
          exact .inr ⟨r', _, z, by simp [visit, hheader, hr, hr'], hfirst, hlater, hz, hstate, hfix,
            .of_left hc hentered hleft, rfl⟩
        · simp only [hfix, decide_false] at hr hentered
          exact .inl ⟨_, _, _, by simp [visit, hheader, hr], .again hfirst hlater hz,
            (Opened.of_entered hheader hentered).advanced hP hdone hready _, fun _ _ => hfix⟩

end HeaderInput

/-! ### The counters -/

open Classical in
/-- The visits of the block that may still come before it is done, in one iteration of the loops around it. -/
noncomputable def turns (c : Cfg B E) (N : ℕ) (st : Store B E D) (u : Unroll B D) (done : B → Prop)
    (val : Phase B → B → D) (b : B) : ℕ :=
  if done b then 0
  else if st.firstIter b = true then (if c.loopHeader b then N + 3 else 1)
  else if u.later b = true then N + 1 - climb (val u.later b)
  else N + 2

theorem turns_le (b : B) : turns c N st u done val b ≤ N + 3 := by
  unfold turns
  split_ifs <;> omega

theorem turns_done (hdone : done b) : turns c N st u done val b = 0 :=
  if_pos hdone

theorem turns_pos (hN : FiniteHeight D N) (hdone : ¬ done b) : 0 < turns c N st u done val b := by
  have := climb_le hN (val u.later b)
  unfold turns
  split_ifs <;> omega

theorem turns_congr {st' : Store B E D} {done' : B → Prop} {val' : Phase B → B → D} (hdone : done' a ↔ done a)
    (hfirst : st'.firstIter a = st.firstIter a) (hlater : u'.later a = u.later a)
    (hval : val' u'.later a = val u.later a) :
    turns c N st' u' done' val' a = turns c N st u done val a := by
  by_cases ha : done a
  · rw [turns_done ha, turns_done (hdone.mpr ha)]
  · have ha' : ¬ done' a := fun h => ha (hdone.mp h)
    simp only [turns, ha, ha', hfirst, hlater, hval]

/-- What is left of the iteration over one CFG. -/
noncomputable def potential [Fintype B] (hc : c.Consistent) (N : ℕ) (st : Store B E D) (u : Unroll B D)
    (done : B → Prop) (val : Phase B → B → D) : ℕ :=
  Nested.potential (depth hc) (turns c N st u done val) (Fintype.card B * (N + 3) + 1) (Fintype.card B)

/-- A header that iterates has fewer visits before it. -/
theorem turns_lt (hN : FiniteHeight D N) (hP : Placed hc st done) (hQ : Peeled hc p entdom st u done val)
    (hdone : ¬ done b) (hready : Ready c st done b) (hheader : c.loopHeader b = true)
    (hx : Input c p entdom st u b x u') (hA : Advanced c st b x (p.update b x) r)
    (hmoves : st.firstIter b = false → u.later b = true → x ≠ val u.later b) :
    turns c N r.1 u' (restart hc done b) (revisit hc val u'.later b x) b < turns c N st u done val b := by
  have hS := hx.shift hc
  have hdone' : ¬ restart hc done b b := Advanced.not_restart_self hdone hheader
  have hnew : turns c N r.1 u' (restart hc done b) (revisit hc val u'.later b x) b =
      if u'.later b = true then N + 1 - climb x else N + 2 := by
    simp [turns, hdone', hA.firstIter_self hheader, revisit_self (fun _ _ _ => rfl)]
  rw [hnew]
  cases hx with
  | entry hentry =>
    rw [hentry, hc.loopHeader_entry] at hheader
    exact absurd hheader (by decide)
  | first _ hfirst =>
    rw [hS.fresh hfirst hheader]
    simp [turns, hdone, hfirst, hheader]
  | second hactive hone =>
    have hlater : u.later b = false := by simp [Unroll.later, hone]
    have hlater' : (u.count b x).later b = true := by simp [Unroll.later, Unroll.count, hone]
    simp only [turns, hdone, hactive, hlater, hlater', if_false, if_true, Bool.false_eq_true]
    omega
  | @again z hactive hlater hz =>
    have hle := hQ.val_le_input hP hdone hready hactive hlater hz
    have hlt := climb_lt hN (lt_of_le_of_ne hle (hmoves hactive hlater).symm)
    have hbound := climb_le hN (z ⊔ u.firstIterState b)
    have hlater' := hS.again hactive hlater
    rw [if_pos hlater']
    simp only [turns, hdone, hactive, hlater, if_false, if_true, Bool.false_eq_true]
    omega

theorem potential_advanced [Fintype B] (hN : FiniteHeight D N) (hI : Iterates hc p entdom st u workList done val)
    (hmem : b ∈ workList) (hx : Input c p entdom st u b x u') (hA : Advanced c st b x (p.update b x) r)
    (hmoves : st.firstIter b = false → u.later b = true → x ≠ val u.later b) :
    potential hc N r.1 u' (restart hc done b) (revisit hc val u'.later b x) < potential hc N st u done val := by
  obtain ⟨hdone, hready⟩ := (hI.listed.mem_iff b).mp hmem
  have hS := hx.shift hc
  refine Nested.potential_lt b depth_le turns_le (Nat.lt_succ_self _) ?_ fun a hab => ?_
  · cases hheader : c.loopHeader b with
    | false =>
      rw [turns_done (.inr ⟨rfl, hheader⟩)]
      exact turns_pos hN hdone
    | true => exact turns_lt hN hI.placed hI.peeled hdone hready hheader hx hA hmoves
  · by_cases hin : hc.InLoop b a
    · exact .inr (depth_lt hin hab)
    · refine .inl (le_of_eq (turns_congr ?_ (hA.firstIter_other a (.inl hab)) (hS.other a hab) ?_))
      · simp [Advanced.restart_of_ne hab, hin]
      · rw [revisit_of_ne hab]
        exact hI.peeled.respects _ _ a ((hS.agree_of_not hin).mp fun _ _ _ => rfl)

theorem potential_left [Fintype B] (hN : FiniteHeight D N) (hI : Iterates hc p entdom st u workList done val)
    (hmem : b ∈ workList) (hF : Settled c p st u b r u' s z) :
    potential hc N r.1 u' (settle done b) val < potential hc N st u done val := by
  have hdone := ((hI.listed.mem_iff b).mp hmem).1
  refine Nested.potential_lt b depth_le turns_le (Nat.lt_succ_self _) ?_ fun a hab => ?_
  · rw [turns_done (.inr rfl)]
    exact turns_pos hN hdone
  · refine .inl (le_of_eq (turns_congr ?_ ?_ (by rw [hF.later_eq]) (by rw [hF.later_eq])))
    · simp [settle, hab]
    · rw [hF.left.firstIter_eq, Function.update_of_ne hab]

/-- A visit that goes on keeps the invariant. -/
theorem Iterates.advanced (hI : Iterates hc p entdom st u workList done val) (hmem : b ∈ workList)
    (hx : Input c p entdom st u b x u') (hA : Advanced c st b x (p.update b x) r) :
    Iterates hc p entdom r.1 u' (r.2 ++ workList.erase b) (restart hc done b) (revisit hc val u'.later b x) := by
  obtain ⟨hdone, hready⟩ := (hI.listed.mem_iff b).mp hmem
  exact ⟨hA.placed hI.placed hdone hready, hA.listed hI.placed hI.listed hmem,
    peeled_advanced hI.placed hI.peeled hdone hready hx hA⟩

/-- A visit that leaves a loop keeps the invariant. -/
theorem Iterates.settled (hI : Iterates hc p entdom st u workList done val) (hmem : b ∈ workList)
    (hF : Settled c p st u b r u' (val u.later b) z) :
    Iterates hc p entdom r.1 u' (r.2 ++ workList.erase b) (settle done b) val := by
  obtain ⟨hdone, hready⟩ := (hI.listed.mem_iff b).mp hmem
  exact ⟨hF.left.placed hI.placed hdone hready hF.active, hF.left.listed hI.placed hF.active hI.listed hmem,
    peeled_left hI.placed hI.peeled hdone hready hF.active hF.left hF.later hF.union_eq hF.fixed hF.later_eq
      hF.firstIterState_eq fun _ => hF.numIter_other⟩

end Otawa.HalfAbsInt.FirstUnrolling
