import Otawa.Hai.Schedule

/-!
# One visit of a block

What a visit does to the marks and to the work-list, for a block that gives a state to its successors
(`Advanced`) and for a header whose fixpoint is reached (`LoopLeft`), and that both keep `Placed` and
`Listed`.
-/

set_option linter.unusedSectionVars false

namespace Otawa.HalfAbsInt

variable {B E D : Type} [DecidableEq B] [DecidableEq E] [SemilatticeSup D] [OrderBot D]
variable {c : Cfg B E}

/-- The state of the in-edge is taken by a visit of `b`: the entry edges of a header stay marked. -/
def Taken (c : Cfg B E) (b : B) (e : E) : Prop :=
  c.target e = b ∧ (c.loopHeader b = false ∨ c.isBack e = true)

/-- The state after a visit of `b` with the input `x` and the output `out`, and the blocks it pushes. -/
structure Advanced (c : Cfg B E) (st : Store B E D) (b : B) (x out : D) (r : Store B E D × List B) : Prop where
  mark_taken_out : ∀ e, c.source e = b → Taken c b e → r.1.mark e = some (⊥ ⊔ out)
  mark_out : ∀ e, c.source e = b → ¬ Taken c b e → r.1.mark e = some ((st.mark e).getD ⊥ ⊔ out)
  mark_taken : ∀ e, c.source e ≠ b → Taken c b e → r.1.mark e = none
  mark_kept : ∀ e, c.source e ≠ b → ¬ Taken c b e → r.1.mark e = st.mark e
  firstIter_self : c.loopHeader b = true → r.1.firstIter b = false
  fixed_self : c.loopHeader b = true → r.1.fixed b = false
  headerState_self : c.loopHeader b = true → r.1.headerState b = some x
  firstIter_other : ∀ a, a ≠ b ∨ c.loopHeader b = false → r.1.firstIter a = st.firstIter a
  fixed_other : ∀ a, a ≠ b ∨ c.loopHeader b = false → r.1.fixed a = st.fixed a
  headerState_other : ∀ a, a ≠ b ∨ c.loopHeader b = false → r.1.headerState a = st.headerState a
  nodup : r.2.Nodup
  mem_iff : ∀ a, a ∈ r.2 ↔ (∃ e, c.source e = b ∧ c.target e = a) ∧ r.1.tryAddToWorkList c a = true

/-- The state after the input of a visit of `b`, when the block goes on to its successors. -/
structure Opened (c : Cfg B E) (st : Store B E D) (b : B) (x : D) (r : Store B E D) : Prop where
  mark_taken : ∀ e, Taken c b e → r.mark e = none
  mark_kept : ∀ e, ¬ Taken c b e → r.mark e = st.mark e
  firstIter_self : c.loopHeader b = true → r.firstIter b = false
  fixed_self : c.loopHeader b = true → r.fixed b = false
  headerState_self : c.loopHeader b = true → r.headerState b = some x
  firstIter_other : ∀ a, a ≠ b ∨ c.loopHeader b = false → r.firstIter a = st.firstIter a
  fixed_other : ∀ a, a ≠ b ∨ c.loopHeader b = false → r.fixed a = st.fixed a
  headerState_other : ∀ a, a ≠ b ∨ c.loopHeader b = false → r.headerState a = st.headerState a

namespace Opened

variable {hc : c.Consistent} {p : Problem B D} {st r : Store B E D} {done : B → Prop} {b : B} {e : E} {x : D}

theorem of_entered (hheader : c.loopHeader b = true) (hr : Store.Entered c st b false x r) :
    Opened c st b x r where
  mark_taken e htaken := by
    have hback := htaken.2.resolve_left (by simp [hheader])
    simp [hr.mark_eq, htaken.1, hback]
  mark_kept e hkept := by
    rw [hr.mark_eq, if_neg]
    rintro ⟨htarget, hfalse | hback⟩
    · exact absurd hfalse (by decide)
    · exact hkept ⟨htarget, .inr hback⟩
  firstIter_self _ := by rw [hr.firstIter_eq, Function.update_self]
  fixed_self _ := by rw [hr.fixed_eq, Function.update_self]
  headerState_self _ := by simp [hr.headerState_eq]
  firstIter_other a hother := by
    rw [hr.firstIter_eq, Function.update_of_ne (hother.resolve_right (by simp [hheader]))]
  fixed_other a hother := by
    rw [hr.fixed_eq, Function.update_of_ne (hother.resolve_right (by simp [hheader]))]
  headerState_other a hother := by
    rw [hr.headerState_eq, Function.update_of_ne (hother.resolve_right (by simp [hheader]))]

theorem of_unmarked (hc : c.Consistent) (hheader : c.loopHeader b = false) :
    Opened c st b x (st.unmarkEdges (c.inEdges b)) := by
  refine ⟨fun e htaken => ?_, fun e hkept => ?_, ?_, ?_, ?_, ?_, ?_, ?_⟩
  · simp [Store.unmarkEdges_mark, hc.mem_inEdges, htaken.1]
  · have htarget : c.target e ≠ b := fun heq => hkept ⟨heq, .inl hheader⟩
    simp [Store.unmarkEdges_mark, hc.mem_inEdges, htarget]
  all_goals simp [hheader]

/-- No out-edge of the block is done before the block gives its state. -/
theorem fresh (hO : Opened c st b x r) (hP : Placed hc st done) (hdone : ¬ done b)
    (hready : Ready c st done b) (hsource : c.source e = b) : r.isEdgeDone c e = false := by
  refine Bool.eq_false_iff.mpr fun hisDone => ?_
  obtain ⟨hmark, hfixed⟩ | ⟨hback, hfirst⟩ := (Store.isEdgeDone_iff e).mp hisDone
  · have hkept : ¬ Taken c b e := by
      intro htaken
      simp [hO.mark_taken e htaken] at hmark
    rw [hO.mark_kept e hkept] at hmark
    obtain ⟨htarget, hvisited⟩ := hP.of_mark e hmark
    have hin : hc.InLoop b (c.source e) := hsource ▸ hc.inLoop_self b
    cases hexit : c.loopExitEdge e with
    | none =>
      rw [hexit, Option.getD_none, hsource] at hvisited
      have hactive := active_of_visited hvisited hdone
      have hne : c.target e ≠ b := fun heq => hkept ⟨heq, .inr (hin.isBack heq)⟩
      exact htarget (hP.done_of_inLoop hdone hready hactive (hc.stays hexit (hP.header b hactive).1 hin) hne)
    | some h =>
      have hfixed := hfixed h hexit
      by_cases hne : h = b
      · rw [hne, hO.fixed_self (hne ▸ hc.exit_header hexit)] at hfixed
        exact absurd hfixed (by decide)
      · rw [hO.fixed_other h (.inl hne), hP.fixed_active h
          (hP.active_of_inLoop hdone hready (hsource ▸ hc.exit_source hexit) hne)] at hfixed
        exact absurd hfixed (by decide)
  · by_cases hne : c.target e = b
    · rw [hne, hO.firstIter_self (hne ▸ hc.loopHeader_target hback)] at hfirst
      exact absurd hfirst (by decide)
    · rw [hO.firstIter_other _ (.inl hne),
        hP.active_of_inLoop hdone hready (hsource ▸ hc.inLoop_source hback) hne] at hfirst
      exact absurd hfirst (by decide)

theorem advanced (hO : Opened c st b x r) (hP : Placed hc st done) (hdone : ¬ done b)
    (hready : Ready c st done b) (out : D) : Advanced c st b x out (r.addSuccessors c b out) := by
  have hM := Store.marked_addSuccessors hc r b out fun e hsource => hO.fresh hP hdone hready hsource
  refine ⟨fun e hsource htaken => ?_, fun e hsource hkept => ?_, fun e hsource htaken => ?_,
    fun e hsource hkept => ?_, ?_, ?_, ?_, ?_, ?_, ?_, hM.nodup, fun a => ?_⟩
  · rw [hM.mark_eq, if_pos ((hc.mem_outEdges e b).mpr hsource), hO.mark_taken e htaken, Option.getD_none]
  · rw [hM.mark_eq, if_pos ((hc.mem_outEdges e b).mpr hsource), hO.mark_kept e hkept]
  · rw [hM.mark_eq, if_neg fun hmem => hsource ((hc.mem_outEdges e b).mp hmem), hO.mark_taken e htaken]
  · rw [hM.mark_eq, if_neg fun hmem => hsource ((hc.mem_outEdges e b).mp hmem), hO.mark_kept e hkept]
  · rw [hM.firstIter_eq]
    exact hO.firstIter_self
  · rw [hM.fixed_eq]
    exact hO.fixed_self
  · rw [hM.headerState_eq]
    exact hO.headerState_self
  · rw [hM.firstIter_eq]
    exact hO.firstIter_other
  · rw [hM.fixed_eq]
    exact hO.fixed_other
  · rw [hM.headerState_eq]
    exact hO.headerState_other
  · rw [hM.mem_iff]
    simp [hc.mem_outEdges]

end Opened

/-- The blocks done after a visit of `b`: the loop of a header starts again. -/
def restart (hc : c.Consistent) (done : B → Prop) (b : B) : B → Prop :=
  fun a => (done a ∧ ¬ hc.InLoop b a) ∨ (a = b ∧ c.loopHeader b = false)

namespace Advanced

variable {hc : c.Consistent} {st : Store B E D} {done : B → Prop} {a b h : B} {e : E} {x out : D}
  {r : Store B E D × List B}

theorem isSome_out (hA : Advanced c st b x out r) (hsource : c.source e = b) : (r.1.mark e).isSome = true := by
  by_cases htaken : Taken c b e
  · rw [hA.mark_taken_out e hsource htaken, Option.isSome_some]
  · rw [hA.mark_out e hsource htaken, Option.isSome_some]

theorem not_restart_self (hdone : ¬ done b) (hheader : c.loopHeader b = true) : ¬ restart hc done b b := by
  rintro (⟨hb, -⟩ | ⟨-, hfalse⟩)
  · exact hdone hb
  · rw [hheader] at hfalse
    exact absurd hfalse (by decide)

theorem restart_of_ne (hne : a ≠ b) : restart hc done b a ↔ done a ∧ ¬ hc.InLoop b a := by
  simp [restart, hne]

theorem restart_header (hdone : ¬ done b) (hheader : c.loopHeader h = true) :
    restart hc done b h ↔ done h ∧ ¬ hc.InLoop b h := by
  by_cases hne : h = b
  · subst hne
    exact iff_of_false (not_restart_self hdone hheader) fun hb => hdone hb.1
  · exact restart_of_ne hne

section

variable (hP : Placed hc st done) (hdone : ¬ done b) (hready : Ready c st done b)
  (hA : Advanced c st b x out r)

include hP hdone hready hA

theorem visited_iff : Visited r.1 (restart hc done b) a ↔ a = b ∨ (Visited st done a ∧ ¬ hc.InLoop b a) := by
  by_cases hab : a = b
  · subst hab
    refine iff_of_true ?_ (.inl rfl)
    cases hheader : c.loopHeader a with
    | true => exact .inr (hA.firstIter_self hheader)
    | false => exact .inl (.inr ⟨rfl, hheader⟩)
  · simp only [Visited, restart_of_ne hab, hA.firstIter_other a (.inl hab), hab, false_or]
    constructor
    · rintro (⟨ha, hout⟩ | hactive)
      · exact ⟨.inl ha, hout⟩
      · refine ⟨.inr hactive, fun hin => (hP.header a hactive).2 ?_⟩
        exact hP.done_of_visited_inLoop hdone hready hin (.inr hactive) hin hab
    · rintro ⟨ha | hactive, hout⟩
      · exact .inl ⟨ha, hout⟩
      · exact .inr hactive

theorem visited_self : Visited r.1 (restart hc done b) b :=
  (visited_iff hP hdone hready hA).mpr (.inl rfl)

/-- What the edge is finished for stays, outside of the loop that starts again. -/
theorem finished_of (hfinished : Finished c st done e) (hout : ¬ hc.InLoop b (c.source e)) :
    Finished c r.1 (restart hc done b) e := by
  cases hexit : c.loopExitEdge e with
  | none =>
    rw [finished_none hexit] at hfinished ⊢
    exact (visited_iff hP hdone hready hA).mpr (.inr ⟨hfinished, hout⟩)
  | some h =>
    rw [finished_some hexit] at hfinished ⊢
    rw [restart_header hdone (hc.exit_header hexit)]
    exact ⟨hfinished, fun hin => hout (hin.trans (hc.exit_source hexit))⟩

theorem of_finished (hfinished : Finished c r.1 (restart hc done b) e) :
    c.source e = b ∨ (Finished c st done e ∧ ¬ hc.InLoop b (c.source e)) := by
  cases hexit : c.loopExitEdge e with
  | none =>
    rw [finished_none hexit] at hfinished ⊢
    exact (visited_iff hP hdone hready hA).mp hfinished
  | some h =>
    rw [finished_some hexit] at hfinished ⊢
    obtain ⟨hh, hout⟩ := (restart_header hdone (hc.exit_header hexit)).mp hfinished
    refine .inr ⟨hh, fun hin => ?_⟩
    obtain hb | hb := (hc.exit_source hexit).nested hin
    · exact hdone (hP.loop_done h b hb hh)
    · exact hout hb

/-- An edge out of the block taken is marked in the right place. -/
theorem of_mark_out (hsource : c.source e = b) : ¬ restart hc done b (c.target e) ∧
    Visited r.1 (restart hc done b) ((c.loopExitEdge e).getD (c.source e)) := by
  rw [visited_iff hP hdone hready hA]
  constructor
  · rintro (⟨ht, hout⟩ | ⟨heq, hheader⟩)
    · exact hP.target_not_done hdone hready hsource hout ht
    · have hin : hc.InLoop b (c.source e) := hsource ▸ hc.inLoop_self b
      have hback := hin.isBack heq
      rw [← heq, hc.loopHeader_target hback] at hheader
      exact absurd hheader (by decide)
  · cases hexit : c.loopExitEdge e with
    | none => exact .inl hsource
    | some h =>
      have hin := hc.exit_source hexit
      rw [hsource] at hin
      by_cases hne : h = b
      · exact .inl hne
      · exact .inr ⟨.inr (hP.active_of_inLoop hdone hready hin hne), fun hin' => hne (hin.antisymm hin')⟩

/-- The other marks are the ones that were there, outside of the loop that starts again. -/
theorem of_mark_other (hsource : c.source e ≠ b) (hmark : (r.1.mark e).isSome = true) :
    ¬ restart hc done b (c.target e) ∧ Visited r.1 (restart hc done b) ((c.loopExitEdge e).getD (c.source e)) := by
  rw [visited_iff hP hdone hready hA]
  have hkept : ¬ Taken c b e := by
    intro htaken
    simp [hA.mark_taken e hsource htaken] at hmark
  rw [hA.mark_kept e hsource hkept] at hmark
  obtain ⟨htarget, hvisited⟩ := hP.of_mark e hmark
  have hforward : c.target e = b → c.loopHeader b = true ∧ c.isBack e = false := by
    intro heq
    simpa [Taken, heq] using hkept
  constructor
  · rintro (⟨ht, -⟩ | ⟨heq, hheader⟩)
    · exact htarget ht
    · rw [(hforward heq).1] at hheader
      exact absurd hheader (by decide)
  · refine or_iff_not_imp_left.mpr fun hother => ⟨hvisited, fun hin => ?_⟩
    have hinsource : hc.InLoop b (c.source e) := by
      cases hexit : c.loopExitEdge e with
      | none => simpa [hexit] using hin
      | some h =>
        rw [hexit, Option.getD_some] at hin
        exact hin.trans (hc.exit_source hexit)
    have hne : c.target e ≠ b := by
      intro heq
      rw [hinsource.isBack heq] at hforward
      exact absurd (hforward heq).2 (by decide)
    -- the loop of `b` has been visited, so it is done whole, and the edge leaves it
    have hout : ¬ hc.InLoop b (c.target e) := fun hin' =>
      htarget (hP.done_of_visited_inLoop hdone hready hin hvisited hin' hne)
    obtain ⟨h, hexit, hh⟩ := hc.exit_of_leaves (hinsource.loopHeader hsource) hinsource hout
    rw [hexit, Option.getD_some] at hin hother
    exact hother (hh.antisymm hin)

/-- A visit of a block that gives a state to its successors keeps the invariant. -/
theorem placed : Placed hc r.1 (restart hc done b) where
  header a hactive := by
    by_cases hab : a = b
    · subst hab
      cases hheader : c.loopHeader a with
      | true => exact ⟨rfl, not_restart_self hdone hheader⟩
      | false =>
        rw [hA.firstIter_other a (.inr hheader)] at hactive
        rw [(hP.header a hactive).1] at hheader
        exact absurd hheader (by decide)
    · rw [hA.firstIter_other a (.inl hab)] at hactive
      rw [restart_of_ne hab]
      exact ⟨(hP.header a hactive).1, fun ha => (hP.header a hactive).2 ha.1⟩
  fixed_done a hheader ha := by
    obtain ⟨hold, hout⟩ := (restart_header hdone hheader).mp ha
    have hab : a ≠ b := fun heq => hout (heq ▸ hc.inLoop_self b)
    rw [hA.fixed_other a (.inl hab)]
    exact hP.fixed_done a hheader hold
  fixed_active a hactive := by
    by_cases hab : a ≠ b ∨ c.loopHeader b = false
    · rw [hA.firstIter_other a hab] at hactive
      rw [hA.fixed_other a hab]
      exact hP.fixed_active a hactive
    · push Not at hab
      rw [hab.1, hA.fixed_self (by simpa using hab.2)]
  loop_done h a hin hh := by
    obtain ⟨hold, hout⟩ | ⟨rfl, hheader⟩ := hh
    · refine .inl ⟨hP.loop_done h a hin hold, fun hina => ?_⟩
      obtain hb | hb := hin.nested hina
      · exact hdone (hP.loop_done h b hb hold)
      · exact hout hb
    · rw [hc.eq_of_inLoop hheader hin]
      exact .inr ⟨rfl, hheader⟩
  loop_visited h a hin ha := by
    rw [visited_iff hP hdone hready hA] at ha ⊢
    obtain rfl | ⟨hvisited, hout⟩ := ha
    · by_cases hne : h = a
      · exact .inl hne
      · exact .inr ⟨.inr (hP.active_of_inLoop hdone hready hin hne), fun hin' => hne (hin.antisymm hin')⟩
    · exact .inr ⟨hP.loop_visited h a hin hvisited, fun hh => hout (hh.trans hin)⟩
  order e hforward hvisited := by
    obtain htarget | ⟨hvisited, hout⟩ := (visited_iff hP hdone hready hA).mp hvisited
    · refine finished_of hP hdone hready hA (hready.finished htarget (.inl hforward)) fun hin => ?_
      rw [hin.isBack htarget] at hforward
      exact absurd hforward (by decide)
    · have hfinished := hP.order e hforward hvisited
      exact finished_of hP hdone hready hA hfinished
        (hP.source_not_inLoop hdone hready hfinished hout)
  marked e hvisited htarget := by
    obtain hsource | ⟨hvisited, hout⟩ := (visited_iff hP hdone hready hA).mp hvisited
    · exact hA.isSome_out hsource
    have hsource : c.source e ≠ b := fun heq => hout (heq ▸ hc.inLoop_self b)
    have hkept : ¬ Taken c b e := by
      rintro ⟨rfl, hheader | hback⟩
      · exact htarget (.inr ⟨rfl, hheader⟩)
      · exact hout (hc.inLoop_source hback)
    rw [hA.mark_kept e hsource hkept]
    refine hP.marked e hvisited fun ht => ?_
    by_cases heq : c.target e = b
    · exact hdone (heq ▸ ht)
    · exact htarget (.inl ⟨ht, fun hin => hout (hin.source heq)⟩)
  of_mark e hmark := by
    by_cases hsource : c.source e = b
    · exact of_mark_out hP hdone hready hA hsource
    · exact of_mark_other hP hdone hready hA hsource hmark

/-- The other blocks of the work-list are outside of the loop that starts again, and wait for no edge out of
the block taken. -/
theorem still_ready (hne : a ≠ b) (ha : ¬ done a) (hreadya : Ready c st done a) :
    ¬ hc.InLoop b a ∧ (∀ e, c.source e = b → c.target e ≠ a) ∧ Ready c r.1 (restart hc done b) a := by
  have hout : ¬ hc.InLoop b a := by
    intro hin
    have hentry : a ≠ c.entry := by
      rintro rfl
      exact hne (hc.inLoop_entry hin).symm
    obtain ⟨e, hforward, rfl⟩ := hc.exists_forward hentry
    have hvisited := hP.visited_source (hreadya.finished rfl (.inl hforward))
    exact ha (hP.done_of_visited_inLoop hdone hready (hin.source hne) hvisited hin hne)
  refine ⟨hout, ?_, fun e htarget => ?_⟩
  · rintro e rfl rfl
    obtain hfinished | ⟨hback, hfirst⟩ := hreadya e rfl
    · exact hout (hP.active_of_finished hfinished hdone).2.2
    · rw [hP.active_of_inLoop hdone hready (hc.inLoop_source hback) hne] at hfirst
      exact absurd hfirst (by decide)
  · subst htarget
    obtain hfinished | ⟨hback, hfirst⟩ := hreadya e rfl
    · exact .inl (finished_of hP hdone hready hA hfinished
        (hP.source_not_inLoop hdone hready hfinished hout))
    · exact .inr ⟨hback, by rw [hA.firstIter_other _ (.inl hne), hfirst]⟩

/-- A block that is ready after the visit and gets no state from it was ready before. -/
theorem was_ready (ha : ¬ restart hc done b a) (hreadya : Ready c r.1 (restart hc done b) a)
    (hother : ∀ e, c.source e = b → c.target e ≠ a) : a ≠ b ∧ ¬ done a ∧ Ready c st done a := by
  have hne : a ≠ b := by
    rintro rfl
    have hheader : c.loopHeader a = true := by
      by_contra hheader
      exact ha (.inr ⟨rfl, Bool.eq_false_iff.mpr hheader⟩)
    obtain ⟨e, hback, htarget⟩ := hc.exists_back hheader
    have hfinished := hreadya.finished htarget (.inr (hA.firstIter_self hheader))
    obtain hsource | ⟨-, hout⟩ := of_finished hP hdone hready hA hfinished
    · exact hother e hsource htarget
    · exact hout (htarget ▸ hc.inLoop_source hback)
  have hout : ¬ hc.InLoop b a := by
    intro hin
    have hentry : a ≠ c.entry := by
      rintro rfl
      exact hne (hc.inLoop_entry hin).symm
    obtain ⟨e, hforward, rfl⟩ := hc.exists_forward hentry
    obtain hsource | ⟨-, hout⟩ := of_finished hP hdone hready hA (hreadya.finished rfl (.inl hforward))
    · exact hother e hsource rfl
    · exact hout (hin.source hne)
  refine ⟨hne, fun hold => ha (.inl ⟨hold, hout⟩), fun e htarget => ?_⟩
  obtain hfinished | ⟨hback, hfirst⟩ := hreadya e htarget
  · obtain hsource | ⟨hold, -⟩ := of_finished hP hdone hready hA hfinished
    · exact absurd htarget (hother e hsource)
    · exact .inl hold
  · rw [hA.firstIter_other a (.inl hne)] at hfirst
    exact .inr ⟨hback, hfirst⟩

omit hdone hready in
theorem listed {workList : List B} (hL : Listed c st workList done) (hmem : b ∈ workList) :
    Listed c r.1 (r.2 ++ workList.erase b) (restart hc done b) := by
  obtain ⟨hdone, hready⟩ := (hL.mem_iff b).mp hmem
  have hP' := placed hP hdone hready hA
  have hwaiting : ∀ a, a ∈ workList.erase b ↔ a ≠ b ∧ ¬ done a ∧ Ready c st done a := by
    intro a
    rw [hL.nodup.mem_erase_iff, hL.mem_iff]
  have hpushed : ∀ a, a ∈ r.2 ↔
      (∃ e, c.source e = b ∧ c.target e = a) ∧ Ready c r.1 (restart hc done b) a := by
    intro a
    rw [hA.mem_iff]
    refine and_congr_right fun ⟨e, hsource, htarget⟩ => ?_
    subst htarget
    exact hP'.tryAddToWorkList_iff (hP'.of_mark e (hA.isSome_out hsource)).1
  refine ⟨List.nodup_append.mpr ⟨hA.nodup, hL.nodup.erase b, ?_⟩, fun a => ?_⟩
  · rintro a hnew _ hold rfl
    obtain ⟨⟨e, hsource, htarget⟩, -⟩ := (hpushed a).mp hnew
    obtain ⟨hne, ha, hreadya⟩ := (hwaiting a).mp hold
    exact (still_ready hP hdone hready hA hne ha hreadya).2.1 e hsource htarget
  · rw [List.mem_append, hpushed, hwaiting]
    constructor
    · rintro (⟨⟨e, hsource, rfl⟩, hreadya⟩ | ⟨hne, ha, hreadya⟩)
      · exact ⟨(hP'.of_mark e (hA.isSome_out hsource)).1, hreadya⟩
      · obtain ⟨-, -, hreadya'⟩ := still_ready hP hdone hready hA hne ha hreadya
        exact ⟨fun ha' => ha ((restart_of_ne hne).mp ha').1, hreadya'⟩
    · rintro ⟨ha, hreadya⟩
      by_cases hout : ∃ e, c.source e = b ∧ c.target e = a
      · exact .inl ⟨hout, hreadya⟩
      · push Not at hout
        exact .inr (was_ready hP hdone hready hA ha hreadya hout)

end

end Advanced

/-- The state after a visit of the header `b` that reaches its fixpoint, and the blocks it pushes. -/
structure LoopLeft (c : Cfg B E) (p : Problem B D) (st : Store B E D) (b : B)
    (r : Store B E D × List B) : Prop where
  mark_in : ∀ e, c.target e = b → r.1.mark e = none
  mark_exit : ∀ e, c.target e ≠ b → c.loopExitEdge e = some b →
    r.1.mark e = (st.mark e).map (p.leaveContext b .loop)
  mark_kept : ∀ e, c.target e ≠ b → c.loopExitEdge e ≠ some b → r.1.mark e = st.mark e
  firstIter_eq : r.1.firstIter = Function.update st.firstIter b true
  fixed_eq : r.1.fixed = Function.update st.fixed b true
  headerState_other : ∀ a, a ≠ b → r.1.headerState a = st.headerState a
  nodup : r.2.Nodup
  mem_iff : ∀ a, a ∈ r.2 ↔
    (∃ e, c.loopExitEdge e = some b ∧ c.target e = a) ∧ r.1.tryAddToWorkList c a = true

/-- The blocks done once `b` is. -/
def settle (done : B → Prop) (b : B) : B → Prop :=
  fun a => done a ∨ a = b

namespace LoopLeft

variable {hc : c.Consistent} {p : Problem B D} {st : Store B E D} {done : B → Prop} {a b h : B} {e : E} {x : D}
  {r : Store B E D × List B}

theorem isSome_iff (hF : LoopLeft c p st b r) (hne : c.target e ≠ b) :
    (r.1.mark e).isSome = (st.mark e).isSome := by
  by_cases hexit : c.loopExitEdge e = some b
  · rw [hF.mark_exit e hne hexit, Option.isSome_map]
  · rw [hF.mark_kept e hne hexit]

theorem finished_iff (hF : LoopLeft c p st b r) (hvisited : Visited st done b) :
    Finished c r.1 (settle done b) e ↔ Finished c st done e ∨ c.loopExitEdge e = some b := by
  cases hexit : c.loopExitEdge e with
  | none =>
    rw [finished_none hexit, finished_none hexit]
    by_cases hne : c.source e = b
    · rw [hne]
      exact iff_of_true (.inl (.inr rfl)) (.inl hvisited)
    · simp [Visited, settle, hne, hF.firstIter_eq]
  | some h => simp [finished_some hexit, settle]

theorem exit_not_settled (hP : Placed hc st done) (hdone : ¬ done b) (hexit : c.loopExitEdge e = some b) :
    ¬ settle done b (c.target e) := by
  rintro (htarget | heq)
  · exact hP.exit_not_done hdone hexit htarget
  · exact hc.exit_target hexit (heq ▸ hc.inLoop_self b)

theorem of_left (hc : c.Consistent) {r₀ : Store B E D} (hr : Store.Entered c st b true x r₀)
    (hl : Store.Left c p r₀ b (c.exitList b) r) : LoopLeft c p st b r := by
  have hne : ∀ e, c.loopExitEdge e = some b → c.target e ≠ b := by
    intro e hexit heq
    exact hc.exit_target hexit (heq ▸ hc.inLoop_self b)
  have hsame : ∀ a, r.1.tryAddToWorkList c a = r₀.tryAddToWorkList c a := by
    intro a
    refine Store.tryAddToWorkList_congr hc a fun e _ =>
      Store.isEdgeDone_congr e ?_ hl.fixed_eq hl.firstIter_eq
    rw [hl.mark_eq]
    split <;> simp
  refine ⟨fun e htarget => ?_, fun e htarget hexit => ?_, fun e htarget hexit => ?_, ?_, ?_, fun a hab => ?_,
    hl.nodup, fun a => ?_⟩
  · rw [hl.mark_eq, if_neg fun hmem => hne e ((hc.mem_exitList e b).mp hmem) htarget, hr.mark_eq]
    simp [htarget]
  · rw [hl.mark_eq, if_pos ((hc.mem_exitList e b).mpr hexit), hr.mark_eq]
    simp [htarget]
  · rw [hl.mark_eq, if_neg fun hmem => hexit ((hc.mem_exitList e b).mp hmem), hr.mark_eq]
    simp [htarget]
  · rw [hl.firstIter_eq, hr.firstIter_eq]
  · rw [hl.fixed_eq, hr.fixed_eq]
  · rw [hl.headerState_eq, hr.headerState_eq, Function.update_of_ne hab]
  · rw [hl.mem_iff, hsame]
    simp [hc.mem_exitList]

section

variable (hP : Placed hc st done) (hdone : ¬ done b) (hready : Ready c st done b)
  (hactive : st.firstIter b = false) (hF : LoopLeft c p st b r)

include hP hdone hready hactive hF

omit hP hdone hready in
theorem visited_iff : Visited r.1 (settle done b) a ↔ Visited st done a := by
  by_cases hab : a = b
  · subst hab
    exact iff_of_true (.inl (.inr rfl)) (.inr hactive)
  · simp [Visited, settle, hab, hF.firstIter_eq]

/-- A visit that reaches the fixpoint of a loop keeps the invariant. -/
theorem placed : Placed hc r.1 (settle done b) where
  header a ha := by
    rw [hF.firstIter_eq] at ha
    have hab : a ≠ b := by
      rintro rfl
      simp at ha
    rw [Function.update_of_ne hab] at ha
    exact ⟨(hP.header a ha).1, fun hsettled => hsettled.elim (hP.header a ha).2 hab⟩
  fixed_done a hheader ha := by
    rw [hF.fixed_eq]
    by_cases hab : a = b
    · rw [hab, Function.update_self]
    · rw [Function.update_of_ne hab]
      exact hP.fixed_done a hheader (ha.resolve_right hab)
  fixed_active a ha := by
    rw [hF.firstIter_eq] at ha
    have hab : a ≠ b := by
      rintro rfl
      simp at ha
    rw [Function.update_of_ne hab] at ha
    rw [hF.fixed_eq, Function.update_of_ne hab]
    exact hP.fixed_active a ha
  loop_done h a hin hh := by
    obtain hold | rfl := hh
    · exact .inl (hP.loop_done h a hin hold)
    · by_cases hab : a = h
      · exact .inr hab
      · exact .inl (hP.done_of_inLoop hdone hready hactive hin hab)
  loop_visited h a hin ha := by
    rw [visited_iff hactive hF] at ha ⊢
    exact hP.loop_visited h a hin ha
  order e hforward ha := by
    rw [visited_iff hactive hF] at ha
    exact (hF.finished_iff (.inr hactive)).mpr (.inl (hP.order e hforward ha))
  marked e hvisited htarget := by
    rw [visited_iff hactive hF] at hvisited
    have hne : c.target e ≠ b := fun heq => htarget (.inr heq)
    rw [hF.isSome_iff hne]
    exact hP.marked e hvisited fun ht => htarget (.inl ht)
  of_mark e hmark := by
    have hne : c.target e ≠ b := by
      intro heq
      simp [hF.mark_in e heq] at hmark
    rw [hF.isSome_iff hne] at hmark
    obtain ⟨htarget, hvisited⟩ := hP.of_mark e hmark
    rw [visited_iff hactive hF]
    exact ⟨fun ht => ht.elim htarget hne, hvisited⟩

omit hdone hready in
theorem listed {workList : List B} (hL : Listed c st workList done) (hmem : b ∈ workList) :
    Listed c r.1 (r.2 ++ workList.erase b) (settle done b) := by
  obtain ⟨hdone, hready⟩ := (hL.mem_iff b).mp hmem
  have hP' := placed hP hdone hready hactive hF
  have hwaiting : ∀ a, a ∈ workList.erase b ↔ a ≠ b ∧ ¬ done a ∧ Ready c st done a := by
    intro a
    rw [hL.nodup.mem_erase_iff, hL.mem_iff]
  have hpushed : ∀ a, a ∈ r.2 ↔
      (∃ e, c.loopExitEdge e = some b ∧ c.target e = a) ∧ Ready c r.1 (settle done b) a := by
    intro a
    rw [hF.mem_iff]
    refine and_congr_right fun ⟨e, hexit, htarget⟩ => ?_
    subst htarget
    exact hP'.tryAddToWorkList_iff (exit_not_settled hP hdone hexit)
  have hfirst : ∀ a, a ≠ b → r.1.firstIter a = st.firstIter a := by
    intro a hne
    rw [hF.firstIter_eq, Function.update_of_ne hne]
  refine ⟨List.nodup_append.mpr ⟨hF.nodup, hL.nodup.erase b, ?_⟩, fun a => ?_⟩
  · rintro a hnew _ hold rfl
    obtain ⟨⟨e, hexit, rfl⟩, -⟩ := (hpushed a).mp hnew
    obtain ⟨hne, ha, hreadya⟩ := (hwaiting _).mp hold
    obtain hfinished | ⟨hback, hfirst⟩ := hreadya e rfl
    · exact hdone ((finished_some hexit).mp hfinished)
    · obtain hb | hb := (hc.exit_source hexit).nested (hc.inLoop_source hback)
      · exact hc.exit_target hexit hb
      · rw [hP.active_of_inLoop hdone hready hb hne] at hfirst
        exact absurd hfirst (by decide)
  · rw [List.mem_append, hpushed, hwaiting]
    constructor
    · rintro (⟨⟨e, hexit, rfl⟩, hreadya⟩ | ⟨hne, ha, hreadya⟩)
      · exact ⟨exit_not_settled hP hdone hexit, hreadya⟩
      · refine ⟨fun hsettled => hsettled.elim ha hne, fun e htarget => ?_⟩
        rw [hF.finished_iff (.inr hactive), hfirst a hne]
        exact (hreadya e htarget).imp_left .inl
    · rintro ⟨ha, hreadya⟩
      by_cases hexit : ∃ e, c.loopExitEdge e = some b ∧ c.target e = a
      · exact .inl ⟨hexit, hreadya⟩
      have hne : a ≠ b := fun heq => ha (.inr heq)
      refine .inr ⟨hne, fun hold => ha (.inl hold), fun e htarget => ?_⟩
      have hready' := hreadya e htarget
      rw [hF.finished_iff (.inr hactive), hfirst a hne] at hready'
      exact hready'.imp_left fun hfinished =>
        hfinished.resolve_right fun heq => hexit ⟨e, heq, htarget⟩

end

end LoopLeft

end Otawa.HalfAbsInt
