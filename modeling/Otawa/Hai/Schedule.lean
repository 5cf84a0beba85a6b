import Otawa.Hai.Store

/-!
# The order of the visits

Which edges are marked and which blocks are on the work-list, at every point of the iteration over one CFG,
whatever block is taken next. The invariant `Placed` is stated with the set of the blocks that are done: the
blocks visited in the current iteration of their loops, and the headers whose fixpoint is reached. A visit
of a header starts its loop again, so that the blocks of the loop are done no more (`restart`).
-/

set_option linter.unusedSectionVars false

namespace Otawa.HalfAbsInt

variable {B E D : Type} [DecidableEq B] [DecidableEq E] [SemilatticeSup D] [OrderBot D]
variable {c : Cfg B E}

/-- The block is done, or is a header that iterates. -/
def Visited (st : Store B E D) (done : B → Prop) (b : B) : Prop :=
  done b ∨ st.firstIter b = false

/-- The state of the edge is the one its target waits for: the fixpoint of the loops it leaves is reached. -/
def Finished (c : Cfg B E) (st : Store B E D) (done : B → Prop) (e : E) : Prop :=
  match c.loopExitEdge e with
  | none => Visited st done (c.source e)
  | some h => done h

/-- Every in-edge of the block is finished, back edges to a header at its first iteration apart. -/
def Ready (c : Cfg B E) (st : Store B E D) (done : B → Prop) (b : B) : Prop :=
  ∀ e, c.target e = b → Finished c st done e ∨ (c.isBack e = true ∧ st.firstIter b = true)

/-- What is known between two visits of the blocks that are done and of the edges that are marked. -/
structure Placed (hc : c.Consistent) (st : Store B E D) (done : B → Prop) : Prop where
  header : ∀ b, st.firstIter b = false → c.loopHeader b = true ∧ ¬ done b
  fixed_done : ∀ b, c.loopHeader b = true → done b → st.fixed b = true
  fixed_active : ∀ b, st.firstIter b = false → st.fixed b = false
  loop_done : ∀ h b, hc.InLoop h b → done h → done b
  loop_visited : ∀ h b, hc.InLoop h b → Visited st done b → Visited st done h
  order : ∀ e, c.isBack e = false → Visited st done (c.target e) → Finished c st done e
  marked : ∀ e, Visited st done (c.source e) → ¬ done (c.target e) → (st.mark e).isSome = true
  of_mark : ∀ e, (st.mark e).isSome = true → ¬ done (c.target e) ∧
    Visited st done ((c.loopExitEdge e).getD (c.source e))

/-- The work-list has the blocks that are ready and not done, each once. -/
structure Listed (c : Cfg B E) (st : Store B E D) (workList : List B) (done : B → Prop) : Prop where
  nodup : workList.Nodup
  mem_iff : ∀ b, b ∈ workList ↔ ¬ done b ∧ Ready c st done b

section Finished

variable {st : Store B E D} {done : B → Prop} {b h : B} {e : E}

theorem finished_none (hexit : c.loopExitEdge e = none) :
    Finished c st done e ↔ Visited st done (c.source e) := by
  simp [Finished, hexit]

theorem finished_some (hexit : c.loopExitEdge e = some h) : Finished c st done e ↔ done h := by
  simp [Finished, hexit]

theorem active_of_visited (hvisited : Visited st done b) (hdone : ¬ done b) : st.firstIter b = false :=
  hvisited.resolve_left hdone

theorem Ready.finished (hready : Ready c st done b) (htarget : c.target e = b)
    (hback : c.isBack e = false ∨ st.firstIter b = false) : Finished c st done e := by
  refine (hready e htarget).resolve_right fun ⟨hback', hfirst⟩ => ?_
  simp [hback', hfirst] at hback

end Finished

namespace Placed

variable {hc : c.Consistent} {st : Store B E D} {done : B → Prop} {a b h k : B} {e : E}

section

variable (hP : Placed hc st done)
include hP

theorem done_of_visited (hheader : c.loopHeader b = false) (hvisited : Visited st done b) : done b := by
  refine hvisited.resolve_right fun hactive => ?_
  rw [(hP.header b hactive).1] at hheader
  exact absurd hheader (by decide)

/-- The entry is no header. -/
theorem ne_entry (hactive : st.firstIter b = false) : b ≠ c.entry := by
  rintro rfl
  have hheader := (hP.header _ hactive).1
  rw [hc.loopHeader_entry] at hheader
  exact absurd hheader (by decide)

theorem visited_source (hfinished : Finished c st done e) : Visited st done (c.source e) := by
  cases hexit : c.loopExitEdge e with
  | none => exact (finished_none hexit).mp hfinished
  | some h => exact .inl (hP.loop_done h _ (hc.exit_source hexit) ((finished_some hexit).mp hfinished))

/-- When the state of an edge is finished, the loops that the edge leaves are done. -/
theorem done_of_leaves (hfinished : Finished c st done e)
    (hin : hc.InLoop k (c.source e)) (hout : ¬ hc.InLoop k (c.target e)) : done k := by
  by_cases hheader : c.loopHeader k = true
  · obtain ⟨h, hexit, hk⟩ := hc.exit_of_leaves hheader hin hout
    exact hP.loop_done h k hk ((finished_some hexit).mp hfinished)
  · have hheader := Bool.eq_false_iff.mpr hheader
    have hvisited := hP.visited_source hfinished
    rw [hc.eq_of_inLoop hheader hin] at hvisited
    exact hP.done_of_visited hheader hvisited

/-- A finished edge out of a block that is not done goes from a header that iterates into its loop. -/
theorem active_of_finished (hfinished : Finished c st done e)
    (hdone : ¬ done (c.source e)) :
    c.loopExitEdge e = none ∧ st.firstIter (c.source e) = false ∧ hc.InLoop (c.source e) (c.target e) := by
  cases hexit : c.loopExitEdge e with
  | none =>
    have hactive := active_of_visited ((finished_none hexit).mp hfinished) hdone
    exact ⟨rfl, hactive, hc.stays hexit (hP.header _ hactive).1 (hc.inLoop_self _)⟩
  | some h =>
    exact absurd (hP.loop_done h _ (hc.exit_source hexit) ((finished_some hexit).mp hfinished)) hdone

/-- In terms of the marks: the target of an edge waits for it until it is finished. -/
theorem isEdgeDone_iff (hdone : ¬ done (c.target e)) :
    st.isEdgeDone c e = true ↔
      Finished c st done e ∨ (c.isBack e = true ∧ st.firstIter (c.target e) = true) := by
  rw [Store.isEdgeDone_iff]
  refine or_congr_left ?_
  cases hexit : c.loopExitEdge e with
  | none =>
    rw [finished_none hexit]
    refine ⟨fun ⟨hmark, _⟩ => ?_, fun hvisited => ⟨hP.marked e hvisited hdone, by simp⟩⟩
    simpa [hexit] using (hP.of_mark e hmark).2
  | some h =>
    rw [finished_some hexit]
    constructor
    · rintro ⟨hmark, hfixed⟩
      have hvisited := (hP.of_mark e hmark).2
      rw [hexit, Option.getD_some] at hvisited
      refine hvisited.resolve_right fun hactive => ?_
      have hfalse := hP.fixed_active h hactive
      rw [hfixed h rfl] at hfalse
      exact absurd hfalse (by decide)
    · intro hh
      refine ⟨hP.marked e (.inl (hP.loop_done h _ (hc.exit_source hexit) hh)) hdone, ?_⟩
      rintro _ ⟨⟩
      exact hP.fixed_done h (hc.exit_header hexit) hh

theorem tryAddToWorkList_iff (hdone : ¬ done b) : st.tryAddToWorkList c b = true ↔ Ready c st done b := by
  rw [Store.tryAddToWorkList_iff hc]
  refine forall₂_congr fun e htarget => ?_
  subst htarget
  exact hP.isEdgeDone_iff hdone

/-- The target of an edge that leaves a loop is not done before the loop is. -/
theorem exit_not_done (hdone : ¬ done b) (hexit : c.loopExitEdge e = some b) : ¬ done (c.target e) := by
  intro htarget
  cases hisBack : c.isBack e with
  | true =>
    obtain hb | hb := (hc.exit_source hexit).nested (hc.inLoop_source hisBack)
    · exact hc.exit_target hexit hb
    · exact hdone (hP.loop_done _ b hb htarget)
  | false => exact hdone ((finished_some hexit).mp (hP.order e hisBack (.inl htarget)))

/-- Every mark that a visit of a block of the work-list reads is there. -/
theorem isSome_finished (hdone : ¬ done b) (hready : Ready c st done b)
    (htarget : c.target e = b) (hback : c.isBack e = false ∨ st.firstIter b = false) :
    (st.mark e).isSome = true :=
  hP.marked e (hP.visited_source (hready.finished htarget hback)) (htarget ▸ hdone)

/-- Nothing is visited before the entry is. -/
theorem entry_done (ha : Visited st done a) : done c.entry := by
  refine hP.done_of_visited hc.loopHeader_entry ?_
  induction Flowgraph.forward_reach (G := hc.graph) a with
  | refl => exact ha
  | tail _ hstep ih =>
    obtain ⟨e, rfl, rfl⟩ := hstep.1
    have hforward : c.isBack e = false :=
      Bool.eq_false_iff.mpr fun hback => hstep.2 ((hc.dominates_iff _ _).mp hback)
    exact ih (hP.visited_source (hP.order e hforward ha))

/-- When a block of the work-list is not the entry, the entry is done. -/
theorem entry_done_of_ready (hready : Ready c st done b) (hne : b ≠ c.entry) : done c.entry := by
  obtain ⟨e, hforward, htarget⟩ := hc.exists_forward hne
  exact hP.entry_done (hP.visited_source (hready.finished htarget (.inl hforward)))

end

/-! ### A block of the work-list -/

section Taken

variable (hP : Placed hc st done) (hdone : ¬ done b) (hready : Ready c st done b)

include hP hdone hready

/-- The other loops around a block of the work-list iterate. -/
theorem active_of_inLoop (hin : hc.InLoop h b) (hne : h ≠ b) : st.firstIter h = false := by
  have hentry : b ≠ c.entry := by
    rintro rfl
    exact hne (hc.inLoop_entry hin)
  obtain ⟨e, hforward, rfl⟩ := hc.exists_forward hentry
  have hvisited := hP.visited_source (hready.finished rfl (.inl hforward))
  exact active_of_visited (hP.loop_visited h _ (hin.source hne.symm) hvisited) fun hh =>
    hdone (hP.loop_done h _ hin hh)

/-- When a header that iterates is back on the work-list, the other blocks of its loop are done. -/
theorem done_of_inLoop (hactive : st.firstIter b = false) (hin : hc.InLoop b a) (hne : a ≠ b) : done a := by
  -- along the path from the block to the source of a back edge, every inner loop that is left is done
  suffices hinner : ∀ k, hc.InLoop b k → k ≠ b → hc.InLoop k a → done k from
    hinner a hin hne (hc.inLoop_self a)
  obtain rfl | ⟨u, hback, hab, hpath⟩ := hin
  · exact absurd rfl hne
  induction hpath using Relation.ReflTransGen.head_induction_on with
  | refl =>
    intro k hk hkb hku
    obtain ⟨e, rfl, htarget⟩ := hback.1
    refine hP.done_of_leaves (hready.finished htarget (.inr hactive)) hku ?_
    rw [htarget]
    exact fun hkb' => hkb (hkb'.antisymm hk)
  | @head a a' hedge hpath ih =>
    intro k hk hkb hka
    obtain ⟨⟨e, rfl, rfl⟩, hne'⟩ := hedge
    have hin' : hc.InLoop b (c.target e) := .inr ⟨u, hback, hne', hpath⟩
    have hinner := ih hne' hne'
    by_cases hka' : hc.InLoop k (c.target e)
    · exact hinner k hk hkb hka'
    have hdone' : done (c.target e) := hinner _ hin' hne' (hc.inLoop_self _)
    cases hisBack : c.isBack e with
    | true =>
      have hk' := (hka.nested (hc.inLoop_source hisBack)).resolve_left hka'
      exact hP.loop_done _ k hk' hdone'
    | false => exact hP.done_of_leaves (hP.order e hisBack (.inl hdone')) hka hka'

/-- Once a block of its loop is visited, a header is only taken again with the whole loop done. -/
theorem done_of_visited_inLoop (hin : hc.InLoop b a) (hvisited : Visited st done a) (hin' : hc.InLoop b k)
    (hne : k ≠ b) : done k :=
  hP.done_of_inLoop hdone hready (active_of_visited (hP.loop_visited b a hin hvisited) hdone) hin' hne

/-- An edge that is finished when a block is taken comes from outside of the loop of the block, unless it
goes into it. -/
theorem source_not_inLoop (hfinished : Finished c st done e) (hout : ¬ hc.InLoop b (c.target e)) :
    ¬ hc.InLoop b (c.source e) :=
  fun hin => hdone (hP.done_of_leaves hfinished hin hout)

/-- The target of an out-edge is not done yet. -/
theorem target_not_done (hsource : c.source e = b) (hout : ¬ hc.InLoop b (c.target e)) :
    ¬ done (c.target e) := by
  subst hsource
  intro htarget
  cases hisBack : c.isBack e with
  | true => exact hdone (hP.loop_done _ _ (hc.inLoop_source hisBack) htarget)
  | false => exact hdone (hP.done_of_leaves (hP.order e hisBack (.inl htarget)) (hc.inLoop_self _) hout)

/-- Once the loop of a header is done up to the header, its exit edges are marked. -/
theorem exit_marked (hactive : st.firstIter b = false) (hexit : c.loopExitEdge e = some b) :
    (st.mark e).isSome = true := by
  refine hP.marked e ?_ (hP.exit_not_done hdone hexit)
  by_cases hsource : c.source e = b
  · exact .inr (hsource ▸ hactive)
  · exact .inl (hP.done_of_inLoop hdone hready hactive (hc.exit_source hexit) hsource)

end Taken

/-! ### The start -/

/-- A CFG in which nothing is marked. -/
theorem start (hc : c.Consistent) (hmark : ∀ e, st.mark e = none) (hfirst : ∀ b, st.firstIter b = true) :
    Placed hc st fun _ => False := by
  refine ⟨?_, ?_, ?_, ?_, ?_, ?_, ?_, ?_⟩ <;> simp [Visited, hmark, hfirst]

end Placed

/-- The entry alone is on the work-list. -/
theorem Listed.start (hc : c.Consistent) {st : Store B E D} (hfirst : ∀ b, st.firstIter b = true) :
    Listed c st [c.entry] fun _ => False where
  nodup := List.nodup_singleton _
  mem_iff b := by
    simp only [List.mem_singleton, not_false_eq_true, true_and]
    constructor
    · rintro rfl e htarget
      exact absurd htarget (hc.target_ne_entry e)
    · intro hready
      by_contra hne
      obtain ⟨e, hforward, htarget⟩ := hc.exists_forward hne
      have hfinished := hready.finished htarget (.inl hforward)
      cases hexit : c.loopExitEdge e with
      | none => simp [finished_none hexit, Visited, hfirst] at hfinished
      | some h => simp [finished_some hexit] at hfinished

end Otawa.HalfAbsInt
