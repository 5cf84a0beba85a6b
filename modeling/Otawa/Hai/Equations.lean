import Otawa.Hai.Visit

/-!
# The data-flow equations

A map `U` from the blocks of a CFG to states solves a block when `U` covers at the block what its
predecessors give along their edges: an exit edge leaves the context of the loop it is annotated with, and
a header takes the union of its entry edges into the context of its loop.

`Bounded` relates the iteration to these equations. The states of the last visits solve the blocks that are
done, and in the loop of a header that iterates, as in the whole CFG, everything computed is below every
solution that starts from the state of the header.
-/

set_option linter.unusedSectionVars false

namespace Otawa.HalfAbsInt

variable {B E D : Type} [DecidableEq B] [DecidableEq E] [SemilatticeSup D] [OrderBot D]

/-- What crossing the edge does to a state: `leaveContext` of the outermost loop left. -/
def exitContext (c : Cfg B E) (p : Problem B D) (e : E) : D →o D :=
  match c.loopExitEdge e with
  | none => OrderHom.id
  | some h => p.leaveContext h .loop

/-- What entering the block does to the union of its forward in-edges. -/
def entryContext (c : Cfg B E) (p : Problem B D) (b : B) : D →o D :=
  if c.loopHeader b then p.enterContext b .loop else OrderHom.id

/-- The state the edge carries when its source has the input `U (c.source e)`. -/
def carry (c : Cfg B E) (p : Problem B D) (U : B → D) (e : E) : D :=
  exitContext c p e (p.update (c.source e) (U (c.source e)))

/-- The equation of the forward in-edges of a block. -/
def SolvesEntry (c : Cfg B E) (p : Problem B D) (U : B → D) (b : B) : Prop :=
  ∃ y, (∀ e, c.target e = b → c.isBack e = false → carry c p U e ≤ y) ∧ entryContext c p b y ≤ U b

/-- The equations of a block. -/
def Solves (c : Cfg B E) (p : Problem B D) (U : B → D) (b : B) : Prop :=
  SolvesEntry c p U b ∧ ∀ e, c.target e = b → c.isBack e = true → carry c p U e ≤ U b

/-- A region of the CFG is the loop of a header, or the whole CFG. -/
def InRegion {c : Cfg B E} (hc : c.Consistent) (region : Option B) (b : B) : Prop :=
  ∀ h, region = some h → hc.InLoop h b

/-- `U` solves a region from the state `last` of its header, or the CFG from the state of its entry. -/
def SolvesRegion {c : Cfg B E} (hc : c.Consistent) (p : Problem B D) (entdom : D) (last U : B → D) :
    Option B → Prop
  | none => entdom ≤ U c.entry ∧ ∀ b, Solves c p U b
  | some h => last h ≤ U h ∧ ∀ b, hc.InLoop h b → b ≠ h → Solves c p U b

open Classical in
/-- What has been done so far to a state that was put on the edge. -/
noncomputable def stage (c : Cfg B E) (p : Problem B D) (done : B → Prop) (e : E) : D →o D :=
  match c.loopExitEdge e with
  | none => OrderHom.id
  | some h => if done h then p.leaveContext h .loop else OrderHom.id

/-- The input of a visit of `b`: the entry state, or the union of the forward in-edges in the context of the
block, with the back edges once the header iterates. -/
def Input (c : Cfg B E) (p : Problem B D) (entdom : D) (st : Store B E D) (b : B) (x : D) : Prop :=
  (b = c.entry ∧ x = entdom) ∨
  (b ≠ c.entry ∧ ∃ y z, Store.union st.mark (c.entryEdges b) = some y ∧ x = entryContext c p b y ⊔ z ∧
    ((st.firstIter b = true ∧ z = ⊥) ∨
      (st.firstIter b = false ∧ Store.union st.mark (c.backEdges b) = some z)))

/-- The states computed so far, `last` having the input of the last visit of each block. -/
structure Bounded {c : Cfg B E} (hc : c.Consistent) (p : Problem B D) (entdom : D) (st : Store B E D)
    (done : B → Prop) (last : B → D) : Prop where
  headerState : ∀ h, st.firstIter h = false → st.headerState h = some (last h)
  above : ∀ e m, Visited st done (c.source e) → st.mark e = some m →
    stage c p done e (p.update (c.source e) (last (c.source e))) ≤ m
  solved : ∀ b, done b → Solves c p last b
  entered : ∀ b, st.firstIter b = false → SolvesEntry c p last b
  entry : done c.entry → entdom ≤ last c.entry
  least : ∀ region, (∀ h, region = some h → st.firstIter h = false) → ∀ U,
    SolvesRegion hc p entdom last U region →
    (∀ b, InRegion hc region b → Visited st done b → last b ≤ U b) ∧
    ∀ e m, InRegion hc region (c.source e) → InRegion hc region (c.target e) → st.mark e = some m →
      m ≤ stage c p done e (p.update (c.source e) (U (c.source e)))
  grows : ∀ h, st.firstIter h = false → ∀ U, SolvesRegion hc p entdom last U (some h) →
    ∀ y z, Store.union st.mark (c.entryEdges h) = some y → entryContext c p h y ≤ z →
    (∀ e, c.target e = h → c.isBack e = true → carry c p U e ≤ z) → last h ≤ z

section Stage

variable {c : Cfg B E} {p : Problem B D} {done done' : B → Prop} {b h : B} {e : E} {x : D}

theorem stage_none (hexit : c.loopExitEdge e = none) : stage c p done e = OrderHom.id := by
  simp [stage, hexit]

theorem stage_done (hexit : c.loopExitEdge e = some h) (hh : done h) :
    stage c p done e = p.leaveContext h .loop := by
  simp [stage, hexit, hh]

theorem stage_not_done (hexit : c.loopExitEdge e = some h) (hh : ¬ done h) :
    stage c p done e = OrderHom.id := by
  simp [stage, hexit, hh]

theorem stage_congr (hsame : ∀ h, c.loopExitEdge e = some h → (done h ↔ done' h)) :
    stage c p done e = stage c p done' e := by
  cases hexit : c.loopExitEdge e with
  | none => rw [stage_none hexit, stage_none hexit]
  | some h =>
    by_cases hh : done h
    · rw [stage_done hexit hh, stage_done hexit ((hsame h hexit).mp hh)]
    · rw [stage_not_done hexit hh, stage_not_done hexit fun hh' => hh ((hsame h hexit).mpr hh')]

/-- A finished edge has left its loops. -/
theorem stage_finished {st : Store B E D} (hfinished : Finished c st done e) :
    stage c p done e = exitContext c p e := by
  cases hexit : c.loopExitEdge e with
  | none => simp [stage_none hexit, exitContext, hexit]
  | some h => simp [stage_done hexit ((finished_some hexit).mp hfinished), exitContext, hexit]

theorem stage_source {hc : c.Consistent} {st : Store B E D} (hP : Placed hc st done)
    (hsource : ¬ done (c.source e)) : stage c p done e = OrderHom.id := by
  cases hexit : c.loopExitEdge e with
  | none => exact stage_none hexit
  | some h => exact stage_not_done hexit fun hh => hsource (hP.loop_done h _ (hc.exit_source hexit) hh)

theorem entryContext_header (hheader : c.loopHeader b = true) : entryContext c p b = p.enterContext b .loop := by
  simp [entryContext, hheader]

theorem carry_congr {U U' : B → D} (hsame : U (c.source e) = U' (c.source e)) : carry c p U e = carry c p U' e := by
  simp only [carry, hsame]

theorem SolvesEntry.congr {U U' : B → D} (hsolves : SolvesEntry c p U b) (hb : U b = U' b)
    (hsame : ∀ e, c.target e = b → c.isBack e = false → U (c.source e) = U' (c.source e)) :
    SolvesEntry c p U' b := by
  obtain ⟨y, hy, hle⟩ := hsolves
  refine ⟨y, fun e htarget hback => ?_, hb ▸ hle⟩
  rw [← carry_congr (hsame e htarget hback)]
  exact hy e htarget hback

theorem Solves.congr {U U' : B → D} (hsolves : Solves c p U b) (hb : U b = U' b)
    (hsame : ∀ e, c.target e = b → U (c.source e) = U' (c.source e)) : Solves c p U' b := by
  refine ⟨hsolves.1.congr hb fun e htarget _ => hsame e htarget, fun e htarget hback => ?_⟩
  rw [← carry_congr (hsame e htarget), ← hb]
  exact hsolves.2 e htarget hback

end Stage

namespace Bounded

variable {c : Cfg B E} {hc : c.Consistent} {p : Problem B D} {entdom : D} {st : Store B E D}
  {done : B → Prop} {last : B → D} {a b h : B} {e : E} {x : D}

/-! ### The input of a visit -/

section

variable (hP : Placed hc st done) (hB : Bounded hc p entdom st done last) (hdone : ¬ done b)
  (hready : Ready c st done b) (hx : Input c p entdom st b x)

include hP hB hready

omit hready in
/-- The state of a finished in-edge covers what its source gives. -/
theorem carry_le {m : D} (hfinished : Finished c st done e) (hmark : st.mark e = some m) :
    carry c p last e ≤ m := by
  have habove := hB.above e m (hP.visited_source hfinished) hmark
  rwa [stage_finished hfinished] at habove

/-- The input covers what the visited predecessors give. -/
theorem solvesEntry_input (hx : Input c p entdom st b x) (hdone : ¬ done b) :
    SolvesEntry c p (Function.update last b x) b := by
  obtain ⟨rfl, -⟩ | ⟨-, y, z, hy, rfl, -⟩ := hx
  · refine ⟨⊥, fun e htarget => absurd htarget (hc.target_ne_entry e), ?_⟩
    simp [entryContext, hc.loopHeader_entry]
  · refine ⟨y, fun e htarget hforward => ?_, ?_⟩
    · have hsource : c.source e ≠ b := by
        intro heq
        have hin : hc.InLoop b (c.source e) := heq ▸ hc.inLoop_self b
        rw [hin.isBack htarget] at hforward
        exact absurd hforward (by decide)
      have hfinished := hready.finished htarget (.inl hforward)
      obtain ⟨m, hm⟩ := Option.isSome_iff_exists.mp
        (hP.marked e (hP.visited_source hfinished) (htarget ▸ hdone))
      rw [carry_congr (Function.update_of_ne hsource _ last)]
      exact (carry_le hP hB hfinished hm).trans
        (Store.le_union hy ((Store.mem_entryEdges hc).mpr ⟨htarget, hforward⟩) hm)
    · rw [Function.update_self]
      exact le_sup_left

/-- The input is below every solution of a region around the block. -/
theorem input_le (hx : Input c p entdom st b x) {region : Option B} {U : B → D}
    (hregion : ∀ h, region = some h → st.firstIter h = false) (hin : InRegion hc region b)
    (hne : region ≠ some b) (hU : SolvesRegion hc p entdom last U region) : x ≤ U b := by
  have hleast := (hB.least region hregion U hU).2
  obtain ⟨rfl, rfl⟩ | ⟨hentry, y, z, hy, rfl, hz⟩ := hx
  · cases region with
    | none => exact hU.1
    | some h => exact absurd (congrArg some (hc.inLoop_entry (hin h rfl))) hne
  have hsolves : Solves c p U b := by
    cases region with
    | none => exact hU.2 b
    | some h => exact hU.2 b (hin h rfl) fun heq => hne (congrArg some heq.symm)
  have hsource : ∀ e, c.target e = b → InRegion hc region (c.source e) := by
    rintro e rfl h rfl
    exact (hin h rfl).source fun heq => hne (congrArg some heq.symm)
  have hmark : ∀ e m, c.target e = b → Finished c st done e → st.mark e = some m → m ≤ carry c p U e := by
    intro e m htarget hfinished hm
    have hle := hleast e m (hsource e htarget) (htarget.symm ▸ hin) hm
    rwa [stage_finished hfinished] at hle
  obtain ⟨⟨y', hy', hle⟩, hback⟩ := hsolves
  refine sup_le (((entryContext c p b).monotone (Store.union_le hy fun e hmem m hm => ?_)).trans hle) ?_
  · obtain ⟨htarget, hforward⟩ := (Store.mem_entryEdges hc).mp hmem
    exact (hmark e m htarget (hready.finished htarget (.inl hforward)) hm).trans (hy' e htarget hforward)
  · obtain ⟨-, rfl⟩ | ⟨hactive, hz⟩ := hz
    · exact bot_le
    · refine Store.union_le hz fun e hmem m hm => ?_
      obtain ⟨htarget, hisBack⟩ := (Store.mem_backEdges hc).mp hmem
      exact (hmark e m htarget (hready.finished htarget (.inr hactive)) hm).trans (hback e htarget hisBack)

/-- The last states solve the loop of a header that is back on the work-list. -/
theorem solvesRegion_last (hdone : ¬ done b) (hactive : st.firstIter b = false) :
    SolvesRegion hc p entdom last last (some b) :=
  ⟨le_rfl, fun a hin hne => hB.solved a (hP.done_of_inLoop hdone hready hactive hin hne)⟩

/-- What the back edges carry is below the input of a header that iterates. -/
theorem back_le_input (hx : Input c p entdom st b x) (hdone : ¬ done b) (hactive : st.firstIter b = false)
    (htarget : c.target e = b) (hback : c.isBack e = true) : carry c p last e ≤ x := by
  obtain ⟨rfl, -⟩ | ⟨-, y, z, -, rfl, ⟨hfirst, -⟩ | ⟨-, hz⟩⟩ := hx
  · exact absurd htarget (hc.target_ne_entry e)
  · rw [hfirst] at hactive
    exact absurd hactive (by decide)
  · have hfinished := hready.finished htarget (.inr hactive)
    obtain ⟨m, hm⟩ := Option.isSome_iff_exists.mp
      (hP.marked e (hP.visited_source hfinished) (htarget ▸ hdone))
    exact (carry_le hP hB hfinished hm).trans
      ((Store.le_union hz ((Store.mem_backEdges hc).mpr ⟨htarget, hback⟩) hm).trans le_sup_right)

/-- The input of a header grows from one iteration to the next. -/
theorem last_le_input (hx : Input c p entdom st b x) (hdone : ¬ done b) (hactive : st.firstIter b = false) :
    last b ≤ x := by
  have hback := fun e => back_le_input (e := e) hP hB hready hx hdone hactive
  obtain ⟨rfl, -⟩ | ⟨-, y, z, hy, rfl, -⟩ := hx
  · have hheader := (hP.header _ hactive).1
    rw [hc.loopHeader_entry] at hheader
    exact absurd hheader (by decide)
  · exact hB.grows b hactive last (solvesRegion_last hP hB hready hdone hactive) y _ hy le_sup_left hback

end

end Bounded

end Otawa.HalfAbsInt
