import Otawa.Hai.Equations

/-!
# The iteration over one CFG

`visit` is the turn of the solver for a block of one CFG, and it keeps the invariant `Iterates`, whatever
block of the work-list is taken.
-/

set_option linter.unusedSectionVars false

namespace Otawa.HalfAbsInt

variable {B E D : Type} [DecidableEq B] [DecidableEq E] [SemilatticeSup D] [OrderBot D]
variable {c : Cfg B E} {hc : c.Consistent} {p : Problem B D} {entdom : D} {st : Store B E D}
  {done : B → Prop} {last : B → D} {a b h : B} {e : E} {x : D} {r : Store B E D × List B}

namespace Advanced

section

variable (hP : Placed hc st done) (hB : Bounded hc p entdom st done last) (hdone : ¬ done b)
  (hready : Ready c st done b) (hx : Input c p entdom st b x)
  (hA : Advanced c st b x (p.update b x) r)

include hP hdone hready hA

/-- On a marked edge the visit changes nothing about the loops that are left. -/
theorem stage_eq (hmark : (r.1.mark e).isSome = true) :
    stage c p (restart hc done b) e = stage c p done e := by
  refine stage_congr fun h hexit => ?_
  have hvisited := ((placed hP hdone hready hA).of_mark e hmark).2
  rw [hexit, Option.getD_some] at hvisited
  rw [restart_header hdone (hc.exit_header hexit)]
  obtain rfl | ⟨-, hout⟩ := (visited_iff hP hdone hready hA).mp hvisited
  · exact iff_of_false (fun hh => hdone hh.1) hdone
  · exact and_iff_left hout

/-- A marked edge within the loop that starts again comes from the header, and its mark is the new one. -/
theorem mark_inLoop {m : D} (hin : hc.InLoop b (c.source e)) (hin' : hc.InLoop b (c.target e))
    (hmark : r.1.mark e = some m) : c.source e = b ∧ m = ⊥ ⊔ p.update b x := by
  have hsome : (r.1.mark e).isSome = true := by rw [hmark, Option.isSome_some]
  have hvisited := ((placed hP hdone hready hA).of_mark e hsome).2
  have hnone : c.loopExitEdge e = none := by
    cases hexit : c.loopExitEdge e with
    | none => rfl
    | some h =>
      have hout := hc.exit_target hexit
      rw [hexit, Option.getD_some] at hvisited
      obtain rfl | ⟨-, hh⟩ := (visited_iff hP hdone hready hA).mp hvisited
      · exact absurd hin' hout
      · obtain hb | hb := (hc.exit_source hexit).nested hin
        · exact absurd (hb.trans hin') hout
        · exact absurd hb hh
  rw [hnone, Option.getD_none] at hvisited
  obtain hsource | ⟨-, hout⟩ := (visited_iff hP hdone hready hA).mp hvisited
  · refine ⟨hsource, ?_⟩
    by_cases htaken : Taken c b e
    · rw [hA.mark_taken_out e hsource htaken] at hmark
      exact (Option.some.inj hmark).symm
    · have hne : c.target e ≠ b := fun heq => htaken ⟨heq, .inr (hin.isBack heq)⟩
      -- an older mark would be on an edge to a block of the loop that is not done
      have hold : st.mark e = none := by
        refine Option.not_isSome_iff_eq_none.mp fun hm => ?_
        obtain ⟨htarget, hvisited⟩ := hP.of_mark e hm
        rw [hnone, Option.getD_none, hsource] at hvisited
        exact htarget (hP.done_of_visited_inLoop hdone hready (hc.inLoop_self b) hvisited hin' hne)
      rw [hA.mark_out e hsource htaken, hold] at hmark
      exact (Option.some.inj hmark).symm
  · exact absurd hin hout

/-- A forward in-edge of a header that iterates does not come from the block taken. -/
theorem entry_source_ne (hactive : st.firstIter h = false) (hne : h ≠ b) (htarget : c.target e = h)
    (hforward : c.isBack e = false) : c.source e ≠ b := by
  rintro rfl
  subst htarget
  obtain ⟨-, hb, hin⟩ := hP.active_of_finished (hP.order e hforward (.inr hactive)) hdone
  exact (hP.header _ hactive).2 (hP.done_of_inLoop hdone hready hb hin hne)

omit hready hA in
/-- An in-edge of a block that stays done does not come from the block taken. -/
theorem done_source_ne (hready : Ready c st done b) (ha : done a) (hout : ¬ hc.InLoop b a)
    (htarget : c.target e = a) : c.source e ≠ b := by
  rintro hsource
  subst htarget
  exact hP.target_not_done hdone hready hsource hout ha

include hB in
/-- The mark of an edge is above what its last state gives. -/
theorem above {m : D} (hvisited : Visited r.1 (restart hc done b) (c.source e)) (hmark : r.1.mark e = some m) :
    stage c p done e (p.update (c.source e) (Function.update last b x (c.source e))) ≤ m := by
  obtain hsource | ⟨hvisited, hout⟩ := (visited_iff hP hdone hready hA).mp hvisited
  · rw [stage_source hP (hsource.symm ▸ hdone), hsource, Function.update_self]
    by_cases htaken : Taken c b e
    · rw [hA.mark_taken_out e hsource htaken] at hmark
      exact Option.some.inj hmark ▸ le_sup_right
    · rw [hA.mark_out e hsource htaken] at hmark
      exact Option.some.inj hmark ▸ le_sup_right
  · have hsource : c.source e ≠ b := fun heq => hout (heq ▸ hc.inLoop_self b)
    rw [Function.update_of_ne hsource]
    by_cases htaken : Taken c b e
    · rw [hA.mark_taken e hsource htaken] at hmark
      cases hmark
    · rw [hA.mark_kept e hsource htaken] at hmark
      exact hB.above e m hvisited hmark

/-- Within the loop that starts again, only the header has been visited. -/
theorem least_self {U : B → D} (hle : x ≤ U b) :
    (∀ a, InRegion hc (some b) a → Visited r.1 (restart hc done b) a → Function.update last b x a ≤ U a) ∧
      ∀ e m, InRegion hc (some b) (c.source e) → InRegion hc (some b) (c.target e) → r.1.mark e = some m →
        m ≤ stage c p done e (p.update (c.source e) (U (c.source e))) := by
  constructor
  · intro a hin hvisited
    obtain rfl | ⟨-, hout⟩ := (visited_iff hP hdone hready hA).mp hvisited
    · rwa [Function.update_self]
    · exact absurd (hin b rfl) hout
  · intro e m hin hin' hmark
    obtain ⟨hsource, rfl⟩ := mark_inLoop hP hdone hready hA (hin b rfl) (hin' b rfl) hmark
    rw [stage_source hP (hsource.symm ▸ hdone), hsource]
    exact sup_le bot_le ((p.update b).monotone hle)

include hB hx

/-- The states and the marks of a region around the block stay below the solutions of the region. -/
theorem least_around {region : Option B} {U : B → D} (hregion : ∀ h, region = some h → st.firstIter h = false)
    (hne : region ≠ some b) (hU : SolvesRegion hc p entdom last U region) :
    (∀ a, InRegion hc region a → Visited r.1 (restart hc done b) a → Function.update last b x a ≤ U a) ∧
      ∀ e m, InRegion hc region (c.source e) → InRegion hc region (c.target e) → r.1.mark e = some m →
        m ≤ stage c p done e (p.update (c.source e) (U (c.source e))) := by
  have hle : InRegion hc region b → x ≤ U b := fun hin => hB.input_le hP hready hx hregion hin hne hU
  obtain ⟨hvalues, hmarks⟩ := hB.least region hregion U hU
  constructor
  · intro a hin hvisited
    obtain rfl | ⟨hvisited, hout⟩ := (visited_iff hP hdone hready hA).mp hvisited
    · rw [Function.update_self]
      exact hle hin
    · have hne' : a ≠ b := by
        rintro rfl
        exact hout (hc.inLoop_self a)
      rw [Function.update_of_ne hne']
      exact hvalues a hin hvisited
  · intro e m hin hin' hmark
    by_cases hsource : c.source e = b
    · have hout : p.update b x ≤ stage c p done e (p.update (c.source e) (U (c.source e))) := by
        rw [stage_source hP (hsource.symm ▸ hdone), hsource]
        exact (p.update b).monotone (hle (hsource ▸ hin))
      by_cases htaken : Taken c b e
      · rw [hA.mark_taken_out e hsource htaken] at hmark
        exact Option.some.inj hmark ▸ sup_le bot_le hout
      · rw [hA.mark_out e hsource htaken] at hmark
        refine Option.some.inj hmark ▸ sup_le ?_ hout
        cases hold : st.mark e with
        | none => exact bot_le
        | some m' => exact hmarks e m' hin hin' hold
    · by_cases htaken : Taken c b e
      · rw [hA.mark_taken e hsource htaken] at hmark
        cases hmark
      · rw [hA.mark_kept e hsource htaken] at hmark
        exact hmarks e m hin hin' hmark

omit hB hx in
/-- The forward in-edges of a header that iterates keep their marks. -/
theorem entryUnion_kept (hheader : c.loopHeader h = true) (hold : h = b ∨ st.firstIter h = false) :
    Store.union r.1.mark (c.entryEdges h) = Store.union st.mark (c.entryEdges h) := by
  refine Store.union_congr fun e hmem => ?_
  obtain ⟨htarget, hforward⟩ := (Store.mem_entryEdges hc).mp hmem
  have hsource : c.source e ≠ b := by
    by_cases hne : h = b
    · intro heq
      have hin : hc.InLoop b (c.source e) := heq ▸ hc.inLoop_self b
      rw [hin.isBack (htarget.trans hne)] at hforward
      exact absurd hforward (by decide)
    · exact entry_source_ne hP hdone hready hA (hold.resolve_left hne) hne htarget hforward
  refine hA.mark_kept e hsource ?_
  rintro ⟨heq, hbad | hbad⟩
  · rw [← heq, htarget, hheader] at hbad
    exact absurd hbad (by decide)
  · rw [hforward] at hbad
    exact absurd hbad (by decide)

omit hA in
/-- The input of a header is below what its in-edges give to a solution of the loop. -/
theorem input_grows (hheader : c.loopHeader b = true) {U : B → D} (hU : x ≤ U b)
    (hsolves : ∀ a, hc.InLoop b a → a ≠ b → Solves c p U a) {y z : D}
    (hy : Store.union st.mark (c.entryEdges b) = some y) (hle : entryContext c p b y ≤ z)
    (hback : ∀ e, c.target e = b → c.isBack e = true → carry c p U e ≤ z) : x ≤ z := by
  have hlast := hB.last_le_input hP hready hx hdone
  obtain ⟨rfl, -⟩ | ⟨-, y', z', hy', rfl, hz'⟩ := hx
  · rw [hc.loopHeader_entry] at hheader
    exact absurd hheader (by decide)
  have hyy := Option.some.inj (hy'.symm.trans hy)
  subst hyy
  refine sup_le hle ?_
  obtain ⟨-, rfl⟩ | ⟨hold, hz'⟩ := hz'
  · exact bot_le
  · have hU' : SolvesRegion hc p entdom last U (some b) := ⟨(hlast hold).trans hU, hsolves⟩
    refine Store.union_le hz' fun e hmem m hm => ?_
    obtain ⟨htarget, hisBack⟩ := (Store.mem_backEdges hc).mp hmem
    have hmark := (hB.least (some b) (by rintro _ ⟨⟩; exact hold) U hU').2 e m
      (by rintro _ ⟨⟩; exact htarget ▸ hc.inLoop_source hisBack)
      (by rintro _ ⟨⟩; exact htarget ▸ hc.inLoop_self _) hm
    rw [stage_finished (hready.finished htarget (.inr hold))] at hmark
    exact hmark.trans (hback e htarget hisBack)

/-- A visit of a block that gives a state to its successors keeps the bounds. -/
theorem bounded : Bounded hc p entdom r.1 (restart hc done b) (Function.update last b x) := by
  have hother : ∀ {a}, a ≠ b → Function.update last b x a = last a :=
    fun hne => Function.update_of_ne hne x last
  have hself : Function.update last b x b = x := Function.update_self b x last
  have hentered : SolvesEntry c p (Function.update last b x) b :=
    hB.solvesEntry_input hP hready hx hdone
  have hfirst : ∀ a, r.1.firstIter a = false → a ≠ b → st.firstIter a = false := by
    intro a hactive hne
    rwa [hA.firstIter_other a (.inl hne)] at hactive
  have hstage : ∀ e m, r.1.mark e = some m → stage c p (restart hc done b) e = stage c p done e :=
    fun e m hmark => stage_eq hP hdone hready hA (by rw [hmark, Option.isSome_some])
  refine ⟨fun h hactive => ?_, fun e m hvisited hmark => ?_, fun a ha => ?_, fun a hactive => ?_,
    fun hentry => ?_, fun region hregion U hU => ?_, fun h hactive U hU y z hy hle hback => ?_⟩
  case refine_1 =>
    by_cases hne : h = b
    · subst hne
      rw [hself]
      exact hA.headerState_self ((placed hP hdone hready hA).header h hactive).1
    · rw [hA.headerState_other h (.inl hne), hother hne]
      exact hB.headerState h (hfirst h hactive hne)
  case refine_2 =>
    rw [hstage e m hmark]
    exact above hP hB hdone hready hA hvisited hmark
  case refine_3 =>
    obtain ⟨ha, hout⟩ | ⟨rfl, hheader⟩ := ha
    · have hne : a ≠ b := fun heq => hdone (heq ▸ ha)
      refine (hB.solved a ha).congr (hother hne).symm fun e htarget => ?_
      exact (hother (done_source_ne hP hdone hready ha hout htarget)).symm
    · refine ⟨hentered, fun e htarget hback => ?_⟩
      rw [← htarget, hc.loopHeader_target hback] at hheader
      exact absurd hheader (by decide)
  case refine_4 =>
    by_cases hne : a = b
    · exact hne ▸ hentered
    · have hactive := hfirst a hactive hne
      refine (hB.entered a hactive).congr (hother hne).symm fun e htarget hforward => ?_
      exact (hother (entry_source_ne hP hdone hready hA hactive hne htarget hforward)).symm
  case refine_5 =>
    obtain ⟨hentry, -⟩ | ⟨heq, -⟩ := hentry
    · rw [hother fun heq => hdone (heq ▸ hentry)]
      exact hB.entry hentry
    · subst heq
      obtain ⟨-, rfl⟩ | ⟨hne, -⟩ := hx
      · rw [hself]
      · exact absurd rfl hne
  case refine_6 =>
    suffices hleast :
        (∀ a, InRegion hc region a → Visited r.1 (restart hc done b) a → Function.update last b x a ≤ U a) ∧
          ∀ e m, InRegion hc region (c.source e) → InRegion hc region (c.target e) → r.1.mark e = some m →
            m ≤ stage c p done e (p.update (c.source e) (U (c.source e))) by
      refine ⟨hleast.1, fun e m hin hin' hmark => ?_⟩
      rw [hstage e m hmark]
      exact hleast.2 e m hin hin' hmark
    by_cases hne : region = some b
    · subst hne
      exact least_self hP hdone hready hA (hself ▸ hU.1)
    · have hregion' : ∀ h, region = some h → st.firstIter h = false := by
        rintro h rfl
        exact hfirst h (hregion h rfl) fun heq => hne (congrArg some heq)
      have hU' : SolvesRegion hc p entdom last U region := by
        cases region with
        | none => exact hU
        | some h => exact ⟨hother (fun heq => hne (congrArg some heq)) ▸ hU.1, hU.2⟩
      exact least_around hP hB hdone hready hx hA hregion' hne hU'
  case refine_7 =>
    have hheader := ((placed hP hdone hready hA).header h hactive).1
    by_cases hne : h = b
    · subst hne
      rw [entryUnion_kept hP hdone hready hA hheader (.inl rfl)] at hy
      rw [hself]
      exact input_grows hP hB hdone hready hx hheader (hself ▸ hU.1) hU.2 hy hle hback
    · have hold := hfirst h hactive hne
      rw [entryUnion_kept hP hdone hready hA hheader (.inr hold)] at hy
      rw [hother hne]
      exact hB.grows h hold U ⟨hother hne ▸ hU.1, hU.2⟩ y z hy hle hback

end

end Advanced

namespace LoopLeft

section

variable (hP : Placed hc st done) (hB : Bounded hc p entdom st done last) (hdone : ¬ done b)
  (hready : Ready c st done b) (hactive : st.firstIter b = false) (hF : LoopLeft c p st b r)

theorem stage_of_ne (hexit : c.loopExitEdge e ≠ some b) : stage c p (settle done b) e = stage c p done e := by
  refine stage_congr fun h hh => ?_
  have hne : h ≠ b := fun heq => hexit (heq ▸ hh)
  simp [settle, hne]

include hP hdone hactive hF

omit hP hdone hactive in
theorem firstIter_of (ha : r.1.firstIter a = false) :
    a ≠ b ∧ st.firstIter a = false := by
  rw [hF.firstIter_eq] at ha
  have hne : a ≠ b := by
    rintro rfl
    simp at ha
  rw [Function.update_of_ne hne] at ha
  exact ⟨hne, ha⟩

omit hP hactive in
/-- The mark of an edge and the stage of the edge change together. -/
theorem mark_stage {m : D} (hmark : r.1.mark e = some m) : ∃ m', st.mark e = some m' ∧
    ∀ v, (stage c p done e v ≤ m' → stage c p (settle done b) e v ≤ m) ∧
      (m' ≤ stage c p done e v → m ≤ stage c p (settle done b) e v) := by
  have hne : c.target e ≠ b := by
    intro heq
    rw [hF.mark_in e heq] at hmark
    cases hmark
  by_cases hexit : c.loopExitEdge e = some b
  · have hsettled : settle done b b := .inr rfl
    rw [hF.mark_exit e hne hexit, Option.map_eq_some_iff] at hmark
    obtain ⟨m', hm', rfl⟩ := hmark
    refine ⟨m', hm', fun v => ?_⟩
    rw [stage_done hexit hsettled, stage_not_done hexit hdone]
    exact ⟨fun hle => (p.leaveContext b .loop).monotone hle, fun hle => (p.leaveContext b .loop).monotone hle⟩
  · rw [hF.mark_kept e hne hexit] at hmark
    refine ⟨m, hmark, fun v => ?_⟩
    rw [stage_of_ne hexit]
    exact ⟨id, id⟩

include hB hready

/-- A visit that reaches the fixpoint of a loop keeps the bounds: with the state of the header unchanged, the
last states solve the header too. -/
theorem bounded (hx : Input c p entdom st b (last b)) : Bounded hc p entdom r.1 (settle done b) last := by
  have hvisited_iff : ∀ {a}, Visited r.1 (settle done b) a ↔ Visited st done a := visited_iff hactive hF
  refine ⟨fun h ha => ?_, fun e m hvisited hmark => ?_, fun a ha => ?_, fun a ha => ?_, fun hentry => ?_,
    fun region hregion U hU => ?_, fun h ha U hU y z hy hle hback => ?_⟩
  case refine_1 =>
    obtain ⟨hne, hold⟩ := firstIter_of hF ha
    rw [hF.headerState_other h hne]
    exact hB.headerState h hold
  case refine_2 =>
    obtain ⟨m', hm', hstage⟩ := mark_stage hdone hF hmark
    exact (hstage _).1 (hB.above e m' (hvisited_iff.mp hvisited) hm')
  case refine_3 =>
    obtain ha | rfl := ha
    · exact hB.solved a ha
    · refine ⟨hB.entered a hactive, fun e htarget hback => ?_⟩
      exact hB.back_le_input hP hready hx hdone hactive htarget hback
  case refine_4 => exact hB.entered a (firstIter_of hF ha).2
  case refine_5 =>
    obtain hentry | heq := hentry
    · exact hB.entry hentry
    · have hheader := (hP.header b hactive).1
      rw [← heq, hc.loopHeader_entry] at hheader
      exact absurd hheader (by decide)
  case refine_6 =>
    have hregion' : ∀ h, region = some h → st.firstIter h = false :=
      fun h heq => (firstIter_of hF (hregion h heq)).2
    obtain ⟨hvalues, hmarks⟩ := hB.least region hregion' U hU
    refine ⟨fun a hin hvisited => hvalues a hin (hvisited_iff.mp hvisited), fun e m hin hin' hmark => ?_⟩
    obtain ⟨m', hm', hstage⟩ := mark_stage hdone hF hmark
    exact (hstage _).2 (hmarks e m' hin hin' hm')
  case refine_7 =>
    obtain ⟨hne, hold⟩ := firstIter_of hF ha
    refine hB.grows h hold U hU y z ?_ hle hback
    rw [← hy]
    refine Store.union_congr fun e hmem => ?_
    obtain ⟨htarget, hforward⟩ := (Store.mem_entryEdges hc).mp hmem
    refine (hF.mark_kept e (htarget ▸ hne) fun hexit => hdone ?_).symm
    exact (finished_some hexit).mp (hP.order e hforward (.inr (htarget ▸ hold)))

end

end LoopLeft

/-! ### Visits -/

/-- The turn of the solver for a block of one CFG whose calls, if it has any, are part of `p.update`. The
first component is the input state, when the block gives a state to its successors. -/
def visit [DecidableEq D] (c : Cfg B E) (p : Problem B D) (entdom : D) (st : Store B E D) (b : B) :
    Option (Option D × Store B E D × List B) :=
  if c.loopHeader b then
    (st.headerInput c p b).bind fun r =>
      if r.2.1 then (r.2.2.exitLoop c p b).map (none, ·)
      else some (some r.1, r.2.2.addSuccessors c b (p.update b r.1))
  else
    (if b = c.entry then some entdom else Store.union st.mark (c.inEdges b)).map fun x =>
      (some x, (st.unmarkEdges (c.inEdges b)).addSuccessors c b (p.update b x))

variable (p entdom) in
/-- A block that is no header can be taken: each mark that the visit reads is there. -/
theorem Placed.visit_simple [DecidableEq D] (hP : Placed hc st done) (hdone : ¬ done b)
    (hready : Ready c st done b) (hheader : c.loopHeader b = false) : st.firstIter b = true ∧
      ∃ x r, visit c p entdom st b = some (some x, r) ∧ Input c p entdom st b x ∧
        Advanced c st b x (p.update b x) r := by
  have hfirst : st.firstIter b = true := by
    by_contra hactive
    rw [(hP.header b (Bool.eq_false_iff.mpr hactive)).1] at hheader
    exact absurd hheader (by decide)
  have hforward : ∀ e, c.target e = b → c.isBack e = false := by
    intro e htarget
    refine Bool.eq_false_iff.mpr fun hback => ?_
    rw [← htarget, hc.loopHeader_target hback] at hheader
    exact absurd hheader (by decide)
  have hentries : c.entryEdges b = c.inEdges b :=
    List.filter_eq_self.mpr fun e hmem => by simp [hforward e ((hc.mem_inEdges e b).mp hmem)]
  refine ⟨hfirst, ?_⟩
  by_cases hentry : b = c.entry
  · subst hentry
    exact ⟨entdom, _, by simp [visit, hheader], .inl ⟨rfl, rfl⟩,
      (Opened.of_unmarked hc hheader).advanced hP hdone hready _⟩
  · obtain ⟨x, hx⟩ : ∃ x, Store.union st.mark (c.inEdges b) = some x := Store.exists_union fun e hin =>
      have htarget := (hc.mem_inEdges e b).mp hin
      hP.isSome_finished hdone hready htarget (.inl (hforward e htarget))
    refine ⟨x, _, by simp [visit, hheader, hentry, hx], .inr ⟨hentry, x, ⊥, ?_, ?_, .inl ⟨hfirst, rfl⟩⟩,
      (Opened.of_unmarked hc hheader).advanced hP hdone hready _⟩
    · rw [hentries, hx]
    · simp [entryContext, hheader]

/-- The invariant of the iteration over one CFG. -/
structure Iterates (hc : c.Consistent) (p : Problem B D) (entdom : D) (st : Store B E D) (workList : List B)
    (done : B → Prop) (last : B → D) : Prop where
  placed : Placed hc st done
  listed : Listed c st workList done
  bounded : Bounded hc p entdom st done last

/-- A CFG in which nothing is marked, with its entry on the work-list. -/
theorem iterates_start (hc : c.Consistent) (p : Problem B D) (entdom : D) (hmark : ∀ e, st.mark e = none)
    (hfirst : ∀ b, st.firstIter b = true) : Iterates hc p entdom st [c.entry] (fun _ => False) last where
  placed := .start hc hmark hfirst
  listed := .start hc hfirst
  bounded := by
    refine ⟨?_, ?_, ?_, ?_, ?_, ?_, ?_⟩ <;> simp [Visited, hmark, hfirst]

namespace Iterates

variable {workList : List B}

/-- Every block of the work-list can be taken: each mark that the visit reads is there. -/
theorem visit_cases [DecidableEq D] (hI : Iterates hc p entdom st workList done last) (hmem : b ∈ workList) :
    (∃ x r, visit c p entdom st b = some (some x, r) ∧ Input c p entdom st b x ∧
      Advanced c st b x (p.update b x) r ∧ (st.firstIter b = false → x ≠ last b)) ∨
    (∃ r, visit c p entdom st b = some (none, r) ∧ Input c p entdom st b (last b) ∧
      LoopLeft c p st b r ∧ st.firstIter b = false) := by
  obtain ⟨hdone, hready⟩ := (hI.listed.mem_iff b).mp hmem
  have hP := hI.placed
  cases hheader : c.loopHeader b with
  | false =>
    obtain ⟨hfirst, x, r, hvisit, hx, hA⟩ := hP.visit_simple p entdom hdone hready hheader
    exact .inl ⟨x, r, hvisit, hx, hA, by simp [hfirst]⟩
  | true =>
    have hentry : b ≠ c.entry := by
      rintro rfl
      rw [hc.loopHeader_entry] at hheader
      exact absurd hheader (by decide)
    obtain ⟨y, hy⟩ : ∃ y, Store.union st.mark (c.entryEdges b) = some y := Store.exists_union fun e hin =>
      have hin := (Store.mem_entryEdges hc).mp hin
      hP.isSome_finished hdone hready hin.1 (.inl hin.2)
    have hunion : st.entryEdgeUnion c p b = some (entryContext c p b y) := by
      simp [Store.entryEdgeUnion, hy, entryContext_header hheader]
    cases hfirst : st.firstIter b with
    | true =>
      obtain ⟨r, hr, hentered⟩ := Store.entered_first hc hfirst hunion
      refine .inl ⟨_, _, by simp [visit, hheader, hr], .inr ⟨hentry, y, ⊥, hy, ?_, .inl ⟨hfirst, rfl⟩⟩,
        (Opened.of_entered hheader hentered).advanced hP hdone hready _, by simp⟩
      simp
    | false =>
      obtain ⟨z, hz⟩ : ∃ z, Store.union st.mark (c.backEdges b) = some z := Store.exists_union fun e hin =>
        hP.isSome_finished hdone hready ((Store.mem_backEdges hc).mp hin).1 (.inr hfirst)
      obtain ⟨r, hr, hentered⟩ :=
        Store.entered_again hc hfirst (hI.bounded.headerState b hfirst) hunion hz
      have hinput : Input c p entdom st b (entryContext c p b y ⊔ z) :=
        .inr ⟨hentry, y, z, hy, rfl, .inr ⟨hfirst, hz⟩⟩
      by_cases hfix : entryContext c p b y ⊔ z = last b
      · simp only [hfix, decide_true] at hr hentered hinput
        obtain ⟨r', hr', hleft⟩ := Store.left_exitLoop (p := p) hc r b fun e hexit => by
          have hexit := (hc.mem_exitList e b).mp hexit
          have hne : c.target e ≠ b := fun heq => hc.exit_target hexit (heq ▸ hc.inLoop_self b)
          rw [hentered.mark_eq, if_neg fun heq => hne heq.1]
          exact hP.exit_marked hdone hready hfirst hexit
        exact .inr ⟨r', by simp [visit, hheader, hr, hr'], hinput, .of_left hc hentered hleft, rfl⟩
      · simp only [hfix, decide_false] at hr hentered
        exact .inl ⟨_, _, by simp [visit, hheader, hr], hinput,
          (Opened.of_entered hheader hentered).advanced hP hdone hready _, fun _ => hfix⟩

end Iterates

end Otawa.HalfAbsInt
