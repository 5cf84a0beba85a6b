import Otawa.Hai.Phases
import Otawa.Hai.Equations

/-!
# The equations of a CFG with the first iterations unrolled

An unknown `U φ b` is the input of `b` with the phases `φ` of the loops around it. A header in its first
iteration takes its entry edges, and in the later ones its back edges, those of the first iteration
included. An edge that leaves loops carries what comes in all their phases, and then leaves their context.

`Peeled` relates the iteration to these equations, as `Bounded` does without unrolling.
-/

set_option linter.unusedSectionVars false

namespace Otawa.HalfAbsInt.FirstUnrolling

variable {B E D : Type} [DecidableEq B] [DecidableEq E] [SemilatticeSup D] [OrderBot D]
variable {c : Cfg B E}

/-- `z` is above what the source puts on the edge, in all phases of the loops that the edge leaves. -/
def Bounds (hc : c.Consistent) (p : Problem B D) (U : Phase B → B → D) (φ : Phase B) (e : E) (z : D) : Prop :=
  ∀ ψ, Along hc ψ φ e → p.update (c.source e) (U ψ (c.source e)) ≤ z

/-- `y` is above what the edge carries. -/
def Covers (hc : c.Consistent) (p : Problem B D) (U : Phase B → B → D) (φ : Phase B) (e : E) (y : D) : Prop :=
  ∃ z, Bounds hc p U φ e z ∧ exitContext c p e z ≤ y

/-- The equation of the forward in-edges of a block. -/
def EntersAt (hc : c.Consistent) (p : Problem B D) (U : Phase B → B → D) (φ : Phase B) (b : B) : Prop :=
  ∃ y, (∀ e, c.target e = b → c.isBack e = false → Covers hc p U φ e y) ∧ entryContext c p b y ≤ U φ b

/-- The equations of a block with the phases `φ`. -/
structure SolvesAt (hc : c.Consistent) (p : Problem B D) (U : Phase B → B → D) (φ : Phase B) (b : B) : Prop where
  first : c.loopHeader b = false ∨ φ b = false → EntersAt hc p U φ b
  again : c.loopHeader b = true → φ b = true → ∀ e, c.target e = b → c.isBack e = true →
    ∀ ψ, Around hc ψ φ b → Covers hc p U ψ e (U φ b)

/-- `U` solves the loop of a header from the state `val` has at it, or the CFG from the state of its entry. -/
def SolvesPhases (hc : c.Consistent) (p : Problem B D) (entdom : D) (later : Phase B) (val U : Phase B → B → D) :
    Option B → Prop
  | none => (∀ φ, entdom ≤ U φ c.entry) ∧ ∀ φ b, SolvesAt hc p U φ b
  | some h => (∀ φ, Agree hc φ later h → val φ h ≤ U φ h) ∧
      ∀ b, hc.InLoop h b → b ≠ h → ∀ φ, Agree hc φ later h → SolvesAt hc p U φ b

/-- The phases of a region are those of the loops around it. -/
def InContext (hc : c.Consistent) (region : Option B) (later φ : Phase B) : Prop :=
  ∀ h, region = some h → Agree hc φ later h

/-- The input of a visit of `b`, and the fixpoint states after it. -/
inductive Input (c : Cfg B E) (p : Problem B D) (entdom : D) (st : Store B E D) (u : Unroll B D) (b : B) :
    D → Unroll B D → Prop where
  | entry : b = c.entry → Input c p entdom st u b entdom u
  | first {y u'} : b ≠ c.entry → st.firstIter b = true → Store.union st.mark (c.entryEdges b) = some y →
      u' = (if c.loopHeader b then (u.newState b).count b ⊥ else u) →
      Input c p entdom st u b (entryContext c p b y) u'
  | second {z} : st.firstIter b = false → u.numIter b = 1 → Store.union st.mark (c.backEdges b) = some z →
      Input c p entdom st u b z (u.count b z)
  | again {z} : st.firstIter b = false → u.later b = true → Store.union st.mark (c.backEdges b) = some z →
      Input c p entdom st u b (z ⊔ u.firstIterState b) (u.count b (u.firstIterState b))

/-- The states computed so far; `val φ b` is the input of the last visit of `b` with the phases `φ`. -/
structure Peeled (hc : c.Consistent) (p : Problem B D) (entdom : D) (st : Store B E D) (u : Unroll B D)
    (done : B → Prop) (val : Phase B → B → D) : Prop where
  respects : ∀ φ ψ b, Agree hc φ ψ b → val φ b = val ψ b
  counted : ∀ h, st.firstIter h = false → 1 ≤ u.numIter h
  headerState : ∀ h, st.firstIter h = false → st.headerState h = some (val u.later h)
  kept : ∀ e φ, ¬ done (c.target e) → Along hc φ u.later e → Known hc st done u.later φ (c.source e) →
    (st.mark e).isSome = true
  above : ∀ e m, st.mark e = some m → ∃ z, (∀ φ, Along hc φ u.later e →
    Known hc st done u.later φ (c.source e) → p.update (c.source e) (val φ (c.source e)) ≤ z) ∧
    stage c p done e z ≤ m
  solved : ∀ φ b, Full hc st done u.later φ b → SolvesAt hc p val φ b
  entered : ∀ b, st.firstIter b = false → u.later b = false → ∀ φ, Agree hc φ u.later b → EntersAt hc p val φ b
  first_le : ∀ b, st.firstIter b = false → u.later b = true → u.firstIterState b ≤ val u.later b
  first_above : ∀ b, st.firstIter b = false → u.later b = true → ∀ e, c.target e = b → c.isBack e = true →
    ∀ φ, Around hc φ u.later b → φ b = false → Covers hc p val φ e (u.firstIterState b)
  least : ∀ region, (∀ h, region = some h → st.firstIter h = false) → ∀ U,
    SolvesPhases hc p entdom u.later val U region →
    (∀ b φ, InRegion hc region b → InContext hc region u.later φ → Known hc st done u.later φ b →
      val φ b ≤ U φ b) ∧
    ∀ e m, InRegion hc region (c.source e) → InRegion hc region (c.target e) → st.mark e = some m →
      ∀ z, Bounds hc p U u.later e z → m ≤ stage c p done e z
  grows : ∀ h, st.firstIter h = false → u.later h = true → ∀ U,
    SolvesPhases hc p entdom u.later val U (some h) → ∀ z, u.firstIterState h ≤ z →
    (∀ e, c.target e = h → c.isBack e = true → Covers hc p U u.later e z) → val u.later h ≤ z

section Equations

variable {hc : c.Consistent} {p : Problem B D} {U U' : Phase B → B → D} {φ ψ : Phase B} {b : B} {e : E} {x y z : D}

theorem Bounds.of_along (h : Bounds hc p U φ e z) (halong : Along hc ψ φ e) : Bounds hc p U ψ e z :=
  fun χ hχ => h χ (hχ.trans halong)

theorem Covers.of_along (h : Covers hc p U φ e y) (halong : Along hc ψ φ e) : Covers hc p U ψ e y := by
  obtain ⟨z, hz, hle⟩ := h
  exact ⟨z, hz.of_along halong, hle⟩

theorem Covers.mono (h : Covers hc p U φ e x) (hle : x ≤ y) : Covers hc p U φ e y := by
  obtain ⟨z, hz, hx⟩ := h
  exact ⟨z, hz, hx.trans hle⟩

theorem Covers.congr (h : Covers hc p U φ e y) (hsame : ∀ ψ, Along hc ψ φ e → U ψ (c.source e) = U' ψ (c.source e)) :
    Covers hc p U' φ e y := by
  obtain ⟨z, hz, hle⟩ := h
  refine ⟨z, fun ψ hψ => ?_, hle⟩
  rw [← hsame ψ hψ]
  exact hz ψ hψ

theorem EntersAt.congr (h : EntersAt hc p U φ b) (hb : U φ b = U' φ b)
    (hsame : ∀ e, c.target e = b → c.isBack e = false → ∀ ψ, Along hc ψ φ e → U ψ (c.source e) = U' ψ (c.source e)) :
    EntersAt hc p U' φ b := by
  obtain ⟨y, hy, hle⟩ := h
  exact ⟨y, fun e htarget hforward => (hy e htarget hforward).congr (hsame e htarget hforward), hb ▸ hle⟩

/-- The sources of the in-edges matter with the phases that the equations of a block read. -/
theorem SolvesAt.congr (h : SolvesAt hc p U φ b) (hb : U φ b = U' φ b)
    (hsame : ∀ e, c.target e = b → ∀ ψ, Around hc ψ φ b → (c.loopHeader b = false ∨ φ b = false → c.isBack e = false) →
      U ψ (c.source e) = U' ψ (c.source e)) : SolvesAt hc p U' φ b where
  first hfirst := (h.first hfirst).congr hb fun e htarget hforward ψ hψ => by
    refine hsame e htarget ψ ?_ fun _ => hforward
    exact htarget ▸ (along_forward hforward).mp hψ
  again hheader hlater e htarget hback ψ hψ := by
    rw [← hb]
    refine (h.again hheader hlater e htarget hback ψ hψ).congr fun χ hχ => ?_
    refine hsame e htarget χ (Around.trans (htarget ▸ ((along_back hback).mp hχ).1) hψ) fun hfirst => ?_
    rw [hheader, hlater] at hfirst
    simp at hfirst

end Equations

namespace Input

variable {hc : c.Consistent} {p : Problem B D} {entdom : D} {st : Store B E D} {u u' : Unroll B D} {a b : B} {x : D}

theorem count_numIter (y : D) (hne : a ≠ b) : (u.count b y).numIter a = u.numIter a := by
  simp [Unroll.count, hne]

theorem numIter_other (hx : Input c p entdom st u b x u') (hne : a ≠ b) : u'.numIter a = u.numIter a := by
  cases hx with
  | entry => rfl
  | first _ _ _ hu =>
    rw [hu]
    split_ifs
    · simp [Unroll.count, Unroll.newState, hne]
    · rfl
  | second => exact count_numIter _ hne
  | again => exact count_numIter _ hne

theorem firstIterState_other (hx : Input c p entdom st u b x u') (hne : a ≠ b) :
    u'.firstIterState a = u.firstIterState a := by
  cases hx with
  | entry => rfl
  | first _ _ _ hu =>
    rw [hu]
    split_ifs
    · simp [Unroll.count, Unroll.newState, hne]
    · rfl
  | second => simp [Unroll.count, hne]
  | again => simp [Unroll.count]

theorem shift (hc : c.Consistent) (hx : Input c p entdom st u b x u') : Shift c st u.later u'.later b where
  other a hne := by simp only [Unroll.later, hx.numIter_other hne]
  fresh hfirst hheader := by
    cases hx with
    | entry hentry =>
      rw [hentry, hc.loopHeader_entry] at hheader
      exact absurd hheader (by decide)
    | first _ _ _ hu => simp [hu, hheader, Unroll.later, Unroll.count, Unroll.newState]
    | second hactive =>
      rw [hfirst] at hactive
      exact absurd hactive (by decide)
    | again hactive =>
      rw [hfirst] at hactive
      exact absurd hactive (by decide)
  again hactive hlater := by
    cases hx with
    | entry => exact hlater
    | first _ hfirst =>
      rw [hfirst] at hactive
      exact absurd hactive (by decide)
    | second _ hone => simp [Unroll.later, hone] at hlater
    | again =>
      simp only [Unroll.later, decide_eq_true_eq] at hlater
      simp only [Unroll.later, Unroll.count, Function.update_self, decide_eq_true_eq]
      omega

/-- A header that goes on has been counted. -/
theorem counted (hx : Input c p entdom st u b x u') (hc : c.Consistent) (hheader : c.loopHeader b = true) :
    1 ≤ u'.numIter b := by
  cases hx with
  | entry hentry =>
    rw [hentry, hc.loopHeader_entry] at hheader
    exact absurd hheader (by decide)
  | first _ _ _ hu => simp [hu, hheader, Unroll.count, Unroll.newState]
  | second => simp [Unroll.count]
  | again => simp [Unroll.count]

end Input

namespace Peeled

variable {hc : c.Consistent} {p : Problem B D} {entdom : D} {st : Store B E D} {u u' : Unroll B D}
  {done : B → Prop} {val : Phase B → B → D} {φ : Phase B} {a b h : B} {e : E} {x m : D}

section

variable (hP : Placed hc st done) (hQ : Peeled hc p entdom st u done val) (hdone : ¬ done b)
  (hready : Ready c st done b)

include hP hQ hdone hready

/-- The state of a finished edge covers what its source gives. -/
theorem covers_of_finished (hfinished : Finished c st done e) (hmark : st.mark e = some m)
    (halong : Along hc φ u.later e) : Covers hc p val φ e m := by
  obtain ⟨z, hz, hle⟩ := hQ.above e m hmark
  refine ⟨z, fun ψ hψ => ?_, by rwa [stage_finished hfinished] at hle⟩
  have halong' := hψ.trans halong
  exact hz ψ halong' (known_of_finished hP hdone hready hfinished halong')

/-- The back edges of a header that iterates are covered by their union. -/
theorem covers_back (hactive : st.firstIter b = false) {z : D} (hz : Store.union st.mark (c.backEdges b) = some z)
    (htarget : c.target e = b) (hback : c.isBack e = true) (hagree : Agree hc φ u.later b) :
    Covers hc p val φ e z := by
  have hfinished := hready.finished htarget (.inr hactive)
  obtain ⟨m, hm⟩ := Option.isSome_iff_exists.mp (hP.isSome_finished hdone hready htarget (.inr hactive))
  have halong : Along hc φ u.later e := by
    rw [along_back hback, htarget]
    exact ⟨hagree.around, hagree b (hP.header b hactive).1 (hc.inLoop_self b)⟩
  exact (covers_of_finished hP hQ hdone hready hfinished hm halong).mono
    (Store.le_union hz ((Store.mem_backEdges hc).mpr ⟨htarget, hback⟩) hm)

/-- The entry edges of a block are covered by their union. -/
theorem covers_entry {y : D} (hy : Store.union st.mark (c.entryEdges b) = some y)
    (htarget : c.target e = b) (hforward : c.isBack e = false) (haround : Around hc φ u.later b) :
    Covers hc p val φ e y := by
  have hfinished := hready.finished htarget (.inl hforward)
  obtain ⟨m, hm⟩ := Option.isSome_iff_exists.mp (hP.isSome_finished hdone hready htarget (.inl hforward))
  have halong : Along hc φ u.later e := by
    rw [along_forward hforward, htarget]
    exact haround
  exact (covers_of_finished hP hQ hdone hready hfinished hm halong).mono
    (Store.le_union hy ((Store.mem_entryEdges hc).mpr ⟨htarget, hforward⟩) hm)

/-- When a header that iterates is back on the work-list, its loop is done with the phases at work. -/
theorem full_of_inLoop (hactive : st.firstIter b = false) (hin : hc.InLoop b a) (hne : a ≠ b)
    (hagree : Agree hc φ u.later b) : Full hc st done u.later φ a := by
  refine .inr ⟨fun h hh hinh => ?_, hP.done_of_inLoop hdone hready hactive hin hne⟩
  obtain hinb | hinb := hinh.nested hin
  · exact hagree h (hP.header h hh).1 hinb
  · obtain rfl := quiet hP hdone hready hh hinb
    exact hagree h (hP.header h hh).1 (hc.inLoop_self h)

theorem solvesPhases_val (hactive : st.firstIter b = false) :
    SolvesPhases hc p entdom u.later val val (some b) :=
  ⟨fun _ _ => le_rfl, fun _ hin hne _ hagree =>
    hQ.solved _ _ (full_of_inLoop hP hQ hdone hready hactive hin hne hagree)⟩

/-- After the first iteration, the input of a header grows from one iteration to the next. -/
theorem val_le_input (hactive : st.firstIter b = false) (hlater : u.later b = true) {z : D}
    (hz : Store.union st.mark (c.backEdges b) = some z) : val u.later b ≤ z ⊔ u.firstIterState b := by
  refine hQ.grows b hactive hlater val (solvesPhases_val hP hQ hdone hready hactive) _ le_sup_right ?_
  intro e htarget hback
  exact (covers_back hP hQ hdone hready hactive hz htarget hback fun _ _ _ => rfl).mono le_sup_left

/-- The input is below every solution of a region around the block. -/
theorem input_le (hx : Input c p entdom st u b x u') {region : Option B} {U : Phase B → B → D}
    (hregion : ∀ h, region = some h → st.firstIter h = false) (hin : InRegion hc region b)
    (hne : region ≠ some b) (hU : SolvesPhases hc p entdom u.later val U region)
    (hagree : Agree hc φ u'.later b) : x ≤ U φ b := by
  have hS := hx.shift hc
  have haround : Around hc φ u.later b := hS.around.mp hagree.around
  have hcontext : InContext hc region u.later φ := by
    rintro h rfl
    have hout : ¬ hc.InLoop b h := fun hin' => hne (congrArg some ((hin h rfl).antisymm hin'))
    exact (hS.agree_of_not hout).mp (hagree.mono (hin h rfl))
  have hsolves : b ≠ c.entry → SolvesAt hc p U φ b := by
    intro hentry
    cases region with
    | none => exact hU.2 φ b
    | some h => exact hU.2 b (hin h rfl) (fun heq => hne (congrArg some heq.symm)) φ (hcontext h rfl)
  obtain ⟨hvalues, hmarks⟩ := hQ.least region hregion U hU
  have hmark : ∀ e m y, c.target e = b → Finished c st done e → st.mark e = some m →
      Covers hc p U u.later e y → m ≤ y := by
    rintro e m y rfl hfinished hm ⟨z, hz, hle⟩
    have hsource : InRegion hc region (c.source e) := by
      rintro h rfl
      exact (hin h rfl).source fun heq => hne (congrArg some heq.symm)
    have hle' := hmarks e m hsource hin hm z hz
    rw [stage_finished hfinished] at hle'
    exact hle'.trans hle
  have hbacks : ∀ z, st.firstIter b = false → Store.union st.mark (c.backEdges b) = some z →
      u'.later b = true → z ≤ U φ b := by
    intro z hactive hz hlater
    have hb := (hP.header b hactive).1
    refine Store.union_le hz fun e hmem m hm => ?_
    obtain ⟨htarget, hback⟩ := (Store.mem_backEdges hc).mp hmem
    refine hmark e m _ htarget (hready.finished htarget (.inr hactive)) hm ?_
    exact (hsolves (hP.ne_entry hactive)).again hb ((hagree b hb (hc.inLoop_self b)).trans hlater) e htarget hback _
      haround.symm
  cases hx with
  | entry hentry =>
    subst hentry
    cases region with
    | none => exact hU.1 φ
    | some h => exact absurd (congrArg some (hc.inLoop_entry (hin h rfl))) hne
  | first hentry hfirst hy hu =>
    have hphase : c.loopHeader b = false ∨ φ b = false := by
      cases hb : c.loopHeader b with
      | false => exact .inl rfl
      | true => exact .inr ((hagree b hb (hc.inLoop_self b)).trans (hS.fresh hfirst hb))
    obtain ⟨y', hy', hle⟩ := (hsolves hentry).first hphase
    refine ((entryContext c p b).monotone (Store.union_le hy fun e hmem m hm => ?_)).trans hle
    obtain ⟨htarget, hforward⟩ := (Store.mem_entryEdges hc).mp hmem
    refine hmark e m _ htarget (hready.finished htarget (.inl hforward)) hm ?_
    refine (hy' e htarget hforward).of_along ?_
    rw [along_forward hforward, htarget]
    exact haround.symm
  | second hactive hone hz => exact hbacks _ hactive hz (by simp [Unroll.later, Unroll.count, hone])
  | again hactive hlater hz =>
    have hlater' := hS.again hactive hlater
    refine sup_le (hbacks _ hactive hz hlater') ?_
    have hb := (hP.header b hactive).1
    have hagree' : Agree hc φ u.later b :=
      haround.agree fun _ => (hagree b hb (hc.inLoop_self b)).trans (hlater'.trans hlater.symm)
    calc u.firstIterState b ≤ val u.later b := hQ.first_le b hactive hlater
      _ = val φ b := hQ.respects _ _ b hagree'.symm
      _ ≤ U φ b := hvalues b φ hin hcontext (.inr ⟨hagree'.now hP, .inr hactive⟩)

end

end Peeled

end Otawa.HalfAbsInt.FirstUnrolling
