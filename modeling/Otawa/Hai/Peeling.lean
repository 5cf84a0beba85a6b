import Otawa.Hai.Peeled
import Otawa.Hai.Iteration

/-!
# The iteration with the first iterations unrolled

A visit keeps `Peeled`, whatever block of the work-list is taken.
-/

set_option linter.unusedSectionVars false

namespace Otawa.HalfAbsInt.FirstUnrolling

variable {B E D : Type} [DecidableEq B] [DecidableEq E] [SemilatticeSup D] [OrderBot D]
variable {c : Cfg B E} {hc : c.Consistent} {p : Problem B D} {entdom : D} {st : Store B E D}
  {u u' : Unroll B D} {done : B → Prop} {val : Phase B → B → D} {later φ ψ : Phase B} {a b h : B} {e : E} {x x' : D}
  {r : Store B E D × List B}

open Classical in
/-- The inputs of the last visits, after a visit of `b` with the phases `later`. -/
noncomputable def revisit (hc : c.Consistent) (val : Phase B → B → D) (later : Phase B) (b : B) (x : D) :
    Phase B → B → D :=
  fun φ a => if a = b ∧ Agree hc φ later b then x else val φ a

theorem revisit_self (hagree : Agree hc φ later b) : revisit hc val later b x φ b = x :=
  if_pos ⟨rfl, hagree⟩

theorem revisit_other (hne : ¬ (a = b ∧ Agree hc φ later b)) : revisit hc val later b x φ a = val φ a :=
  if_neg hne

theorem revisit_of_ne (hne : a ≠ b) : revisit hc val later b x φ a = val φ a :=
  revisit_other fun h => hne h.1

/-- The forward in-edges of the block do not come from it. -/
theorem forward_source_ne (hc : c.Consistent) (htarget : c.target e = b) (hforward : c.isBack e = false) : c.source e ≠ b := by
  intro hsource
  have hin : hc.InLoop b (c.source e) := hsource ▸ hc.inLoop_self b
  rw [hin.isBack htarget] at hforward
  exact absurd hforward (by decide)

/-! ### A visit that goes on -/

section Advanced

variable (hP : Placed hc st done) (hQ : Peeled hc p entdom st u done val) (hdone : ¬ done b)
  (hready : Ready c st done b) (hx : Input c p entdom st u b x u') (hA : Advanced c st b x (p.update b x) r)

include hP hQ hdone hready hx hA

/-- A header that still runs after the visit, other than the one visited, is not in its loop. -/
theorem runs_apart (hactive : r.1.firstIter h = false) (hne : h ≠ b) :
    st.firstIter h = false ∧ ¬ hc.InLoop b h := by
  have hold : st.firstIter h = false := by
    rwa [hA.firstIter_other h (.inl hne)] at hactive
  exact ⟨hold, fun hin => hne (quiet hP hdone hready hold hin)⟩

theorem later_other (hne : a ≠ b) : u'.later a = u.later a :=
  (hx.shift hc).other a hne

/-- The source of an in-edge that the equations of a block read is not visited again. -/
theorem revisit_source (hfull : Full hc st done u.later φ a) (hnot : ¬ (hc.InLoop b a ∧ Agree hc φ u'.later b))
    (htarget : c.target e = a) (haround : Around hc ψ φ a)
    (hphase : c.loopHeader a = false ∨ φ a = false → c.isBack e = false) :
    ¬ (c.source e = b ∧ Agree hc ψ u'.later b) := by
  rintro ⟨hsource, hagree⟩
  have hS := hx.shift hc
  obtain ⟨h, hactive, hin, hφ, hlater, -⟩ | ⟨hnow, ha⟩ := hfull
  · have hheader := (hP.header h hactive).1
    by_cases hne : h = a
    · -- a header past its first iteration reads its forward in-edges
      subst hne
      have hforward := hphase (.inr hφ)
      by_cases hb : h = b
      · subst hb
        have hin' : hc.InLoop h (c.source e) := hsource ▸ hc.inLoop_self _
        rw [hin'.isBack htarget] at hforward
        exact absurd hforward (by decide)
      · exact Advanced.entry_source_ne hP hdone hready hA hactive hb htarget hforward hsource
    · have hinb : hc.InLoop h b := by
        have hin' := hin
        rw [← htarget] at hin'
        exact hsource ▸ hin'.source (htarget ▸ Ne.symm hne)
      have hψ : ψ h = false := (haround h hin hne).trans hφ
      rw [hagree h hheader hinb] at hψ
      by_cases hb : h = b
      · subst hb
        rw [hS.again hactive hlater] at hψ
        exact absurd hψ (by decide)
      · rw [hS.other h hb, hlater] at hψ
        exact absurd hψ (by decide)
  · by_cases hin : hc.InLoop b a
    · have hab : a ≠ b := fun heq => hdone (heq ▸ ha)
      have hactive : st.firstIter b = false :=
        active_of_visited (hP.loop_visited b a hin (.inl ha)) hdone
      have hheader := (hP.header b hactive).1
      refine hnot ⟨hin, fun h hh hinh => ?_⟩
      rw [← haround h (hinh.trans hin) ?_, hagree h hh hinh]
      rintro rfl
      exact hab (hinh.antisymm hin)
    · exact hP.target_not_done hdone hready hsource (htarget ▸ hin) (htarget ▸ ha)

/-- The equations of a block that stays done. -/
theorem solvesAt_revisit (hfull : Full hc st done u.later φ a)
    (hnot : ¬ (hc.InLoop b a ∧ Agree hc φ u'.later b)) :
    SolvesAt hc p (revisit hc val u'.later b x) φ a := by
  refine (hQ.solved φ a hfull).congr (revisit_other ?_).symm ?_
  · rintro ⟨rfl, hagree⟩
    exact hnot ⟨hc.inLoop_self _, hagree⟩
  · intro e htarget ψ hψ hphase
    exact (revisit_other (revisit_source hP hQ hdone hready hx hA hfull hnot htarget hψ hphase)).symm

/-- A block that takes its forward in-edges solves their equation. -/
theorem entersAt_revisit (hfirst : b = c.entry ∨ st.firstIter b = true) (hagree : Agree hc φ u'.later b) :
    EntersAt hc p (revisit hc val u'.later b x) φ b := by
  have haround := (hx.shift hc).around.mp hagree.around
  cases hx with
  | entry hentry =>
    refine ⟨⊥, fun e htarget => absurd (htarget.trans hentry) (hc.target_ne_entry e), ?_⟩
    rw [revisit_self hagree]
    simp [entryContext, hentry, hc.loopHeader_entry]
  | @first y _ hentry _ hy =>
    refine ⟨y, fun e htarget hforward => ?_, (revisit_self hagree).ge⟩
    refine (hQ.covers_entry hP hdone hready hy htarget hforward haround).congr fun ψ _ => ?_
    exact (revisit_of_ne (forward_source_ne hc htarget hforward)).symm
  | second hactive =>
    obtain hentry | hfirst := hfirst
    · exact absurd hentry (hP.ne_entry hactive)
    · rw [hfirst] at hactive
      exact absurd hactive (by decide)
  | again hactive =>
    obtain hentry | hfirst := hfirst
    · exact absurd hentry (hP.ne_entry hactive)
    · rw [hfirst] at hactive
      exact absurd hactive (by decide)

theorem revisit_solved (hfull : Full hc r.1 (restart hc done b) u'.later φ a) :
    SolvesAt hc p (revisit hc val u'.later b x) φ a := by
  obtain ⟨rfl, hheader, hagree⟩ | ⟨rfl, hactive, hlater, hlater', hagree⟩ | ⟨hfull, hnot⟩ :=
    of_full hP hdone hready hA (hx.shift hc) hfull
  · refine ⟨fun _ => entersAt_revisit hP hQ hdone hready hx hA ?_ hagree, fun hheader' => ?_⟩
    · by_contra hno
      push Not at hno
      rw [(hP.header a (Bool.eq_false_iff.mpr hno.2)).1] at hheader
      exact absurd hheader (by decide)
    · rw [hheader'] at hheader
      exact absurd hheader (by decide)
  · -- the first iteration is over: what the header took in it stays
    have hheader := (hP.header a hactive).1
    have hφ : φ a = false := (hagree a hheader (hc.inLoop_self a)).trans hlater
    have hmoved : ¬ Agree hc φ u'.later a := fun hagree' => by
      rw [hagree' a hheader (hc.inLoop_self a), hlater'] at hφ
      exact absurd hφ (by decide)
    refine ⟨fun _ => ?_, fun _ hφ' => ?_⟩
    · refine (hQ.entered a hactive hlater φ hagree).congr (revisit_other fun h => hmoved h.2).symm ?_
      intro e htarget hforward ψ _
      exact (revisit_of_ne (forward_source_ne hc htarget hforward)).symm
    · rw [hφ] at hφ'
      exact absurd hφ' (by decide)
  · exact solvesAt_revisit hP hQ hdone hready hx hA hfull hnot

theorem revisit_entered (hactive : r.1.firstIter a = false) (hlater : u'.later a = false)
    (hagree : Agree hc φ u'.later a) : EntersAt hc p (revisit hc val u'.later b x) φ a := by
  by_cases hab : a = b
  · subst hab
    refine entersAt_revisit hP hQ hdone hready hx hA (.inr ?_) hagree
    by_contra hold
    replace hold := Bool.eq_false_iff.mpr hold
    have hS := hx.shift hc
    cases hx with
    | entry hentry => exact hP.ne_entry hold hentry
    | first _ hfirst =>
      rw [hfirst] at hold
      exact absurd hold (by decide)
    | second _ hone => simp [Unroll.later, Unroll.count, hone] at hlater
    | again _ hlater' =>
      rw [hS.again hold hlater'] at hlater
      exact absurd hlater (by decide)
  · obtain ⟨hold, hout⟩ := runs_apart hP hQ hdone hready hx hA hactive hab
    have hlater' := (later_other hP hQ hdone hready hx hA hab).symm.trans hlater
    have hagree' := ((hx.shift hc).agree_of_not hout).mp hagree
    refine (hQ.entered a hold hlater' φ hagree').congr (revisit_of_ne hab).symm fun e htarget hforward ψ _ => ?_
    exact (revisit_of_ne (Advanced.entry_source_ne hP hdone hready hA hold hab htarget hforward)).symm

/-- What a header has taken in its first iteration stays. -/
theorem covers_revisit {y : D} (hcovers : Covers hc p val φ e y) (hback : c.isBack e = true)
    (hlater : u'.later (c.target e) = true) (hφ : φ (c.target e) = false) :
    Covers hc p (revisit hc val u'.later b x) φ e y := by
  refine hcovers.congr fun ψ hψ => (revisit_other ?_).symm
  rintro ⟨hsource, hagree⟩
  have hψ' := ((along_back hback).mp hψ).2
  rw [hφ, hagree _ (hc.loopHeader_target hback) (hsource ▸ hc.inLoop_source hback), hlater] at hψ'
  exact absurd hψ' (by decide)

theorem revisit_first_le (hactive : r.1.firstIter a = false) (hlater : u'.later a = true) :
    u'.firstIterState a ≤ revisit hc val u'.later b x u'.later a := by
  by_cases hab : a = b
  · subst hab
    rw [revisit_self fun _ _ _ => rfl]
    have hP' := Advanced.placed hP hdone hready hA
    have hS := hx.shift hc
    cases hx with
    | entry hentry => exact absurd hentry (hP'.ne_entry hactive)
    | first _ hfirst =>
      rw [hS.fresh hfirst (hP'.header a hactive).1] at hlater
      exact absurd hlater (by decide)
    | second => simp [Unroll.count]
    | again => simp [Unroll.count]
  · obtain ⟨hold, hout⟩ := runs_apart hP hQ hdone hready hx hA hactive hab
    rw [hx.firstIterState_other hab, revisit_of_ne hab]
    refine (hQ.first_le a hold ?_).trans (le_of_eq (hQ.respects _ _ a ?_))
    · rw [← later_other hP hQ hdone hready hx hA hab, hlater]
    · exact ((hx.shift hc).agree_of_not hout).mpr fun _ _ _ => rfl

theorem revisit_headerState (hactive : r.1.firstIter a = false) :
    r.1.headerState a = some (revisit hc val u'.later b x u'.later a) := by
  by_cases hab : a = b
  · subst hab
    rw [revisit_self fun _ _ _ => rfl]
    exact hA.headerState_self ((Advanced.placed hP hdone hready hA).header a hactive).1
  · obtain ⟨hold, hout⟩ := runs_apart hP hQ hdone hready hx hA hactive hab
    rw [hA.headerState_other a (.inl hab), revisit_of_ne hab, hQ.headerState a hold]
    exact congrArg some (hQ.respects _ _ a (((hx.shift hc).agree_of_not hout).mpr fun _ _ _ => rfl))

theorem revisit_kept (htarget : ¬ restart hc done b (c.target e)) (halong : Along hc φ u'.later e)
    (hknown : Known hc r.1 (restart hc done b) u'.later φ (c.source e)) : (r.1.mark e).isSome = true := by
  by_cases hsource : c.source e = b
  · exact hA.isSome_out hsource
  have hS := hx.shift hc
  obtain ⟨heq, -⟩ | ⟨hknown, hnot⟩ := (known_iff hP hdone hready hA hS).mp hknown
  · exact absurd heq hsource
  have hout : ¬ (hc.InLoop b (c.source e) ∧ hc.InLoop b (c.target e)) :=
    fun hin => hnot ⟨hin.1, halong.agree hin.1 hin.2⟩
  have hkept : ¬ Taken c b e := by
    rintro ⟨rfl, hheader | hback⟩
    · exact htarget (.inr ⟨rfl, hheader⟩)
    · exact hout ⟨hc.inLoop_source hback, hc.inLoop_self _⟩
  rw [hA.mark_kept e hsource hkept]
  refine hQ.kept e φ (fun ht => htarget (.inl ⟨ht, fun hin => hout ⟨?_, hin⟩⟩)) ((hS.along_of_not hout).mp halong)
    hknown
  exact hin.source fun heq => hdone (heq ▸ ht)

theorem revisit_above (hmark : r.1.mark e = some x') : ∃ z, (∀ φ, Along hc φ u'.later e →
    Known hc r.1 (restart hc done b) u'.later φ (c.source e) →
      p.update (c.source e) (revisit hc val u'.later b x φ (c.source e)) ≤ z) ∧
    stage c p (restart hc done b) e z ≤ x' := by
  have hS := hx.shift hc
  have hsome : (r.1.mark e).isSome = true := by rw [hmark, Option.isSome_some]
  rw [Advanced.stage_eq hP hdone hready hA hsome]
  by_cases hsource : c.source e = b
  · -- the out-edges of the block: what was on them stays, joined with the output
    have hout : p.update b x ≤ x' := by
      by_cases htaken : Taken c b e
      · rw [hA.mark_taken_out e hsource htaken] at hmark
        exact Option.some.inj hmark ▸ le_sup_right
      · rw [hA.mark_out e hsource htaken] at hmark
        exact Option.some.inj hmark ▸ le_sup_right
    refine ⟨x', fun φ halong hknown => ?_, by rw [stage_source hP (hsource.symm ▸ hdone)]; exact le_rfl⟩
    obtain ⟨-, hagree⟩ | ⟨hknown, hnot⟩ := (known_iff hP hdone hready hA hS).mp hknown
    · rw [hsource, revisit_self hagree]
      exact hout
    · rw [hsource] at hnot
      have hmoved : ¬ Agree hc φ u'.later b := fun h => hnot ⟨hc.inLoop_self b, h⟩
      have hleaves : ¬ hc.InLoop b (c.target e) :=
        fun hin => hmoved (halong.agree (hsource.symm ▸ hc.inLoop_self b) hin)
      have halong' := (hS.along_of_not fun hin => hleaves hin.2).mp halong
      obtain ⟨m, hm⟩ := Option.isSome_iff_exists.mp
        (hQ.kept e φ (hP.target_not_done hdone hready hsource hleaves) halong' hknown)
      obtain ⟨z, hz, hle⟩ := hQ.above e m hm
      rw [stage_source hP (hsource.symm ▸ hdone)] at hle
      rw [hA.mark_out e hsource fun htaken => hleaves (htaken.1 ▸ hc.inLoop_self _), hm] at hmark
      rw [revisit_other fun h => hmoved h.2]
      exact (hz φ halong' hknown).trans (hle.trans (Option.some.inj hmark ▸ le_sup_left))
  · have hout : ¬ (hc.InLoop b (c.source e) ∧ hc.InLoop b (c.target e)) :=
      fun hin => hsource (Advanced.mark_inLoop hP hdone hready hA hin.1 hin.2 hmark).1
    have hkept : ¬ Taken c b e := by
      intro htaken
      rw [hA.mark_taken e hsource htaken] at hmark
      cases hmark
    rw [hA.mark_kept e hsource hkept] at hmark
    obtain ⟨z, hz, hle⟩ := hQ.above e x' hmark
    refine ⟨z, fun φ halong hknown => ?_, hle⟩
    obtain ⟨heq, -⟩ | ⟨hknown, -⟩ := (known_iff hP hdone hready hA hS).mp hknown
    · exact absurd heq hsource
    · rw [revisit_of_ne hsource]
      exact hz φ ((hS.along_of_not hout).mp halong) hknown

theorem revisit_first_above (hactive : r.1.firstIter a = false) (hlater : u'.later a = true)
    (htarget : c.target e = a) (hback : c.isBack e = true) (haround : Around hc φ u'.later a) (hφ : φ a = false) :
    Covers hc p (revisit hc val u'.later b x) φ e (u'.firstIterState a) := by
  refine covers_revisit hP hQ hdone hready hx hA ?_ hback (htarget ▸ hlater) (htarget ▸ hφ)
  have hS := hx.shift hc
  have hP' := Advanced.placed hP hdone hready hA
  by_cases hab : a = b
  · subst hab
    rw [hS.around] at haround
    cases hx with
    | entry hentry => exact absurd hentry (hP'.ne_entry hactive)
    | first _ hfirst =>
      rw [hS.fresh hfirst (hP'.header a hactive).1] at hlater
      exact absurd hlater (by decide)
    | second hold hone hz =>
      have hagree : Agree hc φ u.later a := haround.agree fun _ => by simp [hφ, Unroll.later, hone]
      rw [show (u.count a _).firstIterState a = _ from Function.update_self ..]
      exact hQ.covers_back hP hdone hready hold hz htarget hback hagree
    | again hold hlater' =>
      rw [show (u.count a _).firstIterState a = _ from Function.update_self ..]
      exact hQ.first_above a hold hlater' e htarget hback φ haround hφ
  · obtain ⟨hold, hout⟩ := runs_apart hP hQ hdone hready hx hA hactive hab
    rw [hx.firstIterState_other hab]
    exact hQ.first_above a hold ((hS.other a hab).symm.trans hlater) e htarget hback φ
      ((hS.around_of_not hout).mp haround) hφ

/-- A solution for the inputs after the visit is one for the inputs before it. -/
theorem solvesPhases_of_revisit {region : Option B} {U : Phase B → B → D}
    (hregion : ∀ h, region = some h → r.1.firstIter h = false) (hne : region ≠ some b)
    (hU : SolvesPhases hc p entdom u'.later (revisit hc val u'.later b x) U region) :
    SolvesPhases hc p entdom u.later val U region := by
  cases region with
  | none => exact hU
  | some h =>
    have hhb : h ≠ b := fun heq => hne (congrArg some heq)
    obtain ⟨-, hout⟩ := runs_apart hP hQ hdone hready hx hA (hregion h rfl) hhb
    have hagree : ∀ φ, Agree hc φ u.later h → Agree hc φ u'.later h :=
      fun φ => ((hx.shift hc).agree_of_not hout).mpr
    refine ⟨fun φ hφ => ?_, fun a hin hah φ hφ => hU.2 a hin hah φ (hagree φ hφ)⟩
    have hle := hU.1 φ (hagree φ hφ)
    rwa [revisit_of_ne hhb] at hle

theorem revisit_least {region : Option B} {U : Phase B → B → D}
    (hregion : ∀ h, region = some h → r.1.firstIter h = false)
    (hU : SolvesPhases hc p entdom u'.later (revisit hc val u'.later b x) U region) :
    (∀ a φ, InRegion hc region a → InContext hc region u'.later φ →
      Known hc r.1 (restart hc done b) u'.later φ a → revisit hc val u'.later b x φ a ≤ U φ a) ∧
    ∀ e m, InRegion hc region (c.source e) → InRegion hc region (c.target e) → r.1.mark e = some m →
      ∀ z, Bounds hc p U u'.later e z → m ≤ stage c p (restart hc done b) e z := by
  have hS := hx.shift hc
  -- the input of the visit is below the solution, in the loop of the block and around it
  have hinput : InRegion hc region b → ∀ φ, Agree hc φ u'.later b → x ≤ U φ b := by
    intro hin φ hagree
    by_cases hne : region = some b
    · subst hne
      have hle := hU.1 φ hagree
      rwa [revisit_self hagree] at hle
    · refine hQ.input_le hP hdone hready hx (fun h heq => ?_) hin hne
        (solvesPhases_of_revisit hP hQ hdone hready hx hA hregion hne hU) hagree
      have hhb : h ≠ b := fun heq' => hne (heq' ▸ heq)
      exact (runs_apart hP hQ hdone hready hx hA (hregion h heq) hhb).1
  have hown : ∀ e m z, InRegion hc region (c.source e) → hc.InLoop b (c.source e) → hc.InLoop b (c.target e) →
      r.1.mark e = some m → Bounds hc p U u'.later e z → m ≤ stage c p (restart hc done b) e z := by
    intro e m z hin hinb hinb' hmark hz
    obtain ⟨hsource, rfl⟩ := Advanced.mark_inLoop hP hdone hready hA hinb hinb' hmark
    rw [Advanced.stage_eq hP hdone hready hA (by rw [hmark, Option.isSome_some]),
      stage_source hP (hsource.symm ▸ hdone)]
    have hle := hz u'.later fun _ _ _ => rfl
    rw [hsource] at hle hin
    exact sup_le bot_le (((p.update b).monotone (hinput hin _ fun _ _ _ => rfl)).trans hle)
  by_cases hne : region = some b
  · subst hne
    refine ⟨fun a φ hin hcontext hknown => ?_, fun e m hin hin' hmark z hz => ?_⟩
    · obtain ⟨rfl, hagree⟩ | ⟨-, hnot⟩ := (known_iff hP hdone hready hA hS).mp hknown
      · rw [revisit_self hagree]
        exact hinput hin φ hagree
      · exact absurd ⟨hin b rfl, hcontext b rfl⟩ hnot
    · exact hown e m z hin (hin b rfl) (hin' b rfl) hmark hz
  have hU' := solvesPhases_of_revisit hP hQ hdone hready hx hA hregion hne hU
  have hold : ∀ h, region = some h → st.firstIter h = false ∧ ¬ hc.InLoop b h := by
    intro h heq
    exact runs_apart hP hQ hdone hready hx hA (hregion h heq) fun heq' => hne (heq' ▸ heq)
  obtain ⟨hvalues, hmarks⟩ := hQ.least region (fun h heq => (hold h heq).1) U hU'
  refine ⟨fun a φ hin hcontext hknown => ?_, fun e m hin hin' hmark z hz => ?_⟩
  · obtain ⟨rfl, hagree⟩ | ⟨hknown, hnot⟩ := (known_iff hP hdone hready hA hS).mp hknown
    · rw [revisit_self hagree]
      exact hinput hin φ hagree
    · have hother : ¬ (a = b ∧ Agree hc φ u'.later b) := by
        rintro ⟨rfl, hagree⟩
        exact hnot ⟨hc.inLoop_self _, hagree⟩
      rw [revisit_other hother]
      refine hvalues a φ hin (fun h heq => ?_) hknown
      exact (hS.agree_of_not (hold h heq).2).mp (hcontext h heq)
  · by_cases hinb : hc.InLoop b (c.source e) ∧ hc.InLoop b (c.target e)
    · exact hown e m z hin hinb.1 hinb.2 hmark hz
    have hz' : Bounds hc p U u.later e z := hz.of_along ((hS.along_of_not hinb).mpr fun _ _ _ => rfl)
    rw [Advanced.stage_eq hP hdone hready hA (by rw [hmark, Option.isSome_some])]
    by_cases hsource : c.source e = b
    · have htaken : ¬ Taken c b e :=
        fun htaken => hinb ⟨hsource.symm ▸ hc.inLoop_self b, htaken.1.symm ▸ hc.inLoop_self b⟩
      rw [hA.mark_out e hsource htaken] at hmark
      refine Option.some.inj hmark ▸ sup_le ?_ ?_
      · cases hm : st.mark e with
        | none => exact bot_le
        | some m' => exact hmarks e m' hin hin' hm z hz'
      · have hle := hz u'.later fun _ _ _ => rfl
        rw [hsource] at hle hin
        rw [stage_source hP (hsource.symm ▸ hdone)]
        exact ((p.update b).monotone (hinput hin _ fun _ _ _ => rfl)).trans hle
    · by_cases htaken : Taken c b e
      · rw [hA.mark_taken e hsource htaken] at hmark
        cases hmark
      · rw [hA.mark_kept e hsource htaken] at hmark
        exact hmarks e m hin hin' hmark z hz'

theorem revisit_grows (hactive : r.1.firstIter h = false) (hlater : u'.later h = true) {U : Phase B → B → D}
    (hU : SolvesPhases hc p entdom u'.later (revisit hc val u'.later b x) U (some h)) {z : D}
    (hfirst : u'.firstIterState h ≤ z)
    (hback : ∀ e, c.target e = h → c.isBack e = true → Covers hc p U u'.later e z) :
    revisit hc val u'.later b x u'.later h ≤ z := by
  have hS := hx.shift hc
  have hP' := Advanced.placed hP hdone hready hA
  by_cases hhb : h = b
  · subst hhb
    rw [revisit_self fun _ _ _ => rfl]
    have hle : x ≤ U u'.later h := by
      have hle := hU.1 u'.later fun _ _ _ => rfl
      rwa [revisit_self fun _ _ _ => rfl] at hle
    cases hx with
    | entry hentry => exact absurd hentry (hP'.ne_entry hactive)
    | first _ hfirst' =>
      rw [hS.fresh hfirst' (hP'.header h hactive).1] at hlater
      exact absurd hlater (by decide)
    | second =>
      rw [show (u.count h _).firstIterState h = _ from Function.update_self ..] at hfirst
      exact hfirst
    | @again y hold hlater' hy =>
      rw [show (u.count h _).firstIterState h = _ from Function.update_self ..] at hfirst
      refine sup_le (Store.union_le hy fun e hmem m hm => ?_) hfirst
      obtain ⟨htarget, hisBack⟩ := (Store.mem_backEdges hc).mp hmem
      -- the phases of the header are the same as before the visit, and its input has grown
      have hsame : ∀ φ, Agree hc φ u.later h → Agree hc φ (u.count h (u.firstIterState h)).later h :=
        fun φ hφ => (hS.around.mpr hφ.around).agree fun hheader =>
          (hφ h hheader (hc.inLoop_self h)).trans (hlater'.trans hlater.symm)
      have hU' : SolvesPhases hc p entdom u.later val U (some h) := by
        refine ⟨fun φ hφ => ?_, fun a hin hne φ hφ => hU.2 a hin hne φ (hsame φ hφ)⟩
        have hle := hU.1 φ (hsame φ hφ)
        rw [revisit_self (hsame φ hφ)] at hle
        calc val φ h = val u.later h := hQ.respects φ u.later h hφ
          _ ≤ y ⊔ u.firstIterState h := hQ.val_le_input hP hdone hready hold hlater' hy
          _ ≤ U φ h := hle
      obtain ⟨z', hz', hle'⟩ := hback e htarget hisBack
      have hz'' : Bounds hc p U u.later e z' := by
        refine hz'.of_along ?_
        rw [along_back hisBack, htarget]
        exact ⟨hS.around.mpr fun _ _ _ => rfl, hlater'.trans hlater.symm⟩
      have hmark := (hQ.least (some h) (by rintro _ ⟨⟩; exact hold) U hU').2 e m
        (by rintro _ ⟨⟩; exact htarget ▸ hc.inLoop_source hisBack)
        (by rintro _ ⟨⟩; exact htarget ▸ hc.inLoop_self _) hm z' hz''
      rw [stage_finished (hready.finished htarget (.inr hold))] at hmark
      exact hmark.trans hle'
  · obtain ⟨hold, hout⟩ := runs_apart hP hQ hdone hready hx hA hactive hhb
    have hagree : Agree hc u'.later u.later h := (hS.agree_of_not hout).mp fun _ _ _ => rfl
    rw [revisit_of_ne hhb, hQ.respects _ _ h hagree]
    refine hQ.grows h hold ((hS.other h hhb).symm.trans hlater) U
      (solvesPhases_of_revisit hP hQ hdone hready hx hA (by rintro _ ⟨⟩; exact hactive)
        (fun heq => hhb (Option.some.inj heq)) hU) z (hx.firstIterState_other hhb ▸ hfirst) fun e htarget hisBack => ?_
    refine (hback e htarget hisBack).of_along ?_
    rw [along_back hisBack, htarget]
    exact ⟨(hS.around_of_not hout).mpr fun _ _ _ => rfl, (hS.other h hhb).symm⟩

/-- A visit of a block that gives a state to its successors keeps the invariant. -/
theorem peeled_advanced :
    Peeled hc p entdom r.1 u' (restart hc done b) (revisit hc val u'.later b x) where
  respects φ ψ a hφψ := by
    by_cases ha : a = b ∧ Agree hc φ u'.later b
    · obtain ⟨rfl, hagree⟩ := ha
      rw [revisit_self hagree, revisit_self (hφψ.symm.trans hagree)]
    · have ha' : ¬ (a = b ∧ Agree hc ψ u'.later b) := by
        rintro ⟨rfl, hagree⟩
        exact ha ⟨rfl, hφψ.trans hagree⟩
      rw [revisit_other ha, revisit_other ha', hQ.respects φ ψ a hφψ]
  counted h hactive := by
    by_cases hhb : h = b
    · subst hhb
      exact hx.counted hc ((Advanced.placed hP hdone hready hA).header h hactive).1
    · rw [hx.numIter_other hhb]
      exact hQ.counted h (runs_apart hP hQ hdone hready hx hA hactive hhb).1
  headerState _ hactive := revisit_headerState hP hQ hdone hready hx hA hactive
  kept _ _ htarget halong hknown := revisit_kept hP hQ hdone hready hx hA htarget halong hknown
  above _ _ hmark := revisit_above hP hQ hdone hready hx hA hmark
  solved _ _ hfull := revisit_solved hP hQ hdone hready hx hA hfull
  entered _ hactive hlater _ hagree := revisit_entered hP hQ hdone hready hx hA hactive hlater hagree
  first_le _ hactive hlater := revisit_first_le hP hQ hdone hready hx hA hactive hlater
  first_above _ hactive hlater _ htarget hback _ haround hφ :=
    revisit_first_above hP hQ hdone hready hx hA hactive hlater htarget hback haround hφ
  least _ hregion _ hU := revisit_least hP hQ hdone hready hx hA hregion hU
  grows _ hactive hlater _ hU _ hfirst hback :=
    revisit_grows hP hQ hdone hready hx hA hactive hlater hU hfirst hback

end Advanced

/-! ### A visit that leaves a loop -/

/-- A visit that reaches the fixpoint of a loop keeps the invariant: with the state of the header unchanged,
its last input covers the back edges of all iterations. -/
theorem peeled_left (hP : Placed hc st done) (hQ : Peeled hc p entdom st u done val) (hdone : ¬ done b)
    (hready : Ready c st done b) (hactive : st.firstIter b = false) (hF : LoopLeft c p st b r)
    (hlater : u.later b = true) {z : D} (hz : Store.union st.mark (c.backEdges b) = some z)
    (hfix : z ⊔ u.firstIterState b = val u.later b) (hlater' : u'.later = u.later)
    (hfirst' : u'.firstIterState = u.firstIterState) (hcount : ∀ a, a ≠ b → u'.numIter a = u.numIter a) :
    Peeled hc p entdom r.1 u' (settle done b) val := by
  have hruns : ∀ {h}, r.1.firstIter h = false → h ≠ b ∧ st.firstIter h = false := (left_active_iff hF).mp
  have hknown : ∀ {φ a}, Known hc r.1 (settle done b) u.later φ a ↔ Known hc st done u.later φ a :=
    left_known_iff hP hdone hready hactive hF hlater
  refine ⟨hQ.respects, fun h hh => ?_, fun h hh => ?_, fun e φ htarget halong hk => ?_, fun e m hmark => ?_,
    fun φ a hfull => ?_, fun a ha => ?_, fun a ha => ?_, fun a ha => ?_, fun region hregion U hU => ?_,
    fun h hh => ?_⟩
  all_goals simp only [hlater', hfirst'] at *
  case refine_1 =>
    rw [hcount h (hruns hh).1]
    exact hQ.counted h (hruns hh).2
  case refine_2 =>
    rw [hF.headerState_other h (hruns hh).1]
    exact hQ.headerState h (hruns hh).2
  case refine_3 =>
    rw [hF.isSome_iff fun heq => htarget (.inr heq)]
    exact hQ.kept e φ (fun ht => htarget (.inl ht)) halong (hknown.mp hk)
  case refine_4 =>
    obtain ⟨m', hm', hstage⟩ := LoopLeft.mark_stage hdone hF hmark
    obtain ⟨y, hy, hle⟩ := hQ.above e m' hm'
    exact ⟨y, fun φ halong hk => hy φ halong (hknown.mp hk), (hstage y).1 hle⟩
  case refine_5 =>
    obtain hfull | ⟨rfl, hagree⟩ := left_of_full hP hdone hready hactive hF hlater hfull
    · exact hQ.solved φ a hfull
    have hheader := (hP.header a hactive).1
    have hφ : φ a = true := (hagree a hheader (hc.inLoop_self a)).trans hlater
    refine ⟨fun hphase => ?_, fun _ _ e htarget hback ψ hψ => ?_⟩
    · rw [hheader, hφ] at hphase
      simp at hphase
    · have haround := hψ.trans hagree.around
      rw [hQ.respects φ u.later a hagree, ← hfix]
      cases hψa : ψ a with
      | false => exact (hQ.first_above a hactive hlater e htarget hback ψ haround hψa).mono le_sup_right
      | true =>
        refine (hQ.covers_back hP hdone hready hactive hz htarget hback ?_).mono le_sup_left
        exact haround.agree fun _ => hψa.trans hlater.symm
  case refine_6 => exact hQ.entered a (hruns ha).2
  case refine_7 => exact hQ.first_le a (hruns ha).2
  case refine_8 => exact hQ.first_above a (hruns ha).2
  case refine_9 =>
    obtain ⟨hvalues, hmarks⟩ := hQ.least region (fun h heq => (hruns (hregion h heq)).2) U hU
    refine ⟨fun a φ hin hcontext hk => hvalues a φ hin hcontext (hknown.mp hk), fun e m hin hin' hmark y hy => ?_⟩
    obtain ⟨m', hm', hstage⟩ := LoopLeft.mark_stage hdone hF hmark
    exact (hstage y).2 (hmarks e m' hin hin' hm' y hy)
  case refine_10 => exact hQ.grows h (hruns hh).2

end Otawa.HalfAbsInt.FirstUnrolling
