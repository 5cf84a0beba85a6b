import Otawa.Hai.Visit
import Otawa.Hai.FirstUnrolling

/-!
# The phases of nested loops

With its first iteration unrolled, a loop is in one of two phases, and a block is visited once or more for
each choice of a phase for the loops around it. `Known` says for which choices the block has been visited,
in the current iteration of the loops that run, and `Full` for which ones nothing is left to come.
-/

set_option linter.unusedSectionVars false

namespace Otawa.HalfAbsInt.FirstUnrolling

/-- Whether the loop of each header is past its first iteration. -/
abbrev Phase (B : Type) := B → Bool

variable {B E D : Type} [DecidableEq B] [DecidableEq E] [SemilatticeSup D] [OrderBot D]
variable {c : Cfg B E}

/-- The phase of the loops that run. -/
def Unroll.later (u : Unroll B D) : Phase B :=
  fun h => decide (2 ≤ u.numIter h)

section Agreement

variable (hc : c.Consistent) (φ ψ : Phase B)

/-- The phases of the loops around a block are the same, less the one that it is the header of. -/
def Around (b : B) : Prop :=
  ∀ h, hc.InLoop h b → h ≠ b → φ h = ψ h

/-- The phases of the loops that a block is in are the same. -/
def Agree (b : B) : Prop :=
  ∀ h, c.loopHeader h = true → hc.InLoop h b → φ h = ψ h

/-- The phases of the loops that an edge stays in are the same. -/
def Along (e : E) : Prop :=
  ∀ h, hc.InLoop h (c.source e) → hc.InLoop h (c.target e) → φ h = ψ h

variable {hc φ ψ} {χ : Phase B} {b : B} {e : E}

theorem Agree.around (h : Agree hc φ ψ b) : Around hc φ ψ b :=
  fun k hin hne => h k (hin.loopHeader hne.symm) hin

theorem Agree.symm (h : Agree hc φ ψ b) : Agree hc ψ φ b :=
  fun k hheader hin => (h k hheader hin).symm

theorem Agree.trans (h : Agree hc φ ψ b) (h' : Agree hc ψ χ b) : Agree hc φ χ b :=
  fun k hheader hin => (h k hheader hin).trans (h' k hheader hin)

theorem Around.symm (h : Around hc φ ψ b) : Around hc ψ φ b :=
  fun k hin hne => (h k hin hne).symm

theorem Around.trans (h : Around hc φ ψ b) (h' : Around hc ψ χ b) : Around hc φ χ b :=
  fun k hin hne => (h k hin hne).trans (h' k hin hne)

theorem Around.agree (h : Around hc φ ψ b) (hb : c.loopHeader b = true → φ b = ψ b) : Agree hc φ ψ b := by
  intro k hheader hin
  by_cases hne : k = b
  · subst hne
    exact hb hheader
  · exact h k hin hne

theorem Agree.mono {a : B} (h : Agree hc φ ψ b) (hin : hc.InLoop a b) : Agree hc φ ψ a :=
  fun k hheader hk => h k hheader (hk.trans hin)

/-- A forward edge stays in the loops around its target that the target is not the header of. -/
theorem along_forward (hforward : c.isBack e = false) : Along hc φ ψ e ↔ Around hc φ ψ (c.target e) := by
  constructor
  · intro h k hin hne
    exact h k (hin.source hne.symm) hin
  · intro h k hin hin'
    refine h k hin' fun heq => ?_
    rw [hin.isBack heq.symm] at hforward
    exact absurd hforward (by decide)

/-- A back edge stays in the loop of its target too. -/
theorem along_back (hback : c.isBack e = true) :
    Along hc φ ψ e ↔ Around hc φ ψ (c.target e) ∧ φ (c.target e) = ψ (c.target e) := by
  constructor
  · intro h
    exact ⟨fun k hin hne => h k (hin.source hne.symm) hin, h _ (hc.inLoop_source hback) (hc.inLoop_self _)⟩
  · rintro ⟨h, hself⟩ k hin hin'
    by_cases hne : k = c.target e
    · rw [hne, hself]
    · exact h k hin' hne

/-- An edge within a loop stays in all the loops around it. -/
theorem Along.agree (h : Along hc φ ψ e) (hin : hc.InLoop b (c.source e)) (hin' : hc.InLoop b (c.target e)) :
    Agree hc φ ψ b :=
  fun k _ hk => h k (hk.trans hin) (hk.trans hin')

theorem Along.trans (h : Along hc φ ψ e) (h' : Along hc ψ χ e) : Along hc φ χ e :=
  fun k hin hin' => (h k hin hin').trans (h' k hin hin')

end Agreement

/-! ### The phases that have been visited -/

/-- The block was visited with these phases in the first iteration of a loop that is past it. -/
def Past (hc : c.Consistent) (st : Store B E D) (later φ : Phase B) (b : B) : Prop :=
  ∃ h, st.firstIter h = false ∧ hc.InLoop h b ∧ φ h = false ∧ later h = true ∧ Around hc φ later h

/-- These are the phases of the loops around the block that run. -/
def Now (hc : c.Consistent) (st : Store B E D) (later φ : Phase B) (b : B) : Prop :=
  ∀ h, st.firstIter h = false → hc.InLoop h b → φ h = later h

/-- The block has been visited with these phases. -/
def Known (hc : c.Consistent) (st : Store B E D) (done : B → Prop) (later φ : Phase B) (b : B) : Prop :=
  Past hc st later φ b ∨ (Now hc st later φ b ∧ Visited st done b)

/-- The block is done with these phases. -/
def Full (hc : c.Consistent) (st : Store B E D) (done : B → Prop) (later φ : Phase B) (b : B) : Prop :=
  Past hc st later φ b ∨ (Now hc st later φ b ∧ done b)

/-- What a visit of `b` does to the phases. -/
structure Shift (c : Cfg B E) (st : Store B E D) (later later' : Phase B) (b : B) : Prop where
  other : ∀ a, a ≠ b → later' a = later a
  fresh : st.firstIter b = true → c.loopHeader b = true → later' b = false
  again : st.firstIter b = false → later b = true → later' b = true

variable {hc : c.Consistent} {st : Store B E D} {done : B → Prop} {later later' φ ψ : Phase B} {a b h : B} {e : E}

theorem Agree.now (hP : Placed hc st done) (h : Agree hc φ later b) : Now hc st later φ b :=
  fun k hactive hin => h k (hP.header k hactive).1 hin

namespace Shift

section

variable (hS : Shift c st later later' b)
include hS

theorem around : Around hc φ later' b ↔ Around hc φ later b :=
  forall₃_congr fun h _ hne => by rw [hS.other h hne]

/-- Outside of the loop of the block, the phases are the same as before. -/
theorem agree_of_not (hout : ¬ hc.InLoop b a) : Agree hc φ later' a ↔ Agree hc φ later a :=
  forall₃_congr fun h _ hin => by
    have hne : h ≠ b := fun heq => hout (heq ▸ hin)
    rw [hS.other h hne]

theorem around_of_not (hout : ¬ hc.InLoop b a) : Around hc φ later' a ↔ Around hc φ later a :=
  forall₃_congr fun h hin _ => by
    have hne : h ≠ b := fun heq => hout (heq ▸ hin)
    rw [hS.other h hne]

theorem along_of_not
    (hout : ¬ (hc.InLoop b (c.source e) ∧ hc.InLoop b (c.target e))) : Along hc φ later' e ↔ Along hc φ later e :=
  forall₃_congr fun h hin hin' => by
    have hne : h ≠ b := fun heq => hout ⟨heq ▸ hin, heq ▸ hin'⟩
    rw [hS.other h hne]

end

end Shift

section Taken

variable (hP : Placed hc st done) (hdone : ¬ done b) (hready : Ready c st done b)

include hP hdone hready

/-- No loop within the loop of a block of the work-list runs. -/
theorem quiet (hactive : st.firstIter h = false) (hin : hc.InLoop b h) : h = b := by
  by_contra hne
  exact (hP.header h hactive).2 (hP.done_of_visited_inLoop hdone hready hin (.inr hactive) hin hne)

/-- The source of a finished edge is visited with any phases that agree on the loops the edge stays in. -/
theorem known_of_finished (hfinished : Finished c st done e) (halong : Along hc φ later e) :
    Known hc st done later φ (c.source e) := by
  refine .inr ⟨fun h hactive hin => ?_, hP.visited_source hfinished⟩
  by_cases hin' : hc.InLoop h (c.target e)
  · exact halong h hin hin'
  · exact absurd (hP.done_of_leaves hfinished hin hin') (hP.header h hactive).2

end Taken

/-! ### A visit that goes on -/

section Advanced

variable {p : Problem B D} {x out : D} {r : Store B E D × List B}
  (hP : Placed hc st done) (hdone : ¬ done b) (hready : Ready c st done b)
  (hA : Advanced c st b x out r) (hS : Shift c st later later' b)

include hP hdone hready hA hS

omit hP hdone hready hS in
theorem active_iff : r.1.firstIter h = false ↔
    (h = b ∧ c.loopHeader b = true ∨ h = b ∧ st.firstIter b = false) ∨ h ≠ b ∧ st.firstIter h = false := by
  by_cases hne : h = b
  · subst hne
    cases hheader : c.loopHeader h with
    | true => simp [hA.firstIter_self hheader]
    | false => simp [hA.firstIter_other h (.inr hheader)]
  · simp [hA.firstIter_other h (.inl hne), hne]

/-- A block visited in a first iteration that is past was so before, or was visited in the iteration that
the visit ends. -/
theorem of_past (hpast : Past hc r.1 later' φ a) :
    ¬ (hc.InLoop b a ∧ Agree hc φ later' b) ∧ (Past hc st later φ a ∨
      (hc.InLoop b a ∧ st.firstIter b = false ∧ later b = false ∧ later' b = true ∧ Agree hc φ later b)) := by
  obtain ⟨h, hactive, hin, hφ, hlater, haround⟩ := hpast
  by_cases hne : h = b
  · subst hne
    have hheader : c.loopHeader h = true := ((Advanced.placed hP hdone hready hA).header h hactive).1
    have hold : st.firstIter h = false := by
      by_contra hfirst
      rw [hS.fresh (by simpa using hfirst) hheader] at hlater
      exact absurd hlater (by decide)
    have haround := hS.around.mp haround
    refine ⟨fun ⟨_, hagree⟩ => ?_, ?_⟩
    · rw [hagree h hheader (hc.inLoop_self h), hlater] at hφ
      exact absurd hφ (by decide)
    · cases hb : later h with
      | true => exact .inl ⟨h, hold, hin, hφ, hb, haround⟩
      | false => exact .inr ⟨hin, hold, rfl, hlater, haround.agree fun _ => hφ.trans hb.symm⟩
  · have hold : st.firstIter h = false := by
      rwa [hA.firstIter_other h (.inl hne)] at hactive
    have hout : ¬ hc.InLoop b h := fun hin => hne (quiet hP hdone hready hold hin)
    refine ⟨fun ⟨hinb, hagree⟩ => ?_, .inl ⟨h, hold, hin, hφ, hS.other h hne ▸ hlater, fun k hk hkh => ?_⟩⟩
    · have hinh := (hin.nested hinb).resolve_right hout
      rw [hagree h (hP.header h hold).1 hinh, hlater] at hφ
      exact absurd hφ (by decide)
    · rw [haround k hk hkh, hS.other k fun heq => hout (heq ▸ hk)]

/-- The blocks visited after a visit of `b`: the phases of `b` start again in its loop. -/
theorem known_iff : Known hc r.1 (restart hc done b) later' φ a ↔
    (a = b ∧ Agree hc φ later' b) ∨ (Known hc st done later φ a ∧ ¬ (hc.InLoop b a ∧ Agree hc φ later' b)) := by
  constructor
  · rintro (hpast | ⟨hnow, hvisited⟩)
    · obtain ⟨hnot, hpast | ⟨hin, hactive, -, -, hagree⟩⟩ := of_past hP hdone hready hA hS hpast
      · exact .inr ⟨.inl hpast, hnot⟩
      · refine .inr ⟨.inr ⟨fun h hh hinh => ?_, ?_⟩, hnot⟩
        · by_cases hne : h = b
          · exact hagree h (hP.header h hh).1 (hne ▸ hc.inLoop_self h)
          · have hinb := (hinh.nested hin).resolve_right fun hin' => hne (quiet hP hdone hready hh hin')
            exact hagree h (hP.header h hh).1 hinb
        · by_cases hab : a = b
          · exact .inr (hab ▸ hactive)
          · exact .inl (hP.done_of_inLoop hdone hready hactive hin hab)
    · obtain rfl | ⟨hvisited, hout⟩ := (Advanced.visited_iff hP hdone hready hA).mp hvisited
      · refine .inl ⟨rfl, fun h hheader hin => hnow h ((active_iff hA).mpr ?_) hin⟩
        by_cases hne : h = a
        · exact .inl (.inl ⟨hne, hne ▸ hheader⟩)
        · exact .inr ⟨hne, hP.active_of_inLoop hdone hready hin hne⟩
      · refine .inr ⟨.inr ⟨fun h hh hin => ?_, hvisited⟩, fun hboth => hout hboth.1⟩
        have hne : h ≠ b := fun heq => hout (heq ▸ hin)
        rw [hnow h ((active_iff hA).mpr (.inr ⟨hne, hh⟩)) hin, hS.other h hne]
  · rintro (⟨rfl, hagree⟩ | ⟨hknown, hnot⟩)
    · exact .inr ⟨hagree.now (Advanced.placed hP hdone hready hA), Advanced.visited_self hP hdone hready hA⟩
    obtain ⟨h, hactive, hin, hφ, hlater, haround⟩ | ⟨hnow, hvisited⟩ := hknown
    · by_cases hne : h = b
      · subst hne
        exact .inl ⟨h, (active_iff hA).mpr (.inl (.inr ⟨rfl, hactive⟩)), hin, hφ, hS.again hactive hlater,
          hS.around.mpr haround⟩
      · refine .inl ⟨h, (active_iff hA).mpr (.inr ⟨hne, hactive⟩), hin, hφ, (hS.other h hne).trans hlater, ?_⟩
        intro k hk hkh
        rw [haround k hk hkh, hS.other k fun heq => hne (quiet hP hdone hready hactive (heq ▸ hk))]
    · by_cases hin : hc.InLoop b a
      · -- the loop of `b` goes from its first iteration to the later ones
        have hactive : st.firstIter b = false := active_of_visited (hP.loop_visited b a hin hvisited) hdone
        have hagree : Agree hc φ later b := fun h hheader hinh => by
          by_cases hne : h = b
          · exact hnow h (hne ▸ hactive) (hne ▸ hin)
          · exact hnow h (hP.active_of_inLoop hdone hready hinh hne) (hinh.trans hin)
        have hself := hagree b (hP.header b hactive).1 (hc.inLoop_self b)
        have hmoved : φ b ≠ later' b := fun heq => hnot ⟨hin, (hS.around.mpr hagree.around).agree fun _ => heq⟩
        have hlater : later b = false := by
          by_contra hb
          rw [hself, hS.again hactive (by simpa using hb)] at hmoved
          exact hmoved (by simpa using hb)
        rw [hself, hlater] at hmoved
        exact .inl ⟨b, (active_iff hA).mpr (.inl (.inr ⟨rfl, hactive⟩)), hin, hself.trans hlater,
          by simpa using hmoved.symm, hS.around.mpr hagree.around⟩
      · refine .inr ⟨fun h hh hinh => ?_, (Advanced.visited_iff hP hdone hready hA).mpr (.inr ⟨hvisited, hin⟩)⟩
        have hne : h ≠ b := fun heq => hin (heq ▸ hinh)
        have hold : st.firstIter h = false := by
          rwa [hA.firstIter_other h (.inl hne)] at hh
        rw [hnow h hold hinh, hS.other h hne]

/-- The blocks done after a visit of `b`. -/
theorem of_full (hfull : Full hc r.1 (restart hc done b) later' φ a) :
    (a = b ∧ c.loopHeader b = false ∧ Agree hc φ later' b) ∨
    (a = b ∧ st.firstIter b = false ∧ later b = false ∧ later' b = true ∧ Agree hc φ later b) ∨
    (Full hc st done later φ a ∧ ¬ (hc.InLoop b a ∧ Agree hc φ later' b)) := by
  obtain hpast | ⟨hnow, hrestart⟩ := hfull
  · obtain ⟨hnot, hpast | ⟨hin, hactive, hb, hb', hagree⟩⟩ := of_past hP hdone hready hA hS hpast
    · exact .inr (.inr ⟨.inl hpast, hnot⟩)
    · by_cases hab : a = b
      · exact .inr (.inl ⟨hab, hactive, hb, hb', hagree⟩)
      · refine .inr (.inr ⟨.inr ⟨fun h hh hinh => ?_, hP.done_of_inLoop hdone hready hactive hin hab⟩, hnot⟩)
        by_cases hne : h = b
        · exact hagree h (hP.header h hh).1 (hne ▸ hc.inLoop_self h)
        · have hinb := (hinh.nested hin).resolve_right fun hin' => hne (quiet hP hdone hready hh hin')
          exact hagree h (hP.header h hh).1 hinb
  · obtain ⟨ha, hout⟩ | ⟨rfl, hheader⟩ := hrestart
    · refine .inr (.inr ⟨.inr ⟨fun h hh hin => ?_, ha⟩, fun hboth => hout hboth.1⟩)
      have hne : h ≠ b := fun heq => hout (heq ▸ hin)
      rw [hnow h ((active_iff hA).mpr (.inr ⟨hne, hh⟩)) hin, hS.other h hne]
    · refine .inl ⟨rfl, hheader, fun h hheader' hin => ?_⟩
      have hne : h ≠ a := by
        rintro rfl
        rw [hheader'] at hheader
        exact absurd hheader (by decide)
      exact hnow h ((active_iff hA).mpr (.inr ⟨hne, hP.active_of_inLoop hdone hready hin hne⟩)) hin

end Advanced

/-! ### A visit that leaves a loop -/

section Left

variable {p : Problem B D} {r : Store B E D × List B}
  (hP : Placed hc st done) (hdone : ¬ done b) (hready : Ready c st done b) (hactive : st.firstIter b = false)
  (hF : LoopLeft c p st b r) (hlater : later b = true)

include hF

theorem left_active_iff : r.1.firstIter h = false ↔ h ≠ b ∧ st.firstIter h = false := by
  rw [hF.firstIter_eq]
  by_cases hne : h = b
  · simp [hne]
  · simp [hne]

include hP hdone hready hactive hlater

/-- The phases of the loops around `b` that still run, for a block of the loop of `b` or not. -/
theorem of_left_now (hnow : Now hc r.1 later φ a) :
    Now hc st later φ a ∨ (hc.InLoop b a ∧ Past hc st later φ a) := by
  by_cases hin : hc.InLoop b a ∧ φ b = false
  · refine .inr ⟨hin.1, b, hactive, hin.1, hin.2, hlater, fun h hinh hne => ?_⟩
    exact hnow h ((left_active_iff hF).mpr ⟨hne, hP.active_of_inLoop hdone hready hinh hne⟩) (hinh.trans hin.1)
  · refine .inl fun h hh hinh => ?_
    by_cases hne : h = b
    · subst hne
      rw [hlater]
      exact Bool.not_eq_false _ ▸ fun hφ => hin ⟨hinh, hφ⟩
    · exact hnow h ((left_active_iff hF).mpr ⟨hne, hh⟩) hinh

theorem left_now (hin : hc.InLoop b a) (haround : Around hc φ later b) : Now hc r.1 later φ a := by
  intro h hh hinh
  obtain ⟨hne, hold⟩ := (left_active_iff hF).mp hh
  exact haround h ((hinh.nested hin).resolve_right fun hin' => hne (quiet hP hdone hready hold hin')) hne

theorem left_past_iff : Past hc r.1 later φ a → Past hc st later φ a := by
  rintro ⟨h, hh, hin, hφ, hl, haround⟩
  exact ⟨h, ((left_active_iff hF).mp hh).2, hin, hφ, hl, haround⟩

/-- A visit that leaves a loop visits nothing. -/
theorem left_known_iff : Known hc r.1 (settle done b) later φ a ↔ Known hc st done later φ a := by
  have hvisited : Visited r.1 (settle done b) a ↔ Visited st done a := LoopLeft.visited_iff hactive hF
  constructor
  · rintro (hpast | ⟨hnow, ha⟩)
    · exact .inl (left_past_iff hP hdone hready hactive hF hlater hpast)
    · obtain hnow | ⟨-, hpast⟩ := of_left_now hP hdone hready hactive hF hlater hnow
      · exact .inr ⟨hnow, hvisited.mp ha⟩
      · exact .inl hpast
  · rintro (⟨h, hh, hin, hφ, hl, haround⟩ | ⟨hnow, ha⟩)
    · by_cases hne : h = b
      · subst hne
        refine .inr ⟨left_now hP hdone hready hactive hF hlater hin haround, hvisited.mpr ?_⟩
        by_cases hab : a = h
        · exact .inr (hab ▸ hactive)
        · exact .inl (hP.done_of_inLoop hdone hready hactive hin hab)
      · exact .inl ⟨h, (left_active_iff hF).mpr ⟨hne, hh⟩, hin, hφ, hl, haround⟩
    · exact .inr ⟨fun h hh => hnow h ((left_active_iff hF).mp hh).2, hvisited.mpr ha⟩

/-- A visit that leaves a loop makes its header done in the later iterations. -/
theorem left_of_full (hfull : Full hc r.1 (settle done b) later φ a) :
    Full hc st done later φ a ∨ (a = b ∧ Agree hc φ later b) := by
  obtain hpast | ⟨hnow, ha⟩ := hfull
  · exact .inl (.inl (left_past_iff hP hdone hready hactive hF hlater hpast))
  obtain hnow | ⟨-, hpast⟩ := of_left_now hP hdone hready hactive hF hlater hnow
  · obtain ha | rfl := ha
    · exact .inl (.inr ⟨hnow, ha⟩)
    · refine .inr ⟨rfl, fun h hheader hin => ?_⟩
      by_cases hne : h = a
      · exact hnow h (hne ▸ hactive) hin
      · exact hnow h (hP.active_of_inLoop hdone hready hin hne) hin
  · exact .inl (.inl hpast)

end Left

end Otawa.HalfAbsInt.FirstUnrolling
