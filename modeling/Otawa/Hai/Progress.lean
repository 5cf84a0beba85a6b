import Otawa.Hai.Iteration
import Otawa.Lib.Nested
import Mathlib.Order.KrullDimension

/-!
# Progress of the iteration

Over a domain without ascending chains longer than `N`, every visit makes the nested counters of the blocks
decrease (`potential`), and the work-list is empty only when all the blocks are done.
-/

set_option linter.unusedSectionVars false

namespace Otawa.HalfAbsInt

variable {B E D : Type} [DecidableEq B] [DecidableEq E] [SemilatticeSup D] [OrderBot D]
variable {c : Cfg B E} {hc : c.Consistent} {p : Problem B D} {entdom : D} {st : Store B E D}
  {workList : List B} {done : B → Prop} {last : B → D} {a b h k : B} {e : E} {x : D}
  {r : Store B E D × List B} {N : ℕ}

/-! ### The height of a state -/

/-- No strictly ascending chain is longer than `N`. -/
def FiniteHeight (D : Type) [Preorder D] (N : ℕ) : Prop :=
  ∀ s : LTSeries D, s.length ≤ N

/-- The length of the longest chain up to a state. -/
noncomputable def climb (x : D) : ℕ :=
  (Order.height x).toNat

theorem height_le (hN : FiniteHeight D N) (x : D) : Order.height x ≤ N :=
  Order.height_le fun s _ => by exact_mod_cast hN s

theorem climb_eq (hN : FiniteHeight D N) (x : D) : (climb x : ℕ∞) = Order.height x :=
  ENat.natCast_toNat (ne_top_of_le_ne_top (ENat.natCast_ne_top N) (height_le hN x))

theorem climb_le (hN : FiniteHeight D N) (x : D) : climb x ≤ N := by
  have hle := height_le hN x
  rw [← climb_eq hN] at hle
  exact_mod_cast hle

theorem climb_lt {y : D} (hN : FiniteHeight D N) (hlt : x < y) : climb x < climb y := by
  have hheight : Order.height x < Order.height y :=
    Order.height_strictMono hlt ((height_le hN x).trans_lt (ENat.natCast_lt_top N))
  rw [← climb_eq hN, ← climb_eq hN] at hheight
  exact_mod_cast hheight

/-! ### The counters -/

open Classical in
/-- The visits of the block that may still come before it is done, in one iteration of the loops around it. -/
noncomputable def turns (c : Cfg B E) (N : ℕ) (st : Store B E D) (done : B → Prop) (last : B → D) (b : B) : ℕ :=
  if done b then 0
  else if st.firstIter b = true then (if c.loopHeader b then N + 2 else 1)
  else N + 1 - climb (last b)

open Classical in
/-- The number of the loops around a block, less the one that it is the header of. -/
noncomputable def depth [Fintype B] (hc : c.Consistent) (b : B) : ℕ :=
  (Finset.univ.filter fun h => hc.InLoop h b ∧ h ≠ b).card

theorem depth_lt [Fintype B] (hin : hc.InLoop b a) (hne : a ≠ b) : depth hc b < depth hc a := by
  classical
  refine Finset.card_lt_card (Finset.ssubset_iff_of_subset (fun h hmem => ?_) |>.mpr ⟨b, ?_, ?_⟩)
  · obtain ⟨-, hh, -⟩ := Finset.mem_filter.mp hmem
    refine Finset.mem_filter.mpr ⟨Finset.mem_univ h, hh.trans hin, ?_⟩
    rintro rfl
    exact hne (hh.antisymm hin)
  · exact Finset.mem_filter.mpr ⟨Finset.mem_univ b, hin, hne.symm⟩
  · simp

theorem depth_le [Fintype B] (b : B) : depth hc b ≤ Fintype.card B :=
  Finset.card_le_univ _

theorem turns_le (b : B) : turns c N st done last b ≤ N + 2 := by
  unfold turns
  split_ifs <;> omega

theorem turns_done (hdone : done b) : turns c N st done last b = 0 :=
  if_pos hdone

theorem turns_active (hdone : ¬ done b) (hactive : st.firstIter b = false) :
    turns c N st done last b = N + 1 - climb (last b) := by
  simp [turns, hdone, hactive]

theorem turns_header (hdone : ¬ done b) (hfirst : st.firstIter b = true) (hheader : c.loopHeader b = true) :
    turns c N st done last b = N + 2 := by
  simp [turns, hdone, hfirst, hheader]

theorem turns_pos (hN : FiniteHeight D N) (hdone : ¬ done b) : 0 < turns c N st done last b := by
  have := climb_le hN (last b)
  unfold turns
  split_ifs <;> omega

theorem turns_congr {st' : Store B E D} {done' : B → Prop} {last' : B → D} (hdone : done' a ↔ done a)
    (hfirst : st'.firstIter a = st.firstIter a) (hlast : last' a = last a) :
    turns c N st' done' last' a = turns c N st done last a := by
  by_cases ha : done a
  · rw [turns_done ha, turns_done (hdone.mpr ha)]
  · have ha' : ¬ done' a := fun h => ha (hdone.mp h)
    simp only [turns, ha, ha', hfirst, hlast]

/-- What is left of the iteration over one CFG. -/
noncomputable def potential [Fintype B] (hc : c.Consistent) (N : ℕ) (st : Store B E D) (done : B → Prop)
    (last : B → D) : ℕ :=
  Nested.potential (depth hc) (turns c N st done last) (Fintype.card B * (N + 2) + 1) (Fintype.card B)

theorem potential_advanced [Fintype B] (hN : FiniteHeight D N) (hI : Iterates hc p entdom st workList done last)
    (hmem : b ∈ workList) (hx : Input c p entdom st b x) (hA : Advanced c st b x (p.update b x) r)
    (hmoves : st.firstIter b = false → x ≠ last b) :
    potential hc N r.1 (restart hc done b) (Function.update last b x) < potential hc N st done last := by
  obtain ⟨hdone, hready⟩ := (hI.listed.mem_iff b).mp hmem
  refine Nested.potential_lt b depth_le turns_le (Nat.lt_succ_self _) ?_ fun a hab => ?_
  · cases hheader : c.loopHeader b with
    | false =>
      rw [turns_done (.inr ⟨rfl, hheader⟩)]
      exact turns_pos hN hdone
    | true =>
      rw [turns_active (Advanced.not_restart_self hdone hheader) (hA.firstIter_self hheader),
        Function.update_self]
      cases hfirst : st.firstIter b with
      | true =>
        rw [turns_header hdone hfirst hheader]
        omega
      | false =>
        have hle := hI.bounded.last_le_input hI.placed hready hx hdone hfirst
        have hlt := climb_lt hN (lt_of_le_of_ne hle (hmoves hfirst).symm)
        have := climb_le hN x
        rw [turns_active hdone hfirst]
        omega
  · by_cases hin : hc.InLoop b a
    · exact .inr (depth_lt hin hab)
    · refine .inl (le_of_eq (turns_congr ?_ (hA.firstIter_other a (.inl hab)) (Function.update_of_ne hab x last)))
      simp [Advanced.restart_of_ne hab, hin]

theorem potential_left [Fintype B] (hN : FiniteHeight D N) (hI : Iterates hc p entdom st workList done last)
    (hmem : b ∈ workList) (hF : LoopLeft c p st b r) :
    potential hc N r.1 (settle done b) last < potential hc N st done last := by
  have hdone := ((hI.listed.mem_iff b).mp hmem).1
  refine Nested.potential_lt b depth_le turns_le (Nat.lt_succ_self _) ?_ fun a hab => ?_
  · rw [turns_done (.inr rfl)]
    exact turns_pos hN hdone
  · refine .inl (le_of_eq (turns_congr ?_ ?_ rfl))
    · simp [settle, hab]
    · rw [hF.firstIter_eq, Function.update_of_ne hab]

/-! ### One turn -/

/-- What a turn that takes `b` and observes `o` leads to. -/
structure Turned [Fintype B] (hc : c.Consistent) (p : Problem B D) (entdom : D) (st : Store B E D)
    (workList : List B) (done : B → Prop) (last : B → D) (b : B) (o : Option D) (r : Store B E D × List B)
    (done' : B → Prop) (last' : B → D) : Prop where
  iterates : Iterates hc p entdom r.1 (r.2 ++ workList.erase b) done' last'
  potential_lt : ∀ N, FiniteHeight D N → potential hc N r.1 done' last' < potential hc N st done last
  of_done : ∀ a, done' a → a = b ∨ done a
  of_visited : ∀ a, Visited r.1 done' a → a = b ∨ Visited st done a
  entry : b = c.entry ∨ done c.entry → done' c.entry
  last_some : ∀ x, o = some x → last' = Function.update last b x
  last_none : o = none → last' = last ∧ Visited st done b

/-- Any block of the work-list can be taken next. -/
theorem Iterates.turn [Fintype B] [DecidableEq D] (hI : Iterates hc p entdom st workList done last)
    (hmem : b ∈ workList) : ∃ o r done' last', visit c p entdom st b = some (o, r) ∧
      Turned hc p entdom st workList done last b o r done' last' := by
  obtain ⟨hdone, hready⟩ := (hI.listed.mem_iff b).mp hmem
  have hP := hI.placed
  obtain ⟨x, r, hvisit, hx, hA, hmoves⟩ | ⟨r, hvisit, hx, hF, hactive⟩ := hI.visit_cases hmem
  · refine ⟨_, r, restart hc done b, Function.update last b x, hvisit, ⟨hA.placed hP hdone hready,
      hA.listed hP hI.listed hmem, hA.bounded hP hI.bounded hdone hready hx⟩, fun N hN =>
      potential_advanced hN hI hmem hx hA hmoves, fun a ha => ?_, fun a ha => ?_, fun hentry => ?_, ?_, ?_⟩
    · exact ha.elim (fun h => .inr h.1) fun h => .inl h.1
    · exact ((hA.visited_iff hP hdone hready).mp ha).imp_right And.left
    · by_cases heq : b = c.entry
      · exact .inr ⟨heq.symm, heq ▸ hc.loopHeader_entry⟩
      · exact .inl ⟨hentry.resolve_left heq, fun hin => heq (hc.inLoop_entry hin)⟩
    · rintro _ ⟨⟩
      rfl
    · rintro ⟨⟩
  · refine ⟨_, r, settle done b, last, hvisit, ⟨hF.placed hP hdone hready hactive,
      hF.listed hP hactive hI.listed hmem, hF.bounded hP hI.bounded hdone hready hactive hx⟩, fun N hN =>
      potential_left hN hI hmem hF, fun a ha => ha.symm, fun a ha => ?_, fun hentry => ?_, ?_, ?_⟩
    · exact .inr ((hF.visited_iff hactive).mp ha)
    · exact hentry.elim (fun heq => .inr heq.symm) .inl
    · rintro _ ⟨⟩
    · exact fun _ => ⟨rfl, .inr hactive⟩

theorem Iterates.entry_done (hI : Iterates hc p entdom st workList done last) (hmem : b ∈ workList)
    (hne : b ≠ c.entry) : done c.entry :=
  hI.placed.entry_done_of_ready ((hI.listed.mem_iff b).mp hmem).2 hne

/-! ### The end of the iteration -/

/-- In a region whose inner loops are not running, a block that is not done comes after one that is ready. -/
theorem Listed.exists_ready [Finite B] (hc : c.Consistent) (hL : Listed c st workList done) (region : Option B)
    (hhead : ∀ h, region = some h → st.firstIter h = false)
    (hinner : ∀ k, InRegion hc region k → region ≠ some k → st.firstIter k = true)
    (ha : ¬ done a) (hin : InRegion hc region a) (hne : region ≠ some a) : ∃ b, b ∈ workList := by
  obtain ⟨b, ⟨hb, hbin, hbne⟩, hleast⟩ := hc.reducible.wellFounded.has_min
    {b | ¬ done b ∧ InRegion hc region b ∧ region ≠ some b} ⟨a, ha, hin, hne⟩
  refine ⟨b, (hL.mem_iff b).mpr ⟨hb, fun e htarget => ?_⟩⟩
  by_cases hback : c.isBack e = true
  · exact .inr ⟨hback, hinner b hbin hbne⟩
  subst htarget
  have hforward := hc.forward (Bool.eq_false_iff.mpr hback)
  have hsource : InRegion hc region (c.source e) := by
    rintro h rfl
    exact (hbin h rfl).source fun heq => hbne (congrArg some heq.symm)
  left
  cases hexit : c.loopExitEdge e with
  | none =>
    rw [finished_none hexit]
    by_cases hhead' : region = some (c.source e)
    · exact .inr (hhead _ hhead')
    · by_contra hvisited
      exact hleast _ ⟨fun hdone => hvisited (.inl hdone), hsource, hhead'⟩ (.single hforward)
  | some k =>
    rw [finished_some hexit]
    have hk := hc.exit_source hexit
    have hout := hc.exit_target hexit
    have hkin : InRegion hc region k := by
      rintro h rfl
      exact ((hsource h rfl).nested hk).resolve_right fun hh => hout (hh.trans (hbin h rfl))
    have hkne : region ≠ some k := fun heq => hout (hbin k heq)
    by_contra hdone
    refine hleast k ⟨hdone, hkin, hkne⟩ ?_
    by_cases heq : c.source e = k
    · exact heq ▸ .single hforward
    · exact (hk.forward_path heq).tail hforward

/-- The work-list is empty only when every block is done. -/
theorem Placed.all_done [Finite B] (hP : Placed hc st done) (hL : Listed c st [] done) (b : B) : done b := by
  by_contra hb
  by_cases hactive : ∃ h, st.firstIter h = false
  · -- the innermost loop that runs has a block that is ready
    obtain ⟨h, hh, hlast⟩ := hc.reducible.wellFounded_swap.has_min {h | st.firstIter h = false} hactive
    have hinner : ∀ k, InRegion hc (some h) k → some h ≠ some k → st.firstIter k = true := by
      intro k hk hne
      by_contra hfirst
      have hne' : k ≠ h := fun heq => hne (congrArg some heq.symm)
      exact hlast k (Bool.eq_false_iff.mpr hfirst) ((hk h rfl).forward_path hne')
    suffices hopen : ∃ a, ¬ done a ∧ hc.InLoop h a ∧ a ≠ h by
      obtain ⟨a, ha, hin, hne⟩ := hopen
      obtain ⟨b, hmem⟩ := hL.exists_ready hc (some h) (by rintro _ ⟨⟩; exact hh) hinner ha
        (by rintro _ ⟨⟩; exact hin) fun heq => hne (Option.some.inj heq).symm
      exact absurd hmem List.not_mem_nil
    have hnot := mt (hL.mem_iff h).mpr List.not_mem_nil
    have hnotready : ¬ Ready c st done h := fun hready => hnot ⟨(hP.header h hh).2, hready⟩
    unfold Ready at hnotready
    push Not at hnotready
    obtain ⟨e, rfl, hunfinished, -⟩ := hnotready
    have hback : c.isBack e = true := by
      by_contra hforward
      exact hunfinished (hP.order e (Bool.eq_false_iff.mpr hforward) (.inr hh))
    cases hexit : c.loopExitEdge e with
    | none =>
      rw [finished_none hexit] at hunfinished
      exact ⟨c.source e, fun hdone => hunfinished (.inl hdone), hc.inLoop_source hback,
        fun heq => hunfinished (.inr (heq ▸ hh))⟩
    | some k =>
      rw [finished_some hexit] at hunfinished
      have hout := hc.exit_target hexit
      exact ⟨k, hunfinished, ((hc.inLoop_source hback).nested (hc.exit_source hexit)).resolve_right hout,
        fun heq => hout (heq ▸ hc.inLoop_self _)⟩
  · push Not at hactive
    obtain ⟨a, hmem⟩ := hL.exists_ready hc none (by simp) (fun k _ _ => Bool.eq_true_of_not_eq_false (hactive k)) hb
      (by rintro _ ⟨⟩) (by simp)
    exact absurd hmem List.not_mem_nil

theorem Iterates.all_done [Finite B] (hI : Iterates hc p entdom st [] done last) (b : B) : done b :=
  hI.placed.all_done hI.listed b


/-! ### Least solutions -/

/-- `V` solves a CFG from the state of its entry, below all solutions. -/
def LeastSolution (hc : c.Consistent) (p : Problem B D) (entdom : D) (V : B → D) : Prop :=
  SolvesRegion hc p entdom V V none ∧ ∀ U, SolvesRegion hc p entdom U U none → ∀ b, V b ≤ U b

/-- The iteration ends with the least solution. -/
theorem Iterates.leastSolution [Finite B] (hI : Iterates hc p entdom st [] done last) :
    LeastSolution hc p entdom last := by
  have hdone := hI.all_done
  refine ⟨⟨hI.bounded.entry (hdone _), fun b => hI.bounded.solved b (hdone b)⟩, fun U hU b => ?_⟩
  exact (hI.bounded.least none (by simp) U hU).1 b (by rintro _ ⟨⟩) (.inl (hdone b))

theorem exists_leastSolution [Fintype B] [DecidableEq D] (hN : FiniteHeight D N) (hc : c.Consistent)
    (p : Problem B D) (entdom : D) : ∃ V, LeastSolution hc p entdom V := by
  suffices hends : ∀ n (st : Store B E D) workList done last, Iterates hc p entdom st workList done last →
      potential hc N st done last = n → ∃ V, LeastSolution hc p entdom V from
    hends _ Store.empty [c.entry] (fun _ => False) (fun _ => ⊥)
      (iterates_start hc p entdom (fun _ => rfl) fun _ => rfl) rfl
  intro n
  induction n using Nat.strong_induction_on with
  | _ n ih =>
    intro st workList done last hI hn
    cases workList with
    | nil => exact ⟨last, hI.leastSolution⟩
    | cons b workList =>
      obtain ⟨o, r, done', last', -, hturned⟩ := hI.turn List.mem_cons_self
      exact ih _ (hn ▸ hturned.potential_lt N hN) r.1 _ done' last' hturned.iterates rfl

theorem LeastSolution.mono {x y : D} {U V : B → D} (hU : LeastSolution hc p x U) (hV : LeastSolution hc p y V)
    (hle : x ≤ y) (b : B) : U b ≤ V b :=
  hU.2 V ⟨hle.trans hV.1.1, hV.1.2⟩ b

open Classical in
/-- The state after the exit of a CFG as a function of the state at its entry. -/
noncomputable def exitState [Fintype B] [DecidableEq D] (hN : FiniteHeight D N) (hc : c.Consistent)
    (p : Problem B D) : D →o D where
  toFun x := p.update c.exit ((exists_leastSolution hN hc p x).choose c.exit)
  monotone' x y hle := (p.update c.exit).monotone
    ((exists_leastSolution hN hc p x).choose_spec.mono (exists_leastSolution hN hc p y).choose_spec hle c.exit)

theorem exitState_eq [Fintype B] [DecidableEq D] (hN : FiniteHeight D N) {V : B → D}
    (hV : LeastSolution hc p x V) : exitState hN hc p x = p.update c.exit (V c.exit) := by
  have hchosen := (exists_leastSolution hN hc p x).choose_spec
  exact congrArg _ (le_antisymm (hchosen.mono hV le_rfl _) (hV.mono hchosen le_rfl _))

end Otawa.HalfAbsInt
