import Otawa.Hai.Turn
import Mathlib.Data.Fintype.Order
import Mathlib.Order.CompletePartialOrder

/-!
# What the results cover

The states that paths from the entry of the analysed CFG give (`Reaches`: calls and returns match, and a
path may end within a called CFG), and that in a run that takes no block with a CALL edge the results cover
them all once the work-list is empty.
-/

set_option linter.unusedSectionVars false

namespace Otawa.HalfAbsInt

open Relation

variable {F : Type} {B E : F → Type} {C D : Type}

namespace Program

/-- The CFG `f` has a CALL edge to the entry of `g`. -/
def Calls (P : Program F B E C) (f g : F) : Prop :=
  ∃ b, ∃ e ∈ P.calls ⟨f, b⟩, P.calledCFG e = g

/-- The CFGs are consistent, the CALL edges are those of their sources, entries and exits have none, and no
CFG calls itself, directly or through others. -/
structure Consistent (P : Program F B E C) : Prop where
  cfg : ∀ f, (P.cfg f).Consistent
  mem_calls : ∀ b e, e ∈ P.calls b ↔ P.caller e = b
  nodup_calls : ∀ b, (P.calls b).Nodup
  calls_entry : ∀ f, P.calls ⟨f, (P.cfg f).entry⟩ = []
  calls_exit : ∀ f, P.calls ⟨f, (P.cfg f).exit⟩ = []
  nonrecursive : ∀ f, ¬ Relation.TransGen P.Calls f f

end Program

/-! ### Paths -/

section Paths

variable [SemilatticeSup D] (P : Program F B E C) (p : ∀ f, Problem (B f) D)

/-- What crossing an edge does to a state. -/
def cross {B E : Type} (c : Cfg B E) (p : Problem B D) (e : E) : D →o D :=
  if c.isBack e then exitContext c p e else (entryContext c p (c.target e)).comp (exitContext c p e)

/-- `Within P p f x b y`: a path from the entry of `f` to the block `b` of `f` takes the state `x` to `y`; the
calls on the path have returned. -/
inductive Within : (f : F) → D → B f → D → Prop where
  | entry (f x) : Within f x (P.cfg f).entry x
  | edge {f x y} (e : E f) : P.calls ⟨f, (P.cfg f).source e⟩ = [] → Within f x ((P.cfg f).source e) y →
      Within f x ((P.cfg f).target e)
        (cross (P.cfg f) (p f) e ((p f).update ((P.cfg f).source e) y))
  | call {f x y z} (e : E f) (k : C) : k ∈ P.calls ⟨f, (P.cfg f).source e⟩ →
      Within f x ((P.cfg f).source e) y →
      Within (P.calledCFG k) ((p f).update ((P.cfg f).source e) y) (P.cfg (P.calledCFG k)).exit z →
      Within f x ((P.cfg f).target e)
        (cross (P.cfg f) (p f) e ((p f).leaveContext (P.cfg f).entry .func
          ((p (P.calledCFG k)).update (P.cfg (P.calledCFG k)).exit z)))

/-- A path from the entry of `f` takes the state `x` to `y` at the block; some calls on the path may not have
returned. -/
inductive Reaches (f : F) (x : D) : (Σ g, B g) → D → Prop where
  | within {b y} : Within P p f x b y → Reaches f x ⟨f, b⟩ y
  | call {g a y} (k : C) {b : B (P.calledCFG k)} {z} : Reaches f x ⟨g, a⟩ y → k ∈ P.calls ⟨g, a⟩ →
      Within P p (P.calledCFG k) ((p g).update a y) b z → Reaches f x ⟨P.calledCFG k, b⟩ z

end Paths

/-! ### The main CFG -/

variable [DecidableEq F] [∀ f, DecidableEq (B f)] [∀ f, DecidableEq (E f)] [DecidableEq C]
  [∀ f, Fintype (B f)] [SemilatticeSup D] [OrderBot D] [DecidableEq D]
  {P : Program F B E C} {p : ∀ f, Problem (B f) D} {entdom : D} {s t : State F B E C D}
  {f : F} {bs : List (Σ f, B f)}

theorem cross_le {B E : Type} {c : Cfg B E} {p : Problem B D} {e : E} {x : D} {U : B → D}
    (hsolves : Solves c p U (c.target e)) (hx : x ≤ p.update (c.source e) (U (c.source e))) :
    cross c p e x ≤ U (c.target e) := by
  have hcarry : exitContext c p e x ≤ carry c p U e := (exitContext c p e).monotone hx
  cases hback : c.isBack e with
  | true =>
    simp only [cross, hback, if_true]
    exact hcarry.trans (hsolves.2 e rfl hback)
  | false =>
    obtain ⟨y, hy, hle⟩ := hsolves.1
    simp only [cross, hback, Bool.false_eq_true, if_false]
    exact ((entryContext c p _).monotone (hcarry.trans (hy e rfl hback))).trans hle

/-- The solver is at work on the CFG `f` alone, no block of which has been found to have calls. -/
structure OnMain (hP : P.Consistent) (p : ∀ f, Problem (B f) D) (entdom : D) (f : F) (s : State F B E C D)
    (workList : List (B f)) (done : B f → Prop) (last : B f → D) : Prop where
  workList_eq : s.workList = workList.map (Sigma.mk f)
  curCfg_eq : s.curCfg = f
  callStack_eq : s.callStack = []
  mainEntry_iff : s.mainEntry = true ↔ ¬ done (P.cfg f).entry
  iterates : Iterates (hP.cfg f) (p f) entdom (s.store f) workList done last
  results_le : ∀ b, Visited (s.store f) done b → last b ≤ s.results f ((P.cfg f).number b)
  no_calls : ∀ b, Visited (s.store f) done b → P.calls ⟨f, b⟩ = []

theorem onMain_start (hP : P.Consistent) (f : F) (last : B f → D) :
    OnMain hP p entdom f (State.start P f) [(P.cfg f).entry] (fun _ => False) last where
  workList_eq := rfl
  curCfg_eq := rfl
  callStack_eq := rfl
  mainEntry_iff := by simp [State.start]
  iterates := iterates_start (hP.cfg f) (p f) entdom (fun _ => rfl) fun _ => rfl
  results_le := by simp [Visited, State.start, Store.empty]
  no_calls := by simp [Visited, State.start, Store.empty]

section

variable {hP : P.Consistent} {workList : List (B f)} {done : B f → Prop} {last : B f → D}
  (hM : OnMain hP p entdom f s workList done last)
include hM

/-- A turn that takes a block without calls. -/
theorem OnMain.turn {b : Σ f, B f} (hmem : b ∈ s.workList)
    (hcalls : P.calls b = []) (hprocess : s.process P p entdom b = some t) :
    ∃ workList' done' last', OnMain hP p entdom f t workList' done' last' := by
  rw [hM.workList_eq] at hmem
  obtain ⟨a, ha, rfl⟩ := List.mem_map.mp hmem
  obtain ⟨o, r, done', last', hvisit, hturned⟩ := hM.iterates.turn ha
  obtain ⟨main, hmain, hprocess'⟩ : ∃ main : Bool, (main = true ↔ ¬ done' (P.cfg f).entry) ∧
      s.process P p entdom ⟨f, a⟩ =
        some (({ s with mainEntry := main } : State F B E C D).after P ⟨f, a⟩ (o, r)) := by
    by_cases hentry : a = (P.cfg f).entry
    · subst hentry
      have hmain : s.mainEntry = true :=
        hM.mainEntry_iff.mpr ((hM.iterates.listed.mem_iff _).mp ha).1
      refine ⟨false, by simp [hturned.entry (.inl rfl)], ?_⟩
      rw [State.process_main_entry (hP.cfg f) hcalls hM.callStack_eq hmain, hvisit]
      rfl
    · have hdone := hM.iterates.entry_done ha hentry
      have hmain : s.mainEntry = false := by
        simpa [hdone] using hM.mainEntry_iff
      refine ⟨false, by simp [hturned.entry (.inr hdone)], ?_⟩
      rw [State.process_visit hcalls (.inr hM.callStack_eq) hmain hentry, hvisit, ← hmain]
      rfl
  cases hprocess.symm.trans hprocess'
  refine ⟨r.2 ++ workList.erase a, done', last', ?_, hM.curCfg_eq, hM.callStack_eq, hmain, ?_, fun b hb => ?_,
    fun b hb => ?_⟩
  · rw [State.after_workList [] (o, r) ha (by simp [hM.workList_eq]), List.append_nil]
  · rw [State.after_store]
    exact hturned.iterates
  · rw [State.after_store] at hb
    have hold : Visited (s.store f) done b → last b ≤ (s.told P ⟨f, a⟩ o) f ((P.cfg f).number b) :=
      fun hvisited => (hM.results_le b hvisited).trans (State.le_told s _ o f _)
    cases o with
    | none =>
      obtain ⟨rfl, hvisited⟩ := hturned.last_none rfl
      obtain rfl | hb := hturned.of_visited b hb
      · exact hold hvisited
      · exact hold hb
    | some x =>
      rw [hturned.last_some x rfl]
      by_cases hba : b = a
      · subst hba
        rw [Function.update_self]
        exact State.told_self x hM.curCfg_eq
      · rw [Function.update_of_ne hba]
        exact hold ((hturned.of_visited b hb).resolve_left hba)
  · rw [State.after_store] at hb
    obtain rfl | hb := hturned.of_visited b hb
    · exact hcalls
    · exact hM.no_calls b hb

/-- A run that takes no block with a CALL edge. -/
theorem OnMain.run (hrun : State.Run P p entdom s bs t)
    (hcalls : ∀ b ∈ bs, P.calls b = []) :
    ∃ workList' done' last', OnMain hP p entdom f t workList' done' last' := by
  induction hrun generalizing workList done last with
  | nil s => exact ⟨workList, done, last, hM⟩
  | cons hmem hprocess _ ih =>
    obtain ⟨workList', done', last', hM'⟩ := hM.turn hmem (hcalls _ List.mem_cons_self) hprocess
    exact ih hM' fun b hb => hcalls b (List.mem_cons_of_mem _ hb)

end

/-- Paths stay below a solution of the equations of a CFG without calls. -/
theorem Within.le {x y : D} {b : B f} (hpath : Within P p f x b y) {U : B f → D}
    (hcalls : ∀ b, P.calls ⟨f, b⟩ = []) (hx : x ≤ U (P.cfg f).entry) (hU : ∀ b, Solves (P.cfg f) (p f) U b) :
    y ≤ U b := by
  induction hpath with
  | entry f x => exact hx
  | edge e _ _ ih => exact cross_le (hU _) (((p _).update _).monotone (ih hcalls hx hU))
  | call e k hmem => simp [hcalls] at hmem

/-- If no block with a CALL edge is taken, the results cover every path when the work-list is empty. -/
theorem results_cover (hP : P.Consistent) (p : ∀ f, Problem (B f) D) (entdom : D) (f : F)
    (hrun : State.Run P p entdom (State.start P f) bs s) (hend : s.workList = [])
    (hcalls : ∀ b ∈ bs, P.calls b = []) (b : Σ f, B f) (x : D) (hpath : Reaches P p f entdom b x) :
    x ≤ s.results b.1 ((P.cfg b.1).number b.2) := by
  obtain ⟨workList, done, last, hM⟩ := (onMain_start hP f fun _ => ⊥).run hrun hcalls
  obtain rfl : workList = [] := by simpa [hend] using hM.workList_eq.symm
  have hdone := hM.iterates.all_done
  have hnone : ∀ b, P.calls ⟨f, b⟩ = [] := fun b => hM.no_calls b (.inl (hdone b))
  have hwithin : ∀ {b y}, Within P p f entdom b y → y ≤ s.results f ((P.cfg f).number b) := by
    intro b y hpath
    have hle := hpath.le hnone (hM.iterates.bounded.entry (hdone _)) fun b =>
      hM.iterates.bounded.solved b (hdone b)
    exact hle.trans (hM.results_le b (.inl (hdone b)))
  have hmain : ∃ a, b = ⟨f, a⟩ ∧ Within P p f entdom a x := by
    induction hpath with
    | within hpath => exact ⟨_, rfl, hpath⟩
    | call k _ hmem _ ih =>
      obtain ⟨a, heq, -⟩ := ih
      rw [heq, hnone a] at hmem
      exact absurd hmem List.not_mem_nil
  obtain ⟨a, rfl, hwalk⟩ := hmain
  exact hwithin hwalk

/-! ### A loop whose header calls a function -/

theorem neZero_four : NeZero 4 := ⟨by decide⟩

attribute [local instance] neZero_four in
/-- A while loop: `0 → 1`, the loop `1 → 2 → 1`, and `1 → 3`. -/
def whileCfg : Cfg (Fin 4) (Fin 4) where
  source := ![0, 1, 2, 1]
  target := ![1, 2, 1, 3]
  inEdges := ![[], [0, 2], [1], [3]]
  outEdges := ![[0], [1, 3], [2], []]
  entry := 0
  exit := 3
  number b := b
  dominates a b := a = 0 || a = b || (a = 1 && b ≠ 0)
  loopHeader b := b = 1
  loopExitEdge := ![none, none, none, some 1]
  exitList := ![[], [3], [], []]

namespace whileCfg

theorem adjacent_iff (a b : Fin 4) :
    whileCfg.Adjacent a b ↔ (a, b) ∈ [((0 : Fin 4), (1 : Fin 4)), (1, 2), (2, 1), (1, 3)] := by
  unfold Cfg.Adjacent
  revert a b
  decide

theorem reach (b : Fin 4) : ReflTransGen whileCfg.Adjacent whileCfg.entry b := by
  have hfirst : ReflTransGen whileCfg.Adjacent 0 1 := .single ((adjacent_iff 0 1).mpr (by decide))
  fin_cases b
  · exact .refl
  · exact hfirst
  · exact hfirst.tail ((adjacent_iff 1 2).mpr (by decide))
  · exact hfirst.tail ((adjacent_iff 1 3).mpr (by decide))

theorem avoids_iff (a b : Fin 4) : (whileCfg.flow reach).Avoids a 0 b ↔ a ≠ 0 ∧ (b = 0 ∨ (a ≠ 1 ∧ b ≠ a)) := by
  constructor
  · rintro ⟨hne, hpath⟩
    refine ⟨hne.symm, ?_⟩
    induction hpath with
    | refl => exact .inl rfl
    | @tail x y hpath hstep ih =>
      have hedge := (adjacent_iff x y).mp hstep.1
      have hy := hstep.2
      clear hstep hpath
      revert a x y
      decide
  · rintro ⟨hne, hb⟩
    have hstep : ∀ x y : Fin 4, (whileCfg.flow reach).Avoids a 0 x → whileCfg.Adjacent x y → y ≠ a →
        (whileCfg.flow reach).Avoids a 0 y := fun x y hx hxy hy => hx.tail hxy hy
    have h0 : (whileCfg.flow reach).Avoids a 0 0 := .refl hne.symm
    obtain rfl | ⟨hne1, hba⟩ := hb
    · exact h0
    have h1 := hstep 0 1 h0 ((adjacent_iff 0 1).mpr (by decide)) hne1.symm
    fin_cases b
    · exact h0
    · exact h1
    · exact hstep 1 2 h1 ((adjacent_iff 1 2).mpr (by decide)) hba
    · exact hstep 1 3 h1 ((adjacent_iff 1 3).mpr (by decide)) hba

theorem dominates_iff (a b : Fin 4) : whileCfg.dominates a b = true ↔ (whileCfg.flow reach).Dominates a b := by
  refine Iff.trans ?_ (not_congr (avoids_iff a b)).symm
  revert a b
  decide

theorem back_iff (a b : Fin 4) : (whileCfg.flow reach).Back a b ↔ a = 2 ∧ b = 1 := by
  refine (and_congr (adjacent_iff a b) (dominates_iff b a).symm).trans ?_
  revert a b
  decide

theorem inLoop_iff (b : Fin 4) : (whileCfg.flow reach).InLoop 1 b ↔ b = 1 ∨ b = 2 := by
  refine or_congr_right ⟨?_, ?_⟩
  · rintro ⟨a, hback, hne, hpath⟩
    obtain ⟨rfl, -⟩ := (back_iff a 1).mp hback
    obtain rfl | ⟨x, hstep, -⟩ := hpath.cases_head
    · rfl
    · have hedge := (adjacent_iff b x).mp hstep.1
      have hx := hstep.2
      clear hstep hpath
      revert b x
      decide
  · rintro rfl
    exact ⟨2, (back_iff 2 1).mpr ⟨rfl, rfl⟩, .refl (by decide)⟩

theorem consistent : whileCfg.Consistent where
  mem_inEdges := by decide
  nodup_inEdges := by decide
  mem_outEdges := by decide
  nodup_outEdges := by decide
  reach := reach
  entry_ne_exit := by decide
  target_ne_entry := by decide
  source_ne_exit := by decide
  number_injective := Fin.val_injective
  dominates_iff := dominates_iff
  loopHeader_iff b := by
    refine decide_eq_true_iff.trans ⟨fun hb => ⟨2, (back_iff 2 b).mpr ⟨rfl, hb⟩⟩, fun ⟨a, hback⟩ => ?_⟩
    exact ((back_iff a b).mp hback).2
  reducible v hcycle := by
    have hlt : ∀ a b, (whileCfg.flow reach).Forward a b → a < b := by
      rintro a b ⟨hedge, hdom⟩
      replace hedge := (adjacent_iff a b).mp hedge
      rw [← dominates_iff] at hdom
      revert a b
      decide
    have hless : TransGen (· < ·) v v := TransGen.mono (fun a b => hlt a b) v v hcycle
    rw [transGen_eq_self] at hless
    exact lt_irrefl v hless
  loopExitEdge_some e h hexit := by
    obtain ⟨rfl, rfl⟩ : e = 3 ∧ h = 1 := by
      revert e h
      decide
    refine ⟨⟨by decide, (inLoop_iff 1).mpr (by decide), fun hin => absurd ((inLoop_iff 3).mp hin) (by decide)⟩, ?_⟩
    rintro k ⟨hheader, -⟩
    obtain rfl := of_decide_eq_true hheader
    exact (inLoop_iff 1).mpr (by decide)
  loopExitEdge_none e hnone k := by
    rintro ⟨hheader, hin, hout⟩
    obtain rfl := of_decide_eq_true hheader
    replace hin := (inLoop_iff _).mp hin
    rw [inLoop_iff] at hout
    revert e
    decide
  mem_exitList := by decide
  nodup_exitList := by decide

end whileCfg

/-- Blocks that change nothing. -/
def idProblem : Problem (Fin 4) Bool where
  update _ := OrderHom.id
  enterContext _ _ := OrderHom.id
  leaveContext _ _ := OrderHom.id

/-- One loop without calls. -/
def loopProgram : Program Unit (fun _ => Fin 4) (fun _ => Fin 4) Empty where
  cfg _ := whileCfg
  calls _ := []
  caller := Empty.elim
  calledCFG := Empty.elim

theorem loopProgram_consistent : loopProgram.Consistent where
  cfg _ := whileCfg.consistent
  mem_calls _ e := e.elim
  nodup_calls _ := List.nodup_nil
  calls_entry _ := rfl
  calls_exit _ := rfl
  nonrecursive _ hcycle := by
    obtain ⟨_, ⟨_, e, -⟩, -⟩ := TransGen.head'_iff.mp hcycle
    exact e.elim

attribute [local instance] neZero_four in
/-- The CFG `false` calls the CFG `true` from the header of its loop. -/
def headerCall : Program Bool (fun _ => Fin 4) (fun _ => Fin 4) Unit where
  cfg _ := whileCfg
  calls b := if b.1 = false ∧ b.2 = 1 then [()] else []
  caller _ := ⟨false, 1⟩
  calledCFG _ := true

theorem headerCall_consistent : headerCall.Consistent where
  cfg _ := whileCfg.consistent
  mem_calls := by
    rintro ⟨f, b⟩ ⟨⟩
    revert f b
    decide
  nodup_calls := by
    rintro ⟨f, b⟩
    revert f b
    decide
  calls_entry := by decide
  calls_exit := by decide
  nonrecursive f hcycle := by
    have hcalls : ∀ f g, headerCall.Calls f g → f = false ∧ g = true := by
      rintro f g ⟨b, ⟨⟩, hmem, rfl⟩
      revert f b
      decide
    obtain ⟨g, hfirst, -⟩ := TransGen.head'_iff.mp hcycle
    obtain ⟨h, -, hlast⟩ := TransGen.tail'_iff.mp hcycle
    rw [(hcalls _ _ hfirst).1] at hlast
    exact absurd (hcalls _ _ hlast).2 (by decide)

attribute [local instance] neZero_four in
/-- The CFG `false` calls the CFG `true` from the body of its loop. -/
def bodyCall : Program Bool (fun _ => Fin 4) (fun _ => Fin 4) Unit where
  cfg _ := whileCfg
  calls b := if b.1 = false ∧ b.2 = 2 then [()] else []
  caller _ := ⟨false, 2⟩
  calledCFG _ := true

namespace bodyCall

theorem calls_iff {f g : Bool} (hcall : bodyCall.Calls f g) : f = false ∧ g = true := by
  obtain ⟨b, ⟨⟩, hmem, rfl⟩ := hcall
  revert f b
  decide

theorem consistent : bodyCall.Consistent where
  cfg _ := whileCfg.consistent
  mem_calls := by
    rintro ⟨f, b⟩ ⟨⟩
    revert f b
    decide
  nodup_calls := by
    rintro ⟨f, b⟩
    revert f b
    decide
  calls_entry := by decide
  calls_exit := by decide
  nonrecursive f hcycle := by
    obtain ⟨g, hfirst, -⟩ := TransGen.head'_iff.mp hcycle
    obtain ⟨h, -, hlast⟩ := TransGen.tail'_iff.mp hcycle
    rw [(calls_iff hfirst).1] at hlast
    exact absurd (calls_iff hlast).2 (by decide)

end bodyCall

attribute [local instance] neZero_four in
/-- The CFG `none` calls two others from the header of its loop. -/
def twoCalls : Program (Option Bool) (fun _ => Fin 4) (fun _ => Fin 4) Bool where
  cfg _ := whileCfg
  calls b := if b.1 = none ∧ b.2 = 1 then [false, true] else []
  caller _ := ⟨none, 1⟩
  calledCFG := some

theorem twoCalls_consistent : twoCalls.Consistent where
  cfg _ := whileCfg.consistent
  mem_calls := by
    rintro ⟨f, b⟩ e
    revert f b e
    decide
  nodup_calls := by
    rintro ⟨f, b⟩
    revert f b
    decide
  calls_entry := by decide
  calls_exit := by decide
  nonrecursive f hcycle := by
    have hcalls : ∀ f g, twoCalls.Calls f g → f = none ∧ g ≠ none := by
      rintro f g ⟨b, e, hmem, rfl⟩
      revert f b e
      decide
    obtain ⟨g, hfirst, -⟩ := TransGen.head'_iff.mp hcycle
    obtain ⟨h, -, hlast⟩ := TransGen.tail'_iff.mp hcycle
    rw [(hcalls _ _ hfirst).1] at hlast
    exact (hcalls _ _ hlast).2 rfl

/-- The exit of the loop is covered. -/
theorem results_cover_loop : ∃ s, State.solve loopProgram (fun _ => idProblem) true 9
    (State.start loopProgram ()) = some s ∧ true ≤ s.results () 3 := by
  have hends : (State.solve loopProgram (fun _ => idProblem) true 9 (State.start loopProgram ())).map
      (fun s => s.workList) = some [] := by decide
  obtain ⟨s, hs, hend⟩ := Option.map_eq_some_iff.mp hends
  obtain ⟨bs, hrun⟩ := State.solve_run hs
  refine ⟨s, hs, results_cover loopProgram_consistent _ true () hrun hend (fun _ _ => rfl) ⟨(), 3⟩ true ?_⟩
  have h1 := Within.edge (P := loopProgram) (p := fun _ => idProblem) (f := ()) (0 : Fin 4) rfl (.entry () true)
  exact .within (Within.edge (P := loopProgram) (p := fun _ => idProblem) (f := ()) (3 : Fin 4) rfl h1)

/-- A path through the call leaves the loop. -/
theorem headerCall_reaches : Reaches headerCall (fun _ => idProblem) false true ⟨false, 3⟩ true := by
  have hcall := Within.edge (P := headerCall) (p := fun _ => idProblem) (f := false) (0 : Fin 4) rfl (.entry false true)
  have hin := Within.edge (P := headerCall) (p := fun _ => idProblem) (f := true) (0 : Fin 4) rfl (.entry true true)
  have hout := Within.edge (P := headerCall) (p := fun _ => idProblem) (f := true) (3 : Fin 4) rfl hin
  exact .within (Within.call (P := headerCall) (p := fun _ => idProblem) (f := false) (3 : Fin 4) () (by decide)
    hcall hout)

/-- The return from the call unmarks the in-edges of the header, and the loop is never left. -/
theorem header_call_skips_exit : headerCall.Consistent ∧ ∃ s,
    State.solve headerCall (fun _ => idProblem) true 9 (State.start headerCall false) = some s ∧
      s.workList = [] ∧ Reaches headerCall (fun _ => idProblem) false true ⟨false, 3⟩ true ∧
        ¬ true ≤ s.results false (whileCfg.number 3) := by
  refine ⟨headerCall_consistent, ?_⟩
  have hends : (State.solve headerCall (fun _ => idProblem) true 9 (State.start headerCall false)).map
      (fun s => (s.workList, s.results false (whileCfg.number 3))) = some ([], false) := by decide
  obtain ⟨s, hs, hend⟩ := Option.map_eq_some_iff.mp hends
  obtain ⟨hlist, hresult⟩ := Prod.ext_iff.mp hend
  exact ⟨s, hs, hlist, headerCall_reaches, by simp_all⟩

end Otawa.HalfAbsInt
