import Otawa.Hai.Calls

/-!
# Termination of the solver

Over a domain of finite height, `solve` empties the work-list and every state that it reads is recorded,
for the programs whose calls return (`Program.Returns`) and whichever deliverable block is taken at each
turn. A loop header with two CALL edges is read again before its back edges are marked.
-/

set_option linter.unusedSectionVars false

namespace Otawa.HalfAbsInt

open Relation

variable {F : Type} {B E : F → Type} {C D : Type}
variable [DecidableEq F] [∀ f, DecidableEq (B f)] [∀ f, DecidableEq (E f)] [DecidableEq C]
  [∀ f, Fintype (B f)] [SemilatticeSup D] [OrderBot D] [DecidableEq D]
  {P : Program F B E C} {p : ∀ f, Problem (B f) D} {S : F → D →o D} {entdom : D}
  {s s₀ t : State F B E C D} {f g : F} {x y : D} {rest : List (Σ f, B f)} {N : ℕ}
  {hP : P.Consistent} {workList : List (B f)} {done : B f → Prop} {last : B f → D} {a : B f}

namespace Running

/-- The iteration over the CFG has gone on since the state `s`. -/
def Advances (hP : P.Consistent) (p : ∀ f, Problem (B f) D) (S : F → D →o D) (s₀ : State F B E C D) (f : F) (x : D)
    (rest : List (Σ f, B f)) (s : State F B E C D) (done : B f → Prop) (last : B f → D) (t : State F B E C D) :
    Prop :=
  ∃ workList' done' last', Running hP p S s₀ f x rest t workList' done' last' ∧
    ∀ N, FiniteHeight D N → potential (hP.cfg f) N (t.store f) done' last' <
      potential (hP.cfg f) N (s.store f) done last

section

variable (hE : Enters P entdom s₀ f x rest) (hR : Running hP p S s₀ f x rest s workList done last)
  (ha : a ∈ workList) (hret : P.Returns f) (hgive : ∀ g, P.Calls f g → GivesBack P p entdom g (S g))

include hE hR ha

/-- Back at a block with calls, it is the only one that may be taken. -/
theorem only_block {pre post : List C} {out : D} (hcalls : P.calls ⟨f, a⟩ = pre ++ post) (hpre : pre ≠ [])
    (hB : Between P p S s f out pre post t) (hA : AtBlock s ⟨f, a⟩ t) :
    Live P t ∧ ∀ b, Deliverable P t b → b = ⟨f, a⟩ := by
  have hmem : (⟨f, a⟩ : Σ f, B f) ∈ t.workList := by
    rw [hA.workList_eq]
    exact List.mem_cons_self
  constructor
  · refine ⟨_, _, hA.workList_eq, hmem, hA.curCfg_eq.symm, fun b hb e he hmark => ?_⟩
    rw [hA.workList_eq] at hb
    rcases List.mem_cons.mp hb with rfl | hb
    · rfl
    rw [hB.callMark_eq] at hmark
    split at hmark
    case isTrue hin =>
      have hcaller := (hP.mem_calls ⟨f, a⟩ e).mp (hcalls ▸ List.mem_append_left _ hin)
      exact ((hP.mem_calls b e).mp he).symm.trans hcaller
    case isFalse =>
      rw [hR.idle hE (List.mem_of_mem_erase hb) e he] at hmark
      cases hmark
  · rintro b ⟨-, -, hpending⟩
    obtain ⟨e, l, rfl⟩ := List.exists_cons_of_ne_nil hpre
    refine (hpending ⟨f, a⟩ hmem e (hcalls ▸ List.mem_cons_self) ?_).symm
    rw [hB.callMark_eq, if_pos List.mem_cons_self]
    rfl

include hret hgive

/-- From the entry of the CFG that is called next, its exit is reached. -/
theorem inevitable_entry {pre post : List C} {e : C} {out : D} {goal : State F B E C D → Prop}
    (hcalls : P.calls ⟨f, a⟩ = pre ++ e :: post) (hB : Between P p S s f out pre (e :: post) t)
    (hA : AtEntry P s ⟨f, a⟩ e t)
    (hnext : ∀ t', Between P p S s f out (pre ++ [e]) post t' → AtBlock s ⟨f, a⟩ t' →
      Inevitable (State.process P p entdom) (Deliverable P) (Live P) goal t') :
    Inevitable (State.process P p entdom) (Deliverable P) (Live P) goal t := by
  have hmem : e ∈ P.calls ⟨f, a⟩ := hcalls ▸ List.mem_append_right _ List.mem_cons_self
  have hlisted : (⟨f, a⟩ : Σ f, B f) ∈ s.workList := by
    rw [hR.workList_eq]
    exact List.mem_append_left _ (List.mem_map.mpr ⟨a, ha, rfl⟩)
  have hfresh : t.callMark e = none := by
    have hnodup := hP.nodup_calls ⟨f, a⟩
    rw [hcalls] at hnodup
    rw [hB.callMark_eq, if_neg fun hin => (List.nodup_append.mp hnodup).2.2 e hin e List.mem_cons_self rfl]
    exact hR.idle hE hlisted e hmem
  refine Inevitable.bind (hgive _ ⟨a, e, hmem, rfl⟩ t out _ e f _ _ (hR.enters_next hE ha hret hcalls hB hA)
    hB.mainEntry_eq hA.callStack_eq hA.cfgStack_eq hfresh rfl) fun t' ht => ?_
  obtain ⟨hB', hA'⟩ := hR.between_returned hE hret hcalls hB ht
  exact hnext t' hB' hA'

/-- From between two calls of a block, the other ones return and the iteration goes on. -/
theorem advances_between {done' : B f → Prop} {last' : B f → D} (hne : P.calls ⟨f, a⟩ ≠ [])
    (hx : Store.union (s.store f).mark ((P.cfg f).inEdges a) = some y)
    (hturned : Turned (hP.cfg f) (withCalls P p S f) x (s.store f) workList done last a (some y)
        (((s.store f).unmarkEdges ((P.cfg f).inEdges a)).addSuccessors (P.cfg f) a
          (givenBack P p S ⟨f, a⟩ ((p f).update a y))) done' last') (post : List C) :
    ∀ pre t, P.calls ⟨f, a⟩ = pre ++ post → pre ≠ [] → Between P p S s f ((p f).update a y) pre post t →
      AtBlock s ⟨f, a⟩ t → Inevitable (State.process P p entdom) (Deliverable P) (Live P)
        (Advances hP p S s₀ f x rest s done last) t := by
  induction post with
  | nil =>
    intro pre t hcalls hpre hB hA
    rw [List.append_nil] at hcalls
    subst hcalls
    obtain ⟨hlive, honly⟩ := hR.only_block hE ha (List.append_nil _).symm hpre hB hA
    obtain ⟨t', workList', hprocess, hR', hlt⟩ := hR.resume hE ha hret hne hturned hB hA
    refine .of_choices hlive fun b hb => ?_
    rw [honly b hb]
    exact ⟨t', hprocess, .here ⟨workList', done', last', hR', hlt⟩⟩
  | cons e post ih =>
    intro pre t hcalls hpre hB hA
    obtain ⟨hlive, honly⟩ := hR.only_block hE ha hcalls hpre hB hA
    obtain ⟨t', hprocess, hA', hB'⟩ := hR.call_next hE ha hret hcalls hpre hx hB hA
    refine .of_choices hlive fun b hb => ?_
    rw [honly b hb]
    refine ⟨t', hprocess, hR.inevitable_entry hE ha hret hgive hcalls hB' hA' fun t'' hB'' hA'' => ?_⟩
    exact ih (pre ++ [e]) t'' (by rw [hcalls, List.append_assoc, List.singleton_append]) (by simp) hB'' hA''

/-- A block with calls is taken, and once they have returned the iteration goes on. -/
theorem advances_calls (hne : P.calls ⟨f, a⟩ ≠ []) : ∃ t, s.process P p entdom ⟨f, a⟩ = some t ∧
    Inevitable (State.process P p entdom) (Deliverable P) (Live P) (Advances hP p S s₀ f x rest s done last) t := by
  obtain ⟨y, done', last', hx, hturned⟩ := hR.visit_calls ha hret hne
  obtain ⟨e, post, hcalls⟩ := List.exists_cons_of_ne_nil hne
  obtain ⟨t, hprocess, hA, hB⟩ := hR.call_first hE ha hret hcalls hx
  refine ⟨t, hprocess, hR.inevitable_entry hE ha hret hgive hcalls hB hA fun t' hB' hA' => ?_⟩
  exact hR.advances_between hE ha hret hgive hne hx hturned post [e] t' hcalls (by simp) hB' hA'

end

/-- The iteration over a CFG comes to its end: the work-list of the CFG is empty or its exit gives back. -/
theorem inevitable (hE : Enters P entdom s f x rest) (hP : P.Consistent) (hN : FiniteHeight D N)
    (hret : P.Returns f) (hgive : ∀ g, P.Calls f g → GivesBack P p entdom g (S g)) {goal : State F B E C D → Prop}
    (hend : ∀ t done last, Running hP p S s f x rest t [] done last → goal t)
    (hexit : ∀ t workList done last, Running hP p S s f x rest t workList done last →
      (P.cfg f).exit ∈ workList → s.callStack ≠ [] →
      ∃ t', t.process P p entdom ⟨f, (P.cfg f).exit⟩ = some t' ∧ goal t') :
    Inevitable (State.process P p entdom) (Deliverable P) (Live P) goal s := by
  refine Inevitable.of_measure (fun n t => ∃ workList done last, Running hP p S s f x rest t workList done last ∧
    potential (hP.cfg f) N (t.store f) done last = n) (fun n t hinv => ?_)
    ⟨_, _, fun _ => ⊥, hE.running hP _, rfl⟩
  obtain ⟨workList, done, last, hR, rfl⟩ := hinv
  by_cases hne : workList = []
  · subst hne
    exact .inl (hend t done last hR)
  refine .inr ⟨hR.live hE hne, fun b hb => ?_⟩
  obtain ⟨a, ha, rfl⟩ := hR.mem_of_deliverable hE hb
  by_cases hcalls : P.calls ⟨f, a⟩ = []
  · by_cases hlast : a = (P.cfg f).exit ∧ s.callStack ≠ []
    · obtain ⟨rfl, hstack⟩ := hlast
      obtain ⟨t', hprocess, hgoal⟩ := hexit t workList done last hR ha hstack
      exact ⟨t', hprocess, .here (.inl hgoal)⟩
    · have hother : a ≠ (P.cfg f).exit ∨ s.callStack = [] := by
        rw [not_and_or, not_not] at hlast
        exact hlast
      obtain ⟨t', workList', done', last', hprocess, hR', hlt⟩ := hR.turn hE ha hcalls hother
      exact ⟨t', hprocess, .here (.inr ⟨_, hlt N hN, workList', done', last', hR', rfl⟩)⟩
  · obtain ⟨t', hprocess, hadvances⟩ := hR.advances_calls hE ha hret hgive hcalls
    refine ⟨t', hprocess, hadvances.mono fun u hu => ?_⟩
    obtain ⟨workList', done', last', hR', hlt⟩ := hu
    exact .inr ⟨_, hlt N hN, workList', done', last', hR', rfl⟩

/-- Without calls, any block of the work-list can be taken. -/
theorem inevitable_any (hE : Enters P entdom s f x []) (hP : P.Consistent) (hN : FiniteHeight D N)
    (hcalls : ∀ b, P.calls ⟨f, b⟩ = []) (hstack : s.callStack = []) :
    Inevitable (State.process P p entdom) (fun s b => b ∈ s.workList) (Live P) (fun s => s.workList = []) s := by
  refine Inevitable.of_measure (fun n t => ∃ workList done last,
    Running hP p (fun _ => OrderHom.id) s f x [] t workList done last ∧
      potential (hP.cfg f) N (t.store f) done last = n) (fun n t hinv => ?_) ⟨_, _, fun _ => ⊥, hE.running hP _, rfl⟩
  obtain ⟨workList, done, last, hR, rfl⟩ := hinv
  by_cases hne : workList = []
  · subst hne
    exact .inl hR.workList_eq
  refine .inr ⟨hR.live hE hne, fun b hb => ?_⟩
  rw [hR.workList_eq, List.append_nil] at hb
  obtain ⟨a, ha, rfl⟩ := List.mem_map.mp hb
  obtain ⟨t', workList', done', last', hprocess, hR', hlt⟩ := hR.turn hE ha (hcalls a) (.inr hstack)
  exact ⟨t', hprocess, .here (.inr ⟨_, hlt N hN, workList', done', last', hR', rfl⟩)⟩

end Running

/-! ### Summaries of the called CFGs -/

/-- A called CFG gives back a monotone function of the state at its entry, if the ones that it calls do. -/
theorem givesBack_exitState (hP : P.Consistent) (hN : FiniteHeight D N) (hret : P.Returns f)
    (hreach : ∀ b, ReflTransGen (P.cfg f).Adjacent b (P.cfg f).exit)
    (hgive : ∀ g, P.Calls f g → GivesBack P p entdom g (S g)) :
    GivesBack P p entdom f (exitState hN (hP.cfg f) (withCalls P p S f)) := by
  intro s x rest e g callStack cfgStack hE hmain hstack hcfgs hmark hcaller
  have hopen : s.callStack ≠ [] := by simp [hstack]
  have hapart : ¬ ReflTransGen P.Calls f (P.caller e).1 := by
    intro hbelow
    have hcall : P.Calls (P.caller e).1 f := ⟨(P.caller e).2, e, (hP.mem_calls _ _).mpr rfl, hcaller⟩
    exact hP.nonrecursive f (.tail' hbelow hcall)
  refine Running.inevitable hE hP hN hret hgive (fun t done last hR => ?_) fun t workList done last hR ha _ => ?_
  · exact absurd (hR.iterates.all_done _) (hR.exit hopen)
  · exact hR.returned hE ha hN hreach hmain hstack hcfgs hmark hapart

theorem exists_givesBack [Finite F] (hP : P.Consistent) (p : ∀ f, Problem (B f) D) (entdom : D)
    (hN : FiniteHeight D N) (hret : P.Returns f) : ∃ S : F → D →o D, ∀ g, P.Calls f g → GivesBack P p entdom g (S g) := by
  classical
  have _htrans : IsTrans F (Function.swap (TransGen P.Calls)) := ⟨fun _ _ _ hab hbc => hbc.trans hab⟩
  have _hirrefl : Std.Irrefl (Function.swap (TransGen P.Calls)) := ⟨hP.nonrecursive⟩
  have hwf := Finite.wellFounded_of_trans_of_irrefl (Function.swap (TransGen P.Calls))
  induction f using hwf.induction with
  | _ f ih =>
  have hone : ∀ g, P.Calls f g → ∃ S : D →o D, GivesBack P p entdom g S := by
    intro g hcall
    obtain ⟨S, hgive⟩ := ih g (.single hcall) (hret.below hcall)
    exact ⟨_, givesBack_exitState hP hN (hret.below hcall) (hret.reach_exit g (.single hcall)) hgive⟩
  refine ⟨fun g => if hcall : P.Calls f g then (hone g hcall).choose else OrderHom.id, fun g hcall => ?_⟩
  simp only [dif_pos hcall]
  exact (hone g hcall).choose_spec

/-! ### The solver -/

theorem enters_start (entdom : D) (f : F) :
    Enters P entdom (State.start P f : State F B E C D) f entdom [] where
  workList_eq := rfl
  curCfg_eq := rfl
  clean _ _ := ⟨fun _ => rfl, fun _ => rfl, fun _ _ _ => rfl⟩
  entryMark _ _ := rfl
  apart _ hmem := absurd hmem List.not_mem_nil
  idle _ hmem := absurd hmem List.not_mem_nil
  input := .inl ⟨rfl, rfl, rfl⟩

/-- `solve` takes one of the blocks that may be taken. -/
theorem solve_of_inevitable (h : Inevitable (State.process P p entdom) (Deliverable P) (Live P)
    (fun s => s.workList = []) s) : ∃ fuel t, s.solve P p entdom fuel = some t ∧ t.workList = [] := by
  induction h with
  | here hend => exact ⟨0, _, rfl, hend⟩
  | @step s hlive hsome _ ih =>
    obtain ⟨b, workList, hwork, hb⟩ := hlive
    obtain ⟨t, hprocess⟩ := Option.isSome_iff_exists.mp (hsome b hb)
    obtain ⟨fuel, u, hsolve, hend⟩ := ih b t hb hprocess
    refine ⟨fuel + 1, u, ?_, hend⟩
    rw [State.solve, hwork]
    simp only [hprocess, Option.bind_some]
    exact hsolve

/-- Whichever blocks that may be taken are taken, the work-list is empty after finitely many turns and no
state is missing; `solve` is one of these runs, and without calls every run is. -/
theorem solve_terminates [Finite F] (hP : P.Consistent) (p : ∀ f, Problem (B f) D) (entdom : D) (f : F) (N : ℕ)
    (hN : FiniteHeight D N) (hret : P.Returns f) :
    Inevitable (State.process P p entdom) (Deliverable P) (Live P) (fun s => s.workList = []) (State.start P f) ∧
      (∃ fuel s, (State.start P f).solve P p entdom fuel = some s ∧ s.workList = []) ∧
      ((∀ b, P.calls ⟨f, b⟩ = []) → Inevitable (State.process P p entdom) (fun s b => b ∈ s.workList) (Live P)
        (fun s => s.workList = []) (State.start P f)) := by
  have hE := enters_start (P := P) entdom f
  obtain ⟨S, hgive⟩ := exists_givesBack hP p entdom hN hret
  have hends : Inevitable (State.process P p entdom) (Deliverable P) (Live P) (fun s => s.workList = [])
      (State.start P f) := by
    refine Running.inevitable hE hP hN hret hgive (fun t done last hR => ?_) fun t workList done last hR _ hopen => ?_
    · exact hR.workList_eq
    · exact absurd rfl hopen
  exact ⟨hends, solve_of_inevitable hends, fun hcalls => Running.inevitable_any hE hP hN hcalls rfl⟩

/-! ### Two programs with calls -/

theorem finiteHeight_bool : FiniteHeight Bool 1 :=
  fun s => Nat.lt_succ_iff.mp s.length_lt_card

namespace bodyCall

theorem returns : bodyCall.Returns false where
  header g _ := by
    have hbody : ∀ g b, (bodyCall.cfg g).loopHeader b = true → bodyCall.calls ⟨g, b⟩ = [] := by decide
    exact hbody g
  apart g _ b := by
    have hone : ∀ g b, (bodyCall.calls ⟨g, b⟩).length ≤ 1 := by decide
    match hlist : bodyCall.calls ⟨g, b⟩ with
    | [] => exact .nil
    | [_] => exact List.pairwise_singleton _ _
    | _ :: _ :: _ =>
      have hle := hone g b
      rw [hlist] at hle
      simp at hle
  reach_exit _ _ b := by
    have hexit : ReflTransGen whileCfg.Adjacent 1 3 := .single ((whileCfg.adjacent_iff 1 3).mpr (by decide))
    have hback : ReflTransGen whileCfg.Adjacent 2 3 := .head ((whileCfg.adjacent_iff 2 1).mpr (by decide)) hexit
    match b with
    | 0 => exact .head ((whileCfg.adjacent_iff 0 1).mpr (by decide)) hexit
    | 1 => exact hexit
    | 2 => exact hback
    | 3 => exact .refl

end bodyCall

/-- The calls of a loop body return. -/
theorem solve_terminates_body_call :
    Inevitable (State.process bodyCall (fun _ => idProblem) true) (Deliverable bodyCall) (Live bodyCall)
      (fun s => s.workList = []) (State.start bodyCall false) ∧
    ∃ fuel s, (State.start bodyCall false).solve bodyCall (fun _ => idProblem) true fuel = some s ∧
      s.workList = [] :=
  have h := solve_terminates bodyCall.consistent (fun _ => idProblem) true false 1 finiteHeight_bool bodyCall.returns
  ⟨h.1, h.2.1⟩

/-- When the first call has returned the header is no longer at its first iteration, and its back edge,
which it reads, is not marked. -/
theorem header_calls_read_unmarked : twoCalls.Consistent ∧ FiniteHeight Bool 1 ∧ ∃ s,
    State.solve twoCalls (fun _ => idProblem) true 7 (State.start twoCalls none) = some s ∧
      s.workList = [⟨none, 1⟩] ∧ (2 : Fin 4) ∈ whileCfg.backEdges 1 ∧ (s.store none).mark (2 : Fin 4) = none ∧
        s.process twoCalls (fun _ => idProblem) true ⟨none, 1⟩ = none := by
  refine ⟨twoCalls_consistent, finiteHeight_bool, ?_⟩
  have hends : (State.solve twoCalls (fun _ => idProblem) true 7 (State.start twoCalls none)).map
      (fun s => (s.workList, (s.store none).mark (2 : Fin 4),
        (s.process twoCalls (fun _ => idProblem) true ⟨none, 1⟩).isNone)) = some ([⟨none, 1⟩], none, true) := by decide
  obtain ⟨s, hs, hend⟩ := Option.map_eq_some_iff.mp hends
  obtain ⟨hlist, hrest⟩ := Prod.ext_iff.mp hend
  obtain ⟨hmark, hnone⟩ := Prod.ext_iff.mp hrest
  exact ⟨s, hs, hlist, by decide, hmark, Option.isNone_iff_eq_none.mp hnone⟩

end Otawa.HalfAbsInt
