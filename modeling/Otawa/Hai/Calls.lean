import Otawa.Hai.Soundness
import Otawa.Lib.Inevitable

/-!
# Calls

What a run of the solver does from the entry of a called CFG to the block that called it. The blocks of the
CFG that is at work are taken in any order, but a block whose call has returned comes before all others, as
`workList->pop()` takes it (`Deliverable`).

A call gives to its caller the state after the exit of the called CFG, as a monotone function of the state
at its entry, and leaves nothing marked in the CFGs below (`Returned`). So an iteration over a CFG is the one
of `Iterates` for the problem in which the calls are part of the update of their blocks (`withCalls`).
-/

set_option linter.unusedSectionVars false

namespace Otawa.HalfAbsInt

open Relation

/-! ### The exit of a CFG -/

namespace Cfg.Consistent

variable {B E : Type} {c : Cfg B E} (hc : c.Consistent)

include hc

theorem outEdges_exit : c.outEdges c.exit = [] :=
  List.eq_nil_iff_forall_not_mem.mpr fun e hmem => hc.source_ne_exit e ((hc.mem_outEdges e _).mp hmem)

/-- The exit is in the loop of no other block, and makes none. -/
theorem eq_of_inLoop_exit {b : B} (hin : hc.InLoop c.exit b) : b = c.exit := by
  by_contra hne
  obtain ⟨a, hstep, -⟩ := TransGen.head'_iff.mp (hin.forward_path hne)
  obtain ⟨e, hsource, -⟩ := hstep.1
  exact hc.source_ne_exit e hsource

theorem loopHeader_exit : c.loopHeader c.exit = false := by
  refine Bool.eq_false_iff.mpr fun hheader => ?_
  obtain ⟨e, hback, htarget⟩ := hc.exists_back hheader
  exact hc.source_ne_exit e (hc.eq_of_inLoop_exit (htarget ▸ hc.inLoop_source hback))

theorem not_inLoop_exit {h : B} (hne : h ≠ c.exit) : ¬ hc.InLoop h c.exit := by
  rintro (heq | ⟨a, hback, -, hpath⟩)
  · exact hne heq.symm
  · obtain heq | ⟨x, hstep, -⟩ := hpath.cases_head
    · obtain ⟨e, hsource, -⟩ := hback.1
      exact hc.source_ne_exit e (hsource.trans heq.symm)
    · obtain ⟨e, hsource, -⟩ := hstep.1
      exact hc.source_ne_exit e hsource

end Cfg.Consistent

/-- When the exit is ready, the blocks that reach it are done. -/
theorem Placed.done_of_exit {B E D : Type} [DecidableEq B] [DecidableEq E] [SemilatticeSup D] [OrderBot D]
    {c : Cfg B E} {hc : c.Consistent} {st : Store B E D} {done : B → Prop} {b : B} (hP : Placed hc st done)
    (hready : Ready c st done c.exit) (hreach : ReflTransGen c.Adjacent b c.exit) (hne : b ≠ c.exit) :
    done b := by
  -- on a path to the exit, every loop around a block is left
  suffices hloops : ∀ k, hc.InLoop k b → k ≠ c.exit → done k from hloops b (hc.inLoop_self b) hne
  clear hne
  induction hreach using ReflTransGen.head_induction_on with
  | refl => exact fun k hin hk => absurd hin (hc.not_inLoop_exit hk)
  | @head a a' hstep _ ih =>
    obtain ⟨e, rfl, rfl⟩ := hstep
    intro k hin hk
    by_cases hin' : hc.InLoop k (c.target e)
    · exact ih k hin' hk
    by_cases hexit : c.target e = c.exit
    · have hforward : c.isBack e = false := by
        refine Bool.eq_false_iff.mpr fun hback => ?_
        have hheader := hc.loopHeader_target hback
        rw [hexit, hc.loopHeader_exit] at hheader
        exact absurd hheader (by decide)
      exact hP.done_of_leaves (hready.finished hexit (.inl hforward)) hin hin'
    have htarget : done (c.target e) := ih _ (hc.inLoop_self _) hexit
    cases hback : c.isBack e with
    | true =>
      have houter := (hin.nested (hc.inLoop_source hback)).resolve_left hin'
      exact hP.loop_done _ k houter htarget
    | false => exact hP.done_of_leaves (hP.order e hback (.inl htarget)) hin hin'

variable {F : Type} {B E : F → Type} {C D : Type}

namespace Program

/-- The calls of a CFG and of the ones below that the solver brings back: no loop header has a CALL edge, the
CFGs that one block calls do not reach each other, and every block of a called CFG reaches its exit. -/
structure Returns (P : Program F B E C) (f : F) : Prop where
  header : ∀ g, ReflTransGen P.Calls f g → ∀ b, (P.cfg g).loopHeader b = true → P.calls ⟨g, b⟩ = []
  apart : ∀ g, ReflTransGen P.Calls f g → ∀ b, (P.calls ⟨g, b⟩).Pairwise fun e e' =>
    ¬ ReflTransGen P.Calls (P.calledCFG e) (P.calledCFG e') ∧
      ¬ ReflTransGen P.Calls (P.calledCFG e') (P.calledCFG e)
  reach_exit : ∀ g, TransGen P.Calls f g → ∀ b, ReflTransGen (P.cfg g).Adjacent b (P.cfg g).exit

theorem Returns.below {P : Program F B E C} {f g : F} (hR : P.Returns f) (hcall : P.Calls f g) : P.Returns g where
  header h hg := hR.header h (.head hcall hg)
  apart h hg := hR.apart h (.head hcall hg)
  reach_exit h hg := hR.reach_exit h (.head hcall hg)

end Program

variable [DecidableEq F] [∀ f, DecidableEq (B f)] [∀ f, DecidableEq (E f)] [DecidableEq C]
  [SemilatticeSup D] [OrderBot D]

/-- The blocks that may be taken: those of the CFG at work and, once a call has returned, only its block. -/
def Deliverable (P : Program F B E C) (s : State F B E C D) (b : Σ f, B f) : Prop :=
  b ∈ s.workList ∧ b.1 = s.curCfg ∧
    ∀ b' ∈ s.workList, ∀ e ∈ P.calls b', (s.callMark e).isSome = true → b' = b

/-- The block pushed last may be taken. -/
def Live (P : Program F B E C) (s : State F B E C D) : Prop :=
  ∃ b workList, s.workList = b :: workList ∧ Deliverable P s b

namespace State

variable {P : Program F B E C} {p : ∀ f, Problem (B f) D} {entdom : D} {s t : State F B E C D}
  {f : F} {a : B f} {e : C} {x : D}

/-- The solver enters the CFG that a CALL edge of the block calls. -/
def calling (P : Program F B E C) (s : State F B E C D) (b : Σ f, B f) (e : C) (out : D) : State F B E C D :=
  { s with
    entryMark := if (P.calls b).all fun e => (s.callMark e).isNone then markEntries P s.entryMark (P.calls b) out
      else s.entryMark
    callStack := e :: s.callStack
    cfgStack := s.curCfg :: s.cfgStack
    curCfg := P.calledCFG e
    workList := ⟨P.calledCFG e, (P.cfg (P.calledCFG e)).entry⟩ :: s.workList.erase b }

/-- The solver comes back to the block of a CALL edge, with the state after the exit of the called CFG. -/
def returned (P : Program F B E C) (p : ∀ f, Problem (B f) D) (s : State F B E C D) (b : Σ f, B f) (e : C) (f : F)
    (callStack : List C) (cfgStack : List F) (out : D) : State F B E C D :=
  { s.setStore b.1 ((s.store b.1).unmarkEdges ((P.cfg b.1).inEdges b.2)) with
    callMark := Function.update s.callMark e
      (some ((s.callMark e).getD ⊥ ⊔ (p f).leaveContext (P.cfg f).entry .func out))
    callStack := callStack
    cfgStack := cfgStack
    curCfg := f
    workList := P.caller e :: s.workList.erase b }

/-- All calls of the block have returned: the union of their states goes to its successors. -/
def resumed (P : Program F B E C) (s : State F B E C D) (b : Σ f, B f) (x : D) : State F B E C D :=
  let r := ((s.store b.1).unmarkEdges ((P.cfg b.1).inEdges b.2)).addSuccessors (P.cfg b.1) b.2 x
  { s with
    store := Function.update s.store b.1 r.1
    callMark := (P.calls b).foldl (fun mark e => Function.update mark e none) s.callMark
    workList := r.2.map (Sigma.mk b.1) ++ s.workList.erase b }

variable [DecidableEq D]

section

variable (hmain : s.mainEntry = false) (hentry : a ≠ (P.cfg f).entry) (hexit : a ≠ (P.cfg f).exit)
  (hheader : (P.cfg f).loopHeader a = false)
include hmain hentry hexit hheader

theorem process_call (hnext : (P.calls ⟨f, a⟩).find? (fun e => (s.callMark e).isNone) = some e)
    (hx : Store.union (s.store f).mark ((P.cfg f).inEdges a) = some x) :
    s.process P p entdom ⟨f, a⟩ = some (s.calling P ⟨f, a⟩ e ((p f).update a x)) := by
  simp [process, inputProcessing, outputProcessing, detectCalls, hnext, hmain, hentry, hexit, hheader,
    Store.simpleInput, hx, setStore, calling]

theorem process_return (hcalls : P.calls ⟨f, a⟩ ≠ [])
    (hnext : (P.calls ⟨f, a⟩).find? (fun e => (s.callMark e).isNone) = none)
    (hx : Store.union s.callMark (P.calls ⟨f, a⟩) = some x) :
    s.process P p entdom ⟨f, a⟩ = some (s.resumed P ⟨f, a⟩ x) := by
  simp [process, inputProcessing, outputProcessing, detectCalls, hnext, hmain, hentry, hexit, hheader,
    hcalls, hx, setStore, resumed, addSuccessors, push]

end

theorem process_exit {g : F} {callStack : List C} {cfgStack : List F} (hc : (P.cfg f).Consistent)
    (hcalls : P.calls ⟨f, (P.cfg f).exit⟩ = []) (hmain : s.mainEntry = false)
    (hstack : s.callStack = e :: callStack) (hcfgs : s.cfgStack = g :: cfgStack)
    (hx : Store.union (s.store f).mark ((P.cfg f).inEdges (P.cfg f).exit) = some x) :
    s.process P p entdom ⟨f, (P.cfg f).exit⟩ =
      some (s.returned P p ⟨f, (P.cfg f).exit⟩ e g callStack cfgStack ((p f).update (P.cfg f).exit x)) := by
  simp [process, inputProcessing, outputProcessing, detectCalls, hcalls, hmain, hc.entry_ne_exit.symm,
    hc.loopHeader_exit, Store.simpleInput, hx, setStore, hstack, hcfgs, returned]

end State

/-! ### Calls as part of the problem -/

section

variable {P : Program F B E C} {p : ∀ f, Problem (B f) D} {S : F → D →o D} {f : F} {a : B f} {x y : D}

/-- The union of what the calls of a block give back, `S` having the state after the exit of each CFG. -/
def givenBack (P : Program F B E C) (p : ∀ f, Problem (B f) D) (S : F → D →o D) (b : Σ f, B f) (out : D) : D :=
  (P.calls b).foldl
    (fun y e => y ⊔ (p b.1).leaveContext (P.cfg b.1).entry .func (S (P.calledCFG e) out)) ⊥

theorem givenBack_mono (b : Σ f, B f) (hle : x ≤ y) : givenBack P p S b x ≤ givenBack P p S b y := by
  unfold givenBack
  generalize P.calls b = es
  suffices hfrom : ∀ u v : D, u ≤ v →
      es.foldl (fun y e => y ⊔ (p b.1).leaveContext (P.cfg b.1).entry .func (S (P.calledCFG e) x)) u ≤
        es.foldl (fun z e => z ⊔ (p b.1).leaveContext (P.cfg b.1).entry .func (S (P.calledCFG e) y)) v from
    hfrom ⊥ ⊥ le_rfl
  induction es with
  | nil => exact fun u v huv => huv
  | cons e es ih =>
    intro u v huv
    exact ih _ _ (sup_le_sup huv (((p b.1).leaveContext _ .func).monotone ((S _).monotone hle)))

/-- The problem of one CFG, with the calls of its blocks. -/
def withCalls (P : Program F B E C) (p : ∀ f, Problem (B f) D) (S : F → D →o D) (f : F) : Problem (B f) D :=
  { p f with
    update := fun a =>
      if P.calls ⟨f, a⟩ = [] then (p f).update a
      else ⟨fun x => givenBack P p S ⟨f, a⟩ ((p f).update a x),
        fun _ _ hle => givenBack_mono _ (((p f).update a).monotone hle)⟩ }

theorem withCalls_none (hcalls : P.calls ⟨f, a⟩ = []) : (withCalls P p S f).update a = (p f).update a :=
  if_pos hcalls

theorem withCalls_some (hcalls : P.calls ⟨f, a⟩ ≠ []) :
    (withCalls P p S f).update a x = givenBack P p S ⟨f, a⟩ ((p f).update a x) := by
  simp only [withCalls, if_neg hcalls]
  rfl

theorem union_eq_foldl {A : Type} {mark : A → Option D} {v : A → D} {es : List A}
    (hmark : ∀ e ∈ es, mark e = some (v e)) : Store.union mark es = some (es.foldl (fun y e => y ⊔ v e) ⊥) := by
  unfold Store.union
  generalize (⊥ : D) = z
  induction es generalizing z with
  | nil => rfl
  | cons e es ih =>
    rw [List.foldlM_cons, hmark e List.mem_cons_self]
    exact ih (fun e' hmem => hmark e' (List.mem_cons_of_mem e hmem)) _

variable [DecidableEq D]

/-- A visit of a block without calls. -/
theorem visit_withCalls {entdom : D} {st : Store (B f) (E f) D} (hcalls : P.calls ⟨f, a⟩ = [])
    (hentry : a ≠ (P.cfg f).entry ∨ entdom = x) :
    visit (P.cfg f) (p f) entdom st a = visit (P.cfg f) (withCalls P p S f) x st a := by
  have hinput : st.headerInput (P.cfg f) (withCalls P p S f) a = st.headerInput (P.cfg f) (p f) a := rfl
  have hexit : ∀ st' : Store (B f) (E f) D,
      st'.exitLoop (P.cfg f) (withCalls P p S f) a = st'.exitLoop (P.cfg f) (p f) a := fun st' => rfl
  unfold visit
  rw [hinput, withCalls_none hcalls]
  simp only [hexit]
  obtain hentry | rfl := hentry
  · simp only [if_neg hentry]
  · rfl

end

/-! ### A CFG at work -/

variable {P : Program F B E C} {p : ∀ f, Problem (B f) D} {S : F → D →o D} {entdom : D}
  {s s₀ t : State F B E C D} {f g : F} {x : D} {rest : List (Σ f, B f)}

/-- Nothing is recorded of a CFG, nor of the calls of its blocks. -/
structure Clean (P : Program F B E C) (s : State F B E C D) (f : F) : Prop where
  mark : ∀ e, (s.store f).mark e = none
  firstIter : ∀ b, (s.store f).firstIter b = true
  callMark : ∀ b, ∀ e ∈ P.calls ⟨f, b⟩, s.callMark e = none

/-- The CFG `f` is about to be analysed from the state `x`, and `rest` is left to the callers. -/
structure Enters (P : Program F B E C) (entdom : D) (s : State F B E C D) (f : F) (x : D)
    (rest : List (Σ f, B f)) : Prop where
  workList_eq : s.workList = ⟨f, (P.cfg f).entry⟩ :: rest
  curCfg_eq : s.curCfg = f
  clean : ∀ g, ReflTransGen P.Calls f g → Clean P s g
  entryMark : ∀ g, TransGen P.Calls f g → s.entryMark g = none
  apart : ∀ b ∈ rest, ¬ ReflTransGen P.Calls f b.1
  idle : ∀ b ∈ rest, ∀ e ∈ P.calls b, s.callMark e = none
  input : (s.mainEntry = true ∧ s.callStack = [] ∧ x = entdom) ∨ (s.mainEntry = false ∧ s.entryMark f = some x)

/-- The solver is at work on the CFG `f`, which was entered in the state `s₀`; no call is open. -/
structure Running (hP : P.Consistent) (p : ∀ f, Problem (B f) D) (S : F → D →o D) (s₀ : State F B E C D) (f : F)
    (x : D) (rest : List (Σ f, B f)) (s : State F B E C D) (workList : List (B f)) (done : B f → Prop)
    (last : B f → D) : Prop where
  workList_eq : s.workList = workList.map (Sigma.mk f) ++ rest
  curCfg_eq : s.curCfg = f
  callStack_eq : s.callStack = s₀.callStack
  cfgStack_eq : s.cfgStack = s₀.cfgStack
  iterates : Iterates (hP.cfg f) (withCalls P p S f) x (s.store f) workList done last
  store_eq : ∀ g, ¬ ReflTransGen P.Calls f g → s.store g = s₀.store g
  clean : ∀ g, TransGen P.Calls f g → Clean P s g
  callMark_eq : s.callMark = s₀.callMark
  entryMark_eq : ∀ g, g ≠ f → s.entryMark g = s₀.entryMark g
  before : ¬ done (P.cfg f).entry → s.mainEntry = s₀.mainEntry ∧ s.entryMark f = s₀.entryMark f
  after : done (P.cfg f).entry → s.mainEntry = false ∧ (s₀.mainEntry = false → s.entryMark f = none)
  exit : s₀.callStack ≠ [] → ¬ done (P.cfg f).exit

theorem Enters.running (hE : Enters P entdom s f x rest) (hP : P.Consistent) (last : B f → D) :
    Running hP p S s f x rest s [(P.cfg f).entry] (fun _ => False) last where
  workList_eq := hE.workList_eq
  curCfg_eq := hE.curCfg_eq
  callStack_eq := rfl
  cfgStack_eq := rfl
  iterates := iterates_start (hP.cfg f) _ x (hE.clean f .refl).mark (hE.clean f .refl).firstIter
  store_eq _ _ := rfl
  clean g hg := hE.clean g hg.to_reflTransGen
  callMark_eq := rfl
  entryMark_eq _ _ := rfl
  before _ := ⟨rfl, rfl⟩
  after := False.elim
  exit _ := id

namespace Running

variable {hP : P.Consistent} {workList : List (B f)} {done : B f → Prop} {last : B f → D} {a : B f}

section

variable (hE : Enters P entdom s₀ f x rest) (hR : Running hP p S s₀ f x rest s workList done last)
include hE hR

/-- Only blocks of the CFG can be taken. -/
theorem mem_of_deliverable {b : Σ f, B f} (hb : Deliverable P s b) : ∃ a ∈ workList, b = ⟨f, a⟩ := by
  obtain ⟨hmem, hcur, -⟩ := hb
  rw [hR.workList_eq] at hmem
  rw [hR.curCfg_eq] at hcur
  rcases List.mem_append.mp hmem with hmem | hmem
  · obtain ⟨a, ha, rfl⟩ := List.mem_map.mp hmem
    exact ⟨a, ha, rfl⟩
  · exact absurd (hcur ▸ .refl) (hE.apart b hmem)

/-- No call of a block of the work-list has returned. -/
theorem idle {b : Σ f, B f} (hmem : b ∈ s.workList) : ∀ e ∈ P.calls b, s.callMark e = none := by
  rw [hR.workList_eq] at hmem
  rw [hR.callMark_eq]
  rcases List.mem_append.mp hmem with hmem | hmem
  · obtain ⟨a, -, rfl⟩ := List.mem_map.mp hmem
    exact (hE.clean f .refl).callMark a
  · exact hE.idle b hmem

theorem deliverable (ha : a ∈ workList) : Deliverable P s ⟨f, a⟩ := by
  refine ⟨?_, hR.curCfg_eq.symm, fun b hmem e he hmark => ?_⟩
  · rw [hR.workList_eq]
    exact List.mem_append_left _ (List.mem_map.mpr ⟨a, ha, rfl⟩)
  · rw [hR.idle hE hmem e he] at hmark
    cases hmark

theorem live (hne : workList ≠ []) : Live P s := by
  obtain ⟨a, l, rfl⟩ := List.exists_cons_of_ne_nil hne
  exact ⟨⟨f, a⟩, l.map (Sigma.mk f) ++ rest, hR.workList_eq, hR.deliverable hE List.mem_cons_self⟩

end

variable [DecidableEq D] [∀ f, Fintype (B f)]

section

variable (hE : Enters P entdom s₀ f x rest) (hR : Running hP p S s₀ f x rest s workList done last) (ha : a ∈ workList)
  (hcalls : P.calls ⟨f, a⟩ = []) (hexit : a ≠ (P.cfg f).exit ∨ s₀.callStack = [])
include hE hR ha hcalls hexit

/-- After the entry is taken, it is recorded nowhere. -/
theorem process_entry :
    ∃ entryMark : F → Option D, (∀ g, g ≠ f → entryMark g = s.entryMark g) ∧
      (s₀.mainEntry = false → entryMark f = none) ∧
      s.process P p entdom ⟨f, a⟩ = (visit (P.cfg f) (withCalls P p S f) x (s.store f) a).map
        (({ s with mainEntry := false, entryMark := entryMark } : State F B E C D).after P ⟨f, a⟩) := by
  have hc := hP.cfg f
  by_cases hentry : a = (P.cfg f).entry
  · subst hentry
    obtain ⟨hmain, hmark⟩ := hR.before ((hR.iterates.listed.mem_iff _).mp ha).1
    obtain ⟨hmain₀, hstack, rfl⟩ | ⟨hmain₀, hmark₀⟩ := hE.input
    · refine ⟨s.entryMark, fun _ _ => rfl, fun hfalse => ?_, ?_⟩
      · rw [hmain₀] at hfalse
        cases hfalse
      · rw [State.process_main_entry hc hcalls (hR.callStack_eq.trans hstack) (hmain.trans hmain₀),
          visit_withCalls (x := x) (S := S) hcalls (.inr rfl)]
    · refine ⟨Function.update s.entryMark f none, fun g hg => Function.update_of_ne hg _ _,
        fun _ => Function.update_self .., ?_⟩
      rw [State.process_call_entry hc hcalls hc.entry_ne_exit (hmain.trans hmain₀) (hmark.trans hmark₀),
        visit_withCalls (x := x) (S := S) hcalls (.inr rfl), ← hmain.trans hmain₀]
  · obtain ⟨hmain, hmark⟩ := hR.after (hR.iterates.entry_done ha hentry)
    refine ⟨s.entryMark, fun _ _ => rfl, hmark, ?_⟩
    rw [State.process_visit hcalls (hexit.imp_right hR.callStack_eq.trans) hmain hentry,
      visit_withCalls (x := x) (S := S) hcalls (.inl hentry), ← hmain]

/-- A turn that takes a block without calls, but for the exit of a called CFG. -/
theorem turn :
    ∃ t workList' done' last', s.process P p entdom ⟨f, a⟩ = some t ∧
      Running hP p S s₀ f x rest t workList' done' last' ∧
      ∀ N, FiniteHeight D N → potential (hP.cfg f) N (t.store f) done' last' <
        potential (hP.cfg f) N (s.store f) done last := by
  obtain ⟨entryMark, hother, hself, hprocess⟩ := hR.process_entry hE ha hcalls hexit
  obtain ⟨o, r, done', last', hvisit, hturned⟩ := hR.iterates.turn ha
  rw [hvisit] at hprocess
  have hdone : done' (P.cfg f).entry := by
    refine hturned.entry ?_
    by_cases hentry : a = (P.cfg f).entry
    · exact .inl hentry
    · exact .inr (hR.iterates.entry_done ha hentry)
  have hne : ∀ {g}, ¬ ReflTransGen P.Calls f g → g ≠ f := by
    rintro g hg rfl
    exact hg .refl
  have hbelow : ∀ {g}, TransGen P.Calls f g → g ≠ f := by
    rintro g hg rfl
    exact hP.nonrecursive g hg
  refine ⟨_, r.2 ++ workList.erase a, done', last', hprocess, ⟨?_, hR.curCfg_eq, hR.callStack_eq, hR.cfgStack_eq,
    ?_, fun g hg => ?_, fun g hg => ?_, hR.callMark_eq, fun g hg => ?_, fun hnot => absurd hdone hnot,
    fun _ => ⟨rfl, hself⟩, fun hstack hdone' => ?_⟩, fun N hN => ?_⟩
  · exact State.after_workList rest (o, r) ha hR.workList_eq
  · rw [State.after_store]
    exact hturned.iterates
  · exact (Function.update_of_ne (hne hg) _ _).trans (hR.store_eq g hg)
  · obtain ⟨hmark, hfirst, hcallMark⟩ := hR.clean g hg
    have hsame : (State.after P ({ s with mainEntry := false, entryMark := entryMark } : State F B E C D)
        ⟨f, a⟩ (o, r)).store g = s.store g := Function.update_of_ne (hbelow hg) _ _
    exact ⟨by rwa [hsame], by rwa [hsame], hcallMark⟩
  · exact (hother g hg).trans (hR.entryMark_eq g hg)
  · rcases hturned.of_done _ hdone' with heq | hdone
    · exact hexit.elim (fun hne => hne heq.symm) hstack
    · exact hR.exit hstack hdone
  · rw [State.after_store]
    exact hturned.potential_lt N hN

end

end Running

/-! ### Returns -/

/-- The CFG `f` that was entered in the state `s₀` has given `out` back to the CALL edge `e`. -/
structure Returned (P : Program F B E C) (p : ∀ f, Problem (B f) D) (s₀ : State F B E C D) (f : F) (out : D)
    (rest : List (Σ f, B f)) (e : C) (g : F) (callStack : List C) (cfgStack : List F) (t : State F B E C D) :
    Prop where
  workList_eq : t.workList = P.caller e :: rest
  curCfg_eq : t.curCfg = g
  callStack_eq : t.callStack = callStack
  cfgStack_eq : t.cfgStack = cfgStack
  mainEntry_eq : t.mainEntry = false
  store_eq : ∀ h, ¬ ReflTransGen P.Calls f h → t.store h = s₀.store h
  clean : ∀ h, ReflTransGen P.Calls f h → Clean P t h
  callMark_eq : t.callMark = Function.update s₀.callMark e (some ((p g).leaveContext (P.cfg g).entry .func out))
  entryMark_eq : t.entryMark = Function.update s₀.entryMark f none

/-- In a CFG whose blocks are all done nothing is recorded. -/
theorem Placed.nothing {B E D : Type} [DecidableEq B] [DecidableEq E] [SemilatticeSup D] [OrderBot D]
    {c : Cfg B E} {hc : c.Consistent} {st : Store B E D} {done : B → Prop} (hP : Placed hc st done)
    (hdone : ∀ b, done b) : (∀ e, st.mark e = none) ∧ ∀ b, st.firstIter b = true := by
  constructor
  · intro e
    by_contra hmark
    exact (hP.of_mark e (Option.isSome_iff_ne_none.mpr hmark)).1 (hdone _)
  · intro b
    by_contra hactive
    exact (hP.header b (Bool.eq_false_iff.mpr hactive)).2 (hdone b)

variable [DecidableEq D] [∀ f, Fintype (B f)] {N : ℕ}

/-- The turn that takes the exit of a called CFG. -/
theorem Running.returned {hP : P.Consistent} {workList : List (B f)} {done : B f → Prop} {last : B f → D} {e : C}
    {callStack : List C} {cfgStack : List F} (hE : Enters P entdom s₀ f x rest)
    (hR : Running hP p S s₀ f x rest s workList done last) (ha : (P.cfg f).exit ∈ workList)
    (hN : FiniteHeight D N) (hreach : ∀ b, ReflTransGen (P.cfg f).Adjacent b (P.cfg f).exit)
    (hmain : s₀.mainEntry = false) (hstack : s₀.callStack = e :: callStack) (hcfgs : s₀.cfgStack = g :: cfgStack)
    (hmark : s₀.callMark e = none) (hcaller : ¬ ReflTransGen P.Calls f (P.caller e).1) :
    ∃ t, s.process P p entdom ⟨f, (P.cfg f).exit⟩ = some t ∧ Returned P p s₀ f
      (exitState hN (hP.cfg f) (withCalls P p S f) x) rest e g callStack cfgStack t := by
  have hc := hP.cfg f
  have hcalls := hP.calls_exit f
  obtain ⟨hmainEntry, hentryMark⟩ := hR.after (hR.iterates.entry_done ha hc.entry_ne_exit.symm)
  obtain ⟨o, r, done', last', hvisit, hturned⟩ := hR.iterates.turn ha
  obtain ⟨y, hy, rfl, rfl⟩ : ∃ y, Store.union (s.store f).mark ((P.cfg f).inEdges (P.cfg f).exit) = some y ∧
      some y = o ∧ ((s.store f).unmarkEdges ((P.cfg f).inEdges (P.cfg f).exit), []) = r := by
    simpa [visit, hc.loopHeader_exit, hc.entry_ne_exit.symm, Store.addSuccessors, hc.outEdges_exit] using hvisit
  have hlast : workList.erase (P.cfg f).exit = [] := by
    refine List.eq_nil_iff_forall_not_mem.mpr fun b hmem => ?_
    obtain ⟨hne, hb⟩ := hR.iterates.listed.nodup.mem_erase_iff.mp hmem
    have hready := ((hR.iterates.listed.mem_iff _).mp ha).2
    exact ((hR.iterates.listed.mem_iff b).mp hb).1 (hR.iterates.placed.done_of_exit hready (hreach b) hne)
  have hI := hturned.iterates
  rw [hlast] at hI
  have hout : exitState hN hc (withCalls P p S f) x = (p f).update (P.cfg f).exit y := by
    rw [exitState_eq hN hI.leastSolution, withCalls_none hcalls, hturned.last_some y rfl, Function.update_self]
  obtain ⟨hmarks, hfirst⟩ := hI.placed.nothing hI.all_done
  refine ⟨_, State.process_exit hc hcalls hmainEntry (hR.callStack_eq.trans hstack) (hR.cfgStack_eq.trans hcfgs) hy,
    ?_, rfl, rfl, rfl, hmainEntry, fun h hh => ?_, fun h hh => ?_, ?_, ?_⟩
  · have hmem : (⟨f, (P.cfg f).exit⟩ : Σ f, B f) ∈ workList.map (Sigma.mk f) := List.mem_map.mpr ⟨_, ha, rfl⟩
    simp only [State.returned, hR.workList_eq, List.erase_append_left _ hmem, ← List.map_erase sigma_mk_injective,
      hlast, List.map_nil, List.nil_append]
  · have hne : h ≠ f := by
      rintro rfl
      exact hh .refl
    exact (Function.update_of_ne hne _ _).trans (hR.store_eq h hh)
  · have hcallMark : ∀ b, ∀ e' ∈ P.calls ⟨h, b⟩,
        Function.update s.callMark e (some ((s.callMark e).getD ⊥ ⊔
          (p g).leaveContext (P.cfg g).entry .func ((p f).update (P.cfg f).exit y))) e' = none := by
      intro b e' he'
      have hne : e' ≠ e := by
        rintro rfl
        exact hcaller (((hP.mem_calls _ _).mp he').symm ▸ hh)
      rw [Function.update_of_ne hne, hR.callMark_eq]
      exact (hE.clean h hh).callMark b e' he'
    by_cases heq : h = f
    · subst heq
      refine ⟨?_, ?_, hcallMark⟩
      · simpa only [State.returned, State.setStore, Function.update_self] using hmarks
      · simpa only [State.returned, State.setStore, Function.update_self] using hfirst
    · obtain ⟨hmarks', hfirst', -⟩ := hR.clean h ((reflTransGen_iff_eq_or_transGen.mp hh).resolve_left heq)
      refine ⟨?_, ?_, hcallMark⟩
      · simpa only [State.returned, State.setStore, Function.update_of_ne heq] using hmarks'
      · simpa only [State.returned, State.setStore, Function.update_of_ne heq] using hfirst'
  · simp only [State.returned, hR.callMark_eq, hmark, Option.getD_none, bot_sup_eq, hout]
  · funext h
    by_cases heq : h = f
    · subst heq
      rw [Function.update_self]
      exact hentryMark hmain
    · rw [Function.update_of_ne heq]
      exact hR.entryMark_eq h heq

/-! ### A block with calls -/

/-- What the call `e` of the block gives back for the state `out`. -/
def backOf (P : Program F B E C) (p : ∀ f, Problem (B f) D) (S : F → D →o D) (f : F) (out : D) (e : C) : D :=
  (p f).leaveContext (P.cfg f).entry .func (S (P.calledCFG e) out)

/-- Since a block was taken in the state `s`, its calls `pre` have returned and its calls `post` wait with the
state `out`. -/
structure Between (P : Program F B E C) (p : ∀ f, Problem (B f) D) (S : F → D →o D) (s : State F B E C D) (f : F)
    (out : D) (pre post : List C) (t : State F B E C D) : Prop where
  mainEntry_eq : t.mainEntry = false
  store_eq : ∀ g, ¬ TransGen P.Calls f g → t.store g = s.store g
  clean : ∀ g, TransGen P.Calls f g → Clean P t g
  callMark_eq : ∀ e, t.callMark e = if e ∈ pre then some (backOf P p S f out e) else s.callMark e
  entryMark_eq : ∀ g, t.entryMark g = if g ∈ post.map P.calledCFG then some out else s.entryMark g

/-- The solver is at the entry of the CFG that the CALL edge `e` of the block calls. -/
structure AtEntry (P : Program F B E C) (s : State F B E C D) (b : Σ f, B f) (e : C) (t : State F B E C D) :
    Prop where
  workList_eq : t.workList = ⟨P.calledCFG e, (P.cfg (P.calledCFG e)).entry⟩ :: s.workList.erase b
  curCfg_eq : t.curCfg = P.calledCFG e
  callStack_eq : t.callStack = e :: s.callStack
  cfgStack_eq : t.cfgStack = b.1 :: s.cfgStack

/-- The solver is back at the block. -/
structure AtBlock (s : State F B E C D) (b : Σ f, B f) (t : State F B E C D) : Prop where
  workList_eq : t.workList = b :: s.workList.erase b
  curCfg_eq : t.curCfg = b.1
  callStack_eq : t.callStack = s.callStack
  cfgStack_eq : t.cfgStack = s.cfgStack

/-- `S` has the state after the exit of a called CFG, whatever order its blocks are taken in. -/
def GivesBack (P : Program F B E C) (p : ∀ f, Problem (B f) D) (entdom : D) (f : F) (S : D →o D) : Prop :=
  ∀ s x rest e g callStack cfgStack, Enters P entdom s f x rest → s.mainEntry = false →
    s.callStack = e :: callStack → s.cfgStack = g :: cfgStack → s.callMark e = none → P.calledCFG e = f →
    Inevitable (State.process P p entdom) (Deliverable P) (Live P)
      (Returned P p s f (S x) rest e g callStack cfgStack) s

theorem markEntries_eq (P : Program F B E C) (entryMark : F → Option D) (es : List C) (out : D) (g : F) :
    State.markEntries P entryMark es out g =
      if g ∈ es.map P.calledCFG then some ((entryMark g).getD ⊥ ⊔ out) else entryMark g := by
  unfold State.markEntries
  induction es generalizing entryMark with
  | nil => simp
  | cons e es ih =>
    rw [List.foldl_cons, ih]
    by_cases heq : g = P.calledCFG e
    · subst heq
      by_cases hmem : P.calledCFG e ∈ es.map P.calledCFG
      · simp [hmem]
      · simp [hmem]
    · simp [heq]

theorem foldl_clear (callMark : C → Option D) (es : List C) (e : C) :
    es.foldl (fun mark e => Function.update mark e none) callMark e = if e ∈ es then none else callMark e := by
  induction es generalizing callMark with
  | nil => simp
  | cons e' es ih =>
    rw [List.foldl_cons, ih]
    by_cases heq : e = e'
    · simp [heq]
    · simp [heq]

namespace Running

variable {hP : P.Consistent} {workList : List (B f)} {done : B f → Prop} {last : B f → D} {a : B f} {y out : D}
  {pre post : List C} {e : C} (hE : Enters P entdom s₀ f x rest)
  (hR : Running hP p S s₀ f x rest s workList done last) (ha : a ∈ workList)

include hE hR ha

/-- A block is on the work-list once. -/
theorem not_mem_erase : (⟨f, a⟩ : Σ f, B f) ∉ s.workList.erase ⟨f, a⟩ := by
  have hmem : (⟨f, a⟩ : Σ f, B f) ∈ workList.map (Sigma.mk f) := List.mem_map.mpr ⟨a, ha, rfl⟩
  rw [hR.workList_eq, List.erase_append_left _ hmem, ← List.map_erase sigma_mk_injective]
  intro hagain
  rcases List.mem_append.mp hagain with hagain | hagain
  · obtain ⟨a', ha', heq⟩ := List.mem_map.mp hagain
    cases heq
    exact (hR.iterates.listed.nodup.mem_erase_iff.mp ha').1 rfl
  · exact hE.apart _ hagain .refl

/-- The CFG of the next call is entered. -/
theorem enters_next (hret : P.Returns f) (hcalls : P.calls ⟨f, a⟩ = pre ++ e :: post)
    (hB : Between P p S s f out pre (e :: post) t) (hA : AtEntry P s ⟨f, a⟩ e t) :
    Enters P entdom t (P.calledCFG e) out (s.workList.erase ⟨f, a⟩) := by
  have hmem : ∀ e' ∈ pre ++ e :: post, P.Calls f (P.calledCFG e') := fun e' he' => ⟨a, e', hcalls ▸ he', rfl⟩
  have hcall := hmem e (List.mem_append_right _ List.mem_cons_self)
  have hapart : ∀ e' ∈ post, ¬ ReflTransGen P.Calls (P.calledCFG e) (P.calledCFG e') := by
    have hpairs := hret.apart f .refl a
    rw [hcalls, List.pairwise_append] at hpairs
    exact fun e' he' => ((List.pairwise_cons.mp hpairs.2.1).1 e' he').1
  have hnone : ∀ g, TransGen P.Calls f g → s.entryMark g = none := by
    intro g hg
    rw [hR.entryMark_eq g (fun heq => hP.nonrecursive f (heq ▸ hg))]
    exact hE.entryMark g hg
  have hidle : ∀ b ∈ s.workList.erase ⟨f, a⟩, ∀ e' ∈ P.calls b, e' ∉ pre := by
    intro b hb e' he' hpre
    have hcaller : P.caller e' = ⟨f, a⟩ := (hP.mem_calls _ _).mp (hcalls ▸ List.mem_append_left _ hpre)
    rw [(hP.mem_calls b e').mp he'] at hcaller
    exact hR.not_mem_erase hE ha (hcaller ▸ hb)
  refine ⟨hA.workList_eq, hA.curCfg_eq, fun g hg => hB.clean g (.head' hcall hg), fun g hg => ?_, fun b hb hg => ?_,
    fun b hb e' he' => ?_, .inr ⟨hB.mainEntry_eq, ?_⟩⟩
  · have hout : g ∉ (e :: post).map P.calledCFG := by
      intro hin
      obtain ⟨e', he', rfl⟩ := List.mem_map.mp hin
      rcases List.mem_cons.mp he' with rfl | he'
      · exact hP.nonrecursive _ hg
      · exact hapart e' he' hg.to_reflTransGen
    rw [hB.entryMark_eq, if_neg hout]
    exact hnone g (.head hcall hg)
  · have hold := List.mem_of_mem_erase hb
    rw [hR.workList_eq] at hold
    rcases List.mem_append.mp hold with hold | hold
    · obtain ⟨a', -, rfl⟩ := List.mem_map.mp hold
      exact hP.nonrecursive f (.head' hcall hg)
    · exact hE.apart b hold (.head hcall hg)
  · rw [hB.callMark_eq, if_neg (hidle b hb e' he')]
    exact hR.idle hE (List.mem_of_mem_erase hb) e' he'
  · rw [hB.entryMark_eq, if_pos (List.mem_map.mpr ⟨e, List.mem_cons_self, rfl⟩)]

omit ha in
/-- A call has returned. -/
theorem between_returned {t' : State F B E C D} (hret : P.Returns f) (hcalls : P.calls ⟨f, a⟩ = pre ++ e :: post)
    (hB : Between P p S s f out pre (e :: post) t)
    (ht : Returned P p t (P.calledCFG e) (S (P.calledCFG e) out) (s.workList.erase ⟨f, a⟩) e f s.callStack
      s.cfgStack t') : Between P p S s f out (pre ++ [e]) post t' ∧ AtBlock s ⟨f, a⟩ t' := by
  have hmem : e ∈ P.calls ⟨f, a⟩ := hcalls ▸ List.mem_append_right _ List.mem_cons_self
  have hcall : P.Calls f (P.calledCFG e) := ⟨a, e, hmem, rfl⟩
  have hcaller : P.caller e = ⟨f, a⟩ := (hP.mem_calls _ _).mp hmem
  have hfresh : P.calledCFG e ∉ post.map P.calledCFG := by
    intro hin
    obtain ⟨e', he', heq⟩ := List.mem_map.mp hin
    have hpairs := hret.apart f .refl a
    rw [hcalls, List.pairwise_append] at hpairs
    exact ((List.pairwise_cons.mp hpairs.2.1).1 e' he').1 (heq ▸ .refl)
  have hnone : s.entryMark (P.calledCFG e) = none := by
    rw [hR.entryMark_eq _ fun heq => hP.nonrecursive f (.single (by rwa [heq] at hcall))]
    exact hE.entryMark _ (.single hcall)
  refine ⟨⟨ht.mainEntry_eq, fun g hg => ?_, fun g hg => ?_, fun e' => ?_, fun g => ?_⟩,
    ⟨hcaller ▸ ht.workList_eq, ht.curCfg_eq, ht.callStack_eq, ht.cfgStack_eq⟩⟩
  · rw [ht.store_eq g fun hbelow => hg (.head' hcall hbelow), hB.store_eq g hg]
  · by_cases hbelow : ReflTransGen P.Calls (P.calledCFG e) g
    · exact ht.clean g hbelow
    obtain ⟨hmark, hfirst, hcallMark⟩ := hB.clean g hg
    refine ⟨?_, ?_, fun b e' he' => ?_⟩
    · rwa [ht.store_eq g hbelow]
    · rwa [ht.store_eq g hbelow]
    · have hne : e' ≠ e := by
        rintro rfl
        have heq := ((hP.mem_calls _ _).mp he').symm.trans hcaller
        obtain rfl : g = f := congrArg Sigma.fst heq
        exact hP.nonrecursive g hg
      rw [ht.callMark_eq, Function.update_of_ne hne]
      exact hcallMark b e' he'
  · rw [ht.callMark_eq]
    by_cases heq : e' = e
    · rw [heq, Function.update_self, if_pos (List.mem_append_right _ (List.mem_singleton_self e))]
      rfl
    · rw [Function.update_of_ne heq, hB.callMark_eq]
      simp [heq]
  · rw [ht.entryMark_eq]
    by_cases heq : g = P.calledCFG e
    · rw [heq, Function.update_self, if_neg hfresh, hnone]
    · rw [Function.update_of_ne heq, hB.entryMark_eq]
      simp [heq]

omit hE in
/-- The block is an inner one, and no header. -/
theorem inner (hret : P.Returns f) (hne : P.calls ⟨f, a⟩ ≠ []) : a ≠ (P.cfg f).entry ∧ a ≠ (P.cfg f).exit ∧
    (P.cfg f).loopHeader a = false ∧ s.mainEntry = false := by
  have hentry : a ≠ (P.cfg f).entry := by
    rintro rfl
    exact hne (hP.calls_entry f)
  refine ⟨hentry, ?_, ?_, (hR.after (hR.iterates.entry_done ha hentry)).1⟩
  · rintro rfl
    exact hne (hP.calls_exit f)
  · by_contra hheader
    exact hne (hret.header f .refl a (Bool.eq_true_of_not_eq_false hheader))

omit hE in
/-- The turn for a block with calls, were they all to return at once. -/
theorem visit_calls (hret : P.Returns f) (hne : P.calls ⟨f, a⟩ ≠ []) : ∃ y done' last',
    Store.union (s.store f).mark ((P.cfg f).inEdges a) = some y ∧
      Turned (hP.cfg f) (withCalls P p S f) x (s.store f) workList done last a (some y)
        (((s.store f).unmarkEdges ((P.cfg f).inEdges a)).addSuccessors (P.cfg f) a
          (givenBack P p S ⟨f, a⟩ ((p f).update a y))) done' last' := by
  obtain ⟨hentry, -, hheader, -⟩ := hR.inner ha hret hne
  obtain ⟨o, r, done', last', hvisit, hturned⟩ := hR.iterates.turn ha
  obtain ⟨y, hy, rfl, rfl⟩ : ∃ y, Store.union (s.store f).mark ((P.cfg f).inEdges a) = some y ∧ some y = o ∧
      ((s.store f).unmarkEdges ((P.cfg f).inEdges a)).addSuccessors (P.cfg f) a
        ((withCalls P p S f).update a y) = r := by
    simpa [visit, hheader, hentry] using hvisit
  rw [withCalls_some hne] at hturned
  exact ⟨y, done', last', hy, hturned⟩

/-- The first call of a block. -/
theorem call_first (hret : P.Returns f) (hcalls : P.calls ⟨f, a⟩ = e :: post)
    (hx : Store.union (s.store f).mark ((P.cfg f).inEdges a) = some y) :
    ∃ t, s.process P p entdom ⟨f, a⟩ = some t ∧ AtEntry P s ⟨f, a⟩ e t ∧
      Between P p S s f ((p f).update a y) [] (e :: post) t := by
  have hne : P.calls ⟨f, a⟩ ≠ [] := by simp [hcalls]
  obtain ⟨hentry, hexit, hheader, hmain⟩ := hR.inner ha hret hne
  have hmem : (⟨f, a⟩ : Σ f, B f) ∈ s.workList := by
    rw [hR.workList_eq]
    exact List.mem_append_left _ (List.mem_map.mpr ⟨a, ha, rfl⟩)
  have hidle := hR.idle hE hmem
  have hnext : (P.calls ⟨f, a⟩).find? (fun e => (s.callMark e).isNone) = some e := by
    rw [hcalls, List.find?_cons_of_pos]
    rw [hidle e (hcalls ▸ List.mem_cons_self)]
    rfl
  have hall : ((P.calls ⟨f, a⟩).all fun e => (s.callMark e).isNone) = true :=
    List.all_eq_true.mpr fun e' he' => by rw [hidle e' he']; rfl
  refine ⟨_, State.process_call hmain hentry hexit hheader hnext hx,
    ⟨rfl, rfl, rfl, congrArg (· :: s.cfgStack) hR.curCfg_eq⟩, hmain, fun g _ => rfl,
    fun g hg => ⟨(hR.clean g hg).mark, (hR.clean g hg).firstIter, (hR.clean g hg).callMark⟩, fun e' => ?_,
    fun g => ?_⟩
  · simp [State.calling]
  · have hentries : (s.calling P ⟨f, a⟩ e ((p f).update a y)).entryMark =
        State.markEntries P s.entryMark (P.calls ⟨f, a⟩) ((p f).update a y) := if_pos hall
    rw [hentries, markEntries_eq, hcalls]
    split
    case isTrue hin =>
      obtain ⟨e', he', rfl⟩ := List.mem_map.mp hin
      have hcall : P.Calls f (P.calledCFG e') := ⟨a, e', hcalls ▸ he', rfl⟩
      rw [hR.entryMark_eq _ fun heq => hP.nonrecursive f (.single (by rwa [heq] at hcall)),
        hE.entryMark _ (.single hcall), Option.getD_none, bot_sup_eq]
    case isFalse => rfl

/-- The next call of a block. -/
theorem call_next (hret : P.Returns f) (hcalls : P.calls ⟨f, a⟩ = pre ++ e :: post) (hpre : pre ≠ [])
    (hx : Store.union (s.store f).mark ((P.cfg f).inEdges a) = some y)
    (hB : Between P p S s f ((p f).update a y) pre (e :: post) t) (hA : AtBlock s ⟨f, a⟩ t) :
    ∃ t', t.process P p entdom ⟨f, a⟩ = some t' ∧ AtEntry P s ⟨f, a⟩ e t' ∧
      Between P p S s f ((p f).update a y) pre (e :: post) t' := by
  have hne : P.calls ⟨f, a⟩ ≠ [] := by simp [hcalls]
  obtain ⟨hentry, hexit, hheader, -⟩ := hR.inner ha hret hne
  have hmem : (⟨f, a⟩ : Σ f, B f) ∈ s.workList := by
    rw [hR.workList_eq]
    exact List.mem_append_left _ (List.mem_map.mpr ⟨a, ha, rfl⟩)
  have hstore : t.store f = s.store f := hB.store_eq f (hP.nonrecursive f)
  have hmarked : ∀ e' ∈ pre, (t.callMark e').isNone = false := by
    intro e' he'
    rw [hB.callMark_eq, if_pos he']
    rfl
  have hfresh : e ∉ pre := by
    have hnodup := hP.nodup_calls ⟨f, a⟩
    rw [hcalls] at hnodup
    exact fun hin => (List.nodup_append.mp hnodup).2.2 e hin e List.mem_cons_self rfl
  have hnext : (P.calls ⟨f, a⟩).find? (fun e => (t.callMark e).isNone) = some e := by
    rw [hcalls, List.find?_append, List.find?_eq_none.mpr fun e' he' => by simp [hmarked e' he'], Option.none_or,
      List.find?_cons_of_pos]
    rw [hB.callMark_eq, if_neg hfresh,
      hR.idle hE hmem e (hcalls ▸ List.mem_append_right _ List.mem_cons_self)]
    rfl
  have hall : ¬ ((P.calls ⟨f, a⟩).all fun e => (t.callMark e).isNone) = true := by
    obtain ⟨e', l, rfl⟩ := List.exists_cons_of_ne_nil hpre
    simp [hcalls, hmarked e' List.mem_cons_self]
  have hentries : (t.calling P ⟨f, a⟩ e ((p f).update a y)).entryMark = t.entryMark := if_neg hall
  refine ⟨_, State.process_call hB.mainEntry_eq hentry hexit hheader hnext (hstore ▸ hx), ⟨?_, rfl, ?_, ?_⟩,
    hB.mainEntry_eq, hB.store_eq,
    fun g hg => ⟨(hB.clean g hg).mark, (hB.clean g hg).firstIter, (hB.clean g hg).callMark⟩, hB.callMark_eq, ?_⟩
  · simp only [State.calling, hA.workList_eq, List.erase_cons_head]
  · simp only [State.calling, hA.callStack_eq]
  · simp only [State.calling, hA.cfgStack_eq, hA.curCfg_eq]
  · rw [hentries]
    exact hB.entryMark_eq

/-- After the last call the block goes on to its successors. -/
theorem resume {done' : B f → Prop} {last' : B f → D} (hret : P.Returns f) (hne : P.calls ⟨f, a⟩ ≠ [])
    (hturned : Turned (hP.cfg f) (withCalls P p S f) x (s.store f) workList done last a (some y)
        (((s.store f).unmarkEdges ((P.cfg f).inEdges a)).addSuccessors (P.cfg f) a
          (givenBack P p S ⟨f, a⟩ ((p f).update a y))) done' last')
    (hB : Between P p S s f ((p f).update a y) (P.calls ⟨f, a⟩) [] t) (hA : AtBlock s ⟨f, a⟩ t) :
    ∃ t' workList', t.process P p entdom ⟨f, a⟩ = some t' ∧
      Running hP p S s₀ f x rest t' workList' done' last' ∧
      ∀ N, FiniteHeight D N → potential (hP.cfg f) N (t'.store f) done' last' <
        potential (hP.cfg f) N (s.store f) done last := by
  obtain ⟨hentry, hexit, hheader, -⟩ := hR.inner ha hret hne
  have hstore : t.store f = s.store f := hB.store_eq f (hP.nonrecursive f)
  have hback : ∀ e ∈ P.calls ⟨f, a⟩, t.callMark e = some (backOf P p S f ((p f).update a y) e) := by
    intro e he
    rw [hB.callMark_eq, if_pos he]
  have hnext : (P.calls ⟨f, a⟩).find? (fun e => (t.callMark e).isNone) = none :=
    List.find?_eq_none.mpr fun e he => by simp [hback e he]
  have hunion : Store.union t.callMark (P.calls ⟨f, a⟩) = some (givenBack P p S ⟨f, a⟩ ((p f).update a y)) :=
    union_eq_foldl hback
  have hclear : ∀ e, (P.calls ⟨f, a⟩).foldl (fun mark e => Function.update mark e none) t.callMark e =
      if e ∈ P.calls ⟨f, a⟩ then none else t.callMark e := foldl_clear _ _
  have hsame : ∀ {g}, g ≠ f →
      (t.resumed P ⟨f, a⟩ (givenBack P p S ⟨f, a⟩ ((p f).update a y))).store g = t.store g :=
    fun hg => Function.update_of_ne hg _ _
  generalize hr : ((s.store f).unmarkEdges ((P.cfg f).inEdges a)).addSuccessors (P.cfg f) a
    (givenBack P p S ⟨f, a⟩ ((p f).update a y)) = r at hturned
  have hself : (t.resumed P ⟨f, a⟩ (givenBack P p S ⟨f, a⟩ ((p f).update a y))).store f = r.1 := by
    rw [← hr, ← hstore]
    exact Function.update_self ..
  have hwork : (t.resumed P ⟨f, a⟩ (givenBack P p S ⟨f, a⟩ ((p f).update a y))).workList =
      r.2.map (Sigma.mk f) ++ t.workList.erase ⟨f, a⟩ := by
    rw [← hr, ← hstore]
    rfl
  obtain ⟨hmain, hmark⟩ := hR.after (hR.iterates.entry_done ha hentry)
  have hdone : done' (P.cfg f).entry := hturned.entry (.inr (hR.iterates.entry_done ha hentry))
  refine ⟨_, r.2 ++ workList.erase a, State.process_return hB.mainEntry_eq hentry hexit hheader hne hnext hunion, ⟨?_,
    hA.curCfg_eq.trans rfl, hA.callStack_eq.trans hR.callStack_eq, hA.cfgStack_eq.trans hR.cfgStack_eq, ?_,
    fun g hg => ?_, fun g hg => ?_, ?_, fun g hg => ?_, fun hnot => absurd hdone hnot, fun _ => ⟨hB.mainEntry_eq,
    fun hmain₀ => ?_⟩, fun hstack hdone' => ?_⟩, fun N hN => ?_⟩
  case refine_2 =>
    rw [hself]
    exact hturned.iterates
  case refine_1 =>
    have hmem : (⟨f, a⟩ : Σ f, B f) ∈ workList.map (Sigma.mk f) := List.mem_map.mpr ⟨a, ha, rfl⟩
    refine hwork.trans ?_
    rw [hA.workList_eq, List.erase_cons_head, hR.workList_eq, List.erase_append_left _ hmem, List.map_append,
      List.append_assoc, List.map_erase sigma_mk_injective]
  case refine_3 =>
    have hne' : g ≠ f := by
      rintro rfl
      exact hg .refl
    rw [hsame hne', hB.store_eq g fun hbelow => hg hbelow.to_reflTransGen]
    exact hR.store_eq g hg
  case refine_4 =>
    have hne' : g ≠ f := by
      rintro rfl
      exact hP.nonrecursive g hg
    obtain ⟨hmarks, hfirst, hcallMark⟩ := hB.clean g hg
    refine ⟨by rwa [hsame hne'], by rwa [hsame hne'], fun b e he => ?_⟩
    refine (hclear e).trans ?_
    split
    · rfl
    · exact hcallMark b e he
  case refine_5 =>
    funext e
    refine (hclear e).trans ?_
    split
    case isTrue he => exact ((hE.clean f .refl).callMark a e he).symm
    case isFalse he => rw [hB.callMark_eq, if_neg he, hR.callMark_eq]
  case refine_6 => exact (hB.entryMark_eq g).trans (hR.entryMark_eq g hg)
  case refine_7 => exact (hB.entryMark_eq f).trans (hmark hmain₀)
  case refine_8 =>
    rcases hturned.of_done _ hdone' with heq | hdone
    · exact hexit heq.symm
    · exact hR.exit hstack hdone
  case refine_9 =>
    rw [hself]
    exact hturned.potential_lt N hN

end Running

end Otawa.HalfAbsInt
