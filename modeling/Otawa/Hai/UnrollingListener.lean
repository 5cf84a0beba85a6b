import Otawa.Hai.Unrolled
import Otawa.Hai.Solve

/-!
# What the results cover with the first iterations unrolled

A state that a path brings to a block is below the input of one of its visits: what the visits of a block
gave to an edge is on the edge, or was taken by a visit of its target (`Delivers`). An exit edge keeps what
each iteration gave it until the loop is left, the first one included. The results of the listener are above
the inputs of all visits.
-/

set_option linter.unusedSectionVars false

namespace Otawa.HalfAbsInt.FirstUnrolling

section Delivery

variable {B E D : Type} [DecidableEq B] [DecidableEq E] [SemilatticeSup D] [OrderBot D]
variable {c : Cfg B E} {hc : c.Consistent} {p : Problem B D} {entdom : D} {st : Store B E D}
  {u u' : Unroll B D} {done : B → Prop} {inputs : B → Set D} {a b h : B} {e : E} {x y z s m : D}
  {r : Store B E D × List B}

/-- A visit of the target has taken what the source gave to the edge from the input `x`. -/
def Delivered (c : Cfg B E) (p : Problem B D) (inputs : B → Set D) (e : E) (x : D) : Prop :=
  ∃ y ∈ inputs (c.target e), cross c p e (p.update (c.source e) x) ≤ y

/-- `inputs b` are the inputs that visits of `b` have had. -/
structure Delivers (c : Cfg B E) (p : Problem B D) (entdom : D) (st : Store B E D) (done : B → Prop)
    (inputs : B → Set D) : Prop where
  carried : ∀ e, ∀ x ∈ inputs (c.source e),
    (∃ m, st.mark e = some m ∧ stage c p done e (p.update (c.source e) x) ≤ m) ∨ Delivered c p inputs e x
  entered : ∀ e m, st.firstIter (c.target e) = false → c.isBack e = false → st.mark e = some m →
    ∃ y ∈ inputs (c.target e), entryContext c p (c.target e) m ≤ y
  current : ∀ h x, st.firstIter h = false → st.headerState h = some x → x ∈ inputs h
  entry : done c.entry → entdom ∈ inputs c.entry

theorem delivers_start (c : Cfg B E) (p : Problem B D) (entdom : D) (hmark : ∀ e, st.mark e = none)
    (hfirst : ∀ b, st.firstIter b = true) : Delivers c p entdom st (fun _ => False) fun _ => ∅ := by
  constructor <;> simp [hmark, hfirst]

/-- The inputs after a visit of `b` with the input `x`. -/
def record (inputs : B → Set D) (b : B) (x : D) : B → Set D :=
  Function.update inputs b (insert x (inputs b))

theorem mem_record_self : x ∈ record inputs b x b := by
  simp [record]

theorem mem_record (hmem : y ∈ inputs a) : y ∈ record inputs b x a := by
  by_cases hab : a = b
  · subst hab
    simp [record, hmem]
  · simpa [record, hab] using hmem

theorem of_mem_record (hmem : y ∈ record inputs b x a) : (a = b ∧ y = x) ∨ y ∈ inputs a := by
  by_cases hab : a = b
  · subst hab
    simpa [record] using hmem
  · right
    simpa [record, hab] using hmem

theorem Delivered.mono (h : Delivered c p inputs e x) : Delivered c p (record inputs b y) e x := by
  obtain ⟨z, hz, hle⟩ := h
  exact ⟨z, mem_record hz, hle⟩

theorem cross_forward (hforward : c.isBack e = false) (hle : exitContext c p e x ≤ m) :
    cross c p e x ≤ entryContext c p (c.target e) m := by
  simp only [cross, hforward, Bool.false_eq_true, if_false]
  exact (entryContext c p _).monotone hle

theorem cross_back (hback : c.isBack e = true) (hle : exitContext c p e x ≤ m) : cross c p e x ≤ m := by
  simpa only [cross, hback, if_true] using hle

/-- A back edge is marked in the course of an iteration of its header only. -/
theorem active_of_back (hP : Placed hc st done) (hdone : ¬ done (c.target e)) (hback : c.isBack e = true)
    (hmark : (st.mark e).isSome = true) : st.firstIter (c.target e) = false := by
  have hvisited := (hP.of_mark e hmark).2
  have hin : hc.InLoop (c.target e) ((c.loopExitEdge e).getD (c.source e)) := by
    cases hexit : c.loopExitEdge e with
    | none => exact hc.inLoop_source hback
    | some k =>
      exact ((hc.inLoop_source hback).nested (hc.exit_source hexit)).resolve_right (hc.exit_target hexit)
  exact active_of_visited (hP.loop_visited _ _ hin hvisited) hdone

/-- What a visit takes from an edge is below its input. -/
theorem delivered_taken (hP : Placed hc st done) (hdone : ¬ done b) (hready : Ready c st done b)
    (hx : Input c p entdom st u b x u') (htaken : Taken c b e) (hmark : st.mark e = some m)
    (hle : stage c p done e y ≤ m) : cross c p e y ≤ x := by
  obtain ⟨rfl, hkind⟩ := htaken
  cases hback : c.isBack e with
  | true =>
    have hactive := active_of_back hP hdone hback (by rw [hmark, Option.isSome_some])
    rw [stage_finished (hready.finished rfl (.inr hactive))] at hle
    have hunion : ∀ z, Store.union st.mark (c.backEdges (c.target e)) = some z → m ≤ z := fun z hz =>
      Store.le_union hz ((Store.mem_backEdges hc).mpr ⟨rfl, hback⟩) hmark
    cases hx with
    | entry hentry => exact absurd hentry (hP.ne_entry hactive)
    | first _ hfirst =>
      rw [hfirst] at hactive
      exact absurd hactive (by decide)
    | second _ _ hz => exact cross_back hback (hle.trans (hunion _ hz))
    | again _ _ hz => exact cross_back hback (hle.trans ((hunion _ hz).trans le_sup_left))
  | false =>
    rw [stage_finished (hready.finished rfl (.inl hback))] at hle
    have hnone : st.firstIter (c.target e) ≠ false := fun hactive => by
      rw [hback, (hP.header _ hactive).1] at hkind
      simp at hkind
    cases hx with
    | entry hentry => exact absurd hentry (hc.target_ne_entry e)
    | first _ _ hy =>
      refine (cross_forward hback hle).trans ((entryContext c p _).monotone ?_)
      exact Store.le_union hy ((Store.mem_entryEdges hc).mpr ⟨rfl, hback⟩) hmark
    | second hactive => exact absurd hactive hnone
    | again hactive => exact absurd hactive hnone

section

variable (hV : Delivers c p entdom st done inputs) (hP : Placed hc st done)
include hV hP

theorem Delivers.advanced (hdone : ¬ done b)
    (hready : Ready c st done b) (hx : Input c p entdom st u b x u') (hA : Advanced c st b x (p.update b x) r) :
    Delivers c p entdom r.1 (restart hc done b) (record inputs b x) where
  carried e y hmem := by
    by_cases hnew : c.source e = b ∧ y = x
    · obtain ⟨hsource, rfl⟩ := hnew
      obtain ⟨m, hm⟩ := Option.isSome_iff_exists.mp (hA.isSome_out hsource)
      refine .inl ⟨m, hm, ?_⟩
      rw [Advanced.stage_eq hP hdone hready hA (by rw [hm, Option.isSome_some]),
        stage_source hP (hsource.symm ▸ hdone), hsource]
      by_cases htaken : Taken c b e
      · rw [hA.mark_taken_out e hsource htaken] at hm
        exact Option.some.inj hm ▸ le_sup_right
      · rw [hA.mark_out e hsource htaken] at hm
        exact Option.some.inj hm ▸ le_sup_right
    obtain ⟨m, hm, hle⟩ | hdelivered := hV.carried e y ((of_mem_record hmem).resolve_left hnew)
    · by_cases htaken : Taken c b e
      · refine .inr ⟨x, ?_, delivered_taken hP hdone hready hx htaken hm hle⟩
        rw [htaken.1]
        exact mem_record_self
      · have hstage : ∀ m', r.1.mark e = some m' → m ≤ m' →
            stage c p (restart hc done b) e (p.update (c.source e) y) ≤ m' := by
          intro m' hm' hmm
          rw [Advanced.stage_eq hP hdone hready hA (by rw [hm', Option.isSome_some])]
          exact hle.trans hmm
        by_cases hsource : c.source e = b
        · have hm' := hA.mark_out e hsource htaken
          rw [hm] at hm'
          exact .inl ⟨_, hm', hstage _ hm' le_sup_left⟩
        · have hm' := hA.mark_kept e hsource htaken
          rw [hm] at hm'
          exact .inl ⟨_, hm', hstage _ hm' le_rfl⟩
    · exact .inr hdelivered.mono
  entered e m hactive hforward hmark := by
    have hP' := Advanced.placed hP hdone hready hA
    have hheader := (hP'.header _ hactive).1
    have hkept : c.source e ≠ b → st.mark e = some m := by
      intro hsource
      rw [hA.mark_kept e hsource] at hmark
      · exact hmark
      · rintro ⟨rfl, hbad | hbad⟩
        · rw [hheader] at hbad
          exact absurd hbad (by decide)
        · rw [hforward] at hbad
          exact absurd hbad (by decide)
    by_cases htarget : c.target e = b
    · have hm := hkept (forward_source_ne hc htarget hforward)
      subst htarget
      cases hold : st.firstIter (c.target e) with
      | false =>
        obtain ⟨y, hy, hle⟩ := hV.entered e m hold hforward hm
        exact ⟨y, mem_record hy, hle⟩
      | true =>
        refine ⟨x, mem_record_self, ?_⟩
        cases hx with
        | entry hentry => exact absurd hentry (hP'.ne_entry hactive)
        | first _ _ hy =>
          refine (entryContext c p _).monotone ?_
          exact Store.le_union hy ((Store.mem_entryEdges hc).mpr ⟨rfl, hforward⟩) hm
        | second hold' =>
          rw [hold] at hold'
          exact absurd hold' (by decide)
        | again hold' =>
          rw [hold] at hold'
          exact absurd hold' (by decide)
    · have hold : st.firstIter (c.target e) = false := by
        rwa [hA.firstIter_other _ (.inl htarget)] at hactive
      have hm := hkept (Advanced.entry_source_ne hP hdone hready hA hold htarget rfl hforward)
      obtain ⟨y, hy, hle⟩ := hV.entered e m hold hforward hm
      exact ⟨y, mem_record hy, hle⟩
  current h y hactive hstate := by
    by_cases hhb : h = b
    · subst hhb
      rw [hA.headerState_self ((Advanced.placed hP hdone hready hA).header h hactive).1] at hstate
      cases hstate
      exact mem_record_self
    · rw [hA.firstIter_other h (.inl hhb)] at hactive
      rw [hA.headerState_other h (.inl hhb)] at hstate
      exact mem_record (hV.current h y hactive hstate)
  entry hentry := by
    obtain ⟨hentry, -⟩ | ⟨rfl, -⟩ := hentry
    · exact mem_record (hV.entry hentry)
    · cases hx with
      | entry => exact mem_record_self
      | first hne => exact absurd rfl hne
      | second hactive => exact absurd rfl (hP.ne_entry hactive)
      | again hactive => exact absurd rfl (hP.ne_entry hactive)

theorem Delivers.settled (hdone : ¬ done b)
    (hready : Ready c st done b) (hF : Settled c p st u b r u' s z) :
    Delivers c p entdom r.1 (settle done b) inputs := by
  have hL := hF.left
  have hactive := hF.active
  refine ⟨fun e x hmem => ?_, fun e m ha hforward hmark => ?_, fun h x ha hstate => ?_, fun hentry => ?_⟩
  · obtain ⟨m, hm, hle⟩ | hdelivered := hV.carried e x hmem
    · by_cases htarget : c.target e = b
      · -- the in-edges of the header are unmarked, with all of them delivered
        right
        subst htarget
        cases hback : c.isBack e with
        | true =>
          rw [stage_finished (hready.finished rfl (.inr hactive))] at hle
          refine ⟨s, hV.current _ s hactive hF.headerState_eq, cross_back hback (hle.trans ?_)⟩
          rw [← hF.fixed]
          exact (Store.le_union hF.union_eq ((Store.mem_backEdges hc).mpr ⟨rfl, hback⟩) hm).trans le_sup_left
        | false =>
          rw [stage_finished (hready.finished rfl (.inl hback))] at hle
          obtain ⟨y, hy, hle'⟩ := hV.entered e m hactive hback hm
          exact ⟨y, hy, (cross_forward hback hle).trans hle'⟩
      · left
        have hsome : (r.1.mark e).isSome = true := by rw [hL.isSome_iff htarget, hm, Option.isSome_some]
        obtain ⟨m', hm'⟩ := Option.isSome_iff_exists.mp hsome
        obtain ⟨m₀, hm₀, hstage⟩ := LoopLeft.mark_stage hdone hL hm'
        cases hm.symm.trans hm₀
        exact ⟨m', hm', (hstage _).1 hle⟩
    · exact .inr hdelivered
  · obtain ⟨hne, hold⟩ := (left_active_iff hL).mp ha
    refine hV.entered e m hold hforward ?_
    rwa [hL.mark_kept e hne fun hexit => hdone ?_] at hmark
    exact (finished_some hexit).mp (hP.order e hforward (.inr hold))
  · obtain ⟨hne, hold⟩ := (left_active_iff hL).mp ha
    rw [hL.headerState_other h hne] at hstate
    exact hV.current h x hold hstate
  · obtain hentry | heq := hentry
    · exact hV.entry hentry
    · exact absurd heq.symm (hP.ne_entry hactive)

/-- When every block is done, nothing is left on the edges. -/
theorem Delivers.delivered (hall : ∀ b, done b) (hmem : x ∈ inputs (c.source e)) : Delivered c p inputs e x := by
  refine (hV.carried e x hmem).resolve_left ?_
  rintro ⟨m, hm, -⟩
  exact (hP.of_mark e (by rw [hm, Option.isSome_some])).1 (hall _)

end

end Delivery

/-! ### Turns of the solver -/

variable {F : Type} {B E : F → Type} {C D : Type}
variable [DecidableEq F] [∀ f, DecidableEq (B f)] [∀ f, DecidableEq (E f)] [DecidableEq C]
  [SemilatticeSup D] [OrderBot D] [DecidableEq D]
  {P : Program F B E C} {p : ∀ f, Problem (B f) D} {entdom : D} {s t : State F B E C D} {f : F} {a : B f}
  {bs : List (Σ f, B f)}

namespace State

/-- The state of the solver after a visit of a block. -/
def after (P : Program F B E C) (s : State F B E C D) (f : F) (a : B f)
    (r : Option D × (Store (B f) (E f) D × List (B f)) × Unroll (B f) D) : State F B E C D :=
  { s.setUnroll f r.2.2 with toState := s.toState.after P ⟨f, a⟩ (r.1, r.2.1) }

/-- Away from the headers the solver is the one with `DefaultFixPoint`. -/
theorem process_of_not_atHeader {b : Σ f, B f}
    (hnot : ¬ ({ s with workList := s.workList.erase b } : State F B E C D).AtHeader P b (s.detectCalls P b)) :
    s.process P p entdom b = (s.toState.process P p entdom b).map fun t => { s with toState := t } := by
  have hcalls : HalfAbsInt.State.detectCalls P { s.toState with workList := s.workList.erase b } b =
      s.detectCalls P b := rfl
  simp only [process, inputProcessing, HalfAbsInt.State.process, hcalls, if_neg hnot, Option.bind_map]
  cases HalfAbsInt.State.inputProcessing P p entdom { s.toState with workList := s.workList.erase b } b
    (s.detectCalls P b) with
  | none => rfl
  | some r => rfl

theorem process_main_entry (hc : (P.cfg f).Consistent) (hcalls : P.calls ⟨f, (P.cfg f).entry⟩ = [])
    (hstack : s.callStack = []) (hmain : s.mainEntry = true) :
    s.process P p entdom ⟨f, (P.cfg f).entry⟩ =
      (visit (P.cfg f) (p f) entdom (s.store f) (s.unroll f) (P.cfg f).entry).map
        (({ s with mainEntry := false } : State F B E C D).after P f (P.cfg f).entry) := by
  rw [process_of_not_atHeader fun hat => absurd hat.2.1 fun hne => hne rfl,
    HalfAbsInt.State.process_main_entry hc hcalls hstack hmain]
  simp only [visit, hc.loopHeader_entry, Bool.false_eq_true, if_false, Option.map_map]
  congr 1
  funext r
  simp [after, setUnroll]

theorem process_visit (hcalls : P.calls ⟨f, a⟩ = []) (hstack : s.callStack = []) (hmain : s.mainEntry = false)
    (hentry : a ≠ (P.cfg f).entry) :
    s.process P p entdom ⟨f, a⟩ =
      (visit (P.cfg f) (p f) entdom (s.store f) (s.unroll f) a).map (s.after P f a) := by
  cases hheader : (P.cfg f).loopHeader a with
  | false =>
    rw [process_of_not_atHeader fun hat => absurd (hheader.symm.trans hat.2.2.2) (by decide),
      HalfAbsInt.State.process_visit hcalls (.inr hstack) hmain hentry]
    simp only [visit, hheader, Bool.false_eq_true, if_false, Option.map_map]
    congr 1
    funext r
    simp [after, setUnroll]
  | true =>
    have hat : ({ s with workList := s.workList.erase ⟨f, a⟩ } : State F B E C D).AtHeader P ⟨f, a⟩
        (s.detectCalls P ⟨f, a⟩) := by
      simp [AtHeader, HalfAbsInt.State.detectCalls, hcalls, hmain, hentry, hheader]
    have hdetect : HalfAbsInt.State.detectCalls P { s.toState with workList := s.workList.erase ⟨f, a⟩ } ⟨f, a⟩ =
        s.detectCalls P ⟨f, a⟩ := rfl
    simp only [process, inputProcessing, hdetect, if_pos hat, visit, hheader, if_true]
    cases hr : Unroll.headerInput (P.cfg f) (p f) (s.store f) (s.unroll f) a with
    | none => rfl
    | some r =>
      obtain ⟨x, fixpoint, st, u⟩ := r
      cases fixpoint with
      | true =>
        cases hl : st.exitLoop (P.cfg f) (p f) a with
        | none =>
          simp [HalfAbsInt.State.outputProcessing, HalfAbsInt.State.setStore, hheader, hl]
        | some t =>
          simp [HalfAbsInt.State.outputProcessing, HalfAbsInt.State.setStore, HalfAbsInt.State.push, hheader, hl,
            after, HalfAbsInt.State.after, HalfAbsInt.State.told, setUnroll]
      | false =>
        simp [HalfAbsInt.State.outputProcessing, HalfAbsInt.State.setStore, HalfAbsInt.State.push, hheader,
          hstack, HalfAbsInt.State.detectCalls, hcalls, HalfAbsInt.State.addSuccessors, after,
          HalfAbsInt.State.after, HalfAbsInt.State.told, HalfAbsInt.State.blockInterpreted, setUnroll]

end State

/-! ### The main CFG -/

variable [∀ f, Fintype (B f)]

/-- The solver is at work on the CFG `f` alone, no block of which has been found to have calls. -/
structure OnMain (hP : P.Consistent) (p : ∀ f, Problem (B f) D) (entdom : D) (f : F) (s : State F B E C D)
    (workList : List (B f)) (done : B f → Prop) (val : Phase (B f) → B f → D) (inputs : B f → Set D) : Prop where
  workList_eq : s.workList = workList.map (Sigma.mk f)
  curCfg_eq : s.curCfg = f
  callStack_eq : s.callStack = []
  mainEntry_iff : s.mainEntry = true ↔ ¬ done (P.cfg f).entry
  iterates : Iterates (hP.cfg f) (p f) entdom (s.store f) (s.unroll f) workList done val
  delivers : Delivers (P.cfg f) (p f) entdom (s.store f) done inputs
  le_results : ∀ b, ∀ x ∈ inputs b, x ≤ s.results f ((P.cfg f).number b)
  no_calls : ∀ b, Visited (s.store f) done b → P.calls ⟨f, b⟩ = []

variable (p entdom) in
theorem onMain_start (hP : P.Consistent) (f : F) :
    OnMain hP p entdom f (State.start P f) [(P.cfg f).entry] (fun _ => False) (fun _ _ => ⊥) fun _ => ∅ where
  workList_eq := rfl
  curCfg_eq := rfl
  callStack_eq := rfl
  mainEntry_iff := by simp [State.start, HalfAbsInt.State.start]
  iterates := .start (hP.cfg f) (p f) entdom _ (fun _ => rfl) fun _ => rfl
  delivers := delivers_start _ _ _ (fun _ => rfl) fun _ => rfl
  le_results := by simp
  no_calls := by simp [Visited, State.start, HalfAbsInt.State.start, Store.empty]

section

variable {hP : P.Consistent} {workList : List (B f)}

/-- What a visit of the block `a` of the main CFG leads to. -/
theorem OnMain.after {done done' : B f → Prop}
    {val val' : Phase (B f) → B f → D} {inputs inputs' : B f → Set D}
    (hM : OnMain hP p entdom f s workList done val inputs) (ha : a ∈ workList) (hcalls : P.calls ⟨f, a⟩ = [])
    {o : Option D} {r : Store (B f) (E f) D × List (B f)} {u' : Unroll (B f) D} {main : Bool}
    (hmain : main = true ↔ ¬ done' (P.cfg f).entry)
    (hI : Iterates (hP.cfg f) (p f) entdom r.1 u' (r.2 ++ workList.erase a) done' val')
    (hV : Delivers (P.cfg f) (p f) entdom r.1 done' inputs')
    (hinputs : ∀ b, ∀ x ∈ inputs' b, (b = a ∧ o = some x) ∨ x ∈ inputs b)
    (hvisited : ∀ b, Visited r.1 done' b → b = a ∨ Visited (s.store f) done b) :
    OnMain hP p entdom f (({ s with mainEntry := main } : State F B E C D).after P f a (o, r, u'))
      (r.2 ++ workList.erase a) done' val' inputs' := by
  have hstore : (({ s with mainEntry := main } : State F B E C D).after P f a (o, r, u')).store f = r.1 :=
    HalfAbsInt.State.after_store (o, r)
  have hunroll : (({ s with mainEntry := main } : State F B E C D).after P f a (o, r, u')).unroll f = u' :=
    Function.update_self ..
  refine ⟨?_, hM.curCfg_eq, hM.callStack_eq, hmain, by rw [hstore, hunroll]; exact hI, by rw [hstore]; exact hV,
    fun b x hmem => ?_, fun b hb => ?_⟩
  · have hwork : ({ s.toState with mainEntry := main } : HalfAbsInt.State F B E C D).workList =
        workList.map (Sigma.mk f) ++ [] := by simp [hM.workList_eq]
    exact (HalfAbsInt.State.after_workList [] (o, r) ha hwork).trans (List.append_nil _)
  · obtain ⟨rfl, rfl⟩ | hold := hinputs b x hmem
    · exact HalfAbsInt.State.told_self x hM.curCfg_eq
    · exact (hM.le_results b x hold).trans (HalfAbsInt.State.le_told s.toState _ o f _)
  · rw [hstore] at hb
    obtain rfl | hb := hvisited b hb
    · exact hcalls
    · exact hM.no_calls b hb

section

variable {done : B f → Prop} {val : Phase (B f) → B f → D} {inputs : B f → Set D} {N : ℕ} (hN : FiniteHeight D N)
  (hM : OnMain hP p entdom f s workList done val inputs)
include hN hM

/-- A turn that takes a block without calls: no state is missing, and there is less to come. -/
theorem OnMain.turn {b : Σ f, B f} (hmem : b ∈ s.workList)
    (hcalls : P.calls b = []) : ∃ t workList' done' val' inputs', s.process P p entdom b = some t ∧
      OnMain hP p entdom f t workList' done' val' inputs' ∧
      potential (hP.cfg f) N (t.store f) (t.unroll f) done' val' <
        potential (hP.cfg f) N (s.store f) (s.unroll f) done val := by
  rw [hM.workList_eq] at hmem
  obtain ⟨a, ha, rfl⟩ := List.mem_map.mp hmem
  have hI := hM.iterates
  obtain ⟨hdone, hready⟩ := (hI.listed.mem_iff a).mp ha
  -- the main entry is taken first
  have hprocess : ∀ o r u', visit (P.cfg f) (p f) entdom (s.store f) (s.unroll f) a = some (o, r, u') →
      s.process P p entdom ⟨f, a⟩ =
        some (({ s with mainEntry := false } : State F B E C D).after P f a (o, r, u')) := by
    intro o r u' hvisit
    by_cases hentry : a = (P.cfg f).entry
    · subst hentry
      rw [State.process_main_entry (hP.cfg f) hcalls hM.callStack_eq (hM.mainEntry_iff.mpr hdone), hvisit]
      rfl
    · have hmain : s.mainEntry = false := by
        simpa [hI.placed.entry_done_of_ready hready hentry] using hM.mainEntry_iff
      rw [State.process_visit hcalls hM.callStack_eq hmain hentry, hvisit, ← hmain]
      rfl
  have hstore : ∀ o r u', (({ s with mainEntry := false } : State F B E C D).after P f a (o, r, u')).store f = r.1 :=
    fun o r u' => HalfAbsInt.State.after_store (o, r)
  have hunroll : ∀ o r u', (({ s with mainEntry := false } : State F B E C D).after P f a (o, r, u')).unroll f = u' :=
    fun o r u' => Function.update_self ..
  obtain ⟨x, r, u', hvisit, hx, hA, hmoves⟩ | ⟨r, u', z, hvisit, hF⟩ := hI.visit_cases ha
  · refine ⟨_, _, _, _, _, hprocess _ r u' hvisit, hM.after ha hcalls ?_ (hI.advanced ha hx hA)
      (hM.delivers.advanced hI.placed hdone hready hx hA) (fun b y hy => ?_) fun b hb => ?_, ?_⟩
    · have hdone' : restart (hP.cfg f) done a (P.cfg f).entry := by
        by_cases heq : a = (P.cfg f).entry
        · exact .inr ⟨heq.symm, heq ▸ (hP.cfg f).loopHeader_entry⟩
        · exact .inl ⟨hI.placed.entry_done_of_ready hready heq, fun hin => heq ((hP.cfg f).inLoop_entry hin)⟩
      simp [hdone']
    · exact (of_mem_record hy).imp_left (And.imp_right fun hyx => congrArg some hyx.symm)
    · exact ((hA.visited_iff hI.placed hdone hready).mp hb).imp_right And.left
    · rw [hstore, hunroll]
      exact potential_advanced hN hI ha hx hA hmoves
  · refine ⟨_, _, _, _, _, hprocess _ r u' hvisit, hM.after ha hcalls ?_ (hI.settled ha hF)
      (hM.delivers.settled hI.placed hdone hready hF) (fun b y hy => .inr hy) fun b hb => ?_, ?_⟩
    · have hentry := hI.placed.entry_done_of_ready hready (hI.placed.ne_entry hF.active)
      simp [settle, hentry]
    · exact .inr ((hF.left.visited_iff hF.active).mp hb)
    · rw [hstore, hunroll]
      exact potential_left hN hI ha hF

/-- A run that takes no block with a CALL edge. -/
theorem OnMain.run (hrun : State.Run P p entdom s bs t) (hcalls : ∀ b ∈ bs, P.calls b = []) :
    ∃ workList' done' val' inputs', OnMain hP p entdom f t workList' done' val' inputs' ∧
      bs.length + potential (hP.cfg f) N (t.store f) (t.unroll f) done' val' ≤
        potential (hP.cfg f) N (s.store f) (s.unroll f) done val := by
  induction hrun generalizing workList done val inputs with
  | nil s => exact ⟨workList, done, val, inputs, hM, by simp⟩
  | cons hmem hprocess _ ih =>
    obtain ⟨t, _, _, _, _, hprocess', hM', hlt⟩ := hM.turn hN hmem (hcalls _ List.mem_cons_self)
    cases hprocess.symm.trans hprocess'
    obtain ⟨workList', done', val', inputs', hM', hle⟩ := ih hM' fun b hb => hcalls b (List.mem_cons_of_mem _ hb)
    refine ⟨workList', done', val', inputs', hM', ?_⟩
    rw [List.length_cons]
    omega

end

end

/-- The state of a path is below the input of a visit of its block. -/
theorem le_input_of_within {x y : D} {b : B f} (hpath : Within P p f x b y) {inputs : B f → Set D}
    (hcalls : ∀ b, P.calls ⟨f, b⟩ = []) (hx : x ∈ inputs (P.cfg f).entry)
    (hdelivered : ∀ e, ∀ x ∈ inputs ((P.cfg f).source e), Delivered (P.cfg f) (p f) inputs e x) :
    ∃ z ∈ inputs b, y ≤ z := by
  induction hpath with
  | entry f x => exact ⟨x, hx, le_rfl⟩
  | edge e _ _ ih =>
    obtain ⟨z, hz, hle⟩ := ih hcalls hx hdelivered
    obtain ⟨z', hz', hle'⟩ := hdelivered e z hz
    exact ⟨z', hz', ((cross _ _ e).monotone (((p _).update _).monotone hle)).trans hle'⟩
  | call e k hmem => simp [hcalls] at hmem

/-- In the runs that take no block with a CALL edge, the number of turns is bounded, no state is missing, and
the results cover every path when the work-list is empty. -/
theorem unrolled_results_cover (hP : P.Consistent) (p : ∀ f, Problem (B f) D) (entdom : D) (f : F) (N : ℕ)
    (hN : FiniteHeight D N) : ∃ K, ∀ bs s, State.Run P p entdom (State.start P f) bs s →
      (∀ b ∈ bs, P.calls b = []) → bs.length ≤ K ∧
        (∀ b ∈ s.workList, P.calls b = [] → (s.process P p entdom b).isSome = true) ∧
        (s.workList = [] → ∀ b x, Reaches P p f entdom b x → x ≤ s.results b.1 ((P.cfg b.1).number b.2)) := by
  have hstart := onMain_start p entdom hP f
  let s₀ : State F B E C D := State.start P f
  refine ⟨potential (hP.cfg f) N (s₀.store f) (s₀.unroll f) (fun _ => False) fun _ _ => ⊥,
    fun bs s hrun hcalls => ?_⟩
  obtain ⟨workList, done, val, inputs, hM, hle⟩ := hstart.run hN hrun hcalls
  refine ⟨(Nat.le_add_right _ _).trans hle, fun b hmem hnone => ?_, fun hend b x hpath => ?_⟩
  · obtain ⟨t, _, _, _, _, hprocess, -⟩ := hM.turn hN hmem hnone
    rw [hprocess, Option.isSome_some]
  obtain rfl : workList = [] := by simpa [hend] using hM.workList_eq.symm
  have hdone := hM.iterates.placed.all_done hM.iterates.listed
  have hnone : ∀ b, P.calls ⟨f, b⟩ = [] := fun b => hM.no_calls b (.inl (hdone b))
  have hmain : ∃ a, b = ⟨f, a⟩ ∧ Within P p f entdom a x := by
    induction hpath with
    | within hpath => exact ⟨_, rfl, hpath⟩
    | call k _ hmem _ ih =>
      obtain ⟨a, heq, -⟩ := ih
      rw [heq, hnone a] at hmem
      exact absurd hmem List.not_mem_nil
  obtain ⟨a, rfl, hwalk⟩ := hmain
  obtain ⟨z, hz, hxz⟩ := le_input_of_within hwalk hnone (hM.delivers.entry (hdone _)) fun e y hy =>
    hM.delivers.delivered hM.iterates.placed hdone hy
  exact hxz.trans (hM.le_results a z hz)

omit [∀ f, Fintype (B f)] in
/-- What `solve` computes is a run. -/
theorem solve_run {fuel : ℕ} (hsolve : s.solve P p entdom fuel = some t) :
    ∃ bs, State.Run P p entdom s bs t := by
  induction fuel generalizing s with
  | zero =>
    cases hsolve
    exact ⟨[], .nil _⟩
  | succ fuel ih =>
    cases hwork : s.workList with
    | nil =>
      simp only [State.solve, hwork] at hsolve
      cases hsolve
      exact ⟨[], .nil _⟩
    | cons b rest =>
      simp only [State.solve, hwork, Option.bind_eq_some_iff] at hsolve
      obtain ⟨u, hprocess, hrest⟩ := hsolve
      obtain ⟨bs, hrun⟩ := ih hrest
      exact ⟨b :: bs, .cons (hwork ▸ List.mem_cons_self) hprocess hrun⟩

/-- The exit of the loop is covered. -/
theorem unrolled_results_cover_loop : ∃ s, State.solve loopProgram (fun _ => idProblem) true 9
    (State.start loopProgram ()) = some s ∧ true ≤ s.results () 3 := by
  have hends : (State.solve loopProgram (fun _ => idProblem) true 9 (State.start loopProgram ())).map
      (fun s => s.workList) = some [] := by decide
  obtain ⟨s, hs, hend⟩ := Option.map_eq_some_iff.mp hends
  obtain ⟨bs, hrun⟩ := solve_run hs
  obtain ⟨K, hK⟩ := unrolled_results_cover loopProgram_consistent (fun _ => idProblem) true () 1 finiteHeight_bool
  refine ⟨s, hs, (hK bs s hrun fun _ _ => rfl).2.2 hend ⟨(), 3⟩ true ?_⟩
  have h1 := Within.edge (P := loopProgram) (p := fun _ => idProblem) (f := ()) (0 : Fin 4) rfl (.entry () true)
  exact .within (Within.edge (P := loopProgram) (p := fun _ => idProblem) (f := ()) (3 : Fin 4) rfl h1)

/-- The return from the call unmarks the in-edges of the header, which is not taken again. -/
theorem unrolled_header_call : headerCall.Consistent ∧ FiniteHeight Bool 1 ∧ ∃ s,
    State.solve headerCall (fun _ => idProblem) true 12 (State.start headerCall false) = some s ∧
      s.workList = [] ∧ Reaches headerCall (fun _ => idProblem) false true ⟨false, 3⟩ true ∧
        ¬ true ≤ s.results false (whileCfg.number 3) := by
  refine ⟨headerCall_consistent, finiteHeight_bool, ?_⟩
  have hends : (State.solve headerCall (fun _ => idProblem) true 12 (State.start headerCall false)).map
      (fun s => (s.workList, s.results false (whileCfg.number 3))) = some ([], false) := by decide
  obtain ⟨s, hs, hend⟩ := Option.map_eq_some_iff.mp hends
  obtain ⟨hlist, hresult⟩ := Prod.ext_iff.mp hend
  exact ⟨s, hs, hlist, headerCall_reaches, by simp_all⟩

end Otawa.HalfAbsInt.FirstUnrolling
