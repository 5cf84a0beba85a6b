import Otawa.Hai.Progress

/-!
# Turns of the solver

For a block without calls a turn of the solver is a visit of its CFG; nothing else changes but the
work-list and the results of the listener.
-/

set_option linter.unusedSectionVars false

namespace Otawa.HalfAbsInt.State

variable {F : Type} {B E : F → Type} {C D : Type}
variable [DecidableEq F] [∀ f, DecidableEq (B f)] [∀ f, DecidableEq (E f)] [DecidableEq C]
  [SemilatticeSup D] [OrderBot D] [DecidableEq D]
  {P : Program F B E C} {p : ∀ f, Problem (B f) D} {entdom : D} {s t : State F B E C D}
  {f : F} {a : B f}

/-- The results once a block got the input of a visit, if it was told to the listener. -/
def told (P : Program F B E C) (s : State F B E C D) (b : Σ f, B f) : Option D → F → ℕ → D
  | none => s.results
  | some x => (s.blockInterpreted P b x).results

/-- The state of the solver after a visit of a block. -/
def after (P : Program F B E C) (s : State F B E C D) (b : Σ f, B f)
    (r : Option D × Store (B b.1) (E b.1) D × List (B b.1)) : State F B E C D :=
  { s with
    store := Function.update s.store b.1 r.2.1
    workList := r.2.2.map (Sigma.mk b.1) ++ s.workList.erase b
    results := s.told P b r.1 }

theorem le_told (s : State F B E C D) (b : Σ f, B f) (o : Option D) (g : F) (n : ℕ) :
    s.results g n ≤ s.told P b o g n := by
  cases o with
  | none => exact le_rfl
  | some x =>
    by_cases hg : g = s.curCfg
    · subst hg
      simp only [told, blockInterpreted, Function.update_self, Function.update_apply]
      split_ifs with hn
      · exact hn ▸ le_sup_left
      · exact le_rfl
    · simp only [told, blockInterpreted, Function.update_of_ne hg, le_refl]

theorem told_self (x : D) (hcur : s.curCfg = f) :
    x ≤ s.told P ⟨f, a⟩ (some x) f ((P.cfg f).number a) := by
  subst hcur
  simp [told, blockInterpreted]

theorem after_store (r : Option D × Store (B f) (E f) D × List (B f)) :
    (s.after P ⟨f, a⟩ r).store f = r.2.1 :=
  Function.update_self ..

theorem after_workList (rest : List (Σ f, B f)) {workList : List (B f)}
    (r : Option D × Store (B f) (E f) D × List (B f)) (ha : a ∈ workList)
    (hwork : s.workList = workList.map (Sigma.mk f) ++ rest) :
    (s.after P ⟨f, a⟩ r).workList = (r.2.2 ++ workList.erase a).map (Sigma.mk f) ++ rest := by
  have hmem : (⟨f, a⟩ : Σ f, B f) ∈ workList.map (Sigma.mk f) := List.mem_map.mpr ⟨a, ha, rfl⟩
  simp only [after, hwork, List.erase_append_left _ hmem, List.map_append, List.append_assoc,
    List.map_erase sigma_mk_injective]

theorem process_visit (hcalls : P.calls ⟨f, a⟩ = []) (hexit : a ≠ (P.cfg f).exit ∨ s.callStack = [])
    (hmain : s.mainEntry = false) (hentry : a ≠ (P.cfg f).entry) :
    s.process P p entdom ⟨f, a⟩ =
      (visit (P.cfg f) (p f) entdom (s.store f) a).map (s.after P ⟨f, a⟩) := by
  have hstack : ¬ (a = (P.cfg f).exit ∧ s.callStack ≠ []) := by
    rintro ⟨heq, hne⟩
    exact hexit.elim (· heq) hne
  cases hheader : (P.cfg f).loopHeader a with
  | true =>
    cases hr : (s.store f).headerInput (P.cfg f) (p f) a with
    | none =>
      simp [process, inputProcessing, detectCalls, hcalls, hmain, hentry, hheader, visit, hr]
    | some r =>
      obtain ⟨x, fixpoint, st⟩ := r
      cases fixpoint with
      | true =>
        cases hl : st.exitLoop (P.cfg f) (p f) a with
        | none =>
          simp [process, inputProcessing, outputProcessing, detectCalls, hcalls, hmain, hentry, hheader,
            visit, hr, setStore, hl]
        | some r' =>
          simp [process, inputProcessing, outputProcessing, detectCalls, hcalls, hmain, hentry, hheader,
            visit, hr, setStore, hl, push, after, told]
      | false =>
        simp [process, inputProcessing, outputProcessing, detectCalls, hcalls, hmain, hentry, hheader,
          visit, hr, setStore, hstack, addSuccessors, push, after, told, blockInterpreted]
  | false =>
    cases hu : Store.union (s.store f).mark ((P.cfg f).inEdges a) with
    | none =>
      simp [process, inputProcessing, detectCalls, hcalls, hmain, hentry, hheader, visit, hu,
        Store.simpleInput]
    | some x =>
      simp [process, inputProcessing, outputProcessing, detectCalls, hcalls, hmain, hentry, hheader,
        visit, hu, Store.simpleInput, setStore, hstack, addSuccessors, push, after, told, blockInterpreted]

theorem process_main_entry (hc : (P.cfg f).Consistent) (hcalls : P.calls ⟨f, (P.cfg f).entry⟩ = [])
    (hstack : s.callStack = []) (hmain : s.mainEntry = true) :
    s.process P p entdom ⟨f, (P.cfg f).entry⟩ =
      (visit (P.cfg f) (p f) entdom (s.store f) (P.cfg f).entry).map
        (({ s with mainEntry := false } : State F B E C D).after P ⟨f, (P.cfg f).entry⟩) := by
  have hheader := hc.loopHeader_entry
  have hin : (P.cfg f).inEdges (P.cfg f).entry = [] := hc.inEdges_entry
  simp [process, inputProcessing, outputProcessing, detectCalls, hcalls, hmain, hheader, visit, hin,
    Store.unmarkEdges, setStore, hstack, addSuccessors, push, after, told, blockInterpreted]

theorem process_call_entry {x : D} (hc : (P.cfg f).Consistent) (hcalls : P.calls ⟨f, (P.cfg f).entry⟩ = [])
    (hexit : (P.cfg f).entry ≠ (P.cfg f).exit) (hmain : s.mainEntry = false) (hmark : s.entryMark f = some x) :
    s.process P p entdom ⟨f, (P.cfg f).entry⟩ =
      (visit (P.cfg f) (p f) x (s.store f) (P.cfg f).entry).map
        (({ s with entryMark := Function.update s.entryMark f none } : State F B E C D).after P
          ⟨f, (P.cfg f).entry⟩) := by
  have hheader := hc.loopHeader_entry
  have hin : (P.cfg f).inEdges (P.cfg f).entry = [] := hc.inEdges_entry
  simp [process, inputProcessing, outputProcessing, detectCalls, hcalls, hmain, hmark, hheader, visit, hin,
    hexit, Store.unmarkEdges, setStore, addSuccessors, push, after, told, blockInterpreted]

/-- What `solve` computes is a run. -/
theorem solve_run {fuel : ℕ} (hsolve : s.solve P p entdom fuel = some t) :
    ∃ bs, Run P p entdom s bs t := by
  induction fuel generalizing s with
  | zero =>
    cases hsolve
    exact ⟨[], .nil _⟩
  | succ fuel ih =>
    cases hwork : s.workList with
    | nil =>
      simp only [solve, hwork] at hsolve
      cases hsolve
      exact ⟨[], .nil _⟩
    | cons b rest =>
      simp only [solve, hwork, Option.bind_eq_some_iff] at hsolve
      obtain ⟨u, hprocess, hrest⟩ := hsolve
      obtain ⟨bs, hrun⟩ := ih hrest
      exact ⟨b :: bs, .cons (hwork ▸ List.mem_cons_self) hprocess hrun⟩

end Otawa.HalfAbsInt.State
