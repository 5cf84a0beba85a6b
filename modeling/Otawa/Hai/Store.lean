import Otawa.Hai.HalfAbsInt
import Mathlib.Order.Bounds.Basic

/-!
# Operations on the edge states

One specification for each operation of the solver on a store: what it does to the marks, and which blocks
it pushes. The other modules cite these and do not unfold the operations.
-/

set_option linter.unusedSectionVars false

namespace Otawa.HalfAbsInt.Store

variable {B E D : Type} [DecidableEq B] [DecidableEq E] [SemilatticeSup D] [OrderBot D]
variable {c : Cfg B E} {p : Problem B D} {st : Store B E D} {b : B}

/-! ### Marks -/

section

variable (es : List E) (st : Store B E D)

theorem unmarkEdges_mark (e : E) : (st.unmarkEdges es).mark e = if e ∈ es then none else st.mark e := by
  induction es generalizing st with
  | nil => rfl
  | cons a es ih =>
    rw [show st.unmarkEdges (a :: es) = (st.unmarkEdge a).unmarkEdges es from rfl, ih]
    by_cases hea : e = a
    · subst hea
      simp [unmarkEdge]
    · simp [unmarkEdge, hea]

@[simp]
theorem unmarkEdges_firstIter : (st.unmarkEdges es).firstIter = st.firstIter := by
  induction es generalizing st with
  | nil => rfl
  | cons a es ih => exact ih (st.unmarkEdge a)

@[simp]
theorem unmarkEdges_fixed : (st.unmarkEdges es).fixed = st.fixed := by
  induction es generalizing st with
  | nil => rfl
  | cons a es ih => exact ih (st.unmarkEdge a)

@[simp]
theorem unmarkEdges_headerState : (st.unmarkEdges es).headerState = st.headerState := by
  induction es generalizing st with
  | nil => rfl
  | cons a es ih => exact ih (st.unmarkEdge a)

end

/-! ### Unions of edge states -/

private theorem foldlM_isLUB (mark : E → Option D) (es : List E) (x y : D)
    (hunion : es.foldlM (fun x e => (mark e).map (x ⊔ ·)) x = some y) :
    IsLUB {m | m = x ∨ ∃ e ∈ es, mark e = some m} y := by
  induction es generalizing x with
  | nil =>
    cases hunion
    simp [IsLUB, IsLeast, upperBounds, lowerBounds]
  | cons a es ih =>
    simp only [List.foldlM_cons, Option.bind_eq_bind, Option.bind_eq_some_iff, Option.map_eq_some_iff] at hunion
    obtain ⟨_, ⟨m, hm, rfl⟩, hrest⟩ := hunion
    obtain ⟨hupper, hleast⟩ := ih _ hrest
    refine ⟨?_, fun z hz => hleast ?_⟩
    · rintro _ (rfl | ⟨e, hmem, he⟩)
      · exact le_sup_left.trans (hupper (.inl rfl))
      · rcases List.mem_cons.mp hmem with rfl | hmem
        · cases hm.symm.trans he
          exact le_sup_right.trans (hupper (.inl rfl))
        · exact hupper (.inr ⟨e, hmem, he⟩)
    · rintro _ (rfl | ⟨e, hmem, he⟩)
      · exact sup_le (hz (.inl rfl)) (hz (.inr ⟨a, List.mem_cons_self, hm⟩))
      · exact hz (.inr ⟨e, List.mem_cons_of_mem _ hmem, he⟩)

section

variable {mark : E → Option D} {es : List E}

/-- The union is the least upper bound of the states of the edges. -/
theorem le_union {x m : D} {e : E} (hunion : union mark es = some x)
    (hmem : e ∈ es) (hmark : mark e = some m) : m ≤ x :=
  (foldlM_isLUB mark es ⊥ x hunion).1 (.inr ⟨e, hmem, hmark⟩)

theorem union_le {x y : D} (hunion : union mark es = some x)
    (hle : ∀ e ∈ es, ∀ m, mark e = some m → m ≤ y) : x ≤ y := by
  refine (foldlM_isLUB mark es ⊥ x hunion).2 ?_
  rintro _ (rfl | ⟨e, hmem, he⟩)
  · exact bot_le
  · exact hle e hmem _ he

/-- The union is read when all the states are recorded. -/
theorem exists_union (hmarked : ∀ e ∈ es, (mark e).isSome) : ∃ x, union mark es = some x := by
  suffices hfold : ∀ x : D, ∃ y, es.foldlM (fun x e => (mark e).map (x ⊔ ·)) x = some y from hfold ⊥
  induction es with
  | nil => exact fun x => ⟨x, rfl⟩
  | cons a es ih =>
    intro x
    obtain ⟨m, hm⟩ := Option.isSome_iff_exists.mp (hmarked a List.mem_cons_self)
    simpa [hm] using ih (fun e hmem => hmarked e (List.mem_cons_of_mem _ hmem)) (x ⊔ m)

end

theorem union_congr {mark mark' : E → Option D} {es : List E} (hsame : ∀ e ∈ es, mark e = mark' e) :
    union mark es = union mark' es := by
  unfold union
  generalize (⊥ : D) = x
  induction es generalizing x with
  | nil => rfl
  | cons a es ih =>
    have hrest := ih fun e hmem => hsame e (List.mem_cons_of_mem _ hmem)
    rw [List.foldlM_cons, List.foldlM_cons, hsame a List.mem_cons_self]
    cases mark' a with
    | none => rfl
    | some m => exact hrest (x ⊔ m)

/-! ### Edges that are done -/

/-- Whether a block is pushed depends on the marks of its in-edges only through their being there. -/
theorem tryAddToWorkList_congr {st' : Store B E D} (hc : c.Consistent) (b : B)
    (hdone : ∀ e, c.target e = b → st.isEdgeDone c e = st'.isEdgeDone c e) :
    st.tryAddToWorkList c b = st'.tryAddToWorkList c b := by
  unfold tryAddToWorkList
  rw [Bool.eq_iff_iff, List.all_eq_true, List.all_eq_true]
  refine forall₂_congr fun e hmem => ?_
  rw [hdone e ((hc.mem_inEdges e b).mp hmem)]

theorem tryAddToWorkList_iff (hc : c.Consistent) :
    st.tryAddToWorkList c b = true ↔ ∀ e, c.target e = b → st.isEdgeDone c e = true := by
  simp only [tryAddToWorkList, List.all_eq_true, hc.mem_inEdges]

theorem isEdgeDone_iff (e : E) :
    st.isEdgeDone c e = true ↔ ((st.mark e).isSome = true ∧ ∀ h, c.loopExitEdge e = some h → st.fixed h = true) ∨
      (c.isBack e = true ∧ st.firstIter (c.target e) = true) := by
  unfold isEdgeDone
  cases c.loopExitEdge e <;> simp

theorem isEdgeDone_congr {st' : Store B E D} (e : E) (hmark : (st.mark e).isSome = (st'.mark e).isSome)
    (hfixed : st.fixed = st'.fixed) (hfirst : st.firstIter = st'.firstIter) :
    st.isEdgeDone c e = st'.isEdgeDone c e := by
  simp only [isEdgeDone, hmark, hfixed, hfirst]

/-! ### Output to the successors -/

/-- The result of marking some edges in turn, the blocks pushed included. -/
structure Marked (c : Cfg B E) (st : Store B E D) (es : List E) (out : D) (r : Store B E D × List B) : Prop where
  mark_eq : ∀ e, r.1.mark e = if e ∈ es then some ((st.mark e).getD ⊥ ⊔ out) else st.mark e
  firstIter_eq : r.1.firstIter = st.firstIter
  fixed_eq : r.1.fixed = st.fixed
  headerState_eq : r.1.headerState = st.headerState
  nodup : r.2.Nodup
  mem_iff : ∀ a, a ∈ r.2 ↔ (∃ e ∈ es, c.target e = a) ∧ r.1.tryAddToWorkList c a = true

/-- An edge that is not done before it is marked holds its target back until it is marked, so that each
successor is pushed at most once, and with all its in-edges done. -/
theorem marked_addSuccessors (hc : c.Consistent) (st : Store B E D) (b : B) (out : D)
    (hfresh : ∀ e, c.source e = b → st.isEdgeDone c e = false) :
    Marked c st (c.outEdges b) out (st.addSuccessors c b out) := by
  have hnodup := hc.nodup_outEdges b
  replace hfresh : ∀ e ∈ c.outEdges b, st.isEdgeDone c e = false :=
    fun e hmem => hfresh e ((hc.mem_outEdges e b).mp hmem)
  unfold addSuccessors
  generalize c.outEdges b = es at hnodup hfresh ⊢
  induction es using List.reverseRecOn with
  | nil => constructor <;> simp
  | append_singleton es e ih =>
    rw [List.nodup_append] at hnodup
    have hnot : e ∉ es := fun hmem => hnodup.2.2 e hmem e List.mem_cons_self rfl
    have hbefore := ih hnodup.1 fun e' hmem => hfresh e' (List.mem_append_left _ hmem)
    rw [List.foldl_append, List.foldl_cons, List.foldl_nil]
    generalize es.foldl _ (st, []) = acc at hbefore ⊢
    have hheld : c.target e ∉ acc.2 := by
      intro hmem
      have hdone := (tryAddToWorkList_iff hc).mp ((hbefore.mem_iff _).mp hmem).2 e rfl
      have hsame : acc.1.isEdgeDone c e = st.isEdgeDone c e :=
        isEdgeDone_congr e (by rw [hbefore.mark_eq, if_neg hnot]) hbefore.fixed_eq hbefore.firstIter_eq
      rw [hsame, hfresh e (List.mem_append_right _ List.mem_cons_self)] at hdone
      exact absurd hdone (by decide)
    have hother : ∀ a, a ≠ c.target e →
        (acc.1.markEdge e out).tryAddToWorkList c a = acc.1.tryAddToWorkList c a := by
      intro a hne
      refine tryAddToWorkList_congr hc a fun e' htarget => isEdgeDone_congr e' ?_ rfl rfl
      have hee : e' ≠ e := fun heq => hne (heq ▸ htarget.symm)
      simp [markEdge, hee]
    have hmark : ∀ e', (acc.1.markEdge e out).mark e' =
        if e' ∈ es ++ [e] then some ((st.mark e').getD ⊥ ⊔ out) else st.mark e' := by
      intro e'
      by_cases hee : e' = e
      · subst hee
        simp [markEdge, hbefore.mark_eq, hnot]
      · simp [markEdge, hbefore.mark_eq, hee]
    have hmem : ∀ a, ((∃ e' ∈ es ++ [e], c.target e' = a) ∧
        (acc.1.markEdge e out).tryAddToWorkList c a = true) ↔
        a ∈ acc.2 ∨ (a = c.target e ∧ (acc.1.markEdge e out).tryAddToWorkList c (c.target e) = true) := by
      intro a
      by_cases hae : a = c.target e
      · subst hae
        simp [hheld]
      · rw [hother a hae, hbefore.mem_iff]
        simp [hae, Ne.symm hae, List.mem_append, or_and_right, exists_or]
    by_cases hpush : (acc.1.markEdge e out).tryAddToWorkList c (c.target e) = true
    · simp only [hpush, if_true]
      refine ⟨hmark, hbefore.firstIter_eq, hbefore.fixed_eq, hbefore.headerState_eq,
        List.nodup_cons.mpr ⟨hheld, hbefore.nodup⟩, fun a => ?_⟩
      rw [List.mem_cons, hmem]
      simp [hpush, or_comm]
    · simp only [hpush]
      refine ⟨hmark, hbefore.firstIter_eq, hbefore.fixed_eq, hbefore.headerState_eq, hbefore.nodup,
        fun a => ?_⟩
      rw [show (if false = true then _ else _ : Store B E D × List B) = (acc.1.markEdge e out, acc.2) from rfl,
        hmem]
      simp [hpush]

/-! ### The exit edges of a fixed loop -/

/-- The result of leaving a loop on some of its exit edges, the blocks pushed included. -/
structure Left (c : Cfg B E) (p : Problem B D) (st : Store B E D) (b : B) (es : List E)
    (r : Store B E D × List B) : Prop where
  mark_eq : ∀ e, r.1.mark e = if e ∈ es then (st.mark e).map (p.leaveContext b .loop) else st.mark e
  firstIter_eq : r.1.firstIter = st.firstIter
  fixed_eq : r.1.fixed = st.fixed
  headerState_eq : r.1.headerState = st.headerState
  nodup : r.2.Nodup
  mem_iff : ∀ a, a ∈ r.2 ↔ (∃ e ∈ es, c.target e = a) ∧ st.tryAddToWorkList c a = true

theorem left_exitLoop [DecidableEq D] (hc : c.Consistent) (st : Store B E D) (b : B)
    (hmarked : ∀ e ∈ c.exitList b, (st.mark e).isSome) :
    ∃ r, st.exitLoop c p b = some r ∧ Left c p st b (c.exitList b) r := by
  have hnodup := hc.nodup_exitList b
  unfold exitLoop
  generalize c.exitList b = es at hnodup hmarked ⊢
  induction es using List.reverseRecOn with
  | nil => exact ⟨_, rfl, by constructor <;> simp⟩
  | append_singleton es e ih =>
    rw [List.nodup_append] at hnodup
    have hnot : e ∉ es := fun hmem => hnodup.2.2 e hmem e List.mem_cons_self rfl
    obtain ⟨acc, hacc, hbefore⟩ := ih hnodup.1 fun e' hmem => hmarked e' (List.mem_append_left _ hmem)
    obtain ⟨m, hm⟩ := Option.isSome_iff_exists.mp (hmarked e (List.mem_append_right _ List.mem_cons_self))
    have hsame : ∀ a, acc.1.tryAddToWorkList c a = st.tryAddToWorkList c a := by
      intro a
      refine tryAddToWorkList_congr hc a fun e' _ =>
        isEdgeDone_congr e' ?_ hbefore.fixed_eq hbefore.firstIter_eq
      rw [hbefore.mark_eq]
      split <;> simp
    have hmark : acc.1.mark e = some m := by rw [hbefore.mark_eq, if_neg hnot, hm]
    rw [List.foldlM_append, hacc]
    simp only [Option.bind_eq_bind, Option.bind_some, List.foldlM_cons, List.foldlM_nil, hmark]
    refine ⟨_, rfl, ?_, hbefore.firstIter_eq, hbefore.fixed_eq, hbefore.headerState_eq, ?_, ?_⟩
    · intro e'
      by_cases hee : e' = e
      · subst hee
        simp [hm]
      · simp [hbefore.mark_eq, hee]
    · dsimp only
      split
      case isTrue hpush =>
        simp only [Bool.and_eq_true, Bool.not_eq_true', List.contains_eq_mem, decide_eq_false_iff_not] at hpush
        exact List.nodup_cons.mpr ⟨hpush.1, hbefore.nodup⟩
      case isFalse => exact hbefore.nodup
    · intro a
      dsimp only
      split
      case isTrue hpush =>
        simp only [Bool.and_eq_true, hsame] at hpush
        simp only [List.mem_cons, hbefore.mem_iff, List.mem_append, List.not_mem_nil, or_false, or_and_right,
          exists_or, exists_eq_left]
        constructor
        · rintro (rfl | hbefore)
          · exact .inr ⟨rfl, hpush.2⟩
          · exact .inl hbefore
        · rintro (hbefore | ⟨rfl, -⟩)
          · exact .inr hbefore
          · exact .inl rfl
      case isFalse hpush =>
        simp only [Bool.and_eq_true, Bool.not_eq_true', List.contains_eq_mem, decide_eq_false_iff_not, hsame,
          not_and] at hpush
        simp only [hbefore.mem_iff, List.mem_append, List.mem_cons, List.not_mem_nil, or_false, or_and_right,
          exists_or, exists_eq_left]
        constructor
        · exact .inl
        · rintro (hbefore | ⟨rfl, hadd⟩)
          · exact hbefore
          · by_contra hno
            exact hpush (fun hmem => hno ((hbefore.mem_iff _).mp hmem)) hadd

/-! ### The input of a loop header -/

/-- The store after the input of a header, with the state `fixpoint` decided. -/
structure Entered (c : Cfg B E) (st : Store B E D) (b : B) (fixpoint : Bool) (x : D)
    (r : Store B E D) : Prop where
  mark_eq : ∀ e, r.mark e =
    if c.target e = b ∧ (fixpoint = true ∨ c.isBack e = true) then none else st.mark e
  firstIter_eq : r.firstIter = Function.update st.firstIter b fixpoint
  fixed_eq : r.fixed = Function.update st.fixed b fixpoint
  headerState_eq : r.headerState = Function.update st.headerState b (if fixpoint then none else some x)

theorem mem_backEdges (hc : c.Consistent) {e : E} :
    e ∈ c.backEdges b ↔ c.target e = b ∧ c.isBack e = true := by
  simp [Cfg.backEdges, hc.mem_inEdges]

theorem mem_entryEdges (hc : c.Consistent) {e : E} :
    e ∈ c.entryEdges b ↔ c.target e = b ∧ c.isBack e = false := by
  simp [Cfg.entryEdges, hc.mem_inEdges]

theorem entered_first [DecidableEq D] (hc : c.Consistent) {x : D} (hfirst : st.firstIter b = true)
    (hentry : st.entryEdgeUnion c p b = some x) :
    ∃ r, st.headerInput c p b = some (x, false, r) ∧ Entered c st b false x r := by
  have hentry' : entryEdgeUnion c p
      { st with headerState := Function.update st.headerState b (some ⊥) } b = some x := hentry
  simp only [headerInput, hfirst, fixPoint, hentry', if_true, Function.update_self, Function.update_idem,
    Option.bind_eq_bind, Option.bind_some]
  refine ⟨_, rfl, fun e => ?_, by simp, by simp, by simp⟩
  simp [unmarkEdges_mark, mem_backEdges hc]

theorem entered_again [DecidableEq D] (hc : c.Consistent) {x y s : D} (hfirst : st.firstIter b = false)
    (hstate : st.headerState b = some s) (hentry : st.entryEdgeUnion c p b = some x)
    (hback : union st.mark (c.backEdges b) = some y) :
    ∃ r, st.headerInput c p b = some (x ⊔ y, decide (x ⊔ y = s), r) ∧
      Entered c st b (decide (x ⊔ y = s)) (x ⊔ y) r := by
  simp only [headerInput, hfirst, fixPoint, hstate, hentry, backEdgeUnion, hback, Option.bind_eq_bind,
    Option.bind_some, Bool.false_eq_true, if_false, pure]
  by_cases hfix : x ⊔ y = s
  · simp only [hfix, decide_true, if_true]
    refine ⟨_, rfl, fun e => ?_, by simp, by simp, by simp⟩
    cases hisBack : c.isBack e <;> simp [unmarkEdges_mark, mem_backEdges hc, mem_entryEdges hc, hisBack]
  · simp only [hfix, decide_false, Bool.false_eq_true, if_false]
    refine ⟨_, rfl, fun e => ?_, by simp, by simp, by simp⟩
    simp [unmarkEdges_mark, mem_backEdges hc]

end Otawa.HalfAbsInt.Store
