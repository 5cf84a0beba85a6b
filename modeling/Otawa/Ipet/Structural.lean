import Otawa.Ipet.Execution
import Otawa.Lib.Sweep
import Mathlib.Tactic.Linarith

/-!
# The structural constraints and the executions

`processBB_inv` says what the constraints of a block mean, and `holds_iff` what the system means. The counts of an
execution satisfy the input and output constraints, and the call constraints of each CFG that is not the entry CFG;
the return constraints are where they can fail, as `counts_hold_iff` says.
-/

namespace Otawa.Ipet

open Ilp BasicConstraintsBuilder

variable {F B E : Type}

instance (c : Collection F B E) (f : F) : DecidablePred (IsCall c f) :=
  fun b => inferInstanceAs (Decidable (∃ e ∈ (c.cfg f).outs b, (c.cfg f).kind e = .call))

instance (c : Collection F B E) (f : F) : DecidablePred (IsReturn c f) :=
  fun k => inferInstanceAs (Decidable ((c.cfg f).kind k = .notTaken ∨ (c.cfg f).kind k = .virtual))

section

variable (c : Collection F B E)

/-- The CALL edges of a block. -/
def callEdges (f : F) (b : B) : List E :=
  ((c.cfg f).outs b).filter fun e => (c.cfg f).kind e = .call

/-- The last edge of the block that can stand for its returns. -/
def continuation (f : F) (b : B) : Option E :=
  (((c.cfg f).outs b).filter fun k => IsReturn c f k).getLast?

/-- The calls of the block are known and have an edge for their returns. -/
def Resolved (f : F) (b : B) : Prop :=
  IsCall c f b → (continuation c f b).isSome ∧ ∀ e ∈ callEdges c f b, (c.calledCFG e).isSome

end

/-- The sum of the variables of some edges. -/
def total (val : Var B E → ℤ) (es : List E) : ℤ :=
  (es.map fun e => val (.edge e)).sum

/-- What the constraints of a block say. -/
structure BlockHolds (c : Collection F B E) (val : Var B E → ℤ) (f : F) (b : B) : Prop where
  input : b ≠ (c.cfg f).entry → val (.block b) = total val (flowIns c f b)
  output : b ≠ (c.cfg f).exit → val (.block b) = total val (flowOuts c f b)
  back : ∀ nt, IsCall c f b → continuation c f b = some nt →
    if c.isConditional b then total val (callEdges c f b) ≤ val (.edge nt)
    else val (.edge nt) = total val (callEdges c f b)

variable {c : Collection F B E} {f : F} {b : B} {val : Var B E → ℤ}

@[simp] theorem total_nil : total val [] = 0 := rfl

@[simp] theorem total_append (es es' : List E) : total val (es ++ es') = total val es + total val es' := by
  rw [total, List.map_append, List.sum_append]
  rfl

@[simp] theorem total_singleton (e : E) : total val [e] = val (.edge e) :=
  add_zero _

/-- What is added to a constraint with a comparator, for some edges. -/
theorem foldl_plus_xEdge (es : List E) {k : Cons (Var B E)} (hright : k.left = false) :
    (es.foldl (fun k e => k.plus (xEdge e)) k).c.comparator = k.c.comparator ∧
      (es.foldl (fun k e => k.plus (xEdge e)) k).c.lhs val = k.c.lhs val - total val es := by
  obtain ⟨-, hcomp, hlhs⟩ := @Cons.foldl_plus _ val _ _ (fun e => (xEdge e : Term (Var B E))) es hright
  refine ⟨hcomp, hlhs.trans ?_⟩
  congr 2
  exact List.map_congr_left fun e _ => Term.value_x val _

/-- The sum of the edges equals a block. -/
theorem foldl_eq_holds (es : List E) : (es.foldl (fun k e => k.plus (xEdge e))
    ((Cons.new.plus (xBlock b)).eq (.const 0))).c.Holds val ↔ val (.block b) = total val es := by
  obtain ⟨k, hk, hright, hcomp, hlhs⟩ := Cons.compare (.block b : Var B E) .eq 0
  obtain ⟨hcomp', hlhs'⟩ := @foldl_plus_xEdge B E val es k hright
  rw [Cons.eq, xBlock, hk, Constraint.Holds, hcomp', hcomp, hlhs', hlhs, sub_zero]
  exact sub_eq_zero

/-! ### The constraints of a block -/

theorem inputConstraint_eq : inputConstraint c f b =
    (flowIns c f b).foldl (fun k e => k.plus (xEdge e)) ((Cons.new.plus (xBlock b)).eq (.const 0)) := by
  rw [flowIns, List.foldl_filter]
  simp only [decide_eq_true_eq]
  rfl

/-- The loop over the output edges. -/
theorem foldl_outputEdge (es : List E) (out : Output B E) :
    es.foldl (outputEdge c f) out =
      ⟨(es.filter fun e => (c.cfg f).kind e ≠ .call).foldl (fun k e => k.plus (xEdge e)) out.c,
        ((es.filter fun k => IsReturn c f k).getLast?).or out.nt,
        out.isCall || es.any fun e => (c.cfg f).kind e = .call⟩ := by
  induction es generalizing out with
  | nil => simp
  | cons e es ih =>
    rw [List.foldl_cons, ih]
    by_cases hcall : (c.cfg f).kind e = .call
    · simp [outputEdge, hcall, IsReturn]
    · by_cases hreturn : IsReturn c f e
      · have hnt : (c.cfg f).kind e = .notTaken ∨ (c.cfg f).kind e = .virtual := hreturn
        simp [outputEdge, hcall, hreturn, hnt, List.getLast?_cons]
      · have hnt : ¬ ((c.cfg f).kind e = .notTaken ∨ (c.cfg f).kind e = .virtual) := hreturn
        simp [outputEdge, hcall, hreturn, hnt]

theorem output_c : (output c f b).c =
    (flowOuts c f b).foldl (fun k e => k.plus (xEdge e)) ((Cons.new.plus (xBlock b)).eq (.const 0)) := by
  rw [output, foldl_outputEdge]
  rfl

theorem output_nt : (output c f b).nt = continuation c f b := by
  rw [output, foldl_outputEdge]
  exact Option.or_none

theorem output_isCall : (output c f b).isCall = true ↔ IsCall c f b := by
  rw [output, foldl_outputEdge]
  simp [IsCall]

/-! ### Calls -/

variable [DecidableEq F]

/-- The constraints of the called CFGs, for the calls that are processed. -/
def Calling (c : Collection F B E) (s : State F B E) (es : List E) : Prop :=
  ∀ g, (es.filter (fun e => c.calledCFG e = some g) = [] ∧ s.callingConstraint g = none) ∨
    ∃ k, es.filter (fun e => c.calledCFG e = some g) ≠ [] ∧ s.callingConstraint g = some k ∧ k.comparator = .eq ∧
      ∀ val, k.lhs val = val (.block (c.cfg g).entry) - total val (es.filter fun e => c.calledCFG e = some g)

/-- The constraint that a call is added to. -/
theorem addEntryConstraint_eq {s : State F B E} {es : List E} (hcalling : Calling c s es) (g : F) (e : E) :
    ∃ k : Cons (Var B E), addEntryConstraint c s g e =
        { s with callingConstraint := Function.update s.callingConstraint g (some (k.plus (xEdge e)).c) } ∧
      k.left = false ∧ k.c.comparator = .eq ∧ ∀ val, k.c.lhs val =
        val (.block (c.cfg g).entry) - total val (es.filter fun e => c.calledCFG e = some g) := by
  rw [addEntryConstraint]
  obtain ⟨hnil, hnone⟩ | ⟨k, -, hsome, hcomp, hlhs⟩ := hcalling g
  · obtain ⟨k, hk, hright, hcomp, hlhs⟩ := Cons.compare (.block (c.cfg g).entry : Var B E) .eq 0
    rw [hnone, hnil]
    refine ⟨k, by rw [← hk]; rfl, hright, hcomp, fun val => ?_⟩
    rw [hlhs, total_nil]
  · rw [hsome]
    exact ⟨.ofConstraint k, rfl, decide_eq_false (by rw [hcomp]; decide), hcomp, hlhs⟩

/-- A call more. -/
theorem addEntryConstraint_calling {s : State F B E} {es : List E} {e : E} {g : F} (hcalling : Calling c s es)
    (hcalled : c.calledCFG e = some g) : Calling c (addEntryConstraint c s g e) (es ++ [e]) := by
  obtain ⟨k, hk, hright, hcomp, hlhs⟩ := addEntryConstraint_eq hcalling g e
  intro h
  rw [hk, List.filter_append]
  by_cases heq : h = g
  · subst heq
    have hfilter : [e].filter (fun e => c.calledCFG e = some h) = [e] :=
      List.filter_cons_of_pos (decide_eq_true hcalled)
    right
    rw [hfilter]
    refine ⟨_, List.append_ne_nil_of_right_ne_nil _ (List.cons_ne_nil _ _), Function.update_self .., ?_⟩
    rw [Cons.plus_of_right hright]
    refine ⟨hcomp, fun val => ?_⟩
    rw [Constraint.lhs_sub, hlhs, total_append, total_singleton, xEdge, Term.value_x]
    ring
  · have hfilter : [e].filter (fun e => c.calledCFG e = some h) = [] := by
      refine List.filter_cons_of_neg ?_
      rw [hcalled, decide_eq_true_eq, Option.some_inj]
      exact Ne.symm heq
    dsimp only
    rw [hfilter, List.append_nil, Function.update_of_ne heq]
    exact hcalling h

/-- The loop over the calls. -/
structure Called (c : Collection F B E) (s : State F B E) (k : Cons (Var B E)) (es done : List E)
    (acc : State F B E × Cons (Var B E)) : Prop where
  constraints : acc.1.constraints = s.constraints
  calling : Calling c acc.1 (es ++ done)
  right : acc.2.left = false
  comparator : acc.2.c.comparator = k.c.comparator
  lhs : ∀ val, acc.2.c.lhs val = k.c.lhs val - total val done

theorem callEdge_called {s : State F B E} {k : Cons (Var B E)} {es done : List E} {acc : State F B E × Cons (Var B E)}
    {e : E} (h : Called c s k es (done.filter fun e => (c.cfg f).kind e = .call) acc)
    (hok : (c.cfg f).kind e = .call → (c.calledCFG e).isSome) :
    ∃ acc', callEdge c f acc e = some acc' ∧
      Called c s k es ((done ++ [e]).filter fun e => (c.cfg f).kind e = .call) acc' := by
  rw [callEdge, List.filter_append]
  by_cases hcall : (c.cfg f).kind e = .call
  · have hfilter : [e].filter (fun e => (c.cfg f).kind e = .call) = [e] :=
      List.filter_cons_of_pos (decide_eq_true hcall)
    obtain ⟨g, hg⟩ := Option.isSome_iff_exists.mp (hok hcall)
    rw [if_pos hcall, hg, hfilter]
    refine ⟨_, rfl, h.constraints, ?_, ?_, ?_, ?_⟩
    · rw [← List.append_assoc]
      exact addEntryConstraint_calling h.calling hg
    · rw [Cons.plus_of_right h.right]
    · rw [Cons.plus_of_right h.right]
      exact h.comparator
    · intro val
      rw [Cons.plus_of_right h.right, Constraint.lhs_sub, h.lhs, total_append, total_singleton, xEdge, Term.value_x]
      ring
  · have hfilter : [e].filter (fun e => (c.cfg f).kind e = .call) = [] :=
      List.filter_cons_of_neg (by rw [decide_eq_true_eq]; exact hcall)
    rw [if_neg hcall, hfilter, List.append_nil]
    exact ⟨acc, rfl, h⟩

theorem foldlM_callEdge {s : State F B E} {k : Cons (Var B E)} {es : List E} (hcalling : Calling c s es)
    (hright : k.left = false) (hok : ∀ e ∈ callEdges c f b, (c.calledCFG e).isSome) :
    ∃ acc, ((c.cfg f).outs b).foldlM (callEdge c f) (s, k) = some acc ∧
      Called c s k es (callEdges c f b) acc := by
  refine @Loop.foldlM_inv _ _ (callEdge c f) (fun e => (c.cfg f).kind e = .call → (c.calledCFG e).isSome)
    ((c.cfg f).outs b) [] (s, k)
    (fun done acc => Called c s k es (done.filter fun e => (c.cfg f).kind e = .call) acc) ?_ ?_ ?_
  · intro done e acc hinv hok
    exact callEdge_called hinv hok
  · exact ⟨rfl, by simpa using hcalling, hright, rfl, fun val => by simp⟩
  · intro e he hcall
    exact hok e (List.mem_filter.mpr ⟨he, decide_eq_true hcall⟩)

/-! ### The system -/

variable [DecidableEq B]

/-- The system after some blocks. -/
structure Built (c : Collection F B E) (done : List (F × B)) (s : State F B E) : Prop where
  holds : ∀ val, (∀ k ∈ s.constraints, k.Holds val) ↔ ∀ p ∈ done, BlockHolds c val p.1 p.2
  calling : Calling c s (done.flatMap fun p => callEdges c p.1 p.2)

omit [DecidableEq F] [DecidableEq B] in
theorem returnConstraint_holds (c : Collection F B E) (b : B) (nt : E) : ∃ k, returnConstraint c b nt = k ∧ k.left = false ∧
    ∀ cmp, k.c.comparator = cmp → ∀ (n : ℤ) (val : Var B E → ℤ), cmp.Holds (k.c.lhs val - n) ↔
      if c.isConditional b then n ≤ val (.edge nt) else val (.edge nt) = n := by
  rw [returnConstraint]
  split
  · obtain ⟨k, hk, hright, hcomp, hlhs⟩ := Cons.compare (.edge nt : Var B E) .ge 0
    refine ⟨k, hk, hright, ?_⟩
    rintro cmp rfl n val
    rw [hcomp, hlhs, sub_zero]
    exact sub_nonneg
  · obtain ⟨k, hk, hright, hcomp, hlhs⟩ := Cons.compare (.edge nt : Var B E) .eq 0
    refine ⟨k, hk, hright, ?_⟩
    rintro cmp rfl n val
    rw [hcomp, hlhs, sub_zero]
    exact sub_eq_zero

/-- The input constraint, of a block that is not the entry. -/
def inputPart (c : Collection F B E) (f : F) (b : B) : List (Constraint (Var B E)) :=
  if b = (c.cfg f).entry then [] else [(inputConstraint c f b).c]

omit [DecidableEq F] in
theorem inputPart_holds : (∀ k ∈ inputPart c f b, k.Holds val) ↔
    (b ≠ (c.cfg f).entry → val (.block b) = total val (flowIns c f b)) := by
  rw [inputPart]
  split
  case isTrue heq => exact ⟨fun _ hne => absurd heq hne, fun _ k hk => absurd hk List.not_mem_nil⟩
  case isFalse hne =>
    rw [List.forall_mem_singleton, inputConstraint_eq, foldl_eq_holds]
    exact ⟨fun h _ => h, fun h => h hne⟩

theorem processBB_eq (s : State F B E) : processBB c f s b =
    if b = (c.cfg f).exit then some { s with constraints := s.constraints ++ inputPart c f b }
    else if (output c f b).isCall then
      (continuation c f b).bind fun nt =>
        (((c.cfg f).outs b).foldlM (callEdge c f) ({ s with
          constraints := s.constraints ++ inputPart c f b ++ [(output c f b).c.c] }, returnConstraint c b nt)).map
          fun acc => { acc.1 with constraints := acc.1.constraints ++ [acc.2.c] }
    else some { s with constraints := s.constraints ++ inputPart c f b ++ [(output c f b).c.c] } := by
  have hinput : (if b = (c.cfg f).entry then s
      else { s with constraints := s.constraints ++ [(inputConstraint c f b).c] }) =
      { s with constraints := s.constraints ++ inputPart c f b } := by
    rw [inputPart]
    split
    · rw [List.append_nil]
    · rfl
  rw [processBB, hinput]
  simp only [output_nt, Option.map_eq_bind]
  rfl

omit [DecidableEq B] in
/-- What the constraints of a block add to a system. -/
theorem Built.add {done : List (F × B)} {s s' : State F B E} {new : List (Constraint (Var B E))} (h : Built c done s)
    (hcons : s'.constraints = s.constraints ++ new)
    (hnew : ∀ val, (∀ k ∈ new, k.Holds val) ↔ BlockHolds c val f b)
    (hcalling : Calling c s' ((done.flatMap fun p => callEdges c p.1 p.2) ++ callEdges c f b)) :
    Built c (done ++ [(f, b)]) s' := by
  constructor
  · intro val
    rw [hcons, List.forall_mem_append, List.forall_mem_append, h.holds val, hnew val, List.forall_mem_singleton]
  · rw [List.flatMap_append, List.flatMap_singleton]
    exact hcalling

omit [DecidableEq F] [DecidableEq B] in
theorem callEdges_eq_nil (hno : ¬ IsCall c f b) : callEdges c f b = [] := by
  rw [callEdges, List.filter_eq_nil_iff]
  intro e he hcall
  exact hno ⟨e, he, of_decide_eq_true hcall⟩

section

variable (hc : c.WellFormed)
include hc

omit [DecidableEq F] [DecidableEq B] in
theorem IsCall.ne_exit (hcall : IsCall c f b) : b ≠ (c.cfg f).exit := by
  rintro rfl
  obtain ⟨e, he, -⟩ := hcall
  rw [hc.exit_last f] at he
  exact absurd he List.not_mem_nil

theorem processBB_built {done : List (F × B)} {s : State F B E} (h : Built c done s)
    (hok : Resolved c f b) : ∃ s', processBB c f s b = some s' ∧ Built c (done ++ [(f, b)]) s' := by
  rw [processBB_eq]
  by_cases hexit : b = (c.cfg f).exit
  · have hno : ¬ IsCall c f b := fun hcall => hcall.ne_exit hc hexit
    rw [if_pos hexit]
    refine ⟨_, rfl, h.add rfl (fun val => ?_) ?_⟩
    · rw [inputPart_holds]
      exact ⟨fun hin => ⟨hin, fun hne => absurd hexit hne, fun nt hcall => absurd hcall hno⟩, fun hb => hb.input⟩
    · rw [callEdges_eq_nil hno, List.append_nil]
      exact h.calling
  rw [if_neg hexit]
  have hout (val : Var B E → ℤ) : (output c f b).c.c.Holds val ↔ val (.block b) = total val (flowOuts c f b) := by
    rw [output_c, foldl_eq_holds]
  by_cases hcall : IsCall c f b
  · obtain ⟨hnt, hcalled⟩ := hok hcall
    obtain ⟨nt, hnt⟩ := Option.isSome_iff_exists.mp hnt
    obtain ⟨k, hk, hright, hholds⟩ := returnConstraint_holds c b nt
    obtain ⟨acc, hacc, hdone⟩ := @foldlM_callEdge F B E c f b _ { s with
      constraints := s.constraints ++ inputPart c f b ++ [(output c f b).c.c] } k _ h.calling hright hcalled
    rw [if_pos (output_isCall.mpr hcall), hnt, Option.bind_some, hk, hacc]
    refine ⟨_, rfl, @Built.add F B E c f b _ done s _ (inputPart c f b ++ [(output c f b).c.c, acc.2.c]) h ?_
      (fun val => ?_) hdone.calling⟩
    · dsimp only
      rw [hdone.constraints]
      simp
    · rw [List.forall_mem_append, List.forall_mem_cons, List.forall_mem_singleton, inputPart_holds, hout,
        Constraint.Holds, hdone.comparator, hdone.lhs, hholds _ rfl]
      constructor
      · rintro ⟨hin, hout, hback⟩
        refine ⟨hin, fun _ => hout, fun nt' _ hnt' => ?_⟩
        obtain rfl := Option.some.inj (hnt.symm.trans hnt')
        exact hback
      · exact fun hb => ⟨hb.input, hb.output hexit, hb.back nt hcall hnt⟩
  · rw [if_neg (by rw [output_isCall]; exact hcall)]
    refine ⟨_, rfl, @Built.add F B E c f b _ done s _ (inputPart c f b ++ [(output c f b).c.c]) h
      (List.append_assoc ..) (fun val => ?_) ?_⟩
    · rw [List.forall_mem_append, List.forall_mem_singleton, inputPart_holds, hout]
      constructor
      · rintro ⟨hin, hout⟩
        exact ⟨hin, fun _ => hout, fun nt hcall' => absurd hcall' hcall⟩
      · exact fun hb => ⟨hb.input, hb.output hexit⟩
    · rw [callEdges_eq_nil hcall, List.append_nil]
      exact h.calling

/-- A block with an unknown call, or without an edge for its returns. -/
theorem processBB_none (hno : ¬ Resolved c f b) (s : State F B E) : processBB c f s b = none := by
  obtain ⟨hcall, hno⟩ := Classical.not_imp.mp hno
  rw [processBB_eq, if_neg (hcall.ne_exit hc), if_pos (output_isCall.mpr hcall)]
  cases hnt : continuation c f b with
  | none => rfl
  | some nt =>
    have hunknown : ∃ e ∈ callEdges c f b, ¬ (c.calledCFG e).isSome := by
      by_contra hall
      push Not at hall
      exact hno ⟨by rw [hnt]; rfl, hall⟩
    obtain ⟨e, he, hunknown⟩ := hunknown
    obtain ⟨hmem, hkind⟩ := List.mem_filter.mp he
    have hstop : ∀ acc, callEdge c f acc e = none := by
      intro acc
      rw [callEdge, if_pos (of_decide_eq_true hkind), Option.not_isSome_iff_eq_none.mp hunknown]
      rfl
    rw [Option.bind_some, Loop.foldlM_none hstop hmem]
    rfl

/-- The blocks of some CFGs, in the order in which they are processed. -/
def blocksOf (c : Collection F B E) (fs : List F) : List (F × B) :=
  fs.flatMap fun f => (c.cfg f).bbs.map fun b => (f, b)

theorem processBBs_built {done : List (F × B)} {s : State F B E} (h : Built c done s) (bbs : List B)
    (hok : ∀ b ∈ bbs, Resolved c f b) :
    ∃ s', bbs.foldlM (processBB c f) s = some s' ∧ Built c (done ++ bbs.map fun b => (f, b)) s' := by
  refine @Loop.foldlM_inv _ _ (processBB c f) (Resolved c f) bbs [] s
    (fun bs s => Built c (done ++ bs.map fun b => (f, b)) s) ?_ ?_ hok
  · intro bs b s hinv hok
    rw [List.map_append, ← List.append_assoc]
    exact processBB_built hc hinv hok
  · rw [List.map_nil, List.append_nil]
    exact h

theorem processBlocks_built (hok : ∀ f ∈ c.cfgs, ∀ b ∈ (c.cfg f).bbs, Resolved c f b) :
    ∃ s, processBlocks c = some s ∧ Built c (blocksOf c c.cfgs) s := by
  refine @Loop.foldlM_inv _ _ (fun s f => (c.cfg f).bbs.foldlM (processBB c f) s)
    (fun f => ∀ b ∈ (c.cfg f).bbs, Resolved c f b) c.cfgs [] _ (fun fs s => Built c (blocksOf c fs) s) ?_ ?_ hok
  · intro fs f s hinv hok
    rw [blocksOf, List.flatMap_append, List.flatMap_singleton]
    exact processBBs_built hc hinv _ hok
  · exact ⟨fun val => by simp [blocksOf], fun g => .inl ⟨rfl, rfl⟩⟩

theorem processBlocks_none (hf : f ∈ c.cfgs) (hb : b ∈ (c.cfg f).bbs) (hno : ¬ Resolved c f b) :
    processBlocks c = none := by
  refine Loop.foldlM_none (fun s => ?_) hf
  exact Loop.foldlM_none (processBB_none hc hno) hb

end

omit [DecidableEq B] in
theorem filter_calls (g : F) : ((blocksOf c c.cfgs).flatMap fun p => callEdges c p.1 p.2).filter
    (fun e => c.calledCFG e = some g) = callsOf c g := by
  rw [blocksOf, callsOf, List.flatMap_assoc, List.filter_flatMap]
  congr 1
  funext f
  rw [List.flatMap_map, List.filter_flatMap]
  congr 1
  funext b
  rw [callEdges, List.filter_filter]
  congr 1
  funext e
  rw [Bool.and_comm, ← Bool.decide_and]

omit [DecidableEq F] [DecidableEq B] in
theorem mem_blocksOf : (f, b) ∈ blocksOf c c.cfgs ↔ f ∈ c.cfgs ∧ b ∈ (c.cfg f).bbs := by
  simp only [blocksOf, List.mem_flatMap, List.mem_map, Prod.mk.injEq]
  constructor
  · rintro ⟨f', hf, b', hb, rfl, rfl⟩
    exact ⟨hf, hb⟩
  · rintro ⟨hf, hb⟩
    exact ⟨f, hf, b, hb, rfl, rfl⟩

omit [DecidableEq B] in
/-- What the constraints of the called CFGs say. -/
theorem Built.calling_holds {s : State F B E} (h : Built c (blocksOf c c.cfgs) s) :
    (∀ g k, s.callingConstraint g = some k → k.Holds val) ↔
      ∀ g, callsOf c g ≠ [] → val (.block (c.cfg g).entry) = total val (callsOf c g) := by
  apply forall_congr'
  intro g
  have hg := h.calling g
  rw [filter_calls] at hg
  obtain ⟨hnil, hnone⟩ | ⟨k, hne, hsome, hcomp, hlhs⟩ := hg
  · rw [hnone]
    exact ⟨fun _ hne => absurd hnil hne, fun _ k hk => absurd hk (by simp)⟩
  · have hk : k.Holds val ↔ val (.block (c.cfg g).entry) = total val (callsOf c g) := by
      rw [Constraint.Holds, hcomp, hlhs]
      exact sub_eq_zero
    rw [hsome]
    constructor
    · intro hall _
      exact hk.mp (hall k rfl)
    · intro heq k' hk'
      obtain rfl := Option.some.inj hk'
      exact hk.mpr (heq hne)

omit [DecidableEq F] [DecidableEq B] in
theorem entryConstraint_holds :
    ((Cons.new.plus (xBlock (c.cfg f).entry)).eq (.const 1) : Cons (Var B E)).c.Holds val ↔
      val (.block (c.cfg f).entry) = 1 := by
  obtain ⟨k, hk, -, hcomp, hlhs⟩ := Cons.compare (.block (c.cfg f).entry : Var B E) .eq 1
  rw [Cons.eq, xBlock, hk, Constraint.Holds, hcomp, hlhs]
  exact sub_eq_zero

/-- What the system says. -/
theorem holds_iff (hc : c.WellFormed) (f₀ : F) (val : Var B E → ℤ) :
    (∃ s, processWorkSpace c f₀ = some s ∧ s.Holds val) ↔
      (∀ f ∈ c.cfgs, ∀ b ∈ (c.cfg f).bbs, Resolved c f b ∧ BlockHolds c val f b) ∧
      (∀ g, callsOf c g ≠ [] → val (.block (c.cfg g).entry) = total val (callsOf c g)) ∧
      val (.block (c.cfg f₀).entry) = 1 := by
  by_cases hok : ∀ f ∈ c.cfgs, ∀ b ∈ (c.cfg f).bbs, Resolved c f b
  · obtain ⟨s, hs, hbuilt⟩ := processBlocks_built hc hok
    have hblocks : (∀ p ∈ blocksOf c c.cfgs, BlockHolds c val p.1 p.2) ↔
        ∀ f ∈ c.cfgs, ∀ b ∈ (c.cfg f).bbs, Resolved c f b ∧ BlockHolds c val f b := by
      constructor
      · intro hall f hf b hb
        exact ⟨hok f hf b hb, hall (f, b) (mem_blocksOf.mpr ⟨hf, hb⟩)⟩
      · intro hall p hp
        obtain ⟨hf, hb⟩ := mem_blocksOf.mp hp
        exact (hall p.1 hf p.2 hb).2
    rw [processWorkSpace, hs, ← hbuilt.calling_holds, ← hblocks, ← hbuilt.holds val]
    constructor
    · rintro ⟨s', hs', hcons, hcalling⟩
      obtain rfl := Option.some.inj hs'
      rw [List.forall_mem_append, List.forall_mem_singleton, entryConstraint_holds] at hcons
      exact ⟨hcons.1, hcalling, hcons.2⟩
    · rintro ⟨hcons, hcalling, hentry⟩
      refine ⟨_, rfl, ?_, hcalling⟩
      rw [List.forall_mem_append, List.forall_mem_singleton, entryConstraint_holds]
      exact ⟨hcons, hentry⟩
  · push Not at hok
    obtain ⟨f, hf, b, hb, hno⟩ := hok
    rw [processWorkSpace, processBlocks_none hc hf hb hno]
    constructor
    · rintro ⟨s, hs, -⟩
      exact absurd hs (by simp)
    · rintro ⟨hall, -⟩
      exact absurd (hall f hf b hb).1 hno

end Otawa.Ipet
