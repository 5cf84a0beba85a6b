import Otawa.Ipet.Returns
import Mathlib.Algebra.BigOperators.Group.Finset.Piecewise
import Mathlib.Algebra.Order.BigOperators.Group.List

/-!
# `BasicObjectFunctionBuilder` and the WCET

The object function counts the time of a block for each edge that comes to it. For the counts of an execution it is the
time of the execution, so the WCET that a solver finds bounds each execution whose counts it may choose.
-/

namespace Otawa.Ipet

open Ilp BasicConstraintsBuilder

variable {F B E : Type}

/-- `TIME` of the blocks and of the edges, negative where there is none. -/
structure Times (B E : Type) where
  block : B → ℤ
  edge : E → ℤ

/-- The value of an object function. -/
def objective (val : Var B E → ℤ) (ofun : List (Term (Var B E))) : ℤ :=
  (ofun.map fun t => t.value val).sum

namespace BasicObjectFunctionBuilder

variable (c : Collection F B E) (times : Times B E)

/-- The time of a block that is come to by an edge. -/
def time (bb : B) (edge : E) : ℤ :=
  if 0 ≤ times.edge edge then times.edge edge else times.block bb

/-- One turn of the loop over the input edges. A block without a time raises an exception. -/
def inputEdge (bb : B) (ofun : List (Term (Var B E))) (edge : E) : Option (List (Term (Var B E))) :=
  if time times bb edge < 0 then none else some (ofun ++ [⟨time times bb edge, some (.edge edge)⟩])

variable [DecidableEq B]

def processBB (f : F) (ofun : List (Term (Var B E))) (bb : B) : Option (List (Term (Var B E))) :=
  if c.isEnd f bb then some ofun else ((c.cfg f).ins bb).foldlM (inputEdge times bb) ofun

/-- `BBProcessor::processWorkSpace`: the blocks of all CFGs. -/
def processWorkSpace : Option (List (Term (Var B E))) :=
  c.cfgs.foldlM (fun ofun f => (c.cfg f).bbs.foldlM (processBB c times f) ofun) []

end BasicObjectFunctionBuilder

/-- `WCETComputation::processWorkSpace`, for what `solve` returns: the value of the system when there is a solution. -/
def WCETComputation.processWorkSpace (solution : Option ℤ) : ℤ :=
  solution.getD (-1)

open BasicObjectFunctionBuilder (time inputEdge)

section

variable [DecidableEq B] (c : Collection F B E)

/-- The input edges of a block that is no end of its CFG. -/
def inputs (f : F) (b : B) : List E :=
  if c.isEnd f b then [] else (c.cfg f).ins b

/-- The edges that come to blocks which take time. -/
def inner : List E :=
  c.cfgs.flatMap fun f => (c.cfg f).bbs.flatMap (inputs c f)

/-- The time that an event takes: the one of the block that it comes to. -/
def spent [DecidableEq E] (times : Times B E) (f : F) : Event B E → ℤ
  | .block _ => 0
  | .pass k | .call _ k => if k ∈ inner c then time times ((c.cfg f).target k) k else 0

end

/-- A CALL edge is an input of no block but an entry. -/
def CallsEnter (c : Collection F B E) : Prop :=
  ∀ f, ∀ b ∈ (c.cfg f).bbs, ∀ e ∈ (c.cfg f).ins b, (c.cfg f).kind e = .call → b = (c.cfg f).entry

variable [DecidableEq B] {c : Collection F B E} {times : Times B E} {f f₀ : F} {b : B} {e : E}
  {l : List (Event B E)} {ofun r : List (Term (Var B E))}

/-! ### The terms -/

/-- A loop that adds terms. -/
theorem foldlM_append {α β : Type} {step : List β → α → Option (List β)} {add : α → List β} {l : List α} {acc r : List β}
    (hstep : ∀ a ∈ l, ∀ acc r, step acc a = some r → r = acc ++ add a) (h : l.foldlM step acc = some r) :
    r = acc ++ l.flatMap add := by
  induction l generalizing acc with
  | nil =>
    cases h
    exact (List.append_nil _).symm
  | cons a l ih =>
    obtain ⟨acc', hacc', h⟩ := Option.bind_eq_some_iff.mp h
    rw [ih (fun a' ha' => hstep a' (List.mem_cons_of_mem a ha')) h, hstep a List.mem_cons_self _ _ hacc',
      List.append_assoc, List.flatMap_cons]

section

variable (hc : c.WellFormed) (hl : Linked c) (hcalls : CallsEnter c)

include hc hcalls

theorem flow_of_inputs (hb : b ∈ (c.cfg f).bbs) (he : e ∈ inputs c f b) :
    (c.cfg f).kind e ≠ .call ∧ (c.cfg f).target e = b := by
  rw [inputs] at he
  split at he
  case isTrue => exact absurd he List.not_mem_nil
  case isFalse hend =>
    have hkind : (c.cfg f).kind e ≠ .call := fun hcall => hend (by simp [Collection.isEnd, hcalls f b hb e he hcall])
    exact ⟨hkind, ((hc.cfg f).mem_ins e b hkind).mp he⟩

include hl

theorem target_of_inputs (hb : b ∈ (c.cfg f).bbs) (he : e ∈ inputs c f b) (g : F) : (c.cfg g).target e = b := by
  rw [hl.target g f]
  exact (flow_of_inputs hc hcalls hb he).2

theorem processBB_terms (hb : b ∈ (c.cfg f).bbs) (h : BasicObjectFunctionBuilder.processBB c times f ofun b = some r) :
    r = ofun ++ (inputs c f b).map fun e => ⟨time times ((c.cfg f₀).target e) e, some (.edge e)⟩ := by
  have htarget {e : E} := fun he => @target_of_inputs F B E _ c f b e hc hl hcalls hb he f₀
  unfold BasicObjectFunctionBuilder.processBB at h
  unfold inputs at *
  split at h
  case isTrue hend =>
    cases h
    rw [if_pos hend]
    exact (List.append_nil ofun).symm
  case isFalse hend =>
    rw [if_neg hend] at *
    rw [List.map_eq_flatMap]
    refine foldlM_append ?_ h
    intro e he ofun r hr
    unfold inputEdge at hr
    rw [htarget he]
    split at hr <;> cases hr
    rfl

/-- The object function counts each edge with its time. -/
theorem objective_eq (h : BasicObjectFunctionBuilder.processWorkSpace c times = some ofun) (f₀ : F) :
    ofun = (inner c).map fun e => ⟨time times ((c.cfg f₀).target e) e, some (.edge e)⟩ := by
  rw [inner, List.map_flatMap]
  simp only [List.map_flatMap]
  refine foldlM_append ?_ h
  intro f _ ofun r hr
  exact foldlM_append (fun b hb _ _ => processBB_terms hc hl hcalls hb) hr

theorem nodup_inner : (inner c).Nodup := by
  have htarget {f : F} {b : B} (hb : b ∈ (c.cfg f).bbs) {e : E} := @target_of_inputs F B E _ c f b e hc hl hcalls hb
  rw [inner, List.nodup_flatMap]
  constructor
  · intro f _
    rw [List.nodup_flatMap]
    constructor
    · intro b _
      unfold inputs
      split
      · exact List.nodup_nil
      · exact hl.nodup_ins f b
    · refine (hc.cfg f).nodup_bbs.imp_of_mem fun hb hb' hne e he he' => ?_
      exact hne ((htarget hb he f).symm.trans (htarget hb' he' f))
  · refine hl.nodup_cfgs.imp fun {f f'} hne e he he' => ?_
    obtain ⟨b, hb, he⟩ := List.mem_flatMap.mp he
    obtain ⟨b', hb', he'⟩ := List.mem_flatMap.mp he'
    obtain rfl : b = b' := (htarget hb he f).symm.trans (htarget hb' he' f)
    exact hne (hc.disjoint f f' b hb hb')

end

/-! ### The time of an execution -/

variable [DecidableEq E]

theorem sum_worth {es : List E} (hnodup : es.Nodup) (worth : E → ℤ) (k : E) :
    (es.map fun e => if k = e then worth e else 0).sum = if k ∈ es then worth k else 0 := by
  rw [← List.sum_toFinset _ hnodup]
  simp

/-- The object function of the counts of an execution is its time. -/
theorem Run.objective_counts (hc : c.WellFormed) (hl : Linked c) (hcalls : CallsEnter c) (run : Run c f b l)
    (h : BasicObjectFunctionBuilder.processWorkSpace c times = some ofun) (f₀ : F) :
    objective (counts l) ofun = charge (spent c times f₀) l := by
  have hnodup := nodup_inner hc hl hcalls
  rw [objective_eq hc hl hcalls h f₀, objective, List.map_map]
  change ((inner c).map fun e => time times ((c.cfg f₀).target e) e * counts l (.edge e)).sum = _
  induction run with
  | exit f => simp [Event.weight, spent]
  | pass _ _ _ _ ih => simp [Event.weight, spent, mul_add, ih, sum_worth hnodup]
  | @call f _ _ e _ _ _ _ hcall _ _ _ _ _ ih ih' =>
    have hout : e ∉ inner c := by
      intro he
      obtain ⟨f', -, he⟩ := List.mem_flatMap.mp he
      obtain ⟨b', hb', he⟩ := List.mem_flatMap.mp he
      exact (flow_of_inputs hc hcalls hb' he).1 (hl.kind f' f ▸ hcall)
    simp [Event.weight, spent, mul_add, ih, ih', sum_worth hnodup, hout]

theorem counts_nonneg (l : List (Event B E)) (v : Var B E) : 0 ≤ counts l v := by
  refine List.sum_nonneg fun n hn => ?_
  obtain ⟨ev, -, rfl⟩ := List.mem_map.mp hn
  cases ev <;> cases v <;> simp only [Event.weight] <;> positivity

/-- What a solver may choose: it has no negative variables. -/
def feasible (s : State F B E) (more : List (Constraint (Var B E))) : Set (Var B E → ℤ) :=
  { val | (∀ v, 0 ≤ val v) ∧ s.Holds val ∧ ∀ k ∈ more, k.Holds val }

/-- The value of the object function is the time of the execution, and the WCET bounds it for each execution that
satisfies the constraints. -/
theorem Run.time_le_wcet (hc : c.WellFormed) (hl : Linked c) (hcalls : CallsEnter c)
    (run : Run c f₀ (c.cfg f₀).entry l) {s : State F B E} {more : List (Constraint (Var B E))} (hs : s.Holds (counts l))
    (hmore : ∀ k ∈ more, k.Holds (counts l)) (h : BasicObjectFunctionBuilder.processWorkSpace c times = some ofun)
    {wcet : ℤ} (solved : IsGreatest ((objective · ofun) '' feasible s more) wcet) :
    objective (counts l) ofun = charge (spent c times f₀) l ∧
      charge (spent c times f₀) l ≤ WCETComputation.processWorkSpace (some wcet) := by
  have htime := run.objective_counts hc hl hcalls h f₀
  rw [← htime]
  exact ⟨rfl, solved.2 (Set.mem_image_of_mem _ ⟨counts_nonneg l, hs, hmore⟩)⟩

/-- The first block takes 5 cycles. -/
def jumpTimes : Times (Fin 7) (Fin 7) :=
  ⟨fun b => if b.val = 1 then 5 else 0, fun _ => -1⟩

theorem Run.time_le_wcet_fall : ∃ s ofun, processWorkSpace jump false = some s ∧
    BasicObjectFunctionBuilder.processWorkSpace jump jumpTimes = some ofun ∧
    objective (counts fallRun) ofun = charge (spent jump jumpTimes false) fallRun ∧
    charge (spent jump jumpTimes false) fallRun ≤ WCETComputation.processWorkSpace (some 5) := by
  have hcalls : CallsEnter jump := by
    unfold CallsEnter
    decide
  obtain ⟨s, hs, hall⟩ := (Option.any_eq_true (fun s : State Bool (Fin 7) (Fin 7) =>
    decide ((∀ k ∈ s.constraints, k.Holds (counts fallRun)) ∧
      ∀ f, ∀ k ∈ s.callingConstraint f, k.Holds (counts fallRun))) (processWorkSpace jump false)).mp (by decide)
  obtain ⟨hconstraints, hcalling⟩ := of_decide_eq_true hall
  have hholds : s.Holds (counts fallRun) := ⟨hconstraints, hcalling⟩
  have hofun : BasicObjectFunctionBuilder.processWorkSpace jump jumpTimes =
      some [⟨5, some (.edge 0)⟩, ⟨0, some (.edge 3)⟩, ⟨0, some (.edge 5)⟩] := rfl
  refine ⟨s, _, hs, hofun,
    run_fall.time_le_wcet jump_wellFormed jump_linked hcalls hholds (List.forall_mem_nil _) hofun ⟨?_, ?_⟩⟩
  · exact ⟨counts fallRun, ⟨counts_nonneg _, hholds, List.forall_mem_nil _⟩, by decide⟩
  · rintro _ ⟨val, ⟨-, hval, -⟩, rfl⟩
    obtain ⟨hblocks, -, hone⟩ := (holds_iff jump_wellFormed false val).mp ⟨s, hs, hval⟩
    have hout := (hblocks false (by decide) 0 (by decide)).2.output (by decide)
    have hflow : flowOuts jump false 0 = [0] := by decide
    rw [hflow, total_singleton, show val (.block 0) = 1 from hone] at hout
    simp [objective, Term.value, ← hout]

end Otawa.Ipet
