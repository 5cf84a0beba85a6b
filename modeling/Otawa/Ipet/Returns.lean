import Otawa.Ipet.Structural
import Mathlib.Data.Fin.VecNotation

/-!
# The return constraints

The edge `nt` of a calling block counts the returns along it and the times it is taken without a call. A call that
returns along another edge of its block is not among them: `Run.counts_hold_iff` says that the counts of an
execution satisfy the system if and only if these strays are no more than what `nt` is taken without a call, the
calls can be built, and nothing calls the entry CFG.
-/

namespace Otawa.Ipet

open Ilp BasicConstraintsBuilder

variable {F B E : Type} [DecidableEq B] [DecidableEq E] {c : Collection F B E} {f f₀ : F} {b b₀ : B} {nt : E}
  {l : List (Event B E)}

/-- A call of a block returns along another edge than `nt`. -/
def Event.strays (outs : List E) (nt : E) : Event B E → ℤ
  | .call e k => if e ∈ outs ∧ k ≠ nt then 1 else 0
  | _ => 0

/-- The edge is taken without a call. -/
def Event.passes (nt : E) : Event B E → ℤ
  | .pass k => if k = nt then 1 else 0
  | _ => 0

/-- What an execution meets where its counts satisfy the system. -/
structure Fits (c : Collection F B E) [DecidableEq F] (f₀ : F) (l : List (Event B E)) : Prop where
  /-- Each call is known, and each block that calls has an edge for its returns. -/
  resolved : ∀ f ∈ c.cfgs, ∀ b ∈ (c.cfg f).bbs, Resolved c f b
  /-- No CALL edge leads to the entry CFG. -/
  fresh : callsOf c f₀ = []
  /-- The calls of a block that return along another edge than the last one for its returns are no more than
  what this one is taken without a call. -/
  returned : ∀ f ∈ c.cfgs, ∀ b ∈ (c.cfg f).bbs, IsCall c f b → ∀ nt, continuation c f b = some nt →
    charge (Event.strays ((c.cfg f).outs b) nt) l ≤ charge (Event.passes nt) l

omit [DecidableEq B] in
theorem charge_strays_nonneg (outs : List E) (nt : E) : 0 ≤ charge (Event.strays outs nt) l := by
  induction l with
  | nil => exact le_refl _
  | cons ev l ih =>
    have hev : 0 ≤ ev.strays outs nt := by
      cases ev with
      | block b => exact le_refl _
      | pass k => exact le_refl _
      | call e k =>
        rw [Event.strays]
        split
        · exact Int.one_nonneg
        · exact le_refl _
    rw [charge_cons]
    exact add_nonneg hev ih

/-! ### Each edge is listed once -/

section Nodup

variable (hc : c.WellFormed) (hl : Linked c)

omit [DecidableEq B] [DecidableEq E]

include hl in
theorem nodup_callEdges : (callEdges c f b).Nodup :=
  (hl.nodup_outs f b).filter _

include hc hl in
theorem nodup_callsOf [DecidableEq F] (g : F) : (callsOf c g).Nodup := by
  have hcalls : ∀ {f b e}, e ∈ ((c.cfg f).outs b).filter (fun e => (c.cfg f).kind e = .call ∧ c.calledCFG e = some g) →
      ∀ f', (c.cfg f').source e = b := by
    intro f b e he f'
    rw [hl.source f' f]
    exact source_of_mem hc (List.mem_of_mem_filter he)
  rw [callsOf, List.nodup_flatMap]
  constructor
  · intro f _
    rw [List.nodup_flatMap]
    constructor
    · intro b _
      exact (hl.nodup_outs f b).filter _
    · refine (hc.cfg f).nodup_bbs.imp fun hne e he he' => ?_
      exact hne ((hcalls he f).symm.trans (hcalls he' f))
  · refine hl.nodup_cfgs.imp fun {f f'} hne e he he' => ?_
    obtain ⟨b, hb, he⟩ := List.mem_flatMap.mp he
    obtain ⟨b', hb', he'⟩ := List.mem_flatMap.mp he'
    obtain rfl : b = b' := (hcalls he f).symm.trans (hcalls he' f)
    exact hne (hc.disjoint f f' b hb hb')

end Nodup

theorem total_counts {es : List E} (hnodup : es.Nodup) : total (counts l) es = charge (Event.traversals es) l :=
  sum_counts_eq hnodup l

/-! ### The edge of the returns -/

section Returns

variable (hc : c.WellFormed) (hl : Linked c)

omit [DecidableEq B] [DecidableEq E]

include hc hl in
theorem mem_outs_iff {k : E} (hk : k ∈ (c.cfg f).outs b) : k ∈ (c.cfg f₀).outs b₀ ↔ b = b₀ := by
  rw [(hc.cfg f₀).mem_outs, hl.source f₀ f, source_of_mem hc hk]

include hc hl in
theorem mem_callEdges_iff {e : E} (he : e ∈ (c.cfg f).outs b) (hcall : (c.cfg f).kind e = .call) :
    e ∈ callEdges c f₀ b₀ ↔ b = b₀ := by
  rw [callEdges, List.mem_filter, mem_outs_iff hc hl he, hl.kind f₀ f]
  exact and_iff_left (decide_eq_true hcall)

include hl in
theorem not_mem_callEdges {k : E} (hkind : (c.cfg f).kind k ≠ .call) : k ∉ callEdges c f₀ b₀ := by
  rw [callEdges, List.mem_filter, hl.kind f₀ f]
  exact fun h => hkind (of_decide_eq_true h.2)

include hl in
theorem IsReturn.of_linked {f' : F} (hreturn : IsReturn c f nt) : IsReturn c f' nt := by
  rw [IsReturn, hl.kind f' f]
  exact hreturn

include hc hl in
theorem IsCall.of_linked {f' : F} (hcall : IsCall c f b) : IsCall c f' b := by
  obtain ⟨e, he, hkind⟩ := hcall
  exact ⟨e, (mem_outs_iff hc hl he).mpr rfl, by rw [hl.kind f' f]; exact hkind⟩

theorem continuation_mem (hnt : continuation c f b = some nt) : nt ∈ (c.cfg f).outs b ∧ IsReturn c f nt := by
  obtain ⟨hmem, hreturn⟩ := List.mem_filter.mp (List.mem_of_getLast? hnt)
  exact ⟨hmem, of_decide_eq_true hreturn⟩

end Returns

section Balance

variable (hc : c.WellFormed) (hl : Linked c)

include hc hl

/-- What the edge of the returns counts: the calls, without the strays, and its passes. -/
theorem Run.balance_returns (run : Run c f b l) (hmem : nt ∈ (c.cfg f₀).outs b₀) (hreturn : IsReturn c f₀ nt) :
    counts l (.edge nt) + charge (Event.strays ((c.cfg f₀).outs b₀) nt) l =
      charge (Event.traversals (callEdges c f₀ b₀)) l + charge (Event.passes nt) l := by
  induction run with
  | exit f => rfl
  | @pass f b k l hk hkind _ _ ih =>
    have hweight : (Event.pass k : Event B E).weight (.edge nt) = (Event.pass k : Event B E).passes nt := rfl
    have hblock : (Event.block b : Event B E).weight (.edge nt) = 0 := rfl
    simp only [counts_cons, charge_cons, traversals_block, traversals_pass, hblock, hweight,
      if_neg (not_mem_callEdges hl hkind), Event.strays, Event.passes]
    linarith
  | @call f g b e k l l' he hcall hcalled hk hback _ _ ih ih' =>
    have hne : e ≠ nt := by
      rintro rfl
      exact (hreturn.of_linked hl).ne_call hcall
    have hkind := hback.ne_call
    have hstray : k = nt → b = b₀ := by
      rintro rfl
      exact (mem_outs_iff hc hl hk).mp hmem
    simp only [counts_cons, counts_append, charge_cons, charge_append, traversals_block, traversals_call,
      Event.weight, Event.strays, Event.passes, if_neg hne, if_neg (not_mem_callEdges hl hkind),
      mem_callEdges_iff hc hl he hcall, mem_outs_iff hc hl he]
    by_cases hb : b = b₀
    · by_cases hk : k = nt
      · simp only [hb, hk, ne_eq, not_true_eq_false, and_false, if_true, if_false]
        linarith
      · simp only [hb, hk, ne_eq, not_false_eq_true, and_self, if_true, if_false]
        linarith
    · have hk : k ≠ nt := fun heq => hb (hstray heq)
      simp only [hb, hk, false_and, if_false]
      linarith

omit [DecidableEq B] in
/-- The edge of the returns of a block whose call is unconditional is taken by returns only. -/
theorem Run.passes_eq_zero (run : Run c f b l) (hcall : IsCall c f₀ b₀) (hmem : nt ∈ (c.cfg f₀).outs b₀)
    (hreturn : IsReturn c f₀ nt) (hcond : ¬ c.isConditional b₀) : charge (Event.passes nt) l = 0 := by
  induction run with
  | exit f => rfl
  | @pass f b k l hk hkind honly _ ih =>
    have hne : k ≠ nt := by
      rintro rfl
      obtain rfl := (mem_outs_iff hc hl hk).mp hmem
      exact hcond (honly (hcall.of_linked hc hl) (hreturn.of_linked hl))
    simp only [charge_cons, Event.passes, if_neg hne, ih, add_zero]
  | call _ _ _ _ _ _ _ ih ih' => simp only [charge_cons, charge_append, Event.passes, ih, ih', add_zero]

end Balance

section Main

variable (hc : c.WellFormed) (hl : Linked c)

include hc hl

/-- The return constraint of a block. -/
theorem Run.back_iff (run : Run c f b l) (hcall : IsCall c f₀ b₀) (hnt : continuation c f₀ b₀ = some nt) :
    (if c.isConditional b₀ then total (counts l) (callEdges c f₀ b₀) ≤ counts l (.edge nt)
      else counts l (.edge nt) = total (counts l) (callEdges c f₀ b₀)) ↔
    charge (Event.strays ((c.cfg f₀).outs b₀) nt) l ≤ charge (Event.passes nt) l := by
  obtain ⟨hmem, hreturn⟩ := continuation_mem hnt
  have hbalance := run.balance_returns hc hl hmem hreturn
  rw [total_counts (nodup_callEdges hl)]
  split
  case isTrue =>
    constructor
    · intro hle
      linarith
    · intro hle
      linarith
  case isFalse hcond =>
    have hpasses := run.passes_eq_zero hc hl hcall hmem hreturn hcond
    have hstrays := charge_strays_nonneg ((c.cfg f₀).outs b₀) nt (l := l)
    constructor
    · intro heq
      linarith
    · intro hle
      linarith

/-- The input and output constraints. -/
theorem Run.balance (run : Run c f₀ (c.cfg f₀).entry l) (hb : b ∈ (c.cfg f).bbs) :
    (b ≠ (c.cfg f).entry → counts l (.block b) = total (counts l) (flowIns c f b)) ∧
      (b ≠ (c.cfg f).exit → counts l (.block b) = total (counts l) (flowOuts c f b)) := by
  have hentry := (hc.cfg f₀).entry_mem
  constructor
  · intro hne
    have hstart : (c.cfg f₀).entry ≠ b := by
      rintro rfl
      obtain rfl := hc.disjoint _ _ _ hentry hb
      exact hne rfl
    have hnodup : (flowIns c f b).Nodup := (hl.nodup_ins f b).filter _
    rw [total_counts hnodup, run.balance_ins hc hl hentry hb hne, if_neg hstart, zero_add]
  · intro hne
    have hnodup : (flowOuts c f b).Nodup := (hl.nodup_outs f b).filter _
    rw [total_counts hnodup]
    exact run.balance_outs hc hl hentry hb hne

/-- The structural constraints of an execution. -/
theorem Run.counts_hold_iff [DecidableEq F] (hf : f₀ ∈ c.cfgs) (run : Run c f₀ (c.cfg f₀).entry l) :
    (∃ s, processWorkSpace c f₀ = some s ∧ s.Holds (counts l)) ↔ Fits c f₀ l := by
  have hcalls (g : F) : counts l (.block (c.cfg g).entry) =
      (if f₀ = g then 1 else 0) + total (counts l) (callsOf c g) := by
    rw [total_counts (nodup_callsOf hc hl g), run.balance_calls hc hl hf (hc.cfg f₀).entry_mem g]
    simp only [entry_eq_iff hc]
  rw [holds_iff hc]
  constructor
  · rintro ⟨hblocks, hcalling, hone⟩
    refine ⟨fun f hf b hb => (hblocks f hf b hb).1, ?_, ?_⟩
    · by_contra hne
      -- the start of the execution is no call
      have hstart := hcalls f₀
      rw [hcalling f₀ hne, if_pos rfl] at hstart
      linarith
    · intro f hf b hb hcall nt hnt
      exact (run.back_iff hc hl hcall hnt).mp ((hblocks f hf b hb).2.back nt hcall hnt)
  · intro h
    refine ⟨?_, ?_, ?_⟩
    · intro f hf b hb
      obtain ⟨hin, hout⟩ := run.balance hc hl hb
      refine ⟨h.resolved f hf b hb, hin, hout, ?_⟩
      intro nt hcall hnt
      exact (run.back_iff hc hl hcall hnt).mpr (h.returned f hf b hb hcall nt hnt)
    · intro g hne
      have hother : f₀ ≠ g := by
        rintro rfl
        exact hne h.fresh
      rw [hcalls g, if_neg hother, zero_add]
    · rw [hcalls f₀, if_pos rfl, h.fresh, total_nil, add_zero]

end Main

/-! ### A conditional jump to a function -/

/-- The edges of two CFGs, the entry of the first one first. Its block 1 ends with a conditional jump to the second
CFG: edge 2 calls it, edge 1 is the virtual edge to the exit and edge 3 is not taken. -/
def jump : Collection Bool (Fin 7) (Fin 7) where
  cfgs := [false, true]
  cfg f :=
    { bbs := if f then [4, 5, 6] else [0, 1, 2, 3]
      entry := if f then 4 else 0
      exit := if f then 6 else 3
      number := fun b => if f then b.val - 4 else b.val
      kind := ![.virtual, .virtual, .call, .notTaken, .virtual, .virtual, .virtual]
      source := ![0, 1, 1, 1, 2, 4, 5]
      target := ![1, 3, 4, 2, 3, 5, 6]
      ins := fun b => (List.finRange 7).filter fun e => ![1, 3, 4, 2, 3, 5, 6] e = b
      outs := fun b => (List.finRange 7).filter fun e => ![0, 1, 1, 1, 2, 4, 5] e = b }
  calledCFG e := if e = 2 then some true else none
  isConditional b := b = 1

theorem jump_wellFormed : jump.WellFormed where
  cfg f := by
    cases f
    all_goals
      constructor
      all_goals decide
  called_mem := by decide
  disjoint := by decide
  entry_linked := by decide
  entry_first := by decide
  entry_fresh f a := by
    rintro ⟨e, hkind, -, htarget⟩
    revert f a e
    decide
  exit_mem := by decide
  exit_last := by decide

theorem jump_linked : Linked jump where
  nodup_cfgs := by decide
  kind f g := rfl
  source f g := rfl
  target f g := rfl
  nodup_ins := by decide
  nodup_outs := by decide

theorem jump_conditional {f : Bool} {b k : Fin 7} : IsCall jump f b → IsReturn jump f k → jump.isConditional b = true := by
  revert f b k
  decide

/-- The jump is not taken. -/
def fallRun : List (Event (Fin 7) (Fin 7)) :=
  [.block 0, .pass 0, .block 1, .pass 3, .block 2, .pass 4, .block 3]

/-- The jump is taken: the callee returns to the caller of the first CFG. -/
def jumpRun : List (Event (Fin 7) (Fin 7)) :=
  [.block 0, .pass 0, .block 1, .call 2 1, .block 4, .pass 5, .block 5, .pass 6, .block 6, .block 3]

theorem run_fall : Run jump false 0 fallRun :=
  .pass (k := 0) (by decide) (by decide) jump_conditional
    (.pass (k := 3) (by decide) (by decide) jump_conditional
      (.pass (k := 4) (by decide) (by decide) jump_conditional (.exit false)))

theorem run_jump : Run jump false 0 jumpRun :=
  have callee : Run jump true 4 [.block 4, .pass 5, .block 5, .pass 6, .block 6] :=
    .pass (k := 5) (by decide) (by decide) jump_conditional
      (.pass (k := 6) (by decide) (by decide) jump_conditional (.exit true))
  .pass (k := 0) (by decide) (by decide) jump_conditional
    (.call (e := 2) (k := 1) (g := true) (by decide) (by decide) (by decide) (by decide) (by decide) callee
      (.exit false))

theorem Run.counts_hold_iff_fall : ∃ s, processWorkSpace jump false = some s ∧ s.Holds (counts fallRun) :=
  (run_fall.counts_hold_iff jump_wellFormed jump_linked (by decide)).mpr
    { resolved := by
        intro f hf b hb hcall
        revert f b
        decide
      fresh := by decide
      returned := by
        intro f hf b hb hcall nt hnt
        revert f b nt
        decide }

/-- The call returns along the edge to the exit, the return constraint reads the edge that is not taken. -/
theorem jump_strays : jump.WellFormed ∧ Linked jump ∧ Run jump false (jump.cfg false).entry jumpRun ∧
    ∃ s, processWorkSpace jump false = some s ∧ ¬ s.Holds (counts jumpRun) := by
  obtain ⟨s, hs⟩ := Option.isSome_iff_exists.mp
    (show (processWorkSpace jump false).isSome from by decide)
  refine ⟨jump_wellFormed, jump_linked, run_jump, s, hs, ?_⟩
  intro hholds
  obtain ⟨hblocks, -⟩ := (holds_iff jump_wellFormed false _).mp ⟨s, hs, hholds⟩
  have hback := (hblocks false (by decide) 1 (by decide)).2.back 3 ⟨2, by decide, by decide⟩ (by decide)
  revert hback
  decide

end Otawa.Ipet
