import Otawa.Ets.Attached
import Otawa.Lib.Lru
import Mathlib.Data.Nat.Find

/-!
# The abstract cache states against the runs of the tree

The states are meant to describe the cache before their nodes. `attached_sound`: they do so for a tree with no
instruction, and for no tree whose fetches the computation covers: the state on a block is the one after it, and holds
an L-block of its own that a run need not have fetched before.
-/

namespace Otawa.Ets

/-- What a run of the tree goes through. -/
inductive Event where
  | enter (node : AST)
  | fetch (inst : Inst)

/-- The instructions of the node itself. -/
def AST.own : AST → List Inst
  | .block _ insts => insts
  | .call _ insts _ => insts
  | _ => []

/-- A loop bound of -1 is no bound. -/
def Allowed (count : ℤ) (turns : ℕ) : Prop := count < 0 ∨ (turns : ℤ) ≤ count

/-- The nodes that a node runs, one after the other. -/
inductive Route (info : ASTInfo) : AST → List AST → Prop where
  | block {id : ℕ} {insts : List Inst} : Route info (.block id insts) []
  | call {id : ℕ} {insts : List Inst} {function : String} {funAST : AST} :
      info function = some funAST → Route info (.call id insts function) [funAST]
  | seq {id : ℕ} {child1 child2 : AST} : Route info (.seq id child1 child2) [child1, child2]
  | ifThen {id : ℕ} {condition thenPart : AST} : Route info (.ifThen id condition thenPart) [condition, thenPart]
  | ifSkip {id : ℕ} {condition thenPart : AST} : Route info (.ifThen id condition thenPart) [condition]
  | thenPart {id : ℕ} {condition thenPart elsePart : AST} :
      Route info (.ifElse id condition thenPart elsePart) [condition, thenPart]
  | elsePart {id : ℕ} {condition thenPart elsePart : AST} :
      Route info (.ifElse id condition thenPart elsePart) [condition, elsePart]
  | whileAST {id : ℕ} {count : ℤ} {condition body : AST} (turns : ℕ) : Allowed count turns →
      Route info (.whileAST id count condition body) (condition :: (List.replicate turns [body, condition]).flatten)
  | forAST {id : ℕ} {count : ℤ} {init condition incrementation body : AST} (turns : ℕ) : Allowed count turns →
      Route info (.forAST id count init condition incrementation body)
        (init :: condition :: (List.replicate turns [body, incrementation, condition]).flatten)
  | doWhile {id : ℕ} {count : ℤ} {condition body : AST} (turns : ℕ) : Allowed count (turns + 1) →
      Route info (.doWhile id count condition body) (List.replicate (turns + 1) [body, condition]).flatten

/-- `Run info nodes events`: a run of `nodes` one after the other. A function without tree fetches anything. -/
inductive Run (info : ASTInfo) : List AST → List Event → Prop where
  | done : Run info [] []
  | node {node : AST} {parts rest : List AST} {events : List Event} : Route info node parts →
      Run info (parts ++ rest) events → Run info (node :: rest) (.enter node :: (node.own.map .fetch ++ events))
  | foreign {id : ℕ} {insts others : List Inst} {function : String} {rest : List AST} {events : List Event} :
      info function = none → Run info rest events →
      Run info (.call id insts function :: rest)
        (.enter (.call id insts function) :: ((insts ++ others).map .fetch ++ events))

/-- The rows of an LRU cache. -/
abbrev Rows (cache : Cache) := ℕ → Lru.LruSet ℕ cache.wayCount

namespace Rows

variable {cache : Cache}

def step (rows : Rows cache) : Event → Rows cache
  | .enter _ => rows
  | .fetch inst =>
      Function.update rows (cache.line inst.address) ((rows (cache.line inst.address)).access (cache.block inst.address))

def run (rows : Rows cache) (events : List Event) : Rows cache :=
  events.foldl step rows

end Rows

/-- The state describes the cache: a recorded L-block is there, at most as old as recorded, and the recorded ages and
the row are those of the cache. -/
def AbstractCacheState.Describes {cache : Cache} (acs : AbstractCacheState) (rows : Rows cache) : Prop :=
  acs.cacheLine < cache.rowCount ∧ ∀ address age, acs.Records address age →
    age < cache.wayCount ∧ ∃ p ≤ age, (rows acs.cacheLine).At (cache.block address) p

/-- The computation ends, and in every run the state attached to a node describes the cache before it. -/
def Sound (info : ASTInfo) (cache : Cache) (ast : AST) : Prop :=
  ∃ fuel props, ACSComputation.processAST info cache fuel ast (fun _ => {}) = some props ∧
    ∀ (rows : Rows cache) events, Run info [ast] events →
      ∀ before node after, events = before ++ .enter node :: after →
        ∀ acs, (props node).acs = some acs → acs.Describes (rows.run before)

variable {info : ASTInfo} {cache : Cache} {line : ℕ}

theorem Run.append {nodes others : List AST} {events events' : List Event} (h : Run info nodes events)
    (h' : Run info others events') : Run info (nodes ++ others) (events ++ events') := by
  induction h with
  | done => exact h'
  | node hroute _ ih =>
    rw [List.cons_append, List.cons_append, List.append_assoc]
    rw [List.append_assoc] at ih
    exact .node hroute ih
  | foreign hnone _ ih =>
    rw [List.cons_append, List.cons_append, List.append_assoc]
    exact .foreign hnone ih

/-- Some run goes through any part of a node whose loop has a bound. -/
theorem route_through {ast part : AST} (hbounded : ast.Bounded) (hpart : part ∈ ast.parts info) :
    ∃ parts, Route info ast parts ∧ part ∈ parts ∧ ∀ p ∈ parts, p ∈ ast.parts info := by
  cases ast with
  | block id insts => cases hpart
  | call id insts function =>
    rw [parts_call] at hpart ⊢
    cases hinfo : info function with
    | none =>
      rw [hinfo] at hpart
      cases hpart
    | some funAST =>
      rw [hinfo] at hpart
      exact ⟨_, .call hinfo, hpart, fun p hp => hp⟩
  | seq id child1 child2 => exact ⟨_, .seq, hpart, fun p hp => hp⟩
  | ifThen id condition thenPart => exact ⟨_, .ifThen, hpart, fun p hp => hp⟩
  | ifElse id condition thenPart elsePart =>
    simp only [AST.parts, List.mem_cons, List.not_mem_nil, or_false] at hpart
    rcases hpart with rfl | rfl | rfl
    · exact ⟨_, .thenPart, by simp, by simp [AST.parts]⟩
    · exact ⟨_, .thenPart, by simp, by simp [AST.parts]⟩
    · exact ⟨_, .elsePart, by simp, by simp [AST.parts]⟩
  | whileAST id count condition body =>
    refine ⟨_, .whileAST 1 (.inr hbounded), ?_, by simp [AST.parts]⟩
    simp only [AST.parts, List.mem_cons, List.not_mem_nil, or_false] at hpart
    rcases hpart with rfl | rfl <;> simp
  | forAST id count init condition incrementation body =>
    refine ⟨_, .forAST 1 (.inr hbounded), ?_, by simp [AST.parts]⟩
    simp only [AST.parts, List.mem_cons, List.not_mem_nil, or_false] at hpart
    rcases hpart with rfl | rfl | rfl | rfl <;> simp
  | doWhile id count condition body =>
    refine ⟨_, .doWhile 0 (.inr hbounded), ?_, by simp [AST.parts]⟩
    simp only [AST.parts, List.mem_cons, List.not_mem_nil, or_false] at hpart
    rcases hpart with rfl | rfl <;> simp

/-- No instruction of the row is fetched. -/
def Calm (cache : Cache) (line : ℕ) (events : List Event) : Prop :=
  ∀ inst, .fetch inst ∈ events → cache.line inst.address ≠ line

theorem Calm.append {events events' : List Event} (h : Calm cache line events) (h' : Calm cache line events') :
    Calm cache line (events ++ events') := by
  intro inst hmem
  rcases List.mem_append.mp hmem with hfirst | hsecond
  · exact h inst hfirst
  · exact h' inst hsecond

theorem calm_node {node : AST} {insts : List Inst} (h : ∀ inst ∈ insts, cache.line inst.address ≠ line) :
    Calm cache line (.enter node :: insts.map .fetch) := by
  intro inst hmem
  rcases List.mem_cons.mp hmem with heq | hmem
  · cases heq
  · obtain ⟨i, hi, heq⟩ := List.mem_map.mp hmem
    cases heq
    exact h inst hi

/-- A run enters a block with an instruction of the row before any fetch in the row. -/
def Opens (info : ASTInfo) (cache : Cache) (line : ℕ) (nodes : List AST) : Prop :=
  ∃ before id insts after, Run info nodes (before ++ .enter (.block id insts) :: after) ∧ Calm cache line before ∧
    (∃ node ∈ nodes, Reached info node (.block id insts)) ∧ ∃ inst ∈ insts, cache.line inst.address = line

/-- A node that does not touch the row has a run that does not, a node that touches it has one that begins with it. -/
structure Starts (info : ASTInfo) (cache : Cache) (line : ℕ) (node : AST) : Prop where
  calm : ¬ Touches info cache line node → ∃ events, Run info [node] events ∧ Calm cache line events
  opens : Touches info cache line node → Opens info cache line [node]

section

variable {nodes : List AST} (hnodes : ∀ node ∈ nodes, Starts info cache line node)
include hnodes

theorem starts_calm
    (h : ∀ node ∈ nodes, ¬ Touches info cache line node) : ∃ events, Run info nodes events ∧ Calm cache line events := by
  induction nodes with
  | nil => exact ⟨[], .done, fun _ hmem => absurd hmem List.not_mem_nil⟩
  | cons node nodes ih =>
    obtain ⟨hnode, hrest⟩ := List.forall_mem_cons.mp hnodes
    obtain ⟨hfirst, hothers⟩ := List.forall_mem_cons.mp h
    obtain ⟨events, hrun, hcalm⟩ := hnode.calm hfirst
    obtain ⟨events', hrun', hcalm'⟩ := ih hrest hothers
    exact ⟨events ++ events', hrun.append hrun', hcalm.append hcalm'⟩

theorem starts_run : ∃ events, Run info nodes events := by
  induction nodes with
  | nil => exact ⟨[], .done⟩
  | cons node nodes ih =>
    obtain ⟨hnode, hrest⟩ := List.forall_mem_cons.mp hnodes
    obtain ⟨events', hrun'⟩ := ih hrest
    by_cases htouches : Touches info cache line node
    · obtain ⟨before, id, insts, after, hrun, -⟩ := hnode.opens htouches
      exact ⟨_, hrun.append hrun'⟩
    · obtain ⟨events, hrun, -⟩ := hnode.calm htouches
      exact ⟨_, hrun.append hrun'⟩

theorem starts_opens (h : ∃ node ∈ nodes, Touches info cache line node) : Opens info cache line nodes := by
  induction nodes with
  | nil =>
    obtain ⟨_, hmem, _⟩ := h
    cases hmem
  | cons node nodes ih =>
    obtain ⟨hnode, hrest⟩ := List.forall_mem_cons.mp hnodes
    by_cases htouches : Touches info cache line node
    · obtain ⟨before, id, insts, after, hrun, hcalm, ⟨n, hn, hreached⟩, hinst⟩ := hnode.opens htouches
      obtain rfl := List.mem_singleton.mp hn
      obtain ⟨events', hrun'⟩ := starts_run hrest
      have hboth := hrun.append hrun'
      rw [List.append_assoc] at hboth
      exact ⟨before, id, insts, after ++ events', hboth, hcalm, ⟨n, List.mem_cons_self, hreached⟩, hinst⟩
    · obtain ⟨n, hn, hn_touches⟩ := h
      rcases List.mem_cons.mp hn with rfl | hmem
      · exact absurd hn_touches htouches
      · obtain ⟨events, hrun, hcalm⟩ := hnode.calm htouches
        obtain ⟨before, id, insts, after, hrun', hcalm', ⟨m, hm, hreached⟩, hinst⟩ := ih hrest ⟨n, hmem, hn_touches⟩
        have hboth := hrun.append hrun'
        rw [← List.append_assoc] at hboth
        exact ⟨events ++ before, id, insts, after, hboth, hcalm.append hcalm',
          ⟨m, List.mem_cons_of_mem node hm, hreached⟩, hinst⟩

end

/-- The computation covers the fetches in the row: the loops have a bound that lets their bodies run, and the blocks of
the calls have no instruction in the row. -/
structure Covers (info : ASTInfo) (cache : Cache) (line : ℕ) (ast : AST) : Prop where
  bounded : ∀ node, Reached info ast node → node.Bounded
  calls : ∀ id insts function, Reached info ast (.call id insts function) →
    ∀ inst ∈ insts, cache.line inst.address ≠ line

theorem Covers.part {ast part : AST} (h : Covers info cache line ast) (hpart : part ∈ ast.parts info) :
    Covers info cache line part where
  bounded node hnode := h.bounded node (.head hpart hnode)
  calls id insts function hcall := h.calls id insts function (.head hpart hcall)

theorem starts {fuel : ℕ} {ast : AST} (hnests : ACSComputation.Nests info fuel ast)
    (hcovers : Covers info cache line ast) : Starts info cache line ast := by
  induction fuel generalizing ast with
  | zero => exact absurd hnests id
  | succ fuel ih =>
    have hparts : ∀ part ∈ ast.parts info, Starts info cache line part :=
      fun part hpart => ih (hnests part hpart) (hcovers.part hpart)
    by_cases hblock : ∃ id insts, ast = .block id insts
    · obtain ⟨id, insts, rfl⟩ := hblock
      have hrun : Run info [.block id insts] (.enter (.block id insts) :: (insts.map .fetch ++ [])) := .node .block .done
      constructor
      · intro huntouched
        refine ⟨_, hrun, ?_⟩
        rw [List.append_nil]
        exact calm_node fun inst hinst hline => huntouched ⟨id, insts, .refl, inst, hinst, hline⟩
      · rintro ⟨id', insts', hreached, hrow⟩
        rcases reached_block hreached with heq | ⟨part, hpart, -⟩
        · cases heq
          exact ⟨[], id, insts, _, hrun, fun _ hmem => absurd hmem List.not_mem_nil,
            ⟨_, List.mem_singleton_self _, .refl⟩, hrow⟩
        · cases hpart
    · have hown : ∀ inst ∈ ast.own, cache.line inst.address ≠ line := by
        intro inst hinst
        cases ast with
        | block id insts => exact absurd ⟨id, insts, rfl⟩ hblock
        | call id insts function => exact hcovers.calls id insts function .refl inst hinst
        | _ => cases hinst
      have hcalm : Calm cache line (.enter ast :: ast.own.map .fetch) := calm_node hown
      constructor
      · intro huntouched
        have hparts_untouched : ∀ part ∈ ast.parts info, ¬ Touches info cache line part :=
          fun part hpart htouches => huntouched (htouches.part hpart)
        cases hnone : ast.parts info with
        | nil =>
          cases ast with
          | block id insts => exact absurd ⟨id, insts, rfl⟩ hblock
          | call id insts function =>
            rw [parts_call, Option.toList_eq_nil_iff] at hnone
            have hrun : Run info [.call id insts function] _ := @Run.foreign info id insts [] function [] [] hnone .done
            refine ⟨_, hrun, ?_⟩
            rw [List.append_nil, List.append_nil]
            exact hcalm
          | _ => cases hnone
        | cons part others =>
          have hpart : part ∈ ast.parts info := by
            rw [hnone]
            exact List.mem_cons_self
          obtain ⟨parts, hroute, -, hsub⟩ := route_through (hcovers.bounded ast .refl) hpart
          obtain ⟨events, hrun, hevents⟩ := starts_calm (fun p hp => hparts p (hsub p hp))
            fun p hp => hparts_untouched p (hsub p hp)
          rw [← List.append_nil parts] at hrun
          exact ⟨_, .node hroute hrun, hcalm.append hevents⟩
      · rintro ⟨id, insts, hreached, hrow⟩
        rcases reached_block hreached with heq | ⟨part, hpart, hbelow⟩
        · exact absurd ⟨id, insts, heq⟩ hblock
        · obtain ⟨parts, hroute, hmem, hsub⟩ := route_through (hcovers.bounded ast .refl) hpart
          obtain ⟨before, id', insts', after, hrun, hbefore, ⟨n, hn, hn_reached⟩, hinst⟩ :=
            starts_opens (fun p hp => hparts p (hsub p hp)) ⟨part, hmem, id, insts, hbelow, hrow⟩
          rw [← List.append_nil parts] at hrun
          have hwhole := Run.node hroute hrun
          refine ⟨.enter ast :: ast.own.map .fetch ++ before, id', insts', after, ?_, hcalm.append hbefore,
            ⟨ast, List.mem_singleton_self ast, .head (hsub n hn) hn_reached⟩, hinst⟩
          rw [List.cons_append, List.cons_append, List.append_assoc]
          exact hwhole

/-! ### When the states are sound -/

/-- No block of the tree has an instruction. -/
def Silent (info : ASTInfo) (ast : AST) : Prop :=
  ∀ id insts, Reached info ast (.block id insts) → insts = []

/-- The computation covers the fetches in the last row that the tree touches. -/
def Covered (info : ASTInfo) (cache : Cache) (ast : AST) : Prop :=
  ∀ line, Touches info cache line ast → (∀ l, line < l → ¬ Touches info cache l ast) → Covers info cache line ast

theorem silent_iff {ast : AST} : Silent info ast ↔ ∀ line, ¬ Touches info cache line ast := by
  constructor
  · rintro hsilent line ⟨id, insts, hreached, inst, hinst, -⟩
    rw [hsilent id insts hreached] at hinst
    cases hinst
  · intro huntouched id insts hreached
    refine List.eq_nil_iff_forall_not_mem.mpr fun inst hinst => ?_
    exact huntouched (cache.line inst.address) ⟨id, insts, hreached, inst, hinst, rfl⟩

/-- A tree with an instruction in a block touches a last row. -/
theorem exists_last {ast : AST} (h : ¬ Silent info ast) :
    ∃ line < cache.rowCount, Touches info cache line ast ∧ ∀ l, line < l → ¬ Touches info cache l ast := by
  classical
  have hbound : ∀ line, Touches info cache line ast → line < cache.rowCount := by
    rintro line ⟨id, insts, -, inst, -, rfl⟩
    exact cache.line_lt inst.address
  obtain ⟨line, hline⟩ : ∃ line, Touches info cache line ast := by
    by_contra hnone
    exact h (silent_iff.mpr fun line htouches => hnone ⟨line, htouches⟩)
  have hgreatest : Touches info cache (Nat.findGreatest (fun l => Touches info cache l ast) cache.rowCount) ast :=
    Nat.findGreatest_spec (P := fun l => Touches info cache l ast) (Nat.le_of_lt (hbound line hline)) hline
  refine ⟨_, hbound _ hgreatest, hgreatest, ?_⟩
  intro l hl htouches
  exact Nat.findGreatest_is_greatest hl (Nat.le_of_lt (hbound l htouches)) htouches

/-- A row that is not fetched from stays as it is. -/
theorem Rows.run_calm {events : List Event} (rows : Rows cache) (h : Calm cache line events) :
    rows.run events line = rows line := by
  induction events generalizing rows with
  | nil => rfl
  | cons event events ih =>
    have hrest : Calm cache line events := fun inst hmem => h inst (List.mem_cons_of_mem event hmem)
    have hstep : rows.step event line = rows line := by
      cases event with
      | enter node => rfl
      | fetch inst => exact Function.update_of_ne (h inst List.mem_cons_self).symm _ _
    exact (ih (rows.step event) hrest).trans hstep

namespace ACSComputation

theorem nests_of_processAST {fuel : ℕ} {ast : AST} {props props' : Props}
    (h : processAST info cache fuel ast props = some props') : Nests info fuel ast := by
  obtain ⟨n, hn⟩ := Nat.exists_eq_succ_of_ne_zero (Nat.ne_of_gt (Nat.two_pow_pos cache.rowBits))
  rw [processAST, Cache.rowCount, hn, List.range_succ_eq_map, List.foldlM_cons] at h
  obtain ⟨mid, hmid, -⟩ := Option.bind_eq_some_iff.mp h
  obtain ⟨indexes, hindexes, -⟩ := Option.bind_eq_some_iff.mp hmid
  exact initialization_isSome.mp (Option.isSome_iff_exists.mpr ⟨indexes, hindexes⟩)

/-- On a tree without instruction the computation ends and attaches nothing. -/
theorem foldlM_silent {fuel : ℕ} {ast : AST} (hnests : Nests info fuel ast)
    (huntouched : ∀ line, ¬ Touches info cache line ast) (lines : List ℕ) (props : Props) :
    ∃ props', lines.foldlM (processLine info cache fuel ast) props = some props' := by
  induction lines generalizing props with
  | nil => exact ⟨props, rfl⟩
  | cons line lines ih =>
    have hsome : (initialization info cache line fuel ast ⟨[], 0, props⟩).isSome = true :=
      initialization_isSome.mpr hnests
    obtain ⟨indexes, hindexes⟩ := Option.isSome_iff_exists.mp hsome
    have hlength : ¬ indexes.cacheLineLength ≠ 0 :=
      fun hne => huntouched line ((initialization_indexed hindexes).touches hne)
    obtain ⟨props', h⟩ := ih indexes.props
    refine ⟨props', ?_⟩
    rw [List.foldlM_cons, processLine, hindexes]
    simp only [Option.bind_eq_bind, Option.bind_some, hlength, if_false]
    exact h

end ACSComputation

theorem sound_of_silent {fuel : ℕ} {ast : AST} (hnests : ACSComputation.Nests info fuel ast)
    (hsilent : Silent info ast) : Sound info cache ast := by
  have huntouched : ∀ line, ¬ Touches info cache line ast := silent_iff.mp hsilent
  obtain ⟨props, hprops⟩ := ACSComputation.foldlM_silent hnests huntouched (List.range cache.rowCount) fun _ => {}
  refine ⟨fuel, props, hprops, ?_⟩
  intro rows events _ before node after _ acs hacs
  rw [ACSComputation.foldlM_untouched (fun line _ => huntouched line) hprops] at hacs
  cases hacs

theorem silent_of_sound {ast : AST} (hcovered : Covered info cache ast) (h : Sound info cache ast) :
    Silent info ast := by
  by_contra hsilent
  obtain ⟨line, hlt, htouches, hlast⟩ : ∃ line < cache.rowCount, Touches info cache line ast ∧
      ∀ l, line < l → ¬ Touches info cache l ast := exists_last hsilent
  have hcovers := hcovered line htouches hlast
  obtain ⟨fuel, props, hprops, hsound⟩ := h
  obtain ⟨table, hleft⟩ := ACSComputation.processAST_last hcovers.bounded hlt htouches hlast hprops
  obtain ⟨before, id, insts, after, hrun, hcalm, ⟨n, hn, hreached⟩, hrow⟩ :=
    (starts (ACSComputation.nests_of_processAST hprops) hcovers).opens htouches
  obtain rfl := List.mem_singleton.mp hn
  obtain ⟨acs, hacs, hof, hrecords⟩ := hleft.attached id insts hreached
  obtain ⟨inst, -, hrecorded⟩ := hrecords id insts rfl (hleft.registers id insts hreached hrow)
  -- the run starts with an empty cache and has fetched nothing in the row when it enters the block
  obtain ⟨-, hpresent⟩ := hsound (fun _ => Lru.LruSet.empty) _ hrun before _ after rfl acs hacs
  obtain ⟨-, p, -, hat⟩ := hpresent inst.address 0 hrecorded
  rw [hof.2, Rows.run_calm _ hcalm] at hat
  cases hat

end Otawa.Ets
