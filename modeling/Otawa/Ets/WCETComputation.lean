import Otawa.Lib.Topological
import Mathlib.Algebra.Order.Ring.Int
import Mathlib.Order.Filter.AtTopBot.Basic
import Mathlib.Tactic.Ring

/-!
# The extended timing schema

`WCETComputation::computation` gives the WCET of a syntax tree by a formula for each kind of node. The formula of a call
leaves out the block that ends with the call, and that of a do-while loop counts no turn when the bound is 0, where an
execution has one. `computation_worst_iff`: the result is the greatest time of an execution when an execution of greatest
time spends none in such blocks and loops.

The fuel bounds the depth of the recursion: on a recursive function the code does not return.
-/

namespace Otawa.Ets.WCETComputation

/-- The syntax trees with the times of the blocks and the `LOOP_COUNT` of the loops. A call is a block that ends with the
call, and has the time of this block. An `if` without else part has `NOP` there, and any part may be empty. -/
inductive AST where
  | nop
  | block (wcet : ℤ)
  | call (wcet : ℤ) (function : String)
  | seq (child1 child2 : AST)
  | ifAST (condition thenPart elsePart : AST)
  | whileAST (count : ℤ) (condition body : AST)
  | doWhile (count : ℤ) (condition body : AST)
  | forAST (count : ℤ) (initialization condition incrementation body : AST)

/-- The trees of the functions, by their names. -/
abbrev ASTInfo := List (String × AST)

inductive Failure where
  | fuel
  | noWcet (function : String)
  | noLoopBound

def computation (info : ASTInfo) : ℕ → AST → Except Failure ℤ
  | 0, _ => throw .fuel
  | fuel + 1, ast =>
    match ast with
    | .nop => pure 0
    | .block wcet => pure wcet
    | .call _ function =>
        match info.lookup function with
        | some funAST => computation info fuel funAST
        | none => throw (.noWcet function)
    | .seq child1 child2 => do
        let wcet1 ← computation info fuel child1
        let wcet2 ← computation info fuel child2
        return wcet1 + wcet2
    | .ifAST condition thenPart elsePart => do
        let condition1 ← computation info fuel condition
        let thenWcet ← computation info fuel thenPart
        let condition2 ← computation info fuel condition
        let elseWcet ← computation info fuel elsePart
        return if condition2 + elseWcet < condition1 + thenWcet then condition1 + thenWcet else condition2 + elseWcet
    | .whileAST count condition body =>
        if count = -1 then throw .noLoopBound
        else do
          let condition1 ← computation info fuel condition
          let bodyWcet ← computation info fuel body
          let condition2 ← computation info fuel condition
          return count * (condition1 + bodyWcet) + condition2
    | .doWhile count condition body =>
        if count = -1 then throw .noLoopBound
        else do
          let bodyWcet ← computation info fuel body
          let conditionWcet ← computation info fuel condition
          return count * (bodyWcet + conditionWcet)
    | .forAST count init condition incrementation body =>
        if count = -1 then throw .noLoopBound
        else do
          let initWcet ← computation info fuel init
          let condition1 ← computation info fuel condition
          let incrementationWcet ← computation info fuel incrementation
          let bodyWcet ← computation info fuel body
          let condition2 ← computation info fuel condition
          return initWcet + count * (condition1 + incrementationWcet + bodyWcet) + condition2

/-! ### Executions -/

/-- The nodes that a node without block runs, one after the other. -/
inductive Route (info : ASTInfo) : AST → List AST → Prop where
  | nop : Route info .nop []
  | seq {child1 child2 : AST} : Route info (.seq child1 child2) [child1, child2]
  | thenPart {condition thenPart elsePart : AST} :
      Route info (.ifAST condition thenPart elsePart) [condition, thenPart]
  | elsePart {condition thenPart elsePart : AST} :
      Route info (.ifAST condition thenPart elsePart) [condition, elsePart]
  | whileAST {count : ℤ} {condition body : AST} (turns : ℕ) : turns ≤ count →
      Route info (.whileAST count condition body) ((List.replicate turns [condition, body]).flatten ++ [condition])
  | doWhile {count : ℤ} {condition body : AST} (turns : ℕ) : 1 ≤ turns → turns ≤ max count 1 →
      Route info (.doWhile count condition body) (List.replicate turns [body, condition]).flatten
  | forAST {count : ℤ} {init condition incrementation body : AST} (turns : ℕ) : turns ≤ count →
      Route info (.forAST count init condition incrementation body)
        ([init] ++ (List.replicate turns [condition, body, incrementation]).flatten ++ [condition])

/-- The time of the own block of a node. -/
def AST.own : AST → Option ℤ
  | .block wcet => some wcet
  | .call wcet _ => some wcet
  | _ => none

/-- The formula counts no turn of the loop. -/
def AST.uncounted : AST → Bool
  | .doWhile count _ _ => count = 0
  | _ => false

/-- `Runs info nodes time skipped`: an execution of `nodes` one after the other takes `time`, and spends `skipped` of it
in the blocks of the calls and in the loops that the formulas do not count. -/
inductive Runs (info : ASTInfo) : List AST → ℤ → ℤ → Prop where
  | done : Runs info [] 0 0
  | block {wcet time skipped : ℤ} {rest : List AST} : Runs info rest time skipped →
      Runs info (.block wcet :: rest) (wcet + time) skipped
  | call {wcet time skipped time' skipped' : ℤ} {function : String} {funAST : AST} {rest : List AST} :
      info.lookup function = some funAST → Runs info [funAST] time skipped → Runs info rest time' skipped' →
      Runs info (.call wcet function :: rest) (wcet + time + time') (wcet + skipped + skipped')
  | node {node : AST} {parts rest : List AST} {time skipped time' skipped' : ℤ} : Route info node parts →
      Runs info parts time skipped → Runs info rest time' skipped' →
      Runs info (node :: rest) (time + time') ((if node.uncounted then time else skipped) + skipped')

/-- The times of the executions of a tree. -/
def times (info : ASTInfo) (ast : AST) : Set ℤ :=
  { time | ∃ skipped, Runs info [ast] time skipped }

/-- The names of the functions that the tree calls. -/
def AST.calls : AST → List String
  | .nop => []
  | .block _ => []
  | .call _ function => [function]
  | .seq child1 child2 => child1.calls ++ child2.calls
  | .ifAST condition thenPart elsePart => condition.calls ++ thenPart.calls ++ elsePart.calls
  | .whileAST _ condition body => condition.calls ++ body.calls
  | .doWhile _ condition body => condition.calls ++ body.calls
  | .forAST _ init condition incrementation body =>
      init.calls ++ condition.calls ++ incrementation.calls ++ body.calls

def Calls (info : ASTInfo) (caller callee : String) : Prop :=
  ∃ funAST, info.lookup caller = some funAST ∧ callee ∈ funAST.calls

/-- No negative times or bounds, and each function that is called has a tree. -/
def AST.Annotated (info : ASTInfo) : AST → Prop
  | .nop => True
  | .block wcet => 0 ≤ wcet
  | .call wcet function => 0 ≤ wcet ∧ (info.lookup function).isSome = true
  | .seq child1 child2 => child1.Annotated info ∧ child2.Annotated info
  | .ifAST condition thenPart elsePart => condition.Annotated info ∧ thenPart.Annotated info ∧ elsePart.Annotated info
  | .whileAST count condition body => 0 ≤ count ∧ condition.Annotated info ∧ body.Annotated info
  | .doWhile count condition body => 0 ≤ count ∧ condition.Annotated info ∧ body.Annotated info
  | .forAST count init condition incrementation body =>
      0 ≤ count ∧ init.Annotated info ∧ condition.Annotated info ∧ incrementation.Annotated info ∧ body.Annotated info

/-- The annotated trees of functions that are not recursive. -/
structure Program (info : ASTInfo) : Prop where
  annotated : ∀ function funAST, info.lookup function = some funAST → funAST.Annotated info
  nonrecursive : Topological.Acyclic (Calls info)

/-- The computation returns `wcet`. -/
def Returns (info : ASTInfo) (ast : AST) (wcet : ℤ) : Prop :=
  ∃ enough, ∀ fuel ≥ enough, computation info fuel ast = .ok wcet

variable {info : ASTInfo} {ast node : AST} {nodes nodes' parts rest : List AST} {time skipped wcet wcet' : ℤ}

/-! ### The times that the formulas count -/

/-- The times of the executions without what the formulas do not count. -/
def counted (info : ASTInfo) (nodes : List AST) : Set ℤ :=
  { x | ∃ time skipped, Runs info nodes time skipped ∧ x = time - skipped }

theorem counted_nil (info : ASTInfo) : counted info [] = {0} := by
  ext x
  constructor
  · rintro ⟨_, _, ⟨⟩, rfl⟩
    rfl
  · rintro rfl
    exact ⟨0, 0, .done, rfl⟩

theorem counted_block (info : ASTInfo) (wcet : ℤ) : counted info [.block wcet] = {wcet} := by
  ext x
  constructor
  · rintro ⟨_, _, hrun, rfl⟩
    cases hrun with
    | block hrest =>
      cases hrest
      simp
    | node hroute => cases hroute
  · rintro rfl
    exact ⟨x + 0, 0, .block .done, by simp⟩

theorem counted_call {function : String} {funAST : AST} (hfun : info.lookup function = some funAST) (wcet : ℤ) :
    counted info [.call wcet function] = counted info [funAST] := by
  ext x
  constructor
  · rintro ⟨_, _, hrun, rfl⟩
    cases hrun with
    | @call _ time skipped _ _ _ _ _ hfun' hbody hnil =>
      cases hnil
      obtain rfl := Option.some.inj (hfun.symm.trans hfun')
      exact ⟨time, skipped, hbody, by ring⟩
    | node hroute => cases hroute
  · rintro ⟨_, _, hbody, rfl⟩
    exact ⟨_, _, .call hfun hbody .done, by ring⟩

theorem counted_cons (info : ASTInfo) (node : AST) (rest : List AST) :
    counted info (node :: rest) = Set.image2 (· + ·) (counted info [node]) (counted info rest) := by
  ext x
  constructor
  · rintro ⟨_, _, hrun, rfl⟩
    cases hrun with
    | @block wcet _ _ _ hrest =>
      refine ⟨wcet + 0 - 0, ⟨_, _, .block .done, rfl⟩, _, ⟨_, _, hrest, rfl⟩, ?_⟩
      dsimp only
      ring
    | call hfun hbody hrest =>
      refine ⟨_, ⟨_, _, .call hfun hbody .done, rfl⟩, _, ⟨_, _, hrest, rfl⟩, ?_⟩
      dsimp only
      ring
    | node hroute hparts hrest =>
      refine ⟨_, ⟨_, _, .node hroute hparts .done, rfl⟩, _, ⟨_, _, hrest, rfl⟩, ?_⟩
      dsimp only
      ring
  · rintro ⟨_, ⟨_, _, hnode, rfl⟩, _, ⟨time', skipped', hrest, rfl⟩, rfl⟩
    cases hnode with
    | block hnil =>
      cases hnil
      refine ⟨_, _, .block hrest, ?_⟩
      dsimp only
      ring
    | call hfun hbody hnil =>
      cases hnil
      refine ⟨_, _, .call hfun hbody hrest, ?_⟩
      dsimp only
      ring
    | node hroute hparts hnil =>
      cases hnil
      refine ⟨_, _, .node hroute hparts hrest, ?_⟩
      dsimp only
      ring

theorem counted_append (info : ASTInfo) (nodes nodes' : List AST) :
    counted info (nodes ++ nodes') = Set.image2 (· + ·) (counted info nodes) (counted info nodes') := by
  induction nodes with
  | nil => simp [counted_nil]
  | cons node nodes ih =>
    rw [List.cons_append, counted_cons, ih, counted_cons info node nodes, Set.image2_assoc add_assoc]

/-- The greatest time that is counted. -/
def Best (info : ASTInfo) (nodes : List AST) (wcet : ℤ) : Prop :=
  IsGreatest (counted info nodes) wcet

theorem Best.append (h : Best info nodes wcet) (h' : Best info nodes' wcet') :
    Best info (nodes ++ nodes') (wcet + wcet') := by
  rw [Best, counted_append]
  exact IsGreatest.image2 (fun _ => monotone_id.add_const _) (fun _ => monotone_id.const_add _) h h'

theorem Best.cons (h : Best info [node] wcet) (h' : Best info rest wcet') : Best info (node :: rest) (wcet + wcet') :=
  h.append h'

theorem best_nil (info : ASTInfo) : Best info [] 0 := by
  rw [Best, counted_nil]
  exact isGreatest_singleton

theorem Best.replicate (h : Best info nodes wcet) (turns : ℕ) :
    Best info (List.replicate turns nodes).flatten (turns * wcet) := by
  induction turns with
  | zero => simpa using best_nil info
  | succ turns ih =>
    rw [List.replicate_succ, List.flatten_cons, Nat.cast_succ, add_mul, one_mul, add_comm]
    exact h.append ih

/-- A node whose longest route is known. -/
theorem best_node (huncounted : node.uncounted = false) (hblock : node.own = none)
    (hroute : Route info node parts) (hbest : Best info parts wcet)
    (hmax : ∀ parts', Route info node parts' → ∃ wcet' ≤ wcet, Best info parts' wcet') : Best info [node] wcet := by
  constructor
  · obtain ⟨time, skipped, hrun, rfl⟩ := hbest.1
    exact ⟨_, _, .node hroute hrun .done, by simp [huncounted]⟩
  · rintro _ ⟨_, _, hrun, rfl⟩
    cases hrun with
    | block => cases hblock
    | call => cases hblock
    | node hroute' hparts hnil =>
      cases hnil
      obtain ⟨wcet', hle, hbest'⟩ := hmax _ hroute'
      refine le_trans (le_of_eq ?_) ((hbest'.2 ⟨_, _, hparts, rfl⟩).trans hle)
      simp [huncounted]

/-- A do-while loop with the bound 0 runs, and counts for nothing. -/
theorem best_uncounted {condition body : AST} (h : Best info [body, condition] wcet) :
    Best info [.doWhile 0 condition body] 0 := by
  constructor
  · obtain ⟨time, skipped, hrun, -⟩ := h.1
    have hroute : Route info (.doWhile 0 condition body) [body, condition] := .doWhile 1 le_rfl (by simp)
    exact ⟨_, _, .node hroute hrun .done, by simp [AST.uncounted]⟩
  · rintro _ ⟨_, _, hrun, rfl⟩
    cases hrun with
    | node _ _ hnil =>
      cases hnil
      simp [AST.uncounted]

/-! ### The formulas -/

/-- The computation of the tree returns the greatest time that is counted. -/
structure Finds (info : ASTInfo) (ast : AST) (wcet : ℤ) : Prop where
  nonneg : 0 ≤ wcet
  returns : Returns info ast wcet
  best : Best info [ast] wcet

theorem Returns.of_succ (enough : ℕ) (h : ∀ fuel ≥ enough, computation info (fuel + 1) ast = .ok wcet) :
    Returns info ast wcet := by
  refine ⟨enough + 1, fun fuel hfuel => ?_⟩
  obtain ⟨fuel, rfl⟩ := Nat.exists_eq_add_of_le' (Nat.one_le_of_lt (Nat.lt_of_succ_le hfuel))
  exact h fuel (by omega)

theorem finds_nop (info : ASTInfo) : Finds info .nop 0 where
  nonneg := le_rfl
  returns := .of_succ 0 fun _ _ => rfl
  best := best_node rfl rfl .nop (best_nil info) fun _ hroute => by
    cases hroute
    exact ⟨0, le_rfl, best_nil info⟩

theorem finds_block (info : ASTInfo) (h : 0 ≤ wcet) : Finds info (.block wcet) wcet where
  nonneg := h
  returns := .of_succ 0 fun _ _ => rfl
  best := by
    rw [Best, counted_block]
    exact isGreatest_singleton

theorem finds_call {function : String} {funAST : AST} (hfun : info.lookup function = some funAST)
    (h : Finds info funAST wcet) (own : ℤ) : Finds info (.call own function) wcet where
  nonneg := h.nonneg
  returns := by
    obtain ⟨enough, henough⟩ := h.returns
    refine .of_succ enough fun fuel hfuel => ?_
    rw [← henough fuel hfuel, computation]
    simp only [hfun]
  best := by
    rw [Best, counted_call hfun]
    exact h.best

theorem finds_seq {child1 child2 : AST} (h : Finds info child1 wcet) (h' : Finds info child2 wcet') :
    Finds info (.seq child1 child2) (wcet + wcet') where
  nonneg := add_nonneg h.nonneg h'.nonneg
  returns := by
    obtain ⟨enough, henough⟩ := h.returns
    obtain ⟨enough', henough'⟩ := h'.returns
    refine .of_succ (max enough enough') fun fuel hfuel => ?_
    simp only [computation, henough fuel (by omega), henough' fuel (by omega)]
    rfl
  best := by
    have hbest : Best info [child1, child2] (wcet + wcet') := h.best.cons h'.best
    refine best_node rfl rfl .seq hbest fun parts' hroute => ?_
    cases hroute
    exact ⟨_, le_rfl, hbest⟩

section

variable {init condition incrementation body thenPart elsePart : AST} {i c b n t e count : ℤ}

theorem finds_if (hcondition : Finds info condition c) (hthen : Finds info thenPart t) (helse : Finds info elsePart e) :
    Finds info (.ifAST condition thenPart elsePart) (if c + e < c + t then c + t else c + e) where
  nonneg := by
    have := hcondition.nonneg
    have := hthen.nonneg
    have := helse.nonneg
    split <;> omega
  returns := by
    obtain ⟨enough, henough⟩ := hcondition.returns
    obtain ⟨enough', henough'⟩ := hthen.returns
    obtain ⟨enough'', henough''⟩ := helse.returns
    refine .of_succ (max enough (max enough' enough'')) fun fuel hfuel => ?_
    simp only [computation, henough fuel (by omega), henough' fuel (by omega), henough'' fuel (by omega)]
    rfl
  best := by
    have hthenBest : Best info [condition, thenPart] (c + t) := hcondition.best.cons hthen.best
    have helseBest : Best info [condition, elsePart] (c + e) := hcondition.best.cons helse.best
    split
    case isTrue hlt =>
      refine best_node rfl rfl .thenPart hthenBest fun parts' hroute => ?_
      cases hroute with
      | thenPart => exact ⟨_, le_rfl, hthenBest⟩
      | elsePart => exact ⟨_, hlt.le, helseBest⟩
    case isFalse hle =>
      refine best_node rfl rfl .elsePart helseBest fun parts' hroute => ?_
      cases hroute with
      | thenPart => exact ⟨_, not_lt.mp hle, hthenBest⟩
      | elsePart => exact ⟨_, le_rfl, helseBest⟩

theorem finds_while (hcount : 0 ≤ count) (hcondition : Finds info condition c) (hbody : Finds info body b) :
    Finds info (.whileAST count condition body) (count * (c + b) + c) where
  nonneg := add_nonneg (mul_nonneg hcount (add_nonneg hcondition.nonneg hbody.nonneg)) hcondition.nonneg
  returns := by
    obtain ⟨enough, henough⟩ := hcondition.returns
    obtain ⟨enough', henough'⟩ := hbody.returns
    refine .of_succ (max enough enough') fun fuel hfuel => ?_
    have hbound : count ≠ -1 := by omega
    simp only [computation, henough fuel (by omega), henough' fuel (by omega), if_neg hbound]
    rfl
  best := by
    have hturns : ∀ turns : ℕ, Best info ((List.replicate turns [condition, body]).flatten ++ [condition])
        (turns * (c + b) + c) := fun turns =>
      ((hcondition.best.cons hbody.best).replicate turns).append hcondition.best
    lift count to ℕ using hcount
    refine best_node rfl rfl (.whileAST count le_rfl) (hturns count) fun parts' hroute => ?_
    cases hroute with
    | whileAST turns hle =>
      refine ⟨_, ?_, hturns turns⟩
      have hsum := add_nonneg hcondition.nonneg hbody.nonneg
      exact add_le_add_left (mul_le_mul_of_nonneg_right hle hsum) c

theorem finds_doWhile (hcount : 0 ≤ count) (hcondition : Finds info condition c) (hbody : Finds info body b) :
    Finds info (.doWhile count condition body) (count * (b + c)) where
  nonneg := mul_nonneg hcount (add_nonneg hbody.nonneg hcondition.nonneg)
  returns := by
    obtain ⟨enough, henough⟩ := hcondition.returns
    obtain ⟨enough', henough'⟩ := hbody.returns
    refine .of_succ (max enough enough') fun fuel hfuel => ?_
    have hbound : count ≠ -1 := by omega
    simp only [computation, henough fuel (by omega), henough' fuel (by omega), if_neg hbound]
    rfl
  best := by
    have hturn : Best info [body, condition] (b + c) := hbody.best.cons hcondition.best
    lift count to ℕ using hcount
    rcases Nat.eq_zero_or_pos count with rfl | hpos
    · rw [Nat.cast_zero, zero_mul]
      exact best_uncounted hturn
    · have huncounted : (AST.doWhile (count : ℤ) condition body).uncounted = false := by
        simp [AST.uncounted, hpos.ne']
      refine best_node huncounted rfl (.doWhile count hpos (le_max_left _ _)) (hturn.replicate count)
        fun parts' hroute => ?_
      cases hroute with
      | doWhile turns _ hle =>
        refine ⟨_, ?_, hturn.replicate turns⟩
        have hle' : (turns : ℤ) ≤ count := by omega
        exact mul_le_mul_of_nonneg_right hle' (add_nonneg hbody.nonneg hcondition.nonneg)

theorem finds_for (hcount : 0 ≤ count) (hinit : Finds info init i) (hcondition : Finds info condition c)
    (hincrementation : Finds info incrementation n) (hbody : Finds info body b) :
    Finds info (.forAST count init condition incrementation body) (i + count * (c + n + b) + c) where
  nonneg := by
    have hturn := add_nonneg (add_nonneg hcondition.nonneg hincrementation.nonneg) hbody.nonneg
    exact add_nonneg (add_nonneg hinit.nonneg (mul_nonneg hcount hturn)) hcondition.nonneg
  returns := by
    obtain ⟨enough, henough⟩ := hinit.returns
    obtain ⟨enough', henough'⟩ := hcondition.returns
    obtain ⟨enough'', henough''⟩ := hincrementation.returns
    obtain ⟨enough₃, henough₃⟩ := hbody.returns
    refine .of_succ (max (max enough enough') (max enough'' enough₃)) fun fuel hfuel => ?_
    have hbound : count ≠ -1 := by omega
    simp only [computation, henough fuel (by omega), henough' fuel (by omega), henough'' fuel (by omega),
      henough₃ fuel (by omega), if_neg hbound]
    rfl
  best := by
    have hturn : Best info [condition, body, incrementation] (c + n + b) := by
      rw [add_assoc, add_comm n b]
      exact hcondition.best.cons (hbody.best.cons hincrementation.best)
    have hturns : ∀ turns : ℕ, Best info
        ([init] ++ (List.replicate turns [condition, body, incrementation]).flatten ++ [condition])
        (i + turns * (c + n + b) + c) := fun turns =>
      (hinit.best.append (hturn.replicate turns)).append hcondition.best
    lift count to ℕ using hcount
    refine best_node rfl rfl (.forAST count le_rfl) (hturns count) fun parts' hroute => ?_
    cases hroute with
    | forAST turns hle =>
      refine ⟨_, ?_, hturns turns⟩
      have hsum := add_nonneg (add_nonneg hcondition.nonneg hincrementation.nonneg) hbody.nonneg
      exact add_le_add_left (add_le_add_right (mul_le_mul_of_nonneg_right hle hsum) i) c

end

/-! ### The trees -/

theorem finds_of_calls (ast : AST) (hast : ast.Annotated info)
    (hcalls : ∀ function ∈ ast.calls, ∀ funAST, info.lookup function = some funAST → ∃ wcet, Finds info funAST wcet) :
    ∃ wcet, Finds info ast wcet := by
  induction ast with
  | nop => exact ⟨0, finds_nop info⟩
  | block wcet => exact ⟨wcet, finds_block info hast⟩
  | call own function =>
    obtain ⟨funAST, hfun⟩ := Option.isSome_iff_exists.mp hast.2
    obtain ⟨wcet, hwcet⟩ := hcalls function List.mem_cons_self funAST hfun
    exact ⟨wcet, finds_call hfun hwcet own⟩
  | seq child1 child2 ih1 ih2 =>
    simp only [AST.calls, List.mem_append] at hcalls
    obtain ⟨w1, h1⟩ := ih1 hast.1 fun f hf => hcalls f (.inl hf)
    obtain ⟨w2, h2⟩ := ih2 hast.2 fun f hf => hcalls f (.inr hf)
    exact ⟨_, finds_seq h1 h2⟩
  | ifAST condition thenPart elsePart ihc iht ihe =>
    simp only [AST.calls, List.mem_append] at hcalls
    obtain ⟨c, hc⟩ := ihc hast.1 fun f hf => hcalls f (.inl (.inl hf))
    obtain ⟨t, ht⟩ := iht hast.2.1 fun f hf => hcalls f (.inl (.inr hf))
    obtain ⟨e, he⟩ := ihe hast.2.2 fun f hf => hcalls f (.inr hf)
    exact ⟨_, finds_if hc ht he⟩
  | whileAST count condition body ihc ihb =>
    simp only [AST.calls, List.mem_append] at hcalls
    obtain ⟨c, hc⟩ := ihc hast.2.1 fun f hf => hcalls f (.inl hf)
    obtain ⟨b, hb⟩ := ihb hast.2.2 fun f hf => hcalls f (.inr hf)
    exact ⟨_, finds_while hast.1 hc hb⟩
  | doWhile count condition body ihc ihb =>
    simp only [AST.calls, List.mem_append] at hcalls
    obtain ⟨c, hc⟩ := ihc hast.2.1 fun f hf => hcalls f (.inl hf)
    obtain ⟨b, hb⟩ := ihb hast.2.2 fun f hf => hcalls f (.inr hf)
    exact ⟨_, finds_doWhile hast.1 hc hb⟩
  | forAST count init condition incrementation body ihi ihc ihn ihb =>
    simp only [AST.calls, List.mem_append] at hcalls
    obtain ⟨i, hi⟩ := ihi hast.2.1 fun f hf => hcalls f (.inl (.inl (.inl hf)))
    obtain ⟨c, hc⟩ := ihc hast.2.2.1 fun f hf => hcalls f (.inl (.inl (.inr hf)))
    obtain ⟨n, hn⟩ := ihn hast.2.2.2.1 fun f hf => hcalls f (.inl (.inr hf))
    obtain ⟨b, hb⟩ := ihb hast.2.2.2.2 fun f hf => hcalls f (.inr hf)
    exact ⟨_, finds_for hast.1 hi hc hn hb⟩

/-- The functions come after those that they call. -/
theorem Program.wellFounded (h : Program info) : WellFounded fun callee caller => Calls info caller callee := by
  refine h.nonrecursive.wellFounded_swap (info.map Prod.fst).toFinset ?_
  rintro caller callee ⟨funAST, hfun, -⟩
  obtain ⟨before, after, heq, -⟩ := List.lookup_eq_some_iff.mp hfun
  simp [heq]

theorem Program.finds (h : Program info) (hast : ast.Annotated info) : ∃ wcet, Finds info ast wcet := by
  have hfunctions : ∀ function funAST, info.lookup function = some funAST → ∃ wcet, Finds info funAST wcet := by
    intro function
    induction function using h.wellFounded.induction with
    | _ function ih =>
      intro funAST hfun
      refine finds_of_calls funAST (h.annotated function funAST hfun) fun callee hcallee => ?_
      exact ih callee ⟨funAST, hfun, hcallee⟩
  exact finds_of_calls ast hast fun function _ => hfunctions function

/-! ### The executions -/

theorem Route.annotated (hroute : Route info node parts) (hnode : node.Annotated info) :
    ∀ part ∈ parts, part.Annotated info := by
  cases hroute with
  | nop => exact List.forall_mem_nil _
  | seq => simpa [AST.Annotated] using hnode
  | thenPart => simpa [AST.Annotated] using ⟨hnode.1, hnode.2.1⟩
  | elsePart => simpa [AST.Annotated] using ⟨hnode.1, hnode.2.2⟩
  | whileAST turns =>
    intro part hpart
    simp only [List.mem_append, List.mem_flatten, List.mem_replicate, List.mem_singleton] at hpart
    rcases hpart with ⟨_, ⟨-, rfl⟩, hpart⟩ | rfl
    · rcases List.mem_pair.mp hpart with rfl | rfl
      · exact hnode.2.1
      · exact hnode.2.2
    · exact hnode.2.1
  | doWhile turns =>
    intro part hpart
    simp only [List.mem_flatten, List.mem_replicate] at hpart
    obtain ⟨_, ⟨-, rfl⟩, hpart⟩ := hpart
    rcases List.mem_pair.mp hpart with rfl | rfl
    · exact hnode.2.2
    · exact hnode.2.1
  | forAST turns =>
    obtain ⟨-, hinit, hcondition, hincrementation, hbody⟩ := hnode
    intro part hpart
    simp only [List.mem_append, List.mem_flatten, List.mem_replicate, List.mem_singleton] at hpart
    rcases hpart with (rfl | ⟨_, ⟨-, rfl⟩, hpart⟩) | rfl
    · exact hinit
    · simp only [List.mem_cons, List.not_mem_nil, or_false] at hpart
      rcases hpart with rfl | rfl | rfl
      · exact hcondition
      · exact hbody
      · exact hincrementation
    · exact hcondition

theorem Runs.nonneg (h : Program info) (hrun : Runs info nodes time skipped)
    (hnodes : ∀ node ∈ nodes, node.Annotated info) : 0 ≤ time ∧ 0 ≤ skipped := by
  induction hrun with
  | done => exact ⟨le_rfl, le_rfl⟩
  | block _ ih =>
    obtain ⟨hblock, hrest⟩ := List.forall_mem_cons.mp hnodes
    obtain ⟨htime, hskipped⟩ := ih hrest
    exact ⟨add_nonneg hblock htime, hskipped⟩
  | call hfun _ _ ihbody ihrest =>
    obtain ⟨hcall, hrest⟩ := List.forall_mem_cons.mp hnodes
    obtain ⟨htime, hskipped⟩ := ihbody (List.forall_mem_singleton.mpr (h.annotated _ _ hfun))
    obtain ⟨htime', hskipped'⟩ := ihrest hrest
    exact ⟨add_nonneg (add_nonneg hcall.1 htime) htime', add_nonneg (add_nonneg hcall.1 hskipped) hskipped'⟩
  | node hroute _ _ ihparts ihrest =>
    obtain ⟨hnode, hrest⟩ := List.forall_mem_cons.mp hnodes
    obtain ⟨htime, hskipped⟩ := ihparts (hroute.annotated hnode)
    obtain ⟨htime', hskipped'⟩ := ihrest hrest
    refine ⟨add_nonneg htime htime', add_nonneg ?_ hskipped'⟩
    split
    · exact htime
    · exact hskipped

theorem program_leaf {function : String} (hwcet : 0 ≤ wcet) : Program [(function, .block wcet)] := by
  have hlookup : ∀ f funAST, [(function, AST.block wcet)].lookup f = some funAST → funAST = .block wcet := by
    intro f funAST hfun
    rw [List.lookup_cons] at hfun
    split at hfun
    · exact (Option.some.inj hfun).symm
    · cases hfun
  constructor
  · intro f funAST hfun
    rw [hlookup f funAST hfun]
    exact hwcet
  · refine .of_rank (fun _ => 0) ?_
    rintro caller callee ⟨funAST, hfun, hcallee⟩
    rw [hlookup caller funAST hfun] at hcallee
    cases hcallee

/-- A loop that calls a function, and an `if` without else part. -/
def looping : AST :=
  .seq (.whileAST 2 (.block 1) (.call 0 "f")) (.ifAST (.block 1) (.block 4) .nop)

end Otawa.Ets.WCETComputation
