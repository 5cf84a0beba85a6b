import Otawa.Ets.AbstractCacheState
import Mathlib.Algebra.Ring.Nat
import Mathlib.Algebra.Ring.Int.Defs

/-!
# The computation of the abstract cache states on a syntax tree

`ACSComputation` analyses the rows of the instruction cache one after the other. `initialization` numbers the L-blocks of
a row, `applyProcess` attaches a state to each node of the tree and gives the state after the node. The state of a node
is attached before its parts are processed and is changed in place afterwards: what is left on the node is the last
content of the object, the state after it.

The fuel bounds the depth of the calls: on a recursive function the code does not return.
-/

namespace Otawa.Ets

structure Inst where
  address : ℕ
  size : ℕ
  deriving DecidableEq

/-- The syntax trees, with a number for the object of the node and, on a loop, its `LOOP_COUNT`. A block has its
instructions from `block()` to `size()`, a call as well, being a block. An `if` without else part has `NOP` there; the
other nodes have no such part. -/
inductive AST where
  | block (id : ℕ) (insts : List Inst)
  | call (id : ℕ) (insts : List Inst) (function : String)
  | seq (id : ℕ) (child1 child2 : AST)
  | ifThen (id : ℕ) (condition thenPart : AST)
  | ifElse (id : ℕ) (condition thenPart elsePart : AST)
  | whileAST (id : ℕ) (count : ℤ) (condition body : AST)
  | forAST (id : ℕ) (count : ℤ) (initialization condition incrementation body : AST)
  | doWhile (id : ℕ) (count : ℤ) (condition body : AST)
  deriving DecidableEq

/-- `ASTInfo::get`. -/
abbrev ASTInfo := String → Option AST

/-- `hard::Cache`, with the bits of an offset in a block, of a row and of a way. -/
structure Cache where
  blockBits : ℕ
  rowBits : ℕ
  wayBits : ℕ

namespace Cache

def blockSize (cache : Cache) : ℕ := 2 ^ cache.blockBits

def rowCount (cache : Cache) : ℕ := 2 ^ cache.rowBits

def wayCount (cache : Cache) : ℕ := 2 ^ cache.wayBits

def block (cache : Cache) (address : ℕ) : ℕ := address / 2 ^ cache.blockBits

def line (cache : Cache) (address : ℕ) : ℕ := address / 2 ^ cache.blockBits % 2 ^ cache.rowBits

theorem line_lt (cache : Cache) (address : ℕ) : cache.line address < cache.rowCount :=
  Nat.mod_lt _ (Nat.two_pow_pos _)

end Cache

/-- The properties of a node, with their defaults. -/
structure NodeProps where
  acs : Option AbstractCacheState := none
  hits : ℤ := -1
  misses : ℤ := 0
  firstMisses : ℤ := 0
  conflicts : ℤ := 0

abbrev Props := AST → NodeProps

def Props.attach (props : Props) (ast : AST) (acs : AbstractCacheState) : Props :=
  Function.update props ast { props ast with acs := some acs }

namespace ACSComputation

/-- What `initialization` fills: the indexes of the L-blocks, their number and the counters of the nodes. -/
structure Indexes where
  htable : HashTable ℕ
  cacheLineLength : ℕ
  props : Props

def resetCounters (props : Props) (ast : AST) : Props :=
  if (props ast).hits = -1 then
    Function.update props ast { props ast with hits := 0, misses := 0, firstMisses := 0, conflicts := 0 }
  else props

/-- One instruction of a block; `sameLblock` counts the instructions since the first one of an L-block. -/
def register (cache : Cache) (cacheLine : ℕ) (s : ℕ × HashTable ℕ × ℕ) (inst : Inst) : ℕ × HashTable ℕ × ℕ :=
  if cache.line inst.address = cacheLine ∧ s.2.1.exists inst.address = false then
    let added := if s.1 = 0 then (s.2.1.put inst.address s.2.2, s.2.2 + 1) else s.2
    let sameLblock := if (s.1 : ℤ) < (cache.blockSize / inst.size : ℕ) - 1 then s.1 + 1 else 0
    (sameLblock, added)
  else s

variable (info : ASTInfo) (cache : Cache)

def initialization (cacheLine : ℕ) : ℕ → AST → Indexes → Option Indexes
  | 0, _, _ => none
  | fuel + 1, ast, s => do
      let s := { s with props := resetCounters s.props ast }
      match ast with
      | .call _ _ function =>
          match info function with
          | some funAST => initialization cacheLine fuel funAST s
          | none => some s
      | .block _ insts =>
          let added := (insts.foldl (register cache cacheLine) (0, s.htable, s.cacheLineLength)).2
          some { s with htable := added.1, cacheLineLength := added.2 }
      | .seq _ child1 child2 =>
          let s ← initialization cacheLine fuel child1 s
          initialization cacheLine fuel child2 s
      | .ifThen _ condition thenPart =>
          let s ← initialization cacheLine fuel condition s
          initialization cacheLine fuel thenPart s
      | .ifElse _ condition thenPart elsePart =>
          let s ← initialization cacheLine fuel condition s
          let s ← initialization cacheLine fuel thenPart s
          initialization cacheLine fuel elsePart s
      | .whileAST _ _ condition body =>
          let s ← initialization cacheLine fuel condition s
          initialization cacheLine fuel body s
      | .forAST _ _ init condition incrementation body =>
          let s ← initialization cacheLine fuel init s
          let s ← initialization cacheLine fuel condition s
          let s ← initialization cacheLine fuel body s
          initialization cacheLine fuel incrementation s
      | .doWhile _ _ condition body =>
          let s ← initialization cacheLine fuel body s
          initialization cacheLine fuel condition s

/-- The category of an access of the block `ast`; `stop` says whether the L-block was in the state. -/
def categorise (ast : AST) (address : ℕ) (stop : Bool) (acs : AbstractCacheState) (props : Props) :
    AbstractCacheState × Props :=
  let node := props ast
  if stop then
    if acs.byConflict = false then
      match acs.hcat.lookup address with
      | none =>
          ({ acs with hcat := acs.hcat.put address Categorisation.alwaysHit.toInt },
            Function.update props ast { node with hits := node.hits + 1 })
      | some category =>
          if category = Categorisation.alwaysMiss.toInt ∧ 0 < node.misses then
            ({ acs with hcat := acs.hcat.put address Categorisation.firstMiss.toInt },
              Function.update props ast { node with misses := node.misses - 1, firstMisses := node.firstMisses + 1 })
          else (acs, props)
    else
      ({ acs with hcat := acs.hcat.put address Categorisation.conflict.toInt },
        Function.update props ast { node with conflicts := node.conflicts + 1 })
  else if acs.hcat.exists address then (acs, props)
  else
    ({ acs with hcat := acs.hcat.put address Categorisation.alwaysMiss.toInt },
      Function.update props ast { node with misses := node.misses + 1 })

/-- One instruction of the block `ast`. -/
def access (ast : AST) (s : AbstractCacheState × Props) (inst : Inst) : Option (AbstractCacheState × Props) :=
  match s.1.htable.lookup inst.address with
  | none => some s
  | some index => do
      let u ← AbstractCacheState.update index s.1.cacheState
      some (categorise ast inst.address u.1 { s.1 with cacheState := u.2 } s.2)

/-- Whether `applyProcess` gives back the object it got for state. -/
def returnsState : AST → Bool
  | .call _ _ function => (info function).isNone
  | _ => false

/-- The loop on the body of a loop node, with the turns that are left. `same` says that the body gives back the object
it gets, which is then assigned to itself. -/
def iterate (body : AbstractCacheState → Props → Option (AbstractCacheState × Props)) (same : Bool) :
    ℕ → AbstractCacheState → AbstractCacheState → Bool → Props → Option (AbstractCacheState × Props)
  | 0, acs, tmp, _, props => do
      let _ ← acs.areDifferent tmp
      some (acs, props)
  | turns + 1, acs, tmp, isStart, props => do
      let different ← acs.areDifferent tmp
      if different || isStart then
        let tmp ← tmp.assignment acs
        let out ← body acs props
        let acs ← (if same then some acs.selfAssignment else acs.assignment out.1)
        iterate body same turns acs tmp false out.2
      else some (acs, props)

def applyProcess : ℕ → AST → AbstractCacheState → Props → Option (AbstractCacheState × Props)
  | 0, _, _, _ => none
  | fuel + 1, ast, state, props =>
      match ast with
      | .call _ _ function =>
          match info function with
          | some funAST => do
              let out ← applyProcess fuel funAST state props
              let acs ← state.assignment out.1
              some (acs, out.2.attach ast acs)
          | none => some (state, props)
      | .block _ insts => do
          let out ← insts.foldlM (access ast) (state, props)
          some (out.1, out.2.attach ast out.1)
      | .seq _ child1 child2 => do
          let out ← applyProcess fuel child1 state props
          let out ← applyProcess fuel child2 out.1 out.2
          let acs ← state.assignment out.1
          some (acs, out.2.attach ast acs)
      | .ifThen _ condition thenPart => do
          let out ← applyProcess fuel condition state props
          let out ← applyProcess fuel thenPart out.1 out.2
          let acs ← state.assignment out.1
          some (acs, out.2.attach ast acs)
      | .ifElse _ condition thenPart elsePart => do
          let tmp ← applyProcess fuel condition state props
          let out1 ← applyProcess fuel thenPart tmp.1 tmp.2
          let out2 ← applyProcess fuel elsePart tmp.1 out1.2
          let acs ← state.join out1.1 out2.1
          some (acs, out2.2.attach ast acs)
      | .whileAST _ count condition body => do
          let out ← applyProcess fuel condition state props
          let acs ← state.assignment out.1
          let out ← iterate (fun acs props => do
              let out ← applyProcess fuel body acs props
              applyProcess fuel condition out.1 out.2)
            (returnsState info body && returnsState info condition) count.toNat acs state true out.2
          some (out.1, out.2.attach ast out.1)
      | .forAST _ count init condition incrementation body => do
          let out ← applyProcess fuel init state props
          let out ← applyProcess fuel condition out.1 out.2
          let acs ← state.assignment out.1
          let out ← iterate (fun acs props => do
              let out ← applyProcess fuel body acs props
              let out ← applyProcess fuel incrementation out.1 out.2
              applyProcess fuel condition out.1 out.2)
            (returnsState info body && returnsState info incrementation && returnsState info condition)
            count.toNat acs state true out.2
          some (out.1, out.2.attach ast out.1)
      | .doWhile _ count condition body => do
          let out ← applyProcess fuel body state props
          let acs ← state.assignment out.1
          let out ← iterate (fun acs props => do
              let out ← applyProcess fuel condition acs props
              applyProcess fuel body out.1 out.2)
            (returnsState info condition && returnsState info body) count.toNat acs state true out.2
          some (out.1, out.2.attach ast out.1)

/-- One turn of the loop of `processAST`. -/
def processLine (fuel : ℕ) (ast : AST) (props : Props) (cacheLine : ℕ) : Option Props := do
  let indexes ← initialization info cache cacheLine fuel ast ⟨[], 0, props⟩
  if indexes.cacheLineLength ≠ 0 then
    let acs : AbstractCacheState := {
      cacheState := List.replicate cache.wayCount (List.replicate indexes.cacheLineLength false)
      htable := indexes.htable
      cacheLine := cacheLine
      hcat := [] }
    let out ← applyProcess info fuel ast acs indexes.props
    some out.2
  else some indexes.props

def processAST (fuel : ℕ) (ast : AST) (props : Props) : Option Props :=
  (List.range cache.rowCount).foldlM (processLine info cache fuel ast) props

end ACSComputation

end Otawa.Ets
