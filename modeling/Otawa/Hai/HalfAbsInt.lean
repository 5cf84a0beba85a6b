import Otawa.Hai.Cfg

/-!
# The half abstract interpretation solver

`HalfAbsInt` with `DefaultFixPoint` and `DefaultListener`. The state of each edge of a CFG, and what the
solver keeps for its headers, is a `Store`; the state of the solver has one store for each CFG, the call
edges with their return states, the function entries, the work-list and the two stacks.

An operation that reads the state of an edge gives `none` when no state is recorded: this is the failure of
`ASSERT(edgeState)` and the dereference of a null mark. The work-list has the block pushed last first, as
`workList->pop()` takes it; a run may take any of its blocks.
-/

namespace Otawa.HalfAbsInt

/-- `hai_context_t`. -/
inductive Context where
  | loop
  | func
  deriving DecidableEq, Repr

/-- A monotone data-flow problem; `bottom`, `lub` and `equals` are those of the domain. -/
structure Problem (B D : Type) [Preorder D] where
  update : B → D →o D
  enterContext : B → Context → D →o D
  leaveContext : B → Context → D →o D

/-- What the solver records for one CFG: `STATE` of the edges, and `FIRST_ITER`, `FIXED` and
`FIXPOINT_STATE(bb)->headerState` of the blocks. -/
structure Store (B E D : Type) where
  mark : E → Option D
  firstIter : B → Bool
  fixed : B → Bool
  headerState : B → Option D

namespace Cfg

variable {B E : Type} (c : Cfg B E)

def backEdges (b : B) : List E :=
  (c.inEdges b).filter c.isBack

def entryEdges (b : B) : List E :=
  (c.inEdges b).filter fun e => !c.isBack e

end Cfg

namespace Store

variable {B E D : Type}

/-- No edge is marked and every loop is at its first iteration. -/
def empty : Store B E D where
  mark _ := none
  firstIter _ := true
  fixed _ := false
  headerState _ := none

variable [DecidableEq B] [DecidableEq E] [SemilatticeSup D] [OrderBot D]

def markEdge (st : Store B E D) (e : E) (s : D) : Store B E D :=
  { st with mark := Function.update st.mark e (some ((st.mark e).getD ⊥ ⊔ s)) }

def unmarkEdge (st : Store B E D) (e : E) : Store B E D :=
  { st with mark := Function.update st.mark e none }

def unmarkEdges (st : Store B E D) (es : List E) : Store B E D :=
  es.foldl unmarkEdge st

/-- The union of the states of some edges, all of which must be recorded. -/
def union (mark : E → Option D) (es : List E) : Option D :=
  es.foldlM (fun x e => (mark e).map (x ⊔ ·)) ⊥

/-- The edge is marked, and if it leaves loops the outermost of them is fixed; or it is a back edge to a
header at its first iteration. -/
def isEdgeDone (c : Cfg B E) (st : Store B E D) (e : E) : Bool :=
  ((st.mark e).isSome && match c.loopExitEdge e with
    | none => true
    | some h => st.fixed h) ||
  (c.isBack e && st.firstIter (c.target e))

/-- Whether the block is pushed on the work-list. -/
def tryAddToWorkList (c : Cfg B E) (st : Store B E D) (b : B) : Bool :=
  (c.inEdges b).all (st.isEdgeDone c)

/-- Marks the out-edges one after the other; the second component has the blocks pushed meanwhile. -/
def addSuccessors (c : Cfg B E) (st : Store B E D) (b : B) (out : D) : Store B E D × List B :=
  (c.outEdges b).foldl (fun acc e =>
    let st := acc.1.markEdge e out
    if st.tryAddToWorkList c (c.target e) then (st, c.target e :: acc.2) else (st, acc.2)) (st, [])

def entryEdgeUnion (c : Cfg B E) (p : Problem B D) (st : Store B E D) (b : B) : Option D :=
  (union st.mark (c.entryEdges b)).map (p.enterContext b .loop)

def backEdgeUnion (c : Cfg B E) (st : Store B E D) (b : B) : Option D :=
  if st.firstIter b then some ⊥ else union st.mark (c.backEdges b)

variable [DecidableEq D]

/-- `DefaultFixPoint::fixPoint`: the new header state, and whether it is the one of the last iteration. -/
def fixPoint (c : Cfg B E) (p : Problem B D) (st : Store B E D) (b : B) (firstTime : Bool) :
    Option (D × Bool × Store B E D) := do
  let headerState ← st.headerState b
  let entry ← st.entryEdgeUnion c p b
  if firstTime then
    return (entry, false, { st with headerState := Function.update st.headerState b (some entry) })
  else
    let new := entry ⊔ (← st.backEdgeUnion c b)
    return (new, decide (new = headerState),
      { st with headerState := Function.update st.headerState b (some new) })

/-- The loop header case of `inputProcessing`. -/
def headerInput (c : Cfg B E) (p : Problem B D) (st : Store B E D) (b : B) :
    Option (D × Bool × Store B E D) := do
  let first := st.firstIter b
  let st := if first then { st with headerState := Function.update st.headerState b (some ⊥) } else st
  let (x, fixpoint, st) ← st.fixPoint c p b first
  let st := { st with
    firstIter := Function.update st.firstIter b false
    fixed := Function.update st.fixed b fixpoint }
  let st := st.unmarkEdges (c.backEdges b)
  if fixpoint then
    let st := { st with
      headerState := Function.update st.headerState b none
      firstIter := Function.update st.firstIter b true }
    return (x, fixpoint, st.unmarkEdges (c.entryEdges b))
  else
    return (x, fixpoint, st)

omit [DecidableEq D]

/-- The case of a simple block of `inputProcessing`: the in-edges stay marked while calls are pending. -/
def simpleInput (c : Cfg B E) (st : Store B E D) (b : B) (pending : Bool) : Option (D × Store B E D) := do
  let x ← union st.mark (c.inEdges b)
  return (x, if pending then st else st.unmarkEdges (c.inEdges b))

/-- The case of `outputProcessing` for a header whose fixpoint is reached: the exit edges leave the context
of the loop, and their targets are pushed once. -/
def exitLoop (c : Cfg B E) (p : Problem B D) (st : Store B E D) (b : B) : Option (Store B E D × List B) :=
  (c.exitList b).foldlM (fun acc e => do
    let alreadyAdded :=
      if !acc.2.contains (c.target e) && acc.1.tryAddToWorkList c (c.target e) then c.target e :: acc.2
      else acc.2
    let s ← acc.1.mark e
    return ({ acc.1 with mark := Function.update acc.1.mark e (some (p.leaveContext b .loop s)) },
      alreadyAdded)) (st, [])

end Store

/-- CFGs that call each other: the CALL edges of each block, in the order of its out-edges, with their
source and the called CFG. -/
structure Program (F : Type) (B E : F → Type) (C : Type) where
  cfg : ∀ f, Cfg (B f) (E f)
  calls : (Σ f, B f) → List C
  caller : C → Σ f, B f
  calledCFG : C → F

/-- The state of the solver and of its listener; `callMark` and `entryMark` are `STATE` of the CALL edges
and of the function entries. -/
structure State (F : Type) (B E : F → Type) (C D : Type) where
  store : ∀ f, Store (B f) (E f) D
  callMark : C → Option D
  entryMark : F → Option D
  workList : List (Σ f, B f)
  callStack : List C
  cfgStack : List F
  curCfg : F
  mainEntry : Bool
  results : F → ℕ → D

/-- The result of `detectCalls`. -/
structure Detected (C : Type) where
  nextEdge : Option C
  enterCall : Bool
  callEdges : List C

variable {F : Type} {B E : F → Type} {C D : Type}

namespace State

variable [DecidableEq F] [∀ f, DecidableEq (B f)] [∀ f, DecidableEq (E f)] [DecidableEq C]
  [SemilatticeSup D] [OrderBot D] [DecidableEq D]
  (P : Program F B E C) (p : ∀ f, Problem (B f) D) (entdom : D)

def setStore (s : State F B E C D) (f : F) (st : Store (B f) (E f) D) : State F B E C D :=
  { s with store := Function.update s.store f st }

def push (s : State F B E C D) (f : F) (added : List (B f)) : State F B E C D :=
  { s with workList := added.map (Sigma.mk f) ++ s.workList }

def detectCalls (s : State F B E C D) (b : Σ f, B f) : Detected C where
  nextEdge := (P.calls b).find? fun e => (s.callMark e).isNone
  enterCall := (P.calls b).all fun e => (s.callMark e).isNone
  callEdges := P.calls b

/-- The input state of a block, whether the fixpoint is reached at it, and the state after the edges that
are not needed any more are unmarked. -/
def inputProcessing (s : State F B E C D) (b : Σ f, B f) (calls : Detected C) :
    Option (D × Bool × State F B E C D) :=
  let c := P.cfg b.1
  if s.mainEntry then
    some (entdom, false, { s with mainEntry := false })
  else if b.2 = c.entry then
    (s.entryMark b.1).map fun x =>
      (x, false, { s with entryMark := Function.update s.entryMark b.1 none })
  else if calls.nextEdge.isNone && !calls.callEdges.isEmpty then
    (Store.union s.callMark calls.callEdges).map fun x =>
      (x, false, { s.setStore b.1 ((s.store b.1).unmarkEdges (c.inEdges b.2)) with
        callMark := calls.callEdges.foldl (fun mark e => Function.update mark e none) s.callMark })
  else if c.loopHeader b.2 then
    ((s.store b.1).headerInput c (p b.1) b.2).map fun r => (r.1, r.2.1, s.setStore b.1 r.2.2)
  else
    ((s.store b.1).simpleInput c b.2 calls.nextEdge.isSome).map fun r => (r.1, false, s.setStore b.1 r.2)

/-- `markEdge` on the entries of the called functions. -/
def markEntries (entryMark : F → Option D) (callEdges : List C) (out : D) : F → Option D :=
  callEdges.foldl (fun mark e =>
    Function.update mark (P.calledCFG e) (some ((mark (P.calledCFG e)).getD ⊥ ⊔ out))) entryMark

def addSuccessors (s : State F B E C D) (b : Σ f, B f) (out : D) : State F B E C D :=
  let r := (s.store b.1).addSuccessors (P.cfg b.1) b.2 out
  (s.setStore b.1 r.1).push b.1 r.2

/-- `DefaultListener::blockInterpreted`. -/
def blockInterpreted (s : State F B E C D) (b : Σ f, B f) (x : D) : State F B E C D :=
  let n := (P.cfg b.1).number b.2
  let states := Function.update (s.results s.curCfg) n (s.results s.curCfg n ⊔ x)
  { s with results := Function.update s.results s.curCfg states }

/-- Propagates the state after a block. When a function is entered, `enterContext` changes the output state
only after the entries are marked with it, and nothing reads it afterwards. -/
def outputProcessing (s : State F B E C D) (b : Σ f, B f) (calls : Detected C) (x : D) (fixpoint : Bool) :
    Option (State F B E C D) :=
  let c := P.cfg b.1
  let out := (p b.1).update b.2 x
  if c.loopHeader b.2 && fixpoint then
    ((s.store b.1).exitLoop c (p b.1) b.2).map fun r => (s.setStore b.1 r.1).push b.1 r.2
  else if b.2 = c.exit ∧ s.callStack ≠ [] then
    match s.callStack, s.cfgStack with
    | e :: callStack, f :: cfgStack =>
        let out := (p f).leaveContext (P.cfg f).entry .func out
        some { s with
          callStack := callStack
          cfgStack := cfgStack
          curCfg := f
          callMark := Function.update s.callMark e (some ((s.callMark e).getD ⊥ ⊔ out))
          workList := P.caller e :: s.workList }
    | _, _ => none
  else
    match calls.nextEdge with
    | some e =>
        some { s with
          entryMark := if calls.enterCall then markEntries P s.entryMark calls.callEdges out else s.entryMark
          callStack := e :: s.callStack
          cfgStack := s.curCfg :: s.cfgStack
          curCfg := P.calledCFG e
          workList := ⟨P.calledCFG e, (P.cfg (P.calledCFG e)).entry⟩ :: s.workList }
    | none =>
        if calls.callEdges.isEmpty then
          some ((s.blockInterpreted P b x).addSuccessors P b out)
        else
          some (s.addSuccessors P b x)

/-- One turn of the main loop, for a block taken from the work-list. -/
def process (s : State F B E C D) (b : Σ f, B f) : Option (State F B E C D) :=
  let s := { s with workList := s.workList.erase b }
  let calls := s.detectCalls P b
  (s.inputProcessing P p entdom b calls).bind fun r => r.2.2.outputProcessing P p b calls r.1 r.2.1

/-- The state `solve` starts from for the CFG `f`. -/
def start (f : F) : State F B E C D where
  store _ := .empty
  callMark _ := none
  entryMark _ := none
  workList := [⟨f, (P.cfg f).entry⟩]
  callStack := []
  cfgStack := []
  curCfg := f
  mainEntry := true
  results _ _ := ⊥

/-- `solve` takes some blocks from the work-list one after the other. -/
inductive Run : State F B E C D → List (Σ f, B f) → State F B E C D → Prop where
  | nil (s) : Run s [] s
  | cons {s t u b bs} : b ∈ s.workList → s.process P p entdom b = some t → Run t bs u → Run s (b :: bs) u

/-- `solve` itself: always the block pushed last is taken. -/
def solve : ℕ → State F B E C D → Option (State F B E C D)
  | 0, s => some s
  | fuel + 1, s =>
      match s.workList with
      | [] => some s
      | b :: _ => (s.process P p entdom b).bind (solve fuel)

end State

end Otawa.HalfAbsInt
