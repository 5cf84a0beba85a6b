import Otawa.Cfg.Graph
import Otawa.Property.Contextual

/-!
# `ContextualProcessor`

`processCFG` traverses a CFG with a stack of edges, and a null edge on it for the end of each inlined call. What it does is the
sequence of the virtual methods that it calls; `FlowFactLoader` pushes and pops its path in two of them.
-/

namespace Otawa

/-- A CFG with the properties that the virtualizer hooks to its blocks and edges; `label` is the CFG itself. -/
structure VirtualCFG (F B E : Type) where
  label : F
  cfg : CFG B E
  virtualReturnBlock : B → Option B
  calledCFG : E → Option F
  recursiveLoop : E → Bool

namespace ContextualProcessor

/-- The calls of the virtual methods. -/
inductive Event (B E : Type) where
  | enteringCall (edge : E)
  | leavingCall (edge : E)
  | avoidingRecursive (edge : E)
  | processBB (bb : B)
  deriving DecidableEq, Repr

inductive Failure (F : Type) where
  | assertion
  | unconnected (called : F)
  deriving DecidableEq, Repr

/-- The local variables of `processCFG`, the marks and the methods called so far. The tops of the stacks come first. -/
structure State (F B E : Type) where
  todo : List (Option E)
  calls : List (F × Option E)
  mark : B → Option F
  events : List (Event B E)

variable {F B E : Type} [DecidableEq B] (g : VirtualCFG F B E)

/-- The block that a call of the block returns to. -/
def returnBlock (bb : B) : B := (g.virtualReturnBlock bb).getD g.cfg.exit

def initial : State F B E :=
  ⟨(g.cfg.outs g.cfg.entry).reverse.map some, [(g.label, none)], fun _ => none, []⟩

/-- "process basic block". -/
def processBlock (s : State F B E) (bb : B) : State F B E where
  todo := (g.cfg.outs bb).reverse.map some ++ s.todo
  calls := s.calls
  mark := Function.update s.mark bb (s.calls.head?.map Prod.fst)
  events := s.events ++ [.processBB bb]

/-- "simple call". -/
def simpleCall (s : State F B E) (edge : E) : Except (Failure F) (State F B E) :=
  let called := (g.calledCFG edge).getD g.label
  match g.cfg.ins (returnBlock g (g.cfg.source edge)) with
  | [] => .error (.unconnected called)
  | back :: _ =>
    .ok (processBlock g ⟨none :: s.todo, (called, some back) :: s.calls, s.mark, s.events ++ [.enteringCall edge]⟩
      (g.cfg.target edge))

def virtualCall (s : State F B E) (edge : E) : Except (Failure F) (State F B E) :=
  if (s.mark (g.cfg.target edge)).isSome then .ok { s with events := s.events ++ [.avoidingRecursive edge] }
  else simpleCall g s edge

def processEdge (s : State F B E) (edge : E) : Except (Failure F) (State F B E) :=
  match g.cfg.kind edge with
  | .virtualReturn | .call => .ok s
  | .taken | .notTaken =>
    if (s.mark (g.cfg.target edge)).isSome then .ok s else .ok (processBlock g s (g.cfg.target edge))
  | .virtual => if g.cfg.target edge = g.cfg.exit then .ok s else virtualCall g s edge
  | .virtualCall => virtualCall g s edge
  | .none | .exnCall | .exnReturn => .error .assertion

/-- "null edge -> leaving function". -/
def leaveFunction (s : State F B E) : Except (Failure F) (State F B E) :=
  match s.calls with
  | (_, some back) :: calls =>
    .ok (processBlock g ⟨s.todo, calls, s.mark, s.events ++ [.leavingCall back]⟩ (g.cfg.target back))
  | _ => .error .assertion

/-- One turn of the loop. -/
def turn (s : State F B E) : Except (Failure F) (State F B E) :=
  match s.todo with
  | [] => .ok s
  | none :: todo => leaveFunction g { s with todo }
  | some edge :: todo => processEdge g { s with todo } edge

/-- The turns of `processCFG`. -/
def run : ℕ → State F B E → Except (Failure F) (State F B E)
  | 0, s => .ok s
  | n + 1, s => run n s >>= turn g

/-- The calls that are entered and not left. -/
def pending (events : List (Event B E)) : List E :=
  events.foldl (fun calls event =>
    match event with
    | .enteringCall edge => edge :: calls
    | .leavingCall _ => calls.tail
    | _ => calls) []

def processed (events : List (Event B E)) : List B :=
  events.filterMap fun event =>
    match event with
    | .processBB bb => some bb
    | _ => none

end ContextualProcessor

namespace FlowFactLoader

open ContextualProcessor

variable {F B E A : Type} [DecidableEq B] (g : VirtualCFG F B E) (address callAddress : B → A)

/-- `callAddress` is the address of the call instruction of a block, or of its last control instruction. -/
def enteringCall (path : ContextualPath A) (caller callee : B) : ContextualPath A :=
  (if caller = g.cfg.entry then path else path ++ [⟨.call, callAddress caller⟩]) ++ [⟨.function, address callee⟩]

/-- `pop` of an empty path is an error. -/
def pop (path : ContextualPath A) : Option (ContextualPath A) :=
  if path = [] then none else some path.dropLast

def leavingCall (path : ContextualPath A) (bb : B) : Option (ContextualPath A) := do
  let path ← pop path
  if bb = g.cfg.exit then return path else pop path

/-- The path after the methods. -/
def path (events : List (Event B E)) : Option (ContextualPath A) :=
  events.foldlM (fun path event =>
    match event with
    | .enteringCall edge => some (enteringCall g address callAddress path (g.cfg.source edge) (g.cfg.target edge))
    | .leavingCall edge => leavingCall g path (g.cfg.target edge)
    | _ => some path) []

end FlowFactLoader

end Otawa
