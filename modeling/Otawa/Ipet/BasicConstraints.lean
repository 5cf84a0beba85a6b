import Otawa.Cfg.Virtualizer
import Otawa.Ilp.Expr

/-!
# `BasicConstraintsBuilder`

The structural constraints of the IPET: the executions of a block are those of its input edges and of its output
edges, the entry of a function executes as often as the function is called, and the edge of a calling block that
is not taken stands for the returns of its calls.
-/

namespace Otawa.Ipet

open Ilp

/-- The variables of `VarAssignment`: one for each block and one for each edge. -/
inductive Var (B E : Type) where
  | block (b : B)
  | edge (e : E)
  deriving DecidableEq

/-- The system, with the constraints that `CALLING_CONSTRAINT` gives for the called CFGs. These grow as the
blocks are processed. -/
structure State (F B E : Type) where
  constraints : List (Constraint (Var B E))
  callingConstraint : F → Option (Constraint (Var B E))

/-- What the loop over the output edges leaves: the output constraint, `nt` and `is_call`. -/
structure Output (B E : Type) where
  c : Cons (Var B E)
  nt : Option E
  isCall : Bool

namespace BasicConstraintsBuilder

variable {F B E : Type} [DecidableEq F] [DecidableEq B] (c : Collection F B E)

/-- `x(VAR(b))`. -/
def xBlock (b : B) : Term (Var B E) := .x (.block b)

/-- `x(VAR(e))`. -/
def xEdge (e : E) : Term (Var B E) := .x (.edge e)

/-- `addEntryConstraint`. -/
def addEntryConstraint (s : State F B E) (called : F) (edge : E) : State F B E :=
  let k :=
    match s.callingConstraint called with
    | none => (Cons.new.plus (xBlock (c.cfg called).entry)).eq (.const 0)
    | some calling => .ofConstraint calling
  { s with callingConstraint := Function.update s.callingConstraint called (some (k.plus (xEdge edge)).c) }

def inputConstraint (f : F) (bb : B) : Cons (Var B E) :=
  ((c.cfg f).ins bb).foldl (fun k edge => if (c.cfg f).kind edge ≠ .call then k.plus (xEdge edge) else k)
    ((Cons.new.plus (xBlock bb)).eq (.const 0))

/-- One turn of the loop over the output edges. -/
def outputEdge (f : F) (out : Output B E) (edge : E) : Output B E :=
  if (c.cfg f).kind edge ≠ .call then
    { out with
      c := out.c.plus (xEdge edge)
      nt := if (c.cfg f).kind edge = .notTaken ∨ (c.cfg f).kind edge = .virtual then some edge else out.nt }
  else { out with isCall := true }

def output (f : F) (bb : B) : Output B E :=
  ((c.cfg f).outs bb).foldl (outputEdge c f) ⟨(Cons.new.plus (xBlock bb)).eq (.const 0), none, false⟩

/-- One turn of the loop over the calls. An unresolved call raises an exception. -/
def callEdge (f : F) (acc : State F B E × Cons (Var B E)) (edge : E) : Option (State F B E × Cons (Var B E)) :=
  if (c.cfg f).kind edge = .call then
    (c.calledCFG edge).map fun called => (addEntryConstraint c acc.1 called edge, acc.2.plus (xEdge edge))
  else some acc

def returnConstraint (bb : B) (nt : E) : Cons (Var B E) :=
  if c.isConditional bb then (Cons.new.plus (xEdge nt)).ge (.const 0)
  else (Cons.new.plus (xEdge nt)).eq (.const 0)

/-- `processBB`. There is no variable of a null edge. -/
def processBB (f : F) (s : State F B E) (bb : B) : Option (State F B E) :=
  let s := if bb = (c.cfg f).entry then s
    else { s with constraints := s.constraints ++ [(inputConstraint c f bb).c] }
  if bb = (c.cfg f).exit then some s
  else
    let out := output c f bb
    let s := { s with constraints := s.constraints ++ [out.c.c] }
    if out.isCall then do
      let nt ← out.nt
      let (s, k) ← ((c.cfg f).outs bb).foldlM (callEdge c f) (s, returnConstraint c bb nt)
      return { s with constraints := s.constraints ++ [k.c] }
    else some s

/-- `BBProcessor::processWorkSpace`: the blocks of all CFGs. -/
def processBlocks : Option (State F B E) :=
  c.cfgs.foldlM (fun s f => (c.cfg f).bbs.foldlM (processBB c f) s) ⟨[], fun _ => none⟩

/-- `processWorkSpace`; nothing reads the `CALLING_CONSTRAINT` that it sets for the entry CFG. -/
def processWorkSpace (entryCFG : F) : Option (State F B E) :=
  (processBlocks c).map fun s =>
    { s with constraints := s.constraints ++ [((Cons.new.plus (xBlock (c.cfg entryCFG).entry)).eq (.const 1)).c] }

end BasicConstraintsBuilder

/-- The variables satisfy the constraints of the system. -/
def State.Holds {F B E : Type} (s : State F B E) (val : Var B E → ℤ) : Prop :=
  (∀ k ∈ s.constraints, k.Holds val) ∧ ∀ f k, s.callingConstraint f = some k → k.Holds val

end Otawa.Ipet
