import Otawa.Cfg.Graph
import Mathlib.Data.List.Lattice
import Mathlib.Data.Nat.Basic
import Mathlib.Order.Basic

/-!
# Context trees

A context tree has a node for each function in each of the contexts it is called from, and a node for each loop of the
function. The nodes are made by the constructors of `ContextTree`, that call each other for the calls of a block.

The nodes are given by their numbers, in the order they are made in. A property that is missing gives `none`.
-/

namespace Otawa.ContextTree

/-- `ContextTree::kind_t`. -/
inductive Kind where
  | root
  | function
  | loop
  deriving DecidableEq

/-- An edge, with the called CFG of a CALL edge if it is known. -/
structure CallEdge (C : Type) where
  kind : EdgeKind
  calledCFG : Option C

/-- The CFGs of a workspace: `loopHeader` and `enclosing` are the properties `LOOP_HEADER` and
`ENCLOSING_LOOP_HEADER` of the blocks. -/
structure Program (B C : Type) where
  cfgs : List C
  bbs : C → List B
  entry : C → B
  loopHeader : B → Bool
  enclosing : B → Option B
  isCall : B → Bool
  outs : B → List (CallEdge C)

structure Node (B C : Type) where
  kind : Kind
  bb : B
  cfg : C
  bbs : List B
  children : List ℕ
  parent : Option ℕ

/-- `owner` is the property `OWNER_CONTEXT_TREE`. -/
structure State (B C : Type) where
  nodes : List (Node B C)
  owner : B → Option ℕ

section Code

variable {B C : Type} [DecidableEq B] [DecidableEq C]

/-- The nodes from `cur` on to the root, by the parents. -/
def chain (nodes : List (Node B C)) : ℕ → Option ℕ → List (ℕ × Node B C)
  | 0, _ => []
  | _, none => []
  | fuel + 1, some cur =>
      match nodes[cur]? with
      | none => []
      | some node => (cur, node) :: chain nodes fuel node.parent

/-- The functions that the node is in, itself included, the last call first. -/
def functions (nodes : List (Node B C)) (t : ℕ) : List C :=
  ((chain nodes nodes.length (some t)).filter fun cur => cur.2.kind ≠ .loop).map fun cur => cur.2.cfg

def enclosingFunction (nodes : List (Node B C)) (t : ℕ) : Option ℕ :=
  ((chain nodes nodes.length (some t)).find? fun cur => cur.2.kind ≠ .loop).map Prod.fst

def addChild (t child : ℕ) (st : State B C) : State B C :=
  { st with
    nodes := (st.nodes.modify t fun node => { node with children := node.children ++ [child] }).modify child
      fun node => if node.kind = .root then { node with kind := .function } else node }

def setOwner (bb : B) (t : ℕ) (st : State B C) : State B C :=
  { st with owner := Function.update st.owner bb (some t) }

/-- The CFGs that are called by the edges of the block, when they are known. -/
def Program.resolved (p : Program B C) (bb : B) : List C :=
  (p.outs bb).filterMap fun edge => if edge.kind = .call then edge.calledCFG else none

/-- The constructor of the tree of a CFG, for the parent. -/
abbrev Constructor (B C : Type) := C → Option ℕ → State B C → Option (ℕ × State B C)

/-- The loop of `addBB`: it stops at a recursive call. -/
def processCalls (construct : Constructor B C) (t : ℕ) : List C → State B C → Option (State B C)
  | [], st => some st
  | called :: rest, st =>
      if called ∈ functions st.nodes t then some st
      else do
        let function ← enclosingFunction st.nodes t
        let (child, st) ← construct called (some function) st
        processCalls construct t rest (addChild t child st)

def addBB (p : Program B C) (construct : Constructor B C) (inline : Bool) (t : ℕ) (bb : B) (st : State B C) :
    Option (State B C) :=
  let st := { st with nodes := st.nodes.modify t fun node => { node with bbs := node.bbs ++ [bb] } }
  if inline && p.isCall bb then processCalls construct t (p.resolved bb) st else some st

/-- The first loop of the constructor: a tree for each header. -/
def addLoop (p : Program B C) (construct : Constructor B C) (inline : Bool) (cfg : C) (this : ℕ) (st : State B C) (bb : B) :
    Option (State B C) :=
  if p.loopHeader bb then
    let t := st.nodes.length
    addBB p construct inline t bb
      (setOwner bb t { st with nodes := st.nodes ++ [⟨.loop, bb, cfg, [], [], some this⟩] })
  else some st

/-- The second loop of the constructor. -/
def link (p : Program B C) (construct : Constructor B C) (inline : Bool) (this : ℕ) (st : State B C) (bb : B) :
    Option (State B C) := do
  let parent ← match p.enclosing bb with
    | none => some this
    | some header => st.owner header
  if p.loopHeader bb then
    let t ← st.owner bb
    return addChild parent t st
  else
    let st ← addBB p construct inline parent bb st
    return setOwner bb parent st

/-- The constructor for a CFG; `fuel` bounds the depth of the calls. -/
def build (p : Program B C) : ℕ → Bool → Constructor B C
  | 0, _, _, _, _ => none
  | fuel + 1, inline, cfg, parent, st => do
      let this := st.nodes.length
      let st := { st with nodes := st.nodes ++ [⟨.root, p.entry cfg, cfg, [], [], parent⟩] }
      let st ← (p.bbs cfg).foldlM (addLoop p (build p fuel true) inline cfg this) st
      let st ← (p.bbs cfg).foldlM (link p (build p fuel true) inline this) st
      return (this, st)

/-- The nodes of the tree of the CFG, with the calls inlined. -/
def contextTree (p : Program B C) (cfg : C) : Option (List (Node B C)) :=
  (build p p.cfgs.length true cfg none ⟨[], fun _ => none⟩).map fun result => result.2.nodes

end Code

end Otawa.ContextTree
