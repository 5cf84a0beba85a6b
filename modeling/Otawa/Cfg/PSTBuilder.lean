import Otawa.Cfg.Graph
import Mathlib.Data.Int.Notation
import Mathlib.Logic.Relation

/-!
# The program structure tree

`buildTree` follows the edges of a graph whose edges have their cycle-equivalence classes, and builds a tree node for a
region when it comes to the first edges of a class. The nodes are objects linked by pointers: a pointer is the place of
the object in `trees`, a null pointer is `none`.
-/

namespace Otawa

/-- `CEClass`: the edges that are left, and whether none was met. -/
structure CEClass where
  count : ℤ
  first : Bool

namespace CEClass

def dec (cl : CEClass) : CEClass := ⟨cl.count - 1, false⟩

def isLast (cl : CEClass) : Bool := cl.count = 1

def isFirst (cl : CEClass) : Bool := cl.first

end CEClass

/-- `SESERegion`, without the graph it comes from. -/
structure SESERegion (B E C : Type) where
  entry : Option E
  exit : Option E
  parent : Option ℕ
  bbs : List B
  first : Bool
  last : Bool
  classe : Option C

namespace SESERegion

variable {B E C : Type}

/-- `SESERegion(cfg)`, for the root; it does not set `first` and `last`. -/
def root (c : CFG B E) : SESERegion B E C where
  entry := (c.outs c.entry).head?
  exit := (c.ins c.exit).head?
  parent := none
  bbs := []
  first := false
  last := false
  classe := none

def make (entry : E) (parent : Option ℕ) (first : Bool) (classe : C) : SESERegion B E C where
  entry := some entry
  exit := none
  parent := parent
  bbs := []
  first := first
  last := false
  classe := some classe

def addBB (region : SESERegion B E C) (bb : B) : SESERegion B E C :=
  { region with bbs := region.bbs ++ [bb] }

def setExit (region : SESERegion B E C) (exit : E) : SESERegion B E C :=
  { region with exit := some exit }

def setLast (region : SESERegion B E C) : SESERegion B E C :=
  { region with last := true }

end SESERegion

/-- A node of the tree. -/
structure PSTree (B E C : Type) where
  data : SESERegion B E C
  children : Option ℕ
  sibling : Option ℕ

namespace PSTree

variable {B E C : Type}

/-- The last of the siblings from a node; a loop over more nodes than there are does not end. -/
def lastSibling (trees : List (PSTree B E C)) : ℕ → ℕ → Option ℕ
  | 0, _ => none
  | fuel + 1, node =>
      match trees[node]? with
      | none => none
      | some tree =>
          match tree.sibling with
          | none => some node
          | some next => lastSibling trees fuel next

def prependChild (trees : List (PSTree B E C)) (tree child : ℕ) : List (PSTree B E C) :=
  let first := trees[tree]?.bind PSTree.children
  let trees := trees.modify child fun t => { t with sibling := first }
  trees.modify tree fun t => { t with children := some child }

def appendChild (trees : List (PSTree B E C)) (tree child : ℕ) : Option (List (PSTree B E C)) :=
  match trees[tree]?.bind PSTree.children with
  | none => some (trees.modify tree fun t => { t with children := some child })
  | some first => do
      let last ← lastSibling trees trees.length first
      some (trees.modify last fun t => { t with sibling := some child })

def modifyData (trees : List (PSTree B E C)) (tree : ℕ) (f : SESERegion B E C → SESERegion B E C) :
    List (PSTree B E C) :=
  trees.modify tree fun t => { t with data := f t.data }

end PSTree

namespace PSTBuilder

variable {B E C : Type} [DecidableEq B] [DecidableEq E] [DecidableEq C]

/-- The nodes of the tree and the properties that `buildTree` uses. -/
structure State (B E C : Type) where
  trees : List (PSTree B E C)
  pstClass : E → Option C
  classes : C → CEClass
  dfsnum : B → ℤ
  programStructureTree : B → Option ℕ

/-- What `buildTree` does for an edge before it comes to its target, with the node for the target. -/
def followEdge (subtree : ℕ) (edge : E) (s : State B E C) : Option (ℕ × State B E C) :=
  let found := s.pstClass edge
  let s := { s with pstClass := Function.update s.pstClass edge none }
  match found with
  | none => some (subtree, s)
  | some cl =>
      let ce := s.classes cl
      if !ce.isFirst || !ce.isLast then
        let s := { s with classes := Function.update s.classes cl ce.dec }
        let created := s.trees.length
        if ce.isFirst then
          let trees := s.trees ++ [⟨.make edge (some subtree) true cl, none, none⟩]
          some (created, { s with trees := PSTree.prependChild trees subtree created })
        else do
          let trees := PSTree.modifyData s.trees subtree fun region => region.setExit edge
          -- a null parent is refused by appendChild, and is no node to go on with
          let parent ← trees[subtree]?.bind fun tree => tree.data.parent
          if !ce.isLast then
            let trees := trees ++ [⟨.make edge (some parent) false cl, none, none⟩]
            let trees ← PSTree.appendChild trees subtree parent
            some (created, { s with trees := trees })
          else
            some (parent, { s with trees := PSTree.modifyData trees subtree SESERegion.setLast })
      else some (subtree, s)

/-- The body of the loop over the edges of a block, with the recursive call. -/
def visitEdge (c : CFG B E) (build : B → ℕ → State B E C → Option (State B E C)) (subtree : ℕ) (s : State B E C)
    (edge : E) : Option (State B E C) :=
  if c.kind edge ≠ .call then do
    let r ← followEdge subtree edge s
    let newbb := c.target edge
    if r.2.dfsnum newbb ≠ -1 then
      build newbb r.1 { r.2 with dfsnum := Function.update r.2.dfsnum newbb (-1) }
    else some r.2
  else some s

def buildTree (c : CFG B E) : ℕ → B → ℕ → State B E C → Option (State B E C)
  | 0, _, _, _ => none
  | fuel + 1, bb, subtree, s =>
      let s := { s with
        programStructureTree := Function.update s.programStructureTree bb (some subtree)
        trees := PSTree.modifyData s.trees subtree fun region => region.addBB bb }
      (c.outs bb).foldlM (visitEdge c (buildTree c fuel) subtree) s

/-- The state before the first call, with the classes and the numbers of the first two passes. -/
def start (c : CFG B E) (pstClass : E → Option C) (classes : C → CEClass) (dfsnum : B → ℤ) : State B E C where
  trees := [⟨.root c, none, none⟩]
  pstClass := pstClass
  classes := classes
  dfsnum := dfsnum
  programStructureTree := fun _ => none

end PSTBuilder

end Otawa
