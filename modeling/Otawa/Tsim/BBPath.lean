import Mathlib.Algebra.Order.Group.Int
import Otawa.Lib.Trie
import Otawa.Lib.Windows

/-!
# `BBPath` and `Delta`

A path is a sequence of basic blocks, and the paths that have been asked for are kept in trees, one for each first
block, so that there is one object for each path. The object keeps the simulated time of the path and its delta, what
this time is more than the times of its sub-paths give.

The tree of a block may be made for a longer path, and then has no path at its root; `getBBPath` for the block alone
takes the path of the root as if there was one. `telescoping_iff` says that this is all that may go wrong.
-/

namespace Otawa.Tsim

/-- A path, with the property `TIME`, -1 by default, and the property `DELTA`; an `int` is taken without overflow. -/
structure BBPath (B : Type) where
  blocks : List B
  time : Int
  delta : Option Int

/-- The paths that have been made, by their numbers, and the property `Delta::TREE` of the blocks. The first block
is the root of its tree; the order of the children, which nothing reads, is not the one of `_childs`. -/
structure State (B : Type) where
  paths : List (BBPath B)
  trees : B → Option (Trie B (Option ℕ))

section Code

variable {B : Type} [DecidableEq B]

/-- `new BBPath`. -/
def State.alloc (st : State B) (blocks : List B) : State B :=
  { st with paths := st.paths ++ [⟨blocks, -1, none⟩] }

def State.setTree (st : State B) (bb : B) (tree : Trie B (Option ℕ)) : State B :=
  { st with trees := Function.update st.trees bb (some tree) }

def State.setPath (st : State B) (r : ℕ) (path : BBPath B) : State B :=
  { st with paths := st.paths.set r path }

/-- `TreePath::get` from the second block on. -/
def treeGet (tree : Trie B (Option ℕ)) (rest : List B) : Option ℕ := (tree.get rest).join

/-- `TreePath::add` from the second block on. -/
def treeAdd (tree : Trie B (Option ℕ)) (rest : List B) (r : ℕ) : Trie B (Option ℕ) :=
  tree.update none (fun _ => some r) rest

/-- `getBBPath` of a block. There is an assertion that the root has a path. -/
def getBBPathOf (bb : B) (st : State B) : Option (ℕ × State B) :=
  match st.trees bb with
  | none => some (st.paths.length, (st.alloc [bb]).setTree bb (.node (some st.paths.length) []))
  | some tree => tree.label.map fun r => (r, st)

/-- `getBBPath` of a vector, whose first block must exist. -/
def getBBPath (blocks : List B) (st : State B) : Option (ℕ × State B) :=
  match blocks with
  | [] => none
  | bb :: rest =>
    match st.trees bb with
    | none =>
      some (st.paths.length, (st.alloc blocks).setTree bb (treeAdd (.node none []) rest st.paths.length))
    | some tree =>
      match treeGet tree rest with
      | some r => some (r, st)
      | none => some (st.paths.length, (st.alloc blocks).setTree bb (treeAdd tree rest st.paths.length))

/-- `sub`: the bounds count from 1 and are in the sub-path. -/
def sub (blocks : List B) (first last : ℕ) : Option (List B) :=
  if 0 < first ∧ last ≤ blocks.length ∧ first ≤ last then some ((blocks.drop (first - 1)).take (last - first + 1))
  else none

variable (sim : List B → Int)

/-- `time`: the path is simulated if its time is not known. -/
def time (r : ℕ) (st : State B) : Option (Int × State B) := do
  let path ← st.paths[r]?
  if path.time < 0 then some (sim path.blocks, st.setPath r { path with time := sim path.blocks })
  else some (path.time, st)

/-- The time of a sub-path. -/
def subTime (blocks : List B) (first last : ℕ) (st : State B) : Option (Int × State B) := do
  let part ← sub blocks first last
  let (r, st) ← getBBPath part st
  time sim r st

/-- `DELTA(bbp) = *delta`. -/
def setDelta (r : ℕ) (delta : Int) (st : State B) : Option (Int × State B) := do
  let path ← st.paths[r]?
  some (delta, st.setPath r { path with delta := some delta })

/-- `Delta::delta`. -/
def delta (r : ℕ) (st : State B) : Option (Int × State B) := do
  let path ← st.paths[r]?
  let l := path.blocks.length
  if l ≤ 1 then some (0, st)
  else
    match path.delta with
    | some d => setDelta r d st
    | none =>
      let (t, st) ← time sim r st
      let (left, st) ← subTime sim path.blocks 1 (l - 1) st
      let (right, st) ← subTime sim path.blocks 2 l st
      if l = 2 then setDelta r (t - left - right) st
      else
        let (mid, st) ← subTime sim path.blocks 2 (l - 1) st
        setDelta r (t - left - right + mid) st

/-- What may be asked for: the path of a block, the one of a vector, and the time and the delta of a path. -/
inductive Request (B : Type) where
  | single (bb : B)
  | path (bb : B) (rest : List B)
  | time (bb : B) (rest : List B)
  | delta (bb : B) (rest : List B)

inductive Answer where
  | path (r : ℕ)
  | value (v : Int)
  deriving DecidableEq

def exec (st : State B) : Request B → Option (Answer × State B)
  | .single bb => (getBBPathOf bb st).map (Prod.map .path id)
  | .path bb rest => (getBBPath (bb :: rest) st).map (Prod.map .path id)
  | .time bb rest => do
    let (r, st) ← getBBPath (bb :: rest) st
    (time sim r st).map (Prod.map .value id)
  | .delta bb rest => do
    let (r, st) ← getBBPath (bb :: rest) st
    (delta sim r st).map (Prod.map .value id)

/-- The requests one after the other, each with its answer. -/
def run : State B → List (Request B) → Option (List (Request B × Answer) × State B)
  | st, [] => some ([], st)
  | st, request :: requests => do
    let (answer, st) ← exec sim st request
    let (log, st) ← run st requests
    some ((request, answer) :: log, st)

/-- No path has been asked for. -/
def State.start : State B := ⟨[], fun _ => none⟩

end Code

end Otawa.Tsim
