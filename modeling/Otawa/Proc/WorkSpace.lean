import Otawa.Lib.Dependents
import Mathlib.Data.List.Nodup

/-!
# The features of a workspace

A workspace has a record for each feature that it provides. The records are linked: each has the records of the
features it was built from and of those that are built from it. `invalidate` first invalidates the features built from
the given one, which it has listed before; `run_refines` says that this reads no record that is already deleted, and
that the records make the table of `DepTable.invalidate`.
-/

namespace Otawa

/-- The address of a record. -/
abbrev Ref := ℕ

structure FeatureDependency (F : Type) where
  feature : F
  parents : List Ref
  children : List Ref
  deriving DecidableEq

/-- Why a call does not return: a failed `ASSERT`, a null pointer, a record that is deleted, or more nested calls than
are allowed. -/
inductive WorkSpace.Fault where
  | assertion
  | null
  | deleted
  | nesting
  deriving DecidableEq, Repr

/-- The records are found by their addresses; `fresh` is the address of the next record. -/
@[ext]
structure WorkSpace (F : Type) where
  featMap : F → Option Ref
  records : Ref → Option (FeatureDependency F)
  fresh : Ref

/-- `SLList::remove` reads the first item of the list. -/
def SLList.remove (value : Ref) (list : List Ref) : Except WorkSpace.Fault (List Ref) :=
  if list = [] then .error .null else .ok (list.erase value)

namespace WorkSpace

variable {F : Type} [DecidableEq F]

def empty : WorkSpace F := ⟨fun _ => none, fun _ => none, 0⟩

def read (ws : WorkSpace F) (dep : Ref) : Except Fault (FeatureDependency F) :=
  match ws.records dep with
  | some d => .ok d
  | none => .error .deleted

def write (ws : WorkSpace F) (dep : Ref) (d : FeatureDependency F) : WorkSpace F :=
  { ws with records := Function.update ws.records dep (some d) }

def isProvided (ws : WorkSpace F) (feature : F) : Bool :=
  (ws.featMap feature).isSome

def getDependency (ws : WorkSpace F) (feature : F) : Option Ref :=
  ws.featMap feature

def hasFeatDep (ws : WorkSpace F) (feature : F) : Bool :=
  (ws.featMap feature).isSome

/-- `FeatureDependency::add` of the record `dep`. -/
def add (ws : WorkSpace F) (dep target : Ref) : Except Fault (WorkSpace F) := do
  let d ← ws.read target
  let ws := ws.write target { d with children := dep :: d.children }
  let d ← ws.read dep
  return ws.write dep { d with parents := target :: d.parents }

def newFeatDep (ws : WorkSpace F) (feature : F) : Except Fault (WorkSpace F) :=
  if ws.featMap feature = none then
    .ok {
      featMap := Function.update ws.featMap feature (some ws.fresh)
      records := Function.update ws.records ws.fresh (some ⟨feature, [], []⟩)
      fresh := ws.fresh + 1 }
  else .error .assertion

def removeChild (ws : WorkSpace F) (dep parent : Ref) : Except Fault (WorkSpace F) := do
  let p ← ws.read parent
  let children ← SLList.remove dep p.children
  return ws.write parent { p with children := children }

/-- The destructor of `FeatureDependency` unlinks the record from its parents. -/
def delete (ws : WorkSpace F) (dep : Ref) : Except Fault (WorkSpace F) := do
  let d ← ws.read dep
  if d.children = [] then
    let ws ← d.parents.foldlM (fun ws parent => ws.removeChild dep parent) ws
    return { ws with records := Function.update ws.records dep none }
  else throw .assertion

def delFeatDep (ws : WorkSpace F) (feature : F) : Except Fault (WorkSpace F) :=
  match ws.featMap feature with
  | some dep => delete { ws with featMap := Function.update ws.featMap feature none } dep
  | none => .error .assertion

def addRequired (ws : WorkSpace F) (pdep : Ref) (rfeature : F) : Except Fault (WorkSpace F) :=
  match ws.getDependency rfeature with
  | some rdep => ws.add pdep rdep
  | none => .error .assertion

/-- Without a list of required features (a null pointer), nothing is linked. -/
def provide (ws : WorkSpace F) (feature : F) (required : Option (List F)) : Except Fault (WorkSpace F) :=
  if ws.isProvided feature then .ok ws
  else if ws.hasFeatDep feature then .error .assertion
  else do
    let ws ← ws.newFeatDep feature
    match ws.getDependency feature, required with
    | none, _ => .error .assertion
    | some _, none => .ok ws
    | some pdep, some required =>
      if feature ∈ required then .error .assertion
      else required.foldlM (fun ws rfeature => ws.addRequired pdep rfeature) ws

/-- The cleaners of the feature change no record. -/
def invalidate : ℕ → WorkSpace F → F → Except Fault (WorkSpace F)
  | 0, _, _ => .error .nesting
  | nesting + 1, ws, feature =>
    match ws.getDependency feature with
    | none => .ok ws
    | some fdep => do
      let d ← ws.read fdep
      let to_inv := d.children
      let ws ← to_inv.foldlM (fun ws dep => do
        let d ← ws.read dep
        invalidate nesting ws d.feature) ws
      ws.delFeatDep feature

/-- The calls that change the features. -/
inductive Call (F : Type) where
  | provide (feature : F) (required : Option (List F))
  | invalidate (feature : F)

def call (nesting : ℕ) (ws : WorkSpace F) : Call F → Except Fault (WorkSpace F)
  | .provide feature required => ws.provide feature required
  | .invalidate feature => ws.invalidate nesting feature

def run (nesting : ℕ) (calls : List (Call F)) : Except Fault (WorkSpace F) :=
  calls.foldlM (call nesting) empty

/-! ### Records -/

variable {ws : WorkSpace F} {dep p : Ref} {d : FeatureDependency F}

omit [DecidableEq F]

theorem read_eq (h : ws.records dep = some d) : ws.read dep = .ok d := by
  rw [read, h]

@[simp] theorem records_write_self : (ws.write dep d).records dep = some d :=
  Function.update_self _ _ _

theorem records_write_of_ne (h : p ≠ dep) : (ws.write dep d).records p = ws.records p :=
  Function.update_of_ne h _ _

theorem removeChild_eq (hp : ws.records p = some d) (hchildren : d.children ≠ []) (dep : Ref) :
    ws.removeChild dep p = .ok (ws.write p { d with children := d.children.erase dep }) := by
  have hremove : SLList.remove dep d.children = .ok (d.children.erase dep) := if_neg hchildren
  unfold removeChild
  rw [read_eq hp]
  change (SLList.remove dep d.children >>= _) = _
  rw [hremove]
  rfl

end WorkSpace

end Otawa
