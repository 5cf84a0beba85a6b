import Otawa.Etime.Config
import Otawa.Ilp.Expr

/-!
# `EdgeTimeBuilder`

The times of an edge: its configurations are collected by their costs, in the order of their masks, split in a low and a high
time set, and linked to the estimations of the events by the collectors.
-/

namespace Otawa.Etime

open Ilp

inductive Occurrence where
  | never
  | sometimes
  | always
  deriving DecidableEq, Repr

/-- `type_t`. -/
inductive EventType where
  | edge
  | block
  deriving DecidableEq, Repr

/-- `place_t`. -/
inductive Place where
  | inPrefix
  | inEdge
  | inBlock
  deriving DecidableEq, Repr

/-- `EventCollector::case_t`. -/
inductive Case where
  | prefixOff
  | prefixOn
  | blockOff
  | blockOn
  deriving DecidableEq, Repr

/-- `EventCollector::isOn`. -/
def Case.isOn : Case → Bool
  | .prefixOff | .blockOff => false
  | .prefixOn | .blockOn => true

/-- `VAR` of an edge, its new variable, and the variables of the events. -/
inductive Var (E V : Type) where
  | edge (e : E)
  | hts (e : E)
  | event (v : V)
  deriving DecidableEq, Repr

/-- `Event`; `estimate` has what it adds to the left of a constraint. -/
structure Event (E V : Type) where
  type : EventType
  occurrence : Occurrence
  weight : ℤ
  isEstimating : Bool → Bool
  estimate : Bool → List (Term (Var E V))

structure ConfigSet where
  time : ℤ
  confs : List Mask
  deriving DecidableEq, Repr

/-- An edge with its events, the result of `graph->analyze()` for a configuration of the variable ones, and the weight of the
target. -/
structure Sequence (E Ev : Type) where
  edge : E
  allEvents : List (Ev × Place)
  cost : Mask → ℤ
  weight : ℤ

/-! ### The configurations -/

/-- The configuration is added to the set of its cost. -/
def addConfig (cost : ℤ) (mask : Mask) : List ConfigSet → List ConfigSet
  | [] => [⟨cost, [mask]⟩]
  | s :: confs => if s.time = cost then ⟨s.time, s.confs ++ [mask]⟩ :: confs else s :: addConfig cost mask confs

/-- The configurations of `n` events. -/
def masks (n : ℕ) : List Mask := (List.range (2 ^ n)).map (BitVec.ofNat 32)

def collect (cost : Mask → ℤ) (ms : List Mask) : List ConfigSet :=
  ms.foldl (fun confs mask => addConfig (cost mask) mask confs) []

/-- `confs[i].time()`. -/
def timeAt (confs : List ConfigSet) (i : ℕ) : ℤ := (confs[i]?.map ConfigSet.time).getD 0

/-- `confs.top().time()`. -/
def topTime (confs : List ConfigSet) : ℤ := timeAt confs (confs.length - 1)

structure Split where
  ltsTime : ℤ
  htsTime : ℤ
  hts : List Mask
  deriving DecidableEq, Repr

/-- `makeSplit`; there is nothing before the first set. -/
def makeSplit (confs : List ConfigSet) : ℕ → Option Split
  | 0 => none
  | p + 1 => some ⟨timeAt confs p, topTime confs, (confs.drop (p + 1)).flatMap ConfigSet.confs⟩

section

variable {E Ev V : Type} [DecidableEq Ev] (info : Ev → Event E V)

/-- The `x_hts` of the heuristic. -/
def estimateHts (events : List (Ev × Place)) (s : Scan) (weight : ℤ) : ℤ :=
  let xHts := events.zipIdx.foldl (fun x e => if s.comp.getLsbD e.2 then x + (info e.1.1).weight else x) 0
  let xHts := events.zipIdx.foldl (fun x e => if s.pos.getLsbD e.2 then max x (info e.1.1).weight else x) xHts
  if xHts > weight then weight else xHts

/-- The state of the loop over the splits: the set of configurations, and the best split with its cost, which is at first
greater than any. -/
structure Best where
  set : List Mask
  p : ℕ
  cost : Option ℤ

def tryLess (events : List (Ev × Place)) (weight : ℤ) (confs : List ConfigSet) (best : Best) (p : ℕ) : Best :=
  let set := best.set.take (best.set.length - (confs[p - 1]?.elim 0 fun s => s.confs.length))
  let xHts := estimateHts info events (scan events.length set) weight
  let cost := xHts * topTime confs + (weight - xHts) * timeAt confs (p - 1)
  if best.cost.all (cost < ·) then ⟨set, p, some cost⟩ else ⟨set, best.p, best.cost⟩

/-- The split that `applyWeightedSplit` takes. -/
def bestSplit (events : List (Ev × Place)) (weight : ℤ) (confs : List ConfigSet) : ℕ :=
  ((List.range' 1 (confs.length - 1)).foldl (tryLess info events weight confs)
    ⟨confs.reverse.flatMap ConfigSet.confs, 0, none⟩).p

/-- The events of the configurations. -/
def varEvents (sq : Sequence E Ev) : List (Ev × Place) :=
  sq.allEvents.filter fun e => (info e.1).occurrence = .sometimes

def configs (sq : Sequence E Ev) : List ConfigSet := collect sq.cost (masks (varEvents info sq).length)

/-- The two time sets of an edge. -/
def split (sq : Sequence E Ev) : Option Split :=
  makeSplit (configs info sq) (bestSplit info (varEvents info sq) sq.weight (configs info sq))

/-! ### The contributions -/

/-- The constraints and the object function, and the variables of the collectors. -/
structure State (E Ev V : Type) where
  constraints : List (Constraint (Var E V))
  objective : List (Term (Var E V))
  vars : Ev → Case → List (Var E V)

/-- `EdgeTimeBuilder::make`. -/
def makeCase (ev : Ev) (place : Place) (on : Bool) : Case :=
  if (info ev).type = .edge then if on then .blockOn else .blockOff
  else
    match place with
    | .inPrefix => if on then .prefixOn else .prefixOff
    | .inBlock => if on then .blockOn else .blockOff
    | .inEdge => if on then .blockOn else .blockOff

/-- `EventCollector::contribute`; a null variable adds nothing that is read. -/
def contribute (vars : Ev → Case → List (Var E V)) (ev : Ev) (c : Case) (var : Option (Var E V)) :
    Ev → Case → List (Var E V) :=
  match var with
  | none => vars
  | some var => Function.update vars ev (Function.update (vars ev) c (var :: vars ev c))

/-- `contributeConst`. -/
def contributeConst (sq : Sequence E Ev) (vars : Ev → Case → List (Var E V)) : Ev → Case → List (Var E V) :=
  sq.allEvents.foldl (fun vars event =>
    match (info event.1).occurrence with
    | .always => contribute vars event.1 (makeCase info event.1 event.2 true) (some (.edge sq.edge))
    | .never => contribute vars event.1 (makeCase info event.1 event.2 false) (some (.edge sq.edge))
    | .sometimes => vars) vars

/-- `genForOneCost`, whose contributions for variable events are null. -/
def genForOneCost (st : State E Ev V) (cost : ℤ) (sq : Sequence E Ev) : State E Ev V where
  constraints := st.constraints
  objective := st.objective ++ [⟨cost, some (.edge sq.edge)⟩]
  vars := contributeConst info sq st.vars

/-- The contributions of the variable events. -/
def contributeVars (sq : Sequence E Ev) (s : Scan) (vars : Ev → Case → List (Var E V)) : Ev → Case → List (Var E V) :=
  (varEvents info sq).zipIdx.foldl (fun vars e =>
    if s.pos.getLsbD e.2 then contribute vars e.1.1 (makeCase info e.1.1 e.1.2 true) (some (.hts sq.edge))
    else if s.neg.getLsbD e.2 then contribute vars e.1.1 (makeCase info e.1.1 e.1.2 false) (some (.hts sq.edge))
    else vars) vars

/-- `complex constraint for times`. -/
def complexConstraint (sq : Sequence E Ev) (comp : Mask) : Constraint (Var E V) :=
  ((varEvents info sq).zipIdx.foldl (fun c e =>
    if comp.getLsbD e.2 then (info e.1.1).estimate true |>.foldl Constraint.add c else c) ⟨.ge, []⟩).addRight 1
      (some (.hts sq.edge))

/-- `contributeSplit`. -/
def contributeSplit (st : State E Ev V) (sq : Sequence E Ev) (s : Scan) (sp : Split) : State E Ev V where
  constraints := st.constraints ++ [Constraint.addRight ⟨.le, []⟩ 1 (some (.hts sq.edge)),
    (Constraint.addLeft ⟨.le, []⟩ 1 (some (.hts sq.edge))).addRight 1 (some (.edge sq.edge))] ++
    if s.comp = 0#32 then [] else [complexConstraint info sq s.comp]
  objective := st.objective ++ [⟨sp.ltsTime, some (.edge sq.edge)⟩, ⟨sp.htsTime - sp.ltsTime, some (.hts sq.edge)⟩]
  vars := contributeConst info sq (contributeVars info sq s st.vars)

/-- `processSequence`. -/
def processSequence (st : State E Ev V) (sq : Sequence E Ev) : Option (State E Ev V) :=
  let events := varEvents info sq
  if 32 ≤ events.length then none
  else if events = [] then some (genForOneCost info st (sq.cost 0#32) sq)
  else if (configs info sq).length = 1 then some (genForOneCost info st (timeAt (configs info sq) 0) sq)
  else (split info sq).map fun sp => contributeSplit info st sq (scan events.length sp.hts) sp

/-- The edges one after the other. -/
def processEdges (seq : E → Sequence E Ev) (edges : List E) : Option (State E Ev V) :=
  edges.foldlM (fun st e => processSequence info st (seq e)) ⟨[], [], fun _ _ => []⟩

/-- The cases that `EventCollector::make` goes through. -/
def casesOf : EventType → List Case
  | .edge => [.blockOff, .blockOn]
  | .block => [.prefixOff, .prefixOn, .blockOff, .blockOn]

/-- `EventCollector::make`, at the end. -/
def collectorMake (evt : Event E V) (vars : Case → List (Var E V)) : List (Constraint (Var E V)) :=
  (casesOf evt.type).filterMap fun c =>
    if vars c ≠ [] ∧ evt.isEstimating c.isOn then
      some ((vars c).foldl (fun cons v => cons.addRight 1 (some v)) ⟨.ge, evt.estimate c.isOn⟩)
    else none

end

end Otawa.Etime
