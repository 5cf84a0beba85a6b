import Otawa.Hai.HalfAbsInt

/-!
# Unrolling the first iteration

`HalfAbsInt` with `FirstUnrollingFixPoint` and `UnrollingListener`. The first iteration of a loop starts from
the entry state, the second one from the state that the back edges give after the first, and the next ones
add to what the back edges give the state the second one started from. Only the loop header case of
`inputProcessing` differs from the solver with `DefaultFixPoint`.
-/

namespace Otawa.HalfAbsInt.FirstUnrolling

/-- `FixPointState` of each header, less its `headerState` that the store has. -/
structure Unroll (B D : Type) where
  firstIterState : B → D
  numIter : B → ℕ

namespace Unroll

variable {B E D : Type} [DecidableEq B] [SemilatticeSup D] [OrderBot D]

/-- `FirstUnrollingFixPoint::newState`. -/
def newState (u : Unroll B D) (b : B) : Unroll B D where
  firstIterState := Function.update u.firstIterState b ⊥
  numIter := Function.update u.numIter b 0

/-- A fixpoint state once `fixPoint` has been called. -/
def count (u : Unroll B D) (b : B) (firstIterState : D) : Unroll B D where
  firstIterState := Function.update u.firstIterState b firstIterState
  numIter := Function.update u.numIter b (u.numIter b + 1)

variable [DecidableEq E] [DecidableEq D]

/-- `FirstUnrollingFixPoint::fixPoint`: the new header state, and whether it is the one of the last
iteration. -/
def fixPoint (c : Cfg B E) (p : Problem B D) (st : Store B E D) (u : Unroll B D) (b : B) :
    Option (D × Bool × Store B E D × Unroll B D) := do
  let headerState ← st.headerState b
  let (new, fixpoint, firstIterState) ← match u.numIter b with
    | 0 => (st.entryEdgeUnion c p b).map fun x => (x, false, u.firstIterState b)
    | 1 => (st.backEdgeUnion c b).map fun x => (x, false, x)
    | _ + 2 => (st.backEdgeUnion c b).map fun x =>
        (x ⊔ u.firstIterState b, decide (x ⊔ u.firstIterState b = headerState), u.firstIterState b)
  return (new, fixpoint, { st with headerState := Function.update st.headerState b (some new) },
    u.count b firstIterState)

/-- The loop header case of `inputProcessing`. The assertion that no fixpoint is reached at a first iteration
holds: `numIter` is 0. -/
def headerInput (c : Cfg B E) (p : Problem B D) (st : Store B E D) (u : Unroll B D) (b : B) :
    Option (D × Bool × Store B E D × Unroll B D) := do
  let first := st.firstIter b
  let u := if first then u.newState b else u
  let st := if first then { st with headerState := Function.update st.headerState b (some ⊥) } else st
  let (x, fixpoint, st, u) ← fixPoint c p st u b
  let st := { st with
    firstIter := Function.update st.firstIter b false
    fixed := Function.update st.fixed b fixpoint }
  let st := st.unmarkEdges (c.backEdges b)
  if fixpoint then
    let st := { st with
      headerState := Function.update st.headerState b none
      firstIter := Function.update st.firstIter b true }
    return (x, fixpoint, st.unmarkEdges (c.entryEdges b), u)
  else
    return (x, fixpoint, st, u)

end Unroll

/-- The state of the solver and of its listener. -/
structure State (F : Type) (B E : F → Type) (C D : Type) extends HalfAbsInt.State F B E C D where
  unroll : ∀ f, Unroll (B f) D

namespace State

variable {F : Type} {B E : F → Type} {C D : Type}
variable [DecidableEq F] [∀ f, DecidableEq (B f)] [∀ f, DecidableEq (E f)] [DecidableEq C]
  [SemilatticeSup D] [OrderBot D] [DecidableEq D]
  (P : Program F B E C) (p : ∀ f, Problem (B f) D) (entdom : D)

def setUnroll (s : State F B E C D) (f : F) (u : Unroll (B f) D) : State F B E C D :=
  { s with unroll := Function.update s.unroll f u }

/-- The case of `inputProcessing` that calls `fixPoint`. -/
def AtHeader (s : State F B E C D) (b : Σ f, B f) (calls : Detected C) : Prop :=
  s.mainEntry = false ∧ b.2 ≠ (P.cfg b.1).entry ∧ ¬ (calls.nextEdge.isNone && !calls.callEdges.isEmpty) = true ∧
    (P.cfg b.1).loopHeader b.2 = true

instance (s : State F B E C D) (b : Σ f, B f) (calls : Detected C) : Decidable (s.AtHeader P b calls) :=
  inferInstanceAs (Decidable (_ ∧ _ ∧ _ ∧ _))

/-- The input state of a block, whether the fixpoint is reached at it, and the state after the edges that
are not needed any more are unmarked. -/
def inputProcessing (s : State F B E C D) (b : Σ f, B f) (calls : Detected C) :
    Option (D × Bool × State F B E C D) :=
  if s.AtHeader P b calls then
    (Unroll.headerInput (P.cfg b.1) (p b.1) (s.store b.1) (s.unroll b.1) b.2).map fun r =>
      (r.1, r.2.1, { s.setUnroll b.1 r.2.2.2 with toState := s.toState.setStore b.1 r.2.2.1 })
  else
    (s.toState.inputProcessing P p entdom b calls).map fun r => (r.1, r.2.1, { s with toState := r.2.2 })

/-- One turn of the main loop, for a block taken from the work-list. -/
def process (s : State F B E C D) (b : Σ f, B f) : Option (State F B E C D) :=
  let s := { s with workList := s.workList.erase b }
  let calls := s.detectCalls P b
  (s.inputProcessing P p entdom b calls).bind fun r =>
    (r.2.2.outputProcessing P p b calls r.1 r.2.1).map fun t => { r.2.2 with toState := t }

/-- The state `solve` starts from for the CFG `f`. -/
def start (f : F) : State F B E C D where
  toState := HalfAbsInt.State.start P f
  unroll _ := { firstIterState _ := ⊥, numIter _ := 0 }

/-- `solve` takes some blocks from the work-list one after the other. -/
inductive Run : State F B E C D → List (Σ f, B f) → State F B E C D → Prop where
  | nil (s) : Run s [] s
  | cons {s t u b bs} : b ∈ s.workList → s.process P p entdom b = some t → Run t bs u → Run s (b :: bs) u

/-- `solve` itself: always the block pushed last is taken. -/
def solve : ℕ → State F B E C D → Option (State F B E C D)
  | 0, s => some s
  | fuel + 1, s =>
      match s.workList with
      | [] => some s
      | b :: _ => (s.process P p entdom b).bind (solve fuel)

end State

end Otawa.HalfAbsInt.FirstUnrolling
