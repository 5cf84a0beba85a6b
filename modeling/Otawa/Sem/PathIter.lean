import Otawa.Clp.Sem
import Otawa.Lib.Branching

/-!
# The paths of a semantic block

`documented` is the control of semantic instructions by their description: `IF` goes on or skips the given
number of instructions, `CONT` stops, and all others go on, `BRANCH` and `TRAP` included. `PathIter` goes
through the paths of a block with a `CONT` put behind it; the place it pushes for an `IF` is one before the one
described.
-/

namespace Otawa.Sem

open Branching

/-- The place is behind the block, or stops the path. -/
def PathEnd (b : Block) (pc : ℕ) : Prop :=
  ∀ i, b[pc]? = some i → i.op = .cont

instance (b : Block) (pc : ℕ) : Decidable (PathEnd b pc) :=
  match eq : b[pc]? with
  | none => .isTrue fun i found => by simp [eq] at found
  | some i => decidable_of_iff (i.op = .cont) (by simp [PathEnd, eq])

/-- The control by the description of the instructions. -/
def documented (b : Block) : Code := fun pc =>
  match b[pc]? with
  | none => .stop
  | some i =>
    match i.op with
    | .cont => .stop
    | .if => .fork (pc + 1) (pc + 1 + i.jump)
    | _ => .go (pc + 1)

theorem documented_of_found {b : Block} {pc : ℕ} {i : Inst} (found : b[pc]? = some i) : documented b pc =
    if i.op = .cont then .stop
    else if i.op = .if then .fork (pc + 1) (pc + 1 + i.jump)
    else .go (pc + 1) := by
  rw [documented, found]
  cases op : i.op <;> simp [op]

/-- The operations at the places of a path. -/
def operations (b : Block) (ps : List ℕ) : List Inst :=
  ps.filterMap fun p => b[p]?

structure PathIter where
  bb : Block
  todo : List ℕ
  pc : ℕ

namespace PathIter

def start (block : Block) : PathIter :=
  ⟨block ++ [{ op := .cont }], [], 0⟩

/-- There is no item behind the block. -/
def item (i : PathIter) : Option Inst :=
  i.bb[i.pc]?

def next (i : PathIter) : Option PathIter :=
  i.item.bind fun inst =>
    if inst.op = .cont then
      match i.todo with
      | [] => none
      | pc :: todo => some { i with pc := pc, todo := todo }
    else if inst.op = .if then some { i with pc := i.pc + 1, todo := (i.pc + inst.jump) :: i.todo }
    else some { i with pc := i.pc + 1 }

/-- The control of the iterator. -/
def code (block : Block) : Code := fun pc =>
  match (start block).bb[pc]? with
  | none => .fault
  | some i =>
    match i.op with
    | .cont => .stop
    | .if => .fork (pc + 1) (pc + i.jump)
    | _ => .go (pc + 1)

/-- The iterator follows its control. -/
theorem next_eq (block : Block) (i : PathIter) (same : i.bb = (start block).bb) : i.next =
    match code block i.pc with
    | .fault => none
    | .stop => i.todo.head?.map fun pc => { i with pc := pc, todo := i.todo.tail }
    | .leave pc => some { i with pc := pc }
    | .go pc => some { i with pc := pc }
    | .fork pc other => some { i with pc := pc, todo := other :: i.todo } := by
  unfold next item code
  rw [same]
  cases (start block).bb[i.pc]? with
  | none => rfl
  | some inst =>
    cases op : inst.op <;> simp only [Option.bind_some, op, reduceCtorEq, if_true, if_false]
    cases i.todo <;> rfl

variable {b : Block} {pc : ℕ}

theorem bb_of_lt {i : Inst} (found : b[pc]? = some i) : (start b).bb[pc]? = some i := by
  obtain ⟨lt, -⟩ := List.getElem?_eq_some_iff.mp found
  exact (List.getElem?_append_left lt).trans found

theorem bb_length (b : Block) : (start b).bb[b.length]? = some { op := .cont } := by
  simp [start]

/-- The control at an instruction of the block. -/
theorem code_of_found {i : Inst} (found : b[pc]? = some i) : code b pc =
    if i.op = .cont then .stop
    else if i.op = .if then .fork (pc + 1) (pc + i.jump)
    else .go (pc + 1) := by
  rw [code, bb_of_lt found]
  cases op : i.op <;> simp [op]

theorem code_length (b : Block) : code b b.length = .stop := by
  rw [code, bb_length]

theorem code_of_length_lt (lt : b.length < pc) : code b pc = .fault := by
  rw [code, List.getElem?_eq_none]
  simpa [start] using lt

end PathIter

end Otawa.Sem
