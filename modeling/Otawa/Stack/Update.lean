import Otawa.Stack.State
import Otawa.Sem.PathIter

/-!
# The interpretation of instructions by the stack analysis

`StackProblem::update` interprets a semantic block with a stack of places that wait, each with a copy of the
state. The temporaries are in the problem and not in the state, so the paths share them.
-/

namespace Otawa.Stack

open Branching
open Clp (Word)
open Sem (Block Inst)

/-- `tmp`. -/
abbrev Temps := Fin 16 → Value

namespace StackProblem

/-- The place of a temporary; there is none for the numbers that `tmp` has no room for. -/
def slot (i : Word) : Option (Fin 16) :=
  if h : (-i.toInt).toNat < 16 then some ⟨(-i.toInt).toNat, h⟩ else none

/-- A register is not found in the image of the program, whatever the size. -/
def get (proc : Process) (p : State × Temps) (i : Word) : Option Value :=
  if i.toInt < 0 then (slot i).map p.2
  else some (p.1.get proc (.reg i) 0)

def set (p : State × Temps) (i : Word) (v : Value) : Option (State × Temps) :=
  if i.toInt < 0 then (slot i).map fun k => (p.1, Function.update p.2 k v)
  else some (p.1.set (.reg i) v, p.2)

def unary (op : Value → Value) (proc : Process) (i : Inst) (p : State × Temps) : Option (State × Temps) :=
  (get proc p i.a).bind fun v => set p i.d (op v)

def binary (op : Value → Value → Option Value) (proc : Process) (i : Inst) (p : State × Temps) :
    Option (State × Temps) :=
  (get proc p i.a).bind fun v => (get proc p i.b).bind fun w => (op v w).bind fun r => set p i.d r

/-- `update(State&, sem::inst)`. The size of a load is the code of its type, and a store has none. -/
def update (proc : Process) (i : Inst) (p : State × Temps) : Option (State × Temps) :=
  match i.op with
  | .branch | .trap | .cont | .if | .nop | .spec => some p
  | .load => (get proc p i.a).bind fun addr => set p i.d (p.1.get proc addr i.type.toNat)
  | .store => (get proc p i.a).bind fun addr => (get proc p i.d).map fun v => (p.1.set addr v, p.2)
  | .cmp | .cmpu | .scratch => set p i.d .top
  | .set => unary id proc i p
  | .seti => set p i.d (.cst i.cst)
  | .setp => (get proc p i.d).bind fun v => set p i.d (if v.isConst then .addr v.val else .top)
  | .add => binary Value.add proc i p
  | .sub => binary Value.sub proc i p
  | .shl => binary Value.shl proc i p
  | .shr => binary Value.shr proc i p
  | .asr => binary Value.asr proc i p
  | .neg => unary Value.neg proc i p
  | .not => unary Value.not proc i p
  | .or => binary Value.or proc i p
  | .and => binary Value.and proc i p
  | .xor => binary Value.xor proc i p
  | .mul | .mulu => binary Value.mul proc i p
  | .div => binary Value.div proc i p
  | .divu => binary Value.divu proc i p
  | .mod => binary Value.mod proc i p
  | .modu => binary Value.modu proc i p
  | .mulh => binary Value.mulh proc i p

/-- The control of `update(Domain&, Inst*)`. -/
def code (b : Block) : Code := fun pc =>
  match b[pc]? with
  | none => .stop
  | some i =>
    match i.op with
    | .cont => .leave (b.length + 1)
    | .if => .fork (pc + 1) (pc + i.jump + 1)
    | _ => .go (pc + 1)

/-- The first path is interpreted in the state itself, each other one in a copy that is joined to it. -/
def interpreter (proc : Process) (b : Block) : Interpreter (State × Temps) State (Option State) where
  step pc p := b[pc]?.bind fun i => update proc i p
  save p := p.1
  restore s p := (s, p.2)
  finish is s := some (is.elim s fun is => is.join s)

/-- `update(Domain&, Inst*)`. -/
def updateInst (proc : Process) (b : Block) (p : State × Temps) : Option (State × Temps) :=
  (run (code b) (interpreter proc b) (2 ^ (b.length + 1)) ⟨0, p, [], none⟩).bind fun r =>
    r.1.map fun is => (is, r.2.2)

theorem code_forward (b : Block) : Forward (code b) b.length := by
  constructor
  · intro pc le
    rw [code, List.getElem?_eq_none le]
  · intro pc eq
    unfold code at eq
    split at eq
    · cases eq
    · split at eq <;> cases eq
  · intro pc next mem
    unfold code at mem
    split at mem
    case h_1 => exact absurd mem List.not_mem_nil
    case h_2 i found =>
      obtain ⟨lt, -⟩ := List.getElem?_eq_some_iff.mp found
      split at mem <;> simp only [Control.targets, List.mem_cons, List.not_mem_nil, or_false] at mem <;> omega

theorem code_of_found {b : Block} {pc : ℕ} {i : Inst} (found : b[pc]? = some i) : code b pc =
    if i.op = .cont then .leave (b.length + 1)
    else if i.op = .if then .fork (pc + 1) (pc + i.jump + 1)
    else .go (pc + 1) := by
  rw [code, found]
  cases op : i.op <;> simp [op]

end StackProblem

end Otawa.Stack
