import Otawa.Clp.State

/-!
# Semantic instructions

A machine instruction is described by a block of semantic instructions. `IF` goes on or skips
some of them; `BRANCH`, `TRAP` and `CONT` end the path.

`Inst.Steps` is what one of them does to the registers and the memory, and `Exec` what a path of
a block does, with the addresses it loads from and stores to. Operations whose result is not a
function of whole words, such as a load of a byte, leave any word.
-/

namespace Otawa.Sem

open Otawa.Clp

/-- `opcode`. -/
inductive Opcode where
  | nop
  | branch
  | trap
  | cont
  | if
  | load
  | store
  | scratch
  | set
  | seti
  | setp
  | cmp
  | cmpu
  | add
  | sub
  | shl
  | shr
  | asr
  | neg
  | not
  | and
  | or
  | xor
  | mul
  | mulu
  | div
  | divu
  | mod
  | modu
  | spec
  | mulh
  deriving DecidableEq, Repr

/-- `type_t`, as the field `b` of a load or a store has it. -/
def INT8 : Word := 1
def INT16 : Word := 2
def INT32 : Word := 3
def UINT8 : Word := 5
def UINT16 : Word := 6
def UINT32 : Word := 7
def INT64 : Word := 4
def UINT64 : Word := 8
def FLOAT32 : Word := 9
def FLOAT64 : Word := 10

/-- `inst`; the fields `a` and `b` are not used where `cst` is. -/
structure Inst where
  op : Opcode
  d : Word := 0
  a : Word := 0
  b : Word := 0
  cst : Word := 0
  deriving DecidableEq, Repr

namespace Inst

def addr (i : Inst) : Word := i.a

def type (i : Inst) : Word := i.b

/-- The instructions that an `IF` skips. -/
def jump (i : Inst) : Nat := i.b.toNat

def Ends (i : Inst) : Prop := i.op = .branch ∨ i.op = .trap ∨ i.op = .cont

def Accesses (i : Inst) : Prop := i.op = .load ∨ i.op = .store

instance (i : Inst) : Decidable i.Ends := inferInstanceAs (Decidable (_ ∨ _))

instance (i : Inst) : Decidable i.Accesses := inferInstanceAs (Decidable (_ ∨ _))

end Inst

abbrev Block := List Inst

/-- The registers and the memory of the machine. -/
abbrev Memory := Location → Word

def reg (r : Word) : Location := .register r.toInt

/-- The word that an instruction puts in its destination, where it is a function of words. -/
def Inst.result (i : Inst) (m : Memory) : Option Word :=
  let a := m (reg i.a)
  let b := m (reg i.b)
  match i.op with
  | .load => if i.type = INT32 ∨ i.type = UINT32 then some (m (.memory a)) else none
  | .set => some a
  | .seti => some i.cst
  | .add => some (a + b)
  | .sub => some (a - b)
  | .shl => if b.toNat < 32 then some (a <<< b.toNat) else none
  | .shr => if b.toNat < 32 then some (a >>> b.toNat) else none
  | .asr => if b.toNat < 32 then some (a.sshiftRight b.toNat) else none
  | .neg => some (-a)
  | .not => some (~~~a)
  | .and => some (a &&& b)
  | .or => some (a ||| b)
  | .xor => some (a ^^^ b)
  | .mul => some (a * b)
  | .mulu => some (a * b)
  | .div => if b = 0 then none else some (a.sdiv b)
  | .divu => if b = 0 then none else some (a / b)
  | .mod => if b = 0 then none else some (a.srem b)
  | .modu => if b = 0 then none else some (a % b)
  | _ => none

/-- The step of one instruction; the control is in `Follows`. -/
def Inst.Steps (i : Inst) (m m' : Memory) : Prop :=
  match i.op with
  | .nop | .branch | .trap | .cont | .if => m' = m
  | .store => ∃ w, (i.type = INT32 ∨ i.type = UINT32 → w = m (reg i.d)) ∧
      m' = Function.update m (.memory (m (reg i.addr))) w
  | _ => ∃ w, (∀ r ∈ i.result m, w = r) ∧ m' = Function.update m (reg i.d) w

/-- Where a path goes on; a path that ends goes to the end of the block. -/
def Inst.Follows (i : Inst) (length pc pc' : Nat) : Prop :=
  if i.Ends then pc' = length
  else if i.op = .if then pc' = pc + 1 ∨ pc' = pc + i.jump + 1
  else pc' = pc + 1

/-- An address that is loaded from or stored to, and the place of the instruction that does it. -/
structure Access where
  pc : Nat
  address : Word
  deriving DecidableEq, Repr

def Inst.access (i : Inst) (pc : Nat) (m : Memory) : List Access :=
  if i.Accesses then [⟨pc, m (reg i.addr)⟩] else []

/-- A path of a block from `pc` to its end. -/
inductive Exec (b : Block) : Nat → Memory → List Access → Memory → Prop where
  | ended {pc : Nat} {m : Memory} : b.length ≤ pc → Exec b pc m [] m
  | step {pc pc' : Nat} {i : Inst} {m m' m'' : Memory} {accs : List Access} :
      b[pc]? = some i → i.Steps m m' → i.Follows b.length pc pc' → Exec b pc' m' accs m'' →
      Exec b pc m (i.access pc m ++ accs) m''

/-- A path does nothing after its end. -/
theorem Exec.of_ended {b : Block} {pc : Nat} {m m' : Memory} {accs : List Access} (ended : b.length ≤ pc)
    (exec : Exec b pc m accs m') : accs = [] ∧ m' = m := by
  cases exec with
  | ended _ => exact ⟨rfl, rfl⟩
  | step found _ _ _ =>
    obtain ⟨lt, -⟩ := List.getElem?_eq_some_iff.mp found
    omega

/-- The first step of a path that is not ended. -/
theorem Exec.first {b : Block} {pc : Nat} {i : Inst} {m m'' : Memory} {accs : List Access}
    (found : b[pc]? = some i) (exec : Exec b pc m accs m'') :
    ∃ m' pc' accs', i.Steps m m' ∧ i.Follows b.length pc pc' ∧ Exec b pc' m' accs' m'' ∧
      accs = i.access pc m ++ accs' := by
  cases exec with
  | ended ended =>
    obtain ⟨lt, -⟩ := List.getElem?_eq_some_iff.mp found
    omega
  | step found' steps follows rest =>
    cases found.symm.trans found'
    exact ⟨_, _, _, steps, follows, rest, rfl⟩

/-- A run of the machine instructions of a basic block from the instruction `k` on, with the accesses of each. -/
inductive Runs (bb : List Block) : Nat → Memory → List (Nat × Access) → Memory → Prop where
  | ended {k : Nat} {m : Memory} : bb.length ≤ k → Runs bb k m [] m
  | step {k : Nat} {b : Block} {m m' m'' : Memory} {accs : List Access} {rest : List (Nat × Access)} :
      bb[k]? = some b → Exec b 0 m accs m' → Runs bb (k + 1) m' rest m'' →
      Runs bb k m (accs.map (Prod.mk k) ++ rest) m''

end Otawa.Sem
