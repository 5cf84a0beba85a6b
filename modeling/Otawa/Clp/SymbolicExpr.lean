import Otawa.Clp.Arith

/-!
# Symbolic expressions

The expressions of the filters and their canonical form. A node is an object with a pointer to its parent, which a node
that is made by the canonisation of a sum does not have: `parented` tells whether it has one, as the rules that replace a
node in its parent need it. The rules do not read the values of the leaves, so these are of any type `V` with the operations
that the rules use; the code has them for `Value`.
-/

namespace Otawa.Clp

instance : Zero Value := ⟨Value.const 0⟩

instance : Add Value := ⟨Value.add⟩

instance : Sub Value := ⟨Value.sub⟩

namespace Se

/-- The operators of `op_t` for comparisons. -/
inductive Op where
  | none
  | cmp
  | cmpu
  | le
  | lt
  | ge
  | gt
  | eq
  | ne
  | ule
  | ult
  | uge
  | ugt
  | or
  deriving DecidableEq, Repr

/-- `reverse`: the operator for the operands in the other order. -/
def reverse : Op → Op
  | .le => .ge
  | .lt => .gt
  | .ge => .le
  | .gt => .lt
  | .ule => .uge
  | .ult => .ugt
  | .uge => .ule
  | .ugt => .ult
  | logop => logop

/-- The unsigned form of an operator. -/
def Op.unsigned : Op → Op
  | .le => .ule
  | .lt => .ult
  | .ge => .uge
  | .gt => .ugt
  | op => op

/-- `SymbExpr`: the last two are the `SECmp` nodes without and with a second operand. -/
inductive SymbExpr (V : Type) where
  | const (val : V)
  | addr (val : V)
  | reg (val : V)
  | neg (parented : Bool) (a : SymbExpr V)
  | add (parented : Bool) (a b : SymbExpr V)
  | cond (op : Op) (a : SymbExpr V)
  | cmp (op : Op) (a b : SymbExpr V)
  deriving DecidableEq, Repr

namespace SymbExpr

variable {V : Type}

def isConst : SymbExpr V → Bool
  | .const _ => true
  | _ => false

/-- A register or an address. -/
def isVar : SymbExpr V → Bool
  | .reg _ => true
  | .addr _ => true
  | _ => false

/-- The nodes of a copy have their parents. -/
def copy : SymbExpr V → SymbExpr V
  | .const v => .const v
  | .addr v => .addr v
  | .reg v => .reg v
  | .neg _ a => .neg true a.copy
  | .add _ a b => .add true a.copy b.copy
  | .cond op a => .cond op a.copy
  | .cmp op a b => .cmp op a.copy b.copy

def setParent : SymbExpr V → SymbExpr V
  | .neg _ a => .neg true a
  | .add _ a b => .add true a b
  | e => e

end SymbExpr

open SymbExpr

variable {V : Type}

/-- The fields of a `SECmp`. -/
structure SECmp (V : Type) where
  op : Op
  a : SymbExpr V
  b : Option (SymbExpr V)

def SECmp.toExpr (c : SECmp V) : SymbExpr V :=
  match c.b with
  | none => .cond c.op c.a
  | some b => .cmp c.op c.a b

/-! ### The rules of a comparison, each with whether it applies -/

/-- The condition on a comparison with the operator `o`, as a comparison of its operands. -/
def flattenOf (o : Op) (f : Op → Op) (c : SECmp V) : SECmp V × Bool :=
  match c.a, c.b with
  | .cond o' x, none => if o' = o then (⟨f c.op, x.copy, none⟩, true) else (c, false)
  | .cmp o' x y, none => if o' = o then (⟨f c.op, x.copy, some y.copy⟩, true) else (c, false)
  | _, _ => (c, false)

def flatten (c : SECmp V) : SECmp V × Bool := flattenOf .cmp id c

def flattenUnsigned (c : SECmp V) : SECmp V × Bool := flattenOf .cmpu Op.unsigned c

def swap (c : SECmp V) : SECmp V × Bool :=
  match c.a, c.b with
  | .const v, some b => if b.isConst then (c, false) else (⟨reverse c.op, b, some (.const v)⟩, true)
  | _, _ => (c, false)

variable (canon : SymbExpr V → Option (SymbExpr V))

def splitAdd (c : SECmp V) : Option (SECmp V × Bool) :=
  match c.a, c.b with
  | .add _ x y, some b => do
      let b ← canon (.add true b.copy (.neg true y.copy))
      some (⟨c.op, x.copy, some b⟩, true)
  | _, _ => some (c, false)

def removeNeg (c : SECmp V) : Option (SECmp V × Bool) :=
  match c.a, c.b with
  | .neg _ x, some b => do
      let b ← canon (.neg true b.copy)
      some (⟨reverse c.op, x.copy, some b⟩, true)
  | _, _ => some (c, false)

/-- The body of the loop of `SECmp::canonize`, with `cancont`. -/
def round (c : SECmp V) : Option (SECmp V × Bool) := do
  let r₁ := flatten c
  let r₂ := flattenUnsigned r₁.1
  let r₃ := swap r₂.1
  let r₄ ← splitAdd canon r₃.1
  let r₅ ← removeNeg canon r₄.1
  some (r₅.1, r₁.2 || r₂.2 || r₃.2 || r₄.2 || r₅.2)

def loop : ℕ → SECmp V → Option (SECmp V)
  | 0, _ => none
  | fuel + 1, c => do
      let r ← round canon c
      if r.2 then loop fuel r.1 else some r.1

/-- `SECmp::canonize` after the calls for its operands. -/
def canonizeCmp (fuel : ℕ) (c : SECmp V) : Option (SECmp V) :=
  if c.op = .cmp ∨ c.op = .cmpu then some c else loop canon fuel c

variable [Zero V] [Add V] [Sub V]

/-- `SENeg::canonize` after the call for its operand. -/
def canonizeNeg (parented : Bool) (a : SymbExpr V) : SymbExpr V :=
  if parented then
    match a with
    | .const v => .const (0 - v)
    | .neg _ e => e.copy
    | a => .neg true a
  else .neg false a

/-- A constant operand of a sum is the second one. -/
def constLast (a b : SymbExpr V) : SymbExpr V × SymbExpr V :=
  if a.isConst then (b, a) else (a, b)

/-- The rule for a sum with a variable first; the new node gets no parent. -/
def rotate (parented : Bool) (a b : SymbExpr V) : Option (SymbExpr V) :=
  match a with
  | .add _ x y =>
      if x.isVar then do
        let newb ← canon (.add false y.copy b.setParent)
        some (.add parented x.copy newb)
      else some (.add parented a b)
  | _ => some (.add parented a b)

/-- `SEAdd::canonize` after the calls for its operands. -/
def canonizeAdd (parented : Bool) (a b : SymbExpr V) : Option (SymbExpr V) :=
  match parented, a, b with
  | true, .const v, .const w => some (.const (v + w))
  | _, _, _ => rotate canon parented (constLast a b).1 (constLast a b).2

/-- The methods `canonize`; without fuel there is no result. -/
def canonize : ℕ → SymbExpr V → Option (SymbExpr V)
  | 0, _ => none
  | _ + 1, .const v => some (.const v)
  | _ + 1, .addr v => some (.addr v)
  | _ + 1, .reg v => some (.reg v)
  | fuel + 1, .neg parented a => do
      let a ← canonize fuel a
      some (canonizeNeg parented a)
  | fuel + 1, .add parented a b => do
      let a ← canonize fuel a
      let b ← canonize fuel b
      canonizeAdd (canonize fuel) parented a b
  | fuel + 1, .cond op a => do
      let a ← canonize fuel a
      let c ← canonizeCmp (canonize fuel) fuel ⟨op, a, none⟩
      some c.toExpr
  | fuel + 1, .cmp op a b => do
      let a ← canonize fuel a
      let b ← canonize fuel b
      let c ← canonizeCmp (canonize fuel) fuel ⟨op, a, some b⟩
      some c.toExpr

end Se

end Otawa.Clp
