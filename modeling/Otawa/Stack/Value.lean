import Otawa.Clp.Word
import Mathlib.Data.Prod.Lex

/-!
# Values of the stack analysis

A value is a page and a 32-bit word. A special page has the bottom, the top and the names of the registers,
another one the offsets from the initial stack pointer, and the pages above have constants. Division and shift
fail where the machine of the analyzer does not define them.
-/

namespace Otawa.Stack

open Clp (Word MINn)

/-- `kind_t`, in its order. -/
inductive Kind where
  | none
  | reg
  | sp
  | cst
  | all
  deriving DecidableEq, Repr

def Kind.rank : Kind → ℕ
  | .none => 0
  | .reg => 1
  | .sp => 2
  | .cst => 3
  | .all => 4

/-- A page is a signed number. -/
@[ext] structure Value where
  page : ℤ
  val : Word
  deriving DecidableEq, Repr

namespace Value

/-- `spec_page`, two below the null page. -/
def specPage : ℤ := -3

def spPage : ℤ := -2

def bot : Value := ⟨specPage, -1⟩

def top : Value := ⟨specPage, -2⟩

def reg (n : Word) : Value := ⟨specPage, n⟩

def cst (k : Word) : Value := ⟨0, k⟩

def sp (off : Word) : Value := ⟨spPage, off⟩

/-- `Value::addr`: the address is converted to its offset, which is taken for the page. -/
def addr (offset : Word) : Value := ⟨offset.toInt, 0⟩

abbrev isTop (v : Value) : Prop := v = top

abbrev isBot (v : Value) : Prop := v = bot

abbrev isSP (v : Value) : Prop := v.page = spPage

/-- The word of a register name is compared, unsigned, with 0. -/
abbrev isReg (v : Value) : Prop := v.page = specPage

abbrev isConst (v : Value) : Prop := spPage < v.page

def kind (v : Value) : Kind :=
  if v.isTop then .all
  else if v.isBot then .none
  else if v.isSP then .sp
  else if v.isReg then .reg
  else .cst

/-- `operator<`: by the pages, then by the words without sign. -/
instance : LinearOrder Value :=
  LinearOrder.lift' (fun v => toLex (v.page, v.val.toNat)) fun v w heq => by
    obtain ⟨hpage, hval⟩ := Prod.mk.inj (toLex.injective heq)
    exact Value.ext hpage (BitVec.eq_of_toNat_eq hval)

/-- The common part of the operators: constants are computed, two bottoms give the bottom, and what is left
is unknown. -/
def binary (op : Word → Word → Option Word) (v val : Value) : Option Value :=
  if v.isConst ∧ val.isConst then (op v.val val.val).map fun x => { v with val := x }
  else if v.isBot ∧ val.isBot then some bot
  else some top

def add (v val : Value) : Option Value :=
  if (v.isConst ∧ val.isConst) ∨ (v.isSP ∧ val.isConst) then some { v with val := v.val + val.val }
  else if v.isConst ∧ val.isSP then some ⟨spPage, v.val + val.val⟩
  else if v.isBot ∧ val.isBot then some bot
  else some top

def sub (v val : Value) : Option Value :=
  if (v.isConst ∧ val.isConst) ∨ (v.isSP ∧ val.isConst) then some { v with val := v.val - val.val }
  else if v.isBot ∧ val.isBot then some bot
  else some top

def or : Value → Value → Option Value := binary fun x y => some (x ||| y)

def and : Value → Value → Option Value := binary fun x y => some (x &&& y)

def xor : Value → Value → Option Value := binary fun x y => some (x ^^^ y)

def mul : Value → Value → Option Value := binary fun x y => some (x * y)

/-- A signed division overflows for the least word and `-1`. -/
def div : Value → Value → Option Value :=
  binary fun x y => if y = 0 ∨ (x = MINn ∧ y = -1) then none else some (x.sdiv y)

def divu : Value → Value → Option Value := binary fun x y => if y = 0 then none else some (x / y)

def mod : Value → Value → Option Value :=
  binary fun x y => if y = 0 ∨ (x = MINn ∧ y = -1) then none else some (x.srem y)

def modu : Value → Value → Option Value := binary fun x y => if y = 0 then none else some (x % y)

/-- `Value::mulh` takes the remainder, in 64 bits, for the product. -/
def mulh : Value → Value → Option Value :=
  binary fun x y =>
    if y = 0 then none
    else some (((x.zeroExtend 64 % y.zeroExtend 64) >>> 32).truncate 32)

def shl : Value → Value → Option Value :=
  binary fun x y => if y.toNat < 32 then some (x <<< y.toNat) else none

def shr : Value → Value → Option Value :=
  binary fun x y => if y.toNat < 32 then some (x >>> y.toNat) else none

def asr : Value → Value → Option Value :=
  binary fun x y => if y.toNat < 32 then some (x.sshiftRight y.toNat) else none

def neg (v : Value) : Value :=
  if v.isConst then { v with val := -v.val } else if v.isBot then bot else top

def not (v : Value) : Value :=
  if v.isConst then { v with val := ~~~v.val } else if v.isBot then bot else top

def join (v val : Value) : Value :=
  if v ≠ val then
    if v.isBot then val
    else if ¬ val.isBot then top
    else v
  else v

/-- The words a value stands for, by the initial stack pointer. A name of a register stands for no word. -/
def gamma (sp0 : Word) (v : Value) : Set Word :=
  match v.kind with
  | .all => Set.univ
  | .sp => {sp0 + v.val}
  | .cst => {v.val}
  | .none | .reg => ∅

end Value

end Otawa.Stack
