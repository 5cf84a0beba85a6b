import Otawa.Elm.Input
import Otawa.Lib.Progression
import Mathlib.Data.BitVec

/-!
# Values of an initial state

A value of the data state is a constant, an interval or a CLP. `parse` makes it from its text.
-/

namespace Otawa.Dfa

open Otawa.Elm

/-- `Value::kind_t`. -/
inductive Kind where
  | none
  | const
  | interval
  | clp
  deriving DecidableEq

structure Value where
  kind : Kind
  base : BitVec 32
  delta : BitVec 32
  count : BitVec 32
  deriving DecidableEq

namespace Value

/-- `Value(base)`. -/
def ofConst (base : BitVec 32) : Value := ⟨.const, base, 0, 0⟩

/-- `Value(lo, up)`. -/
def ofInterval (lo up : BitVec 32) : Value :=
  if lo = up then ⟨.const, lo, 0, 0⟩ else ⟨.interval, lo, 1, up - lo⟩

/-- `Value(base, delta, count)`: the step of the value is 1. -/
def ofCLP (base delta count : BitVec 32) : Value :=
  if count = 0 then ⟨.const, base, 0, 0⟩
  else ⟨if delta = 1 then .interval else .clp, base, 1, count⟩

def up (v : Value) : BitVec 32 := v.base + v.delta * v.count

/-- The words of the value. -/
def gamma (v : Value) : Set (BitVec 32) :=
  match v.kind with
  | .none => ∅
  | _ => Progression.prog v.base v.delta v.count.toNat

/-- `Value::parse`: an exception is an error with its message. -/
def parse (str : Str) : Except String Value :=
  if str.chars = [] then .error "empty value"
  else if str.startsWith '[' && str.endsWith ']' then
    match (str.substring 1).indexOf ',' with
    | none => .error "',' missing, malformed interval"
    | some c => do
        let lo ← readULong (str.substringOf 1 (c - 1)).chars
        let hi ← readULong (str.substringOf (c + 1) (str.length - c - 1)).chars
        return ofInterval lo hi
  else if str.startsWith '(' && str.endsWith ')' then
    match str.indexOf ',' with
    | none => .error "',' missing, malformed CLP"
    | some c1 =>
        match (str.substring (c1 + 1)).indexOf ',' with
        | none => .error "second ',' missing, malformed CLP"
        | some c2 => do
            let base ← readULong (str.substringOf 1 (c1 - 1)).chars
            let delta ← readULong (str.substringOf (c1 + 1) (c2 - c1)).chars
            let cnt ← readULong (str.substringOf (c2 + 1) (str.length - c2 - 1)).chars
            return ofCLP base delta cnt
  else do
    let i ← readLong str.chars
    return ofConst i

end Value

end Otawa.Dfa
