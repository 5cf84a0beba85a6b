import Mathlib.Algebra.Group.Nat.Defs
import Mathlib.Order.Basic

/-!
# Strings and the numbers in them

The strings of the library, whose offsets and lengths are numbers of 16 bits, and the scanning of an integer at the start
of a string. An exception is an error with its message.
-/

namespace Otawa.Elm

/-- A string. Its offset starts at 2, and its last one is a number of 16 bits. -/
structure Str where
  chars : List Char
  bound : chars.length < 65534

namespace Str

def length (str : Str) : ℕ := str.chars.length

/-- `substring` to the end of the string. -/
def substring (str : Str) (off : ℕ) : Str :=
  ⟨str.chars.drop off, Nat.lt_of_le_of_lt (List.length_drop ▸ Nat.sub_le _ _) str.bound⟩

/-- `substring` of a length, that is made a number of 16 bits. -/
def substringOf (str : Str) (off : ℕ) (len : ℤ) : Str :=
  ⟨(str.chars.drop off).take (len % 65536).toNat,
    Nat.lt_of_le_of_lt (List.length_take_le' _ _) (str.substring off).bound⟩

/-- `indexOf`, that is negative when there is no such character. -/
def indexOf (str : Str) (chr : Char) : Option ℕ := str.chars.idxOf? chr

def startsWith (str : Str) (chr : Char) : Bool := str.chars.head? == some chr

def endsWith (str : Str) (chr : Char) : Bool := str.chars.getLast? == some chr

@[simp] theorem chars_substring (str : Str) (off : ℕ) : (str.substring off).chars = str.chars.drop off := rfl

@[simp] theorem chars_substringOf (str : Str) (off : ℕ) (len : ℤ) :
    (str.substringOf off len).chars = (str.chars.drop off).take (len % 65536).toNat := rfl

end Str

/-! ### Scanning -/

/-- The digit in the base for the character. -/
def testBase (chr : Char) (base : ℕ) : Option ℕ :=
  if base < 10 then
    if '0'.toNat ≤ chr.toNat ∧ chr.toNat < '0'.toNat + base then some (chr.toNat - '0'.toNat) else none
  else if '0'.toNat ≤ chr.toNat ∧ chr.toNat ≤ '9'.toNat then some (chr.toNat - '0'.toNat)
  else if 'a'.toNat ≤ chr.toNat ∧ chr.toNat < 'a'.toNat + base - 10 then some (chr.toNat - 'a'.toNat + 10)
  else if 'A'.toNat ≤ chr.toNat ∧ chr.toNat < 'A'.toNat + base - 10 then some (chr.toNat - 'A'.toNat + 10)
  else none

/-- The loop on the digits: `one` tells that there was one before. The result comes with the characters left. -/
def scanDigits (base : ℕ) : List Char → BitVec 32 → Bool → Except String (BitVec 32 × List Char)
  | [], val, one => if one then .ok (val, []) else .error "not a number"
  | chr :: rest, val, one =>
      match testBase chr base with
      | none => if one then .ok (val, chr :: rest) else .error "not a number"
      | some digit =>
          let new := val * BitVec.ofNat 32 base + BitVec.ofNat 32 digit
          if new < val then .error "32-bits value too big" else scanDigits base rest new true

def scanULong : List Char → Except String (BitVec 32 × List Char)
  | [] => scanDigits 10 [] 0 false
  | chr :: rest =>
      if chr = '0' then
        match rest with
        | [] => .ok (0, [])
        | chr :: digits =>
            if chr = 'x' ∨ chr = 'X' then scanDigits 16 digits 0 false
            else if chr = 'b' ∨ chr = 'B' then scanDigits 2 digits 0 false
            else if chr.toNat < '0'.toNat ∨ '7'.toNat < chr.toNat then .ok (0, chr :: digits)
            else scanDigits 8 (chr :: digits) 0 false
      else scanDigits 10 (chr :: rest) 0 false

/-- The sign is read, if any, and then the value. -/
def scanLong (text : List Char) : Except String (BitVec 32 × List Char) := do
  let neg := text.head? == some '-'
  let text := if neg || text.head? == some '+' then text.tail else text
  let (val, rest) ← scanULong text
  if 2 ^ 31 ≤ val.toNat then .error "32-bits value too big"
  else return (if neg then -val else val, rest)

/-- `>>` to an unsigned integer. -/
def readULong (text : List Char) : Except String (BitVec 32) :=
  (scanULong text).map Prod.fst

/-- `>>` to a signed integer. -/
def readLong (text : List Char) : Except String (BitVec 32) :=
  (scanLong text).map Prod.fst

/-! ### Where the scanning stops -/

/-- The text ends, or goes on with a comma. -/
def Stops (rest : List Char) : Prop := rest = [] ∨ ∃ tail, rest = ',' :: tail

theorem testBase_comma (base : ℕ) : testBase ',' base = none := by
  have htoNat : ','.toNat = 44 ∧ '0'.toNat = 48 ∧ '9'.toNat = 57 ∧ 'a'.toNat = 97 ∧ 'A'.toNat = 65 := by decide
  obtain ⟨hcomma, hzero, hnine, ha, hA⟩ := htoNat
  rw [testBase, hcomma, hzero, hnine, ha, hA]
  split
  · exact if_neg (by omega)
  · rw [if_neg (by omega), if_neg (by omega), if_neg (by omega)]

theorem scanDigits_stops {rest : List Char} (hrest : Stops rest) (base : ℕ) (val : BitVec 32) (one : Bool) :
    scanDigits base rest val one = if one then .ok (val, rest) else .error "not a number" := by
  rcases hrest with rfl | ⟨tail, rfl⟩
  · rfl
  · simp only [scanDigits, testBase_comma]

/-- What is after a comma is not read. -/
theorem scanDigits_comma (base : ℕ) (text tail : List Char) (val : BitVec 32) (one : Bool) :
    (scanDigits base (text ++ ',' :: tail) val one).map Prod.fst = (scanDigits base text val one).map Prod.fst := by
  induction text generalizing val one with
  | nil =>
    rw [List.nil_append, scanDigits_stops (.inr ⟨tail, rfl⟩), scanDigits_stops (.inl rfl)]
    split <;> rfl
  | cons chr text ih =>
    rw [List.cons_append, scanDigits, scanDigits]
    cases testBase chr base with
    | none =>
      simp only
      split <;> rfl
    | some digit =>
      simp only
      split
      · rfl
      · exact ih _ true

theorem readULong_comma (text tail : List Char) : readULong (text ++ ',' :: tail) = readULong text := by
  rw [readULong, readULong]
  match text with
  | [] => rfl
  | [chr] =>
    by_cases hchr : chr = '0'
    · subst hchr
      rfl
    · simp only [List.cons_append, scanULong, if_neg hchr]
      exact scanDigits_comma _ [chr] tail 0 false
  | chr :: next :: digits =>
    simp only [List.cons_append, scanULong]
    split
    · split
      · exact scanDigits_comma _ digits tail 0 false
      · split
        · exact scanDigits_comma _ digits tail 0 false
        · split
          · rfl
          · exact scanDigits_comma _ (next :: digits) tail 0 false
    · exact scanDigits_comma _ (chr :: next :: digits) tail 0 false

theorem readULong_stops {rest : List Char} (hrest : Stops rest) : readULong rest = .error "not a number" := by
  rcases hrest with rfl | ⟨tail, rfl⟩
  · rfl
  · exact readULong_comma [] tail

end Otawa.Elm
