import Otawa.Elm.Input
import Mathlib.Tactic.Ring

/-!
# Numerals

How the 32-bit numbers are written in decimal and in hexadecimal, and what the scanning makes of it: an unsigned number
is read as it is written (`scanULong_number`), and a signed one only below `2 ^ 31` (`scanLong_number`).
-/

namespace Otawa.Elm

variable {base val n : ℕ} {digits rest text : List Char} {chr : Char} {a : BitVec 32}

/-- A number in decimal, or in hexadecimal with any number of digits of either case. -/
inductive Number (a : BitVec 32) : List Char → Prop where
  | decimal : Number a (Nat.toDigits 10 a.toNat)
  | hexadecimal {x : Char} {digits : List Char} (zeros : ℕ) :
      x = 'x' ∨ x = 'X' → digits.map Char.toLower = List.replicate zeros '0' ++ Nat.toDigits 16 a.toNat →
      Number a ('0' :: x :: digits)

/-! ### Values of the digits -/

/-- The value of the digits, after the value `val` of those before. -/
def valueFrom (base val : ℕ) (digits : List Char) : ℕ :=
  digits.foldl (fun val chr => val * base + (testBase chr base).getD 0) val

theorem valueFrom_cons (chr : Char) (digits : List Char) :
    valueFrom base val (chr :: digits) = valueFrom base (val * base + (testBase chr base).getD 0) digits := rfl

theorem valueFrom_append (digits : List Char) (chr : Char) :
    valueFrom base val (digits ++ [chr]) = valueFrom base val digits * base + (testBase chr base).getD 0 := by
  rw [valueFrom, List.foldl_append]
  rfl

theorem le_valueFrom (hbase : 0 < base) (val : ℕ) (digits : List Char) : val ≤ valueFrom base val digits := by
  induction digits generalizing val with
  | nil => exact Nat.le_refl val
  | cons chr digits ih =>
    have hstep : val ≤ val * base := Nat.le_mul_of_pos_right val hbase
    exact (hstep.trans (Nat.le_add_right _ _)).trans (ih _)

/-- Digits that do not go beyond 32 bits are read up to the end. -/
theorem scanDigits_digits (hbase : 0 < base) (hlt : base < 2 ^ 32) (hrest : Stops rest) (val : BitVec 32) (one : Bool)
    (hdigits : ∀ chr ∈ digits, ∃ digit, testBase chr base = some digit)
    (hvalue : valueFrom base val.toNat digits < 2 ^ 32) (hone : one = true ∨ digits ≠ []) :
    scanDigits base (digits ++ rest) val one = .ok (BitVec.ofNat 32 (valueFrom base val.toNat digits), rest) := by
  induction digits generalizing val one with
  | nil =>
    rw [List.nil_append, scanDigits_stops hrest, if_pos (hone.resolve_right (fun h => h rfl))]
    have hval : BitVec.ofNat 32 val.toNat = val := by rw [BitVec.ofNat_toNat, BitVec.setWidth_eq]
    exact congrArg (fun val => Except.ok (val, rest)) hval.symm
  | cons chr digits ih =>
    obtain ⟨⟨digit, hdigit⟩, hdigits⟩ := List.forall_mem_cons.mp hdigits
    rw [valueFrom_cons, hdigit, Option.getD_some] at hvalue ⊢
    have hnew : val.toNat * base + digit < 2 ^ 32 := Nat.lt_of_le_of_lt (le_valueFrom hbase _ digits) hvalue
    have htoNat : (val * BitVec.ofNat 32 base + BitVec.ofNat 32 digit).toNat = val.toNat * base + digit := by
      rw [BitVec.toNat_add, BitVec.toNat_mul, BitVec.toNat_ofNat, BitVec.toNat_ofNat, Nat.mod_eq_of_lt hlt,
        ← Nat.add_mod, Nat.mod_eq_of_lt hnew]
    have hmono : ¬ val * BitVec.ofNat 32 base + BitVec.ofNat 32 digit < val := by
      rw [BitVec.lt_def, htoNat, Nat.not_lt]
      exact (Nat.le_mul_of_pos_right _ hbase).trans (Nat.le_add_right _ _)
    simp only [List.cons_append, scanDigits, hdigit, if_neg hmono]
    rw [ih _ true hdigits (htoNat ▸ hvalue) (.inl rfl), htoNat]

/-! ### Digits of a number -/

theorem testBase_digitChar (hbase : base = 10 ∨ base = 16) (hn : n < base) : testBase n.digitChar base = some n := by
  rcases hbase with rfl | rfl
  · revert n
    decide
  · revert n
    decide

/-- The digits of a number have its value. -/
theorem valueFrom_toDigits (hbase : base = 10 ∨ base = 16) (n : ℕ) :
    valueFrom base 0 (Nat.toDigits base n) = n ∧
      ∀ chr ∈ Nat.toDigits base n, ∃ digit, testBase chr base = some digit := by
  have hone : 1 < base := by omega
  induction n using Nat.strong_induction_on with
  | _ n ih =>
    rcases Nat.lt_or_ge n base with hlt | hge
    · rw [Nat.toDigits_of_lt_base hlt]
      have hdigit := testBase_digitChar hbase hlt
      refine ⟨?_, fun chr hchr => ⟨n, List.mem_singleton.mp hchr ▸ hdigit⟩⟩
      rw [valueFrom_cons, hdigit, Nat.zero_mul, Nat.zero_add]
      rfl
    · rw [Nat.toDigits_of_base_le hone hge]
      obtain ⟨hvalue, hdigits⟩ := ih (n / base) (Nat.div_lt_self (by omega) hone)
      have hdigit := testBase_digitChar hbase (Nat.mod_lt n (Nat.zero_lt_of_lt hone))
      constructor
      · rw [valueFrom_append, hvalue, hdigit, Option.getD_some, Nat.div_add_mod']
      · intro chr hchr
        rcases List.mem_append.mp hchr with hchr | hchr
        · exact hdigits chr hchr
        · exact ⟨_, List.mem_singleton.mp hchr ▸ hdigit⟩

/-- Only the number 0 starts with the digit 0. -/
theorem head_toDigits (hn : n ≠ 0) : ∀ tail, Nat.toDigits 10 n ≠ '0' :: tail := by
  induction n using Nat.strong_induction_on with
  | _ n ih =>
    intro tail heq
    rcases Nat.lt_or_ge n 10 with hlt | hge
    · rw [Nat.toDigits_of_lt_base hlt, List.cons.injEq, Nat.digitChar_eq_zero] at heq
      exact hn heq.1
    · rw [Nat.toDigits_of_base_le (by omega) hge] at heq
      cases hdigits : Nat.toDigits 10 (n / 10) with
      | nil => exact absurd hdigits Nat.toDigits_ne_nil
      | cons chr digits =>
        rw [hdigits, List.cons_append, List.cons.injEq] at heq
        exact ih (n / 10) (by omega) (by omega) digits (heq.1 ▸ hdigits)

theorem toNat_toLower (chr : Char) :
    chr.toLower.toNat = if 'A'.toNat ≤ chr.toNat ∧ chr.toNat ≤ 'Z'.toNat then chr.toNat + 32 else chr.toNat := by
  have hZ : 'Z'.toNat = 90 := by decide
  by_cases h : chr.val ≥ 'A'.val ∧ chr.val ≤ 'Z'.val
  · have hlower : chr.toLower = ⟨chr.val + 32, _⟩ := dif_pos h
    have hle : chr.toNat ≤ 90 := hZ ▸ UInt32.le_iff_toNat_le.mp h.2
    have hupper : 'A'.toNat ≤ chr.toNat ∧ chr.toNat ≤ 'Z'.toNat :=
      ⟨UInt32.le_iff_toNat_le.mp h.1, UInt32.le_iff_toNat_le.mp h.2⟩
    rw [if_pos hupper, hlower]
    have hadd : (chr.val + 32).toNat = chr.val.toNat + 32 := by
      rw [UInt32.toNat_add]
      exact Nat.mod_eq_of_lt (Nat.lt_of_le_of_lt (Nat.add_le_add_right hle 32) (by decide))
    exact hadd
  · have hnot : ¬ ('A'.toNat ≤ chr.toNat ∧ chr.toNat ≤ 'Z'.toNat) :=
      fun hupper => h ⟨UInt32.le_iff_toNat_le.mpr hupper.1, UInt32.le_iff_toNat_le.mpr hupper.2⟩
    have hlower : chr.toLower = chr := dif_neg h
    rw [if_neg hnot, hlower]

theorem testBase_toLower (chr : Char) : testBase chr.toLower 16 = testBase chr 16 := by
  have hcodes : '0'.toNat = 48 ∧ '9'.toNat = 57 ∧ 'a'.toNat = 97 ∧ 'A'.toNat = 65 ∧ 'Z'.toNat = 90 := by decide
  obtain ⟨hzero, hnine, ha, hA, hZ⟩ := hcodes
  have hlower := toNat_toLower chr
  rw [hA, hZ] at hlower
  by_cases hupper : 65 ≤ chr.toNat ∧ chr.toNat ≤ 90
  · rw [if_pos hupper] at hlower
    simp only [testBase, hlower, hzero, hnine, ha, hA]
    -- the conditions for the base, and for a decimal digit
    rw [if_neg (by omega), if_neg (by omega)]
    by_cases hF : chr.toNat < 71
    · rw [if_pos (by omega), if_neg (by omega), if_neg (by omega), if_neg (by omega), if_pos (by omega)]
      exact congrArg some (by omega)
    · rw [if_neg (by omega), if_neg (by omega), if_neg (by omega), if_neg (by omega), if_neg (by omega),
        if_neg (by omega)]
  · rw [if_neg hupper] at hlower
    simp only [testBase, hlower]

theorem valueFrom_map_toLower (val : ℕ) (digits : List Char) :
    valueFrom 16 val (digits.map Char.toLower) = valueFrom 16 val digits := by
  induction digits generalizing val with
  | nil => rfl
  | cons chr digits ih => rw [List.map_cons, valueFrom_cons, valueFrom_cons, testBase_toLower, ih]

theorem valueFrom_zeros (zeros : ℕ) (digits : List Char) :
    valueFrom 16 0 (List.replicate zeros '0' ++ digits) = valueFrom 16 0 digits := by
  induction zeros with
  | zero => rfl
  | succ zeros ih =>
    rw [List.replicate_succ, List.cons_append, valueFrom_cons, ← ih]
    rfl

/-! ### Numbers -/

/-- The digits of a number in hexadecimal. -/
theorem hexadecimal_digits {zeros : ℕ}
    (hdigits : digits.map Char.toLower = List.replicate zeros '0' ++ Nat.toDigits 16 n) :
    digits ≠ [] ∧ valueFrom 16 0 digits = n ∧ ∀ chr ∈ digits, ∃ digit, testBase chr 16 = some digit := by
  obtain ⟨hvalue, hall⟩ := valueFrom_toDigits (.inr rfl) n
  refine ⟨?_, ?_, fun chr hchr => ?_⟩
  · rintro rfl
    exact Nat.toDigits_ne_nil (List.append_eq_nil_iff.mp hdigits.symm).2
  · rw [← valueFrom_map_toLower, hdigits, valueFrom_zeros, hvalue]
  · have hmem : chr.toLower ∈ List.replicate zeros '0' ++ Nat.toDigits 16 n :=
      hdigits ▸ List.mem_map_of_mem hchr
    rw [← testBase_toLower]
    rcases List.mem_append.mp hmem with hmem | hmem
    · exact ⟨0, (List.eq_of_mem_replicate hmem).symm ▸ rfl⟩
    · exact hall _ hmem

theorem scanULong_number (hnumber : Number a text) (hrest : Stops rest) : scanULong (text ++ rest) = .ok (a, rest) := by
  have hself : BitVec.ofNat 32 a.toNat = a := by rw [BitVec.ofNat_toNat, BitVec.setWidth_eq]
  cases hnumber with
  | decimal =>
    by_cases hzero : a.toNat = 0
    · have ha : a = 0 := BitVec.eq_of_toNat_eq hzero
      rw [hzero, Nat.toDigits_zero, ha]
      rcases hrest with rfl | ⟨tail, rfl⟩
      · rfl
      · rfl
    · obtain ⟨hvalue, hdigits⟩ := valueFrom_toDigits (.inl rfl) a.toNat
      have hscan := scanDigits_digits (by omega) (by omega) hrest 0 false hdigits
        (hvalue.symm ▸ a.isLt) (.inr Nat.toDigits_ne_nil)
      have hvalue' : valueFrom 10 (0 : BitVec 32).toNat (Nat.toDigits 10 a.toNat) = a.toNat := hvalue
      rw [hvalue', hself] at hscan
      rw [← hscan]
      cases htext : Nat.toDigits 10 a.toNat with
      | nil => exact absurd htext Nat.toDigits_ne_nil
      | cons chr digits =>
        have hne : chr ≠ '0' := by
          rintro rfl
          exact head_toDigits hzero digits htext
        exact if_neg hne
  | @hexadecimal x digits zeros hx hmap =>
    obtain ⟨hne, hvalue, hdigits⟩ := hexadecimal_digits hmap
    have hscan := scanDigits_digits (by omega) (by omega) hrest 0 false hdigits
      (hvalue.symm ▸ a.isLt) (.inr hne)
    have hvalue' : valueFrom 16 (0 : BitVec 32).toNat digits = a.toNat := hvalue
    rw [hvalue', hself] at hscan
    rw [← hscan, List.cons_append, List.cons_append]
    exact if_pos hx

theorem readULong_number (hnumber : Number a text) : readULong text = .ok a := by
  have hscan := scanULong_number hnumber (.inl rfl)
  rw [List.append_nil] at hscan
  rw [readULong, hscan]
  rfl

/-- A number starts with a digit, and has no comma. -/
theorem Number.chars (hnumber : Number a text) :
    (∃ chr tail digit, text = chr :: tail ∧ testBase chr 10 = some digit) ∧ ',' ∉ text := by
  cases hnumber with
  | decimal =>
    have hdigits := (valueFrom_toDigits (.inl rfl) a.toNat).2
    constructor
    · cases htext : Nat.toDigits 10 a.toNat with
      | nil => exact absurd htext Nat.toDigits_ne_nil
      | cons chr digits =>
        obtain ⟨digit, hdigit⟩ := hdigits chr (htext ▸ List.mem_cons_self)
        exact ⟨chr, digits, digit, rfl, hdigit⟩
    · intro hmem
      obtain ⟨digit, hdigit⟩ := hdigits ',' hmem
      rw [testBase_comma] at hdigit
      cases hdigit
  | @hexadecimal x digits zeros hx hmap =>
    refine ⟨⟨'0', _, 0, rfl, rfl⟩, fun hmem => ?_⟩
    rcases List.mem_cons.mp hmem with hmem | hmem
    · exact absurd hmem (by decide)
    · rcases List.mem_cons.mp hmem with rfl | hmem
      · exact absurd hx (by decide)
      · obtain ⟨digit, hdigit⟩ := (hexadecimal_digits hmap).2.2 ',' hmem
        rw [testBase_comma] at hdigit
        cases hdigit

/-- A signed number is read when it is below `2 ^ 31`. -/
theorem readLong_number (hnumber : Number a text) :
    readLong text = if 2 ^ 31 ≤ a.toNat then .error "32-bits value too big" else .ok a := by
  obtain ⟨⟨chr, tail, digit, htext, hdigit⟩, -⟩ := hnumber.chars
  have hsign : ∀ sign, testBase sign 10 = none → (text.head? == some sign) = false := by
    intro sign hsign
    rw [htext, List.head?_cons, beq_eq_false_iff_ne]
    rintro heq
    rw [Option.some.inj heq, hsign] at hdigit
    cases hdigit
  have hscan := scanULong_number hnumber (.inl rfl)
  rw [List.append_nil] at hscan
  rw [readLong, scanLong, hsign '-' rfl, hsign '+' rfl]
  simp only [Bool.or_self, Bool.false_eq_true, if_false, hscan]
  simp only [bind, Except.bind]
  split <;> rfl

end Otawa.Elm
