import Otawa.Dfa.Value
import Otawa.Elm.Numerals

/-!
# Texts of the values

What `parse` reads of a text in brackets. The position of a comma is one in a part of the text, and is used as one in the
whole text: the second bound of an interval starts at the comma, the step of a CLP has a wrong length, and its count is
read in the base or in the step.
-/

namespace Otawa.Dfa

open Otawa.Elm

variable {str : Str} {x y z text : List Char} {p r : List Char} {c : ℕ}

/-! ### Positions of a character -/

theorem idxOf?_append {chr : Char} (hp : chr ∉ p) (r : List Char) : (p ++ chr :: r).idxOf? chr = some p.length := by
  induction p with
  | nil => rw [List.nil_append, List.idxOf?_cons, beq_self_eq_true, if_pos rfl]; rfl
  | cons other p ih =>
    obtain ⟨hne, hp⟩ := List.ne_and_not_mem_of_not_mem_cons hp
    rw [List.cons_append, List.idxOf?_cons, if_neg (by simpa using hne.symm), ih hp]
    rfl

theorem exists_of_idxOf? {chr : Char} (h : text.idxOf? chr = some c) :
    ∃ p r, text = p ++ chr :: r ∧ p.length = c ∧ chr ∉ p := by
  induction text generalizing c with
  | nil => cases h
  | cons other text ih =>
    rw [List.idxOf?_cons] at h
    by_cases heq : other = chr
    · subst heq
      rw [beq_self_eq_true, if_pos rfl] at h
      exact ⟨[], text, rfl, Option.some.inj h, List.not_mem_nil⟩
    · rw [if_neg (by simpa using heq)] at h
      obtain ⟨c', hc', rfl⟩ := Option.map_eq_some_iff.mp h
      obtain ⟨p, r, rfl, hlength, hp⟩ := ih hc'
      refine ⟨other :: p, r, rfl, congrArg (· + 1) hlength, fun hmem => ?_⟩
      rcases List.mem_cons.mp hmem with hmem | hmem
      · exact heq hmem.symm
      · exact hp hmem

namespace Value

/-! ### Square brackets -/

/-- The text of the second bound starts at the comma, so no interval is read. -/
theorem parse_square (hstart : str.startsWith '[' = true) (hend : str.endsWith ']' = true) :
    ∃ e, parse str = .error e := by
  obtain ⟨tail, hchars⟩ := List.head?_eq_some_iff.mp (eq_of_beq hstart)
  have hne : str.chars ≠ [] := by rw [hchars]; exact List.cons_ne_nil _ _
  rw [parse, if_neg hne, hstart, hend, Bool.and_self, if_pos rfl]
  cases hindex : (str.substring 1).indexOf ',' with
  | none => exact ⟨_, rfl⟩
  | some c =>
    obtain ⟨p, r, htail, rfl, -⟩ := exists_of_idxOf? hindex
    rw [Str.chars_substring, hchars, List.drop_succ_cons, List.drop_zero] at htail
    have hhi : readULong (str.substringOf (p.length + 1) (str.length - p.length - 1)).chars =
        .error "not a number" := by
      refine readULong_stops ?_
      have hdrop : str.chars.drop (p.length + 1) = ',' :: r := by
        rw [hchars, htail, List.drop_succ_cons, List.drop_left]
      rw [Str.chars_substringOf, hdrop]
      cases ((str.length - p.length - 1 : ℤ) % 65536).toNat with
      | zero => exact .inl rfl
      | succ n => exact .inr ⟨r.take n, rfl⟩
    simp only [bind, Except.bind]
    rw [hhi]
    split
    · exact ⟨_, rfl⟩
    · exact ⟨_, rfl⟩

/-! ### Parentheses -/

/-- The text that is read as the step. -/
def deltaText (x y : List Char) : List Char :=
  if y.length ≤ x.length then y else y.take (y.length - x.length - 1)

/-- The text that is read as the count. -/
def countText (x y : List Char) : List Char :=
  if y.length ≤ x.length then x.drop y.length else y.drop (y.length - x.length - 1)

theorem read_delta (hx : x.length + 1 < 65536) (hy : y.length < 65536) (w : List Char) :
    readULong ((y ++ ',' :: w).take ((y.length - (x.length + 1 : ℕ) : ℤ) % 65536).toNat) =
      readULong (deltaText x y) := by
  rw [deltaText]
  by_cases hle : y.length ≤ x.length
  · -- a negative length becomes one beyond the comma
    obtain ⟨more, hmore⟩ : ∃ more, ((y.length - (x.length + 1 : ℕ) : ℤ) % 65536).toNat = y.length + (more + 1) :=
      ⟨65536 - (x.length + 1) - 1, by omega⟩
    rw [if_pos hle, hmore, List.take_length_add_append, List.take_succ_cons, readULong_comma]
  · have hsub : ((y.length - (x.length + 1 : ℕ) : ℤ) % 65536).toNat = y.length - x.length - 1 := by
      omega
    rw [if_neg hle, hsub, List.take_append_of_le_length (by omega)]

theorem read_count (w : List Char) :
    readULong ((x ++ ',' :: (y ++ ',' :: w)).drop y.length) = readULong (countText x y) := by
  rw [countText]
  by_cases hle : y.length ≤ x.length
  · rw [if_pos hle, List.drop_append_of_le_length hle, readULong_comma]
  · obtain ⟨more, hmore⟩ : ∃ more, y.length = x.length + (more + 1) := ⟨y.length - x.length - 1, by omega⟩
    have hsub : y.length - x.length - 1 = more := by omega
    rw [if_neg hle, hsub, hmore, List.drop_length_add_append, List.drop_succ_cons,
      List.drop_append_of_le_length (by omega), readULong_comma]

/-- What is read of a text in parentheses. -/
theorem parse_round (hchars : str.chars = '(' :: x ++ ',' :: y ++ ',' :: z ++ [')']) (hx : ',' ∉ x) (hy : ',' ∉ y) :
    parse str = do
      let base ← readULong x
      let delta ← readULong (deltaText x y)
      let cnt ← readULong (countText x y)
      return ofCLP base delta cnt := by
  have hchars' : str.chars = ('(' :: x) ++ ',' :: (y ++ ',' :: (z ++ [')'])) := by
    rw [hchars]
    simp only [List.append_assoc, List.cons_append]
  have hne : str.chars ≠ [] := by rw [hchars']; exact List.cons_ne_nil _ _
  have hsquare : str.startsWith '[' = false := by
    rw [Str.startsWith, hchars']
    rfl
  have hstart : str.startsWith '(' = true := by
    rw [Str.startsWith, hchars']
    rfl
  have hend : str.endsWith ')' = true := by
    rw [Str.endsWith, hchars, List.getLast?_concat]
    rfl
  have hlength := str.bound
  rw [hchars'] at hlength
  simp only [List.length_append, List.length_cons] at hlength
  have hx' : ',' ∉ '(' :: x := fun hmem => (List.mem_cons.mp hmem).elim (by decide) hx
  have hfirst : str.indexOf ',' = some (x.length + 1) := by
    rw [Str.indexOf, hchars', idxOf?_append hx']
    rfl
  have hrest : str.chars.drop (x.length + 1 + 1) = y ++ ',' :: (z ++ [')']) := by
    rw [hchars', show x.length + 1 + 1 = ('(' :: x).length + (0 + 1) by simp, List.drop_length_add_append,
      List.drop_succ_cons, List.drop_zero]
  have hsecond : (str.substring (x.length + 1 + 1)).indexOf ',' = some y.length := by
    rw [Str.indexOf, Str.chars_substring, hrest, idxOf?_append hy]
  have hbase : readULong (str.substringOf 1 ((x.length + 1 : ℕ) - 1)).chars = readULong x := by
    have htake : (((x.length + 1 : ℕ) - 1 : ℤ) % 65536).toNat = x.length := by omega
    rw [Str.chars_substringOf, htake, hchars', List.cons_append, List.drop_succ_cons, List.drop_zero,
      List.take_left]
  have hdelta : readULong (str.substringOf (x.length + 1 + 1) (y.length - (x.length + 1 : ℕ))).chars =
      readULong (deltaText x y) := by
    rw [Str.chars_substringOf, hrest]
    exact read_delta (by omega) (by omega) _
  have hcount : readULong (str.substringOf (y.length + 1) (str.length - y.length - 1)).chars =
      readULong (countText x y) := by
    rw [Str.chars_substringOf, List.take_of_length_le, ← read_count (z ++ [')'])]
    · rw [hchars', List.cons_append, List.drop_succ_cons]
    · have := str.bound
      rw [List.length_drop, Str.length]
      omega
  rw [parse, if_neg hne, hsquare, hstart, hend, Bool.false_and, if_neg (by decide), Bool.and_self, if_pos rfl, hfirst]
  simp only [hsecond, hbase, hdelta, hcount]

theorem parse_round_ok (hchars : str.chars = '(' :: x ++ ',' :: y ++ ',' :: z ++ [')']) (hx : ',' ∉ x) (hy : ',' ∉ y)
    {v : Value} :
    parse str = .ok v ↔ ∃ base delta cnt, readULong x = .ok base ∧ readULong (deltaText x y) = .ok delta ∧
      readULong (countText x y) = .ok cnt ∧ ofCLP base delta cnt = v := by
  rw [parse_round hchars hx hy]
  cases readULong x with
  | error e => simp [bind, Except.bind]
  | ok base =>
    cases readULong (deltaText x y) with
    | error e => simp [bind, Except.bind]
    | ok delta =>
      cases readULong (countText x y) with
      | error e => simp [bind, Except.bind]
      | ok cnt => simp [bind, Except.bind, pure, Except.pure]

/-! ### Other texts -/

theorem parse_plain (hne : str.chars ≠ []) (hsquare : (str.startsWith '[' && str.endsWith ']') = false)
    (hround : (str.startsWith '(' && str.endsWith ')') = false) : parse str = (readLong str.chars).map ofConst := by
  rw [parse, if_neg hne, hsquare, hround, if_neg Bool.false_ne_true, if_neg Bool.false_ne_true]
  cases readLong str.chars <;> rfl

theorem startsWith_number {a chr close} (hnumber : Number a str.chars) (hchr : testBase chr 10 = none) :
    (str.startsWith chr && str.endsWith close) = false := by
  obtain ⟨⟨first, tail, digit, htext, hdigit⟩, -⟩ := hnumber.chars
  refine Bool.and_eq_false_imp.mpr fun hstart => ?_
  rw [Str.startsWith, htext, List.head?_cons, beq_iff_eq] at hstart
  rw [Option.some.inj hstart, hchr] at hdigit
  cases hdigit

/-- A number is a constant when it is not negative as a signed one. -/
theorem parse_number {a : BitVec 32} (hnumber : Number a str.chars) {v : Value} :
    parse str = .ok v ↔ a.toNat < 2 ^ 31 ∧ ofConst a = v := by
  obtain ⟨⟨first, tail, digit, htext, -⟩, -⟩ := hnumber.chars
  have hne : str.chars ≠ [] := htext ▸ List.cons_ne_nil first tail
  rw [parse_plain hne (startsWith_number hnumber rfl) (startsWith_number hnumber rfl), readLong_number hnumber]
  by_cases hlarge : 2 ^ 31 ≤ a.toNat
  · rw [if_pos hlarge]
    exact ⟨fun h => (nomatch h), fun h => absurd h.1 (Nat.not_lt.mpr hlarge)⟩
  · rw [if_neg hlarge]
    exact ⟨fun h => ⟨Nat.lt_of_not_le hlarge, Except.ok.inj h⟩, fun h => congrArg Except.ok h.2⟩

/-! ### Words of a CLP -/

/-- The counts `m` of the step 1 and `n` of the step `d` make the same words. -/
def SameSteps (d n m : BitVec 32) : Prop :=
  m = 0 ∧ (n = 0 ∨ d = 0) ∨ m ≠ 0 ∧ n = m ∧ (d = 1 ∨ m.toNat + 1 = 2 ^ 32 ∧ d.toNat % 2 = 1)

theorem gamma_ofConst (a : BitVec 32) : (ofConst a).gamma = {a} := Progression.prog_zero_step

theorem gamma_ofCLP (base delta cnt : BitVec 32) : (ofCLP base delta cnt).gamma = Progression.prog base 1 cnt.toNat := by
  by_cases hcnt : cnt = 0
  · subst hcnt
    exact Progression.prog_zero_step.trans Progression.prog_zero_count.symm
  · rw [ofCLP, if_neg hcnt]
    split <;> rfl

theorem gamma_eq_iff (base delta d n m : BitVec 32) :
    (ofCLP base delta m).gamma = Progression.prog base d n.toNat ↔ SameSteps d n m := by
  have horder : addOrderOf (1 : BitVec 32) = 2 ^ 32 := addOrderOf_eq_prime_pow (by decide) (by decide)
  have hd : d.toNat • (1 : BitVec 32) = d := by simp
  have hsame := Progression.prog_eq_prog_iff (b := base) (horder ▸ d.isLt) (horder ▸ m.isLt) (horder ▸ n.isLt)
  rw [hd, horder, Nat.coprime_pow_right_iff (by omega), Nat.coprime_two_right] at hsame
  have hone : d.toNat = 1 ↔ d = 1 := ⟨fun h => BitVec.eq_of_toNat_eq h, fun h => h ▸ rfl⟩
  have hzero : ∀ w : BitVec 32, w.toNat = 0 ↔ w = 0 := fun w => ⟨fun h => BitVec.eq_of_toNat_eq h, fun h => h ▸ rfl⟩
  rw [gamma_ofCLP, hsame, SameSteps, hone, ne_eq, hzero, hzero, hzero, BitVec.toNat_inj, Nat.odd_iff]

/-! ### Texts that are read right -/

/-- A text without brackets nor commas, or with the right ones. -/
inductive Shaped : List Char → Prop where
  | plain {x : List Char} : (∀ mark ∈ "[](),".toList, mark ∉ x) → Shaped x
  | square {x y : List Char} : (∀ mark ∈ "[](),".toList, mark ∉ x ++ y) → Shaped ('[' :: x ++ ',' :: y ++ [']'])
  | round {x y z : List Char} : (∀ mark ∈ "[](),".toList, mark ∉ x ++ y ++ z) → Shaped ('(' :: x ++ ',' :: y ++ ',' :: z ++ [')'])

/-- A text of the value: its number, its bounds or its base, step and count. -/
inductive Prints : Value → List Char → Prop where
  | const {a x} : Number a x → Prints (ofConst a) x
  | interval {lo up x y} : lo ≠ up → Number lo x → Number up y → Prints (ofInterval lo up) ('[' :: x ++ ',' :: y ++ [']'])
  | clp {base delta n x y z} : delta ≠ 1 → n ≠ 0 → Number base x → Number (ofCLP base delta n).delta y → Number n z →
      Prints (ofCLP base delta n) ('(' :: x ++ ',' :: y ++ ',' :: z ++ [')'])

/-- The text means what is written. -/
structure Right (str : Str) : Prop where
  number {a} : Number a str.chars → ∃ v, parse str = .ok v ∧ v.gamma = {a}
  interval {a b x y} : Number a x → Number b y → str.chars = '[' :: x ++ ',' :: y ++ [']'] →
    ∃ v, parse str = .ok v ∧ v.gamma = Progression.prog a 1 (b - a).toNat
  clp {a d n x y z} : Number a x → Number d y → Number n z → str.chars = '(' :: x ++ ',' :: y ++ ',' :: z ++ [')'] →
    ∃ v, parse str = .ok v ∧ v.gamma = Progression.prog a d n.toNat
  printed {v} : Prints v str.chars → parse str = .ok v
  rejected : ¬ Shaped str.chars → ∃ e, parse str = .error e

/-- The text is read although its brackets and commas are not right: after its first number for a signed one, or in
parentheses after the three numbers that are found. -/
def Accepted (str : Str) : Prop :=
  if str.startsWith '(' && str.endsWith ')' then
    ∃ x y z, str.chars = '(' :: x ++ ',' :: y ++ ',' :: z ++ [')'] ∧ ',' ∉ x ∧ ',' ∉ y ∧
      ∃ base delta cnt, readULong x = .ok base ∧ readULong (deltaText x y) = .ok delta ∧
        readULong (countText x y) = .ok cnt
  else ∃ a, readLong str.chars = .ok a

/-- What is asked of a text: its number is not negative as a signed one, it is no interval, and the texts found for the
step and the count of a CLP are numbers that make the same words with a step of 1. -/
structure Condition (str : Str) : Prop where
  number {a} : Number a str.chars → a.toNat < 2 ^ 31
  interval {a b x y} : Number a x → Number b y → str.chars ≠ '[' :: x ++ ',' :: y ++ [']']
  clp {a d n x y z} : Number a x → Number d y → Number n z → str.chars = '(' :: x ++ ',' :: y ++ ',' :: z ++ [')'] →
    ∃ delta m, readULong (deltaText x y) = .ok delta ∧ readULong (countText x y) = .ok m ∧ SameSteps d n m ∧
      (d = 1 → n ≠ 0 → delta ≠ 1)
  rejected : ¬ Shaped str.chars → ¬ Accepted str

theorem endsWith_concat {text chr} (hchars : str.chars = text ++ [chr]) : str.endsWith chr = true := by
  rw [Str.endsWith, hchars, List.getLast?_concat]
  exact beq_self_eq_true _

theorem parse_interval (hchars : str.chars = '[' :: x ++ ',' :: y ++ [']']) : ∃ e, parse str = .error e := by
  refine parse_square ?_ (endsWith_concat hchars)
  rw [Str.startsWith, hchars]
  rfl

/-- The parts of a text in parentheses with two commas. -/
theorem exists_parts {c₂ : ℕ} (hstart : str.startsWith '(' = true) (hend : str.endsWith ')' = true)
    (hfirst : str.indexOf ',' = some c) (hsecond : (str.substring (c + 1)).indexOf ',' = some c₂) :
    ∃ x y z, str.chars = '(' :: x ++ ',' :: y ++ ',' :: z ++ [')'] ∧ ',' ∉ x ∧ ',' ∉ y := by
  obtain ⟨p, r, hchars, rfl, hp⟩ := exists_of_idxOf? hfirst
  obtain ⟨y, w, hr, -, hy⟩ := exists_of_idxOf? hsecond
  rw [Str.chars_substring, hchars, List.drop_length_add_append, List.drop_succ_cons, List.drop_zero] at hr
  subst hr
  obtain ⟨x, rfl⟩ : ∃ x, p = '(' :: x := by
    rw [Str.startsWith, hchars, List.head?_append] at hstart
    cases p with
    | nil => exact absurd (Option.some.inj (eq_of_beq hstart)) (by decide)
    | cons chr x => exact ⟨x, congrArg (· :: x) (Option.some.inj (eq_of_beq hstart))⟩
  obtain ⟨z, rfl⟩ : ∃ z, w = z ++ [')'] := by
    have hlast : str.chars = '(' :: x ++ ',' :: y ++ [','] ++ w := by
      rw [hchars]
      simp only [List.append_assoc, List.cons_append, List.nil_append]
    rw [Str.endsWith, hlast] at hend
    cases w using List.reverseRecOn with
    | nil =>
      rw [List.append_nil, List.getLast?_concat] at hend
      exact absurd (Option.some.inj (eq_of_beq hend)) (by decide)
    | append_singleton z chr =>
      rw [← List.append_assoc, List.getLast?_concat] at hend
      exact ⟨z, congrArg (z ++ [·]) (Option.some.inj (eq_of_beq hend))⟩
  refine ⟨x, y, z, ?_, fun hmem => hp (List.mem_cons_of_mem _ hmem), hy⟩
  rw [hchars]
  simp only [List.append_assoc, List.cons_append]

theorem accepted_iff (str : Str) : Accepted str ↔ ∃ v, parse str = .ok v := by
  rw [Accepted]
  by_cases hround : (str.startsWith '(' && str.endsWith ')') = true
  · rw [if_pos hround]
    obtain ⟨hstart, hend⟩ := Bool.and_eq_true_iff.mp hround
    constructor
    · rintro ⟨x, y, z, hchars, hx, hy, base, delta, cnt, hreads⟩
      exact ⟨ofCLP base delta cnt, (parse_round_ok hchars hx hy).mpr
        ⟨base, delta, cnt, hreads.1, hreads.2.1, hreads.2.2, rfl⟩⟩
    · rintro ⟨v, hv⟩
      obtain ⟨c₁, c₂, hfirst, hsecond⟩ : ∃ c₁ c₂, str.indexOf ',' = some c₁ ∧
          (str.substring (c₁ + 1)).indexOf ',' = some c₂ := by
        have hne : str.chars ≠ [] := by
          rintro heq
          rw [Str.startsWith, heq] at hstart
          cases hstart
        have hsquare : str.startsWith '[' = false := by
          rw [Str.startsWith, eq_of_beq hstart]
          rfl
        rw [parse, if_neg hne, hsquare, Bool.false_and, if_neg Bool.false_ne_true, if_pos hround] at hv
        split at hv
        · cases hv
        · split at hv
          · cases hv
          · exact ⟨_, _, ‹_›, ‹_›⟩
      obtain ⟨x, y, z, hchars, hx, hy⟩ := exists_parts hstart hend hfirst hsecond
      obtain ⟨base, delta, cnt, hbase, hdelta, hcnt, -⟩ := (parse_round_ok hchars hx hy).mp hv
      exact ⟨x, y, z, hchars, hx, hy, base, delta, cnt, hbase, hdelta, hcnt⟩
  · rw [if_neg hround]
    by_cases hne : str.chars = []
    · rw [parse, hne]
      exact ⟨nofun, nofun⟩
    by_cases hsquare : (str.startsWith '[' && str.endsWith ']') = true
    · obtain ⟨hstart, hend⟩ := Bool.and_eq_true_iff.mp hsquare
      obtain ⟨e, he⟩ := parse_square hstart hend
      obtain ⟨tail, htail⟩ := List.head?_eq_some_iff.mp (eq_of_beq hstart)
      rw [he, htail]
      exact ⟨nofun, nofun⟩
    · rw [parse_plain hne (Bool.eq_false_of_not_eq_true hsquare) (Bool.eq_false_of_not_eq_true hround)]
      cases readLong str.chars with
      | error e => exact ⟨nofun, nofun⟩
      | ok a => exact ⟨fun _ => ⟨ofConst a, rfl⟩, fun _ => ⟨a, rfl⟩⟩

/-- A text is read right under the condition. -/
theorem right_iff_condition (str : Str) : Right str ↔ Condition str := by
  constructor
  · intro right
    refine ⟨fun {a} hnumber => ?_, fun {a b x y} ha hb hchars => ?_, fun {a d n x y z} ha hd hn hchars => ?_,
      fun hshape hread => ?_⟩
    · obtain ⟨v, hv, -⟩ := right.number hnumber
      exact ((parse_number hnumber).mp hv).1
    · obtain ⟨v, hv, -⟩ := right.interval ha hb hchars
      obtain ⟨e, he⟩ := parse_interval hchars
      exact nomatch hv.symm.trans he
    · have hread := fun v => @parse_round_ok str x y z hchars ha.chars.2 hd.chars.2 v
      obtain ⟨v, hv, hgamma⟩ := right.clp ha hd hn hchars
      obtain ⟨base, delta, cnt, hbase, hdelta, hcnt, rfl⟩ := (hread v).mp hv
      obtain rfl : a = base := Except.ok.inj ((readULong_number ha).symm.trans hbase)
      refine ⟨delta, cnt, hdelta, hcnt, (gamma_eq_iff a delta d n cnt).mp hgamma, fun hone hn0 heq => ?_⟩
      subst hone heq
      -- a CLP that prints its step 1
      have hprinted := right.printed (v := ofCLP a 2 n) (hchars ▸ .clp (by decide) hn0 ha
        (by rw [ofCLP, if_neg hn0]; exact hd) hn)
      have hkind := congrArg Value.kind (Except.ok.inj (hprinted.symm.trans hv))
      rw [ofCLP, ofCLP, if_neg hn0, if_neg (by decide), if_pos rfl] at hkind
      split at hkind <;> exact nomatch hkind
    · obtain ⟨v, hv⟩ := (accepted_iff str).mp hread
      obtain ⟨e, he⟩ := right.rejected hshape
      exact nomatch hv.symm.trans he
  · intro condition
    refine ⟨fun {a} hnumber => ?_, fun {a b x y} ha hb hchars => ?_, fun {a d n x y z} ha hd hn hchars => ?_,
      fun {v} hprints => ?_, fun hshape => ?_⟩
    · exact ⟨ofConst a, (parse_number hnumber).mpr ⟨condition.number hnumber, rfl⟩, gamma_ofConst a⟩
    · exact absurd hchars (condition.interval ha hb)
    · obtain ⟨delta, cnt, hdelta, hcnt, hsame, -⟩ := condition.clp ha hd hn hchars
      exact ⟨ofCLP a delta cnt, (parse_round_ok hchars ha.chars.2 hd.chars.2).mpr
        ⟨a, delta, cnt, readULong_number ha, hdelta, hcnt, rfl⟩, (gamma_eq_iff a delta d n cnt).mpr hsame⟩
    · generalize htext : str.chars = text at hprints
      cases hprints with
      | const hnumber => exact (parse_number (htext ▸ hnumber)).mpr ⟨condition.number (htext ▸ hnumber), rfl⟩
      | interval hne ha hb => exact absurd htext (condition.interval ha hb)
      | @clp base delta n x y z hdelta hn0 ha hd hn =>
        have hone : (ofCLP base delta n).delta = 1 := by rw [ofCLP, if_neg hn0]
        obtain ⟨delta', cnt, hdelta', hcnt, hsame, hother⟩ := condition.clp ha hd hn htext
        obtain ⟨-, hzero | hzero⟩ | ⟨hne, rfl, -⟩ := hsame
        · exact absurd hzero hn0
        · exact absurd (hone.symm.trans hzero) (by decide)
        · refine (parse_round_ok htext ha.chars.2 hd.chars.2).mpr
            ⟨base, delta', n, readULong_number ha, hdelta', hcnt, ?_⟩
          rw [ofCLP, ofCLP, if_neg hn0, if_neg hn0, if_neg (hother hone hn0), if_neg hdelta]
    · cases hparse : parse str with
      | error e => exact ⟨e, rfl⟩
      | ok v => exact absurd ((accepted_iff str).mpr ⟨v, hparse⟩) (condition.rejected hshape)

/-- The interval from 1 to 2 is not read. -/
theorem interval_not_right : ¬ Right ⟨"[1,2]".toList, by decide⟩ := by
  intro right
  obtain ⟨v, hv, -⟩ := right.interval (x := ['1']) (y := ['2']) (Number.decimal (a := 1)) (Number.decimal (a := 2)) rfl
  exact nomatch hv

end Value

end Otawa.Dfa
