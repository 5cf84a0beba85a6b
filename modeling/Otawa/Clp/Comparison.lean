import Otawa.Clp.Difference

/-!
# The truth of comparisons under canonisation

The rules do not read the constants, so that a comparison of words is canonised as the one of the integers it comes from.
The truth of a comparison of integers is kept, and that of an equality of words. An order of words is kept where the
operands are words before and after.
-/

namespace Otawa.Clp.Se

open SymbExpr

variable {V W A : Type}

/-! ### Other constants -/

def SymbExpr.map (f : V → W) : SymbExpr V → SymbExpr W
  | .const v => .const (f v)
  | .addr v => .addr (f v)
  | .reg v => .reg (f v)
  | .neg parented a => .neg parented (a.map f)
  | .add parented a b => .add parented (a.map f) (b.map f)
  | .cond op a => .cond op (a.map f)
  | .cmp op a b => .cmp op (a.map f) (b.map f)

def SECmp.map (f : V → W) (c : SECmp V) : SECmp W :=
  ⟨c.op, c.a.map f, c.b.map (SymbExpr.map f)⟩

section Map

variable (f : V → W)

@[simp] theorem copy_map (e : SymbExpr V) : (e.map f).copy = e.copy.map f := by
  induction e <;> simp [copy, SymbExpr.map, *]

@[simp] theorem setParent_map (e : SymbExpr V) : (e.map f).setParent = e.setParent.map f := by
  cases e <;> rfl

@[simp] theorem isConst_map (e : SymbExpr V) : (e.map f).isConst = e.isConst := by
  cases e <;> rfl

@[simp] theorem isVar_map (e : SymbExpr V) : (e.map f).isVar = e.isVar := by
  cases e <;> rfl

theorem eval_map [AddCommGroup A] (val : Valuation W A) (e : SymbExpr V) :
    (e.map f).eval val = e.eval ⟨val.const ∘ f, val.reg ∘ f, val.addr ∘ f⟩ := by
  induction e <;> simp [SymbExpr.eval, SymbExpr.map, *]

theorem sides_map (e : SymbExpr V) :
    sides (e.map f) = (sides e).map fun s => (s.1, s.2.1.map f, s.2.2.map f) := by
  cases e with
  | cmp op a b =>
    dsimp only [SymbExpr.map, sides]
    split <;> rfl
  | cond op a =>
    cases a with
    | cmp op' x y =>
      cases op' with
      | cmp =>
        dsimp only [SymbExpr.map, sides]
        split <;> rfl
      | cmpu =>
        dsimp only [SymbExpr.map, sides]
        split <;> rfl
      | _ => rfl
    | _ => rfl
  | _ => rfl

theorem toExpr_map (c : SECmp V) : (c.map f).toExpr = c.toExpr.map f := by
  obtain ⟨op, a, b⟩ := c
  cases b <;> rfl

/-- The second method does on the constants of `W` what the first one does on those of `V`. -/
def Maps (canon : SymbExpr V → Option (SymbExpr V)) (canon' : SymbExpr W → Option (SymbExpr W)) : Prop :=
  ∀ e, canon' (e.map f) = (canon e).map (SymbExpr.map f)

theorem flattenOf_map (o : Op) (g : Op → Op) (c : SECmp V) :
    flattenOf o g (c.map f) = ((flattenOf o g c).1.map f, (flattenOf o g c).2) := by
  obtain ⟨op, a, b⟩ := c
  cases b with
  | some b => cases a <;> rfl
  | none =>
    cases a with
    | cond o' x =>
      dsimp only [SECmp.map, SymbExpr.map, flattenOf, Option.map]
      split <;> simp [SymbExpr.map]
    | cmp o' x y =>
      dsimp only [SECmp.map, SymbExpr.map, flattenOf, Option.map]
      split <;> simp [SymbExpr.map]
    | _ => rfl

theorem swap_map (c : SECmp V) : swap (c.map f) = ((swap c).1.map f, (swap c).2) := by
  obtain ⟨op, a, b⟩ := c
  cases b with
  | none => cases a <;> rfl
  | some b =>
    cases a with
    | const v =>
      dsimp only [SECmp.map, SymbExpr.map, swap, Option.map]
      rw [isConst_map]
      split <;> rfl
    | _ => rfl

variable {f} {canon : SymbExpr V → Option (SymbExpr V)} {canon' : SymbExpr W → Option (SymbExpr W)}

/-- A result with its comparison mapped. -/
def mapResult (f : V → W) (r : SECmp V × Bool) : SECmp W × Bool :=
  (r.1.map f, r.2)

section

variable (h : Maps f canon canon')
include h

theorem splitAdd_map (c : SECmp V) : splitAdd canon' (c.map f) = (splitAdd canon c).map (mapResult f) := by
  obtain ⟨op, a, b⟩ := c
  cases b with
  | none => cases a <;> rfl
  | some b =>
    cases a with
    | add q x y =>
      have hnew := h (.add true b.copy (.neg true y.copy))
      dsimp only [SECmp.map, SymbExpr.map, splitAdd, Option.map_some] at hnew ⊢
      rw [copy_map, copy_map, copy_map, hnew]
      cases canon (.add true b.copy (.neg true y.copy)) <;> rfl
    | _ => rfl

theorem removeNeg_map (c : SECmp V) : removeNeg canon' (c.map f) = (removeNeg canon c).map (mapResult f) := by
  obtain ⟨op, a, b⟩ := c
  cases b with
  | none => cases a <;> rfl
  | some b =>
    cases a with
    | neg q x =>
      have hnew := h (.neg true b.copy)
      dsimp only [SECmp.map, SymbExpr.map, removeNeg, Option.map_some] at hnew ⊢
      rw [copy_map, copy_map, hnew]
      cases canon (.neg true b.copy) <;> rfl
    | _ => rfl

theorem round_map (c : SECmp V) : round canon' (c.map f) = (round canon c).map (mapResult f) := by
  unfold round flatten flattenUnsigned
  simp only [flattenOf_map, swap_map, splitAdd_map h]
  cases splitAdd canon (swap (flattenOf .cmpu Op.unsigned (flattenOf .cmp id c).1).1).1 with
  | none => rfl
  | some r₄ =>
    simp only [Option.map_some, Option.bind_eq_bind, Option.bind_some, mapResult, removeNeg_map h]
    cases removeNeg canon r₄.1 <;> rfl

theorem loop_map (fuel : ℕ) (c : SECmp V) : loop canon' fuel (c.map f) = (loop canon fuel c).map (SECmp.map f) := by
  induction fuel generalizing c with
  | zero => rfl
  | succ fuel ih =>
    unfold loop
    rw [round_map h]
    cases round canon c with
    | none => rfl
    | some r =>
      simp only [Option.map_some, Option.bind_eq_bind, Option.bind_some, mapResult]
      split
      · exact ih r.1
      · rfl

theorem canonizeCmp_map (fuel : ℕ) (c : SECmp V) :
    canonizeCmp canon' fuel (c.map f) = (canonizeCmp canon fuel c).map (SECmp.map f) := by
  unfold canonizeCmp
  by_cases hop : c.op = .cmp ∨ c.op = .cmpu
  · rw [if_pos hop]
    exact if_pos hop
  · rw [if_neg hop, ← loop_map h]
    exact if_neg hop

theorem rotate_map (parented : Bool) (a b : SymbExpr V) :
    rotate canon' parented (a.map f) (b.map f) = (rotate canon parented a b).map (SymbExpr.map f) := by
  cases a with
  | add q x y =>
    have hnew := h (.add false y.copy b.setParent)
    dsimp only [SymbExpr.map, rotate] at hnew ⊢
    rw [isVar_map, copy_map, copy_map, setParent_map, hnew]
    split
    · cases canon (.add false y.copy b.setParent) <;> rfl
    · rfl
  | _ => rfl

end

variable [Zero V] [Add V] [Sub V] [Zero W] [Add W] [Sub W]

/-- The map keeps the operations on constants. -/
structure Commutes (f : V → W) : Prop where
  zero : f 0 = 0
  add : ∀ v w, f (v + w) = f v + f w
  sub : ∀ v w, f (v - w) = f v - f w

theorem canonizeNeg_map (hf : Commutes f) (parented : Bool) (a : SymbExpr V) :
    canonizeNeg parented (a.map f) = (canonizeNeg parented a).map f := by
  cases parented with
  | false => rfl
  | true =>
    cases a with
    | const v => simp [canonizeNeg, SymbExpr.map, hf.sub, hf.zero]
    | neg q x => simp [canonizeNeg, SymbExpr.map]
    | _ => rfl

theorem canonizeAdd_map (hf : Commutes f) (h : Maps f canon canon') (parented : Bool) (a b : SymbExpr V) :
    canonizeAdd canon' parented (a.map f) (b.map f) = (canonizeAdd canon parented a b).map (SymbExpr.map f) := by
  by_cases hconst : parented = true ∧ a.isConst = true ∧ b.isConst = true
  · obtain ⟨rfl, ha, hb⟩ := hconst
    cases a with
    | const v =>
      cases b with
      | const w => simp [canonizeAdd, SymbExpr.map, hf.add]
      | _ => cases hb
    | _ => cases ha
  · have hconst' : ¬ (parented = true ∧ (a.map f).isConst = true ∧ (b.map f).isConst = true) := by
      rw [isConst_map, isConst_map]
      exact hconst
    rw [canonizeAdd_eq hconst, canonizeAdd_eq hconst', ← rotate_map h]
    unfold constLast
    rw [isConst_map]
    split <;> rfl

theorem canonize_map (hf : Commutes f) (fuel : ℕ) : Maps f (canonize fuel) (canonize fuel) := by
  induction fuel with
  | zero =>
    intro e
    cases e <;> rfl
  | succ fuel ih =>
    intro e
    cases e with
    | const v => rfl
    | addr v => rfl
    | reg v => rfl
    | neg parented a =>
      dsimp only [SymbExpr.map, canonize]
      rw [ih a]
      cases canonize fuel a with
      | none => rfl
      | some a' => exact congrArg some (canonizeNeg_map hf parented a')
    | add parented a b =>
      dsimp only [SymbExpr.map, canonize]
      rw [ih a, ih b]
      cases canonize fuel a with
      | none => rfl
      | some a' =>
        cases canonize fuel b with
        | none => rfl
        | some b' => exact canonizeAdd_map hf ih parented a' b'
    | cond op a =>
      dsimp only [SymbExpr.map, canonize]
      rw [ih a]
      cases canonize fuel a with
      | none => rfl
      | some a' =>
        have hc := canonizeCmp_map ih fuel ⟨op, a', none⟩
        simp only [SECmp.map, Option.map_none] at hc
        simp only [Option.map_some, Option.bind_eq_bind, Option.bind_some, hc]
        cases canonizeCmp (canonize fuel) fuel ⟨op, a', none⟩ with
        | none => rfl
        | some c => exact congrArg some (toExpr_map f c)
    | cmp op a b =>
      dsimp only [SymbExpr.map, canonize]
      rw [ih a, ih b]
      cases canonize fuel a with
      | none => rfl
      | some a' =>
        cases canonize fuel b with
        | none => rfl
        | some b' =>
          have hc := canonizeCmp_map ih fuel ⟨op, a', some b'⟩
          simp only [SECmp.map, Option.map_some] at hc
          simp only [Option.map_some, Option.bind_eq_bind, Option.bind_some, hc]
          cases canonizeCmp (canonize fuel) fuel ⟨op, a', some b'⟩ with
          | none => rfl
          | some c => exact congrArg some (toExpr_map f c)

end Map

/-! ### Words -/

/-- The constant of the code for an integer. -/
def word (i : ℤ) : Value :=
  Value.const (BitVec.ofInt 32 i)

theorem ofInt_sub (i j : ℤ) : BitVec.ofInt 32 (i - j) = BitVec.ofInt 32 i - BitVec.ofInt 32 j := by
  rw [Int.sub_eq_add_neg, BitVec.ofInt_add, BitVec.ofInt_neg, BitVec.sub_eq_add_neg]

theorem word_commutes : Commutes word where
  zero := rfl
  add := by
    intro i j
    have h : Value.add (word i) (word j) = word (i + j) := by
      simp [Value.add, word, Value.const, BitVec.ofInt_add]
    exact h.symm
  sub := by
    intro i j
    have h : Value.sub (word i) (word j) = word (i - j) := by
      simp [Value.sub, word, Value.const, ofInt_sub]
    exact h.symm

namespace Op

/-- The truth of a comparison of words. -/
def holds : Op → Word → Word → Prop
  | .le, x, y => x.toInt ≤ y.toInt
  | .lt, x, y => x.toInt < y.toInt
  | .ge, x, y => y.toInt ≤ x.toInt
  | .gt, x, y => y.toInt < x.toInt
  | .eq, x, y => x = y
  | .ne, x, y => x ≠ y
  | .ule, x, y => x.toNat ≤ y.toNat
  | .ult, x, y => x.toNat < y.toNat
  | .uge, x, y => y.toNat ≤ x.toNat
  | .ugt, x, y => y.toNat < x.toNat
  | _, _, _ => False

/-- The truth of a comparison of integers. -/
def holdsInt : Op → ℤ → ℤ → Prop
  | .le, x, y => x ≤ y
  | .lt, x, y => x < y
  | .ge, x, y => y ≤ x
  | .gt, x, y => y < x
  | .eq, x, y => x = y
  | .ne, x, y => x ≠ y
  | .ule, x, y => x ≤ y
  | .ult, x, y => x < y
  | .uge, x, y => y ≤ x
  | .ugt, x, y => y < x
  | _, _, _ => False

def isUnsigned : Op → Bool
  | .ule => true
  | .ult => true
  | .uge => true
  | .ugt => true
  | _ => false

/-- The integer is a word of the operator. -/
def Fits (op : Op) (x : ℤ) : Prop :=
  if op.isUnsigned then 0 ≤ x ∧ x < 2 ^ 32 else -2 ^ 31 ≤ x ∧ x < 2 ^ 31

end Op

/-- The truth of a comparison when its leaves have these words. -/
def Holds (reg addr : Value → Word) (e : SymbExpr Value) : Prop :=
  ∃ op a b, sides e = some (op, a, b) ∧ op.holds (a.eval ⟨Value.base, reg, addr⟩) (b.eval ⟨Value.base, reg, addr⟩)

/-- The truth of a comparison over the integers. -/
def HoldsInt (reg addr : ℤ → ℤ) (e : SymbExpr ℤ) : Prop :=
  ∃ op a b, sides e = some (op, a, b) ∧ op.holdsInt (a.eval ⟨id, reg, addr⟩) (b.eval ⟨id, reg, addr⟩)

/-- The operands of a comparison over the integers are words of its operator. -/
def Fits (reg addr : ℤ → ℤ) (e : SymbExpr ℤ) : Prop :=
  ∃ op a b, sides e = some (op, a, b) ∧ op.Fits (a.eval ⟨id, reg, addr⟩) ∧ op.Fits (b.eval ⟨id, reg, addr⟩)

theorem holdsInt_reverse {op : Op} {x y x' y' : ℤ} (h : x' - y' = -(x - y)) :
    (reverse op).holdsInt x' y' ↔ op.holdsInt x y := by
  cases op <;> simp only [reverse, Op.holdsInt] <;> omega

theorem holdsInt_congr {op : Op} {x y x' y' : ℤ} (h : x' - y' = x - y) : op.holdsInt x' y' ↔ op.holdsInt x y := by
  cases op <;> simp only [Op.holdsInt] <;> omega

theorem toInt_of_fits {op : Op} {x : ℤ} (hop : op.isUnsigned = false) (hx : op.Fits x) :
    (BitVec.ofInt 32 x).toInt = x := by
  unfold Op.Fits at hx
  rw [if_neg (by rw [hop]; exact Bool.false_ne_true)] at hx
  rw [BitVec.toInt_ofInt]
  exact Int.bmod_eq_of_le (by omega) (by omega)

theorem toNat_of_fits {op : Op} {x : ℤ} (hop : op.isUnsigned = true) (hx : op.Fits x) :
    ((BitVec.ofInt 32 x).toNat : ℤ) = x := by
  unfold Op.Fits at hx
  rw [if_pos hop] at hx
  rw [BitVec.toNat_ofInt]
  omega

/-- Words of the operator compare as the integers. -/
theorem holds_iff {op : Op} {x y : ℤ} (hx : op.Fits x) (hy : op.Fits y) :
    op.holds (BitVec.ofInt 32 x) (BitVec.ofInt 32 y) ↔ op.holdsInt x y := by
  cases hop : op.isUnsigned with
  | true =>
    have hx' := toNat_of_fits hop hx
    have hy' := toNat_of_fits hop hy
    cases op with
    | ule | ult | uge | ugt =>
      simp only [Op.holds, Op.holdsInt]
      omega
    | _ => cases hop
  | false =>
    have hx' := toInt_of_fits hop hx
    have hy' := toInt_of_fits hop hy
    cases op with
    | le | lt | ge | gt =>
      simp only [Op.holds, Op.holdsInt]
      rw [hx', hy']
    | eq | ne =>
      simp only [Op.holds, Op.holdsInt, ne_eq]
      rw [← BitVec.toInt_inj, hx', hy']
    | none | cmp | cmpu | or => exact Iff.rfl
    | _ => cases hop

/-- An equality of words, from the difference. -/
theorem holds_equality {op op' : Op} (hop : op = .eq ∨ op = .ne) {x y x' y' : Word}
    (h : (op' = op ∧ x' - y' = x - y) ∨ (op' = reverse op ∧ x' - y' = -(x - y))) : op'.holds x' y' ↔ op.holds x y := by
  have hsame : op' = op := by
    rcases hop with rfl | rfl <;> exact h.elim And.left And.left
  subst hsame
  have hiff : x' = y' ↔ x = y := by
    rw [← sub_eq_zero, ← sub_eq_zero (a := x)]
    rcases h with ⟨-, hd⟩ | ⟨-, hd⟩
    · rw [hd]
    · rw [hd, neg_eq_zero]
  rcases hop with rfl | rfl
  · exact hiff
  · exact not_congr hiff

theorem holds_of_sides {op : Op} {a b : SymbExpr Value} {e : SymbExpr Value} {reg addr : Value → Word}
    (h : sides e = some (op, a, b)) :
    Holds reg addr e ↔ op.holds (a.eval ⟨Value.base, reg, addr⟩) (b.eval ⟨Value.base, reg, addr⟩) := by
  constructor
  · rintro ⟨op', a', b', h', hholds⟩
    rw [h] at h'
    cases h'
    exact hholds
  · exact fun hholds => ⟨op, a, b, h, hholds⟩

theorem holdsInt_of_sides {op : Op} {a b : SymbExpr ℤ} {e : SymbExpr ℤ} {reg addr : ℤ → ℤ}
    (h : sides e = some (op, a, b)) :
    HoldsInt reg addr e ↔ op.holdsInt (a.eval ⟨id, reg, addr⟩) (b.eval ⟨id, reg, addr⟩) := by
  constructor
  · rintro ⟨op', a', b', h', hholds⟩
    rw [h] at h'
    cases h'
    exact hholds
  · exact fun hholds => ⟨op, a, b, h, hholds⟩

/-- The words of the leaves are those of the integers. -/
def Reads (reg addr : ℤ → ℤ) (reg' addr' : Value → Word) : Prop :=
  (∀ i, reg' (word i) = BitVec.ofInt 32 (reg i)) ∧ ∀ i, addr' (word i) = BitVec.ofInt 32 (addr i)

theorem eval_word {reg addr : ℤ → ℤ} {reg' addr' : Value → Word} (h : Reads reg addr reg' addr') (e : SymbExpr ℤ) :
    (e.map word).eval ⟨Value.base, reg', addr'⟩ = BitVec.ofInt 32 (e.eval ⟨id, reg, addr⟩) := by
  induction e with
  | const v => rfl
  | reg v => exact h.1 v
  | addr v => exact h.2 v
  | neg p a ih =>
    simp only [SymbExpr.map, SymbExpr.eval, ih, BitVec.ofInt_neg]
  | add p a b iha ihb =>
    simp only [SymbExpr.map, SymbExpr.eval, iha, ihb, BitVec.ofInt_add]
  | cond op a => rfl
  | cmp op a b => rfl

/-- A comparison of words is true as the one of the integers that it reads. -/
theorem holds_iff_holdsInt {reg addr : ℤ → ℤ} {reg' addr' : Value → Word} (h : Reads reg addr reg' addr')
    {e : SymbExpr ℤ} (hfits : Fits reg addr e) : Holds reg' addr' (e.map word) ↔ HoldsInt reg addr e := by
  obtain ⟨op, a, b, hsides, ha, hb⟩ := hfits
  have hsides' : sides (e.map word) = some (op, a.map word, b.map word) := by
    rw [sides_map, hsides]
    rfl
  rw [holds_of_sides hsides', holdsInt_of_sides hsides, eval_word h, eval_word h]
  exact holds_iff ha hb

/-- The operator of a comparison is an equality. -/
def Equality (e : SymbExpr V) : Prop :=
  ∀ op a b, sides e = some (op, a, b) → op = .eq ∨ op = .ne

/-- The truth of a comparison is kept over the integers, and over the words for an equality, and for an order where the
operands are words of the operator before and after. -/
theorem canonize_truth (e : SymbExpr ℤ) (he : Comparison e) : ∃ fuel e', canonize fuel e = some e' ∧
    canonize fuel (e.map word) = some (e'.map word) ∧
    (∀ reg addr, HoldsInt reg addr e' ↔ HoldsInt reg addr e) ∧
    (Equality e → ∀ reg addr, Holds reg addr (e'.map word) ↔ Holds reg addr (e.map word)) ∧
    ∀ reg addr reg' addr', Reads reg addr reg' addr' → Fits reg addr e → Fits reg addr e' →
      (Holds reg' addr' (e'.map word) ↔ Holds reg' addr' (e.map word)) := by
  obtain ⟨fuel, e', hrun, -, -⟩ := canonize_ends e
  obtain ⟨op, a, b, hsides, ha, hb⟩ := he
  have hint : ∀ reg addr, HoldsInt reg addr e' ↔ HoldsInt reg addr e := by
    intro reg addr
    have hval : Valuation.Additive (⟨id, reg, addr⟩ : Valuation ℤ ℤ) := ⟨rfl, fun _ _ => rfl, fun _ _ => rfl⟩
    obtain ⟨op', a', b', hsides', -, -, hd⟩ := canonize_sides hval hsides ha hb hrun
    rw [holdsInt_of_sides hsides, holdsInt_of_sides hsides']
    rcases hd with ⟨rfl, hd⟩ | ⟨rfl, hd⟩
    · exact holdsInt_congr hd
    · exact holdsInt_reverse hd
  refine ⟨fuel, e', hrun, ?_, hint, ?_, ?_⟩
  · rw [canonize_map word_commutes fuel e, hrun]
    rfl
  · intro hequality reg addr
    have hval : Valuation.Additive (⟨BitVec.ofInt 32, reg ∘ word, addr ∘ word⟩ : Valuation ℤ Word) :=
      ⟨rfl, BitVec.ofInt_add, ofInt_sub⟩
    obtain ⟨op', a', b', hsides', -, -, hd⟩ := canonize_sides hval hsides ha hb hrun
    have hmap : ∀ {e : SymbExpr ℤ} {op : Op} {a b : SymbExpr ℤ}, sides e = some (op, a, b) →
        sides (e.map word) = some (op, a.map word, b.map word) := by
      intro e op a b h
      rw [sides_map, h]
      rfl
    rw [holds_of_sides (hmap hsides), holds_of_sides (hmap hsides'), eval_map, eval_map, eval_map, eval_map]
    exact holds_equality (hequality op a b hsides) hd
  · intro reg addr reg' addr' hreads hfits hfits'
    rw [holds_iff_holdsInt hreads hfits, holds_iff_holdsInt hreads hfits']
    exact hint reg addr

/-- `r0 + 1 = 0` is canonised as an equality. -/
theorem canonize_successor : ∃ fuel e', canonize fuel (SymbExpr.cmp .eq (.add true (.reg 0) (.const 1)) (.const 0)) =
    some e' ∧ ∀ reg addr, Holds reg addr (e'.map word) ↔
      Holds reg addr (SymbExpr.map word (.cmp .eq (.add true (.reg 0) (.const 1)) (.const 0))) := by
  obtain ⟨fuel, e', hrun, -, -, hequality, -⟩ :=
    canonize_truth (.cmp .eq (.add true (.reg 0) (.const 1)) (.const 0)) ⟨.eq, _, _, rfl, rfl, rfl⟩
  refine ⟨fuel, e', hrun, hequality ?_⟩
  rintro op a b ⟨⟩
  exact .inl rfl

/-- `r0 + 1 < 0` becomes `r0 < -1`, which is false of the greatest word. -/
theorem order_not_kept : ∃ fuel e', canonize fuel (SymbExpr.map word (.cmp .lt (.add true (.reg 0) (.const 1)) (.const 0))) =
    some e' ∧ Holds (fun _ => MAXn) (fun _ => 0) (SymbExpr.map word (.cmp .lt (.add true (.reg 0) (.const 1)) (.const 0))) ∧
      ¬ Holds (fun _ => MAXn) (fun _ => 0) e' := by
  refine ⟨5, .cmp .lt (.reg (word 0)) (.const (word (-1))), by decide, ?_, ?_⟩
  · refine (holds_of_sides rfl).mpr ?_
    unfold Op.holds
    decide
  · intro h
    have hlt := (holds_of_sides rfl).mp h
    unfold Op.holds at hlt
    exact absurd hlt (by decide)

end Otawa.Clp.Se
