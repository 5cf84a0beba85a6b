import Otawa.Clp.Canonize

/-!
# Differences under canonisation

A sum keeps its value when it is canonised, in each group where the constants are read. A rule of `SECmp::canonize` keeps
the difference of the operands, or reverses the operator with the sign of the difference.
-/

namespace Otawa.Clp.Se

open SymbExpr

variable {V W A : Type}

/-! ### Differences -/

/-- The values of the leaves. -/
structure Valuation (V A : Type) where
  const : V → A
  reg : V → A
  addr : V → A

namespace SymbExpr

/-- No comparison is inside. -/
def isArith : SymbExpr V → Bool
  | .neg _ a => a.isArith
  | .add _ a b => a.isArith && b.isArith
  | .cond _ _ => false
  | .cmp _ _ _ => false
  | _ => true

def eval [AddCommGroup A] (val : Valuation V A) : SymbExpr V → A
  | .const v => val.const v
  | .reg v => val.reg v
  | .addr v => val.addr v
  | .neg _ a => -a.eval val
  | .add _ a b => a.eval val + b.eval val
  | .cond _ _ => 0
  | .cmp _ _ _ => 0

variable {e : SymbExpr V}

@[simp] theorem isArith_copy (e : SymbExpr V) : e.copy.isArith = e.isArith := by
  induction e <;> simp [copy, isArith, *]

@[simp] theorem isArith_setParent (e : SymbExpr V) : e.setParent.isArith = e.isArith := by
  cases e <;> rfl

variable [AddCommGroup A] (val : Valuation V A)

@[simp] theorem eval_copy (e : SymbExpr V) : e.copy.eval val = e.eval val := by
  induction e <;> simp [copy, eval, *]

@[simp] theorem eval_setParent (e : SymbExpr V) : e.setParent.eval val = e.eval val := by
  cases e <;> rfl

end SymbExpr

variable [AddCommGroup A] [Zero V] [Add V] [Sub V]

/-- The constants are read as the operations of the code have it. -/
structure Valuation.Additive (val : Valuation V A) : Prop where
  zero : val.const 0 = 0
  add : ∀ v w, val.const (v + w) = val.const v + val.const w
  sub : ∀ v w, val.const (v - w) = val.const v - val.const w

variable {canon : SymbExpr V → Option (SymbExpr V)} {val : Valuation V A} {a b e e' : SymbExpr V} {c c' : SECmp V}

/-- The expression has no comparison and keeps its value. -/
structure Keeps (val : Valuation V A) (e e' : SymbExpr V) : Prop where
  arith : e'.isArith = true
  eval : e'.eval val = e.eval val

/-- The method keeps the values of the expressions without comparison. -/
def KeepsValues (val : Valuation V A) (canon : SymbExpr V → Option (SymbExpr V)) : Prop :=
  ∀ e e', e.isArith = true → canon e = some e' → Keeps val e e'

section Values

variable (hval : val.Additive)

include hval

theorem canonizeNeg_keeps (parented : Bool) (ha : a.isArith = true) :
    (canonizeNeg parented a).isArith = true ∧ (canonizeNeg parented a).eval val = -a.eval val := by
  unfold canonizeNeg
  split
  · split
    · refine ⟨rfl, ?_⟩
      simp only [SymbExpr.eval]
      rw [hval.sub, hval.zero, zero_sub]
    · simp only [isArith_copy, eval_copy, SymbExpr.eval, neg_neg, and_true]
      exact ha
    · exact ⟨ha, rfl⟩
  · exact ⟨ha, rfl⟩

section

omit [Zero V] [Add V] [Sub V] hval

theorem constLast_keeps (val : Valuation V A) (ha : a.isArith = true) (hb : b.isArith = true) :
    (constLast a b).1.isArith = true ∧ (constLast a b).2.isArith = true ∧
      (constLast a b).1.eval val + (constLast a b).2.eval val = a.eval val + b.eval val := by
  unfold constLast
  split
  · exact ⟨hb, ha, add_comm _ _⟩
  · exact ⟨ha, hb, rfl⟩

theorem rotate_keeps {parented : Bool} (hcanon : KeepsValues val canon) (ha : a.isArith = true) (hb : b.isArith = true)
    (he : rotate canon parented a b = some e) : e.isArith = true ∧ e.eval val = a.eval val + b.eval val := by
  rcases rotate_cases he with ⟨q, x, y, newb, rfl, hvar, hnewb, rfl⟩ | rfl
  · simp only [SymbExpr.isArith, Bool.and_eq_true] at ha
    have hnew := hcanon _ _ (by simp [SymbExpr.isArith, ha.2, hb]) hnewb
    simp only [SymbExpr.isArith, SymbExpr.eval, isArith_copy, eval_copy, hnew.arith, hnew.eval, eval_setParent, ha.1,
      Bool.and_true, true_and]
    exact (add_assoc _ _ _).symm
  · simp only [SymbExpr.isArith, ha, hb, Bool.and_true, true_and]
    rfl

end

theorem canonizeAdd_keeps {parented : Bool} (hcanon : KeepsValues val canon) (ha : a.isArith = true)
    (hb : b.isArith = true) (he : canonizeAdd canon parented a b = some e) :
    e.isArith = true ∧ e.eval val = a.eval val + b.eval val := by
  rcases canonizeAdd_cases he with ⟨v, w, -, rfl, rfl, rfl⟩ | ⟨-, he⟩
  · exact ⟨rfl, hval.add v w⟩
  · obtain ⟨hl, hr, hsum⟩ := constLast_keeps val ha hb
    rw [← hsum]
    exact rotate_keeps hcanon hl hr he

theorem canonize_keeps (fuel : ℕ) : KeepsValues val (canonize fuel) := by
  induction fuel with
  | zero =>
    intro e e' _ he
    cases e <;> cases he
  | succ fuel ih =>
    intro e e' harith he
    cases e with
    | const v =>
      cases he
      exact ⟨rfl, rfl⟩
    | addr v =>
      cases he
      exact ⟨rfl, rfl⟩
    | reg v =>
      cases he
      exact ⟨rfl, rfl⟩
    | neg parented a =>
      obtain ⟨a', ha, he⟩ := Option.bind_eq_some_iff.mp he
      cases he
      have ha' := ih a a' harith ha
      obtain ⟨harith', heval⟩ := canonizeNeg_keeps hval parented ha'.arith
      exact ⟨harith', heval.trans (congrArg Neg.neg ha'.eval)⟩
    | add parented a b =>
      obtain ⟨a', ha, he⟩ := Option.bind_eq_some_iff.mp he
      obtain ⟨b', hb, he⟩ := Option.bind_eq_some_iff.mp he
      obtain ⟨harith_a, harith_b⟩ := Bool.and_eq_true_iff.mp harith
      have ha' := ih a a' harith_a ha
      have hb' := ih b b' harith_b hb
      obtain ⟨harith', heval⟩ := canonizeAdd_keeps hval ih ha'.arith hb'.arith he
      refine ⟨harith', heval.trans ?_⟩
      rw [ha'.eval, hb'.eval]
      rfl
    | cond op a => cases harith
    | cmp op a b => cases harith

end Values

/-! ### Rounds -/

theorem reverse_reverse (op : Op) : reverse (reverse op) = op := by
  cases op <;> rfl

/-- The operands as a difference, with the operator. -/
structure Compares (val : Valuation V A) (op : Op) (d : A) (c : SECmp V) : Prop where
  arith : c.a.isArith = true
  right : ∃ b, c.b = some b ∧ b.isArith = true ∧
    ((c.op = op ∧ c.a.eval val - b.eval val = d) ∨ (c.op = reverse op ∧ c.a.eval val - b.eval val = -d))

section Rounds

variable (hval : val.Additive) {op : Op} {d : A}

omit [Zero V] [Add V] [Sub V]

theorem flattenOf_of_arith {o : Op} {f : Op → Op} (h : Compares val op d c) : flattenOf o f c = (c, false) := by
  obtain ⟨op', a, b⟩ := c
  obtain ⟨ha, -⟩ := h
  cases a with
  | cond o' x => cases ha
  | cmp o' x y => cases ha
  | _ => rfl

/-- With the operands exchanged. -/
theorem Compares.exchange {op' : Op}
    (h : (op' = op ∧ a.eval val - b.eval val = d) ∨ (op' = reverse op ∧ a.eval val - b.eval val = -d)) {a' b' : SymbExpr V}
    (ha' : a'.isArith = true) (hb' : b'.isArith = true) (hd : a'.eval val - b'.eval val = b.eval val - a.eval val) :
    Compares val op d ⟨reverse op', a', some b'⟩ := by
  refine ⟨ha', b', rfl, hb', ?_⟩
  rcases h with ⟨rfl, rfl⟩ | ⟨rfl, hneg⟩
  · right
    exact ⟨rfl, by rw [hd, neg_sub]⟩
  · left
    refine ⟨reverse_reverse op, ?_⟩
    rw [hd, ← neg_sub, hneg, neg_neg]

theorem swap_compares (h : Compares val op d c) : Compares val op d (swap c).1 := by
  obtain ⟨op', a, b⟩ := c
  obtain ⟨ha, b, rfl, hb, hd⟩ := h
  cases a with
  | const v =>
    unfold swap
    dsimp only
    split
    · exact ⟨ha, b, rfl, hb, hd⟩
    · exact .exchange hd hb ha rfl
  | _ => exact ⟨ha, b, rfl, hb, hd⟩

theorem splitAdd_compares (hcanon : KeepsValues val canon) (h : Compares val op d c) {r : SECmp V × Bool}
    (hr : splitAdd canon c = some r) : Compares val op d r.1 := by
  obtain ⟨op', a, b⟩ := c
  obtain ⟨ha, b, rfl, hb, hd⟩ := h
  cases a with
  | add q x y =>
    obtain ⟨b', hb', hr⟩ := Option.bind_eq_some_iff.mp hr
    cases hr
    simp only [SymbExpr.isArith, Bool.and_eq_true] at ha
    have hkeeps := hcanon _ _ (by simp [SymbExpr.isArith, hb, ha.2]) hb'
    have hdiff : x.copy.eval val - b'.eval val = (add q x y).eval val - b.eval val := by
      rw [hkeeps.eval]
      simp only [SymbExpr.eval, eval_copy]
      abel
    refine ⟨by rw [isArith_copy]; exact ha.1, b', rfl, hkeeps.arith, ?_⟩
    rw [hdiff]
    exact hd
  | _ =>
    cases hr
    exact ⟨ha, b, rfl, hb, hd⟩

theorem removeNeg_compares (hcanon : KeepsValues val canon) (h : Compares val op d c) {r : SECmp V × Bool}
    (hr : removeNeg canon c = some r) : Compares val op d r.1 := by
  obtain ⟨op', a, b⟩ := c
  obtain ⟨ha, b, rfl, hb, hd⟩ := h
  cases a with
  | neg q x =>
    obtain ⟨b', hb', hr⟩ := Option.bind_eq_some_iff.mp hr
    cases hr
    have hkeeps := hcanon _ _ (by simp [SymbExpr.isArith, hb]) hb'
    refine .exchange hd (by rw [isArith_copy]; exact ha) hkeeps.arith ?_
    rw [hkeeps.eval]
    simp only [SymbExpr.eval, eval_copy]
    abel
  | _ =>
    cases hr
    exact ⟨ha, b, rfl, hb, hd⟩

theorem round_compares (hcanon : KeepsValues val canon) (h : Compares val op d (flattenUnsigned (flatten c).1).1)
    {r : SECmp V × Bool} (hr : round canon c = some r) : Compares val op d r.1 := by
  obtain ⟨r₄, h₄, hr⟩ := Option.bind_eq_some_iff.mp hr
  obtain ⟨r₅, h₅, hr⟩ := Option.bind_eq_some_iff.mp hr
  have h' : Compares val op d r₅.1 := removeNeg_compares hcanon (splitAdd_compares hcanon (swap_compares h) h₄) h₅
  cases hr
  exact h'

theorem Compares.flattened (h : Compares val op d c) : Compares val op d (flattenUnsigned (flatten c).1).1 := by
  unfold flatten flattenUnsigned
  rw [flattenOf_of_arith h]
  dsimp only
  rw [flattenOf_of_arith h]
  exact h

theorem loop_compares (hcanon : KeepsValues val canon) {fuel : ℕ}
    (h : Compares val op d (flattenUnsigned (flatten c).1).1) (hc : loop canon fuel c = some c') :
    Compares val op d c' := by
  induction fuel generalizing c with
  | zero => cases hc
  | succ fuel ih =>
    obtain ⟨r, hr, hc⟩ := Option.bind_eq_some_iff.mp hc
    have hround := round_compares hcanon h hr
    split at hc
    · exact ih hround.flattened hc
    · cases hc
      exact hround

end Rounds

/-! ### Comparisons -/

/-- The operators that tell what is compared. -/
def Op.determined : Op → Bool
  | .none => false
  | .cmp => false
  | .cmpu => false
  | .or => false
  | _ => true

/-- The operator and the operands of a comparison or of a condition on one. -/
def sides : SymbExpr V → Option (Op × SymbExpr V × SymbExpr V)
  | .cmp op a b => if op.determined then some (op, a, b) else none
  | .cond op (.cmp .cmp a b) => if op.determined then some (op, a, b) else none
  | .cond op (.cmp .cmpu a b) => if op.determined then some (op.unsigned, a, b) else none
  | _ => none

/-- The comparisons over registers, addresses, sums, opposites and constants. -/
def Comparison (e : SymbExpr V) : Prop :=
  ∃ op a b, sides e = some (op, a, b) ∧ a.isArith = true ∧ b.isArith = true

theorem determined_unsigned {op : Op} (h : op.determined = true) : op.unsigned.determined = true := by
  cases op <;> exact h

theorem determined_reverse {op : Op} (h : op.determined = true) : (reverse op).determined = true := by
  cases op <;> exact h

section

omit [Zero V] [Add V] [Sub V]

/-- The method goes on to the loop for an operator that tells what is compared. -/
theorem canonizeCmp_of_determined {fuel : ℕ} (h : c.op.determined = true) :
    canonizeCmp canon fuel c = loop canon fuel c := by
  unfold canonizeCmp
  rw [if_neg]
  rintro (hop | hop) <;> rw [hop] at h <;> cases h

/-- What the loop makes of a comparison. -/
theorem canonizeCmp_compares {op : Op} {d : A} {fuel : ℕ} (hop : op.determined = true) (hc_op : c.op.determined = true)
    (hcanon : KeepsValues val canon) (h : Compares val op d (flattenUnsigned (flatten c).1).1)
    (hc : canonizeCmp canon fuel c = some c') :
    ∃ op' a' b', sides c'.toExpr = some (op', a', b') ∧ a'.isArith = true ∧ b'.isArith = true ∧
      ((op' = op ∧ a'.eval val - b'.eval val = d) ∨ (op' = reverse op ∧ a'.eval val - b'.eval val = -d)) := by
  rw [canonizeCmp_of_determined hc_op] at hc
  obtain ⟨ha, b', hb_eq, hb, hd⟩ := loop_compares hcanon h hc
  refine ⟨c'.op, c'.a, b', ?_, ha, hb, hd⟩
  have hdetermined : c'.op.determined = true := by
    rcases hd with ⟨heq, -⟩ | ⟨heq, -⟩
    · rw [heq]
      exact hop
    · rw [heq]
      exact determined_reverse hop
  unfold SECmp.toExpr
  rw [hb_eq]
  dsimp only [sides]
  rw [if_pos hdetermined]

end

/-- A comparison that does not tell what is compared keeps its form. -/
theorem canonize_undetermined (hval : val.Additive) {o : Op} {fuel : ℕ} (ho : o = .cmp ∨ o = .cmpu)
    (ha : a.isArith = true) (hb : b.isArith = true) (he : canonize fuel (.cmp o a b) = some e) :
    ∃ a' b', e = .cmp o a' b' ∧ Keeps val a a' ∧ Keeps val b b' := by
  cases fuel with
  | zero => cases he
  | succ fuel =>
    obtain ⟨a', ha', he⟩ := Option.bind_eq_some_iff.mp he
    obtain ⟨b', hb', he⟩ := Option.bind_eq_some_iff.mp he
    obtain ⟨c', hc', he⟩ := Option.bind_eq_some_iff.mp he
    cases he
    unfold canonizeCmp at hc'
    rw [if_pos ho] at hc'
    cases hc'
    exact ⟨a', b', rfl, canonize_keeps hval fuel _ _ ha ha', canonize_keeps hval fuel _ _ hb hb'⟩

section

omit [Zero V] [Add V] [Sub V]

theorem Compares.copied {op : Op} (ha : a.isArith = true) (hb : b.isArith = true) :
    Compares val op (a.eval val - b.eval val) ⟨op, a.copy, some b.copy⟩ := by
  refine ⟨by rw [isArith_copy]; exact ha, b.copy, rfl, by rw [isArith_copy]; exact hb, .inl ⟨rfl, ?_⟩⟩
  simp only [eval_copy]

/-- What was flattened as a signed comparison is not flattened as an unsigned one. -/
theorem Compares.signed {op : Op} {d : A} (h : Compares val op d c) : Compares val op d (flattenUnsigned c).1 := by
  unfold flattenUnsigned
  rw [flattenOf_of_arith h]
  exact h

end

/-- A canonised comparison has the same difference, or the opposite one with the operator reversed. -/
theorem canonize_sides (hval : val.Additive) {op : Op} {fuel : ℕ} (hsides : sides e = some (op, a, b))
    (ha : a.isArith = true) (hb : b.isArith = true) (he : canonize fuel e = some e') :
    ∃ op' a' b', sides e' = some (op', a', b') ∧ a'.isArith = true ∧ b'.isArith = true ∧
      ((op' = op ∧ a'.eval val - b'.eval val = a.eval val - b.eval val) ∨
        (op' = reverse op ∧ a'.eval val - b'.eval val = -(a.eval val - b.eval val))) := by
  cases fuel with
  | zero => cases e <;> cases he
  | succ fuel =>
    have hcanon := canonize_keeps hval fuel
    unfold sides at hsides
    split at hsides
    · rename_i op₀ a₀ b₀
      split at hsides
      · rename_i hop
        cases hsides
        obtain ⟨a', ha', he⟩ := Option.bind_eq_some_iff.mp he
        obtain ⟨b', hb', he⟩ := Option.bind_eq_some_iff.mp he
        obtain ⟨c', hc', he⟩ := Option.bind_eq_some_iff.mp he
        cases he
        have hka := hcanon _ _ ha ha'
        have hkb := hcanon _ _ hb hb'
        rw [← hka.eval, ← hkb.eval]
        have hstart : Compares val op (a'.eval val - b'.eval val) ⟨op, a', some b'⟩ :=
          ⟨hka.arith, b', rfl, hkb.arith, .inl ⟨rfl, rfl⟩⟩
        exact canonizeCmp_compares hop hop hcanon hstart.flattened hc'
      · cases hsides
    · rename_i op₀ a₀ b₀
      split at hsides
      · rename_i hop
        cases hsides
        obtain ⟨x, hx, he⟩ := Option.bind_eq_some_iff.mp he
        obtain ⟨c', hc', he⟩ := Option.bind_eq_some_iff.mp he
        cases he
        obtain ⟨a', b', rfl, hka, hkb⟩ := canonize_undetermined hval (.inl rfl) ha hb hx
        rw [← hka.eval, ← hkb.eval]
        exact canonizeCmp_compares hop hop hcanon (Compares.copied hka.arith hkb.arith).signed hc'
      · cases hsides
    · rename_i op₀ a₀ b₀
      split at hsides
      · rename_i hop
        cases hsides
        obtain ⟨x, hx, he⟩ := Option.bind_eq_some_iff.mp he
        obtain ⟨c', hc', he⟩ := Option.bind_eq_some_iff.mp he
        cases he
        obtain ⟨a', b', rfl, hka, hkb⟩ := canonize_undetermined hval (.inr rfl) ha hb hx
        rw [← hka.eval, ← hkb.eval]
        exact canonizeCmp_compares (determined_unsigned hop) hop hcanon (Compares.copied hka.arith hkb.arith) hc'
      · cases hsides
    · cases hsides

end Otawa.Clp.Se
