import Otawa.Clp.SymbolicExpr

/-!
# The canonisation of comparisons ends

A round of `SECmp::canonize` makes the left operand smaller, or exchanges the operands. After an exchange the leftmost leaf
of the left operand is no constant, as the right one was canonised, so that there is no other exchange: at most two are
made. The comparisons inside of others are leaves for the outer ones, and are canonised each time that they are reached.
-/

namespace Otawa.Clp.Se

open SymbExpr

variable {V : Type} {canon canon' : SymbExpr V → Option (SymbExpr V)} {c c' : SECmp V} {e e' a b : SymbExpr V}

/-! ### Rules -/

/-- No rule of the loop applies. -/
def Settled (c : SECmp V) : Prop :=
  ∀ canon : SymbExpr V → Option (SymbExpr V), round canon c = some (c, false)

theorem flattenOf_false {o : Op} {f : Op → Op} (h : (flattenOf o f c).2 = false) : flattenOf o f c = (c, false) := by
  unfold flattenOf at h ⊢
  split
  · split
    · simp_all
    · rfl
  · split
    · simp_all
    · rfl
  · rfl

theorem flatten_false (h : (flatten c).2 = false) : flatten c = (c, false) :=
  flattenOf_false h

theorem flattenUnsigned_false (h : (flattenUnsigned c).2 = false) : flattenUnsigned c = (c, false) :=
  flattenOf_false h

theorem swap_false (h : (swap c).2 = false) : swap c = (c, false) := by
  unfold swap at h ⊢
  split
  · split
    · rfl
    · simp_all
  · rfl

theorem splitAdd_false {r : SECmp V × Bool} (h : splitAdd canon c = some r) (hr : r.2 = false)
    (canon' : SymbExpr V → Option (SymbExpr V)) : splitAdd canon' c = some (c, false) ∧ r.1 = c := by
  obtain ⟨op, a, b⟩ := c
  cases b with
  | none => cases a <;> cases h <;> exact ⟨rfl, rfl⟩
  | some b =>
    cases a with
    | add parented x y =>
      obtain ⟨b', -, h⟩ := Option.bind_eq_some_iff.mp h
      cases h
      cases hr
    | _ =>
      cases h
      exact ⟨rfl, rfl⟩

theorem removeNeg_false {r : SECmp V × Bool} (h : removeNeg canon c = some r) (hr : r.2 = false)
    (canon' : SymbExpr V → Option (SymbExpr V)) : removeNeg canon' c = some (c, false) ∧ r.1 = c := by
  obtain ⟨op, a, b⟩ := c
  cases b with
  | none => cases a <;> cases h <;> exact ⟨rfl, rfl⟩
  | some b =>
    cases a with
    | neg parented x =>
      obtain ⟨b', -, h⟩ := Option.bind_eq_some_iff.mp h
      cases h
      cases hr
    | _ =>
      cases h
      exact ⟨rfl, rfl⟩

/-- A round that does not go on leaves the comparison as it is. -/
theorem round_false {r : SECmp V × Bool} (h : round canon c = some r) (hr : r.2 = false) : r.1 = c ∧ Settled c := by
  obtain ⟨r₄, h₄, h⟩ := Option.bind_eq_some_iff.mp h
  obtain ⟨r₅, h₅, h⟩ := Option.bind_eq_some_iff.mp h
  cases h
  simp only [Bool.or_eq_false_iff] at hr
  obtain ⟨⟨⟨⟨hr₁, hr₂⟩, hr₃⟩, hr₄⟩, hr₅⟩ := hr
  rw [flatten_false hr₁] at h₄ hr₂ hr₃
  rw [flattenUnsigned_false hr₂] at h₄ hr₃
  rw [swap_false hr₃] at h₄
  dsimp only at h₄ h₅
  have hsame := (splitAdd_false h₄ hr₄ canon).2
  rw [hsame] at h₅
  refine ⟨(removeNeg_false h₅ hr₅ canon).2, fun canon' => ?_⟩
  unfold round
  simp only [flatten_false hr₁, flattenUnsigned_false hr₂, swap_false hr₃, (splitAdd_false h₄ hr₄ canon').1,
    (removeNeg_false h₅ hr₅ canon').1, Option.bind_eq_bind, Option.bind_some, Bool.or_self]

theorem loop_settled {fuel : ℕ} (h : loop canon fuel c = some c') : Settled c' := by
  induction fuel generalizing c with
  | zero => cases h
  | succ fuel ih =>
    obtain ⟨r, hround, h⟩ := Option.bind_eq_some_iff.mp h
    cases hr : r.2 with
    | true =>
      rw [hr, if_pos rfl] at h
      exact ih h
    | false =>
      rw [hr, if_neg Bool.false_ne_true] at h
      cases h
      obtain ⟨hsame, hsettled⟩ := round_false hround hr
      rw [hsame]
      exact hsettled

/-! ### More fuel -/

/-- The second method has the results of the first one. -/
def Within (canon canon' : SymbExpr V → Option (SymbExpr V)) : Prop :=
  ∀ e r, canon e = some r → canon' e = some r

section

variable (h : Within canon canon')
include h

theorem splitAdd_mono {r : SECmp V × Bool} (hr : splitAdd canon c = some r) : splitAdd canon' c = some r := by
  unfold splitAdd at hr ⊢
  split at hr
  · obtain ⟨b, hb, hr⟩ := Option.bind_eq_some_iff.mp hr
    exact Option.bind_eq_some_iff.mpr ⟨b, h _ _ hb, hr⟩
  · exact hr

theorem removeNeg_mono {r : SECmp V × Bool} (hr : removeNeg canon c = some r) : removeNeg canon' c = some r := by
  unfold removeNeg at hr ⊢
  split at hr
  · obtain ⟨b, hb, hr⟩ := Option.bind_eq_some_iff.mp hr
    exact Option.bind_eq_some_iff.mpr ⟨b, h _ _ hb, hr⟩
  · exact hr

theorem round_mono {r : SECmp V × Bool} (hr : round canon c = some r) : round canon' c = some r := by
  obtain ⟨r₄, h₄, hr⟩ := Option.bind_eq_some_iff.mp hr
  obtain ⟨r₅, h₅, hr⟩ := Option.bind_eq_some_iff.mp hr
  exact Option.bind_eq_some_iff.mpr ⟨r₄, splitAdd_mono h h₄, Option.bind_eq_some_iff.mpr ⟨r₅, removeNeg_mono h h₅, hr⟩⟩

theorem loop_mono {fuel fuel' : ℕ} (hle : fuel ≤ fuel') (hc : loop canon fuel c = some c') :
    loop canon' fuel' c = some c' := by
  induction fuel generalizing c fuel' with
  | zero => cases hc
  | succ fuel ih =>
    obtain ⟨fuel', rfl⟩ : ∃ k, fuel' = k + 1 := ⟨fuel' - 1, by omega⟩
    obtain ⟨r, hround, hc⟩ := Option.bind_eq_some_iff.mp hc
    refine Option.bind_eq_some_iff.mpr ⟨r, round_mono h hround, ?_⟩
    split at hc
    · rename_i hr
      rw [if_pos hr]
      exact ih (Nat.le_of_succ_le_succ hle) hc
    · rename_i hr
      rw [if_neg hr]
      exact hc

theorem canonizeCmp_mono {fuel fuel' : ℕ} (hle : fuel ≤ fuel')
    (hc : canonizeCmp canon fuel c = some c') : canonizeCmp canon' fuel' c = some c' := by
  unfold canonizeCmp at hc ⊢
  split at hc
  · rename_i hop
    rw [if_pos hop]
    exact hc
  · rename_i hop
    rw [if_neg hop]
    exact loop_mono h hle hc

end

variable [Zero V] [Add V] [Sub V]

omit [Zero V] [Sub V] in
theorem canonizeAdd_eq {parented : Bool} (h : ¬ (parented = true ∧ a.isConst = true ∧ b.isConst = true)) :
    canonizeAdd canon parented a b = rotate canon parented (constLast a b).1 (constLast a b).2 := by
  unfold canonizeAdd
  split
  · exact absurd ⟨rfl, rfl, rfl⟩ h
  · rfl

omit [Zero V] [Sub V] in
/-- Two constants are added in their parent, and another sum is rotated. -/
theorem canonizeAdd_cases {parented : Bool} (he : canonizeAdd canon parented a b = some e) :
    (∃ v w, parented = true ∧ a = .const v ∧ b = .const w ∧ e = .const (v + w)) ∨
      (¬ (parented = true ∧ a.isConst = true ∧ b.isConst = true) ∧
        rotate canon parented (constLast a b).1 (constLast a b).2 = some e) := by
  by_cases h : parented = true ∧ a.isConst = true ∧ b.isConst = true
  · left
    obtain ⟨rfl, ha, hb⟩ := h
    cases a with
    | const v =>
      cases b with
      | const w =>
        cases he
        exact ⟨v, w, rfl, rfl, rfl, rfl⟩
      | _ => cases hb
    | _ => cases ha
  · rw [canonizeAdd_eq h] at he
    exact .inr ⟨h, he⟩

section

omit [Zero V] [Add V] [Sub V]

theorem rotate_cases {parented : Bool} (he : rotate canon parented a b = some e) :
    (∃ q x y newb, a = .add q x y ∧ x.isVar = true ∧ canon (.add false y.copy b.setParent) = some newb ∧
      e = .add parented x.copy newb) ∨ e = .add parented a b := by
  cases a with
  | add q x y =>
    unfold rotate at he
    dsimp only at he
    split at he
    · rename_i hvar
      obtain ⟨newb, hnewb, he⟩ := Option.bind_eq_some_iff.mp he
      cases he
      exact .inl ⟨q, x, y, newb, rfl, hvar, hnewb, rfl⟩
    · cases he
      exact .inr rfl
  | _ =>
    cases he
    exact .inr rfl

theorem rotate_mono (h : Within canon canon') {parented : Bool} (he : rotate canon parented a b = some e) :
    rotate canon' parented a b = some e := by
  unfold rotate at he ⊢
  split at he
  · split at he
    · rename_i hvar
      rw [if_pos hvar]
      obtain ⟨newb, hnewb, he⟩ := Option.bind_eq_some_iff.mp he
      exact Option.bind_eq_some_iff.mpr ⟨newb, h _ _ hnewb, he⟩
    · rename_i hvar
      rw [if_neg hvar]
      exact he
  · exact he

end

omit [Zero V] [Sub V] in
theorem canonizeAdd_mono (h : Within canon canon') {parented : Bool} (he : canonizeAdd canon parented a b = some e) :
    canonizeAdd canon' parented a b = some e := by
  unfold canonizeAdd at he ⊢
  split at he
  · exact he
  · exact rotate_mono h he

theorem canonize_mono {fuel fuel' : ℕ} (hle : fuel ≤ fuel') : Within (canonize (V := V) fuel) (canonize fuel') := by
  induction fuel generalizing fuel' with
  | zero =>
    intro e r hr
    cases e <;> cases hr
  | succ fuel ih =>
    obtain ⟨fuel', rfl⟩ : ∃ k, fuel' = k + 1 := ⟨fuel' - 1, by omega⟩
    have hle := Nat.le_of_succ_le_succ hle
    have hmono := ih hle
    intro e r hr
    cases e with
    | const v => exact hr
    | addr v => exact hr
    | reg v => exact hr
    | neg parented a =>
      obtain ⟨a', ha, hr⟩ := Option.bind_eq_some_iff.mp hr
      exact Option.bind_eq_some_iff.mpr ⟨a', hmono _ _ ha, hr⟩
    | add parented a b =>
      obtain ⟨a', ha, hr⟩ := Option.bind_eq_some_iff.mp hr
      obtain ⟨b', hb, hr⟩ := Option.bind_eq_some_iff.mp hr
      exact Option.bind_eq_some_iff.mpr ⟨a', hmono _ _ ha, Option.bind_eq_some_iff.mpr ⟨b', hmono _ _ hb,
        canonizeAdd_mono hmono hr⟩⟩
    | cond op a =>
      obtain ⟨a', ha, hr⟩ := Option.bind_eq_some_iff.mp hr
      obtain ⟨c, hc, hr⟩ := Option.bind_eq_some_iff.mp hr
      exact Option.bind_eq_some_iff.mpr ⟨a', hmono _ _ ha, Option.bind_eq_some_iff.mpr ⟨c,
        canonizeCmp_mono hmono hle hc, hr⟩⟩
    | cmp op a b =>
      obtain ⟨a', ha, hr⟩ := Option.bind_eq_some_iff.mp hr
      obtain ⟨b', hb, hr⟩ := Option.bind_eq_some_iff.mp hr
      obtain ⟨c, hc, hr⟩ := Option.bind_eq_some_iff.mp hr
      exact Option.bind_eq_some_iff.mpr ⟨a', hmono _ _ ha, Option.bind_eq_some_iff.mpr ⟨b', hmono _ _ hb,
        Option.bind_eq_some_iff.mpr ⟨c, canonizeCmp_mono hmono hle hc, hr⟩⟩⟩

/-! ### Measures -/

namespace SymbExpr

/-- The nodes, without those inside of comparisons. -/
def weight : SymbExpr V → ℕ
  | .neg _ a => a.weight + 1
  | .add _ a b => a.weight + b.weight + 1
  | _ => 1

/-- How many comparisons are inside of each other. -/
def depth : SymbExpr V → ℕ
  | .neg _ a => a.depth
  | .add _ a b => max a.depth b.depth
  | .cond _ a => a.depth + 1
  | .cmp _ a b => max a.depth b.depth + 1
  | _ => 0

def size : SymbExpr V → ℕ
  | .neg _ a => a.size + 1
  | .add _ a b => a.size + b.size + 1
  | .cond _ a => a.size + 1
  | .cmp _ a b => a.size + b.size + 1
  | _ => 1

/-- The leftmost leaf is a constant. -/
def leftConst : SymbExpr V → Bool
  | .const _ => true
  | .neg _ a => a.leftConst
  | .add _ a _ => a.leftConst
  | _ => false

/-- A constant, or an expression whose leftmost leaf is none. -/
def Good (e : SymbExpr V) : Prop :=
  e.isConst = true ∨ e.leftConst = false

instance (e : SymbExpr V) : Decidable e.Good := inferInstanceAs (Decidable (_ ∨ _))

omit [Zero V] [Add V] [Sub V]

attribute [local simp] copy weight depth size leftConst

section

variable (e : SymbExpr V)

@[simp] theorem copy_copy : e.copy.copy = e.copy := by
  induction e <;> simp [*]

@[simp] theorem weight_copy : e.copy.weight = e.weight := by
  induction e <;> simp [*]

@[simp] theorem depth_copy : e.copy.depth = e.depth := by
  induction e <;> simp [*]

@[simp] theorem size_copy : e.copy.size = e.size := by
  induction e <;> simp [*]

@[simp] theorem leftConst_copy : e.copy.leftConst = e.leftConst := by
  induction e <;> simp [*]

@[simp] theorem weight_setParent : e.setParent.weight = e.weight := by
  cases e <;> rfl

@[simp] theorem depth_setParent : e.setParent.depth = e.depth := by
  cases e <;> rfl

end

theorem leftConst_of_isVar (h : e.isVar = true) : e.leftConst = false := by
  cases e with
  | reg v => rfl
  | addr v => rfl
  | _ => cases h

end SymbExpr

/-! ### The leftmost leaf -/

omit [Add V] in
theorem canonizeNeg_good (ha : a.Good) : (canonizeNeg true a).Good := by
  rcases ha with hconst | hleft
  · cases a with
    | const v => exact .inl rfl
    | _ => cases hconst
  · right
    cases a with
    | const v => cases hleft
    | neg parented x =>
      unfold canonizeNeg
      rw [if_pos rfl]
      exact (leftConst_copy x).trans hleft
    | _ => exact hleft

omit [Zero V] [Sub V] in
theorem canonizeAdd_good (ha : a.Good) (hb : b.Good) (he : canonizeAdd canon true a b = some e) : e.Good := by
  rcases canonizeAdd_cases he with ⟨v, w, -, -, -, rfl⟩ | ⟨hnot, he⟩
  · exact .inl rfl
  · have hleft : (constLast a b).1.leftConst = false := by
      unfold constLast
      by_cases hconst : a.isConst = true
      · rw [if_pos hconst]
        exact hb.resolve_left fun hb_const => hnot ⟨rfl, hconst, hb_const⟩
      · rw [if_neg hconst]
        exact ha.resolve_left hconst
    right
    rcases rotate_cases he with ⟨q, x, y, newb, -, hvar, -, rfl⟩ | rfl
    · exact (leftConst_copy x).trans (leftConst_of_isVar hvar)
    · exact hleft

/-- What is canonised in its parent is a constant, or its leftmost leaf is none. -/
theorem canonize_good {fuel : ℕ} (hcopy : e.copy = e) (he : canonize fuel e = some e') : e'.Good := by
  induction fuel generalizing e e' with
  | zero => cases e <;> cases he
  | succ fuel ih =>
    cases e with
    | const v =>
      cases he
      exact .inl rfl
    | addr v =>
      cases he
      exact .inr rfl
    | reg v =>
      cases he
      exact .inr rfl
    | neg parented a =>
      obtain ⟨a', ha, he⟩ := Option.bind_eq_some_iff.mp he
      injection hcopy with hparented hcopy_a
      cases he
      rw [← hparented]
      exact canonizeNeg_good (ih hcopy_a ha)
    | add parented a b =>
      obtain ⟨a', ha, he⟩ := Option.bind_eq_some_iff.mp he
      obtain ⟨b', hb, he⟩ := Option.bind_eq_some_iff.mp he
      injection hcopy with hparented hcopy_a hcopy_b
      rw [← hparented] at he
      exact canonizeAdd_good (ih hcopy_a ha) (ih hcopy_b hb) he
    | cond op a =>
      obtain ⟨a', ha, he⟩ := Option.bind_eq_some_iff.mp he
      obtain ⟨c, hc, he⟩ := Option.bind_eq_some_iff.mp he
      cases he
      right
      unfold SECmp.toExpr
      split <;> rfl
    | cmp op a b =>
      obtain ⟨a', ha, he⟩ := Option.bind_eq_some_iff.mp he
      obtain ⟨b', hb, he⟩ := Option.bind_eq_some_iff.mp he
      obtain ⟨c, hc, he⟩ := Option.bind_eq_some_iff.mp he
      cases he
      right
      unfold SECmp.toExpr
      split <;> rfl

/-! ### The rounds -/

/-- The exchanges that are still to come. -/
def phase (c : SECmp V) : ℕ :=
  match c.b with
  | none => 3
  | some b => if c.a.leftConst = false then 0 else if b.Good then 1 else 2

def Smaller (c' c : SECmp V) : Prop :=
  Prod.Lex (· < ·) (· < ·) (phase c', c'.a.size) (phase c, c.a.size)

/-- The operands have comparisons to this depth at most. -/
def Below (D : ℕ) (c : SECmp V) : Prop :=
  c.a.depth ≤ D ∧ ∀ b ∈ c.b, b.depth ≤ D

/-- What a rule does to a comparison. -/
structure Steps (D : ℕ) (c : SECmp V) (r : SECmp V × Bool) : Prop where
  below : Below D r.1
  applied : r.2 = true → Smaller r.1 c
  same : r.2 = false → r.1 = c

section Rounds

omit [Zero V] [Add V] [Sub V]

variable {D : ℕ}

theorem Smaller.trans {c₁ c₂ c₃ : SECmp V} (h : Smaller c₁ c₂) (h' : Smaller c₂ c₃) : Smaller c₁ c₃ := by
  unfold Smaller at h h' ⊢
  rw [Prod.lex_def] at h h' ⊢
  dsimp only at h h' ⊢
  omega

theorem smaller_of_phase (h : phase c' < phase c) : Smaller c' c :=
  .left _ _ h

theorem smaller_of_size (h : phase c' ≤ phase c) (hsize : c'.a.size < c.a.size) : Smaller c' c := by
  rcases Nat.lt_or_eq_of_le h with hlt | heq
  · exact .left _ _ hlt
  · unfold Smaller
    rw [heq]
    exact .right _ hsize

theorem Steps.refl (h : Below D c) : Steps D c (c, false) :=
  ⟨h, fun hr => absurd hr Bool.false_ne_true, fun _ => rfl⟩

theorem Steps.of_smaller (h : Below D c') (hsmaller : Smaller c' c) : Steps D c (c', true) :=
  ⟨h, fun _ => hsmaller, fun hr => absurd hr.symm Bool.false_ne_true⟩

theorem Steps.trans {r r' : SECmp V × Bool} (h : Steps D c r) (h' : Steps D r.1 r') :
    Steps D c (r'.1, r.2 || r'.2) := by
  refine ⟨h'.below, fun hr => ?_, fun hr => ?_⟩
  · cases h₁ : r.2 with
    | false =>
      have h₂ : r'.2 = true := by simpa [h₁] using hr
      rw [← h.same h₁]
      exact h'.applied h₂
    | true =>
      cases h₂ : r'.2 with
      | false =>
        rw [h'.same h₂]
        exact h.applied h₁
      | true => exact (h'.applied h₂).trans (h.applied h₁)
  · obtain ⟨h₁, h₂⟩ := Bool.or_eq_false_iff.mp hr
    exact (h'.same h₂).trans (h.same h₁)

theorem phase_le_two {op : Op} : phase ⟨op, a, some b⟩ ≤ 2 := by
  unfold phase
  dsimp only
  split
  · exact Nat.zero_le 2
  · split
    · exact Nat.le_succ 1
    · exact Nat.le_refl 2

/-- A condition on a comparison is flattened. -/
theorem flattenOf_steps (o : Op) (f : Op → Op) (h : Below D c) : Steps D c (flattenOf o f c) := by
  obtain ⟨op, a, b⟩ := c
  cases b with
  | some b => cases a <;> exact .refl h
  | none =>
    cases a with
    | cond o' x =>
      unfold flattenOf
      dsimp only
      split
      · have hx : x.depth + 1 ≤ D := h.1
        refine .of_smaller ⟨?_, fun _ hb => absurd hb (Option.not_mem_none _)⟩ ?_
        · rw [depth_copy]
          omega
        · refine smaller_of_size (Nat.le_refl _) ?_
          rw [size_copy]
          exact Nat.lt_succ_self _
      · exact .refl h
    | cmp o' x y =>
      unfold flattenOf
      dsimp only
      split
      · have hxy : max x.depth y.depth + 1 ≤ D := h.1
        refine .of_smaller ⟨?_, ?_⟩ (smaller_of_phase (Nat.lt_succ_of_le phase_le_two))
        · rw [depth_copy]
          omega
        · rintro b ⟨⟩
          rw [depth_copy]
          omega
      · exact .refl h
    | _ => exact .refl h

/-- The right operand that comes to the left begins with no constant, or the left one that came to the right is one. -/
theorem swap_steps (h : Below D c) : Steps D c (swap c) := by
  obtain ⟨op, a, b⟩ := c
  cases a with
  | const v =>
    cases b with
    | none => exact .refl h
    | some b =>
      unfold swap
      dsimp only
      split
      · exact .refl h
      · rename_i hconst
        have hb : b.depth ≤ D := h.2 b rfl
        refine .of_smaller ⟨hb, ?_⟩ (smaller_of_phase ?_)
        · rintro b' ⟨⟩
          exact Nat.zero_le D
        · unfold phase
          dsimp only
          rw [if_neg (show (const v).leftConst ≠ false from Bool.noConfusion)]
          by_cases hgood : b.Good
          · rw [if_pos (hgood.resolve_left hconst), if_pos hgood]
            exact Nat.zero_lt_one
          · rw [if_neg hgood]
            split
            · exact Nat.zero_lt_two
            · rw [if_pos (show (const v).Good from .inl rfl)]
              exact Nat.one_lt_two
  | _ => exact .refl h

/-- What is left of the left operand begins like it, before a right one that was canonised. -/
theorem smaller_of_canonized {op op' : Op} {b' : SymbExpr V} (hleft : a.leftConst = e.leftConst)
    (hsize : a.size < e.size) (hgood : b'.Good) : Smaller ⟨op', a, some b'⟩ ⟨op, e, some b⟩ := by
  refine smaller_of_size ?_ hsize
  unfold phase
  dsimp only
  rw [hleft, if_pos hgood]
  split
  · exact Nat.le_refl 0
  · split
    · exact Nat.le_refl 1
    · exact Nat.le_succ 1

end Rounds

/-! ### The end of the canonisation -/

/-- The canonisation of an expression ends, and does not make it bigger. -/
def Ends (e : SymbExpr V) : Prop :=
  ∃ fuel e', canonize fuel e = some e' ∧ e'.weight ≤ e.weight ∧ e'.depth ≤ e.depth

section Ends

variable {D : ℕ}

section

variable (hD : ∀ e : SymbExpr V, e.depth ≤ D → Ends e) (h : Below D c)
include hD h

theorem splitAdd_steps : ∃ fuel r, splitAdd (canonize fuel) c = some r ∧ Steps D c r := by
  obtain ⟨op, a, b⟩ := c
  cases b with
  | none => exact ⟨0, _, by cases a <;> rfl, .refl h⟩
  | some b =>
    cases a with
    | add parented x y =>
      have hb : b.depth ≤ D := h.2 b rfl
      have hxy : max x.depth y.depth ≤ D := h.1
      have hdepth : (add true b.copy (neg true y.copy)).depth ≤ D := by
        simp only [depth, depth_copy]
        omega
      obtain ⟨fuel, b', hb', -, hb'_depth⟩ := hD _ hdepth
      have hgood : b'.Good := canonize_good (by simp [copy]) hb'
      refine ⟨fuel, _, Option.bind_eq_some_iff.mpr ⟨b', hb', rfl⟩, .of_smaller ⟨?_, ?_⟩ ?_⟩
      · rw [depth_copy]
        omega
      · rintro _ ⟨⟩
        exact hb'_depth.trans hdepth
      · refine smaller_of_canonized (leftConst_copy x) ?_ hgood
        simp only [size, size_copy]
        omega
    | _ => exact ⟨0, _, rfl, .refl h⟩

theorem removeNeg_steps : ∃ fuel r, removeNeg (canonize fuel) c = some r ∧ Steps D c r := by
  obtain ⟨op, a, b⟩ := c
  cases b with
  | none => exact ⟨0, _, by cases a <;> rfl, .refl h⟩
  | some b =>
    cases a with
    | neg parented x =>
      have hb : b.depth ≤ D := h.2 b rfl
      have hdepth : (neg true b.copy).depth ≤ D := by
        simp only [depth, depth_copy]
        exact hb
      obtain ⟨fuel, b', hb', -, hb'_depth⟩ := hD _ hdepth
      have hgood : b'.Good := canonize_good (by simp [copy]) hb'
      refine ⟨fuel, _, Option.bind_eq_some_iff.mpr ⟨b', hb', rfl⟩, .of_smaller ⟨?_, ?_⟩ ?_⟩
      · rw [depth_copy]
        exact h.1
      · rintro _ ⟨⟩
        exact hb'_depth.trans hdepth
      · refine smaller_of_canonized (leftConst_copy x) ?_ hgood
        simp only [size, size_copy]
        exact Nat.lt_succ_self _
    | _ => exact ⟨0, _, rfl, .refl h⟩

theorem round_steps : ∃ fuel r, round (canonize fuel) c = some r ∧ Steps D c r := by
  have h₁ := flattenOf_steps .cmp id h
  have h₂ := flattenOf_steps .cmpu Op.unsigned h₁.below
  have h₃ := swap_steps h₂.below
  obtain ⟨n, r₄, hr₄, h₄⟩ := splitAdd_steps hD h₃.below
  obtain ⟨m, r₅, hr₅, h₅⟩ := removeNeg_steps hD h₄.below
  refine ⟨max n m, _, ?_, (((h₁.trans h₂).trans h₃).trans h₄).trans h₅⟩
  exact Option.bind_eq_some_iff.mpr ⟨r₄, splitAdd_mono (canonize_mono (Nat.le_max_left n m)) hr₄,
    Option.bind_eq_some_iff.mpr ⟨r₅, removeNeg_mono (canonize_mono (Nat.le_max_right n m)) hr₅, rfl⟩⟩

theorem loop_ends : ∃ fuel c', loop (canonize fuel) fuel c = some c' ∧ Below D c' := by
  have hwf : WellFounded (Smaller (V := V)) :=
    InvImage.wf (fun c : SECmp V => (phase c, c.a.size)) (Prod.lex Nat.lt_wfRel Nat.lt_wfRel).wf
  induction c using hwf.induction with
  | _ c ih =>
    obtain ⟨n, r, hr, hsteps⟩ := round_steps hD h
    cases hcont : r.2 with
    | false =>
      refine ⟨n + 1, r.1, Option.bind_eq_some_iff.mpr ⟨r, round_mono (canonize_mono (Nat.le_succ n)) hr, ?_⟩,
        hsteps.below⟩
      rw [hcont, if_neg Bool.false_ne_true]
    | true =>
      obtain ⟨m, c', hc', hbelow⟩ := ih r.1 (hsteps.applied hcont) hsteps.below
      refine ⟨max n m + 1, c', Option.bind_eq_some_iff.mpr ⟨r, round_mono (canonize_mono (by omega)) hr, ?_⟩, hbelow⟩
      rw [hcont, if_pos rfl]
      exact loop_mono (canonize_mono (by omega)) (Nat.le_max_right n m) hc'

theorem canonizeCmp_ends : ∃ fuel c', canonizeCmp (canonize fuel) fuel c = some c' ∧ Below D c' := by
  by_cases hop : c.op = .cmp ∨ c.op = .cmpu
  · refine ⟨0, c, ?_, h⟩
    unfold canonizeCmp
    rw [if_pos hop]
  · obtain ⟨fuel, c', hc', hbelow⟩ := loop_ends hD h
    refine ⟨fuel, c', ?_, hbelow⟩
    unfold canonizeCmp
    rw [if_neg hop]
    exact hc'

end

section

omit [Zero V] [Add V] [Sub V]

theorem weight_constLast (a b : SymbExpr V) :
    (constLast a b).1.weight + (constLast a b).2.weight = a.weight + b.weight := by
  unfold constLast
  split
  · exact Nat.add_comm _ _
  · rfl

theorem depth_constLast (a b : SymbExpr V) :
    max (constLast a b).1.depth (constLast a b).2.depth = max a.depth b.depth := by
  unfold constLast
  split
  · exact Nat.max_comm _ _
  · rfl

end

theorem rotate_ends (parented : Bool) (a b : SymbExpr V)
    (hsum : ∀ e : SymbExpr V, e.depth ≤ max a.depth b.depth → e.weight < a.weight + b.weight + 1 → Ends e) :
    ∃ k e', rotate (canonize k) parented a b = some e' ∧ e'.weight ≤ a.weight + b.weight + 1 ∧
      e'.depth ≤ max a.depth b.depth := by
  cases a with
  | add q x y =>
    by_cases hvar : x.isVar = true
    · have hx : x.weight = 1 ∧ x.depth = 0 := by
        cases x with
        | reg v => exact ⟨rfl, rfl⟩
        | addr v => exact ⟨rfl, rfl⟩
        | _ => cases hvar
      obtain ⟨k, newb, hnewb, hweight, hdepth⟩ := hsum (add false y.copy b.setParent)
        (by simp only [depth, depth_copy, depth_setParent]; omega)
        (by simp only [weight, weight_copy, weight_setParent]; omega)
      simp only [weight, depth, weight_copy, depth_copy, weight_setParent, depth_setParent] at hweight hdepth
      refine ⟨k, add parented x.copy newb, ?_, ?_, ?_⟩
      · unfold rotate
        dsimp only
        rw [if_pos hvar]
        exact Option.bind_eq_some_iff.mpr ⟨newb, hnewb, rfl⟩
      · simp only [weight, weight_copy]
        omega
      · simp only [depth, depth_copy]
        omega
    · refine ⟨0, add parented (add q x y) b, ?_, Nat.le_refl _, Nat.le_refl _⟩
      unfold rotate
      dsimp only
      rw [if_neg hvar]
  | _ => exact ⟨0, _, rfl, Nat.le_refl _, Nat.le_refl _⟩

/-- A sum ends when those of its operands do, and the smaller sums. -/
theorem add_ends {parented : Bool} (ha : Ends a) (hb : Ends b)
    (hsum : ∀ e : SymbExpr V, e.depth ≤ max a.depth b.depth → e.weight < a.weight + b.weight + 1 → Ends e) :
    Ends (add parented a b) := by
  obtain ⟨n, a', ha', ha_weight, ha_depth⟩ := ha
  obtain ⟨m, b', hb', hb_weight, hb_depth⟩ := hb
  have hrun : ∃ k e', canonizeAdd (canonize k) parented a' b' = some e' ∧ e'.weight ≤ a'.weight + b'.weight + 1 ∧
      e'.depth ≤ max a'.depth b'.depth := by
    by_cases hconst : parented = true ∧ a'.isConst = true ∧ b'.isConst = true
    · obtain ⟨rfl, ha_const, hb_const⟩ := hconst
      cases a' with
      | const v =>
        cases b' with
        | const w => exact ⟨0, .const (v + w), rfl, by simp [weight], Nat.zero_le _⟩
        | _ => cases hb_const
      | _ => cases ha_const
    · obtain ⟨k, e', he', hweight, hdepth⟩ := rotate_ends parented (constLast a' b').1 (constLast a' b').2
        fun e he_depth he_weight => hsum e (by rw [depth_constLast] at he_depth; omega)
          (by rw [weight_constLast] at he_weight; omega)
      rw [weight_constLast] at hweight
      rw [depth_constLast] at hdepth
      refine ⟨k, e', ?_, hweight, hdepth⟩
      rw [canonizeAdd_eq hconst]
      exact he'
  obtain ⟨k, e', he', hweight, hdepth⟩ := hrun
  refine ⟨max n (max m k) + 1, e', ?_, ?_, ?_⟩
  · refine Option.bind_eq_some_iff.mpr ⟨a', canonize_mono (by omega) _ _ ha', ?_⟩
    refine Option.bind_eq_some_iff.mpr ⟨b', canonize_mono (by omega) _ _ hb', ?_⟩
    exact canonizeAdd_mono (canonize_mono (by omega)) he'
  · simp only [weight]
    omega
  · simp only [depth]
    omega

theorem neg_ends {parented : Bool} (ha : Ends a) : Ends (neg parented a) := by
  obtain ⟨n, a', ha', ha_weight, ha_depth⟩ := ha
  refine ⟨n + 1, canonizeNeg parented a', Option.bind_eq_some_iff.mpr ⟨a', ha', rfl⟩, ?_, ?_⟩
  · have hweight : (canonizeNeg parented a').weight ≤ a'.weight + 1 := by
      unfold canonizeNeg
      split
      · split
        · exact Nat.le_add_left 1 _
        · simp only [weight, weight_copy]
          omega
        · exact Nat.le_refl _
      · exact Nat.le_refl _
    exact hweight.trans (Nat.succ_le_succ ha_weight)
  · have hdepth : (canonizeNeg parented a').depth ≤ a'.depth := by
      unfold canonizeNeg
      split
      · split
        · exact Nat.zero_le _
        · simp only [depth, depth_copy]
          exact Nat.le_refl _
        · exact Nat.le_refl _
      · exact Nat.le_refl _
    exact hdepth.trans ha_depth

omit [Zero V] [Add V] [Sub V] in
theorem toExpr_measures (h : Below D c) : c.toExpr.weight = 1 ∧ c.toExpr.depth ≤ D + 1 := by
  obtain ⟨op, a, b⟩ := c
  cases b with
  | none => exact ⟨rfl, Nat.succ_le_succ h.1⟩
  | some b => exact ⟨rfl, Nat.succ_le_succ (Nat.max_le.mpr ⟨h.1, h.2 b rfl⟩)⟩

theorem canonize_ends (e : SymbExpr V) : Ends e := by
  -- on the comparisons inside of each other, and then on the nodes
  induction hD : e.depth using Nat.strongRecOn generalizing e with
  | ind D ihD =>
    have hbelow : ∀ D' < D, ∀ e : SymbExpr V, e.depth ≤ D' → Ends e :=
      fun D' hlt e he => ihD e.depth (Nat.lt_of_le_of_lt he hlt) e rfl
    induction hW : e.weight using Nat.strongRecOn generalizing e with
    | ind W ihW =>
      have hsmaller : ∀ e : SymbExpr V, e.depth ≤ D → e.weight < W → Ends e := by
        intro e he hlt
        rcases Nat.lt_or_eq_of_le he with hlt' | heq
        · exact ihD e.depth hlt' e rfl
        · exact ihW e.weight hlt e heq rfl
      cases e with
      | const v => exact ⟨1, _, rfl, Nat.le_refl _, Nat.le_refl _⟩
      | addr v => exact ⟨1, _, rfl, Nat.le_refl _, Nat.le_refl _⟩
      | reg v => exact ⟨1, _, rfl, Nat.le_refl _, Nat.le_refl _⟩
      | neg parented a =>
        simp only [depth, weight] at hD hW
        exact neg_ends (hsmaller a (by omega) (by omega))
      | add parented a b =>
        simp only [depth, weight] at hD hW
        refine add_ends (hsmaller a (by omega) (by omega)) (hsmaller b (by omega) (by omega)) fun e he hlt => ?_
        exact hsmaller e (by omega) (by omega)
      | cond op a =>
        simp only [depth] at hD
        obtain ⟨n, a', ha', -, ha_depth⟩ := hbelow a.depth (by omega) a (Nat.le_refl _)
        obtain ⟨m, c, hc, hc_below⟩ := canonizeCmp_ends (c := ⟨op, a', none⟩) (hbelow a.depth (by omega))
          ⟨ha_depth, fun _ hb => absurd hb (Option.not_mem_none _)⟩
        obtain ⟨hweight, hdepth⟩ := toExpr_measures hc_below
        refine ⟨max n m + 1, c.toExpr, ?_, Nat.le_of_eq hweight, hdepth⟩
        refine Option.bind_eq_some_iff.mpr ⟨a', canonize_mono (Nat.le_max_left n m) _ _ ha', ?_⟩
        exact Option.bind_eq_some_iff.mpr
          ⟨c, canonizeCmp_mono (canonize_mono (Nat.le_max_right n m)) (Nat.le_max_right n m) hc, rfl⟩
      | cmp op a b =>
        simp only [depth] at hD
        obtain ⟨n, a', ha', -, ha_depth⟩ := hbelow a.depth (by omega) a (Nat.le_refl _)
        obtain ⟨k, b', hb', -, hb_depth⟩ := hbelow b.depth (by omega) b (Nat.le_refl _)
        obtain ⟨m, c, hc, hc_below⟩ := canonizeCmp_ends (c := ⟨op, a', some b'⟩)
          (hbelow (max a.depth b.depth) (by omega)) ⟨by dsimp only; omega, by rintro _ ⟨⟩; omega⟩
        obtain ⟨hweight, hdepth⟩ := toExpr_measures hc_below
        refine ⟨max n (max k m) + 1, c.toExpr, ?_, Nat.le_of_eq hweight, hdepth⟩
        refine Option.bind_eq_some_iff.mpr ⟨a', canonize_mono (by omega) _ _ ha', ?_⟩
        refine Option.bind_eq_some_iff.mpr ⟨b', canonize_mono (by omega) _ _ hb', ?_⟩
        exact Option.bind_eq_some_iff.mpr
          ⟨c, canonizeCmp_mono (canonize_mono (by omega)) (by omega) hc, rfl⟩

end Ends

omit [Zero V] [Add V] [Sub V] in
theorem canonizeCmp_settled {fuel : ℕ} (h : canonizeCmp canon fuel c = some c') :
    c'.op = .cmp ∨ c'.op = .cmpu ∨ Settled c' := by
  unfold canonizeCmp at h
  split at h
  · rename_i hop
    cases h
    exact hop.imp_right .inl
  · exact .inr (.inr (loop_settled h))

/-- The canonisation of a comparison ends in one that no rule changes. -/
theorem canonize_settles (c : SECmp V) : ∃ fuel c', canonize fuel c.toExpr = some (SECmp.toExpr c') ∧
    (c'.op = .cmp ∨ c'.op = .cmpu ∨ Settled c') := by
  obtain ⟨fuel, e', he, -, -⟩ := canonize_ends c.toExpr
  obtain ⟨op, a, b⟩ := c
  cases b with
  | none =>
    cases fuel with
    | zero => cases he
    | succ fuel =>
      obtain ⟨a', ha, hrest⟩ := Option.bind_eq_some_iff.mp he
      obtain ⟨c', hc, heq⟩ := Option.bind_eq_some_iff.mp hrest
      cases heq
      exact ⟨fuel + 1, c', he, canonizeCmp_settled hc⟩
  | some b =>
    cases fuel with
    | zero => cases he
    | succ fuel =>
      obtain ⟨a', ha, hrest⟩ := Option.bind_eq_some_iff.mp he
      obtain ⟨b', hb, hrest⟩ := Option.bind_eq_some_iff.mp hrest
      obtain ⟨c', hc, heq⟩ := Option.bind_eq_some_iff.mp hrest
      cases heq
      exact ⟨fuel + 1, c', he, canonizeCmp_settled hc⟩

end Otawa.Clp.Se
