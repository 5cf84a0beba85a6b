import Otawa.Stack.Value

/-!
# What the values of the stack analysis stand for

`gamma` by the kinds of the values, and the operators: `OpCovers` says that an operator gives a value that stands
for the words the machine may have, `binary_covers` that it is enough to look at two constants.
-/

namespace Otawa.Stack

open Clp (Word)

namespace Value

variable {sp0 a b : Word} {v w : Value}

theorem gamma_all (htop : v.kind = .all) : v.gamma sp0 = Set.univ := by
  rw [gamma, htop]

theorem gamma_eq (hne : v.kind ≠ .all) (ha : a ∈ v.gamma sp0) (hb : b ∈ v.gamma sp0) : a = b := by
  unfold gamma at ha hb
  split at ha
  case h_1 htop => exact absurd htop hne
  case h_2 hsp =>
    rw [hsp] at hb
    exact ha.trans hb.symm
  case h_3 hcst =>
    rw [hcst] at hb
    exact ha.trans hb.symm
  all_goals exact absurd ha (Set.notMem_empty a)

theorem gamma_cst (hcst : v.kind = .cst) : v.gamma sp0 = {v.val} := by
  rw [gamma, hcst]

theorem gamma_bot : bot.gamma sp0 = ∅ := rfl

theorem kind_reg {r : Word} (hr : 0 ≤ r.toInt) : (reg r).kind = .reg := by
  have hne : ∀ k : Word, k.toInt < 0 → reg r ≠ ⟨specPage, k⟩ := by
    intro k hk heq
    have hval : r = k := congrArg Value.val heq
    rw [hval] at hr
    exact absurd hk (not_lt.mpr hr)
  have hsp : ¬ (reg r).isSP := show ¬ specPage = spPage by decide
  have htop : ¬ (reg r).isTop := hne (-2) (by decide)
  have hbot : ¬ (reg r).isBot := hne (-1) (by decide)
  rw [kind, if_neg htop, if_neg hbot, if_neg hsp]
  exact if_pos rfl

/-- The registers are not in the memory. -/
theorem gamma_reg {r : Word} (hr : 0 ≤ r.toInt) : (reg r).gamma sp0 = ∅ := by
  rw [gamma, kind_reg hr]

theorem gamma_join_left : v.gamma sp0 ⊆ (v.join w).gamma sp0 := by
  unfold join
  split
  · split
    case isTrue hbot =>
      rw [hbot, gamma_bot]
      exact Set.empty_subset _
    case isFalse =>
      split
      · exact Set.subset_univ _
      · exact subset_rfl
  · exact subset_rfl

theorem gamma_join_right : w.gamma sp0 ⊆ (v.join w).gamma sp0 := by
  unfold join
  split
  · split
    · exact subset_rfl
    · split
      case isTrue => exact Set.subset_univ _
      case isFalse hbot =>
        rw [not_not.mp hbot, gamma_bot]
        exact Set.empty_subset _
  case isFalse heq =>
    rw [not_not.mp heq]

theorem kind_of_isConst (h : v.isConst) : v.kind = .cst := by
  have hspec : v.page ≠ specPage := by
    intro heq
    rw [Value.isConst, heq] at h
    exact absurd h (by decide)
  have htop : ¬ v.isTop := fun heq => hspec (congrArg Value.page heq)
  have hbot : ¬ v.isBot := fun heq => hspec (congrArg Value.page heq)
  have hsp : ¬ v.isSP := ne_of_gt h
  rw [kind, if_neg htop, if_neg hbot, if_neg hsp]
  exact if_neg hspec

theorem kind_of_isSP (h : v.isSP) : v.kind = .sp := by
  have hspec : v.page ≠ specPage := by
    rw [h]
    decide
  have htop : ¬ v.isTop := fun heq => hspec (congrArg Value.page heq)
  have hbot : ¬ v.isBot := fun heq => hspec (congrArg Value.page heq)
  rw [kind, if_neg htop, if_neg hbot]
  exact if_pos h

theorem mem_gamma_const {sp0 a : Word} (h : v.isConst) : a ∈ v.gamma sp0 ↔ a = v.val := by
  rw [gamma_cst (kind_of_isConst h)]
  exact Iff.rfl

theorem mem_gamma_sp {sp0 a : Word} (h : v.isSP) : a ∈ v.gamma sp0 ↔ a = sp0 + v.val := by
  rw [gamma, kind_of_isSP h]
  exact Iff.rfl

theorem const_mem {sp0 : Word} {page : ℤ} (h : spPage < page) (k : Word) : k ∈ gamma sp0 ⟨page, k⟩ :=
  (mem_gamma_const (v := ⟨page, k⟩) h).mpr rfl

theorem sp_mem {sp0 : Word} {page : ℤ} (h : page = spPage) (k : Word) : sp0 + k ∈ gamma sp0 ⟨page, k⟩ :=
  (mem_gamma_sp (v := ⟨page, k⟩) h).mpr rfl

theorem mem_gamma_top {sp0 a : Word} : a ∈ top.gamma sp0 := by
  rw [gamma_all rfl]
  exact Set.mem_univ a

/-- An operator gives a value of the words that the machine may have. -/
def OpCovers (sp0 : Word) (op : Value → Value → Option Value) (f : Word → Word → Option Word) (v w : Value) : Prop :=
  ∃ r, op v w = some r ∧ ∀ a ∈ v.gamma sp0, ∀ b ∈ w.gamma sp0, ∀ x, (∀ y ∈ f a b, x = y) → x ∈ r.gamma sp0

theorem binary_covers {sp0 : Word} {op f : Word → Word → Option Word}
    (hconst : v.isConst → w.isConst → ∃ z, op v.val w.val = some z ∧ f v.val w.val = some z) :
    OpCovers sp0 (Value.binary op) f v w := by
  unfold OpCovers Value.binary
  split
  case isTrue hc =>
    obtain ⟨z, hop, hf⟩ := hconst hc.1 hc.2
    refine ⟨_, by rw [hop, Option.map_some], fun a ha b hb x hx => ?_⟩
    rw [mem_gamma_const hc.1] at ha
    rw [mem_gamma_const hc.2] at hb
    subst ha hb
    rw [hx z hf]
    exact const_mem hc.1 z
  case isFalse =>
    split
    case isTrue hbot =>
      refine ⟨_, rfl, fun a ha => ?_⟩
      rw [hbot.1, gamma_bot] at ha
      exact absurd ha (Set.notMem_empty a)
    case isFalse => exact ⟨_, rfl, fun _ _ _ _ _ _ => mem_gamma_top⟩

theorem word_covers (sp0 : Word) (op : Word → Word → Word) (v w : Value) :
    OpCovers sp0 (Value.binary fun x y => some (op x y)) (fun a b => some (op a b)) v w :=
  binary_covers fun _ _ => ⟨_, rfl, rfl⟩

theorem add_covers (sp0 : Word) (v w : Value) : OpCovers sp0 Value.add (fun a b => some (a + b)) v w := by
  unfold OpCovers Value.add
  split
  case isTrue h =>
    refine ⟨_, rfl, fun a ha b hb x hx => ?_⟩
    rw [hx _ rfl]
    obtain ⟨hv, hw⟩ | ⟨hv, hw⟩ := h
    · rw [mem_gamma_const hv] at ha
      rw [mem_gamma_const hw] at hb
      rw [ha, hb]
      exact const_mem hv _
    · rw [mem_gamma_sp hv] at ha
      rw [mem_gamma_const hw] at hb
      rw [ha, hb, BitVec.add_assoc]
      exact sp_mem hv _
  case isFalse =>
    split
    case isTrue h =>
      refine ⟨_, rfl, fun a ha b hb x hx => ?_⟩
      rw [mem_gamma_const h.1] at ha
      rw [mem_gamma_sp h.2] at hb
      rw [hx _ rfl, ha, hb, add_left_comm]
      exact sp_mem rfl _
    case isFalse =>
      split
      case isTrue hbot =>
        refine ⟨_, rfl, fun a ha => ?_⟩
        rw [hbot.1, gamma_bot] at ha
        exact absurd ha (Set.notMem_empty a)
      case isFalse => exact ⟨_, rfl, fun _ _ _ _ _ _ => mem_gamma_top⟩

theorem sub_covers (sp0 : Word) (v w : Value) : OpCovers sp0 Value.sub (fun a b => some (a - b)) v w := by
  unfold OpCovers Value.sub
  split
  case isTrue h =>
    refine ⟨_, rfl, fun a ha b hb x hx => ?_⟩
    rw [hx _ rfl]
    obtain ⟨hv, hw⟩ | ⟨hv, hw⟩ := h
    · rw [mem_gamma_const hv] at ha
      rw [mem_gamma_const hw] at hb
      rw [ha, hb]
      exact const_mem hv _
    · rw [mem_gamma_sp hv] at ha
      rw [mem_gamma_const hw] at hb
      rw [ha, hb, add_sub_assoc]
      exact sp_mem hv _
  case isFalse =>
    split
    case isTrue hbot =>
      refine ⟨_, rfl, fun a ha => ?_⟩
      rw [hbot.1, gamma_bot] at ha
      exact absurd ha (Set.notMem_empty a)
    case isFalse => exact ⟨_, rfl, fun _ _ _ _ _ _ => mem_gamma_top⟩

/-- The remainder of two words has no high word. -/
theorem mulh_word (x y : Word) : ((x.zeroExtend 64 % y.zeroExtend 64) >>> 32).truncate 32 = (0 : Word) := by
  apply BitVec.eq_of_toNat_eq
  have hlt : x.toNat % 2 ^ 64 % (y.toNat % 2 ^ 64) < 2 ^ 32 :=
    (Nat.mod_le _ _).trans_lt ((Nat.mod_le _ _).trans_lt x.isLt)
  simp only [BitVec.truncate_eq_setWidth, BitVec.toNat_setWidth, BitVec.toNat_ushiftRight, BitVec.toNat_umod]
  rw [Nat.shiftRight_eq_div_pow, Nat.div_eq_of_lt hlt]
  rfl

end Value

end Otawa.Stack
