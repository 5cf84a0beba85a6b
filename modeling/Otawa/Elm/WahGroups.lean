import Otawa.Elm.WAHVector
import Mathlib.Data.List.Chain
import Mathlib.Data.Nat.Bitwise

/-!
# The groups that the words of a compressed vector stand for

`groups` expands the fills. A list of words is normal when no two fills of the same value are neighbours and no
literal is uniform; the builder keeps lists normal, and what it is given is appended to the groups.
-/

namespace Otawa.Elm.WAHVector

variable {w w' : Word} {b l : List Word} {v : Bool} {k i : ℕ}

/-! ### Words -/

theorem isFill_eq (w : Word) : isFill w = w.getLsbD 31 := by
  have hbit : FILL = BitVec.twoPow 32 31 := by decide
  rw [isFill, hbit, BitVec.and_twoPow]
  cases w.getLsbD 31 <;> decide

theorem isOnes_eq (w : Word) : isOnes w = w.getLsbD 30 := by
  have hbit : ONES = BitVec.twoPow 32 30 := by decide
  rw [isOnes, hbit, BitVec.and_twoPow]
  cases w.getLsbD 30 <;> decide

theorem low_eq : ~~~(FILL ||| ONES) = BitVec.ofNat 32 (2 ^ 30 - 1) := by
  decide

theorem fillCount_eq (w : Word) : fillCount w = w.toNat % 2 ^ 30 := by
  rw [fillCount, low_eq, BitVec.toNat_and, BitVec.toNat_ofNat,
    Nat.mod_eq_of_lt (by decide : 2 ^ 30 - 1 < 2 ^ 32), Nat.and_two_pow_sub_one_eq_mod]

theorem toNat_fill (hk : k < 2 ^ 30) (v : Bool) :
    (fill k v).toNat = 2 ^ 30 * (if v then 3 else 2) + k := by
  have hhigh : (FILL ||| if v then ONES else 0#32).toNat = 2 ^ 30 * (if v then 3 else 2) := by
    cases v <;> decide
  rw [fill, BitVec.toNat_or, hhigh, BitVec.toNat_ofNat, Nat.mod_eq_of_lt (hk.trans (by decide)),
    ← Nat.two_pow_add_eq_or_of_lt hk]

theorem isFill_fill (k : ℕ) (v : Bool) : isFill (fill k v) = true := by
  have hbit : FILL.getLsbD 31 = true := by decide
  rw [isFill_eq, fill, BitVec.getLsbD_or, BitVec.getLsbD_or, hbit, Bool.true_or, Bool.true_or]

theorem isOnes_fill (hk : k < 2 ^ 30) (v : Bool) : isOnes (fill k v) = v := by
  have hcount : (BitVec.ofNat 32 k).getLsbD 30 = false := by
    rw [BitVec.getLsbD_ofNat, Nat.testBit_lt_two_pow hk, Bool.and_false]
  rw [isOnes_eq, fill, BitVec.getLsbD_or, hcount, Bool.or_false]
  cases v <;> decide

theorem fillCount_fill (hk : k < 2 ^ 30) (v : Bool) : fillCount (fill k v) = k := by
  rw [fillCount_eq, toNat_fill hk, Nat.mul_add_mod, Nat.mod_eq_of_lt hk]

/-- A fill is given by its count and its value. -/
theorem eq_fill (hw : isFill w = true) : w = fill (fillCount w) (isOnes w) := by
  have hlt : fillCount w < 2 ^ 30 := by
    rw [fillCount_eq]
    exact Nat.mod_lt _ (by decide)
  apply BitVec.eq_of_toNat_eq
  rw [toNat_fill hlt, fillCount_eq]
  have h31 : w.toNat.testBit 31 = true := by
    rw [isFill_eq] at hw
    exact hw
  have h30 : isOnes w = w.toNat.testBit 30 := isOnes_eq w
  rw [h30]
  have hbound : w.toNat < 2 ^ 32 := w.isLt
  rw [Nat.testBit_eq_decide_div_mod_eq, decide_eq_true_eq] at h31
  cases hbit : w.toNat.testBit 30 with
  | false =>
    rw [Nat.testBit_eq_decide_div_mod_eq, decide_eq_false_iff_not] at hbit
    simp only [Bool.false_eq_true, if_false]
    omega
  | true =>
    rw [Nat.testBit_eq_decide_div_mod_eq, decide_eq_true_eq] at hbit
    simp only [if_true]
    omega

theorem fill_add {m : ℕ} (hk : k + m < 2 ^ 30) (v : Bool) : fill k v + BitVec.ofNat 32 m = fill (k + m) v := by
  apply BitVec.eq_of_toNat_eq
  rw [BitVec.toNat_add, BitVec.toNat_ofNat, toNat_fill hk, toNat_fill (by omega)]
  cases v <;> simp only [Bool.false_eq_true, if_false, if_true] <;> omega

/-- The tag bits of two fills are the same when their values are. -/
theorem tag_fill (hk : k < 2 ^ 30) (hw : isFill w = true) :
    fill k v &&& (FILL ||| ONES) = w &&& (FILL ||| ONES) ↔ isOnes w = v := by
  have htag : ∀ w : Word, isFill w = true → w &&& (FILL ||| ONES) = FILL ||| (w &&& ONES) := by
    intro w hw
    have hfill : w &&& FILL = FILL := by
      have hbit : FILL = BitVec.twoPow 32 31 := by decide
      rw [isFill_eq] at hw
      rw [hbit, BitVec.and_twoPow, if_pos hw]
    rw [BitVec.and_or_distrib_left, hfill]
  have hones : ∀ w : Word, w &&& ONES = if isOnes w then ONES else 0#32 := by
    intro w
    have hbit : ONES = BitVec.twoPow 32 30 := by decide
    rw [isOnes_eq, hbit, BitVec.and_twoPow]
  rw [htag _ (isFill_fill k v), htag w hw, hones, hones, isOnes_fill hk]
  cases v <;> cases isOnes w <;> decide

/-- A literal and a fill have different tag bits. -/
theorem tag_lite (hw : isFill w = false) : fill k v &&& (FILL ||| ONES) ≠ w &&& (FILL ||| ONES) := by
  have htag : (FILL ||| ONES).getLsbD 31 = true := by decide
  have hbit : ∀ w : Word, (w &&& (FILL ||| ONES)).getLsbD 31 = isFill w := by
    intro w
    rw [BitVec.getLsbD_and, htag, Bool.and_true, isFill_eq]
  intro heq
  have hsame := hbit (fill k v)
  rw [heq, hbit, hw, isFill_fill] at hsame
  cases hsame

/-- The group whose bits are all `v`. -/
def uniform (v : Bool) : Word :=
  if v then ALL_ONES else ALL_ZEROES

theorem getLsbD_uniform (hi : i < 31) : (uniform v).getLsbD i = v := by
  have hones : ALL_ONES = BitVec.ofNat 32 (2 ^ 31 - 1) := by decide
  cases v
  · simp [uniform, ALL_ZEROES]
  · rw [uniform, if_pos rfl, hones, BitVec.getLsbD_ofNat, Nat.testBit_two_pow_sub_one]
    simp [hi, hi.trans (by decide : 31 < 32)]

theorem uniform_top (v : Bool) : (uniform v).getLsbD 31 = false := by
  cases v <;> decide

theorem uniform_ne_zero : (uniform v != 0#32) = v := by
  cases v <;> decide

/-- A group is determined by its 31 bits. -/
theorem group_ext {g g' : Word} (hg : g.getLsbD 31 = false) (hg' : g'.getLsbD 31 = false)
    (hbits : ∀ i < 31, g.getLsbD i = g'.getLsbD i) : g = g' := by
  apply BitVec.eq_of_getLsbD_eq
  intro i hi
  by_cases h31 : i = 31
  · rw [h31, hg, hg']
  · exact hbits i (by omega)

theorem value_of_fill (hw : isFill w = true) : value w = uniform (isOnes w) := by
  rw [value, if_pos hw, uniform]

theorem value_of_lite (hw : isFill w = false) : value w = w := by
  rw [value, hw, if_neg Bool.false_ne_true]

theorem count_of_fill (hw : isFill w = true) : count w = fillCount w := by
  rw [count, if_pos hw]

theorem count_of_lite (hw : isFill w = false) : count w = 1 := by
  rw [count, hw, if_neg Bool.false_ne_true]

theorem value_fill (hk : k < 2 ^ 30) : value (fill k v) = uniform v := by
  rw [value_of_fill (isFill_fill k v), isOnes_fill hk]

theorem count_fill (hk : k < 2 ^ 30) : count (fill k v) = k := by
  rw [count_of_fill (isFill_fill k v), fillCount_fill hk]

theorem value_top (w : Word) : (value w).getLsbD 31 = false := by
  cases hw : isFill w with
  | true => rw [value_of_fill hw, uniform_top]
  | false => rw [value_of_lite hw, ← isFill_eq, hw]

theorem isFill_group {g : Word} (hg : g.getLsbD 31 = false) : isFill g = false := by
  rw [isFill_eq, hg]

/-! ### Lists of words -/

/-- The groups that words stand for. -/
def groups (l : List Word) : List Word :=
  l.flatMap fun w => List.replicate (count w) (value w)

@[simp]
theorem groups_nil : groups [] = [] :=
  rfl

theorem groups_cons (w : Word) (l : List Word) : groups (w :: l) = List.replicate (count w) (value w) ++ groups l :=
  rfl

theorem groups_append (l l' : List Word) : groups (l ++ l') = groups l ++ groups l' :=
  List.flatMap_append

/-- The groups of a builder. -/
def built (b : Builder) : List Word :=
  groups b.reverse

@[simp]
theorem built_nil : built [] = [] :=
  rfl

theorem built_cons (w : Word) (b : Builder) : built (w :: b) = built b ++ List.replicate (count w) (value w) := by
  rw [built, List.reverse_cons, groups_append, groups_cons, groups_nil, List.append_nil]
  rfl

theorem built_append (b b' : Builder) : built (b ++ b') = built b' ++ built b := by
  rw [built, List.reverse_append, groups_append]
  rfl

/-- A fill stands for some groups, and a literal is not uniform. -/
structure Proper (w : Word) : Prop where
  fill : isFill w = true → 1 ≤ fillCount w
  lite : isFill w = false → ∀ v, w ≠ uniform v

/-- No two fills of the same value. -/
def Apart (w w' : Word) : Prop :=
  isFill w = true → isFill w' = true → isOnes w ≠ isOnes w'

structure Normal (l : List Word) : Prop where
  proper : ∀ w ∈ l, Proper w
  apart : l.IsChain Apart

theorem Apart.symm (h : Apart w w') : Apart w' w :=
  fun hw' hw heq => h hw hw' heq.symm

theorem Proper.count_pos (hw : Proper w) : 1 ≤ count w := by
  cases hfill : isFill w with
  | true =>
    rw [count_of_fill hfill]
    exact hw.fill hfill
  | false => rw [count_of_lite hfill]

theorem proper_fill (h1 : 1 ≤ k) (hk : k < 2 ^ 30) : Proper (fill k v) where
  fill := fun _ => by rwa [fillCount_fill hk]
  lite := fun hlite => by rw [isFill_fill] at hlite; cases hlite

theorem normal_nil : Normal [] where
  proper := fun _ hw => absurd hw List.not_mem_nil
  apart := List.isChain_nil

theorem Normal.tail (h : Normal (w :: l)) : Normal l where
  proper := fun w hw => h.proper w (List.mem_cons_of_mem _ hw)
  apart := h.apart.tail

theorem Normal.head (h : Normal (w :: l)) : Proper w :=
  h.proper w List.mem_cons_self

theorem normal_cons (hw : Proper w) (hl : Normal l) (happart : ∀ w' ∈ l.head?, Apart w w') : Normal (w :: l) where
  proper := by
    intro x hx
    obtain rfl | hx := List.mem_cons.mp hx
    · exact hw
    · exact hl.proper x hx
  apart := List.isChain_cons.mpr ⟨happart, hl.apart⟩

theorem Normal.reverse (h : Normal l) : Normal l.reverse where
  proper := fun w hw => h.proper w (List.mem_reverse.mp hw)
  apart := by
    rw [List.isChain_reverse]
    exact h.apart.imp fun _ _ => Apart.symm

/-- Another word of the same kind may stand at the head. -/
theorem Normal.replace_head (h : Normal (w :: l)) (hw' : Proper w') (hfill : isFill w' = isFill w)
    (hones : isFill w = true → isOnes w' = isOnes w) : Normal (w' :: l) := by
  refine normal_cons hw' h.tail fun x hx => ?_
  have happart : Apart w x := (List.isChain_cons.mp h.apart).1 x hx
  intro hf hfx
  rw [hfill] at hf
  rw [hones hf]
  exact happart hf hfx

/-- A builder has fewer groups than a fill can count. -/
theorem count_le_built (w : Word) (b : Builder) : count w ≤ (built (w :: b)).length := by
  rw [built_cons, List.length_append, List.length_replicate]
  omega

/-! ### The builder -/

/-- What a push gives: a normal list whose last word is of the kind that was pushed, with the groups appended. -/
structure Pushed (b b' : Builder) (gs : List Word) (fill ones : Bool) : Prop where
  normal : Normal b'
  built : built b' = built b ++ gs
  head : ∃ w rest, b' = w :: rest ∧ isFill w = fill ∧ (fill = true → isOnes w = ones)

theorem pushFill_pushed (hb : Normal b) (h1 : 1 ≤ k) (hk : (built b).length + k < 2 ^ 30) :
    Pushed b (pushFill b (fill k v)) (List.replicate k (uniform v)) true v := by
  have hlt : k < 2 ^ 30 := by omega
  have hraw : (∀ w ∈ b.head?, Apart (fill k v) w) →
      Pushed b (pushRaw b (fill k v)) (List.replicate k (uniform v)) true v := by
    intro happart
    refine ⟨normal_cons (proper_fill h1 hlt) hb happart, ?_, _, b, rfl, isFill_fill k v, fun _ => isOnes_fill hlt v⟩
    rw [pushRaw, built_cons, count_fill hlt, value_fill hlt]
  cases b with
  | nil => exact hraw fun w hw => absurd hw (by simp)
  | cons last rest =>
    rw [pushFill]
    have hcount := count_le_built last rest
    by_cases hfill : isFill last = true
    · by_cases hsame : isOnes last = v
      · rw [if_pos ((tag_fill hlt hfill).mpr hsame)]
        subst hsame
        have hsum : fillCount last + k < 2 ^ 30 := by
          rw [← count_of_fill hfill]
          omega
        have hnew : last + BitVec.ofNat 32 (fillCount (fill k (isOnes last))) =
            fill (fillCount last + k) (isOnes last) := by
          rw [fillCount_fill hlt, ← fill_add hsum, ← eq_fill hfill]
        rw [hnew]
        refine ⟨hb.replace_head (proper_fill (by omega) hsum) ?_ ?_, ?_, _, rest, rfl, isFill_fill _ _,
          fun _ => isOnes_fill hsum _⟩
        · rw [isFill_fill, hfill]
        · exact fun _ => isOnes_fill hsum _
        · rw [built_cons, built_cons, count_fill hsum, value_fill hsum, count_of_fill hfill, value_of_fill hfill,
            List.append_assoc, List.replicate_append_replicate]
      · rw [if_neg fun htag => hsame ((tag_fill hlt hfill).mp htag)]
        refine hraw fun w hw => ?_
        cases hw
        intro _ _ heq
        rw [isOnes_fill hlt] at heq
        exact hsame heq.symm
    · have hlite := Bool.eq_false_iff.mpr hfill
      rw [if_neg (tag_lite hlite)]
      refine hraw fun w hw => ?_
      cases hw
      exact fun _ hw => absurd hw hfill

theorem pushLite_pushed {g : Word} (hb : Normal b) (hg : g.getLsbD 31 = false)
    (hk : (built b).length + 1 < 2 ^ 30) : ∃ f o, Pushed b (pushLite b g) [g] f o ∧
      (f = true → ∃ v, g = uniform v) ∧ (f = false → pushLite b g = g :: b) := by
  unfold pushLite
  by_cases hzero : g = 0#32
  · rw [if_pos hzero]
    refine ⟨true, false, ?_, fun _ => ⟨false, hzero⟩, fun h => Bool.noConfusion h⟩
    have hpushed := pushFill_pushed (v := false) hb le_rfl hk
    rwa [hzero]
  · by_cases hones : g = ALL_ONES
    · rw [if_neg hzero, if_pos hones]
      refine ⟨true, true, ?_, fun _ => ⟨true, hones⟩, fun h => Bool.noConfusion h⟩
      have hpushed := pushFill_pushed (v := true) hb le_rfl hk
      rwa [hones]
    · rw [if_neg hzero, if_neg hones]
      have hlite := isFill_group hg
      have hproper : Proper g := by
        refine ⟨fun h => ?_, fun _ v => ?_⟩
        · rw [hlite] at h
          cases h
        · cases v
          · exact hzero
          · exact hones
      refine ⟨false, false, ⟨normal_cons hproper hb fun w _ hf => ?_, ?_, g, b, rfl, hlite, fun h => Bool.noConfusion h⟩,
        fun h => Bool.noConfusion h, fun _ => rfl⟩
      · rw [hlite] at hf
        cases hf
      · rw [pushRaw, built_cons, count_of_lite hlite, value_of_lite hlite]
        rfl

theorem push_pushed (hb : Normal b) (hw : Proper w) (hk : (built b).length + count w < 2 ^ 30) :
    Pushed b (push b w) (List.replicate (count w) (value w)) (isFill w) (isOnes w) := by
  unfold push
  cases hfill : isFill w with
  | true =>
    rw [if_pos rfl]
    have hcount := count_of_fill hfill
    have hpushed := pushFill_pushed (k := fillCount w) (v := isOnes w) hb (hw.fill hfill) (hcount ▸ hk)
    rw [← eq_fill hfill] at hpushed
    rwa [hcount, value_of_fill hfill]
  | false =>
    rw [if_neg Bool.false_ne_true]
    have hcount := count_of_lite hfill
    rw [hcount] at hk ⊢
    obtain ⟨f, o, hpushed, huniform, -⟩ := pushLite_pushed hb (by rw [← isFill_eq, hfill]) hk
    cases f with
    | true =>
      obtain ⟨v, hv⟩ := huniform rfl
      exact absurd hv (hw.lite hfill v)
    | false =>
      obtain ⟨x, rest, heq, hx, -⟩ := hpushed.head
      rw [value_of_lite hfill]
      exact ⟨hpushed.normal, hpushed.built, x, rest, heq, hx, fun h => Bool.noConfusion h⟩

/-- The words after the current one follow, all as they were but for the first one. -/
theorem pushTail_pushed (hb : Normal b) (hl : Normal l) (hk : (built b).length + (groups l).length < 2 ^ 30) :
    Normal (pushTail b l) ∧ built (pushTail b l) = built b ++ groups l := by
  cases l with
  | nil => exact ⟨hb, by simp [pushTail]⟩
  | cons w rest =>
    rw [groups_cons, List.length_append, List.length_replicate] at hk
    have hpushed := push_pushed hb hl.head (by omega)
    obtain ⟨x, r, heq, hfill, hones⟩ := hpushed.head
    constructor
    · rw [pushTail]
      constructor
      · intro y hy
        obtain hy | hy := List.mem_append.mp hy
        · exact hl.tail.proper y (List.mem_reverse.mp hy)
        · exact hpushed.normal.proper y hy
      · rw [List.isChain_append]
        refine ⟨hl.tail.reverse.apart, hpushed.normal.apart, fun y hy z hz => ?_⟩
        rw [heq] at hz
        cases hz
        rw [List.getLast?_reverse] at hy
        have happart : Apart w y := (List.isChain_cons.mp hl.apart).1 y hy
        intro hfy hfx hsame
        rw [hfill] at hfx
        rw [hones hfx] at hsame
        exact happart hfx hfy hsame.symm
    · rw [pushTail, built_append, hpushed.built, groups_cons, List.append_assoc]
      congr 2
      rw [built, List.reverse_reverse]

end Otawa.Elm.WAHVector
