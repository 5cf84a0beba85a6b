import Otawa.Cfg.CFGBuilder

/-!
# What the blocks of `CFGBuilder` say of the code

`Passes` is the control flow of a segment, under the flow facts put on its instructions. The blocks of a segment
represent it when they cut it into pieces that control enters at the first instruction and leaves at the last
one, with an edge wherever control passes from a block to another (`Represents`).

`Fits` is exactly what `buildCFG` needs for that (`buildCFG_represents_iff`): an instruction that is taken for a
return has nothing behind it, so a conditional call of a function that does not return is not represented
(`conditional_exit`).
-/

namespace Otawa.CFGBuilder

variable {log : Bool} {seg : Segment}

/-- The flow facts make the instruction a return: it is marked as one, or calls a function that never returns. -/
def AsReturn (seg : Segment) (i : ℕ) : Prop :=
  (seg.inst i).markedReturn = true ∨
    ((seg.inst i).isCall = true ∧ ∃ target ∈ (seg.inst i).target, (seg.inst target).noReturn = true)

/-- Control passes to a known target. -/
def Taken (seg : Segment) (i t : ℕ) : Prop :=
  (seg.inst i).acts = true ∧ ¬ AsReturn seg i ∧ t ∈ linked seg (seg.inst i)

/-- Control passes to the next instruction: after an instruction that is no control, when the condition does not
hold, or when a call comes back. -/
def Falls (seg : Segment) (i : ℕ) : Prop :=
  (seg.inst i).acts = false ∨ ((seg.inst i).ignoreSeq = false ∧
    ((seg.inst i).isConditional = true ∨
      (¬ AsReturn seg i ∧ ((seg.inst i).isCall = true ∨ performCall (seg.inst i) = true))))

/-- Control passes from an instruction to another one. -/
def Passes (seg : Segment) (i j : ℕ) : Prop :=
  Taken seg i j ∨ (j = i + 1 ∧ Falls seg i)

/-- The blocks partition the instructions, have control at their ends only, are entered at their first
instructions only, and are linked when control passes between them. -/
structure Represents (seg : Segment) (s : Sweep) : Prop where
  partition : ∀ i < seg.count, ∃ b, (b ∈ s.info ∧ b ≤ i ∧ i < b + s.size b) ∧
    ∀ b', b' ∈ s.info → b' ≤ i → i < b' + s.size b' → b' = b
  control_last : ∀ b ∈ s.info, ∀ i, b ≤ i → i < b + s.size b → (seg.inst i).acts = true → i + 1 = b + s.size b
  entered_first : ∀ i < seg.count, ∀ j < seg.count, Passes seg i j → ∀ b ∈ s.info, b ≤ j → j < b + s.size b →
    j = b ∨ (j = i + 1 ∧ b ≤ i)
  linked_iff : ∀ b ∈ s.info, ∀ t ∈ s.info, Linked s b t ↔ ∃ i, i + 1 = b + s.size b ∧ Passes seg i t
  linked_mem : ∀ b t, Linked s b t → b ∈ s.info ∧ t ∈ s.info

/-- The targets start their blocks in time; an instruction taken for a return has no target and, if it is not the
last one, nothing behind it; one whose control is ignored is taken for a return only if control or the end of the
segment follows in its block; control and the start of a block come at the end and the start of a bundle. -/
structure Fits (log : Bool) (seg : Segment) : Prop where
  in_time : ∀ i < seg.count, ∀ t, Taken seg i t → Started log seg t
  returns_end : ∀ i < seg.count, Returns seg i → (seg.inst i).acts = true →
    (∀ t, ¬ Taken seg i t) ∧ (i + 1 < seg.count → ¬ Falls seg i)
  ignored_end : ∀ i < seg.count, Returns seg i → (seg.inst i).acts = false →
    ∃ x, i ≤ x ∧ x < seg.count ∧ (∀ y, i < y → y ≤ x → ¬ Started log seg y) ∧
      ((seg.inst x).acts = true ∨
        (x + 1 = seg.count ∧ ∃ e, i ≤ e ∧ e ≤ x ∧ Ends seg e ∧ seg.bundleEnd e = x))
  bundle_control : ∀ i < seg.count, (seg.inst i).acts = true → seg.bundleEnd i = i
  bundle_start : ∀ i, i + 1 < seg.count → Started log seg (i + 1) →
    (∀ y ≤ i, start log seg y = start log seg i → ¬ Ends seg y) → seg.bundleEnd (i + 1) = i + 1

/-! ### Control and blocks -/

theorem AsReturn.returns {i : ℕ} (h : AsReturn seg i) : Returns seg i := by
  unfold Returns endsAsReturn
  rw [Bool.or_eq_true, Option.any_eq_true]
  exact h.imp_right And.right

theorem ends_of_acts {i : ℕ} (h : (seg.inst i).acts = true) : Ends seg i := by
  by_cases hr : Returns seg i
  · exact .inl hr
  · exact .inr ⟨hr, h⟩

/-- The instruction is the last one of its block. -/
def Last (log : Bool) (seg : Segment) (i : ℕ) : Prop :=
  i < seg.count ∧ (i + 1 = seg.count ∨ Started log seg (i + 1))

/-- A block starts behind control. -/
theorem last_of_acts {i : ℕ} (hi : i < seg.count) (h : (seg.inst i).acts = true) : Last log seg i := by
  refine ⟨hi, ?_⟩
  by_cases hlast : i + 1 < seg.count
  · exact .inr (.inl (mem_findBBs.mpr (.inr (.inr ⟨i, hi, h, .inr ⟨rfl, hlast⟩⟩))))
  · exact .inl (by omega)

/-- The last instruction of a block is behind the others. -/
theorem Last.le {i j : ℕ} (hi : Last log seg i) (hj : j < seg.count)
    (heq : start log seg j = start log seg i) : j ≤ i := by
  by_contra hlt
  obtain hlast | hnext := hi.2
  · omega
  · exact not_started_of_start_eq heq.symm (Nat.lt_succ_self i) (by omega) hnext

theorem Last.unique {i j : ℕ} (hi : Last log seg i) (hj : Last log seg j)
    (heq : start log seg i = start log seg j) : i = j :=
  Nat.le_antisymm (hj.le hi.1 heq) (hi.le hj.1 heq.symm)

theorem exists_block_end {b : ℕ} (hb : b < seg.count) (hstarted : Started log seg b) :
    ∃ x, start log seg x = b ∧ Last log seg x := by
  obtain hlast | ⟨x, hx, hle, hnext⟩ := start_eq_or_next hstarted (m := seg.count - 1) (by omega)
  · exact ⟨seg.count - 1, hlast, by omega, .inl (by omega)⟩
  · exact ⟨x, hx, by omega, .inr hnext⟩

theorem linked_lt {i t : ℕ} (hi : i < seg.count) (ht : t ∈ linked seg (seg.inst i)) : t < seg.count := by
  have hmem : seg.inst i ∈ seg.insts := by
    have hget : seg.insts[i]? = some seg.insts[i] := List.getElem?_eq_getElem hi
    rw [Segment.inst, List.getD_eq_getElem?_getD, hget]
    exact List.getElem_mem hi
  unfold linked at ht
  split at ht
  case h_1 target htarget =>
    split at ht
    · rw [List.mem_singleton.mp ht]
      exact seg.target_lt _ hmem target (Option.mem_def.mpr htarget)
    · exact absurd ht List.not_mem_nil
  case h_2 => exact seg.known_lt _ hmem t ht

/-- `follow` stays as it is between two ends of blocks. -/
theorem followAfter_const {e x : ℕ} (hle : e ≤ x)
    (hnone : ∀ y, e < y → y ≤ x → ¬ Started log seg y ∧ ¬ Ends seg y) :
    followAfter log seg x = followAfter log seg e := by
  induction hle with
  | refl => rfl
  | @step x hle ih =>
    obtain ⟨hnot, hgo⟩ := hnone (x + 1) (Nat.lt_succ_of_le hle) (Nat.le_refl _)
    rw [followAfter, if_neg fun h => hgo (.inl h), if_neg fun h => hgo (.inr h), if_neg hnot]
    exact ih fun y hy hyx => hnone y hy (hyx.trans (Nat.le_succ x))

/-- `follow` is true as long as nothing has ended the block. -/
theorem followBefore_true {x : ℕ} (hnone : ∀ y < x, start log seg y = start log seg x → ¬ Ends seg y) :
    followBefore log seg x = true := by
  induction x with
  | zero => rfl
  | succ x ih =>
    by_cases hnot : Started log seg (x + 1)
    · exact if_pos hnot
    · rw [followBefore, if_neg hnot]
      have hsame := start_succ_of_not_started hnot
      have hgo := hnone x (Nat.lt_succ_self x) hsame.symm
      rw [followAfter_eq, if_neg fun h => hgo (.inl h), if_neg fun h => hgo (.inr h)]
      exact ih fun y hy heq => hnone y (hy.trans (Nat.lt_succ_self x)) (heq.trans hsame.symm)

/-- The last instruction of a block that ends it. -/
theorem exists_last_end {x y : ℕ} (hy : y < seg.count) (heq : start log seg y = start log seg x)
    (hend : Ends seg y) : ∃ e < seg.count, start log seg e = start log seg x ∧ Ends seg e ∧ y ≤ e ∧
      ∀ z < seg.count, e < z → start log seg z = start log seg e → ¬ Ends seg z := by
  obtain ⟨e, he, ⟨hstart, hend', hle⟩, hlast⟩ := exists_last
    (P := fun z => start log seg z = start log seg x ∧ Ends seg z ∧ y ≤ z) ⟨y, hy, heq, hend, Nat.le_refl y⟩
  refine ⟨e, he, hstart, hend', hle, fun z hz hlt hsame hendz => ?_⟩
  exact hlast z hz hlt ⟨hsame.trans hstart, hendz, hle.trans hlt.le⟩

/-! ### Segments that fit -/

section

variable {s : Sweep}

/-- The last instruction that ends a block whose control is looked at is the last one of the block. -/
theorem Last.eq_of_acts {x e : ℕ} (hx : Last log seg x) (he : e < seg.count)
    (heq : start log seg e = start log seg x) (hacts : (seg.inst e).acts = true) : e = x :=
  (last_of_acts he hacts).unique hx heq

section

variable (hfits : Fits log seg)
include hfits

/-- A block whose last end is taken for a return, with ignored control, ends with the segment. -/
theorem Fits.ignored_last {x e : ℕ} (hx : Last log seg x) (he : e < seg.count)
    (heq : start log seg e = start log seg x) (hend : Ends seg e) (hacts : (seg.inst e).acts = false)
    (hlast : ∀ z < seg.count, e < z → start log seg z = start log seg e → ¬ Ends seg z) :
    x + 1 = seg.count ∧ seg.bundleEnd e = x := by
  have hreturns : Returns seg e := hend.resolve_right fun h => by
    rw [h.2] at hacts
    cases hacts
  obtain ⟨z, hle, hz, hnone, hrest⟩ := hfits.ignored_end e he hreturns hacts
  have hsame : ∀ y, e ≤ y → y ≤ z → start log seg y = start log seg e := by
    intro y hey hyz
    induction hey with
    | refl => rfl
    | @step y hey ih =>
      rw [start_succ_of_not_started (hnone (y + 1) (Nat.lt_succ_of_le hey) hyz)]
      exact ih ((Nat.le_succ y).trans hyz)
  obtain hactsz | ⟨hcount, f, hef, hfz, hendf, hbundle⟩ := hrest
  · obtain hlt | rfl := Nat.lt_or_eq_of_le hle
    · exact absurd (ends_of_acts hactsz) (hlast z hz hlt (hsame z hle (Nat.le_refl z)))
    · rw [hactsz] at hacts
      cases hacts
  · have hzx : z = x :=
      Last.unique ⟨hz, .inl hcount⟩ hx ((hsame z hle (Nat.le_refl z)).trans heq)
    subst hzx
    obtain hlt | rfl := Nat.lt_or_eq_of_le hef
    · exact absurd hendf (hlast f (by omega) hlt (hsame f hef hfz))
    · exact ⟨hcount, hbundle⟩

/-- Blocks have the size of their instructions. -/
theorem Fits.size (hbuilt : Built log seg s) {x : ℕ} (hx : Last log seg x) :
    start log seg x + s.size (start log seg x) = x + 1 := by
  have hstart := @start_le log seg x
  by_cases hex : ∃ y ≤ x, start log seg y = start log seg x ∧ Ends seg y
  · obtain ⟨y, hy, hsame, hend⟩ := hex
    obtain ⟨e, he, hstarte, hende, -, hlast⟩ := exists_last_end (hy.trans_lt hx.1) hsame hend
    have hsize := hbuilt.size_end e he hende hlast
    have hbundle : seg.bundleEnd e = x := by
      by_cases hacts : (seg.inst e).acts = true
      · rw [hfits.bundle_control e he hacts]
        exact hx.eq_of_acts he hstarte hacts
      · exact (hfits.ignored_last hx he hstarte hende (Bool.eq_false_iff.mpr hacts) hlast).2
    rw [hstarte, hbundle] at hsize
    omega
  · push Not at hex
    obtain hcount | hnext := hx.2
    · have hsize := hbuilt.size_last x hcount hex
      omega
    · by_cases hcount : x + 1 < seg.count
      · have hsize := hbuilt.size_next x hcount hnext hex
        rw [hfits.bundle_start x hcount hnext hex] at hsize
        omega
      · have hsize := hbuilt.size_last x (by have := hx.1; omega) hex
        have := hx.1
        omega

/-- The instructions of a block are those that it starts. -/
theorem Fits.mem_block (hbuilt : Built log seg s) {b i : ℕ} (hb : b ∈ s.info)
    (hi : i < seg.count) : b ≤ i ∧ i < b + s.size b ↔ start log seg i = b := by
  obtain ⟨hlt, hstarted⟩ := (hbuilt.info b).mp hb
  obtain ⟨x, rfl, hx⟩ := exists_block_end hlt hstarted
  rw [hfits.size hbuilt hx]
  constructor
  · rintro ⟨hle, hix⟩
    have hlow := @le_start log seg _ _ hstarted hle
    have hhigh := @start_mono log seg _ _ (Nat.lt_succ_iff.mp hix)
    omega
  · intro heq
    exact ⟨heq ▸ start_le i, Nat.lt_succ_of_le (hx.le hi heq)⟩

/-- `follow` behind a block says whether control falls through. -/
theorem Fits.follow_iff {x : ℕ} (hx : x + 1 < seg.count) (hnext : Started log seg (x + 1)) :
    followAfter log seg x = true ↔ Falls seg x := by
  have hlast : Last log seg x := ⟨by omega, .inr hnext⟩
  rw [followAfter_eq]
  by_cases hreturns : Returns seg x
  · rw [if_pos hreturns]
    refine iff_of_false (by simp) ?_
    by_cases hacts : (seg.inst x).acts = true
    · exact (hfits.returns_end x hlast.1 hreturns hacts).2 hx
    · have hnone : ∀ z < seg.count, x < z → start log seg z = start log seg x → ¬ Ends seg z :=
        fun z hz hlt heq => absurd (hlast.le hz heq) (not_le.mpr hlt)
      have hcount := (hfits.ignored_last hlast hlast.1 rfl (.inl hreturns) (Bool.eq_false_iff.mpr hacts) hnone).1
      omega
  · rw [if_neg hreturns]
    by_cases hbranches : Branches seg x
    · have hno : ¬ AsReturn seg x := fun h => hreturns h.returns
      rw [if_pos hbranches]
      simp only [follows, Falls, hbranches.2, hno, not_false_eq_true, true_and, Bool.and_eq_true, Bool.or_eq_true,
        Bool.not_eq_true', Bool.true_eq_false, false_or]
      tauto
    · have hacts : (seg.inst x).acts = false := Bool.eq_false_iff.mpr fun h => hbranches ⟨hreturns, h⟩
      rw [if_neg hbranches]
      refine iff_of_true (followBefore_true fun y hy heq hend => ?_) (.inl hacts)
      obtain ⟨e, he, hstarte, hende, -, hnone⟩ := exists_last_end (hy.trans hlast.1) heq hend
      by_cases hactse : (seg.inst e).acts = true
      · rw [hlast.eq_of_acts he hstarte hactse, hacts] at hactse
        cases hactse
      · have hcount := (hfits.ignored_last hlast he hstarte hende (Bool.eq_false_iff.mpr hactse) hnone).1
        omega

theorem Fits.represents (hbuilt : Built log seg s) : Represents seg s := by
  have hinfo : ∀ i < seg.count, start log seg i ∈ s.info :=
    fun i hi => (hbuilt.info _).mpr ⟨(start_le i).trans_lt hi, started_start i⟩
  have hmem : ∀ b ∈ s.info, ∀ i < seg.count, (b ≤ i ∧ i < b + s.size b ↔ start log seg i = b) :=
    fun b hb i hi => hfits.mem_block hbuilt hb hi
  -- the last instruction of a block
  have hend : ∀ b ∈ s.info, ∃ x, start log seg x = b ∧ Last log seg x ∧ b + s.size b = x + 1 := by
    intro b hb
    obtain ⟨hlt, hstarted⟩ := (hbuilt.info b).mp hb
    obtain ⟨x, rfl, hx⟩ := exists_block_end hlt hstarted
    exact ⟨x, rfl, hx, hfits.size hbuilt hx⟩
  constructor
  · intro i hi
    refine ⟨start log seg i, ⟨hinfo i hi, (hmem _ (hinfo i hi) i hi).mpr rfl⟩, fun b' hb' hle hlt => ?_⟩
    exact ((hmem b' hb' i hi).mp ⟨hle, hlt⟩).symm
  · intro b hb i hle hlt hacts
    obtain ⟨x, hx, hlast, hsize⟩ := hend b hb
    have hi : i < seg.count := by
      have := hlast.1
      omega
    rw [hsize, hlast.eq_of_acts hi (((hmem b hb i hi).mp ⟨hle, hlt⟩).trans hx.symm) hacts]
  · rintro i hi j hj hpasses b hb hle hlt
    have hjb := (hmem b hb j hj).mp ⟨hle, hlt⟩
    obtain htaken | ⟨rfl, -⟩ := hpasses
    · exact .inl ((start_of_started (hfits.in_time i hi j htaken)).symm.trans hjb)
    · by_cases hstarted : Started log seg (i + 1)
      · exact .inl ((start_of_started hstarted).symm.trans hjb)
      · rw [start_succ_of_not_started hstarted] at hjb
        exact .inr ⟨rfl, hjb ▸ start_le i⟩
  · intro b hb t ht
    obtain ⟨x, rfl, hx, hsize⟩ := hend b hb
    obtain ⟨htlt, htstarted⟩ := (hbuilt.info t).mp ht
    rw [hbuilt.edges, hsize]
    constructor
    · rintro ⟨y, hy, heq, ⟨hbranches, htaken⟩ | ⟨rfl, -, hnext, hfollow⟩⟩
      · refine ⟨y, congrArg _ (hx.eq_of_acts hy heq hbranches.2), .inl ⟨hbranches.2, ?_, htaken⟩⟩
        exact fun h => hbranches.1 h.returns
      · exact ⟨y, congrArg _ (Last.unique ⟨hy, .inr hnext⟩ hx heq), .inr ⟨rfl, (hfits.follow_iff htlt hnext).mp hfollow⟩⟩
    · rintro ⟨i, hi, hpasses⟩
      obtain rfl : i = x := by omega
      refine ⟨i, hx.1, rfl, ?_⟩
      obtain ⟨hacts, hno, htaken⟩ | ⟨rfl, hfalls⟩ := hpasses
      · refine .inl ⟨⟨fun hreturns => ?_, hacts⟩, htaken⟩
        exact (hfits.returns_end i hx.1 hreturns hacts).1 t ⟨hacts, hno, htaken⟩
      · exact .inr ⟨rfl, htlt, htstarted, (hfits.follow_iff htlt htstarted).mpr hfalls⟩
  · intro b t hlinked
    obtain ⟨x, hx, rfl, hrest⟩ := (hbuilt.edges b t).mp hlinked
    refine ⟨hinfo x hx, (hbuilt.info t).mpr ?_⟩
    obtain ⟨hbranches, htaken⟩ | ⟨-, hlt, hstarted, -⟩ := hrest
    · refine ⟨linked_lt hx htaken, hfits.in_time x hx t ⟨hbranches.2, fun h => hbranches.1 h.returns, htaken⟩⟩
    · exact ⟨hlt, hstarted⟩

end

/-! ### Segments that are represented -/

/-- A block reaches beyond each instruction that ends it. -/
theorem Built.end_le (hbuilt : Built log seg s) {e : ℕ} (he : e < seg.count) (hend : Ends seg e)
    (hlast : ∀ z < seg.count, e < z → start log seg z = start log seg e → ¬ Ends seg z) :
    start log seg e + s.size (start log seg e) = seg.bundleEnd e + 1 := by
  have hsize := hbuilt.size_end e he hend hlast
  have hstart := @start_le log seg e
  have hbundle := @le_bundleEnd seg e
  omega

theorem Built.size_pos (hbuilt : Built log seg s) {b : ℕ} (hb : b ∈ s.info) : 0 < s.size b := by
  obtain ⟨hlt, hstarted⟩ := (hbuilt.info b).mp hb
  obtain ⟨x, rfl, hx⟩ := exists_block_end hlt hstarted
  have hstart := @start_le log seg x
  by_cases hex : ∃ y ≤ x, start log seg y = start log seg x ∧ Ends seg y
  · obtain ⟨y, hy, hsame, hend⟩ := hex
    obtain ⟨e, he, hstarte, hende, -, hlast⟩ := exists_last_end (hy.trans_lt hx.1) hsame hend
    have hsize := hbuilt.end_le he hende hlast
    have hbundle := @le_bundleEnd seg e
    have hle := @start_le log seg e
    rw [hstarte] at hsize hle
    omega
  · push Not at hex
    by_cases hcount : x + 1 < seg.count
    · have hnext : Started log seg (x + 1) := hx.2.resolve_left (by omega)
      have hsize := hbuilt.size_next x hcount hnext hex
      have hbundle := @le_bundleEnd seg (x + 1)
      omega
    · have hsize := hbuilt.size_last x (by have := hx.1; omega) hex
      have := hx.1
      omega

section

variable (hrep : Represents seg s) (hbuilt : Built log seg s)
include hrep hbuilt

/-- Blocks that partition the instructions do not reach into each other. -/
theorem Represents.disjoint {b t : ℕ} (hb : b ∈ s.info) (ht : t ∈ s.info) (hlt : b < t) : b + s.size b ≤ t := by
  by_contra hover
  obtain ⟨c, -, hunique⟩ := hrep.partition t ((hbuilt.info t).mp ht).1
  have hpos := hbuilt.size_pos ht
  have hbc := hunique b hb hlt.le (not_le.mp hover)
  have htc := hunique t ht (Nat.le_refl t) (by omega)
  omega

theorem Represents.in_time {i t : ℕ} (hi : i < seg.count) (htaken : Taken seg i t) : Started log seg t := by
  have ht := linked_lt hi htaken.2.2
  obtain ⟨b, ⟨hb, hle, hlt⟩, -⟩ := hrep.partition t ht
  obtain rfl | ⟨rfl, -⟩ := hrep.entered_first i hi t ht (.inl htaken) b hb hle hlt
  · exact ((hbuilt.info t).mp hb).2
  · exact (last_of_acts hi htaken.1).2.resolve_left (by omega)

theorem Represents.bundle_control {i : ℕ} (hi : i < seg.count)
    (hacts : (seg.inst i).acts = true) : seg.bundleEnd i = i := by
  have hle := @le_bundleEnd seg i
  have hlt := bundleEnd_lt hi
  have hlast := @last_of_acts log seg _ hi hacts
  by_contra hne
  have hnext : Started log seg (i + 1) := hlast.2.resolve_left (by omega)
  have hstart := @start_le log seg i
  have hsize := hbuilt.end_le hi (ends_of_acts hacts) fun z hz hiz heq => absurd (hlast.le hz heq) (not_le.mpr hiz)
  have hdisjoint := hrep.disjoint hbuilt ((hbuilt.info (start log seg i)).mpr ⟨by omega, started_start i⟩)
    ((hbuilt.info (i + 1)).mpr ⟨by omega, hnext⟩) (by omega)
  omega

theorem Represents.bundle_start {i : ℕ}
    (hi : i + 1 < seg.count) (hnext : Started log seg (i + 1))
    (hnone : ∀ y ≤ i, start log seg y = start log seg i → ¬ Ends seg y) : seg.bundleEnd (i + 1) = i + 1 := by
  have hle := @le_bundleEnd seg (i + 1)
  have hstart := @start_le log seg i
  have hsize := hbuilt.size_next i hi hnext hnone
  have hdisjoint := hrep.disjoint hbuilt ((hbuilt.info (start log seg i)).mpr ⟨by omega, started_start i⟩)
    ((hbuilt.info (i + 1)).mpr ⟨hi, hnext⟩) (by omega)
  omega

end

/-- A block whose last instruction is taken for a return has no edge. -/
theorem Built.not_linked (hbuilt : Built log seg s) {x : ℕ} (hx : Last log seg x)
    (hno : ¬ Branches seg x) (hfollow : followAfter log seg x = false) (t : ℕ) :
    ¬ Linked s (start log seg x) t := by
  intro hlinked
  obtain ⟨y, hy, heq, ⟨hbranches, -⟩ | ⟨rfl, -, hnext, hfollows⟩⟩ := (hbuilt.edges _ t).mp hlinked
  · exact hno (hx.eq_of_acts hy heq hbranches.2 ▸ hbranches)
  · rw [Last.unique ⟨hy, .inr hnext⟩ hx heq, hfollow] at hfollows
    cases hfollows

section

variable (hrep : Represents seg s) (hbuilt : Built log seg s)
include hrep hbuilt

theorem Represents.returns_end {i : ℕ} (hi : i < seg.count)
    (hreturns : Returns seg i) (hacts : (seg.inst i).acts = true) :
    (∀ t, ¬ Taken seg i t) ∧ (i + 1 < seg.count → ¬ Falls seg i) := by
  have hlast := @last_of_acts log seg _ hi hacts
  have hinfo : start log seg i ∈ s.info := (hbuilt.info _).mpr ⟨(start_le i).trans_lt hi, started_start i⟩
  have hsize := hbuilt.end_le hi (.inl hreturns) fun z hz hlt heq => absurd (hlast.le hz heq) (not_le.mpr hlt)
  rw [hrep.bundle_control hbuilt hi hacts] at hsize
  have hfollow : followAfter log seg i = false := by rw [followAfter_eq, if_pos hreturns]
  have hno := hbuilt.not_linked hlast (fun h => h.1 hreturns) hfollow
  have hpasses : ∀ t ∈ s.info, ¬ Passes seg i t :=
    fun t ht hpasses => hno t ((hrep.linked_iff _ hinfo t ht).mpr ⟨i, hsize.symm, hpasses⟩)
  constructor
  · intro t htaken
    have ht := linked_lt hi htaken.2.2
    exact hpasses t ((hbuilt.info t).mpr ⟨ht, hrep.in_time hbuilt hi htaken⟩) (.inl htaken)
  · intro hnext hfalls
    refine hpasses (i + 1) ((hbuilt.info _).mpr ⟨hnext, ?_⟩) (.inr ⟨rfl, hfalls⟩)
    exact hlast.2.resolve_left (by omega)

theorem Represents.ignored_end {i : ℕ} (hi : i < seg.count)
    (hreturns : Returns seg i) :
    ∃ x, i ≤ x ∧ x < seg.count ∧ (∀ y, i < y → y ≤ x → ¬ Started log seg y) ∧ ((seg.inst x).acts = true ∨
      (x + 1 = seg.count ∧ ∃ e, i ≤ e ∧ e ≤ x ∧ Ends seg e ∧ seg.bundleEnd e = x)) := by
  obtain ⟨x, hsame, hx⟩ := exists_block_end ((start_le i).trans_lt hi) (@started_start log seg i)
  refine ⟨x, hx.le hi hsame.symm, hx.1, fun y hy hyx => not_started_of_start_eq hsame.symm hy hyx, ?_⟩
  by_cases hacts : (seg.inst x).acts = true
  · exact .inl hacts
  right
  obtain ⟨e, he, hstarte, hende, hie, hlast⟩ := exists_last_end hi hsame.symm (.inl hreturns)
  have hex := hx.le he hstarte
  have hinfo : start log seg x ∈ s.info := (hbuilt.info _).mpr ⟨(start_le x).trans_lt hx.1, started_start x⟩
  have hsize := hbuilt.end_le he hende hlast
  rw [hstarte] at hsize
  -- the block of the last instruction is the one that starts last before it
  have hbundle : x ≤ seg.bundleEnd e := by
    obtain ⟨c, ⟨hc, hle, hlt⟩, -⟩ := hrep.partition x hx.1
    have hcx := le_start ((hbuilt.info c).mp hc).2 hle
    have hstart := @start_le log seg x
    obtain hbefore | rfl := Nat.lt_or_eq_of_le hcx
    · have hdisjoint := hrep.disjoint hbuilt hc hinfo hbefore
      omega
    · omega
  obtain hcount | hnext := hx.2
  · have hlt := bundleEnd_lt he
    exact ⟨hcount, e, hie, hex, hende, by omega⟩
  · by_cases hcount : x + 1 < seg.count
    · exfalso
      have hnextinfo : x + 1 ∈ s.info := (hbuilt.info _).mpr ⟨hcount, hnext⟩
      have hstart := @start_le log seg x
      have hdisjoint := hrep.disjoint hbuilt hinfo hnextinfo (by omega)
      have hfalls : Passes seg x (x + 1) := .inr ⟨rfl, .inl (Bool.eq_false_iff.mpr hacts)⟩
      have hreturnse : Returns seg e := by
        refine hende.resolve_right fun h => hacts ?_
        rw [← hx.eq_of_acts he hstarte h.2]
        exact h.2
      have hfollow : followAfter log seg x = false := by
        rw [followAfter_const hex, followAfter_eq, if_pos hreturnse]
        intro y hy hyx
        have hnot := not_started_of_start_eq hstarte hy hyx
        refine ⟨hnot, hlast y (hyx.trans_lt hx.1) hy ?_⟩
        have hhigh := @start_mono log seg _ _ hyx
        have hlow := @start_mono log seg _ _ hy.le
        omega
      refine hbuilt.not_linked hx (fun h => hacts h.2) hfollow (x + 1) ?_
      exact (hrep.linked_iff _ hinfo _ hnextinfo).mpr ⟨x, by omega, hfalls⟩
    · have hlt := bundleEnd_lt he
      have := hx.1
      exact ⟨by omega, e, hie, hex, hende, by omega⟩

theorem Represents.fits : Fits log seg where
  in_time := fun _ hi _ htaken => hrep.in_time hbuilt hi htaken
  returns_end := fun _ hi hreturns hacts => hrep.returns_end hbuilt hi hreturns hacts
  ignored_end := fun _ hi hreturns _ => hrep.ignored_end hbuilt hi hreturns
  bundle_control := fun _ hi hacts => hrep.bundle_control hbuilt hi hacts
  bundle_start := fun _ hi hnext hnone => hrep.bundle_start hbuilt hi hnext hnone

end

/-- A segment without instructions has no blocks, and fits. -/
theorem represents_of_empty (hempty : seg.count = 0) : Represents seg (initial log seg) ∧ Fits log seg := by
  have hno : ∀ i, ¬ i < seg.count := fun i hi => by omega
  constructor
  · constructor
    · exact fun i hi => absurd hi (hno i)
    · exact fun b hb => absurd hb List.not_mem_nil
    · exact fun i hi => absurd hi (hno i)
    · exact fun b hb => absurd hb List.not_mem_nil
    · rintro b t ⟨kind, hmem⟩
      exact absurd hmem List.not_mem_nil
  · constructor
    · exact fun i hi => absurd hi (hno i)
    · exact fun i hi => absurd hi (hno i)
    · exact fun i hi => absurd hi (hno i)
    · exact fun i hi => absurd hi (hno i)
    · exact fun i hi => absurd hi (hno _)

/-- `buildCFG` ends with blocks that represent the code exactly when the segment fits. -/
theorem buildCFG_represents_iff (log : Bool) (seg : Segment) :
    ∃ s, buildCFG log seg = some s ∧ (Represents seg s ↔ Fits log seg) := by
  by_cases hempty : seg.count = 0
  · refine ⟨initial log seg, ?_, ?_⟩
    · rw [buildCFG, hempty]
      rfl
    · exact iff_of_true (represents_of_empty hempty).1 (represents_of_empty hempty).2
  · obtain ⟨s, hs, hbuilt⟩ := @buildCFG_spec log seg hempty
    exact ⟨s, hs, fun hrep => hrep.fits hbuilt, fun hfits => hfits.represents hbuilt⟩

/-- Without flow facts on targets and returns, and without bundles, every segment fits. -/
theorem fits_of_no_flow_facts (hplain : ∀ i, (seg.inst i).markedReturn = false ∧ (seg.inst i).noReturn = false ∧
    (seg.inst i).known = [] ∧ seg.bundleEnd i = i) : Fits log seg := by
  have hreturns : ∀ i, ¬ Returns seg i := by
    intro i
    simp [Returns, endsAsReturn, (hplain _).1, (hplain _).2.1]
  constructor
  · rintro i hi t ⟨hacts, -, htaken⟩
    refine .inl (mem_findBBs.mpr (.inr (.inr ⟨i, hi, hacts, .inl ?_⟩)))
    unfold linked at htaken
    unfold marked
    split at htaken
    case h_1 target htarget =>
      split at htaken
      · exact htaken
      · exact absurd htaken List.not_mem_nil
    case h_2 =>
      rw [(hplain i).2.2.1] at htaken
      exact absurd htaken List.not_mem_nil
  · exact fun i _ h => absurd h (hreturns i)
  · exact fun i _ h => absurd h (hreturns i)
  · exact fun i _ _ => (hplain i).2.2.2
  · exact fun i _ _ _ => (hplain (i + 1)).2.2.2

/-- A conditional call of a function that never returns, the return behind it, and the function. -/
def guardedExit : Segment where
  insts :=
    [{ Inst.plain with isControl := true, isCall := true, isConditional := true, target := some 2 },
      { Inst.plain with isControl := true, isReturn := true }, { Inst.plain with noReturn := true }]
  bounds := [2]
  target_lt := by decide
  known_lt := by decide

/-- The edge to the return is missing, which is taken when the call is not. -/
theorem conditional_exit : ¬ ∀ (log : Bool) (seg : Segment) (s : Sweep), buildCFG log seg = some s →
    Represents seg s := by
  intro hclaim
  obtain ⟨s, hs, hbuilt⟩ := @buildCFG_spec false guardedExit (by decide)
  have hfits := (hclaim false guardedExit s hs).fits hbuilt
  refine (hfits.returns_end 0 (by decide) ?_ (by decide)).2 (by decide) ?_
  · exact AsReturn.returns (.inr ⟨by decide, 2, rfl, by decide⟩)
  · exact .inr ⟨by decide, .inl (by decide)⟩

end

end Otawa.CFGBuilder
