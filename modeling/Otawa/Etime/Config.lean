import Mathlib.Algebra.Ring.Nat
import Mathlib.Data.List.Nodup

/-!
# Configurations of events

A configuration is a mask with a bit for each event. `scan` sorts the events by what they are in a set of configurations:
on in all of them, off in all of them, without importance for the set (`Indifferent`), or else complex. In a set with all
configurations that have more events on, a configuration has a complex event on if there is any (`exists_complex`).
-/

namespace Otawa.Etime

abbrev Mask := BitVec 32

/-- `1 << i`. -/
def bit (i : ℕ) : Mask := BitVec.twoPow 32 i

/-- `ConfigSet::posConst`. -/
def posConst (confs : List Mask) : Mask := confs.foldl (fun r c => r &&& c) (BitVec.allOnes 32)

/-- `ConfigSet::negConst`. -/
def negConst (confs : List Mask) : Mask := ~~~confs.foldl (fun r c => r ||| c) 0#32

/-- One turn of the loop over the configurations: those without the event and those with it, of which the other one was not
met. -/
def pair (i : ℕ) (r : List Mask × List Mask) (c : Mask) : List Mask × List Mask :=
  if c.getLsbD i then
    let c := c &&& ~~~bit i
    if c ∈ r.1 then (r.1.erase c, r.2) else (r.1, r.2 ++ [c])
  else if c ∈ r.2 then (r.1, r.2.erase c) else (r.1 ++ [c], r.2)

/-- `ConfigSet::unused`. -/
def unused (neg pos : Mask) (n : ℕ) (confs : List Mask) : Mask :=
  let mask := neg ||| pos
  (List.range n).foldl (fun r i =>
    if !mask.getLsbD i then
      if confs.foldl (pair i) ([], []) = ([], []) then r ||| bit i else r
    else r) 0#32

/-- `ConfigSet::complex`. -/
def complex (neg pos unused : Mask) (n : ℕ) : Mask := (bit n - 1#32) &&& ~~~neg &&& ~~~pos &&& ~~~unused

structure Scan where
  pos : Mask
  neg : Mask
  unus : Mask
  comp : Mask
  deriving DecidableEq, Repr

/-- `ConfigSet::scan`. -/
def scan (n : ℕ) (confs : List Mask) : Scan :=
  let pos := posConst confs
  let neg := negConst confs
  let unus := unused neg pos n confs
  ⟨pos, neg, unus, complex neg pos unus n⟩

variable {i j n : ℕ} {c c' d : Mask} {confs : List Mask}

/-! ### Bits -/

theorem getLsbD_bit (hi : i < 32) : (bit i).getLsbD j = decide (i = j) := by
  rw [bit, BitVec.getLsbD_twoPow, decide_eq_true hi, Bool.true_and]

theorem getLsbD_switch_on (hi : i < 32) : (c ||| bit i).getLsbD j = (c.getLsbD j || decide (i = j)) := by
  rw [BitVec.getLsbD_or, getLsbD_bit hi]

theorem getLsbD_switch_off (hi : i < 32) : (c &&& ~~~bit i).getLsbD j = (c.getLsbD j && !decide (i = j)) := by
  rw [BitVec.getLsbD_and, BitVec.getLsbD_not, getLsbD_bit hi]
  by_cases hj : j < 32
  · rw [decide_eq_true hj, Bool.true_and]
  · rw [BitVec.getLsbD_of_ge c j (Nat.le_of_not_lt hj), Bool.false_and, Bool.false_and]

theorem ext_bits (h : ∀ j, c.getLsbD j = d.getLsbD j) : c = d :=
  BitVec.eq_of_getLsbD_eq fun j _ => h j

theorem switch_off_on (hi : i < 32) (hon : c.getLsbD i = true) : c &&& ~~~bit i ||| bit i = c := by
  apply ext_bits
  intro j
  rw [getLsbD_switch_on hi, getLsbD_switch_off hi]
  by_cases hij : i = j
  · rw [← hij, hon]
    simp
  · simp [hij]

theorem switch_on_off (hi : i < 32) (hoff : c.getLsbD i = false) : (c ||| bit i) &&& ~~~bit i = c := by
  apply ext_bits
  intro j
  rw [getLsbD_switch_off hi, getLsbD_switch_on hi]
  by_cases hij : i = j
  · rw [← hij, hoff]
    simp
  · simp [hij]

theorem off_switch_off (hi : i < 32) : (c &&& ~~~bit i).getLsbD i = false := by
  rw [getLsbD_switch_off hi]
  simp

theorem ne_of_off_of_on (hd : d.getLsbD i = false) (hon : c.getLsbD i = true) : d ≠ c := by
  rintro rfl
  rw [hd] at hon
  cases hon

theorem switch_on_ne (hi : i < 32) (hoff : c.getLsbD i = false) : d ||| bit i ≠ c := by
  rintro rfl
  rw [getLsbD_switch_on hi] at hoff
  simp at hoff

theorem switch_on_eq_iff (hi : i < 32) (hon : c.getLsbD i = true) (hd : d.getLsbD i = false) :
    d ||| bit i = c ↔ d = c &&& ~~~bit i := by
  constructor
  · rintro rfl
    exact (switch_on_off hi hd).symm
  · rintro rfl
    exact switch_off_on hi hon

theorem nodup_snoc (hnodup : confs.Nodup) (hnew : c ∉ confs) : (confs ++ [c]).Nodup := by
  rw [← List.concat_eq_append]
  exact hnodup.concat hnew

theorem mem_snoc : d ∈ confs ++ [c] ↔ d ∈ confs ∨ d = c := by rw [List.mem_append, List.mem_singleton]

/-! ### The four kinds of events -/

theorem getLsbD_posConst (hi : i < 32) : (posConst confs).getLsbD i = true ↔ ∀ c ∈ confs, c.getLsbD i = true := by
  have hfold : ∀ r : Mask, (confs.foldl (fun r c => r &&& c) r).getLsbD i = true ↔
      r.getLsbD i = true ∧ ∀ c ∈ confs, c.getLsbD i = true := by
    induction confs with
    | nil => simp
    | cons c confs ih =>
      intro r
      rw [List.foldl_cons, ih, BitVec.getLsbD_and, Bool.and_eq_true, List.forall_mem_cons, and_assoc]
  rw [posConst, hfold, BitVec.getLsbD_allOnes, decide_eq_true hi]
  exact and_iff_right rfl

theorem getLsbD_negConst (hi : i < 32) : (negConst confs).getLsbD i = true ↔ ∀ c ∈ confs, c.getLsbD i = false := by
  have hfold : ∀ r : Mask, (confs.foldl (fun r c => r ||| c) r).getLsbD i = false ↔
      r.getLsbD i = false ∧ ∀ c ∈ confs, c.getLsbD i = false := by
    induction confs with
    | nil => simp
    | cons c confs ih =>
      intro r
      rw [List.foldl_cons, ih, BitVec.getLsbD_or, Bool.or_eq_false_iff, List.forall_mem_cons, and_assoc]
  rw [negConst, BitVec.getLsbD_not, decide_eq_true hi, Bool.true_and, Bool.not_eq_true', hfold]
  exact and_iff_right (BitVec.getLsbD_zero)

/-- The set does not depend on the event. -/
def Indifferent (i : ℕ) (confs : List Mask) : Prop :=
  ∀ c, c.getLsbD i = false → (c ∈ confs ↔ c ||| bit i ∈ confs)

/-- The configurations without a partner, among those that were met. -/
structure Paired (i : ℕ) (confs : List Mask) (r : List Mask × List Mask) : Prop where
  nodup_fst : r.1.Nodup
  nodup_snd : r.2.Nodup
  fst : ∀ c, c ∈ r.1 ↔ c.getLsbD i = false ∧ c ∈ confs ∧ c ||| bit i ∉ confs
  snd : ∀ c, c ∈ r.2 ↔ c.getLsbD i = false ∧ c ||| bit i ∈ confs ∧ c ∉ confs

namespace Paired

variable {r : List Mask × List Mask}

section

variable (hi : i < 32) (h : Paired i confs r)
include hi h

/-- The partner without the event was met: it leaves the list of those that wait. -/
theorem on_met (hon : c.getLsbD i = true) (hfst : c &&& ~~~bit i ∈ r.1) :
    Paired i (confs ++ [c]) (r.1.erase (c &&& ~~~bit i), r.2) := by
  obtain ⟨-, hin, -⟩ := (h.fst _).mp hfst
  refine ⟨h.nodup_fst.erase _, h.nodup_snd, fun d => ?_, fun d => ?_⟩
  · rw [h.nodup_fst.mem_erase_iff, h.fst, mem_snoc, mem_snoc]
    constructor
    · rintro ⟨hd, hdoff, hdin, hdout⟩
      exact ⟨hdoff, .inl hdin, fun hor => hor.elim hdout fun h => hd ((switch_on_eq_iff hi hon hdoff).mp h)⟩
    · rintro ⟨hdoff, hdin, hdout⟩
      exact ⟨fun h => hdout (.inr ((switch_on_eq_iff hi hon hdoff).mpr h)), hdoff,
        hdin.resolve_right (ne_of_off_of_on hdoff hon), fun h => hdout (.inl h)⟩
  · rw [h.snd, mem_snoc, mem_snoc]
    constructor
    · rintro ⟨hdoff, hdin, hdout⟩
      exact ⟨hdoff, .inl hdin, fun hor => hor.elim hdout (ne_of_off_of_on hdoff hon)⟩
    · rintro ⟨hdoff, hdin, hdout⟩
      refine ⟨hdoff, hdin.resolve_right fun h => ?_, fun h => hdout (.inl h)⟩
      rw [(switch_on_eq_iff hi hon hdoff).mp h] at hdout
      exact hdout (.inl hin)

theorem on_alone (hnew : c ∉ confs) (hon : c.getLsbD i = true)
    (hfst : c &&& ~~~bit i ∉ r.1) : Paired i (confs ++ [c]) (r.1, r.2 ++ [c &&& ~~~bit i]) := by
  have hoff := off_switch_off (c := c) hi
  have hback := switch_off_on hi hon
  have hout : c &&& ~~~bit i ∉ confs := by
    intro hin
    refine hfst ((h.fst _).mpr ⟨hoff, hin, ?_⟩)
    rw [hback]
    exact hnew
  have hsnd : c &&& ~~~bit i ∉ r.2 := by
    intro hin
    obtain ⟨-, hin, -⟩ := (h.snd _).mp hin
    rw [hback] at hin
    exact hnew hin
  refine ⟨h.nodup_fst, nodup_snoc h.nodup_snd hsnd, fun d => ?_, fun d => ?_⟩
  · rw [h.fst, mem_snoc, mem_snoc]
    constructor
    · rintro ⟨hdoff, hdin, hdout⟩
      refine ⟨hdoff, .inl hdin, fun hor => hor.elim hdout fun h => ?_⟩
      rw [(switch_on_eq_iff hi hon hdoff).mp h] at hdin
      exact hout hdin
    · rintro ⟨hdoff, hdin, hdout⟩
      exact ⟨hdoff, hdin.resolve_right (ne_of_off_of_on hdoff hon), fun h => hdout (.inl h)⟩
  · rw [mem_snoc, h.snd, mem_snoc, mem_snoc]
    constructor
    · rintro (⟨hdoff, hdin, hdout⟩ | rfl)
      · exact ⟨hdoff, .inl hdin, fun hor => hor.elim hdout (ne_of_off_of_on hdoff hon)⟩
      · exact ⟨hoff, .inr hback, fun hor => hor.elim hout (ne_of_off_of_on hoff hon)⟩
    · rintro ⟨hdoff, hdin, hdout⟩
      rcases hdin with hdin | hdin
      · exact .inl ⟨hdoff, hdin, fun h => hdout (.inl h)⟩
      · exact .inr ((switch_on_eq_iff hi hon hdoff).mp hdin)

/-- The partner with the event was met. -/
theorem off_met (hoff : c.getLsbD i = false) (hsnd : c ∈ r.2) : Paired i (confs ++ [c]) (r.1, r.2.erase c) := by
  obtain ⟨-, hin, -⟩ := (h.snd c).mp hsnd
  refine ⟨h.nodup_fst, h.nodup_snd.erase _, fun d => ?_, fun d => ?_⟩
  · rw [h.fst, mem_snoc, mem_snoc]
    constructor
    · rintro ⟨hdoff, hdin, hdout⟩
      exact ⟨hdoff, .inl hdin, fun hor => hor.elim hdout (switch_on_ne hi hoff)⟩
    · rintro ⟨hdoff, hdin, hdout⟩
      refine ⟨hdoff, hdin.resolve_right ?_, fun h => hdout (.inl h)⟩
      rintro rfl
      exact hdout (.inl hin)
  · rw [h.nodup_snd.mem_erase_iff, h.snd, mem_snoc, mem_snoc]
    constructor
    · rintro ⟨hd, hdoff, hdin, hdout⟩
      exact ⟨hdoff, .inl hdin, fun hor => hor.elim hdout hd⟩
    · rintro ⟨hdoff, hdin, hdout⟩
      exact ⟨fun h => hdout (.inr h), hdoff, hdin.resolve_right (switch_on_ne hi hoff), fun h => hdout (.inl h)⟩

theorem off_alone (hnew : c ∉ confs) (hoff : c.getLsbD i = false)
    (hsnd : c ∉ r.2) : Paired i (confs ++ [c]) (r.1 ++ [c], r.2) := by
  have hout : c ||| bit i ∉ confs := fun hin => hsnd ((h.snd c).mpr ⟨hoff, hin, hnew⟩)
  have hfst : c ∉ r.1 := fun hin => hnew ((h.fst c).mp hin).2.1
  refine ⟨nodup_snoc h.nodup_fst hfst, h.nodup_snd, fun d => ?_, fun d => ?_⟩
  · rw [mem_snoc, h.fst, mem_snoc, mem_snoc]
    constructor
    · rintro (⟨hdoff, hdin, hdout⟩ | rfl)
      · exact ⟨hdoff, .inl hdin, fun hor => hor.elim hdout (switch_on_ne hi hoff)⟩
      · exact ⟨hoff, .inr rfl, fun hor => hor.elim hout (switch_on_ne hi hoff)⟩
    · rintro ⟨hdoff, hdin, hdout⟩
      rcases hdin with hdin | hdin
      · exact .inl ⟨hdoff, hdin, fun h => hdout (.inl h)⟩
      · exact .inr hdin
  · rw [h.snd, mem_snoc, mem_snoc]
    constructor
    · rintro ⟨hdoff, hdin, hdout⟩
      refine ⟨hdoff, .inl hdin, fun hor => hor.elim hdout ?_⟩
      rintro rfl
      exact hout hdin
    · rintro ⟨hdoff, hdin, hdout⟩
      exact ⟨hdoff, hdin.resolve_right (switch_on_ne hi hoff), fun h => hdout (.inl h)⟩

theorem step (hnew : c ∉ confs) : Paired i (confs ++ [c]) (pair i r c) := by
  unfold pair
  by_cases hon : c.getLsbD i = true
  · rw [if_pos hon]
    by_cases hfst : c &&& ~~~bit i ∈ r.1
    · rw [if_pos hfst]
      exact h.on_met hi hon hfst
    · rw [if_neg hfst]
      exact h.on_alone hi hnew hon hfst
  · rw [if_neg hon]
    have hoff : c.getLsbD i = false := Bool.eq_false_iff.mpr hon
    by_cases hsnd : c ∈ r.2
    · rw [if_pos hsnd]
      exact h.off_met hi hoff hsnd
    · rw [if_neg hsnd]
      exact h.off_alone hi hnew hoff hsnd

end

end Paired

/-- The configurations are all paired if and only if the set does not depend on the event. -/
theorem foldl_pair_iff (hi : i < 32) (hnodup : confs.Nodup) :
    confs.foldl (pair i) ([], []) = ([], []) ↔ Indifferent i confs := by
  have hfold : ∀ (l done : List Mask) r, (done ++ l).Nodup → Paired i done r → Paired i (done ++ l) (l.foldl (pair i) r) := by
    intro l
    induction l with
    | nil =>
      intro done r _ h
      rw [List.append_nil]
      exact h
    | cons c l ih =>
      intro done r hnodup h
      have hnew : c ∉ done := fun hin =>
        (List.nodup_append.mp hnodup).2.2 c hin c List.mem_cons_self rfl
      rw [List.append_cons] at hnodup ⊢
      exact ih (done ++ [c]) (pair i r c) hnodup (h.step hi hnew)
  have hstart : Paired i [] ([], []) := by
    refine ⟨List.nodup_nil, List.nodup_nil, fun c => ?_, fun c => ?_⟩ <;> simp
  have h := hfold confs [] ([], []) hnodup hstart
  rw [List.nil_append] at h
  generalize confs.foldl (pair i) ([], []) = r at h
  constructor
  · rintro rfl c hoff
    constructor
    · intro hin
      by_contra hout
      exact absurd ((h.fst c).mpr ⟨hoff, hin, hout⟩) List.not_mem_nil
    · intro hin
      by_contra hout
      exact absurd ((h.snd c).mpr ⟨hoff, hin, hout⟩) List.not_mem_nil
  · intro hind
    have hfst : r.1 = [] := by
      apply List.eq_nil_iff_forall_not_mem.mpr
      intro c hc
      obtain ⟨hoff, hin, hout⟩ := (h.fst c).mp hc
      exact hout ((hind c hoff).mp hin)
    have hsnd : r.2 = [] := by
      apply List.eq_nil_iff_forall_not_mem.mpr
      intro c hc
      obtain ⟨hoff, hin, hout⟩ := (h.snd c).mp hc
      exact hout ((hind c hoff).mpr hin)
    exact Prod.ext hfst hsnd

theorem getLsbD_unused (hn : n ≤ 32) (hi : i < n) (neg pos : Mask) (hnodup : confs.Nodup) :
    (unused neg pos n confs).getLsbD i = true ↔ (neg ||| pos).getLsbD i = false ∧ Indifferent i confs := by
  have hfold : ∀ (l : List ℕ) (r : Mask), (∀ k ∈ l, k < 32) → ((l.foldl (fun r k =>
      if !(neg ||| pos).getLsbD k then
        if confs.foldl (pair k) ([], []) = ([], []) then r ||| bit k else r
      else r) r).getLsbD i = true ↔
        r.getLsbD i = true ∨ i ∈ l ∧ (neg ||| pos).getLsbD i = false ∧ Indifferent i confs) := by
    intro l
    induction l with
    | nil => simp
    | cons k l ih =>
      intro r hl
      obtain ⟨hk, hl⟩ := List.forall_mem_cons.mp hl
      rw [List.foldl_cons, ih _ hl, List.mem_cons]
      by_cases hmask : (neg ||| pos).getLsbD k = false
      · rw [if_pos (by rw [hmask]; rfl)]
        by_cases hpairs : confs.foldl (pair k) ([], []) = ([], [])
        · rw [if_pos hpairs, getLsbD_switch_on hk, Bool.or_eq_true, decide_eq_true_eq]
          have hind := (foldl_pair_iff hk hnodup).mp hpairs
          constructor
          · rintro ((hr | rfl) | ⟨hmem, hrest⟩)
            · exact .inl hr
            · exact .inr ⟨.inl rfl, hmask, hind⟩
            · exact .inr ⟨.inr hmem, hrest⟩
          · rintro (hr | ⟨rfl | hmem, hrest⟩)
            · exact .inl (.inl hr)
            · exact .inl (.inr rfl)
            · exact .inr ⟨hmem, hrest⟩
        · rw [if_neg hpairs]
          constructor
          · rintro (hr | ⟨hmem, hrest⟩)
            · exact .inl hr
            · exact .inr ⟨.inr hmem, hrest⟩
          · rintro (hr | ⟨rfl | hmem, hrest⟩)
            · exact .inl hr
            · exact absurd ((foldl_pair_iff hk hnodup).mpr hrest.2) hpairs
            · exact .inr ⟨hmem, hrest⟩
      · rw [if_neg (by simpa using hmask)]
        constructor
        · rintro (hr | ⟨hmem, hrest⟩)
          · exact .inl hr
          · exact .inr ⟨.inr hmem, hrest⟩
        · rintro (hr | ⟨rfl | hmem, hrest⟩)
          · exact .inl hr
          · exact absurd hrest.1 hmask
          · exact .inr ⟨hmem, hrest⟩
  unfold unused
  dsimp only
  rw [hfold (List.range n) 0#32 fun k hk => Nat.lt_of_lt_of_le (List.mem_range.mp hk) hn, List.mem_range]
  constructor
  · rintro (hzero | ⟨-, hrest⟩)
    · rw [BitVec.getLsbD_zero] at hzero
      cases hzero
    · exact hrest
  · intro hrest
    exact .inr ⟨hi, hrest⟩

theorem low_eq : ∀ n < 32, bit n - 1#32 = BitVec.ofNat 32 (2 ^ n - 1) := by
  decide

theorem getLsbD_low (hn : n < 32) (i : ℕ) : (bit n - 1#32).getLsbD i = decide (i < n) := by
  rw [low_eq n hn, BitVec.getLsbD_ofNat, Nat.testBit_two_pow_sub_one]
  by_cases hi : i < n
  · simp [hi, Nat.lt_trans hi hn]
  · simp [hi]

theorem getLsbD_comp (hn : n < 32) (hnodup : confs.Nodup) : (scan n confs).comp.getLsbD i = true ↔
    i < n ∧ ¬ (∀ c ∈ confs, c.getLsbD i = true) ∧ ¬ (∀ c ∈ confs, c.getLsbD i = false) ∧ ¬ Indifferent i confs := by
  unfold scan complex
  dsimp only
  simp only [BitVec.getLsbD_and, BitVec.getLsbD_not, getLsbD_low hn, Bool.and_eq_true, decide_eq_true_eq,
    Bool.not_eq_true']
  constructor
  · rintro ⟨⟨⟨hi, -, hneg⟩, -, hpos⟩, -, hunused⟩
    have hlt : i < 32 := Nat.lt_trans hi hn
    rw [Bool.eq_false_iff, ne_eq] at hneg hpos hunused
    rw [getLsbD_negConst hlt] at hneg
    rw [getLsbD_posConst hlt] at hpos
    refine ⟨hi, hpos, hneg, fun hind => hunused ((getLsbD_unused (Nat.le_of_lt hn) hi _ _ hnodup).mpr ⟨?_, hind⟩)⟩
    rw [BitVec.getLsbD_or, Bool.or_eq_false_iff, Bool.eq_false_iff, Bool.eq_false_iff, ne_eq, ne_eq,
      getLsbD_negConst hlt, getLsbD_posConst hlt]
    exact ⟨hneg, hpos⟩
  · rintro ⟨hi, hpos, hneg, hind⟩
    have hlt : i < 32 := Nat.lt_trans hi hn
    rw [← getLsbD_posConst hlt, ← ne_eq, ← Bool.eq_false_iff] at hpos
    rw [← getLsbD_negConst hlt, ← ne_eq, ← Bool.eq_false_iff] at hneg
    refine ⟨⟨⟨hi, hlt, hneg⟩, hlt, hpos⟩, hlt, Bool.eq_false_iff.mpr fun hunused => hind ?_⟩
    exact ((getLsbD_unused (Nat.le_of_lt hn) hi _ _ hnodup).mp hunused).2

/-! ### Sets with all larger configurations -/

/-- The events of a configuration are switched on, those of a list. -/
def raise (d : Mask) (l : List ℕ) (c : Mask) : Mask :=
  l.foldl (fun c i => if d.getLsbD i then c ||| bit i else c) c

theorem raise_induction {P : Mask → Prop} (hstep : ∀ c, ∀ i < n, P c → P (c ||| bit i)) (hc : P c) :
    P (raise d (List.range n) c) := by
  have hfold : ∀ l : List ℕ, (∀ i ∈ l, i < n) → ∀ c, P c → P (raise d l c) := by
    intro l
    induction l with
    | nil => exact fun _ c hc => hc
    | cons i l ih =>
      intro hl c hc
      obtain ⟨hi, hl⟩ := List.forall_mem_cons.mp hl
      unfold raise
      rw [List.foldl_cons]
      apply ih hl
      split
      · exact hstep c i hi hc
      · exact hc
  exact hfold (List.range n) (fun i hi => List.mem_range.mp hi) c hc

theorem raise_eq (hn : n ≤ 32) (hsub : ∀ i, c.getLsbD i = true → d.getLsbD i = true)
    (hd : ∀ i, n ≤ i → d.getLsbD i = false) : raise d (List.range n) c = d := by
  have hfold : ∀ l : List ℕ, (∀ i ∈ l, i < 32) → ∀ c j,
      (raise d l c).getLsbD j = (c.getLsbD j || (decide (j ∈ l) && d.getLsbD j)) := by
    intro l
    induction l with
    | nil => simp [raise]
    | cons i l ih =>
      intro hl c j
      obtain ⟨hi, hl⟩ := List.forall_mem_cons.mp hl
      have hrest := ih hl (if d.getLsbD i then c ||| bit i else c) j
      unfold raise at hrest ⊢
      rw [List.foldl_cons, hrest]
      by_cases hij : i = j
      · subst hij
        cases hdi : d.getLsbD i with
        | false => simp
        | true =>
          rw [if_pos rfl, getLsbD_switch_on hi]
          simp
      · have hji : (j ∈ i :: l) = (j ∈ l) := by
          rw [List.mem_cons, eq_comm (a := j)]
          simp [hij]
        split
        · rw [getLsbD_switch_on hi]
          simp [hij, hji]
        · simp [hji]
  apply ext_bits
  intro j
  rw [hfold (List.range n) (fun i hi => Nat.lt_of_lt_of_le (List.mem_range.mp hi) hn)]
  cases hdj : d.getLsbD j with
  | true =>
    have hj : j < n := by
      by_contra hge
      rw [hd j (Nat.le_of_not_lt hge)] at hdj
      cases hdj
    simp [hj]
  | false =>
    have hcj : c.getLsbD j = false := by
      rw [Bool.eq_false_iff]
      intro hcj
      rw [hsub j hcj] at hdj
      cases hdj
    simp [hcj]

/-- The events that the set does not depend on are switched off. -/
theorem exists_lowered (hn : n ≤ 32) (u : ℕ → Bool) (hu : ∀ i < n, u i = true → Indifferent i confs) (hc : c ∈ confs) :
    ∃ d ∈ confs, ∀ j, d.getLsbD j = (c.getLsbD j && !(decide (j < n) && u j)) := by
  induction n with
  | zero =>
    refine ⟨c, hc, fun j => ?_⟩
    simp
  | succ n ih =>
    obtain ⟨d, hd, hbits⟩ := ih (Nat.le_of_succ_le hn) fun i hi => hu i (Nat.lt_succ_of_lt hi)
    have hlt : n < 32 := hn
    have hsucc : ∀ j, decide (j < n + 1) = (decide (j < n) || decide (n = j)) := by
      intro j
      rw [← Bool.decide_or]
      congr 1
      exact propext ⟨fun h => (Nat.lt_succ_iff_lt_or_eq.mp h).imp_right Eq.symm,
        fun h => Nat.lt_succ_iff_lt_or_eq.mpr (h.imp_right Eq.symm)⟩
    cases hun : u n with
    | false =>
      refine ⟨d, hd, fun j => ?_⟩
      rw [hbits, hsucc]
      by_cases hnj : n = j
      · subst hnj
        simp [hun]
      · simp [hnj]
    | true =>
      refine ⟨d &&& ~~~bit n, ?_, fun j => ?_⟩
      · have hoff : (d &&& ~~~bit n).getLsbD n = false := by
          rw [getLsbD_switch_off hlt]
          simp
        rw [hu n (Nat.lt_succ_self n) hun _ hoff]
        cases hdn : d.getLsbD n with
        | true =>
          rw [switch_off_on hlt hdn]
          exact hd
        | false =>
          have hsame : d &&& ~~~bit n = d := by
            apply ext_bits
            intro j
            rw [getLsbD_switch_off hlt]
            by_cases hnj : n = j
            · rw [← hnj, hdn]
              rfl
            · simp [hnj]
          rw [hsame]
          exact (hu n (Nat.lt_succ_self n) hun d hdn).mp hd
      · rw [getLsbD_switch_off hlt, hbits, hsucc]
        by_cases hnj : n = j
        · subst hnj
          simp [hun]
        · simp [hnj]

/-- In a set with all larger configurations each one has a complex event on, if there is a complex event. -/
theorem exists_complex {k : ℕ} (hn : n < 32) (hnodup : confs.Nodup) (hlow : ∀ c ∈ confs, ∀ i, n ≤ i → c.getLsbD i = false)
    (hup : ∀ c ∈ confs, ∀ i < n, c ||| bit i ∈ confs) (hc : c ∈ confs) (hk : (scan n confs).comp.getLsbD k = true) :
    ∃ i < n, (scan n confs).comp.getLsbD i = true ∧ c.getLsbD i = true := by
  classical
  by_contra hnone
  push Not at hnone
  -- without the events of no importance, only those are on that are on in the whole set
  obtain ⟨d, hd, hbits⟩ := exists_lowered (Nat.le_of_lt hn) (fun i => decide (Indifferent i confs))
    (fun i _ h => of_decide_eq_true h) hc
  have hpos : ∀ i, d.getLsbD i = true → ∀ c' ∈ confs, c'.getLsbD i = true := by
    intro i hdi
    have hi : i < n := by
      by_contra hge
      rw [hlow d hd i (Nat.le_of_not_lt hge)] at hdi
      cases hdi
    rw [hbits, Bool.and_eq_true, Bool.not_eq_true', decide_eq_true hi, Bool.true_and, decide_eq_false_iff_not] at hdi
    obtain ⟨hci, hind⟩ := hdi
    by_contra hall
    refine hnone i hi ((getLsbD_comp hn hnodup).mpr ⟨hi, hall, fun hneg => ?_, hind⟩) hci
    rw [hneg c hc] at hci
    cases hci
  have hup' : ∀ c', (∀ i, d.getLsbD i = true → c'.getLsbD i = true) → (∀ i, n ≤ i → c'.getLsbD i = false) →
      c' ∈ confs := by
    intro c' hsub hlow'
    rw [← raise_eq (Nat.le_of_lt hn) hsub hlow']
    exact raise_induction (fun x i hi hx => hup x hx i hi) hd
  obtain ⟨hkn, hkpos, -, hkind⟩ := (getLsbD_comp hn hnodup).mp hk
  have hk32 : k < 32 := Nat.lt_trans hkn hn
  refine hkind fun c' hoff => ⟨fun hin => hup c' hin k hkn, fun hin => hup' c' (fun i hdi => ?_) fun i hi => ?_⟩
  · have hon := hpos i hdi _ hin
    rw [getLsbD_switch_on hk32, Bool.or_eq_true, decide_eq_true_eq] at hon
    rcases hon with hon | rfl
    · exact hon
    · exact absurd (hpos k hdi) hkpos
  · have hoff' := hlow _ hin i hi
    rw [getLsbD_switch_on hk32, Bool.or_eq_false_iff] at hoff'
    exact hoff'.1

end Otawa.Etime
