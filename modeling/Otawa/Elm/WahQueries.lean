import Otawa.Elm.WahBits

/-!
# Constructors and queries

`isEmpty` and `isFull` read the value bit of the first word, which in a literal is the bit of index 30. They are
wrong for a vector made of one literal whose bit of index 30 (a bit that is not used when the vector has less than
31 bits) has the value they look for. `set()` and `clear()` compute the count of the fill they write from the number
of words, which is right for vectors of less than 31 bits.
-/

namespace Otawa.Elm.WAHVector

variable {n i k : ℕ} {u : Bool} {w : Word} {l : List Word} {f g : ℕ → Bool} {v : WAHVector}

theorem Represents.congr (hv : Represents n v f) (hfg : ∀ i < n, f i = g i) : Represents n v g where
  rem := hv.rem
  normal := hv.normal
  length := hv.length
  masked := hv.masked
  bits := fun i hi => (hv.bits i hi).trans (hfg i hi)

theorem Represents.words_ne_nil (hv : Represents n v f) (hn : 0 < n) : v.words ≠ [] := by
  intro hnil
  have hlength := hv.length
  rw [hnil, groups_nil, List.length_nil] at hlength
  omega

/-! ### Vectors of one fill -/

theorem bitAt_replicate {c : ℕ} (hi : i < 31 * c) : bitAt (List.replicate c (uniform u)) i = u := by
  have hg : (List.replicate c (uniform u))[i / 31]? = some (uniform u) := by
    rw [List.getElem?_replicate, if_pos (by omega)]
  rw [bitAt_eq hg, getLsbD_uniform (by omega)]

theorem make_eq (hn : n < 4638219) (init : Bool) : make n init = ⟨n % 31, [fill ((n + 30) / 31) init]⟩ := by
  have hcount : (n / 31 + if n % 31 ≠ 0 then 1 else 0) = (n + 30) / 31 := by
    split <;> omega
  rw [make, mod_eq hn, div_eq hn, hcount]

theorem make_represents (hpos : 0 < n) (hn : n < 4638219) (init : Bool) :
    Represents n (make n init) fun _ => init := by
  have hlt : (n + 30) / 31 < 2 ^ 30 := by omega
  have hgroups : groups [fill ((n + 30) / 31) init] = List.replicate ((n + 30) / 31) (uniform init) := by
    rw [groups_cons, groups_nil, List.append_nil, count_fill hlt, value_fill hlt]
  rw [make_eq hn]
  constructor
  · rfl
  · exact normal_cons (proper_fill (by omega) hlt) normal_nil fun w hw => absurd hw (by simp)
  · rw [hgroups, List.length_replicate]
  · intro _ w hw hlite
    have hfill := isFill_fill ((n + 30) / 31) init
    cases hw
    cases hfill.symm.trans hlite
  · intro i hi
    rw [hgroups, bitAt_replicate (by omega)]

/-- `set()` and `clear()` on a vector of less than 31 bits. -/
theorem fillFirst_represents (hv : Represents n v f) (hpos : 0 < n) (hn : n < 31) (init : Bool) :
    Represents n (v.fillFirst init) fun _ => init := by
  have hmake := make_represents hpos (by omega : n < 4638219) init
  rw [make_eq (by omega)] at hmake
  obtain ⟨w, rest, hwords⟩ := List.exists_cons_of_ne_nil (hv.words_ne_nil hpos)
  have hlength := hv.length
  have hnormal := hv.normal
  rw [hwords] at hlength hnormal
  have hrest : rest = [] := by
    cases rest with
    | nil => rfl
    | cons w' rest =>
      have h1 := hnormal.head.count_pos
      have h2 := hnormal.tail.head.count_pos
      simp only [groups_cons, List.length_append, List.length_replicate] at hlength
      omega
  have hcount : (div [w].length + if n % 31 ≠ 0 then 1 else 0) = (n + 30) / 31 := by
    rw [List.length_singleton, div_eq (by decide), if_pos (by omega)]
    omega
  have hfill : v.fillFirst init = ⟨n % 31, [fill ((n + 30) / 31) init]⟩ := by
    rw [fillFirst, hwords, hrest, hv.rem, hcount]
    rfl
  rw [hfill]
  exact hmake

/-! ### `bit` -/

theorem bitAt_append_left {xs ys : List Word} (hi : i < 31 * xs.length) : bitAt (xs ++ ys) i = bitAt xs i := by
  simp only [bitAt, List.getD_eq_getElem?_getD]
  rw [List.getElem?_append_left (by omega)]

theorem bitAt_append_right (xs ys : List Word) (i : ℕ) :
    bitAt (xs ++ ys) (31 * xs.length + i) = bitAt ys i := by
  have hdiv : (31 * xs.length + i) / 31 = xs.length + i / 31 := by omega
  have hmod : (31 * xs.length + i) % 31 = i % 31 := by omega
  simp only [bitAt, List.getD_eq_getElem?_getD, hdiv, hmod]
  rw [List.getElem?_append_right (by omega), Nat.add_sub_cancel_left]

theorem and_bitOf (hi : i < 4638219) (w : Word) : (w &&& bitOf i != 0#32) = w.getLsbD (i % 31) := by
  rw [bitOf_eq hi, BitVec.and_twoPow]
  cases w.getLsbD (i % 31) with
  | false => rfl
  | true =>
    rw [if_pos rfl, bne_iff_ne]
    intro hzero
    have hbit := congrArg (fun x => BitVec.getLsbD x (i % 31)) hzero
    rw [BitVec.getLsbD_twoPow] at hbit
    simp at hbit
    omega

theorem bitFrom_eq (hi : i < 4638219) (l : List Word) (k : ℕ) (hlo : 31 * k ≤ i)
    (hhi : i < 31 * (k + (groups l).length)) :
    bitFrom i (31 * k) l = some (bitAt (groups l) (i - 31 * k)) := by
  induction l generalizing k with
  | nil =>
    rw [groups_nil, List.length_nil] at hhi
    omega
  | cons w rest ih =>
    have hlength : (groups (w :: rest)).length = count w + (groups rest).length := by
      rw [groups_cons, List.length_append, List.length_replicate]
    have htop : 31 * k + times (count w) = 31 * (k + count w) := by
      rw [times_eq]
      omega
    rw [hlength] at hhi
    rw [bitFrom]
    simp only [htop]
    by_cases hin : i < 31 * (k + count w)
    · rw [if_pos ⟨hlo, hin⟩, and_bitOf hi, groups_cons, bitAt_append_left (by rw [List.length_replicate]; omega)]
      have hg : (List.replicate (count w) (value w))[(i - 31 * k) / 31]? = some (value w) := by
        rw [List.getElem?_replicate, if_pos (by omega)]
      have hmod : (i - 31 * k) % 31 = i % 31 := by omega
      rw [bitAt_eq hg, hmod]
    · rw [if_neg fun h => hin h.2, ih (k + count w) (by omega) (by omega), groups_cons]
      have hright := bitAt_append_right (List.replicate (count w) (value w)) (groups rest) (i - 31 * (k + count w))
      have hpos : 31 * (List.replicate (count w) (value w)).length + (i - 31 * (k + count w)) = i - 31 * k := by
        rw [List.length_replicate]
        omega
      rw [hpos] at hright
      rw [hright]

section

variable (hv : Represents n v f)
include hv

theorem bit_eq (hi : i < n) (hn : n < 4638219) : v.bit i = some (f i) := by
  have hlength := hv.length
  have hbit := bitFrom_eq (by omega : i < 4638219) v.words 0 (Nat.zero_le i) (by omega)
  rw [Nat.mul_zero, Nat.sub_zero, hv.bits i hi] at hbit
  exact hbit

/-! ### `isEmpty` and `isFull` -/

/-- The vector is one literal, and its bit of index 30 has the value. -/
structure LoneLiteral (n : ℕ) (f : ℕ → Bool) (u : Bool) : Prop where
  short : n ≤ 31
  mixed : Mixed f 0 n
  top : (decide (n = 31) && f 30) = u

/-- A literal has bits of both values below the size. -/
theorem Represents.both (hw : w ∈ v.words) (hlite : isFill w = false) (u : Bool) : ∃ i < n, f i = u := by
  obtain ⟨front, back, hwords⟩ := List.append_of_mem hw
  have hproper := hv.normal.proper w hw
  have hlength := hv.length
  have hgroups : groups v.words = groups front ++ w :: groups back := by
    rw [hwords, groups_append, groups_cons, count_of_lite hlite, value_of_lite hlite]
    rfl
  have hg : (groups v.words)[(groups front).length]? = some w := by
    rw [hgroups, List.getElem?_append_right le_rfl, Nat.sub_self]
    rfl
  have hbit : ∀ j < 31, 31 * (groups front).length + j < n → w.getLsbD j = u →
      ∃ i < n, f i = u := by
    intro j hj hin hval
    refine ⟨31 * (groups front).length + j, hin, ?_⟩
    rw [← hv.bits _ hin, bitAt_group hg hj, hval]
  rw [hgroups, List.length_append, List.length_cons] at hlength
  obtain ⟨j, hj, hval⟩ := hproper.both hlite u
  by_cases hpart : n % 31 ≠ 0 ∧ groups back = []
  · obtain ⟨hpart, hback⟩ := hpart
    have hnil : back = [] := by
      cases back with
      | nil => rfl
      | cons x rest =>
        have hpos := (hv.normal.proper x (by rw [hwords]; simp)).count_pos
        rw [groups_cons, List.append_eq_nil_iff, List.replicate_eq_nil_iff] at hback
        omega
    rw [hback, List.length_nil] at hlength
    obtain ⟨hpad, a, ha, hclear⟩ := hv.masked hpart w (by rw [hwords, hnil]; simp) hlite
    cases u with
    | false => exact hbit a (by omega) (by omega) hclear
    | true =>
      have hj' : j < n % 31 := by
        by_contra hout
        rw [hpad j (by omega)] at hval
        cases hval
      exact hbit j hj (by omega) hval
  · have hfit : 31 * ((groups front).length + 1) ≤ n := by
      by_cases hmod : n % 31 = 0
      · omega
      · have hpos := List.length_pos_of_ne_nil fun hnil => hpart ⟨hmod, hnil⟩
        omega
    exact hbit j hj (by omega) hval

/-- The bits of the first group. -/
theorem Represents.bitAt_first {rest : List Word} (hwords : v.words = w :: rest) {j : ℕ}
    (hj : j < 31) : bitAt (groups v.words) j = (value w).getLsbD j := by
  have hpos := (hwords ▸ hv.normal : Normal (w :: rest)).head.count_pos
  have hg : (groups v.words)[0]? = some (value w) := by
    rw [hwords, groups_cons, List.getElem?_append_left (by rw [List.length_replicate]; omega),
      List.getElem?_replicate, if_pos (by omega)]
  have hbit := bitAt_group hg hj
  rwa [Nat.mul_zero, Nat.zero_add] at hbit

/-- One word, which is not the literal that passes for a fill, has the bits of its fill. -/
theorem Represents.bits_of_one (hwords : v.words = [w]) (hones : isOnes w = u)
    (hlone : ¬ LoneLiteral n f u) : ∀ i < n, f i = u := by
  have hlength := hv.length
  rw [hwords, groups_cons, groups_nil, List.append_nil, List.length_replicate] at hlength
  cases hfill : isFill w with
  | true =>
    intro i hi
    rw [← hv.bits i hi, hwords, groups_cons, groups_nil, List.append_nil, value_of_fill hfill, hones,
      bitAt_replicate (by omega)]
  | false =>
    rw [count_of_lite hfill] at hlength
    obtain ⟨i, hi, hset⟩ := hv.both (by rw [hwords]; exact List.mem_cons_self) hfill true
    obtain ⟨j, hj, hclear⟩ := hv.both (by rw [hwords]; exact List.mem_cons_self) hfill false
    refine absurd ⟨by omega, ⟨⟨i, hi, by rwa [Nat.zero_add]⟩, ⟨j, hj, by rwa [Nat.zero_add]⟩⟩, ?_⟩ hlone
    rw [← hones, isOnes_eq]
    have h30 := hv.bitAt_first hwords (j := 30) (by decide)
    rw [value_of_lite hfill] at h30
    by_cases hfull : n = 31
    · rw [decide_eq_true hfull, Bool.true_and, ← hv.bits 30 (by omega), h30]
    · obtain ⟨hpad, -⟩ := hv.masked (by omega) w (by rw [hwords]; rfl) hfill
      rw [decide_eq_false hfull, Bool.false_and, hpad 30 (by omega)]

/-- The word that the queries look for after the first one is never there. -/
theorem Represents.rest_ne {rest : List Word} (hwords : v.words = w :: rest) :
    rest ≠ [if u then mask (n % 31) else 0#32] := by
  rintro rfl
  have hproper := (hwords ▸ hv.normal : Normal (w :: _)).tail.head
  cases u with
  | false =>
    rw [if_neg Bool.false_ne_true] at hproper
    exact hproper.lite (by decide) false (by decide)
  | true =>
    by_cases hpart : n % 31 = 0
    · rw [if_pos rfl, hpart] at hproper
      exact hproper.lite (by decide) false (by decide)
    · have hlite : isFill (mask (n % 31)) = false := by
        rw [isFill_eq, getLsbD_mask (by omega)]
        exact decide_eq_false (by omega)
      obtain ⟨-, i, hi, hclear⟩ := hv.masked hpart (mask (n % 31)) (by rw [hwords]; rfl) hlite
      rw [getLsbD_mask (by omega), decide_eq_true hi] at hclear
      cases hclear

/-- Bits that are all the same are in one fill. -/
theorem Represents.one_of_bits (hn : 0 < n) {rest : List Word} (hwords : v.words = w :: rest)
    (hall : ∀ i < n, f i = u) : isOnes w = u ∧ rest = [] := by
  have hlength := hv.length
  have hnormal := hv.normal
  rw [hwords] at hlength hnormal
  have hfills : ∀ x ∈ v.words, isFill x = true := by
    intro x hx
    by_contra hnot
    obtain ⟨i, hi, hother⟩ := hv.both hx (Bool.eq_false_iff.mpr hnot) (!u)
    rw [hall i hi] at hother
    cases u <;> cases hother
  have hw := hfills w (by rw [hwords]; exact List.mem_cons_self)
  have hones : isOnes w = u := by
    have hbit := hv.bitAt_first hwords (j := 0) (by decide)
    rw [hv.bits 0 hn, hall 0 hn, value_of_fill hw, getLsbD_uniform (by decide)] at hbit
    exact hbit.symm
  refine ⟨hones, ?_⟩
  cases rest with
  | nil => rfl
  | cons x rest =>
    exfalso
    have hx := hfills x (by rw [hwords]; simp)
    have hpos := hnormal.tail.head.count_pos
    have happart : isOnes w ≠ isOnes x := (List.isChain_cons_cons.mp hnormal.apart).1 hw hx
    simp only [groups_cons, List.length_append, List.length_replicate] at hlength
    have hin : 31 * count w < n := by omega
    have hright := bitAt_append_right (List.replicate (count w) (value w)) (groups (x :: rest)) 0
    rw [List.length_replicate, Nat.add_zero, ← groups_cons, ← hwords, hv.bits _ hin, hall _ hin, groups_cons,
      value_of_fill hx, bitAt_append_left (by rw [List.length_replicate]; omega), bitAt_replicate (by omega)] at hright
    exact happart (hones.trans hright)

/-- The test that `isEmpty` and `isFull` make is exact unless the vector is a literal of its own. -/
theorem query_iff (hn : 0 < n) {rest : List Word} (hwords : v.words = w :: rest)
    (hlone : ¬ LoneLiteral n f u) :
    (isOnes w = u ∧ (rest = [] ∨ rest = [if u then mask (n % 31) else 0#32])) ↔ ∀ i < n, f i = u := by
  constructor
  · rintro ⟨hones, hrest | hrest⟩
    · subst hrest
      exact hv.bits_of_one hwords hones hlone
    · exact absurd hrest (hv.rest_ne hwords)
  · intro hall
    obtain ⟨hones, hrest⟩ := hv.one_of_bits hn hwords hall
    exact ⟨hones, .inl hrest⟩

theorem isEmpty_eq (hn : 0 < n) (hlone : ¬ LoneLiteral n f false) :
    ∃ r, v.isEmpty = some r ∧ (r = true ↔ ∀ i < n, f i = false) := by
  obtain ⟨w, rest, hwords⟩ := List.exists_cons_of_ne_nil (hv.words_ne_nil hn)
  have hquery := query_iff hv hn hwords hlone
  rw [if_neg Bool.false_ne_true] at hquery
  have hzero : isZeroes w = true ↔ isOnes w = false := by rw [isZeroes, Bool.not_eq_true']
  rw [isEmpty, hwords]
  simp only [← hquery]
  by_cases hw : isOnes w = false
  · simp only [hzero.mpr hw, Bool.not_true, Bool.false_eq_true, if_false, hw, true_and]
    by_cases hrest : rest = []
    · exact ⟨true, if_pos hrest, by simp [hrest]⟩
    · exact ⟨decide (rest = [0#32]), if_neg hrest, by simp [hrest]⟩
  · have hnot : isZeroes w = false := Bool.eq_false_iff.mpr fun h => hw (hzero.mp h)
    exact ⟨false, by rw [hnot]; rfl, by simp [hw]⟩

theorem isFull_eq (hn : 0 < n) (hlone : ¬ LoneLiteral n f true) :
    ∃ r, v.isFull = some r ∧ (r = true ↔ ∀ i < n, f i = true) := by
  obtain ⟨w, rest, hwords⟩ := List.exists_cons_of_ne_nil (hv.words_ne_nil hn)
  have hquery := query_iff hv hn hwords hlone
  rw [if_pos rfl] at hquery
  rw [isFull, hwords, hv.rem]
  simp only [← hquery]
  by_cases hw : isOnes w = true
  · simp only [hw, Bool.not_true, Bool.false_eq_true, if_false, true_and]
    by_cases hrest : rest = []
    · exact ⟨true, if_pos hrest, by simp [hrest]⟩
    · exact ⟨decide (rest = [mask (n % 31)]), if_neg hrest, by simp [hrest]⟩
  · exact ⟨false, by rw [Bool.eq_false_iff.mpr hw]; rfl, by simp [hw]⟩

end

/-! ### `countOnes` -/

theorem countP_uniform {m c : ℕ} (hm : m ≤ 31 * c) :
    (List.range m).countP (bitAt (List.replicate c (uniform u))) = if u then m else 0 := by
  have hall : ∀ i ∈ List.range m, bitAt (List.replicate c (uniform u)) i = u :=
    fun i hi => bitAt_replicate (by have := List.mem_range.mp hi; omega)
  cases u with
  | true =>
    rw [if_pos rfl]
    have hcount := List.countP_eq_length.mpr hall
    rwa [List.length_range] at hcount
  | false =>
    rw [if_neg Bool.false_ne_true]
    exact List.countP_eq_zero.mpr fun i hi => by rw [hall i hi]; exact Bool.false_ne_true

/-- The ones of a literal, or of its masked part. -/
theorem ones_mask {m : ℕ} (hm : m ≤ 31) (hw : ∀ j < 32, m ≤ j → w.getLsbD j = false) :
    ones w = (List.range m).countP w.getLsbD := by
  have hsplit : List.range 32 = List.range m ++ (List.range (32 - m)).map (m + ·) := by
    rw [← List.range_add]
    congr 1
    omega
  rw [ones, hsplit, List.countP_append]
  have hrest : ((List.range (32 - m)).map (m + ·)).countP w.getLsbD = 0 := by
    rw [List.countP_eq_zero]
    intro j hj
    obtain ⟨k, hk, rfl⟩ := List.mem_map.mp hj
    have := List.mem_range.mp hk
    rw [hw (m + k) (by omega) (by omega)]
    exact Bool.false_ne_true
  rw [hrest, Nat.add_zero]

theorem countP_lite {m : ℕ} (hm : m ≤ 31) : (List.range m).countP (bitAt [w]) = (List.range m).countP w.getLsbD := by
  refine List.countP_congr fun j hj => ?_
  have hj := List.mem_range.mp hj
  have hfirst : [w][0]? = some w := rfl
  have hbit := bitAt_group hfirst (by omega : j < 31)
  rw [Nat.mul_zero, Nat.zero_add] at hbit
  rw [hbit]

/-- The bits in use of groups of which the last one is used in part. -/
def used (rem : ℕ) (gs : List Word) : ℕ :=
  if rem = 0 then 31 * gs.length else 31 * (gs.length - 1) + rem

/-- What one word adds, the last one or not. -/
theorem word_count {rem : ℕ} (hw : Proper w) (hrem : rem < 31) (lone : Prop) [Decidable lone] :
    (if isFill w then
      (if value w ≠ 0#32 then times (count w) - (if rem ≠ 0 ∧ lone then 31 - rem else 0) else 0)
    else ones (if rem ≠ 0 ∧ lone then value w &&& mask rem else value w)) =
      (List.range (if rem ≠ 0 ∧ lone then 31 * (count w - 1) + rem else 31 * count w)).countP
        (bitAt (List.replicate (count w) (value w))) := by
  have hpos := hw.count_pos
  cases hfill : isFill w with
  | true =>
    have hzero : value w ≠ 0#32 ↔ isOnes w = true := by
      rw [value_of_fill hfill, ← bne_iff_ne, uniform_ne_zero]
    simp only [if_true, hzero, times_eq]
    rw [value_of_fill hfill]
    by_cases hlast : rem ≠ 0 ∧ lone
    · rw [if_pos hlast, if_pos hlast, countP_uniform (by omega)]
      split <;> omega
    · rw [if_neg hlast, if_neg hlast, countP_uniform le_rfl, Nat.sub_zero]
  | false =>
    have htop : w.getLsbD 31 = false := by rw [← isFill_eq, hfill]
    rw [if_neg Bool.false_ne_true, value_of_lite hfill, count_of_lite hfill]
    by_cases hlast : rem ≠ 0 ∧ lone
    · have hand : ∀ j, (w &&& mask rem).getLsbD j = (w.getLsbD j && decide (j < rem)) := fun j => by
        rw [BitVec.getLsbD_and, getLsbD_mask (by omega)]
      rw [if_pos hlast, if_pos hlast, Nat.sub_self, Nat.mul_zero, Nat.zero_add,
        ones_mask (by omega : rem ≤ 31) fun j _ hj => by rw [hand, decide_eq_false (by omega), Bool.and_false]]
      refine (List.countP_congr fun j hj => ?_).trans (countP_lite (by omega)).symm
      rw [hand, decide_eq_true (List.mem_range.mp hj), Bool.and_true]
    · rw [if_neg hlast, if_neg hlast, Nat.mul_one,
        ones_mask le_rfl fun j hj hout => by rw [show j = 31 by omega, htop]]
      exact (countP_lite le_rfl).symm

theorem countFrom_eq {rem : ℕ} (hrem : rem < 31) (hl : ∀ w ∈ l, Proper w) (hne : l ≠ []) :
    countFrom rem l = (List.range (used rem (groups l))).countP (bitAt (groups l)) := by
  induction l with
  | nil => exact absurd rfl hne
  | cons w rest ih =>
    have hw := hl w List.mem_cons_self
    have hpos := hw.count_pos
    rw [countFrom, word_count hw hrem]
    cases rest with
    | nil =>
      have hused : used rem (groups [w]) =
          if rem ≠ 0 ∧ ([] : List Word) = [] then 31 * (count w - 1) + rem else 31 * count w := by
        rw [used, groups_cons, groups_nil, List.append_nil, List.length_replicate]
        by_cases hzero : rem = 0 <;> simp [hzero]
      rw [← hused, countFrom, Nat.add_zero, groups_cons, groups_nil, List.append_nil]
    | cons x rest =>
      have hx := (hl x (by simp)).count_pos
      have hused : used rem (groups (w :: x :: rest)) = 31 * count w + used rem (groups (x :: rest)) := by
        simp only [used, groups_cons, List.length_append, List.length_replicate]
        split <;> omega
      rw [if_neg fun h => List.cons_ne_nil x rest h.2,
        ih (fun y hy => hl y (List.mem_cons_of_mem w hy)) (List.cons_ne_nil x rest),
        hused, List.range_add, List.countP_append, List.countP_map]
      congr 1
      · refine List.countP_congr fun j hj => ?_
        have hj := List.mem_range.mp hj
        rw [groups_cons (w := w), bitAt_append_left (by rw [List.length_replicate]; exact hj)]
      · refine List.countP_congr fun j _ => ?_
        have hright := bitAt_append_right (List.replicate (count w) (value w)) (groups (x :: rest)) j
        rw [List.length_replicate, ← groups_cons] at hright
        rw [Function.comp_apply, hright]

theorem countOnes_eq (hv : Represents n v f) (hn : 0 < n) : v.countOnes = (List.range n).countP f := by
  have hlength := hv.length
  have hused : used (n % 31) (groups v.words) = n := by
    rw [used, hlength]
    split <;> omega
  rw [countOnes, hv.rem, countFrom_eq (Nat.mod_lt n (by decide)) hv.normal.proper (hv.words_ne_nil hn), hused]
  refine List.countP_congr fun i hi => ?_
  rw [hv.bits i (List.mem_range.mp hi)]

end Otawa.Elm.WAHVector
