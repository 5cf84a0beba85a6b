import Otawa.Elm.WahGroups

/-!
# The bits that a compressed vector represents

`Represents n v f` says that the vector has the bits of `f` below `n`, that its words are normal, and that a last
group kept as a literal is masked and not uniform. `fix` makes such a vector from the words of a builder, unless
it falls into the trap: a last group that the mask makes uniform, after a literal whose top bit has its value,
is added to the literal as if the literal were a fill.
-/

namespace Otawa.Elm.WAHVector

variable {n i k r : ℕ} {v : Bool} {w : Word} {b l : List Word} {f : ℕ → Bool}

/-! ### Division by 31 -/

/-- The division and the remainder are exact up to this size. -/
theorem div_eq (hk : k < 4638219) : div k = k / 31 := by
  have hfactor : 2 ^ 32 / 31 + 30 = 138547362 := by decide
  rw [div, hfactor]
  omega

theorem times_eq (k : ℕ) : times k = 31 * k := by
  unfold times
  omega

theorem mod_eq (hk : k < 4638219) : (mod k).toNat = k % 31 := by
  rw [mod, times_eq, div_eq hk]
  omega

/-- Beyond it they are not. -/
theorem div_exact_iff : (∀ k ≤ n, div k = k / 31) ↔ n < 4638219 := by
  constructor
  · intro hall
    by_contra hlarge
    have hwrong : div 4638219 = 4638219 / 31 := hall 4638219 (by omega)
    exact absurd hwrong (by decide)
  · intro hn k hk
    exact div_eq (by omega)

theorem bitOf_eq (hi : i < 4638219) : bitOf i = BitVec.twoPow 32 (i % 31) := by
  rw [bitOf, mod_eq hi]
  rfl

theorem mask_eq : ∀ r < 32, mask r = BitVec.ofNat 32 (2 ^ r - 1) := by
  decide

theorem getLsbD_mask (hr : r < 32) (i : ℕ) : (mask r).getLsbD i = decide (i < r) := by
  rw [mask_eq r hr, BitVec.getLsbD_ofNat, Nat.testBit_two_pow_sub_one]
  by_cases hi : i < r
  · simp [hi, hi.trans hr]
  · simp [hi]

/-! ### Bits of groups -/

/-- The bit of the groups. -/
def bitAt (gs : List Word) (i : ℕ) : Bool :=
  (gs.getD (i / 31) 0#32).getLsbD (i % 31)

theorem bitAt_group {gs : List Word} {g : Word} (hg : gs[k]? = some g) (hi : i < 31) :
    bitAt gs (31 * k + i) = g.getLsbD i := by
  have hdiv : (31 * k + i) / 31 = k := by omega
  have hmod : (31 * k + i) % 31 = i := by omega
  rw [bitAt, hdiv, hmod, List.getD_eq_getElem?_getD, hg]
  rfl

theorem bitAt_eq {gs : List Word} {g : Word} (hg : gs[i / 31]? = some g) : bitAt gs i = g.getLsbD (i % 31) := by
  rw [bitAt, List.getD_eq_getElem?_getD, hg]
  rfl

theorem getElem?_lt {gs : List Word} (hlt : k < gs.length) : ∃ g, gs[k]? = some g :=
  ⟨_, List.getElem?_eq_getElem hlt⟩

/-- Two words that agree on the bits in use may stand for the last group. -/
theorem bitAt_last {gs : List Word} {g g' : Word} (hgs : gs.length = n / 31)
    (hsame : ∀ j < n % 31, g.getLsbD j = g'.getLsbD j) (hi : i < n) : bitAt (gs ++ [g]) i = bitAt (gs ++ [g']) i := by
  by_cases hlast : i / 31 < gs.length
  · simp only [bitAt, List.getD_eq_getElem?_getD, List.getElem?_append_left hlast]
  · have hi31 : i / 31 = gs.length := by omega
    simp only [bitAt, List.getD_eq_getElem?_getD, hi31, List.getElem?_concat_length, Option.getD_some]
    exact hsame (i % 31) (by omega)

/-- Some bits of the function are set and some are clear. -/
structure Mixed (f : ℕ → Bool) (start len : ℕ) : Prop where
  set : ∃ j < len, f (start + j) = true
  clear : ∃ j < len, f (start + j) = false

theorem Mixed.both {start len : ℕ} (h : Mixed f start len) (v : Bool) : ∃ j < len, f (start + j) = v := by
  cases v
  · exact h.clear
  · exact h.set

/-- A literal that is proper has set bits and clear bits. -/
theorem Proper.both (hw : Proper w) (hlite : isFill w = false) (v : Bool) : ∃ j < 31, w.getLsbD j = v := by
  by_contra hnone
  push Not at hnone
  refine hw.lite hlite (!v) (group_ext ?_ (uniform_top _) fun i hi => ?_)
  · rw [← isFill_eq, hlite]
  · rw [getLsbD_uniform hi]
    exact Bool.eq_not.mpr (hnone i hi)

theorem Proper.mixed {gs : List Word} (hw : Proper w) (hlite : isFill w = false) (hg : gs[k]? = some w) :
    Mixed (bitAt gs) (31 * k) 31 := by
  obtain ⟨j, hj, hset⟩ := hw.both hlite true
  obtain ⟨j', hj', hclear⟩ := hw.both hlite false
  exact ⟨⟨j, hj, (bitAt_group hg hj).trans hset⟩, ⟨j', hj', (bitAt_group hg hj').trans hclear⟩⟩

/-! ### Vectors -/

/-- The vector has the bits of the function. -/
structure Represents (n : ℕ) (v : WAHVector) (f : ℕ → Bool) : Prop where
  rem : v.rem = n % 31
  normal : Normal v.words
  length : (groups v.words).length = (n + 30) / 31
  masked : n % 31 ≠ 0 → ∀ w, v.words.getLast? = some w → isFill w = false →
    (∀ i, n % 31 ≤ i → w.getLsbD i = false) ∧ ∃ i < n % 31, w.getLsbD i = false
  bits : ∀ i < n, bitAt (groups v.words) i = f i

/-- The last group, used in part, is about to be taken for a continuation of the literal before it. -/
structure Trap (n : ℕ) (f : ℕ → Bool) (v : Bool) : Prop where
  part : n % 31 ≠ 0
  second : 31 ≤ n
  last : Mixed f (31 * (n / 31)) 31
  same : ∀ j < n % 31, f (31 * (n / 31) + j) = v
  prev : Mixed f (31 * (n / 31 - 1)) 31
  top : f (31 * (n / 31) - 1) = v

theorem length_pos (hn : 0 < n) (hlength : (built b).length = (n + 30) / 31) : b ≠ [] := by
  rintro rfl
  rw [built_nil, List.length_nil] at hlength
  omega

/-- What `absorb` gives when it is not given a literal that passes the test. -/
theorem absorb_pushed {test : Word → Bool} (hb : Normal b) (hk : (built b).length + 1 < 2 ^ 30)
    (hfill : ∀ w, isFill w = true → (test w = true ↔ isOnes w = v))
    (hlite : ∀ w rest, b = w :: rest → isFill w = false → test w = false) :
    Pushed b (absorb test v b) [uniform v] true v := by
  have hone : 1 < 2 ^ 30 := by decide
  have hraw : (∀ w ∈ b.head?, Apart (fill 1 v) w) → Pushed b (fill 1 v :: b) [uniform v] true v := by
    intro happart
    refine ⟨normal_cons (proper_fill le_rfl hone) hb happart, ?_, _, b, rfl, isFill_fill 1 v,
      fun _ => isOnes_fill hone v⟩
    rw [built_cons, count_fill hone, value_fill hone]
    rfl
  cases b with
  | nil => exact hraw fun w hw => absurd hw (by simp)
  | cons prev rest =>
    rw [absorb]
    have hcount := count_le_built prev rest
    by_cases htest : test prev = true
    · rw [if_pos htest]
      have hprev : isFill prev = true := by
        by_contra hnot
        rw [hlite prev rest rfl (Bool.eq_false_iff.mpr hnot)] at htest
        cases htest
      have hones := (hfill prev hprev).mp htest
      have hsum : fillCount prev + 1 < 2 ^ 30 := by
        rw [← count_of_fill hprev]
        omega
      have hnew : prev + 1#32 = fill (fillCount prev + 1) v := by
        rw [← fill_add hsum, ← hones, ← eq_fill hprev]
      rw [hnew]
      refine ⟨hb.replace_head (proper_fill (by omega) hsum) ?_ ?_, ?_, _, rest, rfl, isFill_fill _ _,
        fun _ => isOnes_fill hsum _⟩
      · rw [isFill_fill, hprev]
      · exact fun _ => (isOnes_fill hsum v).trans hones.symm
      · rw [built_cons, built_cons, count_fill hsum, value_fill hsum, count_of_fill hprev, value_of_fill hprev, hones,
          List.append_assoc, ← List.replicate_succ']
    · rw [if_neg htest]
      refine hraw fun w hw => ?_
      cases hw
      intro _ hprev heq
      rw [isOnes_fill hone] at heq
      exact htest ((hfill prev hprev).mpr heq.symm)

/-- A vector made of the words of a builder. -/
theorem represents_of_built {b' : Builder} (hb : Normal b') (hlength : (built b').length = (n + 30) / 31)
    (hbits : ∀ i < n, bitAt (built b') i = f i)
    (hmasked : n % 31 ≠ 0 → ∀ w rest, b' = w :: rest → isFill w = false →
      (∀ i, n % 31 ≤ i → w.getLsbD i = false) ∧ ∃ i < n % 31, w.getLsbD i = false) :
    Represents n ⟨n % 31, b'.reverse⟩ f where
  rem := rfl
  normal := hb.reverse
  length := hlength
  masked := by
    intro hpart w hw hlite
    rw [List.getLast?_reverse] at hw
    cases b' with
    | nil => cases hw
    | cons x rest =>
      cases hw
      exact hmasked hpart w rest rfl hlite
  bits := hbits

section LastLiteral

variable {last : Word} {rest : Builder} (hpart : n % 31 ≠ 0) (hlite : isFill last = false)
  (hb : Normal (last :: rest)) (hlength : (built (last :: rest)).length = (n + 30) / 31)

omit hpart hlite hb hlength in
theorem built_lite (hlite : isFill last = false) : built (last :: rest) = built rest ++ [last] := by
  rw [built_cons, count_of_lite hlite, value_of_lite hlite]
  rfl

omit hpart hlite hb hlength in
theorem getLsbD_masked (i : ℕ) :
    (last &&& mask (n % 31)).getLsbD i = (last.getLsbD i && decide (i < n % 31)) := by
  rw [BitVec.getLsbD_and, getLsbD_mask (by omega)]

include hpart hlite hlength

omit hb in
theorem length_before : (built rest).length = n / 31 := by
  rw [built_lite hlite, List.length_append, List.length_singleton] at hlength
  omega

omit hb in
/-- A new last group that agrees with the literal on the bits in use. -/
theorem represents_of_last (hbits : ∀ i < n, bitAt (built (last :: rest)) i = f i) {b' : Builder} {g : Word}
    (hb' : Normal b') (hbuilt : built b' = built rest ++ [g]) (hsame : ∀ j < n % 31, g.getLsbD j = last.getLsbD j)
    (hmasked : ∀ w r, b' = w :: r → isFill w = false →
      (∀ i, n % 31 ≤ i → w.getLsbD i = false) ∧ ∃ i < n % 31, w.getLsbD i = false) :
    Represents n ⟨n % 31, b'.reverse⟩ f := by
  refine represents_of_built hb' ?_ (fun i hi => ?_) fun _ => hmasked
  · rw [hbuilt, ← hlength, built_lite hlite, List.length_append, List.length_append]
    rfl
  · rw [hbuilt, bitAt_last (length_before hpart hlite hlength) hsame hi, ← built_lite hlite]
    exact hbits i hi

include hb

/-- A last group that the mask makes uniform goes into the word before, outside the trap. -/
theorem represents_of_absorb (hbound : n < 2 ^ 30) (hbits : ∀ i < n, bitAt (built (last :: rest)) i = f i)
    (hsafe : ∀ v, ¬ Trap n (bitAt (built (last :: rest))) v) {test : Word → Bool} {v : Bool}
    (htest : ∀ w, test w = (isOnes w == v)) (hv : ∀ j < n % 31, last.getLsbD j = v) :
    Represents n ⟨n % 31, (absorb test v rest).reverse⟩ f := by
  have hbuilt : built (last :: rest) = built rest ++ [last] := built_lite hlite
  have hrest := length_before hpart hlite hlength
  have hq : (built (last :: rest))[n / 31]? = some last := by
    rw [hbuilt, ← hrest, List.getElem?_concat_length]
  have hpushed : Pushed rest (absorb test v rest) [uniform v] true v := by
    refine absorb_pushed hb.tail (by omega) (fun w _ => ?_) fun prev rest' hrest' hprev => ?_
    · rw [htest, beq_iff_eq]
    · rw [htest, Bool.eq_false_iff]
      intro hones
      rw [beq_iff_eq, isOnes_eq] at hones
      subst hrest'
      have hbuilt' : built (prev :: rest') = built rest' ++ [prev] := built_lite hprev
      have hlength' : (built rest').length = n / 31 - 1 := by
        rw [hbuilt', List.length_append, List.length_singleton] at hrest
        omega
      have hsecond : 31 ≤ n := by
        rw [hbuilt', List.length_append, List.length_singleton] at hrest
        omega
      have hq' : (built (last :: prev :: rest'))[n / 31 - 1]? = some prev := by
        rw [hbuilt, List.getElem?_append_left (by omega), hbuilt', ← hlength', List.getElem?_concat_length]
      refine hsafe v ⟨hpart, hsecond, hb.head.mixed hlite hq, fun j hj => ?_, hb.tail.head.mixed hprev hq', ?_⟩
      · rw [bitAt_group hq (by omega)]
        exact hv j hj
      · have htop : 31 * (n / 31) - 1 = 31 * (n / 31 - 1) + 30 := by omega
        rw [htop, bitAt_group hq' (by decide)]
        exact hones
  obtain ⟨w, r, heq, hfill, -⟩ := hpushed.head
  refine represents_of_last hpart hlite hlength hbits hpushed.normal hpushed.built (fun j hj => ?_)
    fun w' r' heq' hlite' => ?_
  · rw [getLsbD_uniform (by omega), hv j hj]
  · rw [heq] at heq'
    cases heq'
    rw [hfill] at hlite'
    cases hlite'

/-- A last group that stays mixed is masked. -/
theorem represents_of_mask (hbits : ∀ i < n, bitAt (built (last :: rest)) i = f i)
    (hzero : last &&& mask (n % 31) ≠ 0#32) (hones : last &&& mask (n % 31) ≠ mask (n % 31)) :
    Represents n ⟨n % 31, ((last &&& mask (n % 31)) :: rest).reverse⟩ f := by
  have htop : (last &&& mask (n % 31)).getLsbD 31 = false := by
    rw [getLsbD_masked, ← isFill_eq, hlite, Bool.false_and]
  have hmlite : isFill (last &&& mask (n % 31)) = false := isFill_group htop
  have hclear : ∃ i < n % 31, (last &&& mask (n % 31)).getLsbD i = false := by
    by_contra hnone
    push Not at hnone
    refine hones (BitVec.eq_of_getLsbD_eq fun i _ => ?_)
    rw [getLsbD_mask (by omega)]
    by_cases hi : i < n % 31
    · rw [decide_eq_true hi]
      exact Bool.eq_true_of_not_eq_false (hnone i hi)
    · rw [getLsbD_masked, decide_eq_false hi, Bool.and_false]
  have hproper : Proper (last &&& mask (n % 31)) := by
    refine ⟨fun hfill => ?_, fun _ v hv => ?_⟩
    · rw [hmlite] at hfill
      cases hfill
    · obtain ⟨i, hi, hbit⟩ := hclear
      rw [hv, getLsbD_uniform (by omega)] at hbit
      subst hbit
      exact hzero hv
  have hnormal : Normal ((last &&& mask (n % 31)) :: rest) :=
    hb.replace_head hproper (hmlite.trans hlite.symm) fun hfill => by rw [hlite] at hfill; cases hfill
  refine represents_of_last hpart hlite hlength hbits hnormal (built_lite hmlite) (fun j hj => ?_)
    fun w' r' heq' _ => ?_
  · rw [getLsbD_masked, decide_eq_true hj, Bool.and_true]
  · cases heq'
    refine ⟨fun i hi => ?_, hclear⟩
    rw [getLsbD_masked, decide_eq_false (by omega), Bool.and_false]

end LastLiteral

/-- `fix` makes a vector of the words of a builder, outside the trap. -/
theorem fix_represents (hn : 0 < n) (hbound : n < 2 ^ 30) (hb : Normal b)
    (hlength : (built b).length = (n + 30) / 31) (hbits : ∀ i < n, bitAt (built b) i = f i)
    (hsafe : ∀ v, ¬ Trap n (bitAt (built b)) v) : Represents n ⟨n % 31, fix (n % 31) b⟩ f := by
  obtain ⟨last, rest, rfl⟩ := List.exists_cons_of_ne_nil (length_pos hn hlength)
  by_cases hcond : n % 31 ≠ 0 ∧ isLite last = true
  · obtain ⟨hpart, hlast⟩ := hcond
    have hlite : isFill last = false := by rwa [isLite, Bool.not_eq_true'] at hlast
    rw [fix, if_pos ⟨hpart, hlast⟩]
    by_cases hzero : last &&& mask (n % 31) = 0#32
    · simp only [if_pos hzero]
      refine represents_of_absorb hpart hlite hb hlength hbound hbits hsafe (v := false)
        (fun w => by rw [isZeroes]; cases isOnes w <;> rfl) fun j hj => ?_
      rw [← Bool.and_true (last.getLsbD j), ← decide_eq_true hj, ← getLsbD_masked, hzero, BitVec.getLsbD_zero]
    · by_cases hones : last &&& mask (n % 31) = mask (n % 31)
      · simp only [if_neg hzero, if_pos hones]
        refine represents_of_absorb hpart hlite hb hlength hbound hbits hsafe (v := true)
          (fun w => by cases isOnes w <;> rfl) fun j hj => ?_
        rw [← Bool.and_true (last.getLsbD j), ← decide_eq_true hj, ← getLsbD_masked, hones,
          getLsbD_mask (by omega)]
      · simp only [if_neg hzero, if_neg hones]
        exact represents_of_mask hpart hlite hb hlength hbits hzero hones
  · rw [fix, if_neg hcond]
    refine represents_of_built hb hlength hbits fun hpart w r heq hlite => ?_
    cases heq
    exact absurd ⟨hpart, by rw [isLite, hlite]; rfl⟩ hcond

/-- The last group of a vector is uniform, or it is masked and mixed. -/
theorem Represents.tail {v : WAHVector} (hv : Represents n v f) (hpart : n % 31 ≠ 0) :
    (∃ u, ∀ j < 31, bitAt (groups v.words) (31 * (n / 31) + j) = u) ∨
      ((∀ j < 31, n % 31 ≤ j → bitAt (groups v.words) (31 * (n / 31) + j) = false) ∧
        Mixed (bitAt (groups v.words)) (31 * (n / 31)) (n % 31)) := by
  have hlength := hv.length
  have hne : v.words ≠ [] := by
    intro hnil
    rw [hnil, groups_nil, List.length_nil] at hlength
    omega
  obtain ⟨front, w, heq⟩ := List.eq_nil_or_concat v.words |>.resolve_left hne
  have hproper : Proper w := hv.normal.proper w (by rw [heq]; simp)
  have hgroups : groups v.words = groups front ++ List.replicate (count w) (value w) := by
    rw [heq, List.concat_eq_append, groups_append, groups_cons, groups_nil, List.append_nil]
  have hpos := hproper.count_pos
  have hq : (groups v.words)[n / 31]? = some (value w) := by
    rw [hgroups, List.length_append, List.length_replicate] at hlength
    rw [hgroups, List.getElem?_append_right (by omega), List.getElem?_replicate, if_pos (by omega)]
  cases hfill : isFill w with
  | true =>
    refine .inl ⟨isOnes w, fun j hj => ?_⟩
    rw [bitAt_group hq hj, value_of_fill hfill, getLsbD_uniform hj]
  | false =>
    rw [value_of_lite hfill] at hq
    have hlast : v.words.getLast? = some w := by rw [heq]; simp
    obtain ⟨hpad, i, hi, hclear⟩ := hv.masked hpart w hlast hfill
    obtain ⟨j, hj, hset⟩ := hproper.both hfill true
    have hj' : j < n % 31 := by
      by_contra hout
      rw [hpad j (by omega)] at hset
      cases hset
    refine .inr ⟨fun k hk hout => ?_, ⟨j, hj', ?_⟩, ⟨i, hi, ?_⟩⟩
    · rw [bitAt_group hq hk, hpad k hout]
    · rw [bitAt_group hq hj, hset]
    · rw [bitAt_group hq (by omega), hclear]

end Otawa.Elm.WAHVector
