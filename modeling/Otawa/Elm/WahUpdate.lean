import Otawa.Elm.WahBits

/-!
# Setting and clearing a bit

The word of the index is rewritten, and a fill of the other value is split around the group of the index. The
groups before and after are the ones there were.
-/

namespace Otawa.Elm.WAHVector

variable {n i : ℕ} {w : Word} {b l : List Word} {f : ℕ → Bool}

/-- A group with the bit of an index written. -/
def updated (value : Bool) (index : ℕ) (g : Word) : Word :=
  if value then g ||| bitOf index else g &&& ~~~bitOf index

theorem getLsbD_updated {value : Bool} {g : Word} (hi : i < 4638219) {j : ℕ} (hj : j < 32) :
    (updated value i g).getLsbD j = if j = i % 31 then value else g.getLsbD j := by
  have hbit : (bitOf i).getLsbD j = decide (i % 31 = j) := by
    rw [bitOf_eq hi, BitVec.getLsbD_twoPow, decide_eq_true (by omega), Bool.true_and]
  cases value
  · rw [updated, if_neg Bool.false_ne_true, BitVec.getLsbD_and, BitVec.getLsbD_not, hbit, decide_eq_true hj]
    by_cases hji : j = i % 31
    · simp [hji]
    · simp [hji, Ne.symm hji]
  · rw [updated, if_pos rfl, BitVec.getLsbD_or, hbit]
    by_cases hji : j = i % 31
    · simp [hji]
    · simp [hji, Ne.symm hji]

theorem updated_top (value : Bool) {g : Word} (hi : i < 4638219) (hg : g.getLsbD 31 = false) :
    (updated value i g).getLsbD 31 = false := by
  rw [getLsbD_updated hi (by decide), if_neg (by omega), hg]

/-- Writing the value that a uniform group has leaves it. -/
theorem updated_same {value : Bool} (hi : i < 4638219) : updated value i (uniform value) = uniform value := by
  refine group_ext (updated_top _ hi (uniform_top _)) (uniform_top _) fun j hj => ?_
  rw [getLsbD_updated hi (by omega), getLsbD_uniform hj, ite_self]

/-- Writing the other value into a uniform group makes a group that is not uniform. -/
theorem updated_ne_uniform {value u : Bool} (hi : i < 4638219) : updated value i (uniform !value) ≠ uniform u := by
  intro heq
  have hthere := congrArg (fun g => BitVec.getLsbD g (i % 31)) heq
  have helse := congrArg (fun g => BitVec.getLsbD g ((i + 1) % 31)) heq
  rw [getLsbD_updated hi (by omega), if_pos rfl, getLsbD_uniform (by omega)] at hthere
  rw [getLsbD_updated hi (by omega), if_neg (by omega), getLsbD_uniform (by omega), getLsbD_uniform (by omega)] at helse
  rw [← hthere] at helse
  cases value <;> cases helse

theorem replicate_split {g : Word} {c p : ℕ} (hp : p < c) :
    List.replicate c g = List.replicate p g ++ g :: List.replicate (c - p - 1) g := by
  rw [← List.replicate_succ, List.replicate_append_replicate]
  congr 1
  omega

/-- The words of a builder with those that follow. -/
theorem Normal.parts (h : Normal (l.reverse ++ b)) : Normal l ∧ Normal b := by
  constructor
  · have hl : Normal l.reverse := by
      refine ⟨fun w hw => h.proper w (List.mem_append_left _ hw), (List.isChain_append.mp h.apart).1⟩
    have hrev := hl.reverse
    rwa [List.reverse_reverse] at hrev
  · exact ⟨fun w hw => h.proper w (List.mem_append_right _ hw), (List.isChain_append.mp h.apart).2.1⟩

/-- The result of an update: the group of the index is written. -/
structure Written (value : Bool) (index : ℕ) (gs gs' : List Word) : Prop where
  split : ∃ before g after, gs = before ++ g :: after ∧ before.length = index / 31 ∧
    gs' = before ++ updated value index g :: after

theorem written_intro (value : Bool) {before : List Word} (g : Word) (after : List Word) (hlength : before.length = i / 31) :
    Written value i (before ++ g :: after) (before ++ updated value i g :: after) :=
  ⟨before, g, after, rfl, hlength, rfl⟩

/-- The current word is a fill of the other value: it is split around the group. -/
theorem split_written {value : Bool} (hi : i < 4638219) (hfill : isFill w = true)
    (hother : (value' : Bool) → value' = isOnes w → value' = !value) (hnormal : Normal (l.reverse ++ w :: b))
    (hlo : 31 * (built b).length ≤ i) (hhi : i < 31 * ((built b).length + count w))
    (hk : (built b).length + count w + (groups l).length < 2 ^ 30) (b1 b2 b3 : Builder)
    (hb1 : b1 = if div (i - 31 * (built b).length) ≠ 0 then
      pushRaw b (fill (div (i - 31 * (built b).length)) (!value)) else b)
    (hb2 : b2 = pushLite b1 (updated value i (uniform !value)))
    (hb3 : b3 = if count w - div (i - 31 * (built b).length) - 1 ≠ 0 then
      pushRaw b2 (fill (count w - div (i - 31 * (built b).length) - 1) (!value)) else b2) :
    Normal (pushTail b3 l) ∧ Written value i (built b ++ groups (w :: l)) (built (pushTail b3 l)) := by
  have hones : isOnes w = !value := hother _ rfl
  have hvalue : WAHVector.value w = uniform !value := by rw [value_of_fill hfill, hones]
  have hdiv : div (i - 31 * (built b).length) = i / 31 - (built b).length := by
    rw [div_eq (by omega)]
    omega
  rw [hdiv] at hb1 hb3
  have hwb : Normal (w :: b) := hnormal.parts.2
  -- the groups before
  have h1 : Normal b1 ∧ built b1 = built b ++ List.replicate (i / 31 - (built b).length) (uniform !value) := by
    by_cases hzero : i / 31 - (built b).length = 0
    · rw [hb1, if_neg (not_not.mpr hzero), hzero]
      exact ⟨hwb.tail, by simp⟩
    · have hlt : i / 31 - (built b).length < 2 ^ 30 := by omega
      rw [hb1, if_pos hzero, pushRaw, built_cons, count_fill hlt, value_fill hlt]
      refine ⟨hwb.replace_head (proper_fill (by omega) hlt) ?_ ?_, rfl⟩
      · rw [isFill_fill, hfill]
      · intro _
        rw [isOnes_fill hlt, hones]
  have hlen1 : (built b1).length = i / 31 := by
    rw [h1.2, List.length_append, List.length_replicate]
    omega
  -- the group of the index
  have h2 : Normal b2 ∧ b2 = updated value i (uniform !value) :: b1 := by
    have hk1 : (built b1).length + 1 < 2 ^ 30 := by omega
    obtain ⟨fl, o, hpushed, huniform, hraw⟩ := pushLite_pushed h1.1 (updated_top value hi (uniform_top (!value))) hk1
    cases fl with
    | true =>
      obtain ⟨u, hu⟩ := huniform rfl
      exact absurd hu (updated_ne_uniform hi)
    | false =>
      rw [hb2]
      exact ⟨hpushed.normal, hraw rfl⟩
  have hlite : isFill (updated value i (uniform !value)) = false :=
    isFill_group (updated_top _ hi (uniform_top _))
  have hbuilt2 : built b2 = built b1 ++ [updated value i (uniform !value)] := by
    rw [h2.2, built_cons, count_of_lite hlite, value_of_lite hlite]
    rfl
  -- the groups after
  have h3 : Normal b3 ∧ built b3 =
      built b2 ++ List.replicate (count w - (i / 31 - (built b).length) - 1) (uniform !value) := by
    by_cases hzero : count w - (i / 31 - (built b).length) - 1 = 0
    · rw [hb3, if_neg (not_not.mpr hzero), hzero]
      exact ⟨h2.1, by simp⟩
    · have hlt : count w - (i / 31 - (built b).length) - 1 < 2 ^ 30 := by omega
      rw [hb3, if_pos hzero, pushRaw, built_cons, count_fill hlt, value_fill hlt]
      refine ⟨normal_cons (proper_fill (by omega) hlt) h2.1 fun x hx _ hfx => ?_, rfl⟩
      rw [h2.2] at hx
      cases hx
      rw [hlite] at hfx
      cases hfx
  have hlen3 : (built b3).length = (built b).length + count w := by
    rw [h3.2, hbuilt2]
    simp only [List.length_append, List.length_replicate, List.length_singleton, hlen1]
    omega
  obtain ⟨hnormal', hbuilt'⟩ := pushTail_pushed h3.1 hnormal.parts.1 (by omega)
  refine ⟨hnormal', ?_⟩
  rw [hbuilt', h3.2, hbuilt2, groups_cons, hvalue,
    replicate_split (g := uniform !value) (show i / 31 - (built b).length < count w by omega)]
  have hwritten := written_intro value (uniform !value)
    (List.replicate (count w - (i / 31 - (built b).length) - 1) (uniform !value) ++ groups l) hlen1
  rw [h1.2] at hwritten ⊢
  simpa only [List.append_assoc, List.cons_append, List.nil_append] using hwritten

/-- The loop of `set(index)` and `clear(index)` writes the group of the index. -/
theorem updateFrom_written (value : Bool) (hi : i < 4638219) (l : List Word) (b : Builder)
    (hnormal : Normal (l.reverse ++ b)) (hlo : 31 * (built b).length ≤ i)
    (hhi : i < 31 * ((built b).length + (groups l).length))
    (hk : (built b).length + (groups l).length < 2 ^ 30) :
    ∃ b', updateFrom value i (31 * (built b).length) b l = some b' ∧ Normal b' ∧
      Written value i (built b ++ groups l) (built b') := by
  induction l generalizing b with
  | nil =>
    rw [groups_nil, List.length_nil] at hhi
    omega
  | cons w rest ih =>
    have hnormal' : Normal (rest.reverse ++ w :: b) := by
      rwa [List.reverse_cons, List.append_assoc, List.singleton_append] at hnormal
    obtain ⟨hrest, hwb⟩ := hnormal'.parts
    have hlength : (built (w :: b)).length = (built b).length + count w := by
      rw [built_cons, List.length_append, List.length_replicate]
    have hlength' : (groups (w :: rest)).length = count w + (groups rest).length := by
      rw [groups_cons, List.length_append, List.length_replicate]
    rw [hlength'] at hhi hk
    have htop : 31 * (built b).length + times (count w) = 31 * (built (w :: b)).length := by
      rw [times_eq, hlength]
      omega
    unfold updateFrom
    simp only [htop]
    by_cases hbefore : 31 * (built (w :: b)).length ≤ i
    · rw [if_pos (.inr hbefore)]
      obtain ⟨b', hb', hnorm, hwritten⟩ := ih (w :: b) hnormal' hbefore (by omega) (by omega)
      refine ⟨b', hb', hnorm, ?_⟩
      rwa [built_cons, List.append_assoc, ← groups_cons] at hwritten
    · rw [if_neg (by omega)]
      cases hfill : isFill w with
      | false =>
        have hcount := count_of_lite hfill
        have hindex : (built b).length = i / 31 := by omega
        have hg : (updated value i w).getLsbD 31 = false := updated_top _ hi (by rw [← isFill_eq, hfill])
        obtain ⟨_, _, hpushed, -⟩ := pushLite_pushed hwb.tail hg (by omega)
        have hlen : (built (pushLite b (updated value i w))).length = (built b).length + 1 := by
          rw [hpushed.built, List.length_append, List.length_singleton]
        obtain ⟨hnorm, hbuilt⟩ := pushTail_pushed hpushed.normal hrest (by omega)
        refine ⟨pushTail (pushLite b (updated value i w)) rest, ?_, hnorm, ?_⟩
        · rw [Bool.not_false, if_pos rfl, value_of_lite hfill]
          rfl
        · rw [hbuilt, hpushed.built, groups_cons, hcount, value_of_lite hfill, List.append_assoc]
          exact written_intro value w (groups rest) hindex
      | true =>
        have hones : (WAHVector.value w != 0#32) = isOnes w := by
          rw [value_of_fill hfill, uniform_ne_zero]
        rw [Bool.not_true, if_neg Bool.false_ne_true]
        simp only [hones]
        by_cases hsame : isOnes w = value
        · rw [if_pos hsame]
          obtain ⟨hnorm, hbuilt⟩ := pushTail_pushed hwb hrest (by omega)
          refine ⟨_, rfl, hnorm, ?_⟩
          rw [hbuilt, built_cons, groups_cons, value_of_fill hfill, hsame,
            replicate_split (g := uniform value) (show i / 31 - (built b).length < count w by omega)]
          have hlen : (built b ++ List.replicate (i / 31 - (built b).length) (uniform value)).length = i / 31 := by
            rw [List.length_append, List.length_replicate]
            omega
          have hwritten := written_intro value (uniform value)
            (List.replicate (count w - (i / 31 - (built b).length) - 1) (uniform value) ++ groups rest) hlen
          rw [updated_same hi] at hwritten
          simpa only [List.append_assoc, List.cons_append] using hwritten
        · rw [if_neg hsame]
          have hother : isOnes w = !value := by
            cases h : isOnes w <;> cases value <;> simp_all
          have hvalue : WAHVector.value w = uniform !value := by rw [value_of_fill hfill, hother]
          rw [hother]
          exact ⟨_, rfl, split_written hi hfill (fun _ h => h.trans hother) hnormal' hlo (by omega) (by omega) _ _ _ rfl
            (by rw [hvalue]; rfl) rfl⟩

/-- The bits of groups in which one has been written. -/
theorem Written.bitAt {value : Bool} {gs gs' : List Word} (h : Written value i gs gs') (hi : i < 4638219) (k : ℕ) :
    bitAt gs' k = if k = i then value else bitAt gs k := by
  obtain ⟨before, g, after, rfl, hlength, rfl⟩ := h.split
  by_cases hgroup : k / 31 = i / 31
  · have hnew : (before ++ updated value i g :: after)[k / 31]? = some (updated value i g) := by
      rw [hgroup, ← hlength, List.getElem?_append_right le_rfl, Nat.sub_self]
      rfl
    have hold : (before ++ g :: after)[k / 31]? = some g := by
      rw [hgroup, ← hlength, List.getElem?_append_right le_rfl, Nat.sub_self]
      rfl
    rw [bitAt_eq hnew, bitAt_eq hold, getLsbD_updated hi (by omega)]
    by_cases hki : k = i
    · rw [if_pos hki, if_pos (by rw [hki])]
    · rw [if_neg hki, if_neg (by omega)]
  · rw [if_neg (fun hki => hgroup (by rw [hki]))]
    have hsame : (before ++ updated value i g :: after)[k / 31]? = (before ++ g :: after)[k / 31]? := by
      obtain hlt | hge := Nat.lt_or_ge (k / 31) before.length
      · rw [List.getElem?_append_left hlt, List.getElem?_append_left hlt]
      · have hpos : k / 31 - before.length = (k / 31 - before.length - 1) + 1 := by omega
        rw [List.getElem?_append_right hge, List.getElem?_append_right hge, hpos, List.getElem?_cons_succ,
          List.getElem?_cons_succ]
    simp only [WAHVector.bitAt, List.getD_eq_getElem?_getD, hsame]

theorem Written.length {value : Bool} {gs gs' : List Word} (h : Written value i gs gs') : gs'.length = gs.length := by
  obtain ⟨before, g, after, rfl, -, rfl⟩ := h.split
  simp

/-- The bit that is written completes or empties the last group, and the literal before it has a top bit of
the same value. -/
structure UpdateTrap (n : ℕ) (f : ℕ → Bool) (i : ℕ) (value : Bool) : Prop where
  part : n % 31 ≠ 0
  second : 31 ≤ n
  last : i / 31 = n / 31
  changes : f i = !value
  others : ∀ j < n % 31, 31 * (n / 31) + j ≠ i → f (31 * (n / 31) + j) = value
  single : value = false → n % 31 = 1
  prev : Mixed f (31 * (n / 31 - 1)) 31
  top : f (31 * (n / 31) - 1) = value

/-- A vector has no trap, nor have groups that have its last group. -/
theorem Represents.not_trap {v : WAHVector} {u : Bool} {gs : List Word} (hv : Represents n v f)
    (hsame : ∀ j < 31, WAHVector.bitAt gs (31 * (n / 31) + j) = WAHVector.bitAt (groups v.words) (31 * (n / 31) + j)) :
    ¬ Trap n (WAHVector.bitAt gs) u := by
  intro htrap
  have hpart := htrap.part
  obtain ⟨u', hu'⟩ | ⟨-, hmixed⟩ := hv.tail hpart
  · obtain ⟨j, hj, hnot⟩ := htrap.last.both (!u')
    rw [hsame j hj, hu' j hj] at hnot
    cases u' <;> cases hnot
  · obtain ⟨j, hj, hnot⟩ := hmixed.both (!u)
    have hsameu := htrap.same j hj
    rw [hsame j (by omega), hnot] at hsameu
    cases u <;> cases hsameu

/-- Where the write of a clear bit empties the last group, the group has one bit. -/
theorem single_of_cleared {v : WAHVector} {gs : List Word} (hv : Represents n v f) (hin : i < n) (hi : i < 4638219)
    (hw : Written false i (groups v.words) gs) (htrap : Trap n (WAHVector.bitAt gs) false) (hlast : i / 31 = n / 31)
    (hset : f i = true) (hothers : ∀ j < n % 31, 31 * (n / 31) + j ≠ i → f (31 * (n / 31) + j) = false) :
    n % 31 = 1 := by
  have hpart := htrap.part
  have hpos : 31 * (n / 31) + i % 31 = i := by omega
  by_contra hmany
  obtain ⟨u', hu'⟩ | ⟨hpad, -⟩ := hv.tail hpart
  · -- a uniform group would have had another bit to clear
    have hown := hu' (i % 31) (by omega)
    rw [hpos, hv.bits i hin, hset] at hown
    have hj : ∃ j < n % 31, 31 * (n / 31) + j ≠ i := by
      by_cases hzero : i % 31 = 0
      · exact ⟨1, by omega, by omega⟩
      · exact ⟨0, by omega, by omega⟩
    obtain ⟨j, hjlt, hjne⟩ := hj
    have hclear := hothers j hjlt hjne
    rw [← hv.bits _ (by omega), hu' j (by omega), ← hown] at hclear
    cases hclear
  · -- a masked literal would have become the group of zeroes
    obtain ⟨j, hj, hother⟩ := htrap.last.set
    rw [hw.bitAt hi] at hother
    split at hother
    · cases hother
    · rename_i hne
      by_cases hjn : j < n % 31
      · rw [hv.bits _ (by omega), hothers j hjn hne] at hother
        cases hother
      · rw [hpad j hj (by omega)] at hother
        cases hother

theorem trap_of_written {v : WAHVector} {value u : Bool} {gs : List Word} (hv : Represents n v f) (hin : i < n)
    (hi : i < 4638219) (hw : Written value i (groups v.words) gs) (htrap : Trap n (WAHVector.bitAt gs) u) :
    UpdateTrap n f i value := by
  have hpart := htrap.part
  have hsecond := htrap.second
  have hbit := fun k => hw.bitAt hi k
  -- the index is in the last group
  have hlast : i / 31 = n / 31 := by
    by_contra hne
    refine hv.not_trap (fun j hj => ?_) htrap
    rw [hbit, if_neg (by omega)]
  have hu : u = value := by
    have hthere := htrap.same (i % 31) (by omega)
    have hpos : 31 * (n / 31) + i % 31 = i := by omega
    rw [hpos, hbit, if_pos rfl] at hthere
    exact hthere.symm
  subst hu
  have hothers : ∀ j < n % 31, 31 * (n / 31) + j ≠ i → f (31 * (n / 31) + j) = u := by
    intro j hj hne
    have hthere := htrap.same j hj
    rw [hbit, if_neg hne, hv.bits _ (by omega)] at hthere
    exact hthere
  have hprev : ∀ k < 31 * (n / 31), WAHVector.bitAt gs k = f k := by
    intro k hk
    rw [hbit, if_neg (by omega), hv.bits k (by omega)]
  have hchanges : f i = !u := by
    by_contra hne
    have hfi : f i = u := by
      cases h : f i <;> cases u <;> simp_all
    refine hv.not_trap (fun j _ => ?_) htrap
    rw [hbit]
    split
    · rename_i hki
      rw [hki, hv.bits i hin, hfi]
    · rfl
  refine ⟨hpart, hsecond, hlast, hchanges, hothers, ?_, ?_, ?_⟩
  · rintro rfl
    exact single_of_cleared hv hin hi hw htrap hlast hchanges hothers
  · obtain ⟨⟨j, hj, hset⟩, ⟨k, hk, hclear⟩⟩ := htrap.prev
    refine ⟨⟨j, hj, ?_⟩, ⟨k, hk, ?_⟩⟩
    · rw [← hprev _ (by omega), hset]
    · rw [← hprev _ (by omega), hclear]
  · rw [← hprev _ (by omega), htrap.top]

/-- `set(index)` and `clear(index)` write the bit, outside the trap. -/
theorem update_represents {v : WAHVector} {value : Bool} (hv : Represents n v f) (hin : i < n) (hn : n < 4638219)
    (hsafe : ¬ UpdateTrap n f i value) :
    ∃ v', v.update i value = some v' ∧ Represents n v' (Function.update f i value) := by
  have hlength := hv.length
  obtain ⟨b', hb', hnormal, hwritten⟩ := updateFrom_written value (i := i) (by omega) v.words []
    (by rw [List.append_nil]; exact hv.normal.reverse) (by simp) (by simp; omega) (by simp; omega)
  rw [built_nil, List.nil_append] at hwritten
  rw [built_nil, List.length_nil, Nat.mul_zero] at hb'
  refine ⟨{ v with words := fix v.rem b' }, by rw [update, hb']; rfl, ?_⟩
  rw [hv.rem]
  refine fix_represents (by omega) (by omega) hnormal (hwritten.length.trans hlength) (fun k hk => ?_)
    fun u htrap => hsafe (trap_of_written hv hin (by omega) hwritten htrap)
  rw [hwritten.bitAt (by omega), Function.update_apply]
  split
  · rfl
  · exact hv.bits k hk

end Otawa.Elm.WAHVector
