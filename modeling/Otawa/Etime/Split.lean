import Otawa.Etime.EdgeTimeBuilder

/-!
# The two time sets

The sets of configurations are those of the costs (`Collected`). If the costs are met in increasing order, the low time is
the greatest one of its set and the high time the greatest of all, and the high set has all larger configurations of each of
its own.
-/

namespace Otawa.Etime

variable {n i : ℕ} {c d : Mask} {cost : Mask → ℤ} {ms : List Mask} {confs : List ConfigSet} {s : ConfigSet}

/-! ### The masks -/

theorem mem_masks (hn : n < 32) : c ∈ masks n ↔ ∀ i, n ≤ i → c.getLsbD i = false := by
  have hpow : 2 ^ n < 2 ^ 32 := Nat.pow_lt_pow_right (Nat.lt_succ_self 1) hn
  unfold masks
  rw [List.mem_map]
  constructor
  · rintro ⟨m, hm, rfl⟩ i hi
    rw [List.mem_range] at hm
    have hle : 2 ^ n ≤ 2 ^ i := Nat.pow_le_pow_right (Nat.succ_pos 1) hi
    rw [BitVec.getLsbD_ofNat, Nat.testBit_lt_two_pow (Nat.lt_of_lt_of_le hm hle), Bool.and_false]
  · intro h
    refine ⟨c.toNat, List.mem_range.mpr ?_, BitVec.ofNat_toNat _ _⟩
    exact Nat.lt_pow_two_of_testBit c.toNat h

theorem nodup_masks (hn : n < 32) : (masks n).Nodup := by
  have hpow : 2 ^ n < 2 ^ 32 := Nat.pow_lt_pow_right (Nat.lt_succ_self 1) hn
  refine List.Nodup.map_on (fun a ha b hb heq => ?_) List.nodup_range
  have hmod := congrArg BitVec.toNat heq
  rw [List.mem_range] at ha hb
  rwa [BitVec.toNat_ofNat, BitVec.toNat_ofNat, Nat.mod_eq_of_lt (Nat.lt_trans ha hpow),
    Nat.mod_eq_of_lt (Nat.lt_trans hb hpow)] at hmod

theorem switch_on_mem_masks (hn : n < 32) (hi : i < n) (hc : c ∈ masks n) : c ||| bit i ∈ masks n := by
  rw [mem_masks hn] at hc ⊢
  intro j hj
  rw [getLsbD_switch_on (Nat.lt_trans hi hn), hc j hj, Bool.false_or, decide_eq_false_iff_not]
  exact Nat.ne_of_lt (Nat.lt_of_lt_of_le hi hj)

/-! ### The sets of the costs -/

/-- The sets have the configurations of their costs, and there is one for each cost. -/
structure Collected (cost : Mask → ℤ) (ms : List Mask) (confs : List ConfigSet) : Prop where
  mem : ∀ s ∈ confs, ∀ c, c ∈ s.confs ↔ c ∈ ms ∧ cost c = s.time
  nodup : ∀ s ∈ confs, s.confs.Nodup
  times : (confs.map ConfigSet.time).Nodup
  covers : ∀ c ∈ ms, ∃ s ∈ confs, s.time = cost c

/-- What a configuration of some cost does to the sets. -/
theorem mem_addConfig {t : ℤ} (hs : s ∈ addConfig t c confs) : s ∈ confs ∧ s.time ≠ t ∨
    (∃ s' ∈ confs, s'.time = t ∧ s = ⟨t, s'.confs ++ [c]⟩) ∨ (∀ s' ∈ confs, s'.time ≠ t) ∧ s = ⟨t, [c]⟩ ∨
      s ∈ confs ∧ ∃ s' ∈ confs, s'.time = t ∧ ¬ (confs.map ConfigSet.time).Nodup := by
  induction confs with
  | nil =>
    refine .inr (.inr (.inl ⟨fun s' hs' => absurd hs' List.not_mem_nil, ?_⟩))
    exact List.mem_singleton.mp hs
  | cons first confs ih =>
    unfold addConfig at hs
    split at hs
    · rename_i htime
      rcases List.mem_cons.mp hs with rfl | hs
      · exact .inr (.inl ⟨first, List.mem_cons_self, htime, by rw [htime]⟩)
      · by_cases hst : s.time = t
        · refine .inr (.inr (.inr ⟨List.mem_cons_of_mem _ hs, first, List.mem_cons_self, htime, fun hnodup => ?_⟩))
          rw [List.map_cons, List.nodup_cons] at hnodup
          exact hnodup.1 (List.mem_map.mpr ⟨s, hs, hst.trans htime.symm⟩)
        · exact .inl ⟨List.mem_cons_of_mem _ hs, hst⟩
    · rename_i htime
      rcases List.mem_cons.mp hs with rfl | hs
      · exact .inl ⟨List.mem_cons_self, htime⟩
      · rcases ih hs with ⟨hmem, hne⟩ | ⟨s', hs', ht', rfl⟩ | ⟨hnone, rfl⟩ | ⟨hmem, s', hs', ht', hdup⟩
        · exact .inl ⟨List.mem_cons_of_mem _ hmem, hne⟩
        · exact .inr (.inl ⟨s', List.mem_cons_of_mem _ hs', ht', rfl⟩)
        · exact .inr (.inr (.inl ⟨List.forall_mem_cons.mpr ⟨htime, hnone⟩, rfl⟩))
        · refine .inr (.inr (.inr ⟨List.mem_cons_of_mem _ hmem, s', List.mem_cons_of_mem _ hs', ht', fun hnodup => ?_⟩))
          exact hdup (List.nodup_cons.mp hnodup).2

theorem times_addConfig (t : ℤ) (c : Mask) (confs : List ConfigSet) :
    (addConfig t c confs).map ConfigSet.time =
      if t ∈ confs.map ConfigSet.time then confs.map ConfigSet.time else confs.map ConfigSet.time ++ [t] := by
  induction confs with
  | nil => rfl
  | cons first confs ih =>
    unfold addConfig
    by_cases htime : first.time = t
    · rw [if_pos htime, if_pos (List.mem_map.mpr ⟨first, List.mem_cons_self, htime⟩)]
      rfl
    · have hmem : t ∈ (first :: confs).map ConfigSet.time ↔ t ∈ confs.map ConfigSet.time := by
        rw [List.map_cons, List.mem_cons]
        exact or_iff_right (Ne.symm htime)
      rw [if_neg htime, List.map_cons, ih]
      by_cases hin : t ∈ confs.map ConfigSet.time
      · rw [if_pos hin, if_pos (hmem.mpr hin)]
        rfl
      · rw [if_neg hin, if_neg fun h => hin (hmem.mp h)]
        rfl

theorem Collected.step (h : Collected cost ms confs) (hnew : c ∉ ms) :
    Collected cost (ms ++ [c]) (addConfig (cost c) c confs) := by
  have hms : ∀ d, d ∈ ms ++ [c] ↔ d ∈ ms ∨ d = c := fun d => by rw [List.mem_append, List.mem_singleton]
  refine ⟨fun s hs d => ?_, fun s hs => ?_, ?_, fun d hd => ?_⟩
  · rw [hms]
    rcases mem_addConfig hs with ⟨hmem, hne⟩ | ⟨s', hs', ht', rfl⟩ | ⟨hnone, rfl⟩ | ⟨-, -, -, -, hdup⟩
    · rw [h.mem s hmem d]
      constructor
      · exact fun hd => ⟨.inl hd.1, hd.2⟩
      · rintro ⟨hd | rfl, heq⟩
        · exact ⟨hd, heq⟩
        · exact absurd heq.symm hne
    · dsimp only
      rw [List.mem_append, List.mem_singleton, h.mem s' hs' d, ht']
      constructor
      · rintro (hd | rfl)
        · exact ⟨.inl hd.1, hd.2⟩
        · exact ⟨.inr rfl, rfl⟩
      · rintro ⟨hd | rfl, heq⟩
        · exact .inl ⟨hd, heq⟩
        · exact .inr rfl
    · dsimp only
      rw [List.mem_singleton]
      constructor
      · rintro rfl
        exact ⟨.inr rfl, rfl⟩
      · rintro ⟨hd | rfl, heq⟩
        · obtain ⟨s', hs', ht'⟩ := h.covers d hd
          exact absurd (ht'.trans heq) (hnone s' hs')
        · rfl
    · exact absurd h.times hdup
  · rcases mem_addConfig hs with ⟨hmem, -⟩ | ⟨s', hs', ht', rfl⟩ | ⟨hnone, rfl⟩ | ⟨hmem, -⟩
    · exact h.nodup s hmem
    · refine List.nodup_append.mpr ⟨h.nodup s' hs', List.nodup_singleton c, fun a ha b hb => ?_⟩
      rw [List.mem_singleton.mp hb]
      rintro rfl
      exact hnew ((h.mem s' hs' a).mp ha).1
    · exact List.nodup_singleton c
    · exact h.nodup s hmem
  · rw [times_addConfig]
    split
    · exact h.times
    · rename_i hnone
      refine List.nodup_append.mpr ⟨h.times, List.nodup_singleton _, fun a ha b hb => ?_⟩
      rw [List.mem_singleton.mp hb]
      rintro rfl
      exact hnone ha
  · have htimes : cost d ∈ (addConfig (cost c) c confs).map ConfigSet.time := by
      rw [times_addConfig]
      have hold : d ∈ ms → cost d ∈ confs.map ConfigSet.time := by
        intro hd
        obtain ⟨s, hs, ht⟩ := h.covers d hd
        exact List.mem_map.mpr ⟨s, hs, ht⟩
      rcases (hms d).mp hd with hd | rfl
      · split
        · exact hold hd
        · exact List.mem_append_left _ (hold hd)
      · split
        · rename_i hin
          exact hin
        · exact List.mem_append_right _ (List.mem_singleton_self _)
    obtain ⟨s, hs, ht⟩ := List.mem_map.mp htimes
    exact ⟨s, hs, ht⟩

theorem collected (cost : Mask → ℤ) (hnodup : ms.Nodup) : Collected cost ms (collect cost ms) := by
  have hfold : ∀ (l done : List Mask) confs, (done ++ l).Nodup → Collected cost done confs →
      Collected cost (done ++ l) (l.foldl (fun confs mask => addConfig (cost mask) mask confs) confs) := by
    intro l
    induction l with
    | nil =>
      intro done confs _ h
      rw [List.append_nil]
      exact h
    | cons c l ih =>
      intro done confs hnodup h
      have hnew : c ∉ done := fun hin => (List.nodup_append.mp hnodup).2.2 c hin c List.mem_cons_self rfl
      rw [List.append_cons] at hnodup ⊢
      exact ih (done ++ [c]) _ hnodup (h.step hnew)
  have hstart : Collected cost [] [] :=
    ⟨fun s hs => absurd hs List.not_mem_nil, fun s hs => absurd hs List.not_mem_nil, List.nodup_nil,
      fun c hc => absurd hc List.not_mem_nil⟩
  exact hfold ms [] [] hnodup hstart

/-! ### A split -/

/-- The configurations that are not in the high set are in a set before the split. -/
theorem Collected.mem_hts (h : Collected cost ms confs) (p : ℕ) (hc : c ∈ ms) :
    c ∈ (confs.drop p).flatMap ConfigSet.confs ↔ ∃ s ∈ confs.drop p, s.time = cost c := by
  rw [List.mem_flatMap]
  constructor
  · rintro ⟨s, hs, hcs⟩
    exact ⟨s, hs, ((h.mem s (List.mem_of_mem_drop hs) c).mp hcs).2.symm⟩
  · rintro ⟨s, hs, ht⟩
    exact ⟨s, hs, (h.mem s (List.mem_of_mem_drop hs) c).mpr ⟨hc, ht.symm⟩⟩

theorem Collected.mem_of_hts (h : Collected cost ms confs) {p : ℕ} (hc : c ∈ (confs.drop p).flatMap ConfigSet.confs) :
    c ∈ ms := by
  obtain ⟨s, hs, hcs⟩ := List.mem_flatMap.mp hc
  exact ((h.mem s (List.mem_of_mem_drop hs) c).mp hcs).1

theorem Collected.nodup_hts (h : Collected cost ms confs) (p : ℕ) : ((confs.drop p).flatMap ConfigSet.confs).Nodup := by
  rw [List.nodup_flatMap]
  refine ⟨fun s hs => h.nodup s (List.mem_of_mem_drop hs), ?_⟩
  have htimes := h.times
  rw [List.Nodup, List.pairwise_map] at htimes
  have hdrop := htimes.sublist (List.drop_sublist p confs)
  refine (List.Pairwise.and_mem.mp hdrop).imp fun {s s'} hpair c hcs hcs' => ?_
  obtain ⟨hs, hs', hne⟩ := hpair
  have ht := ((h.mem s (List.mem_of_mem_drop hs) c).mp hcs).2
  have ht' := ((h.mem s' (List.mem_of_mem_drop hs') c).mp hcs').2
  exact hne (ht.symm.trans ht')

/-- The costs are met in increasing order. -/
def Increasing (confs : List ConfigSet) : Prop := (confs.map ConfigSet.time).Pairwise (· < ·)

theorem Increasing.lt (h : Increasing confs) {j : ℕ} {s s' : ConfigSet} (hs : confs[i]? = some s) (hs' : confs[j]? = some s')
    (hij : i < j) : s.time < s'.time := by
  obtain ⟨hi, rfl⟩ := List.getElem?_eq_some_iff.mp hs
  obtain ⟨hj, rfl⟩ := List.getElem?_eq_some_iff.mp hs'
  have hpair := List.pairwise_iff_getElem.mp h i j (by rwa [List.length_map]) (by rwa [List.length_map]) hij
  rwa [List.getElem_map, List.getElem_map] at hpair

theorem Increasing.le (h : Increasing confs) {j : ℕ} {s s' : ConfigSet} (hs : confs[i]? = some s) (hs' : confs[j]? = some s')
    (hij : i ≤ j) : s.time ≤ s'.time := by
  rcases Nat.lt_or_eq_of_le hij with hlt | rfl
  · exact Int.le_of_lt (h.lt hs hs' hlt)
  · rw [hs] at hs'
    cases hs'
    exact Int.le_refl _

theorem timeAt_of_get (hs : confs[i]? = some s) : timeAt confs i = s.time := by
  rw [timeAt, hs]
  rfl

/-- The sets of a split from a position on. -/
theorem mem_drop_iff {p : ℕ} : s ∈ confs.drop p ↔ ∃ i, p ≤ i ∧ confs[i]? = some s := by
  rw [List.mem_iff_getElem?]
  constructor
  · rintro ⟨i, hi⟩
    rw [List.getElem?_drop] at hi
    exact ⟨p + i, Nat.le_add_right p i, hi⟩
  · rintro ⟨i, hpi, hi⟩
    refine ⟨i - p, ?_⟩
    rw [List.getElem?_drop, Nat.add_sub_cancel' hpi]
    exact hi

/-- What the sets of an edge are when the costs are met in increasing order. -/
structure Sides (n : ℕ) (cost : Mask → ℤ) (sp : Split) : Prop where
  nodup : sp.hts.Nodup
  below : ∀ c ∈ sp.hts, c ∈ masks n
  low : ∀ c ∈ masks n, c ∉ sp.hts → cost c ≤ sp.ltsTime
  high : ∀ c ∈ sp.hts, cost c ≤ sp.htsTime
  larger : ∀ c ∈ sp.hts, ∀ i < n, c ||| bit i ∈ sp.hts

theorem makeSplit_sides {p : ℕ} {sp : Split} (hn : n < 32)
    (hmono : ∀ c ∈ masks n, ∀ i < n, cost c ≤ cost (c ||| bit i)) (hinc : Increasing (collect cost (masks n)))
    (hp : p < (collect cost (masks n)).length) (hsp : makeSplit (collect cost (masks n)) p = some sp) : Sides n cost sp := by
  have h := collected cost (nodup_masks hn)
  generalize collect cost (masks n) = confs at h hinc hsp hp
  cases p with
  | zero => cases hsp
  | succ q =>
    cases hsp
    have hget : ∀ c ∈ masks n, ∃ (i : ℕ) (s : ConfigSet), confs[i]? = some s ∧ s.time = cost c := by
      intro c hc
      obtain ⟨s, hs, ht⟩ := h.covers c hc
      obtain ⟨i, hi⟩ := List.mem_iff_getElem?.mp hs
      exact ⟨i, s, hi, ht⟩
    refine ⟨h.nodup_hts _, fun c hc => h.mem_of_hts hc, fun c hc hout => ?_, fun c hc => ?_, fun c hc i hi => ?_⟩
    · obtain ⟨i, s, hi, ht⟩ := hget c hc
      have hiq : i ≤ q := by
        by_contra hlt
        exact hout ((h.mem_hts (q + 1) hc).mpr ⟨s, mem_drop_iff.mpr ⟨i, Nat.lt_of_not_le hlt, hi⟩, ht⟩)
      dsimp only
      have hq : confs[q]? = some _ := List.getElem?_eq_getElem (Nat.lt_of_succ_lt hp)
      rw [timeAt_of_get hq, ← ht]
      exact hinc.le hi hq hiq
    · obtain ⟨s, hs, ht⟩ := (h.mem_hts (q + 1) (h.mem_of_hts hc)).mp hc
      obtain ⟨i, -, hi⟩ := mem_drop_iff.mp hs
      have hlt := (List.getElem?_eq_some_iff.mp hi).1
      have htop : confs[confs.length - 1]? = some _ :=
        List.getElem?_eq_getElem (Nat.pred_lt_of_lt (Nat.zero_lt_of_lt hlt))
      dsimp only
      rw [topTime, timeAt_of_get htop, ← ht]
      exact hinc.le hi htop (Nat.le_pred_of_lt hlt)
    · have hms := h.mem_of_hts hc
      have hms' := switch_on_mem_masks hn hi hms
      obtain ⟨s, hs, ht⟩ := (h.mem_hts (q + 1) hms).mp hc
      obtain ⟨j, hqj, hj⟩ := mem_drop_iff.mp hs
      obtain ⟨k, s', hk, ht'⟩ := hget _ hms'
      have hle := hmono c hms i hi
      refine (h.mem_hts (q + 1) hms').mpr ⟨s', mem_drop_iff.mpr ⟨k, ?_, hk⟩, ht'⟩
      by_contra hlt
      have hkj : k < j := Nat.lt_of_lt_of_le (Nat.lt_of_not_le hlt) hqj
      have hless := hinc.lt hk hj hkj
      omega

end Otawa.Etime
