import Otawa.Elm.STree
import Mathlib.Data.List.MinMax
import Mathlib.Order.CompletePartialOrder
import Mathlib.Order.Interval.Set.Disjoint

/-!
# Builders of segment trees

What the builders of segment trees say about the trees they make, and when it is so: `find_correct_iff`. The highest bound
of the tree, which is exclusive for the builders, is found with the value of the last leaf, and there is no tree for less
than two marks.
-/

namespace Otawa.Elm.STree

variable {K T : Type} [LinearOrder K]

/-- The keys of the segment. -/
def Segment.keys (seg : Segment K T) : Set K :=
  Set.Ico seg.low seg.high

namespace SegmentBuilder

/-- The segments that are added, in the order of their lower bounds. -/
def addAll (segs : List (Segment K T)) : List (Segment K T) :=
  segs.foldl add []

/-- What the segments say about a key, with `none` for a key that is not found. -/
def value (d : T) (segs : List (Segment K T)) (key : K) : Option T :=
  match segs.find? fun seg => seg.low ≤ key ∧ key < seg.high with
  | some seg => some seg.value
  | none => if (∃ seg ∈ segs, seg.low ≤ key) ∧ ∃ seg ∈ segs, key < seg.high then some d else none

/-- The leaves after a segment that ends with `p`. -/
def withGaps (d : T) : K → List (Segment K T) → List (Segment K T)
  | _, [] => []
  | p, seg :: segs => (if seg.low ≠ p then [⟨p, seg.low, d⟩] else []) ++ seg :: withGaps d seg.high segs

end SegmentBuilder

namespace MarkerBuilder

/-- The marks that are added, in their order. -/
def addAll (marks : List (K × T)) : List (K × T) :=
  marks.foldl add []

/-- The value of the greatest mark up to the key, when the key is below some mark. -/
def value (marks : List (K × T)) (key : K) : Option T :=
  if ∃ mark ∈ marks, key < mark.1 then
    ((marks.map Prod.fst).filter (· ≤ key)).max?.bind fun mark => marks.reverse.lookup mark
  else none

/-- The leaves from the mark `l` on. -/
def leaves : K × T → List (K × T) → List (Segment K T)
  | _, [] => []
  | l, u :: marks => ⟨l.1, u.1, l.2⟩ :: leaves u marks

end MarkerBuilder

variable {nodes : Nodes K T} {segs : List (Segment K T)} {marks : List (K × T)} {seg first last : Segment K T} {key p : K}
  {d : T}

/-! ### The tree of some leaves -/

/-- The tree with the leaves, in an array for `n` leaves. -/
def layOut (fuel n : ℕ) (leaves : List (Segment K T)) : Option (Tree K T) := do
  let nodes ← Builder.allocate n
  let (nodes, i) ← fill leaves nodes 0
  let (nodes, _, root) ← Builder.make fuel nodes i 0 (i - 1)
  return ⟨root, nodes⟩

section

omit [LinearOrder K]

theorem make_mono {fuel fuel' s : ℕ} {start stop : ℤ} {r : Nodes K T × ℕ × ℤ} (hle : fuel ≤ fuel')
    (h : Builder.make fuel nodes s start stop = some r) : Builder.make fuel' nodes s start stop = some r := by
  induction fuel generalizing nodes s start stop r fuel' with
  | zero => cases h
  | succ fuel ih =>
    obtain ⟨fuel', rfl⟩ := Nat.exists_eq_succ_of_ne_zero (Nat.ne_of_gt (Nat.zero_lt_of_lt hle))
    rw [Builder.make] at h ⊢
    split at h
    case isTrue heq => rwa [if_pos heq]
    case isFalse hne =>
      obtain ⟨⟨nodes₁, s₁, l⟩, hmake₁, h⟩ := Option.bind_eq_some_iff.mp h
      obtain ⟨⟨nodes₂, s₂, u⟩, hmake₂, h⟩ := Option.bind_eq_some_iff.mp h
      have hle' := Nat.le_of_succ_le_succ hle
      rw [if_neg hne]
      simp only [ih hle' hmake₁, ih hle' hmake₂, Option.bind_eq_bind, Option.bind_some]
      exact h

theorem layOut_spec {leaves : List (Segment K T)} {fuel n : ℕ} (hne : leaves ≠ []) (hcontiguous : Contiguous leaves)
    (hfuel : leaves.length ≤ fuel) (hn : leaves.length ≤ n) :
    ∃ tree, layOut fuel n leaves = some tree ∧ Built tree leaves := by
  have hlength := List.length_pos_iff.mpr hne
  obtain ⟨nodes, hallocate, hfits, hfree⟩ := allocate_spec (K := K) (T := T) (show n ≠ 0 by omega)
  obtain ⟨nodes', i, hfill, nodes'', s, root, hmake, hbuilt⟩ := built_spec hne hcontiguous hfree (by omega)
  refine ⟨⟨root, nodes''⟩, ?_, hbuilt⟩
  simp only [layOut, hallocate, Option.bind_eq_bind, Option.bind_some, hfill, make_mono hfuel hmake]
  rfl

theorem layOut_unique {fuel fuel' n : ℕ} {leaves : List (Segment K T)} {tree tree' : Tree K T}
    (h : layOut fuel n leaves = some tree) (h' : layOut fuel' n leaves = some tree') : tree = tree' := by
  obtain ⟨nodes, hallocate, h⟩ := Option.bind_eq_some_iff.mp h
  obtain ⟨⟨nodes₁, i⟩, hfill, h⟩ := Option.bind_eq_some_iff.mp h
  obtain ⟨⟨nodes₂, s, root⟩, hmake, h⟩ := Option.bind_eq_some_iff.mp h
  simp only [layOut, hallocate, Option.bind_eq_bind, Option.bind_some, hfill] at h'
  obtain ⟨⟨nodes₂', s', root'⟩, hmake', h'⟩ := Option.bind_eq_some_iff.mp h'
  have hboth := (make_mono (le_max_left fuel fuel') hmake).symm.trans (make_mono (le_max_right fuel fuel') hmake')
  cases hboth
  exact Option.some.inj (h.symm.trans h')

end

/-- A tree tells the value of each key that is not its upper bound, when its leaves do. -/
theorem Built.find_iff {leaves : List (Segment K T)} {t : Tree K T} {value : Option T} {highs : Set K}
    (h : Built t leaves) (hfirst : leaves.head? = some first) (hlast : leaves.getLast? = some last)
    (hwide : first.low < last.high) (hgreatest : IsGreatest highs last.high)
    (hlow : key < first.low → value = none) (hhigh : last.high ≤ key → value = none)
    (hleaf : ∀ leaf ∈ leaves, key ∈ leaf.keys → key < last.high → value = some leaf.value) :
    t.find key = some value ↔ ¬IsGreatest highs key := by
  have hiff : ¬IsGreatest highs key ↔ key ≠ last.high :=
    not_congr ⟨fun hkey => hkey.unique hgreatest, fun heq => heq ▸ hgreatest⟩
  rw [hiff]
  rcases lt_or_ge key first.low with hbelow | hfrom
  · rw [hlow hbelow]
    exact iff_of_true (h.find_of_not_le hfirst hlast (.inl hbelow)) (hbelow.trans hwide).ne
  · rcases lt_trichotomy key last.high with hlt | rfl | hgt
    · obtain ⟨leaf, hmem, hfind, hge, hlt'⟩ := h.find_of_le hfirst hlast hfrom hlt.le
      have hkey : key < leaf.high := hlt'.elim And.left fun heq => heq ▸ hlt
      rw [hleaf leaf hmem (Set.mem_Ico.mpr ⟨hge, hkey⟩) hlt]
      exact iff_of_true hfind hlt.ne
    · obtain ⟨leaf, -, hfind, -⟩ := h.find_of_le hfirst hlast hfrom le_rfl
      rw [hfind, hhigh le_rfl]
      exact iff_of_false nofun (not_not.mpr rfl)
    · rw [hhigh hgt.le]
      exact iff_of_true (h.find_of_not_le hfirst hlast (.inr hgt)) hgt.ne'

/-! ### Segments -/

namespace SegmentBuilder

theorem count_eq (d : T) (p : K) (segs : List (Segment K T)) : count p segs = (withGaps d p segs).length := by
  induction segs generalizing p with
  | nil => rfl
  | cons seg segs ih =>
    rw [count, withGaps, ih seg.high]
    split
    case isTrue => rw [List.length_append, List.length_singleton, List.length_cons]; omega
    case isFalse => rw [List.length_append, List.length_nil, List.length_cons]; omega

theorem insertBounds_eq (d : T) (p : K) (segs : List (Segment K T)) (nodes : Nodes K T) (i : ℕ) :
    insertBounds d p segs nodes i = fill (withGaps d p segs) nodes i := by
  induction segs generalizing p nodes i with
  | nil => rfl
  | cons seg segs ih =>
    rw [insertBounds, withGaps]
    split
    case isTrue =>
      rw [List.singleton_append, fill]
      cases write nodes i (Segment.leaf ⟨p, seg.low, d⟩) with
      | none => rfl
      | some nodes =>
        rw [Option.map_some, Option.bind_eq_bind, Option.bind_some, Option.bind_eq_bind, Option.bind_some, fill]
        simp only [ih]
        rfl
    case isFalse =>
      rw [List.nil_append, fill, Option.bind_eq_bind, Option.bind_some]
      simp only [ih]

theorem make_eq (fuel : ℕ) (d : T) (seg : Segment K T) (segs : List (Segment K T)) (tree : Tree K T) :
    make fuel d (seg :: segs) tree =
      layOut fuel (seg :: withGaps d seg.high segs).length (seg :: withGaps d seg.high segs) := by
  rw [make, layOut, List.length_cons, Nat.add_comm, count_eq d]
  simp only [insertBounds_eq, fill, Option.bind_eq_bind, Option.bind_assoc]

/-- The segments follow each other. -/
def Apart (segs : List (Segment K T)) : Prop :=
  segs.Pairwise fun a b => a.high ≤ b.low

theorem contiguous_withGaps (d : T) (seg : Segment K T) (segs : List (Segment K T)) :
    Contiguous (seg :: withGaps d seg.high segs) := by
  induction segs generalizing seg with
  | nil => exact List.isChain_singleton _
  | cons next segs ih =>
    rw [withGaps]
    split
    case isTrue => exact List.isChain_cons_cons.mpr ⟨rfl, List.isChain_cons_cons.mpr ⟨rfl, ih next⟩⟩
    case isFalse heq => exact List.isChain_cons_cons.mpr ⟨(not_not.mp heq).symm, ih next⟩

theorem getLast?_withGaps (d : T) (seg : Segment K T) (segs : List (Segment K T)) :
    (seg :: withGaps d seg.high segs).getLast? = (seg :: segs).getLast? := by
  induction segs generalizing seg with
  | nil => rfl
  | cons next segs ih => rw [withGaps, ← List.cons_append, List.getLast?_append_cons, ih, List.getLast?_cons_cons]

/-- A leaf is a segment, or between two segments. -/
theorem mem_withGaps (hapart : Apart (seg :: segs)) (hsegs : ∀ b ∈ segs, b.low < b.high) {leaf : Segment K T}
    (h : leaf ∈ withGaps d seg.high segs) :
    leaf ∈ segs ∨
      leaf.value = d ∧ seg.high ≤ leaf.low ∧ ∀ b ∈ segs, b.high ≤ leaf.low ∨ leaf.high ≤ b.low := by
  induction segs generalizing seg with
  | nil => exact absurd h List.not_mem_nil
  | cons next segs ih =>
    obtain ⟨hfirst, hrest⟩ := List.pairwise_cons.mp hapart
    have hnext := hsegs next List.mem_cons_self
    rw [withGaps] at h
    rcases List.mem_append.mp h with h | h
    · have hleaf : leaf = ⟨seg.high, next.low, d⟩ := by
        split at h
        case isTrue => exact List.mem_singleton.mp h
        case isFalse => exact absurd h List.not_mem_nil
      subst hleaf
      refine .inr ⟨rfl, le_rfl, fun b hb => .inr ?_⟩
      rcases List.mem_cons.mp hb with rfl | hb
      · exact le_rfl
      · exact hnext.le.trans ((List.pairwise_cons.mp hrest).1 b hb)
    · rcases List.mem_cons.mp h with rfl | h
      · exact .inl List.mem_cons_self
      · rcases ih hrest (fun b hb => hsegs b (List.mem_cons_of_mem _ hb)) h with hmem | ⟨hvalue, hlow, hgap⟩
        · exact .inl (List.mem_cons_of_mem _ hmem)
        · have hseg := ((hfirst next List.mem_cons_self).trans hnext.le).trans hlow
          refine .inr ⟨hvalue, hseg, fun b hb => ?_⟩
          rcases List.mem_cons.mp hb with rfl | hb
          · exact .inl hlow
          · exact hgap b hb

/-- The segments have keys, and do not share them. -/
structure Disjointed (segs : List (Segment K T)) : Prop where
  low_lt_high : ∀ seg ∈ segs, seg.low < seg.high
  disjoint : segs.Pairwise fun a b => Disjoint a.keys b.keys

theorem Disjointed.eq_of_mem (h : Disjointed segs) {a b : Segment K T} (ha : a ∈ segs) (hb : b ∈ segs)
    (hkeya : key ∈ a.keys) (hkeyb : key ∈ b.keys) : a = b := by
  have hsymm : Std.Symm fun a b : Segment K T => Disjoint a.keys b.keys := ⟨fun _ _ h => h.symm⟩
  by_contra hne
  exact Set.disjoint_left.mp (h.disjoint.forall ha hb hne) hkeya hkeyb

theorem low_mem_keys (h : seg.low < seg.high) : seg.low ∈ seg.keys :=
  Set.left_mem_Ico.mpr h

theorem Disjointed.mem_addAll (h : Disjointed segs) : seg ∈ addAll segs ↔ seg ∈ segs := by
  refine Keyed.mem_putAll_of_distinct (h.disjoint.imp_of_mem fun {a b} ha hb hdisjoint heq => ?_)
  have hkey := low_mem_keys (h.low_lt_high b hb)
  exact Set.disjoint_left.mp hdisjoint (heq ▸ low_mem_keys (h.low_lt_high a ha)) hkey

theorem Disjointed.apart (h : Disjointed segs) : Apart (addAll segs) := by
  refine (Keyed.sorted_putAll Segment.low segs).imp_of_mem fun {a b} ha hb hlt => le_of_not_gt fun hgt => ?_
  have heq := h.eq_of_mem (h.mem_addAll.mp ha) (h.mem_addAll.mp hb) (Set.mem_Ico.mpr ⟨hlt.le, hgt⟩)
    (low_mem_keys (h.low_lt_high b (h.mem_addAll.mp hb)))
  exact hlt.ne (congrArg Segment.low heq)

theorem Disjointed.value_of_mem (h : Disjointed segs) (hmem : seg ∈ segs) (hkey : key ∈ seg.keys) :
    value d segs key = some seg.value := by
  cases hfind : segs.find? fun seg => decide (seg.low ≤ key ∧ key < seg.high) with
  | none => exact absurd (decide_eq_true (Set.mem_Ico.mp hkey)) (List.find?_eq_none.mp hfind seg hmem)
  | some other =>
    have hother : key ∈ other.keys := Set.mem_Ico.mpr (of_decide_eq_true (List.find?_some hfind :))
    rw [value, hfind, h.eq_of_mem (List.mem_of_find?_eq_some hfind) hmem hother hkey]

theorem value_of_not_mem (h : ∀ seg ∈ segs, key ∉ seg.keys) :
    value d segs key = if (∃ seg ∈ segs, seg.low ≤ key) ∧ ∃ seg ∈ segs, key < seg.high then some d else none := by
  have hfind : segs.find? (fun seg => decide (seg.low ≤ key ∧ key < seg.high)) = none :=
    List.find?_eq_none.mpr fun seg hseg hdec => h seg hseg (Set.mem_Ico.mpr (of_decide_eq_true hdec))
  rw [value, hfind]

theorem value_of_low (h : ∀ seg ∈ segs, key < seg.low) : value d segs key = none := by
  rw [value_of_not_mem fun seg hseg hkey => (h seg hseg).not_ge (Set.mem_Ico.mp hkey).1, if_neg]
  rintro ⟨⟨seg, hseg, hle⟩, -⟩
  exact (h seg hseg).not_ge hle

theorem value_of_high (h : ∀ seg ∈ segs, seg.high ≤ key) : value d segs key = none := by
  rw [value_of_not_mem fun seg hseg hkey => (h seg hseg).not_gt (Set.mem_Ico.mp hkey).2, if_neg]
  rintro ⟨-, seg, hseg, hlt⟩
  exact (h seg hseg).not_gt hlt

theorem length_withGaps_le (d : T) (p : K) (segs : List (Segment K T)) :
    (withGaps d p segs).length ≤ 2 * segs.length := by
  induction segs generalizing p with
  | nil => exact le_rfl
  | cons seg segs ih =>
    have hle := ih seg.high
    rw [← count_eq d] at hle ⊢
    rw [count, List.length_cons]
    split <;> omega

section

variable (h : Disjointed segs)
include h

/-- The tree of the segments. -/
theorem Disjointed.built (hne : segs ≠ []) (d : T) (tree : Tree K T) {fuel : ℕ}
    (hfuel : 2 * segs.length ≤ fuel) :
    ∃ tree' seg rest, addAll segs = seg :: rest ∧ make fuel d (addAll segs) tree = some tree' ∧
      Built tree' (seg :: withGaps d seg.high rest) := by
  obtain ⟨b, hb⟩ := List.exists_mem_of_ne_nil segs hne
  cases hall : addAll segs with
  | nil => exact absurd (hall ▸ h.mem_addAll.mpr hb) List.not_mem_nil
  | cons seg rest =>
    have hlength : (addAll segs).length ≤ segs.length := Keyed.length_putAll_le _ segs
    have hgaps := length_withGaps_le d seg.high rest
    rw [hall, List.length_cons] at hlength
    obtain ⟨tree', hlayOut, hbuilt⟩ := layOut_spec (List.cons_ne_nil _ _) (contiguous_withGaps d seg rest)
      (show (withGaps d seg.high rest).length + 1 ≤ fuel by omega) (Nat.le_refl _)
    exact ⟨tree', seg, rest, rfl, (make_eq _ d seg rest tree).trans hlayOut, hbuilt⟩

theorem Disjointed.low_le {rest : List (Segment K T)} (hall : addAll segs = seg :: rest)
    {b : Segment K T} (hb : b ∈ segs) : seg.low ≤ b.low := by
  have hapart := hall ▸ h.apart
  have hmem := hall ▸ h.mem_addAll.mpr hb
  have hseg : seg ∈ segs := h.mem_addAll.mp (hall ▸ List.mem_cons_self)
  rcases List.mem_cons.mp hmem with rfl | hrest
  · exact le_rfl
  · exact (h.low_lt_high seg hseg).le.trans ((List.pairwise_cons.mp hapart).1 b hrest)

theorem Disjointed.isGreatest (hlast : (addAll segs).getLast? = some last) :
    IsGreatest {high | high ∈ segs.map Segment.high} last.high := by
  obtain ⟨init, hall⟩ := List.getLast?_eq_some_iff.mp hlast
  have hapart := hall ▸ h.apart
  have hmem : last ∈ segs := h.mem_addAll.mp (hall ▸ List.mem_concat_self)
  refine ⟨List.mem_map_of_mem hmem, fun high hhigh => ?_⟩
  obtain ⟨b, hb, rfl⟩ := List.mem_map.mp hhigh
  have hb' := hall ▸ h.mem_addAll.mpr hb
  rcases List.mem_append.mp hb' with hinit | hb'
  · have hle := (List.pairwise_append.mp hapart).2.2 b hinit last List.mem_cons_self
    exact hle.trans (h.low_lt_high last hmem).le
  · rw [List.mem_singleton.mp hb']

/-- The leaf that has a key says of it what the segments do. -/
theorem Disjointed.value_of_leaf {rest : List (Segment K T)} (hall : addAll segs = seg :: rest)
    {leaf : Segment K T} (hleaf : leaf ∈ seg :: withGaps d seg.high rest) (hkey : key ∈ leaf.keys)
    (hbelow : ∃ b ∈ segs, key < b.high) : value d segs key = some leaf.value := by
  have hmem : ∀ {b : Segment K T}, b ∈ seg :: rest ↔ b ∈ segs := fun {b} => hall ▸ h.mem_addAll
  rcases List.mem_cons.mp hleaf with rfl | hleaf
  · exact h.value_of_mem (hmem.mp List.mem_cons_self) hkey
  · have hsegs : ∀ b ∈ rest, b.low < b.high := fun b hb => h.low_lt_high b (hmem.mp (List.mem_cons_of_mem _ hb))
    rcases mem_withGaps (hall ▸ h.apart) hsegs hleaf with hrest | ⟨hvalue, hlow, hgap⟩
    · exact h.value_of_mem (hmem.mp (List.mem_cons_of_mem _ hrest)) hkey
    · obtain ⟨hge, hlt⟩ := Set.mem_Ico.mp hkey
      have hnone : ∀ b ∈ segs, key ∉ b.keys := by
        intro b hb hkeyb
        obtain ⟨hgeb, hltb⟩ := Set.mem_Ico.mp hkeyb
        rcases List.mem_cons.mp (hmem.mpr hb) with rfl | hb
        · exact hltb.not_ge (hlow.trans hge)
        · exact (hgap b hb).elim (fun hle => hltb.not_ge (hle.trans hge)) fun hle => hlt.not_ge (hle.trans hgeb)
      have hseg : seg ∈ segs := hmem.mp List.mem_cons_self
      have habove : ∃ b ∈ segs, b.low ≤ key := ⟨seg, hseg, ((h.low_lt_high seg hseg).le.trans hlow).trans hge⟩
      rw [value_of_not_mem hnone, if_pos ⟨habove, hbelow⟩, hvalue]

theorem Disjointed.find_iff {rest : List (Segment K T)} {t : Tree K T}
    (hall : addAll segs = seg :: rest) (hbuilt : Built t (seg :: withGaps d seg.high rest)) (key : K) :
    t.find key = some (value d segs key) ↔ ¬IsGreatest {high | high ∈ segs.map Segment.high} key := by
  obtain ⟨last, hlast⟩ : ∃ last, (seg :: rest).getLast? = some last := ⟨_, List.getLast?_cons⟩
  have hgreatest := h.isGreatest (hall ▸ hlast)
  obtain ⟨top, htop, hhigh⟩ := List.mem_map.mp hgreatest.1
  have hwide : seg.low < last.high := hhigh ▸ (h.low_le hall htop).trans_lt (h.low_lt_high top htop)
  refine hbuilt.find_iff rfl ((getLast?_withGaps d seg rest).trans hlast) hwide hgreatest ?_ ?_ ?_
  · exact fun hlow => value_of_low fun b hb => hlow.trans_le (h.low_le hall hb)
  · exact fun hle => value_of_high fun b hb => (hgreatest.2 (List.mem_map_of_mem hb)).trans hle
  · exact fun leaf hleaf hkey hlt => h.value_of_leaf hall hleaf hkey ⟨top, htop, hhigh ▸ hlt⟩

end

theorem low_le_withGaps {top : K} (hp : p ≤ top) (hsegs : ∀ b ∈ segs, b.low ≤ top ∧ b.high ≤ top) {leaf : Segment K T}
    (h : leaf ∈ withGaps d p segs) : leaf.low ≤ top := by
  induction segs generalizing p with
  | nil => exact absurd h List.not_mem_nil
  | cons seg segs ih =>
    obtain ⟨hlow, hhigh⟩ := hsegs seg List.mem_cons_self
    rw [withGaps] at h
    rcases List.mem_append.mp h with h | h
    · split at h
      case isTrue => rwa [List.mem_singleton.mp h]
      case isFalse => exact absurd h List.not_mem_nil
    · rcases List.mem_cons.mp h with rfl | h
      · exact hlow
      · exact ih hhigh (fun b hb => hsegs b (List.mem_cons_of_mem _ hb)) h

/-- The greatest bound is taken as a key of the last segment. -/
theorem Disjointed.find_high (h : Disjointed segs) {rest : List (Segment K T)} {t : Tree K T}
    (hall : addAll segs = seg :: rest) (hbuilt : Built t (seg :: withGaps d seg.high rest))
    (hlast : (seg :: rest).getLast? = some last) : t.find last.high = some (some last.value) := by
  have hgreatest := h.isGreatest (hall ▸ hlast)
  have hmem : ∀ {b : Segment K T}, b ∈ seg :: rest ↔ b ∈ segs := fun {b} => hall ▸ h.mem_addAll
  have hbounds : ∀ b ∈ seg :: rest, b.low ≤ last.high ∧ b.high ≤ last.high := by
    intro b hb
    have hle : b.high ≤ last.high := hgreatest.2 (List.mem_map_of_mem (hmem.mp hb))
    exact ⟨(h.low_lt_high b (hmem.mp hb)).le.trans hle, hle⟩
  obtain ⟨hlow, hhigh⟩ := hbounds seg List.mem_cons_self
  obtain ⟨leaf, -, hfind, -, ⟨-, next, hnext, hlt⟩ | rfl⟩ :=
    hbuilt.find_of_le rfl ((getLast?_withGaps d seg rest).trans hlast) hlow le_rfl
  · refine absurd hlt (not_lt_of_ge ?_)
    rcases List.mem_cons.mp hnext with rfl | hnext
    · exact hlow
    · exact low_le_withGaps hhigh (fun b hb => hbounds b (List.mem_cons_of_mem _ hb)) hnext
  · exact hfind

end SegmentBuilder

/-! ### Marks -/

namespace MarkerBuilder

section

omit [LinearOrder K]

theorem insertBounds_eq (l : K × T) (marks : List (K × T)) (nodes : Nodes K T) (i : ℕ) :
    insertBounds l marks nodes i = fill (leaves l marks) nodes i := by
  induction marks generalizing l nodes i with
  | nil => rfl
  | cons u marks ih =>
    rw [insertBounds, leaves, fill]
    simp only [ih]

theorem make_eq (fuel : ℕ) (l : K × T) (marks : List (K × T)) :
    make fuel (l :: marks) = layOut fuel (l :: marks).length (leaves l marks) := by
  rw [make, layOut]
  simp only [insertBounds_eq]

theorem contiguous_leaves (l : K × T) (marks : List (K × T)) : Contiguous (leaves l marks) := by
  induction marks generalizing l with
  | nil => exact List.isChain_nil
  | cons u marks ih =>
    cases marks with
    | nil => exact List.isChain_singleton _
    | cons v marks => exact List.isChain_cons_cons.mpr ⟨rfl, ih u⟩

theorem length_leaves (l : K × T) (marks : List (K × T)) : (leaves l marks).length = marks.length := by
  induction marks generalizing l with
  | nil => rfl
  | cons u marks ih => rw [leaves, List.length_cons, List.length_cons, ih u]

end

/-- There are no marks between the bounds of a leaf. -/
theorem mem_leaves {l : K × T} (hsorted : Keyed.Sorted Prod.fst (l :: marks)) {leaf : Segment K T}
    (h : leaf ∈ leaves l marks) :
    ∃ mark ∈ l :: marks, mark.1 = leaf.low ∧ mark.2 = leaf.value ∧
      ∀ other ∈ l :: marks, other.1 ≤ leaf.low ∨ leaf.high ≤ other.1 := by
  induction marks generalizing l with
  | nil => exact absurd h List.not_mem_nil
  | cons u marks ih =>
    obtain ⟨hfirst, hrest⟩ := List.pairwise_cons.mp hsorted
    rcases List.mem_cons.mp h with rfl | h
    · refine ⟨l, List.mem_cons_self, rfl, rfl, fun other hother => ?_⟩
      rcases List.mem_cons.mp hother with rfl | hother
      · exact .inl le_rfl
      · rcases List.mem_cons.mp hother with rfl | hother
        · exact .inr le_rfl
        · exact .inr ((List.pairwise_cons.mp hrest).1 other hother).le
    · obtain ⟨mark, hmark, hlow, hvalue, hother⟩ := ih hrest h
      refine ⟨mark, List.mem_cons_of_mem _ hmark, hlow, hvalue, fun other hmem => ?_⟩
      rcases List.mem_cons.mp hmem with rfl | hmem
      · exact .inl (hlow ▸ (hfirst mark hmark).le)
      · exact hother other hmem

theorem lookup_of_mem_addAll {mark : K × T} (h : mark ∈ addAll marks) :
    marks.reverse.lookup mark.1 = some mark.2 := by
  obtain ⟨before, after, rfl, hafter⟩ := (Keyed.mem_putAll marks).mp h
  have hnone : after.reverse.lookup mark.1 = none := by
    refine List.lookup_eq_none_iff.mpr fun other hother => ?_
    exact bne_iff_ne.mpr (hafter other (List.mem_reverse.mp hother)).symm
  rw [List.reverse_append, List.reverse_cons, List.append_assoc, List.lookup_append, hnone, Option.none_or]
  exact List.lookup_cons_self

theorem value_of_low (h : ∀ k ∈ marks.map Prod.fst, key < k) : value marks key = none := by
  have hnil : (marks.map Prod.fst).filter (fun k => k ≤ key) = [] :=
    List.filter_eq_nil_iff.mpr fun k hk hle => (h k hk).not_ge (of_decide_eq_true hle)
  rw [value, hnil]
  exact ite_self none

theorem value_of_high (h : ∀ k ∈ marks.map Prod.fst, k ≤ key) : value marks key = none := by
  refine if_neg ?_
  rintro ⟨mark, hmark, hlt⟩
  exact (h mark.1 (List.mem_map_of_mem hmark)).not_gt hlt

theorem value_of_greatest {mark : K × T} (hmem : mark ∈ addAll marks) (hle : mark.1 ≤ key)
    (hgreatest : ∀ k ∈ marks.map Prod.fst, k ≤ key → k ≤ mark.1) (hbelow : ∃ mark ∈ marks, key < mark.1) :
    value marks key = some mark.2 := by
  have hmax : ((marks.map Prod.fst).filter fun k => k ≤ key).max? = some mark.1 := by
    refine List.max?_eq_some_iff.mpr ⟨?_, fun k hk => ?_⟩
    · exact List.mem_filter.mpr ⟨(Keyed.mem_map_putAll marks).mp (List.mem_map_of_mem hmem), decide_eq_true hle⟩
    · obtain ⟨hk, hle⟩ := List.mem_filter.mp hk
      exact hgreatest k hk (of_decide_eq_true hle)
  rw [value, if_pos hbelow, hmax, Option.bind_some]
  exact lookup_of_mem_addAll hmem

omit [LinearOrder K] in
theorem getLast?_leaves (l u : K × T) (marks : List (K × T)) :
    ∃ last, (leaves l (u :: marks)).getLast? = some last ∧
      ((u :: marks).getLast?.map Prod.fst) = some last.high := by
  induction marks generalizing l u with
  | nil => exact ⟨_, rfl, rfl⟩
  | cons v marks ih =>
    obtain ⟨last, hlast, hhigh⟩ := ih u v
    rw [leaves, leaves, List.getLast?_cons_cons, List.getLast?_cons_cons]
    exact ⟨last, hlast, hhigh⟩

theorem isGreatest {last : K × T} (hlast : (addAll marks).getLast? = some last) :
    IsGreatest {mark | mark ∈ marks.map Prod.fst} last.1 := by
  obtain ⟨init, hall⟩ := List.getLast?_eq_some_iff.mp hlast
  have hsorted : Keyed.Sorted Prod.fst (init ++ [last]) := hall ▸ Keyed.sorted_putAll Prod.fst marks
  have hmem : ∀ k, k ∈ (init ++ [last]).map Prod.fst ↔ k ∈ marks.map Prod.fst :=
    fun k => hall ▸ Keyed.mem_map_putAll marks
  refine ⟨(hmem last.1).mp (List.mem_map_of_mem List.mem_concat_self), fun k hk => ?_⟩
  obtain ⟨mark, hmark, rfl⟩ := List.mem_map.mp ((hmem k).mpr hk)
  rcases List.mem_append.mp hmark with hinit | hmark
  · exact ((List.pairwise_append.mp hsorted).2.2 mark hinit last List.mem_cons_self).le
  · rw [List.mem_singleton.mp hmark]

theorem find_iff {l u : K × T} {rest : List (K × T)} {t : Tree K T} (hall : addAll marks = l :: u :: rest)
    (hbuilt : Built t (leaves l (u :: rest))) (key : K) :
    t.find key = some (value marks key) ↔ ¬IsGreatest {mark | mark ∈ marks.map Prod.fst} key := by
  obtain ⟨last, hlast, hhigh⟩ := getLast?_leaves l u rest
  obtain ⟨top, htop, hhigh⟩ := Option.map_eq_some_iff.mp hhigh
  have hsorted : Keyed.Sorted Prod.fst (l :: u :: rest) := hall ▸ Keyed.sorted_putAll Prod.fst marks
  have hfirst := (List.pairwise_cons.mp hsorted).1
  have hmem : ∀ k, k ∈ (l :: u :: rest).map Prod.fst ↔ k ∈ marks.map Prod.fst :=
    fun k => hall ▸ Keyed.mem_map_putAll marks
  have hgreatest : IsGreatest {mark | mark ∈ marks.map Prod.fst} last.high :=
    hhigh ▸ isGreatest (by rw [hall, List.getLast?_cons_cons, htop])
  have hwide : l.1 < last.high := hhigh ▸ hfirst top (List.mem_of_getLast? htop)
  refine hbuilt.find_iff rfl hlast hwide hgreatest ?_ ?_ fun leaf hleaf hkey hlt => ?_
  · refine fun hlow => value_of_low fun k hk => ?_
    obtain ⟨mark, hmark, rfl⟩ := List.mem_map.mp ((hmem k).mpr hk)
    rcases List.mem_cons.mp hmark with rfl | hmark
    · exact hlow
    · exact hlow.trans (hfirst mark hmark)
  · exact fun hle => value_of_high fun k hk => (hgreatest.2 hk).trans hle
  · obtain ⟨hge, hlt'⟩ := Set.mem_Ico.mp hkey
    obtain ⟨mark, hmark, hlow, hvalue, hother⟩ := mem_leaves hsorted hleaf
    obtain ⟨greatest, hmem', heq⟩ := List.mem_map.mp hgreatest.1
    rw [← hvalue]
    refine value_of_greatest (hall ▸ hmark) (hlow ▸ hge) (fun k hk hle => ?_) ⟨greatest, hmem', heq ▸ hlt⟩
    obtain ⟨other, hother', rfl⟩ := List.mem_map.mp ((hmem k).mpr hk)
    rw [hlow]
    exact (hother other hother').resolve_right fun habove => (habove.trans hle).not_gt hlt'

section

omit [LinearOrder K]

/-- The recursion for no leaves does not end. -/
theorem make_none (fuel : ℕ) (nodes : Nodes K T) (s : ℕ) : Builder.make fuel nodes s 0 (-1) = none := by
  have hfrom (fuel : ℕ) (nodes : Nodes K T) (s : ℕ) : Builder.make fuel nodes s 1 0 = none := by
    induction fuel with
    | zero => rfl
    | succ fuel ih =>
      rw [Builder.make, if_neg Int.one_ne_zero]
      exact congrArg (Option.bind · _) ih
  have hright (fuel : ℕ) (nodes : Nodes K T) (s : ℕ) : Builder.make fuel nodes s 1 (-1) = none := by
    cases fuel with
    | zero => rfl
    | succ fuel =>
      rw [Builder.make, if_neg (by decide)]
      exact congrArg (Option.bind · _) (hfrom fuel nodes s)
  cases fuel with
  | zero => rfl
  | succ fuel =>
    rw [Builder.make, if_neg (by decide)]
    exact Option.bind_eq_none_iff.mpr fun left _ => congrArg (Option.bind · _) (hright fuel left.1 left.2.1)

theorem make_singleton (fuel : ℕ) (mark : K × T) : make fuel [mark] = none := by
  rw [make_eq, layOut]
  cases Builder.allocate (K := K) (T := T) [mark].length with
  | none => rfl
  | some nodes => exact congrArg (Option.bind · _) (make_none fuel nodes 0)

theorem make_built (l u : K × T) (rest : List (K × T)) :
    ∃ fuel tree, make fuel (l :: u :: rest) = some tree ∧ Built tree (leaves l (u :: rest)) := by
  have hlength : (leaves l (u :: rest)).length ≤ (l :: u :: rest).length := by
    rw [length_leaves]
    exact Nat.le_succ _
  obtain ⟨tree, hlayOut, hbuilt⟩ := layOut_spec (List.cons_ne_nil _ _) (contiguous_leaves l (u :: rest)) le_rfl hlength
  exact ⟨_, tree, (make_eq _ l (u :: rest)).trans hlayOut, hbuilt⟩

end

theorem eq_of_addAll {mark : K × T} (hall : addAll marks = [mark]) {a : K × T} (ha : a ∈ marks) : a.1 = mark.1 := by
  have hmem : a.1 ∈ (addAll marks).map Prod.fst := (Keyed.mem_map_putAll marks).mpr (List.mem_map_of_mem ha)
  rw [hall, List.map_singleton] at hmem
  exact List.mem_singleton.mp hmem

/-- There is a tree for two marks or more. -/
theorem make_some_iff : (∃ fuel tree, make fuel (addAll marks) = some tree) ↔ ∃ a ∈ marks, ∃ b ∈ marks, a.1 ≠ b.1 := by
  have hmem : ∀ k, k ∈ (addAll marks).map Prod.fst ↔ k ∈ marks.map Prod.fst := fun k => Keyed.mem_map_putAll marks
  constructor
  · rintro ⟨fuel, tree, hmake⟩
    match hall : addAll marks with
    | [] =>
      rw [hall] at hmake
      cases hmake
    | [mark] =>
      rw [hall, make_singleton] at hmake
      cases hmake
    | l :: u :: rest =>
      have hsorted : Keyed.Sorted Prod.fst (l :: u :: rest) := hall ▸ Keyed.sorted_putAll Prod.fst marks
      rw [hall] at hmem
      obtain ⟨a, ha, hfst⟩ := List.mem_map.mp ((hmem l.1).mp List.mem_cons_self)
      obtain ⟨b, hb, hsnd⟩ := List.mem_map.mp ((hmem u.1).mp (List.mem_cons_of_mem _ List.mem_cons_self))
      exact ⟨a, ha, b, hb, hfst ▸ hsnd ▸ ((List.pairwise_cons.mp hsorted).1 u List.mem_cons_self).ne⟩
  · rintro ⟨a, ha, b, hb, hne⟩
    match hall : addAll marks with
    | [] =>
      have ha' := (hmem a.1).mpr (List.mem_map_of_mem ha)
      rw [hall] at ha'
      exact absurd ha' List.not_mem_nil
    | [mark] => exact absurd ((eq_of_addAll hall ha).trans (eq_of_addAll hall hb).symm) hne
    | l :: u :: rest =>
      obtain ⟨fuel, tree, hmake, -⟩ := make_built l u rest
      exact ⟨fuel, tree, hmake⟩

theorem find_made {fuel : ℕ} {tree : Tree K T} (h : make fuel (addAll marks) = some tree) (key : K) :
    tree.find key = some (value marks key) ↔ ¬IsGreatest {mark | mark ∈ marks.map Prod.fst} key := by
  match hall : addAll marks with
  | [] =>
    rw [hall] at h
    cases h
  | [mark] =>
    rw [hall, make_singleton] at h
    cases h
  | l :: u :: rest =>
    obtain ⟨fuel', tree', hmake, hbuilt⟩ := make_built l u rest
    rw [make_eq] at hmake
    rw [hall, make_eq] at h
    obtain rfl := layOut_unique h hmake
    exact find_iff hall hbuilt key

end MarkerBuilder

/-! ### Look-ups -/

theorem find_correct_iff :
    (∀ (d : T) (segs : List (Segment K T)), segs ≠ [] → (∀ seg ∈ segs, seg.low < seg.high) →
      segs.Pairwise (fun a b => Disjoint a.keys b.keys) →
        ∃ fuel tree, SegmentBuilder.make fuel d (SegmentBuilder.addAll segs) Tree.empty = some tree ∧
          ∀ key, tree.find key = some (SegmentBuilder.value d segs key) ↔
            ¬IsGreatest {high | high ∈ segs.map Segment.high} key) ∧
      ∀ (marks : List (K × T)) (key : K),
        (∃ fuel tree, MarkerBuilder.make fuel (MarkerBuilder.addAll marks) = some tree ∧
          tree.find key = some (MarkerBuilder.value marks key)) ↔
            (∃ a ∈ marks, ∃ b ∈ marks, a.1 ≠ b.1) ∧ ¬IsGreatest {mark | mark ∈ marks.map Prod.fst} key := by
  refine ⟨fun d segs hne hsegs hdisjoint => ?_, fun marks key => ?_⟩
  · have h : SegmentBuilder.Disjointed segs := ⟨hsegs, hdisjoint⟩
    obtain ⟨tree, seg, rest, hall, hmake, hbuilt⟩ := h.built hne d Tree.empty le_rfl
    exact ⟨_, tree, hmake, h.find_iff hall hbuilt⟩
  · constructor
    · rintro ⟨fuel, tree, hmake, hfind⟩
      exact ⟨MarkerBuilder.make_some_iff.mp ⟨fuel, tree, hmake⟩, (MarkerBuilder.find_made hmake key).mp hfind⟩
    · rintro ⟨htwo, hgreatest⟩
      obtain ⟨fuel, tree, hmake⟩ := MarkerBuilder.make_some_iff.mpr htwo
      exact ⟨fuel, tree, hmake, (MarkerBuilder.find_made hmake key).mpr hgreatest⟩

theorem find_gap : ∃ fuel tree,
    SegmentBuilder.make fuel 0 (SegmentBuilder.addAll [⟨4, 6, 1⟩, ⟨0, 2, 2⟩]) (Tree.empty : Tree ℕ ℕ) = some tree ∧
      tree.find 3 = some (some 0) := by
  obtain ⟨fuel, tree, hmake, hfind⟩ := find_correct_iff.1 0 [(⟨4, 6, 1⟩ : Segment ℕ ℕ), ⟨0, 2, 2⟩] nofun
    (by simp) (by simp [Segment.keys])
  refine ⟨fuel, tree, hmake, (hfind 3).mpr ?_⟩
  rintro ⟨hmem, -⟩
  exact absurd hmem (by simp)

/-- The exclusive bound 2 of the segment is found, and one mark has no tree. -/
theorem high_found :
    (∃ tree : Tree ℕ Bool,
      SegmentBuilder.make 1 false (SegmentBuilder.addAll [⟨0, 2, true⟩]) Tree.empty = some tree ∧
        tree.find 2 = some (some true) ∧ SegmentBuilder.value false [⟨0, 2, true⟩] 2 = none) ∧
      ∀ fuel, MarkerBuilder.make fuel (MarkerBuilder.addAll [((0 : ℕ), true)]) = none :=
  ⟨⟨_, rfl, rfl, rfl⟩, fun fuel => MarkerBuilder.make_singleton fuel (0, true)⟩

end Otawa.Elm.STree
