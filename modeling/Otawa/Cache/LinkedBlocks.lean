import Otawa.Cfg.LoopInfo

/-!
# `LinkedBlocksDetector`

The l-blocks of a cache row that have the same cache block and are FIRST_MISS for the same loop are linked. The
detector sorts the FIRST_MISS l-blocks of a cache block by the numbers of their headers, which the headers of two
CFGs may share, and cuts the list where the header changes: `linked_group` says what the parts are.
-/

namespace Otawa

/-- `CATEGORY` of an l-block, with the `CATEGORY_HEADER` of a FIRST_MISS. -/
inductive Category (B : Type) where
  | alwaysHit
  | firstHit
  | firstMiss (header : B)
  | alwaysMiss
  | notClassified
  deriving DecidableEq

/-- `LBLOCKS`, one `LBlockSet` for each row of the cache, and what the l-blocks have. -/
structure LBlocks (B L : Type) where
  sets : List (List L)
  id : L → ℕ
  cacheblock : L → ℕ
  /-- Nothing reads it for the first and the last l-block of a set, which have none. -/
  bb : L → B
  category : L → Category B
  number : B → ℤ

namespace LBlocks

variable {B L : Type}

/-- The sets as `LBlockBuilder` builds them: an l-block is numbered by its place, and a cache block by the place
of its first l-block; each set has a first and a last l-block that are not of the program. -/
structure WellFormed (c : LBlocks B L) : Prop where
  nodup : c.sets.flatten.Nodup
  id_eq : ∀ set ∈ c.sets, ∀ i (hi : i < set.length), c.id set[i] = i
  cacheblock_lt : ∀ set ∈ c.sets, ∀ lblock ∈ set, c.cacheblock lblock < set.length
  ends : ∀ set ∈ c.sets, 2 ≤ set.length

variable (c : LBlocks B L)

/-- `(lblock->id() == 0) || (lblock->id() == (lbset->count() - 1))`. -/
def isEnd (set : List L) (lblock : L) : Bool :=
  c.id lblock = 0 || c.id lblock = set.length - 1

/-- The l-blocks of the program, in the order of the iterators. -/
def lblocks : List L :=
  c.sets.flatMap fun set => set.filter fun lblock => !c.isEnd set lblock

/-- `CATEGORY_HEADER`. -/
def header (lblock : L) : Option B :=
  match c.category lblock with
  | .firstMiss header => some header
  | _ => none

theorem header_eq_some {c : LBlocks B L} {lblock : L} {header : B} :
    c.header lblock = some header ↔ c.category lblock = .firstMiss header := by
  unfold LBlocks.header
  cases c.category lblock <;> simp

end LBlocks

namespace LinkedBlocksDetector

variable {B L : Type} [DecidableEq B] [DecidableEq L] (c : LBlocks B L)

/-- `CATEGORY_HEADER(lblock)->number()`. -/
def headerNumber (lblock : L) : ℤ :=
  (c.header lblock).elim 0 c.number

/-- `NumberOrder::compare`. -/
def compare (lb1 lb2 : L) : ℤ :=
  headerNumber c lb1 - headerNumber c lb2

/-- The l-blocks that the detector puts in the list of a cache block. -/
def isListed (set : List L) (j : ℕ) (lblock : L) : Bool :=
  !c.isEnd set lblock && (c.header lblock).isSome && c.cacheblock lblock = j

/-- `blockList[j]`. -/
def blockList (set : List L) (j : ℕ) : List L :=
  (set.filter (isListed c set j)).foldl (fun list lblock => SortedSLList.add (compare c) lblock list) []

/-- `recordBlocks`. -/
def recordBlocks (linked : L → Option (List L)) (equiv : List L) : L → Option (List L) :=
  if equiv.length = 1 then linked
  else equiv.foldl (fun linked lblock => Function.update linked lblock (some equiv)) linked

structure State (B L : Type) where
  linked : L → Option (List L)
  equiv : List L
  oldHeader : Option B

/-- One turn of the loop over a list. -/
def step (s : State B L) (lblock : L) : State B L :=
  let s := if s.oldHeader.isSome ∧ s.oldHeader ≠ c.header lblock then
      { s with linked := recordBlocks s.linked s.equiv, equiv := [] }
    else s
  { s with equiv := s.equiv ++ [lblock], oldHeader := c.header lblock }

def linkList (linked : L → Option (List L)) (list : List L) : L → Option (List L) :=
  if list.isEmpty then linked
  else
    let s := list.foldl (step c) ⟨linked, [], none⟩
    recordBlocks s.linked s.equiv

/-- `processWorkSpace`: the property `LINKED_BLOCKS`. -/
def processWorkSpace : L → Option (List L) :=
  c.sets.foldl (fun linked set => (List.range set.length).foldl (fun linked j => linkList c linked (blockList c set j))
    linked) fun _ => none

/-! ### The lists are sorted, and stable -/

section Lists

variable {c} {set list : List L} {j : ℕ} {lblock : L}

omit [DecidableEq B] [DecidableEq L]

theorem compare_neg_iff (lb1 lb2 : L) : compare c lb1 lb2 < 0 ↔ headerNumber c lb1 < headerNumber c lb2 := by
  rw [compare]
  omega

/-- No header comes before one with a smaller number. -/
def Sorted (c : LBlocks B L) (list : List L) : Prop :=
  list.Pairwise fun lb1 lb2 => ¬ headerNumber c lb2 < headerNumber c lb1

theorem Sorted.add (hlist : Sorted c list) (lblock : L) : Sorted c (SortedSLList.add (compare c) lblock list) := by
  refine SortedSLList.pairwise_add hlist ?_ ?_ ?_
  · exact fun lb _ => compare_neg_iff lblock lb
  · intro lb _
    omega
  · intro lb _ lb' _
    omega

/-- An l-block comes after those with its header. -/
theorem filter_add [DecidableEq B] (hlist : Sorted c list) (header : Option B) :
    (SortedSLList.add (compare c) lblock list).filter (fun lb => c.header lb = header) =
      (list ++ [lblock]).filter fun lb => c.header lb = header := by
  induction list with
  | nil => rfl
  | cons current rest ih =>
    obtain ⟨hcurrent, hrest⟩ := List.pairwise_cons.mp hlist
    unfold SortedSLList.add
    split
    case isTrue hless =>
      rw [compare_neg_iff] at hless
      rw [List.filter_append]
      by_cases hheader : c.header lblock = header
      · -- those that come after have greater numbers
        have hnone : (current :: rest).filter (fun lb => c.header lb = header) = [] := by
          rw [List.filter_eq_nil_iff]
          intro lb hlb hlb'
          have hnumber : headerNumber c lb = headerNumber c lblock := by
            rw [headerNumber, headerNumber, of_decide_eq_true hlb', hheader]
          obtain rfl | hlb := List.mem_cons.mp hlb
          · omega
          · have := hcurrent lb hlb
            omega
        rw [List.filter_cons, hnone]
        simp [hheader]
      · simp [hheader]
    case isFalse =>
      rw [List.cons_append, List.filter_cons, List.filter_cons, ih hrest]

theorem foldl_add [DecidableEq B] (items : List L) (hlist : Sorted c list) :
    Sorted c (items.foldl (fun list lblock => SortedSLList.add (compare c) lblock list) list) ∧
      ∀ header, (items.foldl (fun list lblock => SortedSLList.add (compare c) lblock list) list).filter
        (fun lb => c.header lb = header) = (list ++ items).filter fun lb => c.header lb = header := by
  induction items generalizing list with
  | nil => exact ⟨hlist, fun header => by rw [List.append_nil]; rfl⟩
  | cons lblock items ih =>
    obtain ⟨hsorted, hfilter⟩ := ih (hlist.add lblock)
    refine ⟨hsorted, fun header => ?_⟩
    rw [List.foldl_cons, hfilter, List.filter_append, filter_add hlist, ← List.filter_append, List.append_assoc]
    rfl

/-- The l-blocks of a list that have one header are in the order of the set. -/
theorem filter_blockList [DecidableEq B] (header : Option B) :
    (blockList c set j).filter (fun lb => c.header lb = header) =
      (set.filter (isListed c set j)).filter fun lb => c.header lb = header := by
  rw [blockList, (foldl_add _ .nil).2 header]
  rfl

theorem blockList_perm (set : List L) (j : ℕ) : (blockList c set j).Perm (set.filter (isListed c set j)) := by
  have hfold : ∀ items list : List L,
      (items.foldl (fun list lblock => SortedSLList.add (compare c) lblock list) list).Perm (items ++ list) := by
    intro items
    induction items with
    | nil => exact fun list => .refl _
    | cons lblock items ih =>
      intro list
      exact (ih _).trans (((SortedSLList.add_perm list).append_left items).trans List.perm_middle)
  have hall := hfold (set.filter (isListed c set j)) []
  rw [List.append_nil] at hall
  exact hall

theorem mem_blockList : lblock ∈ blockList c set j ↔ lblock ∈ set ∧ isListed c set j lblock = true :=
  (blockList_perm set j).mem_iff.trans List.mem_filter

end Lists

/-! ### The parts of a list -/

section Parts

variable {c} {linked : L → Option (List L)} {set list g : List L} {j : ℕ} {lblock : L}

/-- The l-blocks of a part: there is one and they have one header. -/
def IsPart (c : LBlocks B L) (g : List L) : Prop :=
  g ≠ [] ∧ ∃ header, ∀ lblock ∈ g, c.header lblock = some header

/-- The loop over a list, after some of its l-blocks. -/
structure Cut (c : LBlocks B L) (linked : L → Option (List L)) (done : List L) (s : State B L) : Prop where
  parts : ∃ gs : List (List L), s.linked = gs.foldl recordBlocks linked ∧ gs.flatten ++ s.equiv = done ∧
    ∀ g ∈ gs, IsPart c g
  equiv : s.equiv = [] ↔ s.oldHeader = none
  oldHeader : ∀ lblock ∈ s.equiv, c.header lblock = s.oldHeader
  started : done ≠ [] → s.oldHeader.isSome

omit [DecidableEq B] in
theorem Cut.isPart {done : List L} {s : State B L} (h : Cut c linked done s)
    (hsome : s.oldHeader.isSome) : IsPart c s.equiv := by
  obtain ⟨header, heq⟩ := Option.isSome_iff_exists.mp hsome
  refine ⟨fun hnil => ?_, header, fun lb hlb => (h.oldHeader lb hlb).trans heq⟩
  rw [h.equiv.mp hnil] at heq
  exact absurd heq (by simp)

theorem step_cut {done : List L} {s : State B L} (h : Cut c linked done s) (hsome : (c.header lblock).isSome) :
    Cut c linked (done ++ [lblock]) (step c s lblock) := by
  obtain ⟨gs, hlinked, hdone, hparts⟩ := h.parts
  obtain ⟨header, hheader⟩ := Option.isSome_iff_exists.mp hsome
  unfold step
  split
  case isTrue hchange =>
    refine ⟨⟨gs ++ [s.equiv], ?_, ?_, ?_⟩, ?_, ?_, fun _ => hsome⟩
    · rw [List.foldl_append, ← hlinked]
      rfl
    · rw [List.flatten_append, ← hdone]
      simp
    · intro g hg
      obtain hg | hg := List.mem_append.mp hg
      · exact hparts g hg
      · obtain rfl := List.mem_singleton.mp hg
        exact h.isPart hchange.1
    · simp [hheader]
    · intro lb hlb
      obtain rfl := List.mem_singleton.mp hlb
      rfl
  case isFalse hsame =>
    refine ⟨⟨gs, hlinked, ?_, hparts⟩, ?_, ?_, fun _ => hsome⟩
    · rw [← List.append_assoc, hdone]
    · simp [hheader]
    · intro lb hlb
      obtain hlb | hlb := List.mem_append.mp hlb
      · rw [h.oldHeader lb hlb]
        by_contra hne
        refine hsame ⟨?_, hne⟩
        by_contra hnone
        rw [h.equiv.mpr (Option.not_isSome_iff_eq_none.mp hnone)] at hlb
        exact absurd hlb List.not_mem_nil
      · obtain rfl := List.mem_singleton.mp hlb
        rfl

theorem linkList_parts (hsome : ∀ lb ∈ list, (c.header lb).isSome) : ∃ gs : List (List L),
    linkList c linked list = gs.foldl recordBlocks linked ∧ gs.flatten = list ∧ ∀ g ∈ gs, IsPart c g := by
  have hfold : ∀ rest done s, (∀ lb ∈ rest, (c.header lb).isSome) → Cut c linked done s →
      Cut c linked (done ++ rest) (rest.foldl (step c) s) := by
    intro rest
    induction rest with
    | nil =>
      intro done s _ h
      rw [List.append_nil]
      exact h
    | cons lb rest ih =>
      intro done s hsome h
      have h' := ih _ _ (fun lb' hlb' => hsome lb' (List.mem_cons_of_mem _ hlb'))
        (step_cut h (hsome lb List.mem_cons_self))
      rw [List.append_assoc] at h'
      exact h'
  have hinit : Cut c linked [] ⟨linked, [], none⟩ := by
    refine ⟨⟨[], rfl, rfl, ?_⟩, iff_of_true rfl rfl, ?_, fun hne => absurd rfl hne⟩
    · exact fun g hg => absurd hg List.not_mem_nil
    · exact fun lb hlb => absurd hlb List.not_mem_nil
  have hend := hfold list [] _ hsome hinit
  obtain ⟨gs, hlinked, hdone, hparts⟩ := hend.parts
  unfold linkList
  split
  case isTrue hnil =>
    rw [List.isEmpty_iff] at hnil
    exact ⟨[], rfl, hnil.symm, fun g hg => absurd hg List.not_mem_nil⟩
  case isFalse hne =>
    rw [List.isEmpty_iff] at hne
    refine ⟨gs ++ [(list.foldl (step c) ⟨linked, [], none⟩).equiv], ?_, ?_, ?_⟩
    · rw [List.foldl_append, ← hlinked]
      rfl
    · rw [List.flatten_append, List.flatten_singleton]
      exact hdone
    · intro g hg
      obtain hg | hg := List.mem_append.mp hg
      · exact hparts g hg
      · obtain rfl := List.mem_singleton.mp hg
        exact hend.isPart (hend.started hne)

omit [DecidableEq L] in
/-- A part is in the order of the set. -/
theorem IsPart.sublist_set (hpart : IsPart c g) (hg : g.Sublist (blockList c set j)) : g.Sublist set := by
  obtain ⟨-, header, hheader⟩ := hpart
  have hself : g.filter (fun lb => c.header lb = some header) = g := by
    rw [List.filter_eq_self]
    exact fun lb hlb => decide_eq_true (hheader lb hlb)
  rw [← hself]
  refine (hg.filter _).trans ?_
  rw [filter_blockList]
  exact List.filter_sublist.trans List.filter_sublist

omit [DecidableEq B] in
/-- A loop that records the parts of each of its items. -/
theorem foldl_parts {A : Type} {f : (L → Option (List L)) → A → L → Option (List L)} {lists : A → List L}
    {P : A → List L → Prop} (items : List A) (linked : L → Option (List L))
    (hstep : ∀ a ∈ items, ∀ linked, ∃ gs : List (List L), f linked a = gs.foldl recordBlocks linked ∧
      gs.flatten = lists a ∧ ∀ g ∈ gs, P a g) :
    ∃ gs : List (List L), items.foldl f linked = gs.foldl recordBlocks linked ∧
      gs.flatten = items.flatMap lists ∧ ∀ g ∈ gs, ∃ a ∈ items, P a g := by
  induction items generalizing linked with
  | nil => exact ⟨[], rfl, rfl, fun g hg => absurd hg List.not_mem_nil⟩
  | cons a items ih =>
    obtain ⟨gs, hfirst, hflatten, hgs⟩ := hstep a List.mem_cons_self linked
    obtain ⟨gs', hrest, hflatten', hgs'⟩ := ih (f linked a) fun a' ha' => hstep a' (List.mem_cons_of_mem a ha')
    refine ⟨gs ++ gs', ?_, ?_, ?_⟩
    · rw [List.foldl_cons, hrest, hfirst, List.foldl_append]
    · rw [List.flatten_append, hflatten, hflatten', List.flatMap_cons]
    · intro g hg
      obtain hg | hg := List.mem_append.mp hg
      · exact ⟨a, List.mem_cons_self, hgs g hg⟩
      · obtain ⟨a', ha', hP⟩ := hgs' g hg
        exact ⟨a', List.mem_cons_of_mem a ha', hP⟩

/-- The parts of all lists of all sets. -/
theorem processWorkSpace_parts (c : LBlocks B L) : ∃ gs : List (List L),
    processWorkSpace c = gs.foldl recordBlocks (fun _ => none) ∧
      gs.flatten = (c.sets.flatMap fun set => (List.range set.length).flatMap fun j => blockList c set j) ∧
      ∀ g ∈ gs, ∃ set ∈ c.sets, ∃ j ∈ List.range set.length, IsPart c g ∧ g.Sublist (blockList c set j) := by
  unfold processWorkSpace
  apply foldl_parts
  intro set _ linked
  apply foldl_parts
  intro j _ linked
  have hsome : ∀ lb ∈ blockList c set j, (c.header lb).isSome := by
    intro lb hlb
    have hlisted := (mem_blockList.mp hlb).2
    simp only [isListed, Bool.and_eq_true] at hlisted
    exact hlisted.1.2
  obtain ⟨gs, hlink, hflatten, hparts⟩ := @linkList_parts B L _ _ c linked (blockList c set j) hsome
  refine ⟨gs, hlink, hflatten, fun g hg => ⟨hparts g hg, ?_⟩⟩
  rw [← hflatten]
  exact List.sublist_flatten_of_mem hg

/-! ### The groups -/

omit [DecidableEq B] in
theorem recordBlocks_apply (linked : L → Option (List L)) (g : List L) (lblock : L) :
    recordBlocks linked g lblock = if lblock ∈ g ∧ g.length ≠ 1 then some g else linked lblock := by
  have hfold : ∀ (lbs : List L) (linked : L → Option (List L)),
      lbs.foldl (fun linked lb => Function.update linked lb (some g)) linked lblock =
      if lblock ∈ lbs then some g else linked lblock := by
    intro lbs
    induction lbs with
    | nil => exact fun linked => rfl
    | cons lb lbs ih =>
      intro linked
      rw [List.foldl_cons, ih]
      by_cases hmem : lblock ∈ lbs
      · rw [if_pos hmem, if_pos (List.mem_cons_of_mem lb hmem)]
      · rw [if_neg hmem]
        by_cases heq : lblock = lb
        · subst heq
          rw [Function.update_self, if_pos List.mem_cons_self]
        · rw [Function.update_of_ne heq, if_neg (List.not_mem_cons_of_ne_of_not_mem heq hmem)]
  unfold recordBlocks
  split
  case isTrue hone => rw [if_neg fun h => h.2 hone]
  case isFalse hmore =>
    rw [hfold]
    exact if_congr (and_iff_left hmore).symm rfl rfl

omit [DecidableEq B] in
theorem foldl_recordBlocks {gs : List (List L)} (hnodup : gs.flatten.Nodup) :
    gs.foldl recordBlocks (fun _ => none) lblock = some g ↔ g ∈ gs ∧ lblock ∈ g ∧ g.length ≠ 1 := by
  induction gs using List.reverseRecOn with
  | nil => exact iff_of_false (by simp) fun h => absurd h.1 List.not_mem_nil
  | append_singleton gs g' ih =>
    rw [List.flatten_append, List.flatten_singleton, List.nodup_append] at hnodup
    obtain ⟨hnodup, -, hdisjoint⟩ := hnodup
    rw [List.foldl_append, List.foldl_cons, List.foldl_nil, recordBlocks_apply, List.mem_append,
      List.mem_singleton]
    by_cases hin : lblock ∈ g' ∧ g'.length ≠ 1
    · rw [if_pos hin, Option.some_inj]
      constructor
      · rintro rfl
        exact ⟨.inr rfl, hin⟩
      · rintro ⟨hg | rfl, hmem, -⟩
        · exact absurd rfl (hdisjoint lblock (List.mem_flatten_of_mem hg hmem) lblock hin.1)
        · rfl
    · rw [if_neg hin, ih hnodup]
      constructor
      · rintro ⟨hg, h⟩
        exact ⟨.inl hg, h⟩
      · rintro ⟨hg | rfl, h⟩
        · exact ⟨hg, h⟩
        · exact absurd h hin

omit [DecidableEq B] [DecidableEq L] in
theorem nodup_lists (hc : c.WellFormed) :
    (c.sets.flatMap fun set => (List.range set.length).flatMap fun j => blockList c set j).Nodup := by
  obtain ⟨hsets, hdisjoint⟩ := List.nodup_flatten.mp hc.nodup
  rw [List.nodup_flatMap]
  constructor
  · intro set hset
    rw [List.nodup_flatMap]
    constructor
    · intro j _
      exact (blockList_perm set j).nodup_iff.mpr ((hsets set hset).filter _)
    · refine List.nodup_range.imp fun {j j'} hne lb hlb hlb' => hne ?_
      have h := (mem_blockList.mp hlb).2
      have h' := (mem_blockList.mp hlb').2
      simp only [isListed, Bool.and_eq_true, decide_eq_true_eq] at h h'
      exact h.2.symm.trans h'.2
  · refine hdisjoint.imp fun {set set'} hdisjoint lb hlb hlb' => ?_
    obtain ⟨j, -, hlb⟩ := List.mem_flatMap.mp hlb
    obtain ⟨j', -, hlb'⟩ := List.mem_flatMap.mp hlb'
    exact hdisjoint (mem_blockList.mp hlb).1 (mem_blockList.mp hlb').1

/-- The group of a linked l-block: l-blocks of one set in its order, with one header and with this group. -/
theorem linked_group (hc : c.WellFormed) (hlinked : processWorkSpace c lblock = some g) :
    lblock ∈ g ∧ ∃ set ∈ c.sets, ∃ header, g.Sublist set ∧ ∀ lb ∈ g, c.isEnd set lb = false ∧
      c.header lb = some header ∧ processWorkSpace c lb = some g := by
  obtain ⟨gs, hgs, hflatten, hparts⟩ := processWorkSpace_parts c
  have hnodup : gs.flatten.Nodup := by
    rw [hflatten]
    exact nodup_lists hc
  rw [hgs, foldl_recordBlocks hnodup] at hlinked
  obtain ⟨hg, hmem, hlength⟩ := hlinked
  obtain ⟨set, hset, j, -, hpart, hsublist⟩ := hparts g hg
  have horder := hpart.sublist_set hsublist
  obtain ⟨-, header, hheader⟩ := hpart
  refine ⟨hmem, set, hset, header, horder, ?_⟩
  intro lb hlb
  have hlisted := (mem_blockList.mp (hsublist.mem hlb)).2
  simp only [isListed, Bool.and_eq_true, Bool.not_eq_true'] at hlisted
  refine ⟨hlisted.1.1, hheader lb hlb, ?_⟩
  rw [hgs, foldl_recordBlocks hnodup]
  exact ⟨hg, hlb, hlength⟩

end Parts

end LinkedBlocksDetector

end Otawa
