import Otawa.Cfg.Dominance
import Otawa.Cfg.Loops

/-!
# `LoopInfoBuilder`

The headers of the loops around a block are the least solution of a backward data-flow problem: a back edge
generates its header, and the header kills itself. The headers are numbered along a list sorted by dominance,
inner headers first, so the first bit of a set is the innermost loop and the last one the outermost.

The annotations are those of the natural loops (`processCFG_exact`). An edge that leaves several loops is in
the exit list of the outermost one only (`inner_exit_not_listed`).
-/

namespace Otawa

open IterativeDFA

namespace SortedSLList

variable {T : Type}

/-- `SortedSLList::add`: the value comes before the first item that it is smaller than. -/
def add (compare : T → T → ℤ) (value : T) : List T → List T
  | [] => [value]
  | current :: rest =>
    if compare value current < 0 then value :: current :: rest else current :: add compare value rest

variable {compare : T → T → ℤ} {value : T}

theorem add_perm (l : List T) : (add compare value l).Perm (value :: l) := by
  induction l with
  | nil => exact .refl _
  | cons current rest ih =>
    unfold add
    split
    · exact .refl _
    · exact (ih.cons current).trans (.swap value current rest)

theorem mem_add {l : List T} {t : T} : t ∈ add compare value l ↔ t = value ∨ t ∈ l :=
  (add_perm l).mem_iff.trans List.mem_cons

/-- A list where no item is related to a later one stays so, when the values that the new one is smaller than
are those related to it and the relation is transitive around it. -/
theorem pairwise_add {R : T → T → Prop} {l : List T} (hl : l.Pairwise fun a b => ¬ R a b)
    (hcompare : ∀ t ∈ l, compare value t < 0 ↔ R t value) (hanti : ∀ t ∈ l, R t value → ¬ R value t)
    (htrans : ∀ t ∈ l, ∀ u ∈ l, R t value → R value u → R t u) :
    (add compare value l).Pairwise fun a b => ¬ R a b := by
  induction l with
  | nil => exact List.pairwise_singleton _ _
  | cons current rest ih =>
    obtain ⟨hcurrent, hrest⟩ := List.pairwise_cons.mp hl
    unfold add
    split
    case isTrue hless =>
      have hrel := (hcompare current List.mem_cons_self).mp hless
      refine List.pairwise_cons.mpr ⟨fun u hu hvu => ?_, hl⟩
      obtain rfl | hu := List.mem_cons.mp hu
      · exact hanti u List.mem_cons_self hrel hvu
      · exact hcurrent u hu (htrans current List.mem_cons_self u (List.mem_cons_of_mem _ hu) hrel hvu)
    case isFalse hless =>
      refine List.pairwise_cons.mpr ⟨fun u hu hcu => ?_, ?_⟩
      · obtain rfl | hu := mem_add.mp hu
        · exact hless ((hcompare current List.mem_cons_self).mpr hcu)
        · exact hcurrent u hu hcu
      · apply ih hrest
        · exact fun t ht => hcompare t (List.mem_cons_of_mem _ ht)
        · exact fun t ht => hanti t (List.mem_cons_of_mem _ ht)
        · exact fun t ht u hu => htrans t (List.mem_cons_of_mem _ ht) u (List.mem_cons_of_mem _ hu)

end SortedSLList

namespace LoopInfo

variable {B E : Type} [DecidableEq B]

/-- What the builder reads: the graph, the dominators of its blocks, and its loop headers. -/
structure Input (B E : Type) where
  cfg : CFG B E
  reverseDom : B → BitSet
  loopHeader : B → Bool

section

variable (g : Input B E)

/-- `Dominance::dominates`; its assertion holds for all the blocks it is asked about here (`dominates_asserts`). -/
def dominates (bb1 bb2 : B) : Bool :=
  (Dominance.dominates false g.cfg g.reverseDom bb1 bb2).getD false

/-- `DominanceOrder::compare`. -/
def compare (bb1 bb2 : B) : ℤ :=
  if dominates g bb1 bb2 then 1 else if dominates g bb2 bb1 then -1 else 0

/-- The headers, sorted. -/
def hdrs : List B :=
  (g.cfg.bbs.filter fun bb => !g.cfg.isEntry bb && g.loopHeader bb).foldl
    (fun list bb => SortedSLList.add (compare g) bb list) []

abbrev count : ℕ :=
  (hdrs g).length

/-- A `dfa::BitSet` of the problem. -/
abbrev Headers : Type :=
  Finset (Fin (count g))

/-- The bit `indexOf` of a block; a block that is not listed has none. -/
def bit (bb : B) : Headers g :=
  if h : (hdrs g).idxOf bb < count g then {⟨(hdrs g).idxOf bb, h⟩} else ∅

def gen (bb : B) : Headers g :=
  ((g.cfg.outs bb).filter fun edge =>
    g.cfg.kind edge ≠ .call && bb ≠ g.cfg.target edge && dominates g (g.cfg.target edge) bb).foldl
      (fun result edge => result ∪ bit g (g.cfg.target edge)) ∅

def kill (bb : B) : Headers g :=
  if g.loopHeader bb then bit g bb else ∅

/-- `LoopInfoProblem`. -/
def problem : Problem B (Headers g) where
  empty := ∅
  gen := gen g
  kill := kill g
  equals := fun set1 set2 => set1 = set2
  reset := fun _ => ∅
  merge := fun dst src => dst ∪ src
  diff := fun dst src => dst \ src
  add := fun dst src => dst ∪ src

end

/-- The engine on the iterator `Successor`. -/
def backwardWalk (c : CFG B E) : Walk B where
  bbs := c.bbs
  number := c.number
  iter := successors c
  forward := predecessors c

/-- `ENCLOSING_LOOP_HEADER`, `LOOP_EXIT_EDGE` and `EXIT_LIST`. -/
structure Info (B E : Type) where
  enclosing : B → Option B
  exitEdge : E → Option B
  exitList : B → Option (List E)

section

variable (g : Input B E)

/-- The header of the first bit. -/
def first (set : Headers g) : Option B :=
  ((List.finRange (count g)).find? fun i => i ∈ set).map (hdrs g).get

/-- The loop over the bits that leaves the header of the last one. -/
def last (set : Headers g) : Option B :=
  ((List.finRange (count g)).filter fun i => i ∈ set).foldl (fun _ i => some ((hdrs g).get i)) none

/-- The output set of a block, with the block itself if it is a header. -/
def around (out : B → Headers g) (bb : B) : Headers g :=
  out bb ∪ Finset.univ.filter fun i => (hdrs g).get i = bb

/-- The loop exited by an edge; the edges are those out of the blocks of the graph. -/
def exitEdge (out : B → Headers g) (edge : E) : Option B :=
  let bb := g.cfg.source edge
  if bb ∈ g.cfg.bbs ∧ ((first g (out bb)).isSome || g.loopHeader bb) = true ∧ g.cfg.kind edge ≠ .call then
    last g (around g out bb \ around g out (g.cfg.target edge))
  else none

/-- `buildLoopExitList`. -/
def buildLoopExitList (exitEdge : E → Option B) : B → Option (List E) :=
  (g.cfg.bbs.flatMap g.cfg.outs).foldl (fun exitList edge =>
    match exitEdge edge with
    | none => exitList
    | some h => Function.update exitList h (some ((exitList h).getD [] ++ [edge]))) fun _ => none

/-- `LoopInfoBuilder::processCFG` once the engine has ended; nothing is annotated without headers. -/
def processCFG (engine : State B (Headers g)) : Info B E :=
  let out := engine.out (backwardWalk g.cfg)
  if count g = 0 then ⟨fun _ => none, fun _ => none, fun _ => none⟩
  else
    { enclosing := fun bb => if bb ∈ g.cfg.bbs then first g (out bb) else none
      exitEdge := exitEdge g out
      exitList := buildLoopExitList g (exitEdge g out) }

end

/-- What `DOMINANCE_FEATURE` and `LOOP_HEADERS_FEATURE` promise, for a graph as it is built. -/
structure Input.Sound (g : Input B E) : Prop where
  wellFormed : g.cfg.WellFormed
  rooted : g.cfg.Rooted
  dominators : Dominance.ExactSets g.cfg g.reverseDom
  headers : ∀ h, g.loopHeader h = true ↔ ∃ e, g.cfg.target e = h ∧ g.cfg.kind e ≠ .call ∧
    g.cfg.source e ∈ g.cfg.bbs ∧ g.cfg.OnEveryPath h (g.cfg.source e)

omit [DecidableEq B] in
/-- The promise is kept by what `Dominance` leaves. -/
theorem Input.Sound.of_dominance {c : CFG B E} {x : B → BitSet} {m : Dominance.Marks B E} (hc : c.WellFormed)
    (hr : c.Rooted) (hx : Dominance.ExactSets c x) (hm : Dominance.Exact c m) :
    (⟨c, x, m.loopHeader⟩ : Input B E).Sound :=
  ⟨hc, hr, hx, hm.loopHeader⟩

variable {g : Input B E} {a b h k : B}

namespace Input.Sound

omit [DecidableEq B] in
theorem mem_of_reachable (hg : g.Sound) (hb : g.cfg.Reachable b) : b ∈ g.cfg.bbs := by
  obtain ⟨p, hpath⟩ := hb
  exact hg.wellFormed.path_mem hpath

theorem dominates_iff (hg : g.Sound) (ha : a ∈ g.cfg.bbs) (hb : b ∈ g.cfg.bbs) :
    dominates g a b = true ↔ g.cfg.OnEveryPath a b := by
  rw [← hg.dominators a ha b hb]
  simp [dominates, Dominance.dominates]

/-- A block that a path leads to can be compared with any block. -/
theorem dominates_asserts (hg : g.Sound) (ha : a ∈ g.cfg.bbs) (hb : b ∈ g.cfg.bbs)
    (hreach : g.cfg.Reachable a ∨ g.cfg.Reachable b) :
    Dominance.dominates true g.cfg g.reverseDom a b = some (dominates g a b) := by
  have hchecked : Dominance.dominates true g.cfg g.reverseDom a b ≠ none := by
    rw [Ne, Dominance.dominates_asserts_eq_none, hg.dominators a ha b hb, hg.dominators b hb a ha]
    rintro ⟨hne, hba, hab⟩
    obtain hreach | hreach := hreach
    · exact hne (hba.antisymm hab hreach).symm
    · exact hne (hab.antisymm hba hreach)
  unfold dominates Dominance.dominates at *
  split at hchecked
  · exact absurd rfl hchecked
  · rename_i hassert
    rw [if_neg hassert]
    simp

omit [DecidableEq B]

/-- The headers are those of the natural loops. -/
theorem loopHeader_iff (hg : g.Sound) : g.loopHeader h = true ↔ g.cfg.InLoop h h := by
  rw [hg.headers]
  constructor
  · rintro ⟨e, rfl, hkind, hmem, hevery⟩
    have hflow : g.cfg.Flow (g.cfg.source e) (g.cfg.target e) := ⟨e, hkind, rfl, rfl⟩
    exact (CFG.inLoop_of_back hflow (hg.rooted.reachable_source hflow) hevery).self
  · rintro ⟨_, -, ⟨a, hback⟩, -⟩
    obtain ⟨e, hkind, hsource, htarget⟩ := hback.1
    refine ⟨e, htarget, hkind, ?_, ?_⟩
    · exact hsource ▸ hg.mem_of_reachable a.2
    · exact hsource ▸ CFG.dominates_iff.mp hback.2

theorem header_ne_entry (hg : g.Sound) (hh : g.cfg.InLoop h h) : h ≠ g.cfg.entry := by
  rintro rfl
  obtain ⟨_, -, ⟨a, hback⟩, -⟩ := hh
  exact hg.rooted.entry_fresh hback.1

end Input.Sound

/-! ### The list of the headers -/

omit [DecidableEq B] in
theorem mem_foldl_add (compare : B → B → ℤ) (bs l : List B) :
    h ∈ bs.foldl (fun list bb => SortedSLList.add compare bb list) l ↔ h ∈ bs ∨ h ∈ l := by
  induction bs generalizing l with
  | nil => simp
  | cons b bs ih =>
    rw [List.foldl_cons, ih, SortedSLList.mem_add, List.mem_cons, ← or_assoc, or_comm (a := h ∈ bs)]

section

variable (hg : g.Sound)
include hg

theorem mem_hdrs : h ∈ hdrs g ↔ g.cfg.InLoop h h := by
  rw [hdrs, mem_foldl_add, List.mem_filter, ← hg.loopHeader_iff]
  constructor
  · rintro (⟨-, hheader⟩ | hnil)
    · exact (Bool.and_eq_true_iff.mp hheader).2
    · exact absurd hnil List.not_mem_nil
  · intro hheader
    have hin := hg.loopHeader_iff.mp hheader
    refine .inl ⟨hg.mem_of_reachable hin.reachable, ?_⟩
    simp [CFG.isEntry, hg.header_ne_entry hin, hheader]

/-- A header is added before the headers that dominate it. -/
theorem pairwise_add {l : List B} (hl : l.Pairwise fun a b => ¬ g.cfg.OnEveryPath a b)
    (hreach : ∀ a ∈ l, g.cfg.Reachable a) (hb : g.cfg.Reachable b) (hnew : b ∉ l) :
    (SortedSLList.add (compare g) b l).Pairwise fun a b => ¬ g.cfg.OnEveryPath a b := by
  have hanti : ∀ a ∈ l, g.cfg.OnEveryPath a b → ¬ g.cfg.OnEveryPath b a := by
    intro a ha hab hba
    exact hnew (hab.antisymm hba hb ▸ ha)
  apply SortedSLList.pairwise_add hl
  · intro a ha
    have hab := hg.dominates_iff (hg.mem_of_reachable (hreach a ha)) (hg.mem_of_reachable hb)
    have hba := hg.dominates_iff (hg.mem_of_reachable hb) (hg.mem_of_reachable (hreach a ha))
    unfold compare
    by_cases hdom : g.cfg.OnEveryPath b a
    · rw [if_pos (hba.mpr hdom)]
      exact iff_of_false (by omega) fun hdom' => hanti a ha hdom' hdom
    · rw [if_neg fun h => hdom (hba.mp h), ← hab]
      split <;> simp_all
  · exact hanti
  · exact fun a _ a' _ hab hba' => hab.trans hba'

/-- No header dominates one that comes later in the list. -/
theorem hdrs_pairwise : (hdrs g).Pairwise fun a b => ¬ g.cfg.OnEveryPath a b := by
  suffices hfold : ∀ bs l : List B, bs.Nodup → (∀ b ∈ bs, b ∉ l) → (∀ b ∈ bs, g.cfg.Reachable b) →
      (∀ b ∈ l, g.cfg.Reachable b) → (l.Pairwise fun a b => ¬ g.cfg.OnEveryPath a b) →
      (bs.foldl (fun list bb => SortedSLList.add (compare g) bb list) l).Pairwise
        fun a b => ¬ g.cfg.OnEveryPath a b by
    refine hfold _ [] (hg.wellFormed.nodup_bbs.filter _) (fun _ _ => List.not_mem_nil) ?_
      (fun _ hb => absurd hb List.not_mem_nil) .nil
    intro b hb
    have hheader := (Bool.and_eq_true_iff.mp (List.mem_filter.mp hb).2).2
    exact (hg.loopHeader_iff.mp hheader).reachable
  intro bs
  induction bs with
  | nil => exact fun l _ _ _ _ hl => hl
  | cons b bs ih =>
    intro l hnodup hnew hbs hreach hl
    obtain ⟨hb, hnodup⟩ := List.nodup_cons.mp hnodup
    have hfirst := hbs b List.mem_cons_self
    apply ih _ hnodup
    · intro a ha hadded
      obtain rfl | hmem := SortedSLList.mem_add.mp hadded
      · exact hb ha
      · exact hnew a (List.mem_cons_of_mem b ha) hmem
    · exact fun a ha => hbs a (List.mem_cons_of_mem b ha)
    · intro a hadded
      obtain rfl | hmem := SortedSLList.mem_add.mp hadded
      · exact hfirst
      · exact hreach a hmem
    · exact pairwise_add hg hl hreach hfirst (hnew b List.mem_cons_self)

theorem nodup_hdrs : (hdrs g).Nodup := by
  refine (hdrs_pairwise hg).imp ?_
  rintro a _ hnot rfl
  exact hnot (CFG.onEveryPath_self a)

theorem get_inLoop (i : Fin (count g)) : g.cfg.InLoop ((hdrs g).get i) ((hdrs g).get i) :=
  (mem_hdrs hg).mp (List.get_mem _ i)

/-! ### The sets -/

theorem mem_bit {i : Fin (count g)} : i ∈ bit g b ↔ (hdrs g).get i = b := by
  unfold bit
  constructor
  · intro hmem
    split at hmem
    · rw [Finset.mem_singleton.mp hmem]
      exact List.getElem_idxOf _
    · exact absurd hmem (Finset.notMem_empty i)
  · rintro rfl
    have hindex : (hdrs g).idxOf ((hdrs g).get i) = i := (nodup_hdrs hg).idxOf_getElem i i.isLt
    rw [dif_pos (hindex ▸ i.isLt), Finset.mem_singleton]
    exact Fin.ext hindex.symm

theorem mem_foldl_bit {i : Fin (count g)} (edges : List E) (set : Headers g) :
    i ∈ edges.foldl (fun result edge => result ∪ bit g (g.cfg.target edge)) set ↔
      i ∈ set ∨ ∃ e ∈ edges, g.cfg.target e = (hdrs g).get i := by
  induction edges generalizing set with
  | nil => simp
  | cons e edges ih => simp [ih, mem_bit hg, or_assoc, eq_comm]

/-- A block generates the headers of the back edges that leave it, unless they are its own. -/
theorem mem_gen (hb : b ∈ g.cfg.bbs) {i : Fin (count g)} :
    i ∈ gen g b ↔ g.cfg.Flow b ((hdrs g).get i) ∧ b ≠ (hdrs g).get i ∧ g.cfg.OnEveryPath ((hdrs g).get i) b := by
  rw [gen, mem_foldl_bit hg]
  have hheader := hg.mem_of_reachable (get_inLoop hg i).reachable
  simp only [Finset.notMem_empty, false_or, List.mem_filter, Bool.and_eq_true, decide_eq_true_eq,
    hg.wellFormed.mem_outs]
  constructor
  · rintro ⟨e, ⟨hsource, ⟨hkind, hne⟩, hdom⟩, htarget⟩
    rw [htarget] at hne hdom
    exact ⟨⟨e, hkind, hsource, htarget⟩, hne, (hg.dominates_iff hheader hb).mp hdom⟩
  · rintro ⟨⟨e, hkind, hsource, htarget⟩, hne, hevery⟩
    refine ⟨e, ⟨hsource, ⟨hkind, ?_⟩, ?_⟩, htarget⟩
    · rwa [htarget]
    · rw [htarget]
      exact (hg.dominates_iff hheader hb).mpr hevery

theorem mem_kill {i : Fin (count g)} : i ∈ kill g b ↔ (hdrs g).get i = b := by
  unfold kill
  split
  · exact mem_bit hg
  · rename_i hno
    refine iff_of_false (Finset.notMem_empty i) ?_
    rintro rfl
    exact hno (hg.loopHeader_iff.mpr (get_inLoop hg i))

end

omit [DecidableEq B] in
theorem mem_foldl_union {n : ℕ} {x : B → Finset (Fin n)} {i : Fin n} (l : List B) (set : Finset (Fin n)) :
    i ∈ l.foldl (fun dst b => dst ∪ x b) set ↔ i ∈ set ∨ ∃ a ∈ l, i ∈ x a := by
  induction l generalizing set with
  | nil => simp
  | cons a l ih => simp [ih, or_assoc]

/-- The headers around a block: those it generates, and those around a successor that are not the block. -/
theorem mem_transfer (hg : g.Sound) (hb : b ∈ g.cfg.bbs) {x : B → Headers g} {i : Fin (count g)} :
    i ∈ transfer (problem g) (backwardWalk g.cfg) b x ↔
      ((∃ a, g.cfg.Flow b a ∧ i ∈ x a) ∧ (hdrs g).get i ≠ b) ∨
        (g.cfg.Flow b ((hdrs g).get i) ∧ b ≠ (hdrs g).get i ∧ g.cfg.OnEveryPath ((hdrs g).get i) b) := by
  rw [← mem_gen hg hb, Ne, ← mem_kill hg]
  simp only [transfer, problem, backwardWalk, Finset.mem_union, Finset.mem_sdiff, mem_foldl_union,
    Finset.notMem_empty, false_or, hg.wellFormed.mem_successors]

theorem lawful (g : Input B E) : (problem g).Lawful where
  equals_iff := fun _ _ => decide_eq_true_iff
  reset_eq := fun _ => rfl
  merge_le := Finset.union_subset_union
  diff_le := fun hle => Finset.sdiff_subset_sdiff hle (Finset.Subset.refl _)
  add_le := Finset.union_subset_union_left

omit [DecidableEq B] in
theorem backwardWalk_lawful {c : CFG B E} (hc : c.WellFormed) : (backwardWalk c).Lawful where
  number_injective := fun _ ha _ hb => hc.number_injective ha hb
  nodup_bbs := hc.nodup_bbs
  iter_mem := fun _ _ hb ha => (hc.flow_mem (hc.mem_successors.mp ha)).mp hb
  forward_mem := fun _ _ ha hb => (hc.flow_mem (hc.mem_predecessors.mp hb)).mpr ha
  forward_of_iter := fun _ _ _ ha => hc.mem_predecessors.mpr (hc.mem_successors.mp ha)

/-- The number of the headers that are missing. -/
def missing (set : Headers g) : ℕ :=
  count g - set.card

theorem missing_strictAnti : StrictAnti (missing (g := g)) := by
  intro s t hlt
  have hcard := Finset.card_lt_card hlt
  have hbound := Finset.card_le_univ t
  rw [Fintype.card_fin] at hbound
  unfold missing
  omega

/-- The header and another block that lies in its loop. -/
def Around (g : Input B E) (i : Fin (count g)) (b : B) : Prop :=
  g.cfg.InLoop ((hdrs g).get i) b ∧ b ≠ (hdrs g).get i

/-- The sets the engine ends with are those of the headers around the blocks. -/
theorem mem_least (hg : g.Sound) {x : B → Headers g} (hx : Least (problem g) (backwardWalk g.cfg) x)
    (hb : b ∈ g.cfg.bbs) {i : Fin (count g)} : i ∈ x b ↔ Around g i b := by
  classical
  constructor
  · intro hmem
    have hbelow := hx.below (fun b => Finset.univ.filter fun i => Around g i b) ?_ b hb hmem
    · exact (Finset.mem_filter.mp hbelow).2
    · intro b hb i hi
      refine Finset.mem_filter.mpr ⟨Finset.mem_univ i, ?_⟩
      obtain ⟨⟨a, hflow, ha⟩, hne⟩ | ⟨hflow, hne, hevery⟩ := (mem_transfer hg hb).mp hi
      · obtain ⟨hin, hah⟩ := (Finset.mem_filter.mp ha).2
        exact ⟨hin.of_flow hflow (hg.rooted.reachable_source hflow) hah, hne.symm⟩
      · exact ⟨CFG.inLoop_of_back hflow (hg.rooted.reachable_source hflow) hevery, hne⟩
  · rintro ⟨hin, hne⟩
    have hfixed : ∀ a, g.cfg.Reachable a → i ∈ transfer (problem g) (backwardWalk g.cfg) a x → i ∈ x a := by
      intro a ha hi
      rwa [hx.fixed a (hg.mem_of_reachable ha)] at hi
    refine hin.induction (motive := fun b => i ∈ x b) ?_ ?_ hne
    · intro a hah hflow hevery
      have ha := hg.rooted.reachable_source hflow
      exact hfixed a ha ((mem_transfer hg (hg.mem_of_reachable ha)).mpr (.inr ⟨hflow, hah, hevery⟩))
    · intro a b hah hflow hmem
      have ha := hg.rooted.reachable_source hflow
      refine hfixed a ha ((mem_transfer hg (hg.mem_of_reachable ha)).mpr (.inl ⟨⟨b, hflow, hmem⟩, hah.symm⟩))

/-! ### The annotations -/

/-- Of two loops around a block, the one that comes first in the list is the inner one. -/
theorem le_iff_inLoop (hg : g.Sound) {i j : Fin (count g)} (hi : g.cfg.InLoop ((hdrs g).get i) b)
    (hj : g.cfg.InLoop ((hdrs g).get j) b) : i ≤ j ↔ g.cfg.InLoop ((hdrs g).get j) ((hdrs g).get i) := by
  have hbefore : ∀ {i j : Fin (count g)}, g.cfg.InLoop ((hdrs g).get i) b → g.cfg.InLoop ((hdrs g).get j) b →
      i < j → g.cfg.InLoop ((hdrs g).get j) ((hdrs g).get i) := by
    intro i j hi hj hlt
    exact hj.nested hi (List.pairwise_iff_get.mp (hdrs_pairwise hg) i j hlt)
  constructor
  · intro hle
    obtain hlt | rfl := lt_or_eq_of_le hle
    · exact hbefore hi hj hlt
    · exact hi.self
  · intro hin
    by_contra hlt
    have heq := (hbefore hj hi (not_le.mp hlt)).antisymm hin
    exact hlt ((List.nodup_iff_injective_get.mp (nodup_hdrs hg)) heq).le

theorem exists_index (hg : g.Sound) (hin : g.cfg.InLoop h b) : ∃ i, (hdrs g).get i = h :=
  List.mem_iff_get.mp ((mem_hdrs hg).mpr hin.self)

theorem first_eq_some {set : Headers g} :
    first g set = some h ↔ ∃ i ∈ set, (hdrs g).get i = h ∧ ∀ j ∈ set, i ≤ j := by
  unfold first
  rw [Option.map_eq_some_iff]
  constructor
  · rintro ⟨i, hfind, hget⟩
    obtain ⟨hmem, n, hn, hi, hbefore⟩ := List.find?_eq_some_iff_getElem.mp hfind
    refine ⟨i, of_decide_eq_true hmem, hget, fun j hj => ?_⟩
    by_contra hlt
    have hval : (i : ℕ) = n := by rw [← hi]; simp
    have hskipped := hbefore j (hval ▸ not_le.mp hlt)
    simp [hj] at hskipped
  · rintro ⟨i, hmem, hget, hleast⟩
    refine ⟨i, List.find?_eq_some_iff_getElem.mpr ⟨decide_eq_true hmem, i, by simp, by simp, ?_⟩, hget⟩
    intro n hn
    have hnot : (⟨n, hn.trans i.isLt⟩ : Fin (count g)) ∉ set := fun hmem => absurd (hleast _ hmem) (not_le.mpr hn)
    simp [hnot]

theorem last_eq_some {set : Headers g} :
    last g set = some h ↔ ∃ i ∈ set, (hdrs g).get i = h ∧ ∀ j ∈ set, j ≤ i := by
  have hmem : ∀ i, i ∈ (List.finRange (count g)).filter (fun i => i ∈ set) ↔ i ∈ set := by
    simp [List.mem_finRange]
  have hsorted := (List.pairwise_lt_finRange (count g)).filter fun i => i ∈ set
  unfold last
  generalize (List.finRange (count g)).filter (fun i => i ∈ set) = bits at hmem hsorted ⊢
  simp only [← hmem]
  obtain rfl | ⟨bits, i, rfl⟩ := List.eq_nil_or_concat bits
  · simp
  · rw [List.concat_eq_append] at hsorted ⊢
    have hlast : ∀ j ∈ bits ++ [i], j ≤ i := by
      intro j hj
      obtain hj | hj := List.mem_append.mp hj
      · exact ((List.pairwise_append.mp hsorted).2.2 j hj i (List.mem_singleton_self i)).le
      · exact (List.mem_singleton.mp hj).le
    have hi : i ∈ bits ++ [i] := List.mem_append_right _ (List.mem_singleton_self i)
    rw [List.foldl_append, List.foldl_cons, List.foldl_nil, Option.some.injEq]
    constructor
    · intro hget
      exact ⟨i, hi, hget, hlast⟩
    · rintro ⟨j, hj, hget, hgreatest⟩
      rw [← hget, le_antisymm (hlast j hj) (hgreatest i hi)]

/-- What the annotations are to be: the innermost loop around a block, the outermost loop that an edge leaves,
and the edges by the loop they leave so. -/
structure Exact (g : Input B E) (info : Info B E) : Prop where
  enclosing : ∀ b ∈ g.cfg.bbs, ∀ h, info.enclosing b = some h ↔
    (g.cfg.InLoop h b ∧ b ≠ h) ∧ ∀ k, g.cfg.InLoop k b → b ≠ k → g.cfg.InLoop k h
  exitEdge : ∀ e h, info.exitEdge e = some h ↔ g.cfg.Leaves h e ∧ ∀ k, g.cfg.Leaves k e → g.cfg.InLoop h k
  exitList : ∀ h e, e ∈ (info.exitList h).getD [] ↔
    g.cfg.Leaves h e ∧ ∀ k, g.cfg.Leaves k e → g.cfg.InLoop h k

section

variable {out : B → Headers g}

/-- The output sets are those of the headers around the blocks. -/
def Outs (g : Input B E) (out : B → Headers g) : Prop :=
  ∀ b ∈ g.cfg.bbs, ∀ i, i ∈ out b ↔ Around g i b

section

variable (hg : g.Sound) (hout : Outs g out)
include hg hout

theorem first_innermost (hb : b ∈ g.cfg.bbs) :
    first g (out b) = some h ↔
      (g.cfg.InLoop h b ∧ b ≠ h) ∧ ∀ k, g.cfg.InLoop k b → b ≠ k → g.cfg.InLoop k h := by
  rw [first_eq_some]
  constructor
  · rintro ⟨i, hi, rfl, hleast⟩
    have haround := (hout b hb i).mp hi
    refine ⟨haround, fun k hk hne => ?_⟩
    obtain ⟨j, rfl⟩ := exists_index hg hk
    exact (le_iff_inLoop hg haround.1 hk).mp (hleast j ((hout b hb j).mpr ⟨hk, hne⟩))
  · rintro ⟨⟨hin, hne⟩, hinner⟩
    obtain ⟨i, rfl⟩ := exists_index hg hin
    refine ⟨i, (hout b hb i).mpr ⟨hin, hne⟩, rfl, fun j hj => ?_⟩
    obtain ⟨hjin, hjne⟩ := (hout b hb j).mp hj
    exact (le_iff_inLoop hg hin hjin).mpr (hinner _ hjin hjne)

theorem mem_around (hb : b ∈ g.cfg.bbs) {i : Fin (count g)} :
    i ∈ around g out b ↔ g.cfg.InLoop ((hdrs g).get i) b := by
  rw [around, Finset.mem_union, hout b hb, Finset.mem_filter, and_iff_right (Finset.mem_univ i)]
  constructor
  · rintro (haround | rfl)
    · exact haround.1
    · exact get_inLoop hg i
  · intro hin
    by_cases hself : (hdrs g).get i = b
    · exact .inr hself
    · exact .inl ⟨hin, Ne.symm hself⟩

/-- A block in a loop is looked at. -/
theorem annotated_of_inLoop (hin : g.cfg.InLoop h b) : ((first g (out b)).isSome || g.loopHeader b) = true := by
  rw [Bool.or_eq_true]
  obtain ⟨i, rfl⟩ := exists_index hg hin
  by_cases hself : b = (hdrs g).get i
  · right
    rw [hself]
    exact hg.loopHeader_iff.mpr hin.self
  · left
    have hi := (hout b (hg.mem_of_reachable hin.reachable) i).mpr ⟨hin, hself⟩
    rw [first, Option.isSome_map, List.find?_isSome]
    exact ⟨i, List.mem_finRange i, decide_eq_true hi⟩

theorem exitEdge_outermost {e : E} : exitEdge g out e = some h ↔
    g.cfg.Leaves h e ∧ ∀ k, g.cfg.Leaves k e → g.cfg.InLoop h k := by
  have hleft : g.cfg.kind e ≠ .call → g.cfg.source e ∈ g.cfg.bbs → ∀ i : Fin (count g),
      i ∈ around g out (g.cfg.source e) \ around g out (g.cfg.target e) ↔ g.cfg.Leaves ((hdrs g).get i) e := by
    intro hkind hsource i
    rw [Finset.mem_sdiff, mem_around hg hout hsource,
      mem_around hg hout ((hg.wellFormed.same_cfg e hkind).mp hsource)]
    exact (and_iff_right hkind).symm
  unfold exitEdge
  constructor
  · intro hexit
    dsimp only at hexit
    split at hexit
    case isFalse => cases hexit
    case isTrue hedge =>
      obtain ⟨hsource, -, hkind⟩ := hedge
      obtain ⟨i, hi, rfl, hgreatest⟩ := last_eq_some.mp hexit
      have hleaves := (hleft hkind hsource i).mp hi
      refine ⟨hleaves, fun k hk => ?_⟩
      obtain ⟨j, rfl⟩ := exists_index hg hk.2.1
      exact (le_iff_inLoop hg hk.2.1 hleaves.2.1).mp (hgreatest j ((hleft hkind hsource j).mpr hk))
  · rintro ⟨hleaves, houter⟩
    have hkind := hleaves.1
    have hin := hleaves.2.1
    have hsource := hg.mem_of_reachable hin.reachable
    rw [if_pos ⟨hsource, annotated_of_inLoop hg hout hin, hkind⟩, last_eq_some]
    obtain ⟨i, rfl⟩ := exists_index hg hin
    refine ⟨i, (hleft hkind hsource i).mpr hleaves, rfl, fun j hj => ?_⟩
    have hj := (hleft hkind hsource j).mp hj
    exact (le_iff_inLoop hg hj.2.1 hin).mpr (houter _ hj)

end

end

/-- The edges are listed by the loop they exit. -/
theorem mem_buildLoopExitList (exitEdge : E → Option B) {e : E} :
    e ∈ (buildLoopExitList g exitEdge h).getD [] ↔ e ∈ g.cfg.bbs.flatMap g.cfg.outs ∧ exitEdge e = some h := by
  unfold buildLoopExitList
  induction g.cfg.bbs.flatMap g.cfg.outs using List.reverseRecOn with
  | nil => simp
  | append_singleton edges edge ih =>
    rw [List.foldl_append, List.foldl_cons, List.foldl_nil, List.mem_append, List.mem_singleton, or_and_right]
    cases hedge : exitEdge edge with
    | none =>
      dsimp only
      rw [ih]
      refine ⟨.inl, fun hmem => hmem.resolve_right ?_⟩
      rintro ⟨rfl, hsome⟩
      cases hedge.symm.trans hsome
    | some k =>
      dsimp only
      by_cases hkh : h = k
      · subst hkh
        rw [Function.update_self, Option.getD_some, List.mem_append, ih, List.mem_singleton]
        refine or_congr_right ⟨?_, And.left⟩
        rintro rfl
        exact ⟨rfl, hedge⟩
      · rw [Function.update_of_ne hkh, ih]
        refine ⟨.inl, fun hmem => hmem.resolve_right ?_⟩
        rintro ⟨rfl, hsome⟩
        exact hkh (Option.some.inj (hsome.symm.trans hedge))

/-- Without headers no block is in a loop, and nothing is annotated. -/
theorem exact_of_no_headers (hg : g.Sound) (hnone : count g = 0) :
    Exact g ⟨fun _ => none, fun _ => none, fun _ => none⟩ := by
  have hno : ∀ h b, ¬ g.cfg.InLoop h b := by
    intro h b hin
    exact List.not_mem_nil (List.length_eq_zero_iff.mp hnone ▸ (mem_hdrs hg).mpr hin.self)
  constructor
  · exact fun b _ h => iff_of_false (by simp) fun hin => hno h b hin.1.1
  · exact fun e h => iff_of_false (by simp) fun hleaves => hno h _ hleaves.1.2.1
  · exact fun h e => iff_of_false (by simp) fun hleaves => hno h _ hleaves.1.2.1

theorem exact_of_least (hg : g.Sound) {engine : State B (Headers g)}
    (hleast : Least (problem g) (backwardWalk g.cfg) (engine.out (backwardWalk g.cfg))) :
    Exact g (processCFG g engine) := by
  have hout : Outs g (engine.out (backwardWalk g.cfg)) := fun b hb i => mem_least hg hleast hb
  unfold processCFG
  split
  · rename_i hnone
    exact exact_of_no_headers hg hnone
  · constructor
    · intro b hb h
      dsimp only
      rw [if_pos hb]
      exact first_innermost hg hout hb
    · exact fun e h => exitEdge_outermost hg hout
    · intro h e
      rw [mem_buildLoopExitList, exitEdge_outermost hg hout]
      refine and_iff_right_of_imp fun hleaves => ?_
      exact (Dominance.mem_edges hg.wellFormed).mpr (hg.mem_of_reachable hleaves.1.2.1.reachable)

/-- Whichever blocks the engine takes from its queue, it ends, and the annotations are then exact. -/
theorem processCFG_ends_exact (hg : g.Sound) :
    Inevitable (turn (problem g) (backwardWalk g.cfg)) (fun s b => b ∈ s.todo) (fun s => s.todo ≠ [])
      (fun s => s.todo = [] ∧ Exact g (processCFG g s)) (init (problem g) (backwardWalk g.cfg)) := by
  have hends := compute_least (lawful g) (backwardWalk_lawful hg.wellFormed) missing_strictAnti
    fun set => Finset.empty_subset set
  exact hends.mono fun s ⟨htodo, hleast⟩ => ⟨htodo, exact_of_least hg hleast⟩

/-! ### Two nested loops -/

/-- The edges of the blocks 0 to 4: block 3 goes back to the header 2 of the inner loop, back to the header 1 of
the outer one, or on to the exit. -/
inductive Arc where
  | start
  | down
  | body
  | again
  | up
  | leave
  deriving DecidableEq

def arcs : List Arc :=
  [.start, .down, .body, .again, .up, .leave]

def Arc.source : Arc → ℕ
  | .start => 0
  | .down => 1
  | .body => 2
  | .again => 3
  | .up => 3
  | .leave => 3

def Arc.target : Arc → ℕ
  | .start => 1
  | .down => 2
  | .body => 3
  | .again => 2
  | .up => 1
  | .leave => 4

def nested : Input ℕ Arc where
  cfg :=
    { bbs := [0, 1, 2, 3, 4]
      entry := 0
      exit := 4
      number := fun b => b
      kind := fun _ => .none
      source := Arc.source
      target := Arc.target
      ins := fun b => arcs.filter fun e => e.target = b
      outs := fun b => arcs.filter fun e => e.source = b }
  reverseDom := fun b => Finset.range (b + 1)
  loopHeader := fun b => b = 1 || b = 2

theorem Arc.mem_arcs (e : Arc) : e ∈ arcs := by
  cases e <;> decide

theorem nested_flow {a b : ℕ} (hflow : nested.cfg.Flow a b) : a ≤ 3 ∧ b ≠ 0 ∧ b ≤ a + 1 := by
  obtain ⟨e, -, rfl, rfl⟩ := hflow
  cases e <;> decide

theorem nested_path {d b : ℕ} {p : List ℕ} (hpath : nested.cfg.Path p b) (hle : d ≤ b) : d ∈ p := by
  induction hpath with
  | entry =>
    rw [Nat.le_zero.mp hle]
    exact List.mem_singleton_self 0
  | @step p a b _ hflow ih =>
    obtain ⟨-, -, hnext⟩ := nested_flow hflow
    obtain hlt | rfl := Nat.lt_or_eq_of_le hle
    · exact List.mem_cons_of_mem b (ih (by omega))
    · exact List.mem_cons_self

/-- The path that goes from block to block. -/
theorem nested_straight {b : ℕ} (hb : b ≤ 4) : ∃ p, nested.cfg.Path p b ∧ ∀ d ∈ p, d ≤ b := by
  induction b with
  | zero => exact ⟨_, .entry, fun d hd => (List.mem_singleton.mp hd).le⟩
  | succ b ih =>
    obtain ⟨p, hpath, hall⟩ := ih (by omega)
    have hflow : nested.cfg.Flow b (b + 1) := by
      match b with
      | 0 => exact ⟨.start, by decide, rfl, rfl⟩
      | 1 => exact ⟨.down, by decide, rfl, rfl⟩
      | 2 => exact ⟨.body, by decide, rfl, rfl⟩
      | 3 => exact ⟨.leave, by decide, rfl, rfl⟩
    refine ⟨_, .step hpath hflow, fun d hd => ?_⟩
    obtain rfl | hd := List.mem_cons.mp hd
    · exact Nat.le_refl _
    · exact (hall d hd).trans (Nat.le_succ b)

theorem nested_dominates {d b : ℕ} (hb : b ≤ 4) : nested.cfg.OnEveryPath d b ↔ d ≤ b := by
  constructor
  · intro hevery
    obtain ⟨p, hpath, hall⟩ := nested_straight hb
    exact hall d (hevery p hpath)
  · exact fun hle p hpath => nested_path hpath hle

theorem mem_nested_bbs {b : ℕ} : b ∈ nested.cfg.bbs ↔ b ≤ 4 := by
  simp only [nested, List.mem_cons, List.not_mem_nil, or_false]
  omega

theorem nested_sound : nested.Sound where
  wellFormed :=
    { number_bbs := by decide
      entry_mem := by decide
      mem_ins := fun e b _ => by simp [nested, e.mem_arcs]
      mem_outs := fun e b => by simp [nested, e.mem_arcs]
      same_cfg := fun e _ => by cases e <;> decide }
  rooted :=
    { reachable_source := fun hflow => by
        obtain ⟨p, hpath, -⟩ := nested_straight (Nat.le_succ_of_le (nested_flow hflow).1)
        exact ⟨p, hpath⟩
      entry_fresh := fun hflow => (nested_flow hflow).2.1 rfl }
  dominators := by
    intro d _ b hb
    rw [nested_dominates (mem_nested_bbs.mp hb)]
    exact Finset.mem_range.trans Nat.lt_succ_iff
  headers := by
    intro h
    constructor
    · intro hheader
      obtain rfl | rfl : h = 1 ∨ h = 2 := by simpa [nested] using hheader
      · exact ⟨.up, rfl, by decide, by decide, (nested_dominates (by decide)).mpr (by decide)⟩
      · exact ⟨.again, rfl, by decide, by decide, (nested_dominates (by decide)).mpr (by decide)⟩
    · rintro ⟨e, rfl, -, hmem, hevery⟩
      have hle := (nested_dominates (mem_nested_bbs.mp hmem)).mp hevery
      revert hle
      cases e <;> decide

theorem nested_reducible : nested.cfg.flowgraph.Reducible := by
  intro v hcycle
  have hup : ∀ a b, nested.cfg.flowgraph.Forward a b → (a : ℕ) < b := by
    rintro ⟨a, ha⟩ ⟨b, hb⟩ ⟨hflow, hforward⟩
    rw [CFG.dominates_iff, nested_dominates ((nested_flow hflow).1.trans (by decide))] at hforward
    exact Nat.lt_of_not_le hforward
  have hlt : ∀ a b, Relation.TransGen nested.cfg.flowgraph.Forward a b → (a : ℕ) < b := by
    intro a b hpath
    induction hpath with
    | single hstep => exact hup _ _ hstep
    | tail _ hstep ih => exact ih.trans (hup _ _ hstep)
  exact lt_irrefl _ (hlt v v hcycle)

/-- Block 3 is in the loops of 1 and of 2, and the exit is in none. -/
theorem nested_leaves {h : ℕ} (hh : h = 1 ∨ h = 2) : nested.cfg.Leaves h .leave := by
  have hreach : nested.cfg.Reachable 3 := by
    obtain ⟨p, hpath, -⟩ := nested_straight (b := 3) (by decide)
    exact ⟨p, hpath⟩
  refine ⟨by decide, ?_, ?_⟩
  · obtain rfl | rfl := hh
    · exact CFG.inLoop_of_back ⟨.up, by decide, rfl, rfl⟩ hreach ((nested_dominates (by decide)).mpr (by decide))
    · exact CFG.inLoop_of_back ⟨.again, by decide, rfl, rfl⟩ hreach ((nested_dominates (by decide)).mpr (by decide))
  · intro hin
    have hsource : ∀ a b, nested.cfg.Flow a b → a ≤ 3 := fun a b hflow => (nested_flow hflow).1
    have hle := hin.induction (motive := fun b => b ≤ 3) (fun a _ hflow _ => hsource a h hflow)
      (fun a b _ hflow _ => hsource a b hflow) (by obtain rfl | rfl := hh <;> decide)
    exact absurd hle (by decide)

/-- The annotations of the two loops. -/
theorem nested_annotated : Inevitable (turn (problem nested) (backwardWalk nested.cfg)) (fun s b => b ∈ s.todo)
    (fun s => s.todo ≠ []) (fun s => s.todo = [] ∧ Exact nested (processCFG nested s))
    (init (problem nested) (backwardWalk nested.cfg)) :=
  processCFG_ends_exact nested_sound

/-- The graph is reducible, and however the engine runs, the edge to the exit leaves the inner loop and is not in
the exit list of its header. -/
theorem inner_exit_not_listed : nested.cfg.flowgraph.Reducible ∧
    Inevitable (turn (problem nested) (backwardWalk nested.cfg)) (fun s b => b ∈ s.todo) (fun s => s.todo ≠ [])
      (fun s => s.todo = [] ∧ ¬ ∀ h e, nested.cfg.InLoop h h →
        (e ∈ ((processCFG nested s).exitList h).getD [] ↔ nested.cfg.Leaves h e))
      (init (problem nested) (backwardWalk nested.cfg)) := by
  refine ⟨nested_reducible, ?_⟩
  have hends := compute_least (lawful nested) (backwardWalk_lawful nested_sound.wellFormed) missing_strictAnti
    fun set => Finset.empty_subset set
  refine hends.mono fun s ⟨htodo, hleast⟩ => ⟨htodo, fun hclaim => ?_⟩
  have hinner := nested_leaves (.inr rfl)
  have hlisted := (hclaim 2 .leave hinner.2.1.self).mpr hinner
  have houter := ((exact_of_least nested_sound hleast).exitList 2 .leave).mp hlisted
  have hevery := (houter.2 1 (nested_leaves (.inl rfl))).onEveryPath
  exact absurd ((nested_dominates (by decide)).mp hevery) (by decide)

end LoopInfo

end Otawa
