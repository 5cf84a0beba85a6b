import Otawa.Cfg.Graph
import Otawa.Dfa.IterativeDFA
import Mathlib.Data.Finset.Card

/-!
# `Dominance`

The dominator sets of the blocks are the greatest solution of a forward data-flow problem over sets of block
numbers, and an edge is a back edge when the set of its source has the number of its target. The sets are
exact: whichever blocks the engine takes from its queue, it ends with the set of a block holding the blocks
that are on every path from the entry.

`Dominance::dominates` checks that two blocks do not dominate each other. Blocks that no path leads to have
full sets, so with assertions enabled `markLoopHeaders` stops at an edge between two of them.
-/

namespace Otawa

open IterativeDFA

/-- A `BitSet` holds the numbers of the blocks whose bits are set. -/
abbrev BitSet :=
  Finset ℕ

/-- The `Predecessor` iterator: the sources of the edges that are no CALL edges. -/
def predecessors {B E : Type} (c : CFG B E) (bb : B) : List B :=
  ((c.ins bb).filter fun e => c.kind e ≠ .call).map c.source

/-- The `Successor` iterator. -/
def successors {B E : Type} (c : CFG B E) (bb : B) : List B :=
  ((c.outs bb).filter fun e => c.kind e ≠ .call).map c.target

/-- The default iteration of the engine: backward edges for the input sets, `Predecessor::Forward` for the
blocks that depend on a block. -/
def forwardWalk {B E : Type} (c : CFG B E) : Walk B where
  bbs := c.bbs
  number := c.number
  iter := predecessors c
  forward := successors c

namespace Dominance

variable {B E : Type} [DecidableEq B] [DecidableEq E]

/-- `DominanceProblem`. -/
def problem (c : CFG B E) : Problem B BitSet where
  empty := Finset.range c.countBB
  gen := fun bb => {c.number bb}
  kill := fun bb => if c.isEntry bb then Finset.range c.countBB else ∅
  equals := fun set1 set2 => set1 = set2
  reset := fun _ => Finset.range c.countBB
  merge := fun set1 set2 => set1 ∩ set2
  diff := fun dset tset => dset \ tset
  add := fun dset tset => dset ∪ tset

/-- `Dominance::dominates`, from the sets `REVERSE_DOM` of the blocks; there is no answer when the assertion
on disconnected blocks fails. -/
def dominates (asserts : Bool) (c : CFG B E) (reverseDom : B → BitSet) (bb1 bb2 : B) : Option Bool :=
  if asserts && !(decide (bb1 = bb2) || decide (c.number bb2 ∉ reverseDom bb1) ||
      decide (c.number bb1 ∉ reverseDom bb2)) then none
  else some (c.number bb1 ∈ reverseDom bb2)

/-- The properties `LOOP_HEADER` and `BACK_EDGE`. -/
structure Marks (B E : Type) where
  loopHeader : B → Bool
  backEdge : E → Bool

def markEdge (asserts : Bool) (c : CFG B E) (reverseDom : B → BitSet) (bb : B) (m : Marks B E) (edge : E) :
    Option (Marks B E) :=
  if c.kind edge ≠ .call then
    (dominates asserts c reverseDom (c.target edge) bb).map fun back =>
      if back then
        { loopHeader := Function.update m.loopHeader (c.target edge) true
          backEdge := Function.update m.backEdge edge true }
      else m
  else some m

def markLoopHeaders (asserts : Bool) (c : CFG B E) (reverseDom : B → BitSet) : Option (Marks B E) :=
  c.bbs.foldlM (fun m bb => (c.outs bb).foldlM (markEdge asserts c reverseDom bb) m)
    { loopHeader := fun _ => false, backEdge := fun _ => false }

/-- `Dominance::processCFG` once the engine has ended: the sets that are hooked to the blocks, and the marks. -/
def processCFG (asserts : Bool) (c : CFG B E) (engine : State B BitSet) :
    (B → BitSet) × Option (Marks B E) :=
  let reverseDom := engine.out (forwardWalk c)
  (reverseDom, markLoopHeaders asserts c reverseDom)

end Dominance

namespace CFG.WellFormed

variable {B E : Type} {c : CFG B E} {a b : B}

theorem mem_predecessors (hc : c.WellFormed) : a ∈ predecessors c b ↔ c.Flow a b := by
  simp only [predecessors, List.mem_map, List.mem_filter, decide_eq_true_eq, Flow]
  constructor
  · rintro ⟨e, ⟨hmem, hkind⟩, hsource⟩
    exact ⟨e, hkind, hsource, (hc.mem_ins e b hkind).mp hmem⟩
  · rintro ⟨e, hkind, hsource, htarget⟩
    exact ⟨e, ⟨(hc.mem_ins e b hkind).mpr htarget, hkind⟩, hsource⟩

theorem mem_successors (hc : c.WellFormed) : b ∈ successors c a ↔ c.Flow a b := by
  simp only [successors, List.mem_map, List.mem_filter, decide_eq_true_eq, Flow]
  constructor
  · rintro ⟨e, ⟨hmem, hkind⟩, htarget⟩
    exact ⟨e, hkind, (hc.mem_outs e a).mp hmem, htarget⟩
  · rintro ⟨e, hkind, hsource, htarget⟩
    exact ⟨e, ⟨(hc.mem_outs e a).mpr hsource, hkind⟩, htarget⟩

theorem forwardWalk (hc : c.WellFormed) : (forwardWalk c).Lawful where
  number_injective := fun _ ha _ hb => hc.number_injective ha hb
  nodup_bbs := hc.nodup_bbs
  iter_mem := fun _ _ hb ha => (hc.flow_mem (hc.mem_predecessors.mp ha)).mpr hb
  forward_mem := fun _ _ ha hb => (hc.flow_mem (hc.mem_successors.mp hb)).mp ha
  forward_of_iter := fun _ _ _ ha => hc.mem_successors.mpr (hc.mem_predecessors.mp ha)

end CFG.WellFormed

namespace Dominance

variable {B E : Type} {c : CFG B E} {a b d : B} {x : B → BitSet}

theorem mem_foldl_inter {α : Type} [DecidableEq α] {x : B → Finset α} {l : List B} {s : Finset α} {n : α} :
    n ∈ l.foldl (fun set pred => set ∩ x pred) s ↔ n ∈ s ∧ ∀ a ∈ l, n ∈ x a := by
  induction l generalizing s with
  | nil => simp
  | cons a l ih => simp [ih, and_assoc]

open Classical in
/-- The numbers of the blocks that are on every path. -/
noncomputable def dominators (c : CFG B E) (b : B) : BitSet :=
  ((c.bbs.filter fun d => c.OnEveryPath d b).map c.number).toFinset

theorem mem_dominators {n : ℕ} :
    n ∈ dominators c b ↔ ∃ d ∈ c.bbs, c.OnEveryPath d b ∧ c.number d = n := by
  simp only [dominators, List.mem_toFinset, List.mem_map, List.mem_filter, decide_eq_true_eq, and_assoc]

/-- The edge is no CALL edge and its target is in the set of its source. -/
def IsBack (c : CFG B E) (x : B → BitSet) (e : E) : Prop :=
  c.kind e ≠ .call ∧ c.number (c.target e) ∈ x (c.source e)

/-- The marks of the edges of a list are added. -/
structure Marked (c : CFG B E) (x : B → BitSet) (l : List E) (m m' : Marks B E) : Prop where
  backEdge : ∀ e, m'.backEdge e = true ↔ m.backEdge e = true ∨ (e ∈ l ∧ IsBack c x e)
  loopHeader : ∀ h, m'.loopHeader h = true ↔ m.loopHeader h = true ∨ ∃ e ∈ l, IsBack c x e ∧ c.target e = h

theorem Marked.nil (m : Marks B E) : Marked c x [] m m where
  backEdge := by simp
  loopHeader := by simp

theorem Marked.append {l l' : List E} {m m' m'' : Marks B E} (h : Marked c x l m m')
    (h' : Marked c x l' m' m'') : Marked c x (l ++ l') m m'' where
  backEdge := fun e => by rw [h'.backEdge, h.backEdge, List.mem_append, or_assoc, or_and_right]
  loopHeader := fun b => by simp only [h'.loopHeader, h.loopHeader, List.mem_append, or_and_right, exists_or, or_assoc]

theorem mem_edges (hc : c.WellFormed) {e : E} : e ∈ c.bbs.flatMap c.outs ↔ c.source e ∈ c.bbs := by
  simp only [List.mem_flatMap, hc.mem_outs]
  exact ⟨fun ⟨b, hb, heq⟩ => heq ▸ hb, fun hb => ⟨_, hb, rfl⟩⟩

/-- The marks are those of the back edges: the edges within the graph whose target is on every path to their
source. -/
structure Exact (c : CFG B E) (m : Marks B E) : Prop where
  backEdge : ∀ e, m.backEdge e = true ↔
    c.kind e ≠ .call ∧ c.source e ∈ c.bbs ∧ c.OnEveryPath (c.target e) (c.source e)
  loopHeader : ∀ h, m.loopHeader h = true ↔
    ∃ e, c.target e = h ∧ c.kind e ≠ .call ∧ c.source e ∈ c.bbs ∧ c.OnEveryPath h (c.source e)

/-- The sets are exact: the number of a block is in the set of another one when it is on every path to it. -/
def ExactSets (c : CFG B E) (x : B → BitSet) : Prop :=
  ∀ d ∈ c.bbs, ∀ b ∈ c.bbs, c.number d ∈ x b ↔ c.OnEveryPath d b

theorem isBack_iff (hc : c.WellFormed) (hx : ExactSets c x) {e : E} (he : c.source e ∈ c.bbs) :
    IsBack c x e ↔ c.kind e ≠ .call ∧ c.OnEveryPath (c.target e) (c.source e) := by
  apply and_congr_right
  intro hkind
  exact hx _ ((hc.same_cfg e hkind).mp he) _ he

theorem Marked.exact (hc : c.WellFormed) (hx : ExactSets c x) {m : Marks B E}
    (hm : Marked c x (c.bbs.flatMap c.outs) ⟨fun _ => false, fun _ => false⟩ m) : Exact c m where
  backEdge := by
    intro e
    rw [hm.backEdge, mem_edges hc]
    constructor
    · rintro (hfalse | ⟨he, hback⟩)
      · cases hfalse
      · obtain ⟨hkind, hevery⟩ := (isBack_iff hc hx he).mp hback
        exact ⟨hkind, he, hevery⟩
    · rintro ⟨hkind, he, hevery⟩
      exact .inr ⟨he, (isBack_iff hc hx he).mpr ⟨hkind, hevery⟩⟩
  loopHeader := by
    intro h
    rw [hm.loopHeader]
    constructor
    · rintro (hfalse | ⟨e, hmem, hback, rfl⟩)
      · cases hfalse
      · have he := (mem_edges hc).mp hmem
        obtain ⟨hkind, hevery⟩ := (isBack_iff hc hx he).mp hback
        exact ⟨e, rfl, hkind, he, hevery⟩
    · rintro ⟨e, rfl, hkind, he, hevery⟩
      exact .inr ⟨e, (mem_edges hc).mpr he, (isBack_iff hc hx he).mpr ⟨hkind, hevery⟩, rfl⟩

/-- An edge between two different blocks that no path leads to. -/
def Disconnected (c : CFG B E) (e : E) : Prop :=
  c.kind e ≠ .call ∧ c.source e ∈ c.bbs ∧ c.source e ≠ c.target e ∧ ¬ c.Reachable (c.source e) ∧
    ¬ c.Reachable (c.target e)

variable [DecidableEq B]

theorem lawful (c : CFG B E) : (problem c).Lawful where
  equals_iff := fun _ _ => decide_eq_true_iff
  reset_eq := fun _ => rfl
  merge_le := Finset.inter_subset_inter
  diff_le := fun hle => Finset.sdiff_subset_sdiff hle (Finset.Subset.refl _)
  add_le := Finset.union_subset_union_left

/-! ### The dominator sets -/

/-- The dominator set of a block: its own number, and those that all its predecessors have. -/
theorem mem_transfer (hc : c.WellFormed) {n : ℕ} :
    n ∈ transfer (problem c) (forwardWalk c) b x ↔
      n = c.number b ∨ (b ≠ c.entry ∧ n < c.countBB ∧ ∀ a, c.Flow a b → n ∈ x a) := by
  have hinput : n ∈ ((forwardWalk c).iter b).foldl (fun set pred => (problem c).merge set (x pred))
      (problem c).empty ↔ n < c.countBB ∧ ∀ a, c.Flow a b → n ∈ x a := by
    refine mem_foldl_inter.trans ?_
    simp only [problem, Finset.mem_range, forwardWalk, hc.mem_predecessors]
  have hadd : n ∈ transfer (problem c) (forwardWalk c) b x ↔
      (n ∈ ((forwardWalk c).iter b).foldl (fun set pred => (problem c).merge set (x pred)) (problem c).empty ∧
        n ∉ (problem c).kill b) ∨ n = c.number b := by
    simp only [transfer, problem, Finset.mem_union, Finset.mem_sdiff, Finset.mem_singleton]
  rw [hadd, hinput, or_comm]
  by_cases hentry : b = c.entry
  · subst hentry
    simp only [problem, CFG.isEntry, decide_true, if_true, Finset.mem_range, ne_eq, not_true_eq_false, false_and,
      or_false, or_iff_left_iff_imp]
    rintro ⟨⟨hlt, -⟩, hnot⟩
    exact absurd hlt hnot
  · simp only [problem, CFG.isEntry, hentry, decide_false, Bool.false_eq_true, if_false, Finset.notMem_empty,
      not_false_eq_true, and_true, ne_eq, true_and]

/-- A number in a set of a solution is that of a block on every path. -/
theorem mem_path_of_fixed (hc : c.WellFormed)
    (hx : ∀ b ∈ c.bbs, transfer (problem c) (forwardWalk c) b x = x b) (hd : d ∈ c.bbs) {p : List B}
    (hpath : c.Path p b) (hmem : c.number d ∈ x b) : d ∈ p := by
  induction hpath with
  | entry =>
    rw [← hx c.entry hc.entry_mem, mem_transfer hc] at hmem
    obtain heq | ⟨hne, -⟩ := hmem
    · exact List.mem_singleton.mpr (hc.number_injective hd hc.entry_mem heq)
    · exact absurd rfl hne
  | @step p a b hpath hflow ih =>
    have hb : b ∈ c.bbs := (hc.flow_mem hflow).mp (hc.path_mem hpath)
    rw [← hx b hb, mem_transfer hc] at hmem
    obtain heq | ⟨-, -, hall⟩ := hmem
    · rw [hc.number_injective hd hb heq]
      exact List.mem_cons_self
    · exact List.mem_cons_of_mem b (ih (hall a hflow))

theorem dominators_le_transfer (hc : c.WellFormed) (hb : b ∈ c.bbs) :
    dominators c b ≤ transfer (problem c) (forwardWalk c) b (dominators c) := by
  intro n hn
  obtain ⟨d, hd, hevery, rfl⟩ := mem_dominators.mp hn
  rw [mem_transfer hc]
  by_cases hdb : d = b
  · exact .inl (congrArg c.number hdb)
  · refine .inr ⟨?_, hc.number_lt hd, fun a hflow => ?_⟩
    · rintro rfl
      exact hdb (CFG.onEveryPath_entry hevery)
    · exact mem_dominators.mpr ⟨d, hd, (hevery.of_flow hflow).resolve_left hdb, rfl⟩

/-- The sets the engine ends with are exact. -/
theorem mem_out_iff (hc : c.WellFormed)
    (hx : (equations (lawful c) hc.forwardWalk Finset.card_strictMono).Greatest (fun _ => (problem c).empty) x)
    (hd : d ∈ c.bbs) (hb : b ∈ c.bbs) : c.number d ∈ x b ↔ c.OnEveryPath d b := by
  constructor
  · intro hmem p hpath
    exact mem_path_of_fixed hc hx.fixed hd hpath hmem
  · intro hevery
    refine hx.above (dominators c) (fun a _ n hn => ?_) (fun a ha => dominators_le_transfer hc ha) b hb
      (mem_dominators.mpr ⟨d, hd, hevery, rfl⟩)
    obtain ⟨d', hd', -, rfl⟩ := mem_dominators.mp hn
    exact Finset.mem_range.mpr (hc.number_lt hd')

/-! ### The marks -/

variable {asserts : Bool}

/-- The assertion of `dominates` holds for the edge. -/
def Checked (asserts : Bool) (c : CFG B E) (x : B → BitSet) (e : E) : Prop :=
  c.kind e = .call ∨ (dominates asserts c x (c.target e) (c.source e)).isSome = true

theorem dominates_some {bb1 bb2 : B} {r : Bool} (h : dominates asserts c x bb1 bb2 = some r) :
    r = true ↔ c.number bb1 ∈ x bb2 := by
  unfold dominates at h
  split at h
  · cases h
  · cases h
    exact decide_eq_true_iff

theorem dominates_asserts_eq_none {bb1 bb2 : B} :
    dominates true c x bb1 bb2 = none ↔ bb1 ≠ bb2 ∧ c.number bb2 ∈ x bb1 ∧ c.number bb1 ∈ x bb2 := by
  simp [dominates, and_assoc]

/-- The assertion fails for the edges between two blocks that no path leads to. -/
theorem not_checked_iff (hc : c.WellFormed) (hx : ExactSets c x) {e : E} (he : c.source e ∈ c.bbs) :
    ¬ Checked true c x e ↔ Disconnected c e := by
  rw [Checked, not_or, Option.not_isSome_iff_eq_none, dominates_asserts_eq_none]
  apply and_congr_right
  intro hkind
  have htarget : c.target e ∈ c.bbs := (hc.same_cfg e hkind).mp he
  rw [hx _ he _ htarget, hx _ htarget _ he]
  constructor
  · rintro ⟨hne, hsource, hevery⟩
    exact ⟨he, hne.symm, fun hreach => hne (hevery.antisymm hsource hreach),
      fun hreach => hne (hsource.antisymm hevery hreach).symm⟩
  · rintro ⟨-, hne, hsource, htarget⟩
    exact ⟨hne.symm, CFG.onEveryPath_of_not_reachable htarget _, CFG.onEveryPath_of_not_reachable hsource _⟩

/-- A loop that marks each of its items, or fails. -/
theorem foldlM_marked {A : Type} (asserts : Bool) (c : CFG B E) (x : B → BitSet)
    (f : Marks B E → A → Option (Marks B E)) (edges : A → List E) (l : List A)
    (hsome : ∀ a ∈ l, (∀ e ∈ edges a, Checked asserts c x e) → ∀ m, ∃ m', f m a = some m' ∧ Marked c x (edges a) m m')
    (hnone : ∀ a ∈ l, (∃ e ∈ edges a, ¬ Checked asserts c x e) → ∀ m, f m a = none) :
    ((∀ e ∈ l.flatMap edges, Checked asserts c x e) →
      ∀ m, ∃ m', l.foldlM f m = some m' ∧ Marked c x (l.flatMap edges) m m') ∧
    ((∃ e ∈ l.flatMap edges, ¬ Checked asserts c x e) → ∀ m, l.foldlM f m = none) := by
  induction l with
  | nil => exact ⟨fun _ m => ⟨m, rfl, .nil m⟩, fun ⟨e, hmem, _⟩ => absurd hmem List.not_mem_nil⟩
  | cons a l ih =>
    obtain ⟨ihsome, ihnone⟩ := ih (fun a' ha' => hsome a' (List.mem_cons_of_mem a ha'))
      (fun a' ha' => hnone a' (List.mem_cons_of_mem a ha'))
    constructor
    · intro hall m
      rw [List.flatMap_cons] at hall ⊢
      obtain ⟨m', hm', hmarked⟩ := hsome a List.mem_cons_self
        (fun e he => hall e (List.mem_append_left _ he)) m
      obtain ⟨m'', hm'', hmarked'⟩ := ihsome (fun e he => hall e (List.mem_append_right _ he)) m'
      refine ⟨m'', ?_, hmarked.append hmarked'⟩
      rw [List.foldlM_cons, hm']
      exact hm''
    · rintro ⟨e, hmem, hcheck⟩ m
      rw [List.foldlM_cons]
      by_cases hfirst : ∃ e ∈ edges a, ¬ Checked asserts c x e
      · rw [hnone a List.mem_cons_self hfirst]
        rfl
      · have hall : ∀ e ∈ edges a, Checked asserts c x e := by
          intro e he
          by_contra hnot
          exact hfirst ⟨e, he, hnot⟩
        obtain ⟨m', hm', -⟩ := hsome a List.mem_cons_self hall m
        rw [hm']
        obtain hmem | hmem := List.mem_append.mp hmem
        · exact absurd (hall e hmem) hcheck
        · exact ihnone ⟨e, hmem, hcheck⟩ m'

variable [DecidableEq E]

theorem markEdge_of_checked (e : E) (m : Marks B E) (hcheck : Checked asserts c x e) :
    ∃ m', markEdge asserts c x (c.source e) m e = some m' ∧ Marked c x [e] m m' := by
  unfold markEdge
  by_cases hkind : c.kind e = .call
  · refine ⟨m, if_neg fun hne => hne hkind, ?_⟩
    constructor <;> simp [IsBack, hkind]
  · obtain ⟨r, hr⟩ := Option.isSome_iff_exists.mp (hcheck.resolve_left hkind)
    have hback : r = true ↔ IsBack c x e := (dominates_some hr).trans (and_iff_right hkind).symm
    rw [if_pos hkind, hr]
    refine ⟨_, rfl, ?_⟩
    cases r with
    | false =>
      have hnot : ¬ IsBack c x e := fun h => by simpa using hback.mpr h
      constructor <;> simp [hnot]
    | true =>
      have hyes : IsBack c x e := hback.mp rfl
      constructor
      · intro e'
        by_cases hee : e' = e
        · subst hee
          simp [hyes]
        · simp [hee]
      · intro b
        by_cases hbe : b = c.target e
        · subst hbe
          simp [hyes]
        · simp [Function.update_of_ne hbe, hyes, Ne.symm hbe]

theorem markEdge_of_not_checked (e : E) (m : Marks B E) (hcheck : ¬ Checked asserts c x e) :
    markEdge asserts c x (c.source e) m e = none := by
  obtain ⟨hkind, hnone⟩ := not_or.mp hcheck
  unfold markEdge
  rw [if_pos hkind, Option.not_isSome_iff_eq_none.mp hnone]
  rfl

theorem outs_marked (hc : c.WellFormed) (bb : B) :
    ((∀ e ∈ c.outs bb, Checked asserts c x e) →
      ∀ m, ∃ m', (c.outs bb).foldlM (markEdge asserts c x bb) m = some m' ∧ Marked c x (c.outs bb) m m') ∧
    ((∃ e ∈ c.outs bb, ¬ Checked asserts c x e) → ∀ m, (c.outs bb).foldlM (markEdge asserts c x bb) m = none) := by
  have hsource : ∀ e ∈ c.outs bb, c.source e = bb := fun e he => (hc.mem_outs e bb).mp he
  have hloop := foldlM_marked asserts c x (markEdge asserts c x bb) (fun e => [e])
    (c.outs bb)
    (by
      intro e he hcheck m
      rw [← hsource e he]
      exact markEdge_of_checked e m (hcheck e List.mem_cons_self))
    (by
      rintro e he ⟨e', he', hcheck⟩ m
      cases List.mem_singleton.mp he'
      rw [← hsource e he]
      exact markEdge_of_not_checked e m hcheck)
  rwa [List.flatMap_singleton'] at hloop

/-- What `markLoopHeaders` gives: no marks when a check fails, else the marks of the edges of the graph. -/
theorem markLoopHeaders_marked (asserts : Bool) (x : B → BitSet) (hc : c.WellFormed) :
    ((∀ e ∈ c.bbs.flatMap c.outs, Checked asserts c x e) → ∃ m, markLoopHeaders asserts c x = some m ∧
      Marked c x (c.bbs.flatMap c.outs) ⟨fun _ => false, fun _ => false⟩ m) ∧
    ((∃ e ∈ c.bbs.flatMap c.outs, ¬ Checked asserts c x e) → markLoopHeaders asserts c x = none) := by
  obtain ⟨hsome, hnone⟩ := foldlM_marked asserts c x
    (fun m bb => (c.outs bb).foldlM (markEdge asserts c x bb) m) c.outs c.bbs
    (fun bb _ hall m => (outs_marked hc bb).1 hall m) (fun bb _ hex m => (outs_marked hc bb).2 hex m)
  exact ⟨fun hall => hsome hall _, fun hex => hnone hex _⟩

/-- Whichever blocks the engine takes from its queue, it ends. The answers of `dominates` are then exact, and so
are the marks; only with assertions enabled is there no result, for the graphs in which an edge links two
different blocks that no path leads to. -/
theorem processCFG_exact (hc : c.WellFormed) :
    Inevitable (turn (problem c) (forwardWalk c)) (fun s bb => bb ∈ s.todo) (fun s => s.todo ≠ [])
      (fun s => s.todo = [] ∧
        (∀ asserts, ∀ bb1 ∈ c.bbs, ∀ bb2 ∈ c.bbs, ∀ r,
          dominates asserts c (processCFG asserts c s).1 bb1 bb2 = some r → (r = true ↔ c.OnEveryPath bb1 bb2)) ∧
        (∀ bb1 bb2, dominates false c (processCFG false c s).1 bb1 bb2 ≠ none) ∧
        (∃ m, (processCFG false c s).2 = some m ∧ Exact c m) ∧
        (∀ m, (processCFG true c s).2 = some m → Exact c m) ∧
        ((processCFG true c s).2 = none ↔ ∃ e, Disconnected c e))
      (init (problem c) (forwardWalk c)) := by
  refine (compute_inevitable (lawful c) hc.forwardWalk Finset.card_strictMono ?_).mono ?_
  · intro b hb n hn
    obtain rfl | ⟨-, hlt, -⟩ := (mem_transfer hc).mp hn
    · exact Finset.mem_range.mpr (hc.number_lt hb)
    · exact Finset.mem_range.mpr hlt
  · rintro s ⟨htodo, hgreatest⟩
    have hx : ExactSets c (s.out (forwardWalk c)) := fun d hd b hb => mem_out_iff hc hgreatest hd hb
    obtain ⟨hfalse, -⟩ := markLoopHeaders_marked false (s.out (forwardWalk c)) hc
    obtain ⟨htrue, hnone⟩ := markLoopHeaders_marked true (s.out (forwardWalk c)) hc
    refine ⟨htodo, ?_, ?_, ?_, ?_, ?_⟩
    · intro asserts bb1 h1 bb2 h2 r hr
      exact (dominates_some hr).trans (hx bb1 h1 bb2 h2)
    · intro bb1 bb2
      simp [dominates]
    · obtain ⟨m, hm, hmarked⟩ := hfalse fun e _ => .inr (by simp [dominates])
      exact ⟨m, hm, hmarked.exact hc hx⟩
    · intro m hm
      by_cases hall : ∀ e ∈ c.bbs.flatMap c.outs, Checked true c (s.out (forwardWalk c)) e
      · obtain ⟨m', hm', hmarked⟩ := htrue hall
        cases hm.symm.trans hm'
        exact hmarked.exact hc hx
      · push Not at hall
        cases hm.symm.trans (hnone hall)
    · constructor
      · intro hstop
        by_contra hconnected
        obtain ⟨m, hm, -⟩ := htrue fun e he => by
          by_contra hcheck
          exact hconnected ⟨e, (not_checked_iff hc hx ((mem_edges hc).mp he)).mp hcheck⟩
        cases hm.symm.trans hstop
      · rintro ⟨e, hdisc⟩
        exact hnone ⟨e, (mem_edges hc).mpr hdisc.2.1, (not_checked_iff hc hx hdisc.2.1).mpr hdisc⟩

/-- An entry, a block that branches to itself, and an exit. -/
def spin : CFG ℕ (Option Bool) where
  bbs := [0, 1, 2]
  entry := 0
  exit := 2
  number := id
  kind := fun _ => .taken
  source := fun e => if e = none then 0 else 1
  target := fun e => if e = some true then 2 else 1
  ins := fun b => if b = 1 then [none, some false] else if b = 2 then [some true] else []
  outs := fun b => if b = 0 then [none] else if b = 1 then [some false, some true] else []

theorem spin_wellFormed : spin.WellFormed where
  number_bbs := by decide
  entry_mem := by decide
  mem_ins := by
    intro e b _
    rcases e with _ | _ | _ <;> simp only [spin] <;> split <;> simp_all <;> omega
  mem_outs := by
    intro e b
    rcases e with _ | _ | _ <;> simp only [spin] <;> split <;> simp_all <;> omega
  same_cfg := by
    intro e _
    rcases e with _ | _ | _ <;> decide

theorem processCFG_exact_spin : spin.WellFormed ∧
    Inevitable (turn (problem spin) (forwardWalk spin)) (fun s bb => bb ∈ s.todo) (fun s => s.todo ≠ [])
      (fun s => s.todo = [] ∧
        (∀ asserts, ∀ bb1 ∈ spin.bbs, ∀ bb2 ∈ spin.bbs, ∀ r,
          dominates asserts spin (processCFG asserts spin s).1 bb1 bb2 = some r →
            (r = true ↔ spin.OnEveryPath bb1 bb2)) ∧
        (∀ bb1 bb2, dominates false spin (processCFG false spin s).1 bb1 bb2 ≠ none) ∧
        (∃ m, (processCFG false spin s).2 = some m ∧ Exact spin m) ∧
        (∀ m, (processCFG true spin s).2 = some m → Exact spin m) ∧
        ((processCFG true spin s).2 = none ↔ ∃ e, Disconnected spin e))
      (init (problem spin) (forwardWalk spin)) :=
  ⟨spin_wellFormed, processCFG_exact spin_wellFormed⟩

end Dominance

end Otawa
