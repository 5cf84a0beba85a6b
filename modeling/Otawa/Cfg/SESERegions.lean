import Otawa.Cfg.Graph
import Otawa.Lib.CycleEquivalence
import Mathlib.Logic.Relation

/-!
# The regions of a graph

The canonical single-entry single-exit regions of a graph, and how the innermost region of a block changes along an
edge, by whether the edge ends a region and begins one.
-/

namespace Otawa

open CycleEquivalence

namespace CFG

variable {B E : Type}

/-- An edge of the flow of the graph. -/
def Intra (c : CFG B E) (e : E) : Prop := c.kind e ≠ .call ∧ c.source e ∈ c.bbs

/-- The graph with the edge from its exit to its entry, `none`. -/
def completed (c : CFG B E) : Multigraph B (Option E) where
  source e := e.elim c.exit c.source
  target e := e.elim c.entry c.target
  edge e := ∀ e' ∈ e, c.Intra e'

/-- Nothing leads to the entry, and each block is on a path from the entry to the exit. -/
structure Connected (c : CFG B E) : Prop where
  exit_mem : c.exit ∈ c.bbs
  entry_ins : ∀ e, c.kind e ≠ .call → c.target e ≠ c.entry
  from_entry : ∀ b ∈ c.bbs, Relation.ReflTransGen c.Flow c.entry b
  to_exit : ∀ b ∈ c.bbs, Relation.ReflTransGen c.Flow b c.exit
  nodup_outs : ∀ b, (c.outs b).Nodup

/-- Two edges have the same cycles of the completed graph. -/
def CycleEquivalent (c : CFG B E) (e₁ e₂ : E) : Prop := c.completed.Equivalent (some e₁) (some e₂)

/-- A canonical region, with its entry and exit edges. -/
def Canonical (c : CFG B E) (a b : E) : Prop := c.completed.Canonical none (some a) (some b)

/-- The blocks of a region: those reached from its entry edge without its exit edge. The whole graph is `none`. -/
def Contains (c : CFG B E) (r : Option (E × E)) (b : B) : Prop :=
  ∀ p ∈ r, c.completed.Inside (some p.1) (some p.2) b

/-- The whole graph or a canonical region. -/
def IsRegion (c : CFG B E) (r : Option (E × E)) : Prop := ∀ p ∈ r, c.Canonical p.1 p.2

def Included (c : CFG B E) (r r' : Option (E × E)) : Prop := ∀ b ∈ c.bbs, c.Contains r b → c.Contains r' b

def StrictlyIncluded (c : CFG B E) (r r' : Option (E × E)) : Prop := c.Included r r' ∧ ¬ c.Included r' r

/-- The smallest region with a block. -/
structure Innermost (c : CFG B E) (r : Option (E × E)) (b : B) : Prop where
  region : c.IsRegion r
  contains : c.Contains r b
  least : ∀ r', c.IsRegion r' → c.Contains r' b → c.Included r r'

/-- The smallest region that strictly contains a region. -/
structure Encloses (c : CFG B E) (r r' : Option (E × E)) : Prop where
  region : c.IsRegion r
  strict : c.StrictlyIncluded r' r
  least : ∀ s, c.IsRegion s → c.StrictlyIncluded r' s → c.Included r s

variable {c : CFG B E} {a b e : E} {v : B} {r r' : Option (E × E)}

theorem edge_some : c.completed.edge (some e) ↔ c.Intra e := by
  constructor
  · intro h
    exact h e rfl
  · rintro h e' ⟨⟩
    exact h

theorem edge_none : c.completed.edge none :=
  fun _ hmem => absurd hmem (Option.not_mem_none _)

theorem contains_none (b : B) : c.Contains none b :=
  fun _ hmem => absurd hmem (Option.not_mem_none _)

theorem contains_some : c.Contains (some (a, b)) v ↔ c.completed.Inside (some a) (some b) v := by
  constructor
  · intro h
    exact h _ rfl
  · rintro h p ⟨⟩
    exact h

theorem isRegion_none : c.IsRegion none :=
  fun _ hmem => absurd hmem (Option.not_mem_none _)

theorem isRegion_some : c.IsRegion (some (a, b)) ↔ c.Canonical a b := by
  constructor
  · intro h
    exact h _ rfl
  · rintro h p ⟨⟩
    exact h

theorem included_refl (r : Option (E × E)) : c.Included r r :=
  fun _ _ h => h

theorem included_none (r : Option (E × E)) : c.Included r none :=
  fun b _ _ => contains_none b

theorem walk_of_flow {u v : B} (hc : c.WellFormed) (hu : u ∈ c.bbs) (h : Relation.ReflTransGen c.Flow u v) :
    ∃ l, c.completed.Walk u l v := by
  induction h using Relation.ReflTransGen.head_induction_on with
  | refl => exact ⟨[], .nil _⟩
  | head hflow _ ih =>
    obtain ⟨l, hl⟩ := ih ((hc.flow_mem hflow).mp hu)
    obtain ⟨e, hkind, rfl, rfl⟩ := hflow
    exact ⟨some e :: l, .cons (edge_some.mpr ⟨hkind, hu⟩) hl⟩

theorem Connected.strong (hc : c.WellFormed) (h : c.Connected) : c.completed.Strong := by
  have htarget : ∀ d, c.completed.edge d → c.completed.target d ∈ c.bbs := by
    intro d hd
    cases d with
    | none => exact hc.entry_mem
    | some d =>
      obtain ⟨hkind, hmem⟩ := edge_some.mp hd
      exact (hc.same_cfg d hkind).mp hmem
  have hsource : ∀ e, c.completed.edge e → c.completed.source e ∈ c.bbs := by
    intro e he
    cases e with
    | none => exact h.exit_mem
    | some e => exact (edge_some.mp he).2
  intro d e hd he
  obtain ⟨l, hl⟩ := walk_of_flow hc (htarget d hd) (h.to_exit _ (htarget d hd))
  obtain ⟨m, hm⟩ := walk_of_flow hc hc.entry_mem (h.from_entry _ (hsource e he))
  exact ⟨l ++ none :: m, hl.append (.cons (e := none) edge_none hm)⟩

theorem Canonical.intra_entry (h : c.Canonical a b) : c.Intra a :=
  edge_some.mp h.region.entry_edge

theorem Canonical.intra_exit (h : c.Canonical a b) : c.Intra b :=
  edge_some.mp h.region.exit_edge

section Transitions

variable (hc : c.WellFormed) (hconn : c.Connected)

include hc hconn

theorem Canonical.separates (h : c.Canonical a b) :
    c.completed.Separates (c.completed.Inside (some a) (some b)) (some a) (some b) :=
  h.region.separates (hconn.strong hc)

theorem Canonical.exit_unique {b' : E} (h : c.Canonical a b) (h' : c.Canonical a b') : b = b' :=
  Option.some.inj (Multigraph.Canonical.exit_unique (hconn.strong hc) edge_none h h')

theorem Canonical.entry_unique {a' : E} (h : c.Canonical a b) (h' : c.Canonical a' b) : a = a' :=
  Option.some.inj (Multigraph.Canonical.entry_unique (hconn.strong hc) edge_none h h')

/-- A region that an edge does not bound is kept along the edge. -/
theorem contains_along (hr : c.IsRegion r) (he : c.Intra e) (hbounds : ∀ p ∈ r, e ≠ p.1 ∧ e ≠ p.2) :
    c.Contains r (c.source e) ↔ c.Contains r (c.target e) := by
  cases r with
  | none => exact iff_of_true (contains_none _) (contains_none _)
  | some p =>
    obtain ⟨x, y⟩ := p
    obtain ⟨hex, hey⟩ := hbounds _ rfl
    have hsep := (isRegion_some.mp hr).separates hc hconn
    rw [contains_some, contains_some]
    exact hsep.others (some e) (edge_some.mpr he) (fun heq => hex (Option.some.inj heq))
      fun heq => hey (Option.some.inj heq)

theorem not_contains_entry (hr : c.IsRegion (some (a, b))) : ¬ c.Contains (some (a, b)) c.entry := by
  rw [contains_some]
  exact (isRegion_some.mp hr).region.entry_outside (hconn.strong hc) edge_none

theorem innermost_entry : c.Innermost none c.entry := by
  refine ⟨isRegion_none, contains_none _, ?_⟩
  intro r' hr' hcontains
  cases r' with
  | none => exact included_refl none
  | some p => exact absurd hcontains (not_contains_entry hc hconn hr')

/-- An edge that bounds no region keeps the innermost one. -/
theorem innermost_same (he : c.Intra e) (hexit : ∀ a, ¬ c.Canonical a e) (hentry : ∀ b, ¬ c.Canonical e b)
    (h : c.Innermost r (c.source e)) : c.Innermost r (c.target e) := by
  have hbounds : ∀ r', c.IsRegion r' → ∀ p ∈ r', e ≠ p.1 ∧ e ≠ p.2 := by
    intro r' hr' p hp
    have hp_canonical := hr' p hp
    constructor
    · rintro rfl
      exact hentry _ hp_canonical
    · rintro rfl
      exact hexit _ hp_canonical
  refine ⟨h.region, (contains_along hc hconn h.region he (hbounds r h.region)).mp h.contains, ?_⟩
  intro r' hr' hcontains
  exact h.least r' hr' ((contains_along hc hconn hr' he (hbounds r' hr')).mpr hcontains)

/-- A region with both ends of the entry edge of another one includes it. -/
theorem included_of_entry (h : c.Canonical a b) (hr : c.IsRegion r) (hsource : c.Contains r (c.source a))
    (htarget : c.Contains r (c.target a)) : c.Included (some (a, b)) r := by
  cases r with
  | none => exact included_none _
  | some p =>
    obtain ⟨x, y⟩ := p
    intro v _ hv
    rw [contains_some] at hv hsource htarget ⊢
    exact Multigraph.Canonical.nested_of_entry (hconn.strong hc) edge_none h (isRegion_some.mp hr) hsource htarget v hv

/-- A region with both ends of the exit edge of another one includes it. -/
theorem included_of_exit (h : c.Canonical a b) (hr : c.IsRegion r) (hsource : c.Contains r (c.source b))
    (htarget : c.Contains r (c.target b)) : c.Included (some (a, b)) r := by
  cases r with
  | none => exact included_none _
  | some p =>
    obtain ⟨x, y⟩ := p
    intro v _ hv
    rw [contains_some] at hv hsource htarget ⊢
    exact Multigraph.Canonical.nested_of_exit (hconn.strong hc) edge_none h (isRegion_some.mp hr) hsource htarget v hv

/-- A region with the target of the entry edge of another one has its source, or is that one. -/
theorem contains_source (h : c.Canonical e b) (hr : c.IsRegion r) (htarget : c.Contains r (c.target e)) :
    r = some (e, b) ∨ c.Contains r (c.source e) := by
  by_cases heq : r = some (e, b)
  · exact .inl heq
  · right
    refine (contains_along hc hconn hr h.intra_entry ?_).mpr htarget
    rintro ⟨x, y⟩ rfl
    have hxy := isRegion_some.mp hr
    constructor
    · rintro rfl
      exact heq (by rw [hxy.exit_unique hc hconn h])
    · rintro rfl
      exact (hxy.separates hc hconn).b_target (contains_some.mp htarget)

/-- A region with the source of the exit edge of another one has its target, or is that one. -/
theorem contains_target (h : c.Canonical a e) (hr : c.IsRegion r) (hsource : c.Contains r (c.source e)) :
    r = some (a, e) ∨ c.Contains r (c.target e) := by
  by_cases heq : r = some (a, e)
  · exact .inl heq
  · right
    refine (contains_along hc hconn hr h.intra_exit ?_).mp hsource
    rintro ⟨x, y⟩ rfl
    have hxy := isRegion_some.mp hr
    constructor
    · rintro rfl
      exact (hxy.separates hc hconn).a_source (contains_some.mp hsource)
    · rintro rfl
      exact heq (by rw [hxy.entry_unique hc hconn h])

theorem innermost_target (h : c.Canonical e b) : c.Innermost (some (e, b)) (c.target e) := by
  refine ⟨isRegion_some.mpr h, contains_some.mpr (h.separates hc hconn).a_target, ?_⟩
  intro r hr hcontains
  rcases contains_source hc hconn h hr hcontains with rfl | hsource
  · exact included_refl _
  · exact included_of_entry hc hconn h hr hsource hcontains

theorem innermost_source (h : c.Canonical a e) : c.Innermost (some (a, e)) (c.source e) := by
  refine ⟨isRegion_some.mpr h, contains_some.mpr (h.separates hc hconn).b_source, ?_⟩
  intro r hr hcontains
  rcases contains_target hc hconn h hr hcontains with rfl | htarget
  · exact included_refl _
  · exact included_of_exit hc hconn h hr hcontains htarget

theorem included_antisymm (hr : c.IsRegion r) (hr' : c.IsRegion r') (h : c.Included r r') (h' : c.Included r' r) :
    r = r' := by
  cases r with
  | none =>
    cases r' with
    | none => rfl
    | some p => exact absurd (h _ hc.entry_mem (contains_none _)) (not_contains_entry hc hconn hr')
  | some p =>
    obtain ⟨a, b⟩ := p
    have hab := isRegion_some.mp hr
    have hsource := (hab.intra_entry).2
    have htarget := (hc.same_cfg a hab.intra_entry.1).mp hsource
    have hin := h _ htarget (contains_some.mpr (hab.separates hc hconn).a_target)
    rcases Classical.em (c.Contains r' (c.source a)) with hcontains | hout
    · exact absurd (contains_some.mp (h' _ hsource hcontains)) (hab.separates hc hconn).a_source
    · cases r' with
      | none => exact absurd (contains_none _) hout
      | some q =>
        obtain ⟨x, y⟩ := q
        have hxy := isRegion_some.mp hr'
        have hax : a = x := by
          by_contra hne
          refine hout ((contains_along hc hconn hr' hab.intra_entry ?_).mpr hin)
          rintro ⟨x', y'⟩ ⟨⟩
          refine ⟨hne, ?_⟩
          rintro rfl
          exact (hxy.separates hc hconn).b_target (contains_some.mp hin)
        subst hax
        rw [hab.exit_unique hc hconn hxy]

theorem Innermost.unique (h : c.Innermost r v) (h' : c.Innermost r' v) : r = r' :=
  included_antisymm hc hconn h.region h'.region (h.least r' h'.region h'.contains) (h'.least r h.region h.contains)

theorem Encloses.unique {s : Option (E × E)} (h : c.Encloses r s) (h' : c.Encloses r' s) : r = r' :=
  included_antisymm hc hconn h.region h'.region (h.least r' h'.region h'.strict) (h'.least r h.region h.strict)

/-- The region that an edge enters from outside lies in the innermost region of its source. -/
theorem encloses_of_enter (h : c.Canonical e b) (hexit : ∀ a, ¬ c.Canonical a e)
    (hr : c.Innermost r (c.source e)) : c.Encloses r (some (e, b)) := by
  have hsep := h.separates hc hconn
  have hsource := h.intra_entry.2
  have htarget := (hc.same_cfg e h.intra_entry.1).mp hsource
  have hout : ¬ c.Contains (some (e, b)) (c.source e) := fun hin => hsep.a_source (contains_some.mp hin)
  refine ⟨hr.region, ⟨?_, fun hsub => hout (hsub _ hsource hr.contains)⟩, ?_⟩
  · refine included_of_entry hc hconn h hr.region hr.contains ?_
    refine (contains_along hc hconn hr.region h.intra_entry ?_).mp hr.contains
    rintro ⟨x, y⟩ rfl
    have hxy := isRegion_some.mp hr.region
    constructor
    · rintro rfl
      exact (hxy.separates hc hconn).a_source (contains_some.mp hr.contains)
    · rintro rfl
      exact hexit _ hxy
  · intro s hs hstrict
    have hin := hstrict.1 _ htarget (contains_some.mpr hsep.a_target)
    rcases contains_source hc hconn h hs hin with rfl | hin_source
    · exact absurd (included_refl _) hstrict.2
    · exact hr.least s hs hin_source

/-- What encloses a region has the target of its exit edge. -/
theorem Encloses.contains_target (h : c.Canonical a e) (hr : c.Encloses r (some (a, e))) :
    c.Contains r (c.target e) := by
  have hin := hr.strict.1 _ h.intra_exit.2 (contains_some.mpr (h.separates hc hconn).b_source)
  rcases CFG.contains_target hc hconn h hr.region hin with rfl | htarget
  · exact absurd (included_refl _) hr.strict.2
  · exact htarget

/-- What strictly contains a region that begins where another one ends contains both. -/
theorem Encloses.move (h : c.Canonical a e) (h' : c.Canonical e b) (hr : c.Encloses r (some (a, e))) :
    c.Encloses r (some (e, b)) := by
  have hsep := h'.separates hc hconn
  have hsource := h'.intra_entry.2
  have htarget := (hc.same_cfg e h'.intra_entry.1).mp hsource
  have hin := hr.strict.1 _ hsource (contains_some.mpr (h.separates hc hconn).b_source)
  refine ⟨hr.region, ⟨?_, ?_⟩, ?_⟩
  · exact included_of_entry hc hconn h' hr.region hin (hr.contains_target hc hconn h)
  · exact fun hsub => hsep.a_source (contains_some.mp (hsub _ hsource hin))
  · intro s hs hstrict
    have hs_target := hstrict.1 _ htarget (contains_some.mpr hsep.a_target)
    rcases contains_source hc hconn h' hs hs_target with rfl | hs_source
    · exact absurd (included_refl _) hstrict.2
    · refine hr.least s hs ⟨included_of_exit hc hconn h hs hs_source hs_target, fun hsub => ?_⟩
      exact (h.separates hc hconn).b_target (contains_some.mp (hsub _ htarget hs_target))

/-- The edge that leaves a region leads to what encloses it. -/
theorem Encloses.leave (h : c.Canonical a e) (hentry : ∀ b, ¬ c.Canonical e b) (hr : c.Encloses r (some (a, e))) :
    c.Innermost r (c.target e) := by
  have htarget := (hc.same_cfg e h.intra_exit.1).mp h.intra_exit.2
  refine ⟨hr.region, hr.contains_target hc hconn h, ?_⟩
  intro s hs hcontains
  have hs_source : c.Contains s (c.source e) := by
    refine (contains_along hc hconn hs h.intra_exit ?_).mpr hcontains
    rintro ⟨x, y⟩ rfl
    have hxy := isRegion_some.mp hs
    constructor
    · rintro rfl
      exact hentry _ hxy
    · rintro rfl
      exact (hxy.separates hc hconn).b_target (contains_some.mp hcontains)
  refine hr.least s hs ⟨included_of_exit hc hconn h hs hs_source hcontains, fun hsub => ?_⟩
  exact (h.separates hc hconn).b_target (contains_some.mp (hsub _ htarget hcontains))

end Transitions

end CFG

end Otawa
