import Otawa.Cfg.PSTBuilder
import Otawa.Cfg.SESERegions

/-!
# The counters of the classes

`T` are the edges that were followed and `D` the blocks that were visited, the last ones first. An edge of a class is
followed after the edges that come before it in the class, so the counters tell whether it begins and whether it ends
a region.
-/

namespace Otawa.PSTBuilder

open CycleEquivalence

variable {B E C : Type}

/-- The edges of the flow of the graph. -/
def edges (c : CFG B E) : List E :=
  (c.bbs.flatMap c.outs).filter fun e => c.kind e ≠ .call

variable {c : CFG B E} {e : E}

theorem mem_edges (hc : c.WellFormed) : e ∈ edges c ↔ c.Intra e := by
  unfold edges CFG.Intra
  rw [List.mem_filter, List.mem_flatMap, decide_eq_true_eq, and_comm]
  refine and_congr_right fun _ => ?_
  constructor
  · rintro ⟨b, hb, he⟩
    rw [(hc.mem_outs e b).mp he]
    exact hb
  · intro hsource
    exact ⟨c.source e, hsource, (hc.mem_outs e _).mpr rfl⟩

theorem nodup_edges (hc : c.WellFormed) (hconn : c.Connected) : (edges c).Nodup := by
  refine List.Nodup.filter _ (List.nodup_flatMap.mpr ⟨fun b _ => hconn.nodup_outs b, ?_⟩)
  refine hc.nodup_bbs.imp fun {a b} hne e ha hb => hne ?_
  rw [← (hc.mem_outs e a).mp ha, ← (hc.mem_outs e b).mp hb]

variable [DecidableEq C] [DecidableEq E]

/-- The edges of a class that are left to follow. -/
def left (c : CFG B E) (pstClass : E → Option C) (T : List E) (cl : C) : List E :=
  (edges c).filter fun e => pstClass e = some cl ∧ e ∉ T

theorem mem_left {pstClass : E → Option C} {T : List E} {cl : C} (hc : c.WellFormed) :
    e ∈ left c pstClass T cl ↔ c.Intra e ∧ pstClass e = some cl ∧ e ∉ T := by
  unfold left
  rw [List.mem_filter, mem_edges hc, decide_eq_true_eq]

/-- The classes are the cycle-equivalence classes, with their numbers of edges; an edge alone may have none. -/
structure Exact (c : CFG B E) (pstClass : E → Option C) (classes : C → CEClass) : Prop where
  same : ∀ e f, c.Intra e → c.Intra f → e ≠ f →
    (c.CycleEquivalent e f ↔ ∃ cl, pstClass e = some cl ∧ pstClass f = some cl)
  count : ∀ e cl, c.Intra e → pstClass e = some cl → (classes cl).count = (left c pstClass [] cl).length
  first : ∀ e cl, c.Intra e → pstClass e = some cl → (classes cl).first = true

/-! ### Edges and blocks -/

/-- The edges and the blocks so far: a region that holds a block was entered. -/
structure Walked (c : CFG B E) (T : List E) (D : List B) : Prop where
  edges : ∀ e ∈ T, c.Intra e ∧ c.source e ∈ D
  blocks : ∀ v ∈ D, v ∈ c.bbs
  opened : ∀ a b v, v ∈ D → c.completed.Region none (some a) (some b) →
    c.completed.Inside (some a) (some b) v → a ∈ T
  innermost : ∀ v ∈ D, ∃ r, c.Innermost r v

/-- The classes and their counters so far. -/
structure Counters (c : CFG B E) (pstClass : E → Option C) (T : List E) (s : State B E C) : Prop where
  current : ∀ e, c.Intra e → e ∉ T → s.pstClass e = pstClass e
  count : ∀ e cl, c.Intra e → e ∉ T → pstClass e = some cl → (s.classes cl).count = (left c pstClass T cl).length
  first : ∀ e cl, c.Intra e → e ∉ T → pstClass e = some cl →
    ((s.classes cl).first = true ↔ ∀ f, c.Intra f → pstClass f = some cl → f ∉ T)

variable {pstClass : E → Option C} {classes : C → CEClass} {T : List E} {D : List B} {s s' : State B E C} {cl : C}

section

omit [DecidableEq C] [DecidableEq E]

/-- A region that holds the target of an edge was entered, by this edge at the latest. -/
theorem Walked.target (hc : c.WellFormed) (hconn : c.Connected) (h : Walked c T D) (he : c.Intra e)
    (hsource : c.source e ∈ D) (hinner : ∃ r, c.Innermost r (c.target e)) : Walked c (e :: T) (c.target e :: D) where
  edges := by
    intro f hf
    rcases List.mem_cons.mp hf with rfl | hf
    · exact ⟨he, List.mem_cons_of_mem _ hsource⟩
    · exact ⟨(h.edges f hf).1, List.mem_cons_of_mem _ (h.edges f hf).2⟩
  blocks := by
    intro v hv
    rcases List.mem_cons.mp hv with rfl | hv
    · exact (hc.same_cfg e he.1).mp he.2
    · exact h.blocks v hv
  opened := by
    intro a b v hv hregion hin
    rcases List.mem_cons.mp hv with rfl | hv
    · by_cases hea : e = a
      · rw [hea]
        exact List.mem_cons_self
      · have hsep := hregion.separates (hconn.strong hc)
        refine List.mem_cons_of_mem _ (h.opened a b _ hsource hregion ?_)
        by_contra hout
        exact hsep.step_out (CFG.edge_some.mpr he) hout (fun heq => hea (Option.some.inj heq)) hin
    · exact List.mem_cons_of_mem _ (h.opened a b v hv hregion hin)
  innermost := by
    intro v hv
    rcases List.mem_cons.mp hv with rfl | hv
    · exact hinner
    · exact h.innermost v hv

theorem Walked.follow (h : Walked c T D) (he : c.Intra e) (hsource : c.source e ∈ D) : Walked c (e :: T) D where
  edges := by
    intro f hf
    rcases List.mem_cons.mp hf with rfl | hf
    · exact ⟨he, hsource⟩
    · exact h.edges f hf
  blocks := h.blocks
  opened := fun a b v hv hregion hin => List.mem_cons_of_mem _ (h.opened a b v hv hregion hin)
  innermost := h.innermost

end

section Flags

variable (hc : c.WellFormed) (hconn : c.Connected) (hexact : Exact c pstClass classes)

include hexact in
theorem Exact.class_of_region {a b : E} (h : c.completed.Region none (some a) (some b)) :
    ∃ cl, pstClass a = some cl ∧ pstClass b = some cl := by
  have hne : a ≠ b := fun heq => h.ne (congrArg some heq)
  exact (hexact.same a b (CFG.edge_some.mp h.entry_edge) (CFG.edge_some.mp h.exit_edge) hne).mp h.equivalent

include hc hconn hexact

/-- Two edges of a class bound a region, in one order. -/
theorem Exact.region_of_class {a b : E} (ha : c.Intra a) (hb : c.Intra b) (hne : a ≠ b) (hcl : pstClass a = some cl)
    (hcl' : pstClass b = some cl) :
    c.completed.Region none (some a) (some b) ∨ c.completed.Region none (some b) (some a) := by
  have hequiv := (hexact.same a b ha hb hne).mpr ⟨cl, hcl, hcl'⟩
  exact Multigraph.region_total (hconn.strong hc) CFG.edge_none (CFG.edge_some.mpr ha) (CFG.edge_some.mpr hb)
    (Option.some_ne_none a) (Option.some_ne_none b) (fun heq => hne (Option.some.inj heq)) hequiv

variable (hwalked : Walked c T D) (he : c.Intra e) (heT : e ∉ T) (hsource : c.source e ∈ D)

section

omit [DecidableEq C] [DecidableEq E] hexact

include hwalked hsource in
/-- The entry of a region that the edge leaves was followed. -/
theorem Walked.entry_followed {a : E} (h : c.completed.Region none (some a) (some e)) : a ∈ T :=
  hwalked.opened a e _ hsource h (h.separates (hconn.strong hc)).b_source

include hwalked heT in
/-- The exit of a region that the edge enters was not followed. -/
theorem Walked.exit_left {b : E} (h : c.completed.Region none (some e) (some b)) : b ∉ T :=
  fun hb => heT (hwalked.opened e b _ (hwalked.edges b hb).2 h (h.separates (hconn.strong hc)).b_source)

end

include hwalked he heT hsource

/-- The first edge of a class to be followed is the one that ends no region. -/
theorem Counters.first_iff (hcounters : Counters c pstClass T s) (hcl : pstClass e = some cl) :
    (s.classes cl).isFirst = true ↔ ∀ a, ¬ c.Canonical a e := by
  unfold CEClass.isFirst
  rw [hcounters.first e cl he heT hcl]
  constructor
  · intro hfirst a ha
    obtain ⟨cl', ha_class, he_class⟩ := hexact.class_of_region ha.region
    rw [hcl] at he_class
    cases he_class
    exact hfirst a ha.intra_entry ha_class (hwalked.entry_followed hc hconn hsource ha.region)
  · intro hexit f hf hf_class hfT
    have hne : f ≠ e := fun heq => heT (heq ▸ hfT)
    rcases hexact.region_of_class hc hconn hf he hne hf_class hcl with hregion | hregion
    · obtain ⟨a, ha⟩ := hregion.exists_entry (hconn.strong hc) CFG.edge_none
      cases a with
      | none => exact ha.region.entry_ne rfl
      | some a => exact hexit a ha
    · exact hwalked.exit_left hc hconn heT hregion hfT

/-- The last edge of a class to be followed is the one that begins no region. -/
theorem Counters.last_iff (hcounters : Counters c pstClass T s) (hcl : pstClass e = some cl) :
    (s.classes cl).isLast = true ↔ ∀ b, ¬ c.Canonical e b := by
  have hmem : e ∈ left c pstClass T cl := (mem_left hc).mpr ⟨he, hcl, heT⟩
  have hnodup : (left c pstClass T cl).Nodup := (nodup_edges hc hconn).filter _
  unfold CEClass.isLast
  rw [decide_eq_true_eq, hcounters.count e cl he heT hcl]
  constructor
  · intro hlast b hb
    obtain ⟨cl', he_class, hb_class⟩ := hexact.class_of_region hb.region
    rw [hcl] at he_class
    cases he_class
    have hbT : b ∉ T := hwalked.exit_left hc hconn heT hb.region
    have hbmem : b ∈ left c pstClass T cl := (mem_left hc).mpr ⟨hb.intra_exit, hb_class, hbT⟩
    obtain ⟨x, hx⟩ := List.length_eq_one_iff.mp (Int.ofNat.inj hlast)
    rw [hx, List.mem_singleton] at hmem hbmem
    exact hb.region.ne (congrArg some (hmem.trans hbmem.symm))
  · intro hentry
    have honly : ∀ f ∈ left c pstClass T cl, f = e := by
      intro f hf
      obtain ⟨hf_edge, hf_class, hfT⟩ := (mem_left hc).mp hf
      by_contra hne
      rcases hexact.region_of_class hc hconn hf_edge he hne hf_class hcl with hregion | hregion
      · exact hfT (hwalked.entry_followed hc hconn hsource hregion)
      · obtain ⟨b, hb⟩ := hregion.exists_exit (hconn.strong hc) CFG.edge_none
        cases b with
        | none => exact hb.region.exit_ne rfl
        | some b => exact hentry b hb
    have hone : (left c pstClass T cl).length ≤ 1 := by
      rw [List.eq_replicate_of_mem honly] at hnodup
      exact List.nodup_replicate.mp hnodup
    exact congrArg Int.ofNat (Nat.le_antisymm hone (List.length_pos_of_mem hmem))

end Flags

/-! ### The counters after an edge -/

theorem left_cons_of_class (hc : c.WellFormed) (hconn : c.Connected) (he : c.Intra e) (heT : e ∉ T)
    (hcl : pstClass e = some cl) : (left c pstClass (e :: T) cl).length + 1 = (left c pstClass T cl).length := by
  have hmem : e ∈ left c pstClass T cl := (mem_left hc).mpr ⟨he, hcl, heT⟩
  have hnodup : (left c pstClass T cl).Nodup := (nodup_edges hc hconn).filter _
  have herase : left c pstClass (e :: T) cl = (left c pstClass T cl).erase e := by
    rw [hnodup.erase_eq_filter]
    unfold left
    rw [List.filter_filter]
    refine List.filter_congr fun f _ => ?_
    simp only [List.mem_cons, not_or, Bool.decide_and, decide_not]
    grind
  rw [herase, List.length_erase_of_mem hmem]
  exact Nat.sub_add_cancel (List.length_pos_of_mem hmem)

theorem left_cons_of_ne (hcl : pstClass e ≠ some cl) : left c pstClass (e :: T) cl = left c pstClass T cl := by
  unfold left
  refine List.filter_congr fun f _ => ?_
  rw [decide_eq_decide]
  refine and_congr_right fun hf => not_congr ?_
  rw [List.mem_cons, or_iff_right]
  rintro rfl
  exact hcl hf

section Follow

variable (hc : c.WellFormed) (hconn : c.Connected) (hcounters : Counters c pstClass T s) (he : c.Intra e) (heT : e ∉ T)
  (hpst : s'.pstClass = Function.update s.pstClass e none)

include hcounters hpst

theorem Counters.current_follow {f : E} (hf : c.Intra f) (hfT : f ∉ e :: T) : s'.pstClass f = pstClass f := by
  obtain ⟨hne, hfT⟩ := not_or.mp fun h => hfT (List.mem_cons.mpr h)
  rw [hpst, Function.update_of_ne hne]
  exact hcounters.current f hf hfT

/-- A class is left as it is by the edges of the others. -/
theorem Counters.follow_other (hother : ∀ f cl, c.Intra f → f ∉ e :: T → pstClass f = some cl → pstClass e ≠ some cl)
    (hclasses : s'.classes = s.classes) : Counters c pstClass (e :: T) s' where
  current := fun f hf hfT => hcounters.current_follow hpst hf hfT
  count := by
    intro f cl hf hfT hcl
    rw [hclasses, left_cons_of_ne (hother f cl hf hfT hcl)]
    exact hcounters.count f cl hf (fun h => hfT (List.mem_cons_of_mem _ h)) hcl
  first := by
    intro f cl hf hfT hcl
    rw [hclasses, hcounters.first f cl hf (fun h => hfT (List.mem_cons_of_mem _ h)) hcl]
    refine forall_congr' fun f' => forall_congr' fun _ => forall_congr' fun hf' => not_congr ?_
    rw [List.mem_cons, or_iff_right]
    rintro rfl
    exact hother f cl hf hfT hcl hf'

include hc hconn he heT

/-- The class of an edge has one edge less, and is not met for the first time again. -/
theorem Counters.follow_dec (hcl : pstClass e = some cl)
    (hclasses : s'.classes = Function.update s.classes cl (s.classes cl).dec) : Counters c pstClass (e :: T) s' where
  current := fun f hf hfT => hcounters.current_follow hpst hf hfT
  count := by
    intro f cl' hf hfT hcl'
    have hfT' : f ∉ T := fun h => hfT (List.mem_cons_of_mem _ h)
    by_cases hsame : cl' = cl
    · subst hsame
      have hcount := hcounters.count e cl' he heT hcl
      have hleft := left_cons_of_class hc hconn he heT hcl
      rw [hclasses, Function.update_self]
      unfold CEClass.dec
      dsimp only
      omega
    · rw [hclasses, Function.update_of_ne hsame, left_cons_of_ne fun h => hsame (Option.some.inj (h.symm.trans hcl))]
      exact hcounters.count f cl' hf hfT' hcl'
  first := by
    intro f cl' hf hfT hcl'
    have hfT' : f ∉ T := fun h => hfT (List.mem_cons_of_mem _ h)
    by_cases hsame : cl' = cl
    · subst hsame
      rw [hclasses, Function.update_self]
      refine iff_of_false Bool.false_ne_true fun h => ?_
      exact h e he hcl List.mem_cons_self
    · rw [hclasses, Function.update_of_ne hsame, hcounters.first f cl' hf hfT' hcl']
      refine forall_congr' fun f' => forall_congr' fun _ => forall_congr' fun hf' => not_congr ?_
      rw [List.mem_cons, or_iff_right]
      rintro rfl
      exact hsame (Option.some.inj (hf'.symm.trans hcl))

end Follow

end Otawa.PSTBuilder
