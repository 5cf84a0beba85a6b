import Otawa.Cfg.PSTRun

/-!
# The tree of the regions

The run of `buildTree` over the whole graph, and the trees that it builds.
-/

namespace Otawa.PSTBuilder

open PSTree CycleEquivalence

variable {B E C : Type} {c : CFG B E} {pstClass : E → Option C} {T T' T'' : List E} {D D' D'' : List B} {e : E}

/-- What is followed between two states: the edges `l`, and with a block all that it leads to. -/
structure Progress (c : CFG B E) (l : List E) (T : List E) (D : List B) (T' : List E) (D' : List B) : Prop where
  edges : T ⊆ T'
  blocks : D ⊆ D'
  fresh : ∀ e ∈ T', e ∉ T → e ∈ l ∨ c.source e ∉ D
  followed : ∀ e ∈ l, c.Intra e → e ∈ T' ∧ c.target e ∈ D'
  complete : ∀ v ∈ D', v ∉ D → ∀ e, c.Intra e → c.source e = v → e ∈ T' ∧ c.target e ∈ D'

theorem Progress.refl (T : List E) (D : List B) : Progress c [] T D T D where
  edges := List.Subset.refl T
  blocks := List.Subset.refl D
  fresh := fun _ he heT => absurd he heT
  followed := fun _ he => absurd he List.not_mem_nil
  complete := fun _ hv hvD => absurd hv hvD

/-- A call is not followed. -/
theorem Progress.call (hcall : ¬ c.Intra e) (T : List E) (D : List B) : Progress c [e] T D T D where
  edges := List.Subset.refl T
  blocks := List.Subset.refl D
  fresh := fun _ he heT => absurd he heT
  followed := by
    intro f hf hintra
    rw [List.mem_singleton] at hf
    exact absurd (hf ▸ hintra) hcall
  complete := fun _ hv hvD => absurd hv hvD

theorem Progress.cons {l : List E} (h : Progress c [e] T D T' D') (h' : Progress c l T' D' T'' D'') :
    Progress c (e :: l) T D T'' D'' where
  edges _ mem := h'.edges (h.edges mem)
  blocks _ mem := h'.blocks (h.blocks mem)
  fresh := by
    intro f hf hfT
    by_cases hfT' : f ∈ T'
    · rcases h.fresh f hfT' hfT with hfe | hsource
      · exact .inl (List.mem_cons.mpr (.inl (List.mem_singleton.mp hfe)))
      · exact .inr hsource
    · rcases h'.fresh f hf hfT' with hfl | hsource
      · exact .inl (List.mem_cons_of_mem _ hfl)
      · exact .inr fun hin => hsource (h.blocks hin)
  followed := by
    intro f hf hintra
    rcases List.mem_cons.mp hf with rfl | hf
    · obtain ⟨hfT, htarget⟩ := h.followed f (List.mem_singleton_self f) hintra
      exact ⟨h'.edges hfT, h'.blocks htarget⟩
    · exact h'.followed f hf hintra
  complete := by
    intro v hv hvD f hf hsource
    by_cases hvD' : v ∈ D'
    · obtain ⟨hfT, htarget⟩ := h.complete v hvD' hvD f hf hsource
      exact ⟨h'.edges hfT, h'.blocks htarget⟩
    · exact h'.complete v hv hvD' f hf hsource

/-- An edge to a block that was visited. -/
theorem Progress.back (T : List E) (htarget : c.target e ∈ D) (hsource : c.source e ∈ D) :
    Progress c [e] T D (e :: T) D where
  edges := List.subset_cons_self e T
  blocks := List.Subset.refl D
  fresh := by
    intro f hf hfT
    rcases List.mem_cons.mp hf with rfl | hf
    · exact .inl (List.mem_singleton_self f)
    · exact absurd hf hfT
  followed := by
    intro f hf _
    rw [List.mem_singleton.mp hf]
    exact ⟨List.mem_cons_self, htarget⟩
  complete := fun _ hv hvD => absurd hv hvD

/-- An edge to a block that is visited now. -/
theorem Progress.forth (h : Progress c [] (e :: T) D T' D') (htarget : c.target e ∈ D') : Progress c [e] T D T' D' where
  edges := fun _ hf => h.edges (List.mem_cons_of_mem _ hf)
  blocks := h.blocks
  fresh := by
    intro f hf hfT
    by_cases hfe : f = e
    · exact .inl (List.mem_singleton.mpr hfe)
    · rcases h.fresh f hf fun hin => (List.mem_cons.mp hin).elim hfe hfT with hnil | hsource
      · exact absurd hnil List.not_mem_nil
      · exact .inr hsource
  followed := by
    intro f hf _
    rw [List.mem_singleton.mp hf]
    exact ⟨h.edges List.mem_cons_self, htarget⟩
  complete := h.complete

/-- A block is visited by following its edges. -/
theorem Progress.visit {bb : B} (hc : c.WellFormed) (hbb : bb ∉ D) (h : Progress c (c.outs bb) T (bb :: D) T' D') :
    Progress c [] T D T' D' where
  edges := h.edges
  blocks := fun _ hv => h.blocks (List.mem_cons_of_mem _ hv)
  fresh := by
    intro f hf hfT
    rcases h.fresh f hf hfT with hout | hsource
    · right
      rw [(hc.mem_outs f bb).mp hout]
      exact hbb
    · exact .inr fun hin => hsource (List.mem_cons_of_mem _ hin)
  followed := fun _ hf => absurd hf List.not_mem_nil
  complete := by
    intro v hv hvD f hf hsource
    by_cases hvbb : v = bb
    · exact h.followed f ((hc.mem_outs f bb).mpr (hsource.trans hvbb)) hf
    · exact h.complete v hv (fun hin => (List.mem_cons.mp hin).elim hvbb hvD) f hf hsource

/-! ### The run -/

variable [DecidableEq B] [DecidableEq E] [DecidableEq C] {s s' s'' : State B E C} {classes : C → CEClass} {subtree : ℕ}

/-- The blocks whose number was removed were visited. -/
def Marks (c : CFG B E) (D : List B) (s : State B E C) : Prop :=
  ∀ v ∈ c.bbs, v ≠ c.entry → (s.dfsnum v = -1 ↔ v ∈ D)

/-- A run from a state to another one. -/
structure Reached (c : CFG B E) (pstClass : E → Option C) (l : List E) (T : List E) (D : List B) (s : State B E C)
    (T' : List E) (D' : List B) (s' : State B E C) : Prop where
  built : Built c pstClass T' D' s'
  marks : Marks c D' s'
  progress : Progress c l T D T' D'
  grows : Grows s.trees s'.trees

/-- The blocks that are left to visit. -/
def unvisited (c : CFG B E) (D : List B) : ℕ :=
  (c.bbs.filter fun v => v ∉ D).length

omit [DecidableEq E] in
theorem unvisited_mono (h : D ⊆ D') : unvisited c D' ≤ unvisited c D := by
  refine (List.monotone_filter_right c.bbs fun v hv => ?_).length_le
  rw [decide_eq_true_eq] at hv ⊢
  exact fun hin => hv (h hin)

omit [DecidableEq E] in
theorem unvisited_cons {bb : B} (hmem : bb ∈ c.bbs) (hbb : bb ∉ D) : unvisited c (bb :: D) < unvisited c D := by
  have hfilter : c.bbs.filter (fun v => v ∉ bb :: D) = (c.bbs.filter fun v => v ∉ D).filter fun v => v ≠ bb := by
    rw [List.filter_filter]
    refine List.filter_congr fun v _ => ?_
    simp only [List.mem_cons, not_or, Bool.decide_and, ne_eq]
  unfold unvisited
  rw [hfilter, List.length_filter_lt_length_iff_exists]
  refine ⟨bb, List.mem_filter.mpr ⟨hmem, by rw [decide_eq_true_eq]; exact hbb⟩, ?_⟩
  simp

/-- What the recursive call does. -/
def Correct (c : CFG B E) (pstClass : E → Option C) (build : B → ℕ → State B E C → Option (State B E C)) (fuel : ℕ) : Prop :=
  ∀ (bb : B) (subtree : ℕ) (T : List E) (D : List B) (s : State B E C), Built c pstClass T D s →
    Walked c T (bb :: D) → bb ∉ D → Marks c (bb :: D) s → Within c s.trees bb subtree →
      (∀ s', build bb subtree s = some s' → ∃ T' D', bb ∈ D' ∧ Reached c pstClass [] T D s T' D' s') ∧
        ((∀ e, ¬ Adjacent c e) → unvisited c D ≤ fuel → ∃ s', build bb subtree s = some s')

section Run

variable (hc : c.WellFormed) (hconn : c.Connected) (hexact : Exact c pstClass classes)

include hc hconn hexact

/-- One edge of a block. -/
theorem visitEdge_reached {build : B → ℕ → State B E C → Option (State B E C)} {fuel : ℕ}
    (hbuild : Correct c pstClass build fuel) (hbuilt : Built c pstClass T D s) (hmarks : Marks c D s)
    (hsource : c.source e ∈ D) (heT : c.Intra e → e ∉ T) (hwithin : Within c s.trees (c.source e) subtree) :
    (∀ s', visitEdge c build subtree s e = some s' → ∃ T' D', Reached c pstClass [e] T D s T' D' s') ∧
      ((∀ e, ¬ Adjacent c e) → unvisited c D ≤ fuel → ∃ s', visitEdge c build subtree s e = some s') := by
  unfold visitEdge
  by_cases hkind : c.kind e = .call
  · rw [if_neg (not_not_intro hkind)]
    constructor
    · rintro s' ⟨⟩
      exact ⟨T, D, hbuilt, hmarks, .call (fun h => h.1 hkind) T D, .refl _⟩
    · exact fun _ _ => ⟨s, rfl⟩
  · have he : c.Intra e := ⟨hkind, hbuilt.walked.blocks _ hsource⟩
    have htarget_mem : c.target e ∈ c.bbs := (hc.same_cfg e hkind).mp he.2
    have htarget_ne : c.target e ≠ c.entry := hconn.entry_ins e hkind
    obtain ⟨hfollowed, hsome⟩ := hbuilt.follow hc hconn he (heT he) hsource hwithin hexact
    rw [if_pos hkind]
    cases hfollow : followEdge subtree e s with
    | none =>
      constructor
      · rintro s' ⟨⟩
      · intro hadjacent _
        obtain ⟨r, hr⟩ := hsome (hadjacent e)
        rw [hfollow] at hr
        cases hr
    | some r =>
      obtain ⟨n, s₁⟩ := r
      have hstep := hfollowed n s₁ hfollow
      have hmarks₁ : Marks c D s₁ := by
        unfold Marks
        rw [hstep.dfsnum]
        exact hmarks
      simp only [Option.bind_eq_bind, Option.bind_some]
      by_cases hseen : s₁.dfsnum (c.target e) = -1
      · have htarget : c.target e ∈ D := (hmarks₁ _ htarget_mem htarget_ne).mp hseen
        rw [if_neg (not_not_intro hseen)]
        constructor
        · rintro s' ⟨⟩
          exact ⟨e :: T, D, hstep.built, hmarks₁, .back T htarget hsource, hstep.grows⟩
        · exact fun _ _ => ⟨s₁, rfl⟩
      · have htarget : c.target e ∉ D := fun hin => hseen ((hmarks₁ _ htarget_mem htarget_ne).mpr hin)
        have hbuilt₂ : Built c pstClass (e :: T) D
            { s₁ with dfsnum := Function.update s₁.dfsnum (c.target e) (-1) } :=
          ⟨hstep.built.walked, ⟨hstep.built.counters.current, hstep.built.counters.count, hstep.built.counters.first⟩,
            hstep.built.nodes, hstep.built.linked, hstep.built.reversed⟩
        have hmarks₂ : Marks c (c.target e :: D)
            { s₁ with dfsnum := Function.update s₁.dfsnum (c.target e) (-1) } := by
          intro v hv hne
          dsimp only
          rw [List.mem_cons]
          by_cases hvt : v = c.target e
          · rw [hvt, Function.update_self]
            exact iff_of_true rfl (.inl rfl)
          · rw [Function.update_of_ne hvt, hmarks₁ v hv hne, or_iff_right hvt]
        obtain ⟨hrun, htotal⟩ := hbuild (c.target e) n (e :: T) D _ hbuilt₂ (hbuilt.walked.target hc hconn he hsource
          ⟨_, hstep.within.choose_spec.1⟩) htarget hmarks₂ hstep.within
        rw [if_pos hseen]
        constructor
        · intro s' hs'
          obtain ⟨T', D', htarget', hreached⟩ := hrun s' hs'
          exact ⟨T', D', hreached.built, hreached.marks, hreached.progress.forth htarget',
            hstep.grows.trans hreached.grows⟩
        · exact htotal

/-- The edges of a block. -/
theorem visitEdges_reached {build : B → ℕ → State B E C → Option (State B E C)} {fuel : ℕ} {bb : B}
    (hbuild : Correct c pstClass build fuel) {l : List E} (hl : ∀ e ∈ l, c.source e = bb) (hnodup : l.Nodup)
    (hbuilt : Built c pstClass T D s) (hmarks : Marks c D s) (hbb : bb ∈ D) (hlT : ∀ e ∈ l, c.Intra e → e ∉ T)
    (hwithin : Within c s.trees bb subtree) :
    (∀ s', l.foldlM (visitEdge c build subtree) s = some s' → ∃ T' D', Reached c pstClass l T D s T' D' s') ∧
      ((∀ e, ¬ Adjacent c e) → unvisited c D ≤ fuel → ∃ s', l.foldlM (visitEdge c build subtree) s = some s') := by
  induction l generalizing T D s with
  | nil =>
    constructor
    · rintro s' ⟨⟩
      exact ⟨T, D, hbuilt, hmarks, .refl T D, .refl _⟩
    · exact fun _ _ => ⟨s, rfl⟩
  | cons e l ih =>
    have hsource : c.source e = bb := hl e List.mem_cons_self
    obtain ⟨hnot_mem, hnodup⟩ := List.nodup_cons.mp hnodup
    obtain ⟨hone, hone_some⟩ := visitEdge_reached hc hconn hexact hbuild hbuilt hmarks (hsource ▸ hbb)
      (hlT e List.mem_cons_self) (hsource ▸ hwithin)
    have hrest : ∀ s₁ T₁ D₁, Reached c pstClass [e] T D s T₁ D₁ s₁ → _ := fun s₁ T₁ D₁ hreached =>
      ih (fun f hf => hl f (List.mem_cons_of_mem _ hf)) hnodup hreached.built hreached.marks
        (hreached.progress.blocks hbb) (by
          intro f hf hintra hfT
          rcases hreached.progress.fresh f hfT (hlT f (List.mem_cons_of_mem _ hf) hintra) with hfe | hout
          · rw [List.mem_singleton.mp hfe] at hf
            exact hnot_mem hf
          · rw [hl f (List.mem_cons_of_mem _ hf)] at hout
            exact hout hbb) (hreached.grows.within hwithin)
    rw [List.foldlM_cons]
    constructor
    · intro s' hs'
      obtain ⟨s₁, hs₁, hs'⟩ := Option.bind_eq_some_iff.mp hs'
      obtain ⟨T₁, D₁, hreached⟩ := hone s₁ hs₁
      obtain ⟨T', D', hreached'⟩ := (hrest s₁ T₁ D₁ hreached).1 s' hs'
      exact ⟨T', D', hreached'.built, hreached'.marks, hreached.progress.cons hreached'.progress,
        hreached.grows.trans hreached'.grows⟩
    · intro hadjacent hfuel
      obtain ⟨s₁, hs₁⟩ := hone_some hadjacent hfuel
      obtain ⟨T₁, D₁, hreached⟩ := hone s₁ hs₁
      obtain ⟨s', hs'⟩ := (hrest s₁ T₁ D₁ hreached).2 hadjacent
        (Nat.le_trans (unvisited_mono hreached.progress.blocks) hfuel)
      exact ⟨s', Option.bind_eq_some_iff.mpr ⟨s₁, hs₁, hs'⟩⟩

/-- The run from a block that is not visited yet. -/
theorem buildTree_correct (fuel : ℕ) : Correct c pstClass (buildTree c fuel) fuel := by
  induction fuel with
  | zero =>
    intro bb subtree T D s _ hwalked hbb _ _
    constructor
    · rintro s' ⟨⟩
    · intro _ hfuel
      have hlt := unvisited_cons (hwalked.blocks bb List.mem_cons_self) hbb
      omega
  | succ fuel ih =>
    intro bb subtree T D s hbuilt hwalked hbb hmarks hwithin
    have hmem := hwalked.blocks bb List.mem_cons_self
    have hgrows : Grows s.trees (modifyData s.trees subtree fun region => region.addBB bb) :=
      modifyData_grows _ _ fun _ => rfl
    have hbuilt₁ : Built c pstClass T (bb :: D) { s with
        programStructureTree := Function.update s.programStructureTree bb (some subtree)
        trees := modifyData s.trees subtree fun region => region.addBB bb } := by
      obtain ⟨r, hinner, hn⟩ := hwithin
      refine ⟨hwalked, ⟨hbuilt.counters.current, hbuilt.counters.count, hbuilt.counters.first⟩, ?_, ?_, ?_⟩
      · have hdata : data (modifyData s.trees subtree fun region => region.addBB bb) =
            (data s.trees).modify subtree fun g => g.addBB bb := data_modify s.trees subtree fun _ => rfl
        dsimp only
        rw [hdata]
        exact hbuilt.nodes.visit hc hconn hbb hinner hn
      · exact fun hadjacent => (hbuilt.linked hadjacent).modifyData (f := fun region => region.addBB bb) fun _ => rfl
      · exact fun a e ha hadjacent he => hgrows.reversed (hbuilt.reversed a e ha hadjacent he)
    obtain ⟨hrun, htotal⟩ := visitEdges_reached hc hconn hexact ih (l := c.outs bb)
      (fun e he => (hc.mem_outs e bb).mp he) (hconn.nodup_outs bb) hbuilt₁ hmarks List.mem_cons_self
      (fun e he _ heT => hbb ((hc.mem_outs e bb).mp he ▸ (hbuilt.walked.edges e heT).2)) (hgrows.within hwithin)
    constructor
    · intro s' hs'
      obtain ⟨T', D', hreached⟩ := hrun s' hs'
      exact ⟨T', D', hreached.progress.blocks List.mem_cons_self, hreached.built, hreached.marks,
        hreached.progress.visit hc hbb, hgrows.trans hreached.grows⟩
    · intro hadjacent hfuel
      exact htotal hadjacent (Nat.le_of_lt_succ (Nat.lt_of_lt_of_le (unvisited_cons hmem hbb) hfuel))

end Run

/-! ### The whole graph -/

omit [DecidableEq B] [DecidableEq E] [DecidableEq C] in
theorem linked_singleton (region : SESERegion B E C) : Linked [⟨region, none, none⟩] := by
  refine ⟨fun _ => [], fun n t ht => ?_⟩
  obtain ⟨hn, rfl⟩ := List.getElem?_eq_some_iff.mp ht
  rw [List.getElem_singleton]
  refine ⟨.nil, List.nodup_nil, fun m => iff_of_false List.not_mem_nil ?_⟩
  rintro ⟨hm, u, hu, -⟩
  obtain ⟨hlt, -⟩ := List.getElem?_eq_some_iff.mp hu
  exact hm (Nat.lt_one_iff.mp hlt)

theorem built_start (hexact : Exact c pstClass classes) (dfsnum : B → ℤ) :
    Built c pstClass [] [] (start c pstClass classes dfsnum) where
  walked := ⟨fun _ h => absurd h List.not_mem_nil, fun _ h => absurd h List.not_mem_nil,
    fun _ _ _ h => absurd h List.not_mem_nil, fun _ h => absurd h List.not_mem_nil⟩
  counters := by
    refine ⟨fun _ _ _ => rfl, fun e cl he _ hcl => hexact.count e cl he hcl, fun e cl he _ hcl => ?_⟩
    exact iff_of_true (hexact.first e cl he hcl) fun _ _ _ => List.not_mem_nil
  nodes := by
    have hget : ∀ (n : ℕ) (g : SESERegion B E C), (data (start c pstClass classes dfsnum).trees)[n]? = some g →
        n = 0 ∧ g = .root c := by
      intro n g hg
      obtain ⟨hn, rfl⟩ := List.getElem?_eq_some_iff.mp hg
      have hzero : n = 0 := Nat.lt_one_iff.mp hn
      subst hzero
      exact ⟨rfl, rfl⟩
    refine ⟨⟨_, rfl, rfl⟩, ?_, ?_, ?_, ?_, ?_⟩
    · exact fun n g hn hg => absurd (hget n g hg).1 hn
    · exact fun n _ g _ hn _ hg => absurd (hget n g hg).1 hn
    · exact fun _ _ _ h => absurd h List.not_mem_nil
    · exact fun _ _ _ _ _ _ _ h => absurd h List.not_mem_nil
    · intro _ n g _ _ hg v hv
      rw [(hget n g hg).2] at hv
      exact absurd hv List.not_mem_nil
  linked := fun _ => linked_singleton _
  reversed := fun _ _ _ _ h => absurd h List.not_mem_nil

section Whole

variable (hc : c.WellFormed) (hconn : c.Connected) (hexact : Exact c pstClass classes) {dfsnum : B → ℤ}
  (hnum : ∀ b ∈ c.bbs, dfsnum b ≠ -1)

include hc hconn hexact hnum

/-- The whole run: every edge is followed and every block is visited. -/
theorem buildTree_reached (fuel : ℕ) : (∀ s, buildTree c fuel c.entry 0 (start c pstClass classes dfsnum) = some s →
    ∃ T D, Built c pstClass T D s ∧ (∀ e, c.Intra e → e ∈ T) ∧ ∀ b ∈ c.bbs, b ∈ D) ∧
      ((∀ e, ¬ Adjacent c e) → c.bbs.length ≤ fuel →
        ∃ s, buildTree c fuel c.entry 0 (start c pstClass classes dfsnum) = some s) := by
  have hwalked : Walked c [] [c.entry] := by
    refine ⟨fun _ h => absurd h List.not_mem_nil, fun v hv => List.mem_singleton.mp hv ▸ hc.entry_mem, ?_, ?_⟩
    · intro a b v hv hregion hin
      rw [List.mem_singleton.mp hv] at hin
      exact absurd hin (hregion.entry_outside (hconn.strong hc) CFG.edge_none)
    · intro v hv
      rw [List.mem_singleton.mp hv]
      exact ⟨none, CFG.innermost_entry hc hconn⟩
  have hmarks : Marks c [c.entry] (start c pstClass classes dfsnum) := by
    intro v hv hne
    exact iff_of_false (hnum v hv) fun hin => hne (List.mem_singleton.mp hin)
  obtain ⟨hrun, htotal⟩ := buildTree_correct hc hconn hexact fuel c.entry 0 [] [] (start c pstClass classes dfsnum)
    (built_start hexact dfsnum) hwalked List.not_mem_nil hmarks
    ⟨none, CFG.innermost_entry hc hconn, .root⟩
  constructor
  · intro s hs
    obtain ⟨T, D, hentry, hreached⟩ := hrun s hs
    have hvisited : ∀ b ∈ c.bbs, b ∈ D := by
      intro b hb
      induction hconn.from_entry b hb with
      | refl => exact hentry
      | tail _ hflow ih =>
        obtain ⟨e, hkind, rfl, rfl⟩ := hflow
        have hmem := (hc.same_cfg e hkind).mpr hb
        exact (hreached.progress.complete _ (ih hmem) List.not_mem_nil e ⟨hkind, hmem⟩ rfl).2
    refine ⟨T, D, hreached.built, fun e he => ?_, hvisited⟩
    exact (hreached.progress.complete _ (hvisited _ he.2) List.not_mem_nil e he rfl).1
  · intro hadjacent hfuel
    refine htotal hadjacent (Nat.le_trans ?_ hfuel)
    exact List.length_filter_le ..

end Whole

/-! ### The tree -/

/-- The node has the entry and the exit edge of the region. -/
inductive HasRegion (trees : List (PSTree B E C)) : Option (E × E) → ℕ → Prop where
  | root : HasRegion trees none 0
  | node {a b : E} {n : ℕ} {t : PSTree B E C} : n ≠ 0 → trees[n]? = some t → t.data.entry = some a →
      t.data.exit = some b → HasRegion trees (some (a, b)) n

/-- The tree of the regions: one node for each, under the one of the smallest region that strictly contains it, with the
blocks of which it is the innermost region. -/
structure Proper (c : CFG B E) (trees : List (PSTree B E C)) : Prop where
  region : ∀ n, InTree trees n → ∃ r, c.IsRegion r ∧ HasRegion trees r n
  node : ∀ r, c.IsRegion r → ∃ n, InTree trees n ∧ HasRegion trees r n ∧
    ∀ m, InTree trees m → HasRegion trees r m → m = n
  child : ∀ r r' n m, c.IsRegion r → c.IsRegion r' → InTree trees n → InTree trees m → HasRegion trees r n →
    HasRegion trees r' m → (Child trees n m ↔ c.Encloses r r')
  siblings : ∀ n t, InTree trees n → trees[n]? = some t → ∃ l, Siblings trees t.children l ∧ l.Nodup
  listed : ∀ v ∈ c.bbs, ∃ r n t, c.Innermost r v ∧ InTree trees n ∧ HasRegion trees r n ∧ trees[n]? = some t ∧
    t.data.bbs.count v = 1
  others : ∀ r n t, c.IsRegion r → InTree trees n → HasRegion trees r n → trees[n]? = some t →
    ∀ v ∈ t.data.bbs, c.Innermost r v

variable {trees : List (PSTree B E C)} {r r' : Option (E × E)} {n m : ℕ}

omit [DecidableEq B] [DecidableEq E] [DecidableEq C] in
theorem HasRegion.nodeOf (h : HasRegion trees r n) : NodeOf (data trees) r n := by
  cases h with
  | root => exact .root
  | node hn ht hentry _ =>
    refine .node hn ?_ hentry
    rw [getElem?_data, ht]
    rfl

section Finished

variable (hc : c.WellFormed) (hconn : c.Connected) (hbuilt : Built c pstClass T D s) (hT : ∀ e, c.Intra e → e ∈ T)
  (hD : ∀ b ∈ c.bbs, b ∈ D)

include hbuilt

/-- The parents lead to the root. -/
theorem Built.inTree (hlinked : Linked s.trees) (hn : n < s.trees.length) : InTree s.trees n := by
  induction n using Nat.strongRecOn with
  | ind n ih =>
    by_cases hzero : n = 0
    · rw [hzero]
      exact .refl
    · obtain ⟨t, ht⟩ : ∃ t, s.trees[n]? = some t := ⟨_, List.getElem?_eq_getElem hn⟩
      have hg : (data s.trees)[n]? = some t.data := by
        rw [getElem?_data, ht]
        rfl
      obtain ⟨-, -, -, -, -, -, r, m, hm, hmn, -⟩ := hbuilt.nodes.node n t.data hzero hg
      have hm_lt := Nat.lt_trans hmn hn
      exact (ih m hmn hm_lt).tail ((hlinked.child_iff hm_lt).mpr ⟨hzero, t, ht, hm⟩)

/-- The nodes that are in the tree have regions. -/
theorem Built.exists_region (hlinked : Linked s.trees) (hn : InTree s.trees n) :
    ∃ r, c.IsRegion r ∧ NodeOf (data s.trees) r n := by
  have hroot : 0 < s.trees.length := by
    have hpos := hbuilt.nodes.pos
    unfold data at hpos
    rw [List.length_map] at hpos
    exact hpos
  have hlt : n < s.trees.length := by
    induction hn with
    | refl => exact hroot
    | tail _ hchild ih =>
      obtain ⟨-, t, ht, -⟩ := (hlinked.child_iff ih).mp hchild
      exact (List.getElem?_eq_some_iff.mp ht).1
  by_cases hzero : n = 0
  · rw [hzero]
    exact ⟨none, CFG.isRegion_none, .root⟩
  · have hg : (data s.trees)[n]? = some s.trees[n].data := by
      rw [getElem?_data, List.getElem?_eq_getElem hlt]
      rfl
    obtain ⟨a, b, hab, -, hentry, -⟩ := hbuilt.nodes.node n _ hzero hg
    exact ⟨some (a, b), CFG.isRegion_some.mpr hab, .node hzero hg hentry⟩

include hT

theorem Built.exists_node (hr : c.IsRegion r) : ∃ n, NodeOf (data s.trees) r n := by
  cases r with
  | none => exact ⟨0, .root⟩
  | some p =>
    obtain ⟨a, b⟩ := p
    have hab := CFG.isRegion_some.mp hr
    exact hbuilt.nodes.made a b hab (hT a hab.intra_entry)

/-- The node of a region that ends where another one begins has its parent for child. -/
theorem Built.not_proper (he : Adjacent c e) : ¬ Proper c s.trees := by
  intro hproper
  obtain ⟨⟨a, ha⟩, -⟩ := id he
  obtain ⟨r, n, m, hn, hm, hencloses, hchild⟩ := hbuilt.reversed a e ha he (hT e ha.intra_exit)
  obtain ⟨n', hn'_tree, hn', -⟩ := hproper.node _ (CFG.isRegion_some.mpr ha)
  obtain ⟨m', hm'_tree, hm', -⟩ := hproper.node r hencloses.region
  rw [hbuilt.nodes.nodeOf_unique hn hn'.nodeOf, hbuilt.nodes.nodeOf_unique hm hm'.nodeOf] at hchild
  have hback := (hproper.child _ r n' m' (CFG.isRegion_some.mpr ha) hencloses.region hn'_tree hm'_tree hn' hm').mp hchild
  exact hencloses.strict.2 hback.strict.1

include hc hconn

/-- When all the edges were followed, the nodes have their exit edges too. -/
theorem Built.hasRegion (hr : c.IsRegion r) (hn : NodeOf (data s.trees) r n) : HasRegion s.trees r n := by
  cases r with
  | none =>
    cases hn
    exact .root
  | some p =>
    obtain ⟨a, b⟩ := p
    have hab := CFG.isRegion_some.mp hr
    obtain ⟨g, hg, -, hentry, hexit, -⟩ := hbuilt.nodes.region hc hconn hab hn
    rw [getElem?_data] at hg
    obtain ⟨t, ht, rfl⟩ := Option.map_eq_some_iff.mp hg
    cases hn with
    | node hne _ _ => exact .node hne ht hentry (hexit (hT b hab.intra_exit))

omit hT in
/-- The children of a node are those of the regions right inside its own. -/
theorem Built.child_iff (hlinked : Linked s.trees) (hlt : n < s.trees.length) (hr : c.IsRegion r) (hr' : c.IsRegion r')
    (hn : NodeOf (data s.trees) r n) (hm : NodeOf (data s.trees) r' m) : Child s.trees n m ↔ c.Encloses r r' := by
  rw [hlinked.child_iff hlt]
  cases r' with
  | none =>
    cases hm
    refine iff_of_false (fun h => h.1 rfl) fun h => ?_
    exact h.strict.2 (CFG.included_none r)
  | some p =>
    obtain ⟨a, b⟩ := p
    obtain ⟨g, hg, -, -, -, r'', k, hparent, -, hk, hencloses⟩ :=
      hbuilt.nodes.region hc hconn (CFG.isRegion_some.mp hr') hm
    rw [getElem?_data] at hg
    obtain ⟨t, ht, rfl⟩ := Option.map_eq_some_iff.mp hg
    constructor
    · rintro ⟨-, t', ht', hparent'⟩
      rw [ht] at ht'
      cases ht'
      rw [hparent] at hparent'
      cases hparent'
      rw [Nodes.region_unique hc hconn hr hencloses.region hn hk]
      exact hencloses
    · intro h
      have hsame := h.unique hc hconn hencloses
      subst hsame
      rw [hbuilt.nodes.nodeOf_unique hn hk]
      cases hm with
      | node hne _ _ => exact ⟨hne, t, ht, hparent⟩

include hD

theorem Built.proper (hadjacent : ∀ e, ¬ Adjacent c e) : Proper c s.trees := by
  have hlinked := hbuilt.linked hadjacent
  have hlt : ∀ {r : Option (E × E)} {n : ℕ}, NodeOf (data s.trees) r n → n < s.trees.length := by
    intro r n hn
    have hlt := hbuilt.nodes.lt_length hn
    unfold data at hlt
    rw [List.length_map] at hlt
    exact hlt
  have htree : ∀ {r : Option (E × E)} {n : ℕ}, NodeOf (data s.trees) r n → InTree s.trees n :=
    fun hn => hbuilt.inTree hlinked (hlt hn)
  refine ⟨?_, ?_, ?_, ?_, ?_, ?_⟩
  · intro n hn
    obtain ⟨r, hr, hnode⟩ := hbuilt.exists_region hlinked hn
    exact ⟨r, hr, hbuilt.hasRegion hc hconn hT hr hnode⟩
  · intro r hr
    obtain ⟨n, hn⟩ := hbuilt.exists_node hT hr
    refine ⟨n, htree hn, hbuilt.hasRegion hc hconn hT hr hn, fun m _ hm => ?_⟩
    exact hbuilt.nodes.nodeOf_unique hm.nodeOf hn
  · intro r r' n m hr hr' _ _ hn hm
    exact hbuilt.child_iff hc hconn hlinked (hlt hn.nodeOf) hr hr' hn.nodeOf hm.nodeOf
  · intro n t _ ht
    obtain ⟨kids, hkids⟩ := hlinked
    obtain ⟨hsiblings, hnodup, -⟩ := hkids n t ht
    exact ⟨kids n, hsiblings, hnodup⟩
  · intro v hv
    obtain ⟨r, hinner⟩ := hbuilt.walked.innermost v (hD v hv)
    obtain ⟨n, hn⟩ := hbuilt.exists_node hT hinner.region
    obtain ⟨t, ht⟩ : ∃ t, s.trees[n]? = some t := ⟨_, List.getElem?_eq_getElem (hlt hn)⟩
    have hg : (data s.trees)[n]? = some t.data := by
      rw [getElem?_data, ht]
      rfl
    exact ⟨r, n, t, hinner, htree hn, hbuilt.hasRegion hc hconn hT hinner.region hn, ht,
      hbuilt.nodes.listed r n t.data hinner.region hn hg v (hD v hv) hinner⟩
  · intro r n t hr _ hn ht v hv
    have hg : (data s.trees)[n]? = some t.data := by
      rw [getElem?_data, ht]
      rfl
    exact (hbuilt.nodes.others r n t.data hr hn.nodeOf hg v hv).2

end Finished

/-! ### Adjacent regions -/

/-- Three edges with the same cycles. -/
def Triple (c : CFG B E) : Prop :=
  ∃ e₁ e₂ e₃, c.Intra e₁ ∧ c.Intra e₂ ∧ c.Intra e₃ ∧ e₁ ≠ e₂ ∧ e₂ ≠ e₃ ∧ e₁ ≠ e₃ ∧ c.CycleEquivalent e₁ e₂ ∧
    c.CycleEquivalent e₂ e₃

section

omit [DecidableEq B] [DecidableEq E] [DecidableEq C]

theorem adjacent_of_regions (hc : c.WellFormed) (hconn : c.Connected) {a b : E}
    (ha : c.completed.Region none (some a) (some e)) (hb : c.completed.Region none (some e) (some b)) :
    Adjacent c e := by
  obtain ⟨a', ha'⟩ := ha.exists_entry (hconn.strong hc) CFG.edge_none
  obtain ⟨b', hb'⟩ := hb.exists_exit (hconn.strong hc) CFG.edge_none
  cases a' with
  | none => exact absurd rfl ha'.region.entry_ne
  | some a' =>
    cases b' with
    | none => exact absurd rfl hb'.region.exit_ne
    | some b' => exact ⟨⟨a', ha'⟩, b', hb'⟩

/-- Regions follow each other when a class has three edges. -/
theorem triple_iff (hc : c.WellFormed) (hconn : c.Connected) : Triple c ↔ ∃ e, Adjacent c e := by
  have hstrong := hconn.strong hc
  constructor
  · rintro ⟨x, y, z, hx, hy, hz, hxy, hyz, hxz, hequiv, hequiv'⟩
    have htotal : ∀ {a b : E}, c.Intra a → c.Intra b → a ≠ b → c.CycleEquivalent a b →
        c.completed.Region none (some a) (some b) ∨ c.completed.Region none (some b) (some a) :=
      fun ha hb hne h => Multigraph.region_total hstrong CFG.edge_none (CFG.edge_some.mpr ha) (CFG.edge_some.mpr hb)
        (Option.some_ne_none _) (Option.some_ne_none _) (fun heq => hne (Option.some.inj heq)) h
    rcases htotal hx hy hxy hequiv with hxy' | hyx
    · rcases htotal hy hz hyz hequiv' with hyz' | hzy
      · exact ⟨y, adjacent_of_regions hc hconn hxy' hyz'⟩
      · rcases htotal hx hz hxz (hequiv.trans hequiv') with hxz' | hzx
        · exact ⟨z, adjacent_of_regions hc hconn hxz' hzy⟩
        · exact ⟨x, adjacent_of_regions hc hconn hzx hxy'⟩
    · rcases htotal hx hz hxz (hequiv.trans hequiv') with hxz' | hzx
      · exact ⟨x, adjacent_of_regions hc hconn hyx hxz'⟩
      · rcases htotal hy hz hyz hequiv' with hyz' | hzy
        · exact ⟨z, adjacent_of_regions hc hconn hyz' hzx⟩
        · exact ⟨y, adjacent_of_regions hc hconn hzy hyx⟩
  · rintro ⟨e, ⟨a, ha⟩, b, hb⟩
    refine ⟨a, e, b, ha.intra_entry, hb.intra_entry, hb.intra_exit, fun heq => ha.region.ne (congrArg some heq),
      fun heq => hb.region.ne (congrArg some heq), ?_, ha.region.equivalent, hb.region.equivalent⟩
    rintro rfl
    exact ha.region.asymm hstrong CFG.edge_none hb.region

end

/-- With exact classes the tree of the regions is built, but where three edges have the same cycles. -/
theorem buildTree_proper_iff (hc : c.WellFormed) (hconn : c.Connected) (hexact : Exact c pstClass classes) {dfsnum : B → ℤ}
    (hnum : ∀ b ∈ c.bbs, dfsnum b ≠ -1) :
    ((∃ fuel s, buildTree c fuel c.entry 0 (start c pstClass classes dfsnum) = some s) ∧
      ∀ fuel s, buildTree c fuel c.entry 0 (start c pstClass classes dfsnum) = some s → Proper c s.trees) ↔
        ¬ Triple c := by
  rw [triple_iff hc hconn, not_exists]
  constructor
  · rintro ⟨⟨fuel, s, hs⟩, hproper⟩ e he
    obtain ⟨T, D, hbuilt, hT, -⟩ := (buildTree_reached hc hconn hexact hnum fuel).1 s hs
    exact hbuilt.not_proper hT he (hproper fuel s hs)
  · intro hadjacent
    constructor
    · obtain ⟨s, hs⟩ := (buildTree_reached hc hconn hexact hnum c.bbs.length).2 hadjacent (Nat.le_refl _)
      exact ⟨c.bbs.length, s, hs⟩
    · intro fuel s hs
      obtain ⟨T, D, hbuilt, hT, hD⟩ := (buildTree_reached hc hconn hexact hnum fuel).1 s hs
      exact hbuilt.proper hc hconn hT hD hadjacent

/-! ### Blocks in a line -/

/-- The blocks `0` to `n`, each with an edge to the next one; the other blocks and edges are of other graphs. -/
def line (n : ℕ) : CFG ℕ ℕ where
  bbs := List.range (n + 1)
  entry := 0
  exit := n
  number b := b
  kind _ := .taken
  source e := if e < n then e else e + 1
  target e := e + 1
  ins b := if b = 0 then [] else [b - 1]
  outs b := if b < n then [b] else if b = n then [] else [b - 1]

theorem line_wellFormed (n : ℕ) : (line n).WellFormed where
  number_bbs := fun _ hi => List.getElem_range hi
  entry_mem := List.mem_range.mpr (Nat.succ_pos n)
  mem_ins := by
    intro e b _
    dsimp only [line]
    grind
  mem_outs := by
    intro e b
    dsimp only [line]
    grind
  same_cfg := by
    intro e _
    dsimp only [line]
    rw [List.mem_range, List.mem_range]
    split <;> omega

theorem line_intra {n e : ℕ} : (line n).Intra e ↔ e < n := by
  unfold CFG.Intra line
  dsimp only
  rw [List.mem_range]
  constructor
  · rintro ⟨-, he⟩
    split at he <;> omega
  · intro he
    rw [if_pos he]
    exact ⟨EdgeKind.noConfusion, Nat.lt_succ_of_lt he⟩

theorem line_flow {n b : ℕ} (hb : b < n) : (line n).Flow b (b + 1) :=
  ⟨b, EdgeKind.noConfusion, if_pos hb, rfl⟩

theorem line_path {n b k : ℕ} (h : b + k ≤ n) : Relation.ReflTransGen (line n).Flow b (b + k) := by
  induction k with
  | zero => exact .refl
  | succ k ih => exact (ih (by omega)).tail (line_flow (by omega))

theorem line_connected (n : ℕ) : (line n).Connected where
  exit_mem := List.mem_range.mpr (Nat.lt_succ_self n)
  entry_ins := fun e _ => Nat.succ_ne_zero e
  from_entry := by
    intro b hb
    have hpath := line_path (n := n) (b := 0) (k := b) (by rw [Nat.zero_add]; exact Nat.lt_succ_iff.mp (List.mem_range.mp hb))
    rw [Nat.zero_add] at hpath
    exact hpath
  to_exit := by
    intro b hb
    obtain ⟨k, rfl⟩ := Nat.exists_eq_add_of_le (Nat.lt_succ_iff.mp (List.mem_range.mp hb))
    exact line_path (Nat.le_refl _)
  nodup_outs := by
    intro b
    dsimp only [line]
    split
    · exact List.nodup_singleton b
    · split
      · exact List.nodup_nil
      · exact List.nodup_singleton _

/-- All the edges of a line have the same cycles. -/
theorem line_equivalent {n a b : ℕ} (hab : a < b) (hb : b < n) : (line n).CycleEquivalent a b := by
  refine Multigraph.equivalent_of_separates (I := fun v => a < v ∧ v ≤ b) ?_
  refine ⟨?_, ?_, ?_, ?_, ?_⟩
  · dsimp [CFG.completed, line]
    split <;> omega
  · dsimp [CFG.completed, line]
    omega
  · dsimp [CFG.completed, line]
    split <;> omega
  · dsimp [CFG.completed, line]
    omega
  · intro e he hea heb
    cases e with
    | none =>
      dsimp [CFG.completed, line]
      omega
    | some e =>
      have hen := line_intra.mp (CFG.edge_some.mp he)
      have hea : e ≠ a := fun heq => hea (congrArg some heq)
      have heb : e ≠ b := fun heq => heb (congrArg some heq)
      dsimp [CFG.completed, line]
      rw [if_pos hen]
      omega

theorem line_exact (n : ℕ) : Exact (line n) (fun _ => some ()) fun _ => ⟨n, true⟩ where
  same := by
    intro e f he hf hne
    have he := line_intra.mp he
    have hf := line_intra.mp hf
    refine iff_of_true ?_ ⟨(), rfl, rfl⟩
    rcases Nat.lt_or_gt_of_ne hne with hlt | hlt
    · exact line_equivalent hlt hf
    · exact (line_equivalent hlt he).symm
  count := by
    intro e cl _ _
    have hnodup : (left (line n) (fun _ => some ()) [] cl).Nodup :=
      (nodup_edges (line_wellFormed n) (line_connected n)).filter _
    have hperm : (left (line n) (fun _ => some ()) [] cl).Perm (List.range n) := by
      refine (List.perm_ext_iff_of_nodup hnodup List.nodup_range).mpr fun e => ?_
      rw [mem_left (line_wellFormed n), line_intra, List.mem_range]
      exact and_iff_left ⟨rfl, List.not_mem_nil⟩
    dsimp only
    rw [hperm.length_eq, List.length_range]
  first := fun _ _ _ _ => rfl

/-- A block between the entry and the exit is a region of the tree. -/
theorem line_proper : (∃ fuel s, buildTree (line 2) fuel 0 0 (start (line 2) (fun _ => some ()) (fun _ => ⟨2, true⟩)
      fun b => b) = some s) ∧
    ∀ fuel s, buildTree (line 2) fuel 0 0 (start (line 2) (fun _ => some ()) (fun _ => ⟨2, true⟩) fun b => b) = some s →
      Proper (line 2) s.trees := by
  have hnum : ∀ b ∈ (line 2).bbs, (b : ℤ) ≠ -1 := fun b _ => by omega
  refine (buildTree_proper_iff (line_wellFormed 2) (line_connected 2) (line_exact 2) hnum).mpr ?_
  rintro ⟨x, y, z, hx, hy, hz, hxy, hyz, hxz, -⟩
  have hx := line_intra.mp hx
  have hy := line_intra.mp hy
  have hz := line_intra.mp hz
  omega

/-- With two blocks between them the node of the first region has the root for child. -/
theorem line_reversed : (line 3).WellFormed ∧ (line 3).Connected ∧
    Exact (line 3) (fun _ => some ()) (fun _ => ⟨3, true⟩) ∧ (∀ b ∈ (line 3).bbs, (b : ℤ) ≠ -1) ∧
    ∃ fuel s, buildTree (line 3) fuel 0 0 (start (line 3) (fun _ => some ()) (fun _ => ⟨3, true⟩) fun b => b) = some s ∧
      Child s.trees 0 1 ∧ Child s.trees 1 0 ∧ ¬ Proper (line 3) s.trees := by
  have hnum : ∀ b ∈ (line 3).bbs, (b : ℤ) ≠ -1 := fun b _ => by omega
  obtain ⟨s, hs, hchild, hparent⟩ : ∃ s, buildTree (line 3) 5 0 0 (start (line 3) (fun _ => some ())
      (fun _ => ⟨3, true⟩) fun b => b) = some s ∧ Child s.trees 0 1 ∧ Child s.trees 1 0 :=
    ⟨_, rfl, ⟨_, rfl, .here⟩, ⟨_, rfl, .here⟩⟩
  refine ⟨line_wellFormed 3, line_connected 3, line_exact 3, hnum, 5, s, hs, hchild, hparent, ?_⟩
  obtain ⟨T, D, hbuilt, hT, -⟩ :=
    (buildTree_reached (line_wellFormed 3) (line_connected 3) (line_exact 3) hnum 5).1 s hs
  obtain ⟨e, he⟩ : ∃ e, Adjacent (line 3) e := by
    refine (triple_iff (line_wellFormed 3) (line_connected 3)).mp ⟨0, 1, 2, ?_⟩
    have hequiv : (line 3).CycleEquivalent 0 1 := line_equivalent (by omega) (by omega)
    have hequiv' : (line 3).CycleEquivalent 1 2 := line_equivalent (by omega) (by omega)
    exact ⟨line_intra.mpr (by omega), line_intra.mpr (by omega), line_intra.mpr (by omega), by omega, by omega,
      by omega, hequiv, hequiv'⟩
  exact hbuilt.not_proper hT he

end Otawa.PSTBuilder
