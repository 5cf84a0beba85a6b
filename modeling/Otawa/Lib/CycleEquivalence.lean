import Mathlib.Data.List.Basic

/-!
# Cycle equivalence in a strongly connected multigraph

Two edges are cycle equivalent when every closed walk has both or none. The nodes then fall in two halves, one reached
from the first edge without the second one: the two edges are the only ones between the halves (`separates_inside`).
-/

namespace Otawa.CycleEquivalence

universe u

/-- A directed multigraph; `edge` tells which elements of `E` are its edges. -/
structure Multigraph (V E : Type u) where
  source : E → V
  target : E → V
  edge : E → Prop

namespace Multigraph

variable {V E : Type u} (G : Multigraph V E)

inductive Walk : V → List E → V → Prop where
  | nil (v : V) : Walk v [] v
  | cons {e : E} {l : List E} {v : V} : G.edge e → Walk (G.target e) l v → Walk (G.source e) (e :: l) v

/-- Each edge can be followed by any other one, later. -/
def Strong : Prop := ∀ d e, G.edge d → G.edge e → ∃ l, G.Walk (G.target d) l (G.source e)

def Equivalent (a b : E) : Prop := ∀ v l, G.Walk v l v → (a ∈ l ↔ b ∈ l)

/-- The nodes that are reached from `a` without `b`. -/
def Inside (a b : E) (v : V) : Prop := ∃ l, G.Walk (G.target a) l v ∧ b ∉ l

/-- The edge `a` enters the set and `b` leaves it, and no other edge does. -/
structure Separates (I : V → Prop) (a b : E) : Prop where
  a_source : ¬ I (G.source a)
  a_target : I (G.target a)
  b_source : I (G.source b)
  b_target : ¬ I (G.target b)
  others : ∀ e, G.edge e → e ≠ a → e ≠ b → (I (G.source e) ↔ I (G.target e))

variable {G} {a b c e f : E} {u v w : V} {l m : List E}

/-! ### Walks -/

theorem Walk.append (h : G.Walk u l v) (h' : G.Walk v m w) : G.Walk u (l ++ m) w := by
  induction h with
  | nil v => exact h'
  | cons he _ ih => exact .cons he (ih h')

theorem Walk.split (h : G.Walk u (l ++ e :: m) v) : G.Walk u l (G.source e) ∧ G.edge e ∧ G.Walk (G.target e) m v := by
  induction l generalizing u with
  | nil =>
    cases h with
    | cons he hrest => exact ⟨.nil _, he, hrest⟩
  | cons d l ih =>
    cases h with
    | cons hd hrest =>
      obtain ⟨hfirst, he, hlast⟩ := ih hrest
      exact ⟨.cons hd hfirst, he, hlast⟩

/-- A set that the edges of a walk do not leave. -/
theorem Walk.keeps {I : V → Prop} (h : G.Walk u l v) (hu : I u)
    (hstep : ∀ e ∈ l, G.edge e → I (G.source e) → I (G.target e)) : I v := by
  induction h with
  | nil v => exact hu
  | cons he _ ih =>
    exact ih (hstep _ List.mem_cons_self he hu) fun e hmem => hstep e (List.mem_cons_of_mem _ hmem)

/-- The part of a walk before the first `e`. -/
theorem Walk.before (h : G.Walk u l v) (he : e ∈ l) : ∃ m, G.Walk u m (G.source e) ∧ e ∉ m ∧ m ⊆ l := by
  obtain ⟨l₁, l₂, rfl, hfirst⟩ := List.eq_append_cons_of_mem he
  exact ⟨l₁, h.split.1, hfirst, List.subset_append_left l₁ _⟩

/-- The part of a walk after the last `e`. -/
theorem Walk.after (h : G.Walk u l v) (he : e ∈ l) : ∃ m, G.Walk (G.target e) m v ∧ e ∉ m ∧ m ⊆ l := by
  induction h with
  | nil v => cases he
  | @cons d l v hd hrest ih =>
    by_cases hlater : e ∈ l
    · obtain ⟨m, hm, hnot, hsub⟩ := ih hlater
      exact ⟨m, hm, hnot, List.subset_cons_of_subset d hsub⟩
    · rcases List.mem_cons.mp he with rfl | hmem
      · exact ⟨l, hrest, hlater, List.subset_cons_self e l⟩
      · exact absurd hmem hlater

/-- A walk to the source of `e` that does not take it. -/
theorem Strong.to_source (hG : G.Strong) {d : E} (hd : G.edge d) (he : G.edge e) :
    ∃ l, G.Walk (G.target d) l (G.source e) ∧ e ∉ l := by
  obtain ⟨l, hl⟩ := hG d e hd he
  by_cases hmem : e ∈ l
  · obtain ⟨m, hm, hnot, -⟩ := hl.before hmem
    exact ⟨m, hm, hnot⟩
  · exact ⟨l, hl, hmem⟩

/-- No proper part of the graph is closed. -/
theorem Strong.not_closed (hG : G.Strong) {I : V → Prop} {d : E} (hd : G.edge d) (he : G.edge e)
    (hI : I (G.target d)) (hstep : ∀ e, G.edge e → I (G.source e) → I (G.target e)) : I (G.source e) := by
  obtain ⟨l, hl⟩ := hG d e hd he
  exact hl.keeps hI fun e _ => hstep e

/-! ### Equivalent edges -/

theorem Equivalent.symm (h : G.Equivalent a b) : G.Equivalent b a :=
  fun v l hl => (h v l hl).symm

theorem Equivalent.trans (h : G.Equivalent a b) (h' : G.Equivalent b c) : G.Equivalent a c :=
  fun v l hl => (h v l hl).trans (h' v l hl)

/-- A walk from the target of `a` to its source goes through the edges that are equivalent to `a`. -/
theorem Equivalent.mem (h : G.Equivalent a b) (hne : a ≠ b) (ha : G.edge a)
    (hl : G.Walk (G.target a) l (G.source a)) : b ∈ l := by
  have hmem := (h _ _ (Walk.cons ha hl)).mp List.mem_cons_self
  exact List.mem_of_ne_of_mem hne.symm hmem

theorem inside_target : G.Inside a b (G.target a) :=
  ⟨[], .nil _, List.not_mem_nil⟩

theorem Inside.walk (h : G.Inside a b u) (hl : G.Walk u l v) (hb : b ∉ l) : G.Inside a b v := by
  obtain ⟨m, hm, hnot⟩ := h
  refine ⟨m ++ l, hm.append hl, fun hmem => ?_⟩
  rcases List.mem_append.mp hmem with hfirst | hsecond
  · exact hnot hfirst
  · exact hb hsecond

theorem separates_inside (hG : G.Strong) (ha : G.edge a) (hb : G.edge b) (hne : a ≠ b) (h : G.Equivalent a b) :
    G.Separates (G.Inside a b) a b := by
  have hto_a : ∀ v l, G.Inside a b v → G.Walk v l (G.source a) → b ∈ l := by
    rintro v l ⟨m, hm, hnot⟩ hl
    rcases List.mem_append.mp (h.mem hne ha (hm.append hl)) with hfirst | hsecond
    · exact absurd hfirst hnot
    · exact hsecond
  constructor
  · intro hin
    cases hto_a _ [] hin (.nil _)
  · exact inside_target
  · exact hG.to_source ha hb
  · intro hin
    obtain ⟨l, hl⟩ := hG b a hb ha
    obtain ⟨m, hm, hnot, -⟩ := hl.after (hto_a _ l hin hl)
    exact hnot (hto_a _ m hin hm)
  · intro e he hea heb
    constructor
    · intro hin
      exact hin.walk (.cons he (.nil _)) fun hmem => heb (List.mem_singleton.mp hmem).symm
    · intro hin
      by_contra hout
      -- the source of `e` is reached from `b` without `a`
      obtain ⟨l, hl⟩ := hG a e ha he
      have hbl : b ∈ l := by
        by_contra hnot
        exact hout ⟨l, hl, hnot⟩
      obtain ⟨m, hm, hnot_b, -⟩ := hl.after hbl
      have hnot_a : a ∉ m := by
        intro hmem
        obtain ⟨m', hm', -, hsub⟩ := hm.after hmem
        exact hout ⟨m', hm', fun hb' => hnot_b (hsub hb')⟩
      obtain ⟨n, hn, hn_a⟩ := hG.to_source he ha
      obtain ⟨n', hn', -, hsub⟩ := hn.before (hto_a _ n hin hn)
      have hclosed : G.Walk (G.target b) (m ++ e :: n') (G.source b) := hm.append (.cons he hn')
      rcases List.mem_append.mp (h.symm.mem hne.symm hb hclosed) with hfirst | hsecond
      · exact hnot_a hfirst
      · rcases List.mem_cons.mp hsecond with heq | hmem
        · exact hea heq.symm
        · exact hn_a (hsub hmem)

variable {I : V → Prop}

section

variable (h : G.Separates I a b)
include h

/-- A walk without `b` does not leave. -/
theorem Separates.keeps_in (hl : G.Walk u l v) (hu : I u) (hb : b ∉ l) : I v := by
  refine hl.keeps hu fun e he hedge hsource => ?_
  by_cases hea : e = a
  · rw [hea]
    exact h.a_target
  · refine (h.others e hedge hea ?_).mp hsource
    rintro rfl
    exact hb he

/-- A walk without `a` does not enter. -/
theorem Separates.keeps_out (hl : G.Walk u l v) (hu : ¬ I u) (ha : a ∉ l) : ¬ I v := by
  refine hl.keeps (I := fun v => ¬ I v) hu fun e he hedge hsource => ?_
  by_cases heb : e = b
  · rw [heb]
    exact h.b_target
  · refine fun htarget => hsource ((h.others e hedge ?_ heb).mpr htarget)
    rintro rfl
    exact ha he

theorem Separates.step_in (he : G.edge e) (hsource : I (G.source e)) (heb : e ≠ b) : I (G.target e) :=
  h.keeps_in (.cons he (.nil _)) hsource fun hmem => heb (List.mem_singleton.mp hmem).symm

theorem Separates.step_out (he : G.edge e) (hsource : ¬ I (G.source e)) (hea : e ≠ a) : ¬ I (G.target e) :=
  h.keeps_out (.cons he (.nil _)) hsource fun hmem => hea (List.mem_singleton.mp hmem).symm

theorem equivalent_of_separates : G.Equivalent a b := by
  intro v l hl
  constructor
  · intro hmem
    by_contra hnot
    obtain ⟨l₁, l₂, rfl⟩ := List.append_of_mem hmem
    obtain ⟨hfirst, -, hlast⟩ := hl.split
    refine h.a_source (h.keeps_in (hlast.append hfirst) h.a_target fun hb => hnot ?_)
    rcases List.mem_append.mp hb with hsecond | hstart
    · exact List.mem_append_right _ (List.mem_cons_of_mem _ hsecond)
    · exact List.mem_append_left _ hstart
  · intro hmem
    by_contra hnot
    obtain ⟨l₁, l₂, rfl⟩ := List.append_of_mem hmem
    obtain ⟨hfirst, -, hlast⟩ := hl.split
    refine h.keeps_out (hlast.append hfirst) h.b_target (fun ha => hnot ?_) h.b_source
    rcases List.mem_append.mp ha with hsecond | hstart
    · exact List.mem_append_right _ (List.mem_cons_of_mem _ hsecond)
    · exact List.mem_append_left _ hstart

end

/-! ### Regions

The edge `f` leads from the exit of the graph back to its entry; the walks without `f` are those of the graph. -/

/-- Each walk from the entry that takes `b` has taken `a` before. -/
def Dominates (G : Multigraph V E) (f a b : E) : Prop :=
  ∀ l, G.Walk (G.target f) l (G.source b) → f ∉ l → a ∈ l

/-- Each walk to the exit that takes `a` takes `b` after. -/
def Postdominates (G : Multigraph V E) (f b a : E) : Prop :=
  ∀ l, G.Walk (G.target a) l (G.source f) → f ∉ l → b ∈ l

/-- A single-entry single-exit region, with its entry and exit edges. -/
structure Region (G : Multigraph V E) (f a b : E) : Prop where
  entry_edge : G.edge a
  exit_edge : G.edge b
  entry_ne : a ≠ f
  exit_ne : b ≠ f
  ne : a ≠ b
  equivalent : G.Equivalent a b
  dominates : G.Dominates f a b
  postdominates : G.Postdominates f b a

/-- The smallest region with its entry edge, and with its exit edge. -/
structure Canonical (G : Multigraph V E) (f a b : E) : Prop where
  region : G.Region f a b
  least_entry : ∀ c, G.Region f a c → ∀ v, G.Inside a b v → G.Inside a c v
  least_exit : ∀ c, G.Region f c b → ∀ v, G.Inside a b v → G.Inside c b v

section Regions

variable {x y : E}

section

variable (hG : G.Strong)
include hG

theorem Region.separates (h : G.Region f a b) : G.Separates (G.Inside a b) a b :=
  separates_inside hG h.entry_edge h.exit_edge h.ne h.equivalent

section

variable (hf : G.edge f)
include hf

/-- An edge is reached from the entry, for the first time. -/
theorem Strong.from_entry (hb : G.edge b) : ∃ m, G.Walk (G.target f) m (G.source b) ∧ b ∉ m ∧ f ∉ m := by
  obtain ⟨l, hl, hnot⟩ := hG.to_source hf hb
  by_cases hmem : f ∈ l
  · obtain ⟨m, hm, hf, hsub⟩ := hl.after hmem
    exact ⟨m, hm, fun hb => hnot (hsub hb), hf⟩
  · exact ⟨l, hl, hnot, hmem⟩

/-- Of two edges only one begins a region that the other ends. -/
theorem Region.asymm (h : G.Region f a b) : ¬ G.Region f b a := by
  intro h'
  obtain ⟨m, hm, hm_a, hm_f⟩ := hG.from_entry hf h.entry_edge
  obtain ⟨n, hn, -, hsub⟩ := hm.before (h'.dominates m hm hm_f)
  exact hm_a (hsub (h.dominates n hn fun hmem => hm_f (hsub hmem)))

/-- The entry is outside of a region. -/
theorem Region.entry_outside (h : G.Region f a b) : ¬ G.Inside a b (G.target f) := by
  intro hin
  have hsep := h.separates hG
  obtain ⟨m, hm, hm_b, hm_f⟩ := hG.from_entry hf h.exit_edge
  -- the walk stays inside, and its first `a` leaves from there
  obtain ⟨n, hn, -, hsub⟩ := hm.before (h.dominates m hm hm_f)
  exact hsep.a_source (hsep.keeps_in hn hin fun hmem => hm_b (hsub hmem))

/-- The first of two equivalent edges, from the entry, begins a region. -/
theorem region_of_outside (ha : G.edge a) (hb : G.edge b) (haf : a ≠ f) (hbf : b ≠ f)
    (hne : a ≠ b) (h : G.Equivalent a b) (hout : ¬ G.Inside a b (G.target f)) : G.Region f a b := by
  have hsep := separates_inside hG ha hb hne h
  refine ⟨ha, hb, haf, hbf, hne, h, ?_, ?_⟩
  · intro l hl _
    by_contra hnot
    exact hsep.keeps_out hl hout hnot hsep.b_source
  · intro l hl _
    by_contra hnot
    have hexit : G.Inside a b (G.source f) := inside_target.walk hl hnot
    exact hout ((hsep.others f hf haf.symm hbf.symm).mp hexit)

theorem region_total (ha : G.edge a) (hb : G.edge b) (haf : a ≠ f) (hbf : b ≠ f)
    (hne : a ≠ b) (h : G.Equivalent a b) : G.Region f a b ∨ G.Region f b a := by
  by_cases hout : G.Inside a b (G.target f)
  · right
    refine region_of_outside hG hf hb ha hbf haf hne.symm h.symm ?_
    rintro ⟨l, hl, hnot⟩
    have hsep := separates_inside hG ha hb hne h
    exact hsep.keeps_out hl hsep.b_target hnot hout
  · exact .inl (region_of_outside hG hf ha hb haf hbf hne h hout)

/-- An edge of the class that lies inside a region ends a smaller one. -/
theorem Region.cut (h : G.Region f a b) (hc : G.edge c) (hcb : c ≠ b)
    (hac : G.Equivalent a c) (hin : G.Inside a b (G.source c)) : G.Region f a c ∧ ¬ G.Inside a c (G.target c) := by
  have hsep := h.separates hG
  have hout := h.entry_outside hG hf
  have hca : a ≠ c := by
    rintro rfl
    exact hsep.a_source hin
  have hcf : c ≠ f := by
    rintro rfl
    exact hout ((hsep.others c hc hca.symm hcb).mp hin)
  refine ⟨?_, (separates_inside hG h.entry_edge hc hca hac).b_target⟩
  refine region_of_outside hG hf h.entry_edge hc h.entry_ne hcf hca hac ?_
  rintro ⟨l, hl, hnot⟩
  -- from the entry to `a` without going inside, so without `c`
  obtain ⟨m, hm, hm_a⟩ := hG.to_source hf h.entry_edge
  have hm_c : c ∉ m := by
    intro hmem
    obtain ⟨n, hn, -, hsub⟩ := hm.before hmem
    exact hsep.keeps_out hn hout (fun hmem => hm_a (hsub hmem)) hin
  rcases List.mem_append.mp (hac.mem hca h.entry_edge (hl.append hm)) with hfirst | hsecond
  · exact hnot hfirst
  · exact hm_c hsecond

/-- No other edge of its class starts inside a canonical region. -/
theorem Canonical.eq_exit (h : G.Canonical f a b) (hc : G.edge c)
    (hac : G.Equivalent a c) (hin : G.Inside a b (G.source c)) : c = b := by
  by_contra hcb
  have hsep := h.region.separates hG
  obtain ⟨hregion, hout⟩ := h.region.cut hG hf hc hcb hac hin
  have htarget : G.Inside a b (G.target c) := by
    refine (hsep.others c hc ?_ hcb).mp hin
    rintro rfl
    exact hsep.a_source hin
  exact hout (h.least_entry c hregion _ htarget)

end

theorem Region.canonical (h : G.Region f a b)
    (hinner : ∀ c, G.edge c → G.Equivalent a c → G.Inside a b (G.source c) → c = b) : G.Canonical f a b := by
  have hsep := h.separates hG
  refine ⟨h, ?_, ?_⟩
  · rintro c hc v ⟨l, hl, hnot⟩
    by_cases hcb : c = b
    · rw [hcb]
      exact ⟨l, hl, hnot⟩
    · refine ⟨l, hl, fun hmem => hcb ?_⟩
      obtain ⟨m, hm, -, hsub⟩ := hl.before hmem
      exact hinner c hc.exit_edge hc.equivalent ⟨m, hm, fun hb => hnot (hsub hb)⟩
  · rintro c hc v ⟨l, hl, hnot⟩
    by_cases hca : c = a
    · rw [hca]
      exact ⟨l, hl, hnot⟩
    · have hsep_c := hc.separates hG
      have htarget : G.Inside c b (G.target a) := by
        by_contra hout
        -- the walk from `a` to `b` goes inside by `c`
        obtain ⟨m, hm, hm_b⟩ := hG.to_source h.entry_edge h.exit_edge
        have hmem : c ∈ m := by
          by_contra hm_c
          exact hsep_c.keeps_out hm hout hm_c hsep_c.b_source
        obtain ⟨n, hn, -, hsub⟩ := hm.before hmem
        exact hc.ne (hinner c hc.entry_edge (h.equivalent.trans hc.equivalent.symm) ⟨n, hn, fun hb => hm_b (hsub hb)⟩)
      exact htarget.walk hl hnot

theorem Canonical.exit_unique (hf : G.edge f) (h : G.Canonical f a b) (h' : G.Canonical f a c) : b = c := by
  have hin : G.Inside a c (G.source b) := h.least_entry c h'.region _ (h.region.separates hG).b_source
  exact h'.eq_exit hG hf h.region.exit_edge h.region.equivalent hin

theorem Canonical.entry_unique (hf : G.edge f) (h : G.Canonical f a b) (h' : G.Canonical f c b) : a = c := by
  by_contra hne
  have hin : G.Inside a b (G.target c) := h'.least_exit a h.region _ (h'.region.separates hG).a_target
  have hsource : G.Inside a b (G.source c) :=
    ((h.region.separates hG).others c h'.region.entry_edge (Ne.symm hne) h'.region.ne).mpr hin
  have hclass : G.Equivalent a c := h.region.equivalent.trans h'.region.equivalent.symm
  exact h'.region.ne (h.eq_exit hG hf h'.region.entry_edge hclass hsource)

/-- A walk from `a` to `b` that meets no edge of their class bounds a canonical region. -/
theorem Region.canonical_of_walk (h : G.Region f a b) (hl : G.Walk (G.target a) l (G.source b))
    (hclass : ∀ c ∈ l, ¬ G.Equivalent a c) : G.Canonical f a b := by
  have hsep := h.separates hG
  refine h.canonical hG fun c hc hac hin => ?_
  by_contra hcb
  obtain ⟨m, hm, hm_a⟩ := hG.to_source h.exit_edge h.entry_edge
  have hca : a ≠ c := by
    rintro rfl
    exact hsep.a_source hin
  rcases List.mem_append.mp (hac.mem hca h.entry_edge (hl.append (.cons h.exit_edge hm))) with hfirst | hsecond
  · exact hclass c hfirst hac
  · rcases List.mem_cons.mp hsecond with heq | hmem
    · exact hcb heq
    · obtain ⟨n, hn, -, hsub⟩ := hm.before hmem
      exact hsep.keeps_out hn hsep.b_target (fun ha => hm_a (hsub ha)) hin

end

theorem exists_first {l : List E} {P : E → Prop} (h : ∃ e ∈ l, P e) :
    ∃ l₁ e l₂, l = l₁ ++ e :: l₂ ∧ P e ∧ ∀ d ∈ l₁, ¬ P d := by
  induction l with
  | nil =>
    obtain ⟨_, hmem, _⟩ := h
    cases hmem
  | cons d l ih =>
    by_cases hd : P d
    · exact ⟨[], d, l, rfl, hd, fun _ hmem => absurd hmem List.not_mem_nil⟩
    · obtain ⟨e, he, hPe⟩ := h
      rcases List.mem_cons.mp he with rfl | hmem
      · exact absurd hPe hd
      · obtain ⟨l₁, e', l₂, rfl, he', hfirst⟩ := ih ⟨e, hmem, hPe⟩
        exact ⟨d :: l₁, e', l₂, rfl, he', List.forall_mem_cons.mpr ⟨hd, hfirst⟩⟩

theorem exists_last {l : List E} {P : E → Prop} (h : ∃ e ∈ l, P e) :
    ∃ l₁ e l₂, l = l₁ ++ e :: l₂ ∧ P e ∧ ∀ d ∈ l₂, ¬ P d := by
  obtain ⟨l₁, e, l₂, heq, he, hnone⟩ : ∃ l₁ e l₂, l.reverse = l₁ ++ e :: l₂ ∧ P e ∧ ∀ d ∈ l₁, ¬ P d := by
    obtain ⟨e, he, hPe⟩ := h
    exact exists_first ⟨e, List.mem_reverse.mpr he, hPe⟩
  refine ⟨l₂.reverse, e, l₁.reverse, ?_, he, fun d hd => hnone d (List.mem_reverse.mp hd)⟩
  have hrev := congrArg List.reverse heq
  simpa using hrev

/-- A walk inside a region from its entry to its exit. -/
theorem Region.walk_inside (hG : G.Strong) (h : G.Region f a b) :
    ∃ l, G.Walk (G.target a) l (G.source b) ∧ b ∉ l ∧ ∀ e ∈ l, G.Inside a b (G.source e) := by
  obtain ⟨l, hl, hnot⟩ := hG.to_source h.entry_edge h.exit_edge
  refine ⟨l, hl, hnot, fun e he => ?_⟩
  obtain ⟨m, hm, -, hsub⟩ := hl.before he
  exact ⟨m, hm, fun hb => hnot (hsub hb)⟩

/-- A region holds the canonical one with its entry. -/
theorem Region.exists_exit (hG : G.Strong) (hf : G.edge f) (h : G.Region f a c) : ∃ b, G.Canonical f a b := by
  obtain ⟨l, hl, hc, hinside⟩ := h.walk_inside hG
  by_cases hclass : ∃ e ∈ l, G.Equivalent a e
  · obtain ⟨l₁, b, l₂, rfl, hab, hnone⟩ := exists_first hclass
    have hmem : b ∈ l₁ ++ b :: l₂ := List.mem_append_right _ List.mem_cons_self
    have hbc : b ≠ c := by
      rintro rfl
      exact hc hmem
    have hregion := (h.cut hG hf hl.split.2.1 hbc hab (hinside b hmem)).1
    exact ⟨b, hregion.canonical_of_walk hG hl.split.1 hnone⟩
  · exact ⟨c, h.canonical_of_walk hG hl fun e he hae => hclass ⟨e, he, hae⟩⟩

/-- A region holds the canonical one with its exit. -/
theorem Region.exists_entry (hG : G.Strong) (hf : G.edge f) (h : G.Region f c b) : ∃ a, G.Canonical f a b := by
  have hsep := h.separates hG
  have hout := h.entry_outside hG hf
  obtain ⟨l, hl, hb, hinside⟩ := h.walk_inside hG
  by_cases hclass : ∃ e ∈ l, G.Equivalent c e
  · obtain ⟨l₁, a, l₂, rfl, hca, hnone⟩ := exists_last hclass
    obtain ⟨hfirst, ha, hlast⟩ := hl.split
    have hmem : a ∈ l₁ ++ a :: l₂ := List.mem_append_right _ List.mem_cons_self
    have hab : a ≠ b := by
      rintro rfl
      exact hb hmem
    have hf_out : ¬ G.Inside c b (G.source f) :=
      fun hin => hout ((hsep.others f hf h.entry_ne.symm h.exit_ne.symm).mp hin)
    have haf : a ≠ f := by
      rintro rfl
      exact hf_out (hinside a hmem)
    have hequiv : G.Equivalent a b := hca.symm.trans h.equivalent
    have hregion : G.Region f a b := by
      rcases region_total hG hf ha h.exit_edge haf h.exit_ne hab hequiv with hregion | hregion
      · exact hregion
      · exfalso
        -- `b` does not dominate `a`: the entry reaches `c` and then `a` without it
        obtain ⟨r, hr, hr_c⟩ := hG.to_source hf h.entry_edge
        have hr_b : b ∉ r := by
          intro hmem
          obtain ⟨n, hn, -, hsub⟩ := hr.before hmem
          exact hsep.keeps_out hn hout (fun hc => hr_c (hsub hc)) hsep.b_source
        obtain ⟨r', hr', hr'_f, hsub⟩ : ∃ m, G.Walk (G.target f) m (G.source c) ∧ f ∉ m ∧ m ⊆ r := by
          by_cases hmem : f ∈ r
          · exact hr.after hmem
          · exact ⟨r, hr, hmem, List.Subset.refl r⟩
        have hwalk : G.Walk (G.target f) (r' ++ c :: l₁) (G.source a) := hr'.append (.cons h.entry_edge hfirst)
        have hwalk_f : f ∉ r' ++ c :: l₁ := by
          intro hmem
          rcases List.mem_append.mp hmem with hstart | hrest
          · exact hr'_f hstart
          · rcases List.mem_cons.mp hrest with heq | hin
            · exact h.entry_ne heq.symm
            · exact hf_out (hinside f (List.mem_append_left _ hin))
        rcases List.mem_append.mp (hregion.dominates _ hwalk hwalk_f) with hstart | hrest
        · exact hr_b (hsub hstart)
        · rcases List.mem_cons.mp hrest with heq | hin
          · exact h.ne heq.symm
          · exact hb (List.mem_append_left _ hin)
    exact ⟨a, hregion.canonical_of_walk hG hlast fun e he hae => hnone e he (hca.trans hae)⟩
  · exact ⟨c, h.canonical_of_walk hG hl fun e he hce => hclass ⟨e, he, hce⟩⟩

/-- Two edges apart from the bounds of a set are on the same side of it at both ends. -/
theorem Separates.same_side (h : G.Separates I a b) (he : G.edge e) (hea : e ≠ a) (heb : e ≠ b) :
    (I (G.source e) ∧ I (G.target e)) ∨ (¬ I (G.source e) ∧ ¬ I (G.target e)) := by
  by_cases hsource : I (G.source e)
  · exact .inl ⟨hsource, (h.others e he hea heb).mp hsource⟩
  · exact .inr ⟨hsource, fun htarget => hsource ((h.others e he hea heb).mpr htarget)⟩

/-- The entries `a` and `x` bound what is in the first set and not in the second one, when each exit is on one side of the
other set: `b` is in the second one, and `y` is out of the first one. -/
theorem Separates.equivalent_entries {J : V → Prop} (h : G.Separates I a b) (h' : G.Separates J x y)
    (ha : ¬ J (G.target a)) (hx : I (G.source x)) (hb : J (G.source b) ∧ J (G.target b))
    (hy : ¬ I (G.source y) ∧ ¬ I (G.target y)) : G.Equivalent a x := by
  refine equivalent_of_separates (I := fun v => I v ∧ ¬ J v) ?_
  constructor
  · exact fun hboth => h.a_source hboth.1
  · exact ⟨h.a_target, ha⟩
  · exact ⟨hx, h'.a_source⟩
  · exact fun hboth => hboth.2 h'.a_target
  · intro e he hea hex
    by_cases hey : e = y
    · rw [hey]
      exact ⟨fun hboth => absurd hboth.1 hy.1, fun hboth => absurd hboth.1 hy.2⟩
    · by_cases heb : e = b
      · rw [heb]
        exact ⟨fun hboth => absurd hb.1 hboth.2, fun hboth => absurd hb.2 hboth.2⟩
      · exact and_congr (h.others e he hea heb) (not_congr (h'.others e he hex hey))

/-- A canonical region that begins inside another one is inside it. -/
theorem Canonical.nested_of_entry (hG : G.Strong) (hf : G.edge f) (h : G.Canonical f a b) (h' : G.Canonical f x y)
    (hsource : G.Inside x y (G.source a)) (htarget : G.Inside x y (G.target a)) (v : V) (hv : G.Inside a b v) :
    G.Inside x y v := by
  have hA := h.region.separates hG
  have hX := h'.region.separates hG
  have hax : a ≠ x := by
    rintro rfl
    exact hX.a_source hsource
  have hay : a ≠ y := by
    rintro rfl
    exact hX.b_target htarget
  have hclass : ¬ G.Equivalent a x :=
    fun hequiv => hay (h'.eq_exit hG hf h.region.entry_edge hequiv.symm hsource)
  have hbx : b ≠ x := by
    rintro rfl
    exact hclass h.region.equivalent
  have hby : b ≠ y := by
    rintro rfl
    exact hclass (h.region.equivalent.trans h'.region.equivalent.symm)
  have hx_edge := h'.region.entry_edge
  have hy_edge := h'.region.exit_edge
  have hx_out : ¬ G.Inside a b (G.source x) ∧ ¬ G.Inside a b (G.target x) := by
    rcases hA.same_side hx_edge hax.symm hbx.symm with hin | hout
    · exfalso
      -- nothing leads from the entry to either region
      have hclosed := hG.not_closed (I := fun v => ¬ G.Inside a b v ∧ ¬ G.Inside x y v) hf h.region.entry_edge
        ⟨h.region.entry_outside hG hf, h'.region.entry_outside hG hf⟩ ?_
      · exact hclosed.2 hsource
      · rintro e he ⟨he_A, he_X⟩
        have hea : e ≠ a := by
          rintro rfl
          exact he_X hsource
        have hex : e ≠ x := by
          rintro rfl
          exact he_A hin.1
        exact ⟨hA.step_out he he_A hea,
          hX.step_out he he_X hex⟩
    · exact hout
  have hy_out : ¬ G.Inside a b (G.source y) ∧ ¬ G.Inside a b (G.target y) := by
    rcases hA.same_side hy_edge hay.symm hby.symm with hin | hout
    · exfalso
      rcases hX.same_side h.region.exit_edge hbx hby with hb_in | hb_out
      · -- nothing leaves `a b` from outside of `x y`
        have hclosed := hG.not_closed (I := fun v => G.Inside a b v ∧ ¬ G.Inside x y v) hy_edge hy_edge
          ⟨hin.2, hX.b_target⟩ ?_
        · exact hclosed.2 hX.b_source
        · rintro e he ⟨he_A, he_X⟩
          have heb : e ≠ b := by
            rintro rfl
            exact he_X hb_in.1
          have hex : e ≠ x := by
            rintro rfl
            exact hx_out.1 he_A
          exact ⟨hA.step_in he he_A heb,
            hX.step_out he he_X hex⟩
      · -- the edges `x` and `a` bound what is in `x y` and not in `a b`
        exact hclass (hX.equivalent_entries hA hx_out.2 hsource hin hb_out).symm
    · exact hout
  obtain ⟨l, hl, hnot⟩ := hv
  refine (hl.keeps (I := fun v => G.Inside a b v ∧ G.Inside x y v) ⟨hA.a_target, htarget⟩ ?_).2
  rintro e hmem he ⟨he_A, he_X⟩
  have heb : e ≠ b := by
    rintro rfl
    exact hnot hmem
  have hey : e ≠ y := by
    rintro rfl
    exact hy_out.1 he_A
  exact ⟨hA.step_in he he_A heb,
    hX.step_in he he_X hey⟩

/-- A canonical region that ends inside another one is inside it. -/
theorem Canonical.nested_of_exit (hG : G.Strong) (hf : G.edge f) (h : G.Canonical f a b) (h' : G.Canonical f x y)
    (hsource : G.Inside x y (G.source b)) (htarget : G.Inside x y (G.target b)) (v : V) (hv : G.Inside a b v) :
    G.Inside x y v := by
  have hA := h.region.separates hG
  have hX := h'.region.separates hG
  have hbx : b ≠ x := by
    rintro rfl
    exact hX.a_source hsource
  have hby : b ≠ y := by
    rintro rfl
    exact hX.b_target htarget
  have hclass : ¬ G.Equivalent b x :=
    fun hequiv => hby (h'.eq_exit hG hf h.region.exit_edge hequiv.symm hsource)
  have hax : a ≠ x := by
    rintro rfl
    exact hclass h.region.equivalent.symm
  have hay : a ≠ y := by
    rintro rfl
    exact hclass (h.region.equivalent.symm.trans h'.region.equivalent.symm)
  have hx_edge := h'.region.entry_edge
  have hy_edge := h'.region.exit_edge
  rcases hX.same_side h.region.entry_edge hax hay with ha_in | ha_out
  · exact h.nested_of_entry hG hf h' ha_in.1 ha_in.2 v hv
  · exfalso
    have hx_in : G.Inside a b (G.source x) ∧ G.Inside a b (G.target x) := by
      rcases hA.same_side hx_edge hax.symm hbx.symm with hin | hout
      · exact hin
      · exfalso
        have hclosed := hG.not_closed (I := fun v => G.Inside a b v ∧ ¬ G.Inside x y v) h.region.entry_edge
          h.region.entry_edge ⟨hA.a_target, ha_out.2⟩ ?_
        · exact hA.a_source hclosed.1
        · rintro e he ⟨he_A, he_X⟩
          have heb : e ≠ b := by
            rintro rfl
            exact he_X hsource
          have hex : e ≠ x := by
            rintro rfl
            exact hout.1 he_A
          exact ⟨hA.step_in he he_A heb,
            hX.step_out he he_X hex⟩
    have hy_out : ¬ G.Inside a b (G.source y) ∧ ¬ G.Inside a b (G.target y) := by
      rcases hA.same_side hy_edge hay.symm hby.symm with hin | hout
      · exfalso
        have hclosed := hG.not_closed (I := fun v => ¬ G.Inside a b v ∧ G.Inside x y v) h.region.exit_edge
          h.region.exit_edge ⟨hA.b_target, htarget⟩ ?_
        · exact hclosed.1 hA.b_source
        · rintro e he ⟨he_A, he_X⟩
          have hea : e ≠ a := by
            rintro rfl
            exact ha_out.1 he_X
          have hey : e ≠ y := by
            rintro rfl
            exact he_A hin.1
          exact ⟨hA.step_out he he_A hea,
            hX.step_in he he_X hey⟩
      · exact hout
    exact hclass (h.region.equivalent.symm.trans
      (hA.equivalent_entries hX ha_out.2 hx_in.1 ⟨hsource, htarget⟩ hy_out))

end Regions

end Multigraph

end Otawa.CycleEquivalence
