import Otawa.Cfg.PSTBuilder
import Otawa.Cfg.SESERegions

/-!
# The nodes of the regions

The regions that the nodes hold, by their places in memory, while the edges are followed: `T` are the edges that may
have entered a region, `X` those that may have left one and `D` the blocks that were visited.
-/

namespace Otawa.PSTBuilder

variable {B E C : Type} {c : CFG B E} {d d' : List (SESERegion B E C)} {r r' : Option (E × E)} {n m : ℕ} {a b e : E}

/-- The node of a region, known from its entry edge, and the root for the whole graph. -/
inductive NodeOf (d : List (SESERegion B E C)) : Option (E × E) → ℕ → Prop where
  | root : NodeOf d none 0
  | node {a b : E} {n : ℕ} {g : SESERegion B E C} : n ≠ 0 → d[n]? = some g → g.entry = some a → NodeOf d (some (a, b)) n

/-- The nodes that are there stay, with their entry edges. -/
def Keeps (d d' : List (SESERegion B E C)) : Prop :=
  ∀ (n : ℕ) (g : SESERegion B E C), d[n]? = some g → ∃ g', d'[n]? = some g' ∧ g'.entry = g.entry

theorem Keeps.refl (d : List (SESERegion B E C)) : Keeps d d :=
  fun _ g hg => ⟨g, hg, rfl⟩

theorem Keeps.trans {d'' : List (SESERegion B E C)} (h : Keeps d d') (h' : Keeps d' d'') : Keeps d d'' := by
  intro n g hg
  obtain ⟨g', hg', hentry⟩ := h n g hg
  obtain ⟨g'', hg'', hentry'⟩ := h' n g' hg'
  exact ⟨g'', hg'', hentry'.trans hentry⟩

theorem Keeps.nodeOf (h : Keeps d d') (hn : NodeOf d r n) : NodeOf d' r n := by
  cases hn with
  | root => exact .root
  | node hne hg hentry =>
    obtain ⟨g', hg', hsame⟩ := h n _ hg
    exact .node hne hg' (hsame.trans hentry)

theorem keeps_append (d others : List (SESERegion B E C)) : Keeps d (d ++ others) := by
  intro n g hg
  refine ⟨g, ?_, rfl⟩
  rw [List.getElem?_append_left (List.getElem?_eq_some_iff.mp hg).1]
  exact hg

section

variable {f : SESERegion B E C → SESERegion B E C}

theorem getElem?_modify_some {g' : SESERegion B E C}
    (h : (d.modify m f)[n]? = some g') : ∃ g, d[n]? = some g ∧ g' = if m = n then f g else g := by
  rw [List.getElem?_modify] at h
  obtain ⟨g, hg, rfl⟩ := Option.map_eq_some_iff.mp h
  exact ⟨g, hg, rfl⟩

theorem getElem?_modify_of_some {g : SESERegion B E C} (h : d[n]? = some g) :
    (d.modify m f)[n]? = some (if m = n then f g else g) := by
  rw [List.getElem?_modify, h]
  rfl

theorem keeps_modify (hf : ∀ g, (f g).entry = g.entry) : Keeps d (d.modify m f) := by
  intro n g hg
  refine ⟨_, getElem?_modify_of_some hg, ?_⟩
  split
  · exact hf g
  · rfl

theorem NodeOf.of_modify (hf : ∀ g, (f g).entry = g.entry) (hn : NodeOf (d.modify m f) r n) : NodeOf d r n := by
  cases hn with
  | root => exact .root
  | @node a b n g' hne hg' hentry =>
    obtain ⟨g, hg, rfl⟩ := getElem?_modify_some hg'
    refine .node hne hg ?_
    split at hentry
    · exact (hf g).symm.trans hentry
    · exact hentry

end

/-- The root and the nodes of the regions that were entered. -/
structure Nodes [DecidableEq B] (c : CFG B E) (T X : List E) (D : List B) (d : List (SESERegion B E C)) : Prop where
  root : ∃ g, d[0]? = some g ∧ g.parent = none
  node : ∀ (n : ℕ) (g : SESERegion B E C), n ≠ 0 → d[n]? = some g → ∃ a b, c.Canonical a b ∧ a ∈ T ∧
    g.entry = some a ∧ (b ∈ X → g.exit = some b) ∧
      ∃ r m, g.parent = some m ∧ m < n ∧ NodeOf d r m ∧ c.Encloses r (some (a, b))
  unique : ∀ (n n' : ℕ) (g g' : SESERegion B E C), n ≠ 0 → n' ≠ 0 → d[n]? = some g → d[n']? = some g' →
    g.entry = g'.entry → n = n'
  made : ∀ a b, c.Canonical a b → a ∈ T → ∃ n, NodeOf d (some (a, b)) n
  listed : ∀ (r : Option (E × E)) (n : ℕ) (g : SESERegion B E C), c.IsRegion r → NodeOf d r n → d[n]? = some g →
    ∀ v ∈ D, c.Innermost r v → g.bbs.count v = 1
  others : ∀ (r : Option (E × E)) (n : ℕ) (g : SESERegion B E C), c.IsRegion r → NodeOf d r n → d[n]? = some g →
    ∀ v ∈ g.bbs, v ∈ D ∧ c.Innermost r v

namespace Nodes

variable [DecidableEq B] {T X : List E} {D : List B}

theorem pos (h : Nodes c T X D d) : 0 < d.length := by
  obtain ⟨g, hg, -⟩ := h.root
  exact (List.getElem?_eq_some_iff.mp hg).1

theorem nodeOf_unique (h : Nodes c T X D d) (hn : NodeOf d r n) (hm : NodeOf d r m) : n = m := by
  cases hn with
  | root =>
    cases hm
    rfl
  | node hne hg hentry =>
    cases hm with
    | node hne' hg' hentry' => exact h.unique _ _ _ _ hne hne' hg hg' (hentry.trans hentry'.symm)

omit [DecidableEq B] in
theorem region_unique (hc : c.WellFormed) (hconn : c.Connected) (hr : c.IsRegion r) (hr' : c.IsRegion r')
    (hn : NodeOf d r n) (hn' : NodeOf d r' n) : r = r' := by
  cases hn with
  | root =>
    cases hn' with
    | root => rfl
    | node hne => exact absurd rfl hne
  | node hne hg hentry =>
    cases hn' with
    | root => exact absurd rfl hne
    | node _ hg' hentry' =>
      rw [hg] at hg'
      cases hg'
      rw [hentry] at hentry'
      cases hentry'
      rw [(CFG.isRegion_some.mp hr).exit_unique hc hconn (CFG.isRegion_some.mp hr')]

theorem lt_length (h : Nodes c T X D d) (hn : NodeOf d r n) : n < d.length := by
  cases hn with
  | root => exact h.pos
  | node _ hg _ => exact (List.getElem?_eq_some_iff.mp hg).1

/-- What the node of a region has: its entry, its exit once it was left, and what encloses it for parent. -/
theorem region (hc : c.WellFormed) (hconn : c.Connected) (h : Nodes c T X D d) (hab : c.Canonical a b)
    (hn : NodeOf d (some (a, b)) n) : ∃ g, d[n]? = some g ∧ a ∈ T ∧ g.entry = some a ∧ (b ∈ X → g.exit = some b) ∧
      ∃ r m, g.parent = some m ∧ m < n ∧ NodeOf d r m ∧ c.Encloses r (some (a, b)) := by
  cases hn with
  | node hne hg hentry =>
    obtain ⟨a', b', hab', ha', hentry', hrest⟩ := h.node _ _ hne hg
    rw [hentry] at hentry'
    cases hentry'
    rw [hab.exit_unique hc hconn hab']
    exact ⟨_, hg, ha', hentry, hrest⟩

/-! ### The steps -/

theorem entry_plain (h : Nodes c T X D d) (hentry : ∀ b, ¬ c.Canonical e b) : Nodes c (e :: T) X D d where
  root := h.root
  node := by
    intro n g hn hg
    obtain ⟨a, b, hab, ha, hrest⟩ := h.node n g hn hg
    exact ⟨a, b, hab, List.mem_cons_of_mem _ ha, hrest⟩
  unique := h.unique
  made := by
    intro a b hab ha
    rcases List.mem_cons.mp ha with rfl | ha
    · exact absurd hab (hentry b)
    · exact h.made a b hab ha
  listed := h.listed
  others := h.others

theorem exit_plain (h : Nodes c T X D d) (hexit : ∀ a, ¬ c.Canonical a e) : Nodes c T (e :: X) D d where
  root := h.root
  node := by
    intro n g hn hg
    obtain ⟨a, b, hab, ha, hentry, hb, hparent⟩ := h.node n g hn hg
    refine ⟨a, b, hab, ha, hentry, fun hbX => ?_, hparent⟩
    rcases List.mem_cons.mp hbX with rfl | hbX
    · exact absurd hab (hexit a)
    · exact hb hbX
  unique := h.unique
  made := h.made
  listed := h.listed
  others := h.others

section

variable (hc : c.WellFormed) (hconn : c.Connected) (h : Nodes c T X D d)
include hc hconn h

/-- The exit edge of a region is recorded when it is followed. -/
theorem exit_set (hab : c.Canonical a e)
    (hm : NodeOf d (some (a, e)) m) {f : SESERegion B E C → SESERegion B E C}
    (hf : ∀ g, (f g).entry = g.entry ∧ (f g).exit = some e ∧ (f g).parent = g.parent ∧ (f g).bbs = g.bbs) :
    Nodes c T (e :: X) D (d.modify m f) where
  root := by
    obtain ⟨g, hg, hparent⟩ := h.root
    refine ⟨_, getElem?_modify_of_some hg, ?_⟩
    split
    · exact (hf g).2.2.1.trans hparent
    · exact hparent
  node := by
    intro n g' hn hg'
    have hkeeps : Keeps d (d.modify m f) := keeps_modify fun g => (hf g).1
    obtain ⟨g, hg, rfl⟩ := getElem?_modify_some hg'
    obtain ⟨a', b', hab', ha', hentry, hb', r, k, hparent, hk, hnode, hencloses⟩ := h.node n g hn hg
    refine ⟨a', b', hab', ha', ?_, fun hbX => ?_, r, k, ?_, hk, hkeeps.nodeOf hnode, hencloses⟩
    · split
      · exact (hf g).1.trans hentry
      · exact hentry
    · by_cases hmn : m = n
      · rw [if_pos hmn, (hf g).2.1]
        subst hmn
        obtain ⟨g', hg', -, hentry', -⟩ := h.region hc hconn hab hm
        rw [hg] at hg'
        cases hg'
        rw [hentry] at hentry'
        cases hentry'
        rw [hab.exit_unique hc hconn hab']
      · rw [if_neg hmn]
        rcases List.mem_cons.mp hbX with rfl | hbX
        · -- the region of the edge has one node
          have haa : a' = a := hab'.entry_unique hc hconn hab
          subst haa
          exact absurd (h.nodeOf_unique hm (.node hn hg hentry)) hmn
        · exact hb' hbX
    · split
      · exact (hf g).2.2.1.trans hparent
      · exact hparent
  unique := by
    intro n n' g g' hn hn' hg hg' hentry
    obtain ⟨g₀, hg₀, rfl⟩ := getElem?_modify_some hg
    obtain ⟨g₁, hg₁, rfl⟩ := getElem?_modify_some hg'
    refine h.unique n n' g₀ g₁ hn hn' hg₀ hg₁ ?_
    have hsame : ∀ (k : ℕ) (g : SESERegion B E C), (if m = k then f g else g).entry = g.entry := by
      intro k g
      split
      · exact (hf g).1
      · rfl
    rw [hsame, hsame] at hentry
    exact hentry
  made := by
    intro a' b' hab' ha'
    obtain ⟨n, hn⟩ := h.made a' b' hab' ha'
    exact ⟨n, (keeps_modify fun g => (hf g).1).nodeOf hn⟩
  listed := by
    intro r n g' hr hn hg' v hv hinner
    obtain ⟨g, hg, rfl⟩ := getElem?_modify_some hg'
    have hcount := h.listed r n g hr (hn.of_modify fun g => (hf g).1) hg v hv hinner
    split
    · rw [(hf g).2.2.2]
      exact hcount
    · exact hcount
  others := by
    intro r n g' hr hn hg' v hv
    obtain ⟨g, hg, rfl⟩ := getElem?_modify_some hg'
    refine h.others r n g hr (hn.of_modify fun g => (hf g).1) hg v ?_
    split at hv
    · rw [(hf g).2.2.2] at hv
      exact hv
    · exact hv

/-- The node of a region that is entered. -/
theorem append (hab : c.Canonical e b) (heT : e ∉ T)
    (hbX : b ∉ X) (hm : NodeOf d r m) (hr : c.Encloses r (some (e, b))) (hnew : ∀ v ∈ D, ¬ c.Contains (some (e, b)) v)
    {g : SESERegion B E C} (hentry : g.entry = some e) (hparent : g.parent = some m) (hbbs : g.bbs = []) :
    Nodes c (e :: T) X D (d ++ [g]) := by
  have hkeeps : Keeps d (d ++ [g]) := keeps_append d [g]
  have hcases : ∀ (n : ℕ) (g' : SESERegion B E C), (d ++ [g])[n]? = some g' →
      d[n]? = some g' ∨ (n = d.length ∧ g' = g) := by
    intro n g' hg'
    rw [List.getElem?_append] at hg'
    split at hg'
    · exact .inl hg'
    · obtain ⟨hlt, rfl⟩ := List.getElem?_eq_some_iff.mp hg'
      rw [List.length_singleton] at hlt
      exact .inr ⟨by omega, by simp⟩
  have hfresh : ∀ (n : ℕ) (g' : SESERegion B E C), n ≠ 0 → d[n]? = some g' → g'.entry ≠ some e := by
    intro n g' hn hg' hsame
    obtain ⟨a', b', -, ha', hentry', -⟩ := h.node n g' hn hg'
    rw [hsame] at hentry'
    cases hentry'
    exact heT ha'
  -- a region whose node was there, or the new one
  have hnode : ∀ (r' : Option (E × E)) (n : ℕ) (g' : SESERegion B E C), c.IsRegion r' → NodeOf (d ++ [g]) r' n →
      (d ++ [g])[n]? = some g' → (NodeOf d r' n ∧ d[n]? = some g') ∨ (r' = some (e, b) ∧ g' = g) := by
    intro r' n g' hr' hn hg'
    cases hn with
    | root =>
      rcases hcases 0 g' hg' with hold | ⟨hzero, -⟩
      · exact .inl ⟨.root, hold⟩
      · exact absurd hzero (Nat.ne_of_lt h.pos)
    | node hne hg₂ hentry₂ =>
      rw [hg'] at hg₂
      cases hg₂
      rcases hcases n g' hg' with hold | ⟨-, rfl⟩
      · exact .inl ⟨.node hne hold hentry₂, hold⟩
      · rw [hentry] at hentry₂
        cases hentry₂
        rw [(CFG.isRegion_some.mp hr').exit_unique hc hconn hab]
        exact .inr ⟨rfl, rfl⟩
  refine ⟨?_, ?_, ?_, ?_, ?_, ?_⟩
  · obtain ⟨g₀, hg₀, hroot⟩ := h.root
    refine ⟨g₀, ?_, hroot⟩
    rw [List.getElem?_append_left h.pos]
    exact hg₀
  · intro n g' hn hg'
    rcases hcases n g' hg' with hold | ⟨rfl, rfl⟩
    · obtain ⟨a', b', hab', ha', hentry', hb', r', k, hparent', hk, hnode', hencloses⟩ := h.node n g' hn hold
      exact ⟨a', b', hab', List.mem_cons_of_mem _ ha', hentry', hb', r', k, hparent', hk, hkeeps.nodeOf hnode', hencloses⟩
    · exact ⟨e, b, hab, List.mem_cons_self, hentry, fun hb => absurd hb hbX, r, m, hparent, h.lt_length hm,
        hkeeps.nodeOf hm, hr⟩
  · intro n n' g₁ g₂ hn hn' hg₁ hg₂ hsame
    rcases hcases n g₁ hg₁ with hold | ⟨rfl, rfl⟩
    · rcases hcases n' g₂ hg₂ with hold' | ⟨rfl, rfl⟩
      · exact h.unique n n' g₁ g₂ hn hn' hold hold' hsame
      · exact absurd (hsame.trans hentry) (hfresh n g₁ hn hold)
    · rcases hcases n' g₂ hg₂ with hold' | ⟨rfl, -⟩
      · exact absurd (hsame.symm.trans hentry) (hfresh n' g₂ hn' hold')
      · rfl
  · intro a' b' hab' ha'
    rcases List.mem_cons.mp ha' with rfl | ha'
    · refine ⟨d.length, .node (Nat.ne_of_gt h.pos) (g := g) ?_ hentry⟩
      simp
    · obtain ⟨n, hn⟩ := h.made a' b' hab' ha'
      exact ⟨n, hkeeps.nodeOf hn⟩
  · intro r' n g' hr' hn hg' v hv hinner
    rcases hnode r' n g' hr' hn hg' with ⟨hn', hold⟩ | ⟨rfl, -⟩
    · exact h.listed r' n g' hr' hn' hold v hv hinner
    · exact absurd hinner.contains (hnew v hv)
  · intro r' n g' hr' hn hg' v hv
    rcases hnode r' n g' hr' hn hg' with ⟨hn', hold⟩ | ⟨-, rfl⟩
    · exact h.others r' n g' hr' hn' hold v hv
    · rw [hbbs] at hv
      cases hv

/-- A block is listed in the node of its innermost region when it is visited. -/
theorem visit {w : B} (hw : w ∉ D)
    (hinner : c.Innermost r w) (hm : NodeOf d r m) : Nodes c T X (w :: D) (d.modify m fun g => g.addBB w) where
  root := by
    obtain ⟨g, hg, hparent⟩ := h.root
    refine ⟨_, getElem?_modify_of_some hg, ?_⟩
    split <;> exact hparent
  node := by
    intro n g' hn hg'
    have hkeeps : Keeps d (d.modify m fun g => g.addBB w) := keeps_modify fun _ => rfl
    obtain ⟨g, hg, rfl⟩ := getElem?_modify_some hg'
    obtain ⟨a, b, hab, ha, hentry, hb, r', k, hparent, hk, hnode, hencloses⟩ := h.node n g hn hg
    have hsame : ∀ g' : SESERegion B E C, (if m = n then g'.addBB w else g').entry = g'.entry ∧
        (if m = n then g'.addBB w else g').exit = g'.exit ∧ (if m = n then g'.addBB w else g').parent = g'.parent := by
      intro g'
      split <;> exact ⟨rfl, rfl, rfl⟩
    rw [(hsame g).1, (hsame g).2.1, (hsame g).2.2]
    exact ⟨a, b, hab, ha, hentry, hb, r', k, hparent, hk, hkeeps.nodeOf hnode, hencloses⟩
  unique := by
    intro n n' g g' hn hn' hg hg' hentry
    obtain ⟨g₀, hg₀, rfl⟩ := getElem?_modify_some hg
    obtain ⟨g₁, hg₁, rfl⟩ := getElem?_modify_some hg'
    have hsame : ∀ (k : ℕ) (g : SESERegion B E C), (if m = k then g.addBB w else g).entry = g.entry := by
      intro k g
      split <;> rfl
    rw [hsame, hsame] at hentry
    exact h.unique n n' g₀ g₁ hn hn' hg₀ hg₁ hentry
  made := by
    intro a b hab ha
    obtain ⟨n, hn⟩ := h.made a b hab ha
    have hkeeps : Keeps d (d.modify m fun g => g.addBB w) := keeps_modify fun _ => rfl
    exact ⟨n, hkeeps.nodeOf hn⟩
  listed := by
    intro r' n g' hr' hn hg' v hv hinner'
    obtain ⟨g, hg, rfl⟩ := getElem?_modify_some hg'
    have hn' : NodeOf d r' n := hn.of_modify (f := fun g => g.addBB w) fun _ => rfl
    rcases List.mem_cons.mp hv with rfl | hv
    · have hrr : r' = r := hinner'.unique hc hconn hinner
      subst hrr
      have hnone : g.bbs.count v = 0 := List.count_eq_zero.mpr fun hin => hw (h.others r' n g hr' hn' hg v hin).1
      rw [if_pos (h.nodeOf_unique hm hn')]
      unfold SESERegion.addBB
      rw [List.count_append, hnone, List.count_singleton_self]
    · have hne : w ≠ v := fun heq => hw (heq ▸ hv)
      have hcount := h.listed r' n g hr' hn' hg v hv hinner'
      split
      · unfold SESERegion.addBB
        rw [List.count_append, hcount, List.count_singleton, if_neg (by rw [beq_iff_eq]; exact hne)]
      · exact hcount
  others := by
    intro r' n g' hr' hn hg' v hv
    obtain ⟨g, hg, rfl⟩ := getElem?_modify_some hg'
    have hn' : NodeOf d r' n := hn.of_modify (f := fun g => g.addBB w) fun _ => rfl
    split at hv
    · rename_i hmn
      rcases List.mem_append.mp hv with hv | hv
      · have hold := h.others r' n g hr' hn' hg v hv
        exact ⟨List.mem_cons_of_mem _ hold.1, hold.2⟩
      · rw [List.mem_singleton.mp hv]
        subst hmn
        rw [region_unique hc hconn hr' hinner.region hn' hm]
        exact ⟨List.mem_cons_self, hinner⟩
    · have hold := h.others r' n g hr' hn' hg v hv
      exact ⟨List.mem_cons_of_mem _ hold.1, hold.2⟩

end

end Nodes

end Otawa.PSTBuilder
