import Otawa.Cfg.PSTBuilder

/-!
# The nodes of the tree in memory

The children of a node are the siblings from its first child. What the operations of the tree do to the pointers, and
the children of the nodes when nothing was appended.
-/

namespace Otawa.PSTree

variable {B E C : Type} {trees trees' trees'' : List (PSTree B E C)} {tree new n m : ℕ}

/-- `Follows trees p m`: the siblings from the pointer `p` lead to the node `m`. -/
inductive Follows (trees : List (PSTree B E C)) : Option ℕ → ℕ → Prop where
  | here {n : ℕ} : Follows trees (some n) n
  | next {n m : ℕ} {t : PSTree B E C} : trees[n]? = some t → Follows trees t.sibling m → Follows trees (some n) m

/-- `m` is a child of `n`. -/
def Child (trees : List (PSTree B E C)) (n m : ℕ) : Prop :=
  ∃ t, trees[n]? = some t ∧ Follows trees t.children m

/-- The node is in the tree of the first one. -/
def InTree (trees : List (PSTree B E C)) : ℕ → Prop := Relation.ReflTransGen (Child trees) 0

/-- The siblings from a pointer, in a list that ends. -/
inductive Siblings (trees : List (PSTree B E C)) : Option ℕ → List ℕ → Prop where
  | nil : Siblings trees none []
  | cons {n : ℕ} {t : PSTree B E C} {l : List ℕ} : trees[n]? = some t → Siblings trees t.sibling l →
      Siblings trees (some n) (n :: l)

theorem not_follows_none : ¬ Follows trees none m := by
  intro h
  cases h

theorem Siblings.follows_iff {p : Option ℕ} {l : List ℕ} (h : Siblings trees p l) : Follows trees p m ↔ m ∈ l := by
  induction h with
  | nil => exact iff_of_false not_follows_none List.not_mem_nil
  | @cons n t l ht _ ih =>
    rw [List.mem_cons]
    constructor
    · intro hfollows
      cases hfollows with
      | here => exact .inl rfl
      | next ht' hrest =>
        rw [ht] at ht'
        cases ht'
        exact .inr (ih.mp hrest)
    · rintro (rfl | hmem)
      · exact .here
      · exact .next ht (ih.mpr hmem)

/-! ### What is kept -/

/-- The pointers that are set stay, or a new first child leads to the old one. -/
def Extends (trees trees' : List (PSTree B E C)) : Prop :=
  ∀ (n : ℕ) (t : PSTree B E C), trees[n]? = some t →
    ∃ t' : PSTree B E C, trees'[n]? = some t' ∧ (∀ m, t.sibling = some m → t'.sibling = some m) ∧
    ∀ m, t.children = some m → Follows trees' t'.children m

theorem Extends.follows (h : Extends trees trees') {p : Option ℕ} (hp : Follows trees p m) : Follows trees' p m := by
  induction hp with
  | here => exact .here
  | @next n m t ht hrest ih =>
    obtain ⟨t', ht', hsibling, -⟩ := h n t ht
    cases hnext : t.sibling with
    | none =>
      rw [hnext] at hrest
      cases hrest
    | some k =>
      rw [hnext] at ih
      refine .next ht' ?_
      rw [hsibling k hnext]
      exact ih

/-- A pointer that is reached leads further. -/
theorem Follows.trans {p : Option ℕ} (h : Follows trees p n) (h' : Follows trees (some n) m) : Follows trees p m := by
  induction h with
  | here => exact h'
  | next ht _ ih => exact .next ht (ih h')

theorem Extends.child (h : Extends trees trees') (hm : Child trees n m) : Child trees' n m := by
  obtain ⟨t, ht, hfollows⟩ := hm
  obtain ⟨t', ht', -, hchildren⟩ := h n t ht
  refine ⟨t', ht', ?_⟩
  cases hfirst : t.children with
  | none =>
    rw [hfirst] at hfollows
    cases hfollows
  | some k =>
    rw [hfirst] at hfollows
    exact (hchildren k hfirst).trans (h.follows hfollows)

theorem Extends.refl (trees : List (PSTree B E C)) : Extends trees trees := by
  intro n t ht
  refine ⟨t, ht, fun _ h => h, fun m hm => ?_⟩
  rw [hm]
  exact .here

theorem Extends.trans (h : Extends trees trees') (h' : Extends trees' trees'') : Extends trees trees'' := by
  intro n t ht
  obtain ⟨t', ht', hsibling, hchildren⟩ := h n t ht
  obtain ⟨t'', ht'', hsibling', hchildren'⟩ := h' n t' ht'
  refine ⟨t'', ht'', fun m hm => hsibling' m (hsibling m hm), fun m hm => ?_⟩
  have hfollows := hchildren m hm
  cases hfirst : t'.children with
  | none =>
    rw [hfirst] at hfollows
    cases hfollows
  | some k =>
    rw [hfirst] at hfollows
    exact (hchildren' k hfirst).trans (h'.follows hfollows)

theorem getElem?_modifyData (trees : List (PSTree B E C)) (tree : ℕ) (f : SESERegion B E C → SESERegion B E C) (n : ℕ) :
    (modifyData trees tree f)[n]? =
      trees[n]?.map fun t => if tree = n then { t with data := f t.data } else t := by
  unfold modifyData
  rw [List.getElem?_modify]
  cases trees[n]? <;> simp

theorem modifyData_extends (trees : List (PSTree B E C)) (tree : ℕ) (f : SESERegion B E C → SESERegion B E C) :
    Extends trees (modifyData trees tree f) := by
  intro n t ht
  refine ⟨_, by rw [getElem?_modifyData, ht]; rfl, ?_, ?_⟩
  · intro m hm
    split <;> exact hm
  · intro m hm
    have hchildren : (if tree = n then { t with data := f t.data } else t).children = some m := by
      split <;> exact hm
    rw [hchildren]
    exact .here

theorem append_extends (trees others : List (PSTree B E C)) : Extends trees (trees ++ others) := by
  intro n t ht
  refine ⟨t, ?_, fun _ h => h, fun m hm => ?_⟩
  · rw [List.getElem?_append_left (List.getElem?_eq_some_iff.mp ht).1]
    exact ht
  · rw [hm]
    exact .here

/-- The nodes after a child is prepended. -/
theorem getElem?_prependChild (trees : List (PSTree B E C)) (hne : tree ≠ new) (n : ℕ) :
    (prependChild trees tree new)[n]? = trees[n]?.map fun t =>
      if tree = n then { t with children := some new }
      else if new = n then { t with sibling := trees[tree]?.bind PSTree.children } else t := by
  unfold prependChild
  rw [List.getElem?_modify, List.getElem?_modify]
  cases trees[n]? with
  | none => simp
  | some t =>
    by_cases htree : tree = n
    · subst htree
      simp [hne.symm]
    · by_cases hnew : new = n <;> simp [htree, hnew]

section Fresh

variable {fresh t₀ : PSTree B E C} (ht₀ : trees[tree]? = some t₀)

theorem length_prependChild (trees : List (PSTree B E C)) (tree new : ℕ) :
    (prependChild trees tree new).length = trees.length := by
  simp [prependChild]

include ht₀

theorem ne_length : tree ≠ trees.length := Nat.ne_of_lt (List.getElem?_eq_some_iff.mp ht₀).1

theorem prependChild_new : (prependChild (trees ++ [fresh]) tree trees.length)[trees.length]? =
    some { fresh with sibling := t₀.children } := by
  have hne := ne_length ht₀
  have hnew : (trees ++ [fresh])[trees.length]? = some fresh := by simp
  rw [getElem?_prependChild _ hne, hnew, Option.map_some, if_neg hne, if_pos rfl,
    List.getElem?_append_left (List.getElem?_eq_some_iff.mp ht₀).1, ht₀]
  rfl

theorem prependChild_tree : (prependChild (trees ++ [fresh]) tree trees.length)[tree]? =
    some { t₀ with children := some trees.length } := by
  rw [getElem?_prependChild _ (ne_length ht₀), List.getElem?_append_left (List.getElem?_eq_some_iff.mp ht₀).1, ht₀,
    Option.map_some, if_pos rfl]

theorem prependChild_old (hn : n < trees.length) (hntree : n ≠ tree) :
    (prependChild (trees ++ [fresh]) tree trees.length)[n]? = trees[n]? := by
  rw [getElem?_prependChild _ (ne_length ht₀), List.getElem?_append_left hn]
  cases trees[n]? with
  | none => rfl
  | some t => rw [Option.map_some, if_neg (Ne.symm hntree), if_neg (Nat.ne_of_gt hn)]

/-- The siblings and the regions stay. -/
theorem prependChild_keeps {t : PSTree B E C} (ht : trees[n]? = some t) :
    ∃ t', (prependChild (trees ++ [fresh]) tree trees.length)[n]? = some t' ∧ t'.sibling = t.sibling ∧
      t'.data = t.data := by
  by_cases hntree : n = tree
  · subst hntree
    rw [ht₀] at ht
    cases ht
    exact ⟨_, prependChild_tree ht₀, rfl, rfl⟩
  · refine ⟨t, ?_, rfl, rfl⟩
    rw [prependChild_old ht₀ (List.getElem?_eq_some_iff.mp ht).1 hntree]
    exact ht

/-- The nodes with a given parent, after the new one. -/
theorem prependChild_parent_iff (hparent : fresh.data.parent = some tree) :
    (∃ t', (prependChild (trees ++ [fresh]) tree trees.length)[m]? = some t' ∧ t'.data.parent = some n) ↔
      (m = trees.length ∧ n = tree) ∨ ∃ t, trees[m]? = some t ∧ t.data.parent = some n := by
  constructor
  · rintro ⟨t', ht', hn⟩
    have hm : m < (prependChild (trees ++ [fresh]) tree trees.length).length :=
      (List.getElem?_eq_some_iff.mp ht').1
    rw [length_prependChild, List.length_append, List.length_singleton] at hm
    rcases Nat.lt_or_eq_of_le (Nat.lt_succ_iff.mp hm) with hlt | rfl
    · obtain ⟨t, ht⟩ : ∃ t, trees[m]? = some t := ⟨_, List.getElem?_eq_getElem hlt⟩
      obtain ⟨u, hu, -, hdata⟩ := prependChild_keeps ht₀ ht
      rw [hu] at ht'
      cases ht'
      exact .inr ⟨t, ht, by rw [← hdata]; exact hn⟩
    · rw [prependChild_new ht₀] at ht'
      cases ht'
      exact .inl ⟨rfl, Option.some.inj (hn.symm.trans hparent)⟩
  · rintro (⟨rfl, rfl⟩ | ⟨t, ht, hn⟩)
    · exact ⟨_, prependChild_new ht₀, hparent⟩
    · obtain ⟨u, hu, -, hdata⟩ := prependChild_keeps ht₀ ht
      exact ⟨u, hu, by rw [hdata]; exact hn⟩

end Fresh

/-- A new node, prepended to the children of another one. -/
theorem prependChild_extends {fresh : PSTree B E C} (htree : tree < trees.length) :
    Extends trees (prependChild (trees ++ [fresh]) tree trees.length) := by
  intro n t ht
  by_cases hntree : n = tree
  · subst hntree
    refine ⟨_, prependChild_tree ht, fun _ h => h, fun m hm => .next (prependChild_new ht) ?_⟩
    dsimp only
    rw [hm]
    exact .here
  · refine ⟨t, ?_, fun _ h => h, fun m hm => ?_⟩
    · rw [prependChild_old (List.getElem?_eq_getElem htree) (List.getElem?_eq_some_iff.mp ht).1 hntree]
      exact ht
    · rw [hm]
      exact .here

theorem lastSibling_none {fuel : ℕ} (h : lastSibling trees fuel n = some m) :
    ∃ t, trees[m]? = some t ∧ t.sibling = none := by
  induction fuel generalizing n with
  | zero => cases h
  | succ fuel ih =>
    unfold lastSibling at h
    cases hn : trees[n]? with
    | none =>
      rw [hn] at h
      cases h
    | some t =>
      rw [hn] at h
      dsimp only at h
      cases hsibling : t.sibling with
      | none =>
        rw [hsibling] at h
        cases h
        exact ⟨t, hn, hsibling⟩
      | some k =>
        rw [hsibling] at h
        exact ih h

theorem lastSibling_follows {fuel : ℕ} (h : lastSibling trees fuel n = some m) : Follows trees (some n) m := by
  induction fuel generalizing n with
  | zero => cases h
  | succ fuel ih =>
    unfold lastSibling at h
    cases hn : trees[n]? with
    | none =>
      rw [hn] at h
      cases h
    | some t =>
      rw [hn] at h
      dsimp only at h
      cases hsibling : t.sibling with
      | none =>
        rw [hsibling] at h
        cases h
        exact .here
      | some k =>
        rw [hsibling] at h
        refine .next hn ?_
        rw [hsibling]
        exact ih h

/-- The pointers stay when a child is appended, and lead to it. -/
theorem appendChild_extends (h : appendChild trees tree new = some trees') (htree : tree < trees.length) :
    Extends trees trees' ∧ Child trees' tree new := by
  obtain ⟨t₀, ht₀⟩ : ∃ t, trees[tree]? = some t := ⟨_, List.getElem?_eq_getElem htree⟩
  unfold appendChild at h
  rw [ht₀] at h
  dsimp only [Option.bind_some] at h
  cases hchildren : t₀.children with
  | none =>
    rw [hchildren] at h
    cases h
    have hget : ∀ n, (trees.modify tree fun t => { t with children := some new })[n]? =
        trees[n]?.map fun t => if tree = n then { t with children := some new } else t := by
      intro n
      rw [List.getElem?_modify]
      cases trees[n]? <;> simp
    constructor
    · intro n t ht
      refine ⟨_, by rw [hget, ht]; rfl, ?_, ?_⟩
      · intro m hm
        split <;> exact hm
      · intro m hm
        by_cases hn : tree = n
        · subst hn
          rw [ht₀] at ht
          cases ht
          rw [hchildren] at hm
          cases hm
        · dsimp only
          rw [if_neg hn, hm]
          exact .here
    · refine ⟨{ t₀ with children := some new }, ?_, .here⟩
      rw [hget, ht₀, Option.map_some, if_pos rfl]
  | some first =>
    rw [hchildren] at h
    obtain ⟨last, hlast, h⟩ := Option.bind_eq_some_iff.mp h
    cases h
    obtain ⟨tl, htl, hnone⟩ := lastSibling_none hlast
    have hget : ∀ n, (trees.modify last fun t => { t with sibling := some new })[n]? =
        trees[n]?.map fun t => if last = n then { t with sibling := some new } else t := by
      intro n
      rw [List.getElem?_modify]
      cases trees[n]? <;> simp
    have hextends : Extends trees (trees.modify last fun t => { t with sibling := some new }) := by
      intro n t ht
      refine ⟨_, by rw [hget, ht]; rfl, ?_, ?_⟩
      · intro m hm
        by_cases hn : last = n
        · subst hn
          rw [htl] at ht
          cases ht
          rw [hnone] at hm
          cases hm
        · dsimp only
          rw [if_neg hn]
          exact hm
      · intro m hm
        have hsame : (if last = n then { t with sibling := some new } else t).children = some m := by
          split <;> exact hm
        rw [hsame]
        exact .here
    refine ⟨hextends, ?_⟩
    obtain ⟨t', ht', -, hfirst⟩ := hextends tree t₀ ht₀
    refine ⟨t', ht', (hfirst first hchildren).trans ((hextends.follows (lastSibling_follows hlast)).trans ?_)⟩
    refine .next (t := { tl with sibling := some new }) ?_ .here
    rw [hget, htl, Option.map_some, if_pos rfl]

/-! ### Trees without appended nodes -/

theorem Siblings.mono (h : ∀ (n : ℕ) (t : PSTree B E C), trees[n]? = some t → ∃ t', trees'[n]? = some t' ∧
    t'.sibling = t.sibling) {p : Option ℕ} {l : List ℕ} (hl : Siblings trees p l) : Siblings trees' p l := by
  induction hl with
  | nil => exact .nil
  | @cons n t l ht _ ih =>
    obtain ⟨t', ht', hsibling⟩ := h n t ht
    refine .cons ht' ?_
    rw [hsibling]
    exact ih

theorem Siblings.lt_length {p : Option ℕ} {l : List ℕ} (h : Siblings trees p l) (hm : m ∈ l) : m < trees.length := by
  induction h with
  | nil => cases hm
  | cons ht _ ih =>
    rcases List.mem_cons.mp hm with rfl | hmem
    · exact (List.getElem?_eq_some_iff.mp ht).1
    · exact ih hmem

/-- The children of each node end, are listed once, and are the nodes with it for parent. -/
def Linked (trees : List (PSTree B E C)) : Prop :=
  ∃ kids : ℕ → List ℕ, ∀ (n : ℕ) (t : PSTree B E C), trees[n]? = some t →
    Siblings trees t.children (kids n) ∧ (kids n).Nodup ∧
      ∀ m, m ∈ kids n ↔ m ≠ 0 ∧ ∃ t', trees[m]? = some t' ∧ t'.data.parent = some n

theorem Linked.child_iff (h : Linked trees) (hn : n < trees.length) :
    Child trees n m ↔ m ≠ 0 ∧ ∃ t, trees[m]? = some t ∧ t.data.parent = some n := by
  obtain ⟨kids, hkids⟩ := h
  obtain ⟨hsiblings, -, hmem⟩ := hkids n _ (List.getElem?_eq_getElem hn)
  rw [← hmem m, ← hsiblings.follows_iff]
  constructor
  · rintro ⟨t, ht, hfollows⟩
    rw [List.getElem?_eq_getElem hn] at ht
    cases ht
    exact hfollows
  · exact fun hfollows => ⟨_, List.getElem?_eq_getElem hn, hfollows⟩

theorem Linked.modifyData (h : Linked trees) {f : SESERegion B E C → SESERegion B E C}
    (hf : ∀ region, (f region).parent = region.parent) : Linked (modifyData trees tree f) := by
  have hget : ∀ (n : ℕ) (t' : PSTree B E C), (PSTree.modifyData trees tree f)[n]? = some t' →
      ∃ t, trees[n]? = some t ∧ t'.children = t.children ∧ t'.data.parent = t.data.parent := by
    intro n t' ht'
    rw [getElem?_modifyData] at ht'
    obtain ⟨t, ht, rfl⟩ := Option.map_eq_some_iff.mp ht'
    refine ⟨t, ht, ?_, ?_⟩
    · split <;> rfl
    · split
      · exact hf t.data
      · rfl
  have hget' : ∀ (n : ℕ) (t : PSTree B E C), trees[n]? = some t → ∃ t', (PSTree.modifyData trees tree f)[n]? = some t' ∧
      t'.sibling = t.sibling ∧ t'.data.parent = t.data.parent := by
    intro n t ht
    refine ⟨_, by rw [getElem?_modifyData, ht]; rfl, ?_, ?_⟩
    · split <;> rfl
    · split
      · exact hf t.data
      · rfl
  obtain ⟨kids, hkids⟩ := h
  refine ⟨kids, fun n t' ht' => ?_⟩
  obtain ⟨t, ht, hchildren, -⟩ := hget n t' ht'
  obtain ⟨hsiblings, hnodup, hmem⟩ := hkids n t ht
  refine ⟨?_, hnodup, fun m => ?_⟩
  · rw [hchildren]
    exact hsiblings.mono fun n t ht => by
      obtain ⟨t', ht', hsibling, -⟩ := hget' n t ht
      exact ⟨t', ht', hsibling⟩
  · rw [hmem m]
    refine and_congr_right fun _ => ?_
    constructor
    · rintro ⟨u, hu, hparent⟩
      obtain ⟨u', hu', -, hsame⟩ := hget' m u hu
      exact ⟨u', hu', hsame.trans hparent⟩
    · rintro ⟨u', hu', hparent⟩
      obtain ⟨u, hu, -, hsame⟩ := hget m u' hu'
      exact ⟨u, hu, hsame.symm.trans hparent⟩

/-- A new node that is prepended under its parent keeps the tree linked. -/
theorem Linked.prependChild (h : Linked trees) (htree : tree < trees.length) {fresh : PSTree B E C}
    (hparents : ∀ (n : ℕ) (t : PSTree B E C) (m : ℕ), n ≠ 0 → trees[n]? = some t → t.data.parent = some m →
      m < trees.length)
    (hparent : fresh.data.parent = some tree) (hchildren : fresh.children = none) :
    Linked (prependChild (trees ++ [fresh]) tree trees.length) := by
  obtain ⟨kids, hkids⟩ := h
  obtain ⟨t₀, ht₀⟩ : ∃ t, trees[tree]? = some t := ⟨_, List.getElem?_eq_getElem htree⟩
  have hne := ne_length ht₀
  have hsame : ∀ (n : ℕ) (t : PSTree B E C), trees[n]? = some t → ∃ t',
      (PSTree.prependChild (trees ++ [fresh]) tree trees.length)[n]? = some t' ∧ t'.sibling = t.sibling := by
    intro n t ht
    obtain ⟨u, hu, hsibling, -⟩ := prependChild_keeps ht₀ ht
    exact ⟨u, hu, hsibling⟩
  have hpos : trees.length ≠ 0 := Nat.ne_of_gt (Nat.lt_of_le_of_lt (Nat.zero_le tree) htree)
  refine ⟨fun n => if n = tree then trees.length :: kids n else if n = trees.length then [] else kids n, ?_⟩
  intro n t' ht'
  dsimp only
  have hn : n < (PSTree.prependChild (trees ++ [fresh]) tree trees.length).length :=
    (List.getElem?_eq_some_iff.mp ht').1
  rw [length_prependChild, List.length_append, List.length_singleton] at hn
  by_cases hntree : n = tree
  · subst hntree
    rw [prependChild_tree ht₀] at ht'
    cases ht'
    obtain ⟨hsiblings, hnodup, hmem⟩ := hkids n t₀ ht₀
    rw [if_pos rfl]
    refine ⟨.cons (prependChild_new ht₀) (hsiblings.mono hsame), List.nodup_cons.mpr ⟨?_, hnodup⟩, fun m => ?_⟩
    · exact fun hin => Nat.lt_irrefl _ (hsiblings.lt_length hin)
    · rw [List.mem_cons, hmem m, prependChild_parent_iff ht₀ hparent]
      constructor
      · rintro (rfl | ⟨hm, hrest⟩)
        · exact ⟨hpos, .inl ⟨rfl, rfl⟩⟩
        · exact ⟨hm, .inr hrest⟩
      · rintro ⟨hm, ⟨rfl, -⟩ | hrest⟩
        · exact .inl rfl
        · exact .inr ⟨hm, hrest⟩
  · rw [if_neg hntree]
    rcases Nat.lt_or_eq_of_le (Nat.lt_succ_iff.mp hn) with hlt | rfl
    · rw [if_neg (Nat.ne_of_lt hlt)]
      rw [prependChild_old ht₀ hlt hntree] at ht'
      obtain ⟨hsiblings, hnodup, hmem⟩ := hkids n t' ht'
      refine ⟨hsiblings.mono hsame, hnodup, fun m => ?_⟩
      rw [hmem m, prependChild_parent_iff ht₀ hparent]
      refine and_congr_right fun _ => ?_
      constructor
      · exact .inr
      · rintro (⟨-, heq⟩ | hrest)
        · exact absurd heq hntree
        · exact hrest
    · rw [if_pos rfl]
      rw [prependChild_new ht₀] at ht'
      cases ht'
      rw [hchildren]
      refine ⟨.nil, List.nodup_nil, fun m => ?_⟩
      refine iff_of_false List.not_mem_nil ?_
      rintro ⟨hm, hex⟩
      rcases (prependChild_parent_iff ht₀ hparent).mp hex with ⟨-, heq⟩ | ⟨t, ht, hn⟩
      · exact hne heq.symm
      · exact Nat.lt_irrefl _ (hparents m t _ hm ht hn)

end Otawa.PSTree
