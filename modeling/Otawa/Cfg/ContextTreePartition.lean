import Otawa.Cfg.ContextTreeRun

/-!
# Blocks of a context tree

A context tree is made for every function, and each block of a function is in one node of it, the one of its innermost
loop (`Tree.partition`).
-/

namespace Otawa.ContextTree

variable {B C : Type} [DecidableEq B] [DecidableEq C] {p : Program B C} {nodes : List (Node B C)}
  {node m : Node B C} {x y f t : ℕ} {s : List C} {c main : C} {b : B} {key : Option B} {pre : List B}

/-- The header of the innermost loop of the block. -/
def Program.innermost (p : Program B C) (b : B) : Option B :=
  if p.loopHeader b then some b else p.enclosing b

/-- Each block of a function is in one node of the function, the one of its innermost loop. -/
def Partition (p : Program B C) (nodes : List (Node B C)) : Prop :=
  ∀ (f : ℕ) (node : Node B C), nodes[f]? = some node → node.kind ≠ .loop → ∀ b ∈ p.bbs node.cfg,
    ∃ x m, nodes[x]? = some m ∧ enclosingFunction nodes x = some f ∧ m.bbs.count b = 1 ∧
      (p.innermost b = none → x = f) ∧ (∀ h, p.innermost b = some h → m.kind = .loop ∧ m.bb = h) ∧
      ∀ y m', nodes[y]? = some m' → enclosingFunction nodes y = some f → b ∈ m'.bbs → y = x

/-! ### Blocks of a node -/

section

omit [DecidableEq C]

theorem mem_blocksOf (hkey : ∀ h, key = some h → h ∈ pre ∧ p.loopHeader h = true) :
    b ∈ p.blocksOf key pre ↔ b ∈ pre ∧ p.innermost b = key := by
  rw [Program.blocksOf, List.mem_append, Option.mem_toList, List.mem_filter, Program.innermost]
  constructor
  · rintro (hb | ⟨hb, hcond⟩)
    · obtain ⟨hmem, hheader⟩ := hkey b hb
      exact ⟨hmem, by rw [if_pos hheader, hb]⟩
    · obtain ⟨hheader, henclosing⟩ := of_decide_eq_true hcond
      exact ⟨hb, by rw [hheader, henclosing]; rfl⟩
  · rintro ⟨hb, hinner⟩
    by_cases hheader : p.loopHeader b = true
    · rw [if_pos hheader] at hinner
      exact .inl hinner.symm
    · rw [if_neg hheader] at hinner
      exact .inr ⟨hb, decide_eq_true ⟨Bool.eq_false_iff.mpr hheader, hinner⟩⟩

theorem nodup_blocksOf (hpre : pre.Nodup) (hkey : ∀ h, key = some h → p.loopHeader h = true) :
    (p.blocksOf key pre).Nodup := by
  have hfilter := hpre.filter fun b => decide (p.loopHeader b = false ∧ p.enclosing b = key)
  cases key with
  | none => exact hfilter
  | some h =>
    refine List.nodup_cons.mpr ⟨fun hmem => ?_, hfilter⟩
    have hcond := of_decide_eq_true (List.mem_filter.mp hmem).2
    rw [hkey h rfl] at hcond
    exact absurd hcond.1 nofun

/-- What a complete tree knows of the nodes of a function. -/
structure Own (p : Program B C) (nodes : List (Node B C)) (f : ℕ) (c : C) (x : ℕ) (m : Node B C) (key : Option B) :
    Prop where
  header : ∀ h, key = some h → h ∈ p.bbs c ∧ p.loopHeader h = true
  content : Content p nodes m key (p.bbs c)
  top : key = none → x = f
  loop : ∀ h, key = some h → m.kind = .loop ∧ m.bb = h ∧ m.parent = some f ∧ f < x

omit [DecidableEq B] in
theorem Stack.cases (h : Stack nodes x f s) (hm : nodes[x]? = some m) :
    (m.kind ≠ .loop ∧ x = f) ∨ m.kind = .loop ∧ m.parent = some f ∧ f < x := by
  cases h with
  | root hnode hkind =>
    obtain rfl := Option.some.inj (hnode.symm.trans hm)
    exact .inl ⟨hkind, rfl⟩
  | function hnode hkind =>
    obtain rfl := Option.some.inj (hnode.symm.trans hm)
    exact .inl ⟨hkind, rfl⟩
  | loop hnode hkind hparent hlt =>
    obtain rfl := Option.some.inj (hnode.symm.trans hm)
    exact .inr ⟨hkind, hparent, hlt⟩

theorem Done.own (hdone : Done p nodes f node) (hnode : nodes[f]? = some node) (hstack : Stack nodes x f s)
    (hm : nodes[x]? = some m) : ∃ key, Own p nodes f node.cfg x m key := by
  rcases hstack.cases hm with ⟨-, rfl⟩ | ⟨hkind, hparent, hlt⟩
  · obtain rfl := Option.some.inj (hnode.symm.trans hm)
    exact ⟨none, nofun, hdone.top, fun _ => rfl, nofun⟩
  · obtain ⟨hmem, hheader⟩ := hdone.header x m hlt hm hkind hparent
    obtain ⟨x', m', hlt', hm', hloop, hcontent⟩ := hdone.loop m.bb hmem hheader
    obtain rfl := hdone.unique x' x m' m hlt' hlt hm' hm hloop.kind hkind hloop.parent hparent hloop.bb
    obtain rfl := Option.some.inj (hm'.symm.trans hm)
    refine ⟨some m'.bb, ?_, hcontent, nofun, ?_⟩
    · rintro h ⟨⟩
      exact ⟨hmem, hheader⟩
    · rintro h ⟨⟩
      exact ⟨hkind, rfl, hparent, hlt⟩

/-- The node for a block. -/
theorem Done.exists_own (hdone : Done p nodes f node) (hnode : nodes[f]? = some node) (hstack : Stack nodes f f s)
    (hkey : ∀ h, key = some h → h ∈ p.bbs node.cfg ∧ p.loopHeader h = true) :
    ∃ x m, nodes[x]? = some m ∧ Stack nodes x f s ∧ Own p nodes f node.cfg x m key := by
  cases key with
  | none => exact ⟨f, node, hnode, hstack, hkey, hdone.top, fun _ => rfl, nofun⟩
  | some h =>
    obtain ⟨hmem, hheader⟩ := hkey h rfl
    obtain ⟨x, m, hlt, hm, hloop, hcontent⟩ := hdone.loop h hmem hheader
    refine ⟨x, m, hm, .loop hm hloop.kind hloop.parent hlt hstack, hkey, hcontent, nofun, ?_⟩
    rintro h' ⟨⟩
    exact ⟨hloop.kind, hloop.bb, hloop.parent, hlt⟩

theorem Own.eq (hown : Own p nodes f c x m key) {m' : Node B C} (hown' : Own p nodes f c y m' key)
    (hdone : Done p nodes f node) (hm : nodes[x]? = some m) (hm' : nodes[y]? = some m') : x = y := by
  cases key with
  | none => rw [hown.top rfl, hown'.top rfl]
  | some h =>
    obtain ⟨hkind, hbb, hparent, hlt⟩ := hown.loop h rfl
    obtain ⟨hkind', hbb', hparent', hlt'⟩ := hown'.loop h rfl
    exact hdone.unique x y m m' hlt hlt' hm hm' hkind hkind' hparent hparent' (hbb.trans hbb'.symm)

omit [DecidableEq B] in
theorem Program.WellFormed.innermost (hwell : p.WellFormed) (hb : b ∈ p.bbs c) {h : B} (hinner : p.innermost b = some h) :
    h ∈ p.bbs c ∧ p.loopHeader h = true := by
  rw [Program.innermost] at hinner
  by_cases hheader : p.loopHeader b = true
  · rw [if_pos hheader] at hinner
    obtain rfl := Option.some.inj hinner
    exact ⟨hb, hheader⟩
  · rw [if_neg hheader] at hinner
    obtain ⟨hmem, hheader, -⟩ := hwell.enclosing c b h hb hinner
    exact ⟨hmem, hheader⟩

end

/-! ### Complete trees -/

/-- The nodes that the constructor makes for the main function. -/
structure Tree (p : Program B C) (main : C) (nodes : List (Node B C)) : Prop where
  closed : Sealed p 0 nodes
  top : ∃ node, nodes[0]? = some node ∧ node.kind = .root ∧ node.cfg = main ∧ node.parent = none
  attached : ∀ y, 0 < y → y < nodes.length → Attached nodes y

theorem exists_tree (hwell : p.WellFormed) (hmain : main ∈ p.cfgs) :
    ∃ nodes, contextTree p main = some nodes ∧ Tree p main nodes := by
  have hcallers : Callers (⟨[], fun _ => none⟩ : State B C).nodes none [] := .inl ⟨rfl, rfl⟩
  obtain ⟨id, st', hbuild, hbuilt⟩ := build_spec hwell hcallers
    (List.nodup_singleton main) (List.cons_subset.mpr ⟨hmain, List.nil_subset _⟩) (Nat.lt_succ_self p.cfgs.length)
  refine ⟨st'.nodes, ?_, hbuilt.closed, ?_, hbuilt.attached⟩
  · rw [contextTree, hbuild]
    rfl
  · obtain rfl := hbuilt.id_eq
    exact hbuilt.top

variable (htree : Tree p main nodes)

include htree

theorem Tree.stack (hm : nodes[x]? = some m) : ∃ f s, Stack nodes x f s ∧
    (∀ y ∈ m.children, ∃ child, nodes[y]? = some child ∧ child.kind ≠ .root ∧ child.parent = some f) ∧
    callees nodes m.children = m.bbs.flatMap (p.made s) :=
  htree.closed.inv x m (Nat.zero_le x) hm

/-- The tree of the function of a node. -/
theorem Tree.done (hstack : Stack nodes x f s) : ∃ node, nodes[f]? = some node ∧ Done p nodes f node ∧
    ∃ s', s = node.cfg :: s' := by
  cases hstack.self with
  | root hnode hkind => exact ⟨_, hnode, htree.closed.done f _ (Nat.zero_le f) hnode hkind, [], rfl⟩
  | function hnode hkind => exact ⟨_, hnode, htree.closed.done f _ (Nat.zero_le f) hnode hkind, _, rfl⟩
  | loop hnode hkind hparent hlt => exact absurd hlt (Nat.lt_irrefl f)

theorem Tree.partition (hwell : p.WellFormed) : Partition p nodes := by
  intro f node hnode hkind b hb
  have hdone := htree.closed.done f node (Nat.zero_le f) hnode hkind
  obtain ⟨f', s, hstack, -⟩ := htree.stack hnode
  obtain rfl : f = f' := by
    rcases hstack.cases hnode with ⟨-, heq⟩ | ⟨hloop, -⟩
    · exact heq
    · exact absurd hloop hkind
  have hkey : ∀ h, p.innermost b = some h → h ∈ p.bbs node.cfg ∧ p.loopHeader h = true :=
    fun h hh => hwell.innermost hb hh
  obtain ⟨x, m, hm, hstack', hown⟩ := hdone.exists_own hnode hstack hkey
  refine ⟨x, m, hm, hstack'.enclosingFunction_eq, ?_, hown.top, fun h hh => ?_, fun y m' hm' hfunction hmem => ?_⟩
  · rw [hown.content.1]
    exact List.count_eq_one_of_mem (nodup_blocksOf (hwell.nodup _) fun h hh => (hkey h hh).2)
      ((mem_blocksOf hkey).mpr ⟨hb, rfl⟩)
  · obtain ⟨hloop, hbb, -⟩ := hown.loop h hh
    exact ⟨hloop, hbb⟩
  · obtain ⟨f', s', hstack'', -⟩ := htree.stack hm'
    obtain rfl := Option.some.inj (hstack''.enclosingFunction_eq.symm.trans hfunction)
    obtain ⟨key', hown'⟩ := hdone.own hnode hstack'' hm'
    rw [hown'.content.1, mem_blocksOf hown'.header] at hmem
    obtain ⟨-, rfl⟩ := hmem
    exact hown'.eq hown hdone hm' hm

/-- The blocks of a node are those of a loop of its function. -/
theorem Tree.own (hstack : Stack nodes x f s) (hm : nodes[x]? = some m) :
    ∃ c s' key, s = c :: s' ∧ Own p nodes f c x m key ∧ ∀ b, b ∈ m.bbs ↔ b ∈ p.bbs c ∧ p.innermost b = key := by
  obtain ⟨node, hnode, hdone, s', rfl⟩ := htree.done hstack
  obtain ⟨key, hown⟩ := hdone.own hnode hstack hm
  refine ⟨node.cfg, s', key, rfl, hown, fun b => ?_⟩
  rw [hown.content.1, mem_blocksOf hown.header]

end Otawa.ContextTree
