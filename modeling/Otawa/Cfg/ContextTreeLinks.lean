import Otawa.Cfg.ContextTreePartition
import Otawa.Lib.Selection
import Mathlib.Algebra.GroupWithZero.Nat

/-!
# Links of a context tree

The parents of the nodes of a context tree are functions: the links agree only when no loop has children. Each call has
its child only when no call of the block follows a recursive one (`context_tree_iff`).
-/

namespace Otawa.ContextTree

variable {B C : Type} [DecidableEq B] [DecidableEq C] {p : Program B C} {nodes : List (Node B C)}
  {node m : Node B C} {x y t : ℕ} {s : List C} {c main : C} {b : B}

/-- The children are the nodes with the parent. -/
def Links (nodes : List (Node B C)) : Prop :=
  ∀ x y : ℕ, (∃ node : Node B C, nodes[x]? = some node ∧ y ∈ node.children) ↔
    ∃ node : Node B C, nodes[y]? = some node ∧ node.parent = some x

/-- The CFGs of the FUNCTION children. -/
def functionKids (nodes : List (Node B C)) (children : List ℕ) : List C :=
  ((children.filterMap fun y => nodes[y]?).filter fun node => node.kind = .function).map Node.cfg

/-- Each call that is not recursive has a child of its own. -/
def Calls (p : Program B C) (nodes : List (Node B C)) : Prop :=
  ∀ (x : ℕ) (node : Node B C), nodes[x]? = some node →
    (node.bbs.flatMap fun b => (p.resolved b).filter (· ∉ functions nodes x)).Subperm
      (functionKids nodes node.children)

/-- The functions that are called from the main one, the last call first, without a recursive call. -/
inductive Context (p : Program B C) (main : C) : List C → Prop where
  | main : Context p main [main]
  | call {c g : C} {s : List C} {b : B} :
      Context p main (c :: s) → b ∈ p.bbs c → g ∈ p.resolved b → g ∉ c :: s → Context p main (g :: c :: s)

/-- The tree is right for the block, when it is called through the functions `s`. -/
structure Program.Regular (p : Program B C) (s : List C) (b : B) : Prop where
  nested : p.loopHeader b = true → p.enclosing b = none
  loop : p.innermost b ≠ none → ∀ g ∈ p.resolved b, g ∈ s
  marked : (∃ g ∈ p.resolved b, g ∉ s) → p.isCall b = true
  order : (p.resolved b).Pairwise fun g g' => g ∈ s → g' ∈ s

/-! ### Contexts of the functions -/

omit [DecidableEq B] in
theorem mem_made {g : C} (hg : g ∈ p.made s b) : g ∈ p.resolved b ∧ g ∉ s := by
  rw [Program.made] at hg
  split at hg
  case isTrue => exact ⟨(List.takeWhile_sublist _).subset hg, by simpa using List.mem_takeWhile_imp hg⟩
  case isFalse => exact absurd hg List.not_mem_nil

omit [DecidableEq B] [DecidableEq C] in
theorem mem_callees {children : List ℕ} (hy : y ∈ children) (hm : nodes[y]? = some m) (hkind : m.kind ≠ .loop) :
    m.cfg ∈ callees nodes children :=
  List.mem_map.mpr ⟨m, List.mem_filter.mpr ⟨List.mem_filterMap.mpr ⟨y, hy, hm⟩, decide_eq_true hkind⟩, rfl⟩

variable (htree : Tree p main nodes)

include htree

/-- A function node is there for a context. -/
theorem Tree.context (hstack : Stack nodes t t s) : Context p main s := by
  induction t using Nat.strong_induction_on generalizing s with
  | _ t ih =>
    have hparent : ∀ node, nodes[t]? = some node → 0 < t → ∃ i m f s', nodes[i]? = some m ∧ t ∈ m.children ∧
        node.parent = some f ∧ Stack nodes i f s' ∧ callees nodes m.children = m.bbs.flatMap (p.made s') := by
      intro node hnode hpos
      obtain ⟨i, m, hm, hmem⟩ := htree.attached t hpos (List.getElem?_eq_some_iff.mp hnode).1
      obtain ⟨f, s', hstack', hkids, hcallees⟩ := htree.stack hm
      obtain ⟨child, hchild, -, hparent⟩ := hkids t hmem
      obtain rfl := Option.some.inj (hchild.symm.trans hnode)
      exact ⟨i, m, f, s', hm, hmem, hparent, hstack', hcallees⟩
    cases hstack with
    | @root _ node hnode hkind hnone =>
      rcases Nat.eq_zero_or_pos t with rfl | hpos
      · obtain ⟨top, htop, -, rfl, -⟩ := htree.top
        obtain rfl := Option.some.inj (htop.symm.trans hnode)
        exact .main
      · obtain ⟨i, m, f, s', -, -, hparent, -⟩ := hparent node hnode hpos
        rw [hnone] at hparent
        cases hparent
    | @function _ f node s hnode hkind hsome hlt hcaller =>
      obtain ⟨i, m, f', s', hm, hmem, hparent, hstack', hcallees⟩ := hparent node hnode (Nat.zero_lt_of_lt hlt)
      obtain rfl := Option.some.inj (hsome.symm.trans hparent)
      obtain ⟨-, rfl⟩ := hcaller.unique hstack'.self
      have hcfg := mem_callees hmem hnode hkind
      rw [hcallees] at hcfg
      obtain ⟨b, hb, hmade⟩ := List.mem_flatMap.mp hcfg
      obtain ⟨hresolved, hnew⟩ := mem_made hmade
      obtain ⟨c, s', key, rfl, -, hbbs⟩ := htree.own hstack' hm
      exact .call (ih f hlt hcaller) ((hbbs b).mp hb).1 hresolved hnew
    | loop _ _ _ hlt => exact absurd hlt (Nat.lt_irrefl t)

/-- The block of a context is in a node, when its function has one. -/
theorem Tree.exists_node (hwell : p.WellFormed) (hstack : Stack nodes t t (c :: s)) (hb : b ∈ p.bbs c) :
    ∃ x m, nodes[x]? = some m ∧ Stack nodes x t (c :: s) ∧ Own p nodes t c x m (p.innermost b) ∧ b ∈ m.bbs := by
  obtain ⟨node, hnode, hdone, s', heq⟩ := htree.done hstack
  obtain ⟨rfl, rfl⟩ := List.cons.inj heq
  have hkey : ∀ h, p.innermost b = some h → h ∈ p.bbs node.cfg ∧ p.loopHeader h = true :=
    fun h hh => hwell.innermost hb hh
  obtain ⟨x, m, hm, hstack', hown⟩ := hdone.exists_own hnode hstack hkey
  exact ⟨x, m, hm, hstack', hown, hown.content.1 ▸ (mem_blocksOf hkey).mpr ⟨hb, rfl⟩⟩

/-! ### Children of the loops -/

omit htree [DecidableEq B] [DecidableEq C] in
theorem children_eq_nil (nodes : List (Node B C)) {children : List ℕ} (hexist : ∀ y ∈ children, ∃ node, nodes[y]? = some node)
    (hcallees : callees nodes children = []) (hloops : loopKids nodes children = []) : children = [] := by
  refine List.eq_nil_iff_forall_not_mem.mpr fun y hy => ?_
  obtain ⟨node, hnode⟩ := hexist y hy
  by_cases hkind : node.kind = .loop
  · have hmem : node.bb ∈ loopKids nodes children :=
      List.mem_map.mpr ⟨node, List.mem_filter.mpr ⟨List.mem_filterMap.mpr ⟨y, hy, hnode⟩, decide_eq_true hkind⟩, rfl⟩
    rw [hloops] at hmem
    exact List.not_mem_nil hmem
  · have hmem := mem_callees hy hnode hkind
    rw [hcallees] at hmem
    exact List.not_mem_nil hmem

/-- The parent of a node is a function, so a loop that has children breaks the links. -/
theorem Tree.links_iff : Links nodes ↔ ∀ (x : ℕ) (m : Node B C), nodes[x]? = some m → m.kind = .loop →
    m.children = [] := by
  constructor
  · intro hlinks x m hm hloop
    refine List.eq_nil_iff_forall_not_mem.mpr fun y hy => ?_
    obtain ⟨f, s, hstack, hkids, -⟩ := htree.stack hm
    obtain ⟨child, hchild, -, hparent⟩ := hkids y hy
    obtain ⟨child', hchild', hparent'⟩ := (hlinks x y).mp ⟨m, hm, hy⟩
    obtain rfl := Option.some.inj (hchild.symm.trans hchild')
    obtain rfl := Option.some.inj (hparent.symm.trans hparent')
    rcases hstack.cases hm with ⟨hkind, -⟩ | ⟨-, -, hlt⟩
    · exact hkind hloop
    · exact Nat.lt_irrefl _ hlt
  · intro hloops
    have hchild : ∀ (x y : ℕ) (m : Node B C), nodes[x]? = some m → y ∈ m.children →
        ∃ child, nodes[y]? = some child ∧ child.parent = some x := by
      intro x y m hm hy
      obtain ⟨f, s, hstack, hkids, -⟩ := htree.stack hm
      obtain ⟨child, hchild, -, hparent⟩ := hkids y hy
      rcases hstack.cases hm with ⟨-, rfl⟩ | ⟨hloop, -⟩
      · exact ⟨child, hchild, hparent⟩
      · rw [hloops x m hm hloop] at hy
        exact absurd hy List.not_mem_nil
    intro x y
    constructor
    · rintro ⟨m, hm, hy⟩
      exact hchild x y m hm hy
    · rintro ⟨child, hnode, hparent⟩
      have hpos : 0 < y := by
        refine Nat.pos_of_ne_zero ?_
        rintro rfl
        obtain ⟨top, htop, -, -, hnone⟩ := htree.top
        obtain rfl := Option.some.inj (htop.symm.trans hnode)
        rw [hnone] at hparent
        cases hparent
      obtain ⟨i, m, hm, hy⟩ := htree.attached y hpos (List.getElem?_eq_some_iff.mp hnode).1
      obtain ⟨child', hchild', hparent'⟩ := hchild i y m hm hy
      obtain rfl := Option.some.inj (hnode.symm.trans hchild')
      obtain rfl := Option.some.inj (hparent.symm.trans hparent')
      exact ⟨m, hm, hy⟩

/-! ### Calls of the blocks -/

omit htree [DecidableEq B] in
theorem made_sublist (s : List C) (b : B) : (p.made s b).Sublist ((p.resolved b).filter (· ∉ s)) := by
  rw [Program.made]
  split
  case isTrue => exact Lib.takeWhile_sublist_filter _ _
  case isFalse => exact List.nil_sublist _

omit htree [DecidableEq B] in
theorem made_eq_iff : p.made s b = (p.resolved b).filter (· ∉ s) ↔
    ((∃ g ∈ p.resolved b, g ∉ s) → p.isCall b = true) ∧ (p.resolved b).Pairwise fun g g' => g ∈ s → g' ∈ s := by
  have horder : (p.resolved b).takeWhile (· ∉ s) = (p.resolved b).filter (· ∉ s) ↔
      (p.resolved b).Pairwise fun g g' => g ∈ s → g' ∈ s := by
    rw [Lib.takeWhile_eq_filter_iff]
    refine List.Pairwise.iff fun g g' => ?_
    rw [decide_eq_true_iff, decide_eq_true_iff, not_imp_not]
  rw [Program.made]
  by_cases hcall : p.isCall b = true
  · rw [if_pos hcall, horder]
    exact ⟨fun h => ⟨fun _ => hcall, h⟩, fun h => h.2⟩
  · rw [if_neg hcall, eq_comm, List.filter_eq_nil_iff]
    constructor
    · intro hnone
      have hrecursive : ∀ g ∈ p.resolved b, g ∈ s := fun g hg => by simpa using hnone g hg
      refine ⟨?_, List.pairwise_of_forall_mem_list fun g _ g' hg' _ => hrecursive g' hg'⟩
      rintro ⟨g, hg, hnew⟩
      exact absurd (hrecursive g hg) hnew
    · rintro ⟨hmarked, -⟩ g hg hnew
      exact hcall (hmarked ⟨g, hg, by simpa using hnew⟩)

omit htree [DecidableEq B] [DecidableEq C] in
theorem functionKids_eq {children : List ℕ} (hkids : ∀ y ∈ children, ∃ child, nodes[y]? = some child ∧ child.kind ≠ .root) :
    functionKids nodes children = callees nodes children := by
  rw [functionKids, callees]
  refine congrArg _ (List.filter_congr fun child hchild => ?_)
  obtain ⟨y, hy, hnode⟩ := List.mem_filterMap.mp hchild
  obtain ⟨child', hchild', hkind⟩ := hkids y hy
  obtain rfl := Option.some.inj (hnode.symm.trans hchild')
  cases hcases : child.kind with
  | root => exact absurd hcases hkind
  | function => rfl
  | loop => rfl

theorem Tree.calls_iff : Calls p nodes ↔ ∀ (x : ℕ) (m : Node B C) (f : ℕ) (s : List C), nodes[x]? = some m →
    Stack nodes x f s → ∀ b ∈ m.bbs, p.made s b = (p.resolved b).filter (· ∉ s) := by
  have hkids : ∀ (x : ℕ) (m : Node B C) (f : ℕ) (s : List C), nodes[x]? = some m → Stack nodes x f s →
      functionKids nodes m.children = m.bbs.flatMap (p.made s) := by
    intro x m f s hm hstack
    obtain ⟨f', s', hstack', hkids, hcallees⟩ := htree.stack hm
    obtain ⟨-, rfl⟩ := hstack.unique hstack'
    rw [← hcallees]
    refine functionKids_eq fun y hy => ?_
    obtain ⟨child, hchild, hkind, -⟩ := hkids y hy
    exact ⟨child, hchild, hkind⟩
  constructor
  · intro hcalls x m f s hm hstack
    have hsub := hcalls x m hm
    rw [hstack.functions_eq, hkids x m f s hm hstack] at hsub
    exact Lib.eq_of_length_flatMap_le (fun b _ => made_sublist s b) hsub.length_le
  · intro hmade x m hm
    obtain ⟨f, s, hstack, -⟩ := htree.stack hm
    rw [hstack.functions_eq, hkids x m f s hm hstack, List.flatMap_congr fun b hb => hmade x m f s hm hstack b hb]

/-- When all calls are made, a context has its function. -/
theorem Tree.exists_stack (hwell : p.WellFormed) (hcalls : Calls p nodes) (hcontext : Context p main s) :
    ∃ t, Stack nodes t t s := by
  induction hcontext with
  | main =>
    obtain ⟨top, htop, hkind, rfl, hparent⟩ := htree.top
    exact ⟨0, .root htop (by rw [hkind]; exact nofun) hparent⟩
  | @call c g s b _ hb hg hnew ih =>
    obtain ⟨t, hstack⟩ := ih
    obtain ⟨x, m, hm, hstack', -, hmem⟩ := htree.exists_node hwell hstack hb
    have hmade := htree.calls_iff.mp hcalls x m t (c :: s) hm hstack' b hmem
    obtain ⟨f, s', hstack'', hkids, hcallees⟩ := htree.stack hm
    obtain ⟨rfl, rfl⟩ := hstack'.unique hstack''
    have hcallee : g ∈ callees nodes m.children := by
      rw [hcallees]
      exact List.mem_flatMap.mpr ⟨b, hmem, hmade ▸ List.mem_filter.mpr ⟨hg, decide_eq_true hnew⟩⟩
    obtain ⟨child, hchild, rfl⟩ := List.mem_map.mp hcallee
    obtain ⟨hchild, hkind⟩ := List.mem_filter.mp hchild
    obtain ⟨y, hy, hnode⟩ := List.mem_filterMap.mp hchild
    obtain ⟨child', hchild', -, hparent⟩ := hkids y hy
    obtain rfl := Option.some.inj (hnode.symm.trans hchild')
    obtain ⟨f', s', hstack₃, -⟩ := htree.stack hnode
    have hkind' : child.kind ≠ .loop := of_decide_eq_true hkind
    cases hstack₃ with
    | root hnode' _ hnone =>
      obtain rfl := Option.some.inj (hnode.symm.trans hnode')
      rw [hnone] at hparent
      cases hparent
    | function hnode' _ hparent' hlt =>
      obtain rfl := Option.some.inj (hnode.symm.trans hnode')
      obtain rfl := Option.some.inj (hparent.symm.trans hparent')
      exact ⟨y, .function hnode hkind' hparent hlt hstack⟩
    | loop hnode' hloop =>
      obtain rfl := Option.some.inj (hnode.symm.trans hnode')
      exact absurd hloop hkind'

/-! ### Regular blocks -/

/-- The links and the calls of a tree are right exactly when the blocks of all its contexts are regular. -/
theorem Tree.consistent_iff (hwell : p.WellFormed) : Links nodes ∧ Calls p nodes ↔
    ∀ c s, Context p main (c :: s) → ∀ b ∈ p.bbs c, p.Regular (c :: s) b := by
  constructor
  · rintro ⟨hlinks, hcalls⟩ c s hcontext b hb
    obtain ⟨t, hstack⟩ := htree.exists_stack hwell hcalls hcontext
    have hempty := htree.links_iff.mp hlinks
    have hmade := htree.calls_iff.mp hcalls
    obtain ⟨x, m, hm, hstack', hown, hmem⟩ := htree.exists_node hwell hstack hb
    have heq := hmade x m t (c :: s) hm hstack' b hmem
    obtain ⟨hmarked, horder⟩ := made_eq_iff.mp heq
    refine ⟨fun hheader => ?_, fun hinner g hg => ?_, hmarked, horder⟩
    · -- the outer loop would have the inner one as its child
      by_contra hnested
      obtain ⟨h, hh⟩ := Option.ne_none_iff_exists'.mp hnested
      obtain ⟨hhmem, hhheader, -⟩ := hwell.enclosing c b h hb hh
      have hself : p.innermost h = some h := if_pos hhheader
      obtain ⟨y, m', hm', -, hown', -⟩ := htree.exists_node hwell hstack hhmem
      rw [hself] at hown'
      have hkids := hown'.content.2
      rw [hempty y m' hm' (hown'.loop h rfl).1] at hkids
      have hloop : b ∈ p.loopsOf (some h) (p.bbs c) := List.mem_filter.mpr ⟨hb, decide_eq_true ⟨hheader, hh⟩⟩
      rw [← hkids] at hloop
      exact List.not_mem_nil hloop
    · obtain ⟨h, hh⟩ := Option.ne_none_iff_exists'.mp hinner
      obtain ⟨f, s', hstack'', -, hcallees⟩ := htree.stack hm
      obtain ⟨-, rfl⟩ := hstack'.unique hstack''
      rw [hempty x m hm (hown.loop h hh).1] at hcallees
      have hnone : p.made (c :: s) b = [] := List.flatMap_eq_nil_iff.mp hcallees.symm b hmem
      rw [heq, List.filter_eq_nil_iff] at hnone
      by_contra hnew
      exact hnone g hg (decide_eq_true hnew)
  · intro hregular
    constructor
    · refine htree.links_iff.mpr fun x m hm hloop => ?_
      obtain ⟨f, s, hstack, hkids, hcallees⟩ := htree.stack hm
      obtain ⟨c, s', key, rfl, hown, hbbs⟩ := htree.own hstack hm
      have hcontext := htree.context hstack.self
      have hkey : key ≠ none := by
        rintro rfl
        obtain rfl := hown.top rfl
        rcases hstack.cases hm with ⟨hkind, -⟩ | ⟨-, -, hlt⟩
        · exact hkind hloop
        · exact Nat.lt_irrefl x hlt
      refine children_eq_nil nodes (fun y hy => ?_) ?_ ?_
      · obtain ⟨child, hchild, -⟩ := hkids y hy
        exact ⟨child, hchild⟩
      · rw [hcallees, List.flatMap_eq_nil_iff]
        intro b hb
        obtain ⟨hmem, hinner⟩ := (hbbs b).mp hb
        refine List.eq_nil_iff_forall_not_mem.mpr fun g hg => ?_
        obtain ⟨hresolved, hnew⟩ := mem_made hg
        exact hnew ((hregular c s' hcontext b hmem).loop (hinner ▸ hkey) g hresolved)
      · rw [hown.content.2, Program.loopsOf, List.filter_eq_nil_iff]
        intro b hb hcond
        obtain ⟨hheader, henclosing⟩ := of_decide_eq_true hcond
        exact hkey (henclosing.symm.trans ((hregular c s' hcontext b hb).nested hheader))
    · refine htree.calls_iff.mpr fun x m f s hm hstack b hb => ?_
      obtain ⟨c, s', key, rfl, -, hbbs⟩ := htree.own hstack hm
      have hblock := hregular c s' (htree.context hstack.self) b ((hbbs b).mp hb).1
      exact made_eq_iff.mpr ⟨hblock.marked, hblock.order⟩

omit htree

/-- The tree is made, with each block in one node. Its links and its calls are right exactly when the blocks of all the
contexts are regular. -/
theorem context_tree_iff (p : Program B C) (main : C) (hwell : p.WellFormed) (hmain : main ∈ p.cfgs) :
    ∃ nodes, contextTree p main = some nodes ∧ Partition p nodes ∧
      (Links nodes ∧ Calls p nodes ↔ ∀ c s, Context p main (c :: s) → ∀ b ∈ p.bbs c, p.Regular (c :: s) b) := by
  obtain ⟨nodes, hnodes, htree⟩ := exists_tree hwell hmain
  exact ⟨nodes, hnodes, htree.partition hwell, htree.consistent_iff hwell⟩

theorem neZero_three : NeZero 3 := ⟨by decide⟩

theorem neZero_four : NeZero 4 := ⟨by decide⟩

attribute [local instance] neZero_three in
/-- A function with a loop, that calls another one out of the loop. -/
def calling : Program (Fin 3) Bool where
  cfgs := [false, true]
  bbs cfg := if cfg then [2] else [0, 1]
  entry cfg := if cfg then 2 else 0
  loopHeader bb := bb = 1
  enclosing _ := none
  isCall bb := bb = 0
  outs bb := if bb = 0 then [⟨.call, some true⟩] else []

theorem calling_consistent : ∃ nodes, contextTree calling false = some nodes ∧ Partition calling nodes ∧ Links nodes ∧
    Calls calling nodes := by
  have hwell : calling.WellFormed := by
    refine ⟨by decide, by decide, fun _ _ _ _ h => absurd h nofun, by decide⟩
  obtain ⟨nodes, hnodes, hpartition, hiff⟩ := context_tree_iff calling false hwell List.mem_cons_self
  refine ⟨nodes, hnodes, hpartition, hiff.mpr fun c s _ b _ => ?_⟩
  have hloop : ∀ b : Fin 3, calling.innermost b ≠ none → calling.resolved b = [] := by decide
  have hcall : ∀ b : Fin 3, calling.resolved b ≠ [] → calling.isCall b = true := by decide
  have hsingle : ∀ b : Fin 3, (calling.resolved b).length ≤ 1 := by decide
  refine ⟨fun _ => rfl, fun hinner g hg => ?_, fun ⟨g, hg, _⟩ => hcall b (List.ne_nil_of_mem hg), ?_⟩
  · rw [hloop b hinner] at hg
    exact absurd hg List.not_mem_nil
  · have hlength := hsingle b
    match calling.resolved b, hlength with
    | [], _ => exact .nil
    | [g], _ => exact List.pairwise_singleton _ g

attribute [local instance] neZero_four in
/-- Block 0 heads a loop and calls another function, block 1 heads a loop in it, and block 2 calls its own function before
the other one. -/
def recursive : Program (Fin 4) Bool where
  cfgs := [false, true]
  bbs cfg := if cfg then [3] else [0, 1, 2]
  entry cfg := if cfg then 3 else 0
  loopHeader bb := bb = 0 ∨ bb = 1
  enclosing bb := if bb = 1 then some 0 else none
  isCall bb := bb = 0 ∨ bb = 2
  outs bb := if bb = 0 then [⟨.call, some true⟩] else if bb = 2 then [⟨.call, some false⟩, ⟨.call, some true⟩] else []

/-- The inner loop and the called function have the root as their parent, and the call after the recursive one is not
made. -/
theorem recursive_inconsistent : recursive.WellFormed ∧ ∃ nodes, contextTree recursive false = some nodes ∧
    ¬ Links nodes ∧ ¬ Calls recursive nodes := by
  refine ⟨⟨by decide, by decide, by decide, by decide⟩, _, rfl, fun hlinks => ?_, fun hcalls => ?_⟩
  · obtain ⟨node, hnode, hparent⟩ := (hlinks 1 3).mp ⟨_, rfl, by decide⟩
    cases hnode
    exact absurd hparent (by decide)
  · exact absurd (hcalls 0 _ rfl).length_le (by decide)

end Otawa.ContextTree
