import Otawa.Cfg.ContextTree

/-!
# Nodes of a context tree

What is known of the nodes of a context tree while it is built. The nodes that are made for a call do not change after
it (`Sealed`), apart from the kind of the first one; the other ones only get more blocks and more children (`Ext`).
-/

namespace Otawa.ContextTree

variable {B C : Type} {nodes nodes' nodes'' : List (Node B C)} {node node' : Node B C} {i t f g k : ℕ} {s : List C}

/-! ### Functions -/

/-- The node `t` is in the function of the node `f`, and this one is called through the functions `s`. -/
inductive Stack (nodes : List (Node B C)) : ℕ → ℕ → List C → Prop where
  | root {t : ℕ} {node : Node B C} :
      nodes[t]? = some node → node.kind ≠ .loop → node.parent = none → Stack nodes t t [node.cfg]
  | function {t f : ℕ} {node : Node B C} {s : List C} :
      nodes[t]? = some node → node.kind ≠ .loop → node.parent = some f → f < t → Stack nodes f f s →
      Stack nodes t t (node.cfg :: s)
  | loop {t f : ℕ} {node : Node B C} {s : List C} :
      nodes[t]? = some node → node.kind = .loop → node.parent = some f → f < t → Stack nodes f f s → Stack nodes t f s

theorem Stack.exists_node (h : Stack nodes t f s) : ∃ node, nodes[t]? = some node := by
  cases h with
  | root hnode => exact ⟨_, hnode⟩
  | function hnode => exact ⟨_, hnode⟩
  | loop hnode => exact ⟨_, hnode⟩

theorem Stack.lt_length (h : Stack nodes t f s) : t < nodes.length := by
  obtain ⟨node, hnode⟩ := h.exists_node
  exact (List.getElem?_eq_some_iff.mp hnode).1

theorem chain_some (hnode : nodes[t]? = some node) (fuel : ℕ) :
    chain nodes (fuel + 1) (some t) = (t, node) :: chain nodes fuel node.parent := by
  simp only [chain, hnode]

theorem chain_none (nodes : List (Node B C)) (fuel : ℕ) : chain nodes fuel none = [] := by
  cases fuel <;> rfl

theorem Stack.chain (h : Stack nodes t f s) {fuel : ℕ} (hfuel : t < fuel) :
    ((chain nodes fuel (some t)).filter fun cur => cur.2.kind ≠ .loop).map (fun cur => cur.2.cfg) = s ∧
      ((chain nodes fuel (some t)).find? fun cur => cur.2.kind ≠ .loop).map Prod.fst = some f := by
  induction h generalizing fuel with
  | @root t node hnode hkind hparent =>
    obtain ⟨fuel, rfl⟩ := Nat.exists_eq_succ_of_ne_zero (Nat.ne_of_gt (Nat.zero_lt_of_lt hfuel))
    rw [chain_some hnode, hparent, chain_none]
    simp [hkind]
  | @function t f node s hnode hkind hparent hlt _ ih =>
    obtain ⟨fuel, rfl⟩ := Nat.exists_eq_succ_of_ne_zero (Nat.ne_of_gt (Nat.zero_lt_of_lt hfuel))
    obtain ⟨hfunctions, -⟩ := ih (show f < fuel by omega)
    rw [chain_some hnode, hparent]
    simp [hkind, ← hfunctions]
  | @loop t f node s hnode hkind hparent hlt _ ih =>
    obtain ⟨fuel, rfl⟩ := Nat.exists_eq_succ_of_ne_zero (Nat.ne_of_gt (Nat.zero_lt_of_lt hfuel))
    rw [chain_some hnode, hparent]
    have hih := ih (show f < fuel by omega)
    simpa [hkind] using hih

theorem Stack.functions_eq (h : Stack nodes t f s) : functions nodes t = s :=
  (h.chain h.lt_length).1

theorem Stack.enclosingFunction_eq (h : Stack nodes t f s) : enclosingFunction nodes t = some f :=
  (h.chain h.lt_length).2

theorem Stack.unique {f' : ℕ} {s' : List C} (h : Stack nodes t f s) (h' : Stack nodes t f' s') : f = f' ∧ s = s' :=
  ⟨Option.some.inj (h.enclosingFunction_eq.symm.trans h'.enclosingFunction_eq),
    h.functions_eq.symm.trans h'.functions_eq⟩

/-- The function of a node is a function. -/
theorem Stack.self (h : Stack nodes t f s) : Stack nodes f f s := by
  cases h with
  | root hnode hkind hparent => exact .root hnode hkind hparent
  | function hnode hkind hparent hlt hstack => exact .function hnode hkind hparent hlt hstack
  | loop _ _ _ _ hstack => exact hstack

/-! ### Nodes that grow -/

/-- Only the first node for a call changes its kind. -/
def Skeleton (node node' : Node B C) : Prop :=
  node'.bb = node.bb ∧ node'.cfg = node.cfg ∧ node'.parent = node.parent ∧
    (node'.kind = node.kind ∨ node.kind = .root ∧ node'.kind = .function)

theorem Skeleton.refl (node : Node B C) : Skeleton node node :=
  ⟨rfl, rfl, rfl, .inl rfl⟩

theorem Skeleton.trans {node'' : Node B C} (h : Skeleton node node') (h' : Skeleton node' node'') :
    Skeleton node node'' := by
  obtain ⟨hbb, hcfg, hparent, hkind⟩ := h
  obtain ⟨hbb', hcfg', hparent', hkind'⟩ := h'
  refine ⟨hbb'.trans hbb, hcfg'.trans hcfg, hparent'.trans hparent, ?_⟩
  rcases hkind' with hkind' | ⟨hroot, hfunction⟩
  · rw [hkind']
    exact hkind
  · rcases hkind with hkind | ⟨-, hkind⟩
    · exact .inr ⟨hkind ▸ hroot, hfunction⟩
    · rw [hkind] at hroot
      cases hroot

theorem Skeleton.loop_iff (h : Skeleton node node') : node'.kind = .loop ↔ node.kind = .loop := by
  rcases h.2.2.2 with hkind | ⟨hkind, hkind'⟩
  · rw [hkind]
  · rw [hkind, hkind']
    exact iff_of_false nofun nofun

/-- The nodes are still there, with their children. -/
def Ext (nodes nodes' : List (Node B C)) : Prop :=
  ∀ (i : ℕ) (node : Node B C), nodes[i]? = some node →
    ∃ node', nodes'[i]? = some node' ∧ Skeleton node node' ∧ node.children ⊆ node'.children

theorem Ext.trans (h : Ext nodes nodes') (h' : Ext nodes' nodes'') : Ext nodes nodes'' := by
  intro i node hnode
  obtain ⟨node', hnode', hskeleton, hchildren⟩ := h i node hnode
  obtain ⟨node'', hnode'', hskeleton', hchildren'⟩ := h' i node' hnode'
  exact ⟨node'', hnode'', hskeleton.trans hskeleton', List.Subset.trans hchildren hchildren'⟩

theorem Ext.length_le (h : Ext nodes nodes') : nodes.length ≤ nodes'.length := by
  by_contra hlt
  obtain ⟨node', hnode', -⟩ := h nodes'.length _ (List.getElem?_eq_getElem (Nat.lt_of_not_le hlt))
  rw [List.getElem?_eq_none (Nat.le_refl _)] at hnode'
  cases hnode'

theorem Stack.ext (h : Stack nodes t f s) (hext : Ext nodes nodes') : Stack nodes' t f s := by
  induction h with
  | root hnode hkind hparent =>
    obtain ⟨node', hnode', hskeleton, -⟩ := hext _ _ hnode
    rw [← hskeleton.2.1]
    exact .root hnode' (fun hloop => hkind (hskeleton.loop_iff.mp hloop)) (hskeleton.2.2.1.trans hparent)
  | function hnode hkind hparent hlt _ ih =>
    obtain ⟨node', hnode', hskeleton, -⟩ := hext _ _ hnode
    rw [← hskeleton.2.1]
    exact .function hnode' (fun hloop => hkind (hskeleton.loop_iff.mp hloop)) (hskeleton.2.2.1.trans hparent) hlt ih
  | loop hnode hkind hparent hlt _ ih =>
    obtain ⟨node', hnode', hskeleton, -⟩ := hext _ _ hnode
    exact .loop hnode' (hskeleton.loop_iff.mpr hkind) (hskeleton.2.2.1.trans hparent) hlt ih

/-- The node is a child. -/
def Attached (nodes : List (Node B C)) (y : ℕ) : Prop :=
  ∃ (i : ℕ) (node : Node B C), nodes[i]? = some node ∧ y ∈ node.children

theorem Attached.ext {y : ℕ} (h : Attached nodes y) (hext : Ext nodes nodes') : Attached nodes' y := by
  obtain ⟨i, node, hnode, hy⟩ := h
  obtain ⟨node', hnode', -, hchildren⟩ := hext i node hnode
  exact ⟨i, node', hnode', hchildren hy⟩

/-! ### Children -/

/-- The CFGs of the children for calls. -/
def callees (nodes : List (Node B C)) (children : List ℕ) : List C :=
  ((children.filterMap fun y => nodes[y]?).filter fun node => node.kind ≠ .loop).map Node.cfg

/-- The headers of the children for loops. -/
def loopKids (nodes : List (Node B C)) (children : List ℕ) : List B :=
  ((children.filterMap fun y => nodes[y]?).filter fun node => node.kind = .loop).map Node.bb

theorem callees_append (children children' : List ℕ) :
    callees nodes (children ++ children') = callees nodes children ++ callees nodes children' := by
  rw [callees, List.filterMap_append, List.filter_append, List.map_append, callees, callees]

theorem loopKids_append (children children' : List ℕ) :
    loopKids nodes (children ++ children') = loopKids nodes children ++ loopKids nodes children' := by
  rw [loopKids, List.filterMap_append, List.filter_append, List.map_append, loopKids, loopKids]

theorem kids_ext {children : List ℕ} (hext : Ext nodes nodes') (h : ∀ y ∈ children, ∃ node, nodes[y]? = some node) :
    callees nodes' children = callees nodes children ∧ loopKids nodes' children = loopKids nodes children := by
  induction children with
  | nil => exact ⟨rfl, rfl⟩
  | cons y children ih =>
    obtain ⟨node, hnode⟩ := h y List.mem_cons_self
    obtain ⟨node', hnode', hskeleton, -⟩ := hext y node hnode
    obtain ⟨hcallees, hloops⟩ := ih fun z hz => h z (List.mem_cons_of_mem _ hz)
    have hsingle : callees nodes' [y] = callees nodes [y] ∧ loopKids nodes' [y] = loopKids nodes [y] := by
      have hloop := hskeleton.loop_iff
      by_cases hkind : node.kind = .loop
      · simp [callees, loopKids, hnode, hnode', hkind, hloop.mpr hkind, hskeleton.1]
      · simp [callees, loopKids, hnode, hnode', hkind, mt hloop.mp hkind, hskeleton.2.1]
    have hcons (nodes : List (Node B C)) : callees nodes (y :: children) = callees nodes [y] ++ callees nodes children ∧
        loopKids nodes (y :: children) = loopKids nodes [y] ++ loopKids nodes children :=
      ⟨callees_append [y] children, loopKids_append [y] children⟩
    rw [(hcons nodes').1, (hcons nodes').2, (hcons nodes).1, (hcons nodes).2, hsingle.1, hsingle.2, hcallees, hloops]
    exact ⟨rfl, rfl⟩

/-- The node is the one of a loop of the function. -/
structure LoopOf (f : ℕ) (c : C) (h : B) (node : Node B C) : Prop where
  kind : node.kind = .loop
  bb : node.bb = h
  cfg : node.cfg = c
  parent : node.parent = some f

theorem LoopOf.skeleton {c : C} {h : B} (hloop : LoopOf f c h node) (hskeleton : Skeleton node node') :
    LoopOf f c h node' :=
  ⟨hskeleton.loop_iff.mpr hloop.kind, hskeleton.1.trans hloop.bb, hskeleton.2.1.trans hloop.cfg,
    hskeleton.2.2.1.trans hloop.parent⟩

/-- The nodes from `k` on do not change, apart from their kinds. -/
def Agree (k : ℕ) (nodes nodes' : List (Node B C)) : Prop :=
  ∀ (i : ℕ) (node : Node B C), k ≤ i → nodes[i]? = some node →
    ∃ node', nodes'[i]? = some node' ∧ Skeleton node node' ∧ node'.bbs = node.bbs ∧ node'.children = node.children

theorem Agree.back (h : Agree k nodes nodes') (hk : k ≤ i) (hi : i < nodes.length) (hnode : nodes'[i]? = some node') :
    ∃ node, nodes[i]? = some node ∧ Skeleton node node' ∧ node'.bbs = node.bbs ∧ node'.children = node.children := by
  obtain ⟨other, hother, hsame⟩ := h i _ hk (List.getElem?_eq_getElem hi)
  obtain rfl := Option.some.inj (hother.symm.trans hnode)
  exact ⟨_, List.getElem?_eq_getElem hi, hsame⟩

section Blocks

variable [DecidableEq B] [DecidableEq C] {p : Program B C}

/-- The calls of the block that are made from a node of the functions `s`. -/
def Program.made (p : Program B C) (s : List C) (b : B) : List C :=
  if p.isCall b then (p.resolved b).takeWhile (· ∉ s) else []

/-- The blocks of the loop `key`, or of the root, once the blocks `pre` are added. -/
def Program.blocksOf (p : Program B C) (key : Option B) (pre : List B) : List B :=
  key.toList ++ pre.filter fun b => p.loopHeader b = false ∧ p.enclosing b = key

/-- The loops in the loop `key`, or in the root, once the blocks `pre` are added. -/
def Program.loopsOf (p : Program B C) (key : Option B) (pre : List B) : List B :=
  pre.filter fun b => p.loopHeader b = true ∧ p.enclosing b = key

/-! ### Invariants -/

/-- The children are those for the blocks, and have the function as their parent. -/
def InvAt (p : Program B C) (nodes : List (Node B C)) (i : ℕ) (node : Node B C) : Prop :=
  ∃ f s, Stack nodes i f s ∧
    (∀ y ∈ node.children, ∃ child, nodes[y]? = some child ∧ child.kind ≠ .root ∧ child.parent = some f) ∧
    callees nodes node.children = node.bbs.flatMap (p.made s)

/-- The node has the blocks `pre` of its loop, or of the root. -/
def Content (p : Program B C) (nodes : List (Node B C)) (node : Node B C) (key : Option B) (pre : List B) : Prop :=
  node.bbs = p.blocksOf key pre ∧ loopKids nodes node.children = p.loopsOf key pre

/-- The tree of the function is complete. -/
structure Done (p : Program B C) (nodes : List (Node B C)) (f : ℕ) (node : Node B C) : Prop where
  top : Content p nodes node none (p.bbs node.cfg)
  loop : ∀ h ∈ p.bbs node.cfg, p.loopHeader h = true →
    ∃ (x : ℕ) (m : Node B C), f < x ∧ nodes[x]? = some m ∧ LoopOf f node.cfg h m ∧
      Content p nodes m (some h) (p.bbs node.cfg)
  header : ∀ (x : ℕ) (m : Node B C), f < x → nodes[x]? = some m → m.kind = .loop → m.parent = some f →
    m.bb ∈ p.bbs node.cfg ∧ p.loopHeader m.bb = true
  unique : ∀ (x y : ℕ) (m m' : Node B C), f < x → f < y → nodes[x]? = some m → nodes[y]? = some m' →
    m.kind = .loop → m'.kind = .loop → m.parent = some f → m'.parent = some f → m.bb = m'.bb → x = y

/-- The nodes from `k` on are complete. -/
structure Sealed (p : Program B C) (k : ℕ) (nodes : List (Node B C)) : Prop where
  inv : ∀ (i : ℕ) (node : Node B C), k ≤ i → nodes[i]? = some node → InvAt p nodes i node
  done : ∀ (i : ℕ) (node : Node B C), k ≤ i → nodes[i]? = some node → node.kind ≠ .loop → Done p nodes i node
  loops : ∀ (i q : ℕ) (node : Node B C), k ≤ i → nodes[i]? = some node → node.kind = .loop → node.parent = some q → k ≤ q

omit [DecidableEq B] in
theorem InvAt.exists_kid (h : InvAt p nodes i node) : ∀ y ∈ node.children, ∃ child, nodes[y]? = some child := by
  obtain ⟨f, s, -, hkids, -⟩ := h
  intro y hy
  obtain ⟨child, hchild, -⟩ := hkids y hy
  exact ⟨child, hchild⟩

omit [DecidableEq B] in
theorem InvAt.ext (h : InvAt p nodes i node) (hext : Ext nodes nodes') (hbbs : node'.bbs = node.bbs)
    (hchildren : node'.children = node.children) : InvAt p nodes' i node' := by
  have hexist := h.exists_kid
  obtain ⟨f, s, hstack, hkids, hcallees⟩ := h
  refine ⟨f, s, hstack.ext hext, fun y hy => ?_, ?_⟩
  · obtain ⟨child, hchild, hkind, hparent⟩ := hkids y (hchildren ▸ hy)
    obtain ⟨child', hchild', hskeleton, -⟩ := hext y child hchild
    refine ⟨child', hchild', ?_, hskeleton.2.2.1.trans hparent⟩
    rcases hskeleton.2.2.2 with heq | ⟨hroot, -⟩
    · rwa [heq]
    · exact absurd hroot hkind
  · rw [hchildren, hbbs, (kids_ext hext hexist).1, hcallees]

theorem Content.ext {key : Option B} {pre : List B} (h : Content p nodes node key pre) (hinv : InvAt p nodes i node)
    (hext : Ext nodes nodes') (hbbs : node'.bbs = node.bbs) (hchildren : node'.children = node.children) :
    Content p nodes' node' key pre :=
  ⟨hbbs.trans h.1, by rw [hchildren, (kids_ext hext hinv.exists_kid).2, h.2]⟩

/-- A function stays complete when no loops of it are made. -/
theorem Done.ext (h : Done p nodes f node) (hnode : nodes[f]? = some node)
    (hinv : ∀ x m, f ≤ x → nodes[x]? = some m → InvAt p nodes x m)
    (hagree : ∀ x m, f < x → nodes[x]? = some m → m.kind = .loop → m.parent = some f →
      ∃ m', nodes'[x]? = some m' ∧ Skeleton m m' ∧ m'.bbs = m.bbs ∧ m'.children = m.children)
    (hext : Ext nodes nodes') (hnew : ∀ x m, nodes.length ≤ x → nodes'[x]? = some m → m.kind = .loop → m.parent ≠ some f)
    (hskeleton : Skeleton node node') (hbbs : node'.bbs = node.bbs) (hchildren : node'.children = node.children) :
    Done p nodes' f node' := by
  have hback : ∀ (x : ℕ) (m : Node B C), nodes'[x]? = some m → m.kind = .loop → m.parent = some f →
      ∃ m', nodes[x]? = some m' ∧ m'.kind = .loop ∧ m'.parent = some f ∧ m'.bb = m.bb := by
    intro x m hm hkind hparent
    rcases Nat.lt_or_ge x nodes.length with hlt | hge
    · obtain ⟨m', hm', hskeleton, -⟩ := hext x _ (List.getElem?_eq_getElem hlt)
      obtain rfl := Option.some.inj (hm'.symm.trans hm)
      exact ⟨_, List.getElem?_eq_getElem hlt, hskeleton.loop_iff.mp hkind, hskeleton.2.2.1.symm.trans hparent,
        hskeleton.1.symm⟩
    · exact absurd hparent (hnew x m hge hm hkind)
  have hcfg := hskeleton.2.1
  constructor
  · rw [hcfg]
    exact h.top.ext (hinv f node (Nat.le_refl f) hnode) hext hbbs hchildren
  · rw [hcfg]
    intro b hb hheader
    obtain ⟨x, m, hx, hm, hloop, hcontent⟩ := h.loop b hb hheader
    obtain ⟨m', hm', hskeleton', hbbs', hchildren'⟩ := hagree x m hx hm hloop.kind hloop.parent
    exact ⟨x, m', hx, hm', hloop.skeleton hskeleton', hcontent.ext (hinv x m hx.le hm) hext hbbs' hchildren'⟩
  · rw [hcfg]
    intro x m hx hm hkind hparent
    obtain ⟨m', hm', hkind', hparent', hbb⟩ := hback x m hm hkind hparent
    rw [← hbb]
    exact h.header x m' hx hm' hkind' hparent'
  · intro x y m m' hx hy hm hm' hkind hkind' hparent hparent' heq
    obtain ⟨n, hn, hnkind, hnparent, hnbb⟩ := hback x m hm hkind hparent
    obtain ⟨n', hn', hnkind', hnparent', hnbb'⟩ := hback y m' hm' hkind' hparent'
    exact h.unique x y n n' hx hy hn hn' hnkind hnkind' hnparent hnparent' ((hnbb.trans heq).trans hnbb'.symm)

/-- The nodes that are complete stay so when others are made. -/
theorem Sealed.trans (h : Sealed p k nodes) (hk : k ≤ nodes.length) (hagree : Agree k nodes nodes')
    (hext : Ext nodes nodes') (h' : Sealed p nodes.length nodes') : Sealed p k nodes' := by
  constructor
  · intro i node' hi hnode'
    rcases Nat.lt_or_ge i nodes.length with hlt | hge
    · obtain ⟨node, hnode, -, hbbs, hchildren⟩ := hagree.back hi hlt hnode'
      exact (h.inv i node hi hnode).ext hext hbbs hchildren
    · exact h'.inv i node' hge hnode'
  · intro i node' hi hnode' hkind
    rcases Nat.lt_or_ge i nodes.length with hlt | hge
    · obtain ⟨node, hnode, hskeleton, hbbs, hchildren⟩ := hagree.back hi hlt hnode'
      have hdone := h.done i node hi hnode fun hloop => hkind (hskeleton.loop_iff.mpr hloop)
      refine hdone.ext hnode (fun x m hx => h.inv x m (hi.trans hx)) (fun x m hx hm _ _ => hagree x m (hi.trans hx.le) hm)
        hext (fun x m hx hm hloop hparent => ?_) hskeleton hbbs hchildren
      exact absurd (h'.loops x i m hx hm hloop hparent) (Nat.not_le_of_lt hlt)
    · exact h'.done i node' hge hnode' hkind
  · intro i q node' hi hnode' hkind hparent
    rcases Nat.lt_or_ge i nodes.length with hlt | hge
    · obtain ⟨node, hnode, hskeleton, -⟩ := hagree.back hi hlt hnode'
      exact h.loops i q node hi hnode (hskeleton.loop_iff.mp hkind) (hskeleton.2.2.1.symm.trans hparent)
    · exact hk.trans (h'.loops i q node' hge hnode' hkind hparent)

end Blocks

end Otawa.ContextTree
