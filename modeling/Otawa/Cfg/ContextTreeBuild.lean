import Otawa.Cfg.ContextTreeCalls

/-!
# Building of a context tree

The two loops of the constructor, with what is known of the nodes between the blocks (`Part`), and what the constructor
makes (`build_spec`). Its recursion ends since a function is not called in itself.
-/

namespace Otawa.ContextTree

variable {B C : Type} [DecidableEq B] [DecidableEq C] {p : Program B C} {st₀ st st' : State B C}
  {node node' m : Node B C} {nodes₀ nodes nodes' : List (Node B C)} {k t x i : ℕ} {c : C} {parent : Option ℕ}
  {s : List C} {heads pre : List B} {b h : B} {kids : List ℕ} {key : Option B} {blocks inner : Option B → List B}

/-- The CFGs share no blocks, and the annotations of the loops of a CFG are headers of it, for a loop the one of another
loop. -/
structure Program.WellFormed (p : Program B C) : Prop where
  nodup : ∀ c, (p.bbs c).Nodup
  disjoint : ∀ c c' b, b ∈ p.bbs c → b ∈ p.bbs c' → c = c'
  enclosing : ∀ c b h, b ∈ p.bbs c → p.enclosing b = some h → h ∈ p.bbs c ∧ p.loopHeader h = true ∧ h ≠ b
  called : ∀ c b g, c ∈ p.cfgs → b ∈ p.bbs c → g ∈ p.resolved b → g ∈ p.cfgs

/-- The parent of a function called through the functions `s`. -/
def Callers (nodes : List (Node B C)) (parent : Option ℕ) (s : List C) : Prop :=
  (parent = none ∧ s = []) ∨ ∃ q, parent = some q ∧ Stack nodes q q s

/-! ### Nodes of a function -/

/-- One of the nodes changes, with its place in the tree kept, and others are made. -/
structure Grows (t : ℕ) (node node' : Node B C) (nodes nodes' : List (Node B C)) : Prop where
  grow : nodes.length ≤ nodes'.length
  frame : ∀ i < nodes.length, i ≠ t → nodes'[i]? = nodes[i]?
  old : nodes[t]? = some node
  new : nodes'[t]? = some node'
  kind : node'.kind = node.kind
  bb : node'.bb = node.bb
  cfg : node'.cfg = node.cfg
  parent : node'.parent = node.parent
  children : node.children ⊆ node'.children

section

omit [DecidableEq B] [DecidableEq C]

theorem Grows.ext (h : Grows t node node' nodes nodes') : Ext nodes nodes' := by
  intro i other hother
  by_cases hi : i = t
  · subst hi
    obtain rfl := Option.some.inj (hother.symm.trans h.old)
    exact ⟨node', h.new, ⟨h.bb, h.cfg, h.parent, .inl h.kind⟩, h.children⟩
  · rw [h.frame i (List.getElem?_eq_some_iff.mp hother).1 hi]
    exact ⟨other, hother, .refl other, List.Subset.refl _⟩

end

/-- The nodes from `nodes₀` on, while the function for its first one is built. -/
structure Body (p : Program B C) (c : C) (parent : Option ℕ) (nodes₀ nodes : List (Node B C)) : Prop where
  frame : ∀ i < nodes₀.length, nodes[i]? = nodes₀[i]?
  top : ∃ node, nodes[nodes₀.length]? = some node ∧ node.kind = .root ∧ node.cfg = c ∧ node.parent = parent
  inv : ∀ i node, nodes₀.length ≤ i → nodes[i]? = some node → InvAt p nodes i node
  done : ∀ i node, nodes₀.length < i → nodes[i]? = some node → node.kind ≠ .loop → Done p nodes i node
  loops : ∀ i q node, nodes₀.length ≤ i → nodes[i]? = some node → node.kind = .loop → node.parent = some q →
    nodes₀.length ≤ q

theorem Body.ext (hbody : Body p c parent nodes₀ nodes) : Ext nodes₀ nodes := by
  intro i other hother
  rw [hbody.frame i (List.getElem?_eq_some_iff.mp hother).1]
  exact ⟨other, hother, .refl other, List.Subset.refl _⟩

/-- The function is called through the functions of its parent. -/
theorem Body.stack (hbody : Body p c parent nodes₀ nodes) (hcallers : Callers nodes₀ parent s) :
    Stack nodes nodes₀.length nodes₀.length (c :: s) := by
  obtain ⟨node, hnode, hkind, rfl, hparent⟩ := hbody.top
  have hkind' : node.kind ≠ .loop := by rw [hkind]; exact nofun
  rcases hcallers with ⟨rfl, rfl⟩ | ⟨q, rfl, hstack⟩
  · exact .root hnode hkind' hparent
  · exact .function hnode hkind' hparent hstack.lt_length (hstack.ext hbody.ext)

/-- A node of the function changes. -/
theorem Body.grows (hbody : Body p c parent nodes₀ nodes) (hgrows : Grows t node node' nodes nodes')
    (ht : nodes₀.length ≤ t) (hof : t = nodes₀.length ∨ node.kind = .loop ∧ node.parent = some nodes₀.length)
    (hself : InvAt p nodes' t node') (hinv : ∀ i m, nodes.length ≤ i → nodes'[i]? = some m → InvAt p nodes' i m)
    (hdone : ∀ i m, nodes.length ≤ i → nodes'[i]? = some m → m.kind ≠ .loop → Done p nodes' i m)
    (hloops : ∀ i q m, nodes.length ≤ i → nodes'[i]? = some m → m.kind = .loop → m.parent = some q →
      q = nodes₀.length ∨ nodes.length ≤ q) : Body p c parent nodes₀ nodes' := by
  have hext := hgrows.ext
  have htop := hbody.top
  have hlt : nodes₀.length < nodes.length := by
    obtain ⟨top, hnode, -⟩ := htop
    exact (List.getElem?_eq_some_iff.mp hnode).1
  constructor
  · intro i hi
    rw [hgrows.frame i (hi.trans hlt) (Nat.ne_of_lt (Nat.lt_of_lt_of_le hi ht)), hbody.frame i hi]
  · obtain ⟨top, htop, hkind, hcfg, hparent⟩ := htop
    by_cases heq : nodes₀.length = t
    · rw [heq] at htop ⊢
      obtain rfl := Option.some.inj (htop.symm.trans hgrows.old)
      exact ⟨node', hgrows.new, hgrows.kind.trans hkind, hgrows.cfg.trans hcfg, hgrows.parent.trans hparent⟩
    · exact ⟨top, (hgrows.frame _ hlt heq).trans htop, hkind, hcfg, hparent⟩
  · intro i other hi hother
    rcases Nat.lt_or_ge i nodes.length with hlt | hge
    · by_cases heq : i = t
      · subst heq
        obtain rfl := Option.some.inj (hother.symm.trans hgrows.new)
        exact hself
      · rw [hgrows.frame i hlt heq] at hother
        exact (hbody.inv i other hi hother).ext hext rfl rfl
    · exact hinv i other hge hother
  · intro i other hi hother hkind
    rcases Nat.lt_or_ge i nodes.length with hlt | hge
    · have heq : i ≠ t := by
        rintro rfl
        obtain rfl := Option.some.inj (hother.symm.trans hgrows.new)
        rcases hof with heq | ⟨hloop, -⟩
        · exact absurd heq (Nat.ne_of_gt hi)
        · exact hkind (hgrows.kind.trans hloop)
      rw [hgrows.frame i hlt heq] at hother
      refine (hbody.done i other hi hother hkind).ext hother (fun x m hx => hbody.inv x m (hi.le.trans hx)) ?_ hext ?_
        (.refl other) rfl rfl
      · intro x m hx hm hloop hparent
        -- the node that changes is not in another function
        have hne : x ≠ t := by
          rintro rfl
          obtain rfl := Option.some.inj (hm.symm.trans hgrows.old)
          rcases hof with heq | ⟨-, hparent'⟩
          · omega
          · exact absurd (Option.some.inj (hparent.symm.trans hparent')) (Nat.ne_of_gt hi)
        exact ⟨m, (hgrows.frame x (List.getElem?_eq_some_iff.mp hm).1 hne).trans hm, .refl m, rfl, rfl⟩
      · intro x m hx hm hloop hparent
        rcases hloops x i m hx hm hloop hparent with heq | hge
        · exact absurd heq (Nat.ne_of_gt hi)
        · exact absurd hlt (Nat.not_lt_of_le hge)
    · exact hdone i other hge hother hkind
  · intro i q other hi hother hkind hparent
    rcases Nat.lt_or_ge i nodes.length with hlt' | hge
    · obtain ⟨other', hother', hskeleton, -⟩ := hext i _ (List.getElem?_eq_getElem hlt')
      obtain rfl := Option.some.inj (hother'.symm.trans hother)
      exact hbody.loops i q _ hi (List.getElem?_eq_getElem hlt') (hskeleton.loop_iff.mp hkind)
        (hskeleton.2.2.1.symm.trans hparent)
    · rcases hloops i q other hge hother hkind hparent with rfl | hge
      · exact Nat.le_refl _
      · exact hlt.le.trans hge

/-- The node for the blocks of a loop, or of no loop. -/
inductive Place (k : ℕ) (c : C) (st : State B C) : Option B → ℕ → Node B C → Prop where
  | top {node : Node B C} : st.nodes[k]? = some node → node.kind = .root → Place k c st none k node
  | loop {h : B} {x : ℕ} {m : Node B C} :
      st.owner h = some x → k < x → st.nodes[x]? = some m → LoopOf k c h m → Place k c st (some h) x m

section Place

omit [DecidableEq B] [DecidableEq C]

variable {key' : Option B}

theorem Place.node_eq (h : Place k c st key t node) : st.nodes[t]? = some node := by
  cases h with
  | top hnode _ => exact hnode
  | loop _ _ hnode _ => exact hnode

theorem Place.le (h : Place k c st key t node) : k ≤ t := by
  cases h with
  | top => exact Nat.le_refl k
  | loop _ hlt => exact hlt.le

theorem Place.of (h : Place k c st key t node) : t = k ∨ node.kind = .loop ∧ node.parent = some k := by
  cases h with
  | top => exact .inl rfl
  | loop _ _ _ hloop => exact .inr ⟨hloop.kind, hloop.parent⟩

/-- There is one node for a loop. -/
theorem Place.eq (h : Place k c st key t node) (h' : Place k c st key x m) : t = x ∧ node = m := by
  have htx : t = x := by
    cases h with
    | top => cases h' with | top => rfl
    | loop howner => cases h' with | loop howner' => exact Option.some.inj (howner.symm.trans howner')
  refine ⟨htx, Option.some.inj ?_⟩
  rw [← h.node_eq, htx, h'.node_eq]

/-- A node is for one loop. -/
theorem Place.key_eq (h : Place k c st key t node) (h' : Place k c st key' t m) : key = key' := by
  obtain rfl := Option.some.inj (h.node_eq.symm.trans h'.node_eq)
  cases h with
  | top hnode hkind =>
    cases h' with
    | top => rfl
    | loop _ hlt => exact absurd hlt (Nat.lt_irrefl k)
  | loop _ hlt _ hloop =>
    cases h' with
    | top => exact absurd hlt (Nat.lt_irrefl k)
    | loop _ _ _ hloop' => rw [← hloop.bb, ← hloop'.bb]

theorem Place.grows (st' : State B C) (h : Place k c st key x m) (hgrows : Grows t node node' st.nodes st'.nodes)
    (howner : ∀ b, key = some b → st'.owner b = st.owner b) :
    ∃ m', Place k c st' key x m' ∧ (x ≠ t → m' = m) ∧ (x = t → m' = node') := by
  have hnode : ∃ m', st'.nodes[x]? = some m' ∧ (x ≠ t → m' = m) ∧ (x = t → m' = node') := by
    by_cases heq : x = t
    · exact ⟨node', heq ▸ hgrows.new, fun hne => absurd heq hne, fun _ => rfl⟩
    · refine ⟨m, ?_, fun _ => rfl, fun h => absurd h heq⟩
      rw [hgrows.frame x (List.getElem?_eq_some_iff.mp h.node_eq).1 heq, h.node_eq]
  obtain ⟨m', hm', hother, hself⟩ := hnode
  refine ⟨m', ?_, hother, hself⟩
  cases h with
  | top hold hkind =>
    refine .top hm' ?_
    by_cases heq : k = t
    · subst heq
      rw [hself rfl, hgrows.kind, ← Option.some.inj (hold.symm.trans hgrows.old), hkind]
    · rw [hother heq, hkind]
  | loop hown hlt hold hloop =>
    refine .loop ((howner _ rfl).trans hown) hlt hm' ?_
    obtain ⟨m'', hm'', hskeleton, -⟩ := hgrows.ext x m hold
    rw [Option.some.inj (hm'.symm.trans hm'')]
    exact hloop.skeleton hskeleton

end Place

/-- The state while the function for the end of `st₀` is built. The loops of the headers `heads` are made; `blocks` and
`inner` are the blocks and the loops in each of them. -/
structure Part (p : Program B C) (c : C) (parent : Option ℕ) (s : List C) (st₀ : State B C) (heads : List B)
    (blocks inner : Option B → List B) (st : State B C) : Prop where
  body : Body p c parent st₀.nodes st.nodes
  place : ∀ key, (∀ h, key = some h → h ∈ heads) → ∃ t node, Place st₀.nodes.length c st key t node ∧
    node.bbs = blocks key ∧ loopKids st.nodes node.children = inner key
  unique : ∀ x m, st₀.nodes.length < x → st.nodes[x]? = some m → m.kind = .loop → m.parent = some st₀.nodes.length →
    m.bb ∈ heads ∧ st.owner m.bb = some x
  attached : ∀ y m, st₀.nodes.length < y → st.nodes[y]? = some m →
    Attached st.nodes y ∨ m.kind = .loop ∧ m.parent = some st₀.nodes.length ∧ ∀ key, m.bb ∉ inner key
  owner : ∀ c' ∈ s, ∀ b ∈ p.bbs c', st.owner b = st₀.owner b

theorem Place.stack (hplace : Place st₀.nodes.length c st key t node)
    (hbody : Body p c parent st₀.nodes st.nodes) (hcallers : Callers st₀.nodes parent s) :
    Stack st.nodes t st₀.nodes.length (c :: s) := by
  cases hplace with
  | top => exact hbody.stack hcallers
  | loop _ hlt hnode hloop => exact .loop hnode hloop.kind hloop.parent hlt (hbody.stack hcallers)

/-! ### Steps -/

theorem Added.grows (hadded : Added p t i s node st b kids st') (hnode : st.nodes[t]? = some node) :
    Grows t node { node with bbs := node.bbs ++ [b], children := node.children ++ kids } st.nodes st'.nodes :=
  ⟨hadded.grow, hadded.frame, hnode, hadded.node, rfl, rfl, rfl, rfl, List.subset_append_left _ _⟩

/-- A block is added to a node of the function. -/
theorem Part.added (hpart : Part p c parent s st₀ heads blocks inner st) (hcallers : Callers st₀.nodes parent s)
    (hplace : Place st₀.nodes.length c st key t node)
    (hadded : Added p t st₀.nodes.length (c :: s) node st b kids st') (hheads : ∀ h ∈ heads, h ∈ p.bbs c) :
    Part p c parent s st₀ heads (Function.update blocks key (blocks key ++ [b])) inner st' := by
  have hnode := hplace.node_eq
  have hgrows := hadded.grows hnode
  have hstack := hplace.stack hpart.body hcallers
  have hlt := hstack.lt_length
  have hself := hpart.body.inv t node hplace.le hnode
  constructor
  · refine hpart.body.grows hgrows hplace.le hplace.of (hadded.inv_self hstack hnode hself) hadded.closed.inv
      hadded.closed.done fun i q m hi hm hkind hparent => .inr (hadded.closed.loops i q m hi hm hkind hparent)
  · intro key' hkey'
    obtain ⟨x, m, hplace', hbbs, hinner⟩ := hpart.place key' hkey'
    obtain ⟨m', hm', hother, hsame⟩ := hplace'.grows st' hgrows fun b hb =>
      hadded.owner c List.mem_cons_self b (hheads b (hkey' b hb))
    refine ⟨x, m', hm', ?_⟩
    by_cases heq : key' = key
    · subst heq
      obtain ⟨rfl, rfl⟩ := hplace'.eq hplace
      rw [hsame rfl, Function.update_self, hbbs]
      exact ⟨rfl, (hadded.loopKids_eq hnode hself).trans hinner⟩
    · have hne : x ≠ t := by
        rintro rfl
        exact heq (hplace'.key_eq hplace)
      rw [hother hne, Function.update_of_ne heq,
        (kids_ext hgrows.ext (hpart.body.inv x m hplace'.le hplace'.node_eq).exists_kid).2]
      exact ⟨hbbs, hinner⟩
  · intro x m hx hm hkind hparent
    rcases Nat.lt_or_ge x st.nodes.length with hlt' | hge
    · obtain ⟨m', hm', hskeleton, -⟩ := hgrows.ext x _ (List.getElem?_eq_getElem hlt')
      obtain rfl := Option.some.inj (hm'.symm.trans hm)
      obtain ⟨hmem, howner⟩ := hpart.unique x _ hx (List.getElem?_eq_getElem hlt') (hskeleton.loop_iff.mp hkind)
        (hskeleton.2.2.1.symm.trans hparent)
      rw [hskeleton.1]
      exact ⟨hmem, (hadded.owner c List.mem_cons_self _ (hheads _ hmem)).trans howner⟩
    · have := hadded.closed.loops x _ m hge hm hkind hparent
      have hle := hplace.le
      omega
  · intro y m hy hm
    rcases Nat.lt_or_ge y st.nodes.length with hlt' | hge
    · obtain ⟨m', hm', hskeleton, -⟩ := hgrows.ext y _ (List.getElem?_eq_getElem hlt')
      obtain rfl := Option.some.inj (hm'.symm.trans hm)
      rcases hpart.attached y _ hy (List.getElem?_eq_getElem hlt') with hattached | ⟨hkind, hparent, hinner⟩
      · exact .inl (hattached.ext hgrows.ext)
      · exact .inr ⟨hskeleton.loop_iff.mpr hkind, hskeleton.2.2.1.trans hparent, hskeleton.1 ▸ hinner⟩
    · exact .inl (hadded.attached y hge (List.getElem?_eq_some_iff.mp hm).1)
  · intro c' hc' b' hb'
    exact (hadded.owner c' (List.mem_cons_of_mem c hc') b' hb').trans (hpart.owner c' hc' b' hb')

/-- The loop of a header is made. -/
theorem Part.alloc (hpart : Part p c parent s st₀ heads blocks inner st) (hcallers : Callers st₀.nodes parent s)
    (hwell : p.WellFormed) (hc : c ∉ s) (hb : b ∈ p.bbs c) (hheads : b ∉ heads) (hinner : ∀ key, b ∉ inner key)
    (hempty : inner (some b) = []) :
    Part p c parent s st₀ (heads ++ [b]) (Function.update blocks (some b) []) inner
      (setOwner b st.nodes.length
        { st with nodes := st.nodes ++ [⟨.loop, b, c, [], [], some st₀.nodes.length⟩] }) := by
  obtain ⟨top, htop, -⟩ := hpart.body.top
  have hlt : st₀.nodes.length < st.nodes.length := (List.getElem?_eq_some_iff.mp htop).1
  have hgrows : Grows st₀.nodes.length top top st.nodes
      (st.nodes ++ [⟨.loop, b, c, [], [], some st₀.nodes.length⟩]) := by
    refine ⟨by simp, fun i hi _ => List.getElem?_append_left hi, htop, ?_, rfl, rfl, rfl, rfl, List.Subset.refl _⟩
    rw [List.getElem?_append_left hlt, htop]
  have hnew : ∀ i m, st.nodes.length ≤ i →
      (st.nodes ++ [(⟨.loop, b, c, [], [], some st₀.nodes.length⟩ : Node B C)])[i]? = some m →
      i = st.nodes.length ∧ m = ⟨.loop, b, c, [], [], some st₀.nodes.length⟩ := by
    intro i m hi hm
    obtain ⟨hlength, -⟩ := List.getElem?_eq_some_iff.mp hm
    rw [List.length_append, List.length_singleton] at hlength
    obtain rfl : i = st.nodes.length := by omega
    rw [List.getElem?_concat_length] at hm
    exact ⟨rfl, (Option.some.inj hm).symm⟩
  have hstack := (hpart.body.stack hcallers).ext hgrows.ext
  have hloop : Stack (st.nodes ++ [(⟨.loop, b, c, [], [], some st₀.nodes.length⟩ : Node B C)]) st.nodes.length
      st₀.nodes.length (c :: s) := .loop List.getElem?_concat_length rfl rfl hlt hstack
  constructor
  · refine hpart.body.grows hgrows (Nat.le_refl _) (.inl rfl)
      ((hpart.body.inv _ top (Nat.le_refl _) htop).ext hgrows.ext rfl rfl) ?_ ?_ ?_
    · intro i m hi hm
      obtain ⟨rfl, rfl⟩ := hnew i m hi hm
      exact ⟨st₀.nodes.length, c :: s, hloop, fun y hy => absurd hy List.not_mem_nil, rfl⟩
    · intro i m hi hm hkind
      obtain ⟨rfl, rfl⟩ := hnew i m hi hm
      exact absurd rfl hkind
    · intro i q m hi hm hkind hparent
      obtain ⟨rfl, rfl⟩ := hnew i m hi hm
      exact .inl (Option.some.inj hparent).symm
  · intro key hkey
    by_cases heq : key = some b
    · subst heq
      refine ⟨st.nodes.length, _, .loop (Function.update_self _ _ _) hlt List.getElem?_concat_length
        ⟨rfl, rfl, rfl, rfl⟩, ?_, ?_⟩
      · rw [Function.update_self]
      · rw [hempty]
        rfl
    · obtain ⟨x, m, hplace, hbbs, hinner⟩ := hpart.place key fun h hh => by
        rcases List.mem_append.mp (hkey h hh) with hmem | hmem
        · exact hmem
        · exact absurd (hh.trans (congrArg some (List.mem_singleton.mp hmem))) heq
      obtain ⟨m', hm', hother, hsame⟩ := hplace.grows (setOwner b st.nodes.length
          { st with nodes := st.nodes ++ [⟨.loop, b, c, [], [], some st₀.nodes.length⟩] }) hgrows fun h hh =>
        Function.update_of_ne (fun hhb => heq (hh.trans (congrArg some hhb))) _ _
      have hm : m' = m := by
        by_cases hx : x = st₀.nodes.length
        · rw [hsame hx]
          subst hx
          exact Option.some.inj (htop.symm.trans hplace.node_eq)
        · exact hother hx
      subst hm
      refine ⟨x, m', hm', ?_, ?_⟩
      · rw [Function.update_of_ne heq, hbbs]
      · rw [← hinner]
        exact (kids_ext hgrows.ext (hpart.body.inv x m' hplace.le hplace.node_eq).exists_kid).2
  · intro x m hx hm hkind hparent
    rcases Nat.lt_or_ge x st.nodes.length with hlt' | hge
    · have hm' : st.nodes[x]? = some m := (List.getElem?_append_left hlt').symm.trans hm
      obtain ⟨hmem, howner⟩ := hpart.unique x m hx hm' hkind hparent
      refine ⟨List.mem_append_left _ hmem, ?_⟩
      have hne : m.bb ≠ b := fun heq => hheads (heq ▸ hmem)
      exact (Function.update_of_ne hne _ _).trans howner
    · obtain ⟨rfl, rfl⟩ := hnew x m hge hm
      exact ⟨List.mem_append_right _ List.mem_cons_self, Function.update_self _ _ _⟩
  · intro y m hy hm
    rcases Nat.lt_or_ge y st.nodes.length with hlt' | hge
    · have hm' : st.nodes[y]? = some m := (List.getElem?_append_left hlt').symm.trans hm
      exact (hpart.attached y m hy hm').imp_left fun hattached => hattached.ext hgrows.ext
    · obtain ⟨rfl, rfl⟩ := hnew y m hge hm
      exact .inr ⟨rfl, rfl, hinner⟩
  · intro c' hc' b' hb'
    have hne : b' ≠ b := by
      rintro rfl
      exact hc (hwell.disjoint c' c b' hb' hb ▸ hc')
    exact (Function.update_of_ne hne _ _).trans (hpart.owner c' hc' b' hb')

/-- A loop is added to the children of a node of the function. -/
theorem Part.link (hpart : Part p c parent s st₀ heads blocks inner st) (hcallers : Callers st₀.nodes parent s)
    (hplace : Place st₀.nodes.length c st key t node) (hchild : Place st₀.nodes.length c st (some b) x m)
    (hne : key ≠ some b) :
    Part p c parent s st₀ heads blocks (Function.update inner key (inner key ++ [b])) (addChild t x st) := by
  have htx : t ≠ x := by
    rintro rfl
    exact hne (hplace.key_eq hchild)
  have hloop : LoopOf st₀.nodes.length c b m := by
    cases hchild with | loop _ _ _ hloop => exact hloop
  have howner : st.owner b = some x := by
    cases hchild with | loop howner => exact howner
  have hnode := hplace.node_eq
  have hm := hchild.node_eq
  have hasChild : asChild m = m := if_neg (by rw [hloop.kind]; exact nofun)
  have hgrows : Grows t node { node with children := node.children ++ [x] } st.nodes (addChild t x st).nodes := by
    refine ⟨length_addChild.ge, fun i hi hit => ?_, hnode, ?_, rfl, rfl, rfl, rfl, List.subset_append_left _ _⟩
    · by_cases hix : i = x
      · rw [hix, addChild_child htx, hm, Option.map_some, hasChild]
      · exact addChild_other hit hix
    · rw [addChild_self htx, hnode]
      rfl
  have hm' : (addChild t x st).nodes[x]? = some m := by
    rw [addChild_child htx, hm, Option.map_some, hasChild]
  have hnone : ∀ i m', st.nodes.length ≤ i → (addChild t x st).nodes[i]? ≠ some m' := by
    intro i m' hi h
    rw [List.getElem?_eq_none (by rw [length_addChild]; exact hi)] at h
    cases h
  have hself := hpart.body.inv t node hplace.le hnode
  have hkids := kids_ext hgrows.ext hself.exists_kid
  constructor
  · refine hpart.body.grows hgrows hplace.le hplace.of ?_ (fun i m' hi h => absurd h (hnone i m' hi))
      (fun i m' hi h => absurd h (hnone i m' hi)) fun i q m' hi h => absurd h (hnone i m' hi)
    have hstack := hplace.stack hpart.body hcallers
    have hsame : InvAt p (addChild t x st).nodes t node := hself.ext hgrows.ext rfl rfl
    obtain ⟨f, s', hstack', hall, hcallees⟩ := hsame
    obtain ⟨rfl, rfl⟩ := (hstack.ext hgrows.ext).unique hstack'
    refine ⟨_, _, hstack', fun y hy => ?_, ?_⟩
    · rcases List.mem_append.mp hy with hy | hy
      · exact hall y hy
      · obtain rfl := List.mem_singleton.mp hy
        exact ⟨m, hm', by rw [hloop.kind]; exact nofun, hloop.parent⟩
    · have hsingle : callees (addChild t x st).nodes [x] = [] := by
        simp [callees, hm', hloop.kind]
      rw [callees_append, hsingle, List.append_nil, hcallees]
  · intro key' hkey'
    obtain ⟨y, m', hplace', hbbs, hinner⟩ := hpart.place key' hkey'
    obtain ⟨m'', hm'', hother, hsame⟩ := hplace'.grows (addChild t x st) hgrows fun b _ => rfl
    refine ⟨y, m'', hm'', ?_⟩
    by_cases heq : key' = key
    · subst heq
      obtain ⟨rfl, rfl⟩ := hplace'.eq hplace
      have hsingle : loopKids (addChild y x st).nodes [x] = [b] := by
        simp [loopKids, hm', hloop.kind, hloop.bb]
      rw [hsame rfl, Function.update_self, loopKids_append, hkids.2, hsingle, hinner]
      exact ⟨hbbs, rfl⟩
    · have hyt : y ≠ t := by
        rintro rfl
        exact heq (hplace'.key_eq hplace)
      rw [hother hyt, Function.update_of_ne heq,
        (kids_ext hgrows.ext (hpart.body.inv y m' hplace'.le hplace'.node_eq).exists_kid).2]
      exact ⟨hbbs, hinner⟩
  · intro y m' hy hm' hkind hparent
    have hlt : y < st.nodes.length := length_addChild ▸ (List.getElem?_eq_some_iff.mp hm').1
    obtain ⟨m'', hm'', hskeleton, -⟩ := hgrows.ext y _ (List.getElem?_eq_getElem hlt)
    obtain rfl := Option.some.inj (hm''.symm.trans hm')
    rw [hskeleton.1]
    exact hpart.unique y _ hy (List.getElem?_eq_getElem hlt) (hskeleton.loop_iff.mp hkind)
      (hskeleton.2.2.1.symm.trans hparent)
  · intro y m' hy hm'
    have hlt : y < st.nodes.length := length_addChild ▸ (List.getElem?_eq_some_iff.mp hm').1
    obtain ⟨m'', hm'', hskeleton, -⟩ := hgrows.ext y _ (List.getElem?_eq_getElem hlt)
    obtain rfl := Option.some.inj (hm''.symm.trans hm')
    have hold := List.getElem?_eq_getElem hlt
    by_cases hyx : y = x
    · subst hyx
      exact .inl (attached_addChild htx (hplace.stack hpart.body hcallers).lt_length)
    · rcases hpart.attached y _ hy hold with hattached | ⟨hkind, hparent, hinner⟩
      · exact .inl (hattached.ext hgrows.ext)
      · refine .inr ⟨hskeleton.loop_iff.mpr hkind, hskeleton.2.2.1.trans hparent, fun key' hmem => ?_⟩
        rw [hskeleton.1] at hmem
        by_cases heq : key' = key
        · rw [heq, Function.update_self] at hmem
          rcases List.mem_append.mp hmem with hmem | hmem
          · exact hinner key hmem
          · -- there is one loop for the header
            have howner' := (hpart.unique y _ hy hold hkind hparent).2
            rw [List.mem_singleton.mp hmem, howner] at howner'
            exact hyx (Option.some.inj howner').symm
        · rw [Function.update_of_ne heq] at hmem
          exact hinner key' hmem
  · exact hpart.owner

/-- A block is noted as one of its loop. -/
theorem Part.setOwner (hpart : Part p c parent s st₀ heads blocks inner st) (hwell : p.WellFormed) (hc : c ∉ s)
    (hb : b ∈ p.bbs c) (hheads : b ∉ heads) : Part p c parent s st₀ heads blocks inner (setOwner b t st) := by
  have hother : ∀ b', b' ≠ b → (ContextTree.setOwner b t st).owner b' = st.owner b' :=
    fun b' hne => Function.update_of_ne hne _ _
  constructor
  · exact hpart.body
  · intro key hkey
    obtain ⟨y, m, hplace, hcontent⟩ := hpart.place key hkey
    refine ⟨y, m, ?_, hcontent⟩
    cases hplace with
    | top hnode hkind => exact .top hnode hkind
    | loop howner hlt hnode hloop =>
      refine .loop ((hother _ ?_).trans howner) hlt hnode hloop
      rintro rfl
      exact hheads (hkey _ rfl)
  · intro y m hy hm hkind hparent
    obtain ⟨hmem, howner⟩ := hpart.unique y m hy hm hkind hparent
    refine ⟨hmem, (hother _ ?_).trans howner⟩
    rintro rfl
    exact hheads hmem
  · exact hpart.attached
  · intro c' hc' b' hb'
    refine (hother b' ?_).trans (hpart.owner c' hc' b' hb')
    rintro rfl
    exact hc (hwell.disjoint c' c b' hb' hb ▸ hc')

end Otawa.ContextTree
