import Otawa.Cfg.ContextTreeNodes

/-!
# Calls of a context tree

`addBB` adds a block to a node, and the trees of its calls to the children of the node, as long as the trees are made
(`addBB_spec`).
-/

namespace Otawa.ContextTree

variable {B C : Type} [DecidableEq B] [DecidableEq C] {p : Program B C} {st st' st'' : State B C} {node : Node B C}
  {t f id i child : ℕ} {s cs : List C} {c : C}

/-- What the constructor for the CFG makes. -/
structure Built (p : Program B C) (c : C) (parent : Option ℕ) (s : List C) (st : State B C) (id : ℕ) (st' : State B C) :
    Prop where
  id_eq : id = st.nodes.length
  frame : ∀ i < st.nodes.length, st'.nodes[i]? = st.nodes[i]?
  top : ∃ node, st'.nodes[id]? = some node ∧ node.kind = .root ∧ node.cfg = c ∧ node.parent = parent
  closed : Sealed p st.nodes.length st'.nodes
  attached : ∀ y, st.nodes.length < y → y < st'.nodes.length → Attached st'.nodes y
  owner : ∀ c' ∈ s, ∀ b ∈ p.bbs c', st'.owner b = st.owner b

/-- What the calls `cs` from the node add, with the children `kids`. -/
structure Called (p : Program B C) (t f : ℕ) (s : List C) (node : Node B C) (st : State B C) (cs : List C) (kids : List ℕ)
    (st' : State B C) : Prop where
  grow : st.nodes.length ≤ st'.nodes.length
  frame : ∀ i < st.nodes.length, i ≠ t → st'.nodes[i]? = st.nodes[i]?
  node : st'.nodes[t]? = some { node with children := node.children ++ kids }
  child : ∀ y ∈ kids, ∃ child, st'.nodes[y]? = some child ∧ child.kind = .function ∧ child.parent = some f
  callees : callees st'.nodes kids = cs
  closed : Sealed p st.nodes.length st'.nodes
  attached : ∀ y, st.nodes.length ≤ y → y < st'.nodes.length → Attached st'.nodes y
  owner : ∀ c' ∈ s, ∀ b ∈ p.bbs c', st'.owner b = st.owner b

/-! ### A new child -/

/-- The kind of the first node for a call is changed. -/
def asChild (node : Node B C) : Node B C :=
  if node.kind = .root then { node with kind := .function } else node

section

omit [DecidableEq B] [DecidableEq C]

theorem skeleton_asChild (node : Node B C) : Skeleton node (asChild node) := by
  rw [asChild]
  split
  case isTrue hkind => exact ⟨rfl, rfl, rfl, .inr ⟨hkind, rfl⟩⟩
  case isFalse => exact .refl node

theorem content_asChild (node : Node B C) : (asChild node).bbs = node.bbs ∧ (asChild node).children = node.children := by
  rw [asChild]
  split <;> exact ⟨rfl, rfl⟩

end

section

omit [DecidableEq B] [DecidableEq C]

theorem addChild_child (hne : t ≠ child) : (addChild t child st).nodes[child]? = st.nodes[child]?.map asChild := by
  simp only [addChild]
  rw [List.getElem?_modify_eq, List.getElem?_modify_ne _ _ hne]
  rfl

theorem addChild_self (hne : t ≠ child) :
    (addChild t child st).nodes[t]? = st.nodes[t]?.map fun node => { node with children := node.children ++ [child] } := by
  simp only [addChild]
  rw [List.getElem?_modify_ne _ _ hne.symm, List.getElem?_modify_eq]
  rfl

theorem addChild_other (ht : i ≠ t) (hchild : i ≠ child) : (addChild t child st).nodes[i]? = st.nodes[i]? := by
  simp only [addChild]
  rw [List.getElem?_modify_ne _ _ hchild.symm, List.getElem?_modify_ne _ _ ht.symm]

theorem length_addChild : (addChild t child st).nodes.length = st.nodes.length := by
  simp only [addChild, List.length_modify]

theorem ext_addChild (hne : t ≠ child) : Ext st.nodes (addChild t child st).nodes := by
  intro i node hnode
  by_cases ht : i = t
  · subst ht
    rw [addChild_self hne, hnode]
    exact ⟨_, rfl, .refl node, List.subset_append_left _ _⟩
  · by_cases hchild : i = child
    · subst hchild
      rw [addChild_child hne, hnode]
      exact ⟨_, rfl, skeleton_asChild node, (content_asChild node).2 ▸ List.Subset.refl _⟩
    · rw [addChild_other ht hchild]
      exact ⟨node, hnode, .refl node, List.Subset.refl _⟩

theorem agree_addChild {k : ℕ} (hne : t ≠ child) (ht : t < k) : Agree k st.nodes (addChild t child st).nodes := by
  intro i node hi hnode
  have hit : i ≠ t := Nat.ne_of_gt (Nat.lt_of_lt_of_le ht hi)
  by_cases hchild : i = child
  · subst hchild
    rw [addChild_child hne, hnode]
    exact ⟨_, rfl, skeleton_asChild node, content_asChild node⟩
  · rw [addChild_other hit hchild]
    exact ⟨node, hnode, .refl node, rfl, rfl⟩

theorem attached_addChild (hne : t ≠ child) (ht : t < st.nodes.length) : Attached (addChild t child st).nodes child := by
  refine ⟨t, _, (addChild_self hne).trans (congrArg _ (List.getElem?_eq_getElem ht)), ?_⟩
  exact List.mem_append_right _ List.mem_cons_self

end

theorem sealed_beyond (nodes : List (Node B C)) : Sealed p nodes.length nodes := by
  have hnone : ∀ {i : ℕ} {node : Node B C}, nodes.length ≤ i → nodes[i]? ≠ some node := by
    intro i node hi hnode
    rw [List.getElem?_eq_none hi] at hnode
    cases hnode
  exact ⟨fun i node hi h => absurd h (hnone hi), fun i node hi h => absurd h (hnone hi),
    fun i q node hi h => absurd h (hnone hi)⟩

/-! ### Calls -/

theorem Built.ext {parent : Option ℕ} (h : Built p c parent s st id st') : Ext st.nodes st'.nodes := by
  intro i other hother
  rw [h.frame i (List.getElem?_eq_some_iff.mp hother).1]
  exact ⟨other, hother, .refl other, List.Subset.refl _⟩

theorem Called.ext (h : Called p t f s node st cs kids st') (hnode : st.nodes[t]? = some node) :
    Ext st.nodes st'.nodes := by
  intro i other hother
  by_cases hi : i = t
  · subst hi
    obtain rfl := Option.some.inj (hother.symm.trans hnode)
    exact ⟨_, h.node, .refl _, List.subset_append_left _ _⟩
  · rw [h.frame i (List.getElem?_eq_some_iff.mp hother).1 hi]
    exact ⟨other, hother, .refl other, List.Subset.refl _⟩

theorem processCalls_spec {construct : Constructor B C} (hstack : Stack st.nodes t f s) (hnode : st.nodes[t]? = some node)
    (hconstruct : ∀ c st, c ∈ cs → c ∉ s → Stack st.nodes f f s →
      ∃ id st', construct c (some f) st = some (id, st') ∧ Built p c (some f) s st id st') :
    ∃ kids st', processCalls construct t cs st = some st' ∧
      Called p t f s node st (cs.takeWhile (· ∉ s)) kids st' := by
  induction cs generalizing st node with
  | nil =>
    refine ⟨[], st, rfl, Nat.le_refl _, fun _ _ _ => rfl, ?_, fun y hy => absurd hy List.not_mem_nil, rfl,
      sealed_beyond _, fun y hy hy' => absurd hy' (Nat.not_lt_of_le hy), fun _ _ _ _ => rfl⟩
    rw [List.append_nil, hnode]
  | cons c cs ih =>
    rw [processCalls, hstack.functions_eq]
    by_cases hc : c ∈ s
    · refine ⟨[], st, if_pos hc, Nat.le_refl _, fun _ _ _ => rfl, ?_, fun y hy => absurd hy List.not_mem_nil, ?_,
        sealed_beyond _, fun y hy hy' => absurd hy' (Nat.not_lt_of_le hy), fun _ _ _ _ => rfl⟩
      · rw [List.append_nil, hnode]
      · rw [List.takeWhile_cons_of_neg (by simpa using hc)]
        rfl
    · rw [if_neg hc, hstack.enclosingFunction_eq, List.takeWhile_cons_of_pos (by simpa using hc)]
      obtain ⟨id, st₁, hbuild, hbuilt⟩ := hconstruct c st List.mem_cons_self hc hstack.self
      have hid := hbuilt.id_eq
      have ht := hstack.lt_length
      have hne : t ≠ id := by omega
      obtain ⟨top, htop, hkind, hcfg, hparent⟩ := hbuilt.top
      have hid' : id < st₁.nodes.length := (List.getElem?_eq_some_iff.mp htop).1
      have hext₁ := hbuilt.ext
      have hext₂ : Ext st₁.nodes (addChild t id st₁).nodes := ext_addChild hne
      have hnode₂ : (addChild t id st₁).nodes[t]? = some { node with children := node.children ++ [id] } := by
        rw [addChild_self hne, hbuilt.frame t ht, hnode]
        rfl
      have hlength : (addChild t id st₁).nodes.length = st₁.nodes.length := length_addChild
      obtain ⟨kids, st₃, hcalls, hcalled⟩ := ih (hstack.ext (hext₁.trans hext₂)) hnode₂
        fun c' st' hc' => hconstruct c' st' (List.mem_cons_of_mem c hc')
      have hext₃ := hcalled.ext hnode₂
      have hsame : ∀ i, st.nodes.length ≤ i → i < st₁.nodes.length → st₃.nodes[i]? = (addChild t id st₁).nodes[i]? :=
        fun i hi hi' => hcalled.frame i (hlength ▸ hi') (by omega)
      have htop₃ : st₃.nodes[id]? = some (asChild top) := by
        rw [hsame id (by omega) hid', addChild_child hne, htop]
        rfl
      have hasChild : asChild top = { top with kind := .function } := if_pos hkind
      refine ⟨id :: kids, st₃, ?_, ?_, ?_, ?_, ?_, ?_, ?_, ?_, ?_⟩
      · simp only [Option.bind_eq_bind, Option.bind_some, hbuild]
        exact hcalls
      · exact (hext₁.length_le.trans hext₂.length_le).trans hcalled.grow
      · intro i hi hit
        rw [hcalled.frame i (by omega) hit, addChild_other hit (by omega), hbuilt.frame i hi]
      · rw [hcalled.node, List.append_assoc]
        rfl
      · refine List.forall_mem_cons.mpr ⟨⟨_, htop₃, ?_, ?_⟩, hcalled.child⟩
        · rw [hasChild]
        · rw [hasChild]
          exact hparent
      · have hsingle : callees st₃.nodes [id] = [c] := by
          rw [callees, List.filterMap_cons_some htop₃, hasChild]
          exact congrArg (fun cfg => [cfg]) hcfg
        have hcons : callees st₃.nodes (id :: kids) = callees st₃.nodes [id] ++ callees st₃.nodes kids :=
          callees_append [id] kids
        rw [hcons, hsingle, hcalled.callees]
        rfl
      · have hsealed : Sealed p st.nodes.length (addChild t id st₁).nodes :=
          hbuilt.closed.trans hext₁.length_le (agree_addChild hne ht) hext₂ (hlength ▸ sealed_beyond _)
        refine hsealed.trans (hext₁.trans hext₂).length_le (fun i other hi hother => ?_) hext₃ hcalled.closed
        rw [hsame i hi (hlength ▸ (List.getElem?_eq_some_iff.mp hother).1)]
        exact ⟨other, hother, .refl other, rfl, rfl⟩
      · intro y hy hy'
        rcases Nat.lt_or_ge y st₁.nodes.length with hlt | hge
        · rcases Nat.eq_or_lt_of_le hy with heq | hgt
          · obtain rfl : id = y := hid.trans heq
            exact (attached_addChild hne (ht.trans (Nat.lt_of_le_of_lt hy hlt))).ext hext₃
          · exact (hbuilt.attached y hgt hlt).ext (hext₂.trans hext₃)
        · exact hcalled.attached y (hlength ▸ hge) hy'
      · intro c' hc' b hb
        exact (hcalled.owner c' hc' b hb).trans (hbuilt.owner c' hc' b hb)

/-! ### A new block -/

/-- What the block adds to the node, with the children `kids` for its calls. -/
structure Added (p : Program B C) (t f : ℕ) (s : List C) (node : Node B C) (st : State B C) (b : B) (kids : List ℕ)
    (st' : State B C) : Prop where
  grow : st.nodes.length ≤ st'.nodes.length
  frame : ∀ i < st.nodes.length, i ≠ t → st'.nodes[i]? = st.nodes[i]?
  node : st'.nodes[t]? = some { node with bbs := node.bbs ++ [b], children := node.children ++ kids }
  child : ∀ y ∈ kids, ∃ child, st'.nodes[y]? = some child ∧ child.kind = .function ∧ child.parent = some f
  callees : callees st'.nodes kids = p.made s b
  closed : Sealed p st.nodes.length st'.nodes
  attached : ∀ y, st.nodes.length ≤ y → y < st'.nodes.length → Attached st'.nodes y
  owner : ∀ c' ∈ s, ∀ b ∈ p.bbs c', st'.owner b = st.owner b

variable {b : B} {kids : List ℕ}

theorem addBB_spec {construct : Constructor B C} (hstack : Stack st.nodes t f s) (hnode : st.nodes[t]? = some node)
    (hconstruct : ∀ c st, c ∈ p.resolved b → c ∉ s → Stack st.nodes f f s →
      ∃ id st', construct c (some f) st = some (id, st') ∧ Built p c (some f) s st id st') :
    ∃ kids st', addBB p construct true t b st = some st' ∧ Added p t f s node st b kids st' := by
  obtain ⟨st₀, hst₀⟩ : ∃ st₀ : State B C,
      st₀ = { st with nodes := st.nodes.modify t fun node => { node with bbs := node.bbs ++ [b] } } := ⟨_, rfl⟩
  have hlength : st₀.nodes.length = st.nodes.length := by rw [hst₀, List.length_modify]
  have hnode₀ : st₀.nodes[t]? = some { node with bbs := node.bbs ++ [b] } := by
    rw [hst₀, List.getElem?_modify_eq, hnode]
    rfl
  have hother : ∀ i, i ≠ t → st₀.nodes[i]? = st.nodes[i]? := by
    intro i hi
    rw [hst₀, List.getElem?_modify_ne _ _ hi.symm]
  have hext : Ext st.nodes st₀.nodes := by
    intro i other hi
    by_cases heq : i = t
    · subst heq
      obtain rfl := Option.some.inj (hi.symm.trans hnode)
      exact ⟨_, hnode₀, .refl _, List.Subset.refl _⟩
    · exact ⟨other, (hother i heq).trans hi, .refl other, List.Subset.refl _⟩
  have hcalls : ∃ kids st', (if true && p.isCall b then processCalls construct t (p.resolved b) st₀ else some st₀) = some st' ∧
      Called p t f s { node with bbs := node.bbs ++ [b] } st₀ (p.made s b) kids st' := by
    rw [Bool.true_and, Program.made]
    by_cases hisCall : p.isCall b = true
    · simp only [hisCall, if_true]
      exact processCalls_spec (hstack.ext hext) hnode₀ hconstruct
    · simp only [hisCall]
      have hnone : ∀ c st, c ∈ ([] : List C) → c ∉ s → Stack st.nodes f f s →
          ∃ id st', construct c (some f) st = some (id, st') ∧ Built p c (some f) s st id st' :=
        fun c st hc => absurd hc List.not_mem_nil
      exact processCalls_spec (hstack.ext hext) hnode₀ hnone
  obtain ⟨kids, st', hcalls, hcalled⟩ := hcalls
  refine ⟨kids, st', ?_, hlength ▸ hcalled.grow, ?_, hcalled.node, hcalled.child, hcalled.callees,
    hlength ▸ hcalled.closed, hlength ▸ hcalled.attached, ?_⟩
  · rw [addBB, ← hst₀, hcalls]
  · intro i hi hit
    rw [hcalled.frame i (hlength.symm ▸ hi) hit, hother i hit]
  · intro c' hc' b' hb'
    rw [hcalled.owner c' hc' b' hb', hst₀]

theorem Added.ext (h : Added p t f s node st b kids st') (hnode : st.nodes[t]? = some node) : Ext st.nodes st'.nodes := by
  intro i other hother
  by_cases hi : i = t
  · subst hi
    obtain rfl := Option.some.inj (hother.symm.trans hnode)
    exact ⟨_, h.node, .refl _, List.subset_append_left _ _⟩
  · rw [h.frame i (List.getElem?_eq_some_iff.mp hother).1 hi]
    exact ⟨other, hother, .refl other, List.Subset.refl _⟩

theorem Added.inv_self (h : Added p t f s node st b kids st') (hstack : Stack st.nodes t f s)
    (hnode : st.nodes[t]? = some node) (hinv : InvAt p st.nodes t node) :
    InvAt p st'.nodes t { node with bbs := node.bbs ++ [b], children := node.children ++ kids } := by
  have hexist := hinv.exists_kid
  obtain ⟨f', s', hstack', hkids, hcallees⟩ := hinv
  obtain ⟨rfl, rfl⟩ := hstack.unique hstack'
  have hext := h.ext hnode
  refine ⟨f, s, hstack.ext hext, fun y hy => ?_, ?_⟩
  · rcases List.mem_append.mp hy with hy | hy
    · obtain ⟨child, hchild, hkind, hparent⟩ := hkids y hy
      obtain ⟨child', hchild', hskeleton, -⟩ := hext y child hchild
      refine ⟨child', hchild', ?_, hskeleton.2.2.1.trans hparent⟩
      rcases hskeleton.2.2.2 with heq | ⟨hroot, -⟩
      · rwa [heq]
      · exact absurd hroot hkind
    · obtain ⟨child, hchild, hkind, hparent⟩ := h.child y hy
      exact ⟨child, hchild, by rw [hkind]; exact nofun, hparent⟩
  · rw [callees_append, (kids_ext hext hexist).1, hcallees, h.callees, List.flatMap_append, List.flatMap_singleton]

/-- The children for calls are not loops. -/
theorem Added.loopKids_eq (h : Added p t f s node st b kids st') (hnode : st.nodes[t]? = some node)
    (hinv : InvAt p st.nodes t node) : loopKids st'.nodes (node.children ++ kids) = loopKids st.nodes node.children := by
  have hnone : loopKids st'.nodes kids = [] := by
    rw [loopKids, List.map_eq_nil_iff, List.filter_eq_nil_iff]
    intro child hchild
    obtain ⟨y, hy, heq⟩ := List.mem_filterMap.mp hchild
    obtain ⟨child', hchild', hkind, -⟩ := h.child y hy
    obtain rfl := Option.some.inj (heq.symm.trans hchild')
    rw [hkind]
    decide
  rw [loopKids_append, hnone, List.append_nil, (kids_ext (h.ext hnode) hinv.exists_kid).2]

end Otawa.ContextTree
