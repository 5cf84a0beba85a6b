import Otawa.Cfg.ContextTreeBuild
import Mathlib.Data.List.Perm.Subperm

/-!
# Runs of the constructor of a context tree

What a step of each loop of the constructor does to the state (`Part.addLoop`, `Part.link_block`), from it what the
loops do, and what the constructor makes (`build_spec`). Its recursion ends since a function is not called in itself.
-/

namespace Otawa.ContextTree

variable {B C : Type} [DecidableEq B] [DecidableEq C] {p : Program B C} {st₀ st : State B C} {c : C}
  {parent : Option ℕ} {s : List C} {heads pre rest : List B} {b : B} {construct : Constructor B C}

/-- The constructor makes the trees for the calls from the function `c`, whose node is `f`. -/
def Constructs (p : Program B C) (construct : Constructor B C) (c : C) (f : ℕ) (s : List C) : Prop :=
  ∀ b ∈ p.bbs c, ∀ (g : C) (st : State B C), g ∈ p.resolved b → g ∉ s → Stack st.nodes f f s →
    ∃ id st', construct g (some f) st = some (id, st') ∧ Built p g (some f) s st id st'

/-! ### Blocks of the loops -/

section

omit [DecidableEq C]

theorem blocksOf_nil_update (b : B) :
    Function.update (Function.update (fun key => p.blocksOf key []) (some b) []) (some b)
      (Function.update (fun key => p.blocksOf key []) (some b) [] (some b) ++ [b]) = fun key => p.blocksOf key [] := by
  funext key
  by_cases hkey : key = some b
  · subst hkey
    rw [Function.update_self, Function.update_self]
    rfl
  · rw [Function.update_of_ne hkey, Function.update_of_ne hkey]

theorem blocksOf_update (hheader : p.loopHeader b = false) (pre : List B) :
    Function.update (fun key => p.blocksOf key pre) (p.enclosing b) (p.blocksOf (p.enclosing b) pre ++ [b]) =
      fun key => p.blocksOf key (pre ++ [b]) := by
  funext key
  by_cases hkey : key = p.enclosing b
  · subst hkey
    rw [Function.update_self]
    simp [Program.blocksOf, hheader]
  · rw [Function.update_of_ne hkey]
    simp [Program.blocksOf, Ne.symm hkey]

theorem loopsOf_update (hheader : p.loopHeader b = true) (pre : List B) :
    Function.update (fun key => p.loopsOf key pre) (p.enclosing b) (p.loopsOf (p.enclosing b) pre ++ [b]) =
      fun key => p.loopsOf key (pre ++ [b]) := by
  funext key
  by_cases hkey : key = p.enclosing b
  · subst hkey
    rw [Function.update_self]
    simp [Program.loopsOf, hheader]
  · rw [Function.update_of_ne hkey]
    simp [Program.loopsOf, Ne.symm hkey]

theorem blocksOf_header (hheader : p.loopHeader b = true) (pre : List B) :
    (fun key => p.blocksOf key (pre ++ [b])) = fun key => p.blocksOf key pre := by
  funext key
  simp [Program.blocksOf, hheader]

theorem loopsOf_block (hheader : p.loopHeader b = false) (pre : List B) :
    (fun key => p.loopsOf key (pre ++ [b])) = fun key => p.loopsOf key pre := by
  funext key
  simp [Program.loopsOf, hheader]

end

/-! ### Steps of the loops -/

/-- A block is added to a node of the function, with its calls. -/
theorem Part.addBB {blocks inner : Option B → List B} {key : Option B} {t : ℕ} {node : Node B C}
    (hpart : Part p c parent s st₀ heads blocks inner st) (hcallers : Callers st₀.nodes parent s)
    (hconstruct : Constructs p construct c st₀.nodes.length (c :: s)) (hb : b ∈ p.bbs c)
    (hheads : ∀ h ∈ heads, h ∈ p.bbs c) (hplace : Place st₀.nodes.length c st key t node) :
    ∃ st', addBB p construct true t b st = some st' ∧
      Part p c parent s st₀ heads (Function.update blocks key (blocks key ++ [b])) inner st' := by
  obtain ⟨kids, st', hadd, hadded⟩ := addBB_spec (hplace.stack hpart.body hcallers) hplace.node_eq
    (hconstruct b hb)
  exact ⟨st', hadd, hpart.added hcallers hplace hadded hheads⟩

theorem Part.addLoop (hpart : Part p c parent s st₀ heads (fun key => p.blocksOf key []) (fun key => p.loopsOf key []) st)
    (hcallers : Callers st₀.nodes parent s) (hwell : p.WellFormed)
    (hconstruct : Constructs p construct c st₀.nodes.length (c :: s)) (hc : c ∉ s) (hb : b ∈ p.bbs c)
    (hheads : ∀ h ∈ heads, h ∈ p.bbs c) (hnew : b ∉ heads) :
    ∃ st', addLoop p construct true c st₀.nodes.length st b = some st' ∧
      Part p c parent s st₀ (heads ++ [b].filter fun b => p.loopHeader b) (fun key => p.blocksOf key [])
        (fun key => p.loopsOf key []) st' := by
  rw [ContextTree.addLoop]
  by_cases hheader : p.loopHeader b = true
  · rw [if_pos hheader, List.filter_cons_of_pos (by simpa using hheader), List.filter_nil]
    have halloc := hpart.alloc hcallers hwell hc hb hnew (fun key => List.not_mem_nil) rfl
    obtain ⟨t, node, hplace, -⟩ := halloc.place (some b) fun h hh =>
      List.mem_append_right _ (List.mem_singleton.mpr (Option.some.inj hh).symm)
    have ht : t = st.nodes.length := by
      have hself : (ContextTree.setOwner b st.nodes.length
          { st with nodes := st.nodes ++ [⟨.loop, b, c, [], [], some st₀.nodes.length⟩] }).owner b =
            some st.nodes.length := Function.update_self _ _ _
      cases hplace with
      | loop howner => exact (Option.some.inj (hself.symm.trans howner)).symm
    have hmem : ∀ h ∈ heads ++ [b], h ∈ p.bbs c := by
      intro h hh
      rcases List.mem_append.mp hh with hh | hh
      · exact hheads h hh
      · exact List.mem_singleton.mp hh ▸ hb
    obtain ⟨st', hadd, hpart'⟩ := halloc.addBB hcallers hconstruct hb hmem hplace
    rw [blocksOf_nil_update] at hpart'
    exact ⟨st', ht ▸ hadd, hpart'⟩
  · rw [if_neg hheader, List.filter_cons_of_neg (by simpa using hheader), List.filter_nil, List.append_nil]
    exact ⟨st, rfl, hpart⟩

theorem link_eq {k t : ℕ} {node : Node B C} (hplace : Place k c st (p.enclosing b) t node) :
    link p construct true k st b =
      if p.loopHeader b then (st.owner b).map fun x => addChild t x st
      else (ContextTree.addBB p construct true t b st).map fun st' => setOwner b t st' := by
  have hparent : p.enclosing b = none ∧ t = k ∨ ∃ h, p.enclosing b = some h ∧ st.owner h = some t := by
    generalize p.enclosing b = key at hplace
    cases hplace with
    | top => exact .inl ⟨rfl, rfl⟩
    | loop howner => exact .inr ⟨_, rfl, howner⟩
  rcases hparent with ⟨hkey, rfl⟩ | ⟨h, hkey, howner⟩
  · simp only [link, hkey, Option.bind_eq_bind, Option.bind_some, Option.map_eq_bind]
    rfl
  · simp only [link, hkey, howner, Option.bind_eq_bind, Option.bind_some, Option.map_eq_bind]
    rfl

theorem Part.link_block
    (hpart : Part p c parent s st₀ ((p.bbs c).filter fun b => p.loopHeader b) (fun key => p.blocksOf key pre)
      (fun key => p.loopsOf key pre) st)
    (hcallers : Callers st₀.nodes parent s) (hwell : p.WellFormed)
    (hconstruct : Constructs p construct c st₀.nodes.length (c :: s)) (hc : c ∉ s) (hb : b ∈ p.bbs c) :
    ∃ st', ContextTree.link p construct true st₀.nodes.length st b = some st' ∧
      Part p c parent s st₀ ((p.bbs c).filter fun b => p.loopHeader b) (fun key => p.blocksOf key (pre ++ [b]))
        (fun key => p.loopsOf key (pre ++ [b])) st' := by
  have hmem : ∀ h ∈ (p.bbs c).filter (fun b => p.loopHeader b), h ∈ p.bbs c := fun h hh => (List.mem_filter.mp hh).1
  obtain ⟨t, node, hplace, -⟩ := hpart.place (p.enclosing b) fun h hh => by
    obtain ⟨hmem, hheader, -⟩ := hwell.enclosing c b h hb hh
    exact List.mem_filter.mpr ⟨hmem, hheader⟩
  have hne : p.enclosing b ≠ some b := fun heq => (hwell.enclosing c b b hb heq).2.2 rfl
  rw [link_eq hplace]
  by_cases hheader : p.loopHeader b = true
  · obtain ⟨x, m, hchild, -⟩ := hpart.place (some b) fun h hh =>
      List.mem_filter.mpr ⟨Option.some.inj hh ▸ hb, Option.some.inj hh ▸ hheader⟩
    have howner : st.owner b = some x := by
      cases hchild with | loop howner => exact howner
    refine ⟨addChild t x st, ?_, ?_⟩
    · rw [if_pos hheader, howner]
      rfl
    · rw [blocksOf_header hheader, ← loopsOf_update hheader]
      exact hpart.link hcallers hplace hchild hne
  · have hheader' : p.loopHeader b = false := Bool.eq_false_iff.mpr hheader
    obtain ⟨st', hadd, hpart'⟩ := hpart.addBB hcallers hconstruct hb hmem hplace
    rw [blocksOf_update hheader'] at hpart'
    refine ⟨ContextTree.setOwner b t st', ?_, ?_⟩
    · rw [if_neg hheader, hadd]
      rfl
    · rw [loopsOf_block hheader']
      exact hpart'.setOwner hwell hc hb fun hb' => hheader (List.mem_filter.mp hb').2

/-! ### Loops -/

theorem Part.addLoops (hpart : Part p c parent s st₀ (pre.filter fun b => p.loopHeader b) (fun key => p.blocksOf key [])
      (fun key => p.loopsOf key []) st)
    (hcallers : Callers st₀.nodes parent s) (hwell : p.WellFormed)
    (hconstruct : Constructs p construct c st₀.nodes.length (c :: s)) (hc : c ∉ s) (hbbs : p.bbs c = pre ++ rest) :
    ∃ st', rest.foldlM (ContextTree.addLoop p construct true c st₀.nodes.length) st = some st' ∧
      Part p c parent s st₀ ((p.bbs c).filter fun b => p.loopHeader b) (fun key => p.blocksOf key [])
        (fun key => p.loopsOf key []) st' := by
  induction rest generalizing pre st with
  | nil =>
    rw [hbbs, List.append_nil]
    exact ⟨st, rfl, hpart⟩
  | cons b rest ih =>
    have hmem : ∀ b' ∈ pre, b' ∈ p.bbs c := fun b' hb' => hbbs ▸ List.mem_append_left _ hb'
    have hb : b ∈ p.bbs c := hbbs ▸ List.mem_append_right _ List.mem_cons_self
    have hnew : b ∉ pre := by
      have hnodup := hwell.nodup c
      rw [hbbs] at hnodup
      exact fun hb => List.disjoint_of_nodup_append hnodup hb List.mem_cons_self
    obtain ⟨st₁, hstep, hpart₁⟩ := hpart.addLoop hcallers hwell hconstruct hc hb
      (fun h hh => hmem h (List.mem_filter.mp hh).1) fun hb' => hnew (List.mem_filter.mp hb').1
    rw [← List.filter_append] at hpart₁
    obtain ⟨st', hrest, hpart'⟩ := ih hpart₁ (by rw [hbbs, List.append_assoc, List.singleton_append])
    refine ⟨st', ?_, hpart'⟩
    rw [List.foldlM_cons, hstep]
    exact hrest

theorem Part.links
    (hpart : Part p c parent s st₀ ((p.bbs c).filter fun b => p.loopHeader b) (fun key => p.blocksOf key pre)
      (fun key => p.loopsOf key pre) st)
    (hcallers : Callers st₀.nodes parent s) (hwell : p.WellFormed)
    (hconstruct : Constructs p construct c st₀.nodes.length (c :: s)) (hc : c ∉ s) (hbbs : p.bbs c = pre ++ rest) :
    ∃ st', rest.foldlM (ContextTree.link p construct true st₀.nodes.length) st = some st' ∧
      Part p c parent s st₀ ((p.bbs c).filter fun b => p.loopHeader b) (fun key => p.blocksOf key (p.bbs c))
        (fun key => p.loopsOf key (p.bbs c)) st' := by
  induction rest generalizing pre st with
  | nil =>
    have hpre : p.bbs c = pre := by rw [hbbs, List.append_nil]
    rw [hpre] at hpart ⊢
    exact ⟨st, rfl, hpart⟩
  | cons b rest ih =>
    have hb : b ∈ p.bbs c := hbbs ▸ List.mem_append_right _ List.mem_cons_self
    obtain ⟨st₁, hstep, hpart₁⟩ := hpart.link_block hcallers hwell hconstruct hc hb
    obtain ⟨st', hrest, hpart'⟩ := ih hpart₁ (by rw [hbbs, List.append_assoc, List.singleton_append])
    refine ⟨st', ?_, hpart'⟩
    rw [List.foldlM_cons, hstep]
    exact hrest

/-! ### The constructor -/

/-- Before the loops, the function has its node. -/
theorem part_start (hcallers : Callers st₀.nodes parent s) :
    Part p c parent s st₀ [] (fun key => p.blocksOf key []) (fun key => p.loopsOf key [])
      { st₀ with nodes := st₀.nodes ++ [⟨.root, p.entry c, c, [], [], parent⟩] } := by
  have hlast : (st₀.nodes ++ [(⟨.root, p.entry c, c, [], [], parent⟩ : Node B C)])[st₀.nodes.length]? =
      some ⟨.root, p.entry c, c, [], [], parent⟩ := List.getElem?_concat_length
  have hnew : ∀ i m, st₀.nodes.length ≤ i →
      (st₀.nodes ++ [(⟨.root, p.entry c, c, [], [], parent⟩ : Node B C)])[i]? = some m →
      i = st₀.nodes.length ∧ m = ⟨.root, p.entry c, c, [], [], parent⟩ := by
    intro i m hi hm
    obtain ⟨hlength, -⟩ := List.getElem?_eq_some_iff.mp hm
    rw [List.length_append, List.length_singleton] at hlength
    obtain rfl : i = st₀.nodes.length := by omega
    exact ⟨rfl, Option.some.inj (hm.symm.trans hlast)⟩
  have hext : Ext st₀.nodes (st₀.nodes ++ [⟨.root, p.entry c, c, [], [], parent⟩]) := by
    intro i other hother
    rw [List.getElem?_append_left (List.getElem?_eq_some_iff.mp hother).1]
    exact ⟨other, hother, .refl other, List.Subset.refl _⟩
  have hstack : Stack (st₀.nodes ++ [(⟨.root, p.entry c, c, [], [], parent⟩ : Node B C)]) st₀.nodes.length
      st₀.nodes.length (c :: s) := by
    rcases hcallers with ⟨rfl, rfl⟩ | ⟨q, rfl, hstack⟩
    · exact .root hlast nofun rfl
    · exact .function hlast nofun rfl hstack.lt_length (hstack.ext hext)
  constructor
  · constructor
    · exact fun i hi => List.getElem?_append_left hi
    · exact ⟨_, hlast, rfl, rfl, rfl⟩
    · intro i m hi hm
      obtain ⟨rfl, rfl⟩ := hnew i m hi hm
      exact ⟨_, _, hstack, fun y hy => absurd hy List.not_mem_nil, rfl⟩
    · intro i m hi hm
      exact absurd (hnew i m hi.le hm).1 (Nat.ne_of_gt hi)
    · intro i q m hi hm hkind
      obtain ⟨rfl, rfl⟩ := hnew i m hi hm
      cases hkind
  · intro key hkey
    cases key with
    | none => exact ⟨_, _, .top hlast rfl, rfl, rfl⟩
    | some h => exact absurd (hkey h rfl) List.not_mem_nil
  · intro x m hx hm
    exact absurd (hnew x m hx.le hm).1 (Nat.ne_of_gt hx)
  · intro y m hy hm
    exact absurd (hnew y m hy.le hm).1 (Nat.ne_of_gt hy)
  · exact fun _ _ _ _ => rfl

/-- After the loops, the function is complete. -/
theorem Part.finish (hpart : Part p c parent s st₀ ((p.bbs c).filter fun b => p.loopHeader b)
    (fun key => p.blocksOf key (p.bbs c)) (fun key => p.loopsOf key (p.bbs c)) st) :
    Built p c parent s st₀ st₀.nodes.length st := by
  obtain ⟨hbody, hplace, hunique, hattached, howner⟩ := hpart
  refine ⟨rfl, hbody.frame, hbody.top, ⟨hbody.inv, fun i node hi hnode hkind => ?_, hbody.loops⟩, ?_, howner⟩
  · rcases Nat.eq_or_lt_of_le hi with rfl | hlt
    · obtain ⟨top, htop, -, rfl, -⟩ := hbody.top
      obtain rfl := Option.some.inj (htop.symm.trans hnode)
      constructor
      · obtain ⟨t, node', hplace', hcontent⟩ := hplace none nofun
        cases hplace' with
        | top hnode' =>
          obtain rfl := Option.some.inj (hnode'.symm.trans hnode)
          exact hcontent
      · intro h hh hheader
        obtain ⟨t, node', hplace', hcontent⟩ := hplace (some h) fun h' hh' =>
          List.mem_filter.mpr ⟨Option.some.inj hh' ▸ hh, Option.some.inj hh' ▸ hheader⟩
        cases hplace' with
        | loop _ hlt hnode' hloop => exact ⟨t, node', hlt, hnode', hloop, hcontent⟩
      · intro x m hx hm hkind hparent
        exact List.mem_filter.mp (hunique x m hx hm hkind hparent).1
      · intro x y m m' hx hy hm hm' hkind hkind' hparent hparent' heq
        have hx' := (hunique x m hx hm hkind hparent).2
        have hy' := (hunique y m' hy hm' hkind' hparent').2
        rw [heq, hy'] at hx'
        exact (Option.some.inj hx').symm
    · exact hbody.done i node hlt hnode hkind
  · intro y hy hlt
    have hnode := List.getElem?_eq_getElem hlt
    rcases hattached y _ hy hnode with hattached | ⟨hkind, hparent, hinner⟩
    · exact hattached
    · obtain ⟨hmem, hheader⟩ := List.mem_filter.mp (hunique y _ hy hnode hkind hparent).1
      exact absurd (List.mem_filter.mpr ⟨hmem, by simpa using hheader⟩) (hinner (p.enclosing st.nodes[y].bb))

/-- The constructor ends, and makes a complete tree of the function and of the functions that it calls. -/
theorem build_spec (hwell : p.WellFormed) {fuel : ℕ} (hcallers : Callers st.nodes parent s) (hnodup : (c :: s).Nodup)
    (hcfgs : c :: s ⊆ p.cfgs) (hfuel : p.cfgs.length < fuel + (c :: s).length) :
    ∃ id st', build p fuel true c parent st = some (id, st') ∧ Built p c parent s st id st' := by
  induction fuel generalizing c parent s st with
  | zero =>
    have hle := (hnodup.subperm hcfgs).length_le
    omega
  | succ fuel ih =>
    have hc : c ∉ s := (List.nodup_cons.mp hnodup).1
    have hconstruct : Constructs p (build p fuel true) c st.nodes.length (c :: s) := by
      intro b hb g st' hg hnew hstack
      have hgcfgs := hwell.called c b g (hcfgs List.mem_cons_self) hb hg
      refine ih (.inr ⟨_, rfl, hstack⟩) (List.nodup_cons.mpr ⟨hnew, hnodup⟩)
        (List.cons_subset.mpr ⟨hgcfgs, hcfgs⟩) ?_
      simp only [List.length_cons] at hfuel ⊢
      omega
    have hstart := part_start (p := p) (c := c) hcallers
    obtain ⟨st₁, hloops, hpart₁⟩ := hstart.addLoops hcallers hwell hconstruct hc (List.nil_append _).symm
    obtain ⟨st₂, hlinks, hpart₂⟩ := hpart₁.links hcallers hwell hconstruct hc rfl
    refine ⟨_, st₂, ?_, hpart₂.finish⟩
    simp only [build, hloops, hlinks, Option.bind_eq_bind, Option.bind_some, pure]

end Otawa.ContextTree
