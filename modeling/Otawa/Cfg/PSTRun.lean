import Otawa.Cfg.PSTCounters
import Otawa.Cfg.PSTNodes
import Otawa.Cfg.PSTree

/-!
# The construction of the program structure tree

What holds while `buildTree` follows the edges, and what one edge does to it: it keeps the region, or enters one, or
leaves one, or does both. In the last case the new node is left out of the tree, and the node that was left takes its
own parent for child.
-/

namespace Otawa.PSTBuilder

open PSTree

variable {B E C : Type} {c : CFG B E} {pstClass : E → Option C} {T : List E} {D : List B} {s s' : State B E C}
  {e : E} {cl : C} {subtree : ℕ}

/-- What the nodes hold. -/
def data (trees : List (PSTree B E C)) : List (SESERegion B E C) :=
  trees.map PSTree.data

section

variable (trees : List (PSTree B E C))

theorem getElem?_data (n : ℕ) : (data trees)[n]? = trees[n]?.map PSTree.data := by
  unfold data
  rw [List.getElem?_map]

theorem data_modify (n : ℕ) {f : PSTree B E C → PSTree B E C}
    {g : SESERegion B E C → SESERegion B E C} (h : ∀ t, (f t).data = g t.data) :
    data (trees.modify n f) = (data trees).modify n g := by
  refine List.ext_getElem? fun i => ?_
  rw [getElem?_data, List.getElem?_modify, List.getElem?_modify, getElem?_data]
  cases trees[i]? with
  | none => rfl
  | some t =>
    by_cases hni : n = i
    · simp [hni, h]
    · simp [hni]

theorem data_modify_pointer (n : ℕ) {f : PSTree B E C → PSTree B E C}
    (h : ∀ t, (f t).data = t.data) : data (trees.modify n f) = data trees := by
  rw [data_modify trees n (g := id) h, List.modify_id]

theorem data_prependChild (tree child : ℕ) : data (prependChild trees tree child) = data trees := by
  unfold prependChild
  refine (data_modify_pointer _ _ ?_).trans (data_modify_pointer _ _ ?_)
  · intro t
    rfl
  · intro t
    rfl

end

theorem data_appendChild {trees trees' : List (PSTree B E C)} {tree child : ℕ}
    (h : appendChild trees tree child = some trees') : data trees' = data trees := by
  unfold appendChild at h
  split at h
  · cases h
    exact data_modify_pointer _ _ fun _ => rfl
  · obtain ⟨last, -, h⟩ := Option.bind_eq_some_iff.mp h
    cases h
    exact data_modify_pointer _ _ fun _ => rfl

/-! ### The branches of an edge -/

variable [DecidableEq E] [DecidableEq C]

theorem followEdge_plain (h : ∀ cl, s.pstClass e = some cl → (s.classes cl).isFirst = true ∧ (s.classes cl).isLast = true) :
    followEdge subtree e s = some (subtree, { s with pstClass := Function.update s.pstClass e none }) := by
  unfold followEdge
  cases hfound : s.pstClass e with
  | none => rfl
  | some cl =>
    obtain ⟨hfirst, hlast⟩ := h cl hfound
    simp [hfirst, hlast]

theorem followEdge_first (hfound : s.pstClass e = some cl) (hfirst : (s.classes cl).isFirst = true)
    (hlast : (s.classes cl).isLast = false) :
    followEdge subtree e s = some (s.trees.length, { s with
      pstClass := Function.update s.pstClass e none
      classes := Function.update s.classes cl (s.classes cl).dec
      trees := prependChild (s.trees ++ [⟨.make e (some subtree) true cl, none, none⟩]) subtree s.trees.length }) := by
  unfold followEdge
  simp [hfound, hfirst, hlast]

theorem followEdge_middle {parent : ℕ} (hfound : s.pstClass e = some cl) (hfirst : (s.classes cl).isFirst = false)
    (hlast : (s.classes cl).isLast = false)
    (hparent : ((modifyData s.trees subtree fun region => region.setExit e)[subtree]?.bind
      fun tree => tree.data.parent) = some parent) :
    followEdge subtree e s = (appendChild ((modifyData s.trees subtree fun region => region.setExit e) ++
      [⟨.make e (some parent) false cl, none, none⟩]) subtree parent).map fun trees => (s.trees.length, { s with
        pstClass := Function.update s.pstClass e none
        classes := Function.update s.classes cl (s.classes cl).dec
        trees := trees }) := by
  unfold followEdge
  simp only [hfound, hfirst, hlast, hparent, Option.map_eq_bind, Bool.not_false, Bool.or_true, if_true,
    Bool.false_eq_true, if_false, Option.bind_eq_bind, Option.bind_some]
  rfl

theorem followEdge_last {parent : ℕ} (hfound : s.pstClass e = some cl) (hfirst : (s.classes cl).isFirst = false)
    (hlast : (s.classes cl).isLast = true)
    (hparent : ((modifyData s.trees subtree fun region => region.setExit e)[subtree]?.bind
      fun tree => tree.data.parent) = some parent) :
    followEdge subtree e s = some (parent, { s with
      pstClass := Function.update s.pstClass e none
      classes := Function.update s.classes cl (s.classes cl).dec
      trees := modifyData (modifyData s.trees subtree fun region => region.setExit e) subtree SESERegion.setLast }) := by
  unfold followEdge
  simp only [hfound, hfirst, hlast]
  simp [hparent]

/-! ### The invariant -/

variable [DecidableEq B]

/-- The edge ends a region and begins the next one. -/
def Adjacent (c : CFG B E) (e : E) : Prop := (∃ a, c.Canonical a e) ∧ ∃ b, c.Canonical e b

/-- The node is the one of the innermost region of the block. -/
def Within (c : CFG B E) (trees : List (PSTree B E C)) (v : B) (n : ℕ) : Prop :=
  ∃ r, c.Innermost r v ∧ NodeOf (data trees) r n

/-- The node of a region that was left for the next one has the node of what encloses it for child. -/
def Reversed (c : CFG B E) (trees : List (PSTree B E C)) (a e : E) : Prop :=
  ∃ r n m, NodeOf (data trees) (some (a, e)) n ∧ NodeOf (data trees) r m ∧ c.Encloses r (some (a, e)) ∧ Child trees n m

structure Built (c : CFG B E) (pstClass : E → Option C) (T : List E) (D : List B) (s : State B E C) : Prop where
  walked : Walked c T D
  counters : Counters c pstClass T s
  nodes : Nodes c T T D (data s.trees)
  linked : (∀ e, ¬ Adjacent c e) → Linked s.trees
  reversed : ∀ a e, c.Canonical a e → Adjacent c e → e ∈ T → Reversed c s.trees a e

/-- What is left of a state when nodes are added and pointers are set. -/
structure Grows (trees trees' : List (PSTree B E C)) : Prop where
  keeps : Keeps (data trees) (data trees')
  pointers : Extends trees trees'

variable {trees trees' trees'' : List (PSTree B E C)} {a b : E} {v : B} {n : ℕ}

section

omit [DecidableEq B] [DecidableEq E] [DecidableEq C]

theorem Grows.refl (trees : List (PSTree B E C)) : Grows trees trees :=
  ⟨.refl _, .refl _⟩

theorem Grows.trans (h : Grows trees trees') (h' : Grows trees' trees'') : Grows trees trees'' :=
  ⟨h.keeps.trans h'.keeps, h.pointers.trans h'.pointers⟩

theorem Grows.within (h : Grows trees trees') (hv : Within c trees v n) : Within c trees' v n := by
  obtain ⟨r, hinner, hn⟩ := hv
  exact ⟨r, hinner, h.keeps.nodeOf hn⟩

theorem Grows.reversed (h : Grows trees trees') (hrev : Reversed c trees a e) : Reversed c trees' a e := by
  obtain ⟨r, n, m, hn, hm, hr, hchild⟩ := hrev
  exact ⟨r, n, m, h.keeps.nodeOf hn, h.keeps.nodeOf hm, hr, h.pointers.child hchild⟩

theorem modifyData_grows (trees : List (PSTree B E C)) (n : ℕ) {f : SESERegion B E C → SESERegion B E C}
    (hf : ∀ g, (f g).entry = g.entry) : Grows trees (modifyData trees n f) := by
  refine ⟨?_, modifyData_extends _ _ _⟩
  unfold modifyData
  rw [data_modify trees n (g := f) fun _ => rfl]
  exact keeps_modify hf

end

/-- What following an edge does. -/
structure Followed (c : CFG B E) (pstClass : E → Option C) (T : List E) (D : List B) (s : State B E C) (e : E) (n : ℕ)
    (s' : State B E C) : Prop where
  built : Built c pstClass (e :: T) D s'
  grows : Grows s.trees s'.trees
  within : Within c s'.trees (c.target e) n
  dfsnum : s'.dfsnum = s.dfsnum

section Edge

variable (hc : c.WellFormed) (hconn : c.Connected) (h : Built c pstClass T D s) (he : c.Intra e) (heT : e ∉ T)
  (hsource : c.source e ∈ D) (hwithin : Within c s.trees (c.source e) subtree)

include hc hconn h he hsource hwithin

omit hc hconn hwithin in
/-- The counters and the blocks after a branch, with what it makes of the nodes. -/
theorem Built.followed (hcounters : Counters c pstClass (e :: T) s') (hnodes : Nodes c (e :: T) (e :: T) D (data s'.trees))
    (hlinked : (∀ e, ¬ Adjacent c e) → Linked s.trees → Linked s'.trees) (hgrows : Grows s.trees s'.trees)
    (hreversed : ∀ a, c.Canonical a e → Adjacent c e → Reversed c s'.trees a e) : Built c pstClass (e :: T) D s' where
  walked := h.walked.follow he hsource
  counters := hcounters
  nodes := hnodes
  linked := fun hadjacent => hlinked hadjacent (h.linked hadjacent)
  reversed := by
    intro a f hcanonical hadjacent hf
    rcases List.mem_cons.mp hf with rfl | hf
    · exact hreversed a hcanonical hadjacent
    · exact hgrows.reversed (h.reversed a f hcanonical hadjacent hf)

theorem Built.plain (hcounters : Counters c pstClass (e :: T) s') (hexit : ∀ a, ¬ c.Canonical a e)
    (hentry : ∀ b, ¬ c.Canonical e b) (htrees : s'.trees = s.trees) (hdfsnum : s'.dfsnum = s.dfsnum) :
    Followed c pstClass T D s e subtree s' := by
  have hgrows : Grows s.trees s'.trees := by
    rw [htrees]
    exact .refl _
  refine ⟨h.followed he hsource hcounters ?_ ?_ hgrows ?_, hgrows, ?_, hdfsnum⟩
  · rw [htrees]
    exact (h.nodes.exit_plain hexit).entry_plain hentry
  · rw [htrees]
    exact fun _ hlinked => hlinked
  · exact fun a hcanonical => absurd hcanonical (hexit a)
  · obtain ⟨r, hinner, hn⟩ := hwithin
    exact ⟨r, CFG.innermost_same hc hconn he hexit hentry hinner, hgrows.keeps.nodeOf hn⟩

include heT

omit he hsource hwithin in
/-- A region that an edge enters is new. -/
theorem Built.fresh (hab : c.Canonical e b) : b ∉ e :: T ∧ ∀ v ∈ D, ¬ c.Contains (some (e, b)) v := by
  constructor
  · rw [List.mem_cons, not_or]
    exact ⟨fun heq => hab.region.ne (congrArg some heq.symm), h.walked.exit_left hc hconn heT hab.region⟩
  · exact fun v hv hin => heT (h.walked.opened e b v hv hab.region (CFG.contains_some.mp hin))

theorem Built.enter (hcounters : Counters c pstClass (e :: T) s') (hexit : ∀ a, ¬ c.Canonical a e)
    (hab : c.Canonical e b)
    (htrees : s'.trees = prependChild (s.trees ++ [⟨.make e (some subtree) true cl, none, none⟩]) subtree s.trees.length)
    (hdfsnum : s'.dfsnum = s.dfsnum) : Followed c pstClass T D s e s.trees.length s' := by
  obtain ⟨r, hinner, hn⟩ := hwithin
  obtain ⟨hbT, hnew⟩ := h.fresh hc hconn heT hab
  have hlt : subtree < s.trees.length := by
    have hlt := h.nodes.lt_length hn
    unfold data at hlt
    rw [List.length_map] at hlt
    exact hlt
  have hdata : data s'.trees = data s.trees ++ [.make e (some subtree) true cl] := by
    rw [htrees, data_prependChild]
    unfold data
    rw [List.map_append]
    rfl
  have hgrows : Grows s.trees s'.trees := by
    constructor
    · rw [hdata]
      exact keeps_append _ _
    · rw [htrees]
      exact prependChild_extends hlt
  have hnodes : Nodes c (e :: T) (e :: T) D (data s'.trees) := by
    rw [hdata]
    exact (h.nodes.exit_plain hexit).append hc hconn hab heT hbT hn (CFG.encloses_of_enter hc hconn hab hexit hinner)
      hnew rfl rfl rfl
  refine ⟨h.followed he hsource hcounters hnodes ?_ hgrows ?_, hgrows, ?_, hdfsnum⟩
  · intro _ hlinked
    rw [htrees]
    refine hlinked.prependChild hlt ?_ rfl rfl
    intro n t m hn ht hm
    obtain ⟨-, -, -, -, -, -, r', m', hm', hmn, -⟩ := h.nodes.node n t.data hn (by rw [getElem?_data, ht]; rfl)
    rw [hm] at hm'
    cases hm'
    exact Nat.lt_trans hmn (List.getElem?_eq_some_iff.mp ht).1
  · exact fun a hcanonical => absurd hcanonical (hexit a)
  · refine ⟨_, CFG.innermost_target hc hconn hab, .node (Nat.ne_of_gt (Nat.zero_lt_of_lt hlt))
      (g := .make e (some subtree) true cl) ?_ rfl⟩
    rw [hdata]
    simp [data]

omit he heT hsource in
/-- The node before an edge that ends a region is the one of the region. -/
theorem Built.left_node (hab : c.Canonical a e) : NodeOf (data s.trees) (some (a, e)) subtree ∧
    ∃ t r m, s.trees[subtree]? = some t ∧ t.data.parent = some m ∧ NodeOf (data s.trees) r m ∧
      c.Encloses r (some (a, e)) := by
  obtain ⟨r, hinner, hn⟩ := hwithin
  cases hinner.unique hc hconn (CFG.innermost_source hc hconn hab)
  obtain ⟨g, hg, -, -, -, r', m, hm, -, hnode, hencloses⟩ := h.nodes.region hc hconn hab hn
  rw [getElem?_data] at hg
  obtain ⟨t, ht, rfl⟩ := Option.map_eq_some_iff.mp hg
  exact ⟨hn, t, r', m, ht, hm, hnode, hencloses⟩

omit hwithin in
theorem Built.move {m : ℕ} {r : Option (E × E)} (hcounters : Counters c pstClass (e :: T) s') (hab : c.Canonical a e)
    (hbe : c.Canonical e b) (hn : NodeOf (data s.trees) (some (a, e)) subtree) (hm : NodeOf (data s.trees) r m)
    (hr : c.Encloses r (some (a, e)))
    (htrees : appendChild ((modifyData s.trees subtree fun region => region.setExit e) ++
      [⟨.make e (some m) false cl, none, none⟩]) subtree m = some s'.trees)
    (hdfsnum : s'.dfsnum = s.dfsnum) : Followed c pstClass T D s e s.trees.length s' := by
  obtain ⟨hbT, hnew⟩ := h.fresh hc hconn heT hbe
  have hlength : (data s.trees).length = s.trees.length := List.length_map ..
  have hlt : subtree < s.trees.length := hlength ▸ h.nodes.lt_length hn
  have hset : Keeps (data s.trees) ((data s.trees).modify subtree fun g => g.setExit e) := keeps_modify fun _ => rfl
  have hdata : data s'.trees =
      ((data s.trees).modify subtree fun g => g.setExit e) ++ [.make e (some m) false cl] := by
    rw [data_appendChild htrees]
    unfold data
    rw [List.map_append]
    exact congrArg (· ++ [_]) (data_modify s.trees subtree fun _ => rfl)
  have hlt' : subtree < ((modifyData s.trees subtree fun region => region.setExit e) ++
      [PSTree.mk (.make e (some m) false cl) none none]).length := by
    unfold modifyData
    rw [List.length_append, List.length_modify]
    exact Nat.lt_add_right _ hlt
  obtain ⟨happended, hchild⟩ := appendChild_extends htrees hlt'
  have hgrows : Grows s.trees s'.trees := by
    constructor
    · rw [hdata]
      exact hset.trans (keeps_append _ _)
    · exact (modifyData_extends _ _ _).trans ((append_extends _ _).trans happended)
  have hnodes : Nodes c (e :: T) (e :: T) D (data s'.trees) := by
    rw [hdata]
    exact (h.nodes.exit_set hc hconn hab hn (f := fun g => g.setExit e) fun _ => ⟨rfl, rfl, rfl, rfl⟩).append hc hconn
      hbe heT hbT (hset.nodeOf hm) (hr.move hc hconn hab hbe) hnew rfl rfl rfl
  refine ⟨h.followed he hsource hcounters hnodes ?_ hgrows ?_, hgrows, ?_, hdfsnum⟩
  · exact fun hadjacent => absurd ⟨⟨a, hab⟩, b, hbe⟩ (hadjacent e)
  · intro a' hcanonical _
    rw [hcanonical.entry_unique hc hconn hab]
    exact ⟨r, subtree, m, hgrows.keeps.nodeOf hn, hgrows.keeps.nodeOf hm, hr, hchild⟩
  · refine ⟨_, CFG.innermost_target hc hconn hbe, .node (Nat.ne_of_gt (Nat.zero_lt_of_lt hlt))
      (g := .make e (some m) false cl) ?_ rfl⟩
    rw [hdata]
    simp [data]

omit heT hwithin in
theorem Built.leave {m : ℕ} {r : Option (E × E)} (hcounters : Counters c pstClass (e :: T) s') (hab : c.Canonical a e)
    (hentry : ∀ b, ¬ c.Canonical e b) (hn : NodeOf (data s.trees) (some (a, e)) subtree)
    (hm : NodeOf (data s.trees) r m) (hr : c.Encloses r (some (a, e)))
    (htrees : s'.trees =
      modifyData (modifyData s.trees subtree fun region => region.setExit e) subtree SESERegion.setLast)
    (hdfsnum : s'.dfsnum = s.dfsnum) : Followed c pstClass T D s e m s' := by
  have hgrows : Grows s.trees s'.trees := by
    rw [htrees]
    exact (modifyData_grows _ _ (f := fun region => region.setExit e) fun _ => rfl).trans
      (modifyData_grows _ _ (f := SESERegion.setLast) fun _ => rfl)
  have hdata : data s'.trees = (data s.trees).modify subtree fun g => (g.setExit e).setLast := by
    rw [htrees]
    unfold modifyData
    rw [data_modify _ _ (g := SESERegion.setLast) fun _ => rfl,
      data_modify _ _ (g := fun region => region.setExit e) fun _ => rfl, List.modify_modify_eq]
    rfl
  have hnodes : Nodes c (e :: T) (e :: T) D (data s'.trees) := by
    rw [hdata]
    exact (h.nodes.exit_set hc hconn hab hn (f := fun g => (g.setExit e).setLast)
      fun _ => ⟨rfl, rfl, rfl, rfl⟩).entry_plain hentry
  refine ⟨h.followed he hsource hcounters hnodes ?_ hgrows ?_, hgrows, ?_, hdfsnum⟩
  · intro _ hlinked
    rw [htrees]
    exact (hlinked.modifyData (f := fun region => region.setExit e) fun _ => rfl).modifyData
      (f := SESERegion.setLast) fun _ => rfl
  · rintro a' - ⟨-, b, hbe⟩
    exact absurd hbe (hentry b)
  · exact ⟨r, hr.leave hc hconn hab hentry, hgrows.keeps.nodeOf hm⟩

variable {classes : C → CEClass} (hexact : Exact c pstClass classes)

include hexact

omit [DecidableEq B] h hsource hwithin heT in
/-- An edge that bounds no region is alone in its class. -/
theorem Exact.alone (hexit : ∀ a, ¬ c.Canonical a e) (hentry : ∀ b, ¬ c.Canonical e b) {f : E} {cl : C} (hf : c.Intra f)
    (hne : f ≠ e) (hcl : pstClass f = some cl) : pstClass e ≠ some cl := by
  intro hcl'
  rcases hexact.region_of_class hc hconn hf he hne hcl hcl' with hregion | hregion
  · obtain ⟨a, ha⟩ := hregion.exists_entry (hconn.strong hc) CFG.edge_none
    cases a with
    | none => exact ha.region.entry_ne rfl
    | some a => exact hexit a ha
  · obtain ⟨b, hb⟩ := hregion.exists_exit (hconn.strong hc) CFG.edge_none
    cases b with
    | none => exact hb.region.exit_ne rfl
    | some b => exact hentry b hb

omit heT in
/-- An edge that bounds no region. -/
theorem Built.follow_plain (hexit : ∀ a, ¬ c.Canonical a e) (hentry : ∀ b, ¬ c.Canonical e b) :
    Followed c pstClass T D s e subtree { s with pstClass := Function.update s.pstClass e none } := by
  refine h.plain hc hconn he hsource hwithin ?_ hexit hentry rfl rfl
  refine h.counters.follow_other rfl ?_ rfl
  intro f cl hf hfT hcl
  exact hexact.alone hc hconn he hexit hentry hf (fun heq => hfT (heq ▸ List.mem_cons_self)) hcl

/-- Where an edge leads to, and that one that does not end and begin a region leads somewhere. -/
theorem Built.follow : (∀ n s', followEdge subtree e s = some (n, s') → Followed c pstClass T D s e n s') ∧
    (¬ Adjacent c e → ∃ r, followEdge subtree e s = some r) := by
  have hcurrent := h.counters.current e he heT
  cases hclass : pstClass e with
  | none =>
    have hexit : ∀ a, ¬ c.Canonical a e := by
      intro a ha
      obtain ⟨cl, -, hcl⟩ := hexact.class_of_region ha.region
      rw [hclass] at hcl
      cases hcl
    have hentry : ∀ b, ¬ c.Canonical e b := by
      intro b hb
      obtain ⟨cl, hcl, -⟩ := hexact.class_of_region hb.region
      rw [hclass] at hcl
      cases hcl
    rw [followEdge_plain fun cl hfound => by rw [hcurrent, hclass] at hfound; cases hfound]
    constructor
    · rintro n s' ⟨⟩
      exact h.follow_plain hc hconn he hsource hwithin hexact hexit hentry
    · exact fun _ => ⟨_, rfl⟩
  | some cl =>
    have hfound := hcurrent.trans hclass
    have hfirst_iff := h.counters.first_iff hc hconn hexact h.walked he heT hsource hclass
    have hlast_iff := h.counters.last_iff hc hconn hexact h.walked he heT hsource hclass
    have hdec : ∀ s' : State B E C, s'.pstClass = Function.update s.pstClass e none →
        s'.classes = Function.update s.classes cl (s.classes cl).dec → Counters c pstClass (e :: T) s' :=
      fun s' hpst hclasses => h.counters.follow_dec hc hconn he heT hpst hclass hclasses
    cases hfirst : (s.classes cl).isFirst with
    | true =>
      have hexit := hfirst_iff.mp hfirst
      cases hlast : (s.classes cl).isLast with
      | true =>
        have hentry := hlast_iff.mp hlast
        rw [followEdge_plain fun cl' hfound' => by
          rw [hfound] at hfound'
          cases hfound'
          exact ⟨hfirst, hlast⟩]
        constructor
        · rintro n s' ⟨⟩
          exact h.follow_plain hc hconn he hsource hwithin hexact hexit hentry
        · exact fun _ => ⟨_, rfl⟩
      | false =>
        obtain ⟨b, hb⟩ : ∃ b, c.Canonical e b := by
          by_contra hnone
          exact Bool.false_ne_true (hlast.symm.trans (hlast_iff.mpr fun b hb => hnone ⟨b, hb⟩))
        rw [followEdge_first hfound hfirst hlast]
        constructor
        · rintro n s' ⟨⟩
          exact h.enter hc hconn he heT hsource hwithin (hdec _ rfl rfl) hexit hb rfl rfl
        · exact fun _ => ⟨_, rfl⟩
    | false =>
      obtain ⟨a, ha⟩ : ∃ a, c.Canonical a e := by
        by_contra hnone
        exact Bool.false_ne_true (hfirst.symm.trans (hfirst_iff.mpr fun a ha => hnone ⟨a, ha⟩))
      obtain ⟨hn, t, r, m, ht, hparent, hm, hr⟩ := h.left_node hc hconn hwithin ha
      have hparent' : ((modifyData s.trees subtree fun region => region.setExit e)[subtree]?.bind
          fun tree => tree.data.parent) = some m := by
        rw [getElem?_modifyData, ht, Option.map_some, if_pos rfl]
        exact hparent
      cases hlast : (s.classes cl).isLast with
      | true =>
        have hentry := hlast_iff.mp hlast
        rw [followEdge_last hfound hfirst hlast hparent']
        constructor
        · rintro n s' ⟨⟩
          exact h.leave hc hconn he hsource (hdec _ rfl rfl) ha hentry hn hm hr rfl rfl
        · exact fun _ => ⟨_, rfl⟩
      | false =>
        obtain ⟨b, hb⟩ : ∃ b, c.Canonical e b := by
          by_contra hnone
          exact Bool.false_ne_true (hlast.symm.trans (hlast_iff.mpr fun b hb => hnone ⟨b, hb⟩))
        rw [followEdge_middle hfound hfirst hlast hparent']
        constructor
        · intro n s' hres
          obtain ⟨trees, htrees, heq⟩ := Option.map_eq_some_iff.mp hres
          cases heq
          exact h.move hc hconn he heT hsource (hdec _ rfl rfl) ha hb hn hm hr htrees rfl
        · exact fun hadjacent => absurd ⟨⟨a, ha⟩, b, hb⟩ hadjacent

end Edge

end Otawa.PSTBuilder
