import Otawa.Graph.PreorderIterator
import Mathlib.Algebra.Order.Ring.Int
import Mathlib.Data.Finset.Max
import Mathlib.Data.List.Range

/-!
# The cost of a parametric execution graph

`analyze` computes the delays of the nodes from the dates where the resources are available, by longest paths, and from
them the cost of a block: the greatest difference, over the resources, between the delays of the last node and of the
last node before the block. `analyze_bound`: the cost is a bound of the time between these nodes in every schedule.
-/

namespace Otawa

/-- `Resource`, with the nodes that `initDelays` finds for it: the node in the slot of a stage, or of the stage that
fills a queue, and the execution nodes of the instructions that use a register. -/
inductive Resource (V : Type) where
  | blockStart
  | stage (node : Option V) (index : ℤ)
  | queue (node : Option V) (uid : ℕ) (offset : ℤ)
  | reg (nodes : List V)
  | conflict
  deriving DecidableEq

namespace Resource

variable {V : Type}

def nodes (firstNode : V) : Resource V → List V
  | blockStart => [firstNode]
  | stage node _ => node.toList
  | queue node _ _ => node.toList
  | reg nodes => nodes
  | conflict => []

end Resource

/-- `ParExeEdge::edge_type_t`. -/
inductive ParExeEdge.EdgeType where
  | solid
  | slashed
  deriving DecidableEq

structure ParExeGraph (V E : Type) extends GenGraph V E where
  type : E → ParExeEdge.EdgeType
  edgeLatency : E → ℤ
  latency : V → ℤ
  resources : List (Resource V)
  firstNode : V
  lastPrologueNode : Option V
  lastNode : V
  numStages : ℤ

/-- The delays of the nodes with respect to the resources, which are known by their indexes. -/
abbrev Delays (V : Type) := V → ℕ → ℤ

namespace ParExeGraph

variable {V E : Type} [DecidableEq V]

def setDelay (d : Delays V) (node : V) (index : ℕ) (value : ℤ) : Delays V :=
  fun v r => if v = node ∧ r = index then value else d v r

def numResources (g : ParExeGraph V E) : ℕ :=
  g.resources.length

/-- The loop over the resources for one node. -/
def clearNode (g : ParExeGraph V E) (d : Delays V) (node : V) : Delays V :=
  fun v r => if v = node ∧ r < g.numResources then -1 else d v r

def clearDelays [Fintype V] (g : ParExeGraph V E) (d : Delays V) : Option (Delays V) :=
  (PreorderIterator.order g.toGenGraph g.firstNode).map fun nodes => nodes.foldl g.clearNode d

def initDelays (g : ParExeGraph V E) (d : Delays V) : Delays V :=
  g.resources.zipIdx.foldl (fun d res =>
    (res.1.nodes g.firstNode).foldl (fun d node => setDelay d node res.2 0) d) d

/-- The time between the dates of the two nodes of an edge. -/
def edgeTime (g : ParExeGraph V E) (e : E) : ℤ :=
  match g.type e with
  | .solid => g.latency (g.source e) + g.edgeLatency e
  | .slashed => 0

/-- The loop over the resources for one edge. -/
def propagateEdge (g : ParExeGraph V E) (d : Delays V) (e : E) : Delays V :=
  fun v r =>
    if v = g.target e ∧ r < g.numResources ∧ d (g.source e) r ≠ -1 ∧ d v r < d (g.source e) r + g.edgeTime e then
      d (g.source e) r + g.edgeTime e
    else d v r

def propagateNode (g : ParExeGraph V E) (d : Delays V) (node : V) : Delays V :=
  (g.outs node).foldl g.propagateEdge d

def propagate [Fintype V] (g : ParExeGraph V E) (d : Delays V) : Option (Delays V) :=
  (PreorderIterator.order g.toGenGraph g.firstNode).map fun nodes => nodes.foldl g.propagateNode d

def delta (g : ParExeGraph V E) (d : Delays V) (lastPrologueNode node : V) (res : Resource V) (r_id : ℕ) : ℤ :=
  if d node r_id < 0 then 0
  else if 0 ≤ d lastPrologueNode r_id then d node r_id - d lastPrologueNode r_id
  else
    let upper := d lastPrologueNode (g.numResources - 1)
    let upper_bound_on_res_avail := match res with
      | .stage _ index => upper + (g.numStages - index)
      | .queue _ u_id offset =>
        if 0 ≤ d lastPrologueNode u_id ∧ d lastPrologueNode u_id + offset < upper then d lastPrologueNode u_id + offset
        else upper
      | _ => upper
    d node r_id - upper_bound_on_res_avail

/-- A queue whose delay is not greater than the one of its bound is passed. -/
def passed (g : ParExeGraph V E) (d : Delays V) (res : Resource V) (r_id : ℕ) : Bool :=
  match res with
  | .queue _ u_id offset =>
    0 ≤ d g.lastNode r_id ∧ 0 ≤ d g.lastNode u_id ∧ d g.lastNode r_id ≤ d g.lastNode u_id + offset
  | _ => false

def cost (g : ParExeGraph V E) (d : Delays V) (lastPrologueNode : V) : Option ℤ :=
  g.resources.head?.map fun res₀ => g.resources.zipIdx.foldl (fun wcc res =>
    if res.1 = .blockStart then wcc
    else if g.passed d res.1 res.2 then wcc
    else if wcc < g.delta d lastPrologueNode g.lastNode res.1 res.2 then
      g.delta d lastPrologueNode g.lastNode res.1 res.2
    else wcc) (g.delta d lastPrologueNode g.lastNode res₀ 0)

/-- The delays of the nodes before are those of the last analysis, or not yet set. -/
def analyze [Fintype V] (g : ParExeGraph V E) (d : Delays V) : Option ℤ := do
  let d ← g.clearDelays d
  let d ← g.propagate (g.initDelays d)
  match g.lastPrologueNode with
  | some lastPrologueNode => g.cost d lastPrologueNode
  | none => some (d g.lastNode 0)

/-- The nodes that are initialised by a resource. -/
def Initial (g : ParExeGraph V E) (r : ℕ) (v : V) : Prop :=
  ∃ res, g.resources[r]? = some res ∧ v ∈ res.nodes g.firstNode

def Reaches (g : ParExeGraph V E) (r : ℕ) (v : V) : Prop :=
  ∃ u, g.Initial r u ∧ Relation.ReflTransGen g.Edge u v

/-- The graphs of the analysis: no cycles, no negative latencies, the start of the block as first resource only, and
queues that are bounded by a stage. -/
structure Execution (g : ParExeGraph V E) : Prop where
  acyclic : Topological.Acyclic g.Edge
  latency : ∀ v, 0 ≤ g.latency v
  edgeLatency : ∀ e, 0 ≤ g.edgeLatency e
  start : ∃ rest, g.resources = .blockStart :: rest ∧ .blockStart ∉ rest
  bound : ∀ (r uid : ℕ) (node : Option V) (offset : ℤ), g.resources[r]? = some (Resource.queue node uid offset) →
    ∃ (n : Option V) (index : ℤ), g.resources[uid]? = some (Resource.stage n index)

/-- The dates where the resources are available and the nodes start. -/
structure Schedule (g : ParExeGraph V E) (avail : ℕ → ℤ) (date : V → ℤ) : Prop where
  initial : ∀ r v, g.Initial r v → avail r ≤ date v
  edge : ∀ e, date (g.source e) + g.edgeTime e ≤ date (g.target e)

/-- The least dates. -/
structure Starts (g : ParExeGraph V E) (avail : ℕ → ℤ) (date : V → ℤ) : Prop extends Schedule g avail date where
  least : ∀ date', Schedule g avail date' → ∀ v, date v ≤ date' v

/-- A queue is available no later than the resource that bounds it, by the offset. -/
def Bounded (g : ParExeGraph V E) (avail : ℕ → ℤ) : Prop :=
  ∀ (r uid : ℕ) (node : Option V) (offset : ℤ), g.resources[r]? = some (Resource.queue node uid offset) →
    avail r + offset ≤ avail uid

variable {g : ParExeGraph V E} {d d₀ : Delays V} {u v : V} {r : ℕ} {e : E} {avail : ℕ → ℤ} {date : V → ℤ}

/-! ### The delays before the propagation -/

theorem clear_apply (nodes : List V) (d : Delays V) (v : V) (r : ℕ) :
    nodes.foldl g.clearNode d v r = if v ∈ nodes ∧ r < g.numResources then -1 else d v r := by
  induction nodes generalizing d with
  | nil => simp
  | cons node nodes ih =>
    rw [List.foldl_cons, ih]
    by_cases hv : v = node <;> by_cases hr : r < g.numResources <;> simp [clearNode, hv, hr]

theorem setDelays_apply (nodes : List V) (index : ℕ) (d : Delays V) (v : V) (r : ℕ) :
    nodes.foldl (fun d node => setDelay d node index 0) d v r = if v ∈ nodes ∧ r = index then 0 else d v r := by
  induction nodes generalizing d with
  | nil => simp
  | cons node nodes ih =>
    rw [List.foldl_cons, ih]
    by_cases hv : v = node <;> by_cases hr : r = index <;> simp [setDelay, hv, hr]

open Classical in
theorem initDelays_apply (g : ParExeGraph V E) (d : Delays V) (v : V) (r : ℕ) :
    g.initDelays d v r = if g.Initial r v then 0 else d v r := by
  suffices h : ∀ (l : List (Resource V)) (k : ℕ) (d : Delays V),
      (l.zipIdx k).foldl (fun d res => (res.1.nodes g.firstNode).foldl (fun d node => setDelay d node res.2 0) d) d v r =
        if ∃ i res, r = k + i ∧ l[i]? = some res ∧ v ∈ res.nodes g.firstNode then 0 else d v r by
    rw [initDelays, h]
    refine if_congr ?_ rfl rfl
    simp [Initial]
  intro l
  induction l with
  | nil =>
    intro k d
    simp
  | cons res l ih =>
    intro k d
    have hcons : (∃ i res', r = k + i ∧ (res :: l)[i]? = some res' ∧ v ∈ res'.nodes g.firstNode) ↔
        (v ∈ res.nodes g.firstNode ∧ r = k) ∨
          ∃ i res', r = k + 1 + i ∧ l[i]? = some res' ∧ v ∈ res'.nodes g.firstNode := by
      constructor
      · rintro ⟨i, res', hr, hres, hv⟩
        cases i with
        | zero =>
          rw [List.getElem?_cons_zero, Option.some.injEq] at hres
          exact .inl ⟨hres ▸ hv, hr⟩
        | succ i => exact .inr ⟨i, res', by rw [hr, Nat.add_assoc, Nat.add_comm 1 i], hres, hv⟩
      · rintro (⟨hv, hr⟩ | ⟨i, res', hr, hres, hv⟩)
        · exact ⟨0, res, hr, rfl, hv⟩
        · exact ⟨i + 1, res', by rw [hr, Nat.add_assoc, Nat.add_comm 1 i], hres, hv⟩
    rw [List.zipIdx_cons, List.foldl_cons, ih, setDelays_apply, if_congr hcons rfl rfl]
    split
    case isTrue hlater => rw [if_pos (.inr hlater)]
    case isFalse hlater => exact if_congr (or_iff_left hlater).symm rfl rfl

/-! ### The propagation -/

theorem propagateEdge_of_ne (h : v ≠ g.target e) : g.propagateEdge d e v = d v := by
  funext r
  exact if_neg fun hcond => h hcond.1

theorem le_propagateEdge (g : ParExeGraph V E) (d : Delays V) (e : E) (v : V) (r : ℕ) :
    d v r ≤ g.propagateEdge d e v r := by
  unfold propagateEdge
  split
  case isTrue h => exact h.2.2.2.le
  case isFalse => exact le_refl _

theorem edge_propagateEdge (hr : r < g.numResources) (hd : d (g.source e) r ≠ -1) :
    d (g.source e) r + g.edgeTime e ≤ g.propagateEdge d e (g.target e) r := by
  unfold propagateEdge
  split
  case isTrue => exact le_refl _
  case isFalse h => exact not_lt.mp fun hlt => h ⟨rfl, hr, hd, hlt⟩

theorem le_propagateNode (g : ParExeGraph V E) (d : Delays V) (u v : V) (r : ℕ) : d v r ≤ g.propagateNode d u v r := by
  unfold propagateNode
  generalize g.outs u = es
  induction es generalizing d with
  | nil => exact le_refl _
  | cons e es ih => exact (le_propagateEdge g d e v r).trans (ih _)

theorem propagateNode_of_not (h : ¬ g.Edge u v) : g.propagateNode d u v = d v := by
  unfold propagateNode
  have hes : ∀ e ∈ g.outs u, v ≠ g.target e := fun e he heq => h ⟨e, g.mem_outs.mp he, heq.symm⟩
  revert hes
  generalize g.outs u = es
  intro hes
  induction es generalizing d with
  | nil => rfl
  | cons e es ih =>
    rw [List.foldl_cons, ih fun e' he' => hes e' (List.mem_cons_of_mem e he')]
    exact propagateEdge_of_ne (hes e List.mem_cons_self)

theorem edge_propagateNode (hself : ¬ g.Edge u u) (hsource : g.source e = u) (hr : r < g.numResources)
    (hd : d u r ≠ -1) : d u r + g.edgeTime e ≤ g.propagateNode d u (g.target e) r := by
  have hmem : e ∈ g.outs u := g.mem_outs.mpr hsource
  have hes : ∀ e ∈ g.outs u, g.source e = u ∧ u ≠ g.target e := fun e he =>
    ⟨g.mem_outs.mp he, fun heq => hself ⟨e, g.mem_outs.mp he, heq.symm⟩⟩
  unfold propagateNode
  revert hmem hes
  generalize g.outs u = es
  intro hmem hes
  induction es generalizing d with
  | nil => exact absurd hmem List.not_mem_nil
  | cons e' es ih =>
    obtain ⟨hsource', hne⟩ := hes e' List.mem_cons_self
    have hsame : g.propagateEdge d e' u = d u := propagateEdge_of_ne hne
    rw [List.foldl_cons]
    rcases List.mem_cons.mp hmem with rfl | hmem
    · have hedge : d u r + g.edgeTime e ≤ g.propagateEdge d e (g.target e) r := by
        rw [← hsource] at hd ⊢
        exact edge_propagateEdge hr hd
      refine hedge.trans ?_
      generalize g.propagateEdge d e = d'
      clear ih hes hmem
      induction es generalizing d' with
      | nil => exact le_refl _
      | cons e' es ih => exact (le_propagateEdge g d' e' _ r).trans (ih _)
    · have hrest := ih (d := g.propagateEdge d e') (by rw [hsame]; exact hd) hmem
        fun e'' he'' => hes e'' (List.mem_cons_of_mem e' he'')
      rwa [hsame] at hrest

/-- The delays are those of paths: each is a time after the date where the resource is available. -/
structure Justified (g : ParExeGraph V E) (d : Delays V) : Prop where
  lower : ∀ v, ∀ r < g.numResources, -1 ≤ d v r
  reached : ∀ v, ∀ r < g.numResources, d v r ≠ -1 → g.Reaches r v
  dated : ∀ avail date, Schedule g avail date → ∀ v, ∀ r < g.numResources, d v r ≠ -1 → avail r + d v r ≤ date v

omit [DecidableEq V] in
theorem edgeTime_nonneg (hlatency : ∀ v, 0 ≤ g.latency v) (hedge : ∀ e, 0 ≤ g.edgeLatency e) (e : E) :
    0 ≤ g.edgeTime e := by
  unfold edgeTime
  cases g.type e with
  | solid => exact add_nonneg (hlatency _) (hedge e)
  | slashed => exact le_refl _

theorem Justified.propagateEdge (hd : Justified g d) (e : E) : Justified g (g.propagateEdge d e) := by
  have hcases : ∀ v r, g.propagateEdge d e v r = d v r ∨ (v = g.target e ∧ r < g.numResources ∧
      d (g.source e) r ≠ -1 ∧ g.propagateEdge d e v r = d (g.source e) r + g.edgeTime e) := by
    intro v r
    unfold ParExeGraph.propagateEdge
    split
    case isTrue h => exact .inr ⟨h.1, h.2.1, h.2.2.1, rfl⟩
    case isFalse => exact .inl rfl
  constructor
  · intro v r hr
    exact (hd.lower v r hr).trans (le_propagateEdge g d e v r)
  · intro v r hr hne
    rcases hcases v r with hold | ⟨rfl, -, hsource, -⟩
    · exact hd.reached v r hr (hold ▸ hne)
    · obtain ⟨u, hinit, hpath⟩ := hd.reached _ r hr hsource
      exact ⟨u, hinit, hpath.tail ⟨e, rfl, rfl⟩⟩
  · intro avail date hsched v r hr hne
    rcases hcases v r with hold | ⟨rfl, -, hsource, hnew⟩
    · rw [hold] at hne ⊢
      exact hd.dated avail date hsched v r hr hne
    · rw [hnew, ← add_assoc]
      exact (add_le_add_left (hd.dated avail date hsched _ r hr hsource) _).trans (hsched.edge e)

theorem Justified.propagateNode (hd : Justified g d) (u : V) : Justified g (g.propagateNode d u) := by
  unfold ParExeGraph.propagateNode
  generalize g.outs u = es
  induction es generalizing d with
  | nil => exact hd
  | cons e es ih => exact ih (hd.propagateEdge e)

theorem Justified.propagateAll (hd : Justified g d) (nodes : List V) :
    Justified g (nodes.foldl g.propagateNode d) := by
  induction nodes generalizing d with
  | nil => exact hd
  | cons u nodes ih => exact ih (hd.propagateNode u)

theorem le_propagateAll (nodes : List V) (d : Delays V) (v : V) (r : ℕ) :
    d v r ≤ nodes.foldl g.propagateNode d v r := by
  induction nodes generalizing d with
  | nil => exact le_refl _
  | cons u nodes ih => exact (le_propagateNode g d u v r).trans (ih _)

/-- What is known of the delays after the propagation. -/
structure Propagated (g : ParExeGraph V E) (d : Delays V) : Prop extends Justified g d where
  initial : ∀ v, ∀ r < g.numResources, g.Initial r v → 0 ≤ d v r
  edge : ∀ e, ∀ r < g.numResources, d (g.source e) r ≠ -1 → d (g.source e) r + g.edgeTime e ≤ d (g.target e) r

variable [Fintype V]

theorem propagate_spec (hacyclic : Topological.Acyclic g.Edge)
    (hreach : ∀ v, Relation.ReflTransGen g.Edge g.firstNode v) (d : Delays V) :
    ∃ d₁ d₂, g.clearDelays d = some d₁ ∧ g.propagate (g.initDelays d₁) = some d₂ ∧ Propagated g d₂ := by
  classical
  obtain ⟨nodes, horder, -, hforward, hall⟩ := PreorderIterator.order_spec g.toGenGraph g.firstNode hacyclic hreach
  have hclear : ∀ v, ∀ r < g.numResources, nodes.foldl g.clearNode d v r = -1 := fun v r hr => by
    rw [clear_apply, if_pos ⟨hall v, hr⟩]
  set d₁ := nodes.foldl g.clearNode d with hd₁
  have hinit : ∀ v, ∀ r < g.numResources, g.initDelays d₁ v r = if g.Initial r v then 0 else -1 := fun v r hr => by
    rw [initDelays_apply, hclear v r hr]
  have hjust : Justified g (g.initDelays d₁) := by
    have hcases : ∀ v, ∀ r < g.numResources, g.initDelays d₁ v r ≠ -1 → g.Initial r v ∧ g.initDelays d₁ v r = 0 := by
      intro v r hr hne
      rw [hinit v r hr] at hne ⊢
      split at hne
      case isTrue h => exact ⟨h, if_pos h⟩
      case isFalse => exact absurd rfl hne
    constructor
    · intro v r hr
      rw [hinit v r hr]
      split <;> decide
    · intro v r hr hne
      exact ⟨v, (hcases v r hr hne).1, Relation.ReflTransGen.refl⟩
    · intro avail date hsched v r hr hne
      obtain ⟨hinitial, hzero⟩ := hcases v r hr hne
      rw [hzero, add_zero]
      exact hsched.initial r v hinitial
  refine ⟨d₁, nodes.foldl g.propagateNode (g.initDelays d₁), ?_, ?_, ?_⟩
  · rw [clearDelays, horder, Option.map_some]
  · rw [propagate, horder, Option.map_some]
  · refine ⟨hjust.propagateAll nodes, fun v r hr hinitial => ?_, fun e => ?_⟩
    · refine le_trans ?_ (le_propagateAll nodes _ v r)
      rw [hinit v r hr, if_pos hinitial]
    · -- the delays of a node do not change after its visit
      refine @Topological.foldl_rel V (Delays V) (ℕ → ℤ) g.Edge g.propagateNode (fun d v => d v) nodes
        (fun u v x y => ∀ e, g.source e = u → g.target e = v → ∀ r < g.numResources, x r ≠ -1 →
          x r + g.edgeTime e ≤ y r) (fun d u v hnot => propagateNode_of_not hnot) ?_ ?_ hforward (g.initDelays d₁)
        (g.source e) (hall _) (g.target e) ⟨e, rfl, rfl⟩ e rfl rfl
      · rintro d u v - e hsource rfl r hr hne
        have hsame : g.propagateNode d u u = d u := propagateNode_of_not (hacyclic.not_self u)
        rw [hsame] at hne ⊢
        exact edge_propagateNode (hacyclic.not_self u) hsource hr hne
      · intro d b u v x hx e hsource htarget r hr hne
        exact (hx e hsource htarget r hr hne).trans (le_propagateNode g d b v r)

/-! ### Dates -/

section

omit [DecidableEq V] [Fintype V]

theorem Execution.initial_start (hg : g.Execution) : g.Initial 0 g.firstNode := by
  obtain ⟨rest, hrest, -⟩ := hg.start
  exact ⟨.blockStart, by rw [hrest]; rfl, List.mem_cons_self⟩

theorem Execution.pos (hg : g.Execution) : 0 < g.numResources := by
  obtain ⟨rest, hrest, -⟩ := hg.start
  rw [numResources, hrest]
  exact Nat.succ_pos _

theorem Execution.edgeTime_nonneg (hg : g.Execution) (e : E) : 0 ≤ g.edgeTime e :=
  ParExeGraph.edgeTime_nonneg hg.latency hg.edgeLatency e

theorem Propagated.ne_of_reaches (hd : Propagated g d) (htime : ∀ e, 0 ≤ g.edgeTime e) (hr : r < g.numResources)
    (hreaches : g.Reaches r v) : d v r ≠ -1 := by
  obtain ⟨u, hinit, hpath⟩ := hreaches
  have hpos : 0 ≤ d v r := by
    induction hpath with
    | refl => exact hd.initial u r hr hinit
    | tail _ hedge ih =>
      obtain ⟨e, rfl, rfl⟩ := hedge
      have hne : d (g.source e) r ≠ -1 := fun heq => absurd ih (by rw [heq]; decide)
      exact (add_nonneg ih (htime e)).trans (hd.edge e r hr hne)
  exact fun heq => absurd hpos (by rw [heq]; decide)

/-- A node starts at the greatest of the dates that the resources give. -/
theorem Propagated.date_eq (hd : Propagated g d) (hg : g.Execution)
    (hreach : ∀ v, Relation.ReflTransGen g.Edge g.firstNode v) (hdate : Starts g avail date) (v : V) :
    ∃ r < g.numResources, d v r ≠ -1 ∧ date v = avail r + d v r := by
  classical
  have hbest : ∀ v, ∃ b < g.numResources, d v b ≠ -1 ∧
      ∀ r < g.numResources, d v r ≠ -1 → avail r + d v r ≤ avail b + d v b := by
    intro v
    have hnonempty : ((Finset.range g.numResources).filter fun r => d v r ≠ -1).Nonempty :=
      ⟨0, Finset.mem_filter.mpr ⟨Finset.mem_range.mpr hg.pos,
        hd.ne_of_reaches hg.edgeTime_nonneg hg.pos ⟨g.firstNode, hg.initial_start, hreach v⟩⟩⟩
    obtain ⟨b, hb, hmax⟩ := Finset.exists_max_image _ (fun r => avail r + d v r) hnonempty
    obtain ⟨hlt, hne⟩ := Finset.mem_filter.mp hb
    refine ⟨b, Finset.mem_range.mp hlt, hne, fun r hr hner => ?_⟩
    exact hmax r (Finset.mem_filter.mpr ⟨Finset.mem_range.mpr hr, hner⟩)
  choose best hlt hne hmax using hbest
  -- the greatest dates are a schedule
  have hsched : Schedule g avail fun v => avail (best v) + d v (best v) := by
    constructor
    · rintro r v ⟨res, hres, hv⟩
      have hr : r < g.numResources := (List.getElem?_eq_some_iff.mp hres).1
      have hpos := hd.initial v r hr ⟨res, hres, hv⟩
      refine (le_add_of_nonneg_right hpos).trans (hmax v r hr fun heq => ?_)
      exact absurd hpos (by rw [heq]; decide)
    · intro e
      have hb := hlt (g.source e)
      have hedge := hd.edge e _ hb (hne _)
      rw [add_assoc]
      refine (add_le_add_right hedge _).trans (hmax _ _ hb ?_)
      have hlower := hd.lower (g.source e) _ hb
      have hsource := hne (g.source e)
      have htime := hg.edgeTime_nonneg e
      omega
  refine ⟨best v, hlt v, hne v, le_antisymm (hdate.least _ hsched v) ?_⟩
  exact hd.dated avail date hdate.toSchedule v _ (hlt v) (hne v)

end

/-! ### The cost -/

omit [Fintype V] in
/-- The cost is at least the difference of each resource that is not passed. -/
theorem le_cost (hg : g.Execution) (lp : V) {res : Resource V} (hres : g.resources[r]? = some res)
    (hpassed : g.passed d res r = false) : ∃ wcc, g.cost d lp = some wcc ∧ g.delta d lp g.lastNode res r ≤ wcc := by
  obtain ⟨rest, hrest, hstart⟩ := hg.start
  set step : ℤ → Resource V × ℕ → ℤ := fun wcc res =>
    if res.1 = .blockStart then wcc
    else if g.passed d res.1 res.2 then wcc
    else if wcc < g.delta d lp g.lastNode res.1 res.2 then g.delta d lp g.lastNode res.1 res.2
    else wcc with hstep
  have hgrow : ∀ wcc res, wcc ≤ step wcc res := by
    intro wcc res
    rw [hstep]
    dsimp only
    split
    · exact le_refl _
    · split
      · exact le_refl _
      · split
        case isTrue hlt => exact hlt.le
        case isFalse => exact le_refl _
  have hfold : ∀ (l : List (Resource V × ℕ)) wcc, wcc ≤ l.foldl step wcc := by
    intro l
    induction l with
    | nil => exact fun _ => le_refl _
    | cons a l ih => exact fun wcc => (hgrow wcc a).trans (ih _)
  have hmem : ∀ (l : List (Resource V × ℕ)) wcc, (res, r) ∈ l → res ≠ .blockStart →
      g.delta d lp g.lastNode res r ≤ l.foldl step wcc := by
    intro l
    induction l with
    | nil => exact fun _ h => absurd h List.not_mem_nil
    | cons a l ih =>
      intro wcc hin hne
      rw [List.foldl_cons]
      rcases List.mem_cons.mp hin with rfl | hin
      · refine le_trans ?_ (hfold l _)
        rw [hstep]
        dsimp only
        rw [if_neg hne, hpassed, if_neg Bool.false_ne_true]
        split
        case isTrue => exact le_refl _
        case isFalse hlt => exact not_lt.mp hlt
      · exact ih _ hin hne
  have hhead : g.resources.head? = some .blockStart := by
    rw [hrest]
    rfl
  refine ⟨_, by rw [cost, hhead, Option.map_some], ?_⟩
  by_cases hne : res = .blockStart
  · -- the start of the block is the first resource only
    have hr : r = 0 := by
      rw [hrest] at hres
      cases r with
      | zero => rfl
      | succ r =>
        rw [List.getElem?_cons_succ] at hres
        exact absurd (hne ▸ List.mem_of_getElem? hres) hstart
    rw [hr, hne]
    exact hfold _ _
  · exact hmem _ _ (List.mk_mem_zipIdx_iff_getElem?.mpr hres) hne

/-- The cost is a bound of the time between the last node before the block and the last node, when the first node reaches
all nodes. -/
theorem analyze_bound (g : ParExeGraph V E) (d : Delays V) (lp : V) (avail : ℕ → ℤ) (date : V → ℤ) (hg : g.Execution)
    (hreach : ∀ v, Relation.ReflTransGen g.Edge g.firstNode v) (hlp : g.lastPrologueNode = some lp)
    (hdepends : ∀ r, g.Reaches r g.lastNode → g.Reaches r lp) (hbounded : Bounded g avail)
    (hdate : Starts g avail date) : ∃ wcc, g.analyze d = some wcc ∧ date g.lastNode - date lp ≤ wcc := by
  obtain ⟨d₁, d₂, hclear, hpropagate, hd⟩ := propagate_spec hg.acyclic hreach d
  have hanalyze : g.analyze d = g.cost d₂ lp := by
    unfold analyze
    rw [hclear]
    change (g.propagate (g.initDelays d₁) >>= _) = _
    rw [hpropagate, hlp]
    rfl
  -- a resource that gives the date of the last node and is not passed
  obtain ⟨r, res, hres, hpassed, hne, hlast⟩ : ∃ r res, g.resources[r]? = some res ∧ g.passed d₂ res r = false ∧
      d₂ g.lastNode r ≠ -1 ∧ date g.lastNode ≤ avail r + d₂ g.lastNode r := by
    obtain ⟨r, hr, hne, hlast⟩ := hd.date_eq hg hreach hdate g.lastNode
    have hres : g.resources[r]? = some g.resources[r] := List.getElem?_eq_getElem hr
    cases hpassed : g.passed d₂ g.resources[r] r with
    | false => exact ⟨r, _, hres, hpassed, hne, hlast.le⟩
    | true =>
      cases hkind : g.resources[r] with
      | queue node uid offset =>
        rw [hkind] at hpassed hres
        obtain ⟨-, hpos, hle⟩ := of_decide_eq_true hpassed
        obtain ⟨n, index, huid⟩ := hg.bound r uid node offset hres
        have havail := hbounded r uid node offset hres
        refine ⟨uid, _, huid, rfl, fun heq => ?_, ?_⟩
        · rw [heq] at hpos
          exact absurd hpos (by decide)
        · omega
      | _ =>
        rw [hkind] at hpassed
        exact absurd hpassed Bool.false_ne_true
  have hr : r < g.numResources := (List.getElem?_eq_some_iff.mp hres).1
  have hnelp : d₂ lp r ≠ -1 := hd.ne_of_reaches hg.edgeTime_nonneg hr (hdepends r (hd.reached _ r hr hne))
  have hlower := hd.lower g.lastNode r hr
  have hlowerlp := hd.lower lp r hr
  have hdatelp := hd.dated avail date hdate.toSchedule lp r hr hnelp
  obtain ⟨wcc, hcost, hle⟩ := le_cost hg lp hres hpassed
  refine ⟨wcc, hanalyze.trans hcost, le_trans ?_ hle⟩
  have hdelta : g.delta d₂ lp g.lastNode res r = d₂ g.lastNode r - d₂ lp r := by
    rw [delta, if_neg (by omega), if_pos (by omega)]
  rw [hdelta]
  omega

/-- One instruction before the block and one in it. -/
def straight : ParExeGraph Bool Unit where
  source _ := false
  target _ := true
  outs v := if v then [] else [()]
  ins v := if v then [()] else []
  mem_outs := by
    intro v e
    cases v <;> simp
  mem_ins := by
    intro v e
    cases v <;> simp
  type _ := .solid
  edgeLatency _ := 2
  latency _ := 1
  resources := [.blockStart]
  firstNode := false
  lastPrologueNode := some false
  lastNode := true
  numStages := 1

theorem analyze_bound_straight :
    ∃ wcc, straight.analyze (fun _ _ => 0) = some wcc ∧ 3 - 0 ≤ wcc := by
  have hinitial : ∀ r v, straight.Initial r v → r = 0 ∧ v = false := by
    rintro r v ⟨res, hres, hv⟩
    cases r with
    | zero =>
      cases hres
      exact ⟨rfl, List.mem_singleton.mp hv⟩
    | succ r => cases hres
  have hstart : straight.Initial 0 false := ⟨.blockStart, rfl, List.mem_cons_self⟩
  have hedge : straight.Edge false true := ⟨(), rfl, rfl⟩
  have hsched : Schedule straight (fun _ => 0) fun v => if v then 3 else 0 :=
    ⟨fun r v h => by rw [(hinitial r v h).2]; decide, fun e => le_refl _⟩
  refine analyze_bound straight (fun _ _ => 0) false (fun _ => 0) (fun v => if v then 3 else 0)
    ⟨?_, fun v => zero_le_one, fun e => zero_le_two, ⟨[], rfl, List.not_mem_nil⟩, ?_⟩ ?_ rfl ?_ ?_ ⟨hsched, ?_⟩
  · apply Topological.Acyclic.of_rank fun v => if v then 1 else 0
    rintro u v ⟨e, rfl, rfl⟩
    exact Nat.zero_lt_one
  · intro r uid node offset h
    cases r with
    | zero => cases h
    | succ r => cases h
  · intro v
    cases v with
    | false => exact Relation.ReflTransGen.refl
    | true => exact Relation.ReflTransGen.single hedge
  · rintro r ⟨u, hinit, -⟩
    obtain ⟨rfl, rfl⟩ := hinitial r u hinit
    exact ⟨false, hstart, Relation.ReflTransGen.refl⟩
  · intro r uid node offset h
    cases r with
    | zero => cases h
    | succ r => cases h
  · intro date' h v
    have hfalse := h.initial 0 false hstart
    have htrue := h.edge ()
    cases v with
    | false => exact hfalse
    | true => exact (add_le_add_left hfalse 3).trans htrue

/-- The nodes of `branched`: the node `other` is not reached from the first one. -/
inductive Node where
  | first
  | other
  | prologue
  | last
  deriving DecidableEq

instance : Fintype Node where
  elems := {.first, .other, .prologue, .last}
  complete := by
    intro v
    cases v <;> decide

inductive Arrow where
  | toPrologue
  | otherToPrologue
  | toLast
  | otherToLast
  deriving DecidableEq

/-- The last node starts a hundred cycles after a node that is available with a stage, and that the iterator does not
visit. -/
def branched : ParExeGraph Node Arrow where
  source
    | .toPrologue => .first
    | .otherToPrologue => .other
    | .toLast => .prologue
    | .otherToLast => .other
  target
    | .toPrologue => .prologue
    | .otherToPrologue => .prologue
    | .toLast => .last
    | .otherToLast => .last
  outs
    | .first => [.toPrologue]
    | .other => [.otherToPrologue, .otherToLast]
    | .prologue => [.toLast]
    | .last => []
  ins
    | .first => []
    | .other => []
    | .prologue => [.toPrologue, .otherToPrologue]
    | .last => [.toLast, .otherToLast]
  mem_outs := by
    intro v e
    cases v <;> cases e <;> simp
  mem_ins := by
    intro v e
    cases v <;> cases e <;> simp
  type
    | .otherToLast => .solid
    | _ => .slashed
  edgeLatency
    | .otherToLast => 100
    | _ => 0
  latency _ := 0
  resources := [.blockStart, .stage (some .other) 0]
  firstNode := .first
  lastPrologueNode := some .prologue
  lastNode := .last
  numStages := 1

/-- The least dates of `branched` when both resources are available at 0. -/
def branchedDate : Node → ℤ
  | .last => 100
  | _ => 0

theorem unvisited_node :
    branched.Execution ∧ (∀ r, branched.Reaches r .last → branched.Reaches r .prologue) ∧
      Bounded branched (fun _ => 0) ∧ Starts branched (fun _ => 0) branchedDate ∧
      branched.analyze (fun _ _ => -1) = some 0 ∧ branchedDate .last - branchedDate .prologue = 100 := by
  have hinitial : ∀ r v, branched.Initial r v → (r = 0 ∧ v = .first) ∨ (r = 1 ∧ v = .other) := by
    rintro r v ⟨res, hres, hv⟩
    match r, hres with
    | 0, hres =>
      cases hres
      exact .inl ⟨rfl, List.mem_singleton.mp hv⟩
    | 1, hres =>
      cases hres
      exact .inr ⟨rfl, List.mem_singleton.mp hv⟩
  have hqueue : ∀ (r uid : ℕ) (node : Option Node) (offset : ℤ),
      branched.resources[r]? ≠ some (Resource.queue node uid offset) := by
    intro r uid node offset h
    match r, h with
    | 0, h => cases h
    | 1, h => cases h
  have hedge : ∀ e, branched.Edge (branched.source e) (branched.target e) := fun e => ⟨e, rfl, rfl⟩
  refine ⟨⟨?_, fun _ => le_refl _, ?_, ⟨[.stage (some .other) 0], rfl, by decide⟩, ?_⟩, ?_, ?_, ⟨⟨?_, ?_⟩, ?_⟩, ?_, rfl⟩
  · apply Topological.Acyclic.of_rank fun v : Node => match v with
      | .first => 0
      | .other => 1
      | .prologue => 2
      | .last => 3
    rintro u v ⟨e, rfl, rfl⟩
    cases e <;> decide
  · intro e
    cases e <;> decide
  · intro r uid node offset h
    exact absurd h (hqueue r uid node offset)
  · rintro r ⟨u, hinit, -⟩
    rcases hinitial r u hinit with ⟨rfl, rfl⟩ | ⟨rfl, rfl⟩
    · exact ⟨.first, hinit, .single (hedge .toPrologue)⟩
    · exact ⟨.other, hinit, .single (hedge .otherToPrologue)⟩
  · intro r uid node offset h
    exact absurd h (hqueue r uid node offset)
  · intro r v h
    rcases hinitial r v h with ⟨-, rfl⟩ | ⟨-, rfl⟩ <;> decide
  · intro e
    cases e <;> decide
  · intro date' h v
    have hfirst := h.initial 0 .first ⟨_, rfl, List.mem_cons_self⟩
    have hother := h.initial 1 .other ⟨_, rfl, List.mem_cons_self⟩
    cases v with
    | first => exact hfirst
    | other => exact hother
    | prologue => exact hfirst.trans ((add_zero _).symm.trans_le (h.edge .toPrologue))
    | last => exact (add_le_add_left hother 100).trans (h.edge .otherToLast)
  · decide

end ParExeGraph

end Otawa
