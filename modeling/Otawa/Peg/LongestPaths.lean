import Otawa.Peg.ParExeGraph

/-!
# Longest paths

`clearDelays`, `initDelays` and `propagate` find the longest paths from the nodes of each resource in one pass, because
the iterator gives a node after all its predecessors. `propagate_longest`: the delay of a node is the greatest time along
a path from a node of the resource, and -1 when there is no such path, whatever the delays before.
-/

namespace Otawa.ParExeGraph

variable {V E : Type}

/-- The paths from `u`, by the time along their edges. -/
inductive Along (g : ParExeGraph V E) (u : V) : V → ℤ → Prop where
  | refl : Along g u u 0
  | tail {t : ℤ} (e : E) : Along g u (g.source e) t → Along g u (g.target e) (t + g.edgeTime e)

/-- The times along the paths to a node from the nodes of a resource. -/
def pathTimes (g : ParExeGraph V E) (r : ℕ) (v : V) : Set ℤ :=
  { t | ∃ u, g.Initial r u ∧ Along g u v t }

/-- The delays are those of the longest paths. -/
structure Longest (g : ParExeGraph V E) (d : Delays V) : Prop where
  greatest : ∀ v, ∀ r < g.numResources, d v r ≠ -1 → IsGreatest (g.pathTimes r v) (d v r)
  unreached : ∀ v, ∀ r < g.numResources, d v r = -1 ↔ g.pathTimes r v = ∅

/-- The computation from the delays `d` ends with the longest paths, and its iterator goes through all the nodes once,
each after its predecessors. -/
structure FindsLongest [DecidableEq V] [Fintype V] (g : ParExeGraph V E) (d : Delays V) : Prop where
  order : ∃ nodes, PreorderIterator.order g.toGenGraph g.firstNode = some nodes ∧ nodes.Nodup ∧
    (nodes.Pairwise fun a b => ¬ g.Edge b a) ∧ ∀ v, v ∈ nodes
  delays : ∃ d₁ d₂, g.clearDelays d = some d₁ ∧ g.propagate (g.initDelays d₁) = some d₂ ∧ Longest g d₂

variable {g : ParExeGraph V E} {d : Delays V} {u v : V} {r : ℕ} {t : ℤ}

theorem Along.reaches (h : Along g u v t) : Relation.ReflTransGen g.Edge u v := by
  induction h with
  | refl => exact .refl
  | tail e _ ih => exact ih.tail ⟨e, rfl, rfl⟩

theorem exists_along (h : Relation.ReflTransGen g.Edge u v) : ∃ t, Along g u v t := by
  induction h with
  | refl => exact ⟨0, .refl⟩
  | tail _ hedge ih =>
    obtain ⟨e, rfl, rfl⟩ := hedge
    obtain ⟨t, ht⟩ := ih
    exact ⟨t + g.edgeTime e, .tail e ht⟩

theorem pathTimes_nonempty_iff : (g.pathTimes r v).Nonempty ↔ g.Reaches r v := by
  constructor
  · rintro ⟨t, u, hinit, halong⟩
    exact ⟨u, hinit, halong.reaches⟩
  · rintro ⟨u, hinit, hpath⟩
    obtain ⟨t, ht⟩ := exists_along hpath
    exact ⟨t, u, hinit, ht⟩

/-! ### The delays are those of paths -/

variable [DecidableEq V]

/-- Each delay that is set is the time along a path. -/
def Attained (g : ParExeGraph V E) (d : Delays V) : Prop :=
  ∀ v, ∀ r < g.numResources, d v r ≠ -1 → d v r ∈ g.pathTimes r v

theorem Attained.propagateEdge (hd : Attained g d) (e : E) : Attained g (g.propagateEdge d e) := by
  intro v r hr hne
  unfold ParExeGraph.propagateEdge at hne ⊢
  split at hne
  case isTrue hnew =>
    obtain ⟨rfl, -, hsource, -⟩ := id hnew
    rw [if_pos hnew]
    obtain ⟨u, hinit, halong⟩ := hd (g.source e) r hr hsource
    exact ⟨u, hinit, .tail e halong⟩
  case isFalse hold =>
    rw [if_neg hold]
    exact hd v r hr hne

theorem Attained.propagateNode (hd : Attained g d) (node : V) : Attained g (g.propagateNode d node) := by
  unfold ParExeGraph.propagateNode
  generalize g.outs node = es
  induction es generalizing d with
  | nil => exact hd
  | cons e es ih => exact ih (hd.propagateEdge e)

theorem Attained.propagateAll (hd : Attained g d) (nodes : List V) :
    Attained g (nodes.foldl g.propagateNode d) := by
  induction nodes generalizing d with
  | nil => exact hd
  | cons node nodes ih => exact ih (hd.propagateNode node)

theorem initDelays_attained (hd : ∀ v, ∀ r < g.numResources, d v r = -1) : Attained g (g.initDelays d) := by
  intro v r hr hne
  rw [initDelays_apply, hd v r hr] at hne ⊢
  split at hne
  case isTrue hinit =>
    rw [if_pos hinit]
    exact ⟨v, hinit, .refl⟩
  case isFalse => exact absurd rfl hne

/-! ### They are the greatest -/

omit [DecidableEq V] in
theorem Propagated.along (hd : Propagated g d) (htime : ∀ e, 0 ≤ g.edgeTime e) (hr : r < g.numResources)
    (hinit : g.Initial r u) (halong : Along g u v t) : t ≤ d v r := by
  induction halong with
  | refl => exact hd.initial u r hr hinit
  | @tail t e hpath ih =>
    have hne : d (g.source e) r ≠ -1 := hd.ne_of_reaches htime hr ⟨u, hinit, hpath.reaches⟩
    exact (add_le_add_left ih _).trans (hd.edge e r hr hne)

omit [DecidableEq V] in
theorem Propagated.longest (hd : Propagated g d) (hattained : Attained g d) (htime : ∀ e, 0 ≤ g.edgeTime e) :
    Longest g d where
  greatest v r hr hne := by
    refine ⟨hattained v r hr hne, ?_⟩
    rintro t ⟨u, hinit, halong⟩
    exact hd.along htime hr hinit halong
  unreached v r hr := by
    constructor
    · intro heq
      refine Set.not_nonempty_iff_eq_empty.mp fun hnonempty => ?_
      exact hd.ne_of_reaches htime hr (pathTimes_nonempty_iff.mp hnonempty) heq
    · intro hempty
      by_contra hne
      exact Set.notMem_empty _ (hempty ▸ hattained v r hr hne)

variable [Fintype V]

theorem propagate_longest (g : ParExeGraph V E) (hacyclic : Topological.Acyclic g.Edge) (hlatency : ∀ v, 0 ≤ g.latency v)
    (hedge : ∀ e, 0 ≤ g.edgeLatency e) (hreach : ∀ v, Relation.ReflTransGen g.Edge g.firstNode v) (d : Delays V) :
    FindsLongest g d := by
  obtain ⟨nodes, horder, hnodup, hforward, hall⟩ :=
    PreorderIterator.order_spec g.toGenGraph g.firstNode hacyclic hreach
  obtain ⟨d₁, d₂, hclear, hpropagate, hd⟩ := propagate_spec hacyclic hreach d
  refine ⟨⟨nodes, horder, hnodup, hforward, hall⟩, d₁, d₂, hclear, hpropagate, ?_⟩
  have hcleared : ∀ v, ∀ r < g.numResources, d₁ v r = -1 := by
    intro v r hr
    rw [clearDelays, horder, Option.map_some, Option.some.injEq] at hclear
    rw [← hclear, clear_apply, if_pos ⟨hall v, hr⟩]
  have hattained : Attained g d₂ := by
    rw [propagate, horder, Option.map_some, Option.some.injEq] at hpropagate
    exact hpropagate ▸ (initDelays_attained hcleared).propagateAll nodes
  exact hd.longest hattained (edgeTime_nonneg hlatency hedge)

theorem straight_longest : FindsLongest straight fun _ _ => 7 := by
  refine propagate_longest straight ?_ (fun _ => zero_le_one) (fun _ => zero_le_two) ?_ fun _ _ => 7
  · apply Topological.Acyclic.of_rank fun v => if v then 1 else 0
    rintro u v ⟨e, rfl, rfl⟩
    exact Nat.zero_lt_one
  · intro v
    cases v with
    | false => exact .refl
    | true => exact .single ⟨(), rfl, rfl⟩

/-- The path from the first node to the last one is not found: the iterator does not visit the prologue, which has
another predecessor that it does not visit. -/
theorem branched_not_longest :
    Topological.Acyclic branched.Edge ∧ (∀ v, 0 ≤ branched.latency v) ∧ (∀ e, 0 ≤ branched.edgeLatency e) ∧
      ¬ FindsLongest branched fun _ _ => -1 := by
  refine ⟨?_, fun _ => le_refl _, fun e => by cases e <;> decide, fun h => ?_⟩
  · apply Topological.Acyclic.of_rank Node.ctorIdx
    rintro u v ⟨e, rfl, rfl⟩
    cases e <;> decide
  · obtain ⟨d₁, d₂, hclear, hpropagate, hd⟩ := h.delays
    have horder : PreorderIterator.order branched.toGenGraph branched.firstNode = some [.first] := by decide
    rw [clearDelays, horder, Option.map_some, Option.some.injEq] at hclear
    rw [propagate, horder, Option.map_some, Option.some.injEq] at hpropagate
    have hdelay : d₂ .last 0 = -1 := by
      rw [← hpropagate, ← hclear]
      decide
    have hempty := (hd.unreached .last 0 (by decide)).mp hdelay
    have hpath : Along branched .first .last _ := .tail Arrow.toLast (.tail Arrow.toPrologue .refl)
    have hmem : (branched.pathTimes 0 .last).Nonempty :=
      ⟨_, .first, ⟨.blockStart, rfl, List.mem_cons_self⟩, hpath⟩
    exact Set.not_nonempty_iff_eq_empty.mpr hempty hmem

end Otawa.ParExeGraph
