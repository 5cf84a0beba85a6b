import Otawa.Cfg.Graph
import Otawa.Lib.Flowgraph

/-!
# Natural loops of a control flow graph

The blocks that some path leads to are the vertices of a flow graph, where a block dominates another one when
it is on every path to it. The loops of a graph are the natural loops of its flow graph.
-/

namespace Otawa.CFG

open Relation

variable {B E : Type}

/-- Only blocks that some path leads to have edges, and none of them goes back to the entry. An exit that
no path leads to, after a loop without end, has no edge. -/
structure Rooted (c : CFG B E) : Prop where
  reachable_source : ∀ {a b}, c.Flow a b → c.Reachable a
  entry_fresh : ∀ {a}, ¬ c.Flow a c.entry

theorem reachable_entry (c : CFG B E) : c.Reachable c.entry :=
  ⟨_, .entry⟩

/-- The flow graph of the blocks that some path leads to. -/
def flowgraph (c : CFG B E) : Flowgraph {b // c.Reachable b} where
  edge := fun a b => c.Flow a b
  root := ⟨c.entry, c.reachable_entry⟩
  reach := by
    rintro ⟨b, p, hpath⟩
    induction hpath with
    | entry => exact .refl
    | @step p a b hpath hflow ih => exact .tail ih hflow

variable {c : CFG B E}

/-- The paths to a block that miss another one. -/
theorem avoids_iff {d b : {b // c.Reachable b}} :
    c.flowgraph.Avoids d c.flowgraph.root b ↔ ∃ p, c.Path p b ∧ (d : B) ∉ p := by
  constructor
  · rintro ⟨hne, hpath⟩
    induction hpath with
    | refl =>
      exact ⟨_, .entry, fun hmem => hne (Subtype.ext (List.mem_singleton.mp hmem).symm)⟩
    | @tail a b _ hstep ih =>
      obtain ⟨p, hp, hnot⟩ := ih
      refine ⟨_, .step hp hstep.1, fun hmem => ?_⟩
      obtain heq | hmem := List.mem_cons.mp hmem
      · exact hstep.2 (Subtype.ext heq.symm)
      · exact hnot hmem
  · rintro ⟨p, hpath, hnot⟩
    obtain ⟨b, hb⟩ := b
    dsimp only at hpath
    induction hpath with
    | entry =>
      refine .refl fun heq => hnot ?_
      rw [← heq]
      exact List.mem_singleton_self _
    | @step p a b hpath hflow ih =>
      have hprefix := ih (fun hmem => hnot (List.mem_cons_of_mem b hmem)) ⟨p, hpath⟩
      refine hprefix.tail hflow fun heq => hnot ?_
      rw [← heq]
      exact List.mem_cons_self

/-- A block dominates the blocks that it is on every path to. -/
theorem dominates_iff {d b : {b // c.Reachable b}} : c.flowgraph.Dominates d b ↔ c.OnEveryPath d b := by
  rw [Flowgraph.Dominates, avoids_iff]
  constructor
  · intro hnone p hpath
    by_contra hnot
    exact hnone ⟨p, hpath, hnot⟩
  · rintro hevery ⟨p, hpath, hnot⟩
    exact hnot (hevery p hpath)

theorem OnEveryPath.trans {a b d : B} (hab : c.OnEveryPath a b) (hbd : c.OnEveryPath b d) : c.OnEveryPath a d := by
  intro p hpath
  obtain ⟨q, hq, hsuffix⟩ := hpath.prefix (hbd p hpath)
  exact hsuffix.subset (hab q hq)

/-- The block is in the natural loop of the header. -/
def InLoop (c : CFG B E) (h b : B) : Prop :=
  ∃ hh hb, c.flowgraph.Header ⟨h, hh⟩ ∧ c.flowgraph.InLoop ⟨h, hh⟩ ⟨b, hb⟩

/-- The edge leaves the natural loop of the header. -/
def Leaves (c : CFG B E) (h : B) (e : E) : Prop :=
  c.kind e ≠ .call ∧ c.InLoop h (c.source e) ∧ ¬ c.InLoop h (c.target e)

variable {b h k : B}

theorem InLoop.onEveryPath (hin : c.InLoop h b) : c.OnEveryPath h b := by
  obtain ⟨hh, hb, -, hin⟩ := hin
  exact dominates_iff.mp hin.dominates

theorem InLoop.reachable (hin : c.InLoop h b) : c.Reachable b := by
  obtain ⟨-, hb, -⟩ := hin
  exact hb

theorem InLoop.self (hin : c.InLoop h b) : c.InLoop h h := by
  obtain ⟨hh, -, hheader, -⟩ := hin
  exact ⟨hh, hh, hheader, Flowgraph.inLoop_self _⟩

theorem InLoop.antisymm (hk : c.InLoop h k) (hh : c.InLoop k h) : h = k := by
  obtain ⟨_, _, _, hk⟩ := hk
  obtain ⟨_, _, _, hh⟩ := hh
  exact congrArg Subtype.val (hk.antisymm hh)

/-- Of two loops that meet, the one whose header does not dominate the other one lies in the other one. -/
theorem InLoop.nested (hb : c.InLoop h b) (hb' : c.InLoop k b) (hnot : ¬ c.OnEveryPath k h) : c.InLoop h k := by
  obtain ⟨hh, _, hheader, hin⟩ := hb
  obtain ⟨hk, _, hheader', hin'⟩ := hb'
  obtain hnested | hnested := hin.nested hin'
  · exact ⟨hh, hk, hheader, hnested⟩
  · exact absurd (dominates_iff.mp hnested.dominates) hnot

/-- A block that reaches a loop in one step, and is not its header, is in the loop. -/
theorem InLoop.of_flow (hin : c.InLoop h b) {a : B} (hflow : c.Flow a b) (ha : c.Reachable a) (hne : b ≠ h) :
    c.InLoop h a := by
  obtain ⟨hh, hb, hheader, hin⟩ := hin
  have hedge : c.flowgraph.edge ⟨a, ha⟩ ⟨b, hb⟩ := hflow
  exact ⟨hh, ha, hheader, hin.of_edge hedge fun heq => hne (congrArg Subtype.val heq)⟩

/-- The source of a back edge is in the loop. -/
theorem inLoop_of_back {a : B} (hflow : c.Flow a h) (ha : c.Reachable a) (hevery : c.OnEveryPath h a) :
    c.InLoop h a := by
  have hback : c.flowgraph.Back ⟨a, ha⟩ ⟨h, ha.flow hflow⟩ := ⟨hflow, dominates_iff.mpr hevery⟩
  exact ⟨_, _, ⟨_, hback⟩, hback.inLoop⟩

/-- The other blocks of a loop reach a back edge through blocks of the loop that are not its header. -/
theorem InLoop.induction {motive : B → Prop}
    (back : ∀ a, a ≠ h → c.Flow a h → c.OnEveryPath h a → motive a)
    (step : ∀ a b, a ≠ h → c.Flow a b → motive b → motive a) (hin : c.InLoop h b) (hne : b ≠ h) : motive b := by
  obtain ⟨hh, hb, -, heq | ⟨a, hback, hne', hpath⟩⟩ := hin
  · exact absurd (congrArg Subtype.val heq) hne
  · have hlast : motive a := by
      refine back a (fun heq => ?_) hback.1 (dominates_iff.mp hback.2)
      exact Flowgraph.Avoids.target_ne ⟨hne', hpath⟩ (Subtype.ext heq)
    generalize hstart : (⟨b, hb⟩ : {b // c.Reachable b}) = start at hne' hpath
    have hgoal : motive start := by
      clear hstart
      induction hpath using ReflTransGen.head_induction_on with
      | refl => exact hlast
      | @head x y hxy _ ih =>
        exact step x y (fun heq => hne' (Subtype.ext heq)) hxy.1 (ih hxy.2)
    rw [← hstart] at hgoal
    exact hgoal

end Otawa.CFG
