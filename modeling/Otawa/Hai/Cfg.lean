import Otawa.Lib.Flowgraph

/-!
# Control flow graphs and their loop annotations

A `Cfg` is what the analysis reads of one CFG: its blocks and edges, less the CALL edges, which belong to
the program, and the annotations `Dominance::dominates`, `LOOP_HEADER`, `LOOP_EXIT_EDGE` and `EXIT_LIST`.
`Cfg.Consistent` says that the graph is reducible and that the annotations are those of its natural loops.
-/

namespace Otawa.HalfAbsInt

/-- A control flow graph over blocks `B` and edges `E`, with its annotations. -/
structure Cfg (B E : Type) where
  source : E → B
  target : E → B
  inEdges : B → List E
  outEdges : B → List E
  entry : B
  exit : B
  number : B → ℕ
  dominates : B → B → Bool
  loopHeader : B → Bool
  loopExitEdge : E → Option B
  exitList : B → List E

namespace Cfg

variable {B E : Type}

/-- `Dominance::dominates(edge->target(), edge->source())`. -/
def isBack (c : Cfg B E) (e : E) : Bool :=
  c.dominates (c.target e) (c.source e)

def Adjacent (c : Cfg B E) (a b : B) : Prop :=
  ∃ e, c.source e = a ∧ c.target e = b

/-- The flow graph of a CFG all of whose blocks are reachable. -/
def flow (c : Cfg B E) (reach : ∀ b, Relation.ReflTransGen c.Adjacent c.entry b) : Flowgraph B where
  edge := c.Adjacent
  root := c.entry
  reach := reach

/-- The edge leaves the natural loop of a header. -/
def Exits (c : Cfg B E) (G : Flowgraph B) (h : B) (e : E) : Prop :=
  c.loopHeader h = true ∧ G.InLoop h (c.source e) ∧ ¬ G.InLoop h (c.target e)

/-- The iterators list the edges of the graph, the graph is reducible, and the annotations are those of
its dominance relation and of its natural loops: `LOOP_EXIT_EDGE` is the header of the outermost loop an
edge leaves, and `EXIT_LIST` of a header has the edges annotated with it. -/
structure Consistent (c : Cfg B E) : Prop where
  mem_inEdges : ∀ e b, e ∈ c.inEdges b ↔ c.target e = b
  nodup_inEdges : ∀ b, (c.inEdges b).Nodup
  mem_outEdges : ∀ e b, e ∈ c.outEdges b ↔ c.source e = b
  nodup_outEdges : ∀ b, (c.outEdges b).Nodup
  reach : ∀ b, Relation.ReflTransGen c.Adjacent c.entry b
  entry_ne_exit : c.entry ≠ c.exit
  target_ne_entry : ∀ e, c.target e ≠ c.entry
  source_ne_exit : ∀ e, c.source e ≠ c.exit
  number_injective : Function.Injective c.number
  dominates_iff : ∀ a b, c.dominates a b = true ↔ (c.flow reach).Dominates a b
  loopHeader_iff : ∀ b, c.loopHeader b = true ↔ (c.flow reach).Header b
  reducible : (c.flow reach).Reducible
  loopExitEdge_some : ∀ e h, c.loopExitEdge e = some h →
    c.Exits (c.flow reach) h e ∧ ∀ k, c.Exits (c.flow reach) k e → (c.flow reach).InLoop h k
  loopExitEdge_none : ∀ e, c.loopExitEdge e = none → ∀ k, ¬ c.Exits (c.flow reach) k e
  mem_exitList : ∀ e h, e ∈ c.exitList h ↔ c.loopExitEdge e = some h
  nodup_exitList : ∀ h, (c.exitList h).Nodup

namespace Consistent

variable {c : Cfg B E} (hc : c.Consistent)

/-- The flow graph of a consistent CFG. -/
def graph (hc : c.Consistent) : Flowgraph B :=
  c.flow hc.reach

/-- The block is in the natural loop of `h`. -/
def InLoop (hc : c.Consistent) (h b : B) : Prop :=
  hc.graph.InLoop h b

variable {e : E} {a b h k : B}

include hc

theorem edge (e : E) : hc.graph.edge (c.source e) (c.target e) :=
  ⟨e, rfl, rfl⟩

theorem isBack_iff : c.isBack e = true ↔ hc.graph.Back (c.source e) (c.target e) :=
  ⟨fun hback => ⟨hc.edge e, (hc.dominates_iff _ _).mp hback⟩, fun hback => (hc.dominates_iff _ _).mpr hback.2⟩

theorem forward (hforward : c.isBack e = false) : hc.graph.Forward (c.source e) (c.target e) :=
  ⟨hc.edge e, fun hdom => by simp [isBack, (hc.dominates_iff _ _).mpr hdom] at hforward⟩

theorem loopHeader_target (hback : c.isBack e = true) : c.loopHeader (c.target e) = true :=
  (hc.loopHeader_iff _).mpr ⟨_, hc.isBack_iff.mp hback⟩

theorem exists_back (hheader : c.loopHeader h = true) : ∃ e, c.isBack e = true ∧ c.target e = h := by
  obtain ⟨_, hback⟩ := (hc.loopHeader_iff h).mp hheader
  obtain ⟨e, rfl, rfl⟩ := hback.1
  exact ⟨e, hc.isBack_iff.mpr hback, rfl⟩

theorem exists_forward (hne : b ≠ c.entry) : ∃ e, c.isBack e = false ∧ c.target e = b := by
  obtain ⟨_, hforward⟩ := Flowgraph.exists_forward (G := hc.graph) hne
  obtain ⟨e, rfl, rfl⟩ := hforward.1
  refine ⟨e, ?_, rfl⟩
  exact Bool.eq_false_iff.mpr fun hback => hforward.2 ((hc.dominates_iff _ _).mp hback)

theorem inEdges_entry : c.inEdges c.entry = [] :=
  List.eq_nil_iff_forall_not_mem.mpr fun e hmem => hc.target_ne_entry e ((hc.mem_inEdges e _).mp hmem)

theorem loopHeader_entry : c.loopHeader c.entry = false := by
  refine Bool.eq_false_iff.mpr fun hheader => ?_
  obtain ⟨e, -, htarget⟩ := hc.exists_back hheader
  exact hc.target_ne_entry e htarget

theorem inLoop_self (h : B) : hc.InLoop h h :=
  Flowgraph.inLoop_self h

theorem inLoop_source (hback : c.isBack e = true) : hc.InLoop (c.target e) (c.source e) :=
  (hc.isBack_iff.mp hback).inLoop

/-- A block that is no header makes a loop of its own. -/
theorem eq_of_inLoop (hheader : c.loopHeader h = false) (hin : hc.InLoop h b) : b = h := by
  obtain heq | ⟨a, hback, -⟩ := hin
  · exact heq
  · rw [(hc.loopHeader_iff h).mpr ⟨a, hback⟩] at hheader
    exact absurd hheader (by decide)

/-- The entry is in the loop of no other block. -/
theorem inLoop_entry (hin : hc.InLoop h c.entry) : h = c.entry := by
  by_contra hne
  exact Flowgraph.InLoop.dominates hin (.refl (Ne.symm hne))

variable {hc}

theorem InLoop.trans (hk : hc.InLoop h k) (hb : hc.InLoop k b) : hc.InLoop h b :=
  Flowgraph.InLoop.trans hk hb

theorem InLoop.antisymm (hk : hc.InLoop h k) (hh : hc.InLoop k h) : h = k :=
  Flowgraph.InLoop.antisymm hk hh

theorem InLoop.nested (hb : hc.InLoop h b) (hb' : hc.InLoop k b) : hc.InLoop h k ∨ hc.InLoop k h :=
  Flowgraph.InLoop.nested hb hb'

/-- A loop is entered by its header only. -/
theorem InLoop.source (hin : hc.InLoop h (c.target e)) (hne : c.target e ≠ h) : hc.InLoop h (c.source e) :=
  Flowgraph.InLoop.of_edge hin (hc.edge e) hne

/-- An edge from within a loop to its header is a back edge. -/
theorem InLoop.isBack (hin : hc.InLoop h (c.source e)) (htarget : c.target e = h) : c.isBack e = true := by
  subst htarget
  exact hc.isBack_iff.mpr (Flowgraph.InLoop.back hin (hc.edge e))

theorem InLoop.loopHeader (hin : hc.InLoop h b) (hne : b ≠ h) : c.loopHeader h = true := by
  by_contra hheader
  exact hne (hc.eq_of_inLoop (Bool.eq_false_iff.mpr hheader) hin)

theorem InLoop.forward_path (hin : hc.InLoop h b) (hne : b ≠ h) :
    Relation.TransGen hc.graph.Forward h b :=
  Flowgraph.InLoop.forward_path hin hne

variable (hc)

/-! ### Loop exit edges -/

section

variable (hexit : c.loopExitEdge e = some h)
include hexit

theorem exit_header : c.loopHeader h = true :=
  (hc.loopExitEdge_some e h hexit).1.1

theorem exit_source : hc.InLoop h (c.source e) :=
  (hc.loopExitEdge_some e h hexit).1.2.1

theorem exit_target : ¬ hc.InLoop h (c.target e) :=
  (hc.loopExitEdge_some e h hexit).1.2.2

/-- Every loop that the edge leaves is within the one it is annotated with. -/
theorem exit_outer (hin : hc.InLoop k (c.source e)) (hout : ¬ hc.InLoop k (c.target e)) : hc.InLoop h k := by
  by_cases hheader : c.loopHeader k = true
  · exact (hc.loopExitEdge_some e h hexit).2 k ⟨hheader, hin, hout⟩
  · rw [← hc.eq_of_inLoop (Bool.eq_false_iff.mpr hheader) hin]
    exact hc.exit_source hexit

end

/-- An edge without annotation stays in the loops of its source. -/
theorem stays (hexit : c.loopExitEdge e = none) (hheader : c.loopHeader k = true)
    (hin : hc.InLoop k (c.source e)) : hc.InLoop k (c.target e) :=
  not_not.mp fun hout => hc.loopExitEdge_none e hexit k ⟨hheader, hin, hout⟩

/-- The annotation of an edge that leaves a loop is outside the loop, or is its header. -/
theorem exit_of_leaves (hheader : c.loopHeader k = true) (hin : hc.InLoop k (c.source e))
    (hout : ¬ hc.InLoop k (c.target e)) : ∃ h, c.loopExitEdge e = some h ∧ hc.InLoop h k := by
  cases hexit : c.loopExitEdge e with
  | none => exact absurd (hc.stays hexit hheader hin) hout
  | some h => exact ⟨h, rfl, hc.exit_outer hexit hin hout⟩

end Consistent

end Cfg

end Otawa.HalfAbsInt
