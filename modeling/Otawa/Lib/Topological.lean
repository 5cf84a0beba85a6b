import Mathlib.Data.Fintype.EquivFin
import Mathlib.Order.WellFounded

/-!
# Passes over acyclic graphs

A list of vertices along which no edge goes backward, and what a pass leaves that visits them in this order and changes
the successors of the vertex it visits: each edge is as its source left it. A finite graph without cycles is well
founded.
-/

namespace Otawa.Topological

universe u v w

variable {V : Type u} {S : Type v} {α : Type w} {edge : V → V → Prop}

def Acyclic (edge : V → V → Prop) : Prop :=
  ∀ v, ¬ Relation.TransGen edge v v

theorem Acyclic.wellFounded [Finite V] (h : Acyclic edge) : WellFounded edge := by
  have hirrefl : Std.Irrefl (Relation.TransGen edge) := ⟨h⟩
  have htrans : WellFounded (Relation.TransGen edge) := Finite.wellFounded_of_trans_of_irrefl _
  exact Subrelation.wf Relation.TransGen.single htrans

/-- Finitely many vertices with successors are enough, from the successors to the vertices. -/
theorem Acyclic.wellFounded_swap (h : Acyclic edge) (sources : Finset V) (hsources : ∀ u v, edge u v → u ∈ sources) :
    WellFounded (Function.swap edge) := by
  have hsub : Acyclic fun u v : { u // u ∈ sources } => edge v u := by
    intro u hcycle
    have hswap : Relation.TransGen (Function.swap edge) u.1 u.1 := hcycle.lift Subtype.val fun _ _ hedge => hedge
    exact h u.1 (Relation.transGen_swap.mp hswap)
  have hleaf : ∀ v, v ∉ sources → Acc (Function.swap edge) v := fun v hv =>
    ⟨v, fun w hedge => absurd (hsources v w hedge) hv⟩
  have hinner : ∀ u : { u // u ∈ sources }, Acc (Function.swap edge) u.1 := by
    intro u
    induction u using hsub.wellFounded.induction with
    | _ u ih =>
      refine ⟨u.1, fun w hedge => ?_⟩
      by_cases hw : w ∈ sources
      · exact ih ⟨w, hw⟩ hedge
      · exact hleaf w hw
  refine ⟨fun v => ?_⟩
  by_cases hv : v ∈ sources
  · exact hinner ⟨v, hv⟩
  · exact hleaf v hv

theorem Acyclic.not_self (h : Acyclic edge) (v : V) : ¬ edge v v :=
  fun hedge => h v (.single hedge)

theorem Acyclic.of_rank (rank : V → ℕ) (h : ∀ u v, edge u v → rank u < rank v) : Acyclic edge := by
  intro v hcycle
  have hlt : ∀ {u w}, Relation.TransGen edge u w → rank u < rank w := by
    intro u w hpath
    induction hpath with
    | single hedge => exact h _ _ hedge
    | tail _ hedge ih => exact ih.trans (h _ _ hedge)
  exact Nat.lt_irrefl _ (hlt hcycle)

variable {visit : S → V → S} {val : S → V → α} {l : List V}

/-- A vertex keeps its value when no vertex of the pass has an edge to it. -/
theorem foldl_val (hframe : ∀ s u v, ¬ edge u v → val (visit s u) v = val s v) {u : V} (h : ∀ b ∈ l, ¬ edge b u)
    (s : S) : val (l.foldl visit s) u = val s u := by
  induction l generalizing s with
  | nil => rfl
  | cons b l ih =>
    rw [List.foldl_cons, ih fun c hc => h c (List.mem_cons_of_mem b hc)]
    exact hframe s b u (h b List.mem_cons_self)

/-- A pass in order leaves every edge of its vertices as the visit of the source does. -/
theorem foldl_rel (R : V → V → α → α → Prop)
    (hframe : ∀ s u v, ¬ edge u v → val (visit s u) v = val s v)
    (hvisit : ∀ s u v, edge u v → R u v (val (visit s u) u) (val (visit s u) v))
    (hkeep : ∀ s b u v x, R u v x (val s v) → R u v x (val (visit s b) v))
    (hl : l.Pairwise fun a b => ¬ edge b a) (s : S) :
    ∀ u ∈ l, ∀ v, edge u v → R u v (val (l.foldl visit s) u) (val (l.foldl visit s) v) := by
  induction l generalizing s with
  | nil => exact fun u hu => absurd hu List.not_mem_nil
  | cons a l ih =>
    obtain ⟨ha, hl⟩ := List.pairwise_cons.mp hl
    intro u hu v hedge
    rcases List.mem_cons.mp hu with rfl | hu
    · rw [List.foldl_cons, foldl_val hframe ha]
      have hrest : ∀ (l : List V) (s : S) x, R u v x (val s v) → R u v x (val (l.foldl visit s) v) := by
        intro l
        induction l with
        | nil => exact fun _ _ h => h
        | cons b l ih => exact fun s x h => ih (visit s b) x (hkeep s b u v x h)
      exact hrest l _ _ (hvisit s u v hedge)
    · exact ih hl (visit s a) u hu v hedge

end Otawa.Topological
