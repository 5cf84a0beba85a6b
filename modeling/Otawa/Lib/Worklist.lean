import Mathlib.Algebra.Order.BigOperators.Group.List
import Mathlib.Algebra.Order.Group.Nat
import Mathlib.Algebra.Ring.Nat
import Mathlib.Data.List.Perm.Subperm

/-!
# Work-list iteration to a greatest fixpoint

Every node of a finite graph holds a value, and the transfer function computes the value of a node from the
values of the nodes it uses. A turn takes a node off the work-list, recomputes its value and, when the value
has changed, puts the nodes that use it on the work-list. From values that the transfer function only lowers,
every turn makes a weight smaller, whichever node is taken, and when the work-list is empty the values are
the greatest ones that the transfer function does not lower.
-/

namespace Otawa

universe u v

/-- The equations that a work-list iteration solves. `uses a b` says that the value of `b` is computed from
the one of `a`. -/
structure Dataflow (V : Type u) (S : Type v) [PartialOrder S] where
  nodes : List V
  uses : V → V → Prop
  transfer : V → (V → S) → S
  rank : S → ℕ
  closed : ∀ a b, b ∈ nodes → uses a b → a ∈ nodes
  monotone : ∀ b x y, (∀ a, uses a b → x a ≤ y a) → transfer b x ≤ transfer b y
  rank_strictMono : StrictMono rank

namespace Dataflow

variable {V : Type u} {S : Type v} [PartialOrder S]

/-- A turn of the iteration for a node. -/
structure Turn (D : Dataflow V S) (b : V) (todo todo' : List V) (x x' : V → S) : Prop where
  value : x' b = D.transfer b x
  other : ∀ c ∈ D.nodes, c ≠ b → x' c = x c
  kept : ∀ c ∈ todo, c ≠ b → c ∈ todo'
  pushed : D.transfer b x ≠ x b → ∀ c ∈ D.nodes, D.uses b c → c ∈ todo'
  shorter : D.transfer b x = x b → todo'.length < todo.length
  nodup : todo'.Nodup
  listed : ∀ c ∈ todo', c ∈ D.nodes

/-- What holds between two turns: the values are at most `top`, above every solution, and those of the nodes
that are not on the work-list are settled. -/
structure Descending (D : Dataflow V S) (top : V → S) (todo : List V) (x : V → S) : Prop where
  nodup : todo.Nodup
  listed : ∀ c ∈ todo, c ∈ D.nodes
  lowers : ∀ b ∈ D.nodes, D.transfer b x ≤ x b
  settled : ∀ b ∈ D.nodes, b ∉ todo → D.transfer b x = x b
  above : ∀ y : V → S, (∀ b ∈ D.nodes, y b ≤ top b) → (∀ b ∈ D.nodes, y b ≤ D.transfer b y) →
    ∀ b ∈ D.nodes, y b ≤ x b

/-- The values are the greatest ones below `top` that the transfer function does not lower. -/
structure Greatest (D : Dataflow V S) (top : V → S) (x : V → S) : Prop where
  fixed : ∀ b ∈ D.nodes, D.transfer b x = x b
  above : ∀ y : V → S, (∀ b ∈ D.nodes, y b ≤ top b) → (∀ b ∈ D.nodes, y b ≤ D.transfer b y) →
    ∀ b ∈ D.nodes, y b ≤ x b

/-- The measure that decreases: the ranks of the values first, then the length of the work-list. -/
def weight (D : Dataflow V S) (todo : List V) (x : V → S) : ℕ :=
  (D.nodes.map fun b => D.rank (x b)).sum * (D.nodes.length + 1) + todo.length

variable {D : Dataflow V S} {b : V} {todo todo' : List V} {x x' top : V → S}

theorem transfer_congr (h : ∀ a, D.uses a b → x' a = x a) : D.transfer b x' = D.transfer b x := by
  apply le_antisymm
  · exact D.monotone b x' x fun a ha => (h a ha).le
  · exact D.monotone b x x' fun a ha => (h a ha).ge

/-- At the start all nodes are on the work-list and hold the top values. -/
theorem descending_init (hnodup : todo.Nodup) (hlisted : ∀ c, c ∈ todo ↔ c ∈ D.nodes)
    (htop : ∀ b ∈ D.nodes, D.transfer b top ≤ top b) : D.Descending top todo top where
  nodup := hnodup
  listed := fun c hc => (hlisted c).mp hc
  lowers := htop
  settled := fun b hb hnot => absurd ((hlisted b).mpr hb) hnot
  above := fun _ hy _ => hy

theorem Descending.greatest (h : D.Descending top [] x) : D.Greatest top x where
  fixed := fun b hb => h.settled b hb List.not_mem_nil
  above := h.above

theorem Descending.length_le (h : D.Descending top todo x) : todo.length ≤ D.nodes.length :=
  (List.subperm_of_subset h.nodup h.listed).length_le

namespace Turn

section

variable (ht : D.Turn b todo todo' x x')
include ht

/-- A turn lowers the values. -/
theorem le (h : D.Descending top todo x) (hb : b ∈ todo) : ∀ c ∈ D.nodes, x' c ≤ x c := by
  intro c hc
  by_cases hcb : c = b
  · subst hcb
    rw [ht.value]
    exact h.lowers c hc
  · exact (ht.other c hc hcb).le

/-- A node whose used nodes keep their values has the value it had to have. -/
theorem transfer_eq {c : V} (hc : c ∈ D.nodes)
    (hsame : D.uses b c → D.transfer b x = x b) : D.transfer c x' = D.transfer c x := by
  apply transfer_congr
  intro a ha
  by_cases hab : a = b
  · subst hab
    rw [ht.value]
    exact hsame ha
  · exact ht.other a (D.closed a c hc ha) hab

section

variable (h : D.Descending top todo x)
include h

theorem settled {c : V} (hc : c ∈ D.nodes) (hnot : c ∉ todo') : D.transfer c x' = x' c := by
  have hsame : D.uses b c → D.transfer b x = x b := by
    intro huses
    by_contra hne
    exact hnot (ht.pushed hne c hc huses)
  rw [ht.transfer_eq hc hsame]
  by_cases hcb : c = b
  · subst hcb
    exact ht.value.symm
  · rw [ht.other c hc hcb]
    exact h.settled c hc fun hmem => hnot (ht.kept c hmem hcb)

/-- A turn keeps what holds between two turns. -/
theorem descending (hb : b ∈ todo) :
    D.Descending top todo' x' where
  nodup := ht.nodup
  listed := ht.listed
  settled := fun _ hc hnot => ht.settled h hc hnot
  lowers := by
    intro c hc
    have hle : D.transfer c x' ≤ D.transfer c x :=
      D.monotone c x' x fun a ha => ht.le h hb a (D.closed a c hc ha)
    by_cases hcb : c = b
    · subst hcb
      rw [ht.value]
      exact hle
    · rw [ht.other c hc hcb]
      exact hle.trans (h.lowers c hc)
  above := by
    intro y hy hkeeps c hc
    by_cases hcb : c = b
    · subst hcb
      rw [ht.value]
      have hyx : D.transfer c y ≤ D.transfer c x :=
        D.monotone c y x fun a ha => h.above y hy hkeeps a (D.closed a c hc ha)
      exact (hkeeps c hc).trans hyx
    · rw [ht.other c hc hcb]
      exact h.above y hy hkeeps c hc

theorem rank_sum_le (hb : b ∈ todo) :
    (D.nodes.map fun c => D.rank (x' c)).sum ≤ (D.nodes.map fun c => D.rank (x c)).sum :=
  List.sum_le_sum fun c hc => D.rank_strictMono.monotone (ht.le h hb c hc)

theorem rank_sum_lt (hb : b ∈ todo)
    (hne : D.transfer b x ≠ x b) :
    (D.nodes.map fun c => D.rank (x' c)).sum < (D.nodes.map fun c => D.rank (x c)).sum := by
  have hbn : b ∈ D.nodes := h.listed b hb
  apply List.sum_lt_sum
  · intro c hc
    exact D.rank_strictMono.monotone (ht.le h hb c hc)
  · refine ⟨b, hbn, D.rank_strictMono ?_⟩
    rw [ht.value]
    exact lt_of_le_of_ne (h.lowers b hbn) hne

/-- A turn makes the weight smaller. -/
theorem weight_lt (hb : b ∈ todo) : D.weight todo' x' < D.weight todo x := by
  have hlength := (ht.descending h hb).length_le
  by_cases hsame : D.transfer b x = x b
  · have hsum := Nat.mul_le_mul_right (D.nodes.length + 1) (ht.rank_sum_le h hb)
    have hshort := ht.shorter hsame
    simp only [weight]
    omega
  · have hsum := Nat.mul_le_mul_right (D.nodes.length + 1) (Nat.succ_le_of_lt (ht.rank_sum_lt h hb hsame))
    rw [Nat.succ_mul] at hsum
    simp only [weight]
    omega

end

end

end Turn

end Dataflow

end Otawa
