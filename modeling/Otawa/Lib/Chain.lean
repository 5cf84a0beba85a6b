import Mathlib.Order.Basic
import Mathlib.Data.Nat.Find

/-!
# Chains of a binary operator

`chain op c` feeds a sequence to an operator, one element at a time, as an analysis
does with a widening. A chain settles when it has some last change. `settles_iff` is
the rule for an operator whose steps are either still, or lower a rank, or turn: the
chain settles when it turns finitely often and, as a turn is a visible change, only
then.
-/

namespace Otawa.Chain

variable {α β γ : Type*}

/-- `c 0`, `op (c 0) (c 1)`, … -/
def chain (op : α → α → α) (c : ℕ → α) : ℕ → α
  | 0 => c 0
  | n + 1 => op (chain op c n) (c (n + 1))

@[simp] theorem chain_succ (op : α → α → α) (c : ℕ → α) (n : ℕ) :
    chain op c (n + 1) = op (chain op c n) (c (n + 1)) := rfl

/-- Constant from some point on. -/
def Settles (x : ℕ → α) : Prop := ∃ N, ∀ i, N ≤ i → x i = x N

/-- A sequence that, from some point on, stands still or loses rank, settles. -/
theorem settles_of_rank (rank : α → ℕ) {x : ℕ → α} {N : ℕ}
    (step : ∀ i, N ≤ i → x (i + 1) = x i ∨ rank (x (i + 1)) < rank (x i)) : Settles x := by
  -- From an index of least rank on, only the first case is left.
  obtain ⟨i, le, least⟩ : ∃ i, N ≤ i ∧ ∀ j, N ≤ j → rank (x i) ≤ rank (x j) := by
    have inhabited : ∃ r, ∃ i, N ≤ i ∧ rank (x i) = r := ⟨_, N, le_rfl, rfl⟩
    classical
    obtain ⟨i, le, eq⟩ := Nat.find_spec inhabited
    exact ⟨i, le, fun j lej => eq ▸ Nat.find_min' inhabited ⟨j, lej, rfl⟩⟩
  refine ⟨i, fun j lej => ?_⟩
  induction j, lej using Nat.le_induction with
  | base => rfl
  | succ j lej ih =>
    rcases step j (le.trans lej) with same | lower
    · rw [same, ih]
    · have := least (j + 1) (by omega)
      rw [ih] at lower
      omega

/-- An operator whose steps stand still or lose rank, unless they turn, and whose
turns show. -/
theorem settles_iff {op : α → α → α} {Turns : α → α → Prop} (rank : α → ℕ) (view : α → γ)
    (calm : ∀ s c, ¬ Turns s c → op s c = s ∨ rank (op s c) < rank s)
    (visible : ∀ s c, Turns s c → view (op s c) ≠ view s) (c : ℕ → α) :
    Settles (fun i => view (chain op c i)) ↔
      ∃ N, ∀ i, N ≤ i → ¬ Turns (chain op c i) (c (i + 1)) := by
  constructor
  · rintro ⟨N, settled⟩
    refine ⟨N, fun i le turn => visible _ _ turn ?_⟩
    have after : view (op (chain op c i) (c (i + 1))) = view (chain op c N) :=
      settled (i + 1) (by omega)
    exact after.trans (settled i le).symm
  · rintro ⟨N, straight⟩
    obtain ⟨M, settled⟩ := settles_of_rank rank (x := chain op c)
      fun i le => calm _ _ (straight i le)
    exact ⟨M, fun i le => congrArg view (settled i le)⟩

end Otawa.Chain
