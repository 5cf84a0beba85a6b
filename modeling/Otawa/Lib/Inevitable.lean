import Mathlib.Data.Nat.Init

/-!
# Goals that every run reaches

A system takes one of the choices that are enabled in its state, and the step may fail. A goal is
inevitable from a state when no step fails and the goal is reached after finitely many steps, whichever
enabled choices are made. `live` is a property of the states before the goal that is carried along.
-/

namespace Otawa

universe u v

variable {S : Type u} {A : Type v}

/-- Whatever choices are made from the state, a state of the goal is reached and no step fails. -/
inductive Inevitable (step : S → A → Option S) (enabled : S → A → Prop) (live goal : S → Prop) : S → Prop where
  | here {s : S} : goal s → Inevitable step enabled live goal s
  | step {s : S} : live s → (∀ a, enabled s a → (step s a).isSome = true) →
      (∀ a t, enabled s a → step s a = some t → Inevitable step enabled live goal t) →
      Inevitable step enabled live goal s

namespace Inevitable

variable {step : S → A → Option S} {enabled : S → A → Prop} {live goal goal' : S → Prop} {s : S}

theorem of_choices (hlive : live s)
    (hnext : ∀ a, enabled s a → ∃ t, step s a = some t ∧ Inevitable step enabled live goal t) :
    Inevitable step enabled live goal s := by
  refine .step hlive (fun a ha => ?_) fun a t ha ht => ?_
  · obtain ⟨t, ht, -⟩ := hnext a ha
    rw [ht, Option.isSome_some]
  · obtain ⟨t', ht', hgoal⟩ := hnext a ha
    cases ht.symm.trans ht'
    exact hgoal

/-- One goal after the other. -/
theorem bind (hgoal : Inevitable step enabled live goal s)
    (hnext : ∀ t, goal t → Inevitable step enabled live goal' t) : Inevitable step enabled live goal' s := by
  induction hgoal with
  | here hs => exact hnext _ hs
  | step hlive hsome _ ih => exact .step hlive hsome ih

theorem mono (hgoal : Inevitable step enabled live goal s) (himp : ∀ t, goal t → goal' t) :
    Inevitable step enabled live goal' s :=
  hgoal.bind fun t ht => .here (himp t ht)

/-- A goal is inevitable when every step from a state of an invariant leads, inevitably, to the goal or back
to the invariant at a smaller measure. -/
theorem of_measure (inv : ℕ → S → Prop)
    (hinv : ∀ n s, inv n s → goal s ∨ (live s ∧ ∀ a, enabled s a → ∃ t, step s a = some t ∧
      Inevitable step enabled live (fun u => goal u ∨ ∃ m < n, inv m u) t)) {n : ℕ} (hs : inv n s) :
    Inevitable step enabled live goal s := by
  induction n using Nat.strongRecOn generalizing s with
  | ind n ih =>
    obtain hgoal | ⟨hlive, hstep⟩ := hinv n s hs
    · exact .here hgoal
    · refine .of_choices hlive fun a ha => ?_
      obtain ⟨t, ht, hnext⟩ := hstep a ha
      refine ⟨t, ht, hnext.bind fun u hu => ?_⟩
      obtain hgoal | ⟨m, hm, hu⟩ := hu
      · exact .here hgoal
      · exact ih m hm hu

/-- What every step keeps holds when the goal is reached. -/
theorem and_kept (hgoal : Inevitable step enabled live goal s) {inv : S → Prop}
    (hkept : ∀ s a t, inv s → enabled s a → step s a = some t → inv t) (hs : inv s) :
    Inevitable step enabled live (fun t => goal t ∧ inv t) s := by
  induction hgoal with
  | here hgoal => exact .here ⟨hgoal, hs⟩
  | step hlive hsome _ ih => exact .step hlive hsome fun a t ha ht => ih a t ha ht (hkept _ a t hs ha ht)

end Inevitable

end Otawa
