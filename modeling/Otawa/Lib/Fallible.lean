import Mathlib.Tactic.Common

/-!
# Computations that may fail

What is known of the steps of a computation that returns.
-/

namespace Otawa.Fallible

universe u v w

variable {ε : Type u} {α : Type v} {β σ : Type w}

theorem bind_ok {γ : Type w} {x : Except ε γ} {f : γ → Except ε β} {b : β} :
    x >>= f = .ok b ↔ ∃ c, x = .ok c ∧ f c = .ok b := by
  cases x with
  | error e =>
    constructor
    · intro h
      cases h
    · rintro ⟨c, h, -⟩
      cases h
  | ok c =>
    constructor
    · intro h
      exact ⟨c, rfl, h⟩
    · rintro ⟨c', h, hf⟩
      cases h
      exact hf

theorem map_ok {x : Except ε α} {f : α → β} {b : β} : x.map f = .ok b ↔ ∃ c, x = .ok c ∧ f c = b := by
  cases x with
  | error e =>
    constructor
    · intro h
      cases h
    · rintro ⟨c, h, -⟩
      cases h
  | ok c =>
    constructor
    · intro h
      exact ⟨c, rfl, Except.ok.inj h⟩
    · rintro ⟨c', h, rfl⟩
      cases h
      rfl

theorem foldlM_append_ok {step : σ → α → Except ε σ} (Inv : List α → σ → Prop) {done l : List α} {s s' : σ}
    (h : l.foldlM step s = .ok s') (hs : Inv done s)
    (hstep : ∀ done a s s', a ∈ l → Inv done s → step s a = .ok s' → Inv (done ++ [a]) s') : Inv (done ++ l) s' := by
  induction l generalizing done s with
  | nil =>
    cases h
    rw [List.append_nil]
    exact hs
  | cons a l ih =>
    rw [List.foldlM_cons] at h
    obtain ⟨t, ht, hrest⟩ := bind_ok.mp h
    rw [List.append_cons]
    exact ih hrest (hstep done a s t List.mem_cons_self hs ht) fun done b s s' hb =>
      hstep done b s s' (List.mem_cons_of_mem a hb)

/-- A loop that returns keeps what each of its steps keeps. -/
theorem foldlM_ok {step : σ → α → Except ε σ} (Inv : List α → σ → Prop) {l : List α} {s s' : σ}
    (h : l.foldlM step s = .ok s') (hs : Inv [] s)
    (hstep : ∀ done a s s', a ∈ l → Inv done s → step s a = .ok s' → Inv (done ++ [a]) s') : Inv l s' :=
  foldlM_append_ok Inv h hs hstep

end Otawa.Fallible
