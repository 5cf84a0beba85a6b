import Mathlib.Data.List.FinRange

/-!
# Loops in place

`for(int i = 0; i < size; i++) v[i] = body(v, i)` on a vector that the body also
reads: an assignment made for one index is read by the iterations after it.
`sweep_apply` says what each iteration reads, `sweep_keyed` what the loop computes
when each entry is combined with one fixed entry of the vector, itself rewritten
when the loop comes to it.

`foldlM_inv` and `foldlM_none` are the rule of a loop that an item may stop.
-/

namespace Otawa.Loop

variable {size : Nat} {β : Type}

/-- `for(int i = 0; i < size; i++) v[i] = body(v, i)`, each step reading the vector
the former ones have written. -/
def sweep (body : (Fin size → β) → Fin size → β) (v : Fin size → β) : Fin size → β :=
  (List.finRange size).foldl (fun v i => Function.update v i (body v i)) v

variable (body : (Fin size → β) → Fin size → β) (v : Fin size → β)

/-- The loop over some indices leaves the other ones as they are. -/
theorem foldl_update_of_notMem {l : List (Fin size)} {j : Fin size} (notMem : j ∉ l) :
    l.foldl (fun v i => Function.update v i (body v i)) v j = v j := by
  induction l generalizing v with
  | nil => rfl
  | cons i l ih =>
    obtain ⟨ne, notMem⟩ := List.ne_and_not_mem_of_not_mem_cons notMem
    rw [List.foldl_cons, ih _ notMem, Function.update_of_ne ne]

/-- The value written for an index: the body applied to a vector that is already
swept before the index and not yet after it. -/
theorem sweep_apply (i : Fin size) :
    sweep body v i = body (fun j => if j < i then sweep body v j else v j) i := by
  obtain ⟨l, r, split⟩ := List.append_of_mem (List.mem_finRange i)
  have sorted : (l ++ i :: r).Pairwise (· < ·) := split ▸ List.pairwise_lt_finRange size
  have before : ∀ j, j ∈ l ↔ j < i := by
    intro j
    rw [List.pairwise_append] at sorted
    constructor
    · exact fun mem => sorted.2.2 j mem i List.mem_cons_self
    · intro lt
      have mem : j ∈ l ++ i :: r := split ▸ List.mem_finRange j
      rcases List.mem_append.mp mem with mem | mem
      · exact mem
      · rcases List.mem_cons.mp mem with rfl | mem
        · omega
        · have := (List.pairwise_cons.mp sorted.2.1).1 j mem
          omega
  have nodup : (l ++ i :: r).Nodup := split ▸ List.nodup_finRange size
  obtain ⟨-, nodupR, disjoint⟩ := List.nodup_append.mp nodup
  have swept : ∀ j ∈ l, sweep body v j =
      l.foldl (fun v i => Function.update v i (body v i)) v j := by
    intro j mem
    rw [sweep, split, List.foldl_append]
    exact foldl_update_of_notMem body _ fun mem' => disjoint j mem j mem' rfl
  have reads : l.foldl (fun v i => Function.update v i (body v i)) v =
      fun j => if j < i then sweep body v j else v j := by
    funext j
    by_cases lt : j < i
    · rw [if_pos lt, swept j ((before j).mpr lt)]
    · rw [if_neg lt, foldl_update_of_notMem body v (fun mem => lt ((before j).mp mem))]
  rw [← reads, sweep, split, List.foldl_append, List.foldl_cons,
    foldl_update_of_notMem body _ (List.nodup_cons.mp nodupR).1, Function.update_self]

/-- A loop that compares each entry with the entry of `key`: the entries after
`key` are compared with the value the loop itself has written there. -/
theorem sweep_keyed (f : β → β → β) (key i : Fin size) :
    sweep (fun v i => f (v key) (v i)) v i =
      if i ≤ key then f (v key) (v i) else f (f (v key) (v key)) (v i) := by
  have upTo : ∀ i ≤ key, sweep (fun v i => f (v key) (v i)) v i = f (v key) (v i) := by
    intro i le
    rw [sweep_apply]
    simp [show ¬ key < i by omega]
  by_cases le : i ≤ key
  · rw [if_pos le, upTo i le]
  · rw [if_neg le, sweep_apply]
    simp [show key < i by omega, upTo key (Nat.le_refl _)]

/-- A loop whose body reads its own entry alone. -/
theorem sweep_pointwise (f : β → β) (i : Fin size) : sweep (fun v i => f (v i)) v i = f (v i) := by
  rw [sweep_apply]
  simp

/-! ### Loops that an item may stop -/

section Stopped

variable {σ α : Type} {step : σ → α → Option σ} {ok : α → Prop} {l done : List α} {s : σ}

/-- An invariant over the items that are done holds after the loop, if no item stops it. -/
theorem foldlM_inv {Inv : List α → σ → Prop}
    (hstep : ∀ done a s, Inv done s → ok a → ∃ s', step s a = some s' ∧ Inv (done ++ [a]) s')
    (hinv : Inv done s) (hok : ∀ a ∈ l, ok a) : ∃ s', l.foldlM step s = some s' ∧ Inv (done ++ l) s' := by
  induction l generalizing done s with
  | nil => exact ⟨s, rfl, by rw [List.append_nil]; exact hinv⟩
  | cons a l ih =>
    obtain ⟨s', hs', hinv'⟩ := hstep done a s hinv (hok a List.mem_cons_self)
    obtain ⟨s'', hs'', hinv''⟩ := ih hinv' fun a' mem => hok a' (List.mem_cons_of_mem a mem)
    rw [List.append_assoc] at hinv''
    refine ⟨s'', ?_, hinv''⟩
    rw [List.foldlM_cons, hs']
    exact hs''

/-- A loop that no item stopped keeps what each of its steps keeps. -/
theorem foldlM_keeps {P : σ → Prop} {s' : σ} (h : l.foldlM step s = some s') (hs : P s)
    (hstep : ∀ a ∈ l, ∀ s s', P s → step s a = some s' → P s') : P s' := by
  induction l generalizing s with
  | nil =>
    cases h
    exact hs
  | cons a l ih =>
    rw [List.foldlM_cons] at h
    obtain ⟨t, ht, hrest⟩ := Option.bind_eq_some_iff.mp h
    exact ih hrest (hstep a List.mem_cons_self s t hs ht) fun a' mem => hstep a' (List.mem_cons_of_mem a mem)

/-- An item that always stops the loop. -/
theorem foldlM_none {a : α} (hstep : ∀ s, step s a = none) (mem : a ∈ l) : l.foldlM step s = none := by
  induction l generalizing s with
  | nil => exact absurd mem List.not_mem_nil
  | cons a' l ih =>
    rw [List.foldlM_cons]
    obtain rfl | mem := List.mem_cons.mp mem
    · rw [hstep]
      rfl
    · cases step s a' with
      | none => rfl
      | some s' => exact ih mem

end Stopped

end Otawa.Loop
