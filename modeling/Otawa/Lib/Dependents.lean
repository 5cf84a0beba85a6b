import Mathlib.Data.Set.Lattice

/-!
# Tables of dependencies

A table has, for each item that is provided, the items it was built from. Dropping an item takes away what depends on
it. Both operations leave a closed table, where all that an item was built from is provided.
-/

namespace Otawa

open Relation

/-- What the provided items were built from. -/
abbrev DepTable (α : Type) := α → Option (List α)

namespace DepTable

variable {α β : Type}

def Provided (t : DepTable α) (a : α) : Prop :=
  (t a).isSome = true

def BuiltFrom (t : DepTable α) (b a : α) : Prop :=
  ∃ l, t b = some l ∧ a ∈ l

/-- The item itself included. -/
def DependsOn (t : DepTable α) : α → α → Prop :=
  ReflTransGen t.BuiltFrom

def dependents (t : DepTable α) (a : α) : Set α :=
  fun b => t.DependsOn b a

def Closed (t : DepTable α) : Prop :=
  ∀ b a, t.BuiltFrom b a → t.Provided a

/-- What is built from a member is a member. -/
def Upward (t : DepTable α) (s : Set α) : Prop :=
  ∀ b a, t.BuiltFrom b a → a ∈ s → b ∈ s

def provide [DecidableEq α] (t : DepTable α) (a : α) (l : List α) : DepTable α :=
  if (t a).isSome then t else Function.update t a (some l)

open Classical in
noncomputable def drop (t : DepTable α) (s : Set α) : DepTable α :=
  fun a => if a ∈ s then none else t a

noncomputable def invalidate (t : DepTable α) (a : α) : DepTable α :=
  t.drop (t.dependents a)

variable {t : DepTable α} {s s' : Set α} {a b : α} {l : List α}

theorem drop_of_mem (h : a ∈ s) : t.drop s a = none :=
  if_pos h

theorem drop_of_notMem (h : a ∉ s) : t.drop s a = t a :=
  if_neg h

theorem drop_eq_some : t.drop s a = some l ↔ a ∉ s ∧ t a = some l := by
  by_cases h : a ∈ s
  · simp [drop_of_mem h, h]
  · simp [drop_of_notMem h, h]

theorem provided_drop : (t.drop s).Provided a ↔ t.Provided a ∧ a ∉ s := by
  unfold Provided
  by_cases h : a ∈ s
  · simp [drop_of_mem h, h]
  · simp [drop_of_notMem h, h]

theorem builtFrom_drop : (t.drop s).BuiltFrom b a ↔ t.BuiltFrom b a ∧ b ∉ s := by
  unfold BuiltFrom
  simp only [drop_eq_some, and_assoc]
  constructor
  · rintro ⟨l, hb, hl, ha⟩
    exact ⟨⟨l, hl, ha⟩, hb⟩
  · rintro ⟨⟨l, hl, ha⟩, hb⟩
    exact ⟨l, hb, hl, ha⟩

theorem upward_dependents (t : DepTable α) (a : α) : t.Upward (t.dependents a) :=
  fun _ _ hbuilt hdep => .head hbuilt hdep

theorem Upward.union (hs : t.Upward s) (hs' : t.Upward s') : t.Upward (s ∪ s') := by
  intro b a hbuilt hmem
  rcases hmem with h | h
  · exact .inl (hs b a hbuilt h)
  · exact .inr (hs' b a hbuilt h)

/-- What depends on an item: the item, and what depends on something built from it. -/
theorem dependents_eq (t : DepTable α) (a : α) :
    t.dependents a = {b | b = a ∨ ∃ c, t.BuiltFrom c a ∧ b ∈ t.dependents c} := by
  ext b
  constructor
  · intro h
    rcases ReflTransGen.cases_tail h with h | ⟨c, hdep, hbuilt⟩
    · exact .inl h.symm
    · exact .inr ⟨c, hbuilt, hdep⟩
  · rintro (rfl | ⟨c, hbuilt, hdep⟩)
    · exact ReflTransGen.refl
    · exact ReflTransGen.tail hdep hbuilt

/-- After a set is dropped, the same items are left to depend on another one. -/
theorem union_dependents_drop (hs : t.Upward s) :
    s ∪ (t.drop s).dependents a = s ∪ t.dependents a := by
  ext b
  constructor
  · rintro (hb | hdep)
    · exact .inl hb
    · exact .inr (ReflTransGen.mono (fun _ _ hbuilt => (builtFrom_drop.mp hbuilt).1) _ _ hdep)
  · rintro (hb | hdep)
    · exact .inl hb
    · by_cases hb : b ∈ s
      · exact .inl hb
      · refine .inr ?_
        -- no item of the path is in `s`, or the first one would be
        induction hdep using ReflTransGen.head_induction_on with
        | refl => exact ReflTransGen.refl
        | @head b c hbuilt _ ih =>
          have hc : c ∉ s := fun hc => hb (hs b c hbuilt hc)
          exact .head (builtFrom_drop.mpr ⟨hbuilt, hb⟩) (ih hc)

/-! ### Closed tables -/

theorem Closed.provided_of_dependsOn (ht : t.Closed) (hdep : t.DependsOn b a) (hb : t.Provided b) : t.Provided a := by
  induction hdep with
  | refl => exact hb
  | tail _ hbuilt _ => exact ht _ _ hbuilt

/-- Nothing depends on an item that is not provided. -/
theorem Closed.invalidate_of_not (ht : t.Closed) (ha : ¬ t.Provided a) : t.invalidate a = t := by
  funext b
  by_cases hdep : b ∈ t.dependents a
  · rw [DepTable.invalidate, drop_of_mem hdep]
    rcases ReflTransGen.cases_tail hdep with h | ⟨c, -, hbuilt⟩
    · rw [← h]
      exact (Option.not_isSome_iff_eq_none.mp ha).symm
    · exact absurd (ht c a hbuilt) ha
  · exact drop_of_notMem hdep

section Provide

variable [DecidableEq α]

theorem provide_of_provided (h : t.Provided a) : t.provide a l = t :=
  if_pos h

theorem provide_of_not (h : ¬ t.Provided a) : t.provide a l = Function.update t a (some l) :=
  if_neg h

theorem provided_provide : (t.provide a l).Provided b ↔ b = a ∨ t.Provided b := by
  by_cases ha : t.Provided a
  · rw [provide_of_provided ha]
    constructor
    · exact .inr
    · rintro (rfl | hb)
      · exact ha
      · exact hb
  · rw [provide_of_not ha, Provided, Function.update_apply]
    split
    case isTrue hb => simp [hb]
    case isFalse hb => simp [hb, Provided]

end Provide

end DepTable

end Otawa
