import Mathlib.Data.List.Perm.Basic

/-!
# Move to front

A linked list whose look-ups move the node they find to its head. A look-up loses no element, and the elements of another
kind keep their order, as do those of the kind that is looked up. A cursor on the list is the key of an element.
-/

namespace Otawa.MoveToFront

universe u v

variable {α : Type u} {p q : α → Bool} {l pre post : List α} {a : α}

/-- The list after a look-up of the first element that satisfies `p`. -/
def moveToFront (p : α → Bool) (l : List α) : List α :=
  match l.find? p with
  | some a => a :: l.eraseP p
  | none => l

/-- The first element that satisfies `p` with the elements around it. -/
structure Splits (p : α → Bool) (l pre : List α) (a : α) (post : List α) : Prop where
  eq : l = pre ++ a :: post
  before : ∀ b ∈ pre, p b = false
  holds : p a = true

theorem Splits.find? (h : Splits p l pre a post) : l.find? p = some a := by
  rw [h.eq, List.find?_append, List.find?_eq_none.mpr fun b hb => by simp [h.before b hb],
    List.find?_cons_of_pos h.holds]
  rfl

theorem Splits.eraseP (h : Splits p l pre a post) : l.eraseP p = pre ++ post := by
  rw [h.eq, List.eraseP_append_right _ fun b hb => by simp [h.before b hb], List.eraseP_cons_of_pos h.holds]

theorem Splits.moveToFront (h : Splits p l pre a post) : moveToFront p l = a :: (pre ++ post) := by
  rw [MoveToFront.moveToFront, h.find?, h.eraseP]

theorem moveToFront_of_none (h : ∀ b ∈ l, p b = false) : moveToFront p l = l := by
  rw [moveToFront, List.find?_eq_none.mpr fun b hb => by simp [h b hb]]

theorem splits_or_none (p : α → Bool) (l : List α) :
    (∃ pre a post, Splits p l pre a post) ∨ ∀ b ∈ l, p b = false := by
  induction l with
  | nil => exact .inr fun b hb => absurd hb List.not_mem_nil
  | cons b l ih =>
    cases hb : p b with
    | true => exact .inl ⟨[], b, l, rfl, fun _ h => absurd h List.not_mem_nil, hb⟩
    | false =>
      rcases ih with ⟨pre, a, post, hsplit⟩ | hnone
      · exact .inl ⟨b :: pre, a, post, by rw [hsplit.eq, List.cons_append],
          List.forall_mem_cons.mpr ⟨hb, hsplit.before⟩, hsplit.holds⟩
      · exact .inr (List.forall_mem_cons.mpr ⟨hb, hnone⟩)

theorem moveToFront_perm (p : α → Bool) (l : List α) : (moveToFront p l).Perm l := by
  rcases splits_or_none p l with ⟨pre, a, post, hsplit⟩ | hnone
  · rw [hsplit.moveToFront, hsplit.eq]
    exact List.perm_middle.symm
  · rw [moveToFront_of_none hnone]

theorem moveToFront_cons (h : p a = true) (l : List α) : moveToFront p (a :: l) = a :: l :=
  Splits.moveToFront ⟨rfl, fun _ hb => absurd hb List.not_mem_nil, h⟩

theorem moveToFront_append_of_mem (h : ∃ b ∈ l, p b = true) (post : List α) :
    moveToFront p (l ++ post) = moveToFront p l ++ post := by
  rcases splits_or_none p l with ⟨pre, a, rest, hsplit⟩ | hnone
  · have happend : Splits p (l ++ post) pre a (rest ++ post) :=
      ⟨by rw [hsplit.eq, List.append_assoc, List.cons_append], hsplit.before, hsplit.holds⟩
    rw [happend.moveToFront, hsplit.moveToFront, List.cons_append, List.append_assoc]
  · obtain ⟨b, hb, hp⟩ := h
    rw [hnone b hb] at hp
    cases hp

theorem moveToFront_append (h : ∀ b ∈ post, p b = false) (l : List α) :
    moveToFront p (l ++ post) = moveToFront p l ++ post := by
  rcases splits_or_none p l with ⟨pre, a, rest, hsplit⟩ | hnone
  · exact moveToFront_append_of_mem ⟨a, hsplit.eq ▸ List.mem_append_right pre List.mem_cons_self, hsplit.holds⟩ post
  · rw [moveToFront_of_none hnone, moveToFront_of_none]
    intro b hb
    rcases List.mem_append.mp hb with hb | hb
    · exact hnone b hb
    · exact h b hb

theorem filter_moveToFront (p : α → Bool) (l : List α) : (moveToFront p l).filter p = l.filter p := by
  rcases splits_or_none p l with ⟨pre, a, post, hsplit⟩ | hnone
  · have hpre : pre.filter p = [] := List.filter_eq_nil_iff.mpr fun b hb => by simp [hsplit.before b hb]
    rw [hsplit.moveToFront, hsplit.eq, List.filter_cons_of_pos hsplit.holds, List.filter_append, List.filter_append,
      List.filter_cons_of_pos hsplit.holds, hpre, List.nil_append, List.nil_append]
  · rw [moveToFront_of_none hnone]

theorem filter_moveToFront_of_ne (h : ∀ a, p a = true → q a = false) (l : List α) :
    (moveToFront p l).filter q = l.filter q := by
  rcases splits_or_none p l with ⟨pre, a, post, hsplit⟩ | hnone
  · have ha : ¬ q a = true := by simp [h a hsplit.holds]
    rw [hsplit.moveToFront, hsplit.eq, List.filter_cons_of_neg ha, List.filter_append, List.filter_append,
      List.filter_cons_of_neg ha]
  · rw [moveToFront_of_none hnone]

theorem filter_eraseP (p : α → Bool) (l : List α) : (l.eraseP p).filter p = (l.filter p).tail := by
  rcases splits_or_none p l with ⟨pre, a, post, hsplit⟩ | hnone
  · have hpre : pre.filter p = [] := List.filter_eq_nil_iff.mpr fun b hb => by simp [hsplit.before b hb]
    rw [hsplit.eraseP, hsplit.eq, List.filter_append, List.filter_append, List.filter_cons_of_pos hsplit.holds, hpre]
    rfl
  · have hnil : l.filter p = [] := List.filter_eq_nil_iff.mpr fun b hb => by simp [hnone b hb]
    rw [List.eraseP_of_forall_not fun b hb => by simp [hnone b hb], hnil, List.tail_nil]

theorem filter_eraseP_of_ne (h : ∀ a, p a = true → q a = false) (l : List α) :
    (l.eraseP p).filter q = l.filter q := by
  rcases splits_or_none p l with ⟨pre, a, post, hsplit⟩ | hnone
  · have ha : ¬ q a = true := by simp [h a hsplit.holds]
    rw [hsplit.eraseP, hsplit.eq, List.filter_append, List.filter_append, List.filter_cons_of_neg ha]
  · rw [List.eraseP_of_forall_not fun b hb => by simp [hnone b hb]]

/-! ### Cursors

The place of a cursor is the key of an element, which no other element has. -/

variable {β : Type v} [DecidableEq β] {key : α → β} {k : β} {before rest : List α}

/-- The element with a key and those after it. -/
def fromKey (key : α → β) (k : β) (l : List α) : List α :=
  l.dropWhile fun a => key a ≠ k

theorem fromKey_of_split (hnodup : ((before ++ a :: rest).map key).Nodup) :
    fromKey key (key a) (before ++ a :: rest) = a :: rest := by
  have hbefore : ∀ b ∈ before, decide (key b ≠ key a) = true := by
    intro b hb
    rw [List.map_append, List.map_cons] at hnodup
    exact decide_eq_true ((List.nodup_append.mp hnodup).2.2 _ (List.mem_map_of_mem hb) _ List.mem_cons_self)
  rw [fromKey, List.dropWhile_append_of_pos hbefore, List.dropWhile_cons_of_neg (by simp)]

omit [DecidableEq β] in
theorem exists_split (h : k ∈ l.map key) : ∃ before a rest, l = before ++ a :: rest ∧ key a = k := by
  obtain ⟨a, ha, rfl⟩ := List.mem_map.mp h
  obtain ⟨before, rest, rfl⟩ := List.append_of_mem ha
  exact ⟨before, a, rest, rfl, rfl⟩

end Otawa.MoveToFront
