import Mathlib.Data.List.Basic
import Mathlib.Order.Lattice

/-!
# Sorted lists of cells

A partial map from keys to values as a list of cells, sorted by the keys. Look-up and
update walk the list up to the first key that is not smaller; `merge` walks two lists at
once and keeps the keys of both.

`find_put` and `find_merge` say what the updated and the merged list hold under each key,
and `eq_of_find` that a sorted list is known by what it holds.
-/

namespace Otawa.Cells

variable {κ β : Type} [LinearOrder κ]

/-- The keys go up. -/
abbrev Sorted (l : List (κ × β)) : Prop := l.Pairwise fun c c' => c.1 < c'.1

def find (k : κ) : List (κ × β) → Option β
  | [] => none
  | c :: rest => if c.1 < k then find k rest else if c.1 = k then some c.2 else none

/-- The cell of a key, or no cell. -/
def entry (k : κ) : Option β → List (κ × β)
  | none => []
  | some v => [(k, v)]

/-- The list with another value under the key, or without the key. -/
def put (k : κ) (v : Option β) : List (κ × β) → List (κ × β)
  | [] => entry k v
  | c :: rest =>
      if c.1 < k then c :: put k v rest
      else if c.1 = k then entry k v ++ rest
      else entry k v ++ c :: rest

/-- The keys of both lists, with the values that `op` makes of theirs; where it makes none the
key is dropped. -/
def merge (op : β → β → Option β) : List (κ × β) → List (κ × β) → List (κ × β)
  | [], _ => []
  | _ :: _, [] => []
  | c :: l, c' :: l' =>
      if c.1 < c'.1 then merge op l (c' :: l')
      else if c.1 = c'.1 then
        match op c.2 c'.2 with
        | none => merge op l (c' :: l')
        | some v => (c.1, v) :: merge op l l'
      else merge op (c :: l) l'
termination_by l l' => l.length + l'.length

variable {l l' : List (κ × β)} {k k' : κ} {v : β}

theorem find_eq_some_iff (sorted : Sorted l) : find k l = some v ↔ (k, v) ∈ l := by
  induction l with
  | nil => simp [find]
  | cons c rest ih =>
    obtain ⟨above, sorted⟩ := List.pairwise_cons.mp sorted
    have rest_gt : (k, v) ∈ rest → c.1 < k := fun mem => above _ mem
    unfold find
    rw [List.mem_cons]
    split
    case isTrue lt =>
      rw [ih sorted]
      exact ⟨.inr, fun mem => mem.resolve_left fun eq => absurd lt (by simp [← eq])⟩
    case isFalse le =>
      split
      case isTrue eq =>
        subst eq
        constructor
        · intro found
          cases found
          exact .inl rfl
        · rintro (same | mem)
          · rw [← same]
          · exact absurd (rest_gt mem) le
      case isFalse ne =>
        constructor
        · exact fun found => nomatch found
        · rintro (same | mem)
          · exact absurd (by rw [← same]) ne
          · exact absurd (rest_gt mem) le

/-- No key is found in a list of larger keys. -/
theorem find_of_lt (above : ∀ c ∈ l, k < c.1) : find k l = none := by
  cases l with
  | nil => rfl
  | cons c rest =>
    have lt := above c List.mem_cons_self
    rw [find, if_neg lt.not_gt, if_neg lt.ne']

theorem find_filter (sorted : Sorted l) (p : κ × β → Bool) :
    find k (l.filter p) = (find k l).filter fun v => p (k, v) := by
  ext v
  rw [find_eq_some_iff (sorted.filter p), List.mem_filter, Option.filter_eq_some_iff, find_eq_some_iff sorted]

/-- Sorted lists that hold the same under each key are the same. -/
theorem eq_of_find (sorted : Sorted l) (sorted' : Sorted l') (same : ∀ k, find k l = find k l') : l = l' := by
  refine (List.Perm.eq_of_pairwise (fun a b _ _ lt gt => absurd lt gt.not_gt) sorted sorted' ?_)
  refine (List.perm_ext_iff_of_nodup ?_ ?_).mpr fun c => ?_
  · exact sorted.imp fun lt eq => absurd (eq ▸ lt) (lt_irrefl _)
  · exact sorted'.imp fun lt eq => absurd (eq ▸ lt) (lt_irrefl _)
  · rw [← find_eq_some_iff sorted, ← find_eq_some_iff sorted', same]

theorem find_cons (c : κ × β) (rest : List (κ × β)) (above : ∀ c' ∈ rest, c.1 < c'.1) :
    find k (c :: rest) = if k = c.1 then some c.2 else find k rest := by
  rw [find]
  rcases lt_trichotomy c.1 k with lt | rfl | gt
  · rw [if_pos lt, if_neg lt.ne']
  · rw [if_neg (lt_irrefl _), if_pos rfl, if_pos rfl]
  · rw [if_neg gt.not_gt, if_neg gt.ne', if_neg gt.ne]
    exact (find_of_lt fun c' mem => gt.trans (above c' mem)).symm

theorem find_entry_append (v : Option β) (above : ∀ c ∈ l, k < c.1) :
    find k' (entry k v ++ l) = if k' = k then v else find k' l := by
  cases v with
  | none =>
    show find k' l = _
    split
    case isTrue eq => exact eq ▸ find_of_lt above
    case isFalse => rfl
  | some v => exact find_cons (k, v) l above

theorem mem_put {v : Option β} {c : κ × β} (mem : c ∈ put k v l) : c.1 = k ∨ c ∈ l := by
  have of_entry : c ∈ entry k v → c.1 = k := by
    cases v with
    | none => exact fun mem => nomatch mem
    | some v => exact fun mem => by rw [List.mem_singleton.mp mem]
  induction l with
  | nil => exact .inl (of_entry mem)
  | cons c' rest ih =>
    unfold put at mem
    split at mem
    · rcases List.mem_cons.mp mem with rfl | mem
      · exact .inr List.mem_cons_self
      · exact (ih mem).imp_right (List.mem_cons_of_mem _)
    · split at mem
      · exact (List.mem_append.mp mem).imp of_entry (List.mem_cons_of_mem _)
      · exact (List.mem_append.mp mem).imp_left of_entry

theorem sorted_put (sorted : Sorted l) (k : κ) (v : Option β) : Sorted (put k v l) := by
  have with_entry : ∀ rest : List (κ × β), Sorted rest → (∀ c ∈ rest, k < c.1) → Sorted (entry k v ++ rest) := by
    intro rest sorted above
    cases v with
    | none => exact sorted
    | some v => exact List.pairwise_cons.mpr ⟨above, sorted⟩
  induction l with
  | nil =>
    have only := with_entry [] sorted fun _ mem => absurd mem List.not_mem_nil
    rwa [List.append_nil] at only
  | cons c rest ih =>
    obtain ⟨above, sorted'⟩ := List.pairwise_cons.mp sorted
    unfold put
    split
    case isTrue lt =>
      refine List.pairwise_cons.mpr ⟨fun c' mem => ?_, ih sorted'⟩
      rcases mem_put mem with eq | mem
      · exact eq ▸ lt
      · exact above c' mem
    case isFalse le =>
      split
      case isTrue eq => exact with_entry rest sorted' (eq ▸ above)
      case isFalse ne =>
        have lt : k < c.1 := lt_of_le_of_ne (not_lt.mp le) (Ne.symm ne)
        refine with_entry _ sorted fun c' mem => ?_
        rcases List.mem_cons.mp mem with rfl | mem
        · exact lt
        · exact lt.trans (above c' mem)

/-- What the updated list holds. -/
theorem find_put (sorted : Sorted l) (v : Option β) :
    find k' (put k v l) = if k' = k then v else find k' l := by
  induction l with
  | nil =>
    rw [put, ← List.append_nil (entry k v), find_entry_append v fun _ mem => absurd mem List.not_mem_nil]
  | cons c rest ih =>
    obtain ⟨above, sorted'⟩ := List.pairwise_cons.mp sorted
    unfold put
    split
    case isTrue lt =>
      rw [find_cons c rest above, find_cons c (put k v rest), ih sorted']
      · by_cases eq : k' = k
        · rw [if_pos eq, if_pos eq, if_neg (eq ▸ lt.ne')]
        · rw [if_neg eq, if_neg eq]
      · intro c' mem
        rcases mem_put mem with eq | mem
        · exact eq ▸ lt
        · exact above c' mem
    case isFalse le =>
      split
      case isTrue eq =>
        subst eq
        rw [find_entry_append v above, find_cons c rest above]
        split <;> rfl
      case isFalse ne =>
        have lt : k < c.1 := lt_of_le_of_ne (not_lt.mp le) (Ne.symm ne)
        refine find_entry_append v fun c' mem => ?_
        rcases List.mem_cons.mp mem with rfl | mem
        · exact lt
        · exact lt.trans (above c' mem)

/-! ### Merging -/

theorem key_of_mem_merge {op : β → β → Option β} {c : κ × β} (mem : c ∈ merge op l l') : ∃ v, (c.1, v) ∈ l := by
  fun_induction merge op l l' with
  | case1 l' => exact absurd mem List.not_mem_nil
  | case2 c l => exact absurd mem List.not_mem_nil
  | case3 c l c' l' lt ih => exact (ih mem).imp fun _ => List.mem_cons_of_mem _
  | case4 c l c' l' le eq none ih => exact (ih mem).imp fun _ => List.mem_cons_of_mem _
  | case5 c l c' l' le eq v some ih =>
    rcases List.mem_cons.mp mem with rfl | mem
    · exact ⟨c.2, List.mem_cons_self⟩
    · exact (ih mem).imp fun _ => List.mem_cons_of_mem _
  | case6 c l c' l' le ne ih => exact ih mem

theorem sorted_merge {op : β → β → Option β} (sorted : Sorted l) : Sorted (merge op l l') := by
  fun_induction merge op l l' with
  | case1 l' => exact List.Pairwise.nil
  | case2 c l => exact List.Pairwise.nil
  | case3 c l c' l' lt ih => exact ih (List.pairwise_cons.mp sorted).2
  | case4 c l c' l' le eq none ih => exact ih (List.pairwise_cons.mp sorted).2
  | case5 c l c' l' le eq v some ih =>
    obtain ⟨above, sorted⟩ := List.pairwise_cons.mp sorted
    refine List.pairwise_cons.mpr ⟨fun c'' mem => ?_, ih sorted⟩
    obtain ⟨v', mem⟩ := key_of_mem_merge mem
    exact above (c''.1, v') mem
  | case6 c l c' l' le ne ih => exact ih sorted

/-- What the merged list holds. -/
theorem find_merge {op : β → β → Option β} (sorted : Sorted l) (sorted' : Sorted l') :
    find k (merge op l l') = (find k l).bind fun v => (find k l').bind fun v' => op v v' := by
  fun_induction merge op l l' with
  | case1 l' => rfl
  | case2 c l => simp [find]
  | case3 c l c' l' lt ih =>
    obtain ⟨above, rest⟩ := List.pairwise_cons.mp sorted
    obtain ⟨above', -⟩ := List.pairwise_cons.mp sorted'
    rw [ih rest sorted', find_cons c l above]
    split
    case isTrue eq =>
      have out : find k (c' :: l') = none := find_of_lt fun c'' mem => by
        rcases List.mem_cons.mp mem with rfl | mem
        · exact eq ▸ lt
        · exact eq ▸ lt.trans (above' c'' mem)
      simp [out]
    case isFalse => rfl
  | case4 c l c' l' le eq none ih =>
    obtain ⟨above, rest⟩ := List.pairwise_cons.mp sorted
    obtain ⟨above', -⟩ := List.pairwise_cons.mp sorted'
    rw [ih rest sorted', find_cons c l above]
    split
    case isTrue at_c =>
      rw [find_cons c' l' above', if_pos (at_c.trans eq), at_c, find_of_lt above]
      exact none.symm
    case isFalse => rfl
  | case5 c l c' l' le eq v some ih =>
    obtain ⟨above, rest⟩ := List.pairwise_cons.mp sorted
    obtain ⟨above', rest'⟩ := List.pairwise_cons.mp sorted'
    rw [find_cons (c.1, v), ih rest rest', find_cons c l above, find_cons c' l' above', ← eq]
    · split
      case isTrue => exact some.symm
      case isFalse => rfl
    · intro c'' mem
      obtain ⟨v', mem⟩ := key_of_mem_merge mem
      exact above (c''.1, v') mem
  | case6 c l c' l' le ne ih =>
    obtain ⟨above, -⟩ := List.pairwise_cons.mp sorted
    obtain ⟨above', rest'⟩ := List.pairwise_cons.mp sorted'
    have lt : c'.1 < c.1 := lt_of_le_of_ne (not_lt.mp le) (Ne.symm ne)
    rw [ih sorted rest', find_cons c' l' above']
    split
    case isTrue eq =>
      have out : find k (c :: l) = none := find_of_lt fun c'' mem => by
        rcases List.mem_cons.mp mem with rfl | mem
        · exact eq ▸ lt
        · exact eq ▸ lt.trans (above c'' mem)
      simp [out]
    case isFalse => rfl

end Otawa.Cells
