import Mathlib.Data.List.Nodup

/-!
# Numbering by first use

Tables of keys, in which a key that is asked for is looked up and added at the end when it
is not there. The number of a key is its place in its table.

`Numbered` says what requests leave, one (`numbered_one`) or one after the other
(`Numbered.append`): the tables only grow, so that a number stays the place of its key, and
two requests get the same table and number exactly when they are for the same key of the
same table (`Numbered.eq_iff`).

In a list of uses, where a key may come again, the place of its first use is a number too.
These numbers have gaps unless no key is new after a key came again (`settled_iff`).
-/

namespace Otawa.Numbering

variable {κ α : Type}

/-- What some requests leave of their tables. -/
structure Numbered (tables tables' : κ → List α) (requests : List (κ × α)) (numbers : List (κ × Nat)) : Prop where
  grows : ∀ k, tables k <+: tables' k
  nodup : ∀ k, (tables' k).Nodup
  mem : ∀ k a, a ∈ tables' k ↔ a ∈ tables k ∨ (k, a) ∈ requests
  place : List.Forall₂ (fun r n => n.1 = r.1 ∧ (tables' r.1)[n.2]? = some r.2) requests numbers

/-- A place of a table is one of the tables that it grows to. -/
theorem place_of_prefix {keys keys' : List α} (grows : keys <+: keys') {n : Nat} {a : α} (place : keys[n]? = some a) :
    keys'[n]? = some a := by
  obtain ⟨more, rfl⟩ := grows
  rw [List.getElem?_append_left (List.getElem?_eq_some_iff.mp place).1]
  exact place

namespace Numbered

variable {tables tables' tables'' : κ → List α} {requests requests' : List (κ × α)}
  {numbers numbers' : List (κ × Nat)}

theorem refl (nodup : ∀ k, (tables k).Nodup) : Numbered tables tables [] [] :=
  ⟨fun _ => List.prefix_rfl, nodup, fun k a => by simp, .nil⟩

section

variable (numbered : Numbered tables tables' requests numbers)
include numbered

theorem append (later : Numbered tables' tables'' requests' numbers') :
    Numbered tables tables'' (requests ++ requests') (numbers ++ numbers') where
  grows k := (numbered.grows k).trans (later.grows k)
  nodup := later.nodup
  mem k a := by rw [later.mem, numbered.mem, List.mem_append, or_assoc]
  place := by
    refine List.rel_append (numbered.place.imp fun r n => ?_) later.place
    exact And.imp_right fun place => place_of_prefix (later.grows r.1) place

theorem length_eq : numbers.length = requests.length :=
  numbered.place.length_eq.symm

/-- The number of a request is the place of its key in the table in the end. -/
theorem getElem? {i : Nat} {r : κ × α} {n : κ × Nat}
    (hr : requests[i]? = some r) (hn : numbers[i]? = some n) : n.1 = r.1 ∧ (tables' r.1)[n.2]? = some r.2 := by
  obtain ⟨lt, rfl⟩ := List.getElem?_eq_some_iff.mp hr
  obtain ⟨lt', rfl⟩ := List.getElem?_eq_some_iff.mp hn
  exact numbered.place.get lt lt'

/-- Requests get the same number of the same table for the same key only. -/
theorem eq_iff {i j : Nat} {r r' : κ × α} {n n' : κ × Nat}
    (hr : requests[i]? = some r) (hr' : requests[j]? = some r') (hn : numbers[i]? = some n)
    (hn' : numbers[j]? = some n') : n = n' ↔ r = r' := by
  obtain ⟨k, a⟩ := r
  obtain ⟨k', a'⟩ := r'
  obtain ⟨m, x⟩ := n
  obtain ⟨m', x'⟩ := n'
  obtain ⟨rfl, place⟩ := numbered.getElem? hr hn
  obtain ⟨rfl, place'⟩ := numbered.getElem? hr' hn'
  constructor
  · intro eq
    cases eq
    exact congrArg _ (Option.some.inj (place.symm.trans place'))
  · intro eq
    cases eq
    have lt := (List.getElem?_eq_some_iff.mp place).1
    exact congrArg _ ((List.getElem?_inj lt (numbered.nodup _)).mp (place.trans place'.symm))

end

end Numbered

variable [DecidableEq κ] [DecidableEq α]

/-- The place of a key in its table, and the table with it. -/
def number (keys : List α) (a : α) : List α × Nat :=
  if a ∈ keys then (keys, keys.idxOf a) else (keys ++ [a], keys.length)

section

variable (keys : List α) (a : α)

theorem prefix_number : keys <+: (number keys a).1 := by
  unfold number
  split
  · exact List.prefix_rfl
  · exact List.prefix_append keys [a]

theorem getElem?_number : (number keys a).1[(number keys a).2]? = some a := by
  unfold number
  split
  case isTrue mem => exact List.getElem?_idxOf mem
  case isFalse => exact List.getElem?_concat_length

theorem nodup_number {keys : List α} (nodup : keys.Nodup) (a : α) : (number keys a).1.Nodup := by
  unfold number
  split
  case isTrue => exact nodup
  case isFalse new => exact List.nodup_append.mpr ⟨nodup, List.nodup_singleton a, by
    intro b mem c single
    rw [List.mem_singleton.mp single]
    rintro rfl
    exact new mem⟩

theorem mem_number {b : α} : b ∈ (number keys a).1 ↔ b ∈ keys ∨ b = a := by
  unfold number
  split
  case isTrue mem =>
    refine ⟨.inl, ?_⟩
    rintro (known | rfl)
    · exact known
    · exact mem
  case isFalse => rw [List.mem_append, List.mem_singleton]

end

/-- One request, for the key `a` of the table `k`. -/
theorem numbered_one {tables : κ → List α} (nodup : ∀ k, (tables k).Nodup) (k : κ) (a : α) :
    Numbered tables (Function.update tables k (number (tables k) a).1) [(k, a)] [(k, (number (tables k) a).2)] := by
  have other : ∀ k', k' ≠ k → Function.update tables k (number (tables k) a).1 k' = tables k' :=
    fun k' ne => Function.update_of_ne ne _ _
  have own : Function.update tables k (number (tables k) a).1 k = (number (tables k) a).1 :=
    Function.update_self _ _ _
  refine ⟨fun k' => ?_, fun k' => ?_, fun k' b => ?_, .cons ⟨rfl, ?_⟩ .nil⟩
  · by_cases eq : k' = k
    · rw [eq, own]
      exact prefix_number (tables k) a
    · exact ⟨[], (List.append_nil _).trans (other k' eq).symm⟩
  · by_cases eq : k' = k
    · rw [eq, own]
      exact nodup_number (nodup k) a
    · rw [other k' eq]
      exact nodup k'
  · rw [List.mem_singleton, Prod.mk.injEq]
    by_cases eq : k' = k
    · rw [eq, own, mem_number, and_iff_right rfl]
    · rw [other k' eq]
      exact ⟨.inl, fun mem => mem.resolve_right fun both => eq both.1⟩
  · rw [own]
    exact getElem?_number (tables k) a

/-- No key is new after a key came again. -/
def Settled (uses : List α) : Prop :=
  ∃ firsts again, uses = firsts ++ again ∧ firsts.Nodup ∧ again ⊆ firsts

theorem Settled.firstUses {uses : List α} (settled : Settled uses) :
    ∃ m, ∀ n, (∃ a ∈ uses, uses.idxOf a = n) ↔ n < m := by
  obtain ⟨firsts, again, rfl, nodup, subset⟩ := settled
  have known : ∀ a ∈ firsts ++ again, a ∈ firsts := fun a mem =>
    (List.mem_append.mp mem).elim id (subset ·)
  refine ⟨firsts.length, fun n => ⟨?_, fun lt => ?_⟩⟩
  · rintro ⟨a, mem, rfl⟩
    rw [List.idxOf_append_of_mem (known a mem)]
    exact List.idxOf_lt_length_of_mem (known a mem)
  · refine ⟨firsts[n], List.mem_append_left again (List.getElem_mem lt), ?_⟩
    rw [List.idxOf_append_of_mem (List.getElem_mem lt)]
    exact nodup.idxOf_getElem n lt

/-- The places of the first uses are the ones below a bound exactly when no key is new after a key came again. -/
theorem settled_iff (uses : List α) :
    (∃ m, ∀ n, (∃ a ∈ uses, uses.idxOf a = n) ↔ n < m) ↔ Settled uses := by
  refine ⟨fun ⟨m, places⟩ => ⟨uses.take m, uses.drop m, (List.take_append_drop m uses).symm, ?_, ?_⟩,
    Settled.firstUses⟩
  · rw [List.nodup_iff_injective_getElem]
    intro ⟨i, hi⟩ ⟨j, hj⟩ eq
    rw [List.length_take, Nat.lt_min] at hi hj
    simp only [List.getElem_take] at eq
    -- a place below the bound is the one of the first use of its key
    have first : ∀ k (hk : k < m ∧ k < uses.length), uses.idxOf uses[k] = k := by
      intro k hk
      obtain ⟨a, mem, rfl⟩ := (places k).mpr hk.1
      rw [List.getElem_idxOf]
    rw [Fin.mk.injEq, ← first i hi, ← first j hj, eq]
  · intro a mem
    have lt := (places _).mp ⟨a, List.mem_of_mem_drop mem, rfl⟩
    exact List.mem_take_iff_idxOf_lt (List.mem_of_mem_drop mem) |>.mpr lt

end Otawa.Numbering
