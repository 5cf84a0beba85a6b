import Otawa.Lib.Lru

/-!
# Age vectors

The abstract cache states of the MUST, MAY and persistence problems are vectors of
ages, one for each cache block of a set; the age `-1` stands for a block that is
not in the state. Blocks are numbered below `size`; the set itself may also hold
lines that have no number.
-/

namespace Otawa.Cache

/-- An age vector. Ages start at 0 for the newest block; -1 is an absent block. -/
structure Ages (size : Nat) where
  age : Fin size → Int
  absent_le : ∀ i, -1 ≤ age i

namespace Ages

variable {size : Nat}

def contains (d : Ages size) (id : Fin size) : Prop := d.age id ≠ -1

instance (d : Ages size) (id : Fin size) : Decidable (d.contains id) :=
  inferInstanceAs (Decidable (d.age id ≠ -1))

/-- The vector of `empty()`, where every block is absent. -/
def empty (size : Nat) : Ages size := ⟨fun _ => -1, fun _ => Int.le_refl _⟩

@[simp] theorem empty_age (i : Fin size) : (empty size).age i = -1 := rfl

theorem contains_iff_nonneg {d : Ages size} {id : Fin size} : d.contains id ↔ 0 ≤ d.age id := by
  have := d.absent_le id
  unfold contains
  omega

@[ext] theorem ext {d d' : Ages size} (h : ∀ i, d.age i = d'.age i) : d = d' := by
  cases d
  cases d'
  congr
  exact funext h

end Ages

/-- The set after the accesses of a history. -/
def accesses {A size : Nat} (s : Lru.LruSet Nat A) (h : List (Fin size)) : Lru.LruSet Nat A :=
  s.run (h.map fun id => id.val)

end Otawa.Cache
