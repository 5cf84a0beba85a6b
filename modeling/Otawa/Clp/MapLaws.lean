import Otawa.Clp.Store

/-!
# The memory of a state as a map

The cells of a state that the analysis can reach are sorted by their addresses and none
is unknown; a state that is not the bottom is then a map from addresses to values, with
the default `Value::all`. Setting a cell changes that cell, and clearing an area the
cells in it, provided that the end of the area is an address.

The bottom is no such map: nothing can be set in it, and setting `Value::none` anywhere
leads to it.
-/

namespace Otawa.Clp.State

open Otawa.Cells

variable {s : State} {addr val : Value} {base size : Word}

/-- The value read of an address that has the value. -/
def readBack (val : Value) : Value := if val.kind = .all then .all else val

theorem getD_kept (val : Value) : (kept val).getD .all = readBack val := by
  unfold kept readBack
  split <;> rfl

theorem Reachable.first_eq (reachable : s.Reachable) (reached : s.first ≠ .none) : s.first = .all :=
  reachable.valid.first.resolve_left reached

/-- In a state that is not the bottom, what is not recorded is unknown. -/
theorem Reachable.get_eq (reachable : s.Reachable) (reached : s.first ≠ .none) (x : Location) :
    s.get x = (s.entry x).getD .all := by
  cases x with
  | register r => exact s.get_register r
  | memory a => rw [get_memory, reachable.first_eq reached]

theorem location_of_val (kind : addr.kind = .val) : addr.location = .memory addr.base := by
  have ne : addr.kind ≠ .reg := by
    rw [kind]
    decide
  exact if_neg ne

theorem set_entry (reached : s.first ≠ .none) (stored : val ≠ .none) (kind : addr.kind = .val) :
    (s.set addr val).first = s.first ∧
      ∀ x, (s.set addr val).entry x = if x = addr.location then kept val else s.entry x := by
  have ne : addr ≠ .all := fun eq => nomatch kind.symm.trans (congrArg Value.kind eq)
  rw [location_of_val kind]
  unfold set
  rw [if_neg reached, if_neg stored, location_of_val kind]
  simp only [if_neg ne, true_and]
  intro x
  cases x with
  | register r => rfl
  | memory a =>
    simp only [entry, Location.memory.injEq]
    exact (find_put s.sorted _).trans (by congr)

/-- What is read after a cell is set. -/
theorem get_set (reachable : s.Reachable) (reached : s.first ≠ .none) (stored : val ≠ .none)
    (kind : addr.kind = .val) (x : Location) :
    (s.set addr val).get x = if x = addr.location then readBack val else s.get x := by
  obtain ⟨first, entries⟩ := set_entry reached stored kind
  rw [(reachable.set addr val).get_eq (first.trans_ne reached), entries, reachable.get_eq reached]
  split
  · exact getD_kept val
  · rfl

/-- An address of the area, of which the end does not wrap. -/
def InArea (base size : Word) (x : Location) : Prop :=
  ∃ a : Word, x = .memory a ∧ base.toNat ≤ a.toNat ∧ a.toNat < base.toNat + size.toNat

theorem inArea_iff (fits : base.toNat + size.toNat < 2 ^ 32) (a : Word) :
    InArea base size (.memory a) ↔ base ≤ a ∧ a < base + size := by
  have sum : (base + size).toNat = base.toNat + size.toNat := by
    rw [BitVec.toNat_add, Nat.mod_eq_of_lt fits]
  constructor
  · rintro ⟨a', same, from', below⟩
    cases same
    refine ⟨from', ?_⟩
    rw [← sum] at below
    exact below
  · rintro ⟨from', below⟩
    refine ⟨a, rfl, from', ?_⟩
    rw [← sum]
    exact below

/-- What is read after an area is cleared. -/
theorem get_clearArea (reachable : s.Reachable) (reached : s.first ≠ .none)
    (fits : base.toNat + size.toNat < 2 ^ 32) (x : Location) :
    (InArea base size x → (s.clearArea base size).get x = .all) ∧
      (¬ InArea base size x → (s.clearArea base size).get x = s.get x) := by
  obtain ⟨first, registers, cells⟩ := Problem.clearArea_entry reached base size
  rw [(reachable.clearArea base size).get_eq (first.trans_ne reached), reachable.get_eq reached]
  cases x with
  | register r =>
    rw [registers]
    refine ⟨?_, fun _ => rfl⟩
    rintro ⟨a, same, -⟩
    cases same
  | memory a =>
    rw [cells, inArea_iff fits]
    exact ⟨fun inside => by rw [if_pos inside]; rfl, fun outside => by rw [if_neg outside]⟩

/-- The laws of the memory, in each state that the operations lead to. -/
theorem memory_laws (s : State) (reachable : s.Reachable) :
    s.nodes.Pairwise (fun n n' => n.1 < n'.1) ∧ (∀ n ∈ s.nodes, n.2.kind ≠ .all) ∧
      (s.first ≠ .none →
        (∀ addr val : Value, addr.kind = .val → val ≠ .none →
          (s.set addr val).get addr.location = (if val.kind = .all then .all else val) ∧
            ∀ x, x ≠ addr.location → (s.set addr val).get x = s.get x) ∧
        ∀ base size : Word, base.toNat + size.toNat < 2 ^ 32 → ∀ x,
          (InArea base size x → (s.clearArea base size).get x = .all) ∧
            (¬ InArea base size x → (s.clearArea base size).get x = s.get x)) := by
  refine ⟨s.sorted, fun n mem => (reachable.valid.cells n mem).1, fun reached => ⟨?_, ?_⟩⟩
  · intro addr val kind stored
    have read := get_set reachable reached stored kind
    exact ⟨(read _).trans (if_pos rfl), fun x ne => (read x).trans (if_neg ne)⟩
  · intro base size fits x
    exact get_clearArea reachable reached fits x

/-- A state with one cell. -/
theorem memory_laws_cell :
    (cell 1).nodes.Pairwise (fun n n' => n.1 < n'.1) ∧ (∀ n ∈ (cell 1).nodes, n.2.kind ≠ .all) ∧
      ((cell 1).first ≠ .none →
        (∀ addr val : Value, addr.kind = .val → val ≠ .none →
          ((cell 1).set addr val).get addr.location = (if val.kind = .all then .all else val) ∧
            ∀ x, x ≠ addr.location → ((cell 1).set addr val).get x = (cell 1).get x) ∧
        ∀ base size : Word, base.toNat + size.toNat < 2 ^ 32 → ∀ x,
          (InArea base size x → ((cell 1).clearArea base size).get x = .all) ∧
            (¬ InArea base size x → ((cell 1).clearArea base size).get x = (cell 1).get x)) :=
  memory_laws (cell 1) (.set _ _ .full)

/-- Nothing can be set in the bottom, and nothing is cleared of an area that reaches the
last address. -/
theorem bottom_keeps_none :
    (¬ ∀ s : State, s.Reachable → ∀ addr val : Value, addr.kind = .val →
      (s.set addr val).get addr.location = val) ∧
    ¬ ∀ s : State, s.Reachable → ∀ (base size : Word) (x : Location), InArea base size x →
      (s.clearArea base size).get x = .all := by
  constructor
  · intro law
    have read := law bottom .bottom (.const 0) (.const 5) rfl
    exact absurd read (by decide)
  · intro law
    have read := law (full.set (.const 0xfffffff8) (.const 1)) (.set _ _ .full) 0xfffffff0 16
      (.memory 0xfffffff8) ⟨0xfffffff8, rfl, by decide, by decide⟩
    exact absurd read (by decide)

end Otawa.Clp.State
