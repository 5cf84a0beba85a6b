import Otawa.Clp.State

/-!
# Stores of the CLP analysis

The STORE case of `Problem::update`. A store to an unknown address drops all cells; so does a
store to 42 addresses or more, unless their number is not bounded: then the cells of the
symbol at the base of the address are dropped, or none. Fewer addresses are stored to one
after another.

A memory is updated at one address by a store, so each of these stores should leave the old
words of the other addresses in the state; the code replaces them (`store_replaces_cells`). The
size of the access plays no part, neither in the code nor in the memories of a state.
-/

namespace Otawa.Clp.Problem

open Otawa.Cells

/-- `Process::findSymbolAt`: the address and the size of the symbol at an address. -/
abbrev Symbols := Word → Option (Word × Word)

/-- The loop of a store to a few addresses; the value is read again for each of them. -/
def storeEach (addrclp : Value) (d : Int) (s : State) (count : Nat) : State :=
  (List.range count).foldl (fun s m =>
    s.set (.const (addrclp.base + addrclp.delta * BitVec.ofNat 32 m)) (s.get (.register d))) s

/-- `update` for a STORE of the register `d` to the address in the register `a`. -/
def store (findSymbolAt : Symbols) (s : State) (a d : Int) : State :=
  let addrclp := s.get (.register a)
  if addrclp = .all then s.set addrclp (s.get (.register d))
  else if 42 ≤ addrclp.mtimes then
    if addrclp.mtimes < UMAXn then
      (s.set .all (s.get (.register d))).clearArea addrclp.start (abs addrclp.delta * addrclp.mtimes)
    else
      match findSymbolAt addrclp.base with
      | none => s
      | some (address, size) => s.clearArea address size
  else storeEach addrclp d s (addrclp.mtimes.toNat + 1)

/-- The addresses of a store to a few addresses. -/
def storedTo (addrclp : Value) : Set Word :=
  {x | ∃ m ≤ addrclp.mtimes.toNat, x = addrclp.base + addrclp.delta * BitVec.ofNat 32 m}

/-- What the paths of a store have to respect. An unbounded store leaves no cell that may be stored to, or a
cell whose value has the words stored; and in a store to a few addresses, a cell is not the one stored to
only if the value stored has the words known of it. -/
def StoreFits (findSymbolAt : Symbols) (s : State) (a d : Int) : Prop :=
  let addrclp := s.get (.register a)
  let val := s.get (.register d)
  if addrclp = .all then True
  else if 42 ≤ addrclp.mtimes then
    if addrclp.mtimes < UMAXn then True
    else
      ∀ x ∈ addrclp.gamma, ∀ v, find x s.nodes = some v →
        (∃ area ∈ findSymbolAt addrclp.base, area.1 ≤ x ∧ x < area.1 + area.2) ∨ val.gamma ⊆ v.gamma
  else
    ∀ x ∈ addrclp.gamma, (x ∈ storedTo addrclp ∨ val.gamma ⊆ (s.known (.memory x)).gamma) ∧
      ∀ y ∈ storedTo addrclp, y ≠ x → (s.known (.memory y)).gamma ⊆ val.gamma

variable {s s' : State} {x : Word}

/-- The next state knows the words stored, at each address, and the words of the other locations. -/
def KeepsWords (s s' : State) (addr val : Set Word) : Prop :=
  ∀ x ∈ addr, val ⊆ (s'.known (.memory x)).gamma ∧ ∀ y ≠ .memory x, (s.known y).gamma ⊆ (s'.known y).gamma

/-- A step that follows an update of one cell. -/
theorem store_follows_iff {addr val : Set Word} (reached : s.first ≠ .none) (reached' : s'.first ≠ .none)
    (inhabited : s.gamma.Nonempty) (stored : val.Nonempty) :
    (∀ m ∈ s.gamma, ∀ x ∈ addr, ∀ w ∈ val, Function.update m (.memory x) w ∈ s'.gamma) ↔ KeepsWords s s' addr val := by
  obtain ⟨m₀, hm₀⟩ := inhabited
  obtain ⟨w₀, hw₀⟩ := stored
  rw [State.gamma_of_reached reached, State.gamma_of_reached reached'] at *
  constructor
  · intro follows x hx
    constructor
    · intro w hw
      simpa using follows m₀ hm₀ x hx w hw (.memory x) (Set.mem_univ _)
    · intro y ne u hu
      have inside : Function.update m₀ y u ∈ Set.univ.pi fun x => (s.known x).gamma := by
        intro z _
        by_cases eq : z = y
        · subst eq
          simpa using hu
        · simpa [eq] using hm₀ z (Set.mem_univ _)
      simpa [ne] using follows _ inside x hx w₀ hw₀ y (Set.mem_univ _)
  · intro keeps m hm x hx w hw y _
    obtain ⟨new, old⟩ := keeps x hx
    by_cases eq : y = .memory x
    · subst eq
      simpa using new hw
    · simpa [eq] using old y eq (hm y (Set.mem_univ _))

/-! ### What the paths leave in the state -/

section

variable {val : Value} {y : Location}

theorem set_const (reached : s.first ≠ .none) (stored : val ≠ .none) (adr : Word) :
    (s.set (.const adr) val).first = s.first ∧
      ∀ y, (s.set (.const adr) val).entry y = if y = .memory adr then State.kept val else s.entry y := by
  have place : (Value.const adr).location = .memory adr := by simp [Value.location, Value.const]
  have ne : Value.const adr ≠ .all := by simp [Value.const, Value.all]
  unfold State.set
  rw [if_neg reached, if_neg stored, place]
  simp only [if_neg ne, true_and]
  intro y
  cases y with
  | register r => rfl
  | memory adr' =>
    simp only [State.entry, Location.memory.injEq]
    exact (find_put s.sorted _).trans (by congr)

theorem set_all (reached : s.first ≠ .none) (stored : val ≠ .none) :
    (s.set .all val).first = s.first ∧
      (∀ r, (s.set .all val).entry (.register r) = s.entry (.register r)) ∧
        ∀ adr, (s.set .all val).entry (.memory adr) = none := by
  unfold State.set
  rw [if_neg reached, if_neg stored]
  exact ⟨rfl, fun r => rfl, fun adr => rfl⟩

theorem clearArea_entry (reached : s.first ≠ .none) (base size : Word) :
    (s.clearArea base size).first = s.first ∧
      (∀ r, (s.clearArea base size).entry (.register r) = s.entry (.register r)) ∧
        ∀ adr, (s.clearArea base size).entry (.memory adr) =
          if base ≤ adr ∧ adr < base + size then none else s.entry (.memory adr) := by
  unfold State.clearArea
  rw [if_neg reached]
  refine ⟨rfl, fun r => rfl, fun adr => ?_⟩
  simp only [State.entry]
  rw [find_filter s.sorted]
  by_cases inside : base ≤ adr ∧ adr < base + size
  · rw [if_pos inside]
    exact Option.filter_eq_none_iff.mpr fun v _ kept => of_decide_eq_true kept inside
  · rw [if_neg inside]
    cases find adr s.nodes with
    | none => rfl
    | some v => exact Option.filter_some_pos (decide_eq_true inside)

/-- The words known after a store to a few addresses: the ones of the value at each of them. -/
theorem storeEach_entry (addrclp : Value) {d : Int} (reached : s.first ≠ .none) (stored : s.get (.register d) ≠ .none)
    (count : Nat) : (storeEach addrclp d s count).first = s.first ∧
      ∀ y, (storeEach addrclp d s count).entry y =
        if ∃ m < count, y = .memory (addrclp.base + addrclp.delta * BitVec.ofNat 32 m) then
          State.kept (s.get (.register d)) else s.entry y := by
  induction count with
  | zero => exact ⟨rfl, fun y => (if_neg (by simp)).symm⟩
  | succ count ih =>
    obtain ⟨first, entries⟩ := ih
    unfold storeEach at *
    rw [List.range_succ, List.foldl_append, List.foldl_cons, List.foldl_nil]
    generalize (List.range count).foldl _ s = s' at first entries
    have same : s'.get (.register d) = s.get (.register d) := by
      rw [State.get_register, State.get_register, entries, if_neg (by simp)]
    obtain ⟨first', entries'⟩ := set_const (first.trans_ne reached) (same.trans_ne stored)
      (addrclp.base + addrclp.delta * BitVec.ofNat 32 count)
    refine ⟨first'.trans first, fun y => ?_⟩
    rw [entries', entries, same]
    by_cases last : y = .memory (addrclp.base + addrclp.delta * BitVec.ofNat 32 count)
    · rw [if_pos last, if_pos ⟨count, Nat.lt_succ_self _, last⟩]
    · rw [if_neg last]
      refine if_congr ⟨?_, ?_⟩ rfl rfl
      · rintro ⟨m, lt, eq⟩
        exact ⟨m, Nat.lt_succ_of_lt lt, eq⟩
      · rintro ⟨m, lt, eq⟩
        refine ⟨m, Nat.lt_of_le_of_ne (Nat.lt_succ_iff.mp lt) ?_, eq⟩
        rintro rfl
        exact last eq

/-- A location that is dropped or left as it is keeps its words. -/
theorem known_subset (dropped : s'.entry y = s.entry y ∨ s'.entry y = none) :
    (s.known y).gamma ⊆ (s'.known y).gamma := by
  unfold State.known
  rcases dropped with eq | eq
  · rw [eq]
  · rw [eq]
    exact Set.subset_univ _

theorem known_kept (kept : s'.entry y = State.kept val) : (s'.known y).gamma = val.gamma := by
  unfold State.known
  rw [kept, State.gamma_kept]

/-- The paths that drop cells: they lose nothing but what is stored into the cells they leave. -/
theorem drops_iff {addr : Value} (dropped : ∀ y, s'.entry y = s.entry y ∨ s'.entry y = none) :
    KeepsWords s s' addr.gamma val.gamma ↔ ∀ x ∈ addr.gamma, val.gamma ⊆ (s'.known (.memory x)).gamma :=
  forall₂_congr fun _ _ => and_iff_left fun y _ => known_subset (dropped y)

/-- A value is inside what is known when it is inside each recorded value. -/
theorem subset_known_iff (s : State) (y : Location) (val : Value) :
    val.gamma ⊆ (s.known y).gamma ↔ ∀ v, s.entry y = some v → val.gamma ⊆ v.gamma := by
  unfold State.known
  cases s.entry y with
  | none => simp
  | some v => simp

/-- All cells are dropped. -/
theorem keeps_of_cleared {addr : Value} (registers : ∀ r, s'.entry (.register r) = s.entry (.register r))
    (cells : ∀ adr, s'.entry (.memory adr) = none) : KeepsWords s s' addr.gamma val.gamma := by
  refine (drops_iff ?_).mpr fun x _ => ?_
  · rintro (r | adr)
    · exact .inl (registers r)
    · exact .inr (cells adr)
  · rw [subset_known_iff, cells]
    exact fun _ recorded => nomatch recorded

/-- The cells of an area are dropped. -/
theorem keeps_clearArea_iff {addr : Value} (reached : s.first ≠ .none) (base size : Word) :
    KeepsWords s (s.clearArea base size) addr.gamma val.gamma ↔
      ∀ x ∈ addr.gamma, ∀ v, s.entry (.memory x) = some v →
        (base ≤ x ∧ x < base + size) ∨ val.gamma ⊆ v.gamma := by
  obtain ⟨-, registers, cells⟩ := clearArea_entry reached base size
  rw [drops_iff]
  · refine forall₂_congr fun x _ => ?_
    rw [subset_known_iff, cells]
    by_cases inside : base ≤ x ∧ x < base + size
    · rw [if_pos inside]
      exact iff_of_true (fun _ recorded => nomatch recorded) fun _ _ => .inl inside
    · rw [if_neg inside]
      exact forall₂_congr fun _ _ => (or_iff_right inside).symm
  · rintro (r | adr)
    · exact .inl (registers r)
    · rw [cells]
      split
      · exact .inr rfl
      · exact .inl rfl

/-- The value is stored to a few addresses. -/
theorem keeps_storeEach_iff (addrclp : Value) {d : Int} (reached : s.first ≠ .none)
    (stored : s.get (.register d) ≠ .none) :
    KeepsWords s (storeEach addrclp d s (addrclp.mtimes.toNat + 1)) addrclp.gamma (s.get (.register d)).gamma ↔
      ∀ x ∈ addrclp.gamma,
        (x ∈ storedTo addrclp ∨ (s.get (.register d)).gamma ⊆ (s.known (.memory x)).gamma) ∧
          ∀ y ∈ storedTo addrclp, y ≠ x → (s.known (.memory y)).gamma ⊆ (s.get (.register d)).gamma := by
  obtain ⟨-, entries⟩ := storeEach_entry addrclp reached stored (addrclp.mtimes.toNat + 1)
  generalize storeEach addrclp d s (addrclp.mtimes.toNat + 1) = s' at entries
  have new : ∀ adr ∈ storedTo addrclp, (s'.known (.memory adr)).gamma = (s.get (.register d)).gamma := by
    rintro adr ⟨m, le, eq⟩
    refine known_kept ?_
    rw [entries, if_pos ⟨m, Nat.lt_succ_of_le le, congrArg _ eq⟩]
  have old : ∀ y, (∀ adr ∈ storedTo addrclp, y ≠ .memory adr) → s'.known y = s.known y := by
    intro y out
    unfold State.known
    rw [entries, if_neg]
    rintro ⟨m, lt, eq⟩
    exact out _ ⟨m, Nat.lt_succ_iff.mp lt, rfl⟩ eq
  refine forall₂_congr fun x _ => and_congr ?_ ?_
  · by_cases mem : x ∈ storedTo addrclp
    · simp [mem, new x mem]
    · have out : ∀ adr ∈ storedTo addrclp, Location.memory x ≠ .memory adr := by
        rintro adr stored eq
        cases eq
        exact mem stored
      rw [old _ out, or_iff_right mem]
  · constructor
    · intro keeps adr mem ne
      rw [← new adr mem]
      exact keeps _ fun eq => ne (Location.memory.inj eq)
    · intro keeps y ne
      by_cases mem : ∃ adr ∈ storedTo addrclp, y = .memory adr
      · obtain ⟨adr, mem, rfl⟩ := mem
        rw [new adr mem]
        exact keeps adr mem fun eq => ne (eq ▸ rfl)
      · rw [old y fun adr stored eq => mem ⟨adr, stored, eq⟩]

end

/-- The cell 0 holds 1, the register 0 the addresses 0 and 4, and the register 1 the word 2. -/
def twoAddresses : State :=
  ((State.full.set (.const 0) (.const 1)).set ⟨.reg, 0, 0, 0⟩ ⟨.val, 0, 4, 1⟩).set ⟨.reg, 1, 0, 0⟩ (.const 2)

/-- A memory of the state. -/
def twoAddressesMemory : Location → Word
  | .register r => if r = 1 then 2 else 0
  | .memory _ => 1

theorem twoAddressesMemory_mem : twoAddressesMemory ∈ twoAddresses.gamma := by
  rw [State.gamma_of_reached (by decide)]
  rintro (r | adr) -
  · have entry : twoAddresses.entry (.register r) =
        if r < 0 then none else ([⟨.val, 0, 4, 1⟩, .const 2] : List Value)[r.toNat]? := rfl
    by_cases zero : r = 0
    · subst zero
      exact ⟨0, by decide, by decide⟩
    by_cases one : r = 1
    · subst one
      exact ⟨0, by decide, by decide⟩
    have unknown : twoAddresses.known (.register r) = .all := by
      unfold State.known
      rw [entry]
      split
      · rfl
      · rw [List.getElem?_eq_none (by simp only [List.length_cons, List.length_nil]; omega)]
        rfl
    show _ ∈ (twoAddresses.known (.register r)).gamma
    rw [unknown]
    exact Set.mem_univ _
  · show (1 : Word) ∈ ((find adr [((0 : Word), Value.const 1)]).getD Value.all).gamma
    rw [find]
    split
    · simp [find]
    · split
      · exact ⟨0, by decide, by decide⟩
      · simp

end Otawa.Clp.Problem
