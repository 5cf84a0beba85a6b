import Otawa.Stack.Value
import Otawa.Lib.Cells

/-!
# States of the stack analysis

`State` binds addresses (registers, stack offsets and constants) to values, in a list sorted by the addresses.
What is not bound has the value of the head node, the top value or, in the bottom state, the bottom value,
except that `get` looks for a constant address in the image of the program.

`equals` compares the value of a cell with itself, so it is wrong exactly on the states that bind the same
addresses to other values (`same_iff_unless_values`).
-/

namespace Otawa.Stack

open Cells
open Clp (Word)

/-- The image of the program: which addresses a segment contains and, by the number of bytes, the unsigned
number there. -/
structure Process where
  contains : Word → Bool
  get : Word → ℕ → Word

structure State where
  first : Value
  nodes : List (Value × Value)
  sorted : Sorted nodes

namespace State

/-- `State::EMPTY`. -/
def empty : State := ⟨.bot, [], List.Pairwise.nil⟩

/-- `State::FULL`, and the default of the constructor. -/
def full : State := ⟨.top, [], List.Pairwise.nil⟩

def binding (s : State) (addr : Value) : Option Value :=
  find addr s.nodes

/-- A value is kept unless it is the top one. -/
def kept (val : Value) : Option Value :=
  if val.kind = .all then none else some val

/-- An unknown address drops the cells from the first one on that is neither a register nor in the stack. -/
def set (s : State) (addr val : Value) : State :=
  if s.first = .bot then s
  else if addr.kind = .all then
    { s with
      nodes := s.nodes.takeWhile fun n => n.1.kind.rank ≤ Kind.sp.rank
      sorted := s.sorted.sublist (List.takeWhile_sublist _) }
  else { s with nodes := put addr (kept val) s.nodes, sorted := sorted_put s.sorted addr (kept val) }

/-- The loop of `equals` over the two lists. It compares the value of a cell with itself. -/
def sameNodes : List (Value × Value) → List (Value × Value) → Bool
  | [], [] => true
  | n :: l, n' :: l' => n.1 = n'.1 && n.2 = n.2 && sameNodes l l'
  | _, _ => false

def equals (s state : State) : Bool :=
  s.first.kind = state.first.kind && sameNodes s.nodes state.nodes

def join (s state : State) : State :=
  if state.first = .bot then s
  else if s.first = .bot then state
  else
    { s with
      nodes := merge (fun v v' => kept (v.join v')) s.nodes state.nodes
      sorted := sorted_merge s.sorted }

def fromImage (s : State) (proc : Process) (addr : Word) (size : ℕ) : Value :=
  if size = 1 ∨ size = 2 ∨ size = 4 then .cst (proc.get addr size) else s.first

def get (s : State) (proc : Process) (addr : Value) (size : ℕ) : Value :=
  match s.binding addr with
  | some v => v
  | none => if addr.kind = .cst ∧ proc.contains addr.val then s.fromImage proc addr.val size else s.first

/-- The states of the analysis. -/
inductive Reachable : State → Prop where
  | empty : Reachable empty
  | full : Reachable full
  | set {s : State} (addr val : Value) : Reachable s → Reachable (s.set addr val)
  | join {s state : State} : Reachable s → Reachable state → Reachable (s.join state)

abbrev IsBottom (s : State) : Prop := s.first = .bot

/-- The head node has the top or the bottom value, and no cell has the top value. -/
structure Valid (s : State) : Prop where
  first : s.first = .bot ∨ s.first = .top
  cells : ∀ addr v, s.binding addr = some v → v.kind ≠ .all

variable {s a c : State}

theorem kept_eq_some {val v : Value} : kept val = some v ↔ val = v ∧ v.kind ≠ .all := by
  unfold kept
  split
  case isTrue htop =>
    constructor
    · intro h
      cases h
    · rintro ⟨rfl, hne⟩
      exact absurd htop hne
  case isFalse hne =>
    constructor
    · intro h
      cases h
      exact ⟨rfl, hne⟩
    · rintro ⟨rfl, -⟩
      rfl

theorem binding_set {addr val : Value} (hne : s.first ≠ .bot) (haddr : addr.kind ≠ .all) (x : Value) :
    (s.set addr val).binding x = if x = addr then kept val else s.binding x := by
  unfold set binding
  rw [if_neg hne, if_neg haddr, find_put s.sorted]
  split <;> rfl

/-- A store at an unknown address keeps some of the cells. -/
theorem binding_set_unknown {addr val x v : Value} (haddr : addr.kind = .all)
    (h : (s.set addr val).binding x = some v) : s.binding x = some v := by
  unfold set at h
  rw [if_pos haddr] at h
  split at h
  case isTrue => exact h
  case isFalse =>
    unfold binding at h ⊢
    rw [find_eq_some_iff (s.sorted.sublist (List.takeWhile_sublist _))] at h
    exact (find_eq_some_iff s.sorted).mpr ((List.takeWhile_sublist _).subset h)

theorem binding_join (ha : a.first ≠ .bot) (hc : c.first ≠ .bot) (x : Value) :
    (a.join c).binding x = (a.binding x).bind fun v => (c.binding x).bind fun v' => kept (v.join v') := by
  unfold join binding
  rw [if_neg hc, if_neg ha]
  exact find_merge a.sorted c.sorted

theorem first_set (addr val : Value) : (s.set addr val).first = s.first := by
  unfold set
  split
  · rfl
  · split <;> rfl

theorem first_join (ha : a.first ≠ .bot) : (a.join c).first = a.first := by
  unfold join
  rw [if_neg ha]
  split <;> rfl

theorem Reachable.valid (h : Reachable s) : s.Valid := by
  induction h with
  | empty => exact ⟨.inl rfl, fun _ _ h => nomatch h⟩
  | full => exact ⟨.inr rfl, fun _ _ h => nomatch h⟩
  | @set s addr val _ ih =>
    refine ⟨by rw [first_set]; exact ih.first, fun x v h => ?_⟩
    by_cases hbot : s.first = .bot
    · unfold State.set at h
      rw [if_pos hbot] at h
      exact ih.cells x v h
    · by_cases haddr : addr.kind = .all
      · exact ih.cells x v (binding_set_unknown haddr h)
      · rw [binding_set hbot haddr] at h
        split at h
        · exact (kept_eq_some.mp h).2
        · exact ih.cells x v h
  | @join a c _ _ iha ihc =>
    by_cases hc : c.first = .bot
    · unfold State.join
      rw [if_pos hc]
      exact iha
    · by_cases ha : a.first = .bot
      · unfold State.join
        rw [if_neg hc, if_pos ha]
        exact ihc
      · refine ⟨by rw [first_join ha]; exact iha.first, fun x v h => ?_⟩
        rw [binding_join ha hc] at h
        obtain ⟨v₁, -, h⟩ := Option.bind_eq_some_iff.mp h
        obtain ⟨v₂, -, h⟩ := Option.bind_eq_some_iff.mp h
        exact (kept_eq_some.mp h).2

theorem sameNodes_iff (l l' : List (Value × Value)) :
    sameNodes l l' = true ↔ l.map Prod.fst = l'.map Prod.fst := by
  induction l generalizing l' with
  | nil => cases l' <;> simp [sameNodes]
  | cons n l ih => cases l' <;> simp [sameNodes, ih]

theorem Valid.kind_eq_iff (ha : a.Valid) (hc : c.Valid) : a.first.kind = c.first.kind ↔ (a.IsBottom ↔ c.IsBottom) := by
  obtain ha | ha := ha.first <;> obtain hc | hc := hc.first <;> simp only [IsBottom, ha, hc] <;> decide

theorem isSome_find {l : List (Value × Value)} (hl : Sorted l) (x : Value) :
    (find x l).isSome ↔ x ∈ l.map Prod.fst := by
  rw [Option.isSome_iff_exists]
  constructor
  · rintro ⟨v, hv⟩
    exact List.mem_map.mpr ⟨_, (find_eq_some_iff hl).mp hv, rfl⟩
  · intro hx
    obtain ⟨⟨_, v⟩, hv, rfl⟩ := List.mem_map.mp hx
    exact ⟨v, (find_eq_some_iff hl).mpr hv⟩

/-- Sorted lists have the same addresses in the same order when they bind the same ones. -/
theorem addresses_eq_iff : a.nodes.map Prod.fst = c.nodes.map Prod.fst ↔
    ∀ x, (a.binding x).isSome ↔ (c.binding x).isSome := by
  unfold binding
  constructor
  · intro heq x
    rw [isSome_find a.sorted, isSome_find c.sorted, heq]
  · intro hsame
    have hsort : ∀ s : State, (s.nodes.map Prod.fst).Pairwise (· < ·) := fun s => List.pairwise_map.mpr s.sorted
    refine (hsort a).eq_of_mem_iff (hsort c) fun x => ?_
    rw [← isSome_find a.sorted, ← isSome_find c.sorted]
    exact hsame x

theorem equals_iff (ha : a.Valid) (hc : c.Valid) : a.equals c = true ↔
    (a.IsBottom ↔ c.IsBottom) ∧ ∀ x, (a.binding x).isSome ↔ (c.binding x).isSome := by
  rw [← ha.kind_eq_iff hc, ← addresses_eq_iff, ← sameNodes_iff]
  simp [equals]

/-- The states bind the same addresses to the same values, and both are bottom or neither is. -/
def Same (a c : State) : Prop :=
  (∀ x, a.binding x = c.binding x) ∧ (a.IsBottom ↔ c.IsBottom)

/-- The states bind the same addresses, one of them to other values, and both are bottom or neither is. -/
def OtherValues (a c : State) : Prop :=
  (∀ x, (a.binding x).isSome ↔ (c.binding x).isSome) ∧ (a.IsBottom ↔ c.IsBottom) ∧
    ∃ x, a.binding x ≠ c.binding x

/-- `equals` is exact, on two states of the analysis, if and only if they do not differ in values only. -/
theorem same_iff_unless_values (a c : State) (ha : Reachable a) (hc : Reachable c) :
    (a.equals c = true ↔ Same a c) ↔ ¬ OtherValues a c := by
  rw [equals_iff ha.valid hc.valid]
  constructor
  · rintro hexact ⟨haddr, hbot, x, hne⟩
    exact hne ((hexact.mp ⟨hbot, haddr⟩).1 x)
  · intro hvalues
    constructor
    · rintro ⟨hbot, haddr⟩
      refine ⟨fun x => ?_, hbot⟩
      by_contra hne
      exact hvalues ⟨haddr, hbot, x, hne⟩
    · rintro ⟨hsame, hbot⟩
      exact ⟨hbot, fun x => by rw [hsame x]⟩

/-- The register 0 holds the constant. -/
def holding (k : Word) : State :=
  full.set (.reg 0) (.cst k)

theorem same_iff_unless_values_one : (full.equals (holding 1) = true ↔ Same full (holding 1)) ↔
    ¬ OtherValues full (holding 1) :=
  same_iff_unless_values full (holding 1) .full (.set _ _ .full)

/-- Two states are equal for `equals` while the register 0 still changes. -/
theorem equals_ignores_values : ¬ ∀ a c, Reachable a → Reachable c → (a.equals c = true ↔ Same a c) := by
  intro hexact
  have hsame := (hexact (holding 1) (holding 2) (.set _ _ .full) (.set _ _ .full)).mp (by decide)
  exact absurd (hsame.1 (.reg 0)) (by decide)

end State

end Otawa.Stack
