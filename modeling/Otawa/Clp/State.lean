import Otawa.Clp.Join
import Otawa.Clp.Widening
import Otawa.Lib.Cells

/-!
# States of the CLP analysis

`State` holds a value for each register and each memory cell it knows: vectors for the
registers and the temporaries, and a list of cells sorted by their addresses. What is not in
a vector is unknown; what is not in the list has the value of the head node, which is
`Value::all` in the states of the analysis and `Value::none` in its bottom.

`State.gamma` is the set of memories a state stands for, and `entry` what it records of a
register or a cell. The join appends the registers that one vector has and the other has not,
where they are unknown in the join of the memories (`state_join_upper_bound`); `equals`
compares each cell with itself and leaves the temporaries out (`equals_exact_iff`).
-/

namespace Otawa.Clp

open Otawa.Cells

/-- Addresses go up as unsigned words. -/
instance : LinearOrder Word := LinearOrder.lift' BitVec.toNat fun _ _ => BitVec.eq_of_toNat_eq

/-- A register, where negative numbers are temporaries, or a memory cell. -/
inductive Location where
  | register (r : Int)
  | memory (a : Word)
  deriving DecidableEq

/-- What an address value names; only its base counts. -/
def Value.location (addr : Value) : Location :=
  if addr.kind = .reg then .register addr.base.toInt else .memory addr.base

structure State where
  first : Value
  nodes : List (Word × Value)
  registers : List Value
  tmpreg : List Value
  sorted : Sorted nodes

namespace State

/-- `State::EMPTY`. -/
def bottom : State := ⟨.none, [], [], [], List.Pairwise.nil⟩

/-- `State::FULL`, and the default of the constructor. -/
def full : State := ⟨.all, [], [], [], List.Pairwise.nil⟩

/-- What the state records of a location. The entry 0 of the temporaries is never read. -/
def entry (s : State) : Location → Option Value
  | .register r => if r < 0 then s.tmpreg[(-r).toNat]? else s.registers[r.toNat]?
  | .memory a => find a s.nodes

def get (s : State) : Location → Value
  | .register r => (s.entry (.register r)).getD .all
  | .memory a => (s.entry (.memory a)).getD s.first

theorem get_register (s : State) (r : Int) : s.get (.register r) = (s.entry (.register r)).getD .all := rfl

theorem get_memory (s : State) (a : Word) : s.get (.memory a) = (s.entry (.memory a)).getD s.first := rfl

/-- `State::clear`; the head node stays. -/
def clear (s : State) : State := ⟨s.first, [], [], [], List.Pairwise.nil⟩

/-- `State::clear` of an area: `base + size` is an unsigned word. -/
def clearArea (s : State) (base size : Word) : State :=
  if s.first = .none then s
  else
    { s with
      nodes := s.nodes.filter fun n => ¬ (base ≤ n.1 ∧ n.1 < base + size)
      sorted := s.sorted.filter _ }

/-- The vector with a value at an index, lengthened by unknown values if need be. -/
def setAt (l : List Value) (i : Nat) (val : Value) : List Value :=
  if i < l.length then l.set i val else l ++ List.replicate (i - l.length) .all ++ [val]

/-- A cell is kept for a value other than the top one. -/
def kept (val : Value) : Option Value := if val.kind = .all then none else some val

def set (s : State) (addr val : Value) : State :=
  if s.first = .none then s
  else if val = .none then bottom
  else
    match addr.location with
    | .register r =>
        if r < 0 then { s with tmpreg := setAt s.tmpreg (-r).toNat val }
        else { s with registers := setAt s.registers r.toNat val }
    | .memory a =>
        if addr = .all then { s with nodes := [], sorted := List.Pairwise.nil }
        else { s with nodes := put a (kept val) s.nodes, sorted := sorted_put s.sorted a (kept val) }

/-- The loop of `equals` over the two lists. It compares the value of a cell with itself. -/
def sameNodes : List (Word × Value) → List (Word × Value) → Bool
  | [], [] => true
  | n :: l, n' :: l' => n.1 = n'.1 && n.2 = n.2 && sameNodes l l'
  | _, _ => false

def equals (s state : State) : Bool :=
  s.registers = state.registers && s.first.kind = state.first.kind && sameNodes s.nodes state.nodes

/-- The values of two vectors, by `op` where both have one and as they are elsewhere. -/
def combine (op : Value → Value → Value) (l l' : List Value) : List Value :=
  List.zipWith op l l' ++ (l.drop l'.length ++ l'.drop l.length)

/-- The common code of `join` and `widening`. -/
def combineWith (op : Value → Value → Value) (s state : State) : State :=
  if state.first = .none then s
  else if s.first = .none then state
  else
    { first := s.first
      nodes := merge (fun v v' => kept (op v v')) s.nodes state.nodes
      registers := combine op s.registers state.registers
      tmpreg := combine op s.tmpreg state.tmpreg
      sorted := sorted_merge s.sorted }

def join (s state : State) : State := combineWith Value.join s state

end State

/-- `Value::ffwidening`. -/
def Value.ffwidening (s val : Value) (loopBound : Word) : Value :=
  if s.kind = .none ∧ val.kind = .none then s
  else if s.kind = .all ∨ val.kind = .all then all
  else if s = val then s
  else if s.isConst ∧ val.isConst then
    if s.base.toInt < val.base.toInt then ⟨.val, s.base, val.base - s.base, loopBound⟩
    else
      let step := s.base - val.base
      ⟨.val, s.base - loopBound * step, step, loopBound⟩
  else if s.delta = val.delta ∧ (val.base - s.base).srem s.delta = 0 ∧ val.mtimes ≤ s.mtimes then s
  else all

namespace State

def widening (s state : State) (loopBound : Word) : State :=
  combineWith (fun v v' => if 0 ≤ loopBound.toInt then v.ffwidening v' loopBound else v.widening v') s state

/-! ### What a state stands for -/

/-- The value known of a location. -/
def known (s : State) (x : Location) : Value := (s.entry x).getD .all

/-- The memories of a state: each location has a word of the value known of it. -/
def gamma (s : State) : Set (Location → Word) :=
  if s.first = .none then ∅ else Set.univ.pi fun x => (s.known x).gamma

/-! ### The join -/

variable {s a c : State} {x : Location}

theorem getElem?_combine (op : Value → Value → Value) (l l' : List Value) (i : Nat) :
    (combine op l l')[i]? = Option.merge op l[i]? l'[i]? := by
  induction l generalizing l' i with
  | nil => cases h : l'[i]? <;> simp [combine, h]
  | cons v rest ih =>
    cases l' with
    | nil => cases h : (v :: rest)[i]? <;> simp [combine, h]
    | cons v' rest' =>
      cases i with
      | zero => rfl
      | succ i => exact ih rest' i

/-- What a join or a widening records, the states not being empty. -/
theorem entry_combineWith (op : Value → Value → Value) (reached : a.first ≠ .none) (reached' : c.first ≠ .none)
    (x : Location) : (combineWith op a c).entry x = match x with
      | .register _ => Option.merge op (a.entry x) (c.entry x)
      | .memory _ => (a.entry x).bind fun v => (c.entry x).bind fun v' => kept (op v v') := by
  unfold combineWith
  rw [if_neg reached', if_neg reached]
  cases x with
  | register r =>
    simp only [entry]
    split <;> exact getElem?_combine _ _ _ _
  | memory adr => exact find_merge a.sorted c.sorted

/-- A kept cell has the words of its value, and a dropped one all words. -/
theorem gamma_kept (v : Value) : ((kept v).getD .all).gamma = v.gamma := by
  unfold kept
  split
  case isTrue top => rw [Value.gamma_of_all top]; rfl
  case isFalse => rfl

/-- The join keeps the words that the left state has at a location: a value of both states is joined by an
upper bound, and a register of the right state only is unknown there too. -/
def KeepsLeft (a c : State) (x : Location) : Prop :=
  match x, a.entry x, c.entry x with
  | _, some v, some v' => v.gamma ⊆ (v.join v').gamma
  | .register _, none, some v' => v'.gamma = Set.univ
  | _, _, _ => True

/-- The same for the words of the right state. -/
def KeepsRight (a c : State) (x : Location) : Prop :=
  match x, a.entry x, c.entry x with
  | _, some v, some v' => v'.gamma ⊆ (v.join v').gamma
  | .register _, some v, none => v.gamma = Set.univ
  | _, _, _ => True

theorem known_join_left (reached : a.first ≠ .none) (reached' : c.first ≠ .none) (x : Location) :
    (a.known x).gamma ⊆ ((a.join c).known x).gamma ↔ KeepsLeft a c x := by
  unfold known join KeepsLeft
  rw [entry_combineWith _ reached reached']
  cases x with
  | register r =>
    cases a.entry (.register r) <;> cases c.entry (.register r) <;> simp [Set.univ_subset_iff]
  | memory adr =>
    cases a.entry (.memory adr) <;> cases c.entry (.memory adr) <;> simp [gamma_kept]

theorem known_join_right (reached : a.first ≠ .none) (reached' : c.first ≠ .none) (x : Location) :
    (c.known x).gamma ⊆ ((a.join c).known x).gamma ↔ KeepsRight a c x := by
  unfold known join KeepsRight
  rw [entry_combineWith _ reached reached']
  cases x with
  | register r =>
    cases a.entry (.register r) <;> cases c.entry (.register r) <;> simp [Set.univ_subset_iff]
  | memory adr =>
    cases a.entry (.memory adr) <;> cases c.entry (.memory adr) <;> simp [gamma_kept]

/-- Some location has no word, so the state stands for no memory. -/
def Void (s : State) : Prop := ∃ x, (s.known x).gamma = ∅

/-- The states whose join is an upper bound: one is empty, or the join keeps what each of them has. -/
def JoinCovers (a c : State) : Prop :=
  a.first = .none ∨ c.first = .none ∨
    ((a.Void ∨ ∀ x, KeepsLeft a c x) ∧ (c.Void ∨ ∀ x, KeepsRight a c x))

theorem first_combineWith (op : Value → Value → Value) (reached : a.first ≠ .none) :
    (combineWith op a c).first = a.first := by
  unfold combineWith
  rw [if_neg reached]
  split <;> rfl

theorem gamma_of_reached (reached : s.first ≠ .none) : s.gamma = Set.univ.pi fun x => (s.known x).gamma :=
  if_neg reached

theorem mem_full (m : Location → Word) : m ∈ full.gamma := by
  rw [gamma_of_reached (by decide)]
  rintro (r | adr) -
  · simp [known, entry, full]
  · simp [known, entry, full, find]

theorem union_subset_join_iff (a c : State) : a.gamma ∪ c.gamma ⊆ (a.join c).gamma ↔ JoinCovers a c := by
  unfold JoinCovers
  by_cases emptyA : a.first = .none
  · simp only [emptyA, true_or, iff_true]
    have noneA : a.gamma = ∅ := if_pos emptyA
    rw [noneA, Set.empty_union, join, combineWith]
    split
    case isTrue emptyC => simp [gamma, emptyC]
    case isFalse => exact Set.Subset.rfl
  by_cases emptyC : c.first = .none
  · simp only [emptyC, true_or, or_true, iff_true]
    have noneC : c.gamma = ∅ := if_pos emptyC
    rw [noneC, Set.union_empty, join, combineWith, if_pos emptyC]
  simp only [emptyA, emptyC, false_or]
  have reached : (a.join c).first ≠ .none := (first_combineWith _ emptyA).trans_ne emptyA
  rw [Set.union_subset_iff, gamma_of_reached emptyA, gamma_of_reached emptyC, gamma_of_reached reached,
    Set.univ_pi_subset_univ_pi_iff, Set.univ_pi_subset_univ_pi_iff]
  simp only [known_join_left emptyA emptyC, known_join_right emptyA emptyC]
  exact and_congr Or.comm Or.comm

/-- The join of two states is an upper bound of both exactly when it keeps what each has, and it does when
the joins of their values are upper bounds and no register is known in one state only. -/
theorem state_join_upper_bound (a c : State) :
    (a.gamma ∪ c.gamma ⊆ (a.join c).gamma ↔ JoinCovers a c) ∧
      ((∀ x v v', a.entry x = some v → c.entry x = some v' → v.JoinFits v') →
        (∀ r, (a.entry (.register r)).isSome = (c.entry (.register r)).isSome) → JoinCovers a c) := by
  refine ⟨union_subset_join_iff a c, fun fits same => .inr (.inr ⟨.inr fun x => ?_, .inr fun x => ?_⟩)⟩
  · unfold KeepsLeft
    split
    case h_1 v v' isA isC => exact Set.subset_union_left.trans (Value.union_subset_join (fits _ _ _ isA isC))
    case h_2 r v' isA isC => simpa [isA, isC] using same r
    case h_3 => trivial
  · unfold KeepsRight
    split
    case h_1 v v' isA isC => exact Set.subset_union_right.trans (Value.union_subset_join (fits _ _ _ isA isC))
    case h_2 r v isA isC => simpa [isA, isC] using same r
    case h_3 => trivial

/-- The register 0 holds 5. -/
def five : State := full.set ⟨.reg, 0, 0, 0⟩ (.const 5)

/-- A state joined with itself. -/
theorem state_join_upper_bound_self : five.gamma ∪ five.gamma ⊆ (five.join five).gamma :=
  (state_join_upper_bound five five).1.mpr ((state_join_upper_bound five five).2
    (fun _ _ _ left right => .inl (Option.some.inj (left.symm.trans right))) fun _ => rfl)

/-- Nothing is known of the register 0 in the left state; the join has the value of the right one. -/
theorem state_join_adds_register : ¬ full.gamma ∪ five.gamma ⊆ (full.join five).gamma := by
  intro bound
  have seven : (fun _ => 7 : Location → Word) ∈ full.gamma := by
    rw [gamma_of_reached (by decide)]
    intro x _
    cases x with
    | register r => simp [known, entry, full]
    | memory adr => simp [known, entry, full, find]
  have joined := bound (.inl seven)
  rw [gamma_of_reached (by decide)] at joined
  have lost : (7 : Word) ∈ ((full.join five).known (.register 0)).gamma := joined _ (Set.mem_univ _)
  have value : ((full.join five).known (.register 0)) = .const 5 := by decide +kernel
  rw [value] at lost
  exact absurd lost (by simp only [Value.gamma, Value.const]; decide)

/-! ### Setting a location -/

theorem getD_setAt (l : List Value) (i j : Nat) (val : Value) :
    (setAt l i val)[j]?.getD .all = if j = i then val else l[j]?.getD .all := by
  unfold setAt
  by_cases inside : i < l.length
  · rw [if_pos inside, List.getElem?_set]
    by_cases eq : j = i
    · rw [if_pos eq, if_pos eq.symm, if_pos inside]
      rfl
    · rw [if_neg eq, if_neg fun eq' => eq eq'.symm]
  rw [if_neg inside]
  rcases lt_trichotomy j i with lt | rfl | gt
  · rw [if_neg lt.ne, List.getElem?_append_left (by simp; omega), List.getElem?_append]
    split
    · rfl
    · rename_i beyond
      rw [List.getElem?_eq_none (not_lt.mp beyond), List.getElem?_replicate]
      split <;> rfl
  · rw [if_pos rfl, List.getElem?_append_right (by simp; omega)]
    simp [show j - (l.length + (j - l.length)) = 0 by omega]
  · rw [if_neg gt.ne', List.getElem?_eq_none (by simp; omega), List.getElem?_eq_none (by omega)]

/-- What is known after a value is set, the others being as they were. -/
theorem known_set {addr val : Value} (reached : s.first ≠ .none) (stored : val ≠ .none) (nall : addr ≠ .all) :
    (s.set addr val).first = s.first ∧
      ∀ y, ((s.set addr val).known y).gamma = if y = addr.location then val.gamma else (s.known y).gamma := by
  unfold set
  rw [if_neg reached, if_neg stored]
  cases place : addr.location with
  | register r =>
    by_cases tmp : r < 0
    · simp only [if_pos tmp, true_and]
      rintro (r' | adr)
      · by_cases tmp' : r' < 0
        · simp only [known, entry, if_pos tmp', getD_setAt, Location.register.injEq,
            show (-r').toNat = (-r).toNat ↔ r' = r by omega]
          split <;> rfl
        · have ne : r' ≠ r := by rintro rfl; exact tmp' tmp
          simp [known, entry, tmp', ne]
      · rfl
    · simp only [if_neg tmp, true_and]
      rintro (r' | adr)
      · by_cases tmp' : r' < 0
        · have ne : r' ≠ r := by rintro rfl; exact tmp tmp'
          simp [known, entry, tmp', ne]
        · simp only [known, entry, if_neg tmp', getD_setAt, Location.register.injEq,
            show r'.toNat = r.toNat ↔ r' = r by omega]
          split <;> rfl
      · rfl
  | memory adr =>
    simp only [if_neg nall, true_and]
    rintro (r | adr')
    · rfl
    · simp only [known, entry, Location.memory.injEq]
      rw [find_put s.sorted]
      by_cases eq : adr' = adr
      · rw [if_pos eq, if_pos eq, gamma_kept]
      · rw [if_neg eq, if_neg eq]

/-- A memory stays in the state when the value set has its word. -/
theorem mem_set {addr val : Value} {m : Location → Word} (nall : addr ≠ .all) (mem : m ∈ s.gamma)
    (word : m addr.location ∈ val.gamma) : m ∈ (s.set addr val).gamma := by
  have reached : s.first ≠ .none := by
    intro empty
    rw [gamma, if_pos empty] at mem
    exact mem
  have stored : val ≠ .none := by
    rintro rfl
    exact word
  obtain ⟨first, values⟩ := known_set reached stored nall
  rw [gamma_of_reached (first.trans_ne reached)]
  rw [gamma_of_reached reached] at mem
  intro y _
  simp only [values]
  split
  case isTrue eq => rwa [eq]
  case isFalse => exact mem y (Set.mem_univ y)

/-! ### Equality -/

/-- The states of the analysis. -/
inductive Reachable : State → Prop where
  | bottom : Reachable bottom
  | full : Reachable full
  | set {s : State} (addr val : Value) : Reachable s → Reachable (s.set addr val)
  | clear {s : State} : Reachable s → Reachable s.clear
  | clearArea {s : State} (base size : Word) : Reachable s → Reachable (s.clearArea base size)
  | join {s state : State} : Reachable s → Reachable state → Reachable (s.join state)
  | widening {s state : State} (loopBound : Word) : Reachable s → Reachable state → Reachable (s.widening state loopBound)

/-- The head node is the top or the bottom value, the bottom has no cells, and no cell holds either. -/
structure Valid (s : State) : Prop where
  first : s.first = .none ∨ s.first = .all
  bottom : s.first = .none → s.nodes = []
  cells : ∀ n ∈ s.nodes, n.2.kind ≠ .all ∧ n.2 ≠ .none

theorem Valid.cell (valid : s.Valid) {adr : Word} {v : Value} (found : find adr s.nodes = some v) :
    v.kind ≠ .all ∧ v ≠ .none :=
  valid.cells _ ((find_eq_some_iff s.sorted).mp found)

/-- Where the cells of a merged list come from. -/
theorem mem_nodes_combineWith {op : Value → Value → Value} {n : Word × Value}
    (mem : n ∈ merge (fun v v' => kept (op v v')) a.nodes c.nodes) :
    n.2.kind ≠ .all ∧ ∃ v v', (n.1, v) ∈ a.nodes ∧ n.2 = op v v' := by
  have found := (find_eq_some_iff (sorted_merge a.sorted)).mpr (show (n.1, n.2) ∈ _ from mem)
  rw [find_merge a.sorted c.sorted] at found
  obtain ⟨v, isA, found⟩ := Option.bind_eq_some_iff.mp found
  obtain ⟨v', -, found⟩ := Option.bind_eq_some_iff.mp found
  unfold kept at found
  split at found
  case isTrue => cases found
  case isFalse top =>
    have eq := Option.some.inj found
    exact ⟨eq ▸ top, v, v', (find_eq_some_iff a.sorted).mp isA, eq.symm⟩

theorem Valid.combineWith {op : Value → Value → Value} (validA : a.Valid) (validC : c.Valid)
    (bot : ∀ v v', v ≠ .none → op v v' ≠ .none) : (combineWith op a c).Valid := by
  unfold State.combineWith
  split
  case isTrue => exact validA
  case isFalse emptyC =>
    split
    case isTrue => exact validC
    case isFalse emptyA =>
      refine ⟨validA.first, fun empty => absurd empty emptyA, fun n mem => ?_⟩
      obtain ⟨top, v, v', memA, eq⟩ := mem_nodes_combineWith mem
      exact ⟨top, eq ▸ bot v v' (validA.cells _ memA).2⟩

theorem ne_none_of_kind {v : Value} (kind : v.kind ≠ .none) : v ≠ .none := fun eq => kind (eq ▸ rfl)

theorem join_ne_none {v v' : Value} (ne : v ≠ .none) : v.join v' ≠ .none := by
  unfold Value.join
  split
  · exact ne
  split
  · exact ne_none_of_kind (by simp)
  split
  · exact ne_none_of_kind (by simp)
  split
  · exact ne
  split
  · exact ne_none_of_kind (by simp)
  · exact ne_none_of_kind (by simp)

theorem ffwidening_ne_none {v : Value} (ne : v ≠ .none) (v' : Value) (loopBound : Word) :
    v.ffwidening v' loopBound ≠ .none := by
  unfold Value.ffwidening
  split
  · exact ne
  split
  · exact ne_none_of_kind (by simp [Value.all])
  split
  · exact ne
  split
  · split
    · exact ne_none_of_kind (by simp)
    · exact ne_none_of_kind (by simp)
  split
  · exact ne
  · exact ne_none_of_kind (by simp [Value.all])

theorem widening_ne_none {v : Value} (ne : v ≠ .none) (v' : Value) : v.widening v' ≠ .none := by
  have of_delta : ∀ w : Value, w.delta ≠ 0 → w ≠ .none := fun w ne eq => ne (eq ▸ rfl)
  have step : ∀ near far, Value.Compared v v' → Value.widenedStep v v' near far ≠ 0 :=
    fun near far compared => (Value.widenedStep_bounds compared near far).1
  rcases Value.widening_cases v v' with ⟨-, eq⟩ | ⟨-, eq⟩ | ⟨-, eq⟩ | ⟨⟨compared, -⟩, eq⟩ | ⟨⟨compared, -⟩, eq⟩
  · rwa [eq]
  · rw [eq]
    exact ne_none_of_kind (by simp [Value.all])
  · rw [eq]
    exact fun none => absurd (congrArg Value.mtimes none) (show UMAXn ≠ 0 by decide)
  · rw [eq]
    exact of_delta _ (neg_ne_zero.mpr (step _ _ compared))
  · rw [eq]
    exact of_delta _ (step _ _ compared)

theorem Reachable.valid (reachable : s.Reachable) : s.Valid := by
  induction reachable with
  | bottom => exact ⟨.inl rfl, fun _ => rfl, fun _ mem => absurd mem List.not_mem_nil⟩
  | full => exact ⟨.inr rfl, fun _ => rfl, fun _ mem => absurd mem List.not_mem_nil⟩
  | @set s addr val _ ih =>
    unfold State.set
    split
    case isTrue => exact ih
    case isFalse reached =>
      split
      case isTrue => exact ⟨.inl rfl, fun _ => rfl, fun _ mem => absurd mem List.not_mem_nil⟩
      case isFalse ne =>
        split
        case h_1 r _ =>
          split
          · exact ⟨ih.first, ih.bottom, ih.cells⟩
          · exact ⟨ih.first, ih.bottom, ih.cells⟩
        case h_2 adr _ =>
          split
          · exact ⟨ih.first, fun _ => rfl, fun _ mem => absurd mem List.not_mem_nil⟩
          · refine ⟨ih.first, fun empty => absurd empty reached, fun n mem => ?_⟩
            have found := (find_eq_some_iff (sorted_put s.sorted adr (kept val))).mpr (show (n.1, n.2) ∈ _ from mem)
            rw [find_put s.sorted] at found
            split at found
            case isTrue =>
              unfold kept at found
              split at found
              case isTrue => cases found
              case isFalse top =>
                have eq := Option.some.inj found
                exact ⟨eq ▸ top, eq ▸ ne⟩
            case isFalse => exact ih.cell found
  | clear _ ih => exact ⟨ih.first, fun _ => rfl, fun _ mem => absurd mem List.not_mem_nil⟩
  | @clearArea s base size _ ih =>
    unfold State.clearArea
    split
    case isTrue => exact ih
    case isFalse reached =>
      exact ⟨ih.first, fun empty => absurd empty reached, fun n mem => ih.cells n (List.mem_of_mem_filter mem)⟩
  | join _ _ ihA ihC => exact ihA.combineWith ihC fun _ _ ne => join_ne_none ne
  | widening loopBound _ _ ihA ihC =>
    refine ihA.combineWith ihC fun v v' ne => ?_
    split
    · exact ffwidening_ne_none ne v' loopBound
    · exact widening_ne_none ne v'

theorem sameNodes_iff (l l' : List (Word × Value)) :
    sameNodes l l' = true ↔ l.map Prod.fst = l'.map Prod.fst := by
  induction l generalizing l' with
  | nil => cases l' <;> simp [sameNodes]
  | cons n l ih => cases l' <;> simp [sameNodes, ih]

theorem equals_iff (a c : State) : a.equals c = true ↔
    a.registers = c.registers ∧ a.first.kind = c.first.kind ∧ a.nodes.map Prod.fst = c.nodes.map Prod.fst := by
  simp [equals, sameNodes_iff, and_assoc]

theorem Valid.cell_ne_first (valid : s.Valid) {adr : Word} {v : Value} (found : find adr s.nodes = some v) :
    v ≠ s.first := by
  obtain ⟨top, ne⟩ := valid.cell found
  rcases valid.first with eq | eq
  · exact eq ▸ ne
  · exact fun same => top (by rw [same, eq]; rfl)

theorem Valid.first_eq (validA : a.Valid) (validC : c.Valid) (same : a.get (.memory 0) = c.get (.memory 0)) :
    a.first = c.first := by
  -- The bottom answers none for each cell, and another state does not.
  have of_bottom : ∀ {s : State}, s.Valid → s.first = .none → s.get (.memory 0) = .none := by
    intro s valid empty
    simp [get, entry, valid.bottom empty, find, empty]
  have of_top : ∀ {s : State}, s.Valid → s.first = .all → s.get (.memory 0) ≠ .none := by
    intro s valid top
    show (find 0 s.nodes).getD s.first ≠ .none
    cases found : find 0 s.nodes with
    | none => exact top ▸ ne_none_of_kind (v := .all) (by simp [Value.all])
    | some v => exact (valid.cell found).2
  rcases validA.first with emptyA | topA <;> rcases validC.first with emptyC | topC
  · rw [emptyA, emptyC]
  · exact absurd (same ▸ of_bottom validA emptyA) (of_top validC topC)
  · exact absurd (same ▸ of_bottom validC emptyC) (of_top validA topA)
  · rw [topA, topC]

/-- The cells of a valid state are known by what `get` answers. -/
theorem Valid.nodes_eq (validA : a.Valid) (validC : c.Valid)
    (same : ∀ adr, a.get (.memory adr) = c.get (.memory adr)) : a.first = c.first ∧ a.nodes = c.nodes := by
  have first := validA.first_eq validC (same 0)
  refine ⟨first, eq_of_find a.sorted c.sorted fun adr => ?_⟩
  have at_adr := same adr
  simp only [get, entry, first] at at_adr
  cases isA : find adr a.nodes <;> cases isC : find adr c.nodes <;>
    simp only [isA, isC, Option.getD_some, Option.getD_none] at at_adr ⊢
  case none.some v' => exact absurd at_adr.symm (validC.cell_ne_first isC)
  case some.none v => exact absurd (first ▸ at_adr) (validA.cell_ne_first isA)
  case some.some v v' => rw [at_adr]

/-- What `equals` does not see: the states differ in a temporary or in the value of a cell only. -/
def DifferUnseen (a c : State) : Prop :=
  a.registers = c.registers ∧ a.first.kind = c.first.kind ∧ a.nodes.map Prod.fst = c.nodes.map Prod.fst ∧
    ((∃ r < 0, a.get (.register r) ≠ c.get (.register r)) ∨ a.nodes ≠ c.nodes)

/-- What `equals` sees without need: one state has unknown registers at the end of its vector, the other has
not, and that is all. -/
def DifferTrailing (a c : State) : Prop :=
  a.registers.length ≠ c.registers.length ∧ (∀ r, a.get (.register r) = c.get (.register r)) ∧
    a.first = c.first ∧ a.nodes = c.nodes

theorem registers_eq (length : a.registers.length = c.registers.length)
    (same : ∀ r, a.get (.register r) = c.get (.register r)) : a.registers = c.registers := by
  refine List.ext_getElem length fun i lt lt' => ?_
  have at_i := same i
  simp only [get, entry, if_neg (Int.natCast_nonneg i).not_gt, Int.toNat_natCast, List.getElem?_eq_getElem lt,
    List.getElem?_eq_getElem lt', Option.getD_some] at at_i
  exact at_i

/-- `equals` is exact, on two states of the analysis, if and only if they differ neither in what it does not
see nor in trailing unknown registers only. -/
theorem equals_exact_iff (a c : State) (reachA : Reachable a) (reachC : Reachable c) :
    (a.equals c = true ↔ ∀ x, a.get x = c.get x) ↔ ¬ DifferUnseen a c ∧ ¬ DifferTrailing a c := by
  have validA := reachA.valid
  have validC := reachC.valid
  rw [equals_iff]
  constructor
  · intro exactly
    constructor
    · rintro ⟨registers, kind, addresses, differ⟩
      have same := exactly.mp ⟨registers, kind, addresses⟩
      rcases differ with ⟨r, -, ne⟩ | ne
      · exact ne (same _)
      · exact ne (validA.nodes_eq validC fun adr => same _).2
    · rintro ⟨lengths, same, first, nodes⟩
      refine lengths (congrArg List.length (exactly.mpr fun x => ?_).1)
      cases x with
      | register r => exact same r
      | memory adr => simp only [get, entry, first, nodes]
  · rintro ⟨seen, needed⟩
    constructor
    · rintro ⟨registers, kind, addresses⟩ x
      by_contra ne
      refine seen ⟨registers, kind, addresses, ?_⟩
      cases x with
      | register r =>
        refine .inl ⟨r, not_le.mp fun nonneg => ne ?_, ne⟩
        simp only [get, entry, if_neg (not_lt.mpr nonneg), registers]
      | memory adr =>
        refine .inr fun nodes => ne ?_
        have first : a.first = c.first := by
          rcases validA.first with isA | isA <;> rcases validC.first with isC | isC <;> rw [isA, isC] at kind ⊢
          · exact absurd kind (by decide)
          · exact absurd kind (by decide)
        simp only [get, entry, nodes, first]
    · intro same
      obtain ⟨first, nodes⟩ := validA.nodes_eq validC fun adr => same _
      have lengths : a.registers.length = c.registers.length := by
        by_contra ne
        exact needed ⟨ne, fun r => same _, first, nodes⟩
      exact ⟨registers_eq lengths fun r => same _, congrArg Value.kind first, congrArg _ nodes⟩

/-- The cell 0 holds a value. -/
def cell (k : Word) : State := full.set (.const 0) (.const k)

theorem equals_exact_iff_five : (five.equals (cell 1) = true ↔ ∀ x, five.get x = (cell 1).get x) ↔
    ¬ DifferUnseen five (cell 1) ∧ ¬ DifferTrailing five (cell 1) :=
  equals_exact_iff five (cell 1) (.set _ _ .full) (.set _ _ .full)

/-- Two states with different values in the cell 0 are equal for `equals`. -/
theorem equals_ignores_cells : ¬ ∀ a c, Reachable a → Reachable c →
    (a.equals c = true ↔ ∀ x, a.get x = c.get x) := by
  intro exactly
  have same := (exactly (cell 1) (cell 2) (.set _ _ .full) (.set _ _ .full)).mp (by decide) (.memory 0)
  exact absurd same (by decide)

end State

end Otawa.Clp
