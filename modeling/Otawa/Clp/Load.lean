import Otawa.Clp.MapLaws
import Otawa.Clp.Update

/-!
# Loads of the CLP analysis

The LOAD case of `Problem::update` and the read-only data it reads. Few addresses are
loaded one after another and joined, more are unknown, and what is unknown at a constant
address of the read-only data is read in the executable.

A load is sound (`load_sound`) but for

* accesses that read a part of a word: the value of the cell is returned as it is;
* joins that lose words;
* addresses of the range of the read-only data that are in no read-only segment, or
  accesses that leave their segment.
-/

namespace Otawa.Clp.Problem

open Otawa.Cells Otawa.Sem

/-- `Segment`, of which the flags are kept that the analysis and its user look at. -/
structure Segment where
  address : Word
  size : Word
  writable : Bool
  initialized : Bool
  deriving DecidableEq, Repr

def Segment.topAddress (g : Segment) : Word := g.address + g.size

/-- The range of the read-only data: from the first segment that is not writable to the
end of the last one that follows it without a writable one. -/
def dataRange (segs : List Segment) : Word × Word :=
  let sorted := segs.insertionSort fun g g' => g.address.toNat ≤ g'.address.toNat
  let readOnly := (sorted.dropWhile (·.writable)).takeWhile (! ·.writable)
  match readOnly.head?, readOnly.getLast? with
  | some g, some g' => (g.address, g'.topAddress)
  | _, _ => (0, 0)

/-- What the analysis reads of a program with these segments. -/
def Process.ofSegments (segs : List Segment) (get8 : Word → BitVec 8) (get16 : Word → BitVec 16)
    (get32 : Word → Word) (findSymbolAt : Symbols) : Process :=
  ⟨get8, get16, get32, (dataRange segs).1, (dataRange segs).2, findSymbolAt⟩

/-! ### What a load reads -/

/-- The bytes of an access. -/
def accessSize (type : Word) : Nat :=
  if type = INT8 ∨ type = UINT8 then 1
  else if type = INT16 ∨ type = UINT16 then 2
  else if type = INT64 ∨ type = UINT64 ∨ type = FLOAT64 then 8
  else 4

/-- The value that an access makes of the word at its address, for the types that
`readFromMem` knows; in a machine with the most significant byte first it is in the
upper part of the word. -/
def loaded (big : Bool) (type w : Word) : Option Word :=
  let byte := (if big then w >>> 24 else w).setWidth 8
  let half := (if big then w >>> 16 else w).setWidth 16
  if type = INT8 then some (byte.signExtend 32)
  else if type = INT16 then some (half.signExtend 32)
  else if type = INT32 then some w
  else if type = UINT8 then some (byte.setWidth 32)
  else if type = UINT16 then some (half.setWidth 32)
  else if type = UINT32 then some w
  else none

/-- The values that a load can leave in its register; one of another type leaves any. -/
def Loads (big : Bool) (type w r : Word) : Prop := ∀ r' ∈ loaded big type w, r = r'

/-- The access is inside of a segment that is read-only and initialised. -/
def ReadOnly (segs : List Segment) (type a : Word) : Prop :=
  ∃ g ∈ segs, g.writable = false ∧ g.initialized = true ∧ g.address.toNat ≤ a.toNat ∧
    a.toNat + accessSize type ≤ g.address.toNat + g.size.toNat

/-- The read-only segments hold the executable image. -/
def HoldsImage (big : Bool) (segs : List Segment) (proc : Process) (m : Memory) : Prop :=
  ∀ type a r, ReadOnly segs type a → Loads big type (m (.memory a)) r →
    r ∈ (readFromMem proc a type).gamma

/-! ### What the code loads -/

variable {proc : Process} {s : State} {v : Value} {r a x : Word} {n : Nat}

/-- The value of the cell at the `k`-th address. -/
def cell (addrclp : Value) (s : State) (k : Nat) : Value :=
  s.get (.memory (addrclp.base + addrclp.delta * BitVec.ofNat 32 k))

/-- The join of the cells of the first addresses, in their order. -/
def joined (addrclp : Value) (s : State) : Nat → Value
  | 0 => cell addrclp s 0
  | k + 1 => (joined addrclp s k).join (cell addrclp s (k + 1))

theorem get_set_reg (reached : s.first ≠ .none) (stored : v ≠ .none) (r : Word) :
    get (set s r v) r = v ∧ (set s r v).first = s.first ∧
      ∀ a, (set s r v).get (.memory a) = s.get (.memory a) := by
  have place : (⟨.reg, r, 0, 0⟩ : Value).location = .register r.toInt := rfl
  unfold get set State.set
  rw [if_neg reached, if_neg stored, place]
  dsimp only
  by_cases tmp : r.toInt < 0
  · rw [if_pos tmp]
    refine ⟨?_, rfl, fun a => rfl⟩
    rw [reg, State.get_register, State.entry, if_pos tmp]
    exact (State.getD_setAt _ _ _ _).trans (if_pos rfl)
  · rw [if_neg tmp]
    refine ⟨?_, rfl, fun a => rfl⟩
    rw [reg, State.get_register, State.entry, if_neg tmp]
    exact (State.getD_setAt _ _ _ _).trans (if_pos rfl)

theorem joined_ne_none {addrclp : Value} (cells : ∀ k, cell addrclp s k ≠ .none) (n : Nat) :
    joined addrclp s n ≠ .none := by
  induction n with
  | zero => exact cells 0
  | succ n ih => exact State.join_ne_none ih

/-- The loop over the addresses leaves the join of their cells in the register. -/
theorem loadEach_spec {addrclp : Value} (reached : s.first ≠ .none)
    (cells : ∀ k, cell addrclp s k ≠ .none) (d : Word) (n : Nat) :
    get (loadEach addrclp d s n) d = joined addrclp s n ∧
      (loadEach addrclp d s n).first = s.first ∧
      ∀ a, (loadEach addrclp d s n).get (.memory a) = s.get (.memory a) := by
  induction n with
  | zero =>
    have first : cell addrclp s 0 = s.get (.memory addrclp.base) := by
      unfold cell
      rw [show BitVec.ofNat 32 0 = 0 from rfl, mul_zero, add_zero]
    have stored := cells 0
    rw [first] at stored
    unfold joined
    rw [first]
    exact get_set_reg reached stored d
  | succ n ih =>
    unfold loadEach at *
    rw [List.range_succ, List.foldl_append, List.foldl_cons, List.foldl_nil]
    generalize (List.range n).foldl _ _ = t at ih ⊢
    obtain ⟨value, first, memory⟩ := ih
    rw [value, memory]
    have stored : (joined addrclp s n).join (cell addrclp s (n + 1)) ≠ .none :=
      joined_ne_none cells (n + 1)
    obtain ⟨value', first', memory'⟩ := get_set_reg (first.trans_ne reached) stored d
    exact ⟨value', first'.trans first, fun a => (memory' a).trans (memory a)⟩

/-- What a load finds in the cells. -/
def cellsValue (addrclp : Value) (s : State) : Value :=
  if addrclp = .all then addrclp
  else if addrclp.mtimes.toNat < 42 then joined addrclp s addrclp.mtimes.toNat
  else .all

/-- The address is one constant of the range of the read-only data. -/
def InRange (proc : Process) (addrclp : Value) : Prop :=
  addrclp.isConst ∧ proc.dataMin.toNat ≤ addrclp.start.toNat ∧
    addrclp.start.toNat < proc.dataMax.toNat

instance (proc : Process) (addrclp : Value) : Decidable (InRange proc addrclp) :=
  inferInstanceAs (Decidable (_ ∧ _))

/-- What a load leaves in its register. -/
def loadValue (proc : Process) (i : Inst) (s : State) : Value :=
  if cellsValue (get s i.a) s = .all ∧ InRange proc (get s i.a) then
    readFromMem proc (get s i.a).base i.type
  else cellsValue (get s i.a) s

theorem readFromMem_ne_none (proc : Process) (address type : Word) :
    readFromMem proc address type ≠ .none := by
  have const : ∀ k, Value.const k ≠ .none := fun k eq => nomatch congrArg Value.kind eq
  unfold readFromMem
  repeat' split
  all_goals first | exact const _ | exact fun eq => nomatch congrArg Value.kind eq

theorem get_loadCells (reached : s.first ≠ .none) {i : Inst} (cells : ∀ k, cell (get s i.a) s k ≠ .none) :
    get (loadCells i s) i.d = cellsValue (get s i.a) s ∧ (loadCells i s).first = s.first := by
  unfold loadCells cellsValue
  dsimp only
  by_cases top : get s i.a = .all
  · rw [if_pos top, if_pos top, top]
    obtain ⟨value, first, -⟩ := get_set_reg (v := .all) reached (by decide) i.d
    exact ⟨value, first⟩
  rw [if_neg top, if_neg top]
  by_cases few : (get s i.a).mtimes.toNat < 42
  · rw [if_pos few, if_pos few]
    obtain ⟨value, first, -⟩ := loadEach_spec reached cells i.d (get s i.a).mtimes.toNat
    exact ⟨value, first⟩
  · rw [if_neg few, if_neg few]
    obtain ⟨value, first, -⟩ := get_set_reg (v := .all) reached (by decide) i.d
    exact ⟨value, first⟩

theorem get_load (reached : s.first ≠ .none) {i : Inst} (cells : ∀ k, cell (get s i.a) s k ≠ .none) :
    get (load proc i s) i.d = loadValue proc i s := by
  obtain ⟨value, first⟩ := get_loadCells reached cells
  unfold load loadValue
  dsimp only
  rw [value]
  by_cases image : cellsValue (get s i.a) s = .all ∧ InRange proc (get s i.a)
  · rw [if_pos image]
    exact (congrArg (get · i.d) (if_pos image)).trans
      (get_set_reg (first.trans_ne reached) (readFromMem_ne_none _ _ _) i.d).1
  · rw [if_neg image]
    exact (congrArg (get · i.d) (if_neg image)).trans value

/-! ### Soundness -/

/-- The types of the accesses that `readFromMem` knows. -/
def ReadType (type : Word) : Prop :=
  type = INT8 ∨ type = INT16 ∨ type = INT32 ∨ type = UINT8 ∨ type = UINT16 ∨ type = UINT32

/-- What an access reads of the words of a value is again a word of it. -/
def KeepsType (big : Bool) (type : Word) (v : Value) : Prop :=
  ∀ w ∈ v.gamma, ∀ r, Loads big type w r → r ∈ v.gamma

/-- The states and the loads of them that leave every value read in the register. -/
def LoadFits (big : Bool) (segs : List Segment) (proc : Process) (i : Inst) (s : State) : Prop :=
  let addrclp := get s i.a
  addrclp = .all ∨ addrclp.kind = .none ∨ addrclp.kind = .reg ∨
    (addrclp.kind = .val ∧
      (addrclp.mtimes.toNat < 42 →
        (∀ k ≤ addrclp.mtimes.toNat, KeepsType big i.type (cell addrclp s k)) ∧
          ((joined addrclp s addrclp.mtimes.toNat).kind = .all ∨
            ∀ k < addrclp.mtimes.toNat, (joined addrclp s k).JoinFits (cell addrclp s (k + 1)))) ∧
      (InRange proc addrclp → (addrclp.mtimes.toNat < 42 → cell addrclp s 0 = .all) →
        ReadOnly segs i.type addrclp.base ∨ ¬ ReadType i.type))

/-- The values that are to be in the register after a load. -/
def LoadKept (big : Bool) (segs : List Segment) (proc : Process) (i : Inst) (s : State) : Prop :=
  ∀ m ∈ s.gamma, HoldsImage big segs proc m → ∀ a ∈ (get s i.a).gamma,
    ∀ r, Loads big i.type (m (.memory a)) r → r ∈ (get (update proc i s) i.d).gamma

/-- A constant address has one cell. -/
theorem cell_const {addrclp : Value} (const : addrclp.isConst) {k : Nat}
    (le : k ≤ addrclp.mtimes.toNat) : cell addrclp s k = cell addrclp s 0 := by
  rcases const with zero | zero
  · unfold cell
    rw [zero, zero_mul, zero_mul]
  · rw [zero] at le
    rw [Nat.le_zero.mp le]

theorem joined_const {addrclp : Value} (const : addrclp.isConst) {n : Nat}
    (le : n ≤ addrclp.mtimes.toNat) : joined addrclp s n = cell addrclp s 0 := by
  induction n with
  | zero => rfl
  | succ n ih =>
    rw [joined, ih (Nat.le_of_succ_le le), cell_const const le]
    exact if_pos rfl

theorem cell_eq_known (reachable : s.Reachable) (reached : s.first ≠ .none) (addrclp : Value) (k : Nat) :
    cell addrclp s k = s.known (.memory (addrclp.base + addrclp.delta * BitVec.ofNat 32 k)) :=
  reachable.get_eq reached _

/-- The join of the cells has the words of each of them, when each join has the ones of
its operands. -/
theorem cell_subset_joined {addrclp : Value} {n k : Nat}
    (fits : ∀ k < n, (joined addrclp s k).JoinFits (cell addrclp s (k + 1))) (le : k ≤ n) :
    (cell addrclp s k).gamma ⊆ (joined addrclp s n).gamma := by
  induction n with
  | zero =>
    rw [Nat.le_zero.mp le]
    exact subset_rfl
  | succ n ih =>
    have both := Set.union_subset_iff.mp (Value.union_subset_join (fits n (Nat.lt_succ_self n)))
    rcases Nat.lt_or_ge k (n + 1) with lt | ge
    · exact (ih (fun j lt' => fits j (Nat.lt_succ_of_lt lt')) (Nat.lt_succ_iff.mp lt)).trans both.1
    · rw [Nat.le_antisymm le ge]
      exact both.2

theorem readFromMem_of_not (unknown : ¬ ReadType r) (address : Word) :
    readFromMem proc address r = .all := by
  unfold ReadType at unknown
  simp only [not_or] at unknown
  obtain ⟨int8, int16, int32, uint8, uint16, uint32⟩ := unknown
  unfold readFromMem
  rw [if_neg int8, if_neg int16, if_neg int32, if_neg uint8, if_neg uint16, if_neg uint32]

theorem reached_of_mem {m : Memory} (mem : m ∈ s.gamma) : s.first ≠ .none := by
  intro empty
  rw [State.gamma, if_pos empty] at mem
  exact mem

/-- In a state with a memory no cell is without words. -/
theorem cell_ne_none (reachable : s.Reachable) {m : Memory} (mem : m ∈ s.gamma) (addrclp : Value)
    (k : Nat) : cell addrclp s k ≠ .none := by
  have reached := reached_of_mem mem
  rw [State.gamma_of_reached reached] at mem
  have word : m (.memory (addrclp.base + addrclp.delta * BitVec.ofNat 32 k)) ∈
      (s.known (.memory (addrclp.base + addrclp.delta * BitVec.ofNat 32 k))).gamma :=
    mem _ (Set.mem_univ _)
  rw [cell_eq_known reachable reached]
  intro eq
  rw [eq] at word
  exact word

theorem load_kept {big : Bool} {segs : List Segment} {i : Inst} (reachable : s.Reachable)
    (isLoad : i.op = .load) (fits : LoadFits big segs proc i s) : LoadKept big segs proc i s := by
  intro m mem image a ha r loads
  have reached := reached_of_mem mem
  have value : get (update proc i s) i.d = loadValue proc i s := by
    unfold update
    rw [isLoad]
    exact get_load reached (cell_ne_none reachable mem _)
  rw [value]
  rw [State.gamma_of_reached reached] at mem
  rcases fits with top | none | register | ⟨val, few, range⟩
  · have inRange : ¬ InRange proc (get s i.a) := by
      rw [top]
      exact fun h => absurd h.1 (by decide)
    unfold loadValue
    rw [if_neg fun h => inRange h.2, cellsValue, if_pos top, top]
    exact Set.mem_univ _
  · rw [Value.gamma_eq_empty (by rw [none]; decide) (by rw [none]; decide)] at ha
    exact absurd ha (Set.notMem_empty a)
  · rw [Value.gamma_eq_empty (by rw [register]; decide) (by rw [register]; decide)] at ha
    exact absurd ha (Set.notMem_empty a)
  have ne : get s i.a ≠ .all := fun eq => nomatch val.symm.trans (congrArg Value.kind eq)
  unfold loadValue
  by_cases fromImage : cellsValue (get s i.a) s = .all ∧ InRange proc (get s i.a)
  · rw [if_pos fromImage]
    obtain ⟨unknown, inRange⟩ := fromImage
    have cellAll : (get s i.a).mtimes.toNat < 42 → cell (get s i.a) s 0 = .all := by
      intro lt
      rwa [cellsValue, if_neg ne, if_pos lt, joined_const inRange.1 le_rfl] at unknown
    rcases range inRange cellAll with readOnly | unread
    · cases Value.gamma_subset_const (fun h => nomatch val.symm.trans h) inRange.1 ha
      exact image i.type _ r readOnly loads
    · rw [readFromMem_of_not unread]
      exact Set.mem_univ _
  · rw [if_neg fromImage, cellsValue, if_neg ne]
    by_cases lt : (get s i.a).mtimes.toNat < 42
    · rw [if_pos lt]
      obtain ⟨types, joins⟩ := few lt
      rw [Value.gamma_of_val val] at ha
      obtain ⟨k, le, eq⟩ := ha
      rw [Value.nsmul_eq, mul_comm] at eq
      have word : m (.memory a) ∈ (cell (get s i.a) s k).gamma := by
        rw [cell_eq_known reachable reached, ← eq]
        exact mem _ (Set.mem_univ _)
      rcases joins with top | fits
      · rw [Value.gamma_of_all top]
        exact Set.mem_univ _
      · exact cell_subset_joined fits le (types k le _ word r loads)
    · rw [if_neg lt]
      exact Set.mem_univ _

/-! ### Loads that lose a value -/

/-- The address is in no read-only segment. -/
def OutsideImage (segs : List Segment) (a : Word) : Prop :=
  ∀ g ∈ segs, g.writable = false → g.initialized = true →
    a.toNat < g.address.toNat ∨ g.address.toNat + g.size.toNat ≤ a.toNat

theorem accessSize_pos (type : Word) : 0 < accessSize type := by
  unfold accessSize
  split
  · exact Nat.one_pos
  · split
    · exact Nat.two_pos
    · split
      · exact Nat.succ_pos 7
      · exact Nat.succ_pos 3

/-- The word at an address that is neither recorded otherwise nor in the image is free. -/
private theorem update_mem {big : Bool} {segs : List Segment} {m : Memory} {w : Word}
    (mem : m ∈ s.gamma) (image : HoldsImage big segs proc m) (outside : OutsideImage segs a)
    (word : w ∈ (s.known (.memory a)).gamma) :
    Function.update m (.memory a) w ∈ s.gamma ∧
      HoldsImage big segs proc (Function.update m (.memory a) w) := by
  have reached := reached_of_mem mem
  rw [State.gamma_of_reached reached] at mem ⊢
  constructor
  · intro y _
    by_cases eq : y = .memory a
    · rw [eq, Function.update_self]
      exact word
    · rw [Function.update_of_ne eq]
      exact mem y (Set.mem_univ y)
  · intro type a' r readOnly loads
    have ne : Location.memory a' ≠ .memory a := by
      rintro eq
      cases eq
      obtain ⟨g, mem, readable, full, from', below⟩ := readOnly
      have pos := accessSize_pos type
      rcases outside g mem readable full with before | after <;> omega
    rw [Function.update_of_ne ne] at loads
    exact image type a' r readOnly loads

/-- Two words of which an access reads different values. -/
theorem exists_loaded_ne (big : Bool) {type : Word} (known : ReadType type) :
    ∃ w w' r r', loaded big type w = some r ∧ loaded big type w' = some r' ∧ r ≠ r' := by
  refine ⟨0, UMAXn, (loaded big type 0).getD 0, (loaded big type UMAXn).getD 0, ?_⟩
  rcases known with rfl | rfl | rfl | rfl | rfl | rfl <;> cases big <;> decide

theorem readFromMem_const (known : ReadType r) (address : Word) :
    ∃ k, readFromMem proc address r = .const k := by
  rcases known with rfl | rfl | rfl | rfl | rfl | rfl
  · exact ⟨_, rfl⟩
  · exact ⟨_, rfl⟩
  · exact ⟨_, rfl⟩
  · exact ⟨_, rfl⟩
  · exact ⟨_, rfl⟩
  · exact ⟨_, rfl⟩

/-- Of a constant address outside of the read-only segments, no other loads will do. -/
theorem loadFits_of_kept {big : Bool} {segs : List Segment} {i : Inst} (reachable : s.Reachable)
    (isLoad : i.op = .load) (val : (get s i.a).kind = .val) (const : (get s i.a).isConst)
    (few : (get s i.a).mtimes.toNat < 42) (outside : OutsideImage segs (get s i.a).base)
    (feasible : ∃ m ∈ s.gamma, HoldsImage big segs proc m) (kept : LoadKept big segs proc i s) :
    LoadFits big segs proc i s := by
  obtain ⟨m, mem, image⟩ := feasible
  have reached := reached_of_mem mem
  have value : get (update proc i s) i.d = loadValue proc i s := by
    unfold update
    rw [isLoad]
    exact get_load reached (cell_ne_none reachable mem _)
  have ne : get s i.a ≠ .all := fun eq => nomatch val.symm.trans (congrArg Value.kind eq)
  have first : cell (get s i.a) s 0 = s.known (.memory (get s i.a).base) := by
    rw [cell_eq_known reachable reached, show BitVec.ofNat 32 0 = 0 from rfl, mul_zero, add_zero]
  have cells : cellsValue (get s i.a) s = cell (get s i.a) s 0 := by
    rw [cellsValue, if_neg ne, if_pos few, joined_const const le_rfl]
  have base : (get s i.a).base ∈ (get s i.a).gamma := by
    rw [Value.gamma_of_val val]
    exact Progression.base_mem _ _ _
  -- Every word of the cell can be the one that is loaded.
  have read : ∀ w ∈ (cell (get s i.a) s 0).gamma, ∀ r, Loads big i.type w r →
      r ∈ (loadValue proc i s).gamma := by
    intro w word r loads
    obtain ⟨mem', image'⟩ := update_mem mem image outside (first ▸ word)
    rw [← value]
    refine kept _ mem' image' _ base r ?_
    rwa [Function.update_self]
  refine .inr (.inr (.inr ⟨val, fun _ => ⟨fun k le => ?_, .inr fun k lt => ?_⟩, fun inRange unknown => ?_⟩))
  · rw [cell_const const le]
    intro w word r loads
    have inValue := read w word r loads
    unfold loadValue at inValue
    rw [cells] at inValue
    by_cases top : cell (get s i.a) s 0 = .all
    · rw [top]
      exact Set.mem_univ r
    · rwa [if_neg fun h => top h.1] at inValue
  · rw [joined_const const lt.le, cell_const const lt]
    exact .inl rfl
  · right
    intro known
    have top := unknown few
    obtain ⟨k, image⟩ : ∃ k, readFromMem proc (get s i.a).base i.type = .const k :=
      readFromMem_const known _
    have result : loadValue proc i s = .const k := by
      rw [loadValue, cells, if_pos ⟨top, inRange⟩, image]
    obtain ⟨w, w', r, r', eq, eq', differ⟩ := exists_loaded_ne big known
    have all : ∀ w, w ∈ (cell (get s i.a) s 0).gamma := by
      rw [top]
      exact Set.mem_univ
    have one := read w (all w) r fun r'' h => Option.some.inj (eq.symm.trans h)
    have other := read w' (all w') r' fun r'' h => Option.some.inj (eq'.symm.trans h)
    rw [result, Value.gamma_const] at one other
    exact differ (one.trans other.symm)

/-- A load leaves every value that can be read in the register, for the loads that fit;
of a constant address outside of the read-only segments, for no others. -/
theorem load_sound (big : Bool) (segs : List Segment) (get8 : Word → BitVec 8)
    (get16 : Word → BitVec 16) (get32 : Word → Word) (findSymbolAt : Symbols) (s : State) (i : Inst)
    (reachable : s.Reachable) (isLoad : i.op = .load) :
    (LoadFits big segs (.ofSegments segs get8 get16 get32 findSymbolAt) i s →
      LoadKept big segs (.ofSegments segs get8 get16 get32 findSymbolAt) i s) ∧
    ((get s i.a).kind = .val → (get s i.a).isConst → (get s i.a).mtimes.toNat < 42 →
      OutsideImage segs (get s i.a).base →
      (∃ m ∈ s.gamma, HoldsImage big segs (.ofSegments segs get8 get16 get32 findSymbolAt) m) →
      LoadKept big segs (.ofSegments segs get8 get16 get32 findSymbolAt) i s →
      LoadFits big segs (.ofSegments segs get8 get16 get32 findSymbolAt) i s) :=
  ⟨load_kept reachable isLoad, loadFits_of_kept reachable isLoad⟩

/-- The cell 0 holds 300, and so does the register 0 the address 0. -/
def wideCell : State := (State.full.set (.const 0) (.const 300)).set ⟨.reg, 0, 0, 0⟩ (.const 0)

theorem wideCell_reachable : wideCell.Reachable := .set _ _ (.set _ _ .full)

/-- A load of a whole word. -/
theorem load_sound_word :
    LoadKept false [] (.ofSegments [] 0 0 0 fun _ => none) { op := .load, d := 1, a := 0, b := INT32 }
      wideCell := by
  apply (load_sound false [] 0 0 0 (fun _ => none) wideCell { op := .load, d := 1, a := 0, b := INT32 }
    wideCell_reachable rfl).1
  have address : get wideCell 0 = .const 0 := by decide +kernel
  have cells : ∀ k, cell (.const 0) wideCell k = .const 300 := by
    intro k
    unfold cell
    rw [show (Value.const 0).delta = 0 from rfl, zero_mul]
    decide +kernel
  right; right; right
  dsimp only
  rw [address]
  refine ⟨rfl, fun _ => ⟨fun k _ => ?_, .inr fun k lt => absurd lt (Nat.not_lt_zero k)⟩, fun inRange _ => ?_⟩
  · rw [cells]
    intro w word r loads
    rwa [loads w rfl]
  · exact absurd inRange.2.2 (by decide)

/-- A memory of the state. -/
def wideMemory : Memory := fun x => if x = .memory 0 then 300 else 0

theorem wideMemory_mem : wideMemory ∈ wideCell.gamma := by
  have full := State.mem_full wideMemory
  have cell : wideMemory ∈ (State.full.set (.const 0) (.const 300)).gamma :=
    State.mem_set (by decide) full (Value.mem_const 300)
  exact State.mem_set (by decide) cell (Value.mem_const 0)

/-- A load of the byte at 0, the low one of 300: the register has 300, and not 44. -/
theorem load_mixes_sizes :
    ¬ ∀ (big : Bool) (segs : List Segment) (get8 : Word → BitVec 8) (get16 : Word → BitVec 16)
      (get32 : Word → Word) (findSymbolAt : Symbols) (s : State) (i : Inst), s.Reachable → i.op = .load →
      LoadKept big segs (.ofSegments segs get8 get16 get32 findSymbolAt) i s := by
  intro kept
  have image : HoldsImage false [] (.ofSegments [] 0 0 0 fun _ => none) wideMemory := by
    rintro type a r ⟨g, mem, -⟩
    exact absurd mem List.not_mem_nil
  have read := kept false [] 0 0 0 (fun _ => none) wideCell { op := .load, d := 1, a := 0, b := UINT8 }
    wideCell_reachable rfl wideMemory wideMemory_mem image 0 (Value.mem_const 0) 44
    fun r' h => by
      have byte : loaded false UINT8 (wideMemory (.memory 0)) = some 44 := by decide
      exact Option.some.inj (byte.symm.trans h)
  have result : get (update (.ofSegments [] 0 0 0 fun _ => none)
      { op := .load, d := 1, a := 0, b := UINT8 } wideCell) 1 = .const 300 := by decide +kernel
  change 44 ∈ (get (update (.ofSegments [] 0 0 0 fun _ => none)
      { op := .load, d := 1, a := 0, b := UINT8 } wideCell) 1).gamma at read
  rw [result, Value.gamma_const] at read
  exact absurd read (by decide)

end Otawa.Clp.Problem
