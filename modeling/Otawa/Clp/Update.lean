import Otawa.Clp.Arith
import Otawa.Clp.Sem
import Otawa.Clp.Store

/-!
# Interpretation of semantic instructions

`Problem.update` on the state: the values of the registers that an instruction reads are
combined by the operations on values, and operations without one leave an unknown register.
`LOAD` joins the cells of up to 42 addresses, and reads the executable where nothing is known
of a constant address in its read-only part.

An instruction changes no register but its destination (`update_keeps`).
-/

namespace Otawa.Clp

open Otawa.Sem

namespace Value

/-- The shifted words of a shift amount of 32 or more are those of the machine that runs the analysis; here
they are shifted out. -/
def shl (v val : Value) : Value :=
  if ¬ val.isConst ∨ val.base.toInt < 0 then all
  else if v.kind ≠ .none ∧ v.kind ≠ .all then
    if v.delta = 0 ∧ v.mtimes = 0 then const (v.base <<< val.base.toNat)
    else ⟨.val, v.base <<< val.base.toNat, v.delta <<< val.base.toNat, v.mtimes⟩
  else v

def shr (v val : Value) : Value :=
  if ¬ val.isConst ∨ val.base.toInt < 0 then all
  else if v.kind ≠ .none ∧ v.kind ≠ .all then
    let base := v.base.sshiftRight val.base.toNat
    if v.delta = 0 ∧ v.mtimes = 0 then const base
    else if v.delta.srem 2 = 0 then ⟨.val, base, v.delta.sshiftRight val.base.toNat, v.mtimes⟩
    else ⟨.val, base, 1, (v.delta * v.mtimes) >>> val.base.toNat⟩
  else v

/-- `_or`. -/
def or (v val : Value) : Value :=
  if v.kind = .all ∨ val.kind = .none then v
  else if val.kind = .all ∨ v.kind = .none then val
  else if val.isConst then
    if v.isConst then { v with base := v.base ||| val.base } else all
  else all

end Value

namespace Problem

/-- What the analysis reads of the program: its executable, where the read-only data are, and its symbols. -/
structure Process where
  get8 : Word → BitVec 8
  get16 : Word → BitVec 16
  get32 : Word → Word
  dataMin : Word
  dataMax : Word
  findSymbolAt : Symbols

variable (proc : Process)

def readFromMem (address type : Word) : Value :=
  if type = INT8 then .const ((proc.get8 address).signExtend 32)
  else if type = INT16 then .const ((proc.get16 address).signExtend 32)
  else if type = INT32 then .const (proc.get32 address)
  else if type = UINT8 then .const ((proc.get8 address).setWidth 32)
  else if type = UINT16 then .const ((proc.get16 address).setWidth 32)
  else if type = UINT32 then .const (proc.get32 address)
  else .all

/-- `get` of a register. -/
def get (s : State) (r : Word) : Value := s.get (reg r)

/-- `set` of a register. -/
def set (s : State) (r : Word) (v : Value) : State := s.set ⟨.reg, r, 0, 0⟩ v

/-- The cell of the first address is loaded, and the ones of the others are joined to it. -/
def loadEach (addrclp : Value) (d : Word) (s : State) (count : Nat) : State :=
  (List.range count).foldl (fun s m =>
    set s d ((get s d).join (s.get (.memory (addrclp.base + addrclp.delta * BitVec.ofNat 32 (m + 1))))))
    (set s d (s.get (.memory addrclp.base)))

/-- What the cells of the state give. -/
def loadCells (i : Inst) (s : State) : State :=
  let addrclp := get s i.a
  if addrclp = .all then set s i.d addrclp
  else if addrclp.mtimes.toNat < 42 then loadEach addrclp i.d s addrclp.mtimes.toNat
  else set s i.d .all

/-- If the value loaded is unknown, it is loaded from the process. -/
def load (i : Inst) (s : State) : State :=
  let addrclp := get s i.a
  let s := loadCells i s
  if get s i.d = .all ∧ addrclp.isConst ∧ proc.dataMin.toNat ≤ addrclp.start.toNat ∧
      addrclp.start.toNat < proc.dataMax.toNat then
    set s i.d (readFromMem proc addrclp.base i.type)
  else s

/-- The state after an instruction. -/
def update (i : Inst) (s : State) : State :=
  match i.op with
  | .branch | .trap | .cont | .if | .nop => s
  | .load => load proc i s
  | .store => store proc.findSymbolAt s i.a.toInt i.d.toInt
  | .setp | .cmp | .cmpu | .scratch => set s i.d .all
  | .set => set s i.d (get s i.a)
  | .seti => set s i.d (.const i.cst)
  | .add => set s i.d ((get s i.a).add (get s i.b))
  | .sub => set s i.d ((get s i.a).sub (get s i.b))
  | .shl => set s i.d ((get s i.a).shl (get s i.b))
  | .shr | .asr => set s i.d ((get s i.a).shr (get s i.b))
  | .or => set s i.d ((get s i.a).or (get s i.b))
  | _ => set s i.d .all

/-! ### Registers -/

variable {proc} {s s' s'' : State} {r : Word}

/-- An update that leaves a register as it is, unless it leaves no memory. -/
def Keeps (r : Word) (s s' : State) : Prop := s'.first ≠ .none → s.first ≠ .none ∧ get s' r = get s r

theorem Keeps.refl (r : Word) (s : State) : Keeps r s s := fun reached => ⟨reached, rfl⟩

theorem Keeps.trans (first : Keeps r s s') (next : Keeps r s' s'') : Keeps r s s'' := by
  intro reached
  obtain ⟨reached', same'⟩ := next reached
  obtain ⟨reached'', same⟩ := first reached'
  exact ⟨reached'', same'.trans same⟩

theorem keeps_foldl {f : State → Nat → State} (step : ∀ s m, Keeps r s (f s m)) (l : List Nat) :
    ∀ s, Keeps r s (l.foldl f s) := by
  induction l with
  | nil => exact fun s => .refl r s
  | cons m rest ih => exact fun s => (step s m).trans (ih (f s m))

theorem keeps_set {addr val : Value} (ne : addr.location ≠ reg r) : Keeps r s (s.set addr val) := by
  intro reached
  unfold State.set at reached ⊢
  by_cases empty : s.first = .none
  · rw [if_pos empty] at reached
    exact absurd empty reached
  rw [if_neg empty] at reached ⊢
  by_cases stored : val = .none
  · rw [if_pos stored] at reached
    exact absurd rfl reached
  rw [if_neg stored]
  refine ⟨empty, ?_⟩
  cases place : addr.location with
  | memory adr =>
    simp only
    split <;> rfl
  | register r' =>
    have ne' : r' ≠ r.toInt := fun eq => ne (place.trans (congrArg _ eq))
    simp only [get, reg, State.get, State.entry]
    split
    · split
      · rw [State.getD_setAt, if_neg (by omega)]
      · rfl
    · split
      · rfl
      · rw [State.getD_setAt, if_neg (by omega)]

theorem keeps_clearArea (base size : Word) : Keeps r s (s.clearArea base size) := by
  unfold State.clearArea
  split
  · exact .refl r s
  · exact fun reached => ⟨reached, rfl⟩

theorem const_location_ne (k r : Word) : (Value.const k).location ≠ reg r := by
  simp [Value.location, Value.const, reg]

theorem all_location_ne (r : Word) : Value.all.location ≠ reg r := by
  simp [Value.location, Value.all, reg]

theorem keeps_set_reg {d : Word} {v : Value} (ne : d ≠ r) : Keeps r s (set s d v) :=
  keeps_set fun eq => ne (BitVec.eq_of_toInt_eq (Location.register.inj eq))

theorem keeps_store (findSymbolAt : Symbols) (a d : Int) : Keeps r s (store findSymbolAt s a d) := by
  unfold store
  simp only
  split
  case isTrue top =>
    rw [top]
    exact keeps_set (all_location_ne r)
  split
  · split
    · exact (keeps_set (all_location_ne r)).trans (keeps_clearArea _ _)
    · split
      · exact .refl r s
      · exact keeps_clearArea _ _
  · exact keeps_foldl (fun s m => keeps_set (const_location_ne _ r)) _ s

theorem keeps_load {i : Inst} (ne : i.d ≠ r) : Keeps r s (load proc i s) := by
  have cells : Keeps r s (loadCells i s) := by
    unfold loadCells
    simp only
    split
    · exact keeps_set_reg ne
    · split
      · exact (keeps_set_reg ne).trans (keeps_foldl (fun s m => keeps_set_reg ne) _ _)
      · exact keeps_set_reg ne
  unfold load
  simp only
  split
  · exact cells.trans (keeps_set_reg ne)
  · exact cells

/-- An instruction changes no register but its destination; a store changes none. -/
theorem update_keeps {i : Inst} (ne : i.op = .store ∨ i.d ≠ r) : Keeps r s (update proc i s) := by
  rcases ne with isStore | ne
  · unfold update
    rw [isStore]
    exact keeps_store _ _ _
  · unfold update
    split
    case h_1 | h_2 | h_3 | h_4 | h_5 => exact .refl r s
    case h_6 => exact keeps_load ne
    case h_7 => exact keeps_store _ _ _
    all_goals exact keeps_set_reg ne

/-! ### The states of the analysis -/

theorem reachable_foldl {f : State → Nat → State} (step : ∀ s m, s.Reachable → (f s m).Reachable) (l : List Nat) :
    ∀ s : State, s.Reachable → (l.foldl f s).Reachable := by
  induction l with
  | nil => exact fun s reachable => reachable
  | cons m rest ih => exact fun s reachable => ih (f s m) (step s m reachable)

theorem reachable_store (findSymbolAt : Symbols) (a d : Int) (reachable : s.Reachable) :
    (store findSymbolAt s a d).Reachable := by
  unfold store
  simp only
  split
  · exact reachable.set _ _
  split
  · split
    · exact (reachable.set _ _).clearArea _ _
    · split
      · exact reachable
      · exact reachable.clearArea _ _
  · exact reachable_foldl (fun s m reachable => reachable.set _ _) _ s reachable

theorem reachable_load (i : Inst) (reachable : s.Reachable) : (load proc i s).Reachable := by
  have cells : (loadCells i s).Reachable := by
    unfold loadCells
    simp only
    split
    · exact reachable.set _ _
    · split
      · exact reachable_foldl (fun s m reachable => reachable.set _ _) _ _ (reachable.set _ _)
      · exact reachable.set _ _
  unfold load
  simp only
  split
  · exact cells.set _ _
  · exact cells

theorem update_reachable (i : Inst) (reachable : s.Reachable) : (update proc i s).Reachable := by
  unfold update
  split
  case h_1 | h_2 | h_3 | h_4 | h_5 => exact reachable
  case h_6 => exact reachable_load i reachable
  case h_7 => exact reachable_store _ _ _ reachable
  all_goals exact reachable.set _ _

end Problem

end Otawa.Clp
