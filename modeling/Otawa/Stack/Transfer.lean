import Otawa.Stack.Memory
import Otawa.Stack.Update

/-!
# One semantic instruction in the stack analysis

`Steps` is what a semantic instruction does to the machine of bytes, and `Models` the machines a state stands
for: its cells have words of four bytes, and what it does not bind in the image is as in the image.

`Fits` says, from an instruction and the state before it, that no branch of `update` that goes wrong is taken:
temporaries without room, constants that are divided or shifted wrongly, the high product, pages, and the types
of loads and stores. `update_covers` is the soundness of the others.
-/

namespace Otawa.Stack

open Bytes (Within)
open Clp (Word MINn)
open Sem
open Value State

/-- The number of bytes of a type. -/
def typeSize (type : Word) : Option ℕ :=
  if type = INT8 ∨ type = UINT8 then some 1
  else if type = INT16 ∨ type = UINT16 then some 2
  else if type = INT32 ∨ type = UINT32 ∨ type = FLOAT32 then some 4
  else if type = INT64 ∨ type = UINT64 ∨ type = FLOAT64 then some 8
  else none

/-- The numbers of the type are the words of registers. -/
abbrev IsWord (type : Word) : Prop := type = INT32 ∨ type = UINT32

/-- A register has the numbers of the type, in its low bytes. -/
def IsInteger (type : Word) : Prop :=
  IsWord type ∨ type = INT8 ∨ type = UINT8 ∨ type = INT16 ∨ type = UINT16

namespace Platform

variable (c : Platform)

/-- The machine, by its words. -/
def view (m : Machine) : Sem.Memory
  | .register r => m.regs (BitVec.ofInt 32 r)
  | .memory a => c.content m a 4

/-- The word that a load puts in its destination; for the other types it is not a function of the memory. -/
def loaded (m : Machine) (a type : Word) : Option Word :=
  if IsWord type then some (c.content m a 4)
  else if type = INT8 then some (((c.content m a 1).setWidth 8).signExtend 32)
  else if type = UINT8 then some (c.content m a 1)
  else if type = INT16 then some (((c.content m a 2).setWidth 16).signExtend 32)
  else if type = UINT16 then some (c.content m a 2)
  else none

/-- The word that an instruction puts in its destination. The page that `SETP` sets is not in the word. -/
def result (i : Inst) (m : Machine) : Option Word :=
  match i.op with
  | .load => c.loaded m (m.regs i.a) i.type
  | .setp => some (m.regs i.d)
  | .mulh => some (BitVec.ofNat 32 ((m.regs i.a).toNat * (m.regs i.b).toNat / 2 ^ 32))
  | _ => i.result (c.view m)

/-- The step of one instruction. `SPEC` has no meaning. -/
def Steps (i : Inst) (m m' : Machine) : Prop :=
  match i.op with
  | .nop | .branch | .trap | .cont | .if => m' = m
  | .spec => False
  | .store => ∃ n x, typeSize i.type = some n ∧ (IsInteger i.type → x = (m.regs i.d).toNat) ∧
      m' = { m with mem := m.mem.store c.order (m.regs i.a) n x }
  | _ => ∃ w, (∀ r ∈ c.result i m, w = r) ∧ m' = { m with regs := Function.update m.regs i.d w }

/-- The machines a state stands for. -/
structure Models (s : State) (m : Machine) : Prop where
  full : s.first = .top
  regs : ∀ r, 0 ≤ r.toInt → m.regs r ∈ (s.get c.proc (.reg r) 0).gamma c.sp0
  cells : ∀ x v a, s.binding x = some v → a ∈ x.gamma c.sp0 → c.content m a 4 ∈ v.gamma c.sp0
  image : ∀ x n, s.binding x = none → c.FromImage x n → c.content m x.val n = c.proc.get x.val n

/-- The address may be one of a byte of the content. -/
def Touches (addr : Value) (n : ℕ) (a : Word) (k : ℕ) : Prop :=
  ∃ b ∈ addr.gamma c.sp0, ∃ x, Within b n x ∧ Within a k x

/-- A cell is loaded as a word, and the image without a sign. -/
def LoadFits (s : State) (addr : Value) (type : Word) : Prop :=
  (s.binding addr ≠ none → IsWord type) ∧
    (s.binding addr = none → c.FromImage addr type.toNat →
      (type = INT8 ∧ (c.proc.get addr.val 1).toNat < 2 ^ 7) ∨
        (type = INT16 ∧ (c.proc.get addr.val 2).toNat < 2 ^ 15))

/-- What is stored and kept is a word, and no byte of the other cells that are left is stored, nor any byte of
the image where no cell is left. -/
def StoreFits (s : State) (addr val : Value) (type : Word) : Prop :=
  ((addr.kind = .sp ∨ addr.kind = .cst) → val.kind ≠ .all → IsWord type) ∧
    ∀ n, typeSize type = some n →
      (∀ x a, s.binding x ≠ none → x ≠ addr → (addr.kind = .all → x.kind.rank ≤ Kind.sp.rank) → a ∈ x.gamma c.sp0 →
        ¬ c.Touches addr n a 4) ∧
      ∀ x k, c.FromImage x k →
        (s.binding x = none ∧ x ≠ addr ∨ x = addr ∧ val.kind = .all ∨ addr.kind = .all) →
          ¬ c.Touches addr n x.val k

end Platform

/-- The words that the operators take and that are not computed as the machine does. -/
def ConstFits (op : Opcode) (x y : Word) : Prop :=
  match op with
  | .div | .mod => y ≠ 0 ∧ ¬ (x = MINn ∧ y = -1)
  | .divu | .modu => y ≠ 0
  | .mulh => y ≠ 0 ∧ x.toNat * y.toNat < 2 ^ 32
  | .shl | .shr | .asr => y.toNat < 32
  | _ => True

namespace StackProblem

/-- The registers and temporaries whose values are used. -/
def reads (i : Inst) : List Word :=
  match i.op with
  | .nop | .branch | .trap | .cont | .if | .spec | .cmp | .cmpu | .scratch | .seti => []
  | .load | .set | .neg | .not => [i.a]
  | .store => [i.a, i.d]
  | .setp => [i.d]
  | _ => [i.a, i.b]

def writes (i : Inst) : Option Word :=
  match i.op with
  | .nop | .branch | .trap | .cont | .if | .spec | .store => none
  | _ => some i.d

/-- The number of a temporary. -/
def Temp (r : Word) (k : Fin 16) : Prop := r.toInt < 0 ∧ slot r = some k

def Reads (i : Inst) (k : Fin 16) : Prop := ∃ r ∈ reads i, Temp r k

def Writes (i : Inst) (k : Fin 16) : Prop := ∃ r ∈ writes i, Temp r k

/-- There is room for the temporary. -/
def HasRoom (r : Word) : Prop := r.toInt < 0 → (slot r).isSome

/-- The instruction does not come to a branch of `update` that goes wrong. -/
structure Fits (c : Platform) (i : Inst) (p : State × Temps) : Prop where
  reads : ∀ r ∈ reads i, HasRoom r
  writes : ∀ r ∈ writes i, HasRoom r
  load : i.op = .load → ∀ addr, get c.proc p i.a = some addr → c.LoadFits p.1 addr i.type
  store : i.op = .store → ∀ addr v, get c.proc p i.a = some addr → get c.proc p i.d = some v →
    c.StoreFits p.1 addr v i.type
  page : i.op = .setp → ∀ v, get c.proc p i.d = some v → v.isConst → v.val = 0
  const : ∀ v w, get c.proc p i.a = some v → get c.proc p i.b = some w → v.isConst → w.isConst →
    ConstFits i.op v.val w.val

def unaryOp : Opcode → Option (Value → Value)
  | .set => some id
  | .neg => some Value.neg
  | .not => some Value.not
  | _ => none

def binaryOp : Opcode → Option (Value → Value → Option Value)
  | .add => some Value.add
  | .sub => some Value.sub
  | .shl => some Value.shl
  | .shr => some Value.shr
  | .asr => some Value.asr
  | .or => some Value.or
  | .and => some Value.and
  | .xor => some Value.xor
  | .mul | .mulu => some Value.mul
  | .div => some Value.div
  | .divu => some Value.divu
  | .mod => some Value.mod
  | .modu => some Value.modu
  | .mulh => some Value.mulh
  | _ => none

/-- The value of the destination. -/
def value (proc : Process) (i : Inst) (p : State × Temps) : Option Value :=
  match unaryOp i.op, binaryOp i.op with
  | some op, _ => (get proc p i.a).map op
  | none, some op => (get proc p i.a).bind fun v => (get proc p i.b).bind fun w => op v w
  | none, none =>
    match i.op with
    | .load => (get proc p i.a).map fun addr => p.1.get proc addr i.type.toNat
    | .seti => some (.cst i.cst)
    | .setp => (get proc p i.d).map fun v => if v.isConst then .addr v.val else .top
    | _ => some .top

variable {proc : Process} {i : Inst} {p p' : State × Temps}

theorem value_unary {op : Value → Value} (hop : unaryOp i.op = some op) :
    value proc i p = (get proc p i.a).map op := by
  rw [value, hop]

theorem value_binary {op : Value → Value → Option Value} (hunary : unaryOp i.op = none)
    (hop : binaryOp i.op = some op) :
    value proc i p = (get proc p i.a).bind fun v => (get proc p i.b).bind fun w => op v w := by
  rw [value, hunary, hop]

theorem update_of_writes {d : Word} (hwrites : writes i = some d) :
    update proc i p = (value proc i p).bind fun v => set p d v := by
  unfold writes at hwrites
  unfold update value
  cases hcode : i.op <;> simp only [hcode, reduceCtorEq, Option.some.injEq] at hwrites <;> subst hwrites <;>
    simp only [unaryOp, binaryOp, unary, binary, Option.bind_some, Option.bind_assoc, Option.bind_map,
      Function.comp_def]

/-- An instruction without a destination stores or changes nothing. -/
theorem update_of_not_writes (hwrites : writes i = none) : update proc i p =
    if i.op = .store then (get proc p i.a).bind fun addr => (get proc p i.d).map fun v => (p.1.set addr v, p.2)
    else some p := by
  unfold writes at hwrites
  unfold update
  cases hcode : i.op <;> simp only [hcode, reduceCtorEq] at hwrites <;> simp

theorem temps_of_not_writes (hwrites : writes i = none) (hupdate : update proc i p = some p') : p'.2 = p.2 := by
  rw [update_of_not_writes hwrites] at hupdate
  split at hupdate
  case isTrue =>
    obtain ⟨addr, -, hupdate⟩ := Option.bind_eq_some_iff.mp hupdate
    obtain ⟨v, -, rfl⟩ := Option.map_eq_some_iff.mp hupdate
    rfl
  case isFalse =>
    cases hupdate
    rfl

theorem not_writes (hwrites : writes i = none) (k : Fin 16) : ¬ Writes i k := by
  rintro ⟨r, hr, -⟩
  rw [hwrites] at hr
  cases hr

theorem reads_unary {op : Value → Value} (hop : unaryOp i.op = some op) : reads i = [i.a] := by
  unfold reads
  cases hcode : i.op <;> simp only [hcode, unaryOp, reduceCtorEq] at hop <;> rfl

theorem reads_binary {op : Value → Value → Option Value} (hop : binaryOp i.op = some op) :
    reads i = [i.a, i.b] := by
  unfold reads
  cases hcode : i.op <;> simp only [hcode, binaryOp, reduceCtorEq] at hop <;> rfl

theorem reads_store (hcode : i.op = .store) : i.a ∈ reads i ∧ i.d ∈ reads i := by
  rw [reads, hcode]
  exact ⟨List.mem_cons_self, List.mem_cons_of_mem _ (List.mem_singleton_self _)⟩

theorem a_mem_reads {op : Value → Value → Option Value} (hop : binaryOp i.op = some op) : i.a ∈ reads i := by
  rw [reads_binary hop]
  exact List.mem_cons_self

theorem b_mem_reads {op : Value → Value → Option Value} (hop : binaryOp i.op = some op) : i.b ∈ reads i := by
  rw [reads_binary hop]
  exact List.mem_cons_of_mem _ (List.mem_singleton_self _)

theorem exists_get {r : Word} (hroom : HasRoom r) : ∃ v, get proc p r = some v := by
  unfold get
  split
  case isTrue hneg =>
    obtain ⟨k, hk⟩ := Option.isSome_iff_exists.mp (hroom hneg)
    exact ⟨p.2 k, by rw [hk, Option.map_some]⟩
  case isFalse => exact ⟨_, rfl⟩

theorem exists_set {r : Word} (hroom : HasRoom r) (v : Value) : ∃ p', set p r v = some p' := by
  unfold set
  split
  case isTrue hneg =>
    obtain ⟨k, hk⟩ := Option.isSome_iff_exists.mp (hroom hneg)
    exact ⟨_, by rw [hk, Option.map_some]⟩
  case isFalse => exact ⟨_, rfl⟩

theorem toNat_of_slot {r : Word} {k : Fin 16} (h : slot r = some k) : (-r.toInt).toNat = k := by
  unfold slot at h
  split at h
  · exact congrArg Fin.val (Option.some.inj h)
  · cases h

/-- The temporaries do not share places. -/
theorem temp_injective {r r' : Word} {k : Fin 16} (h : Temp r k) (h' : Temp r' k) : r = r' := by
  have heq := (toNat_of_slot h.2).trans (toNat_of_slot h'.2).symm
  have hneg := h.1
  have hneg' := h'.1
  exact BitVec.eq_of_toInt_eq (by omega)

end StackProblem

namespace Platform

variable {c : Platform} {m m' : Machine} {i : Inst} {v w : Value}

theorem view_reg (c : Platform) (m : Machine) (r : Word) : c.view m (Sem.reg r) = m.regs r := by
  rw [Sem.reg, view, BitVec.ofInt_toInt]

theorem binaryOp_covers {op : Value → Value → Option Value} (hop : StackProblem.binaryOp i.op = some op)
    (hfits : v.isConst → w.isConst → ConstFits i.op v.val w.val) : ∃ r, op v w = some r ∧
      ∀ m x, m.regs i.a ∈ v.gamma c.sp0 → m.regs i.b ∈ w.gamma c.sp0 → (∀ y ∈ c.result i m, x = y) →
        x ∈ r.gamma c.sp0 := by
  have covers : ∀ {f : Word → Word → Option Word}, OpCovers c.sp0 op f v w →
      (∀ m, c.result i m = f (m.regs i.a) (m.regs i.b)) → ∃ r, op v w = some r ∧
        ∀ m x, m.regs i.a ∈ v.gamma c.sp0 → m.regs i.b ∈ w.gamma c.sp0 → (∀ y ∈ c.result i m, x = y) →
          x ∈ r.gamma c.sp0 := by
    rintro f ⟨r, hr, hmem⟩ hresult
    refine ⟨r, hr, fun m x ha hb hx => hmem _ ha _ hb x ?_⟩
    rw [← hresult m]
    exact hx
  unfold ConstFits at hfits
  cases hcode : i.op <;> simp only [hcode, StackProblem.binaryOp, Option.some.injEq, reduceCtorEq] at hop hfits <;>
    subst hop
  case add => exact covers (add_covers _ v w) fun m => by simp only [result, hcode, Inst.result, view_reg]
  case sub => exact covers (sub_covers _ v w) fun m => by simp only [result, hcode, Inst.result, view_reg]
  case shl =>
    refine covers (f := fun a b => if b.toNat < 32 then some (a <<< b.toNat) else none) (binary_covers ?_)
      fun m => by simp only [result, hcode, Inst.result, view_reg]
    intro hv hw
    exact ⟨_, if_pos (hfits hv hw), if_pos (hfits hv hw)⟩
  case shr =>
    refine covers (f := fun a b => if b.toNat < 32 then some (a >>> b.toNat) else none) (binary_covers ?_)
      fun m => by simp only [result, hcode, Inst.result, view_reg]
    intro hv hw
    exact ⟨_, if_pos (hfits hv hw), if_pos (hfits hv hw)⟩
  case asr =>
    refine covers (f := fun a b => if b.toNat < 32 then some (a.sshiftRight b.toNat) else none) (binary_covers ?_)
      fun m => by simp only [result, hcode, Inst.result, view_reg]
    intro hv hw
    exact ⟨_, if_pos (hfits hv hw), if_pos (hfits hv hw)⟩
  case div =>
    refine covers (f := fun a b => if b = 0 then none else some (a.sdiv b)) (binary_covers ?_)
      fun m => by simp only [result, hcode, Inst.result, view_reg]
    intro hv hw
    obtain ⟨hzero, hmin⟩ := hfits hv hw
    exact ⟨_, if_neg (not_or.mpr ⟨hzero, hmin⟩), if_neg hzero⟩
  case divu =>
    refine covers (f := fun a b => if b = 0 then none else some (a / b)) (binary_covers ?_)
      fun m => by simp only [result, hcode, Inst.result, view_reg]
    intro hv hw
    exact ⟨_, if_neg (hfits hv hw), if_neg (hfits hv hw)⟩
  case mod =>
    refine covers (f := fun a b => if b = 0 then none else some (a.srem b)) (binary_covers ?_)
      fun m => by simp only [result, hcode, Inst.result, view_reg]
    intro hv hw
    obtain ⟨hzero, hmin⟩ := hfits hv hw
    exact ⟨_, if_neg (not_or.mpr ⟨hzero, hmin⟩), if_neg hzero⟩
  case modu =>
    refine covers (f := fun a b => if b = 0 then none else some (a % b)) (binary_covers ?_)
      fun m => by simp only [result, hcode, Inst.result, view_reg]
    intro hv hw
    exact ⟨_, if_neg (hfits hv hw), if_neg (hfits hv hw)⟩
  case mulh =>
    refine covers (f := fun a b => some (BitVec.ofNat 32 (a.toNat * b.toNat / 2 ^ 32))) (binary_covers ?_)
      fun m => by simp only [result, hcode]
    intro hv hw
    obtain ⟨hzero, hlow⟩ := hfits hv hw
    refine ⟨0, ?_, by rw [Nat.div_eq_of_lt hlow]; rfl⟩
    rw [if_neg hzero, mulh_word]
  case or =>
    exact covers (word_covers _ (· ||| ·) v w) fun m => by simp only [result, hcode, Inst.result, view_reg]
  case and =>
    exact covers (word_covers _ (· &&& ·) v w) fun m => by simp only [result, hcode, Inst.result, view_reg]
  case xor =>
    exact covers (word_covers _ (· ^^^ ·) v w) fun m => by simp only [result, hcode, Inst.result, view_reg]
  case mul =>
    exact covers (word_covers _ (· * ·) v w) fun m => by simp only [result, hcode, Inst.result, view_reg]
  case mulu =>
    exact covers (word_covers _ (· * ·) v w) fun m => by simp only [result, hcode, Inst.result, view_reg]

theorem unaryOp_covers {op : Value → Value} (hop : StackProblem.unaryOp i.op = some op) {x : Word}
    (ha : m.regs i.a ∈ v.gamma c.sp0) (hx : ∀ y ∈ c.result i m, x = y) : x ∈ (op v).gamma c.sp0 := by
  cases hcode : i.op <;> simp only [hcode, StackProblem.unaryOp, Option.some.injEq, reduceCtorEq] at hop <;>
    subst hop <;> simp only [result, hcode, Inst.result, view_reg, Option.mem_some_iff, forall_eq'] at hx <;>
    subst hx
  case set => exact ha
  case neg =>
    unfold Value.neg
    split
    case isTrue hv =>
      rw [(mem_gamma_const hv).mp ha]
      exact const_mem hv _
    case isFalse =>
      split
      case isTrue hbot =>
        rw [hbot, gamma_bot] at ha
        exact absurd ha (Set.notMem_empty _)
      case isFalse => exact mem_gamma_top
  case not =>
    unfold Value.not
    split
    case isTrue hv =>
      rw [(mem_gamma_const hv).mp ha]
      exact const_mem hv _
    case isFalse =>
      split
      case isTrue hbot =>
        rw [hbot, gamma_bot] at ha
        exact absurd ha (Set.notMem_empty _)
      case isFalse => exact mem_gamma_top

end Platform

namespace Platform

open StackProblem

variable {c : Platform} {m m' : Machine} {i : Inst} {s : State} {p p' : State × Temps} {addr v x : Value}
  {a w d : Word} {L L' : Fin 16 → Prop} {n k : ℕ}

/-- The machines a state stands for, with the words of the temporaries that count. -/
structure Covers (c : Platform) (L : Fin 16 → Prop) (p : State × Temps) (m : Machine) : Prop where
  models : c.Models p.1 m
  temps : ∀ r k, Temp r k → L k → m.regs r ∈ (p.2 k).gamma c.sp0

theorem typeSize_isSize {type : Word} (h : typeSize type = some n) : IsSize n := by
  unfold typeSize at h
  split_ifs at h <;> cases h <;> exact ⟨by decide, by decide⟩

theorem typeSize_of_isWord {type : Word} (h : IsWord type) : typeSize type = some 4 := by
  obtain rfl | rfl := h <;> rfl

/-- A value with a word is unknown, in the stack or a constant. -/
theorem kind_of_mem (ha : a ∈ v.gamma c.sp0) (hne : v.kind ≠ .all) : v.kind = .sp ∨ v.kind = .cst := by
  unfold gamma at ha
  split at ha
  case h_1 htop => exact absurd htop hne
  case h_2 hsp => exact .inl hsp
  case h_3 hcst => exact .inr hcst
  all_goals exact absurd ha (Set.notMem_empty a)

theorem get_reg (hd : 0 ≤ d.toInt) (n : ℕ) : s.get c.proc (.reg d) n = (s.binding (.reg d)).getD s.first := by
  cases hbound : s.binding (.reg d) with
  | none => exact get_of_not_image hbound (not_image_reg hd)
  | some v => exact get_of_binding hbound n

theorem mem_get (h : c.Covers L p m) (hlive : ∀ k, Temp d k → L k) (hget : StackProblem.get c.proc p d = some v) :
    m.regs d ∈ v.gamma c.sp0 := by
  unfold StackProblem.get at hget
  split at hget
  case isTrue hneg =>
    obtain ⟨k, hk, rfl⟩ := Option.map_eq_some_iff.mp hget
    exact h.temps d k ⟨hneg, hk⟩ (hlive k ⟨hneg, hk⟩)
  case isFalse hpos =>
    cases hget
    exact h.models.regs d (not_lt.mp hpos)

theorem Models.setReg (h : c.Models s m) (hd : 0 ≤ d.toInt) (hw : w ∈ v.gamma c.sp0) :
    c.Models (s.set (.reg d) v) { m with regs := Function.update m.regs d w } := by
  have hne : ∀ {x : Value} {a : Word}, a ∈ x.gamma c.sp0 → x ≠ .reg d := by
    rintro x a ha rfl
    rw [gamma_reg hd] at ha
    exact ha
  have hbinding : ∀ x, (s.set (.reg d) v).binding x = if x = .reg d then kept v else s.binding x :=
    binding_set (not_bot h.full) (by rw [kind_reg hd]; decide)
  refine ⟨?_, ?_, ?_, ?_⟩
  · rw [first_set]
    exact h.full
  · intro r hr
    show Function.update m.regs d w r ∈ _
    rw [get_reg hr, hbinding, first_set]
    by_cases heq : r = d
    case pos =>
      subst heq
      rw [Function.update_self, if_pos rfl]
      unfold kept
      split
      case isTrue =>
        rw [Option.getD_none, h.full]
        exact mem_gamma_top
      case isFalse => exact hw
    case neg =>
      have hreg : Value.reg r ≠ .reg d := fun h => heq (congrArg Value.val h)
      rw [Function.update_of_ne heq, if_neg hreg, ← get_reg hr 0]
      exact h.regs r hr
  · intro x v' a hv ha
    rw [hbinding, if_neg (hne ha)] at hv
    exact h.cells x v' a hv ha
  · intro x n hnone himage
    have hx : x.val ∈ x.gamma c.sp0 := by
      rw [gamma_cst himage.1]
      exact rfl
    rw [hbinding, if_neg (hne hx)] at hnone
    exact h.image x n hnone himage

theorem Covers.set (h : c.Covers L p m) (hlive : ∀ k, L' k → L k ∨ Temp d k) (hset : set p d v = some p')
    (hw : w ∈ v.gamma c.sp0) : c.Covers L' p' { m with regs := Function.update m.regs d w } := by
  unfold StackProblem.set at hset
  split at hset
  case isTrue hneg =>
    obtain ⟨k, hk, rfl⟩ := Option.map_eq_some_iff.mp hset
    have hregs : ∀ r, 0 ≤ r.toInt → Function.update m.regs d w r = m.regs r := by
      intro r hr
      refine Function.update_of_ne ?_ _ _
      rintro rfl
      exact absurd hneg (not_lt.mpr hr)
    refine ⟨⟨h.models.full, fun r hr => ?_, h.models.cells, h.models.image⟩, fun r k' hr hk' => ?_⟩
    · show Function.update m.regs d w r ∈ _
      rw [hregs r hr]
      exact h.models.regs r hr
    · show Function.update m.regs d w r ∈ gamma c.sp0 (Function.update p.2 k v k')
      by_cases heq : r = d
      case pos =>
        subst heq
        obtain rfl : k = k' := Option.some.inj (hk.symm.trans hr.2)
        rw [Function.update_self, Function.update_self]
        exact hw
      case neg =>
        have hkne : k' ≠ k := by
          rintro rfl
          exact heq (temp_injective hr ⟨hneg, hk⟩)
        rw [Function.update_of_ne heq, Function.update_of_ne hkne]
        refine h.temps r k' hr ((hlive k' hk').resolve_right fun hd => ?_)
        exact hkne (Option.some.inj (hd.2.symm.trans hk))
  case isFalse hpos =>
    cases hset
    refine ⟨h.models.setReg (not_lt.mp hpos) hw, fun r k hr hk => ?_⟩
    have hne : r ≠ d := by
      rintro rfl
      exact hpos hr.1
    show Function.update m.regs d w r ∈ _
    rw [Function.update_of_ne hne]
    exact h.temps r k hr ((hlive k hk).resolve_right fun hd => hpos hd.1)

/-- What a store leaves bound was bound, to the same value and, for an unknown address, in the stack or lower. -/
theorem bound_of_set_ne (hs : s.first = .top) (hne : x ≠ addr) {val : Value}
    (h : (s.set addr val).binding x = some v) :
    s.binding x = some v ∧ (addr.kind = .all → x.kind.rank ≤ Kind.sp.rank) := by
  refine ⟨binding_of_set_ne hs hne h, fun hall => ?_⟩
  exact rank_of_set_unknown hs hall h

theorem Models.store (h : c.Models s m) (ha : a ∈ addr.gamma c.sp0) (hw : w ∈ v.gamma c.sp0) {type : Word} {y : ℕ}
    (hsize : typeSize type = some n) (hword : IsInteger type → y = w.toNat) (hfits : c.StoreFits s addr v type) :
    c.Models (s.set addr v) { m with mem := m.mem.store c.order a n y } := by
  obtain ⟨hkeep, hfits⟩ := hfits
  obtain ⟨hcells, himages⟩ := hfits n hsize
  have hn := typeSize_isSize hsize
  have hcontent : ∀ {b k}, IsSize k → ¬ c.Touches addr n b k →
      c.content { m with mem := m.mem.store c.order a n y } b k = c.content m b k := by
    intro b k hk htouch
    refine content_congr hk fun z hz => Bytes.Memory.store_of_not_within fun hin => ?_
    exact htouch ⟨a, ha, z, hin, hz⟩
  have hreg : ∀ {r : Word}, 0 ≤ r.toInt → Value.reg r ≠ addr := by
    rintro r hr rfl
    rw [gamma_reg hr] at ha
    exact ha
  refine ⟨?_, ?_, ?_, ?_⟩
  · rw [first_set]
    exact h.full
  · intro r hr
    rw [get_reg hr, first_set]
    cases hbound : (s.set addr v).binding (.reg r) with
    | none =>
      rw [Option.getD_none, h.full]
      exact mem_gamma_top
    | some v' =>
      have hmem := h.regs r hr
      rw [get_of_binding (binding_of_set_ne h.full (hreg hr) hbound)] at hmem
      exact hmem
  · intro x v' b hv hb
    by_cases heq : x = addr
    case pos =>
      subst heq
      obtain ⟨hx, hval, hkept⟩ := bound_of_set_self h.full hv
      subst hval
      have htype := hkeep (kind_of_mem ha hx) hkept
      obtain rfl : 4 = n := Option.some.inj ((typeSize_of_isWord htype).symm.trans hsize)
      rw [gamma_eq hx hb ha, hword (.inl htype), content_store hn (by have := w.isLt; omega)]
      exact hw
    case neg =>
      obtain ⟨hv, hrank⟩ := bound_of_set_ne h.full heq hv
      rw [hcontent ⟨by decide, by decide⟩ (hcells x b (by rw [hv]; exact Option.some_ne_none v') heq hrank hb)]
      exact h.cells x v' b hv hb
  · intro x k hnone himage
    have hk : IsSize k := by
      obtain ⟨-, -, rfl | rfl | rfl⟩ := himage <;> exact ⟨by decide, by decide⟩
    -- the store itself writes a byte of what it drops
    have htouch : x.val ∈ addr.gamma c.sp0 → c.Touches addr n x.val k := fun hb =>
      ⟨x.val, hb, x.val, Bytes.within_self hn.1, Bytes.within_self hk.1⟩
    by_cases hall : addr.kind = .all
    case pos =>
      refine absurd (htouch ?_) (himages x k himage (.inr (.inr hall)))
      rw [gamma_all hall]
      exact Set.mem_univ _
    case neg =>
      rw [binding_set (not_bot h.full) hall] at hnone
      split at hnone
      case isTrue heq =>
        subst heq
        refine absurd (htouch ?_) (himages x k himage (.inr (.inl ⟨rfl, kept_eq_none.mp hnone⟩)))
        rw [gamma_cst himage.1]
        exact rfl
      case isFalse hne =>
        rw [hcontent hk (himages x k himage (.inl ⟨hnone, hne⟩))]
        exact h.image x k hnone himage

/-- The low bytes of a word, with their sign, are the word when it is small. -/
theorem signExtend_setWidth {y : Word} {u : ℕ} (hlt : y.toNat < 2 ^ u) :
    (y.setWidth (u + 1)).signExtend 32 = y := by
  have hmod : y.toNat % 2 ^ (u + 1) = y.toNat :=
    Nat.mod_eq_of_lt (hlt.trans (Nat.pow_lt_pow_succ (by decide)))
  have hmsb : (y.setWidth (u + 1)).msb = false := by
    rw [BitVec.msb_eq_false_iff_two_mul_lt, BitVec.toNat_setWidth, hmod, Nat.pow_succ]
    omega
  rw [BitVec.signExtend_eq_setWidth_of_msb_false hmsb]
  apply BitVec.eq_of_toNat_eq
  rw [BitVec.toNat_setWidth, BitVec.toNat_setWidth, hmod, Nat.mod_eq_of_lt y.isLt]

theorem Models.load (h : c.Models s m) (ha : a ∈ addr.gamma c.sp0) {type : Word}
    (hfits : c.LoadFits s addr type) (hw : ∀ y ∈ c.loaded m a type, w = y) :
    w ∈ (s.get c.proc addr type.toNat).gamma c.sp0 := by
  obtain ⟨hcell, himage⟩ := hfits
  cases hbound : s.binding addr with
  | some v =>
    have htype := hcell (by rw [hbound]; exact Option.some_ne_none v)
    rw [get_of_binding hbound, hw (c.content m a 4) (by rw [loaded, if_pos htype]; rfl)]
    exact h.cells addr v a hbound ha
  | none =>
    by_cases hfrom : c.FromImage addr type.toNat
    case neg =>
      rw [get_of_not_image hbound hfrom, h.full]
      exact mem_gamma_top
    case pos =>
      have hval : a = addr.val := by
        rw [gamma_cst hfrom.1] at ha
        exact ha
      have hcontent := h.image addr _ hbound hfrom
      rw [get_of_image hbound hfrom]
      refine (mem_gamma_const (show Value.spPage < 0 by decide)).mpr ?_
      obtain ⟨rfl, hlt⟩ | ⟨rfl, hlt⟩ := himage hbound hfrom
      · refine (hw _ rfl).trans ?_
        have hsmall : (c.content m a 1).toNat < 2 ^ 7 := by
          rw [hval, show c.content m addr.val 1 = c.proc.get addr.val 1 from hcontent]
          exact hlt
        rw [signExtend_setWidth hsmall, hval]
        exact hcontent
      · refine (hw _ rfl).trans ?_
        have hsmall : (c.content m a 2).toNat < 2 ^ 15 := by
          rw [hval, show c.content m addr.val 2 = c.proc.get addr.val 2 from hcontent]
          exact hlt
        rw [signExtend_setWidth hsmall, hval]
        exact hcontent

theorem Covers.mono (h : c.Covers L p m) (hless : ∀ k, L' k → L k) : c.Covers L' p m :=
  ⟨h.models, fun r k hr hk => h.temps r k hr (hless k hk)⟩

/-- Where an instruction has a destination, it puts a word there. -/
theorem steps_of_writes (hwrites : writes i = some d) (hsteps : c.Steps i m m') :
    ∃ w, (∀ y ∈ c.result i m, w = y) ∧ m' = { m with regs := Function.update m.regs d w } := by
  unfold Steps at hsteps
  unfold writes at hwrites
  cases hcode : i.op <;> simp only [hcode, Option.some.injEq, reduceCtorEq] at hsteps hwrites <;> subst hwrites <;>
    exact hsteps

theorem same_of_not_writes (hwrites : writes i = none) (hcode : i.op ≠ .store) (hsteps : c.Steps i m m') :
    m' = m := by
  unfold Steps at hsteps
  unfold writes at hwrites
  cases hop : i.op <;> simp only [hop, reduceCtorEq] at hsteps hwrites
  case store => exact absurd hop hcode
  all_goals exact hsteps

/-- The value of the destination has the word put there. -/
theorem value_covers (hmem : ∀ r v, r ∈ reads i → StackProblem.get c.proc p r = some v → m.regs r ∈ v.gamma c.sp0)
    (h : c.Models p.1 m) (hfits : Fits c i p) (hvalue : value c.proc i p = some v) (hw : ∀ y ∈ c.result i m, w = y) :
    w ∈ v.gamma c.sp0 := by
  cases hunary : unaryOp i.op with
  | some op =>
    rw [value_unary hunary] at hvalue
    obtain ⟨v, hv, rfl⟩ := Option.map_eq_some_iff.mp hvalue
    have ha := hmem i.a v (by rw [reads_unary hunary]; exact List.mem_singleton_self _) hv
    exact unaryOp_covers hunary ha hw
  | none =>
    cases hbinary : binaryOp i.op with
    | some op =>
      rw [value_binary hunary hbinary] at hvalue
      obtain ⟨x, hx, hvalue⟩ := Option.bind_eq_some_iff.mp hvalue
      obtain ⟨y, hy, hop⟩ := Option.bind_eq_some_iff.mp hvalue
      have ha := hmem i.a x (a_mem_reads hbinary) hx
      have hb := hmem i.b y (b_mem_reads hbinary) hy
      obtain ⟨r, hr, hcovers⟩ := binaryOp_covers (c := c) hbinary (hfits.const x y hx hy)
      rw [hop] at hr
      cases hr
      exact hcovers m w ha hb hw
    | none =>
      rw [value, hunary, hbinary] at hvalue
      simp only at hvalue
      split at hvalue
      case h_1 hcode =>
        obtain ⟨addr, haddr, rfl⟩ := Option.map_eq_some_iff.mp hvalue
        have ha := hmem i.a addr (by rw [reads, hcode]; exact List.mem_singleton_self _) haddr
        refine h.load ha (hfits.load hcode addr haddr) fun y hy => hw y ?_
        rw [result, hcode]
        exact hy
      case h_2 hcode =>
        cases hvalue
        rw [hw i.cst (by rw [result, hcode]; simp only [Inst.result, hcode]; rfl)]
        exact const_mem (by decide) _
      case h_3 hcode =>
        obtain ⟨x, hx, rfl⟩ := Option.map_eq_some_iff.mp hvalue
        have hd := hmem i.d x (by rw [reads, hcode]; exact List.mem_singleton_self _) hx
        rw [hw (m.regs i.d) (by rw [result, hcode]; rfl)]
        split
        case isTrue hconst =>
          rw [(mem_gamma_const hconst).mp hd, hfits.page hcode x hx hconst]
          exact const_mem (by decide) _
        case isFalse => exact mem_gamma_top
      case h_4 =>
        cases hvalue
        exact mem_gamma_top

/-- The operators give a value. -/
theorem exists_value (hfits : Fits c i p) : ∃ v, value c.proc i p = some v := by
  have room : ∀ {r}, r ∈ reads i → ∃ v, StackProblem.get c.proc p r = some v :=
    fun hr => exists_get (hfits.reads _ hr)
  cases hunary : unaryOp i.op with
  | some op =>
    obtain ⟨v, hv⟩ := room (by rw [reads_unary hunary]; exact List.mem_singleton_self _)
    exact ⟨op v, by rw [value_unary hunary, hv, Option.map_some]⟩
  | none =>
    cases hbinary : binaryOp i.op with
    | some op =>
      obtain ⟨v, hv⟩ := room (a_mem_reads hbinary)
      obtain ⟨w, hw⟩ := room (b_mem_reads hbinary)
      obtain ⟨r, hr, -⟩ := binaryOp_covers (c := c) hbinary (hfits.const v w hv hw)
      exact ⟨r, by rw [value_binary hunary hbinary, hv, Option.bind_some, hw, Option.bind_some, hr]⟩
    | none =>
      rw [value, hunary, hbinary]
      simp only
      split
      case h_1 hcode =>
        obtain ⟨addr, haddr⟩ := room (by rw [reads, hcode]; exact List.mem_singleton_self _)
        exact ⟨_, by rw [haddr, Option.map_some]⟩
      case h_2 => exact ⟨_, rfl⟩
      case h_3 hcode =>
        obtain ⟨v, hv⟩ := room (by rw [reads, hcode]; exact List.mem_singleton_self _)
        exact ⟨_, by rw [hv, Option.map_some]⟩
      case h_4 => exact ⟨_, rfl⟩

/-- One instruction keeps the machines covered, with the temporaries that count after it. -/
theorem update_covers (h : c.Covers L p m) (hreads : ∀ k, Reads i k → L k)
    (hlive : ∀ k, L' k → L k ∨ Writes i k) (hfits : Fits c i p) (hsteps : c.Steps i m m')
    (hupdate : update c.proc i p = some p') : c.Covers L' p' m' := by
  have hmem : ∀ r v, r ∈ reads i → StackProblem.get c.proc p r = some v → m.regs r ∈ v.gamma c.sp0 :=
    fun r v hr hget => mem_get h (fun k hk => hreads k ⟨r, hr, hk⟩) hget
  cases hwrites : writes i with
  | some d =>
    rw [update_of_writes hwrites] at hupdate
    obtain ⟨v, hvalue, hset⟩ := Option.bind_eq_some_iff.mp hupdate
    obtain ⟨w, hw, rfl⟩ := steps_of_writes hwrites hsteps
    refine h.set (fun k hk => (hlive k hk).imp_right ?_) hset (value_covers hmem h.models hfits hvalue hw)
    rintro ⟨r, hr, htemp⟩
    rw [hwrites] at hr
    cases hr
    exact htemp
  | none =>
    have hkeep : ∀ k, L' k → L k := fun k hk => (hlive k hk).resolve_right (not_writes hwrites k)
    rw [update_of_not_writes hwrites] at hupdate
    split at hupdate
    case isTrue hcode =>
      obtain ⟨addr, haddr, hupdate⟩ := Option.bind_eq_some_iff.mp hupdate
      obtain ⟨v, hv, rfl⟩ := Option.map_eq_some_iff.mp hupdate
      unfold Steps at hsteps
      rw [hcode] at hsteps
      obtain ⟨n, y, hsize, hword, rfl⟩ := hsteps
      have ha := hmem i.a addr (reads_store hcode).1 haddr
      have hw := hmem i.d v (reads_store hcode).2 hv
      exact ⟨h.models.store ha hw hsize hword (hfits.store hcode addr v haddr hv),
        fun r k hr hk => h.temps r k hr (hkeep k hk)⟩
    case isFalse hcode =>
      cases hupdate
      rw [same_of_not_writes hwrites hcode hsteps]
      exact h.mono hkeep

/-- No operation fails. -/
theorem exists_update (hfits : Fits c i p) : ∃ p', update c.proc i p = some p' := by
  cases hwrites : writes i with
  | some d =>
    obtain ⟨v, hv⟩ := exists_value hfits
    rw [update_of_writes hwrites, hv, Option.bind_some]
    exact exists_set (hfits.writes d hwrites) v
  | none =>
    rw [update_of_not_writes hwrites]
    split
    case isTrue hcode =>
      obtain ⟨addr, haddr⟩ := @exists_get c.proc p _ (hfits.reads _ (reads_store hcode).1)
      obtain ⟨v, hv⟩ := @exists_get c.proc p _ (hfits.reads _ (reads_store hcode).2)
      rw [haddr, hv]
      exact ⟨_, rfl⟩
    case isFalse => exact ⟨p, rfl⟩

end Platform

end Otawa.Stack
