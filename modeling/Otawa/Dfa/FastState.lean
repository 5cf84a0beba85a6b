import Otawa.Lib.Cells
import Mathlib.Algebra.Group.Nat.Defs
import Mathlib.Order.Fin.Basic

/-!
# States of registers and memory with sharing

`FastState` gives a state for each operation and never changes one: registers are in blocks of eight, the memory is
a sorted list of cells, and what an operation does not touch is shared. Comparisons of pointers find some of what
is shared; `Shared` says which, and the results do not depend on it.

A reference map has a value for each register and each address. The states and the maps are given by the same
terms, and `refines_of_fits` says where they agree: `make` gives the top state the registers of the bottom one, a
store to the bottom state or a set of one of its registers gives a state that is not bottom anywhere else, and the
join keeps a cell whose values join to the top value.
-/

namespace Otawa.FastState

open Cells

abbrev Address := Fin (2 ^ 32)

/-- The number of blocks of registers. -/
def nrblock (regCount : ℕ) : ℕ := (regCount + 7) / 8

/-- `state_t`. -/
structure Contents (n : ℕ) (V : Type) where
  regs : Fin n → Fin 8 → V
  mem : List (Address × V)
  sorted : Sorted mem

/-- A pointer to a state: one of the two that the manager has made, or another one. -/
inductive T (n : ℕ) (V : Type) where
  | bot
  | top
  | made (c : Contents n V)

/-- The values of all registers and addresses. -/
structure Map (V : Type) where
  reg : ℕ → V
  mem : Address → V

/-- What comparisons of pointers find to be the same. -/
structure Shared (n : ℕ) (V : Type) where
  states : Bool
  regs : Bool
  block : Fin n → Bool
  nodes : List (Address × V) → List (Address × V) → Bool

section Operations

variable {n : ℕ} {V : Type}

/-- Two pointers to states are the same. -/
def Shared.same (o : Shared n V) : T n V → T n V → Bool
  | .bot, .bot => true
  | .top, .top => true
  | .made _, .made _ => o.states
  | _, _ => false

def equalsMem [DecidableEq V] (o : Shared n V) : List (Address × V) → List (Address × V) → Bool
  | l, l' =>
    o.nodes l l' ||
      match l, l' with
      | [], [] => true
      | c :: l, c' :: l' => c.1 = c'.1 && c.2 = c'.2 && equalsMem o l l'
      | _, _ => false

variable [SemilatticeSup V]

def joinRegs (o : Shared n V) (c c' : Contents n V) : Fin n → Fin 8 → V :=
  if o.regs then c.regs
  else fun i => if o.block i then c.regs i else fun j => c.regs i j ⊔ c'.regs i j

/-- The loop of `join` over the two memories, up to a node that they share. -/
def joinMem (o : Shared n V) : List (Address × V) → List (Address × V) → List (Address × V)
  | l, l' =>
    if o.nodes l l' then l
    else
      match l, l' with
      | [], _ => []
      | _ :: _, [] => []
      | c :: l, c' :: l' =>
        if c.1 = c'.1 then (c.1, c.2 ⊔ c'.2) :: joinMem o l l'
        else if c.1 < c'.1 then joinMem o l (c' :: l')
        else joinMem o (c :: l) l'
termination_by l l' => l.length + l'.length

variable [BoundedOrder V]

/-- The argument, whether it is to be a bottom state, is not looked at. -/
def make (_bot : Bool) : Contents n V :=
  ⟨fun _ _ => ⊥, [], List.Pairwise.nil⟩

/-- What a pointer points to. -/
def T.contents : T n V → Contents n V
  | .bot => make true
  | .top => make false
  | .made c => c

def get (s : T n V) (r : ℕ) : Option V :=
  if h : r < n * 8 then
    some (s.contents.regs ⟨r / 8, Nat.div_lt_of_lt_mul (Nat.mul_comm n 8 ▸ h)⟩ ⟨r % 8, Nat.mod_lt r (by decide)⟩)
  else none

def set (s : T n V) (r : ℕ) (v : V) : Option (T n V) :=
  if r < n * 8 then
    some (.made { s.contents with regs := fun i j => if i.val = r / 8 ∧ j.val = r % 8 then v else s.contents.regs i j })
  else none

variable [DecidableEq V]

/-- The cell of a value, which the top value does not get. -/
def cell (v : V) : Option V :=
  if v = ⊤ then none else some v

def store (s : T n V) (a : Address) (v : V) : T n V :=
  .made { s.contents with mem := put a (cell v) s.contents.mem, sorted := sorted_put s.contents.sorted a (cell v) }

def load (s : T n V) (a : Address) : V :=
  match s with
  | .bot => ⊥
  | s =>
    match s.contents.mem.find? fun c => c.1 = a with
    | some c => c.2
    | none => ⊤

def equals (o : Shared n V) (s s' : T n V) : Bool :=
  o.same s s' ||
    (o.regs || decide (∀ i, o.block i ∨ ∀ j, s.contents.regs i j = s'.contents.regs i j)) &&
      equalsMem o s.contents.mem s'.contents.mem

end Operations

/-! ### Sharing -/

/-- Nothing of a state is changed, so what is at the same place is the same. -/
structure Shared.Sound {n : ℕ} {V : Type} (o : Shared n V) (c c' : Contents n V) : Prop where
  states : o.states = true → c = c'
  regs : o.regs = true → c.regs = c'.regs
  block : ∀ i, o.block i = true → c.regs i = c'.regs i
  nodes : ∀ l l', o.nodes l l' = true → l = l'

theorem equalsMem_iff {n : ℕ} {V : Type} [DecidableEq V] {o : Shared n V}
    (sound : ∀ l l', o.nodes l l' = true → l = l') (l l' : List (Address × V)) :
    equalsMem o l l' = true ↔ l = l' := by
  induction l generalizing l' with
  | nil =>
    cases l' with
    | nil => simp [equalsMem]
    | cons c' l' => simpa [equalsMem] using sound [] (c' :: l')
  | cons c l ih =>
    cases l' with
    | nil => simpa [equalsMem] using sound (c :: l) []
    | cons c' l' =>
      rw [equalsMem]
      simp only [Bool.or_eq_true, Bool.and_eq_true, decide_eq_true_eq, ih, List.cons.injEq, Prod.ext_iff]
      constructor
      · rintro (shared | same)
        · simpa [Prod.ext_iff] using sound _ _ shared
        · exact same
      · exact .inr

theorem merge_self {V : Type} [SemilatticeSup V] {l : List (Address × V)} :
    merge (fun v v' => some (v ⊔ v')) l l = l := by
  induction l with
  | nil => rw [merge]
  | cons c l ih =>
    rw [merge, if_neg (lt_irrefl _), if_pos rfl]
    simp only [sup_idem, ih]

section Sharing

variable {n : ℕ} {V : Type} [SemilatticeSup V] {o : Shared n V} {c c' : Contents n V}

/-- The shared part is its own join. -/
theorem joinMem_eq (sound : ∀ l l', o.nodes l l' = true → l = l') (l l' : List (Address × V)) :
    joinMem o l l' = merge (fun v v' => some (v ⊔ v')) l l' := by
  fun_induction joinMem o l l' with
  | case1 l l' shared =>
    rw [← sound l l' shared, merge_self]
  | case2 l' => rw [merge]
  | case3 c l => rw [merge]
  | case4 c l c' l' eq _ ih =>
    rw [merge, if_neg (by rw [eq]; exact lt_irrefl _), if_pos eq, ih]
  | case5 c l c' l' ne lt _ ih =>
    rw [merge, if_pos lt, ih]
  | case6 c l c' l' ne le _ ih =>
    rw [merge, if_neg le, if_neg ne, ih]

theorem joinRegs_eq (sound : o.Sound c c') (i : Fin n) (j : Fin 8) :
    joinRegs o c c' i j = c.regs i j ⊔ c'.regs i j := by
  unfold joinRegs
  split
  case isTrue shared => rw [sound.regs shared, sup_idem]
  case isFalse =>
    dsimp only
    by_cases shared : o.block i = true
    · rw [if_pos shared, sound.block i shared, sup_idem]
    · rw [if_neg shared]

end Sharing

theorem key_of_mem_joinMem {n : ℕ} {V : Type} [SemilatticeSup V] {o : Shared n V} {l l' : List (Address × V)}
    {c : Address × V} (mem : c ∈ joinMem o l l') : ∃ v, (c.1, v) ∈ l := by
  fun_induction joinMem o l l' with
  | case1 l l' _ => exact ⟨c.2, mem⟩
  | case2 l' => exact absurd mem List.not_mem_nil
  | case3 c' l => exact absurd mem List.not_mem_nil
  | case4 c₁ l c' l' _ _ ih =>
    rcases List.mem_cons.mp mem with rfl | mem
    · exact ⟨c₁.2, List.mem_cons_self⟩
    · exact (ih mem).imp fun _ => List.mem_cons_of_mem _
  | case5 c₁ l c' l' _ _ _ ih => exact (ih mem).imp fun _ => List.mem_cons_of_mem _
  | case6 c₁ l c' l' _ _ _ ih => exact ih mem

theorem sorted_joinMem {n : ℕ} {V : Type} [SemilatticeSup V] {o : Shared n V} {l l' : List (Address × V)}
    (sorted : Sorted l) : Sorted (joinMem o l l') := by
  fun_induction joinMem o l l' with
  | case1 => exact sorted
  | case2 => exact List.Pairwise.nil
  | case3 => exact List.Pairwise.nil
  | case4 c l c' l' _ _ ih =>
    obtain ⟨above, sorted⟩ := List.pairwise_cons.mp sorted
    refine List.pairwise_cons.mpr ⟨fun x mem => ?_, ih sorted⟩
    obtain ⟨v, mem⟩ := key_of_mem_joinMem mem
    exact above (x.1, v) mem
  | case5 c l c' l' _ _ _ ih => exact ih (List.pairwise_cons.mp sorted).2
  | case6 c l c' l' _ _ _ ih => exact ih sorted

/-! ### Sequences of operations -/

section Terms

variable {n : ℕ} {V : Type} [SemilatticeSup V]

def join (o : Shared n V) (s s' : T n V) : T n V :=
  if o.same s s' then s
  else
    match s, s' with
    | .top, _ | _, .top => .top
    | .bot, s' => s'
    | s, .bot => s
    | .made c, .made c' => .made ⟨joinRegs o c c', joinMem o c.mem c'.mem, sorted_joinMem c.sorted⟩

/-- The sequences of operations that give states, each as the term of its last state. A join comes with what it
finds to be shared. -/
inductive Term (n : ℕ) (V : Type) where
  | bot
  | top
  | set (t : Term n V) (r : ℕ) (v : V)
  | store (t : Term n V) (a : Address) (v : V)
  | join (o : Shared n V) (t t' : Term n V)

namespace Term

variable [BoundedOrder V] [DecidableEq V]

/-- The state, where no register is out of bounds. -/
def eval : Term n V → Option (T n V)
  | bot => some .bot
  | top => some .top
  | set t r v => t.eval.bind fun s => FastState.set s r v
  | store t a v => t.eval.map fun s => FastState.store s a v
  | join o t t' => t.eval.bind fun s => t'.eval.map fun s' => FastState.join o s s'

/-- The reference map. -/
def ref : Term n V → Map V
  | bot => ⟨fun _ => ⊥, fun _ => ⊥⟩
  | top => ⟨fun _ => ⊤, fun _ => ⊤⟩
  | set t r v => { t.ref with reg := Function.update t.ref.reg r v }
  | store t a v => { t.ref with mem := Function.update t.ref.mem a v }
  | join _ t t' => ⟨fun r => t.ref.reg r ⊔ t'.ref.reg r, fun a => t.ref.mem a ⊔ t'.ref.mem a⟩

/-- The registers are those of the processor, and the joins find nothing to be shared that is not the same. -/
def Possible (regCount : ℕ) : Term n V → Prop
  | bot | top => True
  | set t r _ => t.Possible regCount ∧ r < regCount
  | store t _ _ => t.Possible regCount
  | join o t t' => t.Possible regCount ∧ t'.Possible regCount ∧
      ∀ s s', t.eval = some s → t'.eval = some s' → o.Sound s.contents s'.contents

/-- No register or address of the bottom state is written. -/
def Fits : Term n V → Prop
  | bot | top => True
  | set t _ _ | store t _ _ => t.Fits ∧ t.eval ≠ some .bot
  | join _ t t' => t.Fits ∧ t'.Fits

/-- The register has been set on all ways from the top state. -/
def Sets : Term n V → ℕ → Prop
  | bot, _ => True
  | top, _ => False
  | set t r _, r' => r' = r ∨ t.Sets r'
  | store t _ _, r' => t.Sets r'
  | join _ t t', r' => t.Sets r' ∧ t'.Sets r'

/-- No two cells have been joined to the top value. -/
def NoTop : Term n V → Prop
  | bot | top => True
  | set t _ _ | store t _ _ => t.NoTop
  | join _ t t' => t.NoTop ∧ t'.NoTop ∧ ∀ c c', t.eval = some (.made c) → t'.eval = some (.made c') →
      ∀ a v v', find a c.mem = some v → find a c'.mem = some v' → v ⊔ v' ≠ ⊤

end Term

/-- Two states that are not the same pointer are joined by pointer where one is top or bottom. -/
theorem join_cases (o : Shared n V) (s s' : T n V) :
    (o.same s s' = true ∧ join o s s' = s) ∨ (s = .top ∨ s' = .top) ∧ join o s s' = .top ∨
      s = .bot ∧ join o s s' = s' ∨ s' = .bot ∧ join o s s' = s ∨
      ∃ c c', s = .made c ∧ s' = .made c' ∧
        join o s s' = .made ⟨joinRegs o c c', joinMem o c.mem c'.mem, sorted_joinMem c.sorted⟩ := by
  unfold join
  by_cases same : o.same s s' = true
  · exact .inl ⟨same, if_pos same⟩
  · rw [if_neg same]
    cases s <;> cases s' <;> simp

theorem Shared.Sound.same_eq [BoundedOrder V] {o : Shared n V} {s s' : T n V}
    (sound : o.Sound s.contents s'.contents) (same : o.same s s' = true) : s = s' := by
  cases s <;> cases s' <;> first | rfl | cases same | exact congrArg T.made (sound.states same)

/-- The maps have the same registers of the processor and the same memory. -/
def Map.Same (regCount : ℕ) (m m' : Map V) : Prop :=
  (∀ r < regCount, m.reg r = m'.reg r) ∧ ∀ a, m.mem a = m'.mem a

end Terms

/-! ### One operation -/

section Steps

variable {n : ℕ} {V : Type} [SemilatticeSup V] [BoundedOrder V] {s s' : T n V} {c c' : Contents n V} {r r' : ℕ}

theorem get_of_lt (lt : r < n * 8) : get s r =
    some (s.contents.regs ⟨r / 8, Nat.div_lt_of_lt_mul (Nat.mul_comm n 8 ▸ lt)⟩ ⟨r % 8, Nat.mod_lt r (by decide)⟩) :=
  dif_pos lt

theorem lt_of_get {v : V} (found : get s r = some v) : r < n * 8 := by
  unfold get at found
  split at found
  case isTrue lt => exact lt
  case isFalse => cases found

theorem get_set {v : V} (lt : r < n * 8) (lt' : r' < n * 8) :
    ∃ u, set s r v = some (.made u) ∧ u.mem = s.contents.mem ∧
      get (.made u) r' = if r' = r then some v else get s r' := by
  refine ⟨_, if_pos lt, rfl, ?_⟩
  rw [get_of_lt lt', get_of_lt lt']
  by_cases eq : r' = r
  · subst eq
    simp [T.contents]
  · have other : ¬ (r' / 8 = r / 8 ∧ r' % 8 = r % 8) := by omega
    rw [if_neg eq]
    simp only [T.contents, if_neg other]

/-- A load finds the cell of the address, and the top value without one. -/
theorem load_made (a : Address) : load (.made c) a = (find a c.mem).getD ⊤ := by
  have scan : ∀ l : List (Address × V), Sorted l →
      (l.find? fun c => c.1 = a) = (find a l).map fun v => (a, v) := by
    intro l sorted
    induction l with
    | nil => rfl
    | cons c l ih =>
      obtain ⟨above, sorted⟩ := List.pairwise_cons.mp sorted
      rw [find_cons c l above]
      by_cases eq : c.1 = a
      · subst eq
        simp
      · rw [List.find?_cons_of_neg (by simpa using eq), if_neg (Ne.symm eq), ih sorted]
  unfold load
  simp only [T.contents, scan c.mem c.sorted]
  cases find a c.mem <;> rfl

theorem load_top (a : Address) : load (.top : T n V) a = ⊤ := rfl

theorem load_of_contents (reached : s ≠ .bot) (a : Address) : load s a = (find a s.contents.mem).getD ⊤ := by
  cases s with
  | bot => exact absurd rfl reached
  | top => rfl
  | made c => exact load_made a

theorem load_store [DecidableEq V] {v : V} (reached : s ≠ .bot) (a a' : Address) :
    load (store s a v) a' = if a' = a then v else load s a' := by
  unfold store
  rw [load_made, find_put s.contents.sorted, load_of_contents reached]
  split
  · unfold cell
    split
    case isTrue top => exact top.symm
    case isFalse => rfl
  · rfl

end Steps

/-! ### All operations -/

section Runs

variable {regCount : ℕ} {V : Type} [SemilatticeSup V] [BoundedOrder V]
variable {t t' : Term (nrblock regCount) V} {s s' : T (nrblock regCount) V}

theorem lt_nrblock {r : ℕ} (lt : r < regCount) : r < nrblock regCount * 8 := by
  unfold nrblock
  omega

/-- What a state has of its reference map. -/
structure Represents (t : Term (nrblock regCount) V) (s : T (nrblock regCount) V) : Prop where
  mem : ∀ a, load s a = t.ref.mem a
  reg : ∀ r < regCount, t.Sets r → get s r = some (t.ref.reg r)
  rest : ∀ r v, regCount ≤ r → get s r = some v → v = ⊥
  bot : s = .bot → ∀ r, t.ref.reg r = ⊥
  top : s = .top → ∀ r, ¬ t.Sets r

@[simp] theorem ref_set (t : Term (nrblock regCount) V) (r : ℕ) (v : V) :
    (t.set r v).ref = { t.ref with reg := Function.update t.ref.reg r v } := rfl

@[simp] theorem ref_store (t : Term (nrblock regCount) V) (a : Address) (v : V) :
    (t.store a v).ref = { t.ref with mem := Function.update t.ref.mem a v } := rfl

@[simp] theorem ref_join (o : Shared (nrblock regCount) V) (t t' : Term (nrblock regCount) V) : (t.join o t').ref =
    ⟨fun r => t.ref.reg r ⊔ t'.ref.reg r, fun a => t.ref.mem a ⊔ t'.ref.mem a⟩ := rfl

/-- The registers of the states that `make` makes. -/
theorem get_of_make {r : ℕ} {v : V} (basic : s.contents = make true) (found : get s r = some v) : v = ⊥ := by
  rw [get_of_lt (lt_of_get found), basic] at found
  exact (Option.some.inj found).symm

theorem represents_bot : Represents (.bot : Term (nrblock regCount) V) .bot :=
  ⟨fun _ => rfl, fun _ lt _ => get_of_lt (lt_nrblock lt), fun _ _ _ found => get_of_make rfl found, fun _ _ => rfl, nofun⟩

theorem represents_top : Represents (.top : Term (nrblock regCount) V) .top :=
  ⟨fun _ => rfl, fun _ _ sets => sets.elim, fun _ _ _ found => get_of_make rfl found, nofun, fun _ _ sets => sets⟩

theorem represents_set {r : ℕ} {v : V} (rep : Represents t s) (reached : s ≠ .bot) (lt : r < regCount) :
    ∃ u, set s r v = some u ∧ Represents (t.set r v) u := by
  obtain ⟨u, eq, mem, -⟩ := @get_set _ V _ _ s r r v (lt_nrblock lt) (lt_nrblock lt)
  have at_reg : ∀ r', r' < nrblock regCount * 8 → get (.made u) r' = if r' = r then some v else get s r' := by
    intro r' lt'
    obtain ⟨u', eq', -, found⟩ := @get_set _ V _ _ s r r' v (lt_nrblock lt) lt'
    rw [eq] at eq'
    cases eq'
    exact found
  refine ⟨.made u, eq, ?_, ?_, ?_, nofun, nofun⟩
  · intro a
    rw [load_made, mem, ← load_of_contents reached]
    exact rep.mem a
  · intro r' lt' sets
    rw [at_reg r' (lt_nrblock lt'), ref_set]
    by_cases at_r : r' = r
    · subst at_r
      simp only [Function.update_self, if_true]
    · simp only [Function.update_of_ne at_r, if_neg at_r]
      exact rep.reg r' lt' (sets.resolve_left at_r)
  · intro r' v' le found
    rw [at_reg r' (lt_of_get found), if_neg (by omega)] at found
    exact rep.rest r' v' le found

theorem represents_join {o : Shared (nrblock regCount) V} (rep : Represents t s) (rep' : Represents t' s')
    (sound : o.Sound s.contents s'.contents) : Represents (t.join o t') (join o s s') := by
  rcases join_cases o s s' with ⟨same, eq⟩ | ⟨top, eq⟩ | ⟨rfl, eq⟩ | ⟨rfl, eq⟩ | ⟨c, c', rfl, rfl, eq⟩
  · -- The same state twice.
    have := sound.same_eq same
    subst this
    rw [eq]
    refine ⟨fun a => ?_, fun r lt sets => ?_, rep.rest, fun bot r => ?_, fun top r sets => rep.top top r sets.1⟩
    · simp only [ref_join, ← rep.mem, ← rep'.mem, sup_idem]
    · have found := rep.reg r lt sets.1
      have found' := rep'.reg r lt sets.2
      rw [found] at found'
      simp only [ref_join, found, ← Option.some.inj found', sup_idem]
    · simp only [ref_join, rep.bot bot r, rep'.bot bot r, sup_idem]
  · -- One of the states is the top one.
    rw [eq]
    have unset : ∀ r, ¬ (t.join o t').Sets r := fun r sets =>
      top.elim (fun top => rep.top top r sets.1) fun top => rep'.top top r sets.2
    refine ⟨fun a => ?_, fun r _ sets => absurd sets (unset r), fun r v _ found => get_of_make rfl found, nofun,
      fun _ => unset⟩
    rw [ref_join, load_top]
    show ⊤ = t.ref.mem a ⊔ t'.ref.mem a
    rw [← rep.mem, ← rep'.mem]
    rcases top with rfl | rfl
    · rw [load_top, top_sup_eq]
    · rw [load_top, sup_top_eq]
  · -- The bottom state is neutral.
    rw [eq]
    refine ⟨fun a => ?_, fun r lt sets => ?_, rep'.rest, fun bot r => ?_, fun top r sets => rep'.top top r sets.2⟩
    · have none : t.ref.mem a = ⊥ := (rep.mem a).symm
      simp only [ref_join, none, bot_sup_eq, rep'.mem]
    · simp only [ref_join, rep.bot rfl r, bot_sup_eq, rep'.reg r lt sets.2]
    · simp only [ref_join, rep.bot rfl r, rep'.bot bot r, sup_idem]
  · rw [eq]
    refine ⟨fun a => ?_, fun r lt sets => ?_, rep.rest, fun bot r => ?_, fun top r sets => rep.top top r sets.1⟩
    · have none : t'.ref.mem a = ⊥ := (rep'.mem a).symm
      simp only [ref_join, none, sup_bot_eq, rep.mem]
    · simp only [ref_join, rep'.bot rfl r, sup_bot_eq, rep.reg r lt sets.1]
    · simp only [ref_join, rep'.bot rfl r, rep.bot bot r, sup_idem]
  · rw [eq]
    have at_reg : ∀ r (lt : r < nrblock regCount * 8), ∃ v v', get (.made c) r = some v ∧ get (.made c') r = some v' ∧
        get (.made ⟨joinRegs o c c', joinMem o c.mem c'.mem, sorted_joinMem c.sorted⟩) r = some (v ⊔ v') := by
      intro r lt
      refine ⟨_, _, get_of_lt lt, get_of_lt lt, ?_⟩
      rw [get_of_lt lt]
      exact congrArg some (joinRegs_eq sound _ _)
    refine ⟨fun a => ?_, fun r lt sets => ?_, fun r v le found => ?_, nofun, nofun⟩
    · simp only [ref_join, ← rep.mem, ← rep'.mem]
      rw [load_made, load_made, load_made]
      show (find a (joinMem o c.mem c'.mem)).getD ⊤ = _
      rw [joinMem_eq sound.nodes, find_merge c.sorted c'.sorted]
      cases find a c.mem with
      | none => exact (top_sup_eq _).symm
      | some v =>
        cases find a c'.mem with
        | none => exact (sup_top_eq _).symm
        | some v' => rfl
    · obtain ⟨v, v', found, found', joined⟩ := at_reg r (lt_nrblock lt)
      rw [rep.reg r lt sets.1] at found
      rw [rep'.reg r lt sets.2] at found'
      rw [joined, ref_join, ← Option.some.inj found, ← Option.some.inj found']
    · obtain ⟨v₁, v₂, found₁, found₂, joined⟩ := at_reg r (lt_of_get found)
      rw [joined] at found
      rw [← Option.some.inj found, rep.rest r v₁ le found₁, rep'.rest r v₂ le found₂, sup_idem]

variable [DecidableEq V]

theorem represents_store {a : Address} {v : V} (rep : Represents t s) (reached : s ≠ .bot) :
    Represents (t.store a v) (store s a v) := by
  refine ⟨fun a' => ?_, fun r lt sets => ?_, fun r v' le found => ?_, nofun, nofun⟩
  · rw [load_store reached, ref_store]
    by_cases eq : a' = a
    · subst eq
      simp only [Function.update_self, if_true]
    · simp only [Function.update_of_ne eq, if_neg eq]
      exact rep.mem a'
  · exact rep.reg r lt sets
  · exact rep.rest r v' le found

/-- Where the writes fit, the terms give states that represent their maps. -/
theorem represents_of_fits (possible : t.Possible regCount) (fits : t.Fits) : ∃ s, t.eval = some s ∧ Represents t s := by
  induction t with
  | bot => exact ⟨.bot, rfl, represents_bot⟩
  | top => exact ⟨.top, rfl, represents_top⟩
  | set t r v ih =>
    obtain ⟨s, eq, rep⟩ := ih possible.1 fits.1
    have reached : s ≠ .bot := fun bot => fits.2 (bot ▸ eq)
    obtain ⟨u, eq', rep'⟩ := represents_set (v := v) rep reached possible.2
    exact ⟨u, by rw [Term.eval, eq]; exact eq', rep'⟩
  | store t a v ih =>
    obtain ⟨s, eq, rep⟩ := ih possible fits.1
    have reached : s ≠ .bot := fun bot => fits.2 (bot ▸ eq)
    exact ⟨store s a v, by rw [Term.eval, eq]; rfl, represents_store rep reached⟩
  | join o t t' ih ih' =>
    obtain ⟨s, eq, rep⟩ := ih possible.1 fits.1
    obtain ⟨s', eq', rep'⟩ := ih' possible.2.1 fits.2
    exact ⟨join o s s', by rw [Term.eval, eq, eq']; rfl, represents_join rep rep' (possible.2.2 s s' eq eq')⟩

/-- Two states are equal when their registers and their cells are, whatever is shared. -/
theorem equals_eq_true_iff {o : Shared (nrblock regCount) V} (sound : o.Sound s.contents s'.contents) :
    equals o s s' = true ↔ s.contents.regs = s'.contents.regs ∧ s.contents.mem = s'.contents.mem := by
  unfold equals
  rw [Bool.or_eq_true, Bool.and_eq_true, equalsMem_iff sound.nodes, Bool.or_eq_true, decide_eq_true_eq]
  constructor
  · rintro (same | ⟨regs, mem⟩)
    · have := sound.same_eq same
      subst this
      exact ⟨rfl, rfl⟩
    · refine ⟨regs.elim sound.regs fun blocks => funext fun i => ?_, mem⟩
      exact (blocks i).elim (sound.block i) funext
  · rintro ⟨regs, mem⟩
    exact .inr ⟨.inr fun i => .inr fun j => by rw [regs], mem⟩

/-- A state has no cell of the top value. -/
theorem ne_top_of_noTop (possible : t.Possible regCount) (noTop : t.NoTop) (eq : t.eval = some s) (a : Address) (v : V)
    (found : find a s.contents.mem = some v) : v ≠ ⊤ := by
  induction t generalizing s with
  | bot =>
    cases eq
    cases found
  | top =>
    cases eq
    cases found
  | set t r w ih =>
    obtain ⟨s₁, eq₁, eq⟩ := Option.bind_eq_some_iff.mp eq
    obtain ⟨u, eq', mem, -⟩ := @get_set _ V _ _ s₁ r r w (lt_nrblock possible.2) (lt_nrblock possible.2)
    rw [eq] at eq'
    cases eq'
    rw [T.contents, mem] at found
    exact ih possible.1 noTop eq₁ found
  | store t a' w ih =>
    obtain ⟨s₁, eq₁, rfl⟩ := Option.map_eq_some_iff.mp eq
    rw [store, T.contents, find_put s₁.contents.sorted] at found
    split at found
    · unfold cell at found
      split at found
      · cases found
      case isFalse top =>
        cases found
        exact top
    · exact ih possible noTop eq₁ found
  | join o t t' ih ih' =>
    obtain ⟨s₁, eq₁, eq⟩ := Option.bind_eq_some_iff.mp eq
    obtain ⟨s₂, eq₂, rfl⟩ := Option.map_eq_some_iff.mp eq
    rcases join_cases o s₁ s₂ with ⟨same, eq⟩ | ⟨top, eq⟩ | ⟨rfl, eq⟩ | ⟨rfl, eq⟩ | ⟨c, c', rfl, rfl, eq⟩
    · exact ih possible.1 noTop.1 eq₁ (eq ▸ found)
    · rw [eq] at found
      cases found
    · exact ih' possible.2.1 noTop.2.1 eq₂ (eq ▸ found)
    · exact ih possible.1 noTop.1 eq₁ (eq ▸ found)
    · have sound := possible.2.2 _ _ eq₁ eq₂
      rw [eq] at found
      change find a (joinMem o c.mem c'.mem) = some v at found
      rw [joinMem_eq sound.nodes, find_merge c.sorted c'.sorted] at found
      obtain ⟨v₁, found₁, found⟩ := Option.bind_eq_some_iff.mp found
      obtain ⟨v₂, found₂, found⟩ := Option.bind_eq_some_iff.mp found
      cases found
      exact noTop.2.2 c c' eq₁ eq₂ a v₁ v₂ found₁ found₂

/-- The states of two terms can be compared: all registers have been set, no cell has the top value, and both are
the bottom state or neither is. -/
structure Comparable (t t' : Term (nrblock regCount) V) : Prop where
  sets : ∀ r < regCount, t.Sets r ∧ t'.Sets r
  noTop : t.NoTop ∧ t'.NoTop
  bot : t.eval = some .bot ↔ t'.eval = some .bot

theorem equals_iff_same {o : Shared (nrblock regCount) V} (rep : Represents t s) (rep' : Represents t' s')
    (sound : o.Sound s.contents s'.contents) (sets : ∀ r < regCount, t.Sets r ∧ t'.Sets r)
    (reached : s ≠ .bot) (reached' : s' ≠ .bot) (noTop : ∀ a v, find a s.contents.mem = some v → v ≠ ⊤)
    (noTop' : ∀ a v, find a s'.contents.mem = some v → v ≠ ⊤) :
    equals o s s' = true ↔ Map.Same regCount t.ref t'.ref := by
  rw [equals_eq_true_iff sound]
  constructor
  · rintro ⟨regs, mem⟩
    refine ⟨fun r lt => ?_, fun a => ?_⟩
    · have found := rep.reg r lt (sets r lt).1
      have found' := rep'.reg r lt (sets r lt).2
      rw [get_of_lt (lt_nrblock lt)] at found found'
      rw [regs, found'] at found
      exact (Option.some.inj found).symm
    · rw [← rep.mem, ← rep'.mem, load_of_contents reached, load_of_contents reached', mem]
  · rintro ⟨regs, mem⟩
    have at_reg : ∀ r, r < nrblock regCount * 8 → get s r = get s' r := by
      intro r lt
      by_cases lt' : r < regCount
      · rw [rep.reg r lt' (sets r lt').1, rep'.reg r lt' (sets r lt').2, regs r lt']
      · have bottom := rep.rest r _ (not_lt.mp lt') (get_of_lt lt)
        have bottom' := rep'.rest r _ (not_lt.mp lt') (get_of_lt lt)
        rw [get_of_lt lt, get_of_lt lt, bottom, bottom']
    refine ⟨funext fun i => funext fun j => ?_, ?_⟩
    · have lt : i.val * 8 + j.val < nrblock regCount * 8 := by omega
      have same := at_reg _ lt
      have div : (i.val * 8 + j.val) / 8 = i.val := by omega
      have mod : (i.val * 8 + j.val) % 8 = j.val := by omega
      rw [get_of_lt lt, get_of_lt lt] at same
      simpa only [div, mod, Option.some.injEq] using same
    · refine eq_of_find s.contents.sorted s'.contents.sorted fun a => ?_
      have same := mem a
      rw [← rep.mem, ← rep'.mem, load_of_contents reached, load_of_contents reached'] at same
      cases found : find a s.contents.mem with
      | none =>
        cases found' : find a s'.contents.mem with
        | none => rfl
        | some v' =>
          rw [found, found'] at same
          exact absurd same.symm (noTop' a v' found')
      | some v =>
        cases found' : find a s'.contents.mem with
        | none =>
          rw [found, found'] at same
          exact absurd same (noTop a v found)
        | some v' =>
          rw [found, found'] at same
          exact congrArg some same

/-- The states of two terms are as their reference maps: what is got, what is loaded, and when they are equal. -/
def Refines (t t' : Term (nrblock regCount) V) : Prop :=
  ∃ s s', t.eval = some s ∧ t'.eval = some s' ∧ (∀ r < regCount, get s r = some (t.ref.reg r)) ∧
    (∀ a, load s a = t.ref.mem a) ∧
    ∀ o : Shared (nrblock regCount) V, o.Sound s.contents s'.contents →
      (equals o s s' = true ↔ Map.Same regCount t.ref t'.ref)

/-- Where nothing is written to the bottom state, loads are as in the reference map, registers that are set on all
ways from the top state are so too, and states that can be compared are equal when their maps are. -/
theorem refines_of_fits (t t' : Term (nrblock regCount) V) (possible : t.Possible regCount)
    (possible' : t'.Possible regCount) (fits : t.Fits) (fits' : t'.Fits) :
    ∃ s s', t.eval = some s ∧ t'.eval = some s' ∧
      (∀ r < regCount, t.Sets r → get s r = some (t.ref.reg r)) ∧
      (∀ a, load s a = t.ref.mem a) ∧
      (Comparable t t' → ∀ o : Shared (nrblock regCount) V, o.Sound s.contents s'.contents →
        (equals o s s' = true ↔ Map.Same regCount t.ref t'.ref)) := by
  obtain ⟨s, eq, rep⟩ := represents_of_fits possible fits
  obtain ⟨s', eq', rep'⟩ := represents_of_fits possible' fits'
  refine ⟨s, s', eq, eq', rep.reg, rep.mem, fun comparable o sound => ?_⟩
  by_cases bottom : s = .bot
  · -- Two bottom states have one map.
    have bottom' : s' = .bot := Option.some.inj (eq'.symm.trans (comparable.bot.mp (bottom ▸ eq)))
    have equal : equals o s s' = true := by rw [equals_eq_true_iff sound, bottom, bottom']; exact ⟨rfl, rfl⟩
    refine iff_of_true equal ⟨fun r _ => ?_, fun a => ?_⟩
    · rw [rep.bot bottom, rep'.bot bottom']
    · rw [← rep.mem, ← rep'.mem, bottom, bottom']
  · have reached' : s' ≠ .bot := fun bot => bottom (Option.some.inj (eq.symm.trans (comparable.bot.mpr (bot ▸ eq'))))
    exact equals_iff_same rep rep' sound comparable.sets bottom reached'
      (ne_top_of_noTop possible comparable.noTop.1 eq) (ne_top_of_noTop possible' comparable.noTop.2 eq')

end Runs

/-- One register and one cell have been written. -/
def written : Term (nrblock 1) (Fin 3) :=
  .store (.set .top 0 1) 8 1

theorem refines_of_fits_written : ∃ s s', written.eval = some s ∧ written.eval = some s' ∧
    (∀ r < 1, written.Sets r → get s r = some (written.ref.reg r)) ∧ (∀ a, load s a = written.ref.mem a) ∧
    (Comparable written written → ∀ o : Shared (nrblock 1) (Fin 3), o.Sound s.contents s'.contents →
      (equals o s s' = true ↔ Map.Same 1 written.ref written.ref)) :=
  refines_of_fits written written ⟨trivial, by decide⟩ ⟨trivial, by decide⟩ ⟨⟨trivial, nofun⟩, nofun⟩
    ⟨⟨trivial, nofun⟩, nofun⟩

/-- The top state has the registers of the bottom one. -/
theorem top_not_refined : ¬ ∀ (regCount : ℕ) (t t' : Term (nrblock regCount) (Fin 3)), t.Possible regCount →
    t'.Possible regCount → Refines t t' := by
  intro refines
  obtain ⟨s, s', eq, -, registers, -⟩ := refines 1 .top .top trivial trivial
  cases eq
  exact absurd (registers 0 Nat.one_pos) (by decide)

end Otawa.FastState
