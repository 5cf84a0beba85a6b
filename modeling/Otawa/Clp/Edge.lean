import Otawa.Clp.Filter
import Otawa.Clp.State

/-!
# Refinement of states on edges

`Problem.updateEdge` restricts the state of a conditional branch by the comparisons found for
it: a list on registers and a list on memory cells, where `OR` stands between the
conjunctions of a disjunction. The state is restricted by the comparisons of a conjunction in
turn, and what the conjunctions leave is joined.

On a not taken edge each comparison is replaced by its negation and the list is read as before.
The operands of an `OR` are null, and `logicalNot` copies them; and the negation of a
conjunction is not the conjunction of the negations, so the code is right only where the
comparisons hold or fail together.
-/

namespace Otawa.Se

open Otawa.Clp

/-- `op_t`. -/
inductive Op where
  | none
  | const
  | addr
  | reg
  | neg
  | add
  | cmp
  | cmpu
  | le
  | lt
  | ge
  | gt
  | eq
  | ne
  | ule
  | ult
  | uge
  | ugt
  | or
  deriving DecidableEq, Repr

inductive SymbExpr where
  | const (val : Value)
  | addr (val : Value)
  | reg (val : Value)
  | neg (a : SymbExpr)
  | add (a b : SymbExpr)

/-- The value of an expression; the default is the constant 0. -/
def SymbExpr.val : SymbExpr → Value
  | const val => val
  | addr val => val
  | reg val => val
  | neg _ => .const 0
  | add _ _ => .const 0

/-- A comparison, whose operands may be null. -/
structure SECmp where
  op : Op
  a : Option SymbExpr
  b : Option SymbExpr

/-- The operator of `logicalNot`. -/
def Op.logicalNot : Op → Op
  | le => gt
  | lt => ge
  | ge => lt
  | gt => le
  | eq => ne
  | ne => eq
  | ule => ugt
  | ult => uge
  | uge => ult
  | ugt => ule
  | or => none
  | op => op

/-- The copies of the operands dereference them. -/
def SECmp.logicalNot (se : SECmp) : Except Fault SECmp :=
  match se.a, se.b with
  | some a, some b => .ok ⟨se.op.logicalNot, some a, some b⟩
  | _, _ => .error .null

def applyFilter (v : Value) (cmpOp : Op) (f : Value) : Except Fault Value :=
  match cmpOp with
  | .lt => if f.swrap then .ok v else v.le (f.stop - 1)
  | .le => if f.swrap then .ok v else v.le f.stop
  | .ge => if f.swrap then .ok v else v.ge f.start
  | .gt => if f.swrap then .ok v else v.ge (f.start + 1)
  | .ule => if f.uwrap then .ok v else v.leu f.stop
  | .ult => if f.uwrap then .ok v else v.leu (f.stop - 1)
  | .uge => if f.uwrap then .ok v else v.geu f.start
  | .ugt => if f.uwrap then .ok v else v.geu (f.start + 1)
  | .eq => v.interWith f
  | _ => .ok v

/-! ### What a comparison says -/

/-- What a comparison says of two words; the other operators say nothing. -/
def Op.Holds (op : Op) (x y : Word) : Prop :=
  match op with
  | le => x.toInt ≤ y.toInt
  | lt => x.toInt < y.toInt
  | ge => y.toInt ≤ x.toInt
  | gt => y.toInt < x.toInt
  | eq => x = y
  | ne => x ≠ y
  | ule => x.toNat ≤ y.toNat
  | ult => x.toNat < y.toNat
  | uge => y.toNat ≤ x.toNat
  | ugt => y.toNat < x.toNat
  | _ => True

instance (op : Op) (x y : Word) : Decidable (op.Holds x y) :=
  match op with
  | .le => inferInstanceAs (Decidable (x.toInt ≤ y.toInt))
  | .lt => inferInstanceAs (Decidable (x.toInt < y.toInt))
  | .ge => inferInstanceAs (Decidable (y.toInt ≤ x.toInt))
  | .gt => inferInstanceAs (Decidable (y.toInt < x.toInt))
  | .eq => inferInstanceAs (Decidable (x = y))
  | .ne => inferInstanceAs (Decidable (x ≠ y))
  | .ule => inferInstanceAs (Decidable (x.toNat ≤ y.toNat))
  | .ult => inferInstanceAs (Decidable (x.toNat < y.toNat))
  | .uge => inferInstanceAs (Decidable (y.toNat ≤ x.toNat))
  | .ugt => inferInstanceAs (Decidable (y.toNat < x.toNat))
  | .none | .const | .addr | .reg | .neg | .add | .cmp | .cmpu | .or => isTrue trivial

/-- The determinate comparisons. -/
def Op.Compares : Op → Prop
  | le | lt | ge | gt | eq | ne | ule | ult | uge | ugt => True
  | _ => False

variable {op : Op} {v f : Value} {x y k : Word} {j : Nat}

theorem Op.holds_of_not_compares (other : ¬ op.Compares) : op.Holds x y := by
  cases op
  case none | const | addr | reg | neg | add | cmp | cmpu | or => trivial
  all_goals exact absurd trivial other

theorem Op.holds_logicalNot (compares : op.Compares) : op.logicalNot.Holds x y ↔ ¬ op.Holds x y := by
  cases op <;> simp_all [Op.Compares, Op.logicalNot, Op.Holds]

theorem Op.logicalNot_of_not_compares (other : ¬ op.Compares) : ¬ op.logicalNot.Compares := by
  cases op <;> simp_all [Op.Compares, Op.logicalNot]

/-! ### Filters -/

/-- The values on which a filter keeps every word that satisfies it: the words of the right value go from its
start to its stop, and the bound is one that fits the left value. -/
def FilterFits (v : Value) (op : Op) (f : Value) : Prop :=
  (v.kind = .all → v = .all) ∧ (f.kind = .all → f = .all) ∧
    match op with
    | .lt => f.swrap ∨ (f.Signed ∧ v.LeFits (f.stop - 1))
    | .le => f.swrap ∨ (f.Signed ∧ v.LeFits f.stop)
    | .ge => f.swrap ∨ (f.Signed ∧ v.GeFits f.start)
    | .gt => f.swrap ∨ (f.Signed ∧ v.GeFits (f.start + 1))
    | .ule => f.uwrap ∨ (f.Unsigned ∧ v.LeuFits f.stop)
    | .ult => f.uwrap ∨ (f.Unsigned ∧ v.LeuFits (f.stop - 1))
    | .uge => f.uwrap ∨ (f.Unsigned ∧ v.GeuFits f.start)
    | .ugt => f.uwrap ∨ (f.Unsigned ∧ v.GeuFits (f.start + 1))
    | .eq => v.InterFits f
    | _ => True

theorem words_of (top : f.kind = .all → f = .all) (hy : y ∈ f.gamma) :
    ∃ j ≤ f.mtimes.toNat, y = f.base + j • f.delta := by
  by_cases isAll : f = .all
  · subst isAll
    refine ⟨y.toNat, Nat.le_of_lt_succ y.isLt, ?_⟩
    simp [Value.all]
  · exact (Value.words top isAll hy).2

theorem signed_between (top : f.kind = .all → f = .all) (signed : f.Signed) (hy : y ∈ f.gamma) :
    f.start.toInt ≤ y.toInt ∧ y.toInt ≤ f.stop.toInt := by
  obtain ⟨j, lej, rfl⟩ := words_of top hy
  exact ⟨signed.start_le lej, signed.le_stop lej⟩

theorem unsigned_between (top : f.kind = .all → f = .all) (unsigned : f.Unsigned) (hy : y ∈ f.gamma) :
    f.start.toNat ≤ y.toNat ∧ y.toNat ≤ f.stop.toNat := by
  obtain ⟨j, lej, rfl⟩ := words_of top hy
  exact ⟨unsigned.start_le lej, unsigned.le_stop lej⟩

theorem toInt_pred (lt : x.toInt < k.toInt) : (k - 1).toInt = k.toInt - 1 := by
  have := x.le_toInt
  have := k.toInt_lt
  exact Value.toInt_sub_word (k := 1) (by rw [show (1 : Word).toInt = 1 from rfl]; omega)
    (by rw [show (1 : Word).toInt = 1 from rfl]; omega)

theorem toInt_succ (lt : k.toInt < x.toInt) : (k + 1).toInt = k.toInt + 1 := by
  have := x.toInt_lt
  exact Value.toInt_add_ofNat (n := 1) (by push_cast; omega)

theorem toNat_pred (lt : x.toNat < k.toNat) : (k - 1).toNat = k.toNat - 1 := by
  bv_omega

theorem toNat_succ (lt : k.toNat < x.toNat) : (k + 1).toNat = k.toNat + 1 := by
  have := x.isLt
  bv_omega

/-- The words that a filter is made to keep: those that the filter of the bound keeps, unless it is skipped. -/
def filterWords (v : Value) (op : Op) (f : Value) : Set Word :=
  match op with
  | .lt | .le => if f.swrap then v.gamma else v.signedPart
  | .ge | .gt => if f.swrap then v.gamma else v.geWords
  | .ule | .ult => if f.uwrap then v.gamma else v.leuWords
  | .uge | .ugt => if f.uwrap then v.gamma else v.geuWords
  | _ => v.gamma

/-- The values on which a filter keeps these words: the right value passes no end of the numbers unless the wrap
test sees it, and the bound is one that the filter of the left value keeps its words for. -/
def FilterKeeps (v : Value) (op : Op) (f : Value) : Prop :=
  (v.kind = .all → v = .all) ∧ (f.kind = .all → f = .all) ∧
    match op with
    | .lt => f.swrap ∨ (f.Signed ∧ v.LeKeeps (f.stop - 1))
    | .le => f.swrap ∨ (f.Signed ∧ v.LeKeeps f.stop)
    | .ge => f.swrap ∨ (f.Signed ∧ v.GeKeeps f.start)
    | .gt => f.swrap ∨ (f.Signed ∧ v.GeKeeps (f.start + 1))
    | .ule => f.uwrap ∨ (f.Unsigned ∧ v.LeuKeeps f.stop)
    | .ult => f.uwrap ∨ (f.Unsigned ∧ v.LeuKeeps (f.stop - 1))
    | .uge => f.uwrap ∨ (f.Unsigned ∧ v.GeuKeeps f.start)
    | .ugt => f.uwrap ∨ (f.Unsigned ∧ v.GeuKeeps (f.start + 1))
    | .eq => v.InterFits f
    | _ => True

/-- A filter that is skipped or applied. -/
theorem skip_or {wraps : Prop} [Decidable wraps] {fits : Prop} {applied : Except Fault Value} {words : Set Word}
    {holds keeps : Word → Prop} (either : wraps ∨ fits)
    (sound : fits → ∃ r, applied = .ok r ∧ ∀ x ∈ words, keeps x → x ∈ r.gamma)
    (weaker : fits → ∀ x, holds x → keeps x) :
    ∃ r, (if wraps then .ok v else applied) = .ok r ∧
      ∀ x ∈ (if wraps then v.gamma else words), holds x → x ∈ r.gamma := by
  by_cases skipped : wraps
  · rw [if_pos skipped, if_pos skipped]
    exact ⟨v, rfl, fun x hx _ => hx⟩
  · rw [if_neg skipped, if_neg skipped]
    have fits := either.resolve_left skipped
    obtain ⟨r, ok, kept⟩ := sound fits
    exact ⟨r, ok, fun x hx above => kept x hx (weaker fits x above)⟩

theorem applyFilter_keeps (keeps : FilterKeeps v op f) :
    ∃ r, applyFilter v op f = .ok r ∧
      ∀ x ∈ filterWords v op f, (∃ y ∈ f.gamma, op.Holds x y) → x ∈ r.gamma := by
  obtain ⟨topV, topF, keeps⟩ := keeps
  cases op
  case lt =>
    refine skip_or keeps (fun fits => Value.le_keeps topV fits.2) ?_
    rintro ⟨signed, -⟩ x ⟨y, hy, (below : x.toInt < y.toInt)⟩
    have := (signed_between topF signed hy).2
    rw [toInt_pred (below.trans_le this)]
    omega
  case le =>
    refine skip_or keeps (fun fits => Value.le_keeps topV fits.2) ?_
    rintro ⟨signed, -⟩ x ⟨y, hy, below⟩
    exact below.trans (signed_between topF signed hy).2
  case ge =>
    refine skip_or keeps (fun fits => Value.ge_keeps topV fits.2) ?_
    rintro ⟨signed, -⟩ x ⟨y, hy, above⟩
    exact (signed_between topF signed hy).1.trans above
  case gt =>
    refine skip_or keeps (fun fits => Value.ge_keeps topV fits.2) ?_
    rintro ⟨signed, -⟩ x ⟨y, hy, (above : y.toInt < x.toInt)⟩
    have := (signed_between topF signed hy).1
    rw [toInt_succ (this.trans_lt above)]
    omega
  case ule =>
    refine skip_or keeps (fun fits => Value.leu_keeps topV fits.2) ?_
    rintro ⟨unsigned, -⟩ x ⟨y, hy, below⟩
    exact below.trans (unsigned_between topF unsigned hy).2
  case ult =>
    refine skip_or keeps (fun fits => Value.leu_keeps topV fits.2) ?_
    rintro ⟨unsigned, -⟩ x ⟨y, hy, (below : x.toNat < y.toNat)⟩
    have := (unsigned_between topF unsigned hy).2
    rw [toNat_pred (below.trans_le this)]
    omega
  case uge =>
    refine skip_or keeps (fun fits => Value.geu_keeps topV fits.2) ?_
    rintro ⟨unsigned, -⟩ x ⟨y, hy, above⟩
    exact (unsigned_between topF unsigned hy).1.trans above
  case ugt =>
    refine skip_or keeps (fun fits => Value.geu_keeps topV fits.2) ?_
    rintro ⟨unsigned, -⟩ x ⟨y, hy, (above : y.toNat < x.toNat)⟩
    have := (unsigned_between topF unsigned hy).1
    rw [toNat_succ (this.trans_lt above)]
    omega
  case eq =>
    obtain ⟨r, ok, sound⟩ := Value.interWith_sound keeps
    refine ⟨r, ok, fun x hx ⟨y, hy, same⟩ => sound ⟨hx, ?_⟩⟩
    exact (show x = y from same) ▸ hy
  case none | const | addr | reg | neg | add | cmp | cmpu | ne | or => exact ⟨v, rfl, fun x hx _ => hx⟩

theorem subset_skip {wraps : Prop} [Decidable wraps] {words : Set Word} (all : v.gamma ⊆ words) :
    v.gamma ⊆ if wraps then v.gamma else words := by
  split
  · exact Set.Subset.rfl
  · exact all

/-- Where each word of a value is kept by the filter of its bound. -/
theorem skip_fits {wraps inside fits keeps : Prop} [Decidable wraps] {words : Set Word}
    (either : wraps ∨ inside ∧ fits) (all : fits → v.gamma ⊆ words ∧ keeps) :
    (wraps ∨ inside ∧ keeps) ∧ v.gamma ⊆ if wraps then v.gamma else words := by
  by_cases skipped : wraps
  · exact ⟨.inl skipped, by rw [if_pos skipped]⟩
  · obtain ⟨isInside, fits⟩ := either.resolve_left skipped
    exact ⟨.inr ⟨isInside, (all fits).2⟩, by rw [if_neg skipped]; exact (all fits).1⟩

theorem FilterFits.keeps (fits : FilterFits v op f) : FilterKeeps v op f ∧ v.gamma ⊆ filterWords v op f := by
  obtain ⟨topV, topF, fits⟩ := fits
  unfold FilterKeeps filterWords
  cases op
  case lt | le =>
    obtain ⟨keeps, all⟩ := skip_fits fits Value.LeFits.keeps
    exact ⟨⟨topV, topF, keeps⟩, all⟩
  case ge | gt =>
    obtain ⟨keeps, all⟩ := skip_fits fits Value.GeFits.keeps
    exact ⟨⟨topV, topF, keeps⟩, all⟩
  case ule | ult =>
    obtain ⟨keeps, all⟩ := skip_fits fits Value.LeuFits.keeps
    exact ⟨⟨topV, topF, keeps⟩, all⟩
  case uge | ugt =>
    obtain ⟨keeps, all⟩ := skip_fits fits Value.GeuFits.keeps
    exact ⟨⟨topV, topF, keeps⟩, all⟩
  case eq | none | const | addr | reg | neg | add | cmp | cmpu | ne | or =>
    exact ⟨⟨topV, topF, fits⟩, Set.Subset.rfl⟩

theorem applyFilter_sound (fits : FilterFits v op f) (hy : y ∈ f.gamma) :
    ∃ r, applyFilter v op f = .ok r ∧ ∀ x ∈ v.gamma, op.Holds x y → x ∈ r.gamma := by
  obtain ⟨keeps, all⟩ := fits.keeps
  obtain ⟨r, ok, sound⟩ := applyFilter_keeps keeps
  exact ⟨r, ok, fun x hx holds => sound x (all hx) ⟨y, hy, holds⟩⟩

/-! ### Refinement -/

theorem subset_filterWords (op : Op) (f : Value) (signed : v.gamma ⊆ v.signedPart)
    (unsigned : v.gamma ⊆ v.unsignedPart) : v.gamma ⊆ filterWords v op f := by
  unfold filterWords
  cases op
  case lt | le => exact subset_skip signed
  case ge | gt => exact subset_skip (Value.subset_ite_part signed)
  case ule | ult | uge | ugt => exact subset_skip (Value.subset_ite_part unsigned)
  case eq | none | const | addr | reg | neg | add | cmp | cmpu | ne | or => exact Set.Subset.rfl

end Otawa.Se

namespace Otawa.Clp.Problem

open Otawa.Se

/-- A conditional branch is taken or not. -/
inductive EdgeKind where
  | taken
  | notTaken
  deriving DecidableEq, Repr

/-- `if not taken, invert conditions`. -/
def invert (kind : EdgeKind) (filters : List SECmp) : Except Fault (List SECmp) :=
  match kind with
  | .taken => .ok filters
  | .notTaken => filters.mapM SECmp.logicalNot

/-- The address of a register filter. -/
def regAddr (rval : Value) : Value := ⟨.reg, rval.base, 0, 0⟩

/-- `State::get` asserts that the address is a constant. -/
def filterAt (place : Value → Value) (dom : State) (filter : SECmp) : Except Fault State :=
  match filter.a, filter.b with
  | some a, some b => do
      let addr := place a.val
      if ¬ addr.isConst then .error .assertion
      let v ← applyFilter (dom.get addr.location) filter.op b.val
      return dom.set addr v
  | _, _ => .error .null

/-- The loop over a list of filters: what the finished conjunctions leave, and the state of the current one. -/
def filterAll (place : Value → Value) (init : State) : State × State → List SECmp → Except Fault (State × State)
  | (all, dom), [] => .ok (all, dom)
  | (all, dom), filter :: rest =>
      if filter.op = .none then filterAll place init (all, dom) rest
      else if filter.op = .or then filterAll place init (all.join dom, init) rest
      else do
        let dom ← filterAt place dom filter
        filterAll place init (all, dom) rest

/-- The two loops; what the conjunctions on registers leave is still in `all` in the second one. -/
def restrict (regFilters addrFilters : List SECmp) (dom : State) : Except Fault State := do
  let (all, dom) ← filterAll regAddr dom (.bottom, dom) regFilters
  let dom := dom.join all
  let (all, dom) ← filterAll id dom (all, dom) addrFilters
  return dom.join all

/-- The filters are the ones of the source block, if it has any. -/
def updateEdge (kind : EdgeKind) (filters : Option (List SECmp × List SECmp)) (dom : State) : Except Fault State :=
  match filters with
  | none => .ok dom
  | some (regFilters, addrFilters) => do
      let regFilters ← invert kind regFilters
      let addrFilters ← invert kind addrFilters
      restrict regFilters addrFilters dom

/-! ### The condition of a branch -/

/-- A filter and the word that its right operand has. -/
structure Guard where
  filter : SECmp
  word : Word

/-- The word is one of the right value. -/
def Guard.Known (g : Guard) : Prop := ∀ b ∈ g.filter.b, g.word ∈ b.val.gamma

/-- What a filter says of a memory. -/
def Guard.Holds (place : Value → Value) (m : Location → Word) (g : Guard) : Prop :=
  ∀ a ∈ g.filter.a, g.filter.op.Holds (m (place a.val).location) g.word

/-- The disjunction of the conjunctions of a list, of which the first one has `p` besides. -/
def Condition (place : Value → Value) (m : Location → Word) : Prop → List Guard → Prop
  | p, [] => p
  | p, g :: rest =>
      if g.filter.op = .or then p ∨ Condition place m True rest
      else Condition place m (p ∧ g.Holds place m) rest

/-- The branch is taken when both conditions hold. -/
def Taken (m : Location → Word) (regs addrs : List Guard) : Prop :=
  Condition regAddr m True regs ∧ Condition id m True addrs

def Leaves (kind : EdgeKind) (m : Location → Word) (regs addrs : List Guard) : Prop :=
  match kind with
  | .taken => Taken m regs addrs
  | .notTaken => ¬ Taken m regs addrs

/-! ### Conditions on the steps -/

/-- The steps of the loop: each filter fits the value it restricts, and each `OR` joins states whose join is
an upper bound. -/
def StepsFit (place : Value → Value) (init : State) : State → State → List SECmp → Prop
  | _, _, [] => True
  | all, dom, filter :: rest =>
      if filter.op = .none then StepsFit place init all dom rest
      else if filter.op = .or then State.JoinCovers all dom ∧ StepsFit place init (all.join dom) init rest
      else ∃ a b, filter.a = some a ∧ filter.b = some b ∧ (place a.val).isConst ∧
        FilterFits (dom.get (place a.val).location) filter.op b.val ∧
        ∀ dom', filterAt place dom filter = .ok dom' → StepsFit place init all dom' rest

/-- A loop and the join after it. -/
def LoopFits (place : Value → Value) (all dom : State) (filters : List SECmp) : Prop :=
  StepsFit place dom all dom filters ∧
    ∀ all' dom', filterAll place dom (all, dom) filters = .ok (all', dom') → State.JoinCovers dom' all'

def RestrictFits (regFilters addrFilters : List SECmp) (dom : State) : Prop :=
  LoopFits regAddr .bottom dom regFilters ∧
    ∀ all' dom', filterAll regAddr dom (.bottom, dom) regFilters = .ok (all', dom') →
      LoopFits id all' (dom'.join all') addrFilters

/-! ### Soundness -/

variable {place : Value → Value} {init all dom s : State} {m : Location → Word}

/-- The head node of the states of the analysis. -/
def Headed (s : State) : Prop := s.first = .none ∨ s.first = .all

theorem headed_join (headA : Headed all) (headD : Headed dom) : Headed (all.join dom) := by
  unfold State.join State.combineWith
  split
  · exact headA
  · split
    · exact headD
    · exact headA

theorem headed_set (addr val : Value) (head : Headed s) : Headed (s.set addr val) := by
  unfold State.set
  split
  · exact head
  · split
    · exact .inl rfl
    · split
      · split <;> exact head
      · split <;> exact head

/-- A memory has at each location a word of the value read there. -/
theorem mem_get (head : Headed s) (mem : m ∈ s.gamma) (x : Location) : m x ∈ (s.get x).gamma := by
  have reached : s.first ≠ .none := by
    intro empty
    rw [State.gamma, if_pos empty] at mem
    exact mem
  rw [State.gamma_of_reached reached] at mem
  have word : m x ∈ (s.known x).gamma := mem x (Set.mem_univ x)
  cases x with
  | register r => exact word
  | memory adr => rwa [State.get_memory, head.resolve_left reached]

theorem filterAll_sound (guards : List Guard) (known : ∀ g ∈ guards, g.Known) (headInit : Headed init) :
    ∀ all dom : State, Headed all → Headed dom → StepsFit place init all dom (guards.map Guard.filter) →
      ∃ all' dom', filterAll place init (all, dom) (guards.map Guard.filter) = .ok (all', dom') ∧
        Headed all' ∧ Headed dom' ∧ ∀ m ∈ init.gamma, ∀ p : Prop, (p → m ∈ dom.gamma) →
          (m ∈ all.gamma ∨ Condition place m p guards) → m ∈ all'.gamma ∨ m ∈ dom'.gamma := by
  induction guards with
  | nil =>
    intro all dom headA headD _
    exact ⟨all, dom, rfl, headA, headD, fun m _ p inDom => Or.imp_right inDom⟩
  | cons g rest ih =>
    have ih := ih fun g' mem => known g' (List.mem_cons_of_mem g mem)
    intro all dom headA headD fits
    simp only [List.map_cons, filterAll, StepsFit, Condition] at fits ⊢
    by_cases nothing : g.filter.op = .none
    · simp only [if_pos nothing] at fits ⊢
      obtain ⟨all', dom', ok, headA', headD', sound⟩ := ih all dom headA headD fits
      refine ⟨all', dom', ok, headA', headD', fun m mem p inDom => ?_⟩
      rw [if_neg (by simp [nothing])]
      exact sound m mem _ fun ⟨hp, _⟩ => inDom hp
    simp only [if_neg nothing] at fits ⊢
    by_cases disjunction : g.filter.op = .or
    · simp only [if_pos disjunction] at fits ⊢
      obtain ⟨covers, fits⟩ := fits
      have upper := (State.union_subset_join_iff all dom).mpr covers
      obtain ⟨all', dom', ok, headA', headD', sound⟩ :=
        ih (all.join dom) init (headed_join headA headD) headInit fits
      refine ⟨all', dom', ok, headA', headD', fun m mem p inDom before => ?_⟩
      refine sound m mem True (fun _ => mem) ?_
      rcases before with inAll | hp | later
      · exact .inl (upper (.inl inAll))
      · exact .inl (upper (.inr (inDom hp)))
      · exact .inr later
    simp only [if_neg disjunction] at fits ⊢
    obtain ⟨a, b, isA, isB, const, fits, next⟩ := fits
    have word := known g List.mem_cons_self b isB
    obtain ⟨r, filtered, keeps⟩ := applyFilter_sound fits word
    have step : filterAt place dom g.filter = .ok (dom.set (place a.val) r) := by
      simp only [filterAt, isA, isB, if_neg (not_not.mpr const), filtered]
      rfl
    obtain ⟨all', dom', ok, headA', headD', sound⟩ :=
      ih all _ headA (headed_set _ _ headD) (next _ step)
    refine ⟨all', dom', by rw [step]; exact ok, headA', headD', fun m mem p inDom => ?_⟩
    refine sound m mem _ fun ⟨hp, holds⟩ => ?_
    have nall : place a.val ≠ .all := by
      intro eq
      rw [eq] at const
      exact absurd const (by decide)
    exact State.mem_set nall (inDom hp) (keeps _ (mem_get headD (inDom hp) _) (holds a isA))

/-! ### Negations -/

/-- An operand is missing, as in the `OR` of a list. -/
def Null (filter : SECmp) : Prop := filter.a = none ∨ filter.b = none

def negated (filter : SECmp) : SECmp := { filter with op := filter.op.logicalNot }

def Guard.negated (g : Guard) : Guard := { g with filter := Problem.negated g.filter }

theorem logicalNot_eq {filter : SECmp} (operands : ¬ Null filter) : filter.logicalNot = .ok (negated filter) := by
  obtain ⟨op, a, b⟩ := filter
  obtain ⟨isA, isB⟩ := not_or.mp operands
  obtain ⟨a, rfl⟩ := Option.ne_none_iff_exists'.mp isA
  obtain ⟨b, rfl⟩ := Option.ne_none_iff_exists'.mp isB
  rfl

theorem logicalNot_null {filter : SECmp} (missing : Null filter) : filter.logicalNot = .error .null := by
  obtain ⟨op, a, b⟩ := filter
  rcases missing with rfl | rfl
  · rfl
  · cases a <;> rfl

theorem invert_eq (filters : List SECmp) (operands : ∀ f ∈ filters, ¬ Null f) :
    invert .notTaken filters = .ok (filters.map negated) := by
  induction filters with
  | nil => rfl
  | cons f rest ih =>
    have tail := ih fun f' mem => operands f' (List.mem_cons_of_mem f mem)
    simp only [invert] at tail ⊢
    rw [List.mapM_cons, logicalNot_eq (operands f List.mem_cons_self), tail]
    rfl

theorem invert_null (filters : List SECmp) (missing : ∃ f ∈ filters, Null f) :
    invert .notTaken filters = .error .null := by
  induction filters with
  | nil => exact absurd missing (by simp)
  | cons f rest ih =>
    simp only [invert] at ih ⊢
    rw [List.mapM_cons]
    by_cases null : Null f
    · rw [logicalNot_null null]
      rfl
    · obtain ⟨f', mem, null'⟩ := missing
      rcases List.mem_cons.mp mem with rfl | later
      · exact absurd null' null
      · rw [logicalNot_eq null, ih ⟨f', later, null'⟩]
        rfl

theorem condition_of_holds (guards : List Guard) (holds : ∀ g ∈ guards, g.Holds place m) :
    ∀ p : Prop, p → Condition place m p guards := by
  induction guards with
  | nil => exact fun p hp => hp
  | cons g rest ih =>
    intro p hp
    unfold Condition
    split
    · exact .inl hp
    · exact ih (fun g' mem => holds g' (List.mem_cons_of_mem g mem)) _ ⟨hp, holds g List.mem_cons_self⟩

theorem holds_negated {g : Guard} (operands : ¬ Null g.filter) :
    g.negated.Holds place m ↔ (g.filter.op.Compares → ¬ g.Holds place m) := by
  obtain ⟨⟨op, a, b⟩, word⟩ := g
  obtain ⟨a, rfl⟩ := Option.ne_none_iff_exists'.mp (not_or.mp operands).1
  simp only [Guard.negated, negated, Guard.Holds, Option.mem_some, forall_eq']
  by_cases compares : op.Compares
  · simp only [Op.holds_logicalNot compares, compares, true_implies]
  · simp only [compares, false_implies, iff_true]
    exact Op.holds_of_not_compares (Op.logicalNot_of_not_compares compares)

/-- The comparisons of a branch all hold, or they all fail. -/
def Together (m : Location → Word) (regs addrs : List Guard) : Prop :=
  ((∀ g ∈ regs, g.filter.op.Compares → g.Holds regAddr m) ∧ ∀ g ∈ addrs, g.filter.op.Compares → g.Holds id m) ∨
    ((∀ g ∈ regs, g.filter.op.Compares → ¬ g.Holds regAddr m) ∧ ∀ g ∈ addrs, g.filter.op.Compares → ¬ g.Holds id m)

/-- The negations that are used hold of a memory. -/
def NegationsHold (m : Location → Word) (regs addrs : List Guard) : Prop :=
  (∀ g ∈ regs, g.negated.Holds regAddr m) ∧ ∀ g ∈ addrs, g.negated.Holds id m

/-- Where a branch is not taken, the negations hold exactly when the comparisons fail together. -/
theorem negationsHold_iff {regs addrs : List Guard} (operands : ∀ g ∈ regs ++ addrs, ¬ Null g.filter)
    (left : ¬ Taken m regs addrs) : NegationsHold m regs addrs ↔ Together m regs addrs := by
  have fails : NegationsHold m regs addrs ↔ ((∀ g ∈ regs, g.filter.op.Compares → ¬ g.Holds regAddr m) ∧
      ∀ g ∈ addrs, g.filter.op.Compares → ¬ g.Holds id m) :=
    and_congr
      (forall₂_congr fun g mem => holds_negated (operands g (List.mem_append_left _ mem)))
      (forall₂_congr fun g mem => holds_negated (operands g (List.mem_append_right _ mem)))
  rw [fails, Together, or_iff_right]
  -- If all of them held, the branch would be taken.
  rintro ⟨holdRegs, holdAddrs⟩
  have all : ∀ place (g : Guard), (g.filter.op.Compares → g.Holds place m) → g.Holds place m := by
    intro place g holds
    by_cases compares : g.filter.op.Compares
    · exact holds compares
    · exact fun a _ => Op.holds_of_not_compares compares
  exact left ⟨condition_of_holds regs (fun g mem => all _ g (holdRegs g mem)) True trivial,
    condition_of_holds addrs (fun g mem => all _ g (holdAddrs g mem)) True trivial⟩

/-! ### Null operands -/

theorem interWith_ne_null (v w : Value) : v.interWith w ≠ .error .null := by
  unfold Value.interWith
  cases v.inter w with
  | error fault => exact fun null => nomatch null
  | ok r => exact fun null => nomatch null

theorem applyFilter_ne_null (v : Value) (op : Op) (f : Value) : applyFilter v op f ≠ .error .null := by
  have le : ∀ k, v.le k ≠ .error .null := by
    intro k
    simp only [Value.le]
    split_ifs <;> nofun
  have ge : ∀ k, v.ge k ≠ .error .null := by
    intro k
    simp only [Value.ge]
    split_ifs <;> first | exact interWith_ne_null _ _ | nofun
  have leu : ∀ k, v.leu k ≠ .error .null := by
    intro k
    simp only [Value.leu]
    split_ifs <;> first | exact interWith_ne_null _ _ | nofun
  have geu : ∀ k, v.geu k ≠ .error .null := by
    intro k
    simp only [Value.geu]
    split_ifs <;> first | exact interWith_ne_null _ _ | nofun
  have skip : ∀ {wraps : Prop} [Decidable wraps] {applied : Except Fault Value}, applied ≠ .error .null →
      (if wraps then .ok v else applied) ≠ .error .null := by
    intro wraps _ applied ne
    split
    · nofun
    · exact ne
  cases op
  case lt | le => exact skip (le _)
  case ge | gt => exact skip (ge _)
  case ule | ult => exact skip (leu _)
  case uge | ugt => exact skip (geu _)
  case eq => exact interWith_ne_null v f
  case none | const | addr | reg | neg | add | cmp | cmpu | ne | or => exact fun null => nomatch null

theorem filterAt_ne_null (place : Value → Value) (dom : State) {filter : SECmp} (operands : ¬ Null filter) :
    filterAt place dom filter ≠ .error .null := by
  obtain ⟨op, a, b⟩ := filter
  obtain ⟨isA, isB⟩ := not_or.mp operands
  obtain ⟨a, rfl⟩ := Option.ne_none_iff_exists'.mp isA
  obtain ⟨b, rfl⟩ := Option.ne_none_iff_exists'.mp isB
  simp only [filterAt]
  split
  · nofun
  · cases filtered : applyFilter (dom.get (place a.val).location) op b.val with
    | error fault =>
      intro null
      cases null
      exact applyFilter_ne_null _ _ _ filtered
    | ok r => nofun

/-- An operand that a loop reads: those of an `OR` are not. -/
def Reads (filter : SECmp) : Prop := filter.op ≠ .none ∧ filter.op ≠ .or

theorem filterAll_ne_null (filters : List SECmp) (operands : ∀ f ∈ filters, Reads f → ¬ Null f) :
    ∀ states, filterAll place init states filters ≠ .error .null := by
  induction filters with
  | nil => exact fun states null => nomatch null
  | cons f rest ih =>
    have ih := ih fun f' mem => operands f' (List.mem_cons_of_mem f mem)
    rintro ⟨all, dom⟩
    unfold filterAll
    by_cases nothing : f.op = .none
    · rw [if_pos nothing]
      exact ih _
    rw [if_neg nothing]
    by_cases disjunction : f.op = .or
    · rw [if_pos disjunction]
      exact ih _
    rw [if_neg disjunction]
    have here := filterAt_ne_null place dom (operands f List.mem_cons_self ⟨nothing, disjunction⟩)
    cases step : filterAt place dom f with
    | error fault =>
      intro null
      cases null
      exact here step
    | ok dom' => exact ih _

theorem restrict_ne_null (regFilters addrFilters : List SECmp) (dom : State)
    (operands : ∀ f ∈ regFilters ++ addrFilters, Reads f → ¬ Null f) :
    restrict regFilters addrFilters dom ≠ .error .null := by
  have first := @filterAll_ne_null regAddr dom regFilters
    (fun f mem => operands f (List.mem_append_left _ mem)) (.bottom, dom)
  unfold restrict
  cases ok : filterAll regAddr dom (.bottom, dom) regFilters with
  | error fault =>
    intro null
    cases null
    exact first ok
  | ok states =>
    obtain ⟨all, dom'⟩ := states
    have second := @filterAll_ne_null id (dom'.join all) addrFilters
      (fun f mem => operands f (List.mem_append_right _ mem)) (all, dom'.join all)
    cases ok' : filterAll id (dom'.join all) (all, dom'.join all) addrFilters with
    | error fault =>
      intro null
      simp only [bind, Except.bind, ok'] at null
      cases null
      exact second ok'
    | ok states =>
      intro null
      simp only [bind, Except.bind, ok'] at null
      cases null

/-! ### Edges -/

theorem restrict_sound {regs addrs : List Guard} (known : ∀ g ∈ regs ++ addrs, g.Known) (head : Headed s)
    (fits : RestrictFits (regs.map Guard.filter) (addrs.map Guard.filter) s) :
    ∃ s', restrict (regs.map Guard.filter) (addrs.map Guard.filter) s = .ok s' ∧
      ∀ m ∈ s.gamma, Taken m regs addrs → m ∈ s'.gamma := by
  obtain ⟨⟨steps, joined⟩, fits⟩ := fits
  obtain ⟨all₁, dom₁, ok₁, headA₁, headD₁, sound₁⟩ :=
    filterAll_sound regs (fun g mem => known g (List.mem_append_left _ mem)) head .bottom s (.inl rfl) head steps
  have upper₁ := (State.union_subset_join_iff dom₁ all₁).mpr (joined _ _ ok₁)
  have headJ := headed_join headD₁ headA₁
  obtain ⟨steps₂, joined₂⟩ := fits _ _ ok₁
  obtain ⟨all₂, dom₂, ok₂, -, -, sound₂⟩ :=
    filterAll_sound addrs (fun g mem => known g (List.mem_append_right _ mem)) headJ all₁ _ headA₁ headJ steps₂
  have upper₂ := (State.union_subset_join_iff dom₂ all₂).mpr (joined₂ _ _ ok₂)
  refine ⟨dom₂.join all₂, ?_, fun m mem taken => ?_⟩
  · simp only [restrict, bind, Except.bind, ok₁, ok₂]
    rfl
  · have between : m ∈ (dom₁.join all₁).gamma := upper₁ (sound₁ m mem True (fun _ => mem) (.inr taken.1)).symm
    exact upper₂ (sound₂ m between True (fun _ => between) (.inr taken.2)).symm

/-- The filters used on an edge. -/
def given (kind : EdgeKind) (filters : List SECmp) : List SECmp :=
  match kind with
  | .taken => filters
  | .notTaken => filters.map negated

/-- The branches on which an edge keeps every memory that leaves by it: no operand is null where comparisons are
inverted, and the filters used fit the states they meet. -/
def EdgeFits (kind : EdgeKind) (regFilters addrFilters : List SECmp) (s : State) : Prop :=
  (kind = .notTaken → ∀ f ∈ regFilters ++ addrFilters, ¬ Null f) ∧
    RestrictFits (given kind regFilters) (given kind addrFilters) s

theorem known_negated {guards : List Guard} (known : ∀ g ∈ guards, g.Known) :
    ∀ g ∈ guards.map Guard.negated, g.Known := by
  intro g' mem'
  obtain ⟨g, mem, rfl⟩ := List.mem_map.mp mem'
  exact known g mem

theorem map_negated (guards : List Guard) :
    (guards.map Guard.filter).map negated = (guards.map Guard.negated).map Guard.filter := by
  rw [List.map_map, List.map_map]
  rfl

/-- The filters of the negated comparisons hold of a memory, as one condition. -/
theorem NegationsHold.taken {regs addrs : List Guard} (holds : NegationsHold m regs addrs) :
    Taken m (regs.map Guard.negated) (addrs.map Guard.negated) := by
  constructor
  · refine condition_of_holds _ (fun g' mem' => ?_) True trivial
    obtain ⟨g, mem, rfl⟩ := List.mem_map.mp mem'
    exact holds.1 g mem
  · refine condition_of_holds _ (fun g' mem' => ?_) True trivial
    obtain ⟨g, mem, rfl⟩ := List.mem_map.mp mem'
    exact holds.2 g mem

theorem updateEdge_notTaken {regFilters addrFilters : List SECmp}
    (operands : ∀ f ∈ regFilters ++ addrFilters, ¬ Null f) :
    updateEdge .notTaken (some (regFilters, addrFilters)) s =
      restrict (regFilters.map negated) (addrFilters.map negated) s := by
  have regs := invert_eq regFilters fun f mem => operands f (List.mem_append_left _ mem)
  have addrs := invert_eq addrFilters fun f mem => operands f (List.mem_append_right _ mem)
  simp only [updateEdge, bind, Except.bind, regs, addrs]

theorem updateEdge_null_iff (regFilters addrFilters : List SECmp) :
    updateEdge .notTaken (some (regFilters, addrFilters)) s = .error .null ↔
      ∃ f ∈ regFilters ++ addrFilters, Null f := by
  constructor
  · intro null
    by_contra operands
    have operands : ∀ f ∈ regFilters ++ addrFilters, ¬ Null f := fun f mem isNull => operands ⟨f, mem, isNull⟩
    rw [updateEdge_notTaken operands] at null
    refine restrict_ne_null _ _ _ (fun f mem _ => ?_) null
    rw [← List.map_append] at mem
    obtain ⟨f', mem', rfl⟩ := List.mem_map.mp mem
    exact operands f' mem'
  · rintro ⟨f, mem, null⟩
    simp only [updateEdge, bind, Except.bind]
    by_cases inRegs : ∃ f ∈ regFilters, Null f
    · rw [invert_null regFilters inRegs]
    · have regs := invert_eq regFilters fun f' mem' null' => inRegs ⟨f', mem', null'⟩
      have later : f ∈ addrFilters := (List.mem_append.mp mem).resolve_left fun mem' => inRegs ⟨f, mem', null⟩
      rw [regs, invert_null addrFilters ⟨f, later, null⟩]

/-- The register `r` against the constant `k`. -/
def regGuard (op : Op) (r k : Word) : Guard := ⟨⟨op, some (.reg (.const r)), some (.const (.const k))⟩, k⟩

/-- The registers 0 and 1 hold words up to 10. -/
def upToTen : State := (State.full.set ⟨.reg, 0, 0, 0⟩ ⟨.val, 0, 1, 10⟩).set ⟨.reg, 1, 0, 0⟩ ⟨.val, 0, 1, 10⟩

/-- The register 0 is 7, and the others are 3. -/
def sevenAndThree : Location → Word := fun x => if x = .register 0 then 7 else 3

theorem sevenAndThree_mem : sevenAndThree ∈ upToTen.gamma := by
  have full := State.mem_full sevenAndThree
  exact State.mem_set (by decide) (State.mem_set (by decide) full ⟨7, by decide, by decide⟩) ⟨3, by decide, by decide⟩

theorem known_regGuard (op : Op) (r k : Word) : (regGuard op r k).Known := by
  intro b isB
  cases isB
  exact Value.mem_const k

/-- The restriction of the register 0 to the words up to 8. -/
theorem filterAt_upToEight : filterAt regAddr upToTen (negated (regGuard .gt 0 8).filter) =
    .ok (upToTen.set ⟨.reg, 0, 0, 0⟩ ⟨.val, 0, 1, 8⟩) := by
  rfl

theorem fits_upToEight : EdgeFits .notTaken [(regGuard .gt 0 8).filter] [] upToTen := by
  have once : filterAll regAddr upToTen (.bottom, upToTen) [negated (regGuard .gt 0 8).filter] =
      .ok (.bottom, upToTen.set ⟨.reg, 0, 0, 0⟩ ⟨.val, 0, 1, 8⟩) := by
    simp only [filterAll, filterAt_upToEight]
    rfl
  refine ⟨fun _ f mem => ?_, ⟨?_, fun all' dom' ok => ?_⟩, fun all' dom' ok => ⟨trivial, fun all dom ok' => ?_⟩⟩
  · cases List.mem_singleton.mp mem
    exact fun null => null.elim nofun nofun
  · refine ⟨_, _, rfl, rfl, .inl rfl, ⟨by decide, by decide, .inr ⟨by decide, .inr (.inr (.inr ?_))⟩⟩, fun _ _ => trivial⟩
    exact ⟨by decide, fun _ _ => by decide⟩
  · cases once.symm.trans ok
    exact .inr (.inl rfl)
  · cases once.symm.trans ok
    cases ok'
    exact .inr (.inl rfl)

end Otawa.Clp.Problem
