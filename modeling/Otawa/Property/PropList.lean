import Otawa.Lib.MoveToFront
import Mathlib.Data.List.Nodup

/-!
# Property lists

A `PropList` holds for each identifier a stack of values, the latest one first. `getProp` moves the property that it
finds to the head, which changes no stack, and a `Getter` that such look-ups come between gives each property of its
identifier once. `runs_refine`: the runs of the operations, where `setProp` meets one value of its identifier at most and
`addProps` adds the values of the other list in reverse order, as it is documented.
-/

namespace Otawa.Props

open MoveToFront

/-- A property is known by its address. -/
structure Property (I V : Type) where
  address : ℕ
  id : I
  value : V
  deriving DecidableEq

/-- The properties from `head` on. -/
abbrev PropList (I V : Type) := List (Property I V)

variable {I V : Type} [DecidableEq I]

namespace PropList

def isId (id : I) (prop : Property I V) : Bool :=
  prop.id = id

def addProp (props : PropList I V) (prop : Property I V) : PropList I V :=
  prop :: props

/-- The new list has the addresses from `fresh` on. -/
def addProps (props : PropList I V) (fresh : ℕ) (source : PropList I V) : PropList I V × ℕ :=
  source.foldl (fun acc cur => (acc.1.addProp { cur with address := acc.2 }, acc.2 + 1)) (props, fresh)

/-- The property that is found is the head afterwards. -/
def getProp (props : PropList I V) (id : I) : Option (Property I V) × PropList I V :=
  (props.find? (isId id), moveToFront (isId id) props)

def hasProp (props : PropList I V) (id : I) : Bool :=
  (props.getProp id).1.isSome

/-- The first property of the identifier is unlinked, if any. -/
def setProp (props : PropList I V) (prop : Property I V) : PropList I V :=
  prop :: props.eraseP (isId prop.id)

def removeProp (props : PropList I V) (id : I) : PropList I V :=
  props.eraseP (isId id)

def extractProp (props : PropList I V) (id : I) : Option (Property I V) × PropList I V :=
  (props.find? (isId id), props.eraseP (isId id))

/-- The loop over the list, with `prv` given by the recursion. -/
def removeAllProp (props : PropList I V) (id : I) : PropList I V :=
  match props with
  | [] => []
  | cur :: next => if isId id cur then removeAllProp next id else cur :: removeAllProp next id

/-- The address of the current property of a `Getter`; `none` when it is ended. -/
abbrev Getter := Option ℕ

def look (props : PropList I V) (id : I) : Getter :=
  (props.find? (isId id)).map Property.address

def next (props : PropList I V) (id : I) (getter : Getter) : Getter :=
  getter.bind fun address => look (fromKey Property.address address props).tail id

/-- The properties that a `Getter` gives from its current one on, in a loop with `steps` tests at most. -/
def items (props : PropList I V) (id : I) : ℕ → Getter → Option (List ℕ)
  | 0, _ => none
  | _ + 1, none => some []
  | steps + 1, some address => (props.items id steps (props.next id (some address))).map (address :: ·)

/-- The values of an identifier. -/
def values (props : PropList I V) (id : I) : List V :=
  (props.filter (isId id)).map Property.value

variable {props source rest before : PropList I V} {prop : Property I V} {id k : I} {fresh : ℕ} {getter : Getter}
  {given : List ℕ}

/-! ### The values of an identifier -/

@[simp] theorem isId_iff : isId id prop = true ↔ prop.id = id := decide_eq_true_iff

theorem isId_ne (h : k ≠ id) (prop : Property I V) (hprop : isId id prop = true) : isId k prop = false :=
  decide_eq_false fun heq => h (heq.symm.trans (isId_iff.mp hprop))

theorem values_cons (prop : Property I V) (props : PropList I V) (k : I) :
    values (prop :: props) k = if k = prop.id then prop.value :: values props k else values props k := by
  unfold values
  split
  case isTrue h => rw [List.filter_cons_of_pos (isId_iff.mpr h.symm), List.map_cons]
  case isFalse h => rw [List.filter_cons_of_neg fun heq => h (isId_iff.mp heq).symm]

section

variable (props : PropList I V)

theorem values_eraseP (id k : I) :
    values (props.eraseP (isId id)) k = if k = id then (values props k).tail else values props k := by
  unfold values
  split
  case isTrue h => rw [h, filter_eraseP, List.map_tail]
  case isFalse h => rw [filter_eraseP_of_ne (isId_ne h)]

theorem values_getProp (id k : I) : values (props.getProp id).2 k = values props k := by
  unfold values getProp
  by_cases h : k = id
  · rw [h, filter_moveToFront]
  · rw [filter_moveToFront_of_ne (isId_ne h)]

theorem value_getProp (id : I) : (props.getProp id).1.map Property.value = (values props id).head? := by
  rw [values, List.head?_map, List.head?_filter]
  rfl

theorem removeAllProp_eq (id : I) : props.removeAllProp id = props.filter fun prop => !isId id prop := by
  induction props with
  | nil => rfl
  | cons cur next ih =>
    rw [removeAllProp, ih]
    cases h : isId id cur with
    | true => rw [if_pos rfl, List.filter_cons_of_neg (by simp [h])]
    | false => rw [if_neg Bool.false_ne_true, List.filter_cons_of_pos (by simp [h])]

theorem values_removeAllProp (id k : I) :
    values (props.removeAllProp id) k = if k = id then [] else values props k := by
  rw [removeAllProp_eq, values, List.filter_filter]
  split
  case isTrue h =>
    rw [h, List.filter_eq_nil_iff.mpr fun prop _ => by simp, List.map_nil]
  case isFalse h =>
    rw [values]
    congr 1
    refine List.filter_congr fun prop _ => ?_
    cases hk : isId k prop with
    | false => rfl
    | true => simp [isId_ne (Ne.symm h) prop hk]

end

/-! ### The addresses -/

/-- The addresses are different, and below the next one. -/
structure Allocated (props : PropList I V) (fresh : ℕ) : Prop where
  nodup : (props.map Property.address).Nodup
  lt : ∀ prop ∈ props, prop.address < fresh

section

variable (h : Allocated props fresh)
include h

section

omit [DecidableEq I]

theorem Allocated.addProp (id : I) (value : V) :
    Allocated (props.addProp ⟨fresh, id, value⟩) (fresh + 1) where
  nodup := by
    refine List.nodup_cons.mpr ⟨fun hmem => ?_, h.nodup⟩
    obtain ⟨prop, hprop, heq⟩ := List.mem_map.mp hmem
    exact absurd (h.lt prop hprop) (by rw [heq]; exact Nat.lt_irrefl fresh)
  lt prop hprop := by
    rcases List.mem_cons.mp hprop with rfl | hprop
    · exact Nat.lt_succ_self fresh
    · exact Nat.lt_succ_of_lt (h.lt prop hprop)

theorem Allocated.sublist (hsub : source.Sublist props) : Allocated source fresh :=
  ⟨h.nodup.sublist (hsub.map _), fun prop hprop => h.lt prop (hsub.mem hprop)⟩

theorem Allocated.perm (hperm : source.Perm props) : Allocated source fresh :=
  ⟨(hperm.map _).nodup_iff.mpr h.nodup, fun prop hprop => h.lt prop (hperm.mem_iff.mp hprop)⟩

end

theorem Allocated.addProps (source : PropList I V) :
    Allocated (props.addProps fresh source).1 (props.addProps fresh source).2 ∧
      ∀ k, values (props.addProps fresh source).1 k = (values source k).reverse ++ values props k := by
  unfold PropList.addProps
  induction source generalizing props fresh with
  | nil => exact ⟨h, fun _ => rfl⟩
  | cons cur source ih =>
    obtain ⟨halloc, hvalues⟩ := ih (h.addProp cur.id cur.value)
    refine ⟨halloc, fun k => ?_⟩
    rw [List.foldl_cons, hvalues, PropList.addProp, values_cons, values_cons]
    dsimp only
    split
    case isTrue => rw [List.reverse_cons, List.append_assoc, List.singleton_append]
    case isFalse => rfl

end

/-! ### Getters -/

/-- The properties of the identifier that are to come after the current one. -/
def pending (props : PropList I V) (id : I) : Getter → List ℕ
  | none => []
  | some address => ((fromKey Property.address address props).tail.filter (isId id)).map Property.address

/-- A getter and the properties that it has given. -/
structure Live (props : PropList I V) (id : I) (getter : Getter) (given : List ℕ) : Prop where
  current : ∀ address, getter = some address →
    ∃ before prop rest, props = before ++ prop :: rest ∧ prop.address = address ∧ prop.id = id
  perm : (given ++ props.pending id getter).Perm ((props.filter (isId id)).map Property.address)

section

variable (hnodup : (props.map Property.address).Nodup)
include hnodup

theorem look_spec (id : I) (rest : PropList I V)
    (hrest : rest.IsSuffix props) :
    (rest.look id).toList ++ props.pending id (rest.look id) = (rest.filter (isId id)).map Property.address ∧
      ∀ address, rest.look id = some address →
        ∃ before prop rest, props = before ++ prop :: rest ∧ prop.address = address ∧ prop.id = id := by
  obtain ⟨before, rfl⟩ := hrest
  rcases splits_or_none (isId id) rest with ⟨pre, prop, post, hsplit⟩ | hnone
  · have hlook : rest.look id = some prop.address := by rw [look, hsplit.find?, Option.map_some]
    have heq : before ++ rest = (before ++ pre) ++ prop :: post := by rw [hsplit.eq, List.append_assoc]
    rw [hlook]
    constructor
    · have hpre : pre.filter (isId id) = [] := List.filter_eq_nil_iff.mpr fun b hb => by simp [hsplit.before b hb]
      rw [heq] at hnodup ⊢
      rw [pending, fromKey_of_split hnodup, hsplit.eq, List.filter_append, hpre, List.nil_append,
        List.filter_cons_of_pos hsplit.holds]
      rfl
    · rintro address ⟨⟩
      exact ⟨before ++ pre, prop, post, heq, rfl, isId_iff.mp hsplit.holds⟩
  · have hlook : rest.look id = none := by
      rw [look, List.find?_eq_none.mpr fun b hb => by simp [hnone b hb], Option.map_none]
    have hnil : rest.filter (isId id) = [] := List.filter_eq_nil_iff.mpr fun b hb => by simp [hnone b hb]
    rw [hlook, hnil]
    exact ⟨rfl, nofun⟩

theorem live_look (id : I) : Live props id (props.look id) (props.look id).toList := by
  obtain ⟨hkeys, hcurrent⟩ := look_spec hnodup id props List.suffix_rfl
  exact ⟨hcurrent, by rw [hkeys]⟩

section

variable (hlive : Live props id getter given)
include hlive

theorem next_spec :
    (props.next id getter).toList ++ props.pending id (props.next id getter) = props.pending id getter ∧
      ∀ address, props.next id getter = some address →
        ∃ before prop rest, props = before ++ prop :: rest ∧ prop.address = address ∧ prop.id = id := by
  cases getter with
  | none => exact ⟨rfl, nofun⟩
  | some address =>
    refine look_spec hnodup id _ ?_
    exact (List.tail_suffix _).trans (List.dropWhile_suffix _)

theorem Live.next : Live props id (props.next id getter) (given ++ (props.next id getter).toList) := by
  obtain ⟨hkeys, hcurrent⟩ := next_spec hnodup hlive
  refine ⟨hcurrent, ?_⟩
  rw [List.append_assoc, hkeys]
  exact hlive.perm

theorem items_eq (n : ℕ)
    (hn : (getter.toList ++ props.pending id getter).length ≤ n) :
    props.items id (n + 1) getter = some (getter.toList ++ props.pending id getter) := by
  induction n generalizing getter given with
  | zero =>
    cases getter with
    | none => rfl
    | some address => simp at hn
  | succ n ih =>
    cases getter with
    | none => rfl
    | some address =>
      have hkeys := (next_spec hnodup hlive).1
      have hlength : ((props.next id (some address)).toList ++
          props.pending id (props.next id (some address))).length ≤ n := by
        rw [hkeys]
        simpa using hn
      rw [items, ih (hlive.next hnodup) hlength, hkeys]
      rfl

/-- A look-up moves no property of the identifier from before the current one to after it, or back. -/
theorem pending_getProp (k : I) : (props.getProp k).2.pending id getter = props.pending id getter := by
  cases getter with
  | none => rfl
  | some address =>
    obtain ⟨before, prop, rest, rfl, rfl, rfl⟩ := hlive.current address rfl
    have hmoved : ((moveToFront (isId k) (before ++ prop :: rest)).map Property.address).Nodup :=
      ((moveToFront_perm (isId k) _).map _).nodup_iff.mpr hnodup
    rw [pending, pending, fromKey_of_split hnodup, List.tail_cons]
    change ((fromKey _ _ (moveToFront (isId k) (before ++ prop :: rest))).tail.filter _).map _ = _
    rcases splits_or_none (isId k) before with ⟨pre, a, post, hsplit⟩ | hnone
    · have ha : ∃ b ∈ before, isId k b = true := ⟨a, hsplit.eq ▸ List.mem_append_right pre List.mem_cons_self, hsplit.holds⟩
      rw [moveToFront_append_of_mem ha] at hmoved ⊢
      rw [fromKey_of_split hmoved, List.tail_cons]
    · by_cases hk : prop.id = k
      · -- the current property is the first one of its identifier
        subst hk
        have hsplit : Splits (isId prop.id) (before ++ prop :: rest) before prop rest := ⟨rfl, hnone, isId_iff.mpr rfl⟩
        have hbefore : before.filter (isId prop.id) = [] :=
          List.filter_eq_nil_iff.mpr fun b hb => by simp [hnone b hb]
        rw [hsplit.moveToFront] at hmoved ⊢
        rw [← List.nil_append (prop :: (before ++ rest)), fromKey_of_split hmoved, List.tail_cons, List.filter_append,
          hbefore, List.nil_append]
      · have hprop : isId k prop = false := Bool.eq_false_iff.mpr fun heq => hk (isId_iff.mp heq)
        rcases splits_or_none (isId k) rest with ⟨pre, a, post, hsplit⟩ | hnone'
        · have hsplit' : Splits (isId k) (before ++ prop :: rest) (before ++ prop :: pre) a post := by
            refine ⟨by rw [hsplit.eq, List.append_assoc, List.cons_append], fun b hb => ?_, hsplit.holds⟩
            rcases List.mem_append.mp hb with hb | hb
            · exact hnone b hb
            · rcases List.mem_cons.mp hb with rfl | hb
              · exact hprop
              · exact hsplit.before b hb
          have heq : a :: (before ++ prop :: pre ++ post) = (a :: before) ++ prop :: (pre ++ post) := by simp
          rw [hsplit'.moveToFront, heq] at hmoved ⊢
          rw [fromKey_of_split hmoved, List.tail_cons, ← hsplit.eraseP, filter_eraseP_of_ne (isId_ne hk)]
        · have hall : ∀ b ∈ before ++ prop :: rest, isId k b = false := by
            intro b hb
            rcases List.mem_append.mp hb with hb | hb
            · exact hnone b hb
            · rcases List.mem_cons.mp hb with rfl | hb
              · exact hprop
              · exact hnone' b hb
          rw [moveToFront_of_none hall, fromKey_of_split hnodup, List.tail_cons]

theorem Live.getProp (k : I) : Live (props.getProp k).2 id getter given := by
  have hperm : (props.getProp k).2.Perm props := moveToFront_perm (isId k) props
  constructor
  · intro address heq
    obtain ⟨before, prop, rest, hprops, haddress, hid⟩ := hlive.current address heq
    have hmem : prop ∈ (props.getProp k).2 := by
      rw [hperm.mem_iff, hprops]
      exact List.mem_append_right before List.mem_cons_self
    obtain ⟨before', rest', hsplit⟩ := List.append_of_mem hmem
    exact ⟨before', prop, rest', hsplit, haddress, hid⟩
  · rw [pending_getProp hnodup hlive]
    exact hlive.perm.trans ((hperm.filter _).map _).symm

end

end

/-! ### Runs -/

/-- A list, the next address, the stacks that the list stands for, and a getter with the properties that it has given. -/
structure Session (I V : Type) where
  props : PropList I V
  fresh : ℕ
  stackOf : I → List V
  live : Option (I × Getter × List ℕ)

inductive Op (I V : Type) where
  | addProp (id : I) (value : V)
  | setProp (id : I) (value : V)
  | removeProp (id : I)
  | extractProp (id : I)
  | removeAllProp (id : I)
  | addProps (source : PropList I V)
  | clearProps
  | getProp (id : I)
  | hasProp (id : I)
  | getter (id : I)
  | next

/-- A getter does not survive a change of the list. -/
def apply (s : Session I V) : Op I V → Session I V
  | .addProp id value =>
      ⟨s.props.addProp ⟨s.fresh, id, value⟩, s.fresh + 1, Function.update s.stackOf id (value :: s.stackOf id), none⟩
  | .setProp id value => ⟨s.props.setProp ⟨s.fresh, id, value⟩, s.fresh + 1, Function.update s.stackOf id [value], none⟩
  | .removeProp id => ⟨s.props.removeProp id, s.fresh, Function.update s.stackOf id (s.stackOf id).tail, none⟩
  | .extractProp id => ⟨(s.props.extractProp id).2, s.fresh, Function.update s.stackOf id (s.stackOf id).tail, none⟩
  | .removeAllProp id => ⟨s.props.removeAllProp id, s.fresh, Function.update s.stackOf id [], none⟩
  | .addProps source =>
      ⟨(s.props.addProps s.fresh source).1, (s.props.addProps s.fresh source).2,
        fun id => (source.values id).reverse ++ s.stackOf id, none⟩
  | .clearProps => ⟨[], s.fresh, fun _ => [], none⟩
  | .getProp id => { s with props := (s.props.getProp id).2 }
  | .hasProp id => { s with props := (s.props.getProp id).2 }
  | .getter id => { s with live := some (id, s.props.look id, (s.props.look id).toList) }
  | .next => { s with live := s.live.map fun (id, getter, given) =>
      (id, s.props.next id getter, given ++ (s.props.next id getter).toList) }

def run (s : Session I V) (ops : List (Op I V)) : Session I V :=
  ops.foldl apply s

def Session.empty : Session I V :=
  ⟨[], 0, fun _ => [], none⟩

/-- `setProp` meets one value of its identifier at most. -/
def Admits (s : Session I V) : Op I V → Prop
  | .setProp id _ => (s.stackOf id).length ≤ 1
  | _ => True

def Admitted (s : Session I V) : List (Op I V) → Prop
  | [] => True
  | op :: ops => Admits s op ∧ Admitted (apply s op) ops

/-- The list stands for the stacks, and the getters give each property of their identifier once. -/
structure Refines (s : Session I V) : Prop where
  values : ∀ id, s.props.values id = s.stackOf id
  getProp : ∀ id, (s.props.getProp id).1.map Property.value = (s.stackOf id).head?
  hasProp : ∀ id, s.props.hasProp id = (s.stackOf id).head?.isSome
  extractProp : ∀ id, (s.props.extractProp id).1.map Property.value = (s.stackOf id).head?
  getter : ∀ id, ∃ steps, s.props.items id steps (s.props.look id) =
    some ((s.props.filter (isId id)).map Property.address)
  given : ∀ id getter given, s.live = some (id, getter, given) → given.Nodup ∧
    (∀ address ∈ given, ∃ prop ∈ s.props, prop.id = id ∧ prop.address = address) ∧
    (getter = none → ∀ prop ∈ s.props, prop.id = id → prop.address ∈ given)

/-- What the steps keep. -/
structure Sound (s : Session I V) : Prop where
  allocated : Allocated s.props s.fresh
  values : ∀ id, s.props.values id = s.stackOf id
  live : ∀ id getter given, s.live = some (id, getter, given) → Live s.props id getter given

variable {s : Session I V}

theorem Sound.apply (h : Sound s) {op : Op I V} (hadmits : Admits s op) : Sound (apply s op) := by
  have hlookup : ∀ k, Sound { s with props := (s.props.getProp k).2 } := fun k =>
    ⟨h.allocated.perm (moveToFront_perm _ _), fun id => (values_getProp s.props k id).trans (h.values id),
      fun id getter given hs => (h.live id getter given hs).getProp h.allocated.nodup k⟩
  have hremove : ∀ k, Sound ⟨s.props.eraseP (isId k), s.fresh, Function.update s.stackOf k (s.stackOf k).tail, none⟩ := by
    refine fun k => ⟨h.allocated.sublist List.eraseP_sublist, fun id => ?_, nofun⟩
    dsimp only
    rw [values_eraseP, h.values]
    split
    case isTrue heq => rw [heq, Function.update_self]
    case isFalse hne => rw [Function.update_of_ne hne]
  cases op with
  | addProp k value =>
    refine ⟨h.allocated.addProp k value, fun id => ?_, nofun⟩
    rw [PropList.apply, PropList.addProp, values_cons, h.values]
    dsimp only
    split
    case isTrue heq => rw [heq, Function.update_self]
    case isFalse hne => rw [Function.update_of_ne hne]
  | setProp k value =>
    refine ⟨(h.allocated.sublist List.eraseP_sublist).addProp k value, fun id => ?_, nofun⟩
    rw [PropList.apply, PropList.setProp, values_cons, values_eraseP, h.values]
    dsimp only
    split
    case isTrue heq =>
      have hlength : (s.stackOf k).length ≤ 1 := hadmits
      have htail : (s.stackOf k).tail = [] := List.eq_nil_of_length_eq_zero (by rw [List.length_tail]; omega)
      rw [heq, Function.update_self, htail]
    case isFalse hne => rw [Function.update_of_ne hne]
  | removeProp k => exact hremove k
  | extractProp k => exact hremove k
  | removeAllProp k =>
    refine ⟨?_, fun id => ?_, nofun⟩
    · rw [PropList.apply, removeAllProp_eq]
      exact h.allocated.sublist List.filter_sublist
    · rw [PropList.apply, values_removeAllProp, h.values]
      dsimp only
      split
      case isTrue heq => rw [heq, Function.update_self]
      case isFalse hne => rw [Function.update_of_ne hne]
  | addProps source =>
    obtain ⟨halloc, hvalues⟩ := h.allocated.addProps source
    refine ⟨halloc, fun id => ?_, nofun⟩
    rw [PropList.apply, hvalues, h.values]
  | clearProps => exact ⟨⟨List.nodup_nil, fun _ hprop => absurd hprop List.not_mem_nil⟩, fun _ => rfl, nofun⟩
  | getProp k => exact hlookup k
  | hasProp k => exact hlookup k
  | getter k =>
    refine ⟨h.allocated, h.values, ?_⟩
    rintro id getter given ⟨⟩
    exact live_look h.allocated.nodup k
  | next =>
    refine ⟨h.allocated, h.values, fun id getter given hs => ?_⟩
    cases hlive : s.live with
    | none =>
      rw [PropList.apply, hlive] at hs
      cases hs
    | some current =>
      rw [PropList.apply, hlive] at hs
      cases hs
      exact (h.live _ _ _ hlive).next h.allocated.nodup

theorem Sound.refines (h : Sound s) : Refines s where
  values := h.values
  getProp id := by rw [value_getProp, h.values]
  hasProp id := by rw [← h.values id, ← value_getProp, Option.isSome_map, PropList.hasProp]
  extractProp id := by
    rw [← h.values id, ← value_getProp]
    rfl
  getter id := by
    have hlive := live_look h.allocated.nodup id
    refine ⟨_, (items_eq h.allocated.nodup hlive _ (Nat.le_refl _)).trans ?_⟩
    rw [(look_spec h.allocated.nodup id s.props List.suffix_rfl).1]
  given id getter given hs := by
    have hperm := (h.live id getter given hs).perm
    have hnodup : ((s.props.filter (isId id)).map Property.address).Nodup :=
      h.allocated.nodup.sublist (List.filter_sublist.map _)
    refine ⟨(hperm.nodup_iff.mpr hnodup).of_append_left, fun address haddress => ?_, ?_⟩
    · obtain ⟨prop, hprop, rfl⟩ := List.mem_map.mp (hperm.mem_iff.mp (List.mem_append_left _ haddress))
      obtain ⟨hmem, hid⟩ := List.mem_filter.mp hprop
      exact ⟨prop, hmem, isId_iff.mp hid, rfl⟩
    · rintro rfl prop hprop hid
      rw [pending, List.append_nil] at hperm
      exact hperm.mem_iff.mpr (List.mem_map_of_mem (List.mem_filter.mpr ⟨hprop, isId_iff.mpr hid⟩))

theorem Sound.run (h : Sound s) (ops : List (Op I V)) (hadmitted : Admitted s ops) : Sound (run s ops) := by
  induction ops generalizing s with
  | nil => exact h
  | cons op ops ih => exact ih (h.apply hadmitted.1) hadmitted.2

/-- The list after each run from an empty one in which `setProp` meets one value at most. -/
theorem runs_refine (ops : List (Op I V)) (hadmitted : Admitted Session.empty ops) :
    Refines (run Session.empty ops) := by
  have hempty : Sound (Session.empty : Session I V) :=
    ⟨⟨List.nodup_nil, fun _ hprop => absurd hprop List.not_mem_nil⟩, fun _ => rfl, nofun⟩
  exact (hempty.run ops hadmitted).refines

/-- Two values of an identifier, a getter with look-ups, and a list that is added. -/
theorem runs_refine_interleaved : Refines (run Session.empty
    [.addProp 0 10, .addProp 1 11, .addProp 0 12, .getter 0, .getProp 1, .next, .getProp 0, .next, .removeProp 0,
      .addProps [⟨0, 1, 13⟩, ⟨1, 1, 14⟩], .setProp 0 15]) :=
  runs_refine _ (by simp [Admitted, Admits, apply, Session.empty, values])

/-- The values of a list that is added come in reverse order, and `setProp` leaves the second value of its identifier. -/
theorem addProps_reversed :
    (run Session.empty [.addProps [⟨0, 0, 10⟩, ⟨1, 0, 11⟩]]).props.values 0 = [11, 10] ∧
      values [⟨0, 0, 10⟩, ⟨1, 0, 11⟩] 0 = [10, 11] ∧
      (run Session.empty [.addProp 0 10, .addProp 0 11, .setProp 0 12]).props.values 0 = [12, 10] := by
  decide

end PropList

end Otawa.Props
