import Otawa.Lib.Lru
import Otawa.Lib.Run

/-!
# Accesses to the data cache

The blocks of a program in a data cache, one collection for each cache set, and the
accesses of its instructions: to one block, to a range of sets or to any block.

The concrete side is what an access may do (`Access.Covers`): it touches one line of
one set, and the line is loaded, stored to or purged. The lines below the number of
blocks of a set are the blocks of its collection; a set may hold other lines.
-/

namespace Otawa.Dcache

open Otawa.Lru

/-- The blocks of one cache set, with their addresses. -/
structure BlockCollection where
  count : Nat
  address : Fin count → Nat

structure Block (colls : Nat → BlockCollection) where
  set : Nat
  index : Fin (colls set).count

/-- `action_t`; no access has the action `NONE`. -/
inductive Action where
  | load
  | store
  | purge
  deriving DecidableEq, Repr

/-- `kind_t`, with the data of each kind: a block, or the first and the last set of a range. -/
inductive Kind (colls : Nat → BlockCollection) where
  | any
  | block (b : Block colls)
  | range (first last : Nat)

structure BlockAccess (colls : Nat → BlockCollection) where
  action : Action
  kind : Kind colls

variable {colls : Nat → BlockCollection}

/-- The index of the block, if the block is in the set. -/
def Block.indexIn (b : Block colls) (set : Nat) : Option (Fin (colls set).count) :=
  if eq : b.set = set then some (eq ▸ b.index) else none

theorem Block.indexIn_eq_some {b : Block colls} {set : Nat} {id : Fin (colls set).count} :
    b.indexIn set = some id ↔ b.set = set ∧ (b.index : Nat) = id := by
  obtain ⟨set', index⟩ := b
  unfold indexIn
  constructor
  · intro eq
    split at eq
    case isTrue same =>
      cases same
      cases eq
      exact ⟨rfl, rfl⟩
    case isFalse => cases eq
  · rintro ⟨rfl, eq⟩
    exact (dif_pos rfl).trans (congrArg some (Fin.ext eq))

theorem Block.indexIn_eq_none {b : Block colls} {set : Nat} : b.indexIn set = none ↔ b.set ≠ set := by
  unfold indexIn
  split <;> simp_all

/-- `BlockAccess::inRange`. -/
def inRange (first last block : Nat) : Bool :=
  if first < last then first ≤ block && block ≤ last else block ≤ first || last ≤ block

/-! ### Concrete accesses -/

/-- The sets from the first one on up to the last one, around set 0 if need be. -/
def Spans (first last set : Nat) : Prop :=
  if first ≤ last then first ≤ set ∧ set ≤ last else first ≤ set ∨ set ≤ last

instance (first last set : Nat) : Decidable (Spans first last set) :=
  inferInstanceAs (Decidable (if first ≤ last then first ≤ set ∧ set ≤ last else first ≤ set ∨ set ≤ last))

/-- What an instruction does: an action on one line of one set. -/
structure Touch where
  action : Action
  set : Nat
  line : Nat
  deriving DecidableEq, Repr

/-- The access may touch this line. -/
def BlockAccess.Covers (acc : BlockAccess colls) (t : Touch) : Prop :=
  acc.action = t.action ∧ match acc.kind with
    | .any => True
    | .block b => t.set = b.set ∧ t.line = b.index
    | .range first last => Spans first last t.set

instance : ∀ (acc : BlockAccess colls) (t : Touch), Decidable (acc.Covers t)
  | ⟨action, .any⟩, t => inferInstanceAs (Decidable (action = t.action ∧ True))
  | ⟨action, .block b⟩, t => inferInstanceAs (Decidable (action = t.action ∧ t.set = b.set ∧ t.line = b.index))
  | ⟨action, .range first last⟩, t => inferInstanceAs (Decidable (action = t.action ∧ Spans first last t.set))

/-- The content of the set `set` after an action on some line. A store to a line that
is not there brings it in when the cache allocates on writes. -/
def touch {A : Nat} (allocate : Bool) (set : Nat) (s : LruSet Nat A) (t : Touch) : LruSet Nat A :=
  if t.set = set then
    match t.action with
    | .load => s.access t.line
    | .store => if allocate = true ∨ t.line ∈ s.lines then s.access t.line else s
    | .purge => s.remove t.line
  else s

theorem touch_of_ne {A : Nat} {allocate : Bool} {set : Nat} {s : LruSet Nat A} {t : Touch}
    (ne : t.set ≠ set) : touch allocate set s t = s :=
  if_neg ne

/-! ### Steps of an analysis -/

/-- An access, or the entry or the exit of a loop. -/
inductive Event (colls : Nat → BlockCollection) where
  | access (acc : BlockAccess colls)
  | enterContext
  | leaveContext

inductive Step where
  | touch (t : Touch)
  | enterContext
  | leaveContext
  deriving DecidableEq, Repr

def Event.Covers : Event colls → Step → Prop
  | .access acc, .touch t => acc.Covers t
  | .enterContext, .enterContext => True
  | .leaveContext, .leaveContext => True
  | _, _ => False

instance : ∀ (e : Event colls) (x : Step), Decidable (e.Covers x)
  | .access acc, .touch t => inferInstanceAs (Decidable (acc.Covers t))
  | .enterContext, .enterContext => inferInstanceAs (Decidable True)
  | .leaveContext, .leaveContext => inferInstanceAs (Decidable True)
  | .access _, .enterContext => inferInstanceAs (Decidable False)
  | .access _, .leaveContext => inferInstanceAs (Decidable False)
  | .enterContext, .touch _ => inferInstanceAs (Decidable False)
  | .enterContext, .leaveContext => inferInstanceAs (Decidable False)
  | .leaveContext, .touch _ => inferInstanceAs (Decidable False)
  | .leaveContext, .enterContext => inferInstanceAs (Decidable False)

/-- A step of an analysis that does not look at loops. -/
def Event.onAccess {State : Type} (update : State → BlockAccess colls → State) (d : State) :
    Event colls → State
  | .access acc => update d acc
  | .enterContext => d
  | .leaveContext => d

/-- A step of a cache; loops change nothing. -/
def Step.onTouch {Concrete : Type} (touch : Concrete → Touch → Concrete) (s : Concrete) : Step → Concrete
  | .touch t => touch s t
  | .enterContext => s
  | .leaveContext => s

theorem Event.Covers.rel {State Concrete : Type} {update : State → BlockAccess colls → State}
    {touch : Concrete → Touch → Concrete} {e : Event colls} {x : Step} (covers : e.Covers x)
    {Rel : State → Concrete → Prop} {d : State} {s : Concrete} (rel : Rel d s)
    (access : ∀ acc t, e = .access acc → x = .touch t → acc.Covers t → Rel (update d acc) (touch s t)) :
    Rel (e.onAccess update d) (x.onTouch touch s) := by
  cases e with
  | access acc =>
    cases x with
    | touch t => exact access acc t rfl rfl covers
    | enterContext => exact covers.elim
    | leaveContext => exact covers.elim
  | enterContext =>
    cases x with
    | touch t => exact covers.elim
    | enterContext => exact rel
    | leaveContext => exact covers.elim
  | leaveContext =>
    cases x with
    | touch t => exact covers.elim
    | enterContext => exact covers.elim
    | leaveContext => exact rel

/-- The content of the set `set` after some steps. -/
def after {A : Nat} (allocate : Bool) (set : Nat) (s : LruSet Nat A) (steps : List Step) : LruSet Nat A :=
  steps.foldl (Step.onTouch (touch allocate set)) s

end Otawa.Dcache
