import Mathlib.Data.List.Basic
import Mathlib.Data.List.Induction

/-!
# Scopes along a path

A path enters scopes, leaves the innermost one, and acts. `opened` keeps the scopes that
are open with what has been done in each since it was entered; what is done is done in
all of them.

The scopes of a program are nested by a function `enclosing`; an action of the program
takes place inside the scopes around it when these are the innermost ones open
(`Inside`).
-/

namespace Otawa.Scopes

variable {Scope Act : Type}

inductive Step (Scope Act : Type) where
  | act (a : Act)
  | enter (h : Scope)
  | leave
  deriving DecidableEq, Repr

/-- The open scopes after a step, the innermost one first. -/
def Step.onOpened (stack : List (Scope × List Act)) : Step Scope Act → List (Scope × List Act)
  | .act a => stack.map fun o => (o.1, a :: o.2)
  | .enter h => (h, []) :: stack
  | .leave => stack.tail

/-- The scopes open after a path, with what was done in each, the last action first. -/
def opened (path : List (Step Scope Act)) : List (Scope × List Act) := path.foldl Step.onOpened []

theorem opened_append (path : List (Step Scope Act)) (e : Step Scope Act) :
    opened (path ++ [e]) = e.onOpened (opened path) := by
  unfold opened
  rw [List.foldl_append]
  rfl

/-- An action has been done in every open scope that was not entered after it. -/
theorem mem_of_opened {pre mid : List (Step Scope Act)} {a : Act} {h : Scope} {l : List Act} {p : Nat}
    (kept : .enter h ∉ mid) (at_p : (opened (pre ++ .act a :: mid))[p]? = some (h, l)) : a ∈ l := by
  induction mid using List.reverseRecOn generalizing p l with
  | nil =>
    rw [opened_append, Step.onOpened, List.getElem?_map] at at_p
    obtain ⟨o, -, eq⟩ := Option.map_eq_some_iff.mp at_p
    cases eq
    exact List.mem_cons_self
  | append_singleton mid e ih =>
    rw [← List.cons_append, ← List.append_assoc, opened_append] at at_p
    have kept' : .enter h ∉ mid := fun mem => kept (List.mem_append_left _ mem)
    cases e with
    | act a' =>
      rw [Step.onOpened, List.getElem?_map] at at_p
      obtain ⟨o, at_p', eq⟩ := Option.map_eq_some_iff.mp at_p
      cases eq
      exact List.mem_cons_of_mem _ (ih kept' at_p')
    | enter h' =>
      cases p with
      | zero =>
        cases Option.some.inj at_p
        exact absurd (List.mem_append_right mid List.mem_cons_self) kept
      | succ p => exact ih kept' at_p
    | leave =>
      rw [Step.onOpened, List.getElem?_tail] at at_p
      exact ih kept' at_p

/-- The scopes around a place are the innermost ones of a stack. -/
inductive Inside (enclosing : Scope → Option Scope) : Option Scope → List Scope → Prop where
  | outside (stack : List Scope) : Inside enclosing none stack
  | within {h : Scope} {stack : List Scope} (up : Inside enclosing (enclosing h) stack) :
      Inside enclosing (some h) (h :: stack)

/-- The scope around a place is on top, and the ones around it are below. -/
theorem Inside.drop {enclosing : Scope → Option Scope} {h : Scope} {stack : List Scope} {q : Nat}
    (inside : Inside enclosing (some h) (stack.drop q)) :
    stack[q]? = some h ∧ Inside enclosing (enclosing h) (stack.drop (q + 1)) := by
  cases eq : stack.drop q with
  | nil =>
    rw [eq] at inside
    cases inside
  | cons g rest =>
    rw [eq] at inside
    obtain ⟨⟩ | ⟨up⟩ := inside
    have top : (stack.drop q)[0]? = some h := by rw [eq]; rfl
    have below : stack.drop (q + 1) = rest := by
      rw [← List.drop_drop, eq]
      rfl
    rw [List.getElem?_drop] at top
    exact ⟨top, below ▸ up⟩

end Otawa.Scopes
