import Mathlib.Data.List.Forall2

/-!
# Runs of an abstract analysis

A data-flow analysis reaches its states by applying transfer steps and by joining
states reached along different paths. A `Run` is the tree of these operations; its
leaves are the start of a path or an unreached path. `Run.histories` are the
sequences of concrete events the run joins, and `Run.eval` is the abstract state
it reaches in a given `Transfer`.

`Run.sound` is the proof rule for analyses: a relation between abstract and
concrete states that holds at the start, follows every step and survives a join on
either side holds between the state a run reaches and every history it joins.
Steps and joins may be restricted to those that satisfy a condition
(`Run.Within`), which is then available to the step and join obligations.
-/

namespace Otawa.Analysis

/-- The tree of steps and joins that leads to one abstract state. -/
inductive Run (Event : Type) where
  | start
  | unreached
  | step (r : Run Event) (e : Event)
  | join (r r' : Run Event)
  deriving Repr, DecidableEq

/-- The operations of an abstract domain that a run uses. -/
structure Transfer (State Event : Type) where
  entry : State
  bottom : State
  step : State → Event → State
  join : State → State → State

namespace Run

variable {State Event Concrete : Type}

/-- The concrete histories a run joins, oldest event first. -/
def histories : Run Event → List (List Event)
  | .start => [[]]
  | .unreached => []
  | .step r e => r.histories.map (· ++ [e])
  | .join r r' => r.histories ++ r'.histories

/-- The abstract state a run reaches. -/
def eval (T : Transfer State Event) : Run Event → State
  | .start => T.entry
  | .unreached => T.bottom
  | .step r e => T.step (r.eval T) e
  | .join r r' => T.join (r.eval T) (r'.eval T)

/-- Every step and every join of the run is taken in a state that allows it. -/
def Within (T : Transfer State Event) (allowStep : State → Event → Prop)
    (allowJoin : State → State → Prop) : Run Event → Prop
  | .start => True
  | .unreached => True
  | .step r e => r.Within T allowStep allowJoin ∧ allowStep (r.eval T) e
  | .join r r' => r.Within T allowStep allowJoin ∧ r'.Within T allowStep allowJoin ∧
      allowJoin (r.eval T) (r'.eval T)

/-- `Within` is decided along the tree when its two conditions are decidable. -/
instance decidableWithin (T : Transfer State Event) (allowStep : State → Event → Prop)
    (allowJoin : State → State → Prop) [∀ a e, Decidable (allowStep a e)]
    [∀ a b, Decidable (allowJoin a b)] : ∀ r : Run Event, Decidable (r.Within T allowStep allowJoin)
  | .start => inferInstanceAs (Decidable True)
  | .unreached => inferInstanceAs (Decidable True)
  | .step r _ =>
      have := decidableWithin T allowStep allowJoin r
      inferInstanceAs (Decidable (_ ∧ _))
  | .join r r' =>
      have := decidableWithin T allowStep allowJoin r
      have := decidableWithin T allowStep allowJoin r'
      inferInstanceAs (Decidable (_ ∧ _ ∧ _))

variable {T : Transfer State Event}

section

variable {allowStep : State → Event → Prop} {allowJoin : State → State → Prop}

/-- A run without restrictions. -/
theorem within_of_forall (step : ∀ a e, allowStep a e) (join : ∀ a b, allowJoin a b) (r : Run Event) :
    r.Within T allowStep allowJoin := by
  induction r with
  | start => trivial
  | unreached => trivial
  | step r e ih => exact ⟨ih, step _ e⟩
  | join r r' ih ih' => exact ⟨ih, ih', join _ _⟩

section

variable (Inv : State → Prop) (entry : Inv T.entry) (bottom : Inv T.bottom)
  (step : ∀ a e, Inv a → allowStep a e → Inv (T.step a e))
  (join : ∀ a b, Inv a → Inv b → allowJoin a b → Inv (T.join a b)) {r : Run Event}
  (within : r.Within T allowStep allowJoin)
include entry bottom step join within

/-- A property of abstract states alone, kept by every step and join a run takes. -/
theorem invariant : Inv (r.eval T) := by
  induction r with
  | start => exact entry
  | unreached => exact bottom
  | step r e ih => exact step _ e (ih within.1) within.2
  | join r r' ih ih' => exact join _ _ (ih within.1) (ih' within.2.1) within.2.2

/-- The states a run goes through have the properties that its steps and joins keep. -/
theorem Within.of_invariant :
    r.Within T (fun a e => Inv a ∧ allowStep a e) allowJoin := by
  induction r with
  | start => trivial
  | unreached => trivial
  | step r e ih =>
    exact ⟨ih within.1, invariant Inv entry bottom step join within.1, within.2⟩
  | join r r' ih ih' => exact ⟨ih within.1, ih' within.2.1, within.2.2⟩

end

end

/-- The runs that a run is made of, up to itself. -/
inductive Part : Run Event → Run Event → Prop where
  | refl (r : Run Event) : Part r r
  | step {p r : Run Event} (e : Event) : Part p r → Part p (.step r e)
  | left {p r : Run Event} (r' : Run Event) : Part p r → Part p (.join r r')
  | right {p r' : Run Event} (r : Run Event) : Part p r' → Part p (.join r r')

/-- A property of all states that a run goes through holds exactly where each step keeps it. -/
theorem forall_part_iff {allowStep : State → Event → Prop} (Inv : State → Prop) (entry : Inv T.entry)
    (bottom : Inv T.bottom) (step : ∀ a e, Inv a → (Inv (T.step a e) ↔ allowStep a e))
    (join : ∀ a b, Inv a → Inv b → Inv (T.join a b)) (r : Run Event) :
    (∀ p, Part p r → Inv (p.eval T)) ↔ r.Within T allowStep fun _ _ => True := by
  constructor
  · intro holds
    induction r with
    | start => trivial
    | unreached => trivial
    | step r e ih =>
      refine ⟨ih fun p part => holds p (.step e part), ?_⟩
      exact (step _ e (holds r (.step e (.refl r)))).mp (holds (.step r e) (.refl _))
    | join r r' ih ih' =>
      exact ⟨ih fun p part => holds p (.left r' part), ih' fun p part => holds p (.right r part), trivial⟩
  · intro within p part
    have sound : ∀ {r : Run Event}, r.Within T allowStep (fun _ _ => True) → Inv (r.eval T) := fun within =>
      invariant Inv entry bottom (fun a e holds allowed => (step a e holds).mpr allowed)
        (fun a b left right _ => join a b left right) within
    induction part with
    | refl => exact sound within
    | step e _ ih => exact ih within.1
    | left r' _ ih => exact ih within.1
    | right r _ ih => exact ih within.2.1

/-- The run along one path. -/
def line (h : List Event) : Run Event :=
  h.foldl .step .start

theorem line_concat (h : List Event) (e : Event) : line (h ++ [e]) = .step (line h) e := by
  rw [line, List.foldl_append]
  rfl

/-- The proof rule for analyses: `Rel` relates the abstract state of a run to the
concrete state after each history the run joins, from whichever concrete state the
histories start. -/
theorem sound {allowStep : State → Event → Prop} {allowJoin : State → State → Prop}
    (Rel : State → Concrete → Prop) (advance : Concrete → Event → Concrete) (init : Concrete)
    (entry : Rel T.entry init)
    (step : ∀ a k e, Rel a k → allowStep a e → Rel (T.step a e) (advance k e))
    (join_left : ∀ a b k, Rel a k → allowJoin a b → Rel (T.join a b) k)
    (join_right : ∀ a b k, Rel b k → allowJoin a b → Rel (T.join a b) k)
    {r : Run Event} (within : r.Within T allowStep allowJoin) :
    ∀ h ∈ r.histories, Rel (r.eval T) (h.foldl advance init) := by
  induction r with
  | start =>
    intro h mem
    rw [List.mem_singleton.mp mem]
    exact entry
  | unreached => exact fun h mem => absurd mem List.not_mem_nil
  | step r e ih =>
    intro h mem
    obtain ⟨before, joined, rfl⟩ := List.mem_map.mp mem
    rw [List.foldl_append]
    exact step _ _ e (ih within.1 before joined) within.2
  | join r r' ih ih' =>
    intro h mem
    rcases List.mem_append.mp mem with left | right
    · exact join_left _ _ _ (ih within.1 h left) within.2.2
    · exact join_right _ _ _ (ih' within.2.1 h right) within.2.2

/-- What a covered concrete step may lead to. -/
private def Leads {Step : Type} (Covers : Event → Step → Prop) (advance : Concrete → Step → Concrete)
    (K : Concrete → Prop) (e : Event) (k' : Concrete) : Prop :=
  ∃ k x, K k ∧ Covers e x ∧ k' = advance k x

private theorem foldl_leads {Step : Type} {Covers : Event → Step → Prop}
    {advance : Concrete → Step → Concrete} {h : List Event} {steps : List Step}
    (covered : List.Forall₂ Covers h steps) (K : Concrete → Prop) (k : Concrete) (hk : K k) :
    h.foldl (Leads Covers advance) K (steps.foldl advance k) := by
  induction covered generalizing K k with
  | nil => exact hk
  | cons head _ ih => exact ih _ _ ⟨k, _, hk, head, rfl⟩

/-- The proof rule for events that leave the concrete step open: each event of a
history covers some steps, and any of them may be taken. -/
theorem sound_of_covers {allowStep : State → Event → Prop} {allowJoin : State → State → Prop}
    {Step : Type} (Covers : Event → Step → Prop) (Rel : State → Concrete → Prop)
    (advance : Concrete → Step → Concrete) (init : Concrete) (entry : Rel T.entry init)
    (step : ∀ a k e x, Rel a k → allowStep a e → Covers e x → Rel (T.step a e) (advance k x))
    (join_left : ∀ a b k, Rel a k → allowJoin a b → Rel (T.join a b) k)
    (join_right : ∀ a b k, Rel b k → allowJoin a b → Rel (T.join a b) k)
    {r : Run Event} (within : r.Within T allowStep allowJoin) :
    ∀ h ∈ r.histories, ∀ steps, List.Forall₂ Covers h steps →
      Rel (r.eval T) (steps.foldl advance init) := by
  have collected := Run.sound (T := T) (fun a K => ∀ k, K k → Rel a k) (Leads Covers advance) (· = init)
    (fun k hk => hk ▸ entry)
    (fun a K e sound allowed k' => by
      rintro ⟨k, x, hk, covers, rfl⟩
      exact step a k e x (sound k hk) allowed covers)
    (fun a b K sound allowed k hk => join_left a b k (sound k hk) allowed)
    (fun a b K sound allowed k hk => join_right a b k (sound k hk) allowed) within
  exact fun h mem steps covered => collected h mem _ (foldl_leads covered _ init rfl)

/-- The concrete states that covered steps lead to along the histories of a run, when each
step satisfies a condition on the abstract and the concrete state before it. -/
inductive Reaches {Step : Type} (T : Transfer State Event) (Covers : Event → Step → Prop)
    (advance : Concrete → Step → Concrete) (allow : State → Concrete → Event → Step → Prop)
    (init : Concrete) : Run Event → Concrete → Prop where
  | start : Reaches T Covers advance allow init .start init
  | step {r k e x} : Reaches T Covers advance allow init r k → Covers e x → allow (r.eval T) k e x →
      Reaches T Covers advance allow init (.step r e) (advance k x)
  | left {r k} (r') : Reaches T Covers advance allow init r k →
      Reaches T Covers advance allow init (.join r r') k
  | right {r' k} (r) : Reaches T Covers advance allow init r' k →
      Reaches T Covers advance allow init (.join r r') k

/-- The proof rule for conditions on both states. -/
theorem Reaches.sound {Step : Type} {Covers : Event → Step → Prop} {advance : Concrete → Step → Concrete}
    {allow : State → Concrete → Event → Step → Prop} {init : Concrete} (Rel : State → Concrete → Prop)
    (entry : Rel T.entry init)
    (step : ∀ a k e x, Rel a k → Covers e x → allow a k e x → Rel (T.step a e) (advance k x))
    (join_left : ∀ a b k, Rel a k → Rel (T.join a b) k)
    (join_right : ∀ a b k, Rel b k → Rel (T.join a b) k) {r : Run Event} {k : Concrete}
    (reaches : Reaches T Covers advance allow init r k) : Rel (r.eval T) k := by
  induction reaches with
  | start => exact entry
  | step _ covers allowed ih => exact step _ _ _ _ ih covers allowed
  | left r' _ ih => exact join_left _ _ _ ih
  | right r _ ih => exact join_right _ _ _ ih

end Run

end Otawa.Analysis
