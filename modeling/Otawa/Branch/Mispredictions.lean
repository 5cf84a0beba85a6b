import Otawa.Branch.ConsBuilder

/-!
# Executions and their mispredictions

The entries of the branch history table are two-bit counters. Any step of an execution may evict entries, as the branches
that share a row do. What a counter may mispredict before its branch has some outcome is `pending`: a misprediction of the
other outcome takes one away, and the outcome adds one (`update_pending`), so that the numbers of outcomes bound the
mispredictions (`misspreds_le`).
-/

namespace Otawa.Branch

open Ilp

/-! ### The table -/

inductive Counter where
  | stronglyNotTaken
  | weaklyNotTaken
  | weaklyTaken
  | stronglyTaken
  deriving DecidableEq, Repr

namespace Counter

/-- Whether the branch is predicted taken. -/
def predict : Counter → Bool
  | .stronglyNotTaken | .weaklyNotTaken => false
  | .weaklyTaken | .stronglyTaken => true

def update : Counter → Bool → Counter
  | .stronglyNotTaken, true => .weaklyNotTaken
  | .weaklyNotTaken, true => .weaklyTaken
  | .weaklyTaken, true => .stronglyTaken
  | .stronglyTaken, true => .stronglyTaken
  | .stronglyNotTaken, false => .stronglyNotTaken
  | .weaklyNotTaken, false => .stronglyNotTaken
  | .weaklyTaken, false => .weaklyNotTaken
  | .stronglyTaken, false => .weaklyTaken

/-- The mispredictions ahead until the branch has an outcome. -/
def pending (outcome : Bool) : Counter → ℕ
  | .stronglyNotTaken => if outcome then 0 else 2
  | .weaklyNotTaken => if outcome then 0 else 1
  | .weaklyTaken => if outcome then 1 else 0
  | .stronglyTaken => if outcome then 2 else 0

theorem pending_le (outcome : Bool) (k : Counter) : k.pending outcome ≤ 2 := by
  cases outcome <;> cases k <;> decide

theorem update_pending (outcome taken : Bool) (k : Counter) :
    (if k.predict ≠ taken then 1 else 0) + (k.update taken).pending outcome ≤
      2 * (if taken = outcome then 1 else 0) + k.pending outcome := by
  cases outcome <;> cases taken <;> cases k <;> decide

end Counter

/-- An absent branch is predicted not taken. -/
abbrev Table (B : Type) := B → Option Counter

/-- A block is executed and left by an edge: the counter its branch has if its entry is new, and the branches that are
evicted then. -/
structure Step (B E : Type) where
  edge : E
  alloc : Counter
  evicted : B → Bool

variable {B E : Type}

def Table.predict (t : Table B) (b : B) : Bool :=
  match t b with
  | none => false
  | some k => k.predict

section

variable [DecidableEq B] [DecidableEq E] (c : CFG B E) (p : Branches B)

/-- The step executes the branch of a block. -/
def executes (b : B) (x : Step B E) : Bool := p.condNumber b ≠ -1 && c.source x.edge = b

/-- The branch is taken. -/
def taken (x : Step B E) : Bool := c.kind x.edge = .taken

/-- The step mispredicts the branch of a block. -/
def mispredicts (t : Table B) (b : B) (x : Step B E) : Bool :=
  executes c p b x && t.predict b ≠ taken c x

/-- The table after a step. -/
def after (t : Table B) (x : Step B E) : Table B := fun b =>
  if x.evicted b then none
  else if executes c p b x then
    some (match t b with
      | none => x.alloc
      | some k => k.update (taken c x))
  else t b

/-- The mispredictions of the branch of a block. -/
def misspreds (b : B) : Table B → List (Step B E) → ℕ
  | _, [] => 0
  | t, x :: run => (if mispredicts c p t b x then 1 else 0) + misspreds b (after c p t x) run

/-- The numbers of an execution. -/
def counts (t : Table B) (run : List (Step B E)) : Var B E → ℤ
  | .block b => run.countP fun x => c.source x.edge = b
  | .edge e => run.countP fun x => x.edge = e
  | .misspred b => misspreds c p b t run

/-! ### What the categories say -/

/-- Each execution of the branch of a block finds its entry as it is said. -/
def AtEach (b : B) (P : Option Counter → Prop) : Table B → List (Step B E) → Prop
  | _, [] => True
  | t, x :: run => (executes c p b x → P (t b)) ∧ AtEach b P (after c p t x) run

instance decidableAtEach (b : B) (P : Option Counter → Prop) [DecidablePred P] :
    (t : Table B) → (run : List (Step B E)) → Decidable (AtEach c p b P t run)
  | _, [] => inferInstanceAs (Decidable True)
  | t, x :: run =>
      have := decidableAtEach b P (after c p t x) run
      inferInstanceAs (Decidable ((executes c p b x → P (t b)) ∧ AtEach c p b P (after c p t x) run))

/-- Whether the loop was entered, and the branch executed since. -/
inductive Since where
  | outside
  | entered
  | executed
  deriving DecidableEq, Repr

def Since.next (es : List E) (b : B) (since : Since) (x : Step B E) : Since :=
  if x.edge ∈ es then .entered else if executes c p b x then .executed else since

/-- The branch is executed in the loop, and its entry is present but at the first time since the loop was entered. -/
def Persistent (es : List E) (b : B) : Since → Table B → List (Step B E) → Prop
  | _, _, [] => True
  | since, t, x :: run => (executes c p b x → since = .entered ∨ since = .executed ∧ t b ≠ none) ∧
      Persistent es b (since.next c p es b x) (after c p t x) run

instance decidablePersistent (es : List E) (b : B) :
    (since : Since) → (t : Table B) → (run : List (Step B E)) → Decidable (Persistent c p es b since t run)
  | _, _, [] => inferInstanceAs (Decidable True)
  | since, t, x :: run =>
      have := decidablePersistent es b (since.next c p es b x) (after c p t x) run
      inferInstanceAs (Decidable ((executes c p b x → since = .entered ∨ since = .executed ∧ t b ≠ none) ∧
        Persistent c p es b (since.next c p es b x) (after c p t x) run))

/-- A branch is left by a taken or a not-taken edge, and the categories are true of the execution. -/
structure Sound (t : Table B) (run : List (Step B E)) : Prop where
  branches : ∀ b, ∀ x ∈ run, executes c p b x → c.kind x.edge = .taken ∨ c.kind x.edge = .notTaken
  alwaysD : ∀ b, p.category b = .alwaysD → AtEach c p b (fun entry => entry = none) t run
  alwaysH : ∀ b, p.category b = .alwaysH → AtEach c p b (fun entry => entry ≠ none) t run
  firstUnknown : ∀ b header, p.category b = .firstUnknown → p.header b = some header →
    Persistent c p (entryEdges c p header) b .outside t run

end

variable [DecidableEq B] [DecidableEq E] {c : CFG B E} {p : Branches B} {b : B} {t : Table B} {x : Step B E}
  {run : List (Step B E)} {es : List E} {since : Since}

/-! ### Bounds for the mispredictions -/

/-- The executions of a branch with an outcome. -/
def outcomes (c : CFG B E) (p : Branches B) (b : B) (outcome : Bool) (run : List (Step B E)) : ℕ :=
  run.countP fun x => executes c p b x && taken c x = outcome

/-- How often one of the edges is taken. -/
def entries (es : List E) (run : List (Step B E)) : ℕ :=
  (es.map fun e => run.countP fun x => x.edge = e).sum

omit [DecidableEq B] in
theorem entries_cons (es : List E) (x : Step B E) (run : List (Step B E)) :
    entries es (x :: run) = es.count x.edge + entries es run := by
  unfold entries
  induction es with
  | nil => rfl
  | cons e es ih =>
    rw [List.map_cons, List.map_cons, List.sum_cons, List.sum_cons, ih, List.countP_cons, List.count_cons]
    simp only [decide_eq_true_eq, beq_iff_eq, eq_comm (a := x.edge)]
    omega

omit [DecidableEq E] in
theorem misspreds_le_executions (b : B) (t : Table B) (run : List (Step B E)) :
    misspreds c p b t run ≤ run.countP fun x => c.source x.edge = b := by
  induction run generalizing t with
  | nil => exact Nat.le_refl _
  | cons x run ih =>
    rw [misspreds, List.countP_cons, Nat.add_comm]
    apply Nat.add_le_add (ih _)
    split
    · rename_i hmiss
      unfold mispredicts executes at hmiss
      simp only [Bool.and_eq_true] at hmiss
      rw [if_pos hmiss.1.2]
    · exact Nat.zero_le _

omit [DecidableEq E] in
/-- An absent branch is mispredicted when it is taken. -/
theorem misspreds_absent (h : AtEach c p b (fun entry => entry = none) t run) :
    misspreds c p b t run = outcomes c p b true run := by
  induction run generalizing t with
  | nil => rfl
  | cons x run ih =>
    obtain ⟨habsent, hrest⟩ := h
    rw [misspreds, ih hrest, outcomes, outcomes, List.countP_cons, Nat.add_comm]
    congr 2
    unfold mispredicts Table.predict
    cases hexec : executes c p b x with
    | false => rfl
    | true =>
      rw [habsent hexec]
      cases taken c x <;> rfl

/-- The mispredictions ahead: after an entry into the loop the entry of the table is any. -/
def credit (outcome : Bool) (b : B) (t : Table B) : Since → ℕ
  | .outside => 0
  | .entered => 2
  | .executed => (t b).elim 0 fun k => k.pending outcome

omit [DecidableEq B] in
theorem credit_le (outcome : Bool) (b : B) (t : Table B) (since : Since) : credit outcome b t since ≤ 2 := by
  cases since with
  | outside => exact Nat.zero_le _
  | entered => exact Nat.le_refl _
  | executed =>
    unfold credit
    cases t b with
    | none => exact Nat.zero_le _
    | some k => exact k.pending_le outcome

/-- The mispredictions of an execution that finds no entry and of the counter that it makes are paid for by an entry into
the loop and the outcome. -/
def Allocates (c : CFG B E) (p : Branches B) (outcome : Bool) (b : B) : Table B → List (Step B E) → Prop
  | _, [] => True
  | t, x :: run => (executes c p b x → t b = none → outcome = false → taken c x = true → x.alloc ≠ .stronglyNotTaken) ∧
      Allocates c p outcome b (after c p t x) run

omit [DecidableEq E] in
theorem allocates_true (b : B) (t : Table B) (run : List (Step B E)) : Allocates c p true b t run := by
  induction run generalizing t with
  | nil => trivial
  | cons x run ih => exact ⟨fun _ _ h => absurd h (by decide), ih _⟩

omit [DecidableEq E] in
/-- An execution of the branch, whether an entry is found or not. -/
theorem executes_credit (outcome : Bool) (hexec : executes c p b x = true)
    (hpresent : since = .entered ∨ since = .executed ∧ t b ≠ none)
    (halloc : t b = none → outcome = false → taken c x = true → x.alloc ≠ .stronglyNotTaken) :
    (if mispredicts c p t b x then 1 else 0) + credit outcome b (after c p t x) .executed ≤
      2 * (if taken c x = outcome then 1 else 0) + credit outcome b t since := by
  have hmiss : mispredicts c p t b x = decide (t.predict b ≠ taken c x) := by
    unfold mispredicts
    rw [hexec, Bool.true_and]
  have hafter : credit outcome b (after c p t x) .executed ≤
      (match t b with
        | none => x.alloc
        | some k => k.update (taken c x)).pending outcome := by
    unfold credit after
    dsimp only
    rw [if_pos hexec]
    split
    · exact Nat.zero_le _
    · exact Nat.le_refl _
  rw [hmiss]
  unfold Table.predict
  cases hentry : t b with
  | none =>
    rw [hentry] at hafter halloc
    have hentered : credit outcome b t since = 2 := by
      rcases hpresent with rfl | ⟨-, hne⟩
      · rfl
      · exact absurd hentry hne
    rw [hentered]
    dsimp only at hafter ⊢
    cases htaken : taken c x with
    | false =>
      have hle := x.alloc.pending_le outcome
      simp only [ne_eq, not_true_eq_false, decide_false, Bool.false_eq_true, if_false]
      omega
    | true =>
      simp only [ne_eq, Bool.false_eq_true, not_false_eq_true, decide_true, if_true]
      cases outcome with
      | true =>
        have hle := x.alloc.pending_le true
        simp only [if_true]
        omega
      | false =>
        have hle : x.alloc.pending false ≤ 1 := by
          have hne := halloc rfl rfl htaken
          cases hcounter : x.alloc with
          | stronglyNotTaken => exact absurd hcounter hne
          | weaklyNotTaken => exact Nat.le_refl _
          | weaklyTaken => exact Nat.zero_le _
          | stronglyTaken => exact Nat.zero_le _
        omega
  | some k =>
    rw [hentry] at hafter
    have hpending : k.pending outcome ≤ credit outcome b t since := by
      rcases hpresent with rfl | ⟨rfl, -⟩
      · exact k.pending_le outcome
      · unfold credit
        rw [hentry]
        exact Nat.le_refl _
    have hstep := k.update_pending outcome (taken c x)
    dsimp only at hafter ⊢
    simp only [decide_eq_true_eq]
    omega

/-- What a step mispredicts is paid for. -/
theorem step_credit (es : List E) (outcome : Bool)
    (hpresent : executes c p b x → since = .entered ∨ since = .executed ∧ t b ≠ none)
    (halloc : executes c p b x → t b = none → outcome = false → taken c x = true → x.alloc ≠ .stronglyNotTaken) :
    (if mispredicts c p t b x then 1 else 0) + credit outcome b (after c p t x) (since.next c p es b x) ≤
      2 * (if executes c p b x && taken c x = outcome then 1 else 0) + 2 * es.count x.edge + credit outcome b t since := by
  cases hexec : executes c p b x with
  | true =>
    have hstep := executes_credit outcome hexec (hpresent hexec) (halloc hexec)
    simp only [Bool.true_and, decide_eq_true_eq]
    by_cases hentry : x.edge ∈ es
    · have hcount : 0 < es.count x.edge := List.count_pos_iff.mpr hentry
      have hle := credit_le outcome b (after c p t x) (since.next c p es b x)
      omega
    · have hnext : since.next c p es b x = .executed := by
        unfold Since.next
        rw [if_neg hentry, if_pos hexec]
      rw [hnext]
      omega
  | false =>
    have hmiss : mispredicts c p t b x = false := by
      unfold mispredicts
      rw [hexec, Bool.false_and]
    rw [hmiss]
    by_cases hentry : x.edge ∈ es
    · have hcount : 0 < es.count x.edge := List.count_pos_iff.mpr hentry
      have hle := credit_le outcome b (after c p t x) (since.next c p es b x)
      simp only [Bool.false_and, Bool.false_eq_true, if_false]
      omega
    · have hnext : since.next c p es b x = since := by
        unfold Since.next
        rw [if_neg hentry, hexec]
        rfl
      have hkept : credit outcome b (after c p t x) since ≤ credit outcome b t since := by
        cases since with
        | outside => exact Nat.le_refl _
        | entered => exact Nat.le_refl _
        | executed =>
          unfold credit after
          dsimp only
          rw [hexec]
          split
          · exact Nat.zero_le _
          · exact Nat.le_refl _
      rw [hnext]
      simp only [Bool.false_and, Bool.false_eq_true, if_false]
      omega

/-- The outcomes of one kind and the entries into the loop bound the mispredictions. -/
theorem misspreds_le (outcome : Bool) (h : Persistent c p es b since t run) (halloc : Allocates c p outcome b t run) :
    misspreds c p b t run ≤ 2 * outcomes c p b outcome run + 2 * entries es run + credit outcome b t since := by
  induction run generalizing t since with
  | nil => exact Nat.zero_le _
  | cons x run ih =>
    obtain ⟨hpresent, hrest⟩ := h
    obtain ⟨hfirst, halloc⟩ := halloc
    have hrun := ih hrest halloc
    have hstep := step_credit es outcome hpresent hfirst
    rw [misspreds, entries_cons]
    have hcount : outcomes c p b outcome (x :: run) =
        (if executes c p b x && taken c x = outcome then 1 else 0) + outcomes c p b outcome run := by
      rw [outcomes, outcomes, List.countP_cons, Nat.add_comm]
    rw [hcount]
    omega

/-- A branch that is always present is persistent, whatever the loop. -/
theorem persistent_present (h : AtEach c p b (fun entry => entry ≠ none) t run) :
    Persistent c p [] b .executed t run := by
  induction run generalizing t with
  | nil => trivial
  | cons x run ih =>
    obtain ⟨hpresent, hrest⟩ := h
    refine ⟨fun hexec => .inr ⟨rfl, hpresent hexec⟩, ?_⟩
    have hnext : Since.next c p [] b .executed x = .executed := by
      unfold Since.next
      rw [if_neg List.not_mem_nil]
      split <;> rfl
    rw [hnext]
    exact ih hrest

omit [DecidableEq E] in
/-- A branch that is always present allocates nothing. -/
theorem allocates_present (outcome : Bool) (h : AtEach c p b (fun entry => entry ≠ none) t run) :
    Allocates c p outcome b t run := by
  induction run generalizing t with
  | nil => trivial
  | cons x run ih => exact ⟨fun hexec habsent => absurd habsent (h.1 hexec), ih h.2⟩

end Otawa.Branch
