import Otawa.Branch.Mispredictions

/-!
# The constraints of an execution

Where the numbers of an execution satisfy the constraints. The constraint of an ALWAYS_D branch takes the not-taken edge for
the mispredictions, which are made when the branch is taken. The one of a FIRST_UNKNOWN branch with the not-taken edge has
two mispredictions for each entry into the loop, and there are three when the entry of the table is made for a taken branch
that is then predicted strongly not taken.
-/

namespace Otawa.Branch

open Ilp

variable {B E : Type} [DecidableEq B] [DecidableEq E] {c : CFG B E} {p : Branches B} {b : B} {t : Table B}
  {run : List (Step B E)}

/-- The kind of the edges of an outcome. -/
def kindOf (outcome : Bool) : EdgeKind := if outcome then .taken else .notTaken

theorem taken_iff (h : Sound c p t run) {x : Step B E} (hx : x ∈ run) (hexec : executes c p b x = true)
    (outcome : Bool) : taken c x = outcome ↔ c.kind x.edge = kindOf outcome := by
  unfold taken kindOf
  rcases h.branches b x hx hexec with hkind | hkind <;> rw [hkind] <;> cases outcome <;> decide

/-- The numbers of the outcomes are those of the edges. -/
theorem outcomes_edgeVar (hc : c.WellFormed) (h : Sound c p t run) (hbranch : p.condNumber b ≠ -1) (outcome : Bool)
    {var : Option (Var B E)} (hvar : edgeVar c (kindOf outcome) b = some var) :
    var = none ∧ outcomes c p b outcome run = 0 ∨
      ∃ e, var = some (.edge e) ∧ (outcomes c p b outcome run : ℤ) = counts c p t run (.edge e) := by
  have hexec : ∀ x : Step B E, executes c p b x = true ↔ x.edge ∈ c.outs b := by
    intro x
    rw [hc.mem_outs]
    unfold executes
    simp [hbranch]
  have houtcome : ∀ x ∈ run, (executes c p b x && taken c x = outcome) = true ↔
      x.edge ∈ (c.outs b).filter fun e => c.kind e = kindOf outcome := by
    intro x hx
    rw [Bool.and_eq_true, decide_eq_true_eq, List.mem_filter, decide_eq_true_eq, ← hexec]
    exact and_congr_right fun hexec => taken_iff h hx hexec outcome
  unfold edgeVar at hvar
  split at hvar
  · rename_i hnil
    cases hvar
    refine .inl ⟨rfl, List.countP_eq_zero.mpr fun x hx => ?_⟩
    rw [houtcome x hx, hnil]
    exact List.not_mem_nil
  · rename_i e hone
    cases hvar
    refine .inr ⟨e, rfl, congrArg Int.ofNat (List.countP_congr fun x hx => ?_)⟩
    rw [houtcome x hx, hone, List.mem_singleton, decide_eq_true_eq]
  · cases hvar

theorem outcomes_le (hc : c.WellFormed) (h : Sound c p t run) (hbranch : p.condNumber b ≠ -1) (outcome : Bool)
    {var : Option (Var B E)} (hvar : edgeVar c (kindOf outcome) b = some var) :
    (outcomes c p b outcome run : ℤ) ≤ var.elim 1 (counts c p t run) := by
  rcases outcomes_edgeVar hc h hbranch outcome hvar with ⟨rfl, hzero⟩ | ⟨e, rfl, heq⟩
  · rw [hzero]
    exact Int.zero_le_ofNat 1
  · exact Int.le_of_eq heq

theorem entriesOf_counts (header : B) :
    entriesOf c p (counts c p t run) header = entries (entryEdges c p header) run := by
  unfold entriesOf entries
  induction entryEdges c p header with
  | nil => rfl
  | cons e es ih =>
    rw [List.map_cons, List.map_cons, List.sum_cons, List.sum_cons, ih]
    push_cast
    rfl

/-- An ALWAYS_D branch is taken as often as the variable of its not-taken edge says, and the entry of a FIRST_UNKNOWN branch
that is taken is not made strongly not-taken. -/
structure Meets (c : CFG B E) (p : Branches B) (t : Table B) (run : List (Step B E)) (b : B) : Prop where
  alwaysD : p.category b = .alwaysD → ∀ var, edgeVar c .notTaken b = some var →
    (outcomes c p b true run : ℤ) = var.elim 1 (counts c p t run)
  firstUnknown : p.category b = .firstUnknown → Allocates c p false b t run

/-- The mispredictions of an ALWAYS_H branch. -/
theorem alwaysH_le (h : AtEach c p b (fun entry => entry ≠ none) t run) (outcome : Bool) :
    misspreds c p b t run ≤ 2 * outcomes c p b outcome run + 2 := by
  have hle := misspreds_le outcome (persistent_present h) (allocates_present outcome h)
  have hcredit := credit_le outcome b t .executed
  have hentries : entries ([] : List E) run = 0 := rfl
  omega

section

omit [DecidableEq B] [DecidableEq E]

theorem le_block_holds {val : Var B E → ℤ} (hle : val (.misspred b) ≤ val (.block b)) :
    (((newConstraint .le 0).addLeft 1 (some (.misspred b))).addRight 1 (some (.block b))).Holds val := by
  rw [newConstraint_holds]
  change val (.misspred b) - 0 - 1 * val (.block b) ≤ 0
  omega

theorem le_edge_holds {val : Var B E → ℤ} {var : Option (Var B E)} (hle : val (.misspred b) ≤ 2 * var.elim 1 val + 2) :
    (((newConstraint .le 2).addLeft 1 (some (.misspred b))).addRight 2 var).Holds val := by
  rw [newConstraint_holds]
  change val (.misspred b) - 2 - 2 * var.elim 1 val ≤ 0
  omega

theorem eq_edge_holds_iff {val : Var B E → ℤ} {var : Option (Var B E)} :
    (((newConstraint .eq 0).addLeft 1 (some (.misspred b))).addRight 1 var).Holds val ↔
      val (.misspred b) = var.elim 1 val := by
  rw [newConstraint_holds]
  change val (.misspred b) - 0 - 1 * var.elim 1 val = 0 ↔ _
  omega

end

/-- What a domain says of a branch is true of the execution; its levels of persistence are those of the loops around the
block. -/
structure Known (c : CFG B E) (p : Branches B) (isLoopHeader : B → Bool) (enclosing : B → Option B) (dom : Domain) (b : B)
    (t : Table B) (run : List (Step B E)) : Prop where
  must : dom.must (p.condNumber b) = true → AtEach c p b (fun entry => entry ≠ none) t run
  may : dom.may (p.condNumber b) = false → AtEach c p b (fun entry => entry = none) t run
  pers : ∀ i isPersistent header, dom.pers.reverse[i]? = some isPersistent → isPersistent (p.condNumber b) = true →
    headerAt enclosing (if isLoopHeader b then some b else enclosing b) i = some header →
    Persistent c p (entryEdges c p header) b .outside t run

/-- The categories made of true domains are true. -/
theorem Categorized.categories_hold {isLoopHeader : B → Bool} {enclosing : B → Option B} {dom : B → Domain}
    (h : Categorized p isLoopHeader enclosing dom) (hdefault : ∀ b, p.condNumber b = -1 → p.category b = .notClassified)
    (hknown : ∀ b, p.condNumber b ≠ -1 → Known c p isLoopHeader enclosing (dom b) b t run)
    (hbranches : ∀ b, ∀ x ∈ run, executes c p b x → c.kind x.edge = .taken ∨ c.kind x.edge = .notTaken) :
    Sound c p t run := by
  have hcases : ∀ b, p.category b ≠ .notClassified → Known c p isLoopHeader enclosing (dom b) b t run ∧
      categorize p isLoopHeader enclosing (dom b) b = (p.category b, p.header b) := by
    intro b hb
    have hcond : p.condNumber b ≠ -1 := fun hno => hb (hdefault b hno)
    exact ⟨hknown b hcond, h b hcond⟩
  refine ⟨hbranches, ?_, ?_, ?_⟩
  · intro b hb
    obtain ⟨hknows, hcat⟩ := hcases b (by simp [hb])
    obtain ⟨-, heq⟩ | ⟨hmay, -⟩ | heq | ⟨_, _, _, -, -, -, heq⟩ := categorize_cases p isLoopHeader enclosing (dom b) b
    case inr.inl => exact hknows.may hmay
    all_goals simp [hb, heq] at hcat
  · intro b hb
    obtain ⟨hknows, hcat⟩ := hcases b (by simp [hb])
    obtain ⟨hmust, -⟩ | ⟨-, heq⟩ | heq | ⟨_, _, _, -, -, -, heq⟩ := categorize_cases p isLoopHeader enclosing (dom b) b
    case inl => exact hknows.must hmust
    all_goals simp [hb, heq] at hcat
  · intro b header hb hheader
    obtain ⟨hknows, hcat⟩ := hcases b (by simp [hb])
    obtain ⟨-, heq⟩ | ⟨-, heq⟩ | heq | ⟨i, isPersistent, _, hlevel, hpers, hat, heq⟩ :=
      categorize_cases p isLoopHeader enclosing (dom b) b
    case inr.inr.inr =>
      cases heq.symm.trans (hcat.trans (congrArg₂ Prod.mk hb hheader))
      exact hknows.pers i isPersistent header hlevel hpers hat
    all_goals simp [hb, heq] at hcat

/-! ### A loop with two exits -/

inductive Block where
  | entry
  | test
  | body
  | exit
  deriving DecidableEq, Repr

inductive Arc where
  | enter
  | go
  | leave
  | back
  | stop
  deriving DecidableEq, Repr

/-- The branch of the test goes on to the body or leaves, the branch of the body goes back or leaves. -/
def loop : CFG Block Arc where
  bbs := [.entry, .test, .body, .exit]
  entry := .entry
  exit := .exit
  number
    | .entry => 0
    | .test => 1
    | .body => 2
    | .exit => 3
  kind
    | .enter => .virtual
    | .go => .taken
    | .leave => .notTaken
    | .back => .taken
    | .stop => .notTaken
  source
    | .enter => .entry
    | .go => .test
    | .leave => .test
    | .back => .body
    | .stop => .body
  target
    | .enter => .test
    | .go => .body
    | .leave => .exit
    | .back => .test
    | .stop => .exit
  ins
    | .entry => []
    | .test => [.enter, .back]
    | .body => [.go]
    | .exit => [.leave, .stop]
  outs
    | .entry => [.enter]
    | .test => [.go, .leave]
    | .body => [.back, .stop]
    | .exit => []

theorem loop_wellFormed : loop.WellFormed where
  number_bbs := by decide
  entry_mem := by decide
  mem_ins := by
    intro e b
    cases e <;> cases b <;> decide
  mem_outs := by
    intro e b
    cases e <;> cases b <;> decide
  same_cfg := by
    intro e
    cases e <;> decide

/-- The test has a category, and the body is not classified. -/
def branches (category : Category) : Branches Block where
  condNumber
    | .test => 0
    | .body => 1
    | _ => -1
  category
    | .test => category
    | _ => .notClassified
  header
    | .test => some .test
    | _ => none
  dominates
    | .test, .test => true
    | .test, .body => true
    | _, _ => false

/-- The loop is left from the body, after the test was taken a number of times. -/
def rounds (alloc : Counter) (evicted : Block → Bool) : ℕ → List (Step Block Arc)
  | 0 => []
  | 1 => [⟨.go, alloc, evicted⟩, ⟨.stop, alloc, evicted⟩]
  | n + 1 => ⟨.go, alloc, evicted⟩ :: ⟨.back, alloc, evicted⟩ :: rounds alloc evicted n

def visit (alloc : Counter) (evicted : Block → Bool) (n : ℕ) : List (Step Block Arc) :=
  ⟨.enter, alloc, fun _ => false⟩ :: rounds alloc evicted n

theorem loop_sound {category : Category} {run : List (Step Block Arc)}
    (hbranches : ∀ x ∈ run, x.edge = .enter ∨ loop.kind x.edge = .taken ∨ loop.kind x.edge = .notTaken)
    (hd : category = .alwaysD → AtEach loop (branches category) .test (fun entry => entry = none) (fun _ => none) run)
    (hh : category = .alwaysH → AtEach loop (branches category) .test (fun entry => entry ≠ none) (fun _ => none) run)
    (hf : category = .firstUnknown → Persistent loop (branches category) (entryEdges loop (branches category) .test) .test
      .outside (fun _ => none) run) : Sound loop (branches category) (fun _ => none) run where
  branches := by
    intro b x hx hexec
    rcases hbranches x hx with henter | hkind
    · unfold executes at hexec
      rw [henter] at hexec
      cases b <;> exact absurd hexec (by cases category <;> decide)
    · exact hkind
  alwaysD := by
    intro b hb
    cases b with
    | test => exact hd hb
    | entry => cases hb
    | body => cases hb
    | exit => cases hb
  alwaysH := by
    intro b hb
    cases b with
    | test => exact hh hb
    | entry => cases hb
    | body => cases hb
    | exit => cases hb
  firstUnknown := by
    intro b header hb hheader
    cases b with
    | test =>
      cases hheader
      exact hf hb
    | entry => cases hb
    | body => cases hb
    | exit => cases hb

theorem always_evicted_sound : Sound loop (branches .alwaysD) (fun _ => none) (visit .weaklyTaken (fun _ => true) 2) :=
  loop_sound (by decide) (fun _ => by decide) (fun h => Category.noConfusion h) fun h => Category.noConfusion h

theorem never_evicted_sound (alloc : Counter) :
    Sound loop (branches .firstUnknown) (fun _ => none) (visit alloc (fun _ => false) 3) := by
  apply loop_sound
  · cases alloc <;> decide
  · exact fun h => Category.noConfusion h
  · exact fun h => Category.noConfusion h
  · intro _
    cases alloc <;> decide

/-- The test is persistent in its loop. -/
def persistentTest (b : Block) : Domain :=
  ⟨fun _ => false, fun _ => true, if b = .test then [fun _ => true] else []⟩

theorem Categorized.categories_hold_loop :
    Sound loop (branches .firstUnknown) (fun _ => none) (visit .weaklyTaken (fun _ => false) 3) := by
  have hcategorized : Categorized (branches .firstUnknown) (· = .test) (fun _ => none) persistentTest := by
    intro b hb
    cases b with
    | test => rfl
    | body => rfl
    | entry => exact absurd rfl hb
    | exit => exact absurd rfl hb
  refine hcategorized.categories_hold (by intro b hb; cases b <;> first | rfl | cases hb) ?_
    (never_evicted_sound .weaklyTaken).branches
  intro b hb
  refine ⟨nofun, nofun, ?_⟩
  intro i isPersistent header hlevel _ hat
  cases b with
  | test =>
    cases i with
    | zero =>
      cases hat
      decide
    | succ i => cases hlevel
  | body => cases hlevel
  | entry => exact absurd rfl hb
  | exit => exact absurd rfl hb

theorem never_evicted_meets :
    Meets loop (branches .firstUnknown) (fun _ => none) (visit .weaklyNotTaken (fun _ => false) 3) .test where
  alwaysD := fun h => Category.noConfusion h
  firstUnknown := fun _ =>
    ⟨by decide, by decide, by decide, by decide, by decide, by decide, by decide, trivial⟩

end Otawa.Branch
