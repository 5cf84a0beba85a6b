import Otawa.Clp.Manager
import Otawa.Lib.Branching

/-!
# The replay and the analysis of a block

`Problem::update` interprets all instructions of a basic block, each along all its semantic paths, and joins the
states at their ends. `Manager::start` and `next` do the same one semantic instruction at a time.

* `shows_explores`: the manager goes through the paths of an instruction in the order of the analysis, and comes
  to the same joined state.
* `replay_agrees_iff`: the replay of a block agrees with its analysis if and only if the block has an instruction
  and the first one has a semantic instruction, which `start` interprets without a test.
-/

namespace Otawa.Clp

open Branching Sem

namespace Problem

/-- The control of `update(State *)`; `BRANCH` and `TRAP` end the path as `CONT` does. -/
def code (b : Block) : Code := fun pc =>
  match b[pc]? with
  | none => .stop
  | some i =>
    match i.op with
    | .cont => .leave (b.length + 1)
    | .branch | .trap => .go (b.length + 1)
    | .if => .fork (pc + 1) (pc + i.jump + 1)
    | _ => .go (pc + 1)

/-- The first path is interpreted in `out`, each other one in a copy that is joined to it. -/
def interpreter (proc : Process) (b : Block) : Interpreter State State (Option State) where
  step pc s := b[pc]?.map fun i => update proc i s
  save s := s
  restore s _ := s
  finish out s := some (out.elim s fun out => out.join s)

/-- The paths of one machine instruction. -/
def updateInst (proc : Process) (b : Block) (s : State) : Option State :=
  (run (code b) (interpreter proc b) (2 ^ (b.length + 1)) ⟨0, s, [], none⟩).bind fun r => r.1

/-- `update(out, in, bb)`; a block without instructions is an end block. -/
def updateBlock (proc : Process) (bb : List Block) (input : State) : Option State :=
  bb.foldlM (fun s b => updateInst proc b s) input

theorem code_forward (b : Block) : Forward (code b) b.length := by
  constructor
  · intro pc le
    rw [code, List.getElem?_eq_none le]
  · intro pc eq
    unfold code at eq
    split at eq
    · cases eq
    · split at eq <;> cases eq
  · intro pc next mem
    unfold code at mem
    split at mem
    case h_1 => exact absurd mem List.not_mem_nil
    case h_2 i found =>
      obtain ⟨lt, -⟩ := List.getElem?_eq_some_iff.mp found
      split at mem <;> simp only [Control.targets, List.mem_cons, List.not_mem_nil, or_false] at mem <;> omega

/-- The control at an instruction, as the manager decides it. -/
theorem code_of_found {b : Block} {pc : ℕ} {i : Inst} (found : b[pc]? = some i) : code b pc =
    if i.op = .cont then .leave (b.length + 1)
    else if i.Ends then .go (b.length + 1)
    else if i.op = .if then .fork (pc + 1) (pc + i.jump + 1)
    else .go (pc + 1) := by
  rw [code, found]
  cases op : i.op <;> simp [Inst.Ends, op]

variable {proc : Process} {b : Block} {s x : State} {pc : ℕ}

/-- The steps of an instruction are total, as the places with a step are in the block. -/
theorem exists_explores (proc : Process) (b : Block) (pc : ℕ) (s : State) :
    ∃ l s', Explores (code b) (interpreter proc b) pc s l s' := by
  induction (code_forward b).ends pc generalizing s with
  | stop at_pc => exact ⟨_, _, .stop at_pc⟩
  | leave at_pc _ ih =>
    obtain ⟨l, s', explores⟩ := ih s
    exact ⟨l, s', .leave at_pc explores⟩
  | @step pc some_next _ ih =>
    cases found : b[pc]? with
    | none => simp [code, found, Control.Next] at some_next
    | some i =>
      have step : (interpreter proc b).step pc s = some (update proc i s) := by
        simp [interpreter, found]
      cases at_pc : code b pc with
      | fault => simp [at_pc, Control.Next] at some_next
      | stop => simp [at_pc, Control.Next] at some_next
      | leave => simp [at_pc, Control.Next] at some_next
      | go q =>
        obtain ⟨l, s', explores⟩ := ih q (by rw [at_pc]; rfl) (update proc i s)
        exact ⟨l, s', .go at_pc step explores⟩
      | fork q other =>
        obtain ⟨l, s₁, explores⟩ := ih q (by rw [at_pc]; exact .inl rfl) (update proc i s)
        obtain ⟨l', s', explores'⟩ := ih other (by rw [at_pc]; exact .inr rfl) (update proc i s)
        exact ⟨l ++ l', s', .fork at_pc step explores explores'⟩

theorem found_of_step {t : State} (step : (interpreter proc b).step pc s = some t) :
    ∃ i, b[pc]? = some i ∧ t = update proc i s := by
  obtain ⟨i, found, eq⟩ := Option.map_eq_some_iff.mp step
  exact ⟨i, found, eq.symm⟩

/-- The path is left at a `CONT`, which changes nothing. -/
theorem found_of_leave (proc : Process) (s : State) {next : ℕ} (leaves : code b pc = .leave next) :
    ∃ i, b[pc]? = some i ∧ update proc i s = s := by
  cases found : b[pc]? with
  | none => simp [code, found] at leaves
  | some i =>
    refine ⟨i, rfl, ?_⟩
    rw [code, found] at leaves
    cases op : i.op <;> simp [op] at leaves
    rw [update, op]

theorem update_of_fork (proc : Process) (s : State) {i : Inst} {next other : ℕ} (found : b[pc]? = some i)
    (forks : code b pc = .fork next other) : update proc i s = s := by
  rw [code, found] at forks
  cases op : i.op <;> simp [op] at forks
  rw [update, op]

theorem updateInst_of_explores {l : List State} {s' : State}
    (explores : Explores (code b) (interpreter proc b) 0 s l s') :
    updateInst proc b s = l.foldl (interpreter proc b).finish none := by
  rw [updateInst, run_of_forward (code_forward b) explores]
  rfl

end Problem

namespace Manager

variable (proc : Problem.Process) (bb : List Block)

/-- The state `s` when `next` says that the replay is ended. -/
def left (m : Manager) : State :=
  if m.isPathEnded bb then
    match _ : m.turn bb with
    | none => m.merged
    | some m' => m'.left
  else m.s
termination_by (bb.length - m.mi, m.todo.length)
decreasing_by
  rename_i turned
  unfold turn at turned
  split at turned
  case h_1 waiting =>
    cases turned
    exact Prod.Lex.right _ (by simp [waiting, nextPath])
  case h_2 =>
    split at turned
    · cases turned
      exact Prod.Lex.left _ _ (by simp only [prepared]; omega)
    · cases turned

/-- `start`; there is no first semantic instruction without an instruction, or in an empty semantic block. -/
def started (s : State) : Option Manager :=
  if (prepared 0 s).isPathEnded bb then none else some (start proc bb s)

/-- The managers that repeated calls of `next` show, and the state that they leave. -/
def remaining : ℕ → Manager → Option (List Manager × State)
  | 0, _ => none
  | fuel + 1, m =>
      match m.next proc bb with
      | none => some ([], m.left bb)
      | some (m', _) => (remaining fuel m').map fun r => (m' :: r.1, r.2)

/-- `start`, and `next` until it is exhausted. -/
def replay (fuel : ℕ) (s : State) : Option (List Manager × State) :=
  (started proc bb s).bind fun m => (remaining proc bb fuel m).map fun r => (m :: r.1, r.2)

/-- Each step of each semantic path of each instruction is shown, in the state that the path has there. -/
def VisitsPaths (s : State) (us : List Manager) : Prop :=
  ∀ k b x, bb[k]? = some b → Problem.updateBlock proc (bb.take k) s = some x →
    ∀ w p ps u i, Path (Problem.code b) 0 (w ++ p :: ps) → steps (Problem.interpreter proc b) w x = some u →
      b[p]? = some i → ∃ h ∈ us, h.mi = k ∧ h.i = p ∧ h.state = Problem.update proc i u

/-- The replay ends, visits all semantic paths, and leaves the state of the analysis. -/
def Agrees (s : State) : Prop :=
  ∃ fuel us s', replay proc bb fuel s = some (us, s') ∧ Problem.updateBlock proc bb s = some s' ∧
    VisitsPaths proc bb s us

variable {proc bb} {m e : Manager} {us : List Manager}

/-- What the paths that are ended are joined to. -/
def ended (m : Manager) : Option State :=
  m.cs.map fun _ => m.s

theorem finish_ended (b : Block) (m : Manager) :
    (Problem.interpreter proc b).finish m.ended m.state = some m.merged := by
  unfold ended merged state Problem.interpreter
  cases m.cs <;> rfl

/-- A manager shows the steps of the paths from a place. -/
def Visits (proc : Problem.Process) (m : Manager) (b : Block) (us : List Manager) : Prop :=
  ∀ w p ps u i, Path (Problem.code b) m.pc (w ++ p :: ps) →
    steps (Problem.interpreter proc b) w m.state = some u → b[p]? = some i →
    ∃ h ∈ us, h.mi = m.mi ∧ h.i = p ∧ h.state = Problem.update proc i u

/-- The steps from a place are the one there and those from the next places. -/
theorem visits_of_next {b : Block} {i : Inst} (found : b[m.pc]? = some i)
    (moves : ∀ next, Problem.code b m.pc ≠ .leave next)
    (here : ∃ h ∈ us, h.mi = m.mi ∧ h.i = m.pc ∧ h.state = Problem.update proc i m.state)
    (later : ∀ q, (Problem.code b m.pc).Next q → ∀ w p ps v j, Path (Problem.code b) q (w ++ p :: ps) →
      steps (Problem.interpreter proc b) w (Problem.update proc i m.state) = some v → b[p]? = some j →
      ∃ h ∈ us, h.mi = m.mi ∧ h.i = p ∧ h.state = Problem.update proc j v) : Visits proc m b us := by
  intro w p ps v j path same found'
  generalize eq : w ++ p :: ps = all at path
  cases path with
  | stop => simp at eq
  | leave at_pc => exact absurd at_pc (moves _)
  | step next rest =>
    cases w with
    | nil =>
      cases eq
      cases found.symm.trans found'
      cases same
      exact here
    | cons c w =>
      cases eq
      have step : (Problem.interpreter proc b).step m.pc m.state = some (Problem.update proc i m.state) := by
        simp [Problem.interpreter, found]
      rw [steps_cons step] at same
      exact later _ next w p ps v j rest same found'

theorem Updated.ended {i : Inst} {u : Manager} (up : Updated proc i m u) : u.ended = m.ended := by
  have some := up.some
  have s := up.s
  unfold Manager.ended
  cases other : m.cs with
  | none =>
    rw [other, Option.isSome_none, Option.isSome_eq_false_iff, Option.isNone_iff_eq_none] at some
    rw [some]
    rfl
  | some cs =>
    rw [other] at some s
    obtain ⟨cs', other'⟩ := Option.isSome_iff_exists.mp some
    rw [other', Option.map_some, Option.map_some, s rfl]

theorem Updated.block {i : Inst} {u : Manager} (up : Updated proc i m u) : u.block bb = m.block bb := by
  rw [Manager.block, up.mi, Manager.block]

/-- The manager after an instruction, by the control of the analysis. -/
theorem updated_code {i : Inst} {b : Block} (same : m.block bb = b) (found : b[m.pc]? = some i) :
    Updated proc i m (m.update proc bb) ∧
      match Problem.code b m.pc with
      | .leave next | .go next => (m.update proc bb).pc = next ∧ (m.update proc bb).todo = m.todo
      | .fork next other =>
        (m.update proc bb).pc = next ∧ (m.update proc bb).todo = (other, m.state) :: m.todo
      | .stop | .fault => False := by
  subst same
  obtain ⟨up, moved⟩ := @updated proc bb m i found
  refine ⟨up, ?_⟩
  rw [Problem.code_of_found found]
  by_cases cont : i.op = .cont
  · have ends : i.Ends := .inr (.inr cont)
    rw [if_pos ends] at moved
    rw [if_pos cont]
    exact moved
  · rw [if_neg cont]
    split at moved
    case isTrue ends =>
      rw [if_pos ends]
      exact moved
    case isFalse ends =>
      rw [if_neg ends]
      split at moved
      case isTrue cond =>
        rw [if_pos cond]
        exact moved
      case isFalse cond =>
        rw [if_neg cond]
        exact moved

/-- What the manager has done when it has gone through the paths from its place. -/
structure Explored (proc : Problem.Process) (bb : List Block) (b : Block) (m : Manager) (l : List State)
    (us : List Manager) (e : Manager) : Prop where
  shows' : Shows proc bb m us e
  mi : e.mi = m.mi
  todo : e.todo = m.todo
  last : e.isPathEnded bb
  joined : l.foldl (Problem.interpreter proc b).finish m.ended = some e.merged
  visits : Visits proc m b us

/-- The manager goes through the paths from its place as the analysis does. -/
theorem shows_explores {b : Block} {pc : ℕ} {x x' : State} {l : List State}
    (explores : Explores (Problem.code b) (Problem.interpreter proc b) pc x l x') (m : Manager)
    (same : m.block bb = b) (at_pc : m.pc = pc) (at_x : m.state = x) :
    ∃ us e, Explored proc bb b m l us e := by
  induction explores generalizing m with
  | @stop pc x stops =>
    subst at_pc at_x
    have ended : m.isPathEnded bb := by
      unfold isPathEnded
      rw [same]
      by_contra lt
      have found := List.getElem?_eq_getElem (not_le.mp lt)
      have spec := (@updated_code proc bb m _ b same found).2
      rw [stops] at spec
      exact spec
    refine ⟨[], m, .done .refl, rfl, rfl, ended, finish_ended b m, ?_⟩
    intro w p ps u i path
    rw [path_iff, stops] at path
    exact absurd path (by simp)
  | @leave pc next x x' l leaves _ ih =>
    subst at_pc at_x
    obtain ⟨i, found, unchanged⟩ := Problem.found_of_leave proc m.state leaves
    obtain ⟨up, moved⟩ := @updated_code proc bb m i b same found
    rw [leaves] at moved
    have running : ¬ m.isPathEnded bb := running_of_found (same.symm ▸ found)
    have same_state : (m.update proc bb).state = m.state := up.state.trans unchanged
    obtain ⟨us, e, explored⟩ := ih (m.update proc bb) (up.block.trans same) moved.1 same_state
    refine ⟨m.update proc bb :: us, e, .step .refl running explored.shows', explored.mi.trans up.mi,
      explored.todo.trans moved.2, explored.last, up.ended ▸ explored.joined, ?_⟩
    intro w p ps v j path same_steps found'
    rw [path_iff, leaves] at path
    obtain ⟨h, mem, mi, rest⟩ := explored.visits w p ps v j (by rw [moved.1]; exact path)
      (by rw [same_state]; exact same_steps) found'
    exact ⟨h, List.mem_cons_of_mem _ mem, mi.trans up.mi, rest⟩
  | @go pc next x t₁ x' l goes step _ ih =>
    subst at_pc at_x
    obtain ⟨i, found, rfl⟩ := Problem.found_of_step step
    obtain ⟨up, moved⟩ := @updated_code proc bb m i b same found
    rw [goes] at moved
    have running : ¬ m.isPathEnded bb := running_of_found (same.symm ▸ found)
    obtain ⟨us, e, explored⟩ := ih (m.update proc bb) (up.block.trans same) moved.1 up.state
    refine ⟨m.update proc bb :: us, e, .step .refl running explored.shows', explored.mi.trans up.mi,
      explored.todo.trans moved.2, explored.last, up.ended ▸ explored.joined, ?_⟩
    refine visits_of_next found (fun q => by simp [goes])
      ⟨_, List.mem_cons_self, up.mi, up.place, up.state⟩ fun q next_q w p ps v j path same_steps found' => ?_
    rw [goes] at next_q
    cases next_q
    obtain ⟨h, mem, mi, rest⟩ := explored.visits w p ps v j (by rw [moved.1]; exact path)
      (by rw [up.state]; exact same_steps) found'
    exact ⟨h, List.mem_cons_of_mem _ mem, mi.trans up.mi, rest⟩
  | @fork pc next other x t₁ t₂ x' l l' forks step _ _ ih ih' =>
    subst at_pc at_x
    obtain ⟨i, found, rfl⟩ := Problem.found_of_step step
    obtain ⟨up, moved⟩ := @updated_code proc bb m i b same found
    rw [forks] at moved
    have running : ¬ m.isPathEnded bb := running_of_found (same.symm ▸ found)
    have unchanged := Problem.update_of_fork proc m.state found forks
    -- The path that goes on, and after it the one that waits.
    obtain ⟨us₁, e₁, explored₁⟩ := ih (m.update proc bb) (up.block.trans same) moved.1 up.state
    have waits : e₁.todo = (other, m.state) :: m.todo := explored₁.todo.trans moved.2
    have turned : e₁.turn bb = some (e₁.nextPath (other, m.state) m.todo) := by
      rw [turn, waits]
    have mi₂ : (e₁.nextPath (other, m.state) m.todo).mi = m.mi := explored₁.mi.trans up.mi
    obtain ⟨us₂, e₂, explored₂⟩ := ih' (e₁.nextPath (other, m.state) m.todo) (by rw [block, mi₂, ← same, block])
      rfl unchanged.symm
    have passes : Passes bb e₁ (e₁.nextPath (other, m.state) m.todo) :=
      .single ⟨explored₁.last, turned, rfl⟩
    refine ⟨m.update proc bb :: (us₁ ++ us₂), e₂,
      .step .refl running (explored₁.shows'.trans (.of_passes passes explored₂.shows')), explored₂.mi.trans mi₂,
      explored₂.todo, explored₂.last, ?_, ?_⟩
    · rw [List.foldl_append, ← up.ended, explored₁.joined]
      exact explored₂.joined
    · refine visits_of_next found (fun q => by simp [forks])
        ⟨_, List.mem_cons_self, up.mi, up.place, up.state⟩ fun q next_q w p ps v j path same_steps found' => ?_
      rw [forks] at next_q
      rcases next_q with rfl | rfl
      · obtain ⟨h, mem, mi, rest⟩ := explored₁.visits w p ps v j (by rw [moved.1]; exact path)
          (by rw [up.state]; exact same_steps) found'
        exact ⟨h, List.mem_cons_of_mem _ (List.mem_append_left _ mem), mi.trans up.mi, rest⟩
      · obtain ⟨h, mem, mi, rest⟩ := explored₂.visits w p ps v j path (by rw [← unchanged]; exact same_steps) found'
        exact ⟨h, List.mem_cons_of_mem _ (List.mem_append_right _ mem), mi.trans mi₂, rest⟩

/-! ### All instructions -/

theorem left_of_ended (ended : m.isPathEnded bb) : m.left bb =
    match m.turn bb with
    | none => m.merged
    | some m' => m'.left bb := by
  rw [left, if_pos ended]
  split
  case h_1 turned => rw [turned]
  case h_2 turned => rw [turned]

theorem left_of_passes {h : Manager} (passes : Passes bb m h) : m.left bb = h.left bb := by
  induction passes using Relation.ReflTransGen.head_induction_on with
  | refl => rfl
  | head step _ ih =>
    rw [left_of_ended step.1, step.2.1]
    exact ih

theorem block_of_length_le (le : bb.length ≤ m.mi) : m.block bb = [] := by
  rw [block, List.getD_eq_getElem?_getD, List.getElem?_eq_none le]
  rfl

/-- After the last path of an instruction the rest of the replay is that of the next one. -/
theorem remaining_of_last {r : List Manager × State} (passes : Passes bb m e) (ended : e.isPathEnded bb)
    (last : e.todo = []) (rest : ∃ fuel, remaining proc bb fuel (prepared (e.mi + 1) e.merged) = some r) :
    ∃ fuel, remaining proc bb fuel m = some r := by
  obtain ⟨fuel, rest⟩ := rest
  have next := @next_of_last proc bb m e passes ended last
  have left := left_of_passes passes
  rw [left_of_ended ended] at left
  rw [turn_of_last last] at next left
  cases fuel with
  | zero => cases rest
  | succ fuel =>
    rw [remaining] at rest
    refine ⟨fuel + 1, ?_⟩
    rw [remaining, next, left]
    split at next
    case isTrue lt =>
      rw [if_pos lt, Option.bind_some]
      cases after : (prepared (e.mi + 1) e.merged).next proc bb with
      | none =>
        rw [after] at rest
        exact rest
      | some m' =>
        rw [after] at rest
        exact rest
    case isFalse le =>
      -- Behind the last instruction there is nothing to show.
      have no_block : (prepared (e.mi + 1) e.merged).block bb = [] := block_of_length_le (not_lt.mp le)
      have ended' : (prepared (e.mi + 1) e.merged).isPathEnded bb := by
        unfold isPathEnded
        rw [no_block]
        exact Nat.zero_le _
      have turned : (prepared (e.mi + 1) e.merged).turn bb = none := by
        rw [turn_of_last rfl]
        exact if_neg fun lt => le (Nat.lt_of_succ_lt lt)
      have after : (prepared (e.mi + 1) e.merged).next proc bb = none := by
        unfold Manager.next
        rw [advance_of_ended ended', turned]
        rfl
      rw [after, left_of_ended ended', turned] at rest
      rw [if_neg le]
      exact rest

theorem remaining_of_shows {r : List Manager × State} (shows' : Shows proc bb m us e) (ended : e.isPathEnded bb)
    (last : e.todo = []) (rest : ∃ fuel, remaining proc bb fuel (prepared (e.mi + 1) e.merged) = some r) :
    ∃ fuel, remaining proc bb fuel m = some (us ++ r.1, r.2) := by
  induction shows' with
  | done passes => exact remaining_of_last passes ended last rest
  | step passes running _ ih =>
    obtain ⟨fuel, after⟩ := ih ended last rest
    obtain ⟨f, next⟩ := @next_of_running proc bb _ _ passes running
    refine ⟨fuel + 1, ?_⟩
    rw [remaining, next]
    simp only [after, Option.map_some, List.cons_append]

/-- The replay from an instruction on leaves the state of the analysis, and visits all paths. -/
theorem remaining_agrees (k : ℕ) (x : State) (le : k ≤ bb.length) :
    ∃ fuel us s', remaining proc bb fuel (prepared k x) = some (us, s') ∧
      Problem.updateBlock proc (bb.drop k) x = some s' ∧
      ∀ j b y, bb[k + j]? = some b → Problem.updateBlock proc ((bb.drop k).take j) x = some y →
        ∀ w p ps u i, Path (Problem.code b) 0 (w ++ p :: ps) → steps (Problem.interpreter proc b) w y = some u →
          b[p]? = some i → ∃ h ∈ us, h.mi = k + j ∧ h.i = p ∧ h.state = Problem.update proc i u := by
  induction ahead : bb.length - k generalizing k x with
  | zero =>
    have eq : bb.length ≤ k := Nat.sub_eq_zero_iff_le.mp ahead
    refine ⟨1, [], x, ?_, by rw [List.drop_eq_nil_of_le eq]; rfl, ?_⟩
    · have no_block : (prepared k x).block bb = [] := block_of_length_le eq
      have ended : (prepared k x).isPathEnded bb := by
        unfold isPathEnded
        rw [no_block]
        exact Nat.zero_le _
      have turned : (prepared k x).turn bb = none := by
        rw [turn_of_last rfl]
        exact if_neg fun lt => absurd (Nat.lt_of_succ_lt lt) (not_lt.mpr eq)
      have after : (prepared k x).next proc bb = none := by
        unfold Manager.next
        rw [advance_of_ended ended, turned]
        rfl
      rw [remaining, after, left_of_ended ended, turned]
      rfl
    · intro j b y found
      rw [List.getElem?_eq_none (eq.trans (Nat.le_add_right k j))] at found
      cases found
  | succ d ih =>
    have lt : k < bb.length := by omega
    have found_k : bb[k]? = some bb[k] := List.getElem?_eq_getElem lt
    have same : (prepared k x).block bb = bb[k] := by
      show bb.getD k [] = bb[k]
      rw [List.getD_eq_getElem?_getD, found_k]
      rfl
    obtain ⟨l, x', explores⟩ := Problem.exists_explores proc bb[k] 0 x
    obtain ⟨us₁, e, explored⟩ := shows_explores explores (prepared k x) same rfl rfl
    have mi : e.mi = k := explored.mi
    have first : Problem.updateInst proc bb[k] x = some e.merged :=
      (Problem.updateInst_of_explores explores).trans explored.joined
    have cons : bb.drop k = bb[k] :: bb.drop (k + 1) := List.drop_eq_getElem_cons lt
    obtain ⟨fuel, us₂, s', rest, final, visits⟩ := ih (k + 1) e.merged lt (by omega)
    obtain ⟨fuel', all⟩ := remaining_of_shows explored.shows' explored.last explored.todo ⟨fuel, mi ▸ rest⟩
    refine ⟨fuel', us₁ ++ us₂, s', all, ?_, ?_⟩
    · rw [cons, Problem.updateBlock, List.foldlM_cons, first]
      exact final
    · intro j b y found before w p ps u i path same_steps found'
      cases j with
      | zero =>
        rw [Nat.add_zero, found_k] at found
        cases found
        cases before
        obtain ⟨h, mem, shown⟩ := explored.visits w p ps u i path same_steps found'
        exact ⟨h, List.mem_append_left _ mem, shown⟩
      | succ j =>
        rw [cons, List.take_succ_cons, Problem.updateBlock, List.foldlM_cons, first] at before
        have shift : k + (j + 1) = k + 1 + j := by omega
        rw [shift] at found ⊢
        obtain ⟨h, mem, shown⟩ := visits j b y found before w p ps u i path same_steps found'
        exact ⟨h, List.mem_append_right _ mem, shown⟩

/-- The first call of `next` from the start of an instruction that has a semantic instruction. -/
theorem next_prepared {s : State} (running : ¬ (prepared 0 s).isPathEnded bb) :
    (prepared 0 s).next proc bb = some (start proc bb s, ⟨false, false⟩) := by
  unfold Manager.next
  rw [advance_of_running running]
  rfl

/-- The replay agrees with the analysis if and only if the block has an instruction, whose semantic block is not
empty. -/
theorem replay_agrees_iff (proc : Problem.Process) (bb : List Block) (s : State) :
    Agrees proc bb s ↔ ∃ b, bb.head? = some b ∧ b ≠ [] := by
  have running_iff : ¬ (prepared 0 s).isPathEnded bb ↔ ∃ b, bb.head? = some b ∧ b ≠ [] := by
    cases bb with
    | nil => simp [isPathEnded, prepared, block]
    | cons b rest => simp [isPathEnded, prepared, block]
  rw [← running_iff]
  constructor
  · rintro ⟨fuel, us, s', replays, -⟩ ended
    rw [replay, started, if_pos ended] at replays
    cases replays
  · intro running
    obtain ⟨fuel, us, s', rest, final, visits⟩ := @remaining_agrees proc bb 0 s (Nat.zero_le _)
    cases fuel with
    | zero => cases rest
    | succ fuel =>
      rw [remaining, next_prepared running] at rest
      refine ⟨fuel, us, s', ?_, final, fun k b x found => ?_⟩
      · rw [replay, started, if_neg running]
        exact rest
      · simpa using visits k b x (by simpa using found)

/-- The first machine instruction has no semantic instruction. -/
theorem start_of_empty : ¬ ∀ (proc : Problem.Process) (bb : List Block) (s : State), bb ≠ [] → Agrees proc bb s := by
  intro agrees
  obtain ⟨fuel, us, s', replays, -⟩ := agrees ⟨fun _ => 0, fun _ => 0, fun _ => 0, 0, 0, fun _ => none⟩ [[]] .full nofun
  cases replays

end Manager

end Otawa.Clp
