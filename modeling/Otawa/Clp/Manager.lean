import Otawa.Clp.Update

/-!
# Replay of the CLP analysis

`clp::Manager` interprets the instructions of a basic block again, one semantic instruction at a
time. The first path of a machine instruction is interpreted in the state `s` of the manager, and
each other one in a state of its own, a copy made at its `IF`, which is joined to `s` when the path
ends.

`explore` is the run lemma: from any place of an instruction the manager goes through all paths
that start there, and comes back to the paths that were waiting; where each interpreted step covers
the step of the machine and the joins are upper bounds, every execution from a memory of the state
there ends in the states reached, and the address of each of its accesses is in the address
register of a state that was shown.
-/

namespace Otawa.Clp

open Otawa.Sem

/-- The manager, with what `ClpProblem` has of the current instruction. -/
structure Manager where
  mi : Nat
  s : State
  /-- The state of the current path; there is none when it is `s`. -/
  cs : Option State
  todo : List (Nat × State)
  pc : Nat
  i : Nat

namespace Manager

/-- `step_t`; the flag `NEW_SEM` is always set. -/
structure StepFlags where
  newPath : Bool
  newInst : Bool
  deriving DecidableEq, Repr

variable (proc : Problem.Process) (bb : List Block)

/-- The semantic instructions of the current machine instruction. -/
def block (m : Manager) : Block := bb.getD m.mi []

def isPathEnded (m : Manager) : Prop := (m.block bb).length ≤ m.pc

instance (m : Manager) : Decidable (m.isPathEnded bb) := inferInstanceAs (Decidable (_ ≤ _))

def state (m : Manager) : State := m.cs.getD m.s

def setState (m : Manager) (st : State) : Manager :=
  match m.cs with
  | none => { m with s := st }
  | some _ => { m with cs := some st }

/-- `update`: the state and the place after the instruction at `pc`. -/
def update (m : Manager) : Manager :=
  match (m.block bb)[m.pc]? with
  | none => m
  | some i =>
    let u := { m.setState (Problem.update proc i m.state) with i := m.pc }
    if i.Ends then { u with pc := (m.block bb).length + 1 }
    else if i.op = .if then { u with pc := m.pc + 1, todo := (m.pc + i.jump + 1, m.state) :: m.todo }
    else { u with pc := m.pc + 1 }

/-- The state `s` after the current path. -/
def merged (m : Manager) : State :=
  match m.cs with
  | none => m.s
  | some cs => m.s.join cs

/-- The manager at the start of a path that was waiting. -/
def nextPath (m : Manager) (path : Nat × State) (todo : List (Nat × State)) : Manager :=
  { m with s := m.merged, cs := some path.2, todo := todo, pc := path.1 }

/-- The manager at the start of an instruction, after `prepare`. -/
def prepared (mi : Nat) (s : State) : Manager := { mi := mi, s := s, cs := none, todo := [], pc := 0, i := 0 }

/-- One turn of the loop of `next`, which is made when the current path is ended: the next path of the
instruction or, if there is none, the next instruction. -/
def turn (m : Manager) : Option Manager :=
  match m.todo with
  | path :: todo => some (m.nextPath path todo)
  | [] => if m.mi + 1 < bb.length then some (prepared (m.mi + 1) m.merged) else none

/-- The loop of `next`. -/
def advance (m : Manager) : Option (Manager × StepFlags) :=
  if m.isPathEnded bb then
    match _ : m.turn bb with
    | none => none
    | some m' => (advance m').map fun r => (r.1, ⟨true, r.2.newInst || decide (m.mi < m'.mi)⟩)
  else some (m, ⟨false, false⟩)
termination_by (bb.length - m.mi, m.todo.length)
decreasing_by
  rename_i turned
  unfold turn at turned
  split at turned
  case h_1 waiting =>
    cases turned
    exact Prod.Lex.right _ (by simp [waiting, nextPath])
  case h_2 =>
    split at turned
    · cases turned
      exact Prod.Lex.left _ _ (by simp only [prepared]; omega)
    · cases turned

/-- `start` does not ask whether the first instruction has a path. -/
def start (s : State) : Manager := (prepared 0 s).update proc bb

def next (m : Manager) : Option (Manager × StepFlags) :=
  (m.advance bb).map fun r => (r.1.update proc bb, r.2)

/-! ### Moves -/

/-- What the manager does next: it interprets an instruction of the path, or it turns to another one. -/
def Moves (m m' : Manager) : Prop :=
  if m.isPathEnded bb then m.turn bb = some m' else m' = m.update proc bb

/-- The places a manager comes to. -/
def Reaches : Manager → Manager → Prop := Relation.ReflTransGen (Moves proc bb)

variable {proc bb} {m m' : Manager}

theorem advance_of_running (running : ¬ m.isPathEnded bb) : m.advance bb = some (m, ⟨false, false⟩) := by
  rw [advance, if_neg running]

theorem advance_of_ended (ended : m.isPathEnded bb) : m.advance bb =
    (m.turn bb).bind fun m' => (m'.advance bb).map fun r => (r.1, ⟨true, r.2.newInst || decide (m.mi < m'.mi)⟩) := by
  rw [advance, if_pos ended]
  split
  case h_1 turned => rw [turned]; rfl
  case h_2 turned => rw [turned]; rfl

/-- What the update at an instruction changes. -/
structure Updated (proc : Problem.Process) (i : Inst) (m u : Manager) : Prop where
  mi : u.mi = m.mi
  place : u.i = m.pc
  state : u.state = Problem.update proc i m.state
  some : u.cs.isSome = m.cs.isSome
  s : m.cs.isSome → u.s = m.s

theorem updated {i : Inst} (found : (m.block bb)[m.pc]? = some i) :
    Updated proc i m (m.update proc bb) ∧
      if i.Ends then (m.update proc bb).pc = (m.block bb).length + 1 ∧ (m.update proc bb).todo = m.todo
      else if i.op = .if then (m.update proc bb).pc = m.pc + 1 ∧
        (m.update proc bb).todo = (m.pc + i.jump + 1, m.state) :: m.todo
      else (m.update proc bb).pc = m.pc + 1 ∧ (m.update proc bb).todo = m.todo := by
  obtain ⟨mi, s, cs, todo, pc, place⟩ := m
  unfold update
  rw [found]
  simp only
  cases cs with
  | none =>
    split_ifs
    · exact ⟨⟨rfl, rfl, rfl, rfl, nofun⟩, rfl, rfl⟩
    · exact ⟨⟨rfl, rfl, rfl, rfl, nofun⟩, rfl, rfl⟩
    · exact ⟨⟨rfl, rfl, rfl, rfl, nofun⟩, rfl, rfl⟩
  | some cs =>
    split_ifs
    · exact ⟨⟨rfl, rfl, rfl, rfl, fun _ => rfl⟩, rfl, rfl⟩
    · exact ⟨⟨rfl, rfl, rfl, rfl, fun _ => rfl⟩, rfl, rfl⟩
    · exact ⟨⟨rfl, rfl, rfl, rfl, fun _ => rfl⟩, rfl, rfl⟩

theorem turn_of_last (last : m.todo = []) :
    m.turn bb = if m.mi + 1 < bb.length then some (prepared (m.mi + 1) m.merged) else none := by
  rw [turn, last]

/-! ### The states of a manager -/

/-- The states are ones of the analysis. -/
structure Valid (m : Manager) : Prop where
  s : m.s.Reachable
  cs : ∀ cs, m.cs = some cs → cs.Reachable
  todo : ∀ path ∈ m.todo, path.2.Reachable

theorem Valid.state (valid : m.Valid) : m.state.Reachable := by
  unfold Manager.state
  cases other : m.cs with
  | none => exact valid.s
  | some cs => exact valid.cs cs other

theorem Valid.merged (valid : m.Valid) : m.merged.Reachable := by
  unfold Manager.merged
  cases other : m.cs with
  | none => exact valid.s
  | some cs => exact valid.s.join (valid.cs cs other)

theorem valid_prepared {k : Nat} {s : State} (reachable : s.Reachable) : (prepared k s).Valid :=
  ⟨reachable, nofun, nofun⟩

theorem Valid.update (valid : m.Valid) : (m.update proc bb).Valid := by
  unfold Manager.update
  split
  case h_1 => exact valid
  case h_2 i _ =>
    have reachable := @Problem.update_reachable proc m.state i valid.state
    have after : (m.setState (Problem.update proc i m.state)).Valid := by
      unfold setState
      split
      case h_1 => exact ⟨reachable, valid.cs, valid.todo⟩
      case h_2 => exact ⟨valid.s, fun cs eq => Option.some.inj eq ▸ reachable, valid.todo⟩
    simp only
    split_ifs
    · exact ⟨after.s, after.cs, after.todo⟩
    · refine ⟨after.s, after.cs, fun path mem => ?_⟩
      rcases List.mem_cons.mp mem with rfl | mem
      · exact valid.state
      · exact valid.todo path mem
    · exact ⟨after.s, after.cs, after.todo⟩

theorem Valid.turn (valid : m.Valid) (turned : m.turn bb = some m') : m'.Valid := by
  unfold Manager.turn at turned
  split at turned
  case h_1 path todo waiting =>
    cases turned
    have inTodo : ∀ path' ∈ path :: todo, path'.2.Reachable := waiting ▸ valid.todo
    exact ⟨valid.merged, fun cs eq => Option.some.inj eq ▸ inTodo path List.mem_cons_self,
      fun path' mem => inTodo path' (List.mem_cons_of_mem path mem)⟩
  case h_2 =>
    split at turned
    · cases turned
      exact valid_prepared valid.merged
    · cases turned

theorem Valid.reaches (valid : m.Valid) (reaches : Reaches proc bb m m') : m'.Valid := by
  induction reaches with
  | refl => exact valid
  | tail _ moves ih =>
    unfold Moves at moves
    split at moves
    · exact ih.turn moves
    · exact moves ▸ ih.update

theorem update_mi (proc : Problem.Process) (bb : List Block) (m : Manager) : (m.update proc bb).mi = m.mi := by
  cases found : (m.block bb)[m.pc]? with
  | none => rw [update, found]
  | some i => exact (updated found).1.mi

/-! ### The paths of an instruction -/

/-- The loop of `next` comes from one place to another one of the same instruction. -/
def Passes (bb : List Block) : Manager → Manager → Prop :=
  Relation.ReflTransGen fun m m' => m.isPathEnded bb ∧ m.turn bb = some m' ∧ m'.mi = m.mi

/-- The managers that `next` shows from a place of an instruction to another one. -/
inductive Shows (proc : Problem.Process) (bb : List Block) : Manager → List Manager → Manager → Prop where
  | done {m e : Manager} : Passes bb m e → Shows proc bb m [] e
  | step {m h e : Manager} {us : List Manager} : Passes bb m h → ¬ h.isPathEnded bb →
      Shows proc bb (h.update proc bb) us e → Shows proc bb m (h.update proc bb :: us) e

theorem Shows.of_passes {us : List Manager} {e : Manager} (passes : Passes bb m m') (shows' : Shows proc bb m' us e) :
    Shows proc bb m us e := by
  cases shows' with
  | done passes' => exact .done (passes.trans passes')
  | step passes' running rest => exact .step (passes.trans passes') running rest

theorem Shows.trans {us us' : List Manager} {e e' : Manager} (shows₁ : Shows proc bb m us e)
    (shows₂ : Shows proc bb e us' e') : Shows proc bb m (us ++ us') e' := by
  induction shows₁ with
  | done passes => exact .of_passes passes shows₂
  | step passes running _ ih => exact .step passes running (ih shows₂)

section

variable {h : Manager} (passes : Passes bb m h)
include passes

theorem Passes.mi : h.mi = m.mi := by
  induction passes with
  | refl => rfl
  | tail _ step ih => exact step.2.2.trans ih

theorem Passes.reaches : Reaches proc bb m h := by
  induction passes with
  | refl => exact .refl
  | tail _ step ih =>
    refine ih.tail ?_
    unfold Moves
    rw [if_pos step.1]
    exact step.2.1

/-- The loop of `next` inside an instruction. -/
theorem advance_of_passes :
    ∃ f, m.advance bb = (h.advance bb).map fun r => (r.1, ⟨f || r.2.newPath, r.2.newInst⟩) := by
  induction passes using Relation.ReflTransGen.head_induction_on with
  | refl => exact ⟨false, by simp⟩
  | head step _ ih =>
    obtain ⟨f, eq⟩ := ih
    refine ⟨true, ?_⟩
    rw [advance_of_ended step.1, step.2.1, Option.bind_some, eq, Option.map_map, step.2.2]
    simp [Function.comp_def]

/-- The next place of the instruction. -/
theorem next_of_running (running : ¬ h.isPathEnded bb) :
    ∃ f, m.next proc bb = some (h.update proc bb, ⟨f, false⟩) := by
  obtain ⟨f, eq⟩ := advance_of_passes passes
  rw [advance_of_running running] at eq
  exact ⟨_, congrArg (Option.map _) eq⟩

end

/-- After the last path of an instruction comes the next one, which may have no path. -/
theorem next_of_last {e : Manager} (passes : Passes bb m e) (ended : e.isPathEnded bb) (last : e.todo = []) :
    m.next proc bb = (e.turn bb).bind fun m' => (m'.next proc bb).map fun r => (r.1, ⟨true, true⟩) := by
  obtain ⟨f, eq⟩ := advance_of_passes passes
  rw [next, eq, advance_of_ended ended, turn_of_last last]
  split
  case isFalse => rfl
  case isTrue =>
    simp only [Option.bind_some, next, Option.map_map, prepared, Nat.lt_succ_self, Function.comp_def,
      decide_true, Bool.or_true]

/-- The interpretation of an instruction covers what it does, and a load into its address register leaves
the addresses it may have loaded from in it. -/
def StepFits (proc : Problem.Process) (i : Inst) (s : State) : Prop :=
  (∀ m ∈ s.gamma, ∀ m', i.Steps m m' → m' ∈ (Problem.update proc i s).gamma) ∧
    (i.op = .load → i.addr = i.d →
      (Problem.get s i.addr).gamma ⊆ (Problem.get (Problem.update proc i s) i.addr).gamma)

/-- The step from a place fits, or the join after a path is an upper bound. -/
structure Fits (proc : Problem.Process) (bb : List Block) (m : Manager) : Prop where
  step : ∀ i, (m.block bb)[m.pc]? = some i → StepFits proc i m.state
  join : m.isPathEnded bb → ∀ cs, m.cs = some cs → State.JoinCovers m.s cs

/-- The memory is in the state of the paths that are ended. -/
def Merged (m : Manager) (x : Memory) : Prop := m.cs.isSome ∧ x ∈ m.s.gamma

/-- The memory is in the state of the manager after the current path. -/
def Result (m : Manager) (x : Memory) : Prop := x ∈ m.state.gamma ∨ m.Merged x

/-- At the end of a path the results are joined. -/
theorem Result.merged {x : Memory} (joined : ∀ cs, m.cs = some cs → State.JoinCovers m.s cs) (result : m.Result x) :
    x ∈ m.merged.gamma := by
  unfold Manager.merged
  unfold Result Merged state at result
  cases other : m.cs with
  | none => simpa [other] using result
  | some cs =>
    have upper := (State.union_subset_join_iff _ _).mpr (joined cs other)
    simp only [other, Option.getD_some, Option.isSome_some, true_and] at result
    exact upper result.symm

/-- An access is seen in one of the states shown. -/
def Seen (b : Block) (us : List Manager) (a : Access) : Prop :=
  ∃ u ∈ us, ∃ i, b[a.pc]? = some i ∧ i.Accesses ∧ u.i = a.pc ∧ u.state.first ≠ .none ∧
    a.address ∈ (Problem.get u.state i.addr).gamma

theorem Seen.mono {b : Block} {us us' : List Manager} {a : Access} (seen : Seen b us a) (sub : us ⊆ us') :
    Seen b us' a := by
  obtain ⟨u, mem, rest⟩ := seen
  exact ⟨u, sub mem, rest⟩

theorem reached_of_mem {s : State} {x : Memory} (mem : x ∈ s.gamma) : s.first ≠ .none := by
  intro empty
  rw [State.gamma, if_pos empty] at mem
  exact mem

theorem mem_register {s : State} {x : Memory} (mem : x ∈ s.gamma) (r : Word) :
    x (reg r) ∈ (Problem.get s r).gamma := by
  rw [State.gamma_of_reached (reached_of_mem mem)] at mem
  exact mem (reg r) (Set.mem_univ _)

/-- The address of an access is in the address register after the step. -/
theorem StepFits.address {i : Inst} {s : State} {x x' : Memory} (fits : StepFits proc i s) (mem : x ∈ s.gamma)
    (steps : i.Steps x x') (accesses : i.Accesses) :
    x (reg i.addr) ∈ (Problem.get (Problem.update proc i s) i.addr).gamma := by
  have before := mem_register mem i.addr
  by_cases overwritten : i.op = .load ∧ i.addr = i.d
  · exact fits.2 overwritten.1 overwritten.2 before
  · have other : i.op = .store ∨ i.d ≠ i.addr := by
      rcases accesses with load | store
      · exact .inr fun eq => overwritten ⟨load, eq.symm⟩
      · exact .inl store
    have after := fits.1 x mem x' steps
    rwa [(Problem.update_keeps other (reached_of_mem after)).2]

/-- From its place the manager shows `us` and comes to `e`, which has the results of all runs from there. -/
structure Finishes (proc : Problem.Process) (bb : List Block) (m : Manager) (us : List Manager) (e : Manager) : Prop where
  shows' : Shows proc bb m us e
  reaches : Reaches proc bb m e
  mi : e.mi = m.mi
  todo : e.todo = m.todo
  ended : e.isPathEnded bb
  keeps : ∀ x, m.Merged x → e.Merged x
  sound : ∀ x ∈ m.state.gamma, ∀ accs x', Exec (m.block bb) m.pc x accs x' →
    (∀ a ∈ accs, Seen (m.block bb) us a) ∧ e.Result x'

theorem Finishes.of_ended (ended : m.isPathEnded bb) : Finishes proc bb m [] m := by
  refine ⟨.done .refl, .refl, rfl, rfl, ended, fun x merged => merged, fun x mem accs x' exec => ?_⟩
  obtain ⟨rfl, rfl⟩ := exec.of_ended ended
  exact ⟨fun a mem => absurd mem List.not_mem_nil, .inl mem⟩

section Place

variable {i : Inst} (found : (m.block bb)[m.pc]? = some i) (fits : StepFits proc i m.state)

theorem block_update (proc : Problem.Process) (bb : List Block) (m : Manager) :
    (m.update proc bb).block bb = m.block bb := by
  rw [block, update_mi, block]

include found

theorem running_of_found : ¬ m.isPathEnded bb :=
  not_le.mpr (List.getElem?_eq_some_iff.mp found).1

theorem moves_update : Moves proc bb m (m.update proc bb) := by
  unfold Moves
  rw [if_neg (running_of_found found)]

theorem merged_update {x : Memory} (merged : m.Merged x) : (m.update proc bb).Merged x := by
  obtain ⟨other, mem⟩ := merged
  have up := (@updated proc bb m i found).1
  exact ⟨up.some.trans other, by rwa [up.s other]⟩

include fits

theorem update_covers {x x' : Memory} (mem : x ∈ m.state.gamma) (steps : i.Steps x x') :
    x' ∈ (m.update proc bb).state.gamma := by
  rw [(updated found).1.state]
  exact fits.1 x mem x' steps

/-- The access of the instruction is seen after the update. -/
theorem update_sees {x x' : Memory} (mem : x ∈ m.state.gamma) (steps : i.Steps x x') (us : List Manager) :
    ∀ a ∈ i.access m.pc x, Seen (m.block bb) (m.update proc bb :: us) a := by
  intro a isAccess
  have up := (@updated proc bb m i found).1
  unfold Inst.access at isAccess
  split at isAccess
  case isFalse => exact absurd isAccess List.not_mem_nil
  case isTrue accesses =>
    cases List.mem_singleton.mp isAccess
    have after := update_covers found fits mem steps
    refine ⟨_, List.mem_cons_self, i, found, accesses, up.place, reached_of_mem after, ?_⟩
    rw [up.state]
    exact fits.address mem steps accesses

variable {us us₁ us₂ : List Manager} {e e₁ e₂ : Manager}

/-- The path ends at the instruction. -/
theorem Finishes.last (ends : i.Ends) : Finishes proc bb m [m.update proc bb] (m.update proc bb) := by
  have moved := (@updated proc bb m i found).2
  rw [if_pos ends] at moved
  have ended : (m.update proc bb).isPathEnded bb := by
    rw [isPathEnded, block_update, moved.1]
    exact Nat.le_succ _
  refine ⟨.step .refl (running_of_found found) (.done .refl), .single (moves_update found), update_mi _ _ _, moved.2,
    ended, fun x => merged_update found, fun x mem accs x' exec => ?_⟩
  obtain ⟨x₁, pc', accs', steps, follows, rest, rfl⟩ := exec.first found
  rw [Inst.Follows, if_pos ends] at follows
  obtain ⟨rfl, rfl⟩ := rest.of_ended follows.ge
  rw [List.append_nil]
  exact ⟨update_sees found fits mem steps [], .inl (update_covers found fits mem steps)⟩

theorem Finishes.next (ends : ¬ i.Ends) (cond : i.op ≠ .if) (after : Finishes proc bb (m.update proc bb) us e) :
    Finishes proc bb m (m.update proc bb :: us) e := by
  have moved := (@updated proc bb m i found).2
  rw [if_neg ends, if_neg cond] at moved
  have same := block_update proc bb m
  refine ⟨.step .refl (running_of_found found) after.shows', .head (moves_update found) after.reaches,
    after.mi.trans (update_mi _ _ _), after.todo.trans moved.2, after.ended,
    fun x merged => after.keeps x (merged_update found merged), fun x mem accs x' exec => ?_⟩
  obtain ⟨x₁, pc', accs', steps, follows, rest, rfl⟩ := exec.first found
  rw [Inst.Follows, if_neg ends, if_neg cond] at follows
  subst follows
  obtain ⟨later, result⟩ := after.sound x₁ (update_covers found fits mem steps) accs' x' (by rwa [same, moved.1])
  refine ⟨fun a isAccess => (List.mem_append.mp isAccess).elim (update_sees found fits mem steps us a) fun mem' => ?_,
    result⟩
  rw [← same]
  exact (later a mem').mono (List.subset_cons_self _ us)

section

variable (ends : ¬ i.Ends) (cond : i.op = .if) (goes : Finishes proc bb (m.update proc bb) us₁ e₁)
include ends cond goes

omit fits in
/-- After the path that goes on, the manager turns to the one that skips. -/
theorem turn_skip : e₁.turn bb = some (e₁.nextPath (m.pc + i.jump + 1, m.state) m.todo) := by
  have moved := (@updated proc bb m i found).2
  rw [if_neg ends, if_pos cond] at moved
  rw [turn, goes.todo, moved.2]

omit fits in
theorem reaches_skip : Reaches proc bb m (e₁.nextPath (m.pc + i.jump + 1, m.state) m.todo) := by
  refine .tail (.head (moves_update found) goes.reaches) ?_
  unfold Moves
  rw [if_pos goes.ended]
  exact turn_skip found ends cond goes

/-- The path that goes on, and after it the one that skips. -/
theorem Finishes.fork (joined : ∀ cs, e₁.cs = some cs → State.JoinCovers e₁.s cs)
    (skips : Finishes proc bb (e₁.nextPath (m.pc + i.jump + 1, m.state) m.todo) us₂ e₂) :
    Finishes proc bb m (m.update proc bb :: (us₁ ++ us₂)) e₂ := by
  have moved := (@updated proc bb m i found).2
  rw [if_neg ends, if_pos cond] at moved
  have same := block_update proc bb m
  have mi : (e₁.nextPath (m.pc + i.jump + 1, m.state) m.todo).mi = m.mi := goes.mi.trans (update_mi _ _ _)
  have same₂ : (e₁.nextPath (m.pc + i.jump + 1, m.state) m.todo).block bb = m.block bb := by rw [block, mi, block]
  have passes : Passes bb e₁ (e₁.nextPath (m.pc + i.jump + 1, m.state) m.todo) :=
    .single ⟨goes.ended, turn_skip found ends cond goes, rfl⟩
  have merged : ∀ x, e₁.Result x → e₂.Merged x := fun x result => skips.keeps x ⟨rfl, result.merged joined⟩
  refine ⟨.step .refl (running_of_found found) (goes.shows'.trans (.of_passes passes skips.shows')),
    (reaches_skip found ends cond goes).trans skips.reaches, skips.mi.trans mi, skips.todo, skips.ended,
    fun x merged' => merged x (.inr (goes.keeps x (merged_update found merged'))), fun x mem accs x' exec => ?_⟩
  obtain ⟨x₁, pc', accs', steps, follows, rest, rfl⟩ := exec.first found
  rw [Inst.Follows, if_neg ends, if_pos cond] at follows
  have now := update_sees found fits mem steps (us₁ ++ us₂)
  rcases follows with rfl | rfl
  · obtain ⟨later, result⟩ := goes.sound x₁ (update_covers found fits mem steps) accs' x' (by rwa [same, moved.1])
    refine ⟨fun a isAccess => (List.mem_append.mp isAccess).elim (now a) fun mem' => ?_, .inr (merged x' result)⟩
    rw [← same]
    exact (later a mem').mono fun u mem'' => List.mem_cons_of_mem _ (List.mem_append_left _ mem'')
  · have unchanged : x₁ = x := by
      rw [Inst.Steps, cond] at steps
      exact steps
    subst unchanged
    obtain ⟨later, result⟩ := skips.sound x₁ mem accs' x' (by rw [same₂]; exact rest)
    refine ⟨fun a isAccess => (List.mem_append.mp isAccess).elim (now a) fun mem' => ?_, result⟩
    rw [← same₂]
    exact (later a mem').mono fun u mem'' => List.mem_cons_of_mem _ (List.mem_append_right _ mem'')

end

end Place

/-- The paths that start at one place of an instruction; the induction is on the instructions left. -/
theorem explore (m : Manager) (fits : ∀ e, Reaches proc bb m e → Fits proc bb e) :
    ∃ us e, Finishes proc bb m us e := by
  induction left : (m.block bb).length - m.pc using Nat.strongRecOn generalizing m with
  | ind n ih =>
  by_cases ended : m.isPathEnded bb
  · exact ⟨[], m, .of_ended ended⟩
  have lt : m.pc < (m.block bb).length := not_le.mp ended
  obtain ⟨i, found⟩ : ∃ i, (m.block bb)[m.pc]? = some i := ⟨_, List.getElem?_eq_getElem lt⟩
  have stepFits := (fits m .refl).step i found
  have moved := (@updated proc bb m i found).2
  have fits' : ∀ e, Reaches proc bb (m.update proc bb) e → Fits proc bb e :=
    fun e reaches => fits e (.head (moves_update found) reaches)
  by_cases ends : i.Ends
  · exact ⟨_, _, .last found stepFits ends⟩
  have goesOn : (m.update proc bb).pc = m.pc + 1 := by
    rw [if_neg ends] at moved
    split at moved
    · exact moved.1
    · exact moved.1
  obtain ⟨us₁, e₁, goes⟩ := ih _ (by rw [block_update, goesOn]; omega) (m.update proc bb) fits' rfl
  by_cases cond : i.op = .if
  · have mi : (e₁.nextPath (m.pc + i.jump + 1, m.state) m.todo).mi = m.mi := goes.mi.trans (update_mi _ _ _)
    obtain ⟨us₂, e₂, skips⟩ := ih ((m.block bb).length - (m.pc + i.jump + 1)) (by omega)
      (e₁.nextPath (m.pc + i.jump + 1, m.state) m.todo)
      (fun e reaches => fits e ((reaches_skip found ends cond goes).trans reaches)) (by rw [block, mi]; rfl)
    exact ⟨_, _, .fork found stepFits ends cond goes ((fits' e₁ goes.reaches).join goes.ended) skips⟩
  · exact ⟨_, _, .next found stepFits ends cond goes⟩

end Manager

end Otawa.Clp
