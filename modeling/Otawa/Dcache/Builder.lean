import Otawa.Dcache.Blocks

/-!
# Data accesses of a basic block

`processBB` records the address values of the loads and stores of an instruction while the
manager goes through its paths, and attaches their accesses when the manager comes to the next
instruction.

Where the replay covers the machine (`Manager.Fits`) and the addresses recorded can be kept and
turned into places (`Config.Fits`), the loop ends, and every access of every run of the basic
block to a cached bank is in the place of an entry of its instruction.
-/

namespace Otawa.Dcache.CLPBlockBuilder

open Otawa.Clp Otawa.Clp.Manager Otawa.Sem

/-- The action of a semantic instruction; `none` is `NONE`. -/
def action (i : Inst) : Option Action :=
  match i.op with
  | .load => some .load
  | .store => some .store
  | _ => none

/-- The vector `addrs`, by the places of an instruction. -/
abbrev Addrs := List (Value × Option Action)

/-- The pair of a place without an access. -/
def unset : Value × Option Action := (.none, none)

/-- The vector with a pair at a place; it is made longer if need be. -/
def record (addrs : Addrs) (ipc : Nat) (p : Value × Option Action) : Addrs :=
  (addrs ++ List.replicate (ipc + 1 - addrs.length) unset).set ipc p

/-- The value of a place of the vector. -/
def recorded (addrs : Addrs) (ipc : Nat) : Value := (addrs.getD ipc unset).1

/-- The locals of the loop, with what is built. -/
structure Config where
  man : Manager
  addrs : Addrs
  built : Built

/-- Where an iteration of the loop leads: it may throw that there is no memory bank. -/
inductive Outcome where
  | going (c : Config)
  | ended (built : Built)
  | thrown

variable (cache : Cache) (mem : Banks) (proc : Problem.Process) (bb : List Sem.Block)

/-- The loop after `next`. -/
def resume (next : Option (Manager × StepFlags)) (addrs : Addrs) (built : Built) : Outcome :=
  match next with
  | none => .ended built
  | some (man, _) => .going ⟨man, addrs, built⟩

namespace Config

/-- The addresses after the scan of the instruction. -/
def scanned (c : Config) : Addrs :=
  match (c.man.block bb)[c.man.i]? with
  | none => c.addrs
  | some i =>
    match action i with
    | none => c.addrs
    | some act =>
      record c.addrs c.man.i ((Problem.get c.man.state i.addr).join (recorded c.addrs c.man.i), some act)

/-- One iteration. In the state `EMPTY` the accesses recorded before are left for a later one. -/
def iteration (c : Config) : Outcome :=
  let next := c.man.next proc bb
  if c.man.state.equals .bottom then resume next c.addrs c.built
  else
    let addrs := c.scanned bb
    if addrs ≠ [] ∧ ∀ r ∈ next, r.2.newInst = true then
      match flush cache mem c.man.mi c.built addrs with
      | .error _ => .thrown
      | .ok built => resume next [] built
    else resume next addrs c.built

end Config

/-- Up to `fuel` iterations. -/
def loop : Nat → Outcome → Outcome
  | fuel + 1, .going c => loop fuel (c.iteration cache mem proc bb)
  | _, o => o

def processBB (s : State) (built : Built) (fuel : Nat) : Outcome :=
  loop cache mem proc bb fuel (.going ⟨start proc bb s, [], built⟩)

/-! ### The conditions -/

/-- What an iteration has to respect: a place that is shown again has its addresses joined, the last place of
an instruction with accesses has a memory, and the addresses attached have their places. -/
structure Config.Fits (c : Config) : Prop where
  join : c.man.state.equals .bottom = false → ∀ i, (c.man.block bb)[c.man.i]? = some i → i.Accesses →
    (Problem.get c.man.state i.addr).JoinFits (recorded c.addrs c.man.i)
  last : c.man.state.equals .bottom = true → c.addrs ≠ [] → ∃ r ∈ c.man.next proc bb, r.2.newInst = false
  places : c.man.state.equals .bottom = false → (∀ r ∈ c.man.next proc bb, r.2.newInst = true) →
    ∀ p ∈ c.scanned bb, p.2 ≠ none → AddressFits cache mem p.1

/-- The iterations that follow one. -/
def Comes : Config → Config → Prop :=
  Relation.ReflTransGen fun c c' => c.iteration cache mem proc bb = .going c'

/-- The accesses of the runs of the basic block from an instruction on are attached to their instructions. -/
def Covered (k : Nat) (s : State) (built : Built) : Outcome → Prop
  | .going _ => False
  | .thrown => True
  | .ended built' => built.accs ⊆ built'.accs ∧
    ∀ m ∈ s.gamma, ∀ accs m', Runs bb k m accs m' → ∀ access ∈ accs, mem access.2.address = some true →
      ∃ b i act, bb[access.1]? = some b ∧ b[access.2.pc]? = some i ∧ action i = some act ∧
        Attached cache built' access.1 act access.2.address

/-! ### The addresses of an instruction -/

variable {cache mem proc bb} {c c' : Config} {b : Sem.Block} {a : Access}

theorem action_of_accesses {i : Inst} (accesses : i.Accesses) : ∃ act, action i = some act := by
  rcases accesses with load | store
  · exact ⟨.load, by rw [action, load]⟩
  · exact ⟨.store, by rw [action, store]⟩

theorem record_same (addrs : Addrs) {ipc k : Nat} (p : Value × Option Action) (same : ipc = k) :
    (record addrs ipc p)[k]? = some p := by
  subst same
  rw [record, List.getElem?_set_self]
  simp only [List.length_append, List.length_replicate]
  omega

theorem record_other {addrs : Addrs} {ipc k : Nat} {p q : Value × Option Action} (ne : ipc ≠ k)
    (found : addrs[k]? = some q) : (record addrs ipc p)[k]? = some q := by
  rw [record, List.getElem?_set_ne ne]
  exact List.getElem?_append_left (List.getElem?_eq_some_iff.mp found).1 ▸ found

/-- An access is in the address value recorded for its place. -/
def Recorded (b : Sem.Block) (addrs : Addrs) (a : Access) : Prop :=
  ∃ i act v, b[a.pc]? = some i ∧ action i = some act ∧ addrs[a.pc]? = some (v, some act) ∧ a.address ∈ v.gamma

/-- The addresses after the iteration, unless they are attached. -/
def Config.after (bb : List Sem.Block) (c : Config) : Addrs :=
  if c.man.state.equals .bottom then c.addrs else c.scanned bb

theorem scanned_eq {i : Inst} {act : Action} (found : (c.man.block bb)[c.man.i]? = some i) (acts : action i = some act) :
    c.scanned bb = record c.addrs c.man.i
      ((Problem.get c.man.state i.addr).join (recorded c.addrs c.man.i), some act) := by
  rw [Config.scanned, found]
  simp only [acts]

/-- What is recorded stays recorded. -/
theorem Recorded.after (isBlock : c.man.block bb = b) (fits : c.Fits cache mem proc bb)
    (recorded' : Recorded b c.addrs a) : Recorded b (c.after bb) a := by
  unfold Config.after
  split
  case isTrue => exact recorded'
  case isFalse reached =>
  unfold Config.scanned
  split
  case h_1 => exact recorded'
  case h_2 i found =>
  split
  case h_1 => exact recorded'
  case h_2 act acts =>
  obtain ⟨i', act', v, found', acts', isValue, inside⟩ := recorded'
  by_cases same : c.man.i = a.pc
  · rw [isBlock, same] at found
    cases found.symm.trans found'
    cases acts.symm.trans acts'
    refine ⟨i, act, _, found', acts, record_same _ _ same, ?_⟩
    have joins := fits.join (by simpa using reached) i (by rw [isBlock, same]; exact found)
      (by unfold action at acts; unfold Inst.Accesses; split at acts <;> simp_all)
    apply Value.union_subset_join joins
    right
    rw [recorded, same, List.getD_eq_getElem?_getD, isValue]
    exact inside
  · exact ⟨i', act', v, found', acts', record_other same isValue, inside⟩

/-- An access that is seen is recorded. -/
theorem recorded_seen (isBlock : c.man.block bb = b) (fits : c.Fits cache mem proc bb) (valid : c.man.Valid)
    (seen : Seen b [c.man] a) : Recorded b (c.after bb) a := by
  obtain ⟨u, mem, i, found, accesses, place, reached, inside⟩ := seen
  cases List.mem_singleton.mp mem
  have reached' : c.man.state.equals .bottom = false := by
    rw [← Bool.not_eq_true, State.equals_iff]
    rintro ⟨-, none, -⟩
    rcases valid.state.valid.first with empty | full
    · exact reached empty
    · rw [full] at none
      cases none
  obtain ⟨act, acts⟩ := action_of_accesses accesses
  have found' : (c.man.block bb)[c.man.i]? = some i := by rw [isBlock, place, found]
  rw [Config.after, if_neg (by simp [reached']), scanned_eq found' acts]
  refine ⟨i, act, _, found, acts, record_same _ _ place, ?_⟩
  exact Value.union_subset_join (fits.join reached' i found' accesses) (.inl inside)

/-! ### The loop inside an instruction -/

theorem iteration_of_running {h : Manager} (passes : Passes bb c.man h) (running : ¬ h.isPathEnded bb) :
    c.iteration cache mem proc bb = .going ⟨h.update proc bb, c.after bb, c.built⟩ := by
  obtain ⟨f, next⟩ := @next_of_running proc bb c.man h passes running
  unfold Config.iteration Config.after
  simp only [next]
  split
  · rfl
  · rw [if_neg (by simp)]
    rfl

/-- The loop goes through the places of an instruction, and what is seen there is recorded. -/
theorem comes_of_shows {us : List Manager} {e : Manager} (shows' : Shows proc bb c.man us e) (isBlock : c.man.block bb = b)
    (valid : c.man.Valid) (fits : ∀ c', Comes cache mem proc bb c c' → c'.Fits cache mem proc bb) :
    ∃ c', Comes cache mem proc bb c c' ∧ Passes bb c'.man e ∧ c'.built = c.built ∧
      ∀ a, Recorded b c.addrs a ∨ Seen b (c.man :: us) a → Recorded b (c'.after bb) a := by
  generalize isMan : c.man = u at shows'
  induction shows' generalizing c with
  | done passes =>
    subst isMan
    exact ⟨c, .refl, passes, rfl, fun a found =>
      found.elim (Recorded.after isBlock (fits c .refl)) (recorded_seen isBlock (fits c .refl) valid)⟩
  | @step u h e us passes running _ ih =>
    subst isMan
    have goes := @iteration_of_running cache mem proc bb c h passes running
    have sameBlock : (h.update proc bb).block bb = b := by
      rw [← isBlock, block, block, update_mi, passes.mi]
    obtain ⟨c', comes, last, built, recorded'⟩ := ih (c := ⟨h.update proc bb, c.after bb, c.built⟩) sameBlock
      (valid.reaches (@Passes.reaches proc bb _ _ passes)).update (fun c' comes => fits c' (.head goes comes)) rfl
    refine ⟨c', .head goes comes, last, built, fun a found => recorded' a ?_⟩
    rcases found with before | ⟨v, mem, seen⟩
    · exact .inl (before.after isBlock (fits c .refl))
    rcases List.mem_cons.mp mem with rfl | mem
    · exact .inl (recorded_seen isBlock (fits c .refl) valid ⟨_, List.mem_singleton_self _, seen⟩)
    · exact .inr ⟨v, mem, seen⟩

/-- The loop at the start of an instruction. -/
def entered (proc : Problem.Process) (bb : List Sem.Block) (m : Manager) (built : Built) : Outcome :=
  resume (m.next proc bb) [] built

/-- The loop after an instruction. -/
def afterInst (proc : Problem.Process) (bb : List Sem.Block) (e : Manager) (built : Built) : Outcome :=
  match e.turn bb with
  | none => .ended built
  | some m => entered proc bb m built

section

variable {e m : Manager} (passes : Passes bb m e) (ended : e.isPathEnded bb) (last : e.todo = [])
include passes ended last

theorem newInst_of_last : ∀ r ∈ m.next proc bb, r.2.newInst = true := by
  intro r mem
  rw [next_of_last passes ended last] at mem
  obtain ⟨m', -, mem⟩ := Option.bind_eq_some_iff.mp mem
  obtain ⟨r', -, rfl⟩ := Option.map_eq_some_iff.mp mem
  rfl

theorem entered_of_last (built : Built) : entered proc bb m built = afterInst proc bb e built := by
  rw [entered, afterInst, next_of_last passes ended last]
  cases e.turn bb with
  | none => rfl
  | some m' =>
    change resume ((m'.next proc bb).map fun r => (r.1, ⟨true, true⟩)) [] built = resume (m'.next proc bb) [] built
    cases m'.next proc bb with
    | none => rfl
    | some r => rfl

end

section

variable {e : Manager} (passes : Passes bb c.man e) (ended : e.isPathEnded bb) (last : e.todo = [])
  (fits : c.Fits cache mem proc bb)
include passes ended last fits

/-- Nothing is recorded where the last place of an instruction has no memory. -/
theorem after_of_empty (empty : c.man.state.equals .bottom = true) : c.addrs = [] := by
  by_contra some
  obtain ⟨r, mem, same⟩ := fits.last empty some
  rw [newInst_of_last passes ended last r mem] at same
  cases same

theorem after_places : ∀ p ∈ c.after bb, p.2 ≠ none → AddressFits cache mem p.1 := by
  unfold Config.after
  split
  case isTrue empty =>
    rw [after_of_empty passes ended last fits empty]
    exact fun p mem => absurd mem List.not_mem_nil
  case isFalse reached => exact fits.places (by simpa using reached) (newInst_of_last passes ended last)

/-- After the last place of an instruction its accesses are attached. -/
theorem iteration_of_last : c.iteration cache mem proc bb =
    match flush cache mem c.man.mi c.built (c.after bb) with
    | .error _ => .thrown
    | .ok built => afterInst proc bb e built := by
  have leaves : ∀ built, resume (c.man.next proc bb) [] built = afterInst proc bb e built :=
    entered_of_last passes ended last
  unfold Config.iteration Config.after
  simp only
  split
  case isTrue empty =>
    rw [after_of_empty passes ended last fits empty]
    exact leaves c.built
  case isFalse =>
    by_cases nothing : c.scanned bb = []
    · rw [if_neg (fun both => both.1 nothing), nothing]
      exact leaves c.built
    · rw [if_pos ⟨nothing, newInst_of_last passes ended last⟩]
      cases flush cache mem c.man.mi c.built (c.scanned bb) with
      | error => rfl
      | ok built => exact leaves built

end

/-! ### The loop on a basic block -/

theorem loop_of_comes (comes : Comes cache mem proc bb c c') :
    ∃ n, ∀ j, loop cache mem proc bb (n + j) (.going c) = loop cache mem proc bb j (.going c') := by
  induction comes with
  | refl => exact ⟨0, fun j => by rw [Nat.zero_add]⟩
  | @tail c₁ c₂ _ goes ih =>
    obtain ⟨n, eq⟩ := ih
    refine ⟨n + 1, fun j => ?_⟩
    rw [Nat.add_assoc, Nat.add_comm 1 j, eq, loop, goes]

/-- The accesses of an instruction, and after them those of the next ones. -/
theorem Covered.cons {k : Nat} {s s' : State} {built built₁ : Built} {o : Outcome} (isBlock : bb[k]? = some b)
    (grows : built.accs ⊆ built₁.accs)
    (now : ∀ x ∈ s.gamma, ∀ accs x', Exec b 0 x accs x' → x' ∈ s'.gamma ∧ ∀ a ∈ accs, mem a.address = some true →
      ∃ i act, b[a.pc]? = some i ∧ action i = some act ∧ Attached cache built₁ k act a.address)
    (rest : Covered cache mem bb (k + 1) s' built₁ o) : Covered cache mem bb k s built o := by
  cases o with
  | going => exact rest
  | thrown => trivial
  | ended built' =>
    obtain ⟨grows', later⟩ := rest
    refine ⟨List.Subset.trans grows grows', fun x inside accs x' runs access isAccess cached => ?_⟩
    cases runs with
    | ended past =>
      exact absurd isAccess List.not_mem_nil
    | step found exec runs =>
      cases found.symm.trans isBlock
      obtain ⟨inside', attached⟩ := now x inside _ _ exec
      rcases List.mem_append.mp isAccess with here | after
      · obtain ⟨a, isA, rfl⟩ := List.mem_map.mp here
        obtain ⟨i, act, found', acts, entry⟩ := attached a isA cached
        exact ⟨b, i, act, isBlock, found', acts, entry.mono grows'⟩
      · exact later _ inside' _ _ runs access after cached

/-- A run past the last instruction has no access. -/
theorem covered_past {k : Nat} {s : State} {built : Built} (past : bb.length ≤ k) :
    Covered cache mem bb k s built (.ended built) := by
  refine ⟨List.Subset.refl _, fun x _ accs x' runs access isAccess => ?_⟩
  cases runs with
  | ended => exact absurd isAccess List.not_mem_nil
  | step found =>
    obtain ⟨lt, -⟩ := List.getElem?_eq_some_iff.mp found
    omega

/-- The accesses of an instruction are attached, and the loop goes on with the next one. -/
theorem covered_afterInst {k : Nat} {s : State} {built built₁ : Built} {e : Manager} (isBlock : bb[k]? = some b)
    (mi : e.mi = k) (last : e.todo = []) (grows : built.accs ⊆ built₁.accs)
    (now : ∀ x ∈ s.gamma, ∀ accs x', Exec b 0 x accs x' → x' ∈ e.merged.gamma ∧
      ∀ a ∈ accs, mem a.address = some true →
        ∃ i act, b[a.pc]? = some i ∧ action i = some act ∧ Attached cache built₁ k act a.address)
    (next : e.turn bb = some (prepared (k + 1) e.merged) → k + 1 < bb.length →
      ∃ n, Covered cache mem bb (k + 1) e.merged built₁
        (loop cache mem proc bb n (entered proc bb (prepared (k + 1) e.merged) built₁))) :
    ∃ n, Covered cache mem bb k s built (loop cache mem proc bb n (afterInst proc bb e built₁)) := by
  have turned := @turn_of_last bb e last
  rw [mi] at turned
  unfold afterInst
  by_cases another : k + 1 < bb.length
  · rw [if_pos another] at turned
    obtain ⟨n, covered⟩ := next turned another
    rw [turned]
    exact ⟨n, .cons isBlock grows now covered⟩
  · rw [if_neg another] at turned
    rw [turned]
    exact ⟨0, .cons isBlock grows now (covered_past (by omega))⟩

/-- The loop from the start of an instruction on; the induction is on the instructions left. -/
theorem covered_from (k : Nat) (s : State) (built : Built) (reachable : s.Reachable) (inside : k < bb.length)
    (replay : ∀ m, Reaches proc bb (prepared k s) m → m.Fits proc bb)
    (fits : ∀ c, entered proc bb (prepared k s) built = .going c → ∀ c', Comes cache mem proc bb c c' →
      c'.Fits cache mem proc bb) :
    ∃ n, Covered cache mem bb k s built (loop cache mem proc bb n (entered proc bb (prepared k s) built)) := by
  induction remains : bb.length - k generalizing k s built with
  | zero => omega
  | succ n ih =>
  obtain ⟨b, isBlock⟩ : ∃ b, bb[k]? = some b := ⟨_, List.getElem?_eq_getElem inside⟩
  have same : (prepared k s).block bb = b := by
    rw [block, List.getD_eq_getElem?_getD]
    exact congrArg (fun found => Option.getD found []) isBlock
  obtain ⟨us, e, shows', reach, mi, todo, ended, -, sound⟩ := explore (prepared k s) replay
  have rest : ∀ built₁, built.accs ⊆ built₁.accs →
      (∀ a, Seen b us a → mem a.address = some true →
        ∃ i act, b[a.pc]? = some i ∧ action i = some act ∧ Attached cache built₁ k act a.address) →
      (∀ c, afterInst proc bb e built₁ = .going c → ∀ c', Comes cache mem proc bb c c' → c'.Fits cache mem proc bb) →
      ∃ n, Covered cache mem bb k s built (loop cache mem proc bb n (afterInst proc bb e built₁)) := by
    intro built₁ grows attached fits₁
    refine covered_afterInst isBlock mi todo grows (fun x mem accs x' exec => ?_) fun turned another => ?_
    · obtain ⟨seen, result⟩ := sound x mem accs x' (by rw [same]; exact exec)
      exact ⟨result.merged ((replay e reach).join ended), fun a isA => attached a (same ▸ seen a isA)⟩
    · have moves : Clp.Manager.Moves proc bb e (prepared (k + 1) e.merged) := by
        unfold Clp.Manager.Moves
        rw [if_pos ended, turned]
      rw [afterInst, turned] at fits₁
      exact ih (k + 1) e.merged built₁ ((valid_prepared reachable).reaches reach).merged another
        (fun m reaches => replay m ((reach.tail moves).trans reaches)) fits₁ (by omega)
  cases shows' with
  | done passes =>
    -- The instruction has no path.
    rw [entered_of_last passes ended todo] at fits ⊢
    exact rest built (List.Subset.refl _) (fun a seen => absurd seen.choose_spec.1 List.not_mem_nil) fits
  | @step _ h _ us passes running shows' =>
    obtain ⟨f, next⟩ := @next_of_running proc bb (prepared k s) h passes running
    have starts : entered proc bb (prepared k s) built = .going ⟨h.update proc bb, [], built⟩ := by
      rw [entered, next]
      rfl
    have fits := fits _ starts
    have isBlock' : (h.update proc bb).block bb = b := by rw [block, update_mi, passes.mi, ← same, block]
    have valid := (@valid_prepared k s reachable).reaches (@Passes.reaches proc bb _ _ passes)
    obtain ⟨c', comes, passes', sameBuilt, recorded'⟩ := comes_of_shows (c := ⟨h.update proc bb, [], built⟩)
      shows' isBlock' valid.update fits
    have fits' := fits c' comes
    have goes := iteration_of_last passes' ended todo fits'
    have inst : c'.man.mi = k := passes'.mi.symm.trans mi
    obtain ⟨n, comes'⟩ := loop_of_comes comes
    rw [starts]
    rw [inst, sameBuilt] at goes
    cases flushed : flush cache mem k built (c'.after bb) with
    | error =>
      refine ⟨n + 1, ?_⟩
      rw [comes', loop, goes, flushed]
      trivial
    | ok built₁ =>
      rw [flushed] at goes
      have attached : ∀ a, Seen b (h.update proc bb :: us) a → mem a.address = some true →
          ∃ i act, b[a.pc]? = some i ∧ action i = some act ∧ Attached cache built₁ k act a.address := by
        intro a seen cached
        obtain ⟨i, act, v, found, acts, isValue, inside⟩ := recorded' a (.inr seen)
        have isValue := List.mem_of_getElem? isValue
        exact ⟨i, act, found, acts, flush_covers flushed isValue
          (after_places passes' ended todo fits' _ isValue (Option.some_ne_none act)) inside cached⟩
      obtain ⟨n', covered⟩ := rest built₁ (flush_grows flushed) attached
        fun c eq c'' comes'' => fits c'' (comes.trans (.head (goes.trans eq) comes''))
      refine ⟨n + (n' + 1), ?_⟩
      rw [comes', loop, goes]
      exact covered

/-- The loop ends, and every access of a run of the basic block to a cached bank is in the place of an entry of
its instruction. -/
theorem accesses_covered (cache : Cache) (mem : Banks) (proc : Problem.Process) (bb : List Sem.Block) (s : State)
    (built : Built) (reachable : s.Reachable) (first : bb.getD 0 [] ≠ [])
    (replay : ∀ m, Reaches proc bb (prepared 0 s) m → m.Fits proc bb)
    (fits : ∀ c, Comes cache mem proc bb ⟨start proc bb s, [], built⟩ c → c.Fits cache mem proc bb) :
    ∃ fuel, Covered cache mem bb 0 s built (processBB cache mem proc bb s built fuel) := by
  have running : ¬ (prepared 0 s).isPathEnded bb := not_le.mpr (List.length_pos_iff.mpr first)
  have inside : 0 < bb.length := by
    by_contra none
    rw [List.length_eq_zero_iff.mp (Nat.eq_zero_of_not_pos none)] at first
    exact first rfl
  obtain ⟨f, next⟩ := @next_of_running proc bb (prepared 0 s) (prepared 0 s) .refl running
  have starts : entered proc bb (prepared 0 s) built = .going ⟨start proc bb s, [], built⟩ := by
    rw [entered, next]
    rfl
  unfold processBB
  rw [← starts]
  refine covered_from 0 s built reachable inside replay fun c goes => ?_
  cases starts.symm.trans goes
  exact fits

/-! ### One load -/

/-- A process without read-only data. -/
def noData : Problem.Process := ⟨fun _ => 0, fun _ => 0, fun _ => 0, 0, 0, fun _ => none⟩

/-- Four rows of blocks of 16 bytes. -/
def fourRows : Cache := ⟨4, 2, by decide⟩

/-- A load of a word. -/
def loads (d a : Word) : Inst := ⟨.load, d, a, INT32, 0⟩

/-- The register 0 holds the address 256. -/
def pointer : State := State.full.set ⟨.reg, 0, 0, 0⟩ (.const 256)

def nothingBuilt : Built := ⟨fun _ => [], []⟩

/-- The loop on a load. -/
def begins (d a : Word) (s : State) : Config := ⟨start noData [[loads d a]] s, [], nothingBuilt⟩

theorem begins_fits {d a k : Word} {s : State}
    (address : (Problem.get (begins d a s).man.state a).join .none = .const k) :
    (begins d a s).Fits fourRows (fun _ => some true) noData [[loads d a]] := by
  refine ⟨fun _ i _ _ => .inr (.inr (.inl rfl)), fun _ some => absurd rfl some, fun _ _ p mem _ => ?_⟩
  have scanned : (begins d a s).scanned [[loads d a]] =
      [((Problem.get (begins d a s).man.state a).join .none, some .load)] := rfl
  rw [scanned, address] at mem
  cases List.mem_singleton.mp mem
  exact ⟨nofun, .inr (.inl (.inl rfl))⟩

/-- The loop ends after the load. -/
theorem begins_ends {d a k : Word} {s : State}
    (address : (Problem.get (begins d a s).man.state a).join .none = .const k)
    (reached : (begins d a s).man.state.equals .bottom = false) :
    (begins d a s).iteration fourRows (fun _ => some true) noData [[loads d a]] =
      .ended (nothingBuilt.addBlock 0 .load (fourRows.set k) (fourRows.round k)) := by
  have ended : (begins d a s).man.isPathEnded [[loads d a]] := Nat.le_refl 1
  rw [iteration_of_last .refl ended rfl (begins_fits address), Config.after, reached]
  have scanned : (begins d a s).scanned [[loads d a]] =
      [((Problem.get (begins d a s).man.state a).join .none, some .load)] := rfl
  rw [if_neg Bool.false_ne_true, scanned, address]
  rfl

/-- A load from a known address into another register. -/
theorem accesses_covered_load : ∃ fuel, Covered fourRows (fun _ => some true) [[loads 1 0]] 0 pointer nothingBuilt
    (processBB fourRows (fun _ => some true) noData [[loads 1 0]] pointer nothingBuilt fuel) := by
  have after : Problem.update noData (loads 1 0) pointer = Problem.set pointer 1 .all := rfl
  refine accesses_covered fourRows (fun _ => some true) noData [[loads 1 0]] pointer nothingBuilt
    (.set _ _ .full) (by decide) (fun m reaches => ?_) fun c comes => ?_
  · have places : m = prepared 0 pointer ∨ m = start noData [[loads 1 0]] pointer := by
      induction reaches with
      | refl => exact .inl rfl
      | tail _ moves ih =>
        rcases ih with rfl | rfl
        · exact .inr moves
        · cases moves
    rcases places with rfl | rfl
    · refine ⟨fun i found => ?_, fun ended => absurd ended (by decide)⟩
      cases found
      refine ⟨fun m mem m' steps => ?_, fun _ same => absurd same (by decide)⟩
      obtain ⟨w, -, rfl⟩ := steps
      obtain ⟨first, values⟩ := @State.known_set pointer ⟨.reg, 1, 0, 0⟩ .all
        (by decide) (by decide) (by decide)
      have reached : pointer.first ≠ .none := by decide
      change m ∈ pointer.gamma at mem
      change _ ∈ (Problem.update noData (loads 1 0) pointer).gamma
      rw [State.gamma_of_reached reached] at mem
      rw [after, Problem.set, State.gamma_of_reached (first.trans_ne reached)]
      intro y _
      simp only [values]
      split
      case isTrue => exact Set.mem_univ _
      case isFalse other =>
        have other : y ≠ reg (loads 1 0).d := other
        rw [Function.update_of_ne other]
        exact mem y (Set.mem_univ y)
    · exact ⟨fun i found => (by cases found), fun _ cs some => (by cases some)⟩
  · have address : (Problem.get (begins 1 0 pointer).man.state 0).join .none = .const 256 := by decide +kernel
    have only : c = begins 1 0 pointer := by
      induction comes with
      | refl => rfl
      | tail _ goes ih =>
        subst ih
        rw [begins_ends address (by decide +kernel)] at goes
        cases goes
    rw [only]
    exact begins_fits address

/-- The register 1 holds the address 256, and the cell there 7. -/
def chain : State := (State.full.set ⟨.reg, 1, 0, 0⟩ (.const 256)).set (.const 256) (.const 7)

/-- A memory of the state. -/
def chainMemory : Memory
  | .register _ => 256
  | .memory _ => 7

theorem chainMemory_mem : chainMemory ∈ chain.gamma := by
  have full := State.mem_full chainMemory
  have register := @State.mem_set _ ⟨.reg, 1, 0, 0⟩ (.const 256) _ (by decide) full ⟨0, by decide, by decide⟩
  exact @State.mem_set _ (.const 256) (.const 7) _ (by decide) register ⟨0, by decide, by decide⟩

/-- A load into its address register: the block attached is the one of the word loaded. -/
theorem load_over_address_not_covered : ¬ ∀ (cache : Cache) (mem : Banks) (proc : Problem.Process)
    (bb : List Sem.Block) (s : State) (built : Built), s.Reachable → bb.getD 0 [] ≠ [] →
    ∃ fuel, Covered cache mem bb 0 s built (processBB cache mem proc bb s built fuel) := by
  intro all
  obtain ⟨fuel, covered⟩ := all fourRows (fun _ => some true) noData [[loads 1 1]] chain nothingBuilt
    (.set _ _ (.set _ _ .full)) (by decide)
  cases fuel with
  | zero => exact covered
  | succ fuel =>
  have ends := @begins_ends 1 1 7 chain (by decide +kernel) (by decide +kernel)
  have built : processBB fourRows (fun _ => some true) noData [[loads 1 1]] chain nothingBuilt (fuel + 1) =
      .ended (nothingBuilt.addBlock 0 .load (fourRows.set 7) (fourRows.round 7)) := by
    rw [processBB, loop]
    change loop _ _ _ _ fuel ((begins 1 1 chain).iteration _ _ _ _) = _
    rw [ends]
    cases fuel <;> rfl
  rw [built] at covered
  have steps : (loads 1 1).Steps chainMemory (Function.update chainMemory (reg 1) 7) :=
    ⟨7, fun r isResult => Option.some.inj isResult, rfl⟩
  have exec : Exec [loads 1 1] 0 chainMemory [⟨0, 256⟩] (Function.update chainMemory (reg 1) 7) :=
    Exec.step rfl steps rfl (Exec.ended le_rfl)
  obtain ⟨b, i, act, -, -, -, e, mem, -, -, covers⟩ := covered.2 _ chainMemory_mem _ _
    (.step rfl exec (.ended le_rfl)) (0, ⟨0, 256⟩) List.mem_cons_self rfl
  cases List.mem_singleton.mp mem
  exact absurd covers.2 (by decide)

end Otawa.Dcache.CLPBlockBuilder
