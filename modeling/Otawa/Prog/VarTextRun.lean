import Otawa.Lib.Fallible
import Otawa.Prog.VarTextDecoder

/-!
# What `VarTextDecoder` has followed

`Walks` says what a sequence is and `Inv` what holds between two turns of the main loop: an instruction that has been
followed has its next ones followed or on the queue, and one with a marker has been followed. When the queue is empty
the instructions that have been followed are closed (`Inv.closed`). This holds of every run that is not broken off,
whatever the program.
-/

namespace Otawa.VarTextDecoder

open Otawa.Fallible

variable {logInst : Bool} {image : Image}

/-- The instruction is the one at its address. -/
def Placed (image : Image) (inst : Inst) : Prop := image.findInstAt inst.address = .inst inst

theorem known_eq_some {addr : Address} {inst : Inst} :
    image.known addr = some inst ↔ image.findInstAt addr = .inst inst ∧ inst.isUnknown = false := by
  rw [Image.known]
  split
  case h_1 i eq =>
    rw [Option.ite_none_left_eq_some, eq, Found.inst.injEq, Bool.not_eq_true, Option.some.injEq, and_comm]
    exact and_congr_right fun same => by rw [same]
  case h_2 other =>
    constructor
    · intro eq
      cases eq
    · exact fun ⟨found, _⟩ => absurd found (other inst)

theorem placed_of_found {addr : Address} {inst : Inst} (found : image.findInstAt addr = .inst inst) :
    Placed image inst := by
  rw [Placed, image.address_eq addr inst found, found]

theorem placed_of_known {addr : Address} {inst : Inst} (known : image.known addr = some inst) : Placed image inst :=
  placed_of_found (known_eq_some.mp known).1

/-! ## Sequences -/

/-- A sequence of instructions. -/
inductive Walks (image : Image) (marked : Finset Address) : Inst → Walk → Prop
  | marked {inst : Inst} (mem : inst.address ∈ marked) : Walks image marked inst ⟨[], [], some inst⟩
  | control {inst : Inst} (new : inst.address ∉ marked) (control : inst.isControl) :
      Walks image marked inst ⟨[inst], [], some inst⟩
  | broken {inst : Inst} (new : inst.address ∉ marked) (plain : inst.isControl = false)
      (bad : image.known inst.topAddress = none) :
      Walks image marked inst
        ⟨[inst], image.complaints inst.topAddress inst ++ [.unknownNext inst.topAddress], none⟩
  | next {inst i : Inst} {walk : Walk} (new : inst.address ∉ marked) (plain : inst.isControl = false)
      (known : image.known inst.topAddress = some i) (rest : Walks image marked i walk) :
      Walks image marked inst ⟨inst :: walk.visited, walk.warnings, walk.stop⟩

theorem follow_walks {marked : Finset Address} {fuel : ℕ} {inst : Inst} {walk : Walk}
    (followed : follow image marked fuel inst = some walk) : Walks image marked inst walk := by
  induction fuel generalizing inst walk with
  | zero => cases followed
  | succ fuel ih =>
    rw [follow] at followed
    split at followed
    case isTrue mem =>
      cases followed
      exact .marked mem
    case isFalse new =>
      split at followed
      case isTrue control =>
        cases followed
        exact .control new control
      case isFalse plain =>
        rw [Bool.not_eq_true] at plain
        split at followed
        case h_1 bad =>
          cases followed
          exact .broken new plain bad
        case h_2 i known =>
          obtain ⟨walk', rest, rfl⟩ := Option.map_eq_some_iff.mp followed
          exact .next new plain known (ih rest)

namespace Walks

variable {marked : Finset Address} {first : Inst} {walk : Walk}

theorem first_mem (walks : Walks image marked first walk) : first ∈ walk.visited ∨ first.address ∈ marked := by
  cases walks with
  | marked mem => exact .inr mem
  | control => exact .inl List.mem_cons_self
  | broken => exact .inl List.mem_cons_self
  | next => exact .inl List.mem_cons_self

/-- What holds of the first instruction and goes on to the next one holds of all. -/
theorem closed {P : Inst → Prop} (walks : Walks image marked first walk) (base : P first)
    (step : ∀ i j, P i → i.isControl = false → image.known i.topAddress = some j → P j) :
    ∀ i ∈ walk.visited, P i := by
  induction walks with
  | marked => exact List.forall_mem_nil _
  | control _ _ => exact List.forall_mem_singleton.mpr base
  | broken _ _ _ => exact List.forall_mem_singleton.mpr base
  | next _ plain known _ ih => exact List.forall_mem_cons.mpr ⟨base, ih (step _ _ base plain known)⟩

section

variable (walks : Walks image marked first walk)
include walks

theorem placed (own : Placed image first) : ∀ i ∈ walk.visited, Placed image i :=
  walks.closed own fun _ _ _ _ known => placed_of_known known

/-- The sequence stops at a marker or at a control instruction. -/
theorem stop_eq {inst : Inst} (stop : walk.stop = some inst) :
    inst.address ∈ marked ∨ inst ∈ walk.visited ∧ inst.isControl := by
  induction walks with
  | marked mem =>
    cases stop
    exact .inl mem
  | control _ control =>
    cases stop
    exact .inr ⟨List.mem_cons_self, control⟩
  | broken => cases stop
  | next _ _ _ _ ih => exact (ih stop).imp_right (And.imp_left (List.mem_cons_of_mem _))

/-- A marker on the first instruction stops the sequence there. -/
theorem stop_of_marked (mem : first.address ∈ marked) : walk.stop = some first := by
  cases walks with
  | marked => rfl
  | control new => exact absurd mem new
  | broken new => exact absurd mem new
  | next new => exact absurd mem new

/-- A control instruction ends the sequence. -/
theorem control_stops {inst : Inst} (mem : inst ∈ walk.visited)
    (control : inst.isControl) : walk.stop = some inst ∧ inst.address ∉ marked := by
  induction walks with
  | marked => cases mem
  | control new _ =>
    obtain rfl := List.mem_singleton.mp mem
    exact ⟨rfl, new⟩
  | broken _ plain =>
    rw [List.mem_singleton.mp mem, plain] at control
    cases control
  | next _ plain _ _ ih =>
    rcases List.mem_cons.mp mem with rfl | mem
    · rw [plain] at control
      cases control
    · exact ih mem

/-- The next instruction is in the sequence, or has a marker. -/
theorem next_mem {inst i : Inst} (mem : inst ∈ walk.visited)
    (plain : inst.isControl = false) (known : image.known inst.topAddress = some i) :
    i ∈ walk.visited ∨ i.address ∈ marked := by
  induction walks with
  | marked => cases mem
  | control _ control =>
    rw [List.mem_singleton.mp mem, control] at plain
    cases plain
  | broken _ _ bad =>
    rw [List.mem_singleton.mp mem, bad] at known
    cases known
  | next _ _ known' rest ih =>
    rcases List.mem_cons.mp mem with rfl | mem
    · rw [known'] at known
      cases known
      exact rest.first_mem.imp_left (List.mem_cons_of_mem _)
    · exact (ih mem).imp_left (List.mem_cons_of_mem _)

/-- A bad address after an instruction is reported. -/
theorem warned {inst : Inst} (mem : inst ∈ walk.visited)
    (plain : inst.isControl = false) (bad : image.known inst.topAddress = none) :
    ∃ w ∈ walk.warnings, w.address = inst.topAddress := by
  induction walks with
  | marked => cases mem
  | control _ control =>
    rw [List.mem_singleton.mp mem, control] at plain
    cases plain
  | broken =>
    rw [List.mem_singleton.mp mem]
    exact ⟨_, List.mem_append_right _ (List.mem_singleton_self _), rfl⟩
  | next _ _ known _ ih =>
    rcases List.mem_cons.mp mem with rfl | mem
    · rw [bad] at known
      cases known
    · exact ih mem

/-- If the sequences from the markers end, so does this one. -/
theorem ends (own : Placed image first)
    (known : ∀ i, Placed image i → i.address ∈ marked → Ends image i) : Ends image first := by
  induction walks with
  | marked mem => exact known _ own mem
  | control _ control => exact .control control
  | broken _ plain bad => exact .broken plain bad
  | next _ plain at_next _ ih => exact .next plain at_next (ih (placed_of_known at_next))

theorem ends_visited (ends : Ends image first) : ∀ i ∈ walk.visited, Ends image i := by
  refine walks.closed ends fun i j ends plain known => ?_
  cases ends with
  | control control =>
    rw [plain] at control
    cases control
  | broken _ bad =>
    rw [bad] at known
    cases known
  | next _ known' ends =>
    rw [known'] at known
    cases known
    exact ends

end

end Walks

/-! ## Targets -/

theorem branch_eq_some {inst t : Inst} : image.branch inst = some t ↔ image.target inst = .inst t := by
  rw [Image.branch]
  split
  case h_1 i eq => rw [eq, Option.some.injEq, Target.inst.injEq]
  case h_2 other =>
    constructor
    · intro eq
      cases eq
    · exact fun eq => absurd eq (other t)

/-- The target of a branch is an instruction that is known. -/
def Direct (image : Image) (inst : Inst) : Prop :=
  ∀ t, image.branch inst = some t → inst.returns = false → t.noCall = false → t.isUnknown = false

theorem Direct.known {inst : Inst} (direct : Direct image inst) {t : Inst} (branch : image.branch inst = some t)
    (goes : inst.returns = false) (taken : t.noCall = false) : image.known t.address = some t :=
  known_eq_some.mpr ⟨image.target_found inst t (branch_eq_some.mp branch), direct t branch goes taken⟩

namespace Puts

/-- The instruction at an address is put on the queue, and a bad address is reported. -/
structure Handles (image : Image) (puts : Puts) (addr : Address) : Prop where
  known : ∀ i, image.known addr = some i → some i ∈ puts.todo
  bad : image.known addr = none → ∃ w ∈ puts.warnings, w.address = addr

/-- What is put on the queue comes after the instruction, and is known unless it is its direct target. -/
def Leads (image : Image) (inst : Inst) (puts : Puts) : Prop :=
  ∀ i, some i ∈ puts.todo → ∃ addr, Next image inst addr ∧ image.findInstAt addr = .inst i ∧
    (Direct image inst → i.isUnknown = false)

variable {inst : Inst} {puts more : Puts} {addr : Address}

theorem Handles.append_left (handles : puts.Handles image addr) (more : Puts) : (puts.append more).Handles image addr where
  known i known := List.mem_append_left _ (handles.known i known)
  bad bad := by
    obtain ⟨w, mem, own⟩ := handles.bad bad
    exact ⟨w, List.mem_append_left _ mem, own⟩

theorem Handles.append_right (handles : more.Handles image addr) (puts : Puts) : (puts.append more).Handles image addr where
  known i known := List.mem_append_right _ (handles.known i known)
  bad bad := by
    obtain ⟨w, mem, own⟩ := handles.bad bad
    exact ⟨w, List.mem_append_right _ mem, own⟩

theorem Handles.of_known {i : Inst} (known : image.known addr = some i) (mem : some i ∈ puts.todo) :
    puts.Handles image addr where
  known j known' := by
    rw [known] at known'
    exact known' ▸ mem
  bad bad := by
    rw [known] at bad
    cases bad

theorem Handles.of_bad (bad : image.known addr = none) {w : Warning} (mem : w ∈ puts.warnings)
    (own : w.address = addr) : puts.Handles image addr where
  known i known := by
    rw [bad] at known
    cases known
  bad _ := ⟨w, mem, own⟩

theorem Leads.append (leads : puts.Leads image inst) (leads' : more.Leads image inst) :
    (puts.append more).Leads image inst := fun i mem =>
  (List.mem_append.mp mem).elim (leads i) (leads' i)

theorem leads_next {i : Inst} (next : Next image inst addr) (known : image.known addr = some i)
    (only : ∀ j, some j ∈ puts.todo → j = i) : puts.Leads image inst := by
  intro j mem
  obtain ⟨found, ok⟩ := known_eq_some.mp known
  exact only j mem ▸ ⟨addr, next, found, fun _ => ok⟩

theorem leads_nil (warnings : List Warning) : Leads image inst ⟨[], warnings⟩ := fun _ mem => nomatch mem

end Puts

section Targets

variable {inst : Inst} {puts : Puts} {addr : Address}

theorem sequel_handles (inst : Inst) : (sequel image inst).Handles image inst.topAddress := by
  rw [sequel]
  split
  case h_1 bad => exact .of_bad bad (List.mem_append_right _ (List.mem_singleton_self _)) rfl
  case h_2 i known => exact .of_known known List.mem_cons_self

theorem sequel_leads (next : Next image inst inst.topAddress) : (sequel image inst).Leads image inst := by
  rw [sequel]
  split
  case h_1 => exact fun i mem => nomatch List.mem_singleton.mp mem
  case h_2 i known => exact Puts.leads_next next known (by simp)

theorem recorded_handles (inst : Inst) (addr : Address) : (recorded image inst addr).Handles image addr := by
  rw [recorded]
  split
  case h_1 bad => exact .of_bad bad (List.mem_append_right _ (List.mem_singleton_self _)) rfl
  case h_2 i known => exact .of_known known List.mem_cons_self

theorem recorded_leads (next : Next image inst addr) : (recorded image inst addr).Leads image inst := by
  rw [recorded]
  split
  case h_1 => exact Puts.leads_nil _
  case h_2 i known => exact Puts.leads_next next known (by simp)

theorem indirect_handles (mem : addr ∈ inst.targets) : (indirect logInst image inst).Handles image addr := by
  have all : (inst.targets.foldr (fun addr puts => (recorded image inst addr).append puts) .empty).Handles image addr := by
    generalize inst.targets = targets at mem
    induction targets with
    | nil => cases mem
    | cons target targets ih =>
      rcases List.mem_cons.mp mem with rfl | mem
      · exact (recorded_handles inst addr).append_left _
      · exact (ih mem).append_right _
  rw [indirect]
  split
  · exact all.append_left _
  · exact all

theorem indirect_leads (next : ∀ addr ∈ inst.targets, Next image inst addr) :
    (indirect logInst image inst).Leads image inst := by
  have all : (inst.targets.foldr (fun addr puts => (recorded image inst addr).append puts) .empty).Leads image inst := by
    generalize inst.targets = targets at next
    induction targets with
    | nil => exact Puts.leads_nil _
    | cons target targets ih =>
      obtain ⟨first, rest⟩ := List.forall_mem_cons.mp next
      exact (recorded_leads first).append (ih rest)
  rw [indirect]
  split
  · exact all.append (Puts.leads_nil _)
  · exact all

section

variable {target : Option Inst}

theorem callReturn_handles (ok : callReturn image inst target = .ok puts) : puts.Handles image inst.topAddress := by
  rw [callReturn.eq_def] at ok
  split at ok
  case h_1 i known =>
    cases ok
    exact .of_known known List.mem_cons_self
  case h_2 bad =>
    cases target with
    | none => cases ok
    | some t =>
      cases ok
      exact .of_bad bad (List.mem_append_right _ (List.mem_singleton_self _)) rfl

theorem callReturn_leads (ok : callReturn image inst target = .ok puts)
    (next : Next image inst inst.topAddress) : puts.Leads image inst := by
  rw [callReturn.eq_def] at ok
  split at ok
  case h_1 i known =>
    cases ok
    exact Puts.leads_next next known (by simp)
  case h_2 bad =>
    cases target with
    | none => cases ok
    | some t =>
      cases ok
      exact Puts.leads_nil _

theorem comesBack_iff : comesBack inst target ↔ inst.isCall ∧ ∀ t, target = some t → t.noReturn = false := by
  cases target <;> simp [comesBack]

theorem transfer_ok (ok : transfer logInst image inst target = .ok puts) :
    comesBack inst target = false ∧ puts = goesTo logInst image inst target ∨
      comesBack inst target ∧ ∃ back, callReturn image inst target = .ok back ∧
        puts = (goesTo logInst image inst target).append back := by
  rw [transfer] at ok
  split at ok
  case isTrue back =>
    obtain ⟨puts', returned, rfl⟩ := map_ok.mp ok
    exact .inr ⟨back, puts', returned, rfl⟩
  case isFalse goes => exact .inl ⟨Bool.eq_false_iff.mpr goes, (Except.ok.inj ok).symm⟩

end

/-- The first part of what is put on the queue: the next instruction of a conditional one. -/
def first (image : Image) (inst : Inst) : Puts :=
  if inst.isConditional then sequel image inst else .empty

theorem record_ok (ok : record logInst image inst = .ok puts) (goes : inst.returns = false) :
    image.target inst ≠ .decoding ∧ ∃ warnings more, transfer logInst image inst (image.branch inst) = .ok more ∧
      puts = ((first image inst).append ⟨[], warnings⟩).append more := by
  have empty : (first image inst).append ⟨[], []⟩ = first image inst := by simp [Puts.append]
  rw [record, if_neg (by rw [goes]; exact Bool.false_ne_true)] at ok
  rw [Image.branch]
  split at ok
  case h_1 t eq =>
    obtain ⟨more, transferred, rfl⟩ := map_ok.mp ok
    rw [eq]
    exact ⟨nofun, [], more, transferred, by rw [empty]; rfl⟩
  case h_2 eq =>
    obtain ⟨more, transferred, rfl⟩ := map_ok.mp ok
    rw [eq]
    exact ⟨nofun, [], more, transferred, by rw [empty]; rfl⟩
  case h_3 eq =>
    obtain ⟨more, transferred, rfl⟩ := map_ok.mp ok
    rw [eq]
    exact ⟨nofun, _, more, transferred, rfl⟩
  case h_4 => cases ok

theorem record_returns (goes : inst.returns = true) : record logInst image inst = .ok (first image inst) :=
  if_pos goes

section

variable (ok : record logInst image inst = .ok puts)
include ok

/-- All the addresses that control may go to are handled. -/
theorem record_handles (control : inst.isControl) (direct : Direct image inst)
    (next : Next image inst addr) : puts.Handles image addr := by
  have conditional : inst.isConditional → (first image inst).Handles image inst.topAddress := by
    intro cond
    rw [first, if_pos cond]
    exact sequel_handles inst
  by_cases goes : inst.returns = false
  · obtain ⟨-, warnings, more, transferred, rfl⟩ := record_ok ok goes
    have goesTo_handles : ∀ addr, (goesTo logInst image inst (image.branch inst)).Handles image addr →
        more.Handles image addr := by
      intro addr handles
      obtain ⟨-, rfl⟩ | ⟨-, back, -, rfl⟩ := transfer_ok transferred
      · exact handles
      · exact handles.append_left back
    cases next with
    | sequence plain =>
      rw [plain] at control
      cases control
    | conditional _ cond => exact ((conditional cond).append_left _).append_left _
    | target _ _ branch taken =>
      refine (goesTo_handles _ ?_).append_right _
      rw [branch, goesTo, if_neg (by rw [taken]; exact Bool.false_ne_true)]
      exact .of_known (direct.known branch goes taken) List.mem_cons_self
    | recorded _ _ indirect mem =>
      refine (goesTo_handles _ ?_).append_right _
      rw [indirect, goesTo]
      exact indirect_handles mem
    | callReturn _ _ call comes =>
      refine Puts.Handles.append_right ?_ _
      obtain ⟨stays, -⟩ | ⟨-, back, returned, rfl⟩ := transfer_ok transferred
      · rw [comesBack_iff.mpr ⟨call, comes⟩] at stays
        cases stays
      · exact (callReturn_handles returned).append_right _
  · rw [Bool.not_eq_false] at goes
    rw [record_returns goes] at ok
    cases ok
    cases next with
    | sequence plain =>
      rw [plain] at control
      cases control
    | conditional _ cond => exact conditional cond
    | target _ stays => exact absurd (stays.symm.trans goes) Bool.false_ne_true
    | recorded _ stays => exact absurd (stays.symm.trans goes) Bool.false_ne_true
    | callReturn _ stays => exact absurd (stays.symm.trans goes) Bool.false_ne_true

/-- Only these are put on the queue. -/
theorem record_leads (control : inst.isControl) : puts.Leads image inst := by
  have conditional : (first image inst).Leads image inst := by
    rw [first]
    split
    case isTrue cond => exact sequel_leads (.conditional control cond)
    case isFalse => exact Puts.leads_nil _
  by_cases goes : inst.returns = false
  · obtain ⟨-, warnings, more, transferred, rfl⟩ := record_ok ok goes
    refine (conditional.append (Puts.leads_nil _)).append ?_
    have targets : (goesTo logInst image inst (image.branch inst)).Leads image inst := by
      cases branch : image.branch inst with
      | none => exact indirect_leads fun addr mem => .recorded control goes branch mem
      | some t =>
        rw [goesTo]
        split
        case isTrue => exact Puts.leads_nil _
        case isFalse taken =>
          rw [Bool.not_eq_true] at taken
          intro i mem
          have same : i = t := by simpa using mem
          exact same ▸ ⟨_, .target control goes branch taken, image.target_found inst t (branch_eq_some.mp branch),
            fun direct => direct t branch goes taken⟩
    obtain ⟨-, rfl⟩ | ⟨comes, back, returned, rfl⟩ := transfer_ok transferred
    · exact targets
    · obtain ⟨call, comes⟩ := comesBack_iff.mp comes
      exact targets.append (callReturn_leads returned (.callReturn control goes call comes))
  · rw [Bool.not_eq_false] at goes
    rw [record_returns goes] at ok
    cases ok
    exact conditional

/-- The target of a branch is put on the queue even if it is unknown. -/
theorem target_mem (goes : inst.returns = false) {t : Inst}
    (branch : image.branch inst = some t) (taken : t.noCall = false) : some t ∈ puts.todo := by
  obtain ⟨-, warnings, more, transferred, rfl⟩ := record_ok ok goes
  refine List.mem_append_right _ ?_
  have mem : some t ∈ (goesTo logInst image inst (image.branch inst)).todo := by
    rw [branch, goesTo, if_neg (by rw [taken]; exact Bool.false_ne_true)]
    exact List.mem_cons_self
  obtain ⟨-, rfl⟩ | ⟨-, back, -, rfl⟩ := transfer_ok transferred
  · exact mem
  · exact List.mem_append_left _ mem

/-- An indirect call must come back to a valid address. -/
theorem return_known (goes : inst.returns = false) (call : inst.isCall)
    (indirect : image.branch inst = none) : image.known inst.topAddress ≠ none := by
  obtain ⟨-, warnings, more, transferred, rfl⟩ := record_ok ok goes
  intro bad
  obtain ⟨stays, -⟩ | ⟨-, back, returned, -⟩ := transfer_ok transferred
  · rw [comesBack_iff.mpr ⟨call, fun t eq => nomatch indirect.symm.trans eq⟩] at stays
    cases stays
  · rw [callReturn.eq_def, bad, indirect] at returned
    cases returned

end

/-- Nothing breaks off unless the target is not decoded or an indirect call comes back to a bad address. -/
theorem record_total (logInst : Bool) (decoded : inst.returns = false → image.target inst ≠ .decoding)
    (back : inst.returns = false → inst.isCall → image.branch inst = none → image.known inst.topAddress ≠ none) :
    ∃ puts, record logInst image inst = .ok puts := by
  by_cases goes : inst.returns = false
  · have transfers : ∃ more, transfer logInst image inst (image.branch inst) = .ok more := by
      rw [transfer]
      split
      case isFalse => exact ⟨_, rfl⟩
      case isTrue comes =>
        have call := (comesBack_iff.mp comes).1
        suffices returned : ∃ puts, callReturn image inst (image.branch inst) = .ok puts by
          obtain ⟨puts, returned⟩ := returned
          exact ⟨_, map_ok.mpr ⟨puts, returned, rfl⟩⟩
        rw [callReturn.eq_def]
        split
        case h_1 => exact ⟨_, rfl⟩
        case h_2 bad =>
          cases branch : image.branch inst with
          | none => exact absurd bad (back goes call branch)
          | some t => exact ⟨_, rfl⟩
    obtain ⟨more, transferred⟩ := transfers
    rw [record, if_neg (by rw [goes]; exact Bool.false_ne_true)]
    rw [Image.branch] at transferred
    split
    case h_1 t eq =>
      rw [eq] at transferred
      exact ⟨_, map_ok.mpr ⟨more, transferred, rfl⟩⟩
    case h_2 eq =>
      rw [eq] at transferred
      exact ⟨_, map_ok.mpr ⟨more, transferred, rfl⟩⟩
    case h_3 eq =>
      rw [eq] at transferred
      exact ⟨_, map_ok.mpr ⟨more, transferred, rfl⟩⟩
    case h_4 eq => exact absurd eq (decoded goes)
  · rw [Bool.not_eq_false] at goes
    exact ⟨_, record_returns goes⟩

end Targets

end Otawa.VarTextDecoder
