import Otawa.Clp.Replay
import Otawa.Clp.Shift

/-!
# Soundness of the analysis of a block

`Problem::update` interprets a basic block from the state at its entry. What it leaves covers the memory after each run
of the block, whichever paths its instructions take: the transfer of a semantic instruction is sound where
`TransferFits` holds, and the states at the ends of the paths are joined.
-/

namespace Otawa.Clp

open Branching Sem

/-- The OR of two words is known where both are. -/
theorem Value.or_sound {v val : Value} {x y : Word} (hx : x ∈ v.gamma) (hy : y ∈ val.gamma) :
    x ||| y ∈ (v.or val).gamma := by
  unfold or
  rcases kind_of_mem hx with kindV | kindV
  case inr => simp [kindV, gamma_of_all]
  rcases kind_of_mem hy with kind | kind
  case inr => simp [kindV, kind, gamma_of_all]
  simp only [kindV, kind, reduceCtorEq, or_self, if_false]
  split
  case isTrue const =>
    split
    case isTrue constV =>
      cases gamma_subset_const (by simp [kindV]) constV hx
      cases gamma_subset_const (by simp [kind]) const hy
      rw [gamma_val]
      exact Progression.base_mem _ _ _
    case isFalse => exact Set.mem_univ _
  case isFalse => exact Set.mem_univ _

namespace Problem

variable {proc : Process} {b : Block} {bb : List Block} {s s' t : State} {pc k : ℕ} {l : List State} {i : Inst}
  {x x' : Memory} {accs : List Access}

/-! ### The transfers -/

/-- Where the transfer of an instruction keeps all words. -/
def TransferFits (proc : Process) (s : State) (i : Inst) : Prop :=
  match i.op with
  | .add => (get s i.a).AddFits (get s i.b)
  | .sub => (get s i.a).AddFits (get s i.b).opposite
  | .shl | .shr | .asr => (get s i.a).ShiftFits (get s i.b) ∧ ∀ t ∈ (get s i.b).gamma, t.toNat < 32
  | .load | .store => ∀ x ∈ s.gamma, ∀ x', i.Steps x x' → x' ∈ (update proc i s).gamma
  | _ => True

theorem set_covers {d w : Word} {v : Value} (mem : x ∈ s.gamma) (word : w ∈ v.gamma) :
    Function.update x (reg d) w ∈ (set s d v).gamma := by
  have reached := Manager.reached_of_mem mem
  have stored : v ≠ .none := by
    rintro rfl
    exact word
  have nall : (⟨.reg, d, 0, 0⟩ : Value) ≠ .all := fun eq => nomatch congrArg Value.kind eq
  obtain ⟨first, known⟩ := State.known_set reached stored nall
  rw [State.gamma_of_reached reached] at mem
  rw [set, State.gamma_of_reached (first.trans_ne reached)]
  intro y _
  dsimp only
  rw [known]
  split
  case isTrue eq =>
    subst eq
    rwa [show Value.location ⟨.reg, d, 0, 0⟩ = reg d from rfl, Function.update_self]
  case isFalse ne =>
    rw [Function.update_of_ne (show y ≠ reg d from ne)]
    exact mem y (Set.mem_univ y)

theorem update_sound (fits : TransferFits proc s i) (mem : x ∈ s.gamma) (steps : i.Steps x x') :
    x' ∈ (update proc i s).gamma := by
  have ha := Manager.mem_register mem i.a
  have hb := Manager.mem_register mem i.b
  unfold TransferFits at fits
  by_cases accesses : i.Accesses
  · rcases accesses with op | op
    all_goals
      rw [op] at fits
      exact fits x mem x' steps
  rw [Inst.Accesses, not_or] at accesses
  unfold Inst.Steps Inst.result at steps
  unfold update
  cases op : i.op
  all_goals simp only [op] at *
  case nop | branch | trap | cont | «if» => exact steps ▸ mem
  case load | store => simp at accesses
  all_goals obtain ⟨w, word, rfl⟩ := steps
  case set => exact set_covers mem (word _ rfl ▸ ha)
  case seti => exact set_covers mem (word _ rfl ▸ Value.mem_const _)
  case add => exact set_covers mem (word _ rfl ▸ Value.add_sound fits ha hb)
  case sub => exact set_covers mem (word _ rfl ▸ Value.sub_sound fits ha hb)
  case or => exact set_covers mem (word _ rfl ▸ Value.or_sound ha hb)
  case shl => exact set_covers mem (word _ (if_pos (fits.2 _ hb)) ▸ Value.shl_sound fits.1 ha hb)
  case shr => exact set_covers mem (word _ (if_pos (fits.2 _ hb)) ▸ (Value.shr_sound fits.1 ha hb (fits.2 _ hb)).1)
  case asr => exact set_covers mem (word _ (if_pos (fits.2 _ hb)) ▸ (Value.shr_sound fits.1 ha hb (fits.2 _ hb)).2)
  all_goals exact set_covers mem (Set.mem_univ w)

/-! ### The paths -/

/-- The places of an instruction that are interpreted, with the states they are interpreted in. -/
inductive Interprets (proc : Process) (b : Block) (s : State) : ℕ → State → Prop where
  | first : Interprets proc b s 0 s
  | next {pc q : ℕ} {t : State} {i : Inst} : Interprets proc b s pc t → b[pc]? = some i → q ∈ (code b pc).targets →
      Interprets proc b s q (update proc i t)

section

variable (fits : ∀ pc t i, Interprets proc b s pc t → b[pc]? = some i → TransferFits proc t i)

include fits

/-- The step of a run is covered, and the rest of it is a run from a place that is interpreted next. -/
theorem step_covers (found : b[pc]? = some i) (interprets : Interprets proc b s pc t) (mem : x ∈ t.gamma)
    (exec : Exec b pc x accs x') : ∃ q ∈ (code b pc).targets, Interprets proc b s q (update proc i t) ∧
      ∃ m ∈ (update proc i t).gamma, ∃ accs', Exec b q m accs' x' := by
  obtain ⟨m, q, accs', steps, follows, rest, -⟩ := exec.first found
  have mem' := update_sound (fits pc t i interprets found) mem steps
  obtain ⟨p, target, rest⟩ : ∃ p ∈ (code b pc).targets, Exec b p m accs' x' := by
    rw [code_of_found found]
    unfold Inst.Follows at follows
    by_cases ends : i.Ends
    · rw [if_pos ends] at follows ⊢
      obtain ⟨rfl, rfl⟩ := rest.of_ended follows.ge
      refine ⟨b.length + 1, ?_, .ended (Nat.le_succ _)⟩
      split <;> exact List.mem_singleton_self _
    · rw [if_neg ends] at follows
      rw [if_neg fun op => ends (.inr (.inr op)), if_neg ends]
      refine ⟨q, ?_, rest⟩
      split at follows
      case isTrue cond => simpa [cond, Control.targets] using follows
      case isFalse cond => simpa [cond, Control.targets] using follows
  exact ⟨p, target, interprets.next found target, m, mem', accs', rest⟩

/-- The states at the ends of the paths cover the memories there. -/
theorem ends_cover (explores : Explores (code b) (interpreter proc b) pc t l s') (interprets : Interprets proc b s pc t)
    (mem : x ∈ t.gamma) (exec : Exec b pc x accs x') : ∃ u ∈ l, x' ∈ u.gamma := by
  induction explores generalizing x accs with
  | stop at_pc =>
    cases exec with
    | ended => exact ⟨_, List.mem_singleton_self _, mem⟩
    | step found =>
      rw [code_of_found found] at at_pc
      split_ifs at at_pc
  | leave at_pc _ ih =>
    obtain ⟨i, found, same⟩ := found_of_leave proc _ at_pc
    obtain ⟨q, target, interprets, m, mem, accs, rest⟩ := step_covers fits found interprets mem exec
    rw [at_pc] at target
    cases List.mem_singleton.mp target
    rw [same] at mem interprets
    exact ih interprets mem rest
  | go at_pc step _ ih =>
    obtain ⟨i, found, rfl⟩ := found_of_step step
    obtain ⟨q, target, interprets, m, mem, accs, rest⟩ := step_covers fits found interprets mem exec
    rw [at_pc] at target
    cases List.mem_singleton.mp target
    exact ih interprets mem rest
  | fork at_pc step _ _ ih ih' =>
    obtain ⟨i, found, rfl⟩ := found_of_step step
    obtain ⟨q, target, interprets, m, mem, accs, rest⟩ := step_covers fits found interprets mem exec
    simp only [at_pc, Control.targets, List.mem_cons, List.not_mem_nil, or_false] at target
    simp only [List.mem_append, or_and_right, exists_or]
    rcases target with rfl | rfl
    · exact .inl (ih interprets mem rest)
    · exact .inr (ih' interprets mem rest)

end

/-! ### The joins -/

/-- The joins of the states of a list, one after the other, are upper bounds. -/
def JoinsCover : State → List State → Prop
  | _, [] => True
  | s, u :: l => s.JoinCovers u ∧ JoinsCover (s.join u) l

theorem finish_covers (covers : JoinsCover s l) (mem : x ∈ s.gamma ∨ ∃ u ∈ l, x ∈ u.gamma) :
    ∃ s', l.foldl (interpreter proc b).finish (some s) = some s' ∧ x ∈ s'.gamma := by
  induction l generalizing s with
  | nil => exact ⟨s, rfl, mem.resolve_right fun ⟨u, end_u, _⟩ => List.not_mem_nil end_u⟩
  | cons u l ih =>
    have upper := (State.union_subset_join_iff s u).mpr covers.1
    refine ih covers.2 ?_
    simp only [List.mem_cons, exists_eq_or_imp, ← or_assoc] at mem
    exact mem.imp_left fun mem => upper mem

/-- The transfers and the joins in the analysis of an instruction keep all words. -/
structure InstFits (proc : Process) (b : Block) (s : State) : Prop where
  transfer : ∀ pc t i, Interprets proc b s pc t → b[pc]? = some i → TransferFits proc t i
  join : ∀ u l s', Explores (code b) (interpreter proc b) 0 s (u :: l) s' → JoinsCover u l

theorem updateInst_covers (fits : InstFits proc b s) (mem : x ∈ s.gamma) (exec : Exec b 0 x accs x') :
    ∃ s', updateInst proc b s = some s' ∧ x' ∈ s'.gamma := by
  obtain ⟨l, s', explores⟩ := exists_explores proc b 0 s
  rw [updateInst_of_explores explores]
  cases l with
  | nil => exact absurd rfl explores.ne_nil
  | cons u l =>
    have covers := ends_cover fits.transfer explores .first mem exec
    simp only [List.mem_cons, exists_eq_or_imp] at covers
    exact finish_covers (fits.join u l s' explores) covers

/-- They do so for all instructions of a block, each from the state that the ones before it leave. -/
def BlockFits (proc : Process) : List Block → State → Prop
  | [], _ => True
  | b :: bb, s => InstFits proc b s ∧ ∀ s', updateInst proc b s = some s' → BlockFits proc bb s'

theorem updateBlock_covers {run : List (ℕ × Access)} (fits : BlockFits proc (bb.drop k) s) (mem : x ∈ s.gamma)
    (runs : Runs bb k x run x') : ∃ s', updateBlock proc (bb.drop k) s = some s' ∧ x' ∈ s'.gamma := by
  induction runs generalizing s with
  | ended past =>
    rw [List.drop_eq_nil_of_le past]
    exact ⟨s, rfl, mem⟩
  | @step k b m m' m'' accs rest found exec _ ih =>
    obtain ⟨lt, rfl⟩ := List.getElem?_eq_some_iff.mp found
    rw [List.drop_eq_getElem_cons lt] at fits ⊢
    obtain ⟨s', leaves, covers⟩ := updateInst_covers fits.1 mem exec
    obtain ⟨s'', leaves', covers'⟩ := ih (fits.2 s' leaves) covers
    exact ⟨s'', by rw [updateBlock, List.foldlM_cons, leaves]; exact leaves', covers'⟩

/-- The register 0 is set to 5. -/
def setFive : Block := [{ op := .seti, cst := 5 }]

theorem updateBlock_covers_setFive : ∃ s', updateBlock noData [setFive] .full = some s' ∧
    Function.update (fun _ => 0) (reg 0) 5 ∈ s'.gamma := by
  have goes : code setFive 0 = .go 1 := rfl
  have stops : code setFive 1 = .stop := rfl
  have fits : InstFits noData setFive .full := by
    constructor
    · intro pc t i _ found
      cases List.mem_singleton.mp (List.mem_of_getElem? found)
      exact trivial
    · intro u l s' explores
      generalize ends : u :: l = all at explores
      cases explores with
      | leave at_pc | fork at_pc => cases goes.symm.trans at_pc
      | stop =>
        cases ends
        exact trivial
      | go at_pc _ rest =>
        cases goes.symm.trans at_pc
        cases rest with
        | leave at_pc | go at_pc | fork at_pc => cases stops.symm.trans at_pc
        | stop =>
          cases ends
          exact trivial
  exact updateBlock_covers (k := 0) ⟨fits, fun _ _ => trivial⟩ (State.mem_full _)
    (.step rfl (.step rfl ⟨5, fun _ => Option.some.inj, rfl⟩ rfl (.ended le_rfl)) (.ended le_rfl))

end Problem

end Otawa.Clp
