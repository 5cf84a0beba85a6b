import Mathlib.Algebra.Group.Nat.Defs
import Mathlib.Data.List.Basic
import Mathlib.Order.Nat

/-!
# Branching code and its interpreters

Code whose places stop, go on, or go on while another place waits. An interpreter follows one path at a time
and has the places that wait on a stack, each with a saved state; what it saves need not be all of its state.

* `Explores`: the states at the ends of the paths, in the order of the interpreter.
* `run_eq_some_iff`: a run with enough fuel gives the accumulated ends, and nothing else.
* `Explores.mem_iff`: where the whole state is saved, the ends are those of the paths of the code.
* `Forward.ends`: code that goes forward only ends on every path, within a bound.
-/

namespace Otawa.Branching

/-- What is done at a place: `leave` goes on without a step. -/
inductive Control where
  | fault
  | stop
  | leave (pc : ℕ)
  | go (pc : ℕ)
  | fork (pc other : ℕ)
  deriving DecidableEq, Repr

abbrev Code := ℕ → Control

/-- The places that come after a step. -/
def Control.Next : Control → ℕ → Prop
  | .go next, q => q = next
  | .fork next other, q => q = next ∨ q = other
  | _, _ => False

/-- The places that come next, with or without a step. -/
def Control.targets : Control → List ℕ
  | .leave next | .go next => [next]
  | .fork next other => [next, other]
  | .fault | .stop => []

/-- The places of the steps on one path. -/
inductive Path (code : Code) : ℕ → List ℕ → Prop where
  | stop {pc : ℕ} : code pc = .stop → Path code pc []
  | leave {pc next : ℕ} {ps : List ℕ} : code pc = .leave next → Path code next ps → Path code pc ps
  | step {pc next : ℕ} {ps : List ℕ} : (code pc).Next next → Path code next ps → Path code pc (pc :: ps)

/-- Every path from the place ends, none at a fault. -/
inductive Ends (code : Code) : ℕ → Prop where
  | stop {pc : ℕ} : code pc = .stop → Ends code pc
  | leave {pc next : ℕ} : code pc = .leave next → Ends code next → Ends code pc
  | step {pc : ℕ} : (∃ next, (code pc).Next next) → (∀ next, (code pc).Next next → Ends code next) → Ends code pc

/-- One step for one place, what of the state is saved with a place that waits and how it is taken up again,
and what is made of the end of a path. -/
structure Interpreter (τ σ α : Type) where
  step : ℕ → τ → Option τ
  save : τ → σ
  restore : σ → τ → τ
  finish : α → σ → α

structure Config (τ σ α : Type) where
  pc : ℕ
  state : τ
  todo : List (ℕ × σ)
  acc : α

variable {τ σ α : Type} (code : Code) (I : Interpreter τ σ α)

/-- There is no result at a fault or without fuel. -/
def run : ℕ → Config τ σ α → Option (α × τ)
  | 0, _ => none
  | fuel + 1, c =>
      match code c.pc with
      | .fault => none
      | .stop =>
          let acc := I.finish c.acc (I.save c.state)
          match c.todo with
          | [] => some (acc, c.state)
          | w :: todo => run fuel ⟨w.1, I.restore w.2 c.state, todo, acc⟩
      | .leave pc => run fuel { c with pc := pc }
      | .go pc => (I.step c.pc c.state).bind fun t => run fuel { c with pc := pc, state := t }
      | .fork pc other => (I.step c.pc c.state).bind fun t => run fuel ⟨pc, t, (other, I.save t) :: c.todo, c.acc⟩

/-- What is saved at the ends of the paths from a place, and the state that is left. -/
inductive Explores : ℕ → τ → List σ → τ → Prop where
  | stop {pc : ℕ} {t : τ} : code pc = .stop → Explores pc t [I.save t] t
  | leave {pc next : ℕ} {t t' : τ} {l : List σ} : code pc = .leave next → Explores next t l t' → Explores pc t l t'
  | go {pc next : ℕ} {t t₁ t' : τ} {l : List σ} : code pc = .go next → I.step pc t = some t₁ →
      Explores next t₁ l t' → Explores pc t l t'
  | fork {pc next other : ℕ} {t t₁ t₂ t' : τ} {l l' : List σ} : code pc = .fork next other →
      I.step pc t = some t₁ → Explores next t₁ l t₂ → Explores other (I.restore (I.save t₁) t₂) l' t' →
      Explores pc t (l ++ l') t'

/-- The interpreter at the end of a path. -/
def resume (fuel : ℕ) (todo : List (ℕ × σ)) (t : τ) (acc : α) : Option (α × τ) :=
  match todo with
  | [] => some (acc, t)
  | w :: todo => run code I fuel ⟨w.1, I.restore w.2 t, todo, acc⟩

/-- Only places before `n` do something, and they go forward. -/
structure Forward (n : ℕ) : Prop where
  stop : ∀ pc, n ≤ pc → code pc = .stop
  fault : ∀ pc, code pc ≠ .fault
  later : ∀ pc, ∀ next ∈ (code pc).targets, pc < next

variable {code I} {pc n : ℕ} {t t' : τ} {l : List σ}

theorem Explores.ne_nil (explores : Explores code I pc t l t') : l ≠ [] := by
  induction explores with
  | stop => exact List.cons_ne_nil _ _
  | leave _ _ ih => exact ih
  | go _ _ _ ih => exact ih
  | fork _ _ _ _ ih => exact List.append_ne_nil_of_left_ne_nil ih _

theorem Forward.lt (forward : Forward code n) (moves : code pc ≠ .stop) : pc < n :=
  not_le.mp fun le => moves (forward.stop pc le)

theorem Forward.ends (forward : Forward code n) (pc : ℕ) : Ends code pc := by
  induction left : n - pc using Nat.strongRecOn generalizing pc with
  | ind d ih =>
    have later : ∀ q ∈ (code pc).targets, pc < n → Ends code q := by
      intro q next lt
      have lt' := forward.later pc q next
      exact ih (n - q) (by omega) q rfl
    cases at_pc : code pc with
    | fault => exact absurd at_pc (forward.fault pc)
    | stop => exact .stop at_pc
    | leave q =>
      rw [at_pc] at later
      exact .leave at_pc (later q List.mem_cons_self (forward.lt (by rw [at_pc]; nofun)))
    | go q =>
      have lt := forward.lt (show code pc ≠ .stop by rw [at_pc]; nofun)
      refine .step ⟨q, by rw [at_pc]; rfl⟩ fun q' next => later q' ?_ lt
      rw [at_pc] at next ⊢
      exact List.mem_singleton.mpr next
    | fork q other =>
      have lt := forward.lt (show code pc ≠ .stop by rw [at_pc]; nofun)
      refine .step ⟨q, by rw [at_pc]; exact .inl rfl⟩ fun q' next => later q' ?_ lt
      rw [at_pc] at next ⊢
      exact List.mem_pair.mpr next

/-- Where no step fails all paths are explored. -/
theorem Ends.explores (total : ∀ pc t, ∃ t', I.step pc t = some t') (ends : Ends code pc) (t : τ) :
    ∃ l t', Explores code I pc t l t' := by
  induction ends generalizing t with
  | stop at_pc => exact ⟨_, _, .stop at_pc⟩
  | leave at_pc _ ih =>
    obtain ⟨l, t', explores⟩ := ih t
    exact ⟨l, t', .leave at_pc explores⟩
  | @step pc some_next _ ih =>
    obtain ⟨t₁, step⟩ := total pc t
    cases at_pc : code pc with
    | fault => simp [at_pc, Control.Next] at some_next
    | stop => simp [at_pc, Control.Next] at some_next
    | leave => simp [at_pc, Control.Next] at some_next
    | go q =>
      obtain ⟨l, t', explores⟩ := ih q (by rw [at_pc]; rfl) t₁
      exact ⟨l, t', .go at_pc step explores⟩
    | fork q other =>
      obtain ⟨l, t₂, explores⟩ := ih q (by rw [at_pc]; exact .inl rfl) t₁
      obtain ⟨l', t', explores'⟩ := ih other (by rw [at_pc]; exact .inr rfl) (I.restore (I.save t₁) t₂)
      exact ⟨l ++ l', t', .fork at_pc step explores explores'⟩

theorem Explores.ends (explores : Explores code I pc t l t') : Ends code pc := by
  induction explores with
  | stop at_pc => exact .stop at_pc
  | leave at_pc _ ih => exact .leave at_pc ih
  | go at_pc _ _ ih =>
    refine .step ⟨_, by rw [at_pc]; rfl⟩ fun q next => ?_
    rw [at_pc] at next
    cases next
    exact ih
  | fork at_pc _ _ _ ih ih' =>
    refine .step ⟨_, by rw [at_pc]; exact .inl rfl⟩ fun q next => ?_
    rw [at_pc] at next
    rcases next with rfl | rfl
    · exact ih
    · exact ih'

/-- A run goes through the paths from a place, and comes to what waits. In forward code there is a bound on
its turns. -/
theorem Explores.run (explores : Explores code I pc t l t') :
    ∃ cost, (∀ n, Forward code n → cost < 2 ^ (n - pc + 1)) ∧ ∀ fuel todo acc,
      run code I (fuel + cost) ⟨pc, t, todo, acc⟩ = resume code I fuel todo t' (l.foldl I.finish acc) := by
  have less : ∀ {n pc q : ℕ}, Forward code n → q ∈ (code pc).targets →
      2 ^ (n - q + 1) + 2 ^ (n - q + 1) ≤ 2 ^ (n - pc + 1) := by
    intro n pc q forward next
    have moves : code pc ≠ .stop := fun stop => by simp [stop, Control.targets] at next
    have lt := forward.lt moves
    have lt' := forward.later pc q next
    have grows : 2 ^ (n - q + 1) ≤ 2 ^ (n - pc) := Nat.pow_le_pow_right (by omega) (by omega)
    have double : 2 ^ (n - pc + 1) = 2 ^ (n - pc) * 2 := rfl
    omega
  induction explores with
  | @stop pc t at_pc =>
    refine ⟨1, fun n _ => Nat.one_lt_two_pow (Nat.succ_ne_zero _), fun fuel todo acc => ?_⟩
    rw [Branching.run, at_pc]
    cases todo <;> rfl
  | @leave pc next _ _ _ at_pc _ ih =>
    obtain ⟨cost, bound, runs⟩ := ih
    refine ⟨cost + 1, fun n forward => ?_, fun fuel todo acc => ?_⟩
    · have := less forward (show next ∈ (code pc).targets by simp [at_pc, Control.targets])
      have := bound n forward
      omega
    · rw [← Nat.add_assoc, Branching.run, at_pc]
      exact runs fuel todo acc
  | @go pc next _ _ _ _ at_pc step _ ih =>
    obtain ⟨cost, bound, runs⟩ := ih
    refine ⟨cost + 1, fun n forward => ?_, fun fuel todo acc => ?_⟩
    · have := less forward (show next ∈ (code pc).targets by simp [at_pc, Control.targets])
      have := bound n forward
      omega
    · rw [← Nat.add_assoc, Branching.run, at_pc]
      simp only [step, Option.bind_some]
      exact runs fuel todo acc
  | @fork pc next other _ _ _ _ _ _ at_pc step _ _ ih ih' =>
    obtain ⟨cost, bound, runs⟩ := ih
    obtain ⟨cost', bound', runs'⟩ := ih'
    refine ⟨cost' + cost + 1, fun n forward => ?_, fun fuel todo acc => ?_⟩
    · have := less forward (show next ∈ (code pc).targets by simp [at_pc, Control.targets])
      have := less forward (show other ∈ (code pc).targets by simp [at_pc, Control.targets])
      have := bound n forward
      have := bound' n forward
      omega
    · rw [← Nat.add_assoc, ← Nat.add_assoc, Branching.run, at_pc]
      simp only [step, Option.bind_some]
      rw [runs, resume, runs', List.foldl_append]

/-- What a run has gone through when it gives a result. -/
theorem explores_of_run {fuel : ℕ} {c : Config τ σ α} {r : α × τ} (runs : run code I fuel c = some r) :
    ∃ l t' rest, Explores code I c.pc c.state l t' ∧ rest < fuel ∧
      resume code I rest c.todo t' (l.foldl I.finish c.acc) = some r := by
  induction fuel using Nat.strongRecOn generalizing c with
  | ind fuel ih =>
    cases fuel with
    | zero => cases runs
    | succ fuel =>
      rw [run] at runs
      cases at_pc : code c.pc with
      | fault => simp [at_pc] at runs
      | stop =>
        simp only [at_pc] at runs
        refine ⟨_, _, fuel, .stop at_pc, Nat.lt_succ_self _, ?_⟩
        cases waits : c.todo with
        | nil =>
          rw [waits] at runs
          exact runs
        | cons w todo =>
          rw [waits] at runs
          exact runs
      | leave next =>
        simp only [at_pc] at runs
        obtain ⟨l, t', rest, explores, lt, resumes⟩ := ih fuel (Nat.lt_succ_self _) runs
        exact ⟨l, t', rest, .leave at_pc explores, lt.trans (Nat.lt_succ_self _), resumes⟩
      | go next =>
        simp only [at_pc] at runs
        obtain ⟨t₁, step, runs⟩ := Option.bind_eq_some_iff.mp runs
        obtain ⟨l, t', rest, explores, lt, resumes⟩ := ih fuel (Nat.lt_succ_self _) runs
        exact ⟨l, t', rest, .go at_pc step explores, lt.trans (Nat.lt_succ_self _), resumes⟩
      | fork next other =>
        simp only [at_pc] at runs
        obtain ⟨t₁, step, runs⟩ := Option.bind_eq_some_iff.mp runs
        obtain ⟨l, t₂, rest, explores, lt, resumes⟩ := ih fuel (Nat.lt_succ_self _) runs
        obtain ⟨l', t', rest', explores', lt', resumes'⟩ := ih rest (lt.trans (Nat.lt_succ_self _)) resumes
        refine ⟨l ++ l', t', rest', .fork at_pc step explores explores', by omega, ?_⟩
        rw [List.foldl_append]
        exact resumes'

/-- What the steps and the saved states keep holds of the states at the ends. -/
theorem Explores.invariant {P : τ → Prop} {Q : σ → Prop} (step : ∀ pc t t', I.step pc t = some t' → P t → P t')
    (save : ∀ t, P t → Q (I.save t)) (restore : ∀ s t, Q s → P t → P (I.restore s t))
    (explores : Explores code I pc t l t') (holds : P t) : (∀ s ∈ l, Q s) ∧ P t' := by
  induction explores with
  | stop _ => exact ⟨fun s mem => List.mem_singleton.mp mem ▸ save _ holds, holds⟩
  | leave _ _ ih => exact ih holds
  | go _ stepped _ ih => exact ih (step _ _ _ stepped holds)
  | fork _ stepped _ _ ih ih' =>
    have holds₁ := step _ _ _ stepped holds
    obtain ⟨ends, holds₂⟩ := ih holds₁
    obtain ⟨ends', holds'⟩ := ih' (restore _ _ (save _ holds₁) holds₂)
    exact ⟨fun s mem => (List.mem_append.mp mem).elim (ends s) (ends' s), holds'⟩

/-- The result does not depend on the fuel. -/
theorem run_unique {c : Config τ σ α} {fuel fuel' : ℕ} {r r' : α × τ} (runs : run code I fuel c = some r)
    (runs' : run code I fuel' c = some r') : r = r' := by
  have more : ∀ fuel k (c : Config τ σ α) r, run code I fuel c = some r → run code I (fuel + k) c = some r := by
    intro fuel k
    induction fuel with
    | zero => intro c r runs; cases runs
    | succ fuel ih =>
      intro c r runs
      rw [Nat.succ_add]
      rw [run] at runs ⊢
      cases at_pc : code c.pc with
      | fault => simp [at_pc] at runs
      | stop =>
        simp only [at_pc] at runs ⊢
        cases waits : c.todo with
        | nil => simpa [waits] using runs
        | cons w todo =>
          simp only [waits] at runs ⊢
          exact ih _ r runs
      | leave next =>
        simp only [at_pc] at runs ⊢
        exact ih _ r runs
      | go next =>
        simp only [at_pc] at runs ⊢
        obtain ⟨t₁, stepped, runs⟩ := Option.bind_eq_some_iff.mp runs
        rw [stepped]
        exact ih _ r runs
      | fork next other =>
        simp only [at_pc] at runs ⊢
        obtain ⟨t₁, stepped, runs⟩ := Option.bind_eq_some_iff.mp runs
        rw [stepped]
        exact ih _ r runs
  have all := more fuel fuel' c r runs
  rw [Nat.add_comm, more fuel' fuel c r' runs'] at all
  exact (Option.some.inj all).symm

theorem run_eq_some_iff {acc : α} {r : α × τ} : (∃ fuel, run code I fuel ⟨pc, t, [], acc⟩ = some r) ↔
    ∃ l, Explores code I pc t l r.2 ∧ l.foldl I.finish acc = r.1 := by
  constructor
  · rintro ⟨fuel, runs⟩
    obtain ⟨l, t', rest, explores, -, resumes⟩ := explores_of_run runs
    cases resumes
    exact ⟨l, explores, rfl⟩
  · rintro ⟨l, explores, eq⟩
    obtain ⟨cost, -, runs⟩ := explores.run
    refine ⟨0 + cost, ?_⟩
    rw [runs, eq]
    rfl

/-- In forward code the fuel is known. -/
theorem run_of_forward {acc : α} (forward : Forward code n) (explores : Explores code I 0 t l t') :
    run code I (2 ^ (n + 1)) ⟨0, t, [], acc⟩ = some (l.foldl I.finish acc, t') := by
  obtain ⟨cost, bound, runs⟩ := explores.run
  have lt : cost < 2 ^ (n + 1) := bound n forward
  have all := runs (2 ^ (n + 1) - cost) [] acc
  rwa [Nat.sub_add_cancel lt.le] at all

/-! ### Paths -/

/-- How the paths from a place begin. -/
theorem path_iff {ps : List ℕ} : Path code pc ps ↔
    match code pc with
    | .fault => False
    | .stop => ps = []
    | .leave next => Path code next ps
    | .go next => ∃ rest, ps = pc :: rest ∧ Path code next rest
    | .fork next other => ∃ rest, ps = pc :: rest ∧ (Path code next rest ∨ Path code other rest) := by
  constructor
  · intro path
    cases path with
    | stop at_pc => simp only [at_pc]
    | leave at_pc rest => simpa only [at_pc] using rest
    | @step _ q ps next rest =>
      cases at_pc : code pc with
      | fault => simp [at_pc, Control.Next] at next
      | stop => simp [at_pc, Control.Next] at next
      | leave => simp [at_pc, Control.Next] at next
      | go =>
        rw [at_pc] at next
        cases next
        exact ⟨ps, rfl, rest⟩
      | fork =>
        rw [at_pc] at next
        rcases next with rfl | rfl
        · exact ⟨ps, rfl, .inl rest⟩
        · exact ⟨ps, rfl, .inr rest⟩
  · intro begins
    split at begins
    case h_1 => exact begins.elim
    case h_2 at_pc => exact begins ▸ .stop at_pc
    case h_3 at_pc => exact .leave at_pc begins
    case h_4 at_pc =>
      obtain ⟨rest, rfl, path⟩ := begins
      exact .step (by rw [at_pc]; rfl) path
    case h_5 at_pc =>
      obtain ⟨rest, rfl, path | path⟩ := begins
      · exact .step (by rw [at_pc]; exact .inl rfl) path
      · exact .step (by rw [at_pc]; exact .inr rfl) path

theorem Ends.path (ends : Ends code pc) : ∃ ps, Path code pc ps := by
  induction ends with
  | stop at_pc => exact ⟨[], .stop at_pc⟩
  | leave at_pc _ ih => exact ih.imp fun _ path => .leave at_pc path
  | step some_next _ ih =>
    obtain ⟨q, next⟩ := some_next
    exact (ih q next).imp' _ fun _ path => .step next path

/-- A path that comes to a step goes on at one of the next places, and it may go on as any path from such a
place does. -/
theorem Path.split {p : ℕ} {w ps : List ℕ} (path : Path code pc (w ++ p :: ps)) :
    (∃ q, (code p).Next q ∧ Path code q ps) ∧
      ∀ q ps', (code p).Next q → Path code q ps' → Path code pc (w ++ p :: ps') := by
  generalize eq : w ++ p :: ps = all at path
  induction path generalizing w with
  | stop => simp at eq
  | leave at_pc _ ih =>
    obtain ⟨before, after⟩ := ih eq
    exact ⟨before, fun q ps' next path' => .leave at_pc (after q ps' next path')⟩
  | @step pc q rest next path ih =>
    cases w with
    | nil =>
      cases eq
      exact ⟨⟨q, next, path⟩, fun _ _ next' path' => .step next' path'⟩
    | cons c w =>
      cases eq
      obtain ⟨before, after⟩ := ih rfl
      exact ⟨before, fun q' ps' next' path' => .step next (after q' ps' next' path')⟩

theorem Ends.next {q : ℕ} (ends : Ends code pc) (next : (code pc).Next q) : Ends code q := by
  cases ends with
  | stop at_pc => simp [at_pc, Control.Next] at next
  | leave at_pc => simp [at_pc, Control.Next] at next
  | step _ ends => exact ends q next

/-- All paths from a place on a path end. -/
theorem Ends.of_path {p : ℕ} {w ps : List ℕ} (ends : Ends code pc) (path : Path code pc (w ++ p :: ps)) :
    Ends code p := by
  generalize eq : w ++ p :: ps = all at path
  induction path generalizing w with
  | stop => simp at eq
  | leave at_pc _ ih =>
    cases ends with
    | stop at_pc' => simp [at_pc] at at_pc'
    | step some_next => simp [at_pc, Control.Next] at some_next
    | leave at_pc' ends =>
      rw [at_pc] at at_pc'
      cases at_pc'
      exact ih ends eq
  | step next _ ih =>
    cases w with
    | nil =>
      cases eq
      exact ends
    | cons c w =>
      cases eq
      exact ih (ends.next next) rfl

/-- The steps of a path, one after the other. -/
def steps (I : Interpreter τ σ α) : List ℕ → τ → Option τ
  | [], t => some t
  | p :: ps, t => (I.step p t).bind (steps I ps)

theorem steps_cons {p : ℕ} {ps : List ℕ} {t₁ : τ} (step : I.step p t = some t₁) :
    steps I (p :: ps) t = steps I ps t₁ := by
  rw [steps, step, Option.bind_some]

/-- Where each path has a state of its own, the ends are those of the paths. -/
theorem Explores.mem_iff (own : ∀ t t', I.restore (I.save t) t' = t) (explores : Explores code I pc t l t') (x : σ) :
    x ∈ l ↔ ∃ ps u, Path code pc ps ∧ steps I ps t = some u ∧ x = I.save u := by
  induction explores with
  | stop at_pc =>
    simp only [path_iff, at_pc, List.mem_singleton]
    constructor
    · rintro rfl
      exact ⟨[], _, rfl, rfl, rfl⟩
    · rintro ⟨ps, u, rfl, same, rfl⟩
      cases same
      rfl
  | @leave pc next _ _ _ at_pc _ ih =>
    simp only [@path_iff code pc, at_pc]
    exact ih
  | @go pc next _ _ _ _ at_pc step _ ih =>
    simp only [@path_iff code pc, at_pc]
    rw [ih]
    constructor
    · rintro ⟨ps, u, path, same, eq⟩
      exact ⟨_, u, ⟨ps, rfl, path⟩, by rw [steps_cons step]; exact same, eq⟩
    · rintro ⟨_, u, ⟨ps, rfl, path⟩, same, eq⟩
      rw [steps_cons step] at same
      exact ⟨ps, u, path, same, eq⟩
  | @fork pc next other _ _ _ _ _ _ at_pc step _ _ ih ih' =>
    simp only [@path_iff code pc, at_pc]
    rw [List.mem_append, ih, ih', own]
    constructor
    · rintro (⟨ps, u, path, same, eq⟩ | ⟨ps, u, path, same, eq⟩)
      · exact ⟨_, u, ⟨ps, rfl, .inl path⟩, by rw [steps_cons step]; exact same, eq⟩
      · exact ⟨_, u, ⟨ps, rfl, .inr path⟩, by rw [steps_cons step]; exact same, eq⟩
    · rintro ⟨_, u, ⟨ps, rfl, path⟩, same, eq⟩
      rw [steps_cons step] at same
      exact path.imp (fun path => ⟨ps, u, path, same, eq⟩) fun path => ⟨ps, u, path, same, eq⟩

/-- Where each path has a state of its own, all paths are explored if no step on a path fails. -/
theorem Ends.explores_of_steps (own : ∀ t t', I.restore (I.save t) t' = t) (ends : Ends code pc)
    (total : ∀ ps, Path code pc ps → ∃ u, steps I ps t = some u) : ∃ l t', Explores code I pc t l t' := by
  induction ends generalizing t with
  | stop at_pc => exact ⟨_, _, .stop at_pc⟩
  | leave at_pc _ ih =>
    obtain ⟨l, t', explores⟩ := ih fun ps path => total ps (.leave at_pc path)
    exact ⟨l, t', .leave at_pc explores⟩
  | @step pc some_next ends ih =>
    obtain ⟨q, next⟩ := some_next
    obtain ⟨ps, path⟩ := (ends q next).path
    obtain ⟨u, all⟩ := total _ (.step next path)
    obtain ⟨t₁, step, -⟩ := Option.bind_eq_some_iff.mp all
    have total' : ∀ q, (code pc).Next q → ∀ ps, Path code q ps → ∃ u, steps I ps t₁ = some u := by
      intro q next ps path
      obtain ⟨u, all⟩ := total _ (.step next path)
      rw [steps_cons step] at all
      exact ⟨u, all⟩
    cases at_pc : code pc with
    | fault => simp [at_pc, Control.Next] at next
    | stop => simp [at_pc, Control.Next] at next
    | leave => simp [at_pc, Control.Next] at next
    | go q =>
      have goes : (code pc).Next q := by rw [at_pc]; rfl
      obtain ⟨l, t', explores⟩ := ih q goes (total' q goes)
      exact ⟨l, t', .go at_pc step explores⟩
    | fork q other =>
      have goes : (code pc).Next q := by rw [at_pc]; exact .inl rfl
      have skips : (code pc).Next other := by rw [at_pc]; exact .inr rfl
      obtain ⟨l, t₂, explores⟩ := ih q goes (total' q goes)
      obtain ⟨l', t', explores'⟩ := ih other skips (total' other skips)
      refine ⟨l ++ l', t', .fork at_pc step explores ?_⟩
      rw [own]
      exact explores'

/-- The interpreter that notes the places of the steps. -/
def recorder : Interpreter (List ℕ) (List ℕ) (List (List ℕ)) where
  step pc t := some (t ++ [pc])
  save t := t
  restore s _ := s
  finish acc t := acc ++ [t]

theorem steps_recorder (ps t : List ℕ) : steps recorder ps t = some (t ++ ps) := by
  induction ps generalizing t with
  | nil => rw [steps, List.append_nil]
  | cons p ps ih =>
    rw [steps, recorder, Option.bind_some]
    exact (ih (t ++ [p])).trans (by rw [List.append_assoc]; rfl)

/-- The places of the paths of the code, as its interpreter goes through them. -/
def Enumerates (code : Code) (paths : List (List ℕ)) : Prop :=
  ∃ fuel t, run code recorder fuel ⟨0, [], [], []⟩ = some (paths, t)

theorem Enumerates.mem_iff {paths : List (List ℕ)} (enumerates : Enumerates code paths) (ps : List ℕ) :
    ps ∈ paths ↔ Path code 0 ps := by
  obtain ⟨fuel, t, runs⟩ := enumerates
  obtain ⟨l, explores, eq⟩ := run_eq_some_iff.mp ⟨fuel, runs⟩
  have collects : ∀ (l acc : List (List ℕ)), l.foldl recorder.finish acc = acc ++ l := by
    intro l
    induction l with
    | nil => exact fun acc => (List.append_nil acc).symm
    | cons x l ih => exact fun acc => (ih (acc ++ [x])).trans (by rw [List.append_assoc]; rfl)
  rw [collects, List.nil_append] at eq
  subst eq
  rw [explores.mem_iff fun _ _ => rfl]
  constructor
  · rintro ⟨ps', u, path, same, rfl⟩
    rw [steps_recorder] at same
    cases same
    exact path
  · exact fun path => ⟨ps, ps, path, steps_recorder ps [], rfl⟩

theorem exists_enumerates_iff : (∃ paths, Enumerates code paths) ↔ Ends code 0 := by
  constructor
  · rintro ⟨paths, fuel, t, runs⟩
    obtain ⟨l, explores, -⟩ := run_eq_some_iff.mp ⟨fuel, runs⟩
    exact explores.ends
  · intro ends
    obtain ⟨l, t', explores⟩ := ends.explores (I := recorder) (fun _ _ => ⟨_, rfl⟩) []
    obtain ⟨cost, -, runs⟩ := explores.run
    exact ⟨_, 0 + cost, t', runs 0 [] []⟩

end Otawa.Branching
