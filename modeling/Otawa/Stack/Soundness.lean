import Otawa.Sem.Agreement
import Otawa.Stack.Transfer

/-!
# The soundness of the stack analysis on an instruction

The temporaries are not saved with a place that waits, so a path sees those of the paths before it. `own`
interprets each path with temporaries of its own. `explores_shared` says that nothing changes where a temporary
that is used after an `IF` is not set before on the paths that do not take it, and `updateInst_sound` that the
analysis of an instruction is sound where, on each path, every step `Fits`.
-/

namespace Otawa.Stack

open Branching
open Clp (Word)
open Sem
open State

namespace Platform

/-- What the instructions of a path do, one after the other. -/
inductive Exec (c : Platform) : List Inst → Machine → Machine → Prop where
  | nil {m : Machine} : Exec c [] m m
  | cons {i : Inst} {is : List Inst} {m m' m'' : Machine} : c.Steps i m m' → Exec c is m' m'' →
      Exec c (i :: is) m m''

/-- The states bind the same values to the addresses of the image. -/
def Agree (c : Platform) (s s' : State) : Prop :=
  ∀ x n, c.FromImage x n → s.binding x = s'.binding x

end Platform

namespace StackProblem

/-- The temporary is used before it is set. -/
def Live : List Inst → Fin 16 → Prop
  | [], _ => False
  | i :: is, k => Reads i k ∨ ¬ Writes i k ∧ Live is k

/-- The temporary is used before it is set on a path from the place. -/
def LiveAt (b : Block) (pc : ℕ) (k : Fin 16) : Prop :=
  ∃ ps, Path (documented b) pc ps ∧ Live (operations b ps) k

/-- The temporary is set on a path from the place. -/
def WrittenFrom (b : Block) (pc : ℕ) (k : Fin 16) : Prop :=
  ∃ ps, Path (documented b) pc ps ∧ ∃ i ∈ operations b ps, Writes i k

/-- The interpreter with temporaries for each path. -/
def own (proc : Process) (b : Block) : Interpreter (State × Temps) (State × Temps) (Option State) where
  step := (interpreter proc b).step
  save p := p
  restore s _ := s
  finish is p := (interpreter proc b).finish is p.1

/-- No temporary that is used where an `IF` skips to is set where it goes on. -/
def Separate (b : Block) : Prop :=
  ∀ pc i k, Reached b pc → b[pc]? = some i → i.op = .if → LiveAt b (pc + 1 + i.jump) k → ¬ WrittenFrom b (pc + 1) k

/-- Each path sets the temporaries that it uses, and no other path sets them in between; the steps of each path
fit, and all paths leave the same cells at the addresses of the image. -/
structure BlockFits (c : Platform) (b : Block) (p : State × Temps) : Prop where
  set : ∀ k, ¬ LiveAt b 0 k
  own : Separate b
  steps : ∀ w pc ps i p', Path (documented b) 0 (w ++ pc :: ps) → b[pc]? = some i →
    Branching.steps (StackProblem.own c.proc b) w p = some p' → Fits c i p'
  ends : ∀ ps ps' u u', Path (documented b) 0 ps → Path (documented b) 0 ps' →
    Branching.steps (StackProblem.own c.proc b) ps p = some u →
    Branching.steps (StackProblem.own c.proc b) ps' p = some u' → c.Agree u.1 u'.1

variable {c : Platform} {b : Block} {pc q : ℕ} {ps : List ℕ} {i : Inst} {is : List Inst} {k : Fin 16}
  {proc : Process} {s s' : State} {t t' t₁ t₂ : Temps}

/-! ### Temporaries -/

theorem get_congr {r : Word} (hsame : ∀ k, Temp r k → t₁ k = t₂ k) : get proc (s, t₁) r = get proc (s, t₂) r := by
  unfold get
  split
  case isTrue hneg =>
    cases hk : slot r with
    | none => rfl
    | some k => exact congrArg some (hsame k ⟨hneg, hk⟩)
  case isFalse => rfl

theorem value_congr (hsame : ∀ k, Reads i k → t₁ k = t₂ k) : value proc i (s, t₁) = value proc i (s, t₂) := by
  have hget : ∀ {r}, r ∈ reads i → get proc (s, t₁) r = get proc (s, t₂) r :=
    fun hr => get_congr fun k hk => hsame k ⟨_, hr, hk⟩
  cases hunary : unaryOp i.op with
  | some op =>
    rw [value_unary hunary, value_unary hunary, hget (by rw [reads_unary hunary]; exact List.mem_singleton_self _)]
  | none =>
    cases hbinary : binaryOp i.op with
    | some op =>
      rw [value_binary hunary hbinary, value_binary hunary hbinary, hget (a_mem_reads hbinary),
        hget (b_mem_reads hbinary)]
    | none =>
      rw [value, value, hunary, hbinary]
      simp only
      split
      case h_1 hcode => rw [hget (by rw [reads, hcode]; exact List.mem_singleton_self _)]
      case h_2 => rfl
      case h_3 hcode => rw [hget (by rw [reads, hcode]; exact List.mem_singleton_self _)]
      case h_4 => rfl

/-- The other temporaries do not count for an instruction, and it leaves them. -/
theorem update_congr (hsame : ∀ k, Reads i k → t₁ k = t₂ k) {p : State × Temps}
    (hupdate : update proc i (s, t₂) = some p) : ∃ t, update proc i (s, t₁) = some (p.1, t) ∧
      (∀ k, t₁ k = t₂ k ∨ Writes i k → t k = p.2 k) ∧ ∀ k, ¬ Writes i k → t k = t₁ k := by
  cases hwrites : writes i with
  | some d =>
    rw [update_of_writes hwrites] at hupdate ⊢
    rw [value_congr hsame]
    obtain ⟨v, hv, hset⟩ := Option.bind_eq_some_iff.mp hupdate
    rw [hv, Option.bind_some]
    have hwrite : ∀ k, Writes i k ↔ Temp d k := by
      intro k
      unfold Writes
      rw [hwrites]
      exact ⟨fun ⟨r, hr, htemp⟩ => Option.some.inj hr ▸ htemp, fun htemp => ⟨d, rfl, htemp⟩⟩
    simp only [hwrite]
    unfold StackProblem.set at hset ⊢
    split at hset
    case isTrue hneg =>
      obtain ⟨k, hk, rfl⟩ := Option.map_eq_some_iff.mp hset
      refine ⟨Function.update t₁ k v, by rw [if_pos hneg, hk, Option.map_some], fun k' h => ?_, fun k' h => ?_⟩
      · show Function.update t₁ k v k' = Function.update t₂ k v k'
        by_cases heq : k' = k
        · rw [heq, Function.update_self, Function.update_self]
        · rw [Function.update_of_ne heq, Function.update_of_ne heq]
          exact h.resolve_right fun h => heq (Option.some.inj (h.2.symm.trans hk))
      · refine Function.update_of_ne ?_ _ _
        rintro rfl
        exact h ⟨hneg, hk⟩
    case isFalse hpos =>
      cases hset
      exact ⟨t₁, by rw [if_neg hpos], fun k h => h.resolve_right fun h => hpos h.1, fun _ _ => rfl⟩
  | none =>
    have htemps := temps_of_not_writes hwrites hupdate
    rw [update_of_not_writes hwrites] at hupdate ⊢
    refine ⟨t₁, ?_, fun k h => ?_, fun _ _ => rfl⟩
    · split at hupdate
      case isTrue hcode =>
        have hget : ∀ {r}, r ∈ reads i → get proc (s, t₁) r = get proc (s, t₂) r :=
          fun hr => get_congr fun k hk => hsame k ⟨_, hr, hk⟩
        rw [if_pos hcode, hget (reads_store hcode).1, hget (reads_store hcode).2]
        obtain ⟨addr, haddr, hupdate⟩ := Option.bind_eq_some_iff.mp hupdate
        obtain ⟨v, hv, rfl⟩ := Option.map_eq_some_iff.mp hupdate
        rw [haddr, hv]
        rfl
      case isFalse hcode =>
        cases hupdate
        rw [if_neg hcode]
    · rw [htemps]
      exact h.resolve_right (not_writes hwrites k)

/-! ### Places -/

theorem operations_cons (found : b[pc]? = some i) (ps : List ℕ) :
    operations b (pc :: ps) = i :: operations b ps := by
  rw [operations, List.filterMap_cons, found]
  rfl

theorem exists_path (b : Block) (pc : ℕ) : ∃ ps, Path (documented b) pc ps :=
  (documented_ends b pc).path

section

variable (found : b[pc]? = some i) (next : (documented b pc).Next q)
include found next

theorem LiveAt.of_reads (hreads : Reads i k) : LiveAt b pc k := by
  obtain ⟨ps, path⟩ := exists_path b q
  refine ⟨pc :: ps, .step next path, ?_⟩
  rw [operations_cons found]
  exact .inl hreads

theorem LiveAt.of_next (live : LiveAt b q k) (hwrites : ¬ Writes i k) : LiveAt b pc k := by
  obtain ⟨ps, path, live⟩ := live
  refine ⟨pc :: ps, .step next path, ?_⟩
  rw [operations_cons found]
  exact .inr ⟨hwrites, live⟩

theorem WrittenFrom.of_writes (hwrites : Writes i k) : WrittenFrom b pc k := by
  obtain ⟨ps, path⟩ := exists_path b q
  refine ⟨pc :: ps, .step next path, i, ?_, hwrites⟩
  rw [operations_cons found]
  exact List.mem_cons_self

theorem WrittenFrom.of_next (written : WrittenFrom b q k) : WrittenFrom b pc k := by
  obtain ⟨ps, path, j, mem, hwrites⟩ := written
  refine ⟨pc :: ps, .step next path, j, ?_, hwrites⟩
  rw [operations_cons found]
  exact List.mem_cons_of_mem _ mem

end

/-- The places with a step have an instruction, which goes where it is described to go. -/
theorem found_of_next (next : (code b pc).Next q) : ∃ i, b[pc]? = some i ∧ (documented b pc).Next q := by
  cases found : b[pc]? with
  | none =>
    rw [code, found] at next
    exact next.elim
  | some i =>
    refine ⟨i, rfl, ?_⟩
    rw [code_of_found found] at next
    rw [documented_of_found found, Nat.add_right_comm]
    split_ifs at next ⊢ <;> exact next

theorem if_of_fork {next other : ℕ} (forks : code b pc = .fork next other) :
    ∃ i, b[pc]? = some i ∧ i.op = .if ∧ next = pc + 1 ∧ other = pc + 1 + i.jump := by
  obtain ⟨i, found, -⟩ := @found_of_next b pc next (by rw [forks]; exact .inl rfl)
  rw [code_of_found found] at forks
  split_ifs at forks with hcont hif
  cases forks
  exact ⟨i, found, hif, rfl, Nat.add_right_comm _ _ _⟩

theorem stop_of_leave {next : ℕ} (leaves : code b pc = .leave next) : code b next = .stop := by
  cases found : b[pc]? with
  | none => simp [code, found] at leaves
  | some i =>
    rw [code_of_found found] at leaves
    split_ifs at leaves
    cases leaves
    exact (code_forward b).stop _ (Nat.le_succ _)

/-- One step with the shared temporaries, which agree on what is used later. -/
theorem step_shared {p p₁ : State × Temps} (next : (code b pc).Next q) (step : (own proc b).step pc p = some p₁)
    (hsame : ∀ k, LiveAt b pc k → t k = p.2 k) : ∃ t₁, (interpreter proc b).step pc (p.1, t) = some (p₁.1, t₁) ∧
      (∀ q, (code b pc).Next q → ∀ k, LiveAt b q k → t₁ k = p₁.2 k) ∧ ∀ k, ¬ WrittenFrom b pc k → t₁ k = t k := by
  obtain ⟨i, found, goes⟩ := found_of_next next
  have hupdate : update proc i p = some p₁ := by
    have step := step
    simp only [own, interpreter, found, Option.bind_some] at step
    exact step
  obtain ⟨t₁, hshared, hagree, hleft⟩ := update_congr (fun k hk => hsame k (.of_reads found goes hk)) hupdate
  refine ⟨t₁, ?_, fun q next k hk => hagree k ?_, fun k hk => hleft k fun hw => hk (.of_writes found goes hw)⟩
  · simp only [interpreter, found, Option.bind_some]
    exact hshared
  · obtain ⟨j, found', goes'⟩ := found_of_next next
    by_cases hwrites : Writes i k
    · exact .inr hwrites
    · exact .inl (hsame k (.of_next found goes' hk hwrites))

/-- The shared temporaries make no difference. -/
theorem explores_shared (separate : Separate b) {p p' : State × Temps} {l : List (State × Temps)}
    (explores : Explores (code b) (own proc b) pc p l p') (comes : Comes b pc)
    (hsame : ∀ k, LiveAt b pc k → t k = p.2 k) :
    ∃ s' t', Explores (code b) (interpreter proc b) pc (p.1, t) (l.map Prod.fst) (s', t') ∧
      ∀ k, ¬ WrittenFrom b pc k → t' k = t k := by
  induction explores generalizing t with
  | @stop pc p at_pc => exact ⟨p.1, t, .stop at_pc, fun _ _ => rfl⟩
  | @leave pc next p p' l at_pc rest ih =>
    -- the place is behind the block
    have stops := stop_of_leave at_pc
    cases rest with
    | stop => exact ⟨p.1, t, .leave at_pc (.stop stops), fun _ _ => rfl⟩
    | leave at_next => rw [stops] at at_next; cases at_next
    | go at_next => rw [stops] at at_next; cases at_next
    | fork at_next => rw [stops] at at_next; cases at_next
  | @go pc next p p₁ p' l at_pc step _ ih =>
    have goes : (code b pc).Next next := by rw [at_pc]; rfl
    obtain ⟨i, found, goes'⟩ := found_of_next goes
    obtain ⟨t₁, step₁, hlive, hleft⟩ := step_shared goes step hsame
    obtain ⟨s', t', rest, hrest⟩ := ih (comes.next goes') (hlive next goes)
    refine ⟨s', t', .go at_pc step₁ rest, fun k hk => ?_⟩
    rw [hrest k fun hw => hk (.of_next found goes' hw), hleft k hk]
  | @fork pc next other p p₁ p₂ p' l l' at_pc step _ _ ih ih' =>
    have goes : (code b pc).Next next := by rw [at_pc]; exact .inl rfl
    have skips : (code b pc).Next other := by rw [at_pc]; exact .inr rfl
    obtain ⟨i, found, goes'⟩ := found_of_next goes
    obtain ⟨-, -, skips'⟩ := found_of_next skips
    obtain ⟨t₁, step₁, hlive, hleft⟩ := step_shared goes step hsame
    obtain ⟨s₂, t₂, taken, hrest⟩ := ih (comes.next goes') (hlive next goes)
    have hother : ∀ k, LiveAt b other k → t₂ k = p₁.2 k := by
      intro k hk
      obtain ⟨j, found', hif, rfl, rfl⟩ := if_of_fork at_pc
      have running : j.op ≠ .cont := by rw [hif]; nofun
      rw [hrest k (separate pc j k (comes.reached found' running) found' hif hk), hlive _ skips k hk]
    obtain ⟨s', t', skipped, hrest'⟩ := ih' (comes.next skips') hother
    refine ⟨s', t', ?_, fun k hk => ?_⟩
    · rw [List.map_append]
      exact .fork at_pc step₁ taken skipped
    · rw [hrest' k fun hw => hk (.of_next found skips' hw), hrest k fun hw => hk (.of_next found goes' hw),
        hleft k hk]

/-! ### Paths -/

theorem steps_nil {p p' : State × Temps} (steps : Branching.steps (own proc b) [] p = some p') : p' = p :=
  (Option.some.inj steps).symm

theorem steps_cons_iff {p p' : State × Temps} (found : b[pc]? = some i) :
    Branching.steps (own proc b) (pc :: ps) p = some p' ↔
      ∃ p₁, update proc i p = some p₁ ∧ Branching.steps (own proc b) ps p₁ = some p' := by
  rw [Branching.steps, show (own proc b).step pc p = update proc i p by simp [own, interpreter, found]]
  exact Option.bind_eq_some_iff

/-- The first step of a path. -/
theorem found_of_path (path : Path (documented b) pc (q :: ps)) :
    pc = q ∧ ∃ i next, b[q]? = some i ∧ Path (documented b) next ps := by
  have running : ¬ PathEnd b pc := fun ended => by simpa using (path_of_end ended).mp path
  obtain ⟨i, found, -⟩ := found_of_running running
  obtain ⟨rest, heq⟩ := head_of_path running path
  cases heq
  obtain ⟨⟨next, -, rest⟩, -⟩ := path.split (w := [])
  exact ⟨rfl, i, next, found, rest⟩

variable {c : Platform}

/-- On a path whose steps fit no step fails. -/
theorem exists_steps {p : State × Temps} (path : Path (documented b) pc ps)
    (fits : ∀ w q qs i p', ps = w ++ q :: qs → b[q]? = some i →
      Branching.steps (own c.proc b) w p = some p' → Fits c i p') :
    ∃ u, Branching.steps (own c.proc b) ps p = some u := by
  induction ps generalizing pc p with
  | nil => exact ⟨p, rfl⟩
  | cons q ps ih =>
    obtain ⟨-, i, next, found, rest⟩ := found_of_path path
    obtain ⟨p₁, step⟩ := Platform.exists_update (fits [] q ps i p rfl found rfl)
    obtain ⟨u, steps⟩ := ih rest fun w q' qs j p' heq found' steps =>
      fits (q :: w) q' qs j p' (by rw [heq]; rfl) found' ((steps_cons_iff found).mpr ⟨p₁, step, steps⟩)
    exact ⟨u, (steps_cons_iff found).mpr ⟨p₁, step, steps⟩⟩

/-- The state at the end of a path stands for the machines there. -/
theorem path_covers {p u : State × Temps} {m m' : Machine} (path : Path (documented b) pc ps)
    (fits : ∀ w q qs i p', ps = w ++ q :: qs → b[q]? = some i →
      Branching.steps (own c.proc b) w p = some p' → Fits c i p')
    (covers : c.Covers (Live (operations b ps)) p m) (exec : c.Exec (operations b ps) m m')
    (steps : Branching.steps (own c.proc b) ps p = some u) : c.Models u.1 m' := by
  induction ps generalizing pc p m with
  | nil =>
    obtain rfl := steps_nil steps
    cases exec
    exact covers.models
  | cons q ps ih =>
    obtain ⟨-, i, next, found, rest⟩ := found_of_path path
    obtain ⟨p₁, step, steps⟩ := (steps_cons_iff found).mp steps
    rw [operations_cons found] at covers exec
    cases exec with
    | cons hsteps exec =>
      have fits₀ := fits [] q ps i p rfl found rfl
      have covers₁ := Platform.update_covers covers (fun k hk => .inl hk)
        (fun k hk => or_iff_not_imp_right.mpr fun hw => .inr ⟨hw, hk⟩) fits₀ hsteps step
      exact ih rest (fun w q' qs j p' heq found' steps =>
        fits (q :: w) q' qs j p' (by rw [heq]; rfl) found' ((steps_cons_iff found).mpr ⟨p₁, step, steps⟩))
        covers₁ exec steps

/-! ### Ends of paths -/

/-- An instruction makes at most one change of the state. -/
theorem state_of_update {p p' : State × Temps} (hupdate : update proc i p = some p') :
    p'.1 = p.1 ∨ ∃ addr val, p'.1 = p.1.set addr val := by
  cases hwrites : writes i with
  | some d =>
    rw [update_of_writes hwrites] at hupdate
    obtain ⟨v, -, hset⟩ := Option.bind_eq_some_iff.mp hupdate
    unfold StackProblem.set at hset
    split at hset
    case isTrue =>
      obtain ⟨k, -, rfl⟩ := Option.map_eq_some_iff.mp hset
      exact .inl rfl
    case isFalse =>
      cases hset
      exact .inr ⟨_, _, rfl⟩
  | none =>
    rw [update_of_not_writes hwrites] at hupdate
    split at hupdate
    case isTrue =>
      obtain ⟨addr, -, hupdate⟩ := Option.bind_eq_some_iff.mp hupdate
      obtain ⟨v, -, rfl⟩ := Option.map_eq_some_iff.mp hupdate
      exact .inr ⟨_, _, rfl⟩
    case isFalse =>
      cases hupdate
      exact .inl rfl

theorem state_of_steps {p u : State × Temps} (hs : Reachable p.1)
    (steps : Branching.steps (own proc b) ps p = some u) : Reachable u.1 ∧ u.1.first = p.1.first := by
  induction ps generalizing p with
  | nil =>
    obtain rfl := steps_nil steps
    exact ⟨hs, rfl⟩
  | cons q ps ih =>
    obtain ⟨p₁, step, steps⟩ := Option.bind_eq_some_iff.mp steps
    obtain ⟨i, -, hupdate⟩ := Option.bind_eq_some_iff.mp step
    obtain heq | ⟨addr, val, heq⟩ := state_of_update hupdate
    · obtain ⟨hreach, hfirst⟩ := ih (heq ▸ hs) steps
      exact ⟨hreach, hfirst.trans (congrArg first heq)⟩
    · obtain ⟨hreach, hfirst⟩ := ih (heq ▸ hs.set addr val) steps
      rw [heq, first_set] at hfirst
      exact ⟨hreach, hfirst⟩

end StackProblem

namespace Platform

open Value

variable {c : Platform} {s s' : State} {m : Machine}

theorem Agree.binding_join (agree : c.Agree s s') (hs : s.Valid) (hbot : s.first ≠ .bot) (hbot' : s'.first ≠ .bot)
    {x : Value} {n : ℕ} (himage : c.FromImage x n) : (s.join s').binding x = s.binding x := by
  rw [State.binding_join hbot hbot', ← agree x n himage]
  cases hx : s.binding x with
  | none => rfl
  | some v =>
    have hself : v.join v = v := if_neg (not_not.mpr rfl)
    rw [Option.bind_some, Option.bind_some, hself]
    exact kept_eq_some.mpr ⟨rfl, hs.cells x v hx⟩

/-- A join with a state that agrees keeps the machines of both. -/
theorem Models.join (h : c.Models s m ∨ c.Models s' m) (agree : c.Agree s s') (hs : s.Valid)
    (hfirst : s.first = .top) (hfirst' : s'.first = .top) : c.Models (s.join s') m := by
  have hbinding := binding_join (not_bot hfirst) (not_bot hfirst')
  have hboth : ∀ {x v a}, (s.join s').binding x = some v →
      (∀ w, s.binding x = some w → c.Models s m → a ∈ w.gamma c.sp0) →
      (∀ w, s'.binding x = some w → c.Models s' m → a ∈ w.gamma c.sp0) → a ∈ v.gamma c.sp0 := by
    intro x v a hv hleft hright
    rw [hbinding] at hv
    obtain ⟨v₁, hv₁, hv⟩ := Option.bind_eq_some_iff.mp hv
    obtain ⟨v₂, hv₂, hv⟩ := Option.bind_eq_some_iff.mp hv
    obtain ⟨rfl, -⟩ := kept_eq_some.mp hv
    obtain h | h := h
    · exact gamma_join_left (hleft v₁ hv₁ h)
    · exact gamma_join_right (hright v₂ hv₂ h)
  refine ⟨(first_join (not_bot hfirst)).trans hfirst, fun r hr => ?_, fun x v a hv ha => ?_, fun x n hnone himage => ?_⟩
  · rw [get_reg hr, first_join (not_bot hfirst), hfirst]
    cases hv : (s.join s').binding (.reg r) with
    | none => exact mem_gamma_top
    | some v =>
      refine hboth hv (fun w hw h => ?_) (fun w hw h => ?_)
      · have hmem := h.regs r hr
        rw [get_of_binding hw] at hmem
        exact hmem
      · have hmem := h.regs r hr
        rw [get_of_binding hw] at hmem
        exact hmem
  · exact hboth hv (fun w hw h => h.cells x w a hw ha) (fun w hw h => h.cells x w a hw ha)
  · rw [agree.binding_join hs (not_bot hfirst) (not_bot hfirst') himage] at hnone
    obtain h | h := h
    · exact h.image x n hnone himage
    · exact h.image x n ((agree x n himage).symm.trans hnone) himage

/-- The states at the ends of the paths, joined. -/
theorem models_joined {l : List State} (h : c.Models s m ∨ ∃ s' ∈ l, c.Models s' m) (hs : Reachable s)
    (hreach : ∀ s' ∈ l, Reachable s') (hfirst : s.first = .top) (hfirsts : ∀ s' ∈ l, s'.first = .top)
    (agree : ∀ s' ∈ l, c.Agree s s') : c.Models (l.foldl State.join s) m := by
  induction l generalizing s with
  | nil =>
    obtain h | ⟨s', mem, -⟩ := h
    · exact h
    · cases mem
  | cons s' l ih =>
    obtain ⟨reach', hreach⟩ := List.forall_mem_cons.mp hreach
    obtain ⟨hfirst', hfirsts⟩ := List.forall_mem_cons.mp hfirsts
    obtain ⟨agree', agree⟩ := List.forall_mem_cons.mp agree
    rw [List.foldl_cons]
    refine ih ?_ (.join hs reach') hreach ((first_join (not_bot hfirst)).trans hfirst) hfirsts ?_
    · obtain h | ⟨s'', mem, h⟩ := h
      · exact .inl (Models.join (.inl h) agree' hs.valid hfirst hfirst')
      · obtain rfl | mem := List.mem_cons.mp mem
        · exact .inl (Models.join (.inr h) agree' hs.valid hfirst hfirst')
        · exact .inr ⟨s'', mem, h⟩
    · intro s'' mem x n himage
      rw [agree'.binding_join hs.valid (not_bot hfirst) (not_bot hfirst') himage]
      exact agree s'' mem x n himage

end Platform

namespace StackProblem

variable {c : Platform} {b : Block} {s : State} {tmp : Temps}

theorem own_restores (proc : Process) (b : Block) (p p' : State × Temps) :
    (own proc b).restore ((own proc b).save p) p' = p := rfl

/-- The joined states of the ends are what `update` leaves. -/
theorem updateInst_of_explores {proc : Process} {e : State} {l : List State} {p : State × Temps}
    (explores : Explores (code b) (interpreter proc b) 0 (s, tmp) (e :: l) p) :
    updateInst proc b (s, tmp) = some (l.foldl State.join e, p.2) := by
  have folds : ∀ (l : List State) (e : State),
      l.foldl (interpreter proc b).finish (some e) = some (l.foldl State.join e) := by
    intro l
    induction l with
    | nil => exact fun _ => rfl
    | cons x l ih => exact fun e => ih (e.join x)
  rw [updateInst, run_of_forward (code_forward b) explores, Option.bind_some]
  show ((l.foldl (interpreter proc b).finish (some e)).map fun is => (is, p.2)) = _
  rw [folds]
  rfl

/-- The state that `update` leaves stands for the machines at the ends of all paths. -/
def Sound (c : Platform) (b : Block) (s : State) (tmp : Temps) : Prop :=
  ∃ s' tmp', updateInst c.proc b (s, tmp) = some (s', tmp') ∧
    ∀ ps m m', Path (documented b) 0 ps → c.Models s m → c.Exec (operations b ps) m m' → c.Models s' m'

/-- The analysis of an instruction is sound where no path comes to a branch that goes wrong. -/
theorem sound_of_fits (c : Platform) (b : Block) (s : State) (tmp : Temps) (hs : Reachable s)
    (fits : BlockFits c b (s, tmp)) : Sound c b s tmp := by
  have stepFits : ∀ ps, Path (documented b) 0 ps → ∀ w q qs i p', ps = w ++ q :: qs → b[q]? = some i →
      Branching.steps (own c.proc b) w (s, tmp) = some p' → Fits c i p' := by
    rintro ps path w q qs i p' rfl found steps
    exact fits.steps w q qs i p' path found steps
  obtain ⟨l, p', explores⟩ := ((code_forward b).ends 0).explores_of_steps (own_restores c.proc b)
    fun ps path => exists_steps (path_stack_iff.mp path) (stepFits ps (path_stack_iff.mp path))
  have ends : ∀ u, u ∈ l ↔ ∃ ps, Path (documented b) 0 ps ∧
      Branching.steps (own c.proc b) ps (s, tmp) = some u := by
    intro u
    rw [explores.mem_iff (own_restores c.proc b)]
    simp only [path_stack_iff]
    constructor
    · rintro ⟨ps, u, path, steps, rfl⟩
      exact ⟨ps, path, steps⟩
    · rintro ⟨ps, path, steps⟩
      exact ⟨ps, u, path, steps, rfl⟩
  obtain ⟨s', t', shared, -⟩ := explores_shared fits.own explores (comes_zero b) fun k hk => absurd hk (fits.set k)
  cases l with
  | nil => exact absurd rfl explores.ne_nil
  | cons e l =>
    refine ⟨_, _, updateInst_of_explores shared, fun ps m m' path hmodels exec => ?_⟩
    have state : ∀ u ∈ e :: l, Reachable u.1 ∧ u.1.first = .top := by
      intro u mem
      obtain ⟨ps, -, steps⟩ := (ends u).mp mem
      obtain ⟨hreach, hfirst⟩ := state_of_steps hs steps
      exact ⟨hreach, hfirst.trans hmodels.full⟩
    have agree : ∀ u ∈ l, c.Agree e.1 u.1 := by
      intro u mem
      obtain ⟨ps, path, steps⟩ := (ends e).mp List.mem_cons_self
      obtain ⟨ps', path', steps'⟩ := (ends u).mp (List.mem_cons_of_mem e mem)
      exact fits.ends ps ps' e u path path' steps steps'
    obtain ⟨u, steps⟩ := exists_steps path (stepFits ps path)
    have covers : c.Covers (Live (operations b ps)) (s, tmp) m :=
      ⟨hmodels, fun r k _ hk => absurd ⟨ps, path, hk⟩ (fits.set k)⟩
    have hend : c.Models u.1 m' := path_covers path (stepFits ps path) covers exec steps
    refine Platform.models_joined ?_ (state e List.mem_cons_self).1 ?_ (state e List.mem_cons_self).2 ?_ ?_
    · obtain rfl | mem := List.mem_cons.mp ((ends u).mpr ⟨ps, path, steps⟩)
      · exact .inl hend
      · exact .inr ⟨u.1, List.mem_map_of_mem mem, hend⟩
    all_goals simp only [List.forall_mem_map]
    · exact fun u mem => (state u (List.mem_cons_of_mem e mem)).1
    · exact fun u mem => (state u (List.mem_cons_of_mem e mem)).2
    · exact agree

/-- A program without an image. -/
def bare : Platform :=
  ⟨⟨fun _ => false, fun _ _ => 0⟩, 0, .little⟩

theorem models_full (m : Machine) : bare.Models full m where
  full := rfl
  regs r hr := by
    rw [Platform.get_reg hr]
    exact Value.mem_gamma_top
  cells _ _ _ h := nomatch h
  image _ _ _ h := nomatch h.2.1

/-- One instruction, which takes no temporary. -/
theorem path_one {i : Inst} {ps : List ℕ} (hcont : i.op ≠ .cont) (hif : i.op ≠ .if) :
    Path (documented [i]) 0 ps ↔ ps = [0] := by
  have ended : PathEnd [i] 1 := fun _ found => nomatch found
  have first : documented [i] 0 = .go 1 := by rw [documented_of_found rfl, if_neg hcont, if_neg hif]
  rw [path_iff, first]
  constructor
  · rintro ⟨rest, rfl, path⟩
    rw [(path_of_end ended).mp path]
  · rintro rfl
    exact ⟨[], rfl, (path_of_end ended).mpr rfl⟩

def constant : Block := [{ op := .seti, d := 0, cst := 5 }]

theorem constant_fits : BlockFits bare constant (full, fun _ => .top) := by
  have reads : ∀ k, ¬ Reads { op := .seti, d := 0, cst := 5 } k := by
    rintro k ⟨r, hr, -⟩
    cases hr
  have path : ∀ {ps}, Path (documented constant) 0 ps ↔ ps = [0] := path_one nofun nofun
  refine ⟨?_, ?_, ?_, ?_⟩
  · rintro k ⟨ps, hps, live⟩
    rw [path.mp hps] at live
    obtain hreads | ⟨-, live⟩ := live
    · exact reads k hreads
    · exact live
  · intro pc i k _ found hif
    obtain ⟨lt, rfl⟩ := List.getElem?_eq_some_iff.mp found
    obtain rfl : pc = 0 := Nat.lt_one_iff.mp lt
    cases hif
  · intro w pc ps i p' _ found _
    obtain ⟨lt, -⟩ := List.getElem?_eq_some_iff.mp found
    obtain rfl : pc = 0 := Nat.lt_one_iff.mp lt
    obtain rfl : { op := .seti, d := 0, cst := 5 } = i := Option.some.inj found
    refine ⟨nofun, ?_, nofun, nofun, nofun, fun _ _ _ _ _ _ => trivial⟩
    intro r hr hneg
    cases hr
    exact absurd hneg (by decide)
  · rintro ps ps' u u' hps hps' steps steps' x n ⟨-, hcontains, -⟩
    cases hcontains

theorem sound_of_fits_constant : Sound bare constant full fun _ => .top :=
  sound_of_fits bare constant full _ .full constant_fits

def product : Block := [{ op := .mulh, d := 2, a := 0, b := 1 }]

/-- The registers 0 and 1 have words whose product has a high word. -/
def factors : State :=
  (full.set (.reg 0) (.cst 0x80000000)).set (.reg 1) (.cst 2)

/-- The high word of a product is taken for 0. -/
theorem high_word_lost : ¬ ∀ c b s tmp, Reachable s → Sound c b s tmp := by
  intro sound
  obtain ⟨s', tmp', hupdate, hmodels⟩ :=
    sound bare product factors (fun _ => .top) (.set _ _ (.set _ _ .full))
  have hbound : s'.binding (.reg 2) = some (.cst 0) := by
    have hrun : (updateInst bare.proc product (factors, fun _ => .top)).map (fun r => r.1.binding (.reg 2)) =
        some (some (.cst 0)) := by decide
    rw [hupdate] at hrun
    exact Option.some.inj hrun
  have hfactor := (models_full ⟨fun _ => 0, fun _ => 0⟩).setReg (d := 0) (v := .cst 0x80000000) (by decide) rfl
  have hfactors := hfactor.setReg (d := 1) (v := .cst 2) (by decide) rfl
  have path : Path (documented product) 0 [0] :=
    (path_one (i := { op := .mulh, d := 2, a := 0, b := 1 }) nofun nofun).mpr rfl
  have hend := hmodels [0] _ _ path hfactors (.cons ⟨1, by rintro r ⟨⟩; decide, rfl⟩ .nil)
  have hmem := hend.regs 2 (by decide)
  rw [Platform.get_of_binding hbound] at hmem
  exact absurd ((Value.mem_gamma_const (by decide)).mp hmem) (by decide)

end StackProblem

end Otawa.Stack
