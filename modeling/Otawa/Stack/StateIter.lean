import Otawa.Stack.Soundness

/-!
# `StateIter` over the states of the stack analysis

`StateIter` goes through the paths of an instruction with `PathIter` and joins the states at their ends with
`Manager::joinPath`, which asks `isBot` whether there is something to join. `isBot` is true of every state, so the
state of the last path is left. `iterates_iff` says when this is the join that `StackProblem::update` computes.
-/

namespace Otawa.Stack

open Branching
open Cells
open Clp (Word)
open Sem
open State

namespace State

/-- `first.addr`: the constructors set it to `Value::none`, and nothing else is copied over it. -/
def firstAddr (_ : State) : Value := .bot

def isBot (s : State) : Bool :=
  s.firstAddr = .bot

end State

namespace Manager

def joinPath (s1 s2 : State) : State :=
  if s1.isBot then s2
  else if s2.isBot then s1
  else s1.join s2

end Manager

namespace StateIter

open StackProblem

/-- `next`: an `IF` saves a copy of the state, and the state at the end of a path is joined to `es`. -/
def iterator (proc : Process) (b : Block) : Interpreter (State × Temps) State State where
  step pc p := (PathIter.start b).bb[pc]?.bind fun i => update proc i p
  save p := p.1
  restore s p := (s, p.2)
  finish es s := Manager.joinPath es s

/-- The iteration over the instruction comes to its end with the state. -/
def Iterates (proc : Process) (b : Block) (p : State × Temps) (s : State) : Prop :=
  ∃ fuel p', run (PathIter.code b) (iterator proc b) fuel ⟨0, p, [], empty⟩ = some (s, p')

/-- What a state binds, the other one binds too, or has no value there. -/
def Below (s t : State) : Prop :=
  ∀ x v, t.binding x = some v → s.binding x = some v ∨ s.binding x = some .bot

variable {proc : Process} {b : Block} {pc : ℕ} {s t : State} {l : List State} {p p' : State × Temps}

/-! ### Joins of the states at the ends -/

theorem below_refl (s : State) : Below s s :=
  fun _ _ h => .inl h

theorem kept_join {v v' w : Value} : kept (v.join v') = some w ↔
    w ≠ .top ∧ (v = w ∧ (v' = w ∨ v' = .bot) ∨ v = .bot ∧ v' = w) := by
  have htop : ∀ u : Value, u.kind = .all ↔ u = .top := by
    intro u
    unfold Value.kind
    split_ifs <;> simp_all
  have hne : (Value.top : Value) ≠ .bot := by decide
  rw [kept_eq_some, ne_eq, htop]
  unfold Value.join
  split_ifs <;> grind

/-- The cells of a join of states that are not bottom. -/
theorem binding_foldl (hl : ∀ s ∈ l, Reachable s ∧ s.first ≠ .bot) {e : State} (he : Reachable e)
    (hfirst : e.first ≠ .bot) (x : Value) (v : Value) :
    (l.foldl State.join e).binding x = some v ↔
      (∀ s ∈ e :: l, s.binding x = some v ∨ s.binding x = some .bot) ∧ ∃ s ∈ e :: l, s.binding x = some v := by
  induction l generalizing e with
  | nil => simp +contextual
  | cons c l ih =>
    obtain ⟨hc, hcfirst⟩ := hl c List.mem_cons_self
    have hrest : ∀ s ∈ l, Reachable s ∧ s.first ≠ .bot := fun s hs => hl s (List.mem_cons_of_mem c hs)
    have hjoined : (e.join c).first ≠ .bot := by
      rw [first_join hfirst]
      exact hfirst
    have hcell : ∀ w, (e.join c).binding x = some w ↔
        e.binding x = some w ∧ (c.binding x = some w ∨ c.binding x = some .bot) ∨
          e.binding x = some .bot ∧ c.binding x = some w := by
      intro w
      have hvalid : ∀ u, e.binding x = some u → u ≠ .top := by
        rintro u hu rfl
        exact he.valid.cells x _ hu rfl
      have hvalid' : ∀ u, c.binding x = some u → u ≠ .top := by
        rintro u hu rfl
        exact hc.valid.cells x _ hu rfl
      rw [binding_join hfirst hcfirst]
      simp only [Option.bind_eq_some_iff, kept_join]
      grind
    rw [List.foldl_cons, ih hrest (he.join hc) hjoined]
    simp only [List.forall_mem_cons, List.exists_mem_cons_iff, hcell]
    grind

theorem eq_of_binding (hfirst : s.first = t.first) (hsame : ∀ x, s.binding x = t.binding x) : s = t := by
  cases s with
  | mk first nodes sorted =>
    cases t with
    | mk first' nodes' sorted' =>
      obtain rfl : first = first' := hfirst
      obtain rfl : nodes = nodes' := eq_of_find sorted sorted' hsame
      rfl

/-- The join of some states is one of them where it is above all of them. -/
theorem foldl_join_eq_iff {e : State} (hall : ∀ s ∈ e :: l, Reachable s ∧ s.first = e.first)
    (hbot : e.first = .bot → ∀ s ∈ e :: l, s = e) (ht : t ∈ e :: l) :
    l.foldl State.join e = t ↔ ∀ s ∈ e :: l, Below s t := by
  obtain ⟨he, -⟩ := hall e List.mem_cons_self
  by_cases hfirst : e.first = .bot
  · have hsame := hbot hfirst
    obtain rfl := hsame t ht
    have hfold : ∀ l' : List State, (∀ s ∈ l', s = t) → l'.foldl State.join t = t := by
      intro l' hl'
      induction l' with
      | nil => rfl
      | cons c l' ih =>
        have hjoin : t.join c = t := by
          rw [hl' c List.mem_cons_self, State.join, if_pos hfirst]
        rw [List.foldl_cons, hjoin]
        exact ih fun s hs => hl' s (List.mem_cons_of_mem c hs)
    constructor
    · intro _ s hs
      rw [hsame s hs]
      exact below_refl t
    · intro _
      exact hfold l fun s hs => hsame s (List.mem_cons_of_mem t hs)
  · have hne : ∀ s ∈ l, Reachable s ∧ s.first ≠ .bot := by
      intro s hs
      obtain ⟨hreach, heq⟩ := hall s (List.mem_cons_of_mem e hs)
      exact ⟨hreach, heq ▸ hfirst⟩
    constructor
    · rintro rfl s hs x v hv
      exact ((binding_foldl hne he hfirst x v).mp hv).1 s hs
    · intro hbelow
      have hfold : ∀ l' : List State, (l'.foldl State.join e).first = e.first := by
        intro l'
        induction l' using List.reverseRecOn with
        | nil => rfl
        | append_singleton l' c ih =>
          rw [List.foldl_append, List.foldl_cons, List.foldl_nil, first_join (ih ▸ hfirst), ih]
      refine eq_of_binding ((hfold l).trans (hall t ht).2.symm) fun x => ?_
      have hcells := binding_foldl hne he hfirst x
      apply Option.ext
      intro v
      rw [hcells]
      constructor
      · -- what some state binds and the others do not contradict, the last one binds
        rintro ⟨hsome, s, hs, hv⟩
        obtain htv | htv := hsome t ht
        · exact htv
        · obtain hsv | hsv := hbelow s hs x .bot htv
          · rw [hv] at hsv
            rw [htv, hsv]
          · rw [hv] at hsv
            rw [htv, hsv]
      · intro hv
        exact ⟨fun s hs => hbelow s hs x v hv, t, ht, hv⟩

/-! ### The paths of the iterator -/

theorem foldl_finish (l : List State) (es : State) :
    l.foldl (iterator proc b).finish es = l.getLast?.getD es := by
  induction l using List.reverseRecOn with
  | nil => rfl
  | append_singleton l s _ => simp [iterator, Manager.joinPath, isBot, firstAddr]

/-- The last path leaves its state. -/
theorem iterates_iff_last : Iterates proc b p s ↔
    ∃ l p', Explores (PathIter.code b) (iterator proc b) 0 p l p' ∧ l.getLast? = some s := by
  constructor
  · rintro ⟨fuel, p', hrun⟩
    obtain ⟨l, explores, hfold⟩ := run_eq_some_iff.mp ⟨fuel, hrun⟩
    refine ⟨l, p', explores, ?_⟩
    rw [foldl_finish] at hfold
    cases hlast : l.getLast? with
    | none => exact absurd (List.getLast?_eq_none_iff.mp hlast) explores.ne_nil
    | some last =>
      rw [hlast] at hfold
      exact congrArg some hfold
  · rintro ⟨l, p', explores, hlast⟩
    have hfold : l.foldl (iterator proc b).finish empty = s := by
      rw [foldl_finish, hlast]
      rfl
    obtain ⟨fuel, hrun⟩ := (run_eq_some_iff (r := (s, p'))).mpr ⟨l, explores, hfold⟩
    exact ⟨fuel, p', hrun⟩

theorem Iterates.unique (h : Iterates proc b p s) (h' : Iterates proc b p t) : s = t := by
  obtain ⟨fuel, q, hrun⟩ := h
  obtain ⟨fuel', q', hrun'⟩ := h'
  exact congrArg Prod.fst (run_unique hrun hrun')

/-- A state is left at an end of the block, and nothing is done. -/
theorem explores_of_end (ended : PathEnd b pc) (explores : Explores (code b) (interpreter proc b) pc p l p') :
    l = [p.1] ∧ p' = p := by
  have hstop : ∀ q p l p', code b q = .stop → Explores (code b) (interpreter proc b) q p l p' →
      l = [p.1] ∧ p' = p := by
    intro q p l p' hcode explores
    cases explores with
    | stop => exact ⟨rfl, rfl⟩
    | leave hcode' => simp [hcode] at hcode'
    | go hcode' => simp [hcode] at hcode'
    | fork hcode' => simp [hcode] at hcode'
  cases found : b[pc]? with
  | none =>
    have hcode : code b pc = .stop := by
      rw [code, found]
    exact hstop pc p l p' hcode explores
  | some i =>
    have hcode : code b pc = .leave (b.length + 1) := by
      rw [code_of_found found, if_pos (ended i found)]
    cases explores with
    | stop hcode' => simp [hcode] at hcode'
    | go hcode' => simp [hcode] at hcode'
    | fork hcode' => simp [hcode] at hcode'
    | leave hcode' explores =>
      obtain rfl : b.length + 1 = _ := by simpa [hcode] using hcode'
      exact hstop _ p l p' ((code_forward b).stop _ (Nat.le_succ _)) explores

/-- Where the places of the iterator fit, it goes through the paths as `StackProblem::update` does. -/
theorem explores_iterator (fits : IterFits b) (explores : Explores (code b) (interpreter proc b) pc p l p')
    (comes : Comes b pc) (le : pc ≤ b.length) : Explores (PathIter.code b) (iterator proc b) pc p l p' := by
  induction explores with
  | @stop pc p hcode =>
    have ended : PathEnd b pc := by
      intro i found
      rw [code_of_found found] at hcode
      split_ifs at hcode
    exact .stop (iter_of_end ended le)
  | @leave pc next p p' l hcode explores _ =>
    have ended : PathEnd b pc := by
      intro i found
      rw [code_of_found found] at hcode
      split_ifs at hcode with hcont
      exact hcont
    obtain ⟨rfl, rfl⟩ := explores_of_end ended (.leave hcode explores)
    exact .stop (iter_of_end ended le)
  | @go pc next p p₁ p' l hcode hstep _ ih =>
    obtain ⟨i, found, hupdate⟩ := Option.bind_eq_some_iff.mp hstep
    obtain ⟨lt, -⟩ := List.getElem?_eq_some_iff.mp found
    rw [code_of_found found] at hcode
    split_ifs at hcode with hcont hif
    cases hcode
    have hiter : PathIter.code b pc = .go (pc + 1) := by
      rw [PathIter.code_of_found found, if_neg hcont, if_neg hif]
    refine .go hiter ?_ (ih (comes.next (next_of_found found hcont)) lt)
    show (PathIter.start b).bb[pc]?.bind _ = some p₁
    rw [PathIter.bb_of_lt found]
    exact hupdate
  | @fork pc next other p p₁ p₂ p' l l' hcode hstep _ explores ih _ =>
    obtain ⟨i, found, hupdate⟩ := Option.bind_eq_some_iff.mp hstep
    obtain ⟨lt, -⟩ := List.getElem?_eq_some_iff.mp found
    rw [code_of_found found] at hcode
    split_ifs at hcode with hcont hif
    cases hcode
    obtain ⟨hiter, -⟩ := code_of_if found hif
    obtain ⟨hle, hended, hended'⟩ := fits pc i (comes.reached found hcont) found hif
    rw [Nat.add_right_comm] at hended'
    obtain ⟨rfl, rfl⟩ := explores_of_end hended' explores
    refine .fork hiter ?_ (ih (comes.next (next_of_found found hcont)) lt) (.stop (iter_of_end hended hle))
    show (PathIter.start b).bb[pc]?.bind _ = some p₁
    rw [PathIter.bb_of_lt found]
    exact hupdate

/-- The states at the ends of the paths. -/
theorem reachable_ends (hs : Reachable p.1) (explores : Explores (code b) (interpreter proc b) pc p l p') :
    ∀ s ∈ l, (Reachable s ∧ s.first = p.1.first) ∧ (p.1.first = .bot → s = p.1) := by
  have hinv := explores.invariant
    (P := fun q => (Reachable q.1 ∧ q.1.first = p.1.first) ∧ (p.1.first = .bot → q.1 = p.1))
    (Q := fun s => (Reachable s ∧ s.first = p.1.first) ∧ (p.1.first = .bot → s = p.1))
    (fun pc q q' hstep hq => by
      obtain ⟨i, -, hupdate⟩ := Option.bind_eq_some_iff.mp hstep
      obtain ⟨⟨hreach, hfirst⟩, hsame⟩ := hq
      obtain heq | ⟨addr, val, heq⟩ := state_of_update hupdate
      · rw [heq]
        exact ⟨⟨hreach, hfirst⟩, hsame⟩
      · rw [heq]
        refine ⟨⟨hreach.set addr val, (first_set addr val).trans hfirst⟩, fun hbot => ?_⟩
        rw [State.set, if_pos (hfirst.trans hbot)]
        exact hsame hbot)
    (fun _ hq => hq) (fun _ _ hq _ => hq)
  exact (hinv ⟨⟨hs, rfl⟩, fun _ => rfl⟩).1

/-- The join that `StackProblem::update` computes is what the last path leaves where this is above what each path
leaves. -/
theorem joined_eq_last_iff (hs : Reachable p.1) {j last : State} {tmp' : Temps}
    (hupdate : updateInst proc b p = some (j, tmp')) (explores : Explores (code b) (interpreter proc b) 0 p l p')
    (hlast : l.getLast? = some last) : j = last ↔ ∀ s ∈ l, Below s last := by
  obtain ⟨e, l, rfl⟩ := List.exists_cons_of_ne_nil explores.ne_nil
  have hends := reachable_ends hs explores
  have hjoin : l.foldl State.join e = j := by
    have hboth := (updateInst_of_explores explores).symm.trans hupdate
    exact congrArg Prod.fst (Option.some.inj hboth)
  have hfirst := (hends e List.mem_cons_self).1.2
  rw [← hjoin]
  refine foldl_join_eq_iff (fun s hmem => ?_) (fun hbot s hmem => ?_) (List.mem_of_getLast? hlast)
  · obtain ⟨⟨hreach, hfirst'⟩, -⟩ := hends s hmem
    exact ⟨hreach, hfirst'.trans hfirst.symm⟩
  · have hbot' : p.1.first = .bot := hfirst.symm.trans hbot
    exact ((hends s hmem).2 hbot').trans ((hends e List.mem_cons_self).2 hbot').symm

theorem one_path (hif : ∀ i ∈ b, i.op ≠ .if) (explores : Explores (code b) (interpreter proc b) pc p l p') :
    ∃ s, l = [s] := by
  induction explores with
  | stop => exact ⟨_, rfl⟩
  | leave _ _ ih => exact ih
  | go _ _ _ ih => exact ih
  | fork hcode hstep =>
    obtain ⟨i, found, -⟩ := Option.bind_eq_some_iff.mp hstep
    rw [code_of_found found, if_neg (hif i (List.mem_of_getElem? found))] at hcode
    split_ifs at hcode

/-- The program has no image. -/
def noImage : Process := ⟨fun _ => false, fun _ _ => 0⟩

/-- The register 0 is set under a condition. -/
def setIf : Block :=
  [{ op := .if, b := 2 }, { op := .seti, cst := 5 }, { op := .cont }]

end StateIter

end Otawa.Stack
