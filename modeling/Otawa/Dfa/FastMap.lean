import Otawa.Dfa.FastState

/-!
# The map of a state

`map` gives a state with the values that a worker makes of those of another one, and shares what does not change. In the
memory, a changed node is written to the place that the tail pointer points to; the pointer is not moved on, and what is
written next takes the place of the node. So all changed nodes are lost (`mapMem_fst`), and the map of a state is right
exactly where no node changes (`map_sound_iff`).
-/

namespace Otawa.FastState

open Cells

variable {n : ℕ} {V : Type} [DecidableEq V]

/-- A register of the block changes. -/
def BlockChanged (f : V → V) (block : Fin 8 → V) : Prop :=
  ∃ j, f (block j) ≠ block j

instance (f : V → V) (block : Fin 8 → V) : Decidable (BlockChanged f block) :=
  inferInstanceAs (Decidable (∃ j, f (block j) ≠ block j))

/-- The registers, of which the blocks that do not change are shared, and whether they are the ones of the state. -/
def mapRegs (f : V → V) (regs : Fin n → Fin 8 → V) : (Fin n → Fin 8 → V) × Bool :=
  (fun i => if BlockChanged f (regs i) then fun j => f (regs i j) else regs i,
    decide (∀ i, ¬ BlockChanged f (regs i)))

/-- The list that is being made: the nodes up to the place that `pn` points to, what is written there, and the end of the
memory that is not copied so far. -/
structure Copy (V : Type) where
  out : List (Address × V)
  place : List (Address × V)
  last : List (Address × V)

/-- The loop over the nodes. The ones before a changed node are copied, and the new node is written behind them; `pn` is not
moved to its end. -/
def mapNodes (f : V → V) : List (Address × V) → Copy V → Copy V
  | [], p => p
  | c :: cur, p =>
    let v := f c.2
    if v ≠ c.2 then
      mapNodes f cur ⟨p.out ++ p.last.take (p.last.length - (c :: cur).length), [(c.1, v)], cur⟩
    else mapNodes f cur p

/-- `*pn = last`. -/
def Copy.finish (p : Copy V) : Copy V :=
  { p with place := p.last }

/-- The memory, and whether it is the one of the state: nothing is copied, and the end is the whole. -/
def mapMem (f : V → V) (mem : List (Address × V)) : List (Address × V) × Bool :=
  let p := (mapNodes f mem ⟨[], mem, mem⟩).finish
  (p.out ++ p.place, p.out.isEmpty && p.last.length == mem.length)

/-! ### The nodes -/

variable {f : V → V}

/-- The nodes before `cur` that do not change are copied, or are to be. -/
theorem mapNodes_filter (before cur : List (Address × V)) (p : Copy V) (suffix : p.last = before ++ cur)
    (same : ∀ c ∈ before, f c.2 = c.2) :
    let q := mapNodes f cur p
    q.out ++ q.last = p.out ++ before ++ cur.filter (fun c => f c.2 = c.2) := by
  induction cur generalizing before p with
  | nil => simp [mapNodes, suffix]
  | cons c cur ih =>
    dsimp only at ih ⊢
    unfold mapNodes
    dsimp only
    by_cases changed : f c.2 ≠ c.2
    · have front : p.last.take (p.last.length - (c :: cur).length) = before := by
        rw [suffix, List.length_append, Nat.add_sub_cancel, List.take_left]
      rw [if_pos changed, front, ih [] _ rfl nofun, List.append_nil, List.filter_cons_of_neg (by simpa using changed)]
    · have kept := not_not.mp changed
      rw [if_neg changed, ih (before ++ [c]) p (by rw [suffix, List.append_assoc]; rfl),
        List.filter_cons_of_pos (by simpa using kept)]
      · simp
      · intro c' mem
        rcases List.mem_append.mp mem with mem | mem
        · exact same c' mem
        · rwa [List.mem_singleton.mp mem]

/-- The changed nodes are lost. -/
theorem mapMem_fst (f : V → V) (mem : List (Address × V)) :
    (mapMem f mem).1 = mem.filter fun c => f c.2 = c.2 :=
  mapNodes_filter [] mem ⟨[], mem, mem⟩ rfl nofun

theorem sorted_mapMem {mem : List (Address × V)} (sorted : Sorted mem) : Sorted (mapMem f mem).1 := by
  rw [mapMem_fst]
  exact sorted.filter _

/-- The end that is not copied becomes shorter with each changed node. -/
theorem last_length (cur : List (Address × V)) (p : Copy V) (le : cur.length ≤ p.last.length) :
    (mapNodes f cur p).last.length ≤ p.last.length ∧
      ((∃ c ∈ cur, f c.2 ≠ c.2) → (mapNodes f cur p).last.length < p.last.length) := by
  induction cur generalizing p with
  | nil => exact ⟨le_rfl, fun ⟨c, mem, _⟩ => absurd mem List.not_mem_nil⟩
  | cons c cur ih =>
    rw [List.length_cons] at le
    unfold mapNodes
    dsimp only
    by_cases changed : f c.2 ≠ c.2
    · rw [if_pos changed]
      have rest := (ih ⟨p.out ++ p.last.take (p.last.length - (c :: cur).length), [(c.1, f c.2)], cur⟩ le_rfl).1
      have shorter := lt_of_le_of_lt rest (Nat.lt_of_succ_le le)
      exact ⟨le_of_lt shorter, fun _ => shorter⟩
    · rw [if_neg changed]
      obtain ⟨rest, shorter⟩ := ih p (Nat.le_of_succ_le le)
      refine ⟨rest, fun ⟨c', mem, changed'⟩ => shorter ⟨c', ?_, changed'⟩⟩
      refine (List.mem_cons.mp mem).resolve_left ?_
      rintro rfl
      exact changed changed'

theorem mapMem_snd (mem : List (Address × V)) (same : (mapMem f mem).2 = true) : ∀ c ∈ mem, f c.2 = c.2 := by
  intro c there
  by_contra changed
  have shorter := (last_length mem ⟨[], mem, mem⟩ le_rfl).2 ⟨c, there, changed⟩
  have whole := (Bool.and_eq_true_iff.mp same).2
  exact absurd (beq_iff_eq.mp whole) (Nat.ne_of_lt shorter)

/-! ### The state -/

theorem mapRegs_fst (f : V → V) (regs : Fin n → Fin 8 → V) (i : Fin n) (j : Fin 8) :
    (mapRegs f regs).1 i j = f (regs i j) := by
  unfold mapRegs
  dsimp only
  split
  · rfl
  case isFalse same => exact (not_not.mp (not_exists.mp same j)).symm

theorem mapRegs_snd (regs : Fin n → Fin 8 → V) (same : (mapRegs f regs).2 = true) (i : Fin n) (j : Fin 8) :
    f (regs i j) = regs i j :=
  not_not.mp (not_exists.mp (of_decide_eq_true same i) j)

variable [SemilatticeSup V] [BoundedOrder V]

/-- `map`; there is no new state where the memory and the registers are the ones of the state. -/
def mapped (s : T n V) (f : V → V) : Option (Contents n V) :=
  let regs := mapRegs f s.contents.regs
  let mem := mapMem f s.contents.mem
  if mem.2 && regs.2 then none else some ⟨regs.1, mem.1, sorted_mapMem s.contents.sorted⟩

def map (s : T n V) (f : V → V) : T n V :=
  match mapped s f with
  | none => s
  | some c => .made c

/-- The map has the values that the worker makes of each register and of each node, which stay at their addresses, and it is
the state itself only if nothing changes. -/
structure MapSound (s : T n V) (f : V → V) : Prop where
  regs : ∀ r, get (map s f) r = (get s r).map f
  mem : (map s f).contents.mem = s.contents.mem.map fun c => (c.1, f c.2)
  self : mapped s f = none →
    (∀ i j, f (s.contents.regs i j) = s.contents.regs i j) ∧ ∀ c ∈ s.contents.mem, f c.2 = c.2

variable {s : T n V}

theorem mapped_regs (s : T n V) (f : V → V) (i : Fin n) (j : Fin 8) :
    (map s f).contents.regs i j = f (s.contents.regs i j) := by
  unfold map mapped
  dsimp only
  by_cases same : ((mapMem f s.contents.mem).2 && (mapRegs f s.contents.regs).2) = true
  · rw [if_pos same]
    exact (mapRegs_snd _ (Bool.and_eq_true_iff.mp same).2 i j).symm
  · rw [if_neg same]
    exact mapRegs_fst f s.contents.regs i j

theorem mapped_mem (s : T n V) (f : V → V) : (map s f).contents.mem = s.contents.mem.filter fun c => f c.2 = c.2 := by
  unfold map mapped
  dsimp only
  by_cases same : ((mapMem f s.contents.mem).2 && (mapRegs f s.contents.regs).2) = true
  · rw [if_pos same]
    refine (List.filter_eq_self.mpr fun c mem => ?_).symm
    exact decide_eq_true (mapMem_snd _ (Bool.and_eq_true_iff.mp same).1 c mem)
  · rw [if_neg same]
    exact mapMem_fst f s.contents.mem

/-- The map of a state is right exactly where no node changes; the registers always are. -/
theorem map_sound_iff (s : T n V) (f : V → V) : MapSound s f ↔ ∀ c ∈ s.contents.mem, f c.2 = c.2 := by
  constructor
  · intro sound c mem
    have lengths := congrArg List.length ((mapped_mem s f).symm.trans sound.mem)
    rw [List.length_map, List.length_filter_eq_length_iff] at lengths
    exact of_decide_eq_true (lengths c mem)
  · intro same
    refine ⟨fun r => ?_, ?_, fun self => ⟨fun i j => ?_, same⟩⟩
    · unfold get
      split
      · rw [Option.map_some, mapped_regs]
      · rfl
    · rw [mapped_mem, List.filter_eq_self.mpr fun c mem => decide_eq_true (same c mem)]
      refine (List.map_id' _).symm.trans (List.map_congr_left fun c mem => ?_)
      rw [same c mem]
    · have unchanged := mapped_regs s f i j
      rw [map, self] at unchanged
      exact unchanged.symm

/-- A node that changes is lost. -/
theorem map_loses_node : ¬ ∀ (s : T 1 (Fin 3)) (f : Fin 3 → Fin 3), MapSound s f := by
  intro sound
  exact absurd (sound (store .top 8 1) fun _ => 0).mem (by decide)

end Otawa.FastState
