import Otawa.Clp.Replay
import Otawa.Stack.Update

/-!
# Three interpreters of semantic blocks

The iterator over the paths of a semantic block, the stack analysis and the CLP analysis have each a traversal of
their own. The stack analysis follows the description of the instructions (`path_stack_iff`). The iterator takes a
place too few after an `IF`, and the CLP analysis ends a path at `BRANCH` and at `TRAP`.

`same_paths_iff`: all three go through the described paths if and only if nothing depends on that place, and
nothing comes after such an instruction.
-/

namespace Otawa.Sem

open Branching

/-- The paths in a list are those of the description. -/
def IsDocumented (b : Block) (paths : List (List ℕ)) : Prop :=
  ∀ ps, ps ∈ paths ↔ Path (documented b) 0 ps

/-- The interpreters end, and go through the places of the described paths. -/
def SamePaths (b : Block) : Prop :=
  (∃ paths, Enumerates (PathIter.code b) paths ∧ IsDocumented b paths) ∧
    (∃ paths, Enumerates (Stack.StackProblem.code b) paths ∧ IsDocumented b paths) ∧
    ∃ paths, Enumerates (Clp.Problem.code b) paths ∧ IsDocumented b paths

/-- The operations on the paths in a list are those of the description. -/
def HasOperations (b : Block) (paths : List (List ℕ)) : Prop :=
  ∀ is, is ∈ paths.map (operations b) ↔ ∃ ps, Path (documented b) 0 ps ∧ operations b ps = is

/-- The interpreters end, and go through the described sequences of operations. -/
def SameOperations (b : Block) : Prop :=
  (∃ paths, Enumerates (PathIter.code b) paths ∧ HasOperations b paths) ∧
    (∃ paths, Enumerates (Stack.StackProblem.code b) paths ∧ HasOperations b paths) ∧
    ∃ paths, Enumerates (Clp.Problem.code b) paths ∧ HasOperations b paths

/-- A step of a described path is at the place. -/
def Reached (b : Block) (p : ℕ) : Prop :=
  ∃ w ps, Path (documented b) 0 (w ++ p :: ps)

/-- The place that the iterator takes for the one after the skipped instructions is in the block or just behind
it, and both are path ends. -/
def IterFits (b : Block) : Prop :=
  ∀ p i, Reached b p → b[p]? = some i → i.op = .if →
    p + i.jump ≤ b.length ∧ PathEnd b (p + i.jump) ∧ PathEnd b (p + 1 + i.jump)

/-- No instruction comes after a `BRANCH` or a `TRAP`. -/
def BranchFits (b : Block) : Prop :=
  ∀ p i, Reached b p → b[p]? = some i → (i.op = .branch ∨ i.op = .trap) → PathEnd b (p + 1)

variable {b : Block} {p : ℕ} {ps : List ℕ}

theorem documented_forward (b : Block) : Forward (documented b) b.length := by
  constructor
  · intro pc le
    rw [documented, List.getElem?_eq_none le]
  · intro pc eq
    unfold documented at eq
    split at eq
    · cases eq
    · split at eq <;> cases eq
  · intro pc next mem
    unfold documented at mem
    split at mem
    case h_1 => exact absurd mem List.not_mem_nil
    case h_2 i found =>
      obtain ⟨lt, -⟩ := List.getElem?_eq_some_iff.mp found
      split at mem <;> simp only [Control.targets, List.mem_cons, List.not_mem_nil, or_false] at mem <;> omega

/-! ### One step of each traversal -/

theorem documented_of_end (ended : PathEnd b p) : documented b p = .stop := by
  cases found : b[p]? with
  | none => rw [documented, found]
  | some i => rw [documented_of_found found, if_pos (ended i found)]

theorem path_of_end (ended : PathEnd b p) : Path (documented b) p ps ↔ ps = [] := by
  rw [path_iff, documented_of_end ended]

/-- A place that is no end is that of an operation. -/
theorem found_of_running (running : ¬ PathEnd b p) : ∃ i, b[p]? = some i ∧ i.op ≠ .cont := by
  unfold PathEnd at running
  push Not at running
  exact running

/-- A path from a place that is no end begins there. -/
theorem head_of_path (running : ¬ PathEnd b p) (path : Path (documented b) p ps) : ∃ rest, ps = p :: rest := by
  obtain ⟨i, found, op⟩ := found_of_running running
  rw [path_iff, documented_of_found found, if_neg op] at path
  split_ifs at path
  · exact path.imp fun _ h => h.1
  · exact path.imp fun _ h => h.1

theorem documented_ends (b : Block) (p : ℕ) : Ends (documented b) p :=
  (documented_forward b).ends p

/-! ### The stack analysis -/

theorem path_stack_iff : Path (Stack.StackProblem.code b) p ps ↔ Path (documented b) p ps := by
  induction left : b.length - p using Nat.strongRecOn generalizing p ps with
  | ind d ih =>
    rw [path_iff, path_iff]
    cases found : b[p]? with
    | none =>
      rw [Stack.StackProblem.code, documented, found]
    | some i =>
      obtain ⟨lt, -⟩ := List.getElem?_eq_some_iff.mp found
      have later : ∀ q ps, p < q → (Path (Stack.StackProblem.code b) q ps ↔ Path (documented b) q ps) :=
        fun q ps lt' => ih (b.length - q) (by omega) rfl
      have behind : Path (Stack.StackProblem.code b) (b.length + 1) ps ↔ ps = [] := by
        rw [path_iff, (Stack.StackProblem.code_forward b).stop _ (Nat.le_succ _)]
      have go := fun rest => later (p + 1) rest (Nat.lt_succ_self p)
      have skip := fun rest => later (p + 1 + i.jump) rest (by omega)
      rw [Stack.StackProblem.code_of_found found, documented_of_found found, Nat.add_right_comm p i.jump 1]
      split_ifs
      · exact behind
      · simp only [go, skip]
      · simp only [go]

theorem exists_enumerates_stack (b : Block) :
    ∃ paths, Enumerates (Stack.StackProblem.code b) paths ∧ IsDocumented b paths := by
  obtain ⟨paths, enumerates⟩ := exists_enumerates_iff.mpr ((Stack.StackProblem.code_forward b).ends 0)
  exact ⟨paths, enumerates, fun ps => (enumerates.mem_iff ps).trans path_stack_iff⟩

/-! ### Places on described paths -/

/-- The described paths from the start come to the place. -/
def Comes (b : Block) (p : ℕ) : Prop :=
  ∃ w, ∀ ps, Path (documented b) p ps → Path (documented b) 0 (w ++ ps)

theorem comes_zero (b : Block) : Comes b 0 :=
  ⟨[], fun _ path => path⟩

theorem Comes.next {q : ℕ} (comes : Comes b p) (next : (documented b p).Next q) : Comes b q := by
  obtain ⟨w, prefix_of⟩ := comes
  refine ⟨w ++ [p], fun ps path => ?_⟩
  rw [List.append_assoc]
  exact prefix_of _ (.step next path)

theorem code_of_if {i : Inst} (found : b[p]? = some i) (op : i.op = .if) :
    PathIter.code b p = .fork (p + 1) (p + i.jump) ∧ documented b p = .fork (p + 1) (p + 1 + i.jump) := by
  have running : i.op ≠ .cont := by rw [op]; nofun
  rw [PathIter.code_of_found found, documented_of_found found, if_neg running, if_pos op, if_neg running, if_pos op]
  exact ⟨rfl, rfl⟩

theorem next_of_found {i : Inst} (found : b[p]? = some i) (op : i.op ≠ .cont) : (documented b p).Next (p + 1) := by
  rw [documented_of_found found, if_neg op]
  split
  · exact .inl rfl
  · rfl

theorem skip_of_found {i : Inst} (found : b[p]? = some i) (op : i.op = .if) :
    (documented b p).Next (p + 1 + i.jump) := by
  rw [(code_of_if found op).2]
  exact .inr rfl

theorem Comes.reached {i : Inst} (comes : Comes b p) (found : b[p]? = some i) (op : i.op ≠ .cont) : Reached b p := by
  obtain ⟨w, prefix_of⟩ := comes
  obtain ⟨ps, path⟩ := (documented_ends b (p + 1)).path
  exact ⟨w, ps, prefix_of _ (.step (next_of_found found op) path)⟩

/-! ### The CLP analysis -/

theorem path_clp_iff (fits : BranchFits b) (comes : Comes b p) :
    Path (Clp.Problem.code b) p ps ↔ Path (documented b) p ps := by
  induction left : b.length - p using Nat.strongRecOn generalizing p ps with
  | ind d ih =>
    rw [path_iff, path_iff]
    cases found : b[p]? with
    | none =>
      rw [Clp.Problem.code, documented, found]
    | some i =>
      obtain ⟨lt, -⟩ := List.getElem?_eq_some_iff.mp found
      have later : ∀ q ps, (documented b p).Next q → p < q →
          (Path (Clp.Problem.code b) q ps ↔ Path (documented b) q ps) :=
        fun q ps next lt' => ih (b.length - q) (by omega) (comes.next next) rfl
      have behind : ∀ rest, Path (Clp.Problem.code b) (b.length + 1) rest ↔ rest = [] := fun rest => by
        rw [path_iff, (Clp.Problem.code_forward b).stop _ (Nat.le_succ _)]
      rw [Clp.Problem.code_of_found found, documented_of_found found]
      by_cases cont : i.op = .cont
      · rw [if_pos cont, if_pos cont]
        exact behind ps
      rw [if_neg cont, if_neg cont]
      have go := fun rest => later _ rest (next_of_found found cont) (Nat.lt_succ_self p)
      by_cases ends : i.Ends
      · have op : i.op = .branch ∨ i.op = .trap := by
          rcases ends with op | op | op
          · exact .inl op
          · exact .inr op
          · exact absurd op cont
        have other : i.op ≠ .if := by rcases op with op | op <;> simp [op]
        have ended : PathEnd b (p + 1) := fits p i (comes.reached found cont) found op
        rw [if_pos ends, if_neg other]
        simp only [behind, path_of_end ended]
      rw [if_neg ends]
      split_ifs with cond
      · have skip := fun rest => later _ rest (skip_of_found found cond) (by omega)
        simp only [go, Nat.add_right_comm p i.jump 1, skip]
      · simp only [go]

theorem same_clp_iff : (∃ paths, Enumerates (Clp.Problem.code b) paths ∧ IsDocumented b paths) ↔ BranchFits b := by
  constructor
  · rintro ⟨paths, enumerates, documents⟩ p i ⟨w, ps, path⟩ found op
    have same : ∀ ps, Path (Clp.Problem.code b) 0 ps ↔ Path (documented b) 0 ps := fun ps =>
      (enumerates.mem_iff ps).symm.trans (documents ps)
    have next : (Clp.Problem.code b p).Next (b.length + 1) := by
      rw [Clp.Problem.code_of_found found]
      rcases op with op | op <;> simp [Inst.Ends, op, Control.Next]
    have behind : Path (Clp.Problem.code b) (b.length + 1) [] :=
      .stop ((Clp.Problem.code_forward b).stop _ (Nat.le_succ _))
    -- The path that ends at the instruction is described only if nothing comes after it.
    have ends := (same _).mp (((same _).mpr path).split.2 _ [] next behind)
    obtain ⟨q, next', rest⟩ := ends.split.1
    have at_q : q = p + 1 := by
      rw [documented_of_found found] at next'
      rcases op with op | op <;> simpa [op, Control.Next] using next'
    by_contra running
    obtain ⟨_, eq⟩ := head_of_path running (at_q ▸ rest)
    cases eq
  · intro fits
    obtain ⟨paths, enumerates⟩ := exists_enumerates_iff.mpr ((Clp.Problem.code_forward b).ends 0)
    exact ⟨paths, enumerates, fun ps => (enumerates.mem_iff ps).trans (path_clp_iff fits (comes_zero b))⟩

/-! ### The iterator -/

theorem iter_of_end (ended : PathEnd b p) (le : p ≤ b.length) : PathIter.code b p = .stop := by
  rcases le.lt_or_eq with lt | rfl
  · have found := List.getElem?_eq_getElem lt
    rw [PathIter.code_of_found found, if_pos (ended _ found)]
  · exact PathIter.code_length b

theorem iter_path_of_end (ended : PathEnd b p) (path : Path (PathIter.code b) p ps) : ps = [] := by
  by_cases le : p ≤ b.length
  · rwa [path_iff, iter_of_end ended le] at path
  · rw [path_iff, PathIter.code_of_length_lt (not_le.mp le)] at path
    exact path.elim

theorem iter_head_of_path (running : ¬ PathEnd b p) (path : Path (PathIter.code b) p ps) : ∃ rest, ps = p :: rest := by
  obtain ⟨i, found, op⟩ := found_of_running running
  rw [path_iff, PathIter.code_of_found found, if_neg op] at path
  split_ifs at path
  · exact path.imp fun _ h => h.1
  · exact path.imp fun _ h => h.1

/-- A path of either traversal that comes from one of two places, one of which it begins with. -/
theorem begins_at {q₁ q₂ r : ℕ} {rest : List ℕ} {path_from : ℕ → Prop} (heads : ∀ q, path_from q → ps = [] ∨ ∃ l, ps = q :: l)
    (eq : ps = r :: rest) (paths : path_from q₁ ∨ path_from q₂) : r = q₁ ∨ r = q₂ := by
  rcases paths with path | path
  · rcases heads q₁ path with rfl | ⟨l, rfl⟩
    · cases eq
    · exact .inl (List.cons.inj eq).1.symm
  · rcases heads q₂ path with rfl | ⟨l, rfl⟩
    · cases eq
    · exact .inr (List.cons.inj eq).1.symm

theorem heads_documented (q : ℕ) (path : Path (documented b) q ps) : ps = [] ∨ ∃ l, ps = q :: l := by
  by_cases ended : PathEnd b q
  · exact .inl ((path_of_end ended).mp path)
  · exact .inr (head_of_path ended path)

theorem heads_iter (q : ℕ) (path : Path (PathIter.code b) q ps) : ps = [] ∨ ∃ l, ps = q :: l := by
  by_cases ended : PathEnd b q
  · exact .inl (iter_path_of_end ended path)
  · exact .inr (iter_head_of_path ended path)

theorem iterFits_of_same {paths : List (List ℕ)} (enumerates : Enumerates (PathIter.code b) paths)
    (documents : IsDocumented b paths) : IterFits b := by
  rintro p i ⟨w, ps, path⟩ found op
  have same : ∀ ps, Path (PathIter.code b) 0 ps ↔ Path (documented b) 0 ps := fun ps =>
    (enumerates.mem_iff ps).symm.trans (documents ps)
  obtain ⟨iter, doc⟩ := code_of_if found op
  have running : ¬ PathEnd b p := fun ended => by simp [ended i found] at op
  have ends : Ends (PathIter.code b) (p + i.jump) :=
    ((exists_enumerates_iff.mp ⟨paths, enumerates⟩).of_path ((same _).mpr path)).next
      (by rw [iter]; exact .inr rfl)
  have le : p + i.jump ≤ b.length := by
    by_contra lt
    have fault := PathIter.code_of_length_lt (not_le.mp lt)
    cases ends with
    | stop at_pc => simp [fault] at at_pc
    | leave at_pc => simp [fault] at at_pc
    | step next => simp [fault, Control.Next] at next
  -- What the iterator does after the skip is described, and the other way round.
  have from_iter : ∀ r, Path (PathIter.code b) (p + i.jump) r →
      Path (documented b) (p + 1) r ∨ Path (documented b) (p + 1 + i.jump) r := by
    intro r rest
    have all := (same _).mp (((same _).mpr path).split.2 _ r (by rw [iter]; exact .inr rfl) rest)
    obtain ⟨q, next, rest'⟩ := all.split.1
    rw [doc] at next
    rcases next with rfl | rfl
    · exact .inl rest'
    · exact .inr rest'
  have from_doc : ∀ r, Path (documented b) (p + 1 + i.jump) r →
      Path (PathIter.code b) (p + 1) r ∨ Path (PathIter.code b) (p + i.jump) r := by
    intro r rest
    have all := (same _).mpr (path.split.2 _ r (by rw [doc]; exact .inr rfl) rest)
    obtain ⟨q, next, rest'⟩ := all.split.1
    rw [iter] at next
    rcases next with rfl | rfl
    · exact .inl rest'
    · exact .inr rest'
  have one : ¬ PathEnd b (p + i.jump) → i.jump = 1 := by
    intro running'
    obtain ⟨r, rest⟩ := ends.path
    obtain ⟨l, eq⟩ := iter_head_of_path running' rest
    have := begins_at heads_documented eq (from_iter r rest)
    omega
  obtain ⟨r, rest⟩ := (documented_ends b (p + 1 + i.jump)).path
  have ended : PathEnd b (p + 1 + i.jump) := by
    by_contra running'
    obtain ⟨l, eq⟩ := head_of_path running' rest
    have zero := begins_at heads_iter eq (from_doc r rest)
    have none : i.jump = 0 := by omega
    have := one (by rw [none]; exact running)
    omega
  refine ⟨le, ?_, ended⟩
  by_contra running'
  have jump := one running'
  rw [jump] at running' from_doc
  have nothing := (path_of_end ended).mp rest
  subst nothing
  rcases from_doc [] (jump ▸ rest) with rest' | rest'
  · obtain ⟨l, eq⟩ := iter_head_of_path running' rest'
    cases eq
  · obtain ⟨l, eq⟩ := iter_head_of_path running' rest'
    cases eq

/-- Where the places fit, the iterator ends and follows the description. -/
theorem iter_of_fits (fits : IterFits b) (comes : Comes b p) (le : p ≤ b.length) :
    Ends (PathIter.code b) p ∧ ∀ ps, Path (PathIter.code b) p ps ↔ Path (documented b) p ps := by
  induction left : b.length - p using Nat.strongRecOn generalizing p with
  | ind d ih =>
    by_cases ended : PathEnd b p
    · have stops := iter_of_end ended le
      refine ⟨.stop stops, fun ps => ?_⟩
      rw [path_iff, stops, path_of_end ended]
    obtain ⟨i, found, op⟩ := found_of_running ended
    obtain ⟨lt, -⟩ := List.getElem?_eq_some_iff.mp found
    obtain ⟨ends, same⟩ := ih (b.length - (p + 1)) (by omega) (comes.next (next_of_found found op)) lt rfl
    by_cases cond : i.op = .if
    · obtain ⟨iter, doc⟩ := code_of_if found cond
      obtain ⟨le', end₁, end₂⟩ := fits p i (comes.reached found op) found cond
      have stops := iter_of_end end₁ le'
      refine ⟨.step ⟨p + 1, by rw [iter]; exact .inl rfl⟩ fun q next => ?_, fun ps => ?_⟩
      · rw [iter] at next
        rcases next with rfl | rfl
        · exact ends
        · exact .stop stops
      · have skip : ∀ rest, Path (PathIter.code b) (p + i.jump) rest ↔ rest = [] := fun rest => by
          rw [path_iff, stops]
        rw [path_iff, iter, path_iff, doc]
        simp only [same, skip, path_of_end end₂]
    · have iter : PathIter.code b p = .go (p + 1) := by
        rw [PathIter.code_of_found found, if_neg op, if_neg cond]
      have doc : documented b p = .go (p + 1) := by
        rw [documented_of_found found, if_neg op, if_neg cond]
      refine ⟨.step ⟨p + 1, by rw [iter]; rfl⟩ fun q next => ?_, fun ps => ?_⟩
      · rw [iter] at next
        cases next
        exact ends
      · rw [path_iff, iter, path_iff, doc]
        simp only [same]

theorem same_iter_iff : (∃ paths, Enumerates (PathIter.code b) paths ∧ IsDocumented b paths) ↔ IterFits b := by
  constructor
  · rintro ⟨paths, enumerates, documents⟩
    exact iterFits_of_same enumerates documents
  · intro fits
    obtain ⟨ends, same⟩ := iter_of_fits fits (comes_zero b) (Nat.zero_le _)
    obtain ⟨paths, enumerates⟩ := exists_enumerates_iff.mpr ends
    exact ⟨paths, enumerates, fun ps => (enumerates.mem_iff ps).trans (same ps)⟩

/-! ### All three -/

theorem IsDocumented.hasOperations {paths : List (List ℕ)} (documents : IsDocumented b paths) :
    HasOperations b paths := by
  intro is
  rw [List.mem_map]
  exact exists_congr fun ps => and_congr_left fun _ => documents ps

/-- The interpreters go through the described paths if and only if the places fit, and then through the
described operations. -/
theorem same_paths_iff (b : Block) :
    (SamePaths b ↔ IterFits b ∧ BranchFits b) ∧ (IterFits b ∧ BranchFits b → SameOperations b) := by
  have exact_iff : SamePaths b ↔ IterFits b ∧ BranchFits b := by
    unfold SamePaths
    rw [same_iter_iff, same_clp_iff]
    exact and_congr_right fun _ => and_iff_right (exists_enumerates_stack b)
  refine ⟨exact_iff, fun fits => ?_⟩
  obtain ⟨⟨l, enum, doc⟩, ⟨l', enum', doc'⟩, ⟨l'', enum'', doc''⟩⟩ := exact_iff.mpr fits
  exact ⟨⟨l, enum, doc.hasOperations⟩, ⟨l', enum', doc'.hasOperations⟩, l'', enum'', doc''.hasOperations⟩

/-- A branch that is made under a condition. -/
def branchIf : Block :=
  [{ op := .if, b := 1 }, { op := .branch }]

/-- The iterator does not go through the path that skips the branch. -/
theorem branch_not_skipped : ¬ ∀ b, SameOperations b := by
  intro same
  obtain ⟨⟨paths, enumerates, has⟩, -⟩ := same branchIf
  -- The described path that skips the branch has the `IF` only.
  have skipped : Path (documented branchIf) 0 [0] :=
    .step (show (documented branchIf 0).Next 2 from .inr rfl) (.stop rfl)
  have mem := (has _).mpr ⟨[0], skipped, rfl⟩
  obtain ⟨ps, listed, eq⟩ := List.mem_map.mp mem
  -- Both paths of the iterator come to the branch.
  have path := (enumerates.mem_iff ps).mp listed
  rw [path_iff] at path
  obtain ⟨rest, rfl, path⟩ := path
  have after : Path (PathIter.code branchIf) 1 rest := path.elim id id
  rw [path_iff] at after
  obtain ⟨rest, rfl, after⟩ := after
  rw [path_iff] at after
  cases after
  exact absurd eq (by decide)

end Otawa.Sem
