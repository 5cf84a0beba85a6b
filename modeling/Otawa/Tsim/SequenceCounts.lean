import Otawa.Cfg.Graph
import Otawa.Ilp.Expr
import Otawa.Lib.Occurrences
import Otawa.Tsim.BBPath
import Mathlib.Algebra.BigOperators.Ring.Finset
import Mathlib.Algebra.Order.BigOperators.Group.Finset

/-!
# The constraints of the delta method

`Delta` bounds the number of occurrences of each sequence by those of its parts. `sequence_counts_iff`: the lower bound
of a sequence forgets the exit of the graph, where an execution ends, so that the bound does not hold of the sequences
that leave the last block of the execution for another block.

There is one path for each sequence, and the variable of a path is given by the sequence. The times and the object
function are not part of the constraints.
-/

namespace Otawa.Tsim

/-- An edge to a block that is not known has no target. -/
structure OutEdge (B : Type) where
  kind : EdgeKind
  target : Option B
  deriving DecidableEq

/-- One graph of the workspace: `isExit`, `outs` and `countInstructions` are for the blocks of all of them. -/
structure BlockGraph (B : Type) where
  bbs : List B
  entry : B
  isEntry : B → Bool
  isExit : B → Bool
  outs : B → List (OutEdge B)
  countInstructions : B → ℕ

/-- The configuration of `Delta`. -/
structure Delta where
  levels : ℤ
  completion : ℤ

section Code

variable {B : Type} [DecidableEq B]

/-- The blocks that a path that ends with the block is made longer with. -/
def BlockGraph.targets (g : BlockGraph B) (bb : B) : List B :=
  ((g.outs bb).filterMap OutEdge.target).filter fun target => !g.isExit target

/-- `BBPath::nexts`. -/
def BlockGraph.nexts (g : BlockGraph B) (path : List B) : List (List B) :=
  match path.getLast? with
  | none => []
  | some bb => (g.targets bb).map fun target => path ++ [target]

/-- `BBPath::countInstructions`. -/
def BlockGraph.countPath (g : BlockGraph B) (path : List B) : ℕ :=
  (path.map g.countInstructions).sum

namespace Delta

/-- `processBBPath`: the constraints that are added. -/
def processBBPath (g : BlockGraph B) (path : List B) : Option (List (Ilp.Constraint (List B))) := do
  let l := path.length
  if l = 1 then return []
  let left ← sub path 1 (l - 1)
  let right ← sub path 2 l
  let bb_B ← (← sub path (l - 1) (l - 1)).head?
  let tail ← path.getLast?
  let upperLeft := ((⟨.le, []⟩ : Ilp.Constraint (List B)).addLeft 1 (some path)).addRight 1 (some left)
  let upperRight := ((⟨.le, []⟩ : Ilp.Constraint (List B)).addLeft 1 (some path)).addRight 1 (some right)
  let lower := ((⟨.ge, []⟩ : Ilp.Constraint (List B)).addLeft 1 (some path)).addRight 1 (some left)
  let others := (g.nexts [bb_B]).filter fun next => next.getLast? ≠ some tail
  return [upperLeft, upperRight, others.foldl (fun cons other => cons.addRight (-1) (some other)) lower]

/-- Whether longer paths are processed. The test for calls stops before it has set its result. -/
def continues (d : Delta) (g : BlockGraph B) (path : List B) : Bool :=
  if d.levels ≠ 0 then path.length < d.levels
  else
    match path.head? with
    | none => false
    | some head =>
      let local_compl := if d.completion = 0 then (g.countInstructions head : ℤ) + 1 else d.completion
      g.countPath path < g.countInstructions head + local_compl

/-- The sequences that `processCFG` processes. -/
inductive Processed (d : Delta) (g : BlockGraph B) : List B → Prop where
  | single {bb : B} : bb ∈ g.bbs → g.isEntry bb = false → g.isExit bb = false → Processed d g [bb]
  | next {path path' : List B} : Processed d g path → d.continues g path = true → path' ∈ g.nexts path →
      Processed d g path'

end Delta

/-- The blocks of an execution of the graph, without its entry and its exit. It may end with a block without edges,
where the program ends. -/
structure BlockGraph.Execution (g : BlockGraph B) (blocks : List B) : Prop where
  flow : (g.entry :: blocks).IsChain fun a b => ∃ e ∈ g.outs a, e.kind ≠ .call ∧ e.target = some b
  inside : ∀ b ∈ blocks, b ∈ g.bbs ∧ g.isEntry b = false ∧ g.isExit b = false
  stops : ∀ b, blocks.getLast? = some b →
    g.outs b = [] ∨ ∃ e ∈ g.outs b, e.kind ≠ .call ∧ ∃ t, e.target = some t ∧ g.isExit t = true

end Code

variable {B : Type} [DecidableEq B] {g : BlockGraph B} {d : Delta} {w path p : List B} {a b c : B}

/-! ### The blocks after a block -/

section

omit [DecidableEq B]

theorem mem_targets : c ∈ g.targets b ↔ (∃ e ∈ g.outs b, e.target = some c) ∧ g.isExit c = false := by
  rw [BlockGraph.targets, List.mem_filter, List.mem_filterMap, Bool.not_eq_true']

theorem nexts_concat (p : List B) (b : B) : g.nexts (p ++ [b]) = (g.targets b).map fun c => p ++ [b] ++ [c] := by
  rw [BlockGraph.nexts, List.getLast?_concat]

/-- An execution goes on with the blocks that the paths are made longer with. -/
theorem BlockGraph.Execution.mem_targets (h : g.Execution w) (hin : [b, c] <:+: w) : c ∈ g.targets b := by
  have hchain := h.flow.infix (hin.trans (List.infix_cons_iff.mpr (.inr (List.infix_refl w))))
  obtain ⟨e, he, -, htarget⟩ := List.isChain_pair.mp hchain
  have hc : c ∈ w := hin.subset (List.mem_cons_of_mem b List.mem_cons_self)
  exact Tsim.mem_targets.mpr ⟨⟨e, he, htarget⟩, (h.inside c hc).2.2⟩

end

/-! ### The constraints -/

/-- The lower bound that is added for the last block of a path. -/
def lowerBound (g : BlockGraph B) (p : List B) (b c : B) : Ilp.Constraint (List B) :=
  ((g.nexts [b]).filter fun next => next.getLast? ≠ some c).foldl (fun cons other => cons.addRight (-1) (some other))
    (((⟨.ge, []⟩ : Ilp.Constraint (List B)).addLeft 1 (some (p ++ [b, c]))).addRight 1 (some (p ++ [b])))

theorem processBBPath_eq (g : BlockGraph B) (p : List B) (b c : B) :
    Delta.processBBPath g (p ++ [b, c]) =
      some [((⟨.le, []⟩ : Ilp.Constraint (List B)).addLeft 1 (some (p ++ [b, c]))).addRight 1 (some (p ++ [b])),
        ((⟨.le, []⟩ : Ilp.Constraint (List B)).addLeft 1 (some (p ++ [b, c]))).addRight 1 (some (p ++ [b, c]).tail),
        lowerBound g p b c] := by
  have hlength : (p ++ [b, c]).length = p.length + 2 := List.length_append
  have hleft : sub (p ++ [b, c]) 1 (p.length + 2 - 1) = some (p ++ [b]) := by
    rw [sub, hlength, if_pos (by omega)]
    simp [List.take_append]
  have hright : sub (p ++ [b, c]) 2 (p.length + 2) = some (p ++ [b, c]).tail := by
    rw [sub, hlength, if_pos (by omega), List.take_of_length_le (by rw [List.length_drop, hlength]; omega), List.drop_one]
  have hlast : sub (p ++ [b, c]) (p.length + 2 - 1) (p.length + 2 - 1) = some [b] := by
    rw [sub, hlength, if_pos (by omega)]
    simp
  have htail : (p ++ [b, c]).getLast? = some c := by rw [List.append_cons, List.getLast?_concat]
  rw [Delta.processBBPath]
  simp only [hlength, hleft, hright, hlast, htail, Option.bind_eq_bind, Option.bind_some]
  rw [if_neg (by omega)]
  rfl

omit [DecidableEq B] in
theorem processed_cases (h : d.Processed g path) :
    (∃ b, path = [b]) ∨ ∃ p b c, path = p ++ [b, c] ∧ c ∈ g.targets b ∧ d.continues g (p ++ [b]) = true := by
  induction h with
  | single => exact .inl ⟨_, rfl⟩
  | @next path path' _ hcont hnext ih =>
    have hform : ∃ p b, path = p ++ [b] := by
      rcases ih with ⟨b, rfl⟩ | ⟨p, b, c, rfl, -⟩
      · exact ⟨[], b, rfl⟩
      · exact ⟨p ++ [b], c, List.append_cons p b [c]⟩
    obtain ⟨p, b, rfl⟩ := hform
    rw [nexts_concat] at hnext
    obtain ⟨c, hc, rfl⟩ := List.mem_map.mp hnext
    exact .inr ⟨p, b, c, List.append_assoc p [b] [c], hc, hcont⟩

omit [DecidableEq B] in
/-- Longer paths are only processed where the paths of two blocks are. -/
theorem continues_single (hpath : path ≠ []) (h : d.continues g path = true) (b : B) : d.continues g [b] = true := by
  obtain ⟨head, rest, rfl⟩ := List.exists_cons_of_ne_nil hpath
  rw [Delta.continues] at h ⊢
  split at h
  case isTrue hlevels =>
    rw [decide_eq_true_eq, List.length_cons] at h
    rw [if_pos hlevels, decide_eq_true_eq, List.length_singleton]
    omega
  case isFalse hlevels =>
    rw [if_neg hlevels]
    simp only [List.head?_cons, decide_eq_true_eq, BlockGraph.countPath, List.map_cons, List.sum_cons, List.map_nil,
      List.sum_nil] at h ⊢
    split at h
    case isTrue hcompletion =>
      rw [if_pos hcompletion]
      omega
    case isFalse hcompletion =>
      rw [if_neg hcompletion]
      omega

theorem lowerBound_holds_iff (val : List B → ℤ) (p : List B) (b c : B) :
    (lowerBound g p b c).Holds val ↔
      val (p ++ [b]) ≤ val (p ++ [b, c]) + (((g.targets b).filter (· ≠ c)).map fun x => val [b, x]).sum := by
  have hothers : (g.nexts [b]).filter (fun next => next.getLast? ≠ some c) =
      ((g.targets b).filter (· ≠ c)).map fun x => [b, x] := by
    have hnexts : g.nexts [b] = (g.targets b).map fun x => [b, x] := nexts_concat [] b
    rw [hnexts, List.filter_map]
    refine congrArg _ (List.filter_congr fun x _ => ?_)
    simp
  have hstep : ∀ (cons : Ilp.Constraint (List B)) (other : List B),
      (cons.addRight (-1) (some other)).lhs val = cons.lhs val + val other := by
    intro cons other
    rw [Ilp.Constraint.lhs_addRight, Option.elim_some]
    ring
  have hcomp : ∀ (cons : Ilp.Constraint (List B)) (other : List B),
      (cons.addRight (-1) (some other)).comparator = cons.comparator := fun _ _ => rfl
  obtain ⟨hcomparator, hlhs⟩ := Ilp.Constraint.foldl_lhs hcomp hstep
    (((g.targets b).filter (· ≠ c)).map fun x => [b, x])
    (((⟨.ge, []⟩ : Ilp.Constraint (List B)).addLeft 1 (some (p ++ [b, c]))).addRight 1 (some (p ++ [b])))
  rw [lowerBound, hothers, Ilp.Constraint.Holds, hcomparator, hlhs]
  simp only [Ilp.Constraint.lhs_addRight, Ilp.Constraint.lhs_addLeft, Ilp.Constraint.lhs_nil, Option.elim_some,
    List.map_map]
  change 0 ≤ _ ↔ _
  rw [Function.comp_def]
  constructor <;> intro h <;> omega

theorem occurrences_split (h : g.Execution w) (p : List B) (b : B) :
    occurrences w (p ++ [b]) =
      (∑ x ∈ (g.targets b).toFinset, occurrences w (p ++ [b, x])) + if p ++ [b] <:+ w then 1 else 0 := by
  have hnext : ∀ x, p ++ [b] ++ [x] <:+: w → x ∈ (g.targets b).toFinset := by
    intro x hx
    rw [List.append_assoc] at hx
    exact List.mem_toFinset.mpr (h.mem_targets ((List.suffix_append p [b, x]).isInfix.trans hx))
  rw [occurrences_eq_sum (List.concat_ne_nil b p) hnext]
  simp only [List.append_assoc, List.singleton_append]

section

variable (h : g.Execution w) (hc : c ∈ g.targets b)
include h hc

/-- The lower bound holds when the sequences of the last two blocks that are counted are enough for the ones that go on
with another block, and for the one at the end. -/
theorem lowerBound_occurrences_iff :
    (lowerBound g p b c).Holds (fun path => (occurrences w path : ℤ)) ↔
      (∑ x ∈ (g.targets b).toFinset.erase c, occurrences w (p ++ [b, x])) + (if p ++ [b] <:+ w then 1 else 0) ≤
        ∑ x ∈ (g.targets b).toFinset.erase c, (g.targets b).count x * occurrences w [b, x] := by
  have hsplit := occurrences_split h p b
  rw [← Finset.add_sum_erase _ _ (List.mem_toFinset.mpr hc)] at hsplit
  have hcounts : (((g.targets b).filter (· ≠ c)).map fun x => occurrences w [b, x]).sum =
      ∑ x ∈ (g.targets b).toFinset.erase c, (g.targets b).count x * occurrences w [b, x] := by
    have hset : ((g.targets b).filter (· ≠ c)).toFinset = (g.targets b).toFinset.erase c := by
      ext x
      simp [and_comm]
    rw [Finset.sum_list_map_count, hset]
    refine Finset.sum_congr rfl fun x hx => ?_
    rw [List.count_filter (by simpa using Finset.ne_of_mem_erase hx), Nat.nsmul_eq_mul]
  have hcast : (((g.targets b).filter (· ≠ c)).map fun x => (occurrences w [b, x] : ℤ)).sum =
      ((((g.targets b).filter (· ≠ c)).map fun x => occurrences w [b, x]).sum : ℕ) := by
    rw [Nat.cast_list_sum, List.map_map]
    rfl
  rw [lowerBound_holds_iff, hcast, hcounts, hsplit]
  omega

/-- Another block after `b` makes up for `c`: there are two edges to it, and it follows `b` in the execution. -/
def MadeUp (g : BlockGraph B) (w : List B) (b c : B) : Prop :=
  ∃ x ∈ g.targets b, x ≠ c ∧ 2 ≤ (g.targets b).count x ∧ 0 < occurrences w [b, x]

theorem lowerBound_of_madeUp (hend : p ++ [b] <:+ w → MadeUp g w b c) :
    (lowerBound g p b c).Holds fun path => (occurrences w path : ℤ) := by
  have hle : ∀ x ∈ (g.targets b).toFinset.erase c,
      occurrences w (p ++ [b, x]) ≤ (g.targets b).count x * occurrences w [b, x] := by
    intro x hx
    have hcount := List.count_pos_iff.mpr (List.mem_toFinset.mp (Finset.mem_of_mem_erase hx))
    exact (occurrences_prepend_le w p (List.cons_ne_nil b [x])).trans (Nat.le_mul_of_pos_left _ hcount)
  rw [lowerBound_occurrences_iff h hc]
  split
  case isFalse => exact Finset.sum_le_sum hle
  case isTrue hsuffix =>
    obtain ⟨x, hx, hne, hcount, hpos⟩ := hend hsuffix
    refine Finset.sum_lt_sum hle ⟨x, Finset.mem_erase.mpr ⟨hne, List.mem_toFinset.mpr hx⟩, ?_⟩
    calc occurrences w (p ++ [b, x])
        ≤ occurrences w [b, x] := occurrences_prepend_le w p (List.cons_ne_nil b [x])
      _ < 2 * occurrences w [b, x] := by omega
      _ ≤ (g.targets b).count x * occurrences w [b, x] := Nat.mul_le_mul_right _ hcount

theorem madeUp_of_lowerBound (hend : [b] <:+ w)
    (hlower : (lowerBound g [] b c).Holds fun path => (occurrences w path : ℤ)) : MadeUp g w b c := by
  rw [lowerBound_occurrences_iff h hc, List.nil_append, if_pos hend] at hlower
  obtain ⟨x, hx, hlt⟩ := Finset.exists_lt_of_sum_lt (Nat.lt_of_succ_le hlower)
  obtain ⟨hne, hmem⟩ := Finset.mem_erase.mp hx
  rw [List.nil_append] at hlt
  refine ⟨x, List.mem_toFinset.mp hmem, hne, ?_, Nat.pos_of_ne_zero fun hzero => ?_⟩
  · by_contra hcount
    have hle := Nat.mul_le_mul_right (occurrences w [b, x]) (show (g.targets b).count x ≤ 1 by omega)
    omega
  · rw [hzero, Nat.mul_zero] at hlt
    exact absurd hlt (Nat.not_lt_zero _)

end

theorem upper_holds {left right : List B} (h : occurrences w left ≤ occurrences w right) :
    (((⟨.le, []⟩ : Ilp.Constraint (List B)).addLeft 1 (some left)).addRight 1 (some right)).Holds
      fun path => (occurrences w path : ℤ) := by
  change Ilp.Constraint.lhs _ _ ≤ 0
  simp only [Ilp.Constraint.lhs_addRight, Ilp.Constraint.lhs_addLeft, Ilp.Constraint.lhs_nil, Option.elim_some]
  omega

/-- The constraints hold of the execution when no longer path is processed, and when what follows its last block, but
for the exit, is made up for. -/
theorem sequence_counts_iff (d : Delta) (g : BlockGraph B) {w : List B} (h : g.Execution w) :
    (∀ path, d.Processed g path → ∃ cs, Delta.processBBPath g path = some cs ∧
      ∀ c ∈ cs, c.Holds fun path => (occurrences w path : ℤ)) ↔
      ∀ b, w.getLast? = some b → d.continues g [b] = true → ∀ c ∈ g.targets b,
        ∃ x ∈ g.targets b, x ≠ c ∧ 2 ≤ (g.targets b).count x ∧ 0 < occurrences w [b, x] := by
  constructor
  · intro hall b hlast hcont c hc
    obtain ⟨hmem, hentry, hexit⟩ := h.inside b (List.mem_of_getLast? hlast)
    have hnext : [b, c] ∈ g.nexts [b] := (nexts_concat [] b).symm ▸ List.mem_map_of_mem hc
    obtain ⟨cs, hcs, hholds⟩ := hall [b, c] (.next (.single hmem hentry hexit) hcont hnext)
    rw [← List.nil_append [b, c], processBBPath_eq] at hcs
    obtain ⟨init, rfl⟩ := List.getLast?_eq_some_iff.mp hlast
    refine madeUp_of_lowerBound h hc (List.suffix_append init [b]) (hholds _ ?_)
    rw [← Option.some.inj hcs]
    simp
  · intro hend path hpath
    rcases processed_cases hpath with ⟨b, rfl⟩ | ⟨p, b, c, rfl, hc, hcont⟩
    · exact ⟨[], rfl, fun c hc => absurd hc List.not_mem_nil⟩
    · refine ⟨_, processBBPath_eq g p b c, ?_⟩
      have hleft : occurrences w (p ++ [b, c]) ≤ occurrences w (p ++ [b]) := by
        rw [List.append_cons]
        exact occurrences_append_le w (p ++ [b]) [c]
      have hright : occurrences w (p ++ [b, c]) ≤ occurrences w (p ++ [b, c]).tail := by
        cases p with
        | nil => exact occurrences_cons_le w b (List.cons_ne_nil c [])
        | cons a p => exact occurrences_cons_le w a (List.append_ne_nil_of_right_ne_nil p (List.cons_ne_nil b [c]))
      have hlower : (lowerBound g p b c).Holds fun path => (occurrences w path : ℤ) := by
        refine lowerBound_of_madeUp h hc fun ⟨init, hsuffix⟩ => ?_
        refine hend b ?_ (continues_single (List.concat_ne_nil b p) hcont b) c hc
        rw [← hsuffix, ← List.append_assoc, List.getLast?_concat]
      simp only [List.forall_mem_cons]
      exact ⟨upper_holds hleft, upper_holds hright, hlower, fun c hc => absurd hc List.not_mem_nil⟩

/-- The block 0, the entry, leads to the block 1, which goes on with the block 2 or with the exit, the block 3. -/
def returning : BlockGraph ℕ where
  bbs := [0, 1, 2, 3]
  entry := 0
  isEntry bb := bb = 0
  isExit bb := bb = 3
  outs bb :=
    match bb with
    | 0 => [⟨.virtual, some 1⟩]
    | 1 => [⟨.taken, some 2⟩, ⟨.virtual, some 3⟩]
    | 2 => [⟨.virtual, some 3⟩]
    | _ => []
  countInstructions _ := 1

theorem sequence_counts_through : returning.Execution [1, 2] ∧ ∀ path, (⟨2, 0⟩ : Delta).Processed returning path →
    ∃ cs, Delta.processBBPath returning path = some cs ∧
      ∀ c ∈ cs, c.Holds fun path => (occurrences [1, 2] path : ℤ) := by
  have hexecution : returning.Execution [1, 2] := by
    refine ⟨?_, by decide, ?_⟩
    · exact .cons_cons ⟨⟨.virtual, some 1⟩, by decide⟩ (.cons_cons ⟨⟨.taken, some 2⟩, by decide⟩ (.singleton 2))
    · intro b hb
      obtain rfl := Option.some.inj hb
      exact .inr ⟨⟨.virtual, some 3⟩, by decide, by decide, 3, rfl, rfl⟩
  refine ⟨hexecution, (sequence_counts_iff ⟨2, 0⟩ returning hexecution).mpr ?_⟩
  intro b hb _ c hc
  obtain rfl := Option.some.inj hb
  exact absurd hc List.not_mem_nil

/-- The execution that returns from the block 1 has the sequence of 1 alone once, and no sequence for what follows. -/
theorem returning_unbounded : returning.Execution [1] ∧ (⟨2, 0⟩ : Delta).Processed returning [1, 2] ∧
    ∃ cs, Delta.processBBPath returning [1, 2] = some cs ∧
      ¬∀ c ∈ cs, c.Holds fun path => (occurrences [1] path : ℤ) := by
  refine ⟨⟨.cons_cons ⟨⟨.virtual, some 1⟩, by decide⟩ (.singleton 1), by decide, fun b hb => ?_⟩, ?_, _, rfl, by decide⟩
  · obtain rfl := Option.some.inj hb
    exact .inr ⟨⟨.virtual, some 3⟩, by decide, by decide, 3, rfl, rfl⟩
  · have hsingle : (⟨2, 0⟩ : Delta).Processed returning [1] := .single (by decide) rfl rfl
    exact .next hsingle rfl (by decide)

end Otawa.Tsim
