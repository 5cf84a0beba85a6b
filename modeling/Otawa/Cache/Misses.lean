import Otawa.Cache.MissConstraints

/-!
# Executions and their numbers of misses

An execution of a block fetches each of its l-blocks. The categories say which fetches miss; for a FIRST_MISS the
misses are first fetches since an entry into the loop, so there are no more of them than entries
(`misses_le_entries`). `counts_meet_iff` says where the numbers of an execution are what the constraints and the
object function take them for.
-/

namespace Otawa

open Ilp CAT2OnlyConstraintBuilder CAT2ConstraintBuilder

namespace Misses

inductive Event (B E L : Type) where
  | block (b : B)
  | edge (e : E)
  | fetch (lblock : L) (miss : Bool)
  deriving DecidableEq

variable {B E L : Type} [DecidableEq B] [DecidableEq E] [DecidableEq L]

/-- The execution counts of the blocks and edges and the misses of the l-blocks. -/
def counts (run : List (Event B E L)) : Var B E L → ℤ
  | .block b => run.count (.block b)
  | .edge e => run.count (.edge e)
  | .miss lblock => run.count (.fetch lblock true)

omit [DecidableEq B] [DecidableEq E] [DecidableEq L] in
/-- Since the last of some edges the l-block was not fetched. -/
def Fresh (es : List E) (lblock : L) (run : List (Event B E L)) : Prop :=
  ∃ p e q, run = p ++ .edge e :: q ∧ e ∈ es ∧ ∀ miss, .fetch lblock miss ∉ q

/-- The categories are sound for an execution. -/
structure Sound (c : LBlocks B L) (fl : Flow B E) (run : List (Event B E L)) : Prop where
  fetches : ∀ lb ∈ c.lblocks,
    run.count (.fetch lb true) + run.count (.fetch lb false) = run.count (.block (c.bb lb))
  alwaysHit : ∀ lb ∈ c.lblocks, c.category lb = .alwaysHit → .fetch lb true ∉ run
  alwaysMiss : ∀ lb ∈ c.lblocks, c.category lb = .alwaysMiss → .fetch lb false ∉ run
  firstMiss : ∀ lb ∈ c.lblocks, ∀ header, c.category lb = .firstMiss header →
    ∀ pre post, run = pre ++ .fetch lb true :: post → Fresh (entryEdges fl header) lb pre

/-- What is claimed of the numbers of an execution. -/
structure Meets (c : LBlocks B L) (fl : Flow B E) (linked : L → Option (List L)) (penalty : ℤ)
    (run : List (Event B E L)) : Prop where
  holds : ∀ k ∈ (processWorkSpace c fl linked).constraints, k.Holds (counts run)
  missVar : ∀ lb ∈ c.lblocks, ((processWorkSpace c fl linked).missVar lb).isSome
  named : ∀ k ∈ (processWorkSpace c fl linked).constraints, ∀ t ∈ k.terms, t.var.isSome
  objective_named : ∀ t ∈ objectFunction c (processWorkSpace c fl linked).missVar penalty, t.var.isSome
  objective : valueOf (counts run) (objectFunction c (processWorkSpace c fl linked).missVar penalty) =
    penalty * missesOf (counts run) c.lblocks

/-! ### First misses -/

section FirstMiss

variable {es : List E} {lblock : L} {run : List (Event B E L)} {ev : Event B E L}

omit [DecidableEq B] [DecidableEq E] [DecidableEq L] in
theorem fresh_append (h : Fresh es lblock (run ++ [ev])) :
    (∃ e ∈ es, ev = .edge e) ∨ (Fresh es lblock run ∧ ∀ miss, ev ≠ .fetch lblock miss) := by
  obtain ⟨p, e, q, heq, he, hq⟩ := h
  obtain rfl | ⟨q, last, rfl⟩ := List.eq_nil_or_concat' q
  · obtain ⟨-, hlast⟩ := List.append_inj' heq rfl
    exact .inl ⟨e, he, List.singleton_inj.mp hlast⟩
  · rw [← List.cons_append, ← List.append_assoc] at heq
    obtain ⟨rfl, hlast⟩ := List.append_inj' heq rfl
    obtain rfl := List.singleton_inj.mp hlast
    refine .inr ⟨⟨p, e, q, rfl, he, fun miss hmem => hq miss (List.mem_append_left _ hmem)⟩, ?_⟩
    rintro miss rfl
    exact hq miss (List.mem_append_right _ (List.mem_singleton_self _))

/-- How often one of the edges is taken. -/
def entries (es : List E) (run : List (Event B E L)) : ℕ :=
  (es.map fun e => run.count (.edge e)).sum

theorem entries_append (es : List E) (run run' : List (Event B E L)) :
    entries es (run ++ run') = entries es run + entries es run' := by
  rw [entries, entries, entries, ← List.sum_map_add]
  congr 1
  exact List.map_congr_left fun e _ => List.count_append

theorem entries_pos {e : E} (he : e ∈ es) : 1 ≤ entries es ([.edge e] : List (Event B E L)) := by
  have hle := List.le_sum_of_mem (List.mem_map_of_mem (f := fun e' => ([.edge e] : List (Event B E L)).count (.edge e')) he)
  rw [List.count_singleton_self] at hle
  exact hle

/-- The misses of an l-block that are its first fetches since one of the edges. -/
theorem misses_le_entries
    (h : ∀ pre post, run = pre ++ .fetch lblock true :: post → Fresh es lblock pre) :
    run.count (.fetch lblock true) ≤ entries es run ∧
      (Fresh es lblock run → run.count (.fetch lblock true) + 1 ≤ entries es run) := by
  induction run using List.reverseRecOn with
  | nil =>
    refine ⟨Nat.zero_le _, ?_⟩
    rintro ⟨p, e, q, heq, -⟩
    exact absurd heq (by simp)
  | append_singleton run ev ih =>
    obtain ⟨hle, hfresh⟩ := ih fun pre post heq => h pre (post ++ [ev]) (by rw [heq]; simp)
    have hcount : (run ++ [ev]).count (.fetch lblock true) =
        run.count (.fetch lblock true) + if ev = .fetch lblock true then 1 else 0 := by
      rw [List.count_append, List.count_singleton]
      simp
    have hentries := entries_append es run [ev]
    by_cases hedge : ∃ e ∈ es, ev = .edge e
    · -- an entry pays for the next miss
      obtain ⟨e, he, rfl⟩ := hedge
      have hpos : 1 ≤ entries es ([.edge e] : List (Event B E L)) := entries_pos he
      rw [if_neg (by simp)] at hcount
      omega
    · by_cases hmiss : ev = .fetch lblock true
      · have hpaid := hfresh (h run [] (by rw [hmiss]))
        rw [if_pos hmiss] at hcount
        refine ⟨by omega, fun hopen => ?_⟩
        obtain hentry | ⟨-, hother⟩ := fresh_append hopen
        · exact absurd hentry hedge
        · exact absurd hmiss (hother true)
      · rw [if_neg hmiss] at hcount
        refine ⟨by omega, fun hopen => ?_⟩
        obtain hentry | ⟨hopen, -⟩ := fresh_append hopen
        · exact absurd hentry hedge
        · have := hfresh hopen
          omega

end FirstMiss

/-! ### The numbers of an execution -/

variable {c : LBlocks B L} {fl : Flow B E} {run : List (Event B E L)}

/-- `LINKED_BLOCKS`, with or without the detector. -/
def linkedBlocks (c : LBlocks B L) (detector : Bool) : L → Option (List L) :=
  if detector then LinkedBlocksDetector.processWorkSpace c else fun _ => none

omit [DecidableEq E] in
theorem grouped_linkedBlocks (hc : c.WellFormed) (detector : Bool) : Grouped c (linkedBlocks c detector) := by
  cases detector with
  | false => exact grouped_none c
  | true => exact grouped_detector hc

theorem entriesOf_counts (fl : Flow B E) (run : List (Event B E L)) (header : B) :
    entriesOf fl (counts run) header = entries (entryEdges fl header) run := by
  rw [entriesOf, entries]
  generalize entryEdges fl header = es
  induction es with
  | nil => rfl
  | cons e es ih =>
    rw [List.map_cons, List.map_cons, List.sum_cons, List.sum_cons, ih]
    push_cast
    rfl

theorem Sound.counted (h : Sound c fl run) : Counted c fl (counts run) where
  le lb hmem := by
    have hfetches := h.fetches lb hmem
    simp only [counts]
    omega
  alwaysHit lb hmem hcategory := by
    rw [counts, List.count_eq_zero_of_not_mem (h.alwaysHit lb hmem hcategory)]
    rfl
  alwaysMiss lb hmem hcategory := by
    have hfetches := h.fetches lb hmem
    rw [List.count_eq_zero_of_not_mem (h.alwaysMiss lb hmem hcategory)] at hfetches
    simp only [counts]
    omega
  firstMiss lb hmem header hcategory := by
    obtain ⟨hle, -⟩ := misses_le_entries (h.firstMiss lb hmem header hcategory)
    rw [entriesOf_counts, counts]
    exact Int.ofNat_le.mpr hle

/-- The object function counts a miss for each l-block that is not of the program. -/
theorem objective_iff (hc : c.WellFormed) (linked : L → Option (List L)) (penalty : ℤ) :
    valueOf (counts run) (objectFunction c (processWorkSpace c fl linked).missVar penalty) =
      penalty * missesOf (counts run) c.lblocks ↔ penalty = 0 ∨ c.sets = [] := by
  rw [valueOf_objectFunction hc, mul_add, add_eq_left, mul_eq_zero, Int.natCast_eq_zero, ends_eq_zero_iff hc]

/-- The object function has terms without a variable for each row of the cache. The constraints are right where no
l-blocks are linked, and else where the l-blocks of a group but the last one miss less often than their loop is
entered. -/
theorem counts_meet_iff (hc : c.WellFormed) (h : Sound c fl run) (detector : Bool) (penalty : ℤ) :
    (Meets c fl (linkedBlocks c detector) penalty run ↔ c.sets = []) ∧
    (∀ lb ∈ c.lblocks, ((processWorkSpace c fl (linkedBlocks c detector)).missVar lb).isSome) ∧
    ((∀ k ∈ (processWorkSpace c fl (linkedBlocks c detector)).constraints, k.Holds (counts run)) ↔
      ∀ lb ∈ c.lblocks, ∀ header group, c.category lb = .firstMiss header →
        linkedBlocks c detector lb = some group →
        missesOf (counts run) group.dropLast < entriesOf fl (counts run) header) ∧
    ((∀ k ∈ (processWorkSpace c fl (linkedBlocks c detector)).constraints, ∀ t ∈ k.terms, t.var.isSome) ↔
      ∀ lb ∈ c.lblocks, linkedBlocks c detector lb = none) ∧
    ((∀ t ∈ objectFunction c (processWorkSpace c fl (linkedBlocks c detector)).missVar penalty, t.var.isSome) ↔
      c.sets = []) ∧
    (valueOf (counts run) (objectFunction c (processWorkSpace c fl (linkedBlocks c detector)).missVar penalty) =
      penalty * missesOf (counts run) c.lblocks ↔ penalty = 0 ∨ c.sets = []) := by
  have hgrouped := grouped_linkedBlocks hc detector
  have hholds := constraints_hold_iff hc hgrouped h.counted
  have hnamed := constraints_named_iff hc hgrouped h.counted
  have hobjective := @objectFunction_named_iff B E L _ c fl (linkedBlocks c detector) penalty hc
  have hvalue := @objective_iff B E L _ _ _ c fl run hc (linkedBlocks c detector) penalty
  have hmissVar : ∀ lb ∈ c.lblocks, ((processWorkSpace c fl (linkedBlocks c detector)).missVar lb).isSome := by
    intro lb hlb
    rw [missVar_eq, if_pos hlb]
    rfl
  refine ⟨⟨fun hmeets => hobjective.mp hmeets.objective_named, fun hnil => ?_⟩, hmissVar, hholds, hnamed, hobjective,
    hvalue⟩
  have hnone : c.lblocks = [] := by
    rw [LBlocks.lblocks, hnil]
    rfl
  constructor
  · rw [hholds, hnone]
    exact fun lb hlb => absurd hlb List.not_mem_nil
  · exact hmissVar
  · rw [hnamed, hnone]
    exact fun lb hlb => absurd hlb List.not_mem_nil
  · exact hobjective.mpr hnil
  · exact hvalue.mpr (.inr hnil)

/-! ### Two linked l-blocks -/

theorem neZero_three : NeZero 3 := ⟨by decide⟩

theorem neZero_four : NeZero 4 := ⟨by decide⟩

attribute [local instance] neZero_three neZero_four in
/-- A row with two l-blocks of one cache block in the blocks 0 and 1 of a loop. -/
def pair : LBlocks (Fin 3) (Fin 4) where
  sets := [[0, 1, 2, 3]]
  id := Fin.val
  cacheblock lblock := if lblock = 1 ∨ lblock = 2 then 1 else lblock.val
  bb lblock := if lblock = 1 then 0 else 1
  category lblock := if lblock = 1 ∨ lblock = 2 then .firstMiss 0 else .notClassified
  number b := b.val

attribute [local instance] neZero_three in
/-- Edge 0 enters the loop, edge 1 goes from its header to block 1 and edge 2 back. -/
def pairFlow : CAT2OnlyConstraintBuilder.Flow (Fin 3) (Fin 3) where
  ins b := if b = 0 then [0, 2] else if b = 1 then [1] else []
  source e := if e = 0 then 2 else if e = 1 then 0 else 1
  dominates b b' := b = b' ∨ (b = 0 ∧ b' = 1)

attribute [local instance] neZero_three neZero_four in
/-- The loop is entered once: the first l-block misses and the other one hits. -/
def pairRun : List (Event (Fin 3) (Fin 3) (Fin 4)) :=
  [.edge 0, .block 0, .fetch 1 true, .edge 1, .block 1, .fetch 2 false]

theorem pair_wellFormed : pair.WellFormed where
  nodup := by decide
  id_eq := by decide
  cacheblock_lt := by decide
  ends := by decide

theorem pair_sound : Sound pair pairFlow pairRun where
  fetches := by decide
  alwaysHit := by decide
  alwaysMiss := by decide
  firstMiss lb hmem header hcategory pre post heq := by
    have hrest : ∀ pre' : List (Event (Fin 3) (Fin 3) (Fin 4)),
        [.edge 1, .block 1, .fetch 2 false] ≠ pre' ++ .fetch lb true :: post := by
      intro pre' heq'
      have hin : .fetch lb true ∈ ([.edge 1, .block 1, .fetch 2 false] : List (Event (Fin 3) (Fin 3) (Fin 4))) := by
        rw [heq']
        exact List.mem_append_right _ List.mem_cons_self
      simp at hin
    obtain _ | ⟨first, _ | ⟨second, _ | ⟨third, pre⟩⟩⟩ := pre
    · exact absurd (List.cons.inj heq).1 (by simp)
    · exact absurd (List.cons.inj (List.cons.inj heq).2).1 (by simp)
    · simp only [pairRun, List.cons_append, List.nil_append, List.cons.injEq] at heq
      obtain ⟨rfl, rfl, hfetch, -⟩ := heq
      obtain ⟨rfl, -⟩ : 1 = lb ∧ true = true := by simpa using hfetch
      obtain rfl : header = 0 := by
        revert header
        decide
      exact ⟨[], 0, [.block 0], rfl, by decide, by decide⟩
    · simp only [pairRun, List.cons_append, List.cons.injEq] at heq
      exact absurd heq.2.2.2 (hrest pre)

/-- Without the detector each l-block has its own constraint, and the objective function is still short. -/
theorem counts_meet_iff_pair : ¬ Meets pair pairFlow (linkedBlocks pair false) 10 pairRun ∧
    ∀ k ∈ (processWorkSpace pair pairFlow (linkedBlocks pair false)).constraints, k.Holds (counts pairRun) := by
  obtain ⟨hmeets, -, hhold, -⟩ := counts_meet_iff pair_wellFormed pair_sound false 10
  constructor
  · exact mt hmeets.mp (List.cons_ne_nil _ _)
  · exact hhold.mpr fun _ _ _ _ _ hlinked => absurd hlinked (by simp [linkedBlocks])

/-- The group allows no miss of its first l-block: the second one counts as a constant. -/
theorem pair_cut_off : pair.WellFormed ∧ Sound pair pairFlow pairRun ∧
    ¬ Meets pair pairFlow (linkedBlocks pair true) 10 pairRun ∧
    ¬ ∀ k ∈ (processWorkSpace pair pairFlow (linkedBlocks pair true)).constraints, k.Holds (counts pairRun) := by
  have hcut : ¬ ∀ k ∈ (processWorkSpace pair pairFlow (linkedBlocks pair true)).constraints,
      k.Holds (counts pairRun) := by
    intro hall
    have hgroup := (constraints_hold_iff pair_wellFormed (grouped_linkedBlocks pair_wellFormed true)
      pair_sound.counted).mp hall 1 (by decide) 0 [1, 2] (by decide) (by decide)
    revert hgroup
    decide
  exact ⟨pair_wellFormed, pair_sound, fun hmeets => hcut hmeets.holds, hcut⟩

end Misses

end Otawa
