import Otawa.Cfg.LoopInfo

/-!
# Gen/kill problems

The problems whose sets are bit sets that are merged by union or by intersection, forward or backward. The engine leaves
the least solution of the equations for a union and the greatest one for an intersection, whichever blocks it takes from
its queue.
-/

namespace Otawa.IterativeDFA

/-- The merge of a problem. -/
inductive Merge where
  | union
  | inter

variable {B E : Type} {n : ℕ}

/-- A problem with the sets of `gen` and `kill`; the set that is reset is neutral for the merge. -/
def genKill (merge : Merge) (gen kill : B → Finset (Fin n)) : Problem B (Finset (Fin n)) where
  empty := match merge with | .union => ∅ | .inter => Finset.univ
  gen := gen
  kill := kill
  equals := fun set1 set2 => set1 = set2
  reset := fun _ => match merge with | .union => ∅ | .inter => Finset.univ
  merge := fun dset tset => match merge with | .union => dset ∪ tset | .inter => dset ∩ tset
  diff := fun dset tset => dset \ tset
  add := fun dset tset => dset ∪ tset

/-- The iterators `Predecessor` and `Successor`. -/
inductive Direction where
  | predecessor
  | successor

def Direction.walk (dir : Direction) (c : CFG B E) : Walk B :=
  match dir with
  | .predecessor => forwardWalk c
  | .successor => LoopInfo.backwardWalk c

/-- The input sets are the unions, or the intersections, of the output sets of the blocks before, and the output sets
are those without the killed bits and with the generated ones. -/
structure Solves (w : Walk B) (merge : Merge) (gen kill ins outs : B → Finset (Fin n)) : Prop where
  input : ∀ b ∈ w.bbs, ∀ i, i ∈ ins b ↔ match merge with
    | .union => ∃ a ∈ w.iter b, i ∈ outs a
    | .inter => ∀ a ∈ w.iter b, i ∈ outs a
  output : ∀ b ∈ w.bbs, outs b = ins b \ kill b ∪ gen b

/-- The solution is the least one for a union, and the greatest one for an intersection. -/
def Extremal (w : Walk B) (merge : Merge) (gen kill ins outs : B → Finset (Fin n)) : Prop :=
  ∀ ins' outs', Solves w merge gen kill ins' outs' → ∀ b ∈ w.bbs, match merge with
    | .union => ins b ⊆ ins' b ∧ outs b ⊆ outs' b
    | .inter => ins' b ⊆ ins b ∧ outs' b ⊆ outs b

/-! ### The problem and its equations -/

variable {c : CFG B E} {w : Walk B} {merge : Merge} {gen kill ins outs : B → Finset (Fin n)}

theorem Direction.walk_lawful (hc : c.WellFormed) : ∀ dir : Direction, (dir.walk c).Lawful
  | .predecessor => hc.forwardWalk
  | .successor => LoopInfo.backwardWalk_lawful hc

theorem lawful_genKill (merge : Merge) (gen kill : B → Finset (Fin n)) : (genKill merge gen kill).Lawful where
  equals_iff := fun _ _ => decide_eq_true_iff
  reset_eq := fun _ => rfl
  merge_le := match merge with
    | .union => Finset.union_subset_union
    | .inter => Finset.inter_subset_inter
  diff_le := fun hle => Finset.sdiff_subset_sdiff hle (Finset.Subset.refl _)
  add_le := Finset.union_subset_union_left

theorem mem_merged {x : B → Finset (Fin n)} {b : B} {i : Fin n} :
    i ∈ merged (genKill merge gen kill) w x b ↔ match merge with
      | .union => ∃ a ∈ w.iter b, i ∈ x a
      | .inter => ∀ a ∈ w.iter b, i ∈ x a := by
  cases merge with
  | union => exact (LoopInfo.mem_foldl_union _ _).trans (or_iff_right (Finset.notMem_empty i))
  | inter => exact Dominance.mem_foldl_inter.trans (and_iff_right (Finset.mem_univ i))

/-- The solutions are the output sets that the transfer keeps, with their merged sets. -/
theorem solves_iff : Solves w merge gen kill ins outs ↔ ∀ b ∈ w.bbs,
    ins b = merged (genKill merge gen kill) w outs b ∧ transfer (genKill merge gen kill) w b outs = outs b := by
  constructor
  · intro h b hb
    have hins : ins b = merged (genKill merge gen kill) w outs b :=
      Finset.ext fun i => (h.input b hb i).trans mem_merged.symm
    refine ⟨hins, ?_⟩
    rw [h.output b hb, hins]
    rfl
  · intro h
    refine ⟨fun b hb i => ?_, fun b hb => ?_⟩
    · rw [(h b hb).1]
      exact mem_merged
    · rw [← (h b hb).2, (h b hb).1]
      rfl

theorem card_strictMono : StrictMono (Finset.card : Finset (Fin n) → ℕ) :=
  fun _ _ hlt => Finset.card_lt_card hlt

theorem card_compl_strictAnti : StrictAnti (fun set : Finset (Fin n) => setᶜ.card) :=
  fun _ _ hlt => Finset.card_lt_card (Finset.compl_ssubset_compl.mpr hlt)

/-! ### The engine -/

variable [DecidableEq B]

/-- Whichever blocks are taken from the queue, the engine ends with the extremal solution. -/
theorem compute_extremal (hc : c.WellFormed) (dir : Direction) (merge : Merge) (gen kill : B → Finset (Fin n)) :
    Inevitable (turn (genKill merge gen kill) (dir.walk c)) (fun s b => b ∈ s.todo) (fun s => s.todo ≠ [])
      (fun s => s.todo = [] ∧
        Solves (dir.walk c) merge gen kill (s.inSet (dir.walk c)) (s.out (dir.walk c)) ∧
        Extremal (dir.walk c) merge gen kill (s.inSet (dir.walk c)) (s.out (dir.walk c)))
      (init (genKill merge gen kill) (dir.walk c)) := by
  have hw := dir.walk_lawful hc
  have hp := lawful_genKill merge gen kill
  have hmono : ∀ {x y : B → Finset (Fin n)} {b : B}, b ∈ (dir.walk c).bbs → (∀ a ∈ (dir.walk c).bbs, x a ≤ y a) →
      merged (genKill merge gen kill) (dir.walk c) x b ≤ merged (genKill merge gen kill) (dir.walk c) y b :=
    fun hb hle => foldl_merge_le hp _ le_rfl fun a ha => hle a (hw.iter_mem a _ hb ha)
  cases merge with
  | union =>
    refine (compute_ins hp hw card_strictMono (compute_least hp hw card_compl_strictAnti
      fun s => Finset.empty_subset s)).mono ?_
    rintro s ⟨htodo, hleast, hins⟩
    refine ⟨htodo, solves_iff.mpr fun b hb => ⟨hins b hb, hleast.fixed b hb⟩, fun ins' outs' h b hb => ?_⟩
    have hbelow := hleast.below outs' fun b hb => (solves_iff.mp h b hb).2.le
    refine ⟨?_, hbelow b hb⟩
    rw [hins b hb, (solves_iff.mp h b hb).1]
    exact hmono hb hbelow
  | inter =>
    refine (compute_ins hp hw card_strictMono (compute_inevitable hp hw card_strictMono
      fun b _ => Finset.subset_univ _)).mono ?_
    rintro s ⟨htodo, hgreatest, hins⟩
    refine ⟨htodo, solves_iff.mpr fun b hb => ⟨hins b hb, hgreatest.fixed b hb⟩, fun ins' outs' h b hb => ?_⟩
    have habove := hgreatest.above outs' (fun b _ => Finset.subset_univ _) fun b hb => (solves_iff.mp h b hb).2.ge
    refine ⟨?_, habove b hb⟩
    rw [hins b hb, (solves_iff.mp h b hb).1]
    exact hmono hb habove

/-- Bits generated by the entry of a graph with a block that follows itself, for both merges. -/
theorem compute_extremal_spin : ∃ w : Walk ℕ, w = Direction.walk .predecessor Dominance.spin ∧ ∀ merge,
    Inevitable (turn (genKill merge (fun b => if b = 0 then {0} else ∅) fun _ => (∅ : Finset (Fin 2))) w)
      (fun s b => b ∈ s.todo) (fun s => s.todo ≠ [])
      (fun s => s.todo = [] ∧
        Solves w merge (fun b => if b = 0 then {0} else ∅) (fun _ => ∅) (s.inSet w) (s.out w) ∧
        Extremal w merge (fun b => if b = 0 then {0} else ∅) (fun _ => ∅) (s.inSet w) (s.out w))
      (init (genKill merge (fun b => if b = 0 then {0} else ∅) fun _ => (∅ : Finset (Fin 2))) w) :=
  ⟨_, rfl, fun merge => compute_extremal Dominance.spin_wellFormed .predecessor merge _ _⟩

end Otawa.IterativeDFA
