import Otawa.Lib.Inevitable
import Otawa.Lib.Worklist
import Mathlib.Data.List.Nodup

/-!
# `IterativeDFA`

The iterative data-flow engine: a problem gives the sets and their operations, `Iter` the blocks whose output
sets make the input set of a block, and `Iter::Forward` the blocks that depend on it. `process` is the body of
the loop of `compute` for the block taken from the queue. `compute` takes the first block of the queue; here
any block of the queue may be taken, so that what is proved holds for every order.
-/

namespace Otawa.IterativeDFA

/-- The `Problem` parameter: `reset`, `merge`, `diff` and `add` give the new value of their first argument. -/
structure Problem (B S : Type) where
  empty : S
  gen : B → S
  kill : B → S
  equals : S → S → Bool
  reset : S → S
  merge : S → S → S
  diff : S → S → S
  add : S → S → S

/-- A graph as the engine walks it: the table of the blocks with their numbers, `Iter` and `Iter::Forward`. -/
structure Walk (B : Type) where
  bbs : List B
  number : B → ℕ
  iter : B → List B
  forward : B → List B

structure State (B S : Type) where
  todo : List B
  present : ℕ → Bool
  ins : ℕ → S
  outs : ℕ → S

variable {B S : Type}

/-- The initialization: all sets are empty and all blocks wait in the queue. -/
def init (p : Problem B S) (w : Walk B) : State B S where
  todo := w.bbs
  present := fun idx => decide (idx ∈ w.bbs.map w.number)
  ins := fun _ => p.empty
  outs := fun _ => p.empty

/-- A block is put in the queue unless it is present. -/
def push (w : Walk B) (s : State B S) (next : B) : State B S :=
  if s.present (w.number next) then s
  else { s with todo := s.todo ++ [next], present := Function.update s.present (w.number next) true }

/-- `IN`, the merge of the output sets of the predecessors. -/
def input (p : Problem B S) (w : Walk B) (s : State B S) (bb : B) : S :=
  (w.iter bb).foldl (fun set pred => p.merge set (s.outs (w.number pred))) (p.reset (s.ins (w.number bb)))

/-- `OUT = IN \ KILL U GEN`. -/
def output (p : Problem B S) (w : Walk B) (s : State B S) (bb : B) : S :=
  p.add (p.diff (input p w s bb) (p.kill bb)) (p.gen bb)

def process [DecidableEq B] (p : Problem B S) (w : Walk B) (s : State B S) (bb : B) : State B S :=
  let idx := w.number bb
  let comp := output p w s bb
  let s' := { s with
    todo := s.todo.erase bb
    present := Function.update s.present idx false
    ins := Function.update s.ins idx (input p w s bb) }
  if p.equals comp (s.outs idx) then s'
  else (w.forward bb).foldl (push w) { s' with outs := Function.update s.outs idx comp }

/-- A turn of the loop of `compute`, for a block of the queue. -/
def turn [DecidableEq B] (p : Problem B S) (w : Walk B) (s : State B S) (bb : B) : Option (State B S) :=
  if bb ∈ s.todo then some (process p w s bb) else none

/-- The operations of a problem are monotone, `equals` is equality and `reset` forgets its argument. -/
structure Problem.Lawful [PartialOrder S] (p : Problem B S) : Prop where
  equals_iff : ∀ s t, p.equals s t = true ↔ s = t
  reset_eq : ∀ s, p.reset s = p.empty
  merge_le : ∀ {s s' t t' : S}, s ≤ s' → t ≤ t' → p.merge s t ≤ p.merge s' t'
  diff_le : ∀ {s s' t : S}, s ≤ s' → p.diff s t ≤ p.diff s' t
  add_le : ∀ {s s' t : S}, s ≤ s' → p.add s t ≤ p.add s' t

structure Walk.Lawful (w : Walk B) : Prop where
  number_injective : ∀ a ∈ w.bbs, ∀ b ∈ w.bbs, w.number a = w.number b → a = b
  nodup_bbs : w.bbs.Nodup
  iter_mem : ∀ a b, b ∈ w.bbs → a ∈ w.iter b → a ∈ w.bbs
  forward_mem : ∀ a b, a ∈ w.bbs → b ∈ w.forward a → b ∈ w.bbs
  forward_of_iter : ∀ a b, b ∈ w.bbs → a ∈ w.iter b → b ∈ w.forward a

/-! ### The queue -/

variable {p : Problem B S} {w : Walk B} {s : State B S} {b : B}

/-- The `present` bits are those of the blocks in the queue, which are different blocks of the graph. -/
structure Queued (w : Walk B) (s : State B S) : Prop where
  nodup : s.todo.Nodup
  listed : ∀ c ∈ s.todo, c ∈ w.bbs
  present_iff : ∀ c ∈ w.bbs, s.present (w.number c) = true ↔ c ∈ s.todo

theorem queued_init (hw : w.Lawful) : Queued w (init p w) where
  nodup := hw.nodup_bbs
  listed := fun _ hc => hc
  present_iff := by
    intro c hc
    simp only [init, decide_eq_true (List.mem_map_of_mem hc), hc]

theorem push_outs (w : Walk B) (s : State B S) (c : B) : (push w s c).outs = s.outs := by
  unfold push
  split <;> rfl

theorem queued_push (hw : w.Lawful) (hs : Queued w s) {c : B} (hc : c ∈ w.bbs) : Queued w (push w s c) := by
  unfold push
  split
  · exact hs
  · rename_i hpresent
    have hnot : c ∉ s.todo := fun hmem => hpresent ((hs.present_iff c hc).mpr hmem)
    constructor
    · exact List.nodup_append.mpr ⟨hs.nodup, List.nodup_singleton c, fun a ha b hb hab => by
        cases List.mem_singleton.mp hb
        exact hnot (hab ▸ ha)⟩
    · intro d hd
      obtain hd | hd := List.mem_append.mp hd
      · exact hs.listed d hd
      · exact List.mem_singleton.mp hd ▸ hc
    · intro d hd
      by_cases hdc : d = c
      · subst hdc
        simp
      · have hnumber : w.number d ≠ w.number c := fun heq => hdc (hw.number_injective d hd c hc heq)
        simp only [Function.update_of_ne hnumber, hs.present_iff d hd, List.mem_append, List.mem_singleton, hdc,
          or_false]

theorem mem_push (hs : Queued w s) {c d : B} (hc : c ∈ w.bbs) : d ∈ (push w s c).todo ↔ d ∈ s.todo ∨ d = c := by
  unfold push
  split
  · rename_i hpresent
    have hmem := (hs.present_iff c hc).mp hpresent
    exact ⟨.inl, fun h => h.elim id fun hdc => hdc ▸ hmem⟩
  · simp

/-- Blocks that are pushed are in the queue, with those that were in it. -/
theorem foldl_push (hw : w.Lawful) (l : List B) (hl : ∀ c ∈ l, c ∈ w.bbs) (hs : Queued w s) :
    Queued w (l.foldl (push w) s) ∧ (l.foldl (push w) s).outs = s.outs ∧
      ∀ d, d ∈ (l.foldl (push w) s).todo ↔ d ∈ s.todo ∨ d ∈ l := by
  induction l generalizing s with
  | nil => exact ⟨hs, rfl, fun d => by simp⟩
  | cons c l ih =>
    have hc := hl c List.mem_cons_self
    obtain ⟨hqueued, houts, hmem⟩ := ih (fun a ha => hl a (List.mem_cons_of_mem c ha)) (queued_push hw hs hc)
    refine ⟨hqueued, houts.trans (push_outs w s c), fun d => ?_⟩
    rw [List.foldl_cons, hmem, mem_push hs hc, List.mem_cons, or_assoc]


/-- The state when the block has been taken from the queue. -/
theorem queued_erase [DecidableEq B] (hw : w.Lawful) (hs : Queued w s) (hb : b ∈ s.todo) (ins outs : ℕ → S) :
    Queued w ⟨s.todo.erase b, Function.update s.present (w.number b) false, ins, outs⟩ where
  nodup := hs.nodup.erase b
  listed := fun c hc => hs.listed c (List.mem_of_mem_erase hc)
  present_iff := by
    intro c hc
    by_cases hcb : c = b
    · subst hcb
      simp [hs.nodup.mem_erase_iff]
    · have hnumber : w.number c ≠ w.number b :=
        fun heq => hcb (hw.number_injective c hc b (hs.listed b hb) heq)
      simp only [Function.update_of_ne hnumber, hs.present_iff c hc, hs.nodup.mem_erase_iff, ne_eq, hcb,
        not_false_eq_true, true_and]

/-! ### The equations -/

/-- The output set of a block from the ones of its predecessors. -/
def transfer (p : Problem B S) (w : Walk B) (b : B) (x : B → S) : S :=
  p.add (p.diff ((w.iter b).foldl (fun set pred => p.merge set (x pred)) p.empty) (p.kill b)) (p.gen b)

/-- The output sets, block by block. -/
def State.out (w : Walk B) (s : State B S) (b : B) : S :=
  s.outs (w.number b)

/-- The input sets, block by block. -/
def State.inSet (w : Walk B) (s : State B S) (b : B) : S :=
  s.ins (w.number b)

/-- The input set of a block for some output sets. -/
def merged (p : Problem B S) (w : Walk B) (x : B → S) (b : B) : S :=
  (w.iter b).foldl (fun set pred => p.merge set (x pred)) p.empty

/-- The input sets of the blocks that have left the queue are those of the output sets. -/
structure Current (p : Problem B S) (w : Walk B) (s : State B S) : Prop where
  queued : Queued w s
  ins : ∀ c ∈ w.bbs, c ∉ s.todo → s.ins (w.number c) = merged p w (s.out w) c

theorem foldl_push_ins (w : Walk B) (l : List B) (s : State B S) : (l.foldl (push w) s).ins = s.ins := by
  induction l generalizing s with
  | nil => rfl
  | cons c l ih =>
    rw [List.foldl_cons, ih, push]
    split <;> rfl

variable [PartialOrder S] {rank : S → ℕ}

theorem foldl_merge_le (hp : p.Lawful) (l : List B) {x y : B → S} {s t : S} (hst : s ≤ t)
    (hxy : ∀ a ∈ l, x a ≤ y a) :
    l.foldl (fun set pred => p.merge set (x pred)) s ≤ l.foldl (fun set pred => p.merge set (y pred)) t := by
  induction l generalizing s t with
  | nil => exact hst
  | cons a l ih =>
    apply ih
    · exact hp.merge_le hst (hxy a List.mem_cons_self)
    · intro a' ha'
      exact hxy a' (List.mem_cons_of_mem a ha')

/-- The equations that the engine solves. -/
def equations (hp : p.Lawful) (hw : w.Lawful) (hrank : StrictMono rank) : Dataflow B S where
  nodes := w.bbs
  uses := fun a b => a ∈ w.iter b
  transfer := transfer p w
  rank := rank
  closed := hw.iter_mem
  monotone := fun b _ _ hxy => hp.add_le (hp.diff_le (foldl_merge_le hp (w.iter b) le_rfl hxy))
  rank_strictMono := hrank

theorem output_eq (hp : p.Lawful) : output p w s b = transfer p w b (s.out w) := by
  simp only [output, input, transfer, State.out, hp.reset_eq]

/-! ### A turn -/

variable [DecidableEq B]

/-- A turn of the loop is a turn of the work-list iteration. -/
theorem process_turn (hp : p.Lawful) (hw : w.Lawful) (hrank : StrictMono rank) (hs : Queued w s)
    (hb : b ∈ s.todo) :
    Queued w (process p w s b) ∧ (equations hp hw hrank).Turn b s.todo (process p w s b).todo (s.out w)
      ((process p w s b).out w) := by
  have hbn : b ∈ w.bbs := hs.listed b hb
  have hother : ∀ c ∈ w.bbs, c ≠ b → w.number c ≠ w.number b :=
    fun c hc hcb heq => hcb (hw.number_injective c hc b hbn heq)
  by_cases hequal : p.equals (output p w s b) (s.outs (w.number b)) = true
  · have hprocess : process p w s b = { s with
        todo := s.todo.erase b
        present := Function.update s.present (w.number b) false
        ins := Function.update s.ins (w.number b) (input p w s b) } := by
      unfold process
      exact if_pos hequal
    have hsame : transfer p w b (s.out w) = s.out w b := by
      rw [← output_eq hp]
      exact (hp.equals_iff _ _).mp hequal
    have hqueued : Queued w (process p w s b) := by
      rw [hprocess]
      exact queued_erase hw hs hb _ _
    refine ⟨hqueued, ?_⟩
    rw [hprocess] at hqueued ⊢
    constructor
    · exact hsame.symm
    · intro c _ _
      rfl
    · intro c hc hcb
      exact (List.mem_erase_of_ne hcb).mpr hc
    · intro hne
      exact absurd hsame hne
    · intro _
      exact (List.length_erase_of_mem hb).trans_lt (Nat.sub_lt (List.length_pos_of_mem hb) Nat.one_pos)
    · exact hqueued.nodup
    · exact hqueued.listed
  · obtain ⟨hqueued, houts, hmem⟩ := foldl_push hw (w.forward b) (fun c hc => hw.forward_mem b c hbn hc)
      (queued_erase hw hs hb (Function.update s.ins (w.number b) (input p w s b))
        (Function.update s.outs (w.number b) (output p w s b)))
    have hprocess : process p w s b = (w.forward b).foldl (push w)
        ⟨s.todo.erase b, Function.update s.present (w.number b) false,
          Function.update s.ins (w.number b) (input p w s b),
          Function.update s.outs (w.number b) (output p w s b)⟩ := by
      unfold process
      exact if_neg hequal
    have hne : transfer p w b (s.out w) ≠ s.out w b := by
      rw [← output_eq hp]
      exact fun heq => hequal ((hp.equals_iff _ _).mpr heq)
    rw [hprocess]
    refine ⟨hqueued, ?_⟩
    constructor
    · simp only [State.out, houts, Function.update_self]
      exact output_eq hp
    · intro c hc hcb
      simp only [State.out, houts, Function.update_of_ne (hother c hc hcb)]
    · intro c hc hcb
      exact (hmem c).mpr (.inl ((List.mem_erase_of_ne hcb).mpr hc))
    · intro _ c hc huses
      exact (hmem c).mpr (.inr (hw.forward_of_iter b c hc huses))
    · intro hsame
      exact absurd hsame hne
    · exact hqueued.nodup
    · exact hqueued.listed

/-- Whichever blocks are taken from the queue, the computation ends, and the output sets are then the greatest
solution of the equations. -/
theorem compute_inevitable (hp : p.Lawful) (hw : w.Lawful) (hrank : StrictMono rank)
    (hlower : ∀ b ∈ w.bbs, transfer p w b (fun _ => p.empty) ≤ p.empty) :
    Inevitable (turn p w) (fun s b => b ∈ s.todo) (fun s => s.todo ≠ [])
      (fun s => s.todo = [] ∧ (equations hp hw hrank).Greatest (fun _ => p.empty) (s.out w)) (init p w) := by
  refine Inevitable.of_measure (fun n s => Queued w s ∧
    (equations hp hw hrank).Descending (fun _ => p.empty) s.todo (s.out w) ∧
    (equations hp hw hrank).weight s.todo (s.out w) = n) ?_ ⟨queued_init hw, ?_, rfl⟩
  · rintro n s ⟨hqueued, hdesc, rfl⟩
    by_cases htodo : s.todo = []
    · left
      refine ⟨htodo, ?_⟩
      rw [htodo] at hdesc
      exact hdesc.greatest
    · right
      refine ⟨htodo, fun b hb => ⟨process p w s b, if_pos hb, .here (.inr ?_)⟩⟩
      obtain ⟨hqueued', hturn⟩ := process_turn hp hw hrank hqueued hb
      exact ⟨_, hturn.weight_lt hdesc hb, hqueued', hturn.descending hdesc hb, rfl⟩
  · exact Dataflow.descending_init hw.nodup_bbs (fun _ => Iff.rfl) hlower

/-! ### Sets that grow -/

omit [DecidableEq B]

/-- The operations are monotone for the reverse order as well. -/
theorem Problem.Lawful.dual (hp : p.Lawful) : @Problem.Lawful B Sᵒᵈ _ p where
  equals_iff := hp.equals_iff
  reset_eq := hp.reset_eq
  merge_le := fun hs ht => hp.merge_le (S := S) hs ht
  diff_le := fun hs => hp.diff_le (S := S) hs
  add_le := fun hs => hp.add_le (S := S) hs

/-- The least sets that solve the equations. -/
structure Least (p : Problem B S) (w : Walk B) (x : B → S) : Prop where
  fixed : ∀ b ∈ w.bbs, transfer p w b x = x b
  below : ∀ y : B → S, (∀ b ∈ w.bbs, transfer p w b y ≤ y b) → ∀ b ∈ w.bbs, x b ≤ y b

variable [DecidableEq B]

/-- From empty sets that are least ones, the output sets are the least solution of the equations when the
computation ends. -/
theorem compute_least (hp : p.Lawful) (hw : w.Lawful) (hrank : StrictAnti rank) (hempty : ∀ s, p.empty ≤ s) :
    Inevitable (turn p w) (fun s b => b ∈ s.todo) (fun s => s.todo ≠ [])
      (fun s => s.todo = [] ∧ Least p w (s.out w)) (init p w) := by
  have hdual : @StrictMono Sᵒᵈ ℕ _ _ rank := fun _ _ hlt => hrank hlt
  have hends := @compute_inevitable B Sᵒᵈ p w _ rank _ hp.dual hw hdual (fun _ _ => hempty _)
  refine hends.mono fun s ⟨htodo, hgreatest⟩ => ⟨htodo, hgreatest.fixed, fun y hy => ?_⟩
  exact hgreatest.above y (fun _ _ => hempty _) hy

/-! ### The input sets -/

theorem Current.process (hp : p.Lawful) (hw : w.Lawful) (hrank : StrictMono rank) (h : Current p w s)
    (hb : b ∈ s.todo) : Current p w (process p w s b) := by
  obtain ⟨hqueued, hturn⟩ := process_turn hp hw hrank h.queued hb
  refine ⟨hqueued, fun c hc hnot => ?_⟩
  have hins : (IterativeDFA.process p w s b).ins = Function.update s.ins (w.number b) (input p w s b) := by
    unfold IterativeDFA.process
    dsimp only
    split
    · rfl
    · exact foldl_push_ins w _ _
  -- a block that reads the new set of `b` is in the queue
  have hsame : ∀ a ∈ w.iter c, (IterativeDFA.process p w s b).out w a = s.out w a := by
    intro a ha
    by_cases hab : a = b
    · subst hab
      rw [hturn.value]
      by_contra hne
      exact hnot (hturn.pushed hne c hc ha)
    · exact hturn.other a (hw.iter_mem a c hc ha) hab
  have hmerged : merged p w ((IterativeDFA.process p w s b).out w) c = merged p w (s.out w) c :=
    List.foldl_ext _ _ _ fun set a ha => by rw [hsame a ha]
  rw [hins, hmerged]
  by_cases hcb : c = b
  · subst hcb
    rw [Function.update_self, input, hp.reset_eq]
    rfl
  · rw [Function.update_of_ne fun heq => hcb (hw.number_injective c hc b (h.queued.listed b hb) heq)]
    exact h.ins c hc fun hmem => hnot (hturn.kept c hmem hcb)

/-- The input sets at the end of the computation. -/
theorem compute_ins (hp : p.Lawful) (hw : w.Lawful) (hrank : StrictMono rank) {goal : State B S → Prop}
    (hends : Inevitable (turn p w) (fun s b => b ∈ s.todo) (fun s => s.todo ≠ [])
      (fun s => s.todo = [] ∧ goal s) (init p w)) :
    Inevitable (turn p w) (fun s b => b ∈ s.todo) (fun s => s.todo ≠ [])
      (fun s => s.todo = [] ∧ goal s ∧ ∀ b ∈ w.bbs, s.inSet w b = merged p w (s.out w) b) (init p w) := by
  have hinit : Current p w (init p w) := ⟨queued_init hw, fun c hc hnot => absurd hc hnot⟩
  refine (hends.and_kept ?_ hinit).mono ?_
  · intro s b t h hb ht
    rw [turn, if_pos hb] at ht
    cases ht
    exact h.process hp hw hrank hb
  · rintro s ⟨⟨htodo, hgoal⟩, h⟩
    exact ⟨htodo, hgoal, fun b hb => h.ins b hb (htodo ▸ List.not_mem_nil)⟩

end Otawa.IterativeDFA
