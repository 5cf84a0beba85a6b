import Otawa.Cfg.Graph
import Mathlib.Data.Finset.Union
import Mathlib.Data.List.ReduceOption

/-!
# `CFGBuilder`

`buildCFG` makes two sweeps over the instructions of a segment, in the order of their addresses. The first one
hooks a block to the instructions that are targets of control or follow it; the second one cuts the segment
before the instructions with a block, and links the blocks.

`Swept` says what the second sweep has left after any instruction: a block goes on until the next instruction
that has a block when the sweep comes to it, its size is set by the last instruction that ends it, and its edges
are those of the instructions in it.
-/

namespace Otawa.CFGBuilder

/-- The kind of an instruction, its target, and the flow facts put on it. `isControl` to `isBundleEnd` are bits
of `kind()`; `branchTarget` and `callTarget` have an entry for each address given, with the instruction found
there. -/
structure Inst where
  isControl : Bool
  isCall : Bool
  isReturn : Bool
  isConditional : Bool
  isBundleEnd : Bool
  target : Option ℕ
  markedReturn : Bool
  noReturn : Bool
  noCall : Bool
  ignoreControl : Bool
  ignoreSeq : Bool
  branchTarget : List (Option ℕ)
  callTarget : List (Option ℕ)

namespace Inst

/-- An instruction that only goes on to the next one, without flow facts. -/
def plain : Inst where
  isControl := false
  isCall := false
  isReturn := false
  isConditional := false
  isBundleEnd := true
  target := none
  markedReturn := false
  noReturn := false
  noCall := false
  ignoreControl := false
  ignoreSeq := false
  branchTarget := []
  callTarget := []

/-- A control instruction whose control is not ignored. -/
def acts (inst : Inst) : Bool :=
  inst.isControl && !inst.ignoreControl

/-- The targets that are given by flow facts and match an instruction. -/
def known (inst : Inst) : List ℕ :=
  inst.branchTarget.reduceOption ++ inst.callTarget.reduceOption

end Inst

/-- The instructions of a segment, by their places, and those that have a block before the segment is built: the
entries of the functions and the bounds of the configuration. The targets are instructions of the segment. -/
structure Segment where
  insts : List Inst
  bounds : List ℕ
  target_lt : ∀ inst ∈ insts, ∀ t ∈ inst.target, t < insts.length
  known_lt : ∀ inst ∈ insts, ∀ t ∈ inst.known, t < insts.length

namespace Segment

variable (seg : Segment)

def count : ℕ :=
  seg.insts.length

def inst (i : ℕ) : Inst :=
  seg.insts.getD i .plain

/-- The loop of `bundleEnd`, over the instructions from the place `i` on. -/
def bundleEndFrom : List Inst → ℕ → ℕ
  | inst :: next :: rest, i => if inst.isBundleEnd then i else bundleEndFrom (next :: rest) (i + 1)
  | _, i => i

def bundleEnd (i : ℕ) : ℕ :=
  bundleEndFrom (seg.insts.drop i) i

end Segment

/-- An `Edge` between the blocks that start at two instructions. -/
structure BBEdge where
  source : ℕ
  target : ℕ
  kind : EdgeKind
  deriving DecidableEq

/-- The state of the second sweep. A block is named by its first instruction; `bbs` are the instructions with a
block, and the sizes count instructions, 0 as long as the size is not set. -/
structure Sweep where
  bbs : Finset ℕ
  bb : Option ℕ
  follow : Bool
  size : ℕ → ℕ
  info : List ℕ
  edges : List BBEdge

section

variable (log : Bool) (seg : Segment)

/-- The body of the first loop. A message on an unresolved control takes the place of the look at its flow facts
when the instructions are logged. -/
def mark (bbs : Finset ℕ) (i : ℕ) : Finset ℕ :=
  let inst := seg.inst i
  if inst.isControl && !inst.ignoreControl then
    let targets :=
      match inst.target with
      | some target => {target}
      | none => if !(inst.isReturn || inst.markedReturn) && log then ∅ else inst.known.toFinset
    -- `nextBB`
    bbs ∪ targets ∪ if i + 1 < seg.count then {i + 1} else ∅
  else bbs

/-- The first sweep. -/
def findBBs : Finset ℕ :=
  (List.range seg.count).foldl (mark log seg) (insert 0 seg.bounds.toFinset)

/-- An instruction with a block is found: the current block ends before it. -/
def startBB (s : Sweep) (i : ℕ) : Sweep :=
  match s.bb with
  | none => { s with bb := some i }
  | some bb =>
    let s := if s.size bb = 0 then
        { s with size := Function.update s.size bb (seg.bundleEnd i - bb), info := s.info ++ [bb] }
      else s
    let s := if s.follow then { s with edges := s.edges ++ [⟨bb, i, .notTaken⟩] } else s
    { s with bb := some i, follow := true }

/-- The current block ends after the bundle of the instruction. -/
def endBB (s : Sweep) (bb i : ℕ) : Sweep :=
  { s with size := Function.update s.size bb (seg.bundleEnd i + 1 - bb), info := s.info ++ [bb] }

/-- An edge to the block of the target, which is made if need be. -/
def link (bb : ℕ) (kind : EdgeKind) (s : Sweep) (target : ℕ) : Sweep :=
  { s with bbs := insert target s.bbs, edges := s.edges ++ [⟨bb, target, kind⟩] }

/-- The edges to the target or, without a target, to the ones given by flow facts. -/
def takenEdges (s : Sweep) (bb : ℕ) (inst : Inst) : Sweep :=
  let kind := if inst.isCall then EdgeKind.call else EdgeKind.taken
  match inst.target with
  | some target => if !inst.isCall || !(seg.inst target).noCall then link bb kind s target else s
  | none => inst.callTarget.reduceOption.foldl (link bb .call) (inst.branchTarget.reduceOption.foldl (link bb kind) s)

/-- `perform_call`. -/
def performCall (inst : Inst) : Bool :=
  inst.target.isNone && !inst.callTarget.reduceOption.isEmpty

/-- The test of the first case at the end of a block. -/
def endsAsReturn (inst : Inst) : Bool :=
  inst.markedReturn || inst.target.any fun target => (seg.inst target).noReturn

/-- `follow` after a control instruction. -/
def follows (inst : Inst) : Bool :=
  (performCall inst || inst.isCall || inst.isConditional) && !inst.ignoreSeq

/-- What the body of the second loop does with the instruction once its block is found. It fails when there is no
current block. -/
def visit (s : Sweep) (i : ℕ) : Option Sweep :=
  let inst := seg.inst i
  if endsAsReturn seg inst then s.bb.map fun bb => { endBB seg s bb i with follow := false }
  else if inst.isControl && !inst.ignoreControl then
    s.bb.map fun bb => { takenEdges seg (endBB seg s bb i) bb inst with follow := follows inst }
  else some s

/-- The body of the second loop. -/
def step (s : Sweep) (i : ℕ) : Option Sweep :=
  visit seg (if i ∈ s.bbs then startBB seg s i else s) i

/-- The size of the last block. -/
def finish (s : Sweep) : Sweep :=
  match s.bb with
  | none => s
  | some bb =>
    if s.size bb = 0 then { s with size := Function.update s.size bb (seg.count - bb), info := s.info ++ [bb] }
    else s

/-- `buildCFG`, for one segment; `log` is on when the instructions are logged. -/
def buildCFG : Option Sweep :=
  ((List.range seg.count).foldlM (step seg) ⟨findBBs log seg, none, true, fun _ => 0, [], []⟩).map (finish seg)

end

/-! ### The first sweep -/

variable {log : Bool} {seg : Segment}

/-- The instructions that the first loop finds a block for at a control instruction. -/
def marked (log : Bool) (inst : Inst) : List ℕ :=
  match inst.target with
  | some target => [target]
  | none => if !(inst.isReturn || inst.markedReturn) && log then [] else inst.known

theorem mem_mark {bbs : Finset ℕ} {i t : ℕ} : t ∈ mark log seg bbs i ↔
    t ∈ bbs ∨ ((seg.inst i).acts = true ∧ (t ∈ marked log (seg.inst i) ∨ (t = i + 1 ∧ i + 1 < seg.count))) := by
  unfold mark marked
  change t ∈ (if (seg.inst i).acts = true then _ else bbs) ↔ _
  cases (seg.inst i).acts with
  | false => simp
  | true =>
    simp only [if_true, Finset.mem_union, true_and, or_assoc]
    refine or_congr_right (or_congr ?_ ?_)
    · cases (seg.inst i).target with
      | none =>
        dsimp only
        split <;> simp
      | some target => simp
    · split <;> simp_all

theorem mem_findBBs {t : ℕ} : t ∈ findBBs log seg ↔ t = 0 ∨ t ∈ seg.bounds ∨
    ∃ i < seg.count, (seg.inst i).acts = true ∧ (t ∈ marked log (seg.inst i) ∨ (t = i + 1 ∧ i + 1 < seg.count)) := by
  have hfold : ∀ l : List ℕ, ∀ bbs, t ∈ l.foldl (mark log seg) bbs ↔ t ∈ bbs ∨ ∃ i ∈ l,
      (seg.inst i).acts = true ∧ (t ∈ marked log (seg.inst i) ∨ (t = i + 1 ∧ i + 1 < seg.count)) := by
    intro l
    induction l with
    | nil => simp
    | cons i l ih =>
      intro bbs
      rw [List.foldl_cons, ih, mem_mark]
      simp only [List.mem_cons, exists_eq_or_imp, or_assoc]
  rw [findBBs, hfold, Finset.mem_insert, List.mem_toFinset, or_assoc]
  simp only [List.mem_range]

/-! ### The blocks -/

/-- The second loop ends the block of the instruction in its first case. -/
def Returns (seg : Segment) (i : ℕ) : Prop :=
  endsAsReturn seg (seg.inst i) = true

/-- The second loop looks at the control of the instruction. -/
def Branches (seg : Segment) (i : ℕ) : Prop :=
  ¬ Returns seg i ∧ (seg.inst i).acts = true

/-- The block of the instruction is given its size at the instruction. -/
def Ends (seg : Segment) (i : ℕ) : Prop :=
  Returns seg i ∨ Branches seg i

instance : DecidablePred (Returns seg) := fun _ => inferInstanceAs (Decidable (_ = true))

instance : DecidablePred (Branches seg) := fun _ => inferInstanceAs (Decidable (_ ∧ _))

instance : DecidablePred (Ends seg) := fun _ => inferInstanceAs (Decidable (_ ∨ _))

/-- The targets that get an edge. -/
def linked (seg : Segment) (inst : Inst) : List ℕ :=
  match inst.target with
  | some target => if !inst.isCall || !(seg.inst target).noCall then [target] else []
  | none => inst.known

/-- The instruction has a block when the second sweep comes to it. -/
def Started (log : Bool) (seg : Segment) (i : ℕ) : Prop :=
  i ∈ findBBs log seg ∨ ∃ x < i, Branches seg x ∧ i ∈ linked seg (seg.inst x)

instance : DecidablePred (Started log seg) := fun i =>
  inferInstanceAs (Decidable (i ∈ findBBs log seg ∨ ∃ x < i, Branches seg x ∧ i ∈ linked seg (seg.inst x)))

theorem started_zero : Started log seg 0 :=
  .inl (mem_findBBs.mpr (.inl rfl))

/-- The first instruction of the block of an instruction. -/
def start (log : Bool) (seg : Segment) : ℕ → ℕ
  | 0 => 0
  | i + 1 => if Started log seg (i + 1) then i + 1 else start log seg i

/-- `follow` after the instruction is visited. -/
def followAfter (log : Bool) (seg : Segment) : ℕ → Bool
  | 0 => if Returns seg 0 then false else if Branches seg 0 then follows (seg.inst 0) else true
  | i + 1 =>
    if Returns seg (i + 1) then false
    else if Branches seg (i + 1) then follows (seg.inst (i + 1))
    else if Started log seg (i + 1) then true
    else followAfter log seg i

/-- `follow` before the instruction is visited, once its block is found. -/
def followBefore (log : Bool) (seg : Segment) : ℕ → Bool
  | 0 => true
  | i + 1 => if Started log seg (i + 1) then true else followAfter log seg i

theorem followAfter_eq (i : ℕ) : followAfter log seg i =
    if Returns seg i then false else if Branches seg i then follows (seg.inst i) else followBefore log seg i := by
  cases i with
  | zero => rfl
  | succ i => rfl

theorem start_of_started {i : ℕ} (hi : Started log seg i) : start log seg i = i := by
  cases i with
  | zero => rfl
  | succ i => exact if_pos hi

theorem start_succ_of_not_started {i : ℕ} (hi : ¬ Started log seg (i + 1)) :
    start log seg (i + 1) = start log seg i :=
  if_neg hi

theorem start_le (i : ℕ) : start log seg i ≤ i := by
  induction i with
  | zero => exact Nat.le_refl 0
  | succ i ih =>
    by_cases hi : Started log seg (i + 1)
    · exact (start_of_started hi).le
    · exact start_succ_of_not_started hi ▸ ih.trans (Nat.le_succ i)

theorem started_start (i : ℕ) : Started log seg (start log seg i) := by
  induction i with
  | zero => exact started_zero
  | succ i ih =>
    by_cases hi : Started log seg (i + 1)
    · rwa [start_of_started hi]
    · rwa [start_succ_of_not_started hi]

theorem start_mono {i j : ℕ} (hle : i ≤ j) : start log seg i ≤ start log seg j := by
  induction hle with
  | refl => exact Nat.le_refl _
  | @step j _ ih =>
    by_cases hj : Started log seg (j + 1)
    · rw [start_of_started hj]
      exact (ih.trans (start_le j)).trans (Nat.le_succ j)
    · rwa [start_succ_of_not_started hj]

/-- A block that starts at or before an instruction starts at or before its block. -/
theorem le_start {b i : ℕ} (hb : Started log seg b) (hle : b ≤ i) : b ≤ start log seg i := by
  have hmono := @start_mono log seg _ _ hle
  rwa [start_of_started hb] at hmono

/-- Between two instructions of a block no block starts. -/
theorem not_started_of_start_eq {i j y : ℕ} (heq : start log seg i = start log seg j) (hlt : i < y) (hle : y ≤ j) :
    ¬ Started log seg y := by
  intro hy
  have hlow := le_start hy hle
  have hhigh := @start_le log seg i
  omega

/-! ### Bundles -/

theorem bundleEndFrom_bounds (l : List Inst) (i : ℕ) :
    i ≤ Segment.bundleEndFrom l i ∧ (l ≠ [] → Segment.bundleEndFrom l i < i + l.length) := by
  induction l generalizing i with
  | nil => exact ⟨Nat.le_refl i, fun hne => absurd rfl hne⟩
  | cons inst rest ih =>
    cases rest with
    | nil => exact ⟨Nat.le_refl i, fun _ => Nat.lt_succ_self i⟩
    | cons next rest =>
      obtain ⟨hle, hlt⟩ := ih (i + 1)
      have hlt := hlt (List.cons_ne_nil next rest)
      unfold Segment.bundleEndFrom
      split
      · exact ⟨Nat.le_refl i, fun _ => Nat.lt_add_of_pos_right (List.length_pos_of_ne_nil (List.cons_ne_nil _ _))⟩
      · simp only [List.length_cons] at hlt ⊢
        exact ⟨by omega, fun _ => by omega⟩

theorem le_bundleEnd (i : ℕ) : i ≤ seg.bundleEnd i :=
  (bundleEndFrom_bounds _ i).1

theorem bundleEnd_lt {i : ℕ} (hi : i < seg.count) : seg.bundleEnd i < seg.count := by
  have hdrop : seg.insts.drop i ≠ [] := fun hnil => absurd (List.drop_eq_nil_iff.mp hnil) (not_le.mpr hi)
  have hlt := (bundleEndFrom_bounds (seg.insts.drop i) i).2 hdrop
  rw [List.length_drop] at hlt
  have hlength : i < seg.insts.length := hi
  change Segment.bundleEndFrom _ i < seg.insts.length
  omega

/-! ### The second sweep -/

/-- An edge of some kind. -/
def Linked (s : Sweep) (b t : ℕ) : Prop :=
  ∃ kind, ⟨b, t, kind⟩ ∈ s.edges

theorem foldl_link (bb : ℕ) (kind : EdgeKind) (targets : List ℕ) (s : Sweep) :
    let s' := targets.foldl (link bb kind) s
    s'.bb = s.bb ∧ s'.size = s.size ∧ s'.info = s.info ∧ (∀ t, t ∈ s'.bbs ↔ t ∈ s.bbs ∨ t ∈ targets) ∧
      ∀ b t, Linked s' b t ↔ Linked s b t ∨ (b = bb ∧ t ∈ targets) := by
  induction targets generalizing s with
  | nil => simp
  | cons target targets ih =>
    obtain ⟨hbb, hsize, hinfo, hbbs, hedges⟩ := ih (link bb kind s target)
    refine ⟨hbb, hsize, hinfo, fun t => ?_, fun b t => ?_⟩
    · rw [List.foldl_cons, hbbs, link, Finset.mem_insert, List.mem_cons, or_assoc, or_left_comm]
    · have hlink : Linked (link bb kind s target) b t ↔ Linked s b t ∨ (b = bb ∧ t = target) := by
        simp [Linked, link, exists_or]
      rw [List.foldl_cons, hedges, hlink, List.mem_cons, or_assoc, ← and_or_left]

theorem takenEdges_spec (bb : ℕ) (inst : Inst) (s : Sweep) :
    let s' := takenEdges seg s bb inst
    s'.bb = s.bb ∧ s'.size = s.size ∧ s'.info = s.info ∧ (∀ t, t ∈ s'.bbs ↔ t ∈ s.bbs ∨ t ∈ linked seg inst) ∧
      ∀ b t, Linked s' b t ↔ Linked s b t ∨ (b = bb ∧ t ∈ linked seg inst) := by
  unfold takenEdges linked
  cases inst.target with
  | some target =>
    dsimp only
    split
    · exact foldl_link bb _ [target] s
    · simp
  | none =>
    obtain ⟨hbb, hsize, hinfo, hbbs, hedges⟩ := foldl_link bb
      (if inst.isCall then EdgeKind.call else EdgeKind.taken) inst.branchTarget.reduceOption s
    obtain ⟨hbb', hsize', hinfo', hbbs', hedges'⟩ := foldl_link bb .call inst.callTarget.reduceOption
      (inst.branchTarget.reduceOption.foldl (link bb (if inst.isCall then .call else .taken)) s)
    refine ⟨hbb'.trans hbb, hsize'.trans hsize, hinfo'.trans hinfo, fun t => ?_, fun b t => ?_⟩
    · rw [hbbs', hbbs, or_assoc, Inst.known, List.mem_append]
    · rw [hedges', hedges, or_assoc, ← and_or_left, Inst.known, List.mem_append]

/-- What the second sweep has left when the instructions up to `k` have a block and the ends and the targets of
those before `e` are looked at. -/
structure Swept (log : Bool) (seg : Segment) (e k : ℕ) (s : Sweep) : Prop where
  bbs : ∀ t, t ∈ s.bbs ↔ t ∈ findBBs log seg ∨ ∃ x < e, Branches seg x ∧ t ∈ linked seg (seg.inst x)
  bb : s.bb = some (start log seg k)
  follow : s.follow = if k < e then followAfter log seg k else followBefore log seg k
  size_end : ∀ x < e, Ends seg x → (∀ y < e, x < y → start log seg y = start log seg x → ¬ Ends seg y) →
    s.size (start log seg x) = seg.bundleEnd x + 1 - start log seg x
  size_next : ∀ x, x + 1 ≤ k → Started log seg (x + 1) →
    (∀ y ≤ x, start log seg y = start log seg x → ¬ Ends seg y) →
      s.size (start log seg x) = seg.bundleEnd (x + 1) - start log seg x
  size_open : ∀ b, start log seg k ≤ b → (∀ y < e, start log seg y = b → ¬ Ends seg y) → s.size b = 0
  info : ∀ b, b ∈ s.info ↔
    ∃ x, start log seg x = b ∧ ((x < e ∧ Ends seg x) ∨ (Started log seg (x + 1) ∧ x + 1 ≤ k))
  edges : ∀ b t, Linked s b t ↔ ∃ x, start log seg x = b ∧
    ((x < e ∧ Branches seg x ∧ t ∈ linked seg (seg.inst x)) ∨
      (t = x + 1 ∧ t ≤ k ∧ Started log seg t ∧ followAfter log seg x = true))

/-- Of the numbers below a bound with a property, one is the last. -/
theorem exists_last {P : ℕ → Prop} {e : ℕ} (hex : ∃ x < e, P x) : ∃ x < e, P x ∧ ∀ y < e, x < y → ¬ P y := by
  induction e with
  | zero =>
    obtain ⟨x, hx, -⟩ := hex
    exact absurd hx (Nat.not_lt_zero x)
  | succ e ih =>
    by_cases he : P e
    · exact ⟨e, Nat.lt_succ_self e, he, fun y hy hlt => absurd (Nat.lt_succ_iff.mp hy) (not_le.mpr hlt)⟩
    · obtain ⟨x, hx, hPx⟩ := hex
      have hxe : x ≠ e := fun heq => he (heq ▸ hPx)
      obtain ⟨z, hz, hPz, hlast⟩ := ih ⟨x, by omega, hPx⟩
      refine ⟨z, hz.trans (Nat.lt_succ_self e), hPz, fun y hy hlt => ?_⟩
      by_cases hye : y = e
      · exact hye ▸ he
      · exact hlast y (by omega) hlt

namespace Swept

variable {e k : ℕ} {s : Sweep}

/-- A block that ends has a size. -/
theorem size_ne_zero (hs : Swept log seg e k s) {x : ℕ} (hx : x < e) (hend : Ends seg x) :
    s.size (start log seg x) ≠ 0 := by
  obtain ⟨y, hy, ⟨hstart, hend⟩, hlast⟩ := exists_last (P := fun y => start log seg y = start log seg x ∧ Ends seg y)
    ⟨x, hx, rfl, hend⟩
  have hsize := hs.size_end y hy hend fun z hz hlt heq hendz => hlast z hz hlt ⟨heq.trans hstart, hendz⟩
  rw [hstart] at hsize
  have hle := @le_bundleEnd seg y
  have hstarty := @start_le log seg y
  omega

/-- The current block has no size exactly when no instruction has ended it. -/
theorem size_eq_zero_iff (hs : Swept log seg e k s) :
    s.size (start log seg k) = 0 ↔ ∀ y < e, start log seg y = start log seg k → ¬ Ends seg y := by
  constructor
  · intro hzero y hy heq hend
    exact hs.size_ne_zero hy hend (heq ▸ hzero)
  · exact hs.size_open _ (Nat.le_refl _)

section

variable (hs : Swept log seg (k + 1) k s)
include hs

/-- No block starts at the next instruction. -/
theorem next_same (hnot : ¬ Started log seg (k + 1)) :
    Swept log seg (k + 1) (k + 1) s where
  bbs := hs.bbs
  bb := by rw [start_succ_of_not_started hnot, hs.bb]
  follow := by
    rw [hs.follow, if_pos (Nat.lt_succ_self k), if_neg (lt_irrefl _), followBefore, if_neg hnot]
  size_end := hs.size_end
  size_next := by
    intro x hx hstarted
    have hxk : x ≠ k := fun heq => hnot (heq ▸ hstarted)
    exact hs.size_next x (by omega) hstarted
  size_open := by
    intro b hb
    rw [start_succ_of_not_started hnot] at hb
    exact hs.size_open b hb
  info := by
    intro b
    rw [hs.info]
    refine exists_congr fun x => and_congr_right fun _ => or_congr_right (and_congr_right fun hstarted => ?_)
    have hxk : x ≠ k := fun heq => hnot (heq ▸ hstarted)
    omega
  edges := by
    intro b t
    rw [hs.edges]
    refine exists_congr fun x => and_congr_right fun _ => or_congr_right ?_
    constructor
    · rintro ⟨rfl, hle, hrest⟩
      exact ⟨rfl, hle.trans (Nat.le_succ k), hrest⟩
    · rintro ⟨rfl, hle, hstarted, hfollow⟩
      have hxk : x ≠ k := fun heq => hnot (heq ▸ hstarted)
      exact ⟨rfl, by omega, hstarted, hfollow⟩

/-- A new block sets the size of the current one, unless it has one. -/
theorem startBB_size (b : ℕ) : (startBB seg s (k + 1)).size b =
    if b = start log seg k ∧ s.size b = 0 then seg.bundleEnd (k + 1) - b else s.size b := by
  simp only [startBB, hs.bb]
  by_cases hopen : s.size (start log seg k) = 0
  · rw [if_pos hopen]
    by_cases hb : b = start log seg k
    · subst hb
      split <;> simp [hopen]
    · split <;> simp [hb]
  · have hb : ¬ (b = start log seg k ∧ s.size b = 0) := fun h => hopen (h.1 ▸ h.2)
    rw [if_neg hopen, if_neg hb]
    split <;> rfl

theorem startBB_info (b : ℕ) :
    b ∈ (startBB seg s (k + 1)).info ↔ b ∈ s.info ∨ (b = start log seg k ∧ s.size b = 0) := by
  simp only [startBB, hs.bb]
  by_cases hopen : s.size (start log seg k) = 0
  · rw [if_pos hopen]
    have hb : b = start log seg k ∧ s.size b = 0 ↔ b = start log seg k :=
      and_iff_left_of_imp fun heq => heq ▸ hopen
    rw [hb]
    split <;> simp
  · rw [if_neg hopen]
    have hb : ¬ (b = start log seg k ∧ s.size b = 0) := fun h => hopen (h.1 ▸ h.2)
    split <;> simp [hb]

theorem startBB_edges (b t : ℕ) : Linked (startBB seg s (k + 1)) b t ↔
    Linked s b t ∨ (b = start log seg k ∧ t = k + 1 ∧ followAfter log seg k = true) := by
  have hfollow : s.follow = followAfter log seg k := by rw [hs.follow, if_pos (Nat.lt_succ_self k)]
  rw [← hfollow]
  simp only [startBB, hs.bb, Linked]
  by_cases hopen : s.size (start log seg k) = 0
  · rw [if_pos hopen]
    cases s.follow <;> simp [exists_or]
  · rw [if_neg hopen]
    cases s.follow <;> simp [exists_or]

/-- A block starts at the next instruction. -/
theorem next_start (hstarted : Started log seg (k + 1)) : Swept log seg (k + 1) (k + 1) (startBB seg s (k + 1)) := by
  have hcur : start log seg (k + 1) = k + 1 := start_of_started hstarted
  have hlt : start log seg k < k + 1 := Nat.lt_succ_of_le (start_le k)
  have hsize := hs.startBB_size
  have hinfo := hs.startBB_info
  have hbefore : ∀ x, x < k → Started log seg (x + 1) → start log seg x ≠ start log seg k :=
    fun x hx hx' heq => not_started_of_start_eq heq (Nat.lt_succ_self x) hx hx'
  constructor
  · intro t
    rw [← hs.bbs]
    simp only [startBB, hs.bb]
    split <;> split <;> rfl
  · rw [hcur]
    simp only [startBB, hs.bb]
  · rw [if_neg (lt_irrefl _), followBefore, if_pos hstarted]
    simp only [startBB, hs.bb]
  · intro x hx hend hlast
    have hsized := hs.size_ne_zero hx hend
    rw [hsize, if_neg fun h => hsized h.2]
    exact hs.size_end x hx hend hlast
  · intro x hx hnext hnone
    by_cases hxk : x = k
    · subst hxk
      rw [hsize, if_pos ⟨rfl, hs.size_eq_zero_iff.mpr fun y hy => hnone y (Nat.lt_succ_iff.mp hy)⟩]
    · have hother := hbefore x (by omega) hnext
      rw [hsize, if_neg fun h => hother h.1]
      exact hs.size_next x (by omega) hnext hnone
  · intro b hb hnone
    rw [hcur] at hb
    have hother : b ≠ start log seg k := by omega
    rw [hsize, if_neg fun h => hother h.1]
    exact hs.size_open b (by omega) hnone
  · intro b
    rw [hinfo, hs.info]
    constructor
    · rintro (⟨x, hx, hrest⟩ | ⟨rfl, -⟩)
      · exact ⟨x, hx, hrest.imp_right fun h => ⟨h.1, h.2.trans (Nat.le_succ k)⟩⟩
      · exact ⟨k, rfl, .inr ⟨hstarted, Nat.le_refl _⟩⟩
    · rintro ⟨x, hx, hrest⟩
      by_cases hopen : b = start log seg k ∧ s.size b = 0
      · exact .inr hopen
      left
      obtain hend | ⟨hnext, hle⟩ := hrest
      · exact ⟨x, hx, .inl hend⟩
      · by_cases hxk : x = k
        · subst hxk
          have hsized : s.size (start log seg x) ≠ 0 := fun hzero => hopen ⟨hx.symm, hx ▸ hzero⟩
          rw [Ne, hs.size_eq_zero_iff] at hsized
          push Not at hsized
          obtain ⟨y, hy, heq, hend⟩ := hsized
          exact ⟨y, heq.trans hx, .inl ⟨hy, hend⟩⟩
        · exact ⟨x, hx, .inr ⟨hnext, by omega⟩⟩
  · intro b t
    rw [hs.startBB_edges, hs.edges]
    constructor
    · rintro (⟨x, hx, hrest⟩ | ⟨rfl, rfl, hfollows⟩)
      · exact ⟨x, hx, hrest.imp_right fun h => ⟨h.1, h.2.1.trans (Nat.le_succ k), h.2.2⟩⟩
      · exact ⟨k, rfl, .inr ⟨rfl, Nat.le_refl _, hstarted, hfollows⟩⟩
    · rintro ⟨x, hx, htaken | ⟨rfl, hle, hnext, hfollows⟩⟩
      · exact .inl ⟨x, hx, .inl htaken⟩
      · by_cases hxk : x = k
        · subst hxk
          exact .inr ⟨hx.symm, rfl, hfollows⟩
        · exact .inl ⟨x, hx, .inr ⟨rfl, by omega, hnext, hfollows⟩⟩

end

/-- The instruction ends its block. -/
theorem visit_end (hs : Swept log seg k k s) (hend : Ends seg k) {s' : Sweep}
    (hbbs : ∀ t, t ∈ s'.bbs ↔ t ∈ s.bbs ∨ (Branches seg k ∧ t ∈ linked seg (seg.inst k))) (hbb : s'.bb = s.bb)
    (hfollow : s'.follow = followAfter log seg k)
    (hsize : s'.size = Function.update s.size (start log seg k) (seg.bundleEnd k + 1 - start log seg k))
    (hinfo : s'.info = s.info ++ [start log seg k])
    (hedges : ∀ b t, Linked s' b t ↔
      Linked s b t ∨ (b = start log seg k ∧ Branches seg k ∧ t ∈ linked seg (seg.inst k))) :
    Swept log seg (k + 1) k s' where
  bbs := by
    intro t
    rw [hbbs, hs.bbs, or_assoc]
    simp only [Nat.lt_succ_iff_lt_or_eq, or_and_right, exists_or, exists_eq_left]
  bb := hbb.trans hs.bb
  follow := by rw [hfollow, if_pos (Nat.lt_succ_self k)]
  size_end := by
    intro x hx hendx hlast
    rw [hsize]
    by_cases hxk : x = k
    · subst hxk
      exact Function.update_self ..
    · have hne : start log seg x ≠ start log seg k :=
        fun heq => hlast k (Nat.lt_succ_self k) (by omega) heq.symm hend
      rw [Function.update_of_ne hne]
      exact hs.size_end x (by omega) hendx fun y hy => hlast y (hy.trans (Nat.lt_succ_self k))
  size_next := by
    intro x hx hstarted hnone
    have hne : start log seg x ≠ start log seg k :=
      fun heq => not_started_of_start_eq heq (Nat.lt_succ_self x) hx hstarted
    rw [hsize, Function.update_of_ne hne]
    exact hs.size_next x hx hstarted hnone
  size_open := by
    intro b hb hnone
    have hne : b ≠ start log seg k := fun heq => hnone k (Nat.lt_succ_self k) heq.symm hend
    rw [hsize, Function.update_of_ne hne]
    exact hs.size_open b hb fun y hy => hnone y (hy.trans (Nat.lt_succ_self k))
  info := by
    intro b
    rw [hinfo, List.mem_append, hs.info, List.mem_singleton]
    constructor
    · rintro (⟨x, hx, hrest⟩ | rfl)
      · exact ⟨x, hx, hrest.imp_left fun h => ⟨h.1.trans (Nat.lt_succ_self k), h.2⟩⟩
      · exact ⟨k, rfl, .inl ⟨Nat.lt_succ_self k, hend⟩⟩
    · rintro ⟨x, hx, ⟨hlt, hendx⟩ | hnext⟩
      · by_cases hxk : x = k
        · exact .inr (hxk ▸ hx.symm)
        · exact .inl ⟨x, hx, .inl ⟨by omega, hendx⟩⟩
      · exact .inl ⟨x, hx, .inr hnext⟩
  edges := by
    intro b t
    rw [hedges, hs.edges]
    constructor
    · rintro (⟨x, hx, hrest⟩ | ⟨rfl, htaken⟩)
      · exact ⟨x, hx, hrest.imp_left fun h => ⟨h.1.trans (Nat.lt_succ_self k), h.2⟩⟩
      · exact ⟨k, rfl, .inl ⟨Nat.lt_succ_self k, htaken⟩⟩
    · rintro ⟨x, hx, ⟨hlt, htaken⟩ | hnext⟩
      · by_cases hxk : x = k
        · subst hxk
          exact .inr ⟨hx.symm, htaken⟩
        · exact .inl ⟨x, hx, .inl ⟨by omega, htaken⟩⟩
      · exact .inl ⟨x, hx, .inr hnext⟩

/-- The instruction goes on to the next one. -/
theorem visit_go (hs : Swept log seg k k s) (hgo : ¬ Ends seg k) : Swept log seg (k + 1) k s where
  bbs := by
    intro t
    rw [hs.bbs]
    refine or_congr_right (exists_congr fun x => ?_)
    have hlt : Branches seg x → (x < k ↔ x < k + 1) := by
      intro hx
      have hxk : x ≠ k := fun heq => hgo (.inr (heq ▸ hx))
      omega
    exact ⟨fun h => ⟨(hlt h.2.1).mp h.1, h.2⟩, fun h => ⟨(hlt h.2.1).mpr h.1, h.2⟩⟩
  bb := hs.bb
  follow := by
    rw [hs.follow, if_neg (lt_irrefl k), if_pos (Nat.lt_succ_self k), followAfter_eq,
      if_neg fun h => hgo (.inl h), if_neg fun h => hgo (.inr h)]
  size_end := by
    intro x hx hend hlast
    have hxk : x ≠ k := fun heq => hgo (heq ▸ hend)
    exact hs.size_end x (by omega) hend fun y hy => hlast y (hy.trans (Nat.lt_succ_self k))
  size_next := hs.size_next
  size_open := fun b hb hnone => hs.size_open b hb fun y hy => hnone y (hy.trans (Nat.lt_succ_self k))
  info := by
    intro b
    rw [hs.info]
    refine exists_congr fun x => and_congr_right fun _ => or_congr_left ?_
    have hxk : Ends seg x → x ≠ k := fun hend heq => hgo (heq ▸ hend)
    exact ⟨fun h => ⟨h.1.trans (Nat.lt_succ_self k), h.2⟩, fun h => ⟨by have := hxk h.2; omega, h.2⟩⟩
  edges := by
    intro b t
    rw [hs.edges]
    refine exists_congr fun x => and_congr_right fun _ => or_congr_left ?_
    have hxk : Branches seg x → x ≠ k := fun hx heq => hgo (.inr (heq ▸ hx))
    exact ⟨fun h => ⟨h.1.trans (Nat.lt_succ_self k), h.2⟩, fun h => ⟨by have := hxk h.2.1; omega, h.2⟩⟩

theorem visit (hs : Swept log seg k k s) : ∃ s', visit seg s k = some s' ∧ Swept log seg (k + 1) k s' := by
  unfold CFGBuilder.visit
  dsimp only
  by_cases hreturns : endsAsReturn seg (seg.inst k) = true
  · have hr : Returns seg k := hreturns
    rw [if_pos hreturns, hs.bb]
    refine ⟨_, rfl, hs.visit_end (.inl hr) ?_ rfl ?_ rfl rfl ?_⟩
    · intro t
      refine (or_iff_left ?_).symm
      exact fun h => h.1.1 hr
    · rw [followAfter_eq, if_pos hr]
    · intro b t
      refine (or_iff_left ?_).symm
      exact fun h => h.2.1.1 hr
  · have hr : ¬ Returns seg k := hreturns
    rw [if_neg hreturns]
    by_cases hacts : ((seg.inst k).isControl && !(seg.inst k).ignoreControl) = true
    · have hbranches : Branches seg k := ⟨hr, hacts⟩
      obtain ⟨hbb, hsize, hinfo, hbbs, hedges⟩ := takenEdges_spec (start log seg k) (seg.inst k)
        (endBB seg s (start log seg k) k)
      rw [if_pos hacts, hs.bb]
      refine ⟨_, rfl, hs.visit_end (.inr hbranches) ?_ ?_ ?_ hsize hinfo ?_⟩
      · exact fun t => (hbbs t).trans (or_congr_right (and_iff_right hbranches).symm)
      · exact hbb
      · rw [followAfter_eq, if_neg hr, if_pos hbranches]
      · exact fun b t => (hedges b t).trans (or_congr_right (and_congr_right fun _ => (and_iff_right hbranches).symm))
    · rw [if_neg hacts]
      exact ⟨s, rfl, hs.visit_go fun hend => hend.elim hr fun h => hacts h.2⟩

theorem step_next (hs : Swept log seg (k + 1) k s) :
    ∃ s', step seg s (k + 1) = some s' ∧ Swept log seg (k + 2) (k + 1) s' := by
  have hmem : k + 1 ∈ s.bbs ↔ Started log seg (k + 1) := hs.bbs (k + 1)
  unfold step
  by_cases hstarted : Started log seg (k + 1)
  · rw [if_pos (hmem.mpr hstarted)]
    exact (hs.next_start hstarted).visit
  · rw [if_neg fun h => hstarted (hmem.mp h)]
    exact (hs.next_same hstarted).visit

end Swept

/-- The sweep before the first instruction. -/
def initial (log : Bool) (seg : Segment) : Sweep :=
  ⟨findBBs log seg, none, true, fun _ => 0, [], []⟩

theorem step_first : ∃ s, step seg (initial log seg) 0 = some s ∧ Swept log seg 1 0 s := by
  have hzero : 0 ∈ (initial log seg).bbs := mem_findBBs.mpr (.inl rfl)
  have hfirst : Swept log seg 0 0 (startBB seg (initial log seg) 0) :=
    { bbs := fun t => by simp [startBB, initial]
      bb := rfl
      follow := rfl
      size_end := fun x hx => absurd hx (Nat.not_lt_zero x)
      size_next := fun x hx => absurd hx (Nat.not_succ_le_zero x)
      size_open := fun _ _ _ => rfl
      info := fun b => by simp [startBB, initial]
      edges := fun b t => by
        simp only [startBB, initial, Linked, List.not_mem_nil, exists_false, false_iff]
        rintro ⟨x, -, ⟨hx, -⟩ | ⟨rfl, hle, -⟩⟩
        · exact Nat.not_lt_zero x hx
        · exact Nat.not_succ_le_zero x hle }
  unfold step
  rw [if_pos hzero]
  exact hfirst.visit

/-- The sweep over the first instructions. -/
theorem sweep_spec (k : ℕ) : ∃ s, (List.range (k + 1)).foldlM (step seg) (initial log seg) = some s ∧
    Swept log seg (k + 1) k s := by
  induction k with
  | zero =>
    obtain ⟨s, hs, hswept⟩ := @step_first log seg
    refine ⟨s, ?_, hswept⟩
    rw [List.range_one, List.foldlM_cons, hs]
    rfl
  | succ k ih =>
    obtain ⟨s, hs, hswept⟩ := ih
    obtain ⟨s', hs', hswept'⟩ := hswept.step_next
    refine ⟨s', ?_, hswept'⟩
    rw [List.range_succ, List.foldlM_append, hs]
    simp [hs']

/-- The block that starts at an instruction goes on, or another one starts behind it. -/
theorem start_eq_or_next {b m : ℕ} (hb : Started log seg b) (hle : b ≤ m) : start log seg m = b ∨
    ∃ x, start log seg x = b ∧ x + 1 ≤ m ∧ Started log seg (x + 1) := by
  induction hle with
  | refl => exact .inl (start_of_started hb)
  | @step m _ ih =>
    obtain hsame | ⟨x, hx, hxm, hnext⟩ := ih
    · by_cases hm : Started log seg (m + 1)
      · exact .inr ⟨m, hsame, Nat.le_refl _, hm⟩
      · exact .inl ((start_succ_of_not_started hm).trans hsame)
    · exact .inr ⟨x, hx, hxm.trans (Nat.le_succ m), hnext⟩

/-- What `buildCFG` leaves for a segment with instructions. The size of a block is set by the last instruction
that ends it or, if there is none, by the block behind it or the end of the segment. -/
structure Built (log : Bool) (seg : Segment) (s : Sweep) : Prop where
  size_end : ∀ x < seg.count, Ends seg x →
    (∀ y < seg.count, x < y → start log seg y = start log seg x → ¬ Ends seg y) →
      s.size (start log seg x) = seg.bundleEnd x + 1 - start log seg x
  size_next : ∀ x, x + 1 < seg.count → Started log seg (x + 1) →
    (∀ y ≤ x, start log seg y = start log seg x → ¬ Ends seg y) →
      s.size (start log seg x) = seg.bundleEnd (x + 1) - start log seg x
  size_last : ∀ x, x + 1 = seg.count → (∀ y ≤ x, start log seg y = start log seg x → ¬ Ends seg y) →
    s.size (start log seg x) = seg.count - start log seg x
  info : ∀ b, b ∈ s.info ↔ b < seg.count ∧ Started log seg b
  edges : ∀ b t, Linked s b t ↔ ∃ x < seg.count, start log seg x = b ∧
    ((Branches seg x ∧ t ∈ linked seg (seg.inst x)) ∨
      (t = x + 1 ∧ t < seg.count ∧ Started log seg t ∧ followAfter log seg x = true))

theorem Swept.finish {n : ℕ} {s : Sweep} (hs : Swept log seg (n + 1) n s) (hn : seg.count = n + 1) :
    Built log seg (CFGBuilder.finish seg s) := by
  have hlast : ∀ x, x + 1 < seg.count → Started log seg (x + 1) → start log seg x ≠ start log seg n := by
    intro x hx hnext heq
    exact not_started_of_start_eq heq (Nat.lt_succ_self x) (by omega) hnext
  have hsize : ∀ b, (CFGBuilder.finish seg s).size b =
      if b = start log seg n ∧ s.size b = 0 then seg.count - b else s.size b := by
    intro b
    simp only [CFGBuilder.finish, hs.bb]
    by_cases hopen : s.size (start log seg n) = 0
    · rw [if_pos hopen]
      by_cases hb : b = start log seg n
      · subst hb
        simp [hopen]
      · simp [hb]
    · have hb : ¬ (b = start log seg n ∧ s.size b = 0) := fun h => hopen (h.1 ▸ h.2)
      rw [if_neg hopen, if_neg hb]
  have hinfo : ∀ b, b ∈ (CFGBuilder.finish seg s).info ↔ b ∈ s.info ∨ (b = start log seg n ∧ s.size b = 0) := by
    intro b
    simp only [CFGBuilder.finish, hs.bb]
    by_cases hopen : s.size (start log seg n) = 0
    · have hb : b = start log seg n ∧ s.size b = 0 ↔ b = start log seg n :=
        and_iff_left_of_imp fun heq => heq ▸ hopen
      rw [if_pos hopen, hb]
      simp
    · have hb : ¬ (b = start log seg n ∧ s.size b = 0) := fun h => hopen (h.1 ▸ h.2)
      rw [if_neg hopen]
      simp [hb]
  constructor
  · intro x hx hend hnone
    have hsized := hs.size_ne_zero (hn ▸ hx) hend
    rw [hsize, if_neg fun h => hsized h.2]
    exact hs.size_end x (hn ▸ hx) hend fun y hy => hnone y (hn ▸ hy)
  · intro x hx hnext hnone
    have hother := hlast x hx hnext
    rw [hsize, if_neg fun h => hother h.1]
    exact hs.size_next x (by omega) hnext hnone
  · intro x hx hnone
    obtain rfl : x = n := by omega
    rw [hsize, if_pos ⟨rfl, hs.size_eq_zero_iff.mpr fun y hy => hnone y (by omega)⟩]
  · intro b
    rw [hinfo, hs.info]
    constructor
    · rintro (⟨x, rfl, hrest⟩ | ⟨rfl, -⟩)
      · refine ⟨(start_le x).trans_lt ?_, started_start x⟩
        obtain ⟨hx, -⟩ | ⟨-, hx⟩ := hrest <;> omega
      · exact ⟨(start_le n).trans_lt (by omega), started_start n⟩
    · rintro ⟨hb, hstarted⟩
      obtain hcur | ⟨x, hx, hle, hnext⟩ := start_eq_or_next hstarted (m := n) (by omega)
      · by_cases hopen : s.size b = 0
        · exact .inr ⟨hcur.symm, hopen⟩
        · left
          rw [← hcur, hs.size_eq_zero_iff] at hopen
          push Not at hopen
          obtain ⟨y, hy, heq, hend⟩ := hopen
          exact ⟨y, heq.trans hcur, .inl ⟨hy, hend⟩⟩
      · exact .inl ⟨x, hx, .inr ⟨hnext, hle⟩⟩
  · intro b t
    have hedges : Linked (CFGBuilder.finish seg s) b t ↔ Linked s b t := by
      simp only [CFGBuilder.finish, hs.bb, Linked]
      split <;> rfl
    rw [hedges, hs.edges]
    constructor
    · rintro ⟨x, hx, ⟨hlt, htaken⟩ | ⟨rfl, hle, hnext⟩⟩
      · exact ⟨x, by omega, hx, .inl htaken⟩
      · exact ⟨x, by omega, hx, .inr ⟨rfl, by omega, hnext⟩⟩
    · rintro ⟨x, hlt, hx, htaken | ⟨rfl, hle, hnext⟩⟩
      · exact ⟨x, hx, .inl ⟨by omega, htaken⟩⟩
      · exact ⟨x, hx, .inr ⟨rfl, by omega, hnext⟩⟩

/-- No assertion fails, and the blocks and edges are as described. -/
theorem buildCFG_spec (hne : seg.count ≠ 0) : ∃ s, buildCFG log seg = some s ∧ Built log seg s := by
  obtain ⟨n, hn⟩ := Nat.exists_eq_succ_of_ne_zero hne
  obtain ⟨s, hs, hswept⟩ := @sweep_spec log seg n
  refine ⟨finish seg s, ?_, hswept.finish hn⟩
  rw [buildCFG, hn]
  exact congrArg (Option.map (finish seg)) hs

end Otawa.CFGBuilder
