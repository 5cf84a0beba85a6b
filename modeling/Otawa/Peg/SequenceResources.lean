import Otawa.Peg.ParExeGraph

/-!
# The register resources of an instruction sequence

`createSequenceResources` finds the instructions that produce the registers read in a sequence, and makes a resource for
each register that comes from outside. The table of the instructions that use such a register has one slot for each
register, so the last of them only gets into the resource. `complete_iff`: no availability of a register is ignored when
the other ones have no execution nodes.
-/

namespace Otawa

/-- `pipeline_stage_category_t`. -/
inductive ParExeStage.Category where
  | fetch
  | decode
  | execute
  | commit
  | delay
  | fu
  deriving DecidableEq

/-- The registers are known by their platform numbers. -/
structure ParExeInst (V : Type) (regCount : ℕ) where
  readRegs : List (Fin regCount)
  writtenRegs : List (Fin regCount)
  nodes : List V

/-- The instructions in order, and the category of the stage of each node. A node belongs to one instruction. -/
structure ParExeSequence (V : Type) (regCount : ℕ) where
  insts : List (ParExeInst V regCount)
  category : V → ParExeStage.Category
  disjoint : insts.Pairwise fun a b => a.nodes.Disjoint b.nodes

structure RegResource (regCount : ℕ) where
  name : String
  regIndex : Fin regCount
  index : ℕ
  usingInsts : List ℕ
  deriving DecidableEq

namespace ParExeSequence

variable {V E : Type} {n : ℕ}

/-! ### The tables -/

/-- The local tables, with the instructions known by their positions, and the producing instructions added to each. -/
structure Tables (n : ℕ) where
  isInput : Fin n → Bool
  isProducedBy : Fin n → Option ℕ
  isInputFor : Fin n → Option ℕ
  producingInsts : ℕ → List ℕ

def Tables.start (n : ℕ) : Tables n where
  isInput _ := false
  isProducedBy _ := none
  isInputFor _ := none
  producingInsts _ := []

def Tables.read (inst : ℕ) (t : Tables n) (reg : Fin n) : Tables n :=
  match t.isProducedBy reg with
  | none => { t with
      isInput := Function.update t.isInput reg true
      isInputFor := Function.update t.isInputFor reg (some inst) }
  | some producer => { t with
      producingInsts := Function.update t.producingInsts inst (t.producingInsts inst ++ [producer]) }

def Tables.write (inst : ℕ) (t : Tables n) (reg : Fin n) : Tables n :=
  { t with isProducedBy := Function.update t.isProducedBy reg (some inst) }

def Tables.step (t : Tables n) (inst : ParExeInst V n × ℕ) : Tables n :=
  inst.1.writtenRegs.foldl (Tables.write inst.2) (inst.1.readRegs.foldl (Tables.read inst.2) t)

def tables (s : ParExeSequence V n) : Tables n :=
  s.insts.zipIdx.foldl Tables.step (Tables.start n)

/-! ### The resources -/

def newResource (t : Tables n) (reg : Fin n) (index : ℕ) : RegResource n where
  name := "r" ++ toString reg.val
  regIndex := reg
  index := index
  usingInsts := (t.isInputFor reg).toList

def addResource (t : Tables n) (acc : List (RegResource n) × ℕ) (reg : Fin n) : List (RegResource n) × ℕ :=
  if t.isInput reg then (acc.1 ++ [newResource t reg acc.2], acc.2 + 1) else acc

/-- The new resources, the first of which has the index `resource_index`. -/
def createSequenceResources (s : ParExeSequence V n) (resource_index : ℕ) : List (RegResource n) :=
  ((List.finRange n).foldl (addResource s.tables) ([], resource_index)).1

def executeNodes (s : ParExeSequence V n) (inst : ℕ) : List V :=
  (s.insts[inst]?.elim [] ParExeInst.nodes).filter fun node => s.category node = .execute

/-- The resource as `initDelays` takes it. -/
def resource (s : ParExeSequence V n) (res : RegResource n) : Resource V :=
  .reg (res.usingInsts.flatMap s.executeNodes)

/-- The graph with the resources of its sequence after the other ones. -/
def addResources (s : ParExeSequence V n) (g : ParExeGraph V E) : ParExeGraph V E :=
  { g with resources := g.resources ++ (s.createSequenceResources g.numResources).map s.resource }

/-! ### Dependencies -/

def Reads (s : ParExeSequence V n) (inst : ℕ) (reg : Fin n) : Prop :=
  ∃ i, s.insts[inst]? = some i ∧ reg ∈ i.readRegs

def Writes (s : ParExeSequence V n) (inst : ℕ) (reg : Fin n) : Prop :=
  ∃ i, s.insts[inst]? = some i ∧ reg ∈ i.writtenRegs

/-- The last of the instructions before `inst` that write a register. -/
structure LastWriter (s : ParExeSequence V n) (inst : ℕ) (reg : Fin n) (producer : ℕ) : Prop where
  lt : producer < inst
  writes : s.Writes producer reg
  last : ∀ k, producer < k → k < inst → ¬ s.Writes k reg

/-- The instruction reads the register, and no instruction before writes it. -/
structure InputRead (s : ParExeSequence V n) (inst : ℕ) (reg : Fin n) : Prop where
  reads : s.Reads inst reg
  unwritten : ∀ k < inst, ¬ s.Writes k reg

/-- No dependency on a register is ignored, in the instructions or in the delays. -/
structure Complete [DecidableEq V] (s : ParExeSequence V n) (g : ParExeGraph V E) : Prop where
  producing : ∀ inst producer, producer ∈ s.tables.producingInsts inst ↔
    ∃ reg, s.Reads inst reg ∧ s.LastWriter inst reg producer
  resource : ∀ reg, (∃ inst, s.InputRead inst reg) →
    ∃! res, res ∈ s.createSequenceResources g.numResources ∧ res.regIndex = reg
  available : ∀ reg inst, s.InputRead inst reg → ∀ node ∈ s.executeNodes inst,
    ∀ res ∈ s.createSequenceResources g.numResources, res.regIndex = reg →
      ∀ d : Delays V, (s.addResources g).initDelays d node res.index = 0

/-- The instructions that read a register before its first write have no execution nodes, but the last one. -/
def LastReaders (s : ParExeSequence V n) : Prop :=
  ∀ reg inst later, s.InputRead inst reg → s.InputRead later reg → inst < later → s.executeNodes inst = []

variable {s : ParExeSequence V n} {t : Tables n} {inst k : ℕ} {reg : Fin n} {producer : ℕ}

/-! ### One instruction -/

/-- The tables after the reads of one instruction. -/
structure ReadsDone (t : Tables n) (inst : ℕ) (regs : List (Fin n)) (t' : Tables n) : Prop where
  isProducedBy : t'.isProducedBy = t.isProducedBy
  isInput : ∀ reg, t'.isInput reg = true ↔ t.isInput reg = true ∨ (reg ∈ regs ∧ t.isProducedBy reg = none)
  isInputFor : ∀ reg, t'.isInputFor reg =
    if reg ∈ regs ∧ t.isProducedBy reg = none then some inst else t.isInputFor reg
  producing : ∀ k producer, producer ∈ t'.producingInsts k ↔
    producer ∈ t.producingInsts k ∨ (k = inst ∧ ∃ reg ∈ regs, t.isProducedBy reg = some producer)

theorem ReadsDone.nil (t : Tables n) (inst : ℕ) : ReadsDone t inst [] t := by
  constructor <;> simp

theorem ReadsDone.read {t' : Tables n} {regs : List (Fin n)} (h : ReadsDone t inst regs t') (reg : Fin n) :
    ReadsDone t inst (regs ++ [reg]) (t'.read inst reg) := by
  have hproduced := congrFun h.isProducedBy reg
  unfold Tables.read
  split
  case h_1 hnone =>
    rw [hproduced] at hnone
    constructor
    · exact h.isProducedBy
    · intro r
      by_cases hr : r = reg
      · subst hr
        simp [hnone]
      · simp [h.isInput, hr]
    · intro r
      by_cases hr : r = reg
      · subst hr
        simp [hnone]
      · simp [h.isInputFor, hr]
    · intro k producer
      simp only [h.producing, List.mem_append, List.mem_singleton]
      constructor
      · rintro (hold | ⟨hk, r, hr, hby⟩)
        · exact .inl hold
        · exact .inr ⟨hk, r, .inl hr, hby⟩
      · rintro (hold | ⟨hk, r, hr | rfl, hby⟩)
        · exact .inl hold
        · exact .inr ⟨hk, r, hr, hby⟩
        · rw [hnone] at hby
          cases hby
  case h_2 producer hsome =>
    rw [hproduced] at hsome
    constructor
    · exact h.isProducedBy
    · intro r
      simp only [h.isInput, List.mem_append, List.mem_singleton]
      constructor
      · rintro (hold | ⟨hr, hby⟩)
        · exact .inl hold
        · exact .inr ⟨.inl hr, hby⟩
      · rintro (hold | ⟨hr | rfl, hby⟩)
        · exact .inl hold
        · exact .inr ⟨hr, hby⟩
        · rw [hsome] at hby
          cases hby
    · intro r
      rw [h.isInputFor]
      refine if_congr ?_ rfl rfl
      simp only [List.mem_append, List.mem_singleton]
      constructor
      · exact fun ⟨hr, hby⟩ => ⟨.inl hr, hby⟩
      · rintro ⟨hr | rfl, hby⟩
        · exact ⟨hr, hby⟩
        · rw [hsome] at hby
          cases hby
    · intro k p
      by_cases hk : k = inst
      · subst hk
        simp [h.producing, hsome, or_assoc, or_and_right, exists_or, eq_comm]
      · simp [h.producing, hk]

theorem foldl_read (t : Tables n) (inst : ℕ) (regs : List (Fin n)) :
    ReadsDone t inst regs (regs.foldl (Tables.read inst) t) := by
  induction regs using List.reverseRecOn with
  | nil => exact .nil t inst
  | append_singleton regs reg ih =>
    rw [List.foldl_append]
    exact ih.read reg

theorem foldl_write (t : Tables n) (inst : ℕ) (regs : List (Fin n)) :
    regs.foldl (Tables.write inst) t =
      { t with isProducedBy := fun reg => if reg ∈ regs then some inst else t.isProducedBy reg } := by
  induction regs using List.reverseRecOn with
  | nil => simp
  | append_singleton regs reg ih =>
    rw [List.foldl_append, ih]
    simp only [List.foldl_cons, List.foldl_nil, Tables.write]
    congr 1
    funext r
    by_cases hr : r = reg
    · subst hr
      simp
    · simp [hr]

/-! ### The sequence -/

/-- The tables after the first `k` instructions. -/
structure Scanned (s : ParExeSequence V n) (k : ℕ) (t : Tables n) : Prop where
  isProducedBy : ∀ reg producer, t.isProducedBy reg = some producer ↔ s.LastWriter k reg producer
  isInput : ∀ reg, t.isInput reg = true ↔ ∃ inst < k, s.InputRead inst reg
  isInputFor : ∀ reg inst, t.isInputFor reg = some inst ↔
    inst < k ∧ s.InputRead inst reg ∧ ∀ later, inst < later → later < k → ¬ s.InputRead later reg
  producing : ∀ inst producer, producer ∈ t.producingInsts inst ↔
    inst < k ∧ ∃ reg, s.Reads inst reg ∧ s.LastWriter inst reg producer

theorem exists_last {P : ℕ → Prop} (h : ∃ p < k, P p) : ∃ p < k, P p ∧ ∀ j, p < j → j < k → ¬ P j := by
  induction k with
  | zero =>
    obtain ⟨p, hp, -⟩ := h
    exact absurd hp (Nat.not_lt_zero p)
  | succ k ih =>
    by_cases hk : P k
    · exact ⟨k, Nat.lt_succ_self k, hk, fun j hj hjk => absurd hjk (Nat.not_lt.mpr hj)⟩
    · obtain ⟨p, hp, hP⟩ := h
      have hne : p ≠ k := fun heq => hk (heq ▸ hP)
      obtain ⟨q, hq, hPq, hlast⟩ := ih ⟨p, by omega, hP⟩
      refine ⟨q, hq.trans (Nat.lt_succ_self k), hPq, fun j hj hjk => ?_⟩
      rcases Nat.lt_succ_iff_lt_or_eq.mp hjk with hjk | rfl
      · exact hlast j hj hjk
      · exact hk

theorem Scanned.isProducedBy_none (h : Scanned s k t) (reg : Fin n) :
    t.isProducedBy reg = none ↔ ∀ p < k, ¬ s.Writes p reg := by
  constructor
  · intro hnone p hp hwrites
    obtain ⟨q, hq, hwrites, hlast⟩ := exists_last (P := fun p => s.Writes p reg) ⟨p, hp, hwrites⟩
    rw [(h.isProducedBy reg q).mpr ⟨hq, hwrites, hlast⟩] at hnone
    cases hnone
  · intro hno
    cases hby : t.isProducedBy reg with
    | none => rfl
    | some q =>
      have hq := (h.isProducedBy reg q).mp hby
      exact absurd hq.writes (hno q hq.lt)

theorem Scanned.start (s : ParExeSequence V n) : Scanned s 0 (Tables.start n) := by
  constructor
  · intro reg producer
    exact iff_of_false nofun fun h => Nat.not_lt_zero _ h.lt
  · intro reg
    exact iff_of_false nofun fun ⟨_, h, _⟩ => Nat.not_lt_zero _ h
  · intro reg inst
    exact iff_of_false nofun fun h => Nat.not_lt_zero _ h.1
  · intro inst producer
    exact iff_of_false List.not_mem_nil fun h => Nat.not_lt_zero _ h.1

theorem reads_iff {i : ParExeInst V n} (hi : s.insts[k]? = some i) : s.Reads k reg ↔ reg ∈ i.readRegs := by
  simp [Reads, hi]

theorem writes_iff {i : ParExeInst V n} (hi : s.insts[k]? = some i) : s.Writes k reg ↔ reg ∈ i.writtenRegs := by
  simp [Writes, hi]

theorem lastWriter_succ : s.LastWriter (k + 1) reg producer ↔
    (s.Writes k reg ∧ producer = k) ∨ (¬ s.Writes k reg ∧ s.LastWriter k reg producer) := by
  constructor
  · intro h
    rcases Nat.lt_succ_iff_lt_or_eq.mp h.lt with hlt | rfl
    · exact .inr ⟨h.last k hlt (Nat.lt_succ_self k), hlt, h.writes, fun j hj hjk => h.last j hj (by omega)⟩
    · exact .inl ⟨h.writes, rfl⟩
  · rintro (⟨hwrites, rfl⟩ | ⟨hno, h⟩)
    · exact ⟨Nat.lt_succ_self _, hwrites, fun j hj hjk => absurd hjk (Nat.not_lt.mpr hj)⟩
    · refine ⟨h.lt.trans (Nat.lt_succ_self k), h.writes, fun j hj hjk => ?_⟩
      rcases Nat.lt_succ_iff_lt_or_eq.mp hjk with hjk | rfl
      · exact h.last j hj hjk
      · exact hno

theorem Scanned.step (h : Scanned s k t) {i : ParExeInst V n} (hi : s.insts[k]? = some i) :
    Scanned s (k + 1) (t.step (i, k)) := by
  classical
  have hreads := foldl_read t k i.readRegs
  unfold Tables.step
  set t' := i.readRegs.foldl (Tables.read k) t
  rw [foldl_write]
  have hinput : ∀ reg, reg ∈ i.readRegs ∧ t.isProducedBy reg = none ↔ s.InputRead k reg := by
    intro reg
    rw [h.isProducedBy_none, ← reads_iff hi]
    exact ⟨fun h => ⟨h.1, h.2⟩, fun h => ⟨h.reads, h.unwritten⟩⟩
  constructor
  · intro reg producer
    dsimp only
    rw [hreads.isProducedBy, lastWriter_succ, writes_iff hi]
    by_cases hmem : reg ∈ i.writtenRegs
    · simp [hmem, eq_comm]
    · simp [hmem, h.isProducedBy]
  · intro reg
    dsimp only
    rw [hreads.isInput, hinput, h.isInput]
    constructor
    · rintro (⟨inst, hlt, hread⟩ | hread)
      · exact ⟨inst, hlt.trans (Nat.lt_succ_self k), hread⟩
      · exact ⟨k, Nat.lt_succ_self k, hread⟩
    · rintro ⟨inst, hlt, hread⟩
      rcases Nat.lt_succ_iff_lt_or_eq.mp hlt with hlt | rfl
      · exact .inl ⟨inst, hlt, hread⟩
      · exact .inr hread
  · intro reg inst
    dsimp only
    rw [hreads.isInputFor, if_congr (hinput reg) rfl rfl]
    split
    case isTrue hread =>
      rw [Option.some.injEq]
      constructor
      · rintro rfl
        exact ⟨Nat.lt_succ_self k, hread, fun later hlater hlt => absurd hlt (Nat.not_lt.mpr hlater)⟩
      · rintro ⟨hlt, -, hlast⟩
        by_contra hne
        exact hlast k (by omega) (Nat.lt_succ_self k) hread
    case isFalse hno =>
      rw [h.isInputFor]
      constructor
      · rintro ⟨hlt, hread, hlast⟩
        refine ⟨hlt.trans (Nat.lt_succ_self k), hread, fun later hlater hltk => ?_⟩
        rcases Nat.lt_succ_iff_lt_or_eq.mp hltk with hltk | rfl
        · exact hlast later hlater hltk
        · exact hno
      · rintro ⟨hlt, hread, hlast⟩
        have hne : inst ≠ k := fun heq => hno (heq ▸ hread)
        exact ⟨by omega, hread, fun later hlater hltk => hlast later hlater (by omega)⟩
  · intro inst producer
    dsimp only
    rw [hreads.producing, h.producing]
    have hproduced : (∃ reg ∈ i.readRegs, t.isProducedBy reg = some producer) ↔
        ∃ reg, s.Reads k reg ∧ s.LastWriter k reg producer := by
      simp only [reads_iff hi, h.isProducedBy]
    constructor
    · rintro (⟨hlt, hdep⟩ | ⟨rfl, hdep⟩)
      · exact ⟨hlt.trans (Nat.lt_succ_self k), hdep⟩
      · exact ⟨Nat.lt_succ_self _, hproduced.mp hdep⟩
    · rintro ⟨hlt, hdep⟩
      rcases Nat.lt_succ_iff_lt_or_eq.mp hlt with hlt | rfl
      · exact .inl ⟨hlt, hdep⟩
      · exact .inr ⟨rfl, hproduced.mpr hdep⟩

theorem tables_scanned (s : ParExeSequence V n) : Scanned s s.insts.length s.tables := by
  suffices h : ∀ (l : List (ParExeInst V n)) (k : ℕ) (t : Tables n), s.insts.drop k = l → k ≤ s.insts.length →
      Scanned s k t → Scanned s s.insts.length ((l.zipIdx k).foldl Tables.step t) by
    exact h s.insts 0 _ (List.drop_zero) (Nat.zero_le _) (.start s)
  intro l
  induction l with
  | nil =>
    intro k t hdrop hle hscan
    have hk : k = s.insts.length := le_antisymm hle (List.drop_eq_nil_iff.mp hdrop)
    exact hk ▸ hscan
  | cons i l ih =>
    intro k t hdrop hle hscan
    have hi : s.insts[k]? = some i := by
      rw [← Nat.add_zero k, ← List.getElem?_drop, hdrop]
      rfl
    have hrest : s.insts.drop (k + 1) = l := by
      rw [← List.tail_drop, hdrop]
      rfl
    rw [List.zipIdx_cons, List.foldl_cons]
    exact ih (k + 1) _ hrest (List.getElem?_eq_some_iff.mp hi).1 (hscan.step hi)

/-! ### The resources of the inputs -/

theorem foldl_addResource (t : Tables n) (regs : List (Fin n)) (acc : List (RegResource n) × ℕ) :
    regs.foldl (addResource t) acc =
      (acc.1 ++ ((regs.filter t.isInput).zipIdx acc.2).map fun reg => newResource t reg.1 reg.2,
        acc.2 + (regs.filter t.isInput).length) := by
  induction regs generalizing acc with
  | nil => simp
  | cons reg regs ih =>
    rw [List.foldl_cons, ih, addResource]
    cases hinput : t.isInput reg with
    | true =>
      rw [if_pos rfl, List.filter_cons_of_pos hinput, List.zipIdx_cons, List.map_cons, List.length_cons,
        List.append_assoc, Nat.add_assoc, Nat.add_comm 1]
      rfl
    | false => rw [if_neg Bool.false_ne_true, List.filter_cons_of_neg (Bool.not_eq_true _ ▸ hinput)]

theorem getElem?_resources (s : ParExeSequence V n) (k i : ℕ) : (s.createSequenceResources k)[i]? =
    ((List.finRange n).filter s.tables.isInput)[i]?.map fun reg => newResource s.tables reg (k + i) := by
  rw [createSequenceResources, foldl_addResource, List.nil_append, List.getElem?_map, List.getElem?_zipIdx,
    Option.map_map]
  rfl

theorem mem_resources {res : RegResource n} : res ∈ s.createSequenceResources k ↔
    ∃ i, ((List.finRange n).filter s.tables.isInput)[i]? = some res.regIndex ∧
      res = newResource s.tables res.regIndex (k + i) := by
  constructor
  · intro hres
    obtain ⟨i, hi⟩ := List.mem_iff_getElem?.mp hres
    rw [getElem?_resources, Option.map_eq_some_iff] at hi
    obtain ⟨reg, hreg, rfl⟩ := hi
    exact ⟨i, hreg, rfl⟩
  · rintro ⟨i, hreg, heq⟩
    refine List.mem_iff_getElem?.mpr ⟨i, ?_⟩
    rw [getElem?_resources, hreg, heq]
    rfl

theorem existsUnique_resource (hinput : s.tables.isInput reg = true) (k : ℕ) :
    ∃! res, res ∈ s.createSequenceResources k ∧ res.regIndex = reg := by
  have hmem : reg ∈ (List.finRange n).filter s.tables.isInput :=
    List.mem_filter.mpr ⟨List.mem_finRange reg, hinput⟩
  obtain ⟨i, hi⟩ := List.mem_iff_getElem?.mp hmem
  refine ⟨newResource s.tables reg (k + i), ⟨mem_resources.mpr ⟨i, hi, rfl⟩, rfl⟩, ?_⟩
  rintro res ⟨hres, rfl⟩
  obtain ⟨j, hj, heq⟩ := mem_resources.mp hres
  have hnodup := (List.nodup_finRange n).filter s.tables.isInput
  have hij : j = i := (List.getElem?_inj (List.getElem?_eq_some_iff.mp hj).1 hnodup).mp (hj.trans hi.symm)
  exact hij ▸ heq

/-- The index of a resource is its place among the resources of the graph. -/
theorem getElem?_addResources {g : ParExeGraph V E} {res : RegResource n}
    (hres : res ∈ s.createSequenceResources g.numResources) :
    (s.addResources g).resources[res.index]? = some (s.resource res) := by
  obtain ⟨i, hi, heq⟩ := mem_resources.mp hres
  have hindex : res.index = g.resources.length + i := by
    rw [heq]
    rfl
  rw [addResources, hindex, List.getElem?_append_right (Nat.le_add_right _ _), Nat.add_sub_cancel_left,
    List.getElem?_map, getElem?_resources, hi, Option.map_some, Option.map_some, ← heq]

theorem initial_iff {g : ParExeGraph V E} {res : RegResource n} {node : V}
    (hres : res ∈ s.createSequenceResources g.numResources) :
    (s.addResources g).Initial res.index node ↔ ∃ inst ∈ res.usingInsts, node ∈ s.executeNodes inst := by
  simp only [ParExeGraph.Initial, getElem?_addResources hres, Option.some.injEq, exists_eq_left', resource,
    Resource.nodes, List.mem_flatMap]

theorem InputRead.lt (h : s.InputRead inst reg) : inst < s.insts.length := by
  obtain ⟨i, hi, -⟩ := h.reads
  exact (List.getElem?_eq_some_iff.mp hi).1

/-- The only instruction recorded for a register is the last one that reads it before its first write. -/
theorem usingInsts_eq {res : RegResource n} (hres : res ∈ s.createSequenceResources k) :
    ∃ last, res.usingInsts = [last] ∧ s.InputRead last res.regIndex ∧
      ∀ later, last < later → ¬ s.InputRead later res.regIndex := by
  obtain ⟨i, hi, heq⟩ := mem_resources.mp hres
  have hinput := (List.mem_filter.mp (List.mem_of_getElem? hi)).2
  obtain ⟨last, hlt, hread, hlast⟩ := exists_last ((s.tables_scanned.isInput res.regIndex).mp hinput)
  have hfor := (s.tables_scanned.isInputFor res.regIndex last).mpr ⟨hlt, hread, hlast⟩
  refine ⟨last, ?_, hread, fun later hlater hinput => hlast later hlater hinput.lt hinput⟩
  rw [heq, newResource, hfor]
  rfl

theorem executeNodes_disjoint {later : ℕ} {node : V} (hlt : inst < later) (hnode : node ∈ s.executeNodes inst) :
    node ∉ s.executeNodes later := by
  intro hlater
  have hmem := (List.mem_filter.mp hnode).1
  have hmem' := (List.mem_filter.mp hlater).1
  cases hi : s.insts[inst]? with
  | none => simp [hi] at hmem
  | some i =>
    cases hj : s.insts[later]? with
    | none => simp [hj] at hmem'
    | some j =>
      rw [hi] at hmem
      rw [hj] at hmem'
      obtain ⟨hinst, rfl⟩ := List.getElem?_eq_some_iff.mp hi
      obtain ⟨hother, rfl⟩ := List.getElem?_eq_some_iff.mp hj
      exact List.pairwise_iff_getElem.mp s.disjoint inst later hinst hother hlt hmem hmem'

variable [DecidableEq V]

/-- The availability of a register is ignored by the execution nodes of an instruction that reads it before the last
one does. -/
theorem complete_iff (s : ParExeSequence V n) (g : ParExeGraph V E) : s.Complete g ↔ s.LastReaders := by
  constructor
  · intro hcomplete reg inst later hread hlater hlt
    refine List.eq_nil_iff_forall_not_mem.mpr fun node hnode => ?_
    obtain ⟨res, ⟨hres, hreg⟩, -⟩ := hcomplete.resource reg ⟨inst, hread⟩
    have hzero := hcomplete.available reg inst hread node hnode res hres hreg fun _ _ => -1
    rw [ParExeGraph.initDelays_apply] at hzero
    split at hzero
    case isFalse => exact absurd hzero (by decide)
    case isTrue hinitial =>
      obtain ⟨last, husing, -, hlast⟩ := usingInsts_eq hres
      rw [initial_iff hres, husing] at hinitial
      obtain ⟨inst', hinst', hnode'⟩ := hinitial
      rw [List.mem_singleton.mp hinst'] at hnode'
      have hle : later ≤ last := by
        by_contra hno
        exact hlast later (Nat.lt_of_not_le hno) (hreg ▸ hlater)
      exact executeNodes_disjoint (hlt.trans_le hle) hnode hnode'
  · intro hlastReaders
    constructor
    · intro inst producer
      rw [s.tables_scanned.producing]
      refine and_iff_right_of_imp ?_
      rintro ⟨reg, ⟨i, hi, -⟩, -⟩
      exact (List.getElem?_eq_some_iff.mp hi).1
    · rintro reg ⟨inst, hread⟩
      exact existsUnique_resource ((s.tables_scanned.isInput reg).mpr ⟨inst, hread.lt, hread⟩) _
    · rintro reg inst hread node hnode res hres rfl d
      obtain ⟨last, husing, hlastRead, hlast⟩ := usingInsts_eq hres
      rw [ParExeGraph.initDelays_apply, if_pos]
      rw [initial_iff hres, husing]
      refine ⟨inst, List.mem_singleton.mpr ?_, hnode⟩
      rcases lt_trichotomy inst last with hlt | heq | hgt
      · rw [hlastReaders res.regIndex inst last hread hlastRead hlt] at hnode
        exact absurd hnode List.not_mem_nil
      · exact heq
      · exact absurd hread (hlast inst hgt)

theorem neZero_one : NeZero 1 := ⟨by decide⟩

attribute [local instance] neZero_one in
/-- Two instructions that read the same register, each with one execution node. -/
def twoReaders : ParExeSequence Bool 1 where
  insts := [⟨[0], [], [false]⟩, ⟨[0], [], [true]⟩]
  category _ := .execute
  disjoint := List.pairwise_pair.mpr (by simp)

/-- The first instruction does not wait for the register. -/
theorem first_reader_ignored : ¬ twoReaders.Complete ParExeGraph.straight ∧
    (twoReaders.addResources ParExeGraph.straight).initDelays (fun _ _ => -1) true 1 = 0 ∧
    (twoReaders.addResources ParExeGraph.straight).initDelays (fun _ _ => -1) false 1 = -1 := by
  refine ⟨fun hcomplete => ?_, by decide, by decide⟩
  have hinput : ∀ inst, twoReaders.Reads inst 0 → twoReaders.InputRead inst 0 := by
    refine fun inst hreads => ⟨hreads, fun k _ hwrites => ?_⟩
    obtain ⟨i, hi, hreg⟩ := hwrites
    match k, hi with
    | 0, hi =>
      cases hi
      cases hreg
    | 1, hi =>
      cases hi
      cases hreg
  have hfirst := hinput 0 ⟨_, rfl, List.mem_cons_self⟩
  have hzero := hcomplete.available 0 0 hfirst false (by decide) ⟨"r0", 0, 1, [1]⟩ (by decide) rfl fun _ _ => -1
  exact absurd hzero (by decide)

end ParExeSequence

end Otawa
