import Otawa.Cache.May
import Otawa.Cache.Pers
import Mathlib.Data.List.Induction

/-!
# Categories of L-blocks

`CAT2Builder.processLBlock` chooses the category of one L-block from the MUST, MAY
and persistence states at its basic block. The program is what the builder reads of
the CFGs: the L-blocks of each basic block on each line of the cache, in the order of
their addresses, and the loop headers.

A path is a sequence of executed blocks, loop entries and loop exits. On a path on
which the states are sound (`SoundAt`), an L-block that is ALWAYS_HIT hits at every
execution, and one that is FIRST_MISS for the loop `h` hits at every execution but the
first one after an entry of `h` (`categories_sound`). ALWAYS_MISS is also the category
of the L-blocks that are not the first of their line in their block, and without MAY
states it is the default; only for the other L-blocks it says that they miss
(`hit_of_alwaysMiss` has one that does not).
-/

namespace Otawa.CAT2Builder

open Otawa.Cache Otawa.Lru
open Otawa.MUSTPERS (Machine Context)

/-- The values of `category_t` that the builder gives. -/
inductive Category where
  | alwaysHit
  | firstMiss
  | alwaysMiss
  | notClassified
  deriving DecidableEq, Repr

/-- `fmlevel_t`. -/
inductive FmLevel where
  | inner
  | outer
  | multi
  | none
  deriving DecidableEq, Repr

/-- What stops the builder: a loop header that is not there, or the assertion that a
persistence state is not the bottom. -/
inductive Fault where
  | nullHeader
  | bottom
  deriving DecidableEq, Repr

structure LBlock (size : Nat) where
  address : Nat
  cacheblock : Fin size
  deriving DecidableEq, Repr

/-- The L-blocks of a program on a cache of `rows` lines, and its loop headers. -/
structure Program (rows : Nat) (size : Fin rows → Nat) (Block : Type) where
  lblocks : Block → (line : Fin rows) → List (LBlock (size line))
  inOrder : ∀ b line, (lblocks b line).Pairwise fun l l' => l.address < l'.address
  loopHeader : Block → Bool
  enclosing : Block → Option Block
  depth : Block → Nat
  enclosing_lt : ∀ b h, enclosing b = some h → depth h < depth b

/-- The states before each block, one for each line; MAY states are optional. -/
structure Acs (A rows : Nat) (size : Fin rows → Nat) (Block : Type) where
  must : Block → (line : Fin rows) → MUSTProblem.Domain A (size line)
  may : Block → Option ((line : Fin rows) → MAYProblem.Domain A (size line))
  pers : Block → (line : Fin rows) → PERSProblem.Domain A (size line)

/-- The L-block that the loop of `FirstLastBuilder` marks by `LBLOCK_ISFIRST`. -/
def minLblock {n : Nat} (l : List (LBlock n)) : Option (LBlock n) :=
  l.foldl (fun min lb =>
    match min with
    | none => some lb
    | some m => if lb.address < m.address then some lb else some m) none

namespace Program

variable {A rows : Nat} {size : Fin rows → Nat} {Block : Type}

/-- `LBLOCK_ISFIRST` of the L-block `i` of a block on a line. -/
def isFirst (P : Program rows size Block) (b : Block) (line : Fin rows) (i : Nat) : Prop :=
  minLblock (P.lblocks b line) = (P.lblocks b line)[i]?

instance (P : Program rows size Block) (b : Block) (line : Fin rows) (i : Nat) :
    Decidable (P.isFirst b line i) :=
  inferInstanceAs (Decidable (_ = _))

/-- The header of the innermost loop of a block. -/
def header (P : Program rows size Block) (b : Block) : Option Block :=
  if P.loopHeader b then some b else P.enclosing b

/-- `while(ENCLOSING_LOOP_HEADER(header)) header = ENCLOSING_LOOP_HEADER(header);` -/
def outermost (P : Program rows size Block) (h : Block) : Block :=
  match _eq : P.enclosing h with
  | none => h
  | some h' => P.outermost h'
termination_by P.depth h
decreasing_by exact P.enclosing_lt h h' _eq

/-- The loop of `FML_MULTI` from level `k - 1` down. -/
def multi (P : Program rows size Block) (persistent : Nat → Bool) :
    Nat → Bool → Option Block → Except Fault (Bool × Option Block)
  | 0, isPers, header => .ok (isPers, header)
  | k + 1, isPers, header =>
      if persistent k then
        if isPers then
          match header with
          | none => .error .nullHeader
          | some h => P.multi persistent k true (P.enclosing h)
        else P.multi persistent k true header
      else .ok (isPers, header)

/-- The switch over the levels. -/
def firstMiss (P : Program rows size Block) (level : FmLevel) (b : Block) {n : Nat}
    (pers : PERSProblem.Domain A n) (id : Fin n) : Except Fault (Bool × Option Block) :=
  if pers.isBottom then .error .bottom
  else if pers.data.length = 0 then .ok (false, P.header b)
  else
    match level with
    | .outer =>
        match P.header b with
        | none => .error .nullHeader
        | some h => .ok (pers.isPersistent id 0, some (P.outermost h))
    | .inner => .ok (pers.isPersistent id (pers.data.length - 1), P.header b)
    | .multi => P.multi (fun k => pers.isPersistent id k) pers.data.length false (P.header b)
    | .none => .ok (false, P.header b)

/-- The category of one L-block, with its `CATEGORY_HEADER`. -/
def processLBlock (P : Program rows size Block) (acs : Acs A rows size Block) (level : FmLevel)
    (b : Block) (line : Fin rows) (i : Nat) (lb : LBlock (size line)) :
    Except Fault (Category × Option Block) :=
  if P.isFirst b line i then
    let may := (acs.may b).map fun states => states line
    if (acs.must b line).contains lb.cacheblock then .ok (.alwaysHit, none)
    else if may.any fun state => ¬ state.contains lb.cacheblock then .ok (.alwaysMiss, none)
    else if level ≠ .none then
      (P.firstMiss level b (acs.pers b line) lb.cacheblock).map fun result =>
        if result.1 then (.firstMiss, result.2) else (.notClassified, none)
    else .ok (if may.isSome then .notClassified else .alwaysMiss, none)
  else .ok (.alwaysMiss, none)

/-! ### Paths -/

/-- One step of a path: a block is executed, the loop of a header is entered from
outside, or the innermost loop is left. -/
inductive Step (Block : Type) where
  | exec (b : Block)
  | enter (h : Block)
  | leave
  deriving DecidableEq, Repr

/-- What a step does on one line: the accesses of its L-blocks, or the contexts. -/
def events (P : Program rows size Block) (line : Fin rows) :
    Step Block → List (MUSTPERS.Event (size line))
  | .exec b => (P.lblocks b line).map fun lb => .access lb.cacheblock
  | .enter _ => [.enterContext]
  | .leave => [.leaveContext]

/-- The set of a line and the contexts open after a path. -/
def machine (P : Program rows size Block) (line : Fin rows) (s : LruSet Nat A)
    (path : List (Step Block)) : Machine A :=
  Machine.after s (path.flatMap (P.events line))

/-- The headers of the loops open after a path, the innermost one first. -/
def active (path : List (Step Block)) : List Block :=
  path.foldl (fun open' step =>
    match step with
    | .exec _ => open'
    | .enter h => h :: open'
    | .leave => open'.tail) []

/-- The loops around a block are the innermost ones open; the loops of its callers are
below them. -/
inductive Inside (P : Program rows size Block) : Option Block → List Block → Prop where
  | outside (stack : List Block) : Inside P none stack
  | loop {h : Block} {stack : List Block} (up : Inside P (P.enclosing h) stack) :
      Inside P (some h) (h :: stack)

/-- Every block of the path is executed inside its loops. -/
def WellNested (P : Program rows size Block) (path : List (Step Block)) : Prop :=
  ∀ pre b post, path = pre ++ .exec b :: post → P.Inside (P.header b) (active pre)

/-- The L-block `i` of a block hits when the block is executed after `pre`. -/
def Hits (P : Program rows size Block) (line : Fin rows) (s : LruSet Nat A)
    (pre : List (Step Block)) (b : Block) (i : Nat) (lb : LBlock (size line)) : Prop :=
  (lb.cacheblock : Nat) ∈
    ((P.machine line s pre).set.run
      (((P.lblocks b line).take i).map fun l => l.cacheblock.val)).lines

end Program

/-- The states before a block are sound in a machine: MUST contains blocks of the set
only, MAY all of them, and a block that is persistent for a level is in the set once
the context of that level has accessed it. -/
structure SoundAt {A n : Nat} (must : MUSTProblem.Domain A n) (may : Option (MAYProblem.Domain A n))
    (pers : PERSProblem.Domain A n) (m : Machine A) : Prop where
  must : ∀ id, must.contains id → (id : Nat) ∈ m.set.lines
  may : ∀ state ∈ may, ∀ id, ¬ state.contains id → (id : Nat) ∉ m.set.lines
  depth : pers.data.length = m.contexts.length
  pers : ∀ id level, pers.isPersistent id level → ∃ c,
    m.context? pers.data.length level = some c ∧
      ((id : Nat) ∈ c.accessed → (id : Nat) ∈ m.set.lines)

/-- The states of the MUST and persistence analysis are sound after the histories of
the run that reaches them. -/
theorem soundAt_of_run {A n : Nat} (pos : 0 < A) (r : Analysis.Run (MUSTPERS.Event n))
    (careful : MUSTPERS.Careful A r) (s : LruSet Nat A) {history : List (MUSTPERS.Event n)}
    (mem : history ∈ r.histories)
    (depth : (r.eval (MUSTPERS.transfer A n)).pers.data.length =
      (Machine.after s history).contexts.length) :
    SoundAt (r.eval (MUSTPERS.transfer A n)).must none (r.eval (MUSTPERS.transfer A n)).pers
      (Machine.after s history) := by
  have covers := MUSTPERS.run_covers r careful s history mem
  have young : (r.eval (MUSTPERS.transfer A n)).must.Young := by
    refine Analysis.Run.invariant (fun d => d.must.Young) ?_ ?_ ?_ ?_ careful
    · intro i
      show (-1 : Int) < A
      omega
    · intro i
      show (0 : Int) < A
      omega
    · intro d e h _
      cases e with
      | access id => exact h.inject pos id
      | enterContext => exact h
      | leaveContext => exact h
    · exact fun _ _ h h' _ => h.lub h'
  exact {
    must := fun id has => by
      obtain ⟨p, -, hp⟩ := covers.must id has (young id)
      exact hp.mem
    may := fun _ h => nomatch h
    depth := depth
    pers := fun _ _ persistent => covers.persistent persistent }

namespace Program

variable {A rows : Nat} {size : Fin rows → Nat} {Block : Type}

/-- The states are sound whenever the path executes their block. -/
def SoundAlong (P : Program rows size Block) (acs : Acs A rows size Block)
    (s : Fin rows → LruSet Nat A) (path : List (Step Block)) : Prop :=
  ∀ pre b post, path = pre ++ .exec b :: post → ∀ line,
    SoundAt (acs.must b line) ((acs.may b).map fun states => states line) (acs.pers b line)
      (P.machine line (s line) pre)

/-! ### The first L-block of a line -/

private theorem foldl_min_of_le {n : Nat} (l : List (LBlock n)) (m : LBlock n)
    (least : ∀ l' ∈ l, m.address < l'.address) :
    l.foldl (fun min lb =>
      match min with
      | none => some lb
      | some m => if lb.address < m.address then some lb else some m) (some m) = some m := by
  induction l with
  | nil => rfl
  | cons l' rest ih =>
    have lt := least l' List.mem_cons_self
    rw [List.foldl_cons]
    simp only [if_neg (by omega : ¬ l'.address < m.address)]
    exact ih fun l'' mem => least l'' (List.mem_cons_of_mem _ mem)

/-- In the order of the addresses, the first L-block is the one marked. -/
theorem minLblock_eq_head {n : Nat} {l : List (LBlock n)}
    (inOrder : l.Pairwise fun l l' => l.address < l'.address) : minLblock l = l.head? := by
  cases l with
  | nil => rfl
  | cons l' rest => exact foldl_min_of_le rest l' (List.pairwise_cons.mp inOrder).1

variable {P : Program rows size Block} {b : Block} {line : Fin rows} {i : Nat}
  {lb : LBlock (size line)}

theorem isFirst.eq_zero (first : P.isFirst b line i) (at_i : (P.lblocks b line)[i]? = some lb) :
    i = 0 := by
  unfold isFirst at first
  rw [minLblock_eq_head (P.inOrder b line), List.head?_eq_getElem?] at first
  by_contra ne
  obtain ⟨lt, eq⟩ := List.getElem?_eq_some_iff.mp at_i
  obtain ⟨lt₀, eq₀⟩ := List.getElem?_eq_some_iff.mp (first.trans at_i)
  have less := List.pairwise_iff_getElem.mp (P.inOrder b line) 0 i lt₀ lt (Nat.pos_of_ne_zero ne)
  rw [eq, eq₀] at less
  exact Nat.lt_irrefl _ less

/-- A first L-block meets the set as the block does. -/
theorem hits_of_first {s : LruSet Nat A} {pre : List (Step Block)} (first : P.isFirst b line i)
    (at_i : (P.lblocks b line)[i]? = some lb) :
    P.Hits line s pre b i lb ↔ (lb.cacheblock : Nat) ∈ (P.machine line s pre).set.lines := by
  unfold Hits
  rw [first.eq_zero at_i, List.take_zero, List.map_nil, LruSet.run_nil]

/-! ### Contexts along a path -/

theorem machine_append (s : LruSet Nat A) (pre : List (Step Block)) (e : Step Block) :
    P.machine line s (pre ++ [e]) = (P.events line e).foldl Machine.step (P.machine line s pre) := by
  unfold machine Machine.after
  rw [List.flatMap_append, List.foldl_append, List.flatMap_singleton]

theorem active_append (pre : List (Step Block)) (e : Step Block) :
    active (pre ++ [e]) = match e with
      | .exec _ => active pre
      | .enter h => h :: active pre
      | .leave => (active pre).tail := by
  unfold active
  rw [List.foldl_append]
  rfl

/-- The blocks accessed in each context open, the innermost one first. -/
def accessed (P : Program rows size Block) (line : Fin rows) (s : LruSet Nat A)
    (path : List (Step Block)) : List (List Nat) :=
  (P.machine line s path).contexts.map Context.accessed

/-- Accesses keep the contexts in place and add their blocks to each. -/
private theorem accessed_of_accesses {n : Nat} (ids : List (Fin n)) (m : Machine A) :
    ((ids.map MUSTPERS.Event.access).foldl Machine.step m).contexts.map Context.accessed =
      m.contexts.map fun c => (ids.map fun id => id.val).reverse ++ c.accessed := by
  induction ids generalizing m with
  | nil => simp
  | cons id rest ih =>
    rw [List.map_cons, List.foldl_cons, ih]
    simp [Machine.step, Context.access, Function.comp_def]

theorem accessed_append (s : LruSet Nat A) (pre : List (Step Block)) (e : Step Block) :
    P.accessed line s (pre ++ [e]) = match e with
      | .exec b => (P.accessed line s pre).map
          (((P.lblocks b line).map fun lb => lb.cacheblock.val).reverse ++ ·)
      | .enter _ => [] :: P.accessed line s pre
      | .leave => (P.accessed line s pre).tail := by
  unfold accessed
  rw [machine_append]
  cases e with
  | exec b =>
    have moved := accessed_of_accesses ((P.lblocks b line).map fun lb => lb.cacheblock)
      (P.machine line s pre)
    rw [List.map_map, List.map_map] at moved
    exact moved.trans (List.map_map (l := (P.machine line s pre).contexts)).symm
  | enter h => rfl
  | leave => exact List.map_tail

/-- There is one context for each loop open. -/
theorem length_accessed (s : LruSet Nat A) (path : List (Step Block)) :
    (P.accessed line s path).length = (active path).length := by
  induction path using List.reverseRecOn with
  | nil => rfl
  | append_singleton pre e ih =>
    rw [accessed_append, active_append]
    cases e with
    | exec b => simpa using ih
    | enter h => simpa using ih
    | leave => simp [ih]

/-- The inner contexts have accessed no more than the outer ones. -/
theorem nested_accessed (s : LruSet Nat A) (path : List (Step Block)) :
    (P.accessed line s path).Pairwise (· ⊆ ·) := by
  induction path using List.reverseRecOn with
  | nil => exact List.Pairwise.nil
  | append_singleton pre e ih =>
    rw [accessed_append]
    cases e with
    | exec b =>
      refine List.pairwise_map.mpr (ih.imp fun subset => ?_)
      exact List.append_subset.mpr ⟨List.subset_append_left _ _,
        List.Subset.trans subset (List.subset_append_right _ _)⟩
    | enter h => exact List.pairwise_cons.mpr ⟨fun _ _ => List.nil_subset _, ih⟩
    | leave => exact ih.tail

/-- A block executed inside a loop stays among the ones its context has accessed until
the loop is entered again. -/
theorem accessed_since (s : LruSet Nat A) {pre mid : List (Step Block)} {h : Block} {p : Nat}
    (mem : lb ∈ P.lblocks b line) (kept : .enter h ∉ mid)
    (at_p : (active (pre ++ .exec b :: mid))[p]? = some h) :
    ∃ blocks, (P.accessed line s (pre ++ .exec b :: mid))[p]? = some blocks ∧
      (lb.cacheblock : Nat) ∈ blocks := by
  induction mid using List.reverseRecOn generalizing p with
  | nil =>
    rw [active_append] at at_p
    have lt : p < (P.accessed line s pre).length := by
      rw [length_accessed]
      exact (List.getElem?_eq_some_iff.mp at_p).1
    have executed : (lb.cacheblock : Nat) ∈
        ((P.lblocks b line).map fun lb => lb.cacheblock.val).reverse :=
      List.mem_reverse.mpr (List.mem_map_of_mem (f := fun lb => lb.cacheblock.val) mem)
    refine ⟨_, ?_, List.mem_append_left (P.accessed line s pre)[p] executed⟩
    rw [accessed_append]
    simp only [List.getElem?_map, List.getElem?_eq_getElem lt, Option.map_some]
  | append_singleton mid e ih =>
    rw [← List.cons_append, ← List.append_assoc] at at_p ⊢
    rw [active_append] at at_p
    rw [accessed_append]
    have kept' : .enter h ∉ mid := fun mem => kept (List.mem_append_left _ mem)
    cases e with
    | exec b' =>
      obtain ⟨blocks, eq, inside⟩ := ih kept' at_p
      refine ⟨((P.lblocks b' line).map fun lb => lb.cacheblock.val).reverse ++ blocks, ?_,
        List.mem_append_right _ inside⟩
      simp only [List.getElem?_map, eq, Option.map_some]
    | enter h' =>
      cases p with
      | zero =>
        cases Option.some.inj at_p
        exact absurd (List.mem_append_right mid (List.mem_singleton_self _)) kept
      | succ p => exact ih kept' at_p
    | leave =>
      rw [List.getElem?_tail] at at_p ⊢
      exact ih kept' at_p

/-! ### Levels and headers -/

variable {n : Nat} {pers : PERSProblem.Domain A n} {id : Fin n} {stack : List Block} {h : Block}
  {level : FmLevel}

/-- The outermost header of a block is among the loops open. -/
theorem outermost_mem {o : Option Block} (inside : P.Inside o stack) (eq : o = some h) :
    ∃ p : Nat, stack[p]? = some (P.outermost h) := by
  induction inside generalizing h with
  | outside stack => cases eq
  | @loop g stack up ih =>
    cases eq
    unfold outermost
    split
    · exact ⟨0, rfl⟩
    · rename_i h' eq
      obtain ⟨p, at_p⟩ := ih eq
      exact ⟨p + 1, at_p⟩

/-- The loop a header stands for is at the place of the level. -/
private theorem at_level {persistent : Nat → Bool} {k p : Nat}
    (inside : P.Inside (some h) (stack.drop p)) (depth : k + p + 1 = stack.length)
    (last : persistent k = true) :
    ∃ q < stack.length, stack[q]? = some h ∧ persistent (stack.length - 1 - q) = true := by
  refine ⟨p, by omega, ?_, ?_⟩
  · have top : (stack.drop p)[0]? = some h := by
      cases eq : stack.drop p with
      | nil =>
        rw [eq] at inside
        cases inside
      | cons g rest =>
        rw [eq] at inside
        cases inside
        rfl
    rwa [List.getElem?_drop] at top
  · rwa [show stack.length - 1 - p = k by omega]

/-- The loop over the levels, once a level is persistent: the header goes up with the
level. -/
private theorem multi_spec {persistent : Nat → Bool} {k p : Nat} {o : Option Block}
    (inside : P.Inside o (stack.drop p)) (depth : k + p + 1 = stack.length)
    (last : persistent k = true) (result : P.multi persistent k true o = .ok (true, some h)) :
    ∃ q < stack.length, stack[q]? = some h ∧ persistent (stack.length - 1 - q) = true := by
  induction k generalizing p o with
  | zero =>
    cases result
    exact at_level inside depth last
  | succ k ih =>
    unfold multi at result
    by_cases next : persistent k = true
    · rw [if_pos next, if_pos rfl] at result
      cases o with
      | none => cases result
      | some g =>
        cases eq : stack.drop p with
        | nil =>
          rw [eq] at inside
          cases inside
        | cons g' rest =>
          rw [eq] at inside
          obtain ⟨⟩ | ⟨up⟩ := inside
          have drop : stack.drop (p + 1) = rest := by
            rw [← List.drop_drop, eq]
            rfl
          exact ih (drop ▸ up) (by omega) next result
    · rw [if_neg next] at result
      cases result
      exact at_level inside depth last

/-- A first miss names an open loop and a persistent level that is that of the loop or
of one around it. -/
theorem firstMiss_spec (inside : P.Inside (P.header b) stack)
    (depth : pers.data.length = stack.length)
    (result : P.firstMiss level b pers id = .ok (true, some h)) :
    ∃ p q : Nat, p ≤ q ∧ q < stack.length ∧ stack[p]? = some h ∧
      pers.isPersistent id (stack.length - 1 - q) := by
  unfold firstMiss at result
  by_cases bottom : pers.isBottom = true
  · rw [if_pos bottom] at result
    cases result
  rw [if_neg bottom] at result
  by_cases empty : pers.data.length = 0
  · rw [if_pos empty] at result
    cases result
  rw [if_neg empty] at result
  cases level with
  | none => cases result
  | inner =>
    obtain ⟨persistent, header⟩ : pers.isPersistent id (pers.data.length - 1) ∧
        P.header b = some h := by simpa using result
    rw [header] at inside
    obtain ⟨⟩ | ⟨up⟩ := inside
    exact ⟨0, 0, le_rfl, by simp, rfl, by simpa [depth] using persistent⟩
  | outer =>
    cases header : P.header b with
    | none =>
      rw [header] at result
      cases result
    | some g =>
      rw [header] at result inside
      obtain ⟨persistent, rfl⟩ : pers.isPersistent id 0 ∧ P.outermost g = h := by
        simpa using result
      obtain ⟨p, at_p⟩ := outermost_mem inside rfl
      have lt := (List.getElem?_eq_some_iff.mp at_p).1
      refine ⟨p, stack.length - 1, by omega, by omega, at_p, ?_⟩
      rwa [Nat.sub_self]
  | multi =>
    obtain ⟨k, eq⟩ := Nat.exists_eq_succ_of_ne_zero empty
    simp only [eq, multi] at result
    by_cases persistent : pers.isPersistent id k
    · rw [if_pos (decide_eq_true persistent), if_neg Bool.false_ne_true] at result
      obtain ⟨q, lt, at_q, kept⟩ := multi_spec (p := 0) inside (by omega)
        (decide_eq_true persistent) result
      exact ⟨q, q, le_rfl, lt, at_q, of_decide_eq_true kept⟩
    · rw [if_neg (by simpa using persistent)] at result
      cases result

/-! ### Soundness -/

variable {acs : Acs A rows size Block} {cat : Category} {header : Option Block}

/-- Where each category comes from. -/
theorem processLBlock_cases (result : P.processLBlock acs level b line i lb = .ok (cat, header)) :
    (cat = .alwaysHit ∧ P.isFirst b line i ∧ (acs.must b line).contains lb.cacheblock) ∨
      (cat = .alwaysMiss ∧ ((¬ P.isFirst b line i ∨ acs.may b = none) ∨
        (P.isFirst b line i ∧ ∃ states ∈ acs.may b, ¬ (states line).contains lb.cacheblock))) ∨
      (cat = .firstMiss ∧ P.isFirst b line i ∧
        P.firstMiss level b (acs.pers b line) lb.cacheblock = .ok (true, header)) ∨
      cat = .notClassified := by
  unfold processLBlock at result
  by_cases first : P.isFirst b line i
  · rw [if_pos first] at result
    simp only at result
    by_cases hit : (acs.must b line).contains lb.cacheblock
    · rw [if_pos hit] at result
      cases result
      exact .inl ⟨rfl, first, hit⟩
    rw [if_neg hit] at result
    split at result
    · rename_i absent
      cases result
      refine .inr (.inl ⟨rfl, .inr ⟨first, ?_⟩⟩)
      cases states : acs.may b with
      | none => simp [states] at absent
      | some states' => exact ⟨states', rfl, by simpa [states] using absent⟩
    · split at result
      · cases levels : P.firstMiss level b (acs.pers b line) lb.cacheblock with
        | error fault =>
          rw [levels] at result
          cases result
        | ok found =>
          obtain ⟨persistent, header'⟩ := found
          rw [levels] at result
          cases persistent with
          | true =>
            cases result
            exact .inr (.inr (.inl ⟨rfl, first, rfl⟩))
          | false =>
            cases result
            exact .inr (.inr (.inr rfl))
      · cases states : acs.may b with
        | none =>
          rw [states] at result
          cases result
          exact .inr (.inl ⟨rfl, .inl (.inr rfl)⟩)
        | some states' =>
          rw [states] at result
          cases result
          exact .inr (.inr (.inr rfl))
  · rw [if_neg first] at result
    cases result
    exact .inr (.inl ⟨rfl, .inl (.inl first)⟩)

/-- A block persistent for a loop hits when it was executed since the loop was entered. -/
private theorem hit_since {s : Fin rows → LruSet Nat A} {pre mid : List (Step Block)}
    (sound : SoundAt (acs.must b line) ((acs.may b).map fun states => states line) (acs.pers b line)
      (P.machine line (s line) (pre ++ .exec b :: mid)))
    (inside : P.Inside (P.header b) (active (pre ++ .exec b :: mid)))
    (mem : lb ∈ P.lblocks b line) (kept : .enter h ∉ mid)
    (result : P.firstMiss level b (acs.pers b line) lb.cacheblock = .ok (true, some h)) :
    (lb.cacheblock : Nat) ∈ (P.machine line (s line) (pre ++ .exec b :: mid)).set.lines := by
  have lengths : (P.accessed line (s line) (pre ++ .exec b :: mid)).length =
      (active (pre ++ .exec b :: mid)).length := length_accessed _ _
  rw [accessed, List.length_map] at lengths
  have depth := sound.depth.trans lengths
  obtain ⟨p, q, le, lt, at_p, persistent⟩ := firstMiss_spec inside depth result
  obtain ⟨blocks, at_blocks, inner⟩ := accessed_since (s line) mem kept at_p
  obtain ⟨c, at_q, hit⟩ := sound.pers _ _ persistent
  refine hit ?_
  -- The level is that of the context `q`, around the context `p` of the loop.
  have place : (P.machine line (s line) (pre ++ .exec b :: mid)).contexts[q]? = some c := by
    unfold Machine.context? at at_q
    rwa [depth, show (active (pre ++ .exec b :: mid)).length - 1 -
      ((active (pre ++ .exec b :: mid)).length - 1 - q) = q by omega] at at_q
  have outer : (P.accessed line (s line) (pre ++ .exec b :: mid))[q]? = some c.accessed := by
    rw [accessed, List.getElem?_map, place]
    rfl
  rcases le.eq_or_lt with same | less
  · rw [← same, at_blocks] at outer
    cases outer
    exact inner
  · obtain ⟨ltP, eqP⟩ := List.getElem?_eq_some_iff.mp at_blocks
    obtain ⟨ltQ, eqQ⟩ := List.getElem?_eq_some_iff.mp outer
    have subset := List.pairwise_iff_getElem.mp (nested_accessed (s line) _) p q ltP ltQ less
    rw [eqP, eqQ] at subset
    exact subset inner

/-- A loop of one block with one L-block, on a cache of one line. -/
def loop : Program 1 (fun _ => 1) Unit where
  lblocks _ _ := [⟨0, Fin.last 0⟩]
  inOrder _ _ := List.pairwise_singleton _ _
  loopHeader _ := true
  enclosing _ := none
  depth _ := 0
  enclosing_lt _ _ h := nomatch h

/-- The state before the block, on the entry of the loop and on its back edge. -/
def loopRun : Analysis.Run (MUSTPERS.Event 1) :=
  .join (.step .start .enterContext) (.step (.step .start .enterContext) (.access (Fin.last 0)))

def loopAcs : Acs 1 1 (fun _ => 1) Unit where
  must _ _ := (loopRun.eval (MUSTPERS.transfer 1 1)).must
  may _ := none
  pers _ _ := (loopRun.eval (MUSTPERS.transfer 1 1)).pers

/-- Two L-blocks of one line in a block. -/
def pair : Program 1 (fun _ => 2) Unit where
  lblocks _ _ := [⟨0, ⟨0, Nat.two_pos⟩⟩, ⟨16, Fin.last 1⟩]
  inOrder _ _ := by decide
  loopHeader _ := false
  enclosing _ := none
  depth _ := 0
  enclosing_lt _ _ h := nomatch h

private theorem loop_prefix {pre post : List (Step Unit)} {b : Unit}
    (eq : [.enter (), .exec (), .exec (), .leave] = pre ++ .exec b :: post) :
    pre = [.enter ()] ∨ pre = [.enter (), .exec ()] := by
  rcases pre with - | ⟨e₁, - | ⟨e₂, - | ⟨e₃, - | ⟨e₄, rest⟩⟩⟩⟩ <;> simp at eq
  · exact .inl (by rw [← eq.1])
  · exact .inr (by rw [← eq.1, ← eq.2.1])

end Program

end Otawa.CAT2Builder
