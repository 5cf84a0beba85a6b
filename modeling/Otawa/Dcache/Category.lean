import Otawa.Cache.Category
import Otawa.Dcache.May
import Otawa.Dcache.Must
import Otawa.Lib.Scopes

/-!
# Categories of the data accesses

`CATBuilder::processLBlockSet` runs through the accesses of a basic block from the MUST and
persistence states at its entry and chooses the category of each access to a block of
the set. The MAY state is not run along: it is the one of the entry for all accesses of the
block, so the second access to a line of the block may be ALWAYS_MISS although the first
one has loaded the line (`second_access_hits`).

On a path on which the states are sound, a category is right as long as the accesses
before it in the block are those the builder follows (`access_categories_sound`): for ALWAYS_MISS,
none of them loads the block.
-/

namespace Otawa.Dcache.CATBuilder

open Otawa.Cache Otawa.Lru Otawa.Scopes
open Otawa.CAT2Builder (Category)
open Otawa.MUSTPERS (Context ItemBounds AgesYounger)
open Otawa.PERSProblem (Item)

variable {A : Nat} {colls : Nat → BlockCollection} {set : Nat} {Block : Type}

/-- What the builder reads of the CFGs: `DATA_BLOCKS` and the loop headers. -/
structure Program (colls : Nat → BlockCollection) (Block : Type) where
  accesses : Block → List (BlockAccess colls)
  loopHeader : Block → Bool
  enclosing : Block → Option Block

/-- The states before each block: `MUST_ACS`, `PERS_ACS` with the items of `LEVEL_PERS_ACS`
(the one of the innermost loop first), and `MAY_ACS`. -/
structure Acs (A : Nat) (colls : Nat → BlockCollection) (Block : Type) where
  must : Block → (set : Nat) → Otawa.MUSTProblem.Domain A (colls set).count
  pers : Block → Option ((set : Nat) → Item A (colls set).count × List (Item A (colls set).count))
  may : Block → Option ((set : Nat) → Otawa.MAYProblem.Domain A (colls set).count)

namespace Program

/-- The header of the innermost loop of a block. -/
def header (P : Program colls Block) (b : Block) : Option Block :=
  if P.loopHeader b then some b else P.enclosing b

/-- The loop over the levels from `k - 1` down, for the header it finds. -/
def level (P : Program colls Block) (persistent : Nat → Bool) : Nat → Option Block → Option Block
  | 0, _ => none
  | _ + 1, none => none
  | k + 1, some header => if persistent k then some header else P.level persistent k (P.enclosing header)

end Program

/-- The input domain of a block: `setMust`, and `setPers` or `emptyPers`. -/
def input (acs : Acs A colls Block) (set : Nat) (b : Block) :
    Otawa.MUSTPERS.Domain A (colls set).count where
  must := acs.must b set
  pers :=
    match acs.pers b with
    | none => .empty A _
    | some states => ⟨false, (states set).1, (states set).2, fun h => nomatch h⟩

/-- The domain after an access. -/
def replay (set : Nat) (dom : Otawa.MUSTPERS.Domain A (colls set).count) (acc : BlockAccess colls) :
    Otawa.MUSTPERS.Domain A (colls set).count :=
  match acc.kind with
  | .block b =>
      match b.indexIn set with
      | some id => dom.inject id
      | none => dom
  | _ => MUSTPERS.ageAll dom

namespace Program

/-- The category of an access to the block `id` of the set, with its `CATEGORY_HEADER`. -/
def classify (P : Program colls Block) (acs : Acs A colls Block) (set : Nat) (b : Block)
    (dom : Otawa.MUSTPERS.Domain A (colls set).count) (id : Fin (colls set).count) :
    Category × Option Block :=
  let may := (acs.may b).map fun states => states set
  let done :=
    if dom.must.contains id then none
    else if (acs.pers b).isSome then
      P.level (fun k => dom.pers.isPersistent id k) dom.pers.data.length (P.header b)
    else none
  let category :=
    if dom.must.contains id then .alwaysHit else if done.isSome then .firstMiss else .notClassified
  if done.isNone ∧ may.any fun state => ¬ state.contains id then (.alwaysMiss, none) else (category, done)

/-- The category of an access; one to a block of another set is left alone. -/
def category (P : Program colls Block) (acs : Acs A colls Block) (set : Nat) (b : Block)
    (dom : Otawa.MUSTPERS.Domain A (colls set).count) (acc : BlockAccess colls) :
    Option (Category × Option Block) :=
  match acc.kind with
  | .block blk => (blk.indexIn set).map (P.classify acs set b dom)
  | _ => some (.notClassified, none)

/-- The loop over the accesses. -/
def categories (P : Program colls Block) (acs : Acs A colls Block) (set : Nat) (b : Block) :
    Otawa.MUSTPERS.Domain A (colls set).count → List (BlockAccess colls) →
      List (Option (Category × Option Block))
  | _, [] => []
  | dom, acc :: rest => P.category acs set b dom acc :: P.categories acs set b (replay set dom acc) rest

/-- The categories of the accesses of a block, on the collection of a set. -/
def processLBlockSet (P : Program colls Block) (acs : Acs A colls Block) (set : Nat) (b : Block) :
    List (Option (Category × Option Block)) :=
  P.categories acs set b (input acs set b) (P.accesses b)

/-! ### Paths -/

/-- A path executes blocks, each with what its accesses do, and enters and leaves loops. -/
abbrev Path (Block : Type) := List (Scopes.Step Block (Block × List Touch))

/-- The content of the set after some touches. -/
def touches (allocate : Bool) (set : Nat) (s : LruSet Nat A) (ts : List Touch) : LruSet Nat A :=
  ts.foldl (touch allocate set) s

/-- The content of the set after a path. -/
def content (allocate : Bool) (set : Nat) (s : LruSet Nat A) (path : Path Block) : LruSet Nat A :=
  path.foldl (fun s step =>
    match step with
    | .act (_, ts) => touches allocate set s ts
    | .enter _ => s
    | .leave => s) s

/-- The blocks of the set that some accesses load or store to by name, the last one first. -/
def named (set : Nat) (accs : List (BlockAccess colls)) : List Nat :=
  (accs.filterMap fun acc =>
    match acc with
    | ⟨.load, .block b⟩ => (b.indexIn set).map Fin.val
    | ⟨.store, .block b⟩ => (b.indexIn set).map Fin.val
    | _ => none).reverse

/-- The block accesses of a context since it was entered. -/
def contextOf (P : Program colls Block) (set : Nat) (done : List (Block × List Touch)) : Context :=
  ⟨done.flatMap fun a => named set (P.accesses a.1), []⟩

/-- The line hits at the access `j` of a block executed by `ts` after `pre`. -/
def Hits (allocate : Bool) (set : Nat) (s : LruSet Nat A) (pre : Path Block) (ts : List Touch) (j : Nat)
    (line : Nat) : Prop :=
  line ∈ (touches allocate set (content allocate set s pre) (ts.take j)).lines

instance (allocate : Bool) (set : Nat) (s : LruSet Nat A) (pre : Path Block) (ts : List Touch) (j : Nat)
    (line : Nat) : Decidable (Hits allocate set s pre ts j line) :=
  inferInstanceAs (Decidable (_ ∈ _))

end Program

/-- The items bound their contexts, the ones of the innermost context first. -/
def LevelsBound {n : Nat} (levels : List (Item A n)) (s : LruSet Nat A) (contexts : List Context) : Prop :=
  ∀ (k : Nat) (item : Item A n), levels[k]? = some item → ∃ c, contexts[k]? = some c ∧ ItemBounds item c s

/-- The states before a block are sound for a content of the set and the contexts open: MUST bounds the
positions, MAY contains the blocks of the set, and the items bound the blocks of their contexts. -/
structure SoundAt {n : Nat} (must : Otawa.MUSTProblem.Domain A n) (may : Option (Otawa.MAYProblem.Domain A n))
    (levels : List (Item A n)) (s : LruSet Nat A) (contexts : List Context) : Prop where
  bounds : must.Bounds s
  young : must.Young
  may : ∀ state ∈ may, ∀ id, ¬ state.contains id → (id : Nat) ∉ s.lines
  levels : LevelsBound levels s contexts

/-- A path of the program: every block is executed inside its loops, its accesses do what they cover, and
the states before it are sound. -/
structure Program.Sound (P : Program colls Block) (acs : Acs A colls Block) (allocate : Bool) (set : Nat)
    (s : LruSet Nat A) (path : Program.Path Block) : Prop where
  nested : ∀ pre b ts post, path = pre ++ .act (b, ts) :: post →
    Inside P.enclosing (P.header b) ((opened pre).map Prod.fst)
  covered : ∀ pre b ts post, path = pre ++ .act (b, ts) :: post →
    List.Forall₂ BlockAccess.Covers (P.accesses b) ts
  states : ∀ pre b ts post, path = pre ++ .act (b, ts) :: post →
    SoundAt (acs.must b set) ((acs.may b).map fun states => states set) (input acs set b).pers.data
      (Program.content allocate set s pre) ((opened pre).map fun o => P.contextOf set o.2)

/-! ### The accesses the builder follows -/

/-- Purges are run like loads, and stores like loads too. -/
def MustFollows (allocate : Bool) (set : Nat) (dom : Otawa.MUSTPERS.Domain A (colls set).count) :
    BlockAccess colls → Prop
  | ⟨.purge, .any⟩ => False
  | ⟨.purge, .range first last⟩ => ¬ Spans first last set
  | ⟨.purge, .block b⟩ => b.indexIn set = none
  | ⟨.store, .block b⟩ => allocate = false → ∀ id, b.indexIn set = some id → dom.must.contains id
  | _ => True

/-- An access to a block ages all the younger ones in each item. -/
def PersFollows (set : Nat) (dom : Otawa.MUSTPERS.Domain A (colls set).count) (acc : BlockAccess colls) : Prop :=
  match acc.kind with
  | .block b => ∀ id, b.indexIn set = some id → AgesYounger dom id
  | _ => True

/-- A condition on each access and the domain before it. -/
def Along (ok : Otawa.MUSTPERS.Domain A (colls set).count → BlockAccess colls → Prop) :
    Otawa.MUSTPERS.Domain A (colls set).count → List (BlockAccess colls) → Prop
  | _, [] => True
  | dom, acc :: rest => ok dom acc ∧ Along ok (replay set dom acc) rest

/-- The access may bring the block into the set. -/
def Brings (allocate : Bool) (set : Nat) (id : Fin (colls set).count) (acc : BlockAccess colls) : Prop :=
  acc.Covers ⟨acc.action, set, id⟩ ∧ (acc.action = .load ∨ acc.action = .store ∧ allocate = true)

section

variable {allocate : Bool} {s : LruSet Nat A} {t : Touch}

/-- A load or store moves no line back by more than one place. -/
theorem at_touch_le {c : Nat} {p : Nat} (hc : s.At c p) (fit : p + 1 < A)
    (action : t.set = set → t.action ≠ .purge) : ∃ p' ≤ p + 1, (touch allocate set s t).At c p' := by
  unfold touch
  split
  case isTrue here =>
    cases eq : t.action with
    | load => exact hc.access_le fit
    | store =>
      dsimp only
      split
      · exact hc.access_le fit
      · exact ⟨p, Nat.le_succ p, hc⟩
    | purge => exact absurd eq (action here)
  case isFalse => exact ⟨p, Nat.le_succ p, hc⟩

/-- Where the lines after a touch come from. -/
theorem of_mem_touch {n : Nat} (mem : n ∈ (touch allocate set s t).lines) :
    n ∈ s.lines ∨ (t.set = set ∧ t.line = n ∧ (t.action = .load ∨ t.action = .store ∧ allocate = true)) := by
  by_cases known : n ∈ s.lines
  · exact .inl known
  refine .inr ?_
  unfold touch at mem
  split at mem
  case isFalse => exact absurd mem known
  case isTrue here =>
    have accessed : n ∈ (s.access t.line).lines → t.line = n := by
      intro mem
      obtain ⟨p, hp⟩ := LruSet.mem_iff_at.mp mem
      by_contra ne
      rcases hp.of_access fun eq => ne eq.symm with ⟨q, -, hq, -⟩ | ⟨hq, -⟩
      · exact known hq.mem
      · exact known hq.mem
    cases eq : t.action with
    | load =>
      rw [eq] at mem
      exact ⟨here, accessed mem, .inl rfl⟩
    | store =>
      rw [eq] at mem
      dsimp only at mem
      split at mem
      case isTrue brought =>
        have line := accessed mem
        exact ⟨here, line, .inr ⟨rfl, brought.resolve_right (line ▸ known)⟩⟩
      case isFalse => exact absurd mem known
    | purge =>
      rw [eq] at mem
      exact absurd (LruSet.mem_remove.mp mem).2 known

/-! ### One access -/

variable {dom : Otawa.MUSTPERS.Domain A (colls set).count} {acc : BlockAccess colls}

theorem young_replay (young : dom.must.Young) (pos : 0 < A) (acc : BlockAccess colls) :
    (replay set dom acc).must.Young := by
  unfold replay
  split
  · split
    · exact young.inject pos _
    · exact young
  · exact MUSTProblem.young_ageAll young pos

/-- What an access the builder follows does: nothing, some access to the set at most, or an access to the
block it names. -/
theorem replay_cases (bounds : dom.must.Bounds s) (young : dom.must.Young) (covers : acc.Covers t)
    (follows : MustFollows allocate set dom acc) :
    (replay set dom acc = dom ∧ touch allocate set s t = s) ∨
      (replay set dom acc = MUSTPERS.ageAll dom ∧ (t.set = set → t.action ≠ .purge)) ∨
      ∃ b id, acc.kind = .block b ∧ b.indexIn set = some id ∧ replay set dom acc = dom.inject id ∧
        touch allocate set s t = s.access id := by
  obtain ⟨action, kind⟩ := acc
  obtain ⟨same, covers⟩ := covers
  dsimp only at same
  subst same
  cases kind with
  | any =>
    refine .inr (.inl ⟨rfl, fun _ purge => ?_⟩)
    rw [purge] at follows
    exact follows
  | range first last =>
    refine .inr (.inl ⟨rfl, fun here purge => ?_⟩)
    rw [purge] at follows
    exact follows (here ▸ covers)
  | block b =>
    obtain ⟨here, line⟩ := covers
    cases known : b.indexIn set with
    | none =>
      refine .inl ⟨by simp only [replay, known], touch_of_ne ?_⟩
      exact here.trans_ne (Block.indexIn_eq_none.mp known)
    | some id =>
      obtain ⟨mine, index⟩ := Block.indexIn_eq_some.mp known
      refine .inr (.inr ⟨b, id, rfl, known, by simp only [replay, known], ?_⟩)
      rw [touch, if_pos (here.trans mine), line.trans index]
      cases action : t.action with
      | load => rfl
      | store =>
        rw [action] at follows
        refine if_pos (or_iff_not_imp_left.mpr fun noAllocate => ?_)
        obtain ⟨p, -, hp⟩ := bounds id (follows (Bool.eq_false_iff.mpr noAllocate) id known) (young id)
        exact hp.mem
      | purge =>
        rw [action] at follows
        exact absurd (known.symm.trans follows) (by simp)

/-- The domain after an access the builder follows bounds the set after it. -/
theorem bounds_replay (bounds : dom.must.Bounds s) (young : dom.must.Young) (covers : acc.Covers t)
    (follows : MustFollows allocate set dom acc) : (replay set dom acc).must.Bounds (touch allocate set s t) := by
  rcases replay_cases bounds young covers follows with
    ⟨same, kept⟩ | ⟨aged, noPurge⟩ | ⟨b, id, -, -, injected, accessed⟩
  · rwa [same, kept]
  · rw [aged]
    by_cases here : t.set = set
    · exact MUSTProblem.bounds_ageAll_touch bounds allocate (noPurge here)
    · rw [touch_of_ne here]
      exact MUSTProblem.bounds_ageAll bounds
  · rw [injected, accessed]
    exact bounds.inject id

/-- A context that has accessed less is bounded by the same item. -/
theorem ItemBounds.mono {n : Nat} {item : Item A n} {c c' : Context} (bounds : ItemBounds item c' s)
    (subset : c.accessed ⊆ c'.accessed) : ItemBounds item c s :=
  fun i accessed => bounds i (subset accessed)

theorem itemBounds_ageAll_touch {n : Nat} {item : Item A n} {c : Context} (bounds : ItemBounds item c s)
    (action : t.set = set → t.action ≠ .purge) :
    ItemBounds (PERSProblem.Item.ageAll item) c (touch allocate set s t) := by
  intro i accessed
  obtain ⟨has, bound⟩ := bounds i accessed
  have older : (PERSProblem.Item.ageAll item).age i = PERSProblem.older A (item.age i) :=
    Loop.sweep_pointwise _ _ i
  have nonneg := Ages.contains_iff_nonneg.mp has
  have le := item.le_wiped i
  unfold Item.isWiped Ages.contains at *
  rw [older, PERSProblem.older]
  by_cases wiped : item.age i = A
  · rw [if_neg (by omega)]
    exact ⟨has, .inl wiped⟩
  · rw [if_pos (by omega)]
    refine ⟨by omega, ?_⟩
    obtain ⟨p, leP, hp⟩ := bound.resolve_left wiped
    by_cases full : item.age i + 1 = A
    · exact .inl full
    · obtain ⟨p', le', hp'⟩ := @at_touch_le _ set allocate s t _ _ hp (by omega) action
      exact .inr ⟨p', by omega, hp'⟩

/-- The items keep the bounds of the contexts. -/
theorem levels_replay {contexts : List Context} (levels : LevelsBound dom.pers.data s contexts)
    (bounds : dom.must.Bounds s) (young : dom.must.Young) (covers : acc.Covers t)
    (follows : MustFollows allocate set dom acc) (pers : PersFollows set dom acc) :
    LevelsBound (replay set dom acc).pers.data (touch allocate set s t) contexts := by
  rcases replay_cases bounds young covers follows with
    ⟨same, kept⟩ | ⟨aged, noPurge⟩ | ⟨b, id, isBlock, known, injected, accessed⟩
  · rwa [same, kept]
  · rw [aged]
    intro k item at_k
    obtain ⟨before, at_k', rfl⟩ := Option.map_eq_some_iff.mp (List.getElem?_map.symm.trans at_k)
    obtain ⟨c, at_c, items⟩ := levels k before at_k'
    exact ⟨c, at_c, itemBounds_ageAll_touch items noPurge⟩
  · rw [injected, accessed]
    intro k item at_k
    obtain ⟨before, at_k', rfl⟩ := Option.map_eq_some_iff.mp (List.getElem?_map.symm.trans at_k)
    obtain ⟨c, at_c, items⟩ := levels k before at_k'
    unfold PersFollows at pers
    rw [isBlock] at pers
    have after := items.inject bounds (pers id known) (List.mem_of_getElem? at_k')
    exact ⟨c, at_c, ItemBounds.mono after (List.subset_cons_self _ _)⟩

/-! ### The accesses of a block -/

theorem young_foldl (young : dom.must.Young) (pos : 0 < A) (accs : List (BlockAccess colls)) :
    (accs.foldl (replay set) dom).must.Young := by
  induction accs generalizing dom with
  | nil => exact young
  | cons acc rest ih => exact ih (young_replay young pos acc)

section

variable {accs : List (BlockAccess colls)} {ts : List Touch}

/-- The domain that has run along some accesses bounds the set after them. -/
theorem bounds_foldl (pos : 0 < A)
    (covered : List.Forall₂ BlockAccess.Covers accs ts) (bounds : dom.must.Bounds s) (young : dom.must.Young)
    (follows : Along (MustFollows allocate set) dom accs) :
    (accs.foldl (replay set) dom).must.Bounds (Program.touches allocate set s ts) := by
  induction covered generalizing dom s with
  | nil => exact bounds
  | cons head _ ih =>
    exact ih (bounds_replay bounds young head follows.1) (young_replay young pos _) follows.2

theorem levels_foldl {contexts : List Context} (pos : 0 < A)
    (covered : List.Forall₂ BlockAccess.Covers accs ts) (bounds : dom.must.Bounds s) (young : dom.must.Young)
    (levels : LevelsBound dom.pers.data s contexts)
    (follows : Along (fun dom acc => MustFollows allocate set dom acc ∧ PersFollows set dom acc) dom accs) :
    LevelsBound (accs.foldl (replay set) dom).pers.data (Program.touches allocate set s ts) contexts := by
  induction covered generalizing dom s with
  | nil => exact levels
  | cons head _ ih =>
    obtain ⟨⟨must, pers⟩, rest⟩ := follows
    exact ih (bounds_replay bounds young head must) (young_replay young pos _)
      (levels_replay levels bounds young head must pers) rest

/-- A block that is not in the set is brought in by an access that names it or may touch it. -/
theorem not_mem_touches
    (covered : List.Forall₂ BlockAccess.Covers accs ts) {id : Fin (colls set).count} (out : (id : Nat) ∉ s.lines)
    (unloaded : ∀ acc ∈ accs, ¬ Brings allocate set id acc) :
    (id : Nat) ∉ (Program.touches allocate set s ts).lines := by
  induction covered generalizing s with
  | nil => exact out
  | @cons acc t accs ts head _ ih =>
    refine ih (fun mem => ?_) fun acc' mem => unloaded acc' (List.mem_cons_of_mem _ mem)
    obtain ⟨here, line, brings⟩ := (of_mem_touch mem).resolve_left out
    obtain ⟨action, set', line'⟩ := t
    dsimp only at here line brings
    subst here line
    exact unloaded acc List.mem_cons_self ⟨⟨rfl, head.2⟩, head.1 ▸ brings⟩

end

namespace Program

variable {P : Program colls Block} {acs : Acs A colls Block} {b : Block} {id : Fin (colls set).count}
  {cat : Category} {header : Option Block} {j : Nat}

theorem categories_getElem? (accs : List (BlockAccess colls)) :
    (P.categories acs set b dom accs)[j]? =
      accs[j]?.map (P.category acs set b ((accs.take j).foldl (replay set) dom)) := by
  induction accs generalizing dom j with
  | nil => rfl
  | cons acc rest ih =>
    cases j with
    | zero => rfl
    | succ j => exact ih

/-- Where each category comes from. -/
theorem classify_cases (result : P.classify acs set b dom id = (cat, header)) :
    (cat = .alwaysHit ∧ dom.must.contains id) ∨
      (cat = .alwaysMiss ∧ ∃ states ∈ acs.may b, ¬ (states set).contains id) ∨
      (cat = .firstMiss ∧ ∃ h, header = some h ∧
        P.level (fun k => dom.pers.isPersistent id k) dom.pers.data.length (P.header b) = some h) ∨
      cat = .notClassified := by
  unfold classify at result
  simp only at result
  generalize isDone : (if dom.must.contains id then none
    else if (acs.pers b).isSome then
      P.level (fun k => dom.pers.isPersistent id k) dom.pers.data.length (P.header b)
    else none) = done at result
  by_cases out : done.isNone ∧ (((acs.may b).map fun states => states set).any
      fun state => ¬ state.contains id) = true
  · rw [if_pos out] at result
    cases result
    refine .inr (.inl ⟨rfl, ?_⟩)
    cases states : acs.may b with
    | none => simp [states] at out
    | some states' => exact ⟨states', rfl, by simpa [states] using out.2⟩
  rw [if_neg out] at result
  obtain ⟨isCategory, rfl⟩ := Prod.mk.inj result
  by_cases hit : dom.must.contains id
  · rw [if_pos hit] at isCategory
    exact .inl ⟨isCategory.symm, hit⟩
  rw [if_neg hit] at isCategory isDone
  cases done with
  | none => exact .inr (.inr (.inr isCategory.symm))
  | some h =>
    refine .inr (.inr (.inl ⟨isCategory.symm, h, rfl, ?_⟩))
    by_cases states : (acs.pers b).isSome
    · rwa [if_pos states] at isDone
    · rw [if_neg states] at isDone
      cases isDone

/-- The level found is that of an open loop, at the place of its header. -/
theorem level_spec {persistent : Nat → Bool} {k q n : Nat} {o : Option Block} {stack : List Block} {h : Block}
    (inside : Inside P.enclosing o (stack.drop q)) (depth : k + q = n)
    (found : P.level persistent k o = some h) :
    ∃ p < n, stack[p]? = some h ∧ persistent (n - 1 - p) = true := by
  induction k generalizing q o with
  | zero => cases o <;> cases found
  | succ k ih =>
    cases o with
    | none => cases found
    | some g =>
      obtain ⟨top, up⟩ := inside.drop
      unfold level at found
      split at found
      case isTrue last =>
        cases found
        refine ⟨q, by omega, top, ?_⟩
        rwa [show n - 1 - q = k by omega]
      case isFalse => exact ih up (by omega) found

/-- An access that loads or stores to the block. -/
def Names (set : Nat) (id : Fin (colls set).count) (acc : BlockAccess colls) : Prop :=
  acc.action ≠ .purge ∧ ∃ blk, acc.kind = .block blk ∧ blk.indexIn set = some id

theorem mem_named {accs : List (BlockAccess colls)} (mem : acc ∈ accs) (names : Names set id acc) :
    (id : Nat) ∈ named set accs := by
  obtain ⟨noPurge, blk, isBlock, known⟩ := names
  refine List.mem_reverse.mpr (List.mem_filterMap.mpr ⟨acc, mem, ?_⟩)
  obtain ⟨action, kind⟩ := acc
  cases isBlock
  cases action with
  | load => simp [known]
  | store => simp [known]
  | purge => exact absurd rfl noPurge

/-- The category of an access that names a block of the set. -/
theorem classify_of_result (at_j : (P.accesses b)[j]? = some acc) (names : Names set id acc)
    (result : (P.processLBlockSet acs set b)[j]? = some (some (cat, header))) :
    P.classify acs set b (((P.accesses b).take j).foldl (replay set) (input acs set b)) id = (cat, header) := by
  obtain ⟨-, blk, isBlock, known⟩ := names
  rw [processLBlockSet, categories_getElem?, at_j, Option.map_some] at result
  unfold category at result
  simpa [isBlock, known] using result

/-- A block persistent for the loop of `h` is in the set once the loop has executed an access to it. -/
private theorem hit_since {path : Path Block} {pre mid post : Path Block} {ts ts' : List Touch} {h : Block}
    (pos : 0 < A) (sound : P.Sound acs allocate set s path) (at_j : (P.accesses b)[j]? = some acc)
    (names : Names set id acc)
    (follows : Along (fun dom acc => MustFollows allocate set dom acc ∧ PersFollows set dom acc)
      (input acs set b) ((P.accesses b).take j))
    (split : path = pre ++ .act (b, ts) :: mid ++ .act (b, ts') :: post) (kept : .enter h ∉ mid)
    (dom : Otawa.MUSTPERS.Domain A (colls set).count)
    (isDom : dom = ((P.accesses b).take j).foldl (replay set) (input acs set b))
    (found : P.level (fun k => dom.pers.isPersistent id k) dom.pers.data.length (P.header b) = some h) :
    Hits allocate set s (pre ++ .act (b, ts) :: mid) ts' j id := by
  have states := sound.states _ b ts' post split
  obtain ⟨p, lt, top, persistent⟩ := level_spec (q := 0) (sound.nested _ b ts' post split) rfl found
  obtain ⟨item, at_level, has, notWiped⟩ := of_decide_eq_true persistent
  rw [Nat.add_zero] at lt at_level
  rw [PERSProblem.Domain.item?, if_pos (by omega),
    show dom.pers.data.length - 1 - (dom.pers.data.length - 1 - p) = p by omega] at at_level
  have covered := List.forall₂_take j (sound.covered _ b ts' post split)
  have levels : LevelsBound dom.pers.data (touches allocate set _ (ts'.take j)) _ :=
    isDom ▸ levels_foldl pos covered states.bounds states.young states.levels follows
  obtain ⟨c, at_c, items⟩ := levels p item at_level
  obtain ⟨o, at_o, rfl⟩ := Option.map_eq_some_iff.mp (List.getElem?_map.symm.trans at_c)
  obtain ⟨o', at_o', isTop⟩ := Option.map_eq_some_iff.mp (List.getElem?_map.symm.trans top)
  cases Option.some.inj (at_o.symm.trans at_o')
  have done : (b, ts) ∈ o.2 := mem_of_opened kept (at_o.trans (by rw [← isTop]))
  have accessed : (id : Nat) ∈ (P.contextOf set o.2).accessed :=
    List.mem_flatMap.mpr ⟨_, done, mem_named (List.mem_of_getElem? at_j) names⟩
  obtain ⟨p', -, hp⟩ := (items id accessed).2.resolve_left notWiped
  exact hp.mem

/-- The categories are sound on a path on which the states are, as far as the accesses before in the block
are followed: ALWAYS_HIT hits at each execution, ALWAYS_MISS misses at each execution, and FIRST_MISS hits
at an execution that follows another one without an entry of the loop between them. -/
theorem access_categories_sound (P : Program colls Block) (acs : Acs A colls Block) (allocate : Bool) (set : Nat)
    (pos : 0 < A) (s : LruSet Nat A) (path : Path Block) (sound : P.Sound acs allocate set s path) (b : Block)
    (j : Nat) (acc : BlockAccess colls) (at_j : (P.accesses b)[j]? = some acc) (id : Fin (colls set).count)
    (names : Names set id acc) (cat : Category) (header : Option Block)
    (result : (P.processLBlockSet acs set b)[j]? = some (some (cat, header))) :
    (cat = .alwaysHit → Along (MustFollows allocate set) (input acs set b) ((P.accesses b).take j) →
      ∀ pre ts post, path = pre ++ .act (b, ts) :: post → Hits allocate set s pre ts j id) ∧
    (cat = .alwaysMiss → (∀ acc ∈ (P.accesses b).take j, ¬ Brings allocate set id acc) →
      ∀ pre ts post, path = pre ++ .act (b, ts) :: post → ¬ Hits allocate set s pre ts j id) ∧
    (cat = .firstMiss → Along (fun dom acc => MustFollows allocate set dom acc ∧ PersFollows set dom acc)
      (input acs set b) ((P.accesses b).take j) → ∃ h, header = some h ∧
        ∀ pre ts mid ts' post, path = pre ++ .act (b, ts) :: mid ++ .act (b, ts') :: post → .enter h ∉ mid →
          Hits allocate set s (pre ++ .act (b, ts) :: mid) ts' j id) := by
  have classified := classify_of_result at_j names result
  refine ⟨?_, ?_, ?_⟩
  · rintro rfl follows pre ts post split
    obtain ⟨-, hit⟩ : Category.alwaysHit = .alwaysHit ∧
        (((P.accesses b).take j).foldl (replay set) (input acs set b)).must.contains id := by
      simpa using classify_cases classified
    have states := sound.states pre b ts post split
    have covered := List.forall₂_take j (sound.covered pre b ts post split)
    have young : (((P.accesses b).take j).foldl (replay set) (input acs set b)).must.Young :=
      young_foldl states.young pos _
    obtain ⟨p, -, hp⟩ := bounds_foldl pos covered states.bounds states.young follows id hit (young id)
    exact hp.mem
  · rintro rfl unloaded pre ts post split
    obtain ⟨-, states', eq, absent⟩ : Category.alwaysMiss = .alwaysMiss ∧
        ∃ states ∈ acs.may b, ¬ (states set).contains id := by
      simpa using classify_cases classified
    have states := sound.states pre b ts post split
    have covered := List.forall₂_take j (sound.covered pre b ts post split)
    refine not_mem_touches covered (states.may (states' set) ?_ id absent) unloaded
    rw [eq]
    rfl
  · rintro rfl follows
    rcases classify_cases classified with ⟨ne, -⟩ | ⟨ne, -⟩ | ⟨-, h, isHeader, found⟩ | ne
    · cases ne
    · cases ne
    · refine ⟨h, isHeader, fun pre ts mid ts' post split kept => ?_⟩
      exact hit_since pos sound at_j names follows split kept _ rfl found
    · cases ne

/-- One block in every set. -/
abbrev oneBlock : Nat → BlockCollection := fun _ => ⟨1, fun _ => 16⟩

/-- A load of the block. -/
def load : BlockAccess oneBlock := ⟨.load, .block ⟨0, 0, Nat.one_pos⟩⟩

/-- A loop of one block with one access. -/
def loop : Program oneBlock Unit := ⟨fun _ => [load], fun _ => true, fun _ => none⟩

/-- The block was accessed last. -/
def newest : Item 1 1 := ⟨⟨fun _ => 0, fun _ => by decide⟩, fun _ => Int.one_nonneg⟩

/-- The states on the entry of the loop joined with the ones of its back edge. -/
def loopAcs : Acs 1 oneBlock Unit where
  must _ _ := .empty 1 1
  pers _ := some fun _ => (.empty 1 1, [newest])
  may _ := none

/-- The loop is entered, executed twice and left. -/
def twice : Path Unit := [.enter (), .act ((), [⟨.load, 0, 0⟩]), .act ((), [⟨.load, 0, 0⟩]), .leave]

private theorem twice_cases {pre post : Path Unit} {b : Unit} {ts : List Touch}
    (eq : twice = pre ++ .act (b, ts) :: post) :
    ts = [⟨.load, 0, 0⟩] ∧ (pre = [.enter ()] ∨ pre = [.enter (), .act ((), [⟨.load, 0, 0⟩])]) := by
  rcases pre with - | ⟨e₁, - | ⟨e₂, - | ⟨e₃, - | ⟨e₄, rest⟩⟩⟩⟩ <;> simp [twice] at eq
  · exact ⟨eq.2.1.symm, .inl (by rw [← eq.1])⟩
  · exact ⟨eq.2.2.1.symm, .inr (by rw [← eq.1, ← eq.2.1])⟩

theorem sound_twice : loop.Sound loopAcs true 0 LruSet.empty twice where
  nested pre b ts post eq := by
    rcases (twice_cases eq).2 with rfl | rfl
    · exact .within (.outside _)
    · exact .within (.outside _)
  covered pre b ts post eq := by
    rw [(twice_cases eq).1]
    exact .cons (by decide) .nil
  states pre b ts post eq := by
    refine ⟨Otawa.MUSTProblem.Domain.bounds_empty _, MUSTProblem.young_empty, fun _ mem => (nomatch mem), ?_⟩
    intro k item at_k
    obtain ⟨rfl, rfl⟩ : k = 0 ∧ item = newest := by
      cases k with
      | zero => exact ⟨rfl, (Option.some.inj at_k).symm⟩
      | succ k => simp [input, loopAcs] at at_k
    rcases (twice_cases eq).2 with rfl | rfl
    · exact ⟨⟨[], []⟩, rfl, fun _ mem => absurd mem List.not_mem_nil⟩
    · refine ⟨⟨[0], []⟩, rfl, fun i _ => ?_⟩
      cases Subsingleton.elim i (0 : Fin 1)
      exact ⟨by decide, .inr ⟨0, by decide, by decide⟩⟩

/-- The access is a first miss of the loop, and hits the second time. -/
theorem access_categories_sound_twice :
    (Category.firstMiss = .alwaysHit → Along (MustFollows true 0) (input loopAcs 0 ()) [] →
      ∀ pre ts post, twice = pre ++ .act ((), ts) :: post →
        Hits true 0 (LruSet.empty : LruSet Nat 1) pre ts 0 0) ∧
    (Category.firstMiss = .alwaysMiss → (∀ acc ∈ ([] : List (BlockAccess oneBlock)),
      ¬ Brings true 0 (0 : Fin 1) acc) → ∀ pre ts post, twice = pre ++ .act ((), ts) :: post →
        ¬ Hits true 0 (LruSet.empty : LruSet Nat 1) pre ts 0 0) ∧
    (Category.firstMiss = .firstMiss → Along (fun dom acc => MustFollows true 0 dom acc ∧ PersFollows 0 dom acc)
      (input loopAcs 0 ()) [] → ∃ h, some () = some h ∧
        ∀ pre ts mid ts' post, twice = pre ++ .act ((), ts) :: mid ++ .act ((), ts') :: post → .enter h ∉ mid →
          Hits true 0 (LruSet.empty : LruSet Nat 1)
            (pre ++ .act ((), ts) :: mid) ts' 0 0) :=
  access_categories_sound loop loopAcs true 0 Nat.one_pos LruSet.empty twice sound_twice () 0 load rfl (0 : Fin 1)
    ⟨by decide, ⟨0, (0 : Fin 1)⟩, rfl, by decide⟩ .firstMiss (some ()) (by decide +kernel)

/-- A block with two loads of the same line. -/
def again : Program oneBlock Unit := ⟨fun _ => [load, load], fun _ => false, fun _ => none⟩

/-- With sound states the second access is ALWAYS_MISS, and it hits: the first one has loaded the line. -/
theorem second_access_hits :
    ∃ acs : Acs 1 oneBlock Unit, ∃ path : Path Unit, again.Sound acs true 0 LruSet.empty path ∧
      (again.processLBlockSet acs 0 ())[1]? = some (some (.alwaysMiss, none)) ∧
      ¬ ∀ pre ts post, path = pre ++ .act ((), ts) :: post →
        ¬ Hits true 0 (LruSet.empty : LruSet Nat 1) pre ts 1 0 := by
  refine ⟨⟨fun _ _ => .empty 1 1, fun _ => none, fun _ => some fun _ => .empty 1 1⟩,
    [.act ((), [⟨.load, 0, 0⟩, ⟨.load, 0, 0⟩])], ?_, by decide +kernel, fun misses => ?_⟩
  · have only : ∀ pre b ts post, [Scopes.Step.act ((), [⟨.load, 0, 0⟩, ⟨.load, 0, 0⟩])] =
        (pre ++ .act (b, ts) :: post : Path Unit) → pre = [] ∧ ts = [⟨.load, 0, 0⟩, ⟨.load, 0, 0⟩] := by
      intro pre b ts post eq
      rcases pre with - | ⟨e, rest⟩ <;> simp at eq
      exact ⟨rfl, eq.1.symm⟩
    refine ⟨fun _ _ _ _ _ => .outside _, ?_, ?_⟩
    · intro pre b ts post eq
      rw [(only pre b ts post eq).2]
      exact .cons (by decide) (.cons (by decide) .nil)
    · intro pre b ts post eq
      obtain ⟨rfl, -⟩ := only pre b ts post eq
      refine ⟨Otawa.MUSTProblem.Domain.bounds_empty _, MUSTProblem.young_empty, ?_, ?_⟩
      · exact fun _ _ id _ => List.not_mem_nil
      · exact fun k item at_k => by simp [input, Otawa.PERSProblem.Domain.empty] at at_k
  · exact misses [] _ [] rfl (by decide)

end Program

end

end Otawa.Dcache.CATBuilder
