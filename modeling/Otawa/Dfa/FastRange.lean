import Otawa.Dfa.FastState
import Mathlib.Algebra.Ring.Nat
import Mathlib.Data.List.Nodup

/-!
# Stores to and loads from an area

A store to an area walks the cells below its end, with the next address of the area that it looks for. Where there are
more addresses than the limit, or the top value is stored, the cells it looks for are dropped; else they are joined, to
a variable that is read in its own initializer. A cell that comes after the address looked for moves it on; it is kept in
the first loop, though it may be in the area, and dropped in the second one, though it may be out of it. A load does the
same, and takes no account of the addresses without a cell.

`walk` gives what the walk does at each cell, `store_range_sound_iff` and `load_range_sound_iff` when it is right.
-/

namespace Otawa.FastState

open Cells

variable {n : ℕ} {V : Type}

local instance neZero_address : NeZero (2 ^ 32 : ℕ) := ⟨by decide⟩

/-- The addresses from `a` on, at steps of `off`, below `b`; the functions assert the bounds. -/
structure Area where
  a : Address
  b : Address
  off : Address
  lt : a < b
  pos : 0 < off

namespace Area

/-- An address of the area. -/
def Has (r : Area) (x : Address) : Prop :=
  x < r.b ∧ ∃ k : ℕ, x.val = r.a.val + k * r.off.val

/-- `a += (cur->a - a + off - 1) / off * off`. -/
def advance (r : Area) (a x : Address) : Address :=
  a + (x - a + r.off - 1) / r.off * r.off

/-- There are more addresses than `multi_max`. -/
def large (r : Area) (multiMax : Address) : Prop :=
  multiMax < (r.b - r.a) / r.off

instance (r : Area) (multiMax : Address) : Decidable (r.large multiMax) :=
  inferInstanceAs (Decidable (multiMax < (r.b - r.a) / r.off))

end Area

section Loops

variable (r : Area)

/-- The loop of the store that sets the area to top. -/
def clearMem : Address → List (Address × V) → List (Address × V)
  | _, [] => []
  | a, c :: l =>
    if c.1 < r.b then
      if c.1 ≠ a then c :: clearMem (if a < c.1 then r.advance a c.1 else a) l
      else clearMem a l
    else c :: l

variable [SemilatticeSup V] [BoundedOrder V] [DecidableEq V]

/-- The loop of the store that joins the value. The joined value is the one of the variable that is being initialized, `junk`,
not the argument of the same name. -/
def joinRange (junk : Address → V) : Address → List (Address × V) → List (Address × V)
  | _, [] => []
  | a, c :: l =>
    if c.1 < r.b then
      if c.1 = a then
        let v := c.2 ⊔ junk c.1
        if v ≠ ⊤ then (c.1, v) :: joinRange junk (a + r.off) l else joinRange junk (a + r.off) l
      else if a < c.1 then joinRange junk (r.advance a c.1) l
      else c :: joinRange junk a l
    else c :: l

omit [DecidableEq V] [BoundedOrder V] in
/-- The loop of the load. -/
def loadMem : Address → V → List (Address × V) → V
  | _, v, [] => v
  | a, v, c :: l =>
    if c.1 < r.b then
      if c.1 = a then loadMem (a + r.off) (v ⊔ c.2) l
      else if a < c.1 then loadMem (r.advance a c.1) v l
      else loadMem a v l
    else v

end Loops

/-- What a walk does at a cell: it is the one looked for, it comes after, or it comes before. -/
inductive Meets where
  | stop
  | jump
  | pass
  deriving DecidableEq

/-- The walk over the cells below the end of an area. In the loop that sets to top, the address looked for stays when its
cell is found. -/
def walk (r : Area) (stays : Bool) : Address → List (Address × V) → List ((Address × V) × Meets)
  | _, [] => []
  | a, c :: l =>
    if c.1 < r.b then
      if c.1 = a then (c, .stop) :: walk r stays (if stays then a else a + r.off) l
      else if a < c.1 then (c, .jump) :: walk r stays (r.advance a c.1) l
      else (c, .pass) :: walk r stays a l
    else []

variable {r : Area} {stays : Bool} {a : Address} {l : List (Address × V)} {c c' : Address × V} {m m' : Meets} {x : Address}
  {v w : V}

theorem mem_of_walk (mem : (c, m) ∈ walk r stays a l) : c ∈ l ∧ c.1 < r.b := by
  fun_induction walk r stays a l with
  | case1 => exact absurd mem List.not_mem_nil
  | case2 _ l lt ih =>
    rcases List.mem_cons.mp mem with eq | mem
    · cases eq
      exact ⟨List.mem_cons_self, lt⟩
    · exact (ih mem).imp_left (List.mem_cons_of_mem _)
  | case3 a c' l lt _ _ ih =>
    rcases List.mem_cons.mp mem with eq | mem
    · cases eq
      exact ⟨List.mem_cons_self, lt⟩
    · exact (ih mem).imp_left (List.mem_cons_of_mem _)
  | case4 a c' l lt _ _ ih =>
    rcases List.mem_cons.mp mem with eq | mem
    · cases eq
      exact ⟨List.mem_cons_self, lt⟩
    · exact (ih mem).imp_left (List.mem_cons_of_mem _)
  | case5 => exact absurd mem List.not_mem_nil

/-- Each cell below the end is walked over. -/
theorem exists_walk (sorted : Sorted l) (mem : c ∈ l) (lt : c.1 < r.b) : ∃ m, (c, m) ∈ walk r stays a l := by
  fun_induction walk r stays a l with
  | case1 => exact absurd mem List.not_mem_nil
  | case2 _ l _ ih =>
    rcases List.mem_cons.mp mem with rfl | mem
    · exact ⟨_, List.mem_cons_self⟩
    · exact (ih (List.pairwise_cons.mp sorted).2 mem).imp fun _ => List.mem_cons_of_mem _
  | case3 a c' l _ _ _ ih =>
    rcases List.mem_cons.mp mem with rfl | mem
    · exact ⟨_, List.mem_cons_self⟩
    · exact (ih (List.pairwise_cons.mp sorted).2 mem).imp fun _ => List.mem_cons_of_mem _
  | case4 a c' l _ _ _ ih =>
    rcases List.mem_cons.mp mem with rfl | mem
    · exact ⟨_, List.mem_cons_self⟩
    · exact (ih (List.pairwise_cons.mp sorted).2 mem).imp fun _ => List.mem_cons_of_mem _
  | case5 a c' l le =>
    rcases List.mem_cons.mp mem with rfl | mem
    · exact absurd lt le
    · exact absurd (((List.pairwise_cons.mp sorted).1 c mem).trans lt) le

/-- The cells are walked over in order. -/
theorem walk_ordered (sorted : Sorted l) : (walk r stays a l).Pairwise fun p p' => p.1.1 < p'.1.1 := by
  fun_induction walk r stays a l with
  | case1 | case5 => exact List.Pairwise.nil
  | case2 _ l _ ih =>
    obtain ⟨above, sorted⟩ := List.pairwise_cons.mp sorted
    exact List.pairwise_cons.mpr ⟨fun p mem => above p.1 (mem_of_walk mem).1, ih sorted⟩
  | case3 a c' l _ _ _ ih =>
    obtain ⟨above, sorted⟩ := List.pairwise_cons.mp sorted
    exact List.pairwise_cons.mpr ⟨fun p mem => above p.1 (mem_of_walk mem).1, ih sorted⟩
  | case4 a c' l _ _ _ ih =>
    obtain ⟨above, sorted⟩ := List.pairwise_cons.mp sorted
    exact List.pairwise_cons.mpr ⟨fun p mem => above p.1 (mem_of_walk mem).1, ih sorted⟩

/-- A cell is walked over once. -/
theorem walk_unique (sorted : Sorted l) (mem : (c, m) ∈ walk r stays a l) (mem' : (c', m') ∈ walk r stays a l)
    (same : c.1 = c'.1) : c = c' ∧ m = m' := by
  have distinct : ((walk r stays a l).map fun p => p.1.1).Nodup :=
    List.pairwise_map.mpr ((walk_ordered sorted).imp fun lt => ne_of_lt lt)
  exact Prod.ext_iff.mp (List.inj_on_of_nodup_map distinct mem mem' same)

/-! ### What the cells become -/

/-- The cells that no walk comes to. -/
def beyond (r : Area) : List (Address × V) → List (Address × V) :=
  List.dropWhile fun c => c.1 < r.b

theorem beyond_of_lt (lt : c.1 < r.b) : beyond r (c :: l) = beyond r l := by
  simp [beyond, lt]

theorem beyond_of_not_lt (le : ¬ c.1 < r.b) : beyond r (c :: l) = c :: l := by
  simp only [beyond, List.dropWhile_cons, le, decide_false, if_false, Bool.false_eq_true]

/-- The cells after a walk, of which each becomes a cell of its address or none, and the shared ones that follow. -/
def rebuilt (r : Area) (stays : Bool) (f : (Address × V) × Meets → Option (Address × V)) (a : Address)
    (l : List (Address × V)) : List (Address × V) :=
  (walk r stays a l).filterMap f ++ beyond r l

theorem mem_beyond (sorted : Sorted l) : c ∈ beyond r l ↔ c ∈ l ∧ r.b ≤ c.1 := by
  induction l with
  | nil => simp [beyond]
  | cons c' l ih =>
    obtain ⟨above, rest⟩ := List.pairwise_cons.mp sorted
    by_cases lt : c'.1 < r.b
    · rw [beyond_of_lt lt, ih rest, List.mem_cons]
      refine and_congr_left fun le => (or_iff_right ?_).symm
      rintro rfl
      exact absurd le (not_le.mpr lt)
    · rw [beyond_of_not_lt lt, iff_self_and]
      intro mem
      rcases List.mem_cons.mp mem with rfl | mem
      · exact not_lt.mp lt
      · exact (not_lt.mp lt).trans (le_of_lt (above c mem))

section Rebuilt

variable {f : (Address × V) × Meets → Option (Address × V)} (key : ∀ p c, f p = some c → c.1 = p.1.1)

include key

theorem mem_rebuilt_lt (mem : c ∈ (walk r stays a l).filterMap f) :
    c.1 < r.b ∧ ∃ p ∈ walk r stays a l, f p = some c := by
  obtain ⟨p, walked, eq⟩ := List.mem_filterMap.mp mem
  exact ⟨key p c eq ▸ (mem_of_walk walked).2, p, walked, eq⟩

theorem sorted_rebuilt (sorted : Sorted l) : Sorted (rebuilt r stays f a l) := by
  refine List.pairwise_append.mpr ⟨?_, sorted.sublist (List.dropWhile_sublist _), fun c mem c' mem' => ?_⟩
  · refine (walk_ordered sorted).filterMap f fun p p' lt c eq c' eq' => ?_
    rw [key p c eq, key p' c' eq']
    exact lt
  · exact (mem_rebuilt_lt key mem).1.trans_le ((mem_beyond sorted).mp mem').2

/-- A cell that is walked over is what it becomes. -/
theorem find_rebuilt (sorted : Sorted l) (mem : (c, m) ∈ walk r stays a l) :
    find c.1 (rebuilt r stays f a l) = (f (c, m)).map Prod.snd := by
  ext v
  rw [find_eq_some_iff (sorted_rebuilt key sorted), rebuilt, List.mem_append, mem_beyond sorted,
    or_iff_left fun h => absurd (mem_of_walk mem).2 (not_lt.mpr h.2), Option.map_eq_some_iff]
  constructor
  · intro walked
    obtain ⟨-, ⟨c', m'⟩, mem', eq⟩ := mem_rebuilt_lt key walked
    obtain ⟨rfl, rfl⟩ := walk_unique sorted mem mem' (key _ _ eq)
    exact ⟨_, eq, rfl⟩
  · rintro ⟨c', eq, rfl⟩
    refine List.mem_filterMap.mpr ⟨(c, m), mem, eq.trans (congrArg some ?_)⟩
    exact Prod.ext (key (c, m) c' eq) rfl

/-- No cell is made, and those from the end on are kept. -/
theorem find_rebuilt_of_not_walked (sorted : Sorted l) (out : ∀ c m, (c, m) ∈ walk r stays a l → c.1 ≠ x) :
    find x (rebuilt r stays f a l) = find x l := by
  ext v
  rw [find_eq_some_iff (sorted_rebuilt key sorted), find_eq_some_iff sorted, rebuilt, List.mem_append, mem_beyond sorted]
  constructor
  · rintro (walked | ⟨mem, -⟩)
    · obtain ⟨-, ⟨c, m⟩, mem, eq⟩ := mem_rebuilt_lt key walked
      exact absurd (key _ _ eq).symm (out c m mem)
    · exact mem
  · intro mem
    refine .inr ⟨mem, not_lt.mp fun lt => ?_⟩
    obtain ⟨m, walked⟩ := exists_walk sorted mem lt
    exact out _ m walked rfl

end Rebuilt

/-- A cell that is looked for is dropped, and the other ones are kept. -/
def cleared (p : (Address × V) × Meets) : Option (Address × V) :=
  match p.2 with
  | .stop => none
  | .jump | .pass => some p.1

theorem clearMem_eq (r : Area) (a : Address) (l : List (Address × V)) : clearMem r a l = rebuilt r true cleared a l := by
  induction l generalizing a with
  | nil => rfl
  | cons c l ih =>
    unfold rebuilt at *
    unfold clearMem walk
    by_cases lt : c.1 < r.b
    · rw [if_pos lt, if_pos lt, beyond_of_lt lt]
      by_cases eq : c.1 = a
      · rw [if_neg (not_not.mpr eq), if_pos eq, ih]
        rfl
      · rw [if_pos eq, if_neg eq, ih]
        split <;> rfl
    · rw [if_neg lt, if_neg lt, beyond_of_not_lt lt]
      rfl

section Lattice

variable [SemilatticeSup V] [BoundedOrder V] [DecidableEq V] {junk : Address → V}

/-- A cell that is looked for is joined, one that comes after is dropped, and one that comes before is kept. -/
def joined (junk : Address → V) (p : (Address × V) × Meets) : Option (Address × V) :=
  match p.2 with
  | .stop => if p.1.2 ⊔ junk p.1.1 ≠ ⊤ then some (p.1.1, p.1.2 ⊔ junk p.1.1) else none
  | .jump => none
  | .pass => some p.1

theorem joinRange_eq (junk : Address → V) (r : Area) (a : Address) (l : List (Address × V)) :
    joinRange r junk a l = rebuilt r false (joined junk) a l := by
  induction l generalizing a with
  | nil => rfl
  | cons c l ih =>
    unfold rebuilt at *
    unfold joinRange walk
    by_cases lt : c.1 < r.b
    · rw [if_pos lt, if_pos lt, beyond_of_lt lt]
      by_cases eq : c.1 = a
      · rw [if_pos eq, if_pos eq]
        dsimp only
        rw [ih]
        by_cases top : c.2 ⊔ junk c.1 ≠ ⊤
        · have kept : joined junk (c, .stop) = some (c.1, c.2 ⊔ junk c.1) := if_pos top
          rw [if_pos top, List.filterMap_cons_some kept]
          rfl
        · have dropped : joined junk (c, .stop) = none := if_neg top
          rw [if_neg top, List.filterMap_cons_none dropped]
          rfl
      · rw [if_neg eq, if_neg eq]
        by_cases after : a < c.1
        · rw [if_pos after, if_pos after, ih]
          rfl
        · rw [if_neg after, if_neg after, ih]
          rfl
    · rw [if_neg lt, if_neg lt, beyond_of_not_lt lt]
      rfl

omit [SemilatticeSup V] [BoundedOrder V] [DecidableEq V] in
theorem key_of_cleared (p : (Address × V) × Meets) (c : Address × V) (eq : cleared p = some c) : c.1 = p.1.1 := by
  unfold cleared at eq
  split at eq <;> cases eq <;> rfl

theorem key_of_joined (junk : Address → V) (p : (Address × V) × Meets) (c : Address × V)
    (eq : joined junk p = some c) : c.1 = p.1.1 := by
  unfold joined at eq
  split at eq
  case h_1 =>
    split at eq
    · cases eq
      rfl
    · cases eq
  case h_2 => cases eq
  case h_3 =>
    cases eq
    rfl

/-! ### Stores -/

variable (multiMax : Address)

/-- The memory after a store to an area. -/
def storeMem (junk : Address → V) (r : Area) (v : V) (l : List (Address × V)) : List (Address × V) :=
  if r.large multiMax ∨ v = ⊤ then clearMem r r.a l else joinRange r junk r.a l

theorem sorted_storeMem (junk : Address → V) (r : Area) (v : V) (sorted : Sorted l) :
    Sorted (storeMem multiMax junk r v l) := by
  unfold storeMem
  split
  · rw [clearMem_eq]
    exact sorted_rebuilt key_of_cleared sorted
  · rw [joinRange_eq]
    exact sorted_rebuilt (key_of_joined junk) sorted

/-- `store` for an area. -/
def storeRange (junk : Address → V) (s : T n V) (r : Area) (v : V) : T n V :=
  match s with
  | .bot => .bot
  | s => .made { s.contents with
      mem := storeMem multiMax junk r v s.contents.mem
      sorted := sorted_storeMem multiMax junk r v s.contents.sorted }

variable {s s' : T n V} {f : (Address × V) × Meets → Option (Address × V)}

/-- A load at an address of the area gives a value above the stored one and the one before, a load at another address
the one before. -/
def Stored (r : Area) (v : V) (s s' : T n V) : Prop :=
  (∀ x, r.Has x → v ≤ load s' x ∧ load s x ≤ load s' x) ∧ ∀ x, ¬ r.Has x → load s' x = load s x

/-- A store to an area is right, whatever the variable that is read before it has a value holds. -/
def StoreSound (s : T n V) (r : Area) (v : V) : Prop :=
  ∀ junk, Stored r v s (storeRange multiMax junk s r v)

/-- When the store to an area is right. In the loop that sets to top, a cell of the area that is not found keeps a value that
is above the stored one; in the loop that joins, this is so for a cell of the area that is found. No other cell is found or,
in the second loop, comes after the address looked for, unless its value is top. -/
def StoreFits (s : T n V) (r : Area) (v : V) : Prop :=
  (s = .bot → v = ⊥) ∧ (s ≠ .bot →
    if r.large multiMax ∨ v = ⊤ then ∀ p ∈ walk r true r.a s.contents.mem,
      (r.Has p.1.1 → p.2 ≠ .stop → v ≤ p.1.2) ∧ (¬ r.Has p.1.1 → p.2 = .stop → p.1.2 = ⊤)
    else ∀ p ∈ walk r false r.a s.contents.mem,
      (r.Has p.1.1 → p.2 ≠ .jump → v ≤ p.1.2) ∧ (¬ r.Has p.1.1 → p.2 ≠ .pass → p.1.2 = ⊤))

/-- The value of a cell after the walk. -/
def after (f : (Address × V) × Meets → Option (Address × V)) (p : (Address × V) × Meets) : V :=
  ((f p).map Prod.snd).getD ⊤

omit [DecidableEq V] in
/-- A walk over the cells is right where what each cell becomes is. -/
theorem stored_iff (key : ∀ p c, f p = some c → c.1 = p.1.1) (reached : s ≠ .bot) (reached' : s' ≠ .bot)
    (mem : s'.contents.mem = rebuilt r stays f r.a s.contents.mem) : Stored r v s s' ↔
      ∀ p ∈ walk r stays r.a s.contents.mem, (r.Has p.1.1 → v ≤ after f p ∧ p.1.2 ≤ after f p) ∧
        (¬ r.Has p.1.1 → after f p = p.1.2) := by
  have sorted := s.contents.sorted
  have walked : ∀ p ∈ walk r stays r.a s.contents.mem, load s p.1.1 = p.1.2 ∧ load s' p.1.1 = after f p := by
    rintro ⟨c, m⟩ there
    rw [load_of_contents reached, load_of_contents reached', mem, find_rebuilt key sorted there,
      (find_eq_some_iff sorted).mpr (mem_of_walk there).1]
    exact ⟨rfl, rfl⟩
  constructor
  · rintro ⟨inside, outside⟩ p there
    obtain ⟨before, now⟩ := walked p there
    rw [← before, ← now]
    exact ⟨inside p.1.1, outside p.1.1⟩
  · intro each
    have other : ∀ x, (∀ c m, (c, m) ∈ walk r stays r.a s.contents.mem → c.1 ≠ x) → load s' x = load s x := by
      intro x out
      rw [load_of_contents reached, load_of_contents reached', mem, find_rebuilt_of_not_walked key sorted out]
    have cases : ∀ x, (∃ p ∈ walk r stays r.a s.contents.mem, p.1.1 = x) ∨
        ∀ c m, (c, m) ∈ walk r stays r.a s.contents.mem → c.1 ≠ x := by
      intro x
      by_cases there : ∃ p ∈ walk r stays r.a s.contents.mem, p.1.1 = x
      · exact .inl there
      · exact .inr fun c m mem eq => there ⟨_, mem, eq⟩
    constructor
    · intro x has
      rcases cases x with ⟨p, there, rfl⟩ | out
      · obtain ⟨before, now⟩ := walked p there
        rw [before, now]
        exact (each p there).1 has
      · -- an address of the area without a cell has the top value
        have none : find x s.contents.mem = none := by
          refine Option.eq_none_iff_forall_ne_some.mpr fun w found => ?_
          obtain ⟨m, there⟩ : ∃ m, ((x, w), m) ∈ walk r stays r.a s.contents.mem :=
            exists_walk sorted ((find_eq_some_iff sorted).mp found) has.1
          exact out _ m there rfl
        rw [other x out, load_of_contents reached, none]
        exact ⟨le_top, le_rfl⟩
    · intro x out
      rcases cases x with ⟨p, there, rfl⟩ | out'
      · obtain ⟨before, now⟩ := walked p there
        rw [before, now]
        exact (each p there).2 out
      · exact other x out'

theorem after_stop (junk : Address → V) (c : Address × V) : after (joined junk) (c, .stop) = c.2 ⊔ junk c.1 := by
  unfold after joined
  dsimp only
  split
  · rfl
  case isFalse top => exact (not_not.mp top).symm

theorem store_range_sound_iff (s : T n V) (r : Area) (v : V) : StoreSound multiMax s r v ↔ StoreFits multiMax s r v := by
  unfold StoreFits StoreSound
  by_cases bottom : s = .bot
  · subst bottom
    rw [and_iff_left fun ne => absurd rfl ne, forall_prop_of_true rfl]
    constructor
    · intro sound
      exact le_bot_iff.mp ((sound fun _ => ⊥).1 r.a ⟨r.lt, 0, by simp⟩).1
    · rintro rfl junk
      exact ⟨fun x _ => ⟨bot_le, le_rfl⟩, fun x _ => rfl⟩
  have stored : ∀ junk, storeRange multiMax junk s r v ≠ .bot ∧
      (storeRange multiMax junk s r v).contents.mem = storeMem multiMax junk r v s.contents.mem := by
    intro junk
    cases s with
    | bot => exact absurd rfl bottom
    | top | made c => exact ⟨nofun, rfl⟩
  rw [and_iff_right fun eq => absurd eq bottom, forall_prop_of_true bottom]
  by_cases clears : r.large multiMax ∨ v = ⊤
  · rw [if_pos clears]
    have rebuilds : ∀ junk, (storeRange multiMax junk s r v).contents.mem = rebuilt r true cleared r.a s.contents.mem := by
      intro junk
      rw [(stored junk).2, storeMem, if_pos clears, clearMem_eq]
    rw [forall_congr' fun junk => stored_iff key_of_cleared bottom (stored junk).1 (rebuilds junk), forall_const]
    refine forall₂_congr fun p _ => ?_
    rcases p with ⟨c, stop | jump | pass⟩ <;> simp [after, cleared, eq_comm]
  · rw [if_neg clears]
    have rebuilds : ∀ junk, (storeRange multiMax junk s r v).contents.mem =
        rebuilt r false (joined junk) r.a s.contents.mem := by
      intro junk
      rw [(stored junk).2, storeMem, if_neg clears, joinRange_eq]
    rw [forall_congr' fun junk => stored_iff (key_of_joined junk) bottom (stored junk).1 (rebuilds junk)]
    constructor
    · rintro sound ⟨c, m⟩ there
      cases m with
      | stop =>
        -- the variable may hold the bottom value, or the top one
        have low := sound (fun _ => ⊥) _ there
        have high := sound (fun _ => ⊤) _ there
        rw [after_stop, sup_bot_eq] at low
        rw [after_stop, sup_top_eq] at high
        exact ⟨fun has _ => (low.1 has).1, fun out _ => (high.2 out).symm⟩
      | jump => exact ⟨fun _ ne => absurd rfl ne, fun out _ => ((sound (fun _ => ⊥) _ there).2 out).symm⟩
      | pass => exact ⟨fun has _ => ((sound (fun _ => ⊥) _ there).1 has).1, fun _ ne => absurd rfl ne⟩
    · rintro fits junk ⟨c, m⟩ there
      obtain ⟨inside, outside⟩ := fits _ there
      cases m with
      | stop =>
        rw [after_stop]
        refine ⟨fun has => ⟨(inside has nofun).trans le_sup_left, le_sup_left⟩, fun out => ?_⟩
        rw [outside out nofun, top_sup_eq]
      | jump => exact ⟨fun _ => ⟨le_top, le_top⟩, fun out => (outside out nofun).symm⟩
      | pass => exact ⟨fun has => ⟨inside has nofun, le_rfl⟩, fun _ => rfl⟩

/-! ### Loads -/

omit [DecidableEq V] in
/-- `load` for an area. -/
def loadRange (s : T n V) (r : Area) : V :=
  if r.large multiMax then ⊤ else loadMem r r.a ⊥ s.contents.mem

/-- The values of the cells that a load finds. -/
def foundValues (r : Area) (a : Address) (l : List (Address × V)) : List V :=
  (walk r false a l).filterMap fun p => if p.2 = .stop then some p.1.2 else none

/-- A load from an area gives a value above the one of each address. -/
def LoadSound (s : T n V) (r : Area) : Prop :=
  ∀ x, r.Has x → load s x ≤ loadRange multiMax s r

/-- When the load from an area is right: it gives top without a look at the cells, the state is the bottom one, each address
has a cell, or the values of the cells found join to top. -/
def LoadFits (s : T n V) (r : Area) : Prop :=
  r.large multiMax ∨ s = .bot ∨ (∀ x, r.Has x → ∃ v, (x, v) ∈ s.contents.mem) ∨
    (foundValues r r.a s.contents.mem).foldr (· ⊔ ·) ⊥ = ⊤

omit [DecidableEq V] in
theorem loadMem_eq (r : Area) (a : Address) (v : V) (l : List (Address × V)) :
    loadMem r a v l = v ⊔ (foundValues r a l).foldr (· ⊔ ·) ⊥ := by
  induction l generalizing a v with
  | nil => exact (sup_bot_eq v).symm
  | cons c l ih =>
    unfold foundValues at *
    unfold loadMem walk
    by_cases lt : c.1 < r.b
    · rw [if_pos lt, if_pos lt]
      by_cases eq : c.1 = a
      · rw [if_pos eq, if_pos eq, ih, sup_assoc]
        rfl
      · rw [if_neg eq, if_neg eq]
        split <;> exact ih _ v
    · rw [if_neg lt, if_neg lt]
      exact (sup_bot_eq v).symm

omit [SemilatticeSup V] [BoundedOrder V] [DecidableEq V] in
/-- Where each address of the area has a cell, all of them are found. -/
theorem stop_of_full {k : ℕ} (place : a.val = r.a.val + k * r.off.val) (lt : a < r.b) (sorted : Sorted l)
    (full : ∀ x, r.Has x → a ≤ x → ∃ v, (x, v) ∈ l) (has : r.Has x) (le : a ≤ x) (mem : (x, v) ∈ l) :
    ((x, v), .stop) ∈ walk r false a l := by
  induction l generalizing a k with
  | nil => exact absurd mem List.not_mem_nil
  | cons c l ih =>
    obtain ⟨above, rest⟩ := List.pairwise_cons.mp sorted
    obtain ⟨w, here⟩ := full a ⟨lt, k, place⟩ le_rfl
    have first : c.1 ≤ a := by
      rcases List.mem_cons.mp here with eq | later
      · rw [← eq]
      · exact le_of_lt (above _ later)
    have tail : ∀ {y u}, c.1 < y → (y, u) ∈ c :: l → (y, u) ∈ l := by
      intro y u gt there
      refine (List.mem_cons.mp there).resolve_left ?_
      rintro rfl
      exact lt_irrefl _ gt
    unfold walk
    rw [if_pos (first.trans_lt lt)]
    by_cases eq : c.1 = a
    · rw [if_pos eq, if_neg (by decide)]
      rcases le.eq_or_lt with rfl | gt
      · refine List.mem_cons.mpr (.inl (congrArg (·, Meets.stop) ?_))
        rcases List.mem_cons.mp mem with head | later
        · exact head
        · exact absurd (above _ later) (eq ▸ lt_irrefl _)
      · refine List.mem_cons_of_mem _ ?_
        have step : ∀ {y}, r.Has y → a < y → a.val + r.off.val ≤ y.val := by
          rintro y ⟨-, j, at_y⟩ gt
          have lt' : k * r.off.val < j * r.off.val := by
            have : a.val < y.val := gt
            omega
          have := Nat.mul_le_mul_right r.off.val (Nat.succ_le_of_lt (Nat.lt_of_mul_lt_mul_right lt'))
          rw [Nat.succ_mul] at this
          omega
        have next : (a + r.off).val = a.val + r.off.val := by
          rw [Fin.val_add, Nat.mod_eq_of_lt ((step has gt).trans_lt x.isLt)]
        have up : ∀ {y}, a + r.off ≤ y → a < y := by
          intro y le
          have : (a + r.off).val ≤ y.val := le
          have pos : 0 < r.off.val := r.pos
          exact Fin.lt_def.mpr (by omega)
        have below : ∀ {y}, r.Has y → a < y → a + r.off ≤ y := by
          intro y has gt
          exact Fin.le_def.mpr (next ▸ step has gt)
        refine ih (k := k + 1) ?_ ((below has gt).trans_lt has.1) rest (fun y has' le' => ?_) (below has gt)
          (tail (eq ▸ gt) mem)
        · rw [next, place, Nat.succ_mul, Nat.add_assoc]
        · obtain ⟨u, there⟩ := full y has' (le_of_lt (up le'))
          exact ⟨u, tail (eq ▸ up le') there⟩
    · have before := first.lt_of_ne eq
      rw [if_neg eq, if_neg (not_lt.mpr first)]
      refine List.mem_cons_of_mem _ (ih place lt rest (fun y has' le' => ?_) le (tail (before.trans_le le) mem))
      obtain ⟨u, there⟩ := full y has' le'
      exact ⟨u, tail (before.trans_le le') there⟩

omit [DecidableEq V] in
theorem le_found (mem : ((x, v), .stop) ∈ walk r false a l) : v ≤ (foundValues r a l).foldr (· ⊔ ·) ⊥ := by
  have there : v ∈ foundValues r a l := List.mem_filterMap.mpr ⟨_, mem, if_pos rfl⟩
  generalize foundValues r a l = values at there
  induction values with
  | nil => exact absurd there List.not_mem_nil
  | cons w ws ih =>
    rcases List.mem_cons.mp there with rfl | there
    · exact le_sup_left
    · exact (ih there).trans le_sup_right

omit [DecidableEq V] in
theorem load_range_sound_iff (s : T n V) (r : Area) : LoadSound multiMax s r ↔ LoadFits multiMax s r := by
  unfold LoadSound LoadFits loadRange
  by_cases large : r.large multiMax
  · rw [if_pos large]
    exact iff_of_true (fun _ _ => le_top) (.inl large)
  rw [if_neg large, or_iff_right large, loadMem_eq, bot_sup_eq]
  by_cases bottom : s = .bot
  · subst bottom
    exact iff_of_true (fun _ _ => bot_le) (.inl rfl)
  rw [or_iff_right bottom]
  have sorted := s.contents.sorted
  constructor
  · intro sound
    by_cases full : ∀ x, r.Has x → ∃ v, (x, v) ∈ s.contents.mem
    · exact .inl full
    · -- an address without a cell has the top value
      push Not at full
      obtain ⟨x, has, none⟩ := full
      have value := sound x has
      rw [load_of_contents bottom, Option.eq_none_iff_forall_ne_some.mpr fun v found =>
        none v ((find_eq_some_iff sorted).mp found)] at value
      exact .inr (top_le_iff.mp value)
  · rintro (full | top) x has
    · obtain ⟨v, mem⟩ := full x has
      obtain ⟨j, at_x⟩ := has.2
      rw [load_of_contents bottom, (find_eq_some_iff sorted).mpr mem]
      refine le_found (stop_of_full (k := 0) (by simp) r.lt sorted (fun y has' _ => full y has') has ?_ mem)
      exact Fin.le_def.mpr (by omega)
    · rw [top]
      exact le_top

/-- A store to an area and a load from one are right exactly where they fit. -/
theorem range_sound_iff (s : T n V) (r r' : Area) (v : V) :
    StoreSound multiMax s r v ∧ LoadSound multiMax s r' ↔ StoreFits multiMax s r v ∧ LoadFits multiMax s r' :=
  and_congr (store_range_sound_iff multiMax s r v) (load_range_sound_iff multiMax s r')

end Lattice

/-- Four words. -/
def words : Area := ⟨0, 16, 4, by decide, by decide⟩

/-- A load of four words of which one has been stored gives its value, where the others are top. -/
theorem load_misses_gaps : ¬ ∀ (s : T 1 (Fin 3)) (r : Area) (v : Fin 3),
    StoreSound 8 s r v ∧ LoadSound 8 s r := by
  intro sound
  have value := (sound (store .top 0 1) words 1).2 4 ⟨by decide, 1, by decide⟩
  exact absurd value (by decide)

end Otawa.FastState
