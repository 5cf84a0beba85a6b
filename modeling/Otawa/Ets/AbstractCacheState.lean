import Mathlib.Data.Int.Notation
import Mathlib.Data.Nat.Notation
import Mathlib.Logic.Basic

/-!
# Abstract states of a cache row

`AbstractCacheState`: for each age, the set of the L-blocks of one cache row that are known to have it, as a bit vector
over their indexes. The operations fail where an assertion of the vectors does.
-/

namespace Otawa.Ets

/-- The hash tables, with an address for key. -/
abbrev HashTable (T : Type) := List (ℕ × T)

def HashTable.exists {T : Type} (table : HashTable T) (key : ℕ) : Bool :=
  (table.lookup key).isSome

def HashTable.put {T : Type} (table : HashTable T) (key : ℕ) (value : T) : HashTable T :=
  (key, value) :: table.filter fun entry => entry.1 ≠ key

abbrev BitVector := List Bool

namespace BitVector

def set (bits : BitVector) (index : ℕ) (value : Bool) : Option BitVector :=
  if index < bits.length then some (List.set bits index value) else none

def clear (bits : BitVector) : BitVector :=
  List.replicate bits.length false

def applyOr (bits vec : BitVector) : Option BitVector :=
  if bits.length = vec.length then some (List.zipWith (· || ·) bits vec) else none

def equals (bits vec : BitVector) : Option Bool :=
  if bits.length = vec.length then some (bits = vec) else none

end BitVector

/-- `categorisation_t`. -/
inductive Categorisation where
  | alwaysMiss
  | alwaysHit
  | firstMiss
  | conflict
  deriving DecidableEq

/-- The categories are kept as integers, with `-1` for an absent one. -/
def Categorisation.toInt : Categorisation → ℤ
  | alwaysMiss => 0
  | alwaysHit => 1
  | firstMiss => 2
  | conflict => 3

structure AbstractCacheState where
  cacheState : List BitVector
  htable : HashTable ℕ
  cacheLine : ℕ
  hcat : HashTable ℤ
  deriving DecidableEq

namespace AbstractCacheState

def areDifferentFrom : List BitVector → List BitVector → Option Bool
  | _, [] => some false
  | [], _ :: _ => none
  | bits :: rows, vec :: others => do
      if ← bits.equals vec then areDifferentFrom rows others else some true

def areDifferent (acs other : AbstractCacheState) : Option Bool :=
  areDifferentFrom acs.cacheState other.cacheState

/-- The greatest ages of an L-block in two states, none for `-1`. -/
def ages (state1 state2 : AbstractCacheState) (key : ℕ) : Option (Option ℕ × Option ℕ) := do
  -- an absent key has index -1, which no vector holds
  let index1 ← state1.htable.lookup key
  let index2 ← state2.htable.lookup key
  (List.range state1.cacheState.length).foldlM (fun ages i => do
    let bits1 ← state1.cacheState[i]?
    let bits2 ← state2.cacheState[i]?
    let bit1 ← bits1[index1]?
    let bit2 ← bits2[index2]?
    some (if bit1 then some i else ages.1, if bit2 then some i else ages.2)) (none, none)

/-- One key of the intersection. `set(k, true)` takes the iterator for an index through its conversion to `bool`: the bit
that is set is the bit 1. -/
def joinKey (state1 state2 : AbstractCacheState) (rows : List BitVector) (key : ℕ) : Option (List BitVector) := do
  match ← ages state1 state2 key with
  | (some a, some b) =>
      let age := if a < b then b else a
      let bits ← rows[age]?
      let bits ← bits.set 1 true
      some (rows.set age bits)
  | _ => some rows

def join (acs state1 state2 : AbstractCacheState) : Option AbstractCacheState := do
  let hcat := state1.hcat.foldl (fun hcat entry =>
    if hcat.exists entry.1 then hcat else hcat.put entry.1 entry.2) acs.hcat
  -- the category of a key of the second state is looked for in the first one
  let hcat := state2.hcat.foldl (fun hcat entry =>
    if hcat.exists entry.1 then hcat else hcat.put entry.1 ((state1.hcat.lookup entry.1).getD (-1))) hcat
  let rows ← (acs.htable.map Prod.fst).foldlM (joinKey state1 state2) (acs.cacheState.map BitVector.clear)
  some { acs with cacheState := rows, hcat := hcat }

def assignRows : List BitVector → List BitVector → Option (List BitVector)
  | rows, [] => some rows
  | [], _ :: _ => none
  | bits :: rows, vec :: others => do
      let bits ← bits.clear.applyOr vec
      let rows ← assignRows rows others
      some (bits :: rows)

/-- `assignment`, from another object. -/
def assignment (acs other : AbstractCacheState) : Option AbstractCacheState := do
  let rows ← assignRows acs.cacheState other.cacheState
  some {
    cacheState := rows
    htable := other.htable.foldl (fun table entry =>
      if table.exists entry.1 then table else table.put entry.1 entry.2) acs.htable
    hcat := other.hcat.foldl (fun table entry =>
      if table.exists entry.1 then table else table.put entry.1 entry.2) acs.hcat
    cacheLine := other.cacheLine }

/-- `assignment`, from the object itself: each row is cleared before it is read. -/
def selfAssignment (acs : AbstractCacheState) : AbstractCacheState :=
  { acs with cacheState := acs.cacheState.map BitVector.clear }

def byConflict (acs : AbstractCacheState) : Bool :=
  acs.cacheState.any fun bits => 1 < bits.count true

/-! ### The rows after an access -/

/-- The variables of the loop over the rows of `cache_state`. -/
structure Update where
  stop : Bool
  rows : List BitVector
  cacheTmp : List BitVector

/-- One turn of the loop, for the L-block of index `index`. -/
def updateRow (index : ℕ) (u : Update) (x : ℕ) : Option Update := do
  let bits ← u.rows[x]?
  if u.stop then
    -- cache_tmp.set(x, ..) asserts that the vector holds x
    if x < u.cacheTmp.length then some { u with cacheTmp := u.cacheTmp.set x bits } else none
  else if ← bits[index]? then
    let bits ← bits.set index false
    let tmp ← u.cacheTmp[x]?
    let tmp ← tmp.applyOr bits
    some { stop := true, rows := u.rows.set x bits, cacheTmp := u.cacheTmp.set x tmp }
  else if x + 1 < u.rows.length then some { u with cacheTmp := u.cacheTmp ++ [bits] }
  else some u

/-- The update for an access: whether the L-block was there, and the rows after it. -/
def update (index : ℕ) (rows : List BitVector) : Option (Bool × List BitVector) := do
  let bits ← rows[0]?
  let first ← bits.clear.set index true
  let u ← (List.range rows.length).foldlM (updateRow index) ⟨false, rows, [first]⟩
  let rows ← (List.range rows.length).mapM fun y => u.cacheTmp[y]?
  some (u.stop, rows)

/-- The turns of the loop keep the L-block in the first vector. -/
theorem updateRow_first {index x : ℕ} {u u' : Update} (h : updateRow index u x = some u')
    (hstop : u.stop = true → 0 < x) (hfirst : ∃ bits, u.cacheTmp[0]? = some bits ∧ bits[index]? = some true) :
    ∃ bits, u'.cacheTmp[0]? = some bits ∧ bits[index]? = some true := by
  obtain ⟨first, hhead, hbit⟩ := hfirst
  simp only [updateRow, Option.bind_eq_bind, Option.bind_eq_some_iff] at h
  obtain ⟨bits, -, h⟩ := h
  split at h
  · rename_i stopped
    split at h
    · cases h
      refine ⟨first, ?_, hbit⟩
      rw [List.getElem?_set_ne (Nat.ne_of_gt (hstop stopped))]
      exact hhead
    · cases h
  · obtain ⟨bit, -, h⟩ := Option.bind_eq_some_iff.mp h
    split at h
    · simp only [Option.bind_eq_some_iff] at h
      obtain ⟨cleared, -, tmp, htmp, joined, hjoined, h⟩ := h
      cases h
      by_cases hx : x = 0
      · subst hx
        obtain rfl : first = tmp := Option.some.inj (hhead.symm.trans htmp)
        refine ⟨joined, ?_, ?_⟩
        · rw [List.getElem?_set_self (List.getElem?_eq_some_iff.mp hhead).1]
        · unfold BitVector.applyOr at hjoined
          split at hjoined
          · rename_i hlen
            cases hjoined
            have hlt := (List.getElem?_eq_some_iff.mp hbit).1
            have hother : index < cleared.length := hlen ▸ hlt
            rw [List.getElem?_zipWith, hbit, List.getElem?_eq_getElem hother]
            rfl
          · cases hjoined
      · refine ⟨first, ?_, hbit⟩
        rw [List.getElem?_set_ne hx]
        exact hhead
    · split at h
      · cases h
        refine ⟨first, ?_, hbit⟩
        rw [List.getElem?_append_left (List.getElem?_eq_some_iff.mp hhead).1]
        exact hhead
      · cases h
        exact ⟨first, hhead, hbit⟩

theorem foldlM_first {index n x : ℕ} {u u' : Update} (h : (List.range' x n).foldlM (updateRow index) u = some u')
    (hstop : u.stop = true → 0 < x) (hfirst : ∃ bits, u.cacheTmp[0]? = some bits ∧ bits[index]? = some true) :
    ∃ bits, u'.cacheTmp[0]? = some bits ∧ bits[index]? = some true := by
  induction n generalizing x u with
  | zero =>
    cases h
    exact hfirst
  | succ n ih =>
    rw [List.range'_succ, List.foldlM_cons] at h
    obtain ⟨t, ht, hrest⟩ := Option.bind_eq_some_iff.mp h
    exact ih hrest (fun _ => Nat.succ_pos x) (updateRow_first ht hstop hfirst)

/-- After an access the L-block has age 0. -/
theorem update_first {index : ℕ} {rows rows' : List BitVector} {stop : Bool} (h : update index rows = some (stop, rows')) :
    ∃ bits, rows'[0]? = some bits ∧ bits[index]? = some true := by
  simp only [update, Option.bind_eq_bind, Option.bind_eq_some_iff] at h
  obtain ⟨bits, hbits, first, hset, u, hu, out, hout, h⟩ := h
  cases h
  have hhead : first[index]? = some true := by
    unfold BitVector.set at hset
    split at hset
    · rename_i hlt
      cases hset
      exact List.getElem?_set_self hlt
    · cases hset
  rw [List.range_eq_range'] at hu
  obtain ⟨kept, hkept, hbit⟩ := foldlM_first hu (fun stopped => absurd stopped Bool.false_ne_true) ⟨first, rfl, hhead⟩
  refine ⟨kept, ?_, hbit⟩
  have hpos : 0 < rows.length := (List.getElem?_eq_some_iff.mp hbits).1
  obtain ⟨n, hn⟩ := Nat.exists_eq_succ_of_ne_zero (Nat.ne_of_gt hpos)
  rw [hn, List.range_succ_eq_map, List.mapM_cons] at hout
  simp only [Option.bind_eq_bind, Option.bind_eq_some_iff] at hout
  obtain ⟨y, hy, ys, -, hout⟩ := hout
  cases hout
  rw [List.getElem?_cons_zero, ← hy]
  exact hkept

theorem exists_of_mem {T : Type} {table : HashTable T} {entry : ℕ × T} (h : entry ∈ table) :
    table.exists entry.1 = true := by
  induction table with
  | nil => cases h
  | cons first table ih =>
    unfold HashTable.exists at ih ⊢
    rw [List.lookup_cons]
    cases hkey : entry.1 == first.1 with
    | true => rfl
    | false =>
      rcases List.mem_cons.mp h with rfl | hmem
      · rw [beq_self_eq_true] at hkey
        cases hkey
      · exact ih hmem

/-- Nothing is added to a table that has the keys. -/
theorem foldl_put_self {T : Type} {table : HashTable T} {entries : List (ℕ × T)} (h : entries ⊆ table) :
    entries.foldl (fun table entry => if table.exists entry.1 then table else table.put entry.1 entry.2) table =
      table := by
  induction entries with
  | nil => rfl
  | cons entry entries ih =>
    rw [List.foldl_cons, if_pos (exists_of_mem (h List.mem_cons_self))]
    exact ih fun e he => h (List.mem_cons_of_mem entry he)

theorem assignment_htable {acs other out : AbstractCacheState} (h : acs.assignment other = some out)
    (hsame : other.htable = acs.htable) : out.htable = acs.htable ∧ out.cacheLine = other.cacheLine := by
  obtain ⟨rows, -, h⟩ := Option.bind_eq_some_iff.mp h
  cases h
  refine ⟨?_, rfl⟩
  simp only [hsame]
  exact foldl_put_self (List.Subset.refl _)

theorem join_htable {acs state1 state2 out : AbstractCacheState} (h : acs.join state1 state2 = some out) :
    out.htable = acs.htable ∧ out.cacheLine = acs.cacheLine := by
  obtain ⟨rows, -, h⟩ := Option.bind_eq_some_iff.mp h
  cases h
  exact ⟨rfl, rfl⟩

end AbstractCacheState

end Otawa.Ets
