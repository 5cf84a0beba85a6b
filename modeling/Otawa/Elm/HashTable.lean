import Otawa.Lib.MoveToFront
import Mathlib.Data.Set.Card

/-!
# Hash tables of ELM

`genstruct::HashTable`: an array of chains, where a look-up moves the node it finds to the head of its chain. A node is
known by its key, which no other node has. `Refines`: each key is in the chain of its hash and has one node at most, and
the look-ups read a map.
-/

namespace Otawa.Elm

open MoveToFront

/-- The chains beyond the size are not used. -/
structure HashTable (K T : Type) where
  size : ℕ
  pos : 0 < size
  tab : ℕ → List (K × T)

namespace HashTable

variable {K T : Type} [DecidableEq K] (hash : K → ℕ)

def empty (size : ℕ) (pos : 0 < size) : HashTable K T :=
  ⟨size, pos, fun _ => []⟩

def setChain (t : HashTable K T) (i : ℕ) (chain : List (K × T)) : HashTable K T :=
  { t with tab := Function.update t.tab i chain }

def bucket (t : HashTable K T) (key : K) : ℕ :=
  hash key % t.size

/-- `H::equals`. -/
def isKey (key : K) (node : K × T) : Bool :=
  node.1 = key

/-- The node that is found is the head of its chain afterwards. -/
def find (t : HashTable K T) (key : K) : Option (K × T) × HashTable K T :=
  let i := t.bucket hash key
  ((t.tab i).find? (isKey key), t.setChain i (moveToFront (isKey key) (t.tab i)))

def make (t : HashTable K T) (key : K) (value : T) : HashTable K T :=
  let i := t.bucket hash key
  t.setChain i ((key, value) :: t.tab i)

/-- `node->value = value` for a node that has just been found. -/
def setFound (t : HashTable K T) (node : K × T) (value : T) : HashTable K T :=
  let i := t.bucket hash node.1
  t.setChain i ((node.1, value) :: (t.tab i).tail)

def get (t : HashTable K T) (key : K) : Option T × HashTable K T :=
  ((t.find hash key).1.map Prod.snd, (t.find hash key).2)

def hasKey (t : HashTable K T) (key : K) : Bool × HashTable K T :=
  ((t.find hash key).1.isSome, (t.find hash key).2)

def put (t : HashTable K T) (key : K) (value : T) : HashTable K T :=
  match (t.find hash key).1 with
  | some node => (t.find hash key).2.setFound hash node value
  | none => (t.find hash key).2.make hash key value

/-- `Ref::operator=`: the value of a node that is found stays. -/
def assign (t : HashTable K T) (key : K) (value : T) : HashTable K T :=
  match (t.find hash key).1 with
  | some _ => (t.find hash key).2
  | none => (t.find hash key).2.make hash key value

def remove (t : HashTable K T) (key : K) : HashTable K T :=
  let i := t.bucket hash key
  t.setChain i ((t.tab i).eraseP (isKey key))

def clear (t : HashTable K T) : HashTable K T :=
  { t with tab := fun i => if i < t.size then [] else t.tab i }

/-- The nodes in the order of the loops over the chains. -/
def entries (t : HashTable K T) : List (K × T) :=
  (List.range t.size).flatMap t.tab

def putAll (t htab : HashTable K T) : HashTable K T :=
  htab.entries.foldl (fun t node => t.put hash node.1 node.2) t

/-- The constructors from a table, with the size of that table or another one. -/
def copy (h : HashTable K T) (size : ℕ) (pos : 0 < size) : HashTable K T :=
  (empty size pos).putAll hash h

/-- `operator=`. -/
def assignAll (t h : HashTable K T) : HashTable K T :=
  t.clear.putAll hash h

def count (t : HashTable K T) : ℕ :=
  (List.range t.size).foldl (fun cnt i => (t.tab i).foldl (fun cnt _ => cnt + 1) cnt) 0

variable {hash}

/-! ### One chain -/

/-- The value of a key in a chain. -/
def lookup (chain : List (K × T)) (key : K) : Option T :=
  (chain.find? (isKey key)).map Prod.snd

variable {chain chain' : List (K × T)} {key k : K} {value v : T} {t : HashTable K T} {m : K → Option T} {i : ℕ}

@[simp] theorem isKey_iff {node : K × T} : isKey key node = true ↔ node.1 = key := decide_eq_true_iff

theorem isKey_ne (h : k ≠ key) (node : K × T) (hnode : isKey key node = true) : isKey k node = false := by
  have hkey := isKey_iff.mp hnode
  exact decide_eq_false fun heq => h (heq.symm.trans hkey)

theorem lookup_cons (key k : K) (value : T) (chain : List (K × T)) :
    lookup ((key, value) :: chain) k = if k = key then some value else lookup chain k := by
  unfold lookup
  by_cases h : k = key
  · rw [if_pos h, List.find?_cons_of_pos (isKey_iff.mpr h.symm)]
    rfl
  · rw [if_neg h, List.find?_cons_of_neg fun heq => h (isKey_iff.mp heq).symm]

theorem lookup_moveToFront (key k : K) (chain : List (K × T)) :
    lookup (moveToFront (isKey key) chain) k = lookup chain k := by
  unfold lookup
  rw [← List.head?_filter, ← List.head?_filter]
  by_cases h : k = key
  · rw [h, filter_moveToFront]
  · rw [filter_moveToFront_of_ne (isKey_ne h)]

theorem lookup_isSome : (lookup chain k).isSome = true ↔ k ∈ chain.map Prod.fst := by
  rw [lookup, Option.isSome_map, List.find?_isSome]
  simp

theorem lookup_eq_some (hnodup : (chain.map Prod.fst).Nodup) : lookup chain k = some v ↔ (k, v) ∈ chain := by
  induction chain with
  | nil => simp [lookup]
  | cons node chain ih =>
    obtain ⟨key, value⟩ := node
    obtain ⟨hnot, hrest⟩ := List.nodup_cons.mp hnodup
    rw [lookup_cons]
    split
    case isTrue heq =>
      subst heq
      constructor
      · rintro ⟨⟩
        exact List.mem_cons_self
      · intro hmem
        rcases List.mem_cons.mp hmem with heq | hmem
        · rw [(Prod.mk.inj heq).2]
        · exact absurd (List.mem_map_of_mem hmem) hnot
    case isFalse hne =>
      rw [ih hrest, List.mem_cons, or_iff_right]
      exact fun heq => hne (Prod.mk.inj heq).1

theorem lookup_congr (hsame : chain.filter (isKey k) = chain'.filter (isKey k)) :
    lookup chain k = lookup chain' k := by
  unfold lookup
  rw [← List.head?_filter, ← List.head?_filter, hsame]

theorem lookup_eraseP (hnodup : (chain.map Prod.fst).Nodup) (key k : K) :
    lookup (chain.eraseP (isKey key)) k = if k = key then none else lookup chain k := by
  rcases splits_or_none (isKey key) chain with ⟨pre, a, post, hsplit⟩ | hnone
  · rw [hsplit.eraseP, hsplit.eq]
    have ha := isKey_iff.mp hsplit.holds
    split
    case isTrue heq =>
      subst heq
      rw [← Option.not_isSome_iff_eq_none, lookup_isSome]
      rw [hsplit.eq, List.map_append, List.map_cons] at hnodup
      rw [List.map_append, ← ha]
      exact (List.nodup_middle.mp hnodup).notMem
    case isFalse hne =>
      refine lookup_congr ?_
      have hnot : ¬ isKey k a = true := by simp [isKey_ne hne a hsplit.holds]
      rw [List.filter_append, List.filter_append, List.filter_cons_of_neg hnot]
  · rw [List.eraseP_of_forall_not fun a ha => by simp [hnone a ha]]
    split
    case isTrue heq =>
      subst heq
      rw [← Option.not_isSome_iff_eq_none, lookup_isSome]
      intro hmem
      obtain ⟨a, ha, hkey⟩ := List.mem_map.mp hmem
      exact absurd (isKey_iff.mpr hkey) (by simp [hnone a ha])
    case isFalse => rfl

/-! ### The table -/

variable (hash) in
/-- Each key is in the chain of its hash, with one node, and the look-ups read the map. -/
structure Refines (t : HashTable K T) (m : K → Option T) : Prop where
  placed : ∀ i, ∀ node ∈ t.tab i, t.bucket hash node.1 = i
  nodup : ∀ i, ((t.tab i).map Prod.fst).Nodup
  lookup : ∀ key, lookup (t.tab (t.bucket hash key)) key = m key

section

omit [DecidableEq K]

@[simp] theorem setChain_size : (t.setChain i chain).size = t.size := rfl

@[simp] theorem bucket_setChain : (t.setChain i chain).bucket hash key = t.bucket hash key := rfl

@[simp] theorem setChain_same : (t.setChain i chain).tab i = chain := by
  simp [HashTable.setChain]

theorem setChain_other {j : ℕ} (h : j ≠ i) : (t.setChain i chain).tab j = t.tab j := by
  simp [HashTable.setChain, h]

theorem bucket_lt (t : HashTable K T) (key : K) : t.bucket hash key < t.size := Nat.mod_lt _ t.pos

end

/-- A change of the chain of a key. -/
theorem Refines.setChain (h : Refines hash t m) (key : K) (value : Option T) (hnodup : (chain.map Prod.fst).Nodup)
    (hplaced : ∀ node ∈ chain, t.bucket hash node.1 = t.bucket hash key)
    (hlookup : ∀ k, HashTable.lookup chain k =
      if k = key then value else HashTable.lookup (t.tab (t.bucket hash key)) k) :
    Refines hash (t.setChain (t.bucket hash key) chain) (Function.update m key value) where
  placed i node hnode := by
    by_cases hi : i = t.bucket hash key
    · subst hi
      rw [setChain_same] at hnode
      exact hplaced node hnode
    · rw [setChain_other hi] at hnode
      exact h.placed i node hnode
  nodup i := by
    by_cases hi : i = t.bucket hash key
    · subst hi
      rwa [setChain_same]
    · rw [setChain_other hi]
      exact h.nodup i
  lookup k := by
    rw [bucket_setChain]
    by_cases hk : k = key
    · subst hk
      rw [setChain_same, hlookup, if_pos rfl, Function.update_self]
    · rw [Function.update_of_ne hk, ← h.lookup k]
      by_cases hi : t.bucket hash k = t.bucket hash key
      · rw [hi, setChain_same, hlookup, if_neg hk]
      · rw [setChain_other hi]

theorem keys_moveToFront (key : K) (chain : List (K × T)) :
    ((moveToFront (isKey key) chain).map Prod.fst).Perm (chain.map Prod.fst) :=
  (moveToFront_perm _ chain).map Prod.fst

theorem Refines.find (h : Refines hash t m) (key : K) : Refines hash (t.find hash key).2 m := by
  have hset : Refines hash (t.find hash key).2 (Function.update m key (m key)) := by
    refine h.setChain key (m key) ((keys_moveToFront key _).nodup_iff.mpr (h.nodup _)) (fun node hnode => ?_) fun k => ?_
    · exact h.placed _ node ((moveToFront_perm _ _).mem_iff.mp hnode)
    · rw [lookup_moveToFront]
      split
      case isTrue heq => rw [heq, h.lookup]
      case isFalse => rfl
  rwa [Function.update_eq_self] at hset

theorem Refines.get (h : Refines hash t m) (key : K) : (t.get hash key).1 = m key :=
  h.lookup key

theorem Refines.hasKey (h : Refines hash t m) (key : K) : (t.hasKey hash key).1 = (m key).isSome := by
  rw [← h.lookup key, HashTable.lookup, Option.isSome_map]
  rfl

/-- The key of a node that is made has none. -/
theorem Refines.make (h : Refines hash t m) (hkey : m key = none) (value : T) :
    Refines hash (t.make hash key value) (Function.update m key (some value)) := by
  refine h.setChain key (some value) ?_ ?_ fun k => lookup_cons key k value _
  · rw [List.map_cons, List.nodup_cons]
    refine ⟨fun hmem => ?_, h.nodup _⟩
    have hsome := lookup_isSome.mpr hmem
    rw [h.lookup, hkey] at hsome
    cases hsome
  · intro node hnode
    rcases List.mem_cons.mp hnode with rfl | hnode
    · rfl
    · exact h.placed _ node hnode

/-- A node that is found is the head of the chain of the key. -/
theorem find_some {a : K × T} (hfind : (t.find hash key).1 = some a) :
    a.1 = key ∧ ∃ rest, (t.find hash key).2.tab (t.bucket hash key) = a :: rest := by
  rcases splits_or_none (isKey key) (t.tab (t.bucket hash key)) with ⟨pre, b, post, hsplit⟩ | hnone
  · have hb : some b = some a := hsplit.find?.symm.trans hfind
    obtain rfl := Option.some.inj hb
    refine ⟨isKey_iff.mp hsplit.holds, pre ++ post, ?_⟩
    rw [HashTable.find, setChain_same, hsplit.moveToFront]
  · have hno : (t.tab (t.bucket hash key)).find? (isKey key) = none :=
      List.find?_eq_none.mpr fun b hb => by simp [hnone b hb]
    rw [HashTable.find, hno] at hfind
    cases hfind

theorem Refines.of_find_none (h : Refines hash t m) (hfind : (t.find hash key).1 = none) : m key = none := by
  rw [← h.get key, HashTable.get, hfind]
  rfl

theorem Refines.put (h : Refines hash t m) (key : K) (value : T) :
    Refines hash (t.put hash key value) (Function.update m key (some value)) := by
  have hrefines := h.find key
  cases hfind : (t.find hash key).1 with
  | none =>
    rw [HashTable.put, hfind]
    exact hrefines.make (h.of_find_none hfind) value
  | some a =>
    obtain ⟨rfl, rest, hchain⟩ := find_some hfind
    rw [HashTable.put, hfind]
    have hfound : (t.find hash a.1).2.tab ((t.find hash a.1).2.bucket hash a.1) = a :: rest := hchain
    have hplaced := hrefines.placed ((t.find hash a.1).2.bucket hash a.1)
    have hnodup := hrefines.nodup ((t.find hash a.1).2.bucket hash a.1)
    rw [hfound] at hplaced hnodup
    refine hrefines.setChain a.1 (some value) ?_ ?_ fun k => ?_
    · rw [hfound]
      exact hnodup
    · intro node hnode
      rw [hfound, List.tail_cons] at hnode
      rcases List.mem_cons.mp hnode with rfl | hnode
      · rfl
      · exact hplaced node (List.mem_cons_of_mem a hnode)
    · rw [hfound, List.tail_cons, lookup_cons, lookup_cons a.1 k a.2 rest]
      split
      case isTrue => rfl
      case isFalse => rfl

theorem Refines.assign (h : Refines hash t m) (key : K) (value : T) (hsame : ∀ old, m key = some old → old = value) :
    Refines hash (t.assign hash key value) (Function.update m key (some value)) := by
  have hrefines := h.find key
  cases hfind : (t.find hash key).1 with
  | none =>
    rw [HashTable.assign, hfind]
    exact hrefines.make (h.of_find_none hfind) value
  | some a =>
    have hget := h.get key
    rw [HashTable.get, hfind] at hget
    rw [HashTable.assign, hfind, ← hsame a.2 hget.symm]
    have hsome : Function.update m key (some a.2) = m := by
      rw [Function.update_eq_iff]
      exact ⟨hget, fun _ _ => rfl⟩
    rwa [hsome]

theorem Refines.remove (h : Refines hash t m) (key : K) :
    Refines hash (t.remove hash key) (Function.update m key none) := by
  refine h.setChain key none ?_ ?_ fun k => lookup_eraseP (h.nodup _) key k
  · exact (h.nodup _).sublist (List.eraseP_sublist.map Prod.fst)
  · intro node hnode
    exact h.placed _ node (List.mem_of_mem_eraseP hnode)

theorem refines_empty (size : ℕ) (pos : 0 < size) : Refines hash (empty size pos : HashTable K T) fun _ => none where
  placed _ _ hnode := absurd hnode List.not_mem_nil
  nodup _ := List.nodup_nil
  lookup _ := rfl

theorem refines_clear (t : HashTable K T) (h : ∀ i, t.size ≤ i → t.tab i = []) : Refines hash t.clear fun _ => none := by
  have hnil : ∀ i, t.clear.tab i = [] := by
    intro i
    rw [clear]
    dsimp only
    split
    case isTrue => rfl
    case isFalse hle => exact h i (Nat.le_of_not_lt hle)
  constructor
  · intro i node hnode
    rw [hnil] at hnode
    cases hnode
  · intro i
    rw [hnil]
    exact List.nodup_nil
  · intro key
    rw [hnil]
    rfl

section

variable (h : Refines hash t m)
include h

theorem Refines.unused (i : ℕ) (hi : t.size ≤ i) : t.tab i = [] := by
  refine List.eq_nil_iff_forall_not_mem.mpr fun node hnode => ?_
  have hlt : t.bucket hash node.1 < t.size := t.bucket_lt node.1
  rw [h.placed i node hnode] at hlt
  exact Nat.not_lt.mpr hi hlt

theorem Refines.clear : Refines hash t.clear fun _ => none :=
  refines_clear t h.unused

/-- The map after the nodes of a table. -/
def mapAll (m : K → Option T) (nodes : List (K × T)) : K → Option T :=
  nodes.foldl (fun m node => Function.update m node.1 (some node.2)) m

theorem Refines.putAll (htab : HashTable K T) : Refines hash (t.putAll hash htab) (mapAll m htab.entries) := by
  unfold HashTable.putAll mapAll
  generalize htab.entries = nodes
  induction nodes generalizing t m with
  | nil => exact h
  | cons node nodes ih => exact ih (h.put node.1 node.2)

/-! ### The nodes -/

theorem mem_entries {node : K × T} : node ∈ t.entries ↔ m node.1 = some node.2 := by
  rw [← h.lookup node.1, lookup_eq_some (h.nodup _), entries, List.mem_flatMap]
  constructor
  · rintro ⟨i, -, hnode⟩
    rw [h.placed i node hnode]
    exact hnode
  · intro hnode
    exact ⟨_, List.mem_range.mpr (t.bucket_lt node.1), hnode⟩

theorem mem_keys : k ∈ t.entries.map Prod.fst ↔ m k ≠ none := by
  constructor
  · intro hk
    obtain ⟨node, hnode, rfl⟩ := List.mem_map.mp hk
    rw [(mem_entries h).mp hnode]
    exact Option.some_ne_none _
  · intro hk
    obtain ⟨v, hv⟩ := Option.ne_none_iff_exists'.mp hk
    exact List.mem_map.mpr ⟨(k, v), (mem_entries h).mpr hv, rfl⟩

theorem nodup_keys : (t.entries.map Prod.fst).Nodup := by
  rw [entries, List.map_flatMap, List.nodup_flatMap]
  refine ⟨fun i _ => h.nodup i, ?_⟩
  refine List.Pairwise.imp (fun {i j} hne => ?_) List.nodup_range
  intro k hi hj
  obtain ⟨node, hnode, rfl⟩ := List.mem_map.mp hi
  obtain ⟨node', hnode', heq⟩ := List.mem_map.mp hj
  exact hne ((h.placed i node hnode).symm.trans (heq ▸ h.placed j node' hnode'))

end

omit [DecidableEq K] in
theorem count_eq (t : HashTable K T) : t.count = t.entries.length := by
  have hchain : ∀ (chain : List (K × T)) cnt, chain.foldl (fun cnt _ => cnt + 1) cnt = cnt + chain.length := by
    intro chain
    induction chain with
    | nil => exact fun _ => rfl
    | cons node chain ih =>
      intro cnt
      rw [List.foldl_cons, ih, List.length_cons, Nat.add_assoc, Nat.add_comm 1]
  have hall : ∀ (is : List ℕ) cnt,
      is.foldl (fun cnt i => (t.tab i).foldl (fun cnt _ => cnt + 1) cnt) cnt = cnt + (is.flatMap t.tab).length := by
    intro is
    induction is with
    | nil => exact fun _ => rfl
    | cons i is ih =>
      intro cnt
      rw [List.foldl_cons, ih, hchain, List.flatMap_cons, List.length_append, Nat.add_assoc]
  rw [count, hall, Nat.zero_add]
  rfl

theorem count_eq_ncard (h : Refines hash t m) : t.count = { k | m k ≠ none }.ncard := by
  have hset : { k | m k ≠ none } = ((t.entries.map Prod.fst).toFinset : Set K) := by
    ext k
    rw [Finset.mem_coe, List.mem_toFinset]
    exact (mem_keys h).symm
  rw [hset, Set.ncard_coe_finset, List.toFinset_card_of_nodup (nodup_keys h), List.length_map, count_eq]

theorem entries_find (t : HashTable K T) (key : K) : (t.find hash key).2.entries.Perm t.entries := by
  refine List.Perm.flatMap_left _ fun i _ => ?_
  rw [HashTable.find]
  dsimp only
  by_cases hi : i = t.bucket hash key
  · subst hi
    rw [setChain_same]
    exact moveToFront_perm _ _
  · rw [setChain_other hi]

end HashTable

end Otawa.Elm
