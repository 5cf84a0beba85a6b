import Otawa.Elm.HashTable

/-!
# Runs over a hash table

The operations in any order, with an iteration over the keys that look-ups may come between. `run_correct`: the table
stays a map with one node for each key, and the iteration gives each key once and ends, when no assignment through
`operator[]` meets a key with another value, no look-up moves the current node of the iteration or one that is to come in
its chain, and no iteration over one key is made. `sameKeyItems_none`: the last one does not end.
-/

namespace Otawa.Elm.HashTable

open MoveToFront

variable {K T : Type} [DecidableEq K] (hash : K → ℕ)

/-! ### The iterators -/

/-- The chain and the key of the current node; `none` when the iterator is ended. -/
abbrev InternIterator (K : Type) := Option (ℕ × K)

/-- The head of the first chain from `i` on that is not empty. -/
def step (t : HashTable K T) (i : ℕ) : InternIterator K :=
  ((List.range' i (t.size - i)).find? fun j => !(t.tab j).isEmpty).bind fun j =>
    (t.tab j).head?.map fun node => (j, node.1)

def start (t : HashTable K T) : InternIterator K :=
  t.step 0

def next (t : HashTable K T) (it : InternIterator K) : InternIterator K :=
  it.bind fun (i, key) =>
    match (fromKey Prod.fst key (t.tab i)).tail with
    | node :: _ => some (i, node.1)
    | [] => t.step (i + 1)

/-- The keys that an iterator gives from its current one on, in a loop with `steps` tests at most. -/
def items (t : HashTable K T) : ℕ → InternIterator K → Option (List K)
  | 0, _ => none
  | _ + 1, none => some []
  | steps + 1, some (i, key) => (t.items steps (t.next (some (i, key)))).map (key :: ·)

/-- The current node of `SameKeyIterator`, at first and after each `next`, which goes back to the head of the chain. -/
def sameKeyNode (t : HashTable K T) (key : K) : Option (K × T) :=
  (t.tab (t.bucket hash key)).find? fun node => node.1 = key

/-- The values that the iterator gives. -/
def sameKeyItems (t : HashTable K T) (key : K) : ℕ → Option (K × T) → Option (List T)
  | 0, _ => none
  | _ + 1, none => some []
  | steps + 1, some node => (t.sameKeyItems key steps (t.sameKeyNode hash key)).map (node.2 :: ·)

/-! ### Runs -/

/-- A table, the map it stands for, and an iteration over its keys with the keys that it has given. -/
structure Session (K T : Type) where
  table : HashTable K T
  map : K → Option T
  live : Option (InternIterator K × List K)

inductive Op (K T : Type) where
  | put (key : K) (value : T)
  | remove (key : K)
  | assign (key : K) (value : T)
  | get (key : K)
  | hasKey (key : K)
  | putAll (htab : HashTable K T)
  | assignAll (h : HashTable K T)
  | copy (size : ℕ) (pos : 0 < size)
  | clear
  | iterate
  | next
  | sameKey (key : K)

/-- An iteration does not survive a change of the table. A failed assertion and a loop that does not end give `none`. -/
def apply (s : Session K T) : Op K T → Option (Session K T)
  | .put key value => some ⟨s.table.put hash key value, Function.update s.map key (some value), none⟩
  | .remove key => some ⟨s.table.remove hash key, Function.update s.map key none, none⟩
  | .assign key value => some ⟨s.table.assign hash key value, Function.update s.map key (some value), none⟩
  | .get key => some { s with table := (s.table.get hash key).2 }
  | .hasKey key => some { s with table := (s.table.hasKey hash key).2 }
  | .putAll htab => some ⟨s.table.putAll hash htab, mapAll s.map htab.entries, none⟩
  | .assignAll h => some ⟨s.table.assignAll hash h, mapAll (fun _ => none) h.entries, none⟩
  | .copy size pos => some ⟨s.table.copy hash size pos, s.map, none⟩
  | .clear => some ⟨s.table.clear, fun _ => none, none⟩
  | .iterate => some { s with live := some (s.table.start, s.table.start.toList.map Prod.snd) }
  | .next => some { s with live := s.live.map fun (it, given) =>
      (s.table.next it, given ++ (s.table.next it).toList.map Prod.snd) }
  | .sameKey key =>
      match s.table.sameKeyNode hash key with
      | none => none
      | some node => (s.table.sameKeyItems hash key (s.table.count + 1) (some node)).map fun _ => s

def run (s : Session K T) (ops : List (Op K T)) : Option (Session K T) :=
  ops.foldlM (apply hash) s

/-- A look-up of the key leaves the current node of the iteration and those that are to come in their places: the node
that it finds is another one, or the head of its chain already. -/
def KeepsPlace (s : Session K T) (key : K) : Prop :=
  ∀ i current given, s.live = some (some (i, current), given) → s.table.bucket hash key = i →
    ((s.table.tab i).head?.map Prod.fst = some key ∨ key ∉ (fromKey Prod.fst current (s.table.tab i)).map Prod.fst)

/-- The steps that the table does right. -/
def Admits (s : Session K T) : Op K T → Prop
  | .assign key value => ∀ node ∈ s.table.tab (s.table.bucket hash key), node.1 = key → node.2 = value
  | .get key => KeepsPlace hash s key
  | .hasKey key => KeepsPlace hash s key
  | .sameKey _ => False
  | _ => True

def Admitted (s : Session K T) : List (Op K T) → Prop
  | [] => True
  | op :: ops => Admits hash s op ∧ ∀ s', apply hash s op = some s' → Admitted s' ops

/-- What holds of the table: it is the map, and the iterations give each key once. -/
structure Correct (s : Session K T) : Prop where
  placed : ∀ i, ∀ node ∈ s.table.tab i, i < s.table.size ∧ s.table.bucket hash node.1 = i
  unique : (s.table.entries.map Prod.fst).Nodup
  get : ∀ key, (s.table.get hash key).1 = s.map key
  hasKey : ∀ key, (s.table.hasKey hash key).1 = (s.map key).isSome
  find : ∀ key, (s.table.find hash key).2.entries.Perm s.table.entries
  count : s.table.count = { key | s.map key ≠ none }.ncard
  iterates : ∃ steps keys, s.table.items steps s.table.start = some keys ∧ keys.Nodup ∧
    ∀ key, key ∈ keys ↔ s.map key ≠ none
  given : ∀ it given, s.live = some (it, given) → given.Nodup ∧ (∀ key ∈ given, s.map key ≠ none) ∧
    (it = none → ∀ key, s.map key ≠ none → key ∈ given)

variable {hash} {t : HashTable K T} {m : K → Option T} {s s' : Session K T} {chain : List (K × T)}
  {node : K × T} {it : InternIterator K} {given : List K} {key : K} {i : ℕ}

/-! ### Iterations -/

/-- The current key. -/
def shown (it : InternIterator K) : List K :=
  it.toList.map Prod.snd

/-- The chains from `i` on. -/
def chainsFrom (t : HashTable K T) (i : ℕ) : List (K × T) :=
  (List.range' i (t.size - i)).flatMap t.tab

/-- The keys that are to come after the current one. -/
def pending (t : HashTable K T) : InternIterator K → List K
  | none => []
  | some (i, key) => (fromKey Prod.fst key (t.tab i)).tail.map Prod.fst ++ (t.chainsFrom (i + 1)).map Prod.fst

/-- An iterator and the keys that it has given. -/
structure Live (t : HashTable K T) (it : InternIterator K) (given : List K) : Prop where
  current : ∀ i key, it = some (i, key) → i < t.size ∧ key ∈ (t.tab i).map Prod.fst
  perm : (given ++ t.pending it).Perm (t.entries.map Prod.fst)

theorem step_spec (t : HashTable K T) (i : ℕ) :
    shown (t.step i) ++ t.pending (t.step i) = (t.chainsFrom i).map Prod.fst ∧
      ∀ j key, t.step i = some (j, key) → j < t.size ∧ key ∈ (t.tab j).map Prod.fst := by
  unfold step chainsFrom
  generalize hn : t.size - i = n
  induction n generalizing i with
  | zero => exact ⟨rfl, nofun⟩
  | succ n ih =>
    have hi : i < t.size := by omega
    rw [List.range'_succ, List.flatMap_cons]
    cases hchain : t.tab i with
    | nil =>
      rw [List.find?_cons_of_neg (by simp [hchain]), List.nil_append]
      exact ih (i + 1) (by omega)
    | cons node rest =>
      rw [List.find?_cons_of_pos (by simp [hchain]), Option.bind_some, hchain]
      refine ⟨?_, ?_⟩
      · have hn' : t.size - (i + 1) = n := by omega
        simp [shown, pending, chainsFrom, hchain, fromKey, hn']
      · rintro j key heq
        obtain ⟨rfl, rfl⟩ := Prod.mk.inj (Option.some.inj heq)
        exact ⟨hi, by simp [hchain]⟩

omit [DecidableEq K] in
theorem entries_eq (t : HashTable K T) : t.entries = t.chainsFrom 0 := by
  rw [entries, chainsFrom, List.range_eq_range', Nat.sub_zero]

theorem live_start (t : HashTable K T) : Live t t.start (shown t.start) := by
  obtain ⟨hkeys, hcurrent⟩ := t.step_spec 0
  refine ⟨hcurrent, ?_⟩
  rw [start, hkeys, entries_eq]

section

variable (hnodup : ∀ i, ((t.tab i).map Prod.fst).Nodup) (hlive : Live t it given)
include hnodup hlive

/-- The keys that are to come are the next one and those after it. -/
theorem next_spec :
    shown (t.next it) ++ t.pending (t.next it) = t.pending it ∧
      ∀ j key, t.next it = some (j, key) → j < t.size ∧ key ∈ (t.tab j).map Prod.fst := by
  cases it with
  | none => exact ⟨rfl, nofun⟩
  | some current =>
    obtain ⟨i, key⟩ := current
    obtain ⟨hi, hkey⟩ := hlive.current i key rfl
    obtain ⟨before, node, rest, hsplit, rfl⟩ := exists_split hkey
    have hchain := hnodup i
    rw [hsplit] at hchain
    have hfrom : fromKey Prod.fst node.1 (t.tab i) = node :: rest := by rw [hsplit, fromKey_of_split hchain]
    cases rest with
    | nil =>
      have hnext : t.next (some (i, node.1)) = t.step (i + 1) := by simp [next, hfrom]
      obtain ⟨hkeys, hcurrent⟩ := t.step_spec (i + 1)
      rw [hnext]
      refine ⟨?_, hcurrent⟩
      rw [hkeys, pending, hfrom]
      rfl
    | cons node' rest =>
      have hnext : t.next (some (i, node.1)) = some (i, node'.1) := by simp [next, hfrom]
      have hsplit' : t.tab i = (before ++ [node]) ++ node' :: rest := by simp [hsplit]
      have hfrom' : fromKey Prod.fst node'.1 (t.tab i) = node' :: rest := by
        rw [hsplit']
        exact fromKey_of_split (by rw [← hsplit']; exact hnodup i)
      rw [hnext]
      refine ⟨?_, ?_⟩
      · rw [pending, pending, hfrom, hfrom']
        rfl
      · rintro j key heq
        obtain ⟨rfl, rfl⟩ := Prod.mk.inj (Option.some.inj heq)
        exact ⟨hi, by simp [hsplit]⟩

theorem Live.next : Live t (t.next it) (given ++ shown (t.next it)) := by
  obtain ⟨hkeys, hcurrent⟩ := next_spec hnodup hlive
  refine ⟨hcurrent, ?_⟩
  rw [List.append_assoc, hkeys]
  exact hlive.perm

theorem items_eq (n : ℕ)
    (hn : (shown it ++ t.pending it).length ≤ n) : t.items (n + 1) it = some (shown it ++ t.pending it) := by
  induction n generalizing it given with
  | zero =>
    cases it with
    | none => rfl
    | some current => simp [shown] at hn
  | succ n ih =>
    cases it with
    | none => rfl
    | some current =>
      obtain ⟨i, key⟩ := current
      have hkeys := (next_spec hnodup hlive).1
      have hlength : (shown (t.next (some (i, key))) ++ t.pending (t.next (some (i, key)))).length ≤ n := by
        rw [hkeys]
        simp [shown] at hn
        exact hn
      rw [items, ih (hlive.next hnodup) hlength, hkeys]
      rfl

end

/-! ### Look-ups during an iteration -/

theorem fromKey_moveToFront (hnodup : (chain.map Prod.fst).Nodup) {current : K} (hcurrent : current ∈ chain.map Prod.fst)
    (hkeep : chain.head?.map Prod.fst = some key ∨ key ∉ (fromKey Prod.fst current chain).map Prod.fst) :
    fromKey Prod.fst current (moveToFront (isKey key) chain) = fromKey Prod.fst current chain := by
  rcases hkeep with hhead | hkey
  · cases chain with
    | nil => rfl
    | cons node rest => rw [moveToFront_cons (isKey_iff.mpr (Option.some.inj hhead))]
  · obtain ⟨before, node, rest, rfl, rfl⟩ := exists_split hcurrent
    rw [fromKey_of_split hnodup] at hkey ⊢
    have hother : ∀ b ∈ node :: rest, isKey key b = false := by
      intro b hb
      refine Bool.eq_false_iff.mpr fun heq => hkey ?_
      exact List.mem_map.mpr ⟨b, hb, isKey_iff.mp heq⟩
    rw [moveToFront_append hother]
    refine fromKey_of_split ?_
    have hperm : (moveToFront (isKey key) before ++ node :: rest).Perm (before ++ node :: rest) :=
      (moveToFront_perm _ before).append_right _
    exact (hperm.map Prod.fst).nodup_iff.mpr hnodup

theorem tab_find (t : HashTable K T) (key : K) (i : ℕ) : ((t.find hash key).2.tab i).Perm (t.tab i) := by
  rw [find]
  dsimp only
  by_cases hi : i = t.bucket hash key
  · subst hi
    rw [setChain_same]
    exact moveToFront_perm _ _
  · rw [setChain_other hi]

theorem Live.find (hrefines : Refines hash s.table s.map) (hs : s.live = some (it, given))
    (hlive : Live s.table it given) (hkeep : KeepsPlace hash s key) : Live (s.table.find hash key).2 it given := by
  constructor
  · intro i current heq
    obtain ⟨hi, hcurrent⟩ := hlive.current i current heq
    exact ⟨hi, ((tab_find s.table key i).map Prod.fst).mem_iff.mpr hcurrent⟩
  · refine (List.Perm.append_left given ?_).trans (hlive.perm.trans ((entries_find s.table key).map Prod.fst).symm)
    cases it with
    | none => exact .refl []
    | some place =>
      obtain ⟨i, current⟩ := place
      have hchain : fromKey Prod.fst current ((s.table.find hash key).2.tab i) =
          fromKey Prod.fst current (s.table.tab i) := by
        rw [HashTable.find]
        dsimp only
        by_cases hi : i = s.table.bucket hash key
        · subst hi
          rw [setChain_same]
          exact fromKey_moveToFront (hrefines.nodup _) (hlive.current _ current rfl).2 (hkeep _ current given hs rfl)
        · rw [setChain_other hi]
      rw [pending, pending, hchain]
      refine List.Perm.append_left _ (List.Perm.map _ ?_)
      exact List.Perm.flatMap_left _ fun j _ => tab_find s.table key j

/-! ### Runs -/

/-- The table refines the map, and the iteration has given the keys that are not to come. -/
structure Sound (hash : K → ℕ) (s : Session K T) : Prop where
  refines : Refines hash s.table s.map
  live : ∀ it given, s.live = some (it, given) → Live s.table it given

theorem mapAll_apply (m : K → Option T) (nodes : List (K × T)) (hnodup : (nodes.map Prod.fst).Nodup) (key : K) :
    mapAll m nodes key = (lookup nodes key).or (m key) := by
  induction nodes generalizing m with
  | nil => rfl
  | cons node nodes ih =>
    obtain ⟨k, v⟩ := node
    obtain ⟨hnot, hrest⟩ := List.nodup_cons.mp hnodup
    have hcons : mapAll m ((k, v) :: nodes) = mapAll (Function.update m k (some v)) nodes := rfl
    rw [hcons, ih _ hrest, lookup_cons]
    split
    case isTrue heq =>
      subst heq
      have hnone : lookup nodes key = none := by
        rw [← Option.not_isSome_iff_eq_none, lookup_isSome]
        exact hnot
      rw [hnone, Function.update_self]
      rfl
    case isFalse hne => rw [Function.update_of_ne hne]

theorem mapAll_entries (h : Refines hash t m) : mapAll (fun _ => none) t.entries = m := by
  funext key
  rw [mapAll_apply _ _ (nodup_keys h), Option.or_none]
  cases hm : m key with
  | none =>
    rw [← Option.not_isSome_iff_eq_none, lookup_isSome, mem_keys h]
    exact fun hne => hne hm
  | some v => exact (lookup_eq_some (nodup_keys h)).mpr ((mem_entries h).mpr hm)

theorem Sound.apply (h : Sound hash s) {op : Op K T} (hadmits : Admits hash s op) :
    ∃ s', apply hash s op = some s' ∧ Sound hash s' := by
  have hlookup : ∀ key, KeepsPlace hash s key → Sound hash { s with table := (s.table.find hash key).2 } := fun key hkeep =>
    ⟨h.refines.find key, fun it given hs => (h.live it given hs).find h.refines hs hkeep⟩
  cases op with
  | put key value => exact ⟨_, rfl, h.refines.put key value, nofun⟩
  | remove key => exact ⟨_, rfl, h.refines.remove key, nofun⟩
  | assign key value =>
    refine ⟨_, rfl, h.refines.assign key value fun old hold => ?_, nofun⟩
    rw [← h.refines.lookup key, lookup_eq_some (h.refines.nodup _)] at hold
    exact hadmits (key, old) hold rfl
  | get key => exact ⟨_, rfl, hlookup key hadmits⟩
  | hasKey key => exact ⟨_, rfl, hlookup key hadmits⟩
  | putAll htab => exact ⟨_, rfl, h.refines.putAll htab, nofun⟩
  | assignAll other => exact ⟨_, rfl, h.refines.clear.putAll other, nofun⟩
  | copy size pos =>
    refine ⟨_, rfl, ?_, nofun⟩
    have hcopy : Refines hash (s.table.copy hash size pos) _ := (refines_empty size pos).putAll s.table
    rwa [mapAll_entries h.refines] at hcopy
  | clear => exact ⟨_, rfl, h.refines.clear, nofun⟩
  | iterate =>
    refine ⟨_, rfl, h.refines, ?_⟩
    rintro it given ⟨⟩
    exact live_start s.table
  | next =>
    refine ⟨_, rfl, h.refines, fun it given hs => ?_⟩
    cases hlive : s.live with
    | none =>
      rw [hlive] at hs
      cases hs
    | some current =>
      rw [hlive] at hs
      cases hs
      exact (h.live _ _ hlive).next h.refines.nodup
  | sameKey key => exact hadmits.elim

theorem Sound.correct (h : Sound hash s) : Correct hash s where
  placed i node hnode := by
    have hi := h.refines.placed i node hnode
    exact ⟨hi ▸ s.table.bucket_lt node.1, hi⟩
  unique := nodup_keys h.refines
  get := h.refines.get
  hasKey := h.refines.hasKey
  find := entries_find s.table
  count := count_eq_ncard h.refines
  iterates := by
    refine ⟨_, _, items_eq h.refines.nodup (live_start s.table) _ le_rfl, ?_⟩
    have hkeys : shown s.table.start ++ s.table.pending s.table.start = s.table.entries.map Prod.fst := by
      rw [start, (s.table.step_spec 0).1, entries_eq]
    rw [hkeys]
    exact ⟨nodup_keys h.refines, fun key => mem_keys h.refines⟩
  given it given hs := by
    have hperm := (h.live it given hs).perm
    refine ⟨(hperm.nodup_iff.mpr (nodup_keys h.refines)).of_append_left, fun key hkey => ?_, ?_⟩
    · exact (mem_keys h.refines).mp (hperm.mem_iff.mp (List.mem_append_left _ hkey))
    · rintro rfl key hkey
      rw [pending, List.append_nil] at hperm
      exact hperm.mem_iff.mpr ((mem_keys h.refines).mpr hkey)

theorem Sound.run (h : Sound hash s) (ops : List (Op K T)) (hadmitted : Admitted hash s ops) :
    ∃ s', run hash s ops = some s' ∧ Sound hash s' := by
  induction ops generalizing s with
  | nil => exact ⟨s, rfl, h⟩
  | cons op ops ih =>
    obtain ⟨s₁, happly, hsound⟩ := h.apply hadmitted.1
    obtain ⟨s₂, hrun, hsound₂⟩ := ih hsound (hadmitted.2 s₁ happly)
    refine ⟨s₂, ?_, hsound₂⟩
    rw [HashTable.run, List.foldlM_cons, happly]
    exact hrun

variable (hash) in
/-- After each run from an empty table that the table does right. -/
theorem run_correct (size : ℕ) (pos : 0 < size) (ops : List (Op K T))
    (hadmitted : Admitted hash ⟨empty size pos, fun _ => none, none⟩ ops) :
    ∃ s, run hash ⟨empty size pos, fun _ => none, none⟩ ops = some s ∧ Correct hash s := by
  have hempty : Sound hash (⟨empty size pos, fun _ => none, none⟩ : Session K T) := ⟨refines_empty size pos, nofun⟩
  obtain ⟨s, hrun, hsound⟩ := hempty.run ops hadmitted
  exact ⟨s, hrun, hsound.correct⟩

theorem Admitted.cons {op : Op K T} {ops : List (Op K T)} (happly : apply hash s op = some s') (hop : Admits hash s op)
    (hops : Admitted hash s' ops) : Admitted hash s (op :: ops) := by
  refine ⟨hop, fun s'' happly' => ?_⟩
  obtain rfl := Option.some.inj (happly.symm.trans happly')
  exact hops

/-- Two keys of one chain, and a look-up during the iteration. -/
theorem run_correct_chain : ∃ s, run id ⟨empty 1 Nat.one_pos, fun _ => none, none⟩
    [.put 0 5, .put 1 6, .iterate, .get 1, .next, .assign 1 6] = some s ∧ Correct id s := by
  refine run_correct id 1 Nat.one_pos _ ?_
  refine .cons rfl trivial (.cons rfl trivial (.cons rfl trivial (.cons rfl ?_ (.cons rfl trivial (.cons rfl ?_
    trivial)))))
  · intro i current given hlive hi
    obtain rfl : 0 = i := hi
    exact .inl rfl
  · intro node hnode hkey
    have hnode' : node ∈ [(1, 6), (0, 5)] := hnode
    simp only [List.mem_cons, List.not_mem_nil, or_false] at hnode'
    rcases hnode' with rfl | rfl
    · rfl
    · cases hkey

/-- An assignment to a key that is bound is lost, a look-up of the current key of an iteration makes it give a key
again, and an iteration over one key does not end. -/
theorem assign_lost :
    (∃ s, run id ⟨empty 1 Nat.one_pos, fun _ => none, none⟩ [.put 0 1, .assign 0 2] = some s ∧ ¬ Correct id s ∧
      s.map 0 = some 2 ∧ (s.table.get id 0).1 = some 1) ∧
    (∃ s, run id ⟨empty 1 Nat.one_pos, fun _ => none, none⟩
      [.put 0 1, .put 1 2, .iterate, .next, .get 0, .next] = some s ∧ ¬ Correct id s ∧
      s.live.map Prod.snd = some [1, 0, 1]) ∧
    run id ⟨empty 1 Nat.one_pos, fun _ => none, none⟩ [.put 0 1, .sameKey 0] = none := by
  refine ⟨⟨_, rfl, fun h => ?_, rfl, rfl⟩, ⟨_, rfl, fun h => ?_, rfl⟩, rfl⟩
  · have hget : some 1 = some 2 := h.get 0
    cases hget
  · have hgiven := (h.given _ _ rfl).1
    exact absurd hgiven (by decide)

end Otawa.Elm.HashTable
