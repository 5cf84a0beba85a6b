import Otawa.Gliss.ByteMap

/-!
# The pages of a memory

The pages of a memory are where their addresses hash to, one for each address, with a storage for each. So a memory has a
byte at each address, which making a page leaves as it is. `Frame` is what an access to a memory leaves of the heap: the
storages that are not those of its pages.
-/

namespace Otawa.Gliss

open Bytes

variable {s s' s'' : Space} {p q : PageEntry} {addr : ℕ} {a : BitVec 32}

/-- The page is in the chain that its address hashes to. -/
def Entry (mem : Memory) (p : PageEntry) : Prop :=
  ∃ table, mem (memHash1 p.addr) = some table ∧ p ∈ table (memHash2 p.addr)

structure Own (s : Space) : Prop where
  placed : ∀ i table j p, s.mem i = some table → p ∈ table j → p.addr < 2 ^ 32 ∧ p.addr % MEMORY_PAGE_SIZE = 0 ∧
    memHash1 p.addr = i ∧ memHash2 p.addr = j ∧ p.storage < s.heap.length
  unique : ∀ p q, Entry s.mem p → Entry s.mem q → p.addr = q.addr → p = q
  distinct : ∀ p q, Entry s.mem p → Entry s.mem q → p.storage = q.storage → p = q

/-- The byte map of a memory: zeros where there is no page. -/
def view (s : Space) : ByteMap := fun a =>
  match memSearchPage s.mem a.toNat with
  | none => 0
  | some p => (s.heap[p.storage]?.getD fun _ => 0) (a.toNat % MEMORY_PAGE_SIZE)

structure Frame (s s' : Space) : Prop where
  grows : s.heap.length ≤ s'.heap.length
  others : ∀ k < s.heap.length, (∀ p, Entry s.mem p → p.storage ≠ k) → s'.heap[k]? = s.heap[k]?
  entries : ∀ p, Entry s'.mem p → Entry s.mem p ∨ s.heap.length ≤ p.storage

theorem Frame.refl (s : Space) : Frame s s :=
  ⟨Nat.le_refl _, fun _ _ _ => rfl, fun _ hp => .inl hp⟩

theorem Frame.trans (h : Frame s s') (h' : Frame s' s'') : Frame s s'' where
  grows := h.grows.trans h'.grows
  others := by
    intro k hk hnone
    rw [h'.others k (Nat.lt_of_lt_of_le hk h.grows), h.others k hk hnone]
    intro p hp
    rcases h.entries p hp with hold | hnew
    · exact hnone p hold
    · exact Nat.ne_of_gt (Nat.lt_of_lt_of_le hk hnew)
  entries := by
    intro p hp
    rcases h'.entries p hp with hold | hnew
    · exact h.entries p hold
    · exact .inr (h.grows.trans hnew)

/-- What an access makes of a memory and its byte map. -/
structure Becomes (s s' : Space) (m : ByteMap) : Prop where
  own : Own s'
  frame : Frame s s'
  view_eq : view s' = m

theorem Becomes.trans {m m' : ByteMap} (h : Becomes s s' m) (h' : Becomes s' s'' m') : Becomes s s'' m' :=
  ⟨h'.own, h.frame.trans h'.frame, h'.view_eq⟩

theorem Own.entry (h : Own s) {i j : ℕ} {table : SecondaryTable} (hi : s.mem i = some table) (hp : p ∈ table j) :
    Entry s.mem p := by
  obtain ⟨-, -, rfl, rfl, -⟩ := h.placed i table j p hi hp
  exact ⟨table, hi, hp⟩

theorem Own.of_entry (h : Own s) (hp : Entry s.mem p) :
    p.addr < 2 ^ 32 ∧ p.addr % MEMORY_PAGE_SIZE = 0 ∧ p.storage < s.heap.length := by
  obtain ⟨table, hi, hmem⟩ := hp
  obtain ⟨hlt, hmod, -, -, hstorage⟩ := h.placed _ table _ p hi hmem
  exact ⟨hlt, hmod, hstorage⟩

theorem pageAddr_mod (addr : ℕ) : pageAddr addr % MEMORY_PAGE_SIZE = 0 := by
  unfold pageAddr MEMORY_PAGE_SIZE
  omega

theorem pageAddr_le (addr : ℕ) : pageAddr addr ≤ addr :=
  Nat.sub_le _ _

theorem pageAddr_add_mod (addr : ℕ) : pageAddr addr + addr % MEMORY_PAGE_SIZE = addr :=
  Nat.sub_add_cancel (Nat.mod_le _ _)

theorem pageAddr_of_mod (h : addr % MEMORY_PAGE_SIZE = 0) : pageAddr addr = addr := by
  unfold pageAddr
  rw [h, Nat.sub_zero]

theorem pageAddr_pageAddr (addr : ℕ) : pageAddr (pageAddr addr) = pageAddr addr :=
  pageAddr_of_mod (pageAddr_mod addr)

/-- The page that is found is the one with the address. -/
theorem search_iff (h : Own s) : memSearchPage s.mem addr = some p ↔ Entry s.mem p ∧ p.addr = pageAddr addr := by
  unfold memSearchPage
  constructor
  · intro hsearch
    split at hsearch
    · cases hsearch
    · rename_i table htable
      have haddr := List.find?_some hsearch
      exact ⟨h.entry htable (List.mem_of_find?_eq_some hsearch), of_decide_eq_true haddr⟩
  · rintro ⟨⟨table, htable, hp⟩, haddr⟩
    rw [← haddr, htable]
    dsimp only
    cases hfind : (table (memHash2 p.addr)).find? fun pte => decide (pte.addr = p.addr) with
    | none => exact absurd rfl (of_decide_eq_false (Bool.eq_false_iff.mpr (List.find?_eq_none.mp hfind p hp)))
    | some q =>
      have hq := List.find?_some hfind
      have hqe := h.entry htable (List.mem_of_find?_eq_some hfind)
      exact congrArg some (h.unique q p hqe ⟨table, htable, hp⟩ (of_decide_eq_true hq))

theorem search_none (h : Own s) (hsearch : memSearchPage s.mem addr = none) (hp : Entry s.mem p) :
    p.addr ≠ pageAddr addr := by
  intro haddr
  rw [(search_iff h).mpr ⟨hp, haddr⟩] at hsearch
  cases hsearch

theorem view_of_entry (h : Own s) (hp : Entry s.mem p) (haddr : p.addr = pageAddr a.toNat) :
    view s a = (s.heap[p.storage]?.getD fun _ => 0) (a.toNat % MEMORY_PAGE_SIZE) := by
  unfold view
  rw [(search_iff h).mpr ⟨hp, haddr⟩]

theorem view_of_no_entry (h : Own s) (hnone : ∀ p, Entry s.mem p → p.addr ≠ pageAddr a.toNat) : view s a = 0 := by
  unfold view
  cases hsearch : memSearchPage s.mem a.toNat with
  | none => rfl
  | some p =>
    obtain ⟨hp, haddr⟩ := (search_iff h).mp hsearch
    exact absurd haddr (hnone p hp)

/-! ### A page is got -/

section NewPage

variable (addr) in
/-- The memory with a new page. -/
def addPage (s : Space) : Space :=
  ⟨s.heap ++ [fun _ => 0], Function.update s.mem (memHash1 addr) (some (Function.update
    (memGetSecondaryHashTable s.mem addr) (memHash2 addr)
      (⟨addr, s.heap.length⟩ :: memGetSecondaryHashTable s.mem addr (memHash2 addr))))⟩

theorem mem_addPage {i j : ℕ} {table : SecondaryTable} (htable : (addPage addr s).mem i = some table) (hp : p ∈ table j) :
    (∃ old, s.mem i = some old ∧ p ∈ old j) ∨ (i = memHash1 addr ∧ j = memHash2 addr ∧ p = ⟨addr, s.heap.length⟩) := by
  unfold addPage at htable
  dsimp only at htable
  by_cases hi : i = memHash1 addr
  · subst hi
    rw [Function.update_self] at htable
    cases htable
    have hold : p ∈ memGetSecondaryHashTable s.mem addr j → ∃ old, s.mem (memHash1 addr) = some old ∧ p ∈ old j := by
      unfold memGetSecondaryHashTable
      cases hmem : s.mem (memHash1 addr) with
      | none => exact fun h => absurd h List.not_mem_nil
      | some old => exact fun h => ⟨old, rfl, h⟩
    by_cases hj : j = memHash2 addr
    · subst hj
      rw [Function.update_self] at hp
      rcases List.mem_cons.mp hp with rfl | hp
      · exact .inr ⟨rfl, rfl, rfl⟩
      · exact .inl (hold hp)
    · rw [Function.update_of_ne hj] at hp
      exact .inl (hold hp)
  · rw [Function.update_of_ne hi] at htable
    exact .inl ⟨table, htable, hp⟩

theorem entry_addPage : Entry (addPage addr s).mem p ↔ Entry s.mem p ∨ p = ⟨addr, s.heap.length⟩ := by
  constructor
  · rintro ⟨table, htable, hp⟩
    rcases mem_addPage htable hp with ⟨old, hold, hmem⟩ | ⟨-, -, rfl⟩
    · exact .inl ⟨old, hold, hmem⟩
    · exact .inr rfl
  · intro h
    unfold Entry addPage
    dsimp only
    by_cases hi : memHash1 p.addr = memHash1 addr
    · rw [hi, Function.update_self]
      refine ⟨_, rfl, ?_⟩
      have hold : Entry s.mem p → p ∈ memGetSecondaryHashTable s.mem addr (memHash2 p.addr) := by
        rintro ⟨old, hold, hmem⟩
        unfold memGetSecondaryHashTable
        rw [← hi, hold]
        exact hmem
      by_cases hj : memHash2 p.addr = memHash2 addr
      · rw [hj, Function.update_self, List.mem_cons]
        rcases h with h | rfl
        · rw [← hj]
          exact .inr (hold h)
        · exact .inl rfl
      · rw [Function.update_of_ne hj]
        rcases h with h | rfl
        · exact hold h
        · exact absurd rfl hj
    · rw [Function.update_of_ne hi]
      rcases h with h | rfl
      · exact h
      · exact absurd rfl hi

/-- A new page changes no byte. -/
theorem addPage_becomes (h : Own s) (hlt : addr < 2 ^ 32) (hmod : addr % MEMORY_PAGE_SIZE = 0)
    (hnew : ∀ p, Entry s.mem p → p.addr ≠ addr) : Becomes s (addPage addr s) (view s) := by
  have hlength : (addPage addr s).heap.length = s.heap.length + 1 := by simp [addPage]
  have hget : ∀ k < s.heap.length, (addPage addr s).heap[k]? = s.heap[k]? :=
    fun k hk => List.getElem?_append_left hk
  have hown : Own (addPage addr s) := by
    refine ⟨?_, ?_, ?_⟩
    · intro i table j p htable hp
      rcases mem_addPage htable hp with ⟨old, hold, hmem⟩ | ⟨rfl, rfl, rfl⟩
      · obtain ⟨hp_lt, hp_mod, hi, hj, hstorage⟩ := h.placed i old j p hold hmem
        exact ⟨hp_lt, hp_mod, hi, hj, by omega⟩
      · exact ⟨hlt, hmod, rfl, rfl, by rw [hlength]; exact Nat.lt_succ_self _⟩
    · intro p q hp hq haddr
      rcases entry_addPage.mp hp with hp | rfl <;> rcases entry_addPage.mp hq with hq | rfl
      · exact h.unique p q hp hq haddr
      · exact absurd haddr (hnew p hp)
      · exact absurd haddr.symm (hnew q hq)
      · rfl
    · intro p q hp hq hstorage
      rcases entry_addPage.mp hp with hp | rfl <;> rcases entry_addPage.mp hq with hq | rfl
      · exact h.distinct p q hp hq hstorage
      · exact absurd hstorage (Nat.ne_of_lt (h.of_entry hp).2.2)
      · exact absurd hstorage.symm (Nat.ne_of_lt (h.of_entry hq).2.2)
      · rfl
  refine ⟨hown, ⟨by omega, fun k hk _ => hget k hk, ?_⟩, funext fun a => ?_⟩
  · intro p hp
    rcases entry_addPage.mp hp with hp | rfl
    · exact .inl hp
    · exact .inr (Nat.le_refl _)
  · by_cases hpage : pageAddr a.toNat = addr
    · rw [view_of_entry hown (entry_addPage.mpr (.inr rfl)) hpage.symm, view_of_no_entry h fun p hp => hpage ▸ hnew p hp]
      simp [addPage]
    · cases hsearch : memSearchPage s.mem a.toNat with
      | none =>
        rw [view_of_no_entry h fun p hp => search_none h hsearch hp, view_of_no_entry hown]
        intro p hp
        rcases entry_addPage.mp hp with hp | rfl
        · exact search_none h hsearch hp
        · exact fun heq => hpage heq.symm
      | some p =>
        obtain ⟨hp, haddr⟩ := (search_iff h).mp hsearch
        rw [view_of_entry h hp haddr, view_of_entry hown (entry_addPage.mpr (.inl hp)) haddr,
          hget _ (h.of_entry hp).2.2]

end NewPage

/-- The page of an address is got without a change of the bytes. -/
theorem memGetPage_becomes (h : Own s) (hlt : addr < 2 ^ 32) : Becomes s (memGetPage s addr).2 (view s) ∧
    Entry (memGetPage s addr).2.mem (memGetPage s addr).1 ∧ (memGetPage s addr).1.addr = pageAddr addr := by
  unfold memGetPage
  cases hsearch : memSearchPage s.mem (pageAddr addr) with
  | some p =>
    obtain ⟨hp, haddr⟩ := (search_iff h).mp hsearch
    rw [pageAddr_pageAddr] at haddr
    exact ⟨⟨h, .refl s, rfl⟩, hp, haddr⟩
  | none =>
    have hbecomes : Becomes s (addPage (pageAddr addr) s) (view s) := by
      refine addPage_becomes h (Nat.lt_of_le_of_lt (pageAddr_le addr) hlt) (pageAddr_mod addr) fun p hp => ?_
      rw [← pageAddr_pageAddr addr]
      exact search_none h hsearch hp
    exact ⟨hbecomes, entry_addPage.mpr (.inr rfl), rfl⟩

end Otawa.Gliss
