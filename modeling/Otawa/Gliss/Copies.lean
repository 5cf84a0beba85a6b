import Otawa.Gliss.Transfers
import Otawa.Lib.Sweep

/-!
# Copies of a memory

What `memCopy` makes: it takes the chain with the index of the primary table in each secondary table, so that the copy has
the pages whose two hashes are equal and no others (`memCopy_becomes`), and it leaves a secondary table from the index
`SECONDARYMEMORY_HASH_TABLE_SIZE` on (`memCopy_none`).
-/

namespace Otawa.Gliss

open Bytes

variable {s t : Space} {D D' : ℕ → Prop} {p : PageEntry} {addr i : ℕ}

theorem memHash1_lt (addr : ℕ) : memHash1 addr < PRIMARYMEMORY_HASH_TABLE_SIZE := Nat.mod_lt _ (by decide)

theorem pageAddr_div (addr : ℕ) : pageAddr addr / MEMORY_PAGE_SIZE = addr / MEMORY_PAGE_SIZE := by
  unfold pageAddr MEMORY_PAGE_SIZE
  omega

theorem memHash1_pageAddr (addr : ℕ) : memHash1 (pageAddr addr) = memHash1 addr := by
  unfold memHash1
  rw [pageAddr_div]

theorem memHash2_pageAddr (addr : ℕ) : memHash2 (pageAddr addr) = memHash2 addr := by
  unfold memHash2
  rw [pageAddr_div]

/-- A page of the table is below the end of the secondary tables. -/
def Inside (mem : Memory) : Prop :=
  ∀ i < PRIMARYMEMORY_HASH_TABLE_SIZE, SECONDARYMEMORY_HASH_TABLE_SIZE ≤ i → mem i = none

/-- The pages of `s` with an address in `D` are copied to `t`. -/
structure Copying (s t : Space) (D : ℕ → Prop) : Prop where
  own : Own t
  frame : Frame ⟨s.heap, memNew⟩ t
  copied : ∀ a : BitVec 32, D (pageAddr a.toNat) → view t a = view s a
  zeros : ∀ a : BitVec 32, ¬ D (pageAddr a.toNat) → view t a = 0

theorem Copying.congr (h : Copying s t D) (heq : ∀ x, D x ↔ D' x) : Copying s t D' where
  own := h.own
  frame := h.frame
  copied := fun a ha => h.copied a ((heq _).mpr ha)
  zeros := fun a ha => h.zeros a fun hD => ha ((heq _).mp hD)

theorem no_entry_new : ¬ Entry memNew p := by
  rintro ⟨table, htable, -⟩
  cases htable

/-- A memory is made without pages. -/
theorem own_memNew (heap : Heap) : Own ⟨heap, memNew⟩ where
  placed := by
    intro i table j p htable
    cases htable
  unique := fun _ _ hp => absurd hp no_entry_new
  distinct := fun _ _ hp => absurd hp no_entry_new

theorem copying_new (s : Space) : Copying s ⟨s.heap, memNew⟩ fun _ => False where
  own := own_memNew s.heap
  frame := .refl _
  copied := fun _ h => h.elim
  zeros := fun _ _ => rfl

/-- The bytes of a page are copied. -/
theorem copyPage_copying (hs : Own s) (h : Copying s t D) (hp : Entry s.mem p) :
    ∃ t', copyPage t p = some t' ∧ Copying s t' fun x => D x ∨ x = p.addr := by
  obtain ⟨hlt, hmod, hstorage⟩ := hs.of_entry hp
  have hto : (BitVec.ofNat 32 p.addr).toNat = p.addr := by
    rw [BitVec.toNat_ofNat, Nat.mod_eq_of_lt hlt]
  have hsource : t.heap[p.storage]? = s.heap[p.storage]? :=
    h.frame.others p.storage hstorage fun _ hq => absurd hq no_entry_new
  have hpage : p.addr = pageAddr (BitVec.ofNat 32 p.addr).toNat := by rw [hto, pageAddr_of_mod hmod]
  have hread : copyFrom t.heap p.storage 0 MEMORY_PAGE_SIZE =
      some ((view s).readBytes (BitVec.ofNat 32 p.addr) MEMORY_PAGE_SIZE) := by
    have hview := view_readBytes (n := MEMORY_PAGE_SIZE) hs hp hpage (by rw [hto, hmod, Nat.zero_add])
    rw [hto, hmod] at hview
    rw [← hview]
    unfold copyFrom
    rw [hsource]
  obtain ⟨t', hwrite, hbecomes⟩ := memWrite_becomes h.own (BitVec.ofNat 32 p.addr)
    ((view s).readBytes (BitVec.ofNat 32 p.addr) MEMORY_PAGE_SIZE)
  rw [hto] at hwrite
  have hlength : ((view s).readBytes (BitVec.ofNat 32 p.addr) MEMORY_PAGE_SIZE).length = MEMORY_PAGE_SIZE := by
    rw [ByteMap.readBytes, List.length_map, List.length_range]
  have hwithin : ∀ a : BitVec 32, (a - BitVec.ofNat 32 p.addr).toNat < MEMORY_PAGE_SIZE ↔ pageAddr a.toNat = p.addr := by
    intro a
    constructor
    · intro hlt
      rw [(pageAddr_of_within (by rw [hto, hmod, Nat.zero_add]) hlt).1, ← hpage]
    · intro heq
      by_contra hout
      refine offset_of_not_within (heq.trans hpage) hout ?_
      rw [hto, hmod, Nat.zero_add]
      exact ⟨Nat.zero_le _, Nat.mod_lt _ (by decide)⟩
  have hview : ∀ a, view t' a = if pageAddr a.toNat = p.addr then view s a else view t a := by
    intro a
    rw [hbecomes.view_eq, ByteMap.writeBytes_apply (by rw [hlength]; decide), hlength]
    by_cases hlt : (a - BitVec.ofNat 32 p.addr).toNat < MEMORY_PAGE_SIZE
    · have hback : BitVec.ofNat 32 p.addr + BitVec.ofNat 32 (a - BitVec.ofNat 32 p.addr).toNat = a := by
        rw [BitVec.ofNat_toNat, BitVec.setWidth_eq, BitVec.add_comm, BitVec.sub_add_cancel]
      rw [if_pos hlt, if_pos ((hwithin a).mp hlt), ByteMap.readBytes, List.getD_eq_getElem?_getD, List.getElem?_map,
        List.getElem?_range hlt, Option.map_some, Option.getD_some, hback]
    · rw [if_neg hlt, if_neg fun heq => hlt ((hwithin a).mpr heq)]
  refine ⟨t', ?_, hbecomes.own, h.frame.trans hbecomes.frame, ?_, ?_⟩
  · unfold copyPage
    rw [hread, Option.bind_eq_bind, Option.bind_some]
    exact hwrite
  · intro a ha
    rw [hview]
    split
    · rfl
    · rename_i hne
      exact h.copied a (ha.resolve_right hne)
  · intro a ha
    rw [hview, if_neg fun heq => ha (.inr heq)]
    exact h.zeros a fun hD => ha (.inl hD)

theorem copyChain_copying (hs : Own s) (h : Copying s t D) {l : List PageEntry} (hl : ∀ p ∈ l, Entry s.mem p) :
    ∃ t', l.foldlM copyPage t = some t' ∧ Copying s t' fun x => D x ∨ ∃ p ∈ l, x = p.addr := by
  induction l generalizing t D with
  | nil =>
    refine ⟨t, rfl, h.congr fun x => ?_⟩
    simp only [List.not_mem_nil, false_and, exists_false, or_false]
  | cons p l ih =>
    obtain ⟨t1, hcopy, h1⟩ := copyPage_copying hs h (hl p List.mem_cons_self)
    obtain ⟨t2, hrest, h2⟩ := ih h1 fun q hq => hl q (List.mem_cons_of_mem p hq)
    refine ⟨t2, ?_, h2.congr fun x => ?_⟩
    · rw [List.foldlM_cons, hcopy]
      exact hrest
    · simp only [List.mem_cons, or_and_right, exists_or, exists_eq_left, or_assoc]

/-- The pages of one chain are copied for each index of the secondary table. -/
theorem copyTable_copying (hs : Own s) (h : Copying s t D) {table : SecondaryTable} (htable : s.mem i = some table)
    (hi : i < SECONDARYMEMORY_HASH_TABLE_SIZE) :
    ∃ t', copyTable table i t = some t' ∧ Copying s t' fun x => D x ∨ ∃ p ∈ table i, x = p.addr := by
  have hl : ∀ p ∈ table i, Entry s.mem p := fun p hp => hs.entry htable hp
  have hstep : ∀ (done : List ℕ) (j : ℕ) (t : Space),
      Copying s t (fun x => D x ∨ (done ≠ [] ∧ ∃ p ∈ table i, x = p.addr)) → True → ∃ t',
        (if i < SECONDARYMEMORY_HASH_TABLE_SIZE then (table i).foldlM copyPage t else none) = some t' ∧
          Copying s t' fun x => D x ∨ (done ++ [j] ≠ [] ∧ ∃ p ∈ table i, x = p.addr) := by
    intro done j t ht _
    obtain ⟨t', hcopy, ht'⟩ := copyChain_copying hs ht hl
    refine ⟨t', by rw [if_pos hi]; exact hcopy, ht'.congr fun x => ?_⟩
    have hne : done ++ [j] ≠ [] := List.append_ne_nil_of_right_ne_nil _ (List.cons_ne_nil j [])
    constructor
    · rintro ((hD | ⟨-, hp⟩) | hp)
      · exact .inl hD
      · exact .inr ⟨hne, hp⟩
      · exact .inr ⟨hne, hp⟩
    · rintro (hD | ⟨-, hp⟩)
      · exact .inl (.inl hD)
      · exact .inr hp
  have hstart : Copying s t fun x => D x ∨ (([] : List ℕ) ≠ [] ∧ ∃ p ∈ table i, x = p.addr) := by
    refine h.congr fun x => ?_
    simp only [ne_eq, not_true_eq_false, false_and, or_false]
  obtain ⟨t', hcopy, ht'⟩ := Loop.foldlM_inv hstep hstart fun a (_ : a ∈ List.range SECONDARYMEMORY_HASH_TABLE_SIZE) => trivial
  refine ⟨t', hcopy, ht'.congr fun x => ?_⟩
  rw [List.nil_append]
  have hne : List.range SECONDARYMEMORY_HASH_TABLE_SIZE ≠ [] := by decide
  exact or_congr_right (and_iff_right hne)

theorem copyTable_none {table : SecondaryTable} (hi : SECONDARYMEMORY_HASH_TABLE_SIZE ≤ i) (t : Space) :
    copyTable table i t = none := by
  unfold copyTable
  refine Loop.foldlM_none (a := 0) (fun t => ?_) (List.mem_range.mpr (by decide))
  rw [if_neg (Nat.not_lt_of_le hi)]

/-- A table that the copy comes to has no chain with its index. -/
theorem memCopy_none (h : ¬ Inside s.mem) : memCopy s.heap s.mem = none := by
  unfold Inside at h
  push Not at h
  obtain ⟨i, hi, hle, hmem⟩ := h
  unfold memCopy
  refine Loop.foldlM_none (a := i) (fun t => ?_) (List.mem_range.mpr hi)
  cases htable : s.mem i with
  | none => exact absurd htable hmem
  | some table => exact copyTable_none hle t

/-- The copy after some indices of the primary table. -/
abbrev Copied (s t : Space) (done : List ℕ) : Prop :=
  Copying s t fun x => ∃ i ∈ done, ∃ table, s.mem i = some table ∧ ∃ p ∈ table i, x = p.addr

/-- The body of the loop of `memCopy`. -/
def copySlot (mem : Memory) (t : Space) (i : ℕ) : Option Space :=
  match mem i with
  | none => some t
  | some table => copyTable table i t

theorem copySlot_copied (hs : Own s) (h : Inside s.mem) {done : List ℕ} {i : ℕ} {t : Space} (ht : Copied s t done)
    (hi : i < PRIMARYMEMORY_HASH_TABLE_SIZE) : ∃ t', copySlot s.mem t i = some t' ∧ Copied s t' (done ++ [i]) := by
  have hsplit : ∀ x, (∃ j ∈ done ++ [i], ∃ table, s.mem j = some table ∧ ∃ p ∈ table j, x = p.addr) ↔
      (∃ j ∈ done, ∃ table, s.mem j = some table ∧ ∃ p ∈ table j, x = p.addr) ∨
        ∃ table, s.mem i = some table ∧ ∃ p ∈ table i, x = p.addr := by
    intro x
    simp only [List.mem_append, List.mem_singleton, or_and_right, exists_or, exists_eq_left]
  unfold copySlot
  cases htable : s.mem i with
  | none =>
    refine ⟨t, rfl, Copying.congr ht fun x => ?_⟩
    rw [hsplit, htable]
    simp only [reduceCtorEq, false_and, exists_false, or_false]
  | some table =>
    have hlt : i < SECONDARYMEMORY_HASH_TABLE_SIZE := by
      by_contra hge
      rw [h i hi (Nat.le_of_not_lt hge)] at htable
      cases htable
    obtain ⟨t', hcopy, ht'⟩ := copyTable_copying hs ht htable hlt
    refine ⟨t', hcopy, ht'.congr fun x => ?_⟩
    rw [hsplit, htable]
    simp only [Option.some.injEq, exists_eq_left']

/-- The copy has the bytes of the pages with equal hashes. -/
theorem memCopy_becomes (hs : Own s) (h : Inside s.mem) : ∃ t, memCopy s.heap s.mem = some t ∧
    Becomes ⟨s.heap, memNew⟩ t fun a => if memHash1 a.toNat = memHash2 a.toNat then view s a else 0 := by
  have hstart : Copied s ⟨s.heap, memNew⟩ [] := by
    refine (copying_new s).congr fun x => ?_
    simp only [List.not_mem_nil, false_and, exists_false]
  have hstep : ∀ (done : List ℕ) (i : ℕ) (t : Space), Copied s t done → i < PRIMARYMEMORY_HASH_TABLE_SIZE →
      ∃ t', copySlot s.mem t i = some t' ∧ Copied s t' (done ++ [i]) := fun done i t => copySlot_copied hs h
  obtain ⟨t, hcopy, ht⟩ := Loop.foldlM_inv hstep hstart fun i hi => List.mem_range.mp hi
  refine ⟨t, hcopy, ht.own, ht.frame, funext fun a => ?_⟩
  rw [List.nil_append] at ht
  split
  · rename_i heq
    cases hsearch : memSearchPage s.mem a.toNat with
    | none =>
      have hnone : ∀ p, Entry s.mem p → p.addr ≠ pageAddr a.toNat := fun p => search_none hs hsearch
      rw [view_of_no_entry hs hnone]
      refine ht.zeros a ?_
      rintro ⟨i, -, table, htable, p, hp, haddr⟩
      exact hnone p (hs.entry htable hp) haddr.symm
    | some p =>
      obtain ⟨⟨table, htable, hp⟩, haddr⟩ := (search_iff hs).mp hsearch
      refine ht.copied a ⟨memHash1 p.addr, List.mem_range.mpr (memHash1_lt _), table, htable, p, ?_, haddr.symm⟩
      have hhash : memHash1 p.addr = memHash2 p.addr := by
        rw [haddr, memHash1_pageAddr, memHash2_pageAddr, heq]
      rw [hhash]
      exact hp
  · rename_i hne
    refine ht.zeros a ?_
    rintro ⟨i, -, table, htable, p, hp, haddr⟩
    obtain ⟨-, -, h1, h2, -⟩ := hs.placed i table i p htable hp
    rw [← haddr, memHash1_pageAddr] at h1
    rw [← haddr, memHash2_pageAddr] at h2
    exact hne (h1.trans h2.symm)

end Otawa.Gliss
