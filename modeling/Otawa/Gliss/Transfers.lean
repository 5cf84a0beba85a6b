import Otawa.Gliss.Pages

/-!
# Transfers

A copy that stays in its page reads or writes the bytes of the byte map (`writePart_becomes`, `readPart_becomes`), and one
that does not has no result. The transfers of any size cut themselves at the pages; the numbers do not.
-/

namespace Otawa.Gliss

open Bytes

variable {s s' : Space} {p : PageEntry} {a b : BitVec 32} {buffer : List Byte} {address offset n : ℕ} {heap : Heap}

theorem pageAddr_bound (a : BitVec 32) : pageAddr a.toNat + MEMORY_PAGE_SIZE ≤ 2 ^ 32 := by
  have hlt := a.isLt
  unfold pageAddr MEMORY_PAGE_SIZE
  omega

/-- The bytes from an address to the end of its page have this page. -/
theorem pageAddr_of_within (hfit : a.toNat % MEMORY_PAGE_SIZE + n ≤ MEMORY_PAGE_SIZE) (hwithin : (b - a).toNat < n) :
    pageAddr b.toNat = pageAddr a.toNat ∧ b.toNat % MEMORY_PAGE_SIZE = a.toNat % MEMORY_PAGE_SIZE + (b - a).toNat := by
  have hbound := pageAddr_bound a
  have hsplit := pageAddr_add_mod a.toNat
  have hb : b.toNat = a.toNat + (b - a).toNat := by
    have hlt := b.isLt
    rw [BitVec.toNat_sub] at hwithin ⊢
    omega
  have hmod : b.toNat % MEMORY_PAGE_SIZE = a.toNat % MEMORY_PAGE_SIZE + (b - a).toNat := by
    rw [hb, Nat.add_mod, Nat.mod_eq_of_lt (a := (b - a).toNat) (by omega), Nat.mod_eq_of_lt (by omega)]
  refine ⟨?_, hmod⟩
  unfold pageAddr at *
  omega

/-- The bytes of a page that are not written. -/
theorem offset_of_not_within (hpage : pageAddr b.toNat = pageAddr a.toNat) (hout : ¬ (b - a).toNat < n) :
    ¬ (a.toNat % MEMORY_PAGE_SIZE ≤ b.toNat % MEMORY_PAGE_SIZE ∧
      b.toNat % MEMORY_PAGE_SIZE < a.toNat % MEMORY_PAGE_SIZE + n) := by
  intro ⟨hle, hlt⟩
  have ha := pageAddr_add_mod a.toNat
  have hb := pageAddr_add_mod b.toNat
  have hsub : (b - a).toNat = b.toNat - a.toNat := BitVec.toNat_sub_of_le (by rw [BitVec.le_def]; omega)
  omega

/-! ### Copies in a page -/

theorem copyTo_some (hfit : offset + buffer.length ≤ MEMORY_PAGE_SIZE) (heap : Heap) (storage : ℕ) :
    copyTo heap storage offset buffer = some (heap.modify storage fun bytes i =>
      if offset ≤ i ∧ i < offset + buffer.length then buffer.getD (i - offset) 0 else bytes i) := if_pos hfit

theorem Own.of_heap (h : Own s) (hlength : heap.length = s.heap.length) : Own ⟨heap, s.mem⟩ where
  placed := fun i table j p hi hp => by
    rw [hlength]
    exact h.placed i table j p hi hp
  unique := h.unique
  distinct := h.distinct

/-- A copy to the page of an address writes the bytes from there on. -/
theorem copyTo_becomes (h : Own s) (hp : Entry s.mem p) (haddr : p.addr = pageAddr a.toNat)
    (hfit : a.toNat % MEMORY_PAGE_SIZE + buffer.length ≤ MEMORY_PAGE_SIZE)
    (hcopy : copyTo s.heap p.storage (a.toNat % MEMORY_PAGE_SIZE) buffer = some heap) :
    Becomes s ⟨heap, s.mem⟩ ((view s).writeBytes a buffer) := by
  rw [copyTo_some hfit] at hcopy
  have hheap := Option.some.inj hcopy
  have hlength : heap.length = s.heap.length := by rw [← hheap, List.length_modify]
  have hown := h.of_heap hlength
  obtain ⟨-, -, hstorage⟩ := h.of_entry hp
  refine ⟨hown, ⟨Nat.le_of_eq hlength.symm, ?_, fun q hq => .inl hq⟩, funext fun b => ?_⟩
  · intro k _ hnone
    dsimp only
    rw [← hheap, List.getElem?_modify_ne _ _ (hnone p hp)]
  · rw [ByteMap.writeBytes_apply (hfit.trans' (Nat.le_add_left _ _) |>.trans (by decide))]
    by_cases hpage : pageAddr b.toNat = pageAddr a.toNat
    · rw [view_of_entry hown hp (haddr.trans hpage.symm), view_of_entry h hp (haddr.trans hpage.symm)]
      dsimp only
      rw [← hheap, List.getElem?_modify_eq, List.getElem?_eq_getElem hstorage]
      dsimp only [Option.map_eq_map, Option.map_some, Option.getD_some]
      by_cases hwithin : (b - a).toNat < buffer.length
      · obtain ⟨-, hmod⟩ := pageAddr_of_within hfit hwithin
        rw [if_pos hwithin, hmod, if_pos ⟨Nat.le_add_right _ _, Nat.add_lt_add_left hwithin _⟩, Nat.add_sub_cancel_left]
      · rw [if_neg hwithin, if_neg (offset_of_not_within hpage hwithin)]
    · have hout : ¬ (b - a).toNat < buffer.length := fun hwithin => hpage (pageAddr_of_within hfit hwithin).1
      rw [if_neg hout]
      cases hsearch : memSearchPage s.mem b.toNat with
      | none =>
        have hnone : ∀ q, Entry s.mem q → q.addr ≠ pageAddr b.toNat := fun q => search_none h hsearch
        rw [view_of_no_entry h hnone, view_of_no_entry hown hnone]
      | some q =>
        obtain ⟨hq, hqaddr⟩ := (search_iff h).mp hsearch
        have hne : p.storage ≠ q.storage := by
          intro heq
          rw [h.distinct p q hp hq heq, hqaddr] at haddr
          exact hpage haddr
        rw [view_of_entry h hq hqaddr, view_of_entry hown hq hqaddr]
        dsimp only
        rw [← hheap, List.getElem?_modify_ne _ _ hne]

/-- A write in a page. -/
theorem writePart_becomes (h : Own s) (hfit : a.toNat % MEMORY_PAGE_SIZE + buffer.length ≤ MEMORY_PAGE_SIZE) :
    ∃ s', writePart s a.toNat (a.toNat % MEMORY_PAGE_SIZE) buffer = some s' ∧
      Becomes s s' ((view s).writeBytes a buffer) := by
  obtain ⟨hget, hp, haddr⟩ := memGetPage_becomes h a.isLt
  have hcopy := copyTo_some hfit (memGetPage s a.toNat).2.heap (memGetPage s a.toNat).1.storage
  have hbecomes := copyTo_becomes hget.own hp haddr hfit hcopy
  rw [hget.view_eq] at hbecomes
  refine ⟨_, ?_, hget.trans hbecomes⟩
  unfold writePart
  dsimp only
  rw [hcopy]
  rfl

theorem writePart_none (hout : MEMORY_PAGE_SIZE < offset + buffer.length) : writePart s address offset buffer = none := by
  unfold writePart copyTo
  dsimp only
  rw [if_neg (Nat.not_le_of_lt hout)]
  rfl

theorem view_readBytes (h : Own s) (hp : Entry s.mem p) (haddr : p.addr = pageAddr a.toNat)
    (hfit : a.toNat % MEMORY_PAGE_SIZE + n ≤ MEMORY_PAGE_SIZE) :
    copyFrom s.heap p.storage (a.toNat % MEMORY_PAGE_SIZE) n = some ((view s).readBytes a n) := by
  obtain ⟨-, -, hstorage⟩ := h.of_entry hp
  unfold copyFrom ByteMap.readBytes
  rw [if_pos hfit, List.getElem?_eq_getElem hstorage, Option.map_some]
  refine congrArg some (List.map_congr_left fun i hi => ?_)
  have hsub : (a + BitVec.ofNat 32 i - a).toNat = i := by
    have hi := List.mem_range.mp hi
    refine toNat_place (n := n) ?_ hi
    exact (Nat.le_add_left _ _).trans (hfit.trans (by decide))
  obtain ⟨hpage, hmod⟩ := pageAddr_of_within (b := a + BitVec.ofNat 32 i) hfit (by rw [hsub]; exact List.mem_range.mp hi)
  rw [view_of_entry h hp (haddr.trans hpage.symm), hmod, hsub, List.getElem?_eq_getElem hstorage]
  rfl

/-- A read in a page. -/
theorem readPart_becomes (h : Own s) (hfit : a.toNat % MEMORY_PAGE_SIZE + n ≤ MEMORY_PAGE_SIZE) :
    ∃ s', readPart s a.toNat (a.toNat % MEMORY_PAGE_SIZE) n = some ((view s).readBytes a n, s') ∧
      Becomes s s' (view s) := by
  obtain ⟨hget, hp, haddr⟩ := memGetPage_becomes h a.isLt
  refine ⟨_, ?_, hget⟩
  have hcopy := view_readBytes hget.own hp haddr hfit
  rw [hget.view_eq] at hcopy
  unfold readPart
  dsimp only
  rw [hcopy]
  rfl

theorem readPart_none (hout : MEMORY_PAGE_SIZE < offset + n) : readPart s address offset n = none := by
  unfold readPart copyFrom
  dsimp only
  rw [if_neg (Nat.not_le_of_lt hout)]
  rfl

/-! ### Transfers of any size -/

theorem advance_toNat (a : BitVec 32) (n : ℕ) : advance a.toNat n = (a + BitVec.ofNat 32 n).toNat := by
  rw [BitVec.toNat_add, BitVec.toNat_ofNat, Nat.add_mod_mod]
  rfl

theorem advance_page (h : a.toNat % MEMORY_PAGE_SIZE + n = MEMORY_PAGE_SIZE) :
    (a + BitVec.ofNat 32 n).toNat % MEMORY_PAGE_SIZE = 0 := by
  rw [← advance_toNat]
  unfold advance MEMORY_PAGE_SIZE at *
  omega

/-- The full pages of a write and the rest, from the start of a page on. -/
theorem writePages_becomes (h : Own s) (hmod : a.toNat % MEMORY_PAGE_SIZE = 0) :
    ∃ s', writePages s a.toNat buffer = some s' ∧ Becomes s s' ((view s).writeBytes a buffer) := by
  induction hk : buffer.length using Nat.strongRecOn generalizing buffer s a with
  | ind k ih =>
    subst hk
    rw [writePages]
    split
    · rename_i hfull
      have hlength : (buffer.take MEMORY_PAGE_SIZE).length = MEMORY_PAGE_SIZE := List.length_take_of_le hfull
      have hfit : a.toNat % MEMORY_PAGE_SIZE + (buffer.take MEMORY_PAGE_SIZE).length ≤ MEMORY_PAGE_SIZE := by
        rw [hmod, hlength, Nat.zero_add]
      obtain ⟨s1, hwrite, hfirst⟩ := writePart_becomes h hfit
      have hnext := advance_page (a := a) (n := MEMORY_PAGE_SIZE) (by rw [hmod, Nat.zero_add])
      have hless : (buffer.drop MEMORY_PAGE_SIZE).length < buffer.length := by
        rw [List.length_drop]
        exact Nat.sub_lt (Nat.lt_of_lt_of_le (by decide) hfull) (by decide)
      obtain ⟨s2, hrest, hlast⟩ := ih _ hless hfirst.own hnext rfl
      rw [hmod] at hwrite
      rw [hwrite, advance_toNat]
      refine ⟨s2, hrest, ?_⟩
      have happend := ByteMap.writeBytes_append (view s) a (buffer.take MEMORY_PAGE_SIZE) (buffer.drop MEMORY_PAGE_SIZE)
      rw [List.take_append_drop, hlength] at happend
      rw [hfirst.view_eq, ← happend] at hlast
      exact hfirst.trans hlast
    · rename_i hless
      split
      · have hfit : a.toNat % MEMORY_PAGE_SIZE + buffer.length ≤ MEMORY_PAGE_SIZE := by omega
        obtain ⟨s', hwrite, hbecomes⟩ := writePart_becomes h hfit
        rw [hmod] at hwrite
        exact ⟨s', hwrite, hbecomes⟩
      · rename_i hnone
        have hnil : buffer = [] := List.eq_nil_of_length_eq_zero (Nat.eq_zero_of_not_pos hnone)
        subst hnil
        exact ⟨s, rfl, h, .refl s, rfl⟩

/-- A write of any size. -/
theorem memWrite_becomes (h : Own s) (a : BitVec 32) (buffer : List Byte) :
    ∃ s', memWrite s a.toNat buffer = some s' ∧ Becomes s s' ((view s).writeBytes a buffer) := by
  unfold memWrite
  split
  · dsimp only
    have hlt : a.toNat % MEMORY_PAGE_SIZE < MEMORY_PAGE_SIZE := Nat.mod_lt _ (by decide)
    split
    · rename_i hmore
      have hlength := List.length_take_of_le (Nat.le_of_lt hmore)
      have hfit : a.toNat % MEMORY_PAGE_SIZE + (buffer.take (MEMORY_PAGE_SIZE - a.toNat % MEMORY_PAGE_SIZE)).length ≤
          MEMORY_PAGE_SIZE := by
        omega
      obtain ⟨s1, hwrite, hfirst⟩ := writePart_becomes h hfit
      have hnext := advance_page (a := a) (n := MEMORY_PAGE_SIZE - a.toNat % MEMORY_PAGE_SIZE) (by omega)
      obtain ⟨s2, hrest, hlast⟩ := writePages_becomes hfirst.own hnext
      rw [hwrite, advance_toNat]
      refine ⟨s2, hrest, ?_⟩
      have happend := ByteMap.writeBytes_append (view s) a
        (buffer.take (MEMORY_PAGE_SIZE - a.toNat % MEMORY_PAGE_SIZE))
        (buffer.drop (MEMORY_PAGE_SIZE - a.toNat % MEMORY_PAGE_SIZE))
      rw [List.take_append_drop, hlength] at happend
      rw [hfirst.view_eq, ← happend] at hlast
      exact hfirst.trans hlast
    · exact writePart_becomes h (by omega)
  · rename_i hnone
    have hnil : buffer = [] := List.eq_nil_of_length_eq_zero (Nat.eq_zero_of_not_pos hnone)
    subst hnil
    exact ⟨s, rfl, h, .refl s, rfl⟩

/-- The full pages of a read and the rest, from the start of a page on. -/
theorem readPages_becomes (h : Own s) (hmod : a.toNat % MEMORY_PAGE_SIZE = 0) :
    ∃ s', readPages s a.toNat n = some ((view s).readBytes a n, s') ∧ Becomes s s' (view s) := by
  induction n using Nat.strongRecOn generalizing s a with
  | ind n ih =>
    rw [readPages]
    split
    · rename_i hfull
      obtain ⟨s1, hread, hfirst⟩ := readPart_becomes (a := a) (n := MEMORY_PAGE_SIZE) h (by omega)
      have hnext := advance_page (a := a) (n := MEMORY_PAGE_SIZE) (by omega)
      have hless : n - MEMORY_PAGE_SIZE < n := Nat.sub_lt (Nat.lt_of_lt_of_le (by decide) hfull) (by decide)
      obtain ⟨s2, hrest, hlast⟩ := ih _ hless hfirst.own hnext
      rw [hmod] at hread
      rw [hfirst.view_eq] at hrest hlast
      rw [hread, advance_toNat]
      refine ⟨s2, ?_, hfirst.trans hlast⟩
      have hadd := ByteMap.readBytes_add (view s) a MEMORY_PAGE_SIZE (n - MEMORY_PAGE_SIZE)
      rw [Nat.add_sub_cancel' hfull] at hadd
      rw [hadd, Option.bind_eq_bind, Option.bind_some, hrest, Option.bind_some]
    · rename_i hless
      split
      · obtain ⟨s', hread, hbecomes⟩ := readPart_becomes (a := a) (n := n) h (by omega)
        rw [hmod] at hread
        exact ⟨s', hread, hbecomes⟩
      · rename_i hnone
        have hzero : n = 0 := Nat.eq_zero_of_not_pos hnone
        subst hzero
        exact ⟨s, rfl, h, .refl s, rfl⟩

/-- A read of any size. -/
theorem memRead_becomes (h : Own s) (a : BitVec 32) (n : ℕ) :
    ∃ s', memRead s a.toNat n = some ((view s).readBytes a n, s') ∧ Becomes s s' (view s) := by
  unfold memRead
  split
  · dsimp only
    have hlt : a.toNat % MEMORY_PAGE_SIZE < MEMORY_PAGE_SIZE := Nat.mod_lt _ (by decide)
    split
    · rename_i hmore
      obtain ⟨s1, hread, hfirst⟩ := readPart_becomes (a := a)
        (n := MEMORY_PAGE_SIZE - a.toNat % MEMORY_PAGE_SIZE) h (by omega)
      have hnext := advance_page (a := a) (n := MEMORY_PAGE_SIZE - a.toNat % MEMORY_PAGE_SIZE) (by omega)
      obtain ⟨s2, hrest, hlast⟩ := readPages_becomes
        (n := n - (MEMORY_PAGE_SIZE - a.toNat % MEMORY_PAGE_SIZE)) hfirst.own hnext
      rw [hfirst.view_eq] at hrest hlast
      rw [hread, advance_toNat]
      refine ⟨s2, ?_, hfirst.trans hlast⟩
      have hadd := ByteMap.readBytes_add (view s) a (MEMORY_PAGE_SIZE - a.toNat % MEMORY_PAGE_SIZE)
        (n - (MEMORY_PAGE_SIZE - a.toNat % MEMORY_PAGE_SIZE))
      rw [Nat.add_sub_cancel' (Nat.le_of_lt hmore)] at hadd
      rw [hadd, Option.bind_eq_bind, Option.bind_some, hrest, Option.bind_some]
    · exact readPart_becomes h (by omega)
  · rename_i hnone
    have hzero : n = 0 := Nat.eq_zero_of_not_pos hnone
    subst hzero
    exact ⟨s, rfl, h, .refl s, rfl⟩

/-! ### Numbers -/

variable {host target : Order} {val : ℕ}

/-- A number of the bytes of a page. -/
theorem readUint_becomes (h : Own s) (hfit : a.toNat % MEMORY_PAGE_SIZE + n ≤ MEMORY_PAGE_SIZE) :
    ∃ s', readUint host target n s a.toNat = some ((view s).read target a n, s') ∧ Becomes s s' (view s) := by
  obtain ⟨s', hread, hbecomes⟩ := readPart_becomes h hfit
  refine ⟨s', ?_, hbecomes⟩
  unfold readUint
  rw [hread, ← numberOf_readBytes, ← numberOf_invert host]
  rfl

theorem readUint_none (hout : MEMORY_PAGE_SIZE < address % MEMORY_PAGE_SIZE + n) :
    readUint host target n s address = none := by
  unfold readUint
  rw [readPart_none hout]
  rfl

theorem length_bytesOf (o : Order) (n x : ℕ) : (bytesOf o n x).length = n := by
  rw [bytesOf, List.length_map, List.length_range]

theorem writeUint_becomes (h : Own s) (hfit : a.toNat % MEMORY_PAGE_SIZE + n ≤ MEMORY_PAGE_SIZE) :
    ∃ s', writeUint host target n s a.toNat val = some s' ∧
      Becomes s s' ((view s).writeBytes a (bytesOf target n val)) := by
  unfold writeUint
  rw [invert_bytesOf]
  exact writePart_becomes h (by rwa [length_bytesOf])

theorem writeUint_none (hout : MEMORY_PAGE_SIZE < address % MEMORY_PAGE_SIZE + n) :
    writeUint host target n s address val = none := by
  unfold writeUint
  rw [invert_bytesOf]
  exact writePart_none (by rwa [length_bytesOf])

/-- A byte is always in its page. -/
theorem fit_one (address : ℕ) : address % MEMORY_PAGE_SIZE + 1 ≤ MEMORY_PAGE_SIZE := Nat.mod_lt _ (by decide)

theorem memRead8_becomes (h : Own s) (a : BitVec 32) :
    ∃ s', memRead8 host s a.toNat = some ((view s).read target a 1, s') ∧ Becomes s s' (view s) := by
  obtain ⟨s', hread, hbecomes⟩ := readPart_becomes h (fit_one a.toNat)
  refine ⟨s', ?_, hbecomes⟩
  unfold memRead8
  rw [hread, ← numberOf_readBytes]
  cases host <;> cases target <;> rfl

theorem memWrite8_becomes (h : Own s) (a : BitVec 32) (val : ℕ) :
    ∃ s', memWrite8 host s a.toNat val = some s' ∧ Becomes s s' ((view s).writeBytes a (bytesOf target 1 val)) := by
  have hbytes : bytesOf host 1 val = bytesOf target 1 val := by cases host <;> cases target <;> rfl
  unfold memWrite8
  rw [hbytes]
  exact writePart_becomes h (by rw [length_bytesOf]; exact fit_one a.toNat)

end Otawa.Gliss
