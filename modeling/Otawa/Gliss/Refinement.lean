import Otawa.Gliss.Copies

/-!
# The memories refine byte maps

Sequences of accesses to any number of memories, that are made new or as copies and share the heap. `Separate` is what
keeps an access to a memory from the others. An access refines the one to byte maps exactly when it `Meets` its condition
(`step_refines`, `meets_of_step`), so a sequence does exactly when all of its accesses do (`refines_iff`).
-/

namespace Otawa.Gliss

open Bytes

inductive Width where
  | byte
  | half
  | word
  | double
  deriving DecidableEq, Repr

def Width.size : Width → ℕ
  | .byte => 1
  | .half => 2
  | .word => 4
  | .double => 8

/-- The accesses, by the index of their memory. -/
inductive Op where
  | new
  | write (h : ℕ) (address : BitVec 32) (buffer : List Byte)
  | read (h : ℕ) (address : BitVec 32) (size : ℕ)
  | writeInt (w : Width) (h : ℕ) (address : BitVec 32) (val : ℕ)
  | readInt (w : Width) (h : ℕ) (address : BitVec 32)
  | copy (h : ℕ)
  deriving DecidableEq, Repr

inductive Output where
  | unit
  | bytes (l : List Byte)
  | number (x : ℕ)
  deriving DecidableEq, Repr

structure Memories where
  heap : Heap
  mems : List Memory

variable (host target : Order)

def memWriteInt : Width → Space → ℕ → ℕ → Option Space
  | .byte => memWrite8 host
  | .half => memWrite16 host target
  | .word => memWrite32 host target
  | .double => memWrite64 host target

def memReadInt : Width → Space → ℕ → Option (ℕ × Space)
  | .byte => memRead8 host
  | .half => memRead16 host target
  | .word => memRead32 host target
  | .double => memRead64 host target

/-- There is nothing to access where there is no memory. -/
def Memories.access (st : Memories) (h : ℕ) (f : Space → Option (Output × Space)) : Option (Output × Memories) :=
  match st.mems[h]? with
  | none => some (.unit, st)
  | some mem => (f ⟨st.heap, mem⟩).map fun r => (r.1, ⟨r.2.heap, st.mems.set h r.2.mem⟩)

def step (st : Memories) : Op → Option (Output × Memories)
  | .new => some (.unit, ⟨st.heap, st.mems ++ [memNew]⟩)
  | .write h address buffer => st.access h fun s => (memWrite s address.toNat buffer).map (Output.unit, ·)
  | .read h address size => st.access h fun s => (memRead s address.toNat size).map fun r => (.bytes r.1, r.2)
  | .writeInt w h address val =>
      st.access h fun s => (memWriteInt host target w s address.toNat val).map (Output.unit, ·)
  | .readInt w h address => st.access h fun s => (memReadInt host target w s address.toNat).map fun r => (.number r.1, r.2)
  | .copy h =>
      match st.mems[h]? with
      | none => some (.unit, st)
      | some mem => (memCopy st.heap mem).map fun t => (.unit, ⟨t.heap, st.mems ++ [t.mem]⟩)

/-! ### The accesses to byte maps -/

def absAccess (ms : List ByteMap) (h : ℕ) (f : ByteMap → Output × ByteMap) : Output × List ByteMap :=
  match ms[h]? with
  | none => (.unit, ms)
  | some m => ((f m).1, ms.set h (f m).2)

/-- A copy is a byte map of its own. -/
def absStep (ms : List ByteMap) : Op → Output × List ByteMap
  | .new => (.unit, ms ++ [(fun _ => 0 : ByteMap)])
  | .write h address buffer => absAccess ms h fun m => (.unit, m.writeBytes address buffer)
  | .read h address size => absAccess ms h fun m => (.bytes (m.readBytes address size), m)
  | .writeInt w h address val => absAccess ms h fun m => (.unit, m.writeBytes address (bytesOf target w.size val))
  | .readInt w h address => absAccess ms h fun m => (.number (m.read target address w.size), m)
  | .copy h => (.unit, ms ++ ms[h]?.toList)

def Memories.views (st : Memories) : List ByteMap := st.mems.map fun mem => view ⟨st.heap, mem⟩

/-- Each access has a result, which is that of the byte maps, and leaves their bytes. -/
def Refines : Memories → List ByteMap → List Op → Prop
  | _, _, [] => True
  | st, ms, op :: ops => ∃ st', step host target st op = some ((absStep target ms op).1, st') ∧
      st'.views = (absStep target ms op).2 ∧ Refines st' (absStep target ms op).2 ops

/-- A number is in a page, and the bytes of a copied memory are where the two hashes are equal. -/
def Meets (st : Memories) : Op → Prop
  | .writeInt w h address _ => h < st.mems.length → address.toNat % MEMORY_PAGE_SIZE + w.size ≤ MEMORY_PAGE_SIZE
  | .readInt w h address => h < st.mems.length → address.toNat % MEMORY_PAGE_SIZE + w.size ≤ MEMORY_PAGE_SIZE
  | .copy h => ∀ mem, st.mems[h]? = some mem → Inside mem ∧
      ∀ a : BitVec 32, memHash1 a.toNat ≠ memHash2 a.toNat → view ⟨st.heap, mem⟩ a = 0
  | _ => True

def AlwaysMeets : Memories → List Op → Prop
  | _, [] => True
  | st, op :: ops => Meets st op ∧ ∀ r, step host target st op = some r → AlwaysMeets r.2 ops

/-- No memory yet. -/
def start : Memories := ⟨[], []⟩

/-! ### Memories of one heap -/

/-- The memories have their pages, and storages that no other has. -/
structure Separate (st : Memories) : Prop where
  own : ∀ (i : ℕ) mem, st.mems[i]? = some mem → Own ⟨st.heap, mem⟩
  apart : ∀ (i j : ℕ) mem mem', st.mems[i]? = some mem → st.mems[j]? = some mem' → i ≠ j →
    ∀ p q, Entry mem p → Entry mem' q → p.storage ≠ q.storage

variable {host target} {st st' : Memories} {s s' : Space} {mem : Memory} {m : ByteMap} {op : Op} {h : ℕ}

theorem separate_start : Separate start where
  own := by
    intro i mem hi
    cases hi
  apart := by
    intro i j mem mem' hi
    cases hi

/-- What an access leaves of a memory that has other storages. -/
theorem Frame.other (hframe : Frame s s') (hown : Own ⟨s.heap, mem⟩)
    (happart : ∀ p q, Entry s.mem p → Entry mem q → p.storage ≠ q.storage) :
    Own ⟨s'.heap, mem⟩ ∧ view ⟨s'.heap, mem⟩ = view ⟨s.heap, mem⟩ ∧
      ∀ p q, Entry s'.mem p → Entry mem q → p.storage ≠ q.storage := by
  have hbelow : ∀ q, Entry mem q → q.storage < s.heap.length := fun q hq => (hown.of_entry hq).2.2
  have hown' : Own ⟨s'.heap, mem⟩ := by
    refine ⟨fun i table j p hi hp => ?_, hown.unique, hown.distinct⟩
    obtain ⟨hlt, hmod, h1, h2, hstorage⟩ := hown.placed i table j p hi hp
    exact ⟨hlt, hmod, h1, h2, Nat.lt_of_lt_of_le hstorage hframe.grows⟩
  refine ⟨hown', funext fun a => ?_, ?_⟩
  · unfold view
    dsimp only
    cases hsearch : memSearchPage mem a.toNat with
    | none => rfl
    | some q =>
      obtain ⟨hq, -⟩ := (search_iff hown).mp hsearch
      dsimp only
      rw [hframe.others q.storage (hbelow q hq) fun p hp => happart p q hp hq]
  · intro p q hp hq
    rcases hframe.entries p hp with hold | hnew
    · exact happart p q hold hq
    · exact Nat.ne_of_gt (Nat.lt_of_lt_of_le (hbelow q hq) hnew)

theorem getElem?_views (st : Memories) (h : ℕ) : st.views[h]? = st.mems[h]?.map fun mem => view ⟨st.heap, mem⟩ :=
  List.getElem?_map

/-- An access changes its memory alone. -/
theorem Separate.set (hsep : Separate st) (hmem : st.mems[h]? = some mem) (hbecomes : Becomes ⟨st.heap, mem⟩ s' m) :
    Separate ⟨s'.heap, st.mems.set h s'.mem⟩ ∧ Memories.views ⟨s'.heap, st.mems.set h s'.mem⟩ = st.views.set h m := by
  have hlt : h < st.mems.length := (List.getElem?_eq_some_iff.mp hmem).1
  have hother : ∀ i mem', i ≠ h → st.mems[i]? = some mem' → Own ⟨s'.heap, mem'⟩ ∧
      view ⟨s'.heap, mem'⟩ = view ⟨st.heap, mem'⟩ ∧ ∀ p q, Entry s'.mem p → Entry mem' q → p.storage ≠ q.storage := by
    intro i mem' hne hi
    exact hbecomes.frame.other (hsep.own i mem' hi) (hsep.apart h i mem mem' hmem hi (Ne.symm hne))
  have hget : ∀ (i : ℕ) mem', (st.mems.set h s'.mem)[i]? = some mem' →
      i = h ∧ mem' = s'.mem ∨ i ≠ h ∧ st.mems[i]? = some mem' := by
    intro i mem' hi
    by_cases heq : i = h
    · subst heq
      rw [List.getElem?_set_self hlt] at hi
      exact .inl ⟨rfl, (Option.some.inj hi).symm⟩
    · rw [List.getElem?_set_ne (Ne.symm heq)] at hi
      exact .inr ⟨heq, hi⟩
  refine ⟨⟨?_, ?_⟩, List.ext_getElem? fun i => ?_⟩
  · intro i mem' hi
    rcases hget i mem' hi with ⟨-, rfl⟩ | ⟨hne, hi⟩
    · exact hbecomes.own
    · exact (hother i mem' hne hi).1
  · intro i j mi mj hi hj hne p q hp hq
    rcases hget i mi hi with ⟨rfl, rfl⟩ | ⟨hih, hi'⟩ <;> rcases hget j mj hj with ⟨rfl, rfl⟩ | ⟨hjh, hj'⟩
    · exact absurd rfl hne
    · exact (hother j mj hjh hj').2.2 p q hp hq
    · exact ((hother i mi hih hi').2.2 q p hq hp).symm
    · exact hsep.apart i j mi mj hi' hj' hne p q hp hq
  · rw [getElem?_views]
    dsimp only
    by_cases heq : i = h
    · subst heq
      have hviews : i < st.views.length := by rwa [Memories.views, List.length_map]
      rw [List.getElem?_set_self hlt, List.getElem?_set_self hviews, Option.map_some]
      exact congrArg some hbecomes.view_eq
    · rw [List.getElem?_set_ne (Ne.symm heq), List.getElem?_set_ne (Ne.symm heq), getElem?_views]
      cases hi : st.mems[i]? with
      | none => rfl
      | some mem' => exact congrArg some (hother i mem' heq hi).2.1

/-- A new memory has no page. -/
theorem Separate.new (hsep : Separate st) : Separate ⟨st.heap, st.mems ++ [memNew]⟩ ∧
    Memories.views ⟨st.heap, st.mems ++ [memNew]⟩ = st.views ++ [fun _ => 0] := by
  have hget : ∀ (i : ℕ) mem, (st.mems ++ [memNew])[i]? = some mem → mem = memNew ∨ st.mems[i]? = some mem := by
    intro i mem hi
    by_cases hlt : i < st.mems.length
    · rw [List.getElem?_append_left hlt] at hi
      exact .inr hi
    · rw [List.getElem?_append_right (Nat.le_of_not_lt hlt)] at hi
      exact .inl (List.mem_singleton.mp (List.mem_of_getElem? hi))
  refine ⟨⟨?_, ?_⟩, List.map_append⟩
  · intro i mem hi
    rcases hget i mem hi with rfl | hi
    · exact own_memNew st.heap
    · exact hsep.own i mem hi
  · intro i j mi mj hi hj hne p q hp hq
    rcases hget i mi hi with rfl | hi
    · exact absurd hp no_entry_new
    · rcases hget j mj hj with rfl | hj
      · exact absurd hq no_entry_new
      · exact hsep.apart i j mi mj hi hj hne p q hp hq

/-! ### One access -/

theorem set_length_append {α : Type} (l : List α) (x y : α) : (l ++ [x]).set l.length y = l ++ [y] := by
  rw [List.set_append_right _ _ (Nat.le_refl _), Nat.sub_self]
  rfl

/-- What is left to show of an access is what it makes of its memory. -/
theorem access_refines (hsep : Separate st) {f : Space → Option (Output × Space)} {g : ByteMap → Output × ByteMap}
    (hf : ∀ mem, st.mems[h]? = some mem → ∃ s', f ⟨st.heap, mem⟩ = some ((g (view ⟨st.heap, mem⟩)).1, s') ∧
      Becomes ⟨st.heap, mem⟩ s' (g (view ⟨st.heap, mem⟩)).2) :
    ∃ st', st.access h f = some ((absAccess st.views h g).1, st') ∧ Separate st' ∧
      st'.views = (absAccess st.views h g).2 := by
  unfold Memories.access absAccess
  rw [getElem?_views]
  cases hmem : st.mems[h]? with
  | none => exact ⟨st, rfl, hsep, rfl⟩
  | some mem =>
    obtain ⟨s', hs', hbecomes⟩ := hf mem hmem
    dsimp only [Option.map_some]
    rw [hs']
    exact ⟨_, rfl, hsep.set hmem hbecomes⟩

variable (host target) in
theorem memReadInt_becomes (hs : Own s) {a : BitVec 32} (w : Width)
    (hfit : a.toNat % MEMORY_PAGE_SIZE + w.size ≤ MEMORY_PAGE_SIZE) :
    ∃ s', memReadInt host target w s a.toNat = some ((view s).read target a w.size, s') ∧ Becomes s s' (view s) := by
  cases w with
  | byte => exact memRead8_becomes hs a
  | half => exact readUint_becomes hs hfit
  | word => exact readUint_becomes hs hfit
  | double => exact readUint_becomes hs hfit

variable (host target) in
theorem memWriteInt_becomes (hs : Own s) {a : BitVec 32} (w : Width) (val : ℕ)
    (hfit : a.toNat % MEMORY_PAGE_SIZE + w.size ≤ MEMORY_PAGE_SIZE) :
    ∃ s', memWriteInt host target w s a.toNat val = some s' ∧
      Becomes s s' ((view s).writeBytes a (bytesOf target w.size val)) := by
  cases w with
  | byte => exact memWrite8_becomes hs a val
  | half => exact writeUint_becomes hs hfit
  | word => exact writeUint_becomes hs hfit
  | double => exact writeUint_becomes hs hfit

/-- A copy that meets its condition has the bytes of its memory. -/
theorem copy_refines (hsep : Separate st) (hmeets : Meets st (.copy h)) :
    ∃ st', step host target st (.copy h) = some (.unit, st') ∧ Separate st' ∧
      st'.views = st.views ++ st.views[h]?.toList := by
  unfold step
  dsimp only
  rw [getElem?_views]
  cases hmem : st.mems[h]? with
  | none => exact ⟨st, rfl, hsep, (List.append_nil _).symm⟩
  | some mem =>
    obtain ⟨hinside, hzeros⟩ := hmeets mem hmem
    obtain ⟨t, hcopy, hbecomes⟩ := memCopy_becomes (hsep.own h mem hmem) hinside
    have hview : (fun a : BitVec 32 => if memHash1 a.toNat = memHash2 a.toNat then view ⟨st.heap, mem⟩ a else 0) =
        view ⟨st.heap, mem⟩ := by
      funext a
      split
      · rfl
      · rename_i hne
        exact (hzeros a hne).symm
    rw [hview] at hbecomes
    have hlast : (st.mems ++ [memNew])[st.mems.length]? = some memNew := List.getElem?_concat_length
    obtain ⟨hnew, hviews⟩ := hsep.new
    obtain ⟨hset, hset_views⟩ := hnew.set hlast hbecomes
    have hlength : st.views.length = st.mems.length := List.length_map _
    dsimp only at hset hset_views
    rw [hviews, ← hlength, set_length_append, hlength] at hset_views
    rw [set_length_append] at hset hset_views
    dsimp only at hcopy ⊢
    rw [hcopy]
    exact ⟨_, rfl, hset, hset_views⟩

variable (host target) in
/-- An access that meets its condition is one to the byte maps. -/
theorem step_refines (hsep : Separate st) (hmeets : Meets st op) :
    ∃ st', step host target st op = some ((absStep target st.views op).1, st') ∧ Separate st' ∧
      st'.views = (absStep target st.views op).2 := by
  have hlt : ∀ {h : ℕ} {mem}, st.mems[h]? = some mem → h < st.mems.length := fun hmem =>
    (List.getElem?_eq_some_iff.mp hmem).1
  cases op with
  | new => exact ⟨_, rfl, hsep.new⟩
  | write h address buffer =>
    simp only [step, absStep]
    refine access_refines hsep fun mem hmem => ?_
    obtain ⟨s', hwrite, hbecomes⟩ := memWrite_becomes (hsep.own h mem hmem) address buffer
    exact ⟨s', by rw [hwrite]; rfl, hbecomes⟩
  | read h address size =>
    simp only [step, absStep]
    refine access_refines hsep fun mem hmem => ?_
    obtain ⟨s', hread, hbecomes⟩ := memRead_becomes (hsep.own h mem hmem) address size
    exact ⟨s', by rw [hread]; rfl, hbecomes⟩
  | writeInt w h address val =>
    simp only [step, absStep]
    refine access_refines hsep fun mem hmem => ?_
    obtain ⟨s', hwrite, hbecomes⟩ := memWriteInt_becomes host target (hsep.own h mem hmem) w val
      (hmeets (hlt hmem))
    exact ⟨s', by rw [hwrite]; rfl, hbecomes⟩
  | readInt w h address =>
    simp only [step, absStep]
    refine access_refines hsep fun mem hmem => ?_
    obtain ⟨s', hread, hbecomes⟩ := memReadInt_becomes host target (hsep.own h mem hmem) w
      (hmeets (hlt hmem))
    exact ⟨s', by rw [hread]; rfl, hbecomes⟩
  | copy h => exact copy_refines hsep hmeets

theorem memReadInt_none {a : BitVec 32} (w : Width) (hout : MEMORY_PAGE_SIZE < a.toNat % MEMORY_PAGE_SIZE + w.size) :
    memReadInt host target w s a.toNat = none := by
  cases w with
  | byte => exact absurd hout (Nat.not_lt_of_le (fit_one a.toNat))
  | half => exact readUint_none hout
  | word => exact readUint_none hout
  | double => exact readUint_none hout

theorem memWriteInt_none {a : BitVec 32} (w : Width) (val : ℕ)
    (hout : MEMORY_PAGE_SIZE < a.toNat % MEMORY_PAGE_SIZE + w.size) :
    memWriteInt host target w s a.toNat val = none := by
  cases w with
  | byte => exact absurd hout (Nat.not_lt_of_le (fit_one a.toNat))
  | half => exact writeUint_none hout
  | word => exact writeUint_none hout
  | double => exact writeUint_none hout

theorem access_none {f : Space → Option (Output × Space)} (hlt : h < st.mems.length) (hf : ∀ s, f s = none) :
    st.access h f = none := by
  unfold Memories.access
  rw [List.getElem?_eq_getElem hlt]
  dsimp only
  rw [hf]
  rfl

theorem step_readInt_none {a : BitVec 32} {w : Width} (hlt : h < st.mems.length)
    (hout : MEMORY_PAGE_SIZE < a.toNat % MEMORY_PAGE_SIZE + w.size) : step host target st (.readInt w h a) = none := by
  simp only [step]
  apply access_none hlt
  intro s
  rw [memReadInt_none w hout]
  rfl

theorem step_writeInt_none {a : BitVec 32} {w : Width} {val : ℕ} (hlt : h < st.mems.length)
    (hout : MEMORY_PAGE_SIZE < a.toNat % MEMORY_PAGE_SIZE + w.size) :
    step host target st (.writeInt w h a val) = none := by
  simp only [step]
  apply access_none hlt
  intro s
  rw [memWriteInt_none w val hout]
  rfl

/-- An access that is one to the byte maps meets its condition. -/
theorem meets_of_step (hsep : Separate st) {out : Output} (hstep : step host target st op = some (out, st'))
    (hviews : st'.views = (absStep target st.views op).2) : Meets st op := by
  cases op with
  | new => trivial
  | write h address buffer => trivial
  | read h address size => trivial
  | writeInt w h address val =>
    intro hlt
    by_contra hout
    rw [step_writeInt_none hlt (Nat.lt_of_not_le hout)] at hstep
    cases hstep
  | readInt w h address =>
    intro hlt
    by_contra hout
    rw [step_readInt_none hlt (Nat.lt_of_not_le hout)] at hstep
    cases hstep
  | copy h =>
    intro mem hmem
    unfold step at hstep
    dsimp only at hstep
    rw [hmem] at hstep
    dsimp only at hstep
    have hinside : Inside mem := by
      by_contra hout
      rw [memCopy_none (s := ⟨st.heap, mem⟩) hout] at hstep
      cases hstep
    refine ⟨hinside, fun a hne => ?_⟩
    obtain ⟨t, hcopy, hbecomes⟩ := memCopy_becomes (hsep.own h mem hmem) hinside
    rw [hcopy] at hstep
    cases hstep
    have hcopied : (Memories.views ⟨t.heap, st.mems ++ [t.mem]⟩)[st.mems.length]? = some (view t) := by
      rw [getElem?_views, List.getElem?_concat_length]
      rfl
    have hwanted : (st.views ++ st.views[h]?.toList)[st.mems.length]? = some (view ⟨st.heap, mem⟩) := by
      have hlength : st.views.length = st.mems.length := List.length_map _
      rw [getElem?_views, hmem, ← hlength]
      exact List.getElem?_concat_length
    rw [hviews] at hcopied
    have hview : view t = view ⟨st.heap, mem⟩ := Option.some.inj (hcopied.symm.trans hwanted)
    rw [← hview, hbecomes.view_eq]
    exact if_neg hne

/-- The accesses refine those to byte maps exactly when each meets its condition. -/
theorem refines_of_separate_iff (hsep : Separate st) (ops : List Op) :
    Refines host target st st.views ops ↔ AlwaysMeets host target st ops := by
  induction ops generalizing st with
  | nil => exact Iff.rfl
  | cons op ops ih =>
    constructor
    · rintro ⟨st', hstep, hviews, hrest⟩
      have hmeets := meets_of_step hsep hstep hviews
      refine ⟨hmeets, fun r hr => ?_⟩
      obtain ⟨st'', hstep', hsep', -⟩ := step_refines host target hsep hmeets
      rw [hstep] at hstep' hr
      cases hstep'
      cases hr
      rw [← hviews] at hrest
      exact (ih hsep').mp hrest
    · rintro ⟨hmeets, hrest⟩
      obtain ⟨st', hstep, hsep', hviews⟩ := step_refines host target hsep hmeets
      refine ⟨st', hstep, hviews, ?_⟩
      rw [← hviews]
      exact (ih hsep').mpr (hrest _ hstep)

/-- From no memory on, for any two orders. -/
theorem run_refines_iff (host target : Order) (ops : List Op) :
    Refines host target start [] ops ↔ AlwaysMeets host target start ops :=
  refines_of_separate_iff separate_start ops

/-- A number that starts at the last byte of a page is read outside of its storage, and a byte of the second page is not in
the copy. -/
theorem second_page_lost : ¬ Refines .little .little start [] [.new, .readInt .half 0 4095#32] ∧
    ¬ Refines .little .little start [] [.new, .write 0 4096#32 [1], .copy 0] := by
  constructor
  · rintro ⟨st, hnew, -, st', hread, -⟩
    cases hnew
    rw [step_readInt_none Nat.zero_lt_one (by decide)] at hread
    cases hread
  · intro hrefines
    have hmeets := (refines_of_separate_iff separate_start _).mp hrefines
    obtain ⟨st, hnew, hviews, st', hwrite, hviews', -⟩ := hrefines
    have hzeros := ((hmeets.2 _ hnew).2 _ hwrite).1
    have hbytes : st'.views[0]? = some (ByteMap.writeBytes (fun _ => 0) 4096#32 [1]) := by
      rw [hviews']
      rfl
    rw [getElem?_views] at hbytes
    obtain ⟨mem, hmem, hview⟩ := Option.map_eq_some_iff.mp hbytes
    have hzero := (hzeros mem hmem).2 4096#32 (by decide)
    rw [hview] at hzero
    exact absurd hzero (by decide)

end Otawa.Gliss
