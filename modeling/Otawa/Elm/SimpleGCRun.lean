import Otawa.Elm.SimpleGC

/-!
# Runs of the simple garbage collector

`collector_correct`: as long as the chunks are not cleared, the collector gives blocks that are not in use, and a collection
leaves the bytes that are not marked.
-/

namespace Otawa.Elm.GC

variable {csize size i n : ℕ} {chunks : List ℕ} {bits : List Bool} {vectors : Bits} {st : ChunkTree} {m : Block}
  {done marks : List Block}

/-! ### Marks -/

theorem bit_natCast (bits : List Bool) (i : ℕ) : SimpleGC.bit bits i = bits[i]? := by
  rw [SimpleGC.bit, if_neg (by omega), Int.toNat_natCast]

theorem setBits_spec (res : Bool) (h : i + n ≤ bits.length) :
    ∃ bits' res', SimpleGC.setBits n i bits res = some (bits', res') ∧ bits'.length = bits.length ∧
      ∀ j, bits'[j]? = if i ≤ j ∧ j < i + n then some true else bits[j]? := by
  induction n generalizing i bits res with
  | zero => exact ⟨bits, res, rfl, rfl, fun j => by rw [if_neg (by omega)]⟩
  | succ n ih =>
    have hlt : i < bits.length := by omega
    have hnext : (i : ℤ) + 1 = (i + 1 : ℕ) := rfl
    rw [SimpleGC.setBits, bit_natCast, List.getElem?_eq_getElem hlt, Int.toNat_natCast, hnext]
    cases hbit : bits[i] with
    | true =>
      obtain ⟨bits', res', hset, hlength, hget⟩ := ih res (show i + 1 + n ≤ bits.length by omega)
      refine ⟨bits', res', hset, hlength, fun j => (hget j).trans ?_⟩
      by_cases hj : i = j
      · subst hj
        rw [if_neg (by omega), if_pos (by omega), List.getElem?_eq_getElem hlt, hbit]
      · exact if_congr (by omega) rfl rfl
    | false =>
      have hfits : i + 1 + n ≤ (bits.set i true).length := by
        rw [List.length_set]
        omega
      obtain ⟨bits', res', hset, hlength, hget⟩ := ih false hfits
      refine ⟨bits', res', hset, hlength.trans List.length_set, fun j => (hget j).trans ?_⟩
      by_cases hj : i = j
      · subst hj
        rw [if_neg (by omega), if_pos (by omega), List.getElem?_set_self hlt]
      · rw [List.getElem?_set_ne hj]
        exact if_congr (by omega) rfl rfl

/-- The bits of the granules are those of the blocks that are marked. -/
def Marked (csize : ℕ) (chunks : List ℕ) (vectors : Bits) (done : List Block) : Prop :=
  ∀ chunk ∈ chunks, (vectors chunk).length = csize / granule ∧
    ∀ i < csize / granule, (vectors chunk)[i]? = some true ↔ ∃ m ∈ done, chunk + i * granule ∈ m.rounded.bytes

/-- The look-up of the address finds its chunk. -/
def Answers (st : ChunkTree) (csize : ℕ) (chunks : List ℕ) (data : ℕ) : Prop :=
  ∀ chunk ∈ chunks, chunk ≤ data → data ≤ chunk + csize → st.find data = some (some (some chunk))

theorem mark_spec (hcsize : csize < 2 ^ 35) (hapart : Apart csize chunks) (hwithin : Within csize chunks m.rounded)
    (hanswers : Answers st csize chunks m.addr) (hmarked : Marked csize chunks vectors done) :
    ∃ vectors' res, SimpleGC.mark st vectors m.addr m.size = some (vectors', res) ∧
      Marked csize chunks vectors' (done ++ [m]) := by
  obtain ⟨chunk, hchunk, hlow, hdvd, hhigh⟩ := hwithin
  obtain ⟨p, hp⟩ := hdvd
  change chunk ≤ m.addr at hlow
  change m.addr - chunk = granule * p at hp
  obtain ⟨s, hs⟩ : ∃ s, s = (m.size + granule - 1) % 2 ^ 64 / granule := ⟨_, rfl⟩
  have hround : m.rounded.size = s * granule := by rw [hs]; rfl
  have haddr : m.addr = chunk + p * granule := by rw [Nat.mul_comm, ← hp]; omega
  have hend : m.addr + s * granule ≤ chunk + csize := hround ▸ hhigh
  have hfits : (p + s) * granule ≤ csize := by
    rw [Nat.add_mul]
    omega
  have hle : p + s ≤ csize / granule := (Nat.le_div_iff_mul_le (by decide)).mpr hfits
  have hsmall : csize / granule < 2 ^ 31 := by
    rw [granule]
    omega
  have hfind := hanswers chunk hchunk hlow (by omega)
  have hquot : (m.addr - chunk) / granule = p := by rw [hp, Nat.mul_div_cancel_left _ (by decide)]
  obtain ⟨hlength, hbits⟩ := hmarked chunk hchunk
  obtain ⟨bits', res', hset, hlength', hget⟩ := setBits_spec true (show p + s ≤ (vectors chunk).length by omega)
  refine ⟨Function.update vectors chunk bits', res', ?_, fun other hother => ?_⟩
  · simp only [SimpleGC.mark, hfind, Option.bind_eq_bind, Option.bind_some, hquot, ← hs,
      int_of_lt (show p < 2 ^ 31 by omega), int_of_lt (show s < 2 ^ 31 by omega), Int.toNat_natCast, hset]
    rfl
  · by_cases heq : other = chunk
    · subst heq
      rw [Function.update_self]
      refine ⟨hlength'.trans hlength, fun i hi => ?_⟩
      have hmem : other + i * granule ∈ m.rounded.bytes ↔ p ≤ i ∧ i < p + s := by
        rw [mem_bytes, hround]
        change m.addr ≤ _ ∧ _ < m.addr + _ ↔ _
        rw [haddr, granule]
        omega
      have hor : (∃ b ∈ done ++ [m], other + i * granule ∈ b.rounded.bytes) ↔
          (∃ b ∈ done, other + i * granule ∈ b.rounded.bytes) ∨ p ≤ i ∧ i < p + s := by
        simp [or_and_right, exists_or, hmem]
      rw [hget i, hor, ← hbits i hi]
      split
      case isTrue hin => exact iff_of_true rfl (.inr hin)
      case isFalse hout => rw [or_iff_left hout]
    · rw [Function.update_of_ne heq]
      obtain ⟨hlength, hbits⟩ := hmarked other hother
      refine ⟨hlength, fun i hi => (hbits i hi).trans ?_⟩
      have hout : other + i * granule ∉ m.rounded.bytes := by
        rw [mem_bytes, hround]
        change ¬(m.addr ≤ _ ∧ _ < m.addr + _)
        have hi' : (i + 1) * granule ≤ csize := (Nat.le_div_iff_mul_le (by decide)).mp hi
        rw [Nat.add_mul, Nat.one_mul] at hi'
        rintro ⟨hge, hlt⟩
        rcases Nat.le_total other chunk with hle | hle
        · exact heq (hapart.eq hother hchunk hle (by omega))
        · exact heq (hapart.eq hchunk hother hle (by omega)).symm
      simp [or_and_right, exists_or, hout]

theorem collect_spec (hcsize : csize < 2 ^ 35) (hapart : Apart csize chunks)
    (hwithin : ∀ m ∈ marks, Within csize chunks m.rounded) (hanswers : ∀ m ∈ marks, Answers st csize chunks m.addr)
    (hmarked : Marked csize chunks vectors done) :
    ∃ vectors', SimpleGC.collect st vectors marks = some vectors' ∧ Marked csize chunks vectors' (done ++ marks) := by
  induction marks generalizing vectors done with
  | nil => exact ⟨vectors, rfl, by rwa [List.append_nil]⟩
  | cons m marks ih =>
    obtain ⟨vectors', res, hmark, hmarked'⟩ :=
      mark_spec hcsize hapart (hwithin m List.mem_cons_self) (hanswers m List.mem_cons_self) hmarked
    obtain ⟨vectors'', hcollect, hmarked''⟩ := ih (fun b hb => hwithin b (List.mem_cons_of_mem _ hb))
      (fun b hb => hanswers b (List.mem_cons_of_mem _ hb)) hmarked'
    refine ⟨vectors'', ?_, by rwa [List.append_assoc] at hmarked''⟩
    rw [SimpleGC.collect, List.foldlM_cons, hmark]
    exact hcollect

/-! ### Collections -/

variable {gc gc' : SimpleGC} {heap : List ℕ}

theorem disjointed_segments (hpos : 0 < csize) (hapart : Apart csize chunks) :
    STree.SegmentBuilder.Disjointed (chunks.map (SimpleGC.segment csize)) := by
  constructor
  · rintro seg hseg
    obtain ⟨chunk, -, rfl⟩ := List.mem_map.mp hseg
    exact Nat.lt_add_of_pos_right hpos
  · refine List.pairwise_map.mpr (hapart.imp fun {a b} hor => Set.disjoint_left.mpr fun x hxa hxb => ?_)
    obtain ⟨hla, hha⟩ := Set.mem_Ico.mp hxa
    obtain ⟨hlb, hhb⟩ := Set.mem_Ico.mp hxb
    change a ≤ x at hla
    change x < a + csize at hha
    change b ≤ x at hlb
    change x < b + csize at hhb
    omega

/-- The end of a chunk is found in the tree when no other chunk is above. -/
theorem beginGC_spec (hheap : ∀ chunk ∈ gc.chunks, chunk ∈ heap) (hcsize : gc.csize < 2 ^ 35)
    (hpos : gc.chunks ≠ [] → granule ≤ gc.csize) (hapart : Apart gc.csize gc.chunks) :
    ∃ st, SimpleGC.beginGC gc heap = some (st, fun _ => List.replicate (gc.csize / granule) false) ∧
      ∀ data, (∀ chunk ∈ gc.chunks, data = chunk + gc.csize → ∀ c ∈ gc.chunks, c ≤ chunk) →
        Answers st gc.csize gc.chunks data := by
  have hint : int (gc.csize / granule) = (gc.csize / granule : ℕ) := int_of_lt (by rw [granule]; omega)
  have hsize : gc.chunks ≠ [] → 0 < int (gc.csize / granule) := by
    intro hne
    have hdiv := Nat.div_pos (hpos hne) (by decide)
    omega
  by_cases hne : gc.chunks = []
  · refine ⟨STree.Tree.empty, ?_, fun data _ chunk hchunk => ?_⟩
    · rw [SimpleGC.beginGC, if_pos ⟨hheap, hsize⟩, hint, Int.toNat_natCast, hne]
      rfl
    · rw [hne] at hchunk
      exact absurd hchunk List.not_mem_nil
  · have hcs : 0 < gc.csize := Nat.lt_of_lt_of_le (by decide) (hpos hne)
    have hdisjointed := disjointed_segments hcs hapart
    have hsegs : gc.chunks.map (SimpleGC.segment gc.csize) ≠ [] := fun h => hne (List.map_eq_nil_iff.mp h)
    obtain ⟨st, seg, rest, hall, hmake, hbuilt⟩ :=
      hdisjointed.built hsegs none STree.Tree.empty (by rw [List.length_map])
    obtain ⟨last, hlast⟩ : ∃ last, (seg :: rest).getLast? = some last := ⟨_, List.getLast?_cons⟩
    have hgreatest := hdisjointed.isGreatest (hall ▸ hlast)
    refine ⟨st, ?_, fun data htop chunk hchunk hlow hhigh => ?_⟩
    · rw [SimpleGC.beginGC, if_pos ⟨hheap, hsize⟩, hint, Int.toNat_natCast, hmake]
      rfl
    · have hmem : SimpleGC.segment gc.csize chunk ∈ gc.chunks.map (SimpleGC.segment gc.csize) :=
        List.mem_map_of_mem hchunk
      have hle : (SimpleGC.segment gc.csize chunk).high ≤ last.high := hgreatest.2 (List.mem_map_of_mem hmem)
      change chunk + gc.csize ≤ last.high at hle
      obtain hlt | heq := Nat.lt_or_eq_of_le hhigh
      · have hkey : data ∈ (SimpleGC.segment gc.csize chunk).keys := Set.mem_Ico.mpr ⟨hlow, hlt⟩
        refine ((hdisjointed.find_iff hall hbuilt data).mpr fun hdata => ?_).trans
          (congrArg some (hdisjointed.value_of_mem hmem hkey))
        have hge := hdata.2 hgreatest.1
        omega
      · obtain ⟨top, htop', hhigh'⟩ := List.mem_map.mp hgreatest.1
        have hlast' := hdisjointed.mem_addAll.mp (hall ▸ List.mem_of_getLast? hlast)
        obtain ⟨c, hc, rfl⟩ := List.mem_map.mp hlast'
        change chunk + gc.csize ≤ c + gc.csize at hle
        obtain rfl : c = chunk := Nat.le_antisymm (htop chunk hchunk heq c hc) (by omega)
        rw [heq]
        exact hdisjointed.find_high hall hbuilt hlast

/-- The bytes of a granule are in the same blocks. -/
theorem mem_rounded_iff {chunk j x : ℕ} (hapart : Apart csize chunks) (hchunk : chunk ∈ chunks)
    (hwithin : Within csize chunks m.rounded) (hj : (j + 1) * granule ≤ csize) (hlow : chunk + j * granule ≤ x)
    (hhigh : x < chunk + (j + 1) * granule) : x ∈ m.rounded.bytes ↔ chunk + j * granule ∈ m.rounded.bytes := by
  obtain ⟨c, hc, hclow, ⟨p, hp⟩, hchigh⟩ := hwithin
  obtain ⟨s, hs⟩ : granule ∣ m.rounded.size := granule_dvd_round _
  rw [mem_bytes, mem_bytes]
  by_cases heq : c = chunk
  · subst heq
    rw [granule] at hp hs hlow hhigh ⊢
    omega
  · have hout : ∀ y, chunk ≤ y → y < chunk + csize → ¬(m.rounded.addr ≤ y ∧ y < m.rounded.addr + m.rounded.size) := by
      rintro y hy hy' ⟨hge, hlt⟩
      rcases Nat.le_total c chunk with hle | hle
      · exact heq (hapart.eq hc hchunk hle (by omega))
      · exact heq (hapart.eq hchunk hc hle (by omega)).symm
    rw [Nat.add_mul, Nat.one_mul] at hj hhigh
    exact iff_of_false (hout x (by omega) (by omega)) (hout _ (by omega) (by rw [granule] at hj ⊢; omega))

/-- A collection leaves the bytes of the chunks that are not marked. -/
theorem doGC_spec (hheap : ∀ chunk ∈ gc.chunks, chunk ∈ heap) (hcsize : gc.csize < 2 ^ 35) (hdvd : granule ∣ gc.csize)
    (hpos : gc.chunks ≠ [] → granule ≤ gc.csize) (hapart : Apart gc.csize gc.chunks)
    (hwithin : ∀ m ∈ marks, Within gc.csize gc.chunks m.rounded)
    (hanswered : ∀ m ∈ marks, ∀ chunk ∈ gc.chunks, m.addr = chunk + gc.csize → ∀ c ∈ gc.chunks, c ≤ chunk) :
    ∃ free, SimpleGC.doGC gc heap marks = some { gc with free_list := free } ∧ FreeList gc.csize gc.chunks free ∧
      ∀ x, Covered free x ↔ (∃ chunk ∈ gc.chunks, chunk ≤ x ∧ x < chunk + gc.csize) ∧ ∀ m ∈ marks, x ∉ m.rounded.bytes := by
  obtain ⟨st, hbegin, hfinds⟩ := beginGC_spec hheap hcsize hpos hapart
  have hclear : Marked gc.csize gc.chunks (fun _ => List.replicate (gc.csize / granule) false) [] := by
    intro chunk _
    refine ⟨List.length_replicate, fun i hi => ?_⟩
    rw [List.getElem?_replicate, if_pos hi]
    exact iff_of_false nofun fun ⟨m, hm, _⟩ => absurd hm List.not_mem_nil
  obtain ⟨vectors, hcollect, hmarked⟩ :=
    collect_spec hcsize hapart hwithin (fun m hm => hfinds m.addr (hanswered m hm)) hclear
  rw [List.nil_append] at hmarked
  have hlength : ∀ chunk ∈ gc.chunks, (vectors chunk).length * granule ≤ gc.csize := by
    intro chunk hchunk
    rw [(hmarked chunk hchunk).1]
    exact Nat.div_mul_le_self _ _
  obtain ⟨hlist, hiff⟩ := foldl_sweep_spec vectors (show Apart gc.csize ([] ++ gc.chunks) from hapart) hlength .nil fun _ _ x _ _ => covered_nil
  refine ⟨_, ?_, hlist, fun x => (hiff x).trans ?_⟩
  · rw [SimpleGC.doGC, hbegin]
    simp only [Option.bind_eq_bind, Option.bind_some, hcollect]
    rfl
  · rw [or_iff_right covered_nil]
    constructor
    · rintro ⟨chunk, hchunk, j, hj, hlow, hhigh⟩
      rw [Nat.zero_add] at hlow hhigh
      obtain ⟨hlength, hbits⟩ := hmarked chunk hchunk
      have hlt : j < gc.csize / granule := hlength ▸ (List.getElem?_eq_some_iff.mp hj).1
      have hfits : (j + 1) * granule ≤ gc.csize := (Nat.le_div_iff_mul_le (by decide)).mp hlt
      refine ⟨⟨chunk, hchunk, by omega, by omega⟩, fun m hm hx => ?_⟩
      have hset := (hbits j hlt).mpr
        ⟨m, hm, (mem_rounded_iff hapart hchunk (hwithin m hm) hfits hlow hhigh).mp hx⟩
      rw [hj] at hset
      cases hset
    · rintro ⟨⟨chunk, hchunk, hlow, hhigh⟩, hout⟩
      obtain ⟨hlength, hbits⟩ := hmarked chunk hchunk
      obtain ⟨q, hq⟩ := hdvd
      obtain ⟨j, hj⟩ : ∃ j, j = (x - chunk) / granule := ⟨_, rfl⟩
      have hlow' : chunk + j * granule ≤ x := by
        rw [hj, granule]
        omega
      have hhigh' : x < chunk + (j + 1) * granule := by
        rw [hj, granule]
        omega
      have hlt : j < gc.csize / granule := by
        rw [granule] at hq hlow' ⊢
        omega
      have hfits : (j + 1) * granule ≤ gc.csize := (Nat.le_div_iff_mul_le (by decide)).mp hlt
      refine ⟨chunk, hchunk, j, ?_, by rwa [Nat.zero_add], by rwa [Nat.zero_add]⟩
      have hget := List.getElem?_eq_getElem (hlength.symm ▸ hlt)
      rw [hget]
      cases hbit : (vectors chunk)[j] with
      | false => rfl
      | true =>
        rw [hbit] at hget
        obtain ⟨m, hm, hmem⟩ := (hbits j hlt).mp hget
        exact absurd ((mem_rounded_iff hapart hchunk (hwithin m hm) hfits hlow' hhigh').mpr hmem) (hout m hm)

/-! ### Runs -/

/-- The collector, the chunks that are not deleted, and the blocks in use. -/
structure State where
  gc : SimpleGC
  heap : List ℕ
  live : List Block

/-- The calls, with the marks of `collect` and the buffer of a new chunk if there are. `drop` ends the use of a block. -/
inductive Event where
  | allocate (size : ℕ) (marks : List Block) (fresh : ℕ)
  | doGC (marks : List Block)
  | clear
  | drop (block : Block)

namespace State

def init (size : ℕ) : State :=
  ⟨SimpleGC.make size, [], []⟩

def step (s : State) : Event → Option State
  | .allocate size marks fresh => do
      let (data, gc, new) ← SimpleGC.allocate s.gc s.heap size marks fresh
      return ⟨gc, if new then fresh :: s.heap else s.heap, ⟨data, size⟩ :: s.live⟩
  | .doGC marks => (SimpleGC.doGC s.gc s.heap marks).map fun gc => { s with gc }
  | .clear => if ∀ chunk ∈ s.gc.chunks, chunk ∈ s.heap then some ⟨SimpleGC.clear s.gc, [], []⟩ else none
  | .drop block => some { s with live := s.live.erase block }

/-- `collect` marks the blocks in use, and only blocks of chunks. -/
structure Collects (s : State) (marks : List Block) : Prop where
  live : ∀ block ∈ s.live, block ∈ marks
  within : ∀ block ∈ marks, Within s.gc.csize s.heap block.rounded

/-- No free block has the size. -/
def Collecting (s : State) (size : ℕ) : Prop :=
  ∀ block ∈ s.gc.free_list, block.size < round size

/-- What the callers and the allocator of chunks promise. -/
def Promised (s : State) : Event → Prop
  | .allocate size marks fresh =>
      size < s.gc.csize ∧ (s.Collecting size → s.Collects marks) ∧
        header ≤ fresh ∧ ∀ chunk ∈ s.heap, chunk + s.gc.csize ≤ fresh - header ∨ fresh + s.gc.csize ≤ chunk - header
  | .doGC marks => s.Collects marks
  | .clear => True
  | .drop _ => True

/-- The marks are not at the end of a chunk, where only blocks without bytes are, but for the highest one. -/
def Below (s : State) (marks : List Block) : Prop :=
  ∀ block ∈ marks, ∀ chunk ∈ s.heap, block.addr = chunk + s.gc.csize → ∀ c ∈ s.heap, c ≤ chunk

/-- The condition of `collector_correct` on a step. -/
def Safe (s : State) : Event → Prop
  | .allocate size marks _ => s.Collecting size → s.Below marks
  | .doGC marks => s.Below marks
  | .clear => s.gc.chunks = []
  | .drop _ => True

/-- The runs whose steps meet the condition. -/
inductive Run (size : ℕ) : State → Prop where
  | init : Run size (init size)
  | step {s s' : State} {event : Event} :
      Run size s → s.Promised event → s.Safe event → s.step event = some s' → Run size s'

/-- What is said of the collector. -/
structure Correct (s : State) : Prop where
  allocate : ∀ size marks fresh, s.Promised (.allocate size marks fresh) → s.Safe (.allocate size marks fresh) →
    ∃ s' data, s.step (.allocate size marks fresh) = some s' ∧ s'.live = ⟨data, size⟩ :: s.live ∧
      (∃ chunk ∈ s'.heap, chunk ≤ data ∧ data + round size ≤ chunk + s.gc.csize) ∧
        ∀ block ∈ s.live, Disjoint (⟨data, size⟩ : Block).rounded.bytes block.rounded.bytes
  doGC : ∀ marks, s.Promised (.doGC marks) → s.Safe (.doGC marks) →
    ∃ s', s.step (.doGC marks) = some s' ∧ (s'.gc.free_list.Pairwise fun a b => Disjoint a.bytes b.bytes) ∧
      ∀ x, (∃ block ∈ s'.gc.free_list, x ∈ block.bytes) ↔
        (∃ chunk ∈ s.heap, chunk ≤ x ∧ x < chunk + s.gc.csize) ∧ ∀ block ∈ marks, x ∉ block.rounded.bytes
  free_size : ∀ block ∈ s.gc.free_list, 0 < block.size ∧ granule ∣ block.size

/-- The invariant of the runs. -/
structure Inv (s : State) : Prop where
  csize : s.gc.csize < 2 ^ 35
  granules : granule ∣ s.gc.csize
  heap : s.heap = s.gc.chunks
  positive : s.gc.chunks ≠ [] → granule ≤ s.gc.csize
  apart : Apart s.gc.csize s.gc.chunks
  free : FreeList s.gc.csize s.gc.chunks s.gc.free_list
  live : ∀ block ∈ s.live, Within s.gc.csize s.gc.chunks block.rounded
  away : ∀ block ∈ s.live, ∀ x ∈ block.rounded.bytes, ¬Covered s.gc.free_list x

variable {s s' : State} {size : ℕ}

theorem Inv.init (h : round size < 2 ^ 35) : Inv (init size) where
  csize := h
  granules := granule_dvd_round size
  heap := rfl
  positive hne := absurd rfl hne
  apart := .nil
  free := .nil
  live _ h := absurd h List.not_mem_nil
  away _ h := absurd h List.not_mem_nil

theorem Inv.collect (h : Inv s) (hcollects : s.Collects marks) (hbelow : s.Below marks) :
    ∃ free, SimpleGC.doGC s.gc s.heap marks = some { s.gc with free_list := free } ∧
      Inv { s with gc := { s.gc with free_list := free } } ∧
        ∀ x, Covered free x ↔
          (∃ chunk ∈ s.heap, chunk ≤ x ∧ x < chunk + s.gc.csize) ∧ ∀ block ∈ marks, x ∉ block.rounded.bytes := by
  have hheap : ∀ chunk ∈ s.gc.chunks, chunk ∈ s.heap := fun chunk hchunk => h.heap ▸ hchunk
  have hwithin : ∀ block ∈ marks, Within s.gc.csize s.gc.chunks block.rounded := h.heap ▸ hcollects.within
  rw [Below, h.heap] at hbelow
  obtain ⟨free, hdoGC, hfree, hiff⟩ :=
    doGC_spec hheap h.csize h.granules h.positive h.apart hwithin hbelow
  rw [h.heap] at hdoGC ⊢
  refine ⟨free, hdoGC, { h with heap := rfl, free := hfree, away := fun block hblock x hx hcovered => ?_ }, hiff⟩
  exact ((hiff x).mp hcovered).2 block (hcollects.live block hblock) hx

/-- A block of the free list is given. -/
theorem Inv.take (h : Inv s) {data : ℕ} {free : List Block}
    (halloc : SimpleGC.allocFromFreeList (round size) s.gc.free_list = some (data, free)) :
    Inv ⟨{ s.gc with free_list := free }, s.heap, ⟨data, size⟩ :: s.live⟩ ∧
      (∃ chunk ∈ s.heap, chunk ≤ data ∧ data + round size ≤ chunk + s.gc.csize) ∧
        ∀ block ∈ s.live, Disjoint (⟨data, size⟩ : Block).rounded.bytes block.rounded.bytes := by
  obtain ⟨hwithin, hfree, hout, hiff⟩ := allocFromFreeList_spec (granule_dvd_round size) h.free halloc
  refine ⟨{ h with free := hfree, live := ?_, away := ?_ }, ?_, fun block hblock => ?_⟩
  · exact List.forall_mem_cons.mpr ⟨hwithin, h.live⟩
  · refine List.forall_mem_cons.mpr ⟨hout, fun block hblock x hx hcovered => ?_⟩
    exact h.away block hblock x hx ((hiff x).mpr (.inr hcovered))
  · obtain ⟨chunk, hchunk, hlow, -, hhigh⟩ := hwithin
    exact ⟨chunk, h.heap ▸ hchunk, hlow, hhigh⟩
  · exact Set.disjoint_left.mpr fun x hx hx' => h.away block hblock x hx' ((hiff x).mpr (.inl hx))

theorem Inv.newChunk (h : Inv s) {fresh : ℕ} (hpos : 0 < s.gc.csize) (hheader : header ≤ fresh)
    (hfresh : ∀ chunk ∈ s.heap, chunk + s.gc.csize ≤ fresh - header ∨ fresh + s.gc.csize ≤ chunk - header) :
    Inv ⟨SimpleGC.newChunk s.gc fresh, fresh :: s.heap, s.live⟩ := by
  have hout : ∀ chunk ∈ s.gc.chunks, fresh + s.gc.csize < chunk ∨ chunk + s.gc.csize < fresh := by
    intro chunk hchunk
    have hor := hfresh chunk (h.heap ▸ hchunk)
    rw [header] at hheader hor
    omega
  have hnew : ∀ block, Within s.gc.csize s.gc.chunks block → ∀ x ∈ block.bytes, x ∉ (⟨fresh, s.gc.csize⟩ : Block).bytes := by
    rintro block ⟨chunk, hchunk, hlow, -, hhigh⟩ x hx hx'
    have hor := hout chunk hchunk
    obtain ⟨hge, hlt⟩ := mem_bytes.mp hx
    obtain ⟨hge', hlt'⟩ := mem_bytes.mp hx'
    dsimp only at hge' hlt'
    omega
  have hsub : s.gc.chunks ⊆ fresh :: s.gc.chunks := List.subset_cons_of_subset _ (List.Subset.refl _)
  have hcovered : ∀ x ∈ (⟨fresh, s.gc.csize⟩ : Block).bytes, ¬Covered s.gc.free_list x :=
    fun x hx ⟨block, hblock, hx'⟩ => hnew block (h.free.within block hblock) x hx' hx
  have hwithin : Within s.gc.csize (fresh :: s.gc.chunks) ⟨fresh, s.gc.csize⟩ := by
    refine ⟨fresh, List.mem_cons_self, Nat.le_refl _, ?_, Nat.le_refl _⟩
    dsimp only
    rw [Nat.sub_self]
    exact Nat.dvd_zero _
  constructor
  · exact h.csize
  · exact h.granules
  · exact congrArg (fresh :: ·) h.heap
  · exact fun _ => Nat.le_of_dvd hpos h.granules
  · exact List.pairwise_cons.mpr ⟨hout, h.apart⟩
  · exact FreeList.cons_iff.mpr ⟨hwithin, ⟨hpos, h.granules⟩, hcovered, h.free.mono hsub⟩
  · intro block hblock
    obtain ⟨chunk, hchunk, hbounds⟩ := h.live block hblock
    exact ⟨chunk, hsub hchunk, hbounds⟩
  · intro block hblock x hx
    refine not_or.mpr ⟨hnew _ (h.live block hblock) x hx, h.away block hblock x hx⟩ ∘ covered_cons.mp

theorem Inv.allocate (h : Inv s) {fresh : ℕ} (hpromised : s.Promised (.allocate size marks fresh))
    (hsafe : s.Safe (.allocate size marks fresh)) :
    ∃ s' data, s.step (.allocate size marks fresh) = some s' ∧ Inv s' ∧ s'.live = ⟨data, size⟩ :: s.live ∧
      (∃ chunk ∈ s'.heap, chunk ≤ data ∧ data + round size ≤ chunk + s.gc.csize) ∧
        ∀ block ∈ s.live, Disjoint (⟨data, size⟩ : Block).rounded.bytes block.rounded.bytes := by
  obtain ⟨hsize, hcollects, hheader, hfresh⟩ := hpromised
  cases halloc : SimpleGC.allocFromFreeList (round size) s.gc.free_list with
  | some found =>
    obtain ⟨hinv, hchunk, hdisjoint⟩ := h.take halloc
    refine ⟨_, found.1, ?_, hinv, rfl, hchunk, hdisjoint⟩
    rw [step, SimpleGC.allocate, if_pos hsize, halloc]
    rfl
  | none =>
    have hcollecting : s.Collecting size := allocFromFreeList_eq_none.mp halloc
    obtain ⟨free, hdoGC, hinv, -⟩ := h.collect (hcollects hcollecting) (hsafe hcollecting)
    cases halloc' : SimpleGC.allocFromFreeList (round size) free with
    | some found =>
      obtain ⟨hinv', hchunk, hdisjoint⟩ := hinv.take halloc'
      refine ⟨_, found.1, ?_, hinv', rfl, hchunk, hdisjoint⟩
      rw [step, SimpleGC.allocate, if_pos hsize, halloc, hdoGC]
      simp only [Option.bind_eq_bind, Option.bind_some, halloc']
      rfl
    | none =>
      have hround := round_le hsize h.csize h.granules
      obtain ⟨found, halloc''⟩ : ∃ found, SimpleGC.allocFromFreeList (round size) (⟨fresh, s.gc.csize⟩ :: free) =
          some found := by
        rw [SimpleGC.allocFromFreeList, if_pos hround]
        exact ⟨_, rfl⟩
      obtain ⟨hinv', hchunk, hdisjoint⟩ := (hinv.newChunk (Nat.zero_lt_of_lt hsize) hheader hfresh).take halloc''
      refine ⟨_, found.1, ?_, hinv', rfl, hchunk, hdisjoint⟩
      rw [step, SimpleGC.allocate, if_pos hsize, halloc, hdoGC]
      simp only [Option.bind_eq_bind, Option.bind_some, halloc', SimpleGC.newChunk, halloc'']
      rfl

theorem Inv.step (h : Inv s) {event : Event} (hpromised : s.Promised event) (hsafe : s.Safe event)
    (hstep : s.step event = some s') : Inv s' := by
  cases event with
  | allocate size marks fresh =>
    obtain ⟨s'', data, hstep', hinv, -⟩ := h.allocate hpromised hsafe
    obtain rfl := Option.some.inj (hstep.symm.trans hstep')
    exact hinv
  | doGC marks =>
    obtain ⟨free, hdoGC, hinv, -⟩ := h.collect hpromised hsafe
    rw [State.step, hdoGC] at hstep
    obtain rfl := Option.some.inj hstep
    exact hinv
  | clear =>
    rw [State.step] at hstep
    split at hstep
    case isTrue =>
      obtain rfl := Option.some.inj hstep
      have hchunks : (SimpleGC.clear s.gc).chunks = [] := hsafe
      exact { csize := h.csize, granules := h.granules, heap := hchunks.symm, positive := h.positive, apart := h.apart,
              free := .nil, live := fun _ hblock => absurd hblock List.not_mem_nil,
              away := fun _ hblock => absurd hblock List.not_mem_nil }
    case isFalse => cases hstep
  | drop block =>
    obtain rfl := Option.some.inj hstep
    exact { h with
            live := fun b hb => h.live b (List.mem_of_mem_erase hb)
            away := fun b hb => h.away b (List.mem_of_mem_erase hb) }

theorem Run.inv (hsize : round size < 2 ^ 35) (h : Run size s) : Inv s := by
  induction h with
  | init => exact .init hsize
  | step _ hpromised hsafe hstep ih => exact ih.step hpromised hsafe hstep

theorem Inv.correct (h : Inv s) : Correct s where
  allocate size marks fresh hpromised hsafe := by
    obtain ⟨s', data, hstep, -, hlive, hchunk, hdisjoint⟩ := h.allocate hpromised hsafe
    exact ⟨s', data, hstep, hlive, hchunk, hdisjoint⟩
  doGC marks hpromised hsafe := by
    obtain ⟨free, hdoGC, hinv, hiff⟩ := h.collect hpromised hsafe
    refine ⟨_, ?_, hinv.free.disjoint, hiff⟩
    rw [State.step, hdoGC]
    rfl
  free_size := h.free.size

end State

/-- The chunks are of less than 2^35 bytes: their granules are counted with an `int`. -/
theorem collector_correct {size : ℕ} {s : State} (hsize : round size < 2 ^ 35) (h : State.Run size s) : s.Correct :=
  (h.inv hsize).correct

theorem allocated_correct : State.Correct ⟨⟨32, [8], [⟨8, 16⟩]⟩, [8], [⟨24, 16⟩]⟩ := by
  have hpromised : (State.init 32).Promised (.allocate 16 [] 8) :=
    ⟨by decide, fun _ => ⟨nofun, nofun⟩, by decide, nofun⟩
  exact collector_correct (show round 32 < 2 ^ 35 by decide) (.step .init hpromised (fun _ => nofun) rfl)

/-- After `clear`, the collection of the next allocation goes through the chunk that is deleted. -/
theorem cleared_swept :
    ∃ s, [.allocate 16 [] 8, .clear].foldlM State.step (State.init 32) = some s ∧
      s.Promised (.allocate 16 [] 64) ∧ s.step (.allocate 16 [] 64) = none :=
  ⟨⟨⟨32, [8], []⟩, [], []⟩, rfl, ⟨by decide, fun _ => ⟨nofun, nofun⟩, by decide, nofun⟩, rfl⟩

end Otawa.Elm.GC
