import Mathlib.Data.List.Nodup

/-!
# Least-recently-used sets

The content of one set of a set-associative cache under the LRU policy, as the
list of the lines it holds, most recently used first. An access moves the line to
the front and drops whatever no longer fits in the ways. A set may hold fewer
lines than it has ways (invalid ways are not listed).

`access_at_iff` says where every line stands after an access; the four rules
after it read that fact forward (where does a line go) and backward (where does a
line come from).
-/

namespace Otawa.Lru

/-- One set of `ways` ways, most recently used line first. -/
structure LruSet (α : Type) (ways : Nat) where
  lines : List α
  nodup : lines.Nodup
  fits : lines.length ≤ ways

variable {α : Type} {ways : Nat}

namespace LruSet

/-- `s.At b p`: the line `b` stands at position `p` of the set. -/
def At (s : LruSet α ways) (b : α) (p : Nat) : Prop := s.lines[p]? = some b

/-- The set with no valid line. -/
def empty : LruSet α ways := ⟨[], List.nodup_nil, Nat.zero_le _⟩

instance [DecidableEq α] (s : LruSet α ways) (b : α) (p : Nat) : Decidable (s.At b p) :=
  inferInstanceAs (Decidable (s.lines[p]? = some b))

section

variable {s : LruSet α ways} {b : α}

theorem At.lt_ways {p : Nat} (h : s.At b p) : p < ways := by
  obtain ⟨lt, -⟩ := List.getElem?_eq_some_iff.mp h
  exact Nat.lt_of_lt_of_le lt s.fits

theorem At.mem {p : Nat} (h : s.At b p) : b ∈ s.lines :=
  List.mem_of_getElem? h

theorem mem_iff_at : b ∈ s.lines ↔ ∃ p, s.At b p :=
  List.mem_iff_getElem?

/-- A line stands at one position only. -/
theorem At.pos_unique {p q : Nat} (hp : s.At b p) (hq : s.At b q) : p = q := by
  obtain ⟨lt, -⟩ := List.getElem?_eq_some_iff.mp hp
  exact (List.getElem?_inj lt s.nodup).mp (hp.trans hq.symm)

end

/-- A position holds one line only. -/
theorem At.line_unique {s : LruSet α ways} {b c : α} {p : Nat} (hb : s.At b p) (hc : s.At c p) :
    b = c :=
  Option.some.inj (hb.symm.trans hc)

variable [DecidableEq α]

/-- An access moves the line to the front, as it was there or loaded. -/
def access (s : LruSet α ways) (b : α) : LruSet α ways where
  lines := (b :: s.lines.erase b).take ways
  nodup := (List.nodup_cons.mpr ⟨s.nodup.not_mem_erase, s.nodup.erase b⟩).take
  fits := List.length_take_le _ _

/-- The set without the line: what stands behind it moves up. -/
def remove (s : LruSet α ways) (b : α) : LruSet α ways where
  lines := s.lines.erase b
  nodup := s.nodup.erase b
  fits := Nat.le_trans List.length_erase_le s.fits

/-- The set after a finite sequence of accesses. -/
def run (s : LruSet α ways) (trace : List α) : LruSet α ways := trace.foldl access s

@[simp] theorem run_nil (s : LruSet α ways) : s.run [] = s := rfl

end LruSet

/-- Where the elements of a duplicate-free list stand after one is erased. -/
theorem getElem?_erase_iff [DecidableEq α] {l : List α} (nodup : l.Nodup) {b c : α} {p : Nat} :
    (l.erase b)[p]? = some c ↔
      (l[p]? = some c ∧ ∀ q ≤ p, l[q]? ≠ some b) ∨ (l[p + 1]? = some c ∧ ∃ q ≤ p, l[q]? = some b) := by
  by_cases mem : b ∈ l
  · obtain ⟨i, lt, hi⟩ := List.getElem_of_mem mem
    have at_i : ∀ q, l[q]? = some b ↔ q = i := by
      intro q
      have hi' : l[i]? = some b := List.getElem?_eq_some_iff.mpr ⟨lt, hi⟩
      exact ⟨fun h => ((List.getElem?_inj lt nodup).mp (hi'.trans h.symm)).symm, fun h => h ▸ hi'⟩
    have erase : l.erase b = l.eraseIdx i := by
      rw [← hi, nodup.erase_getElem i lt]
    rw [erase, List.getElem?_eraseIdx]
    simp only [ne_eq, at_i]
    by_cases before : p < i
    · rw [if_pos before]
      constructor
      · exact fun h => .inl ⟨h, fun q le eq => by omega⟩
      · rintro (⟨h, -⟩ | ⟨-, q, le, rfl⟩)
        · exact h
        · omega
    · rw [if_neg before]
      constructor
      · exact fun h => .inr ⟨h, i, by omega, rfl⟩
      · rintro (⟨-, none⟩ | ⟨h, -⟩)
        · exact absurd rfl (none i (by omega))
        · exact h
  · have absent : ∀ q, l[q]? ≠ some b := fun q h => mem (List.mem_of_getElem? h)
    rw [List.erase_of_not_mem mem]
    constructor
    · exact fun h => .inl ⟨h, fun q _ => absent q⟩
    · rintro (⟨h, -⟩ | ⟨-, q, -, h⟩)
      · exact h
      · exact absurd h (absent q)

namespace LruSet

variable [DecidableEq α] {s : LruSet α ways} {b c : α} {p q r : Nat}

/-- The lines after an access: the accessed one in front, the ones before its old
position one place further, the others where they were. -/
theorem access_at_iff : (s.access b).At c r ↔ r < ways ∧ ((r = 0 ∧ c = b) ∨
    (∃ p, r = p + 1 ∧ s.At c p ∧ ∀ q ≤ p, ¬ s.At b q) ∨ (0 < r ∧ s.At c r ∧ ∃ q < r, s.At b q)) := by
  unfold At access
  simp only [List.getElem?_take]
  by_cases fit : r < ways
  · rw [if_pos fit]
    cases r with
    | zero => simp [fit, eq_comm]
    | succ n =>
      rw [List.getElem?_cons_succ, getElem?_erase_iff s.nodup]
      simp [fit, Nat.lt_succ_iff]
  · simp [fit]

/-- The accessed line comes first. -/
theorem access_front (s : LruSet α ways) (b : α) (pos : 0 < ways) : (s.access b).At b 0 := by
  rw [access_at_iff]
  exact ⟨pos, .inl ⟨rfl, rfl⟩⟩

/-- A line younger than the accessed one ages by one. -/
theorem At.access_younger (hc : s.At c p) (hb : s.At b q) (lt : p < q) :
    (s.access b).At c (p + 1) := by
  rw [access_at_iff]
  refine ⟨by have := hb.lt_ways; omega, .inr (.inl ⟨p, rfl, hc, ?_⟩)⟩
  intro q' le hq'
  have := hb.pos_unique hq'
  omega

/-- A line older than the accessed one keeps its position. -/
theorem At.access_older (hc : s.At c p) (hb : s.At b q) (lt : q < p) : (s.access b).At c p := by
  rw [access_at_iff]
  exact ⟨hc.lt_ways, .inr (.inr ⟨by omega, hc, q, lt, hb⟩)⟩

/-- Whatever is accessed, a line that is not pushed out of the ways ages by one at most. -/
theorem At.access_le (hc : s.At c p) (fit : p + 1 < ways) :
    ∃ p' ≤ p + 1, (s.access b).At c p' := by
  by_cases hb : ∃ q ≤ p, s.At b q
  · obtain ⟨q, le, hb⟩ := hb
    rcases Nat.lt_or_eq_of_le le with lt | rfl
    · exact ⟨p, by omega, hc.access_older hb lt⟩
    · rw [hc.line_unique hb]
      exact ⟨0, by omega, access_front s b (by omega)⟩
  · refine ⟨p + 1, Nat.le_refl _, access_at_iff.mpr ⟨fit, .inr (.inl ⟨p, rfl, hc, ?_⟩)⟩⟩
    exact fun q le hq => hb ⟨q, le, hq⟩

/-- Where a line other than the accessed one comes from. -/
theorem At.of_access (h : (s.access b).At c r) (ne : c ≠ b) :
    (∃ p, r = p + 1 ∧ s.At c p ∧ ∀ q ≤ p, ¬ s.At b q) ∨ (s.At c r ∧ ∃ q < r, s.At b q) := by
  rw [access_at_iff] at h
  rcases h.2 with ⟨-, eq⟩ | aged | ⟨-, kept⟩
  · exact absurd eq ne
  · exact .inl aged
  · exact .inr kept

/-- The line pushed out by an access: the last one of a full set, when the accessed line is not there. -/
theorem not_mem_access_iff (mem : c ∈ s.lines) :
    c ∉ (s.access b).lines ↔ b ∉ s.lines ∧ s.At c (ways - 1) := by
  obtain ⟨p, hp⟩ := mem_iff_at.mp mem
  have fits := hp.lt_ways
  constructor
  · intro out
    have away : b ∉ s.lines := by
      intro known
      obtain ⟨q, hq⟩ := mem_iff_at.mp known
      rcases Nat.lt_trichotomy p q with lt | rfl | gt
      · exact out (hp.access_younger hq lt).mem
      · exact out (hp.line_unique hq ▸ (access_front s b (by omega)).mem)
      · exact out (hp.access_older hq gt).mem
    refine ⟨away, ?_⟩
    by_contra last
    have before : p + 1 < ways := by
      rcases Nat.lt_or_eq_of_le (Nat.succ_le_of_lt fits) with lt | eq
      · exact lt
      · exact absurd (show p = ways - 1 by omega) fun eq => last (eq ▸ hp)
    obtain ⟨p', -, hp'⟩ := hp.access_le before
    exact out hp'.mem
  · rintro ⟨away, last⟩ stays
    obtain ⟨r, hr⟩ := mem_iff_at.mp stays
    rcases hr.of_access fun eq => away (eq ▸ mem) with ⟨q, rfl, hq, -⟩ | ⟨-, q, -, hq⟩
    · have := hq.pos_unique last
      have := hr.lt_ways
      omega
    · exact away hq.mem

/-! ### Removal of a line -/

/-- The lines after a removal: the ones behind the removed line one place nearer. -/
theorem remove_at_iff : (s.remove b).At c p ↔
    (s.At c p ∧ ∀ q ≤ p, ¬ s.At b q) ∨ (s.At c (p + 1) ∧ ∃ q ≤ p, s.At b q) :=
  getElem?_erase_iff s.nodup

theorem At.remove (hc : s.At c p) (ne : c ≠ b) : ∃ p' ≤ p, (s.remove b).At c p' := by
  by_cases before : ∃ q ≤ p, s.At b q
  · obtain ⟨q, le, hb⟩ := before
    have lt : q < p := Nat.lt_of_le_of_ne le fun eq => ne (hc.line_unique (eq ▸ hb))
    obtain ⟨n, rfl⟩ : ∃ n, p = n + 1 := ⟨p - 1, by omega⟩
    exact ⟨n, Nat.le_succ n, remove_at_iff.mpr (.inr ⟨hc, q, by omega, hb⟩)⟩
  · exact ⟨p, Nat.le_refl p, remove_at_iff.mpr (.inl ⟨hc, fun q le hb => before ⟨q, le, hb⟩⟩)⟩

theorem mem_remove : c ∈ (s.remove b).lines ↔ c ≠ b ∧ c ∈ s.lines :=
  s.nodup.mem_erase_iff

end LruSet

end Otawa.Lru
