import Otawa.Ipet.Execution
import Otawa.Ipet.FlowFacts
import Mathlib.Data.Fin.VecNotation

/-!
# Loop bounds and unrolled loops

The copies of an unrolled loop follow one another: the edges into the loop lead to the header of the first copy, a
back edge leads to the header of the next copy, and the back edges of the last copy come back to its header. `turn`
follows the iterations of the original loop along an execution, and `iterations_spec` says what the last header sees
of them. `bounds_hold_iff` says which executions that respect the bounds satisfy the constraints.
-/

namespace Otawa.Ipet

open Ilp FlowFactConstraintBuilder

variable {B E : Type}

/-- The copies of a loop whose header was unrolled from others: `copy` has the blocks of each copy and `header`
their headers, that of the loop that is left being the last one. -/
structure Unrolled (ff : FlowFacts B E) (bb : B) (copy : B → Option ℕ) (header : ℕ → B) : Prop where
  nodup_ins : ∀ b, (ff.ins b).Nodup
  mem_ins : ∀ b e, e ∈ ff.ins b ↔ ff.target e = b
  assigned : ∀ e, ff.target e = bb → ff.var e = some e
  header_last : header (ff.unrolledFrom bb).length = bb
  copy_header : ∀ i ≤ (ff.unrolledFrom bb).length, copy (header i) = some i
  copy_le : ∀ b i, copy b = some i → i ≤ (ff.unrolledFrom bb).length
  /-- A copy is entered at its header, the first one from outside and the other ones from the copy before. -/
  enter : ∀ e i, copy (ff.target e) = some i → copy (ff.source e) ≠ some i →
    ff.target e = header i ∧ copy (ff.source e) = if i = 0 then none else some (i - 1)
  /-- Only the last copy has back edges to its header. -/
  inner : ∀ e, ∀ i < (ff.unrolledFrom bb).length, copy (ff.source e) = some i → ff.target e ≠ header i
  dominated : ∀ e, ff.target e = bb →
    (ff.dominates bb (ff.source e) = true ↔ copy (ff.source e) = some (ff.unrolledFrom bb).length)
  loopHeader_last : ff.loopHeader bb = true
  loopHeader : ∀ i < (ff.unrolledFrom bb).length, ff.loopHeader (header i) = false

/-- The numbers of iterations of the entries into a loop respect its bounds. -/
structure Respects (ff : FlowFacts B E) (bb : B) (ks : List ℕ) : Prop where
  max : 0 ≤ ff.maxIteration bb → ∀ k ∈ ks, (k : ℤ) ≤ ff.maxIteration bb
  min : 0 ≤ ff.minIteration bb → ∀ k ∈ ks, ff.minIteration bb ≤ k
  total : 0 ≤ ff.totalIteration bb → (ks.sum : ℤ) ≤ ff.totalIteration bb

/-- A path from a block. -/
def IsPath (ff : FlowFacts B E) : B → List E → Prop
  | _, [] => True
  | b, e :: path => ff.source e = b ∧ IsPath ff (ff.target e) path

section Turn

variable [DecidableEq B] (ff : FlowFacts B E) (n : ℕ) (copy : B → Option ℕ) (header : ℕ → B)

/-- The iterations of the entries into the original loop, the current one first: an entry begins with none, and a
back edge, to the next copy or to the last header, adds one to it. -/
def turn (ks : List ℕ) (e : E) : List ℕ :=
  match copy (ff.source e) with
  | none => if ff.target e = header 0 then 0 :: ks else ks
  | some i => if ff.target e = header (Nat.min (i + 1) n) then ks.modifyHead (· + 1) else ks

/-- The iterations of all entries of an execution, one path for each time the function is executed. -/
def iterations (run : List (List E)) : List ℕ :=
  run.flatMap fun path => path.foldl (turn ff n copy header) []

end Turn

/-- The iterations after the unrolled ones. -/
def beyond (n : ℕ) (ks : List ℕ) : ℕ :=
  (ks.map fun k => k - n).sum

/-- The entries that come to the last copy. -/
def reached (n : ℕ) (ks : List ℕ) : ℕ :=
  ks.countP fun k => n ≤ k

/-! ### Numbers of iterations -/

section Numbers

variable {n : ℕ} {ks : List ℕ} {m : ℤ}

theorem beyond_cons (n k : ℕ) (ks : List ℕ) : beyond n (k :: ks) = k - n + beyond n ks := rfl

theorem reached_cons (n k : ℕ) (ks : List ℕ) : reached n (k :: ks) = reached n ks + if n ≤ k then 1 else 0 := by
  rw [reached, List.countP_cons]
  simp [reached]

theorem beyond_append (n : ℕ) (ks ks' : List ℕ) : beyond n (ks ++ ks') = beyond n ks + beyond n ks' := by
  rw [beyond, List.map_append, List.sum_append]
  rfl

theorem reached_append (n : ℕ) (ks ks' : List ℕ) : reached n (ks ++ ks') = reached n ks + reached n ks' :=
  List.countP_append

theorem reached_eq_zero_iff : reached n ks = 0 ↔ ∀ k ∈ ks, k < n := by
  rw [reached, List.countP_eq_zero]
  simp

theorem beyond_eq_zero (h : ∀ k ∈ ks, k < n) : beyond n ks = 0 := by
  induction ks with
  | nil => rfl
  | cons k ks ih =>
    have hk := h k List.mem_cons_self
    rw [beyond_cons, ih fun k' hk' => h k' (List.mem_cons_of_mem k hk')]
    omega

/-- Each entry has at most `m` iterations. -/
theorem beyond_le (h : ∀ k ∈ ks, (k : ℤ) ≤ m) : (beyond n ks : ℤ) ≤ max (m - n) 0 * reached n ks := by
  induction ks with
  | nil => exact le_of_eq (mul_zero _).symm
  | cons k ks ih =>
    have hk := h k List.mem_cons_self
    have hrest := ih fun k' hk' => h k' (List.mem_cons_of_mem k hk')
    rw [beyond_cons, reached_cons]
    split
    · push_cast
      rw [mul_add, mul_one]
      omega
    · push_cast
      rw [add_zero]
      omega

/-- Each entry has at least `m` iterations. -/
theorem le_beyond (h : ∀ k ∈ ks, m ≤ k) : max (m - n) 0 * reached n ks ≤ beyond n ks := by
  induction ks with
  | nil => exact le_of_eq (mul_zero _)
  | cons k ks ih =>
    have hk := h k List.mem_cons_self
    have hrest := ih fun k' hk' => h k' (List.mem_cons_of_mem k hk')
    rw [beyond_cons, reached_cons]
    split
    · push_cast
      rw [mul_add, mul_one]
      omega
    · push_cast
      rw [add_zero]
      omega

theorem beyond_le_sum (n : ℕ) (ks : List ℕ) : beyond n ks ≤ ks.sum := by
  induction ks with
  | nil => exact le_refl _
  | cons k ks ih =>
    rw [beyond_cons, List.sum_cons]
    omega

/-- All entries have at most `m` iterations together. -/
theorem beyond_le_mul (hm : 0 ≤ m) (h : (ks.sum : ℤ) ≤ m) : (beyond n ks : ℤ) ≤ m * reached n ks := by
  have hsum := beyond_le_sum n ks
  by_cases hzero : reached n ks = 0
  · rw [beyond_eq_zero (reached_eq_zero_iff.mp hzero), hzero]
    exact le_of_eq (mul_zero m).symm
  · have hpos : (1 : ℤ) ≤ reached n ks := by omega
    calc (beyond n ks : ℤ) ≤ m * 1 := by omega
      _ ≤ m * reached n ks := mul_le_mul_of_nonneg_left hpos hm

end Numbers

/-! ### Along an execution -/

section Run

variable {ff : FlowFacts B E} {bb : B} {copy : B → Option ℕ} {header : ℕ → B} {n : ℕ} {ks : List ℕ} {e : E}

/-- In a copy, the iterations of the current entry tell which one it is. -/
def At (n : ℕ) (copy : B → Option ℕ) (b : B) (ks : List ℕ) : Prop :=
  ∀ i, copy b = some i → ∃ k ks', ks = k :: ks' ∧ min k n = i

variable [DecidableEq B]

/-- An edge into the last header from another copy, or from outside. -/
def isEntry (ff : FlowFacts B E) (bb : B) (copy : B → Option ℕ) (n : ℕ) (e : E) : Bool :=
  ff.target e = bb ∧ copy (ff.source e) ≠ some n

/-- A back edge of the last copy. -/
def isBack (ff : FlowFacts B E) (bb : B) (copy : B → Option ℕ) (n : ℕ) (e : E) : Bool :=
  ff.target e = bb ∧ copy (ff.source e) = some n

/-- What an edge changes. -/
structure Turned (ff : FlowFacts B E) (bb : B) (copy : B → Option ℕ) (header : ℕ → B) (n : ℕ) (ks : List ℕ) (e : E) :
    Prop where
  place : At n copy (ff.target e) (turn ff n copy header ks e)
  reached : reached n (turn ff n copy header ks e) = reached n ks + if isEntry ff bb copy n e then 1 else 0
  beyond : beyond n (turn ff n copy header ks e) = beyond n ks + if isBack ff bb copy n e then 1 else 0

section

variable (h : Unrolled ff bb copy header) (hn : n = (ff.unrolledFrom bb).length)
include h hn

omit [DecidableEq B] in
theorem Unrolled.copy_last : header n = bb ∧ copy bb = some n := by
  have hlast : header n = bb := by
    rw [hn]
    exact h.header_last
  have hcopy := h.copy_header n (le_of_eq hn)
  rw [hlast] at hcopy
  exact ⟨hlast, hcopy⟩

/-- An edge from outside of the copies. -/
theorem turn_outside (hsource : copy (ff.source e) = none) : Turned ff bb copy header n ks e := by
  obtain ⟨hlast, hcopy⟩ := h.copy_last hn
  have hback : isBack ff bb copy n e = false := by
    simp [isBack, hsource]
  have hfirst : copy (header 0) = some 0 := h.copy_header 0 (Nat.zero_le _)
  by_cases htarget : ff.target e = header 0
  · -- the loop is entered
    have hturn : turn ff n copy header ks e = 0 :: ks := by
      simp [turn, hsource, htarget]
    have hentry : isEntry ff bb copy n e = true ↔ n = 0 := by
      simp only [isEntry, hsource, htarget, decide_eq_true_eq]
      constructor
      · rintro ⟨rfl, -⟩
        exact Option.some.inj (hcopy.symm.trans hfirst)
      · rintro rfl
        exact ⟨hlast, by simp⟩
    constructor
    · rw [hturn, htarget]
      intro i hi
      exact ⟨0, ks, rfl, Nat.zero_min n ▸ Option.some.inj (hfirst.symm.trans hi)⟩
    · rw [hturn, reached_cons]
      simp only [hentry, Nat.le_zero]
    · rw [hturn, beyond_cons, hback]
      simp
  · have hturn : turn ff n copy header ks e = ks := by
      simp [turn, hsource, htarget]
    have hout : copy (ff.target e) = none := by
      by_contra hne
      obtain ⟨i, hi⟩ := Option.ne_none_iff_exists'.mp hne
      obtain ⟨hheader, hfrom⟩ := h.enter e i hi (by rw [hsource]; simp)
      rw [hsource] at hfrom
      by_cases hzero : i = 0
      · rw [hzero] at hheader
        exact htarget hheader
      · rw [if_neg hzero] at hfrom
        exact absurd hfrom (by simp)
    have hentry : isEntry ff bb copy n e = false := by
      simp only [isEntry, decide_eq_false_iff_not]
      rintro ⟨rfl, -⟩
      rw [hcopy] at hout
      exact absurd hout (by simp)
    constructor
    · intro i hi
      rw [hout] at hi
      exact absurd hi (by simp)
    · rw [hturn, hentry]
      rfl
    · rw [hturn, hback]
      rfl

/-- An edge from a copy. -/
theorem turn_inside {i : ℕ}
    (hat : At n copy (ff.source e) ks) (hsource : copy (ff.source e) = some i) :
    Turned ff bb copy header n ks e := by
  obtain ⟨hlast, hcopy⟩ := h.copy_last hn
  obtain ⟨k, ks', rfl, hk⟩ := hat i hsource
  have hle : i ≤ n := hn ▸ h.copy_le _ _ hsource
  by_cases htarget : ff.target e = header (min (i + 1) n)
  · have hturn : turn ff n copy header (k :: ks') e = (k + 1) :: ks' := by
      simp [turn, hsource, htarget]
    have hnext : copy (ff.target e) = some (min (i + 1) n) := by
      rw [htarget]
      exact h.copy_header _ (hn ▸ Nat.min_le_right _ _)
    have hcome : ff.target e = bb ↔ min (i + 1) n = n := by
      constructor
      · intro heq
        rw [heq, hcopy] at hnext
        exact (Option.some.inj hnext).symm
      · intro heq
        rw [htarget, heq, hlast]
    have hentry : isEntry ff bb copy n e = true ↔ i + 1 = n := by
      simp only [isEntry, decide_eq_true_eq, hcome, hsource, ne_eq, Option.some.injEq]
      omega
    have hback : isBack ff bb copy n e = true ↔ i = n := by
      simp only [isBack, decide_eq_true_eq, hcome, hsource, Option.some.injEq]
      omega
    constructor
    · rw [hturn]
      intro i' hi'
      refine ⟨k + 1, ks', rfl, ?_⟩
      have := Option.some.inj (hnext.symm.trans hi')
      omega
    · rw [hturn, reached_cons, reached_cons]
      simp only [hentry]
      split_ifs <;> omega
    · rw [hturn, beyond_cons, beyond_cons]
      simp only [hback]
      split_ifs <;> omega
  · have hturn : turn ff n copy header (k :: ks') e = k :: ks' := by
      simp [turn, hsource, htarget]
    -- the edge stays in the copy or leaves the loop
    have hstay : ∀ i', copy (ff.target e) = some i' → i' = i := by
      intro i' hi'
      by_contra hne
      obtain ⟨hheader, hfrom⟩ := h.enter e i' hi' (by rw [hsource, ne_eq, Option.some_inj]; exact Ne.symm hne)
      have hle' : i' ≤ n := hn ▸ h.copy_le _ _ hi'
      rw [hsource] at hfrom
      by_cases hzero : i' = 0
      · rw [if_pos hzero] at hfrom
        exact absurd hfrom (by simp)
      · rw [if_neg hzero, Option.some_inj] at hfrom
        have hnext : min (i + 1) n = i' := by omega
        rw [hnext] at htarget
        exact htarget hheader
    have hother : ff.target e ≠ bb := by
      intro heq
      have hlast' := hstay n (by rw [heq]; exact hcopy)
      have hnext : min (i + 1) n = n := by omega
      rw [hnext, hlast] at htarget
      exact htarget heq
    have hentry : isEntry ff bb copy n e = false := by
      simp [isEntry, hother]
    have hback : isBack ff bb copy n e = false := by
      simp [isBack, hother]
    constructor
    · rw [hturn]
      intro i' hi'
      exact ⟨k, ks', rfl, hk.trans (hstay i' hi').symm⟩
    · rw [hturn, hentry]
      rfl
    · rw [hturn, hback]
      rfl

theorem turned (hat : At n copy (ff.source e) ks) : Turned ff bb copy header n ks e := by
  cases hsource : copy (ff.source e) with
  | none => exact turn_outside h hn hsource
  | some i => exact turn_inside h hn hat hsource

/-- The edges into the last header along a path. -/
theorem path_spec {b : B} {path : List E}
    (hpath : IsPath ff b path) (hat : At n copy b ks) :
    reached n (path.foldl (turn ff n copy header) ks) = reached n ks + path.countP (isEntry ff bb copy n) ∧
      beyond n (path.foldl (turn ff n copy header) ks) = beyond n ks + path.countP (isBack ff bb copy n) := by
  induction path generalizing b ks with
  | nil => exact ⟨rfl, rfl⟩
  | cons e path ih =>
    obtain ⟨rfl, hpath⟩ := hpath
    have hturned := @turned B E ff bb copy header n ks e _ h hn hat
    obtain ⟨hreached, hbeyond⟩ := ih hpath hturned.place
    rw [List.foldl_cons, hreached, hbeyond, hturned.reached, hturned.beyond, List.countP_cons, List.countP_cons]
    constructor <;> ring

/-- The edges into the last header in a whole execution. -/
theorem iterations_spec {run : List (List E)}
    (hrun : ∀ path ∈ run, ∃ b, copy b = none ∧ IsPath ff b path) :
    reached n (iterations ff n copy header run) = run.flatten.countP (isEntry ff bb copy n) ∧
      beyond n (iterations ff n copy header run) = run.flatten.countP (isBack ff bb copy n) := by
  induction run with
  | nil => exact ⟨rfl, rfl⟩
  | cons path run ih =>
    obtain ⟨b, hb, hpath⟩ := hrun path List.mem_cons_self
    obtain ⟨hreached, hbeyond⟩ := ih fun path' hpath' => hrun path' (List.mem_cons_of_mem path hpath')
    have hat : At n copy b [] := by
      intro i hi
      rw [hb] at hi
      exact absurd hi (by simp)
    obtain ⟨hreached', hbeyond'⟩ := path_spec h hn hpath hat
    have hiterations : iterations ff n copy header (path :: run) =
        path.foldl (turn ff n copy header) [] ++ iterations ff n copy header run := rfl
    rw [hiterations, reached_append, beyond_append, hreached, hbeyond, hreached', hbeyond', List.flatten_cons,
      List.countP_append, List.countP_append]
    exact ⟨by rw [reached, List.countP_nil, zero_add], by rw [beyond, List.map_nil, List.sum_nil, zero_add]⟩

end

end Run

/-! ### The bounds -/

section Bounds

variable {ff : FlowFacts B E} {bb : B} {copy : B → Option ℕ} {header : ℕ → B} [DecidableEq B] [DecidableEq E]
  {run : List (List E)}

/-- The execution counts of the edges. -/
def edgeCounts (run : List (List E)) (e : E) : ℤ :=
  run.flatten.count e

/-- The counts of some edges. -/
theorem sum_count {es : List E} (hnodup : es.Nodup) (path : List E) :
    (es.map fun e => (path.count e : ℤ)).sum = path.countP fun e => e ∈ es := by
  induction path with
  | nil => simp
  | cons e path ih =>
    have hcount : (es.map fun e' => ((e :: path).count e' : ℤ)) =
        es.map fun e' => (path.count e' : ℤ) + if e = e' then 1 else 0 := by
      apply List.map_congr_left
      intro e' _
      rw [List.count_cons]
      simp
    rw [hcount, List.sum_map_add, ih, sum_indicator hnodup, List.countP_cons]
    simp

/-- The entries and back edges of the last header are those of the iterations. -/
theorem edgeCounts_spec (h : Unrolled ff bb copy header)
    (hrun : ∀ path ∈ run, ∃ b, copy b = none ∧ IsPath ff b path) :
    entries ff (edgeCounts run) bb =
        reached (ff.unrolledFrom bb).length (iterations ff (ff.unrolledFrom bb).length copy header run) ∧
      backs ff (edgeCounts run) bb =
        beyond (ff.unrolledFrom bb).length (iterations ff (ff.unrolledFrom bb).length copy header run) := by
  obtain ⟨hreached, hbeyond⟩ := iterations_spec h rfl hrun
  have hvalue : ∀ p : E → Bool, (((ff.ins bb).filter p).map (valueOf ff (edgeCounts run))).sum =
      run.flatten.countP fun e => e ∈ (ff.ins bb).filter p := by
    intro p
    rw [← sum_count ((h.nodup_ins bb).filter p)]
    congr 1
    apply List.map_congr_left
    intro e he
    rw [valueOf, h.assigned e ((h.mem_ins bb e).mp (List.mem_of_mem_filter he))]
    rfl
  have hdominated : ∀ e, ff.target e = bb → (ff.dominates bb (ff.source e) = true ↔
      copy (ff.source e) = some (ff.unrolledFrom bb).length) := h.dominated
  rw [entries, backs, hvalue, hvalue, hreached, hbeyond]
  constructor
  · congr 1
    apply List.countP_congr
    intro e _
    simp only [isEntry, decide_eq_true_eq, List.mem_filter, h.mem_ins, Bool.not_eq_true']
    constructor
    · rintro ⟨htarget, hno⟩
      exact ⟨htarget, fun hcopy => by simp [(hdominated e htarget).mpr hcopy] at hno⟩
    · rintro ⟨htarget, hno⟩
      exact ⟨htarget, Bool.eq_false_iff.mpr fun hdom => hno ((hdominated e htarget).mp hdom)⟩
  · congr 1
    apply List.countP_congr
    intro e _
    simp only [isBack, decide_eq_true_eq, List.mem_filter, h.mem_ins]
    exact and_congr_right fun htarget => hdominated e htarget

/-- The executions that satisfy the constraints: without a bound for the iterations and for their total nothing is
asked, and else a lower bound below the number of the unrolled iterations allows no entry to come to the last copy,
and the total has to leave room for the edges into the other copies that count. -/
structure Bounded (ff : FlowFacts B E) (bb : B) (ks : List ℕ) (val : E → ℤ) : Prop where
  min : 0 ≤ ff.minIteration bb → ff.minIteration bb < (ff.unrolledFrom bb).length →
    ∀ k ∈ ks, k < (ff.unrolledFrom bb).length
  total : 0 ≤ ff.totalIteration bb →
    (beyond (ff.unrolledFrom bb).length ks : ℤ) + counted ff val bb ≤ ff.totalIteration bb

section

variable {ks : List ℕ} {val : E → ℤ} (hks : Respects ff bb ks)
  (hentries : entries ff val bb = reached (ff.unrolledFrom bb).length ks)
  (hbacks : backs ff val bb = beyond (ff.unrolledFrom bb).length ks)
include hks hentries hbacks

omit [DecidableEq B] [DecidableEq E]

theorem max_holds : ∀ k ∈ maxConstraints ff bb, k.Holds val := by
  rw [maxConstraints, boundConstraints_holds_iff, hentries, hbacks]
  intro hgiven
  have hmax := hks.max hgiven
  constructor
  · intro hless
    have hall : ∀ k ∈ ks, k < (ff.unrolledFrom bb).length := by
      intro k hk
      have := hmax k hk
      omega
    rw [reached_eq_zero_iff.mpr hall, beyond_eq_zero hall]
    rfl
  · exact sub_nonpos.mpr (beyond_le hmax)

theorem min_holds_iff :
    (∀ k ∈ minConstraints ff bb, k.Holds val) ↔ (0 ≤ ff.minIteration bb →
      ff.minIteration bb < (ff.unrolledFrom bb).length → ∀ k ∈ ks, k < (ff.unrolledFrom bb).length) := by
  rw [minConstraints, boundConstraints_holds_iff, hentries, hbacks]
  constructor
  · intro h hgiven hless
    have hsum := (h hgiven).1 hless
    exact reached_eq_zero_iff.mp (by omega)
  · intro h hgiven
    constructor
    · intro hless
      have hall := h hgiven hless
      rw [reached_eq_zero_iff.mpr hall, beyond_eq_zero hall]
      rfl
    · exact sub_nonneg.mpr (le_beyond (hks.min hgiven))

theorem total_holds_iff :
    (∀ k ∈ totalConstraints ff bb, k.Holds val) ↔ (0 ≤ ff.totalIteration bb →
      (beyond (ff.unrolledFrom bb).length ks : ℤ) + counted ff val bb ≤ ff.totalIteration bb) := by
  rw [totalConstraints_holds_iff, hentries, hbacks]
  constructor
  · exact fun h hgiven => (h hgiven).1
  · exact fun h hgiven => ⟨h hgiven, beyond_le_mul hgiven (hks.total hgiven)⟩

end

end Bounds

/-! ### A loop unrolled once -/

/-- Block 1 is the first copy of the header 2; edge 2 is the back edge and the edges 3 and 4 leave the loop. -/
def unrolledLoop : FlowFacts (Fin 4) (Fin 5) where
  ins b := (List.finRange 5).filter fun e => ![1, 2, 2, 3, 3] e = b
  source := ![0, 1, 2, 2, 1]
  target := ![1, 2, 2, 3, 3]
  dominates b b' := b = b' ∨ b = 0 ∨ (b = 1 ∧ b' ≠ 0)
  loopHeader b := b = 2
  maxIteration _ := 3
  totalIteration _ := 5
  minIteration _ := 0
  unrolledFrom b := if b = 2 then [1] else []
  var e := some e

def loopCopy (b : Fin 4) : Option ℕ :=
  if b = 1 then some 0 else if b = 2 then some 1 else none

def loopHeaders (i : ℕ) : Fin 4 :=
  if i = 0 then 1 else 2

theorem unrolled_unrolledLoop : Unrolled unrolledLoop 2 loopCopy loopHeaders where
  nodup_ins := by decide
  mem_ins := by decide
  assigned _ _ := rfl
  header_last := rfl
  copy_header := by decide
  copy_le := by
    have hall : ∀ b, ∀ i ∈ loopCopy b, i ≤ 1 := by decide
    exact fun b i hi => hall b i hi
  enter := by
    have hall : ∀ e, ∀ i ∈ loopCopy (unrolledLoop.target e), loopCopy (unrolledLoop.source e) ≠ some i →
        unrolledLoop.target e = loopHeaders i ∧
          loopCopy (unrolledLoop.source e) = if i = 0 then none else some (i - 1) := by decide
    exact fun e i hi => hall e i hi
  inner := by decide
  dominated := by decide
  loopHeader_last := rfl
  loopHeader := by decide

end Otawa.Ipet
