import Otawa.Elm.WahRefine

/-!
# Equality of compressed bit vectors

`equals` compares the words. Normal words are determined by their groups, and the groups of a vector that
`Represents` a function by the bits in use, so that vectors with the same bits have the same words. In a run
this holds as long as every operation `Builds` its result from a vector that has not lost its `rem`: `makeAnd`
and its like write words that are right and leave `rem` 0, and the next operation on them does not mask.
-/

namespace Otawa.Elm.WAHVector

variable {n k : ℕ} {f g : ℕ → Bool} {l l' : List Word} {u v w : WAHVector}

/-- `equals`, with the loop over the words. -/
def equals (v vec : WAHVector) : Bool :=
  if v.words.length ≠ vec.words.length then false
  else (List.zipWith (fun w w' => w == w') v.words vec.words).all id

theorem equals_iff : v.equals w = true ↔ v.words = w.words := by
  unfold equals
  constructor
  · intro hequals
    split at hequals
    · cases hequals
    · rename_i hlength
      refine List.ext_getElem (not_not.mp hlength) fun i hi hi' => ?_
      have hmem : (v.words[i] == w.words[i]) ∈ List.zipWith (fun w w' => w == w') v.words w.words := by
        rw [List.mem_iff_getElem]
        exact ⟨i, by simpa using ⟨hi, hi'⟩, by simp⟩
      exact beq_iff_eq.mp (List.all_eq_true.mp hequals _ hmem)
  · intro heq
    rw [heq, if_neg (not_not.mpr rfl)]
    simp

/-! ### Words from groups -/

/-- Two runs of one element that do not go on are of the same length. -/
theorem replicate_append_inj {α : Type} {x : α} {m k : ℕ} {a b : List α} (ha : a.head? ≠ some x)
    (hb : b.head? ≠ some x) (h : List.replicate m x ++ a = List.replicate k x ++ b) : m = k ∧ a = b := by
  induction m generalizing k with
  | zero =>
    cases k with
    | zero => exact ⟨rfl, h⟩
    | succ k =>
      have hhead : a = x :: (List.replicate k x ++ b) := h
      rw [hhead] at ha
      exact absurd rfl ha
  | succ m ih =>
    cases k with
    | zero =>
      have hhead : x :: (List.replicate m x ++ a) = b := h
      rw [← hhead] at hb
      exact absurd rfl hb
    | succ k =>
      obtain ⟨hcount, hrest⟩ := ih (List.cons.inj h).2
      exact ⟨congrArg (· + 1) hcount, hrest⟩

theorem head_groups (hl : Normal l) : (groups l).head? = l.head?.map value := by
  cases l with
  | nil => rfl
  | cons w rest =>
    obtain ⟨c, hc⟩ := Nat.exists_eq_succ_of_ne_zero (Nat.one_le_iff_ne_zero.mp hl.head.count_pos)
    rw [groups_cons, hc]
    rfl

theorem uniform_inj {a b : Bool} (h : uniform a = uniform b) : a = b := by
  have hbit := congrArg (fun y : Word => y.getLsbD 0) h
  rwa [getLsbD_uniform (by decide), getLsbD_uniform (by decide)] at hbit

/-- The groups after a fill do not go on with its value. -/
theorem head_ne_of_fill {w : Word} (hl : Normal (w :: l)) (hfill : isFill w = true) :
    (groups l).head? ≠ some (uniform (isOnes w)) := by
  rw [head_groups hl.tail]
  cases l with
  | nil => exact fun h => by cases h
  | cons x rest =>
    intro heq
    have hx : value x = uniform (isOnes w) := Option.some.inj heq
    cases hxfill : isFill x with
    | true =>
      have happart : Apart w x := (List.isChain_cons_cons.mp hl.apart).1
      rw [value_of_fill hxfill] at hx
      exact happart hfill hxfill (uniform_inj hx).symm
    | false =>
      rw [value_of_lite hxfill] at hx
      exact hl.tail.head.lite hxfill _ hx

/-- Normal words are determined by their groups. -/
theorem normal_ext (hl : Normal l) (hl' : Normal l') (hgroups : groups l = groups l') : l = l' := by
  induction l generalizing l' with
  | nil =>
    have hhead := head_groups hl'
    rw [← hgroups] at hhead
    cases l' with
    | nil => rfl
    | cons w rest => cases hhead
  | cons w rest ih =>
    have hhead := head_groups hl'
    rw [← hgroups, head_groups hl] at hhead
    cases l' with
    | nil => cases hhead
    | cons w' rest' =>
      have hvalue : value w = value w' := Option.some.inj hhead
      have hw := hl.head
      have hw' := hl'.head
      rw [groups_cons, groups_cons] at hgroups
      cases hfill : isFill w with
      | true =>
        cases hfill' : isFill w' with
        | true =>
          rw [value_of_fill hfill, value_of_fill hfill'] at hvalue
          have hones : isOnes w = isOnes w' := uniform_inj hvalue
          rw [value_of_fill hfill, value_of_fill hfill', ← hones, count_of_fill hfill, count_of_fill hfill'] at hgroups
          obtain ⟨hcount, hrest⟩ := replicate_append_inj (head_ne_of_fill hl hfill)
            (hones ▸ head_ne_of_fill hl' hfill') hgroups
          rw [eq_fill hfill, eq_fill hfill', hcount, hones, ih hl.tail hl'.tail hrest]
        | false =>
          rw [value_of_fill hfill, value_of_lite hfill'] at hvalue
          exact absurd hvalue.symm (hw'.lite hfill' _)
      | false =>
        cases hfill' : isFill w' with
        | true =>
          rw [value_of_lite hfill, value_of_fill hfill'] at hvalue
          exact absurd hvalue (hw.lite hfill _)
        | false =>
          rw [value_of_lite hfill, value_of_lite hfill'] at hvalue
          subst hvalue
          rw [ih hl.tail hl'.tail (List.append_cancel_left hgroups)]

/-! ### Groups from bits -/

theorem groups_top {x : Word} (hx : x ∈ groups l) : x.getLsbD 31 = false := by
  obtain ⟨w, -, hw⟩ := List.mem_flatMap.mp hx
  rw [(List.mem_replicate.mp hw).2]
  exact value_top w

theorem groups_ext {m : ℕ} (hl : (groups l).length = m) (hl' : (groups l').length = m)
    (hbits : ∀ k < m, ∀ j < 31, bitAt (groups l) (31 * k + j) = bitAt (groups l') (31 * k + j)) :
    groups l = groups l' := by
  refine List.ext_getElem (hl.trans hl'.symm) fun k hk hk' => ?_
  refine group_ext (groups_top (List.getElem_mem hk)) (groups_top (List.getElem_mem hk')) fun j hj => ?_
  have hbit := hbits k (hl ▸ hk) j hj
  rwa [bitAt_group (List.getElem?_eq_getElem hk) hj, bitAt_group (List.getElem?_eq_getElem hk') hj] at hbit

/-- The last group, used in part, is the same too. -/
theorem last_bits (hv : Represents n v f) (hw : Represents n w g) (hsame : ∀ i < n, f i = g i) (hpart : n % 31 ≠ 0)
    {j : ℕ} (hj : j < 31) :
    bitAt (groups v.words) (31 * (n / 31) + j) = bitAt (groups w.words) (31 * (n / 31) + j) := by
  have hused : ∀ j < n % 31,
      bitAt (groups v.words) (31 * (n / 31) + j) = bitAt (groups w.words) (31 * (n / 31) + j) := by
    intro j hj
    rw [hv.bits _ (by omega), hw.bits _ (by omega), hsame _ (by omega)]
  obtain ⟨a, ha⟩ | ⟨hpad, hmixed⟩ := hv.tail hpart
  · obtain ⟨b, hb⟩ | ⟨-, hmixed'⟩ := hw.tail hpart
    · have hab := hused 0 (by omega)
      rw [ha 0 (by decide), hb 0 (by decide)] at hab
      rw [ha j hj, hb j hj, hab]
    · obtain ⟨i, hi, hbit⟩ := hmixed'.both (!a)
      rw [← hused i hi, ha i (by omega)] at hbit
      cases a <;> cases hbit
  · obtain ⟨b, hb⟩ | ⟨hpad', -⟩ := hw.tail hpart
    · obtain ⟨i, hi, hbit⟩ := hmixed.both (!b)
      rw [hused i hi, hb i (by omega)] at hbit
      cases b <;> cases hbit
    · by_cases hin : j < n % 31
      · exact hused j hin
      · rw [hpad j hj (Nat.not_lt.mp hin), hpad' j hj (Nat.not_lt.mp hin)]

/-- The words are determined by the bits. -/
theorem Represents.words_eq (hv : Represents n v f) (hw : Represents n w g) (hsame : ∀ i < n, f i = g i) :
    v.words = w.words := by
  refine normal_ext hv.normal hw.normal (groups_ext hv.length hw.length fun k hk j hj => ?_)
  by_cases hin : 31 * k + j < n
  · rw [hv.bits _ hin, hw.bits _ hin, hsame _ hin]
  · have hlast : k = n / 31 := by omega
    subst hlast
    exact last_bits hv hw hsame (by omega) hj

/-! ### Runs -/

/-- The bits that `bit` reads. -/
def contents (v : WAHVector) (i : ℕ) : Bool :=
  (v.bit i).getD false

/-- The vector has the `rem` of its size. -/
def Intact (n : ℕ) (v : WAHVector) : Prop :=
  v.rem = n % 31

/-- The words are those of a vector of the size, whatever `rem` is. -/
def Canonical (n : ℕ) (v : WAHVector) : Prop :=
  Represents n { v with rem := n % 31 } v.contents

theorem Represents.canonical (hv : Represents n { v with rem := n % 31 } f) (hn : n < 4638219) : Canonical n v := by
  refine hv.congr fun i hi => ?_
  have hbit := bit_eq hv hi hn
  rw [contents]
  change f i = (({ v with rem := n % 31 } : WAHVector).bit i).getD false
  rw [hbit]
  rfl

theorem Canonical.represents (hv : Canonical n v) (hrem : Intact n v) : Represents n v v.contents := by
  have hsame : { v with rem := n % 31 } = v := by rw [← hrem]
  rwa [Canonical, hsame] at hv

theorem Canonical.bit (hv : Canonical n v) {i : ℕ} (hi : i < n) (hn : n < 4638219) : v.bit i = some (v.contents i) := by
  have hbit := bit_eq (v := { v with rem := n % 31 }) hv hi hn
  exact hbit

theorem canonical_of_represents (hv : Represents n v f) (hn : n < 4638219) : Canonical n v := by
  refine Represents.canonical (f := f) ?_ hn
  rwa [← hv.rem]

/-- Equality of two vectors with canonical words. -/
theorem Canonical.equals_iff (hv : Canonical n v) (hw : Canonical n w) :
    v.equals w = true ↔ ∀ i < n, v.bit i = w.bit i := by
  rw [WAHVector.equals_iff]
  constructor
  · intro hwords i _
    rw [WAHVector.bit, hwords]
    rfl
  · intro hbits
    have hsame : ∀ i < n, v.contents i = w.contents i := fun i hi => by rw [contents, contents, hbits i hi]
    exact Represents.words_eq (v := { v with rem := n % 31 }) (w := { w with rem := n % 31 }) hv hw hsame

variable {V : Type} [DecidableEq V] {env env' : V → WAHVector}

/-- The result of the operation has canonical words. -/
def Builds (n : ℕ) (env : V → WAHVector) : Op n V → Prop
  | .write x i value => Intact n (env x) ∧ ¬ UpdateTrap n (env x).contents i value
  | .writeAll x _ => Intact n (env x) ∧ n < 31
  | .apply op x y => Intact n (env x) ∧ (op = .or → ¬ OrTrap n (env x).contents (env y).contents)
  | .applyNot x => Intact n (env x)
  | .make op _ x y => Intact n (env x) ∧ (op = .or → ¬ OrTrap n (env x).contents (env y).contents)
  | .makeNot _ x => Intact n (env x)
  | _ => True

/-- The vectors after a run. -/
def reach (env : V → WAHVector) : List (Op n V) → Option (V → WAHVector)
  | [] => some env
  | op :: ops => (step env op).bind fun p => reach p.1 ops

/-- Every operation builds its result in the state before it. -/
def BuildsRun (env : V → WAHVector) : List (Op n V) → Prop
  | [] => True
  | op :: ops => Builds n env op ∧ ∀ p, step env op = some p → BuildsRun p.1 ops

theorem canonical_update (henv : ∀ x, Canonical n (env x)) (hv : Canonical n v) (z : V) :
    ∀ x, Canonical n (Function.update env z v x) := by
  intro x
  by_cases hxz : x = z
  · subst hxz
    rwa [Function.update_self]
  · rw [Function.update_of_ne hxz]
    exact henv x

/-- The words of a combination do not depend on the `rem` of the result. -/
theorem combine_rem (op : Word → Word → Word) (r v w : WAHVector) :
    combine op r v w = (combine op v v w).map fun c => { r with words := c.words } := by
  simp only [combine, Option.map_map]
  rfl

theorem combine_canonical {op : Word → Word → Word} {bop : Bool → Bool → Bool} (hop : GroupOp op bop) (hn : 0 < n)
    (hbound : n < 4638219) (hv : Represents n v f) (hw : Canonical n w)
    (hsafe : ∀ u, ¬ Trap n (bitAt (List.zipWith op (groups v.words) (groups w.words))) u) (r : WAHVector) :
    ∃ c, combine op r v w = some c ∧ Canonical n c := by
  have hw' : Represents n { w with rem := n % 31 } w.contents := hw
  obtain ⟨c, hc, hrep⟩ := combine_represents hop hn (by omega) hv hw' hv.rem hsafe
  have hcombine : combine op v v w = some c := hc
  refine ⟨{ r with words := c.words }, by rw [combine_rem, hcombine]; rfl, ?_⟩
  have hcanonical := canonical_of_represents hrep hbound
  exact hcanonical

/-- The operations on two vectors, into any third one. -/
theorem pairwise_canonical (hn : 0 < n) (hbound : n < 4638219) (hv : Canonical n v) (hrem : Intact n v)
    (hw : Canonical n w) (op : Pairwise) (hsafe : op = .or → ¬ OrTrap n v.contents w.contents) (r : WAHVector) :
    ∃ c, (match op with
      | .and => doAnd r v w
      | .or => doOr r v w
      | .reset => doReset r v w) = some c ∧ Canonical n c := by
  have hrep := hv.represents hrem
  have hrep' : Represents n { w with rem := n % 31 } w.contents := hw
  cases op with
  | and =>
    have hclear := clearing_safe groupOp_and Bool.false_and hrep hrep'
    exact combine_canonical groupOp_and hn hbound hrep hw hclear r
  | or =>
    have hor := or_safe hrep hrep' (hsafe rfl)
    exact combine_canonical groupOp_or hn hbound hrep hw hor r
  | reset =>
    have hclear := clearing_safe groupOp_reset (fun c => Bool.false_and (!c)) hrep hrep'
    exact combine_canonical groupOp_reset hn hbound hrep hw hclear r

theorem not_canonical (hn : 0 < n) (hbound : n < 4638219) (hv : Canonical n v) (hrem : Intact n v) (r : WAHVector) :
    Canonical n (doNot r v) := by
  have hcanonical := canonical_of_represents (doNot_represents hn (by omega) (hv.represents hrem) hrem) hbound
  exact hcanonical

theorem isEmpty_some (hne : v.words ≠ []) : ∃ b, v.isEmpty = some b := by
  obtain ⟨w, rest, heq⟩ := List.exists_cons_of_ne_nil hne
  simp only [isEmpty, heq]
  split
  · exact ⟨_, rfl⟩
  · split
    · exact ⟨_, rfl⟩
    · exact ⟨_, rfl⟩

theorem isFull_some (hne : v.words ≠ []) : ∃ b, v.isFull = some b := by
  obtain ⟨w, rest, heq⟩ := List.exists_cons_of_ne_nil hne
  simp only [isFull, heq]
  split
  · exact ⟨_, rfl⟩
  · split
    · exact ⟨_, rfl⟩
    · exact ⟨_, rfl⟩

/-- An operation that builds has a result, and all words are canonical again. -/
theorem step_canonical (hn : 0 < n) (hbound : n < 4638219) (henv : ∀ x, Canonical n (env x)) (op : Op n V)
    (hbuilds : Builds n env op) : ∃ p, step env op = some p ∧ ∀ x, Canonical n (p.1 x) := by
  cases op with
  | write x i value =>
    obtain ⟨hrem, hsafe⟩ := hbuilds
    obtain ⟨v, hv, hrep⟩ := update_represents ((henv x).represents hrem) i.isLt hbound hsafe
    refine ⟨(Function.update env x v, .none), ?_, canonical_update henv (canonical_of_represents hrep hbound) x⟩
    cases value with
    | true => exact congrArg (Option.map _) hv
    | false => exact congrArg (Option.map _) hv
  | writeAll x value =>
    obtain ⟨hrem, hsmall⟩ := hbuilds
    refine ⟨_, rfl, canonical_update henv ?_ x⟩
    have hrep := (henv x).represents hrem
    cases value with
    | true => exact canonical_of_represents (fillFirst_represents hrep hn hsmall true) hbound
    | false => exact canonical_of_represents (fillFirst_represents hrep hn hsmall false) hbound
  | apply op x y =>
    obtain ⟨hrem, hsafe⟩ := hbuilds
    obtain ⟨c, hc, hcanonical⟩ := pairwise_canonical hn hbound (henv x) hrem (henv y) op hsafe (env x)
    refine ⟨(Function.update env x c, .none), ?_, canonical_update henv hcanonical x⟩
    cases op <;> exact congrArg (Option.map _) hc
  | applyNot x => exact ⟨_, rfl, canonical_update henv (not_canonical hn hbound (henv x) hbuilds _) x⟩
  | make op z x y =>
    obtain ⟨hrem, hsafe⟩ := hbuilds
    obtain ⟨c, hc, hcanonical⟩ := pairwise_canonical hn hbound (henv x) hrem (henv y) op hsafe null
    refine ⟨(Function.update env z c, .none), ?_, canonical_update henv hcanonical z⟩
    cases op <;> exact congrArg (Option.map _) hc
  | makeNot z x => exact ⟨_, rfl, canonical_update henv (not_canonical hn hbound (henv x) hbuilds _) z⟩
  | copy z x => exact ⟨_, rfl, canonical_update henv (henv x) z⟩
  | bit x i => exact ⟨_, congrArg (Option.map _) ((henv x).bit i.isLt hbound), henv⟩
  | isEmpty x =>
    have hne : (env x).words ≠ [] := Represents.words_ne_nil (v := { env x with rem := n % 31 }) (henv x) hn
    obtain ⟨b, hb⟩ := isEmpty_some hne
    exact ⟨_, congrArg (Option.map _) hb, henv⟩
  | isFull x =>
    have hne : (env x).words ≠ [] := Represents.words_ne_nil (v := { env x with rem := n % 31 }) (henv x) hn
    obtain ⟨b, hb⟩ := isFull_some hne
    exact ⟨_, congrArg (Option.map _) hb, henv⟩
  | countOnes x => exact ⟨_, rfl, henv⟩

theorem reach_canonical (hn : 0 < n) (hbound : n < 4638219) (ops : List (Op n V)) (henv : ∀ x, Canonical n (env x))
    (hbuilds : BuildsRun env ops) : ∃ env', reach env ops = some env' ∧ ∀ x, Canonical n (env' x) := by
  induction ops generalizing env with
  | nil => exact ⟨env, rfl, henv⟩
  | cons op ops ih =>
    obtain ⟨p, hstep, hp⟩ := step_canonical hn hbound henv op hbuilds.1
    obtain ⟨env', hreach, henv'⟩ := ih hp (hbuilds.2 p hstep)
    exact ⟨env', by rw [reach, hstep]; exact hreach, henv'⟩

/-- In every run whose operations build their results, `equals` compares the bits of any two vectors that are reached. -/
theorem equals_extensional (n : ℕ) (hn : 0 < n) (hsize : ∀ k ≤ n, div k = k / 31) (V : Type) [DecidableEq V]
    (init : V → Bool) (ops : List (Op n V)) (hbuilds : BuildsRun (fun x => make n (init x)) ops) :
    ∃ env, reach (fun x => make n (init x)) ops = some env ∧
      ∀ x y, (env x).equals (env y) = true ↔ ∀ i < n, (env x).bit i = (env y).bit i := by
  have hbound := div_exact_iff.mp hsize
  obtain ⟨env, hreach, henv⟩ := reach_canonical hn hbound ops
    (fun x => canonical_of_represents (make_represents hn hbound (init x)) hbound) hbuilds
  exact ⟨env, hreach, fun x y => (henv x).equals_iff (henv y)⟩

/-- A bit of one of two vectors is written. -/
theorem equals_extensional_forty :
    ∃ env, reach (fun _ : Bool => make 40 false)
        ([Op.write true ⟨3, by decide⟩ true] : List (Op 40 Bool)) = some env ∧
      ∀ x y, (env x).equals (env y) = true ↔ ∀ i < 40, (env x).bit i = (env y).bit i := by
  refine equals_extensional 40 (by decide) (fun k hk => div_eq (by omega)) Bool (fun _ => false) _ ?_
  exact ⟨⟨rfl, fun htrap => absurd htrap.last (by decide)⟩, fun _ _ => trivial⟩

/-- `set()` on a vector of two words writes a fill before another one. -/
theorem equals_misses_fill : ∃ env, reach (fun _ : Bool => make 61 true)
      ([Op.write true ⟨0, by decide⟩ false, Op.writeAll true true] : List (Op 61 Bool)) = some env ∧
    (∀ i < 61, (env true).bit i = (env false).bit i) ∧ (env true).equals (env false) = false := by
  refine ⟨_, rfl, ?_, ?_⟩
  · decide
  · decide

end Otawa.Elm.WAHVector
