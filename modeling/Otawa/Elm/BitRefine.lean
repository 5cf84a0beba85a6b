import Otawa.Elm.BitQueries
import Otawa.Elm.WahRefine

/-!
# The plain bit vector against sets of indices

A run of calls over named vectors, of any sizes, and the same run over sets of indices. The two give the same
answers and the same sets exactly when every call of the run `Fits`, and what does not fit is one of these:

* `resize` allocates a new array without copying the old one when the number of bytes changes, and takes the bits
  beyond the size for elements when it does not;
* `operator=` keeps the size when the numbers of bytes are the same, or when the other vector has no array;
* `equals`, `includes` and `includesStrictly` see the bits beyond the size of the vector they compare with;
* `countOnes` sees those of its own vector;
* `countZeroes` subtracts the number of ones from itself.
-/

namespace Otawa.Elm

def Pairwise.elements (op : Pairwise) (e f : Finset ℕ) : Finset ℕ :=
  match op with
  | .and => e ∩ f
  | .or => e ∪ f
  | .reset => e \ f

namespace IndexSet

def compl (s : IndexSet) : IndexSet :=
  of s.size (Finset.range s.size \ s.elements)

def combine (s : IndexSet) (op : Pairwise) (t : IndexSet) : IndexSet :=
  of s.size (op.elements s.elements t.elements)

end IndexSet

namespace BitVector

/-- A vector and whether its array is missing, which `BitVector()` leaves so. -/
structure Object where
  vec : BitVector
  null : Bool
  deriving DecidableEq, Repr

/-- A call on vectors that are named by `V`. -/
inductive Call (V : Type) where
  /-- `BitVector()` -/
  | default (x : V)
  /-- `BitVector(size, set)` -/
  | build (x : V) (size : ℕ) (set : Bool)
  /-- `BitVector(vec)` -/
  | clone (x y : V)
  /-- `set(index)`, or `clear(index)` for the value false -/
  | write (x : V) (index : ℕ) (value : Bool)
  /-- `set()`, or `clear()` for the value false -/
  | writeAll (x : V) (value : Bool)
  /-- `resize(new_size)`; if there is a new array, its contents are what the memory held -/
  | resize (x : V) (newSize : ℕ) (memory : List Bool)
  | copy (x y : V)
  /-- `operator=` -/
  | assign (x y : V)
  | applyNot (x : V)
  | makeNot (z x : V)
  | apply (op : Pairwise) (x y : V)
  | make (op : Pairwise) (z x y : V)
  | bit (x : V) (index : ℕ)
  | equals (x y : V)
  | includes (x y : V)
  | includesStrictly (x y : V)
  | isEmpty (x : V)
  | countOnes (x : V)
  /-- `countOnes()` and `countZeroes()` -/
  | counts (x : V)
  /-- `OneIterator`, or `ZeroIterator` for the value false -/
  | iterate (x : V) (value : Bool)
  deriving DecidableEq, Repr

inductive Reply where
  | none
  | bool (b : Bool)
  | count (k : ℕ)
  | counts (ones : ℕ) (zeroes : ℤ)
  | indices (l : List ℕ)
  deriving DecidableEq, Repr

/-! ### The calls on vectors -/

namespace Object

def default : Object where
  vec := { size := 0, bits := [] }
  null := true

/-- A vector with an array of its own. -/
def owned (vec : BitVector) : Object where
  vec := vec
  null := false

/-- A call that changes bits of the array. -/
def modify (o : Object) (f : BitVector → BitVector) : Object :=
  { o with vec := f o.vec }

def resize (o : Object) (newSize : ℕ) (memory : List Bool) : Object :=
  if capacity o.vec.size ≠ capacity newSize then owned { size := newSize, bits := memory }
  else o.modify fun v => { v with size := newSize }

/-- The bits of `vec`; an assertion that the sizes are the same is only in the build for debugging. -/
def copy (o vec : Object) : Object :=
  o.modify fun v => { v with bits := vec.vec.bits }

/-- The test of `operator=` for using the array that is there. -/
def Overwrites (o vec : Object) : Prop :=
  capacity o.vec.size ≠ 0 ∧ capacity o.vec.size = capacity vec.vec.size

instance (o vec : Object) : Decidable (Overwrites o vec) :=
  inferInstanceAs (Decidable (_ ∧ _))

def assign (o vec : Object) : Object :=
  if Overwrites o vec then o.copy vec
  else if vec.null then { o with vec := { o.vec with bits := [] }, null := true }
  else owned vec.vec

end Object

variable {V : Type} [DecidableEq V]

/-- The vectors after a call and its answer. The queries mask their vector first, which may be the other one too. -/
def perform (env : V → Object) : Call V → (V → Object) × Reply
  | .default x => (Function.update env x .default, .none)
  | .build x n set => (Function.update env x (.owned (BitVector.make n set)), .none)
  | .clone x y => (Function.update env x (.owned (env y).vec), .none)
  | .write x i value => (Function.update env x ((env x).modify fun v => v.setBit i value), .none)
  | .writeAll x value =>
    (Function.update env x ((env x).modify fun v => if value then v.setAll else v.clearAll), .none)
  | .resize x n memory => (Function.update env x ((env x).resize n memory), .none)
  | .copy x y => (Function.update env x ((env x).copy (env y)), .none)
  | .assign x y => (Function.update env x ((env x).assign (env y)), .none)
  | .applyNot x => (Function.update env x ((env x).modify applyNot), .none)
  | .makeNot z x => (Function.update env z (.owned (env x).vec.makeNot), .none)
  | .apply op x y => (Function.update env x ((env x).modify fun v => applyOp op v (env y).vec), .none)
  | .make op z x y => (Function.update env z (.owned (makeOp op (env x).vec (env y).vec)), .none)
  | .bit x i => (env, .bool ((env x).vec.bit i))
  | .equals x y =>
    let masked := Function.update env x ((env x).modify mask)
    (masked, .bool ((masked x).vec.equals (masked y).vec))
  | .includes x y =>
    let masked := Function.update env x ((env x).modify mask)
    (masked, .bool ((masked x).vec.includes (masked y).vec))
  | .includesStrictly x y =>
    let masked := Function.update env x ((env x).modify mask)
    (masked, .bool ((masked x).vec.includesStrictly (masked y).vec))
  | .isEmpty x => (Function.update env x ((env x).modify mask), .bool (env x).vec.isEmpty.1)
  | .countOnes x => (env, .count (env x).vec.countOnes)
  | .counts x => (env, .counts (env x).vec.countOnes (env x).vec.countZeroes)
  | .iterate x value => (env, .indices ((env x).vec.iterate value))

/-- The array has the bytes of the size. -/
def Object.Allocated (o : Object) : Prop :=
  o.vec.Sized o.vec.size

/-- The assertions of the call hold, and it reads and writes no array that is missing. -/
def Allowed (env : V → Object) : Call V → Prop
  | .default _ => True
  | .build _ n _ => 0 < n
  | .clone _ y => (env y).Allocated
  | .write x i _ => (env x).Allocated ∧ i < (env x).vec.size
  | .writeAll x _ => (env x).Allocated
  | .resize _ n memory => memory.length = capacity n
  | .copy x y => (env x).Allocated ∧ (env y).Allocated ∧ (env x).vec.size = (env y).vec.size
  | .assign x y => (env x).Overwrites (env y) → (env x).Allocated ∧ (env y).Allocated
  | .applyNot x => (env x).Allocated
  | .makeNot _ x => (env x).Allocated
  | .apply _ x y => (env x).Allocated ∧ (env y).Allocated ∧ (env x).vec.size = (env y).vec.size
  | .make _ _ x y => (env x).Allocated ∧ (env y).Allocated ∧ (env x).vec.size = (env y).vec.size
  | .bit x i => (env x).Allocated ∧ i < (env x).vec.size
  | .equals x y => (env x).Allocated ∧ (env y).Allocated ∧ (env x).vec.size = (env y).vec.size
  | .includes x y => (env x).Allocated ∧ (env y).Allocated ∧ (env x).vec.size = (env y).vec.size
  | .includesStrictly x y => (env x).Allocated ∧ (env y).Allocated ∧ (env x).vec.size = (env y).vec.size
  | .isEmpty x => (env x).Allocated
  | .countOnes x => (env x).Allocated
  | .counts x => (env x).Allocated
  | .iterate x _ => (env x).Allocated

/-! ### The calls on sets -/

/-- The sets after a call and its answer. -/
def act (sets : V → IndexSet) : Call V → (V → IndexSet) × Reply
  | .default x => (Function.update sets x (.of 0 ∅), .none)
  | .build x n set => (Function.update sets x (.of n (if set then Finset.range n else ∅)), .none)
  | .clone x y => (Function.update sets x (sets y), .none)
  | .write x i value =>
    (Function.update sets x
      (.of (sets x).size (if value then insert i (sets x).elements else (sets x).elements.erase i)), .none)
  | .writeAll x value =>
    (Function.update sets x (.of (sets x).size (if value then Finset.range (sets x).size else ∅)), .none)
  | .resize x n _ => (Function.update sets x (.of n (sets x).elements), .none)
  | .copy x y => (Function.update sets x (sets y), .none)
  | .assign x y => (Function.update sets x (sets y), .none)
  | .applyNot x => (Function.update sets x (sets x).compl, .none)
  | .makeNot z x => (Function.update sets z (sets x).compl, .none)
  | .apply op x y => (Function.update sets x ((sets x).combine op (sets y)), .none)
  | .make op z x y => (Function.update sets z ((sets x).combine op (sets y)), .none)
  | .bit x i => (sets, .bool (decide (i ∈ (sets x).elements)))
  | .equals x y => (sets, .bool (decide ((sets x).elements = (sets y).elements)))
  | .includes x y => (sets, .bool (decide ((sets y).elements ⊆ (sets x).elements)))
  | .includesStrictly x y => (sets, .bool (decide ((sets y).elements ⊂ (sets x).elements)))
  | .isEmpty x => (sets, .bool (decide ((sets x).elements = ∅)))
  | .countOnes x => (sets, .count (sets x).elements.card)
  | .counts x => (sets, .counts (sets x).elements.card ((sets x).size - (sets x).elements.card))
  | .iterate x value => (sets, .indices ((sets x).listing value))

/-- The call is none of those that the bits beyond the size, or the ways of `resize`, `operator=` and `countZeroes`,
make different from the one on sets. -/
def Fits (env : V → Object) : Call V → Prop
  | .resize x n memory =>
    if capacity (env x).vec.size = capacity n then
      ∀ i < n, (env x).vec.size ≤ i → (env x).vec.bit i = false
    else ∀ i < n, memory.getD i false = (decide (i < (env x).vec.size) && (env x).vec.bit i)
  | .assign x y =>
    (env x).vec.size = (env y).vec.size ∨ ¬ (env x).Overwrites (env y) ∧ (env y).null = false
  | .equals x y =>
    x = y ∨ (env y).vec.Clean ∨ ∃ i < (env x).vec.size, (env x).vec.bit i ≠ (env y).vec.bit i
  | .includes x y =>
    x = y ∨ (env y).vec.Clean ∨ ∃ i < (env x).vec.size, (env y).vec.bit i = true ∧ (env x).vec.bit i = false
  | .includesStrictly x y =>
    x = y ∨ (env y).vec.Clean ∨
      (∃ i < (env x).vec.size, (env y).vec.bit i = true ∧ (env x).vec.bit i = false) ∨
      ∀ i < (env x).vec.size, (env x).vec.bit i = (env y).vec.bit i
  | .countOnes x => (env x).vec.Clean
  | .counts x => (env x).vec.Clean ∧ ∀ i < (env x).vec.size, (env x).vec.bit i = true
  | _ => True

/-! ### The sets of the vectors -/

section Sets

variable {n : ℕ} {v vec : BitVector} {e : Finset ℕ}

theorem indices_eq_iff (hsize : v.size = n) : v.indices = .of n e ↔ ∀ i < n, (v.bit i = true ↔ i ∈ e) := by
  subst hsize
  constructor
  · intro heq i hi
    have hmem : i ∈ v.indices.elements ↔ i ∈ (IndexSet.of v.size e).elements := by rw [heq]
    simpa [hi] using hmem
  · intro hbits
    refine IndexSet.ext rfl (Finset.ext fun i => ?_)
    rw [mem_indices, IndexSet.mem_of]
    constructor
    · rintro ⟨hi, hbit⟩
      exact ⟨(hbits i hi).mp hbit, hi⟩
    · rintro ⟨hmem, hi⟩
      exact ⟨hi, (hbits i hi).mpr hmem⟩

/-- A vector of the size and with the bits of a set. -/
theorem indices_eq (hsize : v.size = n) (hbits : ∀ i < n, v.bit i = true ↔ i ∈ e) : v.indices = .of n e :=
  (indices_eq_iff hsize).mpr hbits

theorem indices_inj (hsize : v.size = vec.size) : v.indices = vec.indices ↔ ∀ i < vec.size, v.bit i = vec.bit i := by
  have hown : vec.indices = .of vec.size vec.indices.elements :=
    indices_eq rfl fun i hi => by simp [hi]
  rw [hown, indices_eq_iff hsize]
  refine forall₂_congr fun i hi => ?_
  rw [mem_indices, and_iff_right hi]
  exact Bool.eq_iff_iff.symm

theorem indices_mask (hv : v.Sized n) : v.mask.indices = v.indices := by
  rw [indices_inj (hv.mask.size.trans hv.size.symm)]
  exact fun i hi => bit_mask hi

theorem indices_setBit (hv : v.Sized n) {i : ℕ} (hi : i < n) (value : Bool) :
    (v.setBit i value).indices =
      .of n (if value then insert i v.indices.elements else v.indices.elements.erase i) := by
  refine indices_eq hv.size fun j hj => ?_
  have hjv : j < v.size := hv.size.symm ▸ hj
  rw [bit_setBit hv hi]
  by_cases hji : j = i
  · cases value <;> simp [hji]
  · cases value <;> simp [hji, hjv]

theorem indices_writeAll (hv : v.Sized n) (value : Bool) :
    (if value then v.setAll else v.clearAll).indices = .of n (if value then Finset.range n else ∅) := by
  cases value with
  | true => exact indices_eq hv.setAll.size fun i hi => by simp [bit_setAll hv hi, hi]
  | false => exact indices_eq hv.clearAll.size fun i _ => by simp [bit_clearAll]

theorem indices_not (hv : v.Sized n) : v.applyNot.indices = v.indices.compl := by
  rw [IndexSet.compl, size_indices, hv.size]
  refine indices_eq hv.applyNot.size fun i hi => ?_
  have hiv : i < v.size := hv.size.symm ▸ hi
  simp [bit_applyNot hv hi, hi, hiv]

theorem indices_pairwise (hv : v.Sized n) (hvec : vec.Sized n) (op : Pairwise) {r : BitVector} (hr : r.Sized n)
    (hbits : ∀ i < n, op.bit (v.bit i) (vec.bit i) = r.bit i) : r.indices = v.indices.combine op vec.indices := by
  rw [IndexSet.combine, size_indices, hv.size]
  refine indices_eq hr.size fun i hi => ?_
  have hiv : i < v.size := hv.size.symm ▸ hi
  have hivec : i < vec.size := hvec.size.symm ▸ hi
  rw [← hbits i hi]
  cases op <;> simp [Pairwise.bit, Pairwise.elements, hiv, hivec]

theorem indices_build (n : ℕ) (set : Bool) :
    (BitVector.make n set).indices = .of n (if set then Finset.range n else ∅) := by
  refine indices_eq rfl fun i hi => ?_
  cases set <;> simp [bit_make hi, hi]

/-- `resize` keeps the elements exactly when no bit comes into the size, or the new memory has them. -/
theorem indices_resize (o : Object) (n : ℕ) (memory : List Bool) :
    (o.resize n memory).vec.indices = .of n o.vec.indices.elements ↔
      if capacity o.vec.size = capacity n then ∀ i < n, o.vec.size ≤ i → o.vec.bit i = false
      else ∀ i < n, memory.getD i false = (decide (i < o.vec.size) && o.vec.bit i) := by
  unfold Object.resize
  by_cases hbytes : capacity o.vec.size = capacity n
  · have hsize : (o.modify fun v => { v with size := n }).vec.size = n := rfl
    rw [if_neg (not_not.mpr hbytes), if_pos hbytes, indices_eq_iff hsize]
    refine forall₂_congr fun i _ => ?_
    have hbit : (o.modify fun v => { v with size := n }).vec.bit i = o.vec.bit i := rfl
    rw [hbit, mem_indices]
    cases o.vec.bit i <;> simp
  · have hsize : (Object.owned { size := n, bits := memory }).vec.size = n := rfl
    rw [if_pos hbytes, if_neg hbytes, indices_eq_iff hsize]
    refine forall₂_congr fun i _ => ?_
    have hand : (i < o.vec.size ∧ o.vec.bit i = true) ↔ (decide (i < o.vec.size) && o.vec.bit i) = true := by simp
    rw [mem_indices, hand]
    exact Bool.eq_iff_iff.symm

theorem indices_assign (o vec : Object) :
    (o.assign vec).vec.indices = vec.vec.indices ↔
      o.vec.size = vec.vec.size ∨ ¬ o.Overwrites vec ∧ vec.null = false := by
  have hsizes : ∀ v : BitVector, v.size = o.vec.size → v.indices = vec.vec.indices →
      o.vec.size = vec.vec.size := by
    intro v hsize heq
    rw [← hsize, ← size_indices v, heq, size_indices]
  unfold Object.assign
  split
  · rename_i hover
    constructor
    · exact fun heq => .inl (hsizes (o.copy vec).vec rfl heq)
    · rintro (hsize | ⟨hnot, -⟩)
      · exact (indices_inj (v := (o.copy vec).vec) hsize).mpr fun i _ => rfl
      · exact absurd hover hnot
  · rename_i hover
    split
    · rename_i hnull
      constructor
      · exact fun heq => .inl (hsizes _ (by rfl) heq)
      · rintro (hsize | ⟨-, howned⟩)
        · have hzero : vec.vec.size = 0 := by
            by_contra hpos
            refine hover ⟨?_, by rw [hsize]⟩
            have := le_capacity o.vec.size
            omega
          refine (indices_inj (v := { o.vec with bits := [] }) hsize).mpr fun i hi => ?_
          omega
        · rw [hnull] at howned
          cases howned
    · rename_i hnull
      exact iff_of_true rfl (.inr ⟨hover, Bool.eq_false_iff.mpr hnull⟩)

theorem elements_eq_iff (hv : v.Sized n) (hvec : vec.Sized n) :
    v.indices.elements = vec.indices.elements ↔ ∀ i < n, v.bit i = vec.bit i := by
  have hsize : v.size = vec.size := hv.size.trans hvec.size.symm
  rw [← hvec.size, ← indices_inj hsize]
  exact ⟨fun helements => IndexSet.ext hsize helements, congrArg IndexSet.elements⟩

theorem elements_subset_iff (hv : v.Sized n) (hvec : vec.Sized n) :
    vec.indices.elements ⊆ v.indices.elements ↔ ∀ i < n, vec.bit i = true → v.bit i = true := by
  constructor
  · intro hsub i hi hbit
    have hmem := hsub (mem_indices.mpr ⟨hvec.size.symm ▸ hi, hbit⟩)
    exact (mem_indices.mp hmem).2
  · intro hbits i hmem
    obtain ⟨hi, hbit⟩ := mem_indices.mp hmem
    rw [hvec.size] at hi
    exact mem_indices.mpr ⟨hv.size.symm ▸ hi, hbits i hi hbit⟩

theorem elements_empty_iff (hv : v.Sized n) : v.indices.elements = ∅ ↔ ∀ i < n, v.bit i = false := by
  rw [Finset.eq_empty_iff_forall_notMem]
  constructor
  · intro hnone i hi
    have hnot := hnone i
    rw [mem_indices, hv.size, and_iff_right hi, Bool.not_eq_true] at hnot
    exact hnot
  · intro hclear i hmem
    obtain ⟨hi, hbit⟩ := mem_indices.mp hmem
    rw [hclear i (hv.size ▸ hi)] at hbit
    cases hbit

/-- A comparison that also asks for a clean vector is right if the vector is clean, or it fails anyway. -/
private theorem decided_iff {b : Bool} {p c : Prop} [Decidable p] (hb : b = true ↔ p ∧ c) :
    b = decide p ↔ c ∨ ¬ p := by
  rw [Bool.eq_iff_iff, hb, decide_eq_true_iff]
  tauto

theorem equals_right (hv : v.Sized n) (hvec : vec.Sized n) :
    v.equals vec = decide (v.indices.elements = vec.indices.elements) ↔
      vec.Clean ∨ ∃ i < n, v.bit i ≠ vec.bit i := by
  rw [decided_iff (c := vec.Clean) ((equals_iff hv hvec).trans (by rw [elements_eq_iff hv hvec])),
    elements_eq_iff hv hvec]
  simp only [not_forall, exists_prop, ne_eq]

theorem includes_right (hv : v.Sized n) (hvec : vec.Sized n) :
    v.includes vec = decide (vec.indices.elements ⊆ v.indices.elements) ↔
      vec.Clean ∨ ∃ i < n, vec.bit i = true ∧ v.bit i = false := by
  rw [decided_iff (c := vec.Clean) ((includes_iff hv hvec).trans (by rw [elements_subset_iff hv hvec])),
    elements_subset_iff hv hvec]
  simp only [not_forall, exists_prop, Bool.not_eq_true]

theorem includesStrictly_right (hv : v.Sized n) (hvec : vec.Sized n) :
    v.includesStrictly vec = decide (vec.indices.elements ⊂ v.indices.elements) ↔
      vec.Clean ∨ (∃ i < n, vec.bit i = true ∧ v.bit i = false) ∨ ∀ i < n, v.bit i = vec.bit i := by
  have hstrict : vec.indices.elements ⊂ v.indices.elements ↔
      (∀ i < n, vec.bit i = true → v.bit i = true) ∧ ¬ ∀ i < n, v.bit i = vec.bit i := by
    rw [Finset.ssubset_iff_subset_ne, elements_subset_iff hv hvec, ne_comm, ne_eq, elements_eq_iff hv hvec]
  have hanswer : v.includesStrictly vec = true ↔ vec.indices.elements ⊂ v.indices.elements ∧ vec.Clean := by
    rw [includesStrictly_iff hv hvec, includes_iff hv hvec, equals_iff hv hvec, hstrict]
    tauto
  rw [decided_iff hanswer, hstrict, not_and_or, not_not]
  simp only [not_forall, exists_prop, Bool.not_eq_true]

theorem counts_right (hv : v.Sized n) :
    v.countOnes = v.indices.elements.card ∧ v.countZeroes = n - v.indices.elements.card ↔
      v.Clean ∧ ∀ i < n, v.bit i = true := by
  have hfull : ((0 : ℤ) = n - v.indices.elements.card) ↔ ∀ i < n, v.bit i = true := by
    rw [eq_comm, sub_eq_zero, Nat.cast_inj, card_indices hv]
    conv_lhs => lhs; rw [← List.length_range (n := n)]
    rw [eq_comm, List.countP_eq_length]
    simp only [List.mem_range]
  rw [countOnes_iff hv, countZeroes_eq, hfull]

end Sets

/-! ### One call -/

/-- The sets of all vectors. -/
def sets (env : V → Object) : V → IndexSet :=
  fun z => (env z).vec.indices

variable {env env' : V → Object} {x y : V}

theorem sets_update (env : V → Object) (x : V) (o : Object) :
    sets (Function.update env x o) = Function.update (sets env) x o.vec.indices := by
  funext z
  exact Function.apply_update (fun _ o => o.vec.indices) env x o z

/-- A call that changes a vector gives the set of the same call. -/
theorem change_iff (env : V → Object) (x : V) (o : Object) (s : IndexSet) :
    (sets (Function.update env x o), Reply.none) = (Function.update (sets env) x s, Reply.none) ↔
      o.vec.indices = s := by
  rw [sets_update, Prod.mk.injEq, and_iff_left rfl]
  exact (Function.update_injective (sets env) x).eq_iff

omit [DecidableEq V] in
/-- A call that keeps the sets gives the answer of the same call. -/
theorem answer_iff (hkeeps : sets env' = sets env) (r r' : Reply) :
    (sets env', r) = (sets env, r') ↔ r = r' := by
  rw [hkeeps, Prod.mk.injEq, and_iff_right rfl]

theorem sets_masked (hx : (env x).Allocated) : sets (Function.update env x ((env x).modify mask)) = sets env := by
  rw [sets_update]
  exact Function.update_eq_self_iff.mpr (indices_mask hx)

theorem masked_indices (hx : (env x).Allocated) (z : V) :
    (Function.update env x ((env x).modify mask) z).vec.indices = sets env z :=
  congrFun (sets_masked hx) z

/-- The other vector once the one a query is called on has been masked. -/
structure Masked (n : ℕ) (same : Prop) (vec masked : BitVector) : Prop where
  sized : masked.Sized n
  bits : ∀ i < n, masked.bit i = vec.bit i
  clean : masked.Clean ↔ same ∨ vec.Clean

theorem masked_self (hx : (env x).Allocated) :
    Masked (env x).vec.size True (env x).vec (Function.update env x ((env x).modify mask) x).vec := by
  rw [Function.update_self]
  exact ⟨hx.mask, fun i hi => bit_mask hi, iff_of_true (clean_mask hx) (.inl trivial)⟩

theorem masked_other (hx : (env x).Allocated) (hy : (env y).vec.Sized (env x).vec.size) :
    Masked (env x).vec.size (x = y) (env y).vec (Function.update env x ((env x).modify mask) y).vec := by
  by_cases hxy : x = y
  · subst hxy
    have hself := masked_self hx
    exact ⟨hself.sized, hself.bits, hself.clean.trans (by simp)⟩
  · rw [Function.update_of_ne (Ne.symm hxy)]
    exact ⟨hy, fun _ _ => rfl, by simp [hxy]⟩

omit [DecidableEq V] in
/-- Two allocated vectors of one size are both sized by the first. -/
theorem sized_of_eq (hy : (env y).Allocated) (hsize : (env x).vec.size = (env y).vec.size) :
    (env y).vec.Sized (env x).vec.size := by
  rw [hsize]
  exact hy

/-- A comparison, of a vector that it masks first, with the other one, is right on any two vectors when the other one is
clean or the bits below the size settle the answer: then it is on these when the other one may also be the masked one. -/
theorem compare_iff
    (hallowed : (env x).Allocated ∧ (env y).Allocated ∧ (env x).vec.size = (env y).vec.size)
    (query : BitVector → BitVector → Bool) (answer : Finset ℕ → Finset ℕ → Bool) (settled : BitVector → BitVector → Prop)
    (hright : ∀ {v vec : BitVector}, v.Sized (env x).vec.size → vec.Sized (env x).vec.size →
      (query v vec = answer v.indices.elements vec.indices.elements ↔ vec.Clean ∨ settled v vec))
    (hbits : ∀ v vec v' vec' : BitVector, (∀ i < (env x).vec.size, v.bit i = v'.bit i) →
      (∀ i < (env x).vec.size, vec.bit i = vec'.bit i) → (settled v vec ↔ settled v' vec')) :
    let masked := Function.update env x ((env x).modify mask)
    (sets masked, Reply.bool (query (masked x).vec (masked y).vec)) =
        (sets env, .bool (answer (sets env x).elements (sets env y).elements)) ↔
      x = y ∨ (env y).vec.Clean ∨ settled (env x).vec (env y).vec := by
  obtain ⟨hx, hy, hsize⟩ := hallowed
  have hself := masked_self hx
  have hother := masked_other (y := y) hx (sized_of_eq hy hsize)
  have hanswer := hright hself.sized hother.sized
  rw [masked_indices hx x, masked_indices hx y, hother.clean, or_assoc] at hanswer
  refine (answer_iff (sets_masked hx) ..).trans ((Reply.bool.injEq ..).to_iff.trans (hanswer.trans ?_))
  exact or_congr_right (or_congr_right (hbits _ _ _ _ hself.bits hother.bits))

/-- A call that the assertions allow gives the sets and the answer of the same call on sets exactly when it fits. -/
theorem mirrors_iff (c : Call V) (hallowed : Allowed env c) :
    (sets (perform env c).1, (perform env c).2) = act (sets env) c ↔ Fits env c := by
  cases c with
  | default x => exact iff_of_true ((change_iff ..).mpr (indices_eq rfl fun i hi => absurd hi (Nat.not_lt_zero i))) trivial
  | build x n set => exact iff_of_true ((change_iff ..).mpr (indices_build n set)) trivial
  | clone x y => exact iff_of_true ((change_iff ..).mpr rfl) trivial
  | write x i value => exact iff_of_true ((change_iff ..).mpr (indices_setBit hallowed.1 hallowed.2 value)) trivial
  | writeAll x value => exact iff_of_true ((change_iff ..).mpr (indices_writeAll hallowed value)) trivial
  | resize x n memory => exact (change_iff ..).trans (indices_resize (env x) n memory)
  | copy x y =>
    obtain ⟨-, -, hsize⟩ := hallowed
    refine iff_of_true ((change_iff ..).mpr ?_) trivial
    exact (indices_inj (v := ((env x).copy (env y)).vec) hsize).mpr fun _ _ => rfl
  | assign x y => exact (change_iff ..).trans (indices_assign (env x) (env y))
  | applyNot x => exact iff_of_true ((change_iff ..).mpr (indices_not hallowed)) trivial
  | makeNot z x => exact iff_of_true ((change_iff ..).mpr (indices_not hallowed)) trivial
  | apply op x y =>
    obtain ⟨hx, hy, hsize⟩ := hallowed
    obtain ⟨hr, hbits⟩ := applyOp_bits hx (sized_of_eq hy hsize) op
    exact iff_of_true ((change_iff ..).mpr (indices_pairwise hx (sized_of_eq hy hsize) op hr hbits)) trivial
  | make op z x y =>
    obtain ⟨hx, hy, hsize⟩ := hallowed
    obtain ⟨hr, hbits⟩ := makeOp_bits hx (sized_of_eq hy hsize) op
    exact iff_of_true ((change_iff ..).mpr (indices_pairwise hx (sized_of_eq hy hsize) op hr hbits)) trivial
  | bit x i =>
    refine iff_of_true ((answer_iff rfl ..).mpr (congrArg Reply.bool ?_)) trivial
    have hi : i < (env x).vec.size := hallowed.2
    simp [sets, hi]
  | equals x y =>
    refine compare_iff hallowed equals (fun e f => decide (e = f)) (fun v vec => ∃ i < (env x).vec.size, v.bit i ≠ vec.bit i)
      equals_right fun v vec v' vec' hv hvec => exists_congr fun i => and_congr_right fun hi => ?_
    rw [hv i hi, hvec i hi]
  | includes x y =>
    refine compare_iff hallowed includes (fun e f => decide (f ⊆ e))
      (fun v vec => ∃ i < (env x).vec.size, vec.bit i = true ∧ v.bit i = false)
      includes_right fun v vec v' vec' hv hvec => exists_congr fun i => and_congr_right fun hi => ?_
    rw [hv i hi, hvec i hi]
  | includesStrictly x y =>
    refine compare_iff hallowed includesStrictly (fun e f => decide (f ⊂ e))
      (fun v vec => (∃ i < (env x).vec.size, vec.bit i = true ∧ v.bit i = false) ∨ ∀ i < (env x).vec.size, v.bit i = vec.bit i)
      includesStrictly_right fun v vec v' vec' hv hvec =>
        or_congr (exists_congr fun i => and_congr_right fun hi => ?_) (forall₂_congr fun i hi => ?_)
    · rw [hv i hi, hvec i hi]
    · rw [hv i hi, hvec i hi]
  | isEmpty x =>
    refine iff_of_true ((answer_iff (sets_masked hallowed) ..).mpr (congrArg Reply.bool ?_)) trivial
    rw [Bool.eq_iff_iff, isEmpty_iff hallowed, decide_eq_true_iff]
    exact (elements_empty_iff hallowed).symm
  | countOnes x => exact (answer_iff rfl ..).trans ((Reply.count.injEq ..).to_iff.trans (countOnes_iff hallowed))
  | counts x => exact (answer_iff rfl ..).trans ((Reply.counts.injEq ..).to_iff.trans (counts_right hallowed))
  | iterate x value => exact iff_of_true ((answer_iff rfl ..).mpr (congrArg Reply.indices (iterate_eq ..))) trivial

/-! ### Runs of calls -/

/-- The vectors after each call and its answer. -/
def history (env : V → Object) : List (Call V) → List ((V → Object) × Reply)
  | [] => []
  | c :: cs => perform env c :: history (perform env c).1 cs

/-- The sets after each call and its answer. -/
def historySets (s : V → IndexSet) : List (Call V) → List ((V → IndexSet) × Reply)
  | [] => []
  | c :: cs => act s c :: historySets (act s c).1 cs

def AllowedRun (env : V → Object) : List (Call V) → Prop
  | [] => True
  | c :: cs => Allowed env c ∧ AllowedRun (perform env c).1 cs

/-- Every call fits in the state before it. -/
def FitsRun (env : V → Object) : List (Call V) → Prop
  | [] => True
  | c :: cs => Fits env c ∧ FitsRun (perform env c).1 cs

/-- What a run on vectors shows: the sets and the answers. -/
def observed (env : V → Object) (cs : List (Call V)) : List ((V → IndexSet) × Reply) :=
  (history env cs).map fun p => (sets p.1, p.2)

theorem observed_iff (cs : List (Call V)) (hallowed : AllowedRun env cs) :
    observed env cs = historySets (sets env) cs ↔ FitsRun env cs := by
  induction cs generalizing env with
  | nil => exact iff_of_true rfl trivial
  | cons c cs ih =>
    have hstep := mirrors_iff c hallowed.1
    have hrest := ih hallowed.2
    rw [observed] at hrest
    rw [observed, history, List.map_cons, historySets, List.cons.injEq, hstep, FitsRun]
    refine and_congr_right fun hfits => ?_
    have hsets : (act (sets env) c).1 = sets (perform env c).1 := by rw [← hstep.mpr hfits]
    rw [hsets]
    exact hrest

/-- From vectors that were built by default, a run on vectors of any sizes shows what the same run on sets of indices
shows exactly when each of its calls fits. -/
theorem behaves_as_sets_iff (V : Type) [DecidableEq V] (cs : List (Call V))
    (hallowed : AllowedRun (fun _ => Object.default) cs) :
    observed (fun _ => Object.default) cs = historySets (fun _ => .of 0 ∅) cs ↔
      FitsRun (fun _ => Object.default) cs := by
  have hstart : sets (fun _ : V => Object.default) = fun _ => .of 0 ∅ := by
    funext _
    exact indices_eq rfl fun i hi => absurd hi (Nat.not_lt_zero i)
  rw [← hstart]
  exact observed_iff cs hallowed

/-- A vector of 13 bits, a clear one, is filled and counted. -/
theorem behaves_as_sets_thirteen :
    observed (fun _ : Unit => Object.default) [.build () 13 false, .writeAll () true, .counts ()] =
      historySets (fun _ => .of 0 ∅) [.build () 13 false, .writeAll () true, .counts ()] := by
  refine (behaves_as_sets_iff Unit _ ?_).mpr ?_
  · exact ⟨Nat.succ_pos 12, ⟨rfl, rfl⟩, ⟨rfl, rfl⟩, trivial⟩
  · have hsized : (BitVector.make 13 true).Sized 13 := sized_make 13 true
    exact ⟨trivial, trivial, ⟨clean_mask hsized, fun i hi => bit_setAll (sized_make 13 false) hi⟩, trivial⟩

/-- The count of zeroes of a clear vector is 0, and a vector that is built with all bits set differs from one that is
filled later. -/
theorem padding_is_seen :
    let calls : List (Call Bool) :=
      [.build false 13 true, .build true 13 false, .counts true, .writeAll true true, .equals true false]
    AllowedRun (fun _ => Object.default) calls ∧
      (observed (fun _ => Object.default) calls).map Prod.snd =
        [.none, .none, .counts 0 0, .none, .bool false] ∧
      (historySets (fun _ => .of 0 ∅) calls).map Prod.snd =
        [.none, .none, .counts 0 13, .none, .bool true] := by
  refine ⟨⟨Nat.succ_pos 12, Nat.succ_pos 12, ⟨rfl, rfl⟩, ⟨rfl, rfl⟩, ⟨⟨rfl, rfl⟩, ⟨rfl, rfl⟩, rfl⟩, trivial⟩, ?_, ?_⟩
  · decide
  · decide

end BitVector

end Otawa.Elm
