import Otawa.Elm.BitVector
import Otawa.Elm.WahCombine
import Otawa.Elm.WahQueries
import Otawa.Elm.WahUpdate

/-!
# The compressed bit vector against the plain one

Both classes run one sequence of operations over named vectors of one size, and the answers are compared. They
are the same as long as every operation is safe in the state before it, and the unsafe ones are those that reach
one of these:

* `div` and `mod` are not exact from 4638219 on;
* `set()` and `clear()` compute the count of a fill from the number of words (right below 31 bits);
* `fix` adds a last group that has become uniform to the literal before it, when the top bit of the literal has
  the value of the group (`UpdateTrap`, `OrTrap`);
* the vectors that `makeAnd` and its like return have lost their `rem`;
* `isEmpty` and `isFull` take a lone literal for a fill (`LoneLiteral`);
* the plain vector's `countOnes` counts the bits that `applyNot` and others leave beyond the size.
-/

namespace Otawa.Elm

/-- The operations on two vectors. -/
inductive Pairwise where
  | and
  | or
  | reset
  deriving DecidableEq, Repr

def Pairwise.bit : Pairwise → Bool → Bool → Bool
  | .and => fun a b => a && b
  | .or => fun a b => a || b
  | .reset => fun a b => a && !b

/-- An operation on vectors of size `n` that are named by `V`. -/
inductive Op (n : ℕ) (V : Type) where
  /-- `set(i)`, or `clear(i)` for the value false. -/
  | write (x : V) (i : Fin n) (value : Bool)
  /-- `set()`, or `clear()` for the value false. -/
  | writeAll (x : V) (value : Bool)
  | apply (op : Pairwise) (x y : V)
  | applyNot (x : V)
  | make (op : Pairwise) (z x y : V)
  | makeNot (z x : V)
  | copy (z x : V)
  | bit (x : V) (i : Fin n)
  | isEmpty (x : V)
  | isFull (x : V)
  | countOnes (x : V)

inductive Answer where
  | none
  | bool (b : Bool)
  | count (k : ℕ)
  deriving DecidableEq, Repr

variable {n : ℕ} {V : Type} [DecidableEq V]

/-! ### Runs -/

namespace WAHVector

def applyOp (op : Pairwise) (v vec : WAHVector) : Option WAHVector :=
  match op with
  | .and => v.applyAnd vec
  | .or => v.applyOr vec
  | .reset => v.applyReset vec

def makeOp (op : Pairwise) (v vec : WAHVector) : Option WAHVector :=
  match op with
  | .and => v.makeAnd vec
  | .or => v.makeOr vec
  | .reset => v.makeReset vec

/-- An operation on compressed vectors; there is no result when an assertion fails. -/
def step (env : V → WAHVector) : Op n V → Option ((V → WAHVector) × Answer)
  | .write x i value =>
    (if value then (env x).setBit i else (env x).clearBit i).map fun v => (Function.update env x v, .none)
  | .writeAll x value =>
    some (Function.update env x (if value then (env x).setAll else (env x).clearAll), .none)
  | .apply op x y => (applyOp op (env x) (env y)).map fun v => (Function.update env x v, .none)
  | .applyNot x => some (Function.update env x (env x).applyNot, .none)
  | .make op z x y => (makeOp op (env x) (env y)).map fun v => (Function.update env z v, .none)
  | .makeNot z x => some (Function.update env z (env x).makeNot, .none)
  | .copy z x => some (Function.update env z (env x).copy, .none)
  | .bit x i => ((env x).bit i).map fun b => (env, .bool b)
  | .isEmpty x => (env x).isEmpty.map fun b => (env, .bool b)
  | .isFull x => (env x).isFull.map fun b => (env, .bool b)
  | .countOnes x => some (env, .count (env x).countOnes)

def run (env : V → WAHVector) : List (Op n V) → Option (List Answer)
  | [] => some []
  | op :: ops => do
    let (env', answer) ← step env op
    let answers ← run env' ops
    some (answer :: answers)

end WAHVector

namespace BitVector

def applyOp (op : Pairwise) (v vec : BitVector) : BitVector :=
  match op with
  | .and => v.applyAnd vec
  | .or => v.applyOr vec
  | .reset => v.applyReset vec

def makeOp (op : Pairwise) (v vec : BitVector) : BitVector :=
  match op with
  | .and => v.makeAnd vec
  | .or => v.makeOr vec
  | .reset => v.makeReset vec

def step (env : V → BitVector) : Op n V → (V → BitVector) × Answer
  | .write x i value => (Function.update env x ((env x).setBit i value), .none)
  | .writeAll x value =>
    (Function.update env x (if value then (env x).setAll else (env x).clearAll), .none)
  | .apply op x y => (Function.update env x (applyOp op (env x) (env y)), .none)
  | .applyNot x => (Function.update env x (env x).applyNot, .none)
  | .make op z x y => (Function.update env z (makeOp op (env x) (env y)), .none)
  | .makeNot z x => (Function.update env z (env x).makeNot, .none)
  | .copy z x => (Function.update env z (env x), .none)
  | .bit x i => (env, .bool ((env x).bit i))
  | .isEmpty x => (Function.update env x (env x).isEmpty.2, .bool (env x).isEmpty.1)
  | .isFull x => (env, .bool (env x).isFull)
  | .countOnes x => (env, .count (env x).countOnes)

def run (env : V → BitVector) : List (Op n V) → List Answer
  | [] => []
  | op :: ops => (step env op).2 :: run (step env op).1 ops

end BitVector

/-! ### Safe operations -/

/-- The operation reaches none of the defects from these plain vectors. -/
def Safe (n : ℕ) (env : V → BitVector) : Op n V → Prop
  | .write x i value => ¬ WAHVector.UpdateTrap n (env x).bit i value
  | .writeAll _ _ => n < 31
  | .apply .or x y => ¬ WAHVector.OrTrap n (env x).bit (env y).bit
  | .apply _ _ _ => True
  | .applyNot _ => True
  | .make _ _ _ _ => n % 31 = 0
  | .makeNot _ _ => n % 31 = 0
  | .copy _ _ => True
  | .bit _ _ => True
  | .isEmpty x => ¬ WAHVector.LoneLiteral n (env x).bit false
  | .isFull x => ¬ WAHVector.LoneLiteral n (env x).bit true
  | .countOnes x => (env x).Clean

/-- Every operation is safe in the state before it. -/
def SafeRun (n : ℕ) (env : V → BitVector) : List (Op n V) → Prop
  | [] => True
  | op :: ops => Safe n env op ∧ SafeRun n (BitVector.step env op).1 ops

/-! ### One operation -/

/-- A compressed vector and a plain one have the same bits. -/
structure Same (n : ℕ) (v : WAHVector) (p : BitVector) : Prop where
  represents : WAHVector.Represents n v p.bit
  sized : p.Sized n

variable {wenv : V → WAHVector} {penv : V → BitVector}

theorem same_update (hsame : ∀ x, Same n (wenv x) (penv x)) {v : WAHVector} {p : BitVector} (h : Same n v p) (z : V) :
    ∀ x, Same n (Function.update wenv z v x) (Function.update penv z p x) := by
  intro x
  by_cases hxz : x = z
  · subst hxz
    simpa using h
  · simpa [hxz] using hsame x

/-- The operations on two vectors, for a result with the `rem` of the size. -/
theorem pairwise_same (hn : 0 < n) (hbound : n < 2 ^ 30) {r v1 v2 : WAHVector} {p1 p2 : BitVector} (h1 : Same n v1 p1)
    (h2 : Same n v2 p2) (hr : r.rem = n % 31) (op : Pairwise)
    (hsafe : op = .or → ¬ WAHVector.OrTrap n p1.bit p2.bit) :
    ∃ v, (match op with
      | .and => WAHVector.doAnd r v1 v2
      | .or => WAHVector.doOr r v1 v2
      | .reset => WAHVector.doReset r v1 v2) = some v ∧
      WAHVector.Represents n v fun i => op.bit (p1.bit i) (p2.bit i) := by
  cases op with
  | and =>
    exact WAHVector.combine_represents WAHVector.groupOp_and hn hbound h1.represents h2.represents hr
      (WAHVector.clearing_safe WAHVector.groupOp_and Bool.false_and h1.represents h2.represents)
  | or =>
    exact WAHVector.combine_represents WAHVector.groupOp_or hn hbound h1.represents h2.represents hr
      (WAHVector.or_safe h1.represents h2.represents (hsafe rfl))
  | reset =>
    exact WAHVector.combine_represents WAHVector.groupOp_reset hn hbound h1.represents h2.represents hr
      (WAHVector.clearing_safe WAHVector.groupOp_reset (fun c => Bool.false_and (!c)) h1.represents h2.represents)

theorem applyOp_bits {p1 p2 : BitVector} (h1 : p1.Sized n) (h2 : p2.Sized n) (op : Pairwise) :
    (BitVector.applyOp op p1 p2).Sized n ∧
      ∀ i < n, op.bit (p1.bit i) (p2.bit i) = (BitVector.applyOp op p1 p2).bit i := by
  cases op with
  | and => exact ⟨h1.zip h2, fun _ hi => (BitVector.bit_zip h1 h2 hi).symm⟩
  | or => exact ⟨h1.zip h2, fun _ hi => (BitVector.bit_zip h1 h2 hi).symm⟩
  | reset => exact ⟨h1.applyReset h2, fun _ hi => (BitVector.bit_applyReset h1 h2 hi).symm⟩

theorem makeOp_bits {p1 p2 : BitVector} (h1 : p1.Sized n) (h2 : p2.Sized n) (op : Pairwise) :
    (BitVector.makeOp op p1 p2).Sized n ∧
      ∀ i < n, op.bit (p1.bit i) (p2.bit i) = (BitVector.makeOp op p1 p2).bit i := by
  cases op with
  | and => exact ⟨h1.zip h2, fun _ hi => (BitVector.bit_zip h1 h2 hi).symm⟩
  | or => exact ⟨h1.zip h2, fun _ hi => (BitVector.bit_zip h1 h2 hi).symm⟩
  | reset => exact ⟨h1.zip h2, fun _ hi => (BitVector.bit_zip h1 h2 hi).symm⟩

section

variable (hn : 0 < n) (hbound : n < 2 ^ 30) {v1 v2 : WAHVector} {p1 p2 : BitVector} (h1 : Same n v1 p1)
  (h2 : Same n v2 p2) (op : Pairwise)
include hn hbound h1 h2

theorem apply_same (hsafe : op = .or → ¬ WAHVector.OrTrap n p1.bit p2.bit) :
    ∃ v, WAHVector.applyOp op v1 v2 = some v ∧ Same n v (BitVector.applyOp op p1 p2) := by
  obtain ⟨v, hv, hrep⟩ := pairwise_same hn hbound h1 h2 h1.represents.rem op hsafe
  obtain ⟨hsized, hbits⟩ := applyOp_bits h1.sized h2.sized op
  refine ⟨v, ?_, hrep.congr hbits, hsized⟩
  cases op <;> exact hv

theorem make_same (hfull : n % 31 = 0) :
    ∃ v, WAHVector.makeOp op v1 v2 = some v ∧ Same n v (BitVector.makeOp op p1 p2) := by
  obtain ⟨v, hv, hrep⟩ := pairwise_same hn hbound h1 h2 (r := WAHVector.null) hfull.symm op
    fun _ htrap => htrap.part hfull
  obtain ⟨hsized, hbits⟩ := makeOp_bits h1.sized h2.sized op
  refine ⟨v, ?_, hrep.congr hbits, hsized⟩
  cases op <;> exact hv

end

theorem write_same (hbound : n < 4638219) {v : WAHVector} {p : BitVector} (h : Same n v p) (i : Fin n) (value : Bool)
    (hsafe : ¬ WAHVector.UpdateTrap n p.bit i value) :
    ∃ v', (if value then v.setBit i else v.clearBit i) = some v' ∧ Same n v' (p.setBit i value) := by
  obtain ⟨v', hv', hrep⟩ := WAHVector.update_represents h.represents i.isLt hbound hsafe
  refine ⟨v', ?_, hrep.congr fun k hk => ?_, BitVector.sized_setBit h.sized i value⟩
  · cases value <;> exact hv'
  · rw [BitVector.bit_setBit h.sized i.isLt, Function.update_apply]

theorem writeAll_same (hn : 0 < n) (hsmall : n < 31) {v : WAHVector} {p : BitVector} (h : Same n v p) (value : Bool) :
    Same n (if value then v.setAll else v.clearAll) (if value then p.setAll else p.clearAll) := by
  cases value with
  | true =>
    refine ⟨?_, h.sized.setAll⟩
    exact (WAHVector.fillFirst_represents h.represents hn hsmall true).congr fun i hi =>
      (BitVector.bit_setAll h.sized hi).symm
  | false =>
    refine ⟨?_, h.sized.clearAll⟩
    exact (WAHVector.fillFirst_represents h.represents hn hsmall false).congr fun i _ =>
      (BitVector.bit_clearAll i).symm

theorem not_same (hn : 0 < n) (hbound : n < 2 ^ 30) {r v : WAHVector} {p : BitVector} (h : Same n v p)
    (hr : r.rem = n % 31) : Same n (WAHVector.doNot r v) p.applyNot where
  represents := (WAHVector.doNot_represents hn hbound h.represents hr).congr fun _ hi =>
    (BitVector.bit_applyNot h.sized hi).symm
  sized := h.sized.applyNot

/-- A safe operation gives the same answer on both sides, and vectors with the same bits. -/
theorem step_same (hn : 0 < n) (hbound : n < 4638219) (hsame : ∀ x, Same n (wenv x) (penv x)) (op : Op n V)
    (hsafe : Safe n penv op) :
    ∃ wenv', WAHVector.step wenv op = some (wenv', (BitVector.step penv op).2) ∧
      ∀ x, Same n (wenv' x) ((BitVector.step penv op).1 x) := by
  have hbound' : n < 2 ^ 30 := by omega
  cases op with
  | write x i value =>
    obtain ⟨v, hv, h⟩ := write_same hbound (hsame x) i value hsafe
    exact ⟨_, by rw [WAHVector.step, hv]; rfl, same_update hsame h x⟩
  | writeAll x value =>
    exact ⟨_, rfl, same_update hsame (writeAll_same hn hsafe (hsame x) value) x⟩
  | apply op x y =>
    have hor : op = .or → ¬ WAHVector.OrTrap n (penv x).bit (penv y).bit := by
      rintro rfl
      exact hsafe
    obtain ⟨v, hv, h⟩ := apply_same hn hbound' (hsame x) (hsame y) op hor
    exact ⟨_, by rw [WAHVector.step, hv]; rfl, same_update hsame h x⟩
  | applyNot x =>
    exact ⟨_, rfl, same_update hsame (not_same hn hbound' (hsame x) (hsame x).represents.rem) x⟩
  | make op z x y =>
    obtain ⟨v, hv, h⟩ := make_same hn hbound' (hsame x) (hsame y) op hsafe
    exact ⟨_, by rw [WAHVector.step, hv]; rfl, same_update hsame h z⟩
  | makeNot z x =>
    have hfull : n % 31 = 0 := hsafe
    exact ⟨_, rfl, same_update hsame (not_same hn hbound' (hsame x) hfull.symm) z⟩
  | copy z x => exact ⟨_, rfl, same_update hsame (hsame x) z⟩
  | bit x i =>
    have hbit := WAHVector.bit_eq (hsame x).represents i.isLt hbound
    exact ⟨wenv, by rw [WAHVector.step, hbit]; rfl, hsame⟩
  | isEmpty x =>
    obtain ⟨r, hr, hiff⟩ := WAHVector.isEmpty_eq (hsame x).represents hn hsafe
    have heq : r = (penv x).isEmpty.1 := by
      rw [Bool.eq_iff_iff, hiff, BitVector.isEmpty_iff (hsame x).sized]
    have hmask : Same n (wenv x) (penv x).isEmpty.2 := by
      refine ⟨(hsame x).represents.congr fun i hi => ?_, (hsame x).sized.mask⟩
      exact (BitVector.bit_mask ((hsame x).sized.size.symm ▸ hi)).symm
    refine ⟨wenv, by rw [WAHVector.step, hr, heq]; rfl, fun y => ?_⟩
    have hupdate := same_update hsame hmask x y
    rwa [Function.update_eq_self] at hupdate
  | isFull x =>
    obtain ⟨r, hr, hiff⟩ := WAHVector.isFull_eq (hsame x).represents hn hsafe
    have heq : r = (penv x).isFull := by
      rw [Bool.eq_iff_iff, hiff, BitVector.isFull_iff (hsame x).sized]
    exact ⟨wenv, by rw [WAHVector.step, hr, heq]; rfl, hsame⟩
  | countOnes x =>
    have hcount : (wenv x).countOnes = (penv x).countOnes := by
      rw [WAHVector.countOnes_eq (hsame x).represents hn, BitVector.countOnes_eq (hsame x).sized hsafe]
    exact ⟨wenv, by rw [WAHVector.step, hcount]; rfl, hsame⟩

/-! ### Sequences of operations -/

theorem run_same (hn : 0 < n) (hbound : n < 4638219) (ops : List (Op n V)) (hsame : ∀ x, Same n (wenv x) (penv x))
    (hsafe : SafeRun n penv ops) : WAHVector.run wenv ops = some (BitVector.run penv ops) := by
  induction ops generalizing wenv penv with
  | nil => rfl
  | cons op ops ih =>
    obtain ⟨wenv', hstep, hsame'⟩ := step_same hn hbound hsame op hsafe.1
    rw [WAHVector.run, hstep]
    simp only [Option.bind_eq_bind, Option.bind_some, ih hsame' hsafe.2]
    rfl

/-- Every sequence of safe operations gives the same answers on compressed vectors as on plain ones, for the sizes
for which the division by 31 is exact. -/
theorem wah_refines_plain (n : ℕ) (hn : 0 < n) (hsize : ∀ k ≤ n, WAHVector.div k = k / 31) (V : Type) [DecidableEq V]
    (init : V → Bool) (ops : List (Op n V)) (hsafe : SafeRun n (fun x => BitVector.make n (init x)) ops) :
    WAHVector.run (fun x => WAHVector.make n (init x)) ops =
      some (BitVector.run (fun x => BitVector.make n (init x)) ops) := by
  have hbound := WAHVector.div_exact_iff.mp hsize
  refine run_same hn hbound ops (fun x => ⟨?_, BitVector.sized_make n (init x)⟩) hsafe
  exact (WAHVector.make_represents hn hbound (init x)).congr fun i hi => (BitVector.bit_make hi).symm

/-- Two bits of a vector of 40 bits. -/
theorem wah_refines_plain_forty :
    WAHVector.run (fun _ : Unit => WAHVector.make 40 false)
        ([Op.write () ⟨3, by decide⟩ true, Op.write () ⟨35, by decide⟩ true, Op.applyNot (), Op.bit () ⟨35, by decide⟩] :
          List (Op 40 Unit)) =
      some (BitVector.run (fun _ : Unit => BitVector.make 40 false)
        ([Op.write () ⟨3, by decide⟩ true, Op.write () ⟨35, by decide⟩ true, Op.applyNot (), Op.bit () ⟨35, by decide⟩] :
          List (Op 40 Unit))) := by
  refine wah_refines_plain 40 (by decide) (fun k hk => WAHVector.div_eq (by omega)) Unit (fun _ => false) _ ?_
  refine ⟨fun htrap => ?_, fun htrap => ?_, trivial, trivial, trivial⟩
  · exact absurd htrap.last (by decide)
  · exact absurd (htrap.others 0 (by decide) (by decide)) (by decide)

/-- In a vector of 32 bits, setting the bits of index 30 and 31 sets the bit of index 0: the last group becomes
uniform after a literal whose top bit is set. -/
theorem wah_sets_other_bit :
    WAHVector.run (fun _ : Unit => WAHVector.make 32 false)
        ([Op.write () ⟨30, by decide⟩ true, Op.write () ⟨31, by decide⟩ true, Op.bit () ⟨0, by decide⟩] :
          List (Op 32 Unit)) =
      some [.none, .none, .bool true] ∧
    BitVector.run (fun _ : Unit => BitVector.make 32 false)
        ([Op.write () ⟨30, by decide⟩ true, Op.write () ⟨31, by decide⟩ true, Op.bit () ⟨0, by decide⟩] :
          List (Op 32 Unit)) =
      [.none, .none, .bool false] := by
  decide

end Otawa.Elm
