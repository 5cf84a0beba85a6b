import Mathlib.Tactic.Ring

/-!
# Memories of bytes

Numbers are stored in bytes by an address of `w` bits, in one of two orders. `read_store` reads a number back
that was stored at the same address with the same size; `read_congr` says that only the bytes in between count,
which is what a store elsewhere leaves alone (`store_of_not_within`).
-/

namespace Otawa.Bytes

/-- The `i`th byte of a number, from the least one. -/
def digit (x i : ℕ) : BitVec 8 := BitVec.ofNat 8 (x / 256 ^ i)

/-- The number of the first `n` bytes. -/
def number : ℕ → (ℕ → BitVec 8) → ℕ
  | 0, _ => 0
  | n + 1, d => (d 0).toNat + 256 * number n fun i => d (i + 1)

theorem number_congr {n : ℕ} {d d' : ℕ → BitVec 8} (same : ∀ i < n, d i = d' i) : number n d = number n d' := by
  induction n generalizing d d' with
  | zero => rfl
  | succ n ih =>
    rw [number, number, same 0 n.succ_pos, ih fun i lt => same (i + 1) (Nat.succ_lt_succ lt)]

theorem digit_succ (x i : ℕ) : digit x (i + 1) = digit (x / 256) i := by
  rw [digit, digit, Nat.pow_succ', Nat.div_div_eq_div_mul]

theorem number_digit (x n : ℕ) : number n (digit x) = x % 256 ^ n := by
  induction n generalizing x with
  | zero => rw [number, Nat.pow_zero, Nat.mod_one]
  | succ n ih =>
    have first : (digit x 0).toNat = x % 256 := by
      rw [digit, Nat.pow_zero, Nat.div_one, BitVec.toNat_ofNat]
    have rest : number n (fun i => digit x (i + 1)) = x / 256 % 256 ^ n := by
      simp only [digit_succ]
      exact ih (x / 256)
    rw [number, first, rest, Nat.pow_succ', Nat.mod_mul]

inductive Order where
  | little
  | big
  deriving DecidableEq, Repr

/-- Where the `i`th byte of `n` is. -/
def Order.place : Order → ℕ → ℕ → ℕ
  | .little, _, i => i
  | .big, n, i => n - 1 - i

variable {w : ℕ} {o : Order} {n i : ℕ} {a b : BitVec w}

theorem Order.place_lt (lt : i < n) : o.place n i < n := by
  cases o with
  | little => exact lt
  | big =>
    rw [place]
    omega

theorem Order.place_place (lt : i < n) : o.place n (o.place n i) = i := by
  cases o with
  | little => rfl
  | big =>
    rw [place, place]
    omega

abbrev Memory (w : ℕ) := BitVec w → BitVec 8

/-- The byte at `b` is one of the `n` bytes from `a` on, which may go around the end of the addresses. -/
abbrev Within (a : BitVec w) (n : ℕ) (b : BitVec w) : Prop := (b - a).toNat < n

def Memory.read (o : Order) (m : Memory w) (a : BitVec w) (n : ℕ) : ℕ :=
  number n fun i => m (a + BitVec.ofNat w (o.place n i))

def Memory.store (o : Order) (m : Memory w) (a : BitVec w) (n x : ℕ) : Memory w := fun b =>
  if Within a n b then digit x (o.place n (b - a).toNat) else m b

theorem toNat_place (le : n ≤ 2 ^ w) (lt : i < n) : (a + BitVec.ofNat w i - a).toNat = i := by
  have cancel : a + BitVec.ofNat w i - a = BitVec.ofNat w i := by
    rw [BitVec.add_comm, BitVec.add_sub_cancel]
  rw [cancel, BitVec.toNat_ofNat, Nat.mod_eq_of_lt (lt.trans_le le)]

variable {m m' : Memory w} {x : ℕ}

theorem Memory.store_of_not_within (out : ¬ Within a n b) : m.store o a n x b = m b := if_neg out

theorem Memory.read_congr (le : n ≤ 2 ^ w) (same : ∀ b, Within a n b → m b = m' b) :
    m.read o a n = m'.read o a n := by
  apply number_congr
  intro i lt
  apply same
  rw [Within, toNat_place le (Order.place_lt lt)]
  exact Order.place_lt lt

theorem Memory.read_store (le : n ≤ 2 ^ w) : (m.store o a n x).read o a n = x % 256 ^ n := by
  rw [← number_digit x n]
  apply number_congr
  intro i lt
  have place := toNat_place (a := a) le (Order.place_lt (o := o) lt)
  have within : Within a n (a + BitVec.ofNat w (o.place n i)) := by
    rw [Within, place]
    exact Order.place_lt lt
  rw [Memory.store, if_pos within, place, Order.place_place lt]

/-- The first byte is one of them. -/
theorem within_self (pos : 0 < n) : Within a n a := by
  rw [Within, BitVec.sub_self, BitVec.toNat_zero]
  exact pos

end Otawa.Bytes
