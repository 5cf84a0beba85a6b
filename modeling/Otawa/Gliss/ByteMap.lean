import Otawa.Gliss.FastMem

/-!
# Memories as byte maps

What the accesses are for: a memory is a map from the 32-bit addresses to bytes, a transfer accesses one byte after
another, and a number is made of the bytes in the order of the target.
-/

namespace Otawa.Gliss

open Bytes

abbrev ByteMap := Bytes.Memory 32

namespace ByteMap

/-- The bytes written one after another. -/
def writeBytes (m : ByteMap) (a : BitVec 32) : List Byte → ByteMap
  | [] => m
  | x :: bytes => writeBytes (fun b => if b = a then x else m b) (a + 1) bytes

/-- The bytes read one after another. -/
def readBytes (m : ByteMap) (a : BitVec 32) (n : ℕ) : List Byte :=
  (List.range n).map fun i => m (a + BitVec.ofNat 32 i)

variable {m : ByteMap} {a b : BitVec 32} {l : List Byte}

theorem writeBytes_cons (m : ByteMap) (a : BitVec 32) (x : Byte) (l : List Byte) :
    m.writeBytes a (x :: l) = writeBytes (fun b => if b = a then x else m b) (a + 1) l := rfl

theorem writeBytes_append (m : ByteMap) (a : BitVec 32) (l l' : List Byte) :
    m.writeBytes a (l ++ l') = (m.writeBytes a l).writeBytes (a + BitVec.ofNat 32 l.length) l' := by
  induction l generalizing m a with
  | nil =>
    rw [List.nil_append, List.length_nil, BitVec.add_zero]
    rfl
  | cons x l ih =>
    have haddr : a + 1 + BitVec.ofNat 32 l.length = a + BitVec.ofNat 32 (l.length + 1) := by
      rw [BitVec.add_assoc, Nat.add_comm l.length 1, BitVec.ofNat_add]
      rfl
    rw [List.cons_append, List.length_cons, writeBytes_cons, writeBytes_cons, ih, haddr]

/-- What a transfer of no more bytes than there are addresses leaves at an address. -/
theorem writeBytes_apply (h : l.length ≤ 2 ^ 32) :
    m.writeBytes a l b = if (b - a).toNat < l.length then l.getD (b - a).toNat 0 else m b := by
  induction l generalizing m a with
  | nil => rfl
  | cons x l ih =>
    rw [List.length_cons] at h ⊢
    rw [writeBytes_cons, ih (Nat.le_of_succ_le h)]
    by_cases hba : b = a
    · subst hba
      have hlast : ¬ (b - (b + 1)).toNat < l.length := by
        have hone : (b - (b + 1)).toNat = 2 ^ 32 - 1 := by bv_omega
        omega
      have hzero : (b - b).toNat = 0 := by bv_omega
      rw [if_neg hlast, if_pos rfl, hzero, if_pos (Nat.succ_pos _)]
      rfl
    · have hsucc : (b - a).toNat = (b - (a + 1)).toNat + 1 := by bv_omega
      rw [hsucc, if_neg hba]
      by_cases hlt : (b - (a + 1)).toNat < l.length
      · rw [if_pos hlt, if_pos (Nat.succ_lt_succ hlt)]
        rfl
      · rw [if_neg hlt, if_neg fun h => hlt (Nat.lt_of_succ_lt_succ h)]

theorem readBytes_add (m : ByteMap) (a : BitVec 32) (n k : ℕ) :
    m.readBytes a (n + k) = m.readBytes a n ++ m.readBytes (a + BitVec.ofNat 32 n) k := by
  unfold readBytes
  rw [List.range_add, List.map_append, List.map_map]
  refine congrArg _ (List.map_congr_left fun i _ => ?_)
  rw [Function.comp_apply, BitVec.ofNat_add, BitVec.add_assoc]

end ByteMap

/-! ### Numbers -/

variable {o host target : Order} {n x : ℕ} {bytes : List Byte}

theorem reverse_bytesOf (h : o ≠ target) : (bytesOf o n x).reverse = bytesOf target n x := by
  refine List.ext_getElem (by simp [bytesOf]) fun i hi _ => ?_
  simp only [bytesOf, List.getElem_reverse, List.getElem_map, List.getElem_range, List.length_map, List.length_range]
  simp only [bytesOf, List.length_reverse, List.length_map, List.length_range] at hi
  cases o <;> cases target <;> first | exact absurd rfl h | skip
  · rfl
  · simp only [Order.place]
    congr 1
    omega

/-- A number is written in the order of the target. -/
theorem invert_bytesOf (host target : Order) (n x : ℕ) : invert host target (bytesOf host n x) = bytesOf target n x := by
  unfold invert
  split
  · rename_i heq
    rw [heq]
  · rename_i hne
    exact reverse_bytesOf hne

/-- A number is read in the order of the target. -/
theorem numberOf_invert (host target : Order) (bytes : List Byte) :
    numberOf host (invert host target bytes) = numberOf target bytes := by
  unfold invert
  split
  · rename_i heq
    rw [heq]
  · rename_i hne
    unfold numberOf
    rw [List.length_reverse]
    refine number_congr fun i hi => ?_
    have hplace : host.place bytes.length i = bytes.length - 1 - target.place bytes.length i := by
      cases host <;> cases target <;> first | exact absurd rfl hne | skip
      · simp only [Order.place]
        omega
      · rfl
    have hlt := Order.place_lt (o := target) hi
    rw [hplace, List.getD_eq_getElem?_getD, List.getD_eq_getElem?_getD, List.getElem?_reverse (by omega)]
    congr 2
    omega

/-- The bytes of a transfer make the number at its address. -/
theorem numberOf_readBytes (o : Order) (m : ByteMap) (a : BitVec 32) (n : ℕ) :
    numberOf o (m.readBytes a n) = m.read o a n := by
  have hlength : (m.readBytes a n).length = n := by simp [ByteMap.readBytes]
  unfold numberOf Bytes.Memory.read
  rw [hlength]
  refine number_congr fun i hi => ?_
  have hlt := Order.place_lt (o := o) hi
  simp [ByteMap.readBytes, hlt]

end Otawa.Gliss
