import Otawa.Lib.Bytes
import Otawa.Stack.Operators
import Otawa.Stack.State
import Mathlib.Data.List.TakeWhile

/-!
# Memory in the states of the stack analysis

A run stores words in a memory of bytes and in the states side by side. `last` says of each byte which store
wrote it last, and no store where the byte is as at the start.

`set` knows the address of a store and not its size, and a cell that it drops looks like a cell that was never
written. `get_sound` is for the contents that are as one store left them, or as they were at the start.
-/

namespace Otawa.Stack

open Bytes (Order Within)
open Clp (Word)

namespace State

variable {s : State} {x v : Value}

theorem not_bot (hs : s.first = .top) : s.first ≠ .bot := by
  rw [hs]
  decide

/-- A store leaves an address bound to what it was bound to, unless it is the address of the store. -/
theorem binding_of_set_ne {addr val : Value} (hs : s.first = .top) (hne : x ≠ addr)
    (h : (s.set addr val).binding x = some v) : s.binding x = some v := by
  by_cases haddr : addr.kind = .all
  · exact State.binding_set_unknown haddr h
  · rw [State.binding_set (not_bot hs) haddr, if_neg hne] at h
    exact h

/-- A store at an unknown address leaves no constant address. -/
theorem rank_of_set_unknown {addr val : Value} (hs : s.first = .top) (haddr : addr.kind = .all)
    (h : (s.set addr val).binding x = some v) : x.kind.rank ≤ Kind.sp.rank := by
  unfold State.set State.binding at h
  rw [if_neg (not_bot hs), if_pos haddr] at h
  have hmem := (Cells.find_eq_some_iff (s.sorted.sublist (List.takeWhile_sublist _))).mp h
  have hrank := List.mem_takeWhile_imp hmem
  exact of_decide_eq_true hrank

/-- An unknown address is not bound, and the address of a store is bound to the value of the store. -/
theorem bound_of_set_self {val : Value} (hs : s.first = .top) (h : (s.set x val).binding x = some v) :
    x.kind ≠ .all ∧ v = val ∧ v.kind ≠ .all := by
  have hx : x.kind ≠ .all := by
    intro hx
    have hrank := rank_of_set_unknown hs hx h
    rw [hx] at hrank
    exact absurd hrank (by decide)
  rw [State.binding_set (not_bot hs) hx, if_pos rfl] at h
  obtain ⟨rfl, hkept⟩ := State.kept_eq_some.mp h
  exact ⟨hx, rfl, hkept⟩

theorem kept_eq_none {val : Value} : kept val = none ↔ val.kind = .all := by
  unfold kept
  split
  case isTrue htop => exact iff_of_true rfl htop
  case isFalse htop => exact iff_of_false (Option.some_ne_none val) htop

end State

open Value State

structure Machine where
  regs : Word → Word
  mem : Bytes.Memory 32

/-- A store of the low bytes of a word. -/
structure Write where
  addr : Value
  size : ℕ
  word : Word

/-- The last stores after a store. -/
def Write.note (st : Write) (a : Word) (last : Word → Option Write) : Word → Option Write := fun b =>
  if Within a st.size b then some st else last b

/-- The image, the initial stack pointer and the order of the bytes. -/
structure Platform where
  proc : Process
  sp0 : Word
  order : Order

/-- The sizes of the semantic types. -/
abbrev IsSize (n : ℕ) : Prop := 0 < n ∧ n ≤ 8

namespace Platform

variable (c : Platform)

def content (m : Machine) (a : Word) (n : ℕ) : Word :=
  BitVec.ofNat 32 (m.mem.read c.order a n)

/-- `get` looks for the content in the image, when the state does not bind the address. -/
def FromImage (x : Value) (n : ℕ) : Prop :=
  x.kind = .cst ∧ c.proc.contains x.val = true ∧ (n = 1 ∨ n = 2 ∨ n = 4)

variable {c} {m : Machine} {s : State} {a : Word} {n : ℕ} {x v : Value}

theorem size_le (hn : IsSize n) : n ≤ 2 ^ 32 :=
  hn.2.trans (by decide)

theorem content_congr {m' : Machine} (hn : IsSize n) (hsame : ∀ b, Within a n b → m.mem b = m'.mem b) :
    c.content m a n = c.content m' a n := by
  unfold content
  rw [Bytes.Memory.read_congr (size_le hn) hsame]

/-- A word that fits the size is read back. -/
theorem content_store {w : Word} (hn : IsSize n) (hfit : w.toNat < 256 ^ n) :
    c.content { m with mem := m.mem.store c.order a n w.toNat } a n = w := by
  unfold content
  rw [Bytes.Memory.read_store (size_le hn), Nat.mod_eq_of_lt hfit]
  rw [BitVec.ofNat_toNat, BitVec.setWidth_eq]

theorem get_of_binding (hv : s.binding x = some v) (n : ℕ) : s.get c.proc x n = v := by
  rw [State.get, hv]

theorem get_of_image (hnone : s.binding x = none) (himage : c.FromImage x n) :
    s.get c.proc x n = .cst (c.proc.get x.val n) := by
  obtain ⟨hcst, hcontains, hsize⟩ := himage
  rw [State.get, hnone]
  simp only [State.fromImage, if_pos (And.intro hcst hcontains), if_pos hsize]

theorem get_of_not_image (hnone : s.binding x = none) (himage : ¬ c.FromImage x n) :
    s.get c.proc x n = s.first := by
  rw [State.get, hnone]
  by_cases hcst : x.kind = .cst ∧ c.proc.contains x.val = true
  · have hsize : ¬ (n = 1 ∨ n = 2 ∨ n = 4) := fun hsize => himage ⟨hcst.1, hcst.2, hsize⟩
    simp only [State.fromImage, if_pos hcst, if_neg hsize]
  · simp only [if_neg hcst]

theorem not_image_reg {r : Word} (hr : 0 ≤ r.toInt) : ¬ c.FromImage (.reg r) n := by
  rintro ⟨hcst, -⟩
  rw [kind_reg hr] at hcst
  cases hcst

end Platform

/-- What a run starts from: the platform and the initial state, with the sizes of the contents it binds. -/
structure Start extends Platform where
  init : State
  sizes : Value → ℕ

open Platform

namespace Start

variable (c : Start)

/-- The machine has the words of the initial state and of the image. -/
structure Consistent (m : Machine) : Prop where
  full : c.init.first = .top
  regs : ∀ r, 0 ≤ r.toInt → m.regs r ∈ (c.init.get c.proc (.reg r) 0).gamma c.sp0
  cells : ∀ x v a, c.init.binding x = some v → a ∈ x.gamma c.sp0 → c.content m a (c.sizes x) ∈ v.gamma c.sp0
  image : ∀ x n, c.FromImage x n → c.content m x.val n = c.proc.get x.val n

/-- The runs from a machine: the state, the last stores and the machine. A join is with any state. -/
inductive Run (m₀ : Machine) : State → (Word → Option Write) → Machine → Prop where
  | start : Run m₀ c.init (fun _ => none) m₀
  | setReg {s last m r w v} : Run m₀ s last m → 0 ≤ r.toInt → w ∈ Value.gamma c.sp0 v →
      Run m₀ (s.set (.reg r) v) last { m with regs := Function.update m.regs r w }
  | store {s last m a w addr v n} : Run m₀ s last m → a ∈ Value.gamma c.sp0 addr → w ∈ Value.gamma c.sp0 v →
      IsSize n →
      Run m₀ (s.set addr v) ((Write.mk addr n w).note a last)
        { m with mem := m.mem.store c.order a n w.toNat }
  | joinLeft {s last m} (state : State) : Run m₀ s last m → state.Valid → Run m₀ (s.join state) last m
  | joinRight {s last m} (state : State) : Run m₀ s last m → state.Valid → Run m₀ (state.join s) last m

/-- No byte of the content was written. -/
def Unwritten (last : Word → Option Write) (a : Word) (n : ℕ) : Prop :=
  ∀ b, Within a n b → last b = none

/-- Each byte of the content was last written by a store of this size at this address, of a word of this size. -/
def WrittenAt (last : Word → Option Write) (x : Value) (a : Word) (n : ℕ) : Prop :=
  ∀ b, Within a n b → ∃ w, last b = some w ∧ w.addr = x ∧ w.size = n ∧ w.word.toNat < 256 ^ n

/-- The content is as at the start and has its size there, or the state binds the address and the content is
from stores at it, or `get` has nothing to look for it in. -/
def Intact (s : State) (last : Word → Option Write) (x : Value) (a : Word) (n : ℕ) : Prop :=
  Unwritten last a n ∧ (s.binding x ≠ none → n = c.sizes x) ∨
    s.binding x ≠ none ∧ WrittenAt last x a n ∨
    s.binding x = none ∧ ¬ c.FromImage x n

/-- What the state says of a machine and its last stores. -/
structure Covers (m₀ : Machine) (s : State) (last : Word → Option Write) (m : Machine) : Prop where
  first : s.first = .top
  regs : ∀ r v, 0 ≤ r.toInt → s.binding (.reg r) = some v → m.regs r ∈ v.gamma c.sp0
  same : ∀ b, last b = none → m.mem b = m₀.mem b
  initial : ∀ x v a n, s.binding x = some v → a ∈ x.gamma c.sp0 → IsSize n → Unwritten last a n →
    ∃ v', c.init.binding x = some v' ∧ v'.gamma c.sp0 ⊆ v.gamma c.sp0
  written : ∀ x v a n, s.binding x = some v → a ∈ x.gamma c.sp0 → IsSize n → WrittenAt last x a n →
    c.content m a n ∈ v.gamma c.sp0

variable {c} {m₀ m : Machine} {s : State} {last : Word → Option Write} {a : Word} {n : ℕ} {x v : Value}

theorem note_of_within {st : Write} {b : Word} (hin : Within a st.size b) : st.note a last b = some st :=
  if_pos hin

theorem note_of_not_within {st : Write} {b : Word} (hout : ¬ Within a st.size b) : st.note a last b = last b :=
  if_neg hout

theorem covers_start (h : c.Consistent m) : c.Covers m c.init (fun _ => none) m where
  first := h.full
  regs r v hr hv := by
    have hreg := h.regs r hr
    rw [State.get, hv] at hreg
    exact hreg
  same _ _ := rfl
  initial x v a n hv _ _ _ := ⟨v, hv, subset_rfl⟩
  written x v a n _ _ hn hwritten := by
    obtain ⟨w, hw, -⟩ := hwritten a (Bytes.within_self hn.1)
    cases hw

theorem Covers.setReg {r w : Word} {val : Value} (h : c.Covers m₀ s last m) (hr : 0 ≤ r.toInt)
    (hw : w ∈ val.gamma c.sp0) :
    c.Covers m₀ (s.set (.reg r) val) last { m with regs := Function.update m.regs r w } := by
  have hne : ∀ {x : Value} {a : Word}, a ∈ x.gamma c.sp0 → x ≠ .reg r := by
    rintro x a ha rfl
    rw [gamma_reg hr] at ha
    exact ha
  refine ⟨?_, ?_, h.same, ?_, ?_⟩
  · rw [State.first_set]
    exact h.first
  · intro r' v hr' hv
    show Function.update m.regs r w r' ∈ _
    by_cases heq : r' = r
    · subst heq
      rw [Function.update_self, (bound_of_set_self h.first hv).2.1]
      exact hw
    · have hreg : Value.reg r' ≠ .reg r := fun h => heq (congrArg Value.val h)
      rw [Function.update_of_ne heq]
      exact h.regs r' v hr' (binding_of_set_ne h.first hreg hv)
  · intro x v a n hv ha
    exact h.initial x v a n (binding_of_set_ne h.first (hne ha) hv) ha
  · intro x v a n hv ha
    exact h.written x v a n (binding_of_set_ne h.first (hne ha) hv) ha

theorem Covers.store {a w : Word} {addr val : Value} {k : ℕ} (h : c.Covers m₀ s last m)
    (ha : a ∈ addr.gamma c.sp0) (hw : w ∈ val.gamma c.sp0) (hk : IsSize k) :
    c.Covers m₀ (s.set addr val) ((Write.mk addr k w).note a last)
      { m with mem := m.mem.store c.order a k w.toNat } := by
  refine ⟨?_, ?_, ?_, ?_, ?_⟩
  · rw [State.first_set]
    exact h.first
  · intro r v hr hv
    have hne : Value.reg r ≠ addr := by
      rintro rfl
      rw [gamma_reg hr] at ha
      exact ha
    exact h.regs r v hr (binding_of_set_ne h.first hne hv)
  · intro b hb
    by_cases hin : Within a k b
    · rw [note_of_within hin] at hb
      cases hb
    · rw [note_of_not_within hin] at hb
      exact (Bytes.Memory.store_of_not_within hin).trans (h.same b hb)
  · intro x v a' n hv ha' hn hunwritten
    have hout : ∀ b, Within a' n b → ¬ Within a k b := by
      intro b hb hin
      have hlast := hunwritten b hb
      rw [note_of_within hin] at hlast
      cases hlast
    have hne : x ≠ addr := by
      rintro rfl
      obtain ⟨hx, -⟩ := bound_of_set_self h.first hv
      have hself := Bytes.within_self (a := a') hn.1
      refine hout a' hself ?_
      rw [gamma_eq hx ha' ha]
      exact Bytes.within_self hk.1
    refine h.initial x v a' n (binding_of_set_ne h.first hne hv) ha' hn fun b hb => ?_
    have hlast := hunwritten b hb
    rw [note_of_not_within (hout b hb)] at hlast
    exact hlast
  · intro x v a' n hv ha' hn hwritten
    by_cases heq : x = addr
    case pos =>
      subst heq
      obtain ⟨hx, rfl, -⟩ := bound_of_set_self h.first hv
      obtain rfl := gamma_eq hx ha ha'
      obtain ⟨st, hst, -, hsize, hfit⟩ := hwritten a (Bytes.within_self hn.1)
      rw [note_of_within (Bytes.within_self hk.1)] at hst
      cases hst
      obtain rfl : k = n := hsize
      rw [content_store hn hfit]
      exact hw
    case neg =>
      have hout : ∀ b, Within a' n b → ¬ Within a k b := by
        intro b hb hin
        obtain ⟨st, hst, haddr, -⟩ := hwritten b hb
        rw [note_of_within hin] at hst
        cases hst
        exact heq haddr.symm
      have hcontent : c.content { m with mem := m.mem.store c.order a k w.toNat } a' n = c.content m a' n :=
        content_congr hn fun b hb => Bytes.Memory.store_of_not_within (hout b hb)
      rw [hcontent]
      refine h.written x v a' n (binding_of_set_ne h.first heq hv) ha' hn fun b hb => ?_
      have hlast := hwritten b hb
      rw [note_of_not_within (hout b hb)] at hlast
      exact hlast

/-- A state that binds fewer addresses, to more words, covers what a state covers. -/
theorem Covers.mono {s' : State} (h : c.Covers m₀ s last m) (hfirst : s'.first = .top)
    (hless : ∀ x v, s'.binding x = some v → ∃ v', s.binding x = some v' ∧ v'.gamma c.sp0 ⊆ v.gamma c.sp0) :
    c.Covers m₀ s' last m where
  first := hfirst
  regs r v hr hv := by
    obtain ⟨v', hv', hsub⟩ := hless _ v hv
    exact hsub (h.regs r v' hr hv')
  same := h.same
  initial x v a n hv ha hn hunwritten := by
    obtain ⟨v', hv', hsub⟩ := hless x v hv
    obtain ⟨v₀, hv₀, hsub₀⟩ := h.initial x v' a n hv' ha hn hunwritten
    exact ⟨v₀, hv₀, hsub₀.trans hsub⟩
  written x v a n hv ha hn hwritten := by
    obtain ⟨v', hv', hsub⟩ := hless x v hv
    exact hsub (h.written x v' a n hv' ha hn hwritten)

theorem Covers.joinLeft {state : State} (h : c.Covers m₀ s last m) : c.Covers m₀ (s.join state) last m := by
  by_cases hbot : state.first = .bot
  case pos =>
    rw [State.join, if_pos hbot]
    exact h
  case neg =>
    refine h.mono ((State.first_join (not_bot h.first)).trans h.first) fun x v hv => ?_
    rw [State.binding_join (not_bot h.first) hbot] at hv
    obtain ⟨v₁, hv₁, hv⟩ := Option.bind_eq_some_iff.mp hv
    obtain ⟨v₂, -, hv⟩ := Option.bind_eq_some_iff.mp hv
    obtain ⟨rfl, -⟩ := State.kept_eq_some.mp hv
    exact ⟨v₁, hv₁, gamma_join_left⟩

theorem Covers.joinRight {state : State} (h : c.Covers m₀ s last m) (hvalid : state.Valid) :
    c.Covers m₀ (state.join s) last m := by
  by_cases hbot : state.first = .bot
  case pos =>
    rw [State.join, if_neg (not_bot h.first), if_pos hbot]
    exact h
  case neg =>
    have hfirst : (state.join s).first = .top := (State.first_join hbot).trans (hvalid.first.resolve_left hbot)
    refine h.mono hfirst fun x v hv => ?_
    rw [State.binding_join hbot (not_bot h.first)] at hv
    obtain ⟨v₁, -, hv⟩ := Option.bind_eq_some_iff.mp hv
    obtain ⟨v₂, hv₂, hv⟩ := Option.bind_eq_some_iff.mp hv
    obtain ⟨rfl, -⟩ := State.kept_eq_some.mp hv
    exact ⟨v₂, hv₂, gamma_join_right⟩

theorem covers_of_run (h₀ : c.Consistent m₀) (run : c.Run m₀ s last m) : c.Covers m₀ s last m := by
  induction run with
  | start => exact covers_start h₀
  | setReg _ hr hw ih => exact ih.setReg hr hw
  | store _ ha hw hk ih => exact ih.store ha hw hk
  | joinLeft state _ _ ih => exact ih.joinLeft
  | joinRight state _ hvalid ih => exact ih.joinRight hvalid

/-- What is not written is as at the start. -/
theorem Covers.content_eq (h : c.Covers m₀ s last m) (hn : IsSize n) (hunwritten : Unwritten last a n) :
    c.content m a n = c.content m₀ a n :=
  content_congr hn fun b hb => h.same b (hunwritten b hb)

/-- `get` is right about the registers and about the contents that are as one store left them or as they were
at the start. -/
theorem get_sound (h₀ : c.Consistent m₀) (run : c.Run m₀ s last m) :
    (∀ r n, 0 ≤ r.toInt → m.regs r ∈ (s.get c.proc (.reg r) n).gamma c.sp0) ∧
      ∀ x a n, a ∈ x.gamma c.sp0 → IsSize n → c.Intact s last x a n →
        c.content m a n ∈ (s.get c.proc x n).gamma c.sp0 := by
  have hcovers := covers_of_run h₀ run
  have htop : s.first.gamma c.sp0 = Set.univ := by rw [hcovers.first, gamma_all rfl]
  constructor
  · intro r n hr
    cases hv : s.binding (.reg r) with
    | some v =>
      rw [get_of_binding hv]
      exact hcovers.regs r v hr hv
    | none =>
      rw [get_of_not_image hv (not_image_reg hr), htop]
      exact Set.mem_univ _
  · rintro x a n ha hn (⟨hunwritten, hsize⟩ | ⟨hbound, hwritten⟩ | ⟨hnone, himage⟩)
    · cases hv : s.binding x with
      | some v =>
        have hne : s.binding x ≠ none := by rw [hv]; exact Option.some_ne_none v
        obtain rfl := hsize hne
        obtain ⟨v', hv', hsub⟩ := hcovers.initial x v a _ hv ha hn hunwritten
        rw [get_of_binding hv, hcovers.content_eq hn hunwritten]
        exact hsub (h₀.cells x v' a hv' ha)
      | none =>
        by_cases himage : c.FromImage x n
        · have haddr : a = x.val := by
            rw [gamma_cst himage.1] at ha
            exact ha
          rw [get_of_image hv himage, hcovers.content_eq hn hunwritten, haddr, h₀.image x n himage]
          exact gamma_cst (v := .cst _) rfl ▸ rfl
        · rw [get_of_not_image hv himage, htop]
          exact Set.mem_univ _
    · obtain ⟨v, hv⟩ := Option.ne_none_iff_exists'.mp hbound
      rw [get_of_binding hv]
      exact hcovers.written x v a n hv ha hn hwritten
    · rw [get_of_not_image hnone himage, htop]
      exact Set.mem_univ _

/-- The image has the number 5 at the address 16. -/
def imageOne : Start :=
  ⟨⟨⟨fun k => k = 16, fun _ _ => 5⟩, 0, .little⟩, .full, fun _ => 4⟩

def loaded : Machine :=
  ⟨fun _ => 0, fun b => if b = 16 then 5 else 0⟩

theorem consistent_one : imageOne.Consistent loaded where
  full := rfl
  regs r hr := by
    rw [get_of_not_image rfl (not_image_reg hr)]
    exact Set.mem_univ _
  cells _ _ _ h := nomatch h
  image x n h := by
    obtain ⟨-, hcontains, hsize⟩ := h
    obtain hval : x.val = 16 := of_decide_eq_true hcontains
    rw [hval]
    obtain rfl | rfl | rfl := hsize <;> decide

/-- The machine after a store of 7 at the address 16. -/
def rewritten : Machine :=
  { loaded with mem := loaded.mem.store .little 16 4 7 }

theorem get_sound_one : imageOne.content rewritten 16 4 ∈
    ((State.full.set (.cst 16) (.cst 7)).get imageOne.proc (.cst 16) 4).gamma 0 := by
  have run : imageOne.Run loaded (State.full.set (.cst 16) (.cst 7)) ((Write.mk (.cst 16) 4 7).note 16 fun _ => none)
      rewritten := .store (w := 7) .start rfl rfl ⟨by decide, by decide⟩
  refine (get_sound consistent_one run).2 (.cst 16) 16 4 rfl ⟨by decide, by decide⟩ (.inr (.inl ⟨by decide, ?_⟩))
  intro b hb
  exact ⟨_, note_of_within hb, rfl, rfl, by decide⟩

/-- After a store at an unknown address, the content of the image is still given for an address of the image. -/
theorem unknown_store_not_seen : ¬ ∀ (c : Start) (m₀ : Machine), c.Consistent m₀ → ∀ s last m, c.Run m₀ s last m →
    ∀ x a n, a ∈ x.gamma c.sp0 → IsSize n → c.content m a n ∈ (s.get c.proc x n).gamma c.sp0 := by
  intro hsound
  have hsize : IsSize 4 := ⟨by decide, by decide⟩
  have run : imageOne.Run loaded (State.full.set .top (.cst 7)) ((Write.mk .top 4 7).note 16 fun _ => none)
      rewritten := .store (w := 7) .start (Set.mem_univ _) rfl hsize
  have hmem := hsound imageOne loaded consistent_one _ _ _ run (.cst 16) 16 4 rfl hsize
  rw [show imageOne.content rewritten 16 4 = 7 from content_store (w := 7) hsize (by decide)] at hmem
  exact absurd (show (7 : Word) = 5 from hmem) (by decide)

end Start

end Otawa.Stack
