import Mathlib.Data.List.Nodup

/-!
# Control flow graphs

A `CFG` is one graph of a collection: `B` and `E` have the blocks and the edges of the whole workspace, `bbs`
the blocks of this graph. CALL edges lead to the entry of another graph, or of the same one, and are no part
of the flow of the graph.
-/

namespace Otawa

/-- `Edge::kind_t`. -/
inductive EdgeKind where
  | none
  | taken
  | notTaken
  | call
  | virtual
  | virtualCall
  | virtualReturn
  | exnCall
  | exnReturn
  deriving DecidableEq, Repr

structure CFG (B E : Type) where
  bbs : List B
  entry : B
  exit : B
  number : B → ℕ
  kind : E → EdgeKind
  source : E → B
  target : E → B
  ins : B → List E
  outs : B → List E

namespace CFG

variable {B E : Type}

def countBB (c : CFG B E) : ℕ :=
  c.bbs.length

/-- `BasicBlock::isEntry`, for a block of the graph. -/
def isEntry [DecidableEq B] (c : CFG B E) (b : B) : Bool :=
  b = c.entry

/-- The graph as it is built: `numberBB` gives a block its place in the table of the blocks, an edge is
listed by its source and, unless it is a CALL edge, by its target, and only CALL edges leave the graph. -/
structure WellFormed (c : CFG B E) : Prop where
  number_bbs : ∀ i (hi : i < c.bbs.length), c.number c.bbs[i] = i
  entry_mem : c.entry ∈ c.bbs
  mem_ins : ∀ e b, c.kind e ≠ .call → (e ∈ c.ins b ↔ c.target e = b)
  mem_outs : ∀ e b, e ∈ c.outs b ↔ c.source e = b
  same_cfg : ∀ e, c.kind e ≠ .call → (c.source e ∈ c.bbs ↔ c.target e ∈ c.bbs)

/-- Control passes from a block to another one of the graph. -/
def Flow (c : CFG B E) (a b : B) : Prop :=
  ∃ e, c.kind e ≠ .call ∧ c.source e = a ∧ c.target e = b

/-- A path from the entry to a block, with the blocks it visits, the last one first. -/
inductive Path (c : CFG B E) : List B → B → Prop where
  | entry : Path c [c.entry] c.entry
  | step {p : List B} {a b : B} : Path c p a → c.Flow a b → Path c (b :: p) b

/-- The block is on every path from the entry. -/
def OnEveryPath (c : CFG B E) (d b : B) : Prop :=
  ∀ p, c.Path p b → d ∈ p

/-- Some path leads from the entry to the block. -/
def Reachable (c : CFG B E) (b : B) : Prop :=
  ∃ p, c.Path p b

namespace WellFormed

variable {c : CFG B E} {a b d : B}

section

variable (hc : c.WellFormed)
include hc

theorem number_lt (hb : b ∈ c.bbs) : c.number b < c.countBB := by
  obtain ⟨i, hi, rfl⟩ := List.getElem_of_mem hb
  rw [hc.number_bbs i hi]
  exact hi

theorem number_injective (ha : a ∈ c.bbs) (hb : b ∈ c.bbs) (heq : c.number a = c.number b) : a = b := by
  obtain ⟨i, hi, rfl⟩ := List.getElem_of_mem ha
  obtain ⟨j, hj, rfl⟩ := List.getElem_of_mem hb
  rw [hc.number_bbs i hi, hc.number_bbs j hj] at heq
  subst heq
  rfl

theorem nodup_bbs : c.bbs.Nodup := by
  rw [List.nodup_iff_injective_get]
  intro i j heq
  have hnumber := congrArg c.number heq
  simp only [List.get_eq_getElem, hc.number_bbs] at hnumber
  exact Fin.ext hnumber

theorem flow_mem (hflow : c.Flow a b) : a ∈ c.bbs ↔ b ∈ c.bbs := by
  obtain ⟨e, hkind, rfl, rfl⟩ := hflow
  exact hc.same_cfg e hkind

theorem path_mem {p : List B} (hpath : c.Path p b) : b ∈ c.bbs := by
  induction hpath with
  | entry => exact hc.entry_mem
  | step _ hflow ih => exact (hc.flow_mem hflow).mp ih

end

end WellFormed

variable {c : CFG B E} {a b d : B}

theorem Path.mem {p : List B} (hpath : c.Path p b) : b ∈ p := by
  cases hpath with
  | entry => exact List.mem_singleton_self _
  | step => exact List.mem_cons_self

theorem Reachable.flow (ha : c.Reachable a) (hflow : c.Flow a b) : c.Reachable b := by
  obtain ⟨p, hpath⟩ := ha
  exact ⟨b :: p, .step hpath hflow⟩

theorem onEveryPath_self (b : B) : c.OnEveryPath b b :=
  fun _ hpath => hpath.mem

theorem onEveryPath_entry : c.OnEveryPath d c.entry → d = c.entry := by
  intro hd
  exact List.mem_singleton.mp (hd _ .entry)

/-- Every block is on every path to a block that no path leads to. -/
theorem onEveryPath_of_not_reachable (hb : ¬ c.Reachable b) (d : B) : c.OnEveryPath d b :=
  fun p hpath => absurd ⟨p, hpath⟩ hb

/-- A block on every path to the target of an edge is the target, or is on every path to the source. -/
theorem OnEveryPath.of_flow (hd : c.OnEveryPath d b) (hflow : c.Flow a b) : d = b ∨ c.OnEveryPath d a := by
  by_cases hdb : d = b
  · exact .inl hdb
  · right
    intro p hpath
    exact List.mem_of_ne_of_mem hdb (hd _ (.step hpath hflow))

/-- The part of a path that ends in a block on it. -/
theorem Path.prefix {p : List B} (hpath : c.Path p b) (hd : d ∈ p) : ∃ q, c.Path q d ∧ q <:+ p := by
  induction hpath with
  | entry =>
    cases List.mem_singleton.mp hd
    exact ⟨_, .entry, List.suffix_refl _⟩
  | @step p a b hpath hflow ih =>
    obtain rfl | hmem := List.mem_cons.mp hd
    · exact ⟨_, .step hpath hflow, List.suffix_refl _⟩
    · obtain ⟨q, hq, hsuffix⟩ := ih hmem
      exact ⟨q, hq, hsuffix.trans (List.suffix_cons b p)⟩

/-- Of two blocks that are each on every path to the other one, none is reachable, or they are the same. -/
theorem OnEveryPath.antisymm (hab : c.OnEveryPath a b) (hba : c.OnEveryPath b a) (hreach : c.Reachable b) :
    a = b := by
  by_contra hne
  -- a shortest path to either block visits the other one before its end
  have hshort : ∀ n p x, p.length ≤ n → c.Path p x → x = a ∨ x = b → False := by
    intro n
    induction n with
    | zero =>
      intro p x hlength hpath _
      have := List.length_pos_of_mem hpath.mem
      omega
    | succ n ih =>
      intro p x hlength hpath hx
      have hother : ∃ y, y ≠ x ∧ (y = a ∨ y = b) ∧ y ∈ p := by
        obtain rfl | rfl := hx
        · exact ⟨b, Ne.symm hne, .inr rfl, hba p hpath⟩
        · exact ⟨a, hne, .inl rfl, hab p hpath⟩
      obtain ⟨y, hyx, hy, hmem⟩ := hother
      cases hpath with
      | entry => exact hyx (List.mem_singleton.mp hmem)
      | @step q z _ hpath hflow =>
        obtain ⟨r, hr, hsuffix⟩ := hpath.prefix (List.mem_of_ne_of_mem hyx hmem)
        have hle := hsuffix.length_le
        rw [List.length_cons] at hlength
        exact ih r y (by omega) hr hy
  obtain ⟨p, hpath⟩ := hreach
  exact hshort p.length p b (Nat.le_refl _) hpath (.inr rfl)

end CFG

end Otawa
