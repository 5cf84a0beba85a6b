import Otawa.Lib.Keyed
import Mathlib.Algebra.Group.Nat.Defs
import Mathlib.Data.Int.DivMod
import Mathlib.Data.List.Chain
import Mathlib.Order.Bounds.Basic

/-!
# Segment trees of ELM

`SegmentBuilder` and `MarkerBuilder` put the leaves of a tree at the start of an array of nodes, in the order of the keys,
and `Builder::make` puts the inner nodes after them. `Built.find_of_le`: a look-up in the tree finds the leaf of a key.
The upper bound of the tree is taken as a key of its last leaf.

The maps of the builders are given by their items in order. A node that is read before it is written, a write after the
end of the array and a recursion that does not end give `none`.
-/

namespace Otawa.Elm.STree

variable {K T : Type} [LinearOrder K]

/-- Inner nodes have no data, and leaves no links. -/
structure Node (K T : Type) where
  lb : K
  ub : K
  ll : ℤ
  rl : ℤ
  data : Option T

/-- The array of the nodes, `none` for those that are not written. -/
abbrev Nodes (K T : Type) := List (Option (Node K T))

def read (nodes : Nodes K T) (i : ℤ) : Option (Node K T) :=
  if i < 0 then none else nodes[i.toNat]?.join

def write (nodes : Nodes K T) (i : ℕ) (node : Node K T) : Option (Nodes K T) :=
  if i < nodes.length then some (nodes.set i (some node)) else none

structure Tree (K T : Type) where
  root : ℤ
  nodes : Nodes K T

namespace Tree

def empty : Tree K T :=
  ⟨-1, []⟩

def contains (key : K) (root : Node K T) : Bool :=
  root.lb ≤ key ∧ key ≤ root.ub

/-- The loop of `find`. -/
def descend (nodes : Nodes K T) : ℕ → ℤ → K → Option (Node K T)
  | 0, _, _ => none
  | fuel + 1, i, key => do
      let node ← read nodes i
      if node.ll = -1 then some node
      else
        let right ← read nodes node.rl
        descend nodes fuel (if key < right.lb then node.ll else node.rl) key

/-- The outer `none` is a failed assertion, the inner one a key that is not found. -/
def find (t : Tree K T) (key : K) : Option (Option T) := do
  let root ← read t.nodes t.root
  if contains key root then
    let node ← descend t.nodes t.nodes.length t.root key
    return node.data
  else return none

end Tree

namespace Builder

def leastUpperPowerOf2 (v : ℕ) : ℕ :=
  if v = 0 then 0
  else if v = 2 ^ v.log2 then v
  else 2 ^ (v.log2 + 1)

/-- There is no array of -1 nodes. -/
def allocate (n : ℕ) : Option (Nodes K T) :=
  if n = 0 then none else some (List.replicate (n + leastUpperPowerOf2 n - 1) none)

/-- The nodes, the next free one and the root. -/
def make : ℕ → Nodes K T → ℕ → ℤ → ℤ → Option (Nodes K T × ℕ × ℤ)
  | 0, _, _, _, _ => none
  | fuel + 1, nodes, s, start, stop =>
      if start = stop then some (nodes, s, start)
      else do
        let m := (start + stop).tdiv 2
        let (nodes, s, l) ← make fuel nodes s start m
        let (nodes, s, u) ← make fuel nodes s (m + 1) stop
        let left ← read nodes l
        let right ← read nodes u
        let nodes ← write nodes s ⟨left.lb, right.ub, l, u, none⟩
        return (nodes, s + 1, s)

end Builder

/-- The keys from `low` to `high`, exclusive. -/
structure Segment (K T : Type) where
  low : K
  high : K
  value : T

/-- `node_t(low, high)` with its data. -/
def Segment.leaf (seg : Segment K T) : Node K T :=
  ⟨seg.low, seg.high, -1, -1, some seg.value⟩

namespace SegmentBuilder

def add (segs : List (Segment K T)) (seg : Segment K T) : List (Segment K T) :=
  Keyed.put Segment.low seg segs

/-- The nodes for the segments after one that ends with `p`. -/
def count : K → List (Segment K T) → ℕ
  | _, [] => 0
  | p, seg :: segs => (if seg.low ≠ p then 1 else 0) + 1 + count seg.high segs

/-- The leaves of the segments after one that ends with `p`, from the place `i` on. -/
def insertBounds (d : T) : K → List (Segment K T) → Nodes K T → ℕ → Option (Nodes K T × ℕ)
  | _, [], nodes, i => some (nodes, i)
  | p, seg :: segs, nodes, i => do
      let (nodes, i) ←
        if seg.low ≠ p then (write nodes i (Segment.leaf ⟨p, seg.low, d⟩)).map (·, i + 1) else some (nodes, i)
      let nodes ← write nodes i seg.leaf
      insertBounds d seg.high segs nodes (i + 1)

/-- Without segments the tree stays as it is. -/
def make (fuel : ℕ) (d : T) (segs : List (Segment K T)) (tree : Tree K T) : Option (Tree K T) :=
  match segs with
  | [] => some tree
  | seg :: segs => do
      let nodes ← Builder.allocate (1 + count seg.high segs)
      let nodes ← write nodes 0 seg.leaf
      let (nodes, i) ← insertBounds d seg.high segs nodes 1
      let (nodes, _, root) ← Builder.make fuel nodes i 0 (i - 1)
      return ⟨root, nodes⟩

end SegmentBuilder

namespace MarkerBuilder

def add (marks : List (K × T)) (mark : K × T) : List (K × T) :=
  Keyed.put Prod.fst mark marks

/-- The leaves from the mark `l` on. -/
def insertBounds : K × T → List (K × T) → Nodes K T → ℕ → Option (Nodes K T × ℕ)
  | _, [], nodes, i => some (nodes, i)
  | l, u :: marks, nodes, i => do
      let nodes ← write nodes i (Segment.leaf ⟨l.1, u.1, l.2⟩)
      insertBounds u marks nodes (i + 1)

/-- Without marks there is no item to start with. -/
def make (fuel : ℕ) (marks : List (K × T)) : Option (Tree K T) := do
  let nodes ← Builder.allocate marks.length
  match marks with
  | [] => none
  | l :: marks =>
      let (nodes, i) ← insertBounds l marks nodes 0
      let (nodes, _, root) ← Builder.make fuel nodes i 0 (i - 1)
      return ⟨root, nodes⟩

end MarkerBuilder

variable {nodes nodes' : Nodes K T} {leaves : List (Segment K T)} {seg : Segment K T} {node : Node K T} {key : K}

/-! ### The array -/

omit [LinearOrder K] in
theorem read_nat {p : ℕ} (h : nodes[p]? = some (some node)) : read nodes p = some node := by
  rw [read, if_neg (by omega), Int.toNat_natCast, h]
  rfl

omit [LinearOrder K] in
theorem write_eq {i : ℕ} (h : i < nodes.length) (node : Node K T) : write nodes i node = some (nodes.set i (some node)) :=
  if_pos h

/-- The nodes that are written stay. -/
def Extends (nodes nodes' : Nodes K T) : Prop :=
  ∀ (j : ℕ) (node : Node K T), nodes[j]? = some (some node) → nodes'[j]? = some (some node)

omit [LinearOrder K] in
theorem Extends.refl (nodes : Nodes K T) : Extends nodes nodes := fun _ _ h => h

omit [LinearOrder K] in
theorem Extends.trans {nodes'' : Nodes K T} (h : Extends nodes nodes') (h' : Extends nodes' nodes'') :
    Extends nodes nodes'' :=
  fun j node hj => h' j node (h j node hj)

/-- The nodes from `s` on are not written. -/
def Free (nodes : Nodes K T) (s : ℕ) : Prop :=
  ∀ (j : ℕ) (node : Node K T), s ≤ j → nodes[j]? ≠ some (some node)

omit [LinearOrder K] in
theorem Free.extends {s : ℕ} (h : Free nodes s) (node : Node K T) : Extends nodes (nodes.set s (some node)) := by
  intro j node' hj
  have hne : s ≠ j := fun heq => h j node' heq.le hj
  rw [List.getElem?_set_ne hne, hj]

omit [LinearOrder K] in
theorem Free.set {s : ℕ} (h : Free nodes s) (node : Node K T) : Free (nodes.set s (some node)) (s + 1) := by
  intro j node' hj
  rw [List.getElem?_set_ne (by omega)]
  exact h j node' (by omega)

/-! ### The leaves -/

/-- The leaves are at the start of the array. -/
def Holds (nodes : Nodes K T) (leaves : List (Segment K T)) : Prop :=
  ∀ (j : ℕ) (seg : Segment K T), leaves[j]? = some seg → nodes[j]? = some (some seg.leaf)

/-- The writes of the leaves one after the other. -/
def fill : List (Segment K T) → Nodes K T → ℕ → Option (Nodes K T × ℕ)
  | [], nodes, i => some (nodes, i)
  | seg :: segs, nodes, i => do
      let nodes ← write nodes i seg.leaf
      fill segs nodes (i + 1)

omit [LinearOrder K] in
theorem fill_spec (before : List (Segment K T)) (hholds : Holds nodes before) (hfree : Free nodes before.length)
    (hfits : before.length + leaves.length ≤ nodes.length) :
    ∃ nodes', fill leaves nodes before.length = some (nodes', before.length + leaves.length) ∧
      nodes'.length = nodes.length ∧ Holds nodes' (before ++ leaves) ∧
      Free nodes' (before.length + leaves.length) := by
  induction leaves generalizing nodes before with
  | nil => exact ⟨nodes, rfl, rfl, by rwa [List.append_nil], hfree⟩
  | cons seg leaves ih =>
    rw [List.length_cons] at hfits
    have hwrite : write nodes before.length seg.leaf = some (nodes.set before.length (some seg.leaf)) :=
      write_eq (by omega) _
    have hholds' : Holds (nodes.set before.length (some seg.leaf)) (before ++ [seg]) := by
      intro j seg' hj
      rcases Nat.lt_or_ge j before.length with hlt | hge
      · rw [List.getElem?_append_left hlt] at hj
        exact hfree.extends _ j _ (hholds j seg' hj)
      · rw [List.getElem?_append_right hge, List.getElem?_singleton] at hj
        split at hj
        case isTrue heq =>
          have hj' : j = before.length := by omega
          rw [hj', List.getElem?_set_self (by omega), Option.some.inj hj]
        case isFalse => cases hj
    have hfree' : Free (nodes.set before.length (some seg.leaf)) (before ++ [seg]).length := by
      rw [List.length_append, List.length_singleton]
      exact hfree.set seg.leaf
    have hlength : (before ++ [seg]).length + leaves.length ≤ (nodes.set before.length (some seg.leaf)).length := by
      rw [List.length_append, List.length_singleton, List.length_set]
      omega
    obtain ⟨nodes', hfill, hsame, hholds'', hfree''⟩ := ih (before ++ [seg]) hholds' hfree' hlength
    rw [List.length_append, List.length_singleton] at hfill hfree''
    have hsum : before.length + 1 + leaves.length = before.length + (seg :: leaves).length := by
      rw [List.length_cons]
      omega
    rw [hsum] at hfill hfree''
    refine ⟨nodes', ?_, by rw [hsame, List.length_set], by simpa using hholds'', hfree''⟩
    rw [fill, hwrite]
    exact hfill

/-! ### The inner nodes -/

/-- The node `p` is the root of the leaves from `a` to `b`. -/
inductive Spans (nodes : Nodes K T) (leaves : List (Segment K T)) : ℕ → ℕ → ℕ → Prop where
  | leaf {j : ℕ} {seg : Segment K T} :
      leaves[j]? = some seg → nodes[j]? = some (some seg.leaf) → Spans nodes leaves j j j
  | node {a m b l u p : ℕ} {first middle last : Segment K T} :
      Spans nodes leaves a m l → Spans nodes leaves (m + 1) b u →
      leaves[a]? = some first → leaves[m + 1]? = some middle → leaves[b]? = some last →
      nodes[p]? = some (some ⟨first.low, last.high, l, u, none⟩) → Spans nodes leaves a b p

section

variable {a b p : ℕ} (h : Spans nodes leaves a b p)
include h

omit [LinearOrder K]

theorem Spans.extends (hext : Extends nodes nodes') : Spans nodes' leaves a b p := by
  induction h with
  | leaf hseg hnode => exact .leaf hseg (hext _ _ hnode)
  | node _ _ hfirst hmiddle hlast hnode ihl ihu => exact .node ihl ihu hfirst hmiddle hlast (hext _ _ hnode)

theorem Spans.bounds :
    ∃ first last node, leaves[a]? = some first ∧ leaves[b]? = some last ∧ nodes[p]? = some (some node) ∧
      node.lb = first.low ∧ node.ub = last.high := by
  cases h with
  | leaf hseg hnode => exact ⟨_, _, _, hseg, hseg, hnode, rfl, rfl⟩
  | node _ _ hfirst _ hlast hnode => exact ⟨_, _, _, hfirst, hlast, hnode, rfl, rfl⟩

theorem Spans.le : a ≤ b := by
  induction h with
  | leaf => exact le_rfl
  | node _ _ _ _ _ _ ihl ihu => omega

end

omit [LinearOrder K] in
theorem Holds.extends (h : Holds nodes leaves) (hext : Extends nodes nodes') : Holds nodes' leaves :=
  fun j seg hj => hext j _ (h j seg hj)

omit [LinearOrder K] in
/-- The inner nodes for the leaves from `a` to `b` are written from `s` on, one less than there are leaves. -/
theorem make_spec {fuel a b s : ℕ} (hab : a ≤ b) (hb : b < leaves.length) (hfuel : b - a < fuel)
    (hholds : Holds nodes leaves) (hfree : Free nodes s) (hfits : s + (b - a) ≤ nodes.length) :
    ∃ (nodes' : Nodes K T) (p : ℕ), Builder.make fuel nodes s a b = some (nodes', s + (b - a), (p : ℤ)) ∧
      nodes'.length = nodes.length ∧ Extends nodes nodes' ∧ Free nodes' (s + (b - a)) ∧
      Spans nodes' leaves a b p := by
  induction fuel generalizing nodes a b s with
  | zero => exact absurd hfuel (Nat.not_lt_zero _)
  | succ fuel ih =>
    obtain rfl | hlt := hab.eq_or_lt
    · have hleaf := hholds a _ (List.getElem?_eq_getElem hb)
      refine ⟨nodes, a, ?_, rfl, .refl nodes, ?_, .leaf (List.getElem?_eq_getElem hb) hleaf⟩
      · rw [Builder.make, if_pos rfl, Nat.sub_self, Nat.add_zero]
      · rwa [Nat.sub_self, Nat.add_zero]
    · have hm : ((a : ℤ) + b).tdiv 2 = ((a + b) / 2 : ℕ) := by
        rw [Int.tdiv_eq_ediv_of_nonneg (by omega)]
        omega
      set m := (a + b) / 2 with hmdef
      obtain ⟨nodes₁, l, hmake₁, hlen₁, hext₁, hfree₁, hspans₁⟩ :=
        ih (a := a) (b := m) (by omega) (by omega) (by omega) hholds hfree (by omega)
      obtain ⟨nodes₂, u, hmake₂, hlen₂, hext₂, hfree₂, hspans₂⟩ :=
        ih (a := m + 1) (b := b) (by omega) (by omega) (by omega) (hholds.extends hext₁) hfree₁ (by omega)
      obtain ⟨first, _, left, hfirst, -, hleft, hlb, -⟩ := (hspans₁.extends hext₂).bounds
      obtain ⟨middle, last, right, hmiddle, hlast, hright, -, hub⟩ := hspans₂.bounds
      have hup : (m : ℤ) + 1 = (m + 1 : ℕ) := rfl
      have hend : s + (m - a) + (b - (m + 1)) + 1 = s + (b - a) := by omega
      have hset := hfree₂.extends (⟨left.lb, right.ub, l, u, none⟩ : Node K T)
      refine ⟨_, s + (m - a) + (b - (m + 1)), ?_, ?_, (hext₁.trans hext₂).trans hset, hend ▸ hfree₂.set _, ?_⟩
      · rw [Builder.make, if_neg (by omega)]
        simp only [hm, hmake₁, hup, Option.bind_eq_bind, Option.bind_some, hmake₂, read_nat hleft,
          read_nat hright, write_eq (show s + (m - a) + (b - (m + 1)) < nodes₂.length by omega), hend]
        rfl
      · rw [List.length_set, hlen₂, hlen₁]
      · refine .node ((hspans₁.extends hext₂).extends hset) (hspans₂.extends hset) hfirst hmiddle hlast ?_
        rw [List.getElem?_set_self (by omega), hlb, hub]

/-! ### The look-up -/

/-- The leaf that the loop ends at is the last one that starts at or before the key, when there is one. -/
theorem descend_spec {fuel a b p : ℕ} (h : Spans nodes leaves a b p) (hfuel : b - a < fuel) (key : K) :
    ∃ (j : ℕ) (seg : Segment K T), a ≤ j ∧ j ≤ b ∧ leaves[j]? = some seg ∧
      Tree.descend nodes fuel p key = some seg.leaf ∧ (a < j → seg.low ≤ key) ∧
      ∀ next, j < b → leaves[j + 1]? = some next → key < next.low := by
  induction h generalizing fuel with
  | @leaf j seg hseg hnode =>
    obtain ⟨fuel, rfl⟩ := Nat.exists_eq_succ_of_ne_zero (Nat.ne_of_gt (Nat.zero_lt_of_lt hfuel))
    refine ⟨j, seg, le_rfl, le_rfl, hseg, ?_, fun hlt => absurd hlt (lt_irrefl j), fun _ hlt => absurd hlt (lt_irrefl j)⟩
    rw [Tree.descend, read_nat hnode]
    rfl
  | @node a m b l u p first middle last hl hu hfirst hmiddle hlast hnode ihl ihu =>
    obtain ⟨fuel, rfl⟩ := Nat.exists_eq_succ_of_ne_zero (Nat.ne_of_gt (Nat.zero_lt_of_lt hfuel))
    have ham := hl.le
    have hmb := hu.le
    obtain ⟨middle', _, right, hmiddle', -, hright, hlb, -⟩ := hu.bounds
    obtain rfl : middle' = middle := Option.some.inj (hmiddle'.symm.trans hmiddle)
    have hstep : Tree.descend nodes (fuel + 1) p key =
        Tree.descend nodes fuel (if key < middle'.low then l else u) key := by
      rw [Tree.descend, read_nat hnode]
      simp only [Option.bind_eq_bind, Option.bind_some, read_nat hright, hlb]
      exact if_neg (by omega)
    rcases lt_or_ge key middle'.low with hlt | hge
    · obtain ⟨j, seg, haj, hjm, hseg, hdescend, hlow, hnext⟩ := ihl (show m - a < fuel by omega)
      refine ⟨j, seg, haj, by omega, hseg, by rw [hstep, if_pos hlt, hdescend], hlow, fun next _ hj => ?_⟩
      obtain rfl | hjm := hjm.eq_or_lt
      · rwa [Option.some.inj (hj.symm.trans hmiddle)]
      · exact hnext next hjm hj
    · obtain ⟨j, seg, hmj, hjb, hseg, hdescend, hlow, hnext⟩ := ihu (show b - (m + 1) < fuel by omega)
      refine ⟨j, seg, by omega, hjb, hseg, by rw [hstep, if_neg hge.not_gt, hdescend], fun _ => ?_, hnext⟩
      obtain rfl | hmj := hmj.eq_or_lt
      · rwa [Option.some.inj (hseg.symm.trans hmiddle)]
      · exact hlow hmj

/-- Each leaf starts where the one before it ends. -/
def Contiguous (leaves : List (Segment K T)) : Prop :=
  leaves.IsChain fun left right => left.high = right.low

/-- The leaves of the tree. -/
structure Built (t : Tree K T) (leaves : List (Segment K T)) : Prop where
  nonempty : leaves ≠ []
  contiguous : Contiguous leaves
  root : ∃ p : ℕ, t.root = p ∧ Spans t.nodes leaves 0 (leaves.length - 1) p
  fits : leaves.length ≤ t.nodes.length

section

variable {t : Tree K T} (h : Built t leaves) {first last : Segment K T} (hfirst : leaves.head? = some first)
  (hlast : leaves.getLast? = some last)
include h hfirst hlast

/-- The leaf of a key between the bounds of the tree. The upper bound of the tree is a key of its last leaf. -/
theorem Built.find_of_le (hlow : first.low ≤ key)
    (hhigh : key ≤ last.high) :
    ∃ seg ∈ leaves, t.find key = some (some seg.value) ∧ seg.low ≤ key ∧
      ((key < seg.high ∧ ∃ next ∈ leaves, key < next.low) ∨ seg = last) := by
  obtain ⟨p, hp, hspans⟩ := h.root
  have hlength := List.length_pos_iff.mpr h.nonempty
  have hfits := h.fits
  rw [List.head?_eq_getElem?] at hfirst
  rw [List.getLast?_eq_getElem?] at hlast
  obtain ⟨first', last', root, hfirst', hlast', hroot, hlb, hub⟩ := hspans.bounds
  obtain rfl := Option.some.inj (hfirst'.symm.trans hfirst)
  obtain rfl := Option.some.inj (hlast'.symm.trans hlast)
  obtain ⟨j, seg, -, hj, hseg, hdescend, hstart, hnext⟩ :=
    descend_spec hspans (show leaves.length - 1 - 0 < t.nodes.length by omega) key
  have hcontains : Tree.contains key root = true := by
    rw [Tree.contains, decide_eq_true_eq, hlb, hub]
    exact ⟨hlow, hhigh⟩
  refine ⟨seg, List.mem_of_getElem? hseg, ?_, ?_, ?_⟩
  · simp only [Tree.find, hp, read_nat hroot, Option.bind_eq_bind, Option.bind_some, hcontains, if_true, hdescend]
    rfl
  · obtain rfl | hpos := Nat.eq_zero_or_pos j
    · rwa [Option.some.inj (hseg.symm.trans hfirst)]
    · exact hstart hpos
  · obtain rfl | hj := hj.eq_or_lt
    · exact .inr (Option.some.inj (hseg.symm.trans hlast))
    · have hlt' : j + 1 < leaves.length := by omega
      have hseg' : leaves[j] = seg := Option.some.inj ((List.getElem?_eq_getElem (by omega)).symm.trans hseg)
      have hbelow := hnext _ hj (List.getElem?_eq_getElem hlt')
      rw [← hseg', List.isChain_iff_getElem.mp h.contiguous j hlt']
      exact .inl ⟨hbelow, _, List.getElem_mem hlt', hbelow⟩

/-- There are no keys below the first leaf and above the last one. -/
theorem Built.find_of_not_le (hout : key < first.low ∨ last.high < key) : t.find key = some none := by
  obtain ⟨p, hp, hspans⟩ := h.root
  rw [List.head?_eq_getElem?] at hfirst
  rw [List.getLast?_eq_getElem?] at hlast
  obtain ⟨first', last', root, hfirst', hlast', hroot, hlb, hub⟩ := hspans.bounds
  obtain rfl := Option.some.inj (hfirst'.symm.trans hfirst)
  obtain rfl := Option.some.inj (hlast'.symm.trans hlast)
  have hcontains : ¬Tree.contains key root = true := by
    rw [Tree.contains, decide_eq_true_eq, hlb, hub]
    rintro ⟨hlow, hhigh⟩
    exact hout.elim hlow.not_gt hhigh.not_gt
  simp only [Tree.find, hp, read_nat hroot, Option.bind_eq_bind, Option.bind_some, if_neg hcontains]
  rfl

end

/-! ### The building -/

theorem le_leastUpperPowerOf2 (n : ℕ) : n ≤ Builder.leastUpperPowerOf2 n := by
  rw [Builder.leastUpperPowerOf2]
  split
  case isTrue h => exact h.le
  case isFalse =>
    split
    case isTrue => exact le_rfl
    case isFalse => exact Nat.lt_log2_self.le

omit [LinearOrder K]

theorem allocate_spec {n : ℕ} (h : n ≠ 0) :
    ∃ nodes : Nodes K T, Builder.allocate n = some nodes ∧ 2 * n - 1 ≤ nodes.length ∧ Free nodes 0 := by
  refine ⟨_, if_neg h, ?_, fun j node _ hj => ?_⟩
  · have hle := le_leastUpperPowerOf2 n
    rw [List.length_replicate]
    omega
  · have hmem := List.mem_of_getElem? hj
    exact absurd (List.eq_of_mem_replicate hmem) nofun

/-- The leaves and the inner nodes of them fit in the array. -/
theorem built_spec (hne : leaves ≠ []) (hcontiguous : Contiguous leaves) (hfree : Free nodes 0)
    (hfits : 2 * leaves.length - 1 ≤ nodes.length) :
    ∃ nodes' i, fill leaves nodes 0 = some (nodes', i) ∧
      ∃ nodes'' s root, Builder.make leaves.length nodes' i 0 (i - 1) = some (nodes'', s, root) ∧
        Built ⟨root, nodes''⟩ leaves := by
  have hlength := List.length_pos_iff.mpr hne
  have hnil : Holds nodes ([] : List (Segment K T)) := fun j seg hj => absurd hj (by simp)
  obtain ⟨nodes', hfill, hsame, hholds, hfree'⟩ :=
    fill_spec [] hnil hfree (show 0 + leaves.length ≤ nodes.length by omega)
  rw [List.nil_append] at hholds
  rw [List.length_nil, Nat.zero_add] at hfill hfree'
  refine ⟨nodes', leaves.length, hfill, ?_⟩
  obtain ⟨nodes'', p, hmake, hsame', -, -, hspans⟩ :=
    make_spec (Nat.zero_le (leaves.length - 1)) (by omega) (show leaves.length - 1 - 0 < leaves.length by omega) hholds
      hfree' (by omega)
  have hlast : ((leaves.length - 1 : ℕ) : ℤ) = leaves.length - 1 := by omega
  rw [hlast] at hmake
  exact ⟨nodes'', _, p, hmake, hne, hcontiguous, ⟨p, rfl, hspans⟩, by rw [hsame', hsame]; omega⟩

end Otawa.Elm.STree
