import Mathlib.Data.List.Basic
import Mathlib.Order.Lattice

/-!
# Balanced binary trees

Binary trees whose nodes store a balance, the height of the right subtree less the one of the left
subtree. A position in a tree is the list of the nodes above it, from the nearest to the root, each with
the side on which the position is.
-/

namespace Otawa.Avl

inductive Side where
  | left
  | right
  deriving DecidableEq, Repr

inductive Tree (α : Type) where
  | nil
  | node (left : Tree α) (data : α) (balance : Int) (right : Tree α)
  deriving DecidableEq, Repr

variable {α : Type}

namespace Tree

def height : Tree α → Nat
  | nil => 0
  | node l _ _ r => max l.height r.height + 1

def size : Tree α → Nat
  | nil => 0
  | node l _ _ r => l.size + r.size + 1

def inorder : Tree α → List α
  | nil => []
  | node l d _ r => l.inorder ++ d :: r.inorder

def isNil : Tree α → Bool
  | nil => true
  | node _ _ _ _ => false

def map {β : Type} (f : α → β) : Tree α → Tree β
  | nil => nil
  | node l d b r => node (l.map f) (f d) b (r.map f)

/-- The stored balance; the one of an empty tree is 0. -/
def balance : Tree α → Int
  | nil => 0
  | node _ _ b _ => b

/-- The stored balances are the differences of the heights, and between -1 and 1. -/
def Balanced : Tree α → Prop
  | nil => True
  | node l _ b r => l.Balanced ∧ r.Balanced ∧ b = (r.height : Int) - l.height ∧ -1 ≤ b ∧ b ≤ 1

instance : DecidablePred (@Balanced α)
  | nil => isTrue trivial
  | node l _ b r =>
      have := instDecidablePredBalanced l
      have := instDecidablePredBalanced r
      inferInstanceAs (Decidable (l.Balanced ∧ r.Balanced ∧ b = (r.height : Int) - l.height ∧ -1 ≤ b ∧ b ≤ 1))

@[simp] theorem height_nil : (nil : Tree α).height = 0 := rfl

@[simp] theorem height_node (l : Tree α) (d : α) (b : Int) (r : Tree α) :
    (node l d b r).height = max l.height r.height + 1 := rfl

@[simp] theorem balanced_nil : (nil : Tree α).Balanced := trivial

@[simp] theorem balanced_node {l r : Tree α} {d : α} {b : Int} : (node l d b r).Balanced ↔
    l.Balanced ∧ r.Balanced ∧ b = (r.height : Int) - l.height ∧ -1 ≤ b ∧ b ≤ 1 := Iff.rfl

@[simp] theorem inorder_nil : (nil : Tree α).inorder = [] := rfl

@[simp] theorem inorder_node (l : Tree α) (d : α) (b : Int) (r : Tree α) :
    (node l d b r).inorder = l.inorder ++ d :: r.inorder := rfl

@[simp] theorem map_node {β : Type} (f : α → β) (l : Tree α) (d : α) (b : Int) (r : Tree α) :
    (node l d b r).map f = node (l.map f) (f d) b (r.map f) := rfl

@[simp] theorem height_map {β : Type} (f : α → β) (t : Tree α) : (t.map f).height = t.height := by
  induction t with
  | nil => rfl
  | node l d b r ihl ihr => simp [ihl, ihr]

@[simp] theorem inorder_map {β : Type} (f : α → β) (t : Tree α) : (t.map f).inorder = t.inorder.map f := by
  induction t with
  | nil => rfl
  | node l d b r ihl ihr => simp [ihl, ihr]

theorem map_map {β γ : Type} (g : β → γ) (f : α → β) (t : Tree α) : (t.map f).map g = t.map fun d => g (f d) := by
  induction t with
  | nil => rfl
  | node l d b r ihl ihr => simp [ihl, ihr]

theorem map_self (t : Tree α) : t.map (fun d => d) = t := by
  induction t with
  | nil => rfl
  | node l d b r ihl ihr => simp [ihl, ihr]

theorem length_inorder (t : Tree α) : t.inorder.length = t.size := by
  induction t with
  | nil => rfl
  | node l d b r ihl ihr =>
    simp only [inorder_node, List.length_append, List.length_cons, ihl, ihr, size]
    omega

theorem exists_node_of_height {t : Tree α} (pos : 0 < t.height) : ∃ l d b r, t = node l d b r := by
  cases t with
  | nil => simp at pos
  | node l d b r => exact ⟨l, d, b, r, rfl⟩

end Tree

/-! ### Shapes -/

namespace Tree

/-- The tree with every stored balance 0. -/
def strip : Tree α → Tree α
  | nil => nil
  | node l d _ r => node l.strip d 0 r.strip

/-- Every stored balance is 0. -/
def Level : Tree α → Prop
  | nil => True
  | node l _ b r => l.Level ∧ r.Level ∧ b = 0

/-- The tree with the balances that it should store. -/
def weigh : Tree α → Tree α
  | nil => nil
  | node l d _ r => node l.weigh d ((r.height : Int) - l.height) r.weigh

/-- The heights of the two subtrees of every node differ by one at most. -/
def Even : Tree α → Prop
  | nil => True
  | node l _ _ r => l.Even ∧ r.Even ∧ l.height ≤ r.height + 1 ∧ r.height ≤ l.height + 1

@[simp] theorem strip_node (l : Tree α) (d : α) (b : Int) (r : Tree α) :
    (node l d b r).strip = node l.strip d 0 r.strip := rfl

@[simp] theorem weigh_node (l : Tree α) (d : α) (b : Int) (r : Tree α) :
    (node l d b r).weigh = node l.weigh d ((r.height : Int) - l.height) r.weigh := rfl

section

variable (t : Tree α)

@[simp] theorem height_strip : t.strip.height = t.height := by
  induction t with
  | nil => rfl
  | node l d b r ihl ihr => simp [ihl, ihr]

@[simp] theorem height_weigh : t.weigh.height = t.height := by
  induction t with
  | nil => rfl
  | node l d b r ihl ihr => simp [ihl, ihr]

@[simp] theorem strip_weigh : t.weigh.strip = t.strip := by
  induction t with
  | nil => rfl
  | node l d b r ihl ihr => simp [ihl, ihr]

@[simp] theorem weigh_strip : t.strip.weigh = t.weigh := by
  induction t with
  | nil => rfl
  | node l d b r ihl ihr => simp [ihl, ihr]

theorem inorder_strip : t.strip.inorder = t.inorder := by
  induction t with
  | nil => rfl
  | node l d b r ihl ihr => simp [ihl, ihr]

theorem strip_eq_iff : t.strip = t ↔ t.Level := by
  induction t with
  | nil => exact iff_of_true rfl trivial
  | node l d b r ihl ihr =>
    rw [strip_node, node.injEq, ihl, ihr, Level]
    exact ⟨fun ⟨hl, _, hb, hr⟩ => ⟨hl, hr, hb.symm⟩, fun ⟨hl, hr, hb⟩ => ⟨hl, rfl, hb.symm, hr⟩⟩

end

/-- The balances of a balanced tree are 0 when those of a shape without balances are right. -/
theorem Balanced.level_of_strip {t : Tree α} (balanced : t.Balanced) (stripped : t.strip.Balanced) : t.Level := by
  induction t with
  | nil => trivial
  | node l d b r ihl ihr =>
    obtain ⟨hl, hr, hb, -⟩ := balanced
    obtain ⟨hl', hr', hzero, -⟩ := stripped
    rw [height_strip, height_strip] at hzero
    exact ⟨ihl hl hl', ihr hr hr', by omega⟩

theorem even_strip (t : Tree α) : t.strip.Even ↔ t.Even := by
  induction t with
  | nil => exact Iff.rfl
  | node l d b r ihl ihr => simp [Even, ihl, ihr]

/-- The balances of a balanced tree follow from its shape. -/
theorem Balanced.eq_weigh {t u : Tree α} (balanced : t.Balanced) (same : t.strip = u.strip) : t = u.weigh := by
  induction t generalizing u with
  | nil =>
    cases u with
    | nil => rfl
    | node l d b r => cases same
  | node l d b r ihl ihr =>
    cases u with
    | nil => cases same
    | node l' d' b' r' =>
      obtain ⟨hl, hr, hb, -⟩ := balanced
      injection same with sameLeft sameData _ sameRight
      have heights : l.height = l'.height ∧ r.height = r'.height :=
        ⟨by rw [← height_strip l, sameLeft, height_strip], by rw [← height_strip r, sameRight, height_strip]⟩
      rw [weigh_node, ← ihl hl sameLeft, ← ihr hr sameRight, ← heights.1, ← heights.2, ← hb, sameData]

end Tree

/-! ### Positions -/

/-- A node above a position; the rest of the node is on the other side. -/
structure Crumb (α : Type) where
  side : Side
  data : α
  balance : Int
  other : Tree α
  deriving DecidableEq, Repr

namespace Crumb

def plug (c : Crumb α) (t : Tree α) : Tree α :=
  match c.side with
  | .left => .node t c.data c.balance c.other
  | .right => .node c.other c.data c.balance t

/-- What comes before the position in the node. -/
def before (c : Crumb α) : List α :=
  match c.side with
  | .left => []
  | .right => c.other.inorder ++ [c.data]

/-- What comes after the position in the node. -/
def after (c : Crumb α) : List α :=
  match c.side with
  | .left => c.data :: c.other.inorder
  | .right => []

theorem inorder_plug (c : Crumb α) (t : Tree α) : (c.plug t).inorder = c.before ++ t.inorder ++ c.after := by
  cases h : c.side <;> simp [plug, before, after, h]

/-- The node is balanced around a balanced tree of the height `h`. -/
def Fits (c : Crumb α) (h : Nat) : Prop :=
  c.other.Balanced ∧ -1 ≤ c.balance ∧ c.balance ≤ 1 ∧
    match c.side with
    | .left => c.balance = (c.other.height : Int) - h
    | .right => c.balance = (h : Int) - c.other.height

theorem balanced_plug {c : Crumb α} {t : Tree α} : (c.plug t).Balanced ↔ t.Balanced ∧ c.Fits t.height := by
  obtain ⟨side, d, b, other⟩ := c
  cases side with
  | left => simp only [plug, Fits, Tree.balanced_node]; tauto
  | right => simp only [plug, Fits, Tree.balanced_node]; tauto

theorem height_plug (c : Crumb α) (t : Tree α) : (c.plug t).height = max t.height c.other.height + 1 := by
  obtain ⟨side, d, b, other⟩ := c
  cases side with
  | left => rfl
  | right => exact congrArg (· + 1) (Nat.max_comm _ _)

end Crumb

/-- The whole tree around a position. -/
def plug (cs : List (Crumb α)) (t : Tree α) : Tree α :=
  cs.foldl (fun t c => c.plug t) t

@[simp] theorem plug_nil (t : Tree α) : plug [] t = t := rfl

@[simp] theorem plug_cons (c : Crumb α) (cs : List (Crumb α)) (t : Tree α) :
    plug (c :: cs) t = plug cs (c.plug t) := rfl

theorem plug_append (cs cs' : List (Crumb α)) (t : Tree α) : plug (cs ++ cs') t = plug cs' (plug cs t) :=
  List.foldl_append

theorem isNil_plug (cs : List (Crumb α)) (l : Tree α) (d : α) (b : Int) (r : Tree α) :
    (plug cs (.node l d b r)).isNil = false := by
  induction cs generalizing l d b r with
  | nil => rfl
  | cons c cs ih =>
    obtain ⟨side, cd, cb, other⟩ := c
    cases side with
    | left => exact ih _ cd cb other
    | right => exact ih other cd cb _

/-- What comes before a position. -/
def before (cs : List (Crumb α)) : List α := (cs.reverse.map Crumb.before).flatten

/-- What comes after a position. -/
def after (cs : List (Crumb α)) : List α := (cs.map Crumb.after).flatten

theorem inorder_plug (cs : List (Crumb α)) (t : Tree α) :
    (plug cs t).inorder = before cs ++ t.inorder ++ after cs := by
  induction cs generalizing t with
  | nil => simp [before, after]
  | cons c cs ih => simp [ih, Crumb.inorder_plug, before, after]

theorem even_of_plug {cs : List (Crumb α)} {t : Tree α} (even : (plug cs t).Even) : t.Even := by
  induction cs generalizing t with
  | nil => exact even
  | cons c cs ih =>
    have node := ih even
    obtain ⟨side, d, b, other⟩ := c
    cases side with
    | left => exact node.1
    | right => exact node.2.1

/-- What is at a position of a balanced tree is balanced. -/
theorem balanced_of_plug {cs : List (Crumb α)} {t : Tree α} (balanced : (plug cs t).Balanced) : t.Balanced := by
  induction cs generalizing t with
  | nil => exact balanced
  | cons c cs ih => exact (Crumb.balanced_plug.mp (ih balanced)).1

/-- A balanced tree of the same height may stand in the place of another. -/
theorem balanced_plug {cs : List (Crumb α)} {t t' : Tree α} (balanced : (plug cs t).Balanced)
    (new : t'.Balanced) (same : t'.height = t.height) : (plug cs t').Balanced := by
  induction cs generalizing t t' with
  | nil => exact new
  | cons c cs ih =>
    have node := Crumb.balanced_plug.mp (@balanced_of_plug _ cs _ balanced)
    refine ih balanced (Crumb.balanced_plug.mpr ⟨new, same ▸ node.2⟩) ?_
    rw [c.height_plug, c.height_plug, same]

/-! ### Rotations -/

section Rotations

variable {xl xr yl yr : Tree α} {xd : α}

/-- Rotates left at the left child of the node, then right at the node; the stored balances are set as if
the left child leaned to the right. -/
def rotateLeftRight : Tree α → Option (Tree α)
  | .node (.node xl xd _ (.node wl wd wb wr)) yd _ yr =>
      some (.node (.node xl xd (if wb = -1 ∨ wb = 0 then 0 else -1) wl) wd 0
        (.node wr yd (if wb = -1 then 1 else 0) yr))
  | _ => none

/-- Rotates right at the right child of the node, then left at the node. -/
def rotateRightLeft : Tree α → Option (Tree α)
  | .node yl yd _ (.node (.node wl wd wb wr) xd _ xr) =>
      some (.node (.node yl yd (if wb = 1 then -1 else 0) wl) wd 0
        (.node wr xd (if wb = 1 ∨ wb = 0 then 0 else 1) xr))
  | _ => none

/-- Rotates right at the node; `xb` and `yb` are the balances that the two nodes get. -/
def rotateRight (xb yb : Int) : Tree α → Option (Tree α)
  | .node (.node xl xd _ xr) yd _ yr => some (.node xl xd xb (.node xr yd yb yr))
  | _ => none

/-- Rotates left at the node. -/
def rotateLeft (xb yb : Int) : Tree α → Option (Tree α)
  | .node yl yd _ (.node xl xd _ xr) => some (.node (.node yl yd yb xl) xd xb xr)
  | _ => none

variable {b : Int}

/-- A left child that is two higher and does not lean to the right takes the place of the node. -/
theorem rotateRight_spec (yd : α) (xb yb y : Int) (hx : (Tree.node xl xd b xr).Balanced) (hy : yr.Balanced) (lean : b ≤ 0)
    (height : (Tree.node xl xd b xr).height = yr.height + 2) (hxb : xb = b + 1) (hyb : yb = -1 - b) :
    ∃ w, rotateRight xb yb (.node (.node xl xd b xr) yd y yr) = some w ∧ w.Balanced ∧
      (w.height : Int) = yr.height + 3 + b ∧ w.inorder = (Tree.node (.node xl xd b xr) yd y yr).inorder := by
  obtain ⟨hl, hr, hb, hlow, hup⟩ := hx
  rw [Tree.height_node] at height
  refine ⟨_, rfl, ⟨hl, ⟨hr, hy, ?_⟩, ?_⟩, ?_, ?_⟩
  · omega
  · simp only [Tree.height_node]
    omega
  · simp only [Tree.height_node]
    omega
  · simp

theorem rotateLeft_spec (yd : α) (xb yb y : Int) (hx : (Tree.node xl xd b xr).Balanced) (hy : yl.Balanced) (lean : 0 ≤ b)
    (height : (Tree.node xl xd b xr).height = yl.height + 2) (hxb : xb = b - 1) (hyb : yb = 1 - b) :
    ∃ w, rotateLeft xb yb (.node yl yd y (.node xl xd b xr)) = some w ∧ w.Balanced ∧
      (w.height : Int) = yl.height + 3 - b ∧ w.inorder = (Tree.node yl yd y (.node xl xd b xr)).inorder := by
  obtain ⟨hl, hr, hb, hlow, hup⟩ := hx
  rw [Tree.height_node] at height
  refine ⟨_, rfl, ⟨⟨hy, hl, ?_⟩, hr, ?_⟩, ?_, ?_⟩
  · omega
  · simp only [Tree.height_node]
    omega
  · simp only [Tree.height_node]
    omega
  · simp

theorem rotateLeftRight_spec (yd : α) (yb : Int) (hx : (Tree.node xl xd 1 xr).Balanced) (hy : yr.Balanced)
    (height : (Tree.node xl xd 1 xr).height = yr.height + 2) :
    ∃ w, rotateLeftRight (.node (.node xl xd 1 xr) yd yb yr) = some w ∧ w.Balanced ∧ w.height = yr.height + 2 ∧
      w.inorder = (Tree.node (.node xl xd 1 xr) yd yb yr).inorder := by
  obtain ⟨hl, hr, hb, -⟩ := hx
  rw [Tree.height_node] at height
  obtain ⟨wl, wd, wb, wr, rfl⟩ := Tree.exists_node_of_height (t := xr) (by omega)
  obtain ⟨hwl, hwr, hwb, hlow, hup⟩ := hr
  rw [Tree.height_node] at height hb
  refine ⟨_, rfl, ?_, ?_, ?_⟩
  · refine ⟨⟨hl, hwl, ?_⟩, ⟨hwr, hy, ?_⟩, ?_⟩
    · split <;> omega
    · split <;> omega
    · simp only [Tree.height_node]
      omega
  · simp only [Tree.height_node]
    omega
  · simp

theorem rotateRightLeft_spec (yd : α) (yb : Int) (hx : (Tree.node xl xd (-1) xr).Balanced) (hy : yl.Balanced)
    (height : (Tree.node xl xd (-1) xr).height = yl.height + 2) :
    ∃ w, rotateRightLeft (.node yl yd yb (.node xl xd (-1) xr)) = some w ∧ w.Balanced ∧ w.height = yl.height + 2 ∧
      w.inorder = (Tree.node yl yd yb (.node xl xd (-1) xr)).inorder := by
  obtain ⟨hl, hr, hb, -⟩ := hx
  rw [Tree.height_node] at height
  obtain ⟨wl, wd, wb, wr, rfl⟩ := Tree.exists_node_of_height (t := xl) (by omega)
  obtain ⟨hwl, hwr, hwb, hlow, hup⟩ := hl
  rw [Tree.height_node] at height hb
  refine ⟨_, rfl, ?_, ?_, ?_⟩
  · refine ⟨⟨hy, hwl, ?_⟩, ⟨hwr, hr, ?_⟩, ?_⟩
    · split <;> omega
    · split <;> omega
    · simp only [Tree.height_node]
      omega
  · simp only [Tree.height_node]
    omega
  · simp

end Rotations

end Otawa.Avl
