import Otawa.Lib.Avl

/-!
# AVL trees of ELM

`avl::AbstractTree` with the operations `add` and `set` of `avl::GenTree`. A node on the way down is a
crumb: its link that is followed is the entry of `da`. `z` has the nodes above `y`, the last node on the
way whose balance is not 0 (the root if there is none), and `path` those from `y` down, so that linking the
new node and adjusting the balances of the loop from `y` is plugging it into the adjusted crumbs.

The comparator orders the keys; two keys that it finds equal are one key here. A null pointer that is
dereferenced gives `none`, and so does a write after the end of the stack, which has `MAX_HEIGHT` entries.
-/

namespace Otawa.Elm

open Otawa.Avl

variable {α K : Type} [LinearOrder K]

namespace AbstractTree

/-- `update balance factors` at one node. -/
def adjust (c : Crumb α) : Crumb α :=
  match c.side with
  | .left => { c with balance := c.balance - 1 }
  | .right => { c with balance := c.balance + 1 }

/-- `w` where `y->balance == -2`, by the balance of `x`. -/
def rebalanceLeft : Avl.Tree α → Option (Avl.Tree α)
  | .node .nil _ _ _ => none
  | .node (.node xl xd xb xr) yd yb yr =>
      if xb = -1 then rotateRight 0 0 (.node (.node xl xd xb xr) yd yb yr)
      else rotateLeftRight (.node (.node xl xd xb xr) yd yb yr)
  | .nil => none

/-- `w` where `y->balance == + 2`. -/
def rebalanceRight : Avl.Tree α → Option (Avl.Tree α)
  | .node _ _ _ .nil => none
  | .node yl yd yb (.node xl xd xb xr) =>
      if xb = 1 then rotateLeft 0 0 (.node yl yd yb (.node xl xd xb xr))
      else rotateRightLeft (.node yl yd yb (.node xl xd xb xr))
  | .nil => none

/-- The node that takes the place of `y`. -/
def rebalance (y : Avl.Tree α) : Option (Avl.Tree α) :=
  if y.balance = -2 then rebalanceLeft y
  else if y.balance = 2 then rebalanceRight y
  else some y

/-- The root after a node is linked at the end of the path. -/
def insert (z path : List (Crumb α)) (node : Avl.Tree α) : Option (Avl.Tree α) :=
  if path = [] then some node
  else (rebalance (plug (path.map adjust) node)).map (plug z)

/-! ### The height and the balances after an insertion -/

variable {c : Crumb α} {cs : List (Crumb α)} {t t' : Avl.Tree α}

@[simp] theorem adjust_before (c : Crumb α) : (adjust c).before = c.before := by
  obtain ⟨side, d, b, other⟩ := c
  cases side <;> rfl

@[simp] theorem adjust_after (c : Crumb α) : (adjust c).after = c.after := by
  obtain ⟨side, d, b, other⟩ := c
  cases side <;> rfl

theorem inorder_adjust (cs : List (Crumb α)) (t : Avl.Tree α) :
    (plug (cs.map adjust) t).inorder = before cs ++ t.inorder ++ after cs := by
  have hbefore : before (cs.map adjust) = before cs := by simp [before, Function.comp_def]
  have hafter : after (cs.map adjust) = after cs := by simp [after, Function.comp_def]
  rw [inorder_plug, hbefore, hafter]

/-- A subtree that has grown by one: it leans to one side, unless it is a leaf. -/
structure Grown (t t' : Avl.Tree α) : Prop where
  balanced : t'.Balanced
  height : t'.height = t.height + 1
  leans : t'.balance = 0 → t'.height = 1

theorem Grown.leaf (item : α) : Grown .nil (.node .nil item 0 .nil) where
  balanced := by simp
  height := rfl
  leans _ := rfl

/-- A level node around a subtree that grows leans, and grows. -/
theorem Grown.plug (grown : Grown t t') (fits : c.Fits t.height) (level : c.balance = 0) :
    Grown (c.plug t) ((adjust c).plug t') := by
  obtain ⟨side, d, b, other⟩ := c
  obtain ⟨hother, -, -, hb⟩ := fits
  have height := grown.height
  simp only at level
  subst level
  cases side with
  | left =>
    simp only at hb
    refine ⟨⟨grown.balanced, hother, ?_⟩, ?_, fun zero => ?_⟩
    · simp only [adjust]
      omega
    · simp only [adjust, Crumb.plug, Avl.Tree.height_node]
      omega
    · simp [adjust, Crumb.plug, Avl.Tree.balance] at zero
  | right =>
    simp only at hb
    refine ⟨⟨hother, grown.balanced, ?_⟩, ?_, fun zero => ?_⟩
    · simp only [adjust]
      omega
    · simp only [adjust, Crumb.plug, Avl.Tree.height_node]
      omega
    · simp [adjust, Crumb.plug, Avl.Tree.balance] at zero

/-- Below `y` the way leads through level nodes. -/
theorem Grown.way (grown : Grown t t') (balanced : (Avl.plug cs t).Balanced) (level : ∀ c ∈ cs, c.balance = 0) :
    Grown (Avl.plug cs t) (Avl.plug (cs.map adjust) t') := by
  induction cs generalizing t t' with
  | nil => exact grown
  | cons c cs ih =>
    have fits := (Crumb.balanced_plug.mp (@balanced_of_plug _ cs _ balanced)).2
    exact ih (grown.plug fits (level c List.mem_cons_self)) balanced
      fun c' mem => level c' (List.mem_cons_of_mem c mem)

theorem rebalanceLeft_spec {x yr : Avl.Tree α} (yd : α) (yb : Int) (hx : x.Balanced) (hy : yr.Balanced)
    (height : x.height = yr.height + 2) (leans : x.balance ≠ 0) :
    ∃ w, rebalanceLeft (.node x yd yb yr) = some w ∧ w.Balanced ∧ w.height = yr.height + 2 ∧
      w.inorder = (Avl.Tree.node x yd yb yr).inorder := by
  obtain ⟨xl, xd, xb, xr, rfl⟩ := Avl.Tree.exists_node_of_height (t := x) (by omega)
  rw [rebalanceLeft]
  by_cases single : xb = -1
  · rw [if_pos single]
    obtain ⟨w, hw, hbal, hheight, horder⟩ := rotateRight_spec yd 0 0 yb hx hy (by omega) height
      (by omega) (by omega)
    exact ⟨w, hw, hbal, by omega, horder⟩
  · have right : xb = 1 := by
      obtain ⟨-, -, -, hlow, hup⟩ := hx
      simp only [Avl.Tree.balance] at leans
      omega
    subst right
    rw [if_neg single]
    exact rotateLeftRight_spec yd yb hx hy height

theorem rebalanceRight_spec {x yl : Avl.Tree α} (yd : α) (yb : Int) (hx : x.Balanced) (hy : yl.Balanced)
    (height : x.height = yl.height + 2) (leans : x.balance ≠ 0) :
    ∃ w, rebalanceRight (.node yl yd yb x) = some w ∧ w.Balanced ∧ w.height = yl.height + 2 ∧
      w.inorder = (Avl.Tree.node yl yd yb x).inorder := by
  obtain ⟨xl, xd, xb, xr, rfl⟩ := Avl.Tree.exists_node_of_height (t := x) (by omega)
  rw [rebalanceRight]
  by_cases single : xb = 1
  · rw [if_pos single]
    obtain ⟨w, hw, hbal, hheight, horder⟩ := rotateLeft_spec yd 0 0 yb hx hy (by omega) height
      (by omega) (by omega)
    exact ⟨w, hw, hbal, by omega, horder⟩
  · have left : xb = -1 := by
      obtain ⟨-, -, -, hlow, hup⟩ := hx
      simp only [Avl.Tree.balance] at leans
      omega
    subst left
    rw [if_neg single]
    exact rotateRightLeft_spec yd yb hx hy height

/-- At `y` the tree is balanced again, and if `y` leaned before it has its height again. -/
theorem rebalance_spec (grown : Grown t t') (fits : c.Fits t.height) :
    ∃ w, rebalance ((adjust c).plug t') = some w ∧ w.Balanced ∧ w.inorder = ((adjust c).plug t').inorder ∧
      (c.balance ≠ 0 → w.height = (c.plug t).height) := by
  obtain ⟨side, d, b, other⟩ := c
  obtain ⟨hother, hlow, hup, hb⟩ := fits
  obtain ⟨balanced, height, leans⟩ := grown
  cases side with
  | left =>
    simp only [adjust, Crumb.plug, Avl.Tree.height_node] at *
    by_cases high : b = -1
    · obtain ⟨w, hw, hbal, hheight, horder⟩ := rebalanceLeft_spec d (b - 1) balanced hother (by omega)
        fun zero => by have := leans zero; omega
      refine ⟨w, ?_, hbal, horder, fun _ => by omega⟩
      rw [rebalance, if_pos (by simp only [Avl.Tree.balance]; omega), hw]
    · rw [rebalance, if_neg (by simp only [Avl.Tree.balance]; omega), if_neg (by simp only [Avl.Tree.balance]; omega)]
      refine ⟨_, rfl, ⟨balanced, hother, ?_⟩, rfl, fun _ => ?_⟩
      · omega
      · simp only [Avl.Tree.height_node]
        omega
  | right =>
    simp only [adjust, Crumb.plug, Avl.Tree.height_node] at *
    by_cases high : b = 1
    · obtain ⟨w, hw, hbal, hheight, horder⟩ := rebalanceRight_spec d (b + 1) balanced hother (by omega)
        fun zero => by have := leans zero; omega
      refine ⟨w, ?_, hbal, horder, fun _ => by omega⟩
      rw [rebalance, if_neg (by simp only [Avl.Tree.balance]; omega),
        if_pos (by simp only [Avl.Tree.balance]; omega), hw]
    · rw [rebalance, if_neg (by simp only [Avl.Tree.balance]; omega), if_neg (by simp only [Avl.Tree.balance]; omega)]
      refine ⟨_, rfl, ⟨hother, balanced, ?_⟩, rfl, fun _ => ?_⟩
      · omega
      · simp only [Avl.Tree.height_node]
        omega

/-- Below `y` the nodes on the way are level, and `y` leans unless it is the root. -/
inductive Way (z : List (Crumb α)) : List (Crumb α) → Prop where
  | empty : z = [] → Way z []
  | below {cs : List (Crumb α)} {c : Crumb α} :
      (∀ c' ∈ cs, c'.balance = 0) → (z = [] ∨ c.balance ≠ 0) → Way z (cs ++ [c])

theorem insert_spec {z path : List (Crumb α)} (item : α) (balanced : (plug (path ++ z) .nil).Balanced)
    (way : Way z path) : ∃ root, insert z path (.node .nil item 0 .nil) = some root ∧ root.Balanced ∧
      root.inorder = before (path ++ z) ++ item :: after (path ++ z) := by
  cases way with
  | empty hz =>
    subst hz
    exact ⟨_, if_pos rfl, by simp, by simp [before, after]⟩
  | @below cs c level top =>
    rw [plug_append, plug_append] at balanced
    have node := Crumb.balanced_plug.mp (balanced_of_plug balanced)
    have grown := (Grown.leaf item).way node.1 level
    obtain ⟨w, hw, hbal, horder, hheight⟩ := rebalance_spec grown node.2
    refine ⟨plug z w, ?_, ?_, ?_⟩
    · rw [insert, if_neg (by simp), List.map_append, plug_append]
      exact congrArg (Option.map (plug z)) hw
    · rcases top with rfl | leans
      · exact hbal
      · exact balanced_plug balanced hbal (hheight leans)
    · have hplug := inorder_adjust (cs ++ [c]) (.node .nil item 0 .nil)
      rw [List.map_append, plug_append] at hplug
      rw [inorder_plug, horder]
      change before z ++ (plug [adjust c] (plug (cs.map adjust) _)).inorder ++ after z = _
      rw [show [adjust c] = [c].map adjust from rfl, hplug]
      simp [before, after]

end AbstractTree

structure GenTree (α : Type) where
  root : Avl.Tree α
  cnt : Int
  deriving DecidableEq, Repr

namespace GenTree

def MAX_HEIGHT : Nat := 32

def empty : GenTree α := ⟨.nil, 0⟩

/-- A write to the stack at its top. -/
def push (c : Crumb α) (cs : List (Crumb α)) : Option (List (Crumb α)) :=
  if cs.length < MAX_HEIGHT then some (c :: cs) else none

/-- The loop of `add` and `set`. When the item of a node is to be replaced it gives the root, else `z` and the
path. -/
def descend (key : α → K) (replace : Bool) (item : α) :
    Avl.Tree α → List (Crumb α) → List (Crumb α) → Option (Avl.Tree α ⊕ (List (Crumb α) × List (Crumb α)))
  | .nil, z, path => some (.inr (z, path))
  | .node l d b r, z, path =>
      if replace ∧ key item = key d then some (.inl (plug (path ++ z) (.node l item b r)))
      else
        let (z, path) := if b ≠ 0 then (path ++ z, []) else (z, path)
        if key d < key item then (push ⟨.right, d, b, l⟩ path).bind (descend key replace item r z)
        else (push ⟨.left, d, b, r⟩ path).bind (descend key replace item l z)

def store (key : α → K) (replace : Bool) (item : α) (s : GenTree α) : Option (GenTree α) :=
  (descend key replace item s.root [] []).bind fun place =>
    match place with
    | .inl root => some { s with root := root }
    | .inr (z, path) =>
        (AbstractTree.insert z path (.node .nil item 0 .nil)).map fun root => ⟨root, s.cnt + 1⟩

def add (key : α → K) (item : α) (s : GenTree α) : Option (GenTree α) := store key false item s

def set (key : α → K) (item : α) (s : GenTree α) : Option (GenTree α) := store key true item s

variable {key : α → K} {item : α}

/-! ### Reachable trees -/

/-- The keys go up in the tree, the stored balances are right, and the count is the number of nodes. -/
structure Valid (key : α → K) (s : GenTree α) : Prop where
  sorted : s.root.inorder.Pairwise fun a b => key a ≤ key b
  balanced : s.root.Balanced
  count : s.cnt = s.root.size

theorem valid_empty : (empty : GenTree α).Valid key where
  sorted := List.Pairwise.nil
  balanced := trivial
  count := rfl

/-- Where the descent ends. -/
inductive Descends (key : α → K) (replace : Bool) (item : α) (root : Avl.Tree α) :
    Avl.Tree α ⊕ (List (Crumb α) × List (Crumb α)) → Prop where
  | found {cs : List (Crumb α)} {l : Avl.Tree α} {d : α} {b : Int} {r : Avl.Tree α} :
      replace = true → key d = key item → root = plug cs (.node l d b r) →
      Descends key replace item root (.inl (plug cs (.node l item b r)))
  | missing {z path : List (Crumb α)} :
      root = plug (path ++ z) .nil → AbstractTree.Way z path →
      (∀ a ∈ before (path ++ z), key a < key item) →
      (∀ a ∈ after (path ++ z), if replace then key item < key a else key item ≤ key a) →
      Descends key replace item root (.inr (z, path))

/-- The bounds that the way down has established. -/
structure Bounds (key : α → K) (replace : Bool) (item : α) (cs : List (Crumb α)) : Prop where
  before : ∀ a ∈ before cs, key a < key item
  after : ∀ a ∈ after cs, if replace then key item < key a else key item ≤ key a

variable {replace : Bool} {cs z path : List (Crumb α)} {l r : Avl.Tree α} {d : α} {b : Int} {root : Avl.Tree α}

theorem sorted_of_plug {t : Avl.Tree α} (sorted : (plug cs t).inorder.Pairwise fun a b => key a ≤ key b) :
    t.inorder.Pairwise fun a b => key a ≤ key b := by
  rw [inorder_plug, List.pairwise_append, List.pairwise_append] at sorted
  exact sorted.1.2.1

theorem Bounds.right (bounds : Bounds key replace item cs)
    (sorted : (Avl.Tree.node l d b r).inorder.Pairwise fun a b => key a ≤ key b) (above : key d < key item) :
    Bounds key replace item (⟨.right, d, b, l⟩ :: cs) where
  before a mem := by
    rw [Avl.Tree.inorder_node, List.pairwise_append] at sorted
    simp only [Avl.before, List.reverse_cons, List.map_append, List.flatten_append, List.mem_append] at mem
    rcases mem with mem | mem
    · exact bounds.before a mem
    · simp only [List.map_cons, List.map_nil, Crumb.before, List.flatten_cons, List.flatten_nil, List.append_nil,
        List.mem_append, List.mem_singleton] at mem
      rcases mem with mem | rfl
      · exact lt_of_le_of_lt (sorted.2.2 a mem d List.mem_cons_self) above
      · exact above
  after a mem := bounds.after a (by simpa [Avl.after, Crumb.after] using mem)

theorem Bounds.left (bounds : Bounds key replace item cs)
    (sorted : (Avl.Tree.node l d b r).inorder.Pairwise fun a b => key a ≤ key b)
    (below : if replace then key item < key d else key item ≤ key d) :
    Bounds key replace item (⟨.left, d, b, r⟩ :: cs) where
  before a mem := bounds.before a (by simpa [Avl.before, Crumb.before] using mem)
  after a mem := by
    rw [Avl.Tree.inorder_node, List.pairwise_append, List.pairwise_cons] at sorted
    simp only [Avl.after, List.map_cons, Crumb.after, List.flatten_cons, List.cons_append, List.mem_cons,
      List.mem_append] at mem
    rcases mem with rfl | mem | mem
    · exact below
    · have le := sorted.2.1.1 a mem
      cases replace with
      | true => exact lt_of_lt_of_le below le
      | false => exact le_trans below le
    · exact bounds.after a mem

/-- A node is added to the way; when it leans it is the new `y`. -/
theorem way_push (way : AbstractTree.Way z path) (c : Crumb α) :
    if c.balance ≠ 0 then AbstractTree.Way (path ++ z) [c] else AbstractTree.Way z (c :: path) := by
  split
  case isTrue leans => exact @AbstractTree.Way.below α (path ++ z) [] c nofun (.inr leans)
  case isFalse level =>
    cases way with
    | empty hz => exact @AbstractTree.Way.below α z [] c nofun (.inl hz)
    | @below cs y below top =>
      refine @AbstractTree.Way.below α z (c :: cs) y (fun c' mem => ?_) top
      rcases List.mem_cons.mp mem with rfl | mem
      · exact not_not.mp level
      · exact below c' mem

theorem push_eq_some {c : Crumb α} {cs' : List (Crumb α)} (pushed : push c cs = some cs') : cs' = c :: cs := by
  unfold push at pushed
  split at pushed
  · exact (Option.some.inj pushed).symm
  · cases pushed

theorem descend_spec {t : Avl.Tree α} {place : Avl.Tree α ⊕ (List (Crumb α) × List (Crumb α))}
    (hroot : root = plug (path ++ z) t) (sorted : root.inorder.Pairwise fun a b => key a ≤ key b)
    (way : AbstractTree.Way z path) (bounds : Bounds key replace item (path ++ z))
    (descended : descend key replace item t z path = some place) : Descends key replace item root place := by
  induction t generalizing z path with
  | nil =>
    cases descended
    exact .missing hroot way bounds.before bounds.after
  | node l d b r ihl ihr =>
    rw [descend] at descended
    by_cases found : replace = true ∧ key item = key d
    · rw [if_pos found] at descended
      cases descended
      exact .found found.1 found.2.symm hroot
    rw [if_neg found] at descended
    have sorted' := sorted_of_plug (hroot ▸ sorted)
    have hleft := way_push way ⟨.left, d, b, r⟩
    have hright := way_push way ⟨.right, d, b, l⟩
    have below : ¬ key d < key item → if replace then key item < key d else key item ≤ key d := by
      intro above
      split
      case isTrue replaces => exact lt_of_le_of_ne (not_lt.mp above) fun same => found ⟨replaces, same⟩
      case isFalse => exact not_lt.mp above
    by_cases leans : b ≠ 0
    · simp only [if_pos leans] at hleft hright descended
      split at descended
      case isTrue above =>
        obtain ⟨cs, pushed, descended⟩ := Option.bind_eq_some_iff.mp descended
        cases push_eq_some pushed
        exact ihr hroot hright (bounds.right sorted' above) descended
      case isFalse above =>
        obtain ⟨cs, pushed, descended⟩ := Option.bind_eq_some_iff.mp descended
        cases push_eq_some pushed
        exact ihl hroot hleft (bounds.left sorted' (below above)) descended
    · simp only [if_neg leans] at hleft hright descended
      split at descended
      case isTrue above =>
        obtain ⟨cs, pushed, descended⟩ := Option.bind_eq_some_iff.mp descended
        cases push_eq_some pushed
        exact ihr hroot hright (bounds.right sorted' above) descended
      case isFalse above =>
        obtain ⟨cs, pushed, descended⟩ := Option.bind_eq_some_iff.mp descended
        cases push_eq_some pushed
        exact ihl hroot hleft (bounds.left sorted' (below above)) descended

/-- From the last node that leans, and from the root if there is none, at most `MAX_HEIGHT` nodes are on the way
down; `n` of them are already passed. -/
def FitsStack (key : α → K) (replace : Bool) (item : α) : Avl.Tree α → Nat → Prop
  | .nil, _ => True
  | .node l d b r, n =>
      (replace = true ∧ key item = key d) ∨
        (if b ≠ 0 then 0 else n) < MAX_HEIGHT ∧
          if key d < key item then FitsStack key replace item r ((if b ≠ 0 then 0 else n) + 1)
          else FitsStack key replace item l ((if b ≠ 0 then 0 else n) + 1)

theorem bind_push_isSome {β : Type} (c : Crumb α) (cs : List (Crumb α)) (f : List (Crumb α) → Option β) :
    ((push c cs).bind f).isSome ↔ cs.length < MAX_HEIGHT ∧ (f (c :: cs)).isSome := by
  unfold push
  split
  case isTrue fits => exact (and_iff_right fits).symm
  case isFalse full => simp [full]

theorem descend_isSome (t : Avl.Tree α) (z path : List (Crumb α)) :
    (descend key replace item t z path).isSome ↔ FitsStack key replace item t path.length := by
  induction t generalizing z path with
  | nil => exact ⟨fun _ => trivial, fun _ => rfl⟩
  | node l d b r ihl ihr =>
    rw [descend, FitsStack]
    by_cases found : replace = true ∧ key item = key d
    · rw [if_pos found]
      exact ⟨fun _ => .inl found, fun _ => rfl⟩
    rw [if_neg found, or_iff_right found]
    by_cases leans : b ≠ 0
    · simp only [if_pos leans]
      split
      · rw [bind_push_isSome, ihr]
        rfl
      · rw [bind_push_isSome, ihl]
        rfl
    · simp only [if_neg leans]
      split
      · rw [bind_push_isSome, ihr]
        rfl
      · rw [bind_push_isSome, ihl]
        rfl

/-! ### Insertion -/

/-- The item is put in its place, after the smaller keys. -/
def Inserted (key : α → K) (item : α) (old new : List α) : Prop :=
  ∃ l₁ l₂, old = l₁ ++ l₂ ∧ new = l₁ ++ item :: l₂ ∧ (∀ a ∈ l₁, key a < key item) ∧ ∀ a ∈ l₂, key item ≤ key a

/-- The item takes the place of one with its key. -/
def Replaced (key : α → K) (item : α) (old new : List α) : Prop :=
  ∃ l₁ d l₂, old = l₁ ++ d :: l₂ ∧ new = l₁ ++ item :: l₂ ∧ key d = key item

theorem Inserted.sorted {old new : List α} (inserted : Inserted key item old new)
    (sorted : old.Pairwise fun a b => key a ≤ key b) : new.Pairwise fun a b => key a ≤ key b := by
  obtain ⟨l₁, l₂, rfl, rfl, below, above⟩ := inserted
  rw [List.pairwise_append] at sorted ⊢
  refine ⟨sorted.1, List.pairwise_cons.mpr ⟨above, sorted.2.1⟩, fun a mem b mem' => ?_⟩
  rcases List.mem_cons.mp mem' with rfl | mem'
  · exact le_of_lt (below a mem)
  · exact sorted.2.2 a mem b mem'

theorem Replaced.sorted {old new : List α} (replaced : Replaced key item old new)
    (sorted : old.Pairwise fun a b => key a ≤ key b) : new.Pairwise fun a b => key a ≤ key b := by
  obtain ⟨l₁, d, l₂, rfl, rfl, same⟩ := replaced
  rw [List.pairwise_append, List.pairwise_cons] at sorted ⊢
  refine ⟨sorted.1, ⟨fun b mem => same ▸ sorted.2.1.1 b mem, sorted.2.1.2⟩, fun a mem b mem' => ?_⟩
  rcases List.mem_cons.mp mem' with rfl | mem'
  · exact same ▸ sorted.2.2 a mem d List.mem_cons_self
  · exact sorted.2.2 a mem b (List.mem_cons_of_mem d mem')

theorem length_inserted {old new : List α} (inserted : Inserted key item old new) : new.length = old.length + 1 := by
  obtain ⟨l₁, l₂, rfl, rfl, -, -⟩ := inserted
  simp only [List.length_append, List.length_cons]
  omega

/-- What an operation leaves; `set` inserts an item only where its key is missing. -/
structure Stored (key : α → K) (replace : Bool) (item : α) (s s' : GenTree α) : Prop where
  valid : s'.Valid key
  order : (replace = true ∧ Replaced key item s.root.inorder s'.root.inorder) ∨
    (Inserted key item s.root.inorder s'.root.inorder ∧
      (replace = true → ∀ a ∈ s.root.inorder, key a ≠ key item))

theorem stored_of_place {s : GenTree α} (valid : s.Valid key) {place : Avl.Tree α ⊕ (List (Crumb α) × List (Crumb α))}
    (descends : Descends key replace item s.root place) :
    ∃ s', (match place with
      | .inl root => some { s with root := root }
      | .inr (z, path) =>
        (AbstractTree.insert z path (.node .nil item 0 .nil)).map fun root => ⟨root, s.cnt + 1⟩) = some s' ∧
      Stored key replace item s s' := by
  cases descends with
  | @found cs l d b r replaces same hroot =>
    have replaced : Replaced key item s.root.inorder (plug cs (.node l item b r)).inorder := by
      refine ⟨before cs ++ l.inorder, d, r.inorder ++ after cs, ?_, ?_, same⟩
      · rw [hroot, inorder_plug]
        simp
      · rw [inorder_plug]
        simp
    refine ⟨_, rfl, ⟨replaced.sorted valid.sorted, ?_, ?_⟩, .inl ⟨replaces, replaced⟩⟩
    · have balanced := hroot ▸ valid.balanced
      have node : (Avl.Tree.node l d b r).Balanced := balanced_of_plug balanced
      exact @balanced_plug α cs (.node l d b r) (.node l item b r) balanced node rfl
    · rw [valid.count, ← Avl.Tree.length_inorder, ← Avl.Tree.length_inorder]
      obtain ⟨l₁, d', l₂, hold, hnew, -⟩ := replaced
      rw [hold, hnew]
      simp
  | @missing z path hroot way below above =>
    obtain ⟨root, hinsert, balanced, horder⟩ := AbstractTree.insert_spec item (hroot ▸ valid.balanced) way
    have hold : s.root.inorder = before (path ++ z) ++ after (path ++ z) := by
      rw [hroot, inorder_plug]
      simp
    have above' : ∀ a ∈ after (path ++ z), key item ≤ key a := by
      intro a mem
      have := above a mem
      split at this
      · exact this.le
      · exact this
    have inserted : Inserted key item s.root.inorder root.inorder := ⟨_, _, hold, horder, below, above'⟩
    refine ⟨⟨root, s.cnt + 1⟩, ?_, ⟨inserted.sorted valid.sorted, balanced, ?_⟩, .inr ⟨inserted, ?_⟩⟩
    · simp only [hinsert, Option.map_some]
    · have hsize := length_inserted inserted
      rw [Avl.Tree.length_inorder, Avl.Tree.length_inorder] at hsize
      rw [valid.count, hsize]
      push_cast
      rfl
    · rintro rfl a mem
      rw [hold, List.mem_append] at mem
      rcases mem with mem | mem
      · exact (below a mem).ne
      · exact (by simpa using above a mem : key item < key a).ne'

/-- An operation that does not write after the end of its stack keeps a tree valid. -/
theorem store_spec {s : GenTree α} (valid : s.Valid key) (replace : Bool) (item : α) :
    (∃ s', s.store key replace item = some s' ∧ Stored key replace item s s') ↔
      FitsStack key replace item s.root 0 := by
  refine Iff.trans ?_ (descend_isSome s.root [] [])
  constructor
  · rintro ⟨s', stored, -⟩
    obtain ⟨place, descended, -⟩ := Option.bind_eq_some_iff.mp stored
    exact Option.isSome_iff_exists.mpr ⟨place, descended⟩
  · intro fits
    obtain ⟨place, descended⟩ := Option.isSome_iff_exists.mp fits
    have descends := descend_spec (by rfl) valid.sorted (.empty rfl) ⟨nofun, nofun⟩ descended
    obtain ⟨s', hs, stored⟩ := stored_of_place valid descends
    refine ⟨s', ?_, stored⟩
    rw [store, descended]
    exact hs

/-- The trees that adds and sets lead to. -/
inductive Grows (key : α → K) : GenTree α → Prop where
  | empty : Grows key empty
  | add {s s' : GenTree α} {item : α} : Grows key s → s.add key item = some s' → Grows key s'
  | set {s s' : GenTree α} {item : α} : Grows key s → s.set key item = some s' → Grows key s'

theorem Stored.of_some {s s' : GenTree α} (valid : s.Valid key) (stored : s.store key replace item = some s') :
    Stored key replace item s s' := by
  obtain ⟨place, descended, -⟩ := Option.bind_eq_some_iff.mp stored
  have fits := (descend_isSome s.root [] []).mp (Option.isSome_iff_exists.mpr ⟨place, descended⟩)
  obtain ⟨s'', stored', spec⟩ := (store_spec valid replace item).mpr fits
  cases stored.symm.trans stored'
  exact spec

theorem Grows.valid {s : GenTree α} (grows : Grows key s) : s.Valid key := by
  induction grows with
  | empty => exact valid_empty
  | add _ stored ih => exact (Stored.of_some ih stored).valid
  | set _ stored ih => exact (Stored.of_some ih stored).valid

end GenTree

end Otawa.Elm
