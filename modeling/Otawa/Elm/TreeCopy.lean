import Otawa.Elm.Removal

/-!
# The copy of an AVL tree

`GenTree::copy` into an empty tree, as the copy constructor calls it. The nodes are in one memory, and a
pointer is the index of its node or null; `Reads` relates a pointer to the tree that it leads to. The loop
takes a node of the source and the link that is to point to its copy from a stack with
`MAX_HEIGHT + 1` entries.

The constructor of a node from another one copies the data and leaves the balance 0: the copy of a tree is
the tree without its balances.
-/

namespace Otawa.Elm

open Otawa.Avl

variable {α K : Type}

namespace AbstractTree

/-- `AbstractTree::Node`, with the data of `GenTree::Node`. -/
structure Node (α : Type) where
  left : Option Nat
  right : Option Nat
  balance : Int
  data : α
  deriving DecidableEq, Repr

/-- `Node(const Node *node)`. -/
def Node.ofNode (node : Node α) : Node α where
  left := none
  right := none
  balance := 0
  data := node.data

def Node.setLink (node : Node α) (side : Side) (p : Option Nat) : Node α :=
  match side with
  | .left => { node with left := p }
  | .right => { node with right := p }

/-- The pointer leads to the tree, through nodes that satisfy the condition. -/
inductive Reads (nodes : List (Node α)) (own : Nat → Prop) : Option Nat → Avl.Tree α → Prop where
  | nil : Reads nodes own none .nil
  | node {a : Nat} {node : Node α} {l r : Avl.Tree α} : nodes[a]? = some node → own a →
      Reads nodes own node.left l → Reads nodes own node.right r →
      Reads nodes own (some a) (.node l node.data node.balance r)

/-- The address of a pointer: that of the root of the new tree, or of a link of a node. -/
inductive Slot where
  | root
  | link (a : Nat) (side : Side)
  deriving DecidableEq, Repr

/-- `*slot = p`, for a slot in a node. -/
def putLink (nodes : List (Node α)) (slot : Slot) (p : Option Nat) : List (Node α) :=
  match slot with
  | .root => nodes
  | .link a side => nodes.modify a fun node => node.setLink side p

/-- `*slot = p`, for the root. -/
def putRoot (root : Option Nat) (slot : Slot) (p : Option Nat) : Option Nat :=
  match slot with
  | .root => p
  | .link _ _ => root

/-- What the loop of `copy` works on. -/
structure Copying (α : Type) where
  nodes : List (Node α)
  root : Option Nat
  stack : List (Nat × Slot)

end AbstractTree

namespace GenTree

open AbstractTree

/-- `if(p) *sp++ = pair(p, slot)`; there is no result when the stack is full. -/
def pushPair (p : Option Nat) (slot : Slot) (sp : List (Nat × Slot)) : Option (List (Nat × Slot)) :=
  match p with
  | none => some sp
  | some c => if sp.length < MAX_HEIGHT + 1 then some ((c, slot) :: sp) else none

/-- The body of the loop, for the pair that has been popped. -/
def copyNode (nodes : List (Node α)) (root : Option Nat) (c : Nat) (slot : Slot) (sp : List (Nat × Slot)) :
    Option (Copying α) :=
  nodes[c]?.bind fun source =>
    let a := nodes.length
    (pushPair source.left (.link a .left) sp).bind fun sp =>
      (pushPair source.right (.link a .right) sp).map fun sp =>
        { nodes := putLink nodes slot (some a) ++ [source.ofNode], root := putRoot root slot (some a), stack := sp }

/-- The loop, within a number of rounds. -/
def copyLoop : Nat → Copying α → Option (Copying α)
  | rounds, m =>
    match m.stack with
    | [] => some m
    | (c, slot) :: sp =>
      match rounds with
      | 0 => none
      | rounds + 1 => (copyNode m.nodes m.root c slot sp).bind (copyLoop rounds)

/-- The nodes and the root of the new tree after `copy`. -/
def copy (rounds : Nat) (nodes : List (Node α)) (root : Option Nat) : Option (List (Node α) × Option Nat) :=
  (pushPair root .root []).bind fun sp =>
    (copyLoop rounds { nodes := nodes, root := none, stack := sp }).map fun m => (m.nodes, m.root)

end GenTree

namespace AbstractTree

variable {N nodes nodes' : List (Node α)} {own own' : Nat → Prop} {p q : Option Nat} {t u : Avl.Tree α}

/-! ### The memory -/

theorem Reads.mono (reads : Reads nodes own p t)
    (kept : ∀ k node, own k → nodes[k]? = some node → nodes'[k]? = some node ∧ own' k) : Reads nodes' own' p t := by
  induction reads with
  | nil => exact .nil
  | node found owned _ _ ihl ihr =>
    obtain ⟨found', owned'⟩ := kept _ _ owned found
    exact .node found' owned' ihl ihr

/-- A pointer leads to one tree. -/
theorem Reads.unique (reads : Reads nodes own p t) (reads' : Reads nodes own' p u) : t = u := by
  induction reads generalizing u with
  | nil =>
    cases reads' with
    | nil => rfl
  | node found _ _ _ ihl ihr =>
    cases reads' with
    | node found' _ left right =>
      cases found.symm.trans found'
      rw [ihl left, ihr right]

theorem Reads.isNil (reads : Reads nodes own p t) : t.isNil = p.isNone := by
  cases reads <;> rfl

@[simp] theorem length_putLink (nodes : List (Node α)) (slot : Slot) (p : Option Nat) :
    (putLink nodes slot p).length = nodes.length := by
  cases slot with
  | root => rfl
  | link a side => simp [putLink]

theorem putRoot_link (root : Option Nat) (a : Nat) (side : Side) (p : Option Nat) :
    putRoot root (.link a side) p = root := rfl

/-- Only the node of the slot is written. -/
theorem getElem?_putLink {slot : Slot} {k : Nat} (other : ∀ side, slot ≠ .link k side) :
    (putLink nodes slot p)[k]? = nodes[k]? := by
  cases slot with
  | root => rfl
  | link a side =>
    have ne : a ≠ k := by
      rintro rfl
      exact other side rfl
    simp [putLink, ne]

/-- The write of a link of the node after `first`, before the nodes that come later are appended. -/
theorem putLink_last {first : List (Node α)} {a : Nat} (length : first.length = a) (node : Node α)
    (rest new : List (Node α)) (side : Side) (p : Option Nat) :
    putLink (first ++ node :: rest) (.link a side) p ++ new = first ++ node.setLink side p :: (rest ++ new) := by
  subst length
  rw [putLink, List.modify_eq_take_cons_drop (by simp)]
  simp

/-- The slot is null, and it is not in the memory `N`. -/
def Free (N nodes : List (Node α)) (root : Option Nat) (slot : Slot) : Prop :=
  match slot with
  | .root => root = none
  | .link a side => N.length ≤ a ∧ ∃ node, nodes[a]? = some node ∧ node.setLink side none = node

theorem putLink_none {root : Option Nat} {slot : Slot} (free : Free N nodes root slot) :
    putLink nodes slot none = nodes ∧ putRoot root slot none = root := by
  cases slot with
  | root => exact ⟨rfl, free.symm⟩
  | link a side =>
    obtain ⟨-, node, found, null⟩ := free
    refine ⟨?_, rfl⟩
    apply List.ext_getElem?
    intro k
    rw [putLink, List.getElem?_modify]
    by_cases here : a = k
    · rw [← here, found]
      simp [null]
    · simp [here]

theorem free_last {first : List (Node α)} {a : Nat} (length : first.length = a) (inside : N.length ≤ a) {node : Node α}
    {side : Side} (null : node.setLink side none = node) (rest : List (Node α)) (root : Option Nat) :
    Free N (first ++ node :: rest) root (.link a side) :=
  ⟨inside, node, by simp [← length], null⟩

/-- The node after `first`, with its right subtree in the nodes that follow it and the left one in those after. -/
theorem Reads.node_last {first newr newl : List (Node α)} {a : Nat} (length : first.length = a) {node : Node α}
    {half empty : Node α} {l r : Avl.Tree α}
    (left : Reads (first ++ node :: (newr ++ newl)) ((first ++ half :: newr).length ≤ ·) node.left l)
    (right : Reads (first ++ half :: newr) ((first ++ [empty]).length ≤ ·) node.right r) :
    Reads (first ++ node :: (newr ++ newl)) (a ≤ ·) (some a) (.node l node.data node.balance r) := by
  subst length
  have here : (first ++ node :: (newr ++ newl))[first.length]? = some node := by simp
  refine .node here (Nat.le_refl _) (left.mono fun k _ later found => ⟨found, ?_⟩)
    (right.mono fun k _ later found => ⟨?_, ?_⟩)
  · simp only [List.length_append, List.length_cons] at later
    omega
  · have after : first.length < k := by simpa [Nat.succ_le_iff] using later
    obtain ⟨j, rfl⟩ := Nat.exists_eq_add_of_lt after
    rw [Nat.add_assoc, List.getElem?_append_right (by omega), Nat.add_sub_cancel_left, List.getElem?_cons_succ] at found ⊢
    exact List.getElem?_append_left (List.getElem?_eq_some_iff.mp found).1 ▸ found
  · simp only [List.length_append, List.length_singleton] at later
    omega

/-- The memory `N` is as it was, and there may be more nodes. -/
structure Extends (N nodes : List (Node α)) : Prop where
  kept : ∀ k < N.length, nodes[k]? = N[k]?
  length : N.length ≤ nodes.length

theorem Extends.putLink {root : Option Nat} {slot : Slot} (ext : Extends N nodes) (free : Free N nodes root slot)
    (p : Option Nat) (new : List (Node α)) : Extends N (putLink nodes slot p ++ new) where
  kept k old := by
    have inside : k < nodes.length := Nat.lt_of_lt_of_le old ext.length
    rw [List.getElem?_append_left (by simpa using inside), getElem?_putLink, ext.kept k old]
    rintro side rfl
    exact absurd free.1 (Nat.not_le.mpr old)
  length := by
    have := ext.length
    simp only [List.length_append, length_putLink]
    omega

end AbstractTree

namespace GenTree

open AbstractTree

variable {N nodes : List (Node α)} {own : Nat → Prop} {p : Option Nat} {t : Avl.Tree α} {root : Option Nat} {slot : Slot}

/-! ### The loop -/

/-- The pair that is pushed for a pointer. -/
def pending (p : Option Nat) (slot : Slot) : List (Nat × Slot) :=
  match p with
  | none => []
  | some c => [(c, slot)]

/-- The pairs on the stack at most, from the one for the root of the tree up. -/
def peak : Avl.Tree α → Nat
  | .nil => 0
  | .node l _ _ r => max (max 1 (peak l)) ((if l.isNil then 0 else 1) + peak r)

theorem length_pending (slot : Slot) (reads : Reads N own p t) : (pending p slot).length = if t.isNil then 0 else 1 := by
  rw [reads.isNil]
  cases p <;> rfl

theorem length_pending_le (slot : Slot) (reads : Reads N own p t) : (pending p slot).length ≤ peak t := by
  cases reads with
  | nil => exact Nat.le_refl 0
  | node _ _ _ _ => exact Nat.le_trans (Nat.le_max_left ..) (Nat.le_max_left ..)

theorem pushPair_eq {sp : List (Nat × Slot)} (room : sp.length ≤ MAX_HEIGHT + 1) :
    pushPair p slot sp =
      if (pending p slot ++ sp).length ≤ MAX_HEIGHT + 1 then some (pending p slot ++ sp) else none := by
  cases p with
  | none => simp [pushPair, pending, room]
  | some c => simp [pushPair, pending, Nat.lt_succ_iff]

/-- A round pops a pair, and pushes those for the links of its node if there is room for both. -/
theorem copyLoop_pop {c : Nat} {source : Node α} (sp : List (Nat × Slot)) (found : nodes[c]? = some source)
    (room : sp.length ≤ MAX_HEIGHT + 1) (rounds : Nat) :
    copyLoop (rounds + 1) ⟨nodes, root, (c, slot) :: sp⟩ =
      if (pending source.right (.link nodes.length .right) ++
          (pending source.left (.link nodes.length .left) ++ sp)).length ≤ MAX_HEIGHT + 1 then
        copyLoop rounds ⟨putLink nodes slot (some nodes.length) ++ [source.ofNode], putRoot root slot (some nodes.length),
          pending source.right (.link nodes.length .right) ++ (pending source.left (.link nodes.length .left) ++ sp)⟩
      else none := by
  have step : copyLoop (rounds + 1) ⟨nodes, root, (c, slot) :: sp⟩ =
      (copyNode nodes root c slot sp).bind (copyLoop rounds) := rfl
  rw [step, copyNode, found, Option.bind_some]
  by_cases rooml : (pending source.left (.link nodes.length .left) ++ sp).length ≤ MAX_HEIGHT + 1
  · simp only [pushPair_eq room, if_pos rooml, Option.bind_some, pushPair_eq rooml]
    split
    · rfl
    · rfl
  · have roomr : ¬ (pending source.right (.link nodes.length .right) ++
        (pending source.left (.link nodes.length .left) ++ sp)).length ≤ MAX_HEIGHT + 1 := by
      rw [List.length_append]
      omega
    simp only [pushPair_eq room, if_neg rooml, Option.bind_none, if_neg roomr]

theorem copyLoop_spec (src : Reads N own p t) : ∀ {nodes : List (Node α)} {root : Option Nat} {slot : Slot},
    Extends N nodes → Free N nodes root slot →
      ∃ q new, Reads (putLink nodes slot q ++ new) (nodes.length ≤ ·) q t.strip ∧
        ∀ sp n, (pending p slot ++ sp).length ≤ MAX_HEIGHT + 1 →
          copyLoop (t.size + n) ⟨nodes, root, pending p slot ++ sp⟩ =
            if sp.length + peak t ≤ MAX_HEIGHT + 1 then
              copyLoop n ⟨putLink nodes slot q ++ new, putRoot root slot q, sp⟩
            else none := by
  induction src with
  | nil =>
    intro nodes root slot ext free
    refine ⟨none, [], .nil, fun sp n room => ?_⟩
    obtain ⟨same, sameRoot⟩ := putLink_none free
    have room' : sp.length + peak (.nil : Avl.Tree α) ≤ MAX_HEIGHT + 1 := room
    rw [if_pos room', same, sameRoot, List.append_nil, Avl.Tree.size, Nat.zero_add]
    rfl
  | @node c source l r found owned left right ihl ihr =>
    intro nodes root slot ext free
    have length : (putLink nodes slot (some nodes.length)).length = nodes.length := length_putLink ..
    generalize hfirst : putLink nodes slot (some nodes.length) = first at length
    -- the right subtree is copied first, as its pair is on the top
    have ext₁ : Extends N (first ++ [source.ofNode]) := hfirst ▸ ext.putLink free _ _
    have free₁ : Free N (first ++ [source.ofNode]) (putRoot root slot (some nodes.length)) (.link nodes.length .right) :=
      free_last length ext.length rfl _ _
    obtain ⟨qr, newr, readsr, stepr⟩ := ihr ext₁ free₁
    have ext₂ := ext₁.putLink free₁ qr newr
    rw [putLink_last length] at readsr ext₂
    simp only [putLink_last length, putRoot_link] at stepr
    have free₂ : Free N (first ++ source.ofNode.setLink .right qr :: ([] ++ newr)) (putRoot root slot (some nodes.length))
        (.link nodes.length .left) := free_last length ext.length rfl _ _
    obtain ⟨ql, newl, readsl, stepl⟩ := ihl ext₂ free₂
    rw [putLink_last length] at readsl
    simp only [putLink_last length, putRoot_link] at stepl
    refine ⟨some nodes.length, (source.ofNode.setLink .right qr).setLink .left ql :: (newr ++ newl), ?_,
      fun sp n room => ?_⟩
    · rw [hfirst]
      exact Reads.node_last length readsl readsr
    · have hsource : nodes[c]? = some source := by
        rw [ext.kept c (List.getElem?_eq_some_iff.mp found).1, found]
      have room' : sp.length + 1 ≤ MAX_HEIGHT + 1 := by simpa [pending, Nat.add_comm] using room
      have hpeakl := length_pending_le (.link nodes.length .left) left
      have hpeakr := length_pending_le (.link nodes.length .right) right
      have htopl := length_pending (.link nodes.length .left) left
      have hrounds : (Avl.Tree.node l source.data source.balance r).size + n = r.size + (l.size + n) + 1 := by
        rw [Avl.Tree.size]
        omega
      rw [hrounds]
      refine (copyLoop_pop sp hsource (by omega) _).trans ?_
      rw [hfirst]
      have hlen : (pending source.left (.link nodes.length .left) ++ sp).length =
          (if l.isNil then 0 else 1) + sp.length := by rw [List.length_append, htopl]
      have hfits : sp.length + peak (.node l source.data source.balance r) ≤ MAX_HEIGHT + 1 ↔
          (pending source.left (.link nodes.length .left) ++ sp).length + peak r ≤ MAX_HEIGHT + 1 ∧
            sp.length + peak l ≤ MAX_HEIGHT + 1 := by
        rw [peak, hlen]
        omega
      by_cases roomr : (pending source.right (.link nodes.length .right) ++
          (pending source.left (.link nodes.length .left) ++ sp)).length ≤ MAX_HEIGHT + 1
      · rw [if_pos roomr, stepr _ _ roomr]
        by_cases fitr : (pending source.left (.link nodes.length .left) ++ sp).length + peak r ≤ MAX_HEIGHT + 1
        · rw [if_pos fitr, stepl _ _ (Nat.le_trans (Nat.le_add_right ..) fitr)]
          refine if_congr ?_ rfl rfl
          rw [hfits, and_iff_right fitr]
        · rw [if_neg fitr, if_neg fun fits => fitr (hfits.mp fits).1]
      · have fitr : ¬ (pending source.left (.link nodes.length .left) ++ sp).length + peak r ≤ MAX_HEIGHT + 1 := by
          rw [List.length_append] at roomr
          omega
        rw [if_neg roomr, if_neg fun fits => fitr (hfits.mp fits).1]

/-- More rounds give the same result. -/
theorem copyLoop_mono (k : Nat) {n : Nat} {m m' : Copying α} (done : copyLoop n m = some m') :
    copyLoop (n + k) m = some m' := by
  induction n generalizing m with
  | zero =>
    obtain ⟨nodes, root, _ | ⟨⟨c, slot⟩, sp⟩⟩ := m
    · cases k <;> exact done
    · cases done
  | succ n ih =>
    rw [Nat.succ_add]
    obtain ⟨nodes, root, _ | ⟨⟨c, slot⟩, sp⟩⟩ := m
    · exact done
    · obtain ⟨m₁, step, rest⟩ := Option.bind_eq_some_iff.mp done
      exact Option.bind_eq_some_iff.mpr ⟨m₁, step, ih rest⟩

/-- With enough rounds the copy has the stripped tree in new nodes, if the stack has room for it. -/
theorem copy_spec (src : Reads nodes own p t) : ∃ q new, Reads (nodes ++ new) (nodes.length ≤ ·) q t.strip ∧
    ∀ n, copy (t.size + n) nodes p = if peak t ≤ MAX_HEIGHT + 1 then some (nodes ++ new, q) else none := by
  obtain ⟨q, new, reads, loop⟩ := @copyLoop_spec _ _ _ _ _ src nodes none .root ⟨fun _ _ => rfl, Nat.le_refl _⟩ rfl
  refine ⟨q, new, reads, fun n => ?_⟩
  have room : (pending p .root ++ []).length ≤ MAX_HEIGHT + 1 := by
    rw [List.append_nil, length_pending .root src]
    split <;> decide
  have hstack := loop [] n room
  rw [copy, pushPair_eq (Nat.zero_le _), if_pos room, Option.bind_some, hstack, List.length_nil, Nat.zero_add]
  split
  · cases n <;> rfl
  · rfl

/-! ### The copy and its original -/

variable [LinearOrder K] {key : α → K} {debug : Bool}

theorem peak_of_level (balanced : t.Balanced) (level : t.Level) : peak t = t.height := by
  induction t with
  | nil => rfl
  | node l d b r ihl ihr =>
    obtain ⟨hl, hr, hb, -⟩ := balanced
    obtain ⟨levell, levelr, zero⟩ := level
    rw [peak, ihl hl levell, ihr hr levelr, Avl.Tree.height_node]
    cases l with
    | nil =>
      simp only [Avl.Tree.isNil, Avl.Tree.height_nil, if_true] at *
      omega
    | node ll ld lb lr =>
      simp only [Avl.Tree.isNil, Avl.Tree.height_node, Bool.false_eq_true, if_false] at *
      omega

/-- An operation on a tree. -/
inductive Action (α K : Type) where
  | add (item : α)
  | set (item : α)
  | remove (k : K)

def act (debug : Bool) (key : α → K) (s : GenTree α) : Action α K → Option (GenTree α)
  | .add item => s.add key item
  | .set item => s.set key item
  | .remove k => s.remove debug key k

def acts (debug : Bool) (key : α → K) (s : GenTree α) (actions : List (Action α K)) : Option (GenTree α) :=
  actions.foldlM (act debug key) s

/-- Whatever is done to `s` can be done to `c`, which then has the same items, and right balances if `s` has. -/
def Follows (debug : Bool) (key : α → K) (s c : GenTree α) : Prop :=
  ∀ actions s', acts debug key s actions = some s' → ∃ c', acts debug key c actions = some c' ∧
    c'.root.inorder = s'.root.inorder ∧ c'.cnt = s'.cnt ∧ (s'.Valid key → c'.Valid key)

/-- The copy of a tree whose root is at `p` ends, writes no node of the tree, and is in new nodes a valid tree that
follows it. -/
def CopyRight (debug : Bool) (key : α → K) (nodes : List (Node α)) (p : Option Nat) (s : GenTree α) : Prop :=
  ∃ n nodes' q, copy n nodes p = some (nodes', q) ∧ (∀ k < nodes.length, nodes'[k]? = nodes[k]?) ∧
    ∃ u, Reads nodes' (nodes.length ≤ ·) q u ∧ (⟨u, s.cnt⟩ : GenTree α).Valid key ∧ Follows debug key s ⟨u, s.cnt⟩

/-- The copy of an AVL tree is right exactly when all its balances are 0 and it has no more levels than the stack has
entries. -/
theorem copy_right_iff {s : GenTree α} (valid : s.Valid key) (src : Reads nodes own p s.root) :
    CopyRight debug key nodes p s ↔ s.root.Level ∧ s.root.height ≤ MAX_HEIGHT + 1 := by
  obtain ⟨q, new, reads, copied⟩ := copy_spec src
  constructor
  · rintro ⟨n, nodes', q', done, -, u, reads', validu, -⟩
    obtain ⟨sp, pushed, looped⟩ := Option.bind_eq_some_iff.mp done
    obtain ⟨m, loop, hm⟩ := Option.map_eq_some_iff.mp looped
    have done' : copy (s.root.size + n) nodes p = some (nodes', q') := by
      rw [Nat.add_comm, copy, pushed, Option.bind_some, copyLoop_mono _ loop, Option.map_some, hm]
    rw [copied n] at done'
    split at done'
    · rename_i room
      cases done'
      cases reads.unique reads'
      have level := valid.balanced.level_of_strip validu.balanced
      exact ⟨level, peak_of_level valid.balanced level ▸ room⟩
    · cases done'
  · rintro ⟨level, low⟩
    have same : s.root.strip = s.root := (Avl.Tree.strip_eq_iff _).mpr level
    rw [same] at reads
    refine ⟨s.root.size + 0, nodes ++ new, q, ?_, fun k old => List.getElem?_append_left old, s.root, reads, valid,
      fun actions s' done => ⟨s', done, rfl, rfl, id⟩⟩
    rw [copied 0, if_pos (peak_of_level valid.balanced level ▸ low)]

/-- The full tree of three nodes. -/
theorem copy_right_three :
    CopyRight false (id : Nat → Nat) [⟨some 1, some 2, 0, 1⟩, ⟨none, none, 0, 0⟩, ⟨none, none, 0, 2⟩] (some 0)
      ⟨.node (.node .nil 0 0 .nil) 1 0 (.node .nil 2 0 .nil), 3⟩ := by
  have src : Reads [⟨some 1, some 2, 0, 1⟩, ⟨none, none, 0, 0⟩, ⟨none, none, 0, 2⟩] (fun _ => True) (some 0)
      (.node (.node .nil 0 0 .nil) 1 0 (.node .nil 2 0 .nil)) :=
    @Reads.node _ _ _ 0 ⟨some 1, some 2, 0, 1⟩ _ _ rfl trivial
      (@Reads.node _ _ _ 1 ⟨none, none, 0, 0⟩ _ _ rfl trivial .nil .nil)
      (@Reads.node _ _ _ 2 ⟨none, none, 0, 2⟩ _ _ rfl trivial .nil .nil)
  exact (copy_right_iff ⟨by decide, by decide, rfl⟩ src).mpr
    ⟨⟨⟨trivial, trivial, rfl⟩, ⟨trivial, trivial, rfl⟩, rfl⟩, by decide⟩

/-- The copy of a root that leans to its right child has balance 0 there, and does not rotate when the right side grows. -/
theorem copy_loses_balance : ∃ (nodes nodes' : List (Node Nat)) (s c s' c' : GenTree Nat), s.Valid id ∧
    Reads nodes (fun _ => True) (some 0) s.root ∧ copy 2 nodes (some 0) = some (nodes', some 2) ∧
    Reads nodes' (2 ≤ ·) (some 2) c.root ∧ c.cnt = s.cnt ∧ ¬ c.root.Balanced ∧
    s.add id 3 = some s' ∧ s'.root.Balanced ∧ c.add id 3 = some c' ∧ ¬ c'.root.Balanced ∧ c'.root.height = 3 := by
  let nodes : List (Node Nat) := [⟨none, some 1, 1, 1⟩, ⟨none, none, 0, 2⟩]
  refine ⟨nodes, nodes ++ [⟨none, some 3, 0, 1⟩, ⟨none, none, 0, 2⟩],
    ⟨.node .nil 1 1 (.node .nil 2 0 .nil), 2⟩, ⟨.node .nil 1 0 (.node .nil 2 0 .nil), 2⟩,
    ⟨.node (.node .nil 1 0 .nil) 2 0 (.node .nil 3 0 .nil), 3⟩,
    ⟨.node .nil 1 1 (.node .nil 2 1 (.node .nil 3 0 .nil)), 3⟩, ⟨by decide, by decide, rfl⟩, ?_, by decide, ?_, rfl,
    by decide, by decide, by decide, by decide, by decide, rfl⟩
  · exact @Reads.node _ _ _ 0 ⟨none, some 1, 1, 1⟩ _ _ rfl trivial .nil
      (@Reads.node _ _ _ 1 ⟨none, none, 0, 2⟩ _ _ rfl trivial .nil .nil)
  · exact @Reads.node _ _ _ 2 ⟨none, some 3, 0, 1⟩ _ _ rfl (Nat.le_refl 2) .nil
      (@Reads.node _ _ _ 3 ⟨none, none, 0, 2⟩ _ _ rfl (Nat.le_succ 2) .nil .nil)

end GenTree

end Otawa.Elm
