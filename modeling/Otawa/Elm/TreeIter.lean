import Otawa.Elm.Growth

/-!
# The iterator of an AVL tree

`GenTree::Iterator` keeps the nodes above the current one on a stack, with the current node twice. A pointer to
a node is the subtree of the node, whose data carry the address of the node, and two pointers are the same when
their addresses are. The stack has `MAX_HEIGHT + 1` entries, and a push after its end gives no result.

A subtree that is visited above a stack `S` gives its items in order and leaves its root above `S`
(`items_visitLeft`); the whole iteration is the case of the empty stack.
-/

namespace Otawa.Elm.GenTree

open Otawa.Avl

variable {A α K : Type} [DecidableEq A]

/-! ### The iterator -/

/-- The stack of nodes, the top first. -/
abbrev Nodes (A α : Type) :=
  List (Avl.Tree (A × α))

/-- The address of a node; a null pointer has none. -/
def addr : Avl.Tree (A × α) → Option A
  | .nil => none
  | .node _ d _ _ => some d.1

def right : Avl.Tree (A × α) → Avl.Tree (A × α)
  | .nil => .nil
  | .node _ _ _ r => r

def left : Avl.Tree (A × α) → Avl.Tree (A × α)
  | .nil => .nil
  | .node l _ _ _ => l

def pushNode (node : Avl.Tree (A × α)) (sp : Nodes A α) : Option (Nodes A α) :=
  if sp.length < MAX_HEIGHT + 1 then some (node :: sp) else none

/-- `visit` for a node: it is pushed, then the nodes on its left side, the last one twice. -/
def visitLeft : Avl.Tree (A × α) → Nodes A α → Option (Nodes A α)
  | .nil, sp => some sp
  | .node l d b r, sp =>
      (pushNode (.node l d b r) sp).bind fun sp =>
        if l.isNil then pushNode (.node l d b r) sp else visitLeft l sp

/-- `next()`: the node that is popped is compared with the left child of the new top and with the new top. -/
def next : Nodes A α → Option (Nodes A α)
  | [] => none
  | [_] => some []
  | last :: top :: sp =>
      if addr last = addr (left top) then pushNode top (top :: sp)
      else if addr last = addr top ∧ (right top).isNil = false then visitLeft (right top) (top :: sp)
      else next (top :: sp)

/-- The items of the loop `for(; iter; iter++)`, within a number of rounds. -/
def items : Nat → Nodes A α → Option (List (A × α))
  | _, [] => some []
  | _, .nil :: _ => none
  | 0, _ :: _ => none
  | rounds + 1, .node l d b r :: sp => ((next (.node l d b r :: sp)).bind (items rounds)).map (d :: ·)

/-- A loop over the tree with the root. -/
def iterate (rounds : Nat) (root : Avl.Tree (A × α)) : Option (List (A × α)) :=
  (visitLeft root []).bind (items rounds)

/-! ### The items of a subtree -/

variable {t l r : Avl.Tree (A × α)} {d : A × α} {b : Int} {S : Nodes A α}

/-- The addresses of the nodes. -/
def addresses (t : Avl.Tree (A × α)) : List A :=
  t.inorder.map Prod.fst

omit [DecidableEq A] in
theorem addr_mem (node : t.isNil = false) : ∃ a ∈ addresses t, addr t = some a := by
  cases t with
  | nil => cases node
  | node l d b r => exact ⟨d.1, by simp [addresses], rfl⟩

/-- The addresses of a node and its children differ. -/
structure Distinct (l : Avl.Tree (A × α)) (d : A × α) (r : Avl.Tree (A × α)) : Prop where
  left : (addresses l).Nodup
  right : (addresses r).Nodup
  root_left : addr l ≠ some d.1
  root_right : addr r ≠ some d.1
  children : r.isNil = false → addr r ≠ addr l

section

omit [DecidableEq A]

theorem distinct_of_nodup (distinct : (addresses (.node l d b r)).Nodup) : Distinct l d r := by
  have hsplit : addresses (.node l d b r) = addresses l ++ d.1 :: addresses r := by simp [addresses]
  rw [hsplit, List.nodup_append, List.nodup_cons] at distinct
  obtain ⟨hl, ⟨hroot, hr⟩, apart⟩ := distinct
  have member : ∀ (t : Avl.Tree (A × α)) a, addr t = some a → a ∈ addresses t := by
    intro t a same
    cases t with
    | nil => cases same
    | node l d b r =>
      cases same
      simp [addresses]
  refine ⟨hl, hr, fun same => ?_, fun same => hroot (member r _ same), fun node same => ?_⟩
  · exact apart _ (member l _ same) _ List.mem_cons_self rfl
  · obtain ⟨a, mem, ha⟩ := addr_mem node
    exact apart a (member l a (same ▸ ha)) a (List.mem_cons_of_mem _ mem) rfl

theorem pushNode_eq (node : Avl.Tree (A × α)) (room : S.length + 1 ≤ MAX_HEIGHT + 1) : pushNode node S = some (node :: S) :=
  if_pos room

theorem pushNode_none (node : Avl.Tree (A × α)) (full : ¬ S.length + 1 ≤ MAX_HEIGHT + 1) : pushNode node S = none :=
  if_neg full

end

/-- From the left child to the node. -/
theorem next_left (l r : Avl.Tree (A × α)) (d : A × α) (b : Int) (S : Nodes A α) :
    next (l :: .node l d b r :: S) = pushNode (.node l d b r) (.node l d b r :: S) :=
  if_pos rfl

/-- From the node to its right subtree. -/
theorem next_root (distinct : Distinct l d r) (noder : r.isNil = false) :
    next (.node l d b r :: .node l d b r :: S) = visitLeft r (.node l d b r :: S) := by
  have ne : addr (.node l d b r) ≠ addr l := fun same => distinct.root_left same.symm
  exact (if_neg ne).trans (if_pos ⟨rfl, noder⟩)

theorem next_root_nil (distinct : Distinct l d .nil) :
    next (.node l d b .nil :: .node l d b .nil :: S) = next (.node l d b .nil :: S) := by
  have ne : addr (.node l d b .nil) ≠ addr l := fun same => distinct.root_left same.symm
  exact (if_neg ne).trans (if_neg fun both => Bool.noConfusion both.2)

/-- From the right child up. -/
theorem next_right (distinct : Distinct l d r) (noder : r.isNil = false) :
    next (r :: .node l d b r :: S) = next (.node l d b r :: S) :=
  (if_neg (distinct.children noder)).trans (if_neg fun both => distinct.root_right both.1)

theorem items_succ (n : Nat) : items (n + 1) (.node l d b r :: S) =
    ((next (.node l d b r :: S)).bind (items n)).map (d :: ·) := rfl

/-- What a visit of the subtree above a stack gives. -/
def Visits (t : Avl.Tree (A × α)) : Prop :=
  ∀ (S : Nodes A α) n, (visitLeft t S).bind (items (t.size + n)) =
    if S.length + t.height + 1 ≤ MAX_HEIGHT + 1 then ((next (t :: S)).bind (items n)).map (t.inorder ++ ·) else none

/-- The right subtree is visited after the root. -/
theorem items_right (distinct : Distinct l d r) (ih : r.isNil = false → Visits r) (room : S.length + 2 ≤ MAX_HEIGHT + 1)
    (n : Nat) : items (r.size + n + 1) (.node l d b r :: .node l d b r :: S) =
      if S.length + r.height + 2 ≤ MAX_HEIGHT + 1 then
        ((next (.node l d b r :: S)).bind (items n)).map (d :: r.inorder ++ ·)
      else none := by
  rw [items_succ]
  cases r with
  | nil =>
    rw [next_root_nil distinct, Avl.Tree.height_nil, Nat.add_zero, if_pos room, Avl.Tree.size, Nat.zero_add]
    rfl
  | node rl rd rb rr =>
    have visited := ih rfl (.node l d b (.node rl rd rb rr) :: S) n
    rw [next_right distinct rfl, List.length_cons] at visited
    have same : S.length + 1 + (Avl.Tree.node rl rd rb rr).height + 1 =
        S.length + (Avl.Tree.node rl rd rb rr).height + 2 := by omega
    rw [next_root distinct rfl, visited, same]
    split
    · rw [Option.map_map]
      rfl
    · rfl

/-- A visit above a stack gives the items of the subtree in order, and goes on with its root popped. -/
theorem items_visitLeft (node : t.isNil = false) (distinct : (addresses t).Nodup) : Visits t := by
  induction t with
  | nil => cases node
  | node l d b r ihl ihr =>
    intro S n
    have apart := distinct_of_nodup distinct
    have atRoot := fun room => items_right (b := b) (S := S) apart (fun noder => ihr noder apart.right) room n
    have low := Nat.zero_le r.height
    rw [visitLeft]
    by_cases room : S.length + 1 ≤ MAX_HEIGHT + 1
    · rw [pushNode_eq _ room, Option.bind_some]
      cases l with
      | nil =>
        have rounds : (Avl.Tree.node .nil d b r).size + n = r.size + n + 1 := by
          simp only [Avl.Tree.size]
          omega
        have height : (Avl.Tree.node .nil d b r).height = r.height + 1 := by simp
        rw [rounds, height, Avl.Tree.isNil, if_pos rfl]
        by_cases room' : S.length + 2 ≤ MAX_HEIGHT + 1
        · rw [pushNode_eq (S := _ :: S) _ room', Option.bind_some, atRoot room']
          rfl
        · rw [pushNode_none (S := _ :: S) _ room', if_neg fun fits => room' (by omega)]
          rfl
      | node ll ld lb lr =>
        have visited := ihl rfl apart.left (.node (.node ll ld lb lr) d b r :: S) (r.size + n + 1)
        have rounds : (Avl.Tree.node (.node ll ld lb lr) d b r).size + n =
            (Avl.Tree.node ll ld lb lr).size + (r.size + n + 1) := by
          simp only [Avl.Tree.size]
          omega
        have pos : 1 ≤ (Avl.Tree.node ll ld lb lr).height := by simp
        have nodel : ¬ (Avl.Tree.node ll ld lb lr).isNil = true := Bool.false_ne_true
        generalize Avl.Tree.node ll ld lb lr = l at *
        rw [rounds, if_neg nodel, visited, next_left, List.length_cons, Avl.Tree.height_node]
        by_cases fitl : S.length + 1 + l.height + 1 ≤ MAX_HEIGHT + 1
        · have room' : S.length + 2 ≤ MAX_HEIGHT + 1 := by omega
          rw [if_pos fitl, pushNode_eq (S := _ :: S) _ room', Option.bind_some, atRoot room']
          by_cases fitr : S.length + r.height + 2 ≤ MAX_HEIGHT + 1
          · rw [if_pos fitr, if_pos (by omega), Option.map_map]
            simp [Function.comp_def]
          · rw [if_neg fitr, if_neg (by omega)]
            rfl
        · rw [if_neg fitl, if_neg (by omega)]
    · rw [pushNode_none _ room, if_neg fun fits => room (by omega)]
      rfl

/-! ### The whole iteration -/

/-- More rounds give the same items. -/
theorem items_mono (k : Nat) {n : Nat} {sp : Nodes A α} {out : List (A × α)} (done : items n sp = some out) :
    items (n + k) sp = some out := by
  induction n generalizing sp out with
  | zero =>
    rcases sp with _ | ⟨_ | ⟨l, d, b, r⟩, sp⟩
    · rwa [items] at done ⊢
    · cases done
    · cases done
  | succ n ih =>
    rcases sp with _ | ⟨_ | ⟨l, d, b, r⟩, sp⟩
    · rwa [items] at done ⊢
    · cases done
    · rw [items_succ] at done
      obtain ⟨rest, stepped, rfl⟩ := Option.map_eq_some_iff.mp done
      obtain ⟨sp', moved, finished⟩ := Option.bind_eq_some_iff.mp stepped
      rw [Nat.succ_add, items_succ, moved, Option.bind_some, ih finished]
      rfl

/-- The iteration gives the items in order, if the stack has an entry more than the tree has levels. -/
theorem iterate_eq (distinct : (addresses t).Nodup) (n : Nat) :
    iterate (t.size + n) t = if t.height ≤ MAX_HEIGHT then some t.inorder else none := by
  cases t with
  | nil =>
    rw [Avl.Tree.height_nil, if_pos (Nat.zero_le _)]
    cases n <;> rfl
  | node l d b r =>
    have visits := items_visitLeft rfl distinct [] n
    have fits : ([] : Nodes A α).length + (Avl.Tree.node l d b r).height + 1 ≤ MAX_HEIGHT + 1 ↔
        (Avl.Tree.node l d b r).height ≤ MAX_HEIGHT := by
      rw [List.length_nil, Nat.zero_add, Nat.add_le_add_iff_right]
    rw [iterate, visits]
    refine if_congr fits ?_ rfl
    cases n <;> simp [next, items]

theorem iterate_some {n : Nat} {out : List (A × α)} (distinct : (addresses t).Nodup) (done : iterate n t = some out) :
    t.height ≤ MAX_HEIGHT ∧ out = t.inorder := by
  obtain ⟨sp, visited, finished⟩ := Option.bind_eq_some_iff.mp done
  have done' : iterate (t.size + n) t = some out := by
    rw [Nat.add_comm, iterate, visited, Option.bind_some, items_mono _ finished]
  rw [iterate_eq distinct] at done'
  split at done'
  · rename_i low
    exact ⟨low, (Option.some.inj done').symm⟩
  · cases done'

variable [LinearOrder K] {key : α → K}

/-- The iteration ends, has every node once, and its keys go up. -/
def Iterates (key : α → K) (t : Avl.Tree (A × α)) : Prop :=
  ∃ n out, iterate n t = some out ∧ out.Perm t.inorder ∧ out.Pairwise fun x y => key x.2 < key y.2

/-- The iteration of an AVL tree is complete and ordered exactly when no two items have the same key and the tree has
at most `MAX_HEIGHT` levels. -/
theorem iterates_iff {s : GenTree α} (valid : s.Valid key) {t : Avl.Tree (A × α)} (layout : t.map Prod.snd = s.root)
    (distinct : (addresses t).Nodup) :
    Iterates key t ↔ (s.root.inorder.map key).Nodup ∧ s.root.height ≤ MAX_HEIGHT := by
  have horder : s.root.inorder = t.inorder.map Prod.snd := by rw [← layout, Avl.Tree.inorder_map]
  have hheight : s.root.height = t.height := by rw [← layout, Avl.Tree.height_map]
  have hsorted := valid.sorted
  rw [horder, List.pairwise_map] at hsorted
  rw [hheight, horder, List.map_map, List.Nodup, List.pairwise_map]
  constructor
  · rintro ⟨n, out, done, -, ordered⟩
    obtain ⟨low, rfl⟩ := iterate_some distinct done
    exact ⟨ordered.imp fun lt => ne_of_lt lt, low⟩
  · rintro ⟨keys, low⟩
    refine ⟨t.size + 0, t.inorder, ?_, List.Perm.refl _, ?_⟩
    · rw [iterate_eq distinct, if_pos low]
    · exact hsorted.imp₂ (fun x y le ne => lt_of_le_of_ne le ne) keys

/-- A tree of three nodes. -/
theorem iterates_three : Iterates (id : Nat → Nat)
    (.node (.node .nil ("b", 0) 0 .nil) ("a", 1) 0 (.node .nil ("c", 2) 0 .nil)) := by
  have valid : (⟨.node (.node .nil 0 0 .nil) 1 0 (.node .nil 2 0 .nil), 3⟩ : GenTree Nat).Valid id :=
    ⟨by decide, by decide, rfl⟩
  exact (iterates_iff valid rfl (by decide)).mpr ⟨by decide, by decide⟩

/-- There are AVL trees of every height. -/
theorem exists_even (h : Nat) : ∃ t : Avl.Tree Nat, t.Even ∧ t.inorder.Pairwise (· < ·) ∧ t.height = h := by
  refine ⟨number 0 (levelSide h), even_number 0 (even_levelSide h), ?_, ?_⟩
  · rw [inorder_number]
    exact List.pairwise_lt_range'
  · rw [height_number, height_levelSide]

/-- In a tree of height 33 that is built by adds, the iterator writes after the end of its stack. -/
theorem iterator_writes_past_stack : ∃ (s : GenTree Nat) (t : Avl.Tree (Nat × Nat)), Grows id s ∧
    t.map Prod.snd = s.root ∧ (addresses t).Nodup ∧ s.root.inorder.Pairwise (· < ·) ∧ s.root.height = 33 ∧
    ∀ n, iterate n t = none := by
  obtain ⟨u, even, sorted, high⟩ := exists_even 33
  obtain ⟨n, grows⟩ := grows_of_even even sorted (high ▸ le_refl _ : u.height ≤ MAX_HEIGHT + 1)
  have order : u.weigh.inorder = u.inorder := by
    rw [← Avl.Tree.inorder_strip, Avl.Tree.strip_weigh, Avl.Tree.inorder_strip]
  have height : u.weigh.height = 33 := by rw [Avl.Tree.height_weigh, high]
  have distinct : (addresses (u.weigh.map fun k => (k, k))).Nodup := by
    rw [addresses, Avl.Tree.inorder_map, List.map_map, order]
    exact List.pairwise_map.mpr (sorted.imp fun lt => ne_of_lt lt)
  refine ⟨_, u.weigh.map fun k => (k, k), grows, ?_, distinct, order.symm ▸ sorted, height, fun n => ?_⟩
  · rw [Avl.Tree.map_map]
    exact Avl.Tree.map_self _
  · by_contra some
    obtain ⟨out, done⟩ := Option.ne_none_iff_exists'.mp some
    have low := (iterate_some distinct done).1
    rw [Avl.Tree.height_map, height] at low
    exact absurd low (by decide)

end Otawa.Elm.GenTree
