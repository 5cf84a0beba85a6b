import Otawa.Elm.GenTree
import Mathlib.Data.List.Range

/-!
# Trees that grow too high

A new node that leaves the heights of all subtrees close to each other is only linked: nothing is rotated.
So every tree of balanced shape is reached by adding its nodes level by level (`grows_of_even`), and among
them is one of height 33 with a level node all the way down on its left side. The way to its first place has
33 nodes, one more than the stack of `add` has entries.
-/

namespace Otawa.Elm

open Otawa.Avl

variable {α K : Type} [LinearOrder K] {key : α → K} {item : α}

/-! ### Linking a node -/

namespace AbstractTree

variable {c : Crumb α} {cs path z : List (Crumb α)} {t t' : Avl.Tree α}

theorem strip_plug_congr (cs : List (Crumb α)) (same : t.strip = t'.strip) :
    (plug cs t).strip = (plug cs t').strip := by
  induction cs generalizing t t' with
  | nil => exact same
  | cons c cs ih =>
    refine ih ?_
    obtain ⟨side, d, b, other⟩ := c
    cases side with
    | left => simp only [Crumb.plug, Avl.Tree.strip, same]
    | right => simp only [Crumb.plug, Avl.Tree.strip, same]

theorem strip_plug_adjust (cs : List (Crumb α)) (t : Avl.Tree α) :
    (plug (cs.map adjust) t).strip = (plug cs t).strip := by
  induction cs generalizing t with
  | nil => rfl
  | cons c cs ih =>
    rw [List.map_cons, plug_cons, plug_cons, ih]
    refine strip_plug_congr cs ?_
    obtain ⟨side, d, b, other⟩ := c
    cases side with
    | left => rfl
    | right => rfl

/-- Where the heights stay close nothing is rotated. -/
theorem rebalance_of_even (grown : Grown t t') (fits : c.Fits t.height) (even : ((adjust c).plug t').Even) :
    rebalance ((adjust c).plug t') = some ((adjust c).plug t') := by
  obtain ⟨side, d, b, other⟩ := c
  obtain ⟨-, -, -, hb⟩ := fits
  have height := grown.height
  cases side with
  | left =>
    obtain ⟨-, -, hlow, hup⟩ := even
    simp only [adjust, Crumb.plug] at *
    rw [rebalance, if_neg (by simp only [Avl.Tree.balance]; omega), if_neg (by simp only [Avl.Tree.balance]; omega)]
  | right =>
    obtain ⟨-, -, hlow, hup⟩ := even
    simp only [adjust, Crumb.plug] at *
    rw [rebalance, if_neg (by simp only [Avl.Tree.balance]; omega), if_neg (by simp only [Avl.Tree.balance]; omega)]

theorem strip_insert (balanced : (plug (path ++ z) .nil).Balanced) (way : Way z path)
    (even : (plug (path ++ z) (.node .nil item 0 .nil)).Even) {root : Avl.Tree α}
    (inserted : insert z path (.node .nil item 0 .nil) = some root) :
    root.strip = (plug (path ++ z) (.node .nil item 0 .nil)).strip := by
  cases way with
  | empty hz =>
    subst hz
    cases inserted
    rfl
  | @below cs c level top =>
    rw [plug_append, plug_append] at balanced
    have node := Crumb.balanced_plug.mp (balanced_of_plug balanced)
    have grown := (Grown.leaf item).way node.1 level
    have same := strip_plug_adjust (cs ++ [c]) (.node .nil item 0 .nil)
    have even' : ((adjust c).plug (plug (cs.map adjust) (.node .nil item 0 .nil))).Even := by
      rw [plug_append] at even
      have evenPath := even_of_plug even
      rw [← Avl.Tree.even_strip, ← same, Avl.Tree.even_strip, List.map_append, plug_append] at evenPath
      exact evenPath
    have hroot := rebalance_of_even grown node.2 even'
    rw [insert, if_neg (by simp), List.map_append, plug_append] at inserted
    cases (congrArg (Option.map (plug z)) hroot).symm.trans inserted
    rw [plug_append]
    rw [List.map_append, plug_append] at same
    exact strip_plug_congr z same

end AbstractTree

namespace GenTree

/-- The tree with a new node where its key is missing. -/
def put (key : α → K) (item : α) : Avl.Tree α → Avl.Tree α
  | .nil => .node .nil item 0 .nil
  | .node l d b r => if key d < key item then .node l d b (put key item r) else .node (put key item l) d b r

theorem descend_put {t : Avl.Tree α} {z path : List (Crumb α)} {place : Avl.Tree α ⊕ (List (Crumb α) × List (Crumb α))}
    (descended : descend key false item t z path = some place) :
    ∃ z' path', place = .inr (z', path') ∧
      plug (path' ++ z') (.node .nil item 0 .nil) = plug (path ++ z) (put key item t) := by
  induction t generalizing z path with
  | nil =>
    cases descended
    exact ⟨z, path, rfl, rfl⟩
  | node l d b r ihl ihr =>
    rw [descend, if_neg (by simp)] at descended
    rw [put]
    by_cases leans : b ≠ 0
    · simp only [if_pos leans] at descended
      split at descended
      case isTrue above =>
        obtain ⟨cs, pushed, descended⟩ := Option.bind_eq_some_iff.mp descended
        cases push_eq_some pushed
        rw [if_pos above]
        exact ihr descended
      case isFalse above =>
        obtain ⟨cs, pushed, descended⟩ := Option.bind_eq_some_iff.mp descended
        cases push_eq_some pushed
        rw [if_neg above]
        exact ihl descended
    · simp only [if_neg leans] at descended
      split at descended
      case isTrue above =>
        obtain ⟨cs, pushed, descended⟩ := Option.bind_eq_some_iff.mp descended
        cases push_eq_some pushed
        rw [if_pos above]
        exact ihr descended
      case isFalse above =>
        obtain ⟨cs, pushed, descended⟩ := Option.bind_eq_some_iff.mp descended
        cases push_eq_some pushed
        rw [if_neg above]
        exact ihl descended

theorem add_of_even {s : GenTree α} (valid : s.Valid key) (fits : FitsStack key false item s.root 0)
    (even : (put key item s.root).Even) : s.add key item = some ⟨(put key item s.root).weigh, s.cnt + 1⟩ := by
  obtain ⟨place, descended⟩ := Option.isSome_iff_exists.mp ((descend_isSome s.root [] []).mpr fits)
  obtain ⟨z, path, rfl, hput⟩ := descend_put descended
  have descends := descend_spec (by rfl) valid.sorted (.empty rfl) ⟨nofun, nofun⟩ descended
  cases descends with
  | missing hroot way _ _ =>
    have balanced := hroot ▸ valid.balanced
    obtain ⟨root, inserted, hbalanced, -⟩ := AbstractTree.insert_spec item balanced way
    have same := AbstractTree.strip_insert balanced way (hput ▸ even) inserted
    rw [hput] at same
    rw [add, store, descended]
    simp only [Option.bind_some, inserted, Option.map_some]
    rw [hbalanced.eq_weigh same]
    rfl

/-! ### Growing level by level -/

theorem strip_put (t : Avl.Tree α) : (put key item t).strip = put key item t.strip := by
  induction t with
  | nil => rfl
  | node l d b r ihl ihr =>
    rw [put, Avl.Tree.strip, put]
    split
    · rw [Avl.Tree.strip, ihr]
    · rw [Avl.Tree.strip, ihl]

theorem weigh_put (t : Avl.Tree α) : (put key item t.weigh).weigh = (put key item t).weigh := by
  have same : (put key item t.weigh).strip = (put key item t).strip := by
    rw [strip_put, strip_put, Avl.Tree.strip_weigh]
  rw [← Avl.Tree.weigh_strip, same, Avl.Tree.weigh_strip]

theorem height_lt_put (t : Avl.Tree α) : t.height ≤ (put key item t).height ∧ 0 < (put key item t).height := by
  induction t with
  | nil => exact ⟨Nat.zero_le _, Nat.one_pos⟩
  | node l d b r ihl ihr =>
    rw [put]
    split
    · simp only [Avl.Tree.height_node]
      omega
    · simp only [Avl.Tree.height_node]
      omega

/-- The way to a place is shorter than the tree with a node there is high. -/
theorem fitsStack_of_height {t : Avl.Tree α} {n : Nat} (low : (put key item t).height + n ≤ MAX_HEIGHT + 1) :
    FitsStack key false item t n := by
  induction t generalizing n with
  | nil => trivial
  | node l d b r ihl ihr =>
    rw [FitsStack]
    rw [put] at low
    have passed : (if b ≠ 0 then 0 else n) ≤ n := by
      split
      · exact Nat.zero_le n
      · exact le_refl n
    split at low
    case isTrue above =>
      have := @height_lt_put α K _ key item r
      rw [Avl.Tree.height_node] at low
      refine .inr ⟨by omega, ?_⟩
      rw [if_pos above]
      exact ihr (by omega)
    case isFalse above =>
      have := @height_lt_put α K _ key item l
      rw [Avl.Tree.height_node] at low
      refine .inr ⟨by omega, ?_⟩
      rw [if_neg above]
      exact ihl (by omega)

/-- Nodes of `S` are put in one after the other; the tree stays even, and its height between the bounds. -/
inductive Puts (key : α → K) (S : α → Prop) (low high : Nat) (t : Avl.Tree α) : Avl.Tree α → Prop where
  | refl : Puts key S low high t t
  | step {u : Avl.Tree α} {item : α} : Puts key S low high t u → S item → (put key item u).Even →
      low ≤ (put key item u).height → (put key item u).height ≤ high → Puts key S low high t (put key item u)

theorem Puts.trans {S : α → Prop} {low high : Nat} {t u v : Avl.Tree α} (first : Puts key S low high t u)
    (next : Puts key S low high u v) : Puts key S low high t v := by
  induction next with
  | refl => exact first
  | step _ mem even above below ih => exact ih.step mem even above below

/-- Below a node, on its left side. -/
theorem Puts.left {S T : α → Prop} {low high : Nat} {t u r : Avl.Tree α} {d : α} (low' high' : Nat)
    (puts : Puts key S low high t u) (side : ∀ a, S a → key a < key d) (sub : ∀ a, S a → T a) (even : r.Even)
    (close : high ≤ r.height + 1 ∧ r.height ≤ low + 1) (above : low' ≤ max low r.height + 1)
    (below : max high r.height + 1 ≤ high') : Puts key T low' high' (.node t d 0 r) (.node u d 0 r) := by
  induction puts with
  | refl => exact .refl
  | @step u item _ mem evenPut lowPut highPut ih =>
    have place : put key item (.node u d 0 r) = .node (put key item u) d 0 r := by
      rw [put, if_neg (not_lt.mpr (side item mem).le)]
    rw [← place]
    refine ih.step (sub item mem) ?_ ?_ ?_
    · rw [place]
      exact ⟨evenPut, even, by omega, by omega⟩
    · rw [place, Avl.Tree.height_node]
      omega
    · rw [place, Avl.Tree.height_node]
      omega

/-- Below a node, on its right side. -/
theorem Puts.right {S T : α → Prop} {low high : Nat} {t u l : Avl.Tree α} {d : α} (low' high' : Nat)
    (puts : Puts key S low high t u) (side : ∀ a, S a → key d < key a) (sub : ∀ a, S a → T a) (even : l.Even)
    (close : high ≤ l.height + 1 ∧ l.height ≤ low + 1) (above : low' ≤ max l.height low + 1)
    (below : max l.height high + 1 ≤ high') : Puts key T low' high' (.node l d 0 t) (.node l d 0 u) := by
  induction puts with
  | refl => exact .refl
  | @step u item _ mem evenPut lowPut highPut ih =>
    have place : put key item (.node l d 0 u) = .node l d 0 (put key item u) := by
      rw [put, if_pos (side item mem)]
    rw [← place]
    refine ih.step (sub item mem) ?_ ?_ ?_
    · rw [place]
      exact ⟨even, evenPut, by omega, by omega⟩
    · rw [place, Avl.Tree.height_node]
      omega
    · rw [place, Avl.Tree.height_node]
      omega

/-- The first `k` levels of a tree. -/
def trunc : Nat → Avl.Tree α → Avl.Tree α
  | 0, _ => .nil
  | _ + 1, .nil => .nil
  | k + 1, .node l d _ r => .node (trunc k l) d 0 (trunc k r)

theorem height_trunc (k : Nat) (t : Avl.Tree α) : (trunc k t).height = min k t.height := by
  induction k generalizing t with
  | zero => simp [trunc]
  | succ k ih =>
    cases t with
    | nil => simp [trunc]
    | node l d b r =>
      rw [trunc, Avl.Tree.height_node, Avl.Tree.height_node, ih, ih]
      omega

theorem even_trunc (k : Nat) {t : Avl.Tree α} (even : t.Even) : (trunc k t).Even := by
  induction k generalizing t with
  | zero => trivial
  | succ k ih =>
    cases t with
    | nil => trivial
    | node l d b r =>
      obtain ⟨hl, hr, hlow, hup⟩ := even
      refine ⟨ih hl, ih hr, ?_, ?_⟩
      · rw [height_trunc, height_trunc]
        omega
      · rw [height_trunc, height_trunc]
        omega

theorem trunc_height (t : Avl.Tree α) : trunc t.height t = t.strip := by
  have all : ∀ k (t : Avl.Tree α), t.height ≤ k → trunc k t = t.strip := by
    intro k
    induction k with
    | zero =>
      intro t low
      cases t with
      | nil => rfl
      | node l d b r => simp at low
    | succ k ih =>
      intro t low
      cases t with
      | nil => rfl
      | node l d b r =>
        rw [Avl.Tree.height_node] at low
        rw [trunc, Avl.Tree.strip, ih l (by omega), ih r (by omega)]
  exact all _ t (le_refl _)

/-- One more level is put in from the left to the right. -/
theorem puts_level {t : Avl.Tree α} (even : t.Even) (sorted : t.inorder.Pairwise fun a b => key a < key b) (k : Nat) :
    Puts key (· ∈ t.inorder) (min k t.height) (min (k + 1) t.height) (trunc k t) (trunc (k + 1) t) := by
  induction t generalizing k with
  | nil =>
    cases k with
    | zero => exact .refl
    | succ k => exact .refl
  | node l d b r ihl ihr =>
    cases k with
    | zero =>
      have first : Puts key (· ∈ (Avl.Tree.node l d b r).inorder) (min 0 (Avl.Tree.node l d b r).height)
          (min 1 (Avl.Tree.node l d b r).height) .nil (put key d .nil) :=
        .step .refl (by simp) ⟨trivial, trivial, by simp, by simp⟩ (by simp) (by simp [put])
      cases l <;> cases r <;> exact first
    | succ k =>
      obtain ⟨hl, hr, hlow, hup⟩ := even
      rw [Avl.Tree.inorder_node, List.pairwise_append, List.pairwise_cons] at sorted
      obtain ⟨sortedLeft, ⟨right, sortedRight⟩, left⟩ := sorted
      have first := Puts.left (min (k + 1) (Avl.Tree.node l d b r).height)
        (min (k + 1 + 1) (Avl.Tree.node l d b r).height)
        (ihl hl sortedLeft k) (fun a mem => left a mem d List.mem_cons_self)
        (fun a mem => List.mem_append_left (d :: r.inorder) mem) (even_trunc k hr)
        (by rw [height_trunc]; omega) (by rw [height_trunc, Avl.Tree.height_node]; omega)
        (by rw [height_trunc, Avl.Tree.height_node]; omega)
      have next := Puts.right (min (k + 1) (Avl.Tree.node l d b r).height)
        (min (k + 1 + 1) (Avl.Tree.node l d b r).height)
        (ihr hr sortedRight k) right
        (fun a mem => List.mem_append_right l.inorder (List.mem_cons_of_mem d mem)) (even_trunc (k + 1) hl)
        (by rw [height_trunc]; omega) (by rw [height_trunc, Avl.Tree.height_node]; omega)
        (by rw [height_trunc, Avl.Tree.height_node]; omega)
      exact first.trans next

theorem grows_of_puts {S : α → Prop} {low high : Nat} {t u : Avl.Tree α} (puts : Puts key S low high t u)
    (grows : ∃ n, Grows key ⟨t.weigh, n⟩) (small : high ≤ MAX_HEIGHT + 1) : ∃ n, Grows key ⟨u.weigh, n⟩ := by
  induction puts with
  | refl => exact grows
  | @step u item _ _ even _ below ih =>
    obtain ⟨n, before⟩ := ih
    have even' : (put key item u.weigh).Even := by
      rwa [← Avl.Tree.even_strip, strip_put, Avl.Tree.strip_weigh, ← strip_put, Avl.Tree.even_strip]
    have same : (put key item u.weigh).height = (put key item u).height := by
      rw [← Avl.Tree.height_weigh, weigh_put, Avl.Tree.height_weigh]
    have fits : FitsStack key false item u.weigh 0 := fitsStack_of_height (by omega)
    have added := add_of_even before.valid fits even'
    rw [weigh_put] at added
    exact ⟨n + 1, before.add added⟩

/-- Adds lead to every tree of balanced shape that is at most one level higher than the stack. -/
theorem grows_of_even {t : Avl.Tree α} (even : t.Even) (sorted : t.inorder.Pairwise fun a b => key a < key b)
    (low : t.height ≤ MAX_HEIGHT + 1) : ∃ n, Grows key ⟨t.weigh, n⟩ := by
  have levels : ∀ k, ∃ n, Grows key ⟨(trunc k t).weigh, n⟩ := by
    intro k
    induction k with
    | zero => exact ⟨0, .empty⟩
    | succ k ih => exact grows_of_puts (puts_level even sorted k) ih (by omega)
  have whole := levels t.height
  rwa [trunc_height, Avl.Tree.weigh_strip] at whole

/-! ### A tree that is too high -/

/-- The trees of a height with the fewest nodes, which lean to the left. -/
def fib : Nat → Avl.Tree Unit
  | 0 => .nil
  | 1 => .node .nil () 0 .nil
  | n + 2 => .node (fib (n + 1)) () (-1) (fib n)

/-- A tree whose nodes on the left side are level. -/
def levelSide : Nat → Avl.Tree Unit
  | 0 => .nil
  | n + 1 => .node (levelSide n) () 0 (fib n)

/-- The nodes numbered from `n` on, from the left to the right. -/
def number : Nat → Avl.Tree Unit → Avl.Tree Nat
  | _, .nil => .nil
  | n, .node l _ b r => .node (number n l) (n + l.size) b (number (n + l.size + 1) r)

theorem height_number (n : Nat) (t : Avl.Tree Unit) : (number n t).height = t.height := by
  induction t generalizing n with
  | nil => rfl
  | node l d b r ihl ihr => rw [number, Avl.Tree.height_node, Avl.Tree.height_node, ihl, ihr]

theorem even_number (n : Nat) {t : Avl.Tree Unit} (even : t.Even) : (number n t).Even := by
  induction t generalizing n with
  | nil => trivial
  | node l d b r ihl ihr =>
    obtain ⟨hl, hr, hlow, hup⟩ := even
    refine ⟨ihl n hl, ihr _ hr, ?_, ?_⟩
    · rwa [height_number, height_number]
    · rwa [height_number, height_number]

theorem inorder_number (n : Nat) (t : Avl.Tree Unit) : (number n t).inorder = List.range' n t.size := by
  induction t generalizing n with
  | nil => rfl
  | node l d b r ihl ihr =>
    have split : l.size + r.size + 1 = l.size + (1 + r.size) := by omega
    rw [number, Avl.Tree.inorder_node, ihl, ihr, Avl.Tree.size, split, ← List.range'_append_1, ← List.range'_append_1]
    rfl

theorem height_fib : ∀ n, (fib n).height = n
  | 0 => rfl
  | 1 => rfl
  | n + 2 => by
    rw [fib, Avl.Tree.height_node, height_fib (n + 1), height_fib n]
    omega

theorem even_fib : ∀ n, (fib n).Even
  | 0 => trivial
  | 1 => ⟨trivial, trivial, Nat.zero_le _, Nat.zero_le _⟩
  | n + 2 => by
    refine ⟨even_fib (n + 1), even_fib n, ?_, ?_⟩
    · rw [height_fib, height_fib]
    · rw [height_fib, height_fib]
      omega

theorem height_levelSide (n : Nat) : (levelSide n).height = n := by
  induction n with
  | zero => rfl
  | succ n ih => rw [levelSide, Avl.Tree.height_node, ih, height_fib, max_self]

theorem even_levelSide (n : Nat) : (levelSide n).Even := by
  induction n with
  | zero => trivial
  | succ n ih =>
    refine ⟨ih, even_fib n, ?_, ?_⟩
    · rw [height_levelSide, height_fib]
      omega
    · rw [height_levelSide, height_fib]
      omega

theorem not_fitsStack_levelSide {n m : Nat} (passed : m ≤ MAX_HEIGHT) (long : MAX_HEIGHT < m + n) :
    ¬ FitsStack id false 0 (number 0 (levelSide n)).weigh m := by
  induction n generalizing m with
  | zero => omega
  | succ n ih =>
    rw [levelSide, number, Avl.Tree.weigh, FitsStack]
    rintro (⟨replaces, -⟩ | ⟨room, fits⟩)
    · cases replaces
    · rw [height_number, height_number, height_fib, height_levelSide, Int.sub_self] at room fits
      rw [if_neg (by simp)] at room fits
      rw [if_neg (by simp)] at fits
      exact ih (by omega) (by omega) fits

/-! ### Insertion -/

/-- An insertion is right exactly when the way down from the last leaning node fits the stack. -/
theorem insertion_right_iff {s : GenTree α} (grows : Grows key s) (item : α) :
    ((∃ s', s.add key item = some s' ∧ s'.Valid key ∧ Inserted key item s.root.inorder s'.root.inorder) ↔
        FitsStack key false item s.root 0) ∧
      ((∃ s', s.set key item = some s' ∧ s'.Valid key ∧
          (Replaced key item s.root.inorder s'.root.inorder ∨
            (∀ a ∈ s.root.inorder, key a ≠ key item) ∧ Inserted key item s.root.inorder s'.root.inorder)) ↔
        FitsStack key true item s.root 0) := by
  have valid := grows.valid
  constructor
  · rw [← store_spec valid false item]
    constructor
    · rintro ⟨s', added, -⟩
      exact ⟨s', added, .of_some valid added⟩
    · rintro ⟨s', added, stored⟩
      rcases stored.order with ⟨replaces, -⟩ | ⟨inserted, -⟩
      · cases replaces
      · exact ⟨s', added, stored.valid, inserted⟩
  · rw [← store_spec valid true item]
    constructor
    · rintro ⟨s', added, -⟩
      exact ⟨s', added, .of_some valid added⟩
    · rintro ⟨s', added, stored⟩
      refine ⟨s', added, stored.valid, ?_⟩
      rcases stored.order with ⟨-, replaced⟩ | ⟨inserted, missing⟩
      · exact .inl replaced
      · exact .inr ⟨missing rfl, inserted⟩

/-- A third item makes the tree of 0 and 1 rotate. -/
theorem insertion_right_third : ∃ s : GenTree Nat, s.root = .node .nil 0 1 (.node .nil 1 0 .nil) ∧
    (∃ s', s.add id 2 = some s' ∧ s'.Valid id ∧ Inserted id 2 s.root.inorder s'.root.inorder) := by
  have second : Grows (id : Nat → Nat) ⟨.node .nil 0 1 (.node .nil 1 0 .nil), 2⟩ :=
    @Grows.add Nat Nat _ id _ _ 1 (@Grows.add Nat Nat _ id _ _ 0 .empty rfl) (by decide)
  refine ⟨_, rfl, (insertion_right_iff second 2).1.mpr ?_⟩
  refine .inr ⟨by decide, ?_⟩
  rw [if_pos (by decide)]
  refine .inr ⟨by decide, ?_⟩
  rw [if_pos (by decide)]
  trivial

/-- In a tree of height 33 whose nodes on the left side are level, `add` writes after the end of its stack. -/
theorem add_writes_past_stack : ∃ s : GenTree Nat, Grows id s ∧ s.root = (number 0 (levelSide 33)).weigh ∧
    s.add id 0 = none := by
  have sorted : (number 0 (levelSide 33)).inorder.Pairwise fun a b => id a < id b := by
    rw [inorder_number]
    exact List.pairwise_lt_range'
  have low : (number 0 (levelSide 33)).height ≤ MAX_HEIGHT + 1 := by
    rw [height_number, height_levelSide]
    exact le_refl _
  obtain ⟨n, grows⟩ := grows_of_even (even_number 0 (even_levelSide 33)) sorted low
  refine ⟨_, grows, rfl, ?_⟩
  have full := @not_fitsStack_levelSide 33 0 (Nat.zero_le _) (by decide)
  rw [← store_spec grows.valid false 0] at full
  cases added : GenTree.add id 0 ⟨(number 0 (levelSide 33)).weigh, n⟩ with
  | none => rfl
  | some s' => exact absurd ⟨s', added, .of_some grows.valid added⟩ full

end GenTree

end Otawa.Elm
