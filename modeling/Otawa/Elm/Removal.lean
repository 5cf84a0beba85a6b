import Otawa.Elm.GenTree
import Mathlib.Data.List.Induction
import Mathlib.Order.Nat

/-!
# Removal from AVL trees of ELM

`GenTree::remove` and `AbstractTree::remove`. The stacks `pa` and `da` are a list of crumbs, from the node
above the place to the root. There is no entry for the link to the root: the loop that goes back up leaves
out the entry 0, which is the root here, and a root with a right subtree is replaced in a link before the
stack. So a removal is right when the tree below the root keeps its height (`removal_right_iff`).

The assertion in the search holds for the null pointers that it should exclude; it is compiled without
`NDEBUG`.
-/

namespace Otawa.Elm

open Otawa.Avl

variable {α K : Type} [LinearOrder K]

namespace AbstractTree

/-- One turn of the loop: the node that takes the place of `y`, and whether the loop is left. -/
def retraceStep (y : Crumb α) (t : Avl.Tree α) : Option (Avl.Tree α × Bool) :=
  match y.side with
  | .left =>
      let y' : Avl.Tree α := .node t y.data (y.balance + 1) y.other
      if y.balance + 1 = 1 then some (y', true)
      else if y.balance + 1 = 2 then
        if y.other.balance = -1 then (rotateRightLeft y').map (·, false)
        else if y.other.balance = 0 then (rotateLeft (-1) 1 y').map (·, true)
        else (rotateLeft 0 0 y').map (·, false)
      else some (y', false)
  | .right =>
      let y' : Avl.Tree α := .node y.other y.data (y.balance - 1) t
      if y.balance - 1 = -1 then some (y', true)
      else if y.balance - 1 = -2 then
        if y.other.balance = 1 then (rotateLeftRight y').map (·, false)
        else if y.other.balance = 0 then (rotateRight 1 (-1) y').map (·, true)
        else (rotateRight 0 0 y').map (·, false)
      else some (y', false)

/-- The loop over the stack, but for its entry 0. -/
def retrace : List (Crumb α) → Avl.Tree α → Option (Avl.Tree α)
  | [], t => some t
  | [root], t => some (root.plug t)
  | y :: z :: pa, t =>
      (retraceStep y t).bind fun w => if w.2 then some (plug (z :: pa) w.1) else retrace (z :: pa) w.1

/-- The way to the leftmost node, its data and its right subtree. -/
def leftmost : List (Crumb α) → Avl.Tree α → α → Int → Avl.Tree α → List (Crumb α) × α × Avl.Tree α
  | cs, .nil, d, _, r => (cs, d, r)
  | cs, .node ll ld lb lr, d, b, r => leftmost (⟨.left, d, b, r⟩ :: cs) ll ld lb lr

/-- The stack after the node with the subtrees `l` and `r` is unlinked, and what is at the place it leads to. A
node with a right subtree is replaced by the leftmost one of it. -/
def way (pa : List (Crumb α)) (l : Avl.Tree α) (b : Int) : Avl.Tree α → List (Crumb α) × Avl.Tree α
  | .nil => (pa, l)
  | .node rl rd rb rr =>
      let (cs, d, t) := leftmost [] rl rd rb rr
      (cs ++ ⟨.right, d, b, l⟩ :: pa, t)

/-- The root after the removal of a node; `pa[k - 1]` is not on the stack for the root. -/
def remove (maxHeight : Nat) (pa : List (Crumb α)) (l : Avl.Tree α) (b : Int) (r : Avl.Tree α) : Option (Avl.Tree α) :=
  if pa = [] ∧ r.isNil = false then none
  else if (way pa l b r).1.length ≤ maxHeight then retrace (way pa l b r).1 (way pa l b r).2
  else none

/-! ### Heights on the way back -/

variable {y : Crumb α} {t t₀ : Avl.Tree α} {pa : List (Crumb α)} {l r : Avl.Tree α} {d : α} {b : Int}

/-- A node at which the loss of a level on the side of the place does not show above it: a level node, or one
that leans to the other side, to a level child. -/
def Stops (y : Crumb α) : Prop :=
  match y.side with
  | .left => y.balance = 0 ∨ (y.balance = 1 ∧ y.other.balance = 0)
  | .right => y.balance = 0 ∨ (y.balance = -1 ∧ y.other.balance = 0)

/-- One of the nodes on the way, other than the root, stops the loss of a level. -/
def Settles : List (Crumb α) → Prop
  | [] => True
  | [_] => False
  | y :: z :: pa => Stops y ∨ Settles (z :: pa)

/-- A subtree that stands for one that was one level higher. -/
structure Shrunk (t₀ t : Avl.Tree α) : Prop where
  balanced : t.Balanced
  height : t.height + 1 = t₀.height

/-- What one turn leaves in the place of a node. -/
structure Retraced (y : Crumb α) (t₀ t w : Avl.Tree α) (done : Bool) : Prop where
  balanced : w.Balanced
  inorder : w.inorder = (y.plug t).inorder
  stops : done = true ↔ Stops y
  height : w.height + (if done then 0 else 1) = (y.plug t₀).height

theorem retraceStep_left {other : Avl.Tree α} (shrunk : Shrunk t₀ t)
    (fits : Crumb.Fits ⟨.left, d, b, other⟩ t₀.height) :
    ∃ w done, retraceStep ⟨.left, d, b, other⟩ t = some (w, done) ∧ Retraced ⟨.left, d, b, other⟩ t₀ t w done := by
  obtain ⟨balanced, height⟩ := shrunk
  obtain ⟨hother, hlow, hup, hb⟩ := fits
  simp only at hother hlow hup hb
  rw [retraceStep]
  simp only
  by_cases level : b = 0
  · refine ⟨.node t d (b + 1) other, true, if_pos (by omega), ⟨?_, rfl, ?_, ?_⟩⟩
    · exact ⟨balanced, hother, by omega, by omega, by omega⟩
    · exact iff_of_true rfl (.inl level)
    · simp only [Crumb.plug, Avl.Tree.height_node, if_true]
      omega
  rw [if_neg (by omega)]
  by_cases away : b = 1
  · rw [if_pos (by omega)]
    obtain ⟨xl, xd, xb, xr, rfl⟩ := Avl.Tree.exists_node_of_height (t := other) (by omega)
    have bounds := hother
    obtain ⟨-, -, -, hxlow, hxup⟩ := bounds
    by_cases double : (Avl.Tree.node xl xd xb xr).balance = -1
    · rw [if_pos double]
      have lean : xb = -1 := double
      subst lean
      obtain ⟨w, hw, hbal, hheight, horder⟩ := rotateRightLeft_spec d (b + 1) hother balanced (by omega)
      refine ⟨w, false, congrArg (Option.map (·, false)) hw, ⟨hbal, horder, ?_, ?_⟩⟩
      · exact iff_of_false Bool.false_ne_true (by simp [Stops, away, Avl.Tree.balance])
      · rw [hheight, Crumb.height_plug]
        simp only [Bool.false_eq_true, if_false]
        omega
    rw [if_neg double]
    by_cases even : (Avl.Tree.node xl xd xb xr).balance = 0
    · rw [if_pos even]
      have lean : xb = 0 := even
      obtain ⟨w, hw, hbal, hheight, horder⟩ := rotateLeft_spec d (-1) 1 (b + 1) hother balanced (by omega)
        (by omega) (by omega) (by omega)
      refine ⟨w, true, congrArg (Option.map (·, true)) hw, ⟨hbal, horder, ?_, ?_⟩⟩
      · exact iff_of_true rfl (.inr ⟨away, even⟩)
      · rw [Crumb.height_plug]
        simp only [if_true]
        omega
    · rw [if_neg even]
      have lean : xb = 1 := by
        simp only [Avl.Tree.balance] at double even
        omega
      obtain ⟨w, hw, hbal, hheight, horder⟩ := rotateLeft_spec d 0 0 (b + 1) hother balanced (by omega)
        (by omega) (by omega) (by omega)
      refine ⟨w, false, congrArg (Option.map (·, false)) hw, ⟨hbal, horder, ?_, ?_⟩⟩
      · exact iff_of_false Bool.false_ne_true (by simp [Stops, away, even])
      · rw [Crumb.height_plug]
        simp only [Bool.false_eq_true, if_false]
        omega
  · rw [if_neg (by omega)]
    refine ⟨.node t d (b + 1) other, false, rfl, ⟨?_, rfl, ?_, ?_⟩⟩
    · exact ⟨balanced, hother, by omega, by omega, by omega⟩
    · exact iff_of_false Bool.false_ne_true (by simp [Stops, away, level])
    · simp only [Crumb.plug, Avl.Tree.height_node, Bool.false_eq_true, if_false]
      omega

theorem retraceStep_right {other : Avl.Tree α} (shrunk : Shrunk t₀ t)
    (fits : Crumb.Fits ⟨.right, d, b, other⟩ t₀.height) :
    ∃ w done, retraceStep ⟨.right, d, b, other⟩ t = some (w, done) ∧ Retraced ⟨.right, d, b, other⟩ t₀ t w done := by
  obtain ⟨balanced, height⟩ := shrunk
  obtain ⟨hother, hlow, hup, hb⟩ := fits
  simp only at hother hlow hup hb
  rw [retraceStep]
  simp only
  by_cases level : b = 0
  · refine ⟨.node other d (b - 1) t, true, if_pos (by omega), ⟨?_, rfl, ?_, ?_⟩⟩
    · exact ⟨hother, balanced, by omega, by omega, by omega⟩
    · exact iff_of_true rfl (.inl level)
    · simp only [Crumb.plug, Avl.Tree.height_node, if_true]
      omega
  rw [if_neg (by omega)]
  by_cases away : b = -1
  · rw [if_pos (by omega)]
    obtain ⟨xl, xd, xb, xr, rfl⟩ := Avl.Tree.exists_node_of_height (t := other) (by omega)
    have bounds := hother
    obtain ⟨-, -, -, hxlow, hxup⟩ := bounds
    by_cases double : (Avl.Tree.node xl xd xb xr).balance = 1
    · rw [if_pos double]
      have lean : xb = 1 := double
      subst lean
      obtain ⟨w, hw, hbal, hheight, horder⟩ := rotateLeftRight_spec d (b - 1) hother balanced (by omega)
      refine ⟨w, false, congrArg (Option.map (·, false)) hw, ⟨hbal, horder, ?_, ?_⟩⟩
      · exact iff_of_false Bool.false_ne_true (by simp [Stops, away, Avl.Tree.balance])
      · rw [hheight, Crumb.height_plug]
        simp only [Bool.false_eq_true, if_false]
        omega
    rw [if_neg double]
    by_cases even : (Avl.Tree.node xl xd xb xr).balance = 0
    · rw [if_pos even]
      have lean : xb = 0 := even
      obtain ⟨w, hw, hbal, hheight, horder⟩ := rotateRight_spec d 1 (-1) (b - 1) hother balanced (by omega)
        (by omega) (by omega) (by omega)
      refine ⟨w, true, congrArg (Option.map (·, true)) hw, ⟨hbal, horder, ?_, ?_⟩⟩
      · exact iff_of_true rfl (.inr ⟨away, even⟩)
      · rw [Crumb.height_plug]
        simp only [if_true]
        omega
    · rw [if_neg even]
      have lean : xb = -1 := by
        simp only [Avl.Tree.balance] at double even
        omega
      obtain ⟨w, hw, hbal, hheight, horder⟩ := rotateRight_spec d 0 0 (b - 1) hother balanced (by omega)
        (by omega) (by omega) (by omega)
      refine ⟨w, false, congrArg (Option.map (·, false)) hw, ⟨hbal, horder, ?_, ?_⟩⟩
      · exact iff_of_false Bool.false_ne_true (by simp [Stops, away, even])
      · rw [Crumb.height_plug]
        simp only [Bool.false_eq_true, if_false]
        omega
  · rw [if_neg (by omega)]
    refine ⟨.node other d (b - 1) t, false, rfl, ⟨?_, rfl, ?_, ?_⟩⟩
    · exact ⟨hother, balanced, by omega, by omega, by omega⟩
    · exact iff_of_false Bool.false_ne_true (by simp [Stops, away, level])
    · simp only [Crumb.plug, Avl.Tree.height_node, Bool.false_eq_true, if_false]
      omega

theorem retraceStep_spec (shrunk : Shrunk t₀ t) (fits : y.Fits t₀.height) :
    ∃ w done, retraceStep y t = some (w, done) ∧ Retraced y t₀ t w done := by
  obtain ⟨side, d, b, other⟩ := y
  cases side with
  | left => exact retraceStep_left shrunk fits
  | right => exact retraceStep_right shrunk fits

/-- The way back: the tree is balanced again exactly when the loss of a level stops before the root. -/
theorem retrace_spec (balanced : (plug pa t₀).Balanced) (shrunk : Shrunk t₀ t) :
    ∃ root, retrace pa t = some root ∧ root.inorder = (plug pa t).inorder ∧ (root.Balanced ↔ Settles pa) := by
  induction pa generalizing t₀ t with
  | nil => exact ⟨t, rfl, rfl, iff_of_true shrunk.balanced trivial⟩
  | cons y pa ih =>
    have node := Crumb.balanced_plug.mp (@balanced_of_plug _ pa _ balanced)
    cases pa with
    | nil =>
      refine ⟨y.plug t, rfl, rfl, iff_of_false (fun bad => ?_) nofun⟩
      -- The root keeps its balance while one of its subtrees is lower.
      have old := node.2
      have new := (Crumb.balanced_plug.mp bad).2
      have height := shrunk.height
      obtain ⟨side, d, b, other⟩ := y
      obtain ⟨-, -, -, hold⟩ := old
      obtain ⟨-, -, -, hnew⟩ := new
      cases side with
      | left =>
        simp only at hold hnew
        omega
      | right =>
        simp only at hold hnew
        omega
    | cons z pa =>
      obtain ⟨w, done, hw, hbal, horder, hstops, hheight⟩ := retraceStep_spec shrunk node.2
      have same : (plug (z :: pa) w).inorder = (plug (y :: z :: pa) t).inorder := by
        rw [inorder_plug, horder, ← inorder_plug]
        rfl
      cases done with
      | true =>
        refine ⟨plug (z :: pa) w, by rw [retrace, hw]; rfl, same, ?_⟩
        exact iff_of_true (balanced_plug balanced hbal hheight) (.inl (hstops.mp rfl))
      | false =>
        obtain ⟨root, hroot, horder', hbal'⟩ := ih balanced ⟨hbal, hheight⟩
        refine ⟨root, by rw [retrace, hw]; exact hroot, horder'.trans same, hbal'.trans ?_⟩
        exact (or_iff_right fun stops => nomatch hstops.mpr stops).symm

theorem leftmost_spec (cs : List (Crumb α)) (rl : Avl.Tree α) (rd : α) (rb : Int) (rr : Avl.Tree α) :
    ∃ cs' sd sb sr, leftmost cs rl rd rb rr = (cs' ++ cs, sd, sr) ∧ before cs' = [] ∧
      plug cs' (.node .nil sd sb sr) = .node rl rd rb rr := by
  induction rl generalizing cs rd rb rr with
  | nil => exact ⟨[], rd, rb, rr, rfl, rfl, rfl⟩
  | node ll ld lb lr ihl _ =>
    obtain ⟨cs', sd, sb, sr, hleft, hbefore, hplug⟩ := ihl (⟨.left, rd, rb, rr⟩ :: cs) ld lb lr
    refine ⟨cs' ++ [⟨.left, rd, rb, rr⟩], sd, sb, sr, ?_, ?_, ?_⟩
    · rw [leftmost, hleft, List.append_assoc]
      rfl
    · simpa [before, Crumb.before] using hbefore
    · rw [plug_append, hplug]
      rfl

/-- Around the place the tree is the former one without the data of the node, and at the place one level is lost. -/
theorem way_spec (pa : List (Crumb α)) (balanced : (plug pa (.node l d b r)).Balanced) :
    ∃ t₀, (plug (way pa l b r).1 t₀).Balanced ∧ Shrunk t₀ (way pa l b r).2 ∧
      (plug (way pa l b r).1 (way pa l b r).2).inorder = before pa ++ (l.inorder ++ r.inorder) ++ after pa := by
  have node : (Avl.Tree.node l d b r).Balanced := balanced_of_plug balanced
  cases r with
  | nil =>
    refine ⟨_, balanced, ⟨node.1, ?_⟩, ?_⟩
    · simp [way]
    · rw [way, inorder_plug]
      simp
  | node rl rd rb rr =>
    obtain ⟨cs, sd, sb, sr, hleft, hbefore, hplug⟩ := leftmost_spec [] rl rd rb rr
    rw [List.append_nil] at hleft
    have hway : way pa l b (.node rl rd rb rr) = (cs ++ ⟨.right, sd, b, l⟩ :: pa, sr) := by
      rw [way, hleft]
    rw [hway]
    have whole : plug (cs ++ ⟨.right, sd, b, l⟩ :: pa) (.node .nil sd sb sr) =
        plug pa (.node l sd b (.node rl rd rb rr)) := by
      rw [plug_append, hplug]
      rfl
    have same : (Avl.Tree.node l sd b (.node rl rd rb rr)).Balanced := node
    refine ⟨.node .nil sd sb sr, ?_, ⟨?_, ?_⟩, ?_⟩
    · rw [whole]
      exact balanced_plug balanced same rfl
    · have inner : (plug cs (.node .nil sd sb sr)).Balanced := hplug ▸ node.2.1
      exact (balanced_of_plug inner).2.1
    · simp
    · have order : (plug cs (Avl.Tree.node .nil sd sb sr)).inorder = sd :: (sr.inorder ++ after cs) := by
        rw [inorder_plug, hbefore]
        simp
      rw [hplug] at order
      rw [order, inorder_plug]
      have hbefore' : before (cs ++ ⟨.right, sd, b, l⟩ :: pa) = before pa ++ (l.inorder ++ [sd]) := by
        have : before (cs ++ ⟨.right, sd, b, l⟩ :: pa) = before (⟨.right, sd, b, l⟩ :: pa) ++ before cs := by
          simp [before]
        rw [this, hbefore]
        simp [before, Crumb.before]
      have hafter : after (cs ++ ⟨.right, sd, b, l⟩ :: pa) = after cs ++ after pa := by
        simp [after, Crumb.after]
      rw [hbefore', hafter]
      simp

end AbstractTree

namespace GenTree

/-- The node with the key and the stack above it; `debug` compiles the assertion in. -/
def locate (debug : Bool) (key : α → K) (k : K) :
    Avl.Tree α → List (Crumb α) → Option (List (Crumb α) × Avl.Tree α × α × Int × Avl.Tree α)
  | .nil, _ => none
  | .node l d b r, pa =>
      if k = key d then some (pa, l, d, b, r)
      else if key d < k then
        (push ⟨.right, d, b, l⟩ pa).bind fun pa => if debug && !r.isNil then none else locate debug key k r pa
      else
        (push ⟨.left, d, b, r⟩ pa).bind fun pa => if debug && !l.isNil then none else locate debug key k l pa

def remove (debug : Bool) (key : α → K) (k : K) (s : GenTree α) : Option (GenTree α) :=
  (locate debug key k s.root []).bind fun (pa, l, _, b, r) =>
    (AbstractTree.remove MAX_HEIGHT pa l b r).map fun root => ⟨root, s.cnt - 1⟩

variable {debug : Bool} {key : α → K} {k : K} {pa pa₀ : List (Crumb α)} {t l r : Avl.Tree α} {d : α} {b : Int}

/-! ### The search -/

/-- The search for the key goes on at this side of the node. -/
def Leads (key : α → K) (k : K) (c : Crumb α) : Prop := k ≠ key c.data ∧ (c.side = .right ↔ key c.data < k)

theorem locate_sound (found : locate debug key k t pa₀ = some (pa, l, d, b, r)) :
    ∃ cs, pa = cs ++ pa₀ ∧ t = plug cs (.node l d b r) ∧ k = key d ∧ (∀ c ∈ cs, Leads key k c) ∧
      (cs ≠ [] → debug = false) := by
  induction t generalizing pa₀ with
  | nil => cases found
  | node tl td tb tr ihl ihr =>
    rw [locate] at found
    split at found
    case isTrue same =>
      cases found
      exact ⟨[], rfl, rfl, same, nofun, nofun⟩
    case isFalse other =>
      split at found
      case isTrue above =>
        obtain ⟨pa', pushed, found⟩ := Option.bind_eq_some_iff.mp found
        cases push_eq_some pushed
        split at found
        · cases found
        case isFalse silent =>
        obtain ⟨cs, rfl, rfl, same, leads, -⟩ := ihr found
        refine ⟨cs ++ [⟨.right, td, tb, tl⟩], by simp, by rw [plug_append]; rfl, same, ?_, fun _ => ?_⟩
        · intro c mem
          rcases List.mem_append.mp mem with mem | mem
          · exact leads c mem
          · cases List.mem_singleton.mp mem
            exact ⟨other, iff_of_true rfl above⟩
        · have : (plug cs (Avl.Tree.node l d b r)).isNil = false := isNil_plug cs l d b r
          simpa [this] using silent
      case isFalse above =>
        obtain ⟨pa', pushed, found⟩ := Option.bind_eq_some_iff.mp found
        cases push_eq_some pushed
        split at found
        · cases found
        case isFalse silent =>
        obtain ⟨cs, rfl, rfl, same, leads, -⟩ := ihl found
        refine ⟨cs ++ [⟨.left, td, tb, tr⟩], by simp, by rw [plug_append]; rfl, same, ?_, fun _ => ?_⟩
        · intro c mem
          rcases List.mem_append.mp mem with mem | mem
          · exact leads c mem
          · cases List.mem_singleton.mp mem
            exact ⟨other, iff_of_false nofun above⟩
        · have : (plug cs (Avl.Tree.node l d b r)).isNil = false := isNil_plug cs l d b r
          simpa [this] using silent

theorem locate_complete (cs : List (Crumb α)) (same : k = key d) (leads : ∀ c ∈ cs, Leads key k c)
    (silent : cs ≠ [] → debug = false) (room : (cs ++ pa₀).length ≤ MAX_HEIGHT) :
    locate debug key k (plug cs (.node l d b r)) pa₀ = some (cs ++ pa₀, l, d, b, r) := by
  induction cs using List.reverseRecOn generalizing pa₀ with
  | nil =>
    rw [plug_nil, locate, if_pos same]
    rfl
  | append_singleton cs c ih =>
    obtain ⟨other, side⟩ := leads c (by simp)
    have rest := @ih (c :: pa₀) (fun c' mem => leads c' (List.mem_append_left [c] mem))
      (fun _ => silent (by simp)) (by simpa using room)
    have free : pa₀.length < MAX_HEIGHT := by
      simp only [List.length_append, List.length_cons, List.length_nil] at room
      omega
    have off : debug = false := silent (by simp)
    subst off
    rw [List.append_assoc, plug_append]
    obtain ⟨cside, cd, cb, cother⟩ := c
    cases cside with
    | left =>
      have below : ¬ key cd < k := fun above => nomatch side.mpr above
      simp only [plug_cons, plug_nil, Crumb.plug, locate, if_neg other, if_neg below, push, if_pos free,
        Option.bind_some]
      exact rest
    | right =>
      have above : key cd < k := side.mp rfl
      simp only [plug_cons, plug_nil, Crumb.plug, locate, if_neg other, if_pos above, push, if_pos free,
        Option.bind_some]
      exact rest

/-! ### Removal -/

/-- The key is at the root, which has no right subtree; or it is below the root in code without the assertion,
the way to the place that is unlinked fits the stack, and the loss of a level stops before the root. -/
inductive Removable (debug : Bool) (key : α → K) (k : K) (t : Avl.Tree α) : Prop where
  | root {l : Avl.Tree α} {d : α} {b : Int} : t = .node l d b .nil → k = key d → Removable debug key k t
  | below {pa : List (Crumb α)} {l : Avl.Tree α} {d : α} {b : Int} {r : Avl.Tree α} :
      t = plug pa (.node l d b r) → k = key d → (∀ c ∈ pa, Leads key k c) → pa ≠ [] → debug = false →
      (AbstractTree.way pa l b r).1.length ≤ MAX_HEIGHT → AbstractTree.Settles (AbstractTree.way pa l b r).1 →
      Removable debug key k t

/-- An item with the key is taken out. -/
def Removed (key : α → K) (k : K) (old new : List α) : Prop :=
  ∃ l₁ d l₂, old = l₁ ++ d :: l₂ ∧ new = l₁ ++ l₂ ∧ key d = k

theorem Removed.sorted {old new : List α} (removed : Removed key k old new)
    (sorted : old.Pairwise fun a b => key a ≤ key b) : new.Pairwise fun a b => key a ≤ key b := by
  obtain ⟨l₁, d, l₂, rfl, rfl, -⟩ := removed
  exact sorted.sublist (List.Sublist.append_left (List.sublist_cons_self d l₂) l₁)

theorem length_way (pa : List (Crumb α)) (l : Avl.Tree α) (b : Int) (r : Avl.Tree α) :
    pa.length ≤ (AbstractTree.way pa l b r).1.length := by
  cases r with
  | nil => exact Nat.le_refl _
  | node rl rd rb rr =>
    simp only [AbstractTree.way, List.length_append, List.length_cons]
    omega

/-- What `AbstractTree::remove` leaves where it does not fail. -/
theorem remove_spec {s : GenTree α} (valid : s.Valid key) (hroot : s.root = plug pa (.node l d b r)) (same : k = key d)
    {root : Avl.Tree α} (removed : AbstractTree.remove MAX_HEIGHT pa l b r = some root) :
    Removed key k s.root.inorder root.inorder ∧
      ((⟨root, s.cnt - 1⟩ : GenTree α).Valid key ↔ AbstractTree.Settles (AbstractTree.way pa l b r).1) := by
  obtain ⟨t₀, balanced, shrunk, order⟩ := AbstractTree.way_spec pa (hroot ▸ valid.balanced)
  obtain ⟨root', hretrace, horder, hbal⟩ := AbstractTree.retrace_spec balanced shrunk
  have hsome : root' = root := by
    unfold AbstractTree.remove at removed
    split at removed
    · cases removed
    · split at removed
      · exact Option.some.inj (hretrace.symm.trans removed)
      · cases removed
  subst hsome
  have old : s.root.inorder = (before pa ++ l.inorder) ++ d :: (r.inorder ++ after pa) := by
    rw [hroot, inorder_plug]
    simp
  have new : root'.inorder = (before pa ++ l.inorder) ++ (r.inorder ++ after pa) := by
    rw [horder, order]
    simp
  have out : Removed key k s.root.inorder root'.inorder := ⟨_, d, _, old, new, same.symm⟩
  refine ⟨out, fun valid' => hbal.mp valid'.balanced, fun settles => ⟨out.sorted valid.sorted, hbal.mpr settles, ?_⟩⟩
  have count : s.root.size = root'.size + 1 := by
    rw [← Avl.Tree.length_inorder, ← Avl.Tree.length_inorder, old, new]
    simp only [List.length_append, List.length_cons]
    omega
  rw [valid.count, count]
  push_cast
  omega

/-- A removal of one node is right exactly under `Removable`. -/
theorem remove_iff {s : GenTree α} (valid : s.Valid key) (debug : Bool) (k : K) :
    (∃ s', s.remove debug key k = some s' ∧ s'.Valid key ∧ Removed key k s.root.inorder s'.root.inorder) ↔
      Removable debug key k s.root := by
  constructor
  · rintro ⟨s', hremove, valid', -⟩
    obtain ⟨⟨pa, l, d, b, r⟩, found, hremove⟩ := Option.bind_eq_some_iff.mp hremove
    obtain ⟨root, removed, rfl⟩ := Option.map_eq_some_iff.mp hremove
    obtain ⟨cs, rfl, hroot, same, leads, silent⟩ := locate_sound found
    rw [List.append_nil] at removed
    have settles := (remove_spec valid hroot same removed).2.mp valid'
    unfold AbstractTree.remove at removed
    split at removed
    · cases removed
    case isFalse linked =>
    split at removed
    case isFalse => cases removed
    case isTrue room =>
    by_cases top : cs = []
    · subst top
      cases r with
      | nil => exact .root hroot same
      | node rl rd rb rr => exact absurd ⟨rfl, rfl⟩ linked
    · exact .below hroot same leads top (silent top) room settles
  · intro removable
    have right : ∀ pa l d b r, s.root = plug pa (.node l d b r) → k = key d → (∀ c ∈ pa, Leads key k c) →
        (pa ≠ [] → debug = false) → ¬ (pa = [] ∧ r.isNil = false) →
        (AbstractTree.way pa l b r).1.length ≤ MAX_HEIGHT → AbstractTree.Settles (AbstractTree.way pa l b r).1 →
        ∃ s', s.remove debug key k = some s' ∧ s'.Valid key ∧ Removed key k s.root.inorder s'.root.inorder := by
      intro pa l d b r hroot same leads silent linked room settles
      have found : locate debug key k s.root [] = some (pa ++ [], l, d, b, r) := by
        rw [hroot]
        exact locate_complete pa same leads silent (by simpa using Nat.le_trans (length_way pa l b r) room)
      obtain ⟨t₀, balanced, shrunk, -⟩ := AbstractTree.way_spec pa (hroot ▸ valid.balanced)
      obtain ⟨root, hretrace, -, -⟩ := AbstractTree.retrace_spec balanced shrunk
      have removed : AbstractTree.remove MAX_HEIGHT pa l b r = some root := by
        rw [AbstractTree.remove, if_neg linked, if_pos room, hretrace]
      have spec := remove_spec valid hroot same removed
      refine ⟨⟨root, s.cnt - 1⟩, ?_, spec.2.mpr settles, spec.1⟩
      rw [remove, found]
      simp only [Option.bind_some, List.append_nil, removed, Option.map_some]
    cases removable with
    | @root l d b hroot same =>
      exact right [] l d b .nil hroot same nofun (fun ne => absurd rfl ne) (fun bad => nomatch bad.2)
        (Nat.zero_le _) trivial
    | @below pa l d b r hroot same leads below silent room settles =>
      exact right pa l d b r hroot same leads (fun _ => silent) (fun bad => below bad.1) room settles

/-- The trees that adds, sets and removals lead to, where each removal is `Removable`. -/
inductive Reached (debug : Bool) (key : α → K) : GenTree α → Prop where
  | empty : Reached debug key empty
  | add {s s' : GenTree α} {item : α} : Reached debug key s → s.add key item = some s' → Reached debug key s'
  | set {s s' : GenTree α} {item : α} : Reached debug key s → s.set key item = some s' → Reached debug key s'
  | remove {s s' : GenTree α} {k : K} : Reached debug key s → Removable debug key k s.root →
      s.remove debug key k = some s' → Reached debug key s'

theorem Reached.valid {s : GenTree α} (reached : Reached debug key s) : s.Valid key := by
  induction reached with
  | empty => exact valid_empty
  | add _ stored ih => exact (Stored.of_some ih stored).valid
  | set _ stored ih => exact (Stored.of_some ih stored).valid
  | @remove s s' k _ removable removed ih =>
    obtain ⟨s'', removed', valid, -⟩ := (remove_iff ih debug k).mpr removable
    cases removed.symm.trans removed'
    exact valid

/-- In every run whose removals are `Removable`, a removal is right exactly when it is. -/
theorem removal_right_iff {s : GenTree α} (reached : Reached debug key s) (k : K) :
    (∃ s', s.remove debug key k = some s' ∧ s'.Valid key ∧ Removed key k s.root.inorder s'.root.inorder ∧
        s'.cnt = s.cnt - 1) ↔ Removable debug key k s.root := by
  rw [← remove_iff reached.valid debug k]
  constructor
  · rintro ⟨s', removed, valid, out, -⟩
    exact ⟨s', removed, valid, out⟩
  · rintro ⟨s', removed, valid, out⟩
    refine ⟨s', removed, valid, out, ?_⟩
    obtain ⟨_, -, hremove⟩ := Option.bind_eq_some_iff.mp removed
    obtain ⟨root, -, rfl⟩ := Option.map_eq_some_iff.mp hremove
    rfl

/-- The leaf 0 below the level node 1 is removed. -/
theorem removal_right_leaf : ∃ s : GenTree Nat, s.root.inorder = [0, 1, 2, 3, 4] ∧
    ∃ s', s.remove false id 0 = some s' ∧ s'.Valid id ∧ Removed id 0 s.root.inorder s'.root.inorder ∧
      s'.cnt = s.cnt - 1 := by
  let one : Avl.Tree Nat := .node (.node .nil 0 0 .nil) 1 0 (.node .nil 2 0 .nil)
  have r₁ : Reached false (id : Nat → Nat) ⟨.node .nil 3 0 .nil, 1⟩ := @Reached.add _ _ _ _ _ _ _ 3 .empty rfl
  have r₂ : Reached false (id : Nat → Nat) ⟨.node (.node .nil 1 0 .nil) 3 (-1) .nil, 2⟩ :=
    @Reached.add _ _ _ _ _ _ _ 1 r₁ (by decide)
  have r₃ : Reached false (id : Nat → Nat) ⟨.node (.node .nil 1 0 .nil) 3 0 (.node .nil 4 0 .nil), 3⟩ :=
    @Reached.add _ _ _ _ _ _ _ 4 r₂ (by decide)
  have r₄ : Reached false (id : Nat → Nat)
      ⟨.node (.node (.node .nil 0 0 .nil) 1 (-1) .nil) 3 (-1) (.node .nil 4 0 .nil), 4⟩ :=
    @Reached.add _ _ _ _ _ _ _ 0 r₃ (by decide)
  have r₅ : Reached false (id : Nat → Nat) ⟨.node one 3 (-1) (.node .nil 4 0 .nil), 5⟩ :=
    @Reached.add _ _ _ _ _ _ _ 2 r₄ (by decide)
  refine ⟨_, rfl, (removal_right_iff r₅ 0).mpr ?_⟩
  refine @Removable.below _ _ _ _ _ _ _ [⟨.left, 1, 0, .node .nil 2 0 .nil⟩, ⟨.left, 3, -1, .node .nil 4 0 .nil⟩]
    .nil 0 0 .nil rfl rfl ?_ (by decide) rfl (by decide) (.inl (.inl rfl))
  simp [Leads]

/-- The removal of a leaf below the root leaves the balance of the root as it was. -/
theorem removal_keeps_root_balance : ∃ s s' : GenTree Nat, Reached false id s ∧ s.remove false id 2 = some s' ∧
    s'.root = .node .nil 1 1 .nil ∧ ¬ s'.root.Balanced := by
  have first : Reached false (id : Nat → Nat) ⟨.node .nil 1 0 .nil, 1⟩ := @Reached.add _ _ _ _ _ _ _ 1 .empty rfl
  have second : Reached false (id : Nat → Nat) ⟨.node .nil 1 1 (.node .nil 2 0 .nil), 2⟩ :=
    @Reached.add _ _ _ _ _ _ _ 2 first (by decide)
  exact ⟨_, ⟨.node .nil 1 1 .nil, 1⟩, second, by decide, rfl, by decide⟩

end GenTree

end Otawa.Elm
