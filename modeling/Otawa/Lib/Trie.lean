import Mathlib.Data.List.Basic

/-!
# Tries

A trie with a label at each node. `update` makes the nodes of a word where they are missing and changes the label of
the last one; `walk` follows a word as far as there are nodes and leaves out the letters that have none.
-/

namespace Otawa

/-- The children of a node are found by their letters. -/
inductive Trie (α β : Type) : Type where
  | node (label : β) (children : List (α × Trie α β))

namespace Trie

variable {α β : Type}

def label : Trie α β → β
  | node b _ => b

def children : Trie α β → List (α × Trie α β)
  | node _ cs => cs

variable [DecidableEq α]

def child (t : Trie α β) (a : α) : Option (Trie α β) :=
  t.children.lookup a

/-- The first child of the letter is replaced. -/
def replace (a : α) (t' : Trie α β) : List (α × Trie α β) → List (α × Trie α β)
  | [] => []
  | c :: cs => if a = c.1 then (a, t') :: cs else c :: replace a t' cs

/-- A child that is missing is put before the other ones. -/
def setChild (t : Trie α β) (a : α) (t' : Trie α β) : Trie α β :=
  match t.child a with
  | some _ => node t.label (replace a t' t.children)
  | none => node t.label ((a, t') :: t.children)

/-- The label at a word. -/
def get : Trie α β → List α → Option β
  | t, [] => some t.label
  | t, a :: l => (t.child a).bind fun c => c.get l

def update (d : β) (f : β → β) : Trie α β → List α → Trie α β
  | t, [] => node (f t.label) t.children
  | t, a :: l => t.setChild a (update d f ((t.child a).getD (node d [])) l)

/-- The letters of a word for which there is a child. -/
def walk : Trie α β → List α → List α
  | _, [] => []
  | t, a :: l =>
    match t.child a with
    | some c => a :: c.walk l
    | none => t.walk l

variable {t t' : Trie α β} {a : α} {l l' : List α} {d : β} {f : β → β}

theorem lookup_cons (b : α) (c : α × Trie α β) (cs : List (α × Trie α β)) :
    (c :: cs).lookup b = if b = c.1 then some c.2 else cs.lookup b := by
  obtain ⟨k, t⟩ := c
  rw [List.lookup_cons]
  by_cases hb : b = k
  · simp [hb]
  · rw [beq_false_of_ne hb, if_neg hb]

theorem lookup_replace {cs : List (α × Trie α β)} (hchild : cs.lookup a ≠ none) (b : α) :
    (replace a t' cs).lookup b = if b = a then some t' else cs.lookup b := by
  induction cs with
  | nil => exact absurd rfl hchild
  | cons c cs ih =>
    rw [lookup_cons] at hchild
    rw [replace]
    by_cases hc : a = c.1
    · rw [if_pos hc, lookup_cons, lookup_cons, ← hc]
      split <;> rfl
    · rw [if_neg hc] at hchild ⊢
      rw [lookup_cons, lookup_cons, ih hchild]
      by_cases hb : b = a
      · rw [if_pos hb, if_pos hb, if_neg fun heq => hc (hb.symm.trans heq)]
      · rw [if_neg hb, if_neg hb]

theorem child_setChild (b : α) : (t.setChild a t').child b = if b = a then some t' else t.child b := by
  unfold setChild
  cases hchild : t.child a with
  | some c =>
    have hne : t.children.lookup a ≠ none := by
      rw [show t.children.lookup a = some c from hchild]
      exact Option.some_ne_none c
    exact lookup_replace hne b
  | none =>
    rw [child, children, lookup_cons]
    rfl

theorem get_nil (d : β) (a : α) (l : List α) : (node d [] : Trie α β).get (a :: l) = none := rfl

/-- The word has the new label, its prefixes have a node, and the other words are as before. -/
theorem get_update : (update d f t l).get l' =
    if l' = l then some (f ((t.get l).getD d))
    else if l' <+: l then some ((t.get l').getD d)
    else t.get l' := by
  induction l generalizing t l' with
  | nil =>
    cases l' with
    | nil => rfl
    | cons b l' => simp [update, get, child, children]
  | cons a l ih =>
    cases l' with
    | nil =>
      have hlabel : (t.setChild a (update d f ((t.child a).getD (node d [])) l)).label = t.label := by
        unfold setChild
        split <;> rfl
      simp [update, get, hlabel]
    | cons b l' =>
      rw [update, get, child_setChild]
      by_cases hb : b = a
      · subst hb
        rw [if_pos rfl, Option.bind_some, ih]
        simp only [List.cons.injEq, true_and, List.cons_prefix_cons, get]
        cases hchild : t.child b with
        | some c => rfl
        | none =>
          simp only [Option.getD_none, Option.bind_none]
          cases l' <;> cases l <;> simp [get, child, children, label]
      · simp [hb, get]

/-! ### Walks -/

theorem walk_sublist : (t.walk l).Sublist l := by
  induction l generalizing t with
  | nil => exact List.Sublist.slnil
  | cons a l ih =>
    rw [walk]
    split
    · exact ih.cons_cons a
    · exact ih.cons a

/-- The nodes of the beginning of a word are on the walk. -/
theorem prefix_walk (h : (t.get l).isSome) (h' : l <+: l') : l <+: t.walk l' := by
  induction l generalizing t l' with
  | nil => exact List.nil_prefix
  | cons a l ih =>
    obtain ⟨l', rfl⟩ : ∃ r, l' = a :: r := by
      obtain ⟨r, rfl⟩ := h'
      exact ⟨l ++ r, rfl⟩
    rw [List.cons_prefix_cons] at h'
    rw [get] at h
    cases hchild : t.child a with
    | none => simp [hchild] at h
    | some c =>
      rw [hchild, Option.bind_some] at h
      rw [walk, hchild]
      exact List.cons_prefix_cons.mpr ⟨rfl, ih h h'.2⟩

end Trie

end Otawa
