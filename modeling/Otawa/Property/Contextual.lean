import Otawa.Lib.Trie
import Mathlib.Data.List.Induction

/-!
# Contextual properties

The annotations of a property list for contextual paths are in a trie of steps, the innermost step first. The lookup
descends it greedily along the current path and takes the last node of the descent that has a property of the
identifier. `lookup_agrees_iff` says when it agrees with the documentation, by which a path matches the annotations
whose paths are its subsequences.
-/

namespace Otawa

/-- `ContextualStep::kind_t`. -/
inductive ContextualStep.Kind where
  | none
  | function
  | call
  | firstIter
  | otherIter
  deriving DecidableEq, Repr

structure ContextualStep (A : Type) where
  kind : ContextualStep.Kind
  addr : A
  deriving DecidableEq, Repr

/-- The outermost step comes first. -/
abbrev ContextualPath (A : Type) := List (ContextualStep A)

/-- The properties with their identifiers. `getProp` moves the property that it finds to the front, which changes no
order between the properties of one identifier. -/
abbrev PropList (I V : Type) := List (I × V)

variable {A I V : Type} [DecidableEq I]

namespace PropList

def getProp (props : PropList I V) (id : I) : Option V :=
  (props.find? fun prop => prop.1 = id).map Prod.snd

def hasProp (props : PropList I V) (id : I) : Bool :=
  (props.getProp id).isSome

def addProp (props : PropList I V) (prop : I × V) : PropList I V :=
  prop :: props

/-- The first property of the identifier is removed. -/
def setProp (props : PropList I V) (prop : I × V) : PropList I V :=
  prop :: props.eraseP fun old => old.1 = prop.1

end PropList

/-- A property list and, under the private identifier, its contextual properties. -/
structure Hook (A I V : Type) where
  props : PropList I V
  context : Option (Trie (ContextualStep A) (PropList I V))

namespace ContextualProperty

variable [DecidableEq A]

/-- The loop goes from the last step of the path to the first one. A step without a child is passed. -/
def findProps (root : Trie (ContextualStep A) (PropList I V)) (props : PropList I V) (path : ContextualPath A)
    (id : I) : PropList I V :=
  let found := path.reverse.foldl (fun (at_ : Trie (ContextualStep A) (PropList I V) × List (PropList I V)) step =>
    match at_.1.child step with
    | some cur => (cur, cur.label :: at_.2)
    | none => at_) (root, [props])
  (found.2.find? fun list => list.hasProp id).getD props

def find (hook : Hook A I V) (path : ContextualPath A) (id : I) : PropList I V :=
  match hook.context with
  | some cprop => findProps cprop hook.props path id
  | none => hook.props

/-- `make` gives the list at the path, where `write` puts a property. The nodes that are missing are made. -/
def make (hook : Hook A I V) (path : ContextualPath A) (write : PropList I V → PropList I V) : Hook A I V :=
  if path = [] then { hook with props := write hook.props }
  else { hook with context := some ((hook.context.getD (.node [] [])).update [] write path.reverse) }

end ContextualProperty

open ContextualProperty

/-- A property with the path it is made for; it is set, or added to the other ones of the identifier. -/
structure Setting (A I V : Type) where
  path : ContextualPath A
  id : I
  value : V
  adds : Bool

def Setting.write (a : Setting A I V) (props : PropList I V) : PropList I V :=
  if a.adds then props.addProp (a.id, a.value) else props.setProp (a.id, a.value)

variable [DecidableEq A]

/-- The annotations are made one after the other. -/
def annotate (hook : Hook A I V) (as : List (Setting A I V)) : Hook A I V :=
  as.foldl (fun hook a => make hook a.path a.write) hook

namespace Hook

/-- A property list without properties. -/
def empty : Hook A I V := ⟨[], none⟩

/-- The properties for a path, the innermost step first. -/
def at_ (hook : Hook A I V) (q : List (ContextualStep A)) : Option (PropList I V) :=
  if q = [] then some hook.props else hook.context.bind fun cprop => cprop.get q

/-- The steps of the current path that the lookup takes. -/
def walk (hook : Hook A I V) (path : ContextualPath A) : List (ContextualStep A) :=
  (hook.context.getD (.node [] [])).walk path.reverse

end Hook

/-- What the documentation says of a lookup; the annotations are the ones made before. -/
structure Agrees (as : List (Setting A I V)) (path : ContextualPath A) (id : I) : Prop where
  found : (find (annotate .empty as) path id).hasProp id = true ↔ ∃ a ∈ as, a.id = id ∧ a.path.Sublist path
  value : ∀ v, (find (annotate .empty as) path id).getProp id = some v →
    ∃ a ∈ as, a.id = id ∧ a.path.Sublist path ∧ a.value = v
  /-- Settings for other identifiers or paths hide nothing. -/
  kept : ∀ bs : List (Setting A I V), (∀ b ∈ bs, b.id ≠ id ∨ ¬ b.path.Sublist path) →
    (find (annotate .empty as) path id).hasProp id = true →
    (find (annotate .empty (as ++ bs)) path id).hasProp id = true

variable {hook : Hook A I V} {as : List (Setting A I V)} {a : Setting A I V} {path : ContextualPath A} {id : I}
  {q : List (ContextualStep A)} {list : PropList I V} {v : V}

/-! ### Property lists -/

section

omit [DecidableEq A]

theorem getProp_write (a : Setting A I V) (list : PropList I V) : (a.write list).getProp a.id = some a.value := by
  unfold Setting.write PropList.getProp PropList.addProp PropList.setProp
  split <;> simp

/-- Another property of the list was there before. -/
theorem mem_write {prop : I × V} (h : prop ∈ a.write list) : prop = (a.id, a.value) ∨ prop ∈ list := by
  unfold Setting.write PropList.addProp PropList.setProp at h
  split at h
  · exact List.mem_cons.mp h
  · exact (List.mem_cons.mp h).imp_right List.mem_of_mem_eraseP

theorem getProp_write_of_ne (hid : id ≠ a.id) (list : PropList I V) : (a.write list).getProp id = list.getProp id := by
  have herase : ∀ list : PropList I V, (list.eraseP fun old => old.1 = a.id).find? (fun prop => prop.1 = id) =
      list.find? fun prop => prop.1 = id := by
    intro list
    induction list with
    | nil => rfl
    | cons prop list ih =>
      by_cases hprop : prop.1 = a.id
      · rw [List.eraseP_cons_of_pos (by simpa using hprop), List.find?_cons_of_neg]
        simpa using fun heq => hid (heq.symm.trans hprop)
      · rw [List.eraseP_cons_of_neg (by simpa using hprop), List.find?_cons, List.find?_cons, ih]
  unfold Setting.write PropList.getProp PropList.addProp PropList.setProp
  split
  · rw [List.find?_cons_of_neg (by simpa using Ne.symm hid)]
  · rw [List.find?_cons_of_neg (by simpa using Ne.symm hid), herase]

theorem hasProp_write (h : list.hasProp id = true) : (a.write list).hasProp id = true := by
  unfold PropList.hasProp at h ⊢
  by_cases hid : id = a.id
  · rw [hid, getProp_write]
    rfl
  · rw [getProp_write_of_ne hid]
    exact h

theorem mem_of_getProp (h : list.getProp id = some v) : (id, v) ∈ list := by
  obtain ⟨prop, hprop, rfl⟩ := Option.map_eq_some_iff.mp h
  have hid : prop.1 = id := by simpa using List.find?_some hprop
  rw [← hid]
  exact List.mem_of_find?_eq_some hprop

end

/-! ### What the annotations make -/

omit [DecidableEq I] in
theorem at_make (write : PropList I V → PropList I V) : (make hook path write).at_ q =
    if q = path.reverse then some (write ((hook.at_ q).getD []))
    else if q <+: path.reverse then some ((hook.at_ q).getD [])
    else hook.at_ q := by
  unfold make Hook.at_
  by_cases hpath : path = []
  · subst hpath
    by_cases hq : q = [] <;> simp [hq]
  · rw [if_neg hpath]
    by_cases hq : q = []
    · have hne : [] ≠ path.reverse := fun heq => hpath (List.reverse_eq_nil_iff.mp heq.symm)
      subst hq
      rw [if_pos rfl, if_neg hne, if_pos List.nil_prefix]
      rfl
    · have hnone : (Trie.node [] [] : Trie (ContextualStep A) (PropList I V)).get q = none := by
        obtain ⟨step, q, rfl⟩ := List.exists_cons_of_ne_nil hq
        exact Trie.get_nil [] step q
      simp only [hq, if_false, Option.bind_some, Trie.get_update]
      cases hook.context with
      | some cprop =>
        split
        case isTrue heq => rw [heq]; rfl
        case isFalse => rfl
      | none =>
        split
        case isTrue heq => rw [← heq, Option.getD_none, hnone]; rfl
        case isFalse => rw [Option.getD_none, hnone]; rfl

/-- The lists have the properties of the annotations. -/
structure Describes (as : List (Setting A I V)) (hook : Hook A I V) : Prop where
  sound : ∀ q list id v, hook.at_ q = some list → (id, v) ∈ list →
    ∃ a ∈ as, a.id = id ∧ a.path.reverse = q ∧ a.value = v
  complete : ∀ a ∈ as, ∃ list, hook.at_ a.path.reverse = some list ∧ list.hasProp a.id = true
  nodes : ∀ a ∈ as, ∀ q, q <+: a.path.reverse → (hook.at_ q).isSome = true

theorem describes (as : List (Setting A I V)) : Describes as (annotate .empty as) := by
  induction as using List.reverseRecOn with
  | nil =>
    constructor
    · intro q list id v hq hmem
      unfold annotate Hook.at_ Hook.empty at hq
      split at hq
      · cases hq
        cases hmem
      · cases hq
    · intro a ha
      cases ha
    · intro a ha
      cases ha
  | append_singleton as a ih =>
    have hstep : annotate .empty (as ++ [a]) = make (annotate .empty as) a.path a.write := by
      rw [annotate, List.foldl_append]
      rfl
    rw [hstep]
    constructor
    · intro q list id v hq hmem
      have hbefore : (id, v) ∈ ((annotate .empty as).at_ q).getD [] →
          ∃ a' ∈ as ++ [a], a'.id = id ∧ a'.path.reverse = q ∧ a'.value = v := by
        intro hmem
        cases hlist : (annotate .empty as).at_ q with
        | none => simp [hlist] at hmem
        | some list =>
          rw [hlist] at hmem
          obtain ⟨a', ha', h⟩ := ih.sound q list id v hlist hmem
          exact ⟨a', List.mem_append_left _ ha', h⟩
      rw [at_make] at hq
      split at hq
      case isTrue heq =>
        cases hq
        obtain hnew | hold := mem_write hmem
        · cases hnew
          exact ⟨a, List.mem_append_right _ List.mem_cons_self, rfl, heq.symm, rfl⟩
        · exact hbefore hold
      case isFalse =>
        split at hq
        case isTrue =>
          cases hq
          exact hbefore hmem
        case isFalse => exact hbefore (by rw [hq]; exact hmem)
    · intro a' ha'
      rw [at_make]
      obtain ha' | ha' := List.mem_append.mp ha'
      · obtain ⟨list, hlist, hprop⟩ := ih.complete a' ha'
        rw [hlist]
        split
        · exact ⟨_, rfl, hasProp_write hprop⟩
        · split
          · exact ⟨list, rfl, hprop⟩
          · exact ⟨list, rfl, hprop⟩
      · obtain rfl := List.mem_singleton.mp ha'
        rw [if_pos rfl]
        refine ⟨_, rfl, ?_⟩
        rw [PropList.hasProp, getProp_write]
        rfl
    · intro a' ha' q hq
      rw [at_make]
      split
      · rfl
      · split
        · rfl
        case isFalse hprefix =>
          obtain ha' | ha' := List.mem_append.mp ha'
          · exact ih.nodes a' ha' q hq
          · obtain rfl := List.mem_singleton.mp ha'
            exact absurd hq hprefix

/-! ### Lookups -/

omit [DecidableEq I] in
/-- The lists of the descent are those at the prefixes of the walk. -/
theorem mem_descent {props : PropList I V} (stack : List (PropList I V)) (l : List (ContextualStep A))
    (t : Trie (ContextualStep A) (PropList I V)) :
    props ∈ (l.foldl (fun (at_ : Trie (ContextualStep A) (PropList I V) × List (PropList I V)) step =>
      match at_.1.child step with
      | some cur => (cur, cur.label :: at_.2)
      | none => at_) (t, stack)).2 ↔
      props ∈ stack ∨ ∃ q ≠ [], q <+: t.walk l ∧ t.get q = some props := by
  induction l generalizing t stack with
  | nil =>
    constructor
    · exact .inl
    · rintro (h | ⟨q, hne, hq, -⟩)
      · exact h
      · exact absurd (List.prefix_nil.mp hq) hne
  | cons step l ih =>
    rw [List.foldl_cons]
    cases hchild : t.child step with
    | none =>
      rw [ih, Trie.walk, hchild]
    | some cur =>
      rw [ih, List.mem_cons, Trie.walk, hchild, or_assoc, or_left_comm]
      refine or_congr_right ?_
      constructor
      · rintro (rfl | ⟨q, -, hq, hget⟩)
        · exact ⟨[step], List.cons_ne_nil _ _, by simp, by simp [Trie.get, hchild]⟩
        · exact ⟨step :: q, List.cons_ne_nil _ _, by simpa using hq, by simpa [Trie.get, hchild] using hget⟩
      · rintro ⟨q, hne, hq, hget⟩
        obtain ⟨step', q, rfl⟩ := List.exists_cons_of_ne_nil hne
        obtain ⟨rfl, hrest⟩ := List.cons_prefix_cons.mp hq
        rw [Trie.get, hchild, Option.bind_some] at hget
        cases q with
        | nil =>
          rw [Trie.get, Option.some.injEq] at hget
          exact .inl hget.symm
        | cons step q => exact .inr ⟨step :: q, List.cons_ne_nil _ _, hrest, hget⟩

/-- The lookup gives a list of the walk, and one that has a property of the identifier if there is one. -/
theorem find_spec (hook : Hook A I V) (path : ContextualPath A) (id : I) :
    (∃ q, q <+: hook.walk path ∧ hook.at_ q = some (find hook path id)) ∧
    ∀ q list, q <+: hook.walk path → hook.at_ q = some list → list.hasProp id = true →
      (find hook path id).hasProp id = true := by
  unfold find Hook.walk Hook.at_
  cases hook.context with
  | none =>
    refine ⟨⟨[], List.nil_prefix, rfl⟩, fun q list hq hlist hprop => ?_⟩
    split at hlist
    · cases hlist
      exact hprop
    · cases hlist
  | some cprop =>
    simp only [Option.getD_some, Option.bind_some]
    have hmem := fun props => @mem_descent A I V _ props [hook.props] path.reverse cprop
    have hplace : ∀ props, (∃ q, q <+: cprop.walk path.reverse ∧
        (if q = [] then some hook.props else cprop.get q) = some props) ↔
        props ∈ [hook.props] ∨ ∃ q ≠ [], q <+: cprop.walk path.reverse ∧ cprop.get q = some props := by
      intro props
      constructor
      · rintro ⟨q, hq, hprops⟩
        split at hprops
        case isTrue =>
          cases hprops
          exact .inl (List.mem_singleton_self _)
        case isFalse hne => exact .inr ⟨q, hne, hq, hprops⟩
      · rintro (h | ⟨q, hne, hq, hprops⟩)
        · obtain rfl := List.mem_singleton.mp h
          exact ⟨[], List.nil_prefix, rfl⟩
        · exact ⟨q, hq, by rw [if_neg hne]; exact hprops⟩
    unfold findProps
    simp only
    generalize List.foldl _ _ _ = found at hmem
    constructor
    · rw [hplace, ← hmem]
      cases hfound : found.2.find? fun list => list.hasProp id with
      | some list => exact List.mem_of_find?_eq_some hfound
      | none => exact (hmem _).mpr (.inl (List.mem_singleton_self _))
    · intro q list hq hlist hprop
      have hin := (hmem list).mpr ((hplace list).mp ⟨q, hq, hlist⟩)
      cases hfound : found.2.find? fun list => list.hasProp id with
      | some list =>
        have hprop' := List.find?_some hfound
        exact hprop'
      | none => exact absurd hprop (List.find?_eq_none.mp hfound list hin)

theorem hasProp_iff : list.hasProp id = true ↔ ∃ v, list.getProp id = some v :=
  Option.isSome_iff_exists

/-- The value that is found was made for a path that matches. -/
theorem value_of_find (h : (find (annotate .empty as) path id).getProp id = some v) :
    ∃ a ∈ as, a.id = id ∧ a.path.reverse <+: (annotate .empty as : Hook A I V).walk path ∧ a.value = v := by
  obtain ⟨⟨q, hq, hlist⟩, -⟩ := find_spec (annotate .empty as) path id
  obtain ⟨a, ha, hid, rfl, hvalue⟩ := (describes as).sound q _ id v hlist (mem_of_getProp h)
  exact ⟨a, ha, hid, hq, hvalue⟩

/-- What the lookup finds. -/
theorem found_iff : (find (annotate .empty as) path id).hasProp id = true ↔
    ∃ a ∈ as, a.id = id ∧ a.path.reverse <+: (annotate .empty as : Hook A I V).walk path := by
  constructor
  · intro h
    obtain ⟨v, hv⟩ := hasProp_iff.mp h
    obtain ⟨a, ha, hid, hwalk, -⟩ := value_of_find hv
    exact ⟨a, ha, hid, hwalk⟩
  · rintro ⟨a, ha, rfl, hwalk⟩
    obtain ⟨list, hlist, hprop⟩ := (describes as).complete a ha
    exact (find_spec (annotate .empty as) path a.id).2 _ list hwalk hlist hprop

omit [DecidableEq I] in
theorem sublist_of_prefix (h : a.path.reverse <+: hook.walk path) : a.path.Sublist path :=
  List.reverse_sublist.mp (h.sublist.trans Trie.walk_sublist)

/-- The lookup takes the steps of a path that ends the current one. -/
theorem prefix_of_suffix (ha : a ∈ as) (hsuffix : q <+: a.path.reverse) (hpath : q <+: path.reverse) :
    q <+: (annotate .empty as : Hook A I V).walk path := by
  have hnode := (describes as).nodes a ha q hsuffix
  by_cases hq : q = []
  · subst hq
    exact List.nil_prefix
  · unfold Hook.at_ at hnode
    rw [if_neg hq] at hnode
    unfold Hook.walk
    cases hcontext : (annotate .empty as : Hook A I V).context with
    | none => simp [hcontext] at hnode
    | some cprop =>
      rw [hcontext] at hnode
      exact Trie.prefix_walk hnode hpath

/-- When a lookup agrees with the documentation: no annotation of the identifier matches the path, or one of them is
for a path that the current one ends with. For the annotations that are made it is enough that the lookup takes the
steps of one. -/
theorem lookup_agrees_iff (as : List (Setting A I V)) (path : ContextualPath A) (id : I) :
    (Agrees as path id ↔ (∀ a ∈ as, a.id = id → ¬ a.path.Sublist path) ∨ ∃ a ∈ as, a.id = id ∧ a.path <:+ path) ∧
    (((find (annotate .empty as) path id).hasProp id = true ↔ ∃ a ∈ as, a.id = id ∧ a.path.Sublist path) ↔
      (∀ a ∈ as, a.id = id → ¬ a.path.Sublist path) ∨
        ∃ a ∈ as, a.id = id ∧ a.path.reverse <+: (annotate .empty as : Hook A I V).walk path) := by
  have hsome : ∀ as : List (Setting A I V), (∃ a ∈ as, a.id = id ∧ a.path <:+ path) →
      (find (annotate .empty as) path id).hasProp id = true := by
    rintro as ⟨a, ha, hid, hsuffix⟩
    exact found_iff.mpr ⟨a, ha, hid, prefix_of_suffix ha List.prefix_rfl (List.reverse_prefix.mpr hsuffix)⟩
  have hmatch : (find (annotate .empty as) path id).hasProp id = true →
      ∃ a ∈ as, a.id = id ∧ a.path.Sublist path := by
    intro h
    obtain ⟨a, ha, hid, hwalk⟩ := found_iff.mp h
    exact ⟨a, ha, hid, sublist_of_prefix hwalk⟩
  have hvalue : ∀ v, (find (annotate .empty as) path id).getProp id = some v →
      ∃ a ∈ as, a.id = id ∧ a.path.Sublist path ∧ a.value = v := by
    intro v hv
    obtain ⟨a, ha, hid, hwalk, hvalue⟩ := value_of_find hv
    exact ⟨a, ha, hid, sublist_of_prefix hwalk, hvalue⟩
  constructor
  · constructor
    · intro h
      by_contra hno
      obtain ⟨hmatching, hnone⟩ := not_or.mp hno
      push Not at hmatching
      obtain ⟨a, ha, hid, hsub⟩ := hmatching
      obtain ⟨step, rest, hpath⟩ : ∃ step rest, a.path = step :: rest := by
        refine List.exists_cons_of_ne_nil fun hempty => hnone ⟨a, ha, hid, ?_⟩
        rw [hempty]
        exact List.nil_suffix
      -- an annotation for a longer path makes the lookup take all steps of the current one
      have hlonger : ¬ (step :: path).Sublist path := fun hlong => by
        have hlength := hlong.length_le
        rw [List.length_cons] at hlength
        omega
      have hkept := h.kept [⟨step :: path, id, a.value, true⟩]
        (fun b hb => .inr (by rw [List.mem_singleton.mp hb]; exact hlonger)) (h.found.mpr ⟨a, ha, hid, hsub⟩)
      obtain ⟨a', ha', hid', hwalk⟩ := found_iff.mp hkept
      have hall := @prefix_of_suffix A I V _ _ (as ++ [⟨step :: path, id, a.value, true⟩])
        ⟨step :: path, id, a.value, true⟩ path path.reverse (List.mem_append_right _ List.mem_cons_self)
        ⟨[step], List.reverse_cons.symm⟩ List.prefix_rfl
      have hwhole : (annotate .empty (as ++ [⟨step :: path, id, a.value, true⟩]) : Hook A I V).walk path =
          path.reverse :=
        (hall.eq_of_length_le Trie.walk_sublist.length_le).symm
      rw [hwhole, List.reverse_prefix] at hwalk
      obtain hin | hin := List.mem_append.mp ha'
      · exact hnone ⟨a', hin, hid', hwalk⟩
      · rw [List.mem_singleton.mp hin] at hwalk
        exact hlonger hwalk.sublist
    · rintro (hnone | hsuffix)
      · have hnot : ¬ (find (annotate .empty as) path id).hasProp id = true := by
          intro h
          obtain ⟨a, ha, hid, hsub⟩ := hmatch h
          exact hnone a ha hid hsub
        exact ⟨⟨hmatch, fun ⟨a, ha, hid, hsub⟩ => absurd hsub (hnone a ha hid)⟩, hvalue,
          fun _ _ h => absurd h hnot⟩
      · refine ⟨⟨hmatch, fun _ => hsome as hsuffix⟩, hvalue, fun bs _ _ => ?_⟩
        obtain ⟨a, ha, hid, hend⟩ := hsuffix
        exact hsome (as ++ bs) ⟨a, List.mem_append_left _ ha, hid, hend⟩
  · rw [found_iff]
    constructor
    · intro h
      by_cases hmatching : ∃ a ∈ as, a.id = id ∧ a.path.Sublist path
      · exact .inr (h.mpr hmatching)
      · exact .inl fun a ha hid hsub => hmatching ⟨a, ha, hid, hsub⟩
    · rintro (hnone | htaken)
      · constructor
        · exact fun h => hmatch (found_iff.mpr h)
        · rintro ⟨a, ha, hid, hsub⟩
          exact absurd hsub (hnone a ha hid)
      · exact ⟨fun h => hmatch (found_iff.mpr h), fun _ => htaken⟩

/-- A bound for the function 1 is hidden by another property for the function 2, which is called from 1. -/
theorem other_branch_hides :
    ¬ Agrees (A := Nat) (I := Nat) (V := Nat)
      [⟨[⟨.function, 1⟩], 0, 10, true⟩, ⟨[⟨.function, 2⟩], 1, 5, true⟩]
      [⟨.function, 1⟩, ⟨.function, 2⟩] 0 := by
  intro h
  have hfound := h.found.mpr ⟨_, List.mem_cons_self, rfl, by decide⟩
  revert hfound
  decide

end Otawa
