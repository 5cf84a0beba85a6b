import Otawa.Proc.ContextualProcessor
import Mathlib.Algebra.Order.BigOperators.Group.List
import Mathlib.Algebra.Order.Group.Nat
import Mathlib.Algebra.Ring.Nat

/-!
# The call path of a contextual processor

In a CFG whose calls are nested, and as long as the block that a call returns to was not processed before, the calls that are
entered and not left are the ones that the processed block is inlined in (`Invariant.right`), and no block is processed twice.
-/

namespace Otawa.ContextualProcessor

variable {F B E A : Type} [DecidableEq B] {g : VirtualCFG F B E}

/-! ### Nested calls -/

def Passes (g : VirtualCFG F B E) (e : E) : Prop := g.cfg.kind e = .taken ∨ g.cfg.kind e = .notTaken

/-- The edge is a call, and not back to a function that is on the path. -/
def Calls (g : VirtualCFG F B E) (e : E) : Prop := g.cfg.kind e = .virtualCall ∧ g.recursiveLoop e = false

/-- The inlined calls that contain a block, the innermost one first. -/
inductive Within (g : VirtualCFG F B E) : B → List E → Prop where
  | entry : Within g g.cfg.entry []
  | pass {b : B} {l : List E} {e : E} : Within g b l → e ∈ g.cfg.outs b → Passes g e → Within g (g.cfg.target e) l
  | call {b : B} {l : List E} {e : E} : Within g b l → e ∈ g.cfg.outs b → Calls g e → Within g (g.cfg.target e) (e :: l)
  | back {b : B} {l : List E} {e : E} : Within g b l → e ∈ g.cfg.outs b → Calls g e → Within g (returnBlock g b) l

/-- The shape of a CFG whose calls are inlined, where the calls that contain a block are `chain`. A call comes back into the
function that makes it, only the call of the entry comes back to the exit, and no block without input edge is returned to. -/
structure Nested (g : VirtualCFG F B E) (chain : B → List E) : Prop where
  entry : chain g.cfg.entry = []
  source : ∀ b, ∀ e ∈ g.cfg.outs b, g.cfg.source e = b
  ins : ∀ b, ∀ e ∈ g.cfg.ins b, g.cfg.target e = b
  kinds : ∀ b, ∀ e ∈ g.cfg.outs b, Passes g e ∨ g.cfg.kind e = .virtualCall ∨ g.cfg.kind e = .call ∨
    g.cfg.kind e = .virtualReturn
  pass : ∀ b, ∀ e ∈ g.cfg.outs b, Passes g e → chain (g.cfg.target e) = chain b
  call : ∀ b, ∀ e ∈ g.cfg.outs b, Calls g e → chain (g.cfg.target e) = e :: chain b
  recursive : ∀ b, ∀ e ∈ g.cfg.outs b, g.cfg.kind e = .virtualCall → g.recursiveLoop e = true →
    ∃ e' ∈ chain b, g.cfg.target e' = g.cfg.target e
  back : ∀ b, ∀ e ∈ g.cfg.outs b, Calls g e → chain (returnBlock g b) = chain b
  connected : ∀ b ∈ g.cfg.bbs, ∀ e ∈ g.cfg.outs b, Calls g e → g.cfg.ins (returnBlock g b) ≠ []
  back_exit : ∀ b ∈ g.cfg.bbs, ∀ e ∈ g.cfg.outs b, Calls g e → (returnBlock g b = g.cfg.exit ↔ b = g.cfg.entry)
  mem : ∀ b ∈ g.cfg.bbs, ∀ e ∈ g.cfg.outs b, Passes g e ∨ Calls g e →
    g.cfg.target e ∈ g.cfg.bbs ∧ g.cfg.target e ≠ g.cfg.entry
  back_mem : ∀ b ∈ g.cfg.bbs, ∀ e ∈ g.cfg.outs b, Calls g e →
    returnBlock g b ∈ g.cfg.bbs ∧ returnBlock g b ≠ g.cfg.entry
  entry_mem : g.cfg.entry ∈ g.cfg.bbs

variable {chain : B → List E} {b : B} {l l' : List E} {e : E}

section

variable (hg : Nested g chain) (h : Within g b l)
include hg h

omit [DecidableEq B]

theorem Within.eq_chain : l = chain b := by
  induction h with
  | entry => exact hg.entry.symm
  | pass _ he hpass ih => rw [ih, hg.pass _ _ he hpass]
  | call _ he hcall ih => rw [ih, hg.call _ _ he hcall]
  | back _ he hcall ih => rw [ih, hg.back _ _ he hcall]

theorem Within.unique (h' : Within g b l') : l = l' :=
  (h.eq_chain hg).trans (h'.eq_chain hg).symm

theorem Within.mem : b ∈ g.cfg.bbs := by
  induction h with
  | entry => exact hg.entry_mem
  | pass _ he hpass ih => exact (hg.mem _ ih _ he (.inl hpass)).1
  | call _ he hcall ih => exact (hg.mem _ ih _ he (.inr hcall)).1
  | back _ he hcall ih => exact (hg.back_mem _ ih _ he hcall).1

end

/-! ### The turns -/

variable {s s' : State F B E}

/-- What a turn can do, in a CFG without other kinds of edges. -/
inductive Turn (g : VirtualCFG F B E) (s : State F B E) : State F B E → Prop where
  | skip {e : E} {todo : List (Option E)} : s.todo = some e :: todo → g.cfg.kind e ≠ .virtualCall →
      (Passes g e → s.mark (g.cfg.target e) ≠ none) → Turn g s { s with todo }
  | pass {e : E} {todo : List (Option E)} : s.todo = some e :: todo → Passes g e → s.mark (g.cfg.target e) = none →
      Turn g s (processBlock g { s with todo } (g.cfg.target e))
  | avoid {e : E} {todo : List (Option E)} : s.todo = some e :: todo → g.cfg.kind e = .virtualCall →
      s.mark (g.cfg.target e) ≠ none → Turn g s { s with todo, events := s.events ++ [.avoidingRecursive e] }
  | enter {e back : E} {todo : List (Option E)} {f : F} : s.todo = some e :: todo → Calls g e →
      s.mark (g.cfg.target e) = none → back ∈ g.cfg.ins (returnBlock g (g.cfg.source e)) →
      Turn g s (processBlock g ⟨none :: todo, (f, some back) :: s.calls, s.mark, s.events ++ [.enteringCall e]⟩
        (g.cfg.target e))
  | leave {back : E} {todo : List (Option E)} {f : F} {calls : List (F × Option E)} : s.todo = none :: todo →
      s.calls = (f, some back) :: calls →
      Turn g s (processBlock g ⟨todo, calls, s.mark, s.events ++ [.leavingCall back]⟩ (g.cfg.target back))

/-- The stacks: an edge on the stack is out of a block that the pending calls contain, and below a null edge is what was on the
stack when the call was entered. -/
inductive Aligned (g : VirtualCFG F B E) : List (Option E) → List (F × Option E) → List E → Prop where
  | nil (f : F) : Aligned g [] [(f, none)] []
  | edge {e : E} {todo : List (Option E)} {calls : List (F × Option E)} {l : List E} : e ∈ g.cfg.outs (g.cfg.source e) →
      Within g (g.cfg.source e) l → Aligned g todo calls l → Aligned g (some e :: todo) calls l
  | leave {e back : E} {f : F} {todo : List (Option E)} {calls : List (F × Option E)} {l : List E} :
      e ∈ g.cfg.outs (g.cfg.source e) → Calls g e → g.cfg.target back = returnBlock g (g.cfg.source e) →
      Within g (g.cfg.source e) l → Aligned g todo calls l → Aligned g (none :: todo) ((f, some back) :: calls) (e :: l)

/-- What a call puts on the path. -/
def steps (g : VirtualCFG F B E) (address callAddress : B → A) (e : E) : ContextualPath A :=
  (if g.cfg.source e = g.cfg.entry then [] else [⟨.call, callAddress (g.cfg.source e)⟩]) ++
    [⟨.function, address (g.cfg.target e)⟩]

/-- The path of some calls. -/
def context (g : VirtualCFG F B E) (address callAddress : B → A) (l : List E) : ContextualPath A :=
  l.reverse.flatMap (steps g address callAddress)

structure Invariant (g : VirtualCFG F B E) (address callAddress : B → A) (s : State F B E) : Prop where
  aligned : Aligned g s.todo s.calls (pending s.events)
  marked : ∀ b, s.mark b ≠ none ↔ b ∈ processed s.events
  nodup : (processed s.events).Nodup
  right : ∀ before b after, s.events = before ++ .processBB b :: after → Within g b (pending before)
  fresh : g.cfg.entry ∉ processed s.events
  entered : ∀ e, .enteringCall e ∈ s.events → g.cfg.target e ∈ processed s.events ∧
    (e ∈ pending s.events ∨ returnBlock g (g.cfg.source e) ∈ processed s.events)
  seen : ∀ b, b = g.cfg.entry ∨ b ∈ processed s.events → ∀ e ∈ g.cfg.outs b, Passes g e ∨ Calls g e →
    some e ∈ s.todo ∨ g.cfg.target e ∈ processed s.events
  path : FlowFactLoader.path g address callAddress s.events = some (context g address callAddress (pending s.events))

/-! ### The methods called so far -/

section

variable (events : List (Event B E)) (e : E) (b : B)

section

omit [DecidableEq B]

theorem pending_entering : pending (events ++ [.enteringCall e]) = e :: pending events := by
  unfold pending
  rw [List.foldl_append]
  rfl

theorem pending_leaving : pending (events ++ [.leavingCall e]) = (pending events).tail := by
  unfold pending
  rw [List.foldl_append]
  rfl

theorem pending_avoiding : pending (events ++ [.avoidingRecursive e]) = pending events := by
  unfold pending
  rw [List.foldl_append]
  rfl

theorem pending_processBB : pending (events ++ [.processBB b]) = pending events := by
  unfold pending
  rw [List.foldl_append]
  rfl

theorem processed_append (l : List (Event B E)) : processed (events ++ l) = processed events ++ processed l :=
  List.filterMap_append

end

variable (g) (address callAddress : B → A)

theorem path_append (event : Event B E) : FlowFactLoader.path g address callAddress (events ++ [event]) =
    (FlowFactLoader.path g address callAddress events).bind fun path =>
      match event with
      | .enteringCall edge =>
        some (FlowFactLoader.enteringCall g address callAddress path (g.cfg.source edge) (g.cfg.target edge))
      | .leavingCall edge => FlowFactLoader.leavingCall g path (g.cfg.target edge)
      | _ => some path := by
  unfold FlowFactLoader.path
  rw [List.foldlM_append]
  cases List.foldlM (fun path event => match event with
    | .enteringCall edge =>
      some (FlowFactLoader.enteringCall g address callAddress path (g.cfg.source edge) (g.cfg.target edge))
    | .leavingCall edge => FlowFactLoader.leavingCall g path (g.cfg.target edge)
    | _ => some path) [] events with
  | none => rfl
  | some path =>
    rw [Option.bind_some]
    exact bind_pure (m := Option) _

end

variable {events : List (Event B E)} {address callAddress : B → A}

section

omit [DecidableEq B]

theorem mem_pending (h : e ∈ pending events) : .enteringCall e ∈ events := by
  induction events using List.reverseRecOn with
  | nil => cases h
  | append_singleton events event ih =>
    apply List.mem_append.mpr
    cases event with
    | enteringCall edge =>
      rw [pending_entering] at h
      rcases List.mem_cons.mp h with rfl | h
      · exact .inr (List.mem_singleton_self _)
      · exact .inl (ih h)
    | leavingCall edge =>
      rw [pending_leaving] at h
      exact .inl (ih (List.mem_of_mem_tail h))
    | avoidingRecursive edge =>
      rw [pending_avoiding] at h
      exact .inl (ih h)
    | processBB bb =>
      rw [pending_processBB] at h
      exact .inl (ih h)

theorem mem_processed : b ∈ processed events ↔ .processBB b ∈ events := by
  unfold processed
  rw [List.mem_filterMap]
  constructor
  · rintro ⟨event, hmem, h⟩
    cases event <;> cases h
    exact hmem
  · intro h
    exact ⟨_, h, rfl⟩

theorem right_append {event : Event B E}
    (hright : ∀ before b after, events = before ++ .processBB b :: after → Within g b (pending before))
    (hevent : ∀ b, event = .processBB b → Within g b (pending events)) (before : List (Event B E)) (b : B)
    (after : List (Event B E)) (h : events ++ [event] = before ++ .processBB b :: after) :
    Within g b (pending before) := by
  rcases List.eq_nil_or_concat after with rfl | ⟨after, last, rfl⟩
  · obtain ⟨rfl, hlast⟩ := List.append_inj' h rfl
    exact hevent b (List.cons.inj hlast).1
  · rw [List.concat_eq_append, ← List.cons_append, ← List.append_assoc] at h
    exact hright before b after (List.append_inj' h rfl).1

end

theorem context_cons (e : E) (l : List E) :
    context g address callAddress (e :: l) = context g address callAddress l ++ steps g address callAddress e := by
  unfold context
  rw [List.reverse_cons, List.flatMap_append, List.flatMap_singleton]

theorem pop_append (path : ContextualPath A) (step : ContextualStep A) :
    FlowFactLoader.pop (path ++ [step]) = some path := by
  unfold FlowFactLoader.pop
  rw [if_neg (List.append_ne_nil_of_right_ne_nil _ (List.cons_ne_nil _ _)), List.dropLast_concat]

theorem path_enter (hpath : FlowFactLoader.path g address callAddress events = some (context g address callAddress l)) :
    FlowFactLoader.path g address callAddress (events ++ [.enteringCall e]) =
      some (context g address callAddress (e :: l)) := by
  rw [path_append, hpath, Option.bind_some, context_cons]
  dsimp only
  unfold FlowFactLoader.enteringCall steps
  split
  · rfl
  · rw [List.append_assoc]

theorem path_leave {back : E}
    (hpath : FlowFactLoader.path g address callAddress events = some (context g address callAddress (e :: l)))
    (hback : g.cfg.target back = g.cfg.exit ↔ g.cfg.source e = g.cfg.entry) :
    FlowFactLoader.path g address callAddress (events ++ [.leavingCall back]) =
      some (context g address callAddress l) := by
  rw [path_append, hpath, Option.bind_some, context_cons]
  dsimp only
  unfold FlowFactLoader.leavingCall steps
  rw [← List.append_assoc, pop_append]
  by_cases hentry : g.cfg.source e = g.cfg.entry
  · rw [if_pos hentry, List.append_nil]
    exact if_pos (hback.mpr hentry)
  · rw [if_neg hentry]
    exact (if_neg fun h => hentry (hback.mp h)).trans (pop_append _ _)

/-! ### A turn keeps the invariant -/

variable {todo : List (Option E)} {calls : List (F × Option E)}

omit [DecidableEq B] in
theorem Aligned.calls_ne_nil (h : Aligned g todo calls l) : calls ≠ [] := by
  induction h with
  | nil f => exact List.cons_ne_nil _ _
  | edge _ _ _ ih => exact ih
  | leave => exact List.cons_ne_nil _ _

omit [DecidableEq B] in
theorem Aligned.push (hg : Nested g chain) (hb : Within g b l) (h : Aligned g todo calls l) :
    Aligned g ((g.cfg.outs b).reverse.map some ++ todo) calls l := by
  have hedges : ∀ es : List E, (∀ e ∈ es, e ∈ g.cfg.outs b) → Aligned g (es.map some ++ todo) calls l := by
    intro es
    induction es with
    | nil => exact fun _ => h
    | cons e es ih =>
      intro hes
      obtain ⟨he, hes⟩ := List.forall_mem_cons.mp hes
      have hsource := hg.source b e he
      exact .edge (hsource.symm ▸ he) (hsource.symm ▸ hb) (ih hes)
  exact hedges _ fun e he => List.mem_reverse.mp he

/-- A block that was not processed before is processed, where what the invariant says of it is still open. -/
theorem Invariant.process {mark : B → Option F} (hg : Nested g chain) (haligned : Aligned g todo calls (pending events))
    (hmarked : ∀ b, mark b ≠ none ↔ b ∈ processed events) (hnodup : (processed events).Nodup)
    (hright : ∀ before b after, events = before ++ .processBB b :: after → Within g b (pending before))
    (hfresh : g.cfg.entry ∉ processed events) (hmark : mark b = none) (hb : Within g b (pending events))
    (hentry : b ≠ g.cfg.entry)
    (hentered : ∀ e, .enteringCall e ∈ events → (g.cfg.target e ∈ processed events ∨ g.cfg.target e = b) ∧
      (e ∈ pending events ∨ returnBlock g (g.cfg.source e) ∈ processed events ∨ returnBlock g (g.cfg.source e) = b))
    (hseen : ∀ b', b' = g.cfg.entry ∨ b' ∈ processed events → ∀ e ∈ g.cfg.outs b', Passes g e ∨ Calls g e →
      some e ∈ todo ∨ g.cfg.target e ∈ processed events ∨ g.cfg.target e = b)
    (hpath : FlowFactLoader.path g address callAddress events = some (context g address callAddress (pending events))) :
    Invariant g address callAddress (processBlock g ⟨todo, calls, mark, events⟩ b) := by
  have hprocessed : processed (events ++ [.processBB b]) = processed events ++ [b] := processed_append events _
  have hmem : ∀ b', b' ∈ processed (events ++ [.processBB b]) ↔ b' ∈ processed events ∨ b' = b := by
    intro b'
    rw [hprocessed, List.mem_append, List.mem_singleton]
  have hnew : b ∉ processed events := fun h => (hmarked b).mpr h hmark
  constructor
  case aligned =>
    change Aligned g _ calls (pending (events ++ [.processBB b]))
    rw [pending_processBB]
    exact haligned.push hg hb
  case marked =>
    intro b'
    change Function.update mark b (calls.head?.map Prod.fst) b' ≠ none ↔ b' ∈ processed (events ++ [.processBB b])
    rw [hmem]
    by_cases hb' : b' = b
    · subst hb'
      rw [Function.update_self]
      obtain ⟨call, calls', rfl⟩ := List.exists_cons_of_ne_nil haligned.calls_ne_nil
      exact ⟨fun _ => .inr rfl, fun _ => Option.some_ne_none _⟩
    · rw [Function.update_of_ne hb', hmarked]
      exact ⟨.inl, fun h => h.resolve_right hb'⟩
  case nodup =>
    change (processed (events ++ [.processBB b])).Nodup
    rw [hprocessed]
    exact List.nodup_append.mpr ⟨hnodup, List.nodup_singleton b, fun b' hb' c hc heq =>
      hnew (List.mem_singleton.mp hc ▸ heq ▸ hb')⟩
  case right =>
    apply right_append hright
    rintro b' ⟨⟩
    exact hb
  case fresh =>
    intro h
    rcases (hmem _).mp h with h | h
    · exact hfresh h
    · exact hentry h.symm
  case entered =>
    intro e he
    change _ ∈ events ++ [.processBB b] at he
    change _ ∈ processed (events ++ [.processBB b]) ∧ (_ ∈ pending (events ++ [.processBB b]) ∨
      _ ∈ processed (events ++ [.processBB b]))
    rw [hmem, hmem, pending_processBB]
    rcases List.mem_append.mp he with he | he
    · exact hentered e he
    · cases List.mem_singleton.mp he
  case seen =>
    intro b' hb' e he hkind
    change some e ∈ (g.cfg.outs b).reverse.map some ++ todo ∨ _ ∈ processed (events ++ [.processBB b])
    change _ ∨ b' ∈ processed (events ++ [.processBB b]) at hb'
    rw [hmem] at hb' ⊢
    rw [← or_assoc] at hb'
    rcases hb' with hb' | rfl
    · rcases hseen b' hb' e he hkind with htodo | hdone
      · exact .inl (List.mem_append_right _ htodo)
      · exact .inr hdone
    · exact .inl (List.mem_append_left _ (List.mem_map_of_mem (List.mem_reverse.mpr he)))
  case path =>
    change FlowFactLoader.path g address callAddress (events ++ [.processBB b]) =
      some (context g address callAddress (pending (events ++ [.processBB b])))
    rw [pending_processBB, path_append, hpath]
    rfl

/-- The block that a call returns to was not processed before. -/
def Fresh (g : VirtualCFG F B E) (s : State F B E) : Prop :=
  ∀ todo f back calls, s.todo = none :: todo → s.calls = (f, some back) :: calls → s.mark (g.cfg.target back) = none

/-- An edge that is taken off the stack is the only one that is not accounted for. -/
theorem Invariant.seen_pop (h : Invariant g address callAddress s) (htodo : s.todo = some e :: todo) (b : B)
    (hb : b = g.cfg.entry ∨ b ∈ processed s.events) (e' : E) (he' : e' ∈ g.cfg.outs b) (hkind : Passes g e' ∨ Calls g e') :
    some e' ∈ todo ∨ g.cfg.target e' ∈ processed s.events ∨ e' = e := by
  rcases h.seen b hb e' he' hkind with hmem | hdone
  · rw [htodo] at hmem
    rcases List.mem_cons.mp hmem with heq | hmem
    · exact .inr (.inr (Option.some.inj heq))
    · exact .inl hmem
  · exact .inr (.inl hdone)

omit [DecidableEq B] in
theorem processed_other {event : Event B E} (hevent : ∀ b, event ≠ .processBB b) :
    processed (events ++ [event]) = processed events := by
  rw [processed_append]
  cases event with
  | processBB b => exact absurd rfl (hevent b)
  | enteringCall | leavingCall | avoidingRecursive => exact List.append_nil _

/-- The edge on top of the stack is out of a block that the pending calls contain. -/
theorem Invariant.edge (h : Invariant g address callAddress s) (htodo : s.todo = some e :: todo) :
    e ∈ g.cfg.outs (g.cfg.source e) ∧ Within g (g.cfg.source e) (pending s.events) ∧
      Aligned g todo s.calls (pending s.events) := by
  have haligned := h.aligned
  rw [htodo] at haligned
  cases haligned with
  | edge he hwithin haligned => exact ⟨he, hwithin, haligned⟩

theorem Invariant.skip (h : Invariant g address callAddress s) (htodo : s.todo = some e :: todo)
    (hcall : g.cfg.kind e ≠ .virtualCall) (hpass : Passes g e → s.mark (g.cfg.target e) ≠ none) :
    Invariant g address callAddress { s with todo } := by
  obtain ⟨-, -, haligned⟩ := h.edge htodo
  refine ⟨haligned, h.marked, h.nodup, h.right, h.fresh, h.entered, fun b hb e' he' hkind => ?_, h.path⟩
  rcases h.seen_pop htodo b hb e' he' hkind with hmem | hdone | rfl
  · exact .inl hmem
  · exact .inr hdone
  · have hpasses : Passes g e' := hkind.resolve_right fun hcalls => hcall hcalls.1
    exact .inr ((h.marked _).mp (hpass hpasses))

theorem Invariant.pass (hg : Nested g chain) (h : Invariant g address callAddress s)
    (htodo : s.todo = some e :: todo) (hpass : Passes g e) (hmark : s.mark (g.cfg.target e) = none) :
    Invariant g address callAddress (processBlock g { s with todo } (g.cfg.target e)) := by
  obtain ⟨he, hwithin, haligned⟩ := h.edge htodo
  refine .process hg haligned h.marked h.nodup h.right h.fresh hmark (.pass hwithin he hpass)
    (hg.mem _ (hwithin.mem hg) e he (.inl hpass)).2 (fun e' he' => ?_) (fun b hb e' he' hkind => ?_) h.path
  · obtain ⟨htarget, hback⟩ := h.entered e' he'
    exact ⟨.inl htarget, hback.imp_right .inl⟩
  · rcases h.seen_pop htodo b hb e' he' hkind with hmem | hdone | rfl
    · exact .inl hmem
    · exact .inr (.inl hdone)
    · exact .inr (.inr rfl)

theorem Invariant.avoid (h : Invariant g address callAddress s) (htodo : s.todo = some e :: todo)
    (hmark : s.mark (g.cfg.target e) ≠ none) :
    Invariant g address callAddress { s with todo, events := s.events ++ [.avoidingRecursive e] } := by
  have hprocessed : processed (s.events ++ [.avoidingRecursive e]) = processed s.events :=
    processed_other (by rintro b ⟨⟩)
  obtain ⟨-, -, haligned⟩ := h.edge htodo
  constructor
  case aligned =>
    rw [pending_avoiding]
    exact haligned
  case marked =>
    rw [hprocessed]
    exact h.marked
  case nodup =>
    rw [hprocessed]
    exact h.nodup
  case right => exact right_append h.right (by rintro b ⟨⟩)
  case fresh =>
    rw [hprocessed]
    exact h.fresh
  case entered =>
    rw [hprocessed, pending_avoiding]
    intro e' he'
    rcases List.mem_append.mp he' with he' | he'
    · exact h.entered e' he'
    · cases List.mem_singleton.mp he'
  case seen =>
    rw [hprocessed]
    intro b hb e' he' hkind'
    rcases h.seen_pop htodo b hb e' he' hkind' with hmem | hdone | rfl
    · exact .inl hmem
    · exact .inr hdone
    · exact .inr ((h.marked _).mp hmark)
  case path =>
    rw [path_append, h.path, pending_avoiding]
    rfl

theorem Invariant.enter {back : E} {f : F} (hg : Nested g chain) (h : Invariant g address callAddress s)
    (htodo : s.todo = some e :: todo) (hcall : Calls g e) (hmark : s.mark (g.cfg.target e) = none)
    (hback : back ∈ g.cfg.ins (returnBlock g (g.cfg.source e))) : Invariant g address callAddress
      (processBlock g ⟨none :: todo, (f, some back) :: s.calls, s.mark, s.events ++ [.enteringCall e]⟩
        (g.cfg.target e)) := by
  have hprocessed : processed (s.events ++ [.enteringCall e]) = processed s.events :=
    processed_other (by rintro b ⟨⟩)
  have hpending := pending_entering s.events e
  obtain ⟨he, hwithin, haligned⟩ := h.edge htodo
  apply Invariant.process hg (hpending ▸ .leave he hcall (hg.ins _ back hback) hwithin haligned)
    (hprocessed ▸ h.marked) (hprocessed ▸ h.nodup) (right_append h.right (by rintro b ⟨⟩))
    (hprocessed ▸ h.fresh) hmark (hpending ▸ .call hwithin he hcall)
    (hg.mem _ (hwithin.mem hg) e he (.inr hcall)).2
  · rw [hprocessed, hpending]
    intro e' he'
    rcases List.mem_append.mp he' with he' | he'
    · obtain ⟨htarget, hback'⟩ := h.entered e' he'
      exact ⟨.inl htarget, hback'.imp (List.mem_cons_of_mem e) .inl⟩
    · cases List.mem_singleton.mp he'
      exact ⟨.inr rfl, .inl List.mem_cons_self⟩
  · rw [hprocessed]
    intro b hb e' he' hkind
    rcases h.seen_pop htodo b hb e' he' hkind with hmem | hdone | rfl
    · exact .inl (List.mem_cons_of_mem none hmem)
    · exact .inr (.inl hdone)
    · exact .inr (.inr rfl)
  · rw [hpending]
    exact path_enter h.path

/-- The null edge on top of the stack belongs to the last call that was entered, and its return is processed now. -/
theorem Invariant.leave {back : E} {f : F} (hg : Nested g chain) (h : Invariant g address callAddress s)
    (htodo : s.todo = none :: todo) (hcalls : s.calls = (f, some back) :: calls)
    (hmark : s.mark (g.cfg.target back) = none) : Invariant g address callAddress
      (processBlock g ⟨todo, calls, s.mark, s.events ++ [.leavingCall back]⟩ (g.cfg.target back)) := by
  have haligned := h.aligned
  have hprocessed : processed (s.events ++ [.leavingCall back]) = processed s.events :=
    processed_other (by rintro b ⟨⟩)
  have hpending := pending_leaving s.events back
  have hpath := h.path
  have hentered := h.entered
  rw [htodo, hcalls] at haligned
  generalize pending s.events = l at haligned hpending hpath hentered
  cases haligned with
  | leave he hcall htarget hwithin haligned =>
    rename_i e l
    rw [List.tail_cons] at hpending
    rw [htarget] at hmark ⊢
    have hback : g.cfg.target back = g.cfg.exit ↔ g.cfg.source e = g.cfg.entry := by
      rw [htarget]
      exact hg.back_exit _ (hwithin.mem hg) e he hcall
    apply Invariant.process hg (hpending ▸ haligned) (hprocessed ▸ h.marked) (hprocessed ▸ h.nodup)
      (right_append h.right (by rintro b ⟨⟩)) (hprocessed ▸ h.fresh) hmark
      (hpending ▸ .back hwithin he hcall) (hg.back_mem _ (hwithin.mem hg) e he hcall).2
    · rw [hprocessed, hpending]
      intro e' he'
      rcases List.mem_append.mp he' with he' | he'
      · obtain ⟨htarget', hback' | hback'⟩ := hentered e' he'
        · rcases List.mem_cons.mp hback' with rfl | hback'
          · exact ⟨.inl htarget', .inr (.inr rfl)⟩
          · exact ⟨.inl htarget', .inl hback'⟩
        · exact ⟨.inl htarget', .inr (.inl hback')⟩
      · cases List.mem_singleton.mp he'
    · rw [hprocessed]
      intro b hb e' he' hkind
      rcases h.seen b hb e' he' hkind with hmem | hdone
      · rw [htodo] at hmem
        rcases List.mem_cons.mp hmem with heq | hmem
        · cases heq
        · exact .inl hmem
      · exact .inr (.inl hdone)
    · rw [hpending]
      exact path_leave hpath hback

theorem Invariant.turn (hg : Nested g chain) (h : Invariant g address callAddress s) (hfresh : Fresh g s)
    (hturn : Turn g s s') : Invariant g address callAddress s' := by
  cases hturn with
  | skip htodo hcall hpass => exact h.skip htodo hcall hpass
  | pass htodo hpass hmark => exact h.pass hg htodo hpass hmark
  | avoid htodo _ hmark => exact h.avoid htodo hmark
  | enter htodo hcall hmark hback => exact h.enter hg htodo hcall hmark hback
  | leave htodo hcalls => exact h.leave hg htodo hcalls (hfresh _ _ _ _ htodo hcalls)

/-! ### The traversal -/

theorem Invariant.initial (hg : Nested g chain) (address callAddress : B → A) :
    Invariant g address callAddress (initial g) := by
  constructor
  case aligned =>
    have haligned := (Aligned.nil g.label).push hg .entry
    rwa [List.append_nil] at haligned
  case marked => exact fun b => ⟨fun h => absurd rfl h, fun h => nomatch h⟩
  case nodup => exact List.nodup_nil
  case right =>
    intro before b after h
    exact absurd h.symm (List.append_ne_nil_of_right_ne_nil _ (List.cons_ne_nil _ _))
  case fresh => exact List.not_mem_nil
  case entered => exact fun e he => nomatch he
  case seen =>
    rintro b (rfl | hb) e he -
    · exact .inl (List.mem_map_of_mem (List.mem_reverse.mpr he))
    · cases hb
  case path => rfl

/-- A turn does not fail: a call that goes back into the path has a marked target. -/
theorem turn_ok (hg : Nested g chain) (h : Invariant g address callAddress s) (htodo : s.todo ≠ []) :
    ∃ s', turn g s = .ok s' ∧ Turn g s s' := by
  have haligned := h.aligned
  obtain ⟨head, todo, hcons⟩ := List.exists_cons_of_ne_nil htodo
  rw [hcons] at haligned
  cases head with
  | none =>
    generalize hcalls : s.calls = calls, pending s.events = l at haligned
    cases haligned with
    | leave he hcall htarget hwithin haligned =>
      refine ⟨_, ?_, .leave hcons hcalls⟩
      unfold turn leaveFunction
      rw [hcons]
      dsimp only
      rw [hcalls]
  | some e =>
    cases haligned with
    | edge he hwithin haligned =>
      unfold turn processEdge
      rw [hcons]
      dsimp only
      rcases hg.kinds _ e he with hpass | hkind | hkind | hkind
      · by_cases hmark : s.mark (g.cfg.target e) = none
        · refine ⟨_, ?_, .pass hcons hpass hmark⟩
          rcases hpass with hkind | hkind <;> rw [hkind] <;> dsimp only <;> rw [hmark] <;> rfl
        · refine ⟨_, ?_, .skip hcons (fun hkind => ?_) fun _ => hmark⟩
          · have hsome := Option.isSome_iff_ne_none.mpr hmark
            rcases hpass with hkind | hkind <;> rw [hkind] <;> dsimp only <;> rw [hsome] <;> rfl
          · rcases hpass with hpass | hpass <;> rw [hkind] at hpass <;> cases hpass
      · rw [hkind]
        dsimp only
        unfold virtualCall
        dsimp only
        by_cases hmark : s.mark (g.cfg.target e) = none
        · have hcall : Calls g e := by
            refine ⟨hkind, Bool.eq_false_iff.mpr fun hrec => ?_⟩
            obtain ⟨e', he', htarget⟩ := hg.recursive _ e he hkind hrec
            rw [← hwithin.eq_chain hg] at he'
            have hdone := (h.entered e' (mem_pending he')).1
            exact (h.marked _).mpr (htarget ▸ hdone) hmark
          obtain ⟨back, rest, hins⟩ := List.exists_cons_of_ne_nil (hg.connected _ (hwithin.mem hg) e he hcall)
          have hback : back ∈ g.cfg.ins (returnBlock g (g.cfg.source e)) := by
            rw [hins]
            exact List.mem_cons_self
          refine ⟨_, ?_, .enter (f := (g.calledCFG e).getD g.label) hcons hcall hmark hback⟩
          unfold simpleCall
          rw [hmark, hins]
          rfl
        · refine ⟨_, ?_, .avoid hcons hkind hmark⟩
          rw [Option.isSome_iff_ne_none.mpr hmark]
          rfl
      · refine ⟨_, ?_, .skip hcons (by rw [hkind]; exact EdgeKind.noConfusion) fun hpass => ?_⟩
        · rw [hkind]
        · rcases hpass with hpass | hpass <;> rw [hkind] at hpass <;> cases hpass
      · refine ⟨_, ?_, .skip hcons (by rw [hkind]; exact EdgeKind.noConfusion) fun hpass => ?_⟩
        · rw [hkind]
        · rcases hpass with hpass | hpass <;> rw [hkind] at hpass <;> cases hpass

/-- What is still to do: the blocks without mark with their edges, and the stack. -/
def weight (g : VirtualCFG F B E) (s : State F B E) : ℕ :=
  (g.cfg.bbs.map fun b => if (s.mark b).isSome then 0 else (g.cfg.outs b).length + 2).sum + s.todo.length

theorem sum_update_le (w : B → ℕ) {mark : B → Option F} (f : F) (b : B) (bbs : List B) :
    (bbs.map fun c => if (Function.update mark b (some f) c).isSome then 0 else w c).sum ≤
      (bbs.map fun c => if (mark c).isSome then 0 else w c).sum := by
  refine List.sum_le_sum fun c _ => ?_
  by_cases hc : c = b
  · subst hc
    rw [Function.update_self]
    exact Nat.zero_le _
  · rw [Function.update_of_ne hc]

theorem sum_update {w : B → ℕ} {mark : B → Option F} (f : F) {bbs : List B} (hb : b ∈ bbs) (hmark : mark b = none) :
    (bbs.map fun c => if (Function.update mark b (some f) c).isSome then 0 else w c).sum + w b ≤
      (bbs.map fun c => if (mark c).isSome then 0 else w c).sum := by
  induction bbs with
  | nil => cases hb
  | cons c bbs ih =>
    rw [List.map_cons, List.map_cons, List.sum_cons, List.sum_cons]
    by_cases hc : c = b
    · subst hc
      have hrest : _ ≤ (bbs.map fun c => if (mark c).isSome then 0 else w c).sum := sum_update_le w f c bbs
      rw [Function.update_self, hmark]
      change 0 + _ + w c ≤ w c + _
      omega
    · have hrest := ih ((List.mem_cons.mp hb).resolve_left (Ne.symm hc))
      rw [Function.update_of_ne hc]
      omega

theorem weight_process {mark : B → Option F} (hb : b ∈ g.cfg.bbs) (hcalls : calls ≠ []) (hmark : mark b = none) :
    weight g (processBlock g ⟨todo, calls, mark, events⟩ b) + 2 ≤ weight g ⟨todo, calls, mark, events⟩ := by
  obtain ⟨⟨f, edge⟩, calls', rfl⟩ := List.exists_cons_of_ne_nil hcalls
  have hsum := sum_update (w := fun b => (g.cfg.outs b).length + 2) f hb hmark
  change (g.cfg.bbs.map fun c => if (Function.update mark b (some f) c).isSome then 0 else (g.cfg.outs c).length + 2).sum +
    ((g.cfg.outs b).reverse.map some ++ todo).length + 2 ≤
      (g.cfg.bbs.map fun c => if (mark c).isSome then 0 else (g.cfg.outs c).length + 2).sum + todo.length
  rw [List.length_append, List.length_map, List.length_reverse]
  omega

theorem Turn.weight_lt (hg : Nested g chain) (h : Invariant g address callAddress s) (hfresh : Fresh g s)
    (hturn : Turn g s s') : weight g s' < weight g s := by
  have hinv := h.turn hg hfresh hturn
  have hmem : ∀ s₁ b, s' = processBlock g s₁ b → b ∈ g.cfg.bbs := by
    rintro s₁ b rfl
    have hlast : .processBB b ∈ s₁.events ++ [.processBB b] := List.mem_append_right _ (List.mem_singleton_self _)
    obtain ⟨before, after, hsplit⟩ := List.append_of_mem hlast
    exact (hinv.right before b after hsplit).mem hg
  have hcalls := hinv.aligned.calls_ne_nil
  cases hturn with
  | skip htodo | avoid htodo =>
    unfold weight
    rw [htodo, List.length_cons]
    dsimp only
    omega
  | pass htodo hpass hmark =>
    refine Nat.lt_of_lt_of_le (Nat.lt_of_succ_lt (weight_process (hmem _ _ rfl) hcalls hmark)) ?_
    unfold weight
    rw [htodo, List.length_cons]
    dsimp only
    omega
  | enter htodo hcall hmark hback =>
    refine Nat.lt_of_lt_of_le (Nat.lt_of_succ_lt (weight_process (hmem _ _ rfl) hcalls hmark)) ?_
    unfold weight
    rw [htodo, List.length_cons, List.length_cons]
  | leave htodo hcalls' =>
    refine Nat.lt_of_lt_of_le (Nat.lt_of_succ_lt (weight_process (hmem _ _ rfl) hcalls (hfresh _ _ _ _ htodo hcalls'))) ?_
    unfold weight
    rw [htodo, List.length_cons]
    dsimp only
    omega

/-- Where no call returns to a block that was processed before, the traversal comes to an end. -/
theorem run_ends (hg : Nested g chain) (address callAddress : B → A)
    (hfresh : ∀ n s, run g n (initial g) = .ok s → Fresh g s) :
    ∃ n s, run g n (initial g) = .ok s ∧ s.todo = [] ∧ Invariant g address callAddress s := by
  have hsteps : ∀ k n s, weight g s ≤ k → run g n (initial g) = .ok s → Invariant g address callAddress s →
      ∃ n s, run g n (initial g) = .ok s ∧ s.todo = [] ∧ Invariant g address callAddress s := by
    intro k
    induction k with
    | zero =>
      intro n s hk hrun h
      refine ⟨n, s, hrun, List.eq_nil_of_length_eq_zero ?_, h⟩
      unfold weight at hk
      omega
    | succ k ih =>
      intro n s hk hrun h
      by_cases htodo : s.todo = []
      · exact ⟨n, s, hrun, htodo, h⟩
      · obtain ⟨s', hok, hturn⟩ := turn_ok hg h htodo
        have hlt := hturn.weight_lt hg h (hfresh n s hrun)
        refine ih (n + 1) s' (by omega) ?_ (h.turn hg (hfresh n s hrun) hturn)
        unfold run
        rw [hrun]
        exact hok
  exact hsteps _ 0 (initial g) (Nat.le_refl _) rfl (.initial hg address callAddress)

theorem Invariant.pending_eq_nil (h : Invariant g address callAddress s) (htodo : s.todo = []) :
    pending s.events = [] := by
  have haligned := h.aligned
  rw [htodo] at haligned
  generalize s.calls = calls, pending s.events = l at haligned ⊢
  cases haligned
  rfl

/-- At the end, the processed blocks are the ones that some calls contain, but for the entry. -/
theorem Invariant.processed_iff (hg : Nested g chain) (h : Invariant g address callAddress s) (htodo : s.todo = []) (b : B) :
    b ∈ processed s.events ↔ b ≠ g.cfg.entry ∧ ∃ l, Within g b l := by
  constructor
  · intro hb
    obtain ⟨before, after, hsplit⟩ := List.append_of_mem (mem_processed.mp hb)
    refine ⟨?_, pending before, h.right before b after hsplit⟩
    rintro rfl
    exact h.fresh hb
  · rintro ⟨hentry, l, hwithin⟩
    have htarget : ∀ b l e, Within g b l → (b = g.cfg.entry ∨ b ∈ processed s.events) → e ∈ g.cfg.outs b →
        Passes g e ∨ Calls g e → g.cfg.target e ∈ processed s.events := by
      intro b l e _ hb he hkind
      refine (h.seen b hb e he hkind).resolve_left ?_
      rw [htodo]
      exact List.not_mem_nil
    refine Or.resolve_left ?_ hentry
    clear hentry
    induction hwithin with
    | entry => exact .inl rfl
    | pass hwithin he hpass ih => exact .inr (htarget _ _ _ hwithin ih he (.inl hpass))
    | call hwithin he hcall ih => exact .inr (htarget _ _ _ hwithin ih he (.inr hcall))
    | back hwithin he hcall ih =>
      rename_i b l e
      have hdone := htarget _ _ _ hwithin ih he (.inr hcall)
      obtain ⟨before, after, hsplit⟩ := List.append_of_mem (mem_processed.mp hdone)
      have hcalls := (h.right before _ after hsplit).unique hg (.call hwithin he hcall)
      have hentered : .enteringCall e ∈ s.events := by
        rw [hsplit]
        exact List.mem_append_left _ (mem_pending (hcalls ▸ List.mem_cons_self))
      rcases (h.entered e hentered).2 with hmem | hback
      · rw [h.pending_eq_nil htodo] at hmem
        cases hmem
      · rw [hg.source _ e he] at hback
        exact .inr hback

/-! ### A run that is computed -/

omit [DecidableEq B] in
theorem fresh_iff : Fresh g s ↔ (match s.todo, s.calls with
    | none :: _, (_, some back) :: _ => (s.mark (g.cfg.target back)).isNone
    | _, _ => true) = true := by
  constructor
  · intro h
    split
    · rename_i htodo hcalls
      exact Option.isNone_iff_eq_none.mpr (h _ _ _ _ htodo hcalls)
    · rfl
  · intro h todo f back calls htodo hcalls
    rw [htodo, hcalls] at h
    exact Option.isNone_iff_eq_none.mp h

instance decidableFresh (g : VirtualCFG F B E) (s : State F B E) : Decidable (Fresh g s) := decidable_of_iff _ fresh_iff.symm

/-- Only the turns up to the end are to be computed. -/
theorem fresh_of_steps (n : ℕ) (hrun : run g n (initial g) = .ok s) (htodo : s.todo = [])
    (hsteps : ∀ m < n, (run g m (initial g)).toOption.all (fun s => decide (Fresh g s)) = true) (m : ℕ)
    (s' : State F B E) (hm : run g m (initial g) = .ok s') : Fresh g s' := by
  have hdone : ∀ k, run g (n + k) (initial g) = .ok s := by
    intro k
    induction k with
    | zero => exact hrun
    | succ k ih =>
      change run g (n + k) (initial g) >>= turn g = .ok s
      rw [ih]
      change turn g s = .ok s
      unfold turn
      rw [htodo]
  by_cases hlt : m < n
  · have hfresh := hsteps m hlt
    rw [hm] at hfresh
    exact of_decide_eq_true hfresh
  · obtain ⟨k, rfl⟩ := Nat.exists_eq_add_of_le (Nat.le_of_not_lt hlt)
    cases (hdone k).symm.trans hm
    intro todo f back calls hcons
    rw [htodo] at hcons
    cases hcons

end Otawa.ContextualProcessor
