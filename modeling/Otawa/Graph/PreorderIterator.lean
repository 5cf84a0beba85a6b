import Otawa.Lib.Sweep
import Otawa.Lib.Topological

/-!
# The preorder iterator

`graph::PreorderIterator` goes through a graph from an entry and puts a successor in its queue when all predecessors of
it have been visited. `order_spec`: in a graph without cycles, all of which is reached from the entry, it gives each
vertex once, no edge goes backward, and its assertion holds.
-/

namespace Otawa

/-- The edges of each vertex, as `OutIterator` and `InIterator` give them. -/
structure GenGraph (V E : Type) where
  source : E → V
  target : E → V
  outs : V → List E
  ins : V → List E
  mem_outs : ∀ {v e}, e ∈ outs v ↔ source e = v
  mem_ins : ∀ {v e}, e ∈ ins v ↔ target e = v

namespace GenGraph

variable {V E : Type}

def Edge (g : GenGraph V E) (u v : V) : Prop :=
  ∃ e, g.source e = u ∧ g.target e = v

end GenGraph

/-- The two bit vectors and the queue. -/
structure PreorderIterator (V : Type) where
  visited : V → Bool
  queued : V → Bool
  queue : List V

namespace PreorderIterator

variable {V E : Type} [DecidableEq V]

def start (entry : V) : PreorderIterator V where
  visited _ := false
  queued := Function.update (fun _ => false) entry true
  queue := [entry]

/-- A successor of the visited vertex; `none` is a failed assertion. -/
def put (g : GenGraph V E) (visited : V → Bool) (acc : (V → Bool) × List V) (succ : E) :
    Option ((V → Bool) × List V) :=
  if acc.1 (g.target succ) then some acc
  else if visited (g.target succ) then none
  else if (g.ins (g.target succ)).all fun pred => visited (g.source pred) then
    some (Function.update acc.1 (g.target succ) true, acc.2 ++ [g.target succ])
  else some acc

def next (g : GenGraph V E) (it : PreorderIterator V) : Option (PreorderIterator V) :=
  match it.queue with
  | [] => none
  | node :: queue => do
    let visited := Function.update it.visited node true
    let (queued, queue) ← (g.outs node).foldlM (put g visited) (it.queued, queue)
    return ⟨visited, Function.update queued node false, queue⟩

/-- The items of the iterator until it is ended. -/
def items (g : GenGraph V E) : ℕ → PreorderIterator V → Option (List V)
  | 0, _ => none
  | steps + 1, it =>
    match it.queue with
    | [] => some []
    | node :: _ => do
      let it ← it.next g
      let nodes ← items g steps it
      return node :: nodes

/-- The vertices in the order of the visits. -/
def order [Fintype V] (g : GenGraph V E) (entry : V) : Option (List V) :=
  items g (Fintype.card V + 1) (start entry)

/-- The vertices visited before, in their order, and those in the queue. -/
structure Visits (g : GenGraph V E) (entry : V) (done : List V) (it : PreorderIterator V) : Prop where
  visited : ∀ v, it.visited v = true ↔ v ∈ done
  queued : ∀ v, it.queued v = true ↔ v ∈ it.queue
  nodup : (done ++ it.queue).Nodup
  ready : ∀ u v, g.Edge u v → v ∈ done ++ it.queue → u ∈ done
  forward : done.Pairwise fun a b => ¬ g.Edge b a
  entry : entry ∈ done ++ it.queue
  taken : ∀ v, (∃ u, g.Edge u v) → (∀ u, g.Edge u v → u ∈ done) → v ∈ done ++ it.queue

variable {g : GenGraph V E} {entry node : V} {done queue : List V} {it : PreorderIterator V}

/-- The queue with some successors of the visited vertex. -/
structure Puts (g : GenGraph V E) (done : List V) (node : V) (queue : List V) (succs : List E)
    (acc : (V → Bool) × List V) : Prop where
  queued : ∀ v, acc.1 v = true ↔ v = node ∨ v ∈ acc.2
  nodup : ((done ++ [node]) ++ acc.2).Nodup
  sub : ∀ v ∈ queue, v ∈ acc.2
  ready : ∀ v ∈ acc.2, v ∈ queue ∨ ∀ u, g.Edge u v → u ∈ done ++ [node]
  taken : ∀ e ∈ succs, (∀ u, g.Edge u (g.target e) → u ∈ done ++ [node]) → g.target e ∈ acc.2

omit [DecidableEq V] in
theorem all_ins_iff {visited : V → Bool} {l : List V} (hvisited : ∀ v, visited v = true ↔ v ∈ l) (v : V) :
    (g.ins v).all (fun pred => visited (g.source pred)) = true ↔ ∀ u, g.Edge u v → u ∈ l := by
  rw [List.all_eq_true]
  constructor
  · rintro h u ⟨e, rfl, he⟩
    exact (hvisited _).mp (h e (g.mem_ins.mpr he))
  · intro h e he
    exact (hvisited _).mpr (h _ ⟨e, rfl, g.mem_ins.mp he⟩)

theorem put_puts {visited : V → Bool} (hvisited : ∀ v, visited v = true ↔ v ∈ done ++ [node]) {before : List E}
    {e : E} {acc : (V → Bool) × List V} (hacc : Puts g done node queue before acc)
    (hnew : g.target e ∉ done ++ [node]) :
    ∃ acc', put g visited acc e = some acc' ∧ Puts g done node queue (before ++ [e]) acc' := by
  have hne : g.target e ≠ node := fun heq => hnew (heq ▸ List.mem_append_right _ List.mem_cons_self)
  have hkeep : (g.target e ∈ acc.2 ∨ ¬ ∀ u, g.Edge u (g.target e) → u ∈ done ++ [node]) →
      Puts g done node queue (before ++ [e]) acc := by
    intro hcase
    refine ⟨hacc.queued, hacc.nodup, hacc.sub, hacc.ready, fun e' he' hready => ?_⟩
    rcases List.mem_append.mp he' with he' | he'
    · exact hacc.taken e' he' hready
    · obtain rfl := List.mem_singleton.mp he'
      rcases hcase with hmem | hno
      · exact hmem
      · exact absurd hready hno
  unfold put
  split
  case isTrue hqueued =>
    refine ⟨acc, rfl, hkeep (.inl ?_)⟩
    exact ((hacc.queued _).mp hqueued).resolve_left hne
  case isFalse hqueued =>
    rw [if_neg fun h => hnew ((hvisited _).mp h)]
    split
    case isFalse hall => exact ⟨acc, rfl, hkeep (.inr fun h => hall ((all_ins_iff hvisited _).mpr h))⟩
    case isTrue hall =>
      have hready := (all_ins_iff hvisited _).mp hall
      have hnot : g.target e ∉ acc.2 := fun h => hqueued ((hacc.queued _).mpr (.inr h))
      refine ⟨_, rfl, ?_⟩
      exact {
        queued := by
          intro v
          dsimp only
          rw [Function.update_apply]
          split
          case isTrue heq => exact iff_of_true rfl (.inr (List.mem_append_right _ (heq ▸ List.mem_cons_self)))
          case isFalse hv => rw [hacc.queued, List.mem_append, List.mem_singleton, or_iff_left hv]
        nodup := by
          rw [← List.append_assoc, ← List.concat_eq_append]
          exact hacc.nodup.concat fun hmem => (List.mem_append.mp hmem).elim hnew hnot
        sub := fun v hv => List.mem_append_left _ (hacc.sub v hv)
        ready := by
          intro v hv
          rcases List.mem_append.mp hv with hv | hv
          · exact hacc.ready v hv
          · exact .inr (List.mem_singleton.mp hv ▸ hready)
        taken := by
          intro e' he' hready'
          rcases List.mem_append.mp he' with he' | he'
          · exact List.mem_append_left _ (hacc.taken e' he' hready')
          · exact List.mem_append_right _ (List.mem_singleton.mp he' ▸ List.mem_cons_self) }

/-- One visit. -/
theorem next_visits (hit : Visits g entry done it)
    (hqueue : it.queue = node :: queue) : ∃ it', it.next g = some it' ∧ Visits g entry (done ++ [node]) it' := by
  have hnodup : ((done ++ [node]) ++ queue).Nodup := by
    have h := hit.nodup
    rwa [hqueue, List.append_cons] at h
  have hnode : node ∉ done := fun hmem =>
    (List.nodup_append.mp (List.nodup_append.mp hnodup).1).2.2 node hmem node List.mem_cons_self rfl
  have hready : ∀ u v, g.Edge u v → v ∈ (done ++ [node]) ++ queue → u ∈ done := by
    intro u v hedge hv
    refine hit.ready u v hedge ?_
    rw [hqueue, List.append_cons]
    exact hv
  have hvisited : ∀ v, Function.update it.visited node true v = true ↔ v ∈ done ++ [node] := by
    intro v
    rw [Function.update_apply, List.mem_append, List.mem_singleton]
    split
    case isTrue heq => exact iff_of_true rfl (.inr heq)
    case isFalse hv => rw [hit.visited, or_iff_left hv]
  have hstart : Puts g done node queue [] (it.queued, queue) := by
    refine ⟨fun v => ?_, hnodup, fun _ hv => hv, fun _ hv => .inl hv, fun _ he => absurd he List.not_mem_nil⟩
    rw [hit.queued, hqueue, List.mem_cons]
  -- a successor has not been visited: its predecessors were visited before it
  have hnew : ∀ e ∈ g.outs node, g.target e ∉ done ++ [node] := by
    intro e he hmem
    exact hnode (hready node (g.target e) ⟨e, g.mem_outs.mp he, rfl⟩ (List.mem_append_left _ hmem))
  have hstep : ∀ before e acc, Puts g done node queue before acc → g.target e ∉ done ++ [node] →
      ∃ acc', put g (Function.update it.visited node true) acc e = some acc' ∧
        Puts g done node queue (before ++ [e]) acc' :=
    fun before e acc hacc hok => put_puts hvisited hacc hok
  obtain ⟨⟨queued, queue'⟩, hfold, hputs⟩ := Loop.foldlM_inv hstep hstart hnew
  rw [List.nil_append] at hputs
  refine ⟨⟨Function.update it.visited node true, Function.update queued node false, queue'⟩, ?_, ?_⟩
  · unfold next
    rw [hqueue]
    change (List.foldlM _ _ _ >>= _) = _
    rw [hfold]
    rfl
  · exact {
      visited := hvisited
      queued := by
        intro v
        dsimp only
        rw [Function.update_apply]
        split
        case isTrue heq =>
          refine iff_of_false Bool.false_ne_true fun hmem => ?_
          refine (List.nodup_append.mp hputs.nodup).2.2 v ?_ v hmem rfl
          exact List.mem_append_right _ (List.mem_singleton.mpr heq)
        case isFalse hv => rw [hputs.queued, or_iff_right hv]
      nodup := hputs.nodup
      ready := by
        intro u v hedge hv
        rcases List.mem_append.mp hv with hv | hv
        · exact List.mem_append_left _ (hready u v hedge (List.mem_append_left _ hv))
        · rcases hputs.ready v hv with hv | hall
          · exact List.mem_append_left _ (hready u v hedge (List.mem_append_right _ hv))
          · exact hall u hedge
      forward := by
        refine List.pairwise_append.mpr ⟨hit.forward, List.pairwise_singleton _ _, fun a ha b hb hedge => ?_⟩
        rw [List.mem_singleton.mp hb] at hedge
        exact hnode (hit.ready node a hedge (List.mem_append_left _ ha))
      entry := by
        have hentry := hit.entry
        rw [hqueue, List.append_cons] at hentry
        rcases List.mem_append.mp hentry with hmem | hmem
        · exact List.mem_append_left _ hmem
        · exact List.mem_append_right _ (hputs.sub entry hmem)
      taken := by
        intro v hpred hall
        by_cases hbefore : ∀ u, g.Edge u v → u ∈ done
        · have hv := hit.taken v hpred hbefore
          rw [hqueue, List.append_cons] at hv
          rcases List.mem_append.mp hv with hmem | hmem
          · exact List.mem_append_left _ hmem
          · exact List.mem_append_right _ (hputs.sub v hmem)
        · push Not at hbefore
          obtain ⟨u, hedge, hu⟩ := hbefore
          obtain ⟨e, hsource, rfl⟩ := hedge
          -- the predecessor that was missing is the one visited now
          have hmem := (List.mem_append.mp (hall u ⟨e, hsource, rfl⟩)).resolve_left hu
          have hnow : u = node := List.mem_singleton.mp hmem
          exact List.mem_append_right _ (hputs.taken e (g.mem_outs.mpr (hsource.trans hnow)) hall) }

theorem start_visits (hentry : ∀ u, ¬ g.Edge u entry) : Visits g entry [] (start entry) where
  visited v := iff_of_false Bool.false_ne_true List.not_mem_nil
  queued v := by
    unfold start
    dsimp only
    rw [Function.update_apply, List.mem_singleton]
    split
    case isTrue heq => exact iff_of_true rfl heq
    case isFalse hne => exact iff_of_false Bool.false_ne_true hne
  nodup := List.nodup_singleton entry
  ready := by
    intro u v hedge hv
    rw [List.mem_singleton.mp hv] at hedge
    exact absurd hedge (hentry u)
  forward := List.Pairwise.nil
  entry := List.mem_singleton_self entry
  taken := by
    rintro v ⟨u, hedge⟩ hall
    exact absurd (hall u hedge) List.not_mem_nil

/-- The visits from a state of the iterator to its end. -/
theorem items_visits [Fintype V] (hit : Visits g entry done it) {steps : ℕ}
    (hsteps : Fintype.card V < steps + done.length) :
    ∃ nodes it', items g steps it = some nodes ∧ Visits g entry (done ++ nodes) it' ∧ it'.queue = [] := by
  induction steps generalizing done it with
  | zero =>
    rw [Nat.zero_add] at hsteps
    exact absurd (List.nodup_append.mp hit.nodup).1.length_le_card (Nat.not_le_of_lt hsteps)
  | succ steps ih =>
    cases hqueue : it.queue with
    | nil =>
      refine ⟨[], it, ?_, ?_, hqueue⟩
      · rw [items, hqueue]
      · rwa [List.append_nil]
    | cons node queue =>
      obtain ⟨it₁, hnext, hit₁⟩ := next_visits hit hqueue
      have hsteps₁ : Fintype.card V < steps + (done ++ [node]).length := by
        rw [List.length_append, List.length_singleton]
        omega
      obtain ⟨nodes, it', hitems, hit', hend⟩ := ih hit₁ hsteps₁
      refine ⟨node :: nodes, it', ?_, ?_, hend⟩
      · rw [items, hqueue]
        change (it.next g >>= _) = _
        rw [hnext]
        change (items g steps it₁ >>= _) = _
        rw [hitems]
        rfl
      · rw [List.append_cons]
        exact hit'

omit [DecidableEq V] in
/-- At the end all vertices have been visited: by induction on their predecessors. -/
theorem mem_of_visits [Finite V] (hacyclic : Topological.Acyclic g.Edge)
    (hreach : ∀ v, Relation.ReflTransGen g.Edge entry v) (hit : Visits g entry done it) (hqueue : it.queue = []) (v : V) :
    v ∈ done := by
  have hentry := hit.entry
  have htaken := hit.taken
  rw [hqueue, List.append_nil] at hentry htaken
  induction v using hacyclic.wellFounded.induction with
  | _ v ih =>
    rcases Relation.ReflTransGen.cases_tail (hreach v) with rfl | ⟨u, -, hedge⟩
    · exact hentry
    · exact htaken v ⟨u, hedge⟩ ih

/-- The order of the visits in a graph without cycles. -/
theorem order_spec [Fintype V] (g : GenGraph V E) (entry : V) (hacyclic : Topological.Acyclic g.Edge)
    (hreach : ∀ v, Relation.ReflTransGen g.Edge entry v) :
    ∃ nodes, order g entry = some nodes ∧ nodes.Nodup ∧ (nodes.Pairwise fun a b => ¬ g.Edge b a) ∧ ∀ v, v ∈ nodes := by
  have hentry : ∀ u, ¬ g.Edge u entry := fun u hedge => hacyclic u (.head' hedge (hreach u))
  obtain ⟨nodes, it, hitems, hit, hqueue⟩ := items_visits (start_visits hentry)
    (Nat.lt_succ_of_le (Nat.le_refl (Fintype.card V)))
  rw [List.nil_append] at hit
  exact ⟨nodes, hitems, (List.nodup_append.mp hit.nodup).1, hit.forward, mem_of_visits hacyclic hreach hit hqueue⟩

end PreorderIterator

end Otawa
