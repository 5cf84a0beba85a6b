import Otawa.Ipet.BasicConstraints

/-!
# Executions of a collection of CFGs and their counts

An execution of a CFG goes from block to block and, at a block that calls, through an execution of the callee and
then along the edge of the block that stands for the return. `charge` sums what the events of an execution are
worth; the counts of blocks and edges are charges, and what flows into a block flows out of it.
-/

namespace Otawa.Ipet

variable {F B E : Type}

/-- `pass` is an edge that is taken without a call, `call` a call edge with the edge of its return. -/
inductive Event (B E : Type) where
  | block (b : B)
  | pass (k : E)
  | call (e k : E)
  deriving DecidableEq

/-- The sum of what the events are worth. -/
def charge (worth : Event B E → ℤ) (l : List (Event B E)) : ℤ :=
  (l.map worth).sum

/-- How often an event executes the block or the edge of a variable. -/
def Event.weight [DecidableEq B] [DecidableEq E] : Event B E → Var B E → ℤ
  | .block b, .block b' => if b = b' then 1 else 0
  | .pass k, .edge e => if k = e then 1 else 0
  | .call e k, .edge e' => (if e = e' then 1 else 0) + if k = e' then 1 else 0
  | _, _ => 0

/-- The execution counts. -/
def counts [DecidableEq B] [DecidableEq E] (l : List (Event B E)) (v : Var B E) : ℤ :=
  charge (fun ev => ev.weight v) l

section

variable (c : Collection F B E)

/-- The block has a CALL edge. -/
def IsCall (f : F) (b : B) : Prop :=
  ∃ e ∈ (c.cfg f).outs b, (c.cfg f).kind e = .call

/-- The edges that stand for the returns of the calls of their block. -/
def IsReturn (f : F) (k : E) : Prop :=
  (c.cfg f).kind k = .notTaken ∨ (c.cfg f).kind k = .virtual

/-- The executions of a CFG from a block to the exit. A block that calls goes along an edge of the returns without
a call only if its call is conditional. -/
inductive Run : F → B → List (Event B E) → Prop where
  | exit (f : F) : Run f (c.cfg f).exit [.block (c.cfg f).exit]
  | pass {f : F} {b : B} {k : E} {l : List (Event B E)} : k ∈ (c.cfg f).outs b → (c.cfg f).kind k ≠ .call →
      (IsCall c f b → IsReturn c f k → c.isConditional b = true) → Run f ((c.cfg f).target k) l →
      Run f b (.block b :: .pass k :: l)
  | call {f g : F} {b : B} {e k : E} {l l' : List (Event B E)} : e ∈ (c.cfg f).outs b →
      (c.cfg f).kind e = .call → c.calledCFG e = some g → k ∈ (c.cfg f).outs b → IsReturn c f k →
      Run g (c.cfg g).entry l → Run f ((c.cfg f).target k) l' → Run f b (.block b :: .call e k :: (l ++ l'))

/-- The edges are those of the workspace, the same for all CFGs, and each is listed once. -/
structure Linked : Prop where
  nodup_cfgs : c.cfgs.Nodup
  kind : ∀ f g, (c.cfg f).kind = (c.cfg g).kind
  source : ∀ f g, (c.cfg f).source = (c.cfg g).source
  target : ∀ f g, (c.cfg f).target = (c.cfg g).target
  nodup_ins : ∀ f b, ((c.cfg f).ins b).Nodup
  nodup_outs : ∀ f b, ((c.cfg f).outs b).Nodup

end

variable {c : Collection F B E} {f g : F} {b b' : B} {e k : E} {l l' : List (Event B E)}
  {worth : Event B E → ℤ} {ev : Event B E}

@[simp] theorem charge_nil (worth : Event B E → ℤ) : charge worth [] = 0 := rfl

@[simp] theorem charge_cons : charge worth (ev :: l) = worth ev + charge worth l := rfl

@[simp] theorem charge_append : charge worth (l ++ l') = charge worth l + charge worth l' := by
  rw [charge, List.map_append, List.sum_append]
  rfl

theorem charge_eq_zero (h : ∀ ev ∈ l, worth ev = 0) : charge worth l = 0 := by
  induction l with
  | nil => rfl
  | cons ev l ih =>
    rw [charge_cons, h ev List.mem_cons_self, ih fun ev' mem => h ev' (List.mem_cons_of_mem ev mem)]
    rfl

variable [DecidableEq B] [DecidableEq E]

@[simp] theorem counts_nil (v : Var B E) : counts [] v = 0 := rfl

@[simp] theorem counts_cons (v : Var B E) : counts (ev :: l) v = ev.weight v + counts l v := rfl

@[simp] theorem counts_append (v : Var B E) : counts (l ++ l') v = counts l v + counts l' v :=
  charge_append

@[simp] theorem weight_block : (Event.block b : Event B E).weight (.block b') = if b = b' then 1 else 0 := rfl

@[simp] theorem weight_pass : (Event.pass k : Event B E).weight (.block b) = 0 := rfl

@[simp] theorem weight_call : (Event.call e k : Event B E).weight (.block b) = 0 := rfl

/-- The counts of several edges are a charge. -/
theorem sum_counts (es : List E) (l : List (Event B E)) :
    (es.map fun e => counts l (.edge e)).sum =
      charge (fun ev => (es.map fun e => ev.weight (.edge e)).sum) l := by
  induction es with
  | nil => exact (charge_eq_zero fun _ _ => rfl).symm
  | cons e es ih =>
    rw [List.map_cons, List.sum_cons, ih, counts]
    simp only [charge, List.map_cons, List.sum_cons]
    exact (List.sum_map_add ..).symm

theorem sum_indicator {es : List E} (hnodup : es.Nodup) (e : E) :
    (es.map fun e' => if e = e' then (1 : ℤ) else 0).sum = if e ∈ es then 1 else 0 := by
  induction es with
  | nil => rfl
  | cons e' es ih =>
    obtain ⟨hnew, hnodup⟩ := List.nodup_cons.mp hnodup
    rw [List.map_cons, List.sum_cons, ih hnodup]
    by_cases heq : e = e'
    · subst heq
      rw [if_pos rfl, if_neg hnew, if_pos List.mem_cons_self, add_zero]
    · rw [if_neg heq, zero_add]
      exact if_congr (by rw [List.mem_cons, or_iff_right heq]) rfl rfl

/-- How often an event takes an edge of a list. -/
def Event.traversals (es : List E) : Event B E → ℤ
  | .block _ => 0
  | .pass k => if k ∈ es then 1 else 0
  | .call e k => (if e ∈ es then 1 else 0) + if k ∈ es then 1 else 0

section

omit [DecidableEq B]

@[simp] theorem traversals_block (es : List E) : (Event.block b).traversals es = 0 := rfl

@[simp] theorem traversals_pass (es : List E) :
    (Event.pass k : Event B E).traversals es = if k ∈ es then 1 else 0 := rfl

@[simp] theorem traversals_call (es : List E) : (Event.call e k : Event B E).traversals es =
    (if e ∈ es then 1 else 0) + if k ∈ es then 1 else 0 := rfl

end

theorem sum_counts_eq {es : List E} (hnodup : es.Nodup) (l : List (Event B E)) :
    (es.map fun e => counts l (.edge e)).sum = charge (Event.traversals es) l := by
  rw [sum_counts]
  congr 1
  funext ev
  cases ev with
  | block b => simp [Event.weight, Event.traversals]
  | pass k => exact sum_indicator hnodup k
  | call e k =>
    simp only [Event.weight, Event.traversals, ← sum_indicator hnodup]
    exact List.sum_map_add ..

/-! ### What flows in flows out -/

/-- The edges out of a block, without the calls. -/
def flowOuts (c : Collection F B E) (f : F) (b : B) : List E :=
  ((c.cfg f).outs b).filter fun e => (c.cfg f).kind e ≠ .call

/-- The edges into a block, without the calls. -/
def flowIns (c : Collection F B E) (f : F) (b : B) : List E :=
  ((c.cfg f).ins b).filter fun e => (c.cfg f).kind e ≠ .call

/-- The known calls of a CFG, in all CFGs. -/
def callsOf [DecidableEq F] (c : Collection F B E) (g : F) : List E :=
  c.cfgs.flatMap fun f => (c.cfg f).bbs.flatMap fun b =>
    ((c.cfg f).outs b).filter fun e => (c.cfg f).kind e = .call ∧ c.calledCFG e = some g

section Flow

variable (hc : c.WellFormed) (hl : Linked c)

omit [DecidableEq B] [DecidableEq E]

theorem IsReturn.ne_call (h : IsReturn c f k) : (c.cfg f).kind k ≠ .call := by
  obtain h | h := h <;> rw [h] <;> decide

theorem mem_callsOf_iff [DecidableEq F] (hf : f ∈ c.cfgs) (hb : b ∈ (c.cfg f).bbs) (he : e ∈ (c.cfg f).outs b)
    (hkind : (c.cfg f).kind e = .call) : e ∈ callsOf c g ↔ c.calledCFG e = some g := by
  unfold callsOf
  simp only [List.mem_flatMap, List.mem_filter, decide_eq_true_eq]
  constructor
  · rintro ⟨f', -, b', -, -, -, hcalled⟩
    exact hcalled
  · exact fun hcalled => ⟨f, hf, b, hb, he, hkind, hcalled⟩

include hl in
theorem not_mem_flow (hkind : (c.cfg f).kind e = .call) (f₀ : F) (b₀ : B) :
    e ∉ flowOuts c f₀ b₀ ∧ e ∉ flowIns c f₀ b₀ := by
  rw [flowOuts, flowIns, List.mem_filter, List.mem_filter, hl.kind f₀ f, hkind]
  exact ⟨fun h => absurd h.2 (by decide), fun h => absurd h.2 (by decide)⟩

include hl in
theorem not_mem_callsOf [DecidableEq F] (hkind : (c.cfg f).kind k ≠ .call) : k ∉ callsOf c g := by
  unfold callsOf
  simp only [List.mem_flatMap, List.mem_filter, decide_eq_true_eq]
  rintro ⟨f', -, b', -, -, hcall, -⟩
  rw [hl.kind f' f] at hcall
  exact hkind hcall

include hc

theorem source_of_mem (hk : k ∈ (c.cfg f).outs b) : (c.cfg f).source k = b :=
  ((hc.cfg f).mem_outs k b).mp hk

theorem target_mem (hb : b ∈ (c.cfg f).bbs) (hk : k ∈ (c.cfg f).outs b) (hkind : (c.cfg f).kind k ≠ .call) :
    (c.cfg f).target k ∈ (c.cfg f).bbs := by
  rw [← (hc.cfg f).same_cfg k hkind, source_of_mem hc hk]
  exact hb

theorem target_ne_entry (hkind : (c.cfg f).kind k ≠ .call) (f₀ : F) (hb : b ∈ (c.cfg f).bbs)
    (hk : k ∈ (c.cfg f).outs b) : (c.cfg f).target k ≠ (c.cfg f₀).entry := by
  intro heq
  have hmem := target_mem hc hb hk hkind
  rw [heq] at hmem
  obtain rfl := hc.disjoint _ _ _ hmem (hc.cfg f₀).entry_mem
  exact hc.entry_fresh f _ ⟨k, hkind, rfl, heq⟩

theorem exit_eq_iff {f₀ : F} (h₀ : b ∈ (c.cfg f₀).bbs) (hne : b ≠ (c.cfg f₀).exit) : (c.cfg f).exit ≠ b := by
  rintro rfl
  obtain rfl := hc.disjoint _ _ _ (hc.exit_mem f) h₀
  exact hne rfl

theorem entry_eq_iff : (c.cfg f).entry = (c.cfg g).entry ↔ f = g := by
  constructor
  · intro heq
    exact hc.disjoint _ _ _ (hc.cfg f).entry_mem (heq ▸ (hc.cfg g).entry_mem)
  · rintro rfl
    rfl

include hl

theorem mem_flowOuts_iff (hk : k ∈ (c.cfg f).outs b) (hkind : (c.cfg f).kind k ≠ .call) (f₀ : F) (b₀ : B) :
    k ∈ flowOuts c f₀ b₀ ↔ b = b₀ := by
  rw [flowOuts, List.mem_filter, (hc.cfg f₀).mem_outs, hl.source f₀ f, hl.kind f₀ f, source_of_mem hc hk]
  exact and_iff_left (decide_eq_true hkind)

theorem mem_flowIns_iff (hkind : (c.cfg f).kind k ≠ .call) (f₀ : F) (b₀ : B) :
    k ∈ flowIns c f₀ b₀ ↔ (c.cfg f).target k = b₀ := by
  have hkind₀ : (c.cfg f₀).kind k ≠ .call := by rw [hl.kind f₀ f]; exact hkind
  rw [flowIns, List.mem_filter, (hc.cfg f₀).mem_ins k b₀ hkind₀, hl.target f₀ f]
  exact and_iff_left (decide_eq_true hkind₀)

end Flow

section Balance

variable (hc : c.WellFormed) (hl : Linked c) {f₀ : F} {b₀ : B}

include hc hl

/-- A block that is not the exit is left as often as it is executed. -/
theorem Run.balance_outs (run : Run c f b l) (hb : b ∈ (c.cfg f).bbs) (h₀ : b₀ ∈ (c.cfg f₀).bbs)
    (hne : b₀ ≠ (c.cfg f₀).exit) : counts l (.block b₀) = charge (Event.traversals (flowOuts c f₀ b₀)) l := by
  induction run with
  | exit f => simp [exit_eq_iff hc h₀ hne]
  | pass hk hkind _ _ ih =>
    simp only [counts_cons, charge_cons, weight_block, weight_pass, traversals_block, traversals_pass,
      ih (target_mem hc hb hk hkind),
      mem_flowOuts_iff hc hl hk hkind]
    ring
  | call he hcall hcalled hk hreturn _ _ ih ih' =>
    have hkind := hreturn.ne_call
    simp only [counts_cons, counts_append, charge_cons, charge_append, weight_block, weight_call,
      traversals_block, traversals_call, ih (hc.cfg _).entry_mem,
      ih' (target_mem hc hb hk hkind), mem_flowOuts_iff hc hl hk hkind,
      if_neg (not_mem_flow hl hcall f₀ b₀).1]
    ring

/-- A block that is not the entry is come to as often as it is executed, without the start of the execution. -/
theorem Run.balance_ins (run : Run c f b l) (hb : b ∈ (c.cfg f).bbs) (h₀ : b₀ ∈ (c.cfg f₀).bbs)
    (hne : b₀ ≠ (c.cfg f₀).entry) :
    counts l (.block b₀) = (if b = b₀ then 1 else 0) + charge (Event.traversals (flowIns c f₀ b₀)) l := by
  have hentry : ∀ g, (c.cfg g).entry ≠ b₀ := by
    rintro g rfl
    obtain rfl := hc.disjoint _ _ _ (hc.cfg g).entry_mem h₀
    exact hne rfl
  induction run with
  | exit f => simp
  | pass hk hkind _ _ ih =>
    simp only [counts_cons, charge_cons, weight_block, weight_pass, traversals_block, traversals_pass,
      ih (target_mem hc hb hk hkind),
      mem_flowIns_iff hc hl hkind]
  | call he hcall hcalled hk hreturn _ _ ih ih' =>
    have hkind := hreturn.ne_call
    simp only [counts_cons, counts_append, charge_cons, charge_append, weight_block, weight_call,
      traversals_block, traversals_call, ih (hc.cfg _).entry_mem,
      ih' (target_mem hc hb hk hkind), mem_flowIns_iff hc hl hkind, if_neg (hentry _),
      if_neg (not_mem_flow hl hcall f₀ b₀).2]
    ring

/-- The entry of a CFG is executed as often as the CFG is called, without the start of the execution. -/
theorem Run.balance_calls [DecidableEq F] (run : Run c f b l) (hf : f ∈ c.cfgs) (hb : b ∈ (c.cfg f).bbs) (g : F) :
    counts l (.block (c.cfg g).entry) =
      (if b = (c.cfg g).entry then 1 else 0) + charge (Event.traversals (callsOf c g)) l := by
  induction run with
  | exit f => simp
  | @pass f b k l hk hkind _ _ ih =>
    simp only [counts_cons, charge_cons, weight_block, weight_pass, traversals_block, traversals_pass,
      ih hf (target_mem hc hb hk hkind),
      if_neg (target_ne_entry hc hkind g hb hk), if_neg (not_mem_callsOf hl hkind)]
  | @call f g' b e k l l' he hcall hcalled hk hreturn _ _ ih ih' =>
    have hkind := hreturn.ne_call
    have hcalls : e ∈ callsOf c g ↔ (c.cfg g').entry = (c.cfg g).entry := by
      rw [mem_callsOf_iff hf hb he hcall, hcalled, Option.some_inj, entry_eq_iff hc]
    simp only [counts_cons, counts_append, charge_cons, charge_append, weight_block, weight_call,
      traversals_block, traversals_call,
      ih (hc.called_mem e g' hcalled) (hc.cfg _).entry_mem, ih' hf (target_mem hc hb hk hkind),
      if_neg (target_ne_entry hc hkind g hb hk), if_neg (not_mem_callsOf hl hkind), hcalls]
    ring

end Balance

end Otawa.Ipet
