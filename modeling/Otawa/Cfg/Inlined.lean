import Otawa.Cfg.Virtualizer
import Otawa.Lib.Sweep
import Otawa.Proc.CallPath

/-!
# The calls of a virtual CFG are nested

Where no function ends with a call, a copy in a virtual CFG lies in the calls that the virtualizer was inlining when it made it
(`Inlined`), and the virtual CFG has the shape that `ContextualProcessor` relies on (`Inlined.nested`).
-/

namespace Otawa.Virtualizer

open ContextualProcessor

variable {F B E : Type} [DecidableEq F] [DecidableEq B]

/-- The virtual CFG of a function. Edges are added at the head of the lists of their blocks. -/
def State.virtualCFG (s : State F B) (f : F) : VirtualCFG F (Vertex F) (VEdge F) :=
  let bbs := .entry f :: ((List.range s.bbs.length).map Vertex.copy).filter (fun v => s.cfgOf v = some f) ++ [.exit f]
  { label := f
    cfg :=
      { bbs := bbs
        entry := .entry f
        exit := .exit f
        number := fun v => bbs.idxOf v
        kind := VEdge.kind
        source := VEdge.source
        target := VEdge.target
        ins := fun v => s.edges.filter fun e => e.target = v
        outs := fun v => s.edges.filter fun e => e.source = v }
    virtualReturnBlock := s.virtualReturnBlock
    calledCFG := fun e => e.calledCFG.head?
    recursiveLoop := VEdge.recursive }

/-! ### Edges and the calls around them -/

variable {s s' s'' : State F B} {chain chain' chain'' : Vertex F → List (VEdge F)} {e : VEdge F}

/-- What is true of an edge, where `chain` has the calls around each block. -/
structure Fits (s : State F B) (chain : Vertex F → List (VEdge F)) (e : VEdge F) : Prop where
  source : s.cfgOf e.source ≠ none ∧ e.source.isExit = false
  target : s.cfgOf e.target ≠ none
  kinds : (e.kind = .taken ∨ e.kind = .notTaken) ∨ e.kind = .virtualCall ∨ e.kind = .call ∨ e.kind = .virtualReturn
  same : e.kind ≠ .call → s.cfgOf e.source = s.cfgOf e.target
  pass : e.kind = .taken ∨ e.kind = .notTaken → chain e.target = chain e.source ∧ ∃ i, e.target = .copy i
  call : e.kind = .virtualCall → e.recursive = false → chain e.target = e :: chain e.source ∧ ∃ i, e.target = .copy i
  recursive : e.kind = .virtualCall → e.recursive = true → ∃ e' ∈ chain e.source, e'.target = e.target
  returns : e.kind = .virtualCall → ∀ i, e.source = .copy i → s.virtualReturnBlock (.copy i) ≠ none

/-- The blocks, their edges and the blocks that the calls return to. -/
structure Inlined (s : State F B) (chain : Vertex F → List (VEdge F)) : Prop where
  entry : ∀ f, chain (.entry f) = []
  exit : ∀ f, chain (.exit f) = []
  edges : ∀ e ∈ s.edges, Fits s chain e
  back : ∀ v r, s.virtualReturnBlock v = some r → s.cfgOf v ≠ none ∧ s.cfgOf r = s.cfgOf v ∧ chain r = chain v ∧
    (∃ i, v = .copy i) ∧ ∃ i, r = .copy i

/-- New copies are made, and nothing changes for the others. -/
structure Grown (s : State F B) (chain : Vertex F → List (VEdge F)) (s' : State F B)
    (chain' : Vertex F → List (VEdge F)) : Prop where
  bbs : s.bbs <+: s'.bbs
  chain : ∀ v, s.cfgOf v ≠ none → chain' v = chain v
  returns : ∀ v, s.virtualReturnBlock v ≠ none → s'.virtualReturnBlock v ≠ none
  cfgMap : ∀ f ∈ s.cfgMap, f ∈ s'.cfgMap

section

omit [DecidableEq F] [DecidableEq B]

theorem Grown.refl (s : State F B) (chain : Vertex F → List (VEdge F)) : Grown s chain s chain :=
  ⟨List.prefix_rfl, fun _ _ => rfl, fun _ h => h, fun _ h => h⟩

theorem Grown.cfgOf (h : Grown s chain s' chain') {v : Vertex F} (hv : s.cfgOf v ≠ none) : s'.cfgOf v = s.cfgOf v := by
  cases v with
  | entry | exit => rfl
  | copy i =>
    obtain ⟨new, hnew⟩ := h.bbs
    unfold State.cfgOf at hv ⊢
    dsimp only at hv ⊢
    have hi : i < s.bbs.length := by
      by_contra hge
      rw [List.getElem?_eq_none (Nat.le_of_not_lt hge)] at hv
      exact hv rfl
    rw [← hnew, List.getElem?_append_left hi]

theorem Grown.trans (h : Grown s chain s' chain') (h' : Grown s' chain' s'' chain'') : Grown s chain s'' chain'' := by
  refine ⟨h.bbs.trans h'.bbs, fun v hv => ?_, fun v hv => h'.returns v (h.returns v hv),
    fun f hf => h'.cfgMap f (h.cfgMap f hf)⟩
  rw [h'.chain v (h.cfgOf hv ▸ hv), h.chain v hv]

theorem Fits.grown (h : Fits s chain e) (hgrown : Grown s chain s' chain') : Fits s' chain' e := by
  have hsource := hgrown.cfgOf h.source.1
  have htarget := hgrown.cfgOf h.target
  have hchain := hgrown.chain _ h.source.1
  have hchain' := hgrown.chain _ h.target
  refine ⟨⟨hsource ▸ h.source.1, h.source.2⟩, htarget ▸ h.target, h.kinds, fun hkind => ?_, fun hkind => ?_,
    fun hkind hrec => ?_, fun hkind hrec => ?_, fun hkind i hi => hgrown.returns _ (h.returns hkind i hi)⟩
  · rw [hsource, htarget]
    exact h.same hkind
  · rw [hchain, hchain']
    exact h.pass hkind
  · rw [hchain, hchain']
    exact h.call hkind hrec
  · rw [hchain]
    exact h.recursive hkind hrec

/-- Only copies are made. -/
theorem Inlined.grown (h : Inlined s chain) (hgrown : Grown s chain s' chain') (hedges : s'.edges = s.edges)
    (hreturns : s'.virtualReturnBlock = s.virtualReturnBlock) : Inlined s' chain' := by
  refine ⟨fun f => ?_, fun f => ?_, fun e he => ?_, fun v r hr => ?_⟩
  · rw [hgrown.chain (.entry f) (Option.some_ne_none f)]
    exact h.entry f
  · rw [hgrown.chain (.exit f) (Option.some_ne_none f)]
    exact h.exit f
  · rw [hedges] at he
    exact (h.edges e he).grown hgrown
  · rw [hreturns] at hr
    obtain ⟨hv, hcfg, hchain, hcopy, hcopy'⟩ := h.back v r hr
    have hr' : s.cfgOf r ≠ none := hcfg ▸ hv
    rw [hgrown.cfgOf hv, hgrown.cfgOf hr', hgrown.chain v hv, hgrown.chain r hr']
    exact ⟨hv, hcfg, hchain, hcopy, hcopy'⟩

end

omit [DecidableEq B] in
theorem newEdge_eq {kind : EdgeKind} {source : Vertex F} {target : Option (Vertex F)} {called : List F} {recursive : Bool}
    (h : newEdge s kind source target called recursive = some s') :
    ∃ t, target = some t ∧ (kind ≠ .call → s.cfgOf source = s.cfgOf t) ∧
      s' = { s with edges := ⟨kind, source, t, called, recursive⟩ :: s.edges } := by
  obtain ⟨t, ht, h⟩ := Option.bind_eq_some_iff.mp h
  split at h
  · rename_i hsame
    cases h
    exact ⟨t, ht, fun hkind => hsame.resolve_left hkind, rfl⟩
  · cases h

section

omit [DecidableEq F] [DecidableEq B]

/-- An edge is added. -/
theorem Inlined.addEdge (h : Inlined s chain) (he : Fits s chain e) :
    Inlined { s with edges := e :: s.edges } chain ∧ Grown s chain { s with edges := e :: s.edges } chain := by
  have hgrown : Grown s chain { s with edges := e :: s.edges } chain :=
    ⟨List.prefix_rfl, fun _ _ => rfl, fun _ h => h, fun _ h => h⟩
  refine ⟨⟨h.entry, h.exit, fun e' he' => ?_, h.back⟩, hgrown⟩
  rcases List.mem_cons.mp he' with rfl | he'
  · exact he.grown hgrown
  · exact (h.edges e' he').grown hgrown

/-- Nothing depends on `RETURN_OF`. -/
theorem Inlined.setReturnOf (h : Inlined s chain) (returnOf : Vertex F → Option (Vertex F)) :
    Inlined { s with returnOf } chain ∧ Grown s chain { s with returnOf } chain := by
  have hgrown : Grown s chain { s with returnOf } chain := ⟨List.prefix_rfl, fun _ _ => rfl, fun _ h => h, fun _ h => h⟩
  exact ⟨h.grown hgrown rfl rfl, hgrown⟩

end

/-! ### The callers -/

/-- The entries of the callers are made, and those in the same CFG are entered by calls that are around. -/
structure Callers (s : State F B) (stack : List (Call F)) (vcfg : F) (l : List (VEdge F)) : Prop where
  known : ∀ c ∈ stack, ∀ t, c.entry = some t → ∃ f ∈ s.cfgMap, s.cfgOf t = some f
  around : ∀ c ∈ stack, ∀ t, c.entry = some t → s.cfgOf t = some vcfg → ∃ e ∈ l, e.target = t

/-- What the inlining of a function starts with. -/
structure Ready (s : State F B) (chain : Vertex F → List (VEdge F)) (stack : List (Call F)) (vcfg : F)
    (entry : Vertex F) : Prop where
  cfg : s.cfgOf entry = some vcfg
  start : entry.isExit = false
  returns : ∀ i, entry = .copy i → s.virtualReturnBlock (.copy i) ≠ none
  known : vcfg ∈ s.cfgMap
  callers : Callers s stack vcfg (chain entry)

/-- A function that is being inlined in the calls `l`. -/
structure Making (s : State F B) (chain : Vertex F → List (VEdge F)) (fr : Frame F B) (l : List (VEdge F)) : Prop where
  map : ∀ b v, fr.map b = some v → (∃ i, v = .copy i) ∧ s.cfgOf v = some fr.vcfg ∧ chain v = l
  known : fr.vcfg ∈ s.cfgMap
  callers : Callers s (fr.call :: fr.stack) fr.vcfg l

variable {stack : List (Call F)} {vcfg : F} {l : List (VEdge F)} {fr : Frame F B}

section

omit [DecidableEq F] [DecidableEq B]

theorem Callers.grown (h : Callers s stack vcfg l) (hgrown : Grown s chain s' chain') : Callers s' stack vcfg l := by
  have hsome : ∀ c ∈ stack, ∀ t, c.entry = some t → s'.cfgOf t = s.cfgOf t := by
    intro c hc t ht
    obtain ⟨f, -, hf⟩ := h.known c hc t ht
    exact hgrown.cfgOf (hf ▸ Option.some_ne_none f)
  refine ⟨fun c hc t ht => ?_, fun c hc t ht hcfg => h.around c hc t ht (hsome c hc t ht ▸ hcfg)⟩
  obtain ⟨f, hf, hcfg⟩ := h.known c hc t ht
  exact ⟨f, hgrown.cfgMap f hf, (hsome c hc t ht).trans hcfg⟩

theorem Making.grown (h : Making s chain fr l) (hgrown : Grown s chain s' chain') : Making s' chain' fr l := by
  refine ⟨fun b v hv => ?_, hgrown.cfgMap _ h.known, h.callers.grown hgrown⟩
  obtain ⟨hcopy, hcfg, hchain⟩ := h.map b v hv
  have hsome : s.cfgOf v ≠ none := hcfg ▸ Option.some_ne_none _
  rw [hgrown.cfgOf hsome, hgrown.chain v hsome]
  exact ⟨hcopy, hcfg, hchain⟩

end

/-- The copies that a state becomes are nested. -/
def Becomes (s : State F B) (chain : Vertex F → List (VEdge F)) (s' : State F B) : Prop :=
  ∃ chain', Inlined s' chain' ∧ Grown s chain s' chain'

/-- The specification of the recursive inlining. -/
def Nests (virtualize : Virtualize F B) : Prop :=
  ∀ stack cfg vcfg entry exit localInlining path s s' path' chain, Inlined s chain → Ready s chain stack vcfg entry →
    virtualize stack cfg vcfg entry exit localInlining path s = some (s', path') → Becomes s chain s'

section

omit [DecidableEq F] [DecidableEq B]

theorem Becomes.trans (h : Becomes s chain s') (h' : ∀ chain', Inlined s' chain' → Grown s chain s' chain' →
    Becomes s' chain' s'') : Becomes s chain s'' := by
  obtain ⟨chain', hinlined, hgrown⟩ := h
  obtain ⟨chain'', hinlined', hgrown'⟩ := h' chain' hinlined hgrown
  exact ⟨chain'', hinlined', hgrown.trans hgrown'⟩

/-- A function that is not inlined starts a CFG of its own. -/
theorem virtualizeCFG_nests {virtualize : Virtualize F B} (hvirtualize : Nests virtualize) (h : Inlined s chain) {cfg : F}
    (hnew : cfg ∉ s.cfgMap) (hknown : ∀ c ∈ stack, ∀ t, c.entry = some t → ∃ f ∈ s.cfgMap, s.cfgOf t = some f)
    {localInlining : Option Bool} (hv : virtualizeCFG virtualize stack cfg localInlining s = some s') :
    Becomes s chain s' := by
  obtain ⟨⟨s₁, path⟩, hv, hs'⟩ := Option.bind_eq_some_iff.mp hv
  cases hs'
  have hgrown : Grown s chain { s with cfgMap := cfg :: s.cfgMap } chain :=
    ⟨List.prefix_rfl, fun _ _ => rfl, fun _ h => h, fun _ h => List.mem_cons_of_mem cfg h⟩
  have hbecomes : Becomes s chain { s with cfgMap := cfg :: s.cfgMap } := ⟨chain, h.grown hgrown rfl rfl, hgrown⟩
  refine hbecomes.trans fun chain' hinlined hgrown' => hvirtualize stack cfg cfg _ _ _ _ _ _ path chain' hinlined ?_ hv
  refine ⟨rfl, rfl, (fun i hi => by cases hi), List.mem_cons_self, fun c hc t ht => ?_, fun c hc t ht hcfg => ?_⟩
  · obtain ⟨f, hf, hcfg⟩ := hknown c hc t ht
    exact ⟨f, List.mem_cons_of_mem cfg hf, hcfg⟩
  · obtain ⟨f, hf, hcfg'⟩ := hknown c hc t ht
    obtain rfl := Option.some.inj (hcfg'.symm.trans hcfg)
    exact absurd hf hnew

end

variable {c : Collection F B E} {inl : Inlining F B}

/-! ### The edges of a block -/

/-- The graphs as `CFG::scan` builds them: one edge leads from the entry to the first block, and the edges between the blocks
are taken or not. -/
structure Scanned (c : Collection F B E) : Prop where
  entry : ∀ f, ∃ e, (c.cfg f).outs (c.cfg f).entry = [e]
  kinds : ∀ f, ∀ b ∈ (c.cfg f).bbs, c.isEnd f b = false → ∀ e ∈ (c.cfg f).outs b,
    (c.cfg f).kind e = .call ∨ (c.cfg f).target e = (c.cfg f).exit ∨ (c.cfg f).kind e = .taken ∨ (c.cfg f).kind e = .notTaken

/-- No function ends with a call: where a block calls, control passes to no exit. -/
def ReturnsFromCalls (c : Collection F B E) : Prop :=
  ∀ f, ∀ b ∈ (c.cfg f).bbs, ∀ e ∈ (c.cfg f).outs b, (c.cfg f).kind e = .call →
    ∀ e' ∈ (c.cfg f).outs b, (c.cfg f).kind e' ≠ .call →
    (c.cfg f).target e' ≠ (c.cfg f).exit

section

omit [DecidableEq F] [DecidableEq B]

/-- An edge between the copies of two blocks. -/
theorem Making.fits (hm : Making s chain fr l) {b b' : B} {src t : Vertex F} (hsrc : fr.map b = some src)
    (ht : fr.map b' = some t) {kind : EdgeKind} (hkind : kind = .taken ∨ kind = .notTaken) (called : List F) :
    Fits s chain ⟨kind, src, t, called, false⟩ := by
  obtain ⟨⟨i, rfl⟩, hcfg, hchain⟩ := hm.map b src hsrc
  obtain ⟨hcopy, hcfg', hchain'⟩ := hm.map b' t ht
  have hnot : kind ≠ .virtualCall := by
    rintro rfl
    rcases hkind with h | h <;> cases h
  exact
    { source := ⟨hcfg ▸ Option.some_ne_none _, rfl⟩
      target := hcfg' ▸ Option.some_ne_none _
      kinds := .inl hkind
      same := fun _ => hcfg.trans hcfg'.symm
      pass := fun _ => ⟨hchain'.trans hchain.symm, hcopy⟩
      call := fun h => absurd h hnot
      recursive := fun h => absurd h hnot
      returns := fun h => absurd h hnot }

/-- An edge that is no step between copies and no inlined call. -/
theorem Making.fits_other (hm : Making s chain fr l) {b : B} {src t : Vertex F} (hsrc : fr.map b = some src)
    {kind : EdgeKind} (hkind : kind = .call ∨ kind = .virtualReturn) (hsame : kind ≠ .call → s.cfgOf src = s.cfgOf t)
    (ht : kind = .call → s.cfgOf t ≠ none) (called : List F) : Fits s chain ⟨kind, src, t, called, false⟩ := by
  obtain ⟨⟨i, rfl⟩, hcfg, hchain⟩ := hm.map b src hsrc
  have hnot : kind ≠ .virtualCall := by
    rintro rfl
    rcases hkind with h | h <;> cases h
  have hpass : ¬ (kind = .taken ∨ kind = .notTaken) := by
    rintro (rfl | rfl) <;> rcases hkind with h | h <;> cases h
  refine
    { source := ⟨hcfg ▸ Option.some_ne_none _, rfl⟩
      target := ?_
      kinds := .inr (.inr hkind)
      same := hsame
      pass := fun h => absurd h hpass
      call := fun h => absurd h hnot
      recursive := fun h => absurd h hnot
      returns := fun h => absurd h hnot }
  rcases hkind with rfl | rfl
  · exact ht rfl
  · dsimp only
    rw [← hsame (by decide), hcfg]
    exact Option.some_ne_none _

end

/-- Where a block has inlined calls, they return to a copy of a block. -/
def ReturnsTo (fr : Frame F B) (called : List F) (gen : Generated F B) : Prop :=
  called ≠ [] → gen.fixExit = false ∧ ∀ v, gen.calledExit = some v → ∃ b, fr.map b = some v

theorem generateEdge_nests {b : B} {src : Vertex F} (hsrc : fr.map b = some src) {called : List F}
    {localInlining : Option Bool} {path : List Step} {gen gen' : Generated F B} {edge : E}
    (hkind : (c.cfg fr.cfg).kind edge = .call ∨ (c.cfg fr.cfg).target edge = (c.cfg fr.cfg).exit ∨
      (c.cfg fr.cfg).kind edge = .taken ∨ (c.cfg fr.cfg).kind edge = .notTaken)
    (htail : called ≠ [] → (c.cfg fr.cfg).kind edge ≠ .call → (c.cfg fr.cfg).target edge ≠ (c.cfg fr.cfg).exit)
    (h : Inlined gen.state chain) (hm : Making gen.state chain fr l) (hreturns : ReturnsTo fr called gen)
    (hgen : generateEdge c inl fr src called localInlining path gen edge = some gen') :
    (Inlined gen'.state chain ∧ Grown gen.state chain gen'.state chain) ∧ ReturnsTo fr called gen' := by
  unfold generateEdge at hgen
  split at hgen
  · split at hgen
    · cases hgen
      exact ⟨⟨h, .refl _ _⟩, hreturns⟩
    · split at hgen
      · cases hgen
        exact ⟨⟨h, .refl _ _⟩, hreturns⟩
      · split at hgen
        · obtain ⟨s', hnew, hs'⟩ := Option.bind_eq_some_iff.mp hgen
          cases hs'
          obtain ⟨t, ht, hsame, rfl⟩ := newEdge_eq hnew
          cases ht
          exact ⟨h.addEdge (hm.fits_other hsrc (.inl rfl) hsame (fun _ => Option.some_ne_none _) []), hreturns⟩
        · cases hgen
  · rename_i hcall
    split at hgen
    · rename_i hexit
      have hnone : called = [] := by
        by_contra hsome
        exact htail hsome hcall hexit
      rw [if_pos hnone] at hgen
      obtain ⟨s', hnew, hs'⟩ := Option.bind_eq_some_iff.mp hgen
      cases hs'
      obtain ⟨t, ht, hsame, rfl⟩ := newEdge_eq hnew
      cases ht
      obtain ⟨hinlined, hgrown⟩ := h.addEdge (hm.fits_other hsrc (.inr rfl) hsame (fun h => by cases h) [fr.cfg])
      obtain ⟨hinlined', hgrown'⟩ := hinlined.setReturnOf (Function.update gen.state.returnOf src fr.call.entry)
      exact ⟨⟨hinlined', hgrown.trans hgrown'⟩, fun hsome => absurd hnone hsome⟩
    · rename_i hexit
      have hpass := (hkind.resolve_left hcall).resolve_left hexit
      split at hgen
      · cases hgen
      · rename_i tgt htgt
        split at hgen
        · cases hgen
          refine ⟨⟨h, .refl _ _⟩, fun hsome => ⟨(hreturns hsome).1, fun v hv => ?_⟩⟩
          cases hv
          exact ⟨_, htgt⟩
        · obtain ⟨s', hnew, hs'⟩ := Option.bind_eq_some_iff.mp hgen
          cases hs'
          obtain ⟨t, ht, hsame, rfl⟩ := newEdge_eq hnew
          cases ht
          exact ⟨h.addEdge (hm.fits hsrc htgt hpass []), hreturns⟩

/-! ### The calls of a block -/

omit [DecidableEq B] in
/-- `VIRTUAL_RETURN_BLOCK` of a copy is another copy of the same function. -/
theorem Inlined.setReturn (h : Inlined s chain) (hm : Making s chain fr l) {b b' : B} {src t : Vertex F}
    (hsrc : fr.map b = some src) (ht : fr.map b' = some t) :
    Inlined { s with virtualReturnBlock := Function.update s.virtualReturnBlock src (some t) } chain ∧
      Grown s chain { s with virtualReturnBlock := Function.update s.virtualReturnBlock src (some t) } chain := by
  have hgrown : Grown s chain { s with virtualReturnBlock := Function.update s.virtualReturnBlock src (some t) } chain := by
    refine ⟨List.prefix_rfl, fun _ _ => rfl, fun v hv => ?_, fun _ h => h⟩
    dsimp only
    by_cases hsame : v = src
    · subst hsame
      rw [Function.update_self]
      exact Option.some_ne_none t
    · rwa [Function.update_of_ne hsame]
  refine ⟨⟨h.entry, h.exit, fun e he => (h.edges e he).grown hgrown, fun v r hr => ?_⟩, hgrown⟩
  dsimp only at hr
  by_cases hsame : v = src
  · subst hsame
    rw [Function.update_self] at hr
    cases hr
    obtain ⟨hcopy, hcfg, hchain⟩ := hm.map b v hsrc
    obtain ⟨hcopy', hcfg', hchain'⟩ := hm.map b' t ht
    exact ⟨hcfg ▸ Option.some_ne_none _, hcfg'.trans hcfg.symm, hchain'.trans hchain.symm, hcopy, hcopy'⟩
  · rw [Function.update_of_ne hsame] at hr
    exact h.back v r hr

omit [DecidableEq F] [DecidableEq B] in
/-- A call that goes back to a function on the stack. -/
theorem Making.fits_recursive (hm : Making s chain fr l) {b : B} {src t : Vertex F} (hsrc : fr.map b = some src)
    (hreturns : s.virtualReturnBlock src ≠ none) {call : Call F} (hcall : call ∈ fr.call :: fr.stack)
    (ht : call.entry = some t) (hsame : s.cfgOf src = s.cfgOf t) (called : List F) :
    Fits s chain ⟨.virtualCall, src, t, called, true⟩ := by
  obtain ⟨⟨i, rfl⟩, hcfg, hchain⟩ := hm.map b src hsrc
  exact
    { source := ⟨hcfg ▸ Option.some_ne_none _, rfl⟩
      target := by
        dsimp only
        rw [← hsame, hcfg]
        exact Option.some_ne_none _
      kinds := .inr (.inl rfl)
      same := fun _ => hsame
      pass := fun h => by rcases h with h | h <;> cases h
      call := fun _ h => by cases h
      recursive := fun _ _ => by
        dsimp only
        rw [hchain]
        exact hm.callers.around call hcall t ht (hsame.symm.trans hcfg)
      returns := fun _ j hj => by
        cases hj
        exact hreturns }

omit [DecidableEq B] in
theorem processCalls_nests {virtualize : Virtualize F B} (hvirtualize : Nests virtualize) {b : B} {src : Vertex F}
    (hsrc : fr.map b = some src) {calledExit : Option (Vertex F)}
    (hexit : ∀ v, calledExit = some v → ∃ b, fr.map b = some v) {localInlining : Option Bool} (called : List F) :
    ∀ s path s' path' chain, Inlined s chain → Making s chain fr l →
      processCalls virtualize fr src calledExit false localInlining called (s, path) = some (s', path') →
      Becomes s chain s' := by
  induction called with
  | nil =>
    intro s path s' path' chain h _ hcalls
    cases hcalls
    exact ⟨chain, h, .refl _ _⟩
  | cons g rest ih =>
    intro s path s' path' chain h hm hcalls
    unfold processCalls at hcalls
    dsimp only at hcalls
    split at hcalls
    · rename_i rec hrec
      obtain ⟨s₁, hnew, hcalls⟩ := Option.bind_eq_some_iff.mp hcalls
      obtain ⟨s₂, hnew', hcalls⟩ := Option.bind_eq_some_iff.mp hcalls
      cases hcalls
      obtain ⟨t, ht, hsame, rfl⟩ := newEdge_eq hnew
      obtain ⟨r, rfl, -, rfl⟩ := newEdge_eq hnew'
      obtain ⟨b', hb'⟩ := hexit r rfl
      obtain ⟨h₁, hgrown₁⟩ := h.setReturn hm hsrc hb'
      have hreturns : Function.update s.virtualReturnBlock src (some r) src ≠ none := by
        rw [Function.update_self]
        exact Option.some_ne_none r
      obtain ⟨h₂, hgrown₂⟩ := h₁.addEdge ((hm.grown hgrown₁).fits_recursive hsrc hreturns
        (List.mem_of_find?_eq_some hrec) ht (hsame (by decide)) [rec.cfg])
      obtain ⟨h₃, hgrown₃⟩ := h₂.addEdge (((hm.grown hgrown₁).grown hgrown₂).fits hsrc hb' (.inr rfl) [])
      exact ⟨chain, h₃, (hgrown₁.trans hgrown₂).trans hgrown₃⟩
    · split at hcalls
      · cases hcalls
      · rename_i exit
        obtain ⟨⟨s₁, path₁⟩, hv, hcalls⟩ := Option.bind_eq_some_iff.mp hcalls
        obtain ⟨b', hb'⟩ := hexit exit rfl
        obtain ⟨h₁, hgrown₁⟩ := h.setReturn hm hsrc hb'
        have hm₁ := hm.grown hgrown₁
        obtain ⟨⟨i, hi⟩, hcfg, hchain⟩ := hm₁.map b src hsrc
        have hready : Ready { s with virtualReturnBlock := Function.update s.virtualReturnBlock src (some exit) } chain
            (fr.call :: fr.stack) fr.vcfg src := by
          refine ⟨hcfg, by rw [hi]; rfl, fun j hj => ?_, hm₁.known, hchain ▸ hm₁.callers⟩
          rw [← hj]
          dsimp only
          rw [Function.update_self]
          exact Option.some_ne_none exit
        obtain ⟨chain₂, h₂, hgrown₂⟩ := hvirtualize _ _ _ _ _ _ _ _ _ _ chain h₁ hready hv
        obtain ⟨chain₃, h₃, hgrown₃⟩ := ih s₁ path₁ s' path' chain₂ h₂ (hm₁.grown hgrown₂) hcalls
        exact ⟨chain₃, h₃, (hgrown₁.trans hgrown₂).trans hgrown₃⟩

/-! ### The functions -/

omit [DecidableEq F] in
/-- The copies of the blocks of a function. -/
theorem translateBB_fold (f : F) (vcfg : F) (bbs : List B) (s : State F B) (map : B → Option (Vertex F)) :
    ∃ new : List (F × B), (bbs.foldl (translateBB c f vcfg) (s, map)).1 = { s with bbs := s.bbs ++ new } ∧
      (∀ x ∈ new, x.1 = vcfg) ∧ ∀ b v, (bbs.foldl (translateBB c f vcfg) (s, map)).2 b = some v → map b = some v ∨
        ∃ i, v = .copy i ∧ s.bbs.length ≤ i ∧ i < s.bbs.length + new.length := by
  induction bbs generalizing s map with
  | nil =>
    refine ⟨[], ?_, fun x hx => (List.not_mem_nil hx).elim, fun b v hv => .inl hv⟩
    rw [List.append_nil]
    rfl
  | cons bb bbs ih =>
    rw [List.foldl_cons]
    by_cases hend : c.isEnd f bb = true
    · have hskip : translateBB c f vcfg (s, map) bb = (s, map) := if_pos hend
      rw [hskip]
      exact ih s map
    · have hmake : translateBB c f vcfg (s, map) bb = ({ s with bbs := s.bbs ++ [(vcfg, bb)] },
          Function.update map bb (some (.copy s.bbs.length))) := if_neg hend
      rw [hmake]
      obtain ⟨new, hnew, hcfg, hmap⟩ := ih { s with bbs := s.bbs ++ [(vcfg, bb)] }
        (Function.update map bb (some (.copy s.bbs.length)))
      refine ⟨(vcfg, bb) :: new, ?_, fun x hx => ?_, fun b v hv => ?_⟩
      · rw [hnew]
        dsimp only
        rw [List.append_assoc]
        rfl
      · rcases List.mem_cons.mp hx with rfl | hx
        · rfl
        · exact hcfg x hx
      · rw [List.length_cons]
        rcases hmap b v hv with hold | ⟨i, rfl, hle, hlt⟩
        · by_cases hb : b = bb
          · subst hb
            rw [Function.update_self] at hold
            cases hold
            exact .inr ⟨_, rfl, Nat.le_refl _, by omega⟩
          · rw [Function.update_of_ne hb] at hold
            exact .inl hold
        · rw [List.length_append, List.length_singleton] at hle hlt
          exact .inr ⟨i, rfl, by omega, by omega⟩

theorem translateEdges_nests {virtualize : Virtualize F B} (hvirtualize : Nests virtualize) (hc : Scanned c)
    (hreturns : ReturnsFromCalls c) {t t' : Translation F B} {bb : B}
    (hbb : bb ∈ (c.cfg fr.cfg).bbs) (h : Inlined t.state chain)
    (hm : Making t.state chain fr l) (ht : translateEdges c inl virtualize fr t bb = some t') :
    Becomes t.state chain t'.state := by
  unfold translateEdges at ht
  split at ht
  · cases ht
    exact ⟨chain, h, .refl _ _⟩
  · rename_i hend
    obtain ⟨src, hsrc, ht⟩ := Option.bind_eq_some_iff.mp ht
    obtain ⟨s₁, hs₁, ht⟩ := Option.bind_eq_some_iff.mp ht
    obtain ⟨gen, hgen, ht⟩ := Option.bind_eq_some_iff.mp ht
    obtain ⟨⟨s₂, path₂⟩, hs₂, ht⟩ := Option.bind_eq_some_iff.mp ht
    cases ht
    have hknown : ∀ s chain', Grown t.state chain s chain' → ∀ call ∈ fr.call :: fr.stack, ∀ v, call.entry = some v →
        ∃ f ∈ s.cfgMap, s.cfgOf v = some f := fun s chain' hgrown => (hm.callers.grown hgrown).known
    have hbecomes₁ : Becomes t.state chain s₁ := by
      refine Loop.foldlM_keeps hs₁ ⟨chain, h, .refl _ _⟩ fun g _ s s' hs hcall => ?_
      unfold processCallEdge at hcall
      split at hcall
      · cases hcall
        exact hs
      · rename_i hnew
        rw [Bool.or_eq_true, not_or] at hnew
        refine hs.trans fun chain' h' hgrown' => ?_
        exact virtualizeCFG_nests hvirtualize h' (fun hmem => hnew.2 (decide_eq_true hmem)) (hknown s chain' hgrown') hcall
    obtain ⟨chain₁, h₁, hgrown₁⟩ := hbecomes₁
    generalize hcalled : (calledCFGs c fr.cfg bb).filter _ = called at hgen hs₂
    have hsub : called ≠ [] → ∃ e ∈ (c.cfg fr.cfg).outs bb, (c.cfg fr.cfg).kind e = .call := by
      intro hsome
      obtain ⟨g, hg⟩ := List.exists_mem_of_ne_nil _ hsome
      rw [← hcalled] at hg
      obtain ⟨e, he, hg⟩ := List.mem_filterMap.mp (List.mem_filter.mp hg).1
      split at hg
      · rename_i hkind
        exact ⟨e, he, hkind⟩
      · cases hg
    have hgen₂ : (Inlined gen.state chain₁ ∧ Grown s₁ chain₁ gen.state chain₁) ∧ ReturnsTo fr called gen := by
      refine Loop.foldlM_keeps (P := fun gen : Generated F B => (Inlined gen.state chain₁ ∧
        Grown s₁ chain₁ gen.state chain₁) ∧ ReturnsTo fr called gen) hgen
        ⟨⟨h₁, .refl _ _⟩, fun _ => ⟨rfl, fun v hv => by cases hv⟩⟩ fun edge hedge gen gen' hinv hstep => ?_
      obtain ⟨⟨hinlined, hgrown⟩, hto⟩ := hinv
      have hkind := hc.kinds fr.cfg bb hbb (Bool.eq_false_iff.mpr hend) edge hedge
      have htail : called ≠ [] → (c.cfg fr.cfg).kind edge ≠ .call → (c.cfg fr.cfg).target edge ≠ (c.cfg fr.cfg).exit := by
        intro hsome hnot
        obtain ⟨e, he, hcall⟩ := hsub hsome
        exact hreturns fr.cfg bb hbb e he hcall edge hedge hnot
      obtain ⟨⟨hinlined', hgrown'⟩, hto'⟩ := generateEdge_nests hsrc hkind htail hinlined
        ((hm.grown hgrown₁).grown hgrown) hto hstep
      exact ⟨⟨hinlined', hgrown.trans hgrown'⟩, hto'⟩
    obtain ⟨⟨hinlined, hgrown₂⟩, hto⟩ := hgen₂
    have hbecomes₂ : Becomes gen.state chain₁ s₂ := by
      by_cases hsome : called = []
      · rw [hsome] at hs₂
        cases hs₂
        exact ⟨chain₁, hinlined, .refl _ _⟩
      · obtain ⟨hfix, hexit⟩ := hto hsome
        rw [hfix] at hs₂
        exact processCalls_nests hvirtualize hsrc hexit called _ _ _ _ chain₁ hinlined
          ((hm.grown hgrown₁).grown hgrown₂) hs₂
    obtain ⟨chain₂, h₂, hgrown₃⟩ := hbecomes₂
    exact ⟨chain₂, h₂, (hgrown₁.trans hgrown₂).trans hgrown₃⟩

/-- New copies lie in the calls `l`. -/
def extend (s : State F B) (chain : Vertex F → List (VEdge F)) (l : List (VEdge F)) : Vertex F → List (VEdge F)
  | .copy i => if i < s.bbs.length then chain (.copy i) else l
  | v => chain v

section

omit [DecidableEq F] [DecidableEq B]

theorem grown_extend (s : State F B) (chain : Vertex F → List (VEdge F)) (l : List (VEdge F)) (new : List (F × B)) :
    Grown s chain { s with bbs := s.bbs ++ new } (extend s chain l) := by
  refine ⟨List.prefix_append _ _, fun v hv => ?_, fun _ h => h, fun _ h => h⟩
  cases v with
  | entry | exit => rfl
  | copy i =>
    refine if_pos ?_
    by_contra hge
    exact hv (congrArg (Option.map Prod.fst) (List.getElem?_eq_none (Nat.le_of_not_lt hge)))

theorem cfgOf_new (s : State F B) {new : List (F × B)} {i : ℕ} (hcfg : ∀ x ∈ new, x.1 = vcfg) (hle : s.bbs.length ≤ i)
    (hlt : i < s.bbs.length + new.length) : State.cfgOf { s with bbs := s.bbs ++ new } (.copy i) = some vcfg := by
  unfold State.cfgOf
  dsimp only
  have hi : i - s.bbs.length < new.length := by omega
  rw [List.getElem?_append_right hle, List.getElem?_eq_getElem hi, Option.map_some, hcfg _ (List.getElem_mem hi)]

end

theorem virtualize_nests (hc : Scanned c) (hreturns : ReturnsFromCalls c) (fuel : ℕ) :
    Nests (virtualize c inl fuel) := by
  induction fuel with
  | zero =>
    intro stack cfg vcfg entry exit localInlining path s s' path' chain _ _ hv
    cases hv
  | succ fuel ih =>
    intro stack cfg vcfg entry exit localInlining path s s' path' chain h hready hv
    unfold virtualize at hv
    obtain ⟨new, hbbs, hcfg, hmap⟩ := translateBB_fold (c := c) cfg vcfg (c.cfg cfg).bbs s fun _ => none
    generalize (c.cfg cfg).bbs.foldl (translateBB c cfg vcfg) (s, fun _ => none) = made at hv hbbs hmap
    obtain ⟨s₁, map⟩ := made
    dsimp only at hv hbbs hmap
    subst hbbs
    obtain ⟨first, hfirst⟩ := hc.entry cfg
    rw [hfirst] at hv
    obtain ⟨⟨s₂, callEntry⟩, hlink, hv⟩ := Option.bind_eq_some_iff.mp hv
    obtain ⟨last, hlast, hv⟩ := Option.bind_eq_some_iff.mp hv
    obtain ⟨t, ht, hv⟩ := Option.bind_eq_some_iff.mp hv
    cases hv
    rw [List.foldlM_cons] at hlink
    obtain ⟨⟨s₃, callEntry'⟩, hlink, hnil⟩ := Option.bind_eq_some_iff.mp hlink
    cases hnil
    obtain ⟨s₄, hnew, hlink⟩ := Option.bind_eq_some_iff.mp hlink
    cases hlink
    obtain ⟨v, hmapv, hsame, rfl⟩ := newEdge_eq hnew
    dsimp only at hmapv ht
    rw [hmapv] at ht
    have hold := hready.cfg ▸ Option.some_ne_none vcfg
    generalize hcall : (⟨.virtualCall, entry, v, [cfg], false⟩ : VEdge F) = call at ht
    have hgrown₁ := grown_extend s chain (call :: chain entry) new
    have hcopies : ∀ b w, map b = some w → (∃ i, w = .copy i) ∧
        State.cfgOf { s with bbs := s.bbs ++ new } w = some vcfg ∧
        extend s chain (call :: chain entry) w = call :: chain entry := by
      intro b w hw
      rcases hmap b w hw with hw | ⟨i, rfl, hle, hlt⟩
      · cases hw
      · exact ⟨⟨i, rfl⟩, cfgOf_new s hcfg hle hlt, if_neg (Nat.not_lt.mpr hle)⟩
    obtain ⟨hcopy, hvcfg, hvchain⟩ := hcopies _ v hmapv
    have hentry := hgrown₁.chain entry hold
    have hfits : Fits { s with bbs := s.bbs ++ new } (extend s chain (call :: chain entry)) call := by
      subst hcall
      exact
        { source := ⟨hgrown₁.cfgOf hold ▸ hold, hready.start⟩
          target := by
            dsimp only
            rw [hvcfg]
            exact Option.some_ne_none vcfg
          kinds := .inr (.inl rfl)
          same := hsame
          pass := fun hpass => by rcases hpass with hpass | hpass <;> cases hpass
          call := fun _ _ => ⟨hvchain.trans (by rw [hentry]), hcopy⟩
          recursive := fun _ hrec => by cases hrec
          returns := fun _ i hi => hready.returns i hi }
    obtain ⟨h₂, hgrown₂⟩ := (h.grown hgrown₁ rfl rfl).addEdge hfits
    have hgrown := hgrown₁.trans hgrown₂
    have hcallers := hready.callers.grown hgrown
    have hm : Making { s with bbs := s.bbs ++ new, edges := call :: s.edges } (extend s chain (call :: chain entry))
        ⟨stack, cfg, vcfg, exit, map, ⟨cfg, some v⟩⟩ (call :: chain entry) := by
      refine ⟨hcopies, hgrown.cfgMap _ hready.known, fun c' hc' w hw => ?_, fun c' hc' w hw hwcfg => ?_⟩
      · rcases List.mem_cons.mp hc' with rfl | hc'
        · cases hw
          exact ⟨vcfg, hgrown.cfgMap _ hready.known, hvcfg⟩
        · exact hcallers.known c' hc' w hw
      · rcases List.mem_cons.mp hc' with rfl | hc'
        · cases hw
          subst hcall
          exact ⟨_, List.mem_cons_self, rfl⟩
        · obtain ⟨e, he, htarget⟩ := hcallers.around c' hc' w hw hwcfg
          exact ⟨e, List.mem_cons_of_mem call he, htarget⟩
    obtain ⟨chain', h', hgrown'⟩ : Becomes { s with bbs := s.bbs ++ new, edges := call :: s.edges }
        (extend s chain (call :: chain entry)) t.state := by
      refine Loop.foldlM_keeps (P := fun t : Translation F B => Becomes _ _ t.state) ht ⟨_, h₂, .refl _ _⟩
        fun bb hbb t t' hinv hstep => ?_
      exact hinv.trans fun chain' h' hgrown' =>
        translateEdges_nests ih hc hreturns hbb h' (hm.grown hgrown') hstep
    exact ⟨chain', h', hgrown.trans hgrown'⟩

theorem processWorkSpace_inlined (hc : Scanned c) (hreturns : ReturnsFromCalls c) {entry : F}
    (hs : processWorkSpace c inl entry = some s) : ∃ chain, Inlined s chain := by
  have hinitial : Inlined (initial F B) fun _ => [] :=
    ⟨fun _ => rfl, fun _ => rfl, fun e he => (List.not_mem_nil he).elim, fun v r hr => by cases hr⟩
  obtain ⟨chain, h, -⟩ := virtualizeCFG_nests (virtualize_nests hc hreturns _) hinitial List.not_mem_nil
    (fun c' hc' => (List.not_mem_nil hc').elim) hs
  exact ⟨chain, h⟩

/-! ### The virtual CFG -/

/-- `CFGChecker`: each block but the entry has a predecessor. -/
def Checked (g : VirtualCFG F (Vertex F) (VEdge F)) : Prop := ∀ b ∈ g.cfg.bbs, b ≠ g.cfg.entry → g.cfg.ins b ≠ []

section

omit [DecidableEq B]

theorem mem_virtualCFG {f : F} {v : Vertex F} :
    v ∈ (s.virtualCFG f).cfg.bbs ↔ v = .entry f ∨ ((∃ i, v = .copy i) ∧ s.cfgOf v = some f) ∨ v = .exit f := by
  change v ∈ Vertex.entry f :: _ ++ _ ↔ _
  rw [List.cons_append, List.mem_cons, List.mem_append, List.mem_filter, List.mem_singleton, List.mem_map]
  refine or_congr_right (or_congr_left ⟨?_, ?_⟩)
  · rintro ⟨⟨i, -, rfl⟩, hcfg⟩
    exact ⟨⟨i, rfl⟩, of_decide_eq_true hcfg⟩
  · rintro ⟨⟨i, rfl⟩, hcfg⟩
    refine ⟨⟨i, List.mem_range.mpr ?_, rfl⟩, decide_eq_true hcfg⟩
    by_contra hge
    unfold State.cfgOf at hcfg
    dsimp only at hcfg
    rw [List.getElem?_eq_none (Nat.le_of_not_lt hge)] at hcfg
    cases hcfg

theorem mem_outs {f : F} {v : Vertex F} : e ∈ (s.virtualCFG f).cfg.outs v ↔ e ∈ s.edges ∧ e.source = v := by
  change e ∈ s.edges.filter _ ↔ _
  rw [List.mem_filter, decide_eq_true_eq]

/-- The blocks that the calls return to. -/
theorem Inlined.returnBlock_eq (h : Inlined s chain) {f : F} {e : VEdge F} (he : e ∈ s.edges) (hkind : e.kind = .virtualCall) :
    (∃ g, e.source = .entry g ∧ returnBlock (s.virtualCFG f) e.source = .exit f) ∨
    ∃ i r, e.source = .copy i ∧ s.virtualReturnBlock (.copy i) = some r ∧
      returnBlock (s.virtualCFG f) e.source = r := by
  have hfits := h.edges e he
  change (∃ g, _ ∧ (s.virtualReturnBlock e.source).getD (.exit f) = _) ∨
    ∃ i r, _ ∧ _ ∧ (s.virtualReturnBlock e.source).getD (.exit f) = _
  cases hsource : e.source with
  | entry g =>
    left
    refine ⟨g, rfl, ?_⟩
    cases hr : s.virtualReturnBlock (.entry g) with
    | none => rfl
    | some r =>
      obtain ⟨-, -, -, ⟨i, hi⟩, -⟩ := h.back _ r hr
      cases hi
  | exit g =>
    have hstart := hfits.source.2
    rw [hsource] at hstart
    cases hstart
  | copy i =>
    right
    obtain ⟨r, hr⟩ := Option.ne_none_iff_exists'.mp (hfits.returns hkind i hsource)
    refine ⟨i, r, rfl, hr, ?_⟩
    rw [hr]
    rfl

/-- A virtual CFG has nested calls. -/
theorem Inlined.nested (h : Inlined s chain) {f : F} (hchecked : Checked (s.virtualCFG f)) :
    Nested (s.virtualCFG f) chain := by
  have hmem : ∀ b ∈ (s.virtualCFG f).cfg.bbs, s.cfgOf b = some f := by
    intro b hb
    rcases mem_virtualCFG.mp hb with rfl | ⟨-, hcfg⟩ | rfl
    · rfl
    · exact hcfg
    · rfl
  have hback : ∀ b ∈ (s.virtualCFG f).cfg.bbs, ∀ e ∈ (s.virtualCFG f).cfg.outs b, Calls (s.virtualCFG f) e →
      returnBlock (s.virtualCFG f) b ∈ (s.virtualCFG f).cfg.bbs ∧ returnBlock (s.virtualCFG f) b ≠ .entry f := by
    intro b hb e he hcall
    obtain ⟨hedge, rfl⟩ := mem_outs.mp he
    rcases h.returnBlock_eq (f := f) hedge hcall.1 with ⟨g, -, hr⟩ | ⟨i, r, hsource, hsome, hr⟩
    · rw [hr]
      exact ⟨mem_virtualCFG.mpr (.inr (.inr rfl)), fun h => by cases h⟩
    · rw [hr]
      obtain ⟨-, hcfg, -, -, hcopy⟩ := h.back _ r hsome
      rw [← hsource, hmem _ hb] at hcfg
      refine ⟨mem_virtualCFG.mpr (.inr (.inl ⟨hcopy, hcfg⟩)), ?_⟩
      obtain ⟨j, rfl⟩ := hcopy
      exact fun h => by cases h
  constructor
  case entry => exact h.entry f
  case source =>
    intro b e he
    exact (mem_outs.mp he).2
  case ins =>
    intro b e he
    exact of_decide_eq_true (List.mem_filter.mp he).2
  case kinds =>
    intro b e he
    exact (h.edges e (mem_outs.mp he).1).kinds
  case pass =>
    intro b e he hpass
    obtain ⟨hedge, rfl⟩ := mem_outs.mp he
    exact ((h.edges e hedge).pass hpass).1
  case call =>
    intro b e he hcall
    obtain ⟨hedge, rfl⟩ := mem_outs.mp he
    exact ((h.edges e hedge).call hcall.1 hcall.2).1
  case recursive =>
    intro b e he hkind hrec
    obtain ⟨hedge, rfl⟩ := mem_outs.mp he
    exact (h.edges e hedge).recursive hkind hrec
  case back =>
    intro b e he hcall
    obtain ⟨hedge, rfl⟩ := mem_outs.mp he
    rcases h.returnBlock_eq (f := f) hedge hcall.1 with ⟨g, hsource, hr⟩ | ⟨i, r, hsource, hsome, hr⟩
    · rw [hr, hsource, h.exit, h.entry]
    · rw [hr, hsource]
      exact (h.back _ r hsome).2.2.1
  case connected =>
    intro b hb e he hcall
    obtain ⟨hmem', hentry⟩ := hback b hb e he hcall
    exact hchecked _ hmem' hentry
  case back_exit =>
    intro b hb e he hcall
    obtain ⟨hedge, rfl⟩ := mem_outs.mp he
    rcases h.returnBlock_eq (f := f) hedge hcall.1 with ⟨g, hsource, hr⟩ | ⟨i, r, hsource, hsome, hr⟩
    · rw [hr]
      have hcfg := hmem _ hb
      rw [hsource] at hcfg ⊢
      cases hcfg
      exact ⟨fun _ => rfl, fun _ => rfl⟩
    · rw [hr, hsource]
      obtain ⟨-, -, -, -, j, rfl⟩ := h.back _ r hsome
      exact ⟨fun h => (by cases h), fun h => (by cases h)⟩
  case mem =>
    intro b hb e he hkind
    obtain ⟨hedge, rfl⟩ := mem_outs.mp he
    have hfits := h.edges e hedge
    obtain ⟨hcopy, hcall⟩ : (∃ i, e.target = .copy i) ∧ e.kind ≠ .call := by
      rcases hkind with hpass | hcall
      · refine ⟨(hfits.pass hpass).2, fun hkind => ?_⟩
        rcases hpass with hpass | hpass <;> cases hpass.symm.trans hkind
      · exact ⟨(hfits.call hcall.1 hcall.2).2, fun hkind => by cases hcall.1.symm.trans hkind⟩
    refine ⟨mem_virtualCFG.mpr (.inr (.inl ⟨hcopy, ?_⟩)), ?_⟩
    · exact (hfits.same hcall).symm.trans (hmem _ hb)
    · change e.target ≠ .entry f
      obtain ⟨i, hi⟩ := hcopy
      rw [hi]
      exact fun h => by cases h
  case back_mem => exact hback
  case entry_mem => exact mem_virtualCFG.mpr (.inl rfl)

end

/-- Where no function ends with a call and no call returns to a block that was processed before, the traversal of a virtual CFG
comes to an end, each block is processed in the calls that contain it, those that some calls contain once, and the path of the
flow facts is empty again. -/
theorem call_path_is_call_string (c : Collection F B E) (inl : Inlining F B) (entry : F) (s : State F B) {A : Type}
    (address callAddress : Vertex F → A) (hc : Scanned c) (hreturns : ReturnsFromCalls c)
    (hs : processWorkSpace c inl entry = some s) (f : F) (hchecked : Checked (s.virtualCFG f))
    (hfresh : ∀ n st, run (s.virtualCFG f) n (ContextualProcessor.initial (s.virtualCFG f)) = .ok st →
      Fresh (s.virtualCFG f) st) :
    ∃ n st, run (s.virtualCFG f) n (ContextualProcessor.initial (s.virtualCFG f)) = .ok st ∧ st.todo = [] ∧
      (∀ before b after, st.events = before ++ .processBB b :: after →
        ∀ l, Within (s.virtualCFG f) b l ↔ l = pending before) ∧
      (processed st.events).Nodup ∧
      (∀ b, b ∈ processed st.events ↔ b ≠ .entry f ∧ ∃ l, Within (s.virtualCFG f) b l) ∧
      FlowFactLoader.path (s.virtualCFG f) address callAddress st.events = some [] := by
  obtain ⟨chain, hinlined⟩ := processWorkSpace_inlined hc hreturns hs
  have hg := hinlined.nested hchecked
  obtain ⟨n, st, hrun, htodo, h⟩ := run_ends hg address callAddress hfresh
  refine ⟨n, st, hrun, htodo, fun before b after hsplit l => ⟨fun hl => ?_, ?_⟩, h.nodup, h.processed_iff hg htodo, ?_⟩
  · exact hl.unique hg (h.right before b after hsplit)
  · rintro rfl
    exact h.right before b after hsplit
  · rw [h.path, h.pending_eq_nil htodo]
    rfl

/-! ### A call on one branch -/

/-- `if(c) g();` in `main`, where `outs` has the edges of the condition: 1 around the call and 2 to it. -/
def conditionalCall (outs : List (Fin 8)) : Collection Bool (Fin 8) (Fin 8) where
  cfgs := [false, true]
  cfg g :=
    { bbs := if g then [5, 6, 7] else [0, 1, 2, 3, 4]
      entry := if g then 5 else 0
      exit := if g then 7 else 4
      number := fun b => if g then b - 5 else b
      kind := fun e => [.virtual, .taken, .notTaken, .call, .notTaken, .virtual, .virtual, .virtual].getD e .none
      source := fun e => [0, 1, 1, 2, 2, 3, 5, 6].getD e 0
      target := fun e => [1, 3, 2, 5, 3, 4, 6, 7].getD e 0
      ins := fun b => [[], [0], [2], [4, 1], [5], [], [6], [7]].getD b []
      outs := fun b => [[0], outs, [4, 3], [5], [], [6], [7], []].getD b [] }
  calledCFG e := if e = 3 then some true else none
  isConditional b := b = 1

def inlineAll : Inlining Bool (Fin 8) := ⟨fun _ _ => none, fun _ _ => none, true, fun b => b.val, fun b => b.val⟩

set_option maxRecDepth 8000 in
theorem call_path_of_call_first : ∃ s, processWorkSpace (conditionalCall [2, 1]) inlineAll false = some s ∧
    ∃ n st, run (s.virtualCFG false) n (ContextualProcessor.initial (s.virtualCFG false)) = .ok st ∧ st.todo = [] ∧
      (∀ before b after, st.events = before ++ .processBB b :: after →
        ∀ l, Within (s.virtualCFG false) b l ↔ l = pending before) ∧
      (processed st.events).Nodup ∧
      (∀ b, b ∈ processed st.events ↔ b ≠ .entry false ∧ ∃ l, Within (s.virtualCFG false) b l) ∧
      FlowFactLoader.path (s.virtualCFG false) id id st.events = some [] := by
  have hscanned : Scanned (conditionalCall [2, 1]) := ⟨by decide, by decide⟩
  have hreturns : ReturnsFromCalls (conditionalCall [2, 1]) := by
    unfold ReturnsFromCalls
    decide
  refine ⟨_, rfl, call_path_is_call_string (conditionalCall [2, 1]) inlineAll false _ id id hscanned hreturns rfl false ?_ ?_⟩
  · unfold Checked
    decide
  · exact fresh_of_steps 13 rfl rfl (by decide)

set_option maxRecDepth 8000 in
/-- The block after the call is processed when the condition goes around the call, and when the call is left. -/
theorem processed_twice : (conditionalCall [1, 2]).WellFormed ∧ Scanned (conditionalCall [1, 2]) ∧
    ReturnsFromCalls (conditionalCall [1, 2]) ∧
    ∃ s, processWorkSpace (conditionalCall [1, 2]) inlineAll false = some s ∧ Checked (s.virtualCFG false) ∧
      ∃ st, run (s.virtualCFG false) 13 (ContextualProcessor.initial (s.virtualCFG false)) = .ok st ∧ st.todo = [] ∧
        (processed st.events).count (.copy 2) = 2 := by
  refine ⟨?_, ⟨by decide, by decide⟩, ?_, _, rfl, ?_, _, rfl, rfl, rfl⟩
  · constructor
    · intro f
      constructor <;> cases f <;> decide
    · decide
    · decide
    · decide
    · decide
    · unfold CFG.Flow
      decide
    · decide
    · decide
  · unfold ReturnsFromCalls
    decide
  · unfold Checked
    decide

end Otawa.Virtualizer
