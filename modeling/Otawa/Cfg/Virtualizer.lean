import Otawa.Cfg.Graph

/-!
# The virtualizer: inlining of function calls

`Virtualizer::virtualize` copies the blocks of a CFG into a virtual CFG, links the copies and, at each call,
the copy of the callee. A call that the inlining policy leaves alone is a CALL edge to the virtual CFG of the
callee, and a recursive call goes back to the copy that is being made.
-/

namespace Otawa

/-- `CFGCollection`. The CFG that a CALL edge leads to is the one its target is the entry of, if any. -/
structure Collection (F B E : Type) where
  cfgs : List F
  cfg : F → CFG B E
  calledCFG : E → Option F
  /-- `BasicBlock::isConditional`: the block ends with a conditional control instruction. -/
  isConditional : B → Bool

namespace Collection

variable {F B E : Type}

/-- The graphs as `CFG::scan` builds them: the entry is linked with the first block and nothing comes back to
it, nothing leaves the exit, and the blocks are those of one graph each. -/
structure WellFormed (c : Collection F B E) : Prop where
  cfg : ∀ f, (c.cfg f).WellFormed
  called_mem : ∀ e g, c.calledCFG e = some g → g ∈ c.cfgs
  disjoint : ∀ f g b, b ∈ (c.cfg f).bbs → b ∈ (c.cfg g).bbs → f = g
  entry_linked : ∀ f, (c.cfg f).outs (c.cfg f).entry ≠ []
  entry_first : ∀ f, ∀ e ∈ (c.cfg f).outs (c.cfg f).entry, (c.cfg f).kind e ≠ .call ∧
    (c.cfg f).target e ≠ (c.cfg f).exit
  entry_fresh : ∀ f a, ¬ (c.cfg f).Flow a (c.cfg f).entry
  exit_mem : ∀ f, (c.cfg f).exit ∈ (c.cfg f).bbs
  exit_last : ∀ f, (c.cfg f).outs (c.cfg f).exit = []

/-- `BasicBlock::isEnd`. -/
def isEnd [DecidableEq B] (c : Collection F B E) (f : F) (b : B) : Bool :=
  b = (c.cfg f).entry || b = (c.cfg f).exit

end Collection

namespace Virtualizer

/-- `ContextualStep`. -/
inductive Step where
  | function (address : ℕ)
  | call (address : ℕ)

/-- The flow facts that say which calls are inlined, by context: `NO_INLINE` on the first instruction of a
CFG, `INLINING_POLICY` on the one of the caller, and `VIRTUAL_INLINING`. -/
structure Inlining (F B : Type) where
  noInline : List Step → F → Option Bool
  inliningPolicy : List Step → F → Option Bool
  virtualInlining : Bool
  address : B → ℕ
  /-- The address of the call instruction of a block, or of its last control instruction. -/
  callAddress : B → ℕ

def Inlining.isInlined {F B : Type} (inl : Inlining F B) (cfg : F) (localInlining : Option Bool)
    (path : List Step) : Bool :=
  match inl.noInline path cfg with
  | some no => !no
  | none => localInlining.getD inl.virtualInlining

/-- The blocks of the virtual CFGs: the ends of the one of a function, and the copies in the order in which
they are made. -/
inductive Vertex (F : Type) where
  | entry (f : F)
  | exit (f : F)
  | copy (i : ℕ)
  deriving DecidableEq

def Vertex.isEntry {F : Type} : Vertex F → Bool
  | .entry _ => true
  | _ => false

def Vertex.isExit {F : Type} : Vertex F → Bool
  | .exit _ => true
  | _ => false

/-- An edge with its `CALLED_CFG` and `RECURSIVE_LOOP`. -/
structure VEdge (F : Type) where
  kind : EdgeKind
  source : Vertex F
  target : Vertex F
  calledCFG : List F
  recursive : Bool

/-- `call_t`. -/
structure Call (F : Type) where
  cfg : F
  entry : Option (Vertex F)

structure State (F B : Type) where
  /-- The copies: the virtual CFG each one belongs to and the block it is made of. -/
  bbs : List (F × B)
  edges : List (VEdge F)
  virtualReturnBlock : Vertex F → Option (Vertex F)
  returnOf : Vertex F → Option (Vertex F)
  cfgMap : List F

variable {F B E : Type} [DecidableEq F] [DecidableEq B]

/-- `BasicBlock::cfg`. -/
def State.cfgOf (s : State F B) : Vertex F → Option F
  | .entry f | .exit f => some f
  | .copy i => s.bbs[i]?.map Prod.fst

/-- `new Edge(source, target, kind)`, whose target is asserted not to be null and, but for calls, to be in the CFG
of the source. -/
def newEdge (s : State F B) (kind : EdgeKind) (source : Vertex F) (target : Option (Vertex F))
    (calledCFG : List F) (recursive : Bool) : Option (State F B) :=
  target.bind fun t =>
    if kind = .call ∨ s.cfgOf source = s.cfgOf t then
      some { s with edges := ⟨kind, source, t, calledCFG, recursive⟩ :: s.edges }
    else none

section

variable (c : Collection F B E) (inl : Inlining F B)

/-- `BasicBlock::OutIterator` over the calls: the called CFGs that are known. -/
def calledCFGs (f : F) (bb : B) : List F :=
  ((c.cfg f).outs bb).filterMap fun edge =>
    if (c.cfg f).kind edge = .call then c.calledCFG edge else none

/-- "Translate BB". -/
def translateBB (f vcfg : F) (acc : State F B × (B → Option (Vertex F))) (bb : B) :
    State F B × (B → Option (Vertex F)) :=
  if c.isEnd f bb then acc
  else ({ acc.1 with bbs := acc.1.bbs ++ [(vcfg, bb)] },
    Function.update acc.2 bb (some (.copy acc.1.bbs.length)))

/-- "Find local entry". -/
def linkEntry (f : F) (map : B → Option (Vertex F)) (entry : Vertex F)
    (acc : State F B × Option (Vertex F)) (edge : E) : Option (State F B × Option (Vertex F)) := do
  let target := map ((c.cfg f).target edge)
  let s ← newEdge acc.1 .virtualCall entry target [f] false
  return (s, target)

/-- The callers of a function on the stack, the innermost one first, and its copy in the making. -/
structure Frame (F B : Type) where
  stack : List (Call F)
  cfg : F
  vcfg : F
  exit : Vertex F
  map : B → Option (Vertex F)
  call : Call F

/-- What the edges out of a block say of its calls: the block the calls return to, and whether it is the exit
with a shared return edge. -/
structure Generated (F B : Type) where
  state : State F B
  calledExit : Option (Vertex F)
  fixExit : Bool

/-- "Generate the edges". -/
def generateEdge (fr : Frame F B) (src : Vertex F) (called : List F) (localInlining : Option Bool)
    (path : List Step) (gen : Generated F B) (edge : E) : Option (Generated F B) :=
  if (c.cfg fr.cfg).kind edge = .call then
    match c.calledCFG edge with
    | none => some gen
    | some g =>
      if inl.isInlined g localInlining path then some gen
      -- the virtual CFG of the callee, which is asserted to exist
      else if g ∈ gen.state.cfgMap then do
        let s ← newEdge gen.state .call src (some (.entry g)) [] false
        return { gen with state := s }
      else none
  else if (c.cfg fr.cfg).target edge = (c.cfg fr.cfg).exit then
    if called = [] then do
      let s ← newEdge gen.state .virtualReturn src (some fr.exit) [fr.cfg] false
      let s := { s with returnOf := Function.update s.returnOf src fr.call.entry }
      return { gen with state := s, calledExit := some fr.exit }
    else some { gen with calledExit := some fr.exit, fixExit := true }
  else
    match fr.map ((c.cfg fr.cfg).target edge) with
    | none => none
    | some tgt =>
      if (c.cfg fr.cfg).kind edge = .notTaken ∧ called ≠ [] then some { gen with calledExit := some tgt }
      else do
        let s ← newEdge gen.state ((c.cfg fr.cfg).kind edge) src (some tgt) [] false
        return { gen with state := s }

/-- The shared return edges of a callee return from its caller too. -/
def shareReturn (s : State F B) (exit : Vertex F) (called f : F) : State F B :=
  { s with edges := s.edges.map fun e =>
      if e.target = exit ∧ called ∈ e.calledCFG then { e with calledCFG := e.calledCFG ++ [f] } else e }

/-- `Virtualizer::virtualize` of a callee: stack, CFG, virtual CFG, entry, exit, inlining, path and state. -/
abbrev Virtualize (F B : Type) :=
  List (Call F) → F → F → Vertex F → Vertex F → Option Bool → List Step → State F B →
    Option (State F B × List Step)

/-- "Process each call". -/
def processCalls (virtualize : Virtualize F B) (fr : Frame F B) (src : Vertex F) (calledExit : Option (Vertex F))
    (fixExit : Bool) (localInlining : Option Bool) :
    List F → State F B × List Step → Option (State F B × List Step)
  | [], acc => some acc
  | g :: rest, (s, path) =>
    let s' := { s with virtualReturnBlock := Function.update s.virtualReturnBlock src calledExit }
    match (fr.call :: fr.stack).find? fun cur => cur.cfg = g with
    | some rec => do
      let s' ← newEdge s' .virtualCall src rec.entry [rec.cfg] true
      let s' ← newEdge s' .notTaken src calledExit [] false
      return (s', path)
    | none =>
      match calledExit with
      | none => none
      | some exit => do
        let (s', path) ← virtualize (fr.call :: fr.stack) g fr.vcfg src exit localInlining path s'
        let s' := if fixExit then shareReturn s' exit g fr.cfg else s'
        processCalls virtualize fr src calledExit fixExit localInlining rest (s', path)

/-- `Virtualizer::virtualizeCFG`. -/
def virtualizeCFG (virtualize : Virtualize F B) (stack : List (Call F)) (cfg : F) (localInlining : Option Bool)
    (s : State F B) : Option (State F B) := do
  let (s, _) ← virtualize stack cfg cfg (.entry cfg) (.exit cfg) localInlining [] { s with cfgMap := cfg :: s.cfgMap }
  return s

/-- "Process call edges": a CFG that is not inlined is virtualized on its own, once. -/
def processCallEdge (virtualize : Virtualize F B) (fr : Frame F B) (localInlining : Option Bool)
    (path : List Step) (s : State F B) (g : F) : Option (State F B) :=
  if inl.isInlined g localInlining path || g ∈ s.cfgMap then some s
  else virtualizeCFG virtualize (fr.call :: fr.stack) g localInlining s

structure Translation (F B : Type) where
  state : State F B
  localInlining : Option Bool
  path : List Step

/-- "Translate edges": the edges and the calls of a block. -/
def translateEdges (virtualize : Virtualize F B) (fr : Frame F B) (acc : Translation F B) (bb : B) :
    Option (Translation F B) :=
  if c.isEnd fr.cfg bb then some acc
  else do
    let localInlining := (inl.inliningPolicy acc.path fr.cfg).or acc.localInlining
    let src ← fr.map bb
    let called := (calledCFGs c fr.cfg bb).filter fun g => inl.isInlined g localInlining acc.path
    let s ← (calledCFGs c fr.cfg bb).foldlM (processCallEdge inl virtualize fr localInlining acc.path) acc.state
    let gen ← ((c.cfg fr.cfg).outs bb).foldlM (generateEdge c inl fr src called localInlining acc.path)
      ⟨s, none, false⟩
    let (s, path) ← processCalls virtualize fr src gen.calledExit gen.fixExit localInlining called
      (gen.state, acc.path)
    return ⟨s, localInlining, path⟩

/-- `Virtualizer::enteringCall`. -/
def enteringCall (s : State F B) (caller : Vertex F) (callee : B) (path : List Step) : List Step :=
  match caller with
  | .copy i =>
    match s.bbs[i]? with
    | some (_, bb) => .function (inl.address callee) :: .call (inl.callAddress bb) :: path
    | none => .function (inl.address callee) :: path
  | _ => .function (inl.address callee) :: path

/-- `Virtualizer::leavingCall`. -/
def leavingCall (back : Vertex F) (path : List Step) : List Step :=
  if back.isExit then path.tail else path.tail.tail

/-- `Virtualizer::virtualize`. -/
def virtualize : ℕ → Virtualize F B
  | 0, _, _, _, _, _, _, _, _ => none
  | fuel + 1, stack, cfg, vcfg, entry, exit, localInlining, path, s => do
    let (s, map) := (c.cfg cfg).bbs.foldl (translateBB c cfg vcfg) (s, fun _ => none)
    let (s, callEntry) ← ((c.cfg cfg).outs (c.cfg cfg).entry).foldlM (linkEntry c cfg map entry) (s, none)
    let last ← ((c.cfg cfg).outs (c.cfg cfg).entry).getLast?
    let fr := ⟨stack, cfg, vcfg, exit, map, ⟨cfg, callEntry⟩⟩
    let t ← (c.cfg cfg).bbs.foldlM (translateEdges c inl (virtualize fuel) fr)
      ⟨s, localInlining, enteringCall inl s entry ((c.cfg cfg).target last) path⟩
    return (t.state, leavingCall exit t.path)

def initial (F B : Type) : State F B :=
  ⟨[], [], fun _ => none, fun _ => none, []⟩

/-- `Virtualizer::processWorkSpace`, for the entry CFG. Nested calls of `virtualize` put another CFG on the
stack or, at most once each, virtualize it on its own. -/
def processWorkSpace (entry : F) : Option (State F B) :=
  virtualizeCFG (virtualize c inl (2 * c.cfgs.length + 1)) [] entry none (initial F B)

end

end Virtualizer

end Otawa
