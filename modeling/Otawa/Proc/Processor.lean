import Otawa.Lib.Fallible
import Otawa.Proc.Dependencies

/-!
# Running processors

A processor declares the features that it requires, uses, invalidates and provides. `process` runs the default
processors of the features that it needs, its own work, and then changes the features of the workspace.
`process_environment` says in which environment the work was done and what is provided after it.
-/

namespace Otawa

/-- `FeatureUsage::kind_t`. -/
inductive FeatureUsage.Kind where
  | none
  | require
  | provide
  | invalidate
  | use
  deriving DecidableEq, Repr

structure FeatureUsage (F : Type) where
  kind : FeatureUsage.Kind
  feature : F
  deriving DecidableEq, Repr

/-- The ways in which `process` does not return. -/
inductive Processor.Exception (F : Type) where
  | fault (fault : WorkSpace.Fault)
  | noProcessor
  | unavailable (feature : F)
  | notProvided (feature : F)
  | processor
  deriving DecidableEq

/-- The workspace, its cancellation bit, and all that the processors compute. -/
structure Processor.Env (F W : Type) where
  ws : WorkSpace F
  cancelled : Bool
  world : W

/-- The usages are in the order of `FeatureIter`, those of the base registrations at the end. The work of a processor
changes the features with calls to the workspace only. -/
structure Processor (F W : Type) where
  usages : List (FeatureUsage F)
  processWorkSpace : Processor.Env F W → Except (Processor.Exception F) (Processor.Env F W)
  keeps : ∀ env env', env.ws.Consistent → processWorkSpace env = .ok env' → env'.ws.Consistent

namespace Processor

variable {F W : Type} [DecidableEq F]

def declares (p : Processor F W) (kind : FeatureUsage.Kind) (feature : F) : Bool :=
  p.usages.any fun fuse => fuse.feature = feature ∧ fuse.kind = kind

def provides (p : Processor F W) (feature : F) : Bool := p.declares .provide feature

def requires (p : Processor F W) (feature : F) : Bool := p.declares .require feature

def invalidates (p : Processor F W) (feature : F) : Bool := p.declares .invalidate feature

def uses (p : Processor F W) (feature : F) : Bool :=
  p.usages.any fun fuse => fuse.feature = feature ∧ (fuse.kind = .require ∨ fuse.kind = .use)

/-- The list of required features. -/
def required (p : Processor F W) : List F :=
  p.usages.foldl (fun required fuse =>
    if fuse.kind = .require ∧ fuse.feature ∉ required then required ++ [fuse.feature] else required) []

/-- The invalidated features that satisfy the condition are removed. The calls of `invalidate` are not nested more
deeply than there are records. -/
def invalidateAll (p : Processor F W) (cond : F → Bool) (acc : WorkSpace F × List F) :
    Except WorkSpace.Fault (WorkSpace F × List F) :=
  p.usages.foldlM (fun (acc : WorkSpace F × List F) fuse =>
    if fuse.kind = .invalidate ∧ cond fuse.feature = true then do
      let ws ← acc.1.invalidate (acc.1.fresh + 1) fuse.feature
      return (ws, acc.2.erase fuse.feature)
    else return acc) acc

/-- `WorkSpace::require`; the default processor of a feature is that of its maker or of the configuration. -/
def require (maker : F → Option (Processor F W))
    (process : Processor F W → Env F W → Except (Exception F) (Env F W)) (env : Env F W) (feature : F) :
    Except (Exception F) (Env F W) :=
  if env.ws.isProvided feature then .ok env
  else match maker feature with
    | none => .error .noProcessor
    | some p => process p env

/-- The loop stops when the workspace is cancelled. -/
def requireAll (maker : F → Option (Processor F W))
    (process : Processor F W → Env F W → Except (Exception F) (Env F W)) (p : Processor F W) (env : Env F W) :
    Except (Exception F) (Env F W) :=
  p.usages.foldlM (fun env fuse =>
    if ¬ env.cancelled = true ∧ (fuse.kind = .require ∨ fuse.kind = .use) then
      match require maker process env fuse.feature with
      | .error .noProcessor => .error (.unavailable fuse.feature)
      | result => result
    else .ok env) env

/-- A needed feature that is not provided. -/
def lacking (p : Processor F W) (env : Env F W) : Option (FeatureUsage F) :=
  p.usages.find? fun fuse => (fuse.kind = .require ∨ fuse.kind = .use) ∧ ¬ env.ws.isProvided fuse.feature = true

def provideAll (p : Processor F W) (required : List F) (ws : WorkSpace F) : Except WorkSpace.Fault (WorkSpace F) :=
  p.usages.foldlM (fun ws fuse =>
    if fuse.kind = .provide then ws.provide fuse.feature (some required) else .ok ws) ws

/-- The configuration, the statistics and the cleaners do not change the features. -/
def process (maker : F → Option (Processor F W)) :
    ℕ → Processor F W → Env F W → Except (Exception F) (Env F W)
  | 0, _, _ => .error (.fault .nesting)
  | nesting + 1, p, env => do
    let (ws, required) ← (p.invalidateAll (fun feature => !p.uses feature) (env.ws, p.required)).mapError .fault
    let env ← p.requireAll maker (process maker nesting) { env with ws := ws }
    if env.cancelled = true then return env
    match p.lacking env with
    | some fuse => throw (.notProvided fuse.feature)
    | none =>
      let env ← p.processWorkSpace env
      let (ws, required) ← (p.invalidateAll p.uses (env.ws, required)).mapError .fault
      let ws ← (p.provideAll required ws).mapError .fault
      return { env with ws := ws }

/-- `Process::link` provides the features of the loader. -/
def load (features : List F) : Except WorkSpace.Fault (WorkSpace F) :=
  features.foldlM (fun ws feature => ws.provide feature none) .empty

/-- The environments of a session: the program is loaded, and processors are run. The workspace may be cancelled, and
its other data changed, at any time between. -/
inductive Reached (maker : F → Option (Processor F W)) : Env F W → Prop where
  | load {features : List F} {ws : WorkSpace F} (cancelled : Bool) (world : W) :
      Processor.load features = .ok ws → Reached maker ⟨ws, cancelled, world⟩
  | process {nesting : ℕ} {p : Processor F W} {env env' : Env F W} :
      Reached maker env → p.process maker nesting env = .ok env' → Reached maker env'
  | change {env : Env F W} (cancelled : Bool) (world : W) : Reached maker env → Reached maker ⟨env.ws, cancelled, world⟩

variable {p : Processor F W} {ws ws' : WorkSpace F} {feature : F} {required : List F}

/-! ### Calls that return -/

omit [DecidableEq F] in
theorem mapError_ok {ε ε' α : Type} {f : ε → ε'} {x : Except ε α} {a : α} : x.mapError f = .ok a ↔ x = .ok a := by
  cases x with
  | error e =>
    constructor
    · intro h
      cases h
    · intro h
      cases h
  | ok b => rw [Except.mapError, Except.ok.injEq, Except.ok.injEq]

theorem invalidate_ok (hws : ws.Consistent) (h : ws.invalidate (ws.fresh + 1) feature = .ok ws') :
    ws'.Consistent ∧ ws'.table = ws.table.invalidate feature := by
  obtain ⟨ws'', hinv, hws'', -, htable⟩ := WorkSpace.invalidate_table hws (Nat.lt_succ_self _) feature
  cases hinv.symm.trans h
  exact ⟨hws'', htable⟩

omit [DecidableEq F] in
/-- The features that a call of `provide` links to the new one are provided. -/
theorem required_of_addRequired {dep : Ref} (h : required.foldlM (fun ws f => ws.addRequired dep f) ws = .ok ws') :
    ∀ f ∈ required, ∃ r, ws.featMap f = some r := by
  have hinv := Fallible.foldlM_ok (fun done (ws' : WorkSpace F) => ws'.featMap = ws.featMap ∧
    ∀ f ∈ done, ∃ r, ws.featMap f = some r) h ⟨rfl, by simp⟩ ?_
  · exact hinv.2
  · rintro done f s s' - ⟨hmap, hdone⟩ hstep
    unfold WorkSpace.addRequired WorkSpace.getDependency at hstep
    rw [hmap] at hstep
    cases hf : ws.featMap f with
    | none =>
      rw [hf] at hstep
      cases hstep
    | some r =>
      rw [hf] at hstep
      obtain ⟨d, -, hstep⟩ := Fallible.bind_ok.mp hstep
      obtain ⟨d', -, hstep⟩ := Fallible.bind_ok.mp hstep
      cases hstep
      refine ⟨hmap, fun g hg => ?_⟩
      rcases List.mem_append.mp hg with hg | hg
      · exact hdone g hg
      · exact ⟨r, List.mem_singleton.mp hg ▸ hf⟩

theorem required_of_provide (hws : ws.Consistent) (hnot : ¬ ws.table.Provided feature)
    (h : ws.provide feature (some required) = .ok ws') : ∀ f ∈ required, ws.table.Provided f := by
  have hnone : ws.featMap feature = none := by
    rw [Option.eq_none_iff_forall_ne_some]
    exact fun dep hdep => hnot (hws.provided_table.mpr ⟨dep, hdep⟩)
  have hno : ¬ ws.isProvided feature = true := by
    rw [WorkSpace.isProvided, hnone]
    exact Bool.false_ne_true
  have hno' : ¬ ws.hasFeatDep feature = true := hno
  unfold WorkSpace.provide at h
  rw [if_neg hno, if_neg hno', WorkSpace.newFeatDep_eq hnone] at h
  obtain ⟨ws₁, hws₁, h⟩ := Fallible.bind_ok.mp h
  cases hws₁
  simp only [WorkSpace.getDependency, WorkSpace.featMap_extend] at h
  by_cases hself : feature ∈ required
  · rw [if_pos hself] at h
    cases h
  · rw [if_neg hself] at h
    intro f hf
    obtain ⟨r, hr⟩ := required_of_addRequired h f hf
    have hne : f ≠ feature := fun heq => hself (heq ▸ hf)
    exact hws.provided_table.mpr ⟨r, (WorkSpace.featMap_extend_of_ne hne).symm.trans hr⟩

theorem provide_ok (hws : ws.Consistent) (hnodup : required.Nodup)
    (h : ws.provide feature (some required) = .ok ws') :
    ws'.Consistent ∧ ∀ f, ws'.table.Provided f ↔ f = feature ∨ ws.table.Provided f := by
  by_cases hprov : ws.table.Provided feature
  · obtain ⟨dep, hdep⟩ := hws.provided_table.mp hprov
    have hsame : ws.provide feature (some required) = .ok ws := if_pos (by rw [WorkSpace.isProvided, hdep]; rfl)
    cases hsame.symm.trans h
    refine ⟨hws, fun f => ⟨.inr, ?_⟩⟩
    rintro (rfl | hf)
    · exact hprov
    · exact hf
  · obtain ⟨ws'', hprovide, hws'', -, htable⟩ := WorkSpace.provide_table hws feature (some required)
      (required_of_provide hws hprov h) hnodup
    cases hprovide.symm.trans h
    refine ⟨hws'', fun f => ?_⟩
    rw [htable, DepTable.provided_provide]

/-! ### The loops of `process` -/

theorem nodup_required (p : Processor F W) : p.required.Nodup := by
  unfold required
  suffices h : ∀ (usages : List (FeatureUsage F)) (l : List F), l.Nodup → (usages.foldl (fun required fuse =>
      if fuse.kind = .require ∧ fuse.feature ∉ required then required ++ [fuse.feature] else required) l).Nodup from
    h p.usages [] List.nodup_nil
  intro usages
  induction usages with
  | nil =>
    intro l hl
    exact hl
  | cons fuse usages ih =>
    intro l hl
    rw [List.foldl_cons]
    apply ih
    split
    case isTrue hnew =>
      rw [← List.concat_eq_append]
      exact hl.concat hnew.2
    case isFalse => exact hl

theorem declares_iff {kind : FeatureUsage.Kind} :
    p.declares kind feature = true ↔ ∃ fuse ∈ p.usages, fuse.feature = feature ∧ fuse.kind = kind := by
  simp [declares]

theorem uses_iff : p.uses feature = true ↔
    ∃ fuse ∈ p.usages, fuse.feature = feature ∧ (fuse.kind = .require ∨ fuse.kind = .use) := by
  simp [uses]

/-- After the loop no invalidated feature that satisfies the condition is provided, and no feature is new. -/
theorem invalidateAll_ok {cond : F → Bool} {required' : List F} (hws : ws.Consistent) (hnodup : required.Nodup)
    (h : p.invalidateAll cond (ws, required) = .ok (ws', required')) :
    ws'.Consistent ∧ required'.Nodup ∧ (∀ f, ws'.table.Provided f → ws.table.Provided f) ∧
      ∀ f, p.invalidates f = true → cond f = true → ¬ ws'.table.Provided f := by
  have hinv := Fallible.foldlM_ok (fun done (acc : WorkSpace F × List F) => acc.1.Consistent ∧ acc.2.Nodup ∧
    (∀ f, acc.1.table.Provided f → ws.table.Provided f) ∧
    ∀ fuse ∈ done, fuse.kind = .invalidate → cond fuse.feature = true → ¬ acc.1.table.Provided fuse.feature)
    h ⟨hws, hnodup, fun _ hf => hf, by simp⟩ ?_
  · obtain ⟨hws', hnodup', hold, hgone⟩ := hinv
    refine ⟨hws', hnodup', hold, fun f hf hcond => ?_⟩
    obtain ⟨fuse, hmem, rfl, hkind⟩ := declares_iff.mp hf
    exact hgone fuse hmem hkind hcond
  · rintro done fuse ⟨ws₁, req₁⟩ acc - ⟨hws₁, hnodup₁, hold, hgone⟩ hstep
    split at hstep
    case isTrue hinvalidate =>
      obtain ⟨ws₂, hws₂, hstep⟩ := Fallible.bind_ok.mp hstep
      cases hstep
      obtain ⟨hws₂, htable⟩ := invalidate_ok hws₁ hws₂
      have hsub : ∀ f, ws₂.table.Provided f → ws₁.table.Provided f := by
        intro f hf
        rw [htable, DepTable.invalidate, DepTable.provided_drop] at hf
        exact hf.1
      refine ⟨hws₂, hnodup₁.erase _, fun f hf => hold f (hsub f hf), fun fuse' hmem hkind hcond hprov => ?_⟩
      rcases List.mem_append.mp hmem with hmem | hmem
      · exact hgone fuse' hmem hkind hcond (hsub _ hprov)
      · rw [List.mem_singleton.mp hmem, htable, DepTable.invalidate, DepTable.provided_drop] at hprov
        exact hprov.2 Relation.ReflTransGen.refl
    case isFalse hno =>
      cases hstep
      refine ⟨hws₁, hnodup₁, hold, fun fuse' hmem hkind hcond => ?_⟩
      rcases List.mem_append.mp hmem with hmem | hmem
      · exact hgone fuse' hmem hkind hcond
      · rw [List.mem_singleton.mp hmem] at hkind hcond
        exact absurd ⟨hkind, hcond⟩ hno

/-- After the loop the provided features are those from before and the declared ones. -/
theorem provideAll_ok (hws : ws.Consistent) (hnodup : required.Nodup) (h : p.provideAll required ws = .ok ws') :
    ws'.Consistent ∧ ∀ f, ws'.table.Provided f ↔ ws.table.Provided f ∨ p.provides f = true := by
  have hinv := Fallible.foldlM_ok (fun done (ws' : WorkSpace F) => ws'.Consistent ∧
    ∀ f, ws'.table.Provided f ↔ ws.table.Provided f ∨ ∃ fuse ∈ done, fuse.feature = f ∧ fuse.kind = .provide)
    h ⟨hws, by simp⟩ ?_
  · refine ⟨hinv.1, fun f => ?_⟩
    rw [hinv.2, provides, declares_iff]
  · rintro done fuse ws₁ ws₂ - ⟨hws₁, hprov⟩ hstep
    split at hstep
    case isTrue hkind =>
      obtain ⟨hws₂, hprov₂⟩ := provide_ok hws₁ hnodup hstep
      refine ⟨hws₂, fun f => ?_⟩
      rw [hprov₂, hprov]
      constructor
      · rintro (rfl | hf | ⟨fuse', hmem, hfuse'⟩)
        · exact .inr ⟨fuse, List.mem_append_right _ List.mem_cons_self, rfl, hkind⟩
        · exact .inl hf
        · exact .inr ⟨fuse', List.mem_append_left _ hmem, hfuse'⟩
      · rintro (hf | ⟨fuse', hmem, hfuse'⟩)
        · exact .inr (.inl hf)
        · rcases List.mem_append.mp hmem with hmem | hmem
          · exact .inr (.inr ⟨fuse', hmem, hfuse'⟩)
          · exact .inl (List.mem_singleton.mp hmem ▸ hfuse'.1.symm)
    case isFalse hno =>
      cases hstep
      refine ⟨hws₁, fun f => (hprov f).trans (or_congr_right ?_)⟩
      constructor
      · rintro ⟨fuse', hmem, hfuse'⟩
        exact ⟨fuse', List.mem_append_left _ hmem, hfuse'⟩
      · rintro ⟨fuse', hmem, hfuse'⟩
        rcases List.mem_append.mp hmem with hmem | hmem
        · exact ⟨fuse', hmem, hfuse'⟩
        · exact absurd (List.mem_singleton.mp hmem ▸ hfuse'.2) hno

omit [DecidableEq F] in
/-- The loop keeps what the runs of the default processors keep. -/
theorem requireAll_ok {maker : F → Option (Processor F W)}
    {process : Processor F W → Env F W → Except (Exception F) (Env F W)} {env env' : Env F W}
    (hprocess : ∀ p env env', env.ws.Consistent → process p env = .ok env' → env'.ws.Consistent)
    (henv : env.ws.Consistent) (h : p.requireAll maker process env = .ok env') : env'.ws.Consistent := by
  refine Fallible.foldlM_ok (fun _ (env : Env F W) => env.ws.Consistent) h henv ?_
  rintro done fuse env₁ env₂ - henv₁ hstep
  split at hstep
  · have hrequire : require maker process env₁ fuse.feature = .ok env₂ := by
      split at hstep
      · cases hstep
      · exact hstep
    unfold require at hrequire
    split at hrequire
    · cases hrequire
      exact henv₁
    · split at hrequire
      · cases hrequire
      · exact hprocess _ _ _ henv₁ hrequire
  · cases hstep
    exact henv₁

/-! ### Runs of a processor -/

/-- The run of a processor that is not cancelled: the workspace `first` without the unused features it invalidates, the
environments where its work starts and finishes, and the one that it leaves. -/
structure Ran (maker : F → Option (Processor F W)) (p : Processor F W) (first : WorkSpace F)
    (start finish env : Env F W) : Prop where
  removed : ∀ f, p.invalidates f = true → p.uses f = false → first.isProvided f = false
  satisfied : ∃ nesting cancelled world, p.requireAll maker (process maker nesting) ⟨first, cancelled, world⟩ = .ok start
  work : p.processWorkSpace start = .ok finish
  used : ∀ f, p.requires f = true ∨ p.uses f = true → start.ws.isProvided f = true
  provided : ∀ f, p.provides f = true →
    env.ws.isProvided f = true ∧ ∀ g, env.ws.table.DependsOn f g → env.ws.isProvided g = true
  invalidated : ∀ f, p.invalidates f = true → env.ws.isProvided f = true →
    p.provides f = true ∨ (p.uses f = false ∧ finish.ws.isProvided f = true)

theorem uses_of_requires (h : p.requires feature = true) : p.uses feature = true := by
  obtain ⟨fuse, hmem, hfeature, hkind⟩ := declares_iff.mp h
  exact uses_iff.mpr ⟨fuse, hmem, hfeature, .inl hkind⟩

theorem isProvided_of_lacking {env : Env F W} (h : p.lacking env = none) (huses : p.uses feature = true) :
    env.ws.isProvided feature = true := by
  obtain ⟨fuse, hmem, rfl, hkind⟩ := uses_iff.mp huses
  have hfuse := List.find?_eq_none.mp h fuse hmem
  by_contra hno
  exact hfuse (decide_eq_true ⟨hkind, hno⟩)

variable {maker : F → Option (Processor F W)} {nesting : ℕ} {env env' : Env F W}

theorem process_ok (henv : env.ws.Consistent) (h : p.process maker nesting env = .ok env') :
    env'.ws.Consistent ∧ (env'.cancelled = true ∨ ∃ first start finish, Ran maker p first start finish env') := by
  induction nesting generalizing p env env' with
  | zero => cases h
  | succ nesting ih =>
    rw [process] at h
    obtain ⟨⟨first, required⟩, hfirst, h⟩ := Fallible.bind_ok.mp h
    obtain ⟨start, hstart, h⟩ := Fallible.bind_ok.mp h
    obtain ⟨hcons, hnodup, -, hremoved⟩ := invalidateAll_ok henv p.nodup_required (mapError_ok.mp hfirst)
    have hstartCons : start.ws.Consistent := by
      refine requireAll_ok (fun p env env' henv h => (ih henv h).1) ?_ hstart
      exact hcons
    split at h
    case isTrue hcancelled =>
      cases h
      exact ⟨hstartCons, .inl hcancelled⟩
    case isFalse =>
      cases hlacking : p.lacking start with
      | some fuse =>
        rw [hlacking] at h
        cases h
      | none =>
        rw [hlacking] at h
        obtain ⟨finish, hwork, h⟩ := Fallible.bind_ok.mp h
        obtain ⟨⟨ws₁, required₁⟩, hused, h⟩ := Fallible.bind_ok.mp h
        obtain ⟨ws₂, hprovide, h⟩ := Fallible.bind_ok.mp h
        cases h
        have hfinish := p.keeps start finish hstartCons hwork
        obtain ⟨hws₁, hnodup₁, hold, hgone⟩ := invalidateAll_ok hfinish hnodup (mapError_ok.mp hused)
        obtain ⟨hws₂, hprov⟩ := provideAll_ok hws₁ hnodup₁ (mapError_ok.mp hprovide)
        refine ⟨hws₂, .inr ⟨first, start, finish, ?_⟩⟩
        exact {
          removed := by
            intro f hf huses
            rw [← Bool.not_eq_true, hcons.isProvided_iff]
            exact hremoved f hf (by rw [huses]; rfl)
          satisfied := ⟨nesting, env.cancelled, env.world, hstart⟩
          work := hwork
          used := by
            rintro f (hf | hf)
            · exact isProvided_of_lacking hlacking (uses_of_requires hf)
            · exact isProvided_of_lacking hlacking hf
          provided := by
            intro f hf
            have hfprov : ws₂.table.Provided f := (hprov f).mpr (.inr hf)
            refine ⟨hws₂.isProvided_iff.mpr hfprov, fun g hdep => hws₂.isProvided_iff.mpr ?_⟩
            exact hws₂.closed_table.provided_of_dependsOn hdep hfprov
          invalidated := by
            intro f hf hfprov
            rcases (hprov f).mp (hws₂.isProvided_iff.mp hfprov) with hprov₁ | hdeclared
            · refine .inr ⟨?_, hfinish.isProvided_iff.mpr (hold f hprov₁)⟩
              rw [← Bool.not_eq_true]
              exact fun huses => hgone f hf huses hprov₁
            · exact .inl hdeclared }

theorem consistent_load {features : List F} (h : load features = .ok ws) : ws.Consistent := by
  refine Fallible.foldlM_ok (fun _ (ws : WorkSpace F) => ws.Consistent) h WorkSpace.consistent_empty ?_
  rintro done f ws ws' - hws hstep
  obtain ⟨ws'', hprovide, hws'', -⟩ := WorkSpace.provide_table hws f none (by simp) List.nodup_nil
  cases hprovide.symm.trans hstep
  exact hws''

theorem Reached.consistent (h : Reached maker env) : env.ws.Consistent := by
  induction h with
  | load cancelled world hload => exact consistent_load hload
  | process _ hprocess ih => exact (process_ok ih hprocess).1
  | change cancelled world _ ih => exact ih

/-- A processor that does nothing, as `NullProcessor`. -/
def null (usages : List (FeatureUsage F)) : Processor F Unit where
  usages := usages
  processWorkSpace := .ok
  keeps := by
    intro env env' henv h
    cases h
    exact henv

/-- The feature 0 is provided by a processor without needs, the feature 1 by one that requires 0. -/
def chain (feature : ℕ) : Option (Processor ℕ Unit) :=
  if feature = 0 then some (null [⟨.provide, 0⟩])
  else if feature = 1 then some (null [⟨.require, 0⟩, ⟨.provide, 1⟩])
  else none

end Processor

end Otawa
