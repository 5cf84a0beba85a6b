import Otawa.Proc.WorkSpace

/-!
# Runs of the feature dependencies

The invariant of the records, what each call makes of them, and that the calls of a run make the table of the
features with what they were built from.
-/

namespace Otawa.WorkSpace

variable {F : Type}

/-- The parents of the records. -/
def links (ws : WorkSpace F) : DepTable Ref :=
  fun dep => (ws.records dep).map FeatureDependency.parents

def name (ws : WorkSpace F) (dep : Ref) : Option F :=
  (ws.records dep).map FeatureDependency.feature

/-- The provided features with the features of their parents, in the order in which they were added. -/
def table (ws : WorkSpace F) : DepTable F :=
  fun feature => (ws.featMap feature).bind fun dep =>
    (ws.records dep).map fun d => d.parents.reverse.filterMap ws.name

/-- The links are symmetric and between records of provided features. A child is younger than its parents, and the
youngest child comes first. -/
structure Consistent (ws : WorkSpace F) : Prop where
  mapped : ∀ feature dep, ws.featMap feature = some dep ↔ ws.name dep = some feature
  used : ∀ dep d, ws.records dep = some d → ∀ p ∈ d.parents, ∃ dp, ws.records p = some dp ∧ dep ∈ dp.children
  using_ : ∀ dep d, ws.records dep = some d → ∀ c ∈ d.children, ∃ dc, ws.records c = some dc ∧ dep ∈ dc.parents
  older : ∀ dep d, ws.records dep = some d → ∀ p ∈ d.parents, p < dep
  distinct : ∀ dep d, ws.records dep = some d → d.parents.Nodup
  youngest : ∀ dep d, ws.records dep = some d → d.children.Pairwise (· > ·)
  fresh : ∀ dep d, ws.records dep = some d → dep < ws.fresh

open Classical in
noncomputable def outside (s : Set Ref) (l : List Ref) : List Ref :=
  l.filter (· ∉ s)

open Classical in
/-- The workspace without the records of a set. -/
noncomputable def without (ws : WorkSpace F) (s : Set Ref) : WorkSpace F where
  featMap feature := (ws.featMap feature).filter (· ∉ s)
  records dep := if dep ∈ s then none else
    (ws.records dep).map fun d => { d with children := outside s d.children }
  fresh := ws.fresh

variable {ws : WorkSpace F} {s s' : Set Ref} {dep p : Ref} {d : FeatureDependency F} {feature : F}

/-! ### Links -/

theorem name_eq (h : ws.records dep = some d) : ws.name dep = some d.feature := by
  rw [name, h]
  rfl

theorem exists_of_name (h : ws.name dep = some feature) : ∃ d, ws.records dep = some d ∧ d.feature = feature :=
  Option.map_eq_some_iff.mp h

theorem links_eq (h : ws.records dep = some d) : ws.links dep = some d.parents := by
  rw [links, h]
  rfl

theorem links_builtFrom (h : ws.records dep = some d) : ws.links.BuiltFrom dep p ↔ p ∈ d.parents := by
  unfold DepTable.BuiltFrom links
  simp [h]

theorem exists_of_builtFrom (h : ws.links.BuiltFrom dep p) : ∃ d, ws.records dep = some d ∧ p ∈ d.parents := by
  obtain ⟨l, hl, hp⟩ := h
  obtain ⟨d, hd, rfl⟩ := Option.map_eq_some_iff.mp hl
  exact ⟨d, hd, hp⟩

namespace Consistent

theorem record (hws : ws.Consistent) (h : ws.featMap feature = some dep) :
    ∃ d, ws.records dep = some d ∧ d.feature = feature :=
  exists_of_name ((hws.mapped feature dep).mp h)

theorem mem_children (hws : ws.Consistent) (h : ws.records dep = some d) {c : Ref} :
    c ∈ d.children ↔ ws.links.BuiltFrom c dep := by
  constructor
  · intro hc
    obtain ⟨dc, hdc, hmem⟩ := hws.using_ dep d h c hc
    exact (links_builtFrom hdc).mpr hmem
  · intro hbuilt
    obtain ⟨dc, hdc, hmem⟩ := exists_of_builtFrom hbuilt
    obtain ⟨d', hd', hc⟩ := hws.used c dc hdc dep hmem
    cases h.symm.trans hd'
    exact hc

theorem le_of_dependsOn (hws : ws.Consistent) (h : ws.links.DependsOn dep p) : p ≤ dep := by
  induction h with
  | refl => exact le_refl _
  | tail _ hbuilt ih =>
    obtain ⟨d, hd, hp⟩ := exists_of_builtFrom hbuilt
    exact (hws.older _ d hd _ hp).le.trans ih

end Consistent

/-! ### Removing records -/

theorem mem_outside {l : List Ref} : p ∈ outside s l ↔ p ∈ l ∧ p ∉ s := by
  simp [outside]

theorem outside_outside (s s' : Set Ref) (l : List Ref) : outside s' (outside s l) = outside (s ∪ s') l := by
  unfold outside
  rw [List.filter_filter]
  apply List.filter_congr
  intro c _
  by_cases h : c ∈ s <;> by_cases h' : c ∈ s' <;> simp [h, h']

theorem outside_of_forall {l : List Ref} (h : ∀ p ∈ l, p ∉ s) : outside s l = l := by
  unfold outside
  rw [List.filter_eq_self]
  intro p hp
  simpa using h p hp

theorem erase_eq_outside {l : List Ref} (hl : l.Nodup) (dep : Ref) : l.erase dep = outside {dep} l := by
  unfold outside
  rw [hl.erase_eq_filter]
  apply List.filter_congr
  intro p _
  by_cases h : p = dep <;> simp [h]

theorem featMap_without : (ws.without s).featMap feature = some dep ↔ ws.featMap feature = some dep ∧ dep ∉ s := by
  simp [without, Option.filter_eq_some_iff]

theorem records_without_of_mem (h : dep ∈ s) : (ws.without s).records dep = none :=
  if_pos h

theorem records_without_of_notMem (h : dep ∉ s) :
    (ws.without s).records dep = (ws.records dep).map fun d => { d with children := outside s d.children } :=
  if_neg h

theorem exists_of_records_without (h : (ws.without s).records dep = some d) :
    dep ∉ s ∧ ∃ d', ws.records dep = some d' ∧ d = { d' with children := outside s d'.children } := by
  by_cases hdep : dep ∈ s
  · rw [records_without_of_mem hdep] at h
    cases h
  · rw [records_without_of_notMem hdep] at h
    obtain ⟨d', hd', rfl⟩ := Option.map_eq_some_iff.mp h
    exact ⟨hdep, d', hd', rfl⟩

theorem name_without (h : dep ∉ s) : (ws.without s).name dep = ws.name dep := by
  rw [name, records_without_of_notMem h, Option.map_map]
  rfl

theorem links_without (ws : WorkSpace F) (s : Set Ref) : (ws.without s).links = ws.links.drop s := by
  funext dep
  by_cases h : dep ∈ s
  · rw [links, records_without_of_mem h, DepTable.drop_of_mem h]
    rfl
  · rw [links, records_without_of_notMem h, DepTable.drop_of_notMem h, Option.map_map]
    rfl

theorem without_without (ws : WorkSpace F) (s s' : Set Ref) : (ws.without s).without s' = ws.without (s ∪ s') := by
  apply WorkSpace.ext
  · funext feature
    ext dep
    rw [featMap_without, featMap_without, featMap_without, Set.mem_union, not_or, and_assoc]
  · funext dep
    by_cases h : dep ∈ s
    · have hfirst : (ws.without s).records dep = none := records_without_of_mem h
      rw [records_without_of_mem (s := s ∪ s') (.inl h)]
      by_cases h' : dep ∈ s'
      · exact records_without_of_mem h'
      · rw [records_without_of_notMem h', hfirst, Option.map_none]
    · by_cases h' : dep ∈ s'
      · rw [records_without_of_mem h', records_without_of_mem (s := s ∪ s') (.inr h')]
      · have hunion : dep ∉ s ∪ s' := fun hmem => hmem.elim h h'
        rw [records_without_of_notMem h', records_without_of_notMem h, records_without_of_notMem hunion]
        cases ws.records dep with
        | none => rfl
        | some d =>
          exact congrArg (fun l => some (FeatureDependency.mk d.feature d.parents l)) (outside_outside s s' _)
  · rfl

theorem without_empty (ws : WorkSpace F) : ws.without ∅ = ws := by
  apply WorkSpace.ext
  · funext feature
    ext dep
    simp [featMap_without]
  · funext dep
    rw [records_without_of_notMem (Set.notMem_empty dep)]
    cases ws.records dep with
    | none => rfl
    | some d =>
      rw [Option.map_some, outside_of_forall fun p _ => Set.notMem_empty p]
  · rfl

theorem Consistent.without (hws : ws.Consistent) (hs : ws.links.Upward s) : (ws.without s).Consistent where
  mapped := by
    intro feature dep
    rw [featMap_without, hws.mapped]
    by_cases h : dep ∈ s
    · simp [h, name, records_without_of_mem h]
    · simp [h, name_without h]
  used := by
    intro dep d h p hp
    obtain ⟨hdep, d', hd', rfl⟩ := exists_of_records_without h
    obtain ⟨dp, hdp, hmem⟩ := hws.used dep d' hd' p hp
    have hps : p ∉ s := fun hps => hdep (hs dep p ((links_builtFrom hd').mpr hp) hps)
    rw [records_without_of_notMem hps, hdp]
    exact ⟨_, rfl, mem_outside.mpr ⟨hmem, hdep⟩⟩
  using_ := by
    intro dep d h c hc
    obtain ⟨hdep, d', hd', rfl⟩ := exists_of_records_without h
    obtain ⟨hc, hcs⟩ := mem_outside.mp hc
    obtain ⟨dc, hdc, hmem⟩ := hws.using_ dep d' hd' c hc
    rw [records_without_of_notMem hcs, hdc]
    exact ⟨_, rfl, hmem⟩
  older := by
    intro dep d h
    obtain ⟨-, d', hd', rfl⟩ := exists_of_records_without h
    exact hws.older dep d' hd'
  distinct := by
    intro dep d h
    obtain ⟨-, d', hd', rfl⟩ := exists_of_records_without h
    exact hws.distinct dep d' hd'
  youngest := by
    intro dep d h
    obtain ⟨-, d', hd', rfl⟩ := exists_of_records_without h
    exact (hws.youngest dep d' hd').filter _
  fresh := by
    intro dep d h
    obtain ⟨-, d', hd', -⟩ := exists_of_records_without h
    exact hws.fresh dep d' hd'

/-! ### Invalidation -/

/-- The workspace whose records of a list lose a child. -/
def unlink (ws : WorkSpace F) (dep : Ref) (parents : List Ref) : WorkSpace F :=
  { ws with records := fun p =>
      if p ∈ parents then (ws.records p).map fun d => { d with children := d.children.erase dep } else ws.records p }

theorem unlink_parents (dep : Ref) {parents : List Ref} (hnodup : parents.Nodup)
    (hparents : ∀ p ∈ parents, ∃ d, ws.records p = some d ∧ d.children ≠ []) :
    parents.foldlM (fun ws parent => ws.removeChild dep parent) ws = .ok (ws.unlink dep parents) := by
  induction parents generalizing ws with
  | nil =>
    simp [unlink]
    rfl
  | cons parent parents ih =>
    obtain ⟨hparent, hnodup⟩ := List.nodup_cons.mp hnodup
    obtain ⟨p, hp, hchildren⟩ := hparents parent List.mem_cons_self
    rw [List.foldlM_cons, removeChild_eq hp hchildren]
    change List.foldlM _ (ws.write parent _) parents = _
    rw [ih hnodup]
    · refine congrArg Except.ok (WorkSpace.ext rfl (funext fun q => ?_) rfl)
      by_cases hq : q = parent
      · simp [unlink, hq, hparent, hp]
      · simp [unlink, hq, records_write_of_ne hq]
    · intro q hq
      have hne : q ≠ parent := fun heq => hparent (heq ▸ hq)
      rw [records_write_of_ne hne]
      exact hparents q (List.mem_cons_of_mem _ hq)

theorem delete_eq (hd : ws.records dep = some d) (hchildren : d.children = []) (hnodup : d.parents.Nodup)
    (hparents : ∀ p ∈ d.parents, ∃ dp, ws.records p = some dp ∧ dp.children ≠ []) :
    ws.delete dep =
      .ok { ws with records := Function.update (ws.unlink dep d.parents).records dep none } := by
  unfold delete
  rw [read_eq hd]
  change (if d.children = [] then _ else _) = _
  rw [if_pos hchildren]
  rw [unlink_parents dep hnodup hparents]
  rfl

/-- A record without children is deleted. -/
theorem delFeatDep_eq [DecidableEq F] (hws : ws.Consistent) (hf : ws.featMap feature = some dep)
    (hd : ws.records dep = some d) (hchildren : d.children = []) :
    ws.delFeatDep feature = .ok (ws.without {dep}) := by
  have hparents : ∀ p ∈ d.parents, ∃ dp, ws.records p = some dp ∧ dp.children ≠ [] := by
    intro p hp
    obtain ⟨dp, hdp, hmem⟩ := hws.used dep d hd p hp
    exact ⟨dp, hdp, List.ne_nil_of_mem hmem⟩
  unfold delFeatDep
  rw [hf]
  have hdelete := @delete_eq F { ws with featMap := Function.update ws.featMap feature none } dep d hd hchildren
    (hws.distinct dep d hd) hparents
  refine hdelete.trans ?_
  refine congrArg Except.ok (WorkSpace.ext ?_ ?_ rfl)
  · funext g
    ext p
    rw [featMap_without]
    change Function.update ws.featMap feature none g = some p ↔ _
    by_cases hg : g = feature
    · subst hg
      rw [Function.update_self, hf]
      constructor
      · intro h
        cases h
      · rintro ⟨h, hp⟩
        cases h
        exact absurd rfl hp
    · rw [Function.update_of_ne hg]
      refine (and_iff_left_of_imp fun hp hmem => hg ?_).symm
      -- the record has one feature only
      rw [Set.mem_singleton_iff.mp hmem, hws.mapped] at hp
      rw [hws.mapped] at hf
      exact Option.some.inj (hp.symm.trans hf)
  · funext p
    by_cases hp : p = dep
    · rw [hp, records_without_of_mem (Set.mem_singleton dep)]
      exact Function.update_self _ _ _
    · have hnot : p ∉ ({dep} : Set Ref) := hp
      rw [records_without_of_notMem hnot]
      refine (Function.update_of_ne hp _ _).trans ?_
      unfold unlink
      cases hdp : ws.records p with
      | none => simp [hdp]
      | some dp =>
        have hnodup : dp.children.Nodup := (hws.youngest p dp hdp).imp fun h => (Nat.ne_of_lt h).symm
        rw [Option.map_some, ← erase_eq_outside hnodup]
        simp only [hdp, Option.map_some]
        split
        case isTrue => rfl
        case isFalse hmem =>
          have hchild : dep ∉ dp.children := by
            rw [hws.mem_children hdp, links_builtFrom hd]
            exact hmem
          rw [List.erase_of_not_mem hchild]

/-- The records that are taken away when the dependents of a list are invalidated. -/
theorem invalidate_children [DecidableEq F] {nesting : ℕ} {cs : List Ref}
    (hinvalidate : ∀ ws' : WorkSpace F, ws'.Consistent → ws'.fresh = ws.fresh → ∀ c ∈ cs, ∀ f,
      ws'.featMap f = some c → ws'.invalidate nesting f = .ok (ws'.without (ws'.links.dependents c)))
    (hws : ws.Consistent) (hs : ws.links.Upward s) (hcs : ∀ c ∈ cs, c ∉ s ∧ ∃ d, ws.records c = some d)
    (hyoungest : cs.Pairwise (· > ·)) :
    cs.foldlM (fun ws dep => do
        let d ← ws.read dep
        WorkSpace.invalidate nesting ws d.feature) (ws.without s) =
      .ok (ws.without (s ∪ {b | ∃ c ∈ cs, b ∈ ws.links.dependents c})) := by
  induction cs generalizing s with
  | nil =>
    simp
    rfl
  | cons c cs ih =>
    obtain ⟨hcnot, d, hd⟩ := hcs c List.mem_cons_self
    obtain ⟨hlt, hyoungest⟩ := List.pairwise_cons.mp hyoungest
    have hread : (ws.without s).records c = some { d with children := outside s d.children } := by
      rw [records_without_of_notMem hcnot, hd, Option.map_some]
    have hmap : (ws.without s).featMap d.feature = some c :=
      featMap_without.mpr ⟨(hws.mapped _ _).mpr (name_eq hd), hcnot⟩
    have hstep := hinvalidate _ (hws.without hs) rfl c List.mem_cons_self _ hmap
    rw [without_without, links_without, DepTable.union_dependents_drop hs] at hstep
    rw [List.foldlM_cons, read_eq hread]
    change (WorkSpace.invalidate nesting (ws.without s) d.feature >>= _) = _
    rw [hstep]
    change List.foldlM _ _ cs = _
    rw [ih (fun ws hws heq c' hc' => hinvalidate ws hws heq c' (List.mem_cons_of_mem c hc'))
      (hs.union (ws.links.upward_dependents c)) ?_ hyoungest]
    · refine congrArg (fun s => Except.ok (ws.without s)) ?_
      ext b
      simp [or_assoc]
    · intro c' hc'
      obtain ⟨hnot, hd'⟩ := hcs c' (List.mem_cons_of_mem c hc')
      refine ⟨fun hmem => hmem.elim hnot fun hdep => ?_, hd'⟩
      -- an older child does not depend on a younger one
      exact Nat.lt_irrefl _ ((hlt c' hc').trans_le (hws.le_of_dependsOn hdep))

/-- Invalidating a feature takes away the records that depend on its record. -/
theorem invalidate_eq [DecidableEq F] {nesting : ℕ} (hws : ws.Consistent) (hf : ws.featMap feature = some dep)
    (hnesting : ws.fresh ≤ nesting + dep) :
    ws.invalidate nesting feature = .ok (ws.without (ws.links.dependents dep)) := by
  induction nesting generalizing ws feature dep with
  | zero =>
    obtain ⟨d, hd, -⟩ := hws.record hf
    exact absurd (hws.fresh dep d hd) (Nat.not_lt_of_le (hnesting.trans_eq (Nat.zero_add dep)))
  | succ nesting ih =>
    obtain ⟨d, hd, hfeature⟩ := hws.record hf
    have hchild : ∀ c ∈ d.children, dep < c ∧ ∃ dc, ws.records c = some dc := by
      intro c hc
      obtain ⟨dc, hdc, hmem⟩ := hws.using_ dep d hd c hc
      exact ⟨hws.older c dc hdc dep hmem, dc, hdc⟩
    have hinvalidate : ∀ ws' : WorkSpace F, ws'.Consistent → ws'.fresh = ws.fresh → ∀ c ∈ d.children, ∀ f,
        ws'.featMap f = some c → ws'.invalidate nesting f = .ok (ws'.without (ws'.links.dependents c)) := by
      intro ws' hws' hfresh c hc f hfc
      apply ih hws' hfc
      have hlt : dep + 1 ≤ c := (hchild c hc).1
      calc ws'.fresh = ws.fresh := hfresh
        _ ≤ nesting + 1 + dep := hnesting
        _ = nesting + (dep + 1) := by rw [Nat.add_assoc, Nat.add_comm 1 dep]
        _ ≤ nesting + c := Nat.add_le_add_left hlt nesting
    have hfold := invalidate_children hinvalidate hws (s := ∅) (fun _ _ _ h => h.elim)
      (fun c hc => ⟨Set.notMem_empty c, (hchild c hc).2⟩) (hws.youngest dep d hd)
    rw [without_empty, Set.empty_union] at hfold
    set s : Set Ref := {b | ∃ c ∈ d.children, b ∈ ws.links.dependents c} with hs
    have hupward : ws.links.Upward s := by
      rintro b a hbuilt ⟨c, hc, hdep⟩
      exact ⟨c, hc, ws.links.upward_dependents c b a hbuilt hdep⟩
    have hdep : dep ∉ s := by
      rintro ⟨c, hc, hmem⟩
      exact Nat.lt_irrefl _ ((hchild c hc).1.trans_le (hws.le_of_dependsOn hmem))
    have hrecord : (ws.without s).records dep = some { d with children := outside s d.children } := by
      rw [records_without_of_notMem hdep, hd, Option.map_some]
    have hnone : outside s d.children = [] := by
      rw [List.eq_nil_iff_forall_not_mem]
      intro c hc
      obtain ⟨hc, hcs⟩ := mem_outside.mp hc
      exact hcs ⟨c, hc, Relation.ReflTransGen.refl⟩
    rw [WorkSpace.invalidate, getDependency, hf]
    change (ws.read dep >>= _) = _
    rw [read_eq hd]
    change (d.children.foldlM (fun ws dep => do
      let d ← ws.read dep
      WorkSpace.invalidate nesting ws d.feature) ws >>= fun ws => ws.delFeatDep feature) = _
    rw [hfold]
    change (ws.without s).delFeatDep feature = _
    rw [delFeatDep_eq (hws.without hupward) (featMap_without.mpr ⟨hf, hdep⟩) hrecord hnone, without_without]
    refine congrArg (fun s => Except.ok (ws.without s)) ?_
    rw [ws.links.dependents_eq dep]
    ext b
    constructor
    · rintro (⟨c, hc, hmem⟩ | hb)
      · exact .inr ⟨c, (hws.mem_children hd).mp hc, hmem⟩
      · exact .inl hb
    · rintro (hb | ⟨c, hc, hmem⟩)
      · exact .inr hb
      · exact .inl ⟨c, (hws.mem_children hd).mpr hc, hmem⟩

/-! ### Tables -/

theorem table_eq (feature : F) : ws.table feature =
    (ws.featMap feature).bind fun dep => (ws.links dep).map fun l => l.reverse.filterMap ws.name := by
  unfold table links
  cases ws.featMap feature with
  | none => rfl
  | some dep => rw [Option.bind_some, Option.bind_some, Option.map_map]; rfl

variable {f g : F} {r : Ref}

theorem table_none (hg : ws.featMap g = none) : ws.table g = none := by
  rw [table_eq, hg]
  rfl

theorem table_without_of_forall (hg : ∀ r, ws.featMap g = some r → r ∈ s) : (ws.without s).table g = none := by
  apply table_none
  rw [Option.eq_none_iff_forall_ne_some]
  intro r hr
  obtain ⟨hr, hnot⟩ := featMap_without.mp hr
  exact hnot (hg r hr)

theorem table_congr {ws' : WorkSpace F} (hmap : ws'.featMap g = ws.featMap g)
    (hlinks : ∀ r, ws.featMap g = some r → ws'.links r = ws.links r ∧
      ∀ p, ws.links.BuiltFrom r p → ws'.name p = ws.name p) : ws'.table g = ws.table g := by
  rw [table_eq, table_eq, hmap]
  cases hg : ws.featMap g with
  | none => rfl
  | some r =>
    obtain ⟨hlink, hname⟩ := hlinks r hg
    rw [Option.bind_some, Option.bind_some, hlink]
    cases hl : ws.links r with
    | none => rfl
    | some parents =>
      exact congrArg some (List.filterMap_congr fun p hp => hname p ⟨parents, hl, List.mem_reverse.mp hp⟩)

theorem table_without_of_notMem (hs : ws.links.Upward s) (hg : ws.featMap g = some r) (hr : r ∉ s) :
    (ws.without s).table g = ws.table g := by
  apply table_congr
  · rw [hg]
    exact featMap_without.mpr ⟨hg, hr⟩
  · intro r' hr'
    cases hg.symm.trans hr'
    rw [links_without, DepTable.drop_of_notMem hr]
    exact ⟨rfl, fun p hp => name_without fun hps => hr (hs r p hp hps)⟩

namespace Consistent

section

variable (hws : ws.Consistent)
include hws

theorem featMap_inj (hf : ws.featMap f = some dep) (hg : ws.featMap g = some dep) : f = g :=
  Option.some.inj (((hws.mapped f dep).mp hf).symm.trans ((hws.mapped g dep).mp hg))

theorem provided_table : ws.table.Provided f ↔ ∃ dep, ws.featMap f = some dep := by
  rw [DepTable.Provided, table_eq]
  constructor
  · intro h
    obtain ⟨l, hl⟩ := Option.isSome_iff_exists.mp h
    obtain ⟨dep, hdep, -⟩ := Option.bind_eq_some_iff.mp hl
    exact ⟨dep, hdep⟩
  · rintro ⟨dep, hdep⟩
    obtain ⟨d, hd, -⟩ := hws.record hdep
    rw [hdep, Option.bind_some, links_eq hd]
    rfl

theorem isProvided_iff : ws.isProvided f = true ↔ ws.table.Provided f := by
  rw [hws.provided_table, isProvided, Option.isSome_iff_exists]

theorem builtFrom_table (hg : ws.featMap g = some r) :
    ws.table.BuiltFrom g f ↔ ∃ p, ws.featMap f = some p ∧ ws.links.BuiltFrom r p := by
  unfold DepTable.BuiltFrom
  rw [table_eq, hg, Option.bind_some]
  constructor
  · rintro ⟨l, hl, hf⟩
    obtain ⟨parents, hparents, rfl⟩ := Option.map_eq_some_iff.mp hl
    obtain ⟨p, hp, hname⟩ := List.mem_filterMap.mp hf
    exact ⟨p, (hws.mapped f p).mpr hname, parents, hparents, List.mem_reverse.mp hp⟩
  · rintro ⟨p, hp, parents, hparents, hmem⟩
    rw [hparents]
    exact ⟨_, rfl, List.mem_filterMap.mpr ⟨p, List.mem_reverse.mpr hmem, (hws.mapped f p).mp hp⟩⟩

theorem closed_table : ws.table.Closed := by
  intro g f hbuilt
  have hg : ws.table.Provided g := by
    obtain ⟨l, hl, -⟩ := hbuilt
    rw [DepTable.Provided, hl]
    rfl
  obtain ⟨r, hr⟩ := hws.provided_table.mp hg
  obtain ⟨p, hp, -⟩ := (hws.builtFrom_table hr).mp hbuilt
  exact hws.provided_table.mpr ⟨p, hp⟩

theorem dependsOn_table (hf : ws.featMap f = some dep) (hg : ws.featMap g = some r) :
    ws.table.DependsOn g f ↔ ws.links.DependsOn r dep := by
  constructor
  · intro h
    induction h using Relation.ReflTransGen.head_induction_on generalizing r with
    | refl =>
      cases hf.symm.trans hg
      exact Relation.ReflTransGen.refl
    | head hbuilt _ ih =>
      obtain ⟨p, hp, hlink⟩ := (hws.builtFrom_table hg).mp hbuilt
      exact Relation.ReflTransGen.head hlink (ih hp)
  · intro h
    induction h using Relation.ReflTransGen.head_induction_on generalizing g with
    | refl =>
      cases hws.featMap_inj hf hg
      exact Relation.ReflTransGen.refl
    | @head r p hlink _ ih =>
      obtain ⟨d, hd, hp⟩ := exists_of_builtFrom hlink
      obtain ⟨dp, hdp, -⟩ := hws.used r d hd p hp
      have hname : ws.featMap dp.feature = some p := (hws.mapped _ p).mpr (name_eq hdp)
      exact Relation.ReflTransGen.head ((hws.builtFrom_table hg).mpr ⟨p, hname, hlink⟩) (ih hname)

end

end Consistent

/-- What `invalidate` does to the table. -/
theorem invalidate_table [DecidableEq F] {nesting : ℕ} (hws : ws.Consistent) (hnesting : ws.fresh < nesting)
    (feature : F) :
    ∃ ws', ws.invalidate nesting feature = .ok ws' ∧ ws'.Consistent ∧ ws'.fresh = ws.fresh ∧
      ws'.table = ws.table.invalidate feature := by
  cases hf : ws.featMap feature with
  | none =>
    obtain ⟨nesting, rfl⟩ := Nat.exists_eq_add_one_of_ne_zero (Nat.ne_zero_of_lt hnesting)
    have hnot : ¬ ws.table.Provided feature := by
      rw [hws.provided_table, hf]
      exact fun ⟨dep, hdep⟩ => Option.some_ne_none dep hdep.symm
    refine ⟨ws, ?_, hws, rfl, (hws.closed_table.invalidate_of_not hnot).symm⟩
    rw [WorkSpace.invalidate, getDependency, hf]
  | some dep =>
    have hupward := ws.links.upward_dependents dep
    refine ⟨_, invalidate_eq hws hf (hnesting.le.trans (Nat.le_add_right _ _)), hws.without hupward, rfl, ?_⟩
    funext g
    by_cases hmem : g ∈ ws.table.dependents feature
    · rw [DepTable.invalidate, DepTable.drop_of_mem hmem]
      exact table_without_of_forall fun r hr => (hws.dependsOn_table hf hr).mp hmem
    · rw [DepTable.invalidate, DepTable.drop_of_notMem hmem]
      cases hg : ws.featMap g with
      | none =>
        rw [table_none hg]
        exact table_without_of_forall fun r hr => absurd (hg.symm.trans hr) (Option.some_ne_none r).symm
      | some r =>
        exact table_without_of_notMem hupward hg fun hr => hmem ((hws.dependsOn_table hf hg).mpr hr)

/-! ### Providing features -/

/-- The feature has the youngest record; it is built from the features of the list so far. -/
structure Building (ws : WorkSpace F) (feature : F) (dep : Ref) (l : List F) (ws' : WorkSpace F) : Prop where
  consistent : ws'.Consistent
  own : ws'.featMap feature = some dep
  youngest : ws'.fresh = dep + 1
  fresh : ws'.fresh = ws.fresh + 1
  before : ∀ f, f ≠ feature → ws'.featMap f = ws.featMap f
  built : ws'.table feature = some l
  others : ∀ f, f ≠ feature → ws'.table f = ws.table f

section Provide

variable [DecidableEq F] {ws' : WorkSpace F} {l : List F}

/-- The workspace with an empty record for a feature that has none. -/
def extend (ws : WorkSpace F) (feature : F) : WorkSpace F where
  featMap := Function.update ws.featMap feature (some ws.fresh)
  records := Function.update ws.records ws.fresh (some ⟨feature, [], []⟩)
  fresh := ws.fresh + 1

theorem newFeatDep_eq (h : ws.featMap feature = none) : ws.newFeatDep feature = .ok (ws.extend feature) :=
  if_pos h

section Extend

theorem featMap_extend : (ws.extend feature).featMap feature = some ws.fresh :=
  Function.update_self _ _ _

theorem featMap_extend_of_ne {f : F} (hf : f ≠ feature) : (ws.extend feature).featMap f = ws.featMap f :=
  Function.update_of_ne hf _ _

theorem records_extend : (ws.extend feature).records ws.fresh = some ⟨feature, [], []⟩ :=
  Function.update_self _ _ _

theorem records_extend_of_ne {r : Ref} (hr : r ≠ ws.fresh) : (ws.extend feature).records r = ws.records r :=
  Function.update_of_ne hr _ _

theorem name_extend_of_ne {r : Ref} (hr : r ≠ ws.fresh) : (ws.extend feature).name r = ws.name r := by
  rw [name, name, records_extend_of_ne hr]

theorem Consistent.records_extend_old (hws : ws.Consistent) {r : Ref} (hd : ws.records r = some d) :
    (ws.extend feature).records r = some d :=
  (records_extend_of_ne (Nat.ne_of_lt (hws.fresh r d hd))).trans hd

theorem exists_of_extend {r : Ref} (hd : (ws.extend feature).records r = some d) :
    (r = ws.fresh ∧ d = ⟨feature, [], []⟩) ∨ ws.records r = some d := by
  by_cases hr : r = ws.fresh
  · rw [hr, records_extend] at hd
    exact .inl ⟨hr, (Option.some.inj hd).symm⟩
  · exact .inr ((records_extend_of_ne hr).symm.trans hd)

theorem Consistent.extend (hws : ws.Consistent) (h : ws.featMap feature = none) : (ws.extend feature).Consistent where
  mapped := by
    intro f r
    by_cases hr : r = ws.fresh
    · rw [hr, name_eq records_extend]
      by_cases hf : f = feature
      · rw [hf, featMap_extend]
        exact iff_of_true rfl rfl
      · rw [featMap_extend_of_ne hf, hws.mapped]
        constructor
        · intro hfresh
          obtain ⟨d, hd, -⟩ := exists_of_name hfresh
          exact absurd (hws.fresh _ d hd) (Nat.lt_irrefl _)
        · intro heq
          exact absurd (Option.some.inj heq).symm hf
    · rw [name_extend_of_ne hr]
      by_cases hf : f = feature
      · rw [hf, ← hws.mapped, h, featMap_extend]
        constructor
        · intro heq
          exact absurd (Option.some.inj heq).symm hr
        · intro heq
          cases heq
      · rw [featMap_extend_of_ne hf, hws.mapped]
  used := by
    intro r d hd p hp
    rcases exists_of_extend hd with ⟨-, rfl⟩ | hd
    · cases hp
    · obtain ⟨dp, hdp, hmem⟩ := hws.used r d hd p hp
      exact ⟨dp, hws.records_extend_old hdp, hmem⟩
  using_ := by
    intro r d hd c hc
    rcases exists_of_extend hd with ⟨-, rfl⟩ | hd
    · cases hc
    · obtain ⟨dc, hdc, hmem⟩ := hws.using_ r d hd c hc
      exact ⟨dc, hws.records_extend_old hdc, hmem⟩
  older := by
    intro r d hd p hp
    rcases exists_of_extend hd with ⟨-, rfl⟩ | hd
    · cases hp
    · exact hws.older r d hd p hp
  distinct := by
    intro r d hd
    rcases exists_of_extend hd with ⟨-, rfl⟩ | hd
    · exact List.nodup_nil
    · exact hws.distinct r d hd
  youngest := by
    intro r d hd
    rcases exists_of_extend hd with ⟨-, rfl⟩ | hd
    · exact List.Pairwise.nil
    · exact hws.youngest r d hd
  fresh := by
    intro r d hd
    rcases exists_of_extend hd with ⟨rfl, -⟩ | hd
    · exact Nat.lt_succ_self _
    · exact Nat.lt_succ_of_lt (hws.fresh r d hd)

end Extend

theorem building_new (hws : ws.Consistent) (h : ws.featMap feature = none) :
    ∃ ws', ws.newFeatDep feature = .ok ws' ∧ Building ws feature ws.fresh [] ws' := by
  refine ⟨_, newFeatDep_eq h, ?_⟩
  exact {
    consistent := hws.extend h
    own := featMap_extend
    youngest := rfl
    fresh := rfl
    before := fun _ => featMap_extend_of_ne
    built := by
      rw [table_eq, featMap_extend, Option.bind_some, links_eq records_extend]
      rfl
    others := by
      intro f hf
      refine table_congr (featMap_extend_of_ne hf) fun r hr => ?_
      obtain ⟨d, hd, -⟩ := hws.record hr
      refine ⟨by rw [links_eq (hws.records_extend_old hd), links_eq hd], fun p hp => name_extend_of_ne (Nat.ne_of_lt ?_)⟩
      exact (hws.older r d hd p ((links_builtFrom hd).mp hp)).trans (hws.fresh r d hd) }

/-- The workspace where the record `dep` has the further parent `p`. -/
def link (ws : WorkSpace F) (dep p : Ref) (d dp : FeatureDependency F) : WorkSpace F :=
  (ws.write p { dp with children := dep :: dp.children }).write dep { d with parents := p :: d.parents }

section Link

variable {dp : FeatureDependency F}

section

variable (hlt : p < dep) (hd : ws.records dep = some d) (hdp : ws.records p = some dp)
include hlt hd hdp

omit [DecidableEq F]

theorem add_eq : ws.add dep p = .ok (ws.link dep p d dp) := by
  unfold add
  rw [read_eq hdp]
  change (read (ws.write p _) dep >>= _) = _
  rw [read_eq ((records_write_of_ne (Nat.ne_of_gt hlt)).trans hd)]
  rfl

theorem records_link (r : Ref) :
    (ws.link dep p d dp).records r = (ws.records r).map fun dr =>
      ⟨dr.feature, if r = dep then p :: dr.parents else dr.parents,
        if r = p then dep :: dr.children else dr.children⟩ := by
  unfold link
  by_cases hr : r = dep
  · subst hr
    rw [records_write_self, hd, Option.map_some, if_pos rfl, if_neg (Nat.ne_of_gt hlt)]
  · rw [records_write_of_ne hr]
    by_cases hr' : r = p
    · subst hr'
      rw [records_write_self, hdp, Option.map_some, if_neg hr, if_pos rfl]
    · rw [records_write_of_ne hr']
      cases ws.records r with
      | none => rfl
      | some dr => rw [Option.map_some, if_neg hr, if_neg hr']

theorem name_link : (ws.link dep p d dp).name = ws.name := by
  funext r
  rw [name, records_link hlt hd hdp, Option.map_map]
  rfl

theorem links_link {r : Ref} (hr : r ≠ dep) : (ws.link dep p d dp).links r = ws.links r := by
  rw [links, records_link hlt hd hdp, Option.map_map]
  refine congrArg (Option.map · _) (funext fun dr => ?_)
  exact if_neg hr

/-- The record `dep` has the parent `p` more, and `p` the child `dep`. -/
theorem record_link {r : Ref}
    {dr : FeatureDependency F} (hdr : ws.records r = some dr) :
    ∃ dn, (ws.link dep p d dp).records r = some dn ∧ (∀ q, q ∈ dn.parents ↔ (r = dep ∧ q = p) ∨ q ∈ dr.parents) ∧
      ∀ c, c ∈ dn.children ↔ (r = p ∧ c = dep) ∨ c ∈ dr.children := by
  rw [records_link hlt hd hdp, hdr]
  refine ⟨_, rfl, fun q => ?_, fun c => ?_⟩
  · dsimp only
    split
    case isTrue heq => rw [List.mem_cons, and_iff_right heq]
    case isFalse hne => exact (or_iff_right fun h => hne h.1).symm
  · dsimp only
    split
    case isTrue heq => rw [List.mem_cons, and_iff_right heq]
    case isFalse hne => exact (or_iff_right fun h => hne h.1).symm

theorem exists_of_link {r : Ref}
    {dn : FeatureDependency F} (hdn : (ws.link dep p d dp).records r = some dn) : ∃ dr, ws.records r = some dr ∧
      dn = ⟨dr.feature, if r = dep then p :: dr.parents else dr.parents,
        if r = p then dep :: dr.children else dr.children⟩ := by
  rw [records_link hlt hd hdp] at hdn
  obtain ⟨dr, hdr, heq⟩ := Option.map_eq_some_iff.mp hdn
  exact ⟨dr, hdr, heq.symm⟩

/-- What the linked records have is what `record_link` says. -/
theorem mem_of_link {r : Ref}
    {dn : FeatureDependency F} (hdn : (ws.link dep p d dp).records r = some dn) : ∃ dr, ws.records r = some dr ∧
      (∀ q ∈ dn.parents, (r = dep ∧ q = p) ∨ q ∈ dr.parents) ∧ ∀ c ∈ dn.children, (r = p ∧ c = dep) ∨ c ∈ dr.children := by
  obtain ⟨dr, hdr, -⟩ := exists_of_link hlt hd hdp hdn
  obtain ⟨dn', hdn', hparents, hchildren⟩ := record_link hlt hd hdp hdr
  cases hdn.symm.trans hdn'
  exact ⟨dr, hdr, fun q => (hparents q).mp, fun c => (hchildren c).mp⟩

end

omit [DecidableEq F] in
/-- Linking the youngest record to an older one. -/
theorem Consistent.link (hws : ws.Consistent) (hlt : p < dep) (hd : ws.records dep = some d)
    (hdp : ws.records p = some dp) (hyoungest : ws.fresh = dep + 1)
    (hnot : p ∉ d.parents) : (ws.link dep p d dp).Consistent where
  mapped := by
    intro f r
    rw [name_link hlt hd hdp]
    exact hws.mapped f r
  used := by
    intro r dn hdn q hq
    obtain ⟨dr, hdr, hparents, -⟩ := mem_of_link hlt hd hdp hdn
    rcases hparents q hq with ⟨rfl, rfl⟩ | hq
    · obtain ⟨dq, hdq, -, hchildren⟩ := record_link hlt hd hdp hdp
      exact ⟨dq, hdq, (hchildren _).mpr (.inl ⟨rfl, rfl⟩)⟩
    · obtain ⟨dq, hdq, hmem⟩ := hws.used r dr hdr q hq
      obtain ⟨dq', hdq', -, hchildren⟩ := record_link hlt hd hdp hdq
      exact ⟨dq', hdq', (hchildren r).mpr (.inr hmem)⟩
  using_ := by
    intro r dn hdn c hc
    obtain ⟨dr, hdr, -, hchildren⟩ := mem_of_link hlt hd hdp hdn
    rcases hchildren c hc with ⟨rfl, rfl⟩ | hc
    · obtain ⟨dc, hdc, hparents, -⟩ := record_link hlt hd hdp hd
      exact ⟨dc, hdc, (hparents _).mpr (.inl ⟨rfl, rfl⟩)⟩
    · obtain ⟨dc, hdc, hmem⟩ := hws.using_ r dr hdr c hc
      obtain ⟨dc', hdc', hparents, -⟩ := record_link hlt hd hdp hdc
      exact ⟨dc', hdc', (hparents r).mpr (.inr hmem)⟩
  older := by
    intro r dn hdn q hq
    obtain ⟨dr, hdr, hparents, -⟩ := mem_of_link hlt hd hdp hdn
    rcases hparents q hq with ⟨rfl, rfl⟩ | hq
    · exact hlt
    · exact hws.older r dr hdr q hq
  distinct := by
    intro r dn hdn
    obtain ⟨dr, hdr, rfl⟩ := exists_of_link hlt hd hdp hdn
    dsimp only
    split
    case isTrue heq =>
      subst heq
      cases hd.symm.trans hdr
      exact List.nodup_cons.mpr ⟨hnot, hws.distinct r d hd⟩
    case isFalse => exact hws.distinct r dr hdr
  youngest := by
    intro r dn hdn
    obtain ⟨dr, hdr, rfl⟩ := exists_of_link hlt hd hdp hdn
    dsimp only
    split
    case isTrue heq =>
      subst heq
      refine List.pairwise_cons.mpr ⟨fun c hc => ?_, hws.youngest r dr hdr⟩
      -- the children that are there have older records, as `dep` is no child yet
      obtain ⟨dc, hdc, hmem⟩ := hws.using_ r dr hdr c hc
      refine Nat.lt_of_le_of_ne (Nat.le_of_lt_succ ((hws.fresh c dc hdc).trans_eq hyoungest)) fun heq => hnot ?_
      subst heq
      cases hd.symm.trans hdc
      exact hmem
    case isFalse => exact hws.youngest r dr hdr
  fresh := by
    intro r dn hdn
    obtain ⟨dr, hdr, -⟩ := exists_of_link hlt hd hdp hdn
    exact hws.fresh r dr hdr

end Link

omit [DecidableEq F] in
theorem building_add (hb : Building ws feature dep l ws') {f : F} (hf : f ≠ feature)
    (hprov : ∃ r, ws.featMap f = some r) (hnew : f ∉ l) :
    ∃ ws'', ws'.addRequired dep f = .ok ws'' ∧ Building ws feature dep (l ++ [f]) ws'' := by
  obtain ⟨p, hp⟩ := hprov
  rw [← hb.before f hf] at hp
  have hws := hb.consistent
  obtain ⟨d, hd, -⟩ := hws.record hb.own
  obtain ⟨dp, hdp, hname⟩ := hws.record hp
  have hlt : p < dep := by
    refine Nat.lt_of_le_of_ne (Nat.le_of_lt_succ ((hws.fresh p dp hdp).trans_eq hb.youngest)) fun heq => hf ?_
    exact hws.featMap_inj hp (heq ▸ hb.own)
  have hbuilt : d.parents.reverse.filterMap ws'.name = l := by
    have h := hb.built
    rw [table_eq, hb.own, Option.bind_some, links_eq hd] at h
    exact Option.some.inj h
  have hnot : p ∉ d.parents := by
    intro hmem
    refine hnew (hbuilt ▸ List.mem_filterMap.mpr ⟨p, List.mem_reverse.mpr hmem, ?_⟩)
    rw [name_eq hdp, hname]
  have hself : (ws'.link dep p d dp).records dep = some ⟨d.feature, p :: d.parents, d.children⟩ := by
    rw [records_link hlt hd hdp, hd, Option.map_some, if_pos rfl, if_neg (Nat.ne_of_gt hlt)]
  refine ⟨ws'.link dep p d dp, ?_, ?_⟩
  · rw [addRequired, getDependency, hp]
    exact add_eq hlt hd hdp
  · exact {
      consistent := hws.link hlt hd hdp hb.youngest hnot
      own := hb.own
      youngest := hb.youngest
      fresh := hb.fresh
      before := hb.before
      built := by
        have hown : (ws'.link dep p d dp).featMap feature = some dep := hb.own
        rw [table_eq, hown, Option.bind_some, links_eq hself, name_link hlt hd hdp, Option.map_some,
          List.reverse_cons, List.filterMap_append, hbuilt]
        simp [name_eq hdp, hname]
      others := by
        intro g hg
        rw [← hb.others g hg]
        refine table_congr rfl fun r hr => ⟨links_link hlt hd hdp fun heq => hg ?_, fun q _ => ?_⟩
        · exact hws.featMap_inj hr (heq ▸ hb.own)
        · rw [name_link hlt hd hdp] }

omit [DecidableEq F] in
theorem building_all (hb : Building ws feature dep l ws') {required : List F}
    (hrequired : ∀ f ∈ required, f ≠ feature ∧ ∃ r, ws.featMap f = some r) (hnodup : (l ++ required).Nodup) :
    ∃ ws'', required.foldlM (fun ws rfeature => ws.addRequired dep rfeature) ws' = .ok ws'' ∧
      Building ws feature dep (l ++ required) ws'' := by
  induction required generalizing l ws' with
  | nil =>
    rw [List.append_nil]
    exact ⟨ws', rfl, hb⟩
  | cons f required ih =>
    obtain ⟨hf, hprov⟩ := hrequired f List.mem_cons_self
    have hnew : f ∉ l := fun hmem => (List.nodup_append.mp hnodup).2.2 f hmem f List.mem_cons_self rfl
    obtain ⟨ws₁, hadd, hb₁⟩ := building_add hb hf hprov hnew
    rw [List.append_cons] at hnodup ⊢
    rw [List.foldlM_cons, hadd]
    exact ih hb₁ (fun g hg => hrequired g (List.mem_cons_of_mem f hg)) hnodup

/-- What `provide` does to the table. -/
theorem provide_table (hws : ws.Consistent) (feature : F) (required : Option (List F))
    (hrequired : ∀ f ∈ required.getD [], ws.table.Provided f) (hnodup : (required.getD []).Nodup) :
    ∃ ws', ws.provide feature required = .ok ws' ∧ ws'.Consistent ∧ ws'.fresh ≤ ws.fresh + 1 ∧
      ws'.table = ws.table.provide feature (required.getD []) := by
  by_cases hprov : ws.table.Provided feature
  · obtain ⟨dep, hdep⟩ := hws.provided_table.mp hprov
    refine ⟨ws, ?_, hws, Nat.le_succ _, (DepTable.provide_of_provided hprov).symm⟩
    exact if_pos (by rw [isProvided, hdep]; rfl)
  · have hnone : ws.featMap feature = none := by
      rw [Option.eq_none_iff_forall_ne_some]
      exact fun dep hdep => hprov (hws.provided_table.mpr ⟨dep, hdep⟩)
    have hne : ∀ f ∈ required.getD [], f ≠ feature := fun f hf heq => hprov (heq ▸ hrequired f hf)
    obtain ⟨ws₁, hnew, hb₁⟩ := building_new hws hnone
    obtain ⟨ws', hfold, hb⟩ := building_all hb₁
      (fun f hf => ⟨hne f hf, hws.provided_table.mp (hrequired f hf)⟩) hnodup
    refine ⟨ws', ?_, hb.consistent, hb.fresh.le, ?_⟩
    · have hnot : ¬ ws.isProvided feature = true := by
        rw [isProvided, hnone]
        exact Bool.false_ne_true
      have hno : ¬ ws.hasFeatDep feature = true := hnot
      unfold provide
      rw [if_neg hnot, if_neg hno, hnew]
      dsimp only [bind, Except.bind]
      rw [getDependency, hb₁.own]
      cases required with
      | none => exact hfold
      | some required =>
        have hself : feature ∉ required := fun hmem => hne feature hmem rfl
        simp only [if_neg hself]
        exact hfold
    · funext f
      rw [DepTable.provide_of_not hprov, Function.update_apply]
      split
      case isTrue heq => rw [heq, hb.built, List.nil_append]
      case isFalse hne => exact hb.others f hne

end Provide

/-! ### Runs -/

/-- The required features of a call are provided before it, and the list names each of them once. -/
def Call.Allowed (t : DepTable F) : Call F → Prop
  | .provide _ required => (∀ f ∈ required.getD [], t.Provided f) ∧ (required.getD []).Nodup
  | .invalidate _ => True

variable [DecidableEq F]

/-- What a call means. -/
noncomputable def Call.apply (t : DepTable F) : Call F → DepTable F
  | .provide feature required => t.provide feature (required.getD [])
  | .invalidate feature => t.invalidate feature

/-- Each call is allowed when it is made. -/
def Call.AllAllowed : DepTable F → List (Call F) → Prop
  | _, [] => True
  | t, c :: calls => c.Allowed t ∧ AllAllowed (c.apply t) calls

theorem call_table {nesting : ℕ} (hws : ws.Consistent) (hnesting : ws.fresh < nesting) {c : Call F}
    (hc : c.Allowed ws.table) :
    ∃ ws', ws.call nesting c = .ok ws' ∧ ws'.Consistent ∧ ws'.fresh ≤ ws.fresh + 1 ∧ ws'.table = c.apply ws.table := by
  cases c with
  | provide feature required => exact provide_table hws feature required hc.1 hc.2
  | invalidate feature =>
    obtain ⟨ws', hws', hcons, hfresh, htable⟩ := invalidate_table hws hnesting feature
    exact ⟨ws', hws', hcons, hfresh.le.trans (Nat.le_succ _), htable⟩

omit [DecidableEq F] in
theorem consistent_empty : (empty : WorkSpace F).Consistent where
  mapped := by
    intro f dep
    exact iff_of_false (Option.some_ne_none dep).symm (Option.some_ne_none f).symm
  used := fun _ _ h => absurd h.symm (Option.some_ne_none _)
  using_ := fun _ _ h => absurd h.symm (Option.some_ne_none _)
  older := fun _ _ h => absurd h.symm (Option.some_ne_none _)
  distinct := fun _ _ h => absurd h.symm (Option.some_ne_none _)
  youngest := fun _ _ h => absurd h.symm (Option.some_ne_none _)
  fresh := fun _ _ h => absurd h.symm (Option.some_ne_none _)

theorem run_table {nesting : ℕ} {calls : List (Call F)} (hws : ws.Consistent)
    (hnesting : ws.fresh + calls.length < nesting) (hcalls : Call.AllAllowed ws.table calls) :
    ∃ ws', calls.foldlM (call nesting) ws = .ok ws' ∧ ws'.Consistent ∧ ws'.fresh < nesting ∧
      ws'.table = calls.foldl Call.apply ws.table := by
  induction calls generalizing ws with
  | nil => exact ⟨ws, rfl, hws, hnesting, rfl⟩
  | cons c calls ih =>
    obtain ⟨hc, hcalls⟩ := hcalls
    rw [List.length_cons, ← Nat.add_assoc, Nat.add_right_comm] at hnesting
    obtain ⟨ws₁, hcall, hws₁, hfresh, htable⟩ := call_table hws
      (Nat.lt_of_succ_le ((Nat.le_add_right _ _).trans hnesting.le)) hc
    obtain ⟨ws', hrun, hws', hfresh', htable'⟩ := ih hws₁
      ((Nat.add_le_add_right hfresh _).trans_lt hnesting) (htable ▸ hcalls)
    refine ⟨ws', ?_, hws', hfresh', ?_⟩
    · rw [List.foldlM_cons, hcall]
      exact hrun
    · rw [htable', htable, List.foldl_cons]

/-- The records of a run keep the invariant, no deleted record is read, and the tables are those of the calls: all that
a provided feature was built from is provided, and an invalidation takes away the feature and what depends on it. -/
theorem run_refines (nesting : ℕ) (calls : List (Call F)) (hnesting : calls.length < nesting)
    (hcalls : Call.AllAllowed (fun _ => none) calls) :
    ∃ ws, run nesting calls = .ok ws ∧ ws.Consistent ∧ ws.table = calls.foldl Call.apply (fun _ => none) ∧
      ws.table.Closed ∧ (∀ f, ws.isProvided f = true ↔ ws.table.Provided f) ∧
      ∀ f, ∃ ws', ws.invalidate nesting f = .ok ws' ∧ ws'.Consistent ∧ ws'.table = ws.table.invalidate f ∧
        ∀ g, ws'.isProvided g = true ↔ ws.isProvided g = true ∧ ¬ ws.table.DependsOn g f := by
  obtain ⟨ws, hrun, hws, hfresh, htable⟩ := run_table consistent_empty
    ((Nat.zero_add _).trans_lt hnesting) hcalls
  refine ⟨ws, hrun, hws, htable, hws.closed_table, fun f => hws.isProvided_iff, fun f => ?_⟩
  obtain ⟨ws', hinv, hws', -, htable'⟩ := invalidate_table hws hfresh f
  refine ⟨ws', hinv, hws', htable', fun g => ?_⟩
  rw [hws'.isProvided_iff, hws.isProvided_iff, htable', DepTable.invalidate, DepTable.provided_drop]
  rfl

theorem run_refines_again :
    ∃ ws, run 5 [.provide 0 none, .provide 1 (some [0]), .invalidate 0, .provide 0 none] = .ok ws ∧
      ws.Consistent ∧ ws.isProvided 1 = false := by
  obtain ⟨ws, hrun, hws, -⟩ := run_refines 5
    [.provide 0 none, .provide 1 (some [0]), .invalidate (0 : ℕ), .provide 0 none] (by decide) (by
      refine ⟨by simp [Call.Allowed], ?_, trivial, by simp [Call.Allowed], trivial⟩
      simp [Call.Allowed, Call.apply, DepTable.provided_provide])
  refine ⟨ws, hrun, hws, ?_⟩
  cases hrun
  rfl

/-- A feature that is listed twice as required is linked twice, and then it is read after its record is deleted. -/
theorem required_twice :
    (run 1 [.provide (0 : ℕ) none]).map (fun ws => ws.isProvided 0) = .ok true ∧
      ∀ nesting, run (nesting + 3) [.provide 0 none, .provide 1 (some [0, 0]), .invalidate (0 : ℕ)] =
        .error .deleted :=
  ⟨rfl, fun _ => rfl⟩

end Otawa.WorkSpace
