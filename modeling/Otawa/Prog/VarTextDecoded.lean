import Mathlib.Data.Fintype.Powerset
import Otawa.Prog.VarTextRun

/-!
# When `VarTextDecoder` decodes a program

A turn of the main loop keeps `Inv`, and gives a marker to a new instruction or makes the queue shorter.
So the loop ends as long as the sequences do, and `decoded_iff` says for which programs the decoder
ends, follows exactly what is reached from the entries and reports the addresses that are not valid.
-/

namespace Otawa.VarTextDecoder

open Otawa.Fallible

variable {logInst : Bool} {image : Image}

/-! ## One turn -/

/-- The instructions after a control instruction have been followed or are on the queue. -/
def Recorded (logInst : Bool) (image : Image) (st : State) (inst : Inst) : Prop :=
  ∃ puts, record logInst image inst = .ok puts ∧
    (∀ i, some i ∈ puts.todo → i ∈ st.followed ∨ some i ∈ st.todo) ∧ ∀ w ∈ puts.warnings, w ∈ st.warnings

/-- What holds between two turns. -/
structure Inv (logInst : Bool) (image : Image) (st : State) : Prop where
  placed : ∀ i ∈ st.followed, Placed image i
  queued : ∀ i, some i ∈ st.todo → Placed image i
  marked : ∀ i, Placed image i → i.address ∈ st.marked → i ∈ st.followed
  sequence : ∀ i ∈ st.followed, i.isControl = false → ∀ j, image.known i.topAddress = some j → j ∈ st.followed
  warned : ∀ i ∈ st.followed, i.isControl = false → image.known i.topAddress = none →
    ∃ w ∈ st.warnings, w.address = i.topAddress
  recorded : ∀ i ∈ st.followed, i.isControl → Recorded logInst image st i
  ends : ∀ i ∈ st.followed, Ends image i

/-- Nothing is forgotten from one state to another. -/
structure Grows (st st' : State) : Prop where
  followed : ∀ i ∈ st.followed, i ∈ st'.followed
  warnings : ∀ w ∈ st.warnings, w ∈ st'.warnings
  todo : ∀ i, some i ∈ st.todo → i ∈ st'.followed ∨ some i ∈ st'.todo

theorem Grows.refl (st : State) : Grows st st := ⟨fun _ => id, fun _ => id, fun _ => .inr⟩

theorem Grows.trans {st st' st'' : State} (grows : Grows st st') (later : Grows st' st'') : Grows st st'' where
  followed i mem := later.followed i (grows.followed i mem)
  warnings w mem := later.warnings w (grows.warnings w mem)
  todo i mem := (grows.todo i mem).elim (fun mem => .inl (later.followed i mem)) (later.todo i)

theorem Recorded.grows {st st' : State} {inst : Inst} (recorded : Recorded logInst image st inst)
    (grows : Grows st st') : Recorded logInst image st' inst := by
  obtain ⟨puts, ok, queued, warned⟩ := recorded
  refine ⟨puts, ok, fun i mem => ?_, fun w mem => grows.warnings w (warned w mem)⟩
  exact (queued i mem).elim (fun mem => .inl (grows.followed i mem)) (grows.todo i)

theorem Placed.eq {i j : Inst} (placed : Placed image i) (placed' : Placed image j) (same : i.address = j.address) :
    i = j :=
  Found.inst.inj (placed.symm.trans (same ▸ placed'))

/-- The end of a turn that has followed a sequence from the first instruction of the queue. -/
theorem Inv.turned {st st' : State} {first : Inst} {rest : List (Option Inst)} {walk : Walk}
    (inv : Inv logInst image st) (todo : st.todo = some first :: rest) (walks : Walks image st.marked first walk)
    (followed : st'.followed = st.followed ++ walk.visited)
    (warnings : ∀ w, w ∈ st.warnings ++ walk.warnings → w ∈ st'.warnings) (queue : ∀ i ∈ rest, i ∈ st'.todo)
    (marked : ∀ addr ∈ st'.marked, addr ∈ st.marked ∨ addr = first.address)
    (queued : ∀ i, some i ∈ st'.todo → some i ∈ rest ∨ Placed image i)
    (stop : ∀ i, walk.stop = some i → i.isControl → i.address ∉ st.marked → Recorded logInst image st' i) :
    Inv logInst image st' ∧ Grows st st' := by
  have own : Placed image first := inv.queued first (todo ▸ List.mem_cons_self)
  have mem_followed : ∀ i, i ∈ st'.followed ↔ i ∈ st.followed ∨ i ∈ walk.visited := fun i => by
    rw [followed, List.mem_append]
  have first_followed : first ∈ st'.followed := (mem_followed first).mpr
    (walks.first_mem.elim .inr fun mem => .inl (inv.marked first own mem))
  have grows : Grows st st' := by
    refine ⟨fun i mem => (mem_followed i).mpr (.inl mem), fun w mem => warnings w (List.mem_append_left _ mem), ?_⟩
    intro i mem
    rw [todo] at mem
    rcases List.mem_cons.mp mem with same | mem
    · exact .inl (Option.some.inj same ▸ first_followed)
    · exact .inr (queue _ mem)
  refine ⟨⟨?_, ?_, ?_, ?_, ?_, ?_, ?_⟩, grows⟩
  · intro i mem
    exact ((mem_followed i).mp mem).elim (inv.placed i) (walks.placed own i)
  · intro i mem
    refine (queued i mem).elim (fun mem => ?_) id
    exact inv.queued i (todo ▸ List.mem_cons_of_mem _ mem)
  · intro i placed mem
    rcases marked _ mem with mem | same
    · exact grows.followed i (inv.marked i placed mem)
    · exact placed.eq own same ▸ first_followed
  · intro i mem plain j known
    rcases (mem_followed i).mp mem with mem | mem
    · exact grows.followed j (inv.sequence i mem plain j known)
    · refine (mem_followed j).mpr ((walks.next_mem mem plain known).elim .inr fun mem => .inl ?_)
      exact inv.marked j (placed_of_known known) mem
  · intro i mem plain bad
    rcases (mem_followed i).mp mem with mem | mem
    · obtain ⟨w, mem, about⟩ := inv.warned i mem plain bad
      exact ⟨w, grows.warnings w mem, about⟩
    · obtain ⟨w, mem, about⟩ := walks.warned mem plain bad
      exact ⟨w, warnings w (List.mem_append_right _ mem), about⟩
  · intro i mem control
    rcases (mem_followed i).mp mem with mem | mem
    · exact (inv.recorded i mem control).grows grows
    · obtain ⟨stops, new⟩ := walks.control_stops mem control
      exact stop i stops control new
  · intro i mem
    rcases (mem_followed i).mp mem with mem | mem
    · exact inv.ends i mem
    · refine walks.ends_visited (walks.ends own fun j placed mem => ?_) i mem
      exact inv.ends j (inv.marked j placed mem)

/-- A null pointer is taken from the queue. -/
theorem Inv.skip {st : State} {rest : List (Option Inst)} (inv : Inv logInst image st) (todo : st.todo = none :: rest) :
    Inv logInst image { st with todo := rest } ∧ Grows st { st with todo := rest } := by
  have grows : Grows st { st with todo := rest } := by
    refine ⟨fun _ => id, fun _ => id, fun i mem => .inr ?_⟩
    rw [todo] at mem
    exact (List.mem_cons.mp mem).resolve_left nofun
  exact ⟨⟨inv.placed, fun i mem => inv.queued i (todo ▸ List.mem_cons_of_mem _ mem), inv.marked, inv.sequence,
    inv.warned, fun i mem control => (inv.recorded i mem control).grows grows, inv.ends⟩, grows⟩

theorem Inv.turn {fuel : ℕ} {st st' : State} {first : Option Inst} {rest : List (Option Inst)}
    (inv : Inv logInst image st) (todo : st.todo = first :: rest)
    (ok : turn logInst image fuel { st with todo := rest } first = some (.ok st')) :
    Inv logInst image st' ∧ Grows st st' := by
  cases first with
  | none =>
    cases ok
    exact inv.skip todo
  | some first =>
    obtain ⟨walk, followed, ended⟩ := Option.map_eq_some_iff.mp ok
    have walks := follow_walks followed
    split at ended
    case h_1 stop =>
      cases ended
      refine inv.turned todo walks rfl (fun _ => id) (fun _ => id) (fun _ => .inl) (fun _ => .inl) ?_
      intro i stops
      rw [stop] at stops
      cases stops
    case h_2 inst stop =>
      rw [State.finish] at ended
      split at ended
      case isTrue marked =>
        cases ended
        refine inv.turned todo walks rfl (fun _ => id) (fun _ => id) ?_ (fun _ => .inl) ?_
        · intro addr mem
          exact (Finset.mem_insert.mp mem).symm
        · intro i stops _ new
          rw [stop] at stops
          cases stops
          exact absurd marked new
      case isFalse new =>
        obtain ⟨puts, recorded, rfl⟩ := map_ok.mp ended
        have control := ((walks.stop_eq stop).resolve_left new).2
        refine inv.turned todo walks rfl (fun w mem => List.mem_append_left _ mem)
          (fun i mem => List.mem_append_left _ mem) ?_ ?_ ?_
        · intro addr mem
          exact (Finset.mem_insert.mp mem).symm
        · intro i mem
          refine (List.mem_append.mp mem).imp_right fun mem => ?_
          obtain ⟨addr, -, found, -⟩ := record_leads recorded control i mem
          exact placed_of_found found
        · intro i stops _ _
          rw [stop] at stops
          cases stops
          exact ⟨puts, recorded, fun i mem => .inr (List.mem_append_right _ mem),
            fun w mem => List.mem_append_right _ mem⟩

/-! ## Whole runs -/

theorem loop_ok {fuel : ℕ} {st st' : State} (inv : Inv logInst image st)
    (ok : loop logInst image fuel st = some (.ok st')) : Inv logInst image st' ∧ Grows st st' ∧ st'.todo = [] := by
  induction fuel generalizing st with
  | zero => cases ok
  | succ fuel ih =>
    rw [loop] at ok
    split at ok
    case h_1 empty =>
      cases ok
      exact ⟨inv, .refl _, empty⟩
    case h_2 first rest todo =>
      split at ok
      case h_1 => cases ok
      case h_2 => cases ok
      case h_3 st₁ turned =>
        obtain ⟨inv₁, grows₁⟩ := inv.turn todo turned
        obtain ⟨inv', grows', empty⟩ := ih inv₁ ok
        exact ⟨inv', grows₁.trans grows', empty⟩

/-- What is known of an entry that has been processed. -/
structure Entered (image : Image) (st : State) (entry : Address) : Prop where
  nonzero : entry ≠ 0
  found : image.findInstAt entry ≠ .null
  known : ∀ i, image.known entry = some i → i ∈ st.followed
  bad : image.known entry = none → ∃ w ∈ st.warnings, w.address = entry

theorem Entered.grows {st st' : State} {entry : Address} (entered : Entered image st entry) (grows : Grows st st') :
    Entered image st' entry where
  nonzero := entered.nonzero
  found := entered.found
  known i known := grows.followed i (entered.known i known)
  bad bad := by
    obtain ⟨w, mem, about⟩ := entered.bad bad
    exact ⟨w, grows.warnings w mem, about⟩

/-- A message and no instruction. -/
theorem Inv.warn {st : State} (inv : Inv logInst image st) (warnings : List Warning) :
    Inv logInst image { st with warnings := st.warnings ++ warnings } ∧
      Grows st { st with warnings := st.warnings ++ warnings } := by
  have grows : Grows st { st with warnings := st.warnings ++ warnings } :=
    ⟨fun _ => id, fun _ => List.mem_append_left _, fun _ => .inr⟩
  refine ⟨⟨inv.placed, inv.queued, inv.marked, inv.sequence, fun i mem plain bad => ?_,
    fun i mem control => (inv.recorded i mem control).grows grows, inv.ends⟩, grows⟩
  obtain ⟨w, mem, about⟩ := inv.warned i mem plain bad
  exact ⟨w, List.mem_append_left _ mem, about⟩

theorem processEntry_ok {fuel : ℕ} {st st' : State} {entry : Address} (inv : Inv logInst image st)
    (empty : st.todo = []) (ok : processEntry logInst image fuel st entry = some (.ok st')) :
    Inv logInst image st' ∧ Grows st st' ∧ st'.todo = [] ∧ Entered image st' entry := by
  rw [processEntry] at ok
  split at ok
  case isTrue => cases ok
  case isFalse nonzero =>
    split at ok
    case h_1 => cases ok
    case h_2 found =>
      cases ok
      obtain ⟨inv', grows⟩ := inv.warn [.exception entry, .badEntry entry]
      refine ⟨inv', grows, empty, nonzero, by rw [found]; exact nofun, fun i known => ?_, fun _ => ?_⟩
      · rw [known_eq_some, found] at known
        cases known.1
      · exact ⟨.badEntry entry, List.mem_append_right _ (List.mem_cons_of_mem _ List.mem_cons_self), rfl⟩
    case h_3 inst found =>
      split at ok
      case isTrue unknown =>
        cases ok
        obtain ⟨inv', grows⟩ := inv.warn [.unknownInst entry, .badEntry entry]
        refine ⟨inv', grows, empty, nonzero, by rw [found]; exact nofun, fun i known => ?_, fun _ => ?_⟩
        · rw [known_eq_some, found, Found.inst.injEq] at known
          obtain ⟨rfl, known⟩ := known
          rw [unknown] at known
          cases known
        · exact ⟨.badEntry entry, List.mem_append_right _ (List.mem_cons_of_mem _ List.mem_cons_self), rfl⟩
      case isFalse known =>
        rw [Bool.not_eq_true] at known
        have start : Inv logInst image { st with todo := [some inst] } := by
          refine ⟨inv.placed, fun i mem => ?_, inv.marked, inv.sequence, inv.warned, fun i mem control => ?_, inv.ends⟩
          · exact Option.some.inj (List.mem_singleton.mp mem) ▸ placed_of_found found
          · obtain ⟨puts, recorded, queued, warned⟩ := inv.recorded i mem control
            refine ⟨puts, recorded, fun j mem => .inl ((queued j mem).resolve_right ?_), warned⟩
            rw [empty]
            exact List.not_mem_nil
        obtain ⟨inv', grows, empty'⟩ := loop_ok start ok
        refine ⟨inv', ⟨grows.followed, grows.warnings, fun i mem => ?_⟩, empty', nonzero, by rw [found]; exact nofun,
          fun i at_entry => ?_, fun bad => ?_⟩
        · rw [empty] at mem
          cases mem
        · rw [known_eq_some, found, Found.inst.injEq] at at_entry
          have queued := grows.todo inst List.mem_cons_self
          rw [empty'] at queued
          exact at_entry.1 ▸ queued.resolve_right List.not_mem_nil
        · rw [known_eq_some.mpr ⟨found, known⟩] at bad
          cases bad

theorem processEntries_ok {fuel : ℕ} {st st' : State} {entries : List Address} (inv : Inv logInst image st)
    (empty : st.todo = []) (ok : processEntries logInst image fuel st entries = some (.ok st')) :
    Inv logInst image st' ∧ Grows st st' ∧ st'.todo = [] ∧ ∀ entry ∈ entries, Entered image st' entry := by
  induction entries generalizing st with
  | nil =>
    cases ok
    exact ⟨inv, .refl _, empty, List.forall_mem_nil _⟩
  | cons entry entries ih =>
    rw [processEntries] at ok
    split at ok
    case h_1 => cases ok
    case h_2 => cases ok
    case h_3 st₁ processed =>
      obtain ⟨inv₁, grows₁, empty₁, entered⟩ := processEntry_ok inv empty processed
      obtain ⟨inv', grows', empty', rest⟩ := ih inv₁ empty₁ ok
      exact ⟨inv', grows₁.trans grows', empty', List.forall_mem_cons.mpr ⟨entered.grows grows', rest⟩⟩

theorem inv_start (logInst : Bool) (image : Image) : Inv logInst image .start where
  placed := List.forall_mem_nil _
  queued _ mem := nomatch mem
  marked _ _ mem := absurd mem (Finset.notMem_empty _)
  sequence := List.forall_mem_nil _
  warned := List.forall_mem_nil _
  recorded := List.forall_mem_nil _
  ends := List.forall_mem_nil _

/-! ## Runs end -/

/-- The programs that are decoded. -/
structure Decodable (image : Image) (entries : List Address) : Prop where
  /-- `processEntry` asserts that the entry is not null, and getInst reads a null source for one out of the segments. -/
  entry : ∀ entry ∈ entries, entry ≠ 0 ∧ image.findInstAt entry ≠ .null
  ends : ∀ inst, Reached image entries inst → Ends image inst
  /-- `target` throws no `DecodingException` and the target of a branch is not an unknown instruction. -/
  decoded : ∀ inst, Reached image entries inst → inst.isControl → inst.returns = false → image.target inst ≠ .decoding
  direct : ∀ inst, Reached image entries inst → inst.isControl → Direct image inst
  /-- A call whose target is not known comes back to an instruction. -/
  back : ∀ inst, Reached image entries inst → inst.isControl → inst.returns = false → inst.isCall →
    image.branch inst = none → image.known inst.topAddress ≠ none

theorem follow_mono {marked : Finset Address} {fuel fuel' : ℕ} {inst : Inst} {walk : Walk} (le : fuel ≤ fuel')
    (followed : follow image marked fuel inst = some walk) : follow image marked fuel' inst = some walk := by
  induction fuel generalizing fuel' inst walk with
  | zero => cases followed
  | succ fuel ih =>
    obtain ⟨fuel', rfl⟩ := Nat.exists_eq_add_of_lt le
    rw [follow] at followed ⊢
    split
    case isTrue mem => rwa [if_pos mem] at followed
    case isFalse new =>
      rw [if_neg new] at followed
      split
      case isTrue control => rwa [if_pos control] at followed
      case isFalse plain =>
        rw [if_neg plain] at followed
        split at followed
        case h_1 => exact followed
        case h_2 i known =>
          obtain ⟨walk', rest, rfl⟩ := Option.map_eq_some_iff.mp followed
          exact Option.map_eq_some_iff.mpr ⟨walk', ih (by omega) rest, rfl⟩

/-- A sequence that ends is followed to its end, or to a marker. -/
theorem follow_total {inst : Inst} (ends : Ends image inst) (marked : Finset Address) :
    ∃ fuel walk, follow image marked fuel inst = some walk := by
  induction ends with
  | @control inst control =>
    by_cases mem : inst.address ∈ marked
    · exact ⟨1, _, if_pos mem⟩
    · exact ⟨1, _, (if_neg mem).trans (if_pos control)⟩
  | @broken inst plain bad =>
    by_cases mem : inst.address ∈ marked
    · exact ⟨1, _, if_pos mem⟩
    · rw [← Bool.not_eq_true] at plain
      refine ⟨1, ⟨[inst], image.complaints inst.topAddress inst ++ [.unknownNext inst.topAddress], none⟩, ?_⟩
      rw [follow, if_neg mem, if_neg plain, bad]
  | @next inst i plain known _ ih =>
    obtain ⟨fuel, walk, followed⟩ := ih
    by_cases mem : inst.address ∈ marked
    · exact ⟨1, _, if_pos mem⟩
    · refine ⟨fuel + 1, { walk with visited := inst :: walk.visited }, ?_⟩
      rw [follow, if_neg mem, if_neg (by rw [plain]; exact Bool.false_ne_true), known]
      exact Option.map_eq_some_iff.mpr ⟨walk, followed, rfl⟩

section

variable {fuel fuel' : ℕ} {st : State}

theorem turn_mono {first : Option Inst} {r : Except Crash State} (le : fuel ≤ fuel')
    (turned : turn logInst image fuel st first = some r) : turn logInst image fuel' st first = some r := by
  cases first with
  | none => exact turned
  | some first =>
    obtain ⟨walk, followed, ended⟩ := Option.map_eq_some_iff.mp turned
    exact Option.map_eq_some_iff.mpr ⟨walk, follow_mono le followed, ended⟩

theorem loop_mono {r : Except Crash State} (le : fuel ≤ fuel')
    (ended : loop logInst image fuel st = some r) : loop logInst image fuel' st = some r := by
  induction fuel generalizing fuel' st with
  | zero => cases ended
  | succ fuel ih =>
    obtain ⟨fuel', rfl⟩ := Nat.exists_eq_add_of_lt le
    rw [loop] at ended ⊢
    split at ended
    case h_1 => exact ended
    case h_2 first rest _ =>
      split at ended
      case h_1 => cases ended
      case h_2 crash turned =>
        rw [turn_mono (by omega) turned]
        exact ended
      case h_3 st' turned =>
        rw [turn_mono (by omega) turned]
        exact ih (by omega) ended

theorem processEntry_mono {entry : Address} {r : Except Crash State} (le : fuel ≤ fuel')
    (ended : processEntry logInst image fuel st entry = some r) :
    processEntry logInst image fuel' st entry = some r := by
  rw [processEntry] at ended ⊢
  split
  case isTrue zero => rwa [if_pos zero] at ended
  case isFalse nonzero =>
    rw [if_neg nonzero] at ended
    split at ended
    case h_1 => exact ended
    case h_2 => exact ended
    case h_3 inst found =>
      split
      case isTrue unknown => rwa [if_pos unknown] at ended
      case isFalse known =>
        rw [if_neg known] at ended
        exact loop_mono le ended

theorem processEntries_mono {entries : List Address} {r : Except Crash State}
    (le : fuel ≤ fuel') (ended : processEntries logInst image fuel st entries = some r) :
    processEntries logInst image fuel' st entries = some r := by
  induction entries generalizing st with
  | nil => exact ended
  | cons entry entries ih =>
    rw [processEntries] at ended ⊢
    split at ended
    case h_1 => cases ended
    case h_2 crash processed =>
      rw [processEntry_mono le processed]
      exact ended
    case h_3 st' processed =>
      rw [processEntry_mono le processed]
      exact ih ended

end

/-- Only what is reached has been followed or is on the queue. -/
structure Within (image : Image) (entries : List Address) (st : State) : Prop where
  followed : ∀ i ∈ st.followed, Reached image entries i
  queued : ∀ i, some i ∈ st.todo → Reached image entries i

variable {entries : List Address}

theorem Reached.known {inst : Inst} (reached : Reached image entries inst) : image.known inst.address = some inst := by
  have own : ∀ {addr : Address} {i : Inst}, image.known addr = some i → image.known i.address = some i := by
    intro addr i known
    rw [image.address_eq addr i (known_eq_some.mp known).1, known]
  cases reached with
  | entry _ known => exact own known
  | step _ _ known => exact own known

section

variable (logInst : Bool) (decodable : Decodable image entries) {st : State}
include decodable

/-- What a turn leaves: a shorter queue, or a new marker. -/
theorem turn_total {first : Option Inst}
    {rest : List (Option Inst)} (within : Within image entries st) (todo : st.todo = first :: rest) :
    ∃ fuel st', turn logInst image fuel { st with todo := rest } first = some (.ok st') ∧
      Within image entries st' ∧ (st'.marked = st.marked ∧ st'.todo = rest ∨ st.marked ⊂ st'.marked) := by
  have shorter : ∀ i, some i ∈ rest → Reached image entries i := fun i mem =>
    within.queued i (todo ▸ List.mem_cons_of_mem _ mem)
  cases first with
  | none => exact ⟨0, _, rfl, ⟨within.followed, shorter⟩, .inl ⟨rfl, rfl⟩⟩
  | some first =>
    have reached := within.queued first (todo ▸ List.mem_cons_self)
    obtain ⟨fuel, walk, followed⟩ := follow_total (decodable.ends first reached) st.marked
    have walks := follow_walks followed
    have visited : ∀ i ∈ walk.visited, Reached image entries i :=
      walks.closed reached fun i j before plain known => before.step (.sequence plain) known
    have all : ∀ i ∈ st.followed ++ walk.visited, Reached image entries i :=
      List.forall_mem_append.mpr ⟨within.followed, visited⟩
    refine ⟨fuel, ?_⟩
    simp only [turn, followed, Option.map_some]
    cases stop : walk.stop with
    | none => exact ⟨_, rfl, ⟨all, shorter⟩, .inl ⟨rfl, rfl⟩⟩
    | some inst =>
      simp only [State.finish]
      by_cases marked : inst.address ∈ st.marked
      · refine ⟨_, by rw [if_pos marked], ⟨all, shorter⟩, ?_⟩
        by_cases known : first.address ∈ st.marked
        · exact .inl ⟨Finset.insert_eq_of_mem known, rfl⟩
        · exact .inr (Finset.ssubset_insert known)
      · obtain ⟨mem, control⟩ := (walks.stop_eq stop).resolve_left marked
        have at_stop := visited inst mem
        obtain ⟨puts, recorded⟩ := record_total logInst (decodable.decoded inst at_stop control)
          (decodable.back inst at_stop control)
        refine ⟨_, by rw [if_neg marked, recorded]; rfl, ⟨all, fun i queued => ?_⟩, .inr ?_⟩
        · refine (List.mem_append.mp queued).elim (shorter i) fun put => ?_
          obtain ⟨addr, next, found, known⟩ := record_leads recorded control i put
          exact at_stop.step next (known_eq_some.mpr ⟨found, known (decodable.direct inst at_stop control)⟩)
        · refine Finset.ssubset_insert fun known => marked ?_
          exact Option.some.inj ((walks.stop_of_marked known).symm.trans stop) ▸ known

instance : Finite Address := Finite.of_injective BitVec.toFin fun _ _ => BitVec.eq_of_toFin_eq

instance : Finite (Finset Address) := Finite.of_injective _ Finset.coe_injective

theorem loop_total (within : Within image entries st) :
    ∃ fuel st', loop logInst image fuel st = some (.ok st') ∧ Within image entries st' := by
  induction marked : st.marked using WellFoundedGT.induction generalizing st with
  | ind marked fewer =>
    induction todo : st.todo generalizing st with
    | nil =>
      refine ⟨1, st, ?_, within⟩
      rw [loop, todo]
    | cons first rest ih =>
      obtain ⟨fuel, st₁, turned, within₁, progress⟩ := turn_total logInst decodable within todo
      have continued : ∃ fuel st', loop logInst image fuel st₁ = some (.ok st') ∧ Within image entries st' := by
        rcases progress with ⟨same, shorter⟩ | more
        · exact ih within₁ (same.trans marked) shorter
        · exact fewer st₁.marked (marked ▸ more) within₁ rfl
      obtain ⟨fuel', st', ended, within'⟩ := continued
      refine ⟨max fuel fuel' + 1, st', ?_, within'⟩
      rw [loop, todo]
      simp only [turn_mono (le_max_left fuel fuel') turned]
      exact loop_mono (le_max_right fuel fuel') ended

theorem processEntry_total {entry : Address}
    (mem : entry ∈ entries) (within : Within image entries st) :
    ∃ fuel st', processEntry logInst image fuel st entry = some (.ok st') ∧ Within image entries st' := by
  obtain ⟨nonzero, found⟩ := decodable.entry entry mem
  simp only [processEntry, if_neg nonzero]
  split
  case h_1 null => exact absurd null found
  case h_2 => exact ⟨0, _, rfl, within.followed, within.queued⟩
  case h_3 inst found =>
    split
    case isTrue => exact ⟨0, _, rfl, within.followed, within.queued⟩
    case isFalse known =>
      refine loop_total logInst decodable ⟨within.followed, fun i single => ?_⟩
      cases List.mem_singleton.mp single
      exact .entry mem (known_eq_some.mpr ⟨found, Bool.eq_false_iff.mpr known⟩)

theorem processEntries_total
    {left : List Address} (subset : ∀ entry ∈ left, entry ∈ entries) (within : Within image entries st) :
    ∃ fuel st', processEntries logInst image fuel st left = some (.ok st') ∧ Within image entries st' := by
  induction left generalizing st with
  | nil => exact ⟨0, st, rfl, within⟩
  | cons entry rest ih =>
    obtain ⟨mem, subset⟩ := List.forall_mem_cons.mp subset
    obtain ⟨fuel, st₁, processed, within₁⟩ := processEntry_total logInst decodable mem within
    obtain ⟨fuel', st', ended, within'⟩ := ih subset within₁
    refine ⟨max fuel fuel', st', ?_, within'⟩
    simp only [processEntries, processEntry_mono (le_max_left fuel fuel') processed]
    exact processEntries_mono (le_max_right fuel fuel') ended

end

theorem within_start (image : Image) (entries : List Address) : Within image entries .start :=
  ⟨List.forall_mem_nil _, fun _ mem => nomatch mem⟩

/-! ## What is decoded -/

/-- The program is decoded: exactly what is reached has been followed, and the addresses that are not valid have
been reported. -/
structure Decoded (image : Image) (entries : List Address) (st : State) : Prop where
  followed : ∀ i, i ∈ st.followed ↔ Reached image entries i
  entry : ∀ entry ∈ entries, image.known entry = none → ∃ w ∈ st.warnings, w.address = entry
  warned : ∀ i addr, Reached image entries i → Next image i addr → image.known addr = none →
    ∃ w ∈ st.warnings, w.address = addr

/-- What comes after an instruction that has been followed is followed or reported in the end. -/
theorem Inv.closed {st : State} (inv : Inv logInst image st) (empty : st.todo = []) {inst : Inst}
    (mem : inst ∈ st.followed) (direct : inst.isControl → Direct image inst) {addr : Address}
    (next : Next image inst addr) :
    (∀ i, image.known addr = some i → i ∈ st.followed) ∧
      (image.known addr = none → ∃ w ∈ st.warnings, w.address = addr) := by
  by_cases control : inst.isControl
  · obtain ⟨puts, recorded, queued, warned⟩ := inv.recorded inst mem control
    have handles := record_handles recorded control (direct control) next
    refine ⟨fun i known => (queued i (handles.known i known)).resolve_right ?_, fun bad => ?_⟩
    · rw [empty]
      exact List.not_mem_nil
    · obtain ⟨w, put, about⟩ := handles.bad bad
      exact ⟨w, warned w put, about⟩
  · rw [Bool.not_eq_true] at control
    cases next with
    | sequence => exact ⟨inv.sequence inst mem control, inv.warned inst mem control⟩
    | conditional plain => exact absurd (control.symm.trans plain) Bool.false_ne_true
    | target plain => exact absurd (control.symm.trans plain) Bool.false_ne_true
    | recorded plain => exact absurd (control.symm.trans plain) Bool.false_ne_true
    | callReturn plain => exact absurd (control.symm.trans plain) Bool.false_ne_true

theorem Decodable.decoded_of (decodable : Decodable image entries) {st : State} (inv : Inv logInst image st)
    (empty : st.todo = []) (entered : ∀ entry ∈ entries, Entered image st entry) (within : Within image entries st) :
    Decoded image entries st := by
  have closed : ∀ {i : Inst} {addr : Address}, i ∈ st.followed → Next image i addr → _ := fun mem next =>
    inv.closed empty mem (decodable.direct _ (within.followed _ mem)) next
  have all : ∀ i, Reached image entries i → i ∈ st.followed := by
    intro i reached
    induction reached with
    | entry mem known => exact (entered _ mem).known _ known
    | step _ next known ih => exact (closed ih next).1 _ known
  exact ⟨fun i => ⟨within.followed i, all i⟩, fun entry mem => (entered entry mem).bad,
    fun i addr reached next => (closed (all i reached) next).2⟩

/-- The conditions on a control instruction that has been recorded. -/
theorem Decoded.decodable {st : State} (decoded : Decoded image entries st) (inv : Inv logInst image st)
    (empty : st.todo = []) (entered : ∀ entry ∈ entries, Entered image st entry) : Decodable image entries where
  entry entry mem := ⟨(entered entry mem).nonzero, (entered entry mem).found⟩
  ends i reached := inv.ends i ((decoded.followed i).mpr reached)
  decoded i reached control goes := by
    obtain ⟨puts, recorded, -⟩ := inv.recorded i ((decoded.followed i).mpr reached) control
    exact (record_ok recorded goes).1
  direct i reached control t branch goes taken := by
    obtain ⟨puts, recorded, queued, -⟩ := inv.recorded i ((decoded.followed i).mpr reached) control
    have mem := queued t (target_mem recorded goes branch taken)
    rw [empty] at mem
    have known := ((decoded.followed t).mp (mem.resolve_right List.not_mem_nil)).known
    exact (known_eq_some.mp known).2
  back i reached control goes call indirect := by
    obtain ⟨puts, recorded, -⟩ := inv.recorded i ((decoded.followed i).mpr reached) control
    exact return_known recorded goes call indirect

/-- The decoder ends, has followed exactly what is reached from the entries and has reported the addresses that
are not valid, for the programs that are decodable and only for these. -/
theorem decoded_iff (logInst : Bool) (image : Image) (entries : List Address) :
    (∃ fuel st, processEntries logInst image fuel .start entries = some (.ok st) ∧ Decoded image entries st) ↔
      Decodable image entries := by
  constructor
  · rintro ⟨fuel, st, ended, decoded⟩
    obtain ⟨inv, -, empty, entered⟩ := processEntries_ok (inv_start logInst image) rfl ended
    exact decoded.decodable inv empty entered
  · intro decodable
    obtain ⟨fuel, st, ended, within⟩ :=
      processEntries_total logInst decodable (fun _ => id) (within_start image entries)
    obtain ⟨inv, -, empty, entered⟩ := processEntries_ok (inv_start logInst image) rfl ended
    exact ⟨fuel, st, ended, decodable.decoded_of inv empty entered within⟩

/-- An indirect call at the end of a segment. -/
def lastCall : Inst where
  address := 4
  size := 4
  isUnknown := false
  isControl := true
  isConditional := false
  isCall := true
  isReturn := false
  markedReturn := false
  noCall := false
  noReturn := false
  branchTarget := []
  callTarget := []

def endsInCall : Image where
  findInstAt addr := if addr = 4 then .inst lastCall else .null
  target _ := .null
  address_eq addr inst found := by
    split at found
    case isTrue eq =>
      cases found
      exact eq.symm
    case isFalse => cases found
  target_found _ _ target := nomatch target

/-- The address after the call is not valid, and the report reads the target of the call, which is null. -/
theorem last_call_crashes : processEntries false endsInCall 2 .start [4] = some (.error .nullTarget) ∧
    ¬ ∃ fuel st, processEntries false endsInCall fuel .start [4] = some (.ok st) ∧ Decoded endsInCall [4] st := by
  have crash : processEntries false endsInCall 2 .start [4] = some (.error .nullTarget) := rfl
  refine ⟨crash, ?_⟩
  rintro ⟨fuel, st, ended, -⟩
  have same := (processEntries_mono (le_max_left 2 fuel) crash).symm.trans
    (processEntries_mono (le_max_right 2 fuel) ended)
  cases same

end Otawa.VarTextDecoder
