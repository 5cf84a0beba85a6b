import Otawa.Tsim.BBPath

/-!
# Deltas telescope

The trees give each path the object that was made for it, and an object keeps the time and the delta of its path and
of no other one (`Inv`), whatever was asked for before. `sum_deltas` is the identity on the deltas, and
`telescoping_iff` says for which requests all of this is found.
-/

namespace Otawa.Tsim

variable {B : Type} [DecidableEq B]

/-! ## What the objects keep -/

/-- The sub-paths that a delta is computed from. -/
def parts (blocks : List B) : List (List B) :=
  if blocks.length ≤ 1 then []
  else if blocks.length = 2 then [blocks.dropLast, blocks.tail]
  else [blocks.dropLast, blocks.tail, blocks.tail.dropLast]

/-- The delta of a path, from the times. -/
def deltaOf (sim : List B → Int) (blocks : List B) : Int :=
  if blocks.length ≤ 1 then 0
  else if blocks.length = 2 then sim blocks - sim blocks.dropLast - sim blocks.tail
  else sim blocks - sim blocks.dropLast - sim blocks.tail + sim blocks.tail.dropLast

/-- The object that the trees have for a path. -/
def lookup (st : State B) : List B → Option ℕ
  | [] => none
  | bb :: rest => (st.trees bb).bind fun tree => treeGet tree rest

variable {sim : List B → Int} {st st' : State B}

structure Inv (sim : List B → Int) (st : State B) : Prop where
  known : ∀ r path, st.paths[r]? = some path → lookup st path.blocks = some r
  found : ∀ blocks r, lookup st blocks = some r → ∃ path, st.paths[r]? = some path ∧ path.blocks = blocks
  time : ∀ path ∈ st.paths, path.time < 0 ∨ path.time = sim path.blocks
  delta : ∀ path ∈ st.paths, ∀ d, path.delta = some d →
    d = deltaOf sim path.blocks ∧ ∀ part ∈ parts path.blocks, (lookup st part).isSome

/-- The paths that have been asked for are the ones that have an object. -/
structure Seen (st : State B) (seen : List (List B)) : Prop where
  paths : ∀ blocks, (lookup st blocks).isSome ↔ blocks ∈ seen
  roots : ∀ bb, (st.trees bb).isSome ↔ ∃ blocks ∈ seen, blocks.head? = some bb

/-- What holds between two requests. -/
structure Ready (sim : List B → Int) (st : State B) (seen : List (List B)) : Prop where
  inv : Inv sim st
  seen : Seen st seen

/-- The paths keep their objects. -/
def Grows (st st' : State B) : Prop := ∀ blocks r, lookup st blocks = some r → lookup st' blocks = some r

theorem Grows.trans {st'' : State B} (grows : Grows st st') (later : Grows st' st'') : Grows st st'' :=
  fun blocks r found => later blocks r (grows blocks r found)

/-! ## Trees -/

section Trees

theorem treeGet_add (tree : Trie B (Option ℕ)) (rest rest' : List B) (r : ℕ) :
    treeGet (treeAdd tree rest r) rest' = if rest' = rest then some r else treeGet tree rest' := by
  rw [treeGet, treeAdd, Trie.get_update]
  split
  · rfl
  · split
    · rw [treeGet]
      cases tree.get rest' <;> rfl
    · rfl

theorem treeGet_leaf (rest : List B) : treeGet (.node none []) rest = none := by
  cases rest with
  | nil => rfl
  | cons bb rest => rw [treeGet, Trie.get_nil]; rfl

/-- The state after a new path. -/
def added (st : State B) (bb : B) (rest : List B) : State B :=
  (st.alloc (bb :: rest)).setTree bb (treeAdd ((st.trees bb).getD (.node none [])) rest st.paths.length)

theorem getBBPath_cons (st : State B) (bb : B) (rest : List B) :
    getBBPath (bb :: rest) st = some (((lookup st (bb :: rest)).map (·, st)).getD (st.paths.length, added st bb rest)) := by
  rw [getBBPath, lookup, added]
  cases st.trees bb with
  | none => rfl
  | some tree => cases found : treeGet tree rest <;> simp [found]

theorem getBBPathOf_eq (st : State B) (bb : B) :
    getBBPathOf bb st = if (st.trees bb).isSome then (lookup st [bb]).map (·, st)
      else some (st.paths.length, added st bb []) := by
  rw [getBBPathOf, lookup, added]
  cases st.trees bb with
  | none => rfl
  | some tree => rfl

theorem lookup_added (bb : B) (rest blocks : List B) :
    lookup (added st bb rest) blocks = if blocks = bb :: rest then some st.paths.length else lookup st blocks := by
  cases blocks with
  | nil => rfl
  | cons b more =>
    have trees : (added st bb rest).trees b = if b = bb then
        some (treeAdd ((st.trees bb).getD (.node none [])) rest st.paths.length) else st.trees b :=
      Function.update_apply _ _ _ _
    rw [lookup, lookup, trees]
    by_cases same : b = bb
    · subst same
      rw [if_pos rfl, Option.bind_some, treeGet_add]
      simp only [List.cons.injEq, true_and]
      split
      · rfl
      · cases st.trees b with
        | none => exact treeGet_leaf more
        | some tree => rfl
    · rw [if_neg same, if_neg fun eq => same (List.cons.inj eq).1]

theorem isSome_trees_added (bb : B) (rest : List B) (b : B) :
    ((added st bb rest).trees b).isSome ↔ b = bb ∨ (st.trees b).isSome := by
  have trees : (added st bb rest).trees b = if b = bb then
      some (treeAdd ((st.trees bb).getD (.node none [])) rest st.paths.length) else st.trees b :=
    Function.update_apply _ _ _ _
  rw [trees]
  split
  case isTrue same => exact iff_of_true rfl (.inl same)
  case isFalse ne => exact (or_iff_right ne).symm

theorem grows_added {bb : B} {rest : List B} (new : lookup st (bb :: rest) = none) : Grows st (added st bb rest) := by
  intro blocks r found
  rw [lookup_added, if_neg]
  · exact found
  · rintro rfl
    rw [new] at found
    cases found

theorem Inv.added (inv : Inv sim st) {bb : B} {rest : List B} (new : lookup st (bb :: rest) = none) :
    Inv sim (added st bb rest) := by
  have grows := grows_added new
  have mem : ∀ path, path ∈ (Tsim.added st bb rest).paths ↔ path ∈ st.paths ∨ path = ⟨bb :: rest, -1, none⟩ := fun path =>
    List.mem_append.trans (or_congr_right List.mem_singleton)
  refine ⟨?_, ?_, ?_, ?_⟩
  · intro r path at_r
    change (st.paths ++ [⟨bb :: rest, -1, none⟩])[r]? = some path at at_r
    by_cases lt : r < st.paths.length
    · rw [List.getElem?_append_left lt] at at_r
      exact grows _ r (inv.known r path at_r)
    · rw [List.getElem?_append_right (Nat.not_lt.mp lt)] at at_r
      have last := (List.getElem?_eq_some_iff.mp at_r).1
      obtain rfl := List.mem_singleton.mp (List.mem_of_getElem? at_r)
      rw [List.length_singleton] at last
      have own : st.paths.length = r := by omega
      rw [lookup_added, if_pos rfl, own]
  · intro blocks r found
    change ∃ path, (st.paths ++ [⟨bb :: rest, -1, none⟩])[r]? = some path ∧ _
    rw [lookup_added] at found
    split at found
    case isTrue same =>
      cases found
      exact ⟨_, List.getElem?_concat_length, same.symm⟩
    case isFalse =>
      obtain ⟨path, at_r, own⟩ := inv.found blocks r found
      rw [List.getElem?_append_left (List.getElem?_eq_some_iff.mp at_r).1]
      exact ⟨path, at_r, own⟩
  · intro path own
    rcases (mem path).mp own with own | rfl
    · exact inv.time path own
    · exact .inl (show (-1 : Int) < 0 by decide)
  · intro path own d at_delta
    rcases (mem path).mp own with own | rfl
    · obtain ⟨value, known⟩ := inv.delta path own d at_delta
      refine ⟨value, fun part mem => ?_⟩
      obtain ⟨r, found⟩ := Option.isSome_iff_exists.mp (known part mem)
      exact Option.isSome_iff_exists.mpr ⟨r, grows part r found⟩
    · cases at_delta

theorem Seen.added {seen : List (List B)} (asked : Seen st seen) (bb : B) (rest : List B) :
    Seen (added st bb rest) (seen ++ [bb :: rest]) where
  paths blocks := by
    rw [lookup_added, List.mem_append, List.mem_singleton, ← asked.paths]
    split
    case isTrue same => exact iff_of_true rfl (.inr same)
    case isFalse ne => exact (or_iff_left ne).symm
  roots b := by
    rw [isSome_trees_added, asked.roots]
    simp only [List.mem_append, List.mem_singleton, or_and_right, exists_or, exists_eq_left, List.head?_cons,
      Option.some.injEq]
    rw [or_comm, eq_comm]

/-- Paths that are asked for again. -/
theorem Seen.again {seen more : List (List B)} (asked : Seen st seen) (known : ∀ blocks ∈ more, (lookup st blocks).isSome) :
    Seen st (seen ++ more) := by
  have mem : ∀ blocks, blocks ∈ seen ++ more ↔ blocks ∈ seen := fun blocks => by
    rw [List.mem_append, or_iff_left_of_imp fun mem => (asked.paths blocks).mp (known blocks mem)]
  exact ⟨fun blocks => (asked.paths blocks).trans (mem blocks).symm, fun bb => by simp only [mem, asked.roots]⟩

end Trees

/-! ## Operations -/

section Operations

variable {seen : List (List B)} {blocks : List B} {r : ℕ}

theorem getBBPath_spec (ready : Ready sim st seen) (nonempty : blocks ≠ []) :
    ∃ r st', getBBPath blocks st = some (r, st') ∧ lookup st' blocks = some r ∧
      Ready sim st' (seen ++ [blocks]) ∧ Grows st st' := by
  obtain ⟨bb, rest, rfl⟩ := List.exists_cons_of_ne_nil nonempty
  rw [getBBPath_cons]
  cases found : lookup st (bb :: rest) with
  | some r =>
    refine ⟨r, st, rfl, found, ⟨ready.inv, ready.seen.again fun blocks mem => ?_⟩, fun _ _ => id⟩
    rw [List.mem_singleton.mp mem, found]
    rfl
  | none =>
    refine ⟨_, _, rfl, ?_, ⟨ready.inv.added found, ready.seen.added bb rest⟩, grows_added found⟩
    rw [lookup_added, if_pos rfl]

/-- A property of a path is set. -/
theorem Inv.setPath (inv : Inv sim st) {path path' : BBPath B} (at_r : st.paths[r]? = some path)
    (same : path'.blocks = path.blocks) (time : path'.time < 0 ∨ path'.time = sim path'.blocks)
    (delta : ∀ d, path'.delta = some d →
      d = deltaOf sim path'.blocks ∧ ∀ part ∈ parts path'.blocks, (lookup st part).isSome) :
    Inv sim (st.setPath r path') := by
  have lt := (List.getElem?_eq_some_iff.mp at_r).1
  have at_set : ∀ i, (st.setPath r path').paths[i]? = if i = r then some path' else st.paths[i]? := by
    intro i
    change (st.paths.set r path')[i]? = _
    rw [List.getElem?_set]
    by_cases eq : r = i
    · rw [if_pos eq, if_pos (eq ▸ lt), if_pos eq.symm]
    · rw [if_neg eq, if_neg (Ne.symm eq)]
  refine ⟨fun i p at_i => ?_, fun l i found => ?_, fun p mem => ?_, fun p mem => ?_⟩
  · rw [at_set] at at_i
    split at at_i
    case isTrue eq =>
      obtain rfl := Option.some.inj at_i
      rw [eq, same]
      exact inv.known r path at_r
    case isFalse => exact inv.known i p at_i
  · obtain ⟨p, at_i, own⟩ := inv.found l i found
    rw [at_set]
    split
    case isTrue eq =>
      rw [eq, at_r, Option.some.injEq] at at_i
      exact ⟨path', rfl, by rw [same, at_i, own]⟩
    case isFalse => exact ⟨p, at_i, own⟩
  · rcases List.mem_or_eq_of_mem_set mem with mem | rfl
    · exact inv.time p mem
    · exact time
  · rcases List.mem_or_eq_of_mem_set mem with mem | rfl
    · exact inv.delta p mem
    · exact delta

theorem lookup_congr (trees : st'.trees = st.trees) (blocks : List B) : lookup st' blocks = lookup st blocks := by
  cases blocks with
  | nil => rfl
  | cons bb rest => rw [lookup, lookup, trees]

theorem grows_of_trees (trees : st'.trees = st.trees) : Grows st st' := fun blocks _ found =>
  (lookup_congr trees blocks).trans found

theorem Seen.of_trees (asked : Seen st seen) (trees : st'.trees = st.trees) : Seen st' seen where
  paths blocks := by rw [lookup_congr trees, asked.paths]
  roots bb := by rw [trees, asked.roots]

theorem time_spec (ready : Ready sim st seen) (found : lookup st blocks = some r) :
    ∃ st', time sim r st = some (sim blocks, st') ∧ Ready sim st' seen ∧ st'.trees = st.trees := by
  obtain ⟨path, at_r, rfl⟩ := ready.inv.found blocks r found
  have own := List.mem_of_getElem? at_r
  simp only [time, at_r, Option.bind_eq_bind, Option.bind_some]
  split
  case isTrue =>
    refine ⟨_, rfl, ⟨?_, ready.seen.of_trees rfl⟩, rfl⟩
    exact ready.inv.setPath at_r rfl (.inr rfl) (ready.inv.delta path own)
  case isFalse known =>
    rw [(ready.inv.time path own).resolve_left known]
    exact ⟨st, rfl, ready, rfl⟩

theorem setDelta_spec (ready : Ready sim st seen) (found : lookup st blocks = some r)
    (known : ∀ part ∈ parts blocks, (lookup st part).isSome) :
    ∃ st', setDelta r (deltaOf sim blocks) st = some (deltaOf sim blocks, st') ∧ Ready sim st' seen ∧ Grows st st' := by
  obtain ⟨path, at_r, rfl⟩ := ready.inv.found blocks r found
  simp only [setDelta, at_r, Option.bind_eq_bind, Option.bind_some]
  refine ⟨_, rfl, ⟨?_, ready.seen.of_trees rfl⟩, grows_of_trees rfl⟩
  refine ready.inv.setPath at_r rfl (ready.inv.time path (List.mem_of_getElem? at_r)) fun d own => ?_
  exact ⟨(Option.some.inj own).symm, known⟩

theorem subTime_spec (ready : Ready sim st seen) {first last : ℕ} {part : List B}
    (cut : sub blocks first last = some part) (nonempty : part ≠ []) :
    ∃ st', subTime sim blocks first last st = some (sim part, st') ∧ Ready sim st' (seen ++ [part]) ∧ Grows st st' := by
  obtain ⟨r, st₁, got, found, ready₁, grows⟩ := getBBPath_spec ready nonempty
  obtain ⟨st₂, timed, ready₂, trees⟩ := time_spec ready₁ found
  refine ⟨st₂, ?_, ready₂, grows.trans (grows_of_trees trees)⟩
  simp only [subTime, cut, Option.bind_eq_bind, Option.bind_some, got, timed]

section

omit [DecidableEq B]

theorem sub_dropLast (long : 2 ≤ blocks.length) : sub blocks 1 (blocks.length - 1) = some blocks.dropLast := by
  rw [sub, if_pos (by omega), List.dropLast_eq_take]
  congr 2
  omega

theorem sub_tail (long : 2 ≤ blocks.length) : sub blocks 2 blocks.length = some blocks.tail := by
  rw [sub, if_pos (by omega), List.drop_one, List.take_of_length_le]
  rw [List.length_tail]
  omega

theorem sub_mid (long : 3 ≤ blocks.length) : sub blocks 2 (blocks.length - 1) = some blocks.tail.dropLast := by
  rw [sub, if_pos (by omega), List.drop_one, List.dropLast_eq_take, List.length_tail]
  congr 2
  omega

end

theorem delta_spec (ready : Ready sim st seen) (found : lookup st blocks = some r) :
    ∃ st', delta sim r st = some (deltaOf sim blocks, st') ∧ Ready sim st' (seen ++ parts blocks) ∧ Grows st st' := by
  obtain ⟨path, at_r, own⟩ := ready.inv.found blocks r found
  simp only [delta, at_r, Option.bind_eq_bind, Option.bind_some, own]
  split
  case isTrue short =>
    rw [deltaOf, parts, if_pos short, if_pos short, List.append_nil]
    exact ⟨st, rfl, ready, fun _ _ => id⟩
  case isFalse long =>
    split
    case h_1 d memo =>
      -- the delta was computed before, and so its parts have been asked for
      obtain ⟨value, known⟩ := ready.inv.delta path (List.mem_of_getElem? at_r) d memo
      rw [own] at value known
      obtain ⟨st', set, ready', grows⟩ := setDelta_spec ready found known
      exact ⟨st', value ▸ set, ⟨ready'.inv, ready'.seen.again fun part mem => by
        obtain ⟨r', at_part⟩ := Option.isSome_iff_exists.mp (known part mem)
        exact Option.isSome_iff_exists.mpr ⟨r', grows part r' at_part⟩⟩, grows⟩
    case h_2 =>
      have two : 2 ≤ blocks.length := by omega
      have tail_ne : blocks.tail ≠ [] := List.length_pos_iff.mp (by rw [List.length_tail]; omega)
      have init_ne : blocks.dropLast ≠ [] := List.length_pos_iff.mp (by rw [List.length_dropLast]; omega)
      obtain ⟨st₁, timed, ready₁, trees⟩ := time_spec ready found
      obtain ⟨st₂, left, ready₂, grows₂⟩ := subTime_spec ready₁ (sub_dropLast two) init_ne
      obtain ⟨st₃, right, ready₃, grows₃⟩ := subTime_spec ready₂ (sub_tail two) tail_ne
      have grows := (grows_of_trees trees).trans (grows₂.trans grows₃)
      rw [List.append_assoc, List.singleton_append] at ready₃
      simp only [timed, left, right, Option.bind_some]
      split
      case isTrue pair =>
        have cut : parts blocks = [blocks.dropLast, blocks.tail] := by rw [parts, if_neg long, if_pos pair]
        have value : deltaOf sim blocks = sim blocks - sim blocks.dropLast - sim blocks.tail := by
          rw [deltaOf, if_neg long, if_pos pair]
        rw [← cut] at ready₃
        obtain ⟨st', set, ready', grows'⟩ := setDelta_spec ready₃ (grows _ r found)
          fun part mem => (ready₃.seen.paths part).mpr (List.mem_append_right _ mem)
        exact ⟨st', value ▸ set, ready', grows.trans grows'⟩
      case isFalse more =>
        have cut : parts blocks = [blocks.dropLast, blocks.tail, blocks.tail.dropLast] := by
          rw [parts, if_neg long, if_neg more]
        have value : deltaOf sim blocks =
            sim blocks - sim blocks.dropLast - sim blocks.tail + sim blocks.tail.dropLast := by
          rw [deltaOf, if_neg long, if_neg more]
        have mid_ne : blocks.tail.dropLast ≠ [] :=
          List.length_pos_iff.mp (by rw [List.length_dropLast, List.length_tail]; omega)
        obtain ⟨st₄, mid, ready₄, grows₄⟩ := subTime_spec ready₃ (sub_mid (by omega)) mid_ne
        rw [List.append_assoc] at ready₄
        change Ready sim st₄ (seen ++ [blocks.dropLast, blocks.tail, blocks.tail.dropLast]) at ready₄
        rw [← cut] at ready₄
        obtain ⟨st', set, ready', grows'⟩ := setDelta_spec ready₄ (grows₄ _ r (grows _ r found))
          fun part mem => (ready₄.seen.paths part).mpr (List.mem_append_right _ mem)
        refine ⟨st', ?_, ready', grows.trans (grows₄.trans grows')⟩
        simp only [mid, Option.bind_some]
        exact value ▸ set

end Operations

/-! ## The identity -/

section Sums

omit [DecidableEq B]

/-- The time of a path, 0 for no block. -/
def timeOf (sim : List B → Int) (blocks : List B) : Int := if blocks.isEmpty then 0 else sim blocks

theorem timeOf_eq {blocks : List B} (nonempty : blocks ≠ []) : timeOf sim blocks = sim blocks :=
  if_neg (by rwa [List.isEmpty_iff])

theorem deltaOf_eq_excess {blocks : List B} (long : 2 ≤ blocks.length) :
    deltaOf sim blocks = excess (timeOf sim) blocks := by
  have ne : blocks ≠ [] := List.length_pos_iff.mp (by omega)
  have tail_ne : blocks.tail ≠ [] := List.length_pos_iff.mp (by rw [List.length_tail]; omega)
  have init_ne : blocks.dropLast ≠ [] := List.length_pos_iff.mp (by rw [List.length_dropLast]; omega)
  rw [deltaOf, if_neg (by omega), excess, timeOf_eq ne, timeOf_eq tail_ne, timeOf_eq init_ne]
  split
  case isTrue pair =>
    have mid : blocks.tail.dropLast = [] :=
      List.length_eq_zero_iff.mp (by rw [List.length_dropLast, List.length_tail]; omega)
    rw [mid]
    exact (add_zero _).symm
  case isFalse more =>
    rw [timeOf_eq (List.length_pos_iff.mp (by rw [List.length_dropLast, List.length_tail]; omega))]

/-- The deltas of the parts of two blocks and more and the times of the blocks make the time of the path. -/
theorem sum_deltas (sim : List B → Int) {path : List B} (nonempty : path ≠ []) :
    (((windows path).filter (2 ≤ ·.length)).map (deltaOf sim)).sum + (path.map fun bb => sim [bb]).sum = sim path := by
  have deltas : ((windows path).filter (2 ≤ ·.length)).map (deltaOf sim) =
      ((windows path).filter (2 ≤ ·.length)).map (excess (timeOf sim)) := by
    refine List.map_congr_left fun part mem => deltaOf_eq_excess ?_
    exact of_decide_eq_true (List.mem_filter.mp mem).2
  have singles : (path.map fun bb => sim [bb]) = path.map fun bb => excess (timeOf sim) [bb] := by
    refine List.map_congr_left fun bb _ => ?_
    simp [excess, timeOf]
  rw [deltas, singles, ← sum_windows_split, sum_excess rfl, timeOf_eq nonempty]

end Sums

/-! ## Requests in any order -/

section Requests

/-- The path that a request is for. -/
def Request.blocks : Request B → List B
  | .single bb => [bb]
  | .path bb rest | .time bb rest | .delta bb rest => bb :: rest

/-- The paths that are asked for by a request. -/
def Request.asks : Request B → List (List B)
  | .delta bb rest => (bb :: rest) :: parts (bb :: rest)
  | request => [request.blocks]

/-- The path of a block has been asked for, or no path that begins with the block. -/
def Request.Rooted (seen : List (List B)) : Request B → Prop
  | .single bb => [bb] ∈ seen ∨ ∀ blocks ∈ seen, blocks.head? ≠ some bb
  | _ => True

/-- Each request for the path of a block comes after another request for this path, or before the requests for
longer paths that begin with the block. -/
def Rooted : List (List B) → List (Request B) → Prop
  | _, [] => True
  | seen, request :: requests => request.Rooted seen ∧ Rooted (seen ++ request.asks) requests

/-- The answer that a request must have when the trees are the ones of the state. -/
def Right (sim : List B → Int) (st : State B) (request : Request B) (answer : Answer) : Prop :=
  match request with
  | .single _ | .path _ _ => ∃ r, answer = .path r ∧ lookup st request.blocks = some r
  | .time _ _ => answer = .value (sim request.blocks)
  | .delta _ _ => answer = .value (deltaOf sim request.blocks)

theorem Right.grows {request : Request B} {answer : Answer} (right : Right sim st request answer) (grows : Grows st st') :
    Right sim st' request answer := by
  cases request with
  | single bb =>
    obtain ⟨r, eq, found⟩ := right
    exact ⟨r, eq, grows _ r found⟩
  | path bb rest =>
    obtain ⟨r, eq, found⟩ := right
    exact ⟨r, eq, grows _ r found⟩
  | time => exact right
  | delta => exact right

end Requests

section Runs

variable {seen : List (List B)}

section

variable (ready : Ready sim st seen)
include ready

theorem getBBPathOf_spec {bb : B} (rooted : (Request.single bb).Rooted seen) :
    ∃ r st', getBBPathOf bb st = some (r, st') ∧ lookup st' [bb] = some r ∧ Ready sim st' (seen ++ [[bb]]) ∧
      Grows st st' := by
  rw [getBBPathOf_eq]
  rcases rooted with known | unasked
  · have found := (ready.seen.paths [bb]).mpr known
    obtain ⟨r, at_r⟩ := Option.isSome_iff_exists.mp found
    rw [if_pos ((ready.seen.roots bb).mpr ⟨[bb], known, rfl⟩), at_r]
    exact ⟨r, st, rfl, at_r, ⟨ready.inv, ready.seen.again fun blocks mem => List.mem_singleton.mp mem ▸ found⟩,
      fun _ _ => id⟩
  · have no_tree : ¬ (st.trees bb).isSome := fun some =>
      let ⟨blocks, mem, head⟩ := (ready.seen.roots bb).mp some
      unasked blocks mem head
    have new : lookup st [bb] = none := by
      rw [Option.not_isSome_iff_eq_none] at no_tree
      rw [lookup, no_tree]
      rfl
    rw [if_neg no_tree]
    refine ⟨_, _, rfl, ?_, ⟨ready.inv.added new, ready.seen.added bb []⟩, grows_added new⟩
    rw [lookup_added, if_pos rfl]

/-- A request for the path of a block whose tree has no path at its root fails. -/
theorem getBBPathOf_fails {bb : B} (not_rooted : ¬ (Request.single bb).Rooted seen) : getBBPathOf bb st = none := by
  simp only [Request.Rooted, not_or, not_forall, not_not, exists_prop] at not_rooted
  obtain ⟨new, root⟩ := not_rooted
  rw [getBBPathOf_eq, if_pos ((ready.seen.roots bb).mpr root)]
  have missing : lookup st [bb] = none := by
    rw [← Option.not_isSome_iff_eq_none]
    exact mt (ready.seen.paths [bb]).mp new
  rw [missing]
  rfl

theorem exec_spec {request : Request B} (rooted : request.Rooted seen) :
    ∃ answer st', exec sim st request = some (answer, st') ∧ Right sim st' request answer ∧
      Ready sim st' (seen ++ request.asks) ∧ Grows st st' := by
  cases request with
  | single bb =>
    obtain ⟨r, st', got, found, ready', grows⟩ := getBBPathOf_spec ready rooted
    exact ⟨.path r, st', by rw [exec, got]; rfl, ⟨r, rfl, found⟩, ready', grows⟩
  | path bb rest =>
    obtain ⟨r, st', got, found, ready', grows⟩ := getBBPath_spec ready (List.cons_ne_nil bb rest)
    exact ⟨.path r, st', by rw [exec, got]; rfl, ⟨r, rfl, found⟩, ready', grows⟩
  | time bb rest =>
    obtain ⟨r, st₁, got, found, ready₁, grows⟩ := getBBPath_spec ready (List.cons_ne_nil bb rest)
    obtain ⟨st', timed, ready', trees⟩ := time_spec ready₁ found
    refine ⟨.value (sim (bb :: rest)), st', ?_, rfl, ready', grows.trans (grows_of_trees trees)⟩
    simp only [exec, got, Option.bind_eq_bind, Option.bind_some, timed]
    rfl
  | delta bb rest =>
    obtain ⟨r, st₁, got, found, ready₁, grows⟩ := getBBPath_spec ready (List.cons_ne_nil bb rest)
    obtain ⟨st', computed, ready', grows'⟩ := delta_spec ready₁ found
    rw [List.append_assoc] at ready'
    refine ⟨.value (deltaOf sim (bb :: rest)), st', ?_, rfl, ready', grows.trans grows'⟩
    simp only [exec, got, Option.bind_eq_bind, Option.bind_some, computed]
    rfl

theorem exec_fails {request : Request B} (not_rooted : ¬ request.Rooted seen) : exec sim st request = none := by
  cases request with
  | single bb => rw [exec, getBBPathOf_fails ready not_rooted]; rfl
  | path => exact absurd trivial not_rooted
  | time => exact absurd trivial not_rooted
  | delta => exact absurd trivial not_rooted

theorem run_spec {requests : List (Request B)} (rooted : Rooted seen requests) :
    ∃ log st', run sim st requests = some (log, st') ∧ Inv sim st' ∧ Grows st st' ∧
      ∀ entry ∈ log, Right sim st' entry.1 entry.2 := by
  induction requests generalizing st seen with
  | nil => exact ⟨[], st, rfl, ready.inv, fun _ _ => id, List.forall_mem_nil _⟩
  | cons request requests ih =>
    obtain ⟨answer, st₁, answered, right, ready₁, grows₁⟩ := exec_spec ready rooted.1
    obtain ⟨log, st', ran, inv, grows, rights⟩ := ih ready₁ rooted.2
    refine ⟨(request, answer) :: log, st', ?_, inv, grows₁.trans grows, ?_⟩
    · simp only [run, answered, ran, Option.bind_eq_bind, Option.bind_some]
    · exact List.forall_mem_cons.mpr ⟨right.grows grows, rights⟩

theorem run_rooted {requests : List (Request B)} {r : List (Request B × Answer) × State B}
    (ran : run sim st requests = some r) : Rooted seen requests := by
  induction requests generalizing st seen r with
  | nil => exact trivial
  | cons request requests ih =>
    by_cases rooted : request.Rooted seen
    · obtain ⟨answer, st₁, answered, -, ready₁, -⟩ := exec_spec ready rooted
      simp only [run, answered, Option.bind_eq_bind, Option.bind_some] at ran
      obtain ⟨rest, more, -⟩ := Option.bind_eq_some_iff.mp ran
      exact ⟨rooted, ih ready₁ more⟩
    · rw [run, exec_fails ready rooted] at ran
      cases ran

end

/-- The requests for paths reach the same object exactly when they are for the same blocks; each time that is
answered is the one of its path; and the deltas that are answered sum up, with the times, to the times. -/
structure Telescoping (sim : List B → Int) (log : List (Request B × Answer)) : Prop where
  objects : ∀ entry ∈ log, ∀ entry' ∈ log, ∀ r r', entry.2 = .path r → entry'.2 = .path r' →
    (r = r' ↔ entry.1.blocks = entry'.1.blocks)
  times : ∀ bb rest answer, (.time bb rest, answer) ∈ log → answer = .value (sim (bb :: rest))
  sums : ∃ deltas : List B → Int,
    (∀ bb rest answer, (.delta bb rest, answer) ∈ log → answer = .value (deltas (bb :: rest))) ∧
    ∀ path ≠ [], (((windows path).filter (2 ≤ ·.length)).map deltas).sum + (path.map fun bb => sim [bb]).sum = sim path

theorem Right.lookup_eq {request : Request B} {answer : Answer} (right : Right sim st request answer) {r : ℕ}
    (path : answer = .path r) : lookup st request.blocks = some r := by
  subst path
  cases request with
  | single bb =>
    obtain ⟨r', eq, found⟩ := right
    exact Answer.path.inj eq ▸ found
  | path bb rest =>
    obtain ⟨r', eq, found⟩ := right
    exact Answer.path.inj eq ▸ found
  | time => cases right
  | delta => cases right

theorem telescoping_of_right (inv : Inv sim st) {log : List (Request B × Answer)}
    (right : ∀ entry ∈ log, Right sim st entry.1 entry.2) : Telescoping sim log where
  objects entry mem entry' mem' r r' path path' := by
    have found := (right entry mem).lookup_eq path
    have found' := (right entry' mem').lookup_eq path'
    constructor
    · rintro rfl
      obtain ⟨object, at_r, own⟩ := inv.found _ r found
      obtain ⟨object', at_r', own'⟩ := inv.found _ r found'
      rw [← own, ← own', Option.some.inj (at_r.symm.trans at_r')]
    · intro same
      exact Option.some.inj (found.symm.trans (same ▸ found'))
  times bb rest answer mem := right _ mem
  sums := ⟨deltaOf sim, fun bb rest answer mem => right _ mem, fun _ => sum_deltas sim⟩

theorem ready_start (sim : List B → Int) : Ready sim .start [] where
  inv := by
    have none : ∀ blocks, lookup (State.start (B := B)) blocks = none := fun blocks => by cases blocks <;> rfl
    refine ⟨fun r path at_r => ?_, fun blocks r found => ?_, List.forall_mem_nil _, List.forall_mem_nil _⟩
    · cases at_r
    · rw [none] at found
      cases found
  seen := ⟨fun blocks => by cases blocks <;> simp [lookup, State.start], fun bb => by simp [State.start]⟩

/-- Whatever is asked for and in whatever order, all requests are answered and the deltas telescope, unless the path
of a block is asked for by the block when a longer path has made its tree. -/
theorem telescoping_iff (sim : List B → Int) (requests : List (Request B)) :
    (∃ log st, run sim .start requests = some (log, st) ∧ Telescoping sim log) ↔ Rooted [] requests := by
  constructor
  · rintro ⟨log, st, ran, -⟩
    exact run_rooted (ready_start sim) ran
  · intro rooted
    obtain ⟨log, st, ran, inv, -, right⟩ := run_spec (ready_start sim) rooted
    exact ⟨log, st, ran, telescoping_of_right inv right⟩

/-- The path of two blocks is asked for first: its tree has no path at the root, and the first block has no path. -/
theorem root_missing : ¬ ∃ log st, run (B := ℕ) (fun _ => 1) .start [.path 0 [1], .single 0] = some (log, st) ∧
    Telescoping (fun _ => 1) log := by
  have fails : run (B := ℕ) (fun _ => 1) .start [.path 0 [1], .single 0] = none := rfl
  rintro ⟨log, st, ran, -⟩
  rw [fails] at ran
  cases ran

end Runs

end Otawa.Tsim
