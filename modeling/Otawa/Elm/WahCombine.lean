import Otawa.Elm.WahBits

/-!
# The operations on whole vectors

The loop of `doAnd`, `doOr` and `doReset` walks both vectors at once, by runs where both are at a fill and by
groups where one is at a literal; it pushes the groups that the operation gives. Only `doOr` can complete the last
group of two vectors whose last groups are both mixed, and so only it can fall into the trap.
-/

namespace Otawa.Elm.WAHVector

variable {n k : ℕ} {w : Word} {b l : List Word} {f g : ℕ → Bool} {op : Word → Word → Word}
  {bop : Bool → Bool → Bool}

/-- The operation works on the bits of groups, and gives a uniform group for uniform ones. -/
structure GroupOp (op : Word → Word → Word) (bop : Bool → Bool → Bool) : Prop where
  bits : ∀ x y : Word, ∀ j < 31, (op x y).getLsbD j = bop (x.getLsbD j) (y.getLsbD j)
  top : ∀ x y : Word, x.getLsbD 31 = false → y.getLsbD 31 = false → (op x y).getLsbD 31 = false
  uniform : ∀ u v, op (uniform u) (uniform v) = uniform (bop u v)

theorem groupOp_and : GroupOp (fun w1 w2 => w1 &&& w2) (fun a b => a && b) where
  bits := fun _ _ _ _ => BitVec.getLsbD_and
  top := fun _ _ hx _ => by rw [BitVec.getLsbD_and, hx, Bool.false_and]
  uniform := by decide

theorem groupOp_or : GroupOp (fun w1 w2 => w1 ||| w2) (fun a b => a || b) where
  bits := fun _ _ _ _ => BitVec.getLsbD_or
  top := fun _ _ hx hy => by rw [BitVec.getLsbD_or, hx, hy, Bool.false_or]
  uniform := by decide

theorem groupOp_reset : GroupOp (fun w1 w2 => w1 &&& ~~~w2) (fun a b => a && !b) where
  bits := fun _ _ j hj => by
    rw [BitVec.getLsbD_and, BitVec.getLsbD_not, decide_eq_true (by omega : j < 32), Bool.true_and]
  top := fun _ _ hx _ => by rw [BitVec.getLsbD_and, hx, Bool.false_and]
  uniform := by decide

/-! ### Iterators -/

/-- The groups that are left of an iterator. -/
def Iter.left (i : Iter) : List Word :=
  if i.words = [] then [] else List.replicate i.cnt i.val ++ groups i.words.tail

structure Iter.Valid (i : Iter) : Prop where
  proper : ∀ w ∈ i.words.tail, Proper w
  pos : i.words ≠ [] → 1 ≤ i.cnt
  uniform : i.words ≠ [] → i.isFill = true → ∃ u, i.val = WAHVector.uniform u
  top : i.val.getLsbD 31 = false

theorem iter_valid (hl : ∀ w ∈ l, Proper w) : (iter l).Valid where
  proper := fun w hw => hl w (List.mem_of_mem_tail hw)
  pos := by
    intro hne
    obtain ⟨w, rest, rfl⟩ := List.exists_cons_of_ne_nil hne
    exact (hl w List.mem_cons_self).count_pos
  uniform := fun _ hfill => ⟨_, value_of_fill hfill⟩
  top := value_top _

theorem iter_left (l : List Word) : (iter l).left = groups l := by
  cases l with
  | nil => rfl
  | cons w rest => exact if_neg (List.cons_ne_nil w rest)

theorem Iter.left_ne_nil {i : Iter} (hi : i.Valid) (hne : i.words ≠ []) : 0 < i.left.length := by
  rw [Iter.left, if_neg hne, List.length_append, List.length_replicate]
  have := hi.pos hne
  omega

theorem Iter.ended_iff {i : Iter} (hi : i.Valid) : i.ended = true ↔ i.left.length = 0 := by
  rw [Iter.ended, List.isEmpty_iff]
  constructor
  · intro hnil
    rw [Iter.left, if_pos hnil]
    rfl
  · intro hzero
    by_contra hne
    have := Iter.left_ne_nil hi hne
    omega

/-- Consuming takes groups from the front. -/
theorem Iter.consume_left {i : Iter} (hi : i.Valid) (hne : i.words ≠ []) {c : ℕ} (hc : c ≤ i.cnt) :
    ∃ i', i.consume c = some i' ∧ i'.Valid ∧ i.left = List.replicate c i.val ++ i'.left := by
  rw [Iter.consume, if_pos hc]
  by_cases hzero : i.cnt - c = 0
  · have hcnt : i.cnt = c := by omega
    refine ⟨i.next, by rw [if_pos hzero], iter_valid hi.proper, ?_⟩
    rw [Iter.next, iter_left, Iter.left, if_neg hne, hcnt]
  · refine ⟨{ i with cnt := i.cnt - c }, by rw [if_neg hzero],
      ⟨hi.proper, fun _ => Nat.pos_of_ne_zero hzero, hi.uniform, hi.top⟩, ?_⟩
    have hsum : i.cnt = c + (i.cnt - c) := by omega
    rw [Iter.left, if_neg hne, Iter.left, if_neg hne, ← List.append_assoc, List.replicate_append_replicate, ← hsum]

theorem zipWith_replicate_append {c : ℕ} (x y : Word) (xs ys : List Word) :
    List.zipWith op (List.replicate c x ++ xs) (List.replicate c y ++ ys) =
      List.replicate c (op x y) ++ List.zipWith op xs ys := by
  induction c with
  | zero => rfl
  | succ c ih => simp only [List.replicate_succ, List.cons_append, List.zipWith_cons_cons, ih]

/-- The loop pushes the groups that the operation gives for those that are left. -/
theorem combineLoop_pushed (hop : GroupOp op bop) (fuel : ℕ) (i1 i2 : Iter) (b : Builder) (h1 : i1.Valid)
    (h2 : i2.Valid) (hlength : i1.left.length = i2.left.length) (hfuel : i1.left.length ≤ fuel) (hb : Normal b)
    (hk : (built b).length + i1.left.length < 2 ^ 30) :
    ∃ b', combineLoop op fuel i1 i2 b = some b' ∧ Normal b' ∧
      built b' = built b ++ List.zipWith op i1.left i2.left := by
  induction fuel generalizing i1 i2 b with
  | zero =>
    have hzero : i1.left.length = 0 := by omega
    refine ⟨b, ?_, hb, ?_⟩
    · rw [combineLoop, if_pos ((Iter.ended_iff h1).mpr hzero)]
    · rw [List.length_eq_zero_iff.mp hzero]
      simp
  | succ fuel ih =>
    rw [combineLoop]
    by_cases hended : i1.ended = true
    · have hzero := (Iter.ended_iff h1).mp hended
      refine ⟨b, by rw [if_pos hended], hb, ?_⟩
      rw [List.length_eq_zero_iff.mp hzero]
      simp
    · have hpos : i1.left.length ≠ 0 := fun hzero => hended ((Iter.ended_iff h1).mpr hzero)
      have hended2 : ¬ i2.ended = true := fun h => hpos (hlength.trans ((Iter.ended_iff h2).mp h))
      have hne1 : i1.words ≠ [] := fun hnil => hended (by rw [Iter.ended, hnil]; rfl)
      have hne2 : i2.words ≠ [] := fun hnil => hended2 (by rw [Iter.ended, hnil]; rfl)
      have hpos1 := h1.pos hne1
      have hpos2 := h2.pos hne2
      rw [if_neg hended, if_neg hended2]
      -- both branches consume the same number of groups and push what the operation gives for them
      have hturn : ∀ (c : ℕ) (b1 : Builder), 1 ≤ c → c ≤ i1.cnt → c ≤ i2.cnt → Normal b1 →
          built b1 = built b ++ List.replicate c (op i1.val i2.val) →
          ∃ b', (do
            let i1' ← i1.consume c
            let i2' ← i2.consume c
            combineLoop op fuel i1' i2' b1) = some b' ∧ Normal b' ∧
            built b' = built b ++ List.zipWith op i1.left i2.left := by
        intro c b1 hc hc1 hc2 hb1 hbuilt1
        obtain ⟨i1', hi1', hv1, hl1⟩ := Iter.consume_left h1 hne1 hc1
        obtain ⟨i2', hi2', hv2, hl2⟩ := Iter.consume_left h2 hne2 hc2
        have hlen1 : i1.left.length = c + i1'.left.length := by
          rw [hl1, List.length_append, List.length_replicate]
        have hlen2 : i2.left.length = c + i2'.left.length := by
          rw [hl2, List.length_append, List.length_replicate]
        have hlenb : (built b1).length = (built b).length + c := by
          rw [hbuilt1, List.length_append, List.length_replicate]
        obtain ⟨b', hb', hnormal, hbuilt'⟩ := ih i1' i2' b1 hv1 hv2 (by omega) (by omega) hb1 (by omega)
        refine ⟨b', ?_, hnormal, ?_⟩
        · rw [hi1', hi2']
          exact hb'
        · rw [hbuilt', hbuilt1, hl1, hl2, zipWith_replicate_append, List.append_assoc]
      have hlen1 : i1.cnt ≤ i1.left.length := by
        rw [Iter.left, if_neg hne1, List.length_append, List.length_replicate]
        omega
      by_cases hfills : (i1.isFill && i2.isFill) = true
      · rw [if_pos hfills]
        obtain ⟨hf1, hf2⟩ := Bool.and_eq_true_iff.mp hfills
        obtain ⟨u1, hu1⟩ := h1.uniform hne1 hf1
        obtain ⟨u2, hu2⟩ := h2.uniform hne2 hf2
        have hval : op i1.val i2.val = uniform (bop u1 u2) := by rw [hu1, hu2, hop.uniform]
        have hpushed := pushFill_pushed (k := min i1.cnt i2.cnt) (v := bop u1 u2) hb (by omega) (by omega)
        have hfill : (op i1.val i2.val != 0#32) = bop u1 u2 := by rw [hval, uniform_ne_zero]
        refine hturn (min i1.cnt i2.cnt) _ (by omega) (by omega) (by omega) ?_ ?_
        · rw [hfill]
          exact hpushed.normal
        · rw [hfill, hval]
          exact hpushed.built
      · rw [if_neg hfills]
        obtain ⟨_, _, hpushed, -⟩ := pushLite_pushed hb (hop.top _ _ h1.top h2.top) (by omega)
        exact hturn 1 _ le_rfl hpos1 hpos2 hpushed.normal hpushed.built

theorem groups_length_le_turns (v : WAHVector) : (groups v.words).length ≤ v.turns := by
  unfold turns
  induction v.words with
  | nil => exact Nat.zero_le _
  | cons w rest ih =>
    rw [groups_cons, List.length_append, List.length_replicate, List.map_cons, List.sum_cons]
    omega

theorem bitAt_zipWith (hop : GroupOp op bop) {xs ys : List Word} (hx : k / 31 < xs.length) (hy : k / 31 < ys.length) :
    bitAt (List.zipWith op xs ys) k = bop (bitAt xs k) (bitAt ys k) := by
  obtain ⟨x, hx⟩ := getElem?_lt hx
  obtain ⟨y, hy⟩ := getElem?_lt hy
  have hz : (List.zipWith op xs ys)[k / 31]? = some (op x y) := by
    rw [List.getElem?_zipWith, hx, hy]
  rw [bitAt_eq hz, bitAt_eq hx, bitAt_eq hy]
  exact hop.bits x y _ (by omega)

/-- A combination of two vectors of one size, outside the trap. -/
theorem combine_represents (hop : GroupOp op bop) {r v1 v2 : WAHVector} (hn : 0 < n) (hbound : n < 2 ^ 30)
    (h1 : Represents n v1 f) (h2 : Represents n v2 g) (hr : r.rem = n % 31)
    (hsafe : ∀ u, ¬ Trap n (bitAt (List.zipWith op (groups v1.words) (groups v2.words))) u) :
    ∃ v, combine op r v1 v2 = some v ∧ Represents n v fun i => bop (f i) (g i) := by
  have hl1 := h1.length
  have hl2 := h2.length
  have hfuel := groups_length_le_turns v1
  obtain ⟨b, hb, hnormal, hbuilt⟩ := combineLoop_pushed hop v1.turns (iter v1.words) (iter v2.words) []
    (iter_valid h1.normal.proper) (iter_valid h2.normal.proper) (by rw [iter_left, iter_left, hl1, hl2])
    (by rw [iter_left]; exact hfuel) normal_nil (by rw [iter_left, built_nil, List.length_nil]; omega)
  rw [iter_left, iter_left, built_nil, List.nil_append] at hbuilt
  refine ⟨{ r with words := fix v1.rem b }, by rw [combine, hb]; rfl, ?_⟩
  rw [hr, h1.rem]
  refine fix_represents hn hbound hnormal ?_ (fun i hi => ?_) fun u => ?_
  · rw [hbuilt, List.length_zipWith, hl1, hl2, Nat.min_self]
  · rw [hbuilt, bitAt_zipWith hop (by omega) (by omega), h1.bits i hi, h2.bits i hi]
  · rw [hbuilt]
    exact hsafe u

/-! ### The trap -/

/-- The last groups of both vectors are mixed and together complete, and the literal before them has its top bit
set. -/
structure OrTrap (n : ℕ) (f g : ℕ → Bool) : Prop where
  part : n % 31 ≠ 0
  second : 31 ≤ n
  first : Mixed f (31 * (n / 31)) (n % 31)
  other : Mixed g (31 * (n / 31)) (n % 31)
  complete : ∀ j < n % 31, (f (31 * (n / 31) + j) || g (31 * (n / 31) + j)) = true
  prev : Mixed (fun i => f i || g i) (31 * (n / 31 - 1)) 31
  top : (f (31 * (n / 31) - 1) || g (31 * (n / 31) - 1)) = true

/-- A last group as the bits of the function, or uniform. -/
structure Last (n : ℕ) (f : ℕ → Bool) (v : WAHVector) : Prop where
  cases : (∃ u, ∀ j < 31, bitAt (groups v.words) (31 * (n / 31) + j) = u) ∨
    ((∀ j < 31, n % 31 ≤ j → bitAt (groups v.words) (31 * (n / 31) + j) = false) ∧
      Mixed f (31 * (n / 31)) (n % 31))
  bits : ∀ j < n % 31, bitAt (groups v.words) (31 * (n / 31) + j) = f (31 * (n / 31) + j)

theorem Represents.last {v : WAHVector} (hv : Represents n v f) (hpart : n % 31 ≠ 0) : Last n f v where
  bits := fun j hj => hv.bits _ (by omega)
  cases := by
    obtain huniform | ⟨hpad, ⟨j, hj, hset⟩, ⟨i, hi, hclear⟩⟩ := hv.tail hpart
    · exact .inl huniform
    · refine .inr ⟨hpad, ⟨j, hj, ?_⟩, ⟨i, hi, ?_⟩⟩
      · rw [← hv.bits _ (by omega), hset]
      · rw [← hv.bits _ (by omega), hclear]

section

variable (hop : GroupOp op bop) {v1 v2 : WAHVector} (h1 : Represents n v1 f) (h2 : Represents n v2 g) {u : Bool}
  (htrap : Trap n (bitAt (List.zipWith op (groups v1.words) (groups v2.words))) u)
include hop h1 h2 htrap

/-- What the trap says of the groups that an operation gives. -/
theorem trap_zipWith :
    (∀ v, ∃ j < 31, bop (bitAt (groups v1.words) (31 * (n / 31) + j)) (bitAt (groups v2.words) (31 * (n / 31) + j)) = v) ∧
      ∀ j < n % 31, bop (f (31 * (n / 31) + j)) (g (31 * (n / 31) + j)) = u := by
  have hpart := htrap.part
  have hl1 := h1.length
  have hl2 := h2.length
  constructor
  · intro v
    obtain ⟨j, hj, hv⟩ := htrap.last.both v
    rw [bitAt_zipWith hop (by omega) (by omega)] at hv
    exact ⟨j, hj, hv⟩
  · intro j hj
    have hsame := htrap.same j hj
    rwa [bitAt_zipWith hop (by omega) (by omega), h1.bits _ (by omega), h2.bits _ (by omega)] at hsame

/-- In the trap the last groups of both vectors are mixed: an operation that is not constant gives, with a uniform
group, the mixed group or its complement. -/
theorem trap_mixed :
    Mixed f (31 * (n / 31)) (n % 31) ∧ Mixed g (31 * (n / 31)) (n % 31) ∧
      ∀ j < 31, n % 31 ≤ j → bitAt (groups v1.words) (31 * (n / 31) + j) = false := by
  obtain ⟨hboth, hsame⟩ := trap_zipWith hop h1 h2 htrap
  obtain ⟨j, hj, hbit⟩ := hboth !u
  have hl1 := h1.last htrap.part
  have hl2 := h2.last htrap.part
  obtain ⟨u1, hu1⟩ | ⟨hpad1, hmixed1⟩ := hl1.cases
  · exfalso
    rw [hu1 j hj] at hbit
    obtain ⟨u2, hu2⟩ | ⟨-, hmixed2⟩ := hl2.cases
    · obtain ⟨i, hi, hbit'⟩ := hboth u
      rw [hu1 i hi, hu2 i hi, ← hu2 j hj, hbit] at hbit'
      cases u <;> cases hbit'
    · obtain ⟨a, ha, hother⟩ := hmixed2.both (bitAt (groups v2.words) (31 * (n / 31) + j))
      have hu := hsame a ha
      rw [← hl1.bits a ha, hu1 a (by omega), hother, hbit] at hu
      cases u <;> cases hu
  · obtain ⟨u2, hu2⟩ | ⟨-, hmixed2⟩ := hl2.cases
    · exfalso
      rw [hu2 j hj] at hbit
      obtain ⟨a, ha, hother⟩ := hmixed1.both (bitAt (groups v1.words) (31 * (n / 31) + j))
      have hu := hsame a ha
      rw [← hl2.bits a ha, hu2 a (by omega), hother, hbit] at hu
      cases u <;> cases hu
    · exact ⟨hmixed1, hmixed2, hpad1⟩

end

/-- An operation that clears the bits that are clear in its first operand does not fall into the trap. -/
theorem clearing_safe (hop : GroupOp op bop) (hclear : ∀ c, bop false c = false) {v1 v2 : WAHVector}
    (h1 : Represents n v1 f) (h2 : Represents n v2 g) (u : Bool) :
    ¬ Trap n (bitAt (List.zipWith op (groups v1.words) (groups v2.words))) u := by
  intro htrap
  obtain ⟨hmixed1, -, hpad1⟩ := trap_mixed hop h1 h2 htrap
  obtain ⟨hboth, hsame⟩ := trap_zipWith hop h1 h2 htrap
  obtain ⟨a, ha, hfalse⟩ := hmixed1.clear
  have hu := hsame a ha
  rw [hfalse, hclear] at hu
  subst hu
  obtain ⟨j, hj, hset⟩ := hboth true
  by_cases hjn : j < n % 31
  · have hzero := hsame j hjn
    rw [← (h1.last htrap.part).bits j hjn, ← (h2.last htrap.part).bits j hjn, hset] at hzero
    cases hzero
  · rw [hpad1 j hj (by omega), hclear] at hset
    cases hset

theorem or_safe {v1 v2 : WAHVector} (h1 : Represents n v1 f) (h2 : Represents n v2 g) (hsafe : ¬ OrTrap n f g)
    (u : Bool) : ¬ Trap n (bitAt (List.zipWith (fun w1 w2 => w1 ||| w2) (groups v1.words) (groups v2.words))) u := by
  intro htrap
  have hl := h1.length
  have hl' := h2.length
  have hsecond := htrap.second
  obtain ⟨hmixed1, hmixed2, -⟩ := trap_mixed groupOp_or h1 h2 htrap
  obtain ⟨-, hsame⟩ := trap_zipWith groupOp_or h1 h2 htrap
  obtain ⟨a, ha, htrue⟩ := hmixed1.set
  have hu := hsame a ha
  rw [htrue, Bool.true_or] at hu
  subst hu
  have hbit : ∀ k < 31 * (n / 31), bitAt (List.zipWith (fun w1 w2 => w1 ||| w2) (groups v1.words)
      (groups v2.words)) k = (f k || g k) := by
    intro k hk
    rw [bitAt_zipWith groupOp_or (by omega) (by omega), h1.bits k (by omega), h2.bits k (by omega)]
  refine hsafe ⟨htrap.part, hsecond, hmixed1, hmixed2, hsame, ?_, ?_⟩
  · obtain ⟨⟨b, hb, hset⟩, ⟨c, hc, hclear⟩⟩ := htrap.prev
    refine ⟨⟨b, hb, ?_⟩, ⟨c, hc, ?_⟩⟩
    · rw [← hbit _ (by omega), hset]
    · rw [← hbit _ (by omega), hclear]
  · rw [← hbit _ (by omega), htrap.top]

/-! ### Complement -/

/-- A group with its bits inverted. -/
def inverted (g : Word) : Word :=
  ~~~g &&& ((1#32 <<< 31) - 1#32)

theorem getLsbD_inverted {x : Word} {j : ℕ} (hj : j < 31) : (inverted x).getLsbD j = !x.getLsbD j := by
  have hmask : (1#32 <<< 31) - 1#32 = mask 31 := rfl
  rw [inverted, hmask, BitVec.getLsbD_and, BitVec.getLsbD_not, getLsbD_mask (by decide), decide_eq_true hj,
    decide_eq_true (by omega : j < 32), Bool.true_and, Bool.and_true]

theorem inverted_top (x : Word) : (inverted x).getLsbD 31 = false := by
  have hmask : (1#32 <<< 31) - 1#32 = mask 31 := rfl
  rw [inverted, hmask, BitVec.getLsbD_and, getLsbD_mask (by decide)]
  exact Bool.and_false _

theorem inverted_uniform (u : Bool) : inverted (uniform u) = uniform !u := by
  cases u <;> decide

/-- The loop of `doNot` pushes the inverted groups. -/
theorem notLoop_pushed (l : List Word) (b : Builder) (hl : ∀ w ∈ l, Proper w) (hb : Normal b)
    (hk : (built b).length + (groups l).length < 2 ^ 30) :
    Normal (notLoop b l) ∧ built (notLoop b l) = built b ++ (groups l).map inverted := by
  induction l generalizing b with
  | nil => exact ⟨hb, by simp [notLoop]⟩
  | cons w rest ih =>
    have hw := hl w List.mem_cons_self
    have hpos := hw.count_pos
    have hlength : (groups (w :: rest)).length = count w + (groups rest).length := by
      rw [groups_cons, List.length_append, List.length_replicate]
    have hturn : ∀ b1, Normal b1 → built b1 = built b ++ List.replicate (count w) (inverted (value w)) →
        Normal (notLoop b1 rest) ∧ built (notLoop b1 rest) = built b ++ (groups (w :: rest)).map inverted := by
      intro b1 hb1 hbuilt1
      have hlen : (built b1).length = (built b).length + count w := by
        rw [hbuilt1, List.length_append, List.length_replicate]
      obtain ⟨hnormal, hbuilt⟩ := ih b1 (fun w' hw' => hl w' (List.mem_cons_of_mem w hw')) hb1 (by omega)
      refine ⟨hnormal, ?_⟩
      rw [hbuilt, hbuilt1, groups_cons, List.map_append, List.map_replicate, List.append_assoc]
    rw [notLoop]
    cases hfill : isFill w with
    | true =>
      have hvalue := value_of_fill hfill
      rw [if_pos rfl]
      have hpushed := pushFill_pushed (k := count w) (v := !isOnes w) hb hpos (by omega)
      have hnot : (!(value w != 0#32)) = !isOnes w := by rw [hvalue, uniform_ne_zero]
      rw [hnot]
      refine hturn _ hpushed.normal ?_
      rw [hpushed.built, hvalue, inverted_uniform]
    | false =>
      rw [if_neg Bool.false_ne_true]
      obtain ⟨_, _, hpushed, -⟩ := pushLite_pushed hb (inverted_top (value w)) (by omega)
      refine hturn _ hpushed.normal ?_
      rw [count_of_lite hfill]
      exact hpushed.built

theorem bitAt_inverted {xs : List Word} (hx : k / 31 < xs.length) : bitAt (xs.map inverted) k = !bitAt xs k := by
  obtain ⟨x, hx⟩ := getElem?_lt hx
  have hz : (xs.map inverted)[k / 31]? = some (inverted x) := by
    rw [List.getElem?_map, hx]
    rfl
  rw [bitAt_eq hz, bitAt_eq hx, getLsbD_inverted (by omega)]

theorem not_safe {v : WAHVector} (hv : Represents n v f) (u : Bool) :
    ¬ Trap n (bitAt ((groups v.words).map inverted)) u := by
  intro htrap
  have hpart := htrap.part
  have hlength := hv.length
  have hbit : ∀ j < 31, bitAt ((groups v.words).map inverted) (31 * (n / 31) + j) =
      !bitAt (groups v.words) (31 * (n / 31) + j) := fun j hj => bitAt_inverted (by omega)
  obtain ⟨u', hu'⟩ | ⟨-, hmixed⟩ := hv.tail hpart
  · obtain ⟨j, hj, hnot⟩ := htrap.last.both u'
    rw [hbit j hj, hu' j hj] at hnot
    cases u' <;> cases hnot
  · obtain ⟨j, hj, hnot⟩ := hmixed.both u
    have hsame := htrap.same j hj
    rw [hbit j (by omega), hnot] at hsame
    cases u <;> cases hsame

theorem doNot_represents {r v : WAHVector} (hn : 0 < n) (hbound : n < 2 ^ 30) (hv : Represents n v f)
    (hr : r.rem = n % 31) : Represents n (doNot r v) fun i => !f i := by
  have hlength := hv.length
  obtain ⟨hnormal, hbuilt⟩ := notLoop_pushed v.words [] hv.normal.proper normal_nil
    (by rw [built_nil, List.length_nil]; omega)
  rw [built_nil, List.nil_append] at hbuilt
  rw [doNot, hr, hv.rem]
  refine fix_represents hn hbound hnormal ?_ (fun i hi => ?_) fun u => ?_
  · rw [hbuilt, List.length_map, hlength]
  · rw [hbuilt, bitAt_inverted (by omega), hv.bits i hi]
  · rw [hbuilt]
    exact not_safe hv u

end Otawa.Elm.WAHVector
