import Otawa.Dcache.Builder
import Otawa.Lib.Numbering

/-!
# The numbers of the blocks

The builders of the data accesses ask the collection of a set for a block at an address, and
the block gets the next index of the set if there is none at this address. `BlockBuilder` and
the constants of `CLPBlockBuilder` ask for the address of the block; a progression inside one
block asks for its first address as it is.

Two addresses have the same number exactly when they are in the same block, if no such
progression starts beyond the start of its block (`block_numbers_iff`).
-/

namespace Otawa.Dcache

open Otawa.Clp Otawa.Numbering
open CLPBlockBuilder (Cache Built Banks nothingBuilt fourRows)

/-! ### The other builder -/

namespace BlockBuilder

/-- `AccessedAddress`, with its instruction: any address, one at an offset from the stack
pointer or an absolute one, which may be null. -/
inductive Target where
  | any
  | sp (offset : Word)
  | abs (address : Option Word)

structure AccessedAddress where
  inst : Nat
  isStore : Bool
  target : Target

def AccessedAddress.action (aa : AccessedAddress) : Action := if aa.isStore then .store else .load

def AccessedAddress.address (sp : Word) (aa : AccessedAddress) : Option Word :=
  match aa.target with
  | .any => none
  | .sp offset => some (sp + offset)
  | .abs address => address

/-- The body of the loop of `processBB`. The end of a range is null there, so no range is built. -/
def addAccess (cache : Cache) (mem : Banks) (sp : Word) (built : Built) (aa : AccessedAddress) : Except Unit Built :=
  match aa.address sp with
  | none => .ok (built.add aa.inst aa.action .any)
  | some address =>
    match mem address with
    | none => .error ()
    | some false => .ok built
    | some true =>
      let address := cache.round address
      .ok (built.addBlock aa.inst aa.action (cache.set address) address)

/-- The collections and accesses of a program. -/
def build (cache : Cache) (mem : Banks) (sp : Word) (aas : List AccessedAddress) : Except Unit Built :=
  aas.foldlM (addAccess cache mem sp) nothingBuilt

/-- The address of an access that gets a block, with the one that the collection is asked for. -/
def asks (cache : Cache) (mem : Banks) (sp : Word) (aa : AccessedAddress) : Option (Word × Word) :=
  (aa.address sp).bind fun address =>
    if mem address = some true then some (address, cache.round address) else none

end BlockBuilder

namespace CLPBlockBuilder

/-- The accesses of some address values, each with its instruction. -/
def addAll (cache : Cache) (mem : Banks) (ps : List (Nat × Value × Option Action)) (built : Built) :
    Except Unit Built :=
  ps.foldlM (fun built p => addAccess cache mem p.1 built p.2) built

/-- The collections and accesses of a program. -/
def build (cache : Cache) (mem : Banks) (ps : List (Nat × Value × Option Action)) : Except Unit Built :=
  addAll cache mem ps nothingBuilt

/-- The access of an address value gets the block of its constant. -/
def AsksConst (mem : Banks) (p : Value × Option Action) : Prop :=
  p.2 ≠ none ∧ p.1 ≠ .all ∧ p.1.isConst ∧ mem p.1.base = some true

/-- The access of an address value gets the block that its progression is in. -/
def AsksInside (cache : Cache) (mem : Banks) (p : Value × Option Action) : Prop :=
  p.2 ≠ none ∧ p.1 ≠ .all ∧ ¬ p.1.isConst ∧ ¬ full cache p.1 ∧ mem p.1.start = some true ∧
    cache.block p.1.start = cache.block p.1.stop

instance (mem : Banks) (p : Value × Option Action) : Decidable (AsksConst mem p) :=
  inferInstanceAs (Decidable (_ ∧ _))

instance (cache : Cache) (mem : Banks) (p : Value × Option Action) : Decidable (AsksInside cache mem p) :=
  inferInstanceAs (Decidable (_ ∧ _))

/-- The address of an access that gets a block, with the one that the collection is asked for. -/
def asks (cache : Cache) (mem : Banks) (p : Value × Option Action) : Option (Word × Word) :=
  if AsksConst mem p then some (p.1.base, cache.round p.1.base)
  else if AsksInside cache mem p then some (p.1.start, p.1.start)
  else none

end CLPBlockBuilder

/-! ### Numbers -/

/-- The blocks of the accesses: their sets and their indices. -/
def handed (built : Built) : List (Nat × Nat) :=
  built.accs.filterMap fun e =>
    match e.place with
    | .block set index _ => some (set, index)
    | _ => none

/-- The numbers that addresses have got are one-to-one with their blocks in the memory. -/
structure OneToOne (cache : Cache) (addresses : List Word) (built : Built) : Prop where
  each : (handed built).length = addresses.length
  same : ∀ (i j : Nat) (l l' : Word) (n n' : Nat × Nat), addresses[i]? = some l → addresses[j]? = some l' →
    (handed built)[i]? = some n → (handed built)[j]? = some n' → (n = n' ↔ cache.block l = cache.block l')
  aligned : ∀ set, ∀ address ∈ built.colls set, cache.offset address = 0
  bounded : ∀ n ∈ handed built, n.2 < (built.colls n.1).length

variable {cache : Cache} {mem : Banks} {built built' : Built} {inst : Nat} {action : Action}

theorem handed_add {place : CLPBlockBuilder.Place} (other : ∀ set index address, place ≠ .block set index address) :
    handed (built.add inst action place) = handed built := by
  unfold handed Built.add
  rw [List.filterMap_append]
  cases place with
  | any => exact List.append_nil _
  | block set index address => exact absurd rfl (other set index address)
  | range first last => exact List.append_nil _

/-- A block that is asked for gets the number of its address in the set. -/
theorem handed_addBlock (set : Nat) (address : Word) : handed (built.addBlock inst action set address) =
    handed built ++ [(set, (number (built.colls set) address).2)] := by
  unfold handed
  exact List.filterMap_append

/-- What an access does with the collections: nothing, or it asks one for a block. -/
def Serves (cache : Cache) (built built' : Built) : Option (Word × Word) → Prop
  | none => built'.colls = built.colls ∧ handed built' = handed built
  | some (l, address) => ∃ inst action, built' = built.addBlock inst action (cache.set l) address

/-- The requests of a list of accesses, with the sets that they go to. -/
def requests (cache : Cache) (asks : List (Word × Word)) : List (Nat × Word) :=
  asks.map fun ask => (cache.set ask.1, ask.2)

/-- The accesses of a list number the addresses that they ask for. -/
theorem numbered_foldlM {ι : Type} {f : Built → ι → Except Unit Built} {asks : ι → Option (Word × Word)}
    (step : ∀ built i built', f built i = .ok built' → Serves cache built built' (asks i)) {is : List ι}
    {before : List (Word × Word)}
    (numbered : Numbered (fun _ => []) built.colls (requests cache before) (handed built))
    (folded : is.foldlM f built = .ok built') :
    Numbered (fun _ => []) built'.colls (requests cache (before ++ is.filterMap asks)) (handed built') := by
  induction is generalizing built before with
  | nil =>
    cases folded
    rwa [List.filterMap_nil, List.append_nil]
  | cons i rest ih =>
    rw [List.foldlM_cons] at folded
    cases first : f built i with
    | error => rw [first] at folded; cases folded
    | ok next =>
      rw [first] at folded
      have served := step built i next first
      cases ask : asks i with
      | none =>
        rw [ask] at served
        obtain ⟨colls, numbers⟩ := served
        rw [List.filterMap_cons_none ask]
        rw [← colls, ← numbers] at numbered
        exact ih numbered folded
      | some r =>
        rw [ask] at served
        obtain ⟨inst, action, rfl⟩ := served
        rw [List.filterMap_cons_some ask, List.append_cons]
        apply ih _ folded
        have one := numbered_one numbered.nodup (cache.set r.1) r.2
        rw [handed_addBlock, requests, List.map_append]
        exact numbered.append one

theorem block_round (cache : Cache) (x : Word) : cache.block (cache.round x) = cache.block x := by
  rw [Cache.block, CLPBlockBuilder.toNat_round]
  exact Nat.mul_div_cancel_left _ (CLPBlockBuilder.blockSize_pos cache)

theorem set_round (cache : Cache) (x : Word) : cache.set (cache.round x) = cache.set x := by
  rw [Cache.set, block_round, Cache.set]

theorem round_eq_iff (cache : Cache) (x y : Word) : cache.round x = cache.round y ↔ cache.block x = cache.block y := by
  constructor
  · intro eq
    rw [← block_round cache x, eq, block_round]
  · intro eq
    apply BitVec.eq_of_toNat_eq
    rw [CLPBlockBuilder.toNat_round, eq, ← CLPBlockBuilder.toNat_round]

/-- Addresses that ask for their own blocks are one-to-one with them, and other ones are not. -/
theorem oneToOne_iff {asks : List (Word × Word)}
    (numbered : Numbered (fun _ => []) built.colls (requests cache asks) (handed built))
    (raw : ∀ ask ∈ asks, ask.2 = cache.round ask.1 ∨ ask.2 = ask.1) :
    OneToOne cache (asks.map Prod.fst) built ↔ ∀ ask ∈ asks, ask.2 = cache.round ask.1 := by
  have mem_colls : ∀ set address, address ∈ built.colls set ↔ (set, address) ∈ requests cache asks := by
    intro set address
    rw [numbered.mem]
    exact or_iff_right List.not_mem_nil
  constructor
  · intro oneToOne ask mem
    rcases raw ask mem with rounded | same
    · exact rounded
    have there : ask.2 ∈ built.colls (cache.set ask.1) := (mem_colls _ _).mpr (List.mem_map_of_mem mem)
    have aligned := oneToOne.aligned _ _ there
    rw [same] at aligned ⊢
    exact (CLPBlockBuilder.round_of_offset aligned).symm
  · intro rounded
    have request : ∀ (i : Nat) (l : Word), (asks.map Prod.fst)[i]? = some l →
        (requests cache asks)[i]? = some (cache.set l, cache.round l) := by
      intro i l at_i
      obtain ⟨ask, at_i', rfl⟩ := Option.map_eq_some_iff.mp (List.getElem?_map.symm.trans at_i)
      rw [← rounded ask (List.mem_of_getElem? at_i')]
      exact List.getElem?_map.trans (congrArg _ at_i')
    constructor
    · rw [numbered.length_eq, requests, List.length_map, List.length_map]
    · intro i j l l' n n' at_i at_j number number'
      rw [numbered.eq_iff (request i l at_i) (request j l' at_j) number number', Prod.mk.injEq, round_eq_iff]
      refine ⟨And.right, fun block => ⟨?_, block⟩⟩
      rw [Cache.set, block, Cache.set]
    · intro set address there
      obtain ⟨ask, mem, eq⟩ := List.mem_map.mp ((mem_colls set address).mp there)
      cases eq
      rw [rounded ask mem]
      exact CLPBlockBuilder.offset_round cache ask.1
    · intro n mem
      obtain ⟨i, at_i⟩ := List.getElem?_of_mem mem
      have lt := (List.getElem?_eq_some_iff.mp at_i).1
      rw [numbered.length_eq] at lt
      obtain ⟨set, place⟩ := numbered.getElem? (List.getElem?_eq_getElem lt) at_i
      rw [← set] at place
      exact (List.getElem?_eq_some_iff.mp place).1

/-! ### The accesses of the builders -/

theorem CLPBlockBuilder.addAccess_serves {p : Value × Option Action}
    (added : addAccess cache mem inst built p = .ok built') : Serves cache built built' (asks cache mem p) := by
  obtain ⟨v, act⟩ := p
  have other : ∀ action place, (∀ set index address, place ≠ Place.block set index address) →
      Serves cache built (built.add inst action place) none :=
    fun action place noBlock => ⟨rfl, handed_add noBlock⟩
  have noAny : ∀ set index address, Place.any ≠ Place.block set index address := by
    intro set index address eq
    cases eq
  unfold addAccess at added
  cases act with
  | none =>
    cases added
    have no : asks cache mem (v, none) = none := by
      rw [asks, if_neg fun h => h.1 rfl, if_neg fun h => h.1 rfl]
    rw [no]
    exact ⟨rfl, rfl⟩
  | some action =>
  dsimp only at added
  by_cases top : v = .all
  · rw [if_pos top] at added
    cases added
    rw [asks, if_neg fun h => h.2.1 top, if_neg fun h => h.2.1 top]
    exact other action .any noAny
  rw [if_neg top] at added
  by_cases const : v.isConst
  · rw [if_pos const] at added
    have noInside : ¬ AsksInside cache mem (v, some action) := fun h => h.2.2.1 const
    cases bank : mem v.base with
    | none => rw [bank] at added; cases added
    | some cached =>
      rw [bank] at added
      cases cached with
      | false =>
        cases added
        rw [asks, if_neg fun h => by simpa [bank] using h.2.2.2, if_neg noInside]
        exact ⟨rfl, rfl⟩
      | true =>
        cases added
        rw [asks, if_pos ⟨by simp, top, const, bank⟩]
        exact ⟨inst, action, rfl⟩
  rw [if_neg const] at added
  have noConst : ¬ AsksConst mem (v, some action) := fun h => const h.2.2.1
  rw [asks, if_neg noConst]
  by_cases few : full cache v
  · rw [if_pos few] at added
    cases added
    rw [if_neg fun h => h.2.2.2.1 few]
    exact other action .any noAny
  rw [if_neg few] at added
  cases bank : mem v.start with
  | none => rw [bank] at added; cases added
  | some cached =>
    rw [bank] at added
    cases cached with
    | false =>
      cases added
      rw [if_neg fun h => by simpa [bank] using h.2.2.2.2.1]
      exact ⟨rfl, rfl⟩
    | true =>
      dsimp only at added
      by_cases inside : cache.block v.start = cache.block v.stop
      · rw [if_pos inside] at added
        cases added
        rw [if_pos ⟨by simp, top, const, few, bank, inside⟩]
        exact ⟨inst, action, rfl⟩
      · rw [if_neg inside] at added
        cases added
        rw [if_neg fun h => inside h.2.2.2.2.2]
        exact other action _ fun set index address eq => by cases eq

theorem BlockBuilder.addAccess_serves {sp : Word} {aa : AccessedAddress}
    (added : addAccess cache mem sp built aa = .ok built') : Serves cache built built' (asks cache mem sp aa) := by
  unfold addAccess at added
  unfold asks
  cases address : aa.address sp with
  | none =>
    rw [address] at added
    cases added
    exact ⟨rfl, handed_add fun set index address eq => by cases eq⟩
  | some x =>
    rw [address] at added
    rw [Option.bind_some]
    cases bank : mem x with
    | none =>
      dsimp only at added
      rw [bank] at added
      cases added
    | some cached =>
      dsimp only at added
      rw [bank] at added
      cases cached with
      | false =>
        cases added
        rw [if_neg (by simp)]
        exact ⟨rfl, rfl⟩
      | true =>
        cases added
        rw [if_pos rfl]
        exact ⟨aa.inst, aa.action, by rw [set_round]⟩

theorem numbered_nothing : Numbered (fun _ => []) nothingBuilt.colls (requests cache []) (handed nothingBuilt) :=
  .refl fun _ => List.nodup_nil

theorem CLPBlockBuilder.oneToOne_iff {ps : List (Nat × Value × Option Action)}
    (ok : build cache mem ps = .ok built) :
    OneToOne cache ((ps.filterMap fun p => asks cache mem p.2).map Prod.fst) built ↔
      ∀ p ∈ ps, AsksInside cache mem p.2 → cache.offset p.2.1.start = 0 := by
  have numbered := numbered_foldlM (fun built p built' added => addAccess_serves added) numbered_nothing ok
  rw [List.nil_append] at numbered
  have raw : ∀ ask ∈ ps.filterMap fun p => asks cache mem p.2, ask.2 = cache.round ask.1 ∨ ask.2 = ask.1 := by
    intro ask mem
    obtain ⟨p, -, eq⟩ := List.mem_filterMap.mp mem
    unfold asks at eq
    split at eq
    · cases eq
      exact .inl rfl
    split at eq
    · cases eq
      exact .inr rfl
    · cases eq
  rw [Dcache.oneToOne_iff numbered raw]
  constructor
  · intro rounded p given inside
    have ask : asks cache mem p.2 = some (p.2.1.start, p.2.1.start) := by
      rw [asks, if_neg fun const => inside.2.2.1 const.2.2.1, if_pos inside]
    have same : p.2.1.start = cache.round p.2.1.start := rounded _ (List.mem_filterMap.mpr ⟨p, given, ask⟩)
    rw [same]
    exact offset_round cache p.2.1.start
  · intro aligned ask asked
    obtain ⟨p, given, eq⟩ := List.mem_filterMap.mp asked
    unfold asks at eq
    split at eq
    · cases eq
      rfl
    split at eq
    · next inside =>
      cases eq
      exact (round_of_offset (aligned p given inside)).symm
    · cases eq

theorem BlockBuilder.oneToOne {sp : Word} {aas : List AccessedAddress} (ok : build cache mem sp aas = .ok built) :
    OneToOne cache ((aas.filterMap (asks cache mem sp)).map Prod.fst) built := by
  have numbered := numbered_foldlM (fun built aa built' added => addAccess_serves added) numbered_nothing ok
  rw [List.nil_append] at numbered
  have rounded : ∀ ask ∈ aas.filterMap (asks cache mem sp), ask.2 = cache.round ask.1 := by
    intro ask mem
    obtain ⟨aa, -, eq⟩ := List.mem_filterMap.mp mem
    obtain ⟨address, -, eq⟩ := Option.bind_eq_some_iff.mp eq
    split at eq
    · cases eq
      rfl
    · cases eq
  exact (oneToOne_iff numbered fun ask mem => .inl (rounded ask mem)).mpr rounded

/-- The blocks that `CLPBlockBuilder` numbers are one-to-one with the ones of the memory exactly when the
progressions inside one block start where it starts; those of `BlockBuilder` always are. -/
theorem block_numbers_iff (cache : Cache) (mem : Banks) (ps : List (Nat × Value × Option Action)) (built : Built)
    (sp : Word) (aas : List BlockBuilder.AccessedAddress) (built' : Built)
    (ok : CLPBlockBuilder.build cache mem ps = .ok built) (ok' : BlockBuilder.build cache mem sp aas = .ok built') :
    (OneToOne cache ((ps.filterMap fun p => CLPBlockBuilder.asks cache mem p.2).map Prod.fst) built ↔
      ∀ p ∈ ps, CLPBlockBuilder.AsksInside cache mem p.2 → cache.offset p.2.1.start = 0) ∧
    OneToOne cache ((aas.filterMap (BlockBuilder.asks cache mem sp)).map Prod.fst) built' :=
  ⟨CLPBlockBuilder.oneToOne_iff ok, BlockBuilder.oneToOne ok'⟩

/-- A word of the block at 16, and all words of the block at 0. -/
def twoLoads : List (Nat × Value × Option Action) := [(0, .const 20, some .load), (1, ⟨.val, 0, 4, 3⟩, some .load)]

/-- A word of the block at 16, and one of the stack. -/
def twoTargets : List BlockBuilder.AccessedAddress := [⟨0, false, .abs (some 20)⟩, ⟨1, true, .sp 4⟩]

theorem block_numbers_iff_two : ∃ built built',
    CLPBlockBuilder.build fourRows (fun _ => some true) twoLoads = .ok built ∧
      BlockBuilder.build fourRows (fun _ => some true) 64 twoTargets = .ok built' ∧
        OneToOne fourRows [20, 0] built ∧ OneToOne fourRows [20, 68] built' := by
  refine ⟨_, _, rfl, rfl, ?_, ?_⟩
  · exact (block_numbers_iff fourRows (fun _ => some true) twoLoads _ 64 twoTargets _ rfl rfl).1.mpr (by decide)
  · exact (block_numbers_iff fourRows (fun _ => some true) twoLoads _ 64 twoTargets _ rfl rfl).2

/-- The last two words of the block at 0, and then its first one. -/
def sameBlock : List (Nat × Value × Option Action) := [(0, ⟨.val, 8, 4, 1⟩, some .load), (1, .const 0, some .load)]

/-- The addresses 8 and 0 are in one block, and get the indices 0 and 1. -/
theorem same_block_twice : ¬ ∀ (cache : Cache) (mem : Banks) (ps : List (Nat × Value × Option Action)) (built : Built)
    (sp : Word) (aas : List BlockBuilder.AccessedAddress) (built' : Built),
    CLPBlockBuilder.build cache mem ps = .ok built → BlockBuilder.build cache mem sp aas = .ok built' →
    OneToOne cache ((ps.filterMap fun p => CLPBlockBuilder.asks cache mem p.2).map Prod.fst) built ∧
      OneToOne cache ((aas.filterMap (BlockBuilder.asks cache mem sp)).map Prod.fst) built' := by
  intro numbers
  have oneToOne := (numbers fourRows (fun _ => some true) sameBlock _ 0 [] _ rfl rfl).1
  have same := oneToOne.same 0 1 8 0 (0, 0) (0, 1) rfl rfl rfl rfl
  exact absurd (same.mpr rfl) (by decide)

end Otawa.Dcache
