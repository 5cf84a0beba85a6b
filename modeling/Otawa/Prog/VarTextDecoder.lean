import Mathlib.Data.Finset.Insert

/-!
# `VarTextDecoder`

The decoder follows the instructions from the entries of a program. It takes an instruction from a queue and
goes on to the next address until it comes to a control instruction, whose targets are put on the queue, or to
an instruction with a marker; only the instruction that the sequence started from gets a marker. An address
that no segment holds, or that holds an unknown instruction, is reported and not followed.

The report of a missing return address reads the target of the call, which an indirect call has not; the target
of a direct branch is not looked up as the other addresses are, so that an unknown instruction is followed there
and an exception of the decoding is not caught; and the first report on an entry reads a source that is null.
-/

namespace Otawa.VarTextDecoder

abbrev Address := BitVec 32

/-- A machine instruction, with bits of its kind and the flow facts put on it: `IS_RETURN`, `NO_CALL`, `NO_RETURN`
and the addresses of `BRANCH_TARGET` and `CALL_TARGET`. -/
structure Inst where
  address : Address
  size : Address
  isUnknown : Bool
  isControl : Bool
  isConditional : Bool
  isCall : Bool
  isReturn : Bool
  markedReturn : Bool
  noCall : Bool
  noReturn : Bool
  branchTarget : List Address
  callTarget : List Address

namespace Inst

variable (inst : Inst)

def topAddress : Address := inst.address + inst.size

/-- `inst->isReturn() || IS_RETURN(inst)`. -/
def returns : Bool := inst.isReturn || inst.markedReturn

/-- The recorded targets of a branch or of a call. -/
def targets : List Address := if inst.isCall then inst.callTarget else inst.branchTarget

end Inst

/-- The result of `findInstAt`: null out of the segments, or a `DecodingException`. -/
inductive Found where
  | null
  | exception
  | inst (inst : Inst)

/-- The result of `target`: null if it is not known, a `ProcessException` or a `DecodingException`. -/
inductive Target where
  | null
  | process
  | decoding
  | inst (inst : Inst)

/-- The instructions of a program. An instruction is the one at its address, and so is the target of a branch. -/
structure Image where
  findInstAt : Address → Found
  target : Inst → Target
  address_eq : ∀ addr inst, findInstAt addr = .inst inst → inst.address = addr
  target_found : ∀ inst i, target inst = .inst i → findInstAt i.address = .inst i

/-- The messages on an address, with the instruction that they are about if there is one. -/
inductive Warning where
  | afterInst (addr source : Address)
  | targetOf (addr source : Address)
  | unknownInst (addr : Address)
  | exception (addr : Address)
  | badEntry (addr : Address)
  | unknownNext (addr : Address)
  | brokenSequence (addr source : Address)
  | brokenTarget (addr source : Address)
  /-- The address of the target is in the message, not the one after the call. -/
  | brokenReturn (addr source target : Address)
  /-- The message of a `ProcessException`, on a branch. -/
  | notDecoded (source : Address)
  | noTarget (source : Address)
  deriving DecidableEq

/-- The address that a message says is bad, or the branch it is on. -/
def Warning.address : Warning → Address
  | .afterInst addr _ | .targetOf addr _ | .unknownInst addr | .exception addr
  | .badEntry addr | .unknownNext addr | .brokenSequence addr _ | .brokenTarget addr _
  | .brokenReturn addr _ _ => addr
  | .notDecoded source | .noTarget source => source

/-- How `processEntry` breaks off. -/
inductive Crash where
  /-- `ASSERT(address)`. -/
  | assertion
  | nullSource
  | nullTarget
  /-- A `DecodingException` of `target`. -/
  | decoding
  deriving DecidableEq

/-- What an instruction puts on the queue, null pointers included, and the messages. -/
structure Puts where
  todo : List (Option Inst)
  warnings : List Warning

def Puts.append (a b : Puts) : Puts := ⟨a.todo ++ b.todo, a.warnings ++ b.warnings⟩

def Puts.empty : Puts := ⟨[], []⟩

/-- The queue, the markers, what has been followed, that is, reached by the loop and not marked then, and the
messages. -/
structure State where
  todo : List (Option Inst)
  marked : Finset Address
  followed : List Inst
  warnings : List Warning

section Code

variable (logInst : Bool) (image : Image)

/-- The instruction at an address that can be followed. -/
def Image.known (addr : Address) : Option Inst :=
  match image.findInstAt addr with
  | .inst inst => if inst.isUnknown then none else some inst
  | _ => none

/-- The messages of `getInst`, with a source. -/
def Image.complaints (addr : Address) (source : Inst) : List Warning :=
  match image.findInstAt addr with
  | .null => [if source.topAddress = addr then .afterInst addr source.address else .targetOf addr source.address]
  | .exception => [.exception addr]
  | .inst inst => if inst.isUnknown then [.unknownInst addr] else []

/-- A sequence of instructions, and the instruction it ends at, if any. -/
structure Walk where
  visited : List Inst
  warnings : List Warning
  stop : Option Inst

/-- The inner loop. -/
def follow (marked : Finset Address) : ℕ → Inst → Option Walk
  | 0, _ => none
  | fuel + 1, inst =>
    if inst.address ∈ marked then some ⟨[], [], some inst⟩
    else if inst.isControl then some ⟨[inst], [], some inst⟩
    else
      match image.known inst.topAddress with
      | none =>
        some ⟨[inst], image.complaints inst.topAddress inst ++ [.unknownNext inst.topAddress], none⟩
      | some i => (follow marked fuel i).map fun walk => { walk with visited := inst :: walk.visited }

/-- A conditional instruction: the next address is put on the queue twice, the first time even if it is null. -/
def sequel (inst : Inst) : Puts :=
  match image.known inst.topAddress with
  | none => ⟨[none], image.complaints inst.topAddress inst ++ image.complaints inst.topAddress inst ++
      [.brokenSequence inst.topAddress inst.address]⟩
  | some i => ⟨[some i, some i], []⟩

/-- A recorded target. -/
def recorded (inst : Inst) (addr : Address) : Puts :=
  match image.known addr with
  | none => ⟨[], image.complaints addr inst ++ [.brokenTarget addr inst.address]⟩
  | some i => ⟨[some i], []⟩

/-- The recorded targets one after the other. -/
def indirect (inst : Inst) : Puts :=
  let puts := inst.targets.foldr (fun addr puts => (recorded image inst addr).append puts) .empty
  if inst.targets.isEmpty && logInst then puts.append ⟨[], [.noTarget inst.address]⟩ else puts

/-- The return from a call; the message on a bad address reads the target. -/
def callReturn (inst : Inst) (target : Option Inst) : Except Crash Puts :=
  match image.known inst.topAddress with
  | some i => .ok ⟨[some i], []⟩
  | none =>
    match target with
    | some t =>
      .ok ⟨[], image.complaints inst.topAddress inst ++ [.brokenReturn inst.topAddress inst.address t.address]⟩
    | none => .error .nullTarget

/-- The target of a control instruction, or the recorded ones. -/
def goesTo (inst : Inst) : Option Inst → Puts
  | some t => if t.noCall then .empty else ⟨[some t], []⟩
  | none => indirect logInst image inst

/-- Whether a call comes back. -/
def comesBack (inst : Inst) (target : Option Inst) : Bool :=
  inst.isCall && (target.isNone || target.any (!·.noReturn))

/-- The instructions after a control instruction that does not return, once its target is known. -/
def transfer (inst : Inst) (target : Option Inst) : Except Crash Puts :=
  if comesBack inst target then (callReturn image inst target).map (goesTo logInst image inst target).append
  else .ok (goesTo logInst image inst target)

/-- What a control instruction puts on the queue. -/
def record (inst : Inst) : Except Crash Puts :=
  let first := if inst.isConditional then sequel image inst else .empty
  if inst.returns then .ok first
  else
    match image.target inst with
    | .inst t => (transfer logInst image inst (some t)).map first.append
    | .null => (transfer logInst image inst none).map first.append
    | .process => (transfer logInst image inst none).map (first.append ⟨[], [.notDecoded inst.address]⟩).append
    | .decoding => .error .decoding

/-- The end of a turn at an instruction: `first` gets its marker, then the targets are recorded unless the
instruction had one. -/
def State.finish (st : State) (first inst : Inst) : Except Crash State :=
  let st' := { st with marked := insert first.address st.marked }
  if inst.address ∈ st.marked then .ok st'
  else (record logInst image inst).map fun puts =>
    { st' with todo := st.todo ++ puts.todo, warnings := st.warnings ++ puts.warnings }

/-- A turn of the main loop for what has been taken from the queue. -/
def turn (fuel : ℕ) (st : State) : Option Inst → Option (Except Crash State)
  | none => some (.ok st)
  | some first => (follow image st.marked fuel first).map fun walk =>
      let st := { st with followed := st.followed ++ walk.visited, warnings := st.warnings ++ walk.warnings }
      match walk.stop with
      | none => .ok st
      | some inst => st.finish logInst image first inst

/-- The main loop. -/
def loop : ℕ → State → Option (Except Crash State)
  | 0, _ => none
  | fuel + 1, st =>
    match st.todo with
    | [] => some (.ok st)
    | first :: todo =>
      match turn logInst image fuel { st with todo := todo } first with
      | none => none
      | some (.error crash) => some (.error crash)
      | some (.ok st) => loop fuel st

/-- `processEntry`. The message of `getInst` on an address out of the segments reads the source, which is null. -/
def processEntry (fuel : ℕ) (st : State) (entry : Address) : Option (Except Crash State) :=
  if entry = 0 then some (.error .assertion)
  else
    match image.findInstAt entry with
    | .null => some (.error .nullSource)
    | .exception => some (.ok { st with warnings := st.warnings ++ [.exception entry, .badEntry entry] })
    | .inst inst =>
      if inst.isUnknown then
        some (.ok { st with warnings := st.warnings ++ [.unknownInst entry, .badEntry entry] })
      else loop logInst image fuel { st with todo := [some inst] }

/-- The entries one after the other; the markers are kept from one to the next. -/
def processEntries (fuel : ℕ) : State → List Address → Option (Except Crash State)
  | st, [] => some (.ok st)
  | st, entry :: entries =>
    match processEntry logInst image fuel st entry with
    | none => none
    | some (.error crash) => some (.error crash)
    | some (.ok st) => processEntries fuel st entries

end Code

/-- Nothing has been decoded. -/
def State.start : State := ⟨[], ∅, [], []⟩

/-! ## What can be reached -/

section Reach

variable (image : Image)

/-- The target of a branch, if it is known. -/
def Image.branch (inst : Inst) : Option Inst :=
  match image.target inst with
  | .inst t => some t
  | _ => none

/-- The addresses that control may go to after an instruction. -/
inductive Next (inst : Inst) : Address → Prop
  | sequence (plain : inst.isControl = false) : Next inst inst.topAddress
  | conditional (control : inst.isControl) (cond : inst.isConditional) : Next inst inst.topAddress
  | target {t : Inst} (control : inst.isControl) (goes : inst.returns = false) (branch : image.branch inst = some t)
      (taken : t.noCall = false) : Next inst t.address
  | recorded {addr : Address} (control : inst.isControl) (goes : inst.returns = false)
      (indirect : image.branch inst = none) (mem : addr ∈ inst.targets) : Next inst addr
  | callReturn (control : inst.isControl) (goes : inst.returns = false) (call : inst.isCall)
      (comesBack : ∀ t, image.branch inst = some t → t.noReturn = false) : Next inst inst.topAddress

/-- The instructions reached from the entries; there are none past an address that is not valid. -/
inductive Reached (entries : List Address) : Inst → Prop
  | entry {addr : Address} {inst : Inst} (mem : addr ∈ entries) (known : image.known addr = some inst) :
      Reached entries inst
  | step {inst i : Inst} {addr : Address} (before : Reached entries inst) (next : Next image inst addr)
      (known : image.known addr = some i) : Reached entries i

/-- The sequence from an instruction comes to a control instruction or to an address that is not valid. -/
inductive Ends : Inst → Prop
  | control {inst : Inst} (control : inst.isControl) : Ends inst
  | broken {inst : Inst} (plain : inst.isControl = false) (bad : image.known inst.topAddress = none) : Ends inst
  | next {inst i : Inst} (plain : inst.isControl = false) (known : image.known inst.topAddress = some i)
      (ends : Ends i) : Ends inst

end Reach

end Otawa.VarTextDecoder
