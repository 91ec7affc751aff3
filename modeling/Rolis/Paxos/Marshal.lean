import Rolis.Lib.Codec

/-!
# Paxos messages on the wire

The commands that the Paxos servers send each other, and their `ToMarshal` and `FromMarshal`. A
command travels in a `MarshallDeputy`: its kind, by which the receiver makes an empty object, and
what `ToMarshal` of the object wrote. A `BulkPaxosCmd` and a `SyncLogResponse` have further deputies
inside.

How the rrr library writes an integer or a string is left open; a `Wire` is any way that reads them
back. The count of a vector is cast to `int32_t` before it is written. `none` is what C++ leaves
undefined: an `int` index that overflows, bytes outside a buffer, and a function that flows off its
end, which `SyncLogResponse::ToMarshal` does, having no `return`. What the compiled code does there
is a parameter, `back`: whether it comes back to its caller.
-/

namespace Rolis.Paxos.Marshal

open Get

/-! ## Primitives -/

/-- `std::string`. -/
abbrev Str := {s : Bytes // s.length < 2 ^ 63}

/-- The operators `<<` and `>>` of the rrr library. -/
structure Wire where
  i32 : Codec (BitVec 32)
  u32 : Codec (BitVec 32)
  i64 : Codec (BitVec 64)
  u64 : Codec (BitVec 64)
  string : Codec Str

namespace Wire

variable (W : Wire)

/-- A size, cast to `int32_t`. -/
def putCount (n : ℕ) : Bytes := W.i32.put (.ofNat 32 n)

/-- How often a loop up to an `int32_t` goes round. -/
def getCount : Get ℕ := do
  let sz ← W.i32.get
  pure sz.toInt.toNat

/-- The count of a vector and its elements. -/
def putVector {α : Type} (c : Codec α) (xs : List α) : Bytes :=
  W.putCount xs.length ++ xs.flatMap c.put

def getVector {α : Type} (c : Codec α) : Get (List α) := do
  let sz ← W.getCount
  many c.get sz

end Wire

/-- A loop over a vector by an `int` index. -/
def indexed (size : ℕ) (bs : Bytes) : Option Bytes := if size < 2 ^ 31 then some bs else none

/-! ## Commands -/

/-- `MarshallDeputy::Kind`, the kinds of these commands. -/
inductive Kind
  | containerCmd
  | cmdBlkPxs
  | cmdBlkPrepPxs
  | cmdHrtbtPxs
  | cmdSyncreqPxs
  | cmdSyncrespPxs
  | cmdSyncnoopPxs
  | cmdPrepPxs
deriving DecidableEq, Repr

namespace Kind

/-- The number of a kind. -/
def code : Kind → BitVec 32
  | containerCmd => 3
  | cmdBlkPxs => 7
  | cmdBlkPrepPxs => 8
  | cmdHrtbtPxs => 9
  | cmdSyncreqPxs => 10
  | cmdSyncrespPxs => 11
  | cmdSyncnoopPxs => 12
  | cmdPrepPxs => 13

/-- The kinds that are registered with an initializer. -/
def all : List Kind :=
  [containerCmd, cmdBlkPxs, cmdBlkPrepPxs, cmdHrtbtPxs, cmdSyncreqPxs, cmdSyncrespPxs,
    cmdSyncnoopPxs, cmdPrepPxs]

/-- `MarshallDeputy::GetInitializer`. -/
def ofCode (code : BitVec 32) : Option Kind := all.find? fun kind => kind.code = code

lemma ofCode_code (kind : Kind) : ofCode kind.code = some kind := by
  cases kind <;> rfl

end Kind

/-- `BulkPrepareLog`. -/
structure BulkPrepareLog where
  minPreparedSlots : List (BitVec 32 × BitVec 64)
  leaderId : BitVec 32
  epoch : BitVec 32
deriving DecidableEq, Repr

namespace BulkPrepareLog

def toMarshal (W : Wire) (l : BulkPrepareLog) : Bytes :=
  W.putVector (W.u32.pair W.u64) l.minPreparedSlots ++ (W.u32.put l.leaderId ++ W.i32.put l.epoch)

def fromMarshal (W : Wire) : Get BulkPrepareLog := do
  let minPreparedSlots ← W.getVector (W.u32.pair W.u64)
  let leaderId ← W.u32.get
  let epoch ← W.i32.get
  pure ⟨minPreparedSlots, leaderId, epoch⟩

end BulkPrepareLog

/-- `PaxosPrepCmd`. -/
structure PaxosPrepCmd where
  slots : List (BitVec 64)
  ballots : List (BitVec 64)
  leaderId : BitVec 32
deriving DecidableEq, Repr

namespace PaxosPrepCmd

/-- The count of the ballots is that of the slots. -/
def toMarshal (W : Wire) (c : PaxosPrepCmd) : Bytes :=
  W.putVector W.u64 c.slots ++
    (W.putCount c.slots.length ++ (c.ballots.flatMap W.i64.put ++ W.i32.put c.leaderId))

def fromMarshal (W : Wire) : Get PaxosPrepCmd := do
  let slots ← W.getVector W.u64
  let sz ← W.getCount
  let ballots ← many W.i64.get sz
  let leaderId ← W.i32.get
  pure ⟨slots, ballots, leaderId⟩

end PaxosPrepCmd

/-- `HeartBeatLog`. -/
structure HeartBeatLog where
  leaderId : BitVec 32
  epoch : BitVec 32
deriving DecidableEq, Repr

namespace HeartBeatLog

def toMarshal (W : Wire) (l : HeartBeatLog) : Bytes := W.u32.put l.leaderId ++ W.i32.put l.epoch

def fromMarshal (W : Wire) : Get HeartBeatLog := do
  let leaderId ← W.u32.get
  let epoch ← W.i32.get
  pure ⟨leaderId, epoch⟩

end HeartBeatLog

/-- `SyncLogRequest` and `SyncNoOpRequest`, which differ in the name of the vector. -/
structure SyncRequest where
  leaderId : BitVec 32
  epoch : BitVec 64
  slots : List (BitVec 64)
deriving DecidableEq, Repr

namespace SyncRequest

def toMarshal (W : Wire) (r : SyncRequest) : Option Bytes :=
  indexed r.slots.length
    (W.i32.put r.leaderId ++ (W.i64.put r.epoch ++ W.putVector W.u64 r.slots))

def fromMarshal (W : Wire) : Get SyncRequest := do
  let leaderId ← W.i32.get
  let epoch ← W.i64.get
  let slots ← W.getVector W.u64
  pure ⟨leaderId, epoch, slots⟩

end SyncRequest

/-- `LogEntry`: the bytes are in the buffer `operation_test` of an entry that was submitted, and in
`log_entry` of one that was received. -/
structure LogEntry where
  length : BitVec 32
  logEntry : Str
  operationTest : Option Bytes
deriving DecidableEq, Repr

lemma length_take_lt (length : BitVec 32) (p : Bytes) : (p.take length.toNat).length < 2 ^ 63 := by
  have hlt := length.isLt
  rw [List.length_take]
  omega

namespace LogEntry

/-- The string that `ToMarshal` writes. -/
def string (e : LogEntry) : Option Str :=
  match e.operationTest with
  | some p =>
    -- the string is made of `length` bytes of the buffer, which must be there
    if 0 ≤ e.length.toInt ∧ e.length.toNat ≤ p.length then
      some ⟨p.take e.length.toNat, length_take_lt e.length p⟩
    else none
  | none => some e.logEntry

def toMarshal (W : Wire) (e : LogEntry) : Option Bytes :=
  e.string.map fun s => W.i32.put e.length ++ W.string.put s

def fromMarshal (W : Wire) : Get LogEntry := do
  let length ← W.i32.get
  let logEntry ← W.string.get
  pure ⟨length, logEntry, none⟩

/-- What `PaxosWorker::Next` hands over. -/
def next (e : LogEntry) : Bytes × BitVec 32 := (e.logEntry, e.length)

/-- The entry as it is received: the bytes are in the string. -/
def received (e : LogEntry) : LogEntry :=
  match e.operationTest with
  | some p => ⟨e.length, ⟨p.take e.length.toNat, length_take_lt e.length p⟩, none⟩
  | none => e

/-- The bytes and the length that were submitted. -/
def submitted (e : LogEntry) : Bytes × BitVec 32 :=
  match e.operationTest with
  | some p => (p, e.length)
  | none => (e.logEntry, e.length)

end LogEntry

/-- `PaxosWorker::Submit`, the entry it makes of a log. The length is an `int`. -/
def submit (log : Bytes) : LogEntry := ⟨.ofNat 32 log.length, ⟨[], by decide⟩, some log⟩

/-- The commands. -/
inductive Marshallable
  | logEntry (e : LogEntry)
  | bulkPaxosCmd (leaderId : BitVec 32) (slots ballots : List (BitVec 64))
      (cmds : List Marshallable)
  | bulkPrepareLog (l : BulkPrepareLog)
  | heartBeatLog (l : HeartBeatLog)
  | syncLogRequest (r : SyncRequest)
  | syncLogResponse (syncData : List Marshallable) (missingSlots : List (List (BitVec 64)))
  | syncNoOpRequest (r : SyncRequest)
  | paxosPrepCmd (c : PaxosPrepCmd)

namespace Marshallable

/-- `kind_`. -/
def kind : Marshallable → Kind
  | logEntry _ => .containerCmd
  | bulkPaxosCmd _ _ _ _ => .cmdBlkPxs
  | bulkPrepareLog _ => .cmdBlkPrepPxs
  | heartBeatLog _ => .cmdHrtbtPxs
  | syncLogRequest _ => .cmdSyncreqPxs
  | syncLogResponse _ _ => .cmdSyncrespPxs
  | syncNoOpRequest _ => .cmdSyncnoopPxs
  | paxosPrepCmd _ => .cmdPrepPxs

mutual

/-- `ToMarshal`. -/
def toMarshal (W : Wire) (back : Bool) : Marshallable → Option Bytes
  | logEntry e => e.toMarshal W
  | bulkPaxosCmd leaderId slots ballots cmds =>
    (deputies W back cmds).map fun bs =>
      W.i32.put leaderId ++ (W.putVector W.u64 slots ++ (W.putVector W.i64 ballots ++
        (W.putCount cmds.length ++ bs)))
  | bulkPrepareLog l => some (l.toMarshal W)
  | heartBeatLog l => some (l.toMarshal W)
  | syncLogRequest r => r.toMarshal W
  | syncLogResponse syncData missingSlots =>
    if syncData.length < 2 ^ 31 ∧ missingSlots.length < 2 ^ 31 ∧
        ∀ slots ∈ missingSlots, slots.length < 2 ^ 31 then
      (deputies W back syncData).bind fun bs =>
        -- there is no `return` behind the last loop
        if back then
          some (W.putCount syncData.length ++ (bs ++ (W.putCount missingSlots.length ++
            missingSlots.flatMap (W.putVector W.u64))))
        else none
    else none
  | syncNoOpRequest r => r.toMarshal W
  | paxosPrepCmd c => some (c.toMarshal W)

/-- `operator<<` of the deputies of a vector. -/
def deputies (W : Wire) (back : Bool) : List Marshallable → Option Bytes
  | [] => some []
  | m :: ms =>
    (toMarshal W back m).bind fun bs => (deputies W back ms).map fun cs =>
      W.i32.put m.kind.code ++ (bs ++ cs)

end

/-- `operator>>` of a deputy: an object of the kind reads itself. -/
def deputy (W : Wire) (fromMarshal : Kind → Get Marshallable) : Get Marshallable := do
  let code ← W.i32.get
  match Kind.ofCode code with
  | some kind => fromMarshal kind
  | none => failure

/-- `FromMarshal` of an object of a kind, with commands inside each other as deep as the first
number says. -/
def fromMarshal (W : Wire) : ℕ → Kind → Get Marshallable
  | 0, _ => failure
  | fuel + 1, kind =>
    match kind with
    | .containerCmd => do
      let e ← LogEntry.fromMarshal W
      pure (logEntry e)
    | .cmdBlkPxs => do
      let leaderId ← W.i32.get
      let szs ← W.getCount
      let slots ← many W.u64.get szs
      let _szb ← W.getCount
      -- the loop over the ballots goes up to the number of slots
      let ballots ← many W.i64.get szs
      let szc ← W.getCount
      let cmds ← many (deputy W (fromMarshal W fuel)) szc
      pure (bulkPaxosCmd leaderId slots ballots cmds)
    | .cmdBlkPrepPxs => do
      let l ← BulkPrepareLog.fromMarshal W
      pure (bulkPrepareLog l)
    | .cmdHrtbtPxs => do
      let l ← HeartBeatLog.fromMarshal W
      pure (heartBeatLog l)
    | .cmdSyncreqPxs => do
      let r ← SyncRequest.fromMarshal W
      pure (syncLogRequest r)
    | .cmdSyncrespPxs => do
      let sz ← W.getCount
      let syncData ← many (deputy W (fromMarshal W fuel)) sz
      let sz ← W.getCount
      let missingSlots ← many (W.getVector W.u64) sz
      pure (syncLogResponse syncData missingSlots)
    | .cmdSyncnoopPxs => do
      let r ← SyncRequest.fromMarshal W
      pure (syncNoOpRequest r)
    | .cmdPrepPxs => do
      let c ← PaxosPrepCmd.fromMarshal W
      pure (paxosPrepCmd c)

end Marshallable

end Rolis.Paxos.Marshal
