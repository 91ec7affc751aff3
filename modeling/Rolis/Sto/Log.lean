import Mathlib.Data.Nat.Bitwise
import Rolis.Lib.Bytes

/-!
# The transaction log

The two hand-written loops over the log format: `Transaction::serialize_util` with the
`StringAllocator` of its thread, which appends one transaction to the batch and submits the
batch, and the reader `treplay_in_same_thread_opt_mbta_v2` with the decoding part of
`getFileContentNew_OneLogOptimized_mbta_v2`.

A batch is a sequence of transactions followed by a trailer, the commit id of the last one. A
transaction has its commit id (8 bytes), the number of its writes (2 bytes), the length of what
follows (4 bytes) and for each write the length of the key, the key, the length of the value, the
value and the table id, of which bit 15 is the delete flag. Integers are little-endian.

`none` stands for an `exit(1)`, a failed `assert` or a copy that reads past the end of its source.
-/

namespace Rolis.Sto

open Bytes

/-! ## Writing -/

/-- A `TransItem` with `has_write()`, as far as `serialize_util` reads it: its flags, its
`write_value<std::string>()`, its `extra`, the contents of the element its key points to, and the
identity of its `sharedObj()`. -/
structure WriteItem where
  hasInsertOp : Bool
  hasDeleteOp : Bool
  writeValue : Bytes
  extra : Bytes
  value : Bytes
  identity : ℕ
deriving DecidableEq, Repr

namespace WriteItem

/-- The string the key is copied from. -/
def kkx (it : WriteItem) : Bytes := if it.hasInsertOp then it.writeValue else it.extra

/-- `table_id`, a 16-bit integer. -/
def tableId (it : WriteItem) : ℕ :=
  if it.hasDeleteOp then it.identity % 2 ^ 16 ||| 2 ^ 15 else it.identity % 2 ^ 16

/-- Steps 4 to 6 of `serialize_util`. The length of the key is taken from `extra` and the key
itself from `kkx`. -/
def serialize (it : WriteItem) : Option Bytes :=
  let lenOfK := it.extra.length % 2 ^ 16
  let lenOfV := it.value.length % 2 ^ 16
  if lenOfK = 0 ∨ it.kkx.length < lenOfK then none
  else
    some (encode 2 lenOfK ++ it.kkx.take lenOfK ++ encode 2 lenOfV ++ it.value.take lenOfV ++
      encode 2 it.tableId)

end WriteItem

/-- The loop of `serialize_util` over the items that have a write. -/
def serializeItems : List WriteItem → Option Bytes
  | [] => some []
  | it :: items =>
    match it.serialize with
    | none => none
    | some kv => (serializeItems items).map (kv ++ ·)

/-- A transaction when it commits: the reading `tid_unique()` of the time stamp counter, the
epoch that `callback_()` answers, and its items that have a write. -/
structure Commit where
  tid : ℕ
  epoch : ℕ
  items : List WriteItem
deriving DecidableEq, Repr

/-- `cid = epoch + cid * 1000`, a 64-bit integer. -/
def commitId (tid epoch : ℕ) : ℕ := (epoch + tid * 1000) % 2 ^ 64

/-- The commit id of a transaction. -/
def Commit.cid (c : Commit) : ℕ := commitId c.tid c.epoch

lemma Commit.cid_lt (c : Commit) : c.cid < 256 ^ 8 := Nat.mod_lt _ (by norm_num)

/-- The bytes `serialize_util` appends for one transaction. The length of the key-value pairs is
filled in last. -/
def serializeTxn (cid : ℕ) (items : List WriteItem) : Option Bytes :=
  (serializeItems items).map fun kvs =>
    encode 8 cid ++ encode 2 items.length ++ encode 4 kvs.length ++ kvs

/-- `class StringAllocator`: the bytes of the batch below `curr_pos`, the number of transactions
in it, and the commit id of the last one. -/
structure StringAllocator where
  log : Bytes := []
  entries : ℕ := 0
  latestCommitId : ℕ := 0
deriving DecidableEq, Repr

/-- `MAX_ARRAY_SIZE_IN_BYTES`. -/
def maxArraySizeInBytes : ℕ := 4098 * 3 * 4098

namespace StringAllocator

/-- `serialize_util` with batches of `kSizeLimit` transactions: the allocator afterwards and the
batch that was submitted, if one was. A batch that is submitted holds at least the header of this
transaction, so `pos != 0`. -/
def serializeUtil (kSizeLimit : ℕ) (inst : StringAllocator) (c : Commit) :
    Option (StringAllocator × Option Bytes) :=
  if c.items = [] then some (inst, none)
  else
    match serializeTxn c.cid c.items with
    | none => none
    | some txn =>
      let log := inst.log ++ txn
      if kSizeLimit ≤ inst.entries + 1 then
        if log.length ≤ maxArraySizeInBytes then some ({}, some (log ++ encode 8 c.cid))
        else none
      else some (⟨log, inst.entries + 1, c.cid⟩, none)

/-- The commits of one thread, one after another: the allocator afterwards and the batches that
were submitted. -/
def run (kSizeLimit : ℕ) : StringAllocator → List Commit → Option (StringAllocator × List Bytes)
  | inst, [] => some (inst, [])
  | inst, c :: cs =>
    match inst.serializeUtil kSizeLimit c with
    | none => none
    | some (inst, batch) =>
      (run kSizeLimit inst cs).map fun (inst, batches) => (inst, batch.toList ++ batches)

/-- `~StringAllocator`: the batch that the exit of the thread submits, if one is. -/
def destroy (inst : StringAllocator) : Option (Option Bytes) :=
  if maxArraySizeInBytes < inst.log.length then none
  else if inst.log = [] then some none
  else if inst.latestCommitId = 0 then none
  else some (some (inst.log ++ encode 8 inst.latestCommitId))

end StringAllocator

/-- All batches of a thread that makes the commits `cs` and exits. -/
def submitted (kSizeLimit : ℕ) (cs : List Commit) : Option (List Bytes) :=
  match StringAllocator.run kSizeLimit {} cs with
  | none => none
  | some (inst, batches) => inst.destroy.map fun batch => batches ++ batch.toList

/-! ## Reading -/

/-- One key-value pair as the reader takes it from the buffer. `raw` is the value with the eight
bytes behind it, the place where the commit id is put. -/
structure KV where
  key : Bytes
  raw : Bytes
  tableId : ℕ
  deleteTrue : Bool
deriving DecidableEq, Repr

/-- One turn of the loop of `getFileContentNew_OneLogOptimized_mbta_v2`, up to step 5. -/
def readKV (buffer : Bytes) : Option (KV × Bytes) := do
  let (lenOfK, buffer) ← readNat 2 buffer
  let (key, buffer) ← read lenOfK buffer
  let (lenOfV, buffer) ← readNat 2 buffer
  -- the copy of the value takes eight bytes more than the offset moves
  let (raw, _) ← read (lenOfV + 8) buffer
  let (tableId, buffer) ← readNat 2 (buffer.drop lenOfV)
  let deleteTrue := tableId.testBit 15
  let tableId := if deleteTrue then tableId ^^^ 2 ^ 15 else tableId
  if tableId = 0 ∨ 20000 < tableId ∨ tableId < 10000 then none
  else some (⟨key, raw, tableId, deleteTrue⟩, buffer)

/-- `WrappedLogV2`; `arr` is what the pointer sees, the rest of the buffer. -/
structure WrappedLog where
  cid : ℕ
  count : ℕ
  len : ℕ
  arr : Bytes
deriving DecidableEq, Repr

/-- Steps 1 to 4 of the loop of `treplay_in_same_thread_opt_mbta_v2`. -/
def readHeader (buffer : Bytes) : Option WrappedLog := do
  let (cid, buffer) ← readNat 8 buffer
  let (count, buffer) ← readNat 2 buffer
  let (len, buffer) ← readNat 4 buffer
  some ⟨cid, count, len, buffer⟩

/-- The loop of `treplay_in_same_thread_opt_mbta_v2`: the logs and what it leaves of the buffer.
It runs while more than the trailer is left; every turn takes at least the 14 bytes of a header,
so the length of the buffer is enough `fuel`. -/
def readLogs (fuel : ℕ) (buffer : Bytes) : Option (List WrappedLog × Bytes) :=
  if buffer.length ≤ 8 then some ([], buffer)
  else
    match fuel with
    | 0 => none
    | fuel + 1 =>
      match readHeader buffer with
      | none => none
      | some w => (readLogs fuel (w.arr.drop w.len)).map fun (ws, rest) => (w :: ws, rest)

/-- The transaction of one wrapped log: its commit id and its key-value pairs. -/
def WrappedLog.txn (w : WrappedLog) : Option (ℕ × List KV) :=
  (readN readKV w.count w.arr).map fun (kvs, _) => (w.cid, kvs)

/-- What `treplay_in_same_thread_opt_mbta_v2` finds in a buffer: the transactions, in order, and
the bytes where its parse ended. -/
def parse (buffer : Bytes) : Option (List (ℕ × List KV) × Bytes) :=
  if buffer.length < 8 then none
  else
    match readLogs buffer.length buffer with
    | none => none
    | some (ws, rest) => (ws.mapM WrappedLog.txn).map fun txns => (txns, rest)

/-- `get_latest_commit_id`, the trailer. -/
def latestCommitId (buffer : Bytes) : ℕ := decode (buffer.drop (buffer.length - 8))

/-- The transactions that a replay of the buffer finds. -/
def txns (buffer : Bytes) : List (ℕ × List KV) := (parse buffer).elim [] Prod.fst

end Rolis.Sto
