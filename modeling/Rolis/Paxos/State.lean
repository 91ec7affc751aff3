import Rolis.Lib.Tally

/-!
# The data model of the Paxos layer

The records of `paxos_worker.h` and `paxos/server.h`: what one machine keeps (its
`ElectionState`, one `PaxosWorker` with its `PaxosServer` for each stream, and the worker of
the election channel, `pxs_workers_g.back()`), and the messages the machines exchange.

`n` is the number of machines and `S` the number of streams, `pxs_workers_g.size() - 1`.
Epochs, ballots and slots are natural numbers; where the source uses `-1` for "none" the model
has an `Option`. Wall-clock fields (`lastseen`, `last_prep_sent`) only decide *when* a timeout
fires and are left out: every timing is a run.

Two fields are history rather than program state: `PaxosServer.applied`, the calls made to
`app_next_`, and `Machine.log`, the observable actions of the machine, newest first.
-/

namespace Rolis.Paxos

/-- The bytes of one submitted log. `make_shared<LogEntry>()` is the empty entry. -/
structure LogEntry where
  logEntry : List UInt8 := []
deriving DecidableEq, Repr

/-- One slot of a stream, `struct PaxosData`. -/
structure PaxosData where
  maxBallotSeen : ℕ := 0
  maxBallotAccepted : ℕ := 0
  isNoOp : Bool := false
  acceptedCmd : Option LogEntry := none
  committedCmd : Option LogEntry := none
deriving DecidableEq, Repr

/-- `struct BulkPrepare`, value-initialised where the map has no entry yet. -/
structure BulkPrepare (n : ℕ) where
  seenBallot : ℕ := 0
  leaderId : Option (Fin n) := none
deriving DecidableEq, Repr

/-- The replica state of one stream, `class PaxosServer`. The map `bulk_prepares` is keyed by
`(cur_min_prepared_slot_, max_possible_slot_)`; the second component is the constant
`INT_MAX`, so the first one is the key. `GetInstance` creates a default `PaxosData` for a slot
that has none, which is what `logs` answers there. -/
structure PaxosServer (n : ℕ) where
  maxExecutedSlot : ℕ := 0
  maxCommittedSlot : ℕ := 0
  curMinPreparedSlot : ℕ := 0
  maxAcceptedSlot : ℕ := 0
  curOpenSlot : ℕ := 1
  leaderId : Option (Fin n) := none
  bulkPrepares : ℕ → Option (BulkPrepare n) := fun _ => none
  logs : ℕ → PaxosData := fun _ => {}
  curEpoch : ℕ := 0
  applied : List (ℕ × LogEntry) := []

/-- A log that has its slot and waits as a `OneTimeJob` for `BulkSubmit`. `calledDeposed`
records whether the machine was deposed when `add_log_to_nc` was called. -/
structure Job where
  slot : ℕ
  cmd : LogEntry
  calledDeposed : Bool := false
deriving DecidableEq, Repr

/-- The worker of one stream, `class PaxosWorker`, with its `rep_sched_`. -/
structure PaxosWorker (n : ℕ) where
  curEpoch : ℕ := 0
  isLeader : Bool := false
  nCurrent : ℕ := 0
  nTot : ℕ := 0
  jobs : List Job := []
  sched : PaxosServer n := {}

/-- `cur_state`: 0 Follower, 1 Leader. -/
inductive Role
  | follower
  | leader
deriving DecidableEq, Repr

/-- `class ElectionState`, one for each process. `leader_id = -1` is `none`. -/
structure ElectionState (n : ℕ) where
  curEpoch : ℕ := 0
  curState : Role := .follower
  machineId : Fin n
  leaderId : Option (Fin n) := none
deriving DecidableEq, Repr

/-- `set_epoch`: without an argument it increments the epoch, with one it stores it. -/
def ElectionState.setEpoch {n : ℕ} (es : ElectionState n) (val : Option ℕ := none) :
    ElectionState n :=
  match val with
  | none => { es with curEpoch := es.curEpoch + 1 }
  | some v => { es with curEpoch := v }

/-! ## Messages -/

/-- `BulkPrepareLog`: for each stream its partition id and first slot to prepare. -/
structure BulkPrepareLog (n S : ℕ) where
  minPreparedSlots : Fin S → ℕ × ℕ
  leaderId : Fin n
  epoch : ℕ

/-- `HeartBeatLog`. -/
structure HeartBeatLog (n : ℕ) where
  leaderId : Fin n
  epoch : ℕ
deriving DecidableEq, Repr

/-- `SyncLogRequest`. -/
structure SyncLogRequest (n S : ℕ) where
  leaderId : Fin n
  epoch : ℕ
  syncCommitSlot : Fin S → ℕ

/-- `SyncNoOpRequest`. -/
structure SyncNoOpRequest (n S : ℕ) where
  leaderId : Fin n
  epoch : ℕ
  syncSlots : Fin S → ℕ

/-- One position of the vectors `slots`, `ballots` and `cmds` of a `BulkPaxosCmd`. -/
structure PaxosEntry where
  slot : ℕ
  ballot : ℕ
  cmd : LogEntry
deriving DecidableEq, Repr

/-- `BulkPaxosCmd`; its three vectors have one length by construction. -/
structure BulkPaxosCmd (n : ℕ) where
  leaderId : Fin n
  entries : List PaxosEntry
deriving DecidableEq, Repr

/-- One position of the vectors `slots` and `ballots` of a `PaxosPrepCmd`. -/
structure SlotBallot where
  slot : ℕ
  ballot : ℕ
deriving DecidableEq, Repr

/-- `PaxosPrepCmd`, sent by `Commit`: the slots and ballots, without the commands. -/
structure PaxosPrepCmd (n : ℕ) where
  leaderId : Fin n
  entries : List SlotBallot
deriving DecidableEq, Repr

/-- `SyncLogResponse`: for each stream its committed entries and its missing slots. -/
structure SyncLogResponse (S : ℕ) where
  syncData : Fin S → List PaxosEntry
  missingSlots : Fin S → List ℕ

/-- The remote calls of `MultiPaxosCommo`. The stream of a call is the partition whose proxies
it goes to; calls without one go over the election channel. -/
inductive Request (n S : ℕ)
  | bulkPrepare (bpLog : BulkPrepareLog n S)
  | heartbeat (hbLog : HeartBeatLog n)
  | syncLog (req : SyncLogRequest n S)
  | syncCommit (par : Fin S) (cmd : BulkPaxosCmd n)
  | syncNoOps (req : SyncNoOpRequest n S)
  | bulkAccept (par : Fin S) (cmd : BulkPaxosCmd n)
  | bulkDecide (par : Fin S) (cmd : PaxosPrepCmd n)

/-- `ballot` and `valid` of a reply, and the `SyncLogResponse` of a valid `SyncLog`. -/
structure Reply (S : ℕ) where
  ballot : ℕ := 0
  valid : Bool
  ret : Option (SyncLogResponse S) := none

/-! ## The sender's side of a call -/

/-- A broadcast of a request: the `QuorumEvent` that counts the replies and the variables the
reply callbacks write. `returned` is set once the waiting coroutine went on. -/
structure Call (n S : ℕ) where
  req : Request n S
  tally : Tally (Fin n)
  receivedEpoch : Option ℕ := none
  responses : List (SyncLogResponse S) := []
  returned : Bool := false

/-- Where the thread of `electionMonitor` stands. -/
inductive Monitor
  /-- at the top of the loop -/
  | idle
  /-- `send_bulk_prep(epoch)` is out and the thread waits on `election_cond` -/
  | voting (epoch call : ℕ)
  /-- `election_cond` was broadcast -/
  | woken (epoch : ℕ)
  /-- the check `send_epoch != cur_epoch` passed -/
  | elected (epoch : ℕ)
  /-- inside the locked part of `stuff_todo_leader_election` -/
  | taking (epoch : ℕ)
  /-- the locked part of `stuff_todo_leader_election` is done -/
  | leading (epoch : ℕ)
  /-- inside `send_sync_logs`, waiting for the `SyncLog` replies -/
  | syncing (epoch call : ℕ)
  /-- inside `send_sync_logs`, waiting for the `SyncCommit` events -/
  | committing (epoch : ℕ) (calls : List ℕ)
  /-- inside `send_no_ops_to_all_workers` -/
  | noOps (epoch call : ℕ)
  /-- `send_sync_logs` and `send_no_ops_to_all_workers` have returned; `send_no_ops_for_mark`
  has submitted its log to the streams below `next` -/
  | ready (epoch next : ℕ)
deriving DecidableEq, Repr

/-- The `verify` that ended a process, or a crash from outside. -/
inductive VerifySite
  | seenBallot
  | twoLeaders
  | emptyBatch
  | syncCommitBallot
  | bulkCommitBallot
  | noOpsExecuted
  | noOpsHole
  | acceptRejected
  | crashed
deriving DecidableEq, Repr

/-- The observable actions of a machine. -/
inductive Event (n S : ℕ)
  /-- `electionMonitor` took a new epoch and sent its `BulkPrepare` -/
  | campaigned (epoch : ℕ)
  /-- `OnBulkPrepare` answered `valid = 1` -/
  | voted (epoch : ℕ) (leader : Fin n)
  /-- `stuff_todo_leader_election` ran for this epoch -/
  | elected (epoch : ℕ)
  /-- `step_down` took effect, or another leader's higher epoch was granted or accepted -/
  | deposed
  /-- a `BulkAccept` was sent -/
  | proposed (par : Fin S) (slot ballot : ℕ) (cmd : LogEntry) (calledDeposed : Bool)
  /-- `OnBulkAccept` accepted an entry -/
  | accepted (par : Fin S) (slot ballot : ℕ) (cmd : LogEntry)
  /-- the commit callback ran -/
  | callback (par : Fin S) (slot ballot : ℕ) (cmd : LogEntry)
deriving DecidableEq, Repr

/-- One process. `streams` and `back` are `pxs_workers_g`. -/
structure Machine (n S : ℕ) where
  es : ElectionState n
  streams : Fin S → PaxosWorker n := fun _ => {}
  back : PaxosWorker n := {}
  monitor : Monitor := .idle
  calls : ℕ → Option (Call n S) := fun _ => none
  nextCall : ℕ := 0
  aborted : Option VerifySite := none
  log : List (Event n S) := []

namespace Machine

variable {n S : ℕ}

/-- `pxs_workers_g[i]->rep_sched_`. -/
def server (m : Machine n S) (i : Fin S) : PaxosServer n := (m.streams i).sched

/-- Replace the server of one stream. -/
def setServer (m : Machine n S) (i : Fin S) (ps : PaxosServer n) : Machine n S :=
  { m with streams := Function.update m.streams i { m.streams i with sched := ps } }

/-- Replace the servers of all streams. -/
def mapServers (m : Machine n S) (f : Fin S → PaxosServer n → PaxosServer n) : Machine n S :=
  { m with streams := fun i => { m.streams i with sched := f i (m.streams i).sched } }

/-- A failed `verify` ends the process. -/
def abort (m : Machine n S) (site : VerifySite) : Machine n S := { m with aborted := some site }

@[simp] lemma server_setServer_self (m : Machine n S) (i : Fin S) (ps : PaxosServer n) :
    (m.setServer i ps).server i = ps := by
  simp [server, setServer]

lemma server_setServer_ne (m : Machine n S) {i j : Fin S} (ps : PaxosServer n) (h : j ≠ i) :
    (m.setServer i ps).server j = m.server j := by
  simp [server, setServer, Function.update_of_ne h]

lemma server_setServer (m : Machine n S) (i j : Fin S) (ps : PaxosServer n) :
    (m.setServer i ps).server j = if j = i then ps else m.server j := by
  split
  · next h => rw [h, server_setServer_self]
  · next h => exact server_setServer_ne m ps h

end Machine

/-- Whether the machine was deposed since it last became leader. -/
def isDeposed {n S : ℕ} : List (Event n S) → Bool
  | [] => false
  | .deposed :: _ => true
  | .elected _ :: _ => false
  | _ :: log => isDeposed log

end Rolis.Paxos
