import Rolis.Paxos.State

/-!
# The request handlers of a replica

The handlers of `paxos/server.cc` as functions of the machine: each gives the machine after the
call and the reply, or no reply when a `verify` failed and the process aborted. What a handler does
from its first lock to its end is one function here; `Sections` cuts it where it releases its locks.

`OnBulkAccept`, `OnSyncCommit` and `OnBulkCommit` share everything but what they write for one
slot and what they do at the end: `bulkHandler` is that common text. Each handler below is
`bulkHandler` at its own write, so the three can be compared with the source one by one.

`ballot` of a valid reply is read by no caller, and some handlers leave it unset; it is 0 here.
-/

namespace Rolis.Paxos

variable {n S : ℕ}

/-! ## Operations on one stream -/

namespace PaxosServer

/-- `bulk_prepares[(cur_min_prepared_slot_, max_possible_slot_)].seen_ballot`. -/
def seenBallot (ps : PaxosServer n) : ℕ :=
  ((ps.bulkPrepares ps.curMinPreparedSlot).getD {}).seenBallot

/-- The second loop of `OnBulkPrepare`: move the prepare range and take over the epoch. -/
def prepare (ps : PaxosServer n) (epoch : ℕ) (leader : Fin n) (slotIdMin : ℕ) : PaxosServer n :=
  { ps with
    bulkPrepares := Function.update (Function.update ps.bulkPrepares ps.curMinPreparedSlot none)
      slotIdMin (some { seenBallot := epoch, leaderId := some leader })
    curMinPreparedSlot := slotIdMin
    curEpoch := epoch }

/-- `ps->cur_epoch = epoch; ps->leader_id = leader`, without a comparison. -/
def setEpoch (ps : PaxosServer n) (epoch : ℕ) (leader : Fin n) : PaxosServer n :=
  { ps with curEpoch := epoch, leaderId := some leader }

/-- What `OnBulkAccept` writes for one entry. -/
def accept (ps : PaxosServer n) (e : PaxosEntry) : PaxosServer n :=
  { ps with
    logs := Function.update ps.logs e.slot { ps.logs e.slot with
      maxBallotSeen := e.ballot, maxBallotAccepted := e.ballot, acceptedCmd := some e.cmd }
    maxAcceptedSlot := e.slot }

/-- What `OnSyncCommit` and `OnBulkCommit` write for one entry. -/
def commit (ps : PaxosServer n) (slot ballot : ℕ) (cmd : Option LogEntry) : PaxosServer n :=
  { ps with
    logs := Function.update ps.logs slot { ps.logs slot with
      maxBallotSeen := ballot, maxBallotAccepted := ballot, committedCmd := cmd }
    maxCommittedSlot := max ps.maxCommittedSlot slot }

/-- `max_executed_slot_++` with the call of `app_next_` for that slot. -/
def applyNext (ps : PaxosServer n) (cmd : LogEntry) : PaxosServer n :=
  { ps with
    maxExecutedSlot := ps.maxExecutedSlot + 1
    applied := ps.applied ++ [(ps.maxExecutedSlot + 1, cmd)] }

/-- The loop `for id = max_executed_slot_ + 1; id <= max_committed_slot_` of the commit
handlers, which stops at the first slot without a committed command. The loop variable is
`max_executed_slot_ + 1` at the head of every pass; `k` counts the slots that are left. -/
def executeLoop : ℕ → PaxosServer n → PaxosServer n
  | 0, ps => ps
  | k + 1, ps =>
    match (ps.logs (ps.maxExecutedSlot + 1)).committedCmd with
    | some cmd => executeLoop k (ps.applyNext cmd)
    | none => ps

def execute (ps : PaxosServer n) : PaxosServer n :=
  executeLoop (ps.maxCommittedSlot - ps.maxExecutedSlot) ps

/-- The first loop of `OnSyncNoOps`: every slot from `syncSlot` up to `max_committed_slot_`
without a committed command becomes a no-op. -/
def fillNoOps (ps : PaxosServer n) (syncSlot epoch : ℕ) : PaxosServer n :=
  { ps with
    logs := fun j =>
      if syncSlot ≤ j ∧ j ≤ ps.maxCommittedSlot ∧ (ps.logs j).committedCmd = none then
        { ps.logs j with committedCmd := some {}, isNoOp := true, maxBallotAccepted := epoch }
      else ps.logs j }

/-- The second loop of `OnSyncNoOps`: it applies every slot, and its `else` is `verify(0)`. -/
def executeNoOpsLoop : ℕ → PaxosServer n → PaxosServer n × Option VerifySite
  | 0, ps => (ps, none)
  | k + 1, ps =>
    match (ps.logs (ps.maxExecutedSlot + 1)).committedCmd,
        (ps.logs (ps.maxExecutedSlot + 1)).isNoOp with
    | some cmd, false => executeNoOpsLoop k (ps.applyNext cmd)
    | _, _ => (ps, some .noOpsHole)

/-- `OnSyncNoOps` on one stream. -/
def syncNoOps (ps : PaxosServer n) (syncSlot epoch : ℕ) : PaxosServer n × Option VerifySite :=
  if syncSlot ≤ ps.maxExecutedSlot then (ps, some .noOpsExecuted)
  else
    match executeNoOpsLoop (ps.maxCommittedSlot - ps.maxExecutedSlot)
        (ps.fillNoOps syncSlot epoch) with
    | (ps', some site) => (ps', some site)
    | (ps', none) =>
      ({ ps' with
          maxExecutedSlot := ps'.maxCommittedSlot
          curOpenSlot := ps'.maxCommittedSlot + 1 }, none)

/-- The committed entries `OnSyncLog` reports, from `from_` up to `max_committed_slot_`. -/
def committedFrom (ps : PaxosServer n) (from_ : ℕ) : List PaxosEntry :=
  (List.range' from_ (ps.maxCommittedSlot + 1 - from_)).filterMap fun j =>
    (ps.logs j).committedCmd.map fun cmd => ⟨j, (ps.logs j).maxBallotAccepted, cmd⟩

/-- The slots `OnSyncLog` reports missing: from `max_executed_slot_` up to below `upto`. -/
def missingUpTo (ps : PaxosServer n) (upto : ℕ) : List ℕ :=
  (List.range' ps.maxExecutedSlot (upto - ps.maxExecutedSlot)).filter fun j =>
    (ps.logs j).committedCmd = none

end PaxosServer

/-- `*valid = 0; *ballot = epoch`. -/
def reject (epoch : ℕ) : Reply S := { ballot := epoch, valid := false }

/-! ## Election handlers -/

namespace Machine

/-- `if(leader != machine_id) set_state(0)`. -/
def seeLeader (m : Machine n S) (leader : Fin n) : Machine n S :=
  if leader ≠ m.es.machineId then { m with es := { m.es with curState := .follower } } else m

/-- `OnBulkPrepare` past its checks: every stream is prepared, the leader and the epoch are
taken over. -/
def grantPrepare (m : Machine n S) (bpLog : BulkPrepareLog n S) : Machine n S :=
  let m' := (m.mapServers fun i ps =>
    ps.prepare bpLog.epoch bpLog.leaderId (bpLog.minPreparedSlots i).2).seeLeader bpLog.leaderId
  { m' with
    es := { m'.es with leaderId := some bpLog.leaderId }.setEpoch (some bpLog.epoch)
    log := .voted bpLog.epoch bpLog.leaderId ::
      if bpLog.leaderId ≠ m.es.machineId then .deposed :: m.log else m.log }

/-- `PaxosServer::OnBulkPrepare`. -/
def onBulkPrepare (m : Machine n S) (bpLog : BulkPrepareLog n S) :
    Machine n S × Option (Reply S) :=
  if bpLog.epoch < m.es.curEpoch then (m, some (reject m.es.curEpoch))
  else if bpLog.epoch = m.es.curEpoch ∧ bpLog.leaderId ≠ m.es.machineId then
    (m, some (reject m.es.curEpoch))
  else if ∃ i, bpLog.epoch < (m.server i).seenBallot then (m.abort .seenBallot, none)
  else (m.grantPrepare bpLog, some { ballot := bpLog.epoch, valid := true })

/-- `OnHeartbeat` with an epoch above the machine's own. -/
def followHeartbeat (m : Machine n S) (hbLog : HeartBeatLog n) : Machine n S :=
  let m' := m.mapServers fun _ ps => ps.setEpoch hbLog.epoch hbLog.leaderId
  { m' with
    es := { m'.es with
      curState := .follower, leaderId := some hbLog.leaderId }.setEpoch (some hbLog.epoch)
    log := if hbLog.leaderId ≠ m.es.machineId then .deposed :: m.log else m.log }

/-- `PaxosServer::OnHeartbeat`. -/
def onHeartbeat (m : Machine n S) (hbLog : HeartBeatLog n) : Machine n S × Option (Reply S) :=
  if hbLog.epoch < m.es.curEpoch then (m, some (reject m.es.curEpoch))
  else if hbLog.epoch = m.es.curEpoch then
    if some hbLog.leaderId ≠ m.es.leaderId then (m.abort .twoLeaders, none)
    -- `set_epoch(hb_log->epoch)` stores the epoch the machine already has
    else (m.seeLeader hbLog.leaderId, some { valid := true })
  else (m.followHeartbeat hbLog, some { valid := true })

/-! ## The bulk handlers of a stream -/

/-- The head of the loop body: `cur_epoch < ballot_id` raises the epoch of every stream, and
`es->set_leader(req_leader)`. -/
def adoptBallot (m : Machine n S) (par : Fin S) (leader : Fin n) (ballot : ℕ) : Machine n S :=
  let m' := if (m.server par).curEpoch < ballot then
    m.mapServers fun _ ps => ps.setEpoch ballot leader else m
  { m' with es := { m'.es with leaderId := some leader } }

/-- The loop over the entries of a batch. The second component is the epoch with which the loop
broke off on `cur_epoch > ballot_id`. -/
def bulkLoop {α : Type} (ballotOf : α → ℕ) (write : Machine n S → α → Machine n S)
    (par : Fin S) (leader : Fin n) : List α → Machine n S → Machine n S × Option ℕ
  | [], m => (m, none)
  | e :: es, m =>
    if ballotOf e < (m.server par).curEpoch then (m, some (m.server par).curEpoch)
    else
      let m' := write (m.adoptBallot par leader (ballotOf e)) e
      if m'.aborted.isSome then (m', none) else bulkLoop ballotOf write par leader es m'

/-- The common text of the bulk handlers. `ballots[0]` of an empty batch is undefined; the model
aborts there. -/
def bulkHandler {α : Type} (ballotOf : α → ℕ) (write : Machine n S → α → Machine n S)
    (finish : PaxosServer n → PaxosServer n) (par : Fin S) (leader : Fin n) (entries : List α)
    (m : Machine n S) : Machine n S × Option (Reply S) :=
  match entries with
  | [] => (m.abort .emptyBatch, none)
  | e :: _ =>
    if ballotOf e < (m.server par).curEpoch then (m, some (reject (m.server par).curEpoch))
    else
      match bulkLoop ballotOf write par leader entries (m.seeLeader leader) with
      | (m', some epoch) => (m', some (reject epoch))
      | (m', none) =>
        if m'.aborted.isSome then (m', none)
        else (m'.setServer par (finish (m'.server par)), some { valid := true })

/-- The loop body of `OnBulkAccept`. -/
def acceptEntry (par : Fin S) (m : Machine n S) (e : PaxosEntry) : Machine n S :=
  { m.setServer par ((m.server par).accept e) with
    log := .accepted par e.slot e.ballot e.cmd :: m.log }

/-- The loop body of `OnSyncCommit`. -/
def syncCommitEntry (par : Fin S) (m : Machine n S) (e : PaxosEntry) : Machine n S :=
  if ((m.server par).logs e.slot).maxBallotAccepted ≤ e.ballot then
    m.setServer par ((m.server par).commit e.slot e.ballot (some e.cmd))
  else m.abort .syncCommitBallot

/-- The loop body of `OnBulkCommit`: it commits what the slot has accepted. -/
def bulkCommitEntry (par : Fin S) (m : Machine n S) (e : SlotBallot) : Machine n S :=
  if ((m.server par).logs e.slot).maxBallotAccepted = e.ballot then
    m.setServer par
      ((m.server par).commit e.slot e.ballot ((m.server par).logs e.slot).acceptedCmd)
  else m.abort .bulkCommitBallot

/-- `PaxosServer::OnBulkAccept`. -/
def onBulkAccept (m : Machine n S) (par : Fin S) (cmd : BulkPaxosCmd n) :
    Machine n S × Option (Reply S) :=
  bulkHandler PaxosEntry.ballot (acceptEntry par) id par cmd.leaderId cmd.entries m

/-- `PaxosServer::OnSyncCommit`. -/
def onSyncCommit (m : Machine n S) (par : Fin S) (cmd : BulkPaxosCmd n) :
    Machine n S × Option (Reply S) :=
  bulkHandler PaxosEntry.ballot (syncCommitEntry par) PaxosServer.execute par cmd.leaderId
    cmd.entries m

/-- `PaxosServer::OnBulkCommit`. -/
def onBulkCommit (m : Machine n S) (par : Fin S) (cmd : PaxosPrepCmd n) :
    Machine n S × Option (Reply S) :=
  bulkHandler SlotBallot.ballot (bulkCommitEntry par) PaxosServer.execute par cmd.leaderId
    cmd.entries m

/-! ## The failover handlers -/

/-- What `OnSyncLog` fills into `ret_cmd`. -/
def syncLogResponse (m : Machine n S) (syncCommitSlot : Fin S → ℕ) : SyncLogResponse S where
  syncData i := (m.server i).committedFrom (syncCommitSlot i)
  missingSlots i := (m.server i).missingUpTo (syncCommitSlot i)

/-- `PaxosServer::OnSyncLog`. -/
def onSyncLog (m : Machine n S) (req : SyncLogRequest n S) : Machine n S × Option (Reply S) :=
  if req.epoch < m.es.curEpoch then (m, some (reject m.es.curEpoch))
  else (m, some { valid := true, ret := some (m.syncLogResponse req.syncCommitSlot) })

/-- The loop of `OnSyncNoOps` over the streams, which a failed `verify` ends. -/
def noOpsLoop (epoch : ℕ) (syncSlots : Fin S → ℕ) : List (Fin S) → Machine n S → Machine n S
  | [], m => m
  | i :: is, m =>
    match (m.server i).syncNoOps (syncSlots i) epoch with
    | (ps, some site) => (m.setServer i ps).abort site
    | (ps, none) => noOpsLoop epoch syncSlots is (m.setServer i ps)

/-- `PaxosServer::OnSyncNoOps`. It runs on the server of the election channel, and compares the
epoch with that server's `cur_epoch`. -/
def onSyncNoOps (m : Machine n S) (req : SyncNoOpRequest n S) :
    Machine n S × Option (Reply S) :=
  if req.epoch < m.back.sched.curEpoch then (m, some (reject m.back.sched.curEpoch))
  else
    let m' := noOpsLoop req.epoch req.syncSlots (List.finRange S) m
    if m'.aborted.isSome then (m', none) else (m', some { valid := true })

/-- `MultiPaxosServiceImpl`: the handler of each remote call. -/
def handle (m : Machine n S) : Request n S → Machine n S × Option (Reply S)
  | .bulkPrepare bpLog => m.onBulkPrepare bpLog
  | .heartbeat hbLog => m.onHeartbeat hbLog
  | .syncLog req => m.onSyncLog req
  | .syncCommit par cmd => m.onSyncCommit par cmd
  | .syncNoOps req => m.onSyncNoOps req
  | .bulkAccept par cmd => m.onBulkAccept par cmd
  | .bulkDecide par cmd => m.onBulkCommit par cmd

end Machine

end Rolis.Paxos
