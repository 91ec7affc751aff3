import Rolis.Lib.OrdMap
import Rolis.Paxos.Server

/-!
# What a machine does on its own

The sender's side: the threads `electionMonitor` and `heartbeatMonitor`, the failover sequence
of `stuff_todo_leader_election`, the submission of logs (`paxos_main_helper.cc`,
`paxos_worker.cc`, `BulkCoordinatorMultiPaxos`), and the callbacks of the replies.

A thread is cut at the places where it holds no lock: each `Input` below is what runs between
two such places, and other inputs and requests may come in between. The locked part of
`stuff_todo_leader_election` is one input; `Sections` cuts it further. A condition variable wakes
its waiter only after the broadcast it waits for.

`act` gives the machine after the input and the requests it broadcasts. A broadcast goes to
every machine, the sender included.
-/

namespace Rolis.Paxos

variable {n S : ℕ}

/-! ## Calls -/

/-- `k = (n%2 == 0) ? n/2 : (n/2 + 1)`. -/
def quorum (n : ℕ) : ℕ := if n % 2 = 0 then n / 2 else n / 2 + 1

namespace Call

/-- A broadcast nobody has answered yet. -/
def start (req : Request n S) : Call n S where
  req := req
  tally := .start (List.finRange n)

/-- `QuorumEvent::Yes()` and `No()`: `none` while the event is not ready. -/
def verdict (call : Call n S) : Option Bool :=
  if quorum n ≤ call.tally.yes.length then some true
  else if n - quorum n < call.tally.no.length then some false
  else none

/-- What a reply does to the variables of the waiting coroutine. -/
def receive (call : Call n S) (src : Fin n) (rep : Reply S) : Call n S :=
  let call' := { call with tally := call.tally.feed src rep.valid }
  match call.req with
  | .bulkPrepare _ =>
    if rep.valid then call'
    else { call' with receivedEpoch := some (max (call.receivedEpoch.getD 0) rep.ballot) }
  | .heartbeat _ => if rep.valid then call' else { call' with receivedEpoch := some rep.ballot }
  | .syncLog _ =>
    if rep.valid ∧ ¬ call.returned then
      { call' with responses := call.responses ++ rep.ret.toList }
    else call'
  | _ => call'

end Call

/-- The steps of the threads of one machine. -/
inductive Input (n S : ℕ)
  /-- `electionMonitor` does not see a leader, up to its wait on `election_cond` -/
  | electionTimeout
  /-- the job of `send_bulk_prep` after `SendBulkPrepare` returned -/
  | prepareReturns
  /-- the check of `electionMonitor` after its wait -/
  | electionWakes
  /-- the locked part of `stuff_todo_leader_election` -/
  | stuffTodoLeaderElection
  /-- `send_sync_logs`, up to the wait for the `SyncLog` replies -/
  | sendSyncLogs
  /-- `SendSyncLog` from there to the wait for the `SyncCommit` events -/
  | syncLogReturns
  /-- `send_sync_logs` returns; `send_no_ops_to_all_workers` up to its wait -/
  | sendNoOps
  /-- `send_no_ops_to_all_workers` returns -/
  | noOpsReturn
  /-- one pass of the loop of `send_no_ops_for_mark` -/
  | sendNoOpMark
  /-- one pass of `heartbeatMonitor` -/
  | heartbeatTick
  /-- the job of `heartbeatMonitor` after `SendHeartBeat` returned -/
  | heartbeatReturns (call : ℕ)
  /-- a client thread calls `add_log_to_nc` -/
  | addLogToNc (par : Fin S) (log : LogEntry)
  /-- a submitted job runs -/
  | bulkSubmit (par : Fin S) (job : ℕ)
  /-- `Accept` returns and `Commit` runs -/
  | acceptReturns (call : ℕ)
  /-- the process dies -/
  | crash
deriving DecidableEq

/-- One pass of the loop of `stuff_todo_leader_election` over the workers. -/
def PaxosWorker.lead (w : PaxosWorker n) (epoch : ℕ) : PaxosWorker n :=
  { w with
    curEpoch := epoch
    isLeader := true
    sched := { w.sched with curOpenSlot := w.sched.maxCommittedSlot + 1 } }

/-- `IncSubmit` and `Submit`: the log takes the next open slot and waits as a job. -/
def PaxosWorker.submit (w : PaxosWorker n) (log : LogEntry) (calledDeposed : Bool) :
    PaxosWorker n :=
  { w with
    nTot := w.nTot + 1
    jobs := w.jobs ++ [⟨w.sched.curOpenSlot, log, calledDeposed⟩]
    sched := { w.sched with curOpenSlot := w.sched.curOpenSlot + 1 } }

/-- A job leaves the queue. -/
def PaxosWorker.takeJob (w : PaxosWorker n) (k : ℕ) : PaxosWorker n :=
  { w with jobs := w.jobs.eraseIdx k }

namespace Machine

/-- `ElectionState::step_down`. -/
def stepDown (m : Machine n S) (epoch : ℕ) : Machine n S :=
  if epoch < m.es.curEpoch then m
  else
    { m with
      es := { m.es with curState := .follower, leaderId := none }.setEpoch (some epoch)
      streams := fun i => { m.streams i with curEpoch := epoch, isLeader := true }
      back := { m.back with curEpoch := epoch, isLeader := true }
      log := .deposed :: m.log }

/-- Replace a call. -/
def setCall (m : Machine n S) (id : ℕ) (call : Call n S) : Machine n S :=
  { m with calls := Function.update m.calls id (some call) }

/-- The callback of a reply. The quorum event of a call takes one answer from each machine. -/
def onReply (m : Machine n S) (src : Fin n) (id : ℕ) (rep : Reply S) : Machine n S :=
  match m.calls id with
  | none => m
  | some call =>
    if src ∈ call.tally.outstanding then
      let m' := m.setCall id (call.receive src rep)
      if rep.valid then m'
      else
        match call.req with
        | .syncLog _ | .syncCommit .. | .syncNoOps _ => m'.stepDown rep.ballot
        | .bulkAccept .. => if call.returned then m' else m'.abort .acceptRejected
        | _ => m'
    else m

/-- The call `id` if its coroutine can go on, with the answer of its quorum event. -/
def awaited (m : Machine n S) (id : ℕ) : Option (Call n S × Bool) :=
  match m.calls id with
  | none => none
  | some call => if call.returned then none else call.verdict.map (call, ·)

/-- The waiting coroutine of a call goes on. -/
def finishCall (m : Machine n S) (id : ℕ) (call : Call n S) : Machine n S :=
  m.setCall id { call with returned := true }

/-- `set_state(0); set_epoch(val)` when a broadcast came back with `val != -1`. -/
def adoptRejection (m : Machine n S) (val : Option ℕ) : Machine n S :=
  match val with
  | none => m
  | some epoch => { m with es := { m.es with curState := .follower }.setEpoch (some epoch) }

/-! ## Election -/

/-- `createBulkPrepare`. -/
def createBulkPrepare (m : Machine n S) (epoch : ℕ) : BulkPrepareLog n S where
  minPreparedSlots i := (i, (m.streams i).nCurrent + 1)
  leaderId := m.es.machineId
  epoch := epoch

/-- `electionMonitor` up to its wait, with `send_bulk_prep`. -/
def electionTimeout (m : Machine n S) : Option (Machine n S × List (Request n S)) :=
  match m.monitor with
  | .idle =>
    if m.es.curState = .leader then none
    else
      let es := m.es.setEpoch
      some ({ m with es := es
                     monitor := .voting es.curEpoch m.nextCall
                     log := .campaigned es.curEpoch :: m.log },
        [.bulkPrepare (m.createBulkPrepare es.curEpoch)])
  | _ => none

/-- `SendBulkPrepare` returns: on a yes nothing is stored, otherwise the received epoch is. -/
def prepareReturns (m : Machine n S) : Option (Machine n S × List (Request n S)) :=
  match m.monitor with
  | .voting epoch id =>
    (m.awaited id).map fun (call, yes) =>
      ({ (m.finishCall id call).adoptRejection (if yes then none else call.receivedEpoch) with
          monitor := .woken epoch }, [])
  | _ => none

/-- `if(send_epoch != es->cur_epoch) continue`. -/
def electionWakes (m : Machine n S) : Option (Machine n S × List (Request n S)) :=
  match m.monitor with
  | .woken epoch =>
    some ({ m with monitor := if epoch ≠ m.es.curEpoch then .idle else .elected epoch }, [])
  | _ => none

/-- The locked part of `stuff_todo_leader_election`: it reads the epoch again. -/
def stuffTodoLeaderElection (m : Machine n S) : Option (Machine n S × List (Request n S)) :=
  match m.monitor with
  | .elected _ =>
    some ({ m with
      es := { m.es with curState := .leader }
      streams := fun i => (m.streams i).lead m.es.curEpoch
      back := m.back.lead m.es.curEpoch
      monitor := .leading m.es.curEpoch
      log := .elected m.es.curEpoch :: m.log }, [])
  | _ => none

/-! ## Failover -/

/-- `createSyncLog`. -/
def createSyncLog (m : Machine n S) (epoch : ℕ) : SyncLogRequest n S where
  leaderId := m.es.machineId
  epoch := epoch
  syncCommitSlot i := (m.server i).maxExecutedSlot + 1

/-- `send_sync_logs` up to the wait in `SendSyncLog`. -/
def sendSyncLogs (m : Machine n S) : Option (Machine n S × List (Request n S)) :=
  match m.monitor with
  | .leading epoch =>
    some ({ m with monitor := .syncing epoch m.nextCall }, [.syncLog (m.createSyncLog epoch)])
  | _ => none

/-- The entries the leader adds to `commited_slots` for the slots a response misses. -/
def missingEntries (m : Machine n S) (j : Fin S) (slots : List ℕ) : List (ℕ × LogEntry) :=
  slots.filterMap fun slot => ((m.server j).logs slot).committedCmd.map (slot, ·)

/-- `commited_slots` restricted to one stream: first what the responses hold, then what the
leader has for the slots they miss. -/
def commitedSlots (m : Machine n S) (responses : List (SyncLogResponse S)) (j : Fin S) :
    List (ℕ × LogEntry) :=
  OrdMap.insertAll
    (responses.flatMap (fun r => (r.syncData j).map fun e => (e.slot, e.cmd)) ++
      responses.flatMap fun r => m.missingEntries j (r.missingSlots j)) []

/-- `sync_cmds[j]`: every ballot is the epoch of the request. -/
def syncCmd (m : Machine n S) (epoch : ℕ) (responses : List (SyncLogResponse S)) (j : Fin S) :
    BulkPaxosCmd n where
  leaderId := m.es.machineId
  entries := (m.commitedSlots responses j).map fun e => ⟨e.1, epoch, e.2⟩

/-- The `SyncCommit` broadcasts of `SendSyncLog`, one for each stream with an entry. -/
def syncCommits (m : Machine n S) (epoch : ℕ) (responses : List (SyncLogResponse S)) :
    List (Request n S) :=
  ((List.finRange S).filter fun j => (m.syncCmd epoch responses j).entries ≠ []).map fun j =>
    .syncCommit j (m.syncCmd epoch responses j)

/-- `SendSyncLog` after its wait. Without a yes it returns `received_epoch`, which nothing has
written, so the caller goes on as after a success. -/
def syncLogReturns (m : Machine n S) : Option (Machine n S × List (Request n S)) :=
  match m.monitor with
  | .syncing epoch id =>
    (m.awaited id).map fun (call, yes) =>
      let reqs := if yes then m.syncCommits epoch call.responses else []
      ({ m.finishCall id call with
          monitor := .committing epoch (List.range' m.nextCall reqs.length) }, reqs)
  | _ => none

/-- `createSyncNoOpLog`. -/
def createSyncNoOpLog (m : Machine n S) (epoch : ℕ) : SyncNoOpRequest n S where
  leaderId := m.es.machineId
  epoch := epoch
  syncSlots i := (m.server i).maxExecutedSlot + 1

/-- `send_sync_logs` returns when every `SyncCommit` event is ready, with a yes or a no. -/
def sendNoOps (m : Machine n S) : Option (Machine n S × List (Request n S)) :=
  match m.monitor with
  | .committing epoch ids =>
    if ids.all fun id => (m.awaited id).isSome then
      some ({ m with monitor := .noOps epoch m.nextCall },
        [.syncNoOps (m.createSyncNoOpLog epoch)])
    else none
  | _ => none

/-- `send_no_ops_to_all_workers` returns, with a yes or a no. -/
def noOpsReturn (m : Machine n S) : Option (Machine n S × List (Request n S)) :=
  match m.monitor with
  | .noOps epoch id =>
    (m.awaited id).map fun (call, _) =>
      ({ m.finishCall id call with monitor := .ready epoch 0 }, [])
  | _ => none

/-! ## Submission -/

/-- `add_log_to_nc`. -/
def addLogToNc (m : Machine n S) (par : Fin S) (log : LogEntry) : Machine n S :=
  if (m.streams par).isLeader then
    { m with
      streams := Function.update m.streams par
        ((m.streams par).submit log (isDeposed m.log)) }
  else m

/-- `"no-ops:" + to_string(epoch)`. -/
def noOpMark (epoch : ℕ) : LogEntry where
  logEntry := (['n', 'o', '-', 'o', 'p', 's', ':'] ++ Nat.toDigits 10 epoch).map fun c =>
    UInt8.ofNat c.toNat

/-- `send_no_ops_for_mark`, stream by stream; then `electionMonitor` starts over. -/
def sendNoOpMark (m : Machine n S) : Option (Machine n S × List (Request n S)) :=
  match m.monitor with
  | .ready epoch next =>
    if h : next < S then
      some ({ m.addLogToNc ⟨next, h⟩ (noOpMark epoch) with
        monitor := .ready epoch (next + 1) }, [])
    else some ({ m with monitor := .idle }, [])
  | _ => none

/-- `PaxosWorker::BulkSubmit`, with the `BroadcastBulkAccept` of the bulk coordinator. The epoch
is read here, not when the log was added. -/
def bulkSubmit (m : Machine n S) (par : Fin S) (k : ℕ) :
    Option (Machine n S × List (Request n S)) :=
  let w := m.streams par
  w.jobs[k]?.map fun job =>
    ({ m with
        streams := Function.update m.streams par (w.takeJob k)
        log := .proposed par job.slot w.curEpoch job.cmd job.calledDeposed :: m.log },
      [.bulkAccept par ⟨m.es.machineId, [⟨job.slot, w.curEpoch, job.cmd⟩]⟩])

/-- `Accept` after its wait and, on a yes, `Commit` with the commit callback. -/
def acceptReturns (m : Machine n S) (id : ℕ) : Option (Machine n S × List (Request n S)) :=
  match m.awaited id with
  | some (call, yes) =>
    match call.req with
    | .bulkAccept par cmd =>
      let m' := m.finishCall id call
      if yes then
        let w := m.streams par
        some ({ m' with
            streams := Function.update m.streams par { w with
              nCurrent := w.nCurrent + cmd.entries.length }
            log := cmd.entries.map (fun e => .callback par e.slot e.ballot e.cmd) ++ m.log },
          [.bulkDecide par ⟨cmd.leaderId, cmd.entries.map fun e => ⟨e.slot, e.ballot⟩⟩])
      else some (m', [])
    | _ => none
  | none => none

/-! ## Heartbeats -/

/-- One pass of `heartbeatMonitor`, with `createHeartBeat`. -/
def heartbeatTick (m : Machine n S) : Option (Machine n S × List (Request n S)) :=
  if m.es.curState = .follower then none
  else some (m, [.heartbeat ⟨m.es.machineId, m.es.curEpoch⟩])

/-- `SendHeartBeat` returns. -/
def heartbeatReturns (m : Machine n S) (id : ℕ) : Option (Machine n S × List (Request n S)) :=
  match m.awaited id with
  | some (call, yes) =>
    match call.req with
    | .heartbeat _ =>
      some ((m.finishCall id call).adoptRejection (if yes then none else call.receivedEpoch), [])
    | _ => none
  | none => none

/-! ## One step of a machine -/

/-- The machine after an input and the requests it broadcasts. -/
def act (m : Machine n S) : Input n S → Option (Machine n S × List (Request n S))
  | .electionTimeout => m.electionTimeout
  | .prepareReturns => m.prepareReturns
  | .electionWakes => m.electionWakes
  | .stuffTodoLeaderElection => m.stuffTodoLeaderElection
  | .sendSyncLogs => m.sendSyncLogs
  | .syncLogReturns => m.syncLogReturns
  | .sendNoOps => m.sendNoOps
  | .noOpsReturn => m.noOpsReturn
  | .sendNoOpMark => m.sendNoOpMark
  | .heartbeatTick => m.heartbeatTick
  | .heartbeatReturns id => m.heartbeatReturns id
  | .addLogToNc par log => some (m.addLogToNc par log, [])
  | .bulkSubmit par k => m.bulkSubmit par k
  | .acceptReturns id => m.acceptReturns id
  | .crash => some (m.abort .crashed, [])

/-- Open a call for each request; the ids count up from `nextCall`. -/
def startCalls (m : Machine n S) (reqs : List (Request n S)) : Machine n S :=
  { m with
    calls := fun id =>
      if id < m.nextCall then m.calls id else reqs[id - m.nextCall]?.map Call.start
    nextCall := m.nextCall + reqs.length }

end Machine

end Rolis.Paxos
