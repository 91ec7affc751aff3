import Rolis.Lib.Code
import Rolis.Paxos.ClusterTheorems

/-!
# The handlers in sections

A handler takes and releases several locks, and requests of other streams, of the election channel
and the threads of the machine itself may come in wherever it holds none. Here the handlers and
`stuff_todo_leader_election` are cut there. What a bulk handler writes for one entry, and the calls
of `app_next_` at its end, are done without a lock; each is one section.

Left alone, a handler does what `Machine.handle` says (`run_handleCode`).
-/

namespace Rolis.Paxos

open Code Function List

variable {n S : ℕ}

/-- What a handler has still to do, and its reply. -/
abbrev Handler (n S : ℕ) := Code (Machine n S) (Option (Reply S))

namespace Machine

/-! ## The code -/

/-- `ps->cur_epoch = epoch; ps->leader_id = leader` for one stream after the other. -/
def raiseEpochs (epoch : ℕ) (leader : Fin n) : List (Machine n S → Machine n S) :=
  (finRange S).map fun i m => m.setServer i ((m.server i).setEpoch epoch leader)

/-- `es->set_leader(leader)`. -/
def setLeader (leader : Fin n) (m : Machine n S) : Machine n S :=
  { m with es := { m.es with leaderId := some leader } }

/-- What a bulk handler does before it writes an entry with this ballot. -/
def adoptSections (par : Fin S) (leader : Fin n) (ballot : ℕ) (m : Machine n S) :
    List (Machine n S → Machine n S) :=
  (if (m.server par).curEpoch < ballot then raiseEpochs ballot leader else []) ++
    [setLeader leader]

/-- The loop of a bulk handler; `mtx_` is held for the comparison alone. -/
def bulkLoopCode {α : Type} (ballotOf : α → ℕ) (write : Machine n S → α → Machine n S)
    (par : Fin S) (leader : Fin n) (done : Handler n S) : List α → Handler n S
  | [] => done
  | e :: es => .sect id fun m =>
    if ballotOf e < (m.server par).curEpoch then .ret (some (reject (m.server par).curEpoch))
    else
      seq (adoptSections par leader (ballotOf e) m) <| .sect (write · e) fun m =>
        if (write m e).aborted.isSome then .ret none
        else bulkLoopCode ballotOf write par leader done es

def bulkCode {α : Type} (ballotOf : α → ℕ) (write : Machine n S → α → Machine n S)
    (finish : PaxosServer n → PaxosServer n) (par : Fin S) (leader : Fin n) (entries : List α) :
    Handler n S :=
  match entries with
  | [] => .sect (·.abort .emptyBatch) fun _ => .ret none
  | e :: _ => .sect id fun m =>
    if ballotOf e < (m.server par).curEpoch then .ret (some (reject (m.server par).curEpoch))
    else .sect (·.seeLeader leader) fun _ =>
      bulkLoopCode ballotOf write par leader
        (.sect (fun m => m.setServer par (finish (m.server par))) fun _ =>
          .ret (some { valid := true })) entries

/-- `OnHeartbeat` holds `state_lock` to its end, but the locks of the streams one by one. -/
def onHeartbeatCode (hbLog : HeartBeatLog n) : Handler n S :=
  .sect
    (fun m => if m.es.curEpoch < hbLog.epoch then
        { m with
          es := { m.es with curState := .follower }.setEpoch (some hbLog.epoch)
          log := if hbLog.leaderId ≠ m.es.machineId then .deposed :: m.log else m.log }
      else (m.onHeartbeat hbLog).1)
    fun m => if m.es.curEpoch < hbLog.epoch then
        seq (raiseEpochs hbLog.epoch hbLog.leaderId) <|
        .sect (setLeader hbLog.leaderId) fun _ => .ret (some { valid := true })
      else .ret (m.onHeartbeat hbLog).2

/-- The loop of `OnSyncLog` over the streams. -/
def syncLogLoopCode (slots : Fin S → ℕ) : List (Fin S) → SyncLogResponse S → Handler n S
  | [], resp => .ret (some { valid := true, ret := some resp })
  | i :: is, resp => .sect id fun m => syncLogLoopCode slots is
      { syncData := update resp.syncData i ((m.server i).committedFrom (slots i))
        missingSlots := update resp.missingSlots i ((m.server i).missingUpTo (slots i)) }

def onSyncLogCode (req : SyncLogRequest n S) : Handler n S := .sect id fun m =>
  if req.epoch < m.es.curEpoch then .ret (some (reject m.es.curEpoch))
  else syncLogLoopCode req.syncCommitSlot (finRange S) ⟨fun _ => [], fun _ => []⟩

/-- `OnSyncNoOps` on one stream, under its `mtx_`. -/
def noOpsStep (epoch : ℕ) (syncSlots : Fin S → ℕ) (i : Fin S) (m : Machine n S) : Machine n S :=
  match (m.server i).syncNoOps (syncSlots i) epoch with
  | (ps, some site) => (m.setServer i ps).abort site
  | (ps, none) => m.setServer i ps

def noOpsLoopCode (epoch : ℕ) (syncSlots : Fin S → ℕ) : List (Fin S) → Handler n S
  | [] => .ret (some { valid := true })
  | i :: is => .sect (noOpsStep epoch syncSlots i) fun m =>
    if (noOpsStep epoch syncSlots i m).aborted.isSome then .ret none
    else noOpsLoopCode epoch syncSlots is

def onSyncNoOpsCode (req : SyncNoOpRequest n S) : Handler n S := .sect id fun m =>
  if req.epoch < m.back.sched.curEpoch then .ret (some (reject m.back.sched.curEpoch))
  else noOpsLoopCode req.epoch req.syncSlots (finRange S)

/-- The handler of each remote call. `OnBulkPrepare` holds all its locks to the end. -/
def handleCode : Request n S → Handler n S
  | .bulkPrepare bpLog => .atomic (·.onBulkPrepare bpLog)
  | .heartbeat hbLog => onHeartbeatCode hbLog
  | .syncLog req => onSyncLogCode req
  | .syncCommit par cmd =>
    bulkCode PaxosEntry.ballot (syncCommitEntry par) PaxosServer.execute par cmd.leaderId
      cmd.entries
  | .syncNoOps req => onSyncNoOpsCode req
  | .bulkAccept par cmd =>
    bulkCode PaxosEntry.ballot (acceptEntry par) id par cmd.leaderId cmd.entries
  | .bulkDecide par cmd =>
    bulkCode SlotBallot.ballot (bulkCommitEntry par) PaxosServer.execute par cmd.leaderId
      cmd.entries

/-- `cur_epoch = es->get_epoch(); is_leader = 1`, under `election_state_lock`. -/
def markLeader (i : Fin S) (m : Machine n S) : Machine n S :=
  { m with
    streams := update m.streams i { m.streams i with curEpoch := m.es.curEpoch, isLeader := true } }

/-- `cur_open_slot_ = max_committed_slot_ + 1`, under `mtx_`. -/
def resetOpenSlot (i : Fin S) (m : Machine n S) : Machine n S :=
  m.setServer i { m.server i with curOpenSlot := (m.server i).maxCommittedSlot + 1 }

/-- The locked part of `stuff_todo_leader_election`. It holds `state_lock` to the end, which does
not keep out `add_log_to_nc` and `BulkSubmit`. -/
def stuffTodoCode {α : Type} : Code (Machine n S) (List α) :=
  .sect (fun m => { m with es := { m.es with curState := .leader } }) fun _ =>
  seq ((finRange S).flatMap fun i => [markLeader i, resetOpenSlot i]) <|
  .sect (fun m => { m with back := m.back.lead m.es.curEpoch }) fun _ =>
  .sect (fun m => { m with
    monitor := .leading m.es.curEpoch, log := .elected m.es.curEpoch :: m.log }) fun _ =>
  .ret []

/-! ## Left alone -/

/-- The process is alive. -/
def alive (m : Machine n S) : Bool := m.aborted.isNone

section Run

variable {m : Machine n S} {α : Type} {ballotOf : α → ℕ} {write : Machine n S → α → Machine n S}
  {finish : PaxosServer n → PaxosServer n} {par : Fin S} {leader : Fin n} {done : Handler n S}

lemma not_isSome_of_alive (hm : m.alive) : m.aborted.isSome = false := by
  simpa [alive] using hm

/-- One stream after the other is all streams at once. -/
lemma foldl_streams {g : Fin S → Machine n S → Machine n S}
    {f : ElectionState n → PaxosWorker n → PaxosWorker n} (hg : ∀ i m, g i m =
      { m with streams := update m.streams i (f m.es (m.streams i)) }) (is : List (Fin S))
    (his : is.Nodup) (m : Machine n S) : is.foldl (fun m i => g i m) m =
      { m with streams := fun i => if i ∈ is then f m.es (m.streams i) else m.streams i } := by
  induction is generalizing m with
  | nil => rfl
  | cons j is ih =>
    rw [nodup_cons] at his
    rw [foldl_cons, ih his.2, hg]
    congr 1
    funext i
    by_cases hi : i = j
    · subst hi
      simp [his.1]
    · simp [hi]

lemma foldl_raiseEpochs (epoch : ℕ) (leader : Fin n) (m : Machine n S) :
    (raiseEpochs epoch leader).foldl (fun m f => f m) m =
      m.mapServers fun _ ps => ps.setEpoch epoch leader := by
  rw [raiseEpochs, foldl_map]
  refine (foldl_streams (f := fun _ w => { w with sched := w.sched.setEpoch epoch leader })
    (fun _ _ => rfl) _ (nodup_finRange S) m).trans ?_
  simp [mapServers]

lemma alive_raiseEpochs {epoch : ℕ} {f : Machine n S → Machine n S}
    (hf : f ∈ raiseEpochs epoch leader) (m : Machine n S) : (f m).alive = m.alive := by
  obtain ⟨i, -, rfl⟩ := mem_map.mp hf
  rfl

lemma foldl_adopt (leader : Fin n) (ballot : ℕ) (m : Machine n S) :
    (adoptSections par leader ballot m).foldl (fun m f => f m) m =
      m.adoptBallot par leader ballot := by
  unfold adoptSections adoptBallot
  rw [foldl_append]
  split
  · rw [foldl_raiseEpochs]
    rfl
  · rfl

lemma alive_adopt {ballot : ℕ} {f : Machine n S → Machine n S}
    (hf : f ∈ adoptSections par leader ballot m) (m : Machine n S) : (f m).alive = m.alive := by
  rcases mem_append.mp hf with hf | hf
  · split at hf
    · exact alive_raiseEpochs hf m
    · cases hf
  · cases mem_singleton.mp hf
    rfl

lemma run_bulkLoopCode (entries : List α) (hm : m.alive) :
    (bulkLoopCode ballotOf write par leader done entries).run alive m =
      match bulkLoop ballotOf write par leader entries m with
      | (m', some epoch) => (m', some (some (reject epoch)))
      | (m', none) => if m'.aborted.isSome then (m', some none) else done.run alive m' := by
  induction entries generalizing m with
  | nil => simp [bulkLoopCode, bulkLoop, Option.isNone_iff_eq_none.mp hm]
  | cons e es ih =>
    rw [bulkLoopCode, bulkLoop, run_sect hm, id]
    split
    · rfl
    · have hadopt : (m.adoptBallot par leader (ballotOf e)).alive := by
        rw [alive, adoptBallot_aborted]
        exact hm
      rw [run_seq (fun _ => alive_adopt) hm, foldl_adopt, run_sect hadopt]
      split
      · next h => simp [run, h]
      · next h => simpa [h] using ih (by simpa [alive] using h)

lemma run_bulkCode (entries : List α) (hm : m.alive) :
    (bulkCode ballotOf write finish par leader entries).run alive m =
      Prod.map id some (bulkHandler ballotOf write finish par leader entries m) := by
  cases entries with
  | nil => exact run_sect hm
  | cons e es =>
    rw [bulkCode, bulkHandler, run_sect hm, id]
    split
    · rfl
    · rw [run_sect hm, run_bulkLoopCode _ (by simpa [alive] using hm)]
      cases bulkLoop ballotOf write par leader (e :: es) (m.seeLeader leader) with
      | mk m' r =>
        cases r with
        | some epoch => rfl
        | none =>
          dsimp only
          split
          · rfl
          · next h => exact run_sect (by simpa [alive] using h)

lemma run_onHeartbeatCode (hbLog : HeartBeatLog n) (hm : m.alive) :
    (onHeartbeatCode hbLog).run alive m = Prod.map id some (m.onHeartbeat hbLog) := by
  rw [onHeartbeatCode, run_sect hm]
  split
  · next h =>
    rw [run_seq fun _ => alive_raiseEpochs, foldl_raiseEpochs, run_sect, onHeartbeat,
      if_neg h.not_gt, if_neg h.ne']
    · rfl
    · exact hm
    · exact hm
  · rfl

/-- What the loop of `OnSyncLog` reads of the streams in `is`. -/
lemma run_syncLogLoopCode (slots : Fin S → ℕ) (is : List (Fin S)) (resp : SyncLogResponse S)
    (hm : m.alive) : (syncLogLoopCode slots is resp).run alive m =
      (m, some (some { valid := true, ret := some {
        syncData := fun i =>
          if i ∈ is then (m.server i).committedFrom (slots i) else resp.syncData i
        missingSlots := fun i =>
          if i ∈ is then (m.server i).missingUpTo (slots i) else resp.missingSlots i } })) := by
  induction is generalizing resp with
  | nil => rfl
  | cons j is ih =>
    rw [syncLogLoopCode, run_sect hm, id, ih]
    congr 6 <;>
    · funext i
      by_cases hi : i = j
      · subst hi
        simp
      · simp [hi]

lemma run_onSyncLogCode (req : SyncLogRequest n S) (hm : m.alive) :
    (onSyncLogCode req).run alive m = Prod.map id some (m.onSyncLog req) := by
  rw [onSyncLogCode, run_sect hm, onSyncLog]
  split
  · rfl
  · rw [id, run_syncLogLoopCode _ _ _ hm]
    simp [syncLogResponse]

lemma run_noOpsLoopCode (epoch : ℕ) (syncSlots : Fin S → ℕ) (is : List (Fin S)) (hm : m.alive) :
    (noOpsLoopCode epoch syncSlots is).run alive m =
      let m' := noOpsLoop epoch syncSlots is m
      Prod.map id some
        (if m'.aborted.isSome then (m', none) else (m', some { valid := true })) := by
  induction is generalizing m with
  | nil => simp [noOpsLoopCode, noOpsLoop, run, Option.isNone_iff_eq_none.mp hm]
  | cons i is ih =>
    rw [noOpsLoopCode, noOpsLoop, run_sect hm, noOpsStep]
    cases (m.server i).syncNoOps (syncSlots i) epoch with
    | mk ps site =>
      cases site with
      | some site => rfl
      | none =>
        simp only [setServer_aborted, Option.isNone_iff_eq_none.mp hm]
        exact ih hm

lemma run_onSyncNoOpsCode (req : SyncNoOpRequest n S) (hm : m.alive) :
    (onSyncNoOpsCode req).run alive m = Prod.map id some (m.onSyncNoOps req) := by
  rw [onSyncNoOpsCode, run_sect hm, onSyncNoOps]
  split
  · rfl
  · exact run_noOpsLoopCode _ _ _ hm

/-- A handler that nobody disturbs. -/
lemma run_handleCode (req : Request n S) (hm : m.alive) :
    (handleCode req).run alive m = Prod.map id some (m.handle req) := by
  cases req with
  | bulkPrepare bpLog => exact run_sect hm
  | heartbeat hbLog => exact run_onHeartbeatCode hbLog hm
  | syncLog req => exact run_onSyncLogCode req hm
  | syncNoOps req => exact run_onSyncNoOpsCode req hm
  | syncCommit par cmd | bulkAccept par cmd | bulkDecide par cmd => exact run_bulkCode _ hm

/-- The loop of `stuff_todo_leader_election` over the streams. -/
lemma foldl_stuffTodo (m : Machine n S) :
    ((finRange S).flatMap fun i => [markLeader i, resetOpenSlot i]).foldl (fun m f => f m) m =
      { m with streams := fun i => (m.streams i).lead m.es.curEpoch } := by
  rw [foldl_flatMap]
  refine (foldl_streams (f := fun es w => w.lead es.curEpoch)
    (g := fun i m => resetOpenSlot i (markLeader i m)) (fun i m => ?_) _ (nodup_finRange S)
    m).trans ?_
  · simp [resetOpenSlot, markLeader, setServer, server, PaxosWorker.lead]
  · simp

/-- `stuff_todo_leader_election` that nobody disturbs. -/
lemma run_stuffTodoCode (hm : m.alive) : stuffTodoCode.run alive m = ({ m with
    es := { m.es with curState := .leader }
    streams := fun i => (m.streams i).lead m.es.curEpoch
    back := m.back.lead m.es.curEpoch
    monitor := .leading m.es.curEpoch
    log := .elected m.es.curEpoch :: m.log }, some ([] : List α)) := by
  rw [stuffTodoCode, run_sect hm, run_seq fun f hf m => ?_, foldl_stuffTodo, run_sect, run_sect]
  · rfl
  · exact hm
  · exact hm
  · exact hm
  · simp only [mem_flatMap, mem_cons, not_mem_nil, or_false] at hf
    obtain ⟨i, -, rfl | rfl⟩ := hf <;> rfl

end Run

end Machine

end Rolis.Paxos
