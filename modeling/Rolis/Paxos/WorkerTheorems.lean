import Rolis.Paxos.Worker

/-!
# What a machine's own steps change

Two inversion lemmas say once what a step can do, and every invariant is derived from them:
`acts_of_act` for the inputs of the threads and `onReply_cases` for the callbacks of the
replies.
-/

namespace Rolis.Paxos

open List Option

variable {n S : ℕ}

/-- The calls whose rejection makes the sender step down. -/
def Request.isFailover : Request n S → Bool
  | .syncLog _ | .syncCommit .. | .syncNoOps _ => true
  | _ => false

namespace Machine

/-! ## Inputs -/

/-- What each input does: its precondition, the machine after it and the requests it sends. -/
inductive Acts (m : Machine n S) : Input n S → Machine n S → List (Request n S) → Prop
  | electionTimeout : m.monitor = .idle → m.es.curState ≠ .leader →
      Acts m .electionTimeout
        { m with
          es := m.es.setEpoch
          monitor := .voting (m.es.curEpoch + 1) m.nextCall
          log := .campaigned (m.es.curEpoch + 1) :: m.log }
        [.bulkPrepare (m.createBulkPrepare (m.es.curEpoch + 1))]
  | prepareReturns {epoch id : ℕ} {call : Call n S} {yes : Bool} :
      m.monitor = .voting epoch id → m.awaited id = some (call, yes) →
      Acts m .prepareReturns
        { (m.finishCall id call).adoptRejection (if yes then none else call.receivedEpoch) with
          monitor := .woken epoch } []
  | electionLost {epoch : ℕ} : m.monitor = .woken epoch → epoch ≠ m.es.curEpoch →
      Acts m .electionWakes { m with monitor := .idle } []
  | electionWon {epoch : ℕ} : m.monitor = .woken epoch → epoch = m.es.curEpoch →
      Acts m .electionWakes { m with monitor := .elected epoch } []
  | stuffTodoLeaderElection {epoch : ℕ} : m.monitor = .elected epoch →
      Acts m .stuffTodoLeaderElection
        { m with
          es := { m.es with curState := .leader }
          streams := fun i => (m.streams i).lead m.es.curEpoch
          back := m.back.lead m.es.curEpoch
          monitor := .leading m.es.curEpoch
          log := .elected m.es.curEpoch :: m.log } []
  | sendSyncLogs {epoch : ℕ} : m.monitor = .leading epoch →
      Acts m .sendSyncLogs { m with monitor := .syncing epoch m.nextCall }
        [.syncLog (m.createSyncLog epoch)]
  | syncLogYes {epoch id : ℕ} {call : Call n S} :
      m.monitor = .syncing epoch id → m.awaited id = some (call, true) →
      Acts m .syncLogReturns
        { m.finishCall id call with
          monitor := .committing epoch
            (List.range' m.nextCall (m.syncCommits epoch call.responses).length) }
        (m.syncCommits epoch call.responses)
  | syncLogNo {epoch id : ℕ} {call : Call n S} :
      m.monitor = .syncing epoch id → m.awaited id = some (call, false) →
      Acts m .syncLogReturns { m.finishCall id call with monitor := .committing epoch [] } []
  | sendNoOps {epoch : ℕ} {ids : List ℕ} : m.monitor = .committing epoch ids →
      (∀ id ∈ ids, (m.awaited id).isSome) →
      Acts m .sendNoOps { m with monitor := .noOps epoch m.nextCall }
        [.syncNoOps (m.createSyncNoOpLog epoch)]
  | noOpsReturn {epoch id : ℕ} {call : Call n S} {yes : Bool} :
      m.monitor = .noOps epoch id → m.awaited id = some (call, yes) →
      Acts m .noOpsReturn { m.finishCall id call with monitor := .ready epoch 0 } []
  | sendNoOpMark {epoch next : ℕ} (h : next < S) : m.monitor = .ready epoch next →
      Acts m .sendNoOpMark
        { m.addLogToNc ⟨next, h⟩ (noOpMark epoch) with monitor := .ready epoch (next + 1) } []
  | marksDone {epoch next : ℕ} : m.monitor = .ready epoch next →
      Acts m .sendNoOpMark { m with monitor := .idle } []
  | heartbeatTick : m.es.curState ≠ .follower →
      Acts m .heartbeatTick m [.heartbeat ⟨m.es.machineId, m.es.curEpoch⟩]
  | heartbeatReturns {id : ℕ} {call : Call n S} {yes : Bool} {hbLog : HeartBeatLog n} :
      m.awaited id = some (call, yes) → call.req = .heartbeat hbLog →
      Acts m (.heartbeatReturns id)
        ((m.finishCall id call).adoptRejection (if yes then none else call.receivedEpoch)) []
  | addLogToNc (par : Fin S) (log : LogEntry) :
      Acts m (.addLogToNc par log) (m.addLogToNc par log) []
  | bulkSubmit {par : Fin S} {k : ℕ} {job : Job} : (m.streams par).jobs[k]? = some job →
      Acts m (.bulkSubmit par k)
        { m with
          streams := Function.update m.streams par ((m.streams par).takeJob k)
          log := .proposed par job.slot (m.streams par).curEpoch job.cmd job.calledDeposed ::
            m.log }
        [.bulkAccept par ⟨m.es.machineId, [⟨job.slot, (m.streams par).curEpoch, job.cmd⟩]⟩]
  | acceptYes {id : ℕ} {call : Call n S} {par : Fin S} {cmd : BulkPaxosCmd n} :
      m.awaited id = some (call, true) → call.req = .bulkAccept par cmd →
      Acts m (.acceptReturns id)
        { m.finishCall id call with
          streams := Function.update m.streams par { m.streams par with
            nCurrent := (m.streams par).nCurrent + cmd.entries.length }
          log := cmd.entries.map (fun e => .callback par e.slot e.ballot e.cmd) ++ m.log }
        [.bulkDecide par ⟨cmd.leaderId, cmd.entries.map fun e => ⟨e.slot, e.ballot⟩⟩]
  | acceptNo {id : ℕ} {call : Call n S} {par : Fin S} {cmd : BulkPaxosCmd n} :
      m.awaited id = some (call, false) → call.req = .bulkAccept par cmd →
      Acts m (.acceptReturns id) (m.finishCall id call) []
  | crash : Acts m .crash (m.abort .crashed) []

section Inversion

variable {m m' : Machine n S} {reqs : List (Request n S)}

lemma acts_of_electionTimeout (h : m.electionTimeout = some (m', reqs)) :
    Acts m .electionTimeout m' reqs := by
  unfold electionTimeout at h
  split at h
  · next hidle =>
    split at h
    · simp at h
    · next hrole =>
      cases h
      exact .electionTimeout hidle hrole
  · simp at h

lemma acts_of_prepareReturns (h : m.prepareReturns = some (m', reqs)) :
    Acts m .prepareReturns m' reqs := by
  unfold prepareReturns at h
  split at h
  · next epoch id hmon =>
    obtain ⟨⟨call, yes⟩, hcall, heq⟩ := map_eq_some_iff.mp h
    cases heq
    exact .prepareReturns hmon hcall
  · simp at h

lemma acts_of_electionWakes (h : m.electionWakes = some (m', reqs)) :
    Acts m .electionWakes m' reqs := by
  unfold electionWakes at h
  split at h
  · next epoch hmon =>
    cases h
    split
    · next hne => exact .electionLost hmon hne
    · next heq => exact .electionWon hmon (not_not.mp heq)
  · simp at h

lemma acts_of_stuffTodoLeaderElection (h : m.stuffTodoLeaderElection = some (m', reqs)) :
    Acts m .stuffTodoLeaderElection m' reqs := by
  unfold stuffTodoLeaderElection at h
  split at h
  · next epoch hmon =>
    cases h
    exact .stuffTodoLeaderElection hmon
  · simp at h

lemma acts_of_sendSyncLogs (h : m.sendSyncLogs = some (m', reqs)) :
    Acts m .sendSyncLogs m' reqs := by
  unfold sendSyncLogs at h
  split at h
  · next epoch hmon =>
    cases h
    exact .sendSyncLogs hmon
  · simp at h

lemma acts_of_syncLogReturns (h : m.syncLogReturns = some (m', reqs)) :
    Acts m .syncLogReturns m' reqs := by
  unfold syncLogReturns at h
  split at h
  · next epoch id hmon =>
    obtain ⟨⟨call, yes⟩, hcall, heq⟩ := map_eq_some_iff.mp h
    cases heq
    cases yes with
    | true => exact .syncLogYes hmon hcall
    | false => exact .syncLogNo hmon hcall
  · simp at h

lemma acts_of_sendNoOps (h : m.sendNoOps = some (m', reqs)) : Acts m .sendNoOps m' reqs := by
  unfold sendNoOps at h
  split at h
  · next epoch ids hmon =>
    split at h
    · next hall =>
      cases h
      exact .sendNoOps hmon (all_eq_true.mp hall)
    · simp at h
  · simp at h

lemma acts_of_noOpsReturn (h : m.noOpsReturn = some (m', reqs)) : Acts m .noOpsReturn m' reqs := by
  unfold noOpsReturn at h
  split at h
  · next epoch id hmon =>
    obtain ⟨⟨call, yes⟩, hcall, heq⟩ := map_eq_some_iff.mp h
    cases heq
    exact .noOpsReturn hmon hcall
  · simp at h

lemma acts_of_sendNoOpMark (h : m.sendNoOpMark = some (m', reqs)) :
    Acts m .sendNoOpMark m' reqs := by
  unfold sendNoOpMark at h
  split at h
  · next epoch next hmon =>
    split at h
    · next hlt =>
      cases h
      exact .sendNoOpMark hlt hmon
    · cases h
      exact .marksDone hmon
  · simp at h

lemma acts_of_heartbeatTick (h : m.heartbeatTick = some (m', reqs)) :
    Acts m .heartbeatTick m' reqs := by
  unfold heartbeatTick at h
  split at h
  · simp at h
  · next hrole =>
    cases h
    exact .heartbeatTick hrole

lemma acts_of_heartbeatReturns {id : ℕ} (h : m.heartbeatReturns id = some (m', reqs)) :
    Acts m (.heartbeatReturns id) m' reqs := by
  unfold heartbeatReturns at h
  split at h
  · next call yes hcall =>
    split at h
    · next hbLog hreq =>
      cases h
      exact .heartbeatReturns hcall hreq
    · simp at h
  · simp at h

lemma acts_of_bulkSubmit {par : Fin S} {k : ℕ} (h : m.bulkSubmit par k = some (m', reqs)) :
    Acts m (.bulkSubmit par k) m' reqs := by
  unfold bulkSubmit at h
  obtain ⟨job, hjob, heq⟩ := map_eq_some_iff.mp h
  cases heq
  exact .bulkSubmit hjob

lemma acts_of_acceptReturns {id : ℕ} (h : m.acceptReturns id = some (m', reqs)) :
    Acts m (.acceptReturns id) m' reqs := by
  unfold acceptReturns at h
  split at h
  · next call yes hcall =>
    split at h
    · next par cmd hreq =>
      split at h
      · next hyes =>
        cases h
        exact .acceptYes (hyes ▸ hcall) hreq
      · next hno =>
        cases h
        exact .acceptNo ((Bool.not_eq_true _ ▸ hno : yes = false) ▸ hcall) hreq
    · simp at h
  · simp at h

/-- The inversion lemma of `act`. -/
lemma acts_of_act {input : Input n S} (h : m.act input = some (m', reqs)) :
    Acts m input m' reqs := by
  cases input with
  | electionTimeout => exact acts_of_electionTimeout h
  | prepareReturns => exact acts_of_prepareReturns h
  | electionWakes => exact acts_of_electionWakes h
  | stuffTodoLeaderElection => exact acts_of_stuffTodoLeaderElection h
  | sendSyncLogs => exact acts_of_sendSyncLogs h
  | syncLogReturns => exact acts_of_syncLogReturns h
  | sendNoOps => exact acts_of_sendNoOps h
  | noOpsReturn => exact acts_of_noOpsReturn h
  | sendNoOpMark => exact acts_of_sendNoOpMark h
  | heartbeatTick => exact acts_of_heartbeatTick h
  | heartbeatReturns _ => exact acts_of_heartbeatReturns h
  | addLogToNc par log =>
    cases h
    exact .addLogToNc par log
  | bulkSubmit _ _ => exact acts_of_bulkSubmit h
  | acceptReturns _ => exact acts_of_acceptReturns h
  | crash =>
    cases h
    exact .crash

end Inversion

/-! ## Replies -/

/-- What the callback of a reply does. -/
inductive Replied (m : Machine n S) (src : Fin n) (id : ℕ) (rep : Reply S) : Machine n S → Prop
  | ignored : Replied m src id rep m
  | counted {call : Call n S} : m.calls id = some call → src ∈ call.tally.outstanding →
      Replied m src id rep (m.setCall id (call.receive src rep))
  | steppedDown {call : Call n S} : m.calls id = some call → src ∈ call.tally.outstanding →
      rep.valid = false → call.req.isFailover = true →
      Replied m src id rep ((m.setCall id (call.receive src rep)).stepDown rep.ballot)
  | acceptRejected {call : Call n S} : m.calls id = some call →
      src ∈ call.tally.outstanding → rep.valid = false →
      Replied m src id rep ((m.setCall id (call.receive src rep)).abort .acceptRejected)

/-- The inversion lemma of `onReply`. -/
lemma onReply_cases (m : Machine n S) (src : Fin n) (id : ℕ) (rep : Reply S) :
    Replied m src id rep (m.onReply src id rep) := by
  unfold onReply
  split
  · exact .ignored
  · next call hcall =>
    split
    · next hsrc =>
      dsimp only
      split
      · exact .counted hcall hsrc
      · next hvalid =>
        have hvalid : rep.valid = false := by simpa using hvalid
        split
        iterate 3
          · next hreq => exact .steppedDown hcall hsrc hvalid (by rw [hreq]; rfl)
        · split
          · exact .counted hcall hsrc
          · exact .acceptRejected hcall hsrc hvalid
        · exact .counted hcall hsrc
    · exact .ignored

/-! ## Epoch and history -/

section Fields

variable (m : Machine n S) (reqs : List (Request n S)) (id : ℕ) (call : Call n S)
  (val : Option ℕ) (par : Fin S) (log : LogEntry)

@[simp] lemma startCalls_es : (m.startCalls reqs).es = m.es := rfl
@[simp] lemma startCalls_log : (m.startCalls reqs).log = m.log := rfl
@[simp] lemma startCalls_server (par : Fin S) :
    (m.startCalls reqs).server par = m.server par := rfl
@[simp] lemma startCalls_monitor : (m.startCalls reqs).monitor = m.monitor := rfl
@[simp] lemma finishCall_es : (m.finishCall id call).es = m.es := rfl
@[simp] lemma finishCall_streams : (m.finishCall id call).streams = m.streams := rfl

@[simp] lemma adoptRejection_log : (m.adoptRejection val).log = m.log := by
  cases val <;> rfl

@[simp] lemma adoptRejection_streams : (m.adoptRejection val).streams = m.streams := by
  cases val <;> rfl

@[simp] lemma adoptRejection_machineId :
    (m.adoptRejection val).es.machineId = m.es.machineId := by
  cases val <;> rfl

lemma adoptRejection_back : (m.adoptRejection val).back = m.back := by
  cases val <;> rfl

lemma addLogToNc_back : (m.addLogToNc par log).back = m.back := by
  unfold addLogToNc
  split <;> rfl

lemma adoptRejection_monitor : (m.adoptRejection val).monitor = m.monitor := by
  cases val <;> rfl

lemma adoptRejection_curEpoch : (m.adoptRejection val).es.curEpoch = val.getD m.es.curEpoch := by
  cases val <;> rfl

@[simp] lemma addLogToNc_es : (m.addLogToNc par log).es = m.es := by
  unfold addLogToNc
  split <;> rfl

lemma addLogToNc_monitor : (m.addLogToNc par log).monitor = m.monitor := by
  unfold addLogToNc
  split <;> rfl

@[simp] lemma addLogToNc_log : (m.addLogToNc par log).log = m.log := by
  unfold addLogToNc
  split <;> rfl

/-- The workers after a log was added. -/
lemma addLogToNc_streams (i : Fin S) : (m.addLogToNc par log).streams i =
    if i = par ∧ (m.streams par).isLeader = true then
      (m.streams par).submit log (isDeposed m.log)
    else m.streams i := by
  unfold addLogToNc
  split
  · next hl => simp [hl, Function.update_apply]
  · next hl => simp [hl]

end Fields

/-- An epoch below the machine's own does not make it step down. -/
lemma stepDown_of_lt {m : Machine n S} {epoch : ℕ} (h : epoch < m.es.curEpoch) :
    m.stepDown epoch = m :=
  if_pos h

lemma stepDown_machineId (m : Machine n S) (epoch : ℕ) :
    (m.stepDown epoch).es.machineId = m.es.machineId := by
  unfold stepDown
  split <;> rfl

lemma curEpoch_le_stepDown (m : Machine n S) (epoch : ℕ) :
    m.es.curEpoch ≤ (m.stepDown epoch).es.curEpoch := by
  unfold stepDown
  split
  · exact le_refl _
  · next h => exact Nat.le_of_not_lt h

variable {m m' : Machine n S} {src : Fin n} {id : ℕ} {rep : Reply S} {input : Input n S}
  {reqs : List (Request n S)}

/-- No callback lowers the epoch of the election state. -/
lemma Replied.curEpoch_le (h : Replied m src id rep m') : m.es.curEpoch ≤ m'.es.curEpoch := by
  cases h with
  | @steppedDown call _ _ _ _ =>
    exact curEpoch_le_stepDown (m.setCall id (call.receive src rep)) rep.ballot
  | _ => exact le_refl _

lemma Replied.monitor (h : Replied m src id rep m') : m'.monitor = m.monitor := by
  cases h with
  | steppedDown _ _ _ _ =>
    unfold stepDown
    split <;> rfl
  | _ => rfl

lemma Replied.machineId (h : Replied m src id rep m') : m'.es.machineId = m.es.machineId := by
  cases h with
  | steppedDown _ _ _ _ => exact stepDown_machineId _ _
  | _ => rfl

lemma stepDown_log (m : Machine n S) (epoch : ℕ) :
    (m.stepDown epoch).log = m.log ∨ (m.stepDown epoch).log = .deposed :: m.log := by
  unfold stepDown
  split
  · exact .inl rfl
  · exact .inr rfl

/-- A callback records at most that the machine stepped down. -/
lemma Replied.log (h : Replied m src id rep m') : m'.log = m.log ∨ m'.log = .deposed :: m.log := by
  cases h with
  | steppedDown _ _ _ _ => exact stepDown_log _ _
  | _ => exact .inl rfl

/-- A callback fails on a rejected accept only. -/
lemma Replied.aborted (h : Replied m src id rep m') :
    m'.aborted = m.aborted ∨ m'.aborted = some .acceptRejected := by
  cases h with
  | steppedDown _ _ _ _ =>
    left
    unfold stepDown
    split <;> rfl
  | acceptRejected _ _ _ => exact .inr rfl
  | _ => exact .inl rfl

/-- No input fails a `verify`. -/
lemma Acts.aborted (h : Acts m input m' reqs) :
    m'.aborted = m.aborted ∨ m'.aborted = some .crashed := by
  have hadd : ∀ par log, (m.addLogToNc par log).aborted = m.aborted := by
    intro par log
    unfold Machine.addLogToNc
    split <;> rfl
  have hadopt : ∀ id call val, ((m.finishCall id call).adoptRejection val).aborted = m.aborted := by
    intro id call val
    cases val <;> rfl
  cases h with
  | prepareReturns _ _ | heartbeatReturns _ _ => exact .inl (hadopt ..)
  | addLogToNc _ _ | sendNoOpMark _ _ => exact .inl (hadd ..)
  | crash => exact .inr rfl
  | _ => exact .inl rfl

/-- The events an input may record. -/
def InputEvent (m : Machine n S) (input : Input n S) : Event n S → Prop
  | .campaigned epoch => input = .electionTimeout ∧ epoch = m.es.curEpoch + 1
  | .elected epoch => input = .stuffTodoLeaderElection ∧ epoch = m.es.curEpoch
  | .proposed par slot ballot cmd calledDeposed => ∃ k job, input = .bulkSubmit par k ∧
      (m.streams par).jobs[k]? = some job ∧ slot = job.slot ∧
      ballot = (m.streams par).curEpoch ∧ cmd = job.cmd ∧ calledDeposed = job.calledDeposed
  | .callback par slot ballot cmd => ∃ id call bulk, input = .acceptReturns id ∧
      m.awaited id = some (call, true) ∧ call.req = .bulkAccept par bulk ∧
      ⟨slot, ballot, cmd⟩ ∈ bulk.entries
  | _ => False

/-- What an input adds to the history. -/
lemma Acts.log (h : Acts m input m' reqs) :
    ∃ new, m'.log = new ++ m.log ∧ ∀ ev ∈ new, m.InputEvent input ev := by
  cases h with
  | electionTimeout _ _ | stuffTodoLeaderElection _ =>
    exact ⟨[_], rfl, forall_mem_singleton.mpr ⟨rfl, rfl⟩⟩
  | bulkSubmit hjob =>
    exact ⟨[_], rfl, forall_mem_singleton.mpr ⟨_, _, rfl, hjob, rfl, rfl, rfl, rfl⟩⟩
  | acceptYes hcall hreq =>
    refine ⟨_, rfl, fun ev hev => ?_⟩
    obtain ⟨e, he, rfl⟩ := mem_map.mp hev
    exact ⟨_, _, _, rfl, hcall, hreq, he⟩
  | prepareReturns _ _ | heartbeatReturns _ _ => exact ⟨[], adoptRejection_log .., by simp⟩
  | sendNoOpMark _ _ | addLogToNc _ _ => exact ⟨[], addLogToNc_log .., by simp⟩
  | _ => exact ⟨[], rfl, by simp⟩

lemma Acts.machineId (h : Acts m input m' reqs) : m'.es.machineId = m.es.machineId := by
  cases h with
  | prepareReturns _ _ | heartbeatReturns _ _ => exact adoptRejection_machineId ..
  | sendNoOpMark _ _ | addLogToNc _ _ => exact congrArg _ (addLogToNc_es ..)
  | _ => rfl

/-! ## The servers -/

/-- A callback does not touch the servers. -/
lemma Replied.server (h : Replied m src id rep m') (par : Fin S) :
    m'.server par = m.server par := by
  cases h with
  | steppedDown _ _ _ _ =>
    unfold stepDown
    split <;> rfl
  | _ => rfl

/-- An input changes of the servers at most the open slot. -/
lemma Acts.server (h : Acts m input m' reqs) (par : Fin S) :
    ∃ slot, m'.server par = { m.server par with curOpenSlot := slot } := by
  have hadd : ∀ par' log, ∃ slot, ((m.addLogToNc par' log).streams par).sched =
      { m.server par with curOpenSlot := slot } := by
    intro par' log
    rw [addLogToNc_streams]
    split
    · next hp => exact hp.1 ▸ ⟨_, rfl⟩
    · exact ⟨_, rfl⟩
  cases h with
  | stuffTodoLeaderElection _ => exact ⟨_, rfl⟩
  | addLogToNc par' log => exact hadd par' log
  | sendNoOpMark _ _ => exact hadd _ _
  | @bulkSubmit par' k _ _ =>
    refine ⟨(m.server par).curOpenSlot, ?_⟩
    simp only [Machine.server, Function.update_apply]
    split
    · next hp => rw [hp]; rfl
    · rfl
  | @acceptYes _ _ par' _ _ _ =>
    refine ⟨(m.server par).curOpenSlot, ?_⟩
    simp only [Machine.server, Function.update_apply]
    split
    · next hp => rw [hp]
    · rfl
  | prepareReturns _ _ | heartbeatReturns _ _ =>
    refine ⟨(m.server par).curOpenSlot, ?_⟩
    simp only [Machine.server, adoptRejection_streams, finishCall_streams]
  | _ => exact ⟨(m.server par).curOpenSlot, rfl⟩

/-- The epoch of the election channel's server is never written. -/
lemma Acts.back_curEpoch (h : Acts m input m' reqs) :
    m'.back.sched.curEpoch = m.back.sched.curEpoch := by
  cases h with
  | prepareReturns _ _ | heartbeatReturns _ _ => rw [adoptRejection_back]; rfl
  | sendNoOpMark _ _ | addLogToNc _ _ => rw [addLogToNc_back]
  | _ => rfl

end Machine

end Rolis.Paxos
