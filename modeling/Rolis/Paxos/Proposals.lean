import Rolis.Paxos.NoOps
import Rolis.Paxos.Threads
import Rolis.Paxos.Votes

/-!
# One proposal for a slot and a ballot

`get_open_slot` hands out the slots of a stream one by one, but two other places write the
counter without looking at it: `stuff_todo_leader_election` and `OnSyncNoOps` set it to
`max_committed_slot_ + 1`. The leader also sends `OnSyncNoOps` to itself, and may handle it after
it began to submit. The counter then falls back to a slot it has already proposed in.

`SafeReset` is the condition that no reset takes the counter back below a slot that is still in
use. In the runs that meet it, no machine proposes two commands for one slot and ballot
(`proposal_unique`), unless a slot is taken between the two halves of such a reset:
`stuff_todo_leader_election` marks a worker as leader before it resets its counter.
-/

namespace Rolis.Paxos

open List

variable {n S : ℕ}

/-- How the slots of one stream are in use: `log` is the history and `epoch` the epoch of the
machine, `w` the worker of stream `par`. -/
structure SlotsInUse (par : Fin S) (log : List (Event n S)) (epoch : ℕ) (w : PaxosWorker n) :
    Prop where
  epoch_le : w.curEpoch ≤ epoch
  jobs_lt : ∀ job ∈ w.jobs, job.slot < w.sched.curOpenSlot
  jobs_nodup : (w.jobs.map Job.slot).Nodup
  ballot_le : ∀ slot ballot cmd called, .proposed par slot ballot cmd called ∈ log →
    ballot ≤ w.curEpoch
  current : ∀ slot cmd called, .proposed par slot w.curEpoch cmd called ∈ log →
    slot < w.sched.curOpenSlot ∧ slot ∉ w.jobs.map Job.slot
  unique : ∀ slot ballot cmd cmd' called called', .proposed par slot ballot cmd called ∈ log →
    .proposed par slot ballot cmd' called' ∈ log → cmd = cmd'

namespace SlotsInUse

variable {par : Fin S} {log log' : List (Event n S)} {epoch epoch' : ℕ} {w w' : PaxosWorker n}

section

variable (h : SlotsInUse par log epoch w)

include h

/-- The epoch and the counter move: the counter does not go back, or the epoch goes up and the
jobs stay below the counter. -/
lemma advance (hlog : ∀ slot ballot cmd called, .proposed par slot ballot cmd called ∈ log' →
      .proposed par slot ballot cmd called ∈ log) (hle : w'.curEpoch ≤ epoch')
    (hcur : w.curEpoch ≤ w'.curEpoch) (hjobs : w'.jobs = w.jobs)
    (hopen : w.sched.curOpenSlot ≤ w'.sched.curOpenSlot ∨
      (w.curEpoch < w'.curEpoch ∧ ∀ job ∈ w.jobs, job.slot < w'.sched.curOpenSlot)) :
    SlotsInUse par log' epoch' w' where
  epoch_le := hle
  jobs_lt job hj := by
    rw [hjobs] at hj
    rcases hopen with hopen | ⟨-, hlt⟩
    · exact (h.jobs_lt job hj).trans_le hopen
    · exact hlt job hj
  jobs_nodup := hjobs ▸ h.jobs_nodup
  ballot_le slot ballot cmd called hp :=
    (h.ballot_le slot ballot cmd called (hlog _ _ _ _ hp)).trans hcur
  current slot cmd called hp := by
    have hold := hlog _ _ _ _ hp
    have hb := h.ballot_le _ _ _ _ hold
    have heq : w'.curEpoch = w.curEpoch := le_antisymm hb hcur
    rw [heq] at hold
    obtain ⟨hlt, hjob⟩ := h.current slot cmd called hold
    rw [hjobs]
    rcases hopen with hopen | ⟨hraised, -⟩
    · exact ⟨hlt.trans_le hopen, hjob⟩
    · omega
  unique slot ballot cmd cmd' called called' hp hp' :=
    h.unique slot ballot cmd cmd' called called' (hlog _ _ _ _ hp) (hlog _ _ _ _ hp')

/-- A new log takes a slot that no job and no proposal of this ballot uses. -/
lemma submit (cmd : LogEntry) (called : Bool) : SlotsInUse par log epoch (w.submit cmd called) where
  epoch_le := h.epoch_le
  jobs_lt job hj := by
    simp only [PaxosWorker.submit, mem_append, mem_singleton] at hj ⊢
    rcases hj with hj | rfl
    · exact (h.jobs_lt job hj).trans (Nat.lt_succ_self _)
    · exact Nat.lt_succ_self _
  jobs_nodup := by
    simp only [PaxosWorker.submit, map_append, map_cons, map_nil]
    refine nodup_append.mpr ⟨h.jobs_nodup, nodup_singleton _, ?_⟩
    rintro slot hs slot' hs' rfl
    obtain ⟨job, hj, rfl⟩ := mem_map.mp hs
    exact absurd (mem_singleton.mp hs') (h.jobs_lt job hj).ne
  ballot_le := h.ballot_le
  current slot cmd' called' hp := by
    obtain ⟨hlt, hjob⟩ := h.current slot cmd' called' hp
    simp only [PaxosWorker.submit, map_append, map_cons, map_nil, mem_append, mem_singleton, not_or]
    exact ⟨hlt.trans (Nat.lt_succ_self _), hjob, hlt.ne⟩
  unique := h.unique

/-- A job becomes the first proposal for its slot in the current ballot. -/
lemma takeJob {k : ℕ} {job : Job} (hjob : w.jobs[k]? = some job) :
    SlotsInUse par (.proposed par job.slot w.curEpoch job.cmd job.calledDeposed :: log) epoch
      (w.takeJob k) := by
  have hmem : job ∈ w.jobs := List.mem_of_getElem? hjob
  have hfresh : ∀ cmd called, .proposed par job.slot w.curEpoch cmd called ∉ log :=
    fun cmd called hp => (h.current _ _ _ hp).2 (List.mem_map_of_mem hmem)
  -- the slot of the job leaves the queue with it
  have hgone : job.slot ∉ (w.jobs.eraseIdx k).map Job.slot := by
    obtain ⟨hk, rfl⟩ := List.getElem?_eq_some_iff.mp hjob
    have hk' : k < (w.jobs.map Job.slot).length := by simpa using hk
    rw [← List.eraseIdx_map, ← h.jobs_nodup.erase_getElem k hk', List.getElem_map]
    exact h.jobs_nodup.not_mem_erase
  refine ⟨h.epoch_le, fun j hj => h.jobs_lt j (List.mem_of_mem_eraseIdx hj), ?_, ?_, ?_, ?_⟩
  · simp only [PaxosWorker.takeJob, ← List.eraseIdx_map]
    exact h.jobs_nodup.eraseIdx k
  · intro slot ballot cmd called hp
    rcases List.mem_cons.mp hp with heq | hp
    · obtain ⟨-, rfl, rfl, rfl, rfl⟩ := Event.proposed.inj heq
      exact le_refl _
    · exact h.ballot_le _ _ _ _ hp
  · intro slot cmd called hp
    rcases List.mem_cons.mp hp with heq | hp
    · obtain ⟨-, rfl, -, rfl, rfl⟩ := Event.proposed.inj heq
      exact ⟨h.jobs_lt job hmem, hgone⟩
    · obtain ⟨hlt, hout⟩ := h.current slot cmd called hp
      refine ⟨hlt, fun hin => hout ?_⟩
      obtain ⟨j, hj, rfl⟩ := List.mem_map.mp hin
      exact List.mem_map_of_mem (List.mem_of_mem_eraseIdx hj)
  · intro slot ballot cmd cmd' called called' hp hp'
    rcases List.mem_cons.mp hp with heq | hp <;> rcases List.mem_cons.mp hp' with heq' | hp'
    · obtain ⟨-, rfl, rfl, rfl, rfl⟩ := Event.proposed.inj heq
      obtain ⟨-, -, -, rfl, -⟩ := Event.proposed.inj heq'
      rfl
    · obtain ⟨-, rfl, rfl, rfl, rfl⟩ := Event.proposed.inj heq
      exact absurd hp' (hfresh _ _)
    · obtain ⟨-, rfl, rfl, rfl, rfl⟩ := Event.proposed.inj heq'
      exact absurd hp (hfresh _ _)
    · exact h.unique slot ballot cmd cmd' called called' hp hp'

/-- Other streams' proposals do not matter. -/
lemma cons_of_ne {ev : Event n S}
    (hev : ∀ slot ballot cmd called, ev ≠ .proposed par slot ballot cmd called) :
    SlotsInUse par (ev :: log) epoch w :=
  h.advance (fun _ _ _ _ hp => mem_of_ne_of_mem (hev _ _ _ _).symm hp)
    h.epoch_le (le_refl _) rfl (.inl (le_refl _))

end

end SlotsInUse

namespace Machine

/-- The reset of `OnSyncNoOps` does not take a counter back. -/
def NoOpsKeepOpen (m : Machine n S) : Request n S → Prop
  | .syncNoOps _ => ∀ par, (m.server par).curOpenSlot ≤ (m.server par).maxCommittedSlot + 1
  | _ => True

instance (m : Machine n S) : DecidablePred m.NoOpsKeepOpen
  | .syncNoOps _ => inferInstanceAs (Decidable (∀ _, _))
  | .bulkPrepare _ | .heartbeat _ | .syncLog _ | .syncCommit _ _ | .bulkAccept _ _ |
    .bulkDecide _ _ => isTrue trivial

/-- The reset of `stuff_todo_leader_election` does not take a counter back, or the stream gets a
new epoch and no job waits above `max_committed_slot_`. -/
def SafeReset (m : Machine n S) (input : Input n S) : Prop :=
  input = .stuffTodoLeaderElection → ∀ par,
    (m.server par).curOpenSlot ≤ (m.server par).maxCommittedSlot + 1 ∨
      ((m.streams par).curEpoch < m.es.curEpoch ∧
        ∀ job ∈ (m.streams par).jobs, job.slot ≤ (m.server par).maxCommittedSlot)

instance (m : Machine n S) (input : Input n S) : Decidable (m.SafeReset input) :=
  inferInstanceAs (Decidable (input = .stuffTodoLeaderElection → _))

/-- The slots of every stream are in proper use. -/
def Proposals (m : Machine n S) : Prop :=
  ∀ par, SlotsInUse par m.log m.es.curEpoch (m.streams par)

namespace Proposals

variable {m m' : Machine n S} {req : Request n S} {input : Input n S} {reqs : List (Request n S)}

lemma init (i : Fin n) : Proposals (Machine.init i : Machine n S) := by
  unfold Machine.init
  split <;> exact fun _ => ⟨le_refl _, by simp, by simp, by simp, by simp, by simp⟩

/-- No handler takes a counter back under the condition on `OnSyncNoOps`. -/
lemma curOpenSlot_le_handle (halive : m.aborted = none) (hno : m.NoOpsKeepOpen req)
    (par : Fin S) : (m.server par).curOpenSlot ≤ ((m.handle req).1.server par).curOpenSlot := by
  -- for `OnSyncNoOps` the counter has to stay below the committed slots
  refine (forall_server_handle (Q := fun j ps => (m.server j).curOpenSlot ≤ ps.curOpenSlot ∧
    ((∃ r, req = .syncNoOps r) → (m.server j).curOpenSlot ≤ ps.maxCommittedSlot + 1))
    (fun j => ?_) halive ?_ ?_ ?_ par).1
  · refine ⟨⟨fun _ _ _ _ h => h, fun _ _ _ h => h, fun ps h => by simpa using h⟩,
      fun _ _ h => h, fun ps slot _ _ h => ?_⟩
    exact ⟨h.1, fun hr => (h.2 hr).trans (Nat.succ_le_succ (le_max_left _ _))⟩
  · rintro r rfl j ps ⟨hopen, hcommitted⟩
    have hcommitted := hcommitted ⟨r, rfl⟩
    obtain ⟨hmax, hcur | hcur⟩ := ps.syncNoOps_curOpenSlot (r.syncSlots j) r.epoch
    · exact ⟨hcur ▸ hopen, fun _ => hmax ▸ hcommitted⟩
    · exact ⟨hcur ▸ hcommitted, fun _ => hmax ▸ hcommitted⟩
  · rintro par' cmd rfl e _ ps ⟨hopen, -⟩ _ _
    exact ⟨hopen, fun ⟨_, hr⟩ => by cases hr⟩
  · intro j
    refine ⟨le_refl _, ?_⟩
    rintro ⟨r, rfl⟩
    exact hno j

section

variable (h : Proposals m)

include h

lemma handle (halive : m.aborted = none) (hno : m.NoOpsKeepOpen req) :
    Proposals (m.handle req).1 := by
  intro par
  obtain ⟨new, hlog, hev⟩ := m.handle_log req halive
  have hopen := curOpenSlot_le_handle halive hno par
  rw [(m.handle_sameSender req halive).worker par]
  refine (h par).advance ?_ ((h par).epoch_le.trans (m.curEpoch_le_handle req halive)) (le_refl _)
    rfl (.inl hopen)
  intro slot ballot cmd called hp
  rw [hlog, mem_append] at hp
  exact hp.resolve_left (hev _)

lemma stepDown (epoch : ℕ) : Proposals (m.stepDown epoch) := by
  unfold Machine.stepDown
  split
  · exact h
  · next hge =>
    intro par
    have hcur := (h par).epoch_le
    refine ((h par).cons_of_ne (by simp)).advance (fun _ _ _ _ => id) (le_refl _) ?_ rfl
      (.inl (le_refl _))
    exact hcur.trans (Nat.le_of_not_lt hge)

lemma replied {src : Fin n} {id : ℕ} {rep : Reply S} (hrep : Replied m src id rep m') :
    Proposals m' := by
  cases hrep with
  | @steppedDown call _ _ _ _ =>
    exact stepDown (m := m.setCall id (call.receive src rep)) h rep.ballot
  | _ => exact h

lemma lead (hreset : m.SafeReset .stuffTodoLeaderElection) (par : Fin S) :
    SlotsInUse par (.elected m.es.curEpoch :: m.log) m.es.curEpoch
      ((m.streams par).lead m.es.curEpoch) := by
  refine ((h par).cons_of_ne (by simp)).advance (fun _ _ _ _ => id) (le_refl _) (h par).epoch_le
    rfl ?_
  rcases hreset rfl par with hopen | ⟨hraised, hjobs⟩
  · exact .inl hopen
  · exact .inr ⟨hraised, fun job hj => Nat.lt_succ_of_le (hjobs job hj)⟩

lemma addLogToNc (par : Fin S) (log : LogEntry) : Proposals (m.addLogToNc par log) := by
  intro par'
  rw [addLogToNc_log, addLogToNc_es, addLogToNc_streams]
  split
  · next hp =>
    rw [hp.1]
    exact (h par).submit _ _
  · exact h par'

/-- The inputs that leave the workers' epochs, jobs and counters alone. -/
lemma of_input (hacts : Acts m input m' reqs) (hkeeps : m.KeepsEpoch input)
    (hinput : ∀ par k, input ≠ .bulkSubmit par k)
    (hsame : ∀ par, (m'.streams par).curEpoch = (m.streams par).curEpoch ∧
      (m'.streams par).jobs = (m.streams par).jobs ∧
      (m'.streams par).sched = (m.streams par).sched) : Proposals m' := by
  intro par
  obtain ⟨new, hlog, hev⟩ := hacts.log
  obtain ⟨hcur, hjobs, hsched⟩ := hsame par
  refine (h par).advance ?_ ?_ hcur.ge hjobs (.inl (by rw [hsched]))
  · intro slot ballot cmd called hp
    rw [hlog, mem_append] at hp
    refine hp.resolve_left fun hin => ?_
    obtain ⟨k, _, hin, -⟩ := hev _ hin
    exact hinput par k hin
  · rw [hcur]
    exact (h par).epoch_le.trans (hacts.curEpoch_le hkeeps)

lemma acts (hacts : Acts m input m' reqs) (hkeeps : m.KeepsEpoch input)
    (hreset : m.SafeReset input) : Proposals m' := by
  have hacts' := hacts
  cases hacts with
  | stuffTodoLeaderElection _ => exact h.lead hreset
  | addLogToNc par log => exact h.addLogToNc par log
  | sendNoOpMark _ _ => exact h.addLogToNc _ _
  | @bulkSubmit par k job hjob =>
    intro par'
    dsimp only
    rw [Function.update_apply]
    split
    · next hp =>
      subst hp
      exact (h par').takeJob hjob
    · next hp =>
      refine (h par').cons_of_ne fun _ _ _ _ heq => hp ?_
      exact (Event.proposed.inj heq).1.symm
  | prepareReturns _ _ | heartbeatReturns _ _ =>
    refine h.of_input hacts' hkeeps (by simp) fun par => ?_
    simp only [adoptRejection_streams, finishCall_streams, and_self]
  | @acceptYes _ _ par _ _ _ =>
    refine h.of_input hacts' hkeeps (by simp) fun par' => ?_
    by_cases hp : par' = par
    · subst hp
      simp
    · simp [Function.update_of_ne hp]
  | _ => exact h.of_input hacts' hkeeps (by simp) fun _ => ⟨rfl, rfl, rfl⟩

end

end Proposals

end Machine

namespace Cluster

/-- No epoch goes back, and no reset takes an open slot back that is still in use. -/
def safeResets : Cluster n S → Action n S → Prop :=
  guard (fun c i req => (c.machines i).NoOpsKeepOpen req) (fun _ _ _ _ => True)
    fun c i input => (c.machines i).KeepsEpoch input ∧ (c.machines i).SafeReset input

instance (c : Cluster n S) (a : Action n S) : Decidable (safeResets c a) :=
  inferInstanceAs (Decidable (guard _ _ _ c a))

lemma proposals_of_run {c : Cluster n S} (h : Lts.Run system safeResets init c) (i : Fin n) :
    (c.machines i).Proposals := by
  refine invariant_of_local (fun _ m => m.Proposals) ?_ ?_ ?_ h Machine.Proposals.init i
  · exact fun d i req hd halive hno => hd.handle halive hno
  · exact fun d i src id rep m hd _ _ hrep => hd.replied hrep
  · exact fun d i input m reqs hd _ hA hacts par => hd.acts hacts hA.1 hA.2 par

end Cluster

namespace Threads

open Cluster (safeResets)

/-- In every run in which nothing is begun on a machine that is inside a handler or inside
`stuff_todo_leader_election`, and no epoch and no open slot in use is taken back, a machine never
sends two different commands for one stream, slot and ballot. -/
theorem proposal_unique {s : Threads n S} (h : Lts.Run system (serial safeResets) init s)
    {i : Fin n} (hi : i ∉ s.busy) (par : Fin S) (slot ballot : ℕ) (cmd cmd' : LogEntry)
    (called called' : Bool) (hp : .proposed par slot ballot cmd called ∈ (s.machines i).log)
    (hp' : .proposed par slot ballot cmd' called' ∈ (s.machines i).log) : cmd = cmd' := by
  rw [← settled_of_notMem hi] at hp hp'
  exact (Cluster.proposals_of_run (run_settled h nodup_nil).2 i par).unique slot ballot cmd cmd'
    called called' hp hp'

/-- Machine 0 proposes two logs in epoch 2, in slots 1 and 2. -/
theorem proposal_unique_start : ∃ s : Threads 3 1, Lts.Run system (serial safeResets) init s ∧
    0 ∉ s.busy ∧ .proposed 0 1 2 ⟨[7]⟩ false ∈ (s.machines 0).log ∧
    .proposed 0 2 2 ⟨[8]⟩ false ∈ (s.machines 0).log ∧
    ∀ cmd called, .proposed 0 1 2 cmd called ∈ (s.machines 0).log → cmd = ⟨[7]⟩ := by
  obtain ⟨c, hrun, hp, hp'⟩ := Lts.exists_run_of_execGuarded
    (Cluster.system : Lts.System (Cluster 3 1) _) safeResets Cluster.init
    [.act 0 (.addLogToNc 0 ⟨[7]⟩), .act 0 (.addLogToNc 0 ⟨[8]⟩), .act 0 (.bulkSubmit 0 1),
      .act 0 (.bulkSubmit 0 0)]
    (fun c => .proposed 0 1 2 ⟨[7]⟩ false ∈ (c.machines 0).log ∧
      .proposed 0 2 2 ⟨[8]⟩ false ∈ (c.machines 0).log) (by decide +kernel)
  have hidle := notMem_busy_ofCluster c 0
  exact ⟨ofCluster c, run_ofCluster hrun, hidle, hp, hp', fun cmd called h =>
    proposal_unique (run_ofCluster hrun) hidle 0 1 2 cmd ⟨[7]⟩ called false h hp⟩

/-- Machine 1 becomes leader of epoch 1 and proposes its mark in slot 1 before it handles its own
`OnSyncNoOps`. That sets the open slot back to 1, and the next log is proposed in slot 1 with the
same ballot. -/
theorem proposal_clash : ∃ s : Threads 3 1, Lts.Reachable system s ∧
    .proposed 0 1 1 (Machine.noOpMark 1) false ∈ (s.machines 1).log ∧
    .proposed 0 1 1 ⟨[7]⟩ false ∈ (s.machines 1).log := by
  obtain ⟨c, hreach, hc⟩ := Lts.exists_reachable_of_exec
    (Cluster.system : Lts.System (Cluster 3 1) _)
    [.act 1 .electionTimeout, .deliver 1, .deliver 1, .deliver 1, .deliver 1,
      .act 1 .prepareReturns, .act 1 .electionWakes, .act 1 .stuffTodoLeaderElection,
      -- `SyncLog` is answered by machines 1 and 2, `SyncNoOps` by machines 0 and 2
      .act 1 .sendSyncLogs, .deliver 2, .deliver 2, .deliver 2, .deliver 2,
      .act 1 .syncLogReturns, .act 1 .sendNoOps, .deliver 2, .deliver 3, .deliver 3, .deliver 3,
      .act 1 .noOpsReturn, .act 1 .sendNoOpMark, .act 1 (.bulkSubmit 0 0),
      -- its own `SyncNoOps` arrives
      .deliver 2, .act 1 (.addLogToNc 0 ⟨[7]⟩), .act 1 (.bulkSubmit 0 0)]
    (fun c => .proposed 0 1 1 (Machine.noOpMark 1) false ∈ (c.machines 1).log ∧
      .proposed 0 1 1 ⟨[7]⟩ false ∈ (c.machines 1).log) (by decide +kernel)
  exact ⟨ofCluster c, reachable_ofCluster hreach, hc⟩

end Threads

end Rolis.Paxos
