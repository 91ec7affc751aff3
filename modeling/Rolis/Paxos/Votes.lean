import Rolis.Paxos.ClusterTheorems

/-!
# Votes

`OnBulkPrepare` compares with `ElectionState::cur_epoch`, and nothing else records a vote. So a
machine votes once in an epoch as long as its `cur_epoch` never goes back. Four of the five
paths that write it compare or increment. The fifth does not: the jobs of `send_bulk_prep` and
`heartbeatMonitor` store the epoch of a rejection with `set_epoch(val)`, and the assertion there
compares `val` with what has just been stored. `KeepsEpoch` is the condition that this store is
no step back.

In the runs that meet it, `cur_epoch` is monotone and votes are unique (`epoch_mono_vote_unique`);
without it a delayed rejection makes a machine vote twice in one epoch (`epoch_back_vote_twice`).
-/

namespace Rolis.Paxos

open List

variable {n S : ℕ} {m m' : Machine n S} {c c' : Cluster n S} {input : Input n S}
  {reqs : List (Request n S)} {i : Fin n}

namespace Machine

/-- The epochs that came back with a rejected call are not below the epoch of the machine. -/
def RejectionNotBelow (m : Machine n S) (id : ℕ) : Prop :=
  ∀ p ∈ m.awaited id, p.2 = false → ∀ epoch ∈ p.1.receivedEpoch, m.es.curEpoch ≤ epoch

instance (m : Machine n S) (id : ℕ) : Decidable (m.RejectionNotBelow id) :=
  inferInstanceAs (Decidable (∀ p ∈ m.awaited id, _))

/-- The call whose outcome the input stores with `set_epoch`. -/
def storedCall (m : Machine n S) : Input n S → Option ℕ
  | .prepareReturns =>
    match m.monitor with
    | .voting _ id => some id
    | _ => none
  | .heartbeatReturns id => some id
  | _ => none

/-- When a prepare or a heartbeat comes back rejected, the epoch it brings is not below the epoch
the machine has by then. -/
def KeepsEpoch (m : Machine n S) (input : Input n S) : Prop :=
  ∀ id ∈ m.storedCall input, m.RejectionNotBelow id

instance (m : Machine n S) (input : Input n S) : Decidable (m.KeepsEpoch input) :=
  inferInstanceAs (Decidable (∀ id ∈ m.storedCall input, _))

lemma curEpoch_le_adoptRejection {id : ℕ} {call : Call n S} {yes : Bool}
    (hcall : m.awaited id = some (call, yes)) (h : m.RejectionNotBelow id) :
    m.es.curEpoch ≤ ((m.finishCall id call).adoptRejection
      (if yes then none else call.receivedEpoch)).es.curEpoch := by
  rw [adoptRejection_curEpoch, finishCall_es]
  cases yes with
  | true => exact le_refl _
  | false =>
    have hle := h _ hcall rfl
    cases hrec : call.receivedEpoch with
    | none => exact le_refl _
    | some epoch => exact hle epoch hrec

/-- No input lowers the epoch of the election state under `KeepsEpoch`. -/
lemma Acts.curEpoch_le (h : Acts m input m' reqs) (hkeeps : m.KeepsEpoch input) :
    m.es.curEpoch ≤ m'.es.curEpoch := by
  cases h with
  | electionTimeout _ _ => exact Nat.le_succ _
  | prepareReturns hmon hcall =>
    exact curEpoch_le_adoptRejection hcall (hkeeps _ (by simp [storedCall, hmon]))
  | heartbeatReturns hcall _ => exact curEpoch_le_adoptRejection hcall (hkeeps _ rfl)
  | sendNoOpMark _ _ | addLogToNc _ _ => exact (congrArg _ (addLogToNc_es ..)).ge
  | _ => exact le_refl _

/-- A prepare is sent by a candidate, in its own name and for its new epoch. -/
lemma Acts.prepare_of_mem (h : Acts m input m' reqs) (hid : m.es.machineId = i)
    {bpLog : BulkPrepareLog n S} (hmem : .bulkPrepare bpLog ∈ reqs) :
    bpLog.leaderId = i ∧ .campaigned bpLog.epoch ∈ m'.log := by
  cases h with
  | electionTimeout _ _ =>
    obtain rfl := Request.bulkPrepare.inj (mem_singleton.mp hmem)
    exact ⟨hid, mem_cons_self⟩
  | syncLogYes _ _ =>
    obtain ⟨j, -, heq⟩ := mem_map.mp hmem
    cases heq
  | _ => simp at hmem

/-! ## The votes of one machine -/

/-- The votes and candidacies in the history of machine `i` agree with its epoch. -/
structure Ballots (i : Fin n) (m : Machine n S) : Prop where
  machineId : m.es.machineId = i
  voted_le : ∀ epoch leader, .voted epoch leader ∈ m.log → epoch ≤ m.es.curEpoch
  campaigned_le : ∀ epoch, .campaigned epoch ∈ m.log → epoch ≤ m.es.curEpoch
  own : ∀ epoch leader, .campaigned epoch ∈ m.log → .voted epoch leader ∈ m.log → leader = i
  unique : ∀ epoch leader leader', .voted epoch leader ∈ m.log →
    .voted epoch leader' ∈ m.log → leader = leader'

namespace Ballots

lemma init (i : Fin n) : Ballots i (Machine.init i : Machine n S) := by
  unfold Machine.init
  split <;> exact ⟨rfl, by simp, by simp, by simp, by simp⟩

section

variable (h : Ballots i m)

include h

/-- A step that records no vote and no candidacy. -/
lemma of_log (hid : m'.es.machineId = m.es.machineId) (hle : m.es.curEpoch ≤ m'.es.curEpoch)
    (hvoted : ∀ epoch leader, .voted epoch leader ∈ m'.log → .voted epoch leader ∈ m.log)
    (hcamp : ∀ epoch, .campaigned epoch ∈ m'.log → .campaigned epoch ∈ m.log) : Ballots i m' where
  machineId := hid.trans h.machineId
  voted_le e l hv := (h.voted_le e l (hvoted e l hv)).trans hle
  campaigned_le e hc := (h.campaigned_le e (hcamp e hc)).trans hle
  own e l hc hv := h.own e l (hcamp e hc) (hvoted e l hv)
  unique e l l' hv hv' := h.unique e l l' (hvoted e l hv) (hvoted e l' hv')

/-- A request keeps the votes in order, if the machine's own prepares come from candidacies. -/
lemma handle {req : Request n S} (halive : m.aborted = none)
    (hown : ∀ bpLog, req = .bulkPrepare bpLog → bpLog.leaderId = i →
      .campaigned bpLog.epoch ∈ m.log) : Ballots i (m.handle req).1 := by
  obtain ⟨new, hlog, hnew⟩ := m.handle_log req halive
  have hle := m.curEpoch_le_handle req halive
  -- a vote is an old one or the granted prepare
  have hvoted : ∀ e l, .voted e l ∈ (m.handle req).1.log → .voted e l ∈ m.log ∨
      m.HandlerEvent req (.voted e l) := by
    intro e l hv
    rw [hlog, mem_append] at hv
    exact hv.symm.imp_right (hnew _)
  have hcamp : ∀ e, .campaigned e ∈ (m.handle req).1.log → .campaigned e ∈ m.log := by
    intro e hc
    rw [hlog, mem_append] at hc
    exact hc.resolve_left (hnew _)
  -- an old vote in the epoch of the granted prepare was for the same leader
  have hagree : ∀ e l l', .voted e l ∈ m.log → m.HandlerEvent req (.voted e l') → l = l' := by
    rintro e l l' hv ⟨bpLog, hreq, rfl, rfl, hgrant, -⟩
    have hve := h.voted_le _ _ hv
    rcases hgrant with hlt | ⟨-, hself⟩
    · omega
    · rw [h.machineId] at hself
      rw [hself]
      exact h.own _ _ (hown bpLog hreq hself) hv
  refine ⟨(m.handle_sameSender req halive).machineId.trans h.machineId, ?_, ?_, ?_, ?_⟩
  · intro e l hv
    rcases hvoted e l hv with hold | ⟨_, _, _, _, _, hepoch⟩
    · exact (h.voted_le e l hold).trans hle
    · exact hepoch.ge
  · exact fun e hc => (h.campaigned_le e (hcamp e hc)).trans hle
  · intro e l hc hv
    have hce := h.campaigned_le e (hcamp e hc)
    rcases hvoted e l hv with hold | ⟨bpLog, -, rfl, rfl, hgrant, -⟩
    · exact h.own e l (hcamp e hc) hold
    · rcases hgrant with hlt | ⟨-, hself⟩
      · omega
      · exact hself.trans h.machineId
  · intro e l l' hv hv'
    rcases hvoted e l hv with hold | hnew <;> rcases hvoted e l' hv' with hold' | hnew'
    · exact h.unique e l l' hold hold'
    · exact hagree e l l' hold hnew'
    · exact (hagree e l' l hold' hnew).symm
    · obtain ⟨bpLog, rfl, -, rfl, -, -⟩ := hnew
      obtain ⟨bpLog', heq, -, rfl, -, -⟩ := hnew'
      rw [Request.bulkPrepare.inj heq]

lemma replied {src : Fin n} {id : ℕ} {rep : Reply S} (hrep : Replied m src id rep m') :
    Ballots i m' := by
  refine h.of_log hrep.machineId hrep.curEpoch_le ?_ ?_ <;>
    rcases hrep.log with hlog | hlog <;> simp [hlog]

lemma acts (hacts : Acts m input m' reqs) (hkeeps : m.KeepsEpoch input) : Ballots i m' := by
  obtain ⟨new, hlog, hnew⟩ := hacts.log
  have hle := hacts.curEpoch_le hkeeps
  have hvoted : ∀ e l, .voted e l ∈ m'.log → .voted e l ∈ m.log := by
    intro e l hv
    rw [hlog, mem_append] at hv
    exact hv.resolve_left (hnew _)
  -- a new candidacy is for an epoch above every vote
  have hcamp : ∀ e, .campaigned e ∈ m'.log → .campaigned e ∈ m.log ∨
      (e = m.es.curEpoch + 1 ∧ m'.es.curEpoch = e) := by
    intro e hc
    rw [hlog, mem_append] at hc
    refine hc.symm.imp_right fun hc => ?_
    obtain ⟨rfl, rfl⟩ := hnew _ hc
    cases hacts
    exact ⟨rfl, rfl⟩
  refine ⟨hacts.machineId.trans h.machineId, ?_, ?_, ?_, ?_⟩
  · exact fun e l hv => (h.voted_le e l (hvoted e l hv)).trans hle
  · intro e hc
    rcases hcamp e hc with hold | hnew
    · exact (h.campaigned_le e hold).trans hle
    · exact hnew.2.ge
  · intro e l hc hv
    have hve := h.voted_le e l (hvoted e l hv)
    rcases hcamp e hc with hold | hnew
    · exact h.own e l hold (hvoted e l hv)
    · omega
  · exact fun e l l' hv hv' => h.unique e l l' (hvoted e l hv) (hvoted e l' hv')

lemma startCalls : Ballots i (m.startCalls reqs) :=
  ⟨h.machineId, h.voted_le, h.campaigned_le, h.own, h.unique⟩

end

end Ballots

end Machine

/-! ## Votes in the cluster -/

namespace Cluster

/-- No machine stores an epoch below its own. -/
def keepsEpochs : Cluster n S → Action n S → Prop :=
  guard (fun _ _ _ => True) (fun _ _ _ _ => True) fun c i input => (c.machines i).KeepsEpoch input

instance (c : Cluster n S) (a : Action n S) : Decidable (keepsEpochs c a) :=
  inferInstanceAs (Decidable (guard _ _ _ c a))

/-- Every machine's votes are in order, and a prepare under way comes from a candidacy. -/
structure VoteInv (c : Cluster n S) : Prop where
  ballots : ∀ i, (c.machines i).Ballots i
  prepare : ∀ src dst id bpLog, .request src dst id (.bulkPrepare bpLog) ∈ c.net →
    .campaigned bpLog.epoch ∈ (c.machines bpLog.leaderId).log

lemma voteInv_init : VoteInv (init : Cluster n S) where
  ballots i := Machine.Ballots.init i
  prepare _ _ _ _ h := by simp [init] at h

lemma VoteInv.step {a : Action n S} (h : VoteInv c) (hG : keepsEpochs c a)
    (hstep : c.step a = some c') : VoteInv c' := by
  have hsteps := steps_of_step hG hstep
  have hold : ∀ {src dst id bpLog}, .request src dst id (.bulkPrepare bpLog) ∈ c.net →
      .campaigned bpLog.epoch ∈ (c'.machines bpLog.leaderId).log :=
    fun hpkt => hsteps.log_subset _ (h.prepare _ _ _ _ hpkt)
  cases hsteps with
  | lost hnet => exact ⟨h.ballots, fun _ _ _ _ hpkt => hold (hnet hpkt)⟩
  | @request src dst id req net hpkt halive _ hnet =>
    refine ⟨forall_machines_move h.ballots ((h.ballots dst).handle halive ?_), ?_⟩
    · intro bpLog hreq hself
      rw [← hself]
      exact h.prepare src dst id bpLog (hreq ▸ hpkt)
    · intro src' dst' id' bpLog hin
      rcases hnet _ hin with hin | ⟨rep, -, heq⟩
      · exact hold hin
      · cases heq
  | reply _ hreplied _ _ hnet =>
    exact ⟨forall_machines_move h.ballots ((h.ballots _).replied hreplied),
      fun _ _ _ _ hin => hold (hnet hin)⟩
  | @input i input m reqs net hacts _ hkeeps hnet =>
    refine ⟨forall_machines_move h.ballots ((h.ballots i).acts hacts hkeeps).startCalls, ?_⟩
    intro src dst id bpLog hin
    rcases hnet _ hin with hin | ⟨k, req, dst', hreq, heq⟩
    · exact hold hin
    · obtain ⟨rfl, rfl, rfl, rfl⟩ := Packet.request.inj heq
      obtain ⟨hself, hcamp⟩ :=
        hacts.prepare_of_mem (h.ballots src).machineId (mem_of_getElem? hreq)
      rw [hself, machines_move_self]
      exact hcamp

/-- The epochs are monotone along a run in which no rejection sets one back. -/
lemma curEpoch_le_of_run (h : Lts.Run system keepsEpochs c c') (i : Fin n) :
    (c.machines i).es.curEpoch ≤ (c'.machines i).es.curEpoch := by
  refine invariant_of_local (fun i m => (c.machines i).es.curEpoch ≤ m.es.curEpoch) ?_ ?_ ?_ h
    (fun _ => le_refl _) i
  · exact fun d i req hle halive _ => hle.trans (Machine.curEpoch_le_handle _ req halive)
  · exact fun d i src id rep m hle _ _ hrep => hle.trans hrep.curEpoch_le
  · exact fun d i input m reqs hle _ hkeeps hacts => hle.trans (hacts.curEpoch_le hkeeps)

/-- In every run in which no rejection sets an epoch back, the epoch of every machine is
monotone and a machine grants its vote to at most one leader in an epoch. -/
theorem epoch_mono_vote_unique {c : Cluster n S} (h : Lts.Run system keepsEpochs init c) :
    (∀ c', Lts.Run system keepsEpochs c c' →
      ∀ i, (c.machines i).es.curEpoch ≤ (c'.machines i).es.curEpoch) ∧
    ∀ i epoch leader leader', .voted epoch leader ∈ (c.machines i).log →
      .voted epoch leader' ∈ (c.machines i).log → leader = leader' := by
  have hinv : VoteInv c := h.invariant VoteInv (fun _ _ _ hd hG hs => hd.step hG hs) voteInv_init
  refine ⟨fun c' hrun i => ?_, fun i => (hinv.ballots i).unique⟩
  exact curEpoch_le_of_run hrun i

/-- Machine 1 stands for epoch 1 and machine 2 votes for it, and for no other leader. -/
theorem epoch_mono_vote_unique_first : ∃ c : Cluster 3 1, Lts.Run system keepsEpochs init c ∧
    .voted 1 1 ∈ (c.machines 2).log ∧ ∀ leader, .voted 1 leader ∈ (c.machines 2).log →
      leader = 1 := by
  obtain ⟨c, hrun, hvoted⟩ := Lts.exists_run_of_execGuarded (system : Lts.System (Cluster 3 1) _)
    keepsEpochs init [.act 1 .electionTimeout, .deliver 2]
    (fun c => .voted 1 1 ∈ (c.machines 2).log) (by decide +kernel)
  exact ⟨c, hrun, hvoted, fun leader h =>
    (epoch_mono_vote_unique hrun).2 2 1 leader 1 h hvoted⟩

/-- Machine 0 leads epoch 2 and its heartbeat is rejected twice with epoch 3. Before the
rejections arrive it votes for machine 1 in epoch 4. They set its epoch back to 3, it stands for
epoch 4 itself and votes a second time in that epoch. -/
theorem epoch_back_vote_twice : ∃ c : Cluster 3 1, Lts.Reachable system c ∧
    ∃ c' ∈ system.step c (.act 0 (.heartbeatReturns 1)),
      (c'.machines 0).es.curEpoch < (c.machines 0).es.curEpoch ∧
      ∃ c'' ∈ Lts.exec system c' [.act 0 .electionTimeout, .deliver 10],
        .voted 4 1 ∈ (c''.machines 0).log ∧ .voted 4 0 ∈ (c''.machines 0).log :=
  Lts.exists_reachable_of_exec system
    -- machines 1 and 2 follow the leader of epoch 2; machine 2 stands for epoch 3
    [.act 0 .heartbeatTick, .deliver 1, .deliver 1, .act 2 .electionTimeout, .deliver 4,
      -- a second heartbeat of epoch 2 is rejected by machines 1 and 2
      .act 0 .heartbeatTick, .deliver 7, .deliver 7,
      -- machine 1 stands for epoch 4, machine 0 votes for it, then the rejections arrive
      .act 1 .electionTimeout, .deliver 9, .deliver 7, .deliver 7] _
    (by decide +kernel)

end Cluster

end Rolis.Paxos
