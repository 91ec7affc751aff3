import Rolis.Paxos.Rpc
import Rolis.Paxos.Votes

/-!
# Election safety

`electionMonitor` takes its candidacy for won when `cur_epoch` is still the epoch it sent. That
stands for a quorum of votes only if a lost vote always moves the epoch on, and if the epoch
does not move between the check and `stuff_todo_leader_election`, which reads it again. Neither
holds: a rejection may bring back the candidate's own epoch, because `OnBulkPrepare` rejects an
equal epoch of another leader too. With an even number of machines two disjoint halves are both
a quorum.

`CleanElection` names what goes wrong on one machine. In the runs that meet it, on an odd number
of machines, at most one machine becomes leader in an epoch (`leader_unique`).
-/

namespace Rolis.Paxos

open Machine Option

variable {n S : ℕ} {m : Machine n S} {c c' : Cluster n S} {call : Call n S} {i : Fin n} {epoch : ℕ}
  {a : Action n S} {bpLog : BulkPrepareLog n S}

/-- The epoch and the call of a candidacy under way. -/
def Monitor.candidacy : Monitor → Option (ℕ × ℕ)
  | .voting epoch id => some (epoch, id)
  | _ => none

namespace Machine

/-- No rejection sets the epoch back, none brings back the epoch of the candidacy itself, and the
epoch is still that of the candidacy when the machine becomes leader. -/
@[mk_iff]
structure CleanElection (m : Machine n S) (input : Input n S) : Prop where
  keepsEpoch : m.KeepsEpoch input
  rejection : input = .prepareReturns → ∀ p ∈ m.monitor.candidacy, ∀ q ∈ m.awaited p.2,
    q.2 = false → q.1.receivedEpoch ≠ some p.1
  unmoved : input = .stuffTodoLeaderElection → m.monitor = .elected m.es.curEpoch

instance (m : Machine n S) (input : Input n S) : Decidable (m.CleanElection input) :=
  decidable_of_iff' _ (cleanElection_iff m input)

end Machine

namespace Cluster

/-- Every election is clean. -/
def cleanElections : Cluster n S → Action n S → Prop :=
  guard (fun _ _ _ => True) (fun _ _ _ _ => True) fun c i input =>
    (c.machines i).CleanElection input

instance (c : Cluster n S) (a : Action n S) : Decidable (cleanElections c a) :=
  inferInstanceAs (Decidable (guard _ _ _ c a))

lemma keepsEpochs_of_cleanElections (h : cleanElections c a) : keepsEpochs c a := by
  cases a with
  | deliver k => exact fun pkt _ => by cases pkt <;> trivial
  | drop k => trivial
  | act i input => exact Machine.CleanElection.keepsEpoch h

/-! ## Winning -/

/-- A quorum has voted for machine `i` in the epoch. -/
def Won (c : Cluster n S) (i : Fin n) (epoch : ℕ) : Prop :=
  ∃ voters : List (Fin n), voters.Nodup ∧ quorum n ≤ voters.length ∧
    ∀ v ∈ voters, .voted epoch i ∈ (c.machines v).log

lemma Won.mono (h : c.Won i epoch) (hlog : ∀ j, (c.machines j).log ⊆ (c'.machines j).log) :
    c'.Won i epoch := by
  obtain ⟨voters, hnd, hlen, hvoted⟩ := h
  exact ⟨voters, hnd, hlen, fun v hv => hlog v (hvoted v hv)⟩

/-- On an odd number of machines two quorums are more than all machines. -/
lemma lt_quorum_add_quorum (hodd : n % 2 = 1) : n < quorum n + quorum n := by
  unfold quorum
  rw [if_neg (by omega)]
  omega

/-- Two winners of one epoch share a voter, who voted for one of them only. -/
lemma Won.unique (hodd : n % 2 = 1) (hvotes : VoteInv c) {j : Fin n} (hi : c.Won i epoch)
    (hj : c.Won j epoch) : i = j := by
  obtain ⟨vi, hndi, hleni, hvi⟩ := hi
  obtain ⟨vj, hndj, hlenj, hvj⟩ := hj
  have hlen : Fintype.card (Fin n) < vi.length + vj.length := by
    have := lt_quorum_add_quorum hodd
    rw [Fintype.card_fin]
    omega
  obtain ⟨v, hin, hjn⟩ := hndi.exists_mem_of_card_lt hndj hlen
  exact (hvotes.ballots v).unique epoch i j (hvi v hin) (hvj v hjn)

/-! ## The invariant -/

/-- What a valid reply to a prepare testifies: its sender has voted. -/
def Granted (c : Cluster n S) (v : Fin n) (req : Request n S) (rep : Reply S) : Prop :=
  rep.valid = true → ∀ bpLog, req = .bulkPrepare bpLog →
    .voted bpLog.epoch bpLog.leaderId ∈ (c.machines v).log

/-- The candidacy of machine `i`: while it is under way its call asks for its epoch; afterwards
it is won or the epoch has moved on. -/
def Candidate (c : Cluster n S) (i : Fin n) : Monitor → Prop
  | .voting epoch id => epoch ≤ (c.machines i).es.curEpoch ∧
      ∃ bpLog, (c.machines i).requestOf id = some (.bulkPrepare bpLog) ∧
        bpLog.epoch = epoch ∧ bpLog.leaderId = i
  | .woken epoch | .elected epoch => c.Won i epoch ∨ epoch < (c.machines i).es.curEpoch
  | _ => True

structure ElectionInv (c : Cluster n S) : Prop where
  votes : VoteInv c
  rpc : RpcInv Granted c
  candidate : ∀ i, c.Candidate i (c.machines i).monitor
  elected : ∀ i epoch, .elected epoch ∈ (c.machines i).log → c.Won i epoch

lemma electionInv_init : ElectionInv (init : Cluster n S) where
  votes := voteInv_init
  rpc := rpcInv_init
  candidate i := by
    simp only [init, init_monitor, Candidate]
  elected i epoch h := by simp [init] at h

/-- A candidacy survives the moves of others, and its own machine's moves that do not touch the
monitor. -/
lemma Candidate.mono {monitor : Monitor} (h : c.Candidate i monitor)
    (hlog : ∀ j, (c.machines j).log ⊆ (c'.machines j).log)
    (hle : (c.machines i).es.curEpoch ≤ (c'.machines i).es.curEpoch)
    (hreq : ∀ id req, (c.machines i).requestOf id = some req →
      (c'.machines i).requestOf id = some req) : c'.Candidate i monitor := by
  cases monitor with
  | voting epoch id =>
    obtain ⟨hepoch, bpLog, hcall, heq⟩ := h
    exact ⟨hepoch.trans hle, bpLog, hreq _ _ hcall, heq⟩
  | woken epoch | elected epoch =>
    exact h.imp (fun hwon => hwon.mono hlog) (fun hlt => hlt.trans_le hle)
  | _ => trivial

/-- A handler that answers a prepare with `valid = 1` has recorded the vote. -/
lemma voted_of_handle {rep : Reply S} (hrep : (m.handle (.bulkPrepare bpLog)).2 = some rep)
    (hvalid : rep.valid = true) :
    .voted bpLog.epoch bpLog.leaderId ∈ (m.handle (.bulkPrepare bpLog)).1.log := by
  rw [handle] at hrep ⊢
  obtain ⟨-, h⟩ | ⟨-, h⟩ | ⟨-, h⟩ := m.onBulkPrepare_cases bpLog <;> rw [h] at hrep ⊢
  · cases hrep
    cases hvalid
  · cases hrep
  · exact List.mem_cons_self

/-- A quorum event that says yes has a quorum of votes behind it. -/
lemma won_of_verdict (hinv : CallInv (Granted c) call) (hreq : call.req = .bulkPrepare bpLog)
    (hself : bpLog.leaderId = i) (hyes : call.verdict = some true) : c.Won i bpLog.epoch := by
  refine ⟨call.tally.yes, hinv.fair.nodup_yes, Call.quorum_le_of_verdict hyes, fun v hv => ?_⟩
  obtain ⟨rep, hvalid, hgranted⟩ := hinv.yes v hv
  exact hself ▸ hgranted hvalid bpLog hreq

/-- A quorum event that says no has a rejection behind it. -/
lemma no_ne_nil_of_verdict (hno : call.verdict = some false) : call.tally.no ≠ [] := by
  unfold Call.verdict at hno
  split at hno
  · simp at hno
  · split at hno
    · next hlt =>
      intro hnil
      rw [hnil] at hlt
      exact absurd hlt (by simp)
    · simp at hno

/-- When `SendBulkPrepare` returns, the candidacy is won or the epoch has moved on. -/
lemma ElectionInv.prepareReturns (h : ElectionInv c) {id : ℕ} {yes : Bool}
    (hmon : (c.machines i).monitor = .voting epoch id)
    (hcall : (c.machines i).awaited id = some (call, yes))
    (hclean : (c.machines i).CleanElection .prepareReturns) :
    c.Won i epoch ∨ epoch < (((c.machines i).finishCall id call).adoptRejection
      (if yes then none else call.receivedEpoch)).es.curEpoch := by
  obtain ⟨hopen, -, hverdict⟩ := awaited_eq_some hcall
  have hcand := h.candidate i
  rw [hmon] at hcand
  obtain ⟨hle, bpLog, hreq, rfl, hself⟩ := hcand
  obtain ⟨call', hopen', hreq⟩ := requestOf_eq_some.mp hreq
  obtain rfl := some.inj (hopen.symm.trans hopen')
  have hinv := h.rpc.call i id call hopen
  cases yes with
  | true => exact .inl (won_of_verdict hinv hreq hself hverdict)
  | false =>
    have hsome := hinv.rejected bpLog hreq (no_ne_nil_of_verdict hverdict)
    obtain ⟨received, hreceived⟩ := ne_none_iff_exists'.mp hsome
    have hcandidacy : (bpLog.epoch, id) ∈ (c.machines i).monitor.candidacy := by
      rw [hmon]
      rfl
    have hne := hclean.rejection rfl _ hcandidacy _ hcall rfl
    have hge := hclean.keepsEpoch id (by simp [storedCall, hmon]) _ hcall rfl received hreceived
    rw [hreceived, Ne, some.injEq] at hne
    refine .inr ?_
    rw [adoptRejection_curEpoch, if_neg (by simp), hreceived, getD_some]
    dsimp only at hne
    omega

/-- The candidacy of the machine that takes an input. -/
lemma ElectionInv.candidate_acts (h : ElectionInv c) {input : Input n S}
    {reqs : List (Request n S)} (hacts : (c.machines i).Acts input m reqs)
    (hclean : (c.machines i).CleanElection input) (hc' : c'.machines i = m.startCalls reqs)
    (hlog : ∀ j, (c.machines j).log ⊆ (c'.machines j).log)
    (hreq : ∀ id req, (c.machines i).requestOf id = some req →
      (c'.machines i).requestOf id = some req) : c'.Candidate i m.monitor := by
  have hle := hacts.curEpoch_le hclean.keepsEpoch
  have hself : (c'.machines i).es = m.es := by rw [hc', startCalls_es]
  have hkeep : m.monitor = (c.machines i).monitor → c'.Candidate i m.monitor := by
    intro hsame
    rw [hsame]
    exact (h.candidate i).mono hlog (by rw [hself]; exact hle) hreq
  cases hacts with
  | electionTimeout _ _ =>
    refine ⟨by rw [hself]; exact le_refl _,
      (c.machines i).createBulkPrepare ((c.machines i).es.curEpoch + 1), ?_, rfl,
      (h.votes.ballots i).machineId⟩
    rw [hc', requestOf_startCalls, if_neg (lt_irrefl _), Nat.sub_self]
    rfl
  | prepareReturns hmon hcall =>
    have hwon := h.prepareReturns hmon hcall hclean
    exact hwon.imp (fun hw => hw.mono hlog) (fun hlt => by rw [hself]; exact hlt)
  | electionWon hmon _ =>
    have hcand := h.candidate i
    rw [hmon] at hcand
    exact hcand.imp (fun hw => hw.mono hlog) (fun hlt => by rw [hself]; exact hlt)
  | heartbeatReturns _ _ => exact hkeep (adoptRejection_monitor ..)
  | addLogToNc par log => exact hkeep (addLogToNc_monitor ..)
  | heartbeatTick _ | bulkSubmit _ | acceptYes _ _ | acceptNo _ _ | crash => exact hkeep rfl
  | _ => trivial

/-- Only a winner enters its epoch as a leader's. -/
lemma ElectionInv.elected_step (h : ElectionInv c)
    (hsteps : Steps (fun _ _ _ => True) (fun _ _ _ _ => True)
      (fun c i input => (c.machines i).CleanElection input) c c')
    (hnew : .elected epoch ∈ (c'.machines i).log) (hold : .elected epoch ∉ (c.machines i).log) :
    c.Won i epoch := by
  rcases hsteps.event hnew with hev | hev | ⟨_, _, _, _, _, _, hev⟩ | ⟨input, hclean, rfl, rfl⟩
  · exact absurd hev hold
  · cases hev
  · exact hev.elim
  · have hcand := h.candidate i
    rw [hclean.unmoved rfl] at hcand
    exact hcand.resolve_right (lt_irrefl _)

lemma ElectionInv.step (h : ElectionInv c) (hG : cleanElections c a)
    (hstep : c.step a = some c') : ElectionInv c' := by
  have hkeeps := keepsEpochs_of_cleanElections hG
  have hle : ∀ i, (c.machines i).es.curEpoch ≤ (c'.machines i).es.curEpoch :=
    curEpoch_le_of_run (Lts.Run.single hkeeps hstep)
  have hsteps := steps_of_step hG hstep
  have hlog := hsteps.log_subset
  have hreq : ∀ i id req, (c.machines i).requestOf id = some req →
      (c'.machines i).requestOf id = some req :=
    fun i id req => h.rpc.requestOf_step hsteps
  have hrpc : RpcInv Granted c' := by
    refine h.rpc.step hsteps (fun v req rep hg hvalid bpLog heq => ?_) ?_
    · exact hlog v (hg hvalid bpLog heq)
    · rintro src dst id req rep net - - - hrep rfl hvalid bpLog rfl
      rw [machines_move_self]
      exact voted_of_handle hrep hvalid
  refine ⟨h.votes.step hkeeps hstep, hrpc, ?_, ?_⟩
  · -- a monitor is only moved by an input of its own machine
    have hkeep : ∀ i, (c'.machines i).monitor = (c.machines i).monitor →
        c'.Candidate i (c'.machines i).monitor := by
      intro i hsame
      rw [hsame]
      exact (h.candidate i).mono hlog (hle i) (hreq i)
    intro i
    rcases hsteps.machine i with heq | ⟨halive, ⟨_, _, req, _, _, heq⟩ |
      ⟨_, _, _, _, _, _, hreplied, _, heq⟩ | ⟨_, _, _, hacts, hclean, heq⟩⟩
    · exact hkeep i (by rw [heq])
    · exact hkeep i (by rw [heq, ((c.machines i).handle_sameSender req halive).monitor])
    · exact hkeep i (by rw [heq, hreplied.monitor])
    · have hcand := h.candidate_acts hacts hclean heq hlog (hreq i)
      rwa [heq, startCalls_monitor]
  · intro i epoch helected
    by_cases hold : .elected epoch ∈ (c.machines i).log
    · exact (h.elected i epoch hold).mono hlog
    · have hwon := h.elected_step hsteps helected hold
      exact hwon.mono hlog

lemma electionInv_of_run (h : Lts.Run system cleanElections init c) : ElectionInv c :=
  h.invariant ElectionInv (fun _ _ _ hd hG hs => hd.step hG hs) electionInv_init

/-- On an odd number of machines, in every run of clean elections at most one machine runs
`stuff_todo_leader_election` for an epoch. -/
theorem leader_unique (hodd : n % 2 = 1) {c : Cluster n S}
    (h : Lts.Run system cleanElections init c) (epoch : ℕ) (i j : Fin n)
    (hi : .elected epoch ∈ (c.machines i).log) (hj : .elected epoch ∈ (c.machines j).log) :
    i = j := by
  have hinv := electionInv_of_run h
  exact (hinv.elected i epoch hi).unique hodd hinv.votes (hinv.elected j epoch hj)

/-- Machine 1 wins epoch 1 with its own vote and that of machine 2. -/
theorem leader_unique_first : ∃ c : Cluster 3 1, Lts.Run system cleanElections init c ∧
    .elected 1 ∈ (c.machines 1).log ∧ ∀ j, .elected 1 ∈ (c.machines j).log → j = 1 := by
  obtain ⟨c, hrun, helected⟩ := Lts.exists_run_of_execGuarded
    (system : Lts.System (Cluster 3 1) _) cleanElections init
    [.act 1 .electionTimeout, .deliver 1, .deliver 1, .deliver 1, .deliver 1,
      .act 1 .prepareReturns, .act 1 .electionWakes, .act 1 .stuffTodoLeaderElection]
    (fun c => .elected 1 ∈ (c.machines 1).log) (by decide +kernel)
  exact ⟨c, hrun, helected, fun j hj => leader_unique rfl hrun 1 j 1 hj helected⟩

/-- Machines 1 and 2 both stand for epoch 3. Machine 1 wins; machine 2 is rejected with epoch 3,
stores it, finds its epoch unchanged and becomes leader of epoch 3 too. -/
theorem two_leaders : ∃ c : Cluster 3 1, Lts.Reachable system c ∧
    .elected 3 ∈ (c.machines 1).log ∧ .elected 3 ∈ (c.machines 2).log :=
  Lts.exists_reachable_of_exec system
    -- both follow the leader of epoch 2, then time out
    [.act 0 .heartbeatTick, .deliver 1, .deliver 1, .act 1 .electionTimeout,
      .act 2 .electionTimeout,
      -- machines 0 and 1 vote for machine 1
      .deliver 3, .deliver 3, .deliver 7, .deliver 7, .act 1 .prepareReturns,
      .act 1 .electionWakes, .act 1 .stuffTodoLeaderElection,
      -- machines 0 and 1 reject machine 2
      .deliver 4, .deliver 4, .deliver 5, .deliver 5, .act 2 .prepareReturns,
      .act 2 .electionWakes, .act 2 .stuffTodoLeaderElection] _
    (by decide +kernel)

end Cluster

end Rolis.Paxos
