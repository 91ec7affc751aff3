import Rolis.Lib.Voting
import Rolis.Paxos.HoleFilling
import Rolis.Paxos.Promise

/-!
# The votes on a slot

Every slot of a stream is one decision in the sense of `Voting`: its proposals are the
`BulkAccept` broadcasts, its voters the machines, and a machine may accept at a ballot as long as
it runs and the `cur_epoch` of the stream is not above the ballot (`Cluster.voting`). Under the
promise of the acceptors (`Machine.Honours`) the epoch never falls, so a step of the cluster is a
step of every decision (`grows_of_steps`).

`Recorded` ties the votes to what a replica stores: as long as `max_ballot_accepted_` of a slot
is the ballot of a vote, `accepted_cmd_` is the command of that vote.
-/

namespace Rolis.Paxos

open PaxosServer

variable {n S : ℕ} {m m' : Machine n S} {c c' : Cluster n S} {par : Fin S} {slot ballot : ℕ}
  {cmd : LogEntry} {ev : Event n S} {req : Request n S} {e : PaxosEntry}

namespace Event

/-- Stream, slot, ballot and command of a vote. -/
def vote : Event n S → Option (Fin S × ℕ × ℕ × LogEntry)
  | .accepted par slot ballot cmd => some (par, slot, ballot, cmd)
  | _ => none

/-- Stream, slot, ballot and command of a proposal. -/
def proposal : Event n S → Option (Fin S × ℕ × ℕ × LogEntry)
  | .proposed par slot ballot cmd _ => some (par, slot, ballot, cmd)
  | _ => none

lemma vote_eq_some :
    ev.vote = some (par, slot, ballot, cmd) ↔ ev = .accepted par slot ballot cmd := by
  cases ev <;> simp [vote]

lemma proposal_eq_some : ev.proposal = some (par, slot, ballot, cmd) ↔
      ∃ called, ev = .proposed par slot ballot cmd called := by
  cases ev <;> simp [proposal]

end Event

namespace Machine

/-- The machine has accepted something for the slot at the ballot. -/
def HasVoted (m : Machine n S) (par : Fin S) (slot ballot : ℕ) : Prop :=
  ∃ cmd, .accepted par slot ballot cmd ∈ m.log

instance (m : Machine n S) (par : Fin S) (slot ballot : ℕ) :
    Decidable (m.HasVoted par slot ballot) :=
  decidable_of_iff (∃ ev ∈ m.log, ∃ p ∈ ev.vote, p.1 = par ∧ p.2.1 = slot ∧ p.2.2.1 = ballot) <| by
    constructor
    · rintro ⟨ev, hev, ⟨_, _, _, cmd⟩, hp, rfl, rfl, rfl⟩
      exact ⟨cmd, Event.vote_eq_some.mp hp ▸ hev⟩
    · rintro ⟨cmd, hev⟩
      exact ⟨_, hev, _, rfl, rfl, rfl, rfl⟩

/-! ## What a replica stores of its votes -/

/-- Every vote is at most the accepted ballot of its slot, and the accepted command belongs to
the vote at that ballot. -/
structure Recorded (m : Machine n S) : Prop where
  le : ∀ par slot ballot cmd, .accepted par slot ballot cmd ∈ m.log →
    ballot ≤ ((m.server par).logs slot).maxBallotAccepted
  cmd : ∀ par slot ballot cmd, .accepted par slot ballot cmd ∈ m.log →
    ((m.server par).logs slot).maxBallotAccepted = ballot →
    ((m.server par).logs slot).acceptedCmd = some cmd

lemma recorded_init (i : Fin n) : (Machine.init i : Machine n S).Recorded :=
  ⟨fun par slot ballot cmd h => by simp at h, fun par slot ballot cmd h => by simp at h⟩

/-- A step without a vote that lowers no accepted ballot and changes no accepted command. -/
lemma Recorded.of_keepsPromise (h : m.Recorded) (hkeeps : m.KeepsPromise m')
    (hcmd : ∀ par slot, ((m'.server par).logs slot).acceptedCmd =
      ((m.server par).logs slot).acceptedCmd)
    (hvotes : ∀ par slot ballot cmd, .accepted par slot ballot cmd ∈ m'.log →
      .accepted par slot ballot cmd ∈ m.log) : m'.Recorded where
  le par slot ballot cmd hvote :=
    (h.le par slot ballot cmd (hvotes _ _ _ _ hvote)).trans ((hkeeps par).2 slot)
  cmd par slot ballot cmd hvote hmax := by
    have hold := hvotes _ _ _ _ hvote
    have hle := h.le par slot ballot cmd hold
    have hge := (hkeeps par).2 slot
    rw [hcmd]
    exact h.cmd par slot ballot cmd hold (by omega)

/-- Only `OnBulkAccept` writes `accepted_cmd_`. -/
lemma handle_acceptedCmd (halive : m.aborted = none)
    (hreq : ∀ par cmd, req ≠ .bulkAccept par cmd) (par : Fin S) (slot : ℕ) :
    (((m.handle req).1.server par).logs slot).acceptedCmd =
      ((m.server par).logs slot).acceptedCmd := by
  have hcommit : ∀ (j : Fin S) (ps : PaxosServer n) (s ballot : ℕ) (cmd : Option LogEntry),
      (∀ slot, (ps.logs slot).acceptedCmd = ((m.server j).logs slot).acceptedCmd) →
      ∀ slot, ((ps.commit s ballot cmd).logs slot).acceptedCmd =
        ((m.server j).logs slot).acceptedCmd := by
    intro j ps s ballot cmd h slot
    simp only [commit, Function.update_apply]
    split
    · next hs => rw [hs]; exact h s
    · exact h slot
  refine forall_server_handle_of_writes (Q := fun j ps => ∀ slot,
    (ps.logs slot).acceptedCmd = ((m.server j).logs slot).acceptedCmd) (fun j => ?_) halive
    (fun par cmd h => absurd h (hreq par cmd)) ?_ ?_ ?_ (fun _ _ => rfl) par slot
  · exact ⟨fun _ _ _ _ h => h, fun _ _ _ h => h, fun ps h => by simpa using h⟩
  · exact fun par cmd _ e _ ps h => hcommit par ps _ _ _ h
  · exact fun r _ j ps h slot => (syncNoOps_acceptedCmd ..).trans (h slot)
  · exact fun par cmd _ e _ ps h _ _ => hcommit par ps _ _ _ h

lemma acceptEntry_logs (m : Machine n S) (par par' : Fin S) (e : PaxosEntry) (slot : ℕ) :
    ((m.acceptEntry par e).server par').logs slot = if par' = par ∧ slot = e.slot then
        { (m.server par).logs e.slot with
          maxBallotSeen := e.ballot, maxBallotAccepted := e.ballot, acceptedCmd := some e.cmd }
      else (m.server par').logs slot := by
  have hserver : (m.acceptEntry par e).server par' =
      (m.setServer par ((m.server par).accept e)).server par' := rfl
  rw [hserver, server_setServer]
  by_cases hpar : par' = par
  · simp only [hpar, true_and, if_true, accept, Function.update_apply]
  · simp [hpar]

/-- A vote at the epoch of the streams is recorded, if it is the only one at its ballot. -/
lemma Recorded.acceptEntry (h : m.Recorded) (hu : m.Uniform)
    (he : (m.server par).curEpoch = e.ballot)
    (honly : ∀ cmd, .accepted par e.slot e.ballot cmd ∈ m.log → cmd = e.cmd) :
    (m.acceptEntry par e).Recorded where
  le par' slot ballot cmd hvote := by
    rw [acceptEntry_logs]
    rcases List.mem_cons.mp hvote with hnew | hold
    · obtain ⟨rfl, rfl, rfl, rfl⟩ := Event.accepted.inj hnew
      rw [if_pos ⟨rfl, rfl⟩]
    · split
      · next heq =>
        obtain ⟨rfl, rfl⟩ := heq
        exact (h.le _ _ _ _ hold).trans ((hu.bound _ _).trans he.le)
      · exact h.le _ _ _ _ hold
  cmd par' slot ballot cmd hvote hmax := by
    rw [acceptEntry_logs] at hmax ⊢
    rcases List.mem_cons.mp hvote with hnew | hold
    · obtain ⟨rfl, rfl, rfl, rfl⟩ := Event.accepted.inj hnew
      rw [if_pos ⟨rfl, rfl⟩]
    · split at hmax
      · next heq =>
        obtain ⟨rfl, rfl⟩ := heq
        dsimp only at hmax
        subst hmax
        rw [if_pos ⟨rfl, rfl⟩, honly cmd hold]
      · next hne =>
        rw [if_neg hne]
        exact h.cmd _ _ _ _ hold hmax

/-- A machine whose votes are among the proposals `Pr` and are recorded. -/
structure Voter (Pr : Fin S → ℕ → ℕ → LogEntry → Prop) (m : Machine n S) : Prop where
  uniform : m.Uniform
  recorded : m.Recorded
  votes : ∀ par slot ballot cmd, .accepted par slot ballot cmd ∈ m.log → Pr par slot ballot cmd

namespace Voter

variable {Pr Pr' : Fin S → ℕ → ℕ → LogEntry → Prop}

lemma mono (hPr : ∀ par slot ballot cmd, Pr par slot ballot cmd → Pr' par slot ballot cmd)
    (h : m.Voter Pr) : m.Voter Pr' :=
  ⟨h.uniform, h.recorded, fun _ _ _ _ hvote => hPr _ _ _ _ (h.votes _ _ _ _ hvote)⟩

lemma of_server (h : m.Voter Pr) (hserver : ∀ i, (m'.server i).curEpoch = (m.server i).curEpoch ∧
      (m'.server i).logs = (m.server i).logs)
    (hvotes : ∀ par slot ballot cmd, .accepted par slot ballot cmd ∈ m'.log →
      .accepted par slot ballot cmd ∈ m.log) : m'.Voter Pr where
  uniform := h.uniform.of_server_eq hserver
  recorded := h.recorded.of_keepsPromise (keepsPromise_of_server_eq hserver)
    (fun par slot => by rw [(hserver par).2]) hvotes
  votes par slot ballot cmd hvote := h.votes _ _ _ _ (hvotes _ _ _ _ hvote)

variable (honly : ∀ par slot ballot cmd cmd', Pr par slot ballot cmd →
  Pr par slot ballot cmd' → cmd = cmd')
include honly

/-- One pass of the loop of `OnBulkAccept`. -/
lemma acceptEntry (h : m.Voter Pr) {leader : Fin n} (hle : (m.server par).curEpoch ≤ e.ballot)
    (hentry : Pr par e.slot e.ballot e.cmd) :
    ((m.adoptBallot par leader e.ballot).acceptEntry par e).Voter Pr := by
  have hadopt := h.uniform.adoptBallot hle leader
  have hballot := h.uniform.adoptBallot_curEpoch hle leader par
  have hlog := adoptBallot_log m par leader e.ballot
  have hrec : (m.adoptBallot par leader e.ballot).Recorded :=
    h.recorded.of_keepsPromise hadopt.2 (fun _ _ => by rw [adoptBallot_logs])
      fun _ _ _ _ => (hlog ▸ ·)
  refine ⟨(hadopt.1.acceptEntry hballot).1, hrec.acceptEntry hadopt.1 hballot ?_, ?_⟩
  · exact fun v hv => honly _ _ _ _ _ (h.votes _ _ _ _ (hlog ▸ hv)) hentry
  · intro par' slot ballot v hv
    rcases List.mem_cons.mp hv with hnew | hold
    · obtain ⟨rfl, rfl, rfl, rfl⟩ := Event.accepted.inj hnew
      exact hentry
    · exact h.votes _ _ _ _ (hlog ▸ hold)

lemma onBulkAccept (h : m.Voter Pr) (halive : m.aborted = none) {cmd : BulkPaxosCmd n}
    (hentries : ∀ e ∈ cmd.entries, Pr par e.slot e.ballot e.cmd) :
    (m.onBulkAccept par cmd).1.Voter Pr := by
  refine bulkHandler_inv (Voter Pr) h halive ?_ ?_ ?_ ?_
  · exact fun _ => h.of_server (fun _ => ⟨rfl, rfl⟩) fun _ _ _ _ => id
  · refine h.of_server (fun i => ?_) fun _ _ _ _ => (seeLeader_log m cmd.leaderId ▸ ·)
    rw [seeLeader_server]
    exact ⟨rfl, rfl⟩
  · exact fun e he m' hm' _ hle => hm'.acceptEntry honly hle (hentries e he)
  · intro m' hm' _
    refine hm'.of_server (fun j => ?_) fun _ _ _ _ => id
    rw [server_setServer]
    split
    · next hj => rw [hj]; exact ⟨rfl, rfl⟩
    · exact ⟨rfl, rfl⟩

/-- A request that honours the epochs of the streams and proposes from `Pr`. -/
lemma handle (h : m.Voter Pr) (halive : m.aborted = none)
    (hle : ∀ i, (m.server i).maxExecutedSlot ≤ (m.server i).maxCommittedSlot)
    (hok : (m.handle req).1.aborted = none) (hon : m.Honours req)
    (hentries : ∀ par cmd, req = .bulkAccept par cmd → ∀ e ∈ cmd.entries,
      Pr par e.slot e.ballot e.cmd) : (m.handle req).1.Voter Pr := by
  by_cases hreq : ∃ par cmd, req = .bulkAccept par cmd
  · obtain ⟨par, cmd, rfl⟩ := hreq
    exact h.onBulkAccept honly halive (hentries par cmd rfl)
  · have hne : ∀ par cmd, req ≠ .bulkAccept par cmd := fun par cmd heq => hreq ⟨par, cmd, heq⟩
    have hvotes : ∀ par slot ballot cmd, .accepted par slot ballot cmd ∈ (m.handle req).1.log →
        .accepted par slot ballot cmd ∈ m.log := by
      intro par slot ballot cmd hvote
      obtain ⟨new, hlog, hev⟩ := m.handle_log req halive
      rw [hlog, List.mem_append] at hvote
      refine hvote.resolve_left fun hnew => ?_
      obtain ⟨bulk, heq, -⟩ := hev _ hnew
      exact hne par bulk heq
    obtain ⟨huniform, hkeeps⟩ := h.uniform.handle halive hle hok hon
    exact ⟨huniform, h.recorded.of_keepsPromise hkeeps (handle_acceptedCmd halive hne) hvotes,
      fun _ _ _ _ hvote => h.votes _ _ _ _ (hvotes _ _ _ _ hvote)⟩

end Voter

end Machine

/-! ## A slot as a decision -/

namespace Cluster

/-- The decision on a slot of a stream. -/
def voting (c : Cluster n S) (par : Fin S) (slot : ℕ) : Voting (Fin n) ℕ LogEntry where
  proposed ballot cmd := ∃ i called, .proposed par slot ballot cmd called ∈ (c.machines i).log
  accepted i ballot cmd := .accepted par slot ballot cmd ∈ (c.machines i).log
  isOpen i ballot := (c.machines i).aborted = none ∧
    ((c.machines i).server par).curEpoch ≤ ballot

section Decidable

variable (c : Cluster n S) (par : Fin S) (slot k ballot : ℕ) (cmd : LogEntry)

instance (i : Fin n) : Decidable ((c.voting par slot).MayAccept i ballot) :=
  inferInstanceAs (Decidable ((c.machines i).HasVoted par slot ballot ∨ _ ∧ _))

instance : Decidable ((c.voting par slot).Dead k ballot) :=
  decidable_of_iff _ ((c.voting par slot).dead_iff_card_lt k).symm

instance : Decidable ((c.voting par slot).Safe k ballot cmd) :=
  decidable_of_iff (∀ i, ∀ ev ∈ (c.machines i).log, ∀ p ∈ ev.proposal, p.1 = par → p.2.1 = slot →
      p.2.2.2 ≠ cmd → p.2.2.1 ≠ ballot ∧
        (c.voting par slot).Dead k (min ballot p.2.2.1)) <| by
    constructor
    · rintro h b v ⟨i, called, hev⟩ hne
      exact h i _ hev _ rfl rfl rfl hne
    · rintro h i ev hev ⟨_, _, b, v⟩ hp rfl rfl hne
      obtain ⟨called, rfl⟩ := Event.proposal_eq_some.mp hp
      exact h b v ⟨i, called, hev⟩ hne

end Decidable

variable {R : Cluster n S → Fin n → Request n S → Prop}
  {P : Cluster n S → Fin n → ℕ → Reply S → Prop} {A : Cluster n S → Fin n → Input n S → Prop}

/-- A step of the cluster is a step of every decision, if it lowers no epoch of a running machine
and every `BulkAccept` under way was proposed. -/
lemma grows_of_steps (hsteps : Steps R P A c c')
    (hepoch : ∀ i, (c'.machines i).aborted = none → (c.machines i).aborted = none ∧
      ∀ par, ((c.machines i).server par).curEpoch ≤ ((c'.machines i).server par).curEpoch)
    (hprop : ∀ src dst id par cmd, .request src dst id (.bulkAccept par cmd) ∈ c.net →
      ∀ e ∈ cmd.entries, (c.voting par e.slot).proposed e.ballot e.cmd) (par : Fin S)
    (slot : ℕ) : (c.voting par slot).Grows (c'.voting par slot) where
  accepted i _ _ h := hsteps.log_subset i h
  voted i ballot cmd h := by
    rcases hsteps.event h with hold | hev | ⟨src, id, req, hpkt, halive, -, hev⟩ | ⟨_, _, hev⟩
    · exact .inl hold
    · cases hev
    · obtain ⟨bulk, rfl, hentry, hle⟩ := hev
      exact .inr ⟨⟨halive, hle⟩, hprop _ _ _ _ _ hpkt _ hentry⟩
    · exact hev.elim
  isOpen i ballot h := by
    obtain ⟨halive, hle⟩ := hepoch i h.1
    exact ⟨halive, (hle par).trans h.2⟩
  proposed ballot cmd := by
    rintro ⟨i, called, hev⟩
    exact ⟨i, called, hsteps.log_subset i hev⟩

/-- The proposal that `BulkSubmit` makes of a job is safe. -/
def SafeProposal (c : Cluster n S) (i : Fin n) : Input n S → Prop
  | .bulkSubmit par k => ∀ job ∈ ((c.machines i).streams par).jobs[k]?,
      (c.voting par job.slot).Safe (quorum n) ((c.machines i).streams par).curEpoch job.cmd
  | _ => True

instance (c : Cluster n S) (i : Fin n) : DecidablePred (c.SafeProposal i)
  | .bulkSubmit par k => inferInstanceAs (Decidable
      (∀ job ∈ ((c.machines i).streams par).jobs[k]?, _))
  | .electionTimeout | .prepareReturns | .electionWakes | .stuffTodoLeaderElection
  | .sendSyncLogs | .syncLogReturns | .sendNoOps | .noOpsReturn | .sendNoOpMark
  | .heartbeatTick | .heartbeatReturns _ | .addLogToNc _ _ | .acceptReturns _ | .crash =>
    isTrue trivial

/-- With safe proposals every decision stays sound. -/
lemma sound_of_steps (hsteps : Steps R P A c c')
    (hA : ∀ i input, A c i input → c.SafeProposal i input)
    (hgrows : (c.voting par slot).Grows (c'.voting par slot))
    (h : (c.voting par slot).Sound (quorum n)) : (c'.voting par slot).Sound (quorum n) := by
  have hold : (∀ ballot cmd, (c'.voting par slot).proposed ballot cmd →
      (c.voting par slot).proposed ballot cmd) → (c'.voting par slot).Sound (quorum n) :=
    fun hall => hgrows.sound h (fun b v hv => .inl (hall b v hv))
      fun b v _ _ hv _ => .inl (hall b v hv)
  obtain hev | ⟨_, _, _, _, _, _, _, hev⟩ | ⟨i, input, -, hinput, hev⟩ := hsteps.events
  · refine hold fun ballot cmd ⟨j, called, hp⟩ => ⟨j, called, ?_⟩
    exact (hev j _ hp).resolve_right (by simp)
  · refine hold fun ballot cmd ⟨j, called, hp⟩ => ⟨j, called, ?_⟩
    exact (hev j _ hp).resolve_right fun hnew => hnew.2
  · -- all new proposals are the one of the input
    have hnew : ∀ ballot cmd, (c'.voting par slot).proposed ballot cmd →
        (c.voting par slot).proposed ballot cmd ∨ ∃ k job, input = .bulkSubmit par k ∧
          ((c.machines i).streams par).jobs[k]? = some job ∧ slot = job.slot ∧
          ballot = ((c.machines i).streams par).curEpoch ∧ cmd = job.cmd := by
      rintro ballot cmd ⟨j, called, hp⟩
      rcases hev j _ hp with hp | ⟨-, k, job, hk, hjob, hslot, hballot, hcmd, -⟩
      · exact .inl ⟨j, called, hp⟩
      · exact .inr ⟨k, job, hk, hjob, hslot, hballot, hcmd⟩
    refine hgrows.sound h (fun ballot cmd hp => ?_) fun ballot cmd ballot' cmd' hp hp' => ?_
    · refine (hnew ballot cmd hp).imp_right ?_
      rintro ⟨k, job, rfl, hjob, rfl, rfl, rfl⟩
      exact hA i _ hinput job hjob
    · rcases hnew ballot cmd hp with hp | ⟨k, job, hk, hjob, -, -, rfl⟩
      · exact .inl hp
      · rcases hnew ballot' cmd' hp' with hp' | ⟨k', job', hk', hjob', -, -, rfl⟩
        · exact .inr (.inl hp')
        · obtain ⟨-, rfl⟩ := Input.bulkSubmit.inj (hk.symm.trans hk')
          exact .inr (.inr (congrArg Job.cmd (Option.some.inj (hjob'.symm.trans hjob))))

end Cluster

end Rolis.Paxos
