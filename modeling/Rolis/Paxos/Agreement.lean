import Rolis.Paxos.Choice
import Rolis.Paxos.Rpc
import Rolis.Paxos.Threads

/-!
# Agreement on a slot

What is handed to `app_next_` was committed, what is committed was chosen by a quorum, and at most
one command is chosen for a slot. The last step is where the code fails: `BulkPrepare` brings no
accepted values back, and a new leader starts to propose above its *own* `max_committed_slot_`, so
it can propose a second command for a slot that a quorum has already accepted
(`slot_agreement_fails`). `OnBulkCommit` adds a second way: it commits whatever `accepted_cmd_`
the slot has, also when that was accepted at another ballot or is missing.

In the runs in which every proposal is safe, every acceptor keeps its promise, and a `BulkCommit`
only reaches machines that voted at its ballot, the slots agree (`slot_agreement`), in one log. An
acceptor that grants a `BulkPrepare` between the check and the writes of `OnBulkAccept` has given
its promise away, so that handlers must not be disturbed.
-/

namespace Rolis.Paxos

open List Machine

variable {n S slot : ℕ} {m : Machine n S} {c c' : Cluster n S} {req : Request n S} {i : Fin n}
  {par : Fin S} {id : ℕ} {cmd : LogEntry} {rep : Reply S} {e : PaxosEntry} {a : Action n S}

/-! ## What a stream commits and applies -/

namespace PaxosServer

/-- Everything committed was chosen, up to the slots marked as no-op, and everything applied is
still committed. -/
structure Agrees (Ch : ℕ → LogEntry → Prop) (ps : PaxosServer n) : Prop where
  committed : ∀ slot cmd, (ps.logs slot).committedCmd = some cmd →
    (ps.logs slot).isNoOp = false → Ch slot cmd
  applied : ∀ p ∈ ps.applied, (ps.logs p.1).committedCmd = some p.2 ∧
    (ps.logs p.1).isNoOp = false

namespace Agrees

variable {Ch Ch' : ℕ → LogEntry → Prop} {ps ps' : PaxosServer n}

lemma mono (hCh : ∀ slot cmd, Ch slot cmd → Ch' slot cmd) (h : ps.Agrees Ch) : ps.Agrees Ch' :=
  ⟨fun slot cmd hcmd hno => hCh _ _ (h.committed slot cmd hcmd hno), h.applied⟩

section

variable (h : ps.Agrees Ch)

include h

lemma of_logs (hlogs : ∀ slot, (ps'.logs slot).committedCmd = (ps.logs slot).committedCmd ∧
      (ps'.logs slot).isNoOp = (ps.logs slot).isNoOp) (happlied : ps'.applied = ps.applied) :
    ps'.Agrees Ch where
  committed slot cmd hcmd hno :=
    h.committed slot cmd ((hlogs slot).1 ▸ hcmd) ((hlogs slot).2 ▸ hno)
  applied p hp := by
    rw [(hlogs p.1).1, (hlogs p.1).2]
    exact h.applied p (happlied ▸ hp)

lemma applyNext (hcmd : (ps.logs (ps.maxExecutedSlot + 1)).committedCmd = some cmd)
    (hno : (ps.logs (ps.maxExecutedSlot + 1)).isNoOp = false) : (ps.applyNext cmd).Agrees Ch where
  committed := h.committed
  applied p hp := by
    rcases mem_append.mp hp with hp | hp
    · exact h.applied p hp
    · rw [mem_singleton.mp hp]
      exact ⟨hcmd, hno⟩

/-- Without marks the loop of the commit handlers applies only what was chosen. -/
lemma execute (hno : ∀ slot, (ps.logs slot).isNoOp = false) : ps.execute.Agrees Ch :=
  (executeLoop_inv (I := fun ps => ps.Agrees Ch ∧ ∀ slot, (ps.logs slot).isNoOp = false)
    (fun _ _ h hcmd => ⟨h.1.applyNext hcmd (h.2 _), h.2⟩) _ ⟨h, hno⟩).1

/-- The slots `OnSyncNoOps` fills are marked, and none of them was applied. -/
lemma fillNoOps (syncSlot epoch : ℕ) : (ps.fillNoOps syncSlot epoch).Agrees Ch where
  committed slot cmd hcmd hno := by
    simp only [PaxosServer.fillNoOps] at hcmd hno
    split at hno
    · cases hno
    · next hfill =>
      rw [if_neg hfill] at hcmd
      exact h.committed slot cmd hcmd hno
  applied p hp := by
    obtain ⟨hcmd, hno⟩ := h.applied p hp
    simp only [PaxosServer.fillNoOps]
    rw [if_neg fun hfill => by simp [hcmd] at hfill]
    exact ⟨hcmd, hno⟩

lemma syncNoOps (syncSlot epoch : ℕ) : (ps.syncNoOps syncSlot epoch).1.Agrees Ch := by
  have hloop := executeNoOpsLoop_inv (fun _ _ h hcmd hno => h.applyNext hcmd hno)
    (ps.maxCommittedSlot - ps.maxExecutedSlot) (h.fillNoOps syncSlot epoch)
  rcases ps.syncNoOps_eq syncSlot epoch with heq | ⟨_, _, _, heq⟩
  · rwa [heq]
  · rw [heq]
    exact ⟨hloop.committed, hloop.applied⟩

/-- Committing what was chosen, where one command is chosen at most. -/
lemma commit (hone : ∀ slot cmd cmd', Ch slot cmd → Ch slot cmd' → cmd = cmd')
    (hcmd : Ch slot cmd) (ballot : ℕ) : (ps.commit slot ballot (some cmd)).Agrees Ch where
  committed slot' cmd' hcmd' hno := by
    simp only [PaxosServer.commit, Function.update_apply] at hcmd' hno
    split at hcmd'
    · next hslot =>
      cases hcmd'
      exact hslot ▸ hcmd
    · next hslot =>
      rw [if_neg hslot] at hno
      exact h.committed slot' cmd' hcmd' hno
  applied p hp := by
    obtain ⟨hcmd', hno⟩ := h.applied p hp
    simp only [PaxosServer.commit, Function.update_apply]
    split
    · next hslot =>
      have hsame := hone p.1 p.2 cmd (h.committed _ _ hcmd' hno) (hslot ▸ hcmd)
      exact ⟨congrArg some hsame.symm, hslot ▸ hno⟩
    · exact ⟨hcmd', hno⟩

lemma accept (e : PaxosEntry) : (ps.accept e).Agrees Ch := by
  refine h.of_logs (fun slot => ?_) rfl
  simp only [PaxosServer.accept, Function.update_apply]
  split
  · next hslot => rw [hslot]; exact ⟨rfl, rfl⟩
  · exact ⟨rfl, rfl⟩

end

end Agrees

end PaxosServer

namespace Machine

/-- A `BulkCommit` names the accepted ballot of a slot only where the machine has voted at that
ballot. -/
def DecidesVoted (m : Machine n S) : Request n S → Prop
  | .bulkDecide par cmd => ∀ e ∈ cmd.entries,
      ((m.server par).logs e.slot).maxBallotAccepted = e.ballot → m.HasVoted par e.slot e.ballot
  | _ => True

instance (m : Machine n S) : DecidablePred m.DecidesVoted
  | .bulkDecide _ cmd => inferInstanceAs (Decidable (∀ e ∈ cmd.entries, _))
  | .bulkPrepare _ | .heartbeat _ | .syncLog _ | .syncCommit _ _ | .syncNoOps _
  | .bulkAccept _ _ => isTrue trivial

/-- A request keeps the agreement of the streams if it commits what was chosen. -/
lemma agrees_handle {Ch : Fin S → ℕ → LogEntry → Prop} (halive : m.aborted = none)
    (hmarks : ∀ par slot, ((m.server par).logs slot).isNoOp = false)
    (hone : ∀ par slot cmd cmd', Ch par slot cmd → Ch par slot cmd' → cmd = cmd')
    (hsync : ∀ par cmd, req = .syncCommit par cmd → ∀ e ∈ cmd.entries, Ch par e.slot e.cmd)
    (hdecide : ∀ par cmd, req = .bulkDecide par cmd → ∀ e ∈ cmd.entries,
      ((m.server par).logs e.slot).maxBallotAccepted = e.ballot →
      ∃ v, ((m.server par).logs e.slot).acceptedCmd = some v ∧ Ch par e.slot v)
    (h : ∀ par, (m.server par).Agrees (Ch par)) :
    ∀ par, ((m.handle req).1.server par).Agrees (Ch par) := by
  by_cases hreq : ∃ r, req = .syncNoOps r
  · obtain ⟨r, rfl⟩ := hreq
    exact forall_server_onSyncNoOps (fun j ps hps => hps.syncNoOps _ _) h
  · have hcommit : ∀ (j : Fin S) (ps : PaxosServer n) (slot ballot : ℕ) (v : LogEntry),
        ps.Agrees (Ch j) ∧ (∀ slot, (ps.logs slot).isNoOp = false) → Ch j slot v →
        (ps.commit slot ballot (some v)).Agrees (Ch j) ∧
          ∀ slot', ((ps.commit slot ballot (some v)).logs slot').isNoOp = false :=
      fun j ps slot ballot v hps hv =>
        ⟨hps.1.commit (hone j) hv ballot, Tidy.noMark_commit hps.2 _ _ _⟩
    refine fun par => (forall_server_handle_of_writes (Q := fun j ps => ps.Agrees (Ch j) ∧
      ∀ slot, (ps.logs slot).isNoOp = false) (fun j => ?_) halive ?_ ?_ ?_ ?_
      (fun j => ⟨h j, hmarks j⟩) par).1
    · exact ⟨fun _ _ _ _ hps => ⟨⟨hps.1.committed, hps.1.applied⟩, hps.2⟩,
        fun _ _ _ hps => ⟨⟨hps.1.committed, hps.1.applied⟩, hps.2⟩,
        fun ps hps => ⟨hps.1.execute hps.2, by simpa using hps.2⟩⟩
    · exact fun par cmd _ e _ ps hps => ⟨hps.1.accept e, Tidy.noMark_stable.accept ps e hps.2⟩
    · exact fun par cmd heq e he ps hps => hcommit par ps _ _ _ hps (hsync par cmd heq e he)
    · exact fun r heq => absurd ⟨r, heq⟩ hreq
    · intro par cmd heq e he ps hps hcmd hballot
      obtain ⟨v, hv, hch⟩ := hdecide par cmd heq e he hballot
      rw [hcmd, hv]
      exact hcommit par ps _ _ _ hps hch

/-- A `BulkAccept` that was answered with a yes has voted for all its entries. -/
lemma accepted_onBulkAccept {cmd : BulkPaxosCmd n}
    (hrep : (m.handle (.bulkAccept par cmd)).2 = some rep) (hvalid : rep.valid = true) :
    ∀ e ∈ cmd.entries,
      .accepted par e.slot e.ballot e.cmd ∈ (m.handle (.bulkAccept par cmd)).1.log := by
  obtain ⟨m', hloop, halive, heq⟩ := bulkHandler_valid hrep hvalid
  have hdone := bulkLoop_done (fun es m' => ∀ e ∈ cmd.entries,
    .accepted par e.slot e.ballot e.cmd ∈ m'.log ∨ e ∈ es) ?_ hloop halive (fun _ => .inr)
  · intro e he
    rw [handle, onBulkAccept, heq]
    exact (hdone e he).resolve_right not_mem_nil
  · intro e es m₁ h _ e' he'
    rcases h e' he' with hold | hleft
    · exact .inl (mem_cons_of_mem _ (by rwa [adoptBallot_log]))
    · rcases mem_cons.mp hleft with rfl | hleft
      · exact .inl mem_cons_self
      · exact .inr hleft

/-- The entries of a `SyncCommit` come from a response or from the leader's committed slots. -/
lemma mem_syncCmd {epoch : ℕ} {responses : List (SyncLogResponse S)}
    (he : e ∈ (m.syncCmd epoch responses par).entries) :
    (∃ r ∈ responses, ∃ e' ∈ r.syncData par, e'.slot = e.slot ∧ e'.cmd = e.cmd) ∨
      ((m.server par).logs e.slot).committedCmd = some e.cmd := by
  obtain ⟨⟨slot, cmd⟩, hmem, rfl⟩ := mem_map.mp he
  have hmem := (OrdMap.mem_of_mem_insertAll hmem).resolve_right not_mem_nil
  rcases mem_append.mp hmem with hmem | hmem
  · obtain ⟨r, hr, hmem⟩ := mem_flatMap.mp hmem
    obtain ⟨e', he', heq⟩ := mem_map.mp hmem
    obtain ⟨hslot, hcmd⟩ := Prod.mk.inj heq
    exact .inl ⟨r, hr, e', he', hslot, hcmd⟩
  · obtain ⟨r, -, hmem⟩ := mem_flatMap.mp hmem
    obtain ⟨j, -, hj⟩ := mem_filterMap.mp hmem
    obtain ⟨v, hv, heq⟩ := Option.map_eq_some_iff.mp hj
    cases heq
    exact .inr hv

/-- The entries of a `SyncLogResponse` are committed. -/
lemma mem_committedFrom {ps : PaxosServer n} {start : ℕ} (he : e ∈ ps.committedFrom start) :
    (ps.logs e.slot).committedCmd = some e.cmd := by
  obtain ⟨j, -, hj⟩ := mem_filterMap.mp he
  obtain ⟨v, hv, rfl⟩ := Option.map_eq_some_iff.mp hj
  exact hv

end Machine

/-! ## What the messages say -/

namespace Cluster

/-- A quorum has accepted the command for the slot at one ballot. -/
def Chosen (c : Cluster n S) (par : Fin S) (slot : ℕ) (cmd : LogEntry) : Prop :=
  (c.voting par slot).Chosen (quorum n) cmd

/-- What a reply testifies: a yes to a `BulkAccept` that its sender has voted for the entries, and
a `SyncLogResponse` that its entries were chosen. -/
def Vouched (c : Cluster n S) (i : Fin n) : Request n S → Reply S → Prop
  | .bulkAccept par cmd, rep => rep.valid = true → ∀ e ∈ cmd.entries,
      (c.voting par e.slot).accepted i e.ballot e.cmd
  | .syncLog _, rep => ∀ r ∈ rep.ret, ∀ par, ∀ e ∈ r.syncData par, c.Chosen par e.slot e.cmd
  | _, _ => True

/-- What stands behind a request: the proposal of a `BulkAccept`, and that the entries of a
`SyncCommit` and of a `BulkCommit` were chosen. -/
def Backed (c : Cluster n S) : Request n S → Prop
  | .bulkAccept par cmd => ∀ e ∈ cmd.entries, (c.voting par e.slot).proposed e.ballot e.cmd
  | .syncCommit par cmd => ∀ e ∈ cmd.entries, c.Chosen par e.slot e.cmd
  | .bulkDecide par cmd => ∀ e ∈ cmd.entries,
      ∃ v, (c.voting par e.slot).ChosenAt (quorum n) e.ballot v
  | _ => True

section Mono

variable (h : ∀ par slot, (c.voting par slot).Grows (c'.voting par slot))
include h

lemma Chosen.mono (hc : c.Chosen par slot cmd) : c'.Chosen par slot cmd := by
  obtain ⟨b, hb⟩ := hc
  exact ⟨b, (h par slot).chosenAt hb⟩

lemma Vouched.mono (hc : c.Vouched i req rep) : c'.Vouched i req rep := by
  cases req with
  | bulkAccept par cmd => exact fun hvalid e he => (h _ _).accepted _ _ _ (hc hvalid e he)
  | syncLog r => exact fun r hr par e he => (hc r hr par e he).mono h
  | _ => trivial

lemma Backed.mono (hc : c.Backed req) : c'.Backed req := by
  cases req with
  | bulkAccept par cmd => exact fun e he => (h _ _).proposed _ _ (hc e he)
  | syncCommit par cmd => exact fun e he => (hc e he).mono h
  | bulkDecide par cmd => exact fun e he => (hc e he).imp fun v hv => (h _ _).chosenAt hv
  | _ => trivial

end Mono

/-! ## The invariant -/

lemma quorum_pos (i : Fin n) : 0 < quorum n := by
  have := i.pos
  unfold quorum
  split <;> omega

structure AgreementInv (c : Cluster n S) : Prop where
  reachable : Lts.Reachable system c
  rpc : RpcInv Vouched c
  backed : ∀ i id req, (c.machines i).requestOf id = some req → c.Backed req
  sound : ∀ par slot, (c.voting par slot).Sound (quorum n)
  voter : ∀ i, (c.machines i).aborted = none →
    (c.machines i).Voter fun par slot => (c.voting par slot).proposed
  agrees : ∀ i par, ((c.machines i).server par).Agrees (c.Chosen par)

/-- The conditions on the requests. -/
def Proper (c : Cluster n S) (i : Fin n) (req : Request n S) : Prop :=
  (c.machines i).Honours req ∧ (c.machines i).DecidesVoted req

instance (c : Cluster n S) (i : Fin n) : DecidablePred (c.Proper i) :=
  fun _ => inferInstanceAs (Decidable (_ ∧ _))

/-- Every acceptor keeps its promise, every `BulkCommit` finds a vote at its ballot, and every
proposal is safe. -/
def safeProposals : Cluster n S → Action n S → Prop :=
  guard Proper (fun _ _ _ _ => True) SafeProposal

instance (c : Cluster n S) : DecidablePred (safeProposals c) :=
  inferInstanceAs (DecidablePred (guard _ _ _ c))

lemma agreementInv_init : AgreementInv (init : Cluster n S) where
  reachable := .refl
  rpc := rpcInv_init
  backed i id req h := by simp [init, requestOf] at h
  sound par slot := ⟨fun i b v h => by simp [voting, init] at h,
    fun b v h => by simp [voting, init] at h⟩
  voter i _ := ⟨uniform_init i, recorded_init i, fun par slot ballot cmd h => by simp [init] at h⟩
  agrees i par := by
    simp only [init, init_server]
    exact ⟨by simp, by simp⟩

namespace AgreementInv

variable (h : AgreementInv c)

include h

lemma chosen_unique (i : Fin n) (par : Fin S) (slot : ℕ) (cmd cmd' : LogEntry)
    (hc : c.Chosen par slot cmd) (hc' : c.Chosen par slot cmd') : cmd = cmd' :=
  (h.sound par slot).chosen_unique (quorum_pos i) hc hc'

/-- What a running machine has committed was chosen. -/
lemma chosen_of_committed (halive : (c.machines i).aborted = none)
    (hcmd : (((c.machines i).server par).logs slot).committedCmd = some cmd) :
    c.Chosen par slot cmd :=
  (h.agrees i par).committed slot cmd hcmd
    ((tidy_of_reachable h.reachable i).noMark halive par slot)

/-- When a `BulkAccept` has a quorum of yes, its entries are chosen. -/
lemma chosenAt_of_verdict {call : Call n S}
    (hcall : (c.machines i).awaited id = some (call, true)) {cmd : BulkPaxosCmd n}
    (hreq : call.req = .bulkAccept par cmd) :
    ∀ e ∈ cmd.entries, (c.voting par e.slot).ChosenAt (quorum n) e.ballot e.cmd := by
  intro e he
  obtain ⟨hopen, -, hverdict⟩ := awaited_eq_some hcall
  have hinv := h.rpc.call i id call hopen
  refine ⟨call.tally.yes, hinv.fair.nodup_yes, Call.quorum_le_of_verdict hverdict, fun v hv => ?_⟩
  obtain ⟨rep, hvalid, hvouched⟩ := hinv.yes v hv
  rw [hreq] at hvouched
  exact hvouched hvalid e he

/-- No step lowers the epoch of a stream of a machine that still runs. -/
lemma curEpoch_le (hsteps : Steps Proper (fun _ _ _ _ => True) SafeProposal c c') (i : Fin n)
    (halive' : (c'.machines i).aborted = none) : (c.machines i).aborted = none ∧
      ∀ par, ((c.machines i).server par).curEpoch ≤ ((c'.machines i).server par).curEpoch := by
  rcases hsteps.machine i with heq | ⟨halive, ⟨_, _, req, _, hR, heq⟩ |
    ⟨_, _, _, _, _, -, hreplied, -, heq⟩ | ⟨_, _, _, hacts, -, heq⟩⟩ <;> rw [heq] at halive' ⊢
  · exact ⟨halive', fun _ => le_refl _⟩
  · refine ⟨halive, fun par => (((h.voter i halive).uniform.handle halive ?_ halive' hR.1).2 par).1⟩
    exact fun par => ((tidy_of_reachable h.reachable i).inOrder par).le
  · exact ⟨halive, fun par => (congrArg _ (hreplied.server par)).ge⟩
  · refine ⟨halive, fun par => ?_⟩
    obtain ⟨slot, hserver⟩ := hacts.server par
    rw [startCalls_server, hserver]

/-- What a handler answers is vouched for. -/
lemma vouched_handle (halive : (c.machines i).aborted = none)
    (hrep : ((c.machines i).handle req).2 = some rep) {net : List (Packet n S)}
    (hc' : c' = c.move i ((c.machines i).handle req).1 net)
    (hgrows : ∀ par slot, (c.voting par slot).Grows (c'.voting par slot)) :
    c'.Vouched i req rep := by
  cases req with
  | bulkAccept par cmd =>
    intro hvalid e he
    simp only [voting, hc', machines_move_self]
    exact accepted_onBulkAccept hrep hvalid e he
  | syncLog r =>
    intro resp hresp par e he
    simp only [handle, onSyncLog] at hrep
    split at hrep <;> cases hrep
    · simp [reject] at hresp
    · cases hresp
      exact (h.chosen_of_committed halive (mem_committedFrom he)).mono hgrows
  | _ => trivial

/-- What an input sends is backed. -/
lemma backed_acts {input : Input n S} {reqs : List (Request n S)}
    (hacts : (c.machines i).Acts input m reqs) (halive : (c.machines i).aborted = none)
    (hreq : req ∈ reqs) (hc' : c'.machines i = m.startCalls reqs)
    (hgrows : ∀ par slot, (c.voting par slot).Grows (c'.voting par slot)) : c'.Backed req := by
  cases hacts with
  | @syncLogYes epoch id call hmon hcall =>
    obtain ⟨hopen, -, -⟩ := awaited_eq_some hcall
    obtain ⟨par, -, rfl⟩ := mem_map.mp hreq
    intro e he
    refine Chosen.mono hgrows ?_
    rcases mem_syncCmd he with ⟨r, hr, e', he', hslot, hcmd⟩ | hown
    · obtain ⟨v, rep, q, -, hret, -, hvouched⟩ := (h.rpc.call i id call hopen).response r hr
      rw [← hslot, ← hcmd]
      exact hvouched r hret par e' he'
    · exact h.chosen_of_committed halive hown
  | @bulkSubmit par k job hjob =>
    obtain rfl := mem_singleton.mp hreq
    intro e he
    obtain rfl := mem_singleton.mp he
    refine ⟨i, job.calledDeposed, ?_⟩
    rw [hc', startCalls_log]
    exact mem_cons_self
  | @acceptYes id call par cmd hcall hbulk =>
    obtain rfl := mem_singleton.mp hreq
    intro e he
    obtain ⟨e', he', rfl⟩ := mem_map.mp he
    exact ⟨e'.cmd, (hgrows _ _).chosenAt (h.chosenAt_of_verdict hcall hbulk e' he')⟩
  | electionTimeout _ _ | sendSyncLogs _ | sendNoOps _ _ | heartbeatTick _ =>
    obtain rfl := mem_singleton.mp hreq
    trivial
  | _ => exact absurd hreq not_mem_nil

/-- What stands behind a request under way. -/
lemma backed_of_mem {src dst : Fin n} (hpkt : .request src dst id req ∈ c.net) : c.Backed req :=
  h.backed src id req (h.rpc.request src dst id req hpkt)

lemma voter_step (hsteps : Steps Proper (fun _ _ _ _ => True) SafeProposal c c') (i : Fin n)
    (halive' : (c'.machines i).aborted = none) :
    (c'.machines i).Voter fun par slot => (c.voting par slot).proposed := by
  rcases hsteps.machine i with heq | ⟨halive, ⟨src, id, req, hpkt, hR, heq⟩ |
    ⟨_, _, _, _, _, -, hreplied, -, heq⟩ | ⟨_, _, _, hacts, -, heq⟩⟩ <;> rw [heq] at halive' ⊢
  · exact h.voter i halive'
  · refine (h.voter i halive).handle ?_ halive ?_ halive' hR.1 ?_
    · exact fun par slot ballot cmd cmd' => (h.sound par slot).proposed_unique
    · exact fun par => ((tidy_of_reachable h.reachable i).inOrder par).le
    · rintro par cmd rfl e he
      exact h.backed_of_mem hpkt e he
  · refine (h.voter i halive).of_server (fun par => ?_) fun par slot ballot cmd hvote => ?_
    · rw [hreplied.server]
      exact ⟨rfl, rfl⟩
    · rcases hreplied.log with hlog | hlog <;> rw [hlog] at hvote
      · exact hvote
      · exact (mem_cons.mp hvote).resolve_left (by simp)
  · refine (h.voter i halive).of_server (fun par => ?_) fun par slot ballot cmd hvote => ?_
    · obtain ⟨slot, hserver⟩ := hacts.server par
      rw [startCalls_server, hserver]
      exact ⟨rfl, rfl⟩
    · obtain ⟨new, hlog, hev⟩ := hacts.log
      rw [startCalls_log, hlog, mem_append] at hvote
      exact hvote.resolve_left (hev _)

/-- What a `BulkCommit` commits was chosen: the vote at its ballot and the quorum at its ballot
are for one proposal. -/
lemma chosen_of_decide (halive : (c.machines i).aborted = none) {cmd : PaxosPrepCmd n}
    (hbacked : c.Backed (.bulkDecide par cmd))
    (hvoted : (c.machines i).DecidesVoted (.bulkDecide par cmd)) :
    ∀ e ∈ cmd.entries, (((c.machines i).server par).logs e.slot).maxBallotAccepted = e.ballot →
      ∃ v, (((c.machines i).server par).logs e.slot).acceptedCmd = some v ∧
        c.Chosen par e.slot v := by
  intro e he hballot
  obtain ⟨v, hv⟩ := hvoted e he hballot
  obtain ⟨w, hw⟩ := hbacked e he
  have hvoter := h.voter i halive
  have hsound := h.sound par e.slot
  have hsame : w = v := hsound.proposed_unique
    (hsound.proposed_of_chosenAt (quorum_pos i) hw) (hvoter.votes _ _ _ _ hv)
  exact ⟨v, hvoter.recorded.cmd _ _ _ _ hv hballot, e.ballot, hsame ▸ hw⟩

lemma agrees_step (hsteps : Steps Proper (fun _ _ _ _ => True) SafeProposal c c')
    (hgrows : ∀ par slot, (c.voting par slot).Grows (c'.voting par slot))
    (hsound : ∀ par slot, (c'.voting par slot).Sound (quorum n)) (i : Fin n) (par : Fin S) :
    ((c'.machines i).server par).Agrees (c'.Chosen par) := by
  have hold : ∀ par, ((c.machines i).server par).Agrees (c'.Chosen par) :=
    fun par => (h.agrees i par).mono fun _ _ hc => hc.mono hgrows
  rcases hsteps.machine i with heq | ⟨halive, ⟨src, id, req, hpkt, hR, heq⟩ |
    ⟨_, _, _, _, _, -, hreplied, -, heq⟩ | ⟨_, _, _, hacts, -, heq⟩⟩ <;> rw [heq]
  · exact hold par
  · refine agrees_handle halive ((tidy_of_reachable h.reachable i).noMark halive) ?_ ?_ ?_ hold par
    · exact fun par slot cmd cmd' => (hsound par slot).chosen_unique (quorum_pos i)
    · rintro par cmd rfl e he
      exact Chosen.mono hgrows (h.backed_of_mem hpkt e he)
    · rintro par cmd rfl e he hballot
      obtain ⟨v, hv, hc⟩ := h.chosen_of_decide halive (h.backed_of_mem hpkt) hR.2 e he hballot
      exact ⟨v, hv, hc.mono hgrows⟩
  · rw [hreplied.server]
    exact hold par
  · obtain ⟨slot, hserver⟩ := hacts.server par
    rw [startCalls_server, hserver]
    exact ⟨(hold par).committed, (hold par).applied⟩

/-- A step of the cluster is a step of every decision. -/
lemma grows (hG : safeProposals c a) (hstep : c.step a = some c') (par : Fin S) (slot : ℕ) :
    (c.voting par slot).Grows (c'.voting par slot) :=
  grows_of_steps (steps_of_step hG hstep) (h.curEpoch_le (steps_of_step hG hstep))
    (fun _ _ _ _ _ hpkt => h.backed_of_mem hpkt) par slot

lemma step (hG : safeProposals c a) (hstep : c.step a = some c') : AgreementInv c' := by
  have hsteps := steps_of_step hG hstep
  have hgrows := h.grows hG hstep
  have hsound : ∀ par slot, (c'.voting par slot).Sound (quorum n) :=
    fun par slot => sound_of_steps hsteps (fun _ _ hA => hA) (hgrows par slot) (h.sound par slot)
  refine ⟨h.reachable.tail trivial hstep, ?_, ?_, hsound, ?_, h.agrees_step hsteps hgrows hsound⟩
  · refine h.rpc.step hsteps (fun v req rep hv => hv.mono hgrows) ?_
    exact fun src dst id req rep net _ halive _ hrep hc' =>
      h.vouched_handle halive hrep hc' hgrows
  · intro i id req hreq
    rcases hsteps.requestOf hreq with hold | ⟨_, _, _, hacts, halive, -, hmem, hc'⟩
    · exact (h.backed i id req hold).mono hgrows
    · exact h.backed_acts hacts halive hmem hc' hgrows
  · exact fun i halive => (h.voter_step hsteps i halive).mono fun par slot =>
      (hgrows par slot).proposed

end AgreementInv

lemma agreementInv_of_run (h : Lts.Run system safeProposals init c) : AgreementInv c :=
  h.invariant AgreementInv (fun _ _ _ hinv hG hstep => hinv.step hG hstep) agreementInv_init

/-- What a machine has handed over on a stream. -/
abbrev applied (c : Cluster n S) (par : Fin S) (i : Fin n) : List (ℕ × LogEntry) :=
  ((c.machines i).server par).applied

lemma AgreementInv.chosen_of_applied (h : AgreementInv c) {p : ℕ × LogEntry}
    (hp : p ∈ c.applied par i) : c.Chosen par p.1 p.2 :=
  have happlied := (h.agrees i par).applied p hp
  (h.agrees i par).committed p.1 p.2 happlied.1 happlied.2

/-- Two lists that are numbered from 1 on and agree wherever both have a number. -/
lemma isPrefix_of_numbered {α : Type*} {l l' : List (ℕ × α)}
    (hl : l.map Prod.fst = range' 1 l.length) (hl' : l'.map Prod.fst = range' 1 l'.length)
    (hagree : ∀ k v v', (k, v) ∈ l → (k, v') ∈ l' → v = v') (hle : l.length ≤ l'.length) :
    l <+: l' := by
  refine prefix_iff_getElem.mpr ⟨hle, fun k hk => ?_⟩
  have hkey : l[k].1 = l'[k].1 := by
    have h : l[k].1 = 1 + k := by simpa [hk] using congrArg (·[k]?) hl
    have h' : l'[k].1 = 1 + k := by simpa [hk.trans_le hle] using congrArg (·[k]?) hl'
    rw [h, h']
  exact Prod.ext hkey (hagree _ _ _ (getElem_mem hk) (hkey ▸ getElem_mem (hk.trans_le hle)))

lemma AgreementInv.numbered (h : AgreementInv c) (i : Fin n) (par : Fin S) :
    (c.applied par i).map Prod.fst = range' 1 (c.applied par i).length := by
  have horder := (tidy_of_reachable h.reachable i).inOrder par
  rw [horder.length_applied]
  exact horder.slots

/-- The machines apply one log. -/
lemma AgreementInv.isPrefix (hinv : AgreementInv c) (h' : Lts.Run system safeProposals c c')
    (par : Fin S) (i j : Fin n) :
    c.applied par i <+: c'.applied par j ∨ c'.applied par j <+: c.applied par i := by
  -- what is chosen stays chosen
  obtain ⟨hinv', hmono⟩ := h'.invariant
    (fun d => AgreementInv d ∧ ∀ slot cmd, c.Chosen par slot cmd → d.Chosen par slot cmd)
    (fun _ _ _ hd hG hstep => ⟨hd.1.step hG hstep, fun _ _ hc =>
      (hd.2 _ _ hc).mono (hd.1.grows hG hstep)⟩) ⟨hinv, fun _ _ => id⟩
  have hagree : ∀ slot cmd cmd', (slot, cmd) ∈ c.applied par i →
      (slot, cmd') ∈ c'.applied par j → cmd = cmd' :=
    fun slot cmd cmd' hi hj => hinv'.chosen_unique i par slot cmd cmd'
      (hmono _ _ (hinv.chosen_of_applied hi)) (hinv'.chosen_of_applied hj)
  have hi := hinv.numbered i par
  have hj := hinv'.numbered j par
  rcases Nat.le_total (c.applied par i).length (c'.applied par j).length with hle | hle
  · exact .inl (isPrefix_of_numbered hi hj hagree hle)
  · exact .inr (isPrefix_of_numbered hj hi (fun k v v' hv hv' => (hagree k v' v hv' hv).symm) hle)

end Cluster

/-! ## The cluster with its handlers in sections -/

namespace Threads

open Cluster (safeProposals)

/-- What a machine has handed over on a stream. -/
abbrev applied (s : Threads n S) (par : Fin S) (i : Fin n) : List (ℕ × LogEntry) :=
  ((s.machines i).server par).applied

/-- In every run in which handlers are not disturbed, every proposal is safe, every acceptor keeps
its promise and every `BulkCommit` finds a vote at its ballot: two machines that hand a slot to
`app_next_` hand over the same command, and no `committed_cmd_` that was handed over is ever
replaced. Both are said of machines between two handlers. -/
theorem slot_agreement {s : Threads n S} (h : Lts.Run system (serial safeProposals) init s)
    (par : Fin S) :
    (∀ i ∉ s.busy, ∀ j ∉ s.busy, ∀ slot cmd cmd', (slot, cmd) ∈ s.applied par i →
      (slot, cmd') ∈ s.applied par j → cmd = cmd') ∧
    ∀ i ∉ s.busy, ∀ slot cmd, (slot, cmd) ∈ s.applied par i →
      (((s.machines i).server par).logs slot).committedCmd = some cmd := by
  have hinv := Cluster.agreementInv_of_run (run_settled h nodup_nil).2
  refine ⟨fun i hi j hj slot cmd cmd' hcmd hcmd' => ?_, fun i hi slot cmd hcmd => ?_⟩
  · rw [applied, ← settled_of_notMem hi] at hcmd
    rw [applied, ← settled_of_notMem hj] at hcmd'
    exact hinv.chosen_unique i par slot cmd cmd' (hinv.chosen_of_applied hcmd)
      (hinv.chosen_of_applied hcmd')
  · rw [applied, ← settled_of_notMem hi] at hcmd
    rw [← settled_of_notMem hi]
    exact ((hinv.agrees i par).applied _ hcmd).1

/-- Machines 0 and 1 both hand over slot 1. -/
theorem slot_agreement_two : ∃ s : Threads 3 1, Lts.Run system (serial safeProposals) init s ∧
    0 ∉ s.busy ∧ 1 ∉ s.busy ∧ (1, ⟨[7]⟩) ∈ s.applied 0 0 ∧ 1 ∈ (s.applied 0 1).map Prod.fst ∧
    ∀ cmd, (1, cmd) ∈ s.applied 0 1 → cmd = ⟨[7]⟩ := by
  obtain ⟨c, hrun, hzero, hone⟩ := Lts.exists_run_of_execGuarded Cluster.system safeProposals
    (Cluster.init : Cluster 3 1)
    [.act 0 (.addLogToNc 0 ⟨[7]⟩), .act 0 (.bulkSubmit 0 0), .deliver 0, .deliver 0, .deliver 1,
      .deliver 1, .act 0 (.acceptReturns 0), .deliver 1, .deliver 1]
    (fun c => (1, ⟨[7]⟩) ∈ c.applied 0 0 ∧ 1 ∈ (c.applied 0 1).map Prod.fst) (by decide +kernel)
  have hidle := notMem_busy_ofCluster c
  exact ⟨ofCluster c, run_ofCluster hrun, hidle 0, hidle 1, hzero, hone, fun cmd hcmd =>
    (slot_agreement (run_ofCluster hrun) 0).1 1 (hidle 1) 0 (hidle 0) 1 cmd ⟨[7]⟩ hcmd hzero⟩

/-- Slot 1 of the leader of epoch 2 is accepted by machines 0 and 1, and machine 0 commits it and
hands it over. Machine 2 wins epoch 3 with machine 1. Nobody it asks has slot 1 committed, so
`send_no_ops_for_mark` takes slot 1 for its own log; machines 1 and 2 accept it and machine 2
hands it over. When machine 0 hears of it, it replaces the command it has handed over. -/
theorem slot_agreement_fails : ∃ s : Threads 3 1, Lts.Reachable system s ∧
    (1, ⟨[7]⟩) ∈ s.applied 0 0 ∧ (1, Machine.noOpMark 3) ∈ s.applied 0 2 ∧
    (((s.machines 0).server 0).logs 1).committedCmd ≠ some ⟨[7]⟩ := by
  obtain ⟨c, hreach, hc⟩ := Lts.exists_reachable_of_exec
    (Cluster.system : Lts.System (Cluster 3 1) _)
    -- slot 1 is chosen in epoch 2
    [.act 0 .heartbeatTick, .deliver 1, .deliver 1, .act 0 (.addLogToNc 0 ⟨[7]⟩),
      .act 0 (.bulkSubmit 0 0), .deliver 3, .deliver 3, .deliver 4, .deliver 4,
      .act 0 (.acceptReturns 1), .deliver 4,
      -- machine 2 wins epoch 3 and goes through the whole failover
      .act 2 .electionTimeout, .deliver 8, .deliver 8, .deliver 8, .deliver 8,
      .act 2 .prepareReturns, .act 2 .electionWakes, .act 2 .stuffTodoLeaderElection,
      .act 2 .sendSyncLogs, .deliver 9, .deliver 9, .deliver 9, .deliver 9,
      .act 2 .syncLogReturns, .act 2 .sendNoOps, .deliver 10, .deliver 10, .deliver 10,
      .deliver 10, .act 2 .noOpsReturn,
      -- its mark takes slot 1
      .act 2 .sendNoOpMark, .act 2 (.bulkSubmit 0 0), .deliver 11, .deliver 11, .deliver 11,
      .deliver 11, .act 2 (.acceptReturns 3), .deliver 13,
      -- machine 0 accepts and commits it too
      .deliver 10, .deliver 10]
    (fun c => (1, ⟨[7]⟩) ∈ c.applied 0 0 ∧ (1, Machine.noOpMark 3) ∈ c.applied 0 2 ∧
      (((c.machines 0).server 0).logs 1).committedCmd ≠ some ⟨[7]⟩) (by decide +kernel)
  exact ⟨ofCluster c, reachable_ofCluster hreach, hc⟩

/-- In the same runs the machines apply one log: of what a machine has handed over and what any
machine has handed over then or later, one is the beginning of the other. -/
theorem applied_one_log {s s' : Threads n S} (h : Lts.Run system (serial safeProposals) init s)
    (h' : Lts.Run system (serial safeProposals) s s') (par : Fin S) {i j : Fin n}
    (hi : i ∉ s.busy) (hj : j ∉ s'.busy) :
    s.applied par i <+: s'.applied par j ∨ s'.applied par j <+: s.applied par i := by
  obtain ⟨hnd, hrun⟩ := run_settled h nodup_nil
  have hprefix := (Cluster.agreementInv_of_run hrun).isPrefix (run_settled h' hnd).2 par i j
  rwa [Cluster.applied, Cluster.applied, settled_of_notMem hi, settled_of_notMem hj] at hprefix

/-- Machine 0 hands over slot 1, and machine 1 does so later. -/
theorem applied_one_log_two : ∃ s s' : Threads 3 1, Lts.Run system (serial safeProposals) init s ∧
    Lts.Run system (serial safeProposals) s s' ∧ s.applied 0 0 = [(1, ⟨[7]⟩)] ∧
    s.applied 0 0 <+: s'.applied 0 1 := by
  obtain ⟨c, hrun, hzero, c', hc', hone⟩ := Lts.exists_run_of_execGuarded Cluster.system
    safeProposals (Cluster.init : Cluster 3 1)
    [.act 0 (.addLogToNc 0 ⟨[7]⟩), .act 0 (.bulkSubmit 0 0), .deliver 0, .deliver 0, .deliver 1,
      .deliver 1, .act 0 (.acceptReturns 0), .deliver 1]
    (fun c => c.applied 0 0 = [(1, ⟨[7]⟩)] ∧
      ∃ c' ∈ Lts.execGuarded Cluster.system safeProposals c [.deliver 1],
        (c'.applied 0 1).length = 1) (by decide +kernel)
  have h := run_ofCluster hrun
  have h' := run_ofCluster (Lts.Run.of_execGuarded _ hc')
  refine ⟨ofCluster c, ofCluster c', h, h', hzero, (applied_one_log h h' 0
    (notMem_busy_ofCluster c 0) (notMem_busy_ofCluster c' 1)).elim id fun hle => ?_⟩
  rw [hle.eq_of_length (hone.trans (congrArg length hzero).symm)]

end Threads

end Rolis.Paxos
