import Rolis.Paxos.NoOps

/-!
# The promise of an acceptor

Two epochs stand on one machine: `ElectionState::cur_epoch`, which the election handlers compare
with, and `PaxosServer::cur_epoch` of each stream, which they overwrite and which the accept and
commit handlers compare with and raise. An accepted ballot raises the second and not the first,
so a later prepare or heartbeat can pass the election check and lower the epoch of the streams.

The promise is kept along a sequence of requests exactly when that never happens
(`keepsPromise_iff`): every prepare and heartbeat that is let through has at least the epoch of
every stream.
-/

namespace Rolis.Paxos

variable {n S ballot : ℕ} {m m' : Machine n S} {par : Fin S} {epoch : ℕ} {req : Request n S}

namespace Machine

/-- Neither the epoch of a stream nor the accepted ballot of a slot is lower in `m'`. -/
def KeepsPromise (m m' : Machine n S) : Prop :=
  ∀ i, (m.server i).curEpoch ≤ (m'.server i).curEpoch ∧
    ∀ slot, ((m.server i).logs slot).maxBallotAccepted ≤
      ((m'.server i).logs slot).maxBallotAccepted

lemma KeepsPromise.trans {m'' : Machine n S} (h : m.KeepsPromise m') (h' : m'.KeepsPromise m'') :
    m.KeepsPromise m'' :=
  fun i => ⟨(h i).1.trans (h' i).1, fun slot => ((h i).2 slot).trans ((h' i).2 slot)⟩

lemma keepsPromise_of_server_eq (h : ∀ i, (m'.server i).curEpoch = (m.server i).curEpoch ∧
      (m'.server i).logs = (m.server i).logs) : m.KeepsPromise m' :=
  fun i => ⟨(h i).1.ge, fun slot => by rw [(h i).2]⟩

/-- A prepare or heartbeat that passes the check against `ElectionState::cur_epoch` has at least
the epoch of every stream. -/
def Honours (m : Machine n S) : Request n S → Prop
  | .bulkPrepare bpLog => m.Grants bpLog → ∀ i, (m.server i).curEpoch ≤ bpLog.epoch
  | .heartbeat hbLog => m.es.curEpoch < hbLog.epoch → ∀ i, (m.server i).curEpoch ≤ hbLog.epoch
  | _ => True

instance (m : Machine n S) : DecidablePred m.Honours
  | .bulkPrepare bpLog => inferInstanceAs (Decidable (m.Grants bpLog → ∀ _, _))
  | .heartbeat hbLog => inferInstanceAs (Decidable (m.es.curEpoch < hbLog.epoch → ∀ _, _))
  | .syncLog _ | .syncCommit _ _ | .syncNoOps _ | .bulkAccept _ _ | .bulkDecide _ _ =>
    isTrue trivial

/-- The streams of a machine agree on the epoch, and no slot has accepted a higher ballot. -/
structure Uniform (m : Machine n S) : Prop where
  same : ∀ i j, (m.server i).curEpoch = (m.server j).curEpoch
  bound : ∀ i slot, ((m.server i).logs slot).maxBallotAccepted ≤ (m.server i).curEpoch

namespace Uniform

variable (h : m.Uniform)

include h

lemma of_server_eq (heq : ∀ i, (m'.server i).curEpoch = (m.server i).curEpoch ∧
      (m'.server i).logs = (m.server i).logs) : m'.Uniform where
  same i j := by rw [(heq i).1, (heq j).1, h.same i j]
  bound i slot := by
    rw [(heq i).1, (heq i).2]
    exact h.bound i slot

/-- A machine with the same streams keeps the promise. -/
lemma same_server (heq : ∀ i, m'.server i = m.server i) : m'.Uniform ∧ m.KeepsPromise m' := by
  have hfields : ∀ i, (m'.server i).curEpoch = (m.server i).curEpoch ∧
      (m'.server i).logs = (m.server i).logs := fun i => by rw [heq]; exact ⟨rfl, rfl⟩
  exact ⟨h.of_server_eq hfields, keepsPromise_of_server_eq hfields⟩

/-- All streams take one new epoch that is not below the old one. -/
lemma of_epoch (hle : ∀ i, (m.server i).curEpoch ≤ epoch)
    (heq : ∀ i, (m'.server i).curEpoch = epoch ∧ (m'.server i).logs = (m.server i).logs) :
    m'.Uniform where
  same i j := by rw [(heq i).1, (heq j).1]
  bound i slot := by
    rw [(heq i).1, (heq i).2]
    exact (h.bound i slot).trans (hle i)

lemma adoptBallot_curEpoch (hle : (m.server par).curEpoch ≤ ballot) (leader : Fin n) (i : Fin S) :
    ((m.adoptBallot par leader ballot).server i).curEpoch = ballot := by
  rw [adoptBallot_server]
  split
  · rfl
  · have := h.same i par
    omega

/-- The head of the loop body keeps the promise. -/
lemma adoptBallot (hle : (m.server par).curEpoch ≤ ballot) (leader : Fin n) :
    (m.adoptBallot par leader ballot).Uniform ∧
      m.KeepsPromise (m.adoptBallot par leader ballot) := by
  have hepoch := h.adoptBallot_curEpoch hle leader
  have hall : ∀ i, (m.server i).curEpoch ≤ ballot := fun i => h.same i par ▸ hle
  refine ⟨h.of_epoch hall fun i => ⟨hepoch i, adoptBallot_logs ..⟩, fun i => ⟨?_, fun slot => ?_⟩⟩
  · rw [hepoch i]
    exact hall i
  · rw [adoptBallot_logs]

/-- Writing the current epoch as accepted ballot of one slot keeps the promise. -/
lemma setServer {ps : PaxosServer n} {slot : ℕ} {d : PaxosData}
    (hepoch : ps.curEpoch = (m.server par).curEpoch)
    (hlogs : ps.logs = Function.update (m.server par).logs slot d)
    (hd : d.maxBallotAccepted = (m.server par).curEpoch) :
    (m.setServer par ps).Uniform ∧ m.KeepsPromise (m.setServer par ps) := by
  have hsame : ∀ i, ((m.setServer par ps).server i).curEpoch = (m.server i).curEpoch := by
    intro i
    rw [server_setServer]
    split
    · next hi => rw [hepoch, hi]
    · rfl
  -- every slot keeps its ballot or gets the current epoch
  have hslot : ∀ i s, (((m.setServer par ps).server i).logs s).maxBallotAccepted =
        ((m.server i).logs s).maxBallotAccepted ∨
      (((m.setServer par ps).server i).logs s).maxBallotAccepted = (m.server i).curEpoch := by
    intro i s
    rw [server_setServer]
    split
    · next hi =>
      rw [hlogs, hi, Function.update_apply]
      split
      · exact .inr hd
      · exact .inl rfl
    · exact .inl rfl
  refine ⟨⟨fun i j => ?_, fun i s => ?_⟩, fun i => ⟨(hsame i).ge, fun s => ?_⟩⟩
  · rw [hsame, hsame, h.same i j]
  · rw [hsame]
    rcases hslot i s with hs | hs
    · exact hs ▸ h.bound i s
    · exact hs.le
  · rcases hslot i s with hs | hs
    · exact hs.ge
    · exact hs ▸ h.bound i s

/-- A bulk handler keeps the promise when each of its writes does, at the epoch of the streams
it finds. -/
lemma bulkHandler {α : Type} {ballotOf : α → ℕ} {write : Machine n S → α → Machine n S}
    {finish : PaxosServer n → PaxosServer n} {leader : Fin n} {entries : List α}
    (halive : m.aborted = none)
    (hwrite : ∀ (m' : Machine n S) e, m'.Uniform → (m'.server par).curEpoch = ballotOf e →
      (write m' e).Uniform ∧ m'.KeepsPromise (write m' e))
    (hfinish : ∀ ps, (finish ps).curEpoch = ps.curEpoch ∧ (finish ps).logs = ps.logs) :
    (bulkHandler ballotOf write finish par leader entries m).1.Uniform ∧
      m.KeepsPromise (bulkHandler ballotOf write finish par leader entries m).1 := by
  refine bulkHandler_inv (fun m' => m'.Uniform ∧ m.KeepsPromise m') (h.same_server fun _ => rfl)
    halive (fun _ => h.same_server fun _ => rfl) (h.same_server fun _ => seeLeader_server ..)
    ?_ ?_
  · rintro e _ m' ⟨hm', hkeeps⟩ _ hle
    obtain ⟨hadopt, hkeeps'⟩ := hm'.adoptBallot hle leader
    obtain ⟨hwritten, hkeeps''⟩ :=
      hwrite _ e hadopt (hm'.adoptBallot_curEpoch hle leader par)
    exact ⟨hwritten, (hkeeps.trans hkeeps').trans hkeeps''⟩
  · rintro m' ⟨hm', hkeeps⟩ _
    have heq : ∀ i, ((m'.setServer par (finish (m'.server par))).server i).curEpoch =
        (m'.server i).curEpoch ∧
        ((m'.setServer par (finish (m'.server par))).server i).logs = (m'.server i).logs := by
      intro i
      rw [server_setServer]
      split
      · next hi => rw [hi]; exact hfinish _
      · exact ⟨rfl, rfl⟩
    exact ⟨hm'.of_server_eq heq, hkeeps.trans (keepsPromise_of_server_eq heq)⟩

lemma acceptEntry {e : PaxosEntry} (he : (m.server par).curEpoch = e.ballot) :
    (m.acceptEntry par e).Uniform ∧ m.KeepsPromise (m.acceptEntry par e) := by
  have hserver : ∀ i, (m.acceptEntry par e).server i =
      (m.setServer par ((m.server par).accept e)).server i := fun _ => rfl
  obtain ⟨hset, hkeeps⟩ : (m.setServer par ((m.server par).accept e)).Uniform ∧
        m.KeepsPromise (m.setServer par ((m.server par).accept e)) :=
    h.setServer rfl rfl he.symm
  obtain ⟨huniform, hkeeps'⟩ := hset.same_server hserver
  exact ⟨huniform, hkeeps.trans hkeeps'⟩

lemma commit {slot ballot : ℕ} (cmd : Option LogEntry) (hb : (m.server par).curEpoch = ballot) :
    (m.setServer par ((m.server par).commit slot ballot cmd)).Uniform ∧
      m.KeepsPromise (m.setServer par ((m.server par).commit slot ballot cmd)) :=
  h.setServer rfl rfl hb.symm

/-- All streams taking an epoch that is not below theirs keeps the promise. -/
lemma raise (hle : ∀ i, (m.server i).curEpoch ≤ epoch)
    (heq : ∀ i, (m'.server i).curEpoch = epoch ∧ (m'.server i).logs = (m.server i).logs) :
    m'.Uniform ∧ m.KeepsPromise m' := by
  refine ⟨h.of_epoch hle heq, fun i => ⟨?_, fun slot => ?_⟩⟩
  · rw [(heq i).1]
    exact hle i
  · rw [(heq i).2]

/-- A request that honours the epochs of the streams keeps the promise. -/
lemma handle (halive : m.aborted = none)
    (hle : ∀ i, (m.server i).maxExecutedSlot ≤ (m.server i).maxCommittedSlot)
    (hok : (m.handle req).1.aborted = none) (hon : m.Honours req) :
    (m.handle req).1.Uniform ∧ m.KeepsPromise (m.handle req).1 := by
  cases req with
  | bulkPrepare bpLog =>
    rw [Machine.handle]
    obtain ⟨-, heq⟩ | ⟨-, heq⟩ | ⟨hg, heq⟩ := m.onBulkPrepare_cases bpLog <;> rw [heq]
    · exact h.same_server fun _ => rfl
    · exact h.same_server fun _ => rfl
    · exact h.raise (hon hg) fun i => by rw [grantPrepare_server]; exact ⟨rfl, rfl⟩
  | heartbeat hbLog =>
    rw [Machine.handle]
    obtain ⟨-, heq⟩ | ⟨-, heq⟩ | ⟨-, heq⟩ | ⟨hlt, heq⟩ := m.onHeartbeat_cases hbLog <;> rw [heq]
    · exact h.same_server fun _ => rfl
    · exact h.same_server fun _ => rfl
    · exact h.same_server fun _ => seeLeader_server ..
    · exact h.raise (hon hlt) fun i => ⟨rfl, rfl⟩
  | syncLog req =>
    rw [Machine.handle, onSyncLog_machine]
    exact h.same_server fun _ => rfl
  | syncCommit par cmd =>
    refine h.bulkHandler halive (fun m' e hm' he => ?_) fun ps => ⟨by simp, by simp⟩
    unfold syncCommitEntry
    split
    · exact hm'.commit _ he
    · exact hm'.same_server fun _ => rfl
  | syncNoOps req =>
    rcases onSyncNoOps_server halive hok with hid | hall
    · rw [Machine.handle, hid]
      exact h.same_server fun _ => rfl
    · have heq : ∀ i, ((m.onSyncNoOps req).1.server i).curEpoch = (m.server i).curEpoch ∧
          ((m.onSyncNoOps req).1.server i).logs = (m.server i).logs := by
        intro i
        rw [(hall i).2]
        exact (PaxosServer.syncNoOps_logs (hle i) (hall i).1).symm
      exact ⟨h.of_server_eq heq, keepsPromise_of_server_eq heq⟩
  | bulkAccept par cmd =>
    exact h.bulkHandler halive (fun m' e hm' he => hm'.acceptEntry he) fun ps => ⟨rfl, rfl⟩
  | bulkDecide par cmd =>
    refine h.bulkHandler halive (fun m' e hm' he => ?_) fun ps => ⟨by simp, by simp⟩
    unfold bulkCommitEntry
    split
    · exact hm'.commit _ he
    · exact hm'.same_server fun _ => rfl

end Uniform

/-- Conversely, a prepare or heartbeat that is let through and keeps the promise honours the
epochs of the streams. -/
lemma KeepsPromise.honours (hok : (m.handle req).1.aborted = none)
    (h : m.KeepsPromise (m.handle req).1) : m.Honours req := by
  cases req with
  | bulkPrepare bpLog =>
    intro hg i
    rw [handle] at h hok
    obtain ⟨hng, -⟩ | ⟨-, heq⟩ | ⟨-, heq⟩ := m.onBulkPrepare_cases bpLog
    · exact absurd hg hng
    · rw [heq] at hok
      cases hok
    · rw [heq] at h
      have hi := (h i).1
      rwa [grantPrepare_server] at hi
  | heartbeat hbLog =>
    intro hlt i
    rw [handle] at h
    obtain ⟨hlt', -⟩ | ⟨heq', -⟩ | ⟨heq', -⟩ | ⟨-, heq⟩ := m.onHeartbeat_cases hbLog
    · omega
    · omega
    · omega
    · rw [heq] at h
      exact (h i).1
  | syncLog _ | syncCommit _ _ | syncNoOps _ | bulkAccept _ _ | bulkDecide _ _ => trivial

lemma uniform_init (i : Fin n) : (Machine.init i : Machine n S).Uniform where
  same _ _ := by rw [init_server, init_server]
  bound _ _ := by rw [init_server]

end Machine

/-- Along every sequence of requests from the start of a machine, the epochs of the streams and
the accepted ballots of the slots never decrease exactly when every prepare and heartbeat that
is let through honours the epochs of the streams. -/
theorem keepsPromise_iff (i : Fin n) (reqs : List (Request n S)) :
    Lts.Along (Machine.replica i) (fun m _ m' => m.KeepsPromise m') (Machine.init i) reqs ↔
      Lts.Along (Machine.replica i) (fun m req _ => m.Honours req) (Machine.init i) reqs := by
  refine Lts.along_iff
    (fun m => (m.aborted = none ∧ ∀ par, (m.server par).InOrder) ∧ m.Uniform) ?_ ?_ reqs
    ⟨inOrder_init i, Machine.uniform_init i⟩
  · rintro m req m' ⟨⟨halive, horder⟩, huniform⟩ hstep
    obtain ⟨hok, rfl⟩ := Machine.replica_step hstep
    exact ⟨fun h => h.honours hok,
      fun hon => (huniform.handle halive (fun par => (horder par).le) hok hon).2⟩
  · rintro m req m' ⟨horder, huniform⟩ hstep hon
    refine ⟨inOrder_step horder hstep, ?_⟩
    obtain ⟨hok, rfl⟩ := Machine.replica_step hstep
    exact (huniform.handle horder.1 (fun par => (horder.2 par).le) hok hon).1

/-- An accept with ballot 5 raises the stream but not the election state, which then lets a
prepare with epoch 3 through; an accept with ballot 3 overwrites the accepted ballot 5. -/
theorem promise_broken : ∃ m : Machine 3 1, Lts.Reachable (Machine.replica 1) m ∧
    ∃ m' ∈ (Machine.replica 1).step m (.bulkPrepare ⟨fun _ => (0, 1), 2, 3⟩),
      (m'.server 0).curEpoch < (m.server 0).curEpoch ∧
      ∃ m'' ∈ (Machine.replica 1).step m' (.bulkAccept 0 ⟨2, [⟨1, 3, ⟨[30]⟩⟩]⟩),
        ((m''.server 0).logs 1).maxBallotAccepted <
          ((m.server 0).logs 1).maxBallotAccepted :=
  Lts.exists_reachable_of_exec (Machine.replica 1) [.bulkAccept 0 ⟨0, [⟨1, 5, ⟨[50]⟩⟩]⟩] _
    (by decide +kernel)

end Rolis.Paxos
