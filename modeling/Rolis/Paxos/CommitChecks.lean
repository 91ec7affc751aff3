import Rolis.Lib.Fifo
import Rolis.Paxos.HoleFilling
import Rolis.Paxos.Promise
import Rolis.Paxos.Rpc
import Rolis.Paxos.Threads

/-!
# The checks of the commit handlers

`OnBulkCommit` verifies that the slot has accepted exactly the ballot it commits, `OnSyncCommit`
that it has accepted no higher one. The sender broadcasts a commit after the accept it belongs
to, on the same connections; so where a connection delivers in order and loses nothing, every
machine has handled the accept before the commit arrives.

What can come in between is another leader. A prepare or heartbeat that lowers the epoch of a
stream (see `Promise`) lets the accept of an older epoch overwrite the slot, and the commit of the
newer epoch then fails its check (`commit_check_fails`). An accept of another stream that is
disturbed between its check and its loop over the streams lowers them too. Without either both
checks hold in every run (`commit_checks_hold`).
-/

namespace Rolis.Paxos

open List Machine

variable {n S k : ℕ} {m m' : Machine n S} {c c' : Cluster n S} {par : Fin S} {cmd : PaxosPrepCmd n}
  {src i : Fin n} {P : Cluster n S → Fin n → ℕ → Reply S → Prop}
  {A : Cluster n S → Fin n → Input n S → Prop}

/-- The stream over which a request goes; `none` is the election channel. -/
def Request.channel : Request n S → Option (Fin S)
  | .syncCommit par _ | .bulkAccept par _ | .bulkDecide par _ => some par
  | .bulkPrepare _ | .heartbeat _ | .syncLog _ | .syncNoOps _ => none

/-- The direction of a connection on which a packet travels. The replies to the requests of a
machine come back over the connection of the requests, so they are not ordered with the requests
that their sender makes on its own connections. -/
def Packet.connection : Packet n S → Bool × Fin n × Fin n × Option (Fin S)
  | .request src dst _ req => (false, src, dst, req.channel)
  | .reply src dst _ req _ => (true, src, dst, req.channel)

namespace Machine

/-- The `verify` of neither commit handler has failed. -/
def CommitChecked (m : Machine n S) : Prop :=
  m.aborted ≠ some .syncCommitBallot ∧ m.aborted ≠ some .bulkCommitBallot

lemma commitChecked_of_alive (h : m.aborted = none) : m.CommitChecked := by
  simp [CommitChecked, h]

/-- The stream has accepted the slot with this ballot or a higher one, or has a higher epoch. -/
def Settled (m : Machine n S) (par : Fin S) (slot ballot : ℕ) : Prop :=
  ballot < (m.server par).curEpoch ∨ ballot ≤ ((m.server par).logs slot).maxBallotAccepted

lemma Settled.of_keepsPromise {slot ballot : ℕ} (h : m.Settled par slot ballot)
    (hkeeps : m.KeepsPromise m') : m'.Settled par slot ballot :=
  h.imp (fun h => h.trans_le (hkeeps par).1) fun h => h.trans ((hkeeps par).2 slot)

/-- An accept that a machine has handled is settled there. -/
lemma settled_onBulkAccept (par : Fin S) (leader : Fin n) (e : PaxosEntry)
    (halive : m.aborted = none) :
    (m.onBulkAccept par ⟨leader, [e]⟩).1.Settled par e.slot e.ballot := by
  by_cases hlt : e.ballot < (m.server par).curEpoch
  · have heq : m.onBulkAccept par ⟨leader, [e]⟩ = (m, some (reject (m.server par).curEpoch)) :=
      if_pos hlt
    rw [heq]
    exact .inl hlt
  · let m' := acceptEntry par ((m.seeLeader leader).adoptBallot par leader e.ballot) e
    have halive' : m'.aborted = none := by simpa [m', acceptEntry] using halive
    have heq : (m.onBulkAccept par ⟨leader, [e]⟩).1 = m'.setServer par (m'.server par) := by
      simp [onBulkAccept, bulkHandler, bulkLoop, hlt, m', halive']
    rw [heq, Settled, server_setServer_self]
    simp [m', PaxosServer.accept]

/-! ## What the handlers verify -/

section Handlers

variable {leader : Fin n}

/-- The check of `OnBulkCommit` holds for a slot that is settled. -/
lemma Uniform.onBulkCommit_checked (h : m.Uniform) (halive : m.aborted = none) {e : SlotBallot}
    (hset : m.Settled par e.slot e.ballot) :
    (m.onBulkCommit par ⟨leader, [e]⟩).1.CommitChecked := by
  unfold onBulkCommit
  -- the slot keeps its ballot up to the check
  refine (bulkHandler_inv (fun m' => m'.CommitChecked ∧ (m'.aborted = none →
      ((m'.server par).logs e.slot).maxBallotAccepted =
        ((m.server par).logs e.slot).maxBallotAccepted ∧
      (m.server par).curEpoch ≤ (m'.server par).curEpoch))
    ⟨commitChecked_of_alive halive, fun _ => ⟨rfl, le_refl _⟩⟩ halive (by simp) ?_ ?_ ?_).1
  · exact ⟨commitChecked_of_alive (by simpa using halive), fun _ => by simp⟩
  · rintro e' he' m' ⟨-, hsame⟩ halive' hle
    obtain rfl := mem_singleton.mp he'
    obtain ⟨hballot, hepoch⟩ := hsame halive'
    have hbound := h.bound par e'.slot
    have heq : ((m'.server par).logs e'.slot).maxBallotAccepted = e'.ballot := by
      rcases hset with hset | hset <;> omega
    unfold bulkCommitEntry
    rw [if_pos (by rw [adoptBallot_logs]; exact heq)]
    refine ⟨commitChecked_of_alive (by simpa using halive'), fun _ => ?_⟩
    rw [server_setServer_self]
    refine ⟨?_, hepoch.trans (curEpoch_le_adoptBallot m' par leader e'.ballot)⟩
    simp only [PaxosServer.commit, Function.update_self]
    rw [← hballot, heq]
  · rintro m' ⟨-, hsame⟩ halive'
    exact ⟨commitChecked_of_alive (by simpa using halive'), fun _ => by simpa using hsame halive'⟩

/-- The check of `OnSyncCommit` holds: what a slot has accepted is not above the epoch. -/
lemma Uniform.onSyncCommit_checked (h : m.Uniform) (halive : m.aborted = none)
    (cmd : BulkPaxosCmd n) : (m.onSyncCommit par cmd).1.CommitChecked := by
  unfold onSyncCommit
  refine (bulkHandler_inv (fun m' => m'.CommitChecked ∧ (m'.aborted = none → m'.Uniform))
    ⟨commitChecked_of_alive halive, fun _ => h⟩ halive (fun _ => by simp [CommitChecked])
    ?_ ?_ ?_).1
  · exact ⟨commitChecked_of_alive (by simpa using halive),
      fun _ => (h.same_server fun _ => seeLeader_server ..).1⟩
  · rintro e - m' ⟨-, hu⟩ halive' hle
    have hadopt := ((hu halive').adoptBallot hle cmd.leaderId).1
    have hepoch := (hu halive').adoptBallot_curEpoch hle cmd.leaderId par
    unfold syncCommitEntry
    have hle' := hadopt.bound par e.slot
    rw [hepoch] at hle'
    rw [if_pos hle']
    exact ⟨commitChecked_of_alive (by simpa using halive'), fun _ => (hadopt.commit _ hepoch).1⟩
  · rintro m' ⟨-, hu⟩ halive'
    refine ⟨commitChecked_of_alive (by simpa using halive'), fun _ => ?_⟩
    refine (hu halive').of_server_eq fun i => ?_
    rw [server_setServer]
    split
    · next hi => rw [hi]; simp
    · exact ⟨rfl, rfl⟩

/-- No handler fails a check of the commit handlers, as long as what it commits is settled. -/
lemma handle_checked (h : m.Uniform) (halive : m.aborted = none) {req : Request n S}
    (hset : ∀ par cmd, req = .bulkDecide par cmd →
      ∃ e, cmd.entries = [e] ∧ m.Settled par e.slot e.ballot) :
    (m.handle req).1.CommitChecked := by
  -- the other handlers do not have these checks
  have hother : .syncCommitBallot ∉ req.sites → .bulkCommitBallot ∉ req.sites →
      (m.handle req).1.CommitChecked :=
    fun hsync hbulk => ⟨fun h => hsync (handle_aborted halive h),
      fun h => hbulk (handle_aborted halive h)⟩
  cases req with
  | syncCommit par cmd => exact h.onSyncCommit_checked halive cmd
  | bulkDecide par cmd =>
    obtain ⟨e, he, hsettled⟩ := hset par cmd rfl
    obtain ⟨leader, entries⟩ := cmd
    obtain rfl : entries = [e] := he
    exact h.onBulkCommit_checked halive hsettled
  | _ => exact hother (by simp [Request.sites]) (by simp [Request.sites])

end Handlers

/-! ## What is sent -/

section Sent

variable {input : Input n S} {reqs : List (Request n S)}

/-- `BulkSubmit` sends its logs one by one. -/
lemma Acts.entries_of_bulkAccept (h : Acts m input m' reqs) {cmd : BulkPaxosCmd n}
    (hmem : .bulkAccept par cmd ∈ reqs) : ∃ e, cmd.entries = [e] := by
  cases h with
  | bulkSubmit _ =>
    obtain ⟨-, rfl⟩ := Request.bulkAccept.inj (mem_singleton.mp hmem)
    exact ⟨_, rfl⟩
  | syncLogYes _ _ => simp [syncCommits] at hmem
  | _ => simp at hmem

/-- A commit belongs to an accept of the same machine. -/
lemma Acts.accept_of_bulkDecide (h : Acts m input m' reqs) (hmem : .bulkDecide par cmd ∈ reqs) :
    ∃ id bulk, m.requestOf id = some (.bulkAccept par bulk) ∧
      cmd.entries = bulk.entries.map fun e => ⟨e.slot, e.ballot⟩ := by
  cases h with
  | @acceptYes id call par' bulk hcall hreq =>
    obtain ⟨rfl, rfl⟩ := Request.bulkDecide.inj (mem_singleton.mp hmem)
    exact ⟨id, bulk, requestOf_eq_some.mpr ⟨call, (awaited_eq_some hcall).1, hreq⟩, rfl⟩
  | syncLogYes _ _ => simp [syncCommits] at hmem
  | _ => simp at hmem

lemma Acts.commitChecked (h : Acts m input m' reqs) (hm : m.CommitChecked) : m'.CommitChecked := by
  unfold CommitChecked
  rcases h.aborted with heq | heq <;> rw [heq]
  · exact hm
  · simp

lemma Replied.commitChecked {id : ℕ} {rep : Reply S} (h : Replied m src id rep m')
    (hm : m.CommitChecked) : m'.CommitChecked := by
  unfold CommitChecked
  rcases h.aborted with heq | heq <;> rw [heq]
  · exact hm
  · simp

end Sent

end Machine

/-! ## Connections that deliver in order -/

namespace Cluster

/-- Nothing is lost, and a packet is delivered when it is the first of its connection. -/
def inOrder (c : Cluster n S) : Action n S → Prop
  | .deliver k => Fifo.First Packet.connection c.net k
  | .drop _ => False
  | .act _ _ => True

instance (c : Cluster n S) : DecidablePred c.inOrder
  | .deliver k => inferInstanceAs (Decidable (Fifo.First Packet.connection c.net k))
  | .drop _ => isFalse id
  | .act _ _ => isTrue trivial

/-- No prepare or heartbeat lowers the epoch of a stream. -/
def honouring : Cluster n S → Action n S → Prop :=
  guard (fun c dst req => (c.machines dst).Honours req) (fun _ _ _ _ => True) fun _ _ _ => True

instance (c : Cluster n S) : DecidablePred c.honouring :=
  inferInstanceAs (DecidablePred (guard (fun c dst req => (c.machines dst).Honours req)
    (fun _ _ _ _ => True) (fun _ _ _ => True) c))

/-- What a step over connections that deliver in order can do, with the packets in their
order. -/
inductive InOrderSteps (c : Cluster n S) : Cluster n S → Prop
  | request {k : ℕ} {src dst : Fin n} {id : ℕ} {req : Request n S} :
      c.net[k]? = some (.request src dst id req) → Fifo.First Packet.connection c.net k →
      (c.machines dst).aborted = none →
      InOrderSteps c (c.move dst ((c.machines dst).handle req).1
        (c.net.eraseIdx k ++
          ((c.machines dst).handle req).2.toList.map (.reply dst src id req)))
  | reply {k : ℕ} {src dst : Fin n} {id : ℕ} {req : Request n S} {rep : Reply S}
      {m : Machine n S} :
      c.net[k]? = some (.reply src dst id req rep) → (c.machines dst).Replied src id rep m →
      InOrderSteps c (c.move dst m (c.net.eraseIdx k))
  | input {i : Fin n} {input : Input n S} {m : Machine n S} {reqs : List (Request n S)} :
      (c.machines i).Acts input m reqs →
      InOrderSteps c (c.move i (m.startCalls reqs) (c.net ++ broadcast i m.nextCall reqs))

/-- A broadcast reaches every machine. -/
lemma request_mem_broadcast {first k : ℕ} {reqs : List (Request n S)} {req : Request n S}
    (h : reqs[k]? = some req) (dst : Fin n) :
    .request src dst (first + k) req ∈ broadcast src first reqs := by
  unfold broadcast
  refine mem_flatMap.mpr ⟨(req, first + k), ?_, mem_map.mpr ⟨dst, by simp, rfl⟩⟩
  exact mk_mem_zipIdx_iff_le_and_getElem?_sub.mpr ⟨by omega, by simpa using h⟩

lemma inOrderSteps_of_step {a : Action n S} (hG : c.inOrder a) (h : c.step a = some c') :
    InOrderSteps c c' := by
  cases a with
  | deliver k =>
    simp only [step] at h
    split at h
    · simp at h
    · next pkt hpkt =>
      split at h
      · simp at h
      · next halive =>
        have halive : (c.machines pkt.dst).aborted = none := by simpa using halive
        cases h
        cases pkt with
        | request src dst id req => exact .request hpkt hG halive
        | reply src dst id req rep =>
          have hreplied := onReply_cases (c.machines dst) src id rep
          simpa [receive, Packet.dst] using InOrderSteps.reply hpkt hreplied
  | drop k => exact absurd hG id
  | act i input =>
    simp only [step] at h
    split at h
    · simp at h
    · obtain ⟨⟨m, reqs⟩, hact, heq⟩ := Option.map_eq_some_iff.mp h
      obtain rfl := heq
      exact .input (acts_of_act hact)

/-- A machine that runs on after an honouring step keeps its promise in it. -/
lemma Steps.keepsPromise (hsteps : Steps (fun c dst req => (c.machines dst).Honours req) P A c c')
    (htidy : ∀ i, (c.machines i).Tidy)
    (hu : ∀ i, (c.machines i).aborted = none → (c.machines i).Uniform)
    (hok : (c'.machines i).aborted = none) :
    (c.machines i).aborted = none ∧ (c'.machines i).Uniform ∧
      (c.machines i).KeepsPromise (c'.machines i) := by
  rcases hsteps.machine i with heq | ⟨halive, ⟨_, _, req, _, hon, heq⟩ |
    ⟨_, _, _, _, m, _, hreplied, _, heq⟩ | ⟨_, m, reqs, hacts, _, heq⟩⟩ <;> rw [heq] at hok ⊢
  · exact ⟨hok, (hu i hok).same_server fun _ => rfl⟩
  · exact ⟨halive, (hu i halive).handle halive (fun par => ((htidy i).inOrder par).le) hok hon⟩
  · exact ⟨halive, (hu i halive).same_server hreplied.server⟩
  · have hserver : ∀ par, ((m.startCalls reqs).server par).curEpoch =
        ((c.machines i).server par).curEpoch ∧
        ((m.startCalls reqs).server par).logs = ((c.machines i).server par).logs := by
      intro par
      obtain ⟨slot, hslot⟩ := hacts.server par
      rw [startCalls_server, hslot]
      exact ⟨rfl, rfl⟩
    exact ⟨halive, (hu i halive).of_server_eq hserver, keepsPromise_of_server_eq hserver⟩

/-- The accept that a running machine has been sent is settled there. -/
def Handled (c : Cluster n S) (dst : Fin n) (par : Fin S) (slot ballot : ℕ) : Prop :=
  (c.machines dst).aborted = none → (c.machines dst).Settled par slot ballot

/-- An accept is under way to a machine or handled by it, and a commit is behind its accept as
long as that is not handled. -/
structure AcceptsFirst (c : Cluster n S) : Prop where
  uniform : ∀ i, (c.machines i).aborted = none → (c.machines i).Uniform
  checked : ∀ i, (c.machines i).CommitChecked
  accept : ∀ i id par cmd, (c.machines i).requestOf id = some (.bulkAccept par cmd) →
    ∃ e, cmd.entries = [e] ∧ ∀ dst, .request i dst id (.bulkAccept par cmd) ∈ c.net ∨
      c.Handled dst par e.slot e.ballot
  decide : ∀ src dst id par cmd, .request src dst id (.bulkDecide par cmd) ∈ c.net →
    ∃ e : SlotBallot, cmd.entries = [e] ∧ (c.Handled dst par e.slot e.ballot ∨
      ∃ id' leader v, Fifo.Behind c.net
        (.request src dst id' (.bulkAccept par ⟨leader, [⟨e.slot, e.ballot, v⟩]⟩))
        (.request src dst id (.bulkDecide par cmd)))

lemma acceptsFirst_init : AcceptsFirst (init : Cluster n S) where
  uniform i _ := uniform_init i
  checked i := commitChecked_of_alive (init_aborted i)
  accept i id par cmd h := by simp [init, requestOf] at h
  decide _ _ _ _ _ h := by simp [init] at h

namespace AcceptsFirst

/-- The commit that is delivered in order is settled at its receiver. -/
lemma settled (h : AcceptsFirst c) {src dst : Fin n} {id : ℕ}
    (hk : c.net[k]? = some (.request src dst id (.bulkDecide par cmd)))
    (hfirst : Fifo.First Packet.connection c.net k) (halive : (c.machines dst).aborted = none) :
    ∃ e, cmd.entries = [e] ∧ (c.machines dst).Settled par e.slot e.ballot := by
  obtain ⟨e, he, hhandled | ⟨id', leader, v, hbehind⟩⟩ :=
    h.decide _ _ _ _ _ (mem_of_getElem? hk)
  · exact ⟨e, he, hhandled halive⟩
  · exact absurd hfirst (hbehind.not_first rfl hk)

/-- The delivery of one packet. `hgone` says what becomes of an accept that is the one. -/
lemma deliver (h : AcceptsFirst c) {out : List (Packet n S)}
    (hnet : c'.net = c.net.eraseIdx k ++ out)
    (hout : ∀ src dst id req, .request src dst id req ∉ out)
    (hkeeps : ∀ dst par slot ballot, c.Handled dst par slot ballot → c'.Handled dst par slot ballot)
    (hcalls : ∀ i, (c'.machines i).requestOf = (c.machines i).requestOf)
    (hgone : ∀ src dst id par leader e,
      c.net[k]? = some (.request src dst id (.bulkAccept par ⟨leader, [e]⟩)) →
      c'.Handled dst par e.slot e.ballot)
    (huniform : ∀ i, (c'.machines i).aborted = none → (c'.machines i).Uniform)
    (hchecked : ∀ i, (c'.machines i).CommitChecked) : AcceptsFirst c' where
  uniform := huniform
  checked := hchecked
  accept i id par cmd hreq := by
    rw [hcalls] at hreq
    obtain ⟨e, he, hall⟩ := h.accept i id par cmd hreq
    refine ⟨e, he, fun dst => ?_⟩
    rcases hall dst with hmem | hhandled
    · obtain ⟨leader, entries⟩ := cmd
      obtain rfl : entries = [e] := he
      by_cases hk : c.net[k]? = some (.request i dst id (.bulkAccept par ⟨leader, [e]⟩))
      · exact .inr (hgone _ _ _ _ _ _ hk)
      · refine .inl ?_
        rw [hnet]
        refine mem_append_left _ (mem_eraseIdx_iff_getElem?.mpr ?_)
        obtain ⟨j, hj⟩ := mem_iff_getElem?.mp hmem
        exact ⟨j, fun hjk => hk (hjk ▸ hj), hj⟩
    · exact .inr (hkeeps _ _ _ _ hhandled)
  decide src dst id par cmd hpkt := by
    rw [hnet] at hpkt
    have hleft := (mem_append.mp hpkt).resolve_right (hout _ _ _ _)
    obtain ⟨e, he, hhandled | ⟨id', leader, v, hbehind⟩⟩ :=
      h.decide _ _ _ _ _ (mem_of_mem_eraseIdx hleft)
    · exact ⟨e, he, .inl (hkeeps _ _ _ _ hhandled)⟩
    · by_cases hk : c.net[k]? =
          some (.request src dst id' (.bulkAccept par ⟨leader, [⟨e.slot, e.ballot, v⟩]⟩))
      · exact ⟨e, he, .inl (hgone _ _ _ _ _ _ hk)⟩
      · exact ⟨e, he, .inr ⟨id', leader, v, hnet ▸ (hbehind.eraseIdx hk).append hleft⟩⟩

/-- An input appends its broadcasts. -/
lemma input (h : AcceptsFirst c) {input : Input n S} {reqs : List (Request n S)}
    (hacts : (c.machines i).Acts input m reqs)
    (hc' : c' = c.move i (m.startCalls reqs) (c.net ++ broadcast i m.nextCall reqs))
    (hkeeps : ∀ dst par slot ballot, c.Handled dst par slot ballot → c'.Handled dst par slot ballot)
    (huniform : ∀ j, (c'.machines j).aborted = none → (c'.machines j).Uniform)
    (hchecked : ∀ j, (c'.machines j).CommitChecked) : AcceptsFirst c' where
  uniform := huniform
  checked := hchecked
  accept j id par cmd hreq := by
    -- an accept that was open before, as the invariant has it
    have hold : (c.machines j).requestOf id = some (.bulkAccept par cmd) →
        ∃ e, cmd.entries = [e] ∧ ∀ dst, .request j dst id (.bulkAccept par cmd) ∈ c'.net ∨
          c'.Handled dst par e.slot e.ballot := by
      intro hreq
      obtain ⟨e, he, hall⟩ := h.accept j id par cmd hreq
      refine ⟨e, he, fun dst => (hall dst).imp (fun hmem => ?_) (hkeeps _ _ _ _)⟩
      rw [hc']
      exact mem_append_left _ hmem
    by_cases hj : j = i
    · subst hj
      have hreq' : (m.startCalls reqs).requestOf id = some (.bulkAccept par cmd) := by
        rwa [hc', machines_move_self] at hreq
      rw [requestOf_startCalls] at hreq'
      by_cases hid : id < m.nextCall
      · rw [if_pos hid, hacts.calls.requestOf] at hreq'
        exact hold hreq'
      · rw [if_neg hid] at hreq'
        obtain ⟨e, he⟩ := hacts.entries_of_bulkAccept (mem_of_getElem? hreq')
        refine ⟨e, he, fun dst => .inl ?_⟩
        have hid' : m.nextCall + (id - m.nextCall) = id := by omega
        rw [hc', ← hid']
        exact mem_append_right _ (request_mem_broadcast hreq' dst)
    · rw [hc', machines_move, if_neg hj] at hreq
      exact hold hreq
  decide src dst id par cmd hpkt := by
    by_cases hq : .request src dst id (.bulkDecide par cmd) ∈ c.net
    · obtain ⟨e, he, hhandled | ⟨id', leader, v, hbehind⟩⟩ := h.decide _ _ _ _ _ hq
      · exact ⟨e, he, .inl (hkeeps _ _ _ _ hhandled)⟩
      · refine ⟨e, he, .inr ⟨id', leader, v, ?_⟩⟩
        rw [hc']
        exact hbehind.append hq
    · -- the commit has just been sent, so its accept is under way or handled
      rw [hc'] at hpkt
      have hnew := (mem_append.mp hpkt).resolve_left hq
      obtain ⟨k, req, dst', hreq, heq⟩ := mem_broadcast hnew
      obtain ⟨rfl, rfl, rfl, rfl⟩ := Packet.request.inj heq
      obtain ⟨id', ⟨leader, entries⟩, hopen, hentries⟩ :=
        hacts.accept_of_bulkDecide (mem_of_getElem? hreq)
      obtain ⟨e, rfl, hall⟩ := h.accept _ _ _ _ hopen
      refine ⟨⟨e.slot, e.ballot⟩, hentries, ?_⟩
      rcases hall dst with hmem | hhandled
      · refine .inr ⟨id', leader, e.cmd, ?_⟩
        rw [hc']
        exact Fifo.behind_append hq hmem
      · exact .inl (hkeeps _ _ _ _ hhandled)

/-- One step over connections that deliver in order. -/
lemma step (h : AcceptsFirst c)
    (hsteps : Steps (fun c dst req => (c.machines dst).Honours req) P A c c')
    (horder : InOrderSteps c c') (htidy : ∀ i, (c.machines i).Tidy) : AcceptsFirst c' := by
  have hkeep {i : Fin n} := hsteps.keepsPromise htidy h.uniform (i := i)
  have huniform : ∀ i, (c'.machines i).aborted = none → (c'.machines i).Uniform :=
    fun i hok => (hkeep hok).2.1
  have hkeeps : ∀ dst par slot ballot, c.Handled dst par slot ballot →
      c'.Handled dst par slot ballot :=
    fun dst par slot ballot hh hok => (hh (hkeep hok).1).of_keepsPromise (hkeep hok).2.2
  cases horder with
  | @request k src dst id req hk hfirst halive =>
    refine h.deliver rfl (by simp) hkeeps (fun i => ?_) ?_ huniform ?_
    · rw [machines_move]
      split
      · next hi =>
        rw [hi]
        unfold requestOf
        rw [((c.machines dst).handle_sameSender req halive).calls]
      · rfl
    · intro src' dst' id' par leader e hk' _
      obtain ⟨rfl, rfl, rfl, rfl⟩ := Packet.request.inj (Option.some.inj (hk.symm.trans hk'))
      rw [machines_move_self]
      exact settled_onBulkAccept par leader e halive
    · refine forall_machines_move (I := fun _ m => m.CommitChecked) h.checked ?_
      refine handle_checked (h.uniform dst halive) halive ?_
      rintro par cmd rfl
      exact h.settled hk hfirst halive
  | @reply k src dst id req rep m hk hreplied =>
    refine h.deliver (append_nil _).symm (by simp) hkeeps (fun i => ?_) ?_ huniform ?_
    · rw [machines_move]
      split
      · next hi => rw [hi, hreplied.calls.requestOf]
      · rfl
    · intro src' dst' id' par leader e hk'
      rw [hk] at hk'
      cases hk'
    · exact forall_machines_move (I := fun _ m => m.CommitChecked) h.checked
        (hreplied.commitChecked (h.checked dst))
  | @input i input m reqs hacts =>
    refine h.input hacts rfl hkeeps huniform ?_
    exact forall_machines_move (I := fun _ m => m.CommitChecked) h.checked
      (hacts.commitChecked (h.checked i))

end AcceptsFirst

/-- Connections deliver in order and lose nothing, and no prepare or heartbeat lowers the epoch of
a stream. -/
def inOrderHonouring (c : Cluster n S) (a : Action n S) : Prop := c.inOrder a ∧ c.honouring a

instance (c : Cluster n S) (a : Action n S) : Decidable (c.inOrderHonouring a) :=
  inferInstanceAs (Decidable (_ ∧ _))

lemma commitChecked_of_run (h : Lts.Run system inOrderHonouring init c) (i : Fin n) :
    (c.machines i).CommitChecked := by
  have hinv : Lts.Reachable system c ∧ AcceptsFirst c := by
    refine h.invariant (fun c => Lts.Reachable system c ∧ AcceptsFirst c) ?_
      ⟨.refl, acceptsFirst_init⟩
    rintro d d' a ⟨hreach, hd⟩ ⟨horder, hhon⟩ hstep
    refine ⟨hreach.tail trivial hstep, ?_⟩
    exact hd.step (steps_of_step hhon hstep) (inOrderSteps_of_step horder hstep)
      (tidy_of_reachable hreach)
  exact hinv.2.checked i

end Cluster

namespace Threads

open Cluster (inOrder inOrderHonouring)

/-- In every run over connections that deliver in order and lose nothing, the checks of
`OnBulkCommit` and `OnSyncCommit` hold, as long as handlers are not disturbed and no prepare or
heartbeat lowers the epoch of a stream. -/
theorem commit_checks_hold {s : Threads n S}
    (h : Lts.Run system (serial inOrderHonouring) init s) (i : Fin n) :
    (s.machines i).aborted ≠ some .syncCommitBallot ∧
      (s.machines i).aborted ≠ some .bulkCommitBallot := by
  have hchecked := Cluster.commitChecked_of_run (run_settled h nodup_nil).2 i
  constructor <;> intro habort
  · exact hchecked.1 (by rw [settled_of_aborted (by rw [habort]; rfl), habort])
  · exact hchecked.2 (by rw [settled_of_aborted (by rw [habort]; rfl), habort])

/-- The leader of epoch 2 gets slot 1 accepted, and machine 2 passes the check of its commit. -/
theorem commit_checks_hold_committed : ∃ s : Threads 3 1,
    Lts.Run system (serial inOrderHonouring) init s ∧
      ((s.machines 2).server 0).maxCommittedSlot = 1 ∧
      (s.machines 2).aborted ≠ some .syncCommitBallot ∧
      (s.machines 2).aborted ≠ some .bulkCommitBallot := by
  obtain ⟨c, hrun, hcommitted⟩ := Lts.exists_run_of_execGuarded
    (Cluster.system : Lts.System (Cluster 3 1) _) inOrderHonouring Cluster.init
    [.act 0 (.addLogToNc 0 ⟨[7]⟩), .act 0 (.bulkSubmit 0 0), .deliver 0, .deliver 2, .deliver 1,
      .deliver 1, .act 0 (.acceptReturns 0), .deliver 3]
    (fun c => ((c.machines 2).server 0).maxCommittedSlot = 1) (by decide +kernel)
  exact ⟨ofCluster c, run_ofCluster hrun, hcommitted, commit_checks_hold (run_ofCluster hrun) 2⟩

/-- Machine 2 has accepted slot 1 from the leader of epoch 2, but its election state is still in
epoch 0: it votes for machine 1 in epoch 1 and accepts slot 1 again, with ballot 1. The commit
with ballot 2 then fails its check, although every connection delivers in order. -/
theorem commit_check_fails : ∃ s : Threads 3 1, Lts.Run system (serial inOrder) init s ∧
    (s.machines 2).aborted = some .bulkCommitBallot := by
  obtain ⟨c, hrun, habort⟩ := Lts.exists_run_of_execGuarded
    (Cluster.system : Lts.System (Cluster 3 1) _) inOrder Cluster.init
    -- machines 0 and 2 accept slot 1 of epoch 2
    [.act 0 (.addLogToNc 0 ⟨[7]⟩), .act 0 (.bulkSubmit 0 0), .deliver 0, .deliver 2, .deliver 1,
      .deliver 1,
      -- machine 1 wins epoch 1 with machine 2, and machine 2 accepts its slot 1
      .act 1 .electionTimeout, .deliver 2, .deliver 3, .deliver 2, .deliver 2,
      .act 1 .prepareReturns, .act 1 .electionWakes, .act 1 .stuffTodoLeaderElection,
      .act 1 (.addLogToNc 0 ⟨[8]⟩), .act 1 (.bulkSubmit 0 0), .deliver 4,
      -- the commit of epoch 2 arrives
      .act 0 (.acceptReturns 0), .deliver 7]
    (fun c => (c.machines 2).aborted = some .bulkCommitBallot) (by decide +kernel)
  exact ⟨ofCluster c, run_ofCluster hrun, habort⟩

end Threads

end Rolis.Paxos
