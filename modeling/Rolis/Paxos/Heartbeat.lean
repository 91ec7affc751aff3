import Rolis.Paxos.Leadership
import Rolis.Paxos.Threads

/-!
# The check of the heartbeats

`OnHeartbeat` takes a heartbeat of its own epoch from a machine other than `leader_id` for a
second leader of the epoch and aborts. But `cur_epoch` and `leader_id` of the election state do
not always change together: the accept and commit handlers store the leader and not the epoch,
`step_down` and a rejected prepare or heartbeat store an epoch whose leader is not known, and a
candidate takes its epoch before it knows whether another machine has it too. An old heartbeat
then ends the process though nobody has won the epoch a second time (`twoLeaders_after_accept`).

In the runs that meet `orderly` the pair always fits: a machine knows as leader the only machine
that has stood for its epoch (`Oriented`), and the check holds (`no_twoLeaders`), as long as no
prepare is granted between the check of an accept and its `set_leader`.
-/

namespace Rolis.Paxos

open List Machine

variable {n S : ℕ} {rep : Reply S} {hbLog : HeartBeatLog n} {a : Action n S}

namespace Machine

variable {m m' : Machine n S} {input : Input n S} {reqs : List (Request n S)} {id : ℕ}

/-! ## The election state under the inputs and handlers -/

/-- Only the role has changed, and not to leader. -/
def Unraised (es es' : ElectionState n) : Prop :=
  ∃ state, (state = es.curState ∨ state = .follower) ∧ es' = { es with curState := state }

lemma Unraised.refl (es : ElectionState n) : Unraised es es := ⟨es.curState, .inl rfl, rfl⟩

lemma unraised_seeLeader (m : Machine n S) (leader : Fin n) :
    Unraised m.es (m.seeLeader leader).es := by
  unfold seeLeader
  split
  · exact ⟨.follower, .inr rfl, rfl⟩
  · exact .refl _

lemma adoptBallot_es (m : Machine n S) (par : Fin S) (leader : Fin n) (ballot : ℕ) :
    (m.adoptBallot par leader ballot).es = { m.es with leaderId := some leader } := by
  unfold adoptBallot
  dsimp only
  split <;> rfl

lemma grantPrepare_es (m : Machine n S) (bpLog : BulkPrepareLog n S) :
    (m.grantPrepare bpLog).es = { m.es with
      curEpoch := bpLog.epoch
      curState := if bpLog.leaderId ≠ m.es.machineId then .follower else m.es.curState
      leaderId := some bpLog.leaderId } := by
  by_cases h : bpLog.leaderId ≠ m.es.machineId <;>
    simp [grantPrepare, seeLeader, mapServers, ElectionState.setEpoch, h]

/-- An accept or commit that is let through comes from the leader the machine knows. -/
def FromLeader (m : Machine n S) : Request n S → Prop
  | .syncCommit par cmd | .bulkAccept par cmd => ∀ e ∈ cmd.entries.head?,
      (m.server par).curEpoch ≤ e.ballot → m.es.leaderId = some cmd.leaderId
  | .bulkDecide par cmd => ∀ e ∈ cmd.entries.head?,
      (m.server par).curEpoch ≤ e.ballot → m.es.leaderId = some cmd.leaderId
  | _ => True

instance (m : Machine n S) : DecidablePred m.FromLeader
  | .syncCommit _ cmd | .bulkAccept _ cmd =>
    inferInstanceAs (Decidable (∀ e ∈ cmd.entries.head?, _ → _))
  | .bulkDecide _ cmd => inferInstanceAs (Decidable (∀ e ∈ cmd.entries.head?, _ → _))
  | .bulkPrepare _ | .heartbeat _ | .syncLog _ | .syncNoOps _ => isTrue trivial

lemma bulkHandler_es {α : Type} {ballotOf : α → ℕ} {write : Machine n S → α → Machine n S}
    {finish : PaxosServer n → PaxosServer n} {par : Fin S} {leader : Fin n} {entries : List α}
    (halive : m.aborted = none) (hwrite : ∀ m e, (write m e).es = m.es)
    (hfrom : ∀ e ∈ entries.head?, (m.server par).curEpoch ≤ ballotOf e →
      m.es.leaderId = some leader) :
    Unraised m.es (bulkHandler ballotOf write finish par leader entries m).1.es := by
  by_cases hpass : ∃ e ∈ entries.head?, (m.server par).curEpoch ≤ ballotOf e
  · obtain ⟨e, he, hle⟩ := hpass
    have hleader := hfrom e he hle
    refine bulkHandler_inv (fun m' => Unraised m.es m'.es) (.refl _) halive (fun _ => .refl _)
      (unraised_seeLeader m leader) ?_ fun _ h _ => h
    rintro e' - m' ⟨state, hstate, heq⟩ - -
    rw [hwrite, adoptBallot_es, heq]
    exact ⟨state, hstate, by simp [hleader]⟩
  · unfold bulkHandler
    split
    · exact .refl _
    · next e es =>
      have hlt : ballotOf e < (m.server par).curEpoch := by
        by_contra hle
        exact hpass ⟨e, rfl, not_lt.mp hle⟩
      rw [if_pos hlt]
      exact .refl _

/-- What a request does to the election state. -/
lemma handle_es {req : Request n S} (halive : m.aborted = none) (hfrom : m.FromLeader req) :
    Unraised m.es (m.handle req).1.es ∨
    (∃ bpLog, req = .bulkPrepare bpLog ∧ m.Grants bpLog ∧ (m.handle req).1.es = { m.es with
        curEpoch := bpLog.epoch
        curState := if bpLog.leaderId ≠ m.es.machineId then .follower else m.es.curState
        leaderId := some bpLog.leaderId }) ∨
    ∃ hbLog, req = .heartbeat hbLog ∧ m.es.curEpoch < hbLog.epoch ∧ (m.handle req).1.es =
      { m.es with
        curEpoch := hbLog.epoch, curState := .follower, leaderId := some hbLog.leaderId } := by
  cases req with
  | bulkPrepare bpLog =>
    rw [handle]
    obtain ⟨-, heq⟩ | ⟨-, heq⟩ | ⟨hg, heq⟩ := m.onBulkPrepare_cases bpLog <;> rw [heq]
    · exact .inl (.refl _)
    · exact .inl (.refl _)
    · exact .inr (.inl ⟨bpLog, rfl, hg, grantPrepare_es m bpLog⟩)
  | heartbeat hbLog =>
    rw [handle]
    obtain ⟨-, heq⟩ | ⟨-, heq⟩ | ⟨-, heq⟩ | ⟨hlt, heq⟩ := m.onHeartbeat_cases hbLog <;> rw [heq]
    · exact .inl (.refl _)
    · exact .inl (.refl _)
    · exact .inl (unraised_seeLeader m _)
    · exact .inr (.inr ⟨hbLog, rfl, hlt, rfl⟩)
  | syncLog req =>
    rw [handle, onSyncLog_machine]
    exact .inl (.refl _)
  | syncCommit par cmd =>
    exact .inl (bulkHandler_es halive (fun m e => syncCommitEntry_es par m e) hfrom)
  | syncNoOps req =>
    rw [handle, (m.onSyncNoOps_es_log req).1]
    exact .inl (.refl _)
  | bulkAccept par cmd => exact .inl (bulkHandler_es halive (fun _ _ => rfl) hfrom)
  | bulkDecide par cmd =>
    exact .inl (bulkHandler_es halive (fun m e => bulkCommitEntry_es par m e) hfrom)

/-- A callback that makes the machine not step down leaves the election state alone. -/
lemma Replied.es {src : Fin n} (h : Replied m src id rep m') (hno : m.NoStepDown id rep) :
    m'.es = m.es := by
  cases h with
  | @steppedDown call hcall _ hvalid hfail =>
    have hlt : rep.ballot < (m.setCall id (call.receive src rep)).es.curEpoch :=
      hno hvalid _ hcall hfail
    rw [stepDown_of_lt hlt]
    rfl
  | _ => rfl

/-- A rejected prepare or heartbeat brings back the epoch the machine has. -/
def KnownRejection (m : Machine n S) (input : Input n S) : Prop :=
  ∀ id ∈ m.storedCall input, ∀ p ∈ m.awaited id, p.2 = false →
    ∀ epoch ∈ p.1.receivedEpoch, epoch = m.es.curEpoch

instance (m : Machine n S) (input : Input n S) : Decidable (m.KnownRejection input) :=
  inferInstanceAs (Decidable (∀ id ∈ m.storedCall input, _))

lemma KnownRejection.keepsEpoch (h : m.KnownRejection input) : m.KeepsEpoch input :=
  fun id hid p hp hno epoch hepoch => (h id hid p hp hno epoch hepoch).ge

lemma unraised_adoptRejection {call : Call n S} {yes : Bool}
    (hcall : m.awaited id = some (call, yes))
    (h : ∀ p ∈ m.awaited id, p.2 = false → ∀ epoch ∈ p.1.receivedEpoch, epoch = m.es.curEpoch) :
    Unraised m.es ((m.finishCall id call).adoptRejection
      (if yes then none else call.receivedEpoch)).es := by
  cases yes with
  | true => exact .refl _
  | false =>
    cases hrec : call.receivedEpoch with
    | none => exact .refl _
    | some epoch =>
      obtain rfl := h _ hcall rfl epoch hrec
      exact ⟨.follower, .inr rfl, rfl⟩

/-- What an input does to the election state. -/
lemma Acts.es (h : Acts m input m' reqs) (hknown : m.KnownRejection input) :
    (input ≠ .electionTimeout ∧ Unraised m.es m'.es) ∨
    (input = .electionTimeout ∧ m.es.curState ≠ .leader ∧
      m'.es = { m.es with curEpoch := m.es.curEpoch + 1 }) ∨
    (input = .stuffTodoLeaderElection ∧ m'.es = { m.es with curState := .leader }) := by
  cases h with
  | electionTimeout _ hrole => exact .inr (.inl ⟨rfl, hrole, rfl⟩)
  | stuffTodoLeaderElection _ => exact .inr (.inr ⟨rfl, rfl⟩)
  | prepareReturns hmon hcall =>
    exact .inl ⟨by rintro ⟨⟩, unraised_adoptRejection hcall (hknown _ (by simp [storedCall, hmon]))⟩
  | heartbeatReturns hcall _ =>
    exact .inl ⟨by rintro ⟨⟩, unraised_adoptRejection hcall (hknown _ rfl)⟩
  | sendNoOpMark _ _ | addLogToNc _ _ =>
    exact .inl ⟨by rintro ⟨⟩, (addLogToNc_es ..).symm ▸ Unraised.refl _⟩
  | _ => exact .inl ⟨by rintro ⟨⟩, .refl _⟩

/-- A heartbeat from the leader that the machine knows passes the check. -/
lemma onHeartbeat_of_leader (hbLog : HeartBeatLog n) (halive : m.aborted = none)
    (h : hbLog.epoch = m.es.curEpoch → m.es.leaderId = some hbLog.leaderId) :
    (m.onHeartbeat hbLog).1.aborted = none := by
  unfold onHeartbeat
  split
  · exact halive
  · split
    · next heq =>
      rw [if_neg (by rw [h heq]; simp)]
      simpa using halive
    · exact halive

/-- The epoch the monitor thread stands for. -/
def standsFor (m : Machine n S) : Option ℕ :=
  match m.monitor with
  | .voting epoch _ | .woken epoch | .elected epoch => some epoch
  | _ => none

lemma standsFor_congr (h : m'.monitor = m.monitor) : m'.standsFor = m.standsFor := by
  unfold standsFor
  rw [h]

/-- A candidacy is in the history. -/
lemma Acts.campaigned (h : Acts m input m' reqs)
    (hm : ∀ epoch, m.standsFor = some epoch → .campaigned epoch ∈ m.log) {epoch : ℕ}
    (hepoch : m'.standsFor = some epoch) : .campaigned epoch ∈ m'.log := by
  have hkeep : m'.monitor = m.monitor → m'.log = m.log → .campaigned epoch ∈ m'.log := by
    intro hmon hlog
    rw [hlog]
    exact hm epoch (standsFor_congr hmon ▸ hepoch)
  cases h with
  | electionTimeout _ _ =>
    cases hepoch
    exact mem_cons_self
  | prepareReturns hmon _ =>
    rw [adoptRejection_log]
    cases hepoch
    exact hm _ (by simp [standsFor, hmon])
  | electionWon hmon _ =>
    cases hepoch
    exact hm _ (by simp [standsFor, hmon])
  | heartbeatReturns _ _ => exact hkeep (adoptRejection_monitor ..) (adoptRejection_log ..)
  | addLogToNc _ _ => exact hkeep (addLogToNc_monitor ..) (addLogToNc_log ..)
  | heartbeatTick _ | acceptNo _ _ | crash => exact hkeep rfl rfl
  | bulkSubmit _ => exact mem_cons_of_mem _ (hm epoch hepoch)
  | acceptYes _ _ => exact mem_append_right _ (hm epoch hepoch)
  | _ => cases hepoch

/-- A heartbeat is sent by a leader, in its own name and for its epoch. -/
lemma Acts.heartbeat_of_mem (h : Acts m input m' reqs) (hmem : .heartbeat hbLog ∈ reqs) :
    m.es.curState = .leader ∧ hbLog = ⟨m.es.machineId, m.es.curEpoch⟩ := by
  cases h with
  | heartbeatTick hrole =>
    refine ⟨?_, Request.heartbeat.inj (mem_singleton.mp hmem)⟩
    cases hstate : m.es.curState with
    | follower => exact absurd hstate hrole
    | leader => rfl
  | syncLogYes _ _ =>
    obtain ⟨j, -, heq⟩ := mem_map.mp hmem
    cases heq
  | _ => simp at hmem

end Machine

/-- The epoch of an election. -/
def Event.electedIn : Event n S → Option ℕ
  | .elected epoch => some epoch
  | _ => none

/-! ## Who stands for an epoch -/

/-- What a machine knows about its epoch, where `stands` says who has stood for one: the only one
who has is the leader it knows, and if it leads itself it knows that. -/
structure Oriented (stands : Fin n → ℕ → Prop) (i : Fin n) (es : ElectionState n) : Prop where
  leading : es.curState = .leader → stands i es.curEpoch ∧ es.leaderId = some i
  following : ∀ l ≠ i, stands l es.curEpoch → es.leaderId = some l
  known : es.curEpoch = 0 ∨ ∃ l, stands l es.curEpoch

namespace Oriented

variable {stands : Fin n → ℕ → Prop} {i : Fin n} {es es' : ElectionState n}

lemma unraised (h : Oriented stands i es) (hes : Machine.Unraised es es') :
    Oriented stands i es' := by
  obtain ⟨state, hstate, rfl⟩ := hes
  refine ⟨fun hl => h.leading ?_, h.following, h.known⟩
  rcases hstate with rfl | rfl
  · exact hl
  · cases hl

/-- Taking over the epoch and the only machine that stands for it. -/
lemma follow {l : Fin n} (hstands : stands l es'.curEpoch)
    (hunique : ∀ l', stands l' es'.curEpoch → l' = l) (hleader : es'.leaderId = some l)
    (hrole : es'.curState = .leader → l = i) : Oriented stands i es' where
  leading hl := by
    obtain rfl := hrole hl
    exact ⟨hstands, hleader⟩
  following l' _ hl' := by rw [hunique l' hl', hleader]
  known := .inr ⟨l, hstands⟩

end Oriented

namespace Cluster

/-- Machine `i` has stood for the epoch; machine 0 starts as the leader of epoch 2. -/
def Stands (c : Cluster n S) (i : Fin n) (epoch : ℕ) : Prop :=
  .campaigned epoch ∈ (c.machines i).log ∨ (i.val = 0 ∧ epoch = 2)

instance (c : Cluster n S) (i : Fin n) (epoch : ℕ) : Decidable (c.Stands i epoch) :=
  inferInstanceAs (Decidable (_ ∨ _))

/-- A machine stands for an epoch that no other has stood for, and becomes leader of that epoch
only, and after its own vote; what a rejection brings back is known already. -/
@[mk_iff]
structure Unopposed (c : Cluster n S) (i : Fin n) (input : Input n S) : Prop where
  alone : input = .electionTimeout →
    ∀ j ≠ i, ¬ c.Stands j ((c.machines i).es.curEpoch + 1)
  voted : input = .stuffTodoLeaderElection →
    (c.machines i).monitor = .elected (c.machines i).es.curEpoch ∧
      (c.machines i).es.leaderId = some i
  known : (c.machines i).KnownRejection input

instance (c : Cluster n S) (i : Fin n) (input : Input n S) : Decidable (c.Unopposed i input) :=
  decidable_of_iff' _ (unopposed_iff c i input)

/-- Epoch and leader of every machine change together. -/
def orderly : Cluster n S → Action n S → Prop :=
  guard (fun c i req => (c.machines i).FromLeader req)
    (fun c i id rep => (c.machines i).NoStepDown id rep) fun c i input => c.Unopposed i input

instance (c : Cluster n S) : DecidablePred (orderly c) :=
  inferInstanceAs (DecidablePred (guard _ _ _ c))

lemma keepsEpochs_of_orderly {c : Cluster n S} (h : orderly c a) : keepsEpochs c a := by
  cases a with
  | deliver k => exact fun pkt _ => by cases pkt <;> trivial
  | drop k => trivial
  | act i input => exact (Unopposed.known h).keepsEpoch

/-- A heartbeat under way comes from a machine that stands for its epoch and, while it is in
that epoch, knows itself as the leader. -/
def Beats (c : Cluster n S) (hbLog : HeartBeatLog n) : Prop :=
  c.Stands hbLog.leaderId hbLog.epoch ∧
    ((c.machines hbLog.leaderId).es.curEpoch = hbLog.epoch →
      (c.machines hbLog.leaderId).es.leaderId = some hbLog.leaderId)

structure HeartbeatInv (c : Cluster n S) : Prop where
  votes : VoteInv c
  campaigned : ∀ i epoch, (c.machines i).standsFor = some epoch →
    .campaigned epoch ∈ (c.machines i).log
  first : ∀ i : Fin n, i.val = 0 → 2 ≤ (c.machines i).es.curEpoch
  unique : ∀ i j epoch, c.Stands i epoch → c.Stands j epoch → i = j
  oriented : ∀ i, Oriented c.Stands i (c.machines i).es
  beat : ∀ src dst id hbLog, .request src dst id (.heartbeat hbLog) ∈ c.net → c.Beats hbLog
  checked : ∀ i, (c.machines i).aborted ≠ some .twoLeaders

lemma heartbeatInv_init : HeartbeatInv (init : Cluster n S) where
  votes := voteInv_init
  campaigned i epoch h := by simp [init, Machine.standsFor] at h
  first i hi := by simp [init, Machine.init, hi]
  unique i j epoch hi hj := by
    have hi' : i.val = 0 ∧ epoch = 2 := by simpa [Stands, init] using hi
    have hj' : j.val = 0 ∧ epoch = 2 := by simpa [Stands, init] using hj
    exact Fin.ext (hi'.1.trans hj'.1.symm)
  oriented i := by
    simp only [init, Machine.init]
    split
    · next hi =>
      refine ⟨fun _ => ⟨.inr ⟨hi, rfl⟩, rfl⟩, fun l hl hstands => absurd ?_ hl, .inr ⟨i, ?_⟩⟩
      · have hl0 : l.val = 0 := by simpa [Stands, init] using hstands
        exact Fin.ext (hl0.trans hi.symm)
      · exact .inr ⟨hi, rfl⟩
    · refine ⟨by rintro ⟨⟩, fun l _ hstands => ?_, .inl rfl⟩
      simp [Stands] at hstands
  beat _ _ _ _ h := by simp [init] at h
  checked i := by simp [init]

/-- No replica has forgotten anything. -/
structure Later (c c' : Cluster n S) : Prop where
  votes : VoteInv c'
  log : ∀ j, (c.machines j).log ⊆ (c'.machines j).log
  epoch : ∀ j, (c.machines j).es.curEpoch ≤ (c'.machines j).es.curEpoch

namespace HeartbeatInv

variable {c c' : Cluster n S} {m : Machine n S} {i src dst : Fin n} {req : Request n S}
  {reqs : List (Request n S)} {net : List (Packet n S)} {input : Input n S} {id epoch : ℕ}

section

variable (h : HeartbeatInv c)

include h

lemma stands_le (hstands : c.Stands i epoch) : epoch ≤ (c.machines i).es.curEpoch := by
  rcases hstands with hcamp | ⟨hi, rfl⟩
  · exact (h.votes.ballots i).campaigned_le epoch hcamp
  · exact h.first i hi

/-- A step in which nobody stands for a new epoch: it is enough to look at the election states
and at the heartbeats under way. -/
lemma quiet (hvotes : VoteInv c') (hcamp : ∀ i epoch, (c'.machines i).standsFor = some epoch →
      .campaigned epoch ∈ (c'.machines i).log) (hstands : c'.Stands = c.Stands)
    (hle : ∀ i, (c.machines i).es.curEpoch ≤ (c'.machines i).es.curEpoch)
    (horiented : ∀ i, Oriented c.Stands i (c'.machines i).es)
    (hown : ∀ i, (c'.machines i).es.curEpoch = (c.machines i).es.curEpoch →
      (c.machines i).es.leaderId = some i → (c'.machines i).es.leaderId = some i)
    (hbeat : ∀ src dst id hbLog, .request src dst id (.heartbeat hbLog) ∈ c'.net → c.Beats hbLog)
    (hchecked : ∀ i, (c'.machines i).aborted ≠ some .twoLeaders) : HeartbeatInv c' where
  votes := hvotes
  campaigned := hcamp
  first i hi := (h.first i hi).trans (hle i)
  unique := by rw [hstands]; exact h.unique
  oriented := by rw [hstands]; exact horiented
  beat src dst id hbLog hpkt := by
    obtain ⟨hst, hself⟩ := hbeat src dst id hbLog hpkt
    refine ⟨by rwa [hstands], fun hepoch => ?_⟩
    have hle' := hle hbLog.leaderId
    have hbound := h.stands_le hst
    have hsame : (c.machines hbLog.leaderId).es.curEpoch = hbLog.epoch := by omega
    exact hown _ (hepoch.trans hsame.symm) (hself hsame)
  checked := hchecked

/-- A machine stands for an epoch that no other has stood for. -/
lemma electionTimeout (hvotes : VoteInv c')
    (hcamp : ∀ j epoch, (c'.machines j).standsFor = some epoch →
      .campaigned epoch ∈ (c'.machines j).log)
    (hstands : ∀ j epoch, c'.Stands j epoch ↔
      c.Stands j epoch ∨ (j = i ∧ epoch = (c.machines i).es.curEpoch + 1))
    (halone : ∀ j ≠ i, ¬ c.Stands j ((c.machines i).es.curEpoch + 1))
    (hrole : (c.machines i).es.curState ≠ .leader)
    (hes : (c'.machines i).es =
      { (c.machines i).es with curEpoch := (c.machines i).es.curEpoch + 1 })
    (hother : ∀ j ≠ i, (c'.machines j).es = (c.machines j).es)
    (hbeat : ∀ src dst id hbLog, .request src dst id (.heartbeat hbLog) ∈ c'.net → c.Beats hbLog)
    (hchecked : ∀ j, (c'.machines j).aborted ≠ some .twoLeaders) : HeartbeatInv c' := by
  -- nobody is in the new epoch yet
  have hfresh : ∀ j, ¬ c.Stands j ((c.machines i).es.curEpoch + 1) := by
    intro j hj
    by_cases hji : j = i
    · have := h.stands_le hj
      rw [hji] at this
      omega
    · exact halone j hji hj
  have hnobody : ∀ j, (c.machines j).es.curEpoch ≠ (c.machines i).es.curEpoch + 1 := by
    intro j hj
    rcases (h.oriented j).known with hzero | ⟨l, hl⟩
    · omega
    · rw [hj] at hl
      exact hfresh l hl
  have hes' : (c'.machines i).es.curEpoch = (c.machines i).es.curEpoch + 1 := by rw [hes]
  refine ⟨hvotes, hcamp, fun j hj => ?_, fun j k epoch hj hk => ?_, fun j => ?_,
    fun src dst id hbLog hpkt => ?_, hchecked⟩
  · by_cases hji : j = i
    · have := h.first j hj
      rw [hji] at this ⊢
      omega
    · rw [hother j hji]
      exact h.first j hj
  · rcases (hstands j epoch).mp hj with hj | ⟨rfl, rfl⟩ <;>
      rcases (hstands k _).mp hk with hk | ⟨rfl, hk⟩
    · exact h.unique j k epoch hj hk
    · exact absurd (hk ▸ hj) (hfresh j)
    · exact absurd hk (hfresh k)
    · rfl
  · by_cases hji : j = i
    · subst hji
      rw [hes]
      refine ⟨fun hl => absurd hl hrole, fun l hl hst => ?_, .inr ⟨j, ?_⟩⟩
      · rcases (hstands l _).mp hst with hst | ⟨hlj, -⟩
        · exact absurd hst (hfresh l)
        · exact absurd hlj hl
      · exact (hstands j _).mpr (.inr ⟨rfl, rfl⟩)
    · rw [hother j hji]
      refine ⟨fun hl => ?_, fun l hl hst => ?_, ?_⟩
      · obtain ⟨hst, hleader⟩ := (h.oriented j).leading hl
        exact ⟨(hstands j _).mpr (.inl hst), hleader⟩
      · rcases (hstands l _).mp hst with hst | ⟨-, hepoch⟩
        · exact (h.oriented j).following l hl hst
        · exact absurd hepoch (hnobody j)
      · exact (h.oriented j).known.imp_right fun ⟨l, hl⟩ => ⟨l, (hstands l _).mpr (.inl hl)⟩
  · obtain ⟨hst, hself⟩ := hbeat src dst id hbLog hpkt
    refine ⟨(hstands _ _).mpr (.inl hst), fun hepoch => ?_⟩
    by_cases hli : hbLog.leaderId = i
    · have hbound := h.stands_le hst
      rw [hli] at hbound hepoch
      omega
    · rw [hother _ hli] at hepoch ⊢
      exact hself hepoch

/-- What a machine knows after a request. -/
lemma oriented_handle (hpkt : .request src dst id req ∈ c.net)
    (halive : (c.machines dst).aborted = none) (hfrom : (c.machines dst).FromLeader req) :
    Oriented c.Stands dst ((c.machines dst).handle req).1.es ∧
      (((c.machines dst).handle req).1.es.curEpoch = (c.machines dst).es.curEpoch →
        (c.machines dst).es.leaderId = some dst →
        ((c.machines dst).handle req).1.es.leaderId = some dst) := by
  have hid := (h.votes.ballots dst).machineId
  obtain hes | ⟨bpLog, rfl, hgrants, hes⟩ | ⟨hbLog, rfl, hlt, hes⟩ :=
    handle_es halive hfrom
  · refine ⟨(h.oriented dst).unraised hes, fun _ hleader => ?_⟩
    obtain ⟨state, -, hes⟩ := hes
    rw [hes]
    exact hleader
  · have hst : c.Stands bpLog.leaderId bpLog.epoch := .inl (h.votes.prepare _ _ _ _ hpkt)
    rw [hes]
    refine ⟨.follow hst (fun l hl => h.unique _ _ _ hl hst) rfl fun hrole => ?_, fun hsame _ => ?_⟩
    · by_contra hne
      rw [if_pos (by rwa [hid])] at hrole
      cases hrole
    · -- only its own prepare is granted in the epoch the machine already has
      rcases hgrants with hlt | ⟨-, hself⟩
      · exact absurd hsame hlt.ne'
      · rw [hself, hid]
  · have hst := (h.beat _ _ _ _ hpkt).1
    rw [hes]
    exact ⟨.follow hst (fun l hl => h.unique _ _ _ hl hst) rfl nofun,
      fun hsame _ => absurd hsame hlt.ne'⟩

/-- The check of a heartbeat under way holds. -/
lemma checked_handle (hpkt : .request src dst id req ∈ c.net)
    (halive : (c.machines dst).aborted = none) :
    ((c.machines dst).handle req).1.aborted ≠ some .twoLeaders := by
  intro hab
  have hsite := handle_aborted halive hab
  cases req with
  | heartbeat hbLog =>
    obtain ⟨hst, hself⟩ := h.beat _ _ _ _ hpkt
    have hok := onHeartbeat_of_leader hbLog halive fun hepoch => by
      by_cases hl : hbLog.leaderId = dst
      · rw [← hl] at hepoch ⊢
        exact hself hepoch.symm
      · exact (h.oriented dst).following _ hl (hepoch ▸ hst)
    rw [handle, hok] at hab
    cases hab
  | _ => simp [Request.sites] at hsite

end

/-- The machines stand for the same epochs when no candidacy is recorded. -/
lemma stands_eq (hlog : ∀ j, (c.machines j).log ⊆ (c'.machines j).log)
    (hold : ∀ j epoch, .campaigned epoch ∈ (c'.machines j).log →
      .campaigned epoch ∈ (c.machines j).log) : c'.Stands = c.Stands := by
  funext j epoch
  exact propext ⟨Or.imp_left (hold j epoch), Or.imp_left fun hc => hlog j hc⟩

section

variable (h : HeartbeatInv c)

include h

/-- A move of one machine in which nobody stands for a new epoch. -/
lemma quiet_move (hc' : c' = c.move i m net) (hlater : Later c c')
    (hmonitor : ∀ epoch, m.standsFor = some epoch → .campaigned epoch ∈ m.log)
    (hold : ∀ epoch, .campaigned epoch ∈ m.log → .campaigned epoch ∈ (c.machines i).log)
    (horiented : Oriented c.Stands i m.es)
    (hown : m.es.curEpoch = (c.machines i).es.curEpoch →
      (c.machines i).es.leaderId = some i → m.es.leaderId = some i)
    (hbeat : ∀ src dst id hbLog, .request src dst id (.heartbeat hbLog) ∈ net → c.Beats hbLog)
    (hchecked : m.aborted ≠ some .twoLeaders) : HeartbeatInv c' := by
  subst hc'
  have hcamp : ∀ j epoch, .campaigned epoch ∈ ((c.move i m net).machines j).log →
      .campaigned epoch ∈ (c.machines j).log :=
    forall_machines_move (I := fun j m => ∀ epoch, .campaigned epoch ∈ m.log →
      .campaigned epoch ∈ (c.machines j).log) (fun _ _ hc => hc) hold
  refine h.quiet hlater.votes ?_ (stands_eq hlater.log hcamp) hlater.epoch ?_ ?_ hbeat ?_
  · exact forall_machines_move (I := fun _ m => ∀ epoch, m.standsFor = some epoch →
      .campaigned epoch ∈ m.log) h.campaigned hmonitor
  · exact forall_machines_move (I := fun j m => Oriented c.Stands j m.es) h.oriented horiented
  · exact forall_machines_move (I := fun j m => m.es.curEpoch = (c.machines j).es.curEpoch →
      (c.machines j).es.leaderId = some j → m.es.leaderId = some j) (fun _ _ hl => hl) hown
  · exact forall_machines_move (I := fun _ m => m.aborted ≠ some .twoLeaders) h.checked hchecked

/-- The heartbeats under way after an input: a new one comes from a leader. -/
lemma beats_input (hacts : (c.machines i).Acts input m reqs) (hmem : .heartbeat hbLog ∈ reqs) :
    c.Beats hbLog := by
  obtain ⟨hrole, rfl⟩ := hacts.heartbeat_of_mem hmem
  obtain ⟨hst, hleader⟩ := (h.oriented i).leading hrole
  rw [(h.votes.ballots i).machineId]
  exact ⟨hst, fun _ => hleader⟩

/-- What a machine knows after an input that is no candidacy. -/
lemma oriented_acts (hacts : (c.machines i).Acts input m reqs)
    (hinput : input ≠ .electionTimeout) (hopposed : c.Unopposed i input) :
    Oriented c.Stands i m.es ∧ m.es.leaderId = (c.machines i).es.leaderId := by
  obtain ⟨-, hes⟩ | ⟨hin, -⟩ | ⟨hin, hes⟩ := hacts.es hopposed.known
  · refine ⟨(h.oriented i).unraised hes, ?_⟩
    obtain ⟨state, -, hes⟩ := hes
    rw [hes]
  · exact absurd hin hinput
  · obtain ⟨hmon, hleader⟩ := hopposed.voted hin
    have hcamp := h.campaigned i (c.machines i).es.curEpoch (by simp [standsFor, hmon])
    rw [hes]
    exact ⟨⟨fun _ => ⟨.inl hcamp, hleader⟩, (h.oriented i).following, (h.oriented i).known⟩, rfl⟩

/-- The handler of a request. -/
lemma step_request (hc' : c' = c.move dst ((c.machines dst).handle req).1 net)
    (hlater : Later c c') (hpkt : .request src dst id req ∈ c.net)
    (halive : (c.machines dst).aborted = none) (hfrom : (c.machines dst).FromLeader req)
    (hnet : ∀ pkt ∈ net, pkt ∈ c.net ∨ ∃ rep, ((c.machines dst).handle req).2 = some rep ∧
      pkt = .reply dst src id req rep) : HeartbeatInv c' := by
  obtain ⟨horiented, hown⟩ := h.oriented_handle hpkt halive hfrom
  obtain ⟨new, heq, hnew⟩ := (c.machines dst).handle_log req halive
  refine h.quiet_move hc' hlater (fun epoch hepoch => ?_) (fun epoch hc => ?_)
    horiented hown (fun src' dst' id' hbLog hin => ?_) (h.checked_handle hpkt halive)
  · rw [standsFor_congr ((c.machines dst).handle_sameSender req halive).monitor] at hepoch
    rw [heq]
    exact mem_append_right _ (h.campaigned dst epoch hepoch)
  · -- a handler records no candidacy
    rw [heq] at hc
    exact (mem_append.mp hc).resolve_left (hnew _)
  · rcases hnet _ hin with hin | ⟨rep, -, heq⟩
    · exact h.beat _ _ _ _ hin
    · cases heq

/-- The callback of a reply, which leaves the election state alone. -/
lemma step_reply (hc' : c' = c.move dst m net) (hlater : Later c c')
    (hreplied : (c.machines dst).Replied src id rep m) (hno : (c.machines dst).NoStepDown id rep)
    (hnet : net ⊆ c.net) : HeartbeatInv c' := by
  have hes : m.es = (c.machines dst).es := hreplied.es hno
  refine h.quiet_move hc' hlater (fun epoch hepoch => ?_) (fun epoch hc => ?_)
    (hes ▸ h.oriented dst) (fun _ hl => hes ▸ hl)
    (fun _ _ _ _ hin => h.beat _ _ _ _ (hnet hin)) ?_
  · rw [standsFor_congr hreplied.monitor] at hepoch
    have hold := h.campaigned dst epoch hepoch
    rcases hreplied.log with heq | heq <;> rw [heq]
    · exact hold
    · exact mem_cons_of_mem _ hold
  · rcases hreplied.log with heq | heq <;> rw [heq] at hc
    · exact hc
    · simpa using hc
  · rcases hreplied.aborted with heq | heq <;> rw [heq]
    · exact h.checked dst
    · simp

end

/-- After a candidacy the machines stand for one epoch more. -/
lemma stands_candidacy (hlog : m.log = .campaigned epoch :: (c.machines i).log) (j : Fin n)
    (e : ℕ) : (c.move i m net).Stands j e ↔ c.Stands j e ∨ (j = i ∧ e = epoch) := by
  unfold Stands
  rw [machines_move]
  split
  · next hj =>
    subst hj
    simp only [hlog, mem_cons, Event.campaigned.injEq, true_and]
    tauto
  · next hj => simp [hj]

/-- What the monitor or a worker of a machine does. -/
lemma step_input (h : HeartbeatInv c) (hc' : c' = c.move i (m.startCalls reqs) net)
    (hlater : Later c c') (hacts : (c.machines i).Acts input m reqs)
    (hopposed : c.Unopposed i input)
    (hnet : ∀ pkt ∈ net, pkt ∈ c.net ∨ ∃ k req dst, reqs[k]? = some req ∧
      pkt = .request i dst (m.nextCall + k) req) : HeartbeatInv c' := by
  have hmonitor : ∀ epoch, (m.startCalls reqs).standsFor = some epoch →
      .campaigned epoch ∈ (m.startCalls reqs).log :=
    fun epoch hepoch => hacts.campaigned (h.campaigned i) hepoch
  have hbeat : ∀ src dst id hbLog, .request src dst id (.heartbeat hbLog) ∈ net →
      c.Beats hbLog := by
    intro src dst id hbLog hin
    rcases hnet _ hin with hin | ⟨k, req, dst', hreq, heq⟩
    · exact h.beat _ _ _ _ hin
    · obtain ⟨-, -, -, rfl⟩ := Packet.request.inj heq
      exact h.beats_input hacts (mem_of_getElem? hreq)
  have hchecked : (m.startCalls reqs).aborted ≠ some .twoLeaders := by
    show m.aborted ≠ _
    rcases hacts.aborted with heq | heq <;> rw [heq]
    · exact h.checked i
    · simp
  by_cases hinput : input = .electionTimeout
  · subst hinput hc'
    cases hacts with
    | electionTimeout hmon hrole =>
      refine h.electionTimeout hlater.votes ?_ (stands_candidacy rfl) (hopposed.alone rfl) hrole
        (by rw [machines_move_self]; rfl) (fun j hj => by rw [machines_move, if_neg hj]) hbeat ?_
      · exact forall_machines_move (I := fun _ m => ∀ epoch, m.standsFor = some epoch →
          .campaigned epoch ∈ m.log) h.campaigned hmonitor
      · exact forall_machines_move (I := fun _ m => m.aborted ≠ some .twoLeaders) h.checked hchecked
  · obtain ⟨horiented, hleader⟩ := h.oriented_acts hacts hinput hopposed
    refine h.quiet_move hc' hlater hmonitor (fun epoch hc => ?_) horiented
      (fun _ hl => hleader.trans hl) hbeat hchecked
    -- a candidacy is recorded by a timeout only
    obtain ⟨new, heq, hnew⟩ := hacts.log
    rw [startCalls_log, heq] at hc
    exact (mem_append.mp hc).resolve_left fun hin => hinput (hnew _ hin).1

lemma step (h : HeartbeatInv c) (hG : orderly c a) (hstep : c.step a = some c') :
    HeartbeatInv c' := by
  have hkeeps := keepsEpochs_of_orderly hG
  have hsteps := steps_of_step hG hstep
  have hlater : Later c c' := ⟨h.votes.step hkeeps hstep, hsteps.log_subset,
    curEpoch_le_of_run (Lts.Run.single hkeeps hstep)⟩
  cases hsteps with
  | lost hnet =>
    exact h.quiet hlater.votes h.campaigned rfl hlater.epoch h.oriented (fun _ _ hl => hl)
      (fun _ _ _ _ hpkt => h.beat _ _ _ _ (hnet hpkt)) h.checked
  | request hpkt halive hfrom hnet => exact h.step_request rfl hlater hpkt halive hfrom hnet
  | reply hpkt hreplied halive hno hnet => exact h.step_reply rfl hlater hreplied hno hnet
  | input hacts halive hopposed hnet => exact h.step_input rfl hlater hacts hopposed hnet

end HeartbeatInv

lemma heartbeatInv_of_run {c : Cluster n S} (h : Lts.Run system orderly init c) :
    HeartbeatInv c :=
  h.invariant HeartbeatInv (fun _ _ _ hd hG hs => hd.step hG hs) heartbeatInv_init

end Cluster

namespace Threads

open Cluster (orderly)

/-- In every run in which handlers are not disturbed and epoch and leader of every machine change
together, `OnHeartbeat` never reaches its `verify(0)`. -/
theorem no_twoLeaders {s : Threads n S} (h : Lts.Run system (serial orderly) init s) (i : Fin n) :
    (s.machines i).aborted ≠ some .twoLeaders := by
  have hinv := Cluster.heartbeatInv_of_run (run_settled h nodup_nil).2
  intro habort
  exact hinv.checked i (by rw [settled_of_aborted (by rw [habort]; rfl), habort])

/-- Machine 1 wins epoch 3 with machine 2, which then takes its heartbeat. -/
theorem no_twoLeaders_followed : ∃ s : Threads 3 1, Lts.Run system (serial orderly) init s ∧
    (s.machines 2).es.leaderId = some 1 ∧ .elected 3 ∈ (s.machines 1).log ∧
    (s.machines 2).aborted ≠ some .twoLeaders := by
  obtain ⟨c, hrun, hleader, helected⟩ := Lts.exists_run_of_execGuarded
    (Cluster.system : Lts.System (Cluster 3 1) _) orderly Cluster.init
    [.act 0 .heartbeatTick, .deliver 1, .deliver 1, .act 1 .electionTimeout, .deliver 4,
      .deliver 5, .deliver 4, .deliver 4, .act 1 .prepareReturns, .act 1 .electionWakes,
      .act 1 .stuffTodoLeaderElection, .act 1 .heartbeatTick, .deliver 6]
    (fun c => (c.machines 2).es.leaderId = some 1 ∧ .elected 3 ∈ (c.machines 1).log)
    (by decide +kernel)
  exact ⟨ofCluster c, run_ofCluster hrun, hleader, helected, no_twoLeaders (run_ofCluster hrun) 2⟩

/-- Machine 2 follows leader 0 in epoch 2. Machine 1 wins epoch 3 and its accept reaches machine 2,
which stores the leader 1 but stays in epoch 2. A heartbeat of leader 0 that was under way then
fails the check, although epoch 2 was led by machine 0 only and epoch 3 by machine 1 only. -/
theorem twoLeaders_after_accept : ∃ s : Threads 3 1, Lts.Reachable system s ∧
    (∀ i j epoch, Machine.Leads i (s.machines i).log epoch →
      Machine.Leads j (s.machines j).log epoch → i = j) ∧
    (s.machines 2).aborted = some .twoLeaders := by
  obtain ⟨c, hreach, helected, habort⟩ := Lts.exists_reachable_of_exec
    (Cluster.system : Lts.System (Cluster 3 1) _)
    -- machines 1 and 2 follow the leader of epoch 2, which sends a second heartbeat
    [.act 0 .heartbeatTick, .deliver 1, .deliver 1, .act 0 .heartbeatTick,
      -- machine 1 wins epoch 3 with machine 0
      .act 1 .electionTimeout, .deliver 7, .deliver 8, .deliver 6, .deliver 7,
      .act 1 .prepareReturns, .act 1 .electionWakes, .act 1 .stuffTodoLeaderElection,
      -- its accept and the second heartbeat reach machine 2
      .act 1 (.addLogToNc 0 ⟨[8]⟩), .act 1 (.bulkSubmit 0 0), .deliver 9, .deliver 5]
    (fun c => (∀ i, (c.machines i).log.filterMap Event.electedIn = if i = 1 then [3] else []) ∧
      (c.machines 2).aborted = some .twoLeaders) (by decide +kernel)
  have hwon : ∀ i epoch, .elected epoch ∈ (c.machines i).log → i = 1 ∧ epoch = 3 := by
    intro i epoch hin
    have hmem : epoch ∈ (c.machines i).log.filterMap Event.electedIn :=
      List.mem_filterMap.mpr ⟨_, hin, rfl⟩
    rw [helected i] at hmem
    split at hmem
    · next hi => exact ⟨hi, List.mem_singleton.mp hmem⟩
    · simp at hmem
  refine ⟨ofCluster c, reachable_ofCluster hreach, fun i j epoch hi hj => ?_, habort⟩
  rcases hi with hi | ⟨hi, he⟩ <;> rcases hj with hj | ⟨hj, he'⟩
  · exact (hwon i epoch hi).1.trans (hwon j epoch hj).1.symm
  · exact absurd ((hwon i epoch hi).2.symm.trans he') (by decide)
  · exact absurd ((hwon j epoch hj).2.symm.trans he) (by decide)
  · exact Fin.ext (hi.trans hj.symm)

end Threads

end Rolis.Paxos
