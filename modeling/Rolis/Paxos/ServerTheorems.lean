import Rolis.Paxos.Server

/-!
# What the request handlers change

Field lemmas for the operations of a handler, one rule for the loop of the bulk handlers
(`bulkLoop_inv`) and one for a whole bulk handler (`bulkHandler_inv`), and what every handler
leaves alone (`SameSender`): the sender's side of the machine is not touched by a request.
-/

namespace Rolis.Paxos

open List PaxosServer

variable {n S : ℕ} {α : Type} {ballotOf : α → ℕ} {write : Machine n S → α → Machine n S}
  {finish : PaxosServer n → PaxosServer n} {par : Fin S} {leader : Fin n} {entries : List α}
  {m : Machine n S} {ps : PaxosServer n} {site : VerifySite}

namespace PaxosServer

/-! ## The loops that call `app_next_` -/

section Loops

variable {I : PaxosServer n → Prop} {ps : PaxosServer n}

/-- What every call of `app_next_` keeps, the loop of the commit handlers keeps. -/
lemma executeLoop_inv (hnext : ∀ ps cmd, I ps →
      (ps.logs (ps.maxExecutedSlot + 1)).committedCmd = some cmd → I (ps.applyNext cmd))
    (k : ℕ) (h : I ps) : I (executeLoop k ps) := by
  induction k generalizing ps with
  | zero => exact h
  | succ k ih =>
    unfold executeLoop
    split
    · next hcmd => exact ih (hnext _ _ h hcmd)
    · exact h

/-- The same for the second loop of `OnSyncNoOps`, which applies no slot that is marked. -/
lemma executeNoOpsLoop_inv (hnext : ∀ ps cmd, I ps →
      (ps.logs (ps.maxExecutedSlot + 1)).committedCmd = some cmd →
      (ps.logs (ps.maxExecutedSlot + 1)).isNoOp = false → I (ps.applyNext cmd))
    (k : ℕ) (h : I ps) : I (executeNoOpsLoop k ps).1 := by
  induction k generalizing ps with
  | zero => exact h
  | succ k ih =>
    unfold executeNoOpsLoop
    split
    · next hcmd hno => exact ih (hnext _ _ h hcmd hno)
    · exact h

/-- The loops write `max_executed_slot_` and call `app_next_`. -/
lemma executeNoOpsLoop_eq (k : ℕ) (ps : PaxosServer n) : ∃ executed applied,
    (executeNoOpsLoop k ps).1 = { ps with maxExecutedSlot := executed, applied := applied } := by
  refine executeNoOpsLoop_inv (I := fun ps' => ∃ executed applied,
    ps' = { ps with maxExecutedSlot := executed, applied := applied }) ?_ k ⟨_, _, rfl⟩
  rintro _ cmd ⟨executed, applied, rfl⟩ _ _
  exact ⟨_, _, rfl⟩

/-- What `OnSyncNoOps` leaves of a stream: nothing has happened, or both loops have run, and the
assignments at the end may have been reached. -/
lemma syncNoOps_eq (ps : PaxosServer n) (syncSlot epoch : ℕ) :
    (ps.syncNoOps syncSlot epoch).1 = ps ∨ ∃ executed openSlot,
      (openSlot = ps.curOpenSlot ∨ openSlot = ps.maxCommittedSlot + 1) ∧
      (ps.syncNoOps syncSlot epoch).1 =
        { (executeNoOpsLoop (ps.maxCommittedSlot - ps.maxExecutedSlot)
            (ps.fillNoOps syncSlot epoch)).1 with
          maxExecutedSlot := executed, curOpenSlot := openSlot } := by
  obtain ⟨_, _, h⟩ := executeNoOpsLoop_eq (ps.maxCommittedSlot - ps.maxExecutedSlot)
    (ps.fillNoOps syncSlot epoch)
  unfold syncNoOps
  split
  · exact .inl rfl
  · refine .inr ?_
    split
    · next heq =>
      rw [heq] at h ⊢
      subst h
      exact ⟨_, _, .inl rfl, rfl⟩
    · next heq =>
      rw [heq] at h ⊢
      subst h
      exact ⟨_, _, .inr rfl, rfl⟩

end Loops

section Execute

variable (ps : PaxosServer n)

lemma execute_eq : ∃ executed applied,
    ps.execute = { ps with maxExecutedSlot := executed, applied := applied } := by
  refine executeLoop_inv (I := fun ps' => ∃ executed applied,
    ps' = { ps with maxExecutedSlot := executed, applied := applied }) ?_ _ ⟨_, _, rfl⟩
  rintro _ cmd ⟨executed, applied, rfl⟩ _
  exact ⟨_, _, rfl⟩

@[simp] lemma execute_logs : ps.execute.logs = ps.logs := by
  obtain ⟨executed, applied, h⟩ := ps.execute_eq
  rw [h]

@[simp] lemma execute_curEpoch : ps.execute.curEpoch = ps.curEpoch := by
  obtain ⟨executed, applied, h⟩ := ps.execute_eq
  rw [h]

@[simp] lemma execute_curOpenSlot : ps.execute.curOpenSlot = ps.curOpenSlot := by
  obtain ⟨executed, applied, h⟩ := ps.execute_eq
  rw [h]

@[simp] lemma execute_maxCommittedSlot :
    ps.execute.maxCommittedSlot = ps.maxCommittedSlot := by
  obtain ⟨executed, applied, h⟩ := ps.execute_eq
  rw [h]

end Execute

end PaxosServer

namespace Machine

/-! ## Field lemmas -/

section Fields

variable (m : Machine n S) (i : Fin S) (ps : PaxosServer n) (site : VerifySite) (leader : Fin n)

@[simp] lemma setServer_aborted : (m.setServer i ps).aborted = m.aborted := rfl
@[simp] lemma abort_log : (m.abort site).log = m.log := rfl
@[simp] lemma abort_aborted : (m.abort site).aborted = some site := rfl

/-- `seeLeader` writes `cur_state` only. -/
lemma seeLeader_eq : ∃ state, m.seeLeader leader = { m with es := { m.es with
    curState := state } } := by
  unfold seeLeader
  split
  · exact ⟨.follower, rfl⟩
  · exact ⟨m.es.curState, rfl⟩

@[simp] lemma seeLeader_server : (m.seeLeader leader).server i = m.server i := by
  obtain ⟨state, h⟩ := m.seeLeader_eq leader
  rw [h]
  rfl

@[simp] lemma seeLeader_log : (m.seeLeader leader).log = m.log := by
  obtain ⟨state, h⟩ := m.seeLeader_eq leader
  rw [h]

@[simp] lemma seeLeader_aborted : (m.seeLeader leader).aborted = m.aborted := by
  obtain ⟨state, h⟩ := m.seeLeader_eq leader
  rw [h]

@[simp] lemma seeLeader_curEpoch : (m.seeLeader leader).es.curEpoch = m.es.curEpoch := by
  obtain ⟨state, h⟩ := m.seeLeader_eq leader
  rw [h]

end Fields

section Adopt

variable (m : Machine n S) (par i : Fin S) (leader : Fin n) (ballot : ℕ)

/-- The streams after the head of the loop body. -/
lemma adoptBallot_server : (m.adoptBallot par leader ballot).server i =
    if (m.server par).curEpoch < ballot then (m.server i).setEpoch ballot leader
    else m.server i := by
  unfold adoptBallot
  dsimp only
  split <;> rfl

/-- The head of the loop body writes no slot. -/
@[simp] lemma adoptBallot_logs :
    ((m.adoptBallot par leader ballot).server i).logs = (m.server i).logs := by
  rw [adoptBallot_server]
  split <;> rfl

@[simp] lemma adoptBallot_log : (m.adoptBallot par leader ballot).log = m.log := by
  unfold adoptBallot
  dsimp only
  split <;> rfl

@[simp] lemma adoptBallot_aborted :
    (m.adoptBallot par leader ballot).aborted = m.aborted := by
  unfold adoptBallot
  dsimp only
  split <;> rfl

@[simp] lemma adoptBallot_curEpoch :
    (m.adoptBallot par leader ballot).es.curEpoch = m.es.curEpoch := by
  unfold adoptBallot
  dsimp only
  split <;> rfl

end Adopt

/-! ## Rules for the bulk handlers -/

/-- The loop rule: what each pass keeps that gets past the epoch check, the loop keeps. -/
lemma bulkLoop_inv (I : Machine n S → Prop) (hpass : ∀ e ∈ entries, ∀ m, I m → m.aborted = none →
      (m.server par).curEpoch ≤ ballotOf e →
      I (write (m.adoptBallot par leader (ballotOf e)) e)) (hm : I m) (halive : m.aborted = none) :
    I (bulkLoop ballotOf write par leader entries m).1 := by
  induction entries generalizing m with
  | nil => exact hm
  | cons e es ih =>
    unfold bulkLoop
    split
    · exact hm
    · next hle =>
      have hwrite := hpass e mem_cons_self m hm halive (not_lt.mp hle)
      dsimp only
      split
      · exact hwrite
      · next hrun =>
        refine ih (fun e' he' => hpass e' (mem_cons_of_mem _ he')) hwrite ?_
        simpa using hrun

/-- The rule for a whole bulk handler. -/
lemma bulkHandler_inv (I : Machine n S → Prop) (hm : I m) (halive : m.aborted = none)
    (hempty : entries = [] → I (m.abort .emptyBatch)) (hsee : I (m.seeLeader leader))
    (hpass : ∀ e ∈ entries, ∀ m, I m → m.aborted = none → (m.server par).curEpoch ≤ ballotOf e →
      I (write (m.adoptBallot par leader (ballotOf e)) e))
    (hfinish : ∀ m, I m → m.aborted = none → I (m.setServer par (finish (m.server par)))) :
    I (bulkHandler ballotOf write finish par leader entries m).1 := by
  unfold bulkHandler
  split
  · exact hempty rfl
  · split
    · exact hm
    · have hloop := bulkLoop_inv I hpass hsee (by simpa using halive)
      split
      · next heq => simpa [heq] using hloop
      · next heq =>
        rw [heq] at hloop
        split
        · exact hloop
        · next hrun => exact hfinish _ hloop (by simpa using hrun)

/-- The rule for a loop that comes to its end: `I` is about the entries that are left. -/
lemma bulkLoop_done (I : List α → Machine n S → Prop) (hpass : ∀ e es m, I (e :: es) m →
      (write (m.adoptBallot par leader (ballotOf e)) e).aborted = none →
      I es (write (m.adoptBallot par leader (ballotOf e)) e)) {m' : Machine n S}
    (hloop : bulkLoop ballotOf write par leader entries m = (m', none))
    (halive : m'.aborted = none) (h : I entries m) : I [] m' := by
  induction entries generalizing m with
  | nil =>
    obtain ⟨rfl, -⟩ := Prod.mk.inj hloop
    exact h
  | cons e es ih =>
    unfold bulkLoop at hloop
    split at hloop
    · simp at hloop
    · dsimp only at hloop
      split at hloop
      · next habort =>
        obtain ⟨rfl, -⟩ := Prod.mk.inj hloop
        simp [halive] at habort
      · next hrun => exact ih hloop (hpass e es m h (by simpa using hrun))

/-- A bulk handler answers yes when its loop has come to its end. -/
lemma bulkHandler_valid {rep : Reply S}
    (hrep : (bulkHandler ballotOf write finish par leader entries m).2 = some rep)
    (hvalid : rep.valid = true) :
    ∃ m', bulkLoop ballotOf write par leader entries (m.seeLeader leader) = (m', none) ∧
      m'.aborted = none ∧ (bulkHandler ballotOf write finish par leader entries m).1 =
        m'.setServer par (finish (m'.server par)) := by
  unfold bulkHandler at hrep ⊢
  split at hrep
  · simp at hrep
  · split at hrep
    · cases hrep
      simp [reject] at hvalid
    · next hle =>
      rw [if_neg hle]
      split at hrep
      · cases hrep
        simp [reject] at hvalid
      · next m' heq =>
        split at hrep
        · simp at hrep
        · next hrun => exact ⟨m', heq, by simpa using hrun, if_neg hrun ▸ rfl⟩

/-! ## What a request leaves alone -/

/-- The two machines have the same sender's side; only `rep_sched_` of the streams, the
election state, the history and the abort flag may differ. -/
structure SameSender (m m' : Machine n S) : Prop where
  machineId : m'.es.machineId = m.es.machineId
  back : m'.back = m.back
  monitor : m'.monitor = m.monitor
  calls : m'.calls = m.calls
  nextCall : m'.nextCall = m.nextCall
  worker : ∀ i, m'.streams i = { m.streams i with sched := m'.server i }

namespace SameSender

variable {m m' m'' : Machine n S}

lemma refl (m : Machine n S) : SameSender m m := ⟨rfl, rfl, rfl, rfl, rfl, fun _ => rfl⟩

lemma trans (h : SameSender m m') (h' : SameSender m' m'') : SameSender m m'' where
  machineId := h'.machineId.trans h.machineId
  back := h'.back.trans h.back
  monitor := h'.monitor.trans h.monitor
  calls := h'.calls.trans h.calls
  nextCall := h'.nextCall.trans h.nextCall
  worker i := by rw [h'.worker i, h.worker i]

lemma abort (m : Machine n S) (site : VerifySite) : SameSender m (m.abort site) :=
  ⟨rfl, rfl, rfl, rfl, rfl, fun _ => rfl⟩

lemma setServer (m : Machine n S) (i : Fin S) (ps : PaxosServer n) :
    SameSender m (m.setServer i ps) := by
  refine ⟨rfl, rfl, rfl, rfl, rfl, fun j => ?_⟩
  by_cases h : j = i
  · subst h
    simp [Machine.setServer, server]
  · simp [Machine.setServer, server, Function.update_of_ne h]

lemma mapServers (m : Machine n S) (f : Fin S → PaxosServer n → PaxosServer n) :
    SameSender m (m.mapServers f) :=
  ⟨rfl, rfl, rfl, rfl, rfl, fun _ => rfl⟩

lemma seeLeader (m : Machine n S) (leader : Fin n) : SameSender m (m.seeLeader leader) := by
  obtain ⟨state, h⟩ := m.seeLeader_eq leader
  rw [h]
  exact ⟨rfl, rfl, rfl, rfl, rfl, fun _ => rfl⟩

lemma adoptBallot (m : Machine n S) (par : Fin S) (leader : Fin n) (ballot : ℕ) :
    SameSender m (m.adoptBallot par leader ballot) := by
  unfold Machine.adoptBallot
  dsimp only
  split <;> exact ⟨rfl, rfl, rfl, rfl, rfl, fun _ => rfl⟩

lemma acceptEntry (par : Fin S) (m : Machine n S) (e : PaxosEntry) :
    SameSender m (m.acceptEntry par e) :=
  (setServer m par ((m.server par).accept e)).trans ⟨rfl, rfl, rfl, rfl, rfl, fun _ => rfl⟩

lemma syncCommitEntry (par : Fin S) (m : Machine n S) (e : PaxosEntry) :
    SameSender m (m.syncCommitEntry par e) := by
  unfold Machine.syncCommitEntry
  split
  · exact setServer ..
  · exact abort ..

lemma bulkCommitEntry (par : Fin S) (m : Machine n S) (e : SlotBallot) :
    SameSender m (m.bulkCommitEntry par e) := by
  unfold Machine.bulkCommitEntry
  split
  · exact setServer ..
  · exact abort ..

lemma bulkHandler (hwrite : ∀ m e, SameSender m (write m e)) (m : Machine n S)
    (halive : m.aborted = none) :
    SameSender m (bulkHandler ballotOf write finish par leader entries m).1 := by
  refine bulkHandler_inv (SameSender m) (refl m) halive (fun _ => abort m _) (seeLeader m leader)
    ?_ ?_
  · intro e _ m' h _ _
    exact (h.trans (adoptBallot m' par leader _)).trans (hwrite _ e)
  · intro m' h _
    exact h.trans (setServer ..)

lemma noOpsLoop (epoch : ℕ) (syncSlots : Fin S → ℕ) (is : List (Fin S)) (m : Machine n S) :
    SameSender m (noOpsLoop epoch syncSlots is m) := by
  induction is generalizing m with
  | nil => exact refl m
  | cons i is ih =>
    unfold Machine.noOpsLoop
    split
    · exact (setServer m i _).trans (abort _ _)
    · exact (setServer m i _).trans (ih _)

end SameSender

/-! ## The election handlers by cases -/

/-- The epoch check of `OnBulkPrepare`. -/
def Grants (m : Machine n S) (bpLog : BulkPrepareLog n S) : Prop :=
  m.es.curEpoch < bpLog.epoch ∨
    (m.es.curEpoch = bpLog.epoch ∧ bpLog.leaderId = m.es.machineId)

instance (m : Machine n S) (bpLog : BulkPrepareLog n S) : Decidable (m.Grants bpLog) :=
  inferInstanceAs (Decidable (_ ∨ _))

lemma onBulkPrepare_cases (m : Machine n S) (bpLog : BulkPrepareLog n S) :
    (¬ m.Grants bpLog ∧ m.onBulkPrepare bpLog = (m, some (reject m.es.curEpoch))) ∨
    (m.Grants bpLog ∧ m.onBulkPrepare bpLog = (m.abort .seenBallot, none)) ∨
    (m.Grants bpLog ∧ m.onBulkPrepare bpLog =
      (m.grantPrepare bpLog, some { ballot := bpLog.epoch, valid := true })) := by
  unfold onBulkPrepare Grants
  split
  · next h => exact .inl ⟨by omega, rfl⟩
  · next hlt =>
    split
    · next h =>
      refine .inl ⟨?_, rfl⟩
      rintro (h' | h')
      · omega
      · exact h.2 h'.2
    · next h =>
      have hgrant : m.es.curEpoch < bpLog.epoch ∨
          (m.es.curEpoch = bpLog.epoch ∧ bpLog.leaderId = m.es.machineId) := by
        by_contra hno
        rw [not_or, not_and] at hno
        exact h ⟨by omega, hno.2 (by omega)⟩
      split
      · exact .inr (.inl ⟨hgrant, rfl⟩)
      · exact .inr (.inr ⟨hgrant, rfl⟩)

lemma onHeartbeat_cases (m : Machine n S) (hbLog : HeartBeatLog n) : (hbLog.epoch < m.es.curEpoch ∧
      m.onHeartbeat hbLog = (m, some (reject m.es.curEpoch))) ∨
    (hbLog.epoch = m.es.curEpoch ∧ m.onHeartbeat hbLog = (m.abort .twoLeaders, none)) ∨
    (hbLog.epoch = m.es.curEpoch ∧
      m.onHeartbeat hbLog = (m.seeLeader hbLog.leaderId, some { valid := true })) ∨
    (m.es.curEpoch < hbLog.epoch ∧
      m.onHeartbeat hbLog = (m.followHeartbeat hbLog, some { valid := true })) := by
  unfold onHeartbeat
  split
  · next h => exact .inl ⟨h, rfl⟩
  · split
    · next h =>
      split
      · exact .inr (.inl ⟨h, rfl⟩)
      · exact .inr (.inr (.inl ⟨h, rfl⟩))
    · exact .inr (.inr (.inr ⟨by omega, rfl⟩))

section Grant

variable (m : Machine n S) (bpLog : BulkPrepareLog n S) (hbLog : HeartBeatLog n) (i : Fin S)

@[simp] lemma grantPrepare_server : (m.grantPrepare bpLog).server i =
    (m.server i).prepare bpLog.epoch bpLog.leaderId (bpLog.minPreparedSlots i).2 := by
  unfold grantPrepare
  exact seeLeader_server ..

@[simp] lemma grantPrepare_curEpoch : (m.grantPrepare bpLog).es.curEpoch = bpLog.epoch := rfl

lemma grantPrepare_sameSender : SameSender m (m.grantPrepare bpLog) :=
  ((SameSender.mapServers m _).trans (.seeLeader _ _)).trans ⟨rfl, rfl, rfl, rfl, rfl, fun _ => rfl⟩

lemma followHeartbeat_sameSender : SameSender m (m.followHeartbeat hbLog) :=
  (SameSender.mapServers m _).trans ⟨rfl, rfl, rfl, rfl, rfl, fun _ => rfl⟩

end Grant

/-- No handler touches the sender's side. -/
lemma handle_sameSender (m : Machine n S) (req : Request n S) (halive : m.aborted = none) :
    SameSender m (m.handle req).1 := by
  cases req with
  | bulkPrepare bpLog =>
    rw [handle]
    obtain ⟨-, h⟩ | ⟨-, h⟩ | ⟨-, h⟩ := m.onBulkPrepare_cases bpLog <;> rw [h]
    · exact .refl m
    · exact .abort m _
    · exact grantPrepare_sameSender m bpLog
  | heartbeat hbLog =>
    rw [handle]
    obtain ⟨-, h⟩ | ⟨-, h⟩ | ⟨-, h⟩ | ⟨-, h⟩ := m.onHeartbeat_cases hbLog <;> rw [h]
    · exact .refl m
    · exact .abort m _
    · exact .seeLeader m _
    · exact followHeartbeat_sameSender m hbLog
  | syncLog req =>
    simp only [handle, onSyncLog]
    split <;> exact .refl m
  | syncCommit par cmd => exact .bulkHandler (SameSender.syncCommitEntry par) m halive
  | syncNoOps req =>
    simp only [handle, onSyncNoOps]
    split
    · exact .refl m
    · split <;> exact .noOpsLoop ..
  | bulkAccept par cmd => exact .bulkHandler (SameSender.acceptEntry par) m halive
  | bulkDecide par cmd => exact .bulkHandler (SameSender.bulkCommitEntry par) m halive

/-! ## Epoch and history -/

/-- The requests that depose the machine: another leader's prepare is granted, or another
leader's heartbeat has a higher epoch. -/
def Deposes (m : Machine n S) : Request n S → Prop
  | .bulkPrepare bpLog => m.Grants bpLog ∧ bpLog.leaderId ≠ m.es.machineId
  | .heartbeat hbLog => m.es.curEpoch < hbLog.epoch ∧ hbLog.leaderId ≠ m.es.machineId
  | _ => False

/-- The events a handler may record. -/
def HandlerEvent (m : Machine n S) (req : Request n S) : Event n S → Prop
  | .voted epoch leader => ∃ bpLog, req = .bulkPrepare bpLog ∧ bpLog.epoch = epoch ∧
      bpLog.leaderId = leader ∧ m.Grants bpLog ∧ (m.handle req).1.es.curEpoch = epoch
  | .deposed => m.Deposes req
  | .accepted par slot ballot cmd => ∃ bulk, req = .bulkAccept par bulk ∧
      ⟨slot, ballot, cmd⟩ ∈ bulk.entries ∧ (m.server par).curEpoch ≤ ballot
  | _ => False

/-- A bulk handler keeps the epoch of the election state. -/
lemma bulkHandler_curEpoch (hwrite : ∀ m e, (write m e).es.curEpoch = m.es.curEpoch)
    (m : Machine n S) (halive : m.aborted = none) :
    (bulkHandler ballotOf write finish par leader entries m).1.es.curEpoch = m.es.curEpoch := by
  refine bulkHandler_inv (fun m' => m'.es.curEpoch = m.es.curEpoch) rfl halive (fun _ => rfl)
    (seeLeader_curEpoch ..) ?_ (fun _ h _ => h)
  intro e _ m' h _ _
  rw [hwrite, adoptBallot_curEpoch, h]

/-- A bulk handler records only what its writes record. -/
lemma bulkHandler_log {E : Event n S → Prop}
    (hwrite : ∀ m, ∀ e ∈ entries, ∃ new, (write m e).log = new ++ m.log ∧ ∀ ev ∈ new, E ev)
    (m : Machine n S) (halive : m.aborted = none) :
    ∃ new, (bulkHandler ballotOf write finish par leader entries m).1.log = new ++ m.log ∧
      ∀ ev ∈ new, E ev := by
  refine bulkHandler_inv (fun m' => ∃ new, m'.log = new ++ m.log ∧ ∀ ev ∈ new, E ev)
    ⟨[], rfl, by simp⟩ halive (fun _ => ⟨[], rfl, by simp⟩) ⟨[], by simp⟩ ?_ (fun _ h _ => h)
  rintro e he m' ⟨new, hnew, hE⟩ _ _
  obtain ⟨new', hnew', hE'⟩ := hwrite (m'.adoptBallot par leader (ballotOf e)) e he
  refine ⟨new' ++ new, by rw [hnew', adoptBallot_log, hnew, append_assoc], ?_⟩
  intro ev hev
  exact (mem_append.mp hev).elim (hE' ev) (hE ev)

@[simp] lemma acceptEntry_server_self (par : Fin S) (m : Machine n S) (e : PaxosEntry) :
    (m.acceptEntry par e).server par = (m.server par).accept e :=
  server_setServer_self m par _

lemma acceptEntry_curEpoch (par : Fin S) (m : Machine n S) (e : PaxosEntry) :
    (m.acceptEntry par e).es.curEpoch = m.es.curEpoch := rfl

lemma syncCommitEntry_es (par : Fin S) (m : Machine n S) (e : PaxosEntry) :
    (m.syncCommitEntry par e).es = m.es := by
  unfold syncCommitEntry
  split <;> rfl

lemma syncCommitEntry_log (par : Fin S) (m : Machine n S) (e : PaxosEntry) :
    (m.syncCommitEntry par e).log = m.log := by
  unfold syncCommitEntry
  split <;> rfl

lemma bulkCommitEntry_es (par : Fin S) (m : Machine n S) (e : SlotBallot) :
    (m.bulkCommitEntry par e).es = m.es := by
  unfold bulkCommitEntry
  split <;> rfl

lemma bulkCommitEntry_log (par : Fin S) (m : Machine n S) (e : SlotBallot) :
    (m.bulkCommitEntry par e).log = m.log := by
  unfold bulkCommitEntry
  split <;> rfl

lemma noOpsLoop_es_log (epoch : ℕ) (syncSlots : Fin S → ℕ) (is : List (Fin S)) (m : Machine n S) :
    (noOpsLoop epoch syncSlots is m).es = m.es ∧ (noOpsLoop epoch syncSlots is m).log = m.log := by
  induction is generalizing m with
  | nil => exact ⟨rfl, rfl⟩
  | cons i is ih =>
    unfold noOpsLoop
    split
    · exact ⟨rfl, rfl⟩
    · exact ih _

section

variable (m : Machine n S)

lemma onSyncNoOps_es_log (req : SyncNoOpRequest n S) :
    (m.onSyncNoOps req).1.es = m.es ∧ (m.onSyncNoOps req).1.log = m.log := by
  unfold onSyncNoOps
  split
  · exact ⟨rfl, rfl⟩
  · dsimp only
    split <;> exact noOpsLoop_es_log ..

lemma onSyncLog_machine (req : SyncLogRequest n S) : (m.onSyncLog req).1 = m := by
  unfold onSyncLog
  split <;> rfl

/-- No handler lowers the epoch of the election state. -/
lemma curEpoch_le_handle (req : Request n S) (halive : m.aborted = none) :
    m.es.curEpoch ≤ (m.handle req).1.es.curEpoch := by
  cases req with
  | bulkPrepare bpLog =>
    rw [handle]
    obtain ⟨-, h⟩ | ⟨-, h⟩ | ⟨hg, h⟩ := m.onBulkPrepare_cases bpLog <;> rw [h]
    · exact le_refl _
    · rcases hg with hg | hg
      · exact hg.le
      · exact hg.1.le
  | heartbeat hbLog =>
    rw [handle]
    obtain ⟨-, h⟩ | ⟨-, h⟩ | ⟨-, h⟩ | ⟨hlt, h⟩ := m.onHeartbeat_cases hbLog <;> rw [h]
    · exact le_refl _
    · rw [seeLeader_curEpoch]
    · exact hlt.le
  | syncLog req => rw [handle, onSyncLog_machine]
  | syncCommit par cmd =>
    exact (bulkHandler_curEpoch (fun m e => by rw [syncCommitEntry_es]) m halive).ge
  | syncNoOps req => rw [handle, (onSyncNoOps_es_log m req).1]
  | bulkAccept par cmd => exact (bulkHandler_curEpoch (acceptEntry_curEpoch par) m halive).ge
  | bulkDecide par cmd =>
    exact (bulkHandler_curEpoch (fun m e => by rw [bulkCommitEntry_es]) m halive).ge

lemma grantPrepare_log (bpLog : BulkPrepareLog n S) :
    (m.grantPrepare bpLog).log = .voted bpLog.epoch bpLog.leaderId ::
      if bpLog.leaderId ≠ m.es.machineId then .deposed :: m.log else m.log := rfl

lemma followHeartbeat_log (hbLog : HeartBeatLog n) : (m.followHeartbeat hbLog).log =
      if hbLog.leaderId ≠ m.es.machineId then .deposed :: m.log else m.log := rfl

lemma curEpoch_le_adoptBallot (par : Fin S) (leader : Fin n) (ballot : ℕ) :
    (m.server par).curEpoch ≤ ((m.adoptBallot par leader ballot).server par).curEpoch := by
  rw [adoptBallot_server]
  split
  · next h => exact h.le
  · exact le_refl _

/-- What `OnBulkAccept` records: the epoch of its stream only rises on the way, so every entry it
accepts has at least the epoch the stream had before. -/
lemma onBulkAccept_log (par : Fin S) (cmd : BulkPaxosCmd n) (halive : m.aborted = none) :
    ∃ new, (m.onBulkAccept par cmd).1.log = new ++ m.log ∧
      ∀ ev ∈ new, m.HandlerEvent (.bulkAccept par cmd) ev := by
  refine (bulkHandler_inv (fun m' => (m.server par).curEpoch ≤ (m'.server par).curEpoch ∧
    ∃ new, m'.log = new ++ m.log ∧ ∀ ev ∈ new, m.HandlerEvent (.bulkAccept par cmd) ev)
    ⟨le_refl _, [], rfl, by simp⟩ halive (fun _ => ⟨le_refl _, [], rfl, by simp⟩)
    ⟨by simp, [], by simp, by simp⟩ ?_ ?_).2
  · rintro e he m' ⟨hepoch, new, hnew, hev⟩ _ hle
    refine ⟨hepoch.trans ?_, .accepted par e.slot e.ballot e.cmd :: new, ?_, ?_⟩
    · rw [acceptEntry_server_self]
      exact curEpoch_le_adoptBallot m' par cmd.leaderId e.ballot
    · simp [acceptEntry, hnew]
    · rintro ev (_ | ⟨_, hmem⟩)
      · exact ⟨cmd, rfl, he, hepoch.trans hle⟩
      · exact hev ev hmem
  · rintro m' ⟨hepoch, hlog⟩ _
    exact ⟨by simpa using hepoch, hlog⟩

/-- What a handler adds to the history. -/
lemma handle_log (req : Request n S) (halive : m.aborted = none) :
    ∃ new, (m.handle req).1.log = new ++ m.log ∧ ∀ ev ∈ new, m.HandlerEvent req ev := by
  have hsame : ∀ {m' : Machine n S}, m'.log = m.log →
      ∃ new, m'.log = new ++ m.log ∧ ∀ ev ∈ new, m.HandlerEvent req ev :=
    fun h => ⟨[], by simpa using h, by simp⟩
  cases req with
  | bulkPrepare bpLog =>
    obtain ⟨-, h⟩ | ⟨-, h⟩ | ⟨hg, h⟩ := m.onBulkPrepare_cases bpLog
    · exact hsame (by rw [handle, h])
    · exact hsame (by rw [handle, h, abort_log])
    · have hvoted : m.HandlerEvent (.bulkPrepare bpLog) (.voted bpLog.epoch bpLog.leaderId) :=
        ⟨bpLog, rfl, rfl, rfl, hg, by rw [handle, h, grantPrepare_curEpoch]⟩
      by_cases hl : bpLog.leaderId ≠ m.es.machineId
      · refine ⟨[.voted bpLog.epoch bpLog.leaderId, .deposed], ?_, ?_⟩
        · rw [handle, h, grantPrepare_log, if_pos hl]
          rfl
        · simp only [mem_cons, not_mem_nil, or_false, forall_eq_or_imp, forall_eq]
          exact ⟨hvoted, hg, hl⟩
      · refine ⟨[.voted bpLog.epoch bpLog.leaderId], ?_, ?_⟩
        · rw [handle, h, grantPrepare_log, if_neg hl]
          rfl
        · simpa using hvoted
  | heartbeat hbLog =>
    obtain ⟨-, h⟩ | ⟨-, h⟩ | ⟨-, h⟩ | ⟨hlt, h⟩ := m.onHeartbeat_cases hbLog
    · exact hsame (by rw [handle, h])
    · exact hsame (by rw [handle, h, abort_log])
    · exact hsame (by rw [handle, h, seeLeader_log])
    · by_cases hl : hbLog.leaderId ≠ m.es.machineId
      · refine ⟨[.deposed], by rw [handle, h, followHeartbeat_log, if_pos hl]; rfl, ?_⟩
        exact fun ev hev => mem_singleton.mp hev ▸ ⟨hlt, hl⟩
      · exact hsame (by rw [handle, h, followHeartbeat_log, if_neg hl])
  | syncLog req => exact hsame (by rw [handle, onSyncLog_machine])
  | syncCommit par cmd =>
    exact bulkHandler_log (fun m e _ => ⟨[], syncCommitEntry_log par m e, by simp⟩) m halive
  | syncNoOps req => exact hsame (onSyncNoOps_es_log m req).2
  | bulkAccept par cmd => exact onBulkAccept_log m par cmd halive
  | bulkDecide par cmd =>
    exact bulkHandler_log (fun m e _ => ⟨[], bulkCommitEntry_log par m e, by simp⟩) m halive

end

end Machine

/-! ## Invariants of a stream -/

/-- A property of one stream that the operations keep which write no slot. -/
structure PaxosServer.Quiet (Q : PaxosServer n → Prop) : Prop where
  prepare : ∀ ps epoch leader slot, Q ps → Q (ps.prepare epoch leader slot)
  setEpoch : ∀ ps epoch leader, Q ps → Q (ps.setEpoch epoch leader)
  execute : ∀ ps, Q ps → Q ps.execute

/-- A property of one stream that the operations of the handlers keep, apart from `OnSyncNoOps`
and from the commit of `OnBulkCommit`, whose command may be missing. -/
structure PaxosServer.Stable (Q : PaxosServer n → Prop) : Prop extends PaxosServer.Quiet Q where
  accept : ∀ ps e, Q ps → Q (ps.accept e)
  commit : ∀ ps slot ballot cmd, Q ps → Q (ps.commit slot ballot (some cmd))

namespace Machine

section Stable

variable {Q : Fin S → PaxosServer n → Prop}

/-- Replacing one stream by one with the property keeps the property of all. -/
lemma forall_server_setServer {i : Fin S} (h : ∀ j, Q j (m.server j)) (hps : Q i ps) :
    ∀ j, Q j ((m.setServer i ps).server j) := by
  intro j
  rw [server_setServer]
  split
  · next hj => exact hj ▸ hps
  · exact h j

lemma forall_server_noOpsLoop {epoch : ℕ} {syncSlots : Fin S → ℕ}
    (hno : ∀ j ps, Q j ps → Q j (ps.syncNoOps (syncSlots j) epoch).1) (is : List (Fin S))
    (h : ∀ j, Q j (m.server j)) : ∀ j, Q j ((noOpsLoop epoch syncSlots is m).server j) := by
  induction is generalizing m with
  | nil => exact h
  | cons i is ih =>
    have hi := hno i _ (h i)
    unfold noOpsLoop
    split
    · next heq =>
      rw [heq] at hi
      exact forall_server_setServer h hi
    · next heq =>
      rw [heq] at hi
      exact ih (forall_server_setServer h hi)

lemma forall_server_onSyncNoOps {r : SyncNoOpRequest n S}
    (hno : ∀ j ps, Q j ps → Q j (ps.syncNoOps (r.syncSlots j) r.epoch).1)
    (h : ∀ j, Q j (m.server j)) : ∀ j, Q j ((m.onSyncNoOps r).1.server j) := by
  unfold onSyncNoOps
  split
  · exact h
  · dsimp only
    split <;> exact forall_server_noOpsLoop hno _ h

/-- The commits of `OnBulkCommit` keep a property. It changes no accepted command and no accepted
ballot, so each commit is of something the machine had accepted before. -/
def KeptByCommits (Q : Fin S → PaxosServer n → Prop) (m : Machine n S) (par : Fin S)
    (cmd : PaxosPrepCmd n) : Prop :=
  ∀ e ∈ cmd.entries, ∀ ps, Q par ps →
    (ps.logs e.slot).acceptedCmd = ((m.server par).logs e.slot).acceptedCmd →
    ((m.server par).logs e.slot).maxBallotAccepted = e.ballot →
    Q par (ps.commit e.slot e.ballot (ps.logs e.slot).acceptedCmd)

section Quiet

variable (hQ : ∀ j, PaxosServer.Quiet (Q j))
include hQ

lemma forall_server_adoptBallot (par : Fin S) (leader : Fin n) (ballot : ℕ)
    (h : ∀ j, Q j (m.server j)) : ∀ j, Q j ((m.adoptBallot par leader ballot).server j) := by
  intro j
  rw [adoptBallot_server]
  split
  · exact (hQ j).setEpoch _ _ _ (h j)
  · exact h j

lemma forall_server_bulkHandler (halive : m.aborted = none)
    (hwrite : ∀ m, ∀ e ∈ entries, (∀ j, Q j (m.server j)) → ∀ j, Q j ((write m e).server j))
    (hfinish : ∀ ps, Q par ps → Q par (finish ps)) (h : ∀ j, Q j (m.server j)) :
    ∀ j, Q j ((bulkHandler ballotOf write finish par leader entries m).1.server j) := by
  refine bulkHandler_inv (fun m' => ∀ j, Q j (m'.server j)) h halive (fun _ => h)
    (fun j => by rw [seeLeader_server]; exact h j) ?_ ?_
  · intro e he m' hm' _ _
    exact hwrite _ e he (forall_server_adoptBallot hQ par leader _ hm')
  · intro m' hm' _
    exact forall_server_setServer hm' (hfinish _ (hm' par))

/-- `OnBulkCommit` keeps a quiet property if its commits do. -/
lemma forall_server_onBulkCommit {cmd : PaxosPrepCmd n} (halive : m.aborted = none)
    (hcommit : KeptByCommits Q m par cmd) (h : ∀ j, Q j (m.server j)) :
    ∀ j, Q j ((m.onBulkCommit par cmd).1.server j) := by
  refine (bulkHandler_inv (fun m' => (∀ j, Q j (m'.server j)) ∧ ∀ slot,
    ((m'.server par).logs slot).acceptedCmd = ((m.server par).logs slot).acceptedCmd ∧
    ((m'.server par).logs slot).maxBallotAccepted = ((m.server par).logs slot).maxBallotAccepted)
    ⟨h, fun _ => ⟨rfl, rfl⟩⟩ halive (fun _ => ⟨h, fun _ => ⟨rfl, rfl⟩⟩) ?_ ?_ ?_).1
  · simp only [seeLeader_server]
    exact ⟨h, fun _ => ⟨trivial, trivial⟩⟩
  · rintro e he m' ⟨hm', hacc⟩ _ _
    have hadopt := forall_server_adoptBallot hQ par cmd.leaderId e.ballot hm'
    rw [← adoptBallot_logs m' par par cmd.leaderId e.ballot] at hacc
    unfold bulkCommitEntry
    split
    · next hballot =>
      obtain ⟨hcmd, hmax⟩ := hacc e.slot
      refine ⟨forall_server_setServer hadopt
        (hcommit e he _ (hadopt par) hcmd (hmax.symm.trans hballot)), fun slot => ?_⟩
      rw [server_setServer_self]
      simp only [commit, Function.update_apply]
      split
      · next hslot =>
        rw [hslot]
        exact ⟨hcmd, hballot.symm.trans hmax⟩
      · exact hacc slot
    · exact ⟨hadopt, hacc⟩
  · rintro m' ⟨hm', hacc⟩ _
    refine ⟨forall_server_setServer hm' ((hQ par).execute _ (hm' par)), fun slot => ?_⟩
    rw [server_setServer_self, execute_logs]
    exact hacc slot

/-- Every request keeps a quiet property of the streams, if what it writes into slots does. -/
lemma forall_server_handle_of_writes {req : Request n S} (halive : m.aborted = none)
    (haccept : ∀ par cmd, req = .bulkAccept par cmd → ∀ e ∈ cmd.entries, ∀ ps, Q par ps →
      Q par (ps.accept e))
    (hsync : ∀ par cmd, req = .syncCommit par cmd → ∀ e ∈ cmd.entries, ∀ ps, Q par ps →
      Q par (ps.commit e.slot e.ballot (some e.cmd)))
    (hno : ∀ r, req = .syncNoOps r → ∀ j ps, Q j ps → Q j (ps.syncNoOps (r.syncSlots j) r.epoch).1)
    (hcommit : ∀ par cmd, req = .bulkDecide par cmd → KeptByCommits Q m par cmd)
    (h : ∀ j, Q j (m.server j)) :
    ∀ j, Q j ((m.handle req).1.server j) := by
  cases req with
  | bulkPrepare bpLog =>
    intro j
    rw [handle]
    obtain ⟨-, heq⟩ | ⟨-, heq⟩ | ⟨-, heq⟩ := m.onBulkPrepare_cases bpLog <;> rw [heq]
    · exact h j
    · exact h j
    · rw [grantPrepare_server]
      exact (hQ j).prepare _ _ _ _ (h j)
  | heartbeat hbLog =>
    intro j
    rw [handle]
    obtain ⟨-, heq⟩ | ⟨-, heq⟩ | ⟨-, heq⟩ | ⟨-, heq⟩ := m.onHeartbeat_cases hbLog <;> rw [heq]
    · exact h j
    · exact h j
    · rw [seeLeader_server]
      exact h j
    · exact (hQ j).setEpoch _ _ _ (h j)
  | syncLog req =>
    rw [handle, onSyncLog_machine]
    exact h
  | syncCommit par cmd =>
    refine forall_server_bulkHandler hQ halive (fun m e he hm => ?_) (hQ par).execute h
    unfold syncCommitEntry
    split
    · exact forall_server_setServer hm (hsync par cmd rfl e he _ (hm par))
    · exact hm
  | syncNoOps req => exact forall_server_onSyncNoOps (hno req rfl) h
  | bulkAccept par cmd =>
    exact forall_server_bulkHandler hQ halive
      (fun m e he hm => forall_server_setServer hm (haccept par cmd rfl e he _ (hm par)))
      (fun _ => id) h
  | bulkDecide par cmd => exact forall_server_onBulkCommit hQ halive (hcommit par cmd rfl) h

end Quiet

/-- Every request keeps a stable property of the streams, if `OnSyncNoOps` and the commits of
`OnBulkCommit` do. -/
lemma forall_server_handle (hQ : ∀ j, PaxosServer.Stable (Q j)) {req : Request n S}
    (halive : m.aborted = none)
    (hno : ∀ r, req = .syncNoOps r → ∀ j ps, Q j ps → Q j (ps.syncNoOps (r.syncSlots j) r.epoch).1)
    (hcommit : ∀ par cmd, req = .bulkDecide par cmd → KeptByCommits Q m par cmd)
    (h : ∀ j, Q j (m.server j)) :
    ∀ j, Q j ((m.handle req).1.server j) :=
  forall_server_handle_of_writes (fun j => (hQ j).toQuiet) halive
    (fun par _ _ e _ ps hps => (hQ par).accept ps e hps)
    (fun par _ _ e _ ps hps => (hQ par).commit ps e.slot e.ballot e.cmd hps) hno hcommit h

end Stable

end Machine

/-! ## Which `verify` can fail -/

/-- The `verify`s in the handler of a request. -/
def Request.sites : Request n S → List VerifySite
  | .bulkPrepare _ => [.seenBallot]
  | .heartbeat _ => [.twoLeaders]
  | .syncLog _ => []
  | .syncCommit _ _ => [.emptyBatch, .syncCommitBallot]
  | .syncNoOps _ => [.noOpsExecuted, .noOpsHole]
  | .bulkAccept _ _ => [.emptyBatch]
  | .bulkDecide _ _ => [.emptyBatch, .bulkCommitBallot]

namespace PaxosServer

lemma executeNoOpsLoop_site (k : ℕ) (h : (executeNoOpsLoop k ps).2 = some site) :
    site = .noOpsHole := by
  induction k generalizing ps with
  | zero => simp [executeNoOpsLoop] at h
  | succ k ih =>
    unfold executeNoOpsLoop at h
    split at h
    · exact ih h
    · exact (Option.some.inj h).symm

lemma syncNoOps_site {syncSlot epoch : ℕ} (h : (ps.syncNoOps syncSlot epoch).2 = some site) :
    site = .noOpsExecuted ∨ site = .noOpsHole := by
  unfold syncNoOps at h
  split at h
  · exact .inl (Option.some.inj h).symm
  · refine .inr ?_
    split at h
    · next heq => exact executeNoOpsLoop_site _ ((congrArg Prod.snd heq).trans h)
    · simp at h

end PaxosServer

namespace Machine

lemma noOpsLoop_aborted (epoch : ℕ) (syncSlots : Fin S → ℕ) (is : List (Fin S))
    (halive : m.aborted = none) (h : (noOpsLoop epoch syncSlots is m).aborted = some site) :
    site = .noOpsExecuted ∨ site = .noOpsHole := by
  induction is generalizing m with
  | nil => simp [noOpsLoop, halive] at h
  | cons i is ih =>
    unfold noOpsLoop at h
    split at h
    · next ps site' heq =>
      cases h
      exact syncNoOps_site (congrArg Prod.snd heq)
    · exact ih (by simpa using halive) h

/-- A bulk handler fails on an empty batch or in a write. -/
lemma bulkHandler_aborted (sites : List VerifySite) (halive : m.aborted = none)
    (hempty : .emptyBatch ∈ sites)
    (hwrite : ∀ m e, m.aborted = none → ∀ site ∈ (write m e).aborted, site ∈ sites) :
    ∀ site ∈ (bulkHandler ballotOf write finish par leader entries m).1.aborted, site ∈ sites := by
  refine bulkHandler_inv (fun m' => ∀ site ∈ m'.aborted, site ∈ sites) (by simp [halive]) halive
    (fun _ => by simpa using hempty) (by simp [halive]) (fun e _ m' _ halive' _ => ?_) ?_
  · exact hwrite _ e (by simpa using halive')
  · exact fun m' _ halive' => by simp [halive']

lemma handle_aborted {req : Request n S} (halive : m.aborted = none)
    (h : (m.handle req).1.aborted = some site) : site ∈ req.sites := by
  cases req with
  | bulkPrepare bpLog =>
    rw [handle] at h
    obtain ⟨-, heq⟩ | ⟨-, heq⟩ | ⟨-, heq⟩ := m.onBulkPrepare_cases bpLog <;> rw [heq] at h
    · simp [halive] at h
    · simpa [Request.sites] using h.symm
    · have halive' : (m.grantPrepare bpLog).aborted = none :=
        (seeLeader_aborted ..).trans halive
      simp [halive'] at h
  | heartbeat hbLog =>
    rw [handle] at h
    obtain ⟨-, heq⟩ | ⟨-, heq⟩ | ⟨-, heq⟩ | ⟨-, heq⟩ := m.onHeartbeat_cases hbLog <;>
      rw [heq] at h
    · simp [halive] at h
    · simpa [Request.sites] using h.symm
    · simp [halive] at h
    · have halive' : (m.followHeartbeat hbLog).aborted = none := halive
      simp [halive'] at h
  | syncLog req =>
    rw [handle, onSyncLog_machine] at h
    simp [halive] at h
  | syncCommit par cmd =>
    refine bulkHandler_aborted (Request.sites (.syncCommit par cmd)) halive
      (by simp [Request.sites]) (fun m' e halive' site hsite => ?_) site h
    unfold syncCommitEntry at hsite
    split at hsite
    · simp [halive'] at hsite
    · cases hsite
      simp [Request.sites]
  | syncNoOps req =>
    simp only [handle, onSyncNoOps] at h
    split at h
    · simp [halive] at h
    · split at h <;> simpa [Request.sites] using noOpsLoop_aborted _ _ _ halive h
  | bulkAccept par cmd =>
    refine bulkHandler_aborted (Request.sites (.bulkAccept par cmd)) halive
      (by simp [Request.sites]) (fun m' e halive' site hsite => ?_) site h
    simp [acceptEntry, halive'] at hsite
  | bulkDecide par cmd =>
    refine bulkHandler_aborted (Request.sites (.bulkDecide par cmd)) halive
      (by simp [Request.sites]) (fun m' e halive' site hsite => ?_) site h
    unfold bulkCommitEntry at hsite
    split at hsite
    · simp [halive'] at hsite
    · cases hsite
      simp [Request.sites]

end Machine

end Rolis.Paxos
