import Rolis.Replay.Failover

/-!
# Replicas after a failover

A machine that wins the election registers the leader callback with its workers,
`sync_callbacks_for_new_leader`, before it syncs the logs and submits the marker. The leader
callback moves the watermark of its stream and nothing else: it neither replays nor looks at
`un_replay_logs_`. A follower that gets the same logs replays its queue at the marker.

So the two agree on the old epoch only if the new leader has nothing left to replay when it
changes the callbacks, and gets nothing of the old epoch after that: `promotes`. Then on every
machine a log of the old epoch is applied exactly if all streams support it, `Replica.Decided`, a
description that only mentions the logs delivered.
-/

namespace Rolis.Replay

open Sto (latestCommitId txns)

variable {N : ℕ} {a : Action N} {log : Bytes}

/-! ## A machine with both callbacks -/

/-- Where the leader callback of a stream stands. -/
inductive LeaderPc
  | idle
  /-- before the store to `cg_` -/
  | received (log : Bytes)
  /-- before `retrieveG(true)` -/
  | stored
deriving DecidableEq, Repr

/-- One machine: its streams and `sync_logger`, which callback each worker has, and `latestG`. -/
structure Replica (N : ℕ) where
  base : State N := {}
  leader : Fin N → Bool := fun _ => false
  leaderPc : Fin N → LeaderPc := fun _ => .idle
  latestG : ℕ := 0

namespace Replica

variable (r : Replica N) (i : Fin N)

/-- A step of the follower part. Paxos hands a log to the follower callback as long as it is
registered. -/
def follow (a : Action N) : Option (Replica N) :=
  match a with
  | .deliver i _ =>
    if r.leader i then none
    else ((follower N).step r.base a).map fun base => { r with base }
  | _ => ((follower N).step r.base a).map fun base => { r with base }

/-- `register_apply_callback_par_id_return(leader_replay_cb[i])`. A callback that is running goes on
to its end. -/
def swap : Replica N := { r with leader := Function.update r.leader i true }

/-- The history of a stream that got a log under the leader callback. -/
def record (log : Bytes) : Stream :=
  let st := r.base.streams i
  if isNoops log then { st with rounds := st.rounds + 1 }
  else { st with delivered := st.delivered ++ [(st.rounds, log)] }

/-- Paxos delivers a log to the leader callback. Its `get_latest_commit_id` asserts at least eight
bytes; a marker is a log like any other. -/
def deliver (log : Bytes) : Option (Replica N) :=
  if r.leader i = true ∧ (r.base.streams i).pc = .idle ∧ r.leaderPc i = .idle ∧ 8 ≤ log.length then
    some { r with
      base := r.base.setStream i (r.record i log)
      leaderPc := Function.update r.leaderPc i (.received log) }
  else none

/-- The next step of the leader callback. -/
def run : Option (Replica N) :=
  match r.leaderPc i with
  | .idle => none
  | .received log =>
    some { r with
      base := r.base.storeCg i (latestCommitId log / 1000)
      leaderPc := Function.update r.leaderPc i .stored }
  | .stored =>
    some { r with
      latestG :=
        if r.base.G ≠ uint64Max ∧ r.latestG < r.base.G then r.base.G else r.latestG
      leaderPc := Function.update r.leaderPc i .idle }

end Replica

inductive ReplicaAction (N : ℕ)
  | follow (a : Action N)
  | swap (i : Fin N)
  | deliver (i : Fin N) (log : Bytes)
  | run (i : Fin N)
deriving DecidableEq, Repr

/-- A machine that may become leader. -/
def replica (N : ℕ) : Lts.System (Replica N) (ReplicaAction N) where
  init := {}
  step r
    | .follow a => r.follow a
    | .swap i => some (r.swap i)
    | .deliver i log => r.deliver i log
    | .run i => r.run i

/-! ## What a machine has applied of the first epoch -/

/-- The logs delivered before the first marker. -/
def Replica.oldLogs (r : Replica N) (i : Fin N) : List Bytes :=
  ((r.base.streams i).delivered.filter fun x => x.1 = 0).map Prod.snd

/-- A log of the first epoch is applied exactly if every stream supports it. -/
def Decided (s : State N) : Prop :=
  ∀ i log, log ≠ [] → ((0, log) ∈ (s.streams i).applied ↔
    (0, log) ∈ (s.streams i).delivered ∧ ∀ j, Supports s j 0 (stamp log))

/-- Until a callback is changed the machine is a follower in a vigilant and steady run. All
callbacks are changed while every stream is between two logs and every log that is still queued
is above some watermark; no follower callback gets a log after the first change, and what comes
first to a leader callback is the marker. -/
def promotes (r : Replica N) : ReplicaAction N → Prop
  | .follow (.deliver i log) => (∀ j, r.leader j = false) ∧
      vigilant r.base (.deliver i log) ∧ steady r.base (.deliver i log)
  | .follow a => (∀ j, r.leader j = false) → vigilant r.base a ∧ steady r.base a
  | .swap _ => (∀ j, (r.base.streams j).pc = .idle) ∧
      ∀ j, ∀ log ∈ (r.base.streams j).unReplayLogs, ∃ k, r.base.cg k < stamp log
  | .deliver i log => (r.base.streams i).rounds = 0 → isNoops log = true
  | .run _ => True

instance (r : Replica N) : ∀ a, Decidable (promotes r a)
  | .follow (.deliver _ _) => inferInstanceAs (Decidable (_ ∧ _ ∧ _))
  | .follow (.run _) | .follow .advance => inferInstanceAs (Decidable (_ → _ ∧ _))
  | .swap _ => inferInstanceAs
      (Decidable (_ ∧ ∀ j, ∀ log ∈ (r.base.streams j).unReplayLogs, _))
  | .deliver _ _ => inferInstanceAs (Decidable (_ → _))
  | .run _ => isTrue trivial

variable {s s' : State N} {r r' : Replica N} {i : Fin N}

/-- Behind the first marker a follower has decided. -/
lemma Settled.decided (h : Settled s) (hk : ∀ i, 0 < (s.streams i).rounds) : Decided s :=
  fun i _ hne => h.applied_iff (hk i) hne

/-- A machine whose queued logs are all above some watermark has decided between two logs. -/
lemma Settled.decided_of_idle (h : Settled s) (hidle : ∀ j, (s.streams j).pc = .idle)
    (hq : ∀ j, ∀ log ∈ (s.streams j).unReplayLogs, ∃ k, s.cg k < stamp log) : Decided s := by
  intro i log hne
  by_cases hk : 0 < (s.streams i).rounds
  · exact h.applied_iff hk hne
  refine ⟨fun happ => ⟨(h.sound i).applied _ happ, h.applied i _ happ⟩, ?_⟩
  rintro ⟨hdel, hall⟩
  rcases (h.accounted i).account _ hdel hne with happ | ⟨g, hd⟩ | ⟨-, hheld⟩
  · exact happ
  · obtain ⟨j, hj⟩ := h.not_supports_of_dropped hd
    exact absurd (hall j) (hj _ (h.dropped i _ hd).1)
  · -- the log is queued, above the watermark of a stream `k` that is still in the first round
    exfalso
    have hmem : log ∈ (s.streams i).unReplayLogs := hheld.resolve_right (by simp [hidle i, Pc.log?])
    obtain ⟨k, hlt⟩ := hq i log hmem
    have hround : (s.streams k).rounds = 0 := by
      have hwin := h.counted.window k i
      simp only [State.progress, Stream.progress, hidle, Pc.phase] at hwin
      omega
    obtain ⟨y, hy, hy0, hle⟩ := hall k
    have htop := (h.accounted k).top (by simp [hidle k, Pc.cleared]) y hy (hy0.trans hround.symm)
    have hcg := htop.resolve_right (by simp [hidle k])
    omega

/-- Whether a machine has decided depends on the logs of its first epoch only. -/
lemma Decided.congr (h : Decided s) (happ : ∀ i, (s'.streams i).applied = (s.streams i).applied)
    (hdel : ∀ i log, (0, log) ∈ (s'.streams i).delivered ↔ (0, log) ∈ (s.streams i).delivered) :
    Decided s' := by
  have hsup : ∀ j v, Supports s' j 0 v ↔ Supports s j 0 v := by
    intro j v
    constructor
    · rintro ⟨⟨k, log⟩, hx, rfl, hle⟩
      exact ⟨_, (hdel j log).mp hx, rfl, hle⟩
    · rintro ⟨⟨k, log⟩, hx, rfl, hle⟩
      exact ⟨_, (hdel j log).mpr hx, rfl, hle⟩
  intro i log hne
  rw [happ i, hdel i log, h i log hne]
  simp only [hsup]

/-! ## Runs -/

/-- What holds in every state of a run in which the machine is promoted as it should be. -/
inductive Promoted (r : Replica N) : Prop
  /-- all workers have the follower callback -/
  | follower (hleader : ∀ j, r.leader j = false) (hpc : ∀ j, r.leaderPc j = .idle)
      (h : Settled r.base)
  /-- the callbacks are being changed, or all are -/
  | leader (hleader : ∃ j, r.leader j = true) (hidle : ∀ j, (r.base.streams j).pc = .idle)
      (h : Decided r.base)

lemma Replica.follow_cases (h : r.follow a = some r') :
    ∃ base, (follower N).step r.base a = some base ∧ r' = { r with base } := by
  unfold Replica.follow at h
  split at h
  · split at h
    · cases h
    · obtain ⟨base, hbase, rfl⟩ := Option.map_eq_some_iff.mp h
      exact ⟨base, hbase, rfl⟩
  · obtain ⟨base, hbase, rfl⟩ := Option.map_eq_some_iff.mp h
    exact ⟨base, hbase, rfl⟩

lemma Promoted.follow (h : Promoted r) (hG : promotes r (.follow a))
    (hstep : r.follow a = some r') : Promoted r' := by
  obtain ⟨base, hbase, rfl⟩ := Replica.follow_cases hstep
  cases h with
  | follower hleader hpc h =>
    have hvs : vigilant r.base a ∧ steady r.base a := by
      cases a with
      | deliver i log => exact hG.2
      | run i | advance => exact hG hleader
    exact .follower hleader hpc (h.step hvs.1 hvs.2 hbase)
  | leader hleader hidle h =>
    cases a with
    | deliver i log =>
      obtain ⟨j, hj⟩ := hleader
      have hfalse := hG.1 j
      rw [hj] at hfalse
      cases hfalse
    | run i =>
      -- no follower callback is under way
      have hnone : r.base.run i = none := by
        unfold State.run
        simp only [hidle i]
      rw [show (Replay.follower N).step r.base (.run i) = r.base.run i from rfl, hnone] at hbase
      cases hbase
    | advance =>
      cases hbase
      refine .leader hleader (by simpa using hidle) (h.congr (by simp) (by simp))

lemma Replica.pc_record (log : Bytes) : (r.record i log).pc = (r.base.streams i).pc := by
  unfold Replica.record
  split <;> rfl

lemma Replica.applied_record (log : Bytes) :
    (r.record i log).applied = (r.base.streams i).applied := by
  unfold Replica.record
  split <;> rfl

/-- A leader callback that first gets the marker adds nothing to the first epoch. -/
lemma Replica.mem_delivered_record (hfirst : (r.base.streams i).rounds = 0 → isNoops log = true)
    (l : Bytes) : (0, l) ∈ (r.record i log).delivered ↔ (0, l) ∈ (r.base.streams i).delivered := by
  unfold Replica.record
  split
  · rfl
  · next hm =>
    have hround : (r.base.streams i).rounds ≠ 0 := fun h0 => hm (hfirst h0)
    simp [hround.symm]

lemma Promoted.deliver (h : Promoted r) (hG : promotes r (.deliver i log))
    (hstep : r.deliver i log = some r') : Promoted r' := by
  unfold Replica.deliver at hstep
  split at hstep
  · next hen =>
    cases hstep
    cases h with
    | follower hleader =>
      have hfalse := hleader i
      rw [hen.1] at hfalse
      cases hfalse
    | leader hleader hidle h =>
      refine .leader hleader (fun j => ?_) (h.congr (fun j => ?_) fun j => ?_)
      · by_cases hj : j = i
        · subst hj; simpa [Replica.pc_record] using hidle j
        · simpa [hj] using hidle j
      · by_cases hj : j = i
        · subst hj; simpa using Replica.applied_record log
        · simp [hj]
      · by_cases hj : j = i
        · subst hj; simpa using Replica.mem_delivered_record hG
        · simp [hj]
  · cases hstep

lemma Promoted.run (h : Promoted r) (hstep : r.run i = some r') : Promoted r' := by
  unfold Replica.run at hstep
  cases h with
  | follower _ hpc _ =>
    rw [hpc i] at hstep
    cases hstep
  | leader hleader hidle h =>
    split at hstep
    · cases hstep
    · cases hstep
      exact .leader hleader hidle (h.congr (fun _ => rfl) fun _ _ => Iff.rfl)
    · cases hstep
      exact .leader hleader hidle h

lemma Promoted.swap (h : Promoted r) (hG : promotes r (.swap i)) : Promoted (r.swap i) := by
  have hleader : ∃ j, (r.swap i).leader j = true := ⟨i, by simp [Replica.swap]⟩
  cases h with
  | follower _ _ h => exact .leader hleader hG.1 (h.decided_of_idle hG.1 hG.2)
  | leader _ hidle h => exact .leader hleader hidle h

lemma Promoted.of_run (h : Lts.Run (replica N) promotes (replica N).init r) : Promoted r := by
  refine h.invariant Promoted (fun t u a ht hG hstep => ?_)
    (.follower (fun _ => rfl) (fun _ => rfl) .init)
  cases a with
  | follow a => exact ht.follow hG hstep
  | swap i => cases hstep; exact ht.swap hG
  | deliver i log => exact ht.deliver hG hstep
  | run i => exact ht.run hstep

lemma Promoted.decided (h : Promoted r) (hk : ∀ i, 0 < (r.base.streams i).rounds) :
    Decided r.base := by
  cases h with
  | follower _ _ h => exact h.decided hk
  | leader _ _ h => exact h

/-! ## Agreement -/

lemma mem_oldLogs : log ∈ r.oldLogs i ↔ (0, log) ∈ (r.base.streams i).delivered := by
  simp [Replica.oldLogs]

lemma supports_iff_oldLogs {v : ℕ} :
    Supports r.base i 0 v ↔ ∃ log ∈ r.oldLogs i, v ≤ stamp log := by
  constructor
  · rintro ⟨⟨k, log⟩, hx, rfl, hle⟩
    exact ⟨log, mem_oldLogs.mpr hx, hle⟩
  · rintro ⟨log, hlog, hle⟩
    exact ⟨_, mem_oldLogs.mp hlog, rfl, hle⟩

/-- Replicas agree after a failover: two machines that got the same logs before the first marker,
and the marker on every stream, have applied the same transactions of the old epoch, whether they
are followers or became the leader. -/
theorem appliedTxns_agree {r₁ r₂ : Replica N}
    (h₁ : Lts.Run (replica N) promotes (replica N).init r₁)
    (h₂ : Lts.Run (replica N) promotes (replica N).init r₂)
    (hk₁ : ∀ i, 0 < (r₁.base.streams i).rounds) (hk₂ : ∀ i, 0 < (r₂.base.streams i).rounds)
    (hsame : ∀ i, r₁.oldLogs i = r₂.oldLogs i) (t : ℕ × List Sto.KV) :
    t ∈ r₁.base.appliedTxns 0 ↔ t ∈ r₂.base.appliedTxns 0 := by
  have hd₁ := (Promoted.of_run h₁).decided hk₁
  have hd₂ := (Promoted.of_run h₂).decided hk₂
  have hlogs : ∀ i log, log ≠ [] →
      ((0, log) ∈ (r₁.base.streams i).applied ↔ (0, log) ∈ (r₂.base.streams i).applied) := by
    -- `Decided` describes what is applied by the logs of the old epoch alone
    intro i log hne
    rw [hd₁ i log hne, hd₂ i log hne]
    simp only [← mem_oldLogs, supports_iff_oldLogs, hsame]
  have hne : ∀ {log : Bytes}, t ∈ txns log → log ≠ [] := by
    rintro log ht rfl
    cases ht
  simp only [State.appliedTxns, mem_txnsOf]
  constructor
  · rintro ⟨i, ⟨k, log⟩, hx, rfl, ht⟩
    exact ⟨i, _, (hlogs i log (hne ht)).mp hx, rfl, ht⟩
  · rintro ⟨i, ⟨k, log⟩, hx, rfl, ht⟩
    exact ⟨i, _, (hlogs i log (hne ht)).mpr hx, rfl, ht⟩

/-- The callbacks of both streams are changed, and then the marker comes. -/
def takesOver (i j : Fin 2) : List (ReplicaAction 2) :=
  [.swap i, .swap j, .deliver i markerOfTwo, .deliver j markerOfTwo]

/-- Stream `i` gets a batch, `advancer` finds both watermarks, and the batch passes the check. -/
def replaysOnArrival (i : Fin 2) (log : Bytes) : List (Action 2) :=
  [.deliver i log, .run i, .advance, .advance, .advance, .advance, .advance, .run i, .run i]

/-- A follower and a new leader that get the readings 5 and 7 on one stream and 5 on the other. The
leader has replayed both batches with reading 5 before it changes its callbacks. -/
theorem appliedTxns_agree_replayed :
    ∃ r₁ r₂ : Replica 2, (Lts.Run (replica 2) promotes (replica 2).init r₁ ∧
      Lts.Run (replica 2) promotes (replica 2).init r₂ ∧
      (∀ i, 0 < (r₁.base.streams i).rounds) ∧ (∀ i, 0 < (r₂.base.streams i).rounds) ∧
      (∀ i, r₁.oldLogs i = r₂.oldLogs i) ∧ ∀ i, r₂.leader i = true) ∧
      ∀ t, t ∈ r₁.base.appliedTxns 0 ↔ t ∈ r₂.base.appliedTxns 0 := by
  obtain ⟨r₁, hrun₁, hk₁, hlogs₁⟩ := Lts.exists_run_of_execGuarded (replica 2) promotes {}
    ((keeps 0 (batchOf [5]) ++ keeps 0 (batchOf [7]) ++ keeps 1 (batchOf [5]) ++
      throughMarker).map .follow)
    (fun r => (∀ i, 0 < (r.base.streams i).rounds) ∧
      r.oldLogs 0 = [batchOf [5], batchOf [7]] ∧ r.oldLogs 1 = [batchOf [5]]) (by decide +kernel)
  obtain ⟨r₂, hrun₂, hk₂, hlogs₂, hleader⟩ := Lts.exists_run_of_execGuarded (replica 2) promotes {}
    ((keeps 0 (batchOf [5]) ++ replaysOnArrival 1 (batchOf [5]) ++
      keeps 0 (batchOf [7])).map .follow ++ takesOver 0 1)
    (fun r => (∀ i, 0 < (r.base.streams i).rounds) ∧
      (r.oldLogs 0 = [batchOf [5], batchOf [7]] ∧ r.oldLogs 1 = [batchOf [5]]) ∧
      ∀ i, r.leader i = true) (by decide +kernel)
  have hsame : ∀ i, r₁.oldLogs i = r₂.oldLogs i :=
    Fin.forall_fin_two.mpr ⟨hlogs₁.1.trans hlogs₂.1.symm, hlogs₁.2.trans hlogs₂.2.symm⟩
  exact ⟨r₁, r₂, ⟨hrun₁, hrun₂, hk₁, hk₂, hsame, hleader⟩,
    appliedTxns_agree hrun₁ hrun₂ hk₁ hk₂ hsame⟩

/-- A follower and a new leader that get one batch with reading 5 on each stream. The follower
replays both at the marker; the leader has them queued when it changes its callbacks, and never
looks at them again. -/
theorem appliedTxns_differ_queued :
    ∃ r₁ r₂ : Replica 2, Lts.Reachable (replica 2) r₁ ∧ Lts.Reachable (replica 2) r₂ ∧
      (∀ i, 0 < (r₁.base.streams i).rounds) ∧ (∀ i, 0 < (r₂.base.streams i).rounds) ∧
      (∀ i, r₁.oldLogs i = r₂.oldLogs i) ∧
      ¬∀ t, t ∈ r₁.base.appliedTxns 0 ↔ t ∈ r₂.base.appliedTxns 0 := by
  obtain ⟨r₁, hr₁, hk₁, hlogs₁, happ₁⟩ := Lts.exists_reachable_of_exec (replica 2)
    ((keeps 0 (batchOf [5]) ++ keeps 1 (batchOf [5]) ++ throughMarker).map .follow)
    (fun r => (∀ i, 0 < (r.base.streams i).rounds) ∧ (∀ i, r.oldLogs i = [batchOf [5]]) ∧
      r.base.appliedTxns 0 = txns (batchOf [5]) ++ txns (batchOf [5])) (by decide +kernel)
  obtain ⟨r₂, hr₂, hk₂, hlogs₂, happ₂⟩ := Lts.exists_reachable_of_exec (replica 2)
    ((keeps 0 (batchOf [5]) ++ keeps 1 (batchOf [5])).map .follow ++ takesOver 0 1)
    (fun r => (∀ i, 0 < (r.base.streams i).rounds) ∧ (∀ i, r.oldLogs i = [batchOf [5]]) ∧
      r.base.appliedTxns 0 = []) (by decide +kernel)
  refine ⟨r₁, r₂, hr₁, hr₂, hk₁, hk₂, fun i => (hlogs₁ i).trans (hlogs₂ i).symm, fun hagree => ?_⟩
  have hnil : txns (batchOf [5]) ++ txns (batchOf [5]) = [] := by
    refine List.eq_nil_iff_forall_not_mem.mpr fun t ht => ?_
    rw [← happ₁, hagree t, happ₂] at ht
    cases ht
  exact absurd hnil (by decide +kernel)

end Rolis.Replay
