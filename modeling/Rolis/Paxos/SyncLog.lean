import Rolis.Paxos.HoleFilling

/-!
# Syncing the logs at failover

A new leader asks every machine for its log with `SyncLog`, starting above its own
`max_executed_slot_`, and sends the union of the answers back as `SyncCommit`. The union has the
committed slots the answers report from there on, and below it the slots an answer misses and
the leader has. What the leader has committed *above* its `max_executed_slot_`, behind a hole, is
in the union only if some answer reports it.

`syncLog_complete_iff`: a machine that answered and then handled the `SyncCommit` has every slot
that was committed at the leader or at a machine that answered exactly when that is the case.
-/

namespace Rolis.Paxos

open List Machine PaxosServer

variable {n S slot epoch : ℕ} {ps : PaxosServer n} {m m' : Machine n S} {c c' : Cluster n S}
  {par : Fin S} {cmd : LogEntry}

/-! ## Committed slots -/

namespace PaxosServer

/-- The slot has a committed command. -/
def Committed (ps : PaxosServer n) (slot : ℕ) : Prop := (ps.logs slot).committedCmd ≠ none

instance (ps : PaxosServer n) (slot : ℕ) : Decidable (ps.Committed slot) :=
  inferInstanceAs (Decidable (_ ≠ none))

/-- The committed slots lie within `max_committed_slot_`, what was applied is committed, and so
are the slots `old`. -/
structure Keeps (old : ℕ → Prop) (ps : PaxosServer n) : Prop where
  le : ∀ slot, ps.Committed slot → slot ≤ ps.maxCommittedSlot
  applied : ∀ p ∈ ps.applied, ps.Committed p.1
  old : ∀ slot, old slot → ps.Committed slot

lemma committed_commit {slot ballot slot' : ℕ} :
    (ps.commit slot ballot (some cmd)).Committed slot' ↔ slot' = slot ∨ ps.Committed slot' := by
  simp only [Committed, commit, Function.update_apply]
  split
  · next h => simp [h]
  · next h => simp [h]

namespace Keeps

variable {old : ℕ → Prop}

section

variable (h : ps.Keeps old)

include h

lemma of_logs {ps' : PaxosServer n} (hlogs : ∀ slot, ps'.Committed slot ↔ ps.Committed slot)
    (hmax : ps'.maxCommittedSlot = ps.maxCommittedSlot) (happlied : ps'.applied = ps.applied) :
    ps'.Keeps old where
  le slot hs := hmax ▸ h.le slot ((hlogs slot).mp hs)
  applied p hp := (hlogs _).mpr (h.applied p (happlied ▸ hp))
  old slot hs := (hlogs slot).mpr (h.old slot hs)

lemma commit (slot ballot : ℕ) (cmd : LogEntry) : (ps.commit slot ballot (some cmd)).Keeps old where
  le slot' hs := by
    rcases committed_commit.mp hs with rfl | hs
    · exact le_max_right _ _
    · exact (h.le slot' hs).trans (le_max_left _ _)
  applied p hp := committed_commit.mpr (.inr (h.applied p hp))
  old slot' hs := committed_commit.mpr (.inr (h.old slot' hs))

lemma applyNext (hcmd : (ps.logs (ps.maxExecutedSlot + 1)).committedCmd = some cmd) :
    (ps.applyNext cmd).Keeps old where
  le := h.le
  applied p hp := by
    rcases mem_append.mp hp with hp | hp
    · exact h.applied p hp
    · rw [mem_singleton.mp hp]
      exact fun hnone => by simp [PaxosServer.applyNext, hcmd] at hnone
  old := h.old

/-- A hole that `OnSyncNoOps` fills lies within `max_committed_slot_`. -/
lemma fillNoOps (syncSlot epoch : ℕ) : (ps.fillNoOps syncSlot epoch).Keeps old := by
  have hkeep : ∀ slot, ps.Committed slot → (ps.fillNoOps syncSlot epoch).Committed slot := by
    intro slot hs
    simp only [Committed, PaxosServer.fillNoOps]
    rw [if_neg fun hfill => hs hfill.2.2]
    exact hs
  refine ⟨fun slot hs => ?_, fun p hp => hkeep _ (h.applied p hp), fun slot hs =>
    hkeep _ (h.old slot hs)⟩
  simp only [Committed, PaxosServer.fillNoOps] at hs ⊢
  split at hs
  · next hfill => exact hfill.2.1
  · exact h.le slot hs

lemma syncNoOps (syncSlot epoch : ℕ) : (ps.syncNoOps syncSlot epoch).1.Keeps old := by
  have hloop := executeNoOpsLoop_inv (fun _ _ h hcmd _ => h.applyNext hcmd)
    (ps.maxCommittedSlot - ps.maxExecutedSlot) (h.fillNoOps syncSlot epoch)
  rcases ps.syncNoOps_eq syncSlot epoch with heq | ⟨_, _, _, heq⟩
  · rwa [heq]
  · rw [heq]
    exact ⟨hloop.le, hloop.applied, hloop.old⟩

end

lemma stable : Stable (Keeps (n := n) old) where
  prepare _ _ _ _ h := ⟨h.le, h.applied, h.old⟩
  setEpoch _ _ _ h := ⟨h.le, h.applied, h.old⟩
  execute _ h := executeLoop_inv (fun _ _ h hcmd => h.applyNext hcmd) _ h
  accept ps e h := by
    refine h.of_logs (fun slot => ?_) rfl rfl
    simp only [Committed, accept, Function.update_apply]
    split
    · next hslot => rw [hslot]
    · rfl
  commit _ slot ballot cmd h := h.commit slot ballot cmd

/-- The slots up to `max_executed_slot_` are committed. -/
lemma committed_of_le (h : ps.Keeps old) (horder : ps.InOrder) (hpos : 1 ≤ slot)
    (hle : slot ≤ ps.maxExecutedSlot) : ps.Committed slot := by
  have hmem : slot ∈ ps.applied.map Prod.fst := by
    rw [horder.slots, mem_range'_1]
    omega
  obtain ⟨p, hp, rfl⟩ := mem_map.mp hmem
  exact h.applied p hp

end Keeps

/-- The slots of the committed entries `OnSyncLog` reports. -/
lemma mem_slots_committedFrom {start slot : ℕ} :
    slot ∈ (ps.committedFrom start).map PaxosEntry.slot ↔
      start ≤ slot ∧ slot ≤ ps.maxCommittedSlot ∧ ps.Committed slot := by
  simp only [committedFrom, mem_map, mem_filterMap, mem_range'_1,
    Option.map_eq_some_iff, Committed, Option.ne_none_iff_exists']
  constructor
  · rintro ⟨e, ⟨j, hj, cmd, hcmd, rfl⟩, rfl⟩
    exact ⟨hj.1, show j ≤ _ by omega, cmd, hcmd⟩
  · rintro ⟨hstart, hle, cmd, hcmd⟩
    exact ⟨_, ⟨slot, ⟨hstart, by omega⟩, cmd, hcmd, rfl⟩, rfl⟩

/-- The slots `OnSyncLog` reports missing. -/
lemma mem_missingUpTo {upto slot : ℕ} : slot ∈ ps.missingUpTo upto ↔
      ps.maxExecutedSlot ≤ slot ∧ slot < upto ∧ ¬ ps.Committed slot := by
  simp only [missingUpTo, mem_filter, mem_range'_1, decide_eq_true_eq, Committed, ne_eq, not_not]
  constructor
  · rintro ⟨⟨h, h'⟩, hnone⟩
    exact ⟨h, by omega, hnone⟩
  · rintro ⟨h, h', hnone⟩
    exact ⟨⟨h, by omega⟩, hnone⟩

end PaxosServer

namespace Machine

/-- A `BulkCommit` finds an accepted command in every slot whose accepted ballot it names. The
handler stores `accepted_cmd_` as `committed_cmd_` without looking. -/
def DecidesAccepted (m : Machine n S) : Request n S → Prop
  | .bulkDecide par cmd => ∀ e ∈ cmd.entries,
      ((m.server par).logs e.slot).maxBallotAccepted = e.ballot →
      ((m.server par).logs e.slot).acceptedCmd ≠ none
  | _ => True

instance (m : Machine n S) : DecidablePred m.DecidesAccepted
  | .bulkDecide _ cmd => inferInstanceAs (Decidable (∀ e ∈ cmd.entries, _))
  | .bulkPrepare _ | .heartbeat _ | .syncLog _ | .syncCommit _ _ | .syncNoOps _
  | .bulkAccept _ _ => isTrue trivial

variable {old : Fin S → ℕ → Prop}

lemma keeps_handle {req : Request n S} (halive : m.aborted = none)
    (hdec : m.DecidesAccepted req) (h : ∀ par, (m.server par).Keeps (old par)) :
    ∀ par, ((m.handle req).1.server par).Keeps (old par) := by
  refine forall_server_handle (fun _ => PaxosServer.Keeps.stable) halive
    (fun r _ j ps hps => hps.syncNoOps _ _) ?_ h
  rintro par cmd rfl e he ps hps hcmd hballot
  obtain ⟨v, hv⟩ := Option.ne_none_iff_exists'.mp (hdec e he hballot)
  rw [hcmd, hv]
  exact hps.commit e.slot e.ballot v

lemma keeps_of_server (h : ∀ par, (m.server par).Keeps (old par))
    (hserver : ∀ par, ∃ slot, m'.server par = { m.server par with curOpenSlot := slot }) :
    ∀ par, (m'.server par).Keeps (old par) := by
  intro par
  obtain ⟨slot, heq⟩ := hserver par
  rw [heq]
  exact ⟨(h par).le, (h par).applied, (h par).old⟩

/-! ## The union of the answers -/

/-- The slots of a `SyncCommit`: those a response reports, and those a response misses and the
leader has. -/
lemma mem_slots_syncCmd {responses : List (SyncLogResponse S)} :
    slot ∈ (m.syncCmd epoch responses par).entries.map PaxosEntry.slot ↔
      (∃ r ∈ responses, slot ∈ (r.syncData par).map PaxosEntry.slot) ∨
      (∃ r ∈ responses, slot ∈ r.missingSlots par) ∧ (m.server par).Committed slot := by
  have hkeys : (m.syncCmd epoch responses par).entries.map PaxosEntry.slot =
      (m.commitedSlots responses par).map Prod.fst := by
    simp [syncCmd]
  have hmissing : ∀ slots : List ℕ, slot ∈ (m.missingEntries par slots).map Prod.fst ↔
      slot ∈ slots ∧ (m.server par).Committed slot := by
    intro slots
    simp only [missingEntries, mem_map, mem_filterMap, Option.map_eq_some_iff,
      PaxosServer.Committed, Option.ne_none_iff_exists']
    constructor
    · rintro ⟨e, ⟨j, hj, cmd, hcmd, rfl⟩, rfl⟩
      exact ⟨hj, cmd, hcmd⟩
    · rintro ⟨hj, cmd, hcmd⟩
      exact ⟨_, ⟨slot, hj, cmd, hcmd, rfl⟩, rfl⟩
  rw [hkeys, commitedSlots, OrdMap.mem_keys_insertAll]
  simp only [map_append, map_flatMap, mem_append, mem_flatMap, hmissing,
    map_map, Function.comp_def, map_nil, not_mem_nil, or_false]
  refine or_congr Iff.rfl ?_
  simp only [← and_assoc, exists_and_right]

/-- A `SyncCommit` that was answered with a yes has committed its slots, and no others. -/
lemma committed_onSyncCommit {cmd : BulkPaxosCmd n} {rep : Reply S}
    (hrep : (m.handle (.syncCommit par cmd)).2 = some rep) (hvalid : rep.valid = true) (slot : ℕ) :
    ((m.handle (.syncCommit par cmd)).1.server par).Committed slot ↔
      slot ∈ cmd.entries.map PaxosEntry.slot ∨ (m.server par).Committed slot := by
  obtain ⟨m', hloop, halive, heq⟩ := bulkHandler_valid hrep hvalid
  -- the slots of the entries that are left and the committed ones stay the same together
  have hdone := bulkLoop_done (fun es m' =>
    (slot ∈ cmd.entries.map PaxosEntry.slot ∨ (m.server par).Committed slot ↔
      slot ∈ es.map PaxosEntry.slot ∨ (m'.server par).Committed slot)) ?_ hloop halive (by simp)
  · rw [handle, onSyncCommit, heq, server_setServer_self]
    simpa [PaxosServer.Committed] using hdone.symm
  · intro e es m₁ h halive₁
    rw [h]
    unfold syncCommitEntry at halive₁ ⊢
    split
    · rw [server_setServer_self, committed_commit]
      simp only [map_cons, mem_cons, PaxosServer.Committed, adoptBallot_logs]
      tauto
    · next hballot =>
      rw [if_neg hballot] at halive₁
      simp at halive₁

end Machine

/-! ## The exchange -/

namespace Cluster

/-- The guard of the runs in which no `BulkCommit` stores a missing command. -/
def decidesAccepted : Cluster n S → Action n S → Prop :=
  guard (fun c i req => (c.machines i).DecidesAccepted req) (fun _ _ _ _ => True)
    fun _ _ _ => True

instance (c : Cluster n S) : DecidablePred (decidesAccepted c) :=
  inferInstanceAs (DecidablePred (guard _ _ _ c))

lemma keeps_of_run (old : Fin n → Fin S → ℕ → Prop) (h : Lts.Run system decidesAccepted c c')
    (hc : ∀ i par, ((c.machines i).server par).Keeps (old i par)) (i : Fin n) (par : Fin S) :
    ((c'.machines i).server par).Keeps (old i par) := by
  refine invariant_of_local (fun i m => ∀ par, (m.server par).Keeps (old i par)) ?_ ?_ ?_ h hc i par
  · exact fun d i req hd halive hdec => keeps_handle halive hdec hd
  · exact fun d i src id rep m hd _ _ hrep =>
      keeps_of_server hd fun par => ⟨_, hrep.server par⟩
  · exact fun d i input m reqs hd _ _ hacts => keeps_of_server hd hacts.server

/-- The committed slots of a machine after a run from the start. -/
lemma keeps_of_init (h : Lts.Run system decidesAccepted init c) (i : Fin n) (par : Fin S) :
    ((c.machines i).server par).Keeps fun _ => False := by
  refine keeps_of_run (fun _ _ _ => False) h (fun i par => ?_) i par
  simp only [init, init_server]
  exact ⟨by simp [PaxosServer.Committed], by simp, by simp⟩

/-- A committed slot stays committed. -/
lemma committed_of_run (h₀ : Lts.Run system decidesAccepted init c)
    (h : Lts.Run system decidesAccepted c c') {i : Fin n}
    (hs : ((c.machines i).server par).Committed slot) :
    ((c'.machines i).server par).Committed slot := by
  refine (keeps_of_run (fun i par => ((c.machines i).server par).Committed) h
    (fun i par => ?_) i par).old slot hs
  have hkeeps := keeps_of_init h₀ i par
  exact ⟨hkeeps.le, hkeeps.applied, fun _ => id⟩

/-- The responses to the `SyncLog` that machine `l` created in `c₀`: each pair of `answers` is a
machine and the state in which it answered. -/
def syncResponses (c₀ : Cluster n S) (l : Fin n) (epoch : ℕ)
    (answers : List (Fin n × Cluster n S)) : List (SyncLogResponse S) :=
  answers.map fun a => (a.2.machines a.1).syncLogResponse
    ((c₀.machines l).createSyncLog epoch).syncCommitSlot

section Exchange

variable {c₀ c₁ c₂ : Cluster n S} {l q : Fin n} {answers : List (Fin n × Cluster n S)}

/-- The slots of the `SyncCommit` above the leader's `max_executed_slot_` are those that were
committed at a machine when it answered. -/
lemma mem_union_above (hans : ∀ a ∈ answers, Lts.Run system decidesAccepted init a.2)
    (hslot : ((c₀.machines l).server par).maxExecutedSlot < slot) :
    slot ∈ ((c₁.machines l).syncCmd epoch (syncResponses c₀ l epoch answers)
        par).entries.map PaxosEntry.slot ↔
      ∃ a ∈ answers, ((a.2.machines a.1).server par).Committed slot := by
  rw [mem_slots_syncCmd]
  constructor
  · rintro (⟨r, hr, hslots⟩ | ⟨⟨r, hr, hslots⟩, -⟩) <;> obtain ⟨a, ha, rfl⟩ := mem_map.mp hr
    · exact ⟨a, ha, (mem_slots_committedFrom.mp hslots).2.2⟩
    · have hlt := (mem_missingUpTo.mp hslots).2.1
      simp only [createSyncLog] at hlt
      omega
  · rintro ⟨a, ha, hcommitted⟩
    refine .inl ⟨_, mem_map_of_mem ha, mem_slots_committedFrom.mpr ?_⟩
    exact ⟨hslot, (keeps_of_init (hans a ha) _ _).le _ hcommitted, hcommitted⟩

/-- What the leader has executed, every machine that answered has committed or gets. -/
lemma committed_or_mem_union (h₀ : Lts.Run system decidesAccepted init c₀)
    (h₁ : Lts.Run system decidesAccepted c₀ c₁) {cq : Cluster n S} (hq : (q, cq) ∈ answers)
    (hrun : Lts.Run system decidesAccepted init cq) (hpos : 1 ≤ slot)
    (hslot : slot ≤ ((c₀.machines l).server par).maxExecutedSlot) :
    ((cq.machines q).server par).Committed slot ∨
      slot ∈ ((c₁.machines l).syncCmd epoch (syncResponses c₀ l epoch answers)
        par).entries.map PaxosEntry.slot := by
  by_cases hcommitted : ((cq.machines q).server par).Committed slot
  · exact .inl hcommitted
  · -- a slot it has not committed lies above its `max_executed_slot_`, so it is reported missing
    have habove : ((cq.machines q).server par).maxExecutedSlot ≤ slot := by
      by_contra hlt
      exact hcommitted ((keeps_of_init hrun q par).committed_of_le
        ((tidy_of_reachable hrun.reachable q).inOrder par) hpos (by omega))
    have hleader : ((c₁.machines l).server par).Committed slot :=
      committed_of_run h₀ h₁ ((keeps_of_init h₀ l par).committed_of_le
        ((tidy_of_reachable h₀.reachable l).inOrder par) hpos hslot)
    refine .inr (mem_slots_syncCmd.mpr (.inr ⟨⟨_, mem_map_of_mem hq, ?_⟩, hleader⟩))
    exact mem_missingUpTo.mpr ⟨habove, Nat.lt_succ_of_le hslot, hcommitted⟩

/-- In every run in which no `BulkCommit` stores a missing command: machine `l` creates a
`SyncLog` in `c₀`, the machines of `answers` answer it, `l` sends the union in `c₁`, and `q`, one
of those that answered, handles it with a yes in `c₂`. Then `q` has committed every slot that was
committed at `l` or at a machine when it answered exactly when every slot that `l` had committed
above the `max_executed_slot_` of its `SyncLog` was committed at a machine when it answered, or
at `q` already. -/
theorem syncLog_complete_iff (h₀ : Lts.Run system decidesAccepted init c₀)
    (h₁ : Lts.Run system decidesAccepted c₀ c₁) (h₂ : Lts.Run system decidesAccepted c₁ c₂)
    (hans : ∀ a ∈ answers, Lts.Run system decidesAccepted c₀ a.2 ∧
      Lts.Run system decidesAccepted a.2 c₁)
    (hq : q ∈ answers.map Prod.fst) (par : Fin S) {epoch : ℕ} {cmd : BulkPaxosCmd n}
    (hcmd : cmd = (c₁.machines l).syncCmd epoch (syncResponses c₀ l epoch answers) par)
    {rep : Reply S} (hrep : ((c₂.machines q).handle (.syncCommit par cmd)).2 = some rep)
    (hvalid : rep.valid = true) :
    (∀ slot, 1 ≤ slot → ((c₁.machines l).server par).Committed slot ∨
        (∃ a ∈ answers, ((a.2.machines a.1).server par).Committed slot) →
      (((c₂.machines q).handle (.syncCommit par cmd)).1.server par).Committed slot) ↔
    ∀ slot, ((c₀.machines l).server par).maxExecutedSlot < slot →
      ((c₁.machines l).server par).Committed slot →
      (∃ a ∈ answers, ((a.2.machines a.1).server par).Committed slot) ∨
        ((c₂.machines q).server par).Committed slot := by
  have hruns : ∀ a ∈ answers, Lts.Run system decidesAccepted init a.2 :=
    fun a ha => h₀.trans (hans a ha).1
  simp only [Machine.committed_onSyncCommit hrep hvalid]
  subst hcmd
  constructor
  · intro hall slot hslot hleader
    rcases hall slot (by omega) (.inl hleader) with hunion | hq
    · exact .inl ((mem_union_above hruns hslot).mp hunion)
    · exact .inr hq
  · intro hreported slot hpos hcommitted
    rcases Nat.lt_or_ge ((c₀.machines l).server par).maxExecutedSlot slot with hslot | hslot
    · rw [mem_union_above hruns hslot]
      rcases hcommitted with hleader | hanswer
      · exact hreported slot hslot hleader
      · exact .inl hanswer
    · obtain ⟨⟨_, cq⟩, ha, rfl⟩ := List.mem_map.mp hq
      rcases committed_or_mem_union h₀ h₁ ha (hruns _ ha) hpos hslot with hc | hunion
      · exact .inr (committed_of_run (hruns _ ha) ((hans _ ha).2.trans h₂) hc)
      · exact .inl hunion

/-- Machine 0 has executed slot 1 and machine 1 has not seen its commit. Both answer a `SyncLog`
of machine 0, and machine 1 gets the slot. -/
theorem syncLog_complete_iff_missing : ∃ c : Cluster 3 1,
    Lts.Run system decidesAccepted init c ∧ ¬ ((c.machines 1).server 0).Committed 1 ∧
    (((c.machines 1).handle (.syncCommit 0 ((c.machines 0).syncCmd 2
      (syncResponses c 0 2 [(0, c), (1, c)]) 0))).1.server 0).Committed 1 := by
  obtain ⟨c, hrun, hleader, hmissing, rep, hrep, hvalid⟩ := Lts.exists_run_of_execGuarded system
    decidesAccepted (init : Cluster 3 1)
    [.act 0 (.addLogToNc 0 ⟨[7]⟩), .act 0 (.bulkSubmit 0 0), .deliver 0, .deliver 0, .deliver 1,
      .deliver 1, .act 0 (.acceptReturns 0), .deliver 1]
    (fun c => ((c.machines 0).server 0).Committed 1 ∧ ¬ ((c.machines 1).server 0).Committed 1 ∧
      ∃ rep ∈ ((c.machines 1).handle (.syncCommit 0 ((c.machines 0).syncCmd 2
        (syncResponses c 0 2 [(0, c), (1, c)]) 0))).2, rep.valid = true) (by decide +kernel)
  refine ⟨c, hrun, hmissing, (syncLog_complete_iff (l := 0) (q := 1) hrun .refl .refl ?_ ?_ 0 rfl
    hrep hvalid).mpr ?_ 1 (le_refl 1) (.inl hleader)⟩
  · simp only [List.mem_cons, List.not_mem_nil, or_false, forall_eq_or_imp, forall_eq]
    exact ⟨⟨.refl, .refl⟩, .refl, .refl⟩
  · simp
  · exact fun slot _ hslot => .inl ⟨(0, c), List.mem_cons_self, hslot⟩

/-- Machine 1 has executed slot 1 and committed slot 3, and becomes leader of epoch 3. Machines 0
and 2 answer its `SyncLog`, a quorum without machine 1 itself. The union has slot 1 only: machine
2 handles the `SyncCommit`, and slot 3 is not committed there. -/
theorem sync_misses_leader_slot : ∃ c : Cluster 3 1, Lts.Reachable system c ∧
    (c.machines 1).monitor = .syncing 3 1 ∧ ((c.machines 1).server 0).Committed 3 ∧
    (∃ call ∈ (c.machines 1).calls 1, quorum 3 ≤ call.tally.yes.length ∧ 2 ∈ call.tally.yes) ∧
    ∃ c' ∈ Lts.exec system c [.act 1 .syncLogReturns, .deliver 15],
      (c'.machines 2).aborted = none ∧ ((c'.machines 2).server 0).Committed 1 ∧
      ¬ ((c'.machines 2).server 0).Committed 3 :=
  Lts.exists_reachable_of_exec system
    -- slots 1 and 3 of the leader of epoch 2 are accepted, and machine 1 commits them
    [.act 0 .heartbeatTick, .deliver 1, .deliver 1, .act 0 (.addLogToNc 0 ⟨[7]⟩),
      .act 0 (.addLogToNc 0 ⟨[8]⟩), .act 0 (.addLogToNc 0 ⟨[9]⟩), .act 0 (.bulkSubmit 0 0),
      .deliver 3, .deliver 3, .deliver 4, .deliver 4, .act 0 (.acceptReturns 1), .deliver 5,
      .act 0 (.bulkSubmit 0 1), .deliver 7, .deliver 7, .deliver 8, .deliver 8,
      .act 0 (.acceptReturns 3), .deliver 9,
      -- machine 1 wins epoch 3 with machine 2 and asks for the logs
      .act 1 .electionTimeout, .deliver 12, .deliver 12, .deliver 12, .deliver 12,
      .act 1 .prepareReturns, .act 1 .electionWakes, .act 1 .stuffTodoLeaderElection,
      .act 1 .sendSyncLogs, .deliver 12, .deliver 13, .deliver 13, .deliver 13] _
    (by decide +kernel)

end Exchange

end Cluster

end Rolis.Paxos
