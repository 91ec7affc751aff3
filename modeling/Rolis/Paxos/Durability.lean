import Rolis.Paxos.Agreement
import Rolis.Paxos.SyncLog

/-!
# Durability across failover

The commit callback runs when a quorum has accepted, before anybody has committed. A new leader
asks for *committed* entries only, so a command that a quorum has accepted and that is committed
nowhere the leader hears from is not passed on (`callback_lost`).

`Carried` names what the failover relies on: when `SendSyncLog` goes on, every slot whose callback
has run is committed at the new leader or in a response it has collected, and when
`send_sync_logs` returns, the new leader is among those that have handled its `SyncCommit`
broadcasts. In the runs that meet it, and in which slots agree, the new leader has every slot with
a callback committed before it marks its streams (`callback_durable`). That slots agree takes
handlers that are not disturbed, as in `Agreement`.
-/

namespace Rolis.Paxos

variable {n S : ℕ} {a : Action n S} {m : Machine n S} {reqs : List (Request n S)} {j : Fin n}
  {cmd : LogEntry}

/-- Stream and slot of a commit callback. -/
def Event.called : Event n S → Option (Fin S × ℕ)
  | .callback par slot _ _ => some (par, slot)
  | _ => none

/-- The call whose replies `SendSyncLog` waits for. -/
def Monitor.syncCall : Monitor → Option ℕ
  | .syncing _ id => some id
  | _ => none

/-- The `SyncCommit` calls `send_sync_logs` waits for. -/
def Monitor.commitCalls : Monitor → List ℕ
  | .committing _ ids => ids
  | _ => []

/-- A response reports the slot as committed. -/
def Call.Reports (call : Call n S) (par : Fin S) (slot : ℕ) : Prop :=
  ∃ r ∈ call.responses, slot ∈ (r.syncData par).map PaxosEntry.slot

instance (call : Call n S) (par : Fin S) (slot : ℕ) : Decidable (call.Reports par slot) :=
  inferInstanceAs (Decidable (∃ r ∈ call.responses, _))

namespace Cluster

/-- The failover of machine `i` passes on every slot whose callback has run: it is committed at
the machine or reported when `SendSyncLog` goes on, and the machine has handled its own
`SyncCommit` broadcasts when `send_sync_logs` returns. -/
@[mk_iff]
structure Carried (c : Cluster n S) (i : Fin n) (input : Input n S) : Prop where
  reported : input = .syncLogReturns → ∀ id ∈ (c.machines i).monitor.syncCall,
    ∀ p ∈ (c.machines i).awaited id, ∀ j, ∀ ev ∈ (c.machines j).log, ∀ s ∈ ev.called,
      ((c.machines i).server s.1).Committed s.2 ∨ (p.2 = true ∧ p.1.Reports s.1 s.2)
  own : input = .sendNoOps → ∀ id ∈ (c.machines i).monitor.commitCalls,
    ∀ call ∈ (c.machines i).calls id, call.tally.SaidYes i

instance (c : Cluster n S) (i : Fin n) (input : Input n S) : Decidable (c.Carried i input) :=
  decidable_of_iff' _ (carried_iff c i input)

/-- The conditions on the inputs. -/
def SafeFailover (c : Cluster n S) (i : Fin n) (input : Input n S) : Prop :=
  c.SafeProposal i input ∧ c.Carried i input

instance (c : Cluster n S) (i : Fin n) : DecidablePred (c.SafeFailover i) :=
  fun _ => inferInstanceAs (Decidable (_ ∧ _))

/-- The slots agree, and every failover passes on the slots whose callback has run. -/
def safeFailovers : Cluster n S → Action n S → Prop :=
  guard Proper (fun _ _ _ _ => True) SafeFailover

instance (c : Cluster n S) : DecidablePred (safeFailovers c) :=
  inferInstanceAs (DecidablePred (guard _ _ _ c))

lemma safeProposals_of_safeFailovers {c : Cluster n S} (h : safeFailovers c a) :
    safeProposals c a := by
  cases a with
  | deliver k => exact h
  | drop k => trivial
  | act i input => exact h.1

/-! ## The invariant of the cluster -/

/-- What a yes to a `SyncCommit` testifies: its slots are committed at the sender. -/
def Kept (c : Cluster n S) (i : Fin n) : Request n S → Reply S → Prop
  | .syncCommit par cmd, rep => rep.valid = true → ∀ slot ∈ cmd.entries.map PaxosEntry.slot,
      ((c.machines i).server par).Committed slot
  | _, _ => True

structure DurableInv (c : Cluster n S) : Prop where
  agreement : AgreementInv c
  synced : Lts.Run system decidesAccepted init c
  kept : RpcInv Kept c
  callbacks : ∀ i par slot ballot cmd, .callback par slot ballot cmd ∈ (c.machines i).log →
    c.Chosen par slot cmd

lemma durableInv_init : DurableInv (init : Cluster n S) where
  agreement := agreementInv_init
  synced := .refl
  kept := rpcInv_init
  callbacks i par slot ballot cmd h := by simp [init] at h

namespace DurableInv

variable {c c' : Cluster n S} {a : Action n S}

/-- In the runs in which the slots agree, no `BulkCommit` stores a missing command. -/
lemma decidesAccepted_of_safe (h : AgreementInv c) (hG : safeProposals c a)
    (hstep : c.step a = some c') : decidesAccepted c a := by
  cases a with
  | deliver k =>
    intro pkt hpkt
    cases pkt with
    | reply src dst id req rep => trivial
    | request src dst id req =>
      have halive : (c.machines dst).aborted = none := by
        by_contra hne
        have hsome : (c.machines dst).aborted.isSome := Option.isSome_iff_ne_none.mpr hne
        simp [Cluster.step, Option.mem_def.mp hpkt, Packet.dst, hsome] at hstep
      cases req with
      | bulkDecide par cmd =>
        intro e he hballot
        obtain ⟨v, hv, -⟩ := h.chosen_of_decide halive
          (h.backed_of_mem (List.mem_of_getElem? hpkt)) (hG _ hpkt).2 e he hballot
        simp [hv]
      | _ => trivial
  | drop k | act i input => trivial

lemma step (h : DurableInv c) (hG : safeFailovers c a) (hstep : c.step a = some c') :
    DurableInv c' := by
  have hsafe := safeProposals_of_safeFailovers hG
  have hdec := decidesAccepted_of_safe h.agreement hsafe hstep
  have hsteps := steps_of_step hG hstep
  have hagreement := h.agreement.step hsafe hstep
  have hcommitted : ∀ {i par slot}, ((c.machines i).server par).Committed slot →
      ((c'.machines i).server par).Committed slot :=
    committed_of_run h.synced (.single hdec hstep)
  have hchosen : ∀ {par slot cmd}, c.Chosen par slot cmd → c'.Chosen par slot cmd :=
    fun hc => hc.mono (h.agreement.grows hsafe hstep)
  refine ⟨hagreement, h.synced.tail hdec hstep, h.kept.step hsteps ?_ ?_, ?_⟩
  · intro v req rep hk
    cases req with
    | syncCommit par cmd => exact fun hvalid slot hslot => hcommitted (hk hvalid slot hslot)
    | _ => trivial
  · rintro src dst id req rep net - - - hrep rfl
    cases req with
    | syncCommit par cmd =>
      intro hvalid slot hslot
      rw [machines_move_self]
      exact (Machine.committed_onSyncCommit hrep hvalid slot).mpr (.inl hslot)
    | _ => trivial
  · intro i par slot ballot cmd hev
    rcases hsteps.event hev with hold | hev | ⟨_, _, _, _, _, _, hev⟩ |
      ⟨_, _, id, call, bulk, rfl, hcall, hreq, hentry⟩
    · exact hchosen (h.callbacks i par slot ballot cmd hold)
    · cases hev
    · exact hev.elim
    · exact hchosen ⟨_, h.agreement.chosenAt_of_verdict hcall hreq _ hentry⟩

end DurableInv

/-! ## The failover of one machine -/

/-- How far the failover of machine `i` has come with a slot: a `SyncCommit` with the slot is out,
and from `send_no_ops_to_all_workers` on the slot is committed. -/
def Held (c : Cluster n S) (i : Fin n) (par : Fin S) (slot : ℕ) : Monitor → Prop
  | .committing _ ids => ((c.machines i).server par).Committed slot ∨
      ∃ id ∈ ids, ∃ cmd, (c.machines i).requestOf id = some (.syncCommit par cmd) ∧
        slot ∈ cmd.entries.map PaxosEntry.slot
  | .noOps _ _ | .ready _ _ => ((c.machines i).server par).Committed slot
  | _ => True

section Held

variable {c c' : Cluster n S} {i : Fin n} {par : Fin S} {slot : ℕ}
  (hcommitted : ((c.machines i).server par).Committed slot →
    ((c'.machines i).server par).Committed slot)
include hcommitted

lemma Held.mono {monitor : Monitor} (h : c.Held i par slot monitor)
    (hreq : ∀ id req, (c.machines i).requestOf id = some req →
      (c'.machines i).requestOf id = some req) : c'.Held i par slot monitor := by
  cases monitor with
  | committing epoch ids =>
    refine h.imp hcommitted ?_
    rintro ⟨id, hid, cmd, hcmd, hslot⟩
    exact ⟨id, hid, cmd, hreq _ _ hcmd, hslot⟩
  | noOps epoch id | ready epoch next => exact hcommitted h
  | _ => trivial

/-- The union that goes out has a slot that is reported. -/
lemma held_syncLogYes {epoch : ℕ} {call : Call n S} (hc' : c'.machines i = m.startCalls reqs)
    (hnext : m.nextCall = (c.machines i).nextCall)
    (hreqs : reqs = (c.machines i).syncCommits epoch call.responses)
    (hslot : ((c.machines i).server par).Committed slot ∨ call.Reports par slot) :
    c'.Held i par slot (.committing epoch (List.range' (c.machines i).nextCall reqs.length)) := by
  rcases hslot with hown | ⟨r, hr, hmem⟩
  · exact .inl (hcommitted hown)
  · have hslot : slot ∈ ((c.machines i).syncCmd epoch call.responses par).entries.map
        PaxosEntry.slot := Machine.mem_slots_syncCmd.mpr (.inl ⟨r, hr, hmem⟩)
    have hsent : .syncCommit par ((c.machines i).syncCmd epoch call.responses par) ∈ reqs := by
      rw [hreqs]
      refine List.mem_map.mpr ⟨par, List.mem_filter.mpr ⟨List.mem_finRange par, ?_⟩, rfl⟩
      refine decide_eq_true fun hnil => ?_
      rw [hnil] at hslot
      simp at hslot
    obtain ⟨k, hk⟩ := List.getElem?_of_mem hsent
    obtain ⟨hlt, -⟩ := List.getElem?_eq_some_iff.mp hk
    refine .inr ⟨(c.machines i).nextCall + k, ?_, _, ?_, hslot⟩
    · rw [List.mem_range'_1]
      omega
    · rw [hc', Machine.requestOf_startCalls, hnext, if_neg (by omega), Nat.add_sub_cancel_left]
      exact hk

/-- An input of the machine itself. -/
lemma DurableInv.held_acts (h : DurableInv c) {input : Input n S}
    (hacts : (c.machines i).Acts input m reqs) (hcarried : c.Carried i input) {ballot : ℕ}
    (hcallback : .callback par slot ballot cmd ∈ (c.machines j).log)
    (hc' : c'.machines i = m.startCalls reqs)
    (hreq : ∀ id req, (c.machines i).requestOf id = some req →
      (c'.machines i).requestOf id = some req) (hheld : c.Held i par slot (c.machines i).monitor) :
    c'.Held i par slot m.monitor := by
  have hkeep : m.monitor = (c.machines i).monitor → c'.Held i par slot m.monitor := by
    intro hsame
    rw [hsame]
    exact hheld.mono hcommitted hreq
  cases hacts with
  | @syncLogYes epoch id call hmon hcall =>
    refine held_syncLogYes hcommitted hc' rfl rfl ?_
    exact (hcarried.reported rfl id (by rw [hmon]; rfl) _ hcall j _ hcallback _ rfl).imp_right
      And.right
  | @syncLogNo epoch id call hmon hcall =>
    refine .inl (hcommitted ?_)
    exact (hcarried.reported rfl id (by rw [hmon]; rfl) _ hcall j _ hcallback _ rfl).resolve_right
      fun hyes => by cases hyes.1
  | @sendNoOps epoch ids hmon _ =>
    rw [hmon] at hheld
    refine hcommitted ?_
    rcases hheld with hown | ⟨id, hid, cmd, hcmd, hslot⟩
    · exact hown
    · obtain ⟨call, hcall, heq⟩ := Machine.requestOf_eq_some.mp hcmd
      have hyes := hcarried.own rfl id (by rw [hmon]; exact hid) call hcall
      obtain ⟨rep, hvalid, hkept⟩ := (h.kept.call i id call hcall).yes i hyes
      rw [heq] at hkept
      exact hkept hvalid slot hslot
  | noOpsReturn hmon _ | sendNoOpMark _ hmon =>
    rw [hmon] at hheld
    exact hcommitted hheld
  | heartbeatReturns _ _ => exact hkeep (Machine.adoptRejection_monitor ..)
  | addLogToNc par log => exact hkeep (Machine.addLogToNc_monitor ..)
  | heartbeatTick _ | bulkSubmit _ | acceptYes _ _ | acceptNo _ _ | crash => exact hkeep rfl
  | _ => trivial

end Held

lemma DurableInv.held_step {c c' : Cluster n S} (h : DurableInv c) (hG : safeFailovers c a)
    (hstep : c.step a = some c') {i j : Fin n} {par : Fin S} {slot ballot : ℕ}
    (hcallback : .callback par slot ballot cmd ∈ (c.machines j).log)
    (hheld : c.Held i par slot (c.machines i).monitor) :
    c'.Held i par slot (c'.machines i).monitor := by
  have hdec := decidesAccepted_of_safe h.agreement (safeProposals_of_safeFailovers hG) hstep
  have hsteps := steps_of_step hG hstep
  have hcommitted : ((c.machines i).server par).Committed slot →
      ((c'.machines i).server par).Committed slot :=
    committed_of_run h.synced (.single hdec hstep)
  have hreq : ∀ id req, (c.machines i).requestOf id = some req →
      (c'.machines i).requestOf id = some req := fun id req => h.kept.requestOf_step hsteps
  have hkeep : (c'.machines i).monitor = (c.machines i).monitor →
      c'.Held i par slot (c'.machines i).monitor := by
    intro hsame
    rw [hsame]
    exact hheld.mono hcommitted hreq
  rcases hsteps.machine i with heq | ⟨halive, ⟨_, _, req, _, _, heq⟩ |
    ⟨_, _, _, _, _, -, hreplied, -, heq⟩ | ⟨_, m, _, hacts, hA, heq⟩⟩
  · exact hkeep (by rw [heq])
  · exact hkeep (by rw [heq, ((c.machines i).handle_sameSender req halive).monitor])
  · exact hkeep (by rw [heq, hreplied.monitor])
  · have hheld' := h.held_acts hcommitted hacts hA.2 hcallback heq hreq hheld
    rw [heq, Machine.startCalls_monitor]
    exact hheld'

lemma committed_of_callback {c₁ c₂ c₃ : Cluster n S} (h₁ : Lts.Run system safeFailovers init c₁)
    {i j : Fin n} {par : Fin S} {slot ballot : ℕ} {cmd : LogEntry}
    (hcallback : .callback par slot ballot cmd ∈ (c₁.machines j).log)
    (h₂ : Lts.Run system safeFailovers c₁ c₂) {epoch epoch' : ℕ}
    (hleads : (c₂.machines i).monitor = .leading epoch)
    (h₃ : Lts.Run system safeFailovers c₂ c₃)
    (hready : (c₃.machines i).monitor = .ready epoch' 0)
    (halive : (c₃.machines i).aborted = none) :
    (((c₃.machines i).server par).logs slot).committedCmd = some cmd := by
  have hinv₁ : DurableInv c₁ :=
    h₁.invariant DurableInv (fun _ _ _ h hG hstep => h.step hG hstep) durableInv_init
  -- the callback stays in the history
  have hinv₂ : DurableInv c₂ ∧ .callback par slot ballot cmd ∈ (c₂.machines j).log :=
    h₂.invariant (fun c => DurableInv c ∧ .callback par slot ballot cmd ∈ (c.machines j).log)
      (fun _ _ _ h hG hstep => ⟨h.1.step hG hstep, (steps_of_step hG hstep).log_subset j h.2⟩)
      ⟨hinv₁, hcallback⟩
  obtain ⟨hinv₃, hcallback₃, hheld⟩ := h₃.invariant (fun c => DurableInv c ∧
    .callback par slot ballot cmd ∈ (c.machines j).log ∧ c.Held i par slot (c.machines i).monitor)
    (fun _ _ _ h hG hstep => ⟨h.1.step hG hstep, (steps_of_step hG hstep).log_subset j h.2.1,
      h.1.held_step hG hstep h.2.1 h.2.2⟩)
    ⟨hinv₂.1, hinv₂.2, by rw [hleads]; trivial⟩
  rw [hready] at hheld
  obtain ⟨v, hv⟩ := Option.ne_none_iff_exists'.mp hheld
  have hchosen := hinv₃.agreement.chosen_of_committed halive hv
  have hcalled := hinv₃.callbacks j par slot ballot cmd hcallback₃
  rw [hv, hinv₃.agreement.chosen_unique i par slot v cmd hchosen hcalled]

end Cluster

namespace Threads

open Cluster (safeFailovers)

/-- In every run in which the slots agree and every failover passes on the slots whose callback
has run: once the commit callback of a slot has run, every machine that later becomes leader has
the command of the callback committed in that slot when `send_sync_logs` and
`send_no_ops_to_all_workers` have returned. The two machines are looked at between two handlers. -/
theorem callback_durable {s₁ s₂ s₃ : Threads n S} {i j : Fin n} {par : Fin S} {slot ballot : ℕ}
    {cmd : LogEntry} {epoch epoch' : ℕ} (h₁ : Lts.Run system (serial safeFailovers) init s₁)
    (hcallback : j ∉ s₁.busy ∧ .callback par slot ballot cmd ∈ (s₁.machines j).log)
    (h₂ : Lts.Run system (serial safeFailovers) s₁ s₂)
    (hleads : i ∉ s₂.busy ∧ (s₂.machines i).monitor = .leading epoch)
    (h₃ : Lts.Run system (serial safeFailovers) s₂ s₃)
    (hready : i ∉ s₃.busy ∧ (s₃.machines i).monitor = .ready epoch' 0)
    (halive : (s₃.machines i).aborted = none) :
    (((s₃.machines i).server par).logs slot).committedCmd = some cmd := by
  obtain ⟨hnd₁, hrun₁⟩ := run_settled h₁ List.nodup_nil
  obtain ⟨hnd₂, hrun₂⟩ := run_settled h₂ hnd₁
  obtain ⟨hj, hcallback⟩ := hcallback
  obtain ⟨hi₂, hleads⟩ := hleads
  obtain ⟨hi₃, hready⟩ := hready
  rw [← settled_of_notMem hj] at hcallback
  rw [← settled_of_notMem hi₂] at hleads
  rw [← settled_of_notMem hi₃] at hready halive ⊢
  exact Cluster.committed_of_callback hrun₁ hcallback hrun₂ hleads (run_settled h₃ hnd₂).2 hready
    halive

/-- The callback of slot 1 has run on machine 0 and machine 1 has committed the slot. Machine 1
becomes leader of epoch 3, and after its failover it still has the command. -/
theorem callback_durable_passed_on : ∃ s s' : Threads 3 1,
    Lts.Run system (serial safeFailovers) init s ∧ .callback 0 1 2 ⟨[7]⟩ ∈ (s.machines 0).log ∧
    Lts.Run system (serial safeFailovers) s s' ∧ (s'.machines 1).monitor = .ready 3 0 ∧
    (((s'.machines 1).server 0).logs 1).committedCmd = some ⟨[7]⟩ := by
  obtain ⟨c, hrun, hcallback, c₂, hc₂, hleads, c₃, hc₃, hready, halive⟩ :=
    Lts.exists_run_of_execGuarded Cluster.system safeFailovers (Cluster.init : Cluster 3 1)
      [.act 0 .heartbeatTick, .deliver 1, .deliver 1, .act 0 (.addLogToNc 0 ⟨[7]⟩),
        .act 0 (.bulkSubmit 0 0), .deliver 3, .deliver 3, .deliver 4, .deliver 4,
        .act 0 (.acceptReturns 1), .deliver 5]
      (fun c => .callback 0 1 2 ⟨[7]⟩ ∈ (c.machines 0).log ∧
        -- machine 1 wins epoch 3 with machine 2
        ∃ c₂ ∈ Lts.execGuarded Cluster.system safeFailovers c
          [.act 1 .electionTimeout, .deliver 8, .deliver 8, .deliver 8, .deliver 8,
            .act 1 .prepareReturns, .act 1 .electionWakes, .act 1 .stuffTodoLeaderElection],
          (c₂.machines 1).monitor = .leading 3 ∧
        -- and goes through the failover with it
        ∃ c₃ ∈ Lts.execGuarded Cluster.system safeFailovers c₂
          [.act 1 .sendSyncLogs, .deliver 9, .deliver 9, .deliver 9, .deliver 9,
            .act 1 .syncLogReturns, .deliver 10, .deliver 10, .deliver 10, .deliver 10,
            .act 1 .sendNoOps, .deliver 11, .deliver 11, .deliver 11, .deliver 11,
            .act 1 .noOpsReturn],
          (c₃.machines 1).monitor = .ready 3 0 ∧ (c₃.machines 1).aborted = none)
      (by decide +kernel)
  have h₁ := run_ofCluster hrun
  have h₂ := run_ofCluster (Lts.Run.of_execGuarded _ hc₂)
  have h₃ := run_ofCluster (Lts.Run.of_execGuarded _ hc₃)
  exact ⟨ofCluster c, ofCluster c₃, h₁, hcallback, h₂.trans h₃, hready,
    callback_durable h₁ ⟨notMem_busy_ofCluster c 0, hcallback⟩ h₂
      ⟨notMem_busy_ofCluster c₂ 1, hleads⟩ h₃ ⟨notMem_busy_ofCluster c₃ 1, hready⟩ halive⟩

/-- The callback of slot 1 has run on machine 0 after machines 0 and 1 have accepted. Machine 2
becomes leader of epoch 3 with machine 1 and goes through its failover with it; slot 1 is
committed at neither, and at the end machine 2 knows nothing of it. -/
theorem callback_lost : ∃ s s' : Threads 3 1, Lts.Reachable system s ∧
    .callback 0 1 2 ⟨[7]⟩ ∈ (s.machines 0).log ∧ (s.machines 2).monitor = .idle ∧
    Lts.Run system (fun _ _ => True) s s' ∧ (s'.machines 2).aborted = none ∧
    (s'.machines 2).monitor = .ready 3 0 ∧
    (((s'.machines 2).server 0).logs 1).committedCmd = none := by
  obtain ⟨c, hreach, hcallback, hidle, c', hc', hrest⟩ := Lts.exists_reachable_of_exec
    (Cluster.system : Lts.System (Cluster 3 1) _)
    [.act 0 .heartbeatTick, .deliver 1, .deliver 1, .act 0 (.addLogToNc 0 ⟨[7]⟩),
      .act 0 (.bulkSubmit 0 0), .deliver 3, .deliver 3, .deliver 4, .deliver 4,
      .act 0 (.acceptReturns 1)]
    (fun c => .callback 0 1 2 ⟨[7]⟩ ∈ (c.machines 0).log ∧ (c.machines 2).monitor = .idle ∧
      ∃ c' ∈ Lts.exec Cluster.system c
        -- machine 2 wins epoch 3
        [.act 2 .electionTimeout, .deliver 8, .deliver 8, .deliver 8, .deliver 8,
          .act 2 .prepareReturns, .act 2 .electionWakes, .act 2 .stuffTodoLeaderElection,
          -- `send_sync_logs` and `send_no_ops_to_all_workers`
          .act 2 .sendSyncLogs, .deliver 9, .deliver 9, .deliver 9, .deliver 9,
          .act 2 .syncLogReturns, .act 2 .sendNoOps, .deliver 10, .deliver 10, .deliver 10,
          .deliver 10, .act 2 .noOpsReturn],
        (c'.machines 2).aborted = none ∧ (c'.machines 2).monitor = .ready 3 0 ∧
        (((c'.machines 2).server 0).logs 1).committedCmd = none) (by decide +kernel)
  have hrun := run_ofCluster (Lts.Run.of_exec _ hc')
  exact ⟨ofCluster c, ofCluster c', reachable_ofCluster hreach, hcallback, hidle,
    hrun.mono fun _ _ _ => trivial, hrest⟩

end Threads

end Rolis.Paxos
