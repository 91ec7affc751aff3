import Rolis.Paxos.ClusterTheorems
import Rolis.Paxos.NoOps

/-!
# Filling the holes at failover

After `send_sync_logs` the new leader sends `OnSyncNoOps` to fill the slots that nobody has
committed. `NoOps` shows what the handler does on one stream; here the facts it rests on are
established for every reachable state, so that the condition becomes one about holes alone: the
handler returns, with every slot up to `max_committed_slot_` applied, exactly when no slot is
missing (`fill_iff`). In other words it fills holes only where there is none, and a hole ends the
process (`fill_crashes`).
-/

namespace Rolis.Paxos

open PaxosServer

variable {n S : ℕ} {ps : PaxosServer n} {reqs : List (Request n S)}

namespace Machine

/-- What every reachable machine has: its streams are applied in order, the epoch of the election
channel's server was never written, and a running process has no slot marked as no-op. -/
structure Tidy (m : Machine n S) : Prop where
  inOrder : ∀ par, (m.server par).InOrder
  back : m.back.sched.curEpoch = 0
  noMark : m.aborted = none → ∀ par slot, ((m.server par).logs slot).isNoOp = false

namespace Tidy

variable {m m' : Machine n S}

lemma init (i : Fin n) : Tidy (Machine.init i : Machine n S) where
  inOrder := (inOrder_init i).2
  back := by
    unfold Machine.init
    split <;> rfl
  noMark _ par slot := by rw [init_server]

lemma noMark_commit (h : ∀ slot, (ps.logs slot).isNoOp = false) (slot ballot : ℕ)
    (cmd : Option LogEntry) : ∀ slot', ((ps.commit slot ballot cmd).logs slot').isNoOp = false := by
  intro slot'
  simp only [commit, Function.update_apply]
  split
  · exact h slot
  · exact h slot'

/-- The operations of the handlers mark no slot, `OnSyncNoOps` apart. -/
lemma noMark_stable :
    PaxosServer.Stable (fun ps : PaxosServer n => ∀ slot, (ps.logs slot).isNoOp = false) where
  prepare _ _ _ _ h := h
  setEpoch _ _ _ h := h
  accept ps e h slot := by
    simp only [accept, Function.update_apply]
    split
    · exact h e.slot
    · exact h slot
  commit _ _ _ _ h := noMark_commit h _ _ _
  execute ps h := by simpa using h

section

variable (h : Tidy m)

include h

lemma handle {req : Request n S} (halive : m.aborted = none) : Tidy (m.handle req).1 where
  inOrder := inOrder_handle req halive h.inOrder
  back := by rw [(m.handle_sameSender req halive).back, h.back]
  noMark hok par := by
    have hmarks := h.noMark halive
    by_cases hreq : ∃ r, req = .syncNoOps r
    · obtain ⟨r, rfl⟩ := hreq
      rcases onSyncNoOps_server halive hok with hid | hall
      · rw [Machine.handle, hid]
        exact hmarks par
      · rw [Machine.handle, (hall par).2, (syncNoOps_logs (h.inOrder par).le (hall par).1).1]
        exact hmarks par
    · exact forall_server_handle (fun _ => noMark_stable) halive
        (fun r hr => absurd ⟨r, hr⟩ hreq) (fun _ _ _ _ _ _ h _ _ => noMark_commit h _ _ _)
        hmarks par

/-- Steps that change of the streams' servers at most the open slot. -/
lemma of_server
    (hserver : ∀ par, ∃ slot, m'.server par = { m.server par with curOpenSlot := slot })
    (hback : m'.back.sched.curEpoch = m.back.sched.curEpoch)
    (halive : m'.aborted = none → m.aborted = none) : Tidy m' where
  inOrder par := by
    obtain ⟨slot, heq⟩ := hserver par
    rw [heq]
    exact ⟨(h.inOrder par).slots, (h.inOrder par).le⟩
  back := hback.trans h.back
  noMark hok par slot := by
    obtain ⟨open', heq⟩ := hserver par
    rw [heq]
    exact h.noMark (halive hok) par slot

lemma replied {src : Fin n} {id : ℕ} {rep : Reply S} (halive : m.aborted = none)
    (hrep : Replied m src id rep m') : Tidy m' := by
  refine h.of_server (fun par => ⟨(m.server par).curOpenSlot, hrep.server par⟩) ?_ fun _ => halive
  cases hrep with
  | steppedDown _ _ _ _ =>
    unfold stepDown
    split <;> rfl
  | _ => rfl

lemma acts {input : Input n S} (halive : m.aborted = none) (hacts : Acts m input m' reqs) :
    Tidy m' := by
  refine h.of_server (fun par => ?_) ?_ fun _ => halive
  · exact hacts.server par
  · exact hacts.back_curEpoch

lemma startCalls : Tidy (m.startCalls reqs) :=
  ⟨h.inOrder, h.back, h.noMark⟩

/-- On a running machine the handler gets through a stream exactly when the request starts above
what is executed and no slot is missing. -/
lemma syncNoOps_ok_iff (halive : m.aborted = none) (par : Fin S) (syncSlot epoch : ℕ) :
    ((m.server par).syncNoOps syncSlot epoch).2 = none ↔ (m.server par).maxExecutedSlot < syncSlot ∧
        ∀ slot, (m.server par).maxExecutedSlot < slot → slot ≤ (m.server par).maxCommittedSlot →
          ((m.server par).logs slot).committedCmd ≠ none := by
  rw [PaxosServer.syncNoOps_ok_iff (h.inOrder par).le, PaxosServer.NoHole]
  refine and_congr_right fun _ => forall₃_congr fun slot _ _ => ?_
  exact and_iff_left (h.noMark halive par slot)

end

/-- A stream in order that has executed all it has committed has applied every slot. -/
lemma mem_applied (h : ps.InOrder) (hall : ps.maxExecutedSlot = ps.maxCommittedSlot) {slot : ℕ}
    (hpos : 1 ≤ slot) (hle : slot ≤ ps.maxCommittedSlot) : slot ∈ ps.applied.map Prod.fst := by
  rw [h.slots, List.mem_range'_1]
  omega

end Tidy

end Machine

namespace Cluster

lemma tidy_of_reachable {c : Cluster n S} (h : Lts.Reachable system c) (i : Fin n) :
    (c.machines i).Tidy := by
  refine invariant_of_local (fun _ m => m.Tidy) ?_ ?_ ?_ (run_of_reachable h) Machine.Tidy.init i
  · exact fun d i req hd halive _ => hd.handle halive
  · exact fun d i src id rep m hd halive _ hrep => hd.replied halive hrep
  · exact fun d i input m reqs hd halive _ hacts => (hd.acts halive hacts).startCalls

/-- On every running machine of every reachable state, `OnSyncNoOps` returns with every slot up
to `max_committed_slot_` applied or marked as no-op exactly when, on every stream, the request
starts above `max_executed_slot_` and no slot up to `max_committed_slot_` is missing. -/
theorem fill_iff {c : Cluster n S} (h : Lts.Reachable system c) (i : Fin n)
    (halive : (c.machines i).aborted = none) (req : SyncNoOpRequest n S) :
    (((c.machines i).handle (.syncNoOps req)).1.aborted = none ∧
      ∀ par slot, 1 ≤ slot →
        slot ≤ (((c.machines i).handle (.syncNoOps req)).1.server par).maxCommittedSlot →
        slot ∈ (((c.machines i).handle (.syncNoOps req)).1.server par).applied.map Prod.fst ∨
          ((((c.machines i).handle (.syncNoOps req)).1.server par).logs slot).isNoOp = true) ↔
    ∀ par, ((c.machines i).server par).maxExecutedSlot < req.syncSlots par ∧
      ∀ slot, ((c.machines i).server par).maxExecutedSlot < slot →
        slot ≤ ((c.machines i).server par).maxCommittedSlot →
        (((c.machines i).server par).logs slot).committedCmd ≠ none := by
  have htidy := tidy_of_reachable h i
  have hepoch : (c.machines i).back.sched.curEpoch ≤ req.epoch := by
    rw [htidy.back]
    exact Nat.zero_le _
  have hok : ((c.machines i).handle (.syncNoOps req)).1.aborted = none ↔
      ∀ par, (((c.machines i).server par).syncNoOps (req.syncSlots par) req.epoch).2 = none :=
    Machine.onSyncNoOps_ok_iff halive hepoch
  rw [← forall_congr' fun par =>
    htidy.syncNoOps_ok_iff halive par (req.syncSlots par) req.epoch, ← hok]
  refine and_iff_left_of_imp fun hret par slot hpos hle => .inl ?_
  have horder := Machine.inOrder_handle (.syncNoOps req) halive htidy.inOrder par
  refine Machine.Tidy.mem_applied horder ?_ hpos hle
  exact Machine.onSyncNoOps_executed halive hepoch hret par

/-- Machine 1 has committed and executed slot 1, and a request that starts at slot 2 returns. -/
theorem fill_iff_executed : ∃ c : Cluster 3 1, Lts.Reachable system c ∧
    ((c.machines 1).server 0).maxCommittedSlot = 1 ∧
    ((c.machines 1).handle (.syncNoOps ⟨0, 2, fun _ => 2⟩)).1.aborted = none := by
  obtain ⟨c, hreach, halive, hcommitted, hexecuted⟩ := Lts.exists_reachable_of_exec
    (system : Lts.System (Cluster 3 1) _)
    [.act 0 (.addLogToNc 0 ⟨[7]⟩), .act 0 (.bulkSubmit 0 0), .deliver 0, .deliver 0, .deliver 1,
      .deliver 1, .act 0 (.acceptReturns 0), .deliver 2]
    (fun c => (c.machines 1).aborted = none ∧ ((c.machines 1).server 0).maxCommittedSlot = 1 ∧
      ((c.machines 1).server 0).maxExecutedSlot = 1) (by decide +kernel)
  refine ⟨c, hreach, hcommitted, ((fill_iff hreach 1 halive ⟨0, 2, fun _ => 2⟩).mpr ?_).1⟩
  intro par
  rw [Subsingleton.elim par 0, hcommitted, hexecuted]
  exact ⟨by decide, fun slot h h' => by omega⟩

/-- Machine 1 knows slot 2 of the old leader as committed and slot 1 not at all. It becomes leader
of epoch 3, syncs the logs, and its own `OnSyncNoOps` marks slot 1 and then fails on it. -/
theorem fill_crashes : ∃ c : Cluster 3 1, Lts.Reachable system c ∧
    (c.machines 1).monitor = .noOps 3 3 ∧ (c.machines 1).aborted = none ∧
    ∃ c' ∈ system.step c (.deliver 11), (c'.machines 1).aborted = some .noOpsHole :=
  Lts.exists_reachable_of_exec system
    -- the leader of epoch 2 gets slot 2 accepted and machine 1 commits it
    [.act 0 .heartbeatTick, .deliver 1, .deliver 1, .act 0 (.addLogToNc 0 ⟨[7]⟩),
      .act 0 (.addLogToNc 0 ⟨[8]⟩), .act 0 (.bulkSubmit 0 1), .deliver 3, .deliver 3, .deliver 4,
      .deliver 4, .act 0 (.acceptReturns 1), .deliver 5,
      -- machine 1 wins epoch 3 with machine 2
      .act 1 .electionTimeout, .deliver 8, .deliver 8, .deliver 8, .deliver 8,
      .act 1 .prepareReturns, .act 1 .electionWakes, .act 1 .stuffTodoLeaderElection,
      -- the logs are synced
      .act 1 .sendSyncLogs, .deliver 9, .deliver 9, .deliver 9, .deliver 9,
      .act 1 .syncLogReturns, .deliver 10, .deliver 10, .deliver 10, .deliver 10,
      .act 1 .sendNoOps] _
    (by decide +kernel)

end Cluster

end Rolis.Paxos
