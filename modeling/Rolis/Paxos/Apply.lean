import Rolis.Paxos.Cluster
import Rolis.Paxos.ServerTheorems

/-!
# Every stream is applied in order

`InOrder` is the one invariant the three loops that call `app_next_` share: the slots handed
over so far are `1, …, max_executed_slot_`, and none of them lies beyond `max_committed_slot_`.
-/

namespace Rolis.Paxos

open Machine List

variable {n S : ℕ} {ps : PaxosServer n} {m m' : Machine n S} {i : Fin n} {req : Request n S}

namespace PaxosServer

/-- The calls of `app_next_` were for the slots `1, …, max_executed_slot_`. -/
structure InOrder (ps : PaxosServer n) : Prop where
  slots : ps.applied.map Prod.fst = List.range' 1 ps.maxExecutedSlot
  le : ps.maxExecutedSlot ≤ ps.maxCommittedSlot

section

variable (h : ps.InOrder)

include h

lemma InOrder.length_applied : ps.applied.length = ps.maxExecutedSlot := by
  simpa using congrArg length h.slots

lemma InOrder.applyNext (cmd : LogEntry) (hlt : ps.maxExecutedSlot < ps.maxCommittedSlot) :
    (ps.applyNext cmd).InOrder where
  slots := by
    simp only [PaxosServer.applyNext, map_append, h.slots, range'_concat,
      map_cons, map_nil, Nat.one_mul, Nat.add_comm 1]
  le := hlt

/-- The loop of the commit handlers; `k` never runs past `max_committed_slot_`. -/
lemma InOrder.executeLoop {k : ℕ} (hk : ps.maxExecutedSlot + k ≤ ps.maxCommittedSlot) :
    (PaxosServer.executeLoop k ps).InOrder := by
  induction k generalizing ps with
  | zero => exact h
  | succ k ih =>
    unfold PaxosServer.executeLoop
    split
    · exact ih (h.applyNext _ (by omega)) (by simp only [PaxosServer.applyNext]; omega)
    · exact h

/-- The loop of `OnSyncNoOps`: it keeps the order, and without a failed `verify` it applies
every slot it was to apply. -/
lemma InOrder.executeNoOpsLoop {k : ℕ} (hk : ps.maxExecutedSlot + k ≤ ps.maxCommittedSlot) :
    (PaxosServer.executeNoOpsLoop k ps).1.InOrder ∧ ((PaxosServer.executeNoOpsLoop k ps).2 = none →
        (PaxosServer.executeNoOpsLoop k ps).1.maxExecutedSlot = ps.maxExecutedSlot + k ∧
        (PaxosServer.executeNoOpsLoop k ps).1.maxCommittedSlot = ps.maxCommittedSlot) := by
  induction k generalizing ps with
  | zero => exact ⟨h, fun _ => ⟨rfl, rfl⟩⟩
  | succ k ih =>
    unfold PaxosServer.executeNoOpsLoop
    split
    · next cmd _ _ =>
      have hrest := ih (h.applyNext cmd (by omega)) (by simp only [PaxosServer.applyNext]; omega)
      refine ⟨hrest.1, fun hok => ?_⟩
      obtain ⟨hexec, hcommit⟩ := hrest.2 hok
      refine ⟨?_, hcommit⟩
      rw [hexec]
      simp only [PaxosServer.applyNext]
      omega
    · exact ⟨h, by simp⟩

lemma InOrder.syncNoOps (syncSlot epoch : ℕ) : (ps.syncNoOps syncSlot epoch).1.InOrder := by
  have hfill : (ps.fillNoOps syncSlot epoch).InOrder := ⟨h.slots, h.le⟩
  have hrun : ps.maxExecutedSlot + (ps.maxCommittedSlot - ps.maxExecutedSlot) ≤
      ps.maxCommittedSlot := by have := h.le; omega
  have hloop := hfill.executeNoOpsLoop hrun
  unfold PaxosServer.syncNoOps
  split
  · exact h
  · split
    · next heq =>
      rw [heq] at hloop
      exact hloop.1
    · next heq =>
      -- the assignment `max_executed_slot_ = max_committed_slot_` stores the value it has
      rw [heq] at hloop
      obtain ⟨hexec, hcommit⟩ := hloop.2 rfl
      have heq' := hloop.1.slots
      dsimp only at hexec hcommit heq' ⊢
      refine ⟨?_, le_refl _⟩
      rw [heq', hexec, hcommit]
      congr 1
      have := h.le
      simp only [fillNoOps] at *
      omega

lemma InOrder.commit (slot ballot : ℕ) (cmd : Option LogEntry) :
    (ps.commit slot ballot cmd).InOrder :=
  ⟨h.slots, h.le.trans (le_max_left _ _)⟩

end

/-- The operations of the handlers keep the order. -/
lemma inOrder_stable : Stable (InOrder (n := n)) where
  prepare _ _ _ _ h := ⟨h.slots, h.le⟩
  setEpoch _ _ _ h := ⟨h.slots, h.le⟩
  accept _ _ h := ⟨h.slots, h.le⟩
  commit _ _ _ _ h := h.commit _ _ _
  execute ps h := h.executeLoop (by have := h.le; omega)

end PaxosServer

lemma Machine.replica_step (h : (replica i).step m req = some m') :
    (m.handle req).1.aborted = none ∧ m' = (m.handle req).1 := by
  simp only [replica] at h
  split at h
  · simp at h
  · next halive => exact ⟨by simpa using halive, (Option.some.inj h).symm⟩

lemma inOrder_init (i : Fin n) : (init i : Machine n S).aborted = none ∧
    ∀ par, ((init i : Machine n S).server par).InOrder := by
  refine ⟨init_aborted i, fun par => ?_⟩
  rw [init_server]
  exact ⟨rfl, le_refl _⟩

/-- A request keeps the order of every stream, whether its handler returns or not. -/
lemma Machine.inOrder_handle (req : Request n S) (halive : m.aborted = none)
    (h : ∀ par, (m.server par).InOrder) : ∀ par, ((m.handle req).1.server par).InOrder :=
  forall_server_handle (fun _ => PaxosServer.inOrder_stable) halive
    (fun _ _ _ _ hps => hps.syncNoOps _ _) (fun _ _ _ _ _ _ hps _ _ => hps.commit _ _ _) h

/-- A step of a replica keeps the order of every stream. -/
lemma inOrder_step (h : m.aborted = none ∧ ∀ par, (m.server par).InOrder)
    (hstep : (replica i).step m req = some m') :
    m'.aborted = none ∧ ∀ par, (m'.server par).InOrder := by
  obtain ⟨hok, rfl⟩ := replica_step hstep
  exact ⟨hok, inOrder_handle req h.1 h.2⟩

/-- In every sequence of requests whose handlers return, the `k`-th call of `app_next_` on a
stream is for slot `k`, and `max_executed_slot_` counts the calls and stays within
`max_committed_slot_`. -/
theorem applied_in_order (i : Fin n) {m : Machine n S}
    (h : Lts.Reachable (Machine.replica i) m) (par : Fin S) :
    (m.server par).applied.map Prod.fst = List.range' 1 (m.server par).applied.length ∧
      (m.server par).maxExecutedSlot = (m.server par).applied.length ∧
      (m.server par).maxExecutedSlot ≤ (m.server par).maxCommittedSlot := by
  have hall := h.invariant _ (fun _ _ _ hm _ hstep => inOrder_step hm hstep) (inOrder_init i)
  have horder := hall.2 par
  rw [horder.length_applied]
  exact ⟨horder.slots, rfl, horder.le⟩

/-- Two slots that are committed in reverse order, the second batch partly rejected. -/
theorem applied_in_order_reversed : ∃ m : Machine 3 1,
    Lts.Reachable (Machine.replica 1) m ∧ (m.server 0).applied.length = 2 ∧
      (m.server 0).applied.map Prod.fst = List.range' 1 (m.server 0).applied.length := by
  obtain ⟨m, hreach, hlen⟩ := Lts.exists_reachable_of_exec
    (Machine.replica 1 : Lts.System (Machine 3 1) _)
    [.bulkAccept 0 ⟨0, [⟨1, 2, ⟨[10]⟩⟩, ⟨2, 2, ⟨[20]⟩⟩]⟩, .bulkDecide 0 ⟨0, [⟨2, 2⟩]⟩,
      .bulkDecide 0 ⟨0, [⟨1, 2⟩, ⟨2, 1⟩]⟩, .bulkDecide 0 ⟨0, [⟨1, 2⟩]⟩]
    (fun m => (m.server 0).applied.length = 2) (by decide +kernel)
  exact ⟨m, hreach, hlen, (applied_in_order 1 hreach 0).1⟩

end Rolis.Paxos
