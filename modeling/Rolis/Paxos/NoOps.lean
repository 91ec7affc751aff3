import Rolis.Paxos.Apply

/-!
# `OnSyncNoOps`: when it returns

`OnSyncNoOps` marks the holes of a stream as no-ops and then applies every slot up to
`max_committed_slot_`. Its second loop has no branch for a no-op: it takes the `verify(0)` for
the very slots the first loop has just marked. So the handler returns exactly when it finds no
hole (`syncNoOps_ok_iff`), and then it has marked nothing (`syncNoOps_logs`).
-/

namespace Rolis.Paxos

open List PaxosServer

variable {n S syncSlot : ℕ} {ps : PaxosServer n} {m : Machine n S} {req : SyncNoOpRequest n S}

namespace PaxosServer

/-- Every slot that waits to be applied has a command to apply. -/
def NoHole (ps : PaxosServer n) : Prop :=
  ∀ j, ps.maxExecutedSlot < j → j ≤ ps.maxCommittedSlot →
    (ps.logs j).committedCmd ≠ none ∧ (ps.logs j).isNoOp = false

/-- The second loop gets through the `k` slots it visits exactly when each has a command that
is not a no-op. -/
lemma executeNoOpsLoop_ok_iff (k : ℕ) (ps : PaxosServer n) :
    (executeNoOpsLoop k ps).2 = none ↔ ∀ j, ps.maxExecutedSlot < j → j ≤ ps.maxExecutedSlot + k →
      (ps.logs j).committedCmd ≠ none ∧ (ps.logs j).isNoOp = false := by
  induction k generalizing ps with
  | zero =>
    simp only [executeNoOpsLoop, true_iff]
    intro j h h'
    omega
  | succ k ih =>
    unfold executeNoOpsLoop
    split
    · next cmd hcmd hno =>
      rw [ih]
      simp only [applyNext]
      constructor
      · intro h j hj hj'
        by_cases heq : j = ps.maxExecutedSlot + 1
        · subst heq
          exact ⟨by simp [hcmd], hno⟩
        · exact h j (by omega) (by omega)
      · exact fun h j hj hj' => h j (by omega) (by omega)
    · next hnot =>
      simp only [reduceCtorEq, false_iff, not_forall]
      refine ⟨ps.maxExecutedSlot + 1, by omega, by omega, ?_⟩
      rintro ⟨hcmd, hno⟩
      obtain ⟨cmd, hcmd⟩ := Option.ne_none_iff_exists'.mp hcmd
      exact hnot cmd hcmd hno

/-- Filling leaves a stream without holes exactly when there was none to fill. -/
lemma noHole_fillNoOps_iff (ps : PaxosServer n) (syncSlot epoch : ℕ) :
    (ps.fillNoOps syncSlot epoch).NoHole ↔ ps.NoHole := by
  refine forall₃_congr fun j hj hj' => ?_
  simp only [fillNoOps] at hj' ⊢
  split
  · next h => simp [h.2.2]
  · rfl

/-- Without holes there is nothing to fill above `max_executed_slot_`. -/
lemma NoHole.fillNoOps (h : ps.NoHole) (hslot : ps.maxExecutedSlot < syncSlot) (epoch : ℕ) :
    ps.fillNoOps syncSlot epoch = ps := by
  have hlogs : (ps.fillNoOps syncSlot epoch).logs = ps.logs := by
    funext j
    simp only [PaxosServer.fillNoOps]
    refine if_neg fun hj => ?_
    exact (h j (by omega) hj.2.1).1 hj.2.2
  exact congrArg (fun logs => { ps with logs := logs }) hlogs

/-- `OnSyncNoOps` gets through a stream exactly when the request starts above what the stream
has executed and the stream has no hole. -/
lemma syncNoOps_ok_iff (hle : ps.maxExecutedSlot ≤ ps.maxCommittedSlot) (syncSlot epoch : ℕ) :
    (ps.syncNoOps syncSlot epoch).2 = none ↔ ps.maxExecutedSlot < syncSlot ∧ ps.NoHole := by
  have hloop : (executeNoOpsLoop (ps.maxCommittedSlot - ps.maxExecutedSlot)
      (ps.fillNoOps syncSlot epoch)).2 = none ↔ ps.NoHole := by
    rw [executeNoOpsLoop_ok_iff, ← noHole_fillNoOps_iff ps syncSlot epoch]
    refine forall₂_congr fun j _ => ?_
    simp only [fillNoOps, Nat.add_sub_cancel' hle]
  unfold syncNoOps
  split
  · next h => simp [Nat.not_lt.mpr h]
  · next h =>
    rw [← hloop]
    split
    · next heq => simp [heq]
    · next heq => simpa [heq] using Nat.lt_of_not_le h

/-- What a stream looks like after `OnSyncNoOps` got through it. -/
lemma syncNoOps_logs (hle : ps.maxExecutedSlot ≤ ps.maxCommittedSlot) {syncSlot epoch : ℕ}
    (hok : (ps.syncNoOps syncSlot epoch).2 = none) :
    (ps.syncNoOps syncSlot epoch).1.logs = ps.logs ∧
      (ps.syncNoOps syncSlot epoch).1.curEpoch = ps.curEpoch := by
  obtain ⟨hslot, hno⟩ := (syncNoOps_ok_iff hle syncSlot epoch).mp hok
  obtain ⟨_, _, h⟩ := executeNoOpsLoop_eq (ps.maxCommittedSlot - ps.maxExecutedSlot) ps
  rcases ps.syncNoOps_eq syncSlot epoch with heq | ⟨_, _, _, heq⟩
  · rw [heq]
    exact ⟨rfl, rfl⟩
  · rw [heq, hno.fillNoOps hslot, h]
    exact ⟨rfl, rfl⟩

/-- A stream `OnSyncNoOps` got through is executed up to `max_committed_slot_`. -/
lemma syncNoOps_executed {syncSlot epoch : ℕ} (hok : (ps.syncNoOps syncSlot epoch).2 = none) :
    (ps.syncNoOps syncSlot epoch).1.maxExecutedSlot =
      (ps.syncNoOps syncSlot epoch).1.maxCommittedSlot := by
  unfold syncNoOps at hok ⊢
  split at hok
  · cases hok
  · next hslot =>
    rw [if_neg hslot]
    split at hok
    · cases hok
    · rfl

/-- `OnSyncNoOps` resets the open slot, if it gets that far. -/
lemma syncNoOps_curOpenSlot (ps : PaxosServer n) (syncSlot epoch : ℕ) :
    (ps.syncNoOps syncSlot epoch).1.maxCommittedSlot = ps.maxCommittedSlot ∧
      ((ps.syncNoOps syncSlot epoch).1.curOpenSlot = ps.curOpenSlot ∨
        (ps.syncNoOps syncSlot epoch).1.curOpenSlot = ps.maxCommittedSlot + 1) := by
  obtain ⟨_, _, h⟩ := executeNoOpsLoop_eq (ps.maxCommittedSlot - ps.maxExecutedSlot)
    (ps.fillNoOps syncSlot epoch)
  rcases ps.syncNoOps_eq syncSlot epoch with heq | ⟨_, _, hopen, heq⟩
  · rw [heq]
    exact ⟨rfl, .inl rfl⟩
  · rw [heq, h]
    exact ⟨rfl, hopen⟩

/-- `OnSyncNoOps` accepts nothing. -/
lemma syncNoOps_acceptedCmd (ps : PaxosServer n) (syncSlot epoch slot : ℕ) :
    ((ps.syncNoOps syncSlot epoch).1.logs slot).acceptedCmd = (ps.logs slot).acceptedCmd := by
  have hfill : ((ps.fillNoOps syncSlot epoch).logs slot).acceptedCmd =
      (ps.logs slot).acceptedCmd := by
    simp only [fillNoOps]
    split <;> rfl
  obtain ⟨_, _, h⟩ := executeNoOpsLoop_eq (ps.maxCommittedSlot - ps.maxExecutedSlot)
    (ps.fillNoOps syncSlot epoch)
  rcases ps.syncNoOps_eq syncSlot epoch with heq | ⟨_, _, _, heq⟩
  · rw [heq]
  · rw [heq, h]
    exact hfill

end PaxosServer

namespace Machine

section Loop

variable {epoch : ℕ} {syncSlots : Fin S → ℕ} {is : List (Fin S)}

/-- The loop over the streams gets through exactly when each stream does. Every stream comes
once, so it is found as it was before the loop. -/
lemma noOpsLoop_ok_iff (hnd : is.Nodup) (halive : m.aborted = none) :
    (noOpsLoop epoch syncSlots is m).aborted = none ↔
      ∀ i ∈ is, ((m.server i).syncNoOps (syncSlots i) epoch).2 = none := by
  induction is generalizing m with
  | nil => simpa [noOpsLoop] using halive
  | cons i is ih =>
    obtain ⟨hi, hnd⟩ := nodup_cons.mp hnd
    rw [forall_mem_cons]
    unfold noOpsLoop
    split
    · next heq => simp [heq]
    · next ps heq =>
      rw [ih hnd (by simpa using halive), heq]
      simp only [true_and]
      refine forall₂_congr fun j hj => ?_
      have hne : j ≠ i := fun h => hi (h ▸ hj)
      rw [server_setServer_ne m ps hne]

/-- The streams after a loop that got through. -/
lemma noOpsLoop_server (hnd : is.Nodup)
    (hok : ∀ i ∈ is, ((m.server i).syncNoOps (syncSlots i) epoch).2 = none) (j : Fin S) :
    (noOpsLoop epoch syncSlots is m).server j =
      if j ∈ is then ((m.server j).syncNoOps (syncSlots j) epoch).1 else m.server j := by
  induction is generalizing m with
  | nil => simp [noOpsLoop]
  | cons i is ih =>
    obtain ⟨hi, hnd⟩ := nodup_cons.mp hnd
    obtain ⟨hok, hrest⟩ := forall_mem_cons.mp hok
    unfold noOpsLoop
    split
    · next heq => simp [heq] at hok
    · next ps heq =>
      have hother : ∀ k, k ∈ is → (m.setServer i ps).server k = m.server k :=
        fun k hk => server_setServer_ne m ps (fun h => hi (h ▸ hk))
      rw [ih hnd fun k hk => by rw [hother k hk]; exact hrest k hk]
      by_cases hj : j ∈ is
      · rw [if_pos hj, if_pos (mem_cons_of_mem _ hj), hother j hj]
      · rw [if_neg hj, server_setServer]
        by_cases hji : j = i
        · rw [if_pos hji, if_pos (hji ▸ mem_cons_self), hji, heq]
        · rw [if_neg hji, if_neg (by simp [hji, hj])]

end Loop

/-- `OnSyncNoOps` past its epoch check returns exactly when it gets through every stream. -/
lemma onSyncNoOps_ok_iff (halive : m.aborted = none) (hepoch : m.back.sched.curEpoch ≤ req.epoch) :
    (m.onSyncNoOps req).1.aborted = none ↔
      ∀ i, ((m.server i).syncNoOps (req.syncSlots i) req.epoch).2 = none := by
  have hloop : (noOpsLoop req.epoch req.syncSlots (finRange S) m).aborted = none ↔
      ∀ i, ((m.server i).syncNoOps (req.syncSlots i) req.epoch).2 = none := by
    rw [noOpsLoop_ok_iff (nodup_finRange S) halive]
    simp only [mem_finRange, true_imp_iff]
  unfold onSyncNoOps
  rw [if_neg (Nat.not_lt.mpr hepoch)]
  dsimp only
  split <;> exact hloop

lemma onSyncNoOps_server_eq (hepoch : m.back.sched.curEpoch ≤ req.epoch)
    (hall : ∀ i, ((m.server i).syncNoOps (req.syncSlots i) req.epoch).2 = none) (i : Fin S) :
    (m.onSyncNoOps req).1.server i = ((m.server i).syncNoOps (req.syncSlots i) req.epoch).1 := by
  unfold onSyncNoOps
  rw [if_neg (Nat.not_lt.mpr hepoch)]
  dsimp only
  split <;>
    rw [noOpsLoop_server (nodup_finRange S) (fun i _ => hall i), if_pos (by simp)]

/-- An `OnSyncNoOps` that got past its epoch check and returned has executed every stream. -/
lemma onSyncNoOps_executed (halive : m.aborted = none)
    (hepoch : m.back.sched.curEpoch ≤ req.epoch) (hok : (m.onSyncNoOps req).1.aborted = none)
    (i : Fin S) :
    ((m.onSyncNoOps req).1.server i).maxExecutedSlot =
      ((m.onSyncNoOps req).1.server i).maxCommittedSlot := by
  have hall := (onSyncNoOps_ok_iff halive hepoch).mp hok
  rw [onSyncNoOps_server_eq hepoch hall i]
  exact syncNoOps_executed (hall i)

/-- The streams after an `OnSyncNoOps` that returned. -/
lemma onSyncNoOps_server (halive : m.aborted = none) (hok : (m.onSyncNoOps req).1.aborted = none) :
    (m.onSyncNoOps req).1 = m ∨ ∀ i, ((m.server i).syncNoOps (req.syncSlots i) req.epoch).2 = none ∧
        (m.onSyncNoOps req).1.server i =
          ((m.server i).syncNoOps (req.syncSlots i) req.epoch).1 := by
  by_cases hepoch : m.back.sched.curEpoch ≤ req.epoch
  · have hall := (onSyncNoOps_ok_iff halive hepoch).mp hok
    exact .inr fun i => ⟨hall i, onSyncNoOps_server_eq hepoch hall i⟩
  · refine .inl ?_
    unfold onSyncNoOps
    rw [if_pos (Nat.lt_of_not_le hepoch)]

end Machine

end Rolis.Paxos
