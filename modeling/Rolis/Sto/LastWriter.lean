import Rolis.Sto.ReplayLog

/-!
# The last writer on a follower

What a key holds after the replay of a list of batches, and after the replay of a transaction of a
later epoch. In both cases the write with the largest commit id is the one to keep, and it is kept
if it fits the element of its key when its turn comes.
-/

namespace Rolis.Sto

open Bytes List

/-- The bytes stored under a key. -/
def Mem.stored (m : Mem) (table : ℕ) (key : Bytes) : Option Bytes :=
  (m.slot table key).map Slot.value

/-! ## A list of batches -/

/-- No two writes to a key have the same commit id. -/
def DistinctCids (us : List Update) : Prop := us.Pairwise fun u v => u.SameKey v → u.cid ≠ v.cid

instance (us : List Update) : Decidable (DistinctCids us) :=
  inferInstanceAs (Decidable (us.Pairwise _))

/-- `u` has the largest commit id of the writes to its key. -/
def IsLatest (us : List Update) (u : Update) : Prop :=
  u ∈ us ∧ ∀ v ∈ us, v.SameKey u → v.cid ≤ u.cid

instance (us : List Update) (u : Update) : Decidable (IsLatest us u) :=
  inferInstanceAs (Decidable (_ ∧ _))

/-- Every key holds its latest write, whatever the order of the writes is. -/
structure KeepsLatest (us : List Update) (m : Mem) : Prop where
  latest : ∀ u, IsLatest us u → m.stored u.entry.tableId u.entry.key = some u.data
  absent : ∀ table key, (∀ u ∈ us, ¬ u.At table key) → m.stored table key = none

/-- The latest write of each key finds, when its turn comes, no element or one with room for it. -/
def FitsInTurn (tries : ℕ) (us : List Update) : Prop :=
  ∀ pre u post, us = pre ++ u :: post → IsLatest us u →
    ∀ m s, replayUpdates tries {} pre = some m →
      m.slot u.entry.tableId u.entry.key = some s → u.data.length ≤ s.capacity

section

variable {us pre post : List Update} {u : Update}

lemma dataAt_split (hus : us = pre ++ u :: post) : dataAt us u.entry.tableId u.entry.key =
      dataAt pre u.entry.tableId u.entry.key ++
        u.data :: dataAt post u.entry.tableId u.entry.key := by
  rw [hus, dataAt, filter_append, filter_cons_of_pos (by simp [Update.At]), map_append]
  rfl

lemma mem_dataAt {table : ℕ} {key x : Bytes} (h : x ∈ dataAt us table key) :
    ∃ v ∈ us, v.At table key ∧ v.data = x := by
  obtain ⟨v, hv, rfl⟩ := mem_map.mp h
  obtain ⟨hmem, hat⟩ := mem_filter.mp hv
  exact ⟨v, hmem, of_decide_eq_true hat, rfl⟩

/-- The other writes to the key of the latest one have smaller commit ids. -/
lemma lt_of_isLatest (hlt : ∀ v ∈ us, v.cid < 256 ^ 8) (hcid : DistinctCids us)
    (hus : us = pre ++ u :: post) (hlatest : IsLatest us u) :
    (∀ x ∈ dataAt pre u.entry.tableId u.entry.key, keystoreDecode3V2 x < keystoreDecode3V2 u.data) ∧
    (∀ x ∈ dataAt post u.entry.tableId u.entry.key,
      keystoreDecode3V2 x < keystoreDecode3V2 u.data) := by
  subst hus
  obtain ⟨-, hrest, hcross⟩ := pairwise_append.mp hcid
  have hpost := (pairwise_cons.mp hrest).1
  -- no other write to the key has the same commit id
  have hlt' : ∀ v ∈ pre ++ u :: post, v.SameKey u → v.cid ≠ u.cid →
      keystoreDecode3V2 v.data < keystoreDecode3V2 u.data := by
    intro v hv hsame hne
    rw [Update.decode_data (hlt v hv), Update.decode_data (hlt u hlatest.1)]
    exact lt_of_le_of_ne (hlatest.2 v hv hsame) hne
  constructor
  · intro x hx
    obtain ⟨v, hv, hat, rfl⟩ := mem_dataAt hx
    exact hlt' v (mem_append_left _ hv) hat (hcross v hv u mem_cons_self hat)
  · intro x hx
    obtain ⟨v, hv, hat, rfl⟩ := mem_dataAt hx
    exact hlt' v (mem_append_right _ (mem_cons_of_mem u hv)) hat
      (hpost v hv ⟨hat.1.symm, hat.2.symm⟩).symm

/-- On empty tables the latest write of a key survives exactly if it fits in its turn. -/
lemma stored_latest_iff {tries : ℕ} {m : Mem} (hlt : ∀ v ∈ us, v.cid < 256 ^ 8)
    (hcid : DistinctCids us) (hrun : replayUpdates (tries + 1) {} us = some m)
    (hus : us = pre ++ u :: post) (hlatest : IsLatest us u) :
    m.stored u.entry.tableId u.entry.key = some u.data ↔
      ∀ m s, replayUpdates (tries + 1) {} pre = some m →
        m.slot u.entry.tableId u.entry.key = some s → u.data.length ≤ s.capacity := by
  obtain ⟨m', hrun', -, hslot⟩ := exists_replayUpdates Mem.quiet_empty tries us
  obtain ⟨mp, hpre, -, hslotp⟩ := exists_replayUpdates Mem.quiet_empty tries pre
  cases hrun.symm.trans hrun'
  obtain ⟨hltpre, hltpost⟩ := lt_of_isLatest hlt hcid hus hlatest
  have hempty : Mem.slot {} u.entry.tableId u.entry.key = none := rfl
  rw [Mem.stored, hslot, hempty, dataAt_split hus, Slot.value_puts_iff hltpre hltpost]
  constructor
  · intro h m₁ s hm₁ hs
    cases hm₁.symm.trans hpre
    rw [hslotp, hempty] at hs
    exact h s hs
  · intro h s hs
    refine h mp s hpre ?_
    rw [hslotp, hempty]
    exact hs

end

/-- A key that nobody wrote holds nothing. -/
lemma stored_absent {tries : ℕ} {us : List Update} {m : Mem}
    (hrun : replayUpdates (tries + 1) {} us = some m) {table : ℕ} {key : Bytes}
    (habs : ∀ u ∈ us, ¬ u.At table key) : m.stored table key = none := by
  obtain ⟨m', hrun', -, hslot⟩ := exists_replayUpdates Mem.quiet_empty tries us
  cases hrun.symm.trans hrun'
  have hnil : dataAt us table key = [] := by
    rw [dataAt, filter_eq_nil_iff.mpr (by simpa using habs), map_nil]
  rw [Mem.stored, hslot, hnil]
  rfl

/-- The replay of writes on empty tables keeps the latest write of each key if and only if each
of them fits in its turn. -/
lemma keepsLatest_iff {tries : ℕ} {us : List Update} {m : Mem}
    (hlt : ∀ v ∈ us, v.cid < 256 ^ 8) (hcid : DistinctCids us)
    (hrun : replayUpdates (tries + 1) {} us = some m) :
    KeepsLatest us m ↔ FitsInTurn (tries + 1) us := by
  constructor
  · intro h pre u post hus hlatest
    exact (stored_latest_iff hlt hcid hrun hus hlatest).mp (h.latest u hlatest)
  · intro h
    refine ⟨fun u hlatest => ?_, fun table key habs => stored_absent hrun habs⟩
    obtain ⟨pre, post, hus⟩ := append_of_mem hlatest.1
    exact (stored_latest_iff hlt hcid hrun hus hlatest).mpr (h pre u post hus hlatest)

/-- Batches that the reader accepts, with distinct commit ids for each key, are replayed one after
another on empty tables. The replay ends, and each key holds its write with the largest commit id
if and only if that write fits the element of its key when its turn comes. -/
theorem replayBatches_keepsLatest_iff (tries : ℕ) (buffers : List Bytes)
    (hread : Readable buffers) (hcid : DistinctCids (updates buffers)) :
    (∃ m, replayBatches (tries + 1) {} buffers = some m ∧ KeepsLatest (updates buffers) m) ↔
      FitsInTurn (tries + 1) (updates buffers) := by
  obtain ⟨m, hrun, -⟩ := exists_replayUpdates Mem.quiet_empty tries (updates buffers)
  have hiff := keepsLatest_iff (updates_cid_lt buffers) hcid hrun
  rw [replayBatches_eq _ _ hread]
  constructor
  · rintro ⟨m', hrun', hm'⟩
    cases hrun.symm.trans hrun'
    exact hiff.mp hm'
  · intro hfits
    exact ⟨m, hrun, hiff.mpr hfits⟩

/-- The batch of one transaction that puts `value` under the key `[1]` of table 10001. -/
def putBatch (tid epoch : ℕ) (value : Bytes) : Bytes :=
  ((submitted 1 [⟨tid, epoch, [⟨false, false, value, [1], value, 10001⟩]⟩]).getD []).flatten

/-- The batch whose value replaces the value of the one before it, in the same element. -/
theorem replayBatches_keepsLatest_iff_short :
    Readable [putBatch 1 1 [7], putBatch 2 1 [8]] ∧
      DistinctCids (updates [putBatch 1 1 [7], putBatch 2 1 [8]]) ∧
      ((∃ m, replayBatches 1 {} [putBatch 1 1 [7], putBatch 2 1 [8]] = some m ∧
          KeepsLatest (updates [putBatch 1 1 [7], putBatch 2 1 [8]]) m) ↔
        FitsInTurn 1 (updates [putBatch 1 1 [7], putBatch 2 1 [8]])) :=
  ⟨by decide +kernel, by decide +kernel,
    replayBatches_keepsLatest_iff 0 _ (by decide +kernel) (by decide +kernel)⟩

/-- A value of one byte, and then one of twenty bytes. -/
def grownBatches : List Bytes := [putBatch 1 1 [7], putBatch 2 1 (List.replicate 20 8)]

/-- The longer value has the larger commit id and is lost: its put moves the element, fails its
own commit for it, and is not tried again. -/
theorem not_keepsLatest_grown :
    Readable grownBatches ∧ DistinctCids (updates grownBatches) ∧
      ∃ m, replayBatches 1 {} grownBatches = some m ∧
        ¬ KeepsLatest (updates grownBatches) m := by
  have hrun : (replayBatches 1 {} grownBatches).map (·.stored 10001 [1]) =
      some (some ([7] ++ encode 8 1001)) := by decide +kernel
  obtain ⟨m, hm, hstored⟩ := Option.map_eq_some_iff.mp hrun
  refine ⟨by decide +kernel, by decide +kernel, m, hm, fun h => ?_⟩
  let grown : Update := ⟨2001, [1], List.replicate 20 8, 10001, false⟩
  have hlatest : m.stored 10001 [1] = some grown.data := h.latest grown (by decide +kernel)
  rw [hstored] at hlatest
  exact absurd hlatest (by decide +kernel)

/-! ## A transaction of a later epoch -/

/-- A put to a key that holds something. -/
lemma Slot.value_put_iff {s : Slot} {w : Bytes} : (Slot.put (some s) w).map Slot.value = some w ↔
      s.value = w ∨ keystoreDecode3V2 s.value < keystoreDecode3V2 w ∧ w.length ≤ s.capacity := by
  by_cases hcmp : keystoreDecode3V2 s.value < keystoreDecode3V2 w
  · have hne : s.value ≠ w := fun heq => absurd hcmp (heq ▸ lt_irrefl _)
    have hcmp' : cmpFunc2V2 w s.value = true := decide_eq_true hcmp
    by_cases hfit : w.length ≤ s.capacity
    · simp [Slot.put, hcmp, hcmp', hfit]
    · simp [Slot.put, hcmp', hfit, hne]
  · have hcmp' : cmpFunc2V2 w s.value = false := decide_eq_false hcmp
    simp [Slot.put, hcmp, hcmp']

/-- The writes of a transaction that writes a key once. -/
lemma dataAt_updatesOf_once {cid : ℕ} {pre post : List KV} {kv : KV}
    (honce : ∀ kv' ∈ pre ++ post, ¬ (kv'.tableId = kv.tableId ∧ kv'.key = kv.key)) :
    dataAt (updatesOf (cid, pre ++ kv :: post)) kv.tableId kv.key =
      [Update.data ⟨cid, kv.entry⟩] := by
  have hnone : ∀ kvs : List KV, (∀ kv' ∈ kvs, kv' ∈ pre ++ post) →
      (updatesOf (cid, kvs)).filter (fun u => u.At kv.tableId kv.key) = [] := by
    intro kvs hsub
    rw [filter_eq_nil_iff]
    intro u hu
    obtain ⟨kv', hkv', rfl⟩ := mem_map.mp hu
    exact fun hat => honce kv' (hsub kv' hkv') (of_decide_eq_true hat)
  have hpre := hnone pre fun _ h => mem_append_left _ h
  have hpost := hnone post fun _ h => mem_append_right _ h
  unfold updatesOf at hpre hpost ⊢
  rw [dataAt, map_append, map_cons, filter_append, hpre,
    filter_cons_of_pos (by simp [Update.At, KV.entry]), hpost]
  rfl

/-- A follower has replayed any batches, and a key holds the write `u₁` of a transaction with the
time stamp `tid₁` and the epoch `epoch₁`. It then replays a transaction of the epoch `epoch₂` that
writes the key once. The key holds the value of that transaction if and only if its 64-bit commit
id is the larger one and the value fits the element of the key, or if the key held the same bytes
before. The epochs have no other part in it than their place in the commit ids. -/
theorem stored_laterEpoch_iff (tries : ℕ) (buffers : List Bytes) (m : Mem)
    (hread : Readable buffers) (hrun : replayBatches (tries + 1) {} buffers = some m)
    (tid₁ tid₂ epoch₁ epoch₂ : ℕ) (u₁ : Update)
    (hcid : u₁.cid = commitId tid₁ epoch₁) (pre post : List KV) (kv : KV)
    (honce : ∀ kv' ∈ pre ++ post, ¬ (kv'.tableId = kv.tableId ∧ kv'.key = kv.key))
    (s : Slot) (hslot : m.slot kv.tableId kv.key = some s) (hheld : s.value = u₁.data) :
    (∃ m', replayKVs (tries + 1) m (commitId tid₂ epoch₂, pre ++ kv :: post) = some m' ∧
        m'.stored kv.tableId kv.key = some (Update.data ⟨commitId tid₂ epoch₂, kv.entry⟩)) ↔
      u₁.data = Update.data ⟨commitId tid₂ epoch₂, kv.entry⟩ ∨
        commitId tid₁ epoch₁ < commitId tid₂ epoch₂ ∧
          (Update.data ⟨commitId tid₂ epoch₂, kv.entry⟩).length ≤ s.capacity := by
  -- the replay of the batches leaves every element valid, so the transaction can be replayed
  obtain ⟨m₀, hrun₀, hquiet, -⟩ := exists_replayUpdates Mem.quiet_empty tries (updates buffers)
  rw [replayBatches_eq _ _ hread] at hrun
  cases hrun.symm.trans hrun₀
  obtain ⟨m', hrun', -, hslot'⟩ :=
    exists_replayUpdates hquiet tries (updatesOf (commitId tid₂ epoch₂, pre ++ kv :: post))
  have hput : m'.slot kv.tableId kv.key =
      Slot.put (some s) (Update.data ⟨commitId tid₂ epoch₂, kv.entry⟩) := by
    rw [hslot', hslot, dataAt_updatesOf_once honce]
    rfl
  have hold : keystoreDecode3V2 u₁.data = commitId tid₁ epoch₁ := by
    rw [Update.decode_data (hcid ▸ Nat.mod_lt _ (by norm_num)), hcid]
  have hnew : keystoreDecode3V2 (Update.data ⟨commitId tid₂ epoch₂, kv.entry⟩) =
      commitId tid₂ epoch₂ := Update.decode_data (Nat.mod_lt _ (by norm_num))
  have hiff := Slot.value_put_iff (s := s) (w := Update.data ⟨commitId tid₂ epoch₂, kv.entry⟩)
  rw [hheld, hold, hnew, ← hput] at hiff
  rw [← hiff, replayKVs_eq]
  constructor
  · rintro ⟨m₁, hm₁, hstored⟩
    cases hm₁.symm.trans hrun'
    exact hstored
  · intro hstored
    exact ⟨m', hrun', hstored⟩

/-- The pair of a transaction that puts `value` under the key `[1]` of table 10001, with the eight
bytes that stand behind the value in the batch. -/
def pairOf (value : Bytes) : KV := ⟨[1], value ++ List.replicate 8 0, 10001, false⟩

/-- The clock of the new leader is ahead: its value replaces that of the old epoch. -/
theorem stored_laterEpoch_iff_ahead :
    ∃ m s, replayBatches 1 {} [putBatch 1 1 [7]] = some m ∧ m.slot 10001 [1] = some s ∧
      (∃ m', replayKVs 1 m (commitId 2 2, [pairOf [8]]) = some m' ∧
        m'.stored 10001 [1] = some ([8] ++ encode 8 (commitId 2 2))) := by
  have hrun : (replayBatches 1 {} [putBatch 1 1 [7]]).bind (·.slot 10001 [1]) =
      some ⟨[7] ++ encode 8 (commitId 1 1), 16⟩ := by decide +kernel
  obtain ⟨m, hm, hslot⟩ := Option.bind_eq_some_iff.mp hrun
  exact ⟨m, _, hm, hslot,
    (stored_laterEpoch_iff 0 [putBatch 1 1 [7]] m (by decide +kernel) hm 1 2 1 2
      ⟨commitId 1 1, [1], [7], 10001, false⟩ rfl [] [] (pairOf [8]) nofun _ hslot rfl).mpr
      (.inr (by decide +kernel))⟩

/-- The clock of the new leader is behind: the transaction of epoch 2 gets the commit id 1002 and
does not replace the one of epoch 1 with the commit id 2001. -/
theorem not_stored_laterEpoch_behind :
    ∃ m m', replayBatches 1 {} [putBatch 2 1 [7]] = some m ∧
      m.stored 10001 [1] = some ([7] ++ encode 8 (commitId 2 1)) ∧
      replayBatches 1 m [putBatch 1 2 [8]] = some m' ∧
      m'.stored 10001 [1] ≠ some ([8] ++ encode 8 (commitId 1 2)) := by
  have hrun : (replayBatches 1 {} [putBatch 2 1 [7]]).map (fun m =>
      (m.stored 10001 [1], (replayBatches 1 m [putBatch 1 2 [8]]).map (·.stored 10001 [1]))) =
      some (some ([7] ++ encode 8 (commitId 2 1)),
        some (some ([7] ++ encode 8 (commitId 2 1)))) := by decide +kernel
  obtain ⟨m, hm, hpair⟩ := Option.map_eq_some_iff.mp hrun
  obtain ⟨hstored, hlater⟩ := Prod.mk.inj hpair
  obtain ⟨m', hm', hstored'⟩ := Option.map_eq_some_iff.mp hlater
  exact ⟨m, m', hm, hstored, hm', by rw [hstored']; decide +kernel⟩

end Rolis.Sto
