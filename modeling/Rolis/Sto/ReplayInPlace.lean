import Rolis.Sto.ReplayLog

/-!
# Replay writes to the log

`getFileContentNew_OneLogOptimized_mbta_v2` looks at the table id of an entry through a pointer into
the buffer, and it clears the delete flag through that pointer:
`*table_id = (*table_id) ^ (1 << 15)`. The buffer is not a copy. It is the log that the apply path
owns, and what is kept in `redo_buffers`. After a replay every delete in it reads as a put of the
value that was deleted.
-/

namespace Rolis.Sto

open Bytes List WriteItem

/-! ## The loops with the buffer they change -/

/-- Bytes written to a place of a buffer. -/
def overwrite (buffer : Bytes) (pos : ℕ) (bytes : Bytes) : Bytes :=
  buffer.take pos ++ (bytes ++ buffer.drop (pos + bytes.length))

/-- One turn of the loop of `getFileContentNew_OneLogOptimized_mbta_v2`: the pair at the offset, the
buffer afterwards and the next offset. The table id stands in front of the next offset. -/
def replayKVAt (buffer : Bytes) (offset : ℕ) : Option (KV × Bytes × ℕ) :=
  (readKV (buffer.drop offset)).map fun (kv, rest) =>
    let next := buffer.length - rest.length
    (kv, if kv.deleteTrue then overwrite buffer (next - 2) (encode 2 kv.tableId) else buffer, next)

/-- The loop over the pairs of a transaction. -/
def replayKVsAt : ℕ → Bytes → ℕ → Option (List KV × Bytes)
  | 0, buffer, _ => some ([], buffer)
  | count + 1, buffer, offset =>
    match replayKVAt buffer offset with
    | none => none
    | some (kv, buffer, next) =>
      (replayKVsAt count buffer next).map fun (kvs, buffer) => (kv :: kvs, buffer)

/-- The second loop of `treplay_in_same_thread_opt_mbta_v2`. The pointers of the wrapped logs go
into the buffer, whose length does not change. -/
def replayLogsAt : List WrappedLog → Bytes → Option (List (ℕ × List KV) × Bytes)
  | [], buffer => some ([], buffer)
  | w :: ws, buffer =>
    match replayKVsAt w.count buffer (buffer.length - w.arr.length) with
    | none => none
    | some (kvs, buffer) =>
      (replayLogsAt ws buffer).map fun (txns, buffer) => ((w.cid, kvs) :: txns, buffer)

/-- `treplay_in_same_thread_opt_mbta_v2`: the transactions it puts, and the buffer afterwards. -/
def replayInPlace (buffer : Bytes) : Option (List (ℕ × List KV) × Bytes) :=
  if buffer.length < 8 then none
  else
    match readLogs buffer.length buffer with
    | none => none
    | some (ws, _) => replayLogsAt ws buffer

/-- The puts of a replay: table, key and what is stored. -/
def putsOf (txns : List (ℕ × List KV)) : List (ℕ × Bytes × Bytes) :=
  txns.flatMap fun (cid, kvs) => kvs.map fun kv => (kv.tableId, kv.key, kv.stored cid)

/-! ## Cleared flags -/

/-- The item without its delete flag. -/
def WriteItem.clear (it : WriteItem) : WriteItem := { it with hasDeleteOp := false }

lemma WriteItem.WellFormed.clear {it : WriteItem} (h : it.WellFormed) : it.clear.WellFormed :=
  ⟨h.key_ne, h.key_lt, h.value_lt, h.identity_ge, h.identity_le⟩

lemma WriteItem.clear_of_not_delete {it : WriteItem} (h : it.hasDeleteOp = false) :
    it.clear = it := by
  rw [clear, ← h]

/-- The transaction without its delete flags. -/
def Txn.clear (t : Txn) : Txn where
  tid := t.tid
  epoch := t.epoch
  items := t.items.map WriteItem.clear
  items_ne := by simpa using t.items_ne
  items_le := by simpa using t.items_le
  wellFormed := by
    intro it hit
    obtain ⟨it', hit', rfl⟩ := List.mem_map.mp hit
    exact (t.wellFormed it' hit').clear

variable {it : WriteItem} {items : List WriteItem} {t : Txn} {ts : List Txn}
  {before rest batch : Bytes}

/-- Everything of an item in the log but its table id. -/
def WriteItem.keyValue (it : WriteItem) : Bytes :=
  encode 2 it.loggedKey.length ++ (it.loggedKey ++ (encode 2 it.value.length ++ it.value))

lemma WriteItem.encoding_eq (it : WriteItem) :
    it.encoding = it.keyValue ++ encode 2 it.tableId := by
  simp only [encoding, keyValue, append_assoc]

lemma WriteItem.WellFormed.encoding_clear (h : it.WellFormed) :
    it.clear.encoding = it.keyValue ++ encode 2 it.identity := by
  rw [encoding_eq, h.clear.tableId_eq]
  rfl

lemma WriteItem.length_encoding_clear (it : WriteItem) :
    it.clear.encoding.length = it.encoding.length := by
  rw [encoding_eq, encoding_eq, length_append, length_append, length_encode, length_encode]
  rfl

lemma overwrite_append (a b c bytes : Bytes) (h : bytes.length = b.length) :
    overwrite (a ++ (b ++ c)) a.length bytes = a ++ (bytes ++ c) := by
  rw [overwrite, take_left, h, ← append_assoc a b c, ← length_append, drop_left]

/-! ## One batch -/

/-- One turn reads the entry and clears its flag. -/
lemma replayKVAt_encoding (h : it.WellFormed) (before : Bytes) (hrest : 6 ≤ rest.length) :
    ∃ kv, readKV (it.encoding ++ rest) = some (kv, rest) ∧
      replayKVAt (before ++ (it.encoding ++ rest)) before.length =
        some (kv, before ++ (it.clear.encoding ++ rest), (before ++ it.clear.encoding).length) := by
  obtain ⟨kv, hread, hentry⟩ := readKV_encoding h rest hrest
  refine ⟨kv, hread, ?_⟩
  have hdelete : kv.deleteTrue = it.hasDeleteOp := congrArg Entry.deleteTrue hentry
  have hid : kv.tableId = it.identity := congrArg Entry.tableId hentry
  have hnext : (before ++ (it.encoding ++ rest)).length - rest.length =
      (before ++ it.clear.encoding).length := by
    simp only [length_append, length_encoding_clear]
    omega
  rw [replayKVAt, drop_left, hread, Option.map_some]
  simp only [hnext, hdelete, hid]
  cases hdel : it.hasDeleteOp with
  | false => rw [clear_of_not_delete hdel]; rfl
  | true =>
    have hpos : (before ++ it.clear.encoding).length - 2 = (before ++ it.keyValue).length := by
      simp only [h.encoding_clear, length_append, length_encode]
      omega
    have hsplit : before ++ (it.encoding ++ rest) =
        (before ++ it.keyValue) ++ (encode 2 it.tableId ++ rest) := by
      simp only [it.encoding_eq, append_assoc]
    rw [if_pos rfl, hpos, hsplit, overwrite_append _ _ _ _ (by simp), h.encoding_clear]
    simp only [append_assoc]

/-- The loop over the pairs finds what is there, and clears all flags. -/
lemma replayKVsAt_encoding (h : ∀ it ∈ items, it.WellFormed) (before : Bytes)
    (hrest : 6 ≤ rest.length) :
    ∃ kvs, readN readKV items.length (items.flatMap encoding ++ rest) = some (kvs, rest) ∧
      replayKVsAt items.length (before ++ (items.flatMap encoding ++ rest)) before.length =
        some (kvs, before ++ ((items.map clear).flatMap encoding ++ rest)) := by
  induction items generalizing before with
  | nil => exact ⟨[], rfl, rfl⟩
  | cons it items ih =>
    have hrest' : 6 ≤ (items.flatMap encoding ++ rest).length := by
      rw [length_append]
      omega
    obtain ⟨kv, hread, hkv⟩ := replayKVAt_encoding (h it mem_cons_self) before hrest'
    obtain ⟨kvs, hreads, hkvs⟩ := ih (fun it' hit' => h it' (mem_cons_of_mem it hit'))
      (before ++ it.clear.encoding)
    refine ⟨kv :: kvs, ?_, ?_⟩
    · rw [flatMap_cons, append_assoc, length_cons]
      simp only [readN, hread, hreads, Option.map_some]
    · rw [append_assoc] at hkvs
      rw [flatMap_cons, append_assoc, length_cons, replayKVsAt, hkv]
      simp only [hkvs, Option.map_some, map_cons, flatMap_cons, append_assoc]

lemma Txn.length_kvs_clear (t : Txn) : t.clear.kvs.length = t.kvs.length := by
  simp [Txn.kvs, Txn.clear, flatMap_map, length_flatMap, length_encoding_clear]

lemma Txn.kvs_clear (t : Txn) :
    t.clear.kvs = (t.items.map WriteItem.clear).flatMap WriteItem.encoding := rfl

lemma Txn.clear_of_not_delete (h : ∀ it ∈ t.items, it.hasDeleteOp = false) : t.clear = t := by
  obtain ⟨⟨tid, epoch, items⟩, hne, hle, hwf⟩ := t
  have hitems : items.map WriteItem.clear = items := by
    conv_rhs => rw [← map_id items]
    exact map_congr_left fun it hit => WriteItem.clear_of_not_delete (h it hit)
  simp only [Txn.clear, hitems]

/-- The header of a transaction in the log. -/
def Txn.header (t : Txn) : Bytes :=
  encode 8 t.cid ++ (encode 2 t.items.length ++ encode 4 t.kvs.length)

lemma Txn.encoding_eq (t : Txn) : t.encoding = t.header ++ t.kvs := by
  simp only [encoding, header, append_assoc]

lemma Txn.encoding_clear (t : Txn) : t.clear.encoding = t.header ++ t.clear.kvs := by
  rw [encoding_eq, header, length_kvs_clear]
  simp [Txn.clear, Txn.header, Commit.cid]

/-- The second loop finds what the reader of the log finds, and clears all flags. -/
lemma replayLogsAt_encoding (ts : List Txn) (before : Bytes) {trailer : Bytes}
    (htrailer : trailer.length = 8) :
    ∃ txns, (wrappedLogs trailer ts).mapM WrappedLog.txn = some txns ∧
      replayLogsAt (wrappedLogs trailer ts) (before ++ (ts.flatMap Txn.encoding ++ trailer)) =
        some (txns, before ++ ((ts.map Txn.clear).flatMap Txn.encoding ++ trailer)) := by
  induction ts generalizing before with
  | nil => exact ⟨[], rfl, rfl⟩
  | cons t ts ih =>
    have hrest : 6 ≤ (ts.flatMap Txn.encoding ++ trailer).length := by
      rw [length_append, htrailer]
      omega
    obtain ⟨kvs, hreads, hkvs⟩ := replayKVsAt_encoding t.wellFormed (before ++ t.header) hrest
    obtain ⟨txns, htxns, hlogs⟩ := ih (before ++ t.clear.encoding)
    have hoffset : (before ++ (t.encoding ++ (ts.flatMap Txn.encoding ++ trailer))).length -
        (t.kvs ++ (ts.flatMap Txn.encoding ++ trailer)).length = (before ++ t.header).length := by
      simp only [t.encoding_eq, length_append]
      omega
    refine ⟨(t.cid, kvs) :: txns, ?_, ?_⟩
    · have htxn : (t.wrapped (ts.flatMap Txn.encoding ++ trailer)).txn = some (t.cid, kvs) := by
        simp only [WrappedLog.txn, Txn.wrapped, Txn.kvs, hreads, Option.map_some]
      rw [wrappedLogs, mapM_cons, htxn, htxns]
      rfl
    · have hbuffer : before ++ (t.encoding ++ (ts.flatMap Txn.encoding ++ trailer)) =
          before ++ t.header ++
            (t.items.flatMap WriteItem.encoding ++ (ts.flatMap Txn.encoding ++ trailer)) := by
        simp only [t.encoding_eq, Txn.kvs, append_assoc]
      have hcleared : before ++ t.header ++ ((t.items.map WriteItem.clear).flatMap
            WriteItem.encoding ++ (ts.flatMap Txn.encoding ++ trailer)) =
          before ++ t.clear.encoding ++ (ts.flatMap Txn.encoding ++ trailer) := by
        simp only [t.encoding_clear, t.kvs_clear, append_assoc]
      rw [wrappedLogs, flatMap_cons, append_assoc, replayLogsAt, Txn.wrapped, hoffset,
        hbuffer, hkvs]
      simp only [hcleared]
      rw [hlogs, Option.map_some, map_cons, flatMap_cons, append_assoc, append_assoc]

lemma length_flatMap_clear (ts : List Txn) :
    ((ts.map Txn.clear).flatMap Txn.encoding).length = (ts.flatMap Txn.encoding).length := by
  simp [length_flatMap, flatMap_map, Txn.length_encoding, Txn.length_kvs_clear]

/-- A replay puts what the reader of the log finds, and leaves the batch of the same transactions
with their delete flags cleared. -/
lemma exists_replayInPlace (cid : ℕ)
    (hfits : (ts.flatMap Txn.encoding).length ≤ maxArraySizeInBytes) :
    ∃ txns, (parse (ts.flatMap Txn.encoding ++ encode 8 cid)).map Prod.fst = some txns ∧
      replayInPlace (ts.flatMap Txn.encoding ++ encode 8 cid) =
        some (txns, (ts.map Txn.clear).flatMap Txn.encoding ++ encode 8 cid) := by
  have htrailer : (encode 8 cid).length = 8 := length_encode 8 cid
  have hle := length_le_flatMap_encoding ts
  have hlen : (ts.flatMap Txn.encoding ++ encode 8 cid).length =
      (ts.flatMap Txn.encoding).length + 8 := by
    rw [length_append, htrailer]
  have hread := readLogs_encoding htrailer (kvs_length_lt hfits)
    (hle.trans (hlen ▸ Nat.le_add_right _ 8))
  obtain ⟨txns, htxns, hlogs⟩ := replayLogsAt_encoding ts [] htrailer
  refine ⟨txns, ?_, ?_⟩
  · rw [parse, if_neg (by omega), hread]
    simp only [htxns, Option.map_some]
  · rw [replayInPlace, if_neg (by omega), hread]
    exact hlogs

/-! ## When the log stays as it is -/

/-- No transaction deletes. -/
def NoDeletes (ts : List Txn) : Prop := ∀ t ∈ ts, ∀ it ∈ t.items, it.hasDeleteOp = false

/-- A batch holds one sequence of transactions, as far as the log shows them. -/
lemma IsBatch.logged_unique {ts' : List Txn} (h : IsBatch ts batch) (h' : IsBatch ts' batch) :
    ts.map Txn.logged = ts'.map Txn.logged := by
  obtain ⟨-, txns, hparse, hmap⟩ := h.parsesTo
  obtain ⟨-, txns', hparse', hmap'⟩ := h'.parsesTo
  cases hparse.symm.trans hparse'
  rw [← hmap, hmap']

/-- Cleared flags are seen in the log. -/
lemma noDeletes_of_logged_clear (h : (ts.map Txn.clear).map Txn.logged = ts.map Txn.logged) :
    NoDeletes ts := by
  intro t ht it hit
  rw [map_map] at h
  have ht := map_eq_map_iff.mp h t ht
  have hitems : (t.items.map clear).map logged = t.items.map logged := congrArg Prod.snd ht
  rw [map_map] at hitems
  exact (congrArg Entry.deleteTrue (map_eq_map_iff.mp hitems it hit)).symm

lemma NoDeletes.map_clear (h : NoDeletes ts) : ts.map Txn.clear = ts := by
  conv_rhs => rw [← map_id ts]
  exact map_congr_left fun t ht => Txn.clear_of_not_delete (h t ht)

/-- The replay of a batch leaves all its bytes as they are, and a second replay of the buffer, here
or at another replica, makes the same puts. -/
structure ReplayKeepsLog (batch : Bytes) : Prop where
  unchanged : ∃ txns, replayInPlace batch = some (txns, batch)
  again : ∀ txns buffer, replayInPlace batch = some (txns, buffer) →
    ∃ txns' buffer', replayInPlace buffer = some (txns', buffer') ∧ putsOf txns' = putsOf txns

/-- Replay keeps a batch exactly if nothing is deleted in it. -/
theorem replayKeepsLog_iff (ts : List Txn) (batch : Bytes) (h : IsBatch ts batch) :
    ReplayKeepsLog batch ↔ NoDeletes ts := by
  obtain ⟨cid, heq⟩ := h.eq
  obtain ⟨txns, -, hreplay⟩ := exists_replayInPlace cid h.fits
  rw [← heq] at hreplay
  constructor
  · rintro ⟨⟨txns', hreplay'⟩, -⟩
    have hbatch : (ts.map Txn.clear).flatMap Txn.encoding ++ encode 8 cid = batch :=
      congrArg Prod.snd (Option.some.inj (hreplay.symm.trans hreplay'))
    have hcleared : IsBatch (ts.map Txn.clear) batch :=
      ⟨(length_flatMap_clear ts).trans_le h.fits, cid, hbatch.symm⟩
    exact noDeletes_of_logged_clear (hcleared.logged_unique h)
  · intro hno
    rw [hno.map_clear, ← heq] at hreplay
    refine ⟨⟨txns, hreplay⟩, fun txns' buffer hreplay' => ?_⟩
    cases hreplay.symm.trans hreplay'
    exact ⟨txns, batch, hreplay, rfl⟩

/-- One transaction that puts the value 7, 7 under the key 1, or deletes the key with this value. -/
def oneWrite (hasDeleteOp : Bool) : Txn where
  tid := 5
  epoch := 1
  items := [⟨false, hasDeleteOp, [7, 7], [1], [7, 7], 10001⟩]
  items_ne := by simp
  items_le := by simp
  wellFormed := by cases hasDeleteOp <;> decide

/-- The batch of the transaction. -/
def oneBatch (hasDeleteOp : Bool) : Bytes :=
  [oneWrite hasDeleteOp].flatMap Txn.encoding ++ encode 8 (oneWrite hasDeleteOp).cid

theorem replayKeepsLog_iff_onePut :
    IsBatch [oneWrite false] (oneBatch false) ∧ ReplayKeepsLog (oneBatch false) := by
  have hbatch : IsBatch [oneWrite false] (oneBatch false) := ⟨by decide +kernel, _, rfl⟩
  refine ⟨hbatch, (replayKeepsLog_iff _ _ hbatch).mpr ?_⟩
  intro t ht it hit
  rw [List.mem_singleton.mp ht] at hit
  rw [List.mem_singleton.mp hit]

/-- A delete of the key 1 in the table 10001 with the commit id 5001: the first replay stores the
eight bytes of the commit id, the second one the deleted value with them. -/
theorem not_replayKeepsLog_oneDelete :
    IsBatch [oneWrite true] (oneBatch true) ∧
      ((replayInPlace (oneBatch true)).map fun (txns, _) => putsOf txns) =
        some [(10001, [1], encode 8 5001)] ∧
      ((replayInPlace (oneBatch true)).bind fun (_, buffer) =>
          (replayInPlace buffer).map fun (txns, _) => putsOf txns) =
        some [(10001, [1], [7, 7] ++ encode 8 5001)] ∧
      ¬ReplayKeepsLog (oneBatch true) := by
  have hbatch : IsBatch [oneWrite true] (oneBatch true) := ⟨by decide +kernel, _, rfl⟩
  have hchanged : (replayInPlace (oneBatch true)).map Prod.snd ≠ some (oneBatch true) := by
    decide +kernel
  refine ⟨hbatch, by decide +kernel, by decide +kernel, ?_⟩
  rintro ⟨⟨txns, hreplay⟩, -⟩
  rw [hreplay] at hchanged
  exact hchanged rfl

end Rolis.Sto
