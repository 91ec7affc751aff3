import Rolis.Sto.LogTheorems
import Rolis.Sto.MassTransTheorems

/-!
# Replaying the log

The second half of `getFileContentNew_OneLogOptimized_mbta_v2`: each key-value pair of the log is
put into its table by a transaction of its own, with the commit id behind the value, if the commit
id is larger than the one that is stored. The answer of the commit is not looked at.

A put that does not fit the element moves the element to a larger one first. The move invalidates
the element whose version the transaction has just read, so the commit fails, and the pair is lost;
the larger element stays. `Slot.put` says what this does to one key.
-/

namespace Rolis.Sto

open Bytes Function List Option Transaction TransItem Mem

/-! ## The replay loop -/

/-- `keystore_encode3_v2`: the last eight bytes become the commit id. -/
def keystoreEncode3V2 (s : Bytes) (x : ℕ) : Bytes := s.take (s.length - 8) ++ encode 8 x

/-- `keystore_decode3_v2`. -/
def keystoreDecode3V2 (s : Bytes) : ℕ := decode (s.drop (s.length - 8))

/-- `cmpFunc2_v2`. -/
def cmpFunc2V2 (newValue oldValue : Bytes) : Bool :=
  keystoreDecode3V2 oldValue < keystoreDecode3V2 newValue

/-- The text `"01234567"`. -/
def tombstone : Bytes := [48, 49, 50, 51, 52, 53, 54, 55]

/-- Step 6 of the loop: what is stored for a pair. -/
def KV.stored (kv : KV) (cid : ℕ) : Bytes :=
  keystoreEncode3V2 (if kv.deleteTrue then tombstone else kv.raw) cid

/-- Step 7 of the loop: the transaction is started again each time it throws. -/
def replayPut (m : Mem) (table : ℕ) (key value : Bytes) : ℕ → Option Mem
  | 0 => none
  | tries + 1 =>
    match Transaction.transPutMbta cmpFunc2V2 ⟨m, []⟩ table key value with
    | .ok t => t.tryCommit.map Prod.fst
    | .error t => t.abort.bind fun m => replayPut m table key value tries

/-- The loop over the pairs of one transaction. -/
def replayKVs (tries : ℕ) (m : Mem) (txn : ℕ × List KV) : Option Mem :=
  txn.2.foldlM (fun m kv => replayPut m kv.tableId kv.key (kv.stored txn.1) tries) m

/-- `treplay_in_same_thread_opt_mbta_v2` on one batch. -/
def replayBatch (tries : ℕ) (m : Mem) (buffer : Bytes) : Option Mem :=
  (parse buffer).bind fun (txns, _) => txns.foldlM (replayKVs tries) m

/-- Batches that are replayed one after another. -/
def replayBatches (tries : ℕ) (m : Mem) (buffers : List Bytes) : Option Mem :=
  buffers.foldlM (replayBatch tries) m

/-! ## One key -/

/-- What is kept under a key: the value and the room there is for the next one. -/
structure Slot where
  value : Bytes
  capacity : ℕ
deriving DecidableEq, Repr

namespace Slot

variable {s s' : Slot} {w : Bytes} {ws pre post : List Bytes}

/-- The replay of a put, as the key sees it. -/
def put (slot : Option Slot) (w : Bytes) : Option Slot :=
  match slot with
  | none => some ⟨w, capacityFor w.length⟩
  | some s =>
    if cmpFunc2V2 w s.value then
      if w.length ≤ s.capacity then some ⟨w, s.capacity⟩
      else some ⟨s.value, capacityFor w.length⟩
    else some s

/-- Puts one after another. -/
def puts (slot : Option Slot) (ws : List Bytes) : Option Slot := ws.foldl put slot

/-- A value with the largest commit id stays. -/
lemma puts_of_le (h : ∀ w ∈ ws, keystoreDecode3V2 w ≤ keystoreDecode3V2 s.value) :
    puts (some s) ws = some s := by
  induction ws with
  | nil => rfl
  | cons w ws ih =>
    have hw : cmpFunc2V2 w s.value = false := by
      rw [cmpFunc2V2, decide_eq_false (not_lt.mpr (h w mem_cons_self))]
    have hput : put (some s) w = some s := by simp only [put, hw, Bool.false_eq_true, if_false]
    rw [puts, foldl_cons, hput]
    exact ih fun w' hw' => h w' (mem_cons_of_mem w hw')

/-- The value is an old one or one of those put. -/
lemma value_of_puts {slot : Option Slot} (h : puts slot ws = some s) :
    (∃ s₀, slot = some s₀ ∧ s.value = s₀.value) ∨ s.value ∈ ws := by
  induction ws generalizing slot with
  | nil => exact .inl ⟨s, h, rfl⟩
  | cons w ws ih =>
    rcases ih h with ⟨s₁, hs₁, hval⟩ | hmem
    · cases slot with
      | none =>
        cases hs₁
        exact .inr (hval ▸ mem_cons_self)
      | some s₀ =>
        simp only [put] at hs₁
        split at hs₁
        · split at hs₁
          · cases hs₁
            exact .inr (hval ▸ mem_cons_self)
          · cases hs₁
            exact .inl ⟨s₀, rfl, hval⟩
        · cases hs₁
          exact .inl ⟨s₁, rfl, hval⟩
    · exact .inr (mem_cons_of_mem w hmem)

/-- Of puts to an empty key the one with the largest commit id survives, provided that it fits
when its turn comes. -/
lemma value_puts_iff (hpre : ∀ x ∈ pre, keystoreDecode3V2 x < keystoreDecode3V2 w)
    (hpost : ∀ x ∈ post, keystoreDecode3V2 x < keystoreDecode3V2 w) :
    (puts none (pre ++ w :: post)).map value = some w ↔
      ∀ s, puts none pre = some s → w.length ≤ s.capacity := by
  have hsplit : puts none (pre ++ w :: post) = puts (put (puts none pre) w) post := by
    rw [puts, foldl_append, foldl_cons]
    rfl
  have hkeep : ∀ c, puts (some ⟨w, c⟩) post = some ⟨w, c⟩ := fun c =>
    puts_of_le fun x hx => (hpost x hx).le
  rw [hsplit]
  -- what the puts before `w` have left decides whether `w` fits
  cases hs : puts none pre with
  | none => simp [put, hkeep]
  | some s =>
    have hold : s.value ∈ pre := by
      rcases value_of_puts hs with ⟨s₀, h, -⟩ | hmem
      · cases h
      · exact hmem
    have hcmp : cmpFunc2V2 w s.value = true := decide_eq_true (hpre _ hold)
    by_cases hfit : w.length ≤ s.capacity
    · simp [put, hcmp, hfit, hkeep]
    · -- the values that can survive have smaller commit ids
      have hput : put (some s) w = some ⟨s.value, capacityFor w.length⟩ := by
        simp only [put, hcmp, if_true, if_neg hfit]
      rw [hput]
      constructor
      · intro hval
        obtain ⟨s', hs', hw⟩ := map_eq_some_iff.mp hval
        have hlt : keystoreDecode3V2 s'.value < keystoreDecode3V2 w := by
          rcases value_of_puts hs' with ⟨s₀, h₀, hv⟩ | hmem
          · cases h₀
            rw [hv]
            exact hpre _ hold
          · exact hpost _ hmem
        rw [hw] at hlt
        exact absurd hlt (lt_irrefl _)
      · intro hall
        exact absurd (hall s rfl) hfit

end Slot

/-! ## One put -/

namespace Mem

variable {m m' : Mem} {table e : ℕ} {key : Bytes}

/-- What is kept under a key. -/
def slot (m : Mem) (table : ℕ) (key : Bytes) : Option Slot :=
  (m.find table key).map fun e => ⟨(m.heap e).value, (m.heap e).capacity⟩

lemma slot_of_find (h : m.find table key = some e) :
    m.slot table key = some ⟨(m.heap e).value, (m.heap e).capacity⟩ := by
  rw [slot, h]
  rfl

lemma slot_of_find_none (h : m.find table key = none) : m.slot table key = none := by
  rw [slot, h]
  rfl

lemma slot_congr (hfind : m'.find table key = m.find table key)
    (hheap : ∀ e, m.find table key = some e → m'.heap e = m.heap e) :
    m'.slot table key = m.slot table key := by
  rw [slot, slot, hfind]
  cases h : m.find table key with
  | none => rfl
  | some e => rw [map_some, map_some, hheap e h]

end Mem

/-- `m'` is `m` with `slot` kept under one key. -/
structure Changes (m m' : Mem) (table : ℕ) (key : Bytes) (slot : Option Slot) : Prop where
  quiet : m'.Quiet
  slot_self : m'.slot table key = slot
  slot_ne : ∀ table' key', ¬ (table' = table ∧ key' = key) →
    m'.slot table' key' = m.slot table' key'

/-- `m'` is `m` with the put `w` replayed under one key. -/
structure Replays (m m' : Mem) (table : ℕ) (key w : Bytes) : Prop where
  quiet : m'.Quiet
  slot_self : m'.slot table key = Slot.put (m.slot table key) w
  slot_ne : ∀ table' key', ¬ (table' = table ∧ key' = key) →
    m'.slot table' key' = m.slot table' key'

section

variable {m m' : Mem} {table e : ℕ} {key w : Bytes} {slot : Option Slot}

lemma Changes.replays (h : Changes m m' table key slot)
    (hslot : slot = Slot.put (m.slot table key) w) : Replays m m' table key w :=
  ⟨h.quiet, h.slot_self.trans hslot, h.slot_ne⟩

/-- The commit of an insert. -/
lemma changes_insert (h : m.Quiet) (table : ℕ) (key w : Bytes) :
    Changes m ((m.alloc table key (Elem.make w)).set m.next ((Elem.make w).setInvalid false))
      table key (some ⟨w, capacityFor w.length⟩) := by
  have hold : ∀ {table' key' e}, m.find table' key' = some e → e ≠ m.next := fun hf =>
    (h.lt_next hf).ne
  refine ⟨.mk ((h.toWellFormed.alloc _ _ _).set _ _) ?_, ?_, ?_⟩
  · intro table' key' e he
    by_cases hnext : e = m.next
    · rw [hnext, heap_set, update_self]
      rfl
    · rw [find_set, find_alloc] at he
      split at he
      · cases he
        exact absurd rfl hnext
      · rw [heap_set, update_of_ne hnext, heap_alloc, update_of_ne hnext]
        exact h.valid he
  · rw [slot_of_find (e := m.next), heap_set, update_self]
    · rfl
    · exact find_alloc_self _ _ _ _
  · intro table' key' hne
    refine slot_congr (find_alloc_of_ne hne) fun e he => ?_
    rw [heap_set, update_of_ne (hold he), heap_alloc, update_of_ne (hold he)]

/-- The commit of an update that fits. -/
lemma changes_update (h : m.Quiet) (hfind : m.find table key = some e) (w : Bytes) :
    Changes m (m.set e ((m.heap e).write w)) table key (some ⟨w, (m.heap e).capacity⟩) := by
  refine ⟨.mk (h.toWellFormed.set _ _) ?_, ?_, ?_⟩
  · intro table' key' e' he'
    by_cases hee : e' = e
    · rw [hee, heap_set, update_self]
      exact h.valid hfind
    · rw [heap_set, update_of_ne hee]
      exact h.valid he'
  · have hfind' : (m.set e ((m.heap e).write w)).find table key = some e := hfind
    rw [slot_of_find hfind', heap_set, update_self]
    rfl
  · intro table' key' hne
    refine slot_congr rfl fun e' he' => ?_
    have hee : e' ≠ e := fun heq => hne (h.inj hfind (heq ▸ he'))
    rw [heap_set, update_of_ne hee]

/-- A move to a larger element whose transaction then fails. -/
lemma changes_grow (h : m.Quiet) (hfind : m.find table key = some e) (w : Bytes) :
    Changes m ((m.set e ((m.heap e).setInvalid true)).alloc table key ((m.heap e).resize w))
      table key (some ⟨(m.heap e).value, capacityFor w.length⟩) := by
  have hold : ∀ {table' key' e'}, m.find table' key' = some e' →
      ¬ (table' = table ∧ key' = key) → e' ≠ m.next ∧ e' ≠ e := fun hf hne =>
    ⟨(h.lt_next hf).ne, fun heq => hne (h.inj hfind (heq ▸ hf))⟩
  refine ⟨.mk ((h.toWellFormed.set _ _).alloc _ _ _) ?_, ?_, ?_⟩
  · intro table' key' e' he'
    rw [find_alloc] at he'
    split at he'
    · cases he'
      rw [heap_alloc, update_self]
      exact h.valid hfind
    · next hne =>
      obtain ⟨hnext, hee⟩ := hold he' hne
      rw [heap_alloc, next_set, update_of_ne hnext, heap_set, update_of_ne hee]
      exact h.valid he'
  · rw [slot_of_find (find_alloc_self _ _ _ _), heap_alloc, update_self]
    rfl
  · intro table' key' hne
    refine slot_congr (find_alloc_of_ne hne) fun e' he' => ?_
    obtain ⟨hnext, hee⟩ := hold he' hne
    rw [heap_alloc, next_set, update_of_ne hnext, heap_set, update_of_ne hee]

/-! ## The transaction of one put -/

namespace Transaction

lemma handlePutFound_of_invalid (hvalid : (m.heap e).version.invalid = true) :
    handlePutFound true ⟨m, []⟩ table e key w =
      .error ⟨m, [⟨table, e, none, none, false, false, []⟩]⟩ := by
  simp [handlePutFound, item, validityCheck, hvalid, setItem]

lemma handlePutFound_of_fits (hvalid : (m.heap e).version.invalid = false)
    (hfit : (m.heap e).needsResize w = false) :
    handlePutFound true ⟨m, []⟩ table e key w =
      .ok ⟨m, [⟨table, e, some (m.heap e).version, some w, false, false, key⟩]⟩ := by
  simp [handlePutFound, item, validityCheck, hvalid, setItem, reallyHandlePutFound, observe, hfit]

lemma handlePutFound_of_needsResize (hvalid : (m.heap e).version.invalid = false)
    (hfit : (m.heap e).needsResize w = true) :
    handlePutFound true ⟨m, []⟩ table e key w =
      .ok ⟨(m.set e ((m.heap e).setInvalid true)).alloc table key ((m.heap e).resize w),
        [⟨table, e, some (m.heap e).version, none, false, false, []⟩,
          ⟨table, m.next, none, some w, false, false, key⟩]⟩ := by
  simp [handlePutFound, item, validityCheck, hvalid, setItem, reallyHandlePutFound, observe, hfit]

lemma tryCommit_insertNew (m : Mem) (table : ℕ) (key w extra : Bytes) :
    (insertNew ⟨m, []⟩ table key w extra).tryCommit.map Prod.fst =
      some ((m.alloc table key (Elem.make w)).set m.next ((Elem.make w).setInvalid false)) := by
  simp [insertNew, tryCommit, validate, installAll, writes, check, install]

lemma tryCommit_update (hvalid : (m.heap e).version.invalid = false)
    (hfit : (m.heap e).needsResize w = false) :
    (tryCommit ⟨m, [⟨table, e, some (m.heap e).version, some w, false, false, key⟩]⟩).map
      Prod.fst = some (m.set e ((m.heap e).write w)) := by
  simp [tryCommit, validate, installAll, writes, check, validityCheck, install, hvalid, hfit]

/-- The version that was read belongs to the element the move made invalid. -/
lemma tryCommit_grow (v : Version) (x : Elem) (hne : e ≠ m.next) :
    (tryCommit ⟨(m.set e ((m.heap e).setInvalid true)).alloc table key x,
      [⟨table, e, some v, none, false, false, []⟩,
        ⟨table, m.next, none, some w, false, false, key⟩]⟩).map Prod.fst =
      some ((m.set e ((m.heap e).setInvalid true)).alloc table key x) := by
  simp [tryCommit, validate, abort, writes, check, validityCheck, cleanup, Elem.setInvalid, hne]

end Transaction

/-- The first try of a put ends, and does to its key what `Slot.put` says. -/
lemma exists_replayPut (h : m.Quiet) (table : ℕ) (key w : Bytes) (tries : ℕ) :
    ∃ m', replayPut m table key w (tries + 1) = some m' ∧ Replays m m' table key w := by
  unfold replayPut transPutMbta
  cases hfind : m.find table key with
  | none =>
    refine ⟨_, tryCommit_insertNew m table key w [], (changes_insert h table key w).replays ?_⟩
    rw [slot_of_find_none hfind, Slot.put]
  | some e =>
    have hvalid := h.valid hfind
    cases hcmp : cmpFunc2V2 w (m.heap e).value with
    | false =>
      -- the transaction has no items, and its commit does nothing
      refine ⟨m, ?_, h, ?_, fun _ _ _ => rfl⟩
      · simp [hcmp, tryCommit, validate, installAll, writes]
      · rw [slot_of_find hfind]
        simp only [Slot.put, hcmp, Bool.false_eq_true, if_false]
    | true =>
      by_cases hfit : w.length ≤ (m.heap e).capacity
      · have hroom : (m.heap e).needsResize w = false := by simpa [Elem.needsResize] using hfit
        refine ⟨_, ?_, (changes_update h hfind w).replays ?_⟩
        · simp only [hcmp, if_true, handlePutFound_of_fits hvalid hroom]
          exact tryCommit_update hvalid hroom
        · simp only [slot_of_find hfind, Slot.put, hcmp, if_true, if_pos hfit]
      · have hroom : (m.heap e).needsResize w = true := by simpa [Elem.needsResize] using hfit
        refine ⟨_, ?_, (changes_grow h hfind w).replays ?_⟩
        · simp only [hcmp, if_true, handlePutFound_of_needsResize hvalid hroom]
          exact tryCommit_grow _ _ (h.lt_next hfind).ne
        · simp only [slot_of_find hfind, Slot.put, hcmp, if_true, if_neg hfit]

end

/-! ## All puts -/

/-- One write of the log with the commit id of its transaction. -/
structure Update where
  cid : ℕ
  entry : Entry
deriving DecidableEq, Repr

namespace Update

/-- What the replay stores: the value and behind it the commit id, or the commit id alone in the
place of the tombstone. -/
def data (u : Update) : Bytes :=
  (if u.entry.deleteTrue then [] else u.entry.value) ++ encode 8 u.cid

/-- Two writes to the same key. -/
def SameKey (u v : Update) : Prop :=
  u.entry.tableId = v.entry.tableId ∧ u.entry.key = v.entry.key

instance (u v : Update) : Decidable (SameKey u v) := inferInstanceAs (Decidable (_ ∧ _))

/-- `u` is about the key. -/
def At (u : Update) (table : ℕ) (key : Bytes) : Prop :=
  u.entry.tableId = table ∧ u.entry.key = key

instance (u : Update) (table : ℕ) (key : Bytes) : Decidable (u.At table key) :=
  inferInstanceAs (Decidable (_ ∧ _))

end Update

/-- The writes of one transaction that the reader found. -/
def updatesOf (txn : ℕ × List KV) : List Update := txn.2.map fun kv => ⟨txn.1, kv.entry⟩

/-- The writes of a list of batches, in the order of their replay. -/
def updates (buffers : List Bytes) : List Update :=
  buffers.flatMap fun b => (txns b).flatMap updatesOf

/-- Replay writes one after another. -/
def replayUpdates (tries : ℕ) (m : Mem) (us : List Update) : Option Mem :=
  us.foldlM (fun m u => replayPut m u.entry.tableId u.entry.key u.data tries) m

lemma KV.stored_eq (kv : KV) (cid : ℕ) : kv.stored cid = Update.data ⟨cid, kv.entry⟩ := by
  cases hdel : kv.deleteTrue <;>
    simp [KV.stored, keystoreEncode3V2, Update.data, KV.entry, hdel, tombstone]

lemma Update.decode_data {u : Update} (h : u.cid < 256 ^ 8) : keystoreDecode3V2 u.data = u.cid := by
  have hlen : ∀ v : Bytes, (v ++ encode 8 u.cid).length - 8 = v.length := fun v => by
    rw [length_append, length_encode, Nat.add_sub_cancel]
  rw [keystoreDecode3V2, Update.data, hlen, drop_left, decode_encode_of_lt h]

/-! ### The reader's commit ids -/

lemma readLogs_cid_lt {fuel : ℕ} {buffer rest : Bytes} {ws : List WrappedLog}
    (h : readLogs fuel buffer = some (ws, rest)) : ∀ w ∈ ws, w.cid < 256 ^ 8 := by
  induction fuel generalizing buffer ws with
  | zero =>
    unfold readLogs at h
    split at h
    · cases h
      exact forall_mem_nil _
    · cases h
  | succ fuel ih =>
    unfold readLogs at h
    split at h
    · cases h
      exact forall_mem_nil _
    · dsimp only at h
      split at h
      · cases h
      · next w hw =>
        obtain ⟨⟨ws', rest'⟩, hrest, heq⟩ := map_eq_some_iff.mp h
        cases heq
        intro w' hw'
        rcases mem_cons.mp hw' with rfl | hw'
        · simp only [readHeader, bind_eq_bind, bind_eq_some_iff] at hw
          obtain ⟨⟨cid, b₁⟩, hcid, ⟨count, b₂⟩, -, ⟨len, b₃⟩, -, heq⟩ := hw
          cases heq
          exact readNat_lt hcid
        · exact ih hrest w' hw'

lemma exists_of_mem_mapM {α β : Type*} {f : α → Option β} {as : List α} {bs : List β}
    (h : as.mapM f = some bs) {b : β} (hb : b ∈ bs) : ∃ a ∈ as, f a = some b := by
  induction as generalizing bs with
  | nil =>
    cases h
    cases hb
  | cons a as ih =>
    simp only [mapM_cons, bind_eq_bind, bind_eq_some_iff] at h
    obtain ⟨b', hb', bs', hbs', heq⟩ := h
    cases heq
    rcases mem_cons.mp hb with rfl | hb
    · exact ⟨a, mem_cons_self, hb'⟩
    · obtain ⟨a', ha', hfa⟩ := ih hbs' hb
      exact ⟨a', mem_cons_of_mem a ha', hfa⟩

lemma parse_cid_lt {buffer rest : Bytes} {ts : List (ℕ × List KV)}
    (h : parse buffer = some (ts, rest)) : ∀ txn ∈ ts, txn.1 < 256 ^ 8 := by
  unfold parse at h
  split at h
  · cases h
  · split at h
    · cases h
    · next ws rest' hlogs =>
      obtain ⟨ts', htxns, heq⟩ := map_eq_some_iff.mp h
      cases heq
      intro txn htxn
      obtain ⟨w, hw, hwt⟩ := exists_of_mem_mapM htxns htxn
      obtain ⟨⟨kvs, r⟩, -, heq⟩ := map_eq_some_iff.mp hwt
      cases heq
      exact readLogs_cid_lt hlogs w hw

/-- The reader accepts all batches. -/
def Readable (buffers : List Bytes) : Prop := ∀ b ∈ buffers, (parse b).isSome

instance (buffers : List Bytes) : Decidable (Readable buffers) :=
  inferInstanceAs (Decidable (∀ b ∈ buffers, _))

lemma updates_cid_lt (buffers : List Bytes) : ∀ u ∈ updates buffers, u.cid < 256 ^ 8 := by
  intro u hu
  simp only [updates, mem_flatMap] at hu
  obtain ⟨b, -, txn, htxn, hu⟩ := hu
  obtain ⟨kv, -, rfl⟩ := mem_map.mp hu
  unfold txns at htxn
  cases hb : parse b with
  | none =>
    rw [hb] at htxn
    cases htxn
  | some p =>
    rw [hb] at htxn
    exact parse_cid_lt hb txn htxn

lemma replayKVs_eq (tries : ℕ) (m : Mem) (txn : ℕ × List KV) :
    replayKVs tries m txn = replayUpdates tries m (updatesOf txn) := by
  unfold replayKVs replayUpdates updatesOf
  rw [foldlM_map]
  simp only [KV.stored_eq]
  rfl

lemma replayUpdates_append (tries : ℕ) (m : Mem) (us vs : List Update) :
    replayUpdates tries m (us ++ vs) =
      (replayUpdates tries m us).bind fun m => replayUpdates tries m vs :=
  foldlM_append

lemma foldlM_replayKVs (tries : ℕ) (m : Mem) (ts : List (ℕ × List KV)) :
    ts.foldlM (replayKVs tries) m = replayUpdates tries m (ts.flatMap updatesOf) := by
  induction ts generalizing m with
  | nil => rfl
  | cons txn ts ih =>
    rw [foldlM_cons, flatMap_cons, replayUpdates_append, replayKVs_eq]
    exact congrArg (bind _) (funext ih)

/-- The replay of batches is the replay of their writes. -/
lemma replayBatches_eq (tries : ℕ) (m : Mem) {buffers : List Bytes} (h : Readable buffers) :
    replayBatches tries m buffers = replayUpdates tries m (updates buffers) := by
  induction buffers generalizing m with
  | nil => rfl
  | cons b buffers ih =>
    have hb : replayBatch tries m b = replayUpdates tries m ((txns b).flatMap updatesOf) := by
      obtain ⟨p, hp⟩ := isSome_iff_exists.mp (h b mem_cons_self)
      rw [replayBatch, txns, hp]
      exact foldlM_replayKVs tries m p.1
    have hrest : ∀ m, replayBatches tries m buffers = replayUpdates tries m (updates buffers) :=
      fun m => ih m fun b' hb' => h b' (mem_cons_of_mem b hb')
    rw [replayBatches, foldlM_cons, hb, updates, flatMap_cons, replayUpdates_append]
    exact congrArg (bind _) (funext hrest)

/-- The values put under a key. -/
def dataAt (us : List Update) (table : ℕ) (key : Bytes) : List Bytes :=
  (us.filter fun u => u.At table key).map Update.data

/-- The replay of writes ends, and does to each key what `Slot.puts` says. -/
lemma exists_replayUpdates {m : Mem} (h : m.Quiet) (tries : ℕ) (us : List Update) :
    ∃ m', replayUpdates (tries + 1) m us = some m' ∧ m'.Quiet ∧
      ∀ table key, m'.slot table key = Slot.puts (m.slot table key) (dataAt us table key) := by
  induction us generalizing m with
  | nil => exact ⟨m, rfl, h, fun _ _ => rfl⟩
  | cons u us ih =>
    obtain ⟨m₁, hput, hr⟩ := exists_replayPut h u.entry.tableId u.entry.key u.data tries
    obtain ⟨m', hrest, hquiet, hslot⟩ := ih hr.quiet
    refine ⟨m', ?_, hquiet, fun table key => ?_⟩
    · rw [replayUpdates, foldlM_cons, hput]
      exact hrest
    · rw [hslot]
      by_cases hat : u.At table key
      · obtain ⟨rfl, rfl⟩ := hat
        have hmem : dataAt (u :: us) u.entry.tableId u.entry.key =
            u.data :: dataAt us u.entry.tableId u.entry.key := by
          rw [dataAt, filter_cons_of_pos (by simp [Update.At])]
          rfl
        rw [hmem, hr.slot_self]
        rfl
      · have hmem : dataAt (u :: us) table key = dataAt us table key := by
          rw [dataAt, filter_cons_of_neg (by simpa using hat)]
          rfl
        rw [hmem, hr.slot_ne table key fun heq => hat ⟨heq.1.symm, heq.2.symm⟩]

end Rolis.Sto
