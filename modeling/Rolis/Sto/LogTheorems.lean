import Rolis.Sto.MassTrans

/-!
# The log round trip

Each level of the format is read back by the reader of that level, and the reader stops where the
writer did. The value of a pair is copied with eight bytes more, so a pair needs at least six
bytes behind it; the trailer of the batch supplies them for the last pair of the last transaction.

The key of an insert is copied from `write_value`, with the length of `extra`. A put to a key that
the same transaction has inserted leaves its value there, so what the log says is given by
`WriteItem.logged`, and what the transaction did by `WriteItem.entry`.
-/

namespace Rolis.Sto

open Bytes List Option WriteItem

/-! ## What is logged -/

/-- One write, as both sides understand it. -/
structure Entry where
  key : Bytes
  value : Bytes
  tableId : ℕ
  deleteTrue : Bool
deriving DecidableEq, Repr

/-- The write that a pair read from a buffer stands for. -/
def KV.entry (kv : KV) : Entry :=
  ⟨kv.key, kv.raw.take (kv.raw.length - 8), kv.tableId, kv.deleteTrue⟩

/-- The items that tables of `MassTrans` leave in a transaction: the key is in `extra`, and tables
have identities from 10000 to 20000. -/
@[mk_iff]
structure WriteItem.WellFormed (it : WriteItem) : Prop where
  key_ne : it.extra ≠ []
  key_lt : it.extra.length < 2 ^ 16
  value_lt : it.value.length < 2 ^ 16
  identity_ge : 10000 ≤ it.identity
  identity_le : it.identity ≤ 20000

instance (it : WriteItem) : Decidable it.WellFormed :=
  decidable_of_iff' _ (WriteItem.wellFormed_iff it)

/-- The write an item makes. -/
def WriteItem.entry (it : WriteItem) : Entry :=
  ⟨it.extra, it.value, it.identity, it.hasDeleteOp⟩

/-- The key in the log of an item. -/
def WriteItem.loggedKey (it : WriteItem) : Bytes := it.kkx.take it.extra.length

/-- The write that the log of an item stands for. -/
def WriteItem.logged (it : WriteItem) : Entry :=
  ⟨it.loggedKey, it.value, it.identity, it.hasDeleteOp⟩

/-- A transaction with a non-empty write set. A transaction holds at most `tset_max_capacity`
items. -/
structure Txn extends Commit where
  items_ne : items ≠ []
  items_le : items.length ≤ 32768
  wellFormed : ∀ it ∈ items, it.WellFormed

/-- The commit id and the writes of a transaction. -/
def Txn.content (t : Txn) : ℕ × List Entry := (t.cid, t.items.map WriteItem.entry)

/-- The commit id and the writes in the log of a transaction. -/
def Txn.logged (t : Txn) : ℕ × List Entry := (t.cid, t.items.map WriteItem.logged)

/-- The commit id and the writes of a transaction the reader found. -/
def contentOf (txn : ℕ × List KV) : ℕ × List Entry := (txn.1, txn.2.map KV.entry)

/-! ## One pair -/

lemma or_two_pow_fifteen {n : ℕ} (h : n < 2 ^ 15) : n ||| 2 ^ 15 = 2 ^ 15 + n := by
  rw [Nat.lor_comm]
  exact (Nat.two_pow_add_eq_or_of_lt h 1).symm

namespace WriteItem

variable {it : WriteItem}

/-- The bytes of a well-formed item. -/
def encoding (it : WriteItem) : Bytes :=
  encode 2 it.loggedKey.length ++ (it.loggedKey ++ (encode 2 it.value.length ++
    (it.value ++ encode 2 it.tableId)))

section

variable (h : it.WellFormed)

include h

lemma WellFormed.loggedKey_lt : it.loggedKey.length < 256 ^ 2 := by
  have hlt := h.key_lt
  rw [loggedKey, length_take]
  omega

lemma WellFormed.serialize {bytes : Bytes} (hser : it.serialize = some bytes) :
    bytes = it.encoding := by
  have hk : it.extra.length % 2 ^ 16 = it.extra.length := Nat.mod_eq_of_lt h.key_lt
  have hv : it.value.length % 2 ^ 16 = it.value.length := Nat.mod_eq_of_lt h.value_lt
  simp only [WriteItem.serialize, hk, hv] at hser
  split at hser
  · cases hser
  · next hlen =>
    have hfull : it.loggedKey.length = it.extra.length := by
      rw [loggedKey, length_take]
      omega
    cases hser
    rw [encoding, hfull]
    simp only [loggedKey, take_length, append_assoc]

/-- Identities leave bit 15 to the delete flag. -/
lemma WellFormed.identity_lt : it.identity < 2 ^ 15 :=
  lt_of_le_of_lt h.identity_le (by norm_num)

lemma WellFormed.tableId_eq :
    it.tableId = if it.hasDeleteOp then 2 ^ 15 + it.identity else it.identity := by
  have hid := h.identity_le
  unfold tableId
  rw [Nat.mod_eq_of_lt (by omega), or_two_pow_fifteen (by omega)]

lemma WellFormed.tableId_lt : it.tableId < 256 ^ 2 := by
  have hid := h.identity_le
  rw [h.tableId_eq]
  split <;> omega

/-- Bit 15 of the table id is the delete flag. -/
lemma WellFormed.testBit_tableId : it.tableId.testBit 15 = it.hasDeleteOp := by
  have hid := h.identity_lt
  have hlow : it.identity.testBit 15 = false := Nat.testBit_lt_two_pow hid
  rw [h.tableId_eq]
  split
  · next hd => rw [Nat.testBit_two_pow_add_eq, hlow, hd]; rfl
  · next hd => rw [hlow]; simpa using hd

/-- Clearing the flag gives the identity of the table back. -/
lemma WellFormed.tableId_clear :
    (if it.hasDeleteOp then it.tableId ^^^ 2 ^ 15 else it.tableId) = it.identity := by
  have hid := h.identity_lt
  have hmod : it.identity % 2 ^ 16 = it.identity := Nat.mod_eq_of_lt (by omega)
  unfold tableId
  rw [hmod]
  split
  · apply Nat.eq_of_testBit_eq
    intro i
    rw [Nat.testBit_xor, Nat.testBit_or]
    by_cases hi : i = 15
    · rw [hi, Nat.testBit_lt_two_pow hid]; rfl
    · rw [Nat.testBit_two_pow_of_ne (Ne.symm hi)]; simp
  · rfl

end

end WriteItem

lemma readKV_encoding {it : WriteItem} (h : it.WellFormed) (rest : Bytes)
    (hrest : 6 ≤ rest.length) :
    ∃ kv, readKV (it.encoding ++ rest) = some (kv, rest) ∧ kv.entry = it.logged := by
  -- the eight bytes behind the value are the table id and six more
  let tail := encode 2 it.tableId ++ rest
  have hlen : (tail.take 8).length = 8 := by
    rw [length_take, length_append, length_encode]
    omega
  have hraw : read (it.value.length + 8) (it.value ++ tail) =
      some (it.value ++ tail.take 8, tail.drop 8) := by
    have hsplit := read_append (it.value ++ tail.take 8) (tail.drop 8)
    rwa [append_assoc, take_append_drop, length_append, hlen] at hsplit
  have hrange : ¬(it.identity = 0 ∨ 20000 < it.identity ∨ it.identity < 10000) := by
    have hge := h.identity_ge
    have hle := h.identity_le
    omega
  refine ⟨⟨it.loggedKey, it.value ++ tail.take 8, it.identity, it.hasDeleteOp⟩, ?_, ?_⟩
  · simp only [readKV, encoding, append_assoc, readNat_encode h.loggedKey_lt,
      bind_eq_bind, bind_some, read_append, readNat_encode (w := 2) h.value_lt]
    change (read (it.value.length + 8) (it.value ++ tail)).bind _ = _
    rw [hraw]
    simp only [bind_some, drop_left, tail, readNat_encode h.tableId_lt,
      h.testBit_tableId, h.tableId_clear, if_neg hrange]
  · have hdrop : (it.value ++ tail.take 8).length - 8 = it.value.length := by
      rw [length_append, hlen, Nat.add_sub_cancel]
    rw [KV.entry, logged]
    simp only [hdrop, take_left]

/-! ## One transaction -/

lemma serializeItems_eq {items : List WriteItem} (h : ∀ it ∈ items, it.WellFormed)
    {bytes : Bytes} (hser : serializeItems items = some bytes) :
    bytes = items.flatMap encoding := by
  induction items generalizing bytes with
  | nil =>
    cases hser
    rfl
  | cons it items ih =>
    rw [serializeItems] at hser
    split at hser
    · cases hser
    · next kv hkv =>
      obtain ⟨rest, hrest, rfl⟩ := map_eq_some_iff.mp hser
      rw [(h it mem_cons_self).serialize hkv,
        ih (fun y hy => h y (mem_cons_of_mem it hy)) hrest, flatMap_cons]

namespace Txn

variable {t : Txn} {rest : Bytes}

/-- The key-value pairs of a transaction. -/
def kvs (t : Txn) : Bytes := t.items.flatMap WriteItem.encoding

/-- The bytes of a transaction. -/
def encoding (t : Txn) : Bytes :=
  encode 8 t.cid ++ (encode 2 t.items.length ++ (encode 4 t.kvs.length ++ t.kvs))

lemma serializeTxn_eq (t : Txn) {bytes : Bytes} (h : serializeTxn t.cid t.items = some bytes) :
    bytes = t.encoding := by
  obtain ⟨kvs, hkvs, rfl⟩ := map_eq_some_iff.mp h
  obtain rfl := serializeItems_eq t.wellFormed hkvs
  simp only [encoding, Txn.kvs, append_assoc]

lemma length_encoding (t : Txn) : t.encoding.length = 14 + t.kvs.length := by
  simp only [encoding, length_append, length_encode]
  omega

/-- The wrapped log that the reader makes of a transaction. -/
def wrapped (t : Txn) (rest : Bytes) : WrappedLog :=
  ⟨t.cid, t.items.length, t.kvs.length, t.kvs ++ rest⟩

lemma readHeader_encoding (hlen : t.kvs.length < 256 ^ 4) :
    readHeader (t.encoding ++ rest) = some (t.wrapped rest) := by
  have hcount : t.items.length < 256 ^ 2 := lt_of_le_of_lt t.items_le (by norm_num)
  simp only [readHeader, encoding, append_assoc, readNat_encode t.cid_lt,
    readNat_encode hcount, readNat_encode hlen, bind_eq_bind, bind_some, wrapped]

lemma txn_wrapped (hrest : 6 ≤ rest.length) :
    ∃ txn, (t.wrapped rest).txn = some txn ∧ contentOf txn = t.logged := by
  obtain ⟨kvs, hread, hkvs⟩ := readN_flatMap (f := WriteItem.logged) (g := KV.entry)
    (fun it hit => readKV_encoding (t.wellFormed it hit)) hrest
  refine ⟨(t.cid, kvs), ?_, ?_⟩
  · simp only [WrappedLog.txn, wrapped, Txn.kvs, hread, map_some]
  · rw [contentOf, logged, hkvs]

end Txn

/-! ## One batch -/

/-- The wrapped logs that the reader makes of the transactions of a batch. -/
def wrappedLogs (trailer : Bytes) : List Txn → List WrappedLog
  | [] => []
  | t :: ts => t.wrapped (ts.flatMap Txn.encoding ++ trailer) :: wrappedLogs trailer ts

/-- The reader's loop goes through the transactions of a batch and stops at its trailer. -/
lemma readLogs_encoding {ts : List Txn} {trailer : Bytes} (htrailer : trailer.length = 8)
    (hfit : ∀ t ∈ ts, t.kvs.length < 256 ^ 4) {fuel : ℕ} (hfuel : ts.length ≤ fuel) :
    readLogs fuel (ts.flatMap Txn.encoding ++ trailer) =
      some (wrappedLogs trailer ts, trailer) := by
  induction ts generalizing fuel with
  | nil =>
    unfold readLogs
    rw [flatMap_nil, nil_append, if_pos htrailer.le, wrappedLogs]
  | cons t ts ih =>
    obtain ⟨fuel, rfl⟩ : ∃ f, fuel = f + 1 := Nat.exists_eq_succ_of_ne_zero (by
      rw [length_cons] at hfuel
      omega)
    have hlogs := ih (fun u hu => hfit u (mem_cons_of_mem t hu)) (Nat.le_of_succ_le_succ hfuel)
    have hmore : ¬(t.encoding ++ (ts.flatMap Txn.encoding ++ trailer)).length ≤ 8 := by
      rw [length_append, t.length_encoding]
      omega
    rw [flatMap_cons, append_assoc, readLogs, if_neg hmore]
    simp only [Txn.readHeader_encoding (hfit t mem_cons_self)]
    simp only [Txn.wrapped, drop_left, hlogs, map_some, wrappedLogs]

lemma mapM_wrappedLogs (ts : List Txn) {trailer : Bytes} (htrailer : trailer.length = 8) :
    ∃ txns, (wrappedLogs trailer ts).mapM WrappedLog.txn = some txns ∧
      txns.map contentOf = ts.map Txn.logged := by
  induction ts with
  | nil => exact ⟨[], rfl, rfl⟩
  | cons t ts ih =>
    obtain ⟨txns, htxns, hmap⟩ := ih
    -- the copy of the last value of `t` runs into what follows
    have hrest : 6 ≤ (ts.flatMap Txn.encoding ++ trailer).length := by
      rw [length_append, htrailer]
      omega
    obtain ⟨txn, htxn, hcontent⟩ := t.txn_wrapped hrest
    refine ⟨txn :: txns, ?_, by rw [map_cons, map_cons, hcontent, hmap]⟩
    rw [wrappedLogs, mapM_cons, htxn, htxns]
    rfl

/-- `batch` is what is submitted for the transactions `ts`, with some commit id as trailer. -/
structure IsBatch (ts : List Txn) (batch : Bytes) : Prop where
  fits : (ts.flatMap Txn.encoding).length ≤ maxArraySizeInBytes
  eq : ∃ cid, batch = ts.flatMap Txn.encoding ++ encode 8 cid

/-- The reader finds in `batch` what `view` says of the transactions `ts` and nothing else, and its
parse ends at the trailer, the last eight bytes. -/
def ParsesTo (view : Txn → ℕ × List Entry) (ts : List Txn) (batch : Bytes) : Prop :=
  8 ≤ batch.length ∧ ∃ txns, parse batch = some (txns, batch.drop (batch.length - 8)) ∧
    txns.map contentOf = ts.map view

lemma length_le_flatMap_encoding (ts : List Txn) :
    ts.length ≤ (ts.flatMap Txn.encoding).length := by
  induction ts with
  | nil => exact Nat.zero_le _
  | cons t ts ih =>
    rw [flatMap_cons, length_append, t.length_encoding, length_cons]
    omega

/-- A transaction of a batch that fits the array is not longer than the array. -/
lemma kvs_length_lt {ts : List Txn}
    (hfit : (ts.flatMap Txn.encoding).length ≤ maxArraySizeInBytes) :
    ∀ t ∈ ts, t.kvs.length < 256 ^ 4 := by
  intro t ht
  have hsub : t.encoding.length ≤ (ts.flatMap Txn.encoding).length :=
    (sublist_flatten_of_mem (mem_map_of_mem ht)).length_le
  have hmax : maxArraySizeInBytes < 256 ^ 4 := by decide
  rw [t.length_encoding] at hsub
  omega

lemma IsBatch.parsesTo {ts : List Txn} {batch : Bytes} (h : IsBatch ts batch) :
    ParsesTo Txn.logged ts batch := by
  obtain ⟨cid, rfl⟩ := h.eq
  have htrailer : (encode 8 cid).length = 8 := length_encode 8 cid
  have hlen : (ts.flatMap Txn.encoding ++ encode 8 cid).length =
      (ts.flatMap Txn.encoding).length + 8 := by
    rw [length_append, htrailer]
  have hfuel : ts.length ≤ (ts.flatMap Txn.encoding ++ encode 8 cid).length := by
    have hle := length_le_flatMap_encoding ts
    omega
  have hlogs := readLogs_encoding htrailer (kvs_length_lt h.fits) hfuel
  obtain ⟨txns, htxns, hmap⟩ := mapM_wrappedLogs ts htrailer
  refine ⟨by omega, txns, ?_, hmap⟩
  have hdrop : (ts.flatMap Txn.encoding ++ encode 8 cid).drop
      ((ts.flatMap Txn.encoding ++ encode 8 cid).length - 8) = encode 8 cid := by
    rw [hlen, Nat.add_sub_cancel, drop_left]
  rw [hdrop, parse, if_neg (by omega)]
  simp only [hlogs, htxns, map_some]

/-! ## All batches of a thread -/

namespace StringAllocator

variable {k : ℕ} {inst inst' : StringAllocator} {pending : List Txn}

/-- The allocator holds the transactions `pending`. -/
def Holds (inst : StringAllocator) (pending : List Txn) : Prop :=
  inst.log = pending.flatMap Txn.encoding

lemma holds_nil : Holds {} [] := rfl

/-- A commit joins the transactions held, or submits them all. -/
lemma Holds.serializeUtil (h : inst.Holds pending) {t : Txn} {batch : Option Bytes}
    (hser : inst.serializeUtil k t.toCommit = some (inst', batch)) :
    (batch = none ∧ inst'.Holds (pending ++ [t])) ∨
      (∃ b, batch = some b ∧ IsBatch (pending ++ [t]) b ∧ inst'.Holds []) := by
  have hlog : inst.log ++ t.encoding = (pending ++ [t]).flatMap Txn.encoding := by
    rw [h, flatMap_append, flatMap_singleton]
  unfold StringAllocator.serializeUtil at hser
  rw [if_neg t.items_ne] at hser
  split at hser
  · cases hser
  · next bytes hbytes =>
    obtain rfl := t.serializeTxn_eq hbytes
    simp only [hlog] at hser
    split at hser
    · split at hser
      · next hfit =>
        cases hser
        exact .inr ⟨_, rfl, ⟨hfit, _, rfl⟩, holds_nil⟩
      · cases hser
    · cases hser
      exact .inl ⟨rfl, rfl⟩

lemma Holds.run (h : inst.Holds pending) {ts : List Txn} {batches : List Bytes}
    (hrun : inst.run k (ts.map Txn.toCommit) = some (inst', batches)) :
    ∃ chunks pending', pending ++ ts = chunks.flatten ++ pending' ∧
      List.Forall₂ IsBatch chunks batches ∧ inst'.Holds pending' := by
  induction ts generalizing inst pending batches with
  | nil =>
    cases hrun
    exact ⟨[], pending, append_nil pending, .nil, h⟩
  | cons t ts ih =>
    rw [map_cons, StringAllocator.run] at hrun
    split at hrun
    · cases hrun
    · next inst₁ batch hser =>
      obtain ⟨⟨inst₂, batches'⟩, hrest, heq⟩ := map_eq_some_iff.mp hrun
      cases heq
      -- `t` joins the transactions held, or ends a batch
      rcases h.serializeUtil hser with ⟨rfl, h₁⟩ | ⟨b, rfl, hb, h₁⟩
      · obtain ⟨chunks, pending', hts, hbs, h'⟩ := ih h₁ hrest
        exact ⟨chunks, pending', by rw [← hts, append_assoc]; rfl, hbs, h'⟩
      · obtain ⟨chunks, pending', hts, hbs, h'⟩ := ih h₁ hrest
        refine ⟨(pending ++ [t]) :: chunks, pending', ?_, .cons hb hbs, h'⟩
        rw [flatten_cons, append_assoc, ← hts, append_assoc]
        rfl

/-- The destructor submits what is held, if anything is. -/
lemma Holds.destroy (h : inst.Holds pending) {batch : Option Bytes}
    (hdes : inst.destroy = some batch) :
    (batch = none ∧ pending = []) ∨ ∃ b, batch = some b ∧ IsBatch pending b := by
  unfold StringAllocator.destroy at hdes
  split at hdes
  · cases hdes
  · next hfit =>
    split at hdes
    · next hnil =>
      cases hdes
      have hlen := length_le_flatMap_encoding pending
      rw [← h, hnil] at hlen
      exact .inl ⟨rfl, length_eq_zero_iff.mp (Nat.le_zero.mp hlen)⟩
    · split at hdes
      · cases hdes
      · cases hdes
        exact .inr ⟨_, rfl, by rw [← h]; omega, _, by rw [h]⟩

end StringAllocator

/-- The batches of a thread hold its transactions in order. -/
lemma isBatch_of_submitted {k : ℕ} {ts : List Txn} {batches : List Bytes}
    (h : submitted k (ts.map Txn.toCommit) = some batches) :
    ∃ chunks, chunks.flatten = ts ∧ List.Forall₂ IsBatch chunks batches := by
  unfold submitted at h
  split at h
  · cases h
  · next inst bs hrun =>
    obtain ⟨batch, hdes, rfl⟩ := map_eq_some_iff.mp h
    obtain ⟨chunks, pending, hts, hbs, hinst⟩ := StringAllocator.holds_nil.run hrun
    rcases hinst.destroy hdes with ⟨rfl, rfl⟩ | ⟨b, rfl, hb⟩
    · refine ⟨chunks, ?_, by simpa using hbs⟩
      rw [nil_append, append_nil] at hts
      exact hts.symm
    · refine ⟨chunks ++ [pending], ?_, rel_append hbs (.cons hb .nil)⟩
      rw [flatten_append, flatten_singleton, ← hts, nil_append]

/-- What the reader finds in a list of batches. -/
def decoded (batches : List Bytes) : List (ℕ × List Entry) :=
  batches.flatMap fun b => (txns b).map contentOf

lemma decoded_of_parsesTo {view : Txn → ℕ × List Entry} {chunks : List (List Txn)}
    {batches : List Bytes} (h : List.Forall₂ (ParsesTo view) chunks batches) :
    decoded batches = chunks.flatten.map view := by
  induction h with
  | nil => rfl
  | @cons ts b chunks batches hb _ ih =>
    obtain ⟨-, txns', hparse, hmap⟩ := hb
    have htxns : txns b = txns' := by
      rw [txns, hparse]
      rfl
    unfold decoded at ih ⊢
    rw [flatMap_cons, ih, htxns, hmap, flatten_cons, map_append]

lemma parsesTo_congr {view view' : Txn → ℕ × List Entry} {chunks : List (List Txn)}
    {batches : List Bytes} (h : List.Forall₂ (ParsesTo view) chunks batches)
    (heq : ∀ t ∈ chunks.flatten, view t = view' t) :
    List.Forall₂ (ParsesTo view') chunks batches := by
  induction h with
  | nil => exact .nil
  | @cons ts b chunks batches hb _ ih =>
    rw [flatten_cons] at heq
    obtain ⟨hlen, txns', hparse, hmap⟩ := hb
    refine .cons ⟨hlen, txns', hparse, hmap.trans ?_⟩ (ih fun t ht => heq t (mem_append_right _ ht))
    exact map_congr_left fun t ht => heq t (mem_append_left _ ht)

/-- Whatever the transactions are, the batches of a thread hold what `Txn.logged` says. -/
lemma parsesTo_logged {k : ℕ} {ts : List Txn} {batches : List Bytes}
    (h : submitted k (ts.map Txn.toCommit) = some batches) :
    ∃ chunks, chunks.flatten = ts ∧ List.Forall₂ (ParsesTo Txn.logged) chunks batches := by
  obtain ⟨chunks, hts, hbs⟩ := isBatch_of_submitted h
  exact ⟨chunks, hts, hbs.imp fun _ _ hb => hb.parsesTo⟩

lemma decoded_submitted {k : ℕ} {ts : List Txn} {batches : List Bytes}
    (h : submitted k (ts.map Txn.toCommit) = some batches) :
    decoded batches = ts.map Txn.logged := by
  obtain ⟨chunks, rfl, hbs⟩ := parsesTo_logged h
  exact decoded_of_parsesTo hbs

/-- The log of an insert holds the key if `write_value` begins with it. -/
lemma WriteItem.logged_eq_entry_iff {it : WriteItem} :
    it.logged = it.entry ↔ (it.hasInsertOp → it.writeValue.take it.extra.length = it.extra) := by
  have hkey : it.logged = it.entry ↔ it.loggedKey = it.extra := by
    simp [logged, entry]
  rw [hkey, loggedKey, kkx]
  split
  · next hins => simp [hins]
  · next hins => simp [hins]

/-- The log round trip: the batches that a thread submits, with any batch size, hold its
transactions in order, and the reader gets from each batch exactly its transactions, with their
commit ids, keys, values, table ids and delete flags, and stops at the trailer, if and only if
`write_value` of every insert begins with the key. -/
theorem parse_submitted_iff (kSizeLimit : ℕ) (ts : List Txn) (batches : List Bytes)
    (h : submitted kSizeLimit (ts.map Txn.toCommit) = some batches) :
    (∃ chunks : List (List Txn), chunks.flatten = ts ∧
        List.Forall₂ (ParsesTo Txn.content) chunks batches) ↔
      ∀ t ∈ ts, ∀ it ∈ t.items, it.hasInsertOp → it.writeValue.take it.extra.length = it.extra := by
  constructor
  · rintro ⟨chunks, rfl, hbs⟩ t ht it hit
    -- the reader finds one thing, so what was done and what was logged are the same
    have hviews := (decoded_of_parsesTo hbs).symm.trans (decoded_submitted h)
    have hcontent : t.content = t.logged := List.map_inj_left.mp hviews t ht
    have hentry := List.map_inj_left.mp (Prod.mk.inj hcontent).2 it hit
    exact WriteItem.logged_eq_entry_iff.mp hentry.symm
  · intro hkeys
    obtain ⟨chunks, rfl, hbs⟩ := parsesTo_logged h
    refine ⟨chunks, rfl, ?_⟩
    refine parsesTo_congr hbs fun t ht => ?_
    have hitems : t.items.map WriteItem.logged = t.items.map WriteItem.entry :=
      List.map_congr_left fun it hit => WriteItem.logged_eq_entry_iff.mpr (hkeys t ht it hit)
    rw [Txn.logged, Txn.content, hitems]

/-- The insert of a key, and in a second transaction its delete. -/
def insertThenDelete : List Txn :=
  [{ tid := 7, epoch := 1, items := [⟨true, false, [1], [1], [7, 8], 10001⟩]
     items_ne := by decide, items_le := by decide, wellFormed := by decide },
   { tid := 9, epoch := 1, items := [⟨false, true, [], [1], [7, 8], 10001⟩]
     items_ne := by decide, items_le := by decide, wellFormed := by decide }]

theorem parse_submitted_iff_insertThenDelete :
    ∃ batches, submitted 2 (insertThenDelete.map Txn.toCommit) = some batches ∧
      batches.length = 1 ∧
      ∃ chunks, chunks.flatten = insertThenDelete ∧
        List.Forall₂ (ParsesTo Txn.content) chunks batches :=
  ⟨_, rfl, rfl, (parse_submitted_iff 2 insertThenDelete _ rfl).mpr (by decide +kernel)⟩

/-- The transaction that inserts the value `[7, 8]` under the key `[1, 2]` and then puts `[9, 9]`
there. -/
def insertThenPut : Except Transaction Transaction :=
  (Transaction.transInsert {} 10001 [1, 2] [7, 8]).bind fun t => t.transPut 10001 [1, 2] [9, 9]

/-- What `serialize_util` gets of it: the put has left its value in the place of the key. -/
def insertThenPutTxn : Txn where
  tid := 7
  epoch := 1
  items := [⟨true, false, [9, 9], [1, 2], [7, 8], 10001⟩]
  items_ne := by decide
  items_le := by decide
  wellFormed := by decide

/-- The transaction commits, and the reader finds in its log a write to the key `[9, 9]`. -/
theorem not_parse_submitted_insertThenPut :
    (insertThenPut.toOption.bind Transaction.tryCommit).map Prod.snd =
        some (some insertThenPutTxn.items) ∧
      ∃ batches, submitted 1 [insertThenPutTxn.toCommit] = some batches ∧
        ¬ ∃ chunks : List (List Txn), chunks.flatten = [insertThenPutTxn] ∧
          List.Forall₂ (ParsesTo Txn.content) chunks batches := by
  refine ⟨by decide +kernel, _, rfl, ?_⟩
  rintro ⟨chunks, hts, hbs⟩
  have hdecoded := decoded_of_parsesTo hbs
  rw [hts] at hdecoded
  revert hdecoded
  decide +kernel

end Rolis.Sto
