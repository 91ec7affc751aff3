import Mathlib.Algebra.Order.BigOperators.Group.List
import Rolis.Sto.Batching

/-!
# Sizes in the log

The length of a key and of a value go into 16 bits, the number of pairs into 16 bits, their total
length into 32 bits, and the batch into a buffer of fixed size. Of all these `serialize_util` checks
only the position in front of the trailer, and only when it submits, after the copies. A
transaction has at most 32768 items, so its count fits; a key or a value of `2 ^ 16` bytes does not,
and a batch does not if the sizes of its transactions add up to more than the buffer.
-/

namespace Rolis.Sto

open Bytes List Option WriteItem

variable {k : ℕ} {cs pending g : List Commit} {c : Commit} {it : WriteItem}
  {items : List WriteItem} {bytes : Bytes}

/-! ## Fields -/

/-- The length fields of pairs, found with the true lengths of keys and values, are these. -/
def ItemsExact : List WriteItem → Bytes → Prop
  | [], _ => True
  | it :: items, kvs =>
    decode (kvs.take 2) = it.extra.length ∧
      decode ((kvs.drop (2 + it.extra.length)).take 2) = it.value.length ∧
      ItemsExact items (kvs.drop (6 + it.extra.length + it.value.length))

/-- The count and the lengths in the bytes of a transaction are the true ones. -/
structure FieldsExact (items : List WriteItem) (txn : Bytes) : Prop where
  count : decode ((txn.drop 8).take 2) = items.length
  len : decode ((txn.drop 10).take 4) = (txn.drop 14).length
  pairs : ItemsExact items (txn.drop 14)

/-- The lengths of the key and the value fit their fields. -/
def WriteItem.Short (it : WriteItem) : Prop := it.extra.length < 2 ^ 16 ∧ it.value.length < 2 ^ 16

instance (it : WriteItem) : Decidable it.Short :=
  inferInstanceAs (Decidable (it.extra.length < 2 ^ 16 ∧ it.value.length < 2 ^ 16))

/-- The bytes that are written for an item. -/
def WriteItem.written (it : WriteItem) : ℕ :=
  6 + it.extra.length % 2 ^ 16 + it.value.length % 2 ^ 16

/-- The bytes that an item needs. -/
def WriteItem.size (it : WriteItem) : ℕ := 6 + it.extra.length + it.value.length

lemma WriteItem.Short.written_eq (h : it.Short) : it.written = it.size := by
  rw [written, size, Nat.mod_eq_of_lt h.1, Nat.mod_eq_of_lt h.2]

/-- What `serialize` leaves: the two length fields with the copies behind them. -/
lemma exists_serialize (h : it.serialize = some bytes) :
    ∃ key value, key.length = it.extra.length % 2 ^ 16 ∧ value.length = it.value.length % 2 ^ 16 ∧
      bytes = encode 2 it.extra.length ++ (key ++ (encode 2 it.value.length ++
        (value ++ encode 2 it.tableId))) := by
  have hmod (n : ℕ) : encode 2 (n % 2 ^ 16) = encode 2 n :=
    encode_eq_encode_iff.mpr (Nat.mod_mod _ _)
  unfold serialize at h
  dsimp only at h
  split at h
  · cases h
  · next hlen =>
    cases h
    refine ⟨it.kkx.take (it.extra.length % 2 ^ 16), it.value.take (it.value.length % 2 ^ 16),
      ?_, ?_, ?_⟩
    · rw [length_take]
      omega
    · rw [length_take]
      exact min_eq_left (Nat.mod_le _ _)
    · rw [hmod, hmod]
      simp only [append_assoc]

lemma length_serialize (h : it.serialize = some bytes) : bytes.length = it.written := by
  obtain ⟨key, value, hkey, hvalue, rfl⟩ := exists_serialize h
  simp only [length_append, length_encode, hkey, hvalue, WriteItem.written]
  omega

lemma decode_encode_two {n : ℕ} : decode (encode 2 n) = n ↔ n < 2 ^ 16 := by
  rw [decode_encode]
  omega

/-- The fields of the first item are exact if and only if its lengths fit, and then the next item
is where it should be. -/
lemma itemsExact_cons (h : it.serialize = some bytes) (rest : Bytes) :
    ItemsExact (it :: items) (bytes ++ rest) ↔ it.Short ∧ ItemsExact items rest := by
  obtain ⟨key, value, hkey, hvalue, hbytes⟩ := exists_serialize h
  have hlenK : decode ((bytes ++ rest).take 2) = it.extra.length ↔ it.extra.length < 2 ^ 16 := by
    rw [hbytes, append_assoc, take_left' (length_encode 2 _), decode_encode_two]
  rw [ItemsExact, hlenK, WriteItem.Short, and_assoc]
  refine and_congr_right fun hK => ?_
  rw [Nat.mod_eq_of_lt hK] at hkey
  have hdrop : (bytes ++ rest).drop (2 + it.extra.length) =
      encode 2 it.value.length ++ (value ++ encode 2 it.tableId ++ rest) := by
    have hfront : (encode 2 it.extra.length ++ key).length = 2 + it.extra.length := by simp [hkey]
    rw [hbytes, ← append_assoc (encode 2 it.extra.length), append_assoc,
      drop_left' hfront, append_assoc, append_assoc]
  rw [hdrop, take_left' (length_encode 2 _), decode_encode_two]
  refine and_congr_right fun hV => ?_
  have hshort : it.Short := ⟨hK, hV⟩
  have hlen : bytes.length = 6 + it.extra.length + it.value.length := by
    rw [length_serialize h, hshort.written_eq, size]
  rw [drop_left' hlen]

lemma itemsExact_iff {rest : Bytes} (h : serializeItems items = some bytes) :
    ItemsExact items (bytes ++ rest) ↔ ∀ it ∈ items, it.Short := by
  induction items generalizing bytes with
  | nil => simp [ItemsExact]
  | cons it items ih =>
    rw [serializeItems] at h
    split at h
    · cases h
    · next kv hkv =>
      obtain ⟨kvs, hkvs, rfl⟩ := map_eq_some_iff.mp h
      rw [append_assoc, itemsExact_cons hkv, ih hkvs, forall_mem_cons]

lemma length_serializeItems (h : serializeItems items = some bytes) :
    bytes.length = (items.map WriteItem.written).sum := by
  induction items generalizing bytes with
  | nil =>
    cases h
    rfl
  | cons it items ih =>
    rw [serializeItems] at h
    split at h
    · cases h
    · next kv hkv =>
      obtain ⟨kvs, hkvs, rfl⟩ := map_eq_some_iff.mp h
      rw [length_append, length_serialize hkv, ih hkvs, map_cons, sum_cons]

/-- The bytes that are written for a transaction. -/
def Commit.written (c : Commit) : ℕ := 14 + (c.items.map WriteItem.written).sum

/-- The bytes that a transaction needs. -/
def Commit.size (c : Commit) : ℕ := 14 + (c.items.map WriteItem.size).sum

lemma Commit.length_eq_written (h : c.encoding = some bytes) : bytes.length = c.written := by
  obtain ⟨kvs, hkvs, rfl⟩ := map_eq_some_iff.mp h
  simp only [length_append, length_encode, length_serializeItems hkvs, Commit.written]

/-- The fields of a transaction are exact if and only if the count, the lengths of keys and values
and the total length fit them. -/
lemma fieldsExact_iff (h : c.encoding = some bytes) : FieldsExact c.items bytes ↔
      c.items.length < 2 ^ 16 ∧ c.written < 14 + 2 ^ 32 ∧ ∀ it ∈ c.items, it.Short := by
  have hlen := Commit.length_eq_written h
  obtain ⟨kvs, hkvs, hbytes⟩ := map_eq_some_iff.mp h
  have hcount : bytes.drop 8 = encode 2 c.items.length ++ (encode 4 kvs.length ++ kvs) := by
    rw [← hbytes, append_assoc, append_assoc, drop_left' (length_encode 8 _)]
  have htotal : bytes.drop 10 = encode 4 kvs.length ++ kvs := by
    rw [← drop_drop (i := 2) (j := 8), hcount, drop_left' (length_encode 2 _)]
  have hpairs : bytes.drop 14 = kvs ++ [] := by
    rw [← drop_drop (i := 4) (j := 10), htotal, drop_left' (length_encode 4 _), append_nil]
  have hkvsLen : c.written = 14 + kvs.length := by
    rw [← hlen, ← hbytes]
    simp only [length_append, length_encode]
  have hiff : FieldsExact c.items bytes ↔ decode ((bytes.drop 8).take 2) = c.items.length ∧
      decode ((bytes.drop 10).take 4) = (bytes.drop 14).length ∧
      ItemsExact c.items (bytes.drop 14) :=
    ⟨fun h => ⟨h.count, h.len, h.pairs⟩, fun h => ⟨h.1, h.2.1, h.2.2⟩⟩
  rw [hiff, hcount, htotal, hpairs, itemsExact_iff hkvs, take_left' (length_encode 2 _),
    take_left' (length_encode 4 _), decode_encode_two, decode_encode, append_nil,
    hkvsLen]
  refine and_congr_right fun _ => and_congr_left fun _ => ?_
  omega

/-! ## Positions -/

namespace StringAllocator

/-- The positions in the buffer that the commits of a thread and its exit reach: behind each
transaction, and behind each trailer. -/
def positions (kSizeLimit : ℕ) : StringAllocator → List Commit → List ℕ
  | inst, [] =>
    match inst.destroy with
    | some (some batch) => [batch.length]
    | _ => []
  | inst, c :: cs =>
    if c.items = [] then positions kSizeLimit inst cs
    else
      match c.encoding with
      | none => []
      | some txn =>
        let w := (inst.log ++ txn).length
        w :: (if kSizeLimit ≤ inst.entries + 1 then [w + 8] else []) ++
          match inst.serializeUtil kSizeLimit c with
          | none => []
          | some (inst, _) => positions kSizeLimit inst cs

end StringAllocator

/-- The trailer of a group, if it gets one. -/
def trailerSize (kSizeLimit : ℕ) (g : List Commit) : ℕ :=
  if kSizeLimit ≤ g.length ∨ lastCid g ≠ 0 then 8 else 0

/-- The bytes that are written for a group, without the trailer. -/
def groupWritten (g : List Commit) : ℕ := (g.map Commit.written).sum

lemma length_encodings (h : encodings g = some bytes) : bytes.length = groupWritten g := by
  induction g generalizing bytes with
  | nil =>
    cases h
    rfl
  | cons c g ih =>
    obtain ⟨txn, htxn, hmap⟩ := bind_eq_some_iff.mp h
    obtain ⟨rest, hrest, rfl⟩ := map_eq_some_iff.mp hmap
    rw [length_append, Commit.length_eq_written htxn, ih hrest, groupWritten, groupWritten,
      map_cons, sum_cons]

/-- Pending transactions are in the first group. -/
lemma exists_mem_groupsOf (hne : pending ≠ []) (cs : List Commit) :
    ∃ g ∈ groupsOf k pending cs, groupWritten pending ≤ groupWritten g := by
  have happend (l : List Commit) (c : Commit) : groupWritten l ≤ groupWritten (l ++ [c]) := by
    simp [groupWritten]
  fun_induction groupsOf k pending cs with
  | case1 => exact absurd rfl hne
  | case2 pending _ => exact ⟨pending, mem_singleton_self _, le_rfl⟩
  | case3 pending c cs _ ih => exact ih hne
  | case4 pending c cs _ _ ih => exact ⟨_, mem_cons_self, happend pending c⟩
  | case5 pending c cs _ _ ih =>
    obtain ⟨g, hg, hle⟩ := ih (by simp)
    exact ⟨g, hg, (happend pending c).trans hle⟩

namespace StringAllocator

variable {inst : StringAllocator}

/-- The positions that a commit reaches, and those behind it. -/
lemma Has.positions_cons (h : inst.Has pending) (hne : c.items ≠ []) {txn : Bytes}
    (htxn : c.encoding = some txn) :
    inst.positions k (c :: cs) = (inst.log ++ txn).length ::
      if k ≤ pending.length + 1 then ((inst.log ++ txn).length + 8) ::
        if (inst.log ++ txn).length ≤ maxArraySizeInBytes then positions k {} cs else []
      else positions k ⟨inst.log ++ txn, pending.length + 1, c.cid⟩ cs := by
  rw [positions, if_neg hne, h.serializeUtil hne, htxn, h.entries]
  simp only [bind_some]
  by_cases hfull : k ≤ pending.length + 1
  · by_cases hmax : (inst.log ++ txn).length ≤ maxArraySizeInBytes
    · simp only [hfull, hmax, if_true, cons_append, nil_append]
    · simp only [hfull, hmax, if_true, if_false, cons_append, nil_append]
  · simp only [hfull, if_false, cons_append, nil_append]

/-- The positions stay inside the buffer if and only if every group fits with its trailer. -/
lemma Has.positions_le_iff (h : inst.Has pending) (hlen : pending = [] ∨ pending.length < k)
    (hfit : inst.log.length ≤ maxArraySizeInBytes) (henc : ∀ c ∈ cs, c.encoding ≠ none) :
    (∀ p ∈ inst.positions k cs, p ≤ maxArraySizeInBytes) ↔
      ∀ g ∈ groupsOf k pending cs, groupWritten g + trailerSize k g ≤ maxArraySizeInBytes := by
  induction cs generalizing inst pending with
  | nil =>
    rw [groupsOf, positions, StringAllocator.destroy, if_neg (Nat.not_lt.mpr hfit), h.latest]
    by_cases hnil : pending = []
    · subst hnil
      have hlog : inst.log = [] := (some.inj h.log).symm
      simp [hlog]
    · have hlog : inst.log ≠ [] := by
        intro hlog
        exact hnil (eq_nil_of_encodings (h.log.trans (congrArg some hlog)))
      have hfull : ¬k ≤ pending.length := Nat.not_le.mpr (hlen.resolve_left hnil)
      have hsize := length_encodings h.log
      rw [if_neg hlog, if_neg hnil, forall_mem_singleton, trailerSize]
      by_cases hcid : lastCid pending = 0
      · simp [hcid, hfull, ← hsize, hfit]
      · simp [hcid, ← hsize]
  | cons c cs ih =>
    have henc' : ∀ c ∈ cs, c.encoding ≠ none := fun d hd => henc d (mem_cons_of_mem c hd)
    by_cases hnil : c.items = []
    · rw [groupsOf, positions, if_pos hnil, if_pos hnil]
      exact ih h hlen hfit henc'
    · obtain ⟨txn, htxn⟩ := ne_none_iff_exists'.mp (henc c mem_cons_self)
      have hlog : encodings (pending ++ [c]) = some (inst.log ++ txn) := by
        rw [encodings_append, h.log]
        simp [htxn]
      have hsize := length_encodings hlog
      rw [h.positions_cons hnil htxn, groupsOf, if_neg hnil, forall_mem_cons]
      by_cases hfull : k ≤ pending.length + 1
      · have htrailer : trailerSize k (pending ++ [c]) = 8 := if_pos (.inl (by simpa using hfull))
        have hrest := ih has_nil (.inl rfl) (Nat.zero_le _) henc'
        rw [if_pos hfull, if_pos hfull, forall_mem_cons, forall_mem_cons, htrailer,
          ← hsize, ← hrest]
        by_cases hmax : (inst.log ++ txn).length ≤ maxArraySizeInBytes
        · rw [if_pos hmax, and_iff_right hmax]
        · have hmore : ¬(inst.log ++ txn).length + 8 ≤ maxArraySizeInBytes := by omega
          rw [iff_false_left fun h => hmax h.1]
          exact fun h => hmore h.1
      · have hnext : Has ⟨inst.log ++ txn, pending.length + 1, c.cid⟩ (pending ++ [c]) :=
          ⟨hlog, by simp, by simp⟩
        rw [if_neg hfull, if_neg hfull]
        by_cases hmax : (inst.log ++ txn).length ≤ maxArraySizeInBytes
        · rw [and_iff_right hmax]
          exact ih hnext (.inr (by simpa using hfull)) hmax henc'
        · -- the group that `c` is in is too long
          rw [iff_false_left fun h => hmax h.1]
          intro hall
          have hne : pending ++ [c] ≠ [] := by simp
          obtain ⟨g, hg, hle⟩ := exists_mem_groupsOf (k := k) hne cs
          have := hall g hg
          omega

end StringAllocator

/-! ## When everything fits -/

/-- Every count and length that is written is the true one, and no position is behind the end of
the buffer. -/
structure SizesFit (kSizeLimit : ℕ) (cs : List Commit) : Prop where
  fields : ∀ c ∈ cs, ∀ txn, c.encoding = some txn → FieldsExact c.items txn
  positions : ∀ p ∈ StringAllocator.positions kSizeLimit {} cs, p ≤ maxArraySizeInBytes

/-- The bytes that a group needs, without the trailer. -/
def groupSize (g : List Commit) : ℕ := (g.map Commit.size).sum

lemma Commit.written_eq_size (h : ∀ it ∈ c.items, it.Short) : c.written = c.size := by
  rw [Commit.written, Commit.size, map_congr_left fun it hit => (h it hit).written_eq]

lemma mem_of_mem_groupsOf (hg : g ∈ groupsOf k [] cs) (hc : c ∈ g) : c ∈ cs := by
  have hmem : c ∈ (groupsOf k [] cs).flatten := mem_flatten.mpr ⟨g, hg, hc⟩
  rw [flatten_groupsOf, nil_append] at hmem
  exact mem_of_mem_filter hmem

lemma groupWritten_eq_groupSize (h : ∀ c ∈ cs, ∀ it ∈ c.items, it.Short)
    (hg : g ∈ groupsOf k [] cs) : groupWritten g = groupSize g := by
  rw [groupWritten, groupSize,
    map_congr_left fun c hc => Commit.written_eq_size (h c (mem_of_mem_groupsOf hg hc))]

/-- A transaction is not longer than the group it is in. -/
lemma written_le_of_groups {max : ℕ} (hc : c ∈ cs) (hne : c.items ≠ [])
    (h : ∀ g ∈ groupsOf k [] cs, groupWritten g + trailerSize k g ≤ max) : c.written ≤ max := by
  have hmem : c ∈ (groupsOf k [] cs).flatten := by
    rw [flatten_groupsOf, nil_append]
    exact mem_filter.mpr ⟨hc, by simpa using hne⟩
  obtain ⟨g, hg, hcg⟩ := mem_flatten.mp hmem
  have hle : c.written ≤ groupWritten g := 
    single_le_sum (fun _ _ => Nat.zero_le _) _ (mem_map_of_mem hcg)
  have := h g hg
  omega

/-- For transactions with at most 32768 items that can be written, all sizes fit if and only if
every key and value is shorter than `2 ^ 16` bytes and the sizes of the transactions of each batch
add up, with its trailer, to at most the size of the buffer. -/
theorem sizesFit_iff (kSizeLimit : ℕ) (cs : List Commit)
    (hcap : ∀ c ∈ cs, c.items.length ≤ 32768) (henc : ∀ c ∈ cs, c.encoding ≠ none) :
    SizesFit kSizeLimit cs ↔ (∀ c ∈ cs, ∀ it ∈ c.items, it.Short) ∧
      ∀ g ∈ groupsOf kSizeLimit [] cs,
        groupSize g + trailerSize kSizeLimit g ≤ maxArraySizeInBytes := by
  have hpos := StringAllocator.has_nil.positions_le_iff (k := kSizeLimit) (.inl rfl)
    (Nat.zero_le _) henc
  constructor
  · rintro ⟨hfields, hpositions⟩
    have hshort : ∀ c ∈ cs, ∀ it ∈ c.items, it.Short := by
      intro c hc
      obtain ⟨txn, htxn⟩ := Option.ne_none_iff_exists'.mp (henc c hc)
      exact ((fieldsExact_iff htxn).mp (hfields c hc txn htxn)).2.2
    refine ⟨hshort, fun g hg => ?_⟩
    rw [← groupWritten_eq_groupSize hshort hg]
    exact hpos.mp hpositions g hg
  · rintro ⟨hshort, hgroups⟩
    have hwritten : ∀ g ∈ groupsOf kSizeLimit [] cs,
        groupWritten g + trailerSize kSizeLimit g ≤ maxArraySizeInBytes := by
      intro g hg
      rw [groupWritten_eq_groupSize hshort hg]
      exact hgroups g hg
    refine ⟨fun c hc txn htxn => (fieldsExact_iff htxn).mpr ⟨?_, ?_, hshort c hc⟩,
      hpos.mpr hwritten⟩
    · exact lt_of_le_of_lt (hcap c hc) (by norm_num)
    · by_cases hnil : c.items = []
      · simp [Commit.written, hnil]
      · have hle := written_le_of_groups hc hnil hwritten
        have hmax : maxArraySizeInBytes < 2 ^ 32 := by decide
        omega

theorem sizesFit_iff_threeWrites :
    (∀ c ∈ threeWrites, c.items.length ≤ 32768) ∧ (∀ c ∈ threeWrites, c.encoding ≠ none) ∧
      SizesFit 2 threeWrites := by
  have hcap : ∀ c ∈ threeWrites, c.items.length ≤ 32768 := by decide
  have henc : ∀ c ∈ threeWrites, c.encoding ≠ none := by decide +kernel
  exact ⟨hcap, henc, (sizesFit_iff 2 threeWrites hcap henc).mpr ⟨by decide, by decide +kernel⟩⟩

/-- A put of a value under the key 1. -/
def putOf (value : Bytes) : Commit := ⟨5, 1, [⟨false, false, value, [1], value, 10001⟩]⟩

lemma encoding_putOf {value : Bytes} (h : value.length = 65537) : (putOf value).encoding =
    some (encode 8 5001 ++ encode 2 1 ++ encode 4 8 ++
      (encode 2 1 ++ [1] ++ encode 2 1 ++ value.take 1 ++ encode 2 10001)) := by
  simp [putOf, Commit.encoding, serializeTxn, serializeItems, serialize,
    kkx, tableId, Commit.cid, commitId, h]

lemma not_sizesFit_putOf {value : Bytes} (h : value.length = 65537) :
    ((putOf value).encoding.map fun txn => (txn.length, decode ((txn.drop 17).take 2))) =
      some (22, 1) ∧ ¬SizesFit 1 [putOf value] := by
  constructor
  · obtain ⟨b, rest, rfl⟩ := exists_cons_of_length_eq_add_one h
    rw [encoding_putOf h]
    rfl
  · intro hfit
    have hexact := (fieldsExact_iff (encoding_putOf h)).mp
      (hfit.fields _ (mem_singleton_self _) _ (encoding_putOf h))
    have hlt : value.length < 2 ^ 16 := (hexact.2.2 _ (mem_singleton_self _)).2
    omega

/-- A value of 65537 bytes: its length field says 1, and one byte of it is copied. -/
theorem not_sizesFit_longValue :
    ((putOf (List.replicate 65537 7)).encoding.map fun txn =>
        (txn.length, decode ((txn.drop 17).take 2))) = some (22, 1) ∧
      ¬SizesFit 1 [putOf (List.replicate 65537 7)] :=
  not_sizesFit_putOf List.length_replicate

end Rolis.Sto
