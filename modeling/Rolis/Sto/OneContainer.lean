import Rolis.Sto.FixedRecords

/-!
# Records of 27 bytes

`one_container` takes a record out of a buffer: commit id, key and value of 8 bytes each, a table id
of 2 and a delete flag of 1. `getFileContentNew_optimized` puts records that were taken out before,
and `getFileContentNew_optimized_pointer` goes over the buffer itself.
-/

namespace Rolis.Sto

open Bytes Decl List

/-- `one_container`, as far as it is read from the buffer. -/
@[ext] structure OneContainer where
  cid : ℕ
  k : ℕ
  v : ℕ
  tableId : ℕ
  deleteTrue : ℕ
  cid_lt : cid < 256 ^ 8
  k_lt : k < 256 ^ 8
  v_lt : v < 256 ^ 8
  tableId_lt : tableId < 256 ^ 2
  deleteTrue_lt : deleteTrue < 256 ^ 1

lemma toNat_lt_one (x : UInt8) : x.toNat < 256 ^ 1 := x.toNat_lt

namespace OneContainer

instance instDecidableEq : DecidableEq OneContainer :=
  fun _ _ => decidable_of_iff _ OneContainer.ext_iff.symm

/-- The record of a commit id, a key, a value, a table id and a delete flag. -/
def ofWords (cid k v : UInt64) (tableId : UInt16) (deleteTrue : UInt8) : OneContainer :=
  ⟨cid.toNat, k.toNat, v.toNat, tableId.toNat, deleteTrue.toNat, toNat_lt_eight cid,
    toNat_lt_eight k, toNat_lt_eight v, toNat_lt_two tableId, toNat_lt_one deleteTrue⟩

/-- The record in the buffer. -/
def encoding (e : OneContainer) : Bytes :=
  encode 8 e.cid ++ (encode 8 e.k ++ (encode 8 e.v ++
    (encode 2 e.tableId ++ encode 1 e.deleteTrue)))

/-- The record at a place of a buffer, if the buffer reaches that far. -/
def readAt (buffer : Bytes) (rw : ℕ) : Option OneContainer :=
  if h : rw + 26 + 1 ≤ buffer.length then
    some
      { cid := decode ((buffer.drop rw).take 8)
        k := decode ((buffer.drop (rw + 8)).take 8)
        v := decode ((buffer.drop (rw + 16)).take 8)
        tableId := decode ((buffer.drop (rw + 24)).take 2)
        deleteTrue := decode ((buffer.drop (rw + 26)).take 1)
        cid_lt := decode_field_lt (by omega)
        k_lt := decode_field_lt (by omega)
        v_lt := decode_field_lt (by omega)
        tableId_lt := decode_field_lt (by omega)
        deleteTrue_lt := decode_field_lt h }
  else none

/-- What is put for a record. -/
def put (e : OneContainer) : Put where
  tableId := e.tableId
  key := HopmanFast.itostr e.k
  value := keystoreEncode3 e.cid (if e.deleteTrue % 2 = 1 then 999 else e.v)

lemma length_encoding (e : OneContainer) : e.encoding.length = 27 := by
  simp only [encoding, length_append, length_encode]

lemma length_flatMap_encoding (records : List OneContainer) :
    (records.flatMap encoding).length = records.length * 27 := by
  induction records with
  | nil => rfl
  | cons e records ih =>
    rw [flatMap_cons, length_append, e.length_encoding, ih, length_cons]
    omega

/-- A field of a record, with what stands in front of it. -/
lemma decode_field {w n : ℕ} (before after : Bytes) (h : n < 256 ^ w) {pos : ℕ}
    (hpos : pos = before.length) :
    decode (((before ++ (encode w n ++ after)).drop pos).take w) = n := by
  rw [hpos, drop_left, take_left' (length_encode w n), decode_encode_of_lt h]

lemma readAt_encoding (before after : Bytes) (e : OneContainer) :
    readAt (before ++ (e.encoding ++ after)) before.length = some e := by
  have hlen : before.length + 26 + 1 ≤ (before ++ (e.encoding ++ after)).length := by
    rw [length_append, length_append, e.length_encoding]
    omega
  have hcid : decode (((before ++ (e.encoding ++ after)).drop before.length).take 8) = e.cid := by
    simp only [encoding, append_assoc]
    exact decode_field before _ e.cid_lt rfl
  have hk : decode (((before ++ (e.encoding ++ after)).drop (before.length + 8)).take 8) = e.k := by
    have hsplit : before ++ (e.encoding ++ after) = (before ++ encode 8 e.cid) ++ (encode 8 e.k ++
        (encode 8 e.v ++ (encode 2 e.tableId ++ (encode 1 e.deleteTrue ++ after)))) := by
      simp only [encoding, append_assoc]
    rw [hsplit]
    exact decode_field _ _ e.k_lt (by simp)
  have hv : decode (((before ++ (e.encoding ++ after)).drop (before.length + 16)).take 8) =
      e.v := by
    have hsplit : before ++ (e.encoding ++ after) =
        (before ++ (encode 8 e.cid ++ encode 8 e.k)) ++ (encode 8 e.v ++
          (encode 2 e.tableId ++ (encode 1 e.deleteTrue ++ after))) := by
      simp only [encoding, append_assoc]
    rw [hsplit]
    exact decode_field _ _ e.v_lt (by simp)
  have hid : decode (((before ++ (e.encoding ++ after)).drop (before.length + 24)).take 2) =
      e.tableId := by
    have hsplit : before ++ (e.encoding ++ after) =
        (before ++ (encode 8 e.cid ++ (encode 8 e.k ++ encode 8 e.v))) ++ (encode 2 e.tableId ++
          (encode 1 e.deleteTrue ++ after)) := by
      simp only [encoding, append_assoc]
    rw [hsplit]
    exact decode_field _ _ e.tableId_lt (by simp)
  have hdel : decode (((before ++ (e.encoding ++ after)).drop (before.length + 26)).take 1) =
      e.deleteTrue := by
    have hsplit : before ++ (e.encoding ++ after) =
        (before ++ (encode 8 e.cid ++ (encode 8 e.k ++ (encode 8 e.v ++ encode 2 e.tableId)))) ++
          (encode 1 e.deleteTrue ++ after) := by
      simp only [encoding, append_assoc]
    rw [hsplit]
    exact decode_field _ _ e.deleteTrue_lt (by simp)
  simp only [readAt, dif_pos hlen, hcid, hk, hv, hid, hdel]

/-- The records of a buffer stand 27 bytes apart. -/
lemma readAt_getElem (before after : Bytes) {records : List OneContainer} {i : ℕ}
    (hi : i < records.length) :
    readAt (before ++ (records.flatMap encoding ++ after)) (before.length + i * 27) =
      some records[i] := by
  have hsplit : before ++ (records.flatMap encoding ++ after) =
      (before ++ (records.take i).flatMap encoding) ++
        (records[i].encoding ++ ((records.drop (i + 1)).flatMap encoding ++ after)) := by
    conv_lhs => rw [← take_append_drop i records, drop_eq_getElem_cons hi,
      flatMap_append, flatMap_cons]
    simp only [append_assoc]
  have hlen : before.length + i * 27 = (before ++ (records.take i).flatMap encoding).length := by
    rw [length_append, length_flatMap_encoding, length_take_of_le hi.le]
  rw [hsplit, hlen, readAt_encoding]

lemma readAt_flatMap (records : List OneContainer) (i : ℕ) :
    readAt (records.flatMap encoding) (i * 27) = records[i]? := by
  by_cases hi : i < records.length
  · have hread := readAt_getElem [] [] hi
    rw [nil_append, append_nil, length_nil, Nat.zero_add] at hread
    rw [hread, getElem?_eq_getElem hi]
  · have hend : ¬ i * 27 + 26 + 1 ≤ (records.flatMap encoding).length := by
      rw [length_flatMap_encoding]
      omega
    rw [readAt, dif_neg hend, getElem?_eq_none (by omega)]

/-- The records at all places of a buffer. -/
lemma filterMap_readAt (records : List OneContainer) :
    (range' 0 records.length 27).filterMap (readAt (records.flatMap encoding)) = records := by
  have hmap : (range' 0 records.length 27).map (readAt (records.flatMap encoding)) =
      records.map some := by
    apply ext_getElem
    · rw [length_map, length_map, length_range']
    · intro i hi hi'
      rw [length_map] at hi'
      rw [getElem_map, getElem_map, getElem_range', Nat.zero_add, Nat.mul_comm,
        readAt_flatMap, getElem?_eq_getElem hi']
  calc (range' 0 records.length 27).filterMap (readAt (records.flatMap encoding))
      = ((range' 0 records.length 27).map (readAt (records.flatMap encoding))).filterMap id := by
        rw [filterMap_map]
        rfl
    _ = records := by
        rw [hmap, filterMap_map]
        exact filterMap_some

end OneContainer

/-- `std::map<std::string, long>` from table names to table ids, in the order of iteration. -/
abbrev TableMap := List (Bytes × ℤ)

/-- `all_files_names_temp`. -/
def TableMap.ids (tableMap : TableMap) : Finset ℤ := (tableMap.map Prod.snd).toFinset

/-- Why the replay of a buffer stops. -/
inductive Stop
  | exit
  | outOfBounds
deriving DecidableEq, Repr

/-- One turn of the loop of `getFileContentNew_optimized_pointer`. -/
def pointerTurn (buffer : Bytes) (init i : ℕ) : Except Stop Put :=
  match OneContainer.readAt buffer (init + i * 27) with
  | none => .error .outOfBounds
  | some e => if e.tableId = 0 ∨ 20000 < e.tableId then .error .exit else .ok e.put

/-- The turns from `i` on, `chunk` of them: the puts, and what stopped them, if anything did. -/
def pointerLoop (buffer : Bytes) (init : ℕ) : ℕ → ℕ → List Put × Option Stop
  | 0, _ => ([], none)
  | chunk + 1, i =>
    match pointerTurn buffer init i with
    | .error stop => ([], some stop)
    | .ok put =>
      let (puts, stop) := pointerLoop buffer init chunk (i + 1)
      (put :: puts, stop)

/-- `getFileContentNew_optimized_pointer`. -/
def getFileContentNewOptimizedPointer (buffer : Bytes) (init chunk : ℕ) : List Put × Option Stop :=
  pointerLoop buffer init chunk 0

section Pointer

variable {buffer : Bytes} {init chunk i : ℕ} {stop : Stop}

/-- A table id that cannot be. -/
def OneContainer.Impossible (e : OneContainer) : Prop := e.tableId = 0 ∨ 20000 < e.tableId

instance (e : OneContainer) : Decidable e.Impossible := inferInstanceAs (Decidable (_ ∨ _))

/-- A loop that is not stopped makes the puts of the records at its places. -/
lemma pointerLoop_puts (h : (pointerLoop buffer init chunk i).2 = none) :
    (pointerLoop buffer init chunk i).1 = ((range' (init + i * 27) chunk 27).filterMap
      (OneContainer.readAt buffer)).map OneContainer.put := by
  induction chunk generalizing i with
  | zero => rfl
  | succ chunk ih =>
    unfold pointerLoop at h ⊢
    cases hread : OneContainer.readAt buffer (init + i * 27) with
    | none => simp [pointerTurn, hread] at h
    | some e =>
      by_cases hid : e.tableId = 0 ∨ 20000 < e.tableId
      · simp [pointerTurn, hread, hid] at h
      · simp only [pointerTurn, hread, hid, if_false] at h ⊢
        rw [ih h, range'_succ, filterMap_cons, hread,
          show init + i * 27 + 27 = init + (i + 1) * 27 by omega, map_cons]

/-- What stops a loop is at one of its places. -/
lemma pointerLoop_stop (h : (pointerLoop buffer init chunk i).2 = some stop) :
    ∃ pos ∈ range' (init + i * 27) chunk 27,
      (stop = .outOfBounds ∧ OneContainer.readAt buffer pos = none) ∨
        (stop = .exit ∧ ∃ e, OneContainer.readAt buffer pos = some e ∧ e.Impossible) := by
  induction chunk generalizing i with
  | zero => cases h
  | succ chunk ih =>
    unfold pointerLoop at h
    have hmem : init + i * 27 ∈ range' (init + i * 27) (chunk + 1) 27 := by
      rw [range'_succ]
      exact mem_cons_self
    cases hread : OneContainer.readAt buffer (init + i * 27) with
    | none =>
      simp only [pointerTurn, hread, Option.some.injEq] at h
      exact ⟨_, hmem, .inl ⟨h.symm, hread⟩⟩
    | some e =>
      by_cases hid : e.tableId = 0 ∨ 20000 < e.tableId
      · simp only [pointerTurn, hread, hid, if_true, Option.some.injEq] at h
        exact ⟨_, hmem, .inr ⟨h.symm, e, hread, hid⟩⟩
      · simp only [pointerTurn, hread, hid, if_false] at h
        obtain ⟨pos, hpos, hstop⟩ := ih h
        refine ⟨pos, ?_, hstop⟩
        rw [range'_succ, show init + i * 27 + 27 = init + (i + 1) * 27 by omega]
        exact mem_cons_of_mem _ hpos

end Pointer

end Rolis.Sto
