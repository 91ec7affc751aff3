import Rolis.Sto.Itostr
import Rolis.Sto.ReplayInPlace

/-!
# Records of 18 bytes

`getFileContentOz`, `getFileContentNew_OneLogOptimized` and `getFileContentNew_OneLogOptimized_mbta`
replay an array of records of a fixed size: a key and a value of 8 bytes each and a table id of 2,
whose bit 15 says that the key was deleted. All records of an array have one commit id. The three
loops differ in the check of the table id and in how the key is written.

`delete_true` is declared in front of the loop and only ever set in it. From the first record with
bit 15 on, all records are stored as deleted.
-/

namespace Rolis.Sto

open Bytes List Option

/-- `keystore_encode3`, on a string of 16 bytes. -/
def keystoreEncode3 (x y : ℕ) : Bytes := encode 8 x ++ encode 8 y

lemma keystoreEncode3_inj {x x' y y' : ℕ} (h : keystoreEncode3 x y = keystoreEncode3 x' y') :
    x % 256 ^ 8 = x' % 256 ^ 8 ∧ y % 256 ^ 8 = y' % 256 ^ 8 := by
  obtain ⟨hx, hy⟩ := append_inj h (by rw [length_encode, length_encode])
  exact ⟨encode_eq_encode_iff.mp hx, encode_eq_encode_iff.mp hy⟩

lemma toNat_lt_eight (x : UInt64) : x.toNat < 256 ^ 8 := x.toNat_lt

lemma toNat_lt_two (x : UInt16) : x.toNat < 256 ^ 2 := x.toNat_lt

lemma length_encode_word (x : UInt64) : (encode 8 x.toNat).length = 8 := length_encode 8 _

namespace Decl

/-! ## Records -/

/-- A record: the bytes of the key, the value, and the table id with the delete bit. -/
structure Record where
  k : Bytes
  v : ℕ
  tableId : ℕ
  k_length : k.length = 8
  v_lt : v < 256 ^ 8
  tableId_lt : tableId < 256 ^ 2
deriving DecidableEq

namespace Record

/-- The record in memory. -/
def encoding (r : Record) : Bytes := r.k ++ (encode 8 r.v ++ encode 2 r.tableId)

/-- `(*table_id) & (1 << 15)`. -/
def deleted (r : Record) : Bool := r.tableId.testBit 15

/-- The table id once the delete bit is cleared. -/
def table (r : Record) : ℕ := if r.deleted then r.tableId ^^^ (1 <<< 15) else r.tableId

lemma length_encoding (r : Record) : r.encoding.length = 18 := by
  simp only [encoding, length_append, length_encode, r.k_length]

/-- The record of a key, a value and a table id. -/
def ofWords (k v : UInt64) (tableId : UInt16) : Record :=
  ⟨encode 8 k.toNat, v.toNat, tableId.toNat, length_encode_word k, toNat_lt_eight v,
    toNat_lt_two tableId⟩

end Record

section Fields

variable {buffer : Bytes} {pos n w : ℕ}

lemma length_field (h : pos + n ≤ buffer.length) : ((buffer.drop pos).take n).length = n := by
  rw [length_take_of_le]
  rw [length_drop]
  omega

lemma decode_field_lt (h : pos + n ≤ buffer.length) :
    decode ((buffer.drop pos).take n) < 256 ^ n := by
  have hlt := decode_lt ((buffer.drop pos).take n)
  rwa [length_field h] at hlt

end Fields

/-- The record at a place of a buffer, if the buffer reaches that far. -/
def recordAt (buffer : Bytes) (pos : ℕ) : Option Record :=
  if h : pos + 16 + 2 ≤ buffer.length then
    some
      { k := (buffer.drop pos).take 8
        v := decode ((buffer.drop (pos + 8)).take 8)
        tableId := decode ((buffer.drop (pos + 16)).take 2)
        k_length := length_field (by omega)
        v_lt := decode_field_lt (by omega)
        tableId_lt := decode_field_lt h }
  else none

/-- `*table_id = (*table_id) ^ (1 << 15)`, if the bit is set. -/
def clearBit (buffer : Bytes) (pos : ℕ) (r : Record) : Bytes :=
  if r.deleted then overwrite buffer (pos + 16) (encode 2 r.table) else buffer

/-! ## The loop -/

/-- What becomes of a record with a table id. -/
inductive Verdict
  | put
  | skip
  | exit
deriving DecidableEq, Repr

/-- A put into a table. -/
structure Put where
  tableId : ℕ
  key : Bytes
  value : Bytes
deriving DecidableEq, Repr

/-- Where the loops differ: the check of the table id and the text of the key. -/
structure Replayer where
  verdict : ℕ → Verdict
  key : Bytes → Bytes

/-- The variables that live across the turns of the loop. -/
structure Vars where
  deleteTrue : Bool
  putOps : ℕ
deriving DecidableEq, Repr

/-- What a call leaves behind. -/
structure Result where
  puts : List Put
  putOps : ℕ
  buffer : Bytes
  exited : Bool
deriving DecidableEq, Repr

namespace Replayer

variable (f : Replayer)

/-- The put of a record. `999` is the value of a deleted key. -/
def putOf (cid : ℕ) (deleteTrue : Bool) (r : Record) : Put where
  tableId := r.table
  key := f.key r.k
  value := keystoreEncode3 cid (if deleteTrue then 999 else r.v)

/-- One turn: the put it makes, if any, and the variables behind it. `none` is `exit(1)`. -/
def turn (cid : ℕ) (vars : Vars) (r : Record) : Option (Option Put × Vars) :=
  -- set by the first record with bit 15, and not taken back for the next one
  let deleteTrue := vars.deleteTrue || r.deleted
  match f.verdict r.table with
  | .exit => none
  | .skip => some (none, { vars with deleteTrue })
  | .put => some (some (f.putOf cid deleteTrue r), ⟨deleteTrue, vars.putOps + 1⟩)

/-- The turns from `i` on, `chunk` of them. `none` is a read behind the end of the buffer. -/
def loop (cid array : ℕ) : ℕ → ℕ → Vars → Bytes → Option Result
  | 0, _, vars, buffer => some ⟨[], vars.putOps, buffer, false⟩
  | chunk + 1, i, vars, buffer =>
    match recordAt buffer (array + i * 18) with
    | none => none
    | some r =>
      -- the bit is cleared in the buffer itself, before the table id is checked
      let buffer := clearBit buffer (array + i * 18) r
      match f.turn cid vars r with
      | none => some ⟨[], vars.putOps, buffer, true⟩
      | some (put, vars) =>
        (loop cid array chunk (i + 1) vars buffer).map fun res =>
          { res with puts := put.toList ++ res.puts }

/-- A call of the function on the records at `array`. -/
def run (buffer : Bytes) (array chunk cid : ℕ) : Option Result :=
  f.loop cid array chunk 0 ⟨false, 1⟩ buffer

end Replayer

/-- The check of `getFileContentOz`: a record of a table that does not exist is left out. -/
def oz (allFilesNames : Finset ℤ) : Replayer where
  verdict id := if (id : ℤ) ∈ allFilesNames then .put else .skip
  key k := HopmanFast.itostr (decode k)

/-- The check of the other two: an impossible table id ends the process. -/
def oneLog : Replayer where
  verdict id := if id = 0 ∨ 20000 < id then .exit else .put
  key k := k

/-- `getFileContentOz`. -/
def getFileContentOz (buffer : Bytes) (array chunk cid : ℕ) (allFilesNames : Finset ℤ) :
    Option Result :=
  (oz allFilesNames).run buffer array chunk cid

/-- `getFileContentNew_OneLogOptimized`. -/
def getFileContentNewOneLogOptimized (buffer : Bytes) (array cid chunk : ℕ) : Option Result :=
  oneLog.run buffer array chunk cid

/-- `getFileContentNew_OneLogOptimized_mbta`: each put is a transaction of its own. One that throws
is started again; what its commit answers is not looked at. -/
def getFileContentNewOneLogOptimizedMbta (buffer : Bytes) (array cid chunk : ℕ) : Option Result :=
  oneLog.run buffer array chunk cid

/-! ## Memory -/

section Memory

variable {buffer bytes : Bytes} {pos pos' n : ℕ} {r : Record}

lemma length_overwrite (h : pos + bytes.length ≤ buffer.length) :
    (overwrite buffer pos bytes).length = buffer.length := by
  simp only [overwrite, length_append, length_take, length_drop]
  omega

/-- Bytes outside of what is overwritten stay. -/
lemma getElem?_overwrite_of_outside {i : ℕ} (h : pos + bytes.length ≤ buffer.length)
    (hi : i < pos ∨ pos + bytes.length ≤ i) : (overwrite buffer pos bytes)[i]? = buffer[i]? := by
  have htake : (buffer.take pos).length = pos := length_take_of_le (by omega)
  rcases hi with hi | hi
  · rw [overwrite, getElem?_append_left (by omega), getElem?_take_of_lt hi]
  · rw [overwrite, getElem?_append_right (by omega), htake,
      getElem?_append_right (by omega), getElem?_drop]
    congr 1
    omega

lemma field_overwrite (pos' n : ℕ) (h : pos + bytes.length ≤ buffer.length)
    (hn : pos' + n ≤ pos ∨ pos + bytes.length ≤ pos') :
    ((overwrite buffer pos bytes).drop pos').take n = (buffer.drop pos').take n := by
  apply ext_getElem?
  intro i
  by_cases hi : i < n
  · rw [getElem?_take_of_lt hi, getElem?_take_of_lt hi, getElem?_drop,
      getElem?_drop, getElem?_overwrite_of_outside h (by omega)]
  · rw [getElem?_eq_none (by rw [length_take]; omega),
      getElem?_eq_none (by rw [length_take]; omega)]

lemma recordAt_overwrite (h : pos + bytes.length ≤ buffer.length)
    (hn : pos' + 18 ≤ pos ∨ pos + bytes.length ≤ pos') :
    recordAt (overwrite buffer pos bytes) pos' = recordAt buffer pos' := by
  have hk := field_overwrite pos' 8 h (by omega)
  have hv := field_overwrite (pos' + 8) 8 h (by omega)
  have hid := field_overwrite (pos' + 16) 2 h (by omega)
  simp only [recordAt, length_overwrite h, hk, hv, hid]

lemma le_length_of_recordAt (h : recordAt buffer pos = some r) : pos + 18 ≤ buffer.length := by
  unfold recordAt at h
  split at h
  · next hle => exact hle
  · cases h

lemma length_clearBit (h : recordAt buffer pos = some r) :
    (clearBit buffer pos r).length = buffer.length := by
  have hle := le_length_of_recordAt h
  unfold clearBit
  split
  · exact length_overwrite (by rw [length_encode]; omega)
  · rfl

lemma field_clearBit (pos' n : ℕ) (h : recordAt buffer pos = some r)
    (hn : pos' + n ≤ pos + 16 ∨ pos + 18 ≤ pos') :
    ((clearBit buffer pos r).drop pos').take n = (buffer.drop pos').take n := by
  have hle := le_length_of_recordAt h
  unfold clearBit
  split
  · exact field_overwrite pos' n (by rw [length_encode]; omega) (by rw [length_encode]; omega)
  · rfl

/-- Clearing the bit of a record leaves the others alone. -/
lemma recordAt_clearBit (h : recordAt buffer pos = some r)
    (hn : pos' + 18 ≤ pos + 16 ∨ pos + 18 ≤ pos') :
    recordAt (clearBit buffer pos r) pos' = recordAt buffer pos' := by
  have hle := le_length_of_recordAt h
  unfold clearBit
  split
  · exact recordAt_overwrite (by rw [length_encode]; omega) (by rw [length_encode]; omega)
  · rfl

lemma recordAt_encoding (before after : Bytes) (r : Record) :
    recordAt (before ++ (r.encoding ++ after)) before.length = some r := by
  have hlen : before.length + 16 + 2 ≤ (before ++ (r.encoding ++ after)).length := by
    simp only [length_append, r.length_encoding]
    omega
  have hk : ((before ++ (r.encoding ++ after)).drop before.length).take 8 = r.k := by
    rw [drop_left, Record.encoding, append_assoc, ← r.k_length, take_left]
  have hv : ((before ++ (r.encoding ++ after)).drop (before.length + 8)).take 8 = encode 8 r.v := by
    rw [← drop_drop, drop_left, Record.encoding, append_assoc, ← r.k_length,
      drop_left, append_assoc, r.k_length]
    exact take_left' (length_encode 8 r.v)
  have hid : ((before ++ (r.encoding ++ after)).drop (before.length + 16)).take 2 =
      encode 2 r.tableId := by
    have hsplit : before ++ (r.encoding ++ after) =
        (before ++ (r.k ++ encode 8 r.v)) ++ (encode 2 r.tableId ++ after) := by
      simp only [Record.encoding, append_assoc]
    have hpos : before.length + 16 = (before ++ (r.k ++ encode 8 r.v)).length := by
      simp only [length_append, r.k_length, length_encode]
    rw [hsplit, hpos, drop_left]
    exact take_left' (length_encode 2 r.tableId)
  simp only [recordAt, dif_pos hlen, hk, hv, hid, decode_encode_of_lt r.v_lt,
    decode_encode_of_lt r.tableId_lt]

end Memory

/-- The records stand one behind another at a place of a buffer. -/
def StandAt (buffer : Bytes) (array : ℕ) (records : List Record) : Prop :=
  ∀ i r, records[i]? = some r → recordAt buffer (array + i * 18) = some r

lemma standAt_encoding (before after : Bytes) (records : List Record) :
    StandAt (before ++ (records.flatMap Record.encoding ++ after)) before.length records := by
  induction records generalizing before with
  | nil => intro i r h; cases h
  | cons r records ih =>
    intro i r' h
    rw [flatMap_cons, append_assoc]
    cases i with
    | zero =>
      cases h
      rw [Nat.zero_mul, Nat.add_zero]
      exact recordAt_encoding before _ r
    | succ i =>
      have hstand := ih (before ++ r.encoding) i r' h
      rw [append_assoc, length_append, r.length_encoding] at hstand
      rwa [Nat.succ_mul, show before.length + (i * 18 + 18) = before.length + 18 + i * 18 by omega]

/-! ## The puts of a call -/

namespace Replayer

variable (f : Replayer) {cid : ℕ} {b : Bool} {r : Record} {records : List Record} {buffer : Bytes}

/-- What a record leads to, given whether it counts as deleted. -/
def insertOf (cid : ℕ) (deleteTrue : Bool) (r : Record) : Option Put :=
  if f.verdict r.table = .put then some (f.putOf cid deleteTrue r) else none

lemma turn_of_exit (h : f.verdict r.table = .exit) (vars : Vars) : f.turn cid vars r = none := by
  simp only [turn, h]

lemma turn_of_not_exit (cid : ℕ) (h : f.verdict r.table ≠ .exit) (vars : Vars) :
    ∃ putOps, f.turn cid vars r = some (f.insertOf cid (vars.deleteTrue || r.deleted) r,
      ⟨vars.deleteTrue || r.deleted, putOps⟩) := by
  unfold turn insertOf
  cases hv : f.verdict r.table with
  | exit => exact absurd hv h
  | skip => exact ⟨vars.putOps, rfl⟩
  | put => exact ⟨vars.putOps + 1, rfl⟩

/-- The puts for a list of records, given whether a delete was seen before. -/
def puts (cid : ℕ) : Bool → List Record → List Put
  | _, [] => []
  | deleteTrue, r :: records =>
    if f.verdict r.table = .exit then []
    else
      (f.insertOf cid (deleteTrue || r.deleted) r).toList ++
        puts cid (deleteTrue || r.deleted) records

/-- One more record behind the others. -/
lemma puts_concat (h : ∀ id, f.verdict id ≠ .exit) :
    f.puts cid b (records ++ [r]) = f.puts cid b records ++
      (f.insertOf cid (b || records.any Record.deleted || r.deleted) r).toList := by
  induction records generalizing b with
  | nil =>
    rw [nil_append, puts, puts, if_neg (h r.table), any_nil, Bool.or_false, puts,
      append_nil, nil_append]
  | cons r' records ih =>
    rw [cons_append, puts, puts, if_neg (h r'.table), if_neg (h r'.table), ih,
      append_assoc, any_cons, ← Bool.or_assoc]

/-- A call makes the puts of the records that stand at its array. -/
lemma loop_puts (cid array i : ℕ) (vars : Vars) (h : StandAt buffer (array + i * 18) records) :
    ∃ res, f.loop cid array records.length i vars buffer = some res ∧
      res.puts = f.puts cid vars.deleteTrue records := by
  induction records generalizing i vars buffer with
  | nil => exact ⟨_, rfl, rfl⟩
  | cons r records ih =>
    have hr : recordAt buffer (array + i * 18) = some r := by
      have hfirst := h 0 r rfl
      rwa [Nat.zero_mul, Nat.add_zero] at hfirst
    rw [length_cons, loop, hr]
    by_cases hexit : f.verdict r.table = .exit
    · simp only [f.turn_of_exit hexit, puts, if_pos hexit]
      exact ⟨_, rfl, rfl⟩
    · obtain ⟨putOps, hturn⟩ := f.turn_of_not_exit cid hexit vars
      -- the bit is cleared in a record that is not looked at again
      have hrest : StandAt (clearBit buffer (array + i * 18) r) (array + (i + 1) * 18) records := by
        intro j r' hj
        have hnext := h (j + 1) r' hj
        rw [recordAt_clearBit hr (by omega)]
        rwa [show array + (i + 1) * 18 + j * 18 = array + i * 18 + (j + 1) * 18 by omega]
      obtain ⟨res, hloop, hres⟩ := ih (i + 1) ⟨vars.deleteTrue || r.deleted, putOps⟩ hrest
      simp only [hturn, hloop, map_some, puts, if_neg hexit]
      exact ⟨_, rfl, by rw [hres]⟩

/-! ## Each record for itself -/

/-- The records up to the first whose table id ends the process. -/
def reached (records : List Record) : List Record :=
  records.takeWhile fun r => f.verdict r.table ≠ .exit

/-- The puts if each record were looked at alone. -/
def perRecord (cid : ℕ) (records : List Record) : List Put :=
  (f.reached records).filterMap fun r => f.insertOf cid r.deleted r

/-- A record of a known table that is not deleted, and whose value is not that of a deleted key. -/
def Live (r : Record) : Prop := f.verdict r.table = .put ∧ r.deleted = false ∧ r.v ≠ 999

instance (r : Record) : Decidable (f.Live r) := inferInstanceAs (Decidable (_ ∧ _))

/-- No live record stands behind a deleted one. -/
def DeletesLast (records : List Record) : Prop :=
  (f.reached records).Pairwise fun r r' => r.deleted = true → ¬ f.Live r'

instance (records : List Record) : Decidable (f.DeletesLast records) :=
  inferInstanceAs (Decidable (List.Pairwise _ _))

lemma putOf_inj_deleteTrue : f.putOf cid true r = f.putOf cid false r ↔ r.v = 999 := by
  constructor
  · intro h
    obtain ⟨-, hv⟩ := keystoreEncode3_inj (congrArg Put.value h)
    rw [if_pos rfl, if_neg (by decide), Nat.mod_eq_of_lt r.v_lt] at hv
    exact hv.symm
  · intro h
    simp only [putOf, h, ite_self]

/-- A delete in front of a record shows in its put exactly if the record is live. -/
lemma insertOf_or_iff :
    f.insertOf cid (b || r.deleted) r = f.insertOf cid r.deleted r ↔ (b = true → ¬ f.Live r) := by
  unfold insertOf
  by_cases hput : f.verdict r.table = .put
  · rw [if_pos hput, if_pos hput, some.injEq]
    cases b with
    | false => simp only [Bool.false_or, Bool.false_eq_true, false_implies]
    | true =>
      cases hdel : r.deleted with
      | true => simp only [Bool.true_or, Live, hdel, Bool.true_eq_false, false_and, and_false,
          not_false_eq_true, implies_true]
      | false => simp only [Bool.true_or, Live, hdel, hput, true_and, putOf_inj_deleteTrue,
          ne_eq, not_not, true_implies]
  · rw [if_neg hput, if_neg hput]
    simp only [Live, hput, false_and, not_false_eq_true, implies_true]

section

variable (hexit : f.verdict r.table ≠ .exit)

include hexit

lemma reached_cons : f.reached (r :: records) = r :: f.reached records :=
  takeWhile_cons_of_pos (by simpa using hexit)

lemma perRecord_cons : f.perRecord cid (r :: records) =
      (f.insertOf cid r.deleted r).toList ++ f.perRecord cid records := by
  rw [perRecord, f.reached_cons hexit, filterMap_cons]
  cases f.insertOf cid r.deleted r <;> rfl

/-- The first record is put for itself, and so are the others. -/
lemma puts_cons_eq_iff :
    f.puts cid b (r :: records) = f.perRecord cid (r :: records) ↔
      f.insertOf cid (b || r.deleted) r = f.insertOf cid r.deleted r ∧
        f.puts cid (b || r.deleted) records = f.perRecord cid records := by
  have hlen : (f.insertOf cid (b || r.deleted) r).toList.length =
      (f.insertOf cid r.deleted r).toList.length := by
    unfold insertOf
    split <;> rfl
  rw [puts, if_neg hexit, f.perRecord_cons hexit]
  constructor
  · intro h
    obtain ⟨hhead, htail⟩ := append_inj h hlen
    have hinsert := congrArg head? hhead
    rw [head?_toList, head?_toList] at hinsert
    exact ⟨hinsert, htail⟩
  · rintro ⟨hhead, htail⟩
    rw [hhead, htail]

end

lemma puts_eq_perRecord_iff : f.puts cid b records = f.perRecord cid records ↔
      (b = true → ∀ r ∈ f.reached records, ¬ f.Live r) ∧ f.DeletesLast records := by
  induction records generalizing b with
  | nil => simp [puts, perRecord, DeletesLast, reached]
  | cons r records ih =>
    by_cases hexit : f.verdict r.table = .exit
    · simp [puts, perRecord, DeletesLast, reached, hexit]
    · rw [f.puts_cons_eq_iff hexit, insertOf_or_iff, ih, DeletesLast, DeletesLast,
        f.reached_cons hexit, pairwise_cons]
      simp only [Bool.or_eq_true, mem_cons, forall_eq_or_imp]
      -- the flag is set behind the first record if it was before, or if the record is deleted
      constructor
      · rintro ⟨hfirst, hlater, hpairs⟩
        exact ⟨fun hb => ⟨hfirst hb, hlater (.inl hb)⟩,
          fun r' hr' hdel => hlater (.inr hdel) r' hr', hpairs⟩
      · rintro ⟨hbefore, hlater, hpairs⟩
        refine ⟨fun hb => (hbefore hb).1, ?_, hpairs⟩
        rintro (hb | hdel) r' hr'
        · exact (hbefore hb).2 r' hr'
        · exact hlater r' hr' hdel

/-- The call comes to an end and has put each record for itself. -/
def StoresPerRecord (cid : ℕ) (records : List Record) (call : Option Result) : Prop :=
  ∃ res, call = some res ∧ res.puts = f.perRecord cid records

lemma run_storesPerRecord_iff (before after : Bytes) : f.StoresPerRecord cid records
        (f.run (before ++ (records.flatMap Record.encoding ++ after)) before.length records.length
          cid) ↔ f.DeletesLast records := by
  have hstand := standAt_encoding before after records
  rw [show before.length = before.length + 0 * 18 by omega] at hstand
  obtain ⟨res, hloop, hputs⟩ := f.loop_puts cid before.length 0 ⟨false, 1⟩ hstand
  have hiff : res.puts = f.perRecord cid records ↔ f.DeletesLast records := by
    rw [hputs, puts_eq_perRecord_iff]
    simp only [Bool.false_eq_true, false_implies, true_and]
  unfold run StoresPerRecord
  rw [hloop, ← hiff]
  constructor
  · rintro ⟨res', hsome, hper⟩
    cases hsome
    exact hper
  · intro hper
    exact ⟨res, rfl, hper⟩

end Replayer

/-- Each of the three functions stores the records for themselves exactly if no live record stands
behind a deleted one. -/
theorem stores_perRecord_iff (before after : Bytes) (records : List Record) (cid : ℕ)
    (allFilesNames : Finset ℤ) :
    let buffer := before ++ (records.flatMap Record.encoding ++ after)
    ((oz allFilesNames).StoresPerRecord cid records
        (getFileContentOz buffer before.length records.length cid allFilesNames) ↔
      (oz allFilesNames).DeletesLast records) ∧
    (oneLog.StoresPerRecord cid records
        (getFileContentNewOneLogOptimized buffer before.length cid records.length) ↔
      oneLog.DeletesLast records) ∧
    (oneLog.StoresPerRecord cid records
        (getFileContentNewOneLogOptimizedMbta buffer before.length cid records.length) ↔
      oneLog.DeletesLast records) :=
  ⟨(oz allFilesNames).run_storesPerRecord_iff before after,
    oneLog.run_storesPerRecord_iff before after, oneLog.run_storesPerRecord_iff before after⟩

/-- A delete in table 1, and behind it a put of the value 7 into the same table. -/
def deleteThenPut : List Record := [.ofWords 5 3 32769, .ofWords 6 7 1]

/-- The put is stored as a delete. -/
theorem deleteThenPut_not_perRecord :
    let buffer := deleteThenPut.flatMap Record.encoding
    ¬ (oz {1}).StoresPerRecord 10 deleteThenPut (getFileContentOz buffer 0 2 10 {1}) ∧
    ¬ oneLog.StoresPerRecord 10 deleteThenPut (getFileContentNewOneLogOptimized buffer 0 10 2) ∧
    ¬ oneLog.StoresPerRecord 10 deleteThenPut
        (getFileContentNewOneLogOptimizedMbta buffer 0 10 2) := by
  have hoz : ¬ (oz {1}).DeletesLast deleteThenPut := by decide
  have hone : ¬ oneLog.DeletesLast deleteThenPut := by decide
  have hbuffer : deleteThenPut.flatMap Record.encoding =
      [] ++ (deleteThenPut.flatMap Record.encoding ++ []) := rfl
  intro buffer
  rw [show buffer = _ from hbuffer]
  exact ⟨fun h => hoz (((oz {1}).run_storesPerRecord_iff [] []).mp h),
    fun h => hone ((oneLog.run_storesPerRecord_iff [] []).mp h),
    fun h => hone ((oneLog.run_storesPerRecord_iff [] []).mp h)⟩

end Decl

end Rolis.Sto
