import Rolis.Lib.Decimal

/-!
# The text of scanned rows

`follower_client` sends the rows of its tables as text: the table id, the length of the key and the
length of the value in decimal, each with a `|` behind it, and then the bytes of key and value.
`treplay_in_same_thread_scanned_logs` goes through a message with two cursors. `cur`, a `size_t`,
is where it reads; `prev`, an `int`, is where the text of the present number began. Behind each
number `prev` is set first and `cur` is set from it, so the number behind a `|` has to begin below
`2 ^ 31`. A message of `follower_client` has 100 rows at most and stays far below.
-/

namespace Rolis.Replay

open Bytes List Option

/-- A row of a table. -/
structure Row where
  tableId : ℕ
  key : Bytes
  value : Bytes
deriving DecidableEq, Repr

/-! ## Writing -/

/-- The character `|`. -/
def bar : UInt8 := 124

/-- The three numbers in front of a row. -/
def Row.header (r : Row) : Bytes :=
  toDecimal r.tableId ++ bar :: (toDecimal r.key.length ++
    bar :: (toDecimal r.value.length ++ [bar]))

/-- What `follower_client` appends to `msg` for a row. -/
def Row.text (r : Row) : Bytes := r.header ++ (r.key ++ r.value)

/-- The message of a list of rows. -/
def message (rows : List Row) : Bytes := rows.flatMap Row.text

/-! ## Reading -/

/-- The conversion of a `size_t` to `int`. -/
def toInt (n : ℕ) : ℤ := (n : ℤ).bmod (2 ^ 32)

/-- The conversion of an `int` to `size_t`. -/
def toSize (z : ℤ) : ℕ := (z % 2 ^ 64).toNat

/-- What a pointer into the buffer sees; `none` if it points outside. Addresses have 64 bits, and an
offset with the highest bit is in front of the buffer. -/
def pointer (buffer : Bytes) (offset : ℕ) : Option Bytes :=
  if offset < 2 ^ 63 ∧ offset ≤ buffer.length then some (buffer.drop offset) else none

/-- `std::string(buffer + offset, len)`. -/
def copy (buffer : Bytes) (offset len : ℕ) : Option Bytes :=
  (pointer buffer offset).bind fun s => (read len s).map Prod.fst

/-- `while (*(buffer + cur) != '|') cur ++;` -/
def skipToBar (buffer : Bytes) (cur : ℕ) : Option ℕ :=
  (pointer buffer cur).bind fun s => (s.idxOf? bar).map (cur + ·)

/-- One of the steps 1 to 3: the number that begins at `prev`, and both cursors behind its `|`. -/
def readNumber (buffer : Bytes) (prev : ℤ) (cur : ℕ) : Option (ℕ × ℤ × ℕ) := do
  let cur ← skipToBar buffer cur
  let text ← copy buffer (toSize prev) ((cur + 2 ^ 64 - toSize prev) % 2 ^ 64)
  let prev := toInt (cur + 1)
  some (strtoul text % 2 ^ 16, prev, toSize prev)

/-- Steps 1 to 5: a row, and both cursors behind it. -/
def readRow (buffer : Bytes) (prev : ℤ) (cur : ℕ) : Option (Row × ℤ × ℕ) := do
  let (tableId, prev, cur) ← readNumber buffer prev cur
  let (keyLen, prev, cur) ← readNumber buffer prev cur
  let (valueLen, _, cur) ← readNumber buffer prev cur
  let key ← copy buffer cur keyLen
  let cur := cur + keyLen
  let value ← copy buffer cur valueLen
  let cur := cur + valueLen
  some (⟨tableId, key, value⟩, toInt cur, cur)

/-- The loop of `treplay_in_same_thread_scanned_logs`: the rows it puts and where it stops. -/
def scannedLoop (buffer : Bytes) : ℕ → ℤ → ℕ → Option (List Row × ℕ)
  | 0, _, cur => if cur < buffer.length then none else some ([], cur)
  | fuel + 1, prev, cur =>
    if cur < buffer.length then do
      let (row, prev, cur) ← readRow buffer prev cur
      let (rows, stop) ← scannedLoop buffer fuel prev cur
      some (if 20000 < row.tableId ∨ row.tableId < 10000 then rows else row :: rows, stop)
    else some ([], cur)

/-- `treplay_in_same_thread_scanned_logs`, given enough turns, puts the rows and stops at `stop`. -/
def ReplaysScanned (buffer : Bytes) (rows : List Row) (stop : ℕ) : Prop :=
  ∃ fuel, scannedLoop buffer fuel 0 0 = some (rows, stop)

/-! ## Cursors -/

variable {buffer s rest a : Bytes} {n p q : ℕ} {r : Row} {rows : List Row}

/-- From `2 ^ 31` on an `int` is negative, and as a `size_t` it is in front of every buffer. -/
lemma toSize_toInt (h : p < 2 ^ 32) :
    toSize (toInt p) = if p < 2 ^ 31 then p else p + (2 ^ 64 - 2 ^ 32) := by
  unfold toSize toInt
  rw [Int.bmod_def]
  push_cast
  split_ifs <;> omega

lemma toSize_toInt_of_lt (h : p < 2 ^ 31) : toSize (toInt p) = p := by
  rw [toSize_toInt (h.trans (by decide)), if_pos h]

lemma le_toSize_toInt (h : 2 ^ 31 ≤ p) (hlt : p < 2 ^ 32) : 2 ^ 63 ≤ toSize (toInt p) := by
  rw [toSize_toInt hlt, if_neg (Nat.not_lt.mpr h)]
  exact le_trans (by decide) (Nat.le_add_left _ p)

/-- `s` is what the buffer has from `p` on. -/
def At (buffer : Bytes) (p : ℕ) (s : Bytes) : Prop := p ≤ buffer.length ∧ buffer.drop p = s

lemma At.append (h : At buffer p (a ++ s)) : At buffer (p + a.length) s := by
  obtain ⟨hle, hdrop⟩ := h
  have hlen := congrArg length hdrop
  rw [length_drop, length_append] at hlen
  refine ⟨by omega, ?_⟩
  rw [← drop_drop, hdrop, drop_left]

lemma At.pointer (h : At buffer p s) (hp : p < 2 ^ 63) : pointer buffer p = some s := by
  rw [Replay.pointer, if_pos ⟨hp, h.1⟩, h.2]

lemma At.copy (h : At buffer p (a ++ s)) (hp : p < 2 ^ 63) : copy buffer p a.length = some a := by
  rw [Replay.copy, h.pointer hp, bind_some, read_append, map_some]

lemma pointer_of_le (h : 2 ^ 63 ≤ p) : pointer buffer p = none :=
  if_neg fun hp => absurd hp.1 (Nat.not_lt.mpr h)

lemma copy_of_le (h : 2 ^ 63 ≤ p) : copy buffer p n = none := by
  rw [copy, pointer_of_le h, bind_none]

/-! ## Numbers -/

/-- A printed number has no `|` in it. -/
lemma bar_notMem_toDecimal (n : ℕ) : bar ∉ toDecimal n := by
  intro h
  obtain ⟨d, hd, heq⟩ := mem_toDecimal h
  have hval := congrArg UInt8.toNat heq
  rw [toNat_digitChar hd, show bar.toNat = 124 from rfl] at hval
  omega

lemma idxOf?_bar (h : bar ∉ a) : (a ++ bar :: rest).idxOf? bar = some a.length := by
  induction a with
  | nil => rfl
  | cons c a ih =>
    rw [mem_cons, not_or] at h
    obtain ⟨hc, ha⟩ := h
    have hne : (c == bar) = false := beq_false_of_ne (Ne.symm hc)
    rw [cons_append, idxOf?_cons, hne, ih ha]
    rfl

lemma length_toDecimal_le_five (h : n < 2 ^ 16) : (toDecimal n).length ≤ 5 :=
  length_toDecimal_le (by decide) (h.trans (by decide))

/-- A printed number is read, and both cursors go behind its `|`. -/
lemma readNumber_toDecimal (h : At buffer p (toDecimal n ++ bar :: rest)) (hn : n < 2 ^ 16)
    (hp : p < 2 ^ 31) (hq : q = p + (toDecimal n).length + 1) :
    readNumber buffer (toInt p) p = some (n, toInt q, toSize (toInt q)) := by
  have hsmall : p < 2 ^ 63 := hp.trans (by decide)
  have hskip : skipToBar buffer p = some (p + (toDecimal n).length) := by
    rw [skipToBar, h.pointer hsmall, bind_some, idxOf?_bar (bar_notMem_toDecimal n), map_some]
  have hlen := length_toDecimal_le_five hn
  have hsub : (p + (toDecimal n).length + 2 ^ 64 - p) % 2 ^ 64 = (toDecimal n).length := by omega
  have hval : strtoul (toDecimal n) % 2 ^ 16 = n := by
    rw [strtoul_toDecimal (hn.trans (by decide)), Nat.mod_eq_of_lt hn]
  simp only [readNumber, hskip, toSize_toInt_of_lt hp, hsub, h.copy hsmall, hval,
    hq, bind_eq_bind, bind_some]

/-- No number is read from `2 ^ 31` on. -/
lemma readNumber_of_le (h : 2 ^ 31 ≤ p) (hlt : p < 2 ^ 32) (cur : ℕ) :
    readNumber buffer (toInt p) cur = none := by
  simp only [readNumber, copy_of_le (le_toSize_toInt h hlt), bind_eq_bind, bind_none, bind_fun_none]

/-! ## Rows -/

/-- A table id that the reader lets through, and a key and a value with 16-bit lengths. -/
structure Row.Ok (r : Row) : Prop where
  tableId : 10000 ≤ r.tableId ∧ r.tableId ≤ 20000
  key : r.key.length < 2 ^ 16
  value : r.value.length < 2 ^ 16

lemma At.number (h : At buffer p (toDecimal n ++ bar :: rest)) :
    At buffer (p + (toDecimal n).length + 1) rest := by
  have hbar : At buffer (p + (toDecimal n).length) ([bar] ++ rest) := h.append
  exact hbar.append

lemma Row.text_append (r : Row) (rest : Bytes) :
    r.text ++ rest = toDecimal r.tableId ++ bar :: (toDecimal r.key.length ++
      bar :: (toDecimal r.value.length ++ bar :: (r.key ++ (r.value ++ rest)))) := by
  simp only [Row.text, Row.header, append_assoc, cons_append, nil_append]

lemma Row.length_header (r : Row) :
    r.header.length = (toDecimal r.tableId).length + 1 + ((toDecimal r.key.length).length + 1) +
      ((toDecimal r.value.length).length + 1) := by
  simp only [Row.header, length_append, length_cons, length_nil]
  omega

lemma Row.length_header_pos (r : Row) : 0 < r.header.length := by
  rw [r.length_header]
  omega

lemma Row.length_text (r : Row) :
    r.text.length = r.header.length + (r.key.length + r.value.length) := by
  rw [Row.text, length_append, length_append]

lemma Row.Ok.tableId_lt (hr : r.Ok) : r.tableId < 2 ^ 16 :=
  hr.tableId.2.trans_lt (by decide)

lemma Row.Ok.length_header_le (hr : r.Ok) : r.header.length ≤ 18 := by
  have hid := length_toDecimal_le_five hr.tableId_lt
  have hkey := length_toDecimal_le_five hr.key
  have hvalue := length_toDecimal_le_five hr.value
  rw [r.length_header]
  omega

/-- Where the parts of a row are: the length of the key, the length of the value, and the key. -/
lemma At.row (h : At buffer p (r.text ++ rest)) :
    ∃ q₁ q₂ q₃, (q₁ = p + (toDecimal r.tableId).length + 1 ∧
        q₂ = q₁ + (toDecimal r.key.length).length + 1 ∧
        q₃ = q₂ + (toDecimal r.value.length).length + 1 ∧ q₃ = p + r.header.length) ∧
      (∃ s, At buffer p (toDecimal r.tableId ++ bar :: s)) ∧
      (∃ s, At buffer q₁ (toDecimal r.key.length ++ bar :: s)) ∧
      (∃ s, At buffer q₂ (toDecimal r.value.length ++ bar :: s)) ∧
      At buffer q₃ (r.key ++ (r.value ++ rest)) := by
  rw [r.text_append] at h
  refine ⟨_, _, _, ⟨rfl, rfl, rfl, ?_⟩, ⟨_, h⟩, ⟨_, h.number⟩, ⟨_, h.number.number⟩,
    h.number.number.number⟩
  rw [r.length_header]
  omega

/-- A row is read back if its key begins below `2 ^ 31`. -/
lemma readRow_text (hr : r.Ok) (h : At buffer p (r.text ++ rest))
    (hp : p + r.header.length < 2 ^ 31) :
    readRow buffer (toInt p) p = some (r, toInt (p + r.text.length), p + r.text.length) := by
  obtain ⟨q₁, q₂, q₃, ⟨hq₁, hq₂, hq₃, hq⟩, ⟨_, htableId⟩, ⟨_, hkeyLen⟩, ⟨_, hvalueLen⟩, hkey⟩ :=
    h.row
  have hk := hr.key
  have hq₃lt : q₃ < 2 ^ 31 := hq ▸ hp
  have hq₂lt : q₂ < 2 ^ 31 := by omega
  have hq₁lt : q₁ < 2 ^ 31 := by omega
  have hend : p + r.text.length = q₃ + r.key.length + r.value.length := by
    rw [r.length_text]
    omega
  rw [hend, readRow, readNumber_toDecimal htableId hr.tableId_lt (by omega) hq₁,
    bind_eq_bind, bind_some]
  dsimp only
  rw [toSize_toInt_of_lt hq₁lt, readNumber_toDecimal hkeyLen hr.key hq₁lt hq₂, bind_some]
  dsimp only
  rw [toSize_toInt_of_lt hq₂lt, readNumber_toDecimal hvalueLen hr.value hq₂lt hq₃, bind_some]
  dsimp only
  rw [toSize_toInt_of_lt hq₃lt, hkey.copy (by omega), bind_eq_bind, bind_some,
    hkey.append.copy (by omega), bind_some]

/-- A row whose key does not begin below `2 ^ 31` is not read: the first cursor that reaches
`2 ^ 31` is followed by a read in front of the buffer. -/
lemma readRow_of_le (hr : r.Ok) (h : At buffer p (r.text ++ rest))
    (hp : 2 ^ 31 ≤ p + r.header.length) (hlt : p < 2 ^ 31 + 2 ^ 17) :
    readRow buffer (toInt p) p = none := by
  obtain ⟨q₁, q₂, q₃, ⟨hq₁, hq₂, hq₃, hq⟩, ⟨_, htableId⟩, ⟨_, hkeyLen⟩, ⟨_, hvalueLen⟩, -⟩ := h.row
  have hheader := hr.length_header_le
  have hq₃le : 2 ^ 31 ≤ q₃ := hq ▸ hp
  have hq₃lt : q₃ < 2 ^ 32 := by omega
  have hq₂le : q₂ ≤ q₃ := by omega
  have hq₁le : q₁ ≤ q₂ := by omega
  have hple : p ≤ q₁ := by omega
  rw [readRow]
  rcases le_or_gt (2 ^ 31) p with hge | hplt
  · rw [readNumber_of_le hge (by omega), bind_eq_bind, bind_none]
  rw [readNumber_toDecimal htableId hr.tableId_lt hplt hq₁, bind_eq_bind, bind_some]
  dsimp only
  rcases le_or_gt (2 ^ 31) q₁ with hge | hq₁lt
  · rw [readNumber_of_le hge (by omega), bind_none]
  rw [toSize_toInt_of_lt hq₁lt, readNumber_toDecimal hkeyLen hr.key hq₁lt hq₂, bind_some]
  dsimp only
  rcases le_or_gt (2 ^ 31) q₂ with hge | hq₂lt
  · rw [readNumber_of_le hge (by omega), bind_none]
  rw [toSize_toInt_of_lt hq₂lt, readNumber_toDecimal hvalueLen hr.value hq₂lt hq₃, bind_some]
  dsimp only
  rw [copy_of_le (le_toSize_toInt hq₃le hq₃lt), bind_eq_bind, bind_none]

/-! ## The loop -/

lemma length_le_length_message (rows : List Row) : rows.length ≤ (message rows).length := by
  induction rows with
  | nil => exact Nat.zero_le _
  | cons r rows ih =>
    have hpos := r.length_header_pos
    rw [message, flatMap_cons, length_append, r.length_text, length_cons]
    rw [message] at ih
    omega

/-- Every key of the message begins below `2 ^ 31` if the message begins at `p`. -/
def KeysBelow : ℕ → List Row → Prop
  | _, [] => True
  | p, r :: rows => p + r.header.length < 2 ^ 31 ∧ KeysBelow (p + r.text.length) rows

lemma At.lt_length (h : At buffer p (a ++ s)) (ha : 0 < a.length) : p < buffer.length := by
  have hle := h.append.1
  omega

section

variable (hrows : ∀ r ∈ rows, r.Ok)

include hrows

/-- Rows whose keys begin below `2 ^ 31` are put one by one, and the loop stops at the end. -/
lemma scannedLoop_message (h : At buffer p (message rows)) (hp : KeysBelow p rows) {fuel : ℕ}
    (hfuel : rows.length ≤ fuel) :
    scannedLoop buffer fuel (toInt p) p = some (rows, buffer.length) := by
  induction rows generalizing p fuel with
  | nil =>
    have hlen := congrArg length h.2
    have hle := h.1
    rw [length_drop, message, flatMap_nil, length_nil] at hlen
    obtain rfl : p = buffer.length := by omega
    cases fuel with
    | zero | succ fuel => rw [scannedLoop, if_neg (lt_irrefl _)]
  | cons r rows ih =>
    obtain ⟨fuel, rfl⟩ := Nat.exists_eq_add_one_of_ne_zero (Nat.ne_zero_of_lt hfuel)
    have hr := hrows r mem_cons_self
    have htail := ih (fun r' hr' => hrows r' (mem_cons_of_mem r hr')) h.append hp.2
      (Nat.le_of_succ_le_succ hfuel)
    have hid : ¬(20000 < r.tableId ∨ r.tableId < 10000) := by
      have := hr.tableId
      omega
    have hlt := h.lt_length (by rw [r.length_text]; have := r.length_header_pos; omega)
    simp only [scannedLoop, if_pos hlt, readRow_text hr h hp.1, htail, if_neg hid,
      bind_eq_bind, bind_some]

/-- With a key that does not begin below `2 ^ 31` the reader leaves the buffer. -/
lemma scannedLoop_eq_none (h : At buffer p (message rows)) (hp : ¬KeysBelow p rows)
    (hlt : p < 2 ^ 31 + 2 ^ 17) (fuel : ℕ) : scannedLoop buffer fuel (toInt p) p = none := by
  induction rows generalizing p fuel with
  | nil => exact absurd trivial hp
  | cons r rows ih =>
    have hr := hrows r mem_cons_self
    have hpos := h.lt_length (by rw [r.length_text]; have := r.length_header_pos; omega)
    cases fuel with
    | zero => rw [scannedLoop, if_pos hpos]
    | succ fuel =>
      rw [scannedLoop, if_pos hpos]
      by_cases hkey : p + r.header.length < 2 ^ 31
      · have hk := hr.key
        have hv := hr.value
        have htail := ih (fun r' hr' => hrows r' (mem_cons_of_mem r hr')) h.append
          (fun hrest => hp ⟨hkey, hrest⟩) (by rw [r.length_text]; omega) fuel
        simp only [readRow_text hr h hkey, htail, bind_eq_bind, bind_some, bind_none]
      · rw [readRow_of_le hr h (Nat.not_lt.mp hkey) hlt, bind_eq_bind, bind_none]

lemma KeysBelow.of_length (h : p + rows.length * (18 + 2 * 2 ^ 16) < 2 ^ 31) :
    KeysBelow p rows := by
  induction rows generalizing p with
  | nil => trivial
  | cons r rows ih =>
    have hr := hrows r mem_cons_self
    have hheader := hr.length_header_le
    have hk := hr.key
    have hv := hr.value
    rw [length_cons] at h
    refine ⟨by omega, ih (fun r' hr' => hrows r' (mem_cons_of_mem r hr')) ?_⟩
    rw [r.length_text]
    omega

/-- A message of at most 100 rows, with a turn of the loop for each of its bytes. -/
lemma scannedLoop_of_length (hlen : rows.length ≤ 100) :
    scannedLoop (message rows) (message rows).length 0 0 = some (rows, (message rows).length) := by
  have hat : At (message rows) 0 (message rows) := ⟨Nat.zero_le _, drop_zero⟩
  have hzero : toInt 0 = 0 := Int.zero_bmod
  rw [← hzero]
  exact scannedLoop_message hrows hat (.of_length hrows (by omega)) (length_le_length_message rows)

lemma replaysScanned_iff :
    ReplaysScanned (message rows) rows (message rows).length ↔ KeysBelow 0 rows := by
  have hat : At (message rows) 0 (message rows) := ⟨Nat.zero_le _, drop_zero⟩
  have hzero : toInt 0 = 0 := Int.zero_bmod
  refine ⟨?_, fun h => ⟨rows.length, hzero ▸ scannedLoop_message hrows hat h le_rfl⟩⟩
  rintro ⟨fuel, hloop⟩
  by_contra hkeys
  have hnone := scannedLoop_eq_none hrows hat hkeys (by omega) fuel
  rw [hzero, hloop] at hnone
  cases hnone

end

/-- The reader puts exactly the rows of a message and stops at its end if and only if every key
begins below `2 ^ 31`, and so for the messages of at most 100 rows that `follower_client` sends. -/
theorem replaysScanned_message (rows : List Row) (hrows : ∀ r ∈ rows, r.Ok) :
    (ReplaysScanned (message rows) rows (message rows).length ↔ KeysBelow 0 rows) ∧
      (rows.length ≤ 100 → ReplaysScanned (message rows) rows (message rows).length) := by
  refine ⟨replaysScanned_iff hrows, fun hlen => (replaysScanned_iff hrows).mpr ?_⟩
  exact .of_length hrows (by omega)

/-- A row of a key and a value that hold digits and bars. -/
def barRow : Row := ⟨10001, [49, 124, 50, 124], [124, 124, 51]⟩

theorem replaysScanned_message_barRow :
    ReplaysScanned (message [barRow, barRow]) [barRow, barRow] (message [barRow, barRow]).length :=
  (replaysScanned_message [barRow, barRow] (by
    intro r hr
    obtain rfl : r = barRow := by simpa using hr
    exact ⟨by decide, by decide, by decide⟩)).2 (by decide)

/-- A row with the longest key and value. -/
def longestRow : Row := ⟨10001, List.replicate (2 ^ 16 - 1) 0, List.replicate (2 ^ 16 - 1) 0⟩

lemma length_longestRow :
    longestRow.key.length = 2 ^ 16 - 1 ∧ longestRow.value.length = 2 ^ 16 - 1 :=
  ⟨length_replicate, length_replicate⟩

lemma longestRow_ok : longestRow.Ok where
  tableId := by decide
  key := by rw [length_longestRow.1]; decide
  value := by rw [length_longestRow.2]; decide

lemma KeysBelow.replicate (h : KeysBelow p (replicate (n + 1) r)) :
    p + n * r.text.length < 2 ^ 31 := by
  induction n generalizing p with
  | zero =>
    have hlt := h.1
    omega
  | succ n ih =>
    have hlt := ih h.2
    rw [Nat.succ_mul]
    omega

lemma ok_of_mem_replicate (hr : r.Ok) (n : ℕ) : ∀ r' ∈ replicate n r, r'.Ok := by
  intro r' hr'
  rw [eq_of_mem_replicate hr']
  exact hr

lemma not_replaysScanned_replicate (hr : r.Ok) (h : 2 ^ 31 ≤ n * r.text.length) :
    ¬ReplaysScanned (message (replicate (n + 1) r)) (replicate (n + 1) r)
      (message (replicate (n + 1) r)).length := by
  rw [replaysScanned_iff (ok_of_mem_replicate hr _)]
  intro hkeys
  have hlt := hkeys.replicate
  omega

/-- Seventeen thousand such rows make a message beyond `2 ^ 31` bytes. -/
theorem not_replaysScanned_longestRow :
    ∃ rows, (∀ r ∈ rows, r.Ok) ∧ ¬ReplaysScanned (message rows) rows (message rows).length := by
  refine ⟨_, ok_of_mem_replicate longestRow_ok _, not_replaysScanned_replicate (n := 16999)
    longestRow_ok ?_⟩
  rw [Row.length_text, length_longestRow.1, length_longestRow.2]
  omega

end Rolis.Replay
