import Rolis.Replay.Scanned

/-!
# The scan of a table for a rejoining replica

`follower_client` sends a table in chunks of 100 rows, each read by a transaction of its own. A
chunk begins at the last key that the one before it has seen, with a flag in the callback that skips
this key, and the loop ends with the first chunk that brings no row. Between two chunks replay may
put keys, and it removes none.
-/

namespace Rolis.Replay

open List

/-- The rows of a table in the order of their keys. -/
structure Table where
  rows : List (Bytes × Bytes)
  sorted : rows.Pairwise fun a b => a.1 < b.1

namespace Table

/-- The keys of a table. -/
def keys (t : Table) : List Bytes := t.rows.map Prod.fst

/-- What the tree reports of the keys from `start` up to `stop`. -/
def range (t : Table) (start stop : Bytes) : List (Bytes × Bytes) :=
  t.rows.filter fun row => start ≤ row.1 ∧ row.1 < stop

end Table

/-! ## The callback -/

/-- `new_scan_callback_bench`. -/
structure ScanCallback where
  values : List (Bytes × Bytes)
  skipFirstrow : Bool
  limit : ℕ

/-- `new_scan_callback_bench::invoke`: whether the scan goes on. -/
def ScanCallback.invoke (c : ScanCallback) (row : Bytes × Bytes) : Bool × ScanCallback :=
  if c.values = [] ∧ c.skipFirstrow then (true, { c with skipFirstrow := false })
  else
    let c := { c with values := c.values ++ [row] }
    (c.values.length ≠ c.limit, c)

/-- `scan_iter` over the rows that the tree reports; it answers the last key it has seen. -/
def scanIter (endIter : Bytes) (c : ScanCallback) : List (Bytes × Bytes) → Bytes × ScanCallback
  | [] => (endIter, c)
  | row :: rows =>
    match c.invoke row with
    | (true, c) => scanIter row.1 c rows
    | (false, c) => (row.1, c)

/-! ## The loop -/

/-- The variables of the loop over the chunks of a table. `sent` are the rows of the messages. -/
structure ScanLoop where
  startKey : Bytes
  startBulk : Bool
  sent : List (List Row)
  done : Bool

namespace ScanLoop

/-- The loop at its begin. -/
def init : ScanLoop := ⟨[0], true, [], false⟩

/-- One turn of the loop; a message without text is not sent. -/
def chunk (tableId : ℕ) (t : Table) (s : ScanLoop) : ScanLoop :=
  let (endIter, c) := scanIter [] ⟨[], !s.startBulk, 100⟩ (t.range s.startKey [255])
  let rows := c.values.map fun (key, value) => ⟨tableId, key, value⟩
  { startKey := endIter
    startBulk := false
    sent := if (message rows).length > 0 then s.sent ++ [rows] else s.sent
    done := c.values.length = 0 }

/-- The loop after at most `n` turns, where the turn `m` finds the table `tables m`. -/
def run (tableId : ℕ) (tables : ℕ → Table) : ℕ → ScanLoop
  | 0 => init
  | n + 1 => if (run tableId tables n).done then run tableId tables n
    else chunk tableId (tables n) (run tableId tables n)

/-- The keys that have been sent. -/
def sentKeys (s : ScanLoop) : List Bytes := s.sent.flatten.map Row.key

/-- The key is still to be sent. -/
def Ahead (s : ScanLoop) (k : Bytes) : Prop :=
  if s.startBulk then s.startKey ≤ k else s.startKey < k

instance (s : ScanLoop) (k : Bytes) : Decidable (s.Ahead k) := by
  unfold Ahead; infer_instance

/-- The rows of a table that are still to be sent. -/
def rest (s : ScanLoop) (t : Table) : List (Bytes × Bytes) :=
  t.rows.filter fun row => s.Ahead row.1 ∧ row.1 < [255]

end ScanLoop

/-! ## What one scan brings -/

variable {c : ScanCallback} {rows l : List (Bytes × Bytes)} {row : Bytes × Bytes} {e a : Bytes}
  {limit : ℕ}

/-- The key of the last row, or `e` if there is none. -/
def lastKey (e : Bytes) (rows : List (Bytes × Bytes)) : Bytes := (rows.getLast?.map Prod.fst).getD e

@[simp] lemma lastKey_nil (e : Bytes) : lastKey e [] = e := rfl

@[simp] lemma lastKey_cons (e : Bytes) (row : Bytes × Bytes) (rows : List (Bytes × Bytes)) :
    lastKey e (row :: rows) = lastKey row.1 rows := by
  rw [lastKey, lastKey, getLast?_cons]
  cases rows.getLast? <;> rfl

lemma exists_lastKey_eq (e : Bytes) (h : rows ≠ []) : ∃ row ∈ rows, lastKey e rows = row.1 := by
  refine ⟨rows.getLast h, getLast_mem h, ?_⟩
  rw [lastKey, getLast?_eq_some_getLast h, Option.map_some, Option.getD_some]

/-- The last key of sorted rows is the largest one. -/
lemma le_lastKey (hsorted : rows.Pairwise fun a b => a.1 < b.1) (h : row ∈ rows) :
    row.1 ≤ lastKey e rows := by
  induction rows generalizing e with
  | nil => cases h
  | cons r rows ih =>
    obtain ⟨hr, hrows⟩ := pairwise_cons.mp hsorted
    rw [lastKey_cons]
    rcases mem_cons.mp h with rfl | h
    · by_cases hnil : rows = []
      · rw [hnil, lastKey_nil]
      · obtain ⟨last, hlast, heq⟩ := exists_lastKey_eq row.1 hnil
        rw [heq]
        exact (hr last hlast).le
    · exact ih hrows h

/-- A scan that skips nothing collects rows up to the limit. -/
lemma scanIter_of_not_skip (hskip : c.skipFirstrow = false) (hlen : c.values.length < c.limit) :
    scanIter e c rows = (lastKey e (rows.take (c.limit - c.values.length)),
      { c with values := c.values ++ rows.take (c.limit - c.values.length) }) := by
  induction rows generalizing c e with
  | nil => rw [scanIter, take_nil, append_nil, lastKey_nil]
  | cons row rows ih =>
    obtain ⟨n, hn⟩ : ∃ n, c.limit - c.values.length = n + 1 := ⟨_, (Nat.succ_pred (by omega)).symm⟩
    have hinvoke : c.invoke row =
        (decide (c.values.length + 1 ≠ c.limit), { c with values := c.values ++ [row] }) := by
      simp only [ScanCallback.invoke, hskip, Bool.false_eq_true, and_false, if_false,
        length_append, length_singleton]
    rw [scanIter, hinvoke, hn, take_succ_cons, lastKey_cons]
    by_cases hlast : c.values.length + 1 = c.limit
    · obtain rfl : n = 0 := by omega
      simp only [hlast, ne_eq, not_true_eq_false, decide_false, take_zero, lastKey_nil]
    · have hlt : (c.values ++ [row]).length < c.limit := by
        rw [length_append, length_singleton]
        omega
      have hrest : c.limit - (c.values ++ [row]).length = n := by
        rw [length_append, length_singleton]
        omega
      have htail := ih (c := { c with values := c.values ++ [row] }) (e := row.1) hskip hlt
      rw [hrest] at htail
      simp only [hlast, ne_eq, not_false_eq_true, decide_true, htail, append_assoc,
        singleton_append]

/-- The first row is skipped if the callback says so. -/
lemma scanIter_skip (limit : ℕ) (row : Bytes × Bytes) (rows : List (Bytes × Bytes)) :
    scanIter e ⟨[], true, limit⟩ (row :: rows) = scanIter row.1 ⟨[], false, limit⟩ rows := rfl

lemma scanIter_nil_values (hlimit : 0 < limit) (rows : List (Bytes × Bytes)) :
    scanIter e ⟨[], false, limit⟩ rows =
      (lastKey e (rows.take limit), ⟨rows.take limit, false, limit⟩) :=
  scanIter_of_not_skip rfl hlimit

/-- A scan collects rows up to the limit, without the first one if it is to be skipped. -/
lemma values_scanIter (skip : Bool) (hlimit : 0 < limit) (rows : List (Bytes × Bytes)) :
    (scanIter e ⟨[], skip, limit⟩ rows).2.values = (rows.drop skip.toNat).take limit := by
  cases skip with
  | false => rw [scanIter_nil_values hlimit, Bool.toNat_false, drop_zero]
  | true =>
    cases rows with
    | nil => rw [scanIter, drop_nil, take_nil]
    | cons row rows => rw [scanIter_skip, scanIter_nil_values hlimit]; rfl

/-- A scan that collects a row answers the key of the last one. -/
lemma endIter_scanIter (skip : Bool) (hlimit : 0 < limit)
    (h : (rows.drop skip.toNat).take limit ≠ []) :
    (scanIter e ⟨[], skip, limit⟩ rows).1 = lastKey [] ((rows.drop skip.toNat).take limit) := by
  have hany {e : Bytes} {l : List (Bytes × Bytes)} (hl : l ≠ []) : lastKey e l = lastKey [] l := by
    obtain ⟨row, rows, rfl⟩ := exists_cons_of_ne_nil hl
    rw [lastKey_cons, lastKey_cons]
  cases skip with
  | false =>
    rw [scanIter_nil_values hlimit]
    exact hany h
  | true =>
    cases rows with
    | nil => exact absurd take_nil h
    | cons row rows =>
      rw [scanIter_skip, scanIter_nil_values hlimit]
      exact hany h

/-- Without its first row, a range that begins at a present key has the keys behind it. -/
lemma Table.drop_range (t : Table) {stop : Bytes} (ha : a ∈ t.keys) (hstop : a < stop) :
    (t.range a stop).drop 1 = t.rows.filter fun row => a < row.1 ∧ row.1 < stop := by
  obtain ⟨rows, hsorted⟩ := t
  simp only [Table.keys, Table.range] at ha ⊢
  induction rows with
  | nil => rfl
  | cons row rows ih =>
    obtain ⟨hrow, hrows⟩ := pairwise_cons.mp hsorted
    rw [map_cons, mem_cons] at ha
    rcases ha with rfl | ha
    · have heq : (rows.filter fun r => row.1 ≤ r.1 ∧ r.1 < stop) =
          rows.filter fun r => row.1 < r.1 ∧ r.1 < stop := by
        refine filter_congr fun r hr => ?_
        simp only [(hrow r hr).le, hrow r hr]
      rw [filter_cons_of_pos (by simp [hstop]), filter_cons_of_neg (by simp),
        drop_one, tail_cons, heq]
    · obtain ⟨r, hr, rfl⟩ := mem_map.mp ha
      have hlt := hrow r hr
      rw [filter_cons_of_neg (by simp [hlt]), filter_cons_of_neg (by simp [hlt.le]),
        ih hrows (mem_map_of_mem hr)]

/-! ## What one turn of the loop does -/

namespace ScanLoop

variable {s : ScanLoop} {t : Table} {tableId : ℕ} {k a b : Bytes} {row : Bytes × Bytes}

/-- The loop begins with the first key, or goes on at a key that the table has. -/
def Placed (s : ScanLoop) (t : Table) : Prop :=
  s.startBulk = false → s.startKey ∈ t.keys ∧ s.startKey < [255]

/-- The rows that a turn collects. -/
def values (s : ScanLoop) (t : Table) : List (Bytes × Bytes) := (s.rest t).take 100

lemma mem_rest : row ∈ s.rest t ↔ row ∈ t.rows ∧ s.Ahead row.1 ∧ row.1 < [255] := by
  rw [rest, mem_filter, decide_eq_true_iff]

lemma pairwise_rest (s : ScanLoop) (t : Table) : (s.rest t).Pairwise fun a b => a.1 < b.1 :=
  t.sorted.filter _

lemma drop_range_eq_rest (h : s.Placed t) :
    (t.range s.startKey [255]).drop (!s.startBulk).toNat = s.rest t := by
  cases hbulk : s.startBulk with
  | true =>
    rw [Bool.not_true, Bool.toNat_false, drop_zero]
    simp only [Table.range, rest, Ahead, hbulk, if_true]
  | false =>
    obtain ⟨hmem, hlt⟩ := h hbulk
    rw [Bool.not_false, Bool.toNat_true, t.drop_range hmem hlt]
    simp only [rest, Ahead, hbulk, Bool.false_eq_true, if_false]

lemma message_pos_iff {rows : List Row} : (message rows).length > 0 ↔ rows ≠ [] := by
  cases rows with
  | nil => simp [message]
  | cons r rows =>
    have hpos := r.length_header_pos
    rw [message, flatMap_cons, length_append, r.length_text]
    refine iff_of_true (by omega) (cons_ne_nil _ _)

lemma values_chunk (h : s.Placed t) :
    (scanIter [] ⟨[], !s.startBulk, 100⟩ (t.range s.startKey [255])).2.values = s.values t := by
  rw [values_scanIter _ (by decide), drop_range_eq_rest h, values]

/-- The rows of a message. -/
def toRows (tableId : ℕ) (values : List (Bytes × Bytes)) : List Row :=
  values.map fun (key, value) => ⟨tableId, key, value⟩

/-- A turn that collects nothing ends the loop. -/
lemma chunk_of_nil (tableId : ℕ) (h : s.Placed t) (hnil : s.values t = []) :
    (s.chunk tableId t).done = true ∧ (s.chunk tableId t).sent = s.sent := by
  have hvalues := (values_chunk h).trans hnil
  simp only [chunk, hvalues, length_nil, decide_true, map_nil, message_pos_iff, ne_eq,
    not_true_eq_false, if_false, and_self]

/-- A turn that collects rows sends them and goes on behind the last one. -/
lemma chunk_of_ne_nil (h : s.Placed t) (hne : s.values t ≠ []) : s.chunk tableId t =
      ⟨lastKey [] (s.values t), false, s.sent ++ [toRows tableId (s.values t)], false⟩ := by
  have hvalues := values_chunk h
  have hlast : (scanIter [] ⟨[], !s.startBulk, 100⟩ (t.range s.startKey [255])).1 =
      lastKey [] (s.values t) := by
    have hrest : ((t.range s.startKey [255]).drop (!s.startBulk).toNat).take 100 = s.values t := by
      rw [drop_range_eq_rest h, values]
    rw [endIter_scanIter _ (by decide) (hrest ▸ hne), hrest]
  simp only [chunk, hvalues, hlast, message_pos_iff, ne_eq, map_eq_nil_iff, hne,
    not_false_eq_true, if_true, length_eq_zero_iff, decide_false, toRows]

/-! ## The invariant of the loop -/

/-- Rows of the table as one of the first `n` turns found it. -/
def Found (tableId : ℕ) (tables : ℕ → Table) (n : ℕ) (rows : List Row) : Prop :=
  rows.length ≤ 100 ∧
    ∀ r ∈ rows, r.tableId = tableId ∧ ∃ m < n, (r.key, r.value) ∈ (tables m).rows

/-- The keys that were there at the begin have been sent or are still ahead. -/
structure Ok (tableId : ℕ) (tables : ℕ → Table) (n : ℕ) (s : ScanLoop) : Prop where
  placed : s.done = false → s.Placed (tables n)
  sorted : s.sentKeys.Pairwise (· < ·)
  behind : s.done = false → ∀ k ∈ s.sentKeys, ¬s.Ahead k
  complete : ∀ k ∈ (tables 0).keys, [0] ≤ k → k < [255] →
    k ∈ s.sentKeys ∨ s.done = false ∧ s.Ahead k
  found : ∀ rows ∈ s.sent, Found tableId tables n rows

variable {tables : ℕ → Table} {n : ℕ}

lemma Found.succ {rows : List Row} (h : Found tableId tables n rows) :
    Found tableId tables (n + 1) rows := by
  refine ⟨h.1, fun r hr => ?_⟩
  obtain ⟨hid, m, hm, hmem⟩ := h.2 r hr
  exact ⟨hid, m, hm.trans (Nat.lt_succ_self n), hmem⟩

lemma init_ok (tableId : ℕ) (tables : ℕ → Table) : Ok tableId tables 0 init where
  placed := fun _ hbulk => by cases hbulk
  sorted := List.Pairwise.nil
  behind := fun _ k hk => by cases hk
  complete := fun k _ hle _ => .inr ⟨rfl, hle⟩
  found := fun rows hrows => by cases hrows

lemma Ahead.mono (h : s.Ahead a) (hab : a ≤ b) : s.Ahead b := by
  unfold Ahead at h ⊢
  split at h
  · next hbulk =>
    rw [if_pos hbulk]
    exact h.trans hab
  · next hbulk =>
    rw [if_neg hbulk]
    exact h.trans_le hab

lemma lt_of_ahead (ha : ¬s.Ahead a) (hb : s.Ahead b) : a < b := by
  by_contra hlt
  exact ha (hb.mono (not_lt.mp hlt))

/-- Tables in which keys are put and never removed. -/
def Grows (tables : ℕ → Table) : Prop := ∀ n, (tables n).keys ⊆ (tables (n + 1)).keys

lemma Grows.mono (h : Grows tables) {m : ℕ} (hmn : m ≤ n) : (tables m).keys ⊆ (tables n).keys := by
  induction n, hmn using Nat.le_induction with
  | base => exact List.Subset.refl _
  | succ n _ ih => exact fun _ hk => h n (ih hk)

lemma map_key_toRows (tableId : ℕ) (values : List (Bytes × Bytes)) :
    (toRows tableId values).map Row.key = values.map Prod.fst := by
  rw [toRows, map_map]
  rfl

lemma mem_values (h : row ∈ s.values t) : row ∈ t.rows ∧ s.Ahead row.1 ∧ row.1 < [255] :=
  mem_rest.mp (mem_of_mem_take h)

/-- A turn that sends rows keeps the invariant. -/
lemma Ok.send (hok : Ok tableId tables n s) (hgrows : Grows tables) (hdone : s.done = false)
    (hne : s.values (tables n) ≠ []) :
    Ok tableId tables (n + 1) ⟨lastKey [] (s.values (tables n)), false,
      s.sent ++ [toRows tableId (s.values (tables n))], false⟩ := by
  obtain ⟨row, hrow, hlastKey⟩ := exists_lastKey_eq [] hne
  have hsplit : s.rest (tables n) = s.values (tables n) ++ (s.rest (tables n)).drop 100 :=
    (take_append_drop 100 _).symm
  have hpairwise := s.pairwise_rest (tables n)
  rw [hsplit, pairwise_append] at hpairwise
  obtain ⟨hinner, -, houter⟩ := hpairwise
  have hkeys : sentKeys ⟨lastKey [] (s.values (tables n)), false,
      s.sent ++ [toRows tableId (s.values (tables n))], false⟩ =
      s.sentKeys ++ (s.values (tables n)).map Prod.fst := by
    simp only [sentKeys, flatten_append, flatten_singleton, map_append, map_key_toRows]
  have hcross : ∀ a ∈ s.sentKeys, ∀ r ∈ s.values (tables n), a < r.1 := fun a ha r hr =>
    lt_of_ahead (hok.behind hdone a ha) (mem_values hr).2.1
  constructor
  case placed =>
    intro _ _
    rw [hlastKey]
    exact ⟨hgrows n (mem_map_of_mem (mem_values hrow).1), (mem_values hrow).2.2⟩
  case sorted =>
    rw [hkeys, pairwise_append]
    refine ⟨hok.sorted, pairwise_map.mpr hinner, fun a ha b hb => ?_⟩
    obtain ⟨r, hr, rfl⟩ := mem_map.mp hb
    exact hcross a ha r hr
  case behind =>
    intro _ k hk
    rw [hkeys, mem_append] at hk
    refine not_lt.mpr ?_
    rcases hk with hk | hk
    · exact hlastKey ▸ (hcross k hk row hrow).le
    · obtain ⟨r, hr, rfl⟩ := mem_map.mp hk
      exact le_lastKey hinner hr
  case complete =>
    intro k hk hle hlt
    rw [hkeys, mem_append]
    rcases hok.complete k hk hle hlt with hsent | ⟨-, hahead⟩
    · exact .inl (.inl hsent)
    obtain ⟨r, hr, rfl⟩ := mem_map.mp (hgrows.mono (Nat.zero_le n) hk)
    have hrest : r ∈ s.rest (tables n) := mem_rest.mpr ⟨hr, hahead, hlt⟩
    rw [hsplit, mem_append] at hrest
    rcases hrest with hr | hr
    · exact .inl (.inr (mem_map_of_mem hr))
    · exact .inr ⟨rfl, hlastKey ▸ houter row hrow r hr⟩
  case found =>
    intro rows hrows
    rcases mem_append.mp hrows with hrows | hrows
    · exact (hok.found rows hrows).succ
    · rw [mem_singleton.mp hrows]
      refine ⟨by rw [toRows, length_map, values, length_take]; omega, fun r hr => ?_⟩
      obtain ⟨v, hv, rfl⟩ := mem_map.mp hr
      exact ⟨rfl, n, Nat.lt_succ_self n, (mem_values hv).1⟩

/-- A turn that collects nothing has nothing left to send. -/
lemma Ok.finish (hok : Ok tableId tables n s) (hgrows : Grows tables)
    (hnil : s.values (tables n) = []) {s' : ScanLoop} (hdone : s'.done = true)
    (hsent : s'.sent = s.sent) : Ok tableId tables (n + 1) s' := by
  have hkeys : s'.sentKeys = s.sentKeys := by rw [sentKeys, hsent, sentKeys]
  have hlive {p : Prop} (h : s'.done = false) : p := by
    rw [hdone] at h
    cases h
  constructor
  case placed => exact hlive
  case sorted => exact hkeys ▸ hok.sorted
  case behind => exact hlive
  case complete =>
    intro k hk hle hlt
    rw [hkeys]
    rcases hok.complete k hk hle hlt with hsent | ⟨-, hahead⟩
    · exact .inl hsent
    -- the turn would have collected this key
    obtain ⟨r, hr, rfl⟩ := mem_map.mp (hgrows.mono (Nat.zero_le n) hk)
    have hrest : r ∈ s.rest (tables n) := mem_rest.mpr ⟨hr, hahead, hlt⟩
    rcases take_eq_nil_iff.mp hnil with h | h
    · cases h
    · rw [h] at hrest
      cases hrest
  case found =>
    intro rows hrows
    rw [hsent] at hrows
    exact (hok.found rows hrows).succ

/-- A loop that has ended stays as it is. -/
lemma Ok.stay (hok : Ok tableId tables n s) (hdone : s.done = true) :
    Ok tableId tables (n + 1) s where
  placed := fun h => by rw [hdone] at h; cases h
  sorted := hok.sorted
  behind := hok.behind
  complete := hok.complete
  found := fun rows hrows => (hok.found rows hrows).succ

lemma run_ok (tableId : ℕ) (hgrows : Grows tables) (n : ℕ) :
    Ok tableId tables n (run tableId tables n) := by
  induction n with
  | zero => exact init_ok tableId tables
  | succ n ih =>
    rw [run]
    split
    · next hdone => exact ih.stay hdone
    · next hdone =>
      have hlive := Bool.eq_false_iff.mpr hdone
      have hplaced := ih.placed hlive
      by_cases hnil : (run tableId tables n).values (tables n) = []
      · obtain ⟨hend, hsent⟩ := chunk_of_nil tableId hplaced hnil
        exact ih.finish hgrows hnil hend hsent
      · rw [chunk_of_ne_nil hplaced hnil]
        exact ih.send hgrows hlive hnil

/-! ## Termination -/

/-- The number of keys of a list that are ahead. -/
def left (s : ScanLoop) (keys : List Bytes) : ℕ :=
  (keys.filter fun k => s.Ahead k ∧ k < [255]).length

/-- A turn that does not end the loop leaves fewer keys. -/
lemma left_chunk_lt (tableId : ℕ) (hplaced : s.Placed t) {keys : List Bytes}
    (hkeys : t.keys ⊆ keys) (hdone : (s.chunk tableId t).done = false) :
    (s.chunk tableId t).left keys < s.left keys := by
  have hne : s.values t ≠ [] := by
    intro hnil
    rw [(chunk_of_nil tableId hplaced hnil).1] at hdone
    cases hdone
  obtain ⟨row, hrow, hlast⟩ := exists_lastKey_eq [] hne
  obtain ⟨hmem, hahead, hlt⟩ := mem_values hrow
  rw [chunk_of_ne_nil hplaced hne, hlast, left, left]
  set new : ScanLoop := ⟨row.1, false, s.sent ++ [toRows tableId (s.values t)], false⟩
  have hnew {k : Bytes} : new.Ahead k ↔ row.1 < k := Iff.rfl
  have hsub : (keys.filter fun k => new.Ahead k ∧ k < [255]) =
      (keys.filter fun k => s.Ahead k ∧ k < [255]).filter fun k => row.1 < k := by
    rw [filter_filter]
    refine filter_congr fun k _ => ?_
    rw [← Bool.decide_and, decide_eq_decide, hnew]
    exact ⟨fun h => ⟨h.1, hahead.mono h.1.le, h.2⟩, fun h => ⟨h.1, h.2.2⟩⟩
  rw [hsub, length_filter_lt_length_iff_exists]
  refine ⟨row.1, mem_filter.mpr ⟨hkeys (mem_map_of_mem hmem), ?_⟩, ?_⟩
  · exact decide_eq_true ⟨hahead, hlt⟩
  · simp

/-- The loop ends if from some turn on no keys are added. -/
lemma exists_done (tableId : ℕ) (hgrows : Grows tables) {N : ℕ}
    (hstop : ∀ n, N ≤ n → (tables (n + 1)).keys ⊆ (tables n).keys) :
    ∃ n, (run tableId tables n).done = true := by
  have hkeys {n : ℕ} (hn : N ≤ n) : (tables n).keys ⊆ (tables N).keys := by
    induction n, hn using Nat.le_induction with
    | base => exact List.Subset.refl _
    | succ n hn ih => exact fun _ hk => ih (hstop n hn hk)
  -- by induction on a bound of the keys that are left
  have hbound (m : ℕ) : ∀ n, N ≤ n → (run tableId tables n).left (tables N).keys < m →
      ∃ n, (run tableId tables n).done = true := by
    induction m with
    | zero => exact fun n _ h => absurd h (Nat.not_lt_zero _)
    | succ m ih =>
      intro n hn hleft
      by_cases hdone : (run tableId tables n).done = true
      · exact ⟨n, hdone⟩
      have hnext : run tableId tables (n + 1) =
          (run tableId tables n).chunk tableId (tables n) := by
        rw [run, if_neg hdone]
      by_cases hdone' : (run tableId tables (n + 1)).done = true
      · exact ⟨n + 1, hdone'⟩
      have hplaced := (run_ok tableId hgrows n).placed (Bool.eq_false_iff.mpr hdone)
      have hlt := left_chunk_lt tableId hplaced (hkeys hn) (hnext ▸ Bool.eq_false_iff.mpr hdone')
      rw [← hnext] at hlt
      exact ih (n + 1) (hn.trans (Nat.le_succ n)) (by omega)
  exact hbound _ N le_rfl (Nat.lt_succ_self _)

end ScanLoop

open ScanLoop in
/-- The scan of a table to which keys are added and from which none are removed. At every moment the
keys that have been sent are increasing, so none is sent twice, and every row that has been sent was
in the table. When the loop has ended, every key of the range that the table had at the begin has
been sent exactly once. The loop ends if from some turn on no keys are added. -/
theorem tableScan_exact (tableId : ℕ) (tables : ℕ → Table) (hgrows : Grows tables) :
    (∀ n, (run tableId tables n).sentKeys.Pairwise (· < ·) ∧
      (∀ rows ∈ (run tableId tables n).sent, Found tableId tables n rows) ∧
      ((run tableId tables n).done = true → ∀ k ∈ (tables 0).keys, [0] ≤ k → k < [255] →
        (run tableId tables n).sentKeys.count k = 1)) ∧
    ((∃ N, ∀ n, N ≤ n → (tables (n + 1)).keys ⊆ (tables n).keys) →
      ∃ n, (run tableId tables n).done = true) := by
  constructor
  · intro n
    have hok := run_ok tableId hgrows n
    refine ⟨hok.sorted, hok.found, fun hdone k hk hle hlt => ?_⟩
    have hmem : k ∈ (run tableId tables n).sentKeys := by
      rcases hok.complete k hk hle hlt with hmem | ⟨hlive, -⟩
      · exact hmem
      · rw [hdone] at hlive
        cases hlive
    exact List.count_eq_one_of_mem (hok.sorted.imp ne_of_lt) hmem
  · rintro ⟨N, hstop⟩
    exact exists_done tableId hgrows hstop

/-- A table to which a key is added after the first turn. -/
def growingTable (n : ℕ) : Table :=
  if n = 0 then ⟨[([1], [7])], by decide⟩ else ⟨[([1], [8]), ([2], [9])], by decide⟩

lemma growingTable_grows : ScanLoop.Grows growingTable := by
  intro n
  cases n with
  | zero => decide
  | succ n => exact List.Subset.refl _

theorem tableScan_exact_growingTable :
    (ScanLoop.run 10001 growingTable 3).sentKeys.count [1] = 1 :=
  ((tableScan_exact 10001 growingTable growingTable_grows).1 3).2.2 (by decide +kernel) [1]
    (by decide) (by decide) (by decide)

end Rolis.Replay
