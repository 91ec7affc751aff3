import Rolis.Lib.Lts
import Rolis.Replay.TableScan
import Rolis.Sto.LastWriter

/-!
# The catch-up of a rejoining replica

`follower_client` sends the rows of its tables as scanned messages, and behind them the batches that
were recorded meanwhile, the redo logs. The receiver pushes a scanned message to the queue
`idx % nthreads` and a redo log to the queue `tid % nthreads`, and one thread for each queue replays
it. A redo entry is put by `put_mbta`, which compares commit ids; a scanned row is put by `put`,
which does not. The row and the redo entries of a key may be in different queues, and the row may
come last.
-/

namespace Rolis.Replay

open Rolis.Sto Bytes Function List Transaction

/-! ## Puts -/

/-- The put of a scanned row: the transaction is started again each time it throws. -/
def scannedPut (m : Mem) (table : ℕ) (key value : Bytes) : ℕ → Option Mem
  | 0 => none
  | tries + 1 =>
    match Transaction.transPut ⟨m, []⟩ table key value with
    | .ok t => t.tryCommit.map Prod.fst
    | .error t => t.abort.bind fun m => scannedPut m table key value tries

/-- A put transaction of the receiver: a scanned row, or a pair of a redo log with the commit id of
its transaction. -/
inductive Put
  | row (r : Row)
  | redo (cid : ℕ) (kv : KV)
deriving DecidableEq

namespace Put

/-- The table of the put. -/
def tableId : Put → ℕ
  | row r => r.tableId
  | redo _ kv => kv.tableId

/-- The key of the put. -/
def key : Put → Bytes
  | row r => r.key
  | redo _ kv => kv.key

/-- What is to be stored. -/
def data : Put → Bytes
  | row r => r.value
  | redo cid kv => kv.stored cid

/-- The transaction. -/
def run (m : Mem) : Put → Option Mem
  | row r => scannedPut m r.tableId r.key r.value 1
  | redo cid kv => replayPut m kv.tableId kv.key (kv.stored cid) 1

end Put

/-! ## Logs and queues -/

/-- An entry of a queue, with the text of a scanned message or the bytes of a redo log. -/
inductive Log
  | scanned (text : Bytes)
  | redo (batch : Bytes)
deriving DecidableEq

/-- The puts of `treplay_in_same_thread_scanned_logs` and of
`treplay_in_same_thread_opt_mbta_v2`. -/
def Log.puts : Log → Option (List Put)
  | scanned text => (scannedLoop text text.length 0 0).map fun (rows, _) => rows.map .row
  | redo batch => (parse batch).map fun (txns, _) =>
      txns.flatMap fun txn => txn.2.map (.redo txn.1)

/-- The scan of one table: its id, the table as the turns of the loop find it, and the number of
turns. -/
structure Scan where
  tableId : ℕ
  tables : ℕ → Table
  turns : ℕ

/-- The rows of the messages of a scan. -/
def Scan.chunks (s : Scan) : List (List Row) := (ScanLoop.run s.tableId s.tables s.turns).sent

/-- What `follower_client` sends: the scans of its tables and the redo logs of each stream. -/
structure Source where
  scans : List Scan
  redo : ℕ → List Bytes
  grows : ∀ s ∈ scans, ScanLoop.Grows s.tables
  tableId_mem : ∀ s ∈ scans, 10000 ≤ s.tableId ∧ s.tableId ≤ 20000
  short : ∀ s ∈ scans, ∀ n, ∀ row ∈ (s.tables n).rows,
    row.1.length < 2 ^ 16 ∧ row.2.length < 2 ^ 16
  readable : ∀ tid, Readable (redo tid)

namespace Source

/-- The rows of the scanned messages in the order of `idx`. -/
def chunks (src : Source) : List (List Row) := src.scans.flatMap Scan.chunks

/-- A queue of the receiver when everything has been pushed. -/
def queue (src : Source) (nthreads q : ℕ) : List Log :=
  (src.chunks.zipIdx.filter fun (_, idx) => idx % nthreads = q).map
      (fun (rows, _) => .scanned (message rows)) ++
    ((List.range 32).filter fun tid => tid % nthreads = q).flatMap fun tid =>
      (src.redo tid).map .redo

/-- The scanned rows and the redo entries. -/
def puts (src : Source) : List Put :=
  src.chunks.flatten.map .row ++ (List.range 32).flatMap fun tid =>
    (src.redo tid).flatMap fun b => (txns b).flatMap fun txn => txn.2.map (.redo txn.1)

end Source

/-! ## The receiver -/

/-- The queues, the puts that each thread has left of its present log, and the tables. `consumed`
are the puts so far. -/
structure Receiver where
  queues : ℕ → List Log
  current : ℕ → List Put
  mem : Mem
  consumed : List Put

/-- The thread of a queue takes the next log, or does the next put. -/
inductive Consume
  | take (q : ℕ)
  | put (q : ℕ)

/-- `consumeLogs`, one put at a time. -/
def Receiver.step (s : Receiver) : Consume → Option Receiver
  | .take q =>
    match s.current q, s.queues q with
    | [], log :: logs =>
      log.puts.map fun ps =>
        { s with queues := update s.queues q logs, current := update s.current q ps }
    | _, _ => none
  | .put q =>
    match s.current q with
    | [] => none
    | p :: ps =>
      (p.run s.mem).map fun m =>
        { s with current := update s.current q ps, mem := m, consumed := s.consumed ++ [p] }

/-- The catch-up on a receiver without tables. -/
def catchUp (src : Source) (nthreads : ℕ) : Lts.System Receiver Consume where
  init := ⟨src.queue nthreads, fun _ => [], {}, []⟩
  step := Receiver.step

/-- All threads have consumed their queues. -/
def Receiver.Finished (nthreads : ℕ) (s : Receiver) : Prop :=
  ∀ q < nthreads, s.queues q = [] ∧ s.current q = []

instance (nthreads : ℕ) (s : Receiver) : Decidable (s.Finished nthreads) :=
  inferInstanceAs (Decidable (∀ q < nthreads, _))

/-- What is put under a key. -/
def dataAt (ps : List Put) (table : ℕ) (key : Bytes) : List Bytes :=
  (ps.filter fun p => p.tableId = table ∧ p.key = key).map Put.data

/-- Of the values `ws` one with the largest commit id is kept. -/
def Largest (slot : Option Slot) (ws : List Bytes) : Prop :=
  (ws = [] → slot = none) ∧
    ∀ w ∈ ws, ∃ s, slot = some s ∧ s.value ∈ ws ∧ keystoreDecode3V2 w ≤ keystoreDecode3V2 s.value

/-- Each key holds the entry with the largest commit id among its scanned value and its redo
entries. -/
def Converged (src : Source) (m : Mem) : Prop :=
  ∀ table key, Largest (m.slot table key) (dataAt src.puts table key)

/-! ## One put -/

/-- The put of a scanned row, as the key sees it. -/
def overwrite (slot : Option Slot) (w : Bytes) : Option Slot :=
  match slot with
  | none => some ⟨w, capacityFor w.length⟩
  | some s =>
    if w.length ≤ s.capacity then some ⟨w, s.capacity⟩
    else some ⟨s.value, capacityFor w.length⟩

variable {m : Mem} {table : ℕ} {key w : Bytes} {ws : List Bytes} {rows : List Row}

/-- The first try of a put ends, and does to its key what `overwrite` says. -/
lemma exists_scannedPut (h : m.Quiet) (table : ℕ) (key w : Bytes) (tries : ℕ) :
    ∃ m', scannedPut m table key w (tries + 1) = some m' ∧
      Changes m m' table key (overwrite (m.slot table key) w) := by
  unfold scannedPut transPut transWrite
  cases hfind : m.find table key with
  | none =>
    rw [Mem.slot_of_find_none hfind]
    exact ⟨_, tryCommit_insertNew m table key w key, changes_insert h table key w⟩
  | some e =>
    have hvalid := h.valid hfind
    rw [Mem.slot_of_find hfind, overwrite]
    by_cases hfit : w.length ≤ (m.heap e).capacity
    · have hroom : (m.heap e).needsResize w = false := by simpa [Elem.needsResize] using hfit
      rw [if_pos hfit]
      refine ⟨_, ?_, changes_update h hfind w⟩
      simp only [handlePutFound_of_fits hvalid hroom]
      exact tryCommit_update hvalid hroom
    · have hroom : (m.heap e).needsResize w = true := by simpa [Elem.needsResize] using hfit
      rw [if_neg hfit]
      refine ⟨_, ?_, changes_grow h hfind w⟩
      simp only [handlePutFound_of_needsResize hvalid hroom]
      exact tryCommit_grow _ _ (h.lt_next hfind).ne

namespace Put

/-- What a put does to its key. -/
def slot (slot : Option Slot) : Put → Option Slot
  | row r => overwrite slot r.value
  | redo cid kv => Slot.put slot (kv.stored cid)

/-- The put does not lose the entry with the largest commit id: a row finds no entry with a larger
one, and what is to replace an entry finds room. -/
def Fits (slot : Option Slot) (p : Put) : Prop :=
  match p with
  | row r => ∀ s ∈ slot, keystoreDecode3V2 s.value ≤ keystoreDecode3V2 r.value ∧
      r.value.length ≤ s.capacity
  | redo cid kv => ∀ s ∈ slot, cmpFunc2V2 (kv.stored cid) s.value →
      (kv.stored cid).length ≤ s.capacity

instance (slot : Option Slot) (p : Put) : Decidable (p.Fits slot) := by
  unfold Fits; split <;> infer_instance

/-- A put transaction ends, and changes its key only. -/
lemma exists_run (h : m.Quiet) (p : Put) : ∃ m', p.run m = some m' ∧
      Changes m m' p.tableId p.key (p.slot (m.slot p.tableId p.key)) := by
  cases p with
  | row r => exact exists_scannedPut h r.tableId r.key r.value 0
  | redo cid kv =>
    obtain ⟨m', hrun, hr⟩ := exists_replayPut h kv.tableId kv.key (kv.stored cid) 0
    exact ⟨m', hrun, hr.quiet, hr.slot_self, hr.slot_ne⟩

/-- What a fitting put leaves: its own value, or an entry that has a commit id as large. -/
lemma Fits.slot_eq {s : Slot} {p : Put} (h : p.Fits (some s)) :
    (∃ c, p.slot (some s) = some ⟨p.data, c⟩ ∧
        keystoreDecode3V2 s.value ≤ keystoreDecode3V2 p.data) ∨
      p.slot (some s) = some s ∧ keystoreDecode3V2 p.data ≤ keystoreDecode3V2 s.value := by
  cases p with
  | row r =>
    obtain ⟨hle, hroom⟩ := h s rfl
    exact .inl ⟨s.capacity, if_pos hroom, hle⟩
  | redo cid kv =>
    by_cases hcmp : cmpFunc2V2 (kv.stored cid) s.value = true
    · have hroom := h s rfl hcmp
      refine .inl ⟨s.capacity, ?_, (of_decide_eq_true hcmp).le⟩
      simp only [slot, Slot.put, hcmp, if_true, if_pos hroom, data]
    · refine .inr ⟨?_, ?_⟩
      · simp only [slot, Slot.put, if_neg hcmp]
      · exact not_lt.mp (of_decide_eq_false (Bool.eq_false_iff.mpr hcmp))

end Put

lemma Largest.congr {slot : Option Slot} {ws ws' : List Bytes} (h : Largest slot ws)
    (hmem : ∀ w, w ∈ ws' ↔ w ∈ ws) : Largest slot ws' := by
  refine ⟨fun hnil => h.1 ?_, fun w hw => ?_⟩
  · rw [eq_nil_iff_forall_not_mem]
    intro w hw
    rw [← hmem, hnil] at hw
    cases hw
  · obtain ⟨s, hs, hval, hle⟩ := h.2 w ((hmem w).mp hw)
    exact ⟨s, hs, (hmem _).mpr hval, hle⟩

/-- A fitting put keeps an entry with the largest commit id. -/
lemma Largest.put {slot : Option Slot} (h : Largest slot ws) {p : Put} (hfits : p.Fits slot) :
    Largest (p.slot slot) (ws ++ [p.data]) := by
  have hmem : p.data ∈ ws ++ [p.data] := mem_append_right _ mem_cons_self
  refine ⟨fun hnil => absurd (append_eq_nil_iff.mp hnil).2 (cons_ne_nil _ _), fun w hw => ?_⟩
  rw [mem_append, mem_singleton] at hw
  cases slot with
  | none =>
    -- nothing has been put under the key
    have hput : ∃ c, p.slot none = some ⟨p.data, c⟩ := by cases p <;> exact ⟨_, rfl⟩
    obtain ⟨c, hput⟩ := hput
    rcases hw with hw | rfl
    · obtain ⟨s, hs, -⟩ := h.2 w hw
      cases hs
    · exact ⟨_, hput, hmem, le_rfl⟩
  | some s =>
    have hold : s.value ∈ ws ∧ ∀ w ∈ ws, keystoreDecode3V2 w ≤ keystoreDecode3V2 s.value := by
      have hne : ws ≠ [] := fun hnil => by cases h.1 hnil
      obtain ⟨w₀, ws', rfl⟩ := exists_cons_of_ne_nil hne
      obtain ⟨s', hs', hval, -⟩ := h.2 w₀ mem_cons_self
      cases hs'
      refine ⟨hval, fun w hw => ?_⟩
      obtain ⟨s', hs', -, hle⟩ := h.2 w hw
      cases hs'
      exact hle
    rcases hfits.slot_eq with ⟨c, hslot, hle⟩ | ⟨hslot, hle⟩
    · refine ⟨_, hslot, hmem, ?_⟩
      rcases hw with hw | rfl
      · exact (hold.2 w hw).trans hle
      · exact le_rfl
    · refine ⟨s, hslot, mem_append_left _ hold.1, ?_⟩
      rcases hw with hw | rfl
      · exact hold.2 w hw
      · exact hle

/-! ## The logs of the source -/

namespace Source

variable {src : Source} {nthreads : ℕ} {log : Log} {p : Put}

lemma row_ok (src : Source) (h : rows ∈ src.chunks) : rows.length ≤ 100 ∧ ∀ r ∈ rows, r.Ok := by
  obtain ⟨s, hs, hrows⟩ := mem_flatMap.mp h
  obtain ⟨hlen, hfound⟩ := (ScanLoop.run_ok s.tableId (src.grows s hs) s.turns).found rows hrows
  refine ⟨hlen, fun r hr => ?_⟩
  obtain ⟨hid, n, -, hmem⟩ := hfound r hr
  obtain ⟨hkey, hvalue⟩ := src.short s hs n _ hmem
  exact ⟨hid ▸ src.tableId_mem s hs, hkey, hvalue⟩

/-- A scanned message is read back as its rows. -/
lemma puts_scanned (src : Source) (h : rows ∈ src.chunks) :
    (Log.scanned (message rows)).puts = some (rows.map .row) := by
  obtain ⟨hlen, hok⟩ := src.row_ok h
  rw [Log.puts, scannedLoop_of_length hok hlen, Option.map_some]

lemma puts_redo (src : Source) {tid : ℕ} {b : Bytes} (h : b ∈ src.redo tid) :
    (Log.redo b).puts = some ((txns b).flatMap fun txn => txn.2.map (.redo txn.1)) := by
  obtain ⟨t, ht⟩ := Option.isSome_iff_exists.mp (src.readable tid b h)
  rw [Log.puts, txns, ht]
  rfl

lemma mem_queue {q : ℕ} : log ∈ src.queue nthreads q ↔
      (∃ rows idx, (rows, idx) ∈ src.chunks.zipIdx ∧ idx % nthreads = q ∧
        log = .scanned (message rows)) ∨
      ∃ tid < 32, tid % nthreads = q ∧ ∃ b ∈ src.redo tid, log = .redo b := by
  rw [queue, mem_append, mem_map, mem_flatMap]
  simp only [mem_filter, mem_map, mem_range, decide_eq_true_iff, Prod.exists]
  constructor
  · rintro (⟨rows, idx, ⟨hmem, hq⟩, rfl⟩ | ⟨tid, ⟨hlt, hq⟩, b, hb, rfl⟩)
    · exact .inl ⟨rows, idx, hmem, hq, rfl⟩
    · exact .inr ⟨tid, hlt, hq, b, hb, rfl⟩
  · rintro (⟨rows, idx, hmem, hq, rfl⟩ | ⟨tid, hlt, hq, b, hb, rfl⟩)
    · exact .inl ⟨rows, idx, ⟨hmem, hq⟩, rfl⟩
    · exact .inr ⟨tid, ⟨hlt, hq⟩, b, hb, rfl⟩

lemma mem_puts : p ∈ src.puts ↔ (∃ rows ∈ src.chunks, p ∈ rows.map Put.row) ∨
      ∃ tid < 32, ∃ b ∈ src.redo tid,
        p ∈ (txns b).flatMap fun txn => txn.2.map (Put.redo txn.1) := by
  rw [puts, mem_append, map_flatten, mem_flatten]
  simp only [mem_map, mem_flatMap, mem_range, exists_exists_and_eq_and]

/-- The queues have exactly the puts of the source. -/
lemma mem_puts_iff (src : Source) (nthreads : ℕ) :
    p ∈ src.puts ↔ ∃ q, ∃ log ∈ src.queue nthreads q, ∃ ps, log.puts = some ps ∧ p ∈ ps := by
  rw [mem_puts]
  constructor
  · rintro (⟨rows, hrows, hp⟩ | ⟨tid, hlt, b, hb, hp⟩)
    · obtain ⟨idx, hidx, rfl⟩ := mem_iff_getElem.mp hrows
      refine ⟨idx % nthreads, _, mem_queue.mpr (.inl ⟨_, idx, ?_, rfl, rfl⟩), _,
        src.puts_scanned hrows, hp⟩
      exact mem_zipIdx_iff_getElem?.mpr (getElem?_eq_getElem hidx)
    · exact ⟨tid % nthreads, _, mem_queue.mpr (.inr ⟨tid, hlt, rfl, b, hb, rfl⟩), _,
        src.puts_redo hb, hp⟩
  · rintro ⟨q, log, hlog, ps, hps, hp⟩
    rcases mem_queue.mp hlog with ⟨rows, idx, hmem, -, rfl⟩ | ⟨tid, hlt, -, b, hb, rfl⟩
    · have hrows := fst_mem_of_mem_zipIdx hmem
      rw [src.puts_scanned hrows] at hps
      cases hps
      exact .inl ⟨rows, hrows, hp⟩
    · rw [src.puts_redo hb] at hps
      cases hps
      exact .inr ⟨tid, hlt, b, hb, hp⟩

lemma queue_eq_nil (src : Source) (hn : 0 < nthreads) {q : ℕ} (hq : nthreads ≤ q) :
    src.queue nthreads q = [] := by
  rw [eq_nil_iff_forall_not_mem]
  intro log hlog
  rcases mem_queue.mp hlog with ⟨_, idx, -, rfl, -⟩ | ⟨tid, -, rfl, -⟩
  · exact absurd (Nat.mod_lt idx hn) (Nat.not_lt.mpr hq)
  · exact absurd (Nat.mod_lt tid hn) (Nat.not_lt.mpr hq)

end Source

/-! ## Runs -/

namespace Receiver

/-- The put is still to be done by the thread of a queue. -/
def Left (s : Receiver) (q : ℕ) (p : Put) : Prop :=
  p ∈ s.current q ∨ ∃ log ∈ s.queues q, ∃ ps, log.puts = some ps ∧ p ∈ ps

/-- The steps whose put fits. -/
def Admits (s : Receiver) : Consume → Prop
  | .take _ => True
  | .put q => ∀ p ∈ (s.current q).head?, p.Fits (s.mem.slot p.tableId p.key)

instance (s : Receiver) (a : Consume) : Decidable (s.Admits a) := by
  unfold Admits; split <;> infer_instance

/-- Each key holds its entry with the largest commit id among the puts so far, and every put of the
source has been consumed or is left. -/
structure Ok (src : Source) (nthreads : ℕ) (s : Receiver) : Prop where
  quiet : s.mem.Quiet
  largest : ∀ table key, Largest (s.mem.slot table key) (dataAt s.consumed table key)
  covers : ∀ p, p ∈ src.puts ↔ p ∈ s.consumed ∨ ∃ q, s.Left q p
  idle : ∀ q, nthreads ≤ q → s.queues q = [] ∧ s.current q = []

variable {src : Source} {nthreads q : ℕ} {s t : Receiver} {a : Consume} {p : Put} {ps : List Put}

lemma init_ok (src : Source) (hn : 0 < nthreads) : Ok src nthreads (catchUp src nthreads).init where
  quiet := Mem.quiet_empty
  largest := fun table key => ⟨fun _ => rfl, fun w hw => by cases hw⟩
  covers := by
    intro p
    rw [src.mem_puts_iff nthreads]
    simp [catchUp, Left]
  idle := fun q hq => ⟨src.queue_eq_nil hn hq, rfl⟩

lemma dataAt_concat (ps : List Put) (p : Put) (table : ℕ) (key : Bytes) :
    dataAt (ps ++ [p]) table key =
      dataAt ps table key ++ if p.tableId = table ∧ p.key = key then [p.data] else [] := by
  rw [dataAt, filter_append, map_append, dataAt]
  split
  · next h => rw [filter_cons_of_pos (by simpa using h), filter_nil]; rfl
  · next h => rw [filter_cons_of_neg (by simpa using h), filter_nil]; rfl

/-- A thread that takes a log leaves the same puts to be done. -/
lemma Ok.take (h : Ok src nthreads s) {log : Log} {logs : List Log} (hcur : s.current q = [])
    (hqueue : s.queues q = log :: logs) (hps : log.puts = some ps) :
    Ok src nthreads
      { s with queues := update s.queues q logs, current := update s.current q ps } where
  quiet := h.quiet
  largest := h.largest
  covers := by
    intro p
    rw [h.covers]
    refine or_congr_right (exists_congr fun q' => ?_)
    by_cases hq : q' = q
    · subst hq
      simp only [Left, hcur, hqueue, update_self, mem_cons, not_mem_nil, false_or,
        exists_eq_or_imp, hps, Option.some.injEq, exists_eq_left']
    · simp only [Left, update_of_ne hq]
  idle := by
    intro q' hq'
    have hne : q' ≠ q := by
      rintro rfl
      rw [(h.idle q' hq').1] at hqueue
      cases hqueue
    exact ⟨(update_of_ne hne ..).trans (h.idle q' hq').1,
      (update_of_ne hne ..).trans (h.idle q' hq').2⟩

/-- A fitting put. -/
lemma Ok.put (h : Ok src nthreads s) (hcur : s.current q = p :: ps)
    (hfits : p.Fits (s.mem.slot p.tableId p.key))
    (hm : Changes s.mem m p.tableId p.key (p.slot (s.mem.slot p.tableId p.key))) :
    Ok src nthreads
      { s with current := update s.current q ps, mem := m, consumed := s.consumed ++ [p] } where
  quiet := hm.quiet
  largest := by
    intro table key
    rw [dataAt_concat]
    by_cases hat : p.tableId = table ∧ p.key = key
    · obtain ⟨rfl, rfl⟩ := hat
      rw [if_pos ⟨rfl, rfl⟩, hm.slot_self]
      exact (h.largest _ _).put hfits
    · rw [if_neg hat, append_nil, hm.slot_ne table key fun heq => hat ⟨heq.1.symm, heq.2.symm⟩]
      exact h.largest table key
  covers := by
    intro p'
    rw [h.covers, mem_append, mem_singleton]
    constructor
    · rintro (hmem | ⟨q', hleft⟩)
      · exact .inl (.inl hmem)
      by_cases hq : q' = q
      · subst hq
        rcases hleft with hleft | hleft
        · rw [hcur, mem_cons] at hleft
          rcases hleft with rfl | hleft
          · exact .inl (.inr rfl)
          · exact .inr ⟨q', .inl (by simpa using hleft)⟩
        · exact .inr ⟨q', .inr hleft⟩
      · refine .inr ⟨q', ?_⟩
        simpa only [Left, update_of_ne hq] using hleft
    · rintro ((hmem | rfl) | ⟨q', hleft⟩)
      · exact .inl hmem
      · exact .inr ⟨q, .inl (hcur ▸ mem_cons_self)⟩
      by_cases hq : q' = q
      · subst hq
        rcases hleft with hleft | hleft
        · refine .inr ⟨q', .inl ?_⟩
          rw [hcur]
          exact mem_cons_of_mem _ (by simpa using hleft)
        · exact .inr ⟨q', .inr hleft⟩
      · refine .inr ⟨q', ?_⟩
        simpa only [Left, update_of_ne hq] using hleft
  idle := by
    intro q' hq'
    have hne : q' ≠ q := by
      rintro rfl
      rw [(h.idle q' hq').2] at hcur
      cases hcur
    exact ⟨(h.idle q' hq').1, (update_of_ne hne ..).trans (h.idle q' hq').2⟩

lemma Ok.step (h : Ok src nthreads s) (ha : s.Admits a) (hstep : s.step a = some t) :
    Ok src nthreads t := by
  cases a with
  | take q =>
    rw [Receiver.step] at hstep
    split at hstep
    · next hcur hqueue =>
      obtain ⟨ps, hps, rfl⟩ := Option.map_eq_some_iff.mp hstep
      exact h.take hcur hqueue hps
    · cases hstep
  | put q =>
    rw [Receiver.step] at hstep
    split at hstep
    · cases hstep
    · next p ps hcur =>
      obtain ⟨m, hm, rfl⟩ := Option.map_eq_some_iff.mp hstep
      obtain ⟨m', hrun, hchanges⟩ := p.exists_run h.quiet
      cases hm.symm.trans hrun
      exact h.put hcur (ha p (by rw [hcur]; rfl)) hchanges

end Receiver

/-- Every run whose puts all fit keeps, for each key, an entry with the largest commit id of those
put so far; when all queues are consumed, the receiver has converged. -/
theorem catchUp_converges (src : Source) (nthreads : ℕ) (hn : 0 < nthreads) (s : Receiver)
    (hrun : Lts.Run (catchUp src nthreads) Receiver.Admits (catchUp src nthreads).init s) :
    (∀ table key, Largest (s.mem.slot table key) (dataAt s.consumed table key)) ∧
      (s.Finished nthreads → Converged src s.mem) := by
  have hok : Receiver.Ok src nthreads s :=
    hrun.invariant _ (fun _ _ _ h ha hstep => h.step ha hstep) (Receiver.init_ok src hn)
  refine ⟨hok.largest, fun hfin table key => (hok.largest table key).congr fun w => ?_⟩
  have hnone : ∀ q p, ¬s.Left q p := by
    intro q p hleft
    have hempty : s.queues q = [] ∧ s.current q = [] := by
      by_cases hq : q < nthreads
      · exact hfin q hq
      · exact hok.idle q (Nat.not_lt.mp hq)
    rcases hleft with hp | ⟨log, hlog, -⟩
    · rw [hempty.2] at hp
      cases hp
    · rw [hempty.1] at hlog
      cases hlog
  have hmem : ∀ p, p ∈ src.puts ↔ p ∈ s.consumed := by
    intro p
    rw [hok.covers, or_iff_left]
    rintro ⟨q, hleft⟩
    exact hnone q p hleft
  simp only [dataAt, List.mem_map, List.mem_filter, hmem]

/-- A table with one row, and a redo log of another stream that writes its key again. -/
def newerRedo : Source where
  scans := [⟨10001, fun _ => ⟨[([1], [7] ++ encode 8 5001)], List.pairwise_singleton _ _⟩, 2⟩]
  redo := fun tid => if tid = 1 then [putBatch 6 1 [8]] else []
  grows := by
    intro s hs n
    rw [List.mem_singleton.mp hs]
    exact List.Subset.refl _
  tableId_mem := by decide
  short := by
    intro s hs n row hrow
    rw [List.mem_singleton.mp hs] at hrow
    rw [List.mem_singleton.mp hrow]
    decide
  readable := by
    intro tid
    split
    · decide +kernel
    · decide

/-- The row comes first. -/
theorem catchUp_converges_newerRedo :
    ∃ s, Lts.Run (catchUp newerRedo 2) Receiver.Admits (catchUp newerRedo 2).init s ∧
      s.Finished 2 ∧ Converged newerRedo s.mem := by
  obtain ⟨s, hrun, hfin⟩ := Lts.exists_run_of_execGuarded (catchUp newerRedo 2) Receiver.Admits
    (catchUp newerRedo 2).init [.take 0, .put 0, .take 1, .put 1] (Receiver.Finished 2)
    (by decide +kernel)
  exact ⟨s, hrun, hfin, (catchUp_converges newerRedo 2 (by decide) s hrun).2 hfin⟩

/-- The redo log comes first, and the row replaces its newer entry. -/
theorem not_converged_newerRedo :
    ∃ s, Lts.Reachable (catchUp newerRedo 2) s ∧ s.Finished 2 ∧ ¬Converged newerRedo s.mem := by
  obtain ⟨s, hreach, hfin, hslot, hmem⟩ := Lts.exists_reachable_of_exec (catchUp newerRedo 2)
    [.take 1, .put 1, .take 0, .put 0]
    (fun s => s.Finished 2 ∧ s.mem.stored 10001 [1] = some ([7] ++ encode 8 5001) ∧
      [8] ++ encode 8 6001 ∈ dataAt newerRedo.puts 10001 [1]) (by decide +kernel)
  refine ⟨s, hreach, hfin, fun h => ?_⟩
  obtain ⟨x, hx, -, hle⟩ := (h 10001 [1]).2 _ hmem
  rw [Mem.stored, hx, Option.map_some, Option.some.injEq] at hslot
  rw [hslot] at hle
  exact absurd hle (by decide +kernel)

end Rolis.Replay
