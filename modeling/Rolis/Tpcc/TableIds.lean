import Mathlib.Data.List.Nodup
import Mathlib.Data.Nat.ModEq

/-!
# Table ids of the TPC-C tables

The initial leader opens its tables by name: `table_logger::GetNextTableID` gives a new name the
next id. `OpenTablesForTablespace` opens one table for each warehouse, or for each thread if there
are more warehouses than threads, and one `item` table. A machine that takes over opens the tables
by id, in the same order of tables, and counts the ids itself: one for each *thread*, whatever the
number of warehouses. Log entries and replay name tables by id only.

Both number the tables from 10001 on, `numberTables`, with a different number of ids for a table.
-/

namespace Rolis.Tpcc

open List

/-- `TPCC_TABLE_LIST`. -/
inductive Table
  | customer
  | customerNameIdx
  | district
  | history
  | item
  | newOrder
  | oorder
  | oorderCIdIdx
  | orderLine
  | stock
  | stockData
  | warehouse
deriving DecidableEq, Repr

namespace Table

def list : List Table :=
  [customer, customerNameIdx, district, history, item, newOrder, oorder, oorderCIdIdx, orderLine,
   stock, stockData, warehouse]

def name : Table → String
  | customer => "customer"
  | customerNameIdx => "customer_name_idx"
  | district => "district"
  | history => "history"
  | item => "item"
  | newOrder => "new_order"
  | oorder => "oorder"
  | oorderCIdIdx => "oorder_c_id_idx"
  | orderLine => "order_line"
  | stock => "stock"
  | stockData => "stock_data"
  | warehouse => "warehouse"

/-- `s_name + "_" + to_string(i)`. -/
def partName (t : Table) (i : ℕ) : String := t.name ++ "_" ++ toString i

/-- `IsTableReadOnly`. -/
def isReadOnly (t : Table) : Bool := t.name = "item"

end Table

/-! ## The initial leader -/

/-- `namespace table_logger`. -/
structure TableLogger where
  tableId : ℕ := 10001
  tableMap : List (String × ℕ) := []

namespace TableLogger

/-- `GetNextTableID`: the id of the new index, and the tables afterwards. -/
def getNextTableID (s : TableLogger) (name : String) : ℕ × TableLogger :=
  match s.tableMap.lookup name with
  | some id => (id, s)
  | none => (s.tableId, ⟨s.tableId + 1, (name, s.tableId) :: s.tableMap⟩)

/-- A loop that opens an index for each name. -/
def openIndexes : TableLogger → List String → List ℕ × TableLogger
  | s, [] => ([], s)
  | s, name :: names =>
    let (id, s) := s.getNextTableID name
    let (ids, s) := s.openIndexes names
    (id :: ids, s)

/-- `OpenTablesForTablespace` with separate trees for the partitions: the ids of the indexes in
`ret`, one for each of the `w` warehouses. -/
def openTablesForTablespace (nthreads w : ℕ) (s : TableLogger) (t : Table) :
    List ℕ × TableLogger :=
  if t.isReadOnly then
    let (idx, s) := s.getNextTableID t.name
    (List.replicate w idx, s)
  else if w ≤ nthreads then s.openIndexes ((List.range w).map t.partName)
  else
    let nwhsePerPartition := w / nthreads
    let (idxs, s) := s.openIndexes ((List.range nthreads).map t.partName)
    -- the partitions are consecutive blocks of warehouses, from `wstart` to `wend`
    let ret := ((List.range nthreads).zip idxs).flatMap fun (partid, idx) =>
      let wstart := partid * nwhsePerPartition
      let wend := if partid + 1 = nthreads then w else (partid + 1) * nwhsePerPartition
      List.replicate (wend - wstart) idx
    (ret, s)

end TableLogger

/-- The loop of a constructor over the tables: what goes into `partitions`. -/
def openAll {σ : Type*} (openTable : σ → Table → List ℕ × σ) :
    σ → List Table → List (Table × List ℕ)
  | _, [] => []
  | s, t :: ts =>
    let (ids, s) := openTable s t
    (t, ids) :: openAll openTable s ts

lemma openAll_cons {σ : Type*} (f : σ → Table → List ℕ × σ) (s : σ) (t : Table)
    (ts : List Table) : openAll f s (t :: ts) = (t, (f s t).1) :: openAll f (f s t).2 ts := rfl

/-- `partitions[t][i]`, by table id. -/
def at? (partitions : List (Table × List ℕ)) (t : Table) (i : ℕ) : Option ℕ :=
  (partitions.lookup t).bind (·[i]?)

/-- The tables of the initial leader. -/
def leaderPartitions (nthreads w : ℕ) : List (Table × List ℕ) :=
  openAll (TableLogger.openTablesForTablespace nthreads w) {} Table.list

/-! ## The failure mode -/

/-- `table_instances`: the table ids of the indexes that were opened by id. An index is stored
under its own id. -/
structure TableInstances where
  find : ℕ → Option ℕ
  own : ∀ id index, find id = some index → index = id

namespace TableInstances

/-- `open_index(unsigned short table_id)`. -/
def openIndex (m : TableInstances) (id : ℕ) : ℕ × TableInstances :=
  match m.find id with
  | some index => (index, m)
  | none => (id, {
      find := Function.update m.find id (some id)
      own := by
        intro id' index h
        by_cases hid : id' = id
        · subst hid
          rw [Function.update_self] at h
          exact (Option.some.inj h).symm
        · rw [Function.update_of_ne hid] at h
          exact m.own id' index h })

/-- The argument of `open_index` is a 16-bit integer. -/
def openShort (m : TableInstances) (id : ℕ) : ℕ × TableInstances := m.openIndex (id % 2 ^ 16)

/-- A loop that opens an index for each id. -/
def openIndexes : TableInstances → List ℕ → List ℕ × TableInstances
  | m, [] => ([], m)
  | m, id :: ids =>
    let (index, m) := m.openShort id
    let (indexes, m) := m.openIndexes ids
    (index :: indexes, m)

end TableInstances

/-- One turn of the loop of the constructor of `tpcc_bench_runner` in failure mode, with its
variable `table_id`. -/
def reopenTable (nthreads : ℕ) (s : ℕ × TableInstances) (t : Table) :
    List ℕ × ℕ × TableInstances :=
  let (tableId, m) := s
  if t.name ≠ "item" then
    let (ret, m) := m.openIndexes ((List.range nthreads).map fun j => tableId + (j + 1))
    (ret, tableId + nthreads, m)
  else
    let (ret, m) := m.openIndexes (List.replicate nthreads (tableId + 1))
    (ret, tableId + 1, m)

/-- The tables of a machine that takes over, which has opened the tables `m` in its replay. -/
def failoverPartitions (nthreads : ℕ) (m : TableInstances) : List (Table × List ℕ) :=
  openAll (reopenTable nthreads) (10000, m) Table.list

/-- For each table and each warehouse the machine that takes over has the table id that the initial
leader used. -/
def TableIdsAgree (nthreads w : ℕ) (m : TableInstances) : Prop :=
  ∀ t : Table, ∀ i < w, ∃ id, at? (leaderPartitions nthreads w) t i = some id ∧
    at? (failoverPartitions nthreads m) t i = some id

/-! ## Names -/

namespace Table

lemma mem_list (t : Table) : t ∈ list := by cases t <;> decide

lemma nodup_list : list.Nodup := by decide

lemma name_injective {t t' : Table} (h : t.name = t'.name) : t = t' := by
  revert h
  cases t <;> cases t' <;> decide

/-- The name of a table does not end with a digit. -/
lemma not_isDigit_name (t : Table) : ∀ c ∈ t.name.toList.getLast?, c.isDigit = false := by
  have hall : t.name.toList.getLast?.all (fun c => !c.isDigit) = true := by cases t <;> decide
  intro c hc
  rw [Option.mem_def.mp hc, Option.all_some, Bool.not_eq_true'] at hall
  exact hall

lemma toList_partName (t : Table) (i : ℕ) :
    (t.partName i).toList = t.name.toList ++ '_' :: Nat.toDigits 10 i := by
  simp [partName, String.toList_append, Nat.toList_repr]

/-- The digits at the end of a partition's name, and the table in front of them. -/
lemma partName_injective {t t' : Table} {i i' : ℕ} (h : t.partName i = t'.partName i') :
    t = t' ∧ i = i' := by
  have hdigits (n : ℕ) : ∀ c ∈ (Nat.toDigits 10 n).reverse, Char.isDigit c = true := fun c hc =>
    Nat.isDigit_of_mem_toDigits (by decide) le_rfl (mem_reverse.mp hc)
  have hrev := congrArg (fun s => s.toList.reverse) h
  simp only [toList_partName, reverse_append, reverse_cons, append_assoc, singleton_append] at hrev
  have htake := congrArg (takeWhile Char.isDigit) hrev
  have hdrop := congrArg (dropWhile Char.isDigit) hrev
  rw [takeWhile_append_of_pos (hdigits i), takeWhile_append_of_pos (hdigits i')] at htake
  rw [dropWhile_append_of_pos (hdigits i), dropWhile_append_of_pos (hdigits i')] at hdrop
  have hi : Nat.toDigits 10 i = Nat.toDigits 10 i' := by simpa using htake
  have hname : t.name.toList = t'.name.toList := by simpa using hdrop
  refine ⟨name_injective (String.toList_injective hname), ?_⟩
  rw [← Nat.ofDigitChars_ten_toDigits (n := i), hi, Nat.ofDigitChars_ten_toDigits]

lemma name_ne_partName (t t' : Table) (i : ℕ) : t.name ≠ t'.partName i := by
  intro h
  have hlast := t.not_isDigit_name
  rw [h, toList_partName] at hlast
  have hne : Nat.toDigits 10 i ≠ [] := Nat.toDigits_ne_nil
  have hdigit := Nat.isDigit_of_mem_toDigits (by decide) le_rfl (getLast_mem hne)
  rw [hlast ((Nat.toDigits 10 i).getLast hne) (by
    rw [getLast?_append_of_ne_nil _ (cons_ne_nil _ _),
      getLast?_cons_of_ne_nil hne, getLast?_eq_some_getLast hne]
    rfl)] at hdigit
  cases hdigit

/-- The string is a name of an index of the table. -/
def Names (t : Table) (s : String) : Prop := s = t.name ∨ ∃ i, s = t.partName i

lemma Names.unique {t t' : Table} {s : String} (h : t.Names s) (h' : t'.Names s) : t = t' := by
  obtain rfl | ⟨i, rfl⟩ := h
  · obtain h' | ⟨i', h'⟩ := h'
    · exact name_injective h'
    · exact absurd h' (name_ne_partName t t' i')
  · obtain h' | ⟨i', h'⟩ := h'
    · exact absurd h'.symm (name_ne_partName t' t i)
    · exact (partName_injective h').1

end Table

/-! ## Numbering -/

variable {nthreads w : ℕ} {s : TableLogger} {t : Table} {ts : List Table}

/-- A table gets the next `m` ids, and the one `item` table the next id for all `m` places. -/
def numberTable (m : ℕ) (next : ℕ) (t : Table) : List ℕ × ℕ :=
  if t.isReadOnly then (List.replicate m next, next + 1)
  else ((List.range m).map (next + ·), next + m)

/-- All tables in order, from the id 10001 on. -/
def numberTables (m : ℕ) : List (Table × List ℕ) := openAll (numberTable m) 10001 Table.list

lemma getNextTableID_of_new {name : String} (h : s.tableMap.lookup name = none) :
    s.getNextTableID name = (s.tableId, ⟨s.tableId + 1, (name, s.tableId) :: s.tableMap⟩) := by
  rw [TableLogger.getNextTableID, h]

lemma lookup_cons_of_ne {x name : String} (h : x ≠ name) (id : ℕ) (m : List (String × ℕ)) :
    ((name, id) :: m).lookup x = m.lookup x := by
  rw [lookup_cons, beq_false_of_ne h]

/-- New names get consecutive ids. -/
lemma openIndexes_of_new {names : List String} (hnodup : names.Nodup)
    (hnew : ∀ name ∈ names, s.tableMap.lookup name = none) :
    (s.openIndexes names).1 = (range names.length).map (s.tableId + ·) ∧
      (s.openIndexes names).2.tableId = s.tableId + names.length ∧
      ∀ name ∉ names, (s.openIndexes names).2.tableMap.lookup name = s.tableMap.lookup name := by
  induction names generalizing s with
  | nil => exact ⟨rfl, rfl, fun _ _ => rfl⟩
  | cons name names ih =>
    obtain ⟨hname, hnodup⟩ := nodup_cons.mp hnodup
    have hrest (x : String) (hx : x ∈ names) :
        ((name, s.tableId) :: s.tableMap).lookup x = none := by
      have hne : x ≠ name := by
        rintro rfl
        exact hname hx
      rw [lookup_cons_of_ne hne]
      exact hnew x (mem_cons_of_mem name hx)
    obtain ⟨hids, hnext, hsame⟩ :=
      ih (s := ⟨s.tableId + 1, (name, s.tableId) :: s.tableMap⟩) hnodup hrest
    rw [TableLogger.openIndexes, getNextTableID_of_new (hnew name mem_cons_self)]
    refine ⟨?_, ?_, fun x hx => ?_⟩
    · rw [length_cons, range_succ_eq_map, map_cons, map_map]
      simp only [hids, Nat.add_zero, cons.injEq, true_and]
      exact map_congr_left fun i _ => by simp only [Function.comp_apply]; omega
    · rw [length_cons]
      simp only [hnext]
      omega
    · rw [mem_cons, not_or] at hx
      rw [← lookup_cons_of_ne hx.1 s.tableId s.tableMap]
      exact hsame x hx.2

/-- Opening the indexes of a new table numbers them, and no name of another table is taken. -/
lemma openTablesForTablespace_of_new (hw : w ≤ nthreads)
    (hnew : ∀ name, t.Names name → s.tableMap.lookup name = none) :
    (s.openTablesForTablespace nthreads w t).1 = (numberTable w s.tableId t).1 ∧
      (s.openTablesForTablespace nthreads w t).2.tableId = (numberTable w s.tableId t).2 ∧
      ∀ t' ≠ t, ∀ name, t'.Names name →
        (s.openTablesForTablespace nthreads w t).2.tableMap.lookup name =
          s.tableMap.lookup name := by
  rw [TableLogger.openTablesForTablespace, numberTable]
  split
  · rw [getNextTableID_of_new (hnew t.name (.inl rfl))]
    refine ⟨rfl, rfl, fun t' ht' name hname => ?_⟩
    exact lookup_cons_of_ne (fun heq => ht' (hname.unique (.inl heq))) _ _
  · have hnodup : ((range w).map t.partName).Nodup :=
      (nodup_map_iff fun i j h => (Table.partName_injective h).2).mpr nodup_range
    obtain ⟨hids, hnext, hsame⟩ := openIndexes_of_new hnodup fun name hname => by
      obtain ⟨i, -, rfl⟩ := mem_map.mp hname
      exact hnew _ (.inr ⟨i, rfl⟩)
    rw [length_map, length_range] at hids hnext
    refine ⟨hids, hnext, fun t' ht' name hname => hsame name fun hmem => ?_⟩
    obtain ⟨i, -, rfl⟩ := mem_map.mp hmem
    exact ht' (hname.unique (.inr ⟨i, rfl⟩))

lemma openAll_leader (hw : w ≤ nthreads) (hnodup : ts.Nodup)
    (hnew : ∀ t ∈ ts, ∀ name, t.Names name → s.tableMap.lookup name = none) :
    openAll (TableLogger.openTablesForTablespace nthreads w) s ts =
      openAll (numberTable w) s.tableId ts := by
  induction ts generalizing s with
  | nil => rfl
  | cons t ts ih =>
    obtain ⟨ht, hnodup⟩ := nodup_cons.mp hnodup
    obtain ⟨hids, hnext, hsame⟩ :=
      openTablesForTablespace_of_new hw (hnew t mem_cons_self)
    rw [openAll_cons, openAll_cons, ← hids, ← hnext, ih hnodup]
    intro t' ht' name hname
    rw [hsame t' (fun heq => ht (heq ▸ ht')) name hname]
    exact hnew t' (mem_cons_of_mem t ht') name hname

/-- With a thread for each warehouse the leader numbers its tables with one id for each
warehouse. -/
lemma leaderPartitions_eq (hw : w ≤ nthreads) : leaderPartitions nthreads w = numberTables w :=
  openAll_leader hw Table.nodup_list fun _ _ _ _ => rfl

/-- An index that is opened by id has that id, cut to 16 bits. -/
lemma openShort_fst (m : TableInstances) (id : ℕ) : (m.openShort id).1 = id % 2 ^ 16 := by
  rw [TableInstances.openShort, TableInstances.openIndex]
  split
  · next index h => exact m.own _ _ h
  · rfl

lemma openIndexes_fst (m : TableInstances) (ids : List ℕ) :
    (m.openIndexes ids).1 = ids.map (· % 2 ^ 16) := by
  induction ids generalizing m with
  | nil => rfl
  | cons id ids ih => rw [TableInstances.openIndexes, map_cons, ← openShort_fst m id, ← ih]

lemma openAll_failover (nthreads tableId : ℕ) (m : TableInstances) (ts : List Table) :
    openAll (reopenTable nthreads) (tableId, m) ts =
      (openAll (numberTable nthreads) (tableId + 1) ts).map fun (t, ids) =>
        (t, ids.map (· % 2 ^ 16)) := by
  induction ts generalizing tableId m with
  | nil => rfl
  | cons t ts ih =>
    rw [openAll_cons, openAll_cons, reopenTable, numberTable, Table.isReadOnly]
    by_cases hitem : t.name = "item"
    · simp [hitem, openIndexes_fst, ih]
    · simp [hitem, openIndexes_fst, ih, Nat.add_right_comm, Nat.add_assoc]

/-- A machine that takes over numbers its tables with one id for each thread, in 16 bits. -/
lemma failoverPartitions_eq (nthreads : ℕ) (m : TableInstances) : failoverPartitions nthreads m =
      (numberTables nthreads).map fun (t, ids) => (t, ids.map (· % 2 ^ 16)) :=
  openAll_failover nthreads 10000 m Table.list

/-! ## When the ids agree -/

/-- The number of ids of the tables in front of `t` if a table but `item` has `m` ids. -/
def idsBefore (m : ℕ) (t : Table) : List Table → ℕ
  | [] => 0
  | t' :: ts => if t' = t then 0 else (if t'.isReadOnly then 1 else m) + idsBefore m t ts

lemma lookup_openAll (m next : ℕ) (h : t ∈ ts) : (openAll (numberTable m) next ts).lookup t =
      some (numberTable m (next + idsBefore m t ts) t).1 := by
  induction ts generalizing next with
  | nil => cases h
  | cons t' ts ih =>
    rw [openAll_cons, idsBefore, lookup_cons]
    by_cases heq : t' = t
    · subst heq
      simp
    · have hmem : t ∈ ts := (mem_cons.mp h).resolve_left fun h => heq h.symm
      have hnext : (numberTable m next t').2 = next + if t'.isReadOnly then 1 else m := by
        rw [numberTable]
        split <;> rfl
      rw [beq_false_of_ne (Ne.symm heq), if_neg heq, ← Nat.add_assoc, ← hnext]
      exact ih _ hmem

/-- The id at a place of the numbered tables. -/
lemma at?_numberTables (m : ℕ) (t : Table) (i : ℕ) : at? (numberTables m) t i =
      if i < m then some (10001 + idsBefore m t Table.list + if t.isReadOnly then 0 else i)
      else none := by
  rw [at?, numberTables, lookup_openAll m 10001 t.mem_list, numberTable]
  by_cases hi : i < m <;> cases t.isReadOnly <;> simp [hi]

lemma at?_map (f : ℕ → ℕ) (partitions : List (Table × List ℕ)) (t : Table) (i : ℕ) :
    at? (partitions.map fun (t, ids) => (t, ids.map f)) t i = (at? partitions t i).map f := by
  unfold at?
  induction partitions with
  | nil => rfl
  | cons x partitions ih =>
    rw [map_cons, lookup_cons, lookup_cons]
    cases t == x.1
    · exact ih
    · simp

lemma at?_failoverPartitions (m : TableInstances) (t : Table) (i : ℕ) :
    at? (failoverPartitions nthreads m) t i =
      (at? (numberTables nthreads) t i).map (· % 2 ^ 16) := by
  rw [failoverPartitions_eq, at?_map]

/-- All tables together have `11 * m + 1` ids. -/
lemma idsBefore_add_le (m : ℕ) (t : Table) :
    idsBefore m t Table.list + (if t.isReadOnly then 1 else m) ≤ 11 * m + 1 := by
  cases t <;> simp [idsBefore, Table.list, Table.isReadOnly, Table.name] <;> omega

lemma idsBefore_modEq {m m' : ℕ} (h : m ≡ m' [MOD 2 ^ 16]) (t : Table) :
    idsBefore m t Table.list ≡ idsBefore m' t Table.list [MOD 2 ^ 16] := by
  generalize Table.list = ts
  induction ts with
  | nil => rfl
  | cons t' ts ih =>
    rw [idsBefore, idsBefore]
    split
    · rfl
    · refine Nat.ModEq.add ?_ ih
      split
      · rfl
      · exact h

/-- The table ids agree exactly if there are not more warehouses than threads, as many modulo
`2 ^ 16`, and all ids fit 16 bits. -/
theorem tableIdsAgree_iff (nthreads w : ℕ) (m : TableInstances) (hw : 1 ≤ w) :
    TableIdsAgree nthreads w m ↔
      w ≤ nthreads ∧ w % 2 ^ 16 = nthreads % 2 ^ 16 ∧ 10001 + 11 * w < 2 ^ 16 := by
  constructor
  · intro hagree
    have hle : w ≤ nthreads := by
      by_contra hlt
      obtain ⟨id, -, hid⟩ := hagree .customer nthreads (by omega)
      rw [at?_failoverPartitions, at?_numberTables, if_neg (lt_irrefl _)] at hid
      cases hid
    have hid (t : Table) (i : ℕ) (hi : i < w) :
        10001 + idsBefore w t Table.list + (if t.isReadOnly then 0 else i) =
          (10001 + idsBefore nthreads t Table.list + (if t.isReadOnly then 0 else i)) %
            2 ^ 16 := by
      obtain ⟨id, hleader, hfailover⟩ := hagree t i hi
      rw [leaderPartitions_eq hle, at?_numberTables, if_pos hi] at hleader
      rw [at?_failoverPartitions, at?_numberTables, if_pos (hi.trans_le hle)] at hfailover
      exact (Option.some.inj hleader).trans (Option.some.inj hfailover).symm
    have hsecond := hid .customerNameIdx 0 (by omega)
    have hlast := hid .warehouse (w - 1) (by omega)
    simp only [idsBefore, Table.list, Table.isReadOnly, Table.name, reduceCtorEq, ↓reduceIte,
      String.reduceEq, decide_false, decide_true, Bool.false_eq_true, add_zero,
      Nat.reducePow] at hsecond hlast
    refine ⟨hle, ?_, ?_⟩ <;> omega
  · rintro ⟨hle, hmod, hmax⟩ t i hi
    refine ⟨_, by rw [leaderPartitions_eq hle, at?_numberTables, if_pos hi], ?_⟩
    rw [at?_failoverPartitions, at?_numberTables, if_pos (hi.trans_le hle), Option.map_some]
    have hbound := idsBefore_add_le w t
    have hcongr : idsBefore nthreads t Table.list ≡ idsBefore w t Table.list [MOD 2 ^ 16] :=
      idsBefore_modEq hmod.symm t
    rw [Nat.ModEq] at hcongr
    congr 1
    cases hro : t.isReadOnly <;> simp [hro] at hbound ⊢ <;> omega

/-- No table was opened by id yet. -/
def noInstances : TableInstances where
  find _ := none
  own := by
    intro id index h
    cases h

theorem tableIdsAgree_iff_three : 1 ≤ 3 ∧ TableIdsAgree 3 3 noInstances :=
  ⟨by decide, (tableIdsAgree_iff 3 3 noInstances (by decide)).mpr (by decide)⟩

/-- Two warehouses and three threads: the second table starts with the id 10003 at the leader and
with 10004 at the machine that takes over. -/
theorem not_tableIdsAgree_twoWarehouses :
    at? (leaderPartitions 3 2) .customerNameIdx 0 = some 10003 ∧
      at? (failoverPartitions 3 noInstances) .customerNameIdx 0 = some 10004 ∧
      ¬TableIdsAgree 3 2 noInstances := by
  have hleader : at? (leaderPartitions 3 2) .customerNameIdx 0 = some 10003 := by decide
  have hfailover : at? (failoverPartitions 3 noInstances) .customerNameIdx 0 = some 10004 := by
    decide
  refine ⟨hleader, hfailover, fun h => ?_⟩
  obtain ⟨id, hid, hid'⟩ := h .customerNameIdx 0 (by decide)
  cases hleader.symm.trans hid
  cases hfailover.symm.trans hid'

end Rolis.Tpcc
