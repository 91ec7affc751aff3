import Rolis.Sto.OneContainer

/-!
# Loading records into containers

`load_objects_from_buffer` sorts the records of a buffer by table, and cuts the records of each
table into slices for the threads. The slices are right: they are the records of the table in their
order. The loop over the buffer is not: it counts 48 bytes for each record of 27, and it stops when
it has counted as many bytes as the buffer has.

`covered` is an `int` to which a `size_t` is added, so it goes round at `2^31`.
-/

namespace Rolis.Sto.LoadObjects

open Bytes OrdMap Option OneContainer

/-! ## Reading the buffer -/

/-- `container_hello`: the name of the table, the thread, the table id and the records. -/
structure ContainerHello where
  fileName : Bytes
  threadId : ℕ
  tableId : ℤ
  list : List OneContainer
deriving DecidableEq

/-- `all_files_names_temp`. -/
abbrev Tables := List (ℤ × ContainerHello)

/-- `all_files_names_temp` before the first record. -/
def initTables (tableMap : TableMap) (wthreads : ℕ) : Tables :=
  insertAll (tableMap.zipIdx.map fun (table, tid) => (table.2, ⟨table.1, wthreads, tid, []⟩)) []

/-- `table_map_rev[id]`. -/
def tableMapRev (tableMap : TableMap) (id : ℤ) : Bytes :=
  (lookup id (insertAll (tableMap.map Prod.swap) [])).getD []

/-- `all_files_names_temp[table_id]->add_one_container (entry)`, if the table is there. -/
def addOneContainer (tables : Tables) (entry : OneContainer) : Option Tables :=
  (lookup (entry.tableId : ℤ) tables).map fun c =>
    insert (entry.tableId : ℤ) { c with list := c.list ++ [entry] } tables

/-- The loop over the buffer: how many records it has read, and the tables. There is at least one
byte left for each turn, so `length` turns are enough. -/
def loop (buffer : Bytes) (length : ℕ) : ℕ → ℕ → ℤ → ℕ → Tables → Except Stop (ℕ × Tables)
  | 0, _, _, totalEntriesGlobal, tables => .ok (totalEntriesGlobal, tables)
  | turns + 1, rw, covered, totalEntriesGlobal, tables =>
    if length ≤ rw then .ok (totalEntriesGlobal, tables)
    -- `covered` is compared as an `int`
    else if (length : ℤ) ≤ covered then .ok (totalEntriesGlobal, tables)
    else
      match OneContainer.readAt buffer rw with
      | none => .error .outOfBounds
      | some entry =>
        match addOneContainer tables entry with
        | none => .error .exit
        | some tables =>
          -- 27 bytes were read, and six words are counted
          loop buffer length turns (rw + 27) ((covered + 48).bmod (2 ^ 32))
            (totalEntriesGlobal + 1) tables

/-! ## Slices -/

/-- `GetSlice`. -/
def getSlice (input : List OneContainer) (start stop : ℕ) : List OneContainer :=
  (input.drop start).take (stop - start)

/-- The loop over the threads: the slices of one table. -/
def slices (allHere : List OneContainer) (oneSliceSize restModSliceSize totalEntriesGlobal : ℕ) :
    ℕ → ℕ → List (List OneContainer)
  | 0, _ => []
  | nthreadsc + 1, exhausted =>
    let sliceSize :=
      if exhausted + oneSliceSize < totalEntriesGlobal then oneSliceSize
      else totalEntriesGlobal - exhausted
    -- the last slice takes the rest of the division
    let exitNow := (nthreadsc = 0 ∨ sliceSize = 0) ∧ restModSliceSize ≠ 0
    let sliceSize := if exitNow then sliceSize + restModSliceSize else sliceSize
    if sliceSize = 0 then []
    else
      let newArr := getSlice allHere exhausted (exhausted + sliceSize)
      if newArr = [] then []
      else
        newArr ::
          if exitNow then []
          else
            slices allHere oneSliceSize restModSliceSize totalEntriesGlobal nthreadsc
              (exhausted + sliceSize)

/-- The slices of a table for all threads. -/
def tableSlices (nthreads totalEntriesGlobal : ℕ) (allHere : List OneContainer) :
    List (List OneContainer) :=
  slices allHere (allHere.length / nthreads) (allHere.length % nthreads) totalEntriesGlobal
    nthreads 0

/-- The containers of all tables. Each table with records is given the next thread of 32. -/
def containers (tableMap : TableMap) (nthreads totalEntriesGlobal : ℕ) :
    ℕ → Tables → List ContainerHello
  | _, [] => []
  | tidStart, (id, c) :: tables =>
    (tableSlices nthreads totalEntriesGlobal c.list).map
        (fun newArr => ⟨tableMapRev tableMap id, tidStart % 32, id, newArr⟩) ++
      containers tableMap nthreads totalEntriesGlobal
        (if c.list = [] then tidStart else tidStart + 1) tables

/-- `load_objects_from_buffer`: the containers that it appends. `tid_start` is static. -/
def loadObjectsFromBuffer (buffer : Bytes) (length wthreads nthreads : ℕ) (tableMap : TableMap)
    (tidStart : ℕ) : Except Stop (List ContainerHello) :=
  (loop buffer length length 0 0 0 (initTables tableMap wthreads)).map
    fun (totalEntriesGlobal, tables) =>
      containers tableMap nthreads totalEntriesGlobal tidStart tables

/-! ## Slices make up the table -/

section Slices

variable {allHere : List OneContainer} {one rest total exhausted n : ℕ}

lemma getSlice_append_drop (input : List OneContainer) (start size : ℕ) :
    getSlice input start (start + size) ++ input.drop (start + size) = input.drop start := by
  rw [getSlice, Nat.add_sub_cancel_left, ← List.drop_drop, List.take_append_drop]

lemma getSlice_ne_nil {start size : ℕ} (hsize : size ≠ 0)
    (hle : start + size ≤ allHere.length) : getSlice allHere start (start + size) ≠ [] := by
  intro hnil
  have hlen := congrArg List.length hnil
  rw [getSlice, Nat.add_sub_cancel_left, List.length_take, List.length_drop, List.length_nil]
    at hlen
  omega

/-- The slices of a table are its records from the first that is not exhausted, in their order. -/
lemma flatten_slices (htotal : allHere.length ≤ total)
    (hsize : exhausted + n * one + rest = allHere.length) (hlast : n = 0 → rest = 0) :
    (slices allHere one rest total n exhausted).flatten = allHere.drop exhausted := by
  induction n generalizing exhausted with
  | zero =>
    rw [hlast rfl, Nat.zero_mul] at hsize
    rw [slices, List.flatten_nil, List.drop_eq_nil_of_le (by omega)]
  | succ n ih =>
    rw [Nat.succ_mul] at hsize
    -- the bound of all entries never cuts a slice short
    have hone : (if exhausted + one < total then one else total - exhausted) = one := by
      split
      · rfl
      · omega
    rw [slices]
    simp only [hone]
    by_cases hexit : (n = 0 ∨ one = 0) ∧ rest ≠ 0
    · have hzero : n * one = 0 := by
        rcases hexit.1 with rfl | rfl
        · exact Nat.zero_mul _
        · exact Nat.mul_zero _
      have hsum : one + rest ≠ 0 := by omega
      have hend := getSlice_append_drop allHere exhausted (one + rest)
      rw [List.drop_eq_nil_of_le (by omega), List.append_nil] at hend
      simp only [if_pos hexit]
      rw [if_neg hsum, if_neg (getSlice_ne_nil hsum (by omega)), List.flatten_cons,
        List.flatten_nil, List.append_nil, hend]
    · simp only [if_neg hexit]
      by_cases hnone : one = 0
      · have hrest : rest = 0 := by
          by_contra hne
          exact hexit ⟨.inr hnone, hne⟩
        rw [if_pos hnone, List.flatten_nil, List.drop_eq_nil_of_le]
        rw [hnone, Nat.mul_zero] at hsize
        omega
      · have hlast' : n = 0 → rest = 0 := by
          intro hn
          by_contra hne
          exact hexit ⟨.inl hn, hne⟩
        have hnext : (slices allHere one rest total n (exhausted + one)).flatten =
            allHere.drop (exhausted + one) := ih (by omega) hlast'
        rw [if_neg hnone, if_neg (getSlice_ne_nil hnone (by omega)), List.flatten_cons, hnext,
          getSlice_append_drop]

lemma flatten_tableSlices {nthreads : ℕ} (hn : 1 ≤ nthreads) (htotal : allHere.length ≤ total) :
    (tableSlices nthreads total allHere).flatten = allHere := by
  rw [tableSlices, flatten_slices htotal, List.drop_zero]
  · rw [Nat.zero_add, Nat.div_add_mod]
  · omega

end Slices

/-! ## Tables -/

/-- The records that were added to a table. -/
def itemsOf (tables : Tables) (id : ℤ) : Option (List OneContainer) :=
  (lookup id tables).map ContainerHello.list

/-- The records of a table. -/
def ofTable (id : ℤ) (records : List OneContainer) : List OneContainer :=
  records.filter fun e => (e.tableId : ℤ) = id

/-- Each table of the map holds its records. -/
structure Holds (tableMap : TableMap) (records : List OneContainer) (tables : Tables) : Prop where
  sorted : Sorted tables
  items : ∀ id, itemsOf tables id = if id ∈ tableMap.ids then some (ofTable id records) else none

section Tables

variable {tableMap : TableMap} {records : List OneContainer} {tables : Tables} {e : OneContainer}

lemma mem_keys_initTables (tableMap : TableMap) (wthreads : ℕ) (id : ℤ) :
    id ∈ (initTables tableMap wthreads).map Prod.fst ↔ id ∈ tableMap.ids := by
  have hids : (tableMap.zipIdx.map
      fun x => (x.1.2, (⟨x.1.1, wthreads, x.2, []⟩ : ContainerHello))).map
      Prod.fst = tableMap.map Prod.snd := by
    conv_rhs => rw [← List.zipIdx_map_fst 0 tableMap]
    rw [List.map_map, List.map_map]
    rfl
  rw [initTables, mem_keys_insertAll, hids, TableMap.ids, List.mem_toFinset]
  exact or_iff_left List.not_mem_nil

lemma holds_init (tableMap : TableMap) (wthreads : ℕ) :
    Holds tableMap [] (initTables tableMap wthreads) := by
  have hsorted : Sorted (initTables tableMap wthreads) := Sorted.insertAll List.Pairwise.nil _
  refine ⟨hsorted, fun id => ?_⟩
  have hkeys := mem_keys_initTables tableMap wthreads id
  cases hlook : lookup id (initTables tableMap wthreads) with
  | none =>
    have hid : id ∉ tableMap.ids := by
      rw [← hkeys]
      intro hmem
      obtain ⟨⟨id', c⟩, hentry, rfl⟩ := List.mem_map.mp hmem
      rw [hsorted.mem_iff.mp hentry] at hlook
      cases hlook
    rw [itemsOf, hlook, if_neg hid, map_none]
  | some c =>
    have hentry : (id, c) ∈ initTables tableMap wthreads := hsorted.mem_iff.mpr hlook
    have hid : id ∈ tableMap.ids := hkeys.mp (List.mem_map.mpr ⟨_, hentry, rfl⟩)
    have hempty : c.list = [] := by
      rcases mem_of_mem_insertAll hentry with hnew | hold
      · obtain ⟨x, -, hx⟩ := List.mem_map.mp hnew
        rw [Prod.mk.injEq] at hx
        rw [← hx.2]
      · cases hold
    rw [itemsOf, hlook, if_pos hid, map_some, hempty]
    rfl

lemma Holds.add (h : Holds tableMap records tables) (hid : (e.tableId : ℤ) ∈ tableMap.ids) :
    ∃ tables', addOneContainer tables e = some tables' ∧
      Holds tableMap (records ++ [e]) tables' := by
  have hitems := h.items e.tableId
  rw [if_pos hid, itemsOf, map_eq_some_iff] at hitems
  obtain ⟨c, hc, hlist⟩ := hitems
  refine ⟨_, by rw [addOneContainer, hc, map_some], h.sorted.insert _ _, fun id => ?_⟩
  rw [itemsOf, lookup_insert]
  by_cases hsame : id = e.tableId
  · have hfilter : ofTable id (records ++ [e]) = ofTable id records ++ [e] := by
      rw [ofTable, List.filter_append, List.filter_cons_of_pos (by simpa using hsame.symm),
        List.filter_nil, ofTable]
    rw [if_pos hsame, hsame, if_pos hid, ← hsame, hfilter, hsame, map_some, hlist]
  · have hfilter : ofTable id (records ++ [e]) = ofTable id records := by
      rw [ofTable, List.filter_append, List.filter_cons_of_neg (by simpa using Ne.symm hsame),
        List.filter_nil, List.append_nil, ofTable]
    rw [if_neg hsame, hfilter]
    exact h.items id

end Tables

/-! ## How far the loop comes -/

section Loop

variable {tableMap : TableMap} {pre post : List OneContainer} {tables : Tables}

/-- The loop reads a first part of the records. It reads all of them if the count of bytes stays
below the length of the buffer in front of each. -/
lemma loop_eq (hknown : ∀ e ∈ post, (e.tableId : ℤ) ∈ tableMap.ids)
    (hholds : Holds tableMap pre tables) {turns : ℕ} (hturns : post.length ≤ turns) :
    ∃ m tables', loop ((pre ++ post).flatMap encoding) ((pre ++ post).length * 27)
        turns (pre.length * 27) ((pre.length * 48 : ℤ).bmod (2 ^ 32)) pre.length tables =
          .ok (m, tables') ∧
      m ≤ (pre ++ post).length ∧ Holds tableMap ((pre ++ post).take m) tables' ∧
      (m = (pre ++ post).length ↔ ∀ k : ℕ, pre.length ≤ k → k < (pre ++ post).length →
        (k * 48 : ℤ).bmod (2 ^ 32) < ((pre ++ post).length * 27 : ℕ)) := by
  induction post generalizing pre tables turns with
  | nil =>
    have hloop : loop ((pre ++ []).flatMap encoding) ((pre ++ []).length * 27) turns
        (pre.length * 27) ((pre.length * 48 : ℤ).bmod (2 ^ 32)) pre.length tables =
          .ok (pre.length, tables) := by
      rw [List.append_nil]
      cases turns with
      | zero => rfl
      | succ turns => rw [loop, if_pos le_rfl]
    refine ⟨pre.length, tables, hloop, ?_, ?_, ?_⟩
    · rw [List.append_nil]
    · rw [List.append_nil, List.take_length]
      exact hholds
    · rw [List.append_nil]
      exact iff_of_true rfl fun k hle hlt => absurd hlt (not_lt.mpr hle)
  | cons e post ih =>
    obtain ⟨turns, rfl⟩ : ∃ t, turns = t + 1 :=
      ⟨turns - 1, by rw [List.length_cons] at hturns; omega⟩
    have hlt : pre.length < (pre ++ e :: post).length := by
      rw [List.length_append, List.length_cons]
      omega
    have hmore : ¬ (pre ++ e :: post).length * 27 ≤ pre.length * 27 := by omega
    by_cases hstop : (((pre ++ e :: post).length * 27 : ℕ) : ℤ) ≤
        (pre.length * 48 : ℤ).bmod (2 ^ 32)
    · refine ⟨pre.length, tables, ?_, hlt.le, ?_, ?_⟩
      · rw [loop, if_neg hmore, if_pos hstop]
      · rw [List.take_left]
        exact hholds
      · refine iff_of_false hlt.ne fun h => ?_
        exact absurd (h pre.length le_rfl hlt) (not_lt.mpr hstop)
    · have hread : readAt ((pre ++ e :: post).flatMap encoding) (pre.length * 27) = some e := by
        rw [readAt_flatMap, List.getElem?_append_right le_rfl, Nat.sub_self,
          List.getElem?_cons_zero]
      obtain ⟨tables', hadd, hholds'⟩ := hholds.add (hknown e List.mem_cons_self)
      have hturns' : post.length ≤ turns := by
        rw [List.length_cons] at hturns
        omega
      obtain ⟨m, tables'', hloop, hm, hholds'', hiff⟩ :=
        ih (fun e' he' => hknown e' (List.mem_cons_of_mem e he')) hholds' hturns'
      have hcount : (pre ++ [e]).length = pre.length + 1 := by
        rw [List.length_append, List.length_singleton]
      have hcovered : ((((pre.length + 1 : ℕ) : ℤ) * 48)).bmod (2 ^ 32) =
          ((pre.length * 48 : ℤ).bmod (2 ^ 32) + 48).bmod (2 ^ 32) := by
        rw [Int.bmod_add_bmod]
        push_cast
        congr 1
        ring
      rw [List.append_assoc, List.singleton_append, hcount] at hloop hiff
      rw [List.append_assoc, List.singleton_append] at hm hholds''
      rw [hcovered, Nat.succ_mul] at hloop
      refine ⟨m, tables'', ?_, hm, hholds'', ?_⟩
      · rw [loop, if_neg hmore, if_neg hstop, hread]
        simp only [hadd]
        exact hloop
      · rw [hiff]
        constructor
        · intro h k hle hk
          rcases eq_or_lt_of_le hle with rfl | hlt'
          · exact not_le.mp hstop
          · exact h k hlt' hk
        · intro h k hle hk
          exact h k (Nat.le_of_succ_le hle) hk

/-- An `int` that was counted up to less than `2^32`. -/
lemma bmod_natCast {x : ℕ} (hx : x < 2 ^ 32) :
    (x : ℤ).bmod (2 ^ 32) = if x < 2 ^ 31 then (x : ℤ) else x - 2 ^ 32 := by
  have hmod : (x : ℤ) % ((2 ^ 32 : ℕ) : ℤ) = x := Int.emod_eq_of_lt (by omega) (by omega)
  rw [Int.bmod_def, hmod]
  split
  · rw [if_pos (by omega)]
  · rw [if_neg (by omega)]
    rfl

/-- The count stays below the length only if there are at most two records, or if it goes round
just before it would reach the length. -/
lemma covered_lt_iff {n : ℕ} (hn : n * 27 < 2 ^ 31) :
    (∀ k : ℕ, k < n → (k * 48 : ℤ).bmod (2 ^ 32) < (n * 27 : ℕ)) ↔ n ≤ 2 ∨ n = 79536431 := by
  have hcast : ∀ k : ℕ, k < n → (k * 48 : ℤ).bmod (2 ^ 32) =
      if k * 48 < 2 ^ 31 then ((k * 48 : ℕ) : ℤ) else (k * 48 : ℕ) - 2 ^ 32 := by
    intro k hk
    rw [← bmod_natCast (by omega)]
    push_cast
    rfl
  constructor
  · intro h
    by_contra hcon
    obtain ⟨hthree, hne⟩ := not_or.mp hcon
    -- the first record with at least as many bytes counted as there are
    obtain ⟨k, hle, hlt⟩ : ∃ k, n * 27 ≤ k * 48 ∧ k * 48 < n * 27 + 48 :=
      ⟨(n * 27 + 47) / 48, by omega, by omega⟩
    have hfirst := h k (by omega)
    rw [hcast k (by omega)] at hfirst
    split at hfirst <;> omega
  · intro h k hk
    rw [hcast k hk]
    split <;> omega

end Loop

/-! ## Containers -/

/-- Each container is of one table, and the containers of a table hold its records in order. -/
structure Partition (records : List OneContainer) (cs : List ContainerHello) : Prop where
  oneTable : ∀ c ∈ cs, ∀ e ∈ c.list, (e.tableId : ℤ) = c.tableId
  inOrder : ∀ id : ℤ, (cs.filter (·.tableId = id)).flatMap ContainerHello.list = ofTable id records

section Containers

variable {tableMap : TableMap} {records : List OneContainer} {tables : Tables}
  {nthreads total tidStart : ℕ}

lemma flatMap_containers (hn : 1 ≤ nthreads) (hsorted : Sorted tables)
    (htotal : ∀ entry ∈ tables, entry.2.list.length ≤ total) (id : ℤ) :
    ((containers tableMap nthreads total tidStart tables).filter (·.tableId = id)).flatMap
      ContainerHello.list = (itemsOf tables id).getD [] := by
  induction tables generalizing tidStart with
  | nil => rfl
  | cons entry tables ih =>
    obtain ⟨id', c⟩ := entry
    have hrest : ((containers tableMap nthreads total
        (if c.list = [] then tidStart else tidStart + 1) tables).filter (·.tableId = id)).flatMap
          ContainerHello.list = (itemsOf tables id).getD [] :=
      ih (List.pairwise_cons.mp hsorted).2 fun entry he => htotal entry (List.mem_cons_of_mem _ he)
    have hslices := flatten_tableSlices hn (htotal _ List.mem_cons_self)
    rw [containers, List.filter_append, List.flatMap_append, hrest]
    by_cases hid : id = id'
    · have hnone : itemsOf tables id = none := by
        rw [itemsOf, hsorted.lookup_tail hid.le, map_none]
      have hhere : itemsOf ((id', c) :: tables) id = some c.list := by
        rw [itemsOf, lookup, if_pos hid, map_some]
      rw [hnone, hhere, getD_none, getD_some, List.append_nil,
        List.filter_eq_self.mpr, List.flatMap_map]
      · exact List.flatMap_id.trans hslices
      · intro c' hc'
        obtain ⟨arr, -, rfl⟩ := List.mem_map.mp hc'
        simpa using hid.symm
    · have helse : itemsOf ((id', c) :: tables) id = itemsOf tables id := by
        rw [itemsOf, lookup, if_neg hid, itemsOf]
      rw [helse, List.filter_eq_nil_iff.mpr, List.flatMap_nil, List.nil_append]
      intro c' hc'
      obtain ⟨arr, -, rfl⟩ := List.mem_map.mp hc'
      simpa using Ne.symm hid

/-- The records of a container were added to its table. -/
lemma mem_table_of_mem_container (hn : 1 ≤ nthreads)
    (htotal : ∀ entry ∈ tables, entry.2.list.length ≤ total) {c : ContainerHello}
    (hc : c ∈ containers tableMap nthreads total tidStart tables) {e : OneContainer}
    (he : e ∈ c.list) : ∃ c', (c.tableId, c') ∈ tables ∧ e ∈ c'.list := by
  induction tables generalizing tidStart with
  | nil => cases hc
  | cons entry tables ih =>
    obtain ⟨id', c'⟩ := entry
    rw [containers] at hc
    rcases List.mem_append.mp hc with hhere | hrest
    · obtain ⟨arr, harr, rfl⟩ := List.mem_map.mp hhere
      refine ⟨c', List.mem_cons_self, ?_⟩
      rw [← flatten_tableSlices hn (htotal _ List.mem_cons_self)]
      exact List.mem_flatten.mpr ⟨arr, harr, he⟩
    · obtain ⟨c'', hmem, he'⟩ := ih (fun entry he => htotal entry (List.mem_cons_of_mem _ he)) hrest
      exact ⟨c'', List.mem_cons_of_mem _ hmem, he'⟩

lemma Holds.list_eq (h : Holds tableMap records tables) {id : ℤ} {c : ContainerHello}
    (hc : (id, c) ∈ tables) : c.list = ofTable id records := by
  have hitems := h.items id
  rw [itemsOf, h.sorted.mem_iff.mp hc, map_some] at hitems
  split at hitems
  · exact some.inj hitems
  · cases hitems

lemma Holds.partition (h : Holds tableMap records tables) (tidStart : ℕ) (hn : 1 ≤ nthreads)
    (hknown : ∀ e ∈ records, (e.tableId : ℤ) ∈ tableMap.ids) :
    Partition records (containers tableMap nthreads records.length tidStart tables) := by
  have htotal : ∀ entry ∈ tables, entry.2.list.length ≤ records.length := by
    intro entry hentry
    rw [h.list_eq hentry]
    exact List.length_filter_le _ _
  constructor
  · intro c hc e he
    obtain ⟨c', hc', he'⟩ := mem_table_of_mem_container hn htotal hc he
    rw [h.list_eq hc'] at he'
    simpa using (List.mem_filter.mp he').2
  · intro id
    rw [flatMap_containers hn h.sorted htotal, h.items id]
    by_cases hid : id ∈ tableMap.ids
    · rw [if_pos hid, getD_some]
    · rw [if_neg hid, getD_none, ofTable, List.filter_eq_nil_iff.mpr]
      intro e he hsame
      rw [decide_eq_true_eq] at hsame
      exact hid (hsame ▸ hknown e he)

/-- Records that were left out are missing in their table. -/
lemma eq_of_partition {cs : List ContainerHello} {m : ℕ} (hm : m ≤ records.length)
    (h : Partition (records.take m) cs) (h' : Partition records cs) : m = records.length := by
  by_contra hne
  have hlt : m < records.length := lt_of_le_of_ne hm hne
  obtain ⟨e, post, hsplit⟩ : ∃ e post, records = records.take m ++ e :: post :=
    ⟨records[m], records.drop (m + 1), by
      rw [← List.drop_eq_getElem_cons hlt, List.take_append_drop]⟩
  have htable : ofTable (e.tableId : ℤ) records =
      ofTable (e.tableId : ℤ) (records.take m) ++ e :: ofTable (e.tableId : ℤ) post := by
    conv_lhs => rw [hsplit]
    rw [ofTable, List.filter_append, List.filter_cons_of_pos (by simp), ofTable, ofTable]
  have hlen := congrArg List.length ((h.inOrder e.tableId).symm.trans (h'.inOrder e.tableId))
  rw [htable, List.length_append, List.length_cons] at hlen
  omega

end Containers

/-- The containers of a call are a partition of the records. -/
def LoadsExactly (records : List OneContainer) (call : Except Stop (List ContainerHello)) : Prop :=
  ∃ cs, call = .ok cs ∧ Partition records cs

/-- The records of a buffer are loaded exactly if there are at most two of them, or 79536431, where
the count of bytes goes round. -/
theorem loadObjectsFromBuffer_iff (records : List OneContainer) (wthreads nthreads : ℕ)
    (tableMap : TableMap) (tidStart : ℕ) (hn : 1 ≤ nthreads)
    (hknown : ∀ e ∈ records, (e.tableId : ℤ) ∈ tableMap.ids) (hlen : records.length * 27 < 2 ^ 31) :
    LoadsExactly records (loadObjectsFromBuffer (records.flatMap OneContainer.encoding)
        (records.length * 27) wthreads nthreads tableMap tidStart) ↔
      records.length ≤ 2 ∨ records.length = 79536431 := by
  have hturns : records.length ≤ records.length * 27 := by omega
  obtain ⟨m, tables, hloop, hm, hholds, hall⟩ :=
    loop_eq hknown (holds_init tableMap wthreads) hturns
  rw [List.nil_append] at hloop hm hholds hall
  have hcount : m = records.length ↔ records.length ≤ 2 ∨ records.length = 79536431 := by
    rw [hall, ← covered_lt_iff hlen]
    simp only [List.length_nil, Nat.zero_le, true_implies]
  have hpart : Partition (records.take m) (containers tableMap nthreads m tidStart tables) := by
    have hlength : (records.take m).length = m := List.length_take_of_le hm
    have h := hholds.partition tidStart hn fun e he =>
      hknown e (List.mem_of_mem_take he)
    rwa [hlength] at h
  have hcall : loadObjectsFromBuffer (records.flatMap OneContainer.encoding)
      (records.length * 27) wthreads nthreads tableMap tidStart =
        .ok (containers tableMap nthreads m tidStart tables) := by
    have hzero : ((([] : List OneContainer).length : ℤ) * 48).bmod (2 ^ 32) = 0 := rfl
    rw [hzero, List.length_nil, Nat.zero_mul] at hloop
    rw [loadObjectsFromBuffer, hloop]
    rfl
  rw [← hcount, LoadsExactly, hcall]
  constructor
  · rintro ⟨cs, hok, hpartition⟩
    cases hok
    exact eq_of_partition hm hpart hpartition
  · intro heq
    refine ⟨_, rfl, ?_⟩
    rw [heq, List.take_length] at hpart
    rw [heq]
    exact hpart

/-- A record of table 1. -/
def recordOf (k : UInt64) : OneContainer := .ofWords 10 k 7 1 0

/-- Two records are loaded. -/
theorem loadObjectsFromBuffer_two :
    LoadsExactly [recordOf 5, recordOf 6] (loadObjectsFromBuffer
      ([recordOf 5, recordOf 6].flatMap OneContainer.encoding) (2 * 27) 1 1
      [([116], 1)] 0) :=
  (loadObjectsFromBuffer_iff [recordOf 5, recordOf 6] 1 1 [([116], 1)] 0
    le_rfl (by decide) (by decide)).mpr (.inl le_rfl)

/-- Of three records the last one is not. -/
theorem loadObjectsFromBuffer_three :
    ¬ LoadsExactly [recordOf 5, recordOf 6, recordOf 8]
      (loadObjectsFromBuffer ([recordOf 5, recordOf 6,
        recordOf 8].flatMap OneContainer.encoding) (3 * 27) 1 1 [([116], 1)] 0) := by
  have hcall : loadObjectsFromBuffer ([recordOf 5, recordOf 6,
      recordOf 8].flatMap OneContainer.encoding) (3 * 27) 1 1 [([116], 1)] 0 =
        .ok [⟨[116], 0, 1, [recordOf 5, recordOf 6]⟩] := rfl
  rintro ⟨cs, hok, hpart⟩
  rw [hcall] at hok
  cases hok
  exact absurd (congrArg List.length (hpart.inOrder 1)) (by decide)

end Rolis.Sto.LoadObjects
