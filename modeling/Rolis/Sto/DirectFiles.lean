import Rolis.Lib.Tiling
import Rolis.Sto.OneContainer

/-!
# Replaying log files in slices

`start_replay_for_all_files_direct` reads the log files, cuts each into slices of 10.5 megabytes,
and shares the slices among threads. A thread takes records of 27 bytes out of a slice as long as
the slice has bytes left, and reads the last of them over its end. A slice is no multiple of 27
bytes, so the next slice begins in the middle of a record.
-/

namespace Rolis.Sto.DirectFiles

open Bytes Tiling List OneContainer

/-! ## The slices -/

/-- A piece of a file: the number of the file, the offset and the length. -/
structure Buffer where
  fid : ℕ
  offset : ℕ
  length : ℕ
deriving DecidableEq, Repr

/-- The default of `max_buffer_allowed`. -/
def maxBufferAllowed : ℕ := 21 * 512 * 1024

/-- The most bytes that one `read` returns. -/
def maxRead : ℕ := 0x7ffff000

/-- The slices of a file of `sz` bytes. -/
def fileBuffers (fid sz : ℕ) : List Buffer :=
  let ret := min sz maxRead
  if ret = 0 then []
  else
    let slices := ret / maxBufferAllowed
    let extra := ret % maxBufferAllowed
    (List.range slices).map (fun i => ⟨fid, i * maxBufferAllowed, maxBufferAllowed⟩) ++
      -- only the last slice is cut to whole records
      if extra = 0 then [] else [⟨fid, slices * maxBufferAllowed, extra / 27 * 27⟩]

/-- The files, by their number. A file that does not exist is `none`, others are lists of records.
-/
abbrev Files := List (Option (List OneContainer))

/-- `all_buffers`. -/
def allBuffers (files : Files) : List Buffer :=
  files.zipIdx.flatMap fun (file, fid) =>
    match file with
    | none => []
    | some records => fileBuffers fid (records.flatMap OneContainer.encoding).length

/-! ## The threads -/

/-- The loop of `load_objects_from_buffer_no_table`: the places of the records it takes out, and
what stops it, if anything does. -/
def noTableLoop (tableMap : TableMap) (file : Bytes) (start length : ℕ) :
    ℕ → ℕ → ℕ → List ℕ × Option Stop
  | 0, _, _ => ([], none)
  | turns + 1, rw, covered =>
    if length ≤ rw then ([], none)
    else if length ≤ covered then ([], none)
    else
      match OneContainer.readAt file (start + rw) with
      | none => ([], some .outOfBounds)
      | some entry =>
        if (entry.tableId : ℤ) ∈ tableMap.ids then
          let (places, stop) :=
            noTableLoop tableMap file start length turns (rw + 27) (covered + 27)
          ((start + rw) :: places, stop)
        else ([start + rw], some .exit)

/-- `replay_in_same_thread_direct`: the places of the records that are decoded. -/
def replayInSameThreadDirect (tableMap : TableMap) (files : Files) (b : Buffer) :
    List (ℕ × ℕ) × Option Stop :=
  if b.length = 0 then ([], none)
  else
    -- the slices share one array, so a read over the end of a slice finds the next one
    let file := ((files[b.fid]?).join.getD []).flatMap OneContainer.encoding
    let (places, stop) := noTableLoop tableMap (file.take maxRead) b.offset b.length b.length 0 0
    (places.map (b.fid, ·), stop)

/-- `replay_in_same_thread_wrapper` over the slices of a thread. -/
def replayInSameThreadWrapper (tableMap : TableMap) (files : Files) :
    List Buffer → List (ℕ × ℕ) × Option Stop
  | [] => ([], none)
  | b :: bs =>
    match replayInSameThreadDirect tableMap files b with
    | (places, some stop) => (places, some stop)
    | (places, none) =>
      let (places', stop) := replayInSameThreadWrapper tableMap files bs
      (places ++ places', stop)

/-- The slices of thread `i`: `stride` of them, and for the last thread all to the end. -/
def share (buffers : List Buffer) (replayThrCount i : ℕ) : List Buffer :=
  let stride := buffers.length / replayThrCount
  let offset := i * stride
  if i = replayThrCount - 1 then buffers.drop offset else (buffers.drop offset).take stride

/-- `start_replay_for_all_files_direct`: what each thread decodes. -/
def startReplayForAllFilesDirect (tableMap : TableMap) (files : Files) (replayThrCount : ℕ) :
    List (List (ℕ × ℕ) × Option Stop) :=
  (List.range replayThrCount).map fun i =>
    replayInSameThreadWrapper tableMap files (share (allBuffers files) replayThrCount i)

/-- The places of the records of the files. -/
def recordPlaces (files : Files) : List (ℕ × ℕ) :=
  files.zipIdx.flatMap fun (file, fid) =>
    match file with
    | none => []
    | some records => (List.range' 0 records.length 27).map (fid, ·)

/-- No thread is stopped, and together they decode the records of the files, each once, and nothing
else. -/
structure DecodesExactly (files : Files) (threads : List (List (ℕ × ℕ) × Option Stop)) : Prop where
  runs : ∀ thread ∈ threads, thread.2 = none
  exactly : (threads.flatMap Prod.fst).Perm (recordPlaces files)

/-! ## What a thread decodes -/

/-- The places that are decoded in a slice if nothing stops it. -/
def Buffer.places (b : Buffer) : List (ℕ × ℕ) :=
  (List.range' b.offset ((b.length + 26) / 27) 27).map (b.fid, ·)

section Threads

variable {tableMap : TableMap} {file : Bytes} {files : Files} {start length turns rw : ℕ}

lemma noTableLoop_places (rw : ℕ) (hturns : length ≤ rw + turns)
    (h : (noTableLoop tableMap file start length turns rw rw).2 = none) :
    (noTableLoop tableMap file start length turns rw rw).1 =
      range' (start + rw) ((length - rw + 26) / 27) 27 := by
  induction turns generalizing rw with
  | zero =>
    have hzero : (length - rw + 26) / 27 = 0 := by omega
    rw [noTableLoop, hzero, range'_zero]
  | succ turns ih =>
    rw [noTableLoop] at h ⊢
    by_cases hend : length ≤ rw
    · have hzero : (length - rw + 26) / 27 = 0 := by omega
      rw [if_pos hend, hzero, range'_zero]
    · rw [if_neg hend, if_neg hend] at h ⊢
      cases hread : readAt file (start + rw) with
      | none =>
        rw [hread] at h
        cases h
      | some entry =>
        rw [hread] at h
        by_cases hknown : (entry.tableId : ℤ) ∈ tableMap.ids
        · simp only [if_pos hknown] at h ⊢
          have hone : (length - rw + 26) / 27 = (length - (rw + 27) + 26) / 27 + 1 := by omega
          rw [ih (rw + 27) (by omega) h, hone, range'_succ, Nat.add_assoc]
        · simp only [if_neg hknown] at h
          cases h

/-- The loop is stopped by a record over the end of the file or of a table that is not known. -/
lemma noTableLoop_none_iff (rw : ℕ) (hturns : length ≤ rw + turns) :
    (noTableLoop tableMap file start length turns rw rw).2 = none ↔
      ∀ place ∈ range' (start + rw) ((length - rw + 26) / 27) 27,
        ∃ entry, readAt file place = some entry ∧ (entry.tableId : ℤ) ∈ tableMap.ids := by
  induction turns generalizing rw with
  | zero =>
    have hzero : (length - rw + 26) / 27 = 0 := by omega
    simp [noTableLoop, hzero]
  | succ turns ih =>
    rw [noTableLoop]
    by_cases hend : length ≤ rw
    · have hzero : (length - rw + 26) / 27 = 0 := by omega
      simp [if_pos hend, hzero]
    · have hone : (length - rw + 26) / 27 = (length - (rw + 27) + 26) / 27 + 1 := by omega
      rw [if_neg hend, if_neg hend, hone, range'_succ, Nat.add_assoc, forall_mem_cons,
        ← ih (rw + 27) (by omega)]
      cases hread : readAt file (start + rw) with
      | none => simp
      | some entry => by_cases hknown : (entry.tableId : ℤ) ∈ tableMap.ids <;> simp [hknown]

lemma direct_places {b : Buffer} (h : (replayInSameThreadDirect tableMap files b).2 = none) :
    (replayInSameThreadDirect tableMap files b).1 = b.places := by
  unfold replayInSameThreadDirect at h ⊢
  split
  · next hzero =>
    rw [Buffer.places, hzero]
    rfl
  · next hne =>
    rw [if_neg hne] at h
    have hplaces := noTableLoop_places 0 (by omega) h
    exact congrArg (map (b.fid, ·)) hplaces

/-- A thread that is not stopped decodes its slices one after another. -/
lemma wrapper_none_iff (bs : List Buffer) : (replayInSameThreadWrapper tableMap files bs).2 = none ↔
      ∀ b ∈ bs, (replayInSameThreadDirect tableMap files b).2 = none := by
  induction bs with
  | nil => simp [replayInSameThreadWrapper]
  | cons b bs ih =>
    rw [replayInSameThreadWrapper, forall_mem_cons, ← ih]
    cases hdirect : replayInSameThreadDirect tableMap files b with
    | mk places stop =>
      cases stop with
      | none => simp only [true_and]
      | some stop => simp only [reduceCtorEq, false_and]

lemma wrapper_places (bs : List Buffer)
    (h : ∀ b ∈ bs, (replayInSameThreadDirect tableMap files b).2 = none) :
    (replayInSameThreadWrapper tableMap files bs).1 = bs.flatMap Buffer.places := by
  induction bs with
  | nil => rfl
  | cons b bs ih =>
    obtain ⟨hb, hbs⟩ := forall_mem_cons.mp h
    have hplaces := direct_places hb
    rw [replayInSameThreadWrapper, flatMap_cons, ← hplaces, ← ih hbs]
    cases hdirect : replayInSameThreadDirect tableMap files b with
    | mk places stop =>
      rw [hdirect] at hb
      cases hb
      rfl

lemma share_eq_evenPart (bs : List Buffer) (m i : ℕ) :
    share bs m i = (bs.drop (evenPart bs.length m i).1).take (evenPart bs.length m i).2 := by
  unfold share evenPart
  by_cases hlast : i = m - 1
  · simp only [if_pos hlast]
    rw [take_of_length_le]
    rw [length_drop]
  · simp only [if_neg hlast]

/-- The slices of all threads. -/
lemma flatMap_share (bs : List Buffer) {m : ℕ} (hm : 1 ≤ m) :
    (range m).flatMap (share bs m) = bs := by
  conv_rhs => rw [← flatMap_evenPart hm bs]
  exact flatMap_congr fun i _ => share_eq_evenPart bs m i

/-- What the threads do together is what one thread would do with all slices. -/
lemma decodesExactly_iff {m : ℕ} (hm : 1 ≤ m) :
    DecodesExactly files (startReplayForAllFilesDirect tableMap files m) ↔
      (∀ b ∈ allBuffers files, (replayInSameThreadDirect tableMap files b).2 = none) ∧
        ((allBuffers files).flatMap Buffer.places).Perm (recordPlaces files) := by
  have hshare := flatMap_share (allBuffers files) hm
  have hruns : (∀ thread ∈ startReplayForAllFilesDirect tableMap files m, thread.2 = none) ↔
      ∀ b ∈ allBuffers files, (replayInSameThreadDirect tableMap files b).2 = none := by
    conv_rhs => rw [← hshare]
    simp only [startReplayForAllFilesDirect, forall_mem_map, wrapper_none_iff, mem_flatMap]
    constructor
    · rintro h b ⟨i, hi, hb⟩
      exact h i hi b hb
    · intro h i hi b hb
      exact h b ⟨i, hi, hb⟩
  have hplaces : (∀ b ∈ allBuffers files, (replayInSameThreadDirect tableMap files b).2 = none) →
      (startReplayForAllFilesDirect tableMap files m).flatMap Prod.fst =
        (allBuffers files).flatMap Buffer.places := by
    intro h
    rw [startReplayForAllFilesDirect, flatMap_map]
    conv_rhs => rw [← hshare, flatMap_assoc]
    refine flatMap_congr fun i hi => wrapper_places _ fun b hb => h b ?_
    rw [← hshare]
    exact mem_flatMap.mpr ⟨i, hi, hb⟩
  constructor
  · intro h
    have hnone := hruns.mp h.runs
    exact ⟨hnone, hplaces hnone ▸ h.exactly⟩
  · rintro ⟨hnone, hperm⟩
    exact ⟨hruns.mpr hnone, (hplaces hnone).symm ▸ hperm⟩

end Threads

/-! ## Which files are decoded -/

section Files

variable {tableMap : TableMap} {files : Files} {records : List OneContainer} {fid m : ℕ}

/-- The slices of a file that ends less than a record behind the first slice. -/
lemma flatMap_fileBuffers (hle : m * 27 < maxBufferAllowed + 27) :
    (fileBuffers fid (m * 27)).flatMap Buffer.places = (range' 0 m 27).map (fid, ·) := by
  have hmin : min (m * 27) maxRead = m * 27 := by
    refine min_eq_left ?_
    unfold maxBufferAllowed at hle
    unfold maxRead
    omega
  rw [fileBuffers]
  simp only [hmin]
  by_cases hzero : m = 0
  · rw [hzero, Nat.zero_mul, if_pos rfl]
    rfl
  · rw [if_neg (by omega)]
    by_cases hlt : m * 27 < maxBufferAllowed
    · -- one short slice
      have hplaces : (m * 27 + 26) / 27 = m := by omega
      rw [Nat.div_eq_of_lt hlt, Nat.mod_eq_of_lt hlt, range_zero, map_nil,
        nil_append, if_neg (by omega), flatMap_singleton, Buffer.places,
        Nat.mul_div_cancel _ (by decide), Nat.zero_mul]
      simp only [hplaces]
    · -- a full slice with all records, and an empty one
      obtain ⟨hslices, hne, hextra, hplaces⟩ : m * 27 / maxBufferAllowed = 1 ∧
          m * 27 % maxBufferAllowed ≠ 0 ∧ m * 27 % maxBufferAllowed / 27 * 27 = 0 ∧
          (maxBufferAllowed + 26) / 27 = m := by
        unfold maxBufferAllowed at hle hlt ⊢
        omega
      rw [hslices, if_neg hne, hextra, range_one, map_singleton, singleton_append,
        flatMap_cons, flatMap_singleton, Buffer.places, Buffer.places, Nat.zero_mul]
      simp only [hplaces]
      rw [range'_zero, map_nil, append_nil]

/-- A longer file has a slice that begins behind the first one. -/
lemma mem_second_slice (fid : ℕ) (hlt : maxBufferAllowed + 27 ≤ m * 27) :
    (fid, maxBufferAllowed) ∈ (fileBuffers fid (m * 27)).flatMap Buffer.places := by
  have hfirst : ∀ offset length, offset = maxBufferAllowed → 27 ≤ length →
      (fid, maxBufferAllowed) ∈ (⟨fid, offset, length⟩ : Buffer).places := by
    intro offset length hoffset hlength
    have hpos : 0 < (length + 26) / 27 := by omega
    refine mem_map.mpr ⟨maxBufferAllowed, ?_, rfl⟩
    exact mem_range'.mpr ⟨0, hpos, by rw [hoffset, Nat.mul_zero, Nat.add_zero]⟩
  have hret : maxBufferAllowed + 27 ≤ min (m * 27) maxRead := by
    refine le_min hlt ?_
    unfold maxBufferAllowed maxRead
    omega
  generalize hmin : min (m * 27) maxRead = ret at hret
  rw [fileBuffers, hmin]
  simp only [if_neg (show ¬ ret = 0 by omega)]
  by_cases htwo : 2 ≤ ret / maxBufferAllowed
  · refine mem_flatMap.mpr ⟨⟨fid, 1 * maxBufferAllowed, maxBufferAllowed⟩, ?_, ?_⟩
    · exact mem_append_left _ (mem_map.mpr ⟨1, mem_range.mpr htwo, rfl⟩)
    · exact hfirst _ _ (Nat.one_mul _) (by unfold maxBufferAllowed; omega)
  · obtain ⟨hone, hextra⟩ : ret / maxBufferAllowed = 1 ∧ 27 ≤ ret % maxBufferAllowed := by
      unfold maxBufferAllowed at hret htwo ⊢
      omega
    refine mem_flatMap.mpr ⟨⟨fid, ret / maxBufferAllowed * maxBufferAllowed,
      ret % maxBufferAllowed / 27 * 27⟩, ?_, ?_⟩
    · rw [if_neg (by omega)]
      exact mem_append_right _ mem_cons_self
    · exact hfirst _ _ (by rw [hone, Nat.one_mul]) (by omega)

lemma fid_of_mem_fileBuffers {b : Buffer} {sz : ℕ} (h : b ∈ fileBuffers fid sz) : b.fid = fid := by
  rw [fileBuffers] at h
  dsimp only at h
  split at h
  · cases h
  · rcases mem_append.mp h with hslice | hextra
    · obtain ⟨i, -, rfl⟩ := mem_map.mp hslice
      rfl
    · split at hextra
      · cases hextra
      · rw [mem_singleton.mp hextra]

lemma mem_allBuffers_iff {b : Buffer} : b ∈ allBuffers files ↔
    ∃ fid records, files[fid]? = some (some records) ∧
      b ∈ fileBuffers fid (records.length * 27) := by
  rw [allBuffers, mem_flatMap]
  constructor
  · rintro ⟨⟨file, fid⟩, hfile, hb⟩
    cases file with
    | none => cases hb
    | some records =>
      change b ∈ fileBuffers fid (records.flatMap encoding).length at hb
      rw [length_flatMap_encoding] at hb
      exact ⟨fid, records, mem_zipIdx_iff_getElem?.mp hfile, hb⟩
  · rintro ⟨fid, records, hfile, hb⟩
    refine ⟨(some records, fid), mem_zipIdx_iff_getElem?.mpr hfile, ?_⟩
    change b ∈ fileBuffers fid (records.flatMap encoding).length
    rwa [length_flatMap_encoding]

lemma mem_recordPlaces_iff {x : ℕ × ℕ} : x ∈ recordPlaces files ↔
    ∃ records, files[x.1]? = some (some records) ∧ x.2 ∈ range' 0 records.length 27 := by
  rw [recordPlaces, mem_flatMap]
  constructor
  · rintro ⟨⟨file, fid⟩, hfile, hx⟩
    cases file with
    | none => cases hx
    | some records =>
      obtain ⟨place, hplace, rfl⟩ := mem_map.mp hx
      exact ⟨records, mem_zipIdx_iff_getElem?.mp hfile, hplace⟩
  · rintro ⟨records, hfile, hx⟩
    exact ⟨(some records, x.1), mem_zipIdx_iff_getElem?.mpr hfile, mem_map.mpr ⟨x.2, hx, rfl⟩⟩

/-- The slices of such a file are decoded to their ends if all its tables are known. -/
lemma direct_none_iff (hfile : files[fid]? = some (some records))
    (hle : records.length * 27 < maxBufferAllowed + 27) :
    (∀ b ∈ fileBuffers fid (records.length * 27),
      (replayInSameThreadDirect tableMap files b).2 = none) ↔
      ∀ e ∈ records, (e.tableId : ℤ) ∈ tableMap.ids := by
  have htake : (records.flatMap encoding).take maxRead = records.flatMap encoding := by
    rw [take_of_length_le]
    rw [length_flatMap_encoding]
    unfold maxBufferAllowed at hle
    unfold maxRead
    omega
  have hslice : ∀ b ∈ fileBuffers fid (records.length * 27),
      ((replayInSameThreadDirect tableMap files b).2 = none ↔ ∀ x ∈ b.places,
        ∃ entry, readAt (records.flatMap encoding) x.2 = some entry ∧
          (entry.tableId : ℤ) ∈ tableMap.ids) := by
    intro b hb
    rw [Buffer.places, forall_mem_map, replayInSameThreadDirect]
    split
    · next hzero => simp [hzero]
    · rw [fid_of_mem_fileBuffers hb, hfile, Option.join_some, Option.getD_some]
      dsimp only
      rw [htake]
      exact noTableLoop_none_iff 0 (by omega)
  -- the places of all slices together are those of the records
  have hplaces : (fileBuffers fid (records.length * 27)).flatMap Buffer.places = _ :=
    flatMap_fileBuffers hle
  rw [forall₂_congr hslice, ← forall_mem_flatMap, hplaces, forall_mem_map]
  constructor
  · intro h e he
    obtain ⟨i, hi, rfl⟩ := getElem_of_mem he
    obtain ⟨entry, hread, hknown⟩ := h (0 + 27 * i) (mem_range'.mpr ⟨i, hi, rfl⟩)
    rw [Nat.zero_add, Nat.mul_comm, readAt_flatMap, getElem?_eq_getElem hi] at hread
    cases hread
    exact hknown
  · intro h place hplace
    obtain ⟨i, hi, rfl⟩ := mem_range'.mp hplace
    refine ⟨records[i], ?_, h _ (getElem_mem hi)⟩
    rw [Nat.zero_add, Nat.mul_comm, readAt_flatMap, getElem?_eq_getElem hi]

lemma lt_of_decodesExactly {thr : ℕ} (hthr : 1 ≤ thr)
    (h : DecodesExactly files (startReplayForAllFilesDirect tableMap files thr))
    (hfile : some records ∈ files) : records.length * 27 < maxBufferAllowed + 27 := by
  obtain ⟨-, hperm⟩ := (decodesExactly_iff hthr).mp h
  obtain ⟨fid, hfid⟩ := mem_iff_getElem?.mp hfile
  by_contra hlt
  have hsecond := mem_second_slice fid (not_lt.mp hlt)
  obtain ⟨b, hb, hplace⟩ := mem_flatMap.mp hsecond
  have hmem : (fid, maxBufferAllowed) ∈ recordPlaces files := by
    refine hperm.mem_iff.mp (mem_flatMap.mpr ⟨b, ?_, hplace⟩)
    exact mem_allBuffers_iff.mpr ⟨fid, records, hfid, hb⟩
  obtain ⟨_, -, hrange⟩ := mem_recordPlaces_iff.mp hmem
  -- the place is no multiple of 27
  obtain ⟨i, -, hi⟩ := mem_range'.mp hrange
  unfold maxBufferAllowed at hi
  omega

end Files

/-- The records of the files are decoded exactly if no file goes on for a record or more behind its
first slice and all tables are known. -/
theorem startReplayForAllFilesDirect_iff (tableMap : TableMap) (files : Files)
    (replayThrCount : ℕ) (hthr : 1 ≤ replayThrCount) :
    DecodesExactly files (startReplayForAllFilesDirect tableMap files replayThrCount) ↔
      ∀ records, some records ∈ files → records.length * 27 < maxBufferAllowed + 27 ∧
        ∀ e ∈ records, (e.tableId : ℤ) ∈ tableMap.ids := by
  constructor
  · intro h records hfile
    have hlt := lt_of_decodesExactly hthr h hfile
    obtain ⟨fid, hfid⟩ := List.mem_iff_getElem?.mp hfile
    refine ⟨hlt, (direct_none_iff hfid hlt).mp fun b hb => ?_⟩
    exact ((decodesExactly_iff hthr).mp h).1 b (mem_allBuffers_iff.mpr ⟨fid, records, hfid, hb⟩)
  · intro h
    rw [decodesExactly_iff hthr]
    constructor
    · intro b hb
      obtain ⟨fid, records, hfile, hb⟩ := mem_allBuffers_iff.mp hb
      obtain ⟨hlt, hknown⟩ := h records (List.mem_of_getElem? hfile)
      exact (direct_none_iff hfile hlt).mpr hknown b hb
    · have hplaces : (allBuffers files).flatMap Buffer.places = recordPlaces files := by
        rw [allBuffers, recordPlaces, List.flatMap_assoc]
        refine List.flatMap_congr fun x hx => ?_
        obtain ⟨file, fid⟩ := x
        have hmem := List.mem_of_getElem? (List.mem_zipIdx_iff_getElem?.mp hx)
        cases file with
        | none => rfl
        | some records =>
          simp only [OneContainer.length_flatMap_encoding]
          exact flatMap_fileBuffers (h records hmem).1
      rw [hplaces]

/-- A record of table 1. -/
def fileRecord : OneContainer := .ofWords 10 5 7 1 0

/-- A short file, and one that does not exist. -/
theorem startReplayForAllFilesDirect_short :
    DecodesExactly [some [fileRecord], none]
      (startReplayForAllFilesDirect [([116], 1)] [some [fileRecord], none] 2) := by
  refine (startReplayForAllFilesDirect_iff _ _ 2 (by decide)).mpr fun records hmem => ?_
  obtain rfl : records = [fileRecord] := by simpa using hmem
  decide

/-- A file that has one record more than fits. -/
theorem startReplayForAllFilesDirect_long :
    ¬ DecodesExactly [some (List.replicate 407781 fileRecord)]
      (startReplayForAllFilesDirect [([116], 1)] [some (List.replicate 407781 fileRecord)] 1) := by
  intro h
  have hfile : some (List.replicate 407781 fileRecord) ∈
      [some (List.replicate 407781 fileRecord)] := List.mem_cons_self
  have hlt := lt_of_decodesExactly le_rfl h hfile
  rw [List.length_replicate] at hlt
  exact absurd hlt (by decide)

end Rolis.Sto.DirectFiles
