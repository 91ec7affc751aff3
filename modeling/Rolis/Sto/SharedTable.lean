import Rolis.Lib.Lts
import Rolis.Sto.FixedRecords

/-!
# Replaying groups of records in a shared pool

`replay_in_shared_threads_table` cuts a buffer into groups, each a commit id, a length and records
of 18 bytes, and hands one job per group to a pool. The threads of the pool run the jobs while later
groups are still being cut, and they write to the buffer, where `getFileContentOz` clears the delete
bits. A step of the model is the next group handed over, or one turn of the record loop of a job.

`replay_in_same_thread_object` is given the number of records and the commit id, and passes them
on to `getFileContentOz` the other way round.
-/

namespace Rolis.Sto.Decl

open Bytes Lts List Option

/-! ## The pool -/

/-- A call of `getFileContentOz` under way. -/
structure Job where
  array : ℕ
  chunk : ℕ
  cid : ℕ
  i : ℕ
  vars : Vars
  inserts : List Put
deriving DecidableEq, Repr

/-- The call before its first turn, with the arguments in the order of the declaration. -/
def Job.getFileContentOz (buffer chunk cid : ℕ) : Job :=
  ⟨buffer, chunk, cid, 0, ⟨false, 1⟩, []⟩

/-- `replay_in_same_thread_object`. -/
def replayInSameThreadObject (array chunkSize cid : ℕ) : Job :=
  -- the commit id goes where the number of records is expected
  Job.getFileContentOz array cid chunkSize

/-- The buffer, the place of the next group, the jobs in the order of their groups, and whether
something was read behind the end of the buffer. -/
structure Pool where
  buffer : Bytes
  idx : ℕ
  jobs : List Job
  fault : Bool
deriving DecidableEq, Repr

/-- The next group is handed over, or a job does one turn. -/
inductive Action
  | doJob
  | turn (j : ℕ)
deriving DecidableEq, Repr

/-- The first 16 bytes of a group. -/
def headerAt (buffer : Bytes) (idx : ℕ) : Option (ℕ × ℕ) :=
  if idx + 16 ≤ buffer.length then
    some (decode ((buffer.drop idx).take 8), decode ((buffer.drop (idx + 8)).take 8))
  else none

namespace Pool

/-- One turn of the loop of `replay_in_shared_threads_table`. -/
def doJob (s : Pool) : Option Pool :=
  if s.fault ∨ s.buffer.length ≤ s.idx then none
  else
    match headerAt s.buffer s.idx with
    | none => some { s with fault := true }
    | some (cid, len) =>
      let idx := s.idx + 16
      -- the job may begin at once, and the loop goes on without it
      some { s with
        idx := (idx + len) % 2 ^ 64
        jobs := s.jobs ++ [replayInSameThreadObject idx (len / 18) cid] }

/-- One turn of the loop of `getFileContentOz`. -/
def turn (allFilesNames : Finset ℤ) (s : Pool) (j : ℕ) : Option Pool :=
  match s.jobs[j]? with
  | none => none
  | some job =>
    if s.fault ∨ job.chunk ≤ job.i then none
    else
      let pos := job.array + job.i * 18
      match recordAt s.buffer pos with
      | none => some { s with fault := true }
      | some r =>
        match (oz allFilesNames).turn job.cid job.vars r with
        | none => none
        | some (put, vars) =>
          let job := { job with i := job.i + 1, vars := vars, inserts := job.inserts ++ put.toList }
          some { s with buffer := clearBit s.buffer pos r, jobs := s.jobs.set j job }

/-- A step of the pool. -/
def step (allFilesNames : Finset ℤ) (s : Pool) : Action → Option Pool
  | .doJob => s.doJob
  | .turn j => s.turn allFilesNames j

end Pool

/-- A group: a commit id and records. -/
structure Group where
  cid : ℕ
  records : List Record
  cid_lt : cid < 256 ^ 8

/-- The group in the buffer. -/
def Group.encoding (g : Group) : Bytes :=
  encode 8 g.cid ++ (encode 8 (g.records.length * 18) ++ g.records.flatMap Record.encoding)

/-- `replay_in_shared_threads_table` on a buffer of groups. -/
def replayInSharedThreadsTable (allFilesNames : Finset ℤ) (groups : List Group) :
    System Pool Action where
  init := ⟨groups.flatMap Group.encoding, 0, [], false⟩
  step := Pool.step allFilesNames

/-! ## What is inserted -/

/-- Nothing is read behind the buffer, a job that is done has inserted the records of its group
under the commit id of the group, and when nothing is left to do this has been done for all. -/
structure InsertsExactly (allFilesNames : Finset ℤ) (groups : List Group) (s : Pool) : Prop where
  inside : s.fault = false
  own : ∀ (j : ℕ) (job : Job) (g : Group), s.jobs[j]? = some job → groups[j]? = some g →
    job.chunk ≤ job.i → job.inserts = (oz allFilesNames).perRecord g.cid g.records
  all : (∀ a, s.step allFilesNames a = none) →
    s.jobs.flatMap Job.inserts =
      groups.flatMap fun g => (oz allFilesNames).perRecord g.cid g.records

/-- The commit id of the group is the number of its records, and no live record stands behind a
deleted one. -/
def Group.Agrees (allFilesNames : Finset ℤ) (g : Group) : Prop :=
  g.cid = g.records.length ∧ (oz allFilesNames).DeletesLast g.records

instance (allFilesNames : Finset ℤ) (g : Group) : Decidable (g.Agrees allFilesNames) :=
  inferInstanceAs (Decidable (_ ∧ _))

/-- Some record of the group is of a known table. -/
def Group.Known (allFilesNames : Finset ℤ) (g : Group) : Prop :=
  ∃ r ∈ g.records, (r.table : ℤ) ∈ allFilesNames

/-! ## Where things are -/

/-- The place of a group in the buffer. -/
def offset (groups : List Group) (j : ℕ) : ℕ := ((groups.take j).flatMap Group.encoding).length

section Places

variable {groups : List Group} {g g' : Group} {r : Record} {j j' k : ℕ}

lemma length_flatMap_record (records : List Record) :
    (records.flatMap Record.encoding).length = records.length * 18 := by
  induction records with
  | nil => rfl
  | cons r records ih =>
    rw [flatMap_cons, length_append, r.length_encoding, ih, length_cons]
    omega

lemma Group.length_encoding (g : Group) : g.encoding.length = 16 + g.records.length * 18 := by
  simp only [encoding, length_append, length_encode, length_flatMap_record]
  omega

lemma offset_succ (h : groups[j]? = some g) :
    offset groups (j + 1) = offset groups j + (16 + g.records.length * 18) := by
  rw [offset, take_add_one, h, flatMap_append, length_append, toList_some,
    flatMap_singleton, g.length_encoding, offset]

lemma offset_le (h : j ≤ j') : offset groups j ≤ offset groups j' := by
  have hsplit : groups.take j' = groups.take j ++ (groups.take j').drop j := by
    conv_lhs => rw [← take_append_drop j (groups.take j'), take_take, Nat.min_eq_left h]
  rw [offset, offset, hsplit, flatMap_append, length_append]
  exact Nat.le_add_right _ _

lemma offset_length (groups : List Group) :
    offset groups groups.length = (groups.flatMap Group.encoding).length := by
  rw [offset, take_length]

section

variable (h : groups[j]? = some g)

include h

/-- The buffer around a group. -/
lemma buffer_eq : ∃ before after, groups.flatMap Group.encoding = before ++ (g.encoding ++ after) ∧
      before.length = offset groups j := by
  obtain ⟨hj, rfl⟩ := List.getElem?_eq_some_iff.mp h
  refine ⟨(groups.take j).flatMap Group.encoding, (groups.drop (j + 1)).flatMap Group.encoding,
    ?_, rfl⟩
  rw [← List.flatMap_cons, ← List.flatMap_append, List.getElem_cons_drop, List.take_append_drop]

lemma headerAt_init (hlen : (groups.flatMap Group.encoding).length < 2 ^ 64) :
    headerAt (groups.flatMap Group.encoding) (offset groups j) =
      some (g.cid, g.records.length * 18) := by
  obtain ⟨before, after, hbuffer, hoff⟩ := buffer_eq h
  rw [hbuffer] at hlen ⊢
  have hrecords : g.records.length * 18 < 256 ^ 8 := by
    rw [length_append, length_append, g.length_encoding] at hlen
    omega
  have hle : before.length + 16 ≤ (before ++ (g.encoding ++ after)).length := by
    rw [length_append, length_append, g.length_encoding]
    omega
  have hcid : ((before ++ (g.encoding ++ after)).drop before.length).take 8 = encode 8 g.cid := by
    rw [drop_left, Group.encoding, append_assoc]
    exact take_left' (length_encode 8 g.cid)
  have hsize : ((before ++ (g.encoding ++ after)).drop (before.length + 8)).take 8 =
      encode 8 (g.records.length * 18) := by
    rw [← drop_drop, drop_left, Group.encoding, append_assoc,
      drop_left' (length_encode 8 g.cid), append_assoc]
    exact take_left' (length_encode 8 _)
  rw [← hoff, headerAt, if_pos hle, hcid, hsize, decode_encode_of_lt g.cid_lt,
    decode_encode_of_lt hrecords]

lemma recordAt_init (hr : g.records[k]? = some r) :
    recordAt (groups.flatMap Group.encoding) (offset groups j + 16 + k * 18) = some r := by
  obtain ⟨before, after, hbuffer, hoff⟩ := buffer_eq h
  have hsplit : before ++ (g.encoding ++ after) =
      (before ++ (encode 8 g.cid ++ encode 8 (g.records.length * 18))) ++
        (g.records.flatMap Record.encoding ++ after) := by
    simp only [Group.encoding, append_assoc]
  have hpos : offset groups j + 16 =
      (before ++ (encode 8 g.cid ++ encode 8 (g.records.length * 18))).length := by
    simp only [length_append, length_encode, hoff]
  rw [hbuffer, hsplit, hpos]
  exact standAt_encoding _ after g.records k r hr

/-- The bytes of a record are those of its group behind the header. -/
lemma record_end_le (hk : k < g.records.length) :
    offset groups j + 16 + k * 18 + 18 ≤ offset groups (j + 1) := by
  rw [offset_succ h]
  omega

end

end Places

/-! ## Steps -/

section Steps

variable {allFilesNames : Finset ℤ} {s t : Pool} {j : ℕ}

lemma oz_verdict_ne_exit (id : ℕ) : (oz allFilesNames).verdict id ≠ .exit := by
  simp only [oz]
  split <;> decide

/-- What handing over a group can do. -/
lemma doJob_cases (h : s.doJob = some t) : s.fault = false ∧ s.idx < s.buffer.length ∧
      ((headerAt s.buffer s.idx = none ∧ t = { s with fault := true }) ∨
        ∃ cid len, headerAt s.buffer s.idx = some (cid, len) ∧ t = { s with
            idx := (s.idx + 16 + len) % 2 ^ 64
            jobs := s.jobs ++ [replayInSameThreadObject (s.idx + 16) (len / 18) cid] }) := by
  unfold Pool.doJob at h
  split at h
  · cases h
  · next hgo =>
    obtain ⟨hfault, hidx⟩ := not_or.mp hgo
    refine ⟨Bool.eq_false_iff.mpr hfault, not_le.mp hidx, ?_⟩
    split at h
    · next hnone =>
      cases h
      exact .inl ⟨hnone, rfl⟩
    · next cid len hsome =>
      cases h
      exact .inr ⟨cid, len, hsome, rfl⟩

/-- The job behind a turn on a record. -/
def Job.next (allFilesNames : Finset ℤ) (job : Job) (r : Record) (putOps : ℕ) : Job :=
  { job with
    i := job.i + 1
    vars := ⟨job.vars.deleteTrue || r.deleted, putOps⟩
    inserts := job.inserts ++
      ((oz allFilesNames).insertOf job.cid (job.vars.deleteTrue || r.deleted) r).toList }

/-- What a turn can do. -/
lemma turn_cases (h : s.turn allFilesNames j = some t) :
    ∃ job, s.jobs[j]? = some job ∧ s.fault = false ∧ job.i < job.chunk ∧
      ((recordAt s.buffer (job.array + job.i * 18) = none ∧ t = { s with fault := true }) ∨
        ∃ r putOps, recordAt s.buffer (job.array + job.i * 18) = some r ∧ t = { s with
            buffer := clearBit s.buffer (job.array + job.i * 18) r
            jobs := s.jobs.set j (job.next allFilesNames r putOps) }) := by
  unfold Pool.turn at h
  split at h
  · cases h
  · next job hjob =>
    split at h
    · cases h
    · next hgo =>
      obtain ⟨hfault, hi⟩ := not_or.mp hgo
      refine ⟨job, hjob, Bool.eq_false_iff.mpr hfault, not_le.mp hi, ?_⟩
      dsimp only at h
      split at h
      · next hnone =>
        cases h
        exact .inl ⟨hnone, rfl⟩
      · next r hsome =>
        obtain ⟨putOps, hturn⟩ := (oz allFilesNames).turn_of_not_exit job.cid
          (oz_verdict_ne_exit r.table) job.vars
        rw [hturn] at h
        cases h
        exact .inr ⟨r, putOps, hsome, rfl⟩

/-- A job that is not done can do a turn. -/
lemma turn_enabled (allFilesNames : Finset ℤ) {job : Job} (hjob : s.jobs[j]? = some job)
    (hfault : s.fault = false) (hi : job.i < job.chunk) : ∃ t, s.turn allFilesNames j = some t := by
  have hgo : ¬ (s.fault = true ∨ job.chunk ≤ job.i) := by
    simp only [hfault, Bool.false_eq_true, false_or]
    omega
  simp only [Pool.turn, hjob, if_neg hgo]
  cases hrecord : recordAt s.buffer (job.array + job.i * 18) with
  | none => exact ⟨_, rfl⟩
  | some r =>
    obtain ⟨putOps, hturn⟩ := (oz allFilesNames).turn_of_not_exit job.cid
      (oz_verdict_ne_exit r.table) job.vars
    simp only [hturn]
    exact ⟨_, rfl⟩

lemma doJob_enabled (hfault : s.fault = false) (hidx : s.idx < s.buffer.length) :
    ∃ t, s.doJob = some t := by
  have hgo : ¬ (s.fault = true ∨ s.buffer.length ≤ s.idx) := by
    simp only [hfault, Bool.false_eq_true, false_or]
    omega
  simp only [Pool.doJob, if_neg hgo]
  cases headerAt s.buffer s.idx with
  | none | some header => exact ⟨_, rfl⟩

end Steps

/-! ## Jobs that keep to their groups -/

/-- Only jobs whose commit id is the number of their records do turns. -/
def Keeping (groups : List Group) (_ : Pool) : Action → Prop
  | .doJob => True
  | .turn j => ∀ g, groups[j]? = some g → g.cid = g.records.length

/-- A job on the way through the records of its group. -/
structure OnTrack (allFilesNames : Finset ℤ) (groups : List Group) (j : ℕ) (g : Group) (job : Job) :
    Prop where
  array : job.array = offset groups j + 16
  chunk : job.chunk = g.cid
  cid : job.cid = g.records.length
  le : job.i ≤ g.records.length
  le_chunk : job.i ≤ job.chunk
  deleteTrue : job.vars.deleteTrue = (g.records.take job.i).any Record.deleted
  inserts : job.inserts = (oz allFilesNames).puts job.cid false (g.records.take job.i)

/-- How many records of a group have been replayed. -/
def Pool.started (s : Pool) (j : ℕ) : ℕ := (s.jobs[j]?).elim 0 Job.i

/-- What runs of such jobs keep. -/
structure Tracked (allFilesNames : Finset ℤ) (groups : List Group) (s : Pool) : Prop where
  fault : s.fault = false
  length : s.buffer.length = offset groups groups.length
  idx : s.idx = offset groups s.jobs.length
  count : s.jobs.length ≤ groups.length
  jobs : ∀ (j : ℕ) (job : Job) (g : Group), s.jobs[j]? = some job → groups[j]? = some g →
    OnTrack allFilesNames groups j g job
  headers : ∀ (j : ℕ) (g : Group), s.jobs.length ≤ j → groups[j]? = some g →
    headerAt s.buffer (offset groups j) = some (g.cid, g.records.length * 18)
  records : ∀ (j : ℕ) (g : Group), groups[j]? = some g → ∀ k r, s.started j ≤ k →
    g.records[k]? = some r → recordAt s.buffer (offset groups j + 16 + k * 18) = some r

section Track

variable {allFilesNames : Finset ℤ} {groups : List Group} {s t : Pool} {g : Group} {job : Job}
  {r : Record} {j : ℕ}

lemma headerAt_clearBit {buffer : Bytes} {pos idx : ℕ} (h : recordAt buffer pos = some r)
    (hn : pos + 18 ≤ idx) : headerAt (clearBit buffer pos r) idx = headerAt buffer idx := by
  have hcid := field_clearBit idx 8 h (by omega)
  have hlen := field_clearBit (idx + 8) 8 h (by omega)
  rw [headerAt, length_clearBit h, hcid, hlen, headerAt]

lemma tracked_init (hlen : (groups.flatMap Group.encoding).length < 2 ^ 64) :
    Tracked allFilesNames groups (replayInSharedThreadsTable allFilesNames groups).init where
  fault := rfl
  length := (offset_length groups).symm
  idx := rfl
  count := Nat.zero_le _
  jobs := by
    intro j job g hjob
    cases hjob
  headers := by
    intro j g _ hg
    exact headerAt_init hg hlen
  records := by
    intro j g hg k r _ hr
    exact recordAt_init hg hr

lemma onTrack_new (groups : List Group) (j : ℕ) (g : Group) : OnTrack allFilesNames groups j g
      (replayInSameThreadObject (offset groups j + 16) (g.records.length * 18 / 18) g.cid) where
  array := rfl
  chunk := rfl
  cid := Nat.mul_div_cancel _ (by decide)
  le := Nat.zero_le _
  le_chunk := Nat.zero_le _
  deleteTrue := rfl
  inserts := rfl

lemma OnTrack.next (h : OnTrack allFilesNames groups j g job) (hi : job.i < job.chunk)
    (hr : g.records[job.i]? = some r) (putOps : ℕ) :
    OnTrack allFilesNames groups j g (job.next allFilesNames r putOps) := by
  obtain ⟨hlt, -⟩ := List.getElem?_eq_some_iff.mp hr
  have htake : g.records.take (job.i + 1) = g.records.take job.i ++ [r] := by
    rw [List.take_add_one, hr, toList_some]
  refine ⟨h.array, h.chunk, h.cid, hlt, hi, ?_, ?_⟩
  · change (job.vars.deleteTrue || r.deleted) = (g.records.take (job.i + 1)).any Record.deleted
    rw [htake, List.any_append, h.deleteTrue, List.any_cons, List.any_nil, Bool.or_false]
  · change job.inserts ++ _ = (oz allFilesNames).puts job.cid false (g.records.take (job.i + 1))
    rw [htake, Replayer.puts_concat _ oz_verdict_ne_exit, h.inserts, h.deleteTrue, Bool.false_or]

lemma Pool.started_of_getElem? (h : s.jobs[j]? = some job) : s.started j = job.i := by
  rw [started, h, elim_some]

/-- A new job has not done a turn yet. -/
lemma Pool.started_concat (job : Job) (hi : job.i = 0) (idx j : ℕ) :
    Pool.started { s with idx := idx, jobs := s.jobs ++ [job] } j = s.started j := by
  unfold started
  rcases lt_trichotomy j s.jobs.length with hj | rfl | hj
  · rw [getElem?_append_left hj]
  · rw [getElem?_concat_length, getElem?_eq_none le_rfl, elim_some, hi, elim_none]
  · rw [getElem?_eq_none (by rw [length_append, length_singleton]; omega), getElem?_eq_none hj.le]

lemma Pool.started_set (job : Job) (hj : j < s.jobs.length) (buffer : Bytes) (j' : ℕ) :
    Pool.started { s with buffer := buffer, jobs := s.jobs.set j job } j' =
      if j = j' then job.i else s.started j' := by
  unfold started
  rw [getElem?_set, if_pos hj]
  split <;> rfl

lemma Tracked.doJob (hs : Tracked allFilesNames groups s)
    (hlen : (groups.flatMap Group.encoding).length < 2 ^ 64) (h : s.doJob = some t) :
    Tracked allFilesNames groups t := by
  obtain ⟨-, hidx, hcases⟩ := doJob_cases h
  have hlt : s.jobs.length < groups.length := by
    refine lt_of_le_of_ne hs.count fun heq => ?_
    rw [hs.idx, hs.length, heq] at hidx
    exact lt_irrefl _ hidx
  obtain ⟨g, hg⟩ : ∃ g, groups[s.jobs.length]? = some g := ⟨_, getElem?_eq_getElem hlt⟩
  have hheader := hs.headers _ g le_rfl hg
  rw [← hs.idx] at hheader
  obtain ⟨hnone, -⟩ | ⟨cid, len, hsome, rfl⟩ := hcases
  · rw [hheader] at hnone
    cases hnone
  · rw [hheader] at hsome
    cases hsome
    have hbound : offset groups (s.jobs.length + 1) < 2 ^ 64 :=
      lt_of_le_of_lt (offset_le hlt) (offset_length groups ▸ hlen)
    refine ⟨hs.fault, hs.length, ?_, ?_, ?_, ?_, ?_⟩
    · rw [offset_succ hg, ← Nat.add_assoc, ← hs.idx] at hbound
      rw [length_append, length_singleton, offset_succ hg, ← Nat.add_assoc, ← hs.idx]
      exact Nat.mod_eq_of_lt hbound
    · rw [length_append, length_singleton]
      exact hlt
    · intro j job g' hjob hg'
      rcases lt_trichotomy j s.jobs.length with hj | rfl | hj
      · rw [getElem?_append_left hj] at hjob
        exact hs.jobs j job g' hjob hg'
      · rw [getElem?_concat_length] at hjob
        rw [hg] at hg'
        cases hjob
        cases hg'
        rw [hs.idx]
        exact onTrack_new groups _ g
      · rw [getElem?_eq_none (by rw [length_append, length_singleton]; omega)] at hjob
        cases hjob
    · intro j g' hj hg'
      rw [length_append] at hj
      exact hs.headers j g' (by omega) hg'
    · intro j g' hg' k r hk hr
      rw [Pool.started_concat _ rfl] at hk
      exact hs.records j g' hg' k r hk hr

lemma Tracked.turn (hs : Tracked allFilesNames groups s)
    (hfit : ∀ g, groups[j]? = some g → g.cid = g.records.length)
    (h : s.turn allFilesNames j = some t) : Tracked allFilesNames groups t := by
  obtain ⟨job, hjob, -, hi, hcases⟩ := turn_cases h
  have hj : j < s.jobs.length := (List.getElem?_eq_some_iff.mp hjob).1
  obtain ⟨g, hg⟩ : ∃ g, groups[j]? = some g := ⟨_, List.getElem?_eq_getElem (hj.trans_le hs.count)⟩
  have htrack := hs.jobs j job g hjob hg
  have hlt : job.i < g.records.length := by
    rw [← hfit g hg, ← htrack.chunk]
    exact hi
  obtain ⟨r, hr⟩ : ∃ r, g.records[job.i]? = some r := ⟨_, List.getElem?_eq_getElem hlt⟩
  have hat := hs.records j g hg job.i r (Pool.started_of_getElem? hjob).le hr
  rw [← htrack.array] at hat
  have hend := record_end_le hg hlt
  rw [← htrack.array] at hend
  obtain ⟨hnone, -⟩ | ⟨r', putOps, hsome, rfl⟩ := hcases
  · rw [hat] at hnone
    cases hnone
  · rw [hat] at hsome
    cases hsome
    have hget : ∀ j', (s.jobs.set j (job.next allFilesNames r putOps))[j']? =
        if j = j' then some (job.next allFilesNames r putOps) else s.jobs[j']? := by
      intro j'
      rw [List.getElem?_set, if_pos hj]
    refine ⟨hs.fault, ?_, ?_, ?_, ?_, ?_, ?_⟩
    · exact (length_clearBit hat).trans hs.length
    · exact hs.idx.trans (by rw [List.length_set])
    · exact (List.length_set ..).trans_le hs.count
    · intro j' job' g' hjob' hg'
      rw [hget] at hjob'
      split at hjob'
      · next heq =>
        subst heq
        rw [hg] at hg'
        cases hjob'
        cases hg'
        exact htrack.next hi hr putOps
      · exact hs.jobs j' job' g' hjob' hg'
    · intro j' g' hj' hg'
      rw [List.length_set] at hj'
      have hafter : offset groups (j + 1) ≤ offset groups j' := offset_le (hj.trans_le hj')
      rw [headerAt_clearBit hat (by omega)]
      exact hs.headers j' g' hj' hg'
    · -- no other record shares bytes with the one that was replayed
      intro j' g' hg' k r' hk hr'
      have hk' : k < g'.records.length := (List.getElem?_eq_some_iff.mp hr').1
      have hend' := record_end_le hg' hk'
      rw [Pool.started_set _ hj] at hk
      rcases lt_trichotomy j j' with hlt' | rfl | hlt'
      · have hafter : offset groups (j + 1) ≤ offset groups j' := offset_le hlt'
        rw [if_neg hlt'.ne] at hk
        rw [recordAt_clearBit hat (by omega)]
        exact hs.records j' g' hg' k r' hk hr'
      · rw [if_pos rfl] at hk
        have hnext : job.i + 1 ≤ k := hk
        rw [recordAt_clearBit hat (by rw [htrack.array]; omega)]
        exact hs.records j g' hg' k r' ((Pool.started_of_getElem? hjob).le.trans (by omega)) hr'
      · have hbefore : offset groups (j' + 1) ≤ offset groups j := offset_le hlt'
        rw [if_neg hlt'.ne'] at hk
        rw [recordAt_clearBit hat (by rw [htrack.array]; omega)]
        exact hs.records j' g' hg' k r' hk hr'

/-- The run lemma. -/
lemma tracked_of_run (hlen : (groups.flatMap Group.encoding).length < 2 ^ 64)
    (hrun : Run (replayInSharedThreadsTable allFilesNames groups) (Keeping groups)
      (replayInSharedThreadsTable allFilesNames groups).init s) :
    Tracked allFilesNames groups s := by
  refine hrun.invariant _ (fun t u a ht hkeep hstep => ?_) (tracked_init hlen)
  cases a with
  | doJob => exact ht.doJob hlen hstep
  | turn j => exact ht.turn hkeep hstep

end Track

end Rolis.Sto.Decl
