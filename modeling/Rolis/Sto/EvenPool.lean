import Mathlib.Algebra.Order.BigOperators.Group.List
import Rolis.Lib.Lts
import Rolis.Lib.Tiling
import Rolis.Sto.OneContainer

/-!
# Replaying a buffer in even parts

`treplay_in_shared_threads` gives each worker the same number of records of a buffer, and the last
one what is left over. `Treplay_in_same_thread_wrapper_pointer_even` goes through its part in chunks
of 512 records. A step of the model is the next part handed over, or one chunk of a job. Whatever
the order of the steps, the chunks of all jobs are the records of the buffer, each once.
-/

namespace Rolis.Sto.Even

open Bytes Decl Lts Tiling Option OneContainer

/-! ## The pool -/

/-- A call of `Treplay_in_same_thread_wrapper_pointer_even` under way, with the calls of
`getFileContentNew_optimized_pointer` that it has made and their puts. -/
structure Job where
  offset : ℕ
  entriesCntPerCore : ℕ
  chunk : ℕ
  i : ℕ
  calls : List (ℕ × ℕ)
  puts : List Put
deriving DecidableEq, Repr

/-- The call before its first turn. -/
def Job.start (offset entriesCntPerCore : ℕ) : Job := ⟨offset, entriesCntPerCore, 512, 0, [], []⟩

/-- The loop variables, the jobs handed over, and what stopped the process, if anything did. -/
structure Pool where
  i : ℕ
  offset : ℕ
  jobs : List Job
  stop : Option Stop
deriving DecidableEq, Repr

/-- The next part is handed over, or a job does one chunk. -/
inductive Action
  | doJob
  | turn (j : ℕ)
deriving DecidableEq, Repr

/-- How many records worker `i` is given. -/
def entriesCnt (entriesCntTotal workers i : ℕ) : ℕ :=
  if i = workers - 1 then entriesCntTotal - (workers - 1) * (entriesCntTotal / workers)
  else entriesCntTotal / workers

/-- How many records the next chunk has. -/
def Job.size (job : Job) : ℕ :=
  if job.chunk < job.entriesCntPerCore - job.i then job.chunk else job.entriesCntPerCore - job.i

/-- The place of the next chunk. -/
def Job.init (job : Job) : ℕ := job.offset + job.i * 27

/-- The job behind a chunk. -/
def Job.next (job : Job) (puts : List Put) : Job :=
  { job with
    chunk := job.size
    i := job.i + job.size
    calls := job.calls ++ [(job.init, job.size)]
    puts := job.puts ++ puts }

namespace Pool

/-- One turn of the loop of `treplay_in_shared_threads`. -/
def doJob (entriesCntTotal workers : ℕ) (s : Pool) : Option Pool :=
  if s.stop.isSome ∨ workers ≤ s.i then none
  else
    let entriesCntPerCore := entriesCnt entriesCntTotal workers s.i
    some { s with
      i := s.i + 1
      offset := s.offset + entriesCntPerCore * 27
      jobs := s.jobs ++ [.start s.offset entriesCntPerCore] }

/-- One turn of the loop of `Treplay_in_same_thread_wrapper_pointer_even`. -/
def turn (log : Bytes) (s : Pool) (j : ℕ) : Option Pool :=
  match s.jobs[j]? with
  | none => none
  | some job =>
    if s.stop.isSome ∨ job.entriesCntPerCore ≤ job.i then none
    else
      let (puts, stop) := getFileContentNewOptimizedPointer log job.init job.size
      some { s with jobs := s.jobs.set j (job.next puts), stop := stop }

/-- A step of the pool. -/
def step (log : Bytes) (entriesCntTotal workers : ℕ) (s : Pool) : Action → Option Pool
  | .doJob => s.doJob entriesCntTotal workers
  | .turn j => s.turn log j

end Pool

/-- `treplay_in_shared_threads` on a buffer of records. -/
def treplayInSharedThreads (records : List OneContainer) (workers : ℕ) : System Pool Action where
  init := ⟨0, 0, [], none⟩
  step :=
    let log := records.flatMap OneContainer.encoding
    Pool.step log (log.length / 27) workers

/-- No place is called twice, nothing is read behind the buffer, only an impossible table id ends
the process, and when nothing is left to do every record was called and put once. -/
structure Covers (records : List OneContainer) (workers : ℕ) (s : Pool) : Prop where
  once : ((s.jobs.flatMap Job.calls).flatMap (cells 27)).Sublist (List.range' 0 records.length 27)
  inside : s.stop ≠ some .outOfBounds
  exit : s.stop = some .exit → ∃ e ∈ records, e.Impossible
  all : s.stop = none → (∀ a, (treplayInSharedThreads records workers).step s a = none) →
    (s.jobs.flatMap Job.calls).flatMap (cells 27) = List.range' 0 records.length 27 ∧
      s.jobs.flatMap Job.puts = records.map OneContainer.put

/-! ## Steps -/

section Steps

variable {log : Bytes} {entriesCntTotal workers : ℕ} {s t : Pool} {j : ℕ}

lemma doJob_cases (h : s.doJob entriesCntTotal workers = some t) : s.stop = none ∧ s.i < workers ∧
      t = { s with
        i := s.i + 1
        offset := s.offset + entriesCnt entriesCntTotal workers s.i * 27
        jobs := s.jobs ++ [.start s.offset (entriesCnt entriesCntTotal workers s.i)] } := by
  unfold Pool.doJob at h
  split at h
  · cases h
  · next hgo =>
    obtain ⟨hstop, hi⟩ := not_or.mp hgo
    cases h
    exact ⟨not_isSome_iff_eq_none.mp hstop, not_le.mp hi, rfl⟩

lemma turn_cases (h : s.turn log j = some t) :
    ∃ job, s.jobs[j]? = some job ∧ s.stop = none ∧ job.i < job.entriesCntPerCore ∧ t = { s with
        jobs := s.jobs.set j (job.next (getFileContentNewOptimizedPointer log job.init job.size).1)
        stop := (getFileContentNewOptimizedPointer log job.init job.size).2 } := by
  unfold Pool.turn at h
  split at h
  · cases h
  · next job hjob =>
    split at h
    · cases h
    · next hgo =>
      obtain ⟨hstop, hi⟩ := not_or.mp hgo
      cases h
      exact ⟨job, hjob, not_isSome_iff_eq_none.mp hstop, not_le.mp hi, rfl⟩

/-- Nothing is left to do once all parts were handed over and all jobs are at their end. -/
lemma stuck_iff (hstop : s.stop = none) : (∀ a, s.step log entriesCntTotal workers a = none) ↔
      workers ≤ s.i ∧ ∀ job ∈ s.jobs, job.entriesCntPerCore ≤ job.i := by
  constructor
  · intro h
    constructor
    · refine not_lt.mp fun hi => ?_
      have hnone := h .doJob
      simp only [Pool.step, Pool.doJob, hstop, isSome_none, Bool.false_eq_true, false_or,
        if_neg (not_le.mpr hi), reduceCtorEq] at hnone
    · intro job hjob
      obtain ⟨j, hj⟩ := List.mem_iff_getElem?.mp hjob
      refine not_lt.mp fun hi => ?_
      have hnone := h (.turn j)
      simp only [Pool.step, Pool.turn, hj, hstop, isSome_none, Bool.false_eq_true, false_or,
        if_neg (not_le.mpr hi), reduceCtorEq] at hnone
  · rintro ⟨hi, hjobs⟩ a
    cases a with
    | doJob =>
      simp only [Pool.step, Pool.doJob, hi, or_true, if_true]
    | turn j =>
      cases hj : s.jobs[j]? with
      | none => simp only [Pool.step, Pool.turn, hj]
      | some job =>
        have hdone := hjobs job (List.mem_of_getElem? hj)
        simp only [Pool.step, Pool.turn, hj, hdone, or_true, if_true]

end Steps

/-! ## The invariant -/

/-- A job on its way: its calls tile the records it has done. -/
structure Job.OnTrack (job : Job) : Prop where
  tiles : Tiles 27 job.offset job.calls
  done : count job.calls = job.i
  le : job.i ≤ job.entriesCntPerCore
  chunk : job.i < job.entriesCntPerCore → job.chunk = 512

/-- The puts of a job are those of the records at the places of its calls. -/
def Job.PutsCells (log : Bytes) (job : Job) : Prop :=
  job.puts = ((job.calls.flatMap (cells 27)).filterMap (OneContainer.readAt log)).map
    OneContainer.put

/-- The part of the buffer that a job is given. -/
def Job.part (job : Job) : ℕ × ℕ := (job.offset, job.entriesCntPerCore)

/-- What every run keeps. -/
structure Tracked (records : List OneContainer) (workers : ℕ) (s : Pool) : Prop where
  handed : s.jobs.length = s.i
  le : s.i ≤ workers
  tiles : Tiles 27 0 (s.jobs.map Job.part)
  offset : s.offset = 27 * count (s.jobs.map Job.part)
  total : count (s.jobs.map Job.part) =
    if s.i = workers then records.length else s.i * (records.length / workers)
  jobs : ∀ job ∈ s.jobs, job.OnTrack
  puts : s.stop = none → ∀ job ∈ s.jobs, job.PutsCells (records.flatMap OneContainer.encoding)
  inside : s.stop ≠ some .outOfBounds
  exit : s.stop = some .exit → ∃ e ∈ records, e.Impossible

section Track

variable {records : List OneContainer} {log : Bytes} {workers : ℕ} {s t : Pool} {job : Job} {j : ℕ}

lemma Job.OnTrack.size_pos (h : job.OnTrack) (hi : job.i < job.entriesCntPerCore) :
    0 < job.size := by
  unfold Job.size
  rw [h.chunk hi]
  split <;> omega

lemma Job.OnTrack.next (h : job.OnTrack) (hi : job.i < job.entriesCntPerCore) (puts : List Put) :
    (job.next puts).OnTrack := by
  have hsize : job.size ≤ job.entriesCntPerCore - job.i := by
    unfold Job.size
    split <;> omega
  refine ⟨h.tiles.concat ?_, ?_, ?_, ?_⟩
  · rw [h.done, Job.init, Nat.mul_comm]
  · exact (count_concat _ _).trans (by rw [h.done]; rfl)
  · change job.i + job.size ≤ job.entriesCntPerCore
    omega
  · intro hlt
    change job.i + job.size < job.entriesCntPerCore at hlt
    change job.size = 512
    rw [← h.chunk hi]
    unfold Job.size at hlt ⊢
    split at hlt
    · next hchunk => rw [if_pos hchunk]
    · omega

section

variable (hs : Tracked records workers s)

include hs

lemma count_part_le : count (s.jobs.map Job.part) ≤ records.length := by
  rw [hs.total]
  split
  · exact le_rfl
  · exact (Nat.mul_le_mul_right _ hs.le).trans (Nat.mul_div_le _ _)

/-- A place of the next call holds a record. -/
lemma Tracked.exists_readAt (hjob : job ∈ s.jobs) {pos : ℕ}
    (hpos : pos ∈ List.range' job.init job.size 27) :
    ∃ e ∈ records, readAt (records.flatMap encoding) pos = some e := by
  obtain ⟨k, hk, hle⟩ := hs.tiles.exists_of_mem (List.mem_map_of_mem hjob)
  obtain ⟨m, hm, rfl⟩ := List.mem_range'.mp hpos
  have hsize : job.size ≤ job.entriesCntPerCore - job.i := by
    unfold Job.size
    split <;> omega
  have htotal := count_part_le hs
  have hlt : k + job.i + m < records.length := by
    change k + job.entriesCntPerCore ≤ _ at hle
    omega
  have hplace : job.init + 27 * m = (k + job.i + m) * 27 := by
    change job.offset = _ at hk
    rw [Job.init, hk]
    omega
  refine ⟨records[k + job.i + m], List.getElem_mem hlt, ?_⟩
  rw [hplace, readAt_flatMap, List.getElem?_eq_getElem hlt]

lemma Tracked.stop_call (hjob : job ∈ s.jobs) {stop : Stop}
    (h : (getFileContentNewOptimizedPointer (records.flatMap encoding) job.init
      job.size).2 = some stop) : stop = .exit ∧ ∃ e ∈ records, e.Impossible := by
  obtain ⟨pos, hpos, hstop⟩ := pointerLoop_stop h
  rw [Nat.zero_mul, Nat.add_zero] at hpos
  obtain ⟨e, he, hread⟩ := hs.exists_readAt hjob hpos
  rcases hstop with ⟨-, hnone⟩ | ⟨hexit, e', hread', hid⟩
  · rw [hread] at hnone
    cases hnone
  · rw [hread] at hread'
    cases hread'
    exact ⟨hexit, e, he, hid⟩

end

lemma Job.PutsCells.next (h : job.PutsCells log)
    (hstop : (getFileContentNewOptimizedPointer log job.init job.size).2 = none) :
    (job.next (getFileContentNewOptimizedPointer log job.init job.size).1).PutsCells log := by
  have hputs := pointerLoop_puts hstop
  rw [Nat.zero_mul, Nat.add_zero] at hputs
  change job.puts ++ _ = (((job.calls ++ [(job.init, job.size)]).flatMap (cells 27)).filterMap
    (readAt log)).map put
  rw [List.flatMap_append, List.filterMap_append, List.map_append, ← h, List.flatMap_singleton]
  exact congrArg (job.puts ++ ·) hputs

lemma tracked_init (hw : 1 ≤ workers) :
    Tracked records workers (treplayInSharedThreads records workers).init where
  handed := rfl
  le := Nat.zero_le _
  tiles := trivial
  offset := rfl
  total := by
    change 0 = if 0 = workers then records.length else 0 * (records.length / workers)
    rw [if_neg (by omega), Nat.zero_mul]
  jobs := by
    intro job hjob
    cases hjob
  puts := by
    intro _ job hjob
    cases hjob
  inside := by
    intro h
    cases h
  exit := by
    intro h
    cases h

section

variable (hs : Tracked records workers s)

include hs

lemma Tracked.doJob (h : s.doJob records.length workers = some t) : Tracked records workers t := by
  obtain ⟨hstop, hi, rfl⟩ := doJob_cases h
  have hpart : (s.jobs ++ [Job.start s.offset (entriesCnt records.length workers s.i)]).map
      Job.part = s.jobs.map Job.part ++ [(s.offset, entriesCnt records.length workers s.i)] := by
    rw [List.map_append]
    rfl
  have hmem : ∀ job, job ∈ s.jobs ++ [Job.start s.offset (entriesCnt records.length workers s.i)] →
      job ∈ s.jobs ∨ job = Job.start s.offset (entriesCnt records.length workers s.i) := by
    intro job hjob
    rcases List.mem_append.mp hjob with hold | hnew
    · exact .inl hold
    · exact .inr (List.mem_singleton.mp hnew)
  refine ⟨?_, hi, ?_, ?_, ?_, ?_, ?_, hs.inside, hs.exit⟩
  · rw [List.length_append, hs.handed, List.length_singleton]
  · rw [hpart]
    exact hs.tiles.concat (by rw [hs.offset, Nat.zero_add])
  · rw [hpart, count_concat, Nat.mul_add, ← hs.offset, Nat.mul_comm 27]
  · change _ = if s.i + 1 = workers then records.length
      else (s.i + 1) * (records.length / workers)
    rw [hpart, count_concat, hs.total, if_neg hi.ne]
    unfold entriesCnt
    by_cases hlast : s.i = workers - 1
    · -- the last worker takes what is left over
      have hle : (workers - 1) * (records.length / workers) ≤ records.length :=
        (Nat.mul_le_mul_right _ (Nat.sub_le _ _)).trans (Nat.mul_div_le _ _)
      rw [if_pos hlast, if_pos (by omega), hlast]
      omega
    · rw [if_neg hlast, if_neg (by omega), Nat.succ_mul]
  · intro job hjob
    rcases hmem job hjob with hold | rfl
    · exact hs.jobs job hold
    · exact ⟨trivial, rfl, Nat.zero_le _, fun _ => rfl⟩
  · intro _ job hjob
    rcases hmem job hjob with hold | rfl
    · exact hs.puts hstop job hold
    · rfl

lemma Tracked.turn (h : s.turn (records.flatMap encoding) j = some t) :
    Tracked records workers t := by
  obtain ⟨job, hjob, hstop, hi, rfl⟩ := turn_cases h
  have hmem := List.mem_of_getElem? hjob
  have hpart : ∀ puts, (s.jobs.set j (job.next puts)).map Job.part = s.jobs.map Job.part := by
    intro puts
    obtain ⟨hj, hget⟩ := List.getElem?_eq_some_iff.mp hjob
    rw [List.map_set, show (job.next puts).part = job.part from rfl, ← List.map_set, ← hget,
      List.set_getElem_self]
  refine ⟨?_, hs.le, ?_, ?_, ?_, ?_, ?_, ?_, ?_⟩
  · rw [List.length_set, hs.handed]
  · rw [hpart]
    exact hs.tiles
  · rw [hpart]
    exact hs.offset
  · rw [hpart]
    exact hs.total
  · intro job' hjob'
    rcases List.mem_or_eq_of_mem_set hjob' with hold | rfl
    · exact hs.jobs job' hold
    · exact (hs.jobs job hmem).next hi _
  · intro hnone job' hjob'
    rcases List.mem_or_eq_of_mem_set hjob' with hold | rfl
    · exact hs.puts hstop job' hold
    · exact (hs.puts hstop job hmem).next hnone
  · intro hout
    obtain ⟨hexit, -⟩ := hs.stop_call hmem hout
    cases hexit
  · intro hexit
    exact (hs.stop_call hmem hexit).2

lemma Tracked.step {a : Action} (h : (treplayInSharedThreads records workers).step s a = some t) :
    Tracked records workers t := by
  have htotal : (records.flatMap encoding).length / 27 = records.length := by
    rw [length_flatMap_encoding, Nat.mul_div_cancel _ (by decide)]
  cases a with
  | doJob =>
    change s.doJob ((records.flatMap encoding).length / 27) workers = some t at h
    rw [htotal] at h
    exact hs.doJob h
  | turn j => exact hs.turn h

end

end Track

/-! ## Coverage -/

section Coverage

variable {records : List OneContainer} {workers : ℕ} {s t : Pool}

/-- The calls of a job so far, as one piece. -/
lemma Job.OnTrack.flatMap_cells {job : Job} (h : job.OnTrack) :
    job.calls.flatMap (cells 27) = cells 27 (job.offset, job.i) := by
  rw [h.tiles.flatMap_cells, h.done]

section

variable (hs : Tracked records workers s)

include hs

lemma Tracked.flatMap_calls : (s.jobs.flatMap Job.calls).flatMap (cells 27) =
      s.jobs.flatMap fun job => cells 27 (job.offset, job.i) := by
  rw [List.flatMap_assoc]
  exact List.flatMap_congr fun job hjob => (hs.jobs job hjob).flatMap_cells

lemma Tracked.flatMap_part : (s.jobs.flatMap fun job => cells 27 job.part) =
      List.range' 0 (count (s.jobs.map Job.part)) 27 := by
  have hcells := hs.tiles.flatMap_cells
  rwa [List.flatMap_map] at hcells

lemma Tracked.once : ((s.jobs.flatMap Job.calls).flatMap (cells 27)).Sublist
      (List.range' 0 records.length 27) := by
  have hsofar : (s.jobs.flatMap fun job => cells 27 (job.offset, job.i)).Sublist
      (s.jobs.flatMap fun job => cells 27 job.part) := by
    refine List.Sublist.flatMap_right _ fun job hjob => ?_
    exact List.range'_sublist_right.mpr (hs.jobs job hjob).le
  rw [hs.flatMap_calls]
  rw [hs.flatMap_part] at hsofar
  exact hsofar.trans (List.range'_sublist_right.mpr (count_part_le hs))

lemma Tracked.covers : Covers records workers s := by
  refine ⟨hs.once, hs.inside, hs.exit, fun hstop hstuck => ?_⟩
  obtain ⟨hi, hdone⟩ := (stuck_iff hstop).mp hstuck
  have hcells : (s.jobs.flatMap Job.calls).flatMap (cells 27) =
      List.range' 0 records.length 27 := by
    have htotal := hs.total
    rw [if_pos (le_antisymm hs.le hi)] at htotal
    rw [← htotal, ← hs.flatMap_part, hs.flatMap_calls]
    refine List.flatMap_congr fun job hjob => ?_
    rw [le_antisymm (hs.jobs job hjob).le (hdone job hjob)]
    rfl
  refine ⟨hcells, ?_⟩
  have hputs : s.jobs.flatMap Job.puts = (((s.jobs.flatMap Job.calls).flatMap (cells 27)).filterMap
      (readAt (records.flatMap encoding))).map put := by
    rw [List.flatMap_assoc, List.filterMap_flatMap, List.map_flatMap]
    exact List.flatMap_congr fun job hjob => hs.puts hstop job hjob
  rw [hputs, hcells, filterMap_readAt]

end

/-- How many steps a state has behind it, at most. -/
def Pool.steps (s : Pool) : ℕ := s.jobs.length + (s.jobs.map Job.i).sum

lemma Tracked.steps_lt (hs : Tracked records workers s) {a : Action}
    (h : (treplayInSharedThreads records workers).step s a = some t) : s.steps < t.steps := by
  cases a with
  | doJob =>
    obtain ⟨-, -, rfl⟩ := doJob_cases h
    simp only [Pool.steps, List.length_append, List.length_singleton, List.map_append,
      List.map_singleton, List.sum_append, List.sum_singleton]
    omega
  | turn j =>
    obtain ⟨job, hjob, -, hi, rfl⟩ := turn_cases h
    have hpos := (hs.jobs job (List.mem_of_getElem? hjob)).size_pos hi
    obtain ⟨hj, hget⟩ := List.getElem?_eq_some_iff.mp hjob
    have hsucc := List.sum_take_succ (s.jobs.map Job.i) j (by rwa [List.length_map])
    have hsum := List.sum_take_add_sum_drop (s.jobs.map Job.i) (j + 1)
    rw [List.getElem_map, hget] at hsucc
    simp only [Pool.steps, List.length_set, List.map_set, List.sum_set, List.length_map, hj,
      if_true]
    change _ < _ + (_ + (job.i + job.size) + _)
    omega

lemma Tracked.steps_le (hs : Tracked records workers s) : s.steps ≤ workers + records.length := by
  have hsum : (s.jobs.map Job.i).sum ≤ count (s.jobs.map Job.part) := by
    rw [count, List.map_map]
    exact List.sum_le_sum fun job hjob => (hs.jobs job hjob).le
  have htotal := count_part_le hs
  have hhanded := hs.handed
  have hle := hs.le
  unfold Pool.steps
  omega

/-- A put of the value 7 for the key 5 of table 1, with the commit id 10. -/
def oneRecord : OneContainer := .ofWords 10 5 7 1 0

end Coverage

end Rolis.Sto.Even
