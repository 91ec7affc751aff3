import Mathlib.Algebra.Order.BigOperators.Group.Finset
import Mathlib.Data.List.TakeWhile
import Rolis.Sto.SharedTable

/-!
# Which groups the shared pool replays

The arguments of `getFileContentOz` are swapped, so a job does as many turns as the commit id of its
group says, and stores the number of records as the commit id. This is right if the two are equal.
Where they differ, any insert of the job has the wrong commit id, whatever the other jobs do.
-/

namespace Rolis.Sto.Decl

open Bytes Lts List

/-! ## Groups that agree -/

section Agreeing

variable {allFilesNames : Finset ℤ} {groups : List Group} {s t : Pool} {g : Group} {job : Job}
  {j : ℕ}

/-- A job that is done has made all puts of its group. -/
lemma OnTrack.inserts_of_done (h : OnTrack allFilesNames groups j g job)
    (hfit : g.cid = g.records.length) (hdone : job.chunk ≤ job.i) :
    job.inserts = (oz allFilesNames).puts g.cid false g.records := by
  have hi : g.records.length ≤ job.i := by
    rw [← hfit, ← h.chunk]
    exact hdone
  rw [h.inserts, h.cid, ← hfit, take_of_length_le hi]

lemma OnTrack.own (h : OnTrack allFilesNames groups j g job) (hg : g.Agrees allFilesNames)
    (hdone : job.chunk ≤ job.i) :
    job.inserts = (oz allFilesNames).perRecord g.cid g.records := by
  rw [h.inserts_of_done hg.1 hdone, Replayer.puts_eq_perRecord_iff]
  exact ⟨fun hfalse => absurd hfalse (by decide), hg.2⟩

section

variable (hs : Tracked allFilesNames groups s)

include hs

lemma Tracked.idx_lt (hlt : s.jobs.length < groups.length) : s.idx < s.buffer.length := by
  have hg : groups[s.jobs.length]? = some groups[s.jobs.length] := getElem?_eq_getElem hlt
  have hsucc := offset_succ hg
  have hle : offset groups (s.jobs.length + 1) ≤ offset groups groups.length := offset_le hlt
  rw [hs.idx, hs.length]
  omega

/-- When no step is left, all groups were handed over and all jobs are done. -/
lemma Tracked.done (hstop : ∀ a, s.step allFilesNames a = none) :
    s.jobs.length = groups.length ∧
      ∀ (j : ℕ) (job : Job), s.jobs[j]? = some job → job.chunk ≤ job.i := by
  constructor
  · refine le_antisymm hs.count (not_lt.mp fun hlt => ?_)
    obtain ⟨t, ht⟩ := doJob_enabled hs.fault (hs.idx_lt hlt)
    have hnone : s.doJob = none := hstop .doJob
    rw [ht] at hnone
    cases hnone
  · intro j job hjob
    refine not_lt.mp fun hlt => ?_
    obtain ⟨t, ht⟩ := turn_enabled allFilesNames hjob hs.fault hlt
    have hnone : s.turn allFilesNames j = none := hstop (.turn j)
    rw [ht] at hnone
    cases hnone

lemma Tracked.insertsExactly (hagree : ∀ g ∈ groups, g.Agrees allFilesNames) :
    InsertsExactly allFilesNames groups s := by
  have hown : ∀ (j : ℕ) (job : Job) (g : Group), s.jobs[j]? = some job → groups[j]? = some g →
      job.chunk ≤ job.i → job.inserts = (oz allFilesNames).perRecord g.cid g.records := by
    intro j job g hjob hg hdone
    exact (hs.jobs j job g hjob hg).own (hagree g (mem_of_getElem? hg)) hdone
  refine ⟨hs.fault, hown, fun hstop => ?_⟩
  obtain ⟨hcount, hdone⟩ := hs.done hstop
  rw [flatMap_def, flatMap_def]
  congr 1
  apply ext_getElem
  · rw [length_map, length_map, hcount]
  · intro j hj hj'
    rw [length_map] at hj hj'
    have hjob : s.jobs[j]? = some s.jobs[j] := getElem?_eq_getElem hj
    rw [getElem_map, getElem_map]
    exact hown j _ _ hjob (getElem?_eq_getElem hj') (hdone j _ hjob)

end

/-- How many steps a state has behind it. -/
def Pool.steps (groups : List Group) (s : Pool) : ℕ :=
  s.jobs.length + ∑ j ∈ Finset.range groups.length, s.started j

section

variable (hs : Tracked allFilesNames groups s)

include hs

lemma steps_lt_of_doJob (hlen : (groups.flatMap Group.encoding).length < 2 ^ 64)
    (h : s.doJob = some t) : s.steps groups < t.steps groups := by
  have ht := hs.doJob hlen h
  obtain ⟨-, -, ⟨-, rfl⟩ | ⟨cid, len, -, rfl⟩⟩ := doJob_cases h
  · cases ht.fault
  · simp only [Pool.steps, Pool.started_concat (replayInSameThreadObject (s.idx + 16)
      (len / 18) cid) rfl, length_append, length_singleton]
    omega

lemma steps_lt_of_turn (hfit : ∀ g, groups[j]? = some g → g.cid = g.records.length)
    (h : s.turn allFilesNames j = some t) : s.steps groups < t.steps groups := by
  have ht := hs.turn hfit h
  obtain ⟨job, hjob, -, -, ⟨-, rfl⟩ | ⟨r, putOps, -, rfl⟩⟩ := turn_cases h
  · cases ht.fault
  · have hj : j < s.jobs.length := (List.getElem?_eq_some_iff.mp hjob).1
    have hstarted := Pool.started_set (job.next allFilesNames r putOps) hj
      (clearBit s.buffer (job.array + job.i * 18) r)
    simp only [Pool.steps, List.length_set]
    apply Nat.add_lt_add_left
    refine Finset.sum_lt_sum (fun j' _ => ?_) ⟨j, Finset.mem_range.mpr (hj.trans_le hs.count), ?_⟩
    · rw [hstarted]
      split
      · next heq =>
        rw [← heq, Pool.started_of_getElem? hjob]
        exact Nat.le_succ _
      · exact le_rfl
    · rw [hstarted, if_pos rfl, Pool.started_of_getElem? hjob]
      exact Nat.lt_succ_self _

/-- Each step has used up bytes of the buffer. -/
lemma steps_le : s.steps groups ≤ (groups.flatMap Group.encoding).length := by
  have hsum : ∀ m, m ≤ groups.length → m + ∑ j ∈ Finset.range m, s.started j ≤ offset groups m := by
    intro m hm
    induction m with
    | zero => exact Nat.zero_le _
    | succ m ih =>
      have hg : groups[m]? = some groups[m] := getElem?_eq_getElem hm
      have hstarted : s.started m ≤ groups[m].records.length := by
        cases hjob : s.jobs[m]? with
        | none =>
          rw [Pool.started, hjob]
          exact Nat.zero_le _
        | some job =>
          rw [Pool.started_of_getElem? hjob]
          exact (hs.jobs m job _ hjob hg).le
      have hprev := ih (Nat.le_of_succ_le hm)
      rw [Finset.sum_range_succ, offset_succ hg]
      omega
  have htotal := hsum groups.length le_rfl
  have hcount := hs.count
  rw [← offset_length]
  unfold Pool.steps
  omega

end

end Agreeing

/-! ## Groups that do not agree -/

section Disagreeing

variable {allFilesNames : Finset ℤ} {groups : List Group} {s t : Pool} {g : Group} {job : Job}
  {j : ℕ}

/-- All inserts of a job carry the number that it takes for the commit id. -/
def Job.Tagged (job : Job) : Prop := ∀ p ∈ job.inserts, ∃ y, p.value = keystoreEncode3 job.cid y

lemma insertOf_value {f : Replayer} {cid : ℕ} {b : Bool} {r : Record} {p : Put}
    (h : f.insertOf cid b r = some p) : ∃ y, p.value = keystoreEncode3 cid y := by
  unfold Replayer.insertOf at h
  split at h
  · cases h
    exact ⟨_, rfl⟩
  · cases h

lemma Job.Tagged.next (h : job.Tagged) (r : Record) (putOps : ℕ) :
    (job.next allFilesNames r putOps).Tagged := by
  intro p hp
  rcases mem_append.mp hp with hold | hnew
  · exact h p hold
  · exact insertOf_value (Option.mem_toList.mp hnew)

lemma puts_value (f : Replayer) (cid : ℕ) (b : Bool) (records : List Record) :
    ∀ p ∈ f.puts cid b records, ∃ y, p.value = keystoreEncode3 cid y := by
  induction records generalizing b with
  | nil =>
    intro p hp
    cases hp
  | cons r records ih =>
    intro p hp
    rw [Replayer.puts] at hp
    split at hp
    · cases hp
    · rcases mem_append.mp hp with hhead | htail
      · exact insertOf_value (Option.mem_toList.mp hhead)
      · exact ih _ p htail

lemma OnTrack.tagged (h : OnTrack allFilesNames groups j g job) : job.Tagged := by
  intro p hp
  rw [h.inserts] at hp
  exact puts_value _ _ _ _ p hp

/-- Left alone, a job comes to its end or reads behind the buffer. -/
lemma exists_run_done (allFilesNames : Finset ℤ) (groups : List Group)
    (hjob : s.jobs[j]? = some job) (hfault : s.fault = false) (htag : job.Tagged) :
    ∃ t, Run (replayInSharedThreadsTable allFilesNames groups) (fun _ a => a = .turn j) s t ∧
      (t.fault = true ∨ ∃ job', t.jobs[j]? = some job' ∧ job'.chunk ≤ job'.i ∧
        job'.cid = job.cid ∧ job'.Tagged) := by
  -- by the number of turns that are left
  induction hleft : job.chunk - job.i generalizing s job with
  | zero => exact ⟨s, .refl, .inr ⟨job, hjob, by omega, rfl, htag⟩⟩
  | succ left ih =>
    obtain ⟨u, hu⟩ := turn_enabled allFilesNames hjob hfault (by omega)
    have hstep : Run (replayInSharedThreadsTable allFilesNames groups) (fun _ a => a = .turn j)
        s u := Run.single rfl hu
    obtain ⟨job₀, hjob₀, -, -, ⟨-, rfl⟩ | ⟨r, putOps, -, rfl⟩⟩ := turn_cases hu
    · exact ⟨_, hstep, .inl rfl⟩
    · rw [hjob] at hjob₀
      cases hjob₀
      have hj : j < s.jobs.length := (List.getElem?_eq_some_iff.mp hjob).1
      have hnext : (s.jobs.set j (job.next allFilesNames r putOps))[j]? =
          some (job.next allFilesNames r putOps) := List.getElem?_set_self hj
      obtain ⟨t, hrun, hend⟩ := ih (s := { s with
        buffer := clearBit s.buffer (job.array + job.i * 18) r
        jobs := s.jobs.set j (job.next allFilesNames r putOps) }) hnext hfault (htag.next r putOps)
        (by change job.chunk - (job.i + 1) = left; omega)
      exact ⟨t, hstep.trans hrun, hend⟩

/-- Any number of groups can be handed over before a job does a turn. -/
lemma exists_run_handed (allFilesNames : Finset ℤ)
    (hlen : (groups.flatMap Group.encoding).length < 2 ^ 64) (m : ℕ) (hm : m ≤ groups.length) :
    ∃ s, Run (replayInSharedThreadsTable allFilesNames groups) (fun _ a => a = .doJob)
        (replayInSharedThreadsTable allFilesNames groups).init s ∧
      Tracked allFilesNames groups s ∧ s.jobs.length = m := by
  induction m with
  | zero => exact ⟨_, .refl, tracked_init hlen, rfl⟩
  | succ m ih =>
    obtain ⟨s, hrun, hs, hcount⟩ := ih (Nat.le_of_succ_le hm)
    obtain ⟨t, ht⟩ := doJob_enabled hs.fault (hs.idx_lt (by omega))
    have htracked := hs.doJob hlen ht
    refine ⟨t, hrun.tail rfl ht, htracked, ?_⟩
    obtain ⟨-, -, ⟨-, rfl⟩ | ⟨cid, len, -, rfl⟩⟩ := doJob_cases ht
    · cases htracked.fault
    · rw [length_append, length_singleton, hcount]

lemma exists_mem_perRecord (hknown : g.Known allFilesNames) (cid : ℕ) :
    ∃ p ∈ (oz allFilesNames).perRecord cid g.records, ∃ y, p.value = keystoreEncode3 cid y := by
  obtain ⟨r, hr, hid⟩ := hknown
  have hreached : (oz allFilesNames).reached g.records = g.records :=
    takeWhile_eq_self_iff.mpr fun r _ => by simpa using oz_verdict_ne_exit r.table
  have hput : (oz allFilesNames).insertOf cid r.deleted r =
      some ((oz allFilesNames).putOf cid r.deleted r) := by
    have hverdict : (oz allFilesNames).verdict r.table = .put := if_pos hid
    rw [Replayer.insertOf, if_pos hverdict]
  refine ⟨(oz allFilesNames).putOf cid r.deleted r, ?_, ⟨_, rfl⟩⟩
  rw [Replayer.perRecord, hreached]
  exact mem_filterMap.mpr ⟨r, hr, hput⟩

/-- If the jobs insert exactly in all states, a group with a known table agrees. -/
lemma agrees_of_insertsExactly (hlen : (groups.flatMap Group.encoding).length < 2 ^ 64)
    (hexact : ∀ s, Reachable (replayInSharedThreadsTable allFilesNames groups) s →
      InsertsExactly allFilesNames groups s)
    (hg : groups[j]? = some g) (hknown : g.Known allFilesNames) : g.Agrees allFilesNames := by
  have hj : j < groups.length := (List.getElem?_eq_some_iff.mp hg).1
  obtain ⟨s, hhanded, hs, hcount⟩ := exists_run_handed allFilesNames hlen (j + 1) hj
  obtain ⟨job, hjob⟩ : ∃ job, s.jobs[j]? = some job := ⟨_, List.getElem?_eq_getElem (by omega)⟩
  have htrack := hs.jobs j job g hjob hg
  obtain ⟨t, hturns, hend⟩ := exists_run_done allFilesNames groups hjob hs.fault htrack.tagged
  have ht := hexact t ((hhanded.mono fun _ _ _ => trivial).trans
    (hturns.mono fun _ _ _ => trivial)).reachable
  obtain hfault | ⟨job', hjob', hdone, hcid, htag⟩ := hend
  · rw [ht.inside] at hfault
    cases hfault
  · have hown := ht.own j job' g hjob' hg hdone
    have hfit : g.cid = g.records.length := by
      obtain ⟨p, hp, y, hy⟩ := exists_mem_perRecord hknown g.cid
      rw [← hown] at hp
      obtain ⟨y', hy'⟩ := htag p hp
      obtain ⟨heq, -⟩ := keystoreEncode3_inj (hy.symm.trans hy')
      have hsize : offset groups (j + 1) < 2 ^ 64 :=
        lt_of_le_of_lt (offset_le hj) (offset_length groups ▸ hlen)
      rw [offset_succ hg] at hsize
      rw [hcid, htrack.cid, Nat.mod_eq_of_lt g.cid_lt, Nat.mod_eq_of_lt (by omega)] at heq
      exact heq
    -- with the right number of turns the run stays inside of the group
    have hkeeping : Run (replayInSharedThreadsTable allFilesNames groups) (Keeping groups)
        (replayInSharedThreadsTable allFilesNames groups).init t := by
      refine (hhanded.mono fun _ a ha => ?_).trans (hturns.mono fun _ a ha => ?_)
      · rw [ha]
        trivial
      · rw [ha]
        intro g' hg'
        rw [hg] at hg'
        cases hg'
        exact hfit
    have htrack' := (tracked_of_run hlen hkeeping).jobs j job' g hjob' hg
    rw [htrack'.inserts_of_done hfit hdone, Replayer.puts_eq_perRecord_iff] at hown
    exact ⟨hfit, hown.2⟩

end Disagreeing

/-! ## The buffer as a whole -/

/-- If the groups agree, everything is inserted exactly in every run, and every run ends. Where each
group has a record of a known table, only then. -/
theorem replayInSharedThreadsTable_exact (allFilesNames : Finset ℤ) (groups : List Group)
    (hlen : (groups.flatMap Group.encoding).length < 2 ^ 64) :
    ((∀ g ∈ groups, g.Agrees allFilesNames) →
      ∀ as s, exec (replayInSharedThreadsTable allFilesNames groups)
          (replayInSharedThreadsTable allFilesNames groups).init as = some s →
        InsertsExactly allFilesNames groups s ∧
          as.length ≤ (groups.flatMap Group.encoding).length) ∧
    ((∀ g ∈ groups, g.Known allFilesNames) →
      (∀ s, Reachable (replayInSharedThreadsTable allFilesNames groups) s →
        InsertsExactly allFilesNames groups s) →
      ∀ g ∈ groups, g.Agrees allFilesNames) := by
  constructor
  · intro hagree as s hexec
    have hfit : ∀ (j : ℕ) (g : Group), groups[j]? = some g → g.cid = g.records.length := by
      intro j g hg
      exact (hagree g (List.mem_of_getElem? hg)).1
    have hkeep : ∀ s a t, Tracked allFilesNames groups s → s.step allFilesNames a = some t →
        Tracked allFilesNames groups t ∧ s.steps groups < t.steps groups := by
      intro s a t hs hstep
      cases a with
      | doJob => exact ⟨hs.doJob hlen hstep, steps_lt_of_doJob hs hlen hstep⟩
      | turn j => exact ⟨hs.turn (hfit j) hstep, steps_lt_of_turn hs (hfit j) hstep⟩
    have hs : Tracked allFilesNames groups s := by
      refine (Run.of_exec as hexec).invariant _ (fun t u a ht _ hstep => ?_) (tracked_init hlen)
      exact (hkeep t a u ht hstep).1
    have hsteps := length_add_le_of_exec (Tracked allFilesNames groups) (Pool.steps groups)
      (fun s a t hs hstep => (hkeep s a t hs hstep).1)
      (fun s a t hs hstep => (hkeep s a t hs hstep).2) as (tracked_init hlen) hexec
    exact ⟨hs.insertsExactly hagree, le_trans (Nat.le_of_add_right_le hsteps) (steps_le hs)⟩
  · intro hknown hexact g hg
    obtain ⟨j, hj⟩ := List.mem_iff_getElem?.mp hg
    exact agrees_of_insertsExactly hlen hexact hj (hknown g hg)

/-- A put of the value 7 for the key 5 of table 1. -/
def putSeven : Record := .ofWords 5 7 1

/-- A group of one record with the commit id 1 is inserted exactly. -/
theorem replayInSharedThreadsTable_exact_one :
    ∃ s, exec (replayInSharedThreadsTable {1} [⟨1, [putSeven], by decide⟩])
        (replayInSharedThreadsTable {1} [⟨1, [putSeven], by decide⟩]).init [.doJob, .turn 0] =
          some s ∧
      InsertsExactly {1} [⟨1, [putSeven], by decide⟩] s := by
  have hrun : (exec (replayInSharedThreadsTable {1} [⟨1, [putSeven], by decide⟩])
      (replayInSharedThreadsTable {1} [⟨1, [putSeven], by decide⟩]).init
      [.doJob, .turn 0]).isSome = true := by decide +kernel
  obtain ⟨s, hs⟩ := Option.isSome_iff_exists.mp hrun
  exact ⟨s, hs, ((replayInSharedThreadsTable_exact {1} [⟨1, [putSeven], by decide⟩]
    (by decide)).1 (by decide) _ s hs).1⟩

/-- With the commit id 10 the record is inserted under the commit id 1, and the job goes on behind
the end of the buffer. -/
theorem replayInSharedThreadsTable_swapped :
    ∃ s, Reachable (replayInSharedThreadsTable {1} [⟨10, [putSeven], by decide⟩]) s ∧
      s.fault = true ∧ s.jobs.map Job.inserts = [[⟨1, [53], keystoreEncode3 1 7⟩]] ∧
      ¬ InsertsExactly {1} [⟨10, [putSeven], by decide⟩] s := by
  obtain ⟨s, hs, hfault, hinserts⟩ := exists_reachable_of_exec
    (replayInSharedThreadsTable {1} [⟨10, [putSeven], by decide⟩])
    [.doJob, .turn 0, .turn 0]
    (fun s => s.fault = true ∧ s.jobs.map Job.inserts = [[⟨1, [53], keystoreEncode3 1 7⟩]])
    (by decide +kernel)
  refine ⟨s, hs, hfault, hinserts, fun h => ?_⟩
  rw [h.inside] at hfault
  cases hfault

end Rolis.Sto.Decl
