import Rolis.Lib.Decimal
import Rolis.Replay.Next
import Rolis.Sto.Batching

/-!
# The three categories of logs

A log on a stream is an encoded batch, the empty end signal or a no-ops marker. Nothing in the log
names its category. A batch begins with the commit id of its first transaction, and `isNoops` knows
a marker by its first seven bytes, so a batch with the right id is taken for a marker.

The leader callback does not even ask: it reads the last eight bytes of every log as a commit id.
A marker gives a number made of its text, and the end signal has no eight bytes.
-/

namespace Rolis.Replay

open Sto Bytes List Option

/-- The log that `send_no_ops_for_mark` submits. -/
def noOpsForMark (epoch : ℤ) : Bytes := Delivery.noopsPrefix ++ intToDecimal epoch

lemma isNoops_noOpsForMark (epoch : ℤ) : isNoops (noOpsForMark epoch) = true := by
  have hpos : 0 < (intToDecimal epoch).length :=
    length_pos_of_ne_nil (intToDecimal_ne_nil epoch)
  simpa [isNoops, noOpsForMark, Delivery.noopsPrefix] using hpos

/-! ## Batches and markers -/

variable {k : ℕ} {cs g : List Commit}

/-- A group begins with the commit id of its first transaction. -/
lemma exists_encodings_cons {c : Commit} {body : Bytes}
    (h : encodings (c :: g) = some body) : ∃ rest, body = encode 8 c.cid ++ rest := by
  obtain ⟨txn, htxn, hrest⟩ := bind_eq_some_iff.mp h
  obtain ⟨rest, -, rfl⟩ := map_eq_some_iff.mp hrest
  obtain ⟨kvs, -, rfl⟩ := map_eq_some_iff.mp htxn
  exact ⟨_, by rw [append_assoc, append_assoc, append_assoc]⟩

/-- The commit id of the first transaction of a group has the seven low bytes of a marker. -/
def LikeMarker (g : List Commit) : Prop := ∃ c ∈ g.head?, c.cid % 256 ^ 7 = Delivery.noopsCid

instance (g : List Commit) : Decidable (LikeMarker g) :=
  inferInstanceAs (Decidable (∃ c ∈ g.head?, c.cid % 256 ^ 7 = Delivery.noopsCid))

/-- The batch of a group is not empty, and it is taken for a marker exactly if the first commit id
looks like one. -/
lemma isNoops_of_batched {batch : Bytes} (h : Batched g batch) :
    batch ≠ [] ∧ (isNoops batch = true ↔ LikeMarker g) := by
  obtain ⟨c, g, rfl⟩ := exists_cons_of_ne_nil h.ne_nil
  obtain ⟨rest, hbody⟩ := exists_encodings_cons h.body
  have hbatch : batch = encode 8 c.cid ++ (rest ++ batch.drop (batch.length - 8)) := by
    rw [← append_assoc, ← hbody, withoutTrailer, take_append_drop]
  rw [hbatch, Delivery.isNoops_encode_append]
  exact ⟨cons_ne_nil _ _, by simp [LikeMarker]⟩

lemma serializeUtil_zero (inst : StringAllocator) (c : Commit) :
    inst.serializeUtil 0 c = inst.serializeUtil 1 c := by
  simp [StringAllocator.serializeUtil]

lemma run_zero (inst : StringAllocator) (cs : List Commit) : inst.run 0 cs = inst.run 1 cs := by
  induction cs generalizing inst with
  | nil => rfl
  | cons c cs ih => simp only [StringAllocator.run, serializeUtil_zero, ih]

/-- The limit 0 submits every transaction by itself, as the limit 1 does. -/
lemma submitted_zero (cs : List Commit) : submitted 0 cs = submitted 1 cs := by
  simp only [submitted, run_zero]

lemma groupsOf_zero (pending cs : List Commit) : groupsOf 0 pending cs = groupsOf 1 pending cs := by
  induction cs generalizing pending with
  | nil => rfl
  | cons c cs ih => simp [groupsOf, ih]

/-- The batches of a thread are those of its groups. -/
lemma batched_of_submitted {batches : List Bytes} (h : submitted k cs = some batches) :
    List.Forall₂ Batched (groupsOf k [] cs) batches := by
  obtain rfl | hk := Nat.eq_zero_or_pos k
  · rw [submitted_zero, submitted_eq_mapM le_rfl] at h
    rw [groupsOf_zero]
    exact forall₂_of_mapM h fun g hg _ hb => batched_of_submit (ne_nil_of_mem_groupsOf hg) hb
  · rw [submitted_eq_mapM hk] at h
    exact forall₂_of_mapM h fun g hg _ hb => batched_of_submit (ne_nil_of_mem_groupsOf hg) hb

/-- No batch is empty or taken for a marker, and every marker is taken for one. -/
def CategoriesDisjoint (batches : List Bytes) : Prop :=
  (∀ batch ∈ batches, batch ≠ [] ∧ isNoops batch = false) ∧
    ∀ epoch, isNoops (noOpsForMark epoch) = true

/-- The categories of the logs of a thread are disjoint exactly if no group of its transactions,
one for each batch, begins with a commit id that has the seven low bytes of a marker. -/
theorem categoriesDisjoint_iff (kSizeLimit : ℕ) (cs : List Commit) (batches : List Bytes)
    (h : submitted kSizeLimit cs = some batches) :
    CategoriesDisjoint batches ↔ ∀ g ∈ groupsOf kSizeLimit [] cs, ¬LikeMarker g := by
  rw [CategoriesDisjoint, and_iff_left isNoops_noOpsForMark]
  have hall := batched_of_submitted h
  generalize groupsOf kSizeLimit [] cs = groups at hall
  clear h
  induction hall with
  | nil => simp
  | cons hb _ ih =>
    obtain ⟨hne, hiff⟩ := isNoops_of_batched hb
    simp only [List.forall_mem_cons]
    refine and_congr ?_ ih
    rw [← hiff, Bool.not_eq_true]
    exact and_iff_right hne

/-- Two transactions of epoch 6 in one batch; the id of the first looks like a marker. -/
def likeMarkerFirst (tid : ℕ) : List Commit :=
  [⟨tid, 6, [⟨false, false, [7], [1], [7], 10001⟩]⟩,
   ⟨tid + 1, 6, [⟨false, false, [8], [1], [8], 10001⟩]⟩]

theorem categoriesDisjoint_iff_plain : ∃ batches, submitted 2 (likeMarkerFirst 5) = some batches ∧
    batches.length = 1 ∧ CategoriesDisjoint batches := by
  obtain ⟨batches, hsub⟩ : ∃ batches, submitted 2 (likeMarkerFirst 5) = some batches :=
    Option.isSome_iff_exists.mp (by decide +kernel)
  have hlen : (submitted 2 (likeMarkerFirst 5)).map List.length = some 1 := by decide +kernel
  rw [hsub] at hlen
  exact ⟨batches, hsub, Option.some.inj hlen,
    (categoriesDisjoint_iff 2 _ batches hsub).mpr (by decide)⟩

/-- The commit id of the first transaction is 5709002404384305006. -/
theorem not_categoriesDisjoint_likeMarker :
    ∃ batches, submitted 2 (likeMarkerFirst 5709002404384305) = some batches ∧
      batches.map isNoops = [true] ∧ ¬CategoriesDisjoint batches := by
  obtain ⟨batches, hsub⟩ : ∃ batches,
      submitted 2 (likeMarkerFirst 5709002404384305) = some batches :=
    Option.isSome_iff_exists.mp (by decide +kernel)
  have hno : (submitted 2 (likeMarkerFirst 5709002404384305)).map (List.map isNoops) =
      some [true] := by
    decide +kernel
  rw [hsub] at hno
  refine ⟨batches, hsub, Option.some.inj hno, ?_⟩
  rintro ⟨hbatches, -⟩
  obtain ⟨batch, rfl, hnoops⟩ := List.map_eq_singleton_iff.mp (Option.some.inj hno)
  rw [(hbatches batch List.mem_cons_self).2] at hnoops
  cases hnoops

/-! ## The watermark of a leader -/

/-- What a leader applies on a stream. -/
inductive LeaderLog
  | batch (t : Txn) (ts : List Txn)
  | noops (epoch : ℤ)
  | endSignal

namespace LeaderLog

/-- The commit id of the last transaction of a batch. -/
def latestCid (t : Txn) (ts : List Txn) : ℕ := ((t :: ts).getLast (List.cons_ne_nil t ts)).cid

def bytes : LeaderLog → Bytes
  | batch t ts => (t :: ts).flatMap Txn.encoding ++ encode 8 (latestCid t ts)
  | noops epoch => noOpsForMark epoch
  | endSignal => []

/-- The commit ids in a log. -/
def cids : LeaderLog → List ℕ
  | batch t ts => (t :: ts).map fun t => t.cid
  | noops _ => []
  | endSignal => []

end LeaderLog

/-- The leader callback: `none` is the failed assertion of `get_latest_commit_id`, otherwise the
value it stores in `cg_`. -/
def leaderCallback (log : Bytes) : Option ℕ :=
  if log.length < 8 then none else some (latestCommitId log / 1000)

/-- `PaxosWorker::Next` with the leader callback: the entry of the stream in `cg_` afterwards. All
logs go to the callback, and its answer 0 has no effect. -/
def leaderNext (_cg : ℕ) (log : LeaderLog) : Option ℕ := leaderCallback log.bytes

/-- The time stamp of the latest batch of the current epoch, which the last marker has begun. -/
def latestStamp (logs : List LeaderLog) : Option ℕ :=
  logs.foldl (fun latest log => match log with
    | .batch t ts => some (LeaderLog.latestCid t ts / 1000)
    | .noops _ => none
    | .endSignal => latest) none

/-- After every log the entry in `cg_` is the time stamp of the latest batch of the current epoch,
and it does not decrease between markers. -/
structure TracksLatest (cg : ℕ) (logs : List LeaderLog) : Prop where
  latest : ∀ before log, before ++ [log] <+: logs →
    ∃ v, (before ++ [log]).foldlM leaderNext cg = some v ∧ latestStamp (before ++ [log]) = some v
  mono : ∀ before behind, before ++ behind <+: logs → before ≠ [] →
    (∀ epoch, .noops epoch ∉ behind) → ∀ v v', before.foldlM leaderNext cg = some v →
      (before ++ behind).foldlM leaderNext cg = some v' → v ≤ v'

variable {cg : ℕ} {logs : List LeaderLog} {t : Txn} {ts : List Txn}

lemma LeaderLog.latestCid_mem (t : Txn) (ts : List Txn) :
    LeaderLog.latestCid t ts ∈ (LeaderLog.batch t ts).cids :=
  mem_map.mpr ⟨_, getLast_mem _, rfl⟩

lemma latestCommitId_append {body : Bytes} {cid : ℕ} (h : cid < 256 ^ 8) :
    latestCommitId (body ++ encode 8 cid) = cid := by
  have hlen : (body ++ encode 8 cid).length - 8 = body.length := by simp
  rw [latestCommitId, hlen, drop_left, decode_encode_of_lt h]

/-- The callback gets the time stamp of a batch back. -/
lemma leaderNext_batch (cg : ℕ) (t : Txn) (ts : List Txn) :
    leaderNext cg (.batch t ts) = some (LeaderLog.latestCid t ts / 1000) := by
  have hlt : LeaderLog.latestCid t ts < 256 ^ 8 := Commit.cid_lt _
  have hlen : 8 ≤ (LeaderLog.batch t ts).bytes.length := by
    rw [LeaderLog.bytes, length_append, length_encode]
    omega
  rw [leaderNext, leaderCallback, if_neg (Nat.not_lt.mpr hlen), LeaderLog.bytes,
    latestCommitId_append hlt]

lemma foldlM_leaderNext_concat (cg : ℕ) (before : List LeaderLog) (t : Txn) (ts : List Txn)
    (h : ∃ v, before.foldlM leaderNext cg = some v) :
    (before ++ [LeaderLog.batch t ts]).foldlM leaderNext cg =
      some (LeaderLog.latestCid t ts / 1000) := by
  obtain ⟨v, hv⟩ := h
  simp [foldlM_append, hv, leaderNext_batch]

/-- Batches are applied without a failed assertion. -/
lemma exists_foldlM_leaderNext (cg : ℕ) (h : ∀ log ∈ logs, ∃ t ts, log = .batch t ts) :
    ∃ v, logs.foldlM leaderNext cg = some v := by
  induction logs generalizing cg with
  | nil => exact ⟨cg, rfl⟩
  | cons log logs ih =>
    obtain ⟨t, ts, rfl⟩ := h log mem_cons_self
    obtain ⟨v, hv⟩ := ih (LeaderLog.latestCid t ts / 1000) fun l hl =>
      h l (mem_cons_of_mem _ hl)
    exact ⟨v, by simp [leaderNext_batch, hv]⟩

/-- A leader tracks the latest batch, for logs with increasing commit ids, exactly if it applies
batches only: neither a marker nor the end signal. -/
theorem tracksLatest_iff (cg : ℕ) (logs : List LeaderLog)
    (hinc : (logs.flatMap LeaderLog.cids).Pairwise (· < ·)) :
    TracksLatest cg logs ↔ ∀ log ∈ logs, ∃ t ts, log = .batch t ts := by
  constructor
  · rintro ⟨hlatest, -⟩ log hlog
    obtain ⟨before, behind, rfl⟩ := List.append_of_mem hlog
    obtain ⟨v, hv, hstamp⟩ := hlatest before log ⟨behind, by simp⟩
    cases log with
    | batch t ts => exact ⟨t, ts, rfl⟩
    | noops epoch => simp [latestStamp] at hstamp
    | endSignal => simp [List.foldlM_append, leaderNext, leaderCallback, LeaderLog.bytes] at hv
  · intro hall
    refine ⟨fun before log hpre => ?_, fun before behind hpre hne _ v v' hv hv' => ?_⟩
    · have hsub := hpre.subset
      obtain ⟨t, ts, rfl⟩ := hall log (hsub (by simp))
      have hbefore : ∃ v, before.foldlM leaderNext cg = some v :=
        exists_foldlM_leaderNext cg fun l hl => hall l (hsub (List.mem_append_left _ hl))
      exact ⟨_, foldlM_leaderNext_concat cg before t ts hbefore, by simp [latestStamp]⟩
    · obtain ⟨before, log, rfl⟩ := List.eq_nil_or_concat' before |>.resolve_left hne
      obtain rfl | ⟨behind, log', rfl⟩ := List.eq_nil_or_concat' behind
      · rw [List.append_nil, hv] at hv'
        exact (Option.some.inj hv').le
      · have hsub := hpre.subset
        obtain ⟨t, ts, rfl⟩ := hall log (hsub (by simp))
        obtain ⟨t', ts', rfl⟩ := hall log' (hsub (by simp))
        have hin : ∀ l ∈ before ++ [LeaderLog.batch t ts] ++ behind, ∃ t ts, l = .batch t ts :=
          fun l hl => hall l (hsub (by rw [← List.append_assoc]; exact List.mem_append_left _ hl))
        rw [foldlM_leaderNext_concat cg before t ts
          (exists_foldlM_leaderNext cg fun l hl => hin l (by simp [hl]))] at hv
        rw [← List.append_assoc, foldlM_leaderNext_concat cg _ t' ts'
          (exists_foldlM_leaderNext cg hin)] at hv'
        cases hv
        cases hv'
        -- the last id of one batch is below the last id of a later one
        have hlogs := (List.pairwise_flatMap.mp hinc).2.sublist hpre.sublist
        have hlt := (List.pairwise_append.mp hlogs).2.2 (.batch t ts) (by simp) (.batch t' ts')
          (by simp) _ (LeaderLog.latestCid_mem t ts) _ (LeaderLog.latestCid_mem t' ts')
        exact Nat.div_le_div_right hlt.le

/-- The put of one key in epoch `epoch`. -/
def onePut (tid epoch : ℕ) : Txn := { Worker.likeMarker with tid := tid, epoch := epoch }

theorem tracksLatest_iff_twoBatches :
    TracksLatest 0 [.batch (onePut 5 1) [onePut 6 1], .batch (onePut 7 1) []] :=
  (tracksLatest_iff 0 _ (by decide)).mpr (by
    rw [List.forall_mem_cons, List.forall_mem_cons]
    exact ⟨⟨_, _, rfl⟩, ⟨_, _, rfl⟩, List.forall_mem_nil _⟩)

/-- A batch with the time stamp 5, the marker of epoch 2, and a batch of the new epoch with the
time stamp 7: behind the marker the watermark is its text `no-ops:2` as a number, and the first
batch of the epoch takes it down again. The end signal fails the assertion. -/
theorem not_tracksLatest_marker :
    ([LeaderLog.batch (onePut 5 1) [], .noops 2, .batch (onePut 7 2) []].flatMap
        LeaderLog.cids).Pairwise (· < ·) ∧
      [LeaderLog.batch (onePut 5 1) [], .noops 2].foldlM leaderNext 0 = some 3619332177284394 ∧
      [LeaderLog.batch (onePut 5 1) [], .noops 2, .batch (onePut 7 2) []].foldlM leaderNext 0 =
        some 7 ∧
      leaderNext 7 .endSignal = none ∧
      ¬TracksLatest 0 [.batch (onePut 5 1) [], .noops 2, .batch (onePut 7 2) []] := by
  refine ⟨by decide, by decide +kernel, by decide +kernel, by decide, ?_⟩
  intro h
  obtain ⟨v, -, hstamp⟩ := h.latest [.batch (onePut 5 1) []] (.noops 2) ⟨_, rfl⟩
  cases hstamp

end Rolis.Replay
