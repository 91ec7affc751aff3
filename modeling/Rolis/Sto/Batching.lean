import Mathlib.Data.List.Forall2
import Rolis.Sto.CommitId

/-!
# Batching

A thread appends the transactions it commits to a buffer and submits the buffer when it holds
`kSizeLimit` of them, and what is left of it when it exits. So the batches are the groups
`groupsOf` of its transactions with a non-empty write set, each submitted as `submit` says. Nothing
is lost as long as every group fits the buffer, which no copy of `serialize_util` checks, and the
last group does not end with the commit id 0, which the destructor takes for an empty buffer. A
group ends with its largest id as long as the ids do not wrap around in it.
-/

namespace Rolis.Sto

open Bytes List Option

/-! ## Groups -/

/-- The bytes of a transaction in the log. -/
def Commit.encoding (c : Commit) : Option Bytes := serializeTxn c.cid c.items

/-- The bytes of transactions one after another. -/
def encodings : List Commit → Option Bytes
  | [] => some []
  | c :: cs => c.encoding.bind fun txn => (encodings cs).map (txn ++ ·)

/-- The transactions with a non-empty write set. -/
def written (cs : List Commit) : List Commit := cs.filter fun c => c.items ≠ []

/-- The commit id of the last transaction, 0 if there is none. -/
def lastCid (g : List Commit) : ℕ := (g.getLast?.map Commit.cid).getD 0

/-- The transactions of `cs` in groups of `kSizeLimit`; the first group goes on with `pending`. -/
def groupsOf (kSizeLimit : ℕ) : List Commit → List Commit → List (List Commit)
  | pending, [] => if pending = [] then [] else [pending]
  | pending, c :: cs =>
    if c.items = [] then groupsOf kSizeLimit pending cs
    else if kSizeLimit ≤ pending.length + 1 then
      (pending ++ [c]) :: groupsOf kSizeLimit [] cs
    else groupsOf kSizeLimit (pending ++ [c]) cs

/-- The batch of a group: it has to fit the buffer, and a group that is not full is submitted by
the destructor, which asserts that its last commit id is not 0. -/
def submit (kSizeLimit : ℕ) (g : List Commit) : Option Bytes :=
  (encodings g).bind fun body =>
    if body.length ≤ maxArraySizeInBytes ∧ (kSizeLimit ≤ g.length ∨ lastCid g ≠ 0) then
      some (body ++ encode 8 (lastCid g))
    else none

variable {k : ℕ} {pending cs g : List Commit} {c : Commit}

lemma encodings_append (g h : List Commit) :
    encodings (g ++ h) = (encodings g).bind fun a => (encodings h).map (a ++ ·) := by
  induction g with
  | nil => simp [encodings]
  | cons c g ih =>
    rw [cons_append, encodings, encodings, ih]
    cases c.encoding <;> cases encodings g <;> cases encodings h <;> simp

@[simp] lemma encodings_singleton (c : Commit) : encodings [c] = c.encoding := by
  cases h : c.encoding <;> simp [encodings, h]

@[simp] lemma lastCid_append_singleton (g : List Commit) (c : Commit) :
    lastCid (g ++ [c]) = c.cid := by
  simp [lastCid]

lemma lastCid_lt (g : List Commit) : lastCid g < 256 ^ 8 := by
  unfold lastCid
  cases g.getLast? with
  | none => simp
  | some c => exact c.cid_lt

/-- The encoding of a transaction holds at least its header. -/
lemma Commit.length_encoding {txn : Bytes} (h : c.encoding = some txn) : 14 ≤ txn.length := by
  obtain ⟨kvs, -, rfl⟩ := map_eq_some_iff.mp h
  simp only [length_append, length_encode]
  omega

lemma eq_nil_of_encodings (h : encodings g = some []) : g = [] := by
  cases g with
  | nil => rfl
  | cons c g =>
    obtain ⟨txn, htxn, hrest⟩ := bind_eq_some_iff.mp h
    obtain ⟨rest, -, hnil⟩ := map_eq_some_iff.mp hrest
    have hlen := Commit.length_encoding htxn
    rw [append_eq_nil_iff.mp hnil |>.1] at hlen
    exact absurd hlen (by simp)

lemma flatten_groupsOf (k : ℕ) (pending cs : List Commit) :
    (groupsOf k pending cs).flatten = pending ++ written cs := by
  fun_induction groupsOf k pending cs with
  | case1 | case2 pending hne => simp [written]
  | case3 pending c cs hnil ih => simpa [written, hnil] using ih
  | case4 pending c cs hne _ ih =>
    rw [flatten_cons, ih]
    simp [written, hne]
  | case5 pending c cs hne _ ih =>
    rw [ih]
    simp [written, hne]

lemma ne_nil_of_mem_groupsOf (h : g ∈ groupsOf k pending cs) : g ≠ [] := by
  fun_induction groupsOf k pending cs with
  | case1 => cases h
  | case2 pending hne =>
    rw [mem_singleton.mp h]
    exact hne
  | case3 pending c cs _ ih | case5 pending c cs _ _ ih => exact ih h
  | case4 pending c cs _ _ ih =>
    rcases mem_cons.mp h with rfl | h
    · simp
    · exact ih h

/-- A group with a transaction that cannot be written is never submitted. -/
lemma mapM_submit_of_encodings (h : encodings pending = none) (cs : List Commit) :
    (groupsOf k pending cs).mapM (submit k) = none := by
  have happend (c : Commit) : encodings (pending ++ [c]) = none := by
    rw [encodings_append, h, bind_none]
  fun_induction groupsOf k pending cs with
  | case1 => cases h
  | case2 pending hne => simp [submit, h]
  | case3 pending c cs _ ih => exact ih h happend
  | case4 pending c cs _ _ ih => simp [submit, happend]
  | case5 pending c cs _ _ ih =>
    refine ih (happend c) fun d => ?_
    rw [encodings_append, happend, bind_none]

/-! ## The allocator -/

namespace StringAllocator

variable {inst : StringAllocator}

/-- The allocator holds the transactions `pending`. -/
structure Has (inst : StringAllocator) (pending : List Commit) : Prop where
  log : encodings pending = some inst.log
  entries : inst.entries = pending.length
  latest : inst.latestCommitId = lastCid pending

lemma has_nil : Has {} [] := ⟨rfl, rfl, rfl⟩

/-- The commits of a thread and its exit: all batches it submits. -/
def finish (kSizeLimit : ℕ) (inst : StringAllocator) (cs : List Commit) : Option (List Bytes) :=
  match inst.run kSizeLimit cs with
  | none => none
  | some (inst, batches) => inst.destroy.map fun batch => batches ++ batch.toList

lemma finish_cons (k : ℕ) (inst : StringAllocator) (c : Commit) (cs : List Commit) :
    inst.finish k (c :: cs) = (inst.serializeUtil k c).bind fun r =>
      (r.1.finish k cs).map (r.2.toList ++ ·) := by
  rw [finish, run]
  cases inst.serializeUtil k c with
  | none => rfl
  | some r =>
    obtain ⟨inst', batch⟩ := r
    simp only [bind_some, finish]
    cases inst'.run k cs with
    | none => rfl
    | some r =>
      obtain ⟨inst'', batches⟩ := r
      cases h : inst''.destroy <;> simp [h]

/-- What a commit does to an allocator that holds `pending`. -/
lemma Has.serializeUtil (h : inst.Has pending) (hne : c.items ≠ []) :
    inst.serializeUtil k c = c.encoding.bind fun txn =>
      if k ≤ pending.length + 1 then
        if (inst.log ++ txn).length ≤ maxArraySizeInBytes then
          some ({}, some (inst.log ++ txn ++ encode 8 c.cid))
        else none
      else some (⟨inst.log ++ txn, pending.length + 1, c.cid⟩, none) := by
  rw [StringAllocator.serializeUtil, if_neg hne, Commit.encoding, h.entries]
  cases serializeTxn c.cid c.items <;> rfl

lemma Has.destroy (h : inst.Has pending) (hlen : pending.length < k) :
    inst.destroy.map toList = (groupsOf k pending []).mapM (submit k) := by
  rw [groupsOf, StringAllocator.destroy, h.latest]
  by_cases hnil : pending = []
  · subst hnil
    have hlog : inst.log = [] := (some.inj h.log).symm
    simp [hlog]
  · have hlog : inst.log ≠ [] := by
      intro hlog
      exact hnil (eq_nil_of_encodings (h.log.trans (congrArg some hlog)))
    have hfull : ¬k ≤ pending.length := Nat.not_le.mpr hlen
    rw [if_neg hlog, if_neg hnil]
    by_cases hfit : inst.log.length ≤ maxArraySizeInBytes
    · by_cases hcid : lastCid pending = 0
      · simp [submit, h.log, hcid, hfull]
      · simp [submit, h.log, hfit, hcid, hfull]
    · simp [submit, h.log, hfit]

/-- A thread submits its groups. -/
lemma Has.finish (h : inst.Has pending) (hlen : pending.length < k) (cs : List Commit) :
    inst.finish k cs = (groupsOf k pending cs).mapM (submit k) := by
  induction cs generalizing inst pending with
  | nil =>
    rw [← h.destroy hlen]
    cases hdes : inst.destroy <;> simp [StringAllocator.finish, StringAllocator.run, hdes]
  | cons c cs ih =>
    rw [finish_cons, groupsOf]
    by_cases hnil : c.items = []
    · simp [StringAllocator.serializeUtil, hnil, ih h hlen]
    · rw [h.serializeUtil hnil, if_neg hnil]
      cases henc : c.encoding with
      | none =>
        have hnone : encodings (pending ++ [c]) = none := by
          rw [encodings_append, h.log]
          simp [henc]
        split
        · simp [submit, hnone]
        · exact (mapM_submit_of_encodings hnone cs).symm
      | some txn =>
        have hsome : encodings (pending ++ [c]) = some (inst.log ++ txn) := by
          rw [encodings_append, h.log]
          simp [henc]
        have hk : 0 < k := Nat.zero_lt_of_lt hlen
        rw [bind_some]
        split
        · next hfull =>
          -- `c` ends a batch
          have hsub : submit k (pending ++ [c]) =
              if (inst.log ++ txn).length ≤ maxArraySizeInBytes then
                some (inst.log ++ txn ++ encode 8 c.cid)
              else none := by
            simp [submit, hsome, hfull]
          rw [mapM_cons, hsub]
          split
          · simp [ih has_nil hk, map_eq_bind]
          · rfl
        · next hfull =>
          have hnext : Has ⟨inst.log ++ txn, pending.length + 1, c.cid⟩ (pending ++ [c]) :=
            ⟨hsome, by simp, by simp⟩
          simp [ih hnext (by simpa using hfull)]

end StringAllocator

/-- A thread submits its transactions in groups. -/
lemma submitted_eq_mapM (hk : 1 ≤ k) (cs : List Commit) :
    submitted k cs = (groupsOf k [] cs).mapM (submit k) :=
  StringAllocator.has_nil.finish hk cs

/-! ## Nothing is lost -/

/-- A batch without its trailer. -/
def withoutTrailer (batch : Bytes) : Bytes := batch.take (batch.length - 8)

/-- `batch` holds the transactions of the group `g`, which is not empty, and its trailer is the
commit id of the last of them. -/
structure Batched (g : List Commit) (batch : Bytes) : Prop where
  ne_nil : g ≠ []
  body : encodings g = some (withoutTrailer batch)
  trailer : latestCommitId batch = lastCid g

/-- The transactions `cs` of a thread that exits afterwards go into batches, each exactly once and
in order, and if the readings of the time stamp counter increase then each trailer is the largest
commit id of its batch. -/
def Lossless (kSizeLimit : ℕ) (cs : List Commit) : Prop :=
  ∃ batches groups, submitted kSizeLimit cs = some batches ∧
    encodings (written cs) = some (batches.map withoutTrailer).flatten ∧
    groups.flatten = written cs ∧ List.Forall₂ Batched groups batches ∧
    (cs.Pairwise (fun c d => c.tid < d.tid) → ∀ g ∈ groups, ∀ c ∈ g, c.cid ≤ lastCid g)

/-- Every group can be written, fits the buffer, and does not end with the commit id 0 if the
destructor submits it. -/
def Fits (kSizeLimit : ℕ) (cs : List Commit) : Prop :=
  ∀ g ∈ groupsOf kSizeLimit [] cs, (∃ body ∈ encodings g, body.length ≤ maxArraySizeInBytes) ∧
    (kSizeLimit ≤ g.length ∨ lastCid g ≠ 0)

instance (kSizeLimit : ℕ) (cs : List Commit) : Decidable (Fits kSizeLimit cs) :=
  inferInstanceAs (Decidable (∀ g ∈ groupsOf kSizeLimit [] cs, _ ∧ _))

/-- Every group ends with its largest commit id if the readings increase. -/
def LastLargest (kSizeLimit : ℕ) (cs : List Commit) : Prop :=
  cs.Pairwise (fun c d => c.tid < d.tid) →
    ∀ g ∈ groupsOf kSizeLimit [] cs, ∀ c ∈ g, c.cid ≤ lastCid g

lemma forall₂_of_mapM {α β : Type*} {f : α → Option β} {R : α → β → Prop} {as : List α}
    {bs : List β} (h : as.mapM f = some bs) (hR : ∀ a ∈ as, ∀ b, f a = some b → R a b) :
    List.Forall₂ R as bs := by
  induction as generalizing bs with
  | nil =>
    cases h
    exact .nil
  | cons a as ih =>
    simp only [mapM_cons, bind_eq_bind, bind_eq_some_iff] at h
    obtain ⟨b, hb, bs, hbs, heq⟩ := h
    cases heq
    exact .cons (hR a mem_cons_self b hb) (ih hbs fun a' ha' => hR a' (mem_cons_of_mem a ha'))

lemma exists_mapM_iff {α β : Type*} {f : α → Option β} {as : List α} :
    (∃ bs, as.mapM f = some bs) ↔ ∀ a ∈ as, ∃ b, f a = some b := by
  induction as with
  | nil => simp
  | cons a as ih =>
    rw [forall_mem_cons, ← ih]
    cases ha : f a with
    | none => simp [ha]
    | some b => cases h : as.mapM f <;> simp [ha, h]

lemma exists_submit_iff : (∃ batch, submit k g = some batch) ↔
    (∃ body ∈ encodings g, body.length ≤ maxArraySizeInBytes) ∧ (k ≤ g.length ∨ lastCid g ≠ 0) := by
  rw [submit]
  cases encodings g with
  | none => simp
  | some body => simp

lemma batched_of_submit {batch : Bytes} (hne : g ≠ []) (h : submit k g = some batch) :
    Batched g batch := by
  obtain ⟨body, hbody, hif⟩ := bind_eq_some_iff.mp h
  split at hif
  · cases hif
    have hlen : (body ++ encode 8 (lastCid g)).length - 8 = body.length := by simp
    refine ⟨hne, ?_, ?_⟩
    · rw [withoutTrailer, hlen, take_left, hbody]
    · rw [latestCommitId, hlen, drop_left, decode_encode_of_lt (lastCid_lt g)]
  · cases hif

/-- The bodies of the batches are the encodings of all transactions. -/
lemma encodings_flatten {groups : List (List Commit)} {batches : List Bytes}
    (h : List.Forall₂ Batched groups batches) :
    encodings groups.flatten = some (batches.map withoutTrailer).flatten := by
  induction h with
  | nil => rfl
  | cons hb _ ih => simp [encodings_append, hb.body, ih]

lemma eq_of_encodings {g' l l' : List Commit} {body : Bytes} (h : g ++ l = g' ++ l')
    (hg : encodings g = some body) (hg' : encodings g' = some body) : g = g' := by
  have hnil : ∀ {g x : List Commit}, encodings g = some body →
      encodings (g ++ x) = some body → x = [] := by
    intro g x hg hx
    rw [encodings_append, hg, bind_some] at hx
    obtain ⟨bytes, hbytes, heq⟩ := map_eq_some_iff.mp hx
    rw [append_right_eq_self.mp heq] at hbytes
    exact eq_nil_of_encodings hbytes
  rcases append_eq_append_iff.mp h with ⟨x, rfl, -⟩ | ⟨x, rfl, -⟩
  · rw [hnil hg hg', append_nil]
  · rw [hnil hg' hg, append_nil]

/-- The batches show where one group ends and the next begins. -/
lemma eq_of_batched {groups groups' : List (List Commit)} {batches : List Bytes}
    (h : List.Forall₂ Batched groups batches) (h' : List.Forall₂ Batched groups' batches)
    (hflat : groups.flatten = groups'.flatten) : groups = groups' := by
  induction h generalizing groups' with
  | nil => cases h' with | nil => rfl
  | cons hb _ ih =>
    cases h' with
    | cons hb' h' =>
      rw [flatten_cons, flatten_cons] at hflat
      obtain rfl := eq_of_encodings hflat hb.body hb'.body
      rw [ih h' (append_cancel_left hflat)]

/-- Increasing readings give increasing ids, as long as they fit into them. -/
lemma cid_le_lastCid (hpacks : ∀ c ∈ g, Packs c.tid c.epoch)
    (hinc : g.Pairwise fun c d => c.tid < d.tid) (hc : c ∈ g) : c.cid ≤ lastCid g := by
  obtain ⟨front, last, rfl⟩ : ∃ front last, g = front ++ [last] :=
    ⟨_, _, (dropLast_append_getLast (ne_nil_of_mem hc)).symm⟩
  rw [lastCid_append_singleton]
  rcases mem_append.mp hc with hfront | hlast
  · have htid : c.tid < last.tid :=
      (pairwise_append.mp hinc).2.2 c hfront last (mem_singleton_self last)
    refine le_of_lt (((hpacks c hc).commitId_lt_iff (hpacks last (by simp))).mpr ?_)
    rw [Prod.Lex.toLex_lt_toLex]
    exact .inl htid
  · rw [mem_singleton.mp hlast]

lemma sublist_of_mem_groupsOf (hg : g ∈ groupsOf k [] cs) : g.Sublist cs := by
  refine (sublist_flatten_of_mem hg).trans ?_
  rw [flatten_groupsOf, nil_append]
  exact filter_sublist

lemma lastLargest_of_packs (k : ℕ) (hpacks : ∀ c ∈ cs, Packs c.tid c.epoch) : LastLargest k cs := by
  intro hinc g hg c hc
  have hsub := sublist_of_mem_groupsOf hg
  exact cid_le_lastCid (fun d hd => hpacks d (hsub.subset hd)) (hinc.sublist hsub) hc

/-- Batching loses and duplicates nothing if and only if every group of transactions can be written
and submitted and, where the readings increase, ends with its largest id. -/
theorem lossless_iff_fits (kSizeLimit : ℕ) (hk : 1 ≤ kSizeLimit) (cs : List Commit) :
    Lossless kSizeLimit cs ↔ Fits kSizeLimit cs ∧ LastLargest kSizeLimit cs := by
  have hsub := submitted_eq_mapM hk cs
  have hflat := flatten_groupsOf kSizeLimit [] cs
  rw [List.nil_append] at hflat
  have hall : ∀ {batches}, (groupsOf kSizeLimit [] cs).mapM (submit kSizeLimit) = some batches →
      List.Forall₂ Batched (groupsOf kSizeLimit [] cs) batches := fun h =>
    forall₂_of_mapM h fun g hg _ hb => batched_of_submit (ne_nil_of_mem_groupsOf hg) hb
  constructor
  · rintro ⟨batches, groups, hbatches, -, hgroups, hbatched, hlargest⟩
    have hmapM := hsub.symm.trans hbatches
    refine ⟨fun g hg => exists_submit_iff.mp (exists_mapM_iff.mp ⟨batches, hmapM⟩ g hg), ?_⟩
    rwa [eq_of_batched hbatched (hall hmapM) (hgroups.trans hflat.symm)] at hlargest
  · rintro ⟨hfits, hlargest⟩
    obtain ⟨batches, hbatches⟩ :=
      exists_mapM_iff.mpr fun g hg => exists_submit_iff.mpr (hfits g hg)
    refine ⟨batches, _, hsub.trans hbatches, ?_, hflat, hall hbatches, hlargest⟩
    rw [← hflat]
    exact encodings_flatten (hall hbatches)

/-- A thread with batches of two transactions that makes three writes and, between them, a
transaction that writes nothing. -/
def threeWrites : List Commit :=
  [⟨5, 1, [⟨true, false, [1], [1], [7], 10001⟩]⟩, ⟨6, 1, []⟩,
   ⟨7, 1, [⟨false, false, [8], [1], [8], 10001⟩]⟩, ⟨9, 1, [⟨false, true, [1], [1], [8], 10001⟩]⟩]

theorem lossless_iff_fits_threeWrites :
    Lossless 2 threeWrites ∧ (groupsOf 2 [] threeWrites).length = 2 := by
  have hlargest : LastLargest 2 threeWrites := lastLargest_of_packs 2 (by decide)
  have hfits : Fits 2 threeWrites := by decide +kernel
  exact ⟨(lossless_iff_fits 2 (by decide) threeWrites).mpr ⟨hfits, hlargest⟩, by decide⟩

/-- Two puts of a thread; the id of the second wraps around. -/
def wrappedWrites : List Commit :=
  [⟨18446744073709551, 1, [⟨false, false, [7], [1], [7], 10001⟩]⟩,
   ⟨18446744073709552, 1, [⟨false, false, [8], [1], [8], 10001⟩]⟩]

/-- Both are submitted in one batch, and the readings increase, but the trailer is 385 and the id
of the first transaction is 18446744073709551001. -/
theorem not_lossless_wrappedWrites :
    (wrappedWrites.Pairwise fun c d => c.tid < d.tid) ∧
      (submitted 2 wrappedWrites).map (fun bs => bs.map latestCommitId) = some [385] ∧
      ¬Lossless 2 wrappedWrites := by
  have hinc : wrappedWrites.Pairwise fun c d => c.tid < d.tid := by decide
  have hone : (submitted 2 wrappedWrites).map List.length = some 1 := by decide +kernel
  refine ⟨hinc, by decide +kernel, ?_⟩
  rintro ⟨batches, groups, hsub, -, hflat, hall, hmax⟩
  rw [hsub] at hone
  -- there is one batch, so its group are the two transactions
  obtain ⟨g, rfl⟩ := List.length_eq_one_iff.mp (hall.length_eq.trans (Option.some.inj hone))
  have hg : g = wrappedWrites := (List.flatten_singleton.symm.trans hflat).trans (by decide)
  subst hg
  exact absurd (hmax hinc _ List.mem_cons_self _ List.mem_cons_self) (by decide)

end Rolis.Sto
