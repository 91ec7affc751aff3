import Rolis.Sto.LastWriter
import Rolis.Sto.Leader

/-!
# A follower that has replayed everything

The tables of a leader after any history of transactions, and the tables of a follower that has
replayed the logs of all workers in any order of the batches. Both are described by the writes in
the log: the leader holds under each key what the last one left, the follower what the one with the
largest commit id left, which is a tombstone after a delete.

Where the commit ids of each key follow the history, no key was deleted last, and the latest write
of each key found room when it was replayed, the follower finds what the leader finds.
-/

namespace Rolis.Sto

open Bytes List Mem

/-! ## Reading -/

section Reading

variable {m : Mem} {table : ℕ} {key : Bytes}

/-- `transGet` and `transQuery` find on `fm` the keys they find on `lm`, each with a value that
begins with the value on `lm`; none of them aborts. -/
structure FindsSame (lm fm : Mem) : Prop where
  get : ∀ table key, ∃ l f, lm.transGet table key = some l ∧ fm.transGet table key = some f ∧
    Option.Rel (· <+: ·) l f
  scan : ∀ table lo hi, ∃ ls fs, lm.transQuery table lo hi = some ls ∧
    fm.transQuery table lo hi = some fs ∧
    List.Forall₂ (fun l f => l.1 = f.1 ∧ l.2 <+: f.2) ls fs

lemma transGet_eq (h : m.Quiet) : m.transGet table key = some (m.committed table key) := by
  unfold transGet
  split
  · next e hfind =>
    have hvalid := h.valid hfind
    rw [if_neg (by simp [hvalid]), committed_of_find hfind hvalid]
  · next hfind =>
    rw [committed, hfind]
    rfl

lemma transQuery_eq (h : m.Quiet) (lo hi : Bytes) :
    m.transQuery table lo hi = some (((m.tree table).filter fun e => inRange lo hi e.1).map
      fun e => (e.1, (m.heap e.2).value)) := by
  unfold transQuery
  refine if_neg ?_
  rw [any_eq_true]
  rintro ⟨⟨k, e⟩, hmem, hinv⟩
  have hfind : m.find table k = some e :=
    (h.sorted table).mem_iff.mp (mem_filter.mp hmem).1
  rw [h.valid hfind] at hinv
  cases hinv

/-- Between transactions every element in the tree is valid. -/
lemma committed_eq_map (h : m.Quiet) :
    m.committed table key = (m.find table key).map fun e => (m.heap e).value := by
  cases hfind : m.find table key with
  | none =>
    rw [committed, hfind]
    rfl
  | some e =>
    rw [committed_of_find hfind (h.valid hfind)]
    rfl

lemma stored_eq_committed (h : m.Quiet) : m.stored table key = m.committed table key := by
  rw [committed_eq_map h, stored, slot, Option.map_map]
  rfl

lemma rel_of_rel_map {α β γ δ : Type*} {R : γ → δ → Prop} {f : α → γ} {g : β → δ} :
    ∀ {o : Option α} {o' : Option β}, Option.Rel R (o.map f) (o'.map g) →
      Option.Rel (fun a b => R (f a) (g b)) o o'
  | none, none, _ => .none
  | some _, some _, .some h => .some h

/-- Reads depend on the values under the keys only. -/
lemma findsSame_of_committed {lm fm : Mem} (hl : lm.Quiet) (hf : fm.Quiet)
    (h : ∀ table key, Option.Rel (· <+: ·) (lm.committed table key) (fm.committed table key)) :
    FindsSame lm fm where
  get table key := ⟨_, _, transGet_eq hl, transGet_eq hf, h table key⟩
  scan table lo hi := by
    refine ⟨_, _, transQuery_eq hl lo hi, transQuery_eq hf lo hi, ?_⟩
    -- both trees have the same keys, in the same order
    have htree : List.Forall₂
        (fun e e' : Bytes × ℕ => e.1 = e'.1 ∧ (lm.heap e.2).value <+: (fm.heap e'.2).value)
        (lm.tree table) (fm.tree table) := by
      refine (hl.sorted table).forall₂ (R := fun e e' => (lm.heap e).value <+: (fm.heap e').value)
        (hf.sorted table) fun k => ?_
      have hk := h table k
      rw [committed_eq_map hl, committed_eq_map hf] at hk
      exact rel_of_rel_map hk
    rw [forall₂_map_left_iff, forall₂_map_right_iff]
    refine rel_filter (fun e e' he => ?_) htree
    have hkey : e.1 = e'.1 := he.1
    simp only [hkey]

end Reading

/-! ## The history of the leader -/

/-- The commit ids of the writes to each key increase along the history. -/
def IncreasingCids (us : List Update) : Prop := us.Pairwise fun u v => u.SameKey v → u.cid < v.cid

instance (us : List Update) : Decidable (IncreasingCids us) :=
  inferInstanceAs (Decidable (us.Pairwise _))

/-- Where the commit ids of each key increase, a key holds what its latest write left. -/
lemma valueAfter_cases {us : List Update} (hcid : IncreasingCids us) (table : ℕ) (key : Bytes) :
    (∀ u ∈ us, ¬ u.At table key) ∧ valueAfter us table key = none ∨
      ∃ u, IsLatest us u ∧ u.At table key ∧ valueAfter us table key = u.effect := by
  induction us using reverseRecOn with
  | nil => exact .inl ⟨nofun, rfl⟩
  | append_singleton us u ih =>
    obtain ⟨hus, -, hcross⟩ := pairwise_append.mp hcid
    have hsplit : valueAfter (us ++ [u]) table key =
        assign table key (valueAfter us table key) u := by
      rw [valueAfter, foldl_append]
      rfl
    -- the last write decides about its own key and leaves the others alone
    by_cases hat : u.At table key
    · refine .inr ⟨u, ⟨by simp, fun v hv hsame => ?_⟩, hat, by rw [hsplit, assign, if_pos hat]⟩
      rcases mem_append.mp hv with hv | hv
      · exact (hcross v hv u (mem_singleton_self u) hsame).le
      · rw [mem_singleton.mp hv]
    · have hval : valueAfter (us ++ [u]) table key = valueAfter us table key := by
        rw [hsplit, assign, if_neg hat]
      rcases ih hus with ⟨hnone, hv⟩ | ⟨u', hlatest, hat', hv⟩
      · refine .inl ⟨fun w hw => ?_, hval.trans hv⟩
        rcases mem_append.mp hw with hw | hw
        · exact hnone w hw
        · rw [mem_singleton.mp hw]
          exact hat
      · refine .inr ⟨u', ⟨mem_append_left _ hlatest.1, fun w hw hsame => ?_⟩, hat', hval.trans hv⟩
        rcases mem_append.mp hw with hw | hw
        · exact hlatest.2 w hw hsame
        · rw [mem_singleton.mp hw] at hsame
          exact absurd ⟨hsame.1.trans hat'.1, hsame.2.trans hat'.2⟩ hat

/-! ## The logs of the workers -/

/-- The commits of one worker. -/
def commitsOf (commits : List (ℕ × Commit)) (thread : ℕ) : List Commit :=
  (commits.filter fun c => c.1 = thread).map Prod.snd

/-- The batches that the workers have submitted when all of them have ended. -/
def logs (kSizeLimit : ℕ) (commits : List (ℕ × Commit)) (threads : List ℕ) :
    Option (List Bytes) :=
  (threads.mapM fun j => submitted kSizeLimit (commitsOf commits j)).map List.flatten

/-- A commit without writes leaves no trace in the log. -/
lemma run_filter (k : ℕ) (inst : StringAllocator) (cs : List Commit) :
    inst.run k (cs.filter fun c => c.items ≠ []) = inst.run k cs := by
  induction cs generalizing inst with
  | nil => rfl
  | cons c cs ih =>
    by_cases hc : c.items = []
    · rw [filter_cons_of_neg (by simpa using hc), ih, StringAllocator.run]
      simp [StringAllocator.serializeUtil, hc]
    · rw [filter_cons_of_pos (by simpa using hc), StringAllocator.run, StringAllocator.run]
      simp only [ih]

lemma flatMap_updates_filter (cs : List Commit) :
    (cs.filter fun c => c.items ≠ []).flatMap Commit.updates = cs.flatMap Commit.updates := by
  induction cs with
  | nil => rfl
  | cons c cs ih =>
    by_cases hc : c.items = []
    · rw [filter_cons_of_neg (by simpa using hc), ih, flatMap_cons, Commit.updates, hc]
      rfl
    · rw [filter_cons_of_pos (by simpa using hc), flatMap_cons, flatMap_cons, ih]

lemma exists_txns (cs : List Commit) (h : ∀ c ∈ cs, c.Good ∧ c.items ≠ []) :
    ∃ ts : List Txn, ts.map Txn.toCommit = cs := by
  induction cs with
  | nil => exact ⟨[], rfl⟩
  | cons c cs ih =>
    obtain ⟨ts, hts⟩ := ih fun c' hc' => h c' (mem_cons_of_mem c hc')
    obtain ⟨hgood, hne⟩ := h c mem_cons_self
    exact ⟨⟨c, hne, hgood.few, hgood.wellFormed⟩ :: ts, by rw [map_cons, hts]⟩

lemma readable_of_parsesTo {view : Txn → ℕ × List Entry} {chunks : List (List Txn)}
    {batches : List Bytes} (h : List.Forall₂ (ParsesTo view) chunks batches) :
    Readable batches := by
  induction h with
  | nil => exact nofun
  | @cons ts b chunks batches hb _ ih =>
    intro b' hb'
    rcases mem_cons.mp hb' with rfl | hb'
    · obtain ⟨-, txns, hparse, -⟩ := hb
      rw [hparse]
      rfl
    · exact ih b' hb'

/-- The writes that a reader finds, from the transactions it finds. -/
lemma updates_eq_decoded (batches : List Bytes) :
    updates batches = (decoded batches).flatMap fun c => c.2.map fun e => ⟨c.1, e⟩ := by
  unfold updates decoded
  rw [flatMap_assoc]
  refine congrArg (batches.flatMap ·) (funext fun b => ?_)
  rw [flatMap_map]
  refine congrArg ((txns b).flatMap ·) (funext fun txn => ?_)
  rw [contentOf, map_map]
  rfl

/-- The batches of a worker hold the writes of its commits. -/
lemma updates_submitted {k : ℕ} {cs : List Commit} (hgood : ∀ c ∈ cs, c.Good)
    {batches : List Bytes} (h : submitted k cs = some batches) :
    Readable batches ∧ updates batches = cs.flatMap Commit.updates := by
  obtain ⟨ts, hts⟩ := exists_txns (cs.filter fun c => c.items ≠ []) fun c hc => by
    obtain ⟨hmem, hne⟩ := mem_filter.mp hc
    exact ⟨hgood c hmem, by simpa using hne⟩
  have hsub : submitted k (ts.map Txn.toCommit) = some batches := by
    rw [hts, submitted, run_filter]
    exact h
  obtain ⟨chunks, -, hbs⟩ := parsesTo_logged hsub
  refine ⟨readable_of_parsesTo hbs, ?_⟩
  rw [updates_eq_decoded, decoded_submitted hsub, ← flatMap_updates_filter, ← hts,
    flatMap_map, flatMap_map]
  refine flatMap_congr fun t ht => ?_
  have hmem : t.toCommit ∈ cs.filter fun c => c.items ≠ [] := hts ▸ mem_map_of_mem ht
  have hlogged : t.items.map WriteItem.logged = t.items.map WriteItem.entry :=
    map_congr_left (hgood _ (mem_filter.mp hmem).1).logged_eq
  rw [Txn.logged, hlogged, map_map]
  rfl

/-- Elements sorted into classes, class by class. -/
lemma flatMap_filter_perm {α : Type*} (f : α → ℕ) {classes : List ℕ} (hnodup : classes.Nodup)
    {l : List α} (hcover : ∀ x ∈ l, f x ∈ classes) :
    (classes.flatMap fun j => l.filter fun x => f x = j).Perm l := by
  induction classes generalizing l with
  | nil =>
    have hnil : l = [] := eq_nil_iff_forall_not_mem.mpr fun x hx => nomatch hcover x hx
    rw [hnil]
    exact .refl _
  | cons j classes ih =>
    obtain ⟨hj, hrest⟩ := nodup_cons.mp hnodup
    -- the elements of the other classes are not of class `j`
    have hothers : (classes.flatMap fun i => l.filter fun x => f x = i) =
        classes.flatMap fun i => (l.filter fun x => ¬ f x = j).filter fun x => f x = i := by
      refine flatMap_congr fun i hi => ?_
      rw [filter_filter]
      refine filter_congr fun x _ => ?_
      have hij : f x = i → f x ≠ j := fun heq hfj => hj (hfj ▸ heq ▸ hi)
      simpa using fun heq => hij heq
    have hperm := ih hrest (l := l.filter fun x => ¬ f x = j) fun x hx => by
      obtain ⟨hmem, hne⟩ := mem_filter.mp hx
      exact (mem_cons.mp (hcover x hmem)).resolve_left (by simpa using hne)
    rw [flatMap_cons, hothers]
    exact (hperm.append_left _).trans (by simpa using filter_append_perm (fun x => f x = j) l)

/-- The batches of all workers hold the writes of the history, worker by worker. -/
lemma updates_logs {k : ℕ} {commits : List (ℕ × Commit)} (hgood : ∀ c ∈ commits, c.2.Good)
    {threads : List ℕ} {batches : List Bytes} (h : logs k commits threads = some batches) :
    Readable batches ∧ updates batches =
      threads.flatMap fun j => (commitsOf commits j).flatMap Commit.updates := by
  obtain ⟨bss, hmap, rfl⟩ := Option.map_eq_some_iff.mp h
  clear h
  induction threads generalizing bss with
  | nil =>
    cases hmap
    exact ⟨nofun, rfl⟩
  | cons j threads ih =>
    simp only [mapM_cons, Option.bind_eq_bind, Option.bind_eq_some_iff] at hmap
    obtain ⟨bs, hbs, bss', hbss', heq⟩ := hmap
    cases heq
    obtain ⟨hread, hupd⟩ := updates_submitted (fun c hc => by
      obtain ⟨p, hp, rfl⟩ := mem_map.mp hc
      exact hgood p (mem_filter.mp hp).1) hbs
    obtain ⟨hread', hupd'⟩ := ih bss' hbss'
    rw [flatten_cons]
    refine ⟨fun b hb => ?_, ?_⟩
    · exact (mem_append.mp hb).elim (hread b) (hread' b)
    · rw [flatMap_cons, ← hupd, ← hupd', updates, flatMap_append]
      rfl

/-- What a follower that got all batches finds in them, up to the order. -/
lemma updates_perm_history {k : ℕ} {commits : List (ℕ × Commit)}
    (hgood : ∀ c ∈ commits, c.2.Good) {threads : List ℕ} (hnodup : threads.Nodup)
    (hcover : ∀ c ∈ commits, c.1 ∈ threads) {bs batches : List Bytes}
    (hlogs : logs k commits threads = some bs) (hperm : batches.Perm bs) :
    Readable batches ∧ (updates batches).Perm (history commits) := by
  obtain ⟨hread, hupd⟩ := updates_logs hgood hlogs
  refine ⟨fun b hb => hread b (hperm.mem_iff.mp hb), ?_⟩
  have hclasses : (threads.flatMap fun j => (commitsOf commits j).flatMap Commit.updates) =
      (threads.flatMap fun j => commits.filter fun c => c.1 = j).flatMap fun c => c.2.updates := by
    rw [flatMap_assoc]
    refine flatMap_congr fun j _ => ?_
    rw [commitsOf, flatMap_map]
  have hall : (updates batches).Perm (updates bs) := hperm.flatMap_right _
  rw [hupd, hclasses] at hall
  exact hall.trans ((flatMap_filter_perm Prod.fst hnodup hcover).flatMap_right _)

/-! ## The follower -/

lemma isLatest_of_perm {us vs : List Update} (hperm : us.Perm vs) {u : Update}
    (h : IsLatest us u) : IsLatest vs u :=
  ⟨hperm.mem_iff.mp h.1, fun v hv => h.2 v (hperm.mem_iff.mpr hv)⟩

lemma distinctCids_of_increasing {us vs : List Update} (hperm : us.Perm vs)
    (h : IncreasingCids vs) : DistinctCids us := by
  have hvs : DistinctCids vs := h.imp fun hlt hsame => (hlt hsame).ne
  refine (hperm.pairwise_iff ?_).mpr hvs
  intro u v huv hsame
  exact (huv ⟨hsame.1.symm, hsame.2.symm⟩).symm

/-- A leader has run any history of plain attempts. The commit ids of each key increase along the
history, and no key was deleted last. A follower replays all batches of all workers, in any order,
and the latest write of each key finds room in its turn. Then the replay ends, and reads on the
follower find exactly the keys that reads on the leader find, each with the value of the leader at
its beginning. -/
theorem findsSame_of_replayed (kSizeLimit tries : ℕ) (l : Leader) (threads : List ℕ)
    (bs batches : List Bytes) (hrun : Lts.Run leader (fun l a => a.Plain l.mem) {} l)
    (hnodup : threads.Nodup) (hcover : ∀ c ∈ l.commits, c.1 ∈ threads)
    (hlogs : logs kSizeLimit l.commits threads = some bs) (hperm : batches.Perm bs)
    (hcid : IncreasingCids (history l.commits))
    (hkept : ∀ u, IsLatest (history l.commits) u → u.entry.deleteTrue = false)
    (hfits : FitsInTurn (tries + 1) (updates batches)) :
    ∃ fm, replayBatches (tries + 1) {} batches = some fm ∧ FindsSame l.mem fm := by
  have hok := leaderOk_of_run hrun
  -- the follower gets the writes of the history in another order
  obtain ⟨hread, hupd⟩ := updates_perm_history hok.good hnodup hcover hlogs hperm
  obtain ⟨fm, hfm, hquiet, -⟩ := exists_replayUpdates quiet_empty tries (updates batches)
  have hlatest : KeepsLatest (updates batches) fm :=
    (keepsLatest_iff (updates_cid_lt batches) (distinctCids_of_increasing hupd hcid) hfm).mpr hfits
  refine ⟨fm, by rw [replayBatches_eq _ _ hread]; exact hfm, ?_⟩
  refine findsSame_of_committed hok.quiet hquiet fun table key => ?_
  rw [hok.committed, ← stored_eq_committed hquiet]
  -- both sides hold what the write with the largest commit id left
  rcases valueAfter_cases hcid table key with ⟨hnone, hv⟩ | ⟨u, hu, hat, hv⟩
  · rw [hv, hlatest.absent table key fun u hu => hnone u (hupd.mem_iff.mp hu)]
    exact .none
  · obtain ⟨rfl, rfl⟩ := hat
    have hdel := hkept u hu
    rw [hv, hlatest.latest u (isLatest_of_perm hupd.symm hu), Update.effect, Update.data, hdel]
    exact .some (List.prefix_append _ _)

/-- Worker 0 inserts a key, and worker 1 puts two other values there, one after the other. -/
def insertThenUpdate : List Attempt :=
  [⟨0, 1, 1, [.insert 10001 [1] [7]], false⟩,
    ⟨1, 2, 1, [.put 10001 [1] [9], .put 10001 [1] [8]], false⟩]

/-- What the two workers commit. -/
def insertThenUpdateCommits : List (ℕ × Commit) :=
  [(0, ⟨1, 1, [⟨true, false, [1], [1], [7], 10001⟩]⟩),
    (1, ⟨2, 1, [⟨false, false, [8], [1], [8], 10001⟩]⟩)]

/-- The two batches, the later one first. -/
def lateFirst : List Bytes := ((logs 1 insertThenUpdateCommits [0, 1]).getD []).reverse

lemma fitsInTurn_lateFirst : FitsInTurn 1 (updates lateFirst) := by
  have hus : updates lateFirst = [⟨2001, [1], [8], 10001, false⟩, ⟨1001, [1], [7], 10001, false⟩] :=
    by decide +kernel
  rw [hus]
  intro pre u post hsplit hlatest m s hm hs
  match pre with
  | [] =>
    cases hm
    cases hs
  | [x] =>
    simp only [cons_append, nil_append, cons.injEq] at hsplit
    obtain ⟨-, rfl, -⟩ := hsplit
    exact absurd hlatest (by decide +kernel)
  | x :: y :: pre =>
    have hlen := congrArg length hsplit
    simp at hlen

/-- The follower keeps the later value, though it gets the batch of the earlier one last. -/
theorem findsSame_of_replayed_lateFirst :
    ∃ l fm, Lts.Run leader (fun l a => a.Plain l.mem) {} l ∧
      l.mem.committed 10001 [1] = some [8] ∧ replayBatches 1 {} lateFirst = some fm ∧
      FindsSame l.mem fm := by
  obtain ⟨l, hrun, hval, hcommits⟩ := Lts.exists_run_of_execGuarded leader
    (fun l a => a.Plain l.mem) {} insertThenUpdate
    (fun l => l.mem.committed 10001 [1] = some [8] ∧ l.commits = insertThenUpdateCommits)
    (by decide +kernel)
  obtain ⟨bs, hbs⟩ : ∃ bs, logs 1 insertThenUpdateCommits [0, 1] = some bs := ⟨_, rfl⟩
  have hperm : lateFirst.Perm bs := by
    rw [lateFirst, hbs]
    exact List.reverse_perm bs
  obtain ⟨fm, hfm, hsame⟩ := findsSame_of_replayed 1 0 l [0, 1] bs lateFirst hrun (by decide)
    (by rw [hcommits]; decide +kernel) (by rw [hcommits]; exact hbs) hperm
    (by rw [hcommits]; decide +kernel)
    (fun u hu => by
      rw [hcommits] at hu
      have hall : ∀ v ∈ history insertThenUpdateCommits, v.entry.deleteTrue = false := by
        decide +kernel
      exact hall u hu.1)
    fitsInTurn_lateFirst
  exact ⟨l, fm, hrun, hval, hfm, hsame⟩

/-- A worker inserts a key and then deletes it. -/
def insertThenRemove : List Attempt :=
  [⟨0, 1, 1, [.insert 10001 [1] [7]], false⟩, ⟨0, 2, 1, [.delete 10001 [1]], false⟩]

/-- The leader does not find the key any more; the follower finds the commit id of the delete as
its value. -/
theorem not_findsSame_removed :
    ∃ l bs fm, Lts.Reachable leader l ∧ logs 1 l.commits [0] = some bs ∧
      replayBatches 1 {} bs = some fm ∧ ¬ FindsSame l.mem fm := by
  obtain ⟨l, hrun, hleader, hfollower⟩ := Lts.exists_reachable_of_exec leader insertThenRemove
    (fun l => l.mem.transGet 10001 [1] = some none ∧
      ((logs 1 l.commits [0]).bind fun bs => (replayBatches 1 {} bs).bind fun fm =>
        fm.transGet 10001 [1]) = some (some (encode 8 2001)))
    (by decide +kernel)
  obtain ⟨bs, hbs, hreplay⟩ := Option.bind_eq_some_iff.mp hfollower
  obtain ⟨fm, hfm, hget⟩ := Option.bind_eq_some_iff.mp hreplay
  refine ⟨l, bs, fm, hrun, hbs, hfm, fun h => ?_⟩
  obtain ⟨v, w, hv, hw, hrel⟩ := h.get 10001 [1]
  cases hleader.symm.trans hv
  cases hget.symm.trans hw
  cases hrel

end Rolis.Sto
