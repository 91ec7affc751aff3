import Mathlib.Data.List.Infix
import Rolis.Lib.Lts
import Rolis.Sto.CommitLog
import Rolis.Sto.Undo

/-!
# Transactions on the leader

A worker of the leader runs the body of a transaction, which puts, inserts and deletes, and tries
to commit. An attempt that aborts leaves no value behind, though it may leave a larger element: a
put that has to grow an element fails the first time and succeeds when it is tried again.

`Attempt.Plain` puts together what `Clear` says of a commit and `Undoes` of an abort. After plain
attempts, one after another, each key holds what the last write in the logs left.
-/

namespace Rolis.Sto

open List Mem

/-- One attempt of a worker to run a transaction: the worker's number, the readings of the time
stamp counter and of the epoch at the commit, the operations, and whether the worker gives the
transaction up instead of committing it. -/
structure Attempt where
  thread : ℕ
  tid : ℕ
  epoch : ℕ
  ops : List Op
  gaveUp : Bool := false
deriving DecidableEq, Repr

/-- The memory after the attempt and, if it committed, what `serialize_util` reads. -/
def Attempt.run (a : Attempt) (m : Mem) : Option (Mem × Option (List WriteItem)) :=
  match runOps a.ops ⟨m, []⟩ with
  | .error t => t.abort.map (·, none)
  | .ok t => if a.gaveUp then t.abort.map (·, none) else t.tryCommit

/-- The leader: its memory, and the commits so far, each with the worker that made it. -/
structure Leader where
  mem : Mem := {}
  commits : List (ℕ × Commit) := []

/-- A leader on which one attempt is made after another, on tables that are empty at first. -/
def leader : Lts.System Leader Attempt where
  init := {}
  step l a := (a.run l.mem).map fun (m, log) =>
    ⟨m, l.commits ++ log.toList.map fun items => (a.thread, ⟨a.tid, a.epoch, items⟩)⟩

/-! ## One attempt -/

/-- An attempt on `m` within the bounds of the log format and of the transaction set. If it commits,
the log lists what the calls do, and if it aborts, after whichever of its calls, it removes what it
has inserted. -/
@[mk_iff]
structure Attempt.Plain (a : Attempt) (m : Mem) : Prop where
  clear : ∀ o ∈ a.ops, Clear m a.ops o.target.1 o.target.2
  undoes : ∀ ops ∈ a.ops.inits, Undoes m ops
  loggable : ∀ o ∈ a.ops, o.Loggable
  few : a.ops.length ≤ 32768

instance (a : Attempt) (m : Mem) : Decidable (a.Plain m) :=
  decidable_of_iff' _ (Attempt.plain_iff a m)

section

variable {m : Mem} {ops : List Op} {o : Op} (h : (ops.map Op.target).Nodup) (ho : o ∈ ops)

include h ho

/-- Of calls to different keys each is the only one on its key. -/
lemma callsOn_of_nodup : callsOn ops o.target.1 o.target.2 = [o] := by
  obtain ⟨pre, post, rfl⟩ := append_of_mem ho
  rw [map_append, map_cons, nodup_middle, nodup_cons, ← map_append] at h
  have hnone : callsOn (pre ++ post) o.target.1 o.target.2 = [] :=
    callsOn_eq_nil fun o' ho' htarget => h.1 (mem_map.mpr ⟨o', ho', htarget⟩)
  rw [callsOn, filter_append, append_eq_nil_iff] at hnone
  rw [callsOn, filter_append, filter_cons_of_pos (by simp), hnone.1, hnone.2]
  rfl

lemma clear_of_nodup : Clear m ops o.target.1 o.target.2 := by
  rw [Clear, callsOn_of_nodup h ho]
  cases hdel : o.isDelete <;> simp [hdel, lastPut]

lemma undoKey_of_nodup {w : Bytes} (hw : undoKey m ops o.target.1 o.target.2 = some w) :
    w = o.target.2 := by
  rw [undoKey, callsOn_of_nodup h ho] at hw
  cases hdel : o.isDelete <;> simp [hdel, lastPut] at hw
  exact hw.2.symm

end

/-- Attempts that touch each key at most once are plain. -/
lemma Attempt.plain_of_nodup {a : Attempt} (h : (a.ops.map Op.target).Nodup)
    (hlog : ∀ o ∈ a.ops, o.Loggable) (hfew : a.ops.length ≤ 32768) (m : Mem) : a.Plain m where
  clear o ho := clear_of_nodup h ho
  undoes ops hops o ho w hw := by
    have hpre := h.sublist (((mem_inits _ _).mp hops).sublist.map Op.target)
    obtain rfl := undoKey_of_nodup hpre ho hw
    refine ⟨by rw [hw]; rfl, fun o' ho' htable hw' => ?_⟩
    exact Prod.ext htable (undoKey_of_nodup hpre ho' hw').symm
  loggable := hlog
  few := hfew

/-- The writes of a commit. -/
def Commit.updates (c : Commit) : List Update := c.items.map fun it => ⟨c.cid, it.entry⟩

/-- A commit whose log the reader gets back as it is. -/
structure Commit.Good (c : Commit) : Prop where
  wellFormed : ∀ it ∈ c.items, it.WellFormed
  logged_eq : ∀ it ∈ c.items, it.logged = it.entry
  few : c.items.length ≤ 32768

/-- The commit `c` led from `m` to `m'`: its writes do to each key what it did. -/
structure Logged (m m' : Mem) (c : Commit) : Prop extends c.Good where
  quiet : m'.Quiet
  committed : ∀ table key,
    m'.committed table key = c.updates.foldl (assign table key) (m.committed table key)

section

variable {m m' : Mem} {ops : List Op} {t : Transaction} {a : Attempt}

/-- An abort that removes what was inserted is like a commit without writes. -/
lemma Undo.logged (h : Undo m ops t) (hundoes : Undoes m ops) (habort : t.abort = some m')
    (tid epoch : ℕ) : Logged m m' ⟨tid, epoch, []⟩ := by
  obtain ⟨m₁, habort', hquiet, -, hvalue⟩ := h.abort_of_undoes hundoes
  cases habort.symm.trans habort'
  exact ⟨⟨nofun, nofun, Nat.zero_le _⟩, hquiet, hvalue⟩

namespace Tracked

variable (h : Tracked m ops t)

include h

/-- There are not more writes than calls. -/
lemma length_writes_le : (writes t.items).length ≤ ops.length := by
  have hsub : ((writes t.items).map fun p => (p.1.owner, p.1.extra)) ⊆ ops.map Op.target := by
    intro target hmem
    obtain ⟨p, hp, rfl⟩ := mem_map.mp hmem
    obtain ⟨o, ho, heq⟩ := h.exists_call hp
    exact mem_map.mpr ⟨o, ho, heq⟩
  have hle := (h.targets_nodup.subperm hsub).length_le
  rwa [length_map, length_map] at hle

variable (hm : m.Quiet) (hshort : ∀ table key, ∀ v ∈ m.committed table key, v.length < 2 ^ 16)
  (hlog : ∀ o ∈ ops, o.Loggable) (hinstall : t.installAll = some m')

include hm hshort hlog hinstall

/-- The log holds the value under the key of a write, which a delete leaves as it was. -/
lemma value_lt {p : TransItem × Bytes} (hp : p ∈ writes t.items) :
    (m'.heap p.1.key).value.length < 2 ^ 16 := by
  cases hdel : p.1.hasDelete with
  | false =>
    obtain ⟨-, o, ho, hvalue⟩ := h.value_write hm hinstall hp hdel
    rw [← hvalue]
    exact (hlog o ho).2.2.1
  | true =>
    obtain ⟨hit, hw⟩ := mem_writes_iff.mp hp
    have hfind := h.find_write hp
    rw [h.heap_write hinstall hit hw, TransItem.installed, hdel]
    cases h.key p.1.owner p.1.extra with
    | absent _ hfind' =>
      rw [hfind] at hfind'
      cases hfind'
    | @present e hstart hfind' hheap hitem =>
      cases hfind.symm.trans hfind'
      rw [(hitem p.1 hit rfl).2.1, hheap]
      exact hshort _ _ _ (committed_of_find hstart (hm.valid hstart))
    | @inserted e _ _ _ hfind' _ _ _ hitem =>
      cases hfind.symm.trans hfind'
      rw [(hitem p.1 hit rfl).2.2] at hdel
      cases hdel

/-- A commit whose keys are clear. -/
lemma logged (hclear : ∀ table key, Clear m ops table key) (hfew : ops.length ≤ 32768)
    (tid epoch : ℕ) :
    Logged m m' ⟨tid, epoch, (writes t.items).map fun p => p.1.writeItem p.2 m'⟩ := by
  have hentry : ∀ p ∈ writes t.items,
      (p.1.writeItem p.2 m').logged = (p.1.writeItem p.2 m').entry := by
    intro p hp
    rw [WriteItem.logged, (h.loggedKey_of_clear hclear hp m').2]
    rfl
  have hvalue := fun p hp => h.value_lt hm hshort hlog hinstall (p := p) hp
  refine ⟨⟨?_, ?_, ?_⟩, h.quiet_of_clear hm hinstall hclear, fun table key => ?_⟩
  · intro it hit
    obtain ⟨p, hp, rfl⟩ := mem_map.mp hit
    have hkeyed : (p.1.writeItem p.2 m').Keyed := h.keyed hlog hp
    obtain ⟨hne, hkey, hge, hle⟩ := hkeyed
    exact ⟨hne, hkey, hvalue p hp, hge, hle⟩
  · intro it hit
    obtain ⟨p, hp, rfl⟩ := mem_map.mp hit
    exact hentry p hp
  · rw [length_map]
    exact h.length_writes_le.trans hfew
  · rw [← h.log_of_clear hm hinstall hlog hclear (commitId tid epoch), Commit.updates, map_map]
    refine congrArg (foldl (assign table key) (m.committed table key)) (map_congr_left ?_)
    intro p hp
    rw [loggedUpdate, WriteItem.clip_eq_self (hvalue p hp), hentry p hp]
    rfl

end Tracked

/-- What a plain attempt leaves: a commit that its log describes, or nothing new. -/
lemma Attempt.Plain.logged (ha : a.Plain m) (hm : m.Quiet)
    (hshort : ∀ table key, ∀ v ∈ m.committed table key, v.length < 2 ^ 16)
    {log : Option (List WriteItem)} (hrun : a.run m = some (m', log)) :
    Logged m m' ⟨a.tid, a.epoch, log.getD []⟩ := by
  -- whatever ends the attempt, what it inserted so far is removed
  have habort : ∀ {t : Transaction} {pre : List Op}, pre <+: a.ops → Undo m pre t →
      t.abort.map (·, none) = some (m', log) → Logged m m' ⟨a.tid, a.epoch, log.getD []⟩ := by
    intro t pre hpre hundo hend
    obtain ⟨m₁, habort, heq⟩ := Option.map_eq_some_iff.mp hend
    cases heq
    exact hundo.logged (ha.undoes pre ((mem_inits _ _).mpr hpre)) habort _ _
  unfold Attempt.run at hrun
  split at hrun
  · next t hops =>
    obtain ⟨pre, hpre, hundo⟩ := (Undo.start hm).runOps_error hops
    exact habort hpre hundo hrun
  · next t hops =>
    have hundo : Undo m a.ops t := (Undo.start hm).runOps hops
    split at hrun
    · exact habort (prefix_refl _) hundo hrun
    · unfold Transaction.tryCommit at hrun
      split at hrun
      · next hvalidate =>
        obtain ⟨m₁, hinstall, heq⟩ := Option.map_eq_some_iff.mp hrun
        cases heq
        have hclear := clear_of_targets ha.clear
        rcases runOps_cases hm hops with h | ⟨table, key, e, hdead⟩ | hdoomed
        · exact h.logged hm hshort ha.loggable hinstall hclear ha.few _ _
        · exact absurd (hclear table key) hdead.not_clear
        · exact absurd hvalidate hdoomed.not_validate
      · exact habort (prefix_refl _) hundo hrun

end

/-! ## The history of the leader -/

/-- The writes of all commits, in their order. -/
def history (commits : List (ℕ × Commit)) : List Update := commits.flatMap fun c => c.2.updates

/-- What a key holds after writes one after another. -/
def valueAfter (us : List Update) (table : ℕ) (key : Bytes) : Option Bytes :=
  us.foldl (assign table key) none

/-- What holds on the leader between attempts: each key holds what the last write left. -/
structure LeaderOk (l : Leader) : Prop where
  quiet : l.mem.Quiet
  good : ∀ c ∈ l.commits, c.2.Good
  committed : ∀ table key, l.mem.committed table key = valueAfter (history l.commits) table key

/-- Each value comes from a log, whose values are short. -/
lemma LeaderOk.value_lt {l : Leader} (h : LeaderOk l) (table : ℕ) (key : Bytes) :
    ∀ v ∈ l.mem.committed table key, v.length < 2 ^ 16 := by
  intro v hv
  have hvalue := h.committed table key
  rw [hv] at hvalue
  obtain ⟨u, hu, -, heffect⟩ := exists_of_foldl_assign hvalue.symm
  obtain ⟨c, hc, hu⟩ := mem_flatMap.mp hu
  obtain ⟨it, hit, rfl⟩ := mem_map.mp hu
  have hlt := ((h.good c hc).wellFormed it hit).value_lt
  rw [Update.effect] at heffect
  split at heffect
  · cases heffect
  · cases heffect
    exact hlt

lemma LeaderOk.step {l l' : Leader} (h : LeaderOk l) {a : Attempt} (ha : a.Plain l.mem)
    (hstep : leader.step l a = some l') : LeaderOk l' := by
  obtain ⟨⟨m', log⟩, hrun, rfl⟩ := Option.map_eq_some_iff.mp hstep
  have hl := ha.logged h.quiet h.value_lt hrun
  refine ⟨hl.quiet, fun c hc => ?_, fun table key => ?_⟩
  · rcases mem_append.mp hc with hc | hc
    · exact h.good c hc
    · cases log with
      | none => cases hc
      | some items =>
        rw [mem_singleton.mp hc]
        exact hl.toGood
  · rw [hl.committed, h.committed]
    cases log <;> simp [history, valueAfter, Commit.updates]

lemma leaderOk_of_run {l : Leader} (h : Lts.Run leader (fun l a => a.Plain l.mem) {} l) :
    LeaderOk l := by
  refine h.invariant LeaderOk (fun _ _ _ hok ha hstep => hok.step ha hstep) ?_
  exact ⟨quiet_empty, nofun, fun _ _ => rfl⟩

end Rolis.Sto
