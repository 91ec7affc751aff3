import Rolis.Sto.Calls

/-!
# Aborts

A transaction that aborts takes the keys it has inserted out of the tree again. The key to remove
is the write value of the item, which a later put of the same transaction to the key replaces:
`undoKey` is what the abort removes for an inserted key. The tables are as before the transaction if
and only if the removed keys are the inserted ones (`restored_iff_undoes`).

Locks are bits of the elements here. Nobody else is at work, so a lock never has to wait.
-/

namespace Rolis.Sto

open Function List Option Mem

/-! ## Reads -/

namespace Transaction

/-- `t_read_only_item(e)` with `observe`: always a new item. -/
def readItem (t : Transaction) (table e : ℕ) : TransItem :=
  TransItem.observe ⟨table, e, none, none, false, false, []⟩ (t.mem.heap e).version

/-- `transGet`. -/
def transGet (t : Transaction) (table : ℕ) (key : Bytes) :
    Except Transaction (Transaction × Option Bytes) :=
  match t.mem.find table key with
  | some e =>
    if (t.mem.heap e).version.invalid then
      .error { t with items := t.items ++ [⟨table, e, none, none, false, false, []⟩] }
    else .ok ({ t with items := t.items ++ [t.readItem table e] }, some (t.mem.heap e).value)
  -- only the version of the tree node is observed
  | none => .ok (t, none)

/-- The value callback of `transQuery` and `transRQuery` on some entries of a table, whether they
are valid or not. -/
def readRows (t : Transaction) (table : ℕ) (found : List (Bytes × ℕ)) :
    Transaction × List (Bytes × Bytes) :=
  ({ t with items := t.items ++ found.map fun e => t.readItem table e.2 },
    found.map fun e => (e.1, (t.mem.heap e.2).value))

/-- `transQuery`, whose callback stops the scan at its row number `rows`. -/
def transQuery (t : Transaction) (table : ℕ) (lo hi : Bytes) (rows : ℕ) :
    Transaction × List (Bytes × Bytes) :=
  t.readRows table (((t.mem.tree table).filter fun e => Mem.inRange lo hi e.1).take rows)

/-- The bounds of `transRQuery`; an empty lower bound is none. -/
def inReverseRange (hi lo key : Bytes) : Bool := key ≤ hi && (lo.isEmpty || lo < key)

/-- `transRQuery`. -/
def transRQuery (t : Transaction) (table : ℕ) (hi lo : Bytes) (rows : ℕ) :
    Transaction × List (Bytes × Bytes) :=
  t.readRows table
    ((((t.mem.tree table).filter fun e => inReverseRange hi lo e.1).reverse).take rows)

end Transaction

/-- A call of a transaction. -/
inductive Call
  | write (o : Op)
  | get (table : ℕ) (key : Bytes)
  | query (table : ℕ) (lo hi : Bytes) (rows : ℕ)
  | rquery (table : ℕ) (hi lo : Bytes) (rows : ℕ)
deriving DecidableEq, Repr

namespace Call

/-- The transaction after a call. -/
def run : Call → Transaction → Except Transaction Transaction
  | write o, t => o.run t
  | get table key, t => (t.transGet table key).map Prod.fst
  | query table lo hi rows, t => .ok (t.transQuery table lo hi rows).1
  | rquery table hi lo rows, t => .ok (t.transRQuery table hi lo rows).1

def op? : Call → Option Op
  | write o => some o
  | get _ _ | query _ _ _ _ | rquery _ _ _ _ => none

end Call

/-- Run the calls of a transaction. -/
def runCalls (calls : List Call) (t : Transaction) : Except Transaction Transaction :=
  calls.foldlM (fun t c => c.run t) t

/-! ## Locks, commit and abort -/

/-- What a transaction leaves behind: the memory, the lock bits, the log buffer of its thread and
the answer of `try_commit`. -/
structure Outcome where
  mem : Mem
  locked : ℕ → Bool
  log : StringAllocator
  committed : Bool

/-- `lock` of some items, which fails on an element that is locked. -/
def lockItems : List (TransItem × Bytes) → (ℕ → Bool) → Option (ℕ → Bool)
  | [], locked => some locked
  | (it, _) :: ws, locked =>
    if locked it.key then none else lockItems ws (update locked it.key true)

/-- `unlock` of some items, with the assertion that the thread holds the lock. -/
def unlockItems : List (TransItem × Bytes) → (ℕ → Bool) → Option (ℕ → Bool)
  | [], locked => some locked
  | (it, _) :: ws, locked =>
    if locked it.key then unlockItems ws (update locked it.key false) else none

namespace Transaction

/-- `stop(false, …)` when the first `n` items that have a write are locked: their unlocks and the
cleanups, the last item first. -/
def stop (t : Transaction) (n : ℕ) (locked : ℕ → Bool) (log : StringAllocator) : Option Outcome :=
  match unlockItems ((writes t.items).take n).reverse locked with
  | none => none
  | some locked => t.abort.map fun m => ⟨m, locked, log, false⟩

/-- `try_commit`. The lock of the item number `n` that has a write fails if `fails` is `some n`. -/
def tryCommitLocked (t : Transaction) (fails : Option ℕ) (kSizeLimit tid epoch : ℕ)
    (log : StringAllocator) : Option Outcome :=
  let n := fails.getD (writes t.items).length
  match lockItems ((writes t.items).take n) fun _ => false with
  | none => none
  | some locked =>
    if n < (writes t.items).length then t.stop n locked log
    else if t.validate then
      match t.installAll with
      | none => none
      | some m =>
        match log.serializeUtil kSizeLimit
          ⟨tid, epoch, (writes t.items).map fun (it, w) => it.writeItem w m⟩ with
        | none => none
        | some (log, _) =>
          (unlockItems (writes t.items).reverse locked).map fun locked => ⟨m, locked, log, true⟩
    else t.stop n locked log

end Transaction

/-- The ways in which a transaction aborts after calls that all returned: the next call throws, the
caller gives up, the lock of an item fails or the check of an item does. -/
inductive Aborts (t : Transaction) (log : StringAllocator) : Option Outcome → Prop
  | call (c : Call) (t' : Transaction) (hcall : c.run t = .error t') :
    Aborts t log (t'.stop 0 (fun _ => false) log)
  | giveUp : Aborts t log (t.stop 0 (fun _ => false) log)
  | lock (n kSizeLimit tid epoch : ℕ) (hn : n < (writes t.items).length) :
    Aborts t log (t.tryCommitLocked (some n) kSizeLimit tid epoch log)
  | check (kSizeLimit tid epoch : ℕ) (hcheck : t.validate = false) :
    Aborts t log (t.tryCommitLocked none kSizeLimit tid epoch log)

/-- Every key is there or not as it was in `m`, with the value it had, no element is locked and the
log is as it was. -/
structure Restored (m : Mem) (log : StringAllocator) (o : Outcome) : Prop where
  present : ∀ table key, (o.mem.find table key).isSome = (m.find table key).isSome
  value : ∀ table key, o.mem.committed table key = m.committed table key
  unlocked : ∀ e, o.locked e = false
  log : o.log = log

/-- What an abort removes from the table for a key that the calls have inserted: the value of the
last put behind the insert that fits into the element, or the key if there is none. -/
def undoKey (m : Mem) (ops : List Op) (table : ℕ) (key : Bytes) : Option Bytes :=
  if (m.find table key).isSome then none
  else
    match (callsOn ops table key).dropWhile Op.isDelete with
    | [] => none
    | o :: rest =>
      some ((lastPut (rest.filter fun p => p.value.length ≤ capacityFor o.value.length)).getD key)

/-- The keys that an abort removes are the inserted ones: each of them is inserted, and is removed
for one key only. -/
def Undoes (m : Mem) (ops : List Op) : Prop :=
  ∀ o ∈ ops, ∀ w ∈ undoKey m ops o.target.1 o.target.2,
    (undoKey m ops o.target.1 w).isSome ∧
      ∀ o' ∈ ops, o'.target.1 = o.target.1 → undoKey m ops o'.target.1 o'.target.2 = some w →
        o'.target = o.target

instance (m : Mem) (ops : List Op) : Decidable (Undoes m ops) := by
  delta Undoes; infer_instance

/-! ## Removing keys -/

section

variable {m m' : Mem} {ks : List (ℕ × Bytes)}

/-- Removing keys one after another succeeds if they are all there and none comes twice. -/
lemma removes_eq_some_iff : (∃ m', ks.foldlM (fun m k => remove m k.1 k.2) m = some m') ↔
      ks.Nodup ∧ ∀ k ∈ ks, (m.find k.1 k.2).isSome := by
  induction ks generalizing m with
  | nil => simp
  | cons k ks ih =>
    rw [foldlM_cons]
    cases hfind : m.find k.1 k.2 with
    | none => simp [remove, hfind]
    | some e =>
      obtain ⟨m₁, hrem⟩ := exists_remove hfind
      rw [hrem]
      simp only [bind_eq_bind, bind_some, ih, nodup_cons, mem_cons,
        forall_eq_or_imp, hfind, isSome_some, true_and, find_remove hrem]
      constructor
      · rintro ⟨hnodup, hall⟩
        refine ⟨⟨fun hk => ?_, hnodup⟩, fun k' hk' => ?_⟩
        · simpa using hall k hk
        · have hk := hall k' hk'
          split at hk
          · cases hk
          · exact hk
      · rintro ⟨⟨hk, hnodup⟩, hall⟩
        refine ⟨hnodup, fun k' hk' => ?_⟩
        have hne : ¬ (k'.1 = k.1 ∧ k'.2 = k.2) := fun heq => hk (Prod.ext heq.1 heq.2 ▸ hk')
        rw [if_neg hne]
        exact hall k' hk'

lemma heap_removes (h : ks.foldlM (fun m k => remove m k.1 k.2) m = some m') :
    m'.heap = m.heap := by
  induction ks generalizing m with
  | nil =>
    cases h
    rfl
  | cons k ks ih =>
    rw [foldlM_cons, bind_eq_bind, bind_eq_some_iff] at h
    obtain ⟨m₁, hrem, h⟩ := h
    rw [ih h, heap_remove hrem]

lemma wellFormed_removes (hwf : m.WellFormed)
    (h : ks.foldlM (fun m k => remove m k.1 k.2) m = some m') : m'.WellFormed := by
  induction ks generalizing m with
  | nil =>
    cases h
    exact hwf
  | cons k ks ih =>
    rw [foldlM_cons, bind_eq_bind, bind_eq_some_iff] at h
    obtain ⟨m₁, hrem, h⟩ := h
    exact ih (hwf.remove hrem) h

lemma find_removes (h : ks.foldlM (fun m k => remove m k.1 k.2) m = some m') (table : ℕ)
    (key : Bytes) :
    m'.find table key = if (table, key) ∈ ks then none else m.find table key := by
  induction ks generalizing m with
  | nil =>
    cases h
    simp
  | cons k ks ih =>
    rw [foldlM_cons, bind_eq_bind, bind_eq_some_iff] at h
    obtain ⟨m₁, hrem, h⟩ := h
    rw [ih h, find_remove hrem]
    by_cases hk : (table, key) = k
    · subst hk
      simp
    · have hne : ¬ (table = k.1 ∧ key = k.2) := fun heq => hk (Prod.ext heq.1 heq.2)
      simp [hk, hne]

end

/-- The keys that a transaction has inserted, in order of their items. -/
def insertedKeys (items : List TransItem) : List (ℕ × Bytes) :=
  (items.filter (·.hasInsert)).map fun it => (it.owner, it.extra)

/-- The keys that the abort of a transaction removes, in order of their items. -/
def undone (items : List TransItem) : List (ℕ × Bytes) :=
  (writes items).filterMap fun p => if p.1.hasInsert then some (p.1.owner, p.2) else none

lemma Transaction.abort_eq (t : Transaction) :
    t.abort = (undone t.items).reverse.foldlM (fun m k => m.remove k.1 k.2) t.mem := by
  rw [Transaction.abort, undone, ← filterMap_reverse]
  generalize (writes t.items).reverse = ws
  generalize t.mem = m
  induction ws generalizing m with
  | nil => rfl
  | cons p ws ih =>
    obtain ⟨it, w⟩ := p
    rw [foldlM_cons, filterMap_cons]
    dsimp only [TransItem.cleanup]
    cases hins : it.hasInsert with
    | true =>
      simp only [if_true, foldlM_cons]
      exact bind_congr ih
    | false =>
      simp only [Bool.false_eq_true, if_false]
      exact ih m

/-! ## Locks -/

section

variable {ws ws' : List (TransItem × Bytes)} {locked : ℕ → Bool}

lemma unlockItems_append :
    unlockItems (ws ++ ws') locked = (unlockItems ws locked).bind (unlockItems ws') := by
  induction ws generalizing locked with
  | nil => rfl
  | cons p ws ih =>
    simp only [cons_append, unlockItems]
    split
    · exact ih
    · rfl

/-- Items of different elements can be locked, and unlocked in the reverse order. -/
lemma exists_lockItems (hnodup : (ws.map fun p => p.1.key).Nodup)
    (hfree : ∀ p ∈ ws, locked p.1.key = false) :
    ∃ locked', lockItems ws locked = some locked' ∧
      unlockItems ws.reverse locked' = some locked := by
  induction ws generalizing locked with
  | nil => exact ⟨locked, rfl, rfl⟩
  | cons p ws ih =>
    obtain ⟨hp, hnodup⟩ := nodup_cons.mp hnodup
    have hself : locked p.1.key = false := hfree p mem_cons_self
    have hfree' : ∀ q ∈ ws, update locked p.1.key true q.1.key = false := by
      intro q hq
      have hne : q.1.key ≠ p.1.key := fun heq => hp (mem_map.mpr ⟨q, hq, heq⟩)
      rw [update_of_ne hne]
      exact hfree q (mem_cons_of_mem p hq)
    obtain ⟨locked', hlock, hunlock⟩ := ih hnodup hfree'
    refine ⟨locked', by simpa [lockItems, hself] using hlock, ?_⟩
    rw [reverse_cons, unlockItems_append, hunlock]
    have hback : update (update locked p.1.key true) p.1.key false = locked := by
      rw [update_idem, ← hself, update_eq_self]
    simp [unlockItems, hback]

end

namespace Transaction

variable {t : Transaction} {log : StringAllocator}

/-- An abort of the commit undoes its locks and calls nothing that writes to the log. -/
lemma tryCommitLocked_aborts (hnodup : ((writes t.items).map fun p => p.1.key).Nodup)
    {fails : Option ℕ} (kSizeLimit tid epoch : ℕ)
    (hfails : fails.getD (writes t.items).length < (writes t.items).length ∨ t.validate = false) :
    t.tryCommitLocked fails kSizeLimit tid epoch log =
      t.abort.map fun m => ⟨m, fun _ => false, log, false⟩ := by
  have htake := hnodup.sublist ((take_sublist (fails.getD (writes t.items).length) _).map _)
  obtain ⟨locked, hlock, hunlock⟩ : ∃ locked, lockItems _ (fun _ => false) = some locked ∧ _ :=
    exists_lockItems htake fun _ _ => rfl
  have hstop : t.stop (fails.getD (writes t.items).length) locked log =
      t.abort.map fun m => ⟨m, fun _ => false, log, false⟩ := by
    rw [stop, hunlock]
  simp only [tryCommitLocked, hlock]
  split
  · exact hstop
  · next hn =>
    rw [if_neg]
    · exact hstop
    · simpa [hn] using hfails

end Transaction

end Rolis.Sto
