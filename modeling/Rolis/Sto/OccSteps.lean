import Rolis.Sto.Occ

/-!
# What one step can do

`Disciplined` is what a transaction has to keep to: it reads a key only before it writes it, and
writes it at most once. The steps of a disciplined run come in three kinds: steps that change one
transaction and nothing else (`Local`), steps that change memory too (`Effect`), and the three steps
that are events: the last lock of a transaction, an install and the commit id (`Moves`).
-/

namespace Rolis.Sto.Occ

open State Option

variable {M : Masstree} {ι : Type}

/-! ## Discipline -/

/-- The key of a put, an insert or a delete. -/
def Call.writes? : Call → Option Key
  | .put k _ | .insert k _ | .delete k => some k
  | .get _ | .scan _ _ _ _ => none

/-- The key of a call to one key. -/
def Call.key? : Call → Option Key
  | .get k | .put k _ | .insert k _ | .delete k => some k
  | .scan _ _ _ _ => none

/-- The keys that calls have written. -/
def written (calls : List (Call × Result)) : List Key := calls.filterMap fun c => c.1.writes?

/-- The key of the row that a scan reads next, if there is one. -/
def Pc.row? : Pc ι → Option Key
  | .scan d table _ hi _ _ ((b, _) :: _) _ => if pastEnd d hi b then none else some (table, b)
  | _ => none

/-- The transaction that takes the step. -/
def Act.txn : Act ι → ι
  | .start i | .call i _ | .go i | .stop i | .visit i | .giveUp i | .commit i | .fail i
  | .draw i _ => i

/-- A transaction calls and scans only keys that it has not written. -/
def Disciplined (s : State M ι) : Act ι → Prop
  | .call i c => ∀ k ∈ c.key?, k ∉ written (s.txns i).calls
  | .go i | .stop i => ∀ k ∈ (s.txns i).pc.row?, k ∉ written (s.txns i).calls
  | .start _ | .visit _ | .giveUp _ | .commit _ | .fail _ | .draw _ _ => True

instance (s : State M ι) (a : Act ι) : Decidable (Disciplined s a) := by
  cases a <;> unfold Disciplined <;> infer_instance

/-! ## Kinds of steps -/

/-- The transaction has found an element and has not looked at it yet, or has only checked that it
is valid. -/
inductive Pc.AtElem : Pc ι → Key → ℕ → Prop
  | getCheck (k : Key) (e : ℕ) : AtElem (.getCheck k e) k e
  | getRead (k : Key) (e : ℕ) : AtElem (.getRead k e) k e
  | putCheck (set : Bool) (k : Key) (v : Bytes) (e : ℕ) : AtElem (.putCheck set k v e) k e
  | putObserve (set : Bool) (k : Key) (v : Bytes) (e : ℕ) : AtElem (.putObserve set k v e) k e
  | deleteRead (k : Key) (e : ℕ) : AtElem (.deleteRead k e) k e

/-- The transaction looks for a key: it is idle and the call on the key comes next, or it is about
to insert it. -/
def Pc.Seeks (pc : Pc ι) (k : Key) (calls : List (Call × Result)) : Prop :=
  pc = .idle ∧ k ∉ written calls ∨ ∃ set v, pc = .findInsert set k v

/-- An item that writes an element. -/
def Item.writesElem {N : Type} (it : Item N) (e : ℕ) : Prop := it.ref = .elem e ∧ it.wdata.isSome

/-- A step that changes nothing but the transaction `t`. -/
inductive Local (σ : Store M ι) (here : ℕ) (t : Txn M.Node ι) : Txn M.Node ι → Prop
  | advance {k : Key} {e : ℕ} {pc : Pc ι}
    (hfrom : t.pc.Seeks k t.calls ∧ σ.find k = some e ∨ t.pc.AtElem k e) (hpc : pc.AtElem k e)
    (hcheck : ∀ set v, pc = .putObserve set k v e →
      (σ.heap e).word.version.invalid = false ∨ (t.item k.1 e).hasInsert) :
    Local σ here t { t with pc := pc }
  | seek {set : Bool} {k : Key} {v : Bytes} (hpc : t.pc = .idle) (hk : k ∉ written t.calls) :
    Local σ here t { t with pc := .findInsert set k v }
  | missed {k : Key} {c : Call} {r : Result} (hpc : t.pc = .idle) (hk : k ∉ written t.calls)
    (hfind : σ.find k = none)
    (hc : c = .get k ∧ r = .value none ∨ c = .delete k ∧ r = .found false) :
    Local σ here t
      ((t.ensureNotFound k.1 (σ.leaf k) (σ.version k.1 (σ.leaf k))).answer c r)
  | read {k : Key} {e : ℕ} (hpc : t.pc = .getRead k e) (hlock : (σ.heap e).word.lock = none) :
    Local σ here t
      ((t.addRead k.1 e (σ.heap e)).answer (.get k) (.value (some (σ.heap e).value)))
  | observe {k : Key} {v : Bytes} {e : ℕ} (hpc : t.pc = .putObserve false k v e)
    (hlock : (σ.heap e).word.lockedElsewhere here = false) :
    Local σ here t
      ({ t with items := setItem ((t.item k.1 e).observe (σ.heap e).word) t.items }.answer
        (.insert k v) (.found true))
  | put {k : Key} {v : Bytes} {e : ℕ} (hpc : t.pc = .putObserve true k v e)
    (hlock : (σ.heap e).word.lockedElsewhere here = false) :
    Local σ here t
      ({ t with
        items := setItem { (t.item k.1 e).observe (σ.heap e).word with
          wdata := some v, extra := k.2, effect := some v } t.items }.answer
        (.put k v) (.found true))
  | grow {k : Key} {v : Bytes} {e : ℕ} (hpc : t.pc = .putObserve true k v e)
    (hlock : (σ.heap e).word.lockedElsewhere here = false) :
    Local σ here t
      { t with
        items := setItem ((t.item k.1 e).observe (σ.heap e).word) t.items
        pc := if (t.item k.1 e).hasInsert then .growCopy true k v e else .growLock k v e }
  | delete {k : Key} {e : ℕ} (hpc : t.pc = .deleteRead k e)
    (hvalid : (σ.heap e).word.version.invalid = false)
    (hlock : (σ.heap e).word.lockedElsewhere here = false) :
    Local σ here t
      ({ t with
        items := setItem { (t.item k.1 e).observe (σ.heap e).word with
          wdata := some k.2, hasDelete := true, extra := k.2, effect := none } t.items }.answer
        (.delete k) (.found true))
  | copy {own : Bool} {k : Key} {v : Bytes} {e : ℕ} (hpc : t.pc = .growCopy own k v e) :
    Local σ here t
      { t with
        pc := .growLink own k v e
          (if own then { σ.heap e with capacity := capacityFor v.length }
          else { σ.heap e with capacity := capacityFor v.length }.setInvalid false) }
  | scan {d : Dir} {table : ℕ} {lo hi : Bytes} (hpc : t.pc = .idle) :
    Local σ here t
      { t with pc := .scan d table lo hi ⟨d, lo, false⟩ [] [] (some ⟨d, lo, false⟩) }
  | visit {d : Dir} {table : ℕ} {lo hi : Bytes} {pos pos' : Cursor} {rows : List (Bytes × Bytes)}
    {entries : List (Bytes × ℕ)} {next : Option Cursor}
    (hpc : t.pc = .scan d table lo hi pos rows entries next)
    (hpos : pos' = pos ∨ entries = [] ∧ next = some pos') :
    Local σ here t
      { t.ensureNotFound table (M.scanNode (σ.trees table) pos')
          (M.version (σ.trees table) (M.scanNode (σ.trees table) pos')) with
        pc := .scan d table lo hi pos' rows (M.rows (σ.trees table) pos')
          (M.next (σ.trees table) pos')
        skipped := fun k => t.skipped k || σ.passes table pos' k }
  | row {d : Dir} {table : ℕ} {lo hi : Bytes} {pos : Cursor} {rows : List (Bytes × Bytes)}
    {b : Bytes} {e : ℕ} {entries : List (Bytes × ℕ)} {next : Option Cursor}
    (hpc : t.pc = .scan d table lo hi pos rows ((b, e) :: entries) next)
    (hk : (table, b) ∉ written t.calls) (hend : pastEnd d hi b = false)
    (hlock : (σ.heap e).word.lock = none) :
    Local σ here t
      { t.addRead table e (σ.heap e) with
        pc := .scan d table lo hi ⟨d, b, true⟩ (rows ++ [(b, (σ.heap e).value)]) entries next }
  | rowStop {d : Dir} {table : ℕ} {lo hi : Bytes} {pos : Cursor} {rows : List (Bytes × Bytes)}
    {b : Bytes} {e : ℕ} {entries : List (Bytes × ℕ)} {next : Option Cursor}
    (hpc : t.pc = .scan d table lo hi pos rows ((b, e) :: entries) next)
    (hk : (table, b) ∉ written t.calls) (hend : pastEnd d hi b = false)
    (hlock : (σ.heap e).word.lock = none) :
    Local σ here t
      ((t.addRead table e (σ.heap e)).answer (.scan d table lo hi)
        (.rows (rows ++ [(b, (σ.heap e).value)]) true))
  | scanEnd {d : Dir} {table : ℕ} {lo hi : Bytes} {pos : Cursor} {rows : List (Bytes × Bytes)}
    {entries : List (Bytes × ℕ)} {next : Option Cursor}
    (hpc : t.pc = .scan d table lo hi pos rows entries next)
    (hend : entries = [] ∧ next = none ∨ ∃ b e es, entries = (b, e) :: es ∧ pastEnd d hi b) :
    Local σ here t (t.answer (.scan d table lo hi) (.rows rows false))
  | abort (hpc : t.pc = .idle ∨ (∃ k e, t.pc.AtElem k e) ∨
      ∃ d table lo hi pos rows entries next, t.pc = .scan d table lo hi pos rows entries next) :
    Local σ here t t.abort
  | commit (hpc : t.pc = .idle) : Local σ here t { t with pc := .lock 0 }
  | lockSkip {j : ℕ} {it : Item M.Node} (hpc : t.pc = .lock j) (hit : t.items[j]? = some it)
    (hskip : ∀ e, ¬ it.writesElem e) : Local σ here t { t with pc := .lock (j + 1) }
  | fail {j : ℕ} (hpc : t.pc = .lock j ∨ t.pc = .check j) : Local σ here t t.fail
  | checkSkip {j : ℕ} {it : Item M.Node} (hpc : t.pc = .check j) (hit : t.items[j]? = some it)
    (hread : it.rdata = none) : Local σ here t { t with pc := .check (j + 1) }
  | checkPass {j : ℕ} {it : Item M.Node} (hpc : t.pc = .check j) (hit : t.items[j]? = some it)
    (hread : it.rdata.isSome)
    (hpass : σ.checkItem here it ∨ t.precedingDuplicateRead j it.ref) :
    Local σ here t { t with pc := .check (j + 1), passed := it.ref :: t.passed }
  | decide {j : ℕ} (hpc : t.pc = .check j) (hend : t.items[j]? = none) :
    Local σ here t { t with pc := .install 0 }
  | installSkip {j : ℕ} {it : Item M.Node} (hpc : t.pc = .install j) (hit : t.items[j]? = some it)
    (hskip : ∀ e, ¬ it.writesElem e) : Local σ here t { t with pc := .install (j + 1) }
  | installEnd {j : ℕ} (hpc : t.pc = .install j) (hend : t.items[j]? = none) :
    Local σ here t { t with pc := if t.anyWrites then .draw else .committed }
  | unlockSkip {ok : Bool} {j : ℕ} (hpc : t.pc = .unlock ok (j + 1))
    (hskip : ∀ it ∈ t.items[j]?, ∀ e, it.writesElem e → e ∉ t.locked) :
    Local σ here t { t with pc := .unlock ok j }
  | unlockEnd {ok : Bool} (hpc : t.pc = .unlock ok 0) :
    Local σ here t { t with pc := if ok then .committed else .cleanup t.items.length }
  | cleanupSkip {j : ℕ} (hpc : t.pc = .cleanup (j + 1))
    (hskip : ∀ it ∈ t.items[j]?, it.hasInsert → it.wdata = none) :
    Local σ here t { t with pc := .cleanup j }
  | cleanupEnd (hpc : t.pc = .cleanup 0) : Local σ here t { t with pc := .aborted }

/-- A step of the transaction `t`, which is the transaction `i`, that changes memory. -/
inductive Effect (σ : Store M ι) (here : ℕ) (i : ι) (t : Txn M.Node ι) :
    Store M ι → Txn M.Node ι → Prop
  | insert {set : Bool} {k : Key} {v : Bytes} (hpc : t.pc = .findInsert set k v)
    (hfind : σ.find k = none) :
    Effect σ here i t (σ.insert k (newObject i k v))
      ((t.insertNew σ (σ.insert k (newObject i k v)) k v).answer (writeCall set k v)
        (.found false))
  | growLock {k : Key} {v : Bytes} {e : ℕ} (hpc : t.pc = .growLock k v e)
    (hlock : (σ.heap e).word.lock = none) :
    Effect σ here i t (σ.set e ((σ.heap e).setLock (some here))) { t with pc := .growMark k v e }
  | growBack {k : Key} {v : Bytes} {e : ℕ} (hpc : t.pc = .growMark k v e)
    (hinvalid : (σ.heap e).word.version.invalid) :
    Effect σ here i t (σ.set e ((σ.heap e).setLock none)) t.abort
  | growMark {k : Key} {v : Bytes} {e : ℕ} (hpc : t.pc = .growMark k v e)
    (hvalid : (σ.heap e).word.version.invalid = false) :
    Effect σ here i t (σ.set e { (σ.heap e).setInvalid true with mover := some i })
      { t with pc := .growUnlock k v e }
  | growUnlock {k : Key} {v : Bytes} {e : ℕ} (hpc : t.pc = .growUnlock k v e) :
    Effect σ here i t (σ.set e ((σ.heap e).setLock none)) { t with pc := .growCopy false k v e }
  | growLink {own : Bool} {k : Key} {v : Bytes} {e : ℕ} {copy : Object ι}
    (hpc : t.pc = .growLink own k v e copy) (hfind : (σ.find k).isSome) :
    Effect σ here i t (σ.replace k copy)
      ({ t with
        items := t.items ++ [copyItem σ.next k v]
        grown := if own then t.grown else e :: t.grown }.answer (.put k v) (.found true))
  | lockItem {j : ℕ} {it : Item M.Node} {e : ℕ} (hpc : t.pc = .lock j)
    (hit : t.items[j]? = some it) (hwrite : it.writesElem e)
    (hlock : (σ.heap e).word.lock = none) :
    Effect σ here i t (σ.set e ((σ.heap e).setLock (some here)))
      { t with pc := .lock (j + 1), locked := e :: t.locked }
  | unlockItem {ok : Bool} {j : ℕ} {it : Item M.Node} {e : ℕ} (hpc : t.pc = .unlock ok (j + 1))
    (hit : t.items[j]? = some it) (hwrite : it.writesElem e) (hlocked : e ∈ t.locked)
    (hlock : (σ.heap e).word.lock = some here) :
    Effect σ here i t (σ.set e ((σ.heap e).setLock none))
      { t with pc := .unlock ok j, locked := t.locked.erase e }
  | cleanup {j : ℕ} {it : Item M.Node} {w : Bytes} (hpc : t.pc = .cleanup (j + 1))
    (hit : t.items[j]? = some it) (hinsert : it.hasInsert) (hw : it.wdata = some w)
    (hfind : (σ.find (it.owner, w)).isSome) :
    Effect σ here i t (σ.remove (it.owner, w)) { t with pc := .cleanup j }

/-- The steps of a disciplined run. -/
inductive Moves [DecidableEq ι] (thread : ι → ℕ) (epoch : ℕ) (s : State M ι) (i : ι) :
    State M ι → Prop
  | start (hpc : (s.txns i).pc = .unborn)
    (hfree : ∀ j, (s.txns j).pc.running → thread j ≠ thread i) :
    Moves thread epoch s i (s.goto i .idle)
  | here {t : Txn M.Node ι} (hrun : (s.txns i).pc.running)
    (h : Local s.store (thread i) (s.txns i) t) : Moves thread epoch s i (s.setTxn i t)
  | effect {σ : Store M ι} {t : Txn M.Node ι} (hrun : (s.txns i).pc.running)
    (h : Effect s.store (thread i) i (s.txns i) σ t) : Moves thread epoch s i (s.put i σ t)
  | locked {j : ℕ} (hpc : (s.txns i).pc = .lock j) (hend : (s.txns i).items[j]? = none) :
    Moves thread epoch s i ((s.goto i (.check 0)).record (.locked i))
  | installed {j : ℕ} {it : Item M.Node} {e : ℕ} {w : Bytes} {σ : Store M ι}
    (hpc : (s.txns i).pc = .install j) (hit : (s.txns i).items[j]? = some it)
    (href : it.ref = .elem e) (hw : it.wdata = some w)
    (hinstall : s.store.installItem i it e w = some σ) :
    Moves thread epoch s i
      ((s.put i σ { s.txns i with
        pc := .install (j + 1), installed := it.key :: (s.txns i).installed }).record
        (.installed i it.key))
  | drew {r : ℕ} (hpc : (s.txns i).pc = .draw) (hclock : s.clock < r) :
    Moves thread epoch s i
      (({ s with clock := r }.setTxn i
        { s.txns i with
          pc := .unlock true (s.txns i).items.length, cid := some (commitId r epoch) }).record
        (.drew i))

lemma setItem_setItem {N : Type} [DecidableEq N] (it it' : Item N) (items : List (Item N))
    (h : it.ref = it'.ref) : setItem it' (setItem it items) = setItem it' items := by
  induction items with
  | nil => simp [setItem, h]
  | cons x items ih =>
    by_cases hx : x.ref = it.ref
    · simp [setItem, hx, h]
    · have hx' : ¬ x.ref = it'.ref := by rwa [← h]
      rw [setItem, if_neg hx, setItem, if_neg hx', ih, setItem, if_neg hx']

section

variable [DecidableEq ι] {thread : ι → ℕ} {epoch : ℕ} {s s' : State M ι} {i : ι}

lemma moves_of_call {c : Call} (hpc : (s.txns i).pc = .idle)
    (hk : ∀ k ∈ c.key?, k ∉ written (s.txns i).calls) : Moves thread epoch s i (s.call i c) := by
  have hrun : (s.txns i).pc.running := by rw [hpc]; rfl
  cases c with
  | get k =>
    simp only [call]
    split
    · next e hfind =>
      exact .here hrun (.advance (.inl ⟨.inl ⟨hpc, hk k rfl⟩, hfind⟩) (.getCheck k e)
        fun _ _ h => by cases h)
    · next hfind => exact .here hrun (.missed hpc (hk k rfl) hfind (.inl ⟨rfl, rfl⟩))
  | put k v =>
    simp only [call]
    split
    · next e hfind =>
      exact .here hrun (.advance (.inl ⟨.inl ⟨hpc, hk k rfl⟩, hfind⟩) (.putCheck true k v e)
        fun _ _ h => by cases h)
    · exact .here hrun (.seek hpc (hk k rfl))
  | insert k v => exact .here hrun (.seek hpc (hk k rfl))
  | delete k =>
    simp only [call]
    split
    · next e hfind =>
      exact .here hrun (.advance (.inl ⟨.inl ⟨hpc, hk k rfl⟩, hfind⟩) (.deleteRead k e)
        fun _ _ h => by cases h)
    · next hfind => exact .here hrun (.missed hpc (hk k rfl) hfind (.inr ⟨rfl, rfl⟩))
  | scan d table lo hi => exact .here hrun (.scan hpc)

lemma moves_of_scanRow {stop : Bool} {d : Dir} {table : ℕ} {lo hi : Bytes} {pos : Cursor}
    {rows : List (Bytes × Bytes)} {entries : List (Bytes × ℕ)} {next : Option Cursor}
    (hpc : (s.txns i).pc = .scan d table lo hi pos rows entries next)
    (hd : ∀ k ∈ (s.txns i).pc.row?, k ∉ written (s.txns i).calls)
    (h : s.scanRow i stop d table lo hi rows entries next = some s') :
    Moves thread epoch s i s' := by
  have hrun : (s.txns i).pc.running := by rw [hpc]; rfl
  have hscan : ∃ d table lo hi pos rows entries next,
      (s.txns i).pc = .scan d table lo hi pos rows entries next := ⟨_, _, _, _, _, _, _, _, hpc⟩
  cases entries with
  | nil =>
    simp only [scanRow] at h
    split at h
    · cases h
    · split at h
      · cases h
        exact .here hrun (.scanEnd hpc (.inl ⟨rfl, rfl⟩))
      · cases h
        exact .here hrun (.visit hpc (.inr ⟨rfl, rfl⟩))
  | cons x entries =>
    obtain ⟨b, e⟩ := x
    simp only [scanRow] at h
    split at h
    · next hend =>
      split at h
      · cases h
      · cases h
        exact .here hrun (.scanEnd hpc (.inr ⟨b, e, entries, rfl, hend⟩))
    · next hend =>
      have hend : pastEnd d hi b = false := by simpa using hend
      split at h
      · split at h
        · cases h
        · cases h
          exact .here hrun (.abort (.inr (.inr hscan)))
      · next hlock =>
        have hlock : (s.store.heap e).word.lock = none := by simpa using hlock
        have hk : (table, b) ∉ written (s.txns i).calls := hd _ (by rw [hpc]; simp [Pc.row?, hend])
        split at h
        · cases h
          exact .here hrun (.rowStop hpc hk hend hlock)
        · cases h
          exact .here hrun (.row hpc hk hend hlock)

lemma moves_of_putObserve {set : Bool} {k : Key} {v : Bytes} {e : ℕ}
    (hpc : (s.txns i).pc = .putObserve set k v e) :
    Moves thread epoch s i (s.putObserve i (thread i) set k v e) := by
  have hrun : (s.txns i).pc.running := by rw [hpc]; rfl
  simp only [putObserve]
  split
  · exact .here hrun (.abort (.inr (.inl ⟨k, e, hpc ▸ .putObserve set k v e⟩)))
  · next hlock =>
    have hlock : (s.store.heap e).word.lockedElsewhere (thread i) = false := by simpa using hlock
    split
    · next hset =>
      subst hset
      split
      · exact .here hrun (.grow hpc hlock)
      · rw [setItem_setItem]
        · exact .here hrun (.put hpc hlock)
        · rfl
    · next hset =>
      have hset : set = false := by simpa using hset
      subst hset
      exact .here hrun (.observe hpc hlock)

lemma moves_of_deleteRead {k : Key} {e : ℕ} (hpc : (s.txns i).pc = .deleteRead k e) :
    Moves thread epoch s i (s.deleteRead i (thread i) k e) := by
  have hrun : (s.txns i).pc.running := by rw [hpc]; rfl
  simp only [deleteRead]
  split
  · exact .here hrun (.abort (.inr (.inl ⟨k, e, hpc ▸ .deleteRead k e⟩)))
  · next hread =>
    rw [Bool.or_eq_true, not_or, Bool.not_eq_true, Bool.not_eq_true] at hread
    exact .here hrun (.delete hpc hread.1 hread.2)

/-- An item that writes no element is passed over. -/
lemma not_writesElem {N : Type} {it : Item N}
    (h : ∀ e w, it.ref = .elem e → it.wdata = some w → False) (e : ℕ) : ¬ it.writesElem e := by
  rintro ⟨href, hw⟩
  obtain ⟨w, hw⟩ := isSome_iff_exists.mp hw
  exact h e w href hw

section

variable (h : s.go i (thread i) = some s')

include h

lemma moves_of_getCheck {k : Key} {e : ℕ} (hpc : (s.txns i).pc = .getCheck k e) :
    Moves thread epoch s i s' := by
  have hrun : (s.txns i).pc.running := by rw [hpc]; rfl
  simp only [go, hpc] at h
  split at h <;> cases h
  · exact .here hrun (.abort (.inr (.inl ⟨k, e, hpc ▸ .getCheck k e⟩)))
  · exact .here hrun (.advance (.inr (hpc ▸ .getCheck k e)) (.getRead k e) fun _ _ h => by cases h)

lemma moves_of_getRead {k : Key} {e : ℕ} (hpc : (s.txns i).pc = .getRead k e) :
    Moves thread epoch s i s' := by
  have hrun : (s.txns i).pc.running := by rw [hpc]; rfl
  simp only [go, hpc] at h
  split at h
  · cases h
    exact .here hrun (.abort (.inr (.inl ⟨k, e, hpc ▸ .getRead k e⟩)))
  · next hlock =>
    cases h
    exact .here hrun (.read hpc (by simpa using hlock))

lemma moves_of_findInsert {set : Bool} {k : Key} {v : Bytes}
    (hpc : (s.txns i).pc = .findInsert set k v) : Moves thread epoch s i s' := by
  have hrun : (s.txns i).pc.running := by rw [hpc]; rfl
  simp only [go, hpc] at h
  split at h
  · next e hfind =>
    cases h
    exact .here hrun (.advance (.inl ⟨.inr ⟨set, v, hpc⟩, hfind⟩) (.putCheck set k v e)
      fun _ _ h => by cases h)
  · next hfind =>
    cases h
    exact .effect hrun (.insert hpc hfind)

lemma moves_of_putCheck {set : Bool} {k : Key} {v : Bytes} {e : ℕ}
    (hpc : (s.txns i).pc = .putCheck set k v e) : Moves thread epoch s i s' := by
  have hrun : (s.txns i).pc.running := by rw [hpc]; rfl
  simp only [go, hpc] at h
  split at h
  · cases h
    exact .here hrun (.abort (.inr (.inl ⟨k, e, hpc ▸ .putCheck set k v e⟩)))
  · next hcheck =>
    cases h
    refine .here hrun (.advance (.inr (hpc ▸ .putCheck set k v e)) (.putObserve set k v e)
      fun _ _ _ => ?_)
    simpa [imp_iff_not_or] using hcheck

lemma moves_of_growLock {k : Key} {v : Bytes} {e : ℕ} (hpc : (s.txns i).pc = .growLock k v e) :
    Moves thread epoch s i s' := by
  have hrun : (s.txns i).pc.running := by rw [hpc]; rfl
  simp only [go, hpc] at h
  split at h
  · cases h
  · next hlock =>
    cases h
    exact .effect hrun (.growLock hpc (by simpa using hlock))

lemma moves_of_growMark {k : Key} {v : Bytes} {e : ℕ} (hpc : (s.txns i).pc = .growMark k v e) :
    Moves thread epoch s i s' := by
  have hrun : (s.txns i).pc.running := by rw [hpc]; rfl
  simp only [go, hpc] at h
  split at h
  · next hinvalid =>
    cases h
    exact .effect hrun (.growBack hpc hinvalid)
  · next hvalid =>
    cases h
    exact .effect hrun (.growMark hpc (by simpa using hvalid))

lemma moves_of_growLink {own : Bool} {k : Key} {v : Bytes} {e : ℕ} {copy : Object ι}
    (hpc : (s.txns i).pc = .growLink own k v e copy) : Moves thread epoch s i s' := by
  have hrun : (s.txns i).pc.running := by rw [hpc]; rfl
  simp only [go, hpc] at h
  split at h
  · next hfind =>
    cases h
    exact .effect hrun (.growLink hpc hfind)
  · cases h

lemma moves_of_lock {j : ℕ} (hpc : (s.txns i).pc = .lock j) : Moves thread epoch s i s' := by
  have hrun : (s.txns i).pc.running := by rw [hpc]; rfl
  simp only [go, hpc] at h
  split at h
  · next hend =>
    cases h
    exact .locked hpc hend
  · next it hit =>
    split at h
    · next e w href hw =>
      split at h
      · cases h
      · next hlock =>
        cases h
        exact .effect hrun (.lockItem hpc hit ⟨href, by rw [hw]; rfl⟩ (by simpa using hlock))
    · next hskip =>
      cases h
      exact .here hrun (.lockSkip hpc hit (not_writesElem hskip))

lemma moves_of_check {j : ℕ} (hpc : (s.txns i).pc = .check j) : Moves thread epoch s i s' := by
  have hrun : (s.txns i).pc.running := by rw [hpc]; rfl
  simp only [go, hpc] at h
  split at h
  · next hend =>
    cases h
    exact .here hrun (.decide hpc hend)
  · next it hit =>
    split at h
    · next hread =>
      cases h
      exact .here hrun (.checkSkip hpc hit (by simpa using hread))
    · next hread =>
      have hread : it.rdata.isSome := by simpa [isSome_iff_ne_none] using hread
      split at h
      · next hpass =>
        cases h
        refine .here hrun (.checkPass hpc hit hread ?_)
        rw [Bool.or_eq_true, Bool.and_eq_true] at hpass
        exact hpass.imp_right And.right
      · cases h
        exact .here hrun (.fail (.inr hpc))

lemma moves_of_install {j : ℕ} (hpc : (s.txns i).pc = .install j) : Moves thread epoch s i s' := by
  have hrun : (s.txns i).pc.running := by rw [hpc]; rfl
  simp only [go, hpc] at h
  split at h
  · next hend =>
    cases h
    exact .here hrun (.installEnd hpc hend)
  · next it hit =>
    split at h
    · next e w href hw =>
      obtain ⟨σ, hσ, rfl⟩ := map_eq_some_iff.mp h
      exact .installed hpc hit href hw hσ
    · next hskip =>
      cases h
      exact .here hrun (.installSkip hpc hit (not_writesElem hskip))

lemma moves_of_unlock {ok : Bool} {j : ℕ} (hpc : (s.txns i).pc = .unlock ok (j + 1)) :
    Moves thread epoch s i s' := by
  have hrun : (s.txns i).pc.running := by rw [hpc]; rfl
  simp only [go, hpc] at h
  split at h
  · next hend =>
    cases h
    refine .here hrun (.unlockSkip hpc fun it hit => ?_)
    rw [hend] at hit
    cases hit
  · next it hit =>
    have honly : ∀ P : Item M.Node → Prop, P it → ∀ it' ∈ (s.txns i).items[j]?, P it' := by
      intro P hP it' hit'
      rw [hit] at hit'
      cases hit'
      exact hP
    split at h
    · next e w href hw =>
      split at h
      · next hlocked =>
        split at h
        · next hlock =>
          cases h
          exact .effect hrun (.unlockItem hpc hit ⟨href, by rw [hw]; rfl⟩ hlocked hlock)
        · cases h
      · next hlocked =>
        cases h
        refine .here hrun (.unlockSkip hpc (honly _ fun e' hwrite => ?_))
        cases href.symm.trans hwrite.1
        exact hlocked
    · next hskip =>
      cases h
      exact .here hrun (.unlockSkip hpc (honly _ fun e hwrite =>
        absurd hwrite (not_writesElem hskip e)))

lemma moves_of_cleanup {j : ℕ} (hpc : (s.txns i).pc = .cleanup (j + 1)) :
    Moves thread epoch s i s' := by
  have hrun : (s.txns i).pc.running := by rw [hpc]; rfl
  simp only [go, hpc] at h
  split at h
  · next hend =>
    cases h
    refine .here hrun (.cleanupSkip hpc fun it hit => ?_)
    rw [hend] at hit
    cases hit
  · next it hit =>
    split at h
    · next w hins hw =>
      split at h
      · next hfind =>
        cases h
        exact .effect hrun (.cleanup hpc hit hins hw hfind)
      · cases h
    · next hskip =>
      cases h
      refine .here hrun (.cleanupSkip hpc fun it' hit' hins => ?_)
      rw [hit] at hit'
      cases hit'
      cases hw : it.wdata with
      | none => rfl
      | some w => exact (hskip w hins hw).elim

/-- What the step of a transaction does, by its place. -/
lemma moves_of_go (hd : ∀ k ∈ (s.txns i).pc.row?, k ∉ written (s.txns i).calls) :
    Moves thread epoch s i s' := by
  have hrun : ∀ pc : Pc ι, (s.txns i).pc = pc → pc.running → (s.txns i).pc.running :=
    fun pc hpc hr => hpc ▸ hr
  cases hpc : (s.txns i).pc with
  | getCheck => exact moves_of_getCheck h hpc
  | getRead => exact moves_of_getRead h hpc
  | findInsert => exact moves_of_findInsert h hpc
  | putCheck => exact moves_of_putCheck h hpc
  | growLock => exact moves_of_growLock h hpc
  | growMark => exact moves_of_growMark h hpc
  | growLink => exact moves_of_growLink h hpc
  | lock => exact moves_of_lock h hpc
  | check => exact moves_of_check h hpc
  | install => exact moves_of_install h hpc
  | putObserve =>
    simp only [go, hpc] at h
    cases h
    exact moves_of_putObserve hpc
  | growUnlock =>
    simp only [go, hpc] at h
    cases h
    exact .effect (hrun _ hpc rfl) (.growUnlock hpc)
  | growCopy =>
    simp only [go, hpc] at h
    cases h
    exact .here (hrun _ hpc rfl) (.copy hpc)
  | deleteRead =>
    simp only [go, hpc] at h
    cases h
    exact moves_of_deleteRead hpc
  | scan =>
    simp only [go, hpc] at h
    exact moves_of_scanRow hpc hd h
  | unlock ok j =>
    cases j with
    | zero =>
      simp only [go, hpc] at h
      cases h
      exact .here (hrun _ hpc rfl) (.unlockEnd hpc)
    | succ j => exact moves_of_unlock h hpc
  | cleanup j =>
    cases j with
    | zero =>
      simp only [go, hpc] at h
      cases h
      exact .here (hrun _ hpc rfl) (.cleanupEnd hpc)
    | succ j => exact moves_of_cleanup h hpc
  | unborn | idle | draw | committed | aborted =>
    simp only [go, hpc] at h
    cases h

end

/-- What a disciplined step does. -/
lemma moves_of_step [Fintype ι] {a : Act ι} (hd : Disciplined s a)
    (h : step thread epoch s a = some s') : Moves thread epoch s a.txn s' := by
  cases a with
  | start i =>
    simp only [step] at h
    split at h
    · next hpc =>
      split at h
      · next hfree =>
        cases h
        exact .start hpc hfree
      · cases h
    · cases h
  | call i c =>
    simp only [step] at h
    split at h
    · next hpc =>
      cases h
      exact moves_of_call hpc hd
    · cases h
  | go i => exact moves_of_go h hd
  | stop i =>
    simp only [step] at h
    split at h
    · next hpc => exact moves_of_scanRow hpc hd h
    · cases h
  | visit i =>
    simp only [step] at h
    split at h
    · next hpc =>
      cases h
      exact .here (by rw [Act.txn, hpc]; rfl) (.visit hpc (.inl rfl))
    · cases h
  | giveUp i =>
    simp only [step] at h
    split at h
    · next hpc =>
      cases h
      exact .here (by rw [Act.txn, hpc]; rfl) (.abort (.inl hpc))
    · cases h
  | commit i =>
    simp only [step] at h
    split at h
    · next hpc =>
      cases h
      exact .here (by rw [Act.txn, hpc]; rfl) (.commit hpc)
    · cases h
  | fail i =>
    simp only [step] at h
    split at h
    · next j hpc =>
      split at h
      · split at h
        · split at h
          · cases h
            exact .here (by rw [Act.txn, hpc]; rfl) (.fail (.inl hpc))
          · cases h
        · cases h
      · cases h
    · cases h
  | draw i r =>
    simp only [step] at h
    split at h
    · next hpc =>
      split at h
      · next hclock =>
        cases h
        exact .drew hpc hclock
      · cases h
    · cases h

end

end Rolis.Sto.Occ
