import Mathlib.Data.Fintype.Basic
import Rolis.Lib.Lts
import Rolis.Sto.Masstree
import Rolis.Sto.MassTrans

/-!
# Concurrent transactions

The transactions of `MassTrans` and `Transaction` side by side on one store, in the build that the
makefile makes (`READ_MY_WRITES` is 0, `Opacity` is `false`). A step is a lookup or an insert in the
tree, the read of an element, one of the steps in which a put replaces an element that is too small,
and for each item its lock, check, install, unlock and cleanup. The check of an item is one step
although `check` loads the version word twice, and so is the install of a delete, which marks the
element and then removes the key. Which transaction goes next, what it calls and when its scan stops
is up to the actions.

A version word holds the thread id of the transaction that has locked it, and a counter without
bound; the code counts modulo 2 ^ 52. The lookup of an item is the exact one, not that of the hash
table of `TransactionBuffer`. Some fields only record history: the key of an element, whether it has
ever been valid, who wrote its value and who replaces it; what a transaction has called, what it was
answered and which keys its scans have passed in leaves they did not visit; and the order of events.
-/

namespace Rolis.Sto.Occ

/-! ## Shared memory -/

/-- A table and a key in it. -/
abbrev Key := ℕ × Bytes

/-- A version word: the counter with `invalid_bit`, and the thread id under `lock_bit`. -/
structure Word where
  version : Version := {}
  lock : Option ℕ := none
deriving DecidableEq, Repr

/-- `is_locked_elsewhere`. -/
def Word.lockedElsewhere (w : Word) (here : ℕ) : Bool := w.lock.isSome && w.lock ≠ some here

/-- `check_version`. -/
def Word.checkVersion (cur old : Word) (here : ℕ) : Bool :=
  cur = old || cur = { old with lock := some here }

/-- `versioned_str_struct`. The other fields are history: the key of the element, whether it has
been valid, the transaction that wrote its value and the one that is replacing it. -/
structure Object (ι : Type) where
  word : Word := {}
  value : Bytes := []
  capacity : ℕ := 0
  key : Key := (0, [])
  live : Bool := false
  writer : Option ι := none
  mover : Option ι := none

namespace Object

variable {ι : Type} (x : Object ι)

/-- Set the thread id under `lock_bit`, or clear both. -/
def setLock (lock : Option ℕ) : Object ι := { x with word := { x.word with lock := lock } }

/-- Set or clear `invalid_bit`. -/
def setInvalid (invalid : Bool) : Object ι :=
  { x with word := { x.word with version := { x.word.version with invalid := invalid } } }

/-- `set_value` and `inc_nonopaque_version`. -/
def write (i : ι) (value : Bytes) : Object ι :=
  { x with
    word := { x.word with version := { x.word.version with count := x.word.version.count + 1 } }
    value := value
    writer := some i }

end Object

/-- The trees of the tables, the elements and the first address that was never used. -/
structure Store (M : Masstree) (ι : Type) where
  trees : ℕ → M.Tree
  heap : ℕ → Object ι
  next : ℕ

namespace Store

variable {M : Masstree} {ι : Type} (σ : Store M ι)

def find (k : Key) : Option ℕ := M.find (σ.trees k.1) k.2

def leaf (k : Key) : M.Node := M.leaf (σ.trees k.1) k.2

def version (table : ℕ) (n : M.Node) : ℕ := M.version (σ.trees table) n

/-- Change an element. -/
def set (e : ℕ) (x : Object ι) : Store M ι := { σ with heap := Function.update σ.heap e x }

/-- Change the tree of a table. -/
def setTree (table : ℕ) (t : M.Tree) : Store M ι :=
  { σ with trees := Function.update σ.trees table t }

/-- A new element. -/
def alloc (x : Object ι) : Store M ι := { σ.set σ.next x with next := σ.next + 1 }

/-- Point a new key to a new element. -/
def insert (k : Key) (x : Object ι) : Store M ι :=
  (σ.setTree k.1 (M.insert (σ.trees k.1) k.2 σ.next)).alloc x

/-- Point a key to a new element instead of the one it has. -/
def replace (k : Key) (x : Object ι) : Store M ι :=
  (σ.setTree k.1 (M.replace (σ.trees k.1) k.2 σ.next)).alloc x

def remove (k : Key) : Store M ι := σ.setTree k.1 (M.remove (σ.trees k.1) k.2)

/-- A visit at `pos` passes the key, which is not there, and looks at another leaf. -/
def passes (table : ℕ) (pos : Cursor) (k : Key) : Bool :=
  let tree := σ.trees table
  k.1 = table ∧ pos.Ahead k.2 ∧ (∀ c ∈ M.next tree pos, ¬ c.Ahead k.2) ∧
    M.find tree k.2 = none ∧ M.leaf tree k.2 ≠ M.scanNode tree pos

/-- The value of a key in the tables. -/
def committed (k : Key) : Option Bytes :=
  (σ.find k).bind fun e =>
    if (σ.heap e).word.version.invalid then none else some (σ.heap e).value

end Store

/-! ## Calls -/

/-- A call of a transaction. -/
inductive Call
  | get (k : Key)
  | put (k : Key) (v : Bytes)
  | insert (k : Key) (v : Bytes)
  | delete (k : Key)
  | scan (d : Dir) (table : ℕ) (lo hi : Bytes)
deriving DecidableEq, Repr

/-- What a call answers: the value of a key, whether the key was found, or the rows that the
callback of a scan has seen and whether it stopped the scan. -/
inductive Result
  | value (v : Option Bytes)
  | found (b : Bool)
  | rows (rows : List (Bytes × Bytes)) (stopped : Bool)
deriving DecidableEq, Repr

/-- `trans_write<true, SET>`. -/
def writeCall (set : Bool) (k : Key) (v : Bytes) : Call := if set then .put k v else .insert k v

/-- The boundary of a scan has been reached; an empty boundary is none. -/
def pastEnd (d : Dir) (hi b : Bytes) : Bool := hi ≠ [] && d.Le hi b

/-! ## Transactions -/

/-- The `key_` of an item: an element, or a node of the tree of a table. -/
inductive Ref (N : Type)
  | elem (e : ℕ)
  | node (table : ℕ) (n : N)
deriving DecidableEq, Repr

/-- `rdata_`: the version word of an element, or the version of a node. -/
inductive Stamp
  | word (w : Word)
  | version (v : ℕ)
deriving DecidableEq, Repr

/-- A `TransItem`. `effect` records what its write leaves under the key. -/
structure Item (N : Type) where
  ref : Ref N
  owner : ℕ
  rdata : Option Stamp := none
  wdata : Option Bytes := none
  hasInsert : Bool := false
  hasDelete : Bool := false
  extra : Bytes := []
  effect : Option Bytes := none
deriving DecidableEq, Repr

/-- Where a transaction is. -/
inductive Pc (ι : Type)
  | unborn
  | idle
  /-- `transGet` has found an element: its `validityCheck` and its `atomicRead` come next. -/
  | getCheck (k : Key) (e : ℕ)
  | getRead (k : Key) (e : ℕ)
  /-- `find_insert` of `trans_write` comes next. -/
  | findInsert (set : Bool) (k : Key) (v : Bytes)
  /-- `handlePutFound`: its `validityCheck`, and the version to observe. -/
  | putCheck (set : Bool) (k : Key) (v : Bytes) (e : ℕ)
  | putObserve (set : Bool) (k : Key) (v : Bytes) (e : ℕ)
  /-- `reallyHandlePutFound` on an element that is too small. -/
  | growLock (k : Key) (v : Bytes) (e : ℕ)
  | growMark (k : Key) (v : Bytes) (e : ℕ)
  | growUnlock (k : Key) (v : Bytes) (e : ℕ)
  | growCopy (own : Bool) (k : Key) (v : Bytes) (e : ℕ)
  | growLink (own : Bool) (k : Key) (v : Bytes) (e : ℕ) (copy : Object ι)
  /-- `transDelete` has found an element. -/
  | deleteRead (k : Key) (e : ℕ)
  /-- A scan with the rows so far: everything in front of `pos` is done, `entries` are the keys of
  the leaf at `pos` that come next, `next` is the position behind the leaf. -/
  | scan (d : Dir) (table : ℕ) (lo hi : Bytes) (pos : Cursor) (rows : List (Bytes × Bytes))
    (entries : List (Bytes × ℕ)) (next : Option Cursor)
  /-- The phases of `try_commit`, at an item. -/
  | lock (j : ℕ)
  | check (j : ℕ)
  | install (j : ℕ)
  | draw
  /-- `stop`: the unlocks, of the items below `j`, and the cleanups. -/
  | unlock (ok : Bool) (j : ℕ)
  | cleanup (j : ℕ)
  | committed
  | aborted

/-- A transaction: its `tset_`, `may_duplicate_items_`, the elements of its items that have
`lock_bit`, and its commit id. The other fields are history: the answered calls, the items that
passed their check, the elements it has replaced, the keys it has installed, the writers of the
values that were returned, and the keys in leaves that a scan has passed without a visit. -/
structure Txn (N ι : Type) where
  pc : Pc ι := .unborn
  items : List (Item N) := []
  mayDuplicate : Bool := false
  locked : List ℕ := []
  cid : Option ℕ := none
  calls : List (Call × Result) := []
  passed : List (Ref N) := []
  grown : List ℕ := []
  installed : List Key := []
  sources : List ι := []
  skipped : Key → Bool := fun _ => false

namespace Item

variable {N : Type}

/-- The key that the item writes. -/
def key (it : Item N) : Key := (it.owner, it.extra)

/-- `observe`: the first version that is observed stays. -/
def observe (it : Item N) (w : Word) : Item N := { it with rdata := some (it.rdata.getD (.word w)) }

end Item

/-- An item that has read the version of a node. -/
def nodeItem {N : Type} (table : ℕ) (n : N) (v : ℕ) : Item N where
  ref := .node table n
  owner := table
  rdata := some (.version v)

/-- An item that has read an element. -/
def readItem {N : Type} (owner e : ℕ) (w : Word) : Item N where
  ref := .elem e
  owner := owner
  rdata := some (.word w)

/-- Put an item in the place of the first item of the same element, or behind all others. -/
def setItem {N : Type} [DecidableEq N] (it : Item N) : List (Item N) → List (Item N)
  | [] => [it]
  | it' :: items => if it'.ref = it.ref then it :: items else it' :: setItem it items

namespace Txn

variable {N ι : Type} [DecidableEq N] (t : Txn N ι)

/-- `Sto::item`: the first item of an element, or a new one. -/
def item (owner e : ℕ) : Item N :=
  (t.items.find? fun it => it.ref = .elem e).getD { ref := .elem e, owner := owner }

/-- `Sto::fresh_item`: always a new item. -/
def addFresh (it : Item N) : Txn N ι :=
  { t with items := t.items ++ [it], mayDuplicate := !t.items.isEmpty }

/-- A call returns. -/
def answer (c : Call) (r : Result) : Txn N ι := { t with pc := .idle, calls := t.calls ++ [(c, r)] }

/-- `ensureNotFound`. -/
def ensureNotFound (table : ℕ) (n : N) (v : ℕ) : Txn N ι :=
  t.addFresh (nodeItem table n v)

/-- A read of an element, with `observe`. -/
def addRead (owner e : ℕ) (x : Object ι) : Txn N ι :=
  { t.addFresh (readItem owner e x.word) with sources := t.sources ++ x.writer.toList }

/-- `Sto::abort()` during a call: `stop(false, …)` has nothing to unlock. -/
def abort : Txn N ι := { t with pc := .cleanup t.items.length }

/-- The `abort` of `try_commit`. -/
def fail : Txn N ι := { t with pc := .unlock false t.items.length }

/-- `updateNodeVersion`: the first item of the node, if it has the version `old`, gets `new`. -/
def updateNodeVersion (table : ℕ) (n : N) (old new : ℕ) : Option (Txn N ι) :=
  match t.items.find? fun it => it.ref = .node table n with
  | none => none
  | some it =>
    if it.rdata = some (.version old) then
      some { t with items := setItem { it with rdata := some (.version new) } t.items }
    else none

/-- `preceding_duplicate_read` of the item at `j`. -/
def precedingDuplicateRead (j : ℕ) (ref : Ref N) : Bool :=
  (t.items.take j).any fun it => it.ref = ref && it.rdata.isSome

/-- `any_writes_`. -/
def anyWrites : Bool := t.items.any (·.wdata.isSome)

end Txn

/-- `versioned_value::make(value, invalid_bit)`. -/
def newObject {ι : Type} (i : ι) (k : Key) (v : Bytes) : Object ι where
  word := { version := { invalid := true } }
  value := v
  capacity := capacityFor v.length
  key := k
  writer := some i

/-- The item of an element that a transaction has put into the tree. -/
def insertItem {N : Type} (e : ℕ) (k : Key) (v : Bytes) : Item N where
  ref := .elem e
  owner := k.1
  wdata := some k.2
  hasInsert := true
  extra := k.2
  effect := some v

/-- The item of the element that takes the place of one that is too small. -/
def copyItem {N : Type} (e : ℕ) (k : Key) (v : Bytes) : Item N where
  ref := .elem e
  owner := k.1
  wdata := some v
  extra := k.2
  effect := some v

/-- The items after `find_insert` has put a new element into the tree, and `σ` became `σ'`: the item
of the leaf follows its version, together with items of the nodes that a split has made, and the new
element gets an item. -/
def Txn.insertNew {M : Masstree} {ι : Type} (t : Txn M.Node ι) (σ σ' : Store M ι) (k : Key)
    (v : Bytes) : Txn M.Node ι :=
  let n := σ.leaf k
  let t :=
    match t.updateNodeVersion k.1 n (σ.version k.1 n) (σ'.version k.1 n) with
    | none => t
    | some t =>
      { t with
        items := t.items ++
          (M.newNodes (σ.trees k.1) k.2).map fun n => nodeItem k.1 n (σ'.version k.1 n) }
  { t with items := t.items ++ [insertItem σ.next k v] }

namespace Store

variable {M : Masstree} {ι : Type} (σ : Store M ι)

/-- `check` of an item that has a read. -/
def checkItem (here : ℕ) (it : Item M.Node) : Bool :=
  match it.ref, it.rdata with
  | .elem e, some (.word w) =>
    (!(σ.heap e).word.version.invalid || it.hasInsert) && (σ.heap e).word.checkVersion w here
  | .node table n, some (.version v) => σ.version table n = v
  | _, _ => true

/-- `install` of a write by `i`; `none` is a failed `assert`. -/
def installItem (i : ι) (it : Item M.Node) (e : ℕ) (w : Bytes) : Option (Store M ι) :=
  let x := σ.heap e
  if x.word.lock.isNone then none
  else if it.hasDelete then
    if it.hasInsert then
      if (σ.find (it.owner, w)).isSome then some (σ.remove (it.owner, w)) else none
    else if x.word.version.invalid then none
    else if (σ.find (it.owner, w)).isSome then
      some ((σ.set e (x.setInvalid true)).remove (it.owner, w))
    else none
  else if it.hasInsert then some (σ.set e { x.setInvalid false with live := true })
  else if x.capacity < w.length then none
  else some (σ.set e (x.write i w))

end Store

/-! ## The system -/

/-- What happened: a transaction has all its locks, a write of it takes effect, it draws its
commit id. -/
inductive Event (ι : Type)
  | locked (i : ι)
  | installed (i : ι) (k : Key)
  | drew (i : ι)
deriving DecidableEq, Repr

structure State (M : Masstree) (ι : Type) where
  store : Store M ι
  txns : ι → Txn M.Node ι := fun _ => {}
  clock : ℕ := 0
  events : List (Event ι) := []

/-- What a transaction does next: `draw` reads the time stamp counter, `stop` is a row at which the
callback of a scan stops, `visit` a scan that has to look at its leaf again, `giveUp` an abort by
the caller and `fail` a lock that is given up. -/
inductive Act (ι : Type)
  | start (i : ι)
  | call (i : ι) (c : Call)
  | go (i : ι)
  | stop (i : ι)
  | visit (i : ι)
  | giveUp (i : ι)
  | commit (i : ι)
  | fail (i : ι)
  | draw (i : ι) (r : ℕ)
deriving DecidableEq, Repr

namespace State

variable {M : Masstree} {ι : Type} [DecidableEq ι] (s : State M ι) (i : ι)

/-- Change a transaction. -/
def setTxn (t : Txn M.Node ι) : State M ι := { s with txns := Function.update s.txns i t }

/-- Change memory and a transaction. -/
def put (σ : Store M ι) (t : Txn M.Node ι) : State M ι :=
  { s with store := σ, txns := Function.update s.txns i t }

/-- Record an event. -/
def record (ev : Event ι) : State M ι := { s with events := s.events ++ [ev] }

/-- A transaction goes to another place. -/
def goto (pc : Pc ι) : State M ι := s.setTxn i { s.txns i with pc := pc }

/-- The beginning of a call, up to its first access to shared memory. -/
def call (c : Call) : State M ι :=
  let t := s.txns i
  match c with
  | .get k =>
    match s.store.find k with
    | some e => s.goto i (.getCheck k e)
    | none =>
      let n := s.store.leaf k
      s.setTxn i ((t.ensureNotFound k.1 n (s.store.version k.1 n)).answer c (.value none))
  | .put k v =>
    match s.store.find k with
    | some e => s.goto i (.putCheck true k v e)
    | none => s.goto i (.findInsert true k v)
  | .insert k v => s.goto i (.findInsert false k v)
  | .delete k =>
    match s.store.find k with
    | some e => s.goto i (.deleteRead k e)
    | none =>
      let n := s.store.leaf k
      s.setTxn i ((t.ensureNotFound k.1 n (s.store.version k.1 n)).answer c (.found false))
  | .scan d table lo hi =>
    s.goto i (.scan d table lo hi ⟨d, lo, false⟩ [] [] (some ⟨d, lo, false⟩))

/-- `find_insert` of a key that is not there. -/
def insertNew (set : Bool) (k : Key) (v : Bytes) : State M ι :=
  let σ := s.store.insert k (newObject i k v)
  s.put i σ (((s.txns i).insertNew s.store σ k v).answer (writeCall set k v) (.found false))

/-- The version that `handlePutFound` observes, and what follows in the same breath:
`reallyHandlePutFound`, unless the element is too small. -/
def putObserve (here : ℕ) (set : Bool) (k : Key) (v : Bytes) (e : ℕ) : State M ι :=
  let t := s.txns i
  let x := s.store.heap e
  if x.word.lockedElsewhere here then s.setTxn i t.abort
  else
    let it := (t.item k.1 e).observe x.word
    let t := { t with items := setItem it t.items }
    if set then
      if x.capacity < v.length then
        s.setTxn i { t with pc := if it.hasInsert then .growCopy true k v e else .growLock k v e }
      else
        let it := { it with wdata := some v, extra := k.2, effect := some v }
        s.setTxn i ({ t with items := setItem it t.items }.answer (.put k v) (.found true))
    else s.setTxn i (t.answer (.insert k v) (.found true))

/-- `transDelete` of an element that was found. -/
def deleteRead (here : ℕ) (k : Key) (e : ℕ) : State M ι :=
  let t := s.txns i
  let x := s.store.heap e
  if x.word.version.invalid || x.word.lockedElsewhere here then s.setTxn i t.abort
  else
    let it := { (t.item k.1 e).observe x.word with
      wdata := some k.2, hasDelete := true, extra := k.2, effect := none }
    s.setTxn i ({ t with items := setItem it t.items }.answer (.delete k) (.found true))

/-- `visit_leaf` at a position. -/
def visitLeaf (d : Dir) (table : ℕ) (lo hi : Bytes) (pos : Cursor)
    (rows : List (Bytes × Bytes)) : State M ι :=
  let tree := s.store.trees table
  let n := M.scanNode tree pos
  s.setTxn i { (s.txns i).ensureNotFound table n (M.version tree n) with
    pc := .scan d table lo hi pos rows (M.rows tree pos) (M.next tree pos)
    skipped := fun k => (s.txns i).skipped k || s.store.passes table pos k }

/-- `visit_value` of the next row, or the end of the scan. -/
def scanRow (stop : Bool) (d : Dir) (table : ℕ) (lo hi : Bytes)
    (rows : List (Bytes × Bytes)) (entries : List (Bytes × ℕ)) (next : Option Cursor) :
    Option (State M ι) :=
  let t := s.txns i
  let finish (t : Txn M.Node ι) (rows : List (Bytes × Bytes)) (stopped : Bool) : State M ι :=
    s.setTxn i (t.answer (.scan d table lo hi) (.rows rows stopped))
  match entries with
  | [] =>
    if stop then none
    else
      match next with
      | none => some (finish t rows false)
      | some pos => some (s.visitLeaf i d table lo hi pos rows)
  | (b, e) :: entries =>
    if pastEnd d hi b then if stop then none else some (finish t rows false)
    else
      let x := s.store.heap e
      if x.word.lock.isSome then if stop then none else some (s.setTxn i t.abort)
      else
        let t := t.addRead table e x
        let rows := rows ++ [(b, x.value)]
        if stop then some (finish t rows true)
        else some (s.setTxn i { t with pc := .scan d table lo hi ⟨d, b, true⟩ rows entries next })

/-- The next step of a transaction. It is not enabled where a lock has to wait. -/
def go (here : ℕ) : Option (State M ι) :=
  let t := s.txns i
  let σ := s.store
  match t.pc with
  | .getCheck k e =>
    if (σ.heap e).word.version.invalid then some (s.setTxn i t.abort)
    else some (s.goto i (.getRead k e))
  | .getRead k e =>
    let x := σ.heap e
    if x.word.lock.isSome then some (s.setTxn i t.abort)
    else some (s.setTxn i ((t.addRead k.1 e x).answer (.get k) (.value (some x.value))))
  | .findInsert set k v =>
    match σ.find k with
    | some e => some (s.goto i (.putCheck set k v e))
    | none => some (s.insertNew i set k v)
  | .putCheck set k v e =>
    if (σ.heap e).word.version.invalid && !(t.item k.1 e).hasInsert then some (s.setTxn i t.abort)
    else some (s.goto i (.putObserve set k v e))
  | .putObserve set k v e => some (s.putObserve i here set k v e)
  | .growLock k v e =>
    if (σ.heap e).word.lock.isSome then none
    else
      some (s.put i (σ.set e ((σ.heap e).setLock (some here))) { t with pc := .growMark k v e })
  | .growMark k v e =>
    let x := σ.heap e
    if x.word.version.invalid then some (s.put i (σ.set e (x.setLock none)) t.abort)
    else
      some (s.put i (σ.set e { x.setInvalid true with mover := some i })
        { t with pc := .growUnlock k v e })
  | .growUnlock k v e =>
    some (s.put i (σ.set e ((σ.heap e).setLock none)) { t with pc := .growCopy false k v e })
  | .growCopy own k v e =>
    let x := σ.heap e
    let copy := { x with capacity := capacityFor v.length }
    some (s.goto i (.growLink own k v e (if own then copy else copy.setInvalid false)))
  | .growLink own k v e copy =>
    if (σ.find k).isSome then
      some (s.put i (σ.replace k copy)
        ({ t with
          items := t.items ++ [copyItem σ.next k v]
          grown := if own then t.grown else e :: t.grown }.answer (.put k v) (.found true)))
    else none
  | .deleteRead k e => some (s.deleteRead i here k e)
  | .scan d table lo hi _ rows entries next =>
    s.scanRow i false d table lo hi rows entries next
  | .lock j =>
    match t.items[j]? with
    | none => some ((s.goto i (.check 0)).record (.locked i))
    | some it =>
      match it.ref, it.wdata with
      | .elem e, some _ =>
        if (σ.heap e).word.lock.isSome then none
        else
          some (s.put i (σ.set e ((σ.heap e).setLock (some here)))
            { t with pc := .lock (j + 1), locked := e :: t.locked })
      | _, _ => some (s.goto i (.lock (j + 1)))
  | .check j =>
    match t.items[j]? with
    | none => some (s.goto i (.install 0))
    | some it =>
      if it.rdata.isNone then some (s.goto i (.check (j + 1)))
      else if σ.checkItem here it || (t.mayDuplicate && t.precedingDuplicateRead j it.ref) then
        some (s.setTxn i { t with pc := .check (j + 1), passed := it.ref :: t.passed })
      else some (s.setTxn i t.fail)
  | .install j =>
    match t.items[j]? with
    | none => some (s.goto i (if t.anyWrites then .draw else .committed))
    | some it =>
      match it.ref, it.wdata with
      | .elem e, some w =>
        (σ.installItem i it e w).map fun σ =>
          (s.put i σ { t with pc := .install (j + 1), installed := it.key :: t.installed }).record
            (.installed i it.key)
      | _, _ => some (s.goto i (.install (j + 1)))
  | .unlock ok 0 => some (s.goto i (if ok then .committed else .cleanup t.items.length))
  | .unlock ok (j + 1) =>
    match t.items[j]? with
    | none => some (s.goto i (.unlock ok j))
    | some it =>
      match it.ref, it.wdata with
      | .elem e, some _ =>
        if e ∈ t.locked then
          if (σ.heap e).word.lock = some here then
            some (s.put i (σ.set e ((σ.heap e).setLock none))
              { t with pc := .unlock ok j, locked := t.locked.erase e })
          else none
        else some (s.goto i (.unlock ok j))
      | _, _ => some (s.goto i (.unlock ok j))
  | .cleanup 0 => some (s.goto i .aborted)
  | .cleanup (j + 1) =>
    match t.items[j]? with
    | none => some (s.goto i (.cleanup j))
    | some it =>
      match it.hasInsert, it.wdata with
      | true, some w =>
        if (σ.find (it.owner, w)).isSome then
          some (s.put i (σ.remove (it.owner, w)) { t with pc := .cleanup j })
        else none
      | _, _ => some (s.goto i (.cleanup j))
  | .unborn | .idle | .draw | .committed | .aborted => none

end State

/-- The transaction is at work. -/
def Pc.running {ι : Type} : Pc ι → Bool
  | .unborn | .committed | .aborted => false
  | _ => true

section

variable {M : Masstree} {ι : Type} [DecidableEq ι] [Fintype ι]

/-- One step of the leader, whose transaction `i` runs on the thread `thread i`. A thread starts a
transaction when the one before is over. -/
def step (thread : ι → ℕ) (epoch : ℕ) (s : State M ι) : Act ι → Option (State M ι)
  | .start i =>
    match (s.txns i).pc with
    | .unborn =>
      if ∀ j, (s.txns j).pc.running → thread j ≠ thread i then some (s.goto i .idle) else none
    | _ => none
  | .call i c =>
    match (s.txns i).pc with
    | .idle => some (s.call i c)
    | _ => none
  | .go i => s.go i (thread i)
  | .stop i =>
    match (s.txns i).pc with
    | .scan d table lo hi _ rows entries next => s.scanRow i true d table lo hi rows entries next
    | _ => none
  | .visit i =>
    match (s.txns i).pc with
    | .scan d table lo hi pos rows _ _ => some (s.visitLeaf i d table lo hi pos rows)
    | _ => none
  | .giveUp i =>
    match (s.txns i).pc with
    | .idle => some (s.setTxn i (s.txns i).abort)
    | _ => none
  | .commit i =>
    match (s.txns i).pc with
    | .idle => some (s.goto i (.lock 0))
    | _ => none
  | .fail i =>
    match (s.txns i).pc with
    | .lock j =>
      match (s.txns i).items[j]? with
      | some it =>
        match it.ref, it.wdata with
        | .elem e, some _ =>
          if (s.store.heap e).word.lock.isSome then some (s.setTxn i (s.txns i).fail) else none
        | _, _ => none
      | none => none
    | _ => none
  | .draw i r =>
    match (s.txns i).pc with
    | .draw =>
      if s.clock < r then
        some (({ s with clock := r }.setTxn i
          { s.txns i with
            pc := .unlock true (s.txns i).items.length, cid := some (commitId r epoch) }).record
          (.drew i))
      else none
    | _ => none

/-- The leader with the tables of `σ`. -/
def leader (thread : ι → ℕ) (epoch : ℕ) (σ : Store M ι) : Lts.System (State M ι) (Act ι) where
  init := { store := σ }
  step := step thread epoch

end

end Rolis.Sto.Occ
