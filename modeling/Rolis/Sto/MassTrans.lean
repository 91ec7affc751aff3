import Rolis.Lib.OrdMap
import Rolis.Sto.Log

/-!
# Transactional tables

`MassTrans` over `versioned_str_struct` with the transaction set of `Transaction`, in the build
that the makefile makes: `READ_MY_WRITES` is 0 and `Opacity` is `false`. A table maps keys to the
addresses of elements; an element has a version word, a value and room for values up to its
capacity. A transaction collects items, one for each element it touches, and `tryCommit` checks
what it read, installs what it wrote and hands the writes to `serialize_util`.

A commit is one step here and nobody else holds a lock, so the lock bits are left out; so are the
versions of tree nodes, which only a lookup that finds nothing reads.
-/

namespace Rolis.Sto

/-! ## Elements -/

/-- The version word of an element: its counter and `invalid_bit`. -/
structure Version where
  count : ℕ := 0
  invalid : Bool := false
deriving DecidableEq, Repr

/-- `versioned_str_struct`. -/
structure Elem where
  version : Version := {}
  value : Bytes := []
  capacity : ℕ := 0
deriving DecidableEq, Repr

/-- `pad`: small sizes go up to a multiple of 16, large ones to a power of two. -/
def pad (v : ℕ) : ℕ :=
  if v ≤ 512 then (v + 15) / 16 * 16
  else
    let v := v - 1
    let v := v ||| v >>> 1
    let v := v ||| v >>> 2
    let v := v ||| v >>> 4
    let v := v ||| v >>> 8
    let v := v ||| v >>> 16
    v + 1

/-- `sizeof(stuffed_str<uint64_t>)`. -/
def headerSize : ℕ := 16

/-- `size_for`. -/
def sizeFor (len : ℕ) : ℕ := pad (len + headerSize)

/-- The capacity of an element that is allocated for `len` bytes. -/
def capacityFor (len : ℕ) : ℕ := sizeFor len - headerSize

namespace Elem

/-- `versioned_value::make(value, invalid_bit)`. -/
def make (value : Bytes) : Elem := ⟨{ invalid := true }, value, capacityFor value.length⟩

/-- `needsResize`. -/
def needsResize (e : Elem) (value : Bytes) : Bool := e.capacity < value.length

/-- `resizeIfNeeded` when there is need: a copy with room for the new value. -/
def resize (e : Elem) (value : Bytes) : Elem := { e with capacity := capacityFor value.length }

/-- Set or clear `invalid_bit`. -/
def setInvalid (e : Elem) (invalid : Bool) : Elem :=
  { e with version := { e.version with invalid := invalid } }

/-- `set_value` and `inc_nonopaque_version`, for fewer than `2 ^ 52` writes of one element: then the
counter comes round. -/
def write (e : Elem) (value : Bytes) : Elem :=
  { e with version := { e.version with count := e.version.count + 1 }, value := value }

end Elem

/-! ## Tables -/

/-- The memory of a process: for each table id the addresses of the elements in key order, the
elements, and the first address that was never used. -/
structure Mem where
  tree : ℕ → List (Bytes × ℕ) := fun _ => []
  heap : ℕ → Elem := fun _ => {}
  next : ℕ := 0

namespace Mem

/-- `find_unlocked`, `find_locked`: the element of a key. -/
def find (m : Mem) (table : ℕ) (key : Bytes) : Option ℕ := OrdMap.lookup key (m.tree table)

/-- Point a key to an element. -/
def link (m : Mem) (table : ℕ) (key : Bytes) (e : ℕ) : Mem :=
  { m with tree := Function.update m.tree table (OrdMap.insert key e (m.tree table)) }

/-- Change an element. -/
def set (m : Mem) (e : ℕ) (x : Elem) : Mem := { m with heap := Function.update m.heap e x }

/-- Put a new element at the next address and point a key to it. -/
def alloc (m : Mem) (table : ℕ) (key : Bytes) (x : Elem) : Mem :=
  { (m.set m.next x).link table key m.next with next := m.next + 1 }

/-- `remove`, with the `assert(success)` of its callers. -/
def remove (m : Mem) (table : ℕ) (key : Bytes) : Option Mem :=
  (m.find table key).map fun _ =>
    { m with tree := Function.update m.tree table (OrdMap.erase key (m.tree table)) }

end Mem

/-! ## Transactions -/

/-- A `TransItem` of an element: `rdata_` if it has a read, `wdata_` if it has a write. -/
structure TransItem where
  owner : ℕ
  key : ℕ
  rdata : Option Version := none
  wdata : Option Bytes := none
  hasInsert : Bool := false
  hasDelete : Bool := false
  extra : Bytes := []
deriving DecidableEq, Repr

namespace TransItem

/-- `observe`: the first version that is observed stays. -/
def observe (it : TransItem) (v : Version) : TransItem :=
  { it with rdata := some (it.rdata.getD v) }

/-- `validityCheck`. -/
def validityCheck (it : TransItem) (e : Elem) : Bool := !e.version.invalid || it.hasInsert

/-- `check`, on an item that has a read. -/
def check (it : TransItem) (m : Mem) : Bool :=
  match it.rdata with
  | none => true
  | some v => it.validityCheck (m.heap it.key) && (m.heap it.key).version == v

/-- `install` of the write `w`; `none` is a failed `assert`. -/
def install (it : TransItem) (w : Bytes) (m : Mem) : Option Mem :=
  let e := m.heap it.key
  if it.hasDelete then
    -- inserted by the same transaction: the element has never been valid
    if it.hasInsert then m.remove it.owner w
    else if e.version.invalid then none
    else (m.set it.key (e.setInvalid true)).remove it.owner w
  else if it.hasInsert then some (m.set it.key (e.setInvalid false))
  else if e.needsResize w then none
  else some (m.set it.key (e.write w))

/-- `cleanup` after an abort. -/
def cleanup (it : TransItem) (w : Bytes) (m : Mem) : Option Mem :=
  if it.hasInsert then m.remove it.owner w else some m

/-- What `serialize_util` reads of an item. -/
def writeItem (it : TransItem) (w : Bytes) (m : Mem) : WriteItem where
  hasInsertOp := it.hasInsert
  hasDeleteOp := it.hasDelete
  writeValue := w
  extra := it.extra
  value := (m.heap it.key).value
  identity := it.owner

end TransItem

/-- The items of the transaction set that have a write, with what they write. -/
def writes (items : List TransItem) : List (TransItem × Bytes) :=
  items.filterMap fun it => it.wdata.map (it, ·)

/-- Put an item in the place of the item of the same element, or behind all others. -/
def setItem (it : TransItem) : List TransItem → List TransItem
  | [] => [it]
  | it' :: items =>
    if it'.owner = it.owner ∧ it'.key = it.key then it :: items else it' :: setItem it items

/-- A transaction in progress: the memory and its `tset_`. -/
structure Transaction where
  mem : Mem := {}
  items : List TransItem := []

namespace Transaction

/-- `Sto::item`: the item of an element, or a new one. -/
def item (t : Transaction) (table e : ℕ) : TransItem :=
  (t.items.find? fun it => it.owner = table ∧ it.key = e).getD
    ⟨table, e, none, none, false, false, []⟩

/-- `reallyHandlePutFound`, with the item in the transaction set as `it`. Each operation answers
`.error` where it throws `Transaction::Abort`. -/
def reallyHandlePutFound (t : Transaction) (it : TransItem) (key value : Bytes) :
    Except Transaction Transaction :=
  let e := t.mem.heap it.key
  if e.needsResize value then
    if it.hasInsert then
      -- the copy of an element that is not valid yet stays invalid
      .ok ⟨t.mem.alloc it.owner key (e.resize value),
        t.items ++ [⟨it.owner, t.mem.next, none, some value, false, false, key⟩]⟩
    else if e.version.invalid then .error t
    else
      -- `e` stays invalid, its copy takes its place in the tree
      .ok ⟨(t.mem.set it.key (e.setInvalid true)).alloc it.owner key (e.resize value),
        t.items ++ [⟨it.owner, t.mem.next, none, some value, false, false, key⟩]⟩
  else .ok { t with items := setItem { it with wdata := some value, extra := key } t.items }

/-- `handlePutFound<INSERT, SET>`. -/
def handlePutFound (set : Bool) (t : Transaction) (table e : ℕ) (key value : Bytes) :
    Except Transaction Transaction :=
  let it := t.item table e
  if it.validityCheck (t.mem.heap e) then
    let it := it.observe (t.mem.heap e).version
    let t := { t with items := setItem it t.items }
    if set then t.reallyHandlePutFound it key value else .ok t
  else .error { t with items := setItem it t.items }

/-- The part of `trans_write` and `trans_write_mbta` behind a `find_insert` that did not find the
key. Only `trans_write` stores the key in `extra`. -/
def insertNew (t : Transaction) (table : ℕ) (key value extra : Bytes) : Transaction :=
  ⟨t.mem.alloc table key (Elem.make value),
    t.items ++ [⟨table, t.mem.next, none, some key, true, false, extra⟩]⟩

/-- `trans_write<true, SET>`: `transPut` if `set`, otherwise `transInsert`. With nobody else at
work the unlocked lookup and `find_insert` find the same. -/
def transWrite (set : Bool) (t : Transaction) (table : ℕ) (key value : Bytes) :
    Except Transaction Transaction :=
  match t.mem.find table key with
  | some e => t.handlePutFound set table e key value
  | none => .ok (t.insertNew table key value key)

/-- `transPut`. -/
def transPut := transWrite true

/-- `transInsert`. -/
def transInsert := transWrite false

/-- `transDelete`. -/
def transDelete (t : Transaction) (table : ℕ) (key : Bytes) : Except Transaction Transaction :=
  match t.mem.find table key with
  | some e =>
    let it := { t.item table e with extra := key }
    let v := (t.mem.heap e).version
    if v.invalid then .error { t with items := setItem it t.items }
    else
      let it := { it.observe v with wdata := some key, hasDelete := true }
      .ok { t with items := setItem it t.items }
  -- only the version of the tree node is observed
  | none => .ok t

/-- `transPutMbta` on the tables of a follower that nobody else uses. -/
def transPutMbta (compar : Bytes → Bytes → Bool) (t : Transaction) (table : ℕ)
    (key value : Bytes) : Except Transaction Transaction :=
  match t.mem.find table key with
  | some e =>
    if compar value (t.mem.heap e).value then t.handlePutFound true table e key value else .ok t
  | none => .ok (t.insertNew table key value [])

/-- `stop(false, …)`: undo the inserts, the last one first. -/
def abort (t : Transaction) : Option Mem :=
  (writes t.items).reverse.foldlM (fun m (it, w) => it.cleanup w m) t.mem

/-- Phase 2 of `try_commit`: all versions that were read are still there. -/
def validate (t : Transaction) : Bool := t.items.all fun it => it.check t.mem

/-- Phase 3 of `try_commit`. -/
def installAll (t : Transaction) : Option Mem :=
  (writes t.items).foldlM (fun m (it, w) => it.install w m) t.mem

/-- `try_commit`: the memory afterwards and, if the transaction committed, what `serialize_util`
reads. -/
def tryCommit (t : Transaction) : Option (Mem × Option (List WriteItem)) :=
  if t.validate then
    t.installAll.map fun m => (m, some ((writes t.items).map fun (it, w) => it.writeItem w m))
  else t.abort.map (·, none)

end Transaction

/-! ## Reading -/

namespace Mem

/-- `transGet` in a transaction of its own: `none` if it aborts, otherwise what it finds. -/
def transGet (m : Mem) (table : ℕ) (key : Bytes) : Option (Option Bytes) :=
  match m.find table key with
  | some e => if (m.heap e).version.invalid then none else some (some (m.heap e).value)
  | none => some none

/-- The bounds of `transQuery`; an empty upper bound is none. -/
def inRange (lo hi key : Bytes) : Bool := lo ≤ key && (hi.isEmpty || key < hi)

/-- `transQuery` in a transaction of its own: the keys and values its callback sees. An invalid
element is read, and fails the check of the commit. -/
def transQuery (m : Mem) (table : ℕ) (lo hi : Bytes) : Option (List (Bytes × Bytes)) :=
  let found := (m.tree table).filter fun e => inRange lo hi e.1
  if found.any fun e => (m.heap e.2).version.invalid then none
  else some (found.map fun e => (e.1, (m.heap e.2).value))

end Mem

end Rolis.Sto
