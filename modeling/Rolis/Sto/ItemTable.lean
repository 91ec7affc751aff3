import Mathlib.Algebra.Ring.Nat
import Rolis.Lib.Lts

/-!
# Finding the items of a transaction

A `Transaction` keeps its items in an array and the place of the first item of each hash in a table
of 16-bit numbers. The table is not cleared between transactions. Instead the numbers count from
`hash_base_`, which moves past the items of each transaction when the next one starts; what is not
above the base is old. When the base has gone past 32767 the table is cleared and the base is 0
again.

The base is a 16-bit number too. A transaction that starts at 32767 and adds all 32768 items moves
it to 65536, which is 0, and the table is not cleared.
-/

namespace Rolis.Sto.ItemTable

open Function Lts Option

/-! ## The table -/

/-- An item, as far as it is searched for: the 48 bits that it keeps of the address of its owner,
and its key. -/
structure Item where
  owner : BitVec 48
  key : BitVec 64
deriving DecidableEq, Repr

/-- `Transaction::hash`. -/
def Item.hash (it : Item) : ℕ :=
  let n := it.key + 0x4000000#64
  let n := n + if n < 0x8000000#64 then it.owner.setWidth 64 >>> 4 else 0#64
  ((n + (n >>> 16) * 9#64) % 1024#64).toNat

/-- `tset_max_capacity`. -/
def tsetMaxCapacity : ℕ := 32768

/-- The fields of `Transaction` that the search uses. A place of the array that no item was written
to is `none`. -/
structure Transaction where
  hashBase : ℕ
  tsetSize : ℕ
  hashtable : ℕ → ℕ
  tset : ℕ → Option Item
  anyWrites : Bool

namespace Transaction

variable (s : Transaction) (it : Item)

/-- `Transaction::initialize`, which leaves the table as it is in memory. -/
def initialized (hashtable : ℕ → ℕ) : Transaction := ⟨32768, 0, hashtable, fun _ => none, false⟩

/-- `Transaction::start`. -/
def start : Transaction :=
  let hashBase := (s.hashBase + (s.tsetSize + 1)) % 2 ^ 16
  let s := { s with hashBase := hashBase, tsetSize := 0, anyWrites := false }
  if 32768 ≤ hashBase then { s with hashtable := fun _ => 0, hashBase := 0 } else s

/-- `Transaction::allocate_item`. It asserts that the array is not full. -/
def allocateItem : Option Transaction :=
  if tsetMaxCapacity ≤ s.tsetSize then none
  else
    let tsetSize := s.tsetSize + 1
    let hi := it.hash
    some { s with
      tsetSize := tsetSize
      tset := update s.tset s.tsetSize (some it)
      hashtable :=
        if s.hashtable hi ≤ s.hashBase then
          update s.hashtable hi ((s.hashBase + tsetSize) % 2 ^ 16)
        else s.hashtable }

/-- The search through the array, `left` items from `tidx` on. -/
def search : ℕ → ℕ → Option (Option ℕ)
  | 0, _ => some none
  | left + 1, tidx =>
    match s.tset tidx with
    | none => none
    | some ti => if ti = it then some (some tidx) else search left (tidx + 1)

/-- `Transaction::find_item`: the place of the item, or `some none` for a null pointer. The outer
`none` is a read of a place where there is no item. -/
def findItem : Option (Option ℕ) :=
  let hi := it.hash
  if s.hashtable hi ≤ s.hashBase then some none
  else
    let tidx := s.hashtable hi - s.hashBase - 1
    match s.tset tidx with
    | none => none
    | some ti => if ti = it then some (some tidx) else s.search it s.tsetSize 0

/-- `Transaction::item`. -/
def item : Option Transaction :=
  match s.findItem it with
  | none => none
  | some (some _) => some s
  | some none => s.allocateItem it

/-- `Transaction::read_item`. -/
def readItem : Option Transaction := if s.anyWrites then s.item it else s.allocateItem it

/-- `TransProxy::add_write`. -/
def addWrite : Transaction := { s with anyWrites := true }

end Transaction

/-- What is done with a transaction. `new_item` and `fresh_item` both add an item unseen. -/
inductive Action
  | start
  | newItem (it : Item)
  | freshItem (it : Item)
  | item (it : Item)
  | readItem (it : Item)
  | addWrite
deriving DecidableEq, Repr

/-- One step. -/
def step (s : Transaction) : Action → Option Transaction
  | .start => some s.start
  | .newItem it => s.allocateItem it
  | .freshItem it => s.allocateItem it
  | .item it => s.item it
  | .readItem it => s.readItem it
  | .addWrite => some s.addWrite

/-- A transaction object from its first `start` on, whatever the table had in it. -/
def transactions (hashtable : ℕ → ℕ) : System Transaction Action where
  init := (Transaction.initialized hashtable).start
  step := step

/-! ## Exact search -/

namespace Transaction

/-- The first place of an item. -/
def IsFirst (s : Transaction) (it : Item) (i : ℕ) : Prop :=
  i < s.tsetSize ∧ s.tset i = some it ∧ ∀ j < i, s.tset j ≠ some it

/-- The item is not in the transaction. -/
def Absent (s : Transaction) (it : Item) : Prop := ∀ i < s.tsetSize, s.tset i ≠ some it

/-- The search finds the first item with an owner and a key, and nothing if there is none. -/
def SearchExact (s : Transaction) : Prop :=
  ∀ it, (∃ i, s.findItem it = some (some i) ∧ s.IsFirst it i) ∨
    (s.findItem it = some none ∧ s.Absent it)

end Transaction

/-- The search is exact at the first start and after every step of a list. -/
def SearchedExactly (hashtable : ℕ → ℕ) (as : List Action) : Prop :=
  (transactions hashtable).init.SearchExact ∧
    Along (transactions hashtable) (fun _ _ t => t.SearchExact) (transactions hashtable).init as

/-- The next transaction does not start behind one that started at the last base and filled the
array. -/
def Action.Spared (s : Transaction) : Action → Prop
  | .start => ¬(s.hashBase = 32767 ∧ s.tsetSize = tsetMaxCapacity)
  | _ => True

/-! ## What the table says -/

/-- A slot of the table says that there is no item of the hash, or where the first one is. -/
inductive SlotOk (s : Transaction) (h : ℕ) : Prop
  | empty (hslot : s.hashtable h ≤ s.hashBase)
      (hnone : ∀ i < s.tsetSize, ∀ it, s.tset i = some it → it.hash ≠ h)
  | first (i : ℕ) (it : Item) (hi : i < s.tsetSize) (hslot : s.hashtable h = s.hashBase + i + 1)
      (hit : s.tset i = some it) (hash : it.hash = h)
      (hfirst : ∀ j < i, ∀ it', s.tset j = some it' → it'.hash ≠ h)

/-- What every step keeps, but a start that is not spared. -/
structure Ok (s : Transaction) : Prop where
  base_lt : s.hashBase < 32768
  size_le : s.tsetSize ≤ tsetMaxCapacity
  present : ∀ i < s.tsetSize, ∃ it, s.tset i = some it
  beyond : ∀ i, tsetMaxCapacity ≤ i → s.tset i = none
  slots : ∀ h, SlotOk s h

namespace Ok

variable {s t : Transaction} {it : Item}

lemma slot_le (h : Ok s) (hi : ℕ) : s.hashtable hi ≤ s.hashBase + s.tsetSize := by
  cases h.slots hi with
  | empty hslot _ | first i _ hlt hslot _ _ _ => omega

/-! ### The search -/

/-- The search through the array from a place on, when there is no match before it. -/
lemma search_spec (h : Ok s) (left tidx : ℕ) (hsum : tidx + left = s.tsetSize)
    (hbefore : ∀ j < tidx, s.tset j ≠ some it) :
    (∃ i, s.search it left tidx = some (some i) ∧ s.IsFirst it i) ∨
      (s.search it left tidx = some none ∧ s.Absent it) := by
  -- the loop has passed the items before `tidx`, and none of them was the one that is looked for
  induction left generalizing tidx with
  | zero =>
    right
    refine ⟨rfl, ?_⟩
    intro i hi
    apply hbefore
    omega
  | succ left ih =>
    have hlt : tidx < s.tsetSize := by omega
    obtain ⟨ti, hti⟩ := h.present tidx hlt
    rw [Transaction.search, hti]
    by_cases heq : ti = it
    · left
      subst heq
      exact ⟨tidx, by simp only [if_true], hlt, hti, hbefore⟩
    · simp only [heq, if_false]
      apply ih (tidx + 1) (by omega)
      intro j hj
      by_cases hjt : j = tidx
      · rw [hjt, hti]
        simpa using heq
      · exact hbefore j (by omega)

lemma searchExact (h : Ok s) : s.SearchExact := by
  intro it
  unfold Transaction.findItem
  cases h.slots it.hash with
  | empty hslot hnone =>
    right
    refine ⟨if_pos hslot, ?_⟩
    intro i hi heq
    exact hnone i hi it heq rfl
  | first i ti hi hslot hti hhash hfirst =>
    have hbase : ¬s.hashtable it.hash ≤ s.hashBase := by omega
    have hidx : s.hashtable it.hash - s.hashBase - 1 = i := by omega
    simp only [if_neg hbase, hidx, hti]
    by_cases heq : ti = it
    · left
      refine ⟨i, by simp only [heq, if_true], hi, heq ▸ hti, ?_⟩
      -- an equal item before it would have the same hash
      intro j hj hjt
      exact hfirst j hj it hjt rfl
    · simp only [heq, if_false]
      exact h.search_spec s.tsetSize 0 (Nat.zero_add _) (by simp)

/-! ### The steps -/

/-- A table that has nothing above the base, and no items. -/
lemma of_empty (hbase : s.hashBase < 32768) (hsize : s.tsetSize = 0)
    (hbeyond : ∀ i, tsetMaxCapacity ≤ i → s.tset i = none)
    (hslots : ∀ h, s.hashtable h ≤ s.hashBase) : Ok s where
  base_lt := hbase
  size_le := by omega
  present := by
    intro i hi
    omega
  beyond := hbeyond
  slots := by
    intro h
    refine .empty (hslots h) ?_
    intro i hi
    omega

end Ok

/-- What `allocate_item` does when the array is not full. -/
structure Added (s : Transaction) (it : Item) (t : Transaction) : Prop where
  room : s.tsetSize < tsetMaxCapacity
  base : t.hashBase = s.hashBase
  size : t.tsetSize = s.tsetSize + 1
  items : t.tset = update s.tset s.tsetSize (some it)
  table : t.hashtable =
    if s.hashtable it.hash ≤ s.hashBase then
      update s.hashtable it.hash ((s.hashBase + (s.tsetSize + 1)) % 2 ^ 16)
    else s.hashtable

namespace Added

variable {s t : Transaction} {it : Item} {h : ℕ}

lemma of_allocateItem (halloc : s.allocateItem it = some t) : Added s it t := by
  unfold Transaction.allocateItem at halloc
  split at halloc
  · simp at halloc
  next hroom =>
  rw [some.injEq] at halloc
  subst halloc
  exact ⟨by omega, rfl, rfl, rfl, rfl⟩

section

variable (ha : Added s it t)

include ha

lemma old {i : ℕ} (hi : i ≠ s.tsetSize) : t.tset i = s.tset i := by
  rw [ha.items]
  exact update_of_ne hi _ _

lemma new : t.tset s.tsetSize = some it := by
  rw [ha.items]
  exact update_self _ _ _

/-- A slot of another hash, and one that is taken, stays. -/
lemma slot_same (hkeep : h ≠ it.hash ∨ s.hashBase < s.hashtable h) :
    t.hashtable h = s.hashtable h := by
  rw [ha.table]
  split
  · next hle =>
    apply update_of_ne
    rintro rfl
    omega
  · rfl

/-- The first item of a hash takes the slot. -/
lemma slot_first (hbase : s.hashBase < 32768) (hempty : s.hashtable it.hash ≤ s.hashBase) :
    t.hashtable it.hash = s.hashBase + s.tsetSize + 1 := by
  have hroom := ha.room
  unfold tsetMaxCapacity at hroom
  rw [ha.table, if_pos hempty, update_self]
  -- the number fits into 16 bits
  omega

lemma slotOk (hbase : s.hashBase < 32768) (hs : SlotOk s h) : SlotOk t h := by
  have hb := ha.base
  have hsize := ha.size
  cases hs with
  | first i ti hi hslot hti hhash hfirst =>
    -- a taken slot keeps naming the first item of its hash
    have hsame := ha.slot_same (h := h) (.inr (by omega))
    refine .first i ti (by omega) (by omega) (by rw [ha.old (by omega), hti]) hhash ?_
    intro j hj it' hj'
    rw [ha.old (by omega)] at hj'
    exact hfirst j hj it' hj'
  | empty hslot hnone =>
    by_cases heq : h = it.hash
    · -- no item before the new one has its hash
      subst heq
      have hfirst := ha.slot_first hbase hslot
      refine .first s.tsetSize it (by omega) (by omega) ha.new rfl ?_
      intro j hj it' hj'
      rw [ha.old (by omega)] at hj'
      exact hnone j hj it' hj'
    · have hsame := ha.slot_same (h := h) (.inl heq)
      refine .empty (by omega) ?_
      intro i hi it' hi'
      by_cases hlast : i = s.tsetSize
      · subst hlast
        rw [ha.new, some.injEq] at hi'
        rw [← hi']
        exact fun he => heq he.symm
      · rw [ha.old hlast] at hi'
        exact hnone i (by omega) it' hi'

lemma ok (h : Ok s) : Ok t := by
  have hb := ha.base
  have hsize := ha.size
  have hroom := ha.room
  have hbase := h.base_lt
  refine ⟨by omega, by omega, ?_, ?_, fun hash => ha.slotOk hbase (h.slots hash)⟩
  · intro i hi
    by_cases hlast : i = s.tsetSize
    · exact ⟨it, hlast ▸ ha.new⟩
    · rw [ha.old hlast]
      exact h.present i (by omega)
  · intro i hi
    rw [ha.old (by omega)]
    exact h.beyond i hi

end

end Added

/-- A step starts a transaction, adds an item, or leaves the items and the table. -/
lemma step_cases {s t : Transaction} {a : Action} (h : step s a = some t) :
    (a = .start ∧ t = s.start) ∨ (a ≠ .start ∧ ∃ it, Added s it t) ∨
      (a ≠ .start ∧ (t = s ∨ t = s.addWrite)) := by
  have hitem : ∀ it, s.item it = some t → (∃ it, Added s it t) ∨ t = s := by
    intro it hit
    unfold Transaction.item at hit
    split at hit
    · simp at hit
    · rw [some.injEq] at hit
      exact .inr hit.symm
    · exact .inl ⟨it, .of_allocateItem hit⟩
  cases a with
  | start =>
    rw [step, some.injEq] at h
    exact .inl ⟨rfl, h.symm⟩
  | newItem it | freshItem it => exact .inr (.inl ⟨by simp, it, .of_allocateItem h⟩)
  | item it =>
    cases hitem it h with
    | inl hadd => exact .inr (.inl ⟨by simp, hadd⟩)
    | inr hsame => exact .inr (.inr ⟨by simp, .inl hsame⟩)
  | readItem it =>
    rw [step, Transaction.readItem] at h
    split at h
    · cases hitem it h with
      | inl hadd => exact .inr (.inl ⟨by simp, hadd⟩)
      | inr hsame => exact .inr (.inr ⟨by simp, .inl hsame⟩)
    · exact .inr (.inl ⟨by simp, it, .of_allocateItem h⟩)
  | addWrite =>
    rw [step, some.injEq] at h
    exact .inr (.inr ⟨by simp, .inr h.symm⟩)

namespace Ok

variable {s t : Transaction} {a : Action}

lemma addWrite (h : Ok s) : Ok s.addWrite where
  base_lt := h.base_lt
  size_le := h.size_le
  present := h.present
  beyond := h.beyond
  slots := by
    intro hash
    cases h.slots hash with
    | empty hslot hnone => exact .empty hslot hnone
    | first i it hi hslot hit hhash hfirst => exact .first i it hi hslot hit hhash hfirst

/-- A start whose base does not wrap around leaves nothing above it. -/
lemma start (h : Ok s) (hspared : Action.start.Spared s) : Ok s.start := by
  have hbase := h.base_lt
  have hsize := h.size_le
  unfold Action.Spared at hspared
  unfold tsetMaxCapacity at hspared hsize
  -- only a full transaction at the last base gets to `2 ^ 16`
  have hsum : (s.hashBase + (s.tsetSize + 1)) % 2 ^ 16 = s.hashBase + (s.tsetSize + 1) := by
    omega
  unfold Transaction.start
  dsimp only
  rw [hsum]
  split
  · exact .of_empty (by simp) rfl h.beyond (by simp)
  · next hlt =>
    refine .of_empty ?_ rfl h.beyond ?_
    · change s.hashBase + (s.tsetSize + 1) < 32768
      omega
    · intro hash
      have hle := h.slot_le hash
      change s.hashtable hash ≤ s.hashBase + (s.tsetSize + 1)
      omega

lemma step (h : Ok s) (hstep : ItemTable.step s a = some t) (hspared : a.Spared s) : Ok t := by
  obtain ⟨rfl, rfl⟩ | ⟨-, it, hadd⟩ | ⟨-, rfl | rfl⟩ := step_cases hstep
  · exact h.start hspared
  · exact hadd.ok h
  · exact h
  · exact h.addWrite

lemma init (hashtable : ℕ → ℕ) : Ok (transactions hashtable).init := by
  apply of_empty
  · show 0 < 32768
    omega
  · rfl
  · intro i _
    rfl
  · intro h
    show 0 ≤ 0
    omega

/-- A full transaction that started at the last base moves the base to 0 and the table stays. The
last item then has a slot above the base. -/
lemma not_searchExact_start (h : Ok s) (hbase : s.hashBase = 32767)
    (hsize : s.tsetSize = tsetMaxCapacity) : ¬s.start.SearchExact := by
  unfold tsetMaxCapacity at hsize
  obtain ⟨it, hit⟩ := h.present 32767 (by omega)
  have hstart : s.start = { s with hashBase := 0, tsetSize := 0, anyWrites := false } := by
    unfold Transaction.start
    rw [hbase, hsize]
    rfl
  intro hexact
  cases h.slots it.hash with
  | empty _ hnone => exact hnone 32767 (by omega) it hit rfl
  | first i ti hi hslot hti hhash hfirst =>
    have hfind : s.start.findItem it ≠ some none := by
      rw [hstart]
      unfold Transaction.findItem
      have htidx : s.hashtable it.hash - 0 - 1 = 32767 + i := by omega
      simp only [htidx, show ¬s.hashtable it.hash ≤ 0 by omega, if_false]
      by_cases hzero : i = 0
      · -- the slot leads to the last place
        subst hzero
        simp [hit]
      · -- the slot leads behind the array
        rw [h.beyond _ (by unfold tsetMaxCapacity; omega)]
        simp
    obtain ⟨j, _, hj, _⟩ | ⟨hnone, _⟩ := hexact it
    · rw [hstart] at hj
      exact absurd hj (Nat.not_lt_zero j)
    · exact hfind hnone

/-- After a step the search is exact just if the step was spared. -/
lemma searchExact_iff (h : Ok s) (hstep : ItemTable.step s a = some t) :
    t.SearchExact ↔ a.Spared s := by
  constructor
  · intro hexact
    cases a with
    | start =>
      rw [ItemTable.step, some.injEq] at hstep
      intro hlast
      exact h.not_searchExact_start hlast.1 hlast.2 (hstep ▸ hexact)
    | _ => trivial
  · intro hspared
    exact (h.step hstep hspared).searchExact

end Ok

/-! ## Whole runs -/

/-- Through any transactions the search is exact just if none of them starts behind a full one that
started at the last base. -/
theorem searchedExactly_iff (hashtable : ℕ → ℕ) (as : List Action) :
    SearchedExactly hashtable as ↔
      Along (transactions hashtable) (fun s a _ => a.Spared s)
        (transactions hashtable).init as := by
  unfold SearchedExactly
  rw [and_iff_right (Ok.init hashtable).searchExact]
  apply along_iff Ok
  · intro s a t h hstep
    exact h.searchExact_iff hstep
  · intro s a t h hstep hspared
    exact h.step hstep hspared
  · exact Ok.init hashtable

/-- As many items with one owner and key as are asked for. -/
lemma exec_freshItem (hashtable : ℕ → ℕ) (it : Item) (n : ℕ) {s : Transaction} (h : Ok s)
    (hroom : s.tsetSize + n ≤ tsetMaxCapacity) :
    ∃ t, exec (transactions hashtable) s (List.replicate n (.freshItem it)) = some t ∧
      Run (transactions hashtable) (fun s a => a.Spared s) s t ∧
      Ok t ∧ t.hashBase = s.hashBase ∧ t.tsetSize = s.tsetSize + n := by
  induction n generalizing s with
  | zero => exact ⟨s, rfl, .refl, h, rfl, rfl⟩
  | succ n ih =>
    have hnot : ¬tsetMaxCapacity ≤ s.tsetSize := by omega
    obtain ⟨r, hr⟩ : ∃ r, s.allocateItem it = some r := by
      unfold Transaction.allocateItem
      exact ⟨_, if_neg hnot⟩
    have hadd := Added.of_allocateItem hr
    have hsize := hadd.size
    obtain ⟨t, hexec, hrun, hok, hbase, ht⟩ := ih (hadd.ok h) (by omega)
    refine ⟨t, ?_, (Run.single (a := .freshItem it) trivial hr).trans hrun, hok,
      hbase.trans hadd.base, by omega⟩
    rw [List.replicate_succ, exec]
    change (s.allocateItem it).bind _ = _
    rw [hr]
    exact hexec

/-- In runs that spare the array, items can be added, found and read until there are 32768. -/
theorem full_of_refused (hashtable : ℕ → ℕ) {s : Transaction} {a : Action}
    (hrun : Run (transactions hashtable) (fun s a => a.Spared s) (transactions hashtable).init s)
    (hstep : step s a = none) : s.tsetSize = tsetMaxCapacity := by
  have h : Ok s :=
    hrun.invariant Ok (fun _ _ _ h hspared hs => h.step hs hspared) (Ok.init hashtable)
  have halloc : ∀ it, s.allocateItem it = none → s.tsetSize = tsetMaxCapacity := by
    intro it hnone
    unfold Transaction.allocateItem at hnone
    split at hnone
    · next hfull => exact Nat.le_antisymm h.size_le hfull
    · simp at hnone
  have hitem : ∀ it, s.item it = none → s.tsetSize = tsetMaxCapacity := by
    intro it hnone
    unfold Transaction.item at hnone
    obtain ⟨i, hfind, _⟩ | ⟨hfind, _⟩ := h.searchExact it
    · simp [hfind] at hnone
    · rw [hfind] at hnone
      exact halloc it hnone
  cases a with
  | start => simp [step] at hstep
  | newItem it => exact halloc it hstep
  | freshItem it => exact halloc it hstep
  | item it => exact hitem it hstep
  | readItem it =>
    rw [step, Transaction.readItem] at hstep
    split at hstep
    · exact hitem it hstep
    · exact halloc it hstep
  | addWrite => simp [step] at hstep

/-- 32768 items with one key. -/
theorem full_of_refused_freshItem :
    ∃ s, step s (.freshItem ⟨0x1000, 1⟩) = none ∧ s.tsetSize = tsetMaxCapacity := by
  obtain ⟨s, -, hrun, -, -, hsize⟩ :=
    exec_freshItem (fun _ => 0) ⟨0x1000, 1⟩ 32768 (Ok.init _) (Nat.le_refl 32768)
  have hstep : step s (.freshItem ⟨0x1000, 1⟩) = none := if_pos hsize.ge
  exact ⟨s, hstep, full_of_refused _ hrun hstep⟩

/-- A transaction of 32766 items and one of 32768 items. -/
def twoTransactions (it : Item) : List Action :=
  List.replicate 32766 (.freshItem it) ++ .start :: List.replicate 32768 (.freshItem it)

/-- The two transactions leave a full array behind the last base. -/
lemma exec_twoTransactions (hashtable : ℕ → ℕ) (it : Item) :
    ∃ s, exec (transactions hashtable) (transactions hashtable).init (twoTransactions it) = some s ∧
      Ok s ∧ s.hashBase = 32767 ∧ s.tsetSize = tsetMaxCapacity := by
  have hinit := Ok.init hashtable
  have hroom : (transactions hashtable).init.tsetSize + 32766 ≤ tsetMaxCapacity := by
    show 0 + 32766 ≤ 32768
    omega
  obtain ⟨s₁, hexec₁, -, hok₁, hbase₁, hsize₁⟩ := exec_freshItem hashtable it 32766 hinit hroom
  have hsize₁' : s₁.tsetSize = 32766 := by
    rw [hsize₁]
    exact Nat.zero_add _
  have hbase₁' : s₁.hashBase = 0 := hbase₁
  have hspared : Action.start.Spared s₁ := by
    rintro ⟨hlast, -⟩
    omega
  have hstart : s₁.start = { s₁ with hashBase := 32767, tsetSize := 0, anyWrites := false } := by
    unfold Transaction.start
    rw [hbase₁', hsize₁']
    rfl
  have hroom₂ : s₁.start.tsetSize + 32768 ≤ tsetMaxCapacity := by
    rw [hstart]
    show 0 + 32768 ≤ 32768
    omega
  obtain ⟨s₂, hexec₂, -, hok₂, hbase₂, hsize₂⟩ :=
    exec_freshItem hashtable it 32768 (hok₁.start hspared) hroom₂
  rw [hstart] at hbase₂ hsize₂
  refine ⟨s₂, ?_, hok₂, hbase₂, hsize₂.trans (Nat.zero_add _)⟩
  rw [twoTransactions, exec_append, hexec₁, bind_some, exec]
  change (some s₁.start).bind _ = _
  rw [bind_some, hexec₂]

/-- The transaction after these two has no items, and the search is not exact in it. -/
theorem not_searchedExactly_twoTransactions :
    ¬SearchedExactly (fun _ => 0) (twoTransactions ⟨0x1000, 1⟩ ++ [.start]) := by
  rintro ⟨-, halong⟩
  obtain ⟨s, hexec, hok, hbase, hsize⟩ := exec_twoTransactions (fun _ => 0) ⟨0x1000, 1⟩
  exact hok.not_searchExact_start hbase hsize (halong.last _ hexec rfl)

end Rolis.Sto.ItemTable
