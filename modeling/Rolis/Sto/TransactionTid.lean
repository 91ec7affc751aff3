import Rolis.Lib.Packed
import Rolis.Sto.Occ

/-!
# Version words

`TransactionTid`: the lock bit, the id of the thread that holds it, two flags and a counter in one
word of 64 bits. The lower 7 bits are the thread, bit 7 is the lock, bit 8 says that the version was
set without opacity, bit 9 is `invalid_bit` of `MassTrans`, and the counter begins at bit 12.

`holder` and `toVersion` are the two halves of a word that the rest of the development speaks about,
and the lemmas say what each operation does to them.
-/

namespace Rolis.Sto

/-- `TransactionTid::type`. -/
abbrev Tid := BitVec 64

namespace Tid

/-! ## The operations -/

def threadidMask : Tid := 0x7F#64

def lockBit : Tid := 0x80#64

def nonopaqueBit : Tid := 0x100#64

def userBit : Tid := 0x200#64

def incrementValue : Tid := 0x1000#64

/-- The id of a thread. -/
abbrev Thread := Fin 128

/-- The bits of a thread id. -/
def ofThread (here : Thread) : Tid := BitVec.ofNat 64 here

/-- `v & (lock_bit | threadid_mask)`. -/
def holder (v : Tid) : Tid := v &&& (lockBit ||| threadidMask)

/-- `TransactionTid::is_locked`. -/
def isLocked (v : Tid) : Bool := v &&& lockBit ≠ 0#64

/-- `TransactionTid::is_locked_elsewhere`. -/
def isLockedElsewhere (v : Tid) (here : Thread) : Bool :=
  holder v ≠ 0#64 ∧ holder v ≠ lockBit ||| ofThread here

/-- What `TransactionTid::try_lock` takes the word for when it has read `vv`. -/
def expected (vv : Tid) : Tid := vv &&& ~~~lockBit

/-- What `TransactionTid::try_lock` puts in its place. -/
def desired (vv : Tid) (here : Thread) : Tid := vv ||| lockBit ||| ofThread here

/-- `TransactionTid::unlocked`, and what `TransactionTid::unlock` stores. -/
def unlocked (v : Tid) : Tid := v &&& ~~~(lockBit ||| threadidMask)

/-- What `TransactionTid::inc_nonopaque_version` stores. -/
def incNonopaqueVersion (v : Tid) : Tid := (v + incrementValue) ||| nonopaqueBit

/-- `TransactionTid::check_version`. -/
def checkVersion (curVers oldVers : Tid) (here : Thread) : Bool :=
  curVers = oldVers ∨ curVers = oldVers ||| lockBit ||| ofThread here

/-- `MassTrans::invalid_bit`. -/
def invalidBit : Tid := userBit

/-- `v | invalid_bit`. -/
def setInvalid (v : Tid) : Tid := v ||| invalidBit

/-- `v & ~invalid_bit`. -/
def clearInvalid (v : Tid) : Tid := v &&& ~~~invalidBit

/-- `v & invalid_bit`. -/
def isInvalid (v : Tid) : Bool := v &&& invalidBit ≠ 0#64

/-- The version of a word without its lock. -/
def toVersion (v : Tid) : Version := ⟨Packed.count 12 v, isInvalid v⟩

/-! ## Who holds the word -/

variable {v vv cur old : Tid} {here t u : Thread}

lemma holder_or (v w : Tid) : holder (v ||| w) = holder v ||| holder w := by
  unfold holder
  rw [BitVec.and_or_distrib_right]

lemma toNat_lock (here : Thread) : (lockBit ||| ofThread here).toNat = 128 + here := by
  revert here
  decide +kernel

lemma holder_lock (here : Thread) :
    holder (lockBit ||| ofThread here) = lockBit ||| ofThread here := by
  revert here
  decide +kernel

lemma lock_injective (h : lockBit ||| ofThread t = lockBit ||| ofThread u) : t = u := by
  have hnat := congrArg BitVec.toNat h
  rw [toNat_lock, toNat_lock] at hnat
  apply Fin.ext
  omega

lemma holder_desired (h : holder v = 0#64) :
    holder (desired v here) = lockBit ||| ofThread here := by
  rw [desired, BitVec.or_assoc, holder_or, h, holder_lock, BitVec.zero_or]

lemma holder_unlocked (v : Tid) : holder (unlocked v) = 0#64 := by
  unfold holder unlocked
  rw [BitVec.and_assoc, BitVec.and_comm (~~~_), BitVec.and_not_self]
  exact BitVec.and_zero

lemma holder_incNonopaqueVersion (v : Tid) : holder (incNonopaqueVersion v) = holder v := by
  have hadd : holder (v + incrementValue) = holder v :=
    Packed.and_eq_of_flags_eq (k := 12) (Packed.flags_add_twoPow (by decide)) (by decide)
  have hbit : holder nonopaqueBit = 0#64 := by decide
  rw [incNonopaqueVersion, holder_or, hadd, hbit, BitVec.or_zero]

lemma holder_invalidBit : holder invalidBit = 0#64 := by decide

lemma holder_setInvalid (v : Tid) : holder (setInvalid v) = holder v := by
  rw [setInvalid, holder_or, holder_invalidBit, BitVec.or_zero]

lemma holder_clearInvalid (v : Tid) : holder (clearInvalid v) = holder v := by
  have hmask : ~~~invalidBit &&& (lockBit ||| threadidMask) = lockBit ||| threadidMask := by
    decide
  rw [clearInvalid, holder, BitVec.and_assoc, hmask, holder]

lemma and_lockBit (v : Tid) : v &&& lockBit = holder v &&& lockBit := by
  rw [holder, BitVec.and_assoc]
  rfl

/-- A word that nobody holds has no lock and no thread in it. -/
lemma isLocked_of_holder_zero (h : holder v = 0#64) : isLocked v = false := by
  rw [isLocked, and_lockBit, h]
  decide

lemma isLocked_of_holder_lock (h : holder v = lockBit ||| ofThread t) : isLocked v = true := by
  have hlock : (lockBit ||| ofThread t) &&& lockBit = lockBit := by
    clear h
    revert t
    decide +kernel
  rw [isLocked, and_lockBit, h, hlock]
  decide

lemma and_threadidMask (v : Tid) : v &&& threadidMask = holder v &&& threadidMask := by
  rw [holder, BitVec.and_assoc]
  rfl

lemma and_threadidMask_of_holder_zero (h : holder v = 0#64) : v &&& threadidMask = 0#64 := by
  rw [and_threadidMask, h, BitVec.zero_and]

/-- A word that is not locked when `try_lock` compares it gets the lock as if it had been read
then. -/
lemma desired_expected (vv : Tid) (here : Thread) :
    desired (expected vv) here = desired vv here := by
  have hlock : expected vv ||| lockBit = vv ||| lockBit := by
    apply BitVec.eq_of_getLsbD_eq
    intro i hi
    rw [expected, BitVec.getLsbD_or, BitVec.getLsbD_or, BitVec.getLsbD_and, BitVec.getLsbD_not]
    cases lockBit.getLsbD i <;> simp [hi]
  rw [desired, desired, hlock]

lemma isLocked_expected (vv : Tid) : isLocked (expected vv) = false := by
  rw [isLocked, expected, BitVec.and_assoc, BitVec.and_comm (~~~_), BitVec.and_not_self]
  simp

/-! ## The version -/

lemma isInvalid_eq (v : Tid) : isInvalid v = v.getLsbD 9 := by
  have hbit : invalidBit = BitVec.twoPow 64 9 := rfl
  rw [isInvalid, hbit, BitVec.and_twoPow]
  cases v.getLsbD 9 with
  | false => rfl
  | true => rfl

lemma isInvalid_invalidBit : isInvalid invalidBit = true := by decide

lemma toVersion_desired (vv : Tid) (here : Thread) :
    toVersion (desired vv here) = toVersion vv := by
  have hsmall : (lockBit ||| ofThread here).toNat < 2 ^ 12 := by
    rw [toNat_lock]
    omega
  have hbit : (lockBit ||| ofThread here).getLsbD 9 = false := by
    apply Packed.getLsbD_eq_false (k := 8)
    · rw [toNat_lock]
      omega
    · omega
  rw [toVersion, toVersion, desired, BitVec.or_assoc, Packed.count_or hsmall, isInvalid_eq,
    isInvalid_eq, BitVec.getLsbD_or, hbit, Bool.or_false]

lemma toVersion_unlocked (v : Tid) : toVersion (unlocked v) = toVersion v := by
  have hbit : (~~~(lockBit ||| threadidMask)).getLsbD 9 = true := by decide
  rw [toVersion, toVersion, unlocked, Packed.count_and_not (by decide), isInvalid_eq, isInvalid_eq,
    BitVec.getLsbD_and, hbit, Bool.and_true]

lemma toVersion_incNonopaqueVersion (v : Tid) : toVersion (incNonopaqueVersion v) =
      { toVersion v with count := ((toVersion v).count + 1) % 2 ^ 52 } := by
  have hincrement : incrementValue = BitVec.twoPow 64 12 := rfl
  have hbit : nonopaqueBit.getLsbD 9 = false := by decide
  have hflags : (v + BitVec.twoPow 64 12).getLsbD 9 = v.getLsbD 9 :=
    Packed.getLsbD_eq_of_flags_eq (Packed.flags_add_twoPow (by decide)) (by decide : 9 < 12)
  rw [toVersion, toVersion, incNonopaqueVersion, Packed.count_or (by decide), hincrement,
    Packed.count_add_twoPow (by decide), isInvalid_eq, isInvalid_eq, BitVec.getLsbD_or, hbit,
    Bool.or_false, hflags]

lemma toVersion_setInvalid (v : Tid) :
    toVersion (setInvalid v) = { toVersion v with invalid := true } := by
  have hbit : invalidBit.getLsbD 9 = true := by decide
  rw [toVersion, toVersion, setInvalid, Packed.count_or (by decide), isInvalid_eq,
    BitVec.getLsbD_or, hbit, Bool.or_true]

lemma toVersion_clearInvalid (v : Tid) :
    toVersion (clearInvalid v) = { toVersion v with invalid := false } := by
  have hbit : (~~~invalidBit).getLsbD 9 = false := by decide
  rw [toVersion, toVersion, clearInvalid, Packed.count_and_not (by decide), isInvalid_eq,
    BitVec.getLsbD_and, hbit, Bool.and_false]

/-- `check_version` compares the versions, whoever has locked the word. -/
lemma toVersion_eq_of_checkVersion (h : checkVersion cur old here = true) :
    toVersion cur = toVersion old := by
  rw [checkVersion, decide_eq_true_iff] at h
  cases h with
  | inl h => rw [h]
  | inr h => rw [h, ← desired, toVersion_desired]

/-! ## The words of the commit protocol

`Occ.Word` has the version and the thread that holds the lock. The operations on the bits are its
operations, and what `check_version` accepts is what it accepts. -/

/-- The thread that holds a word. -/
def lockOf (v : Tid) : Option ℕ := if isLocked v then some (v &&& threadidMask).toNat else none

/-- The word as the commit protocol has it. -/
def toWord (v : Tid) : Occ.Word := ⟨toVersion v, lockOf v⟩

lemma lockOf_of_holder_lock (h : holder v = lockBit ||| ofThread t) : lockOf v = some t.val := by
  have hthread : ((lockBit ||| ofThread t) &&& threadidMask).toNat = t.val := by
    clear h
    revert t
    decide +kernel
  rw [lockOf, if_pos (isLocked_of_holder_lock h), and_threadidMask, h, hthread]

/-- The word with the lock of `here`, where nobody else has it. -/
lemma toWord_desired (h : isLockedElsewhere vv here = false) :
    toWord (desired vv here) = { toWord vv with lock := some here.val } := by
  have hholder : holder (desired vv here) = lockBit ||| ofThread here := by
    rw [isLockedElsewhere, decide_eq_false_iff_not, not_and_or, not_not, not_not] at h
    cases h with
    | inl hfree => exact holder_desired hfree
    | inr hheld => rw [desired, BitVec.or_assoc, holder_or, hheld, holder_lock, BitVec.or_self]
  rw [toWord, toVersion_desired, lockOf_of_holder_lock hholder]
  rfl

lemma toWord_unlocked (v : Tid) : toWord (unlocked v) = { toWord v with lock := none } := by
  have hlock : lockOf (unlocked v) = none := by
    rw [lockOf, isLocked_of_holder_zero (holder_unlocked v)]
    rfl
  rw [toWord, toVersion_unlocked, hlock, toWord]

/-- The other writes of the owner change the version only. -/
lemma toWord_of_holder_eq {v' : Tid} (h : holder v' = holder v) :
    toWord v' = { toWord v with version := toVersion v' } := by
  rw [toWord, lockOf, isLocked, and_lockBit, and_threadidMask, h, ← and_lockBit, ← and_threadidMask]
  rfl

/-- What `check_version` accepts is what the protocol accepts. -/
lemma checkVersion_toWord (h : isLockedElsewhere old here = false)
    (hcheck : checkVersion cur old here = true) :
    (toWord cur).checkVersion (toWord old) here = true := by
  rw [checkVersion, decide_eq_true_iff] at hcheck
  rw [Occ.Word.checkVersion, Bool.or_eq_true, decide_eq_true_iff, decide_eq_true_iff]
  cases hcheck with
  | inl hsame => exact .inl (by rw [hsame])
  | inr hlocked =>
    rw [hlocked, ← desired, toWord_desired h]
    exact .inr rfl

end Tid

end Rolis.Sto
