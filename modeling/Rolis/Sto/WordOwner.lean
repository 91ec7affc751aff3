import Rolis.Sto.TransactionTid

/-!
# Owning a version word

Threads that lock one version word, write it and observe it. Every access to the word is a step of
its own: `try_lock` reads the word before it compares and swaps, a thread that holds the lock reads
the word before it writes it, and `check` of `MassTrans` reads it twice, for `validityCheck` and for
`check_version`.

The counter only goes up, but `invalid_bit` is set and cleared without it: the install of an insert
clears the bit, and that of a delete sets it. A word that a scan has observed before the insert was
installed has the same value again after the delete. `validityCheck` is there to refuse it, but it
looks at another reading of the word than `check_version` does.
-/

namespace Rolis.Sto.WordOwner

open Function Lts Tid

/-! ## The threads -/

/-- What a thread that holds the lock writes. -/
inductive Write
  | unlock
  | incNonopaqueVersion
  | setInvalid
  | clearInvalid
deriving DecidableEq, Repr

namespace Write

/-- What is written for what was read. -/
def value : Write → Tid → Tid
  | unlock => Tid.unlocked
  | incNonopaqueVersion => Tid.incNonopaqueVersion
  | setInvalid => Tid.setInvalid
  | clearInvalid => Tid.clearInvalid

/-- How often a write counts. -/
def incs : Write → ℕ
  | incNonopaqueVersion => 1
  | _ => 0

/-- How often a write changes the bit. -/
def flips : Write → ℕ
  | setInvalid => 1
  | clearInvalid => 1
  | _ => 0

end Write

/-- Where a thread is. -/
inductive Pc
  | idle
  /-- `try_lock` has read the word. -/
  | locking (vv : Tid)
  | owner
  /-- The owner has read the word that it is going to write. -/
  | writing (w : Write) (v : Tid)
deriving DecidableEq, Repr

/-- The thread has locked the word and has not unlocked it. -/
def Pc.Owns : Pc → Prop
  | idle => False
  | locking _ => False
  | owner => True
  | writing _ _ => True

/-- A version that a thread has observed, and how many updates there had been. -/
structure Observation where
  version : Tid
  updates : ℕ
deriving DecidableEq, Repr

/-- A `check_version` that succeeded, and how many updates there had been. -/
structure Passed where
  thread : Thread
  observation : Observation
  updates : ℕ
deriving DecidableEq, Repr

/-- The word of an element, and for each thread where it is, what it has observed, and the
observation that has passed `validityCheck` and is given to `check_version` next. `inserter` is the
thread whose transaction has inserted the element and is not over: the item of that transaction has
`insert_bit`. All writes but the unlock are updates. -/
structure State where
  word : Tid
  inserter : Option Thread
  pc : Thread → Pc
  observed : Thread → List Observation
  checking : Thread → Option Observation
  updates : ℕ
  passed : List Passed

/-- An access to the word, or the end of the transaction that has inserted the element. -/
inductive Action
  | observe (t : Thread)
  | load (t : Thread)
  | cas (t : Thread)
  | read (t : Thread) (w : Write)
  | write (t : Thread)
  | validityCheck (t : Thread) (i : ℕ)
  | checkVersion (t : Thread)
  | finish (t : Thread)
deriving DecidableEq, Repr

namespace State

variable (s : State) (t : Thread)

def goto (pc : Pc) : State := { s with pc := update s.pc t pc }

def Owns : Prop := (s.pc t).Owns

/-- `MassTrans::validityCheck`. -/
def IsValid : Prop := isInvalid s.word = false ∨ s.inserter = some t

instance : Decidable (s.IsValid t) := inferInstanceAs (Decidable (_ ∨ _))

/-- What the owner may write: `invalid_bit` is set in a valid word, and cleared for the insert. -/
def Allows : Write → Prop
  | .setInvalid => isInvalid s.word = false
  | .clearInvalid => s.inserter = some t
  | _ => True

instance (w : Write) : Decidable (s.Allows t w) :=
  match w with
  | .setInvalid => inferInstanceAs (Decidable (_ = _))
  | .clearInvalid => inferInstanceAs (Decidable (_ = _))
  | .unlock => isTrue trivial
  | .incNonopaqueVersion => isTrue trivial

/-- The owner writes. The insert is installed once. -/
def store (w : Write) (v : Tid) : State :=
  { s.goto t (if w = .unlock then .idle else .owner) with
    word := w.value v
    inserter := if w = .clearInvalid then none else s.inserter
    updates := s.updates + w.incs + w.flips }

/-- One step; `none` where the transaction aborts or the thread is elsewhere. -/
def step : Action → Option State
  | .observe t =>
    -- `observe` does not take a word that somebody else has locked
    if isLockedElsewhere s.word t then none
    else
      some { s with observed := update s.observed t (⟨s.word, s.updates⟩ :: s.observed t) }
  | .load t =>
    match s.pc t with
    | .idle => some (s.goto t (.locking s.word))
    | _ => none
  | .cas t =>
    match s.pc t with
    | .locking vv =>
      if s.word = expected vv then some { s.goto t .owner with word := desired vv t }
      else some (s.goto t .idle)
    | _ => none
  | .read t w =>
    match s.pc t with
    | .owner => if s.Allows t w then some (s.goto t (.writing w s.word)) else none
    | _ => none
  | .write t =>
    match s.pc t with
    | .writing w v => some (s.store t w v)
    | _ => none
  | .validityCheck t i =>
    match (s.observed t)[i]? with
    | some o =>
      if s.IsValid t then some { s with checking := update s.checking t (some o) } else none
    | none => none
  | .checkVersion t =>
    match s.checking t with
    | some o =>
      let s' := { s with checking := update s.checking t none }
      if checkVersion s.word o.version t then
        some { s' with passed := ⟨t, o, s.updates⟩ :: s.passed }
      else some s'
    | none => none
  | .finish t =>
    if s.inserter = some t ∧ s.pc t = .idle then some { s with inserter := none } else none

/-- What `check_version` is given. -/
def given : Action → Option (Thread × Observation)
  | .checkVersion t => (s.checking t).map (t, ·)
  | _ => none

end State

/-- A word as an element gets it: nobody has locked it, and an element that somebody is inserting is
invalid. -/
structure Birth where
  word : Tid
  inserter : Option Thread
  holder_eq : holder word = 0#64
  invalid : inserter.isSome → isInvalid word = true

/-- The word of an element that `t` inserts. -/
def Birth.inserted (t : Thread) : Birth :=
  ⟨invalidBit, some t, holder_invalidBit, fun _ => isInvalid_invalidBit⟩

/-- The accesses to one word. -/
def accesses (b : Birth) : System State Action where
  init := ⟨b.word, b.inserter, fun _ => .idle, fun _ => [], fun _ => none, 0, []⟩
  step := State.step

/-- At most one thread owns the word, a `check_version` that succeeded has missed no update, and a
word that is not locked has no thread in it. -/
structure Owned (s : State) : Prop where
  one : ∀ t u, s.Owns t → s.Owns u → t = u
  seen : ∀ p ∈ s.passed, p.observation.updates = p.updates
  bare : isLocked s.word = false → s.word &&& threadidMask = 0#64

/-- The version that `check_version` is given and the word that it reads are not both invalid,
unless the thread has inserted the element. -/
def Steady (s : State) (a : Action) : Prop :=
  ∀ p ∈ s.given a, isInvalid p.2.version = true → s.IsValid p.1

instance (s : State) (a : Action) : Decidable (Steady s a) :=
  inferInstanceAs (Decidable (∀ p ∈ s.given a, _))

/-! ## Steps -/

/-- What a step can do. -/
inductive Move (s : State) : Action → State → Prop
  | observe (t : Thread) (hfree : isLockedElsewhere s.word t = false) : Move s (.observe t)
      { s with observed := update s.observed t (⟨s.word, s.updates⟩ :: s.observed t) }
  | load (t : Thread) (hpc : s.pc t = .idle) : Move s (.load t) (s.goto t (.locking s.word))
  | lock (t : Thread) (vv : Tid) (hpc : s.pc t = .locking vv) (hword : isLocked s.word = false) :
      Move s (.cas t) { s.goto t .owner with word := desired s.word t }
  | lockFails (t : Thread) (vv : Tid) (hpc : s.pc t = .locking vv) :
      Move s (.cas t) (s.goto t .idle)
  | read (t : Thread) (w : Write) (hpc : s.pc t = .owner) (hallows : s.Allows t w) :
      Move s (.read t w) (s.goto t (.writing w s.word))
  | write (t : Thread) (w : Write) (v : Tid) (hpc : s.pc t = .writing w v) :
      Move s (.write t) (s.store t w v)
  | validityCheck (t : Thread) (i : ℕ) (o : Observation) (ho : o ∈ s.observed t) :
      Move s (.validityCheck t i) { s with checking := update s.checking t (some o) }
  | pass (t : Thread) (o : Observation) (ho : s.checking t = some o)
      (hcheck : checkVersion s.word o.version t = true) :
      Move s (.checkVersion t)
        { s with checking := update s.checking t none, passed := ⟨t, o, s.updates⟩ :: s.passed }
  | fail (t : Thread) :
      Move s (.checkVersion t) { s with checking := update s.checking t none }
  | finish (t : Thread) (hins : s.inserter = some t) (hpc : s.pc t = .idle) :
      Move s (.finish t) { s with inserter := none }

variable {s s' : State} {a : Action} {t u : Thread} {w : Write} {v : Tid} {o : Observation}
  {incs flips : ℕ} {G : State → Action → Prop} {b : Birth}

lemma move_of_step (h : s.step a = some s') : Move s a s' := by
  cases a with
  | observe t =>
    simp only [State.step] at h
    split at h
    · simp at h
    · next hfree =>
      cases h
      exact .observe t (Bool.eq_false_of_not_eq_true hfree)
  | load t =>
    simp only [State.step] at h
    split at h
    · next hpc =>
      cases h
      exact .load t hpc
    · simp at h
  | cas t =>
    simp only [State.step] at h
    split at h
    · next vv hpc =>
      split at h
      · next hword =>
        cases h
        rw [← desired_expected, ← hword]
        refine .lock t vv hpc ?_
        rw [hword]
        exact isLocked_expected vv
      · cases h
        exact .lockFails t vv hpc
    · simp at h
  | read t w =>
    simp only [State.step] at h
    split at h
    · next hpc =>
      split at h
      · next hallows =>
        cases h
        exact .read t w hpc hallows
      · simp at h
    · simp at h
  | write t =>
    simp only [State.step] at h
    split at h
    · next w v hpc =>
      cases h
      exact .write t w v hpc
    · simp at h
  | validityCheck t i =>
    simp only [State.step] at h
    split at h
    · next o ho =>
      split at h
      · cases h
        exact .validityCheck t i o (List.mem_of_getElem? ho)
      · simp at h
    · simp at h
  | checkVersion t =>
    simp only [State.step] at h
    split at h
    · next o ho =>
      split at h
      · next hcheck =>
        cases h
        exact .pass t o ho hcheck
      · cases h
        exact .fail t
    · simp at h
  | finish t =>
    simp only [State.step] at h
    split at h
    · next hgo =>
      cases h
      exact .finish t hgo.1 hgo.2
    · simp at h

/-! ## The owner and the word -/

/-- The lock stays with its holder through a write that is not the unlock. -/
lemma Write.holder_value (h : w ≠ .unlock) (v : Tid) : holder (w.value v) = holder v := by
  cases w with
  | unlock => exact absurd rfl h
  | incNonopaqueVersion => exact holder_incNonopaqueVersion v
  | setInvalid => exact holder_setInvalid v
  | clearInvalid => exact holder_clearInvalid v

/-- The lock of the word is that of its owner, the owner knows the word, and an element that
somebody is inserting is invalid. -/
structure Ok (s : State) : Prop where
  held : ∀ t, s.Owns t → holder s.word = lockBit ||| ofThread t
  free : (∀ t, ¬s.Owns t) → holder s.word = 0#64
  writing : ∀ t w v, s.pc t = .writing w v → v = s.word ∧ s.Allows t w
  inserted : s.inserter.isSome → isInvalid s.word = true

lemma State.pc_goto (s : State) (t u : Thread) (pc : Pc) :
    (s.goto t pc).pc u = if u = t then pc else s.pc u := update_apply _ _ _ _

namespace Ok

/-- Nobody owns a word that is not locked. -/
lemma not_owns (h : Ok s) (hlock : isLocked s.word = false) (t : Thread) : ¬s.Owns t := by
  intro ht
  rw [isLocked_of_holder_lock (h.held t ht)] at hlock
  cases hlock

lemma holder_eq_zero (h : Ok s) (hlock : isLocked s.word = false) : holder s.word = 0#64 :=
  h.free (h.not_owns hlock)

lemma eq_of_owns (h : Ok s) (ht : s.Owns t) (hu : s.Owns u) : t = u :=
  lock_injective ((h.held t ht).symm.trans (h.held u hu))

lemma owns_of_writing (hpc : s.pc t = .writing w v) : s.Owns t := by
  rw [State.Owns, hpc]
  trivial

/-- One thread goes on and owns the word if it did before. -/
lemma goto (h : Ok s) {pc pc' : Pc} (hpc : s.pc t = pc) (howns : pc'.Owns ↔ pc.Owns)
    (hwriting : ∀ w v, pc' = .writing w v → v = s.word ∧ s.Allows t w) : Ok (s.goto t pc') := by
  have hsame : ∀ u, (s.goto t pc').Owns u ↔ s.Owns u := by
    intro u
    rw [State.Owns, State.Owns, State.pc_goto]
    split
    · next hu => rw [hu, hpc, howns]
    · rfl
  refine ⟨fun u hu => h.held u ((hsame u).mp hu), ?_, ?_, h.inserted⟩
  · intro hnone
    exact h.free fun u hu => hnone u ((hsame u).mpr hu)
  · intro u w v hu
    rw [State.pc_goto] at hu
    split at hu
    · next heq =>
      rw [heq]
      exact hwriting w v hu
    · exact h.writing u w v hu

/-- One thread goes on and writes the word, which nobody else owns. -/
lemma of_alone {pc : Pc} (hpc : s'.pc = update s.pc t pc) (halone : ∀ u, u ≠ t → ¬s.Owns u)
    (hheld : pc.Owns → holder s'.word = lockBit ||| ofThread t)
    (hfree : ¬pc.Owns → holder s'.word = 0#64) (hnot : ∀ w v, pc ≠ .writing w v)
    (hins : s'.inserter.isSome → isInvalid s'.word = true) : Ok s' where
  held := by
    intro u hu
    rw [State.Owns, hpc, update_apply] at hu
    split at hu
    · next heq =>
      rw [heq]
      exact hheld hu
    · next hne => exact absurd hu (halone u hne)
  free := by
    intro hnone
    apply hfree
    intro howns
    apply hnone t
    rw [State.Owns, hpc, update_self]
    exact howns
  writing := by
    intro u w v hu
    rw [hpc, update_apply] at hu
    split at hu
    · exact absurd hu (hnot w v)
    · next hne => exact absurd (owns_of_writing hu) (halone u hne)
  inserted := hins

lemma lock (h : Ok s) (t : Thread) (hlock : isLocked s.word = false) :
    Ok { s.goto t .owner with word := desired s.word t } := by
  apply of_alone (s := s) (t := t) rfl
  · intro u _
    exact h.not_owns hlock u
  · intro _
    exact holder_desired (h.holder_eq_zero hlock)
  · intro hno
    exact absurd trivial hno
  · rintro w v ⟨⟩
  · intro hins
    have hversion := congrArg Version.invalid (toVersion_desired s.word t)
    exact hversion.trans (h.inserted hins)

/-- What the owner writes is the word that it has read with its change. -/
lemma store (h : Ok s) (hpc : s.pc t = .writing w v) : Ok (s.store t w v) := by
  have howns := owns_of_writing hpc
  obtain ⟨rfl, hallows⟩ := h.writing t w v hpc
  apply of_alone (s := s) (t := t) rfl
  · intro u hne hu
    exact hne (h.eq_of_owns hu howns)
  · intro hown
    have hw : w ≠ .unlock := by
      rintro rfl
      exact hown
    exact (Write.holder_value hw _).trans (h.held t howns)
  · intro hno
    have hw : w = .unlock := by
      by_contra hne
      rw [if_neg hne] at hno
      exact hno trivial
    rw [hw]
    exact holder_unlocked _
  · intro w' v'
    split <;> simp
  · -- the insert is over when its bit is cleared
    intro hins
    cases w with
    | unlock => exact (congrArg Version.invalid (toVersion_unlocked _)).trans (h.inserted hins)
    | incNonopaqueVersion =>
      exact (congrArg Version.invalid (toVersion_incNonopaqueVersion _)).trans (h.inserted hins)
    | setInvalid => exact congrArg Version.invalid (toVersion_setInvalid _)
    | clearInvalid => cases hins

lemma finish (h : Ok s) (hpc : s.pc t = .idle) (hins : s.inserter = some t) :
    Ok { s with inserter := none } := by
  refine ⟨h.held, h.free, ?_, ?_⟩
  · intro u w v hwriting
    obtain ⟨hv, hallows⟩ := h.writing u w v hwriting
    refine ⟨hv, ?_⟩
    cases w with
    | clearInvalid =>
      -- only the inserter clears the bit, and it is idle
      cases hins.symm.trans hallows
      rw [hpc] at hwriting
      cases hwriting
    | _ => exact hallows
  · intro hsome
    cases hsome

lemma move (h : Ok s) (hm : Move s a s') : Ok s' := by
  cases hm with
  | load t hpc | lockFails t vv hpc =>
    refine h.goto hpc ?_ ?_
    · exact Iff.rfl
    · rintro w v ⟨⟩
  | lock t vv hpc hword => exact h.lock t hword
  | read t w hpc hallows =>
    refine h.goto hpc ?_ ?_
    · exact Iff.rfl
    · rintro w' v' ⟨⟩
      exact ⟨rfl, hallows⟩
  | write t w v hpc => exact h.store hpc
  | finish t hins hpc => exact h.finish hpc hins
  | _ => exact ⟨h.held, h.free, h.writing, h.inserted⟩

end Ok

/-! ## What a version has missed -/

/-- The counter goes up with the writes that count. -/
lemma Write.count_value (w : Write) (v : Tid) :
    (toVersion (w.value v)).count = ((toVersion v).count + w.incs) % 2 ^ 52 := by
  have hlt : (toVersion v).count % 2 ^ 52 = (toVersion v).count :=
    Nat.mod_eq_of_lt (Packed.count_lt (by decide))
  cases w with
  | unlock => exact (congrArg Version.count (toVersion_unlocked v)).trans hlt.symm
  | incNonopaqueVersion => exact congrArg Version.count (toVersion_incNonopaqueVersion v)
  | setInvalid => exact (congrArg Version.count (toVersion_setInvalid v)).trans hlt.symm
  | clearInvalid => exact (congrArg Version.count (toVersion_clearInvalid v)).trans hlt.symm

/-- What has happened to the word since it was observed: `incs` times the counter, `flips` times the
bit. -/
structure Since (s : State) (o : Observation) (incs flips : ℕ) : Prop where
  updates : s.updates = o.updates + incs + flips
  count : (toVersion s.word).count = ((toVersion o.version).count + incs) % 2 ^ 52
  valid : isInvalid o.version = false → s.inserter = none ∧ (flips = 0 ∨ isInvalid s.word = true)
  inserting : s.inserter.isSome → flips = 0

namespace Since

lemma now (h : Ok s) : Since s ⟨s.word, s.updates⟩ 0 0 where
  updates := rfl
  count := (Nat.mod_eq_of_lt (Packed.count_lt (by decide))).symm
  valid := by
    intro hvalid
    refine ⟨?_, .inl rfl⟩
    rw [← Option.not_isSome_iff_eq_none]
    intro hins
    rw [h.inserted hins] at hvalid
    cases hvalid
  inserting := fun _ => rfl

lemma store (h : Since s o incs flips) (hok : Ok s) (hpc : s.pc t = .writing w v) :
    Since (s.store t w v) o (incs + w.incs) (flips + w.flips) := by
  obtain ⟨rfl, hallows⟩ := hok.writing t w v hpc
  refine ⟨?_, ?_, ?_, ?_⟩
  · show s.updates + w.incs + w.flips = _
    have hupd := h.updates
    omega
  · show (toVersion (w.value s.word)).count = _
    rw [Write.count_value, h.count, Nat.mod_add_mod, Nat.add_assoc]
  · intro hold
    obtain ⟨hnone, hflips⟩ := h.valid hold
    cases w with
    | unlock =>
      refine ⟨hnone, hflips.imp_right fun hinv => ?_⟩
      exact (congrArg Version.invalid (toVersion_unlocked _)).trans hinv
    | incNonopaqueVersion =>
      refine ⟨hnone, hflips.imp_right fun hinv => ?_⟩
      exact (congrArg Version.invalid (toVersion_incNonopaqueVersion _)).trans hinv
    | setInvalid => exact ⟨hnone, .inr (congrArg Version.invalid (toVersion_setInvalid _))⟩
    | clearInvalid =>
      -- there is no insert any more that could clear the bit
      cases hnone.symm.trans hallows
  · intro hins
    cases w with
    | unlock | incNonopaqueVersion => exact h.inserting hins
    | setInvalid => cases (hok.inserted hins).symm.trans hallows
    | clearInvalid => cases hins

lemma move (h : Since s o incs flips) (hok : Ok s) (hm : Move s a s') :
    ∃ incs' flips', Since s' o incs' flips' := by
  cases hm with
  | write t w v hpc => exact ⟨_, _, h.store hok hpc⟩
  | lock t vv hpc hword =>
    refine ⟨incs, flips, h.updates, ?_, ?_, h.inserting⟩
    · exact (congrArg Version.count (toVersion_desired _ _)).trans h.count
    · intro hold
      obtain ⟨hnone, hflips⟩ := h.valid hold
      refine ⟨hnone, hflips.imp_right fun hinv => ?_⟩
      exact (congrArg Version.invalid (toVersion_desired _ _)).trans hinv
  | finish t hins hpc =>
    refine ⟨incs, flips, h.updates, h.count, fun hold => ⟨rfl, (h.valid hold).2⟩, ?_⟩
    intro hsome
    cases hsome
  | _ => exact ⟨incs, flips, h.updates, h.count, h.valid, h.inserting⟩

/-- A version that is the same, with its bit as `Steady` has it, has missed no update. -/
lemma updates_eq (h : Since s o incs flips) (hversion : toVersion s.word = toVersion o.version)
    (hupd : s.updates < 2 ^ 52) (hsteady : isInvalid o.version = true → s.IsValid t) :
    o.updates = s.updates := by
  have hinvalid : isInvalid s.word = isInvalid o.version := congrArg Version.invalid hversion
  have hflips : flips = 0 := by
    cases hold : isInvalid o.version with
    | false =>
      cases (h.valid hold).2 with
      | inl hzero => exact hzero
      | inr hnow => cases hnow.symm.trans (hinvalid.trans hold)
    | true =>
      cases hsteady hold with
      | inl hnow => cases hnow.symm.trans (hinvalid.trans hold)
      | inr hins =>
        apply h.inserting
        rw [hins]
        rfl
  -- fewer than `2 ^ 52` increments do not bring the counter back
  have hcount : (toVersion o.version).count < 2 ^ 52 := Packed.count_lt (by decide)
  have hincs := h.count
  rw [hversion] at hincs
  have hsum := h.updates
  omega

end Since

/-- The thread has observed `o`. -/
def State.Knows (s : State) (t : Thread) (o : Observation) : Prop :=
  o ∈ s.observed t ∨ s.checking t = some o

lemma checking_of_update_none (h : update s.checking t none u = some o) :
    s.checking u = some o := by
  rw [update_apply] at h
  split at h
  · cases h
  · exact h

/-- Every version that a thread comes to know is the word of that moment, not locked elsewhere. -/
lemma Move.knows (hm : Move s a s') (h : s'.Knows u o) :
    s.Knows u o ∨ o = ⟨s.word, s.updates⟩ ∧ isLockedElsewhere s.word u = false := by
  cases hm with
  | observe t hfree =>
    refine h.elim (fun hobs => ?_) fun hcheck => .inl (.inr hcheck)
    change o ∈ update s.observed t _ u at hobs
    rw [update_apply] at hobs
    split at hobs
    · next heq =>
      subst heq
      exact (List.mem_cons.mp hobs).elim (fun heq => .inr ⟨heq, hfree⟩) fun hobs => .inl (.inl hobs)
    · exact .inl (.inl hobs)
  | validityCheck t i o' ho =>
    refine .inl (h.elim .inl fun hcheck => ?_)
    change update s.checking t (some o') u = some o at hcheck
    rw [update_apply] at hcheck
    split at hcheck
    · next heq =>
      cases hcheck
      exact .inl (heq ▸ ho)
    · exact .inr hcheck
  | pass t o' ho hcheck | fail t => exact .inl (h.imp_right checking_of_update_none)
  | _ => exact .inl h

/-- What is known of every version that a thread has observed, and of those that have passed. -/
structure Seen (s : State) : Prop where
  since : ∀ t o, s.Knows t o → ∃ incs flips, Since s o incs flips
  passed : s.updates < 2 ^ 52 → ∀ p ∈ s.passed, p.observation.updates = p.updates

lemma Seen.move (h : Seen s) (hok : Ok s) (hm : Move s a s') (hsteady : Steady s a) : Seen s' where
  since := by
    intro t o ho
    obtain hold | ⟨rfl, -⟩ := hm.knows ho
    · obtain ⟨incs, flips, hsince⟩ := h.since t o hold
      exact hsince.move hok hm
    · exact (Since.now hok).move hok hm
  passed := by
    cases hm with
    | pass t o ho hcheck =>
      intro hupd p hp
      obtain ⟨incs, flips, hsince⟩ := h.since t o (.inr ho)
      have hgiven : (t, o) ∈ s.given (.checkVersion t) := by
        show (s.checking t).map (t, ·) = some (t, o)
        rw [ho]
        rfl
      cases hp with
      | head =>
        exact hsince.updates_eq (toVersion_eq_of_checkVersion hcheck) hupd (hsteady _ hgiven)
      | tail _ hp => exact h.passed hupd p hp
    | write t w v hpc =>
      intro hupd
      have hle : s.updates ≤ s.updates + w.incs + w.flips := by omega
      exact h.passed (Nat.lt_of_le_of_lt hle hupd)
    | _ => exact h.passed

/-! ## The runs -/

lemma ok_init (b : Birth) : Ok (accesses b).init where
  held := by
    intro t ht
    cases ht
  free := fun _ => b.holder_eq
  writing := by
    rintro t w v ⟨⟩
  inserted := b.invalid

lemma not_knows_init (b : Birth) : ¬(accesses b).init.Knows t o := by
  rintro (hobs | hcheck)
  · cases hobs
  · cases hcheck

lemma seen_init (b : Birth) : Seen (accesses b).init where
  since := fun t o ho => absurd ho (not_knows_init b)
  passed := by
    intro _ p hp
    cases hp

lemma ok_of_run (hrun : Run (accesses b) G (accesses b).init s) : Ok s := by
  apply hrun.invariant Ok _ (ok_init b)
  intro s s' a hok _ hstep
  exact hok.move (move_of_step hstep)

lemma seen_of_run (hrun : Run (accesses b) Steady (accesses b).init s) : Seen s := by
  -- what the versions have missed rests on what the owner knows
  have hboth : Ok s ∧ Seen s := by
    apply hrun.invariant (fun s => Ok s ∧ Seen s) _ ⟨ok_init b, seen_init b⟩
    rintro s s' a ⟨hok, hseen⟩ hsteady hstep
    have hm := move_of_step hstep
    exact ⟨hok.move hm, hseen.move hok hm hsteady⟩
  exact hboth.2

/-- One owner, and no thread in a word that is not locked: in every run. -/
lemma single_of_run (hrun : Run (accesses b) G (accesses b).init s) :
    (∀ t u, s.Owns t → s.Owns u → t = u) ∧
      (isLocked s.word = false → s.word &&& threadidMask = 0#64) := by
  have hok := ok_of_run hrun
  constructor
  · intro t u ht hu
    exact hok.eq_of_owns ht hu
  · intro hlock
    exact and_threadidMask_of_holder_zero (hok.holder_eq_zero hlock)

/-- In every run in which `check_version` keeps to what `Steady` says, and before the counter has
come round. -/
theorem owned_of_steady (b : Birth) (hrun : Run (accesses b) Steady (accesses b).init s)
    (hupd : s.updates < 2 ^ 52) : Owned s where
  one := (single_of_run hrun).1
  seen := (seen_of_run hrun).passed hupd
  bare := (single_of_run hrun).2

/-- The insert of thread 1 is installed, and thread 2 updates the element. The version that thread 3
observes after that passes. -/
theorem owned_after_update :
    ∃ s, Run (accesses (.inserted 1)) Steady (accesses (.inserted 1)).init s ∧
      (s.updates = 2 ∧ s.passed ≠ []) ∧ Owned s := by
  obtain ⟨s, hrun, hs⟩ := exists_run_of_execGuarded (accesses (.inserted 1)) Steady
    (accesses (.inserted 1)).init
    [.load 1, .cas 1, .read 1 .clearInvalid, .write 1, .read 1 .unlock, .write 1,
      .load 2, .cas 2, .read 2 .incNonopaqueVersion, .write 2, .read 2 .unlock, .write 2,
      .observe 3, .validityCheck 3 0, .checkVersion 3]
    (fun s => s.updates = 2 ∧ s.passed ≠ []) (by decide +kernel)
  refine ⟨s, hrun, hs, owned_of_steady _ hrun ?_⟩
  rw [hs.1]
  decide

/-- Thread 3 observes the element that thread 1 is inserting. It passes `validityCheck` when the
insert has been installed, and `check_version` when thread 2 has deleted the element, since the word
is what it was. -/
theorem exists_passed_after_insert_and_delete :
    ∃ s, Reachable (accesses (.inserted 1)) s ∧ s.updates < 2 ^ 52 ∧ ¬Owned s := by
  obtain ⟨s, hs, hupd, hpassed⟩ := exists_reachable_of_exec (accesses (.inserted 1))
    [.observe 3, .load 1, .cas 1, .read 1 .clearInvalid, .write 1, .read 1 .unlock, .write 1,
      .validityCheck 3 0, .load 2, .cas 2, .read 2 .setInvalid, .write 2, .read 2 .unlock, .write 2,
      .checkVersion 3]
    (fun s => s.updates = 2 ∧ s.passed = [⟨3, ⟨invalidBit, 0⟩, 2⟩]) (by decide +kernel)
  refine ⟨s, hs, ?_, ?_⟩
  · rw [hupd]
    decide
  · intro howned
    have hmem : ⟨3, ⟨invalidBit, 0⟩, 2⟩ ∈ s.passed := by
      rw [hpassed]
      exact List.mem_singleton_self _
    cases howned.seen _ hmem

/-! ## The words of the commit protocol -/

/-- What a write does to an element of the commit protocol, for the transaction `i`. -/
def Write.onObject {ι : Type} (i : ι) (value : Bytes) (x : Occ.Object ι) : Write → Occ.Object ι
  | unlock => x.setLock none
  | incNonopaqueVersion => x.write i value
  | setInvalid => x.setInvalid true
  | clearInvalid => x.setInvalid false

lemma Write.toWord_value {ι : Type} {x : Occ.Object ι} (hx : x.word = toWord v)
    (hcount : (toVersion v).count + 1 < 2 ^ 52) (i : ι) (value : Bytes) (w : Write) :
    toWord (w.value v) = (w.onObject i value x).word := by
  cases w with
  | unlock => simp [Write.value, onObject, toWord_unlocked, Occ.Object.setLock, hx]
  | incNonopaqueVersion =>
    rw [Write.value, toWord_of_holder_eq (holder_incNonopaqueVersion v),
      toVersion_incNonopaqueVersion, Nat.mod_eq_of_lt hcount]
    simp [onObject, Occ.Object.write, hx, toWord]
  | setInvalid =>
    rw [Write.value, toWord_of_holder_eq (holder_setInvalid v), toVersion_setInvalid]
    simp [onObject, Occ.Object.setInvalid, hx, toWord]
  | clearInvalid =>
    rw [Write.value, toWord_of_holder_eq (holder_clearInvalid v), toVersion_clearInvalid]
    simp [onObject, Occ.Object.setInvalid, hx, toWord]

lemma unlocked_of_knows (hrun : Reachable (accesses b) s) (t : Thread) (o : Observation)
    (ho : s.Knows t o) : isLockedElsewhere o.version t = false := by
  apply hrun.invariant (fun s => ∀ t o, s.Knows t o → isLockedElsewhere o.version t = false) _
    (fun t o ho => absurd ho (not_knows_init b)) t o ho
  intro s s' a h _ hstep t o ho
  obtain hold | ⟨rfl, hfree⟩ := (move_of_step hstep).knows ho
  · exact h t o hold
  · exact hfree

/-- In every interleaving of the accesses, before the counter comes round: a step leaves the word of
the commit protocol alone, or a thread takes the free lock as the protocol takes it, or the holder
of the lock makes one of the protocol's writes, though `try_lock` and the writes of the owner read
the word in one step and write it in another. What `check_version` accepts for a version that the
thread has observed, the protocol accepts. -/
theorem step_refines_word {ι : Type} (b : Birth) (hrun : Reachable (accesses b) s)
    (hcount : (toVersion s.word).count + 1 < 2 ^ 52) (x : Occ.Object ι)
    (hx : x.word = toWord s.word) (i : ι) (value : Bytes) :
    (∀ a s', s.step a = some s' →
      toWord s'.word = x.word ∨
      (∃ t, a = .cas t ∧ x.word.lock = none ∧ toWord s'.word = (x.setLock (some t.val)).word) ∨
      ∃ t w v, a = .write t ∧ s.pc t = .writing w v ∧ x.word.lock = some t.val ∧
        toWord s'.word = (w.onObject i value x).word) ∧
    ∀ t o, s.checking t = some o → checkVersion s.word o.version t = true →
      x.word.checkVersion (toWord o.version) t = true := by
  have hok := ok_of_run hrun
  rw [hx]
  refine ⟨fun a s' hstep => ?_, fun t o ho =>
    checkVersion_toWord (unlocked_of_knows hrun t o (.inr ho))⟩
  cases move_of_step hstep with
  | lock t vv hpc hword =>
    have hfree : isLockedElsewhere s.word t = false := by
      simp [isLockedElsewhere, hok.holder_eq_zero hword]
    refine .inr (.inl ⟨t, rfl, by simp [toWord, lockOf, hword], ?_⟩)
    simp [toWord_desired hfree, Occ.Object.setLock, hx]
  | write t w v hpc =>
    obtain ⟨rfl, -⟩ := hok.writing t w v hpc
    exact .inr (.inr ⟨t, w, s.word, rfl, hpc,
      lockOf_of_holder_lock (hok.held t (Ok.owns_of_writing hpc)),
      Write.toWord_value hx hcount i value w⟩)
  | _ => exact .inl rfl

/-- Thread 1 has locked the element that it inserts and clears the bit. -/
theorem step_refines_word_inserted : ∃ s s' : State, Reachable (accesses (.inserted 1)) s ∧
    s.step (.write 1) = some s' ∧ (toWord s.word).lock = some 1 ∧
    toWord s'.word = (({ word := toWord s.word } : Occ.Object ℕ).setInvalid false).word := by
  obtain ⟨s, hs, hpc, hlock, hcount, s', hs', hne⟩ := exists_reachable_of_exec
    (accesses (.inserted 1)) [.load 1, .cas 1, .read 1 .clearInvalid]
    (fun s => s.pc 1 = .writing .clearInvalid s.word ∧ (toWord s.word).lock = some 1 ∧
      (toVersion s.word).count + 1 < 2 ^ 52 ∧
      ∃ s' ∈ s.step (.write 1), toWord s'.word ≠ toWord s.word) (by decide +kernel)
  obtain hsame | ⟨t, hcas, -⟩ | ⟨t, w, v, hwrite, hpc', -, hword⟩ :=
    (step_refines_word (.inserted 1) hs hcount { word := toWord s.word } rfl 0 []).1 _ s' hs'
  · exact absurd hsame hne
  · cases hcas
  · cases hwrite
    cases hpc.symm.trans hpc'
    exact ⟨s, s', hs, hs', hlock, hword⟩

end Rolis.Sto.WordOwner
