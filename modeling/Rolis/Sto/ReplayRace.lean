import Rolis.Lib.Lts
import Rolis.Sto.ReplayLog

/-!
# Replay transactions that race for a key

Threads of a follower that replay the same key. The lookup with the comparison, the second lookup
under the lock of the leaf, `handlePutFound`, which observes the version, and the commit are steps
of their own, and steps of different threads interleave.

The version is observed after the comparison. A commit that falls between the two is not noticed
by the check, which compares with the version observed: the comparison was made with a value that
is no longer there.
-/

namespace Rolis.Sto.Race

open Function Option Transaction TransItem Mem

/-- Where a replay transaction stands: before `find_unlocked`; before `find_insert`; behind a
comparison with the element `e` that succeeded; before the commit; behind it. -/
inductive Pc
  | start
  | absent
  | compared (e : ℕ)
  | ready (items : List TransItem)
  | done
deriving DecidableEq, Repr

/-- The memory and the point where each thread stands. -/
structure State (N : ℕ) where
  mem : Mem := {}
  pc : Fin N → Pc := fun _ => .start

variable {N : ℕ}

/-- Move a thread. -/
def State.goto (s : State N) (i : Fin N) (pc : Pc) : State N := { s with pc := update s.pc i pc }

section

variable (table : ℕ) (key : Bytes) (value : Fin N → Bytes)

/-- The comparison of `trans_write_mbta`. If it fails the transaction has no items, and its commit
does nothing. -/
def compare (s : State N) (i : Fin N) (e : ℕ) : State N :=
  s.goto i (if cmpFunc2V2 (value i) (s.mem.heap e).value then .compared e else .done)

/-- One step of thread `i`, which puts `value i` under the key. -/
def step (s : State N) (i : Fin N) : Option (State N) :=
  match s.pc i with
  | .start =>
    match s.mem.find table key with
    | some e => some (compare value s i e)
    | none => some (s.goto i .absent)
  | .absent =>
    match s.mem.find table key with
    | some e => some (compare value s i e)
    | none =>
      let t := Transaction.insertNew ⟨s.mem, []⟩ table key (value i) []
      some ⟨t.mem, update s.pc i (.ready t.items)⟩
  | .compared e =>
    match Transaction.handlePutFound true ⟨s.mem, []⟩ table e key (value i) with
    | .ok t => some ⟨t.mem, update s.pc i (.ready t.items)⟩
    -- an exception: the transaction is undone and started again
    | .error t => t.abort.map fun m => ⟨m, update s.pc i .start⟩
  | .ready items =>
    (Transaction.tryCommit ⟨s.mem, items⟩).map fun (m, _) => ⟨m, update s.pc i .done⟩
  | .done => none

/-- Replay transactions for one key, on tables that are empty at first. -/
def race : Lts.System (State N) (Fin N) where
  init := {}
  step := step table key value

end

/-! ## Steps -/

/-- The item of an insert. -/
def insertItem (table : ℕ) (key : Bytes) (e : ℕ) : TransItem :=
  ⟨table, e, none, some key, true, false, []⟩

/-- The item of an update. -/
def updateItem (table : ℕ) (key : Bytes) (e : ℕ) (v : Version) (w : Bytes) : TransItem :=
  ⟨table, e, some v, some w, false, false, key⟩

/-- The items of an update that moved its element. -/
def growItems (table : ℕ) (key : Bytes) (e e' : ℕ) (v : Version) (w : Bytes) : List TransItem :=
  [⟨table, e, some v, none, false, false, []⟩, ⟨table, e', none, some w, false, false, key⟩]

variable {table e : ℕ} {key w : Bytes} {value : Fin N → Bytes} {s s' : State N} {i j : Fin N}
  {items : List TransItem} {pcs : Fin N → Pc} {m : Mem} {log : Option (List WriteItem)}

/-- The steps of a thread. -/
inductive Move (table : ℕ) (key : Bytes) (value : Fin N → Bytes) (s : State N) (i : Fin N) :
    State N → Prop
  | newer {e : ℕ} (hpc : s.pc i = .start ∨ s.pc i = .absent)
      (hfind : s.mem.find table key = some e) : Move table key value s i (s.goto i (.compared e))
  | older (hpc : s.pc i = .start ∨ s.pc i = .absent) : Move table key value s i (s.goto i .done)
  | notFound (hpc : s.pc i = .start) : Move table key value s i (s.goto i .absent)
  | insert (hpc : s.pc i = .absent) (hfind : s.mem.find table key = none) :
      Move table key value s i ⟨s.mem.alloc table key (Elem.make (value i)),
        update s.pc i (.ready [insertItem table key s.mem.next])⟩
  | retry {e : ℕ} (hpc : s.pc i = .compared e) : Move table key value s i (s.goto i .start)
  | observe {e : ℕ} (hpc : s.pc i = .compared e)
      (hvalid : (s.mem.heap e).version.invalid = false)
      (hfit : (s.mem.heap e).needsResize (value i) = false) :
      Move table key value s i
        (s.goto i (.ready [updateItem table key e (s.mem.heap e).version (value i)]))
  | grow {e : ℕ} (hpc : s.pc i = .compared e)
      (hvalid : (s.mem.heap e).version.invalid = false) :
      Move table key value s i
        ⟨(s.mem.set e ((s.mem.heap e).setInvalid true)).alloc table key
            ((s.mem.heap e).resize (value i)),
          update s.pc i (.ready
            (growItems table key e s.mem.next (s.mem.heap e).version (value i)))⟩
  | commit {items : List TransItem} {m : Mem} {log : Option (List WriteItem)}
      (hpc : s.pc i = .ready items)
      (hcommit : Transaction.tryCommit ⟨s.mem, items⟩ = some (m, log)) :
      Move table key value s i ⟨m, update s.pc i .done⟩

lemma move_of_compare (hpc : s.pc i = .start ∨ s.pc i = .absent)
    (hfind : s.mem.find table key = some e) : Move table key value s i (compare value s i e) := by
  unfold compare
  split
  · exact .newer hpc hfind
  · exact .older hpc

lemma move_of_step (h : step table key value s i = some s') : Move table key value s i s' := by
  unfold step at h
  split at h
  · next hpc =>
    split at h
    · next e hfind =>
      cases h
      exact move_of_compare (.inl hpc) hfind
    · cases h
      exact .notFound hpc
  · next hpc =>
    split at h
    · next e hfind =>
      cases h
      exact move_of_compare (.inr hpc) hfind
    · next hfind =>
      cases h
      exact .insert hpc hfind
  · next e hpc =>
    cases hvalid : (s.mem.heap e).version.invalid with
    | true =>
      rw [handlePutFound_of_invalid hvalid] at h
      cases h
      exact .retry hpc
    | false =>
      cases hfit : (s.mem.heap e).needsResize (value i) with
      | true =>
        rw [handlePutFound_of_needsResize hvalid hfit] at h
        cases h
        exact .grow hpc hvalid
      | false =>
        rw [handlePutFound_of_fits hvalid hfit] at h
        cases h
        exact .observe hpc hvalid hfit
  · next items hpc =>
    obtain ⟨⟨m, log⟩, hcommit, heq⟩ := map_eq_some_iff.mp h
    cases heq
    exact .commit hpc hcommit
  · cases h

/-! ## The invariant -/

/-- The element that a thread is about to insert. -/
def Pc.inserts : Pc → Option ℕ
  | .ready (it :: _) => if it.hasInsert then some it.key else none
  | _ => none

/-- An element that was moved: it is invalid, and no insert will make it valid. -/
def Dead (s : State N) (e : ℕ) : Prop :=
  (s.mem.heap e).version.invalid = true ∧ ∀ j, (s.pc j).inserts ≠ some e

/-- What is known of the items of a thread that is about to commit `w`. As long as the version of
an update is the one observed, the value is one that is older than `w`. -/
inductive Ready (table : ℕ) (key : Bytes) (s : State N) (w : Bytes) : List TransItem → Prop
  | insert (e : ℕ) : Ready table key s w [insertItem table key e]
  | update {e : ℕ} {v : Version} (hlt : e < s.mem.next)
      (hcount : v.count ≤ (s.mem.heap e).version.count)
      (hcmp : (s.mem.heap e).version.count = v.count →
        cmpFunc2V2 w (s.mem.heap e).value = true) :
      Ready table key s w [updateItem table key e v w]
  | grow {e e' : ℕ} {v : Version} (hlt : e < s.mem.next) (hdead : Dead s e) :
      Ready table key s w (growItems table key e e' v w)

/-- What holds in every state: the inserts of different threads are different, invalid elements; a
thread that has compared has the element of the key, or one that was moved since. -/
structure Inv (table : ℕ) (key : Bytes) (value : Fin N → Bytes) (s : State N) : Prop where
  linked : ∀ {e}, s.mem.find table key = some e → e < s.mem.next
  inserts : ∀ {i e}, (s.pc i).inserts = some e →
    e < s.mem.next ∧ (s.mem.heap e).version.invalid = true
  inserts_inj : ∀ {i j e}, (s.pc i).inserts = some e → (s.pc j).inserts = some e → i = j
  compared : ∀ {i e}, s.pc i = .compared e →
    e < s.mem.next ∧ (s.mem.find table key = some e ∨ Dead s e)
  ready : ∀ {i items}, s.pc i = .ready items → Ready table key s (value i) items

lemma inv_init : Inv table key value ({} : State N) := ⟨nofun, nofun, nofun, nofun, nofun⟩

/-- How the memory changes under the other threads in a step of thread `i`. -/
structure Later (table : ℕ) (key : Bytes) (i : Fin N) (s s' : State N) : Prop where
  pc_ne : ∀ j, j ≠ i → s'.pc j = s.pc j
  next_le : s.mem.next ≤ s'.mem.next
  count_le : ∀ e, e < s.mem.next →
    (s.mem.heap e).version.count ≤ (s'.mem.heap e).version.count
  value_eq : ∀ e, e < s.mem.next →
    (s'.mem.heap e).version.count = (s.mem.heap e).version.count →
      (s'.mem.heap e).value = (s.mem.heap e).value
  dead : ∀ e, e < s.mem.next → Dead s e → Dead s' e
  find : ∀ e, s.mem.find table key = some e → s'.mem.find table key = some e ∨ Dead s' e
  inserts : ∀ j e, j ≠ i → (s.pc j).inserts = some e →
    (s'.mem.heap e).version.invalid = true

lemma Ready.later (h : Ready table key s w items) (hl : Later table key i s s') :
    Ready table key s' w items := by
  cases h with
  | insert e => exact .insert e
  | @update e v hlt hcount hcmp =>
    have hle := hl.count_le e hlt
    refine .update (hlt.trans_le hl.next_le) (hcount.trans hle) fun heq => ?_
    have hsame : (s'.mem.heap e).version.count = (s.mem.heap e).version.count := by omega
    rw [hl.value_eq e hlt hsame]
    exact hcmp (hsame.symm.trans heq)
  | @grow e e' v hlt hdead => exact .grow (hlt.trans_le hl.next_le) (hl.dead e hlt hdead)

/-- The invariant after a step, from what the step does to the other threads and what is known of
the thread that moved. -/
lemma Inv.step (h : Inv table key value s) (hl : Later table key i s s') {pc : Pc}
    (hpc : s'.pc i = pc)
    (hlinked : ∀ e, s'.mem.find table key = some e → e < s'.mem.next)
    (hinserts : ∀ e, pc.inserts = some e →
      e = s.mem.next ∧ e < s'.mem.next ∧ (s'.mem.heap e).version.invalid = true)
    (hcompared : ∀ e, pc = .compared e →
      e < s'.mem.next ∧ (s'.mem.find table key = some e ∨ Dead s' e))
    (hready : ∀ items, pc = .ready items → Ready table key s' (value i) items) :
    Inv table key value s' where
  linked := hlinked _
  inserts {j e} he := by
    by_cases hj : j = i
    · subst hj
      exact (hinserts e (hpc ▸ he)).2
    · rw [hl.pc_ne j hj] at he
      exact ⟨(h.inserts he).1.trans_le hl.next_le, hl.inserts j e hj he⟩
  inserts_inj {j k e} hje hke := by
    -- the element of a new insert is not in use by anybody
    have hfresh : ∀ l, l ≠ i → (s'.pc l).inserts = some e → (s'.pc i).inserts ≠ some e := by
      intro l hl' hle hie
      rw [hl.pc_ne l hl'] at hle
      exact (h.inserts hle).1.ne (hinserts e (hpc ▸ hie)).1
    by_cases hj : j = i <;> by_cases hk : k = i
    · rw [hj, hk]
    · subst hj
      exact absurd hje (hfresh k hk hke)
    · subst hk
      exact absurd hke (hfresh j hj hje)
    · rw [hl.pc_ne j hj] at hje
      rw [hl.pc_ne k hk] at hke
      exact h.inserts_inj hje hke
  compared {j e} he := by
    by_cases hj : j = i
    · subst hj
      exact hcompared e (hpc.symm.trans he)
    · rw [hl.pc_ne j hj] at he
      obtain ⟨hlt, hfind | hdead⟩ := h.compared he
      · exact ⟨hlt.trans_le hl.next_le, hl.find e hfind⟩
      · exact ⟨hlt.trans_le hl.next_le, .inr (hl.dead e hlt hdead)⟩
  ready {j items} hj' := by
    by_cases hj : j = i
    · subst hj
      exact hready items (hpc.symm.trans hj')
    · rw [hl.pc_ne j hj] at hj'
      exact (h.ready hj').later hl

/-! ## Kinds of steps -/

lemma inserts_update_ne {pc : Pc} (h : ∀ j, (pcs j).inserts ≠ some e)
    (hpc : pc.inserts ≠ some e) (j : Fin N) : (update pcs i pc j).inserts ≠ some e := by
  by_cases hj : j = i
  · rw [hj, update_self]
    exact hpc
  · rw [update_of_ne hj]
    exact h j

section

variable (h : Inv table key value s)

include h

/-- A step that leaves the memory alone and takes up no insert. -/
lemma later_goto {pc : Pc} (hpc : pc.inserts = none) : Later table key i s (s.goto i pc) where
  pc_ne _ hj := update_of_ne hj _ _
  next_le := le_rfl
  count_le _ _ := le_rfl
  value_eq _ _ _ := rfl
  dead _ _ hdead := ⟨hdead.1, inserts_update_ne hdead.2 (hpc ▸ nofun)⟩
  find _ hfind := .inl hfind
  inserts _ _ _ he := (h.inserts he).2

lemma Inv.goto (pc : Pc) (hpc : pc.inserts = none)
    (hcompared : ∀ e, pc = .compared e → s.mem.find table key = some e)
    (hready : ∀ items, pc = .ready items → Ready table key (s.goto i pc) (value i) items) :
    Inv table key value (s.goto i pc) := by
  refine h.step (later_goto h hpc) (update_self _ _ _) (fun _ => h.linked) ?_ ?_ hready
  · intro e he
    rw [hpc] at he
    cases he
  · intro e he
    exact ⟨h.linked (hcompared e he), .inl (hcompared e he)⟩

lemma Inv.insert (hfind : s.mem.find table key = none) :
    Inv table key value ⟨s.mem.alloc table key (Elem.make w),
      update s.pc i (.ready [insertItem table key s.mem.next])⟩ := by
  have hheap : ∀ e, e < s.mem.next → update s.mem.heap s.mem.next (Elem.make w) e = s.mem.heap e :=
    fun e he => update_of_ne he.ne _ _
  refine h.step (i := i) ⟨fun j hj => update_of_ne hj _ _, Nat.le_succ _, ?_, ?_, ?_, ?_, ?_⟩
    (update_self _ _ _) ?_ ?_ nofun ?_
  · intro e he
    rw [heap_alloc, hheap e he]
  · intro e he _
    rw [heap_alloc, hheap e he]
  · intro e he hdead
    refine ⟨by rw [heap_alloc, hheap e he]; exact hdead.1, inserts_update_ne hdead.2 ?_⟩
    intro heq
    exact he.ne (some.inj heq).symm
  · intro e he
    rw [hfind] at he
    cases he
  · intro j e hj he
    rw [heap_alloc, hheap e (h.inserts he).1]
    exact (h.inserts he).2
  · intro e he
    rw [find_alloc_self] at he
    cases he
    exact Nat.lt_succ_self _
  · intro e he
    cases he
    refine ⟨rfl, Nat.lt_succ_self _, ?_⟩
    change (update s.mem.heap s.mem.next (Elem.make w) s.mem.next).version.invalid = true
    rw [update_self]
    rfl
  · intro items hitems
    cases hitems
    exact .insert _

/-- An element that a thread compared with and that is valid is still the one of the key. -/
lemma Inv.find_of_valid (hpc : s.pc i = .compared e)
    (hvalid : (s.mem.heap e).version.invalid = false) : s.mem.find table key = some e := by
  refine (h.compared hpc).2.resolve_right fun hdead => ?_
  rw [hdead.1] at hvalid
  cases hvalid

lemma Inv.grow (hpc : s.pc i = .compared e) (hvalid : (s.mem.heap e).version.invalid = false) :
    Inv table key value ⟨(s.mem.set e ((s.mem.heap e).setInvalid true)).alloc table key
        ((s.mem.heap e).resize (value i)),
      update s.pc i (.ready
        (growItems table key e s.mem.next (s.mem.heap e).version (value i)))⟩ := by
  have hlt : e < s.mem.next := (h.compared hpc).1
  have hfind := h.find_of_valid hpc hvalid
  -- an element that is about to be inserted is invalid, so `e` is none of them
  have hnoInsert : ∀ j, (s.pc j).inserts ≠ some e := by
    intro j hj
    rw [(h.inserts hj).2] at hvalid
    cases hvalid
  let heap' := update (update s.mem.heap e ((s.mem.heap e).setInvalid true)) s.mem.next
    ((s.mem.heap e).resize (value i))
  have hself : heap' e = (s.mem.heap e).setInvalid true := by
    rw [show heap' e = _ from update_of_ne hlt.ne _ _, update_self]
  have hheap : ∀ e', e' < s.mem.next → e' ≠ e → heap' e' = s.mem.heap e' := by
    intro e' he' hne
    rw [show heap' e' = _ from update_of_ne he'.ne _ _, update_of_ne hne]
  have hdeadE : Dead ⟨(s.mem.set e ((s.mem.heap e).setInvalid true)).alloc table key
        ((s.mem.heap e).resize (value i)),
      update s.pc i (.ready
        (growItems table key e s.mem.next (s.mem.heap e).version (value i)))⟩ e :=
    ⟨congrArg (·.version.invalid) hself, inserts_update_ne hnoInsert nofun⟩
  refine h.step (i := i) ⟨fun j hj => update_of_ne hj _ _, Nat.le_succ _, ?_, ?_, ?_, ?_, ?_⟩
    (update_self _ _ _) ?_ ?_ nofun ?_
  · intro e' he'
    change _ ≤ (heap' e').version.count
    by_cases hee : e' = e
    · rw [hee, hself]
      exact le_rfl
    · rw [hheap e' he' hee]
  · intro e' he' _
    change (heap' e').value = _
    by_cases hee : e' = e
    · rw [hee, hself]
      rfl
    · rw [hheap e' he' hee]
  · intro e' he' hdead
    by_cases hee : e' = e
    · exact hee ▸ hdeadE
    · refine ⟨?_, inserts_update_ne hdead.2 nofun⟩
      change (heap' e').version.invalid = true
      rw [hheap e' he' hee]
      exact hdead.1
  · intro e' he'
    rw [hfind] at he'
    cases he'
    exact .inr hdeadE
  · intro j e' _ he'
    have hee : e' ≠ e := fun heq => hnoInsert j (heq ▸ he')
    change (heap' e').version.invalid = true
    rw [hheap e' (h.inserts he').1 hee]
    exact (h.inserts he').2
  · intro e' he'
    rw [find_alloc_self] at he'
    cases he'
    exact Nat.lt_succ_self _
  · exact nofun
  · intro items hitems
    cases hitems
    exact .grow (hlt.trans (Nat.lt_succ_self _)) hdeadE

end

/-! ## Commits -/

/-- The three ends of a commit: an insert becomes valid, an update replaces the value of the
version it observed, or nothing happens. -/
inductive Commits (table : ℕ) (key : Bytes) (s : State N) (w : Bytes) : List TransItem → Mem → Prop
  | insert (e : ℕ) : Commits table key s w [insertItem table key e]
      (s.mem.set e ((s.mem.heap e).setInvalid false))
  | update {e : ℕ} {v : Version} (hver : (s.mem.heap e).version = v) :
      Commits table key s w [updateItem table key e v w] (s.mem.set e ((s.mem.heap e).write w))
  | fail {items : List TransItem} (hins : ∀ it ∈ items, it.hasInsert = false) :
      Commits table key s w items s.mem

lemma mem_of_failed {t : Transaction} {m' : Mem} (hval : t.validate = false)
    (habort : t.abort = some m') (hcommit : t.tryCommit = some (m, log)) : m = m' := by
  rw [tryCommit, hval, habort] at hcommit
  cases hcommit
  rfl

lemma commits_of_tryCommit (h : Ready table key s w items)
    (hcommit : tryCommit ⟨s.mem, items⟩ = some (m, log)) :
    Commits table key s w items m := by
  cases h with
  | insert e =>
    -- an insert has read nothing, so its commit succeeds
    have hinsert : tryCommit ⟨s.mem, [insertItem table key e]⟩ =
        some (s.mem.set e ((s.mem.heap e).setInvalid false), _) := rfl
    cases hinsert.symm.trans hcommit
    exact .insert e
  | @update e v hlt hcount hcmp =>
    cases hval : validate ⟨s.mem, [updateItem table key e v w]⟩ with
    | true =>
      have hver : (s.mem.heap e).version = v := by
        simp only [validate, check, updateItem, List.all_cons, List.all_nil,
          Bool.and_true, Bool.and_eq_true, beq_iff_eq] at hval
        exact hval.2
      rw [tryCommit, hval, if_pos rfl] at hcommit
      obtain ⟨m', hinstall, heq⟩ := map_eq_some_iff.mp hcommit
      cases heq
      have hwrite : installAll ⟨s.mem, [updateItem table key e v w]⟩ =
          (if (s.mem.heap e).needsResize w then none
            else some (s.mem.set e ((s.mem.heap e).write w))).bind some := rfl
      rw [hwrite, bind_fun_some] at hinstall
      split at hinstall
      · cases hinstall
      · cases hinstall
        exact .update hver
    | false =>
      obtain rfl := mem_of_failed hval rfl hcommit
      exact .fail (by simp [updateItem])
  | @grow e e' v hlt hdead =>
    -- the version read is that of the element that was moved
    have hval : validate ⟨s.mem, growItems table key e e' v w⟩ = false := by
      simp [validate, check, growItems, validityCheck, hdead.1]
    obtain rfl := mem_of_failed hval rfl hcommit
    exact .fail (by simp [growItems])

/-- A commit that changes one element, of which it keeps the count or replaces the value. -/
lemma Inv.commit (h : Inv table key value s) (hpc : s.pc i = .ready items)
    (hc : Commits table key s (value i) items m) :
    Inv table key value ⟨m, update s.pc i .done⟩ := by
  have hdone : ∀ e, Dead s e → ∀ j, (update s.pc i .done j).inserts ≠ some e :=
    fun e hdead => inserts_update_ne hdead.2 nofun
  cases hc with
  | insert e =>
    have hins : (s.pc i).inserts = some e := by
      rw [hpc]
      rfl
    have hne : ∀ e', e' ≠ e →
        update s.mem.heap e ((s.mem.heap e).setInvalid false) e' = s.mem.heap e' :=
      fun e' hee => update_of_ne hee _ _
    have hver : ∀ e', (update s.mem.heap e ((s.mem.heap e).setInvalid false) e').value =
        (s.mem.heap e').value ∧
        (update s.mem.heap e ((s.mem.heap e).setInvalid false) e').version.count =
          (s.mem.heap e').version.count := by
      intro e'
      by_cases hee : e' = e
      · rw [hee, update_self]
        exact ⟨rfl, rfl⟩
      · rw [hne e' hee]
        exact ⟨rfl, rfl⟩
    refine h.step (i := i) ⟨fun j hj => update_of_ne hj _ _, le_rfl, fun e' _ => (hver e').2.ge,
      fun e' _ _ => (hver e').1, fun e' _ hdead => ⟨?_, hdone e' hdead⟩, fun e' he' => .inl he',
      fun j e' hj he' => ?_⟩ (update_self _ _ _) (fun _ => h.linked) nofun nofun nofun
    · have hee : e' ≠ e := fun heq => hdead.2 i (heq ▸ hins)
      rw [heap_set, hne e' hee]
      exact hdead.1
    · -- the insert of another thread is another element
      have hee : e' ≠ e := fun heq => hj (h.inserts_inj he' (heq ▸ hins))
      rw [heap_set, hne e' hee]
      exact (h.inserts he').2
  | @update e v hver =>
    have hinv : ∀ e', (update s.mem.heap e ((s.mem.heap e).write (value i)) e').version.invalid =
        (s.mem.heap e').version.invalid := by
      intro e'
      by_cases hee : e' = e
      · rw [hee, update_self]
        rfl
      · rw [update_of_ne hee]
    refine h.step (i := i) ⟨fun j hj => update_of_ne hj _ _, le_rfl, fun e' _ => ?_,
      fun e' _ hcount => ?_, fun e' _ hdead => ⟨(hinv e').trans hdead.1, hdone e' hdead⟩,
      fun e' he' => .inl he', fun j e' _ he' => (hinv e').trans (h.inserts he').2⟩
      (update_self _ _ _) (fun _ => h.linked) nofun nofun nofun
    · rw [heap_set]
      by_cases hee : e' = e
      · rw [hee, update_self]
        exact Nat.le_succ _
      · rw [update_of_ne hee]
    · rw [heap_set] at hcount ⊢
      by_cases hee : e' = e
      · rw [hee, update_self] at hcount
        exact absurd hcount (Nat.succ_ne_self _)
      · rw [update_of_ne hee]
  | fail =>
    exact h.goto .done rfl nofun nofun

/-! ## Runs -/

/-- A version is observed only while the comparison would still succeed. -/
def Fresh (value : Fin N → Bytes) (s : State N) (i : Fin N) : Prop :=
  match s.pc i with
  | .compared e => cmpFunc2V2 (value i) (s.mem.heap e).value = true
  | _ => True

instance (value : Fin N → Bytes) (s : State N) (i : Fin N) : Decidable (Fresh value s i) := by
  unfold Fresh
  split <;> infer_instance

lemma Inv.move (h : Inv table key value s) (hfresh : Fresh value s i)
    (hmove : Move table key value s i s') : Inv table key value s' := by
  cases hmove with
  | newer hpc hfind =>
    refine h.goto _ rfl (fun e he => ?_) nofun
    cases he
    exact hfind
  | older hpc | notFound hpc | retry hpc => exact h.goto _ rfl nofun nofun
  | insert hpc hfind => exact h.insert hfind
  | @observe e hpc hvalid hfit =>
    refine h.goto _ rfl nofun fun items hitems => ?_
    cases hitems
    have hcmp : cmpFunc2V2 (value i) (s.mem.heap e).value = true := by
      unfold Fresh at hfresh
      rw [hpc] at hfresh
      exact hfresh
    exact .update (h.compared hpc).1 le_rfl fun _ => hcmp
  | grow hpc hvalid => exact h.grow hpc hvalid
  | commit hpc hcommit => exact h.commit hpc (commits_of_tryCommit (h.ready hpc) hcommit)

/-- Between the two states the key did not go from an entry to one with a smaller commit id. -/
def NotOlder (table : ℕ) (key : Bytes) (s s' : State N) : Prop :=
  ∀ old new, s.mem.committed table key = some old → s'.mem.committed table key = some new →
    keystoreDecode3V2 old ≤ keystoreDecode3V2 new

lemma notOlder_of_eq (h : s'.mem.committed table key = s.mem.committed table key) :
    NotOlder table key s s' := by
  intro old new hold hnew
  rw [h, hold] at hnew
  cases hnew
  exact le_rfl

lemma Commits.notOlder (h : Inv table key value s) (hpc : s.pc i = .ready items)
    (hc : Commits table key s (value i) items m) : NotOlder table key s ⟨m, pcs⟩ := by
  have hother : ∀ e x, s.mem.find table key ≠ some e →
      NotOlder table key s ⟨s.mem.set e x, pcs⟩ := by
    intro e x hne
    refine notOlder_of_eq (committed_congr rfl fun e' he' => update_of_ne ?_ _ _)
    rintro rfl
    exact hne he'
  cases hc with
  | insert e =>
    -- the key held nothing valid before
    by_cases hfind : s.mem.find table key = some e
    · intro old new hold hnew
      have hinv : (s.mem.heap e).version.invalid = true :=
        (h.inserts (i := i) (by rw [hpc]; rfl)).2
      rw [committed, hfind, bind_some, hinv] at hold
      cases hold
    · exact hother e _ hfind
  | @update e v hver =>
    by_cases hfind : s.mem.find table key = some e
    · intro old new hold hnew
      -- the version is the one observed, so the value is the one compared with
      have hcmp : cmpFunc2V2 (value i) (s.mem.heap e).value = true := by
        cases h.ready hpc with
        | update hlt hcount hcmp => exact hcmp (congrArg Version.count hver)
      have hfind' : (s.mem.set e ((s.mem.heap e).write (value i))).find table key = some e := hfind
      rw [committed, hfind, bind_some] at hold
      rw [committed, hfind', bind_some, heap_set, update_self] at hnew
      split at hold
      · cases hold
      · split at hnew
        · cases hnew
        · cases hold
          cases hnew
          exact (of_decide_eq_true hcmp).le
    · exact hother e _ hfind
  | fail => exact notOlder_of_eq rfl

lemma Inv.notOlder (h : Inv table key value s) (hmove : Move table key value s i s') :
    NotOlder table key s s' := by
  cases hmove with
  | insert hpc hfind =>
    intro old new hold _
    rw [committed, hfind] at hold
    cases hold
  | @grow e hpc hvalid =>
    have hfind := h.find_of_valid hpc hvalid
    refine notOlder_of_eq ?_
    rw [committed_of_find hfind hvalid, committed_of_find (find_alloc_self _ _ _ _)]
    · rw [heap_alloc, update_self]
      rfl
    · rw [heap_alloc, update_self]
      exact hvalid
  | commit hpc hcommit =>
    exact (commits_of_tryCommit (h.ready hpc) hcommit).notOlder h hpc
  | _ => exact notOlder_of_eq rfl

/-- In every run of any number of replay transactions in which a version is observed only while
the comparison would still succeed, no step replaces the entry stored under the key by one with a
smaller commit id. -/
theorem notOlder_of_fresh (N : ℕ) (table : ℕ) (key : Bytes) (value : Fin N → Bytes)
    (s s' : State N) (i : Fin N) (hrun : Lts.Run (race table key value) (Fresh value) {} s)
    (hstep : (race table key value).step s i = some s') : NotOlder table key s s' := by
  have hinv : Inv table key value s :=
    hrun.invariant (Inv table key value)
      (fun _ _ _ h hfresh hst => h.move hfresh (move_of_step hst)) inv_init
  exact hinv.notOlder (move_of_step hstep)

/-- Three entries with the commit ids 5, 10 and 20. -/
def threeEntries (i : Fin 3) : Bytes := [0] ++ Bytes.encode 8 ([5, 10, 20].getD i 0)

/-- Thread 0 inserts its entry, and thread 2 replaces it in the end. -/
theorem notOlder_of_fresh_inTurn :
    ∃ s s', Lts.Run (race 10001 [1] threeEntries) (Fresh threeEntries) {} s ∧
      (race 10001 [1] threeEntries).step s 2 = some s' ∧
      s.mem.committed 10001 [1] = some (threeEntries 0) ∧
      s'.mem.committed 10001 [1] = some (threeEntries 2) ∧ NotOlder 10001 [1] s s' := by
  obtain ⟨s, hrun, hold, hnew⟩ := Lts.exists_run_of_execGuarded (race 10001 [1] threeEntries)
    (Fresh threeEntries) {} [0, 0, 0, 2, 2]
    (fun s => s.mem.committed 10001 [1] = some (threeEntries 0) ∧
      ((race 10001 [1] threeEntries).step s 2).map (·.mem.committed 10001 [1]) =
        some (some (threeEntries 2)))
    (by decide +kernel)
  obtain ⟨s', hstep, hnew⟩ := Option.map_eq_some_iff.mp hnew
  exact ⟨s, s', hrun, hstep, hold, hnew,
    notOlder_of_fresh 3 10001 [1] threeEntries s s' 2 hrun hstep⟩

/-- Thread 1 compares its entry 10 with the stored 5. Thread 2 then replaces 5 by 20, and thread 1
observes the version of 20: its commit replaces 20 by 10. -/
theorem not_notOlder_raced :
    ∃ s s', Lts.Reachable (race 10001 [1] threeEntries) s ∧
      (race 10001 [1] threeEntries).step s 1 = some s' ∧ ¬ NotOlder 10001 [1] s s' := by
  obtain ⟨s, hrun, hold, hnew⟩ := Lts.exists_reachable_of_exec (race 10001 [1] threeEntries)
    [0, 0, 0, 1, 2, 2, 2, 1]
    (fun s => s.mem.committed 10001 [1] = some (threeEntries 2) ∧
      ((race 10001 [1] threeEntries).step s 1).map (·.mem.committed 10001 [1]) =
        some (some (threeEntries 1)))
    (by decide +kernel)
  obtain ⟨s', hstep, hnew⟩ := Option.map_eq_some_iff.mp hnew
  refine ⟨s, s', hrun, hstep, fun h => ?_⟩
  exact absurd (h _ _ hold hnew) (by decide +kernel)

end Rolis.Sto.Race
