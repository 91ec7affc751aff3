import Rolis.Sto.OccState

/-!
# The serial order

A transaction takes its place in the serial order when it has all its locks. From then on it either
fails a check, or what it has read is what the transactions in front of it leave: an answer is
`Settled` when its check has passed. Transactions in front of it that have still to install a write
of the same key are not in the way, because they are going to fail (`Clear`).

`Ordered` says this for all transactions, together with what it rests on: the last transaction in
the order that has installed a key has left what is in the tables.
-/

namespace Rolis.Sto.Occ

open Function State

variable {M : Masstree} {ι : Type} {pc : Pc ι} {thread : ι → ℕ} {s s' : State M ι} {i : ι}

namespace Pc

/-- The transaction has its place in the order and has not failed. -/
def placed : Pc ι → Bool
  | .check _ | .install _ | .draw | .unlock true _ | .committed => true
  | _ => false

/-- The transaction has not got to its place. -/
def early : Pc ι → Bool
  | .check _ | .install _ | .draw | .unlock _ _ | .cleanup _ | .committed | .aborted => false
  | _ => true

lemma placed_of_settling (h : pc.settling) : pc.placed := by
  cases pc with
  | check | install => rfl
  | _ => cases h

lemma placed_of_decided (h : pc.decided) : pc.placed := by
  cases pc with
  | install | draw | committed => rfl
  | unlock ok =>
    cases ok with
    | true => rfl
    | false => cases h
  | _ => cases h

lemma running_of_settling (h : pc.settling) : pc.running := by
  cases pc with
  | check | install => rfl
  | _ => cases h

lemma running_of_placed (h : pc.placed) (hd : pc.decided = false) : pc.running := by
  cases pc with
  | check => rfl
  | unlock ok =>
    cases ok with
    | true => cases hd
    | false => cases h
  | install | draw | committed => cases hd
  | _ => cases h

end Pc

/-- The transactions by the time at which they had all their locks. -/
def State.order (s : State M ι) : List ι :=
  s.events.filterMap fun ev =>
    match ev with
    | .locked i => some i
    | .installed _ _ | .drew _ => none

/-- What a transaction that will commit writes. -/
def State.decidedWrites (s : State M ι) (i : ι) (k : Key) : Option (Option Bytes) :=
  if (s.txns i).pc.decided then writeOf (s.txns i).calls k else none

instance instDecidableMemKey (k : Key) (l : List Key) : Decidable (k ∈ l) :=
  decidable_of_iff (l.any (fun k' => decide (k' = k)) = true) (by simp)

/-- What a transaction has installed. -/
def State.installedWrites (s : State M ι) (i : ι) (k : Key) : Option (Option Bytes) :=
  if k ∈ (s.txns i).installed then writeOf (s.txns i).calls k else none

/-- A write of a transaction with all its locks that is not installed. -/
structure Pending (s : State M ι) (i : ι) (it : Item M.Node) : Prop where
  settling : (s.txns i).pc.settling
  mem : it ∈ (s.txns i).items
  write : it.wdata.isSome
  new : it.key ∉ (s.txns i).installed

/-- The element of an update or a delete is invalid: the check of its version will fail. -/
def Stale (σ : Store M ι) (it : Item M.Node) : Prop :=
  it.hasInsert = false ∧ ∃ e, it.ref = .elem e ∧ (σ.heap e).word.version.invalid

/-- No transaction behind `i` has installed the key. -/
def NoLater [DecidableEq ι] (s : State M ι) (i : ι) (k : Key) : Prop :=
  ∀ j ∈ Serial.behind s.order i, k ∉ (s.txns j).installed

/-- Transactions in front of `i` with a pending write of the key are going to fail. -/
def Clear [DecidableEq ι] (s : State M ι) (i : ι) (k : Key) : Prop :=
  ∀ j ∈ Serial.before s.order i, ∀ it, Pending s j it → it.key = k →
    (s.txns j).pc.decided = false ∧ Stale s.store it

/-- `P` holds for what the transactions in front of `i` leave under the key, whatever happens. -/
def Settled [DecidableEq ι] (db : Contents) (s : State M ι) (i : ι) (k : Key)
    (P : Option Bytes → Prop) : Prop :=
  Clear s i k ∧ P (Serial.after s.decidedWrites db (Serial.before s.order i) k)

/-- What an answer says about a key is settled, or the check that settles it is still to come; until
then nobody behind the transaction has installed the key, as long as the evidence is valid. -/
def Answered [DecidableEq ι] (db : Contents) (s : State M ι) (i : ι) (k : Key)
    (P : Option Bytes → Prop) : Prop :=
  (∀ v, P v) ∨ Settled db s i k P ∨ (s.txns i).pc.decided = false ∧ ∃ r, r ∉ (s.txns i).passed ∧
    Evidence s.store i (lead (s.txns i).items) k P r ∧
      (Valid s.store (lead (s.txns i).items) r → NoLater s i k)

/-- The order explains the run so far, from the contents `db`. -/
structure Ordered [DecidableEq ι] (db : Contents) (s : State M ι) : Prop where
  nodup : s.order.Nodup
  mem : ∀ i, (s.txns i).pc.placed → i ∈ s.order
  not_mem : ∀ i, (s.txns i).pc.early → i ∉ s.order
  last : ∀ i it, Pending s i it → ¬ Stale s.store it → NoLater s i it.key
  answered : ∀ i, (s.txns i).pc.placed → ∀ x ∈ (s.txns i).calls, ∀ k, Answered db s i k (Says x k)
  current : ∀ k, s.store.current k = Serial.after s.installedWrites db s.order k

/-! ## Who has the element of a key -/

section

variable {j : ι} {it it' : Item M.Node} {k : Key} {P : Option Bytes → Prop} {r : Ref M.Node}

lemma pending_congr (h : s'.txns i = s.txns i) : Pending s' i it ↔ Pending s i it := by
  constructor <;> rintro ⟨hset, hmem, hw, hnew⟩
  · rw [h] at hset hmem hnew
    exact ⟨hset, hmem, hw, hnew⟩
  · refine ⟨?_, ?_, hw, ?_⟩ <;> rwa [h]

section

variable (h : Ok thread s)

include h

/-- The element of a write that is not stale is in the tree, and locked. -/
lemma Pending.holder (hp : Pending s i it) (hs : ¬ Stale s.store it) :
    ∃ e, it.writesElem e ∧ s.store.find it.key = some e ∧
      (s.store.heap e).word.lock = some (thread i) ∧
      (it.hasInsert → (s.store.heap e).live = false ∧ (s.store.heap e).writer = some i) ∧
      (it.hasInsert = false → (s.store.heap e).word.version.invalid = false) := by
  have hw := h.work i (Pc.running_of_settling hp.settling)
  have hc := h.core i
  obtain ⟨-, e, href, hkey⟩ := hc.items.write it hp.mem hp.write
  have hwe : it.writesElem e := ⟨href, hp.write⟩
  have hlock := (hw.locked e (hw.pc.allLocked hp.settling it hp.mem e hwe)).2
  by_cases hins : it.hasInsert
  · have hleft : it ∈ (s.txns i).pc.left (s.txns i).items := by
      have hset := hp.settling
      generalize (s.txns i).pc = pc at hset
      cases pc with
      | check | install => exact hp.mem
      | _ => cases hset
    have hfresh := hw.fresh it hleft hins hp.new e hwe
    refine ⟨e, hwe, hfresh.find, hlock, fun _ => ⟨hfresh.new, hfresh.writer⟩, fun hno => ?_⟩
    rw [hins] at hno
    cases hno
  · rw [Bool.not_eq_true] at hins
    have hvalid : (s.store.heap e).word.version.invalid = false := by
      by_contra hinv
      rw [Bool.not_eq_false] at hinv
      exact hs ⟨hins, e, href, hinv⟩
    have hfind := (h.mem.valid (hc.items.ref it hp.mem e href).1 hvalid).2
    rw [hkey] at hfind
    refine ⟨e, hwe, hfind, hlock, fun hyes => ?_, fun _ => hvalid⟩
    rw [hins] at hyes
    cases hyes

/-- At most one transaction has a write of a key pending that is not stale. -/
lemma Pending.unique (hi : Pending s i it) (hj : Pending s j it') (hsi : ¬ Stale s.store it)
    (hsj : ¬ Stale s.store it') (hk : it.key = it'.key) : i = j := by
  obtain ⟨e, -, hfind, hlock, -⟩ := hi.holder h hsi
  obtain ⟨e', -, hfind', hlock', -⟩ := hj.holder h hsj
  rw [hk, hfind'] at hfind
  cases hfind
  rw [hlock'] at hlock
  exact h.apart i j (Pc.running_of_settling hi.settling) (Pc.running_of_settling hj.settling)
    (Option.some.inj hlock).symm

/-- A transaction whose checks have passed has no stale write. -/
lemma Pending.not_stale (hp : Pending s i it) (hd : (s.txns i).pc.decided) :
    ¬ Stale s.store it := by
  rintro ⟨hins, e, href, hinv⟩
  have hw := h.work i (Pc.running_of_settling hp.settling)
  have hpass : ∀ it ∈ (s.txns i).items, it.rdata.isSome → it.ref ∈ (s.txns i).passed := by
    have hpc := hw.pc
    have hset := hp.settling
    generalize (s.txns i).pc = pc at hpc hd hset
    cases pc with
    | install => exact hpc.2
    | check => cases hd
    | _ => cases hset
  rw [hw.valid_of_passed (h.core i) hp.settling hpass hp.mem hins ⟨href, hp.write⟩ hp.new] at hinv
  cases hinv

/-- Nobody else has a write of a key that is not there or that `i` has inserted, unless it is going
to fail. -/
lemma Pending.stale_of_free (hp : Pending s j it) (hne : j ≠ i)
    (hfree : s.store.find it.key = none ∨ Mine s.store i it.key) : Stale s.store it := by
  by_contra hs
  obtain ⟨e, hwe, hfind, -, hins, -⟩ := hp.holder h hs
  rcases hfree with hnone | hmine
  · rw [hnone] at hfind
    cases hfind
  · obtain ⟨hnew, hwriter⟩ := hmine.eq hfind
    by_cases hyes : it.hasInsert
    · rw [(hins hyes).2] at hwriter
      exact hne (Option.some.inj hwriter)
    · rw [Bool.not_eq_true] at hyes
      have hl := ((h.core j).items.update it hp.mem hyes e hwe).1
      rw [hnew] at hl
      cases hl

omit h in
lemma Store.current_of_free {σ : Store M ι} (hfree : σ.find k = none ∨ Mine σ i k) :
    σ.current k = none := by
  rcases hfree with hfind | ⟨e, hfind, hnew, -⟩
  · exact current_of_none hfind
  · exact current_of_new hfind hnew

/-- While evidence is valid, another transaction can have the key only by the element of the
evidence, which it has locked. -/
lemma Evidence.holder (hev : Evidence s.store i (lead (s.txns i).items) k P r)
    (hv : Valid s.store (lead (s.txns i).items) r) (hp : Pending s j it) (hs : ¬ Stale s.store it)
    (hk : it.key = k) (hne : j ≠ i) :
    ∃ e, r = .elem e ∧ s.store.find k = some e ∧
      (s.store.heap e).word.lock = some (thread j) ∧ it.hasInsert = false := by
  subst hk
  cases hev with
  | @elem e hlead hlt hkey hP =>
    obtain ⟨e', hwe, hfind, hlock, hins, -⟩ := hp.holder h hs
    obtain ⟨st, -, hholds⟩ := hv
    cases st with
    | version v => exact hholds.elim
    | word w =>
      have hvalid : (s.store.heap e).word.version.invalid = false := by rw [hholds.1, hholds.2]
      cases h.mem.eq_of_find hfind hlt hkey hvalid
      refine ⟨_, rfl, hfind, hlock, ?_⟩
      by_contra hyes
      rw [Bool.not_eq_false] at hyes
      have hl := (h.mem.valid hlt hvalid).1
      rw [(hins hyes).1] at hl
      cases hl
  | node hlead hP => exact absurd (hp.stale_of_free h hne (hP hv).2.1) hs

/-- Evidence that is valid says what is under the key. -/
lemma Evidence.current (hev : Evidence s.store i (lead (s.txns i).items) k P r)
    (hv : Valid s.store (lead (s.txns i).items) r) : P (s.store.current k) := by
  cases hev with
  | @elem e hlead hlt hkey hP =>
    have hval := hP hv
    obtain ⟨st, -, hholds⟩ := hv
    cases st with
    | version v => exact hholds.elim
    | word w =>
      obtain ⟨hlive, hfind⟩ := h.mem.valid hlt (by rw [hholds.1, hholds.2])
      rw [hkey] at hfind
      rwa [Store.current_of_live hfind hlive]
  | node hlead hP =>
    obtain ⟨-, hfree, hnone⟩ := hP hv
    rwa [Store.current_of_free hfree]

end

/-- A transaction that has installed something will commit. -/
lemma Core.decided_of_installed {σ : Store M ι} {here : ℕ} {t : Txn M.Node ι}
    (hc : Core σ here t) (hk : k ∈ t.installed) : t.pc.decided := by
  have hinst := hc.installs
  generalize t.pc = pc at hinst
  cases pc with
  | install | draw | committed => rfl
  | unlock ok =>
    cases ok with
    | true => rfl
    | false =>
      rw [show t.installed = [] from hinst] at hk
      cases hk
  | _ =>
    rw [show t.installed = [] from hinst] at hk
    cases hk

/-- What a transaction writes and has installed is the same, unless the install is to come. -/
lemma Ok.decided_eq_installed (h : Ok thread s) (j : ι) (k : Key)
    (hp : ∀ it, Pending s j it → it.key = k → (s.txns j).pc.decided = false) :
    s.decidedWrites j k = s.installedWrites j k := by
  have hc := h.core j
  by_cases hk : k ∈ (s.txns j).installed
  · rw [decidedWrites, installedWrites, if_pos hk, if_pos (hc.decided_of_installed hk)]
  · rw [decidedWrites, installedWrites, if_neg hk]
    split
    · next hd =>
      cases hw : writeOf (s.txns j).calls k with
      | none => rfl
      | some v =>
        exfalso
        obtain ⟨it, hit, hitw, rfl, -⟩ := (hc.linked.writes k v).mp hw
        have hinst := hc.installs
        by_cases hset : (s.txns j).pc.settling
        · rw [hp it ⟨hset, hit, hitw, hk⟩ rfl] at hd
          cases hd
        · generalize (s.txns j).pc = pc at hd hset hinst
          cases pc with
          | install => exact hset rfl
          | draw | committed => exact hk (hinst it hit hitw)
          | unlock ok =>
            cases ok with
            | true => exact hk (hinst it hit hitw)
            | false => cases hd
          | _ => cases hd
    · rfl

end

/-! ## Quiet steps -/

/-- A step of one transaction that changes nothing the order depends on. -/
structure Calm (t t' : Txn M.Node ι) : Prop where
  same : t.pc.early = false → t'.items = t.items ∧ t'.calls = t.calls
  installed : t'.installed = t.installed
  passed : t'.pc.placed → t'.passed = t.passed
  settling : t'.pc.settling → t.pc.settling
  decided : t.pc.early = false → t'.pc.decided = t.pc.decided
  placed : t'.pc.placed → t.pc.placed
  early : t'.pc.early → t.pc.early

lemma Calm.refl (t : Txn M.Node ι) : Calm t t :=
  ⟨fun _ => ⟨rfl, rfl⟩, rfl, fun _ => rfl, id, fun _ => rfl, id, id⟩

section

variable [DecidableEq ι] {db : Contents}

omit [DecidableEq ι] in
lemma Stale.drift {σ σ' : Store M ι} {it : Item M.Node} (hd : Drifts σ σ')
    (hlt : ∀ e, it.ref = .elem e → e < σ.next ∧ (σ.heap e).live) (h : Stale σ it) :
    Stale σ' it := by
  obtain ⟨hins, e, href, hinv⟩ := h
  obtain ⟨hlt, hlive⟩ := hlt e href
  exact ⟨hins, e, href, ((hd.follows hlt).dead hlive hinv).1⟩

omit [DecidableEq ι] in
/-- A stale write stays stale. -/
lemma Pending.stale_drift {σ' : Store M ι} {j : ι} {it : Item M.Node} (h : Ok thread s)
    (hp : Pending s j it) (hd : Drifts s.store σ') (hs : Stale s.store it) : Stale σ' it := by
  refine hs.drift hd fun e href => ⟨((h.core j).items.ref it hp.mem e href).1, ?_⟩
  exact ((h.core j).items.update it hp.mem hs.1 e ⟨href, hp.write⟩).1

/-- Nothing that the order depends on changes. -/
lemma Ordered.calm (hok : Ok thread s) (h : Ordered db s) (horder : s'.order = s.order)
    (hd : Drifts s.store s'.store) (hcur : ∀ k, s'.store.current k = s.store.current k)
    (hcalm : ∀ j, Calm (s.txns j) (s'.txns j))
    (hmine : ∀ j, (s'.txns j).pc.placed → (s'.txns j).pc.decided = false → ∀ k,
      Mine s.store j k → Mine s'.store j k) : Ordered db s' := by
  have hearly : ∀ j, j ∈ s.order → (s.txns j).pc.early = false := by
    intro j hj
    by_contra he
    rw [Bool.not_eq_false] at he
    exact h.not_mem j he hj
  have hpend : ∀ {j it}, Pending s' j it → Pending s j it := by
    intro j it hp
    have hset := (hcalm j).settling hp.settling
    have hj := h.mem j (Pc.placed_of_settling hset)
    have hsame := ((hcalm j).same (hearly j hj)).1
    exact ⟨hset, hsame ▸ hp.mem, hp.write, (hcalm j).installed ▸ hp.new⟩
  have hlater : ∀ {j k}, NoLater s j k → NoLater s' j k := by
    intro j k hn j' hj'
    rw [horder] at hj'
    rw [(hcalm j').installed]
    exact hn j' hj'
  have hdec : ∀ j ∈ s.order, ∀ k, s'.decidedWrites j k = s.decidedWrites j k := by
    intro j hj k
    rw [decidedWrites, decidedWrites, (hcalm j).decided (hearly j hj),
      ((hcalm j).same (hearly j hj)).2]
  refine ⟨horder ▸ h.nodup, fun j hj => ?_, fun j hj => ?_, fun j it hp hs => ?_,
    fun j hj x hx k => ?_, fun k => ?_⟩
  · rw [horder]
    exact h.mem j ((hcalm j).placed hj)
  · rw [horder]
    exact h.not_mem j ((hcalm j).early hj)
  · exact hlater (h.last j it (hpend hp) fun hold => hs ((hpend hp).stale_drift hok hd hold))
  · have hplaced := (hcalm j).placed hj
    have hjo := h.mem j hplaced
    obtain ⟨hitems, hcalls⟩ := (hcalm j).same (hearly j hjo)
    rw [hcalls] at hx
    rcases h.answered j hplaced x hx k with hall | ⟨hclear, hP⟩ | ⟨hund, r, hr, hev, hnl⟩
    · exact .inl hall
    · refine .inr (.inl ⟨fun j' hj' it hp hk => ?_, ?_⟩)
      · rw [horder] at hj'
        obtain ⟨hund, hstale⟩ := hclear j' hj' it (hpend hp) hk
        refine ⟨?_, (hpend hp).stale_drift hok hd hstale⟩
        rw [(hcalm j').decided (hearly j' (Serial.mem_of_mem_before hj')), hund]
      · rw [horder, Serial.after_congr fun j' hj' => hdec j' (Serial.mem_of_mem_before hj') k]
        exact hP
    · have hund' : (s'.txns j).pc.decided = false := by
        rw [(hcalm j).decided (hearly j hjo), hund]
      refine .inr (.inr ⟨hund', r, by rwa [(hcalm j).passed hj], ?_, fun hv => ?_⟩)
      · rw [hitems]
        exact hev.drift hd (hmine j hj hund' k) (hok.core j).items.stamp
      · rw [hitems] at hv
        exact hlater (hnl (hv.of_drift hd ((hok.core j).items.stamp r)))
  · rw [hcur, h.current, horder]
    refine (Serial.after_congr fun j hj => ?_).symm
    rw [installedWrites, installedWrites, (hcalm j).installed, ((hcalm j).same (hearly j hj)).2]

end

end Rolis.Sto.Occ
