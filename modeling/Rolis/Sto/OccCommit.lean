import Rolis.Sto.OccOrder

/-!
# The steps of a commit

The four steps on which the order depends: a transaction has all its locks and takes its place
(`Ordered.locked`), one of its checks passes (`Ordered.checkPass`), all have passed
(`Ordered.decide`), and a write is installed (`Ordered.installed`).
-/

namespace Rolis.Sto.Occ

open Function List Serial State Option

variable {M : Masstree} {ι : Type} [DecidableEq ι] {k : Key} {it : Item M.Node}

section

variable {thread : ι → ℕ} {epoch : ℕ} {db : Contents} {s s' : State M ι} {i : ι}
  {P : Option Bytes → Prop}

/-! ## Events and the order -/

/-- The transaction `i` becomes `t`, memory becomes `σ`, and `ev` happens. -/
structure Records (s s' : State M ι) (i : ι) (t : Txn M.Node ι) (σ : Store M ι) (ev : Event ι) :
    Prop extends Changes s s' i t where
  store : s'.store = σ
  events : s'.events = s.events ++ [ev]

/-- The last lock of a transaction. -/
abbrev TakesPlace (s s' : State M ι) (i : ι) : Prop :=
  Records s s' i { s.txns i with pc := .check 0 } s.store (.locked i)

/-- The install of the item with the number `n`. -/
abbrev Places (s s' : State M ι) (i : ι) (n : ℕ) (it : Item M.Node) (σ : Store M ι) : Prop :=
  Records s s' i
    { s.txns i with pc := .install (n + 1), installed := it.key :: (s.txns i).installed } σ
    (.installed i it.key)

omit [DecidableEq ι] in
lemma TakesPlace.order (h : TakesPlace s s' i) : s'.order = s.order ++ [i] := by
  simp [State.order, h.events]

omit [DecidableEq ι] in
lemma Places.order {n : ℕ} {σ : Store M ι} (h : Places s s' i n it σ) : s'.order = s.order := by
  simp [State.order, h.events]

omit [DecidableEq ι] in
lemma State.order_record_drew (s : State M ι) (i : ι) : (s.record (.drew i)).order = s.order := by
  simp [order, record]

omit [DecidableEq ι] in
lemma Calm.changes {t : Txn M.Node ι} (hc : Changes s s' i t) (ht : Calm (s.txns i) t) (j : ι) :
    Calm (s.txns j) (s'.txns j) :=
  hc.all (p := fun j t => Calm (s.txns j) t) ht (fun j _ => Calm.refl (s.txns j)) j

/-! ## Taking the place -/

/-- When every pending write of a key in front of `i` is stale, what the transactions in front of
`i` leave is what they have installed. -/
lemma Settled.of_stale (hok : Ok thread s)
    (hstale : ∀ j ∈ before s.order i, ∀ it, Pending s j it → it.key = k → Stale s.store it)
    (hP : P (after s.installedWrites db (before s.order i) k)) :
    Settled db s i k P := by
  have hclear : Clear s i k := by
    intro j hj it hp hk
    refine ⟨?_, hstale j hj it hp hk⟩
    by_contra hd
    rw [Bool.not_eq_false] at hd
    exact hp.not_stale hok hd (hstale j hj it hp hk)
  refine ⟨hclear, ?_⟩
  rw [after_congr fun j hj => hok.decided_eq_installed j k fun it hp hk =>
    (hclear j hj it hp hk).1]
  exact hP

/-- A transaction takes its place at the end of the order, and the keys that it has skipped are not
there. -/
lemma Ordered.locked (hok : Ok thread s) (h : Ordered db s) {n : ℕ}
    (hpc : (s.txns i).pc = .lock n)
    (hskip : ∀ k, (s.txns i).skipped k → s.store.find k = none ∨ Mine s.store i k)
    (hok' : Ok thread s') (hc : TakesPlace s s' i) : Ordered db s' := by
  have hrun : (s.txns i).pc.running := by rw [hpc]; rfl
  have hnot : i ∉ s.order := h.not_mem i (by rw [hpc]; rfl)
  have hpcok := (hok.work i hrun).pc
  have hinst := (hok.core i).installs
  rw [hpc] at hpcok hinst
  have hpassed : (s.txns i).passed = [] := hpcok.1
  have hinstalled : (s.txns i).installed = [] := hinst
  have horder := hc.order
  have hstore := hc.store
  have hself := hc.self
  have hother := hc.other
  have hne : ∀ {j}, j ∈ s.order → j ≠ i := by
    rintro j hj rfl
    exact hnot hj
  have hpend : ∀ {j it}, j ≠ i → (Pending s' j it ↔ Pending s j it) :=
    fun hj => pending_congr (hother _ hj)
  have hinst' : ∀ j k, s'.installedWrites j k = s.installedWrites j k := by
    intro j k
    rw [installedWrites, installedWrites, hc.same Txn.installed rfl j, hc.same Txn.calls rfl j]
  have hdec : ∀ j ∈ s.order, ∀ k, s'.decidedWrites j k = s.decidedWrites j k := by
    intro j hj k
    rw [decidedWrites, decidedWrites, hother j (hne hj)]
  have hbefore : ∀ {j}, j ∈ s.order → before s'.order j = before s.order j := by
    intro j hj
    rw [horder, before_append_of_mem hj]
  have hlater : ∀ {j k}, j ∈ s.order → NoLater s j k → NoLater s' j k := by
    intro j k hj hn j' hj'
    rw [horder, behind_append_of_mem hj] at hj'
    rcases mem_append.mp hj' with hj' | hj'
    · rw [hother j' (hne (mem_of_mem_behind hj'))]
      exact hn j' hj'
    · cases mem_singleton.mp hj'
      rw [hself]
      simp [hinstalled]
  -- nobody is behind the transaction
  have hbehind : behind s'.order i = [] := by
    rw [horder, behind_append_cons hnot]
  have hfront : before s'.order i = s.order := by
    rw [horder, before_append_cons hnot]
  refine ⟨?_, fun j hj => ?_, fun j hj => ?_, fun j it hp hs => ?_, fun j hj x hx k => ?_,
    fun k => ?_⟩
  · rw [horder]
    exact nodup_append.mpr ⟨h.nodup, by simp, fun a ha b hb => by
      cases mem_singleton.mp hb
      exact hne ha⟩
  · rw [horder, mem_append]
    by_cases hji : j = i
    · exact .inr (by simp [hji])
    · rw [hother j hji] at hj
      exact .inl (h.mem j hj)
  · by_cases hji : j = i
    · subst hji
      rw [hself] at hj
      cases hj
    · rw [hother j hji] at hj
      rw [horder, mem_append, mem_singleton]
      exact fun hmem => hmem.elim (h.not_mem j hj) hji
  · by_cases hji : j = i
    · subst hji
      intro j' hj'
      rw [hbehind] at hj'
      cases hj'
    · have hp := (hpend hji).mp hp
      rw [hstore] at hs
      exact hlater (h.mem j (Pc.placed_of_settling hp.settling)) (h.last j it hp hs)
  · by_cases hji : j = i
    · subst hji
      rw [hself] at hx
      rcases (hok.work j hrun).known (by rw [hpc]; rfl) x hx k with hall | ⟨hnone, hfree⟩ | ⟨r, hr⟩
      · exact .inl hall
      · -- nobody in front of the transaction can install the key
        have hfree : s.store.find k = none ∨ Mine s.store j k := hfree.elim .inr (hskip k)
        refine .inr (.inl (Settled.of_stale hok' ?_ ?_))
        · rintro j' hj' it hp rfl
          rw [hfront] at hj'
          rw [hstore]
          exact ((hpend (hne hj')).mp hp).stale_of_free hok (hne hj') hfree
        · rw [hfront, after_congr fun j' _ => hinst' j' k, ← h.current,
            Store.current_of_free hfree]
          exact hnone
      · refine .inr (.inr ⟨by rw [hself]; rfl, r, by rw [hself]; simp [hpassed], ?_, fun _ => ?_⟩)
        · rw [hself, hstore]
          exact hr
        · intro j' hj'
          rw [hbehind] at hj'
          cases hj'
    · rw [hother j hji] at hj hx
      have hjo := h.mem j hj
      rcases h.answered j hj x hx k with hall | ⟨hclear, hP⟩ | ⟨hund, r, hr, hev, hnl⟩
      · exact .inl hall
      · refine .inr (.inl ⟨fun j' hj' it hp hk => ?_, ?_⟩)
        · rw [hbefore hjo] at hj'
          have hj'i := hne (mem_of_mem_before hj')
          rw [hstore, hother j' hj'i]
          exact hclear j' hj' it ((hpend hj'i).mp hp) hk
        · rw [hbefore hjo, after_congr fun j' hj' => hdec j' (mem_of_mem_before hj') k]
          exact hP
      · refine .inr (.inr ⟨by rwa [hother j hji], r, by rwa [hother j hji], ?_, fun hv => ?_⟩)
        · rwa [hother j hji, hstore]
        · rw [hother j hji, hstore] at hv
          exact hlater hjo (hnl hv)
  · rw [hstore, h.current, horder, after_append_of_none]
    · exact after_congr fun j _ => (hinst' j k).symm
    · intro j hj
      cases mem_singleton.mp hj
      rw [installedWrites, hself]
      simp [hinstalled]

/-! ## Checks -/

/-- Nobody behind `i` has installed the key, nor has `i`: what is in the tables is from the
transactions in front of `i`. -/
lemma Ordered.current_before (h : Ordered db s) (hi : i ∈ s.order)
    (hnew : k ∉ (s.txns i).installed) (hnl : NoLater s i k) :
    s.store.current k = after s.installedWrites db (before s.order i) k := by
  rw [h.current]
  have hsplit := split hi
  rw [hsplit, before_append_cons (not_mem_before hi)]
  refine after_append_of_none fun j hj => ?_
  rcases mem_cons.mp hj with rfl | hj
  · rw [installedWrites, if_neg hnew]
  · rw [installedWrites, if_neg (hnl j hj)]

/-- A step of a transaction in its checks that leaves memory and its items alone. -/
structure Advances (s s' : State M ι) (i : ι) : Prop where
  store : s'.store = s.store
  order : s'.order = s.order
  other : ∀ j, j ≠ i → s'.txns j = s.txns j
  items : (s'.txns i).items = (s.txns i).items
  calls : (s'.txns i).calls = (s.txns i).calls
  installed : (s'.txns i).installed = (s.txns i).installed
  undecided : (s.txns i).pc.decided = false
  settling : (s.txns i).pc.settling
  settling' : (s'.txns i).pc.settling

namespace Advances

variable {j : ι}

/-- The step of one transaction. -/
lemma setTxn {t : Txn M.Node ι} (hitems : t.items = (s.txns i).items)
    (hcalls : t.calls = (s.txns i).calls) (hinst : t.installed = (s.txns i).installed)
    (hund : (s.txns i).pc.decided = false) (hset : (s.txns i).pc.settling)
    (hset' : t.pc.settling) : Advances s (s.setTxn i t) i := by
  have hc : Changes s (s.setTxn i t) i t := .of_update rfl
  refine ⟨rfl, rfl, hc.other, ?_, ?_, ?_, hund, hset, ?_⟩
  · rw [hc.self, hitems]
  · rw [hc.self, hcalls]
  · rw [hc.self, hinst]
  · rw [hc.self, hset']

section

variable (h : Advances s s' i)

include h

omit [DecidableEq ι] in
lemma pending_iff : Pending s' j it ↔ Pending s j it := by
  by_cases hj : j = i
  · subst hj
    constructor
    · exact fun hp => ⟨h.settling, h.items ▸ hp.mem, hp.write, h.installed ▸ hp.new⟩
    · exact fun hp => ⟨h.settling', h.items ▸ hp.mem, hp.write, h.installed ▸ hp.new⟩
  · exact pending_congr (h.other j hj)

omit [DecidableEq ι] in
lemma installed_eq (j : ι) : (s'.txns j).installed = (s.txns j).installed := by
  by_cases hj : j = i
  · rw [hj, h.installed]
  · rw [h.other j hj]

omit [DecidableEq ι] in
lemma installedWrites_eq (j : ι) (k : Key) : s'.installedWrites j k = s.installedWrites j k := by
  by_cases hj : j = i
  · rw [installedWrites, installedWrites, hj, h.installed, h.calls]
  · rw [installedWrites, installedWrites, h.other j hj]

lemma noLater (hn : NoLater s j k) : NoLater s' j k := by
  intro j' hj'
  rw [h.order] at hj'
  rw [h.installed_eq]
  exact hn j' hj'

omit [DecidableEq ι] in
/-- A transaction that is decided now and stands where the key is settled does not write it. -/
lemma decidedWrites_eq (hok : Ok thread s)
    (hfresh : (s'.txns i).pc.decided → ∀ it, Pending s i it → ¬ Stale s.store it)
    (hstale : ∀ it, Pending s i it → it.key = k → Stale s.store it) :
    s'.decidedWrites i k = s.decidedWrites i k := by
  have hund := h.undecided
  have hnone : s.decidedWrites i k = none :=
    if_neg (by rw [hund]; exact Bool.false_ne_true)
  rw [hnone, decidedWrites]
  split
  · next hd =>
    rw [h.calls]
    cases hw : writeOf (s.txns i).calls k with
    | none => rfl
    | some v =>
      obtain ⟨it, hit, hitw, rfl, -⟩ := ((hok.core i).linked.writes k v).mp hw
      have hnew : it.key ∉ (s.txns i).installed := by
        intro hk
        rw [(hok.core i).decided_of_installed hk] at hund
        cases hund
      have hp : Pending s i it := ⟨h.settling, hit, hitw, hnew⟩
      exact absurd (hstale it hp rfl) (hfresh hd it hp)
  · rfl

/-- What is settled stays settled: a transaction whose last check passes has no stale write. -/
lemma settled (hok : Ok thread s)
    (hfresh : (s'.txns i).pc.decided → ∀ it, Pending s i it → ¬ Stale s.store it)
    (hs : Settled db s j k P) : Settled db s' j k P := by
  obtain ⟨hclear, hP⟩ := hs
  constructor
  · intro j' hj' it hp hk
    rw [h.order] at hj'
    rw [h.pending_iff] at hp
    obtain ⟨hund, hstale⟩ := hclear j' hj' it hp hk
    rw [h.store]
    refine ⟨?_, hstale⟩
    by_cases hji : j' = i
    · subst hji
      by_contra hd
      rw [Bool.not_eq_false] at hd
      exact hfresh hd it hp hstale
    · rwa [h.other j' hji]
  · rw [h.order, after_congr]
    · exact hP
    · intro j' hj'
      by_cases hji : j' = i
      · subst hji
        exact h.decidedWrites_eq hok hfresh fun it hp hk => (hclear j' hj' it hp hk).2
      · rw [decidedWrites, decidedWrites, h.other j' hji]

end

end Advances

/-- A step of the checks keeps the order, if the answers of the transaction are settled or still
have their evidence. -/
lemma Ordered.advance (hok : Ok thread s) (h : Ordered db s) (ha : Advances s s' i)
    (hfresh : (s'.txns i).pc.decided → ∀ it, Pending s i it → ¬ Stale s.store it)
    (hans : ∀ x ∈ (s.txns i).calls, ∀ k, (∀ v, Says x k v) ∨ Settled db s i k (Says x k) ∨
      (s'.txns i).pc.decided = false ∧ ∃ r, r ∉ (s'.txns i).passed ∧
        Evidence s.store i (lead (s.txns i).items) k (Says x k) r ∧
          (Valid s.store (lead (s.txns i).items) r → NoLater s i k)) : Ordered db s' := by
  have hi : i ∈ s.order := h.mem i (Pc.placed_of_settling ha.settling)
  refine ⟨ha.order ▸ h.nodup, fun j hj => ?_, fun j hj => ?_, fun j it hp hs => ?_,
    fun j hj x hx k => ?_, fun k => ?_⟩
  · rw [ha.order]
    by_cases hji : j = i
    · rwa [hji]
    · rw [ha.other j hji] at hj
      exact h.mem j hj
  · rw [ha.order]
    by_cases hji : j = i
    · subst hji
      have hset := ha.settling'
      generalize (s'.txns j).pc = pc at hset hj
      cases pc with
      | check | install => cases hj
      | _ => cases hset
    · rw [ha.other j hji] at hj
      exact h.not_mem j hj
  · rw [ha.pending_iff] at hp
    rw [ha.store] at hs
    exact ha.noLater (h.last j it hp hs)
  · by_cases hji : j = i
    · subst hji
      rw [ha.calls] at hx
      rcases hans x hx k with hall | hset | ⟨hund, r, hr, hev, hnl⟩
      · exact .inl hall
      · exact .inr (.inl (ha.settled hok hfresh hset))
      · refine .inr (.inr ⟨hund, r, hr, ?_, fun hv => ha.noLater (hnl ?_)⟩)
        · rwa [ha.store, ha.items]
        · rwa [ha.store, ha.items] at hv
    · rw [ha.other j hji] at hj hx
      rcases h.answered j hj x hx k with hall | hset | ⟨hund, r, hr, hev, hnl⟩
      · exact .inl hall
      · exact .inr (.inl (ha.settled hok hfresh hset))
      · refine .inr (.inr ⟨by rwa [ha.other j hji], r, by rwa [ha.other j hji], ?_,
          fun hv => ha.noLater (hnl ?_)⟩)
        · rwa [ha.store, ha.other j hji]
        · rwa [ha.store, ha.other j hji] at hv
  · rw [ha.store, h.current, ha.order]
    exact after_congr fun j _ => (ha.installedWrites_eq j k).symm

/-- A check that passes settles what its evidence says. -/
lemma Ordered.settled_of_check (hok : Ok thread s) (h : Ordered db s) {j : ℕ}
    (hpc : (s.txns i).pc = .check j) (hit : it ∈ (s.txns i).items) (hread : it.rdata.isSome)
    (hlead : lead (s.txns i).items it.ref = it.rdata) (hcheck : s.store.checkItem (thread i) it)
    (hev : Evidence s.store i (lead (s.txns i).items) k P it.ref)
    (hnl : Valid s.store (lead (s.txns i).items) it.ref → NoLater s i k) : Settled db s i k P := by
  have hrun : (s.txns i).pc.running := by rw [hpc]; rfl
  have hi : i ∈ s.order := h.mem i (by rw [hpc]; rfl)
  have hinst := (hok.core i).installs
  rw [hpc] at hinst
  have hnil : (s.txns i).installed = [] := hinst
  obtain ⟨hv, hlock⟩ := (hok.core i).valid_of_check hit hread hlead hcheck
  refine Settled.of_stale hok (fun j' hj' it' hp hk => ?_) ?_
  · by_contra hs
    have hne : j' ≠ i := by
      rintro rfl
      exact not_mem_before hi hj'
    obtain ⟨e, href, -, hheld, -⟩ := hev.holder hok hv hp hs hk hne
    rcases hlock e href with hfree | hmine
    · rw [hfree] at hheld
      cases hheld
    · rw [hmine] at hheld
      exact hok.thread_ne hrun (Pc.running_of_settling hp.settling) hne (some.inj hheld).symm
  · rw [← h.current_before hi (by rw [hnil]; exact not_mem_nil) (hnl hv)]
    exact hev.current hok hv

/-- A check passes. -/
lemma Ordered.checkPass (hok : Ok thread s) (h : Ordered db s) {j : ℕ}
    (hpc : (s.txns i).pc = .check j) (hit : (s.txns i).items[j]? = some it)
    (hread : it.rdata.isSome)
    (hpass : s.store.checkItem (thread i) it ∨ (s.txns i).precedingDuplicateRead j it.ref) :
    Ordered db (s.setTxn i
      { s.txns i with pc := .check (j + 1), passed := it.ref :: (s.txns i).passed }) := by
  have hrun : (s.txns i).pc.running := by rw [hpc]; rfl
  generalize hs' : s.setTxn i
    { s.txns i with pc := .check (j + 1), passed := it.ref :: (s.txns i).passed } = s'
  have hself : s'.txns i =
      { s.txns i with pc := .check (j + 1), passed := it.ref :: (s.txns i).passed } := by
    rw [← hs']
    exact update_self _ _ _
  have ha : Advances s s' i :=
    hs' ▸ Advances.setTxn rfl rfl rfl (by rw [hpc]; rfl) (by rw [hpc]; rfl) rfl
  refine h.advance hok ha (fun hd => ?_) fun x hx k => ?_
  · rw [hself] at hd
    cases hd
  · rcases h.answered i (by rw [hpc]; rfl) x hx k with hall | hset | ⟨-, r, hr, hev, hnl⟩
    · exact .inl hall
    · exact .inr (.inl hset)
    · by_cases hri : r = it.ref
      · subst hri
        rcases (hok.work i hrun).check_cases hpc hit hread hpass with hold | ⟨hlead, hcheck⟩
        · exact absurd hold hr
        · exact .inr (.inl (h.settled_of_check hok hpc (mem_of_getElem? hit) hread hlead hcheck
            hev hnl))
      · refine .inr (.inr ⟨by rw [hself]; rfl, r, ?_, hev, hnl⟩)
        rw [hself]
        exact fun hmem => (mem_cons.mp hmem).elim hri hr

/-- All checks have passed. -/
lemma Ordered.decide (hok : Ok thread s) (h : Ordered db s) {j : ℕ}
    (hpc : (s.txns i).pc = .check j) (hend : (s.txns i).items[j]? = none)
    (hok' : Ok thread (s.setTxn i { s.txns i with pc := .install 0 })) :
    Ordered db (s.setTxn i { s.txns i with pc := .install 0 }) := by
  have hrun : (s.txns i).pc.running := by rw [hpc]; rfl
  have hpcok := (hok.work i hrun).pc
  rw [hpc] at hpcok
  have hpassed := hpcok.2
  rw [take_eq_self hend] at hpassed
  generalize hs' : s.setTxn i { s.txns i with pc := .install 0 } = s' at hok'
  have hself : s'.txns i = { s.txns i with pc := .install 0 } := by
    rw [← hs']
    exact update_self _ _ _
  have ha : Advances s s' i :=
    hs' ▸ Advances.setTxn rfl rfl rfl (by rw [hpc]; rfl) (by rw [hpc]; rfl) rfl
  refine h.advance hok ha (fun hd it hp => ?_) fun x hx k => ?_
  · rw [← ha.store]
    exact (ha.pending_iff.mpr hp).not_stale hok' hd
  · rcases h.answered i (by rw [hpc]; rfl) x hx k with hall | hset | ⟨-, r, hr, hev, -⟩
    · exact .inl hall
    · exact .inr (.inl hset)
    · -- every version that was read has been checked
      obtain ⟨st, hst⟩ := isSome_iff_exists.mp hev.isSome
      obtain ⟨it, hit, rfl, hrd⟩ := exists_of_lead hst
      exact absurd (hpassed it hit (by rw [hrd]; rfl)) hr

/-! ## Installs -/

omit [DecidableEq ι] in
/-- An install ends the evidence of all others about its key. -/
lemma Evidence.not_valid_install {σ σ' : Store M ι} {here here' : ℕ} {j : ι} {w : Option Bytes}
    {ld : Ref M.Node → Option Stamp} {r : Ref M.Node} (hm : MemOk σ)
    (hinst : Install σ here i k w σ') (hst : ∀ r st, ld r = some st → Stamped σ here' r st)
    (hev : Evidence σ j ld k P r) (hne : j ≠ i) : ¬ Valid σ' ld r := by
  intro hv'
  have hv := hv'.of_drift hinst.drifts (hst r)
  cases hev with
  | @elem e hlead hlt hkey hP =>
    obtain ⟨st, hst₁, hholds⟩ := hv
    obtain ⟨st', hst₂, hholds'⟩ := hv'
    cases hst₁.symm.trans hst₂
    cases st with
    | version v => exact hholds.elim
    | word w =>
      have hvalid : (σ.heap e).word.version.invalid = false := by rw [hholds.1, hholds.2]
      have hsame : (σ'.heap e).word.version = (σ.heap e).word.version := by
        rw [hholds.1, hholds'.1]
      cases hinst with
      | update hfind _ _ =>
        cases hm.eq_of_find hfind hlt hkey hvalid
        rw [Store.heap_set, update_self] at hsame
        exact Nat.succ_ne_self _ (congrArg Version.count hsame)
      | validate hfind hnew _ _ =>
        cases hm.eq_of_find hfind hlt hkey hvalid
        rw [(hm.valid hlt hvalid).1] at hnew
        cases hnew
      | kill hfind _ _ =>
        cases hm.eq_of_find hfind hlt hkey hvalid
        rw [Store.heap_remove, Store.heap_set, update_self] at hsame
        rw [← hsame] at hvalid
        cases hvalid
  | node hlead hP =>
    obtain ⟨-, hnone | hmine, -⟩ := hP hv
    · obtain ⟨e, hfind, -⟩ := hinst.frame
      rw [hnone] at hfind
      cases hfind
    · cases hinst with
      | update hfind hvalid _ | kill hfind hvalid _ =>
        have hlive := (hm.valid (hm.linked hfind).1 hvalid).1
        rw [(hmine.eq hfind).1] at hlive
        cases hlive
      | validate hfind _ hwriter _ =>
        rw [(hmine.eq hfind).2] at hwriter
        exact hne (some.inj hwriter)

section

variable {n : ℕ} {σ : Store M ι} (hok : Ok thread s) (h : Ordered db s)
  (hpc : (s.txns i).pc = .install n) (hit : (s.txns i).items[n]? = some it)
  (hw : it.wdata.isSome) (hinst : Install s.store (thread i) i it.key it.effect σ)
  (hc : Places s s' i n it σ)

include hok h hpc hit hw hinst hc

/-- The tables after an install: the write is the last one of its key in the order. -/
lemma Ordered.current_installed (k : Key) :
    s'.store.current k = after s'.installedWrites db s'.order k := by
  have hmem := mem_of_getElem? hit
  have hi : i ∈ s.order := h.mem i (by rw [hpc]; rfl)
  have hp : Pending s i it :=
    ⟨by rw [hpc]; rfl, hmem, hw, (hok.core i).not_installed hpc hit hw⟩
  have hlast := h.last i it hp (hp.not_stale hok (by rw [hpc]; rfl))
  have hself := hc.self
  have hother := hc.other
  have hcalls := hc.same Txn.calls rfl
  have hinstalled : ∀ {j k}, k ∈ (s'.txns j).installed →
      k ∈ (s.txns j).installed ∨ j = i ∧ k = it.key := hc.mem_installed rfl
  rw [hc.store, hinst.current hok.mem, hc.order]
  split
  · next hk =>
    subst hk
    have hwrite : writeOf (s.txns i).calls it.key = some it.effect :=
      ((hok.core i).linked.writes it.key it.effect).mpr ⟨it, hmem, hw, rfl, rfl⟩
    have hself' : s'.installedWrites i it.key = some it.effect := by
      rw [installedWrites, hcalls, hwrite, if_pos]
      rw [hself]
      exact mem_cons_self
    have hbehind : ∀ j ∈ behind s.order i, s'.installedWrites j it.key = none := by
      intro j hj
      have hji : j ≠ i := by
        rintro rfl
        have hnodup := h.nodup
        rw [split hi] at hnodup
        exact (nodup_cons.mp (nodup_append.mp hnodup).2.1).1 hj
      rw [installedWrites, hother j hji, if_neg (hlast j hj)]
    rw [split hi, append_cons, after_append_of_none hbehind, after_concat, hself']
    rfl
  · next hk =>
    rw [h.current]
    refine after_congr fun j _ => ?_
    have hiff : k ∈ (s'.txns j).installed ↔ k ∈ (s.txns j).installed := by
      refine ⟨fun hnow => (hinstalled hnow).resolve_right fun h => hk h.2, fun hold => ?_⟩
      by_cases hj : j = i
      · subst hj
        rw [hself]
        exact mem_cons_of_mem _ hold
      · rwa [hother j hj]
    rw [installedWrites, installedWrites, hcalls]
    simp only [hiff]

/-- A write is installed. -/
lemma Ordered.installed : Ordered db s' := by
  have hrun : (s.txns i).pc.running := by rw [hpc]; rfl
  have hd := hinst.drifts
  have hp : Pending s i it :=
    ⟨by rw [hpc]; rfl, mem_of_getElem? hit, hw, (hok.core i).not_installed hpc hit hw⟩
  have hfresh : ¬ Stale s.store it := hp.not_stale hok (by rw [hpc]; rfl)
  have horder := hc.order
  have hstore := hc.store
  have hself := hc.self
  have hother := hc.other
  have hcalls := hc.same Txn.calls rfl
  have hplaced := hc.same (fun t => t.pc.placed) (by rw [hpc]; rfl)
  have hdecided := hc.same (fun t => t.pc.decided) (by rw [hpc]; rfl)
  have hinstalled : ∀ {j k}, k ∈ (s'.txns j).installed →
      k ∈ (s.txns j).installed ∨ j = i ∧ k = it.key := hc.mem_installed rfl
  have hpend : ∀ {j x}, Pending s' j x → Pending s j x ∧ (j = i → x.key ≠ it.key) := by
    intro j x hpx
    by_cases hj : j = i
    · subst hj
      obtain ⟨h₁, h₂, h₃, h₄⟩ := hpx
      rw [hself] at h₂ h₄
      refine ⟨⟨by rw [hpc]; rfl, h₂, h₃, fun hk => h₄ (mem_cons_of_mem _ hk)⟩, fun _ hk => ?_⟩
      exact h₄ (hk ▸ mem_cons_self)
    · exact ⟨(pending_congr (hother j hj)).mp hpx, fun heq => absurd heq hj⟩
  have hlater : ∀ {j k}, NoLater s j k → (k = it.key → i ∉ behind s.order j) → NoLater s' j k := by
    intro j k hn hki j' hj' hk
    rw [horder] at hj'
    rcases hinstalled hk with hk | ⟨rfl, hk⟩
    · exact hn j' hj' hk
    · exact hki hk hj'
  refine ⟨horder ▸ h.nodup, fun j hj => ?_, fun j hj => ?_, fun j x hpx hs => ?_,
    fun j hj x hx k => ?_, h.current_installed hok hpc hit hw hinst hc⟩
  · rw [horder]
    exact h.mem j (hplaced j ▸ hj)
  · rw [horder]
    by_cases hji : j = i
    · subst hji
      rw [hself] at hj
      cases hj
    · rw [hother j hji] at hj
      exact h.not_mem j hj
  · -- another write of the key that is not stale is a write of `i`, and that one is not pending
    obtain ⟨hpx, hne⟩ := hpend hpx
    rw [hstore] at hs
    have hs : ¬ Stale s.store x := fun hold => hs (hpx.stale_drift hok hd hold)
    refine hlater (h.last j x hpx hs) fun hk => ?_
    exact absurd hk (hne (hpx.unique hok hp hs hfresh hk))
  · rw [hplaced] at hj
    rw [hcalls] at hx
    rcases h.answered j hj x hx k with hall | ⟨hclear, hP⟩ | ⟨hund, r, hr, hev, hnl⟩
    · exact .inl hall
    · refine .inr (.inl ⟨fun j' hj' y hpy hk => ?_, ?_⟩)
      · rw [horder] at hj'
        obtain ⟨hund, hstale⟩ := hclear j' hj' y (hpend hpy).1 hk
        rw [hdecided, hstore]
        exact ⟨hund, (hpend hpy).1.stale_drift hok hd hstale⟩
      · rw [horder, after_congr]
        · exact hP
        · intro j' _
          rw [decidedWrites, decidedWrites, hdecided, hcalls]
    · have hji : j ≠ i := by
        rintro rfl
        rw [hpc] at hund
        cases hund
      have hevolves := hinst.evolves hok.mem hji
        (hok.thread_ne hrun (Pc.running_of_placed hj hund) hji)
      refine .inr (.inr ⟨by rwa [hdecided], r, by rwa [hother j hji], ?_, fun hv => ?_⟩)
      · rw [hstore, hother j hji]
        exact hev.drift hd (Mine.evolve hok.mem hevolves) (hok.core j).items.stamp
      · rw [hstore, hother j hji] at hv
        refine hlater (hnl (hv.of_drift hd ((hok.core j).items.stamp r))) fun hk => ?_
        subst hk
        exact absurd hv (hev.not_valid_install hok.mem hinst (hok.core j).items.stamp hji)

end

end

end Rolis.Sto.Occ
