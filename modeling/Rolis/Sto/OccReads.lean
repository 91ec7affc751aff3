import Rolis.Sto.OccIds

/-!
# Commit ids and the values that are read

A value that is not locked and whose element has been valid has a writer with a commit id: the
writer draws its id before it unlocks (`Authored`). An element that was never valid can be read too,
by a scan or by a get that comes between its check and an abort, but then the version that was
observed is that of an invalid element, and no check accepts it (`Doomed`). So a transaction that
draws its id later than all writers of what it has read gets the larger one.
-/

namespace Rolis.Sto.Occ

open Function Option Store State List

variable {M : Masstree} {ι : Type} {σ σ' : Store M ι} {here e epoch : ℕ} {i : ι}
  {t t' : Txn M.Node ι} {thread : ι → ℕ} {s s' : State M ι}

/-! ## Reads that will not pass -/

/-- The version that counts for some element is that of an invalid one. -/
def Txn.Doomed {N : Type} [DecidableEq N] (t : Txn N ι) : Prop :=
  ∃ e w, lead t.items (.elem e) = some (.word w) ∧ w.version.invalid ∧ .elem e ∉ t.passed

/-- The transaction will not commit. -/
def Txn.Lost {N : Type} [DecidableEq N] (t : Txn N ι) : Prop :=
  t.pc.decided = false ∧ (t.pc.undecided → t.Doomed)

lemma Pc.undecided_of_executing {pc : Pc ι} (h : pc.executing) : pc.undecided := by
  cases pc with
  | install | draw | unlock | cleanup | committed | aborted => cases h
  | _ => rfl

section

variable {k : Key}

lemma Txn.Doomed.extend (h : t.Doomed) (hext : ∀ e, (lead t.items (.elem e)).isSome →
    lead t'.items (.elem e) = lead t.items (.elem e)) (hpassed : t'.passed = t.passed) :
    t'.Doomed := by
  obtain ⟨e, w, hlead, hinv, hnot⟩ := h
  exact ⟨e, w, by rw [hext e (by rw [hlead]; rfl), hlead], hinv, by rwa [hpassed]⟩

lemma Txn.Doomed.congr (h : t.Doomed) (hitems : t'.items = t.items)
    (hpassed : t'.passed = t.passed) : t'.Doomed :=
  h.extend (fun _ _ => by rw [hitems]) hpassed

/-- An element that was observed before keeps its version. -/
lemma Core.extends_observe (hc : Core σ here t) (hf : Found σ t.calls k e) (w : Word)
    (it : Item M.Node) (href : it.ref = ((t.item k.1 e).observe w).ref)
    (hrdata : it.rdata = ((t.item k.1 e).observe w).rdata) :
    Extends t.items (setItem it t.items) :=
  ((hc.items.observed (hc.linked.not_mem hf.new) hf.key w).adds it href hrdata).2

/-- A doomed transaction stays so until it fails. -/
lemma Local.doomed (hc : Core σ here t) (hw : Work σ here i t)
    (h : Local σ here t t') (hu : t.pc.undecided) (hd : t.Doomed) :
    t'.pc.decided = false ∧ t'.Doomed := by
  have hpcok := hw.pc
  cases h with
  | advance hfrom hpc _ => exact ⟨by cases hpc <;> rfl, hd.congr rfl rfl⟩
  | missed hpc | read hpc | visit hpc | row hpc | rowStop hpc =>
    exact ⟨rfl, hd.extend (fun _ => Extends.append _ _ _) rfl⟩
  | @observe k v e hpc hlock | @put k v e hpc hlock =>
    rw [hpc] at hpcok
    exact ⟨rfl, hd.extend (fun _ =>
      hc.extends_observe hpcok.2.1 (σ.heap e).word _ (by rfl) (by rfl) _) rfl⟩
  | @grow k v e hpc hlock =>
    rw [hpc] at hpcok
    refine ⟨?_, hd.extend (fun _ =>
      hc.extends_observe hpcok.2.1 (σ.heap e).word _ (by rfl) (by rfl) _) rfl⟩
    simp only
    split <;> rfl
  | @delete k e hpc hvalid hlock =>
    rw [hpc] at hpcok
    exact ⟨rfl, hd.extend (fun _ =>
      hc.extends_observe hpcok.2 (σ.heap e).word _ (by rfl) (by rfl) _) rfl⟩
  | @checkPass n it hpc hit hread hpass =>
    obtain ⟨e, w, hlead, hinv, hnot⟩ := hd
    refine ⟨rfl, e, w, hlead, hinv, fun hmem => ?_⟩
    rcases mem_cons.mp hmem with heq | hold
    · -- the check of this element cannot have passed
      rcases hw.check_cases hpc hit hread hpass with hold | ⟨hfirst, hcheck⟩
      · exact hnot (heq ▸ hold)
      · obtain ⟨⟨st, hst, hholds⟩, -⟩ :=
          hc.valid_of_check (mem_of_getElem? hit) hread hfirst hcheck
        rw [← heq] at hst hholds
        rw [hlead] at hst
        cases hst
        rw [hholds.2] at hinv
        cases hinv
    · exact hnot hold
  | @decide n hpc hend =>
    exfalso
    obtain ⟨e, w, hlead, -, hnot⟩ := hd
    obtain ⟨it, hit, href, hrd⟩ := exists_of_lead hlead
    rw [hpc] at hpcok
    refine hnot (href ▸ hpcok.2 it ?_ (by rw [hrd]; rfl))
    rwa [take_eq_self hend]
  | installSkip hpc | installEnd hpc | unlockSkip hpc | unlockEnd hpc | cleanupSkip hpc
  | cleanupEnd hpc =>
    rw [hpc] at hu
    cases hu
  | _ => exact ⟨rfl, hd.congr rfl rfl⟩

lemma Local.lost (hm : MemOk σ) (hc : Core σ here t) (hw : Work σ here i t)
    (h : Local σ here t t') (hl : t.Lost) : t'.Lost := by
  obtain ⟨hdec, hdoomed⟩ := hl
  by_cases hu : t.pc.undecided
  · obtain ⟨hdec', hd'⟩ := h.doomed hc hw hu (hdoomed hu)
    exact ⟨hdec', fun _ => hd'⟩
  · cases h with
    | installSkip hpc | installEnd hpc =>
      rw [hpc] at hdec
      cases hdec
    | @unlockSkip ok n hpc | @unlockEnd ok hpc =>
      rw [hpc] at hdec
      cases ok with
      | true => cases hdec
      | false => exact ⟨rfl, nofun⟩
    | cleanupSkip | cleanupEnd | fail | abort => exact ⟨rfl, nofun⟩
    | advance hfrom =>
      exact absurd (Pc.undecided_of_executing (hw.found hm hfrom).1) hu
    | seek hpc | missed hpc | read hpc | observe hpc | put hpc | grow hpc | delete hpc | copy hpc
    | scan hpc | visit hpc | row hpc | rowStop hpc | scanEnd hpc | commit hpc | lockSkip hpc
    | checkSkip hpc | checkPass hpc | decide hpc =>
      rw [hpc] at hu
      exact absurd rfl hu

lemma Effect.lost (h : Effect σ here i t σ' t') (hl : t.Lost) : t'.Lost := by
  obtain ⟨hdec, hdoomed⟩ := hl
  have hlead := fun e => h.lead_elem (e := e)
  cases h with
  | insert hpc =>
    rw [hpc] at hdoomed
    rw [insertNew_eq] at hlead ⊢
    exact ⟨rfl, fun _ => (hdoomed rfl).extend (fun e _ => hlead e) rfl⟩
  | growLink hpc hfind =>
    rw [hpc] at hdoomed
    exact ⟨rfl, fun _ => (hdoomed rfl).extend (fun e _ => hlead e) rfl⟩
  | growLock hpc | growMark hpc | growUnlock hpc | lockItem hpc =>
    rw [hpc] at hdoomed
    exact ⟨rfl, fun _ => (hdoomed rfl).congr rfl rfl⟩
  | growBack | cleanup => exact ⟨rfl, nofun⟩
  | @unlockItem ok n it e hpc =>
    rw [hpc] at hdec
    cases ok with
    | true => cases hdec
    | false => exact ⟨rfl, nofun⟩

/-- A read of an element that was never valid. -/
lemma Core.doomed_read (hm : MemOk σ) (hc : Core σ here t) (hq : t.Quiet) (hlt : e < σ.next)
    (hnew : (σ.heap e).live = false) {owner : ℕ}
    (hitems : t'.items = t.items ++ [readItem owner e (σ.heap e).word])
    (hpassed : t'.passed = t.passed) : t'.Doomed := by
  have hnot : .elem e ∉ t'.passed := by
    rw [hpassed, hq.passed]
    exact not_mem_nil
  cases hlead : lead t.items (.elem e) with
  | none =>
    refine ⟨e, (σ.heap e).word, ?_, hm.invalid_of_new hlt hnew, hnot⟩
    rw [hitems, lead_append, hlead, lead_singleton]
    exact if_pos rfl
  | some st =>
    have hstamp := hc.items.stamp _ _ hlead
    cases st with
    | version v => exact hstamp.elim
    | word w =>
      refine ⟨e, w, ?_, ?_, hnot⟩
      · rw [hitems, lead_append, hlead]
        rfl
      · by_contra hvalid
        rw [Bool.not_eq_true] at hvalid
        rw [hstamp.2.2.1 hvalid] at hnew
        cases hnew

/-- A transaction gets the values of elements that nobody has locked. -/
lemma Local.sources (hm : MemOk σ) (hc : Core σ here t) (hw : Work σ here i t)
    (h : Local σ here t t') :
    t'.sources = t.sources ∨ ∃ e, t.pc.executing ∧ e < σ.next ∧ (σ.heap e).word.lock = none ∧
      t'.sources = t.sources ++ (σ.heap e).writer.toList ∧
      ((σ.heap e).live = false → t'.Lost) := by
  have hpcok := hw.pc
  cases h with
  | @read k e hpc hlock =>
    rw [hpc] at hpcok
    obtain ⟨hq, hf⟩ := hpcok
    exact .inr ⟨e, by rw [hpc]; rfl, hf.lt, hlock, rfl,
      fun hnew => ⟨rfl, fun _ => hc.doomed_read hm hq hf.lt hnew rfl rfl⟩⟩
  | @row d table lo hi pos rows b e entries next hpc hk hend hlock
  | @rowStop d table lo hi pos rows b e entries next hpc hk hend hlock =>
    rw [hpc] at hpcok
    obtain ⟨hq, hscan⟩ := hpcok
    obtain ⟨-, -, hlt, -⟩ := hscan.entry (b, e) (by simp)
    exact .inr ⟨e, by rw [hpc]; rfl, hlt, hlock, rfl,
      fun hnew => ⟨rfl, fun _ => hc.doomed_read hm hq hlt hnew rfl rfl⟩⟩
  | _ => exact .inl rfl

lemma Effect.sources_eq (h : Effect σ here i t σ' t') : t'.sources = t.sources := by
  cases h with
  | insert =>
    rw [insertNew_eq]
    rfl
  | _ => rfl

end

/-! ## Who wrote a value -/

/-- The transaction `i`, which wrote the value of an element, has its commit id, or it has installed
the value and still has the lock. -/
def Signed (thread : ι → ℕ) (s : State M ι) (i : ι) (x : Object ι) : Prop :=
  (s.txns i).cid.isSome ∨ x.key ∈ (s.txns i).installed ∧ x.word.version.invalid = false ∧
    x.word.lock = some (thread i)

/-- Elements that have been valid are signed by their writers, and so are the copies that are to
replace elements. -/
structure Authored (thread : ι → ℕ) (s : State M ι) : Prop where
  element : ∀ e < s.store.next, (s.store.heap e).live → ∀ i ∈ (s.store.heap e).writer,
    Signed thread s i (s.store.heap e)
  copy : ∀ j own k v e copy, (s.txns j).pc = .growLink own k v e copy → ∀ i ∈ copy.writer,
    (s.txns i).cid.isSome

/-- Before a transaction installs, it makes no element valid that was not, except by a copy. -/
lemma Effect.author (h : Effect σ here i t σ' t') (hlt : e < σ'.next) :
    (e < σ.next ∧ (σ'.heap e).writer = (σ.heap e).writer ∧
      (σ'.heap e).live = (σ.heap e).live) ∨ (σ'.heap e).live = false ∨
      ∃ own k v e₀, t.pc = .growLink own k v e₀ (σ'.heap e) := by
  have hset : ∀ {e₀ : ℕ} {x : Object ι}, e < (σ.set e₀ x).next →
      x.writer = (σ.heap e₀).writer → x.live = (σ.heap e₀).live →
      e < σ.next ∧ ((σ.set e₀ x).heap e).writer = (σ.heap e).writer ∧
        ((σ.set e₀ x).heap e).live = (σ.heap e).live := by
    intro e₀ x hlt hwriter hlive
    refine ⟨hlt, ?_⟩
    rw [heap_set]
    by_cases he : e = e₀
    · subst he
      rw [update_self]
      exact ⟨hwriter, hlive⟩
    · rw [update_of_ne he]
      exact ⟨rfl, rfl⟩
  cases h with
  | @insert set k v hpc hfind =>
    rw [next_insert] at hlt
    rcases Nat.lt_succ_iff_lt_or_eq.mp hlt with hlt | rfl
    · left
      rw [heap_insert, update_of_ne hlt.ne]
      exact ⟨hlt, rfl, rfl⟩
    · right
      left
      rw [heap_insert, update_self]
      rfl
  | @growLink own k v e₀ copy hpc hfind =>
    rw [next_replace] at hlt
    rcases Nat.lt_succ_iff_lt_or_eq.mp hlt with hlt | rfl
    · left
      rw [heap_replace, update_of_ne hlt.ne]
      exact ⟨hlt, rfl, rfl⟩
    · right
      right
      rw [heap_replace, update_self]
      exact ⟨own, k, v, e₀, hpc⟩
  | cleanup => exact .inl ⟨hlt, rfl, rfl⟩
  | growLock | growBack | growMark | growUnlock | lockItem | unlockItem =>
    exact .inl (hset hlt rfl rfl)

lemma Effect.not_unnumbered (h : Effect σ here i t σ' t') : t.pc.unnumbered = false := by
  cases h with
  | insert hpc | growLock hpc | growBack hpc | growMark hpc | growUnlock hpc | growLink hpc
  | lockItem hpc | unlockItem hpc | cleanup hpc =>
    rw [hpc]
    rfl

/-- A copy is made of an element that is being replaced. -/
lemma Local.copies (hw : Work σ here i t) (h : Local σ here t t') {own : Bool} {k : Key}
    {v : Bytes} {copy : Object ι} (hpc : t'.pc = .growLink own k v e copy) :
    e < σ.next ∧ (σ.heap e).live ∧ (σ.heap e).word.version.invalid ∧
      copy.writer = (σ.heap e).writer := by
  have hpcok := hw.pc
  cases h with
  | copy hcopy =>
    cases hpc
    rw [hcopy] at hpcok
    obtain ⟨-, hg, rfl, hmov⟩ := hpcok
    exact ⟨hg.lt, hg.live, hmov.invalid, rfl⟩
  | advance _ hat => cases hat <;> cases hpc
  | grow | installEnd | unlockEnd =>
    simp only at hpc
    split at hpc <;> cases hpc
  | _ => cases hpc

section

variable [DecidableEq ι] {j : ι} {x : Object ι}

omit [DecidableEq ι] in
lemma Signed.mono (h : Signed thread s i x) (hcid : (s.txns i).cid.isSome → (s'.txns i).cid.isSome)
    (hinst : ∀ k ∈ (s.txns i).installed, k ∈ (s'.txns i).installed) : Signed thread s' i x :=
  h.imp hcid (And.imp_left (hinst _))

omit [DecidableEq ι] in
/-- A transaction without a commit id has the lock of what it has written. -/
lemma Signed.isSome_of_lock (h : Signed thread s i x) (hlock : x.word.lock ≠ some (thread i)) :
    (s.txns i).cid.isSome :=
  h.resolve_right fun hheld => hlock hheld.2.2

omit [DecidableEq ι] in
/-- A step of one transaction, which keeps all ids and all installed keys. -/
lemma Authored.changes (h : Authored thread s) (hc : Changes s s' i t)
    (hcid : (s.txns i).cid.isSome → t.cid.isSome)
    (hinst : ∀ k ∈ (s.txns i).installed, k ∈ t.installed)
    (helem : ∀ e < s'.store.next, (s'.store.heap e).live → ∀ j ∈ (s'.store.heap e).writer,
      Signed thread s j (s'.store.heap e) ∨ Signed thread s' j (s'.store.heap e))
    (hcopy : ∀ own k v e copy, t.pc = .growLink own k v e copy → ∀ j ∈ copy.writer,
      (s.txns j).cid.isSome) : Authored thread s' := by
  have hcids : ∀ j, (s.txns j).cid.isSome → (s'.txns j).cid.isSome :=
    hc.all (p := fun j t => (s.txns j).cid.isSome → t.cid.isSome) hcid fun _ _ => id
  have hinsts : ∀ j, ∀ k ∈ (s.txns j).installed, k ∈ (s'.txns j).installed :=
    hc.all (p := fun j t => ∀ k ∈ (s.txns j).installed, k ∈ t.installed) hinst fun _ _ _ => id
  refine ⟨fun e he hlive j hj => ?_, fun j own k v e copy hpc j' hj' => hcids j' ?_⟩
  · rcases helem e he hlive j hj with hold | hnew
    · exact hold.mono (hcids j) (hinsts j)
    · exact hnew
  · by_cases hji : j = i
    · rw [hji, hc.self] at hpc
      exact hcopy own k v e copy hpc j' hj'
    · rw [hc.other j hji] at hpc
      exact h.copy j own k v e copy hpc j' hj'

omit [DecidableEq ι] in
/-- What an install leaves is as it was before, or belongs to the transaction that installs. -/
lemma Authored.of_install (h : Authored thread s) (hok : Ok thread s) (hids : IdsOk s) {k : Key}
    {v : Option Bytes} (hrun : (s.txns i).pc.running) (hnew : k ∉ (s.txns i).installed)
    (hinstall : Install s.store (thread i) i k v σ) (he : e < σ.next) (hlive : (σ.heap e).live)
    (hj : (σ.heap e).writer = some j) :
    Signed thread s j (σ.heap e) ∨ j = i ∧ (σ.heap e).key = k ∧
      (σ.heap e).word.version.invalid = false ∧ (σ.heap e).word.lock = some (thread i) := by
  cases hinstall with
  | @update e₀ w hfind hvalid hheld =>
    rw [heap_set] at hlive hj ⊢
    by_cases hee : e = e₀
    · subst hee
      rw [update_self] at hj ⊢
      exact .inr ⟨(some.inj hj).symm, (hok.mem.linked hfind).2, hvalid, hheld⟩
    · rw [update_of_ne hee] at hlive hj ⊢
      exact .inl (h.element e he hlive j hj)
  | @validate e₀ hfind _ hwriter hheld =>
    rw [heap_set] at hlive hj ⊢
    by_cases hee : e = e₀
    · subst hee
      rw [update_self] at hj ⊢
      exact .inr ⟨some.inj (hj.symm.trans hwriter), (hok.mem.linked hfind).2, rfl, hheld⟩
    · rw [update_of_ne hee] at hlive hj ⊢
      exact .inl (h.element e he hlive j hj)
  | @kill e₀ hfind hvalid hheld =>
    rw [heap_remove, heap_set] at hlive hj ⊢
    by_cases hee : e = e₀
    · -- the last writer of a deleted element is not the transaction that deletes it
      subst hee
      rw [update_self] at hlive hj ⊢
      have hsigned := h.element e he hlive j hj
      by_cases hsome : (s.txns j).cid.isSome
      · exact .inl (.inl hsome)
      · obtain ⟨hkey, -, hlock⟩ := hsigned.resolve_left hsome
        rw [not_isSome_iff_eq_none] at hsome
        have hpc := (hids j).unnumbered (hok.core j) hkey hsome
        have heq := hok.apart j i (Pc.running_of_unnumbered hpc) hrun
          (some.inj (hlock.symm.trans hheld))
        rw [heq, (hok.mem.linked hfind).2] at hkey
        exact absurd hkey hnew
    · rw [update_of_ne hee] at hlive hj ⊢
      exact .inl (h.element e he hlive j hj)

lemma Authored.moves (h : Authored thread s) (hok : Ok thread s) (hids : IdsOk s)
    (hm : Moves thread epoch s i s') : Authored thread s' := by
  cases hm with
  | start hpc hfree | locked hpc hend =>
    exact h.changes (.of_update rfl) id (fun _ => id)
      (fun e he hlive j hj => .inl (h.element e he hlive j hj)) fun _ _ _ _ _ hgrow => by
        cases hgrow
  | here hrun hlocal =>
    obtain ⟨hinst, hcid⟩ := hlocal.installed_eq
    refine h.changes (.of_update rfl) (by rw [hcid]; exact id) (by rw [hinst]; exact fun _ => id)
      (fun e he hlive j hj => .inl (h.element e he hlive j hj)) fun own k v e copy hgrow j hj => ?_
    -- a copy is made of an invalid element, so its writer has no lock on it
    obtain ⟨hlt, hlive, hinv, hwriter⟩ := hlocal.copies (hok.work i hrun) hgrow
    refine (h.element e hlt hlive j (hwriter ▸ hj)).resolve_right fun hheld => ?_
    rw [hheld.2.1] at hinv
    cases hinv
  | @effect σ t hrun heffect =>
    obtain ⟨hinst, hcid⟩ := heffect.installed_eq
    have htouch := heffect.touch (hok.core i) (hok.work i hrun)
    refine h.changes (.of_update rfl) (by rw [hcid]; exact id) (by rw [hinst]; exact fun _ => id)
      (fun e he hlive j hj => ?_) fun own k v e copy hgrow => ?_
    · rcases heffect.author he with ⟨hlt, hwriter, hlive'⟩ | hnew | ⟨own, k, v, e₀, hgrow⟩
      · rcases h.element e hlt (hlive' ▸ hlive) j (hwriter ▸ hj) with hsome | hheld
        · exact .inl (.inl hsome)
        · by_cases hsome : (s.txns j).cid.isSome
          · exact .inl (.inl hsome)
          · -- the writer has not drawn its id: it is another transaction, and has the lock
            rw [not_isSome_iff_eq_none] at hsome
            have hpc := (hids j).unnumbered (hok.core j) hheld.1 hsome
            have hne : j ≠ i := by
              rintro rfl
              rw [heffect.not_unnumbered] at hpc
              cases hpc
            have hevolves := htouch.evolves hok.mem hne
              (hok.thread_ne hrun (Pc.running_of_unnumbered hpc) hne)
            left
            rw [show (s.put i σ t).store.heap e = s.store.heap e from
              hevolves.held hlt hheld.2.2]
            exact .inr hheld
      · rw [show (s.put i σ t).store.heap e = σ.heap e from rfl, hnew] at hlive
        cases hlive
      · exact .inl (.inl (h.copy i own k v e₀ _ hgrow j hj))
    · cases heffect <;> cases hgrow
  | @installed n it e w σ hpc hit href hw hinstall =>
    have hrun : (s.txns i).pc.running := by rw [hpc]; rfl
    have hsome : it.wdata.isSome := by rw [hw]; rfl
    have hinst := (hok.work i hrun).install hok.mem (hok.core i) hpc hit href hw hinstall
    refine h.changes (.of_update rfl) id (fun _ => mem_cons_of_mem _)
      (fun e' he hlive j hj => ?_) fun own k v e copy hgrow => ?_
    · refine (h.of_install hok hids hrun ((hok.core i).not_installed hpc hit hsome) hinst he hlive
        hj).imp_right fun hown => ?_
      obtain ⟨rfl, hkey, hvalid, hlock⟩ := hown
      refine .inr ⟨?_, hvalid, hlock⟩
      simp only [put, record, update_self]
      exact mem_cons.mpr (.inl hkey)
    · cases hgrow
  | drew hpc hclock =>
    exact h.changes (.of_update rfl) (fun _ => rfl) (fun _ => id)
      (fun e he hlive j hj => .inl (h.element e he hlive j hj)) fun _ _ _ _ _ hgrow => by
        cases hgrow

end

/-! ## Ids of what is read -/

/-- A transaction has its commit id after the writers of what it has read, or will not commit. -/
def Traced (s : State M ι) : Prop :=
  ∀ j, ∀ i ∈ (s.txns j).sources,
    (∃ c ∈ (s.txns i).cid, ∀ c' ∈ (s.txns j).cid, c < c') ∨ (s.txns j).Lost

lemma Txn.IdOk.cid_of_executing {N : Type} {t : Txn N ι} (h : t.IdOk) (hpc : t.pc.executing) :
    t.cid = none := by
  have hn := h.numbered
  generalize t.pc = pc at hpc hn
  cases pc with
  | unborn | lock | check | install | draw | unlock | cleanup | committed | aborted => cases hpc
  | _ => exact hn

/-- A transaction with a commit id has passed its checks. -/
lemma Txn.IdOk.decided {N : Type} {t : Txn N ι} (h : t.IdOk) {c : ℕ} (hc : c ∈ t.cid) :
    t.pc.decided := by
  have hn := h.numbered
  have hsome : t.cid ≠ none := by
    rw [hc]
    exact some_ne_none c
  generalize t.pc = pc at hn
  cases pc with
  | install | draw | committed => rfl
  | unlock ok =>
    cases ok with
    | true => rfl
    | false => exact absurd hn hsome
  | _ => exact absurd hn hsome

section

variable [DecidableEq ι]

omit [DecidableEq ι] in
/-- A step of one transaction that gives nobody a commit id. -/
lemma Traced.changes (h : Traced s) (hc : Changes s s' i t) (hcid : t.cid = (s.txns i).cid)
    (hself : ∀ j ∈ t.sources, j ∈ (s.txns i).sources ∨
      (s.txns i).cid = none ∧ (s.txns j).cid.isSome ∨ t.Lost) (hlost : (s.txns i).Lost → t.Lost) :
    Traced s' := by
  have hcids := hc.same Txn.cid hcid
  intro j i' hi'
  by_cases hj : j = i
  · subst hj
    rw [hc.self] at hi' ⊢
    rw [hcids, hcid]
    rcases hself i' hi' with hold | ⟨hnone, hsome⟩ | hl
    · exact (h j i' hold).imp_right hlost
    · obtain ⟨c, hmem⟩ := isSome_iff_exists.mp hsome
      refine .inl ⟨c, hmem, fun c' hc' => ?_⟩
      rw [hnone] at hc'
      cases hc'
    · exact .inr hl
  · rw [hc.other j hj] at hi' ⊢
    rw [hcids]
    exact h j i' hi'

lemma Traced.moves (h : Traced s) (hok : Ok thread s) (hids : IdsOk s)
    (hauth : Authored thread s) (hbound : Bounded epoch s) (hm : Moves thread epoch s i s')
    (hmax : s'.clock ≠ s.clock → epoch + s'.clock * 1000 < 2 ^ 64) : Traced s' := by
  cases hm with
  | start hpc hfree | locked hpc hend =>
    refine h.changes (.of_update rfl) rfl (fun _ => .inl) fun hl => ?_
    rw [Txn.Lost, hpc] at hl
    exact ⟨rfl, fun _ => (hl.2 rfl).congr rfl rfl⟩
  | here hrun hlocal =>
    have hc := hok.core i
    have hw := hok.work i hrun
    obtain ⟨hinst, hcid⟩ := hlocal.installed_eq
    refine h.changes (.of_update rfl) hcid (fun j hj => ?_) (hlocal.lost hok.mem hc hw)
    rcases hlocal.sources hok.mem hc hw with heq | ⟨e, hexe, hlt, hlock, heq, hnew⟩
    · exact .inl (heq ▸ hj)
    · rw [heq, mem_append, mem_toList] at hj
      rcases hj with hold | hwriter
      · exact .inl hold
      · by_cases hlive : (s.store.heap e).live
        · refine .inr (.inl ⟨(hids i).cid_of_executing hexe, ?_⟩)
          refine (hauth.element e hlt hlive j hwriter).isSome_of_lock ?_
          rw [hlock]
          exact (some_ne_none _).symm
        · exact .inr (.inr (hnew (Bool.eq_false_iff.mpr hlive)))
  | effect hrun heffect =>
    refine h.changes (.of_update rfl) heffect.installed_eq.2 (fun j hj => .inl ?_) heffect.lost
    rwa [heffect.sources_eq] at hj
  | installed hpc hit href hw hinstall =>
    refine h.changes (.of_update rfl) rfl (fun _ => .inl) fun hl => ?_
    rw [Txn.Lost, hpc] at hl
    cases hl.1
  | @drew r hpc hclock =>
    -- whoever has a commit id by now has a smaller one
    have hnone := (hids i).cid_eq_none (by rw [hpc]; rfl)
    intro j i' hi'
    have hold : (∃ c ∈ (s.txns i').cid, ∀ c' ∈ (s.txns j).cid, c < c') ∨
        j ≠ i ∧ (s.txns j).Lost := by
      by_cases hj : j = i
      · subst hj
        simp only [setTxn, record, update_self] at hi'
        refine .inl ((h j i' hi').resolve_right fun hl => ?_)
        rw [Txn.Lost, hpc] at hl
        cases hl.1
      · simp only [setTxn, record, update_of_ne hj] at hi'
        exact (h j i' hi').imp_right fun hl => ⟨hj, hl⟩
    rcases hold with ⟨c, hc, hlt⟩ | ⟨hj, hl⟩
    · have hi : i' ≠ i := by
        rintro rfl
        rw [hnone] at hc
        cases hc
      refine .inl ⟨c, by simpa only [setTxn, record, update_of_ne hi] using hc, fun c' hc' => ?_⟩
      by_cases hj : j = i
      · subst hj
        simp only [setTxn, record, update_self] at hc'
        cases hc'
        exact hbound.lt_commitId hclock (hmax hclock.ne') hc
      · simp only [setTxn, record, update_of_ne hj] at hc'
        exact hlt c' hc'
    · right
      simpa only [setTxn, record, update_of_ne hj] using hl

end

/-! ## Runs -/

/-- Nothing in the tables was written by a transaction. -/
def Store.Unwritten (σ : Store M ι) : Prop := ∀ e < σ.next, (σ.heap e).writer = none

/-- A transaction with a commit id has a larger one than those whose values it has returned. -/
def ReadsNumbered (s : State M ι) : Prop :=
  ∀ i j, i ∈ (s.txns j).sources → ∀ c' ∈ (s.txns j).cid, ∃ c ∈ (s.txns i).cid, c < c'

/-- What holds in every state of a run whose ids respect what is read. -/
structure Sourced (thread : ι → ℕ) (epoch : ℕ) (s : State M ι) : Prop where
  ok : Ok thread s
  idsOk : IdsOk s
  authored : Authored thread s
  bounded : Bounded epoch s
  traced : Traced s

lemma Sourced.init (thread : ι → ℕ) (epoch : ℕ) (hσ : MemOk σ) (hnew : σ.Unwritten) :
    Sourced thread epoch ({ store := σ } : State M ι) where
  ok := Ok.init thread hσ
  idsOk _ := ⟨fun hne => absurd rfl hne, rfl⟩
  authored := by
    refine ⟨fun e he _ i hi => ?_, fun j own k v e copy hpc => ?_⟩
    · rw [hnew e he] at hi
      cases hi
    · cases hpc
  bounded _ _ hc := by cases hc
  traced _ _ hi := by cases hi

section

variable [DecidableEq ι]

lemma Sourced.step [Fintype ι] (h : Sourced thread epoch s) {a : Act ι}
    (ha : Disciplined s a ∧ a.Fits epoch) (hstep : step thread epoch s a = some s') :
    Sourced thread epoch s' := by
  have hm := moves_of_step ha.1 hstep
  have hclock := ha.2.clock ha.1 hstep
  exact ⟨h.ok.moves hm, h.idsOk.moves h.ok hm, h.authored.moves h.ok h.idsOk hm,
    h.bounded.moves hm hclock, h.traced.moves h.ok h.idsOk h.authored h.bounded hm hclock⟩

/-- Commit ids respect what is read, in every disciplined run in which no id wraps around. -/
theorem readsNumbered [Fintype ι] (thread : ι → Fin 128) (epoch : ℕ) {σ : Store M ι}
    (hσ : σ.WellFormed) (hnew : σ.Unwritten)
    (h : Lts.Run (leader (fun i => thread i) epoch σ) (fun s a => Disciplined s a ∧ a.Fits epoch)
      (leader (fun i => thread i) epoch σ).init s) : ReadsNumbered s := by
  have hsourced : Sourced (fun i => thread i) epoch s :=
    h.invariant _ (fun _ _ _ ht ha hstep => ht.step ha hstep)
      (Sourced.init _ _ hσ.toMemOk hnew)
  intro i j hi c' hc'
  rcases hsourced.traced j i hi with ⟨c, hc, hlt⟩ | hl
  · exact ⟨c, hc, hlt c' hc'⟩
  · rw [Txn.Lost, (hsourced.idsOk j).decided hc'] at hl
    cases hl.1

end

lemma Store.Unwritten.load (h : σ.Unwritten) (k : Key) (v : Bytes) : (σ.load k v).Unwritten := by
  intro e he
  rw [Store.load, Store.next_insert] at he
  rw [Store.load, Store.heap_insert]
  rcases Nat.lt_succ_iff_lt_or_eq.mp he with hlt | rfl
  · rw [update_of_ne hlt.ne]
    exact h e hlt
  · rw [update_self]
    rfl

/-- A transaction changes the row and commits, then another one reads it and inserts a row. -/
def changeThenRead (r r' : ℕ) : List (Act Bool) :=
  [.start false, .call false (.put (1, [97]) [2]), .go false, .go false, .commit false] ++
    List.replicate 6 (.go false) ++ [.draw false r, .go false, .go false] ++
    [.start true, .call true (.get (1, [97])), .go true, .go true,
      .call true (.insert (1, [98]) [3]), .go true, .commit true] ++
    List.replicate 9 (.go true) ++ [.draw true r']

lemma oneRow_unwritten : oneRow.Unwritten :=
  Store.Unwritten.load (σ := emptyStore) (fun _ he => absurd he (Nat.not_lt_zero _)) (1, [97]) [1]

theorem readsNumbered_changeThenRead :
    ∃ s : State oneLeaf Bool, ReadsNumbered s ∧ (s.txns true).sources = [false] ∧
      (s.txns false).cid = some 1000 ∧ (s.txns true).cid = some 2000 := by
  obtain ⟨s, hrun, hs⟩ := Lts.exists_run_of_execGuarded
    (leader (fun i => twoThreads i) 0 oneRow) (fun s a => Disciplined s a ∧ a.Fits 0)
    { store := oneRow } (changeThenRead 1 2)
    (fun s => (s.txns true).sources = [false] ∧ (s.txns false).cid = some 1000 ∧
      (s.txns true).cid = some 2000) (by decide +kernel)
  exact ⟨s, readsNumbered twoThreads 0 oneRow_wellFormed oneRow_unwritten hrun, hs⟩

/-- The second reading is too large for a commit id. -/
theorem not_readsNumbered_wrapped :
    oneRow.WellFormed ∧ oneRow.Unwritten ∧
      ∃ s, Lts.Run (leader (fun i => twoThreads i) 0 oneRow) Disciplined
        (leader (fun i => twoThreads i) 0 oneRow).init s ∧ ¬ ReadsNumbered s := by
  obtain ⟨s, hrun, hsources, hfirst, hsecond⟩ := Lts.exists_run_of_execGuarded
    (leader (fun i => twoThreads i) 0 oneRow) Disciplined { store := oneRow }
    (changeThenRead 18446744073709551 18446744073709552)
    (fun s => (s.txns true).sources = [false] ∧
      (s.txns false).cid = some 18446744073709551000 ∧ (s.txns true).cid = some 384)
    (by decide +kernel)
  refine ⟨oneRow_wellFormed, oneRow_unwritten, s, hrun, fun h => ?_⟩
  obtain ⟨c, hc, hlt⟩ := h false true (by rw [hsources]; exact List.mem_cons_self) 384 hsecond
  rw [hfirst] at hc
  cases hc
  exact absurd hlt (by decide)

end Rolis.Sto.Occ
