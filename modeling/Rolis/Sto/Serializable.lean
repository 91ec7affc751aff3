import Rolis.Sto.OccCommit

/-!
# Serializability

The steps of a commit and the quiet steps are all steps, so the order of the last locks explains
every state of a disciplined run (`Ordered.moves`). When no transaction is at work any more, nobody
is in the middle of replacing an element (`Replacing`), and what the order leaves is what the tables
have.
-/

namespace Rolis.Sto.Occ

open Function Serial Store State List Option

variable {M : Masstree} {ι : Type} {σ σ' : Store M ι} {here epoch : ℕ} {i : ι} {t t' : Txn M.Node ι}
  {thread : ι → ℕ} {db : Contents} {s s' : State M ι}

/-! ## Quiet steps -/

namespace Pc

variable {pc : Pc ι}

lemma early_of_executing (h : pc.executing) : pc.early := by
  cases pc with
  | unborn | lock | check | install | draw | unlock | cleanup | committed | aborted => cases h
  | _ => rfl

end Pc

/-- A transaction that has not got to its place does not get there. -/
lemma Calm.of_early (h : t.pc.early) (hinst : t'.installed = t.installed)
    (hplaced : t'.pc.placed = false) : Calm t t' := by
  have hno : ¬ t'.pc.placed := by rw [hplaced]; exact Bool.false_ne_true
  have hne : ¬ t.pc.early = false := by simp [h]
  exact ⟨fun he => absurd he hne, hinst, fun hp => absurd hp hno,
    fun hs => absurd (Pc.placed_of_settling hs) hno, fun he => absurd he hne,
    fun hp => absurd hp hno, fun _ => h⟩

/-- A transaction that is behind its last lock goes on. -/
lemma Calm.of_pc {pc pc' : Pc ι} {l : List ℕ} {c : Option ℕ} (hpc : t.pc = pc)
    (hearly : pc'.early = false) (hsettle : pc'.settling → pc.settling)
    (hdecided : pc'.decided = pc.decided) (hplaced : pc'.placed → pc.placed) :
    Calm t { t with pc := pc', locked := l, cid := c } := by
  subst hpc
  refine ⟨fun _ => ⟨rfl, rfl⟩, rfl, fun _ => rfl, hsettle, fun _ => hdecided, hplaced,
    fun he => ?_⟩
  rw [hearly] at he
  cases he

lemma Calm.of_draw (hpc : t.pc = .draw) (c : ℕ) :
    Calm t { t with pc := .unlock true t.items.length, cid := some c } :=
  .of_pc hpc rfl nofun rfl fun _ => rfl

/-- A step that changes nothing but the transaction is quiet, or it is a check that passes or the
end of the checks. -/
lemma Local.calm (hm : MemOk σ) (hw : Work σ here i t) (h : Local σ here t t') : Calm t t' ∨
    (∃ j it, t.pc = .check j ∧ t.items[j]? = some it ∧ it.rdata.isSome ∧
      (σ.checkItem here it ∨ t.precedingDuplicateRead j it.ref) ∧
      t' = { t with pc := .check (j + 1), passed := it.ref :: t.passed }) ∨
    ∃ j, t.pc = .check j ∧ t.items[j]? = none ∧ t' = { t with pc := .install 0 } := by
  cases h with
  | advance hfrom hpc _ =>
    refine .inl (.of_early (Pc.early_of_executing (hw.found hm hfrom).1) rfl ?_)
    cases hpc <;> rfl
  | grow hpc _ =>
    refine .inl (.of_early (by rw [hpc]; rfl) rfl ?_)
    simp only
    split <;> rfl
  | seek hpc | missed hpc | read hpc | observe hpc | put hpc | delete hpc | copy hpc | scan hpc
  | visit hpc | row hpc | rowStop hpc | scanEnd hpc | commit hpc | lockSkip hpc =>
    exact .inl (.of_early (by rw [hpc]; rfl) rfl rfl)
  | abort hpc =>
    exact .inl (.of_early (Pc.early_of_executing (Pc.executing_of_abort hpc)) rfl rfl)
  | fail hpc =>
    rcases hpc with hpc | hpc
    · exact .inl (.of_early (by rw [hpc]; rfl) rfl rfl)
    · exact .inl (.of_pc hpc rfl nofun rfl nofun)
  | checkPass hpc hit hread hpass => exact .inr (.inl ⟨_, _, hpc, hit, hread, hpass, rfl⟩)
  | decide hpc hend => exact .inr (.inr ⟨_, hpc, hend, rfl⟩)
  | checkSkip hpc | installSkip hpc =>
    exact .inl (.of_pc hpc rfl (fun _ => rfl) rfl fun _ => rfl)
  | installEnd hpc =>
    refine .inl ?_
    split <;> exact .of_pc hpc rfl nofun rfl fun _ => rfl
  | @unlockSkip ok j hpc _ =>
    cases ok <;> exact .inl (.of_pc hpc rfl nofun rfl id)
  | @unlockEnd ok hpc =>
    cases ok with
    | true => exact .inl (.of_pc hpc rfl nofun rfl fun _ => rfl)
    | false => exact .inl (.of_pc hpc rfl nofun rfl nofun)
  | cleanupSkip hpc | cleanupEnd hpc =>
    exact .inl (.of_pc hpc rfl nofun rfl nofun)

/-- Steps that change memory are quiet, and no step of the checks. -/
lemma Effect.calm (h : Effect σ here i t σ' t') : Calm t t' ∧ (t'.pc.placed → t'.pc.decided) := by
  cases h with
  | insert hpc _ =>
    refine ⟨.of_early (by rw [hpc]; rfl) ?_ rfl, nofun⟩
    rw [insertNew_eq]
    rfl
  | growLock hpc | growBack hpc | growMark hpc | growUnlock hpc | growLink hpc | lockItem hpc =>
    exact ⟨.of_early (by rw [hpc]; rfl) rfl rfl, nofun⟩
  | @unlockItem ok j it e hpc _ _ _ _ =>
    cases ok with
    | true => exact ⟨.of_pc hpc rfl nofun rfl fun _ => rfl, fun _ => rfl⟩
    | false => exact ⟨.of_pc hpc rfl nofun rfl nofun, nofun⟩
  | cleanup hpc =>
    exact ⟨.of_pc hpc rfl nofun rfl nofun, nofun⟩

/-! ## Keys that scans have skipped -/

section

variable {k k' : Key}

/-- The key that a transaction is about to insert. -/
def Pc.inserts? : Pc ι → Option Key
  | .findInsert _ k _ => some k
  | _ => none

/-- Keys come into a tree only by inserts. -/
lemma Effect.find_none (h : Effect σ here i t σ' t') (hnone : σ.find k = none)
    (hins : t.pc.inserts? ≠ some k) : σ'.find k = none := by
  cases h with
  | @insert set k₀ v hpc hfind =>
    have hk : k ≠ k₀ := by
      rintro rfl
      rw [hpc] at hins
      exact hins rfl
    rw [find_insert, if_neg hk, hnone]
  | growLock | growBack | growMark | growUnlock | lockItem | unlockItem => exact hnone
  | @growLink own k₀ v e copy hpc hfind =>
    have hk : k ≠ k₀ := by
      rintro rfl
      rw [hnone] at hfind
      cases hfind
    rw [find_replace hfind, if_neg hk, hnone]
  | cleanup =>
    rw [find_remove]
    split
    · rfl
    · exact hnone

lemma Install.find_none {v : Option Bytes} (h : Install σ here i k' v σ')
    (hnone : σ.find k = none) : σ'.find k = none := by
  obtain ⟨e, hfind, -, hfinds, -⟩ := h.frame
  have hne : k ≠ k' := by
    rintro rfl
    rw [hnone] at hfind
    cases hfind
  rw [hfinds k hne, hnone]

lemma Inserted.append {calls : List (Call × Result)} (l : List (Call × Result))
    (h : Inserted calls k) : Inserted (calls ++ l) k :=
  h.imp fun _ hx => ⟨mem_append_left l hx.1, hx.2⟩

lemma Local.calls (h : Local σ here t t') : ∃ l, t'.calls = t.calls ++ l := by
  cases h with
  | missed | read | observe | put | delete | rowStop | scanEnd => exact ⟨[_], rfl⟩
  | _ => exact ⟨[], (append_nil _).symm⟩

lemma Effect.calls (h : Effect σ here i t σ' t') : ∃ l, t'.calls = t.calls ++ l := by
  cases h with
  | insert =>
    rw [insertNew_eq]
    exact ⟨[_], rfl⟩
  | growLink => exact ⟨[_], rfl⟩
  | _ => exact ⟨[], (append_nil _).symm⟩

lemma Local.skipped (h : Local σ here t t') (hk : t'.skipped k) :
    t.skipped k ∨ σ.find k = none := by
  cases h with
  | visit =>
    refine (Bool.or_eq_true_iff.mp hk).imp_right fun hpass => ?_
    obtain ⟨rfl, -, -, hnone, -⟩ := of_decide_eq_true hpass
    exact hnone
  | _ => exact .inl hk

lemma Effect.skipped (h : Effect σ here i t σ' t') : t'.skipped = t.skipped := by
  cases h with
  | insert => rw [insertNew_eq]; rfl
  | _ => rfl

/-- A key that is not there stays away unless the transaction inserts it. -/
lemma Effect.unfilled (h : Effect σ here i t σ' t')
    (hfree : σ.find k = none ∨ Inserted t.calls k) : σ'.find k = none ∨ Inserted t'.calls k := by
  rcases hfree with hnone | hins
  · by_cases hins : t.pc.inserts? = some k
    · cases h with
      | @insert set k' v hpc hfind =>
        rw [hpc] at hins
        cases hins
        refine .inr ⟨_, mem_append_right _ (mem_singleton_self _), ?_⟩
        cases set <;> rfl
      | growLock hpc | growBack hpc | growMark hpc | growUnlock hpc | growLink hpc | lockItem hpc
      | unlockItem hpc | cleanup hpc =>
        rw [hpc] at hins
        cases hins
    · exact .inl (h.find_none hnone hins)
  · obtain ⟨l, hl⟩ := h.calls
    rw [hl]
    exact .inr (hins.append l)

/-- No key comes into a tree that another transaction has skipped which has not got its locks. -/
def InsertsSeen (s : State M ι) (a : Act ι) : Prop :=
  ∀ k ∈ (s.txns a.txn).pc.inserts?, s.store.find k = none →
    ∀ j, j ≠ a.txn → (s.txns j).pc.early → (s.txns j).skipped k = false

instance [DecidableEq ι] [Fintype ι] (s : State M ι) (a : Act ι) : Decidable (InsertsSeen s a) := by
  unfold InsertsSeen
  infer_instance

/-- A transaction calls and scans only keys that it has not written, and no key comes in behind a
scan. -/
def ScansSeen (s : State M ι) (a : Act ι) : Prop := Disciplined s a ∧ InsertsSeen s a

instance [DecidableEq ι] [Fintype ι] (s : State M ι) (a : Act ι) : Decidable (ScansSeen s a) := by
  unfold ScansSeen
  infer_instance

/-- What a transaction without its locks has skipped is not there, unless it has inserted it. -/
def Unfilled (s : State M ι) : Prop :=
  ∀ i, (s.txns i).pc.early → ∀ k, (s.txns i).skipped k →
    s.store.find k = none ∨ Inserted (s.txns i).calls k

variable [DecidableEq ι]

omit [DecidableEq ι] in
lemma Unfilled.changes (h : Unfilled s) (hc : Changes s s' i t)
    (hself : t.pc.early → ∀ k, t.skipped k → s'.store.find k = none ∨ Inserted t.calls k)
    (hother : ∀ j, j ≠ i → (s.txns j).pc.early → ∀ k, (s.txns j).skipped k →
      s.store.find k = none → s'.store.find k = none) : Unfilled s' :=
  hc.all (p := fun _ t => t.pc.early → ∀ k, t.skipped k →
    s'.store.find k = none ∨ Inserted t.calls k) hself
    fun j hj he k hk => (h j he k hk).imp_left (hother j hj he k hk)

lemma Unfilled.moves (hok : Ok thread s) (h : Unfilled s) (hm : Moves thread epoch s i s')
    (hseen : ∀ k ∈ (s.txns i).pc.inserts?, s.store.find k = none →
      ∀ j, j ≠ i → (s.txns j).pc.early → (s.txns j).skipped k = false) : Unfilled s' := by
  cases hm with
  | start hpc =>
    exact h.changes (.of_update rfl) (fun _ => h i (by rw [hpc]; rfl)) fun _ _ _ _ _ => id
  | here hrun hlocal =>
    refine h.changes (.of_update rfl) (fun he k hk => ?_) fun _ _ _ _ _ => id
    have hearly : (s.txns i).pc.early := by
      rcases hlocal.calm hok.mem (hok.work i hrun) with
        hcalm | ⟨n, it, -, -, -, -, rfl⟩ | ⟨n, -, -, rfl⟩
      · exact hcalm.early he
      · cases he
      · cases he
    rcases hlocal.skipped hk with hold | hnone
    · obtain ⟨l, hl⟩ := hlocal.calls
      exact (h i hearly k hold).imp_right (hl ▸ Inserted.append l)
    · exact .inl hnone
  | effect hrun heffect =>
    refine h.changes (.of_update rfl) (fun he k hk => ?_) fun j hj he k hk hnone => ?_
    · rw [heffect.skipped] at hk
      exact heffect.unfilled (h i (heffect.calm.1.early he) k hk)
    · refine heffect.find_none hnone fun hins => ?_
      rw [hseen k hins hnone j hj he] at hk
      cases hk
  | locked | drew =>
    exact h.changes (.of_update (by rfl)) (fun he => by cases he) fun _ _ _ _ _ => id
  | installed hpc hit href hw hinstall =>
    have hinst := (hok.work i (by rw [hpc]; rfl)).install hok.mem (hok.core i) hpc hit href hw
      hinstall
    exact h.changes (.of_update rfl) (fun he => by cases he) fun _ _ _ _ _ => hinst.find_none

omit [DecidableEq ι] in
/-- A transaction that gets its locks still has what it has inserted to itself. -/
lemma Ok.mine_of_inserted (hok : Ok thread s) {n : ℕ} (hpc : (s.txns i).pc = .lock n)
    (hk : Inserted (s.txns i).calls k) : Mine s.store i k := by
  obtain ⟨it, hit, hins, hw, rfl⟩ := (hok.core i).linked.inserted k hk
  obtain ⟨-, e, href, -⟩ := (hok.core i).items.write it hit hw
  have hinst := (hok.core i).installs
  rw [hpc] at hinst
  have hnil : (s.txns i).installed = [] := hinst
  have hfresh := (hok.work i (by rw [hpc]; rfl)).fresh it (by rw [hpc]; exact hit) hins
    (by rw [hnil]; exact not_mem_nil) e ⟨href, hw⟩
  exact ⟨e, hfresh.find, hfresh.new, hfresh.writer⟩

end

/-! ## All steps -/

section

variable [DecidableEq ι]

/-- A quiet step that leaves memory alone. -/
lemma Ordered.setTxn (hok : Ok thread s) (h : Ordered db s) (hcalm : Calm (s.txns i) t) :
    Ordered db (s.setTxn i t) :=
  h.calm hok rfl (Drifts.refl _) (fun _ => rfl) (.changes (.of_update rfl) hcalm)
    fun _ _ _ _ hmine => hmine

/-- A transaction that has its place and has to pass its checks keeps what it has inserted. -/
lemma Effect.mine (hok : Ok thread s) (hrun : (s.txns i).pc.running)
    (h : Effect s.store (thread i) i (s.txns i) σ t) (hc : Changes s s' i t) {j : ι} {k : Key}
    (hj : (s'.txns j).pc.placed) (hund : (s'.txns j).pc.decided = false)
    (hmine : Mine s.store j k) : Mine σ j k := by
  have htouch := h.touch (hok.core i) (hok.work i hrun)
  by_cases hji : j = i
  · rw [hji, hc.self] at hj hund
    rw [h.calm.2 hj] at hund
    cases hund
  · rw [hc.other j hji] at hj hund
    exact hmine.evolve hok.mem (htouch.evolves hok.mem hji
      (hok.thread_ne hrun (Pc.running_of_placed hj hund) hji))

/-- The order explains the state after every disciplined step. -/
lemma Ordered.moves (hok : Ok thread s) (hfree : Unfilled s) (h : Ordered db s)
    (hm : Moves thread epoch s i s') : Ordered db s' := by
  have hok' := hok.moves hm
  cases hm with
  | start hpc hfree => exact h.setTxn hok (.of_early (by rw [hpc]; rfl) rfl rfl)
  | here hrun hlocal =>
    rcases hlocal.calm hok.mem (hok.work i hrun) with
      hcalm | ⟨j, it, hpc, hit, hread, hpass, rfl⟩ | ⟨j, hpc, hend, rfl⟩
    · exact h.setTxn hok hcalm
    · exact h.checkPass hok hpc hit hread hpass
    · exact h.decide hok hpc hend hok'
  | @effect σ t hrun heffect =>
    have htouch := heffect.touch (hok.core i) (hok.work i hrun)
    have hc : Changes s (s.put i σ t) i t := .of_update rfl
    exact h.calm hok rfl htouch.drifts (htouch.current hok.mem) (.changes hc heffect.calm.1)
      fun _ hj hund _ hmine => heffect.mine hok hrun hc hj hund hmine
  | locked hpc hend =>
    exact h.locked hok hpc (fun k hk => (hfree i (by rw [hpc]; rfl) k hk).imp_right
      (hok.mine_of_inserted hpc)) hok' ⟨.of_update rfl, rfl, rfl⟩
  | installed hpc hit href hw hinstall =>
    have hrun : (s.txns i).pc.running := by rw [hpc]; rfl
    exact h.installed hok hpc hit (by rw [hw]; rfl)
      ((hok.work i hrun).install hok.mem (hok.core i) hpc hit href hw hinstall)
      ⟨.of_update rfl, rfl, rfl⟩
  | @drew r hpc hclock =>
    exact h.calm hok (order_record_drew _ i) (Drifts.refl _) (fun _ => rfl)
      (.changes (.of_update rfl) (.of_draw hpc _)) fun _ _ _ _ hmine => hmine

end

/-! ## Elements that are being replaced -/

/-- The element that a transaction is replacing. -/
def Pc.replaces : Pc ι → Option ℕ
  | .growUnlock _ _ e | .growCopy _ _ _ e | .growLink _ _ _ e _ => some e
  | _ => none

lemma Txn.replaces_ne {pc : Pc ι} (hpc : t.pc = pc) (h : pc.replaces = none) (e : ℕ) :
    t.pc.replaces ≠ some e := by
  rw [hpc, h]
  exact (some_ne_none e).symm

/-- A key has an element that has been valid and is not valid now. -/
structure Dead (σ : Store M ι) (k : Key) (e : ℕ) : Prop where
  find : σ.find k = some e
  live : (σ.heap e).live
  invalid : (σ.heap e).word.version.invalid

/-- Such an element is being replaced. -/
def Replacing (s : State M ι) : Prop :=
  ∀ k e, Dead s.store k e → ∃ i, (s.txns i).pc.replaces = some e

section

variable {k k' : Key} {e : ℕ}

lemma Local.replaces (h : Local σ here t t') (he : t.pc.replaces = some e) :
    t'.pc.replaces = some e := by
  cases h with
  | advance hfrom _ _ =>
    rcases hfrom with ⟨⟨hpc, -⟩ | ⟨set, v, hpc⟩, -⟩ | hat
    · rw [hpc] at he
      cases he
    · rw [hpc] at he
      cases he
    · generalize t.pc = pc at hat he
      cases hat <;> cases he
  | copy hpc =>
    rw [hpc] at he
    exact he
  | abort hpc =>
    rcases hpc with hpc | ⟨k, e, hat⟩ | ⟨d, table, lo, hi, pos, rows, entries, next, hpc⟩
    · rw [hpc] at he
      cases he
    · generalize t.pc = pc at hat he
      cases hat <;> cases he
    · rw [hpc] at he
      cases he
  | fail hpc => rcases hpc with hpc | hpc <;> rw [hpc] at he <;> cases he
  | seek hpc | missed hpc | read hpc | observe hpc | put hpc | grow hpc | delete hpc | scan hpc
  | visit hpc | row hpc | rowStop hpc | scanEnd hpc | commit hpc | lockSkip hpc | checkSkip hpc
  | checkPass hpc | decide hpc | installSkip hpc | installEnd hpc | unlockSkip hpc | unlockEnd hpc
  | cleanupSkip hpc | cleanupEnd hpc =>
    rw [hpc] at he
    cases he

/-- Locks do not matter. -/
lemma Dead.of_setLock {e' : ℕ} {l : Option ℕ} (h : Dead (σ.set e' ((σ.heap e').setLock l)) k e) :
    Dead σ k e := by
  obtain ⟨hfind, hlive, hinv⟩ := h
  by_cases he : e = e'
  · subst he
    rw [heap_set, update_self] at hlive hinv
    exact ⟨hfind, hlive, hinv⟩
  · rw [heap_set, update_of_ne he] at hlive hinv
    exact ⟨hfind, hlive, hinv⟩

/-- A new element that is valid or has never been valid. -/
lemma Dead.of_new {x : Object ι} (hm : MemOk σ) (hheap : σ'.heap = update σ.heap σ.next x)
    (hfind : ∀ k, σ'.find k = if k = k' then some σ.next else σ.find k)
    (hx : x.live → x.word.version.invalid = false) (h : Dead σ' k e) : Dead σ k e ∧ k ≠ k' := by
  obtain ⟨hf, hlive, hinv⟩ := h
  rw [hfind] at hf
  split at hf
  · cases hf
    rw [hheap, update_self] at hlive hinv
    rw [hx hlive] at hinv
    cases hinv
  · next hk =>
    rw [hheap, update_of_ne (hm.linked hf).1.ne] at hlive hinv
    exact ⟨⟨hf, hlive, hinv⟩, hk⟩

lemma Dead.of_remove (h : Dead (σ.remove k') k e) : Dead σ k e := by
  obtain ⟨hf, hlive, hinv⟩ := h
  rw [find_remove] at hf
  split at hf
  · cases hf
  · exact ⟨hf, hlive, hinv⟩

/-- An install leaves no such element behind. -/
lemma Install.dead {v : Option Bytes} (hm : MemOk σ) (h : Install σ here i k' v σ')
    (hd : Dead σ' k e) : Dead σ k e := by
  obtain ⟨hf, hlive, hinv⟩ := hd
  obtain ⟨e', hfind', hheap, -, -⟩ := h.frame
  by_cases he : e = e'
  · subst he
    cases h with
    | update hfind hvalid _ =>
      rw [hfind] at hfind'
      cases hfind'
      rw [heap_set, update_self] at hinv
      have hinv : (σ.heap e).word.version.invalid := hinv
      rw [hvalid] at hinv
      cases hinv
    | validate hfind _ _ _ =>
      rw [hfind] at hfind'
      cases hfind'
      rw [heap_set, update_self] at hinv
      cases hinv
    | kill hfind _ _ =>
      rw [find_remove] at hf
      split at hf
      · cases hf
      · next hk =>
        rw [find_set] at hf
        exact absurd ((hm.linked hf).2.symm.trans (hm.linked hfind').2) hk
  · rw [hheap e he] at hlive hinv
    refine ⟨?_, hlive, hinv⟩
    cases h with
    | update | validate => exact hf
    | kill =>
      rw [find_remove] at hf
      split at hf
      · cases hf
      · exact hf

/-- An element that dies in a step is being replaced by the transaction, and the transaction does
not leave one that it is replacing. -/
lemma Effect.dead (hm : MemOk σ) (hw : Work σ here i t) (h : Effect σ here i t σ' t')
    (hd : Dead σ' k e) :
    t'.pc.replaces = some e ∨ Dead σ k e ∧ t.pc.replaces ≠ some e := by
  have hpcok := hw.pc
  cases h with
  | insert hpc hfind =>
    refine .inr ⟨(hd.of_new hm rfl (find_insert σ _ _) fun hl => ?_).1,
      Txn.replaces_ne hpc rfl e⟩
    cases hl
  | growLock hpc | growBack hpc | lockItem hpc | unlockItem hpc =>
    exact .inr ⟨hd.of_setLock, Txn.replaces_ne hpc rfl e⟩
  | @growMark k' v e' hpc hvalid =>
    by_cases he : e = e'
    · exact .inl (by rw [he]; rfl)
    · obtain ⟨hf, hlive, hinv⟩ := hd
      rw [heap_set, update_of_ne he] at hlive hinv
      exact .inr ⟨⟨hf, hlive, hinv⟩, Txn.replaces_ne hpc rfl e⟩
  | @growUnlock k' v e' hpc =>
    by_cases he : e = e'
    · exact .inl (by rw [he]; rfl)
    · refine .inr ⟨hd.of_setLock, ?_⟩
      rw [hpc]
      exact fun heq => he (some.inj heq).symm
  | @growLink own k' v e' copy hpc hfind =>
    rw [hpc] at hpcok
    obtain ⟨-, hg, -, hmov, -, -, -, hvalid⟩ := hpcok
    obtain ⟨hold, hk⟩ := hd.of_new hm rfl (find_replace hfind copy) fun _ => hvalid
    refine .inr ⟨hold, ?_⟩
    rw [hpc]
    intro heq
    cases some.inj heq
    exact hk ((hm.linked hold.find).2.symm.trans hg.key)
  | cleanup hpc =>
    exact .inr ⟨hd.of_remove, Txn.replaces_ne hpc rfl e⟩

end

section

variable [DecidableEq ι]

omit [DecidableEq ι] in
/-- A step of one transaction. -/
lemma Replacing.changes (h : Replacing s) (hc : Changes s s' i t)
    (hi : ∀ k e, Dead s'.store k e → t.pc.replaces = some e ∨
      Dead s.store k e ∧ (s.txns i).pc.replaces ≠ some e) : Replacing s' := by
  intro k e hd
  rcases hi k e hd with hnow | ⟨hold, hne⟩
  · exact ⟨i, by rw [hc.self, hnow]⟩
  · obtain ⟨j, hj⟩ := h k e hold
    have hji : j ≠ i := by
      rintro rfl
      exact hne hj
    exact ⟨j, by rw [hc.other j hji, hj]⟩

lemma Replacing.moves (hok : Ok thread s) (h : Replacing s) (hm : Moves thread epoch s i s') :
    Replacing s' := by
  cases hm with
  | start hpc hfree | locked hpc hend | drew hpc hclock =>
    exact h.changes (.of_update rfl) fun k e hd =>
      .inr ⟨hd, Txn.replaces_ne hpc rfl e⟩
  | here hrun hlocal =>
    refine h.changes (.of_update rfl) fun k e hd => ?_
    by_cases he : (s.txns i).pc.replaces = some e
    · exact .inl (hlocal.replaces he)
    · exact .inr ⟨hd, he⟩
  | effect hrun heffect =>
    exact h.changes (.of_update rfl) fun k e hd => heffect.dead hok.mem (hok.work i hrun) hd
  | installed hpc hit href hw hinstall =>
    have hrun : (s.txns i).pc.running := by rw [hpc]; rfl
    have hinst := (hok.work i hrun).install hok.mem (hok.core i) hpc hit href hw hinstall
    exact h.changes (.of_update rfl) fun k e hd =>
      .inr ⟨hinst.dead hok.mem hd, Txn.replaces_ne hpc rfl e⟩

end

/-! ## Runs -/

/-- Tables that nobody is working on: every key has a valid element. -/
structure Store.WellFormed (σ : Store M ι) : Prop extends MemOk σ where
  reached : ∀ {k e}, σ.find k = some e → (σ.heap e).word.version.invalid = false

/-- No transaction is at work. -/
def State.Finished (s : State M ι) : Prop := ∀ i, (s.txns i).pc.running = false

/-- Without elements that are being replaced, what committed transactions have left is what is in
the tables. -/
lemma Store.committed_eq_current (hm : MemOk σ) (h : ∀ k e, ¬ Dead σ k e) :
    σ.committed = σ.current := by
  funext k
  rw [committed, current]
  cases hfind : σ.find k with
  | none => rfl
  | some e =>
    by_cases hinv : (σ.heap e).word.version.invalid
    · have hnew : ¬ (σ.heap e).live := fun hlive => h k e ⟨hfind, hlive, hinv⟩
      simp [hinv, hnew]
    · rw [Bool.not_eq_true] at hinv
      simp [hinv, (hm.valid (hm.linked hfind).1 hinv).1]

lemma Store.WellFormed.not_dead (h : σ.WellFormed) (k : Key) (e : ℕ) : ¬ Dead σ k e := by
  rintro ⟨hfind, -, hinv⟩
  rw [h.reached hfind] at hinv
  cases hinv

lemma Replacing.not_dead (h : Replacing s) (hs : s.Finished) (k : Key) (e : ℕ) :
    ¬ Dead s.store k e := by
  intro hd
  obtain ⟨i, hi⟩ := h k e hd
  have hrun := hs i
  generalize (s.txns i).pc = pc at hi hrun
  cases pc with
  | growUnlock | growCopy | growLink => cases hrun
  | _ => cases hi

/-- What holds in every state of a disciplined run from the contents `db`. -/
structure Explained [DecidableEq ι] (thread : ι → ℕ) (db : Contents) (s : State M ι) : Prop where
  ok : Ok thread s
  unfilled : Unfilled s
  ordered : Ordered db s
  replacing : Replacing s

/-- One after another in this order, the transactions that have passed their checks would have been
answered as they were. -/
structure Serializes (db : Contents) (s : State M ι) (order : List ι) : Prop where
  nodup : order.Nodup
  mem : ∀ i, i ∈ order ↔ (s.txns i).pc.decided
  explains : Explains db (order.flatMap fun i => (s.txns i).calls)

section

variable [DecidableEq ι]

lemma Explained.init (thread : ι → ℕ) (h : σ.WellFormed) :
    Explained thread σ.committed ({ store := σ } : State M ι) where
  ok := Ok.init thread h.toMemOk
  unfilled i _ k hk := by cases hk
  ordered := by
    refine ⟨nodup_nil, fun i hi => ?_, fun i _ => not_mem_nil, fun i it hp => ?_,
      fun i hi => ?_, fun k => ?_⟩
    · cases hi
    · cases hp.settling
    · cases hi
    · exact (congrFun (committed_eq_current h.toMemOk h.not_dead) k).symm
  replacing k e hd := absurd hd (h.not_dead k e)

lemma Explained.step [Fintype ι] (h : Explained thread db s) {a : Act ι} (ha : Disciplined s a)
    (hseen : InsertsSeen s a) (hstep : step thread epoch s a = some s') :
    Explained thread db s' := by
  have hm := moves_of_step ha hstep
  exact ⟨h.ok.moves hm, h.unfilled.moves h.ok hm hseen, h.ordered.moves h.ok h.unfilled hm,
    h.replacing.moves h.ok hm⟩

/-- The transactions that will commit, by the time at which they had all their locks. -/
def State.decidedOrder (s : State M ι) : List ι := s.order.filter fun i => (s.txns i).pc.decided

omit [DecidableEq ι] in
/-- Transactions that will not commit may be left out of the order. -/
lemma State.after_decided (s : State M ι) (db : Contents) (l : List ι) (k : Key) :
    after (fun i => writeOf (s.txns i).calls) db (l.filter fun i => (s.txns i).pc.decided) k =
      after s.decidedWrites db l k := by
  have hleave : ∀ i ∈ l, (s.txns i).pc.decided = false → s.decidedWrites i k = none := by
    intro i _ hi
    rw [decidedWrites, if_neg (by rw [hi]; exact Bool.false_ne_true)]
  rw [← after_filter hleave]
  refine after_congr fun i hi => ?_
  rw [decidedWrites, if_pos (mem_filter.mp hi).2]

section

variable (h : Explained thread db s)

include h

/-- What a transaction that will commit was answered is right where it stands. -/
lemma Explained.answers (hi : (s.txns i).pc.decided) :
    Explains (after (fun i => writeOf (s.txns i).calls) db
      (before s.decidedOrder i)) (s.txns i).calls := by
  refine explains_of_forall (h.ok.core i).calls fun x hx k => ?_
  rw [decidedOrder, before_filter (p := fun i => (s.txns i).pc.decided) hi, after_decided]
  rcases h.ordered.answered i (Pc.placed_of_decided hi) x hx k with hall | ⟨-, hP⟩ | ⟨hund, -⟩
  · exact hall _
  · exact hP
  · rw [hi] at hund
    cases hund

/-- One after another, the transactions that will commit are answered as they were, and leave what
they write. -/
lemma Explained.flatMap : Explains db (s.decidedOrder.flatMap fun i => (s.txns i).calls) ∧
      ∀ k, contents db (s.decidedOrder.flatMap fun i => (s.txns i).calls) k =
        after s.decidedWrites db s.order k := by
  obtain ⟨hexplains, hcontents⟩ := explains_flatMap (fun i => (s.txns i).calls)
    (h.ordered.nodup.filter _) fun i hi => h.answers (mem_filter.mp hi).2
  refine ⟨hexplains, fun k => ?_⟩
  rw [← after_decided]
  exact hcontents k

lemma Explained.serializes : Serializes db s s.decidedOrder where
  nodup := h.ordered.nodup.filter _
  mem i := by
    rw [decidedOrder, mem_filter]
    exact and_iff_right_of_imp fun hi => h.ordered.mem i (Pc.placed_of_decided hi)
  explains := h.flatMap.1

/-- When all transactions are over, the order leaves what is in the tables. -/
lemma Explained.final (hs : s.Finished) :
    contents db (s.decidedOrder.flatMap fun i => (s.txns i).calls) = s.store.committed := by
  funext k
  rw [h.flatMap.2 k, committed_eq_current h.ok.mem (h.replacing.not_dead hs), h.ordered.current]
  refine after_congr fun i _ => h.ok.decided_eq_installed i k fun it hp _ => ?_
  have hrun := Pc.running_of_settling hp.settling
  rw [hs i] at hrun
  cases hrun

end

omit [DecidableEq ι] in
/-- A transaction that will commit and is over has committed. -/
lemma State.Finished.committed_iff (hs : s.Finished) (i : ι) :
    (s.txns i).pc.decided ↔ (s.txns i).pc = .committed := by
  have hrun := hs i
  generalize (s.txns i).pc = pc at hrun
  cases pc with
  | committed => exact ⟨fun _ => rfl, fun _ => rfl⟩
  | unborn | aborted => exact ⟨fun h => (by cases h), nofun⟩
  | _ => cases hrun

end

/-- Tables without rows, in trees with one leaf. -/
def emptyStore : Store oneLeaf Bool where
  trees _ := ⟨[], 0, List.Pairwise.nil⟩
  heap _ := {}
  next := 0

lemma emptyStore_wellFormed : emptyStore.WellFormed where
  linked h := by cases h
  valid h := absurd h (Nat.not_lt_zero _)
  reached h := by cases h

/-- The element of a row that nobody is working on. -/
def row (k : Key) (v : Bytes) : Object ι where
  value := v
  capacity := capacityFor v.length
  key := k
  live := true

/-- Put a row into a table. -/
def Store.load (σ : Store M ι) (k : Key) (v : Bytes) : Store M ι := σ.insert k (row k v)

lemma Store.WellFormed.load (h : σ.WellFormed) {k : Key} (hk : σ.find k = none) (v : Bytes) :
    (σ.load k v).WellFormed := by
  have hfind := Store.find_insert σ k (row k v)
  refine ⟨h.toMemOk.of_new rfl rfl hfind rfl (fun _ => rfl) fun e he => ?_, fun {k' e} he => ?_⟩
  · rw [hk] at he
    cases he
  · rw [Store.load, hfind] at he
    split at he
    · cases he
      rw [Store.load, Store.heap_insert, update_self]
      rfl
    · rw [Store.load, Store.heap_insert, update_of_ne (h.linked he).1.ne]
      exact h.reached he

/-- One transaction inserts a row and commits, another one scans the table and commits. -/
def insertAndScan : List (Act Bool) :=
  [.start false, .start true, .call false (.insert (1, [97]) [1]), .go false, .commit false] ++
    List.replicate 6 (.go false) ++ [.draw false 1, .go false, .go false] ++
    [.call true (.scan .forward 1 [] []), .go true, .go true, .go true, .commit true] ++
    List.replicate 9 (.go true)

lemma toNat_lt_threads (i : Bool) : i.toNat < 128 := i.toNat_lt.trans (by decide)

/-- The threads of two transactions. -/
def twoThreads (i : Bool) : Fin 128 := ⟨i.toNat, toNat_lt_threads i⟩

/-- A table with one row, and a lower layer with nothing in it. -/
def emptiedLayer : Store twoLayers Bool :=
  ({ trees := fun _ => ⟨⟨[], 0, List.Pairwise.nil⟩, fun _ => 0⟩, heap := fun _ => {}, next := 0 } :
    Store twoLayers Bool).load (1, [122]) [1]

lemma emptiedLayer_wellFormed : emptiedLayer.WellFormed := by
  refine Store.WellFormed.load { linked := ?_, valid := ?_, reached := ?_ } rfl [1]
  · intro k e h
    cases h
  · exact fun h => absurd h (Nat.not_lt_zero _)
  · intro k e h
    cases h

/-- One transaction scans the lower layer, which is empty. Another one reads the row, inserts a key
of the lower layer and commits. Then the first one changes the row and commits. -/
def insertBehindScan : List (Act Bool) :=
  [.start false, .call false (.scan .forward 1 [65] [66]), .go false, .go false, .start true,
    .call true (.get (1, [122])), .go true, .go true, .call true (.insert (1, [65, 49]) [2]),
    .go true, .commit true] ++ List.replicate 9 (.go true) ++ [.draw true 1] ++
    List.replicate 3 (.go true) ++
    [.call false (.put (1, [122]) [3]), .go false, .go false, .commit false] ++
    List.replicate 9 (.go false) ++ [.draw false 2] ++ List.replicate 3 (.go false)

lemma eq_of_nodup_bool {l : List Bool} (hl : l.Nodup) (hmem : ∀ b, b ∈ l) :
    l = [false, true] ∨ l = [true, false] := by
  have hperm : l.Perm [false, true] := (perm_ext_iff_of_nodup hl (by decide)).mpr fun b =>
    ⟨fun _ => by cases b <;> decide, fun _ => hmem b⟩
  obtain ⟨a, b, rfl⟩ := length_eq_two.mp hperm.length_eq
  revert hl
  cases a <;> cases b <;> decide

end Rolis.Sto.Occ
