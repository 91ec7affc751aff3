import Rolis.Sto.CommitId
import Rolis.Sto.Serializable

/-!
# Commit ids and the writes of a key

A transaction draws its commit id between its installs and its unlocks. Until then nobody else can
write a key that it has installed: the element of the key is locked, or the key has no element
because the transaction has deleted it (`Guarded`). So whoever writes the key next draws later.

A deleted key is only safe until somebody inserts it again. The tree does not have it any more, and
nothing makes the insert wait for the commit id of the delete.
-/

namespace Rolis.Sto.Occ

open Function List Store Option

variable {M : Masstree} {ι : Type} {σ σ' : Store M ι} {here epoch : ℕ} {i j : ι}
  {t t' : Txn M.Node ι} {k : Key} {thread : ι → ℕ} {s s' : State M ι}

/-! ## Who has a commit id -/

/-- The transaction may have installed something and has no commit id. -/
def Pc.unnumbered : Pc ι → Bool
  | .install _ | .draw => true
  | _ => false

/-- Whether a transaction has its commit id. -/
def Txn.NumberedAt {N : Type} (t : Txn N ι) : Pc ι → Prop
  | .draw => t.cid = none ∧ t.anyWrites
  | .unlock true _ => t.cid.isSome
  | .committed => t.cid.isSome ∨ t.anyWrites = false
  | _ => t.cid = none

/-- A transaction has its commit id when it is behind its draw. -/
structure Txn.IdOk {N : Type} (t : Txn N ι) : Prop where
  writes : t.installed ≠ [] → t.anyWrites
  numbered : t.NumberedAt t.pc

lemma Pc.running_of_unnumbered {pc : Pc ι} (h : pc.unnumbered) : pc.running := by
  cases pc with
  | install | draw => rfl
  | _ => cases h

/-- A transaction with installs and without a commit id is between the two. -/
lemma Txn.IdOk.unnumbered (hc : Core σ here t) (h : t.IdOk) (hk : k ∈ t.installed)
    (hcid : t.cid = none) : t.pc.unnumbered := by
  have hd := hc.decided_of_installed hk
  have hw := h.writes (ne_nil_of_mem hk)
  have hn := h.numbered
  generalize t.pc = pc at hd hn
  cases pc with
  | install | draw => rfl
  | unlock ok =>
    cases ok with
    | true =>
      have hn : t.cid.isSome := hn
      rw [hcid] at hn
      cases hn
    | false => cases hd
  | committed =>
    rcases hn with hn | hn
    · rw [hcid] at hn
      cases hn
    · rw [hw] at hn
      cases hn
  | _ => cases hd

lemma Txn.IdOk.cid_eq_none (h : t.IdOk) (hpc : t.pc.unnumbered) : t.cid = none := by
  have hn := h.numbered
  generalize t.pc = pc at hpc hn
  cases pc with
  | install => exact hn
  | draw => exact hn.1
  | _ => cases hpc

/-- Steps before the place in the order. -/
lemma Txn.IdOk.of_early (hc : Core σ here t) (h : t.IdOk) (hpc : t.pc.early)
    (hinst : t'.installed = t.installed) (hcid : t'.cid = t.cid) (hpc' : t'.pc.placed = false) :
    t'.IdOk := by
  have hn := h.numbered
  have hi := hc.installs
  have hnone : t.cid = none ∧ t.installed = [] := by
    generalize t.pc = pc at hpc hn hi
    cases pc with
    | check | install | draw | unlock | cleanup | committed | aborted => cases hpc
    | _ => exact ⟨hn, hi⟩
  refine ⟨fun hne => absurd (hinst.trans hnone.2) hne, ?_⟩
  have hcid' : t'.cid = none := hcid.trans hnone.1
  generalize t'.pc = pc at hpc'
  cases pc with
  | unlock ok =>
    cases ok with
    | true => cases hpc'
    | false => exact hcid'
  | draw | committed => cases hpc'
  | _ => exact hcid'

/-- Steps behind the place in the order. -/
lemma Txn.IdOk.of_pc {pc : Pc ι} (h : t.IdOk) (hpc : t.pc = pc) (hitems : t'.items = t.items)
    (hinst : t'.installed = t.installed) (hn : t.NumberedAt pc → t'.NumberedAt t'.pc) :
    t'.IdOk := by
  refine ⟨fun hne => ?_, hn (hpc ▸ h.numbered)⟩
  rw [Txn.anyWrites, hitems]
  exact h.writes (hinst ▸ hne)

lemma Local.idOk (hm : MemOk σ) (hc : Core σ here t) (hw : Work σ here i t)
    (h : Local σ here t t') (ht : t.IdOk) : t'.IdOk := by
  cases h with
  | advance hfrom hpc _ =>
    refine ht.of_early hc (Pc.early_of_executing (hw.found hm hfrom).1) rfl rfl ?_
    cases hpc <;> rfl
  | grow hpc _ =>
    refine ht.of_early hc (by rw [hpc]; rfl) rfl rfl ?_
    simp only
    split <;> rfl
  | seek hpc | missed hpc | read hpc | observe hpc | put hpc | delete hpc | copy hpc | scan hpc
  | visit hpc | row hpc | rowStop hpc | scanEnd hpc | commit hpc | lockSkip hpc =>
    exact ht.of_early hc (by rw [hpc]; rfl) rfl rfl rfl
  | abort hpc =>
    exact ht.of_early hc (Pc.early_of_executing (Pc.executing_of_abort hpc)) rfl rfl rfl
  | fail hpc =>
    rcases hpc with hpc | hpc <;> exact ht.of_pc hpc rfl rfl id
  | checkSkip hpc | checkPass hpc | decide hpc | installSkip hpc | cleanupSkip hpc
  | cleanupEnd hpc =>
    exact ht.of_pc hpc rfl rfl id
  | installEnd hpc =>
    refine ht.of_pc hpc rfl rfl fun hn => ?_
    split
    · next hyes => exact ⟨hn, hyes⟩
    · next hno => exact .inr (Bool.eq_false_iff.mpr hno)
  | @unlockSkip ok j hpc _ =>
    cases ok <;> exact ht.of_pc hpc rfl rfl id
  | @unlockEnd ok hpc =>
    cases ok with
    | true => exact ht.of_pc hpc rfl rfl .inl
    | false => exact ht.of_pc hpc rfl rfl id

lemma Effect.idOk (hc : Core σ here t) (h : Effect σ here i t σ' t') (ht : t.IdOk) : t'.IdOk := by
  cases h with
  | insert hpc _ =>
    rw [insertNew_eq]
    exact ht.of_early hc (by rw [hpc]; rfl) rfl rfl rfl
  | growLock hpc | growBack hpc | growMark hpc | growUnlock hpc | growLink hpc | lockItem hpc =>
    exact ht.of_early hc (by rw [hpc]; rfl) rfl rfl rfl
  | @unlockItem ok j it e hpc _ _ _ _ =>
    cases ok <;> exact ht.of_pc hpc rfl rfl id
  | cleanup hpc =>
    exact ht.of_pc hpc rfl rfl id

/-! ## Keys that are installed without a commit id -/

/-- Nobody but the transaction on the thread `here` can write the key: its element is locked, or it
has none. -/
def Guarded (σ : Store M ι) (here : ℕ) (k : Key) : Prop :=
  σ.find k = none ∨ ∃ e, σ.find k = some e ∧ (σ.heap e).word.version.invalid = false ∧
    (σ.heap e).word.lock = some here

section

variable {here' : ℕ} {k' : Key} {v : Option Bytes}

/-- Others leave the key alone, unless they insert it. -/
lemma Guarded.evolve (hm : MemOk σ) (hm' : MemOk σ') (he : Evolves σ σ' here i)
    (hnew : σ.find k = none → σ'.find k = none) (h : Guarded σ here k) : Guarded σ' here k := by
  rcases h with hnone | ⟨e, hfind, hvalid, hlock⟩
  · exact .inl (hnew hnone)
  · obtain ⟨hlt, hkey⟩ := hm.linked hfind
    have hheap := he.held hlt hlock
    have hfind' := (hm'.valid (hlt.trans_le he.next_le) (by rw [hheap, hvalid])).2
    rw [hheap, hkey] at hfind'
    exact .inr ⟨e, hfind', by rw [hheap, hvalid], by rw [hheap, hlock]⟩

/-- An install leaves its key to the transaction. -/
lemma Install.guarded (h : Install σ here i k v σ') : Guarded σ' here k := by
  cases h with
  | @update e _ hfind hvalid hheld =>
    refine .inr ⟨e, hfind, ?_, ?_⟩
    · rw [heap_set, update_self]
      exact hvalid
    · rw [heap_set, update_self]
      exact hheld
  | @validate e hfind _ _ hheld =>
    refine .inr ⟨e, hfind, ?_, ?_⟩
    · rw [heap_set, update_self]
      rfl
    · rw [heap_set, update_self]
      exact hheld
  | kill => exact .inl (by rw [find_remove, if_pos rfl])

/-- Other keys stay as they are. -/
lemma Install.guarded_of_ne (hm : MemOk σ) (h : Install σ here' i k' v σ') (hne : k ≠ k')
    (hg : Guarded σ here k) : Guarded σ' here k := by
  obtain ⟨e', hfind', hheap, hfinds, -⟩ := h.frame
  rcases hg with hnone | ⟨e, hfind, hvalid, hlock⟩
  · exact .inl (by rw [hfinds k hne, hnone])
  · have he : e ≠ e' := by
      rintro rfl
      exact hne ((hm.linked hfind).2.symm.trans (hm.linked hfind').2)
    exact .inr ⟨e, by rw [hfinds k hne, hfind], by rw [hheap e he, hvalid],
      by rw [hheap e he, hlock]⟩

lemma Local.installed_eq (h : Local σ here t t') : t'.installed = t.installed ∧ t'.cid = t.cid := by
  cases h <;> exact ⟨rfl, rfl⟩

lemma Effect.installed_eq (h : Effect σ here i t σ' t') :
    t'.installed = t.installed ∧ t'.cid = t.cid := by
  cases h with
  | insert =>
    rw [insertNew_eq]
    exact ⟨rfl, rfl⟩
  | _ => exact ⟨rfl, rfl⟩

end

/-- Every transaction has its commit id when it is behind its draw. -/
def IdsOk (s : State M ι) : Prop := ∀ i, (s.txns i).IdOk

/-- What a transaction has installed without a commit id is left to it. -/
def Held (thread : ι → ℕ) (s : State M ι) : Prop :=
  ∀ i, (s.txns i).pc.unnumbered → ∀ k ∈ (s.txns i).installed, Guarded s.store (thread i) k

section

variable [DecidableEq ι] {it : Item M.Node}

omit [DecidableEq ι] in
lemma IdsOk.changes {t : Txn M.Node ι} (h : IdsOk s) (hc : Changes s s' i t) (ht : t.IdOk) :
    IdsOk s' :=
  hc.all (p := fun _ t => t.IdOk) ht fun j _ => h j

lemma IdsOk.moves (h : IdsOk s) (hok : Ok thread s) (hm : Moves thread epoch s i s') :
    IdsOk s' := by
  cases hm with
  | start hpc hfree =>
    refine h.changes (.of_update rfl) ?_
    rw [hok.unborn i hpc]
    exact ⟨fun hne => absurd rfl hne, rfl⟩
  | here hrun hlocal =>
    exact h.changes (.of_update rfl) (hlocal.idOk hok.mem (hok.core i) (hok.work i hrun) (h i))
  | effect hrun heffect => exact h.changes (.of_update rfl) (heffect.idOk (hok.core i) (h i))
  | locked hpc hend => exact h.changes (.of_update rfl) ((h i).of_pc hpc rfl rfl id)
  | @installed n it e w σ hpc hit href hw hinstall =>
    have hn := (h i).numbered
    rw [hpc] at hn
    refine h.changes (.of_update rfl) ⟨fun _ => ?_, hn⟩
    exact any_eq_true.mpr ⟨it, mem_of_getElem? hit, by rw [hw]; rfl⟩
  | drew hpc hclock => exact h.changes (.of_update rfl) ((h i).of_pc hpc rfl rfl fun _ => rfl)

omit [DecidableEq ι] in
/-- A transaction that has installed the key of a pending write has its commit id. -/
lemma Held.numbered (h : Held thread s) (hok : Ok thread s) (hids : IdsOk s)
    (hp : Pending s i it) (hs : ¬ Stale s.store it) (hne : j ≠ i)
    (hk : it.key ∈ (s.txns j).installed) : (s.txns j).cid.isSome := by
  by_contra hcid
  rw [not_isSome_iff_eq_none] at hcid
  have hpc := (hids j).unnumbered (hok.core j) hk hcid
  obtain ⟨e, -, hfind, hlock, -⟩ := hp.holder hok hs
  rcases h j hpc _ hk with hnone | ⟨e', hfind', -, hlock'⟩
  · rw [hnone] at hfind
    cases hfind
  · rw [hfind] at hfind'
    cases hfind'
    rw [hlock] at hlock'
    exact hok.thread_ne (Pc.running_of_settling hp.settling) (Pc.running_of_unnumbered hpc) hne
      (some.inj hlock').symm

omit [DecidableEq ι] in
/-- A step of one transaction. -/
lemma Held.of_changes (hc : Changes s s' i t)
    (hself : t.pc.unnumbered → ∀ k ∈ t.installed, Guarded s'.store (thread i) k)
    (hrest : ∀ j, j ≠ i → (s.txns j).pc.unnumbered → ∀ k ∈ (s.txns j).installed,
      Guarded s'.store (thread j) k) : Held thread s' :=
  hc.all (p := fun j t => t.pc.unnumbered → ∀ k ∈ t.installed, Guarded s'.store (thread j) k)
    hself hrest

/-- Every disciplined step keeps the keys that are installed without a commit id, if no such key
comes into a tree. -/
lemma Held.moves (h : Held thread s) (hok : Ok thread s) (hids : IdsOk s)
    (hm : Moves thread epoch s i s')
    (hins : ∀ k ∈ (s.txns i).pc.inserts?, s.store.find k = none →
      ∀ j, k ∈ (s.txns j).installed → (s.txns j).cid.isSome) : Held thread s' := by
  have hok' := hok.moves hm
  have hids' := hids.moves hok hm
  cases hm with
  | start hpc hfree | locked hpc hend | drew hpc hclock =>
    exact .of_changes (.of_update rfl) nofun fun j _ => h j
  | @here t hrun hlocal =>
    obtain ⟨hinst, hcid⟩ := hlocal.installed_eq
    have hc : Changes s (s.setTxn i t) i t := .of_update rfl
    refine .of_changes hc (fun hu k hk => ?_) fun j _ => h j
    have hid := hids' i
    rw [hc.self] at hid
    have hnone := hid.cid_eq_none hu
    rw [hcid] at hnone
    rw [hinst] at hk
    exact h i ((hids i).unnumbered (hok.core i) hk hnone) k hk
  | @effect σ t hrun heffect =>
    have htouch := heffect.touch (hok.core i) (hok.work i hrun)
    refine .of_changes (.of_update rfl) (fun hu => ?_) fun j hj hpc k hk => ?_
    · -- a transaction that installs changes memory in no other way
      cases heffect <;> cases hu
    · have hevolves := htouch.evolves hok.mem hj
        (hok.thread_ne hrun (Pc.running_of_unnumbered hpc) hj)
      refine (h j hpc k hk).evolve hok.mem hok'.mem hevolves fun hnone => ?_
      refine heffect.find_none hnone fun hkey => ?_
      have hsome := hins k hkey hnone j hk
      rw [(hids j).cid_eq_none hpc] at hsome
      cases hsome
  | @installed n it e w σ hpc hit href hw hinstall =>
    have hrun : (s.txns i).pc.running := by rw [hpc]; rfl
    have hinst := (hok.work i hrun).install hok.mem (hok.core i) hpc hit href hw hinstall
    refine .of_changes (.of_update rfl) (fun _ k hk => ?_) fun j hj hpcj k hk => ?_
    · by_cases hkey : k = it.key
      · exact hkey ▸ hinst.guarded
      · refine hinst.guarded_of_ne hok.mem hkey (h i (by rw [hpc]; rfl) k ?_)
        exact (mem_cons.mp hk).resolve_left hkey
    · have hevolves := hinst.evolves hok.mem hj
        (hok.thread_ne hrun (Pc.running_of_unnumbered hpcj) hj)
      exact (h j hpcj k hk).evolve hok.mem hok'.mem hevolves hinst.find_none

end

/-! ## The order of the ids -/

/-- A step in which nobody installs anything or draws a commit id. -/
structure Still (s s' : State M ι) : Prop where
  clock : s'.clock = s.clock
  installed : ∀ j, (s'.txns j).installed = (s.txns j).installed
  cid : ∀ j, (s'.txns j).cid = (s.txns j).cid
  events : s'.events = s.events ∨ ∃ i, s'.events = s.events ++ [.locked i]

/-- Commit ids grow with the clock. -/
def Bounded (epoch : ℕ) (s : State M ι) : Prop :=
  ∀ i, ∀ c ∈ (s.txns i).cid, c ≤ epoch + s.clock * 1000

/-- A write that takes effect before another one of the same key has its commit id by then. -/
structure Ids (s : State M ι) : Prop where
  event : ∀ i k, .installed i k ∈ s.events → k ∈ (s.txns i).installed
  order : ∀ i j k, i ≠ j → [.installed i k, .installed j k].Sublist s.events →
    ∃ c ∈ (s.txns i).cid, ∀ c' ∈ (s.txns j).cid, c < c'

/-- The last of two elements that follow each other in a list that has grown is new, or both are
old. -/
lemma pair_sublist_concat {α : Type} {a b c : α} {l : List α} (h : [a, b].Sublist (l ++ [c])) :
    [a, b].Sublist l ∨ a ∈ l ∧ b = c := by
  obtain ⟨l₁, l₂, heq, h₁, h₂⟩ := sublist_append_iff.mp h
  rcases sublist_singleton.mp h₂ with rfl | rfl
  · rw [append_nil] at heq
    exact .inl (heq ▸ h₁)
  · obtain ⟨rfl, hbc⟩ := append_inj' (show [a] ++ [b] = l₁ ++ [c] from heq) rfl
    exact .inr ⟨singleton_sublist.mp h₁, singleton_inj.mp hbc⟩

/-- A commit id that is drawn is larger than all before it. -/
lemma Bounded.lt_commitId (h : Bounded epoch s) {r c : ℕ} (hclock : s.clock < r)
    (hmax : epoch + r * 1000 < 2 ^ 64) (hc : c ∈ (s.txns i).cid) : c < commitId r epoch := by
  have hle := h i c hc
  rw [commitId_of_lt hmax]
  omega

lemma Ids.still (h : Ids s) (hs : Still s s') : Ids s' := by
  refine ⟨fun i k hev => ?_, fun i j k hne hsub => ?_⟩
  · rw [hs.installed]
    refine h.event i k ?_
    rcases hs.events with heq | ⟨i', heq⟩
    · rwa [heq] at hev
    · rw [heq] at hev
      simpa using hev
  · rw [hs.cid, hs.cid]
    refine h.order i j k hne ?_
    rcases hs.events with heq | ⟨i', heq⟩
    · rwa [heq] at hsub
    · rw [heq] at hsub
      exact (pair_sublist_concat hsub).resolve_right fun hlast => by cases hlast.2

section

variable [DecidableEq ι]

lemma Still.put (hinst : t.installed = (s.txns i).installed) (hcid : t.cid = (s.txns i).cid)
    (σ : Store M ι) : Still s (s.put i σ t) := by
  have hc : Changes s (s.put i σ t) i t := .of_update rfl
  exact ⟨rfl, hc.same Txn.installed hinst, hc.same Txn.cid hcid, .inl rfl⟩

lemma Still.goto (s : State M ι) (i : ι) (pc : Pc ι) : Still s (s.goto i pc) :=
  Still.put (t := { s.txns i with pc := pc }) rfl rfl s.store

/-- A step gives nobody a commit id, or it is a draw. -/
lemma Moves.cid_cases (hm : Moves thread epoch s i s') :
    (s'.clock = s.clock ∧ ∀ j, (s'.txns j).cid = (s.txns j).cid) ∨
      ∃ r, s.clock < r ∧ s'.clock = r ∧ (s'.txns i).cid = some (commitId r epoch) ∧
        ∀ j, j ≠ i → (s'.txns j).cid = (s.txns j).cid := by
  cases hm with
  | start => exact .inl ⟨rfl, (Still.goto s i _).cid⟩
  | here _ hlocal =>
    obtain ⟨hinst, hcid⟩ := hlocal.installed_eq
    exact .inl ⟨rfl, (Still.put hinst hcid s.store).cid⟩
  | effect _ heffect =>
    obtain ⟨hinst, hcid⟩ := heffect.installed_eq
    exact .inl ⟨rfl, (Still.put hinst hcid _).cid⟩
  | locked => exact .inl ⟨rfl, (Still.goto s i (.check 0)).cid⟩
  | installed =>
    refine .inl ⟨rfl, ?_⟩
    exact (Changes.of_update (by rfl)).same Txn.cid (by rfl)
  | @drew r hpc hclock =>
    refine .inr ⟨r, hclock, rfl, ?_, fun j hj => ?_⟩
    · simp only [State.setTxn, State.record, update_self]
    · simp only [State.setTxn, State.record, update_of_ne hj]

lemma Bounded.moves (h : Bounded epoch s) (hm : Moves thread epoch s i s')
    (hmax : s'.clock ≠ s.clock → epoch + s'.clock * 1000 < 2 ^ 64) : Bounded epoch s' := by
  intro j c hc
  rcases hm.cid_cases with ⟨hclock, hcid⟩ | ⟨r, hclock, rfl, hself, hother⟩
  · rw [hcid] at hc
    rw [hclock]
    exact h j c hc
  · by_cases hj : j = i
    · subst hj
      rw [hself, mem_some_iff, commitId_of_lt (hmax hclock.ne')] at hc
      exact hc.ge
    · rw [hother j hj] at hc
      exact (h j c hc).trans (Nat.add_le_add_left (Nat.mul_le_mul_right _ hclock.le) _)

/-- A write takes effect: those of the same key that did so before have their ids. -/
lemma Ids.installed (h : Ids s) (σ : Store M ι)
    (hinst : t.installed = k :: (s.txns i).installed) (hcid : t.cid = (s.txns i).cid)
    (hnone : (s.txns i).cid = none)
    (hnumbered : ∀ j, j ≠ i → k ∈ (s.txns j).installed → (s.txns j).cid.isSome) :
    Ids ((s.put i σ t).record (.installed i k)) := by
  have hc : Changes s ((s.put i σ t).record (.installed i k)) i t := .of_update rfl
  have hcids := hc.same Txn.cid hcid
  refine ⟨fun j k' hev => ?_, fun j j' k' hne hsub => ?_⟩
  · have hold : k' ∈ (s.txns j).installed ∨ j = i ∧ k' = k := by
      rcases mem_append.mp hev with hev | hev
      · exact .inl (h.event j k' hev)
      · cases mem_singleton.mp hev
        exact .inr ⟨rfl, rfl⟩
    by_cases hj : j = i
    · subst hj
      rw [hc.self, hinst]
      rcases hold with hold | ⟨-, rfl⟩
      · exact mem_cons_of_mem _ hold
      · exact mem_cons_self
    · rw [hc.other j hj]
      exact hold.resolve_right fun heq => hj heq.1
  · rw [hcids, hcids]
    rcases pair_sublist_concat hsub with hold | ⟨hmem, heq⟩
    · exact h.order j j' k' hne hold
    · cases heq
      obtain ⟨c, hsome⟩ := isSome_iff_exists.mp (hnumbered j hne (h.event j k hmem))
      exact ⟨c, hsome, fun c' hc' => by rw [hnone] at hc'; cases hc'⟩

/-- A commit id is drawn: it is larger than all before it. -/
lemma Ids.drew (h : Ids s) (hbound : Bounded epoch s) {r : ℕ} (hclock : s.clock < r)
    (hmax : epoch + r * 1000 < 2 ^ 64) (hinst : t.installed = (s.txns i).installed)
    (hcid : t.cid = some (commitId r epoch)) (hnone : (s.txns i).cid = none) :
    Ids (({ s with clock := r }.setTxn i t).record (.drew i)) := by
  have hc : Changes s (({ s with clock := r }.setTxn i t).record (.drew i)) i t := .of_update rfl
  refine ⟨fun j k hev => ?_, fun j j' k hne hsub => ?_⟩
  · have hold : .installed j k ∈ s.events := by
      rcases mem_append.mp hev with hev | hev
      · exact hev
      · cases mem_singleton.mp hev
    rw [hc.same Txn.installed hinst]
    exact h.event j k hold
  · have hold := (pair_sublist_concat hsub).resolve_right fun hlast => by cases hlast.2
    obtain ⟨c, hmem, hlt⟩ := h.order j j' k hne hold
    have hj : j ≠ i := by
      rintro rfl
      rw [hnone] at hmem
      cases hmem
    refine ⟨c, by rwa [hc.other j hj], fun c' hc' => ?_⟩
    by_cases hj' : j' = i
    · subst hj'
      rw [hc.self, hcid] at hc'
      cases hc'
      exact hbound.lt_commitId hclock hmax hmem
    · rw [hc.other j' hj'] at hc'
      exact hlt c' hc'

lemma Ids.moves (h : Ids s) (hok : Ok thread s) (hids : IdsOk s) (hheld : Held thread s)
    (hbound : Bounded epoch s) (hm : Moves thread epoch s i s')
    (hmax : s'.clock ≠ s.clock → epoch + s'.clock * 1000 < 2 ^ 64) : Ids s' := by
  cases hm with
  | start hpc hfree => exact h.still (Still.goto s i _)
  | here hrun hlocal =>
    obtain ⟨hinst, hcid⟩ := hlocal.installed_eq
    exact h.still (Still.put hinst hcid s.store)
  | effect hrun heffect =>
    obtain ⟨hinst, hcid⟩ := heffect.installed_eq
    exact h.still (Still.put hinst hcid _)
  | locked hpc hend =>
    have hstill := Still.goto s i (.check 0)
    exact h.still ⟨rfl, hstill.installed, hstill.cid, .inr ⟨i, rfl⟩⟩
  | @installed n it e w σ hpc hit href hw hinstall =>
    have hsome : it.wdata.isSome := by rw [hw]; rfl
    have hp : Pending s i it := ⟨by rw [hpc]; rfl, mem_of_getElem? hit, hsome,
      (hok.core i).not_installed hpc hit hsome⟩
    have hfresh := hp.not_stale hok (by rw [hpc]; rfl)
    exact h.installed σ rfl rfl ((hids i).cid_eq_none (by rw [hpc]; rfl)) fun j hj hk =>
      hheld.numbered hok hids hp hfresh hj hk
  | drew hpc hclock =>
    exact h.drew hbound hclock (hmax hclock.ne') rfl rfl ((hids i).cid_eq_none (by rw [hpc]; rfl))

end

/-! ## Runs -/

/-- The commit id does not wrap around. -/
def Act.Fits (epoch : ℕ) : Act ι → Prop
  | .draw _ r => epoch + r * 1000 < 2 ^ 64
  | _ => True

/-- No key comes into a tree while a transaction that has installed it has no commit id. -/
def InsertsWait (s : State M ι) (a : Act ι) : Prop :=
  ∀ k ∈ (s.txns a.txn).pc.inserts?, s.store.find k = none →
    ∀ j, k ∈ (s.txns j).installed → (s.txns j).cid.isSome

/-- If a write of a key takes effect before another one, then its commit id is the smaller one. -/
def WritesNumbered (s : State M ι) : Prop :=
  ∀ i j k, i ≠ j → [.installed i k, .installed j k].Sublist s.events →
    ∀ c' ∈ (s.txns j).cid, ∃ c ∈ (s.txns i).cid, c < c'

/-- The steps under which commit ids order the writes of each key. -/
@[mk_iff]
structure WritesPaced (epoch : ℕ) (s : State M ι) (a : Act ι) : Prop where
  disciplined : Disciplined s a
  fits : a.Fits epoch
  wait : InsertsWait s a

instance (epoch : ℕ) : (a : Act ι) → Decidable (a.Fits epoch)
  | .draw _ r => inferInstanceAs (Decidable (epoch + r * 1000 < 2 ^ 64))
  | .start _ | .call _ _ | .go _ | .stop _ | .visit _ | .giveUp _ | .commit _ | .fail _ =>
    isTrue trivial

instance [Fintype ι] (s : State M ι) (a : Act ι) : Decidable (InsertsWait s a) := by
  unfold InsertsWait
  infer_instance

instance [Fintype ι] (epoch : ℕ) (s : State M ι) (a : Act ι) : Decidable (WritesPaced epoch s a) :=
  decidable_of_iff' _ (writesPaced_iff epoch s a)

section

variable [DecidableEq ι] {a : Act ι}

/-- Only a reading of the time stamp counter changes the clock. -/
lemma clock_of_step [Fintype ι] (hd : Disciplined s a) (h : step thread epoch s a = some s')
    (hne : s'.clock ≠ s.clock) : ∃ i, a = .draw i s'.clock := by
  have hpc : (s.txns a.txn).pc = .draw := by
    have hm := moves_of_step hd h
    cases hm with
    | drew hpc _ => exact hpc
    | _ => exact absurd rfl hne
  cases a with
  | draw i r =>
    simp only [Act.txn] at hpc
    simp only [step, hpc] at h
    split at h
    · cases h
      exact ⟨i, rfl⟩
    · cases h
  | go i =>
    simp only [Act.txn] at hpc
    simp only [step, State.go, hpc] at h
    cases h
  | _ =>
    simp only [Act.txn] at hpc
    simp only [step, hpc] at h
    cases h

/-- What holds in every state of a run whose ids order the writes. -/
structure Numbered (thread : ι → ℕ) (epoch : ℕ) (s : State M ι) : Prop where
  ok : Ok thread s
  idsOk : IdsOk s
  held : Held thread s
  bounded : Bounded epoch s
  ids : Ids s

omit [DecidableEq ι] in
lemma Numbered.init (thread : ι → ℕ) (epoch : ℕ) {σ : Store M ι} (hσ : MemOk σ) :
    Numbered thread epoch ({ store := σ } : State M ι) where
  ok := Ok.init thread hσ
  idsOk _ := ⟨fun hne => absurd rfl hne, rfl⟩
  held _ hu := by cases hu
  bounded _ _ hc := by cases hc
  ids := by
    refine ⟨fun _ _ hev => ?_, fun _ _ _ _ hsub => ?_⟩
    · cases hev
    · cases hsub

/-- A step changes the clock only to a reading that fits. -/
lemma Act.Fits.clock [Fintype ι] (ha : a.Fits epoch) (hd : Disciplined s a)
    (h : step thread epoch s a = some s') (hne : s'.clock ≠ s.clock) :
    epoch + s'.clock * 1000 < 2 ^ 64 := by
  obtain ⟨i, rfl⟩ := clock_of_step hd h hne
  exact ha

lemma Numbered.step [Fintype ι] (h : Numbered thread epoch s) (ha : WritesPaced epoch s a)
    (hstep : step thread epoch s a = some s') : Numbered thread epoch s' := by
  have hm := moves_of_step ha.disciplined hstep
  have hclock := ha.fits.clock ha.disciplined hstep
  exact ⟨h.ok.moves hm, h.idsOk.moves h.ok hm, h.held.moves h.ok h.idsOk hm ha.wait,
    h.bounded.moves hm hclock, h.ids.moves h.ok h.idsOk h.held h.bounded hm hclock⟩

/-- Commit ids order the writes of each key in every disciplined run in which no id wraps around and
no key comes into a tree while a transaction that has installed it has no commit id. -/
theorem writesNumbered [Fintype ι] (thread : ι → Fin 128) (epoch : ℕ) {σ : Store M ι}
    (hσ : σ.WellFormed) (h : Lts.Run (leader (fun i => thread i) epoch σ) (WritesPaced epoch)
      (leader (fun i => thread i) epoch σ).init s) : WritesNumbered s := by
  have hnum : Numbered (fun i => thread i) epoch s :=
    h.invariant _ (fun _ _ _ ht ha hstep => ht.step ha hstep) (Numbered.init _ _ hσ.toMemOk)
  intro i j k hne hsub c' hc'
  obtain ⟨c, hc, hlt⟩ := hnum.ids.order i j k hne hsub
  exact ⟨c, hc, hlt c' hc'⟩

end

/-- A table with one row. -/
def oneRow : Store oneLeaf Bool := emptyStore.load (1, [97]) [1]

lemma oneRow_wellFormed : oneRow.WellFormed := emptyStore_wellFormed.load rfl [1]

/-- A transaction deletes the row and commits, then another one inserts it again. -/
def deleteThenInsert : List (Act Bool) :=
  [.start false, .call false (.delete (1, [97])), .go false, .commit false] ++
    List.replicate 6 (.go false) ++ [.draw false 1, .go false, .go false] ++
    [.start true, .call true (.insert (1, [97]) [2]), .go true, .commit true] ++
    List.replicate 6 (.go true) ++ [.draw true 2]

/-- The same, but the delete draws its commit id only after the insert. -/
def insertDrawsFirst : List (Act Bool) :=
  [.start false, .call false (.delete (1, [97])), .go false, .commit false] ++
    List.replicate 6 (.go false) ++
    [.start true, .call true (.insert (1, [97]) [2]), .go true, .commit true] ++
    List.replicate 6 (.go true) ++ [.draw true 1, .draw false 2]

theorem writesNumbered_deleteThenInsert :
    ∃ s : State oneLeaf Bool, WritesNumbered s ∧
      [.installed false (1, [97]), .installed true (1, [97])].Sublist s.events ∧
      (s.txns false).cid = some 1000 ∧ (s.txns true).cid = some 2000 := by
  obtain ⟨s, hrun, hs⟩ := Lts.exists_run_of_execGuarded
    (leader (fun i => twoThreads i) 0 oneRow) (WritesPaced 0) { store := oneRow } deleteThenInsert
    (fun s => [.installed false (1, [97]), .installed true (1, [97])].Sublist s.events ∧
      (s.txns false).cid = some 1000 ∧ (s.txns true).cid = some 2000) (by decide +kernel)
  exact ⟨s, writesNumbered twoThreads 0 oneRow_wellFormed hrun, hs⟩

/-- The insert takes effect after the delete and has the smaller commit id. -/
theorem not_writesNumbered_insertDrawsFirst :
    oneRow.WellFormed ∧ ∃ s, Lts.Run (leader (fun i => twoThreads i) 0 oneRow)
      (fun s a => Disciplined s a ∧ a.Fits 0) (leader (fun i => twoThreads i) 0 oneRow).init s ∧
      ¬ WritesNumbered s := by
  obtain ⟨s, hrun, hsub, hfirst, hsecond⟩ := Lts.exists_run_of_execGuarded
    (leader (fun i => twoThreads i) 0 oneRow) (fun s a => Disciplined s a ∧ a.Fits 0)
    { store := oneRow } insertDrawsFirst
    (fun s => [.installed false (1, [97]), .installed true (1, [97])].Sublist s.events ∧
      (s.txns false).cid = some 2000 ∧ (s.txns true).cid = some 1000) (by decide +kernel)
  refine ⟨oneRow_wellFormed, s, hrun, fun h => ?_⟩
  obtain ⟨c, hc, hlt⟩ := h false true (1, [97]) Bool.false_ne_true hsub 1000 hsecond
  rw [hfirst] at hc
  cases hc
  exact absurd hlt (by decide)

end Rolis.Sto.Occ
