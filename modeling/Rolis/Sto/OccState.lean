import Rolis.Sto.OccEffect

/-!
# The invariant of the leader

All transactions side by side: memory is well-formed, every transaction has its `Core`, every
running one its `Work`, and no two running transactions share a thread. Disciplined steps keep all
of it.
-/

namespace Rolis.Sto.Occ

open Function List

variable {M : Masstree} {ι : Type} {s s' : State M ι} {i : ι} {σ : Store M ι} {k : Key}

/-- What holds in every state of a disciplined run. -/
structure Ok (thread : ι → ℕ) (s : State M ι) : Prop where
  mem : MemOk s.store
  core : ∀ i, Core s.store (thread i) (s.txns i)
  work : ∀ i, (s.txns i).pc.running → Work s.store (thread i) i (s.txns i)
  apart : ∀ i j, (s.txns i).pc.running → (s.txns j).pc.running → thread i = thread j → i = j
  unborn : ∀ i, (s.txns i).pc = .unborn → s.txns i = {}

lemma Core.init (σ : Store M ι) (here : ℕ) : Core σ here ({} : Txn M.Node ι) where
  items := ItemsOk.nil σ here
  linked := by
    constructor
    · intro k v
      simp [writeOf]
    · rintro k ⟨x, hx, -⟩
      cases hx
  calls := CallsOk.nil
  installs := rfl

lemma Ok.init (thread : ι → ℕ) (hm : MemOk σ) : Ok thread ({ store := σ } : State M ι) where
  mem := hm
  core i := Core.init σ (thread i)
  work i hrun := by cases hrun
  apart i j hrun := by cases hrun
  unborn _ _ := rfl

lemma Local.born {here : ℕ} {t t' : Txn M.Node ι} (h : Local σ here t t') : t'.pc.born := by
  cases h with
  | advance _ hpc => cases hpc <;> rfl
  | grow | installEnd | unlockEnd =>
    simp only
    split <;> rfl
  | _ => rfl

lemma Effect.born {σ σ' : Store M ι} {here : ℕ} {t t' : Txn M.Node ι}
    (h : Effect σ here i t σ' t') : t'.pc.born := by
  cases h <;> rfl

/-! ## Steps of one transaction -/

/-- The transaction `i` becomes `t`, and the others stay as they are. -/
structure Changes (s s' : State M ι) (i : ι) (t : Txn M.Node ι) : Prop where
  self : s'.txns i = t
  other : ∀ j, j ≠ i → s'.txns j = s.txns j

namespace Changes

variable {t : Txn M.Node ι}

lemma of_update [DecidableEq ι] (h : s'.txns = update s.txns i t) : Changes s s' i t := by
  constructor
  · rw [h, update_self]
  · intro j hj
    rw [h, update_of_ne hj]

/-- What `i` keeps, everybody keeps. -/
lemma same {α : Type} (h : Changes s s' i t) (f : Txn M.Node ι → α) (hf : f t = f (s.txns i))
    (j : ι) : f (s'.txns j) = f (s.txns j) := by
  by_cases hj : j = i
  · rw [hj, h.self, hf]
  · rw [h.other j hj]

/-- What holds for `t`, and for the others as they were, holds for everybody. -/
lemma all {p : ι → Txn M.Node ι → Prop} (h : Changes s s' i t) (hself : p i t)
    (hother : ∀ j, j ≠ i → p j (s.txns j)) (j : ι) : p j (s'.txns j) := by
  by_cases hj : j = i
  · rw [hj, h.self]
    exact hself
  · rw [h.other j hj]
    exact hother j hj

lemma mem_installed {j : ι} {k k' : Key} (h : Changes s s' i t)
    (hinst : t.installed = k :: (s.txns i).installed) (hk : k' ∈ (s'.txns j).installed) :
    k' ∈ (s.txns j).installed ∨ j = i ∧ k' = k := by
  refine h.all (p := fun j t => k' ∈ t.installed → k' ∈ (s.txns j).installed ∨ j = i ∧ k' = k)
    (fun hk => ?_) (fun _ _ => .inl) j hk
  rw [hinst] at hk
  exact (mem_cons.mp hk).symm.imp_right fun heq => ⟨rfl, heq⟩

end Changes

section

variable [DecidableEq ι] {thread : ι → ℕ} {epoch : ℕ} {σ' : Store M ι} {t' : Txn M.Node ι}

section

variable (h : Ok thread s)

include h

/-- The frame of a step: a running transaction changes itself and memory. -/
lemma Ok.put (hrun : (s.txns i).pc.running) (hm : MemOk σ') (hd : Drifts s.store σ')
    (he : ∀ j, j ≠ i → (s.txns j).pc.running → Evolves s.store σ' (thread j) j)
    (hcore : Core σ' (thread i) t') (hwork : Work σ' (thread i) i t') (hborn : t'.pc.born) :
    Ok thread (s.put i σ' t') := by
  have hc : Changes s (s.put i σ' t') i t' := .of_update rfl
  have hwas : ∀ j, ((s.put i σ' t').txns j).pc.running → (s.txns j).pc.running :=
    hc.all (p := fun j t => t.pc.running → (s.txns j).pc.running) (fun _ => hrun) fun _ _ => id
  refine ⟨hm, ?_, ?_, fun j k hj hk => h.apart j k (hwas j hj) (hwas k hk), ?_⟩
  · exact hc.all (p := fun j t => Core σ' (thread j) t) hcore fun j _ => (h.core j).drift hd
  · exact hc.all (p := fun j t => t.pc.running → Work σ' (thread j) j t) (fun _ => hwork)
      fun j hji hj => (h.work j hj).evolve h.mem (h.core j) (he j hji hj)
  · refine hc.all (p := fun _ t => t.pc = .unborn → t = {}) (fun hpc => ?_) fun j _ => h.unborn j
    rw [hpc] at hborn
    cases hborn

/-- A step that leaves memory alone. -/
lemma Ok.setTxn (t' : Txn M.Node ι) (hrun : (s.txns i).pc.running)
    (hcore : Core s.store (thread i) t') (hwork : Work s.store (thread i) i t')
    (hborn : t'.pc.born) : Ok thread (s.setTxn i t') :=
  h.put hrun h.mem (Drifts.refl _)
    (fun _ _ _ => ⟨Drifts.refl _, fun _ _ => rfl, fun _ _ _ hf => ⟨rfl, hf⟩,
      fun _ _ _ hm hf => ⟨hm, hf⟩⟩) hcore hwork hborn

omit [DecidableEq ι] in
/-- Running transactions have different threads. -/
lemma Ok.thread_ne {j : ι} (hi : (s.txns i).pc.running) (hj : (s.txns j).pc.running)
    (hne : j ≠ i) : thread j ≠ thread i :=
  fun heq => hne (h.apart j i hj hi heq)

lemma Ok.touch (hrun : (s.txns i).pc.running) (htouch : Touch s.store (thread i) i σ')
    (hcore : Core σ' (thread i) t') (hwork : Work σ' (thread i) i t') (hborn : t'.pc.born) :
    Ok thread (s.put i σ' t') :=
  h.put hrun (htouch.memOk h.mem) htouch.drifts
    (fun _ hne hj => htouch.evolves h.mem hne (h.thread_ne hrun hj hne)) hcore hwork hborn

lemma Ok.install (hrun : (s.txns i).pc.running) {v : Option Bytes}
    (hinst : Install s.store (thread i) i k v σ') (hcore : Core σ' (thread i) t')
    (hwork : Work σ' (thread i) i t') (hborn : t'.pc.born) : Ok thread (s.put i σ' t') :=
  h.put hrun (hinst.memOk h.mem) hinst.drifts
    (fun _ hne hj => hinst.evolves h.mem hne (h.thread_ne hrun hj hne)) hcore hwork hborn

/-- A disciplined step keeps the invariant. -/
lemma Ok.moves (hmoves : Moves thread epoch s i s') : Ok thread s' := by
  cases hmoves with
  | start hpc hfree =>
    -- a transaction starts from nothing
    have hblank := h.unborn i hpc
    have hc : Changes s (s.goto i .idle) i { ({} : Txn M.Node ι) with pc := .idle } := by
      rw [← hblank]
      exact .of_update rfl
    have hquiet : ({ ({} : Txn M.Node ι) with pc := .idle } : Txn M.Node ι).Quiet :=
      ⟨rfl, rfl, rfl⟩
    have hfree' : ∀ j, j ≠ i → ((s.goto i .idle).txns j).pc.running → thread j ≠ thread i := by
      intro j hj hrun
      rw [hc.other j hj] at hrun
      exact hfree j hrun
    refine ⟨h.mem, ?_, ?_, fun j k hj hk heq => ?_, ?_⟩
    · exact hc.all (p := fun j t => Core s.store (thread j) t) ((Core.init _ _).goto rfl)
        fun j _ => h.core j
    · exact hc.all (p := fun j t => t.pc.running → Work s.store (thread j) j t)
        (fun _ => Exec.work hquiet ⟨forall_mem_nil _, forall_mem_nil _⟩ hquiet)
        fun j _ => h.work j
    · by_cases hji : j = i
      · by_cases hki : k = i
        · rw [hji, hki]
        · exact absurd (heq.symm.trans (by rw [hji])) (hfree' k hki hk)
      · by_cases hki : k = i
        · exact absurd (heq.trans (by rw [hki])) (hfree' j hji hj)
        · rw [hc.other j hji] at hj
          rw [hc.other k hki] at hk
          exact h.apart j k hj hk heq
    · exact hc.all (p := fun _ t => t.pc = .unborn → t = {}) nofun
        fun j _ => h.unborn j
  | here hrun hlocal =>
    obtain ⟨hcore, hwork⟩ := hlocal.ok h.mem (h.core i) (h.work i hrun)
    exact h.setTxn _ hrun hcore hwork hlocal.born
  | effect hrun heffect =>
    obtain ⟨hcore, hwork⟩ := heffect.ok h.mem (h.core i) (h.work i hrun)
    exact h.touch hrun (heffect.touch (h.core i) (h.work i hrun)) hcore hwork heffect.born
  | @locked j hpc hend =>
    have hrun : (s.txns i).pc.running := by rw [hpc]; rfl
    have hw := h.work i hrun
    have hpcok := hw.pc
    have hinst := (h.core i).installs
    rw [hpc] at hpcok hinst
    have hok := h.setTxn { s.txns i with pc := .check 0 } hrun ((h.core i).goto hinst)
      (hw.goto (by rw [hpc]; exact fun _ hx => hx) (fun _ => .inr hpcok.1)
        (fun _ => by rw [hpc]; rfl) ⟨by rw [← take_eq_self hend]; exact hpcok.2,
          forall_mem_nil _⟩) rfl
    exact ⟨hok.mem, hok.core, hok.work, hok.apart, hok.unborn⟩
  | @installed j it e w σ' hpc hit href hwd hinstall =>
    have hrun : (s.txns i).pc.running := by rw [hpc]; rfl
    have hinst := (h.work i hrun).install h.mem (h.core i) hpc hit href hwd hinstall
    obtain ⟨hcore, hwork⟩ := (h.work i hrun).of_install h.mem (h.core i) hpc hit
      ⟨href, by rw [hwd]; rfl⟩ hinst
    have hok := h.install hrun hinst hcore hwork rfl
    exact ⟨hok.mem, hok.core, hok.work, hok.apart, hok.unborn⟩
  | @drew r hpc hclock =>
    have hrun : (s.txns i).pc.running := by rw [hpc]; rfl
    have hinst := (h.core i).installs
    rw [hpc] at hinst
    have hgoto : Work s.store (thread i) i
        { s.txns i with pc := .unlock true (s.txns i).items.length } :=
      (h.work i hrun).goto (by rw [hpc]; exact fun _ hx => hx) nofun
        nofun trivial
    have hok := h.setTxn { s.txns i with
      pc := .unlock true (s.txns i).items.length, cid := some (commitId r epoch) } hrun
      ⟨(h.core i).items, (h.core i).linked, (h.core i).calls, hinst⟩
      ⟨hgoto.fresh, hgoto.live, hgoto.nodup, hgoto.locked, hgoto.grown, hgoto.passed, hgoto.known,
        trivial⟩ rfl
    exact ⟨hok.mem, hok.core, hok.work, hok.apart, hok.unborn⟩

end

end

end Rolis.Sto.Occ
