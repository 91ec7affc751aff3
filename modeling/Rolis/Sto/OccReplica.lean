import Rolis.Sto.Equivalence
import Rolis.Sto.OccIds

/-!
# Transactions seen from outside

A client that is answered before it starts another transaction finds the two in this order in the
serial order, because a transaction takes its place after it has started and before it is answered.

A replica does not see the serial order. It sees commit ids, and of each key the write with the
largest one is what the tables of the leader hold: whoever installs a key later has its place later
(`InstallsFollow`) and draws a larger id. So a follower that replays the log of all workers, in any
order, ends with what the leader has.
-/

namespace Rolis.Sto.Occ

open Function List Serial State Option

variable {M : Masstree} {ι : Type} [DecidableEq ι] {σ : Store M ι} {epoch : ℕ} {i j : ι} {k : Key}
  {thread : ι → ℕ} {db : Contents} {s s' : State M ι}

/-! ## Clients -/

omit [DecidableEq ι] in
lemma Pc.early_of_decided {pc : Pc ι} (h : pc.decided) : pc.early = false := by
  cases pc with
  | install | draw | unlock | committed => rfl
  | _ => cases h

/-- A transaction that has passed its checks will commit, whatever happens. -/
lemma Moves.decided (hok : Ok thread s) (hm : Moves thread epoch s i s')
    (hj : (s.txns j).pc.decided) : (s'.txns j).pc.decided := by
  have hchanges : ∀ {t : Txn M.Node ι}, Changes s s' i t →
      ((s.txns i).pc.decided → t.pc.decided) → (s'.txns j).pc.decided := fun hc ht =>
    hc.all (p := fun j t => (s.txns j).pc.decided → t.pc.decided) ht (fun _ _ => id) j hj
  cases hm with
  | start hpc | locked hpc =>
    refine hchanges (.of_update (by rfl)) fun hd => ?_
    rw [hpc] at hd
    cases hd
  | here hrun hlocal =>
    refine hchanges (.of_update rfl) fun hd => ?_
    rcases hlocal.calm hok.mem (hok.work i hrun) with hcalm | ⟨n, it, hpc, -⟩ | ⟨n, hpc, -⟩
    · rwa [hcalm.decided (Pc.early_of_decided hd)]
    all_goals
      rw [hpc] at hd
      cases hd
  | effect hrun heffect =>
    refine hchanges (.of_update rfl) fun hd => ?_
    rwa [heffect.calm.1.decided (Pc.early_of_decided hd)]
  | installed | drew => exact hchanges (.of_update (by rfl)) fun _ => by rfl

lemma Moves.events (hm : Moves thread epoch s i s') : ∃ l, s'.events = s.events ++ l := by
  cases hm with
  | start | here | effect => exact ⟨[], (append_nil _).symm⟩
  | locked | installed | drew => exact ⟨[_], rfl⟩

omit [DecidableEq ι] in
lemma State.order_append {l : List (Event ι)} (h : s'.events = s.events ++ l) :
    ∃ l', s'.order = s.order ++ l' := by
  rw [order, h, filterMap_append]
  exact ⟨_, rfl⟩

/-- The state `s` comes after `s₁`: places are taken behind those of `s₁`, and nobody who will
commit changes his mind. -/
structure Later (s₁ s : State M ι) : Prop where
  order : ∃ l, s.order = s₁.order ++ l
  decided : ∀ i, (s₁.txns i).pc.decided → (s.txns i).pc.decided

lemma Later.moves {s₁ : State M ι} (h : Later s₁ s) (hok : Ok thread s)
    (hm : Moves thread epoch s i s') : Later s₁ s' := by
  obtain ⟨l, hl⟩ := h.order
  obtain ⟨evs, hevs⟩ := hm.events
  obtain ⟨l', hl'⟩ := order_append hevs
  exact ⟨⟨l ++ l', by rw [hl', hl, append_assoc]⟩, fun i hi => hm.decided hok (h.decided i hi)⟩

/-- Of two transactions that have installed a key, the one with its place in front did so first. -/
structure InstallsFollow (s : State M ι) : Prop where
  event : ∀ i, ∀ k ∈ (s.txns i).installed, .installed i k ∈ s.events
  order : ∀ i j k, k ∈ (s.txns i).installed → k ∈ (s.txns j).installed →
    i ∈ Serial.before s.order j → [.installed i k, .installed j k].Sublist s.events

/-- A transaction that has installed something has its place in the order. -/
lemma Ordered.mem_of_installed (hok : Ok thread s) (hord : Ordered db s)
    (hk : k ∈ (s.txns j).installed) : j ∈ s.order :=
  hord.mem j (Pc.placed_of_decided ((hok.core j).decided_of_installed hk))

section

variable (h : InstallsFollow s) (hok : Ok thread s) (hord : Ordered db s)

include h hok hord

/-- A step in which nobody installs anything. -/
lemma InstallsFollow.quiet (hinst : ∀ j, (s'.txns j).installed = (s.txns j).installed)
    (hev : ∃ l, s'.events = s.events ++ l) : InstallsFollow s' := by
  obtain ⟨l, hl⟩ := hev
  obtain ⟨l', hl'⟩ := order_append hl
  refine ⟨fun i k hk => ?_, fun i j k hi hj hij => ?_⟩
  · rw [hinst] at hk
    rw [hl]
    exact mem_append_left _ (h.event i k hk)
  · rw [hinst] at hi hj
    rw [hl', before_append_of_mem (hord.mem_of_installed hok hj)] at hij
    rw [hl]
    exact (h.order i j k hi hj hij).trans (sublist_append_left _ _)

/-- A write takes effect. Nobody behind has installed the key. -/
lemma InstallsFollow.install {it : Item M.Node} {t : Txn M.Node ι} (hp : Pending s i it)
    (hd : (s.txns i).pc.decided) (hc : Changes s s' i t)
    (hinst : t.installed = it.key :: (s.txns i).installed)
    (hev : s'.events = s.events ++ [.installed i it.key]) : InstallsFollow s' := by
  have horder : s'.order = s.order := by
    rw [State.order, hev, filterMap_append]
    exact append_nil _
  have hi : i ∈ s.order := hord.mem i (Pc.placed_of_decided hd)
  have hlast : NoLater s i it.key := hord.last i it hp (hp.not_stale hok hd)
  refine ⟨fun j k hk => ?_, fun j j' k hj hj' hij => ?_⟩
  · rw [hev]
    rcases hc.mem_installed hinst hk with hk | ⟨rfl, rfl⟩
    · exact mem_append_left _ (h.event j k hk)
    · exact mem_append_right _ (mem_singleton_self _)
  · rw [horder] at hij
    rw [hev]
    rcases hc.mem_installed hinst hj' with hj' | ⟨rfl, rfl⟩
    · rcases hc.mem_installed hinst hj with hj | ⟨rfl, rfl⟩
      · exact (h.order j j' k hj hj' hij).trans (sublist_append_left _ _)
      · have hmem := hord.mem_of_installed hok hj'
        exact absurd hj' (hlast j' ((mem_behind_iff hord.nodup hi hmem).mpr hij))
    · rcases hc.mem_installed hinst hj with hj | ⟨rfl, -⟩
      · exact (singleton_sublist.mpr (h.event j _ hj)).append (Sublist.refl [_])
      · exact absurd hij (not_mem_before hi)

lemma InstallsFollow.moves (hm : Moves thread epoch s i s') : InstallsFollow s' := by
  have hev := hm.events
  cases hm with
  | start | locked => exact h.quiet hok hord (Still.goto s i _).installed hev
  | here _ hlocal =>
    obtain ⟨hinst, hcid⟩ := hlocal.installed_eq
    exact h.quiet hok hord (Still.put hinst hcid s.store).installed hev
  | effect _ heffect =>
    obtain ⟨hinst, hcid⟩ := heffect.installed_eq
    exact h.quiet hok hord (Still.put hinst hcid _).installed hev
  | @installed n it e w σ hpc hit href hw hinstall =>
    have hsome : it.wdata.isSome := by rw [hw]; rfl
    exact h.install hok hord ⟨by rw [hpc]; rfl, mem_of_getElem? hit, hsome,
      (hok.core i).not_installed hpc hit hsome⟩ (by rw [hpc]; rfl) (.of_update rfl) rfl rfl
  | drew =>
    exact h.quiet hok hord ((Changes.of_update (by rfl)).same Txn.installed (by rfl)) hev

end

/-- Each key has what it had, or what the committed write with the largest commit id left. -/
def LatestById (db : Contents) (s : State M ι) : Prop :=
  ∀ k, (∀ i, (s.txns i).pc = .committed → writeOf (s.txns i).calls k = none) ∧
      s.store.committed k = db k ∨
    ∃ i c, (s.txns i).pc = .committed ∧ (s.txns i).cid = some c ∧
      writeOf (s.txns i).calls k = some (s.store.committed k) ∧
      ∀ j, j ≠ i → (s.txns j).pc = .committed → writeOf (s.txns j).calls k ≠ none →
        ∃ c' ∈ (s.txns j).cid, c' < c

/-- The steps under which ids order the writes of each key, and scans miss nothing. -/
def ReplicaPaced (epoch : ℕ) (s : State M ι) (a : Act ι) : Prop :=
  WritesPaced epoch s a ∧ InsertsSeen s a

instance [Fintype ι] (epoch : ℕ) (s : State M ι) (a : Act ι) :
    Decidable (ReplicaPaced epoch s a) := by
  unfold ReplicaPaced
  infer_instance

/-- What holds in every state of a run whose ids order the writes. -/
structure Replicable (thread : ι → ℕ) (epoch : ℕ) (db : Contents) (s : State M ι) : Prop where
  explained : Explained thread db s
  numbered : Numbered thread epoch s
  follow : InstallsFollow s

lemma Replicable.step [Fintype ι] {a : Act ι} (h : Replicable thread epoch db s)
    (ha : WritesPaced epoch s a) (hseen : InsertsSeen s a)
    (hstep : step thread epoch s a = some s') : Replicable thread epoch db s' :=
  ⟨h.explained.step ha.disciplined hseen hstep, h.numbered.step ha hstep,
    h.follow.moves h.explained.ok h.explained.ordered (moves_of_step ha.disciplined hstep)⟩

lemma Replicable.of_run [Fintype ι] (hσ : σ.WellFormed)
    (h : Lts.Run (leader thread epoch σ) (ReplicaPaced epoch) (leader thread epoch σ).init s) :
    Replicable thread epoch σ.committed s :=
  h.invariant _ (fun _ _ _ ht ha hstep => ht.step ha.1 ha.2 hstep)
    ⟨Explained.init _ hσ, Numbered.init _ _ hσ.toMemOk, ⟨nofun, nofun⟩⟩

section

variable (h : Replicable thread epoch db s) (hs : s.Finished)

include h hs

/-- A transaction that has committed has installed what it writes. -/
lemma Replicable.installed (hi : (s.txns i).pc = .committed)
    (hw : writeOf (s.txns i).calls k ≠ none) : k ∈ (s.txns i).installed := by
  have heq : s.decidedWrites i k = s.installedWrites i k :=
    h.explained.ok.decided_eq_installed i k fun it hp _ => by
      have hset := hp.settling
      rw [hi] at hset
      cases hset
  by_contra hk
  rw [decidedWrites, if_pos ((hs.committed_iff i).mpr hi), installedWrites, if_neg hk] at heq
  exact hw heq

lemma Replicable.latestById : LatestById db s := by
  intro k
  have hval : s.store.committed k = after s.decidedWrites db s.order k := by
    rw [← h.explained.final hs, h.explained.flatMap.2]
  have hwrites : ∀ i, (s.txns i).pc = .committed →
      i ∈ s.order ∧ s.decidedWrites i k = writeOf (s.txns i).calls k := fun i hi => by
    have hd := (hs.committed_iff i).mpr hi
    exact ⟨h.explained.ordered.mem i (Pc.placed_of_decided hd), if_pos hd⟩
  rcases after_cases h.explained.ordered.nodup k with ⟨hnone, hdb⟩ | ⟨i, hi, hw, hlast⟩
  · refine .inl ⟨fun i hi => ?_, hval.trans hdb⟩
    obtain ⟨hmem, hdw⟩ := hwrites i hi
    rw [← hdw, hnone i hmem]
  · have hd : (s.txns i).pc.decided := by
      by_contra hd
      rw [decidedWrites, if_neg hd] at hw
      cases hw
    have hpc := (hs.committed_iff i).mp hd
    rw [← hval, (hwrites i hpc).2] at hw
    have hinst := h.installed hs hpc (by rw [hw]; exact some_ne_none _)
    -- nobody else is left without an id, and all who installed the key before have smaller ones
    have hcid : (s.txns i).cid.isSome := by
      by_contra hno
      rw [not_isSome_iff_eq_none] at hno
      have hun := (h.numbered.idsOk i).unnumbered (h.explained.ok.core i) hinst hno
      rw [hpc] at hun
      cases hun
    obtain ⟨c, hc⟩ := isSome_iff_exists.mp hcid
    refine .inr ⟨i, c, hpc, hc, hw, fun j hne hj hwj => ?_⟩
    obtain ⟨hmem, hdw⟩ := hwrites j hj
    have hij := hlast j hmem hne (by rwa [hdw])
    obtain ⟨c', hc', hlt⟩ := h.numbered.ids.order j i k hne
      (h.follow.order j i k (h.installed hs hj hwj) hinst hij)
    exact ⟨c', hc', hlt c hc⟩

end

/-- Commit ids alone say what the tables hold. A disciplined run in which no id wraps around and
keys come back only when those who have deleted them have their ids ends with the initial contents,
overwritten under each key by the committed write with the largest commit id. -/
theorem latestById_of_run [Fintype ι] (thread : ι → Fin 128) (epoch : ℕ) (hσ : σ.WellFormed)
    (h : Lts.Run (leader (fun i => thread i) epoch σ) (ReplicaPaced epoch)
      (leader (fun i => thread i) epoch σ).init s) (hs : s.Finished) :
    LatestById σ.committed s :=
  (Replicable.of_run hσ h).latestById hs

/-- The insert that follows the delete has the larger commit id. -/
theorem latestById_deleteThenInsert :
    ∃ s : State oneLeaf Bool, s.Finished ∧ LatestById oneRow.committed s ∧
      s.store.committed (1, [97]) = some [2] := by
  obtain ⟨s, hrun, hs, hval⟩ := Lts.exists_run_of_execGuarded
    (leader (fun i => twoThreads i) 0 oneRow) (ReplicaPaced 0) { store := oneRow }
    (deleteThenInsert ++ replicate 2 (.go true))
    (fun s => (∀ i, (s.txns i).pc.running = false) ∧ s.store.committed (1, [97]) = some [2])
    (by decide +kernel)
  exact ⟨s, hs, latestById_of_run twoThreads 0 oneRow_wellFormed hrun hs, hval⟩

/-! ## Followers -/

/-- The log of a run: the writes of the transactions that have committed, each one once. -/
structure Logs (s : State M ι) (us : List Update) : Prop where
  sound : ∀ u ∈ us, ∃ i, (s.txns i).pc = .committed ∧ (s.txns i).cid = some u.cid ∧
    writeOf (s.txns i).calls (u.entry.tableId, u.entry.key) = some u.effect
  complete : ∀ i k v, (s.txns i).pc = .committed → writeOf (s.txns i).calls k = some v →
    ∃ u ∈ us, u.At k.1 k.2 ∧ (s.txns i).cid = some u.cid ∧ u.effect = v
  once : DistinctCids us

/-- What a follower has where the leader has `v`: nothing if nothing was ever there, and otherwise
the value with a commit id behind it, or after a delete the commit id alone. -/
def Mirrors (v f : Option Bytes) : Prop :=
  v = none ∧ f = none ∨ ∃ c, f = some (v.getD [] ++ Bytes.encode 8 c)

lemma Update.data_eq (u : Update) : u.data = u.effect.getD [] ++ Bytes.encode 8 u.cid := by
  rw [Update.data, Update.effect]
  split <;> rfl

/-- The write that the ids name as the latest one is the latest one in the log. -/
lemma Logs.isLatest {us : List Update} (hlogs : Logs s us) {u : Update} (hu : u ∈ us)
    (hcid : (s.txns i).cid = some u.cid)
    (hmax : ∀ j, j ≠ i → (s.txns j).pc = .committed →
      writeOf (s.txns j).calls (u.entry.tableId, u.entry.key) ≠ none →
      ∃ c ∈ (s.txns j).cid, c < u.cid) : IsLatest us u := by
  refine ⟨hu, fun v hv hsame => ?_⟩
  obtain ⟨j, hj, hc, hw⟩ := hlogs.sound v hv
  rw [hsame.1, hsame.2] at hw
  by_cases hji : j = i
  · subst hji
    exact (some.inj (hc.symm.trans hcid)).le
  · obtain ⟨c, hc', hlt⟩ := hmax j hji hj (by rw [hw]; exact some_ne_none _)
    cases hc.symm.trans hc'
    exact hlt.le

/-- A leader starts with empty tables, and its transactions run side by side until all of them are
over. A follower replays batches that hold what they have logged, in any order, and the latest write
of each key finds room in its turn. Then the replay ends, and a read of any key finds on the
follower what it finds on the leader, with a commit id behind it; where the leader has deleted the
key it finds the commit id of the delete. -/
theorem mirrors_of_replayed [Fintype ι] (thread : ι → Fin 128) (epoch tries : ℕ)
    (hσ : σ.WellFormed) (hempty : ∀ k, σ.committed k = none)
    (h : Lts.Run (leader (fun i => thread i) epoch σ) (ReplicaPaced epoch)
      (leader (fun i => thread i) epoch σ).init s) (hs : s.Finished) (batches : List Bytes)
    (hread : Readable batches) (hlogs : Logs s (updates batches))
    (hfits : FitsInTurn (tries + 1) (updates batches)) :
    ∃ fm, replayBatches (tries + 1) {} batches = some fm ∧
      ∀ k, ∃ f, fm.transGet k.1 k.2 = some f ∧ Mirrors (s.store.committed k) f := by
  obtain ⟨fm, hfm, hquiet, -⟩ := exists_replayUpdates Mem.quiet_empty tries (updates batches)
  have hkeeps : KeepsLatest (updates batches) fm :=
    (keepsLatest_iff (updates_cid_lt batches) hlogs.once hfm).mpr hfits
  refine ⟨fm, by rw [replayBatches_eq _ _ hread]; exact hfm, fun (table, key) =>
    ⟨_, transGet_eq hquiet, ?_⟩⟩
  rw [← stored_eq_committed hquiet]
  rcases (Replicable.of_run hσ h).latestById hs (table, key) with
    ⟨hnone, hv⟩ | ⟨i, c, hi, hc, hw, hmax⟩
  · refine .inl ⟨hv.trans (hempty _), hkeeps.absent table key fun u hu hat => ?_⟩
    obtain ⟨i, hi, -, hw⟩ := hlogs.sound u hu
    rw [hat.1, hat.2, hnone i hi] at hw
    cases hw
  · obtain ⟨u, hu, ⟨rfl, rfl⟩, hcid, heff⟩ := hlogs.complete i (table, key) _ hi hw
    cases hc.symm.trans hcid
    refine .inr ⟨u.cid, ?_⟩
    rw [hkeeps.latest u (hlogs.isLatest hu hc hmax), Update.data_eq, heff]

/-- A transaction inserts a row, and a follower replays the batch that has it. -/
theorem mirrors_insert :
    ∃ (s : State oneLeaf Bool) (fm : Mem), s.store.committed (10001, [1]) = some [7] ∧
      replayBatches 1 {} [putBatch 1 0 [7]] = some fm ∧
      ∀ k, ∃ f, fm.transGet k.1 k.2 = some f ∧ Mirrors (s.store.committed k) f := by
  obtain ⟨s, hrun, hs, hval, hcid, hdec, hcalls, hunborn⟩ := Lts.exists_run_of_execGuarded
    (leader (fun i => twoThreads i) 0 emptyStore) (ReplicaPaced 0) { store := emptyStore }
    ([.start false, .call false (.insert (10001, [1]) [7]), .go false, .commit false] ++
      replicate 6 (.go false) ++ [.draw false 1, .go false, .go false])
    (fun s => (∀ i, (s.txns i).pc.running = false) ∧ s.store.committed (10001, [1]) = some [7] ∧
      (s.txns false).cid = some 1000 ∧ (s.txns false).pc.decided ∧
      (s.txns false).calls = [(.insert (10001, [1]) [7], .found false)] ∧ (s.txns true).calls = [])
    (by decide +kernel)
  have hfin : s.Finished := hs
  have hus : updates [putBatch 1 0 [7]] = [⟨1000, [1], [7], 10001, false⟩] := by decide +kernel
  obtain ⟨fm, hfm, hall⟩ := mirrors_of_replayed twoThreads 0 0 emptyStore_wellFormed
    (fun _ => rfl) hrun hs [putBatch 1 0 [7]] (by decide +kernel) (by
      rw [hus]
      refine ⟨fun u hu => ⟨false, ?_⟩, fun i k v _ hw => ?_, by decide⟩
      · rw [mem_singleton.mp hu, hcalls]
        exact ⟨(hfin.committed_iff false).mp hdec, hcid, by decide⟩
      · cases i with
        | true =>
          rw [hunborn] at hw
          cases hw
        | false =>
          simp only [hcalls, writeOf, foldl_cons, foldl_nil, effect, or_none, ite_eq_iff,
            reduceCtorEq, and_false, or_false, some.injEq] at hw
          obtain ⟨rfl, rfl⟩ := hw
          exact ⟨_, mem_singleton_self _, ⟨rfl, rfl⟩, hcid, rfl⟩) (by
      rw [hus]
      intro pre u post hsplit _ m e hm he
      cases pre with
      | nil =>
        cases hm
        cases he
      | cons x pre => simp at hsplit)
  exact ⟨s, fm, hval, hfm, hall⟩

end Rolis.Sto.Occ
