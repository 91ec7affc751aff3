import Rolis.Sto.OccLocal

/-!
# Steps that change memory

Every such step is one of the changes of `Touch` (`Effect.touch`) or, for an install, of `Install`
(`Work.install`), since the transaction holds what it needs for it; and it keeps the invariant of
the transaction that takes it.
-/

namespace Rolis.Sto.Occ

open Function List Option

variable {M : Masstree} {ι : Type} {σ : Store M ι} {here e : ℕ} {i : ι} {t : Txn M.Node ι} {k : Key}
  {v : Bytes} {it : Item M.Node}

/-! ## Memory changes under a transaction -/

section

variable {e' : ℕ} {x : Object ι} {items : List (Item M.Node)} {skip : Key → Bool}
  {calls : List (Call × Result)}

lemma Fresh.set (hlive : x.live = (σ.heap e).live) (hwriter : x.writer = (σ.heap e).writer)
    (hvalue : x.value = (σ.heap e).value) (h : Fresh σ i it e') : Fresh (σ.set e x) i it e' := by
  by_cases he : e' = e
  · subst he
    have hx : (σ.set e' x).heap e' = x := by rw [Store.heap_set, update_self]
    exact ⟨by rw [hx, hlive, h.new], by rw [hx, hwriter, h.writer], h.find,
      by rw [hx, hvalue, h.effect]⟩
  · have hx : (σ.set e x).heap e' = σ.heap e' := by rw [Store.heap_set, update_of_ne he]
    exact ⟨by rw [hx, h.new], by rw [hx, h.writer], h.find, by rw [hx, h.effect]⟩

/-- What an executing transaction knows survives its own changes of locks and marks. -/
lemma Exec.set (hd : Drifts σ (σ.set e x)) (hlive : x.live = (σ.heap e).live)
    (hwriter : x.writer = (σ.heap e).writer) (hvalue : x.value = (σ.heap e).value)
    (hst : ∀ r st, lead items r = some st → Stamped σ here r st) (h : Exec σ i items skip calls) :
    Exec (σ.set e x) i items skip calls where
  fresh it hit hins e' hw := (h.fresh it hit hins e' hw).set hlive hwriter hvalue
  known y hy k := (h.known y hy k).drift hd (Mine.set hlive hwriter) hst

/-- A new element under a key that the transaction has not inserted. -/
lemma Fresh.of_new {σ' : Store M ι} (hm : MemOk σ) (hheap : σ'.heap = update σ.heap σ.next x)
    (hfind : ∀ k', σ'.find k' = if k' = k then some σ.next else σ.find k')
    (hother : ∀ e, σ.find k = some e → (σ.heap e).live) (h : Fresh σ i it e) : Fresh σ' i it e := by
  have hk : it.key ≠ k := by
    rintro rfl
    have hl := hother e h.find
    rw [h.new] at hl
    cases hl
  have he : σ'.heap e = σ.heap e := by rw [hheap, update_of_ne (hm.linked h.find).1.ne]
  exact ⟨by rw [he, h.new], by rw [he, h.writer], by rw [hfind, if_neg hk, h.find],
    by rw [he, h.effect]⟩

/-- The lock of an element. -/
lemma Store.lock_set (σ : Store M ι) (e : ℕ) (l : Option ℕ) :
    ((σ.set e ((σ.heap e).setLock l)).heap e).word.lock = l := by
  rw [Store.heap_set, update_self]
  rfl

/-- Items in front of an item with a write have other keys. -/
lemma Distinct.take {j : ℕ} (h : Distinct items) (hit : items[j]? = some it)
    (hw : it.wdata.isSome) : ∀ y ∈ items.take j, y.wdata.isSome → y.key ≠ it.key := by
  intro y hy hyw
  rw [Distinct, ← take_append_drop j items, drop_eq_cons hit] at h
  exact (pairwise_append.mp h).2.2 y hy it (by simp) hyw hw

/-- So have the items behind it. -/
lemma Distinct.drop {j : ℕ} (h : Distinct items) (hit : items[j]? = some it)
    (hw : it.wdata.isSome) : ∀ y ∈ items.drop (j + 1), y.wdata.isSome → y.key ≠ it.key := by
  intro y hy hyw
  rw [Distinct, ← take_append_drop j items, drop_eq_cons hit] at h
  exact ((pairwise_cons.mp (pairwise_append.mp h).2.1).1 y hy hw hyw).symm

end

/-! ## Locks, marks and replacements -/

section

variable {σ' : Store M ι} {t' : Txn M.Node ι} {j : ℕ}

/-- The elements that a transaction writes are live or its own. -/
lemma Work.live_or_own (hc : Core σ here t) (hw : Work σ here i t)
    (hleft : t.pc.left t.items = t.items) (hit : it ∈ t.items) (hwrite : it.writesElem e) :
    (σ.heap e).live ∨ (σ.heap e).writer = some i := by
  by_cases hins : it.hasInsert
  · by_cases hkey : it.key ∈ t.installed
    · exact .inl (hw.live it hit hins hkey e hwrite)
    · exact .inr (hw.fresh it (by rwa [hleft]) hins hkey e hwrite).writer
  · exact .inl (hc.items.update it hit (by simpa using hins) e hwrite).1

/-- The key of an insert that is cleaned up. -/
lemma Core.cleanup_key (hc : Core σ here t) (hit : it ∈ t.items) (hins : it.hasInsert) {w : Bytes}
    (hw : it.wdata = some w) : (it.owner, w) = it.key := by
  obtain ⟨hwrites, -⟩ := hc.items.write it hit (by rw [hw]; rfl)
  cases hwrites with
  | insert _ _ hw' _ =>
    rw [hw] at hw'
    cases hw'
    rfl
  | delete hi | update hi => rw [hins] at hi; cases hi

/-- What changes memory before an install observes no element. -/
lemma Effect.lead_elem (h : Effect σ here i t σ' t') :
    lead t'.items (.elem e) = lead t.items (.elem e) := by
  cases h with
  | insert => exact lead_insertNew _ _ _ _ _ _
  | growLink =>
    refine (lead_append _ _ _).trans ?_
    rw [lead_singleton]
    simp [copyItem]
  | _ => rfl

/-- The change of memory that a step makes. -/
lemma Effect.touch (hc : Core σ here t) (hw : Work σ here i t) (h : Effect σ here i t σ' t') :
    Touch σ here i σ' := by
  cases h with
  | insert hpc hfind => exact .insert hfind
  | growLock hpc hlock =>
    obtain ⟨-, hg⟩ := hw.pcAt hpc
    exact .lock hg.lt (.inl hg.live) hlock
  | growBack hpc hinvalid =>
    obtain ⟨-, hg, hheld⟩ := hw.pcAt hpc
    exact .unlock hg.lt (.inl hg.live) hheld
  | growMark hpc hvalid =>
    obtain ⟨-, hg, hheld⟩ := hw.pcAt hpc
    exact .mark hg.lt hvalid hheld
  | growUnlock hpc =>
    obtain ⟨-, hg, hheld, -⟩ := hw.pcAt hpc
    exact .unlock hg.lt (.inl hg.live) hheld
  | growLink hpc hfind =>
    obtain ⟨-, hg, -, hmov, hkey, hlive, hvalue, -⟩ := hw.pcAt hpc
    exact .relink hg.live hmov.invalid hmov.mover hmov.find hkey hlive hvalue
  | lockItem hpc hit hwrite hlock =>
    have hmem := mem_of_getElem? hit
    exact .lock (hc.items.ref _ hmem _ hwrite.1).1
      (hw.live_or_own hc (by rw [hpc]; rfl) hmem hwrite) hlock
  | unlockItem hpc hit hwrite hlocked hlock =>
    have hmem := mem_of_getElem? hit
    exact .unlock (hc.items.ref _ hmem _ hwrite.1).1
      (hw.live_or_own hc (by rw [hpc]; rfl) hmem hwrite) hlock
  | @cleanup j it w hpc hit hinsert hwd hfind =>
    have hmem := mem_of_getElem? hit
    have hsome : it.wdata.isSome := by rw [hwd]; rfl
    obtain ⟨-, e, href, -⟩ := hc.items.write it hmem hsome
    have hinst := hc.installs
    rw [hpc] at hinst
    have hnil : t.installed = [] := hinst
    have hleft : it ∈ t.pc.left t.items := by
      rw [hpc]
      simp [Pc.left, take_add_one, hit]
    have hfresh := hw.fresh it hleft hinsert (by rw [hnil]; exact not_mem_nil) e ⟨href, hsome⟩
    rw [hc.cleanup_key hmem hinsert hwd]
    exact .remove hfresh.find hfresh.new hfresh.writer

lemma Work.of_insertNew {set : Bool} (hm : MemOk σ) (hc : Core σ here t) (hw : Work σ here i t)
    (hpc : t.pc = .findInsert set k v) (hfind : σ.find k = none) :
    Running (σ.insert k (newObject i k v)) here i
      ((t.insertNew σ (σ.insert k (newObject i k v)) k v).answer (writeCall set k v)
        (.found false)) := by
  obtain ⟨hq, hexec⟩ := hw.exec hpc rfl
  obtain ⟨-, hk⟩ := hw.pcAt hpc
  obtain ⟨hitems, hlinked⟩ := hc.items.insertNew (i := i) (v := v) hc.linked hfind hk set
  have hform : Formed (writeCall set k v, .found false) := by cases set <;> trivial
  have hkey : (writeCall set k v).key? = some k := by cases set <;> rfl
  have hsay : Says (writeCall set k v, .found false) k none := by cases set <;> exact fun _ => rfl
  have hnew : (σ.insert k (newObject i k v)).heap σ.next = newObject i k v := by
    rw [Store.heap_insert, update_self]
  have hfind' : (σ.insert k (newObject i k v)).find k = some σ.next := by
    rw [Store.find_insert, if_pos rfl]
  have hmine : Mine (σ.insert k (newObject i k v)) i k :=
    ⟨σ.next, hfind', by rw [hnew]; rfl, by rw [hnew]; rfl⟩
  -- the inserts among the items are the old ones and the new one
  have hmem : ∀ y ∈ (t.insertNew σ (σ.insert k (newObject i k v)) k v).items, y.hasInsert →
      y ∈ t.items ∨ y = insertItem σ.next k v := by
    intro y hy hins
    rcases insertNew_items σ (σ.insert k (newObject i k v)) t k v with
      heq | ⟨a, x, b, hsplit, href, -, -, heq⟩
    · rw [heq] at hy
      simpa using hy
    · rw [heq, mem_append, mem_append, mem_append, mem_cons] at hy
      rcases hy with ((hy | rfl | hy) | hy) | hy
      · exact .inl (by rw [hsplit]; simp [hy])
      · have hx : x ∈ t.items := by rw [hsplit]; simp
        obtain ⟨-, e, he, -⟩ := hc.items.write x hx (by
          by_contra hnone
          rw [not_isSome_iff_eq_none] at hnone
          have hins : x.hasInsert := hins
          rw [(hc.items.read x hx hnone).2.1] at hins
          cases hins)
        rw [href] at he
        cases he
      · exact .inl (by rw [hsplit]; simp [hy])
      · obtain ⟨n, -, rfl⟩ := mem_map.mp hy
        cases hins
      · exact .inr (by simpa using hy)
  rw [insertNew_eq]
  refine ⟨⟨hitems, hlinked, hc.calls.concat_key hform hkey hk, hq.installed⟩, Exec.work hq ?_ hq⟩
  refine Exec.answer ⟨fun y hy hins e hwe => ?_, fun y hy k' => ?_⟩
    (known_of_key hform hkey (.inr (.inl ⟨hsay, .inl hmine⟩)))
  · rcases hmem y hy hins with hold | rfl
    · refine (hexec.fresh y hold hins e hwe).of_new hm rfl (Store.find_insert σ k _)
        fun e' he' => ?_
      rw [hfind] at he'
      cases he'
    · cases hwe.1
      exact ⟨by rw [hnew]; rfl, by rw [hnew]; rfl, hfind', by rw [hnew]; rfl⟩
  · exact (hexec.known y hy k').insertNew hm hc.items hfind

lemma Work.of_growLink {own : Bool} {copy : Object ι} (hm : MemOk σ) (hc : Core σ here t)
    (hw : Work σ here i t) (hpc : t.pc = .growLink own k v e copy) (hfind : (σ.find k).isSome) :
    Running (σ.replace k copy) here i ({ t with
        items := t.items ++ [copyItem σ.next k v]
        grown := if own then t.grown else e :: t.grown }.answer (.put k v) (.found true)) := by
  obtain ⟨hq, hexec⟩ := hw.exec hpc rfl
  obtain ⟨-, hg, rfl, hmov, hkey, hlive, hvalue, hvalid⟩ := hw.pcAt hpc
  have hd : Drifts σ (σ.replace k copy) := .replace hfind
  have hfind' := Store.find_replace hfind copy
  have hold : (σ.replace k copy).heap e = σ.heap e := by
    rw [Store.heap_replace, update_of_ne hg.lt.ne]
  have hnew : (σ.replace k copy).heap σ.next = copy := by rw [Store.heap_replace, update_self]
  have hlt : σ.next < (σ.replace k copy).next := Nat.lt_succ_self _
  have hother : ∀ e', σ.find k = some e' → (σ.heap e').live := by
    intro e' he'
    rw [hmov.find] at he'
    cases he'
    exact hg.live
  have hlead : (lead (t.items ++ [copyItem σ.next k v]) (.elem e)).isSome := by
    rw [Extends.append _ _ _ hg.lead]
    exact hg.lead
  have henter : (copyItem σ.next k v : Item M.Node).Enters (σ.replace k copy) here t.items
      (e :: t.grown) := by
    refine ⟨fun e' he' => ?_, fun h => (by cases h),
      fun _ => ⟨.update rfl rfl rfl, ⟨_, rfl, ?_⟩, ?_⟩, fun h => (by cases h),
      fun _ h => (by cases h), fun _ e' he' => ⟨?_, .inr (cons_ne_nil _ _)⟩⟩
    · cases he'
      exact ⟨hlt, by rw [hnew, hkey]; rfl⟩
    · rw [hnew, hkey]
      rfl
    · exact hc.linked.not_mem hg.new
    · cases he'.1
      rw [hnew, hlive]
  have hitems : ItemsOk (σ.replace k copy) here t.items (e :: t.grown) :=
    (hc.items.drift hd).grow (hg.lt.trans hlt) (by rw [hold, hg.live])
      (by rw [hold, hmov.invalid]) hg.lead
  refine ⟨⟨hitems.add (Adds.append _ _) henter, ?_, hc.calls.concat_key trivial rfl hg.new,
    hq.installed⟩, Exec.work hq ?_ hq⟩
  · exact hc.linked.answer_write (Adds.append _ _) rfl hg.new (fun _ => rfl) fun _ h => h.elim
  · have hbase : Exec (σ.replace k copy) i t.items t.skipped t.calls :=
      ⟨fun y hy hins e' hwe => (hexec.fresh y hy hins e' hwe).of_new hm rfl hfind' hother,
        fun y hy k' => (hexec.known y hy k').drift hd (Mine.of_new hm rfl hfind' hother)
          hc.items.stamp⟩
    refine (hbase.add (Adds.append _ _) (Extends.append _ _) rfl).answer
      (known_of_key trivial rfl (.inr (.inr ⟨_, .elem hlead (hg.lt.trans hlt) ?_ fun hval => ?_⟩)))
    · rw [hold, hg.key]
    · -- the element that was replaced is invalid for good
      obtain ⟨st, -, hholds⟩ := hval
      cases st with
      | version v => exact hholds.elim
      | word w =>
        obtain ⟨hver, hvalid'⟩ := hholds
        rw [hold] at hver
        rw [← hver, hmov.invalid] at hvalid'
        cases hvalid'

lemma Work.of_lockItem (hc : Core σ here t) (hw : Work σ here i t)
    (hpc : t.pc = .lock j) (hit : t.items[j]? = some it) (hwrite : it.writesElem e)
    (hlock : (σ.heap e).word.lock = none) :
    Work (σ.set e ((σ.heap e).setLock (some here))) here i
      { t with pc := .lock (j + 1), locked := e :: t.locked } := by
  have hpcok := hw.pcAt hpc
  have hd : Drifts σ (σ.set e ((σ.heap e).setLock (some here))) :=
    .set (.of_version rfl rfl rfl rfl)
  have hlt := (hc.items.ref it (mem_of_getElem? hit) e hwrite.1).1
  have hnot : e ∉ t.locked := by
    intro hmem
    have hheld := (hw.locked e hmem).2
    rw [hlock] at hheld
    cases hheld
  refine ⟨fun y hy hins hkey e' hwe => ?_, fun y hy hins hkey e' hwe => ?_,
    nodup_cons.mpr ⟨hnot, hw.nodup⟩, forall_mem_cons.mpr ⟨⟨hlt, σ.lock_set e _⟩, ?_⟩,
    hw.grown, fun h => (by cases h), fun _ y hy k' => ?_, hpcok.1, forall_take_succ hit ?_ ?_⟩
  · exact (hw.fresh y (by rw [hpc]; exact hy) hins hkey e' hwe).set rfl rfl rfl
  · exact (hd.follows (hc.items.ref y hy e' hwe.1).1).live (hw.live y hy hins hkey e' hwe)
  · intro e' he'
    have hne : e' ≠ e := by
      rintro rfl
      exact hnot he'
    rw [Store.heap_set, update_of_ne hne]
    exact hw.locked e' he'
  · exact (hw.known (by rw [hpc]; rfl) y hy k').drift hd (Mine.set rfl rfl) hc.items.stamp
  · exact fun y hy e' hwe => mem_cons_of_mem _ (hpcok.2 y hy e' hwe)
  · intro e' hwe
    cases hwe.1.symm.trans hwrite.1
    exact mem_cons_self

lemma Work.of_unlockItem {ok : Bool} (hc : Core σ here t) (hw : Work σ here i t)
    (hpc : t.pc = .unlock ok (j + 1)) :
    Work (σ.set e ((σ.heap e).setLock none)) here i
      { t with pc := .unlock ok j, locked := t.locked.erase e } := by
  have hd : Drifts σ (σ.set e ((σ.heap e).setLock none)) := .set (.of_version rfl rfl rfl rfl)
  refine ⟨fun y hy hins hkey e' hwe => ?_, fun y hy hins hkey e' hwe => ?_, hw.nodup.erase e,
    fun e' he' => ?_, hw.grown, fun h => (by cases h), fun h => (by cases h), trivial⟩
  · exact (hw.fresh y (by rw [hpc]; exact hy) hins hkey e' hwe).set rfl rfl rfl
  · exact (hd.follows (hc.items.ref y hy e' hwe.1).1).live (hw.live y hy hins hkey e' hwe)
  · obtain ⟨hne, hmem⟩ := hw.nodup.mem_erase_iff.mp he'
    rw [Store.heap_set, update_of_ne hne]
    exact hw.locked e' hmem

lemma Work.of_cleanup (hc : Core σ here t) (hw : Work σ here i t)
    (hpc : t.pc = .cleanup (j + 1)) (hit : t.items[j]? = some it) (hsome : it.wdata.isSome) :
    Work (σ.remove it.key) here i { t with pc := .cleanup j } := by
  refine ⟨fun y hy hins hkey e' hwe => ?_, hw.live, hw.nodup, hw.locked, hw.grown,
    fun h => (by cases h), fun h => (by cases h), trivial⟩
  have hleft : y ∈ t.pc.left t.items := by
    rw [hpc]
    exact (take_prefix_take_left (Nat.le_succ j)).subset hy
  have hfresh := hw.fresh y hleft hins hkey e' hwe
  have hne := hc.items.distinct.take hit hsome y hy hwe.2
  exact ⟨hfresh.new, hfresh.writer, by rw [Store.find_remove, if_neg hne, hfresh.find],
    hfresh.effect⟩

/-- A step that changes memory keeps the invariant of the transaction that takes it. -/
lemma Effect.ok (hm : MemOk σ) (hc : Core σ here t) (hw : Work σ here i t)
    (h : Effect σ here i t σ' t') : Running σ' here i t' := by
  have hd := (h.touch hc hw).drifts
  have hinst := hc.installs
  cases h with
  | insert hpc hfind => exact hw.of_insertNew hm hc hpc hfind
  | @growLock k v e hpc hlock =>
    obtain ⟨hq, hexec⟩ := hw.exec hpc rfl
    exact ⟨(hc.drift hd).goto hq.installed, Exec.work hq (hexec.set hd rfl rfl rfl hc.items.stamp)
      ⟨hq, (hw.pcAt hpc).2.drift hd, σ.lock_set e _⟩⟩
  | growBack hpc hinvalid =>
    obtain ⟨hq, hexec⟩ := hw.exec hpc rfl
    exact ⟨(hc.drift hd).goto hq.installed,
      Exec.work hq (hexec.set hd rfl rfl rfl hc.items.stamp) trivial⟩
  | @growMark k v e hpc hvalid =>
    obtain ⟨hq, hexec⟩ := hw.exec hpc rfl
    obtain ⟨-, hg, hheld⟩ := hw.pcAt hpc
    have hfind := (hm.valid hg.lt hvalid).2
    rw [hg.key] at hfind
    refine ⟨(hc.drift hd).goto hq.installed,
      Exec.work hq (hexec.set hd rfl rfl rfl hc.items.stamp) ⟨hq, hg.drift hd, ?_, ?_, ?_, hfind⟩⟩
    · rw [Store.heap_set, update_self]
      exact hheld
    · rw [Store.heap_set, update_self]
      rfl
    · rw [Store.heap_set, update_self]
  | @growUnlock k v e hpc =>
    obtain ⟨hq, hexec⟩ := hw.exec hpc rfl
    obtain ⟨-, hg, -, hmov⟩ := hw.pcAt hpc
    refine ⟨(hc.drift hd).goto hq.installed, Exec.work hq (hexec.set hd rfl rfl rfl hc.items.stamp)
        ⟨hq, hg.drift hd, rfl, ?_, ?_, hmov.find⟩⟩
    · rw [Store.heap_set, update_self]
      exact hmov.invalid
    · rw [Store.heap_set, update_self]
      exact hmov.mover
  | growLink hpc hfind => exact hw.of_growLink hm hc hpc hfind
  | lockItem hpc hit hwrite hlock =>
    rw [hpc] at hinst
    have hc' := hc.drift hd
    exact ⟨⟨hc'.items, hc'.linked, hc'.calls, hinst⟩, hw.of_lockItem hc hpc hit hwrite hlock⟩
  | @unlockItem ok j it e hpc hit hwrite hlocked hlock =>
    rw [hpc] at hinst
    have hc' := hc.drift hd
    refine ⟨⟨hc'.items, hc'.linked, hc'.calls, ?_⟩, hw.of_unlockItem hc hpc⟩
    cases ok <;> exact hinst
  | @cleanup j it w hpc hit hinsert hwd hfind =>
    rw [hpc] at hinst
    have hkey := hc.cleanup_key (mem_of_getElem? hit) hinsert hwd
    rw [hkey] at hd ⊢
    exact ⟨(hc.drift hd).goto hinst, hw.of_cleanup hc hpc hit (by rw [hwd]; rfl)⟩

/-! ## Installs -/

/-- What an install leaves alone. -/
lemma Install.frame {w : Option Bytes} (h : Install σ here i k w σ') :
    ∃ e, σ.find k = some e ∧ (∀ e' ≠ e, σ'.heap e' = σ.heap e') ∧
      (∀ k' ≠ k, σ'.find k' = σ.find k') ∧ (σ'.heap e).word.lock = (σ.heap e).word.lock := by
  cases h with
  | @update e _ hfind _ _ | @validate e hfind _ _ _ =>
    refine ⟨e, hfind, fun e' he' => ?_, fun _ _ => rfl, ?_⟩
    · rw [Store.heap_set, update_of_ne he']
    · rw [Store.heap_set, update_self]
      rfl
  | @kill e hfind _ _ =>
    refine ⟨e, hfind, fun e' he' => ?_, fun k' hk' => ?_, ?_⟩
    · rw [Store.heap_remove, Store.heap_set, update_of_ne he']
    · rw [Store.find_remove, if_neg hk', Store.find_set]
    · rw [Store.heap_remove, Store.heap_set, update_self]
      rfl

/-- A transaction whose checks have all passed has replaced no element. -/
lemma Work.grown_nil (hc : Core σ here t) (hw : Work σ here i t)
    (hpass : ∀ it ∈ t.items, it.rdata.isSome → it.ref ∈ t.passed) : t.grown = [] := by
  refine eq_nil_iff_forall_not_mem.mpr fun e he => ?_
  obtain ⟨st, hst⟩ := isSome_iff_exists.mp (hc.items.grown e he).2.2.2
  obtain ⟨it, hit, href, hrd⟩ := exists_of_lead hst
  exact hw.grown e he (href ▸ hpass it hit (by rw [hrd]; rfl))

/-- When all checks have passed, what an update or a delete will change is valid. -/
lemma Work.valid_of_passed (hc : Core σ here t) (hw : Work σ here i t) (hs : t.pc.settling)
    (hpass : ∀ it ∈ t.items, it.rdata.isSome → it.ref ∈ t.passed) (hit : it ∈ t.items)
    (hins : it.hasInsert = false) (hwrite : it.writesElem e) (hkey : it.key ∉ t.installed) :
    (σ.heap e).word.version.invalid = false := by
  rcases (hc.items.update it hit hins e hwrite).2 with hlead | hgrown
  · obtain ⟨st, hst⟩ := isSome_iff_exists.mp hlead
    obtain ⟨y, hy, href, hrd⟩ := exists_of_lead hst
    exact hw.passed hs it hit e hwrite (href ▸ hpass y hy (by rw [hrd]; rfl)) hkey
  · exact absurd (hw.grown_nil hc hpass) hgrown

/-- The item that is to be installed has not been installed. -/
lemma Core.not_installed (hc : Core σ here t) (hpc : t.pc = .install j)
    (hit : t.items[j]? = some it) (hsome : it.wdata.isSome) : it.key ∉ t.installed := by
  have hinst := hc.installs
  rw [hpc] at hinst
  exact hinst.2 it (by rw [drop_eq_cons hit]; exact mem_cons_self) hsome

/-- The change of memory that an install makes. -/
lemma Work.install (hm : MemOk σ) (hc : Core σ here t) (hw : Work σ here i t) {w : Bytes}
    (hpc : t.pc = .install j) (hit : t.items[j]? = some it) (href : it.ref = .elem e)
    (hwd : it.wdata = some w) (hinstall : σ.installItem i it e w = some σ') :
    Install σ here i it.key it.effect σ' := by
  have hmem := mem_of_getElem? hit
  have hsome : it.wdata.isSome := by rw [hwd]; rfl
  have hwrite : it.writesElem e := ⟨href, hsome⟩
  have hkey := hc.not_installed hpc hit hsome
  have hpcok := hw.pcAt hpc
  have hheld := (hw.locked e (hpcok.1 it hmem e hwrite)).2
  have hlt := (hc.items.ref it hmem e href).1
  obtain ⟨hwrites, e', href', hkeye⟩ := hc.items.write it hmem hsome
  cases href.symm.trans href'
  have hlocked : ¬ (σ.heap e).word.lock.isNone := by rw [hheld]; exact Bool.false_ne_true
  simp only [Store.installItem, if_neg hlocked] at hinstall
  cases hwrites with
  | insert hi hdel hw' heff =>
    have hfresh := hw.fresh it (by rw [hpc]; exact hmem) hi hkey e hwrite
    rw [if_neg (by rw [hdel]; exact Bool.false_ne_true), if_pos hi] at hinstall
    cases hinstall
    rw [hfresh.effect]
    exact .validate hfresh.find hfresh.new hfresh.writer hheld
  | delete hi hdel hw' heff =>
    have hvalid := hw.valid_of_passed hc (by rw [hpc]; rfl) hpcok.2 hmem hi hwrite hkey
    have hfind := (hm.valid hlt hvalid).2
    rw [hkeye] at hfind
    have hk : (it.owner, w) = it.key := by
      rw [hwd] at hw'
      cases hw'
      rfl
    rw [if_pos hdel, if_neg (by rw [hi]; exact Bool.false_ne_true),
      if_neg (by rw [hvalid]; exact Bool.false_ne_true), hk,
      if_pos (by rw [hfind]; rfl)] at hinstall
    cases hinstall
    rw [heff]
    exact .kill hfind hvalid hheld
  | update hi hdel heff =>
    have hvalid := hw.valid_of_passed hc (by rw [hpc]; rfl) hpcok.2 hmem hi hwrite hkey
    have hfind := (hm.valid hlt hvalid).2
    rw [hkeye] at hfind
    rw [if_neg (by rw [hdel]; exact Bool.false_ne_true),
      if_neg (by rw [hi]; exact Bool.false_ne_true)] at hinstall
    split at hinstall
    · cases hinstall
    · cases hinstall
      rw [heff, hwd]
      exact .update hfind hvalid hheld

/-- An install keeps the invariant of the transaction. -/
lemma Work.of_install (hm : MemOk σ) (hc : Core σ here t) (hw : Work σ here i t)
    (hpc : t.pc = .install j) (hit : t.items[j]? = some it) (hwrite : it.writesElem e)
    (h : Install σ here i it.key it.effect σ') :
    Running σ' here i { t with pc := .install (j + 1), installed := it.key :: t.installed } := by
  have hmem := mem_of_getElem? hit
  have hd := h.drifts
  have hinst := hc.installs
  have hpcok := hw.pc
  rw [hpc] at hinst hpcok
  obtain ⟨hwrites, e', href', hkeye⟩ := hc.items.write it hmem hwrite.2
  cases hwrite.1.symm.trans href'
  obtain ⟨e₀, hfind, hheap, hfinds, hlock⟩ := h.frame
  have hc' := hc.drift hd
  -- other items of the transaction have other keys, so other elements
  have hother : ∀ y ∈ t.items, ∀ e', y.writesElem e' → y.key ≠ it.key → e' ≠ e₀ := by
    rintro y hy e' hwe hne rfl
    obtain ⟨-, e'', href'', hk''⟩ := hc.items.write y hy hwe.2
    cases hwe.1.symm.trans href''
    exact hne (hk''.symm.trans (hm.linked hfind).2)
  refine ⟨⟨hc'.items, hc'.linked, hc'.calls, forall_take_succ hit ?_ ?_, fun y hy hyw => ?_⟩,
    fun y hy hins hkey e' hwe => ?_, fun y hy hins hkey e' hwe => ?_, hw.nodup, fun e' he' => ?_,
    hw.grown, fun _ y hy e' hwe hpass hkey => ?_, fun h => (by cases h), hpcok⟩
  · exact fun y hy hyw => mem_cons_of_mem _ (hinst.1 y hy hyw)
  · exact fun _ => mem_cons_self
  · have hne := hc.items.distinct.drop hit hwrite.2 y hy hyw
    have hold := hinst.2 y (by rw [drop_eq_cons hit]; exact mem_cons_of_mem _ hy) hyw
    exact fun hmem => (mem_cons.mp hmem).elim hne hold
  · have hy : y ∈ t.items := hy
    have hne : y.key ≠ it.key := fun heq => hkey (heq ▸ mem_cons_self)
    have hfresh := hw.fresh y (by rw [hpc]; exact hy) hins
      (fun hold => hkey (mem_cons_of_mem _ hold)) e' hwe
    have hsame := hheap e' (hother y hy e' hwe hne)
    exact ⟨by rw [hsame, hfresh.new], by rw [hsame, hfresh.writer],
      by rw [hfinds _ hne, hfresh.find], by rw [hsame, hfresh.effect]⟩
  · rcases mem_cons.mp hkey with heq | hold
    · -- the insert that is installed now makes its element valid
      have hyit := hc.items.distinct.eq_of_key hy hmem hwe.2 hwrite.2 heq
      subst hyit
      cases hwe.1.symm.trans hwrite.1
      have hkey' := hc.not_installed hpc hit hwrite.2
      have hfresh := hw.fresh y (by rw [hpc]; exact hy) hins hkey' e hwe
      have heff := hfresh.effect
      generalize hw' : y.effect = w at h heff
      cases h with
      | update hf hvalid _ =>
        rw [hfresh.find] at hf
        cases hf
        have hl := (hm.valid (hm.linked hfresh.find).1 hvalid).1
        rw [hfresh.new] at hl
        cases hl
      | validate hf _ _ _ =>
        rw [hfresh.find] at hf
        cases hf
        rw [Store.heap_set, update_self]
      | kill => cases heff
    · exact (hd.follows (hc.items.ref y hy e' hwe.1).1).live (hw.live y hy hins hold e' hwe)
  · obtain ⟨hlt, hheld⟩ := hw.locked e' he'
    refine ⟨hlt.trans_le hd.next_le, ?_⟩
    by_cases heq : e' = e₀
    · subst heq
      rw [hlock, hheld]
    · rw [hheap e' heq, hheld]
  · have hne : y.key ≠ it.key := fun heq => hkey (heq ▸ mem_cons_self)
    rw [hheap e' (hother y hy e' hwe hne)]
    exact hw.passed (by rw [hpc]; rfl) y hy e' hwe hpass fun hold => hkey (mem_cons_of_mem _ hold)

end

end Rolis.Sto.Occ
