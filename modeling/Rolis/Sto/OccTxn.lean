import Rolis.Sto.OccScan

/-!
# The invariant of a transaction

`Core` holds for a transaction at any time, `Work` as long as it runs: what it has locked is locked,
what it has inserted is in the tree and not valid yet, what it has checked and will overwrite is
valid, and it knows what its answers say. `PcOk` is what holds at each place of its program.

Steps of others keep both (`Core.drift`, `Work.evolve`). Steps of the transaction itself are the
subject of the next modules.
-/

namespace Rolis.Sto.Occ

open List

variable {M : Masstree} {ι : Type} {σ : Store M ι} {here : ℕ} {i : ι} {t : Txn M.Node ι}

/-! ## Places -/

namespace Pc

/-- The transaction has been started. -/
def born : Pc ι → Bool
  | .unborn => false
  | _ => true

/-- The transaction is executing: it has not called `try_commit` and has not aborted. -/
def executing : Pc ι → Bool
  | .unborn | .lock _ | .check _ | .install _ | .draw | .unlock _ _ | .cleanup _ | .committed
  | .aborted => false
  | _ => true

/-- Nothing is decided yet. -/
def undecided : Pc ι → Bool
  | .install _ | .draw | .unlock _ _ | .cleanup _ | .committed | .aborted => false
  | _ => true

/-- All checks have passed: the transaction will commit. -/
def decided : Pc ι → Bool
  | .install _ | .draw | .unlock true _ | .committed => true
  | _ => false

/-- The transaction holds all its locks, and installs have not come to their end. -/
def settling : Pc ι → Bool
  | .check _ | .install _ => true
  | _ => false

/-- The items that are not cleaned up. -/
def left {N : Type} : Pc ι → List (Item N) → List (Item N)
  | .cleanup j, items => items.take j
  | .aborted, _ => []
  | _, items => items

lemma left_subset {N : Type} (pc : Pc ι) (items : List (Item N)) : pc.left items ⊆ items := by
  cases pc with
  | cleanup j => exact take_subset j items
  | aborted => exact nil_subset items
  | _ => exact fun _ h => h

end Pc

/-! ## The invariant -/

/-- The keys that are installed at a place. -/
def Txn.Installs {N : Type} (t : Txn N ι) : Pc ι → Prop
  | .install j =>
    (∀ it ∈ t.items.take j, it.wdata.isSome → it.key ∈ t.installed) ∧
      ∀ it ∈ t.items.drop j, it.wdata.isSome → it.key ∉ t.installed
  | .draw | .unlock true _ | .committed => ∀ it ∈ t.items, it.wdata.isSome → it.key ∈ t.installed
  | _ => t.installed = []

/-- What holds for a transaction at any time. -/
structure Core (σ : Store M ι) (here : ℕ) (t : Txn M.Node ι) : Prop where
  items : ItemsOk σ here t.items t.grown
  linked : Linked t.calls t.items
  calls : CallsOk t.calls
  installs : t.Installs t.pc

/-- Nothing is locked, checked or installed. -/
structure Quiet {N : Type} (locked : List ℕ) (passed : List (Ref N)) (installed : List Key) :
    Prop where
  locked : locked = []
  passed : passed = []
  installed : installed = []

/-- A transaction that has neither locked nor checked nor installed anything. -/
def Txn.Quiet {N : Type} (t : Txn N ι) : Prop := Occ.Quiet t.locked t.passed t.installed

/-- The transaction has found an element of a key that it has not written. -/
structure Found (σ : Store M ι) (calls : List (Call × Result)) (k : Key) (e : ℕ) : Prop where
  new : k ∉ written calls
  lt : e < σ.next
  key : (σ.heap e).key = k

/-- The transaction has found an element that is too small, and has observed its version. -/
structure Grows (σ : Store M ι) (items : List (Item M.Node)) (calls : List (Call × Result))
    (k : Key) (e : ℕ) : Prop extends Found σ calls k e where
  live : (σ.heap e).live
  lead : (lead items (.elem e)).isSome

/-- The element is invalid because `i` replaces it. -/
structure Moving (σ : Store M ι) (i : ι) (k : Key) (e : ℕ) : Prop where
  invalid : (σ.heap e).word.version.invalid
  mover : (σ.heap e).mover = some i
  find : σ.find k = some e

/-- What holds at a place of the program. -/
def PcOk (σ : Store M ι) (here : ℕ) (i : ι) (t : Txn M.Node ι) : Pc ι → Prop
  | .unborn | .draw | .unlock _ _ | .cleanup _ | .committed | .aborted => True
  | .idle => t.Quiet
  | .getCheck k e | .getRead k e | .putCheck _ k _ e | .deleteRead k e =>
    t.Quiet ∧ Found σ t.calls k e
  | .putObserve _ k _ e => t.Quiet ∧ Found σ t.calls k e ∧ (σ.heap e).live
  | .findInsert _ k _ => t.Quiet ∧ k ∉ written t.calls
  | .growLock k _ e => t.Quiet ∧ Grows σ t.items t.calls k e
  | .growMark k _ e => t.Quiet ∧ Grows σ t.items t.calls k e ∧ (σ.heap e).word.lock = some here
  | .growUnlock k _ e =>
    t.Quiet ∧ Grows σ t.items t.calls k e ∧ (σ.heap e).word.lock = some here ∧ Moving σ i k e
  | .growCopy own k _ e => t.Quiet ∧ Grows σ t.items t.calls k e ∧ own = false ∧ Moving σ i k e
  | .growLink own k _ e copy =>
    t.Quiet ∧ Grows σ t.items t.calls k e ∧ own = false ∧ Moving σ i k e ∧ copy.key = k ∧
      copy.live ∧ copy.value = (σ.heap e).value ∧ copy.word.version.invalid = false
  | .scan d table lo hi pos rows entries next =>
    t.Quiet ∧ ScanOk σ i t.items t.skipped t.calls d table lo hi pos rows entries next
  | .lock j => t.passed = [] ∧ ∀ it ∈ t.items.take j, ∀ e, it.writesElem e → e ∈ t.locked
  | .check j =>
    (∀ it ∈ t.items, ∀ e, it.writesElem e → e ∈ t.locked) ∧
      ∀ it ∈ t.items.take j, it.rdata.isSome → it.ref ∈ t.passed
  | .install _ =>
    (∀ it ∈ t.items, ∀ e, it.writesElem e → e ∈ t.locked) ∧
      ∀ it ∈ t.items, it.rdata.isSome → it.ref ∈ t.passed

/-- The element of an insert of `i` that is not installed. -/
structure Fresh (σ : Store M ι) (i : ι) (it : Item M.Node) (e : ℕ) : Prop where
  new : (σ.heap e).live = false
  writer : (σ.heap e).writer = some i
  find : σ.find it.key = some e
  effect : it.effect = some (σ.heap e).value

/-- What holds as long as a transaction runs. -/
structure Work (σ : Store M ι) (here : ℕ) (i : ι) (t : Txn M.Node ι) : Prop where
  fresh : ∀ it ∈ t.pc.left t.items, it.hasInsert → it.key ∉ t.installed → ∀ e, it.writesElem e →
    Fresh σ i it e
  live : ∀ it ∈ t.items, it.hasInsert → it.key ∈ t.installed → ∀ e, it.writesElem e →
    (σ.heap e).live
  nodup : t.locked.Nodup
  locked : ∀ e ∈ t.locked, e < σ.next ∧ (σ.heap e).word.lock = some here
  grown : ∀ e ∈ t.grown, .elem e ∉ t.passed
  passed : t.pc.settling → ∀ it ∈ t.items, ∀ e, it.writesElem e → .elem e ∈ t.passed →
    it.key ∉ t.installed → (σ.heap e).word.version.invalid = false
  known : t.pc.undecided → ∀ x ∈ t.calls, ∀ k, Known σ i t.items t.skipped k (Says x k)
  pc : PcOk σ here i t t.pc

/-! ## Steps of others -/

section

variable {σ' : Store M ι} {k : Key} {e : ℕ}

lemma Core.drift (h : Core σ here t) (hd : Drifts σ σ') : Core σ' here t :=
  { h with items := h.items.drift hd }

lemma Found.drift (h : Found σ t.calls k e) (hd : Drifts σ σ') : Found σ' t.calls k e :=
  ⟨h.new, h.lt.trans_le hd.next_le, by rw [(hd.follows h.lt).key, h.key]⟩

lemma Grows.drift (h : Grows σ t.items t.calls k e) (hd : Drifts σ σ') :
    Grows σ' t.items t.calls k e :=
  { h.toFound.drift hd with live := (hd.follows h.lt).live h.live, lead := h.lead }

lemma Moving.evolve (h : Moving σ i k e) (hg : Grows σ t.items t.calls k e)
    (he : Evolves σ σ' here i) : Moving σ' i k e := by
  have hfind : σ.find (σ.heap e).key = some e := by rw [hg.key, h.find]
  obtain ⟨hmover, hfind'⟩ := he.moving hg.lt hg.live h.invalid h.mover hfind
  rw [hg.key] at hfind'
  exact ⟨((he.follows hg.lt).dead hg.live h.invalid).1, hmover, hfind'⟩

lemma Fresh.evolve {it : Item M.Node} (hm : MemOk σ) (h : Fresh σ i it e)
    (he : Evolves σ σ' here i) : Fresh σ' i it e := by
  obtain ⟨hlt, hkey⟩ := hm.linked h.find
  obtain ⟨hheap, hfind⟩ := he.own hlt h.new h.writer (by rw [hkey, h.find])
  rw [hkey] at hfind
  exact ⟨by rw [hheap, h.new], by rw [hheap, h.writer], hfind, by rw [hheap, h.effect]⟩

lemma Known.evolve {P : Option Bytes → Prop} (hm : MemOk σ) (hc : Core σ here t)
    (he : Evolves σ σ' here i) (h : Known σ i t.items t.skipped k P) :
    Known σ' i t.items t.skipped k P :=
  h.drift he.toDrifts (Mine.evolve hm he) hc.items.stamp

lemma PcOk.evolve {pc : Pc ι} (hm : MemOk σ) (hc : Core σ here t) (he : Evolves σ σ' here i)
    (h : PcOk σ here i t pc) : PcOk σ' here i t pc := by
  have hd := he.toDrifts
  cases pc with
  | getCheck | getRead | putCheck | deleteRead => exact h.imp_right fun hf => hf.drift hd
  | putObserve =>
    obtain ⟨hq, hf, hlive⟩ := h
    exact ⟨hq, hf.drift hd, (hd.follows hf.lt).live hlive⟩
  | growLock => exact h.imp_right fun hg => hg.drift hd
  | growMark =>
    obtain ⟨hq, hg, hlock⟩ := h
    exact ⟨hq, hg.drift hd, by rw [he.held hg.lt hlock, hlock]⟩
  | growUnlock =>
    obtain ⟨hq, hg, hlock, hmov⟩ := h
    exact ⟨hq, hg.drift hd, by rw [he.held hg.lt hlock, hlock], hmov.evolve hg he⟩
  | growCopy =>
    obtain ⟨hq, hg, hown, hmov⟩ := h
    exact ⟨hq, hg.drift hd, hown, hmov.evolve hg he⟩
  | growLink =>
    obtain ⟨hq, hg, hown, hmov, hkey, hlive, hvalue, hvalid⟩ := h
    refine ⟨hq, hg.drift hd, hown, hmov.evolve hg he, hkey, hlive, ?_, hvalid⟩
    rw [((hd.follows hg.lt).dead hg.live hmov.invalid).2, hvalue]
  | scan =>
    obtain ⟨hq, hs⟩ := h
    exact ⟨hq, hs.imp hd.next_le (fun e he => (hd.follows he).key) fun _ _ => Known.evolve hm hc he⟩
  | _ => exact h

/-- What a transaction has locked before it installs. -/
lemma PcOk.allLocked {pc : Pc ι} (h : PcOk σ here i t pc) (hpc : pc.settling) :
    ∀ it ∈ t.items, ∀ e, it.writesElem e → e ∈ t.locked := by
  cases pc with
  | check | install => exact h.1
  | _ => cases hpc

lemma Work.evolve (hm : MemOk σ) (hc : Core σ here t) (he : Evolves σ σ' here i)
    (h : Work σ here i t) : Work σ' here i t where
  fresh it hit hins hkey e hw := (h.fresh it hit hins hkey e hw).evolve hm he
  live it hit hins hkey e hw :=
    (he.follows (hc.items.ref it hit e hw.1).1).live (h.live it hit hins hkey e hw)
  nodup := h.nodup
  locked e hmem := by
    obtain ⟨hlt, hlock⟩ := h.locked e hmem
    exact ⟨hlt.trans_le he.next_le, by rw [he.held hlt hlock, hlock]⟩
  grown := h.grown
  passed hpc it hit e hw hpass hkey := by
    obtain ⟨hlt, hlock⟩ := h.locked e (h.pc.allLocked hpc it hit e hw)
    rw [he.held hlt hlock]
    exact h.passed hpc it hit e hw hpass hkey
  known hpc x hx k := (h.known hpc x hx k).evolve hm hc he
  pc := h.pc.evolve hm hc he

end

/-! ## Moving on -/

section

variable {pc : Pc ι}

lemma Core.goto (h : Core σ here t) (hpc : t.Installs pc) : Core σ here { t with pc := pc } :=
  { h with installs := hpc }

lemma Work.goto (h : Work σ here i t) (hleft : pc.left t.items ⊆ t.pc.left t.items)
    (hsettle : pc.settling → t.pc.settling ∨ t.passed = [])
    (hopen : pc.undecided → t.pc.undecided) (hpc : PcOk σ here i t pc) :
    Work σ here i { t with pc := pc } where
  fresh it hit := h.fresh it (hleft hit)
  live := h.live
  nodup := h.nodup
  locked := h.locked
  grown := h.grown
  passed hs it hit e hw hpass := by
    rcases hsettle hs with hs | hnil
    · exact h.passed hs it hit e hw hpass
    · have hpass : Ref.elem e ∈ t.passed := hpass
      rw [hnil] at hpass
      cases hpass
  known ho := h.known (hopen ho)
  pc := hpc

/-- What an executing transaction knows. -/
structure Exec (σ : Store M ι) (i : ι) (items : List (Item M.Node)) (skip : Key → Bool)
    (calls : List (Call × Result)) : Prop where
  fresh : ∀ it ∈ items, it.hasInsert → ∀ e, it.writesElem e → Fresh σ i it e
  known : ∀ x ∈ calls, ∀ k, Known σ i items skip k (Says x k)

lemma Work.pcAt (h : Work σ here i t) (hpc : t.pc = pc) : PcOk σ here i t pc := hpc ▸ h.pc

lemma PcOk.quiet (h : PcOk σ here i t pc) (hpc : pc.executing) : t.Quiet := by
  cases pc with
  | idle => exact h
  | unborn | lock | check | install | draw | unlock | cleanup | committed | aborted => cases hpc
  | _ => exact h.1

lemma Work.exec (h : Work σ here i t) (hpc : t.pc = pc) (hexec : pc.executing) :
    t.Quiet ∧ Exec σ i t.items t.skipped t.calls := by
  subst hpc
  have hq := h.pc.quiet hexec
  have hleft : t.pc.left t.items = t.items := by
    generalize t.pc = pc at hexec
    cases pc with
    | cleanup | aborted => cases hexec
    | _ => rfl
  have hopen : t.pc.undecided := by
    generalize t.pc = pc at hexec
    cases pc with
    | install | draw | unlock | cleanup | committed | aborted => cases hexec
    | _ => rfl
  refine ⟨hq, fun it hit hins e hw => h.fresh it (by rwa [hleft]) hins ?_ e hw, h.known hopen⟩
  rw [hq.installed]
  exact not_mem_nil

lemma Exec.work (hq : t.Quiet) (h : Exec σ i t.items t.skipped t.calls)
    (hpc : PcOk σ here i t t.pc) : Work σ here i t where
  fresh it hit hins _ := h.fresh it (Pc.left_subset _ _ hit) hins
  live it _ _ hkey := by
    rw [hq.installed] at hkey
    cases hkey
  nodup := by
    rw [hq.locked]
    exact nodup_nil
  locked e he := by
    rw [hq.locked] at he
    cases he
  grown e _ hpass := by
    rw [hq.passed] at hpass
    cases hpass
  passed _ _ _ _ _ hpass := by
    rw [hq.passed] at hpass
    cases hpass
  known _ := h.known
  pc := hpc

variable {items items' : List (Item M.Node)} {calls : List (Call × Result)} {it : Item M.Node}
  {skip : Key → Bool} {x : Call × Result}

/-- An item that is no insert comes in. -/
lemma Exec.add (h : Exec σ i items skip calls) (ha : Adds items items' it)
    (hext : Extends items items') (hit : it.hasInsert = false) : Exec σ i items' skip calls where
  fresh y hy hins e hw := by
    rcases ha.of_mem hy with hy | rfl
    · exact h.fresh y hy hins e hw
    · rw [hit] at hins
      cases hins
  known x hx k := (h.known x hx k).extend hext

lemma Exec.skipMore (h : Exec σ i items skip calls) {skip' : Key → Bool}
    (hskip : ∀ k, skip k → skip' k) : Exec σ i items skip' calls :=
  ⟨h.fresh, fun x hx k => (h.known x hx k).skipMore (hskip k)⟩

/-- A call is answered. -/
lemma Exec.answer (h : Exec σ i items skip calls) (hx : ∀ k, Known σ i items skip k (Says x k)) :
    Exec σ i items skip (calls ++ [x]) where
  fresh := h.fresh
  known y hy := by
    rcases mem_append.mp hy with hy | hy
    · exact h.known y hy
    · exact mem_singleton.mp hy ▸ hx

/-- What is known after an answer to a call on one key. -/
lemma known_of_key {c : Call} {r : Result} {k : Key} (hy : Formed (c, r))
    (hkey : c.key? = some k) (h : Known σ i items skip k (Says (c, r) k)) (k' : Key) :
    Known σ i items skip k' (Says (c, r) k') := by
  by_cases hk : k' = k
  · exact hk ▸ h
  · exact .inl (says_of_ne hy hkey hk)

end

end Rolis.Sto.Occ
