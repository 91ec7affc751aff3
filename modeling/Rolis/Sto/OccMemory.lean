import Rolis.Sto.OccSteps

/-!
# What transactions do to memory

`Touch` lists the changes that a transaction makes to the store before it installs anything, and
`Install` the three ways in which a write takes effect, each with what the transaction must hold for
it: a lock it has, an element it has inserted, an element it replaces.

Every change is a `Drifts`: versions only grow, and an element that was valid and is invalid stays
so. For a transaction on another thread it is an `Evolves` too: what that transaction has locked,
inserted or is about to replace is left alone.
-/

namespace Rolis.Sto.Occ

open Function Store Option

variable {M : Masstree} {ι : Type} {σ σ' : Store M ι} {k : Key} {e here : ℕ} {x : Object ι} {i : ι}

/-! ## The store -/

namespace Store

variable {k' : Key}

/-- The leaf of a key as the `key_` of an item. -/
def place (σ : Store M ι) (k : Key) : Ref M.Node := .node k.1 (σ.leaf k)

/-- The version of a node. -/
def nodeVersion (σ : Store M ι) : Ref M.Node → ℕ
  | .elem _ => 0
  | .node table n => σ.version table n

/-- The value that the committed transactions have left under a key: the element of the key may be
invalid because somebody is replacing it, but it must have been valid. -/
def current (σ : Store M ι) (k : Key) : Option Bytes :=
  (σ.find k).bind fun e => if (σ.heap e).live then some (σ.heap e).value else none

@[simp] lemma find_set : (σ.set e x).find = σ.find := rfl

@[simp] lemma nodeVersion_set : (σ.set e x).nodeVersion = σ.nodeVersion := by
  funext r
  cases r <;> rfl

@[simp] lemma heap_set : (σ.set e x).heap = update σ.heap e x := rfl

@[simp] lemma heap_insert : (σ.insert k x).heap = update σ.heap σ.next x := rfl

@[simp] lemma next_insert : (σ.insert k x).next = σ.next + 1 := rfl

@[simp] lemma heap_replace : (σ.replace k x).heap = update σ.heap σ.next x := rfl

@[simp] lemma next_replace : (σ.replace k x).next = σ.next + 1 := rfl

@[simp] lemma heap_remove : (σ.remove k).heap = σ.heap := rfl

/-- The trees of the other tables stay. -/
lemma trees_setTree (σ : Store M ι) (table : ℕ) (t : M.Tree) (table' : ℕ) :
    (σ.setTree table t).trees table' = if table' = table then t else σ.trees table' := by
  by_cases h : table' = table
  · subst h
    simp [setTree]
  · simp [setTree, h]

/-- A new tree for the table of `k` that changes what `k` finds. -/
lemma find_of_trees {t : M.Tree} {found : Option ℕ} (htree : σ'.trees = (σ.setTree k.1 t).trees)
    (hfind : ∀ b, M.find t b = if b = k.2 then found else M.find (σ.trees k.1) b) (k' : Key) :
    σ'.find k' = if k' = k then found else σ.find k' := by
  rw [find, htree, trees_setTree]
  by_cases ht : k'.1 = k.1
  · rw [if_pos ht, hfind, find, ht]
    simp [Prod.ext_iff, ht]
  · have hne : k' ≠ k := fun h => ht (h ▸ rfl)
    rw [if_neg ht, if_neg hne, find]

lemma find_insert (σ : Store M ι) (k : Key) (x : Object ι) (k' : Key) :
    (σ.insert k x).find k' = if k' = k then some σ.next else σ.find k' :=
  find_of_trees rfl (M.find_insert _ _ _) k'

lemma find_replace (h : (σ.find k).isSome) (x : Object ι) (k' : Key) :
    (σ.replace k x).find k' = if k' = k then some σ.next else σ.find k' :=
  find_of_trees rfl (fun b => M.find_replace _ _ _ b h) k'

lemma find_remove (σ : Store M ι) (k k' : Key) :
    (σ.remove k).find k' = if k' = k then none else σ.find k' :=
  find_of_trees rfl (M.find_remove _ _) k'

/-- What an insert or a removal does to leaves and versions: only keys of one leaf move, and its
version grows. -/
structure Shifts (σ σ' : Store M ι) (k : Key) : Prop where
  le : ∀ r, σ.nodeVersion r ≤ σ'.nodeVersion r
  lt : σ.nodeVersion (σ.place k) < σ'.nodeVersion (σ.place k)
  place : ∀ k', σ.place k' ≠ σ.place k → σ'.place k' = σ.place k'

/-- Leaves whose version stays keep their keys, and no key comes to them. -/
lemma Shifts.still (h : Shifts σ σ' k) (hfind : ∀ k', k' ≠ k → σ'.find k' = σ.find k')
    (k' : Key) (hv : σ'.nodeVersion (σ.place k') = σ.nodeVersion (σ.place k')) :
    σ'.place k' = σ.place k' ∧ (σ.find k' = none → σ'.find k' = none) := by
  have hplace : σ.place k' ≠ σ.place k := by
    intro heq
    rw [heq] at hv
    exact h.lt.ne' hv
  have hne : k' ≠ k := fun heq => hplace (heq ▸ rfl)
  exact ⟨h.place k' hplace, fun hnone => by rw [hfind k' hne, hnone]⟩

lemma shifts_of_trees {t : M.Tree} (htree : σ'.trees = (σ.setTree k.1 t).trees)
    (hle : ∀ n, M.version (σ.trees k.1) n ≤ M.version t n)
    (hlt : M.version (σ.trees k.1) (σ.leaf k) < M.version t (σ.leaf k))
    (hleaf : ∀ b, M.leaf (σ.trees k.1) b ≠ σ.leaf k → M.leaf t b = M.leaf (σ.trees k.1) b) :
    Shifts σ σ' k := by
  refine ⟨fun r => ?_, ?_, fun k' hne => ?_⟩
  · cases r with
    | elem e => exact le_rfl
    | node table n =>
      simp only [nodeVersion, version, htree, trees_setTree]
      split
      · next ht => exact ht ▸ hle n
      · exact le_rfl
  · simpa only [nodeVersion, place, version, htree, trees_setTree, if_true] using hlt
  · simp only [place, leaf, htree, trees_setTree] at hne ⊢
    split
    · next ht =>
      rw [ht] at hne ⊢
      rw [hleaf _ fun heq => hne (by rw [heq]; rfl)]
    · rfl

lemma shifts_insert (h : σ.find k = none) (x : Object ι) : Shifts σ (σ.insert k x) k :=
  shifts_of_trees rfl (M.version_le_insert _ _ _) (M.version_lt_insert _ _ _ h)
    (M.leaf_insert _ _ _)

lemma shifts_remove (h : (σ.find k).isSome) : Shifts σ (σ.remove k) k :=
  shifts_of_trees rfl (M.version_le_remove _ _) (M.version_lt_remove _ _ h) (M.leaf_remove _ _)

/-- A removal together with a change of an element. -/
lemma shifts_set_remove (h : (σ.find k).isSome) (e : ℕ) (x : Object ι) :
    Shifts σ ((σ.set e x).remove k) k := by
  obtain ⟨hle, hlt, hplace⟩ := shifts_remove (σ := σ.set e x) (k := k) h
  rw [nodeVersion_set] at hle hlt
  exact ⟨hle, hlt, hplace⟩

lemma nodeVersion_replace (σ : Store M ι) (k : Key) (x : Object ι) (r : Ref M.Node) :
    (σ.replace k x).nodeVersion r = σ.nodeVersion r := by
  have htree : ∀ table, (σ.replace k x).trees table =
      if table = k.1 then M.replace (σ.trees k.1) k.2 σ.next else σ.trees table :=
    trees_setTree σ _ _
  cases r with
  | elem e => rfl
  | node table n =>
    simp only [nodeVersion, version, htree]
    split
    · next ht => rw [M.version_replace, ht]
    · rfl

lemma place_replace (σ : Store M ι) (k : Key) (x : Object ι) (k' : Key) :
    (σ.replace k x).place k' = σ.place k' := by
  have htree : ∀ table, (σ.replace k x).trees table =
      if table = k.1 then M.replace (σ.trees k.1) k.2 σ.next else σ.trees table :=
    trees_setTree σ _ _
  simp only [place, leaf, htree]
  split
  · next ht => rw [M.leaf_replace, ht]
  · rfl

end Store

/-! ## Well-formed memory -/

/-- Every element that a tree reaches is an element of its key, and every valid element is reached
and has been valid. -/
structure MemOk (σ : Store M ι) : Prop where
  linked : ∀ {k e}, σ.find k = some e → e < σ.next ∧ (σ.heap e).key = k
  valid : ∀ {e}, e < σ.next → (σ.heap e).word.version.invalid = false →
    (σ.heap e).live ∧ σ.find (σ.heap e).key = some e

/-- Two valid elements of one key are the same. -/
lemma MemOk.eq_of_find (hm : MemOk σ) {e' : ℕ} (hfind : σ.find k = some e') (hlt : e < σ.next)
    (hkey : (σ.heap e).key = k) (hvalid : (σ.heap e).word.version.invalid = false) : e = e' := by
  have h := (hm.valid hlt hvalid).2
  rw [hkey, hfind] at h
  exact (some.inj h).symm

/-- What an element may become. -/
structure Object.Follows (x y : Object ι) : Prop where
  key : y.key = x.key
  live : x.live → y.live
  count : x.word.version.count ≤ y.word.version.count
  dead : x.live → x.word.version.invalid → y.word.version.invalid ∧ y.value = x.value
  same : x.live → y.word.version.invalid = false →
    y.word.version.count = x.word.version.count → y.value = x.value

lemma Object.Follows.refl (x : Object ι) : x.Follows x :=
  ⟨rfl, id, le_rfl, fun _ h => ⟨h, rfl⟩, fun _ _ _ => rfl⟩

/-- A change that leaves all but the lock, the capacity and the history alone. -/
lemma Object.Follows.of_version {y : Object ι} (hkey : y.key = x.key) (hlive : y.live = x.live)
    (hversion : y.word.version = x.word.version) (hvalue : y.value = x.value) : x.Follows y :=
  ⟨hkey, fun h => hlive ▸ h, hversion ▸ le_rfl, fun _ h => ⟨hversion ▸ h, hvalue⟩,
    fun _ _ _ => hvalue⟩

/-- What every change of memory keeps. -/
structure Drifts (σ σ' : Store M ι) : Prop where
  next_le : σ.next ≤ σ'.next
  follows : ∀ {e}, e < σ.next → (σ.heap e).Follows (σ'.heap e)
  version : ∀ r, σ.nodeVersion r ≤ σ'.nodeVersion r
  place : ∀ k, σ'.nodeVersion (σ.place k) = σ.nodeVersion (σ.place k) →
    σ'.place k = σ.place k ∧ (σ.find k = none → σ'.find k = none)

/-- What a change of another transaction keeps for the transaction `i` on the thread `here`. -/
structure Evolves (σ σ' : Store M ι) (here : ℕ) (i : ι) : Prop extends Drifts σ σ' where
  held : ∀ {e}, e < σ.next → (σ.heap e).word.lock = some here → σ'.heap e = σ.heap e
  own : ∀ {e}, e < σ.next → (σ.heap e).live = false → (σ.heap e).writer = some i →
    σ.find (σ.heap e).key = some e → σ'.heap e = σ.heap e ∧ σ'.find (σ.heap e).key = some e
  moving : ∀ {e}, e < σ.next → (σ.heap e).live → (σ.heap e).word.version.invalid →
    (σ.heap e).mover = some i → σ.find (σ.heap e).key = some e →
    (σ'.heap e).mover = some i ∧ σ'.find (σ.heap e).key = some e

lemma Drifts.refl (σ : Store M ι) : Drifts σ σ :=
  ⟨le_rfl, fun _ => .refl _, fun _ => le_rfl, fun _ _ => ⟨rfl, id⟩⟩

lemma Drifts.of_update (hheap : σ'.heap = update σ.heap e x) (hnext : σ'.next = σ.next)
    (hx : (σ.heap e).Follows x) (hversion : ∀ r, σ.nodeVersion r ≤ σ'.nodeVersion r)
    (hplace : ∀ k, σ'.nodeVersion (σ.place k) = σ.nodeVersion (σ.place k) →
      σ'.place k = σ.place k ∧ (σ.find k = none → σ'.find k = none)) : Drifts σ σ' := by
  refine ⟨hnext.ge, fun {e'} _ => ?_, hversion, hplace⟩
  by_cases h : e' = e
  · subst h
    rwa [hheap, update_self]
  · rw [hheap, update_of_ne h]
    exact .refl _

/-- A change of one element where it stands. -/
lemma Drifts.set (hx : (σ.heap e).Follows x) : Drifts σ (σ.set e x) :=
  .of_update rfl rfl hx (fun r => by rw [nodeVersion_set]) fun _ _ => ⟨rfl, id⟩

lemma Drifts.of_new (hheap : σ'.heap = update σ.heap σ.next x) (hnext : σ'.next = σ.next + 1)
    (hversion : ∀ r, σ.nodeVersion r ≤ σ'.nodeVersion r)
    (hplace : ∀ k, σ'.nodeVersion (σ.place k) = σ.nodeVersion (σ.place k) →
      σ'.place k = σ.place k ∧ (σ.find k = none → σ'.find k = none)) : Drifts σ σ' := by
  refine ⟨by rw [hnext]; exact Nat.le_succ _, fun {e'} hlt => ?_, hversion, hplace⟩
  rw [hheap, update_of_ne hlt.ne]
  exact .refl _

lemma Drifts.insert (h : σ.find k = none) : Drifts σ (σ.insert k x) :=
  have hshift := shifts_insert h x
  .of_new rfl rfl hshift.le (hshift.still fun k' hne => by rw [find_insert, if_neg hne])

lemma Drifts.replace (h : (σ.find k).isSome) : Drifts σ (σ.replace k x) := by
  refine .of_new rfl rfl (fun r => by rw [nodeVersion_replace]) fun k' _ =>
    ⟨place_replace σ k x k', fun hnone => ?_⟩
  have hne : k' ≠ k := by
    rintro rfl
    rw [hnone] at h
    cases h
  rw [find_replace h, if_neg hne, hnone]

/-- A removal, with a change of an element. -/
lemma Drifts.set_remove (h : (σ.find k).isSome) (hx : (σ.heap e).Follows x) :
    Drifts σ ((σ.set e x).remove k) :=
  have hshift := shifts_set_remove h e x
  .of_update rfl rfl hx hshift.le
    (hshift.still fun k' hne => by rw [find_remove, if_neg hne, find_set])

/-- One element changes, and at most this element is unlinked: nothing for a transaction that has
neither locked it nor inserted it nor is replacing it. -/
lemma Evolves.of_update (hd : Drifts σ σ') (hheap : σ'.heap = update σ.heap e x)
    (hheld : (σ.heap e).word.lock = some here → x = σ.heap e)
    (hown : (σ.heap e).live ∨ (σ.heap e).writer ≠ some i)
    (hmover : (σ.heap e).live → (σ.heap e).word.version.invalid → x.mover = (σ.heap e).mover)
    (hfind : ∀ {k e'}, σ.find k = some e' →
      e' ≠ e ∨ (σ.heap e).live ∧ (σ.heap e).word.version.invalid → σ'.find k = some e') :
    Evolves σ σ' here i := by
  refine { hd with held := ?_, own := ?_, moving := ?_ }
  · intro e' _ hlock
    by_cases h : e' = e
    · subst h
      rw [hheap, update_self, hheld hlock]
    · rw [hheap, update_of_ne h]
  · intro e' _ hl hw hf
    have h : e' ≠ e := by
      rintro rfl
      rcases hown with hown | hown
      · rw [hl] at hown
        cases hown
      · exact hown hw
    exact ⟨by rw [hheap, update_of_ne h], hfind hf (.inl h)⟩
  · intro e' _ hl hinv hm hf
    by_cases h : e' = e
    · subst h
      exact ⟨by rw [hheap, update_self, hmover hl hinv, hm], hfind hf (.inr ⟨hl, hinv⟩)⟩
    · exact ⟨by rw [hheap, update_of_ne h, hm], hfind hf (.inl h)⟩

/-- A new element under a key: nothing for a transaction that has not inserted the key and is not
replacing its element. -/
lemma Evolves.of_new (hd : Drifts σ σ') (hheap : σ'.heap = update σ.heap σ.next x)
    (hfind : ∀ k', σ'.find k' = if k' = k then some σ.next else σ.find k')
    (hother : ∀ e, σ.find k = some e → (σ.heap e).live ∧ (σ.heap e).mover ≠ some i) :
    Evolves σ σ' here i := by
  have hold : ∀ {e}, e < σ.next → σ'.heap e = σ.heap e := by
    intro e hlt
    rw [hheap, update_of_ne hlt.ne]
  refine { hd with held := fun hlt _ => hold hlt, own := ?_, moving := ?_ }
  · intro e hlt hl _ hf
    have hne : (σ.heap e).key ≠ k := by
      rintro rfl
      rw [(hother e hf).1] at hl
      cases hl
    exact ⟨hold hlt, by rw [hfind, if_neg hne, hf]⟩
  · intro e hlt _ _ hm hf
    have hne : (σ.heap e).key ≠ k := by
      rintro rfl
      exact (hother e hf).2 hm
    exact ⟨by rw [hold hlt, hm], by rw [hfind, if_neg hne, hf]⟩

/-! ## Changes before an install -/

/-- The changes that the transaction `j` on the thread `here` makes to memory before it installs. -/
inductive Touch (σ : Store M ι) (here : ℕ) (j : ι) : Store M ι → Prop
  | lock {e : ℕ} (hlt : e < σ.next) (huse : (σ.heap e).live ∨ (σ.heap e).writer = some j)
    (hfree : (σ.heap e).word.lock = none) :
    Touch σ here j (σ.set e ((σ.heap e).setLock (some here)))
  | unlock {e : ℕ} (hlt : e < σ.next) (huse : (σ.heap e).live ∨ (σ.heap e).writer = some j)
    (hheld : (σ.heap e).word.lock = some here) : Touch σ here j (σ.set e ((σ.heap e).setLock none))
  | mark {e : ℕ} (hlt : e < σ.next) (hvalid : (σ.heap e).word.version.invalid = false)
    (hheld : (σ.heap e).word.lock = some here) :
    Touch σ here j (σ.set e { (σ.heap e).setInvalid true with mover := some j })
  | insert {k : Key} {v : Bytes} (hfind : σ.find k = none) :
    Touch σ here j (σ.insert k (newObject j k v))
  | relink {k : Key} {e : ℕ} {x : Object ι} (hlive : (σ.heap e).live)
    (hinvalid : (σ.heap e).word.version.invalid) (hmover : (σ.heap e).mover = some j)
    (hfind : σ.find k = some e) (hkey : x.key = k) (hxlive : x.live)
    (hvalue : x.value = (σ.heap e).value) : Touch σ here j (σ.replace k x)
  | remove {k : Key} {e : ℕ} (hfind : σ.find k = some e) (hnew : (σ.heap e).live = false)
    (hwriter : (σ.heap e).writer = some j) : Touch σ here j (σ.remove k)

/-- The ways in which a write of the transaction `j` takes effect: `v` is under `k` afterwards. -/
inductive Install (σ : Store M ι) (here : ℕ) (j : ι) (k : Key) : Option Bytes → Store M ι → Prop
  | update {e : ℕ} {w : Bytes} (hfind : σ.find k = some e)
    (hvalid : (σ.heap e).word.version.invalid = false) (hheld : (σ.heap e).word.lock = some here) :
    Install σ here j k (some w) (σ.set e ((σ.heap e).write j w))
  | validate {e : ℕ} (hfind : σ.find k = some e) (hnew : (σ.heap e).live = false)
    (hwriter : (σ.heap e).writer = some j) (hheld : (σ.heap e).word.lock = some here) :
    Install σ here j k (some (σ.heap e).value)
      (σ.set e { (σ.heap e).setInvalid false with live := true })
  | kill {e : ℕ} (hfind : σ.find k = some e) (hvalid : (σ.heap e).word.version.invalid = false)
    (hheld : (σ.heap e).word.lock = some here) :
    Install σ here j k none ((σ.set e ((σ.heap e).setInvalid true)).remove k)

section

variable {here' : ℕ} {j : ι} {v : Option Bytes}

lemma Touch.drifts (h : Touch σ here j σ') : Drifts σ σ' := by
  cases h with
  | lock | unlock => exact .set (.of_version rfl rfl rfl rfl)
  | mark _ hvalid _ =>
    refine .set ⟨rfl, id, le_rfl, fun _ hinv => ?_, fun _ _ _ => rfl⟩
    rw [hvalid] at hinv
    cases hinv
  | insert hfind => exact .insert hfind
  | relink _ _ _ hfind _ _ _ => exact .replace (by rw [hfind]; rfl)
  | remove hfind _ _ =>
    have h := Drifts.set_remove (e := 0) (x := σ.heap 0) (by rw [hfind]; rfl) (.refl _)
    rwa [Store.set, update_eq_self] at h

lemma Install.drifts (h : Install σ here j k v σ') : Drifts σ σ' := by
  cases h with
  | update _ hvalid _ =>
    refine .set ⟨rfl, id, Nat.le_succ _, fun _ hinv => ?_, fun _ _ heq => ?_⟩
    · rw [hvalid] at hinv
      cases hinv
    · exact absurd heq (Nat.succ_ne_self _)
  | validate _ hnew _ _ =>
    refine .set ⟨rfl, fun _ => rfl, le_rfl, fun hl _ => ?_, fun _ _ _ => rfl⟩
    rw [hnew] at hl
    cases hl
  | kill hfind hvalid _ =>
    refine .set_remove (by rw [hfind]; rfl) ⟨rfl, id, le_rfl, fun _ hinv => ?_, fun _ _ _ => rfl⟩
    rw [hvalid] at hinv
    cases hinv

section

variable (hm : MemOk σ)

include hm

lemma Touch.evolves (hne : i ≠ j) (hhere : here' ≠ here) (h : Touch σ here j σ') :
    Evolves σ σ' here' i := by
  have hd := h.drifts
  have hthread : some here ≠ some here' := fun heq => hhere (some.inj heq).symm
  have hwriter : ∀ {e}, (σ.heap e).writer = some j → (σ.heap e).writer ≠ some i := by
    intro e hw hw'
    rw [hw] at hw'
    exact hne (some.inj hw').symm
  cases h with
  | lock _ huse hfree =>
    refine .of_update hd rfl (fun hl => ?_) (huse.imp_right hwriter) (fun _ _ => rfl) fun h _ => h
    rw [hfree] at hl
    cases hl
  | unlock _ huse hheld =>
    refine .of_update hd rfl (fun hl => ?_) (huse.imp_right hwriter) (fun _ _ => rfl) fun h _ => h
    exact absurd (hheld.symm.trans hl) hthread
  | mark hlt hvalid hheld =>
    refine .of_update hd rfl (fun hl => ?_) (.inl (hm.valid hlt hvalid).1) (fun _ hinv => ?_)
      fun h _ => h
    · exact absurd (hheld.symm.trans hl) hthread
    · rw [hvalid] at hinv
      cases hinv
  | @insert k _ hfind =>
    refine .of_new hd rfl (find_insert σ k _) fun e he => ?_
    rw [hfind] at he
    cases he
  | @relink k e x hlive _ hmover hfind _ _ _ =>
    refine .of_new hd rfl (find_replace (by rw [hfind]; rfl) x) fun e' he => ?_
    rw [hfind] at he
    cases he
    refine ⟨hlive, fun heq => ?_⟩
    rw [hmover] at heq
    exact hne (some.inj heq).symm
  | @remove k e hfind hnew hw =>
    refine .of_update hd (e := e) (x := σ.heap e) (update_eq_self _ _).symm (fun _ => rfl)
      (.inr (hwriter hw)) (fun _ _ => rfl) fun {k' e'} hf hcase => ?_
    have hk : k' ≠ k := by
      rintro rfl
      rw [hfind] at hf
      cases hf
      rcases hcase with hcase | ⟨hl, -⟩
      · exact hcase rfl
      · rw [hnew] at hl
        cases hl
    rw [find_remove, if_neg hk, hf]

lemma Install.evolves (hne : i ≠ j) (hhere : here' ≠ here) (h : Install σ here j k v σ') :
    Evolves σ σ' here' i := by
  have hd := h.drifts
  have hthread : some here ≠ some here' := fun heq => hhere (some.inj heq).symm
  cases h with
  | update hfind hvalid hheld =>
    refine .of_update hd rfl (fun hl => ?_) (.inl (hm.valid (hm.linked hfind).1 hvalid).1)
      (fun _ _ => rfl) fun h _ => h
    exact absurd (hheld.symm.trans hl) hthread
  | validate _ _ hw hheld =>
    refine .of_update hd rfl (fun hl => ?_) (.inr fun hw' => ?_) (fun _ _ => rfl) fun h _ => h
    · exact absurd (hheld.symm.trans hl) hthread
    · rw [hw] at hw'
      exact hne (some.inj hw').symm
  | @kill e hfind hvalid hheld =>
    refine .of_update hd (e := e) (x := (σ.heap e).setInvalid true) rfl (fun hl => ?_)
      (.inl (hm.valid (hm.linked hfind).1 hvalid).1) (fun _ _ => rfl) fun {k' e'} hf hcase => ?_
    · exact absurd (hheld.symm.trans hl) hthread
    · have hk : k' ≠ k := by
        rintro rfl
        rw [hfind] at hf
        cases hf
        rcases hcase with hcase | ⟨-, hinv⟩
        · exact hcase rfl
        · rw [hvalid] at hinv
          cases hinv
      rw [find_remove, if_neg hk, find_set, hf]

/-! ### Memory stays well-formed -/

/-- An element changes where it stands. -/
lemma MemOk.set (hkey : x.key = (σ.heap e).key)
    (hx : e < σ.next → x.word.version.invalid = false → x.live ∧ σ.find x.key = some e) :
    MemOk (σ.set e x) := by
  refine ⟨fun {k e'} hfind => ?_, fun {e'} hlt hvalid => ?_⟩
  · obtain ⟨hlt, hk⟩ := hm.linked hfind
    refine ⟨hlt, ?_⟩
    by_cases h : e' = e
    · subst h
      rw [heap_set, update_self, hkey, hk]
    · rw [heap_set, update_of_ne h, hk]
  · by_cases h : e' = e
    · subst h
      simp only [heap_set, update_self, find_set] at hvalid ⊢
      exact hx hlt hvalid
    · simp only [heap_set, update_of_ne h, find_set] at hvalid ⊢
      exact hm.valid hlt hvalid

/-- A key comes or gets another element. -/
lemma MemOk.of_new (hheap : σ'.heap = update σ.heap σ.next x) (hnext : σ'.next = σ.next + 1)
    (hfind : ∀ k', σ'.find k' = if k' = k then some σ.next else σ.find k') (hkey : x.key = k)
    (hx : x.word.version.invalid = false → x.live)
    (hold : ∀ e, σ.find k = some e → (σ.heap e).word.version.invalid) : MemOk σ' := by
  refine ⟨fun {k' e'} hf => ?_, fun {e'} hlt hvalid => ?_⟩
  · rw [hfind] at hf
    split at hf
    · next heq =>
      cases hf
      rw [hheap, update_self, hnext, hkey, heq]
      exact ⟨Nat.lt_succ_self _, rfl⟩
    · obtain ⟨hlt, hk⟩ := hm.linked hf
      rw [hheap, update_of_ne hlt.ne, hnext]
      exact ⟨hlt.trans (Nat.lt_succ_self _), hk⟩
  · by_cases h : e' = σ.next
    · subst h
      simp only [hheap, update_self] at hvalid ⊢
      exact ⟨hx hvalid, by rw [hfind, if_pos hkey]⟩
    · rw [hnext] at hlt
      simp only [hheap, update_of_ne h] at hvalid ⊢
      obtain ⟨hl, hf⟩ := hm.valid (by omega) hvalid
      refine ⟨hl, ?_⟩
      have hk : (σ.heap e').key ≠ k := by
        intro heq
        rw [heq] at hf
        rw [hold e' hf] at hvalid
        cases hvalid
      rw [hfind, if_neg hk, hf]

/-- A key is removed whose element is invalid. -/
lemma MemOk.remove (hold : ∀ e, σ.find k = some e → (σ.heap e).word.version.invalid) :
    MemOk (σ.remove k) := by
  refine ⟨fun {k' e'} hf => ?_, fun {e'} hlt hvalid => ?_⟩
  · rw [find_remove] at hf
    split at hf
    · cases hf
    · exact hm.linked hf
  · obtain ⟨hl, hf⟩ := hm.valid hlt hvalid
    refine ⟨hl, ?_⟩
    have hk : ((σ.remove k).heap e').key ≠ k := by
      intro heq
      rw [heap_remove] at heq hvalid
      rw [heq] at hf
      rw [hold e' hf] at hvalid
      cases hvalid
    rw [find_remove, if_neg hk]
    exact hf

lemma MemOk.invalid_of_new (hlt : e < σ.next) (hnew : (σ.heap e).live = false) :
    (σ.heap e).word.version.invalid := by
  by_contra hvalid
  rw [Bool.not_eq_true] at hvalid
  rw [(hm.valid hlt hvalid).1] at hnew
  cases hnew

lemma Touch.memOk (h : Touch σ here j σ') : MemOk σ' := by
  cases h with
  | lock | unlock => exact hm.set rfl fun hlt hvalid => hm.valid hlt hvalid
  | mark =>
    refine hm.set rfl fun _ hvalid => ?_
    cases hvalid
  | @insert k v hfind =>
    refine hm.of_new rfl rfl (find_insert σ k _) rfl (fun h => ?_) fun e he => ?_
    · cases h
    · rw [hfind] at he
      cases he
  | @relink k e x _ hinvalid _ hfind hkey hxlive _ =>
    refine hm.of_new rfl rfl (find_replace (by rw [hfind]; rfl) x) hkey (fun _ => hxlive)
      fun e' he => ?_
    rw [hfind] at he
    cases he
    exact hinvalid
  | @remove k e hfind hnew _ =>
    refine hm.remove fun e' he => ?_
    rw [hfind] at he
    cases he
    exact hm.invalid_of_new (hm.linked hfind).1 hnew

lemma Install.memOk (h : Install σ here j k v σ') : MemOk σ' := by
  cases h with
  | update => exact hm.set rfl fun hlt hvalid => hm.valid hlt hvalid
  | validate hfind =>
    refine hm.set rfl fun _ _ => ⟨rfl, ?_⟩
    have hk := (hm.linked hfind).2
    rwa [← hk] at hfind
  | @kill e hfind _ _ =>
    have hset : MemOk (σ.set e ((σ.heap e).setInvalid true)) := by
      refine hm.set rfl fun _ hvalid => ?_
      cases hvalid
    refine hset.remove fun e' he => ?_
    rw [find_set, hfind] at he
    cases he
    rw [heap_set, update_self]
    rfl

end

/-! ### The value of a key -/

lemma Store.current_of_none (h : σ.find k = none) : σ.current k = none := by
  rw [current, h]
  rfl

lemma Store.current_of_live (h : σ.find k = some e) (hl : (σ.heap e).live) :
    σ.current k = some (σ.heap e).value := by
  rw [current, h]
  simp [hl]

lemma Store.current_of_new (h : σ.find k = some e) (hl : (σ.heap e).live = false) :
    σ.current k = none := by
  rw [current, h]
  simp [hl]

lemma Store.current_congr (hfind : σ'.find k = σ.find k)
    (hheap : ∀ e, σ.find k = some e → (σ'.heap e).live = (σ.heap e).live ∧
      (σ'.heap e).value = (σ.heap e).value) : σ'.current k = σ.current k := by
  rw [current, current, hfind]
  cases he : σ.find k with
  | none => rfl
  | some e =>
    obtain ⟨hl, hv⟩ := hheap e he
    simp only [bind_some, hl, hv]

/-- An element keeps its value where it stands. -/
lemma Store.current_set (hlive : x.live = (σ.heap e).live) (hvalue : x.value = (σ.heap e).value)
    (k : Key) : (σ.set e x).current k = σ.current k := by
  refine current_congr rfl fun e' _ => ?_
  by_cases h : e' = e
  · subst h
    rw [heap_set, update_self]
    exact ⟨hlive, hvalue⟩
  · rw [heap_set, update_of_ne h]
    exact ⟨rfl, rfl⟩

/-- The element of the key gets a value. -/
lemma Store.current_set_self (hfind : σ.find k = some e) (hlive : x.live) :
    (σ.set e x).current k = some x.value := by
  have hx : (σ.set e x).heap e = x := by rw [heap_set, update_self]
  have hcur := current_of_live (σ := σ.set e x) (k := k) (e := e) hfind (by rw [hx, hlive])
  rw [hcur, hx]

/-- An element changes, and no other key has it. -/
lemma Store.current_set_of_ne (hm : MemOk σ) (hfind : σ.find k = some e) (x : Object ι)
    {k' : Key} (hne : k' ≠ k) : (σ.set e x).current k' = σ.current k' := by
  refine current_congr rfl fun e' he' => ?_
  have h : e' ≠ e := by
    rintro rfl
    exact hne ((hm.linked he').2.symm.trans (hm.linked hfind).2)
  rw [heap_set, update_of_ne h]
  exact ⟨rfl, rfl⟩

lemma Touch.current (hm : MemOk σ) (h : Touch σ here j σ') (k : Key) :
    σ'.current k = σ.current k := by
  cases h with
  | lock | unlock | mark =>
    apply current_set
    · rfl
    · rfl
  | @insert k' v hfind =>
    by_cases hk : k = k'
    · subst hk
      have hnew : (σ.insert k (newObject j k v)).find k = some σ.next := by
        rw [find_insert, if_pos rfl]
      rw [current_of_none hfind, current_of_new hnew]
      rw [heap_insert, update_self]
      rfl
    · refine current_congr (by rw [find_insert, if_neg hk]) fun e he => ?_
      rw [heap_insert, update_of_ne (hm.linked he).1.ne]
      exact ⟨rfl, rfl⟩
  | @relink k' e x hlive _ _ hfind _ hxlive hvalue =>
    have hfind' := find_replace (by rw [hfind]; rfl) x
    by_cases hk : k = k'
    · subst hk
      have hnew : (σ.replace k x).heap σ.next = x := by rw [heap_replace, update_self]
      have hcur := current_of_live (σ := σ.replace k x) (k := k) (e := σ.next)
        (by rw [hfind', if_pos rfl]) (by rw [hnew, hxlive])
      rw [hcur, hnew, hvalue, current_of_live hfind hlive]
    · refine current_congr (by rw [hfind', if_neg hk]) fun e he => ?_
      rw [heap_replace, update_of_ne (hm.linked he).1.ne]
      exact ⟨rfl, rfl⟩
  | @remove k' e hfind hnew _ =>
    by_cases hk : k = k'
    · subst hk
      rw [current_of_new hfind hnew]
      exact current_of_none (by rw [find_remove, if_pos rfl])
    · exact current_congr (by rw [find_remove, if_neg hk]) fun e _ => ⟨rfl, rfl⟩

lemma Install.current (hm : MemOk σ) (h : Install σ here j k v σ') (k' : Key) :
    σ'.current k' = if k' = k then v else σ.current k' := by
  split
  · next hk =>
    subst hk
    cases h with
    | update hfind hvalid _ =>
      rw [current_set_self hfind]
      · rfl
      · exact (hm.valid (hm.linked hfind).1 hvalid).1
    | validate hfind _ _ _ =>
      rw [current_set_self hfind]
      · rfl
      · rfl
    | kill => exact current_of_none (by rw [find_remove, if_pos rfl])
  · next hk =>
    cases h with
    | update hfind | validate hfind => exact current_set_of_ne hm hfind _ hk
    | @kill e hfind _ _ =>
      rw [← current_set_of_ne hm hfind ((σ.heap e).setInvalid true) hk]
      exact current_congr (by rw [find_remove, if_neg hk]) fun _ _ => ⟨rfl, rfl⟩

end

end Rolis.Sto.Occ
