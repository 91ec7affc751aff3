import Rolis.Sto.OccItems

/-!
# What a transaction knows

An answer says something about keys, and the transaction has recorded why: the version of an element
for a key it has found, the version of a leaf for a key it has not found. `Evidence` is such a
record together with what it proves: as long as the recorded version is the current one, the answer
still holds. A key that the transaction has put into a tree itself needs no record, since nobody
else can install anything under it (`Mine`), and of a key that a scan has skipped there is none.

Evidence is kept by every change of memory, and by the items that come in.
-/

namespace Rolis.Sto.Occ

open Function List Store Option Occ.Txn

variable {M : Masstree} {ι : Type} {σ : Store M ι} {here : ℕ} {i : ι} {k : Key}
  {P : Option Bytes → Prop} {items : List (Item M.Node)} {skip : Key → Bool}

/-- `i` has put an element under the key that has never been valid. -/
def Mine (σ : Store M ι) (i : ι) (k : Key) : Prop :=
  ∃ e, σ.find k = some e ∧ (σ.heap e).live = false ∧ (σ.heap e).writer = some i

/-- The version is the current one, and no version of an invalid element. -/
def Holds (σ : Store M ι) : Ref M.Node → Stamp → Prop
  | .elem e, .word w => (σ.heap e).word.version = w.version ∧ w.version.invalid = false
  | .node table n, .version v => σ.nodeVersion (.node table n) = v
  | _, _ => False

/-- The version that `ld` has for `r` is the current one. -/
def Valid (σ : Store M ι) (ld : Ref M.Node → Option Stamp) (r : Ref M.Node) : Prop :=
  ∃ st, ld r = some st ∧ Holds σ r st

/-- As long as the version of `r` is the current one, `P` holds for what is under `k`. -/
inductive Evidence (σ : Store M ι) (i : ι) (ld : Ref M.Node → Option Stamp) (k : Key)
    (P : Option Bytes → Prop) : Ref M.Node → Prop
  | elem {e : ℕ} (hlead : (ld (.elem e)).isSome) (hlt : e < σ.next) (hkey : (σ.heap e).key = k)
    (h : Valid σ ld (.elem e) → P (some (σ.heap e).value)) : Evidence σ i ld k P (.elem e)
  | node {table : ℕ} {n : M.Node} (hlead : (ld (.node table n)).isSome)
    (h : Valid σ ld (.node table n) →
      σ.place k = .node table n ∧ (σ.find k = none ∨ Mine σ i k) ∧ P none) :
    Evidence σ i ld k P (.node table n)

/-- `P` holds for what is under `k`, or the transaction will notice, unless it has skipped the
key. -/
def Known (σ : Store M ι) (i : ι) (items : List (Item M.Node)) (skip : Key → Bool) (k : Key)
    (P : Option Bytes → Prop) : Prop :=
  (∀ v, P v) ∨ (P none ∧ (Mine σ i k ∨ skip k)) ∨ ∃ r, Evidence σ i (lead items) k P r

section

variable {σ' : Store M ι} {e : ℕ} {ld ld' : Ref M.Node → Option Stamp} {Q : Option Bytes → Prop}
  {r : Ref M.Node} {st : Stamp} {items' : List (Item M.Node)} {x : Object ι}

lemma Evidence.isSome (h : Evidence σ i ld k P r) : (ld r).isSome := by
  cases h with
  | elem hlead | node hlead => exact hlead

lemma Evidence.imp (h : Evidence σ i ld k P r) (hPQ : ∀ v, P v → Q v) : Evidence σ i ld k Q r := by
  cases h with
  | elem hlead hlt hkey h => exact .elem hlead hlt hkey fun hv => hPQ _ (h hv)
  | node hlead h => exact .node hlead fun hv => (h hv).imp_right (And.imp_right (hPQ none))

lemma Known.imp (h : Known σ i items skip k P) (hPQ : ∀ v, P v → Q v) :
    Known σ i items skip k Q := by
  rcases h with h | ⟨hnone, hmine⟩ | ⟨r, h⟩
  · exact .inl fun v => hPQ v (h v)
  · exact .inr (.inl ⟨hPQ none hnone, hmine⟩)
  · exact .inr (.inr ⟨r, h.imp hPQ⟩)

lemma Evidence.congr (hld : ld' r = ld r) (h : Evidence σ i ld k P r) : Evidence σ i ld' k P r := by
  have hvalid : Valid σ ld' r → Valid σ ld r := by
    rintro ⟨st, hst, hholds⟩
    exact ⟨st, hld ▸ hst, hholds⟩
  cases h with
  | elem hlead hlt hkey h => exact .elem (hld ▸ hlead) hlt hkey fun hv => h (hvalid hv)
  | node hlead h => exact .node (hld ▸ hlead) fun hv => h (hvalid hv)

lemma Known.extend (hext : Extends items items') (h : Known σ i items skip k P) :
    Known σ i items' skip k P :=
  h.imp_right (Or.imp_right (Exists.imp fun r hr => hr.congr (hext r hr.isSome)))

lemma Known.skipMore (h : Known σ i items skip k P) {skip' : Key → Bool}
    (hskip : skip k → skip' k) : Known σ i items skip' k P :=
  h.imp_right (Or.imp_left (And.imp_right (Or.imp_right hskip)))

/-! ## Memory changes -/

section

variable (hd : Drifts σ σ')

include hd

/-- A version that is current afterwards was current before. -/
lemma Holds.of_drift (hst : Stamped σ here r st) (h : Holds σ' r st) : Holds σ r st := by
  cases r with
  | elem e =>
    cases st with
    | version v => exact h.elim
    | word w =>
      obtain ⟨hlt, hcount, hlive, -⟩ := hst
      obtain ⟨hver, hvalid⟩ := h
      have hf := hd.follows hlt
      have hc : (σ.heap e).word.version.count = w.version.count :=
        le_antisymm (hver ▸ hf.count) hcount
      have hv : (σ.heap e).word.version.invalid = false := by
        by_contra hinv
        rw [Bool.not_eq_false] at hinv
        have hdead := (hf.dead (hlive hvalid) hinv).1
        rw [hver, hvalid] at hdead
        cases hdead
      refine ⟨?_, hvalid⟩
      rw [← hvalid] at hv
      generalize (σ.heap e).word.version = a at hc hv
      generalize w.version = b at hc hv
      cases a
      cases b
      cases hc
      cases hv
      rfl
  | node table n =>
    cases st with
    | word w => exact h.elim
    | version v =>
      have hle : v ≤ σ.nodeVersion (.node table n) := hst
      have hle' := hd.version (.node table n)
      have heq : σ'.nodeVersion (.node table n) = v := h
      exact le_antisymm (heq ▸ hle') hle

lemma Valid.of_drift (hst : ∀ st, ld r = some st → Stamped σ here r st) (h : Valid σ' ld r) :
    Valid σ ld r := by
  obtain ⟨st, hlead, hholds⟩ := h
  exact ⟨st, hlead, hholds.of_drift hd (hst st hlead)⟩

/-- The value of an element is the same as long as its version is. -/
lemma value_of_valid (hst : ∀ st, ld (.elem e) = some st → Stamped σ here (.elem e) st)
    (h : Valid σ' ld (.elem e)) : (σ'.heap e).value = (σ.heap e).value := by
  obtain ⟨st, hlead, hholds⟩ := h
  have hold := hholds.of_drift hd (hst st hlead)
  have hstamp := hst st hlead
  cases st with
  | version v => exact hstamp.elim
  | word w =>
    obtain ⟨hlt, -, hlive, -⟩ := hstamp
    refine (hd.follows hlt).same (hlive hholds.2) ?_ ?_
    · rw [hholds.1, hholds.2]
    · rw [hholds.1, hold.1]

lemma Evidence.drift (hmine : Mine σ i k → Mine σ' i k)
    (hst : ∀ r st, ld r = some st → Stamped σ here r st) (h : Evidence σ i ld k P r) :
    Evidence σ' i ld k P r := by
  cases h with
  | @elem e hlead hlt hkey h =>
    refine .elem hlead (hlt.trans_le hd.next_le) (by rw [(hd.follows hlt).key, hkey]) fun hv => ?_
    rw [value_of_valid hd (hst _) hv]
    exact h (hv.of_drift hd (hst _))
  | @node table n hlead h =>
    refine .node hlead fun hv => ?_
    obtain ⟨st, hst', hholds⟩ := hv
    have hold := hholds.of_drift hd (hst _ st hst')
    obtain ⟨hplace, hfind, hnone⟩ := h ⟨st, hst', hold⟩
    have hsame : σ'.nodeVersion (σ.place k) = σ.nodeVersion (σ.place k) := by
      rw [hplace]
      cases st with
      | word w => exact hholds.elim
      | version v =>
        have h₁ : σ'.nodeVersion (.node table n) = v := hholds
        have h₂ : σ.nodeVersion (.node table n) = v := hold
        rw [h₁, h₂]
    obtain ⟨hplace', hfind'⟩ := hd.place k hsame
    exact ⟨hplace'.trans hplace, hfind.imp hfind' hmine, hnone⟩

lemma Known.drift (hmine : Mine σ i k → Mine σ' i k)
    (hst : ∀ r st, lead items r = some st → Stamped σ here r st) (h : Known σ i items skip k P) :
    Known σ' i items skip k P := by
  rcases h with h | ⟨hnone, h⟩ | ⟨r, h⟩
  · exact .inl h
  · exact .inr (.inl ⟨hnone, h.imp_left hmine⟩)
  · exact .inr (.inr ⟨r, h.drift hd hmine hst⟩)

end

lemma Mine.evolve (hm : MemOk σ) (he : Evolves σ σ' here i) (h : Mine σ i k) : Mine σ' i k := by
  obtain ⟨e, hfind, hlive, hwriter⟩ := h
  obtain ⟨hlt, hkey⟩ := hm.linked hfind
  obtain ⟨hheap, hfind'⟩ := he.own hlt hlive hwriter (by rw [hkey, hfind])
  rw [hkey] at hfind'
  exact ⟨e, hfind', by rw [hheap, hlive], by rw [hheap, hwriter]⟩

/-- An element changes that is not among the inserted ones, or keeps what makes it one. -/
lemma Mine.set (hlive : x.live = (σ.heap e).live) (hwriter : x.writer = (σ.heap e).writer)
    (h : Mine σ i k) : Mine (σ.set e x) i k := by
  obtain ⟨e', hfind, hl, hw⟩ := h
  refine ⟨e', hfind, ?_, ?_⟩
  · by_cases he : e' = e
    · subst he
      rw [heap_set, update_self, hlive, hl]
    · rw [heap_set, update_of_ne he, hl]
  · by_cases he : e' = e
    · subst he
      rw [heap_set, update_self, hwriter, hw]
    · rw [heap_set, update_of_ne he, hw]

/-- A new element, in the place of none or of one that has been valid. -/
lemma Mine.of_new (hm : MemOk σ) {k' : Key} (hheap : σ'.heap = update σ.heap σ.next x)
    (hfind : ∀ k, σ'.find k = if k = k' then some σ.next else σ.find k)
    (hother : ∀ e, σ.find k' = some e → (σ.heap e).live) (h : Mine σ i k) : Mine σ' i k := by
  obtain ⟨e, hf, hl, hw⟩ := h
  have hk : k ≠ k' := by
    rintro rfl
    rw [hother e hf] at hl
    cases hl
  have he : σ'.heap e = σ.heap e := by rw [hheap, update_of_ne (hm.linked hf).1.ne]
  exact ⟨e, by rw [hfind, if_neg hk, hf], by rw [he, hl], by rw [he, hw]⟩

/-- Nobody else has an element under a key that the transaction has put there, nor has a valid
element of the key. -/
lemma Mine.eq (h : Mine σ i k) (hfind : σ.find k = some e) :
    (σ.heap e).live = false ∧ (σ.heap e).writer = some i := by
  obtain ⟨e', hf, hl, hw⟩ := h
  rw [hfind] at hf
  cases hf
  exact ⟨hl, hw⟩

end

/-! ## New keys -/

section

variable {t : Txn M.Node ι} {k' : Key} {v : Bytes} {grown : List ℕ}

/-- The items of the nodes that a split has made. -/
def newNodeItems (σ σ' : Store M ι) (k : Key) : List (Item M.Node) :=
  (M.newNodes (σ.trees k.1) k.2).map fun n => nodeItem k.1 n (σ'.version k.1 n)

/-- What `insertNew` does to the items: the first item of the leaf follows its version and items for
new nodes come in, if that item had the version from before; and the new element gets an item. -/
lemma insertNew_items (σ σ' : Store M ι) (t : Txn M.Node ι) (k : Key) (v : Bytes) :
    (t.insertNew σ σ' k v).items = t.items ++ [insertItem σ.next k v] ∨
    ∃ a x b, t.items = a ++ x :: b ∧ x.ref = σ.place k ∧ (∀ y ∈ a, y.ref ≠ σ.place k) ∧
      x.rdata = some (.version (σ.nodeVersion (σ.place k))) ∧
      (t.insertNew σ σ' k v).items =
        (a ++ { x with rdata := some (.version (σ'.nodeVersion (σ.place k))) } :: b) ++
          newNodeItems σ σ' k ++ [insertItem σ.next k v] := by
  cases hfind : t.items.find? fun it => it.ref = .node k.1 (σ.leaf k) with
  | none =>
    left
    simp [insertNew, updateNodeVersion, hfind]
  | some x =>
    by_cases hst : x.rdata = some (.version (σ.version k.1 (σ.leaf k)))
    · right
      obtain ⟨href, a, b, hsplit, ha⟩ := find?_eq_some_iff_append.mp hfind
      have href : x.ref = σ.place k := by simpa [place] using href
      replace ha : ∀ y ∈ a, y.ref ≠ σ.place k := by simpa [place] using ha
      refine ⟨a, x, b, hsplit, href, ha, hst, ?_⟩
      have hset : ∀ x' : Item M.Node, x'.ref = x.ref → setItem x' t.items = a ++ x' :: b := by
        intro x' hx'
        clear hfind
        rw [hsplit]
        clear hsplit
        induction a with
        | nil => simp [setItem, hx']
        | cons y a ih =>
          have hy : ¬ y.ref = x'.ref := by
            rw [hx', href]
            exact ha y (by simp)
          rw [cons_append, setItem, if_neg hy, ih fun z hz => ha z (by simp [hz])]
          rfl
      simp only [insertNew, updateNodeVersion, hfind, if_pos hst]
      rw [hset]
      · rfl
      · rfl
    · left
      simp [insertNew, updateNodeVersion, hfind, hst]

/-- The other fields stay. -/
lemma insertNew_eq (σ σ' : Store M ι) (t : Txn M.Node ι) (k : Key) (v : Bytes) :
    t.insertNew σ σ' k v = { t with items := (t.insertNew σ σ' k v).items } := by
  simp only [insertNew, updateNodeVersion]
  split
  · rfl
  · next heq =>
    split at heq
    · cases heq
    · split at heq
      · cases heq
        rfl
      · cases heq

/-- A new key changes only the versions of nodes. -/
lemma lead_insertNew (σ σ' : Store M ι) (t : Txn M.Node ι) (k : Key) (v : Bytes) (e : ℕ) :
    lead (t.insertNew σ σ' k v).items (.elem e) = lead t.items (.elem e) := by
  have hlast : ∀ items : List (Item M.Node),
      lead (items ++ [insertItem σ.next k v]) (.elem e) = lead items (.elem e) := by
    intro items
    rw [lead_append, lead_singleton]
    simp [insertItem]
  rcases insertNew_items σ σ' t k v with heq | ⟨a, x, b, hsplit, href, -, -, heq⟩
  · rw [heq, hlast]
  · have hnodes : lead (newNodeItems σ σ' k) (.elem e) = none := by
      rw [lead_eq_none_iff]
      intro it hit
      obtain ⟨n, -, rfl⟩ := mem_map.mp hit
      rintro ⟨⟩
    have hx : ∀ y : Item M.Node, y.ref = x.ref →
        lead (a ++ y :: b) (.elem e) = (lead a (.elem e)).or (lead b (.elem e)) := by
      intro y hy
      rw [lead_append_cons, if_neg (by rw [hy, href]; rintro ⟨⟩), none_or]
    rw [heq, hlast, lead_append, hnodes, or_none, hsplit, hx x rfl]
    exact hx _ rfl

/-- The item of a new element. -/
lemma Item.Enters.of_insert {σ' : Store M ι} (hlt : σ.next < σ'.next)
    (hkey : (σ'.heap σ.next).key = k) (hk : ∀ x ∈ items, x.wdata.isSome → x.key ≠ k) :
    (insertItem σ.next k v : Item M.Node).Enters σ' here items grown where
  ref e href := by
    cases href
    exact ⟨hlt, by rw [hkey]; rfl⟩
  read h := by cases h
  write _ := ⟨.insert rfl rfl rfl rfl, ⟨_, rfl, hkey⟩, hk⟩
  insert _ := rfl
  stamp _ h := by cases h
  update h := by cases h

lemma ItemsOk.add_nodes (h : ItemsOk σ here items grown) (table : ℕ) (ns : List M.Node) :
    ItemsOk σ here (items ++ ns.map fun n => nodeItem table n (σ.version table n)) grown := by
  induction ns using reverseRecOn with
  | nil => simpa using h
  | append_singleton ns n ih =>
    rw [map_append, ← append_assoc]
    exact ih.add (Adds.append _ _) (.of_node le_rfl)

lemma Linked.add_nodes {calls : List (Call × Result)} (h : Linked calls items) (table : ℕ)
    (f : M.Node → ℕ) (ns : List M.Node) :
    Linked calls (items ++ ns.map fun n => nodeItem table n (f n)) := by
  induction ns using reverseRecOn with
  | nil => simpa using h
  | append_singleton ns n ih =>
    rw [map_append, ← append_assoc]
    exact ih.add_read (Adds.append _ _) rfl

/-- The items stay in order when a new key comes in. -/
lemma ItemsOk.insertNew (h : ItemsOk σ here t.items t.grown) (hl : Linked t.calls t.items)
    (hfind : σ.find k = none) (hk : k ∉ written t.calls) (set : Bool) :
    ItemsOk (σ.insert k (newObject i k v)) here
        (t.insertNew σ (σ.insert k (newObject i k v)) k v).items t.grown ∧
      Linked (t.calls ++ [(writeCall set k v, .found false)])
        (t.insertNew σ (σ.insert k (newObject i k v)) k v).items := by
  have hd : Drifts σ (σ.insert k (newObject i k v)) := .insert hfind
  have hlt : σ.next < (σ.insert k (newObject i k v)).next := Nat.lt_succ_self _
  have hkey : ((σ.insert k (newObject i k v)).heap σ.next).key = k := by
    rw [heap_insert, update_self]
    rfl
  -- the last item, whatever comes before it
  have hlast : ∀ items, ItemsOk (σ.insert k (newObject i k v)) here items t.grown →
      Linked t.calls items →
      ItemsOk (σ.insert k (newObject i k v)) here (items ++ [insertItem σ.next k v]) t.grown ∧
        Linked (t.calls ++ [(writeCall set k v, .found false)])
          (items ++ [insertItem σ.next k v]) := by
    intro items hitems hlinked
    refine ⟨hitems.add (Adds.append _ _) (.of_insert hlt hkey (hlinked.not_mem hk)), ?_⟩
    refine hlinked.answer_write (Adds.append _ _) rfl hk (fun k' => ?_) fun k' hins => ⟨rfl, ?_⟩
    · cases set <;> rfl
    · cases set <;> exact hins
  rcases insertNew_items σ (σ.insert k (newObject i k v)) t k v with
    hitems | ⟨a, x, b, hsplit, href, -, hst, hitems⟩
  · rw [hitems]
    exact hlast _ (h.drift hd) hl
  · rw [hitems]
    have hx : x ∈ t.items := by rw [hsplit]; simp
    have hxw : x.wdata = none := by
      by_contra hw
      obtain ⟨-, e, he, -⟩ := h.write x hx (isSome_iff_ne_none.mpr hw)
      rw [href] at he
      cases he
    have hadds : Adds (a ++ x :: b) (a ++ { x with rdata := some (.version
          ((σ.insert k (newObject i k v)).nodeVersion (σ.place k))) } :: b)
        { x with rdata := some (.version
          ((σ.insert k (newObject i k v)).nodeVersion (σ.place k))) } :=
      Adds.replace rfl (by rw [hst]; rfl) rfl hxw
    rw [← hsplit] at hadds
    refine hlast _ (((h.drift hd).add hadds ?_).add_nodes k.1 _)
      ((hl.add_read hadds hxw).add_nodes k.1 _ _)
    refine ⟨fun e he => ?_, fun _ => ⟨rfl, (h.read x hx hxw).2⟩, fun hw => ?_, fun hins => ?_,
      fun st hst' => ?_, fun _ e hw => ?_⟩
    · rw [href] at he
      cases he
    · rw [hxw] at hw
      cases hw
    · rw [(h.read x hx hxw).2.1] at hins
      cases hins
    · cases hst'
      rw [href]
      exact le_refl _
    · rw [hxw] at hw
      cases hw.2

/-- A leaf that has got a new key of the transaction itself is still evidence: its item follows the
version, and keys that have moved to a new node have the item of that node. -/
lemma Known.insertNew (hm : MemOk σ) (h : ItemsOk σ here t.items t.grown)
    (hfind : σ.find k = none) (hknown : Known σ i t.items skip k' P) :
    Known (σ.insert k (newObject i k v)) i
      (t.insertNew σ (σ.insert k (newObject i k v)) k v).items skip k' P := by
  have hd : Drifts σ (σ.insert k (newObject i k v)) := .insert hfind
  have hmine : ∀ {k'}, Mine σ i k' → Mine (σ.insert k (newObject i k v)) i k' := by
    refine fun hmine => hmine.of_new hm rfl (find_insert σ k _) fun e he => ?_
    rw [hfind] at he
    cases he
  have hdrift : Known (σ.insert k (newObject i k v)) i t.items skip k' P :=
    hknown.drift hd hmine h.stamp
  rcases insertNew_items σ (σ.insert k (newObject i k v)) t k v with
    hitems | ⟨a, x, b, hsplit, href, ha, hst, hitems⟩
  · rw [hitems]
    exact hdrift.extend (Extends.append _ _)
  · rw [hitems]
    rcases hknown with hall | ⟨hnone, hmine'⟩ | ⟨r, hr⟩
    · exact .inl hall
    · exact .inr (.inl ⟨hnone, hmine'.imp_left hmine⟩)
    · by_cases hplace : r = σ.place k
      · subst hplace
        -- the item of the leaf had the version from before
        have hna : lead a (σ.place k) = none :=
          lead_eq_none_iff.mpr fun y hy hyr => absurd hyr (ha y hy)
        have hvalid : Valid σ (lead t.items) (σ.place k) := by
          refine ⟨.version (σ.nodeVersion (σ.place k)), ?_, rfl⟩
          rw [hsplit, lead_append_cons, hna, if_pos href, hst]
          rfl
        obtain ⟨hk', hf, hnone⟩ : σ.place k' = σ.place k ∧ (σ.find k' = none ∨ Mine σ i k') ∧
            P none := by
          generalize hr' : σ.place k = r at hr hvalid
          cases hr with
          | elem => cases hr'
          | node _ hr => exact hr hvalid
        have hf' : (σ.insert k (newObject i k v)).find k' = none ∨
            Mine (σ.insert k (newObject i k v)) i k' := by
          by_cases heq : k' = k
          · subst heq
            refine .inr ⟨σ.next, by rw [find_insert, if_pos rfl], ?_, ?_⟩
            · rw [heap_insert, update_self]
              rfl
            · rw [heap_insert, update_self]
              rfl
          · exact hf.imp (fun hf => by rw [find_insert, if_neg heq, hf]) hmine
        have htable : k'.1 = k.1 := by
          have hinj := hk'
          simp only [place, Ref.node.injEq] at hinj
          exact hinj.1
        have hleaf : M.leaf (σ.trees k.1) k'.2 = M.leaf (σ.trees k.1) k.2 := by
          have hinj := hk'
          simp only [place, Ref.node.injEq, leaf, htable] at hinj
          exact hinj.2
        have hplace' : (σ.insert k (newObject i k v)).place k' =
            .node k.1 (M.leaf (M.insert (σ.trees k.1) k.2 σ.next) k'.2) := by
          have htree : (σ.insert k (newObject i k v)).trees k'.1 =
              M.insert (σ.trees k.1) k.2 σ.next := by
            rw [htable]
            exact (trees_setTree σ k.1 _ k.1).trans (if_pos rfl)
          rw [place, leaf, htree, htable]
        refine .inr (.inr ?_)
        rcases M.leaf_insert_self (σ.trees k.1) k.2 σ.next k'.2 hleaf with hsame | hnew
        · -- the key has stayed in the leaf
          refine ⟨.node k.1 (σ.leaf k), .node ?_ fun _ => ⟨?_, hf', hnone⟩⟩
          · rw [append_assoc, lead_append, lead_append_cons]
            have hx : x.ref = Ref.node k.1 (σ.leaf k) := href
            simp [hx]
          · rw [hplace', hsame]
            rfl
        · -- the key has moved
          refine ⟨.node k.1 (M.leaf (M.insert (σ.trees k.1) k.2 σ.next) k'.2),
            .node ?_ fun _ => ⟨hplace', hf', hnone⟩⟩
          have hmem : nodeItem k.1 (M.leaf (M.insert (σ.trees k.1) k.2 σ.next) k'.2)
              ((σ.insert k (newObject i k v)).version k.1
                (M.leaf (M.insert (σ.trees k.1) k.2 σ.next) k'.2)) ∈
              newNodeItems σ (σ.insert k (newObject i k v)) k := mem_map_of_mem hnew
          exact lead_isSome (mem_append_left _ (mem_append_right _ hmem)) rfl
      · -- another element or node: its item stays
        refine .inr (.inr ⟨r, (hr.drift hd hmine h.stamp).congr ?_⟩)
        have hne : ¬ x.ref = r := by
          rw [href]
          exact fun heq => hplace heq.symm
        have hsome := hr.isSome
        have hbase : lead (a ++ { x with rdata := some (.version
            ((σ.insert k (newObject i k v)).nodeVersion (σ.place k))) } :: b) r =
            lead t.items r := by
          rw [hsplit, lead_append_cons, lead_append_cons]
          simp only [if_neg hne]
        rw [← hbase] at hsome ⊢
        rw [append_assoc, Extends.append _ _ r hsome]

end

end Rolis.Sto.Occ
