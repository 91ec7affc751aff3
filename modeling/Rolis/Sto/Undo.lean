import Mathlib.Data.List.Perm.Subperm
import Rolis.Sto.Abort

/-!
# What an abort undoes

`Undo` says what an abort finds after any calls: every key that was there has a valid element with
its value, though maybe a larger one, and every key that was inserted has an item, whose write value
is what the abort removes. From this it follows when the abort brings back what was there.
-/

namespace Rolis.Sto

open Function List Option Transaction TransItem

/-! ## Items of inserts -/

section

variable {t : Transaction} {m' : Mem} {table table' e e' : ℕ} {key : Bytes} {x : TransItem}
  {xs : List TransItem}

lemma item_mem_of_hasInsert (h : (t.item table e).hasInsert) : t.item table e ∈ t.items := by
  rcases item_cases t table e with ⟨a, b, -, hitems, -⟩ | ⟨-, hitem, -⟩
  · rw [hitems]
    simp
  · rw [hitem] at h
    cases h

lemma item_setItem_self (t : Transaction) (m' : Mem) (x : TransItem) :
    item ⟨m', setItem x t.items⟩ x.owner x.key = x := by
  have hfind : ∀ items, (setItem x items).find? (fun it => it.owner = x.owner ∧ it.key = x.key) =
      some x := by
    intro items
    induction items with
    | nil => simp [setItem]
    | cons y items ih =>
      by_cases hy : y.owner = x.owner ∧ y.key = x.key
      · simp [setItem, hy]
      · rw [setItem, if_neg hy, find?_cons_of_neg (by simpa using hy), ih]
  simp only [item]
  rw [hfind]
  rfl

lemma item_setItem_of_ne (h : e ≠ x.key) :
    item ⟨m', setItem x t.items⟩ table e = t.item table e := by
  have hfind : ∀ items, (setItem x items).find? (fun it => it.owner = table ∧ it.key = e) =
      items.find? (fun it => it.owner = table ∧ it.key = e) := by
    intro items
    induction items with
    | nil => simp [setItem, h.symm]
    | cons y items ih =>
      by_cases hy : y.owner = x.owner ∧ y.key = x.key
      · simp [setItem, hy, h.symm]
      · rw [setItem, if_neg hy, find?_cons, find?_cons, ih]
  simp only [item]
  rw [hfind]

lemma mem_of_mem_setItem {y : TransItem} {items : List TransItem} (h : y ∈ setItem x items) :
    y = x ∨ y ∈ items := by
  induction items with
  | nil => exact .inl (mem_singleton.mp h)
  | cons z items ih =>
    rw [setItem] at h
    split at h
    · exact (mem_cons.mp h).imp_right (mem_cons_of_mem z)
    · rcases mem_cons.mp h with rfl | h
      · exact .inr mem_cons_self
      · exact (ih h).imp_right (mem_cons_of_mem z)

/-- Items of other elements do not change the item of an element. -/
lemma item_append_of_ne (h : ∀ x ∈ xs, x.key ≠ e) :
    item ⟨m', t.items ++ xs⟩ table e = t.item table e := by
  have hnone : xs.find? (fun it => it.owner = table ∧ it.key = e) = none := by
    rw [find?_eq_none]
    intro x hx hmatch
    exact h x hx (by simpa using hmatch : _ ∧ _).2
  simp only [item]
  rw [find?_append, hnone, or_none]

/-- New items that insert nothing change no item that inserts. -/
lemma item_append_reads (t : Transaction) (m' : Mem) (table e : ℕ)
    (h : ∀ x ∈ xs, x.hasInsert = false) :
    (item ⟨m', t.items ++ xs⟩ table e).hasInsert = (t.item table e).hasInsert ∧
      ((t.item table e).hasInsert → item ⟨m', t.items ++ xs⟩ table e = t.item table e) := by
  simp only [item]
  rw [find?_append]
  cases hold : t.items.find? fun it => it.owner = table ∧ it.key = e with
  | some y => exact ⟨rfl, fun _ => rfl⟩
  | none =>
    rw [none_or]
    refine ⟨?_, by rintro ⟨⟩⟩
    cases hnew : xs.find? fun it => it.owner = table ∧ it.key = e with
    | none => rfl
    | some y => exact h y (mem_of_find?_eq_some hnew)

lemma insertedKeys_append (items : List TransItem) :
    insertedKeys (items ++ xs) = insertedKeys items ++ insertedKeys xs := by
  simp [insertedKeys]

lemma insertedKeys_reads (h : ∀ x ∈ xs, x.hasInsert = false) : insertedKeys xs = [] := by
  simpa [insertedKeys] using h

/-- Changing an item keeps the inserted keys. -/
lemma insertedKeys_setItem (howner : x.owner = table) (hkey : x.key = e)
    (hins : x.hasInsert = (t.item table e).hasInsert)
    (hextra : x.hasInsert → x.extra = (t.item table e).extra) :
    insertedKeys (setItem x t.items) = insertedKeys t.items := by
  have hitem := (item_owner t table e).1
  rcases item_cases t table e with ⟨a, b, -, hitems, hset⟩ | ⟨-, hitem, hset⟩
  · rw [hset x howner hkey, hitems]
    cases hx : x.hasInsert with
    | false =>
      rw [hx] at hins
      simp [insertedKeys, hx, ← hins]
    | true =>
      have hextra := hextra hx
      rw [hx] at hins
      simp [insertedKeys, hx, ← hins, hextra, howner, hitem]
  · have hx : x.hasInsert = false := by rw [hins, hitem]
    rw [hset x howner hkey, insertedKeys_append]
    simp [insertedKeys, hx]

end

/-! ## What the calls leave to be undone -/

section

variable {m : Mem} {ops ops' : List Op} {o : Op} {rest : List Op} {table : ℕ} {key : Bytes}

lemma undoKey_present (h : (m.find table key).isSome) : undoKey m ops table key = none := by
  rw [undoKey, if_pos h]

lemma undoKey_untouched (h : (callsOn ops table key).dropWhile Op.isDelete = []) :
    undoKey m ops table key = none := by
  rw [undoKey, h]
  split <;> rfl

lemma undoKey_inserted (hstart : m.find table key = none)
    (hcalls : (callsOn ops table key).dropWhile Op.isDelete = o :: rest) :
    undoKey m ops table key =
      some ((lastPut (rest.filter fun p => p.value.length ≤ capacityFor o.value.length)).getD
        key) := by
  rw [undoKey, hstart, hcalls]
  rfl

/-- The last put that fits, after one more call. -/
lemma lastPut_filter_append (p : Op → Bool) (rest : List Op) (o : Op) :
    lastPut ((rest ++ [o]).filter p) =
      if o.isPut ∧ p o then some o.value else lastPut (rest.filter p) := by
  rw [filter_append, filter_singleton]
  cases hp : p o with
  | false => simp
  | true =>
    simp only [cond_true, lastPut_append, and_true]

lemma undoKey_congr (h : callsOn ops' table key = callsOn ops table key) :
    undoKey m ops' table key = undoKey m ops table key := by
  rw [undoKey, undoKey, h]

/-- One more call on a key whose calls so far are deletes. -/
lemma dropWhile_callsOn_of_nil
    (h : (callsOn ops o.target.1 o.target.2).dropWhile Op.isDelete = []) :
    (callsOn (ops ++ [o]) o.target.1 o.target.2).dropWhile Op.isDelete =
      [o].dropWhile Op.isDelete := by
  have hself : callsOn (ops ++ [o]) o.target.1 o.target.2 =
      callsOn ops o.target.1 o.target.2 ++ [o] := callsOn_append_self rfl
  rw [hself, dropWhile_append, h]
  rfl

/-- One more call on a key that is inserted. -/
lemma dropWhile_callsOn_of_cons {o' : Op}
    (h : (callsOn ops o.target.1 o.target.2).dropWhile Op.isDelete = o' :: rest) :
    (callsOn (ops ++ [o]) o.target.1 o.target.2).dropWhile Op.isDelete = o' :: (rest ++ [o]) := by
  have hself : callsOn (ops ++ [o]) o.target.1 o.target.2 =
      callsOn ops o.target.1 o.target.2 ++ [o] := callsOn_append_self rfl
  rw [hself, dropWhile_append, h]
  rfl

/-- A key that is undone is a key of some call. -/
lemma exists_op_of_undoKey (h : (undoKey m ops table key).isSome) :
    ∃ o ∈ ops, o.target = (table, key) := by
  by_contra hno
  have hnil := callsOn_eq_nil fun o ho htarget => hno ⟨o, ho, htarget⟩
  rw [undoKey_untouched (by rw [hnil]; rfl)] at h
  cases h

end

/-- What the abort removes for an inserted key. -/
def removal (m : Mem) (ops : List Op) (k : ℕ × Bytes) : ℕ × Bytes :=
  (k.1, (undoKey m ops k.1 k.2).getD [])

/-- What an abort finds under a key. A key that was not there is missing still, or its element is
one that an item inserts, or a copy of such an element, which is no good to any call. -/
inductive UndoState (m : Mem) (ops : List Op) (t : Transaction) (table : ℕ) (key : Bytes) : Prop
  | present {e : ℕ} (hstart : (m.find table key).isSome) (hfind : t.mem.find table key = some e)
    (hvalid : (t.mem.heap e).version.invalid = false)
    (hvalue : m.committed table key = some (t.mem.heap e).value)
    (hitem : (t.item table e).hasInsert = false)
  | untouched (hstart : m.find table key = none)
    (hcalls : (callsOn ops table key).dropWhile Op.isDelete = [])
    (hfind : t.mem.find table key = none)
  | inserted {e : ℕ} {o : Op} {rest : List Op} (hstart : m.find table key = none)
    (hcalls : (callsOn ops table key).dropWhile Op.isDelete = o :: rest)
    (hfind : t.mem.find table key = some e) (hinvalid : (t.mem.heap e).version.invalid)
    (hroom : (t.mem.heap e).capacity = capacityFor o.value.length)
    (hitem : (t.item table e).hasInsert) (hextra : (t.item table e).extra = key)
  | moved {e : ℕ} {o : Op} {rest : List Op} (hstart : m.find table key = none)
    (hcalls : (callsOn ops table key).dropWhile Op.isDelete = o :: rest)
    (hfind : t.mem.find table key = some e) (hinvalid : (t.mem.heap e).version.invalid)
    (hitem : (t.item table e).hasInsert = false) (hmem : (table, key) ∈ insertedKeys t.items)

/-- The transaction after some calls, as its abort finds it. -/
structure Undo (m : Mem) (ops : List Op) (t : Transaction) : Prop where
  wf : t.mem.WellFormed
  lt_next : ∀ it ∈ t.items, it.key < t.mem.next
  owner : ∀ it ∈ t.items, ∀ {table key}, t.mem.find table key = some it.key → it.owner = table
  once : t.items.Pairwise fun a b => a.key = b.key → b.wdata = none
  nodup : (insertedKeys t.items).Nodup
  write : ∀ it ∈ t.items, it.hasInsert →
    it.wdata.isSome ∧ it.wdata = undoKey m ops it.owner it.extra
  state : ∀ table key, UndoState m ops t table key

section

variable {m : Mem} {ops ops' : List Op} {t t' : Transaction} {o : Op} {table e : ℕ} {key : Bytes}

/-- A key whose element, item and calls are the same is in the same state. -/
lemma UndoState.frame (h : UndoState m ops t table key)
    (hcalls : callsOn ops' table key = callsOn ops table key)
    (hfind : t'.mem.find table key = t.mem.find table key)
    (hheap : ∀ e, t.mem.find table key = some e → t'.mem.heap e = t.mem.heap e)
    (hitem : ∀ e, t.mem.find table key = some e →
      (t'.item table e).hasInsert = (t.item table e).hasInsert ∧
        ((t.item table e).hasInsert → (t'.item table e).extra = (t.item table e).extra))
    (hmem : (table, key) ∈ insertedKeys t.items → (table, key) ∈ insertedKeys t'.items) :
    UndoState m ops' t' table key := by
  cases h with
  | present hstart hfound hvalid hvalue hins =>
    exact .present hstart (hfind.trans hfound) (hheap _ hfound ▸ hvalid) (hheap _ hfound ▸ hvalue)
      ((hitem _ hfound).1.trans hins)
  | untouched hstart hnone hfound => exact .untouched hstart (hcalls ▸ hnone) (hfind.trans hfound)
  | inserted hstart hsome hfound hinvalid hroom hins hextra =>
    exact .inserted hstart (hcalls ▸ hsome) (hfind.trans hfound) (hheap _ hfound ▸ hinvalid)
      (hheap _ hfound ▸ hroom) ((hitem _ hfound).1.trans hins)
      (((hitem _ hfound).2 hins).trans hextra)
  | moved hstart hsome hfound hinvalid hins hkey =>
    exact .moved hstart (hcalls ▸ hsome) (hfind.trans hfound) (hheap _ hfound ▸ hinvalid)
      ((hitem _ hfound).1.trans hins) (hmem hkey)

namespace Undo

lemma start (hm : m.Quiet) : Undo m [] ⟨m, []⟩ where
  wf := hm.toWellFormed
  lt_next := forall_mem_nil _
  owner := forall_mem_nil _
  once := .nil
  nodup := .nil
  write := forall_mem_nil _
  state table key := by
    cases hfind : m.find table key with
    | none => exact .untouched hfind rfl hfind
    | some e =>
      exact .present (by rw [hfind]; rfl) hfind (hm.valid hfind)
        (Mem.committed_of_find hfind (hm.valid hfind)) rfl

section

variable (h : Undo m ops t)

include h

/-- A call that only adds items that read. -/
lemma reads {xs : List TransItem} (hxs : ∀ x ∈ xs, x.wdata = none ∧ x.hasInsert = false ∧
      ∃ key, t.mem.find x.owner key = some x.key) :
    Undo m ops { t with items := t.items ++ xs } where
  wf := h.wf
  lt_next it hit := by
    rcases mem_append.mp hit with hit | hit
    · exact h.lt_next it hit
    · obtain ⟨-, -, key, hfind⟩ := hxs it hit
      exact h.wf.lt_next hfind
  owner it hit table key hfind := by
    rcases mem_append.mp hit with hit | hit
    · exact h.owner it hit hfind
    · obtain ⟨-, -, key', hfind'⟩ := hxs it hit
      exact ((h.wf.inj hfind' hfind).1).symm
  once := by
    refine pairwise_append.mpr ⟨h.once, ?_, fun _ _ x hx _ => (hxs x hx).1⟩
    exact pairwise_of_forall_mem_list fun _ _ x hx _ => (hxs x hx).1
  nodup := by
    rw [insertedKeys_append, insertedKeys_reads fun x hx => (hxs x hx).2.1, append_nil]
    exact h.nodup
  write it hit hins := by
    rcases mem_append.mp hit with hit | hit
    · exact h.write it hit hins
    · rw [(hxs it hit).2.1] at hins
      cases hins
  state table key := by
    refine (h.state table key).frame rfl rfl (fun _ _ => rfl) (fun e _ => ?_) fun hmem => ?_
    · obtain ⟨hins, hsame⟩ := item_append_reads t t.mem table e fun x hx => (hxs x hx).2.1
      exact ⟨hins, fun hitem => congrArg extra (hsame hitem)⟩
    · rw [insertedKeys_append]
      exact mem_append_left _ hmem

/-- The item that inserts an element has its key. -/
lemma extra_eq (hfind : t.mem.find table key = some e) (hins : (t.item table e).hasInsert) :
    (t.item table e).extra = key := by
  cases h.state table key with
  | present _ hfind' _ _ hitem | moved _ _ hfind' _ hitem _ =>
    rw [hfind] at hfind'
    cases hfind'
    rw [hins] at hitem
    cases hitem
  | untouched _ _ hfind' =>
    rw [hfind] at hfind'
    cases hfind'
  | inserted _ _ hfind' _ _ _ hextra =>
    rw [hfind] at hfind'
    cases hfind'
    exact hextra

/-- A call that changes the item of the element of its key. -/
lemma change (hfind : t.mem.find table key = some e) {x : TransItem} (howner : x.owner = table)
    (hkey : x.key = e) (hins : x.hasInsert = (t.item table e).hasInsert)
    (hextra : x.hasInsert → x.extra = key)
    (hcalls : ∀ {table' key'}, ¬ (table' = table ∧ key' = key) →
      callsOn ops' table' key' = callsOn ops table' key')
    (hwrite : x.hasInsert → x.wdata.isSome ∧ x.wdata = undoKey m ops' table key)
    (hundo : x.hasInsert = false → undoKey m ops' table key = undoKey m ops table key)
    (hstate : UndoState m ops' { t with items := setItem x t.items } table key) :
    Undo m ops' { t with items := setItem x t.items } := by
  have hextra' : x.hasInsert → x.extra = (t.item table e).extra := by
    intro hx
    rw [hextra hx, h.extra_eq hfind (hins ▸ hx)]
  have hkeys := insertedKeys_setItem howner hkey hins hextra'
  refine ⟨h.wf, ?_, ?_, ?_, hkeys ▸ h.nodup, ?_, ?_⟩
  · intro it hit
    rcases mem_of_mem_setItem hit with rfl | hit
    · exact hkey ▸ h.wf.lt_next hfind
    · exact h.lt_next it hit
  · intro it hit table' key' hfind'
    rcases mem_of_mem_setItem hit with rfl | hit
    · rw [hkey] at hfind'
      exact howner.trans (h.wf.inj hfind hfind').1.symm
    · exact h.owner it hit hfind'
  · -- the item is the first one of its element
    have hitem := (item_owner t table e).2
    rcases item_cases t table e with ⟨a, b, ha, hitems, hset⟩ | ⟨hnone, -, hset⟩
    · have hfirst : ∀ y ∈ a, y.key ≠ e := by
        intro y hy hye
        refine ha y hy ⟨h.owner y ?_ (hye ▸ hfind), hye⟩
        rw [hitems]
        exact mem_append_left _ hy
      have honce := h.once
      dsimp only
      rw [hset x howner hkey]
      rw [hitems] at honce
      simp only [pairwise_append, pairwise_cons, mem_cons, forall_eq_or_imp] at honce ⊢
      obtain ⟨hfront, ⟨hback, htail⟩, hcross⟩ := honce
      refine ⟨hfront, ⟨fun y hy hxy => hback y hy ?_, htail⟩, fun y hy => ⟨fun hyx => ?_, ?_⟩⟩
      · rw [hitem, ← hkey, hxy]
      · exact absurd (hyx.trans hkey) (hfirst y hy)
      · exact (hcross y hy).2
    · dsimp only
      rw [hset x howner hkey]
      refine pairwise_append.mpr ⟨h.once, pairwise_singleton _ _, ?_⟩
      intro y hy z hz hyz
      rw [mem_singleton.mp hz, hkey] at hyz
      exact absurd ⟨h.owner y hy (hyz ▸ hfind), hyz⟩ (hnone y hy)
  · intro it hit hit'
    -- the other items insert other keys
    have hother : ∀ y ∈ t.items, y.hasInsert → ¬ (y.owner = table ∧ y.extra = key) →
        y.wdata.isSome ∧ y.wdata = undoKey m ops' y.owner y.extra := by
      intro y hy hyins hne
      rw [undoKey_congr (hcalls hne)]
      exact h.write y hy hyins
    cases hx : x.hasInsert with
    | false =>
      rcases mem_of_mem_setItem hit with rfl | hit
      · rw [hx] at hit'
        cases hit'
      · by_cases hself : it.owner = table ∧ it.extra = key
        · rw [hself.1, hself.2, hundo hx, ← hself.1, ← hself.2]
          exact h.write it hit hit'
        · exact hother it hit hit' hself
    | true =>
      have hitem := hins.symm.trans hx
      obtain ⟨a, b, -, hitems, hset⟩ | ⟨-, hnew, -⟩ := item_cases t table e
      · have hne : ∀ y ∈ a ++ b, y.hasInsert → ¬ (y.owner = table ∧ y.extra = key) := by
          intro y hy hyins hself
          have hnodup := h.nodup
          rw [hitems, insertedKeys, filter_append, filter_cons_of_pos hitem,
            map_append, map_cons, nodup_middle, ← map_append,
            ← filter_append, nodup_cons] at hnodup
          refine hnodup.1 (mem_map.mpr ⟨y, mem_filter.mpr ⟨hy, hyins⟩, ?_⟩)
          rw [hself.1, hself.2, (item_owner t table e).1, h.extra_eq hfind hitem]
        dsimp only at hit
        rw [hset x howner hkey] at hit
        by_cases hself : it = x
        · rw [hself, howner, hextra hx]
          exact hwrite hx
        · have hab : it ∈ a ++ b := by
            simp only [mem_append, mem_cons, hself, false_or] at hit ⊢
            exact hit
          refine hother it ?_ hit' (hne it hab hit')
          rw [hitems]
          simp only [mem_append, mem_cons] at hab ⊢
          exact hab.imp_right .inr
      · rw [hnew] at hitem
        cases hitem
  · intro table' key'
    by_cases hself : table' = table ∧ key' = key
    · obtain ⟨rfl, rfl⟩ := hself
      exact hstate
    · refine (h.state table' key').frame (hcalls hself) rfl (fun _ _ => rfl) (fun e' hfind' => ?_)
        fun hmem => hkeys.symm ▸ hmem
      have hne : e' ≠ x.key := by
        rintro rfl
        exact hself (h.wf.inj (hkey.symm ▸ hfind) hfind')
      rw [item_setItem_of_ne hne]
      exact ⟨rfl, fun _ => rfl⟩

/-- What has to be shown for a call that puts a new element under its key: the items it changes
are those of another element of the key, and the item of the new element has a write. -/
lemma alloc {m₁ : Mem} {x : Elem} {it : TransItem} (hm₁ : m₁.find = t.mem.find)
    (hnext : m₁.next = t.mem.next) (hwf : m₁.WellFormed)
    (hheap : ∀ table' key' e, ¬ (table' = table ∧ key' = key) →
      t.mem.find table' key' = some e → m₁.heap e = t.mem.heap e) (howner : it.owner = table)
    (hkey : it.key = t.mem.next)
    (hextra : it.hasInsert → it.extra = key ∧ (table, key) ∉ insertedKeys t.items)
    (hcalls : ∀ {table' key'}, ¬ (table' = table ∧ key' = key) →
      callsOn ops' table' key' = callsOn ops table' key')
    (hwrite : it.hasInsert → it.wdata.isSome ∧ it.wdata = undoKey m ops' table key)
    (hundo : (table, key) ∈ insertedKeys t.items →
      undoKey m ops' table key = undoKey m ops table key)
    (hstate : UndoState m ops' ⟨m₁.alloc table key x, t.items ++ [it]⟩ table key) :
    Undo m ops' ⟨m₁.alloc table key x, t.items ++ [it]⟩ := by
  have hfind : ∀ {table' key'}, ¬ (table' = table ∧ key' = key) →
      (m₁.alloc table key x).find table' key' = t.mem.find table' key' := by
    intro table' key' hne
    rw [Mem.find_alloc_of_ne hne, hm₁]
  refine ⟨hwf.alloc table key x, ?_, ?_, ?_, ?_, ?_, ?_⟩
  · intro y hy
    rw [Mem.next_alloc, hnext]
    rcases mem_append.mp hy with hy | hy
    · exact Nat.lt_succ_of_lt (h.lt_next y hy)
    · rw [mem_singleton.mp hy, hkey]
      exact Nat.lt_succ_self _
  · intro y hy table' key' hfind'
    rw [Mem.find_alloc, hnext, hm₁] at hfind'
    rcases mem_append.mp hy with hy | hy
    · split at hfind'
      · have hlt := h.lt_next y hy
        rw [← some.inj hfind'] at hlt
        exact absurd hlt (Nat.lt_irrefl _)
      · exact h.owner y hy hfind'
    · rw [mem_singleton.mp hy] at hfind' ⊢
      split at hfind'
      · next hself => exact howner.trans hself.1.symm
      · rw [hkey] at hfind'
        exact absurd (h.wf.lt_next hfind') (Nat.lt_irrefl _)
  · -- no item is of the new address yet
    refine pairwise_append.mpr ⟨h.once, pairwise_singleton _ _, ?_⟩
    intro y hy z hz hyz
    rw [mem_singleton.mp hz, hkey] at hyz
    exact absurd hyz (h.lt_next y hy).ne
  · dsimp only
    rw [insertedKeys_append]
    cases hins : it.hasInsert with
    | false => simpa [insertedKeys, hins] using h.nodup
    | true =>
      obtain ⟨hextra, hnew⟩ := hextra hins
      have hsingle : insertedKeys [it] = [(table, key)] := by
        simp [insertedKeys, hins, howner, hextra]
      rw [hsingle, nodup_append]
      refine ⟨h.nodup, nodup_singleton _, fun k hk k' hk' heq => hnew ?_⟩
      rw [← mem_singleton.mp hk', ← heq]
      exact hk
  · intro y hy hyins
    rcases mem_append.mp hy with hy | hy
    · have hold := h.write y hy hyins
      by_cases hself : y.owner = table ∧ y.extra = key
      · have hmem : (table, key) ∈ insertedKeys t.items := by
          rw [← hself.1, ← hself.2]
          exact mem_map.mpr ⟨y, mem_filter.mpr ⟨hy, hyins⟩, rfl⟩
        rw [hself.1, hself.2] at hold ⊢
        rw [hundo hmem]
        exact hold
      · rw [undoKey_congr (hcalls hself)]
        exact hold
    · rw [mem_singleton.mp hy] at hyins ⊢
      rw [howner, (hextra hyins).1]
      exact hwrite hyins
  · intro table' key'
    by_cases hself : table' = table ∧ key' = key
    · obtain ⟨rfl, rfl⟩ := hself
      exact hstate
    · refine (h.state table' key').frame (hcalls hself) (hfind hself) (fun e' hfind' => ?_)
        (fun e' hfind' => ?_) fun hmem => ?_
      · have hne : e' ≠ m₁.next := by
          rw [hnext]
          exact (h.wf.lt_next hfind').ne
        rw [Mem.heap_alloc, update_of_ne hne, hheap table' key' e' hself hfind']
      · have hne : ∀ y ∈ [it], y.key ≠ e' := by
          intro y hy
          rw [mem_singleton.mp hy, hkey]
          exact (h.wf.lt_next hfind').ne'
        rw [item_append_of_ne hne]
        exact ⟨rfl, fun _ => rfl⟩
      · dsimp only
        rw [insertedKeys_append]
        exact mem_append_left _ hmem

/-- The inserted keys are those that have something to undo. -/
lemma mem_insertedKeys_iff :
    (table, key) ∈ insertedKeys t.items ↔ (undoKey m ops table key).isSome := by
  constructor
  · intro hmem
    obtain ⟨it, hit, heq⟩ := mem_map.mp hmem
    obtain ⟨hit, hins⟩ := mem_filter.mp hit
    cases heq
    obtain ⟨hsome, hw⟩ := h.write it hit hins
    rwa [← hw]
  · intro hsome
    cases h.state table key with
    | present hstart =>
      rw [undoKey_present hstart] at hsome
      cases hsome
    | untouched _ hcalls =>
      rw [undoKey_untouched hcalls] at hsome
      cases hsome
    | @inserted e _ _ _ _ hfind _ _ hitem hextra =>
      refine mem_map.mpr ⟨t.item table e, mem_filter.mpr ⟨item_mem_of_hasInsert hitem, hitem⟩, ?_⟩
      rw [(item_owner t table e).1, hextra]
    | moved _ _ _ _ _ hmem => exact hmem

/-- A key that no table has is not inserted. -/
lemma untouched_of_find (hfind : t.mem.find table key = none) :
    m.find table key = none ∧ (callsOn ops table key).dropWhile Op.isDelete = [] := by
  cases h.state table key with
  | untouched hstart hcalls => exact ⟨hstart, hcalls⟩
  | present _ hfind' | inserted _ _ hfind' | moved _ _ hfind' =>
    rw [hfind] at hfind'
    cases hfind'

lemma not_mem_of_find (hfind : t.mem.find table key = none) :
    (table, key) ∉ insertedKeys t.items := by
  rw [h.mem_insertedKeys_iff, undoKey_untouched (h.untouched_of_find hfind).2]
  rintro ⟨⟩

end

lemma callsOn_ne (ops : List Op) {table' : ℕ} {key' : Bytes}
    (hne : ¬ (table' = o.target.1 ∧ key' = o.target.2)) :
    callsOn (ops ++ [o]) table' key' = callsOn ops table' key' :=
  callsOn_append_of_ne fun heq => hne (by rw [heq]; exact ⟨rfl, rfl⟩)

section

variable (h : Undo m ops t)

include h

/-- A delete of a key that is not there. -/
lemma missed (hdelete : o.isDelete) (hfind : t.mem.find o.target.1 o.target.2 = none) :
    Undo m (ops ++ [o]) t := by
  obtain ⟨hstart, hcalls⟩ := h.untouched_of_find hfind
  have hnone : (callsOn (ops ++ [o]) o.target.1 o.target.2).dropWhile Op.isDelete = [] := by
    rw [dropWhile_callsOn_of_nil hcalls]
    simp [hdelete]
  refine ⟨h.wf, h.lt_next, h.owner, h.once, h.nodup, ?_, ?_⟩
  · intro it hit hins
    have hne : ¬ (it.owner = o.target.1 ∧ it.extra = o.target.2) := by
      intro hself
      refine h.not_mem_of_find hfind (mem_map.mpr ⟨it, mem_filter.mpr ⟨hit, hins⟩, ?_⟩)
      rw [hself.1, hself.2]
    rw [undoKey_congr (callsOn_ne ops hne)]
    exact h.write it hit hins
  · intro table' key'
    by_cases hself : table' = o.target.1 ∧ key' = o.target.2
    · rw [hself.1, hself.2]
      exact .untouched hstart hnone hfind
    · exact (h.state table' key').frame (callsOn_ne ops hself) rfl (fun _ _ => rfl)
        (fun _ _ => ⟨rfl, fun _ => rfl⟩) id

/-- A new item of the next address is the item of that address. -/
lemma item_next (m' : Mem) (it : TransItem) (howner : it.owner = table)
    (hkey : it.key = t.mem.next) :
    item ⟨m', t.items ++ [it]⟩ table t.mem.next = it := by
  have hnone : t.items.find? (fun it => it.owner = table ∧ it.key = t.mem.next) = none := by
    rw [find?_eq_none]
    intro y hy hmatch
    exact (h.lt_next y hy).ne (by simpa using hmatch : _ ∧ _).2
  simp only [item]
  rw [find?_append, hnone]
  simp [howner, hkey]

/-- A put or an insert of a key that is not there. -/
lemma insertNew (hdelete : o.isDelete = false) (hfind : t.mem.find o.target.1 o.target.2 = none) :
    Undo m (ops ++ [o]) (t.insertNew o.target.1 o.target.2 o.value o.target.2) := by
  obtain ⟨hstart, hcalls⟩ := h.untouched_of_find hfind
  have hnew := h.not_mem_of_find hfind
  have hsome : (callsOn (ops ++ [o]) o.target.1 o.target.2).dropWhile Op.isDelete = [o] := by
    rw [dropWhile_callsOn_of_nil hcalls]
    simp [hdelete]
  have hitem := h.item_next (t.mem.alloc o.target.1 o.target.2 (Elem.make o.value))
    ⟨o.target.1, t.mem.next, none, some o.target.2, true, false, o.target.2⟩ rfl rfl
  refine h.alloc rfl rfl h.wf (fun _ _ _ _ _ => rfl) rfl rfl (fun _ => ⟨rfl, hnew⟩)
    (callsOn_ne ops) (fun _ => ⟨rfl, ?_⟩) (fun hmem => absurd hmem hnew) ?_
  · rw [undoKey_inserted hstart hsome]
    rfl
  · refine .inserted hstart hsome (Mem.find_alloc_self ..) ?_ ?_ ?_ ?_
    · rw [Mem.heap_alloc, update_self]
      rfl
    · rw [Mem.heap_alloc, update_self]
      rfl
    · rw [hitem]
    · rw [hitem]

/-- A call that finds the key and has room for its value. -/
lemma found (hfind : t.mem.find o.target.1 o.target.2 = some e)
    (hvalid : (t.mem.heap e).version.invalid → (t.item o.target.1 e).hasInsert ∧ o.isDelete = false)
    (hfits : o.isPut → o.value.length ≤ (t.mem.heap e).capacity) :
    Undo m (ops ++ [o]) { t with items := setItem (t.touched o e) t.items } := by
  obtain ⟨howner, hkey⟩ := item_owner t o.target.1 e
  have hself : item ⟨t.mem, setItem (t.touched o e) t.items⟩ o.target.1 e = t.touched o e := by
    have hitem := item_setItem_self t t.mem (t.touched o e)
    rwa [show (t.touched o e).owner = o.target.1 from howner,
      show (t.touched o e).key = e from hkey] at hitem
  cases h.state o.target.1 o.target.2 with
  | untouched _ _ hfind' =>
    rw [hfind] at hfind'
    cases hfind'
  | moved _ _ hfind' hinvalid hitem =>
    rw [hfind] at hfind'
    cases hfind'
    rw [(hvalid hinvalid).1] at hitem
    cases hitem
  | present hstart hfind' hval hvalue hitem =>
    rw [hfind] at hfind'
    cases hfind'
    have hins : (t.touched o e).hasInsert = false := hitem
    refine h.change hfind howner hkey rfl (fun hx => ?_) (callsOn_ne ops) (fun hx => ?_)
      (fun _ => ?_) (.present hstart hfind hval hvalue (by rw [hself]; exact hins))
    · rw [hins] at hx
      cases hx
    · rw [hins] at hx
      cases hx
    · rw [undoKey_present hstart, undoKey_present hstart]
  | @inserted _ o' rest hstart hcalls hfind' hinvalid hroom hitem hextra =>
    rw [hfind] at hfind'
    cases hfind'
    have hcalls' := dropWhile_callsOn_of_cons hcalls
    have hafter : (t.touched o e).extra = o.target.2 := by
      simp [TransItem.after, TransItem.observe, hextra]
    have hdel := (hvalid hinvalid).2
    refine h.change hfind howner hkey rfl (fun _ => hafter) (callsOn_ne ops) (fun _ => ?_)
      (fun hx => ?_)
      (.inserted hstart hcalls' hfind hinvalid hroom (by rw [hself]; exact hitem)
        (by rw [hself, hafter]))
    · obtain ⟨-, hw⟩ := h.write _ (item_mem_of_hasInsert hitem) hitem
      rw [howner, hextra, undoKey_inserted hstart hcalls] at hw
      rw [undoKey_inserted hstart hcalls']
      simp only [TransItem.after, TransItem.observe, hw, lastPut_filter_append]
      cases o with
      | put table key value =>
        have hfit : (Op.put table key value).value.length ≤ capacityFor o'.value.length :=
          hroom ▸ hfits rfl
        rw [if_pos ⟨rfl, by simpa using hfit⟩]
        exact ⟨rfl, rfl⟩
      | insert table key value =>
        rw [if_neg (by rintro ⟨⟨⟩, -⟩)]
        exact ⟨rfl, rfl⟩
      | delete => cases hdel
    · rw [show (t.touched o e).hasInsert = true from hitem] at hx
      cases hx

/-- An item that gets no write keeps what an abort finds. -/
lemma keep (hfind : t.mem.find table key = some e) {x : TransItem} (howner : x.owner = table)
    (hkey : x.key = e) (hins : x.hasInsert = (t.item table e).hasInsert)
    (hw : x.wdata = (t.item table e).wdata)
    (hextra : x.extra = (t.item table e).extra ∨ x.extra = key) :
    Undo m ops { t with items := setItem x t.items } := by
  have hextra' : x.hasInsert → x.extra = key := by
    intro hx
    rcases hextra with hextra | hextra
    · rw [hextra, h.extra_eq hfind (hins ▸ hx)]
    · exact hextra
  have hsame : x.hasInsert → x.extra = (t.item table e).extra := by
    intro hx
    rw [hextra' hx, h.extra_eq hfind (hins ▸ hx)]
  refine h.change hfind howner hkey hins hextra' (fun _ => rfl) (fun hx => ?_) (fun _ => rfl) ?_
  · have hitem : (t.item table e).hasInsert := hins ▸ hx
    have hwrite := h.write _ (item_mem_of_hasInsert hitem) hitem
    rwa [← hw, (item_owner t table e).1, h.extra_eq hfind hitem] at hwrite
  · refine (h.state table key).frame rfl rfl (fun _ _ => rfl) (fun e' hfind' => ?_) fun hmem => ?_
    · rw [hfind] at hfind'
      cases hfind'
      have hself := item_setItem_self t t.mem x
      rw [howner, hkey] at hself
      rw [hself]
      exact ⟨hins, fun hitem => hsame (hins ▸ hitem)⟩
    · rwa [insertedKeys_setItem howner hkey hins hsame]

/-- A put that has to grow an element which the transaction has inserted. -/
lemma movedNew (hfind : t.mem.find o.target.1 o.target.2 = some e)
    (hinsert : (t.item o.target.1 e).hasInsert) (hroom : (t.mem.heap e).capacity < o.value.length) :
    Undo m (ops ++ [o]) ⟨t.mem.alloc o.target.1 o.target.2 ((t.mem.heap e).resize o.value),
        setItem (t.seen o e) t.items ++ [copyItem o.target.1 t.mem.next o.target.2 o.value]⟩ := by
  obtain ⟨howner, hkey⟩ := item_owner t o.target.1 e
  have hkeep : Undo m ops _ := h.keep hfind (x := t.seen o e) howner hkey rfl rfl (.inl rfl)
  cases h.state o.target.1 o.target.2 with
  | untouched _ _ hfind' =>
    rw [hfind] at hfind'
    cases hfind'
  | present _ hfind' _ _ hitem | moved _ _ hfind' _ hitem =>
    rw [hfind] at hfind'
    cases hfind'
    rw [hinsert] at hitem
    cases hitem
  | @inserted _ o' rest hstart hcalls hfind' hinvalid hcap =>
    rw [hfind] at hfind'
    cases hfind'
    have hcalls' := dropWhile_callsOn_of_cons hcalls
    -- the put does not fit, so that the write of the item stays
    have hundo : undoKey m (ops ++ [o]) o.target.1 o.target.2 =
        undoKey m ops o.target.1 o.target.2 := by
      have hnot : ¬ (o.isPut ∧ (decide (o.value.length ≤ capacityFor o'.value.length)) = true) := by
        rintro ⟨-, hle⟩
        rw [decide_eq_true_iff, ← hcap] at hle
        exact absurd hroom (not_lt.mpr hle)
      rw [undoKey_inserted hstart hcalls', undoKey_inserted hstart hcalls, lastPut_filter_append,
        if_neg hnot]
    have hmem : (o.target.1, o.target.2) ∈ insertedKeys (setItem (t.seen o e) t.items) := by
      rw [hkeep.mem_insertedKeys_iff, undoKey_inserted hstart hcalls]
      rfl
    refine hkeep.alloc rfl rfl h.wf (fun _ _ _ _ _ => rfl) rfl rfl (by rintro ⟨⟩) (callsOn_ne ops)
      (by rintro ⟨⟩) (fun _ => hundo) ?_
    refine .moved hstart hcalls' (Mem.find_alloc_self ..) ?_ ?_ ?_
    · rw [Mem.heap_alloc, update_self]
      exact hinvalid
    · exact congrArg hasInsert
        (hkeep.item_next _ (copyItem o.target.1 t.mem.next o.target.2 o.value) rfl rfl)
    · dsimp only
      rw [insertedKeys_append]
      exact mem_append_left _ hmem

/-- A put that has to grow an element of a key that was there. -/
lemma moved (hfind : t.mem.find o.target.1 o.target.2 = some e)
    (hinsert : (t.item o.target.1 e).hasInsert = false)
    (hvalid : (t.mem.heap e).version.invalid = false) :
    Undo m (ops ++ [o]) ⟨(t.mem.set e ((t.mem.heap e).setInvalid true)).alloc o.target.1 o.target.2
          ((t.mem.heap e).resize o.value),
        setItem (t.seen o e) t.items ++ [copyItem o.target.1 t.mem.next o.target.2 o.value]⟩ := by
  obtain ⟨howner, hkey⟩ := item_owner t o.target.1 e
  have hkeep : Undo m ops _ := h.keep hfind (x := t.seen o e) howner hkey rfl rfl (.inl rfl)
  cases h.state o.target.1 o.target.2 with
  | untouched _ _ hfind' =>
    rw [hfind] at hfind'
    cases hfind'
  | inserted _ _ hfind' hinvalid | moved _ _ hfind' hinvalid =>
    rw [hfind] at hfind'
    cases hfind'
    rw [hvalid] at hinvalid
    cases hinvalid
  | present hstart hfind' _ hvalue =>
    rw [hfind] at hfind'
    cases hfind'
    refine hkeep.alloc rfl rfl (h.wf.set e _) (fun table' key' e' hne hfind' => ?_) rfl rfl
      (by rintro ⟨⟩) (callsOn_ne ops) (by rintro ⟨⟩) (fun _ => ?_) ?_
    · have hee : e' ≠ e := by
        rintro rfl
        exact hne (h.wf.inj hfind hfind')
      rw [Mem.heap_set, update_of_ne hee]
    · rw [undoKey_present hstart, undoKey_present hstart]
    · refine .present hstart (Mem.find_alloc_self ..) ?_ ?_ ?_
      · rw [Mem.heap_alloc, update_self]
        exact hvalid
      · rw [Mem.heap_alloc, update_self]
        exact hvalue
      · exact congrArg hasInsert
          (hkeep.item_next _ (copyItem o.target.1 t.mem.next o.target.2 o.value) rfl rfl)

lemma effect (he : o.Effect t t') : Undo m (ops ++ [o]) t' := by
  cases he with
  | missed hdelete hfind => exact h.missed hdelete hfind
  | inserted hdelete hfind => exact h.insertNew hdelete hfind
  | found hfind hvalid hfits => exact h.found hfind hvalid hfits
  | movedNew _ hfind hinsert hroom => exact h.movedNew hfind hinsert hroom
  | moved _ hfind hinsert hvalid => exact h.moved hfind hinsert hvalid

/-- The rows of a scan. -/
lemma readRows {found : List (Bytes × ℕ)} (hfound : ∀ x ∈ found, x ∈ t.mem.tree table) :
    Undo m ops (t.readRows table found).1 := by
  refine h.reads fun x hx => ?_
  obtain ⟨⟨key, e⟩, hmem, rfl⟩ := mem_map.mp hx
  exact ⟨rfl, rfl, key, (h.wf.sorted table).mem_iff.mp (hfound _ hmem)⟩

lemma call {c : Call} (hrun : c.run t = .ok t') : Undo m (ops ++ c.op?.toList) t' := by
  cases c with
  | write o => exact h.effect (Op.effect_of_run hrun)
  | get table key =>
    simp only [Call.op?, toList_none, append_nil]
    simp only [Call.run, transGet] at hrun
    split at hrun
    · next e hfind =>
      split at hrun
      · cases hrun
      · cases hrun
        refine h.reads fun x hx => ?_
        rw [mem_singleton.mp hx]
        exact ⟨rfl, rfl, key, hfind⟩
    · cases hrun
      exact h
  | query table lo hi rows =>
    simp only [Call.op?, toList_none, append_nil]
    cases hrun
    exact h.readRows fun x hx => mem_of_mem_filter (mem_of_mem_take hx)
  | rquery table hi lo rows =>
    simp only [Call.op?, toList_none, append_nil]
    cases hrun
    exact h.readRows fun x hx =>
      mem_of_mem_filter (mem_reverse.mp (mem_of_mem_take hx))

/-- A put or an insert that throws. -/
lemma handlePutFound (hfind : t.mem.find table key = some e) {set : Bool} {value : Bytes}
    (hrun : t.handlePutFound set table e key value = .error t') : Undo m ops t' := by
  obtain ⟨howner, hkey⟩ := item_owner t table e
  simp only [Transaction.handlePutFound, Transaction.reallyHandlePutFound] at hrun
  split at hrun
  · split at hrun
    · split at hrun
      · split at hrun
        · cases hrun
        · split at hrun
          · cases hrun
            exact h.keep hfind howner hkey rfl rfl (.inl rfl)
          · cases hrun
      · cases hrun
    · cases hrun
  · cases hrun
    exact h.keep hfind howner hkey rfl rfl (.inl rfl)

/-- A call that throws leaves nothing to undo. -/
lemma call_error {c : Call} (hrun : c.run t = .error t') : Undo m ops t' := by
  cases c with
  | write o =>
    cases o with
    | put table key value | insert table key value =>
      simp only [Call.run, Op.run, transPut, transInsert, transWrite] at hrun
      split at hrun
      · next e hfind => exact h.handlePutFound hfind hrun
      · cases hrun
    | delete table key =>
      simp only [Call.run, Op.run, transDelete] at hrun
      split at hrun
      · next e hfind =>
        obtain ⟨howner, hkey⟩ := item_owner t table e
        split at hrun
        · cases hrun
          exact h.keep hfind howner hkey rfl rfl (.inr rfl)
        · cases hrun
      · cases hrun
  | get table key =>
    simp only [Call.run, transGet] at hrun
    split at hrun
    · next e hfind =>
      split at hrun
      · cases hrun
        refine h.reads fun x hx => ?_
        rw [mem_singleton.mp hx]
        exact ⟨rfl, rfl, key, hfind⟩
      · cases hrun
    · cases hrun
  | query | rquery => cases hrun

lemma runCalls {calls : List Call} (hrun : runCalls calls t = .ok t') :
    Undo m (ops ++ calls.filterMap Call.op?) t' := by
  induction calls generalizing t ops with
  | nil =>
    cases hrun
    simpa using h
  | cons c calls ih =>
    simp only [Sto.runCalls, foldlM_cons] at hrun
    cases hc : c.run t with
    | error t₁ =>
      rw [hc] at hrun
      cases hrun
    | ok t₁ =>
      rw [hc] at hrun
      have hcalls := ih (h.call hc) hrun
      rw [append_assoc] at hcalls
      cases hop : c.op? <;> simpa [filterMap_cons, hop] using hcalls

/-- Of one element only the first item has a write. -/
lemma nodup_writes : ((writes t.items).map fun p => p.1.key).Nodup := by
  have hwrites : (writes t.items).Pairwise fun p q => p.1.key ≠ q.1.key := by
    refine List.Pairwise.filterMap _ ?_ h.once
    intro a b hab p hp q hq heq
    obtain ⟨w, -, rfl⟩ := map_eq_some_iff.mp hp
    obtain ⟨w', hw', rfl⟩ := map_eq_some_iff.mp hq
    rw [hab heq] at hw'
    cases hw'
  exact pairwise_map.mpr hwrites

/-- The abort removes what it should for the inserted keys, in their order. -/
lemma undone_eq : undone t.items = (insertedKeys t.items).map (removal m ops) := by
  have hwrite := h.write
  rw [undone, writes, insertedKeys]
  generalize t.items = items at hwrite ⊢
  induction items with
  | nil => rfl
  | cons it items ih =>
    have ih := ih fun y hy => hwrite y (mem_cons_of_mem it hy)
    cases hins : it.hasInsert with
    | false => cases hw : it.wdata <;> simpa [filterMap_cons, hins, hw] using ih
    | true =>
      obtain ⟨hsome, hw⟩ := hwrite it mem_cons_self hins
      obtain ⟨w, hw'⟩ := isSome_iff_exists.mp hsome
      simp only [filterMap_cons, hw', map_some, hins, if_true, filter_cons_of_pos,
        map_cons, ih, removal, ← hw, getD_some]

/-- A key is in a table if it was there before or is inserted. -/
lemma isSome_find_iff : (t.mem.find table key).isSome ↔
      (m.find table key).isSome ∨ (table, key) ∈ insertedKeys t.items := by
  rw [h.mem_insertedKeys_iff]
  cases h.state table key with
  | present hstart hfind => simp [hstart, hfind]
  | untouched hstart hcalls hfind => simp [hstart, hfind, undoKey_untouched hcalls]
  | inserted hstart hcalls hfind | moved hstart hcalls hfind =>
    simp [hfind, undoKey_inserted hstart hcalls]

/-- An inserted key was not there before. -/
lemma find_of_mem (hk : (table, key) ∈ insertedKeys t.items) : m.find table key = none := by
  rw [h.mem_insertedKeys_iff] at hk
  cases hstart : m.find table key with
  | none => rfl
  | some e =>
    rw [undoKey_present (by rw [hstart]; rfl)] at hk
    cases hk

/-- A key that is not inserted has the value it had. -/
lemma committed_eq (hnew : (table, key) ∉ insertedKeys t.items) :
    t.mem.committed table key = m.committed table key := by
  rw [h.mem_insertedKeys_iff] at hnew
  cases h.state table key with
  | present _ hfind hvalid hvalue => rw [Mem.committed_of_find hfind hvalid, hvalue]
  | untouched hstart _ hfind => simp [Mem.committed, hstart, hfind]
  | inserted hstart hcalls | moved hstart hcalls =>
    rw [undoKey_inserted hstart hcalls] at hnew
    exact absurd rfl hnew

/-- If the abort brings back what was there, it removes the inserted keys. -/
lemma undoes_of_abort {m' : Mem} (habort : t.abort = some m')
    (hpresent : ∀ table key, (m'.find table key).isSome = (m.find table key).isSome) :
    Undoes m ops := by
  rw [t.abort_eq, h.undone_eq] at habort
  obtain ⟨hnodup, hall⟩ := removes_eq_some_iff.mp ⟨m', habort⟩
  rw [nodup_reverse] at hnodup
  have hmem : ∀ {o : Op}, (undoKey m ops o.target.1 o.target.2).isSome →
      o.target ∈ insertedKeys t.items := fun hsome => h.mem_insertedKeys_iff.mpr hsome
  intro o ho w hw
  have ho' : o.target ∈ insertedKeys t.items := hmem (by rw [hw]; rfl)
  have hremoved : (o.target.1, w) ∈ ((insertedKeys t.items).map (removal m ops)).reverse :=
    mem_reverse.mpr (mem_map.mpr ⟨o.target, ho', by rw [removal, hw]; rfl⟩)
  constructor
  · rw [← h.mem_insertedKeys_iff]
    refine (h.isSome_find_iff.mp (hall _ hremoved)).resolve_left ?_
    rw [← hpresent, find_removes habort, if_pos hremoved]
    rintro ⟨⟩
  · intro o' _ htable hw'
    refine inj_on_of_nodup_map hnodup (hmem (by rw [hw']; rfl)) ho' ?_
    rw [removal, removal, hw, hw', htable]

/-- The removed keys are the inserted ones in another order. -/
lemma removals_perm (hundoes : Undoes m ops) :
    ((insertedKeys t.items).map (removal m ops)).Perm (insertedKeys t.items) := by
  have htarget : ∀ k ∈ insertedKeys t.items, ∃ o ∈ ops, o.target = k ∧
      ∃ w, undoKey m ops k.1 k.2 = some w := by
    intro k hk
    have hsome := h.mem_insertedKeys_iff.mp hk
    obtain ⟨o, ho, htarget⟩ := exists_op_of_undoKey hsome
    exact ⟨o, ho, htarget, isSome_iff_exists.mp hsome⟩
  have hnodup : ((insertedKeys t.items).map (removal m ops)).Nodup := by
    refine List.Nodup.map_on ?_ h.nodup
    intro k hk k' hk' heq
    obtain ⟨o, ho, rfl, w, hw⟩ := htarget k hk
    obtain ⟨o', ho', rfl, w', hw'⟩ := htarget k' hk'
    rw [removal, removal, hw, hw'] at heq
    obtain ⟨htable, hww⟩ := Prod.mk.inj heq
    have hww : w = w' := hww
    exact ((hundoes o ho w hw).2 o' ho' htable.symm (hww ▸ hw')).symm
  refine (hnodup.subperm fun k hk => ?_).perm_of_length_le (length_map _).ge
  obtain ⟨k', hk', rfl⟩ := mem_map.mp hk
  obtain ⟨o, ho, rfl, w, hw⟩ := htarget k' hk'
  rw [removal, hw, getD_some, h.mem_insertedKeys_iff]
  exact (hundoes o ho w hw).1

/-- A key that is found and not inserted has a valid element. -/
lemma valid (hnew : (table, key) ∉ insertedKeys t.items) (hfind : t.mem.find table key = some e) :
    (t.mem.heap e).version.invalid = false := by
  rw [h.mem_insertedKeys_iff] at hnew
  cases h.state table key with
  | present _ hfind' hvalid =>
    cases hfind.symm.trans hfind'
    exact hvalid
  | untouched _ _ hfind' => cases hfind.symm.trans hfind'
  | inserted hstart hcalls | moved hstart hcalls =>
    rw [undoKey_inserted hstart hcalls] at hnew
    exact absurd rfl hnew

/-- If the abort removes the inserted keys, it brings back what was there. -/
lemma abort_of_undoes (hundoes : Undoes m ops) : ∃ m', t.abort = some m' ∧ m'.Quiet ∧
      (∀ table key, (m'.find table key).isSome = (m.find table key).isSome) ∧
      ∀ table key, m'.committed table key = m.committed table key := by
  have hperm := h.removals_perm hundoes
  rw [t.abort_eq, h.undone_eq]
  obtain ⟨m', habort⟩ := removes_eq_some_iff.mpr
    ⟨nodup_reverse.mpr (hperm.nodup_iff.mpr h.nodup), fun k hk =>
      h.isSome_find_iff.mpr (.inr (hperm.mem_iff.mp (mem_reverse.mp hk)))⟩
  -- the inserted keys are gone, and the others as the calls left them
  have hgone : ∀ {table key}, (table, key) ∈ insertedKeys t.items → m'.find table key = none := by
    intro table key hk
    rw [find_removes habort, if_pos (mem_reverse.mpr (hperm.mem_iff.mpr hk))]
  have hsame : ∀ {table key}, (table, key) ∉ insertedKeys t.items →
      m'.find table key = t.mem.find table key := by
    intro table key hk
    rw [find_removes habort, if_neg fun hk' => hk (hperm.mem_iff.mp (mem_reverse.mp hk'))]
  have hheap := heap_removes habort
  refine ⟨m', habort, ⟨wellFormed_removes h.wf habort, fun {table key e} hfind => ?_⟩,
    fun table key => ?_, fun table key => ?_⟩ <;>
    by_cases hk : (table, key) ∈ insertedKeys t.items
  · rw [hgone hk] at hfind
    cases hfind
  · rw [hheap]
    exact h.valid hk (hsame hk ▸ hfind)
  · rw [hgone hk, h.find_of_mem hk]
  · rw [hsame hk, Bool.eq_iff_iff, h.isSome_find_iff]
    simp [hk]
  · rw [Mem.committed_of_find_none (hgone hk), Mem.committed_of_find_none (h.find_of_mem hk)]
  · rw [← h.committed_eq hk]
    exact Mem.committed_congr (hsame hk) fun _ _ => by rw [hheap]

lemma runOps {ops' : List Op} (hrun : runOps ops' t = .ok t') : Undo m (ops ++ ops') t' := by
  have hcalls : Sto.runCalls (ops'.map .write) t = .ok t' := by
    rw [Sto.runCalls, foldlM_map]
    exact hrun
  have hundo := h.runCalls hcalls
  rwa [filterMap_map, show Call.op? ∘ Call.write = some from rfl, filterMap_some] at hundo

/-- Calls of which one throws leave what those before it did. -/
lemma runOps_error {ops' : List Op} (hrun : Sto.runOps ops' t = .error t') :
    ∃ pre, pre <+: ops' ∧ Undo m (ops ++ pre) t' := by
  induction ops' generalizing t ops with
  | nil => cases hrun
  | cons o ops' ih =>
    rw [Sto.runOps, foldlM_cons] at hrun
    cases ho : o.run t with
    | error t₁ =>
      rw [ho] at hrun
      cases hrun
      exact ⟨[], nil_prefix, by simpa using h.call_error (c := .write o) ho⟩
    | ok t₁ =>
      rw [ho] at hrun
      obtain ⟨pre, hpre, hundo⟩ := ih (h.effect (Op.effect_of_run ho)) hrun
      exact ⟨o :: pre, (prefix_cons_inj o).mpr hpre, by simpa using hundo⟩

end

end Undo

end

/-- A transaction that aborts after any calls, wherever it does, leaves every key, lock and the log
as they were if and only if the keys that it removes are the keys it has inserted. -/
theorem restored_iff_undoes (m : Mem) (hm : m.Quiet) (calls : List Call) (t : Transaction)
    (hrun : runCalls calls ⟨m, []⟩ = .ok t) (log : StringAllocator) (r : Option Outcome)
    (haborts : Aborts t log r) :
    (∃ o, r = some o ∧ Restored m log o) ↔ Undoes m (calls.filterMap Call.op?) := by
  have h : Undo m (calls.filterMap Call.op?) t := (Undo.start hm).runCalls hrun
  -- every way to abort comes down to the cleanups
  obtain ⟨t', h', rfl⟩ : ∃ t', Undo m (calls.filterMap Call.op?) t' ∧
      r = t'.abort.map fun m' => ⟨m', fun _ => false, log, false⟩ := by
    cases haborts with
    | call c t' hcall => exact ⟨t', h.call_error hcall, rfl⟩
    | giveUp => exact ⟨t, h, rfl⟩
    | lock n kSizeLimit tid epoch hn =>
      exact ⟨t, h, t.tryCommitLocked_aborts h.nodup_writes kSizeLimit tid epoch (.inl hn)⟩
    | check kSizeLimit tid epoch hcheck =>
      exact ⟨t, h, t.tryCommitLocked_aborts h.nodup_writes kSizeLimit tid epoch (.inr hcheck)⟩
  constructor
  · rintro ⟨o, ho, hrestored⟩
    obtain ⟨m', hm', rfl⟩ := Option.map_eq_some_iff.mp ho
    exact h'.undoes_of_abort hm' hrestored.present
  · intro hundoes
    obtain ⟨m', hm', -, hpresent, hvalue⟩ := h'.abort_of_undoes hundoes
    exact ⟨_, by rw [hm']; rfl, hpresent, hvalue, fun _ => rfl, rfl⟩

/-- Two new keys are inserted and put, each with the other key as the value, a scan reads them and
the key that was there is put. -/
def crossedCalls : List Call :=
  [.write (.insert 10001 [2] [5]), .write (.insert 10001 [3] [6]), .write (.put 10001 [2] [3]),
    .write (.put 10001 [3] [2]), .query 10001 [] [] 4, .write (.put 10001 [1] [8])]

theorem restored_iff_undoes_crossed :
    ∃ t t' o, runCalls crossedCalls ⟨oneKey, []⟩ = .ok t ∧
      Call.run (.get 10001 [2]) t = .error t' ∧ t'.stop 0 (fun _ => false) {} = some o ∧
      Restored oneKey {} o := by
  obtain ⟨o, ho, hrestored⟩ := (restored_iff_undoes oneKey quiet_oneKey crossedCalls _ rfl {} _
    (.call (.get 10001 [2]) _ rfl)).mpr (by decide +kernel)
  exact ⟨_, _, o, rfl, rfl, ho, hrestored⟩

/-- A new key is inserted and put, and the transaction gives up: the key `[1]` that was there is
removed instead of the new one. -/
theorem not_restored_insertThenPut :
    ∃ t o, runCalls [.write (.insert 10001 [2] [5]), .write (.put 10001 [2] [1])] ⟨oneKey, []⟩ =
        .ok t ∧
      Aborts t {} (some o) ∧ o.mem.committed 10001 [1] = none ∧
      oneKey.committed 10001 [1] = some [7] ∧ (o.mem.find 10001 [2]).isSome ∧
      ¬ Restored oneKey {} o := by
  refine ⟨_, _, rfl, .giveUp, rfl, rfl, rfl, fun hrestored => ?_⟩
  have hvalue := hrestored.value 10001 [1]
  cases hvalue

end Rolis.Sto
