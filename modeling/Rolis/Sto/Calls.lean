import Mathlib.Data.List.DropRight
import Mathlib.Data.List.Nodup
import Rolis.Sto.MassTransTheorems

/-!
# Calls of a transaction

The calls of a transaction that put, insert and delete, what they should leave, one after another,
and what each of them does to the items and the elements. A transaction has one item for each
element it touches, and the item has one place for a write. `Clear` says when that is enough for the
calls on a key.
-/

namespace Rolis.Sto

open Function Bytes List Transaction TransItem

/-- A write operation of a transaction. -/
inductive Op
  | put (table : ℕ) (key value : Bytes)
  | insert (table : ℕ) (key value : Bytes)
  | delete (table : ℕ) (key : Bytes)
deriving DecidableEq, Repr

namespace Op

/-- `put`, `insert` and `remove` of `mbta_ordered_index`. -/
def run : Op → Transaction → Except Transaction Transaction
  | put table key value, t => t.transPut table key value
  | insert table key value, t => t.transInsert table key value
  | delete table key, t => t.transDelete table key

/-- The table and the key. -/
def target : Op → ℕ × Bytes
  | put table key _ | insert table key _ | delete table key => (table, key)

/-- The value to be written. -/
def value : Op → Bytes
  | put _ _ value | insert _ _ value => value
  | delete _ _ => []

/-- An operation within the bounds of the log format. -/
def Loggable (o : Op) : Prop :=
  o.target.2 ≠ [] ∧ o.target.2.length < 2 ^ 16 ∧ o.value.length < 2 ^ 16 ∧
    10000 ≤ o.target.1 ∧ o.target.1 ≤ 20000

instance (o : Op) : Decidable o.Loggable := inferInstanceAs (Decidable (_ ∧ _))

end Op

/-- Run the operations of a transaction. -/
def runOps (ops : List Op) (t : Transaction) : Except Transaction Transaction :=
  ops.foldlM (fun t o => o.run t) t

/-! ## Calls one after another -/

namespace Op

def isDelete : Op → Bool
  | delete _ _ => true
  | put _ _ _ | insert _ _ _ => false

def isPut : Op → Bool
  | put _ _ _ => true
  | insert _ _ _ | delete _ _ => false

/-- What a call leaves under its key, which held `v`. -/
def result : Op → Option Bytes → Option Bytes
  | put _ _ value, _ => some value
  | insert _ _ value, v => some (v.getD value)
  | delete _ _, _ => none

/-- What a call leaves of contents. -/
def apply (o : Op) (contents : ℕ → Bytes → Option Bytes) (table : ℕ) (key : Bytes) : Option Bytes :=
  if o.target = (table, key) then o.result (contents table key) else contents table key

/-- What a call on a key that is there writes. -/
def wdata : Op → Option Bytes
  | put _ _ value => some value
  | insert _ _ _ => none
  | delete _ key => some key

end Op

/-- Contents after calls one after another. -/
def applyOps (ops : List Op) (contents : ℕ → Bytes → Option Bytes) : ℕ → Bytes → Option Bytes :=
  ops.foldl (fun contents o => o.apply contents) contents

/-- The calls on one key. -/
def callsOn (ops : List Op) (table : ℕ) (key : Bytes) : List Op :=
  ops.filter fun o => o.target = (table, key)

/-- What a key that held `v` holds after calls on it. -/
def resultOf (calls : List Op) (v : Option Bytes) : Option Bytes :=
  calls.foldl (fun v o => o.result v) v

section

variable {ops calls : List Op} {o : Op} {table : ℕ} {key : Bytes} {v : Option Bytes}

lemma applyOps_eq (ops : List Op) (contents : ℕ → Bytes → Option Bytes) (table : ℕ) (key : Bytes) :
    applyOps ops contents table key = resultOf (callsOn ops table key) (contents table key) := by
  induction ops generalizing contents with
  | nil => rfl
  | cons o ops ih =>
    have hcons : applyOps (o :: ops) contents = applyOps ops (o.apply contents) := rfl
    rw [hcons, ih, Op.apply]
    by_cases h : o.target = (table, key) <;> simp [h, callsOn, resultOf]

lemma callsOn_eq_nil (h : ∀ o ∈ ops, o.target ≠ (table, key)) : callsOn ops table key = [] := by
  rw [callsOn, filter_eq_nil_iff]
  simpa using h

lemma callsOn_append_self (h : o.target = (table, key)) :
    callsOn (ops ++ [o]) table key = callsOn ops table key ++ [o] := by
  simp [callsOn, h]

lemma callsOn_append_of_ne (h : o.target ≠ (table, key)) :
    callsOn (ops ++ [o]) table key = callsOn ops table key := by
  simp [callsOn, h]

@[simp] lemma resultOf_append : resultOf (calls ++ [o]) v = o.result (resultOf calls v) := by
  simp [resultOf]

end

/-- What the calls on a key that is there write: the last one that writes counts. -/
def lastWrite (calls : List Op) : Option Bytes := (calls.filterMap Op.wdata).getLast?

/-- The value of the last put. -/
def lastPut (calls : List Op) : Option Bytes := ((calls.filter Op.isPut).map Op.value).getLast?

lemma lastWrite_append (calls : List Op) (o : Op) :
    lastWrite (calls ++ [o]) = o.wdata.or (lastWrite calls) := by
  cases o <;> simp [lastWrite, Op.wdata]

lemma lastPut_append (calls : List Op) (o : Op) :
    lastPut (calls ++ [o]) = if o.isPut then some o.value else lastPut calls := by
  cases o <;> simp [lastPut, Op.isPut]

/-- A key is clear if its calls, as often as they hit it, are all that the item of its element can
hold. On a key that was there a delete comes last or not at all; on a key that was not there the
last put behind the call that inserts it puts the same value again, and the value begins with the
key. -/
def Clear (m : Mem) (ops : List Op) (table : ℕ) (key : Bytes) : Prop :=
  if (m.committed table key).isSome then
    (callsOn ops table key).any Op.isDelete → (callsOn ops table key).getLast?.any Op.isDelete
  else
    ∀ o ∈ ((callsOn ops table key).dropWhile Op.isDelete).head?,
      ∀ v ∈ lastPut ((callsOn ops table key).dropWhile Op.isDelete).tail, v = o.value ∧ key <+: v

instance (m : Mem) (ops : List Op) (table : ℕ) (key : Bytes) : Decidable (Clear m ops table key) :=
  by delta Clear; infer_instance

/-- On a key that was not there the first call that is no delete inserts. -/
lemma clear_inserted_iff {m : Mem} {ops rest : List Op} {o : Op} {table : ℕ} {key : Bytes}
    (hstart : m.committed table key = none)
    (hcalls : (callsOn ops table key).dropWhile Op.isDelete = o :: rest) :
    Clear m ops table key ↔ ∀ v ∈ lastPut rest, v = o.value ∧ key <+: v := by
  rw [Clear, hstart, hcalls]
  simp

/-- A key without calls is clear. -/
lemma clear_of_targets {m : Mem} {ops : List Op}
    (h : ∀ o ∈ ops, Clear m ops o.target.1 o.target.2) (table : ℕ) (key : Bytes) :
    Clear m ops table key := by
  by_cases hcall : ∃ o ∈ ops, o.target = (table, key)
  · obtain ⟨o, ho, htarget⟩ := hcall
    have hclear := h o ho
    rwa [htarget] at hclear
  · rw [Clear, callsOn_eq_nil fun o ho htarget => hcall ⟨o, ho, htarget⟩]
    simp

/-- A table with the value `[7]` under the key `[1]`. -/
def oneKey : Mem := Mem.alloc {} 10001 [1] ⟨{}, [7], 8⟩

lemma quiet_oneKey : oneKey.Quiet where
  toWellFormed := Mem.quiet_empty.alloc 10001 [1] ⟨{}, [7], 8⟩
  valid {table key e} hfind := by
    rw [oneKey, Mem.find_alloc] at hfind
    split at hfind
    · cases hfind
      rfl
    · cases hfind

/-! ## What one call does -/

/-- The item of an element after a call on its key that neither inserts nor grows it. -/
def TransItem.after (it : TransItem) (o : Op) (v : Version) : TransItem :=
  { it.observe v with
    wdata := o.wdata.or it.wdata
    hasDelete := it.hasDelete || o.isDelete
    extra := if o.wdata.isSome then o.target.2 else it.extra }

lemma TransItem.after_put (it : TransItem) (v : Version) {o : Op} (h : o.isPut) :
    it.after o v = { it.observe v with wdata := some o.value, extra := o.target.2 } := by
  cases o with
  | put => simp [after, observe, Op.wdata, Op.isDelete, Op.value]
  | insert | delete => cases h

lemma TransItem.after_insert (it : TransItem) (v : Version) (table : ℕ) (key value : Bytes) :
    it.after (.insert table key value) v = it.observe v := by
  simp [after, observe, Op.wdata, Op.isDelete]

lemma TransItem.after_delete (it : TransItem) (v : Version) (table : ℕ) (key : Bytes) :
    it.after (.delete table key) v =
      { { it with extra := key }.observe v with wdata := some key, hasDelete := true } := by
  simp [after, observe, Op.wdata, Op.isDelete, Op.target]

/-- The item of the copy of an element. -/
def copyItem (table e : ℕ) (key value : Bytes) : TransItem :=
  ⟨table, e, none, some value, false, false, key⟩

/-- What a call that returns does to the transaction. -/
inductive Op.Effect (o : Op) (t : Transaction) : Transaction → Prop
  | missed (hdelete : o.isDelete) (hfind : t.mem.find o.target.1 o.target.2 = none) : Effect o t t
  | inserted (hdelete : o.isDelete = false) (hfind : t.mem.find o.target.1 o.target.2 = none) :
    Effect o t (t.insertNew o.target.1 o.target.2 o.value o.target.2)
  | found {e : ℕ} (hfind : t.mem.find o.target.1 o.target.2 = some e)
    (hvalid : (t.mem.heap e).version.invalid →
      (t.item o.target.1 e).hasInsert ∧ o.isDelete = false)
    (hfits : o.isPut → o.value.length ≤ (t.mem.heap e).capacity) :
    Effect o t
      { t with items := setItem ((t.item o.target.1 e).after o (t.mem.heap e).version) t.items }
  | movedNew {e : ℕ} (hput : o.isPut) (hfind : t.mem.find o.target.1 o.target.2 = some e)
    (hinsert : (t.item o.target.1 e).hasInsert)
    (hroom : (t.mem.heap e).capacity < o.value.length) :
    Effect o t
      ⟨t.mem.alloc o.target.1 o.target.2 ((t.mem.heap e).resize o.value),
        setItem ((t.item o.target.1 e).observe (t.mem.heap e).version) t.items ++
          [copyItem o.target.1 t.mem.next o.target.2 o.value]⟩
  | moved {e : ℕ} (hput : o.isPut) (hfind : t.mem.find o.target.1 o.target.2 = some e)
    (hinsert : (t.item o.target.1 e).hasInsert = false)
    (hvalid : (t.mem.heap e).version.invalid = false) :
    Effect o t
      ⟨(t.mem.set e ((t.mem.heap e).setInvalid true)).alloc o.target.1 o.target.2
          ((t.mem.heap e).resize o.value),
        setItem ((t.item o.target.1 e).observe (t.mem.heap e).version) t.items ++
          [copyItem o.target.1 t.mem.next o.target.2 o.value]⟩

/-- The item of an element that a call finds, with the version it observes. -/
abbrev Transaction.seen (t : Transaction) (o : Op) (e : ℕ) : TransItem :=
  (t.item o.target.1 e).observe (t.mem.heap e).version

/-- The item after the call. -/
abbrev Transaction.touched (t : Transaction) (o : Op) (e : ℕ) : TransItem :=
  (t.item o.target.1 e).after o (t.mem.heap e).version

section

variable {t t' : Transaction} {table e : ℕ} {key value : Bytes}

lemma setItem_setItem {it it' : TransItem} (howner : it.owner = it'.owner)
    (hkey : it.key = it'.key) (items : List TransItem) :
    setItem it' (setItem it items) = setItem it' items := by
  induction items with
  | nil => simp [setItem, howner, hkey]
  | cons x items ih =>
    by_cases hx : x.owner = it.owner ∧ x.key = it.key
    · simp [setItem, hx.1, hx.2, howner, hkey]
    · have hx' : ¬ (x.owner = it'.owner ∧ x.key = it'.key) := by rwa [← howner, ← hkey]
      rw [setItem, if_neg hx, setItem, if_neg hx', ih, setItem, if_neg hx']

lemma item_owner (t : Transaction) (table e : ℕ) :
    (t.item table e).owner = table ∧ (t.item table e).key = e := by
  unfold item
  cases h : t.items.find? fun it => it.owner = table ∧ it.key = e with
  | none => exact ⟨rfl, rfl⟩
  | some it => simpa using find?_some h

/-- A put to a key that is there. -/
lemma effect_of_reallyHandlePutFound {o : Op} (hput : o.isPut)
    (hfind : t.mem.find o.target.1 o.target.2 = some e)
    (hvalid : (t.mem.heap e).version.invalid → (t.item o.target.1 e).hasInsert ∧ o.isDelete = false)
    (h : reallyHandlePutFound
      { t with items := setItem (t.seen o e) t.items } (t.seen o e) o.target.2 o.value = .ok t') :
    o.Effect t t' := by
  obtain ⟨howner, hkey⟩ := item_owner t o.target.1 e
  have howner' : (t.seen o e).owner = o.target.1 := howner
  have hkey' : (t.seen o e).key = e := hkey
  simp only [reallyHandlePutFound, howner', hkey'] at h
  split at h
  · next hroom =>
    have hlt : (t.mem.heap e).capacity < o.value.length := by simpa [Elem.needsResize] using hroom
    split at h
    · next hins =>
      cases h
      exact .movedNew hput hfind hins hlt
    · next hins =>
      split at h
      · cases h
      · next hinv =>
        cases h
        exact .moved hput hfind (Bool.eq_false_of_not_eq_true hins)
          (Bool.eq_false_of_not_eq_true hinv)
  · next hroom =>
    cases h
    have heffect := Op.Effect.found hfind hvalid fun _ => by simpa [Elem.needsResize] using hroom
    rw [setItem_setItem howner' hkey']
    simpa only [after_put _ _ hput, howner', hkey'] using heffect

/-- A put, or an insert, of a key that is there. -/
lemma effect_of_handlePutFound {o : Op} (hdel : o.isDelete = false)
    (hfind : t.mem.find o.target.1 o.target.2 = some e)
    (h : t.handlePutFound o.isPut o.target.1 e o.target.2 o.value = .ok t') : o.Effect t t' := by
  unfold handlePutFound at h
  dsimp only at h
  split at h
  · next hvalid =>
    have hvalid' : (t.mem.heap e).version.invalid →
        (t.item o.target.1 e).hasInsert ∧ o.isDelete = false := by
      intro hinv
      simpa [validityCheck, hinv, hdel] using hvalid
    split at h
    · next hput => exact effect_of_reallyHandlePutFound hput hfind hvalid' h
    · next hput =>
      cases h
      have heffect := Op.Effect.found hfind hvalid' fun hput' => absurd hput' hput
      cases o with
      | put => exact absurd rfl hput
      | insert => rwa [after_insert] at heffect
      | delete => cases hdel
  · cases h

lemma Op.effect_of_run {o : Op} (h : o.run t = .ok t') : o.Effect t t' := by
  cases o with
  | put table key value | insert table key value =>
    simp only [Op.run, transPut, transInsert, transWrite] at h
    split at h
    · next e hfind => exact effect_of_handlePutFound rfl hfind h
    · next hfind =>
      cases h
      exact .inserted rfl hfind
  | delete table key =>
    simp only [Op.run, transDelete] at h
    split at h
    · next e hfind =>
      split at h
      · cases h
      · next hvalid =>
        cases h
        have hfits : Op.isPut (.delete table key) →
            (Op.value (.delete table key)).length ≤ (t.mem.heap e).capacity := by rintro ⟨⟩
        have heffect := Op.Effect.found (o := .delete table key) hfind
          (fun hinv => absurd hinv hvalid) hfits
        rwa [after_delete] at heffect
    · next hfind =>
      cases h
      exact .missed rfl hfind

/-! ## Items and their elements -/

/-- The item of an element is replaced where it is, or comes last. -/
lemma item_cases (t : Transaction) (table e : ℕ) :
    (∃ a b, (∀ x ∈ a, ¬ (x.owner = table ∧ x.key = e)) ∧ t.items = a ++ t.item table e :: b ∧
      ∀ it : TransItem, it.owner = table → it.key = e → setItem it t.items = a ++ it :: b) ∨
    ((∀ x ∈ t.items, ¬ (x.owner = table ∧ x.key = e)) ∧
      t.item table e = ⟨table, e, none, none, false, false, []⟩ ∧
      ∀ it : TransItem, it.owner = table → it.key = e → setItem it t.items = t.items ++ [it]) := by
  have hset : ∀ (it : TransItem) (a b : List TransItem), it.owner = table → it.key = e →
      (∀ x ∈ a, ¬ (x.owner = table ∧ x.key = e)) → setItem it (a ++ b) = a ++ setItem it b := by
    intro it a b howner hkey ha
    induction a with
    | nil => rfl
    | cons x a ih =>
      have hx : ¬ (x.owner = it.owner ∧ x.key = it.key) := by
        rw [howner, hkey]
        exact ha x mem_cons_self
      rw [cons_append, setItem, if_neg hx, ih fun y hy => ha y (mem_cons_of_mem x hy)]
      rfl
  cases h : t.items.find? fun it => it.owner = table ∧ it.key = e with
  | none =>
    have hnone : ∀ x ∈ t.items, ¬ (x.owner = table ∧ x.key = e) := by
      simpa [find?_eq_none] using h
    refine .inr ⟨hnone, by rw [item, h]; rfl, fun it howner hkey => ?_⟩
    have hend := hset it t.items [] howner hkey hnone
    rwa [append_nil] at hend
  | some x =>
    obtain ⟨hx, a, b, hitems, ha⟩ := find?_eq_some_iff_append.mp h
    have hitem : t.item table e = x := by
      rw [item, h]
      rfl
    obtain ⟨hxowner, hxkey⟩ : x.owner = table ∧ x.key = e := by simpa using hx
    have ha' : ∀ y ∈ a, ¬ (y.owner = table ∧ y.key = e) := fun y hy heq => by
      simpa [heq.1, heq.2] using ha y hy
    refine .inl ⟨a, b, ha', by rw [hitem, hitems], fun it howner hkey => ?_⟩
    rw [hitems, hset it a (x :: b) howner hkey ha', setItem,
      if_pos ⟨hxowner.trans howner.symm, hxkey.trans hkey.symm⟩]

/-- Tables and items fit together: no two items are of one element, and the element of an item is
in the table of the item, under the key in `extra` if the item writes. -/
structure Itemized (t : Transaction) : Prop where
  wf : t.mem.WellFormed
  nodup : (t.items.map TransItem.key).Nodup
  owned : ∀ it ∈ t.items, ∃ key, t.mem.find it.owner key = some it.key ∧
    (it.wdata.isSome → it.extra = key)

namespace Itemized

variable {it : TransItem}

section

variable (h : Itemized t)

include h

lemma lt_next (hit : it ∈ t.items) : it.key < t.mem.next := by
  obtain ⟨key, hfind, -⟩ := h.owned it hit
  exact h.wf.lt_next hfind

/-- Of one element there is one item. -/
lemma key_ne {a b : List TransItem} {x : TransItem} (hitems : t.items = a ++ x :: b) :
    ∀ y ∈ a ++ b, y.key ≠ x.key := by
  have hnodup := h.nodup
  rw [hitems, map_append, map_cons, nodup_middle, nodup_cons, ← map_append] at hnodup
  rintro y hy heq
  exact hnodup.1 (mem_map.mpr ⟨y, hy, heq⟩)

/-- The item of the element of a key is in the transaction, or there is none. -/
lemma item_mem (hfind : t.mem.find table key = some e) :
    t.item table e ∈ t.items ∨ (∀ x ∈ t.items, x.key ≠ e) ∧
      t.item table e = ⟨table, e, none, none, false, false, []⟩ := by
  rcases item_cases t table e with ⟨a, b, -, hitems, -⟩ | ⟨hnone, hitem, -⟩
  · exact .inl (hitems ▸ by simp)
  · refine .inr ⟨fun x hx hkey => hnone x hx ⟨?_, hkey⟩, hitem⟩
    obtain ⟨key', hfind', -⟩ := h.owned x hx
    exact (h.wf.inj hfind (hkey ▸ hfind')).1

lemma mem_setItem (it : TransItem) (hfind : t.mem.find table key = some e)
    (howner : it.owner = table) (hkey : it.key = e) (y : TransItem) :
    y ∈ setItem it t.items ↔ y = it ∨ y ∈ t.items ∧ y.key ≠ e := by
  have hx := (item_owner t table e).2
  rcases item_cases t table e with ⟨a, b, -, hitems, hset⟩ | ⟨hnone, hitem, hset⟩
  · have hne := h.key_ne hitems
    rw [hset it howner hkey, hitems]
    simp only [mem_append, mem_cons] at hne ⊢
    constructor
    · rintro (hy | rfl | hy)
      · exact .inr ⟨.inl hy, hx ▸ hne y (.inl hy)⟩
      · exact .inl rfl
      · exact .inr ⟨.inr (.inr hy), hx ▸ hne y (.inr hy)⟩
    · rintro (rfl | ⟨hy | rfl | hy, hye⟩)
      · exact .inr (.inl rfl)
      · exact .inl hy
      · exact absurd hx hye
      · exact .inr (.inr hy)
  · have hne : ∀ x ∈ t.items, x.key ≠ e := by
      rcases h.item_mem hfind with hmem | ⟨hne, -⟩
      · exact absurd (item_owner t table e) (hnone _ hmem)
      · exact hne
    rw [hset it howner hkey, mem_append, mem_singleton]
    constructor
    · rintro (hy | rfl)
      · exact .inr ⟨hy, hne y hy⟩
      · exact .inl rfl
    · rintro (rfl | ⟨hy, -⟩)
      · exact .inr rfl
      · exact .inl hy

lemma setItem (hfind : t.mem.find table key = some e) (howner : it.owner = table)
    (hkey : it.key = e) (hextra : it.wdata.isSome → it.extra = key) :
    Itemized { t with items := setItem it t.items } where
  wf := h.wf
  nodup := by
    have hx := (item_owner t table e).2
    have hnodup := h.nodup
    rcases item_cases t table e with ⟨a, b, -, hitems, hset⟩ | ⟨hnone, hitem, hset⟩
    · rw [hset it howner hkey]
      rw [hitems] at hnodup
      simpa [hkey, hx] using hnodup
    · rw [hset it howner hkey, map_append, map_singleton, hkey, nodup_append]
      refine ⟨hnodup, nodup_singleton e, ?_⟩
      intro k hk k' hk'
      obtain ⟨x, hx, rfl⟩ := mem_map.mp hk
      rw [mem_singleton.mp hk']
      rcases h.item_mem hfind with hmem | ⟨hne, -⟩
      · exact absurd (item_owner t table e) (hnone _ hmem)
      · exact hne x hx
  owned y hy := by
    rcases (h.mem_setItem it hfind howner hkey y).mp hy with rfl | ⟨hy, -⟩
    · exact ⟨key, by rw [howner, hkey]; exact hfind, hextra⟩
    · exact h.owned y hy

/-- A key that is not there is inserted. -/
lemma insertNew (hfind : t.mem.find table key = none) (value : Bytes) :
    Itemized (t.insertNew table key value key) where
  wf := h.wf.alloc table key (Elem.make value)
  nodup := by
    rw [Transaction.insertNew, map_append, map_singleton, nodup_append]
    refine ⟨h.nodup, nodup_singleton _, ?_⟩
    intro k hk k' hk'
    obtain ⟨x, hx, rfl⟩ := mem_map.mp hk
    rw [mem_singleton.mp hk']
    exact (h.lt_next hx).ne
  owned y hy := by
    rcases mem_append.mp hy with hy | hy
    · obtain ⟨key', hfind', hextra⟩ := h.owned y hy
      refine ⟨key', ?_, hextra⟩
      rw [Transaction.insertNew, Mem.find_alloc_of_ne, hfind']
      rintro ⟨htable, rfl⟩
      rw [htable, hfind] at hfind'
      cases hfind'
    · rw [mem_singleton.mp hy]
      exact ⟨key, Mem.find_alloc_self _ _ _ _, fun _ => rfl⟩

end

end Itemized

end

end Rolis.Sto
