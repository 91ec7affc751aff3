import Mathlib.Data.List.Induction
import Rolis.Sto.Calls

/-!
# What the items of a transaction hold

`Tracked` says what is in the items after any calls: on a key that was there, the value of the last
put or the key of the last delete, and the delete flag for good; on a key that was not there, the
key, or the value of the last put behind the insert. A put that has to grow an element takes the
transaction out of this description: an element of its own insert is never made valid (`Dead`), and
any other one fails the commit (`Doomed`).
-/

namespace Rolis.Sto

open Function List Mem

/-! ## What the items hold -/

/-- What a transaction that started in `m` has made of one key, after the calls on it. -/
inductive KeyState (m : Mem) (t : Transaction) (table : ℕ) (key : Bytes) (calls : List Op) : Prop
  | absent (hstart : m.find table key = none) (hfind : t.mem.find table key = none)
    (hcalls : ∀ o ∈ calls, o.isDelete)
  | present {e : ℕ} (hstart : m.find table key = some e) (hfind : t.mem.find table key = some e)
    (hheap : t.mem.heap e = m.heap e)
    (hitem : ∀ it ∈ t.items, it.key = e → it.wdata = lastWrite calls ∧ it.hasInsert = false ∧
      it.hasDelete = calls.any Op.isDelete)
    (hsome : calls ≠ [] → ∃ it ∈ t.items, it.key = e)
  | inserted {e : ℕ} {o : Op} {rest : List Op} (hstart : m.find table key = none)
    (hfind : t.mem.find table key = some e) (hheap : t.mem.heap e = Elem.make o.value)
    (hcalls : calls.dropWhile Op.isDelete = o :: rest) (hrest : ∀ o' ∈ rest, o'.isDelete = false)
    (hitem : ∀ it ∈ t.items, it.key = e → it.wdata = some ((lastPut rest).getD key) ∧
      it.hasInsert ∧ it.hasDelete = false)
    (hsome : ∃ it ∈ t.items, it.key = e)

/-- A transaction that started in `m` and has made the calls `ops`, none of which grew an
element. -/
structure Tracked (m : Mem) (ops : List Op) (t : Transaction) : Prop extends Itemized t where
  key : ∀ table key, KeyState m t table key (callsOn ops table key)

/-- An element that the transaction inserted was grown. Its copy is in the tree, and nothing will
make it valid. -/
structure Dead (m : Mem) (ops : List Op) (t : Transaction) (table : ℕ) (key : Bytes) (e : ℕ) :
    Prop where
  wf : t.mem.WellFormed
  find : t.mem.find table key = some e
  invalid : (t.mem.heap e).version.invalid
  not_insert : ∀ it ∈ t.items, it.key = e → it.hasInsert = false
  not_clear : ¬ Clear m ops table key
  expected : resultOf (callsOn ops table key) (m.committed table key) ≠ none

/-- An element that the transaction has read is not valid any more. -/
def Doomed (t : Transaction) : Prop :=
  ∃ it ∈ t.items, it.rdata.isSome ∧ it.hasInsert = false ∧ it.key < t.mem.next ∧
    (t.mem.heap it.key).version.invalid

section

variable {m : Mem} {ops calls : List Op} {t t' : Transaction} {o : Op} {table e : ℕ}
  {key value : Bytes}

/-- Calls on other keys leave a key as it is. -/
lemma KeyState.frame (h : KeyState m t table key calls)
    (hfind : t'.mem.find table key = t.mem.find table key)
    (hheap : ∀ e, t.mem.find table key = some e → t'.mem.heap e = t.mem.heap e)
    (hitems : ∀ e, t.mem.find table key = some e →
      ∀ it : TransItem, it.key = e → (it ∈ t'.items ↔ it ∈ t.items)) :
    KeyState m t' table key calls := by
  cases h with
  | absent hstart hf hcalls => exact .absent hstart (hfind.trans hf) hcalls
  | @present e hstart hf hh hitem hsome =>
    refine .present hstart (hfind.trans hf) ((hheap e hf).trans hh) ?_ ?_
    · intro it hit hkey
      exact hitem it ((hitems e hf it hkey).mp hit) hkey
    · intro hne
      obtain ⟨it, hit, hkey⟩ := hsome hne
      exact ⟨it, (hitems e hf it hkey).mpr hit, hkey⟩
  | @inserted e o rest hstart hf hh hcalls hrest hitem hsome =>
    refine .inserted hstart (hfind.trans hf) ((hheap e hf).trans hh) hcalls hrest ?_ ?_
    · intro it hit hkey
      exact hitem it ((hitems e hf it hkey).mp hit) hkey
    · obtain ⟨it, hit, hkey⟩ := hsome
      exact ⟨it, (hitems e hf it hkey).mpr hit, hkey⟩

/-- The item of the element of a key that was there. -/
lemma KeyState.item_present (hi : Itemized t) (hfind : t.mem.find table key = some e)
    (hitem : ∀ it ∈ t.items, it.key = e → it.wdata = lastWrite calls ∧ it.hasInsert = false ∧
      it.hasDelete = calls.any Op.isDelete)
    (hsome : calls ≠ [] → ∃ it ∈ t.items, it.key = e) :
    (t.item table e).wdata = lastWrite calls ∧ (t.item table e).hasInsert = false ∧
      (t.item table e).hasDelete = calls.any Op.isDelete := by
  rcases hi.item_mem hfind with hmem | ⟨hne, hitem'⟩
  · exact hitem _ hmem (item_owner t table e).2
  · have hnil : calls = [] := by
      by_contra hcalls
      obtain ⟨it, hit, hkey⟩ := hsome hcalls
      exact hne it hit hkey
    rw [hitem', hnil]
    exact ⟨rfl, rfl, rfl⟩

/-- A key that was not there has an item as soon as it is inserted. -/
lemma KeyState.item_inserted (hi : Itemized t) (hfind : t.mem.find table key = some e)
    (hsome : ∃ it ∈ t.items, it.key = e) : t.item table e ∈ t.items := by
  rcases hi.item_mem hfind with hmem | ⟨hne, -⟩
  · exact hmem
  · obtain ⟨it, hit, hkey⟩ := hsome
    exact absurd hkey (hne it hit)

/-- A call on a key that is there. -/
lemma KeyState.found (hi : Itemized t) (h : KeyState m t o.target.1 o.target.2 calls)
    (hfind : t.mem.find o.target.1 o.target.2 = some e)
    (hvalid : (t.mem.heap e).version.invalid →
      (t.item o.target.1 e).hasInsert ∧ o.isDelete = false) :
    KeyState m
      { t with items := setItem (t.touched o e) t.items }
      o.target.1 o.target.2 (calls ++ [o]) := by
  have howner := item_owner t o.target.1 e
  have hmem := hi.mem_setItem (t.touched o e) hfind
    howner.1 howner.2
  -- the item of the element is the one that was set
  have hself : ∀ it ∈ setItem (t.touched o e) t.items,
      it.key = e → it = t.touched o e := by
    intro it hit hkey
    rcases (hmem it).mp hit with rfl | ⟨-, hne⟩
    · rfl
    · exact absurd hkey hne
  have hthere := (hmem _).mpr (.inl rfl)
  cases h with
  | absent hstart hf hcalls =>
    rw [hf] at hfind
    cases hfind
  | @present e' hstart hf hh hitem hsome =>
    cases hf.symm.trans hfind
    obtain ⟨hw, hins, hdel⟩ := item_present hi hf hitem hsome
    refine .present hstart hf hh (fun it hit hkey => ?_) fun _ => ⟨_, hthere, howner.2⟩
    rw [hself it hit hkey]
    exact ⟨by rw [lastWrite_append, ← hw]; rfl, hins, by simp [TransItem.after, hdel]⟩
  | @inserted e' o₁ rest hstart hf hh hcalls hrest hitem hsome =>
    cases hf.symm.trans hfind
    obtain ⟨hw, hins, hdel⟩ := hitem _ (item_inserted hi hf hsome) howner.2
    have hnot : o.isDelete = false := (hvalid (by rw [hh]; rfl)).2
    have hdrop : (calls ++ [o]).dropWhile Op.isDelete = o₁ :: (rest ++ [o]) := by
      rw [dropWhile_append, hcalls]
      rfl
    refine .inserted hstart hf hh hdrop ?_ (fun it hit hkey => ?_) ⟨_, hthere, howner.2⟩
    · intro o' ho'
      rcases mem_append.mp ho' with ho' | ho'
      · exact hrest o' ho'
      · rw [mem_singleton.mp ho']
        exact hnot
    · rw [hself it hit hkey]
      refine ⟨?_, hins, by simp [TransItem.after, hdel, hnot]⟩
      rw [lastPut_append]
      cases o with
      | put => rfl
      | insert => exact hw
      | delete => cases hnot

lemma Tracked.found (h : Tracked m ops t) (hfind : t.mem.find o.target.1 o.target.2 = some e)
    (hvalid : (t.mem.heap e).version.invalid →
      (t.item o.target.1 e).hasInsert ∧ o.isDelete = false) :
    Tracked m (ops ++ [o]) { t with items := setItem (t.touched o e) t.items } := by
  have howner := item_owner t o.target.1 e
  have hextra : (t.touched o e).wdata.isSome → (t.touched o e).extra = o.target.2 := by
    cases o with
    | put | delete => exact fun _ => rfl
    | insert table key value =>
      intro hw
      rw [Transaction.touched, TransItem.after_insert] at hw ⊢
      rcases h.item_mem hfind with hmem | ⟨-, hitem⟩
      · obtain ⟨key', hfind', hextra⟩ := h.owned _ hmem
        rw [howner.1, howner.2] at hfind'
        exact (hextra hw).trans (h.wf.inj hfind hfind').2
      · rw [hitem] at hw
        cases hw
  refine ⟨h.setItem hfind howner.1 howner.2 hextra, fun table key => ?_⟩
  by_cases htarget : o.target = (table, key)
  · rw [callsOn_append_self htarget]
    obtain ⟨rfl, rfl⟩ : o.target.1 = table ∧ o.target.2 = key := by simp [htarget]
    exact (h.key _ _).found h.toItemized hfind hvalid
  · rw [callsOn_append_of_ne htarget]
    refine (h.key table key).frame rfl (fun _ _ => rfl) fun e' hfind' it hkey => ?_
    have hne : it.key ≠ e := by
      rintro rfl
      rw [← hkey] at hfind'
      obtain ⟨h₁, h₂⟩ := h.wf.inj hfind hfind'
      exact htarget (Prod.ext h₁.symm h₂.symm)
    refine (h.mem_setItem (t.touched o e) hfind howner.1 howner.2 it).trans
      ⟨?_, fun hit => .inr ⟨hit, hne⟩⟩
    rintro (rfl | ⟨hit, -⟩)
    · exact absurd howner.2 hne
    · exact hit

lemma Tracked.missed (h : Tracked m ops t) (hdelete : o.isDelete)
    (hfind : t.mem.find o.target.1 o.target.2 = none) : Tracked m (ops ++ [o]) t := by
  refine ⟨h.toItemized, fun table key => ?_⟩
  by_cases htarget : o.target = (table, key)
  · rw [callsOn_append_self htarget]
    rw [htarget] at hfind
    cases h.key table key with
    | absent hstart hf hcalls =>
      refine .absent hstart hf fun o' ho' => ?_
      rcases mem_append.mp ho' with ho' | ho'
      · exact hcalls o' ho'
      · rw [mem_singleton.mp ho']
        exact hdelete
    | present _ hf | inserted _ hf =>
      rw [hf] at hfind
      cases hfind
  · rw [callsOn_append_of_ne htarget]
    exact h.key table key

lemma Tracked.insertNew (h : Tracked m ops t) (hdelete : o.isDelete = false)
    (hfind : t.mem.find o.target.1 o.target.2 = none) :
    Tracked m (ops ++ [o]) (t.insertNew o.target.1 o.target.2 o.value o.target.2) := by
  refine ⟨h.toItemized.insertNew hfind o.value, fun table key => ?_⟩
  by_cases htarget : o.target = (table, key)
  · rw [callsOn_append_self htarget]
    rw [htarget] at hfind ⊢
    cases h.key table key with
    | absent hstart hf hcalls =>
      have hdrop : (callsOn ops table key ++ [o]).dropWhile Op.isDelete = [o] := by
        rw [dropWhile_append, dropWhile_eq_nil_iff.mpr hcalls]
        simp [hdelete]
      refine .inserted hstart (find_alloc_self _ _ _ _) (update_self _ _ _) hdrop
        (forall_mem_nil _) (fun it hit hkey => ?_)
        ⟨_, mem_append_right _ mem_cons_self, rfl⟩
      rcases mem_append.mp hit with hit | hit
      · exact absurd hkey (h.lt_next hit).ne
      · rw [mem_singleton.mp hit]
        exact ⟨rfl, rfl, rfl⟩
    | present _ hf | inserted _ hf =>
      rw [hf] at hfind
      cases hfind
  · rw [callsOn_append_of_ne htarget]
    have hne : ¬ (table = o.target.1 ∧ key = o.target.2) := fun heq =>
      htarget (Prod.ext heq.1.symm heq.2.symm)
    refine (h.key table key).frame (find_alloc_of_ne hne)
      (fun e he => update_of_ne (h.wf.lt_next he).ne _ _) fun e he it hkey => ?_
    have hlt : it.key ≠ t.mem.next := hkey ▸ (h.wf.lt_next he).ne
    simp only [Transaction.insertNew, mem_append, mem_singleton]
    constructor
    · rintro (hit | rfl)
      · exact hit
      · exact absurd rfl hlt
    · exact .inl

/-! ## Elements that are grown -/

/-- An item that has read is still there after one was set, or its successor is. -/
lemma exists_mem_setItem (it : TransItem) {x : TransItem} (howner : it.owner = table)
    (hkey : it.key = e) (hinsert : it.hasInsert = (t.item table e).hasInsert)
    (hread : it.rdata.isSome) (hx : x ∈ t.items) (hxread : x.rdata.isSome) :
    ∃ y ∈ setItem it t.items, y.key = x.key ∧ y.hasInsert = x.hasInsert ∧ y.rdata.isSome := by
  rcases item_cases t table e with ⟨a, b, -, hitems, hset⟩ | ⟨-, -, hset⟩
  · rw [hset it howner hkey]
    by_cases hself : x = t.item table e
    · refine ⟨it, mem_append_right _ mem_cons_self, ?_, ?_, hread⟩
      · rw [hself, hkey, (item_owner t table e).2]
      · rw [hself, hinsert]
    · rw [hitems, mem_append, mem_cons] at hx
      refine ⟨x, ?_, rfl, rfl, hxread⟩
      rw [mem_append, mem_cons]
      exact hx.imp_right fun hx => .inr (hx.resolve_left hself)
  · rw [hset it howner hkey]
    exact ⟨x, mem_append_left _ hx, rfl, rfl, hxread⟩

/-- What a transaction has read and is no longer valid stays so. -/
lemma Doomed.effect (h : Doomed t) (heffect : o.Effect t t') : Doomed t' := by
  obtain ⟨x, hx, hread, hins, hlt, hinv⟩ := h
  -- a call that finds the key sets an item that has read
  have hobserved : ∀ e,
      ∃ y ∈ setItem (t.seen o e) t.items,
      y.key = x.key ∧ y.hasInsert = x.hasInsert ∧ y.rdata.isSome := fun e =>
    exists_mem_setItem _ (item_owner t _ e).1 (item_owner t _ e).2 rfl rfl hx hread
  cases heffect with
  | missed => exact ⟨x, hx, hread, hins, hlt, hinv⟩
  | inserted =>
    refine ⟨x, mem_append_left _ hx, hread, hins, Nat.lt_succ_of_lt hlt, ?_⟩
    rw [Transaction.insertNew, heap_alloc, update_of_ne hlt.ne]
    exact hinv
  | @found e =>
    obtain ⟨y, hy, hkey, hins', hread'⟩ := exists_mem_setItem
      (t.touched o e) (item_owner t _ e).1
      (item_owner t _ e).2 rfl rfl hx hread
    exact ⟨y, hy, hread', hins'.trans hins, hkey ▸ hlt, hkey ▸ hinv⟩
  | @movedNew e =>
    obtain ⟨y, hy, hkey, hins', hread'⟩ := hobserved e
    refine ⟨y, mem_append_left _ hy, hread', hins'.trans hins, Nat.lt_succ_of_lt (hkey ▸ hlt), ?_⟩
    rw [heap_alloc, hkey, update_of_ne hlt.ne]
    exact hinv
  | @moved e =>
    obtain ⟨y, hy, hkey, hins', hread'⟩ := hobserved e
    refine ⟨y, mem_append_left _ hy, hread', hins'.trans hins, Nat.lt_succ_of_lt (hkey ▸ hlt), ?_⟩
    rw [heap_alloc, hkey, next_set, update_of_ne hlt.ne, heap_set]
    by_cases he : x.key = e
    · rw [he, update_self]
      rfl
    · rw [update_of_ne he]
      exact hinv

/-- A transaction that has read an element and marked it invalid is doomed. -/
lemma Tracked.moved (h : Tracked m ops t) (hfind : t.mem.find o.target.1 o.target.2 = some e)
    (hinsert : (t.item o.target.1 e).hasInsert = false) (items : List TransItem) (x : Elem) :
    Doomed ⟨(t.mem.set e ((t.mem.heap e).setInvalid true)).alloc o.target.1 o.target.2 x,
      setItem (t.seen o e) t.items ++ items⟩ := by
  have howner := item_owner t o.target.1 e
  have hlt := h.wf.lt_next hfind
  have hmem := (h.mem_setItem (t.seen o e) hfind howner.1
    howner.2 _).mpr (.inl rfl)
  have hkey : (t.seen o e).key = e := howner.2
  refine ⟨_, mem_append_left _ hmem, rfl, hinsert, ?_, ?_⟩
  · rw [hkey]
    exact Nat.lt_succ_of_lt hlt
  · rw [hkey, heap_alloc, next_set, update_of_ne hlt.ne, heap_set, update_self]
    rfl

lemma Clear.append_iff (h : o.target ≠ (table, key)) :
    Clear m (ops ++ [o]) table key ↔ Clear m ops table key := by
  rw [Clear, Clear, callsOn_append_of_ne h]

section

variable (h : Dead m ops t table key e)

include h

/-- A call on the key of a dead element throws. -/
lemma Dead.target_ne (heffect : o.Effect t t') : o.target ≠ (table, key) := by
  intro htarget
  have hfind' : t.mem.find o.target.1 o.target.2 = some e := by
    rw [htarget]
    exact h.find
  have hitem : (t.item o.target.1 e).hasInsert = false := by
    rcases item_cases t o.target.1 e with ⟨a, b, -, hitems, -⟩ | ⟨-, hitem, -⟩
    · exact h.not_insert _ (hitems ▸ by simp) (item_owner t _ e).2
    · rw [hitem]
  cases heffect with
  | missed _ hfind | inserted _ hfind =>
    rw [hfind] at hfind'
    cases hfind'
  | @found e' hfind hvalid =>
    cases hfind.symm.trans hfind'
    rw [(hvalid h.invalid).1] at hitem
    cases hitem
  | @movedNew e' _ hfind hinsert =>
    cases hfind.symm.trans hfind'
    rw [hinsert] at hitem
    cases hitem
  | @moved e' _ hfind _ hvalid =>
    cases hfind.symm.trans hfind'
    exact absurd h.invalid (by rw [hvalid]; exact Bool.false_ne_true)

/-- A change of other elements and other keys leaves an element dead. -/
lemma Dead.frame (hne : o.target ≠ (table, key)) (hwf : t'.mem.WellFormed)
    (hfind : t'.mem.find table key = t.mem.find table key) (hheap : t'.mem.heap e = t.mem.heap e)
    (hitems : ∀ it ∈ t'.items, it.key = e → it ∈ t.items) : Dead m (ops ++ [o]) t' table key e where
  wf := hwf
  find := hfind.trans h.find
  invalid := hheap ▸ h.invalid
  not_insert it hit hkey := h.not_insert it (hitems it hit hkey) hkey
  not_clear := by rw [Clear.append_iff hne]; exact h.not_clear
  expected := by rw [callsOn_append_of_ne hne]; exact h.expected

lemma Dead.effect (heffect : o.Effect t t') : Dead m (ops ++ [o]) t' table key e := by
  have hne := h.target_ne heffect
  have hne' : ¬ (table = o.target.1 ∧ key = o.target.2) := fun heq =>
    hne (Prod.ext heq.1.symm heq.2.symm)
  have hlt := h.wf.lt_next h.find
  -- the element of the call is another one
  have helem : ∀ {e'}, t.mem.find o.target.1 o.target.2 = some e' → e' ≠ e := by
    rintro e' hfind rfl
    exact hne' (h.wf.inj hfind h.find)
  have hset : ∀ {e' : ℕ} {it x : TransItem}, x ∈ setItem it t.items → x.key = e → e' ≠ e →
      it.owner = o.target.1 → it.key = e' → x ∈ t.items := by
    intro e' it x hx hxe hee howner hkey
    rcases item_cases t o.target.1 e' with ⟨a, b, -, hitems, hset⟩ | ⟨-, -, hset⟩
    · rw [hset it howner hkey, mem_append, mem_cons] at hx
      rw [hitems, mem_append, mem_cons]
      refine hx.imp_right fun hx => .inr (hx.resolve_left ?_)
      rintro rfl
      exact hee (hkey.symm.trans hxe)
    · rw [hset it howner hkey, mem_append, mem_singleton] at hx
      refine hx.resolve_right ?_
      rintro rfl
      exact hee (hkey.symm.trans hxe)
  cases heffect with
  | missed => exact h.frame hne h.wf rfl rfl fun _ hit _ => hit
  | inserted =>
    refine h.frame hne (h.wf.alloc _ _ _) (find_alloc_of_ne hne') (update_of_ne hlt.ne _ _) ?_
    intro it hit hkey
    refine (mem_append.mp hit).resolve_right fun hit => ?_
    rw [mem_singleton.mp hit] at hkey
    exact hlt.ne hkey.symm
  | @found e' hfind =>
    refine h.frame hne h.wf rfl rfl fun it hit hkey => ?_
    exact hset hit hkey (helem hfind) (item_owner t _ e').1 (item_owner t _ e').2
  | @movedNew e' _ hfind =>
    refine h.frame hne (h.wf.alloc _ _ _) (find_alloc_of_ne hne') (update_of_ne hlt.ne _ _) ?_
    intro it hit hkey
    rcases mem_append.mp hit with hit | hit
    · exact hset hit hkey (helem hfind) (item_owner t _ e').1 (item_owner t _ e').2
    · rw [mem_singleton.mp hit] at hkey
      exact absurd hkey.symm hlt.ne
  | @moved e' _ hfind =>
    refine h.frame hne ((h.wf.set _ _).alloc _ _ _) (find_alloc_of_ne hne') ?_ ?_
    · rw [heap_alloc, next_set, update_of_ne hlt.ne, heap_set, update_of_ne (helem hfind).symm]
    · intro it hit hkey
      rcases mem_append.mp hit with hit | hit
      · exact hset hit hkey (helem hfind) (item_owner t _ e').1 (item_owner t _ e').2
      · rw [mem_singleton.mp hit] at hkey
        exact absurd hkey.symm hlt.ne

end

/-- A put that does not fit the element of the transaction's own insert. -/
lemma Tracked.movedNew (h : Tracked m ops t) (hput : o.isPut)
    (hfind : t.mem.find o.target.1 o.target.2 = some e)
    (hinsert : (t.item o.target.1 e).hasInsert)
    (hroom : (t.mem.heap e).capacity < o.value.length) :
    Dead m (ops ++ [o]) ⟨t.mem.alloc o.target.1 o.target.2 ((t.mem.heap e).resize o.value),
        setItem (t.seen o e) t.items ++
          [copyItem o.target.1 t.mem.next o.target.2 o.value]⟩
      o.target.1 o.target.2 t.mem.next := by
  have howner := item_owner t o.target.1 e
  cases h.key o.target.1 o.target.2 with
  | absent _ hf =>
    rw [hf] at hfind
    cases hfind
  | @present e' _ hf _ hitem hsome =>
    cases hf.symm.trans hfind
    rw [(KeyState.item_present h.toItemized hf hitem hsome).2.1] at hinsert
    cases hinsert
  | @inserted e' o₁ rest hstart hf hheap hcalls hrest hitem hsome =>
    cases hf.symm.trans hfind
    rw [hheap] at hroom
    have hcommitted : m.committed o.target.1 o.target.2 = none := committed_of_find_none hstart
    have hdrop : (callsOn ops o.target.1 o.target.2 ++ [o]).dropWhile Op.isDelete =
        o₁ :: (rest ++ [o]) := by
      rw [dropWhile_append, hcalls]
      rfl
    have hcalls' : callsOn (ops ++ [o]) o.target.1 o.target.2 =
        callsOn ops o.target.1 o.target.2 ++ [o] := callsOn_append_self rfl
    refine ⟨h.wf.alloc _ _ _, find_alloc_self _ _ _ _, ?_, ?_, ?_, ?_⟩
    · rw [heap_alloc, update_self, hheap]
      rfl
    · intro it hit hkey
      rcases mem_append.mp hit with hit | hit
      · rcases (h.mem_setItem (t.seen o e) hfind
          howner.1 howner.2 it).mp hit with rfl | ⟨hit, -⟩
        · exact absurd (howner.2.symm.trans hkey) (h.wf.lt_next hfind).ne
        · exact absurd hkey (h.lt_next hit).ne
      · rw [mem_singleton.mp hit]
        rfl
    · rw [clear_inserted_iff hcommitted (by rw [hcalls', hdrop])]
      intro hclear
      have hlast : o.value ∈ lastPut (rest ++ [o]) := by
        rw [lastPut_append, if_pos hput]
        rfl
      -- the value of the insert fits, this one does not
      rw [(hclear o.value hlast).1] at hroom
      exact absurd hroom (not_lt.mpr (le_capacityFor o₁.value.length))
    · rw [hcalls', resultOf_append]
      cases o with
      | put => exact Option.some_ne_none _
      | insert | delete => cases hput

lemma Tracked.start (hm : m.Quiet) : Tracked m [] ⟨m, []⟩ := by
  refine ⟨⟨hm.toWellFormed, nodup_nil, forall_mem_nil _⟩, fun table key => ?_⟩
  cases h : m.find table key with
  | none => exact .absent h h (forall_mem_nil _)
  | some e => exact .present h h rfl (forall_mem_nil _) fun hne => absurd rfl hne

/-- Any calls that return leave the transaction tracked, or with an element that was grown. -/
lemma runOps_cases (hm : m.Quiet) (h : runOps ops ⟨m, []⟩ = .ok t) :
    Tracked m ops t ∨ (∃ table key e, Dead m ops t table key e) ∨ Doomed t := by
  induction ops using reverseRecOn generalizing t with
  | nil =>
    cases h
    exact .inl (Tracked.start hm)
  | append_singleton ops o ih =>
    have hsplit : runOps (ops ++ [o]) ⟨m, []⟩ = (runOps ops ⟨m, []⟩).bind o.run := by
      unfold runOps
      rw [foldlM_append]
      simp only [foldlM_cons, foldlM_nil, bind_pure]
      rfl
    rw [hsplit] at h
    cases hrun : runOps ops ⟨m, []⟩ with
    | error t₁ =>
      rw [hrun] at h
      cases h
    | ok t₁ =>
      rw [hrun] at h
      have heffect := Op.effect_of_run h
      rcases ih hrun with htracked | ⟨table, key, e, hdead⟩ | hdoomed
      · cases heffect with
        | missed hdelete hfind => exact .inl (htracked.missed hdelete hfind)
        | inserted hdelete hfind => exact .inl (htracked.insertNew hdelete hfind)
        | found hfind hvalid => exact .inl (htracked.found hfind hvalid)
        | movedNew hput hfind hinsert hroom =>
          exact .inr (.inl ⟨_, _, _, htracked.movedNew hput hfind hinsert hroom⟩)
        | moved hput hfind hinsert => exact .inr (.inr (htracked.moved hfind hinsert _ _))
      · exact .inr (.inl ⟨table, key, e, hdead.effect heffect⟩)
      · exact .inr (.inr (hdoomed.effect heffect))

end

end Rolis.Sto
