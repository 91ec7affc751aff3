import Mathlib.Data.List.Pairwise
import Rolis.Sto.OccMemory
import Rolis.Sto.Sequential

/-!
# The items of a transaction

A transaction may have several items of one element or node. Only the version that the first of them
has observed counts, since the check of the others is forgiven: `lead` is that version. `Adds` is
what a new or changed item means for a list of items, and `ItemsOk` what the items of a transaction
that keeps to its discipline look like.
-/

namespace Rolis.Sto.Occ

open List Option

variable {M : Masstree} {ι N : Type} {σ : Store M ι} {here e : ℕ} {k : Key}

/-! ## Observed versions -/

section

variable [DecidableEq N] {items items' : List (Item N)} {it : Item N} {r : Ref N} {st : Stamp}

/-- The version that the first item of `r` with a read has observed. -/
def lead (items : List (Item N)) (r : Ref N) : Option Stamp :=
  (items.find? fun it => it.ref = r && it.rdata.isSome).bind (·.rdata)

@[simp] lemma lead_nil (r : Ref N) : lead [] r = none := rfl

lemma lead_append (a b : List (Item N)) (r : Ref N) :
    lead (a ++ b) r = (lead a r).or (lead b r) := by
  rw [lead, find?_append, lead]
  cases h : a.find? fun it => it.ref = r && it.rdata.isSome with
  | none => rfl
  | some it =>
    have hit := find?_some h
    rw [Bool.and_eq_true] at hit
    obtain ⟨st, hst⟩ := isSome_iff_exists.mp hit.2
    simp [hst]

lemma lead_singleton (it : Item N) (r : Ref N) :
    lead [it] r = if it.ref = r then it.rdata else none := by
  by_cases h : it.ref = r
  · cases hst : it.rdata <;> simp [lead, h, hst]
  · simp [lead, h]

lemma lead_append_cons (a b : List (Item N)) (it : Item N) (r : Ref N) : lead (a ++ it :: b) r =
      (lead a r).or ((if it.ref = r then it.rdata else none).or (lead b r)) := by
  have hcons : lead (it :: b) r = (lead [it] r).or (lead b r) := lead_append [it] b r
  rw [lead_append, hcons, lead_singleton]

lemma lead_eq_none_iff : lead items r = none ↔ ∀ it ∈ items, it.ref = r → it.rdata = none := by
  induction items with
  | nil => simp
  | cons it items ih =>
    have h : lead (it :: items) r = (lead [it] r).or (lead items r) := lead_append [it] items r
    rw [h, or_eq_none_iff, ih, lead_singleton]
    simp

lemma lead_isSome (h : it ∈ items) (hst : it.rdata.isSome) : (lead items it.ref).isSome := by
  rw [isSome_iff_ne_none, Ne, lead_eq_none_iff]
  intro hnone
  rw [hnone it h rfl] at hst
  cases hst

lemma lead_concat_isSome (items : List (Item N)) (it : Item N) (hst : it.rdata.isSome) :
    (lead (items ++ [it]) it.ref).isSome :=
  lead_isSome (mem_append_right _ (mem_singleton_self it)) hst

lemma exists_of_lead (h : lead items r = some st) :
    ∃ it ∈ items, it.ref = r ∧ it.rdata = some st := by
  obtain ⟨it, hit, hst⟩ := bind_eq_some_iff.mp h
  have hr := find?_some hit
  rw [Bool.and_eq_true, decide_eq_true_eq] at hr
  exact ⟨it, mem_of_find?_eq_some hit, hr.1, hst⟩

/-- An item with a read either is the first one or comes behind the first one. -/
lemma lead_of_getElem? {j : ℕ} (h : items[j]? = some it) (hst : it.rdata.isSome) :
    (∃ it' ∈ items.take j, it'.ref = it.ref ∧ it'.rdata.isSome) ∨ lead items it.ref = it.rdata := by
  obtain ⟨hj, rfl⟩ := List.getElem?_eq_some_iff.mp h
  have hsplit : items = items.take j ++ items[j] :: items.drop (j + 1) := by
    rw [← List.drop_eq_getElem_cons hj, List.take_append_drop]
  cases hl : lead (items.take j) items[j].ref with
  | some st =>
    obtain ⟨it', hit', href, hrd⟩ := exists_of_lead hl
    exact .inl ⟨it', hit', href, by rw [hrd]; rfl⟩
  | none =>
    right
    obtain ⟨st, hst⟩ := isSome_iff_exists.mp hst
    have hlead := lead_append_cons (items.take j) (items.drop (j + 1)) items[j] items[j].ref
    rw [← hsplit] at hlead
    rw [hlead, hl, if_pos rfl, hst]
    rfl

/-- Versions that have been observed stay. -/
def Extends (items items' : List (Item N)) : Prop :=
  ∀ r, (lead items r).isSome → lead items' r = lead items r

lemma Extends.append (a b : List (Item N)) : Extends a (a ++ b) := by
  intro r h
  obtain ⟨st, hst⟩ := isSome_iff_exists.mp h
  rw [lead_append, hst]
  rfl

end

/-! ## Items come in -/

/-- No two items write the same key. -/
def Distinct (items : List (Item N)) : Prop :=
  items.Pairwise fun x y => x.wdata.isSome → y.wdata.isSome → x.key ≠ y.key

lemma Distinct.eq_of_key {items : List (Item N)} (h : Distinct items) {x y : Item N}
    (hx : x ∈ items) (hy : y ∈ items) (hxw : x.wdata.isSome) (hyw : y.wdata.isSome)
    (hkey : x.key = y.key) : x = y := by
  have : Std.Symm fun x y : Item N => x.wdata.isSome → y.wdata.isSome → x.key ≠ y.key :=
    ⟨fun _ _ hne hyw hxw => (hne hxw hyw).symm⟩
  by_contra hne
  exact List.Pairwise.forall h hx hy hne hxw hyw hkey

/-- `it` has come into the items, behind all others or in the place of an item without a write. -/
structure Adds [DecidableEq N] (items items' : List (Item N)) (it : Item N) : Prop where
  mem : it ∈ items'
  of_mem : ∀ {x}, x ∈ items' → x ∈ items ∨ x = it
  keep : ∀ {x}, x ∈ items → x.wdata.isSome → x ∈ items'
  of_lead : ∀ {r st}, lead items' r = some st →
    lead items r = some st ∨ r = it.ref ∧ it.rdata = some st
  lead_keep : ∀ {r}, (lead items r).isSome → (lead items' r).isSome
  distinct : Distinct items → (it.wdata.isSome → ∀ x ∈ items, x.wdata.isSome → x.key ≠ it.key) →
    Distinct items'

section

variable [DecidableEq N] {items : List (Item N)} {it : Item N}

lemma Adds.append (items : List (Item N)) (it : Item N) : Adds items (items ++ [it]) it where
  mem := by simp
  of_mem h := by simpa using h
  keep h _ := by simp [h]
  of_lead {r st} h := by
    rw [lead_append, or_eq_some_iff, lead_singleton] at h
    rcases h with h | ⟨-, h⟩
    · exact .inl h
    · split at h
      · next heq => exact .inr ⟨heq.symm, h⟩
      · cases h
  lead_keep {r} h := by
    rw [Extends.append items [it] r h]
    exact h
  distinct hd hnew := by
    refine pairwise_append.mpr ⟨hd, by simp, fun x hx y hy hxw hyw => ?_⟩
    cases mem_singleton.mp hy
    exact hnew hyw x hx hxw

/-- The two cases of `setItem`. -/
lemma setItem_cases (it : Item N) (items : List (Item N)) :
    (∃ a x b, items = a ++ x :: b ∧ x.ref = it.ref ∧ (∀ y ∈ a, y.ref ≠ it.ref) ∧
      setItem it items = a ++ it :: b) ∨
    (∀ y ∈ items, y.ref ≠ it.ref) ∧ setItem it items = items ++ [it] := by
  induction items with
  | nil => exact .inr ⟨forall_mem_nil _, rfl⟩
  | cons x items ih =>
    by_cases hx : x.ref = it.ref
    · exact .inl ⟨[], x, items, rfl, hx, forall_mem_nil _, by simp [setItem, hx]⟩
    · rcases ih with ⟨a, y, b, rfl, hy, ha, hset⟩ | ⟨hall, hset⟩
      · refine .inl ⟨x :: a, y, b, rfl, hy, forall_mem_cons.mpr ⟨hx, ha⟩, ?_⟩
        rw [setItem, if_neg hx, hset]
        rfl
      · refine .inr ⟨forall_mem_cons.mpr ⟨hx, hall⟩, ?_⟩
        rw [setItem, if_neg hx, hset]
        rfl

/-- An item without a write is replaced by one with the same `ref`, and both have a read. -/
lemma Adds.replace {a b : List (Item N)} {x : Item N} (href : x.ref = it.ref)
    (hx : x.rdata.isSome) (hit : it.rdata.isSome) (hw : x.wdata = none) :
    Adds (a ++ x :: b) (a ++ it :: b) it := by
  refine ⟨by simp, fun {y} hy => ?_, fun {y} hy hyw => ?_, fun {r st} h => ?_, fun {r} h => ?_,
    fun hd hnew => ?_⟩
  · rcases mem_append.mp hy with hy | hy
    · exact .inl (by simp [hy])
    · rcases mem_cons.mp hy with hy | hy
      · exact .inr hy
      · exact .inl (by simp [hy])
  · rcases mem_append.mp hy with hy | hy
    · simp [hy]
    · rcases mem_cons.mp hy with rfl | hy
      · rw [hw] at hyw
        cases hyw
      · simp [hy]
  · rw [lead_append_cons, href]
    rw [lead_append_cons] at h
    by_cases hr : it.ref = r
    · cases ha : lead a r with
      | some st' =>
        rw [ha] at h
        exact .inl (by simpa using h)
      | none =>
        obtain ⟨st', hst'⟩ := isSome_iff_exists.mp hit
        rw [ha, if_pos hr, hst'] at h
        exact .inr ⟨hr.symm, hst'.trans (by simpa using h)⟩
    · rw [if_neg hr] at h ⊢
      exact .inl h
  · rw [lead_append_cons] at h ⊢
    rw [href] at h
    by_cases hr : it.ref = r
    · rw [if_pos hr]
      simp [hit]
    · rw [if_neg hr] at h ⊢
      exact h
  · have hperm : Distinct (a ++ it :: b) ↔ Distinct (it :: (a ++ b)) := by
      refine List.Perm.pairwise_iff (fun h hy hx => (h hx hy).symm) perm_middle
    refine hperm.mpr (pairwise_cons.mpr ⟨fun y hy hitw hyw => ?_, ?_⟩)
    · exact (hnew hitw y (by
        rcases mem_append.mp hy with hy | hy <;> simp [hy]) hyw).symm
    · exact hd.sublist (List.Sublist.append_left (sublist_cons_self x b) a)

/-- A changed item of an element or node whose items all are without a write and with a read. -/
lemma Adds.setItem (hread : ∀ x ∈ items, x.ref = it.ref → x.rdata.isSome ∧ x.wdata = none)
    (hit : it.rdata.isSome) : Adds items (setItem it items) it := by
  rcases setItem_cases it items with ⟨a, x, b, rfl, hx, -, hset⟩ | ⟨-, hset⟩
  · rw [hset]
    obtain ⟨hxr, hxw⟩ := hread x (by simp) hx
    exact Adds.replace hx hxr hit hxw
  · rw [hset]
    exact Adds.append items it

end

/-! ## The items of a transaction -/

/-- What the items of inserts, deletes and updates look like. -/
inductive Item.Writes (it : Item N) : Prop
  | insert (hi : it.hasInsert) (hd : it.hasDelete = false) (hw : it.wdata = some it.extra)
    (he : it.effect.isSome)
  | delete (hi : it.hasInsert = false) (hd : it.hasDelete) (hw : it.wdata = some it.extra)
    (he : it.effect = none)
  | update (hi : it.hasInsert = false) (hd : it.hasDelete = false) (he : it.effect = it.wdata)

/-- A version that was observed by a transaction on the thread `here`. -/
def Stamped (σ : Store M ι) (here : ℕ) : Ref M.Node → Stamp → Prop
  | .elem e, .word w =>
    e < σ.next ∧ w.version.count ≤ (σ.heap e).word.version.count ∧
      (w.version.invalid = false → (σ.heap e).live) ∧ (w.lock = none ∨ w.lock = some here)
  | .node table n, .version v => v ≤ σ.nodeVersion (.node table n)
  | _, _ => False

lemma Stamped.drift {σ' : Store M ι} {r : Ref M.Node} {st : Stamp} (hd : Drifts σ σ')
    (h : Stamped σ here r st) : Stamped σ' here r st := by
  cases r with
  | elem e =>
    cases st with
    | word w =>
      obtain ⟨hlt, hcount, hlive, hlock⟩ := h
      have hf := hd.follows hlt
      exact ⟨hlt.trans_le hd.next_le, hcount.trans hf.count, fun hv => hf.live (hlive hv), hlock⟩
    | version v => exact h.elim
  | node table n =>
    cases st with
    | word w => exact h.elim
    | version v => exact le_trans h (hd.version _)

/-- The items of a transaction that has replaced the elements `grown`. -/
structure ItemsOk (σ : Store M ι) (here : ℕ) (items : List (Item M.Node)) (grown : List ℕ) :
    Prop where
  ref : ∀ it ∈ items, ∀ e, it.ref = .elem e → e < σ.next ∧ (σ.heap e).key.1 = it.owner
  write : ∀ it ∈ items, it.wdata.isSome →
    it.Writes ∧ ∃ e, it.ref = .elem e ∧ (σ.heap e).key = it.key
  read : ∀ it ∈ items, it.wdata = none →
    it.rdata.isSome ∧ it.hasInsert = false ∧ it.hasDelete = false
  insert : ∀ it ∈ items, it.hasInsert → it.rdata = none
  distinct : Distinct items
  stamp : ∀ r st, lead items r = some st → Stamped σ here r st
  update : ∀ it ∈ items, it.hasInsert = false → ∀ e, it.writesElem e →
    (σ.heap e).live ∧ ((lead items (.elem e)).isSome ∨ grown ≠ [])
  grown : ∀ e ∈ grown, e < σ.next ∧ (σ.heap e).live ∧ (σ.heap e).word.version.invalid ∧
    (lead items (.elem e)).isSome

section

variable {σ' : Store M ι} {items items' : List (Item M.Node)} {grown : List ℕ} {it : Item M.Node}

lemma ItemsOk.nil (σ : Store M ι) (here : ℕ) : ItemsOk σ here [] [] where
  ref := forall_mem_nil _
  write := forall_mem_nil _
  read := forall_mem_nil _
  insert := forall_mem_nil _
  distinct := List.Pairwise.nil
  stamp _ _ h := by cases h
  update := forall_mem_nil _
  grown := forall_mem_nil _

lemma ItemsOk.drift (h : ItemsOk σ here items grown) (hd : Drifts σ σ') :
    ItemsOk σ' here items grown where
  ref it hit e href := by
    obtain ⟨hlt, hkey⟩ := h.ref it hit e href
    exact ⟨hlt.trans_le hd.next_le, by rw [(hd.follows hlt).key, hkey]⟩
  write it hit hw := by
    obtain ⟨hwrites, e, href, hkey⟩ := h.write it hit hw
    exact ⟨hwrites, e, href, by rw [(hd.follows (h.ref it hit e href).1).key, hkey]⟩
  read := h.read
  insert := h.insert
  distinct := h.distinct
  stamp r st hst := (h.stamp r st hst).drift hd
  update it hit hins e hwrite := by
    obtain ⟨hlive, hlead⟩ := h.update it hit hins e hwrite
    exact ⟨(hd.follows (h.ref it hit e hwrite.1).1).live hlive, hlead⟩
  grown e he := by
    obtain ⟨hlt, hlive, hinv, hlead⟩ := h.grown e he
    have hf := hd.follows hlt
    exact ⟨hlt.trans_le hd.next_le, hf.live hlive, (hf.dead hlive hinv).1, hlead⟩

/-- What an item must be to come into the items. -/
structure Item.Enters (σ : Store M ι) (here : ℕ) (items : List (Item M.Node)) (grown : List ℕ)
    (it : Item M.Node) : Prop where
  ref : ∀ e, it.ref = .elem e → e < σ.next ∧ (σ.heap e).key.1 = it.owner
  read : it.wdata = none → it.rdata.isSome ∧ it.hasInsert = false ∧ it.hasDelete = false
  write : it.wdata.isSome → it.Writes ∧ (∃ e, it.ref = .elem e ∧ (σ.heap e).key = it.key) ∧
    ∀ x ∈ items, x.wdata.isSome → x.key ≠ it.key
  insert : it.hasInsert → it.rdata = none
  stamp : ∀ st, it.rdata = some st → Stamped σ here it.ref st
  update : it.hasInsert = false → ∀ e, it.writesElem e →
    (σ.heap e).live ∧ (it.rdata.isSome ∨ grown ≠ [])

lemma ItemsOk.add (h : ItemsOk σ here items grown) (ha : Adds items items' it)
    (hit : it.Enters σ here items grown) : ItemsOk σ here items' grown where
  ref x hx := by
    rcases ha.of_mem hx with hx | rfl
    · exact h.ref x hx
    · exact hit.ref
  write x hx hw := by
    rcases ha.of_mem hx with hx | rfl
    · exact h.write x hx hw
    · exact ⟨(hit.write hw).1, (hit.write hw).2.1⟩
  read x hx := by
    rcases ha.of_mem hx with hx | rfl
    · exact h.read x hx
    · exact hit.read
  insert x hx := by
    rcases ha.of_mem hx with hx | rfl
    · exact h.insert x hx
    · exact hit.insert
  distinct := ha.distinct h.distinct fun hw => (hit.write hw).2.2
  stamp r st hst := by
    rcases ha.of_lead hst with hold | ⟨rfl, hnew⟩
    · exact h.stamp r st hold
    · exact hit.stamp st hnew
  update x hx hins e hwrite := by
    rcases ha.of_mem hx with hx | rfl
    · exact (h.update x hx hins e hwrite).imp_right (Or.imp_left ha.lead_keep)
    · refine (hit.update hins e hwrite).imp_right (Or.imp_left fun hst => ?_)
      have hlead := lead_isSome ha.mem hst
      rwa [hwrite.1] at hlead
  grown e he := by
    obtain ⟨hlt, hlive, hinv, hlead⟩ := h.grown e he
    exact ⟨hlt, hlive, hinv, ha.lead_keep hlead⟩

/-- An element has been replaced. -/
lemma ItemsOk.grow (h : ItemsOk σ here items grown) (hlt : e < σ.next)
    (hlive : (σ.heap e).live) (hinv : (σ.heap e).word.version.invalid)
    (hlead : (lead items (.elem e)).isSome) : ItemsOk σ here items (e :: grown) :=
  { h with
    update := fun it hit hins e' hwrite =>
      (h.update it hit hins e' hwrite).imp_right (Or.imp_right fun _ => cons_ne_nil _ _)
    grown := forall_mem_cons.mpr ⟨⟨hlt, hlive, hinv, hlead⟩, h.grown⟩ }

/-- The item of a read. -/
lemma Item.Enters.of_read (hlt : e < σ.next) {w : Word} {owner : ℕ}
    (hkey : (σ.heap e).key.1 = owner) (hw : Stamped σ here (.elem e) (.word w)) :
    (readItem owner e w : Item M.Node).Enters σ here items grown where
  ref e' href := by
    cases href
    exact ⟨hlt, hkey⟩
  read _ := ⟨rfl, rfl, rfl⟩
  write hw := by cases hw
  insert hi := by cases hi
  stamp st hst := by
    cases hst
    exact hw
  update _ e' hwrite := by cases hwrite.2

/-- The item of a node. -/
lemma Item.Enters.of_node {table : ℕ} {n : M.Node} {v : ℕ}
    (hv : v ≤ σ.nodeVersion (.node table n)) :
    (nodeItem table n v).Enters σ here items grown where
  ref e' href := by cases href
  read _ := ⟨rfl, rfl, rfl⟩
  write hw := by cases hw
  insert hi := by cases hi
  stamp st hst := by
    cases hst
    exact hv
  update _ e' hwrite := by cases hwrite.2

end

/-! ## Items and calls -/

/-- The items with a write are the writes of the calls. -/
structure Linked (calls : List (Call × Result)) (items : List (Item N)) : Prop where
  writes : ∀ k v, writeOf calls k = some v ↔
    ∃ it ∈ items, it.wdata.isSome ∧ it.key = k ∧ it.effect = v
  inserted : ∀ k, Inserted calls k → ∃ it ∈ items, it.hasInsert ∧ it.wdata.isSome ∧ it.key = k

section

variable [DecidableEq N] {calls : List (Call × Result)} {items items' : List (Item N)} {it : Item N}
  {x : Call × Result}

section

variable (h : Linked calls items)

include h

omit [DecidableEq N] in
lemma Linked.not_mem (hk : k ∉ written calls) : ∀ it ∈ items, it.wdata.isSome → it.key ≠ k := by
  rintro it hit hw rfl
  have hwrite := (h.writes it.key it.effect).mpr ⟨it, hit, hw, rfl, rfl⟩
  exact hk (mem_written_of_writeOf (by rw [hwrite]; exact some_ne_none _))

/-- An item without a write comes in. -/
lemma Linked.add_read (ha : Adds items items' it) (hit : it.wdata = none) :
    Linked calls items' := by
  have hmem : ∀ y, y.wdata.isSome → (y ∈ items' ↔ y ∈ items) := by
    refine fun y hy => ⟨fun hmem => ?_, fun hmem => ha.keep hmem hy⟩
    rcases ha.of_mem hmem with hmem | rfl
    · exact hmem
    · rw [hit] at hy
      cases hy
  constructor
  · intro k v
    rw [h.writes]
    constructor
    · rintro ⟨y, hy, hw, hr⟩
      exact ⟨y, (hmem y hw).mpr hy, hw, hr⟩
    · rintro ⟨y, hy, hw, hr⟩
      exact ⟨y, (hmem y hw).mp hy, hw, hr⟩
  · intro k hk
    obtain ⟨y, hy, hins, hw, hkey⟩ := h.inserted k hk
    exact ⟨y, (hmem y hw).mpr hy, hins, hw, hkey⟩

omit [DecidableEq N] in
/-- A call that changes nothing is answered. -/
lemma Linked.answer_read (heff : ∀ k, effect x k = none) (hins : ∀ k, ¬ Inserts x k) :
    Linked (calls ++ [x]) items := by
  constructor
  · intro k v
    rw [writeOf_concat, heff, none_or, h.writes]
  · rintro k ⟨y, hy, hk⟩
    rcases mem_append.mp hy with hy | hy
    · exact h.inserted k ⟨y, hy, hk⟩
    · rw [mem_singleton] at hy
      exact absurd hk (hy ▸ hins k)

/-- A call that writes a new key is answered, and its item comes in. -/
lemma Linked.answer_write (ha : Adds items items' it) (hw : it.wdata.isSome)
    (hnew : it.key ∉ written calls)
    (heff : ∀ k, effect x k = if k = it.key then some it.effect else none)
    (hins : ∀ k, Inserts x k → it.hasInsert ∧ k = it.key) : Linked (calls ++ [x]) items' := by
  constructor
  · intro k v
    rw [writeOf_concat, heff]
    by_cases hk : k = it.key
    · rw [if_pos hk, some_or, some.injEq]
      refine ⟨fun heq => ⟨it, ha.mem, hw, hk.symm, heq⟩, ?_⟩
      rintro ⟨y, hy, hyw, hyk, hye⟩
      rcases ha.of_mem hy with hy | rfl
      · exact absurd (hyk.trans hk) (h.not_mem hnew y hy hyw)
      · exact hye
    · rw [if_neg hk, none_or, h.writes]
      constructor
      · rintro ⟨y, hy, hyw, hr⟩
        exact ⟨y, ha.keep hy hyw, hyw, hr⟩
      · rintro ⟨y, hy, hyw, hyk, hye⟩
        rcases ha.of_mem hy with hy | rfl
        · exact ⟨y, hy, hyw, hyk, hye⟩
        · exact absurd hyk.symm hk
  · rintro k ⟨y, hy, hk⟩
    rcases mem_append.mp hy with hy | hy
    · obtain ⟨z, hz, hzi, hzw, hzk⟩ := h.inserted k ⟨y, hy, hk⟩
      exact ⟨z, ha.keep hz hzw, hzi, hzw, hzk⟩
    · rw [mem_singleton] at hy
      obtain ⟨hi, rfl⟩ := hins k (hy ▸ hk)
      exact ⟨it, ha.mem, hi, hw, rfl⟩

end

end

/-! ## Observing an element -/

section

variable {t : Txn M.Node ι} {w : Word}

/-- What `observe` makes of the item of an element whose key the transaction has not written. -/
structure Observed (items : List (Item M.Node)) (k : Key) (e : ℕ) (w : Word) (it : Item M.Node) :
    Prop where
  ref : it.ref = .elem e
  owner : it.owner = k.1
  wdata : it.wdata = none
  hasInsert : it.hasInsert = false
  hasDelete : it.hasDelete = false
  rdata : it.rdata = lead items (.elem e) ∨ lead items (.elem e) = none ∧ it.rdata = some (.word w)
  isSome : it.rdata.isSome
  adds : ∀ it' : Item M.Node, it'.ref = it.ref → it'.rdata = it.rdata →
    Adds items (setItem it' items) it' ∧ Extends items (setItem it' items)

lemma ItemsOk.observed (h : ItemsOk σ here t.items t.grown)
    (hk : ∀ it ∈ t.items, it.wdata.isSome → it.key ≠ k) (hkey : (σ.heap e).key = k) (w : Word) :
    Observed t.items k e w ((t.item k.1 e).observe w) := by
  -- no item of the element has a write, so all of them have a read
  have hread : ∀ x ∈ t.items, x.ref = .elem e → x.rdata.isSome ∧ x.wdata = none := by
    intro x hx href
    cases hw : x.wdata with
    | none => exact ⟨(h.read x hx hw).1, rfl⟩
    | some v =>
      have hwr : x.wdata.isSome := by rw [hw]; rfl
      obtain ⟨-, e', href', hkey'⟩ := h.write x hx hwr
      cases href.symm.trans href'
      exact absurd (hkey'.symm.trans hkey) (hk x hx hwr)
  cases hfind : t.items.find? fun it => it.ref = .elem e with
  | none =>
    have hitem : t.item k.1 e = { ref := .elem e, owner := k.1 } := by rw [Txn.item, hfind]; rfl
    have hnot : ∀ x ∈ t.items, x.ref ≠ .elem e := by
      intro x hx href
      have := find?_eq_none.mp hfind x hx
      simp [href] at this
    have hlead : lead t.items (.elem e) = none :=
      lead_eq_none_iff.mpr fun x hx href => absurd href (hnot x hx)
    rw [hitem]
    refine ⟨rfl, rfl, rfl, rfl, rfl, .inr ⟨hlead, rfl⟩, rfl, fun it' href hrd => ?_⟩
    refine ⟨Adds.setItem (fun x hx hxr => hread x hx (hxr.trans href)) (by rw [hrd]; rfl), ?_⟩
    rcases setItem_cases it' t.items with ⟨a, x, b, hsplit, hx, -, -⟩ | ⟨-, hset⟩
    · exact absurd (hx.trans href) (hnot x (by rw [hsplit]; simp))
    · rw [hset]
      exact Extends.append _ _
  | some x =>
    have hitem : t.item k.1 e = x := by rw [Txn.item, hfind]; rfl
    have hx := mem_of_find?_eq_some hfind
    have href : x.ref = .elem e := by simpa using find?_some hfind
    obtain ⟨hst, hw⟩ := hread x hx href
    obtain ⟨st, hst⟩ := isSome_iff_exists.mp hst
    obtain ⟨-, hins, hdel⟩ := h.read x hx hw
    have hobs : x.observe w = x := by
      rw [Item.observe, hst]
      cases x
      cases hst
      rfl
    have howner : x.owner = k.1 := by rw [← (h.ref x hx e href).2, hkey]
    -- the first item of the element has the version that counts
    have hlead : lead t.items (.elem e) = some st := by
      rw [lead]
      have hboth : (t.items.find? fun it => it.ref = .elem e && it.rdata.isSome) = some x := by
        rw [find?_eq_some_iff_append] at hfind ⊢
        obtain ⟨-, a, b, hsplit, ha⟩ := hfind
        refine ⟨by simp [href, hst], a, b, hsplit, fun y hy => ?_⟩
        simp only [Bool.not_eq_true', decide_eq_false_iff_not] at ha
        simp [ha y hy]
      rw [hboth]
      exact hst
    rw [hitem, hobs]
    refine ⟨href, howner, hw, hins, hdel, .inl (by rw [hlead, hst]), by rw [hst]; rfl, ?_⟩
    intro it' href' hrd
    have hsome : it'.rdata.isSome := by rw [hrd, hst]; rfl
    refine ⟨Adds.setItem (fun y hy hyr => hread y hy (hyr.trans (href'.trans href))) hsome, ?_⟩
    rcases setItem_cases it' t.items with ⟨a, y, b, hsplit, hy, ha, hset⟩ | ⟨hnot, -⟩
    · -- the replaced item is the first one, with the same version
      have hyx : y.rdata = it'.rdata := by
        have hfirst : t.items.find? (fun it => it.ref = .elem e) = some y := by
          rw [find?_eq_some_iff_append]
          refine ⟨by simp [hy, href', href], a, b, hsplit, fun z hz => ?_⟩
          have hz := ha z hz
          rw [href', href] at hz
          simpa using hz
        rw [hfind] at hfirst
        cases hfirst
        exact hrd.symm
      intro r _
      rw [hset, hsplit, lead_append_cons, lead_append_cons, hy, hyx]
    · exact absurd (href.trans (href'.trans href).symm) (hnot x hx)

end

end Rolis.Sto.Occ
