import Rolis.Sto.ReplayLog
import Rolis.Sto.Tracking

/-!
# The tables and the log of one commit

One transaction makes any calls, to any keys, as often as it likes, and commits with nobody else at
work. The tables should be what the calls do one after another, and so should the starting contents
with the entries of the log applied to them.
-/

namespace Rolis.Sto

open Function Bytes List WriteItem TransItem Mem

/-! ## What the installs leave -/

/-- The element of an item after its install. -/
def TransItem.installed (it : TransItem) (w : Bytes) (x : Elem) : Elem :=
  if it.hasDelete then if it.hasInsert then x else x.setInvalid true
  else if it.hasInsert then x.setInvalid false
  else x.write w

/-- A delete removes the key in its write value, whichever that is. -/
def Removes (ws : List (TransItem × Bytes)) (table : ℕ) (key : Bytes) : Prop :=
  ∃ p ∈ ws, p.1.hasDelete ∧ table = p.1.owner ∧ key = p.2

section

variable {m m' : Mem} {ws : List (TransItem × Bytes)} {it : TransItem} {w : Bytes} {table e : ℕ}
  {key : Bytes}

lemma heap_install (h : it.install w m = some m') :
    m'.heap = update m.heap it.key (it.installed w (m.heap it.key)) := by
  unfold install at h
  cases hdel : it.hasDelete <;> cases hins : it.hasInsert <;>
    simp only [hdel, hins, installed, Bool.false_eq_true, if_true, if_false] at h ⊢
  · split at h
    · cases h
    · cases h
      rfl
  · cases h
    rfl
  · split at h
    · cases h
    · rw [heap_remove h]
      rfl
  · rw [heap_remove h, update_eq_self]

lemma find_install (h : it.install w m = some m') (table : ℕ) (key : Bytes) : m'.find table key =
      if it.hasDelete ∧ table = it.owner ∧ key = w then none else m.find table key := by
  unfold install at h
  cases hdel : it.hasDelete <;> cases hins : it.hasInsert <;>
    simp only [hdel, hins, Bool.false_eq_true, if_true, if_false, false_and, true_and] at h ⊢
  · split at h
    · cases h
    · cases h
      rfl
  · cases h
    rfl
  · split at h
    · cases h
    · exact find_remove h table key
  · exact find_remove h table key

lemma exists_install_of_cons {p : TransItem × Bytes}
    (h : (p :: ws).foldlM (fun m (p : TransItem × Bytes) => p.1.install p.2 m) m = some m') :
    ∃ m₁, p.1.install p.2 m = some m₁ ∧
      ws.foldlM (fun m (p : TransItem × Bytes) => p.1.install p.2 m) m₁ = some m' := by
  rw [foldlM_cons] at h
  exact Option.bind_eq_some_iff.mp h

section

variable (h : ws.foldlM (fun m (p : TransItem × Bytes) => p.1.install p.2 m) m = some m')

include h

open Classical in
lemma find_installs (table : ℕ) (key : Bytes) :
    m'.find table key = if Removes ws table key then none else m.find table key := by
  induction ws generalizing m with
  | nil =>
    cases h
    rw [if_neg (by simp [Removes])]
  | cons p ws ih =>
    obtain ⟨m₁, hinstall, hrest⟩ := exists_install_of_cons h
    have hcons : Removes (p :: ws) table key ↔
        (p.1.hasDelete ∧ table = p.1.owner ∧ key = p.2) ∨ Removes ws table key := by
      simp [Removes]
    rw [ih hrest, find_install hinstall]
    by_cases hself : p.1.hasDelete ∧ table = p.1.owner ∧ key = p.2
    · rw [if_pos hself, if_pos (hcons.mpr (.inl hself)), ite_self]
    · by_cases hlater : Removes ws table key
      · rw [if_pos hlater, if_pos (hcons.mpr (.inr hlater))]
      · rw [if_neg hlater, if_neg hself, if_neg fun hrem => (hcons.mp hrem).elim hself hlater]

/-- Elements of different items are installed one by one. -/
lemma heap_installs (hnodup : (ws.map fun p => p.1.key).Nodup) :
    (∀ p ∈ ws, m'.heap p.1.key = p.1.installed p.2 (m.heap p.1.key)) ∧
      ∀ e, (∀ p ∈ ws, p.1.key ≠ e) → m'.heap e = m.heap e := by
  induction ws generalizing m with
  | nil =>
    cases h
    exact ⟨forall_mem_nil _, fun _ _ => rfl⟩
  | cons p ws ih =>
    obtain ⟨m₁, hinstall, hrest⟩ := exists_install_of_cons h
    rw [map_cons, nodup_cons] at hnodup
    obtain ⟨hin, hout⟩ := ih hrest hnodup.2
    have hne : ∀ q ∈ ws, q.1.key ≠ p.1.key := fun q hq heq =>
      hnodup.1 (mem_map.mpr ⟨q, hq, heq⟩)
    refine ⟨fun q hq => ?_, fun e he => ?_⟩
    · rcases mem_cons.mp hq with rfl | hq
      · rw [hout _ hne, heap_install hinstall, update_self]
      · rw [hin q hq, heap_install hinstall, update_of_ne (hne q hq)]
    · rw [hout e fun q hq => he q (mem_cons_of_mem p hq), heap_install hinstall,
        update_of_ne (he p mem_cons_self).symm]

/-- Only the item of an insert makes an element valid. -/
lemma invalid_installs (hnot : ∀ p ∈ ws, p.1.key = e → p.1.hasInsert = false)
    (hinv : (m.heap e).version.invalid) : (m'.heap e).version.invalid := by
  induction ws generalizing m with
  | nil =>
    cases h
    exact hinv
  | cons p ws ih =>
    obtain ⟨m₁, hinstall, hrest⟩ := exists_install_of_cons h
    refine ih hrest (fun q hq => hnot q (mem_cons_of_mem p hq)) ?_
    rw [heap_install hinstall]
    by_cases he : e = p.1.key
    · have hins := hnot p mem_cons_self he.symm
      subst he
      rw [update_self, installed, hins]
      split
      · rfl
      · exact hinv
    · rw [update_of_ne he]
      exact hinv

end

/-- Installs keep the trees in order. -/
lemma wellFormed_installs (hwf : m.WellFormed)
    (h : ws.foldlM (fun m (p : TransItem × Bytes) => p.1.install p.2 m) m = some m') :
    m'.WellFormed := by
  induction ws generalizing m with
  | nil =>
    cases h
    exact hwf
  | cons p ws ih =>
    obtain ⟨m₁, hinstall, hrest⟩ := exists_install_of_cons h
    refine ih ?_ hrest
    unfold install at hinstall
    dsimp only at hinstall
    split at hinstall
    · split at hinstall
      · exact hwf.remove hinstall
      · split at hinstall
        · cases hinstall
        · exact (hwf.set _ _).remove hinstall
    · split at hinstall
      · cases hinstall
        exact hwf.set _ _
      · split at hinstall
        · cases hinstall
        · cases hinstall
          exact hwf.set _ _

lemma map_key_writes_sublist (items : List TransItem) :
    ((writes items).map fun p => p.1.key).Sublist (items.map TransItem.key) := by
  induction items with
  | nil => exact .slnil
  | cons it items ih =>
    cases hw : it.wdata with
    | none => simpa [writes, hw] using ih.cons it.key
    | some w => simpa [writes, hw] using ih.cons_cons it.key

lemma mem_writes_iff {items : List TransItem} {p : TransItem × Bytes} :
    p ∈ writes items ↔ p.1 ∈ items ∧ p.1.wdata = some p.2 := by
  obtain ⟨it, w⟩ := p
  simp only [writes, mem_filterMap, Option.map_eq_some_iff, Prod.mk.injEq]
  constructor
  · rintro ⟨it, hit, w, hw, rfl, rfl⟩
    exact ⟨hit, hw⟩
  · rintro ⟨hit, hw⟩
    exact ⟨it, hit, w, hw, rfl, rfl⟩

end

/-- What a commit needs and leaves. -/
lemma tryCommit_eq_some {t : Transaction} {m' : Mem} {log : List WriteItem}
    (h : t.tryCommit = some (m', some log)) :
    t.validate ∧ t.installAll = some m' ∧
      log = (writes t.items).map fun p => p.1.writeItem p.2 m' := by
  unfold Transaction.tryCommit at h
  split at h
  · next hvalidate =>
    obtain ⟨m₁, hinstall, heq⟩ := Option.map_eq_some_iff.mp h
    cases heq
    exact ⟨hvalidate, hinstall, rfl⟩
  · obtain ⟨m₁, -, heq⟩ := Option.map_eq_some_iff.mp h
    cases heq

lemma Doomed.not_validate {t : Transaction} (h : Doomed t) : ¬ t.validate := by
  obtain ⟨it, hit, hread, hins, -, hinv⟩ := h
  intro hvalidate
  have hcheck := all_eq_true.mp hvalidate it hit
  obtain ⟨v, hv⟩ := Option.isSome_iff_exists.mp hread
  simp [check, validityCheck, hv, hinv, hins] at hcheck

/-- The key of a dead element holds nothing after the commit. -/
lemma Dead.committed {m m' : Mem} {ops : List Op} {t : Transaction} {table e : ℕ} {key : Bytes}
    (h : Dead m ops t table key e) (hinstall : t.installAll = some m') :
    m'.committed table key = none := by
  have hinv := invalid_installs hinstall (fun p hp => h.not_insert p.1 (mem_writes_iff.mp hp).1)
    h.invalid
  rw [Mem.committed, find_installs hinstall, h.find]
  split
  · rfl
  · rw [Option.bind_some, hinv]
    rfl

/-! ## What the calls should leave -/

section

variable {calls rest : List Op} {o : Op} {v : Option Bytes} {value w : Bytes}

lemma ne_nil_of_any (h : calls.any Op.isDelete) : calls ≠ [] := by
  rintro rfl
  cases h

lemma resultOf_eq_none_iff (hne : calls ≠ []) :
    resultOf calls v = none ↔ calls.getLast?.any Op.isDelete := by
  obtain ⟨calls, o, rfl⟩ := (eq_nil_or_concat' calls).resolve_left hne
  rw [resultOf_append, getLast?_append, getLast?_singleton]
  cases o <;> simp [Op.result, Op.isDelete]

/-- A key that was there and is not deleted. -/
lemma resultOf_present (h : calls.any Op.isDelete = false) :
    resultOf calls (some value) = some ((lastWrite calls).getD value) := by
  induction calls using reverseRecOn with
  | nil => rfl
  | append_singleton calls o ih =>
    rw [any_append, Bool.or_eq_false_iff] at h
    rw [resultOf_append, ih h.1, lastWrite_append]
    cases o with
    | put | insert => rfl
    | delete => simp [Op.isDelete] at h

/-- Deletes of a key that is not there do nothing. -/
lemma resultOf_dropWhile (calls : List Op) :
    resultOf (calls.dropWhile Op.isDelete) none = resultOf calls none := by
  induction calls with
  | nil => rfl
  | cons o calls ih =>
    rw [dropWhile_cons]
    split
    · next hdel =>
      rw [ih]
      cases o with
      | put | insert => cases hdel
      | delete => rfl
    · rfl

/-- A key that is inserted. -/
lemma resultOf_inserted (hcalls : calls.dropWhile Op.isDelete = o :: rest)
    (hrest : ∀ o' ∈ rest, o'.isDelete = false) :
    resultOf calls none = some ((lastPut rest).getD o.value) := by
  have ho : o.isDelete = false := by
    have hhead := head?_dropWhile_not Op.isDelete calls
    rw [hcalls] at hhead
    simpa using hhead
  rw [← resultOf_dropWhile, hcalls]
  clear hcalls
  induction rest using reverseRecOn with
  | nil =>
    cases o with
    | put | insert => rfl
    | delete => cases ho
  | append_singleton rest o' ih =>
    rw [← cons_append, resultOf_append, lastPut_append,
      ih fun o'' ho'' => hrest o'' (mem_append_left _ ho'')]
    have ho' := hrest o' (mem_append_right _ mem_cons_self)
    cases o' with
    | put | insert => rfl
    | delete => cases ho'

/-- Without deletes the calls write what some put puts. -/
lemma exists_put_of_lastWrite (h : calls.any Op.isDelete = false) (hw : lastWrite calls = some w) :
    ∃ o ∈ calls, o.value = w := by
  obtain ⟨o, ho, hwdata⟩ := mem_filterMap.mp (mem_of_getLast? hw)
  refine ⟨o, ho, ?_⟩
  cases o with
  | put => exact Option.some.inj hwdata
  | insert => cases hwdata
  | delete => exact absurd rfl (any_eq_false.mp h _ ho)

/-- If the last call is a delete, the calls write the key. -/
lemma lastWrite_of_delete {ops : List Op} {table : ℕ} {key : Bytes}
    (h : (callsOn ops table key).getLast?.any Op.isDelete) :
    lastWrite (callsOn ops table key) = some key := by
  obtain ⟨o, ho, hdel⟩ := (Option.any_eq_true _ _).mp h
  obtain ⟨calls, hcalls⟩ := getLast?_eq_some_iff.mp ho
  have htarget : o.target = (table, key) := by
    simpa using (mem_filter.mp (mem_of_getLast? ho)).2
  rw [hcalls, lastWrite_append]
  cases o with
  | put | insert => cases hdel
  | delete => simpa [Op.wdata] using (Prod.mk.inj htarget).2

lemma lastWrite_isSome (h : calls.any Op.isDelete) : (lastWrite calls).isSome := by
  obtain ⟨o, ho, hdel⟩ := any_eq_true.mp h
  have hmem : o.target.2 ∈ calls.filterMap Op.wdata := by
    refine mem_filterMap.mpr ⟨o, ho, ?_⟩
    cases o with
    | put | insert => cases hdel
    | delete => rfl
  exact getLast?_isSome.mpr (ne_nil_of_mem hmem)

end

/-! ## The tables after the commit -/

/-- What a commit makes of a key that it does not remove. -/
def kept (m : Mem) (ops : List Op) (table : ℕ) (key : Bytes) : Option Bytes :=
  match m.committed table key with
  | some v => some ((lastWrite (callsOn ops table key)).getD v)
  | none => ((callsOn ops table key).dropWhile Op.isDelete).head?.map Op.value

namespace Tracked

variable {m m' : Mem} {ops : List Op} {t : Transaction} {it : TransItem} {w : Bytes}
  {table e : ℕ} {key : Bytes} {p : TransItem × Bytes}

section

variable (h : Tracked m ops t)

include h

lemma heap_write (hinstall : t.installAll = some m') (hit : it ∈ t.items) (hw : it.wdata = some w) :
    m'.heap it.key = it.installed w (t.mem.heap it.key) :=
  (heap_installs hinstall (h.nodup.sublist (map_key_writes_sublist _))).1 (it, w)
    (mem_writes_iff.mpr ⟨hit, hw⟩)

lemma heap_read (hinstall : t.installAll = some m')
    (hnone : ∀ it ∈ t.items, it.key = e → it.wdata = none) : m'.heap e = t.mem.heap e := by
  refine (heap_installs hinstall (h.nodup.sublist (map_key_writes_sublist _))).2 e ?_
  rintro p hp rfl
  obtain ⟨hit, hw⟩ := mem_writes_iff.mp hp
  rw [hnone p.1 hit rfl] at hw
  cases hw

open Classical in
/-- The value under a key after the commit. -/
lemma committed_eq (hm : m.Quiet) (hinstall : t.installAll = some m') (table : ℕ)
    (key : Bytes) :
    m'.committed table key = if Removes (writes t.items) table key ∨
        (m.committed table key).isSome ∧ (callsOn ops table key).any Op.isDelete then none
      else kept m ops table key := by
  rw [committed, find_installs hinstall]
  by_cases hrem : Removes (writes t.items) table key
  · rw [if_pos hrem, if_pos (.inl hrem)]
    rfl
  rw [if_neg hrem]
  cases h.key table key with
  | absent hstart hfind hcalls =>
    have hnone : m.committed table key = none := committed_of_find_none hstart
    rw [hfind, kept, hnone, dropWhile_eq_nil_iff.mpr hcalls]
    simp
  | @present e hstart hfind hheap hitem hsome =>
    -- the item holds the last write, and the delete flag for good
    have hvalid := hm.valid hstart
    have hcommitted := committed_of_find hstart hvalid
    rw [hfind, Option.bind_some, hcommitted]
    cases hw : lastWrite (callsOn ops table key) with
    | none =>
      have hany : (callsOn ops table key).any Op.isDelete = false := by
        by_contra hdel
        have hsome := lastWrite_isSome (Bool.eq_true_of_not_eq_false hdel)
        rw [hw] at hsome
        cases hsome
      rw [h.heap_read hinstall fun it hit hkey => (hitem it hit hkey).1.trans hw, hheap, hvalid,
        hany, kept, hcommitted, hw]
      simp [hrem]
    | some w =>
      have hne : callsOn ops table key ≠ [] := by
        intro hnil
        rw [hnil] at hw
        cases hw
      obtain ⟨it, hit, rfl⟩ := hsome hne
      obtain ⟨hwdata, hins, hdel⟩ := hitem it hit rfl
      rw [h.heap_write hinstall hit (hwdata.trans hw), installed, hins, hdel, hheap]
      cases hany : (callsOn ops table key).any Op.isDelete with
      | true => simp [Elem.setInvalid]
      | false => simp [Elem.write, hvalid, hrem, kept, hcommitted, hw]
  | @inserted e o rest hstart hfind hheap hcalls hrest hitem hsome =>
    have hnone : m.committed table key = none := committed_of_find_none hstart
    obtain ⟨it, hit, rfl⟩ := hsome
    obtain ⟨hwdata, hins, hdel⟩ := hitem it hit rfl
    rw [hfind, Option.bind_some, h.heap_write hinstall hit hwdata, installed, hins, hdel,
      hheap, kept, hnone, hcalls]
    simp [hrem, Elem.make, Elem.setInvalid]

/-- The item of a write, from the key it writes. -/
lemma write_cases (hp : p ∈ writes t.items) :
    (∃ e, m.find p.1.owner p.1.extra = some e ∧ p.1.hasInsert = false ∧
      p.1.hasDelete = (callsOn ops p.1.owner p.1.extra).any Op.isDelete ∧
      lastWrite (callsOn ops p.1.owner p.1.extra) = some p.2) ∨
    (∃ o rest, m.find p.1.owner p.1.extra = none ∧ p.1.hasInsert ∧ p.1.hasDelete = false ∧
      t.mem.heap p.1.key = Elem.make o.value ∧
      (callsOn ops p.1.owner p.1.extra).dropWhile Op.isDelete = o :: rest ∧
      p.2 = (lastPut rest).getD p.1.extra) := by
  obtain ⟨hit, hw⟩ := mem_writes_iff.mp hp
  obtain ⟨key, hfind', hextra⟩ := h.owned p.1 hit
  obtain rfl := hextra (by rw [hw]; rfl)
  cases h.key p.1.owner p.1.extra with
  | absent _ hfind =>
    rw [hfind] at hfind'
    cases hfind'
  | @present e hstart hfind _ hitem =>
    obtain rfl : e = p.1.key := Option.some.inj (hfind.symm.trans hfind')
    obtain ⟨hw', hins, hdel⟩ := hitem p.1 hit rfl
    exact .inl ⟨_, hstart, hins, hdel, hw'.symm.trans hw⟩
  | @inserted e o rest hstart hfind hheap hcalls _ hitem =>
    obtain rfl : e = p.1.key := Option.some.inj (hfind.symm.trans hfind')
    obtain ⟨hw', hins, hdel⟩ := hitem p.1 hit rfl
    exact .inr ⟨o, rest, hstart, hins, hdel, hheap, hcalls, Option.some.inj (hw.symm.trans hw')⟩

/-- The key of a write is the key of a call. -/
lemma exists_call (hp : p ∈ writes t.items) : ∃ o ∈ ops, o.target = (p.1.owner, p.1.extra) := by
  have hcall : ∃ o, o ∈ callsOn ops p.1.owner p.1.extra := by
    rcases h.write_cases hp with ⟨e, -, -, -, hw⟩ | ⟨o, rest, -, -, -, -, hcalls, -⟩
    · refine exists_mem_of_ne_nil _ fun hnil => ?_
      rw [hnil] at hw
      cases hw
    · exact ⟨o, (dropWhile_sublist _).subset (hcalls ▸ mem_cons_self)⟩
  obtain ⟨o, ho⟩ := hcall
  obtain ⟨hmem, htarget⟩ := mem_filter.mp ho
  exact ⟨o, hmem, by simpa using htarget⟩

end

end Tracked

/-! ## The log of one commit -/

/-- The writes that the reader finds in the log of one commit, with `rest` behind it in the
buffer. -/
def Commit.decoded (c : Commit) (rest : Bytes) : Option (List Update) :=
  if c.items = [] then some []
  else (serializeTxn c.cid c.items).bind fun txn =>
    ((readHeader (txn ++ rest)).bind WrappedLog.txn).map updatesOf

namespace WriteItem

variable {it : WriteItem} {items : List WriteItem}

/-- An item whose key the log can hold. -/
structure Keyed (it : WriteItem) : Prop where
  key_ne : it.extra ≠ []
  key_lt : it.extra.length < 2 ^ 16
  identity_ge : 10000 ≤ it.identity
  identity_le : it.identity ≤ 20000

/-- As much of the value as the log holds. -/
def clip (it : WriteItem) : WriteItem :=
  { it with value := it.value.take (it.value.length % 2 ^ 16) }

lemma serialize_clip (it : WriteItem) : it.clip.serialize = it.serialize := by
  have hlen : (it.value.take (it.value.length % 2 ^ 16)).length = it.value.length % 2 ^ 16 :=
    length_take_of_le (Nat.mod_le _ _)
  simp only [serialize, clip, kkx, tableId, hlen, Nat.mod_mod, take_take, min_self]
  rfl

lemma serializeItems_map_clip (items : List WriteItem) :
    serializeItems (items.map clip) = serializeItems items := by
  induction items with
  | nil => rfl
  | cons it items ih => rw [map_cons, serializeItems, serializeItems, serialize_clip, ih]

lemma clip_eq_self (h : it.value.length < 2 ^ 16) : it.clip = it := by
  rw [clip, Nat.mod_eq_of_lt h, take_length]

lemma Keyed.wellFormed_clip (h : it.Keyed) : it.clip.WellFormed := by
  refine ⟨h.key_ne, h.key_lt, ?_, h.identity_ge, h.identity_le⟩
  rw [clip, length_take]
  exact lt_of_le_of_lt (min_le_left _ _) (Nat.mod_lt _ (by norm_num))

lemma Keyed.serialize_isSome_iff (h : it.Keyed) :
    it.serialize.isSome ↔ it.extra.length ≤ it.kkx.length := by
  have hpos : it.extra.length ≠ 0 := by simpa using h.key_ne
  simp only [serialize, Nat.mod_eq_of_lt h.key_lt]
  split
  · next hbad =>
    have hlt := hbad.resolve_left hpos
    simpa using hlt
  · next hgood =>
    have hle := not_lt.mp (not_or.mp hgood).2
    simpa using hle

lemma serializeItems_isSome_iff :
    (serializeItems items).isSome ↔ ∀ it ∈ items, it.serialize.isSome := by
  induction items with
  | nil => simp [serializeItems]
  | cons it items ih =>
    rw [forall_mem_cons, ← ih, serializeItems]
    cases it.serialize <;> simp

end WriteItem

/-- What the reader finds: every item, if the key of each can be copied. -/
lemma Commit.decoded_eq_some_iff {c : Commit} {rest : Bytes} {us : List Update}
    (hkeyed : ∀ it ∈ c.items, it.Keyed) (hfew : c.items.length ≤ 32768) (hrest : 6 ≤ rest.length) :
    c.decoded rest = some us ↔ (∀ it ∈ c.items, it.extra.length ≤ it.kkx.length) ∧
      us = c.items.map fun it => ⟨c.cid, it.clip.logged⟩ := by
  unfold Commit.decoded
  split
  · next hnil => simp [hnil, eq_comm]
  · next hne =>
    have hlens : (∀ it ∈ c.items, it.extra.length ≤ it.kkx.length) ↔
        (serializeItems c.items).isSome := by
      rw [serializeItems_isSome_iff]
      exact forall₂_congr fun it hit => (hkeyed it hit).serialize_isSome_iff.symm
    rw [hlens]
    cases hser : serializeItems c.items with
    | none => simp [serializeTxn, hser]
    | some kvs =>
      let t : Txn := { tid := c.tid, epoch := c.epoch, items := c.items.map clip
                       items_ne := by simpa using hne
                       items_le := by simpa using hfew
                       wellFormed := by
                         intro it' hit'
                         obtain ⟨it, hit, rfl⟩ := mem_map.mp hit'
                         exact (hkeyed it hit).wellFormed_clip }
      have hcount : t.items.length < 256 ^ 2 := lt_of_le_of_lt t.items_le (by norm_num)
      have htxn : serializeTxn c.cid c.items = some t.encoding := by
        have hclip : serializeTxn t.cid t.items = serializeTxn c.cid c.items := by
          simp only [serializeTxn, t, serializeItems_map_clip, length_map]
          rfl
        obtain ⟨bytes, hbytes⟩ : ∃ bytes, serializeTxn c.cid c.items = some bytes := by
          rw [serializeTxn, hser]
          exact ⟨_, rfl⟩
        rw [hbytes, t.serializeTxn_eq (hclip.trans hbytes)]
      -- the length of the pairs is not used to read them
      have hheader : readHeader (t.encoding ++ rest) =
          some { t.wrapped rest with len := t.kvs.length % 256 ^ 4 } := by
        simp only [readHeader, Txn.encoding, append_assoc, readNat_encode t.cid_lt,
          readNat_encode hcount, readNat_encode_mod, Option.bind_eq_bind, Option.bind_some,
          Txn.wrapped]
      obtain ⟨txn, hread, hcontent⟩ := t.txn_wrapped hrest
      have hupdates : updatesOf txn = c.items.map fun it => ⟨c.cid, it.clip.logged⟩ := by
        have hview : updatesOf txn = (contentOf txn).2.map fun e => ⟨(contentOf txn).1, e⟩ := by
          rw [updatesOf, contentOf, map_map]
          rfl
        rw [hview, hcontent, Txn.logged, map_map, map_map]
        rfl
      have hread' : WrappedLog.txn { t.wrapped rest with len := t.kvs.length % 256 ^ 4 } =
        some txn := hread
      rw [htxn, Option.bind_some, hheader, Option.bind_some, hread', Option.map_some, hupdates]
      simp [eq_comm]

/-! ## What writes one after another leave -/

/-- What a write leaves under its key. -/
def Update.effect (u : Update) : Option Bytes :=
  if u.entry.deleteTrue then none else some u.entry.value

/-- What a key holds after a write. -/
def assign (table : ℕ) (key : Bytes) (v : Option Bytes) (u : Update) : Option Bytes :=
  if u.At table key then u.effect else v

section

variable {table : ℕ} {key : Bytes} {v : Option Bytes} {us : List Update} {u : Update}

lemma foldl_assign_of_not_at (h : ∀ u ∈ us, ¬ u.At table key) :
    us.foldl (assign table key) v = v := by
  induction us with
  | nil => rfl
  | cons u us ih =>
    rw [foldl_cons, assign, if_neg (h u mem_cons_self)]
    exact ih fun u' hu' => h u' (mem_cons_of_mem u hu')

/-- Of writes to different keys one decides about each key. -/
lemma foldl_assign_of_mem (honce : us.Pairwise fun u v => ¬ u.SameKey v) (hu : u ∈ us)
    (hat : u.At table key) : us.foldl (assign table key) v = u.effect := by
  obtain ⟨pre, post, rfl⟩ := append_of_mem hu
  obtain ⟨-, hrest, -⟩ := pairwise_append.mp honce
  have hpost : ∀ u' ∈ post, ¬ u'.At table key := fun u' hu' hat' =>
    (pairwise_cons.mp hrest).1 u' hu' ⟨hat.1.trans hat'.1.symm, hat.2.trans hat'.2.symm⟩
  rw [foldl_append, foldl_cons, assign, if_pos hat, foldl_assign_of_not_at hpost]

/-- What the log sets a key to, some write sets it to. -/
lemma exists_of_foldl_assign {w : Bytes} (h : us.foldl (assign table key) none = some w) :
    ∃ u ∈ us, u.At table key ∧ u.effect = some w := by
  induction us using reverseRecOn with
  | nil => cases h
  | append_singleton us u ih =>
    rw [foldl_append, foldl_cons, foldl_nil, assign] at h
    split at h
    · next hat => exact ⟨u, by simp, hat, h⟩
    · obtain ⟨u', hu', hat', heffect⟩ := ih h
      exact ⟨u', mem_append_left _ hu', hat', heffect⟩

end

/-! ## Faithful commits -/

/-- The commit `c` led from `m` to `m'`: the tables are what the calls do one after another, and so
are the starting contents with the writes in the log. -/
structure Faithful (m m' : Mem) (ops : List Op) (c : Commit) (rest : Bytes) : Prop where
  tables : ∀ table key, m'.committed table key = applyOps ops m.committed table key
  log : ∃ us, c.decoded rest = some us ∧
    ∀ table key, us.foldl (assign table key) (m.committed table key) = m'.committed table key

namespace Tracked

variable {m m' : Mem} {ops : List Op} {t : Transaction} {table : ℕ} {key rest : Bytes}
  {p : TransItem × Bytes}

section

variable (h : Tracked m ops t)

include h

/-- A write that is no delete leaves the value that the key keeps, the value of a call. -/
lemma value_write (hm : m.Quiet) (hinstall : t.installAll = some m')
    (hp : p ∈ writes t.items) (hdel : p.1.hasDelete = false) :
    kept m ops p.1.owner p.1.extra = some (m'.heap p.1.key).value ∧
      ∃ o ∈ ops, o.value = (m'.heap p.1.key).value := by
  obtain ⟨hit, hw⟩ := mem_writes_iff.mp hp
  rw [h.heap_write hinstall hit hw, installed, hdel]
  rcases h.write_cases hp with ⟨e, hstart, hins, hany, hlast⟩ |
    ⟨o, rest, hstart, hins, -, hheap, hcalls, -⟩
  · rw [hdel] at hany
    obtain ⟨o, ho, hvalue⟩ := exists_put_of_lastWrite hany.symm hlast
    rw [hins, kept, committed_of_find hstart (hm.valid hstart), hlast]
    exact ⟨rfl, o, (mem_filter.mp ho).1, hvalue⟩
  · have ho : o ∈ callsOn ops p.1.owner p.1.extra :=
      (dropWhile_sublist _).subset (hcalls ▸ mem_cons_self)
    have hnone : m.committed p.1.owner p.1.extra = none := committed_of_find_none hstart
    rw [hins, hheap, kept, hnone, hcalls]
    exact ⟨rfl, o, (mem_filter.mp ho).1, rfl⟩

lemma find_write (hp : p ∈ writes t.items) : t.mem.find p.1.owner p.1.extra = some p.1.key := by
  obtain ⟨hit, hw⟩ := mem_writes_iff.mp hp
  obtain ⟨key, hfind, hextra⟩ := h.owned p.1 hit
  obtain rfl := hextra (by rw [hw]; rfl)
  exact hfind

/-- Writes to different elements are to different keys. -/
lemma targets_nodup : ((writes t.items).map fun p => (p.1.owner, p.1.extra)).Nodup := by
  have hkeys := h.nodup.sublist (map_key_writes_sublist t.items)
  refine pairwise_map.mpr ((pairwise_map.mp hkeys).imp_of_mem fun {p q} hp hq hne heq => ?_)
  obtain ⟨howner, hextra⟩ := Prod.mk.inj heq
  have hsame := h.find_write hp
  rw [howner, hextra, h.find_write hq] at hsame
  exact hne (Option.some.inj hsame).symm

lemma keyed (hlog : ∀ o ∈ ops, o.Loggable) (hp : p ∈ writes t.items) :
    (p.1.writeItem p.2 m').Keyed := by
  obtain ⟨o, ho, htarget⟩ := h.exists_call hp
  obtain ⟨hne, hkey, -, hge, hle⟩ := hlog o ho
  rw [htarget] at hne hkey hge hle
  exact ⟨hne, hkey, hge, hle⟩

/-- The log holds the value of a write that is no delete. -/
lemma clip_eq (hm : m.Quiet) (hinstall : t.installAll = some m')
    (hlog : ∀ o ∈ ops, o.Loggable) (hp : p ∈ writes t.items) (hdel : p.1.hasDelete = false) :
    (p.1.writeItem p.2 m').clip = p.1.writeItem p.2 m' := by
  obtain ⟨-, o, ho, hvalue⟩ := h.value_write hm hinstall hp hdel
  refine clip_eq_self ?_
  change (m'.heap p.1.key).value.length < 2 ^ 16
  rw [← hvalue]
  exact (hlog o ho).2.2.1

/-- Where all keys are clear, the deleted keys are removed and no others. -/
lemma removes_iff (hm : m.Quiet) (hclear : ∀ table key, Clear m ops table key) :
    Removes (writes t.items) table key ↔
      (m.committed table key).isSome ∧ (callsOn ops table key).any Op.isDelete := by
  constructor
  · rintro ⟨p, hp, hdel, rfl, rfl⟩
    rcases h.write_cases hp with ⟨e, hstart, -, hany, hlast⟩ | ⟨o, rest, -, -, hdel', -⟩
    · have hsome : (m.committed p.1.owner p.1.extra).isSome := by
        rw [committed_of_find hstart (hm.valid hstart)]
        rfl
      have hclear' := hclear p.1.owner p.1.extra
      rw [Clear, if_pos hsome, ← hany] at hclear'
      rw [lastWrite_of_delete (hclear' hdel)] at hlast
      rw [← Option.some.inj hlast]
      exact ⟨hsome, hany ▸ hdel⟩
    · rw [hdel'] at hdel
      cases hdel
  · rintro ⟨hsome, hany⟩
    have hclear' := hclear table key
    rw [Clear, if_pos hsome] at hclear'
    cases h.key table key with
    | absent hstart | inserted hstart =>
      rw [committed_of_find_none hstart] at hsome
      cases hsome
    | present _ hfind _ hitem hcall =>
      obtain ⟨it, hit, rfl⟩ := hcall (ne_nil_of_any hany)
      obtain ⟨hw, -, hdel⟩ := hitem it hit rfl
      have hp : (it, key) ∈ writes t.items :=
        mem_writes_iff.mpr ⟨hit, hw.trans (lastWrite_of_delete (hclear' hany))⟩
      exact ⟨_, hp, hdel.trans hany, (h.wf.inj (h.find_write hp) hfind).1, rfl⟩

/-- Where all keys are clear, a key is deleted or keeps the value of its calls. -/
lemma committed_of_clear (hm : m.Quiet) (hinstall : t.installAll = some m')
    (hclear : ∀ table key, Clear m ops table key) (table : ℕ) (key : Bytes) :
    m'.committed table key =
      if (m.committed table key).isSome ∧ (callsOn ops table key).any Op.isDelete then none
      else kept m ops table key := by
  rw [h.committed_eq hm hinstall]
  simp only [h.removes_iff hm hclear, or_self]

/-- Where all keys are clear, the tables are what the calls do. -/
lemma tables_of_clear (hm : m.Quiet) (hinstall : t.installAll = some m')
    (hclear : ∀ table key, Clear m ops table key) (table : ℕ) (key : Bytes) :
    m'.committed table key = applyOps ops m.committed table key := by
  have hclear' := hclear table key
  rw [applyOps_eq, h.committed_of_clear hm hinstall hclear]
  split
  · next hgone =>
    obtain ⟨hsome, hany⟩ := hgone
    rw [Clear, if_pos hsome] at hclear'
    exact ((resultOf_eq_none_iff (ne_nil_of_any hany)).mpr (hclear' hany)).symm
  · next hstays =>
    rw [not_and] at hstays
    cases hstart : m.committed table key with
    | some v =>
      have hany : (callsOn ops table key).any Op.isDelete = false :=
        Bool.eq_false_of_not_eq_true (hstays (by rw [hstart]; rfl))
      rw [kept, hstart, resultOf_present hany]
    | none =>
      cases h.key table key with
      | absent _ _ hcalls =>
        rw [kept, hstart, ← resultOf_dropWhile, dropWhile_eq_nil_iff.mpr hcalls]
        rfl
      | present hs =>
        rw [committed_of_find hs (hm.valid hs)] at hstart
        cases hstart
      | @inserted e o rest _ _ _ hcalls hrest =>
        rw [kept, hstart, resultOf_inserted hcalls hrest, hcalls]
        rw [clear_inserted_iff hstart hcalls] at hclear'
        cases hlast : lastPut rest with
        | none => rfl
        | some v =>
          rw [(hclear' v hlast).1]
          rfl

/-- Where all keys are clear, the log of each write holds its key. -/
lemma loggedKey_of_clear (hclear : ∀ table key, Clear m ops table key) (hp : p ∈ writes t.items)
    (m' : Mem) :
    (p.1.writeItem p.2 m').extra.length ≤ (p.1.writeItem p.2 m').kkx.length ∧
      (p.1.writeItem p.2 m').loggedKey = p.1.extra := by
  rw [loggedKey, kkx]
  change p.1.extra.length ≤ (if p.1.hasInsert then p.2 else p.1.extra).length ∧
    (if p.1.hasInsert then p.2 else p.1.extra).take p.1.extra.length = p.1.extra
  rcases h.write_cases hp with ⟨e, -, hins, -⟩ | ⟨o, rest, hstart, hins, -, -, hcalls, hw⟩
  · rw [hins]
    exact ⟨le_rfl, take_length⟩
  · have hnone : m.committed p.1.owner p.1.extra = none := committed_of_find_none hstart
    have hclear' := hclear p.1.owner p.1.extra
    rw [clear_inserted_iff hnone hcalls] at hclear'
    rw [hins, if_pos rfl, hw]
    cases hlast : lastPut rest with
    | none => exact ⟨le_rfl, take_length⟩
    | some v =>
      have hpre := (hclear' v hlast).2
      exact ⟨hpre.length_le, (prefix_iff_eq_take.mp hpre).symm⟩

end

/-- The write in the log of an item. -/
def loggedUpdate (cid : ℕ) (m' : Mem) (p : TransItem × Bytes) : Update :=
  ⟨cid, (p.1.writeItem p.2 m').clip.logged⟩

lemma effect_eq (cid : ℕ) (m' : Mem) (p : TransItem × Bytes) : (loggedUpdate cid m' p).effect =
      if p.1.hasDelete then none else some (p.1.writeItem p.2 m').clip.value := rfl

section

variable (h : Tracked m ops t)

include h

lemma at_loggedUpdate (hclear : ∀ table key, Clear m ops table key) (hp : p ∈ writes t.items)
    (cid : ℕ) (m' : Mem) :
    (loggedUpdate cid m' p).At table key ↔ p.1.owner = table ∧ p.1.extra = key := by
  have hkey : (loggedUpdate cid m' p).entry.key = p.1.extra := (h.loggedKey_of_clear hclear hp m').2
  rw [Update.At, hkey]
  rfl

variable (hm : m.Quiet) (hinstall : t.installAll = some m')

include hm hinstall

/-- Where all keys are clear, the log of a write holds what the commit leaves under its key. -/
lemma effect_loggedUpdate (hlog : ∀ o ∈ ops, o.Loggable)
    (hclear : ∀ table key, Clear m ops table key) (hp : p ∈ writes t.items) (cid : ℕ) :
    (loggedUpdate cid m' p).effect = m'.committed p.1.owner p.1.extra := by
  have hgone : (m.committed p.1.owner p.1.extra).isSome ∧
      (callsOn ops p.1.owner p.1.extra).any Op.isDelete ↔ p.1.hasDelete := by
    rcases h.write_cases hp with ⟨e, hstart, -, hany, -⟩ | ⟨_, _, hstart, -, hdel, -⟩
    · rw [committed_of_find hstart (hm.valid hstart), hany]
      simp
    · rw [committed, hstart, hdel]
      simp
  rw [h.committed_of_clear hm hinstall hclear]
  by_cases hdel : p.1.hasDelete
  · rw [if_pos (hgone.mpr hdel), effect_eq, if_pos hdel]
  · have hdel' := Bool.eq_false_of_not_eq_true hdel
    rw [if_neg (mt hgone.mp hdel), (h.value_write hm hinstall hp hdel').1, effect_eq, if_neg hdel,
      h.clip_eq hm hinstall hlog hp hdel']
    rfl

/-- Where all keys are clear, a key without a write keeps its value. -/
lemma committed_of_not_written (hclear : ∀ table key, Clear m ops table key)
    (hnot : ¬ ∃ p ∈ writes t.items, p.1.owner = table ∧ p.1.extra = key) :
    m'.committed table key = m.committed table key := by
  have hno : ∀ {w : Bytes} {e : ℕ}, t.mem.find table key = some e →
      (∃ it ∈ t.items, it.key = e) → ¬ ∀ it ∈ t.items, it.key = e → it.wdata = some w := by
    rintro w _ hfind ⟨it, hit, rfl⟩ hall
    have hp : (it, w) ∈ writes t.items := mem_writes_iff.mpr ⟨hit, hall it hit rfl⟩
    obtain ⟨htable, hkey⟩ := h.wf.inj hfind (h.find_write hp)
    exact hnot ⟨_, hp, htable, hkey⟩
  cases h.key table key with
  | absent hstart hfind _ =>
    rw [committed, find_installs hinstall, hfind, ite_self, committed, hstart]
    rfl
  | @present e hstart hfind hheap hitem hsome =>
    have hlast : lastWrite (callsOn ops table key) = none := by
      cases hw : lastWrite (callsOn ops table key) with
      | none => rfl
      | some w =>
        refine absurd (fun it hit hkey => (hitem it hit hkey).1.trans hw) (hno hfind (hsome ?_))
        rintro hnil
        rw [hnil] at hw
        cases hw
    have hany : ¬ (callsOn ops table key).any Op.isDelete := by
      intro hdel
      have hsome := lastWrite_isSome hdel
      rw [hlast] at hsome
      cases hsome
    rw [h.committed_of_clear hm hinstall hclear, if_neg fun hgone => hany hgone.2, kept, hlast,
      committed_of_find hstart (hm.valid hstart)]
    rfl
  | inserted _ hfind _ _ _ hitem hsome =>
    exact absurd (fun it hit hkey => (hitem it hit hkey).1) (hno hfind hsome)

/-- Where all keys are clear, the elements that the commit leaves in the tables are valid. -/
lemma quiet_of_clear (hclear : ∀ table key, Clear m ops table key) : m'.Quiet where
  toWellFormed := wellFormed_installs h.wf hinstall
  valid {table key e} hfind := by
    -- a key that stays has a value
    have hkept : m'.committed table key ≠ none := by
      rw [find_installs hinstall] at hfind
      split at hfind
      · cases hfind
      · next hrem =>
        rw [h.committed_of_clear hm hinstall hclear, if_neg (mt (h.removes_iff hm hclear).mpr hrem),
          kept]
        cases h.key table key with
        | absent _ hfind' =>
          rw [hfind] at hfind'
          cases hfind'
        | present hstart =>
          rw [committed_of_find hstart (hm.valid hstart)]
          exact Option.some_ne_none _
        | inserted hstart _ _ hcalls =>
          rw [committed_of_find_none hstart, hcalls]
          exact Option.some_ne_none _
    rw [committed, hfind, Option.bind_some] at hkept
    by_contra hinv
    rw [if_pos (Bool.eq_true_of_not_eq_false hinv)] at hkept
    exact hkept rfl

/-- Where all keys are clear, the writes in the log lead from the starting contents to the
tables. -/
lemma log_of_clear (hlog : ∀ o ∈ ops, o.Loggable) (hclear : ∀ table key, Clear m ops table key)
    (cid table : ℕ) (key : Bytes) :
    ((writes t.items).map (loggedUpdate cid m')).foldl (assign table key) (m.committed table key) =
      m'.committed table key := by
  by_cases hex : ∃ p ∈ writes t.items, p.1.owner = table ∧ p.1.extra = key
  · obtain ⟨p, hp, rfl, rfl⟩ := hex
    have honce :
        ((writes t.items).map (loggedUpdate cid m')).Pairwise fun u v => ¬ u.SameKey v := by
      refine pairwise_map.mpr ((pairwise_map.mp h.targets_nodup).imp_of_mem ?_)
      rintro q r hq hr hne hsame
      obtain ⟨htable, hkey⟩ := (h.at_loggedUpdate hclear hq cid m').mp hsame
      have hr' := (h.loggedKey_of_clear hclear hr m').2
      exact hne (Prod.ext htable (hkey.trans hr'))
    rw [foldl_assign_of_mem honce (mem_map_of_mem hp)
      ((h.at_loggedUpdate hclear hp cid m').mpr ⟨rfl, rfl⟩),
      h.effect_loggedUpdate hm hinstall hlog hclear hp]
  · rw [foldl_assign_of_not_at, h.committed_of_not_written hm hinstall hclear hex]
    intro u hu hat
    obtain ⟨p, hp, rfl⟩ := mem_map.mp hu
    exact hex ⟨p, hp, (h.at_loggedUpdate hclear hp cid m').mp hat⟩

/-- If the tables are what the calls do, the last put behind an insert puts its value again. -/
lemma value_of_tables
    (htables : ∀ table key, m'.committed table key = applyOps ops m.committed table key)
    (hstart : m.committed table key = none) {o : Op} {calls : List Op}
    (hcalls : (callsOn ops table key).dropWhile Op.isDelete = o :: calls) {v : Bytes}
    (hv : v ∈ lastPut calls) : m'.committed table key = some v ∧ v = o.value := by
  have hrest : ∀ o' ∈ calls, o'.isDelete = false := by
    cases h.key table key with
    | absent _ _ hdeletes =>
      rw [dropWhile_eq_nil_iff.mpr hdeletes] at hcalls
      cases hcalls
    | present hs =>
      rw [committed_of_find hs (hm.valid hs)] at hstart
      cases hstart
    | inserted _ _ _ hcalls' hrest =>
      rw [hcalls] at hcalls'
      cases hcalls'
      exact hrest
  have hcommitted := htables table key
  rw [applyOps_eq, hstart, resultOf_inserted hcalls hrest, hv] at hcommitted
  refine ⟨hcommitted, ?_⟩
  rw [h.committed_eq hm hinstall] at hcommitted
  split at hcommitted
  · cases hcommitted
  · rw [kept, hstart, hcalls] at hcommitted
    exact (Option.some.inj hcommitted).symm

/-- If besides the writes in the log lead to the tables, that value begins with the key. -/
lemma prefix_of_log (hlog : ∀ o ∈ ops, o.Loggable)
    (htables : ∀ table key, m'.committed table key = applyOps ops m.committed table key) {cid : ℕ}
    (hlen : ∀ p ∈ writes t.items,
      (p.1.writeItem p.2 m').extra.length ≤ (p.1.writeItem p.2 m').kkx.length)
    (hstart : m.committed table key = none) {o : Op} {calls : List Op}
    (hcalls : (callsOn ops table key).dropWhile Op.isDelete = o :: calls) {v : Bytes}
    (hv : v ∈ lastPut calls)
    (hset : ((writes t.items).map (loggedUpdate cid m')).foldl (assign table key) none = some v) :
    key <+: v := by
  -- some write in the log sets the key to this value
  obtain ⟨u, hu, ⟨htable, hkey⟩, heffect⟩ := exists_of_foldl_assign hset
  obtain ⟨p, hp, rfl⟩ := mem_map.mp hu
  have howner : p.1.owner = table := htable
  rw [effect_eq] at heffect
  split at heffect
  · cases heffect
  next hdel =>
  replace hdel := Bool.eq_false_of_not_eq_true hdel
  rw [h.clip_eq hm hinstall hlog hp hdel] at heffect
  have hval : (m'.heap p.1.key).value = v := Option.some.inj heffect
  replace hkey : (if p.1.hasInsert then p.2 else p.1.extra).take p.1.extra.length = key := hkey
  replace hlen : p.1.extra.length ≤ (if p.1.hasInsert then p.2 else p.1.extra).length := hlen p hp
  rcases h.write_cases hp with ⟨e, hfind, hins, -⟩ | ⟨o', calls', hfind, hins, -, -, hcalls', hw⟩
  · -- an update logs its own key, which was there at the start
    rw [hins] at hkey
    have hextra : p.1.extra = key := by simpa using hkey
    rw [howner, hextra] at hfind
    rw [committed_of_find hfind (hm.valid hfind)] at hstart
    cases hstart
  · rw [hins, if_pos rfl, hw] at hkey hlen
    cases hlast : lastPut calls' with
    | none =>
      -- an insert without a put logs its own key, so it is the insert of this key
      rw [hlast] at hkey
      have hextra : p.1.extra = key := by simpa using hkey
      rw [howner, hextra, hcalls] at hcalls'
      cases hcalls'
      rw [hlast] at hv
      cases hv
    | some v' =>
      have hstart' : m.committed p.1.owner p.1.extra = none := committed_of_find_none hfind
      have hv' := (h.value_of_tables hm hinstall htables hstart' hcalls' hlast).2
      have hkept := (h.value_write hm hinstall hp hdel).1
      rw [kept, hstart', hcalls'] at hkept
      have heq : v' = v := hv'.trans ((Option.some.inj hkept).trans hval)
      rw [hlast, Option.getD_some, heq] at hkey hlen
      have hlength : key.length = p.1.extra.length := by rw [← hkey, length_take_of_le hlen]
      exact prefix_iff_eq_take.mpr (by rw [hlength, hkey])

/-- A faithful commit has written to clear keys only. -/
lemma clear_of_faithful (hlog : ∀ o ∈ ops, o.Loggable)
    (htables : ∀ table key, m'.committed table key = applyOps ops m.committed table key) {cid : ℕ}
    (hlen : ∀ p ∈ writes t.items,
      (p.1.writeItem p.2 m').extra.length ≤ (p.1.writeItem p.2 m').kkx.length)
    (hus : ∀ table key, ((writes t.items).map (loggedUpdate cid m')).foldl (assign table key)
      (m.committed table key) = m'.committed table key) (table : ℕ) (key : Bytes) :
    Clear m ops table key := by
  by_cases hsome : (m.committed table key).isSome
  · rw [Clear, if_pos hsome]
    intro hany
    have hcommitted := htables table key
    rw [applyOps_eq, h.committed_eq hm hinstall, if_pos (.inr ⟨hsome, hany⟩)] at hcommitted
    exact (resultOf_eq_none_iff (ne_nil_of_any hany)).mp hcommitted.symm
  · have hstart : m.committed table key = none := by simpa using hsome
    cases hcalls : (callsOn ops table key).dropWhile Op.isDelete with
    | nil =>
      rw [Clear, if_neg hsome, hcalls]
      simp
    | cons o calls =>
      rw [clear_inserted_iff hstart hcalls]
      intro v hv
      obtain ⟨hcommitted, hvalue⟩ := h.value_of_tables hm hinstall htables hstart hcalls hv
      have hset := hus table key
      rw [hstart, hcommitted] at hset
      exact ⟨hvalue, h.prefix_of_log hm hinstall hlog htables hlen hstart hcalls hv hset⟩

end

end Tracked

/-- One transaction makes any calls within the bounds of the log format and commits. The tables
after the commit are what the calls do one after another, and the writes that the reader finds in
the log of the transaction lead from the starting contents to the same tables, if and only if all
keys are clear. -/
theorem faithful_iff_clear (m : Mem) (hm : m.Quiet) (ops : List Op)
    (hlog : ∀ o ∈ ops, o.Loggable) (t : Transaction) (hrun : runOps ops ⟨m, []⟩ = .ok t)
    (hfew : t.items.length ≤ 32768) (m' : Mem) (log : List WriteItem)
    (hcommit : t.tryCommit = some (m', some log)) (tid epoch : ℕ) (rest : Bytes)
    (hrest : 8 ≤ rest.length) :
    Faithful m m' ops ⟨tid, epoch, log⟩ rest ↔ ∀ table key, Clear m ops table key := by
  obtain ⟨hvalidate, hinstall, rfl⟩ := tryCommit_eq_some hcommit
  rcases runOps_cases hm hrun with h | ⟨table, key, e, hdead⟩ | hdoomed
  · have hlen : ((writes t.items).map fun p => p.1.writeItem p.2 m').length ≤ 32768 := by
      rw [List.length_map]
      exact (List.length_filterMap_le _ _).trans hfew
    have hkeyed : ∀ it ∈ (writes t.items).map fun p => p.1.writeItem p.2 m', it.Keyed := by
      intro it hit
      obtain ⟨p, hp, rfl⟩ := List.mem_map.mp hit
      exact h.keyed hlog hp
    have hdecoded : ∀ us, Commit.decoded ⟨tid, epoch, (writes t.items).map fun p =>
        p.1.writeItem p.2 m'⟩ rest = some us ↔
          (∀ p ∈ writes t.items,
            (p.1.writeItem p.2 m').extra.length ≤ (p.1.writeItem p.2 m').kkx.length) ∧
          us = (writes t.items).map (Tracked.loggedUpdate (commitId tid epoch) m') := by
      intro us
      rw [Commit.decoded_eq_some_iff hkeyed hlen (Nat.le_trans (by norm_num) hrest),
        List.forall_mem_map, List.map_map]
      rfl
    constructor
    · rintro ⟨htables, us, hus, hfold⟩
      obtain ⟨hlens, rfl⟩ := (hdecoded us).mp hus
      exact h.clear_of_faithful hm hinstall hlog htables hlens hfold
    · intro hclear
      refine ⟨h.tables_of_clear hm hinstall hclear, _, (hdecoded _).mpr ⟨?_, rfl⟩,
        h.log_of_clear hm hinstall hlog hclear (commitId tid epoch)⟩
      exact fun p hp => (h.loggedKey_of_clear hclear hp m').1
  · -- a dead element: the key is lost, and not clear
    refine iff_of_false (fun hfaithful => ?_) fun hclear => hdead.not_clear (hclear table key)
    have htables := hfaithful.tables table key
    rw [hdead.committed hinstall, applyOps_eq] at htables
    exact hdead.expected htables.symm
  · exact absurd hvalidate hdoomed.not_validate

/-- The key that is there is put and deleted, and a new key is put twice. -/
def clearCalls : List Op :=
  [.put 10001 [1] [8], .delete 10001 [1], .put 10001 [2] [2, 5], .insert 10001 [3] [6],
    .put 10001 [2] [2, 5]]

theorem faithful_iff_clear_fiveCalls :
    ∃ t m' log, runOps clearCalls ⟨oneKey, []⟩ = .ok t ∧ t.tryCommit = some (m', some log) ∧
      log.length = 3 ∧ Faithful oneKey m' clearCalls ⟨7, 1, log⟩ (List.replicate 8 0) :=
  ⟨_, _, _, rfl, rfl, rfl, (faithful_iff_clear oneKey quiet_oneKey clearCalls (by decide) _ rfl
    (by decide) _ _ rfl 7 1 _ (by decide)).mpr (clear_of_targets (by decide +kernel))⟩

/-- A key that is there is deleted and inserted again: the item keeps its delete flag, and the key
is gone after the commit. -/
theorem not_faithful_deleteThenInsert :
    ∃ t m' log, runOps [.delete 10001 [1], .insert 10001 [1] [9]] ⟨oneKey, []⟩ = .ok t ∧
      t.tryCommit = some (m', some log) ∧ m'.committed 10001 [1] = none ∧
      applyOps [.delete 10001 [1], .insert 10001 [1] [9]] oneKey.committed 10001 [1] = some [9] ∧
      ¬ Faithful oneKey m' [.delete 10001 [1], .insert 10001 [1] [9]] ⟨7, 1, log⟩
        (List.replicate 8 0) := by
  refine ⟨_, _, _, rfl, rfl, rfl, rfl, fun hfaithful => ?_⟩
  have htables := hfaithful.tables 10001 [1]
  cases htables

end Rolis.Sto
