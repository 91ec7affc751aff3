import Rolis.Sto.OccTxn

/-!
# Steps that change nothing but the transaction

Reads add evidence, and the places of `try_commit` count the items that are locked, checked and
installed. The invariant of the transaction is kept in all of them (`Local.ok`).
-/

namespace Rolis.Sto.Occ

open List

variable {M : Masstree} {ι : Type} {c : Call} {r : Result}

/-! ## One more item -/

section

variable {α : Type} {l : List α} {a : α} {j : ℕ} {P : α → Prop}

lemma forall_take_succ (ha : l[j]? = some a) (h : ∀ x ∈ l.take j, P x) (hP : P a) :
    ∀ x ∈ l.take (j + 1), P x := by
  intro x hx
  rw [take_add_one, ha, mem_append] at hx
  rcases hx with hx | hx
  · exact h x hx
  · cases mem_singleton.mp hx
    exact hP

lemma take_eq_self (h : l[j]? = none) : l.take j = l :=
  take_of_length_le (getElem?_eq_none_iff.mp h)

lemma drop_eq_cons (ha : l[j]? = some a) : l.drop j = a :: l.drop (j + 1) := by
  obtain ⟨hj, rfl⟩ := List.getElem?_eq_some_iff.mp ha
  exact List.drop_eq_getElem_cons hj

end

section

variable {σ : Store M ι} {here : ℕ} {i : ι} {t t' : Txn M.Node ι} {k : Key} {v : Bytes} {e : ℕ}
  {it : Item M.Node}

/-! ## Reads -/

lemma Pc.executing_of_abort {pc : Pc ι} (h : pc = .idle ∨ (∃ k e, pc.AtElem k e) ∨
      ∃ d table lo hi pos rows entries next, pc = .scan d table lo hi pos rows entries next) :
    pc.executing := by
  rcases h with rfl | ⟨k, e, hat⟩ | ⟨d, table, lo, hi, pos, rows, entries, next, rfl⟩
  · rfl
  · cases hat <;> rfl
  · rfl

/-- A transaction that has got to an element of a key. -/
lemma Work.found (hm : MemOk σ) (hw : Work σ here i t)
    (hfrom : t.pc.Seeks k t.calls ∧ σ.find k = some e ∨ t.pc.AtElem k e) :
    t.pc.executing ∧ Found σ t.calls k e := by
  have hpc := hw.pc
  rcases hfrom with ⟨⟨hidle, hk⟩ | ⟨set, v, hseek⟩, hfind⟩ | hat
  · obtain ⟨hlt, hkey⟩ := hm.linked hfind
    exact ⟨by rw [hidle]; rfl, hk, hlt, hkey⟩
  · obtain ⟨hlt, hkey⟩ := hm.linked hfind
    rw [hseek] at hpc ⊢
    exact ⟨rfl, hpc.2, hlt, hkey⟩
  · generalize t.pc = pc at hat hpc
    cases hat with
    | putObserve => exact ⟨rfl, hpc.2.1⟩
    | getCheck | getRead | putCheck | deleteRead => exact ⟨rfl, hpc.2⟩

/-- The item of an element whose key the transaction has not written is no insert. -/
lemma Core.hasInsert_item (hc : Core σ here t) (hf : Found σ t.calls k e) :
    (t.item k.1 e).hasInsert = false :=
  (hc.items.observed (hc.linked.not_mem hf.new) hf.key {}).hasInsert

lemma stamped_word (hm : MemOk σ) (hlt : e < σ.next)
    (hlock : (σ.heap e).word.lock = none ∨ (σ.heap e).word.lock = some here) :
    Stamped σ here (.elem e) (.word (σ.heap e).word) :=
  ⟨hlt, le_rfl, fun hv => (hm.valid hlt hv).1, hlock⟩

lemma lock_of_not_elsewhere {w : Word} (h : w.lockedElsewhere here = false) :
    w.lock = none ∨ w.lock = some here := by
  cases hl : w.lock with
  | none => exact .inl rfl
  | some l =>
    right
    simpa [Word.lockedElsewhere, hl] using h

/-- What every read of an element does to the items. -/
lemma Core.read (hm : MemOk σ) (hc : Core σ here t) (hlt : e < σ.next)
    (hkey : (σ.heap e).key = k) (hlock : (σ.heap e).word.lock = none) :
    ItemsOk σ here (t.items ++ [readItem k.1 e (σ.heap e).word]) t.grown ∧
      Linked t.calls (t.items ++ [readItem k.1 e (σ.heap e).word]) :=
  ⟨hc.items.add (Adds.append _ _) (.of_read hlt (by rw [hkey]) (stamped_word hm hlt (.inl hlock))),
    hc.linked.add_read (Adds.append _ _) rfl⟩

/-- An item that was observed keeps its version when it gets a write. -/
lemma Observed.stamped (hm : MemOk σ) (hc : Core σ here t)
    (ho : Observed t.items k e (σ.heap e).word it) (hlt : e < σ.next)
    (hlock : (σ.heap e).word.lockedElsewhere here = false) (st : Stamp) (hst : it.rdata = some st) :
    Stamped σ here (.elem e) st := by
  rcases ho.rdata with hlead | ⟨-, hnew⟩
  · exact hc.items.stamp _ _ (hlead.symm.trans hst)
  · cases hnew.symm.trans hst
    exact stamped_word hm hlt (lock_of_not_elsewhere hlock)

/-- An element is observed and not written. -/
lemma Core.observe (hm : MemOk σ) (hc : Core σ here t) (hf : Found σ t.calls k e)
    (hlock : (σ.heap e).word.lockedElsewhere here = false) :
    ∃ items' it, items' = setItem ((t.item k.1 e).observe (σ.heap e).word) t.items ∧
      Adds t.items items' it ∧ Extends t.items items' ∧ it.hasInsert = false ∧
      (lead items' (.elem e)).isSome ∧ ItemsOk σ here items' t.grown ∧ Linked t.calls items' := by
  have ho := hc.items.observed (hc.linked.not_mem hf.new) hf.key (σ.heap e).word
  obtain ⟨hadds, hext⟩ := ho.adds _ rfl rfl
  have hlead := lead_isSome hadds.mem ho.isSome
  rw [ho.ref] at hlead
  refine ⟨_, _, rfl, hadds, hext, ho.hasInsert, hlead, hc.items.add hadds ?_,
    hc.linked.add_read hadds ho.wdata⟩
  refine ⟨fun e' he' => ?_, fun _ => ⟨ho.isSome, ho.hasInsert, ho.hasDelete⟩, fun hw => ?_,
    fun hi => ?_, fun st hst => ?_, fun _ e' hw => ?_⟩
  · cases ho.ref.symm.trans he'
    exact ⟨hf.lt, by rw [hf.key, ho.owner]⟩
  · rw [ho.wdata] at hw
    cases hw
  · rw [ho.hasInsert] at hi
    cases hi
  · rw [ho.ref]
    exact ho.stamped hm hc hf.lt hlock st hst
  · rw [Item.writesElem, ho.wdata] at hw
    cases hw.2

/-- An element is observed and written, by an update or a delete. -/
lemma Core.observe_write (hm : MemOk σ) (hc : Core σ here t) (hf : Found σ t.calls k e)
    (hlock : (σ.heap e).word.lockedElsewhere here = false) (hlive : (σ.heap e).live)
    (it : Item M.Node) (y : Call × Result)
    (href : it.ref = ((t.item k.1 e).observe (σ.heap e).word).ref)
    (hrdata : it.rdata = ((t.item k.1 e).observe (σ.heap e).word).rdata)
    (howner : it.owner = ((t.item k.1 e).observe (σ.heap e).word).owner) (hextra : it.extra = k.2)
    (hins : it.hasInsert = false) (hw : it.wdata.isSome) (hwrites : it.Writes)
    (heff : ∀ k', effect y k' = if k' = k then some it.effect else none)
    (hnot : ∀ k', ¬ Inserts y k') :
    Adds t.items (setItem it t.items) it ∧ Extends t.items (setItem it t.items) ∧
      (lead (setItem it t.items) (.elem e)).isSome ∧ ItemsOk σ here (setItem it t.items) t.grown ∧
      Linked (t.calls ++ [y]) (setItem it t.items) := by
  have ho := hc.items.observed (hc.linked.not_mem hf.new) hf.key (σ.heap e).word
  obtain ⟨hadds, hext⟩ := ho.adds it href hrdata
  have hsome : it.rdata.isSome := hrdata ▸ ho.isSome
  have hrefe : it.ref = .elem e := href.trans ho.ref
  have hkey : it.key = k := by rw [Item.key, howner, ho.owner, hextra]
  have hlead := lead_isSome hadds.mem hsome
  rw [hrefe] at hlead
  refine ⟨hadds, hext, hlead, hc.items.add hadds ?_, ?_⟩
  · refine ⟨fun e' he' => ?_, fun hnone => ?_, fun _ => ⟨hwrites, ⟨e, hrefe, ?_⟩, ?_⟩,
      fun hi => ?_, fun st hst => ?_, fun _ e' hwe => ⟨?_, .inl hsome⟩⟩
    · cases hrefe.symm.trans he'
      exact ⟨hf.lt, by rw [hf.key, howner, ho.owner]⟩
    · rw [hnone] at hw
      cases hw
    · rw [hkey, hf.key]
    · rw [hkey]
      exact hc.linked.not_mem hf.new
    · rw [hins] at hi
      cases hi
    · rw [hrefe]
      exact ho.stamped hm hc hf.lt hlock st (hrdata ▸ hst)
    · cases hrefe.symm.trans hwe.1
      exact hlive
  · refine hc.linked.answer_write hadds hw (hkey ▸ hf.new) (hkey ▸ heff) fun k' hk' => ?_
    exact absurd hk' (hnot k')

/-! ## Checks -/

/-- A check that has passed on the first item of an element or a node: its version is the current
one, and nobody else has locked the element. -/
lemma Core.valid_of_check (hc : Core σ here t) (hit : it ∈ t.items) (hread : it.rdata.isSome)
    (hlead : lead t.items it.ref = it.rdata) (hcheck : σ.checkItem here it) :
    Valid σ (lead t.items) it.ref ∧ ∀ e, it.ref = .elem e →
      (σ.heap e).word.lock = none ∨ (σ.heap e).word.lock = some here := by
  obtain ⟨st, hst⟩ := Option.isSome_iff_exists.mp hread
  have hins : it.hasInsert = false := by
    by_contra hi
    rw [Bool.not_eq_false] at hi
    rw [hc.items.insert it hit hi] at hread
    cases hread
  have hstamp := hc.items.stamp _ _ (hlead.trans hst)
  rw [hlead.symm] at hst
  refine ⟨⟨st, hst, ?_⟩, ?_⟩
  all_goals rw [hlead] at hst
  · cases href : it.ref with
    | elem e =>
      rw [href] at hstamp
      cases st with
      | version v => exact hstamp.elim
      | word w =>
        simp only [Store.checkItem, href, hst, hins, Bool.or_false, Bool.and_eq_true,
          Word.checkVersion, Bool.or_eq_true, decide_eq_true_eq, Bool.not_eq_true'] at hcheck
        obtain ⟨hvalid, hword | hword⟩ := hcheck
        · exact ⟨by rw [hword], by rw [← hword, hvalid]⟩
        · exact ⟨by rw [hword], by rw [hword] at hvalid; exact hvalid⟩
    | node table n =>
      rw [href] at hstamp
      cases st with
      | word w => exact hstamp.elim
      | version v =>
        simp only [Store.checkItem, href, hst, decide_eq_true_eq] at hcheck
        exact hcheck
  · intro e href
    rw [href] at hstamp
    cases st with
    | version v => exact hstamp.elim
    | word w =>
      simp only [Store.checkItem, href, hst, hins, Bool.or_false, Bool.and_eq_true,
        Word.checkVersion, Bool.or_eq_true, decide_eq_true_eq, Bool.not_eq_true'] at hcheck
      obtain ⟨-, hword | hword⟩ := hcheck
      · rw [hword]
        exact hstamp.2.2.2
      · rw [hword]
        exact .inr rfl

/-- An item whose check passes, or is forgiven, either has passed before under another item or has
the version that counts. -/
lemma Work.check_cases (hw : Work σ here i t) {j : ℕ} (hpc : t.pc = .check j)
    (hit : t.items[j]? = some it) (hread : it.rdata.isSome)
    (hpass : σ.checkItem here it ∨ t.precedingDuplicateRead j it.ref) :
    it.ref ∈ t.passed ∨ lead t.items it.ref = it.rdata ∧ σ.checkItem here it := by
  have hpcok := hw.pcAt hpc
  have hearlier : ∀ y ∈ t.items.take j, y.ref = it.ref → y.rdata.isSome → it.ref ∈ t.passed :=
    fun y hy href hyr => href ▸ hpcok.2 y hy hyr
  rcases hpass with hcheck | hdup
  · rcases lead_of_getElem? hit hread with ⟨y, hy, href, hyr⟩ | hlead
    · exact .inl (hearlier y hy href hyr)
    · exact .inr ⟨hlead, hcheck⟩
  · obtain ⟨y, hy, href⟩ := any_eq_true.mp hdup
    rw [Bool.and_eq_true, decide_eq_true_eq] at href
    exact .inl (hearlier y hy href.1 href.2)

lemma Work.checkPass (hc : Core σ here t) (hw : Work σ here i t) {j : ℕ} (hpc : t.pc = .check j)
    (hit : t.items[j]? = some it) (hread : it.rdata.isSome)
    (hpass : σ.checkItem here it ∨ t.precedingDuplicateRead j it.ref) :
    Work σ here i { t with pc := .check (j + 1), passed := it.ref :: t.passed } := by
  have hmem := mem_of_getElem? hit
  have hpcok := hw.pcAt hpc
  -- an element that passes now is valid now
  have hvalid : ∀ e, it.ref = .elem e → .elem e ∈ t.passed ∨
      (σ.heap e).word.version.invalid = false := by
    intro e href
    rcases hw.check_cases hpc hit hread hpass with hold | ⟨hlead, hcheck⟩
    · exact .inl (href ▸ hold)
    · obtain ⟨⟨st, -, hholds⟩, -⟩ := hc.valid_of_check hmem hread hlead hcheck
      rw [href] at hholds
      cases st with
      | version v => exact hholds.elim
      | word w => exact .inr (by rw [hholds.1, hholds.2])
  refine ⟨?_, hw.live, hw.nodup, hw.locked, fun e he hpassed => ?_, ?_, ?_,
    hpcok.1, forall_take_succ hit ?_ ?_⟩
  · intro y hy
    exact hw.fresh y (by rw [hpc]; exact hy)
  · rcases mem_cons.mp hpassed with heq | hold
    · rcases hvalid e heq.symm with hold | hv
      · exact hw.grown e he hold
      · rw [(hc.items.grown e he).2.2.1] at hv
        cases hv
    · exact hw.grown e he hold
  · intro _ y hy e hwe hpassed hkey
    rcases mem_cons.mp hpassed with heq | hold
    · rcases hvalid e heq.symm with hold | hv
      · exact hw.passed (by rw [hpc]; rfl) y hy e hwe hold hkey
      · exact hv
    · exact hw.passed (by rw [hpc]; rfl) y hy e hwe hold hkey
  · exact fun _ => hw.known (by rw [hpc]; rfl)
  · exact fun y hy hyr => mem_cons_of_mem _ (hpcok.2 y hy hyr)
  · exact fun _ => mem_cons_self

/-! ## All steps -/

/-- What holds of a transaction throughout. -/
abbrev Running (σ : Store M ι) (here : ℕ) (i : ι) (t : Txn M.Node ι) : Prop :=
  Core σ here t ∧ Work σ here i t

lemma Work.of_missed (hc : Core σ here t) (hw : Work σ here i t) (hpc : t.pc = .idle)
    (hk : k ∉ written t.calls) (hfind : σ.find k = none)
    (hcall : c = .get k ∧ r = .value none ∨ c = .delete k ∧ r = .found false) :
    Running σ here i ((t.ensureNotFound k.1 (σ.leaf k) (σ.version k.1 (σ.leaf k))).answer c r) := by
  obtain ⟨hq, hexec⟩ := hw.exec hpc rfl
  have hform : Formed (c, r) := by rcases hcall with ⟨rfl, rfl⟩ | ⟨rfl, rfl⟩ <;> trivial
  have hkey : c.key? = some k := by rcases hcall with ⟨rfl, rfl⟩ | ⟨rfl, rfl⟩ <;> rfl
  have heff : ∀ k', effect (c, r) k' = none := by
    rcases hcall with ⟨rfl, rfl⟩ | ⟨rfl, rfl⟩ <;> exact fun _ => rfl
  have hins : ∀ k', ¬ Inserts (c, r) k' := by
    rcases hcall with ⟨rfl, rfl⟩ | ⟨rfl, rfl⟩ <;> exact fun _ h => h
  have hsay : Says (c, r) k none := by
    rcases hcall with ⟨rfl, rfl⟩ | ⟨rfl, rfl⟩ <;> exact fun _ => rfl
  have hlead := lead_concat_isSome t.items (nodeItem k.1 (σ.leaf k) (σ.version k.1 (σ.leaf k))) rfl
  refine ⟨⟨hc.items.add (Adds.append _ _) (.of_node le_rfl),
    (hc.linked.add_read (Adds.append _ _) rfl).answer_read heff hins,
    hc.calls.concat_key hform hkey hk, hq.installed⟩, Exec.work hq ?_ hq⟩
  exact (hexec.add (Adds.append _ _) (Extends.append _ _) rfl).answer
    (known_of_key hform hkey (.inr (.inr ⟨_, .node hlead fun _ => ⟨rfl, .inl hfind, hsay⟩⟩)))

/-- A call on one key is answered from an element of the key. -/
lemma Work.answer_elem {items : List (Item M.Node)} (hc : Core σ here t) (hw : Work σ here i t)
    (hexe : t.pc.executing) (hf : Found σ t.calls k e) (hadds : Adds t.items items it)
    (hext : Extends t.items items) (hins : it.hasInsert = false)
    (hlead : (lead items (.elem e)).isSome) (hitems : ItemsOk σ here items t.grown)
    (hlinked : Linked (t.calls ++ [(c, r)]) items) (hform : Formed (c, r))
    (hkey : c.key? = some k) (hval : Says (c, r) k (some (σ.heap e).value)) :
    Running σ here i ({ t with items := items }.answer c r) := by
  obtain ⟨hq, hexec⟩ := hw.exec rfl hexe
  refine ⟨⟨hitems, hlinked, hc.calls.concat_key hform hkey hf.new, hq.installed⟩,
    Exec.work hq ?_ hq⟩
  exact (hexec.add hadds hext hins).answer
    (known_of_key hform hkey (.inr (.inr ⟨_, .elem hlead hf.lt hf.key fun _ => hval⟩)))

/-- What a transaction has inserted is in the tree. -/
lemma Exec.find_of_inserted (hc : Core σ here t) (h : Exec σ i t.items t.skipped t.calls)
    (hk : Inserted t.calls k) : ∃ e, σ.find k = some e := by
  obtain ⟨it, hit, hins, hw, hkey⟩ := hc.linked.inserted k hk
  obtain ⟨-, e, href, -⟩ := hc.items.write it hit hw
  exact ⟨e, hkey ▸ (h.fresh it hit hins e ⟨href, hw⟩).find⟩

section

variable (hm : MemOk σ) (hc : Core σ here t) (hw : Work σ here i t)

include hm hc hw

lemma Work.of_get (hpc : t.pc = .getRead k e) (hlock : (σ.heap e).word.lock = none) :
    Running σ here i
      ((t.addRead k.1 e (σ.heap e)).answer (.get k) (.value (some (σ.heap e).value))) := by
  obtain ⟨hq, hexec⟩ := hw.exec hpc rfl
  obtain ⟨-, hf⟩ := hw.pcAt hpc
  obtain ⟨hitems, hlinked⟩ := hc.read hm hf.lt hf.key hlock
  have hlead := lead_concat_isSome t.items (readItem k.1 e (σ.heap e).word) rfl
  refine ⟨⟨hitems, hlinked.answer_read (fun _ => rfl) fun _ h => h,
    hc.calls.concat_key trivial rfl hf.new, hq.installed⟩, Exec.work hq ?_ hq⟩
  exact (hexec.add (Adds.append _ _) (Extends.append _ _) rfl).answer
    (known_of_key trivial rfl (.inr (.inr ⟨_, .elem hlead hf.lt hf.key fun _ _ => rfl⟩)))

lemma Work.of_observe (hpc : t.pc = .putObserve false k v e)
    (hlock : (σ.heap e).word.lockedElsewhere here = false) :
    Running σ here i ({ t with
      items := setItem ((t.item k.1 e).observe (σ.heap e).word) t.items }.answer
        (.insert k v) (.found true)) := by
  obtain ⟨-, hf, -⟩ := hw.pcAt hpc
  obtain ⟨items', it, rfl, hadds, hext, hins, hlead, hitems, hlinked⟩ := hc.observe hm hf hlock
  exact hw.answer_elem hc (by rw [hpc]; rfl) hf hadds hext hins hlead hitems
    (hlinked.answer_read (fun _ => rfl) fun _ h => h) trivial rfl fun _ => rfl

lemma Work.of_put (hpc : t.pc = .putObserve true k v e)
    (hlock : (σ.heap e).word.lockedElsewhere here = false) :
    Running σ here i ({ t with
      items := setItem { (t.item k.1 e).observe (σ.heap e).word with
        wdata := some v, extra := k.2, effect := some v } t.items }.answer
          (.put k v) (.found true)) := by
  obtain ⟨-, hf, hlive⟩ := hw.pcAt hpc
  have ho := hc.items.observed (hc.linked.not_mem hf.new) hf.key (σ.heap e).word
  obtain ⟨hadds, hext, hlead, hitems, hlinked⟩ := hc.observe_write hm hf hlock hlive
    { (t.item k.1 e).observe (σ.heap e).word with
      wdata := some v, extra := k.2, effect := some v } (.put k v, .found true)
    rfl rfl rfl rfl ho.hasInsert rfl (.update ho.hasInsert ho.hasDelete rfl) (fun _ => rfl)
    fun _ h => h
  exact hw.answer_elem hc (by rw [hpc]; rfl) hf hadds hext ho.hasInsert hlead hitems hlinked
    trivial rfl fun _ => rfl

lemma Work.of_delete (hpc : t.pc = .deleteRead k e)
    (hvalid : (σ.heap e).word.version.invalid = false)
    (hlock : (σ.heap e).word.lockedElsewhere here = false) :
    Running σ here i ({ t with
      items := setItem { (t.item k.1 e).observe (σ.heap e).word with
        wdata := some k.2, hasDelete := true, extra := k.2, effect := none } t.items }.answer
          (.delete k) (.found true)) := by
  obtain ⟨-, hf⟩ := hw.pcAt hpc
  have ho := hc.items.observed (hc.linked.not_mem hf.new) hf.key (σ.heap e).word
  obtain ⟨hadds, hext, hlead, hitems, hlinked⟩ := hc.observe_write hm hf hlock
    (hm.valid hf.lt hvalid).1
    { (t.item k.1 e).observe (σ.heap e).word with
      wdata := some k.2, hasDelete := true, extra := k.2, effect := none }
    (.delete k, .found true)
    rfl rfl rfl rfl ho.hasInsert rfl (.delete ho.hasInsert rfl rfl rfl) (fun _ => rfl) fun _ h => h
  exact hw.answer_elem hc (by rw [hpc]; rfl) hf hadds hext ho.hasInsert hlead hitems hlinked
    trivial rfl fun _ => rfl

/-- The item that a row adds. -/
lemma Work.row {d : Dir} {table : ℕ} {lo hi : Bytes} {pos : Cursor}
    {rows : List (Bytes × Bytes)} {b : Bytes} {entries : List (Bytes × ℕ)} {next : Option Cursor}
    (hpc : t.pc = .scan d table lo hi pos rows ((b, e) :: entries) next)
    (hk : (table, b) ∉ written t.calls) (hend : pastEnd d hi b = false)
    (hlock : (σ.heap e).word.lock = none) :
    t.Quiet ∧ Exec σ i (t.items ++ [readItem table e (σ.heap e).word]) t.skipped t.calls ∧
      ItemsOk σ here (t.items ++ [readItem table e (σ.heap e).word]) t.grown ∧
      Linked t.calls (t.items ++ [readItem table e (σ.heap e).word]) ∧
      ScanOk σ i (t.items ++ [readItem table e (σ.heap e).word]) t.skipped t.calls d table lo hi
        ⟨d, b, true⟩ (rows ++ [(b, (σ.heap e).value)]) entries next := by
  obtain ⟨hq, hexec⟩ := hw.exec hpc rfl
  obtain ⟨-, hscan⟩ := hw.pcAt hpc
  obtain ⟨-, -, hlt, hkey⟩ := hscan.entry (b, e) (by simp)
  obtain ⟨hitems, hlinked⟩ := hc.read hm hlt hkey hlock
  have hlead := lead_concat_isSome t.items (readItem table e (σ.heap e).word) rfl
  exact ⟨hq, hexec.add (Adds.append _ _) (Extends.append _ _) rfl, hitems, hlinked,
    hscan.read hk hend (Extends.append _ _) hlead⟩

/-- A step that changes nothing but the transaction keeps its invariant. -/
lemma Local.ok (h : Local σ here t t') : Running σ here i t' := by
  have hpcok := hw.pc
  have hinst := hc.installs
  cases h with
  | @advance k e pc hfrom hpc hcheck =>
    obtain ⟨hexe, hf⟩ := hw.found hm hfrom
    obtain ⟨hq, hexec⟩ := hw.exec rfl hexe
    have hpc' : PcOk σ here i t pc := by
      cases hpc with
      | putObserve set _ v _ =>
        refine ⟨hq, hf, ?_⟩
        rcases hcheck set v rfl with hvalid | hins
        · exact (hm.valid hf.lt hvalid).1
        · rw [hc.hasInsert_item hf] at hins
          cases hins
      | getCheck | getRead | putCheck | deleteRead => exact ⟨hq, hf⟩
    refine ⟨hc.goto ?_, Exec.work hq hexec hpc'⟩
    cases hpc <;> exact hq.installed
  | seek hpc hk =>
    obtain ⟨hq, hexec⟩ := hw.exec hpc rfl
    exact ⟨hc.goto hq.installed, Exec.work hq hexec ⟨hq, hk⟩⟩
  | missed hpc hk hfind hcall => exact hw.of_missed hc hpc hk hfind hcall
  | read hpc hlock => exact hw.of_get hm hc hpc hlock
  | observe hpc hlock => exact hw.of_observe hm hc hpc hlock
  | put hpc hlock => exact hw.of_put hm hc hpc hlock
  | @grow k v e hpc hlock =>
    obtain ⟨hq, hexec⟩ := hw.exec hpc rfl
    obtain ⟨-, hf, hlive⟩ := hw.pcAt hpc
    obtain ⟨items', it, hset, hadds, hext, hins, hlead, hitems, hlinked⟩ := hc.observe hm hf hlock
    rw [if_neg (by rw [hc.hasInsert_item hf]; exact Bool.false_ne_true), ← hset]
    exact ⟨⟨hitems, hlinked, hc.calls, hq.installed⟩,
      Exec.work hq (hexec.add hadds hext hins) ⟨hq, { hf with live := hlive, lead := hlead }⟩⟩
  | delete hpc hvalid hlock => exact hw.of_delete hm hc hpc hvalid hlock
  | @copy own k v e hpc =>
    obtain ⟨hq, hexec⟩ := hw.exec hpc rfl
    obtain ⟨-, hg, rfl, hmov⟩ := hw.pcAt hpc
    exact ⟨hc.goto hq.installed, Exec.work hq hexec ⟨hq, hg, rfl, hmov, hg.key, hg.live, rfl, rfl⟩⟩
  | scan hpc =>
    obtain ⟨hq, hexec⟩ := hw.exec hpc rfl
    exact ⟨hc.goto hq.installed, Exec.work hq hexec ⟨hq, ScanOk.init⟩⟩
  | @visit d table lo hi pos pos' rows entries next hpc hpos =>
    obtain ⟨hq, hexec⟩ := hw.exec hpc rfl
    obtain ⟨-, hscan⟩ := hw.pcAt hpc
    have hlead := lead_concat_isSome t.items (nodeItem table (M.scanNode (σ.trees table) pos')
      (M.version (σ.trees table) (M.scanNode (σ.trees table) pos'))) rfl
    refine ⟨⟨hc.items.add (Adds.append _ _) (.of_node le_rfl),
      hc.linked.add_read (Adds.append _ _) rfl, hc.calls, hq.installed⟩,
      Exec.work hq ((hexec.add (Adds.append _ _) (Extends.append _ _) rfl).skipMore
        fun _ => Bool.or_inl) ⟨hq, ?_⟩⟩
    exact hscan.visit hm hpos (Extends.append _ _) hlead fun k hk => hexec.find_of_inserted hc hk
  | row hpc hk hend hlock =>
    obtain ⟨hq, hexec, hitems, hlinked, hscan⟩ := hw.row hm hc hpc hk hend hlock
    exact ⟨⟨hitems, hlinked, hc.calls, hq.installed⟩, Exec.work hq hexec ⟨hq, hscan⟩⟩
  | rowStop hpc hk hend hlock =>
    obtain ⟨hq, hexec, hitems, hlinked, hscan⟩ := hw.row hm hc hpc hk hend hlock
    obtain ⟨hcalls, hknown⟩ := hscan.answer_stop hc.calls
    exact ⟨⟨hitems, hlinked.answer_read (fun _ => rfl) fun _ h => h, hcalls, hq.installed⟩,
      Exec.work hq (hexec.answer hknown) hq⟩
  | scanEnd hpc hend =>
    obtain ⟨hq, hexec⟩ := hw.exec hpc rfl
    rw [hpc] at hpcok
    obtain ⟨hcalls, hknown⟩ := hpcok.2.answer_end hc.calls hend
    exact ⟨⟨hc.items, hc.linked.answer_read (fun _ => rfl) fun _ h => h, hcalls, hq.installed⟩,
      Exec.work hq (hexec.answer hknown) hq⟩
  | abort hpc =>
    obtain ⟨hq, hexec⟩ := hw.exec rfl (Pc.executing_of_abort hpc)
    exact ⟨hc.goto hq.installed, Exec.work hq hexec trivial⟩
  | commit hpc =>
    obtain ⟨hq, hexec⟩ := hw.exec hpc rfl
    exact ⟨hc.goto hq.installed, Exec.work hq hexec ⟨hq.passed, forall_mem_nil _⟩⟩
  | @lockSkip j it hpc hit hskip =>
    rw [hpc] at hpcok hinst
    refine ⟨hc.goto hinst, hw.goto (by rw [hpc]; exact fun _ h => h) nofun
      (fun _ => by rw [hpc]; rfl) ⟨hpcok.1, forall_take_succ hit hpcok.2 fun e hwe => ?_⟩⟩
    exact absurd hwe (hskip e)
  | @fail j hpc =>
    have hnil : t.installed = [] := by
      rcases hpc with hpc | hpc <;> rw [hpc] at hinst <;> exact hinst
    refine ⟨hc.goto hnil, hw.goto ?_ nofun nofun trivial⟩
    rcases hpc with hpc | hpc <;> rw [hpc] <;> exact fun _ h => h
  | @checkSkip j it hpc hit hread =>
    rw [hpc] at hpcok hinst
    refine ⟨hc.goto hinst, hw.goto (by rw [hpc]; exact fun _ h => h)
      (fun _ => .inl (by rw [hpc]; rfl)) (fun _ => by rw [hpc]; rfl)
      ⟨hpcok.1, forall_take_succ hit hpcok.2 fun hyr => ?_⟩⟩
    rw [hread] at hyr
    cases hyr
  | checkPass hpc hit hread hpass =>
    rw [hpc] at hinst
    exact ⟨⟨hc.items, hc.linked, hc.calls, hinst⟩, hw.checkPass hc hpc hit hread hpass⟩
  | @decide j hpc hend =>
    rw [hpc] at hpcok hinst
    have hnil : t.installed = [] := hinst
    refine ⟨hc.goto ⟨forall_mem_nil _, fun it _ _ => ?_⟩,
      hw.goto (by rw [hpc]; exact fun _ h => h) (fun _ => .inl (by rw [hpc]; rfl))
        nofun ⟨hpcok.1, ?_⟩⟩
    · rw [hnil]
      exact not_mem_nil
    · rw [← take_eq_self hend]
      exact hpcok.2
  | @installSkip j it hpc hit hskip =>
    rw [hpc] at hpcok hinst
    have hnone : ¬ it.wdata.isSome := by
      intro hwd
      obtain ⟨-, e, href, -⟩ := hc.items.write it (mem_of_getElem? hit) hwd
      exact hskip e ⟨href, hwd⟩
    refine ⟨hc.goto ⟨forall_take_succ hit hinst.1 fun hwd => absurd hwd hnone, fun y hy => ?_⟩,
      hw.goto (by rw [hpc]; exact fun _ h => h) (fun _ => .inl (by rw [hpc]; rfl))
        nofun hpcok⟩
    exact hinst.2 y (by rw [drop_eq_cons hit]; exact mem_cons_of_mem _ hy)
  | @installEnd j hpc hend =>
    rw [hpc] at hinst
    have hall : ∀ it ∈ t.items, it.wdata.isSome → it.key ∈ t.installed := by
      have hall := hinst.1
      rwa [take_eq_self hend] at hall
    have hleft : ∀ it ∈ t.items, it ∈ t.pc.left t.items := by
      rw [hpc]
      exact fun _ h => h
    split <;> exact ⟨hc.goto hall, hw.goto hleft nofun nofun trivial⟩
  | @unlockSkip ok j hpc hskip =>
    rw [hpc] at hinst
    refine ⟨hc.goto ?_, hw.goto (by rw [hpc]; exact fun _ h => h) nofun
      nofun trivial⟩
    cases ok <;> exact hinst
  | @unlockEnd ok hpc =>
    rw [hpc] at hinst
    cases ok with
    | true =>
      exact ⟨hc.goto hinst, hw.goto (by rw [hpc]; exact fun _ h => h) nofun
        nofun trivial⟩
    | false =>
      refine ⟨hc.goto hinst, hw.goto ?_ nofun nofun trivial⟩
      rw [hpc]
      exact take_subset _ _
  | @cleanupSkip j hpc hskip =>
    rw [hpc] at hinst
    refine ⟨hc.goto hinst, hw.goto ?_ nofun nofun trivial⟩
    rw [hpc]
    exact (take_prefix_take_left (Nat.le_succ j)).subset
  | cleanupEnd hpc =>
    rw [hpc] at hinst
    exact ⟨hc.goto hinst, hw.goto (nil_subset _) nofun nofun
      trivial⟩

end

end

end Rolis.Sto.Occ
