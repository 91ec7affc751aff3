import Rolis.Sto.OccEvidence

/-!
# Scans

A scan that is under way knows everything about the keys behind it: the rows it has read, and that
there is nothing else. Of the leaf it is in it knows that there is nothing but the entries it has
still to read. `ScanOk` keeps both along the scan, and at its end they are what the answer says.
-/

namespace Rolis.Sto.Occ

open List

variable {M : Masstree} {ι : Type}

/-- A scan of the table from `lo` to `hi` that has come to `pos`. -/
structure ScanOk (σ : Store M ι) (i : ι) (items : List (Item M.Node)) (skip : Key → Bool)
    (calls : List (Call × Result)) (d : Dir) (table : ℕ) (lo hi : Bytes) (pos : Cursor)
    (rows : List (Bytes × Bytes)) (entries : List (Bytes × ℕ)) (next : Option Cursor) : Prop where
  dir : pos.dir = d
  nextDir : ∀ c ∈ next, c.dir = d
  ahead : ∀ c ∈ next, ∀ b, c.Ahead b → pos.Ahead b
  start : ∀ b, pos.Ahead b → (Cursor.mk d lo false).Ahead b
  sortedRows : rows.Pairwise fun x y => d.Lt x.1 y.1
  row : ∀ x ∈ rows, (Cursor.mk d lo false).Ahead x.1 ∧ pastEnd d hi x.1 = false ∧
    ¬ pos.Ahead x.1 ∧ (table, x.1) ∉ written calls
  sortedEntries : entries.Pairwise fun x y => d.Lt x.1 y.1
  entry : ∀ x ∈ entries, pos.Ahead x.1 ∧ (∀ c ∈ next, ¬ c.Ahead x.1) ∧ x.2 < σ.next ∧
    (σ.heap x.2).key = (table, x.1)
  /-- The keys behind the scan. -/
  done : ∀ b, (Cursor.mk d lo false).Ahead b → ¬ pos.Ahead b → ¬ Inserted calls (table, b) ∧
    Known σ i items skip (table, b) fun v => ∀ w, (b, w) ∈ rows ↔ v = some w
  /-- The keys of the leaf that are not there. -/
  gap : ∀ b, pos.Ahead b → (∀ c ∈ next, ¬ c.Ahead b) → (∀ x ∈ entries, x.1 ≠ b) →
    ¬ Inserted calls (table, b) ∧ Known σ i items skip (table, b) (· = none)

section

variable {σ σ' : Store M ι} {here : ℕ} {i : ι} {items items' : List (Item M.Node)}
  {skip : Key → Bool} {calls : List (Call × Result)} {d : Dir} {table : ℕ} {lo hi : Bytes}
  {pos pos' : Cursor} {rows : List (Bytes × Bytes)} {entries : List (Bytes × ℕ)}
  {next : Option Cursor}

lemma Dir.Lt.irrefl {a : Bytes} (h : d.Lt a a) : False := h.ne rfl

/-- The beginning of a scan. -/
lemma ScanOk.init : ScanOk σ i items skip calls d table lo hi ⟨d, lo, false⟩ [] []
    (some ⟨d, lo, false⟩) where
  dir := rfl
  nextDir c hc := by
    cases hc
    rfl
  ahead c hc b hb := by
    cases hc
    exact hb
  start _ hb := hb
  sortedRows := List.Pairwise.nil
  row := forall_mem_nil _
  sortedEntries := List.Pairwise.nil
  entry := forall_mem_nil _
  done _ hb hnot := absurd hb hnot
  gap _ hb hnot := absurd hb (hnot _ rfl)

/-- What the scan knows stays known. -/
lemma ScanOk.imp (h : ScanOk σ i items skip calls d table lo hi pos rows entries next)
    (hlt : σ.next ≤ σ'.next) (hkey : ∀ e < σ.next, (σ'.heap e).key = (σ.heap e).key)
    (hknown : ∀ k P, Known σ i items skip k P → Known σ' i items' skip k P) :
    ScanOk σ' i items' skip calls d table lo hi pos rows entries next where
  dir := h.dir
  nextDir := h.nextDir
  ahead := h.ahead
  start := h.start
  sortedRows := h.sortedRows
  row := h.row
  sortedEntries := h.sortedEntries
  entry x hx := by
    obtain ⟨hahead, hnext, he, hk⟩ := h.entry x hx
    exact ⟨hahead, hnext, he.trans_le hlt, by rw [hkey _ he, hk]⟩
  done b hb hnot := (h.done b hb hnot).imp_right (hknown _ _)
  gap b hb hnext hent := (h.gap b hb hnext hent).imp_right (hknown _ _)

/-- No key that is ahead is a row. -/
lemma ScanOk.not_row (h : ScanOk σ i items skip calls d table lo hi pos rows entries next)
    {b : Bytes} (hb : pos.Ahead b) (w : Bytes) : (b, w) ∉ rows :=
  fun hmem => (h.row _ hmem).2.2.1 hb

/-- `visit_leaf`: at the same position once more, or behind the leaf. -/
lemma ScanOk.visit (hm : MemOk σ)
    (h : ScanOk σ i items skip calls d table lo hi pos rows entries next)
    (hpos : pos' = pos ∨ entries = [] ∧ next = some pos') (hext : Extends items items')
    (hlead : (lead items' (.node table (M.scanNode (σ.trees table) pos'))).isSome)
    (hins : ∀ k, Inserted calls k → ∃ e, σ.find k = some e) :
    ScanOk σ i items' (fun k => skip k || σ.passes table pos' k) calls d table lo hi pos' rows
      (M.rows (σ.trees table) pos') (M.next (σ.trees table) pos') := by
  have hmore : ∀ {k P}, Known σ i items skip k P →
      Known σ i items' (fun k => skip k || σ.passes table pos' k) k P := fun hknown =>
    (hknown.extend hext).skipMore Bool.or_inl
  have hdir : pos'.dir = d := by
    rcases hpos with rfl | ⟨-, rfl⟩
    · exact h.dir
    · exact h.nextDir _ rfl
  have hahead : ∀ b, pos'.Ahead b → pos.Ahead b := by
    rcases hpos with rfl | ⟨-, rfl⟩
    · exact fun _ hb => hb
    · exact h.ahead _ rfl
  refine ⟨hdir, fun c hc => (M.dir_next _ _ c hc).trans hdir, M.ahead_of_next _ _,
    fun b hb => h.start b (hahead b hb), h.sortedRows, fun x hx => ?_, ?_, fun x hx => ?_,
    fun b hb hnot => ?_, fun b hb hnext hent => ?_⟩
  · obtain ⟨hlo, hend, hnot, hk⟩ := h.row x hx
    exact ⟨hlo, hend, fun hb => hnot (hahead _ hb), hk⟩
  · rw [← hdir]
    exact M.sorted_rows _ _
  · obtain ⟨hb, hnext, hfind⟩ := (M.mem_rows (σ.trees table) pos' x.1 x.2).mp hx
    obtain ⟨hlt, hkey⟩ := hm.linked (k := (table, x.1)) hfind
    exact ⟨hb, hnext, hlt, hkey⟩
  · by_cases hold : pos.Ahead b
    · rcases hpos with rfl | ⟨rfl, rfl⟩
      · exact absurd hold hnot
      · -- the leaf behind which the scan has come had no such key
        obtain ⟨hnew, hknown⟩ := h.gap b hold (fun c hc => by cases hc; exact hnot)
          (forall_mem_nil _)
        refine ⟨hnew, (hmore hknown).imp fun v hv w => ?_⟩
        simp [hv, h.not_row hold w]
    · exact (h.done b hb hold).imp_right hmore
  · have hnone : σ.find (table, b) = none := by
      cases hfind : σ.find (table, b) with
      | none => rfl
      | some e =>
        have hmem := (M.mem_rows (σ.trees table) pos' b e).mpr ⟨hb, hnext, hfind⟩
        exact absurd rfl (hent _ hmem)
    refine ⟨fun hi => ?_, ?_⟩
    · obtain ⟨e, he⟩ := hins _ hi
      rw [hnone] at he
      cases he
    · by_cases hleaf : σ.leaf (table, b) = M.scanNode (σ.trees table) pos'
      · exact .inr (.inr ⟨_, .node hlead fun _ => ⟨by rw [Store.place, hleaf], .inl hnone, rfl⟩⟩)
      · refine .inr (.inl ⟨rfl, .inr ?_⟩)
        rw [Bool.or_eq_true, Store.passes, decide_eq_true_eq]
        exact .inr ⟨rfl, hb, hnext, hnone, hleaf⟩

/-- `visit_value`: the next entry becomes a row. -/
lemma ScanOk.read {b : Bytes} {e : ℕ}
    (h : ScanOk σ i items skip calls d table lo hi pos rows ((b, e) :: entries) next)
    (hk : (table, b) ∉ written calls) (hend : pastEnd d hi b = false) (hext : Extends items items')
    (hlead : (lead items' (.elem e)).isSome) :
    ScanOk σ i items' skip calls d table lo hi ⟨d, b, true⟩ (rows ++ [(b, (σ.heap e).value)])
      entries next := by
  obtain ⟨hb, hnext, hlt, hkey⟩ := h.entry (b, e) (by simp)
  obtain ⟨hfirst, hrest⟩ := pairwise_cons.mp h.sortedEntries
  -- everything behind `pos` comes before `b`
  have hbefore : ∀ a, ¬ pos.Ahead a → d.Lt a b := by
    intro a ha
    rw [← h.dir]
    exact Cursor.lt_of_ahead ha hb
  have hahead : ∀ a, d.Lt b a → pos.Ahead a := fun a ha => hb.mono (by rw [h.dir]; exact ha.le)
  refine ⟨rfl, h.nextDir, fun c hc a ha => ?_, fun a ha => h.start a (hahead a ha), ?_,
    fun x hx => ?_, hrest, fun x hx => ?_, fun a ha hnot => ?_, fun a ha hna hent => ?_⟩
  · have hlt := Cursor.lt_of_ahead (hnext c hc) ha
    rw [h.nextDir c hc] at hlt
    exact hlt
  · refine pairwise_append.mpr ⟨h.sortedRows, by simp, fun x hx y hy => ?_⟩
    cases mem_singleton.mp hy
    exact hbefore _ (h.row x hx).2.2.1
  · rcases mem_append.mp hx with hx | hx
    · obtain ⟨hlo, hpast, hnot, hw⟩ := h.row x hx
      exact ⟨hlo, hpast, fun hab => hnot (hahead _ hab), hw⟩
    · cases mem_singleton.mp hx
      exact ⟨h.start b hb, hend, fun hbb => Dir.Lt.irrefl hbb, hk⟩
  · obtain ⟨-, hn, he, hke⟩ := h.entry x (by simp [hx])
    exact ⟨hfirst x hx, hn, he, hke⟩
  · by_cases hab : a = b
    · subst hab
      refine ⟨fun hins => hk (mem_written_of_inserted hins),
        .inr (.inr ⟨.elem e, .elem hlead hlt hkey fun _ w => ?_⟩)⟩
      simp [h.not_row hb w, eq_comm]
    · by_cases hold : pos.Ahead a
      · -- between the old position and the entry there was nothing
        have hle : d.Le a b := Dir.not_lt_iff.mp hnot
        have hna : ∀ c ∈ next, ¬ c.Ahead a := fun c hc hca =>
          hnext c hc (hca.mono (by rw [h.nextDir c hc]; exact hle))
        have hent : ∀ x ∈ (b, e) :: entries, x.1 ≠ a := by
          intro x hx heq
          rcases mem_cons.mp hx with rfl | hx
          · exact hab heq.symm
          · exact hnot (heq ▸ hfirst x hx)
        obtain ⟨hnew, hknown⟩ := h.gap a hold hna hent
        refine ⟨hnew, (hknown.extend hext).imp fun v hv w => ?_⟩
        simp [hv, h.not_row hold w, hab]
      · obtain ⟨hnew, hknown⟩ := h.done a ha hold
        refine ⟨hnew, (hknown.extend hext).imp fun v hv w => ?_⟩
        simp [← hv w, hab]
  · have hent' : ∀ x ∈ (b, e) :: entries, x.1 ≠ a := by
      intro x hx heq
      rcases mem_cons.mp hx with rfl | hx
      · exact Dir.Lt.irrefl (heq ▸ ha)
      · exact hent x hx heq
    exact (h.gap a (hahead a ha) hna hent').imp_right fun hknown => hknown.extend hext

/-- A scan may answer when every key it has to cover is behind it or in no leaf ahead. -/
lemma ScanOk.answer (h : ScanOk σ i items skip calls d table lo hi pos rows entries next)
    (hcalls : CallsOk calls) {stopped : Bool}
    (hrows : ∀ x ∈ rows, Covered d lo hi rows stopped x.1)
    (hcov : ∀ b, Covered d lo hi rows stopped b → pos.Ahead b →
      (∀ c ∈ next, ¬ c.Ahead b) ∧ ∀ x ∈ entries, x.1 ≠ b) :
    CallsOk (calls ++ [(.scan d table lo hi, .rows rows stopped)]) ∧
      ∀ k, Known σ i items skip k (Says (.scan d table lo hi, .rows rows stopped) k) := by
  have hall : ∀ b, Covered d lo hi rows stopped b → ¬ Inserted calls (table, b) ∧
      Known σ i items skip (table, b) fun v => ∀ w, (b, w) ∈ rows ↔ v = some w := by
    intro b hb
    by_cases hold : pos.Ahead b
    · obtain ⟨hnext, hent⟩ := hcov b hb hold
      refine (h.gap b hold hnext hent).imp_right fun hknown => hknown.imp fun v hv w => ?_
      simp [hv, h.not_row hold w]
    · exact h.done b hb.1 hold
  constructor
  · refine hcalls.concat ⟨h.sortedRows, hrows⟩ (fun k hk ht v hmem => ?_) fun k hins ht hb => ?_
    · obtain ⟨-, -, -, hnot⟩ := h.row _ hmem
      exact hnot (ht ▸ hk)
    · exact (hall _ hb).1 (ht ▸ hins)
  · intro k
    by_cases hk : k.1 = table ∧ Covered d lo hi rows stopped k.2
    · obtain ⟨rfl, hb⟩ := hk
      exact (hall _ hb).2.imp fun v hv _ _ => hv
    · exact .inl fun v ht hb => absurd ⟨ht, hb⟩ hk

/-- The callback stops the scan at the row it has just seen. -/
lemma ScanOk.answer_stop {b v : Bytes}
    (h : ScanOk σ i items skip calls d table lo hi ⟨d, b, true⟩ (rows ++ [(b, v)]) entries next)
    (hcalls : CallsOk calls) :
    CallsOk (calls ++ [(.scan d table lo hi, .rows (rows ++ [(b, v)]) true)]) ∧
      ∀ k, Known σ i items skip k
        (Says (.scan d table lo hi, .rows (rows ++ [(b, v)]) true) k) := by
  refine h.answer hcalls (fun x hx => ?_) fun a ha hahead => ?_
  · obtain ⟨hlo, hend, hnot, -⟩ := h.row x hx
    exact ⟨hlo, hend, fun _ => ⟨(b, v), by simp, Dir.not_lt_iff.mp hnot⟩⟩
  · obtain ⟨x, hx, hle⟩ := ha.2.2 rfl
    rw [getLast?_concat] at hx
    cases hx
    exact absurd hahead (Dir.not_lt_iff.mpr hle)

/-- The scan has come to its end. -/
lemma ScanOk.answer_end (h : ScanOk σ i items skip calls d table lo hi pos rows entries next)
    (hcalls : CallsOk calls)
    (hend : entries = [] ∧ next = none ∨ ∃ b e es, entries = (b, e) :: es ∧ pastEnd d hi b) :
    CallsOk (calls ++ [(.scan d table lo hi, .rows rows false)]) ∧
      ∀ k, Known σ i items skip k (Says (.scan d table lo hi, .rows rows false) k) := by
  refine h.answer hcalls (fun x hx => ?_) fun a ha hahead => ?_
  · obtain ⟨hlo, hpast, -, -⟩ := h.row x hx
    exact ⟨hlo, hpast, nofun⟩
  · rcases hend with ⟨rfl, rfl⟩ | ⟨b, e, es, rfl, hpast⟩
    · exact ⟨fun c hc => (by cases hc), forall_mem_nil _⟩
    · -- the first entry is behind the boundary, and the key in front of it
      have hlt : d.Lt a b := by
        by_contra hlt
        have hle : d.Le b a := Dir.not_lt_iff.mp hlt
        have hpasta : pastEnd d hi a = true := by
          simp only [pastEnd, Bool.and_eq_true, decide_eq_true_eq] at hpast ⊢
          exact ⟨hpast.1, hpast.2.trans hle⟩
        rw [ha.2.1] at hpasta
        cases hpasta
      obtain ⟨-, hnext, -, -⟩ := h.entry (b, e) (by simp)
      refine ⟨fun c hc hca => hnext c hc (hca.mono (by rw [h.nextDir c hc]; exact hlt.le)),
        fun x hx heq => ?_⟩
      rcases mem_cons.mp hx with rfl | hx
      · exact hlt.ne heq.symm
      · have hfirst := (pairwise_cons.mp h.sortedEntries).1 x hx
        exact Dir.Lt.irrefl (hlt.trans_le (heq ▸ hfirst.le))

end

end Rolis.Sto.Occ
