import Rolis.Sto.OccIds

/-!
# Cuts by commit id

The serial order of `serializable` is that of the locks. Transactions that do not clash may change
places in it: under every key that a transaction has looked at, the same writers stay in front of
it, in the same order (`Explained.after_cutOrder`).

A commit id is drawn behind the checks, and a key that was only read is not locked, so commit ids
need not follow the locks. Where they do for transactions that clash (`IdsFollow`), the transactions
up to some commit id can be moved to the front of the serial order.
-/

namespace Rolis.Sto.Occ

open Function List Serial State

variable {M : Masstree} {ι : Type} {thread : ι → ℕ} {epoch w : ℕ} {db : Contents} {s s' : State M ι}
  {i j : ι} {k : Key} {x : Call × Result}

/-! ## Clashes -/

/-- The call has looked at the key. -/
def Touches : Call × Result → Key → Prop
  | (.scan d table lo hi, .rows rows stopped), k => k.1 = table ∧ Covered d lo hi rows stopped k.2
  | (c, _), k => c.key? = some k

/-- The transaction has looked at the key. -/
def Txn.Reads {N : Type} (t : Txn N ι) (k : Key) : Prop := ∃ x ∈ t.calls, Touches x k

/-- A call that has not looked at a key says nothing about it. -/
lemma says_of_not_touches {k : Key} (hx : Formed x) (h : ¬ Touches x k) (v : Option Bytes) :
    Says x k v := by
  cases hx.shape with
  | get | put | insert | delete => exact fun hk => absurd (congrArg some hk.symm) h
  | scan => exact fun ht hcov => absurd ⟨ht, hcov⟩ h

instance (x : Call × Result) (k : Key) : Decidable (Touches x k) := by
  unfold Touches
  split <;> infer_instance

instance {N : Type} (t : Txn N ι) (k : Key) : Decidable (t.Reads k) := by
  unfold Txn.Reads
  infer_instance

lemma reads_of_written {N : Type} {t : Txn N ι} (h : k ∈ written t.calls) : t.Reads k := by
  obtain ⟨⟨c, r⟩, hx, hc⟩ := mem_filterMap.mp h
  refine ⟨_, hx, ?_⟩
  cases c with
  | put | insert | delete => exact hc
  | get | scan => cases hc

/-- One of two transactions writes a key that the other one has looked at. -/
def Clash {N : Type} (t t' : Txn N ι) : Prop :=
  (∃ k ∈ written t.calls, t'.Reads k) ∨ ∃ k ∈ written t'.calls, t.Reads k

instance {N : Type} (t t' : Txn N ι) : Decidable (Clash t t') := by
  unfold Clash
  infer_instance

/-- The transaction writes nothing and has no commit id. -/
def Txn.Silent {N : Type} (t : Txn N ι) : Prop := t.cid = none ∧ t.anyWrites = false

instance {N : Type} (t : Txn N ι) : Decidable t.Silent := by
  unfold Txn.Silent
  infer_instance

/-- The transaction has committed: it has passed its checks, and has its commit id unless it writes
nothing. -/
def Txn.Committed {N : Type} (t : Txn N ι) : Prop :=
  t.pc.decided ∧ (t.cid.isSome ∨ t.anyWrites = false)

instance {N : Type} (t : Txn N ι) : Decidable t.Committed := by
  unfold Txn.Committed
  infer_instance

/-- One after another in this order, the transactions that have committed would have been answered
as they were. -/
structure SerialOrder (db : Contents) (s : State M ι) (order : List ι) : Prop where
  nodup : order.Nodup
  mem : ∀ i, i ∈ order ↔ (s.txns i).Committed
  explains : Explains db (order.flatMap fun i => (s.txns i).calls)

/-- For every bound, the transactions whose commit ids are up to it come first in a serial order of
all. -/
def CutsSerially (db : Contents) (s : State M ι) : Prop :=
  ∀ w, ∃ l₁ l₂, SerialOrder db s (l₁ ++ l₂) ∧ (∀ i ∈ l₁, ∀ c ∈ (s.txns i).cid, c ≤ w) ∧
    ∀ i ∈ l₂, ∀ c ∈ (s.txns i).cid, w < c

section

variable [DecidableEq ι]

/-- `i` got its locks before `j`, and they clash. -/
def Precedes (s : State M ι) (i j : ι) : Prop :=
  i ∈ before s.order j ∧ Clash (s.txns i) (s.txns j)

instance (s : State M ι) (i j : ι) : Decidable (Precedes s i j) := by
  unfold Precedes
  infer_instance

/-- `i` precedes `j`, or both clash with a transaction between them that has no commit id. -/
def Leads (s : State M ι) (i j : ι) : Prop :=
  Precedes s i j ∨
    ∃ r, (s.txns r).Committed ∧ (s.txns r).Silent ∧ Precedes s i r ∧ Precedes s r j

instance [Fintype ι] (s : State M ι) (i j : ι) : Decidable (Leads s i j) := by
  unfold Leads
  infer_instance

/-- Commit ids follow the locks of transactions that clash. -/
def IdsFollow (s : State M ι) : Prop :=
  ∀ i j, (s.txns i).pc.decided → ¬ (s.txns i).Silent → (s.txns j).Committed → Leads s i j →
    ∃ c ∈ (s.txns i).cid, ∀ c' ∈ (s.txns j).cid, c < c'

instance [Fintype ι] (s : State M ι) : Decidable (IdsFollow s) := by
  unfold IdsFollow
  infer_instance

/-- The transaction belongs to the cut: its commit id does, or it has none and everybody it depends
on belongs to the cut. -/
def InCut (s : State M ι) (w : ℕ) (i : ι) : Prop :=
  (∃ c ∈ (s.txns i).cid, c ≤ w) ∨ (s.txns i).Silent ∧ ∀ a, (s.txns a).pc.decided →
    ¬ (s.txns a).Silent → Precedes s a i → ∃ c ∈ (s.txns a).cid, c ≤ w

open Classical in
noncomputable instance (s : State M ι) (w : ℕ) : DecidablePred (InCut s w) := inferInstance

lemma IdsFollow.inCut (h : IdsFollow s) (hi : (s.txns i).pc.decided) (hwi : ¬ (s.txns i).Silent)
    (hj : (s.txns j).Committed) (hij : Precedes s i j) (hcut : InCut s w j) : InCut s w i := by
  rcases hcut with ⟨c', hc', hle⟩ | ⟨-, hall⟩
  · obtain ⟨c, hc, hlt⟩ := h i j hi hwi hj (.inl hij)
    exact .inl ⟨c, hc, (hlt c' hc').le.trans hle⟩
  · exact .inl (hall i hi hwi hij)

lemma IdsFollow.inCut_of_precedes (h : IdsFollow s) (hi : (s.txns i).Committed)
    (hwi : ¬ (s.txns i).Silent) (hj : (s.txns j).Committed) (hji : Precedes s j i)
    (hcut : InCut s w i) : InCut s w j := by
  rcases hcut with ⟨c', hc', hle⟩ | ⟨hsilent, -⟩
  · by_cases hwj : (s.txns j).Silent
    · refine .inr ⟨hwj, fun a ha hwa haj => ?_⟩
      obtain ⟨c, hc, hlt⟩ := h a i ha hwa hi (.inr ⟨j, hj, hwj, haj, hji⟩)
      exact ⟨c, hc, (hlt c' hc').le.trans hle⟩
    · obtain ⟨c, hc, hlt⟩ := h j i hj.1 hwj hi (.inl hji)
      exact .inl ⟨c, hc, (hlt c' hc').le.trans hle⟩
  · exact absurd hsilent hwi

omit [DecidableEq ι] in
lemma Ok.not_silent (hok : Ok thread s) (hw : s.decidedWrites i k ≠ none) :
    (s.txns i).pc.decided ∧ ¬ (s.txns i).Silent ∧ k ∈ written (s.txns i).calls := by
  have hd : (s.txns i).pc.decided := by
    by_contra hd
    exact hw (if_neg hd)
  rw [decidedWrites, if_pos hd] at hw
  obtain ⟨v, hv⟩ := Option.ne_none_iff_exists'.mp hw
  obtain ⟨it, hit, hitw, -⟩ := ((hok.core i).linked.writes k v).mp hv
  refine ⟨hd, fun hsilent => ?_, mem_written_of_writeOf hw⟩
  have hany : (s.txns i).anyWrites = true := any_eq_true.mpr ⟨it, hit, hitw⟩
  rw [hsilent.2] at hany
  cases hany

/-! ## The serial order -/

/-- The transactions that have committed, those of the cut first, by the time at which they had all
their locks. -/
noncomputable def State.cutOrder (s : State M ι) (w : ℕ) : List ι :=
  cut (fun i => InCut s w i) (s.order.filter fun i => (s.txns i).Committed)

section

variable (h : Explained thread db s)

include h

lemma Explained.mem_cutOrder : i ∈ s.cutOrder w ↔ (s.txns i).Committed := by
  rw [cutOrder, mem_cut, mem_filter, decide_eq_true_eq]
  exact and_iff_right_of_imp fun hi => h.ordered.mem i (Pc.placed_of_decided hi.1)

lemma Explained.mem_before_cutOrder (hj : (s.txns j).Committed) : i ∈ before (s.cutOrder w) j ↔
    (s.txns i).Committed ∧ ((InCut s w i ∧ ¬ InCut s w j) ∨
      ((InCut s w i ↔ InCut s w j) ∧ i ∈ before s.order j)) := by
  have hmem := (h.mem_cutOrder (w := w)).mpr hj
  rw [cutOrder, mem_cut] at hmem
  rw [cutOrder, mem_before_cut hmem,
    before_filter (p := fun i => (s.txns i).Committed) (decide_eq_true hj), mem_filter, mem_filter]
  by_cases hi : (s.txns i).Committed
  · simp [hi, h.ordered.mem i (Pc.placed_of_decided hi.1)]
  · simp [hi]

variable (hf : IdsFollow s)

include hf

/-- Transactions that clash stay in the order of their locks. -/
lemma Explained.before_cutOrder (hi : (s.txns i).pc.decided) (hwi : ¬ (s.txns i).Silent)
    (hj : (s.txns j).Committed) (hij : Precedes s i j) : i ∈ before (s.cutOrder w) j := by
  obtain ⟨c, hc, -⟩ := hf i j hi hwi hj (.inl hij)
  refine (h.mem_before_cutOrder hj).mpr ⟨⟨hi, .inl (Option.isSome_of_mem hc)⟩, ?_⟩
  by_cases hcut : InCut s w j
  · exact .inr ⟨⟨fun _ => hcut, fun _ => hf.inCut hi hwi hj hij hcut⟩, hij.1⟩
  · by_cases hcut' : InCut s w i
    · exact .inl ⟨hcut', hcut⟩
    · exact .inr ⟨⟨fun hc => absurd hc hcut', fun hc => absurd hc hcut⟩, hij.1⟩

/-- Under a key that a transaction has looked at, the cut leaves what the locks leave. -/
lemma Explained.after_cutOrder (hj : (s.txns j).Committed) (hk : (s.txns j).Reads k) :
    after s.decidedWrites db (before s.order j) k =
      after s.decidedWrites db (before (s.cutOrder w) j) k := by
  have hord := h.ordered.nodup
  have hcut : (s.cutOrder w).Nodup := nodup_cut (hord.filter _)
  have hjo := h.ordered.mem j (Pc.placed_of_decided hj.1)
  have hkeep : ∀ {i j}, s.decidedWrites i k ≠ none → (s.txns j).Committed → (s.txns j).Reads k →
      i ∈ before s.order j → i ∈ before (s.cutOrder w) j := by
    intro i j hwi hj hk hij
    obtain ⟨hi, hwi, hki⟩ := h.ok.not_silent hwi
    exact h.before_cutOrder hf hi hwi hj ⟨hij, .inl ⟨k, hki, hk⟩⟩
  refine after_reorder (hord.sublist (takeWhile_sublist _)) (hcut.sublist (takeWhile_sublist _))
    (fun i hwi => ⟨hkeep hwi hj hk, fun hij => ?_⟩) fun i i' hwi hwi' hi' hii' => ?_
  · obtain ⟨hi, ⟨hin, hnot⟩ | ⟨-, hbefore⟩⟩ := (h.mem_before_cutOrder hj).mp hij
    · -- a writer behind `j` does not get in front of it
      obtain ⟨-, hsilent, hki⟩ := h.ok.not_silent hwi
      have hne : i ≠ j := by
        rintro rfl
        exact hnot hin
      have hio := h.ordered.mem i (Pc.placed_of_decided hi.1)
      refine (mem_before_or hord hio hjo hne).resolve_right fun hji => ?_
      exact hnot (hf.inCut_of_precedes hi hsilent hj ⟨hji, .inr ⟨k, hki, hk⟩⟩ hin)
    · exact hbefore
  · have hcut' := hkeep hwi' hj hk hi'
    rw [before_before hi'] at hii'
    rw [before_before hcut']
    exact hkeep hwi ((h.mem_before_cutOrder hj).mp hcut').1
      (reads_of_written (h.ok.not_silent hwi').2.2) hii'

lemma Explained.serialOrder (w : ℕ) : SerialOrder db s (s.cutOrder w) := by
  have hnodup : (s.cutOrder w).Nodup := nodup_cut (h.ordered.nodup.filter _)
  refine ⟨hnodup, fun i => h.mem_cutOrder, ?_⟩
  refine (explains_flatMap (fun i => (s.txns i).calls) hnodup fun j hj => ?_).1
  have hj := h.mem_cutOrder.mp hj
  refine explains_of_forall (h.ok.core j).calls fun x hx k => ?_
  have hsame : after (fun i => writeOf (s.txns i).calls) db (before (s.cutOrder w) j) k =
      after s.decidedWrites db (before (s.cutOrder w) j) k :=
    after_congr fun i hi => (if_pos ((h.mem_before_cutOrder hj).mp hi).1.1).symm
  rw [hsame]
  by_cases hk : Touches x k
  · rw [← h.after_cutOrder hf hj ⟨x, hx, hk⟩]
    rcases h.ordered.answered j (Pc.placed_of_decided hj.1) x hx k with hall | ⟨-, hP⟩ | ⟨hund, -⟩
    · exact hall _
    · exact hP
    · rw [hj.1] at hund
      cases hund
  · exact says_of_not_touches ((h.ok.core j).calls.formed x hx) hk _

lemma Explained.cuts : CutsSerially db s := by
  intro w
  refine ⟨_, _, h.serialOrder hf w, fun i hi c hc => ?_, fun i hi c hc => ?_⟩
  · rcases of_decide_eq_true (mem_filter.mp hi).2 with ⟨c', hc', hle⟩ | ⟨hsilent, -⟩
    · cases hc.symm.trans hc'
      exact hle
    · cases hsilent.1.symm.trans hc
  · have hnot := (mem_filter.mp hi).2
    rw [Bool.not_eq_true', decide_eq_false_iff_not] at hnot
    by_contra hle
    exact hnot (.inl ⟨c, hc, not_lt.mp hle⟩)

end

end

/-! ## Runs -/

section

variable [DecidableEq ι] {σ : Store M ι}

omit [DecidableEq ι] in
/-- When all transactions are over, those that have committed are the ones that say so. -/
lemma State.Finished.isCommitted_iff (hs : s.Finished) (hids : IdsOk s) (i : ι) :
    (s.txns i).Committed ↔ (s.txns i).pc = .committed := by
  rw [Txn.Committed, hs.committed_iff]
  refine and_iff_left_of_imp fun hpc => ?_
  have hn := (hids i).numbered
  rw [hpc] at hn
  exact hn

end

/-- A table with two rows. -/
def twoRows : Store oneLeaf Bool := oneRow.load (1, [98]) [1]

lemma twoRows_wellFormed : twoRows.WellFormed := oneRow_wellFormed.load (by decide) [1]

/-- One transaction reads the first row and changes the second one. When it has checked the first
row, another one changes that row. -/
def readAndOverwrite : List (Act Bool) :=
  [.start false, .call false (.get (1, [97])), .go false, .go false,
    .call false (.put (1, [98]) [2]), .go false, .go false, .commit false] ++
    List.replicate 4 (.go false) ++
    [.start true, .call true (.put (1, [97]) [3]), .go true, .go true, .commit true] ++
    List.replicate 6 (.go true)

/-- The one that has read the row draws its commit id first. -/
def readerDrawsFirst : List (Act Bool) :=
  readAndOverwrite ++ List.replicate 5 (.go false) ++ [.draw false 1, .draw true 2] ++
    List.replicate 3 (.go false) ++ List.replicate 2 (.go true)

/-- The one that has changed the row draws its commit id first. -/
def overwriterDrawsFirst : List (Act Bool) :=
  readAndOverwrite ++ [.draw true 1] ++ List.replicate 2 (.go true) ++
    List.replicate 5 (.go false) ++ [.draw false 2] ++ List.replicate 3 (.go false)

end Rolis.Sto.Occ
