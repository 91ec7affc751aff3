import Mathlib.Data.List.Forall2
import Mathlib.Order.Lattice

/-!
# Ordered maps as association lists

The iteration order and the overwriting insertion of an ordered map: entries are kept by
increasing key, and inserting at a present key replaces its value.
-/

namespace OrdMap

open List

variable {κ β : Type*} [LinearOrder κ] {m es : List (κ × β)} {k j : κ} {v : β} {e : κ × β}

/-- Insert at `k`, replacing the value `k` has. -/
def insert (k : κ) (v : β) : List (κ × β) → List (κ × β)
  | [] => [(k, v)]
  | (k', v') :: m =>
    if k < k' then (k, v) :: (k', v') :: m
    else if k = k' then (k, v) :: m
    else (k', v') :: insert k v m

/-- Insert the entries of a list, later ones replacing earlier ones. -/
def insertAll (es : List (κ × β)) (m : List (κ × β)) : List (κ × β) :=
  es.foldl (fun m e => insert e.1 e.2 m) m

@[simp] lemma insertAll_nil (m : List (κ × β)) : insertAll [] m = m := rfl

@[simp] lemma insertAll_cons (e : κ × β) (es m : List (κ × β)) :
    insertAll (e :: es) m = insertAll es (insert e.1 e.2 m) := rfl

/-- The keys after an insertion. -/
lemma mem_keys_insert : j ∈ (insert k v m).map Prod.fst ↔ j = k ∨ j ∈ m.map Prod.fst := by
  induction m with
  | nil => simp [insert]
  | cons e m ih =>
    obtain ⟨k', v'⟩ := e
    simp only [insert]
    split
    · simp
    · split
      · next heq => subst heq; simp
      · simp only [map_cons, mem_cons, ih]
        tauto

/-- An entry after an insertion is the inserted one or an old one. -/
lemma mem_of_mem_insert (h : e ∈ insert k v m) : e = (k, v) ∨ e ∈ m := by
  induction m with
  | nil => simpa [insert] using h
  | cons e' m ih =>
    obtain ⟨k', v'⟩ := e'
    simp only [insert] at h
    split at h
    · simpa using h
    · split at h
      · rcases mem_cons.mp h with h | h
        · exact .inl h
        · exact .inr (mem_cons_of_mem _ h)
      · rcases mem_cons.mp h with h | h
        · exact .inr (h ▸ mem_cons_self ..)
        · exact (ih h).imp_right (mem_cons_of_mem _)

lemma mem_keys_insertAll :
    j ∈ (insertAll es m).map Prod.fst ↔ j ∈ es.map Prod.fst ∨ j ∈ m.map Prod.fst := by
  induction es generalizing m with
  | nil => simp
  | cons e es ih =>
    rw [insertAll_cons, ih, mem_keys_insert, map_cons, mem_cons]
    tauto

lemma mem_of_mem_insertAll (h : e ∈ insertAll es m) : e ∈ es ∨ e ∈ m := by
  induction es generalizing m with
  | nil => exact .inr h
  | cons e' es ih =>
    rw [insertAll_cons] at h
    rcases ih h with h | h
    · exact .inl (mem_cons_of_mem _ h)
    · rcases mem_of_mem_insert h with h | h
      · exact .inl (h ▸ mem_cons_self ..)
      · exact .inr h

/-! ## Lookup and removal -/

/-- The value at `k`. -/
def lookup (k : κ) : List (κ × β) → Option β
  | [] => none
  | (k', v') :: m => if k = k' then some v' else lookup k m

/-- Remove the entry at `k`. -/
def erase (k : κ) (m : List (κ × β)) : List (κ × β) := m.filter fun e => e.1 ≠ k

lemma lookup_insert (k j : κ) (v : β) (m : List (κ × β)) :
    lookup j (insert k v m) = if j = k then some v else lookup j m := by
  induction m with
  | nil => rfl
  | cons e m ih =>
    obtain ⟨k', v'⟩ := e
    simp only [insert]
    split
    · rfl
    · split
      · next heq =>
        subst heq
        simp only [lookup]
        split <;> rfl
      · next hne =>
        simp only [lookup, ih]
        by_cases hj : j = k'
        · have hjk : j ≠ k := fun h => hne (h ▸ hj)
          rw [if_pos hj, if_neg hjk, if_pos hj]
        · rw [if_neg hj, if_neg hj]

lemma lookup_erase (k j : κ) (m : List (κ × β)) :
    lookup j (erase k m) = if j = k then none else lookup j m := by
  induction m with
  | nil => simp [erase, lookup]
  | cons e m ih =>
    obtain ⟨k', v'⟩ := e
    unfold erase at ih ⊢
    by_cases hk : k' = k
    · rw [filter_cons_of_neg (by simpa using hk), ih]
      by_cases hj : j = k
      · rw [if_pos hj, if_pos hj]
      · have hjk : j ≠ k' := fun h => hj (h.trans hk)
        rw [if_neg hj, if_neg hj, lookup, if_neg hjk]
    · rw [filter_cons_of_pos (by simpa using hk), lookup, ih]
      by_cases hj : j = k
      · have hjk : j ≠ k' := fun h => hk (h.symm.trans hj)
        rw [if_pos hj, if_neg hjk]
        simp [hj]
      · rw [if_neg hj]
        simp [lookup, hj]

/-- The keys increase. -/
def Sorted (m : List (κ × β)) : Prop := m.Pairwise fun e e' => e.1 < e'.1

lemma Sorted.erase (h : Sorted m) (k : κ) : Sorted (erase k m) :=
  h.filter _

lemma Sorted.insert (h : Sorted m) (k : κ) (v : β) : Sorted (insert k v m) := by
  induction m with
  | nil => exact pairwise_singleton _ _
  | cons e m ih =>
    obtain ⟨k', v'⟩ := e
    obtain ⟨hhead, htail⟩ := pairwise_cons.mp h
    simp only [OrdMap.insert]
    split
    · next hlt =>
      refine pairwise_cons.mpr ⟨fun e he => ?_, h⟩
      rcases mem_cons.mp he with rfl | he
      · exact hlt
      · exact hlt.trans (hhead e he)
    · next hnlt =>
      split
      · next heq => exact pairwise_cons.mpr ⟨fun e he => heq ▸ hhead e he, htail⟩
      · next hne =>
        refine pairwise_cons.mpr ⟨fun e he => ?_, ih htail⟩
        rcases mem_of_mem_insert he with rfl | he
        · exact lt_of_le_of_ne (not_lt.mp hnlt) (Ne.symm hne)
        · exact hhead e he

lemma Sorted.insertAll (h : Sorted m) (es : List (κ × β)) : Sorted (insertAll es m) := by
  induction es generalizing m with
  | nil => exact h
  | cons e es ih => exact ih (h.insert e.1 e.2)

/-- The entries of a sorted map are what `lookup` finds. -/
lemma Sorted.mem_iff (h : Sorted m) : (k, v) ∈ m ↔ lookup k m = some v := by
  induction m with
  | nil => simp [lookup]
  | cons e m ih =>
    obtain ⟨k', v'⟩ := e
    obtain ⟨hhead, htail⟩ := pairwise_cons.mp h
    rw [mem_cons, lookup]
    by_cases hk : k = k'
    · subst hk
      rw [if_pos rfl, Option.some.injEq, Prod.mk.injEq]
      constructor
      · rintro (⟨-, rfl⟩ | hmem)
        · rfl
        · exact absurd (hhead _ hmem) (lt_irrefl k)
      · rintro rfl
        exact .inl ⟨rfl, rfl⟩
    · rw [if_neg hk, ← ih htail]
      simp [hk]

/-- Behind its head a sorted map has only larger keys. -/
lemma Sorted.lookup_tail (h : Sorted ((k, v) :: m)) (hj : j ≤ k) : lookup j m = none := by
  obtain ⟨hhead, htail⟩ := pairwise_cons.mp h
  cases hlook : lookup j m with
  | none => rfl
  | some v' =>
    have hmem : (j, v') ∈ m := (Sorted.mem_iff htail).mpr hlook
    exact absurd (hhead _ hmem) (not_lt.mpr hj)

/-- Two sorted maps with related values under the same keys have related entries in the same
order. -/
lemma Sorted.forall₂ {γ : Type*} {R : β → γ → Prop} {m' : List (κ × γ)} (h : Sorted m)
    (h' : Sorted m') (hrel : ∀ k, Option.Rel R (lookup k m) (lookup k m')) :
    List.Forall₂ (fun e e' => e.1 = e'.1 ∧ R e.2 e'.2) m m' := by
  induction m generalizing m' with
  | nil =>
    cases m' with
    | nil => exact .nil
    | cons e' m' =>
      have hk := hrel e'.1
      rw [lookup, lookup, if_pos rfl] at hk
      cases hk
  | cons e m ih =>
    obtain ⟨k, v⟩ := e
    cases m' with
    | nil =>
      have hk := hrel k
      rw [lookup, lookup, if_pos rfl] at hk
      cases hk
    | cons e' m' =>
      obtain ⟨k', v'⟩ := e'
      -- the smaller of the two heads would be missing on the other side
      have hkk : k = k' := by
        rcases lt_trichotomy k k' with hlt | heq | hgt
        · have hk := hrel k
          rw [lookup, lookup, if_pos rfl, if_neg hlt.ne, h'.lookup_tail hlt.le] at hk
          cases hk
        · exact heq
        · have hk := hrel k'
          rw [lookup, lookup, if_pos rfl, if_neg hgt.ne, h.lookup_tail hgt.le] at hk
          cases hk
      subst hkk
      have hhead : R v v' := by
        have hk := hrel k
        rw [lookup, lookup, if_pos rfl, if_pos rfl] at hk
        cases hk
        assumption
      refine .cons ⟨rfl, hhead⟩ (ih (pairwise_cons.mp h).2 (pairwise_cons.mp h').2 ?_)
      intro j
      by_cases hj : j = k
      · rw [hj, h.lookup_tail le_rfl, h'.lookup_tail le_rfl]
        exact .none
      · have hk := hrel j
        rwa [lookup, lookup, if_neg hj, if_neg hj] at hk

end OrdMap
