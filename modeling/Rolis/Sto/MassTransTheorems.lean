import Rolis.Sto.MassTrans

/-!
# The tables of a process

What the operations on the memory do to the elements that the tables reach, and `Mem.Quiet`, which
holds between transactions: the trees are in key order, no element is under two keys, and all of
them are valid.
-/

namespace Rolis.Sto

open Function List Option Mem

/-! ## Sizes -/

lemma le_pad (v : ℕ) : v ≤ pad v := by
  unfold pad
  split
  · omega
  · -- smearing the bits to the right only sets bits
    have hsmear : ∀ n k : ℕ, n ≤ n ||| n >>> k := fun n k => Nat.left_le_or
    have hle := (hsmear (v - 1) 1).trans ((hsmear _ 2).trans ((hsmear _ 4).trans
      ((hsmear _ 8).trans (hsmear _ 16))))
    dsimp only
    omega

lemma le_capacityFor (len : ℕ) : len ≤ capacityFor len := by
  have hle := le_pad (len + headerSize)
  unfold capacityFor sizeFor
  omega

/-! ## Memory -/

namespace Mem

variable {m m' : Mem} {table table' e e' : ℕ} {key key' : Bytes} {x : Elem}

@[simp] lemma find_set (m : Mem) (e : ℕ) (x : Elem) : (m.set e x).find = m.find := rfl

@[simp] lemma heap_set (m : Mem) (e : ℕ) (x : Elem) : (m.set e x).heap = update m.heap e x := rfl

@[simp] lemma next_set (m : Mem) (e : ℕ) (x : Elem) : (m.set e x).next = m.next := rfl

@[simp] lemma heap_alloc (m : Mem) (table : ℕ) (key : Bytes) (x : Elem) :
    (m.alloc table key x).heap = update m.heap m.next x := rfl

@[simp] lemma next_alloc (m : Mem) (table : ℕ) (key : Bytes) (x : Elem) :
    (m.alloc table key x).next = m.next + 1 := rfl

lemma find_alloc (m : Mem) (table : ℕ) (key : Bytes) (x : Elem) (table' : ℕ) (key' : Bytes) :
    (m.alloc table key x).find table' key' =
      if table' = table ∧ key' = key then some m.next else m.find table' key' := by
  simp only [find, alloc, link, set]
  by_cases ht : table' = table
  · subst ht
    rw [update_self, OrdMap.lookup_insert]
    simp
  · rw [update_of_ne ht, if_neg fun h => ht h.1]

lemma find_alloc_self (m : Mem) (table : ℕ) (key : Bytes) (x : Elem) :
    (m.alloc table key x).find table key = some m.next := by
  rw [find_alloc, if_pos ⟨rfl, rfl⟩]

lemma find_alloc_of_ne (h : ¬ (table' = table ∧ key' = key)) :
    (m.alloc table key x).find table' key' = m.find table' key' := by
  rw [find_alloc, if_neg h]

/-- Removing a key that is there succeeds. -/
lemma exists_remove (h : m.find table key = some e) : ∃ m', m.remove table key = some m' := by
  rw [remove, h]
  exact ⟨_, rfl⟩

section

variable (h : m.remove table key = some m')

include h

lemma heap_remove : m'.heap = m.heap := by
  obtain ⟨e, -, rfl⟩ := map_eq_some_iff.mp h
  rfl

lemma next_remove : m'.next = m.next := by
  obtain ⟨e, -, rfl⟩ := map_eq_some_iff.mp h
  rfl

lemma find_remove (table' : ℕ) (key' : Bytes) :
    m'.find table' key' = if table' = table ∧ key' = key then none else m.find table' key' := by
  obtain ⟨e, -, rfl⟩ := map_eq_some_iff.mp h
  simp only [find]
  by_cases ht : table' = table
  · subst ht
    rw [update_self, OrdMap.lookup_erase]
    simp
  · rw [update_of_ne ht, if_neg fun h => ht h.1]

end

/-- What the tables reach: trees in key order, and no element under two keys. -/
structure WellFormed (m : Mem) : Prop where
  sorted : ∀ table, OrdMap.Sorted (m.tree table)
  lt_next : ∀ {table key e}, m.find table key = some e → e < m.next
  inj : ∀ {table key table' key' e}, m.find table key = some e → m.find table' key' = some e →
    table' = table ∧ key' = key

lemma WellFormed.set (h : m.WellFormed) (e : ℕ) (x : Elem) : (m.set e x).WellFormed :=
  ⟨h.sorted, h.lt_next, h.inj⟩

lemma WellFormed.alloc (h : m.WellFormed) (table : ℕ) (key : Bytes) (x : Elem) :
    (m.alloc table key x).WellFormed where
  sorted table' := by
    simp only [Mem.alloc, Mem.link]
    by_cases ht : table' = table
    · subst ht
      rw [update_self]
      exact (h.sorted table').insert _ _
    · rw [update_of_ne ht]
      exact h.sorted table'
  lt_next {table' key' e} hfind := by
    rw [find_alloc] at hfind
    rw [next_alloc]
    split at hfind
    · cases hfind
      exact Nat.lt_succ_self _
    · exact Nat.lt_succ_of_lt (h.lt_next hfind)
  inj {t k t' k' e} hfind hfind' := by
    -- the new address is above every address in use
    rw [find_alloc] at hfind hfind'
    split at hfind <;> split at hfind'
    · next h₁ h₂ => exact ⟨h₂.1.trans h₁.1.symm, h₂.2.trans h₁.2.symm⟩
    · cases hfind
      exact absurd (h.lt_next hfind') (Nat.lt_irrefl _)
    · cases hfind'
      exact absurd (h.lt_next hfind) (Nat.lt_irrefl _)
    · exact h.inj hfind hfind'

lemma WellFormed.remove (h : m.WellFormed) (hrem : m.remove table key = some m') :
    m'.WellFormed where
  sorted table' := by
    obtain ⟨e, -, rfl⟩ := map_eq_some_iff.mp hrem
    by_cases ht : table' = table
    · subst ht
      simpa only [update_self] using (h.sorted table').erase key
    · simpa only [update_of_ne ht] using h.sorted table'
  lt_next hfind := by
    rw [find_remove hrem] at hfind
    split at hfind
    · cases hfind
    · exact next_remove hrem ▸ h.lt_next hfind
  inj hfind hfind' := by
    rw [find_remove hrem] at hfind hfind'
    split at hfind
    · cases hfind
    · split at hfind'
      · cases hfind'
      · exact h.inj hfind hfind'

/-- The value that a transaction which starts now finds under a key. -/
def committed (m : Mem) (table : ℕ) (key : Bytes) : Option Bytes :=
  (m.find table key).bind fun e =>
    if (m.heap e).version.invalid then none else some (m.heap e).value

lemma committed_of_find (h : m.find table key = some e)
    (hvalid : (m.heap e).version.invalid = false) :
    m.committed table key = some (m.heap e).value := by
  rw [committed, h, bind_some, hvalid]
  rfl

lemma committed_of_find_none (h : m.find table key = none) : m.committed table key = none := by
  rw [committed, h]
  rfl

/-- The value under a key depends on the element of the key only. -/
lemma committed_congr (hfind : m'.find table key = m.find table key)
    (hheap : ∀ e, m.find table key = some e → m'.heap e = m.heap e) :
    m'.committed table key = m.committed table key := by
  rw [committed, committed, hfind]
  cases h : m.find table key with
  | none => rfl
  | some e => rw [bind_some, bind_some, hheap e h]

/-- The memory between transactions: every element that a table reaches is valid. -/
structure Quiet (m : Mem) : Prop extends m.WellFormed where
  valid : ∀ {table key e}, m.find table key = some e → (m.heap e).version.invalid = false

/-- Nothing is stored yet. -/
lemma quiet_empty : Quiet {} := ⟨⟨fun _ => List.Pairwise.nil, nofun, nofun⟩, nofun⟩

end Mem

end Rolis.Sto
