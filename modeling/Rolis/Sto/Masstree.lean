import Rolis.Lib.Bytes
import Rolis.Lib.OrdMap

/-!
# What the transactions use of Masstree

`Masstree` is an ordered map as the cursors of Masstree show it. Every key, whether it is there or
not, has a leaf, and a leaf has a version that grows with every key which is inserted into it or
removed from it. An insert may split the leaf; then some of its keys move to new nodes. Replacing a
value changes neither leaves nor versions.

A scan goes through the leaves in key order, forward or backward. One visit takes the keys of one
leaf from the position of the scan on, and answers the position behind the leaf. It misses no key,
but it may pass leaves that are empty: the root of a lower layer stays when its last key is removed,
and `find_retry` and `find_next` of a scan go on without `visit_leaf`.

`oneLeaf` is a map of this kind, with a single leaf, and `twoLayers` one with a leaf that scans pass
when it is empty.
-/

namespace Rolis.Sto

/-! ## Positions of a scan -/

/-- `scan` and `rscan`. -/
inductive Dir
  | forward
  | backward
deriving DecidableEq, Repr

namespace Dir

/-- `a` comes before `b`, or is `b`. -/
def Le (d : Dir) (a b : Bytes) : Prop :=
  match d with
  | forward => a ≤ b
  | backward => b ≤ a

/-- `a` comes before `b`. -/
def Lt (d : Dir) (a b : Bytes) : Prop :=
  match d with
  | forward => a < b
  | backward => b < a

instance (d : Dir) (a b : Bytes) : Decidable (d.Le a b) :=
  match d with
  | forward => inferInstanceAs (Decidable (a ≤ b))
  | backward => inferInstanceAs (Decidable (b ≤ a))

instance (d : Dir) (a b : Bytes) : Decidable (d.Lt a b) :=
  match d with
  | forward => inferInstanceAs (Decidable (a < b))
  | backward => inferInstanceAs (Decidable (b < a))

variable {d : Dir} {a b c : Bytes}

lemma Le.trans (h : d.Le a b) (h' : d.Le b c) : d.Le a c := by
  cases d
  · exact (show a ≤ b from h).trans h'
  · exact (show c ≤ b from h').trans h

lemma Lt.trans_le (h : d.Lt a b) (h' : d.Le b c) : d.Lt a c := by
  cases d
  · exact (show a < b from h).trans_le h'
  · exact (show c ≤ b from h').trans_lt h

lemma Lt.le (h : d.Lt a b) : d.Le a b := by
  cases d
  · exact (show a < b from h).le
  · exact (show b < a from h).le

lemma Lt.ne (h : d.Lt a b) : a ≠ b := by
  cases d
  · exact (show a < b from h).ne
  · exact (show b < a from h).ne'

lemma not_le_iff : ¬ d.Le a b ↔ d.Lt b a := by
  cases d <;> exact not_le

lemma not_lt_iff : ¬ d.Lt a b ↔ d.Le b a := by
  cases d <;> exact not_lt

end Dir

/-- A position of a scan: the keys from `pos` on in the direction `dir` are still to be visited,
without `pos` itself if `strict`. -/
structure Cursor where
  dir : Dir
  pos : Bytes
  strict : Bool
deriving DecidableEq, Repr

namespace Cursor

/-- The key is still to be visited. -/
def Ahead (c : Cursor) (b : Bytes) : Prop :=
  if c.strict then c.dir.Lt c.pos b else c.dir.Le c.pos b

instance (c : Cursor) (b : Bytes) : Decidable (c.Ahead b) := by
  unfold Ahead; infer_instance

variable {c : Cursor} {a b : Bytes}

/-- What comes behind a key that is ahead is ahead. -/
lemma Ahead.mono (h : c.Ahead a) (hab : c.dir.Le a b) : c.Ahead b := by
  unfold Ahead at h ⊢
  split at h
  · next hs => rw [if_pos hs]; exact h.trans_le hab
  · next hs => rw [if_neg hs]; exact h.trans hab

/-- Everything that is ahead comes behind everything that is not. -/
lemma lt_of_ahead (ha : ¬ c.Ahead a) (hb : c.Ahead b) : c.dir.Lt a b := by
  by_contra hlt
  exact ha (hb.mono (Dir.not_lt_iff.mp hlt))

end Cursor

/-! ## The map -/

/-- The interface of Masstree. -/
structure Masstree where
  Tree : Type
  Node : Type
  decEq : DecidableEq Node
  /-- `find_unlocked`, `find_locked`. -/
  find : Tree → Bytes → Option ℕ
  /-- `node()` of a cursor at a key. -/
  leaf : Tree → Bytes → Node
  /-- `full_version_value()`. -/
  version : Tree → Node → ℕ
  /-- `find_insert` of a key that is not there, with `finish(1)`. -/
  insert : Tree → Bytes → ℕ → Tree
  /-- `new_nodes()` of that cursor. -/
  newNodes : Tree → Bytes → List Node
  /-- `find_locked` with `finish(-1)`. -/
  remove : Tree → Bytes → Tree
  /-- `find_locked` with a new `value()` and `finish(0)`. -/
  replace : Tree → Bytes → ℕ → Tree
  /-- The leaf at the position of a scan, `visit_leaf`. -/
  scanNode : Tree → Cursor → Node
  /-- The keys of that leaf from the position on, `visit_value`. -/
  rows : Tree → Cursor → List (Bytes × ℕ)
  /-- The position behind that leaf, if it is not the last one. -/
  next : Tree → Cursor → Option Cursor
  find_insert : ∀ t k e k', find (insert t k e) k' = if k' = k then some e else find t k'
  find_remove : ∀ t k k', find (remove t k) k' = if k' = k then none else find t k'
  find_replace : ∀ t k e k', (find t k).isSome →
    find (replace t k e) k' = if k' = k then some e else find t k'
  version_le_insert : ∀ t k e n, version t n ≤ version (insert t k e) n
  version_lt_insert : ∀ t k e, find t k = none →
    version t (leaf t k) < version (insert t k e) (leaf t k)
  leaf_insert : ∀ t k e k', leaf t k' ≠ leaf t k → leaf (insert t k e) k' = leaf t k'
  leaf_insert_self : ∀ t k e k', leaf t k' = leaf t k →
    leaf (insert t k e) k' = leaf t k ∨ leaf (insert t k e) k' ∈ newNodes t k
  version_le_remove : ∀ t k n, version t n ≤ version (remove t k) n
  version_lt_remove : ∀ t k, (find t k).isSome →
    version t (leaf t k) < version (remove t k) (leaf t k)
  leaf_remove : ∀ t k k', leaf t k' ≠ leaf t k → leaf (remove t k) k' = leaf t k'
  version_replace : ∀ t k e n, version (replace t k e) n = version t n
  leaf_replace : ∀ t k e k', leaf (replace t k e) k' = leaf t k'
  dir_next : ∀ t c, ∀ c' ∈ next t c, c'.dir = c.dir
  ahead_of_next : ∀ t c, ∀ c' ∈ next t c, ∀ k, c'.Ahead k → c.Ahead k
  mem_rows : ∀ t c k e, (k, e) ∈ rows t c ↔
    c.Ahead k ∧ (∀ c' ∈ next t c, ¬ c'.Ahead k) ∧ find t k = some e
  sorted_rows : ∀ t c, (rows t c).Pairwise fun x y => c.dir.Lt x.1 y.1

instance (M : Masstree) : DecidableEq M.Node := M.decEq

/-! ## A map with one leaf -/

/-- Entries by increasing key, and the number of inserts and removals so far. -/
structure OneLeaf where
  entries : List (Bytes × ℕ)
  version : ℕ
  sorted : OrdMap.Sorted entries

namespace OneLeaf

/-- The entries in the order of a scan. -/
def inOrder (t : OneLeaf) : Dir → List (Bytes × ℕ)
  | .forward => t.entries
  | .backward => t.entries.reverse

lemma mem_inOrder (t : OneLeaf) (d : Dir) {x : Bytes × ℕ} : x ∈ t.inOrder d ↔ x ∈ t.entries := by
  cases d
  · rfl
  · exact List.mem_reverse

lemma sorted_inOrder (t : OneLeaf) (d : Dir) : (t.inOrder d).Pairwise fun x y => d.Lt x.1 y.1 := by
  cases d
  · exact t.sorted
  · exact List.pairwise_reverse.mpr t.sorted

end OneLeaf

/-- Ordered maps with one leaf. -/
def oneLeaf : Masstree where
  Tree := OneLeaf
  Node := Unit
  decEq := inferInstance
  find t k := OrdMap.lookup k t.entries
  leaf _ _ := ()
  version t _ := t.version
  insert t k e := ⟨OrdMap.insert k e t.entries, t.version + 1, t.sorted.insert k e⟩
  newNodes _ _ := []
  remove t k := ⟨OrdMap.erase k t.entries, t.version + 1, t.sorted.erase k⟩
  replace t k e := ⟨OrdMap.insert k e t.entries, t.version, t.sorted.insert k e⟩
  scanNode _ _ := ()
  rows t c := (t.inOrder c.dir).filter fun x => c.Ahead x.1
  next _ _ := none
  find_insert t k e k' := by convert OrdMap.lookup_insert k k' e t.entries
  find_remove t k k' := by convert OrdMap.lookup_erase k k' t.entries
  find_replace t k e k' _ := by convert OrdMap.lookup_insert k k' e t.entries
  version_le_insert _ _ _ _ := Nat.le_succ _
  version_lt_insert _ _ _ _ := Nat.lt_succ_self _
  leaf_insert _ _ _ _ h := absurd rfl h
  leaf_insert_self _ _ _ _ _ := .inl rfl
  version_le_remove _ _ _ := Nat.le_succ _
  version_lt_remove _ _ _ := Nat.lt_succ_self _
  leaf_remove _ _ _ h := absurd rfl h
  version_replace _ _ _ _ := rfl
  leaf_replace _ _ _ _ := rfl
  dir_next _ _ := by rintro _ ⟨⟩
  ahead_of_next _ _ := by rintro _ ⟨⟩
  mem_rows t c k e := by
    rw [List.mem_filter, t.mem_inOrder, t.sorted.mem_iff]
    simp [and_comm]
  sorted_rows t c := (t.sorted_inOrder c.dir).filter _

/-! ## A map with two layers -/

/-- A map and the versions of its two leaves. -/
structure TwoLayers extends OneLeaf where
  versions : Bool → ℕ

namespace TwoLayers

/-- The keys that are longer than `A` and start with it are in a layer of their own. -/
def lower (k : Bytes) : Bool := [65] < k ∧ k < [66]

/-- The keys around the lower layer, in the order of a scan. -/
def bounds : Dir → Bytes × Bytes
  | .forward => ([65], [66])
  | .backward => ([66], [65])

/-- A scan enters the lower layer and comes back from it, unless nothing is there. -/
def next (t : TwoLayers) (c : Cursor) : Option Cursor :=
  if t.entries.all fun x => !lower x.1 then none
  else if c.Ahead (bounds c.dir).1 then some ⟨c.dir, (bounds c.dir).1, true⟩
  else if c.Ahead (bounds c.dir).2 then some ⟨c.dir, (bounds c.dir).2, false⟩
  else none

/-- The version of the leaf of a key grows. -/
def touch (t : TwoLayers) (k : Bytes) : Bool → ℕ :=
  Function.update t.versions (lower k) (t.versions (lower k) + 1)

lemma le_touch (t : TwoLayers) (k : Bytes) (n : Bool) : t.versions n ≤ t.touch k n := by
  by_cases hn : n = lower k
  · simp [touch, hn]
  · simp [touch, hn]

lemma lt_touch (t : TwoLayers) (k : Bytes) : t.versions (lower k) < t.touch k (lower k) := by
  simp [touch]

lemma next_cases {t : TwoLayers} {c c' : Cursor} (h : c' ∈ t.next c) :
    c'.dir = c.dir ∧ ∀ k, c'.Ahead k → c.Ahead k := by
  rw [next] at h
  split at h
  · cases h
  · split at h
    · next hfirst =>
      cases h
      exact ⟨rfl, fun k hk => hfirst.mono (Dir.Lt.le hk)⟩
    · split at h
      · next hlast =>
        cases h
        exact ⟨rfl, fun k hk => hlast.mono hk⟩
      · cases h

end TwoLayers

/-- Ordered maps with a lower layer. -/
def twoLayers : Masstree where
  Tree := TwoLayers
  Node := Bool
  decEq := inferInstance
  find t k := OrdMap.lookup k t.entries
  leaf _ k := TwoLayers.lower k
  version t n := t.versions n
  insert t k e := ⟨oneLeaf.insert t.toOneLeaf k e, t.touch k⟩
  newNodes _ _ := []
  remove t k := ⟨oneLeaf.remove t.toOneLeaf k, t.touch k⟩
  replace t k e := ⟨oneLeaf.replace t.toOneLeaf k e, t.versions⟩
  -- from inside the lower layer the scan is ahead of its end only
  scanNode t c := (t.next c).any fun c' => !c'.strict
  rows t c := (t.inOrder c.dir).filter fun x => c.Ahead x.1 ∧ ∀ c' ∈ t.next c, ¬ c'.Ahead x.1
  next t c := t.next c
  find_insert t := oneLeaf.find_insert t.toOneLeaf
  find_remove t := oneLeaf.find_remove t.toOneLeaf
  find_replace t := oneLeaf.find_replace t.toOneLeaf
  version_le_insert t k _ n := t.le_touch k n
  version_lt_insert t k _ _ := t.lt_touch k
  leaf_insert _ _ _ _ _ := rfl
  leaf_insert_self _ _ _ _ h := .inl h
  version_le_remove t k n := t.le_touch k n
  version_lt_remove t k _ := t.lt_touch k
  leaf_remove _ _ _ _ := rfl
  version_replace _ _ _ _ := rfl
  leaf_replace _ _ _ _ := rfl
  dir_next _ _ _ h := (TwoLayers.next_cases h).1
  ahead_of_next _ _ _ h := (TwoLayers.next_cases h).2
  mem_rows t c k e := by
    rw [List.mem_filter, t.mem_inOrder, t.sorted.mem_iff, decide_eq_true_eq, and_comm, and_assoc]
  sorted_rows t c := (t.sorted_inOrder c.dir).filter _

end Rolis.Sto
