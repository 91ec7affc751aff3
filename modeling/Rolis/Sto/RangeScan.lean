import Rolis.Sto.Masstree

/-!
# Range scans

Masstree keeps its keys in layers. A layer is a list of leaves over one slice of eight bytes of the
key, kept as a big-endian integer; an entry of a leaf is a key that ends here or that has a suffix
of its own, or a lower layer for the keys with this slice.

`transQuery` and `transRQuery` hand a `range_scanner` to the scan of Masstree. The scanner compares
a key with the end of the range only if `boundary_compar_` is set. `visit_leaf` sets it when the
leaf may have a key at or behind the end of the range, which it reads off the prefix of the layer
and the last slice of the leaf. With `READ_MY_WRITES` at 0, as the makefile has it, every key that
passes goes to the callback.
-/

namespace Rolis.Sto.Range

open List

/-! ## Slices -/

/-- `string_slice::make_comparable`: the first `n` bytes as a big-endian integer, with zeros behind
a shorter string. -/
def makeComparable : ℕ → Bytes → ℕ
  | 0, _ => 0
  | _ + 1, [] => 0
  | n + 1, c :: s => c.toNat * 256 ^ n + makeComparable n s

variable {n : ℕ} {a b c d : Bytes}

lemma makeComparable_lt (n : ℕ) (s : Bytes) : makeComparable n s < 256 ^ n := by
  induction n generalizing s with
  | zero => exact Nat.one_pos
  | succ n ih =>
    cases s with
    | nil => exact Nat.pow_pos (by decide)
    | cons c s =>
      have hs := ih s
      have hmul := Nat.mul_le_mul_right (256 ^ n) (show c.toNat + 1 ≤ 256 from c.toNat_lt)
      rw [Nat.succ_mul] at hmul
      rw [makeComparable, pow_succ']
      omega

/-- Slices compare their first bytes first. -/
lemma lt_or_eq_of_makeComparable_le {x y : UInt8}
    (h : makeComparable (n + 1) (x :: a) ≤ makeComparable (n + 1) (y :: b)) : x < y ∨ x = y := by
  by_contra hxy
  rw [← le_iff_lt_or_eq, not_le] at hxy
  have hb := makeComparable_lt n b
  have hmul := Nat.mul_le_mul_right (256 ^ n) (show y.toNat + 1 ≤ x.toNat from hxy)
  rw [Nat.succ_mul] at hmul
  rw [makeComparable, makeComparable] at h
  omega

/-- A smaller slice is a smaller string. -/
lemma lt_of_makeComparable_lt (h : makeComparable n a < makeComparable n b) : a < b := by
  induction n generalizing a b with
  | zero => exact absurd h (lt_irrefl 0)
  | succ n ih =>
    cases b with
    | nil => exact absurd h (Nat.not_lt_zero _)
    | cons y b =>
      cases a with
      | nil => exact nil_lt_cons y b
      | cons x a =>
        rcases lt_or_eq_of_makeComparable_le h.le with hxy | rfl
        · exact cons_lt_cons_iff.mpr (.inl hxy)
        · rw [makeComparable, makeComparable] at h
          exact cons_lt_cons_iff.mpr (.inr ⟨rfl, ih (by omega)⟩)

/-- A string that fits into the slice is below the longer strings with the same slice. -/
lemma lt_of_makeComparable_eq (h : makeComparable n a = makeComparable n b) (ha : a.length ≤ n)
    (hlen : a.length < b.length) : a < b := by
  induction n generalizing a b with
  | zero =>
    rw [length_eq_zero_iff.mp (Nat.le_zero.mp ha)] at hlen ⊢
    obtain ⟨y, b, rfl⟩ := exists_cons_of_length_pos hlen
    exact nil_lt_cons y b
  | succ n ih =>
    cases b with
    | nil => exact absurd hlen (Nat.not_lt_zero _)
    | cons y b =>
      cases a with
      | nil => exact nil_lt_cons y b
      | cons x a =>
        rcases lt_or_eq_of_makeComparable_le h.le with hxy | rfl
        · exact cons_lt_cons_iff.mpr (.inl hxy)
        · rw [makeComparable, makeComparable] at h
          refine cons_lt_cons_iff.mpr (.inr ⟨rfl, ih (by omega) ?_ ?_⟩)
          · exact Nat.le_of_succ_le_succ ha
          · exact Nat.lt_of_succ_lt_succ hlen

/-- Bytes behind the slice do not count. -/
lemma makeComparable_append (h : a.length = n) (b : Bytes) :
    makeComparable n (a ++ b) = makeComparable n a := by
  induction a generalizing n with
  | nil => rw [← h]; rfl
  | cons x a ih =>
    obtain rfl : n = a.length + 1 := h.symm
    rw [cons_append, makeComparable, makeComparable, ih rfl]

lemma append_lt_append_left (a : Bytes) (h : b < c) : a ++ b < a ++ c := by
  induction a with
  | nil => exact h
  | cons x a ih => exact cons_lt_cons_iff.mpr (.inr ⟨rfl, ih⟩)

/-- Strings of one length decide the order of what begins with them. -/
lemma append_lt_append (hlen : a.length = b.length) (h : a < b) (c d : Bytes) :
    a ++ c < b ++ d := by
  induction a generalizing b with
  | nil =>
    rw [length_eq_zero_iff.mp hlen.symm] at h
    exact absurd h (lt_irrefl _)
  | cons x a ih =>
    obtain ⟨y, b, rfl⟩ := exists_cons_of_length_eq_add_one hlen.symm
    rcases cons_lt_cons_iff.mp h with hxy | ⟨rfl, hab⟩
    · exact cons_lt_cons_iff.mpr (.inl hxy)
    · exact cons_lt_cons_iff.mpr (.inr ⟨rfl, ih (Nat.succ.inj hlen) hab⟩)

/-! ## Layers -/

/- A layer is the list of its leaves, a leaf the list of its entries. `stale` is the slice that the
storage of an empty leaf still holds. -/
mutual

/-- The leaves of a layer from one on. -/
inductive Leaves
  | nil
  | cons (stale : ℕ) (entries : Entries) (next : Leaves)

/-- The entries of a leaf from one on: a key with the bytes `rest` from this layer on, or the
lower layer of a slice. -/
inductive Entries
  | nil
  | value (rest : Bytes) (next : Entries)
  | layer (slice : Bytes) (lower : Leaves) (next : Entries)

end

mutual

/-- The keys under the leaves of a layer with the prefix `pre`. -/
def Leaves.keys (pre : Bytes) : Leaves → List Bytes
  | .nil => []
  | .cons _ entries next => entries.keys pre ++ next.keys pre

/-- The keys under the entries of a leaf. -/
def Entries.keys (pre : Bytes) : Entries → List Bytes
  | .nil => []
  | .value rest next => (pre ++ rest) :: next.keys pre
  | .layer slice lower next => lower.keys (pre ++ slice) ++ next.keys pre

end

/-- Induction over leaves and entries together. -/
lemma layers_induction {P : Leaves → Prop} {Q : Entries → Prop} (nil : P .nil)
    (cons : ∀ stale entries next, Q entries → P next → P (.cons stale entries next))
    (nil' : Q .nil) (value : ∀ rest next, Q next → Q (.value rest next))
    (layer : ∀ slice lower next, P lower → Q next → Q (.layer slice lower next)) :
    (∀ leaves, P leaves) ∧ ∀ entries, Q entries :=
  ⟨fun leaves => leaves.rec nil cons nil' value layer,
    fun entries => entries.rec nil cons nil' value layer⟩

/-- Induction over the entries of a leaf. -/
lemma entries_induction {motive : Entries → Prop} (nil : motive .nil)
    (value : ∀ rest next, motive next → motive (.value rest next))
    (layer : ∀ slice lower next, motive next → motive (.layer slice lower next))
    (entries : Entries) : motive entries :=
  (layers_induction (P := fun _ => True) trivial (fun _ _ _ _ _ => trivial) nil value
    fun slice lower next _ => layer slice lower next).2 entries

/-- The slices of the entries of a leaf with their lengths; nine stands for a suffix or a lower
layer. -/
def Entries.marks : Entries → List (ℕ × ℕ)
  | .nil => []
  | .value rest next => (makeComparable 8 rest, min rest.length 9) :: next.marks
  | .layer slice _ next => (makeComparable 8 slice, 9) :: next.marks

/-- The slices of a layer. -/
def Leaves.marks : Leaves → List (ℕ × ℕ)
  | .nil => []
  | .cons _ entries next => entries.marks ++ next.marks

/-- The order of the entries of a layer. -/
def Before (m m' : ℕ × ℕ) : Prop := m.1 < m'.1 ∨ m.1 = m'.1 ∧ m.2 < m'.2

mutual

/-- The lower layers belong to slices of eight bytes, keep their entries in order, and have no entry
for the empty string. -/
def Leaves.Ok : Leaves → Prop
  | .nil => True
  | .cons _ entries next => entries.Ok ∧ next.Ok

/-- The same for the entries of a leaf. -/
def Entries.Ok : Entries → Prop
  | .nil => True
  | .value _ next => next.Ok
  | .layer slice lower next =>
    (slice.length = 8 ∧ lower.marks.Pairwise Before ∧ ∀ m ∈ lower.marks, 0 < m.2) ∧
      lower.Ok ∧ next.Ok

end

/-- A tree of layers. -/
structure LayeredTree where
  leaves : Leaves
  ordered : leaves.marks.Pairwise Before
  ok : leaves.Ok

/-- The stored keys. -/
def LayeredTree.keys (t : LayeredTree) : List Bytes := t.leaves.keys []

/-! ## The order of the keys -/

/-- The key belongs to an entry with this slice and length. -/
def Under (pre : Bytes) (m : ℕ × ℕ) (k : Bytes) : Prop :=
  ∃ rest, k = pre ++ rest ∧ makeComparable 8 rest = m.1 ∧ min rest.length 9 = m.2

variable {pre k k' : Bytes} {m m' : ℕ × ℕ}

lemma Under.lt (h : Under pre m k) (h' : Under pre m' k') (hm : Before m m') : k < k' := by
  obtain ⟨rest, rfl, hslice, hlen⟩ := h
  obtain ⟨rest', rfl, hslice', hlen'⟩ := h'
  refine append_lt_append_left pre ?_
  rcases hm with hm | ⟨heq, hm⟩
  · rw [← hslice, ← hslice'] at hm
    exact lt_of_makeComparable_lt hm
  · rw [← hslice, ← hslice'] at heq
    exact lt_of_makeComparable_eq heq (by omega) (by omega)

/-- A key of a lower layer belongs to the entry of its slice. -/
lemma Under.layer {slice : Bytes} (h : Under (pre ++ slice) m k) (hslice : slice.length = 8)
    (hm : 0 < m.2) : Under pre (makeComparable 8 slice, 9) k := by
  obtain ⟨rest, rfl, -, hlen⟩ := h
  refine ⟨slice ++ rest, append_assoc .., makeComparable_append hslice rest, ?_⟩
  rw [length_append, hslice]
  omega

lemma exists_under :
    (∀ l : Leaves, l.Ok → ∀ {pre k}, k ∈ l.keys pre → ∃ m ∈ l.marks, Under pre m k) ∧
      ∀ es : Entries, es.Ok → ∀ {pre k}, k ∈ es.keys pre → ∃ m ∈ es.marks, Under pre m k := by
  refine layers_induction ?_ ?_ ?_ ?_ ?_
  · intro _ pre k h
    rw [Leaves.keys] at h
    cases h
  · intro stale es next hes hnext hok pre k h
    rw [Leaves.Ok] at hok
    rw [Leaves.keys, mem_append] at h
    rw [Leaves.marks]
    rcases h with h | h
    · obtain ⟨m, hm, hunder⟩ := hes hok.1 h
      exact ⟨m, mem_append_left _ hm, hunder⟩
    · obtain ⟨m, hm, hunder⟩ := hnext hok.2 h
      exact ⟨m, mem_append_right _ hm, hunder⟩
  · intro _ pre k h
    rw [Entries.keys] at h
    cases h
  · intro rest next hnext hok pre k h
    rw [Entries.Ok] at hok
    rw [Entries.keys, mem_cons] at h
    rw [Entries.marks]
    rcases h with rfl | h
    · exact ⟨_, mem_cons_self, rest, rfl, rfl, rfl⟩
    · obtain ⟨m, hm, hunder⟩ := hnext hok h
      exact ⟨m, mem_cons_of_mem _ hm, hunder⟩
  · intro slice lower next hlower hnext hok pre k h
    rw [Entries.Ok] at hok
    obtain ⟨⟨hslice, -, hpos⟩, hlowerOk, hnextOk⟩ := hok
    rw [Entries.keys, mem_append] at h
    rw [Entries.marks]
    rcases h with h | h
    · obtain ⟨m, hm, hunder⟩ := hlower hlowerOk h
      exact ⟨_, mem_cons_self, hunder.layer hslice (hpos m hm)⟩
    · obtain ⟨m, hm, hunder⟩ := hnext hnextOk h
      exact ⟨m, mem_cons_of_mem _ hm, hunder⟩

/-- Layers whose entries are in order have their keys in order. -/
lemma keys_pairwise :
    (∀ l : Leaves, l.Ok → l.marks.Pairwise Before → ∀ pre, (l.keys pre).Pairwise (· < ·)) ∧
      ∀ es : Entries, es.Ok → es.marks.Pairwise Before → ∀ pre, (es.keys pre).Pairwise (· < ·) := by
  refine layers_induction ?_ ?_ ?_ ?_ ?_
  · intro _ _ pre
    rw [Leaves.keys]
    exact List.Pairwise.nil
  · intro stale es next hes hnext hok hmarks pre
    rw [Leaves.Ok] at hok
    rw [Leaves.marks, pairwise_append] at hmarks
    rw [Leaves.keys, pairwise_append]
    refine ⟨hes hok.1 hmarks.1 pre, hnext hok.2 hmarks.2.1 pre, fun k hk k' hk' => ?_⟩
    obtain ⟨m, hm, hunder⟩ := exists_under.2 es hok.1 hk
    obtain ⟨m', hm', hunder'⟩ := exists_under.1 next hok.2 hk'
    exact hunder.lt hunder' (hmarks.2.2 m hm m' hm')
  · intro _ _ pre
    rw [Entries.keys]
    exact List.Pairwise.nil
  · intro rest next hnext hok hmarks pre
    rw [Entries.Ok] at hok
    rw [Entries.marks, pairwise_cons] at hmarks
    rw [Entries.keys, pairwise_cons]
    refine ⟨fun k hk => ?_, hnext hok hmarks.2 pre⟩
    obtain ⟨m, hm, hunder⟩ := exists_under.2 next hok hk
    exact Under.lt ⟨rest, rfl, rfl, rfl⟩ hunder (hmarks.1 m hm)
  · intro slice lower next hlower hnext hok hmarks pre
    rw [Entries.Ok] at hok
    obtain ⟨⟨hslice, hlowerMarks, hpos⟩, hlowerOk, hnextOk⟩ := hok
    rw [Entries.marks, pairwise_cons] at hmarks
    rw [Entries.keys, pairwise_append]
    refine ⟨hlower hlowerOk hlowerMarks _, hnext hnextOk hmarks.2 pre, fun k hk k' hk' => ?_⟩
    obtain ⟨m, hm, hunder⟩ := exists_under.1 lower hlowerOk hk
    obtain ⟨m', hm', hunder'⟩ := exists_under.2 next hnextOk hk'
    exact (hunder.layer hslice (hpos m hm)).lt hunder' (hmarks.1 m' hm')

lemma LayeredTree.keys_sorted (t : LayeredTree) : t.keys.Pairwise (· < ·) :=
  keys_pairwise.1 t.leaves t.ok t.ordered []

/-! ## Leaves -/

/-- A leaf. -/
structure LeafNode where
  stale : ℕ
  entries : Entries

mutual

/-- The leaves of a layer and of the layers below, with their prefixes. -/
def Leaves.nodes (pre : Bytes) : Leaves → List (LeafNode × Bytes)
  | .nil => []
  | .cons stale entries next => (⟨stale, entries⟩, pre) :: (entries.nodes pre ++ next.nodes pre)

/-- The leaves below the entries of a leaf. -/
def Entries.nodes (pre : Bytes) : Entries → List (LeafNode × Bytes)
  | .nil => []
  | .value _ next => next.nodes pre
  | .layer slice lower next => lower.nodes (pre ++ slice) ++ next.nodes pre

end

/-- The keys that end in a leaf. -/
def Entries.own (pre : Bytes) : Entries → List Bytes
  | .nil => []
  | .value rest next => (pre ++ rest) :: next.own pre
  | .layer _ _ next => next.own pre

/-- The last slice of a leaf, `ikey0_[permutation()[size() - 1]]`. -/
def Entries.lastIkey (stale : ℕ) : Entries → ℕ
  | .nil => stale
  | .value rest next => next.lastIkey (makeComparable 8 rest)
  | .layer slice _ next => next.lastIkey (makeComparable 8 slice)

/-- A key that ends in a leaf has the prefix of the layer and one of the slices of the leaf. -/
lemma exists_of_mem_own {es : Entries} (h : k ∈ es.own pre) :
    ∃ rest, k = pre ++ rest ∧ ∃ m ∈ es.marks, m.1 = makeComparable 8 rest := by
  induction es using entries_induction with
  | nil => cases h
  | value rest next ih =>
    rw [Entries.own, mem_cons] at h
    rw [Entries.marks]
    rcases h with rfl | h
    · exact ⟨rest, rfl, _, mem_cons_self, rfl⟩
    · obtain ⟨rest', hk, m, hm, hslice⟩ := ih h
      exact ⟨rest', hk, m, mem_cons_of_mem _ hm, hslice⟩
  | layer slice lower next ih =>
    obtain ⟨rest', hk, m, hm, hslice⟩ := ih h
    exact ⟨rest', hk, m, mem_cons_of_mem _ hm, hslice⟩

/-- The slices of a leaf with at least one entry end with the last one. -/
lemma lastIkey_eq (es : Entries) (stale : ℕ) :
    es.lastIkey stale = (es.marks.map Prod.fst).getLastD stale := by
  induction es using entries_induction generalizing stale with
  | nil => rfl
  | value rest next ih | layer slice lower next ih =>
    rw [Entries.lastIkey, ih, Entries.marks, map_cons, getLastD_cons]

lemma le_getLastD {l : List ℕ} (h : l.Pairwise (· ≤ ·)) {x : ℕ} (hx : x ∈ l) (e : ℕ) :
    x ≤ l.getLastD e := by
  induction l generalizing e with
  | nil => cases hx
  | cons y l ih =>
    obtain ⟨hy, hl⟩ := pairwise_cons.mp h
    rw [getLastD_cons]
    rcases mem_cons.mp hx with rfl | hx
    · rcases eq_nil_or_concat' l with rfl | ⟨l', z, rfl⟩
      · exact le_rfl
      · rw [getLastD_concat]
        exact hy z (mem_append_right _ mem_cons_self)
    · exact ih hl hx y

/-- The last slice of a leaf is the largest one. -/
lemma le_lastIkey {es : Entries} (h : es.marks.Pairwise Before) (hm : m ∈ es.marks)
    (stale : ℕ) : m.1 ≤ es.lastIkey stale := by
  rw [lastIkey_eq]
  refine le_getLastD (pairwise_map.mpr (h.imp ?_)) (mem_map_of_mem hm) stale
  rintro m m' (hlt | ⟨heq, -⟩)
  · exact hlt.le
  · exact heq.le

/-- Every leaf of a tree keeps its entries in order. -/
lemma marks_pairwise_of_mem_nodes :
    (∀ l : Leaves, l.Ok → l.marks.Pairwise Before → ∀ pre node p, (node, p) ∈ l.nodes pre →
        node.entries.marks.Pairwise Before) ∧
      ∀ es : Entries, es.Ok → ∀ pre node p, (node, p) ∈ es.nodes pre →
        node.entries.marks.Pairwise Before := by
  refine layers_induction ?_ ?_ ?_ ?_ ?_
  · intro _ _ pre node p h
    rw [Leaves.nodes] at h
    cases h
  · intro stale es next hes hnext hok hmarks pre node p h
    rw [Leaves.Ok] at hok
    rw [Leaves.marks, pairwise_append] at hmarks
    rw [Leaves.nodes, mem_cons, mem_append] at h
    rcases h with h | h | h
    · cases h
      exact hmarks.1
    · exact hes hok.1 pre node p h
    · exact hnext hok.2 hmarks.2.1 pre node p h
  · intro _ pre node p h
    rw [Entries.nodes] at h
    cases h
  · intro rest next hnext hok pre node p h
    rw [Entries.Ok] at hok
    rw [Entries.nodes] at h
    exact hnext hok pre node p h
  · intro slice lower next hlower hnext hok pre node p h
    rw [Entries.Ok] at hok
    obtain ⟨⟨-, hlowerMarks, -⟩, hlowerOk, hnextOk⟩ := hok
    rw [Entries.nodes, mem_append] at h
    rcases h with h | h
    · exact hlower hlowerOk hlowerMarks _ node p h
    · exact hnext hnextOk pre node p h

/-! ## The scanner -/

/-- What a scan of Masstree calls: `visit_leaf` with a leaf and the prefix of its layer, and
`visit_value` with a key. -/
inductive Event
  | visitLeaf (node : LeafNode) (pre : Bytes)
  | visitValue (key : Bytes)

/-- `range_scanner::check`: the new value of `boundary_compar_`. -/
def check (dir : Dir) (boundary : Bytes) (node : LeafNode) (pre : Bytes) (compar : Bool) : Bool :=
  let len := min boundary.length pre.length
  let b := boundary.take len
  let p := pre.take len
  match dir with
  | .forward =>
    if b < p ∨ b = p ∧ boundary.length ≤ pre.length then true
    else if b = p then
      makeComparable 8 (boundary.drop pre.length) ≤ node.entries.lastIkey node.stale
    else compar
  | .backward => if p ≤ b then true else compar

/-- `range_scanner::visit_leaf` and `visit_value` on the calls of a scan, which ends when
`visit_value` answers false. The result is the keys on which the callback is called. -/
def rangeScan (dir : Dir) (boundary : Bytes) (callback : Bytes → Bool) :
    Bool → List Event → List Bytes
  | _, [] => []
  | compar, .visitLeaf node pre :: es =>
    rangeScan dir boundary callback
      (if boundary ≠ [] then check dir boundary node pre compar else compar) es
  | compar, .visitValue k :: es =>
    if compar ∧ dir.Le boundary k then []
    else k :: if callback k then rangeScan dir boundary callback compar es else []

/-- `transQuery`, given the calls of the scan. -/
def transQuery (stop : Bytes) (callback : Bytes → Bool) (es : List Event) : List Bytes :=
  rangeScan .forward stop callback false es

/-- `transRQuery`, given the calls of the scan. -/
def transRQuery (stop : Bytes) (callback : Bytes → Bool) (es : List Event) : List Bytes :=
  rangeScan .backward stop callback false es

/-! ## What Masstree calls -/

/-- The keys of the calls of `visit_value`. -/
def values : List Event → List Bytes
  | [] => []
  | .visitLeaf _ _ :: es => values es
  | .visitValue k :: es => k :: values es

/-- The leaf of the last call of `visit_leaf`. -/
def lastLeaf (cur : Option (LeafNode × Bytes)) : List Event → Option (LeafNode × Bytes)
  | [] => cur
  | .visitLeaf node pre :: es => lastLeaf (some (node, pre)) es
  | .visitValue _ :: es => lastLeaf cur es

/-- `visit_leaf` is called for leaves, and the last leaf before a value is the one it ends in. -/
def Guided (nodes : List (LeafNode × Bytes)) (cur : Option (LeafNode × Bytes)) :
    List Event → Prop
  | [] => True
  | .visitLeaf node pre :: es => (node, pre) ∈ nodes ∧ Guided nodes (some (node, pre)) es
  | .visitValue k :: es =>
    (∃ node pre, cur = some (node, pre) ∧ k ∈ node.entries.own pre) ∧ Guided nodes cur es

/-- The order in which a scan comes to the keys. -/
def order {α : Type} (dir : Dir) (l : List α) : List α :=
  match dir with
  | .forward => l
  | .backward => l.reverse

/-- The calls of a scan that begins at `start`: the keys from there on in order, each under its
leaf. -/
structure LayeredTree.Scans (t : LayeredTree) (dir : Dir) (start : Bytes) (es : List Event) :
    Prop where
  guided : Guided (t.leaves.nodes []) none es
  values : values es = (order dir t.keys).filter fun k => dir.Le start k

/-! ## The scanner stops at the end of the range -/

variable {dir : Dir} {boundary : Bytes} {node : LeafNode} {compar : Bool}

/-- If the beginnings of one length differ, they decide. -/
lemma lt_of_take_lt {len : ℕ} (ha : len ≤ a.length) (hb : len ≤ b.length)
    (h : a.take len < b.take len) (c d : Bytes) : a ++ c < b ++ d := by
  have hlen : (a.take len).length = (b.take len).length := by
    rw [length_take_of_le ha, length_take_of_le hb]
  have hlt := append_lt_append hlen h (a.drop len ++ c) (b.drop len ++ d)
  rwa [← append_assoc, ← append_assoc, take_append_drop, take_append_drop] at hlt

/-- After `visit_leaf`, the scanner compares or the keys of the leaf are inside the range. -/
lemma lt_of_check_eq_false (hnode : node.entries.marks.Pairwise Before)
    (hk : k ∈ node.entries.own pre) (h : check dir boundary node pre compar = false) :
    dir.Lt k boundary := by
  obtain ⟨rest, rfl, m, hm, hslice⟩ := exists_of_mem_own hk
  have hlast := le_lastIkey hnode hm node.stale
  have hlenB : min boundary.length pre.length ≤ boundary.length := min_le_left _ _
  have hlenP : min boundary.length pre.length ≤ pre.length := min_le_right _ _
  cases dir with
  | forward =>
    simp only [check] at h
    split_ifs at h with hbefore heq
    · -- the end of the range goes on with a slice above those of the leaf
      rw [not_or, not_and, not_le] at hbefore
      have hlen := hbefore.2 heq
      rw [min_eq_right hlen.le, take_length] at heq
      have hrest := lt_of_makeComparable_lt (lt_of_le_of_lt (hslice ▸ hlast)
        (not_le.mp (of_decide_eq_false h)))
      have hboundary : pre ++ boundary.drop pre.length = boundary := by
        conv_rhs => rw [← take_append_drop pre.length boundary, heq]
      exact hboundary ▸ append_lt_append_left pre hrest
    · rw [not_or] at hbefore
      have hlt := lt_of_le_of_ne (not_lt.mp hbefore.1) (Ne.symm heq)
      have hkey := lt_of_take_lt hlenP hlenB hlt rest []
      rwa [append_nil] at hkey
  | backward =>
    simp only [check] at h
    split_ifs at h with hbehind
    have hkey := lt_of_take_lt hlenB hlenP (not_le.mp hbehind) [] rest
    rwa [append_nil] at hkey

/-- Under a leaf the scanner compares, or the keys of the leaf are inside the range. -/
def Exact (dir : Dir) (boundary : Bytes) (compar : Bool) (cur : Option (LeafNode × Bytes)) : Prop :=
  compar = false → ∀ node pre, cur = some (node, pre) → ∀ k ∈ node.entries.own pre,
    dir.Lt k boundary

/-- The callback is called on the keys inside the range. -/
lemma rangeScan_eq_filter {nodes : List (LeafNode × Bytes)}
    (hnodes : ∀ node pre, (node, pre) ∈ nodes → node.entries.marks.Pairwise Before)
    (hboundary : boundary ≠ []) {callback : Bytes → Bool} (hcall : ∀ k, callback k = true)
    {es : List Event} {cur : Option (LeafNode × Bytes)} (hguided : Guided nodes cur es)
    (hsorted : (values es).Pairwise dir.Lt) (hexact : Exact dir boundary compar cur) :
    rangeScan dir boundary callback compar es = (values es).filter fun k => dir.Lt k boundary := by
  induction es generalizing compar cur with
  | nil => rfl
  | cons e es ih =>
    cases e with
    | visitLeaf node pre =>
      rw [rangeScan, if_pos hboundary, values]
      refine ih hguided.2 hsorted ?_
      rintro hcompar _ _ ⟨⟩ k hk
      exact lt_of_check_eq_false (hnodes node pre hguided.1) hk hcompar
    | visitValue k =>
      obtain ⟨⟨node, pre, rfl, hown⟩, hguided⟩ := hguided
      obtain ⟨hbehind, hsorted⟩ := pairwise_cons.mp hsorted
      rw [rangeScan, values]
      by_cases hstop : dir.Le boundary k
      · -- the scanner compares, and the keys behind are outside as well
        have hcompar : compar = true := by
          by_contra hne
          exact Dir.not_lt_iff.mpr hstop (hexact (Bool.eq_false_iff.mpr hne) node pre rfl k hown)
        have hout : ∀ k' ∈ k :: values es, ¬dir.Lt k' boundary := by
          intro k' hk'
          rw [Dir.not_lt_iff]
          rcases mem_cons.mp hk' with rfl | hk'
          · exact hstop
          · exact hstop.trans (hbehind k' hk').le
        rw [if_pos ⟨hcompar, hstop⟩, eq_comm, filter_eq_nil_iff]
        intro k' hk' hin
        exact hout k' hk' (of_decide_eq_true hin)
      · have htail := ih hguided hsorted hexact
        have hin : dir.Lt k boundary := Dir.not_le_iff.mp hstop
        rw [if_neg fun h => hstop h.2, htail, hcall, if_pos rfl, filter_cons_of_pos (by simp [hin])]

/-! ## A scan exists -/

/-- First `a`, then `b` in the direction of the scan. -/
def inTurn {α : Type} (dir : Dir) (a b : List α) : List α :=
  match dir with
  | .forward => a ++ b
  | .backward => b ++ a

mutual

/-- The calls of a scan of a layer. -/
def Leaves.walk (dir : Dir) (pre : Bytes) : Leaves → List Event
  | .nil => []
  | .cons stale entries next =>
    inTurn dir (.visitLeaf ⟨stale, entries⟩ pre :: entries.walk dir ⟨stale, entries⟩ pre)
      (next.walk dir pre)

/-- The calls of a scan of a leaf; it comes back to the leaf from every lower layer. -/
def Entries.walk (dir : Dir) (node : LeafNode) (pre : Bytes) : Entries → List Event
  | .nil => []
  | .value rest next => inTurn dir [.visitValue (pre ++ rest)] (next.walk dir node pre)
  | .layer slice lower next =>
    inTurn dir (lower.walk dir (pre ++ slice) ++ [.visitLeaf node pre]) (next.walk dir node pre)

end

/-- A call for a leaf, or for a key from `start` on. -/
def Event.From (dir : Dir) (start : Bytes) : Event → Bool
  | .visitLeaf _ _ => true
  | .visitValue k => dir.Le start k

variable {nodes : List (LeafNode × Bytes)} {cur : Option (LeafNode × Bytes)} {es es' : List Event}

lemma order_append {α : Type} (dir : Dir) (a b : List α) :
    order dir (a ++ b) = inTurn dir (order dir a) (order dir b) := by
  cases dir with
  | forward => rfl
  | backward => exact reverse_append

lemma order_cons {α : Type} (dir : Dir) (a : α) (l : List α) :
    order dir (a :: l) = inTurn dir [a] (order dir l) := by
  cases dir with
  | forward => rfl
  | backward => exact reverse_cons

lemma values_append (es es' : List Event) : values (es ++ es') = values es ++ values es' := by
  induction es with
  | nil => rfl
  | cons e es ih =>
    cases e with
    | visitLeaf node pre => exact ih
    | visitValue k => exact congrArg (k :: ·) ih

lemma values_inTurn (dir : Dir) (es es' : List Event) :
    values (inTurn dir es es') = inTurn dir (values es) (values es') := by
  cases dir with
  | forward => exact values_append es es'
  | backward => exact values_append es' es

lemma values_walk (dir : Dir) :
    (∀ l : Leaves, ∀ pre, values (l.walk dir pre) = order dir (l.keys pre)) ∧
      ∀ es : Entries, ∀ node pre, values (es.walk dir node pre) = order dir (es.keys pre) := by
  have hnil {α : Type} : ([] : List α) = order dir [] := by cases dir <;> rfl
  refine layers_induction ?_ ?_ ?_ ?_ ?_
  · intro pre
    rw [Leaves.walk, Leaves.keys]
    exact hnil
  · intro stale es next hes hnext pre
    rw [Leaves.walk, Leaves.keys, order_append, values_inTurn, hnext, values, hes]
  · intro node pre
    rw [Entries.walk, Entries.keys]
    exact hnil
  · intro rest next hnext node pre
    rw [Entries.walk, Entries.keys, order_cons, values_inTurn, hnext, values, values]
  · intro slice lower next hlower hnext node pre
    rw [Entries.walk, Entries.keys, order_append, values_inTurn, hnext, values_append, hlower,
      values, values, append_nil]

lemma guided_append :
    Guided nodes cur (es ++ es') ↔ Guided nodes cur es ∧ Guided nodes (lastLeaf cur es) es' := by
  induction es generalizing cur with
  | nil => exact (and_iff_right trivial).symm
  | cons e es ih =>
    cases e with
    | visitLeaf node pre | visitValue k =>
      rw [cons_append, Guided, ih, Guided, lastLeaf, and_assoc]

lemma lastLeaf_append : lastLeaf cur (es ++ es') = lastLeaf (lastLeaf cur es) es' := by
  induction es generalizing cur with
  | nil => rfl
  | cons e es ih => cases e <;> exact ih

/-- Calls that begin and end under one leaf. -/
def Stays (nodes : List (LeafNode × Bytes)) (leaf : LeafNode × Bytes) (es : List Event) : Prop :=
  Guided nodes (some leaf) es ∧ lastLeaf (some leaf) es = some leaf

lemma Stays.append {leaf : LeafNode × Bytes} (h : Stays nodes leaf es)
    (h' : Stays nodes leaf es') : Stays nodes leaf (es ++ es') := by
  refine ⟨guided_append.mpr ⟨h.1, ?_⟩, ?_⟩
  · rw [h.2]
    exact h'.1
  · rw [lastLeaf_append, h.2, h'.2]

lemma Stays.inTurn {leaf : LeafNode × Bytes} (h : Stays nodes leaf es)
    (h' : Stays nodes leaf es') : Stays nodes leaf (inTurn dir es es') := by
  cases dir with
  | forward => exact h.append h'
  | backward => exact h'.append h

/-- A scan calls `visit_leaf` as it should. -/
lemma guided_walk (dir : Dir) (nodes : List (LeafNode × Bytes)) :
    (∀ l : Leaves, ∀ pre, l.nodes pre ⊆ nodes → ∀ cur, Guided nodes cur (l.walk dir pre)) ∧
      ∀ es : Entries, ∀ node pre, (node, pre) ∈ nodes → es.nodes pre ⊆ nodes →
        es.own pre ⊆ node.entries.own pre → Stays nodes (node, pre) (es.walk dir node pre) := by
  refine layers_induction ?_ ?_ ?_ ?_ ?_
  · intro pre _ cur
    rw [Leaves.walk]
    trivial
  · intro stale es next hes hnext pre hsub cur
    rw [Leaves.nodes, cons_subset, append_subset] at hsub
    obtain ⟨hnode, hesSub, hnextSub⟩ := hsub
    have hleaf := hes ⟨stale, es⟩ pre hnode hesSub (List.Subset.refl _)
    rw [Leaves.walk]
    cases dir with
    | forward => exact guided_append.mpr ⟨⟨hnode, hleaf.1⟩, hnext pre hnextSub _⟩
    | backward => exact guided_append.mpr ⟨hnext pre hnextSub _, hnode, hleaf.1⟩
  · intro node pre _ _ _
    rw [Entries.walk]
    exact ⟨trivial, rfl⟩
  · intro rest next hnext node pre hnode hsub hown
    rw [Entries.nodes] at hsub
    rw [Entries.own, cons_subset] at hown
    rw [Entries.walk]
    have hvalue : Stays nodes (node, pre) [.visitValue (pre ++ rest)] :=
      ⟨⟨⟨node, pre, rfl, hown.1⟩, trivial⟩, rfl⟩
    exact hvalue.inTurn (hnext node pre hnode hsub hown.2)
  · intro slice lower next hlower hnext node pre hnode hsub hown
    rw [Entries.nodes, append_subset] at hsub
    rw [Entries.own] at hown
    rw [Entries.walk]
    have hlayer :
        Stays nodes (node, pre) (lower.walk dir (pre ++ slice) ++ [.visitLeaf node pre]) := by
      refine ⟨guided_append.mpr ⟨hlower _ hsub.1 _, hnode, trivial⟩, ?_⟩
      rw [lastLeaf_append]
      rfl
    exact hlayer.inTurn (hnext node pre hnode hsub.2 hown)

lemma Guided.filter (h : Guided nodes cur es) (start : Bytes) :
    Guided nodes cur (es.filter (Event.From dir start)) := by
  induction es generalizing cur with
  | nil => trivial
  | cons e es ih =>
    cases e with
    | visitLeaf node pre =>
      rw [filter_cons_of_pos rfl]
      exact ⟨h.1, ih h.2⟩
    | visitValue k =>
      rw [filter_cons]
      split
      · exact ⟨h.1, ih h.2⟩
      · exact ih h.2

lemma values_filter (dir : Dir) (start : Bytes) (es : List Event) :
    values (es.filter (Event.From dir start)) = (values es).filter fun k => dir.Le start k := by
  induction es with
  | nil => rfl
  | cons e es ih =>
    cases e with
    | visitLeaf node pre =>
      rw [filter_cons_of_pos rfl]
      exact ih
    | visitValue k =>
      by_cases hk : dir.Le start k
      · rw [filter_cons_of_pos (by simp [Event.From, hk]), values, values, ih,
          filter_cons_of_pos (by simp [hk])]
      · rw [filter_cons_of_neg (by simp [Event.From, hk]), values, ih,
          filter_cons_of_neg (by simp [hk])]

/-- The calls of a scan of a tree. -/
lemma LayeredTree.scans_walk (t : LayeredTree) (dir : Dir) (start : Bytes) :
    t.Scans dir start ((t.leaves.walk dir []).filter (Event.From dir start)) where
  guided := ((guided_walk dir _).1 t.leaves [] (List.Subset.refl _) none).filter start
  values := by rw [values_filter, (values_walk dir).1, LayeredTree.keys]

/-! ## Range queries -/

lemma order_pairwise (t : LayeredTree) (dir : Dir) : (order dir t.keys).Pairwise dir.Lt := by
  cases dir with
  | forward => exact t.keys_sorted
  | backward => exact pairwise_reverse.mpr t.keys_sorted

lemma LayeredTree.Scans.rangeScan_eq {t : LayeredTree} {start : Bytes} (h : t.Scans dir start es)
    (hboundary : boundary ≠ []) {callback : Bytes → Bool} (hcall : ∀ k, callback k = true) :
    rangeScan dir boundary callback false es =
      (order dir t.keys).filter fun k => dir.Lt k boundary ∧ dir.Le start k := by
  have hnodes := marks_pairwise_of_mem_nodes.1 t.leaves t.ok t.ordered []
  have hsorted : (Range.values es).Pairwise dir.Lt := by
    rw [h.values]
    exact (order_pairwise t dir).filter _
  have hexact : Exact dir boundary false none := by
    intro _ node pre hcur
    cases hcur
  rw [rangeScan_eq_filter hnodes hboundary hcall h.guided hsorted hexact, h.values, filter_filter]
  simp only [Bool.decide_and]

/-- A range query over a tree that does not change, for every scan that calls `visit_leaf` as
Masstree does and a callback that lets it go on: `transQuery` calls it exactly on the stored keys
from `start` up to `stop` in increasing order, and `transRQuery` on those from `start` down to
`stop` in decreasing order. -/
theorem rangeScan_exact (t : LayeredTree) (start stop : Bytes) (hstop : stop ≠ [])
    (callback : Bytes → Bool) (hcall : ∀ k, callback k = true) :
    (∀ es, t.Scans .forward start es →
      transQuery stop callback es = t.keys.filter fun k => start ≤ k ∧ k < stop) ∧
    (∀ es, t.Scans .backward start es →
      transRQuery stop callback es = t.keys.reverse.filter fun k => stop < k ∧ k ≤ start) := by
  constructor
  · intro es h
    rw [transQuery, h.rangeScan_eq hstop hcall, order]
    exact List.filter_congr fun k _ => decide_eq_decide.mpr and_comm
  · intro es h
    rw [transRQuery, h.rangeScan_eq hstop hcall, order]
    rfl

instance instDecidableBefore (m m' : ℕ × ℕ) : Decidable (Before m m') := by
  unfold Before; infer_instance

/-- Two leaves, and two keys in a lower layer. -/
def twoLayers : LayeredTree where
  leaves :=
    .cons 0 (.value [1] (.layer [1, 2, 3, 4, 5, 6, 7, 8]
      (.cons 0 (.value [9] (.value [10] .nil)) .nil) .nil))
      (.cons 0 (.value [2] .nil) .nil)
  ordered := by decide
  ok := ⟨⟨⟨rfl, by decide, by decide⟩, ⟨trivial, trivial⟩, trivial⟩, trivial, trivial⟩

theorem rangeScan_exact_twoLayers :
    transQuery [1, 2, 3, 4, 5, 6, 7, 8, 10] (fun _ => true)
      ((twoLayers.leaves.walk .forward []).filter (Event.From .forward [1])) =
        [[1], [1, 2, 3, 4, 5, 6, 7, 8, 9]] :=
  ((rangeScan_exact twoLayers [1] [1, 2, 3, 4, 5, 6, 7, 8, 10] (by decide) (fun _ => true)
    (fun _ => rfl)).1 _ (twoLayers.scans_walk .forward [1])).trans (by decide +kernel)

end Rolis.Sto.Range
