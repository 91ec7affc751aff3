import Rolis.Sto.StuffedStr

/-!
# Writing without a transaction

`MassTrans::non_trans_write` puts a value under a key if there is none yet or a comparison of the
new value with the stored one accepts it. An absent key gets an object made for the value. A stored
object is written in place by `set_value`, which does not make room: a value that is longer than the
object's capacity is not put. The capacity is that of the value the object was made for.
-/

namespace Rolis.Sto.NonTransWrite

open Function Option

/-- The objects of a table. -/
abbrev Table := Bytes → Option StuffedStr

/-- `MassTrans::non_trans_write`, with assertions on or off. -/
def nonTransWrite (ndebug : Bool) (table : Table) (key newValue : Bytes)
    (compar : Bytes → Bytes → Bool) : Option (Bool × Table) :=
  match table key with
  | some e =>
    if !compar newValue e.readValue then some (false, table)
    -- nothing asks whether the object must grow first
    else (e.setValue ndebug newValue).map fun e => (true, update table key (some e))
  | none =>
    (StuffedStr.makeString newValue 0).map fun val => (true, update table key (some val))

/-- What is read under a key. -/
def read (table : Table) (key : Bytes) : Option Bytes := (table key).map StuffedStr.readValue

/-- The write is a conditional put: it returns, it says whether the key was absent or the comparison
accepted, and the new value is read if it was and the old one if not. -/
def PutsIfAccepted (ndebug : Bool) (table : Table) (key newValue : Bytes)
    (compar : Bytes → Bytes → Bool) : Prop :=
  ∃ r table', nonTransWrite ndebug table key newValue compar = some (r, table') ∧
    (r = true ↔ ∀ oldValue, read table key = some oldValue → compar newValue oldValue = true) ∧
    read table' key = if r then some newValue else read table key

/-- There is room for the value where it goes. -/
def HasRoom (table : Table) (key newValue : Bytes) (compar : Bytes → Bytes → Bool) : Prop :=
  match table key with
  | none => newValue.length + headerSize ≤ 2 ^ 30
  | some e => compar newValue e.readValue = true → newValue.length ≤ e.capacity.toNat

variable {ndebug : Bool} {table table' : Table} {key newValue : Bytes}
  {compar : Bytes → Bytes → Bool} {e : StuffedStr}

/-! ## The three ways of a write -/

lemma putsIfAccepted_absent (h : table key = none) :
    PutsIfAccepted ndebug table key newValue compar ↔ newValue.length + headerSize ≤ 2 ^ 30 := by
  unfold PutsIfAccepted nonTransWrite read
  simp only [h, map_none]
  constructor
  · rintro ⟨r, table', hwrite, hr, hread⟩
    rw [map_eq_some_iff] at hwrite
    obtain ⟨val, hmake, hpair⟩ := hwrite
    rw [Prod.mk.injEq] at hpair
    rw [← hpair.1, ← hpair.2, update_self, map_some, if_pos rfl, some.injEq] at hread
    rw [← hread]
    exact StuffedStr.length_of_makeString hmake
  · intro hroom
    obtain ⟨val, hmake, hval, -⟩ := StuffedStr.makeString_spec 0 hroom
    refine ⟨true, update table key (some val), by rw [hmake, map_some], by simp, ?_⟩
    rw [update_self, map_some, hval, if_pos rfl]

lemma putsIfAccepted_rejected (h : table key = some e)
    (hcompar : compar newValue e.readValue = false) :
    PutsIfAccepted ndebug table key newValue compar := by
  refine ⟨false, table, ?_, ?_, by simp⟩
  · simp only [nonTransWrite, h, hcompar, Bool.not_false, if_true]
  · simp [read, h, hcompar]

lemma putsIfAccepted_accepted (h : table key = some e)
    (hcompar : compar newValue e.readValue = true) :
    PutsIfAccepted ndebug table key newValue compar ↔ newValue.length ≤ e.capacity.toNat := by
  unfold PutsIfAccepted nonTransWrite read
  simp only [h, hcompar, Bool.not_true, Bool.false_eq_true, if_false]
  constructor
  · rintro ⟨r, table', hwrite, hr, hread⟩
    rw [map_eq_some_iff] at hwrite
    obtain ⟨e', hset, hpair⟩ := hwrite
    rw [Prod.mk.injEq] at hpair
    rw [← hpair.1, ← hpair.2, update_self, map_some, if_pos rfl, some.injEq] at hread
    -- whatever is read afterwards fits into the old capacity
    rw [← hread, ← StuffedStr.capacity_setValue hset]
    exact e'.fits
  · intro hroom
    obtain ⟨e', hset, hval, -⟩ := StuffedStr.setValue_spec ndebug hroom
    refine ⟨true, update table key (some e'), by rw [hset, map_some], ?_, ?_⟩
    · simp [hcompar]
    · rw [update_self, map_some, hval, if_pos rfl]

/-- A write is a conditional put just if there is room for the value where it goes. -/
theorem putsIfAccepted_iff (ndebug : Bool) (table : Table) (key newValue : Bytes)
    (compar : Bytes → Bytes → Bool) :
    PutsIfAccepted ndebug table key newValue compar ↔ HasRoom table key newValue compar := by
  unfold HasRoom
  cases h : table key with
  | none => exact putsIfAccepted_absent h
  | some e =>
    cases hcompar : compar newValue e.readValue with
    | false => simp [putsIfAccepted_rejected h hcompar, hcompar]
    | true =>
      rw [putsIfAccepted_accepted h hcompar]
      simp [hcompar]

/-- One byte under a key has room for sixteen. -/
def oneByte : Table := update (fun _ => none) [] (StuffedStr.makeString [1] 0)

/-- Seventeen bytes are not put over one, with assertions and without. -/
theorem not_putsIfAccepted_seventeen :
    ¬PutsIfAccepted false oneByte [] (List.replicate 17 2) (fun _ _ => true) ∧
      ¬PutsIfAccepted true oneByte [] (List.replicate 17 2) (fun _ _ => true) := by
  obtain ⟨e, hmake, -, -, hcap⟩ := StuffedStr.makeString_spec (s := [1]) 0 (by decide)
  have he : oneByte [] = some e := by
    rw [oneByte, update_self, hmake]
  have hlong : ¬(List.replicate 17 (2 : UInt8)).length ≤ e.capacity.toNat := by
    rw [hcap]
    decide
  rw [putsIfAccepted_accepted he rfl, putsIfAccepted_accepted he rfl]
  exact ⟨hlong, hlong⟩

end Rolis.Sto.NonTransWrite
