import Mathlib.Data.Nat.Bitwise

/-!
# A counter above flags

The lower `k` bits of a word are flags, and the bits above them count. Setting and clearing flags
leaves the counter, and adding `2 ^ k` leaves the flags; the counter goes round when the word does.
-/

namespace Packed

open BitVec

variable {w k i : ℕ} {v v' m : BitVec w}

/-- The counter above the lower `k` bits. -/
def count (k : ℕ) (v : BitVec w) : ℕ := v.toNat / 2 ^ k

/-- The lower `k` bits. -/
def flags (k : ℕ) (v : BitVec w) : ℕ := v.toNat % 2 ^ k

lemma count_lt (hk : k ≤ w) : count k v < 2 ^ (w - k) := by
  unfold count
  rw [Nat.div_lt_iff_lt_mul (Nat.two_pow_pos k), ← pow_add, Nat.sub_add_cancel hk]
  exact v.isLt

/-! ## Flags -/

/-- A mask of flags has no bit in the counter. -/
lemma getLsbD_eq_false (hm : m.toNat < 2 ^ k) (hi : k ≤ i) : m.getLsbD i = false := by
  rw [← testBit_toNat]
  apply Nat.testBit_lt_two_pow
  calc m.toNat < 2 ^ k := hm
    _ ≤ 2 ^ i := Nat.pow_le_pow_right (by omega) hi

lemma count_or (hm : m.toNat < 2 ^ k) : count k (v ||| m) = count k v := by
  unfold count
  rw [toNat_or, Nat.or_div_two_pow, Nat.div_eq_of_lt hm, Nat.or_zero]

lemma count_and_not (hm : m.toNat < 2 ^ k) : count k (v &&& ~~~m) = count k v := by
  apply Nat.eq_of_testBit_eq
  intro i
  unfold count
  rw [Nat.testBit_div_two_pow, Nat.testBit_div_two_pow, testBit_toNat, testBit_toNat,
    getLsbD_and, getLsbD_not, getLsbD_eq_false hm (by omega)]
  by_cases hi : i + k < w
  · simp only [hi, decide_true, Bool.not_false, Bool.and_true]
  · rw [getLsbD_of_ge v (i + k) (by omega), Bool.false_and]

/-! ## Counting -/

lemma flags_add_twoPow (hk : k < w) : flags k (v + twoPow w k) = flags k v := by
  have hpow : 2 ^ k < 2 ^ w := Nat.pow_lt_pow_right (by omega) hk
  unfold flags
  rw [toNat_add, toNat_twoPow, Nat.mod_eq_of_lt hpow,
    Nat.mod_mod_of_dvd _ (pow_dvd_pow 2 hk.le), Nat.add_mod_right]

lemma count_add_twoPow (hk : k < w) : count k (v + twoPow w k) = (count k v + 1) % 2 ^ (w - k) := by
  have hpow : 2 ^ k < 2 ^ w := Nat.pow_lt_pow_right (by omega) hk
  have hsplit : 2 ^ w = 2 ^ k * 2 ^ (w - k) := by rw [← pow_add, Nat.add_sub_cancel' hk.le]
  unfold count
  rw [toNat_add, toNat_twoPow, Nat.mod_eq_of_lt hpow, hsplit,
    Nat.mod_mul_right_div_self, Nat.add_div_right _ (Nat.two_pow_pos k)]

/-! ## Masks -/

lemma getLsbD_eq_of_flags_eq (h : flags k v = flags k v') (hi : i < k) :
    v.getLsbD i = v'.getLsbD i := by
  have hbit := congrArg (Nat.testBit · i) h
  simpa only [flags, Nat.testBit_mod_two_pow, hi, decide_true, Bool.true_and,
    testBit_toNat] using hbit

/-- A mask of flags sees the flags only. -/
lemma and_eq_of_flags_eq (h : flags k v = flags k v') (hm : m.toNat < 2 ^ k) :
    v &&& m = v' &&& m := by
  apply eq_of_getLsbD_eq
  intro i hi
  rw [getLsbD_and, getLsbD_and]
  by_cases hik : i < k
  · rw [getLsbD_eq_of_flags_eq h hik]
  · rw [getLsbD_eq_false hm (by omega), Bool.and_false, Bool.and_false]

end Packed
