import Mathlib.Algebra.Ring.Nat
import Mathlib.Data.Nat.Size

/-!
# Smearing bits

`s ||| s >>> n` sets a bit if it was set or the one `n` above it. Doing so with 1, 2, 4 and so on
sets every bit below the highest one, and one more is a power of two.
-/

namespace Smear

variable {n v s : ℕ}

/-- A bit of `s` is set just if one of the `n` bits of `v` from there on is. -/
def Spread (n v s : ℕ) : Prop :=
  ∀ i, s.testBit i = true ↔ ∃ j, i ≤ j ∧ j < i + n ∧ v.testBit j = true

lemma spread_one (v : ℕ) : Spread 1 v v := by
  intro i
  constructor
  · intro h
    exact ⟨i, by omega, by omega, h⟩
  · rintro ⟨j, hle, hlt, h⟩
    obtain rfl : i = j := by omega
    exact h

lemma Spread.double (h : Spread n v s) : Spread (n + n) v (s ||| s >>> n) := by
  intro i
  rw [Nat.testBit_or, Nat.testBit_shiftRight, Bool.or_eq_true, h i, h (n + i)]
  constructor
  · rintro (⟨j, hle, hlt, hj⟩ | ⟨j, hle, hlt, hj⟩)
    · exact ⟨j, hle, by omega, hj⟩
    · exact ⟨j, by omega, by omega, hj⟩
  · rintro ⟨j, hle, hlt, hj⟩
    by_cases hnear : j < i + n
    · exact .inl ⟨j, hle, hnear, hj⟩
    · exact .inr ⟨j, by omega, by omega, hj⟩

/-- Bits that are spread as far as the number is long make the next power of two less one. -/
lemma Spread.add_one_eq (h : Spread n v s) (hv : v < 2 ^ n) : s + 1 = 2 ^ v.size := by
  have heq : s = 2 ^ v.size - 1 := by
    apply Nat.eq_of_testBit_eq
    intro i
    rw [Bool.eq_iff_iff, Nat.testBit_two_pow_sub_one, decide_eq_true_iff, h i, Nat.lt_size]
    constructor
    · rintro ⟨j, hle, _, hj⟩
      calc 2 ^ i ≤ 2 ^ j := Nat.pow_le_pow_right (by omega) hle
        _ ≤ v := Nat.ge_two_pow_of_testBit hj
    · intro hle
      obtain ⟨j, hge, hj⟩ := Nat.exists_ge_and_testBit_of_ge_two_pow hle
      refine ⟨j, hge, ?_, hj⟩
      -- the number is shorter than the window
      have hlt : 2 ^ j < 2 ^ n := Nat.lt_of_le_of_lt (Nat.ge_two_pow_of_testBit hj) hv
      have hjn : j < n := (Nat.pow_lt_pow_iff_right (by omega)).mp hlt
      omega
  have hpos : 0 < 2 ^ v.size := Nat.two_pow_pos _
  omega

end Smear
