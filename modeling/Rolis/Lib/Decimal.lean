import Mathlib.Data.Nat.Digits.Lemmas
import Rolis.Lib.Bytes

/-!
# Integers as text

`std::to_string` and `strtoul` with base 0, on strings of bytes. With base 0 the text decides on
the base: `0x` stands for hexadecimal, another leading `0` for octal. What `to_string` prints has no
leading zero unless it is the number 0, so `strtoul` reads it back.
-/

namespace Bytes

open List

/-- The character of a decimal digit. -/
def digitChar (d : ℕ) : UInt8 := UInt8.ofNat (48 + d)

/-- `std::to_string` of an unsigned integer. -/
def toDecimal (n : ℕ) : Bytes :=
  if n = 0 then [digitChar 0] else (Nat.digits 10 n).reverse.map digitChar

/-- `std::to_string` of a signed integer. -/
def intToDecimal (z : ℤ) : Bytes :=
  if z < 0 then 45 :: toDecimal z.natAbs else toDecimal z.natAbs

/-- `isspace` in the C locale. -/
def isSpace (c : UInt8) : Bool := c = 32 ∨ (9 ≤ c ∧ c ≤ 13)

/-- The digit that a character stands for in the given base. -/
def digitVal (base : ℕ) (c : UInt8) : Option ℕ :=
  let d :=
    if 48 ≤ c ∧ c ≤ 57 then c.toNat - 48
    else if 97 ≤ c ∧ c ≤ 122 then c.toNat - 87
    else if 65 ≤ c ∧ c ≤ 90 then c.toNat - 55
    else base
  if d < base then some d else none

/-- The digits up to the first character that is none, behind the number `acc`. -/
def digitsVal (base : ℕ) : ℕ → Bytes → ℕ
  | acc, [] => acc
  | acc, c :: s =>
    match digitVal base c with
    | none => acc
    | some d => digitsVal base (acc * base + d) s

/-- The number behind blanks and sign, in the base that its first characters choose. -/
def magnitude (s : Bytes) : ℕ :=
  match s with
  | 48 :: x :: c :: rest =>
    if (x = 120 ∨ x = 88) ∧ (digitVal 16 c).isSome then digitsVal 16 0 (c :: rest)
    else digitsVal 8 0 s
  | 48 :: _ => digitsVal 8 0 s
  | _ => digitsVal 10 0 s

/-- A number that does not fit 64 bits is answered by the largest that does. -/
def saturate (n : ℕ) : ℕ := min n (2 ^ 64 - 1)

/-- `strtoul(s, NULL, 0)`. A minus sign negates the result in 64 bits. -/
def strtoul (s : Bytes) : ℕ :=
  match s.dropWhile isSpace with
  | 45 :: s =>
    if magnitude s < 2 ^ 64 then (2 ^ 64 - magnitude s) % 2 ^ 64 else 2 ^ 64 - 1
  | 43 :: s => saturate (magnitude s)
  | s => saturate (magnitude s)

/-! ## Digits -/

variable {base d n : ℕ}

lemma digitVal_digitChar (hd : d < 10) : digitVal 10 (digitChar d) = some d := by
  interval_cases d <;> rfl

lemma toNat_digitChar (hd : d < 10) : (digitChar d).toNat = 48 + d := by
  interval_cases d <;> rfl

lemma digitsVal_map (acc : ℕ) {ds : List ℕ} (h : ∀ d ∈ ds, d < 10) :
    digitsVal 10 acc (ds.map digitChar) = ds.foldl (fun acc d => acc * 10 + d) acc := by
  induction ds generalizing acc with
  | nil => rfl
  | cons d ds ih =>
    rw [map_cons, digitsVal, digitVal_digitChar (h d mem_cons_self), foldl_cons]
    exact ih _ fun d' hd' => h d' (mem_cons_of_mem d hd')

/-- The digits of a number give the number. -/
lemma digitsVal_digits (n : ℕ) : digitsVal 10 0 ((Nat.digits 10 n).reverse.map digitChar) = n := by
  rw [digitsVal_map 0 fun d hd => Nat.digits_lt_base (by norm_num) (mem_reverse.mp hd),
    foldl_reverse]
  conv_rhs => rw [← Nat.ofDigits_digits 10 n, Nat.ofDigits_eq_foldr]
  congr 1
  funext d acc
  simp only [Nat.cast_id]
  omega

/-- Every character of a printed number is a digit. -/
lemma mem_toDecimal {c : UInt8} (h : c ∈ toDecimal n) : ∃ d < 10, c = digitChar d := by
  unfold toDecimal at h
  split at h
  · exact ⟨0, by norm_num, mem_singleton.mp h⟩
  · obtain ⟨d, hd, rfl⟩ := mem_map.mp h
    exact ⟨d, Nat.digits_lt_base (by norm_num) (mem_reverse.mp hd), rfl⟩

/-- A printed number begins with a digit, and with the digit 0 only if it is 0. -/
lemma exists_toDecimal_cons (hn : n ≠ 0) :
    ∃ d rest, 0 < d ∧ d < 10 ∧ toDecimal n = digitChar d :: rest := by
  have hne : Nat.digits 10 n ≠ [] := Nat.digits_ne_nil_iff_ne_zero.mpr hn
  refine ⟨(Nat.digits 10 n).getLast hne, (Nat.digits 10 n).dropLast.reverse.map digitChar,
    Nat.pos_of_ne_zero (Nat.getLast_digit_ne_zero 10 hn),
    Nat.digits_lt_base (by norm_num) (getLast_mem hne), ?_⟩
  rw [toDecimal, if_neg hn, ← map_cons, ← reverse_concat, dropLast_append_getLast hne]

lemma toDecimal_ne_nil (n : ℕ) : toDecimal n ≠ [] := by
  by_cases hn : n = 0
  · simp [toDecimal, hn]
  · obtain ⟨d, rest, -, -, heq⟩ := exists_toDecimal_cons hn
    rw [heq]
    exact cons_ne_nil _ _

lemma intToDecimal_ne_nil (z : ℤ) : intToDecimal z ≠ [] := by
  unfold intToDecimal
  split
  · exact cons_ne_nil _ _
  · exact toDecimal_ne_nil _

/-- A number has at most `k` digits if it is below `10 ^ k`. -/
lemma length_toDecimal_le {k : ℕ} (hk : 0 < k) (h : n < 10 ^ k) : (toDecimal n).length ≤ k := by
  unfold toDecimal
  split
  · exact hk
  · rw [length_map, length_reverse]
    exact Nat.digits_length_le_iff (by norm_num) n |>.mpr h

lemma toDecimal_of_lt (h : n < 10) : toDecimal n = [digitChar n] := by
  unfold toDecimal
  split
  · next hn => rw [hn]
  · next hn => rw [Nat.digits_of_lt 10 n hn h, reverse_singleton, map_singleton]

/-- The last digit of a number. -/
lemma toDecimal_step (h : 10 ≤ n) : toDecimal n = toDecimal (n / 10) ++ [digitChar (n % 10)] := by
  have hdiv : n / 10 ≠ 0 := by omega
  rw [toDecimal, toDecimal, if_neg (by omega), if_neg hdiv,
    Nat.digits_def' (by norm_num) (by omega),
    reverse_cons, map_append, map_singleton]

/-! ## Reading back -/

lemma magnitude_toDecimal (n : ℕ) : magnitude (toDecimal n) = n := by
  by_cases hn : n = 0
  · subst hn
    rfl
  · obtain ⟨d, rest, hpos, hlt, heq⟩ := exists_toDecimal_cons hn
    have hval : digitsVal 10 0 (toDecimal n) = n := by
      rw [toDecimal, if_neg hn, digitsVal_digits]
    have hzero : digitChar d ≠ 48 := by
      intro h
      have := congrArg UInt8.toNat h
      rw [toNat_digitChar hlt] at this
      simp only [UInt8.reduceToNat] at this
      omega
    rw [heq] at hval ⊢
    unfold magnitude
    split
    · next h => exact absurd (cons.inj h).1 hzero
    · next h => exact absurd (cons.inj h).1 hzero
    · exact hval

lemma toDecimal_injective : Function.Injective toDecimal := by
  intro m n h
  rw [← magnitude_toDecimal m, h, magnitude_toDecimal]

/-- A digit is neither a blank nor a sign. -/
lemma digitChar_plain (hd : d < 10) :
    isSpace (digitChar d) = false ∧ digitChar d ≠ 45 ∧ digitChar d ≠ 43 := by
  interval_cases d <;> decide

/-- `strtoul` reads a printed number back. -/
lemma strtoul_toDecimal (h : n < 2 ^ 64) : strtoul (toDecimal n) = n := by
  obtain ⟨c, rest, heq⟩ := exists_cons_of_ne_nil (toDecimal_ne_nil n)
  obtain ⟨d, hd, rfl⟩ := mem_toDecimal (n := n) (c := c) (by rw [heq]; exact mem_cons_self)
  obtain ⟨hspace, hminus, hplus⟩ := digitChar_plain hd
  have hdrop : (toDecimal n).dropWhile isSpace = toDecimal n := by
    rw [heq, dropWhile_cons_of_neg (by simp [hspace])]
  have hmag : saturate (magnitude (toDecimal n)) = n := by
    rw [magnitude_toDecimal, saturate]
    omega
  unfold strtoul
  rw [hdrop]
  split
  · next h => exact absurd (cons.inj (heq.symm.trans h)).1 hminus
  · next h => exact absurd (cons.inj (heq.symm.trans h)).1 hplus
  · exact hmag

end Bytes
