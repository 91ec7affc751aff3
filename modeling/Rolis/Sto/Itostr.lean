import Rolis.Lib.Decimal

/-!
# Keys as text

`hopman_fast::itostr` prints a key from a table of blocks of four characters. The first character of
a block keeps in its high bits how many digits the block has without leading zeros: it is used for
the first block, and for the others it is turned into a digit again. The blocks are three variables
of 32 bits, so the upper half of a 64-bit key is lost.
-/

namespace Rolis.Sto.HopmanFast

open Bytes List

/-! ## The routine -/

/-- The first character of a block: a digit, or the number of digits behind it less one. -/
def lead (o0 o1 o2 : UInt8) : UInt8 :=
  if o0 ≠ 0 then o0 ||| 0x30
  else if o1 ≠ 48 then o0 ||| 0x20
  else if o2 ≠ 48 then o0 ||| 0x10
  else o0 ||| 0x00

/-- `itostr_helper::out[v]`, the four characters of a block. -/
def out (v : ℕ) : Bytes :=
  let o3 := UInt8.ofNat (v % 10 + 48)
  let o2 := UInt8.ofNat (v % 100 / 10 + 48)
  let o1 := UInt8.ofNat (v % 1000 / 100 + 48)
  let o0 := UInt8.ofNat (v % 10000 / 1000)
  [lead o0 o1 o2, o1, o2, o3]

/-- `block |= 0x30303030`. -/
def fill (block : Bytes) : Bytes := block.map (· ||| 0x30)

/-- `f += 3 - (*f >> 4)`: the characters from the first digit on. -/
def trim (f : Bytes) : Bytes := f.drop (3 - (f.headD 0 >>> 4).toNat)

/-- `itostr` of an `unsigned long long`. -/
def itostr (o : ℕ) : Bytes :=
  -- the argument has 64 bits, the variable has 32
  let block0 := o % 2 ^ 32
  let block2 := out (block0 % 10000)
  let block0 := block0 / 10000
  if block0 = 0 then trim block2
  else
    let block1 := out (block0 % 10000)
    let block0 := block0 / 10000
    if block0 = 0 then trim (block1 ++ fill block2)
    else trim (out (block0 % 10000) ++ fill block1 ++ fill block2)

/-! ## Blocks -/

/-- Four digits. -/
def fourDigits (v : ℕ) : Bytes :=
  [digitChar (v / 1000), digitChar (v / 100 % 10), digitChar (v / 10 % 10), digitChar (v % 10)]

section

variable {a d v n : ℕ}

lemma ofNat_ne_zero (ha : a < 10) (hne : a ≠ 0) : UInt8.ofNat a ≠ 0 := by
  interval_cases a
  · exact absurd rfl hne
  all_goals decide

lemma ofNat_or (ha : a < 10) : UInt8.ofNat a ||| 0x30 = digitChar a := by
  interval_cases a <;> rfl

lemma digitChar_or (hd : d < 10) : digitChar d ||| 0x30 = digitChar d := by
  interval_cases d <;> rfl

lemma digitChar_shift (hd : d < 10) : (digitChar d >>> 4).toNat = 3 := by
  interval_cases d <;> rfl

lemma digitChar_ne_48 (hd : d < 10) (hne : d ≠ 0) : digitChar d ≠ 48 := by
  interval_cases d
  · exact absurd rfl hne
  all_goals decide

lemma lead_of_ne_zero (ha : a < 10) (hne : a ≠ 0) (b c : UInt8) :
    lead (UInt8.ofNat a) b c = digitChar a := by
  rw [lead, if_pos (ofNat_ne_zero ha hne), ofNat_or ha]

/-- The high bits of a first character do not matter once it is filled up. -/
lemma lead_or (ha : a < 10) (b c : UInt8) : lead (UInt8.ofNat a) b c ||| 0x30 = digitChar a := by
  by_cases hne : a = 0
  · subst hne
    rw [lead, if_neg (by decide)]
    split
    · rfl
    · split <;> rfl
  · rw [lead_of_ne_zero ha hne, digitChar_or ha]

lemma out_eq (hv : v < 10000) : out v =
    [lead (UInt8.ofNat (v / 1000)) (digitChar (v / 100 % 10)) (digitChar (v / 10 % 10)),
      digitChar (v / 100 % 10), digitChar (v / 10 % 10), digitChar (v % 10)] := by
  have h0 : v % 10000 / 1000 = v / 1000 := by omega
  have h1 : v % 1000 / 100 + 48 = 48 + v / 100 % 10 := by omega
  have h2 : v % 100 / 10 + 48 = 48 + v / 10 % 10 := by omega
  have h3 : v % 10 + 48 = 48 + v % 10 := by omega
  simp only [out, h0, h1, h2, h3, digitChar]

/-- A block behind the first one. -/
lemma fill_out (hv : v < 10000) : fill (out v) = fourDigits v := by
  rw [out_eq hv, fill, map_cons, map_cons, map_cons, map_cons, map_nil,
    lead_or (by omega), digitChar_or (by omega), digitChar_or (by omega), digitChar_or (by omega),
    fourDigits]

lemma trim_cons {c : UInt8} {k : ℕ} (hc : (c >>> 4).toNat = k) (f : Bytes) :
    trim (c :: f) = (c :: f).drop (3 - k) := by
  rw [trim, headD_cons, hc]

/-- The first block, with any text behind it, is cut to the digits of its number. -/
lemma trim_out (hv : v < 10000) (rest : Bytes) : trim (out v ++ rest) = toDecimal v ++ rest := by
  rw [out_eq hv, cons_append]
  by_cases h3 : v / 1000 = 0
  · -- fewer than four digits: the first character counts those behind it
    have ho : UInt8.ofNat (v / 1000) = 0 := by rw [h3]; rfl
    by_cases h2 : v / 100 % 10 = 0
    · by_cases h1 : v / 10 % 10 = 0
      · rw [ho, h2, h1, toDecimal_of_lt (by omega), Nat.mod_eq_of_lt (by omega : v < 10),
          trim_cons (k := 0) rfl]
        rfl
      · have hlead : lead 0 (digitChar 0) (digitChar (v / 10 % 10)) = 0x10 := by
          rw [lead, if_neg (by decide), if_neg (by decide), if_pos (digitChar_ne_48 (by omega) h1)]
          rfl
        rw [ho, h2, hlead, toDecimal_step (by omega), toDecimal_of_lt (by omega),
          Nat.mod_eq_of_lt (by omega : v / 10 < 10), trim_cons (k := 1) rfl]
        rfl
    · have hlead : lead 0 (digitChar (v / 100 % 10)) (digitChar (v / 10 % 10)) = 0x20 := by
        rw [lead, if_neg (by decide), if_pos (digitChar_ne_48 (by omega) h2)]
        rfl
      rw [ho, hlead, toDecimal_step (by omega), toDecimal_step (by omega),
        toDecimal_of_lt (by omega), Nat.div_div_eq_div_mul,
        Nat.mod_eq_of_lt (by omega : v / 100 < 10), trim_cons (k := 2) rfl]
      rfl
  · have hdiv : v / 10 / 10 = v / 100 := Nat.div_div_eq_div_mul v 10 10
    have hdiv' : v / 100 / 10 = v / 1000 := Nat.div_div_eq_div_mul v 100 10
    rw [lead_of_ne_zero (by omega) h3, toDecimal_step (by omega), toDecimal_step (by omega),
      toDecimal_step (by omega), toDecimal_of_lt (by omega), hdiv, hdiv',
      trim_cons (digitChar_shift (by omega))]
    rfl

/-- The last four digits of a number. -/
lemma toDecimal_blocks (hn : 10000 ≤ n) :
    toDecimal n = toDecimal (n / 10000) ++ fourDigits (n % 10000) := by
  rw [toDecimal_step (by omega), toDecimal_step (by omega), toDecimal_step (by omega),
    toDecimal_step (by omega)]
  simp only [Nat.div_div_eq_div_mul, append_assoc, cons_append, nil_append]
  rw [fourDigits, show n / (10 * 10 * 10 * 10) = n / 10000 from rfl,
    show n / (10 * 10 * 10) % 10 = n % 10000 / 1000 by omega,
    show n / (10 * 10) % 10 = n % 10000 / 100 % 10 by omega,
    show n / 10 % 10 = n % 10000 / 10 % 10 by omega, show n % 10 = n % 10000 % 10 by omega]

end

/-! ## The text of a key -/

/-- The text is that of the lower half of the key. -/
lemma itostr_eq (k : ℕ) : itostr k = toDecimal (k % 2 ^ 32) := by
  have hlt : k % 2 ^ 32 < 2 ^ 32 := Nat.mod_lt _ (by norm_num)
  generalize hx : k % 2 ^ 32 = x at hlt
  have hdiv : x / 10000 / 10000 < 10000 := by omega
  unfold itostr
  simp only [hx]
  split
  · next h0 =>
    have htrim := trim_out (v := x % 10000) (by omega) []
    rw [append_nil, append_nil] at htrim
    rw [htrim, Nat.mod_eq_of_lt (by omega)]
  · next h0 =>
    rw [toDecimal_blocks (by omega)]
    split
    · next h1 =>
      rw [fill_out (by omega), trim_out (by omega), Nat.mod_eq_of_lt (by omega)]
    · next h1 =>
      rw [fill_out (by omega), fill_out (by omega), append_assoc, trim_out (by omega),
        toDecimal_blocks (n := x / 10000) (by omega), append_assoc, Nat.mod_eq_of_lt hdiv]

/-- The keys are printed in decimal, and different ones differently. -/
structure PrintsExactly (keys : Set ℕ) : Prop where
  decimal : ∀ k ∈ keys, itostr k = toDecimal k
  injective : Set.InjOn itostr keys

lemma itostr_eq_toDecimal_iff (k : ℕ) : itostr k = toDecimal k ↔ k < 2 ^ 32 := by
  rw [itostr_eq]
  constructor
  · intro h
    rw [← toDecimal_injective h]
    exact Nat.mod_lt _ (by norm_num)
  · intro h
    rw [Nat.mod_eq_of_lt h]

/-- The keys of a log are printed exactly if all of them fit 32 bits. -/
theorem printsExactly_iff (keys : Set ℕ) : PrintsExactly keys ↔ ∀ k ∈ keys, k < 2 ^ 32 := by
  constructor
  · intro h k hk
    exact (itostr_eq_toDecimal_iff k).mp (h.decimal k hk)
  · intro h
    refine ⟨fun k hk => (itostr_eq_toDecimal_iff k).mpr (h k hk), fun k hk k' hk' heq => ?_⟩
    rw [itostr_eq, itostr_eq, Nat.mod_eq_of_lt (h k hk), Nat.mod_eq_of_lt (h k' hk')] at heq
    exact toDecimal_injective heq

/-- `4294967296` is printed as `0`. -/
theorem not_printsExactly_wide : itostr (2 ^ 32) = [48] ∧ ¬ PrintsExactly {k | k < 2 ^ 64} := by
  have hzero : itostr (2 ^ 32) = itostr 0 := rfl
  refine ⟨rfl, fun h => ?_⟩
  have hwide : (2 : ℕ) ^ 32 ∈ {k : ℕ | k < 2 ^ 64} := by norm_num
  have hkey := h.injective hwide (show (0 : ℕ) < 2 ^ 64 by norm_num) hzero
  norm_num at hkey

end Rolis.Sto.HopmanFast
