import Mathlib.Data.List.Lex
import Mathlib.Tactic.NormNum

/-!
# Little-endian integers and a reader that checks its bounds

`encode w n` are the `w` bytes that a copy of an integer variable of that width leaves in memory
on a little-endian machine; the bits above the width are lost. `read` and `readNat` take bytes
and integers off the front of a buffer, and answer `none` where a copy would read past its end.
-/

/-- Bytes are ordered by their value. -/
instance UInt8.instLinearOrderByValue : LinearOrder UInt8 where
  le_refl := UInt8.le_refl
  le_trans := fun _ _ _ => UInt8.le_trans
  le_antisymm := fun _ _ => UInt8.le_antisymm
  le_total := UInt8.le_total
  lt_iff_le_not_ge := fun a b => by
    simp only [UInt8.le_iff_toNat_le, UInt8.lt_iff_toNat_lt]
    omega
  toDecidableLE := fun a b => inferInstanceAs (Decidable (a ≤ b))

/-- A string or a buffer of bytes. Strings are ordered lexicographically. -/
abbrev Bytes := List UInt8

namespace Bytes

open List Option

variable {w n : ℕ} {a b : Bytes}

/-- The `w` little-endian bytes of `n`. -/
def encode : ℕ → ℕ → Bytes
  | 0, _ => []
  | w + 1, n => UInt8.ofNat n :: encode w (n / 256)

/-- The integer with the given little-endian bytes. -/
def decode : Bytes → ℕ
  | [] => 0
  | b :: bs => b.toNat + 256 * decode bs

@[simp] lemma length_encode (w n : ℕ) : (encode w n).length = w := by
  induction w generalizing n with
  | zero => rfl
  | succ w ih => rw [encode, length_cons, ih]

lemma decode_encode (w n : ℕ) : decode (encode w n) = n % 256 ^ w := by
  induction w generalizing n with
  | zero => rw [encode, decode, pow_zero, Nat.mod_one]
  | succ w ih =>
    have hbyte : (UInt8.ofNat n).toNat = n % 256 := UInt8.toNat_ofNat'
    rw [encode, decode, ih, hbyte, pow_succ', Nat.mod_mul]

lemma decode_encode_of_lt (h : n < 256 ^ w) : decode (encode w n) = n := by
  rw [decode_encode, Nat.mod_eq_of_lt h]

/-- Integers have the same bytes if they agree in the low bits. -/
lemma encode_eq_encode_iff {m : ℕ} : encode w m = encode w n ↔ m % 256 ^ w = n % 256 ^ w := by
  constructor
  · intro h
    rw [← decode_encode, h, decode_encode]
  · intro h
    induction w generalizing m n with
    | zero => rfl
    | succ w ih =>
      rw [pow_succ', Nat.mod_mul, Nat.mod_mul] at h
      have hlow : m % 256 = n % 256 := by omega
      have hhigh : m / 256 % 256 ^ w = n / 256 % 256 ^ w := by omega
      have hbyte : UInt8.ofNat m = UInt8.ofNat n := by
        rw [← UInt8.toNat_inj, UInt8.toNat_ofNat', UInt8.toNat_ofNat']
        exact hlow
      rw [encode, encode, ih hhigh, hbyte]

lemma take_encode (w v n : ℕ) : (encode (w + v) n).take w = encode w n := by
  induction w generalizing n with
  | zero => rfl
  | succ w ih => rw [Nat.succ_add, encode, encode, take_succ_cons, ih]

lemma decode_lt (bs : Bytes) : decode bs < 256 ^ bs.length := by
  induction bs with
  | nil => rw [decode, length_nil, pow_zero]; exact Nat.one_pos
  | cons b bs ih =>
    have hb : b.toNat < 256 := b.toNat_lt
    rw [decode, length_cons, pow_succ]
    omega

/-! ## Reading -/

/-- The first `n` bytes and what is behind them. -/
def read (n : ℕ) (bs : Bytes) : Option (Bytes × Bytes) :=
  if n ≤ bs.length then some (bs.take n, bs.drop n) else none

/-- A little-endian integer of `w` bytes and what is behind it. -/
def readNat (w : ℕ) (bs : Bytes) : Option (ℕ × Bytes) :=
  (read w bs).map fun (a, rest) => (decode a, rest)

lemma read_append (a b : Bytes) : read a.length (a ++ b) = some (a, b) := by
  unfold read
  rw [if_pos (by simp), take_left, drop_left]

lemma read_append_of_length (h : a.length = n) : read n (a ++ b) = some (a, b) :=
  h ▸ read_append a b

lemma readNat_encode_mod (w n : ℕ) (b : Bytes) :
    readNat w (encode w n ++ b) = some (n % 256 ^ w, b) := by
  simp only [readNat, read_append_of_length (length_encode w n), map_some, decode_encode]

lemma readNat_encode (h : n < 256 ^ w) : readNat w (encode w n ++ b) = some (n, b) := by
  rw [readNat_encode_mod, Nat.mod_eq_of_lt h]

lemma readNat_lt {rest : Bytes} (h : readNat w b = some (n, rest)) : n < 256 ^ w := by
  obtain ⟨⟨a, r⟩, hread, heq⟩ := map_eq_some_iff.mp h
  cases heq
  unfold read at hread
  split at hread
  · next hw =>
    cases hread
    have hlt := decode_lt (b.take w)
    rwa [length_take_of_le hw] at hlt
  · cases hread

/-! ## Counted sequences -/

variable {α β γ : Type*}

/-- Use a reader `n` times. -/
def readN (p : Bytes → Option (α × Bytes)) : ℕ → Bytes → Option (List α × Bytes)
  | 0, b => some ([], b)
  | n + 1, b =>
    match p b with
    | none => none
    | some (a, rest) => (readN p n rest).map fun (as, rest) => (a :: as, rest)

/-- If `p` reads back what `e` wrote, as far as the view `g` of it goes, whenever at least `m`
bytes follow, then `readN p` reads back a sequence. -/
lemma readN_flatMap {p : Bytes → Option (α × Bytes)} {e : β → Bytes} {f : β → γ} {g : α → γ}
    {m : ℕ} {xs : List β} {rest : Bytes}
    (h : ∀ x ∈ xs, ∀ rest, m ≤ rest.length → ∃ a, p (e x ++ rest) = some (a, rest) ∧ g a = f x)
    (hm : m ≤ rest.length) :
    ∃ as, readN p xs.length (xs.flatMap e ++ rest) = some (as, rest) ∧ as.map g = xs.map f := by
  induction xs with
  | nil => exact ⟨[], rfl, rfl⟩
  | cons x xs ih =>
    obtain ⟨as, has, hmap⟩ := ih fun y hy => h y (mem_cons_of_mem x hy)
    have hlen : m ≤ (xs.flatMap e ++ rest).length := by
      rw [length_append]
      omega
    obtain ⟨a, ha, hg⟩ := h x mem_cons_self _ hlen
    refine ⟨a :: as, ?_, by rw [map_cons, map_cons, hg, hmap]⟩
    rw [flatMap_cons, append_assoc, length_cons]
    simp only [readN, ha, has, map_some]

end Bytes
