import Rolis.Lib.Smear
import Rolis.Sto.MassTransTheorems

/-!
# Values with their room

`stuffed_str`, the object that a table keeps for a key, with the `int` and `unsigned` arithmetic of
its sizes. The sizes of the tables' model are those of the code while they stay below `2 ^ 32`;
`toNat_pad` says where the two meet. What a C++ function does outside its memory is not defined, and
the functions here are `none` there.
-/

namespace Rolis.Sto

open Option BitVec

/-! ## The padded sizes -/

lemma pad_of_large {v : ℕ} (hlarge : 512 < v) (hv : v ≤ 2 ^ 32) : pad v = 2 ^ (v - 1).size := by
  have hspread := (Smear.spread_one (v - 1)).double.double.double.double.double
  have hlt : v - 1 < 2 ^ 32 := by omega
  rw [pad, if_neg (by omega)]
  exact hspread.add_one_eq hlt

lemma pad_le {v k : ℕ} (hk : 10 ≤ k) (hk' : k ≤ 32) (hv : v ≤ 2 ^ k) : pad v ≤ 2 ^ k := by
  have hten : 2 ^ 10 ≤ 2 ^ k := Nat.pow_le_pow_right (by omega) hk
  have htop : 2 ^ k ≤ 2 ^ 32 := Nat.pow_le_pow_right (by omega) hk'
  by_cases hsmall : v ≤ 512
  · rw [pad, if_pos hsmall]
    omega
  · rw [pad_of_large (by omega) (by omega)]
    apply Nat.pow_le_pow_right (by omega)
    rw [Nat.size_le]
    omega

/-- A size behind a power of two goes up to the next one. -/
lemma pad_of_between {v k : ℕ} (hk : 9 ≤ k) (hk' : k < 32) (hlt : 2 ^ k < v)
    (hle : v ≤ 2 ^ (k + 1)) : pad v = 2 ^ (k + 1) := by
  have hnine : 2 ^ 9 ≤ 2 ^ k := Nat.pow_le_pow_right (by omega) hk
  have htop : 2 ^ (k + 1) ≤ 2 ^ 32 := Nat.pow_le_pow_right (by omega) hk'
  rw [pad_of_large (by omega) (by omega)]
  have hle' : (v - 1).size ≤ k + 1 := by
    rw [Nat.size_le]
    omega
  have hge : k < (v - 1).size := by
    rw [Nat.lt_size]
    omega
  rw [show (v - 1).size = k + 1 by omega]

lemma pad_of_small {v : ℕ} (hv : v ≤ 512) : pad v = (v + 15) / 16 * 16 := by
  rw [pad, if_pos hv]

/-- Padding rounds up to 16 at least. -/
lemma sixteen_dvd_pad {v : ℕ} (hv : v ≤ 2 ^ 32) : 16 ∣ pad v := by
  by_cases hsmall : v ≤ 512
  · rw [pad_of_small hsmall]
    exact Nat.dvd_mul_left _ _
  · rw [pad_of_large (by omega) hv]
    have hsize : 9 < (v - 1).size := by
      rw [Nat.lt_size]
      omega
    exact Nat.pow_dvd_pow 2 (by omega : 4 ≤ (v - 1).size)

lemma pad_mono {u v : ℕ} (h : u ≤ v) (hv : v ≤ 2 ^ 32) : pad u ≤ pad v := by
  by_cases hsmall : v ≤ 512
  · rw [pad_of_small hsmall, pad_of_small (by omega)]
    omega
  · by_cases husmall : u ≤ 512
    · have hge := le_pad v
      rw [pad_of_small husmall]
      omega
    · rw [pad_of_large (by omega) (by omega), pad_of_large (by omega) hv]
      apply Nat.pow_le_pow_right (by omega)
      exact Nat.size_le_size (by omega)

/-- A padded size needs no more padding. -/
lemma pad_pad {v : ℕ} (hv : v ≤ 2 ^ 32) : pad (pad v) = pad v := by
  by_cases hsmall : v ≤ 512
  · rw [pad_of_small hsmall, pad_of_small (by omega)]
    omega
  · rw [pad_of_large (by omega) hv]
    have hge : 9 < (v - 1).size := by
      rw [Nat.lt_size]
      omega
    have hle : (v - 1).size ≤ 32 := by
      rw [Nat.size_le]
      omega
    obtain ⟨k, hk⟩ : ∃ k, (v - 1).size = k + 1 := ⟨(v - 1).size - 1, by omega⟩
    rw [hk] at hge hle ⊢
    have hlt : 2 ^ k < 2 ^ (k + 1) := Nat.pow_lt_pow_right (by omega) (by omega)
    exact pad_of_between (by omega) (by omega) hlt (Nat.le_refl _)

/-! ## The object -/

/-- `stuffed_str<uint64_t>`: `stuff_` is the version, `size_` the number of bytes in `buf_`. The
memory of an object is `capacity_` bytes behind the header, and its size is an `int`. -/
structure StuffedStr where
  stuff : BitVec 64
  capacity : BitVec 32
  buf : Bytes
  fits : buf.length ≤ capacity.toNat
  room : capacity.toNat + headerSize < 2 ^ 31
deriving DecidableEq

namespace StuffedStr

/-- `stuffed_str::pad`. -/
def pad (v : BitVec 32) : BitVec 32 :=
  if v ≤ 512#32 then (v + 15#32) &&& ~~~15#32
  else
    let v := v - 1#32
    let v := v ||| v >>> 1
    let v := v ||| v >>> 2
    let v := v ||| v >>> 4
    let v := v ||| v >>> 8
    let v := v ||| v >>> 16
    v + 1#32

/-- `stuffed_str::size_for`. -/
def sizeFor (len : BitVec 32) : BitVec 32 := pad (len + 16#32)

/-- The two sizes that `make` is given have a meaning: there is no memory of a negative size, and
the bytes must be there and must fit behind the header. -/
def Makes (str : Bytes) (len capacity : BitVec 32) : Prop :=
  headerSize ≤ capacity.toInt ∧ len.toNat + headerSize ≤ capacity.toNat ∧ len.toNat ≤ str.length

instance Makes.decidable (str : Bytes) (len capacity : BitVec 32) :
    Decidable (Makes str len capacity) :=
  inferInstanceAs (Decidable (_ ∧ _ ∧ _))

lemma toNat_lt_of_toInt_nonneg {x : BitVec 32} (h : 0 ≤ x.toInt) : x.toNat < 2 ^ 31 := by
  rw [toInt_eq_toNat_cond] at h
  split at h
  · omega
  · have hlt := x.isLt
    omega

/-- What a size has behind the header. -/
lemma toNat_sub_headerSize {capacity : BitVec 32} (h : headerSize ≤ capacity.toNat) :
    (capacity - 16#32).toNat + headerSize = capacity.toNat := by
  unfold headerSize at h ⊢
  have hle : 16#32 ≤ capacity := le_def.mpr h
  rw [toNat_sub_of_le hle]
  change capacity.toNat - 16 + 16 = capacity.toNat
  omega

namespace Makes

variable {str : Bytes} {len capacity : BitVec 32}

lemma toNat_capacity (h : Makes str len capacity) :
    (capacity - 16#32).toNat + headerSize = capacity.toNat := by
  apply toNat_sub_headerSize
  have hlen := h.2.1
  omega

lemma fits (h : Makes str len capacity) :
    (str.take len.toNat).length ≤ (capacity - 16#32).toNat := by
  have hcap := h.toNat_capacity
  have hlen := h.2.1
  rw [List.length_take]
  omega

lemma room (h : Makes str len capacity) : (capacity - 16#32).toNat + headerSize < 2 ^ 31 := by
  rw [h.toNat_capacity]
  exact toNat_lt_of_toInt_nonneg (le_trans (by simp) h.1)

end Makes

/-- `stuffed_str::make` with a size and a capacity that includes the header. -/
def make (str : Bytes) (len capacity : BitVec 32) (val : BitVec 64) : Option StuffedStr :=
  if h : Makes str len capacity then
    some ⟨val, capacity - 16#32, str.take len.toNat, h.fits, h.room⟩
  else none

/-- `stuffed_str::make` of a string. -/
def makeString (s : Bytes) (val : BitVec 64) : Option StuffedStr :=
  make s (.ofNat 32 s.length) (sizeFor (.ofNat 32 s.length)) val

/-- `stuffed_str::needs_resize`. -/
def needsResize (e : StuffedStr) (len : BitVec 32) : Bool := e.capacity.slt len

/-- The bytes that `replace` copies into the object are there. -/
def Copies (e : StuffedStr) (str : Bytes) (len : BitVec 32) : Prop :=
  e.needsResize len = false ∧ 0 ≤ len.toInt ∧ len.toNat ≤ str.length

instance Copies.decidable (e : StuffedStr) (str : Bytes) (len : BitVec 32) :
    Decidable (e.Copies str len) :=
  inferInstanceAs (Decidable (_ ∧ _ ∧ _))

lemma Copies.fits {e : StuffedStr} {str : Bytes} {len : BitVec 32} (h : e.Copies str len) :
    (str.take len.toNat).length ≤ e.capacity.toNat := by
  obtain ⟨hresize, hpos, -⟩ := h
  have hlt := toNat_lt_of_toInt_nonneg hpos
  have hroom := e.room
  unfold needsResize at hresize
  rw [slt_eq_decide, decide_eq_false_iff_not, toInt_eq_toNat_of_lt (by omega),
    toInt_eq_toNat_of_lt (by omega)] at hresize
  rw [List.length_take]
  omega

/-- `stuffed_str::replace`: the object afterwards, and the new object if there had to be one. -/
def replace (e : StuffedStr) (str : Bytes) (len : BitVec 32) :
    Option (StuffedStr × Option StuffedStr) :=
  if e.needsResize len then
    (make str len (sizeFor len) e.stuff).map fun new => (e, some new)
  else if h : e.Copies str len then
    some ({ e with buf := str.take len.toNat, fits := h.fits }, none)
  else none

/-- `versioned_str_struct::set_value`. It asserts that there was no new object, and drops it when
assertions are off. -/
def setValue (ndebug : Bool) (e : StuffedStr) (v : Bytes) : Option StuffedStr :=
  match e.replace v (.ofNat 32 v.length) with
  | none => none
  | some (e', none) => some e'
  | some (e', some _) => if ndebug then some e' else none

/-- `versioned_str_struct::read_value`. -/
def readValue (e : StuffedStr) : Bytes := e.buf

/-! ## What the functions give -/

/-- The two paddings agree where the number fits into 32 bits. -/
lemma toNat_pad (v : BitVec 32) : (pad v).toNat = Sto.pad v.toNat % 2 ^ 32 := by
  unfold pad Sto.pad
  by_cases hsmall : v.toNat ≤ 512
  · -- the code masks the low bits, the model divides: the small sizes are few, so all are tried
    have hround : ∀ n : Fin 513, ((BitVec.ofNat 32 n + 15#32) &&& ~~~15#32).toNat =
        (n + 15) / 16 * 16 % 2 ^ 32 := by
      decide +kernel
    have hv := hround ⟨v.toNat, by omega⟩
    rw [BitVec.ofNat_toNat, BitVec.setWidth_eq] at hv
    rw [if_pos hsmall, if_pos (BitVec.le_def.mpr hsmall), hv]
  · have hone : (v - 1#32).toNat = v.toNat - 1 := by
      apply BitVec.toNat_sub_of_le
      rw [BitVec.le_def]
      change 1 ≤ v.toNat
      omega
    rw [if_neg hsmall, if_neg (fun hle => hsmall (BitVec.le_def.mp hle))]
    simp only [BitVec.toNat_add, BitVec.toNat_or, BitVec.toNat_ushiftRight, hone]
    rfl

/-- A padded size that is positive as an `int` is at most `2 ^ 30`: the next ones are `2 ^ 31`,
which is negative, and `2 ^ 32`, which is 0. -/
lemma toNat_pad_le {v : BitVec 32} (hpos : 0 < (pad v).toInt) : (pad v).toNat ≤ 2 ^ 30 := by
  have hlt := toNat_lt_of_toInt_nonneg hpos.le
  rw [toInt_eq_toNat_of_lt (by omega), toNat_pad] at hpos
  rw [toNat_pad] at hlt ⊢
  have hv := v.isLt
  by_cases hsmall : v.toNat ≤ 2 ^ 30
  · have hle := pad_le (by omega) (by omega) hsmall
    omega
  · by_cases hmid : v.toNat ≤ 2 ^ 31
    · rw [pad_of_between (k := 30) (by omega) (by omega) (by omega) hmid] at hlt
      omega
    · rw [pad_of_between (k := 31) (by omega) (by omega) (by omega) (by omega)] at hpos
      simp at hpos

lemma toNat_sizeFor {n : ℕ} (hn : n + headerSize ≤ 2 ^ 30) :
    (sizeFor (.ofNat 32 n)).toNat = Sto.sizeFor n := by
  unfold headerSize at hn
  have hle := pad_le (v := n + 16) (k := 30) (by omega) (by omega) hn
  have hadd : (BitVec.ofNat 32 n + 16#32).toNat = n + 16 := by
    rw [BitVec.toNat_add, BitVec.toNat_ofNat, BitVec.toNat_ofNat]
    omega
  rw [sizeFor, toNat_pad, hadd, Sto.sizeFor, headerSize]
  omega

/-- A string that is not too long is made into an object that holds it. -/
lemma makeString_spec {s : Bytes} (val : BitVec 64) (hs : s.length + headerSize ≤ 2 ^ 30) :
    ∃ e, makeString s val = some e ∧ e.readValue = s ∧ e.stuff = val ∧
      e.capacity.toNat = capacityFor s.length := by
  have hsize := toNat_sizeFor hs
  have hge := le_pad (s.length + headerSize)
  have hle := pad_le (k := 30) (by omega) (by omega) hs
  have hlen : (BitVec.ofNat 32 s.length).toNat = s.length := by
    rw [BitVec.toNat_ofNat]
    unfold headerSize at hs
    omega
  unfold Sto.sizeFor at hsize
  have hmakes : Makes s (.ofNat 32 s.length) (sizeFor (.ofNat 32 s.length)) := by
    refine ⟨?_, ?_, ?_⟩
    · rw [BitVec.toInt_eq_toNat_of_lt (by omega), hsize]
      omega
    · rw [hlen, hsize]
      exact hge
    · rw [hlen]
  refine ⟨_, dif_pos hmakes, ?_, rfl, ?_⟩
  · change s.take (BitVec.ofNat 32 s.length).toNat = s
    rw [hlen, List.take_length]
  · have hcap := hmakes.toNat_capacity
    change (sizeFor (.ofNat 32 s.length) - 16#32).toNat = _
    unfold capacityFor Sto.sizeFor
    omega

/-- An object that is made of a string holds fewer than `2 ^ 30` bytes. -/
lemma length_of_makeString {s : Bytes} {val : BitVec 64} {e : StuffedStr}
    (h : makeString s val = some e) : e.readValue.length + headerSize ≤ 2 ^ 30 := by
  unfold makeString make at h
  split at h
  · next hmakes =>
    rw [some.injEq] at h
    have hcap : (sizeFor (.ofNat 32 s.length)).toNat ≤ 2 ^ 30 := by
      apply toNat_pad_le
      exact lt_of_lt_of_le (by decide) hmakes.1
    have hfits := e.fits
    have hroom := hmakes.toNat_capacity
    rw [← h] at hfits ⊢
    unfold readValue
    dsimp only at hfits ⊢
    omega
  · simp at h

/-- A value that fits is set in place. -/
lemma setValue_spec (ndebug : Bool) {e : StuffedStr} {v : Bytes}
    (hv : v.length ≤ e.capacity.toNat) :
    ∃ e', e.setValue ndebug v = some e' ∧ e'.readValue = v ∧ e'.stuff = e.stuff ∧
      e'.capacity = e.capacity := by
  have hroom := e.room
  have hlen : (BitVec.ofNat 32 v.length).toNat = v.length := by
    rw [BitVec.toNat_ofNat]
    omega
  have hresize : e.needsResize (.ofNat 32 v.length) = false := by
    unfold needsResize
    rw [BitVec.slt_eq_decide, decide_eq_false_iff_not, BitVec.toInt_eq_toNat_of_lt (by omega),
      BitVec.toInt_eq_toNat_of_lt (by omega), hlen]
    omega
  have hcopies : e.Copies v (.ofNat 32 v.length) := by
    refine ⟨hresize, ?_, ?_⟩
    · rw [BitVec.toInt_eq_toNat_of_lt (by omega)]
      omega
    · rw [hlen]
  unfold setValue replace
  simp only [hresize, Bool.false_eq_true, if_false, dif_pos hcopies]
  refine ⟨_, rfl, ?_, rfl, rfl⟩
  change v.take (BitVec.ofNat 32 v.length).toNat = v
  rw [hlen, List.take_length]

lemma capacity_replace {e e' : StuffedStr} {str : Bytes} {len : BitVec 32}
    {new : Option StuffedStr} (h : e.replace str len = some (e', new)) :
    e'.capacity = e.capacity := by
  unfold replace at h
  split at h
  · rw [map_eq_some_iff] at h
    obtain ⟨_, -, hpair⟩ := h
    rw [Prod.mk.injEq] at hpair
    rw [← hpair.1]
  · split at h
    · rw [some.injEq, Prod.mk.injEq] at h
      rw [← h.1]
    · simp at h

/-- The capacity of an object never changes. -/
lemma capacity_setValue {ndebug : Bool} {e e' : StuffedStr} {v : Bytes}
    (h : e.setValue ndebug v = some e') : e'.capacity = e.capacity := by
  unfold setValue at h
  split at h
  · simp at h
  · next hreplace =>
    rw [some.injEq] at h
    rw [← h, capacity_replace hreplace]
  · next hreplace =>
    split at h
    · rw [some.injEq] at h
      rw [← h, capacity_replace hreplace]
    · simp at h

end StuffedStr

end Rolis.Sto
