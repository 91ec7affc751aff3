import Rolis.Sto.StuffedStr
import Rolis.Sto.TransactionTid

/-!
# The memory of values

`stuffed_str` with its header in memory: `size_`, `capacity_`, the bytes of `buf_` that have been
written and what `malloc` has given. `capacity_` counts the bytes behind the header, but `reserve`
is given the padded size of the whole object and compares it with `capacity_`.

`size_for` is an `int`. Of a value of `2 ^ 30 - 15` bytes or more it is `-2 ^ 31`: `make` asks
`malloc` for a negative size, and `reserve` takes the object for large enough. Up to there, the
calls keep the memory of every object.
-/

namespace Rolis.Sto.ValueBuffer

open Function Lts List Option BitVec

/-! ## An object -/

/-- `stuffed_str<uint64_t>`, and the size of its memory. -/
structure Object where
  stuff : BitVec 64
  size : BitVec 32
  capacity : BitVec 32
  buf : Bytes
  allocated : ℕ

/-- `malloc`, which gives no memory of more than `PTRDIFF_MAX` bytes. -/
def malloc (s : BitVec 64) : Option ℕ := if s.toNat < 2 ^ 63 then some s.toNat else none

/-- `memcpy` to `buf_`. The bytes must be there and there must be memory for them. -/
def copy (allocated : ℕ) (buf str : Bytes) (len : ℕ) : Option Bytes :=
  if headerSize + len ≤ allocated ∧ len ≤ str.length then some (str.take len ++ buf.drop len)
  else none

/-- `stuffed_str::make`, with assertions unless `ndebug`. -/
def make (ndebug : Bool) (str : Bytes) (len capacity : BitVec 32) (val : BitVec 64) :
    Option Object :=
  if ndebug || (StuffedStr.sizeFor len).sle capacity then
    (malloc (capacity.signExtend 64)).bind fun allocated =>
      (copy allocated [] str len.toNat).map fun buf => ⟨val, len, capacity - 16#32, buf, allocated⟩
  else none

/-- `length()` of a string, as an `int`. -/
def length (v : Bytes) : BitVec 32 := .ofNat 32 v.length

/-- `stuffed_str::make` of a string. -/
def makeString (ndebug : Bool) (v : Bytes) (val : BitVec 64) : Option Object :=
  make ndebug v (length v) (StuffedStr.sizeFor (length v)) val

namespace Object

variable (o : Object)

/-- `stuffed_str::needs_resize`. -/
def needsResize (len : BitVec 32) : Bool := o.capacity.slt len

/-- `stuffed_str::reserve`: `some none` is `this`. -/
def reserve (ndebug : Bool) (len : BitVec 32) : Option (Option Object) :=
  if o.needsResize len then (make ndebug o.buf o.size len o.stuff).map some else some none

/-- `versioned_str_struct::resizeIfNeeded`. -/
def resizeIfNeeded (ndebug : Bool) (v : Bytes) : Option (Option Object) :=
  o.reserve ndebug (StuffedStr.sizeFor (length v))

/-- `stuffed_str::replace`: the object afterwards, and the new object if there is one. -/
def replace (ndebug : Bool) (str : Bytes) (len : BitVec 32) : Option (Object × Option Object) :=
  if o.needsResize len then
    (make ndebug str len (StuffedStr.sizeFor len) o.stuff).map fun new => (o, some new)
  else
    (copy o.allocated o.buf str (len.signExtend 64).toNat).map fun buf =>
      ({ o with size := len, buf := buf }, none)

/-- `versioned_str_struct::set_value`. Without the assertion, the new object is lost. -/
def setValue (ndebug : Bool) (v : Bytes) : Option (Object × Option Object) :=
  match o.replace ndebug v (length v) with
  | none => none
  | some (o', none) => some (o', none)
  | some (o', some new) => if ndebug then some (o', some new) else none

/-- `versioned_str_struct::read_value`. -/
def readValue : Bytes := o.buf.take o.size.toNat

/-- The memory of an object is its header and `capacity_` bytes, of a padded size that an `int`
holds. -/
structure Ok : Prop where
  size_le : o.size.toNat ≤ o.buf.length
  buf_le : o.buf.length ≤ o.capacity.toNat
  allocated_eq : o.allocated = o.capacity.toNat + headerSize
  padded : Sto.pad o.allocated = o.allocated
  allocated_le : o.allocated ≤ 2 ^ 30

/-- An object of this version, value and capacity. -/
structure Holds (val : BitVec 64) (v : Bytes) (capacity : ℕ) : Prop extends o.Ok where
  stuff_eq : o.stuff = val
  value_eq : o.readValue = v
  capacity_eq : o.capacity.toNat = capacity

end Object

/-! ## The calls -/

/-- A value of fewer than `2 ^ 30` bytes. -/
abbrev Value := { v : Bytes // v.length < 2 ^ 30 }

/-- The calls of `MassTrans`. -/
inductive Call
  | make (v : Value) (val : BitVec 64)
  | resizeIfNeeded (e : ℕ) (v : Value)
  | setValue (e : ℕ) (v : Value)

/-- The objects that have been made. `fitted` is history: the objects that `resizeIfNeeded` has
returned, each with its value. `stopped` says that a call did not return. -/
structure Heap where
  objects : List Object := []
  fitted : List (ℕ × Value) := []
  stopped : Bool := false

namespace Heap

variable (h : Heap)

def stop : Heap := { h with stopped := true }

/-- One call. -/
def step (ndebug : Bool) (c : Call) : Option Heap :=
  if h.stopped then none
  else
    match c with
    | .make v val =>
      match makeString ndebug v.1 val with
      | some o => some { h with objects := h.objects ++ [o] }
      | none => some h.stop
    | .resizeIfNeeded e v => h.objects[e]?.map fun o =>
      match o.resizeIfNeeded ndebug v.1 with
      | some (some new) =>
        { h with
          objects := h.objects ++ [new]
          fitted := (h.objects.length, v) :: h.fitted }
      | some none => { h with fitted := (e, v) :: h.fitted }
      | none => h.stop
    | .setValue e v => h.objects[e]?.map fun o =>
      match o.setValue ndebug v.1 with
      | some (o', new) => { h with objects := h.objects.set e o' ++ new.toList }
      | none => h.stop

end Heap

/-- The calls on one heap. -/
def heap (ndebug : Bool) : System Heap Call where
  init := {}
  step h := h.step ndebug

/-- What a call returns. `make` returns an object of the value and the version. `resizeIfNeeded`
returns an object that has both from the old one, a new one if `needsResize` says so. `set_value`
sets the value in place if the object is what `resizeIfNeeded` has returned for it. -/
def Answered (h h' : Heap) : Call → Prop
  | .make v val => ∃ o, h'.objects = h.objects ++ [o] ∧ o.readValue = v.1 ∧ o.stuff = val
  | .resizeIfNeeded e v => ∀ o, h.objects[e]? = some o →
      ∃ e' o', h'.fitted = (e', v) :: h.fitted ∧ h'.objects[e']? = some o' ∧
        o'.readValue = o.readValue ∧ o'.stuff = o.stuff ∧
        (o.needsResize (length v.1) = true → h.objects.length ≤ e')
  | .setValue e v => (e, v) ∈ h.fitted →
      ∃ o', h'.objects = h.objects.set e o' ∧ o'.readValue = v.1

/-- What is kept by a call. -/
structure Kept (h : Heap) (c : Call) (h' : Heap) : Prop where
  pads : ∀ x : BitVec 32, x.toNat < 2 ^ 30 + headerSize → x ≤ StuffedStr.pad x
  sizes : ∀ o ∈ h'.objects, o.size ≤ o.capacity ∧ o.allocated = o.capacity.toNat + headerSize
  answered : Answered h h' c

/-- The padded size of the value is positive as an `int`. -/
def Call.Small : Call → Prop
  | .make v _ => v.1.length + headerSize ≤ 2 ^ 30
  | .resizeIfNeeded _ v => v.1.length + headerSize ≤ 2 ^ 30
  | .setValue _ _ => True

/-! ## What the functions return -/

lemma toNat_length {v : Bytes} (hv : v.length < 2 ^ 30) : (length v).toNat = v.length := by
  rw [length, toNat_ofNat]
  omega

/-- Sizes below `2 ^ 31` are the same as `int` and as `size_t`. -/
lemma toNat_signExtend {x : BitVec 32} (hx : x.toNat < 2 ^ 31) :
    (x.signExtend 64).toNat = x.toNat := by
  have hmsb : x.msb = false := msb_eq_false_iff_two_mul_lt.mpr (by omega)
  rw [signExtend_eq_setWidth_of_msb_false hmsb, toNat_setWidth]
  omega

lemma slt_eq {x y : BitVec 32} (hx : x.toNat < 2 ^ 31) (hy : y.toNat < 2 ^ 31) :
    x.slt y = decide (x.toNat < y.toNat) := by
  rw [slt_eq_decide, toInt_eq_toNat_of_lt (by omega), toInt_eq_toNat_of_lt (by omega)]
  simp

/-- Beyond `2 ^ 30`, the padded size is the least `int`. -/
lemma sizeFor_of_long {v : Bytes} (hv : v.length < 2 ^ 30)
    (hlong : 2 ^ 30 < v.length + headerSize) :
    StuffedStr.sizeFor (length v) = 0x80000000#32 := by
  unfold headerSize at hlong
  have hadd : (length v + 16#32).toNat = v.length + 16 := by
    rw [toNat_add, toNat_length hv, toNat_ofNat]
    omega
  apply eq_of_toNat_eq
  rw [StuffedStr.sizeFor, StuffedStr.toNat_pad, hadd,
    pad_of_between (k := 30) (by omega) (by omega) hlong (by omega)]
  rfl

/-- `make` with a padded size that is no less than that of the string. -/
lemma make_spec (ndebug : Bool) {str : Bytes} {len capacity : BitVec 32} (val : BitVec 64)
    (hsize : (StuffedStr.sizeFor len).toNat ≤ capacity.toNat)
    (hpadded : Sto.pad capacity.toNat = capacity.toNat) (hmax : capacity.toNat ≤ 2 ^ 30)
    (hroom : len.toNat + headerSize ≤ capacity.toNat) (hstr : len.toNat ≤ str.length) :
    ∃ o, make ndebug str len capacity val = some o ∧
      o.Holds val (str.take len.toNat) (capacity.toNat - headerSize) := by
  have hassert : (StuffedStr.sizeFor len).sle capacity = true := by
    rw [sle_eq_decide, toInt_eq_toNat_of_lt (by omega),
      toInt_eq_toNat_of_lt (by omega), decide_eq_true_iff]
    omega
  have hmalloc : malloc (capacity.signExtend 64) = some capacity.toNat := by
    rw [malloc, toNat_signExtend (by omega), if_pos (by omega)]
  have hcap : (capacity - 16#32).toNat + headerSize = capacity.toNat :=
    StuffedStr.toNat_sub_headerSize (by omega)
  have hbuf : (str.take len.toNat).length = len.toNat := by
    rw [length_take]
    omega
  refine ⟨⟨val, len, capacity - 16#32, str.take len.toNat, capacity.toNat⟩, ?_,
    ⟨hbuf.ge, by dsimp only; omega, hcap.symm, hpadded, hmax⟩, rfl, ?_, by dsimp only; omega⟩
  · rw [make, hassert, Bool.or_true, if_pos rfl, hmalloc, bind_some, copy,
      if_pos ⟨by omega, hstr⟩, map_some, drop_nil, append_nil]
  · rw [Object.readValue, take_take, Nat.min_self]

lemma makeString_spec (ndebug : Bool) {v : Bytes} (val : BitVec 64)
    (hv : v.length + headerSize ≤ 2 ^ 30) :
    ∃ o, makeString ndebug v val = some o ∧ o.Holds val v (capacityFor v.length) := by
  have hlen := toNat_length (v := v) (by unfold headerSize at hv; omega)
  have hsize : (StuffedStr.sizeFor (length v)).toNat = Sto.pad (v.length + headerSize) :=
    StuffedStr.toNat_sizeFor hv
  have hge := le_pad (v.length + headerSize)
  have hle := pad_le (k := 30) (by omega) (by omega) hv
  obtain ⟨o, hmake, hnew⟩ := make_spec ndebug val (Nat.le_refl _)
    (by rw [hsize, pad_pad (by omega)]) (by omega) (by omega) hlen.le
  rw [hlen, take_length, hsize] at hnew
  exact ⟨o, hmake, hnew⟩

lemma makeString_of_long (ndebug : Bool) {v : Bytes} (val : BitVec 64) (hv : v.length < 2 ^ 30)
    (hlong : 2 ^ 30 < v.length + headerSize) : makeString ndebug v val = none := by
  have hmalloc : malloc ((0x80000000#32).signExtend 64) = none := by decide
  rw [makeString, make, sizeFor_of_long hv hlong, hmalloc]
  simp

namespace Object

variable {o : Object} {v : Bytes}

section

variable (h : o.Ok)

include h

lemma Ok.capacity_lt : o.capacity.toNat < 2 ^ 30 := by
  have heq := h.allocated_eq
  have hle := h.allocated_le
  unfold headerSize at heq
  omega

/-- An `int` that is not negative is compared with the capacity as a number. -/
lemma Ok.needsResize_eq (len : BitVec 32) (hlen : len.toNat < 2 ^ 31) :
    o.needsResize len = decide (o.capacity.toNat < len.toNat) := by
  have hcap := h.capacity_lt
  exact slt_eq (by omega) hlen

lemma Ok.needsResize_length (hv : v.length < 2 ^ 30) :
    o.needsResize (length v) = decide (o.capacity.toNat < v.length) := by
  have hlen := toNat_length hv
  rw [h.needsResize_eq _ (by omega), hlen]

/-- A padded size that is above the capacity is above the size of the memory: both are multiples of
16, and so is the header. -/
lemma Ok.allocated_le_of_lt {n : ℕ} (hn : 16 ∣ n) (hlt : o.capacity.toNat < n) :
    o.allocated ≤ n := by
  have hle := h.allocated_le
  have hdvd : 16 ∣ o.allocated := by
    rw [← h.padded]
    exact sixteen_dvd_pad (by omega)
  have heq := h.allocated_eq
  unfold headerSize at heq
  omega

/-- What is in an object needs no more than the memory of the object. -/
lemma Ok.sizeFor_size_le : (StuffedStr.sizeFor o.size).toNat ≤ o.allocated := by
  have hsize := h.size_le
  have hbuf := h.buf_le
  have heq := h.allocated_eq
  have hle := h.allocated_le
  have hnat : BitVec.ofNat 32 o.size.toNat = o.size := by
    rw [BitVec.ofNat_toNat, BitVec.setWidth_eq]
  rw [← hnat, StuffedStr.toNat_sizeFor (by omega)]
  calc Sto.pad (o.size.toNat + headerSize) ≤ Sto.pad o.allocated :=
        pad_mono (by omega) (by omega)
    _ = o.allocated := h.padded

/-- `resizeIfNeeded` for a value that is not too long: the object has room for the value, or a new
one has. -/
lemma Ok.resizeIfNeeded_spec (ndebug : Bool) (hv : v.length + headerSize ≤ 2 ^ 30) :
    (o.resizeIfNeeded ndebug v = some none ∧ v.length ≤ o.capacity.toNat) ∨
      ∃ new, o.resizeIfNeeded ndebug v = some (some new) ∧
        new.Holds o.stuff o.readValue (capacityFor v.length) := by
  have hsize : (StuffedStr.sizeFor (length v)).toNat = Sto.pad (v.length + headerSize) :=
    StuffedStr.toNat_sizeFor hv
  have hge := le_pad (v.length + headerSize)
  have hle := pad_le (k := 30) (by omega) (by omega) hv
  have hneeds := h.needsResize_eq (StuffedStr.sizeFor (length v)) (by omega)
  rw [resizeIfNeeded, reserve]
  by_cases hroom : o.capacity.toNat < (StuffedStr.sizeFor (length v)).toNat
  · right
    rw [hneeds, decide_eq_true hroom, if_pos rfl]
    have hdvd : 16 ∣ (StuffedStr.sizeFor (length v)).toNat := by
      rw [hsize]
      exact sixteen_dvd_pad (by omega)
    have hgrow := h.allocated_le_of_lt hdvd hroom
    have hold : (StuffedStr.sizeFor o.size).toNat ≤ (StuffedStr.sizeFor (length v)).toNat :=
      h.sizeFor_size_le.trans hgrow
    have hfits := h.size_le
    have hbuf := h.buf_le
    have heq := h.allocated_eq
    obtain ⟨new, hmake, hnew⟩ := make_spec ndebug o.stuff hold
      (by rw [hsize, pad_pad (by omega)]) (by omega) (by omega) h.size_le
    rw [hsize] at hnew
    exact ⟨new, by rw [hmake, map_some], hnew⟩
  · left
    rw [hneeds, decide_eq_false hroom]
    exact ⟨rfl, by omega⟩

lemma Ok.resizeIfNeeded_of_long (ndebug : Bool) (hv : v.length < 2 ^ 30)
    (hlong : 2 ^ 30 < v.length + headerSize) :
    o.resizeIfNeeded ndebug v = some none ∧ o.needsResize (length v) = true := by
  have hcap := h.capacity_lt
  constructor
  · -- nothing is larger than the least `int`
    have hslt : o.capacity.slt 0x80000000#32 = false := by
      rw [slt_eq_decide, toInt_eq_toNat_of_lt (by omega), decide_eq_false_iff_not]
      have hmin : (0x80000000#32).toInt = -2 ^ 31 := by decide
      rw [hmin]
      omega
    rw [resizeIfNeeded, reserve, sizeFor_of_long hv hlong, needsResize, hslt]
    rfl
  · have heq := h.allocated_eq
    have hle := h.allocated_le
    rw [h.needsResize_length hv, decide_eq_true_iff]
    omega

/-- A value for which there is room is set in place. -/
lemma Ok.setValue_of_le (ndebug : Bool) (hv : v.length ≤ o.capacity.toNat) :
    ∃ o', o.setValue ndebug v = some (o', none) ∧ o'.Holds o.stuff v o.capacity.toNat := by
  have hcap := h.capacity_lt
  have heq := h.allocated_eq
  have hbuf := h.buf_le
  have hlen := toNat_length (v := v) (by omega)
  have hneeds : o.needsResize (length v) = false := by
    rw [h.needsResize_length (by omega), decide_eq_false_iff_not]
    omega
  have hcopy : copy o.allocated o.buf v ((length v).signExtend 64).toNat =
      some (v ++ o.buf.drop v.length) := by
    rw [toNat_signExtend (by omega), hlen, copy, if_pos ⟨by omega, Nat.le_refl _⟩, take_length]
  refine ⟨{ o with size := length v, buf := v ++ o.buf.drop v.length }, ?_, ?_, rfl, ?_, rfl⟩
  · rw [setValue, replace, hneeds, hcopy]
    rfl
  · -- the bytes behind the value stay where they are
    refine ⟨?_, ?_, heq, h.padded, h.allocated_le⟩
    · rw [length_append]
      dsimp only
      omega
    · rw [length_append, length_drop]
      dsimp only
      omega
  · rw [readValue]
    dsimp only
    rw [hlen, take_left]

/-- A value for which there is no room stops the program, or the object stays as it is. -/
lemma Ok.setValue_of_lt (ndebug : Bool) (hv : v.length < 2 ^ 30)
    (hlt : o.capacity.toNat < v.length) :
    o.setValue ndebug v = none ∨ ∃ new, o.setValue ndebug v = some (o, some new) ∧ new.Ok := by
  have hneeds : o.needsResize (length v) = true := by
    rw [h.needsResize_length hv, decide_eq_true_iff]
    exact hlt
  have hreplace : o.replace ndebug v (length v) =
      (makeString ndebug v o.stuff).map fun new => (o, some new) := by
    rw [replace, hneeds]
    rfl
  rw [setValue, hreplace]
  by_cases hlong : v.length + headerSize ≤ 2 ^ 30
  · obtain ⟨new, hmake, hnew⟩ := makeString_spec ndebug o.stuff hlong
    rw [hmake]
    cases ndebug with
    | false => exact .inl rfl
    | true => exact .inr ⟨new, rfl, hnew.toOk⟩
  · left
    rw [makeString_of_long ndebug o.stuff hv (by omega)]
    rfl

end

end Object

/-! ## The heap -/

variable {h h' : Heap} {c : Call} {e : ℕ} {v : Value} {o : Object} {ndebug : Bool}

/-- Every object is as it should be, and one that was fitted to a value has room for it. -/
structure Ok (h : Heap) : Prop where
  objects : ∀ o ∈ h.objects, o.Ok
  fitted : ∀ e v, (e, v) ∈ h.fitted →
    ∃ o, h.objects[e]? = some o ∧ v.1.length ≤ o.capacity.toNat

namespace Ok

/-- More objects, with the same ones in the places that were fitted. -/
lemma of_objects (hok : Ok h) {objects : List Object} (hobjects : ∀ o ∈ objects, o.Ok)
    (hcap : ∀ (e : ℕ) (o : Object), h.objects[e]? = some o →
      ∃ o', objects[e]? = some o' ∧ o'.capacity.toNat = o.capacity.toNat) :
    Ok { h with objects := objects } := by
  refine ⟨hobjects, ?_⟩
  intro e v hfit
  obtain ⟨o, he, hroom⟩ := hok.fitted e v hfit
  obtain ⟨o', he', heq⟩ := hcap e o he
  exact ⟨o', he', heq.symm ▸ hroom⟩

lemma add (hok : Ok h) (ho : o.Ok) : Ok { h with objects := h.objects ++ [o] } := by
  apply hok.of_objects
  · intro o' ho'
    cases List.mem_append.mp ho' with
    | inl hold => exact hok.objects o' hold
    | inr hnew => exact List.mem_singleton.mp hnew ▸ ho
  · intro e o' he
    have hlt := (List.getElem?_eq_some_iff.mp he).1
    exact ⟨o', (List.getElem?_append_left hlt).trans he, rfl⟩

lemma fit (hok : Ok h) (he : h.objects[e]? = some o) (hroom : v.1.length ≤ o.capacity.toNat) :
    Ok { h with fitted := (e, v) :: h.fitted } := by
  refine ⟨hok.objects, ?_⟩
  intro e' v' hfit
  cases hfit with
  | head => exact ⟨o, he, hroom⟩
  | tail _ hfit => exact hok.fitted e' v' hfit

lemma stop (hok : Ok h) : Ok h.stop := ⟨hok.objects, hok.fitted⟩

/-- An object keeps its place and its capacity. -/
lemma set (hok : Ok h) {o' : Object} (he : h.objects[e]? = some o) (ho : o'.Ok)
    (hcap : o'.capacity.toNat = o.capacity.toNat) :
    Ok { h with objects := h.objects.set e o' } := by
  have hlt := (List.getElem?_eq_some_iff.mp he).1
  apply hok.of_objects
  · intro x hx
    cases List.mem_or_eq_of_mem_set hx with
    | inl hold => exact hok.objects x hold
    | inr hnew => exact hnew ▸ ho
  · intro i x hi
    by_cases hie : e = i
    · subst hie
      cases he.symm.trans hi
      exact ⟨o', List.getElem?_set_self hlt, hcap⟩
    · exact ⟨x, (List.getElem?_set_ne hie).trans hi, rfl⟩

end Ok

/-- A call returns what it should just if its value is not too long, and keeps the heap then. -/
structure Sound (h : Heap) (c : Call) (h' : Heap) : Prop where
  answered_iff : Answered h h' c ↔ c.Small
  ok : c.Small → Ok h'

lemma Ok.make (hok : Ok h) {val : BitVec 64} (hstep : h.step ndebug (.make v val) = some h') :
    Sound h (.make v val) h' := by
  unfold Heap.step at hstep
  split at hstep
  · simp at hstep
  · by_cases hsmall : v.1.length + headerSize ≤ 2 ^ 30
    · obtain ⟨o, hmake, ho⟩ := makeString_spec ndebug val hsmall
      simp only [hmake] at hstep
      cases hstep
      exact ⟨⟨fun _ => hsmall, fun _ => ⟨o, rfl, ho.value_eq, ho.stuff_eq⟩⟩,
        fun _ => hok.add ho.toOk⟩
    · simp only [makeString_of_long ndebug val v.2 (by omega)] at hstep
      cases hstep
      refine ⟨⟨?_, fun hle => absurd hle hsmall⟩, fun hle => absurd hle hsmall⟩
      -- there is no new object
      rintro ⟨o, hobjects, -⟩
      have hlen := congrArg List.length hobjects
      simp [Heap.stop] at hlen

lemma Ok.resizeIfNeeded (hok : Ok h) (hstep : h.step ndebug (.resizeIfNeeded e v) = some h') :
    Sound h (.resizeIfNeeded e v) h' := by
  unfold Heap.step at hstep
  split at hstep
  · simp at hstep
  · rw [map_eq_some_iff] at hstep
    obtain ⟨o, he, hstep⟩ := hstep
    have ho := hok.objects o (List.mem_of_getElem? he)
    by_cases hsmall : v.1.length + headerSize ≤ 2 ^ 30
    · cases ho.resizeIfNeeded_spec ndebug hsmall with
      | inl hkeep =>
        rw [hkeep.1] at hstep
        subst hstep
        refine ⟨⟨fun _ => hsmall, ?_⟩, fun _ => hok.fit he hkeep.2⟩
        intro _ o' he'
        cases he.symm.trans he'
        refine ⟨e, o, rfl, he, rfl, rfl, ?_⟩
        intro hneeds
        rw [ho.needsResize_length v.2, decide_eq_true_iff] at hneeds
        have hroom := hkeep.2
        omega
      | inr hgrow =>
        obtain ⟨new, hres, hnew⟩ := hgrow
        rw [hres] at hstep
        subst hstep
        have hlast : (h.objects ++ [new])[h.objects.length]? = some new := by simp
        refine ⟨⟨fun _ => hsmall, ?_⟩, fun _ => ?_⟩
        · intro _ o' he'
          cases he.symm.trans he'
          exact ⟨h.objects.length, new, rfl, hlast, hnew.value_eq, hnew.stuff_eq,
            fun _ => Nat.le_refl _⟩
        · apply (hok.add hnew.toOk).fit hlast
          rw [hnew.capacity_eq]
          exact le_capacityFor _
    · obtain ⟨hsame, hneeds⟩ := ho.resizeIfNeeded_of_long ndebug v.2 (by omega)
      rw [hsame] at hstep
      subst hstep
      refine ⟨⟨?_, fun hle => absurd hle hsmall⟩, fun hle => absurd hle hsmall⟩
      -- the object that is returned was there before
      intro hans
      obtain ⟨e', o', hfit, -, -, -, hnew⟩ := hans o he
      have hsame : (e, v) :: h.fitted = (e', v) :: h.fitted := hfit
      cases hsame
      have hlt := (List.getElem?_eq_some_iff.mp he).1
      have hge := hnew hneeds
      omega

lemma Ok.setValue (hok : Ok h) (hstep : h.step ndebug (.setValue e v) = some h') :
    Sound h (.setValue e v) h' := by
  unfold Heap.step at hstep
  split at hstep
  · simp at hstep
  · rw [map_eq_some_iff] at hstep
    obtain ⟨o, he, hstep⟩ := hstep
    have ho := hok.objects o (mem_of_getElem? he)
    by_cases hroom : v.1.length ≤ o.capacity.toNat
    · obtain ⟨o', hset, ho'⟩ := ho.setValue_of_le ndebug hroom
      rw [hset] at hstep
      simp only [toList_none, append_nil] at hstep
      subst hstep
      exact ⟨⟨fun _ => trivial, fun _ _ => ⟨o', rfl, ho'.value_eq⟩⟩,
        fun _ => hok.set he ho'.toOk ho'.capacity_eq⟩
    · have hnot : (e, v) ∉ h.fitted := by
        intro hfit
        obtain ⟨o', he', hle⟩ := hok.fitted e v hfit
        cases he.symm.trans he'
        exact hroom hle
      refine ⟨⟨fun _ => trivial, fun _ hfit => absurd hfit hnot⟩, fun _ => ?_⟩
      cases ho.setValue_of_lt ndebug v.2 (by omega) with
      | inl hfails =>
        rw [hfails] at hstep
        subst hstep
        exact hok.stop
      | inr hlose =>
        obtain ⟨new, hnew, hnewok⟩ := hlose
        rw [hnew] at hstep
        subst hstep
        exact (hok.set he ho rfl).add hnewok

lemma Ok.sound (hok : Ok h) (hstep : h.step ndebug c = some h') : Sound h c h' := by
  cases c with
  | make v val => exact hok.make hstep
  | resizeIfNeeded e v => exact hok.resizeIfNeeded hstep
  | setValue e v => exact hok.setValue hstep

lemma le_pad_of_lt (x : BitVec 32) (hx : x.toNat < 2 ^ 30 + headerSize) : x ≤ StuffedStr.pad x := by
  unfold headerSize at hx
  have hge := le_pad x.toNat
  have hle := pad_le (k := 31) (v := x.toNat) (by omega) (by omega) (by omega)
  rw [le_def, StuffedStr.toNat_pad]
  omega

lemma Sound.kept_iff (hs : Sound h c h') : Kept h c h' ↔ c.Small := by
  constructor
  · intro hkept
    exact hs.answered_iff.mp hkept.answered
  · intro hsmall
    refine ⟨le_pad_of_lt, ?_, hs.answered_iff.mpr hsmall⟩
    intro o ho
    have hobj := (hs.ok hsmall).objects o ho
    exact ⟨le_def.mpr (hobj.size_le.trans hobj.buf_le), hobj.allocated_eq⟩

lemma ok_init (ndebug : Bool) : Ok (heap ndebug).init := by
  constructor
  · intro o ho
    cases ho
  · intro e v hfit
    cases hfit

/-- In a sequence of calls, every call keeps the objects and returns what it should just if no value
that is made or made room for is longer than `2 ^ 30 - 16` bytes. -/
theorem along_kept_iff (ndebug : Bool) (calls : List Call) :
    Along (heap ndebug) Kept (heap ndebug).init calls ↔
      Along (heap ndebug) (fun _ c _ => c.Small) (heap ndebug).init calls := by
  apply along_iff Ok _ _ calls (ok_init ndebug)
  · intro h c h' hok hstep
    exact (hok.sound hstep).kept_iff
  · intro h c h' hok hstep hsmall
    exact (hok.sound hstep).ok hsmall

/-- An object is not replaced for a value that is too long. -/
lemma not_along_kept {short long : Value} (val : BitVec 64)
    (hshort : short.1.length + headerSize ≤ 2 ^ 30) (hlong : 2 ^ 30 < long.1.length + headerSize) :
    ¬Along (heap ndebug) Kept (heap ndebug).init [.make short val, .resizeIfNeeded 0 long] := by
  intro hall
  obtain ⟨o, hmake, ho⟩ := makeString_spec ndebug val hshort
  have hsame := (ho.toOk.resizeIfNeeded_of_long ndebug long.2 hlong).1
  have hfirst : Heap.step {} ndebug (.make short val) = some { objects := [o] } := by
    simp only [Heap.step, hmake]
    rfl
  have hsecond : Heap.step { objects := [o] } ndebug (.resizeIfNeeded 0 long) =
      some { objects := [o], fitted := [(0, long)] } := by
    simp only [Heap.step, getElem?_cons_zero, map_some, hsame]
    rfl
  have hok := ((ok_init ndebug).sound hfirst).ok hshort
  have hkept := ((hall _ hfirst).2 _ hsecond).1
  exact absurd ((hok.sound hsecond).kept_iff.mp hkept) (Nat.not_le_of_lt hlong)

/-- A value of `n` zeros. -/
def zeros (n : ℕ) (hn : n < 2 ^ 30) : Value :=
  ⟨List.replicate n 0, List.length_replicate.trans_lt hn⟩

lemma length_zeros {n : ℕ} (hn : n < 2 ^ 30) : (zeros n hn).1.length = n :=
  length_replicate

/-- A table has a value of one byte and is to put one of `2 ^ 30 - 15` bytes. -/
theorem not_along_kept_of_one_byte :
    ¬Along (heap false) Kept (heap false).init
      [.make (zeros 1 (by decide)) Tid.invalidBit,
        .resizeIfNeeded 0 (zeros (2 ^ 30 - 15) (by decide))] := by
  apply not_along_kept
  · rw [length_zeros]
    decide
  · rw [length_zeros]
    decide

end Rolis.Sto.ValueBuffer
