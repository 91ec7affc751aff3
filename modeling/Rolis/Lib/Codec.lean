import Mathlib.Control.Basic
import Rolis.Lib.Bytes

/-!
# Writing to a stream and reading it back

A reader takes a value off the front of a stream of bytes, or fails. `Reads get bs a` says that
`get` takes just the bytes `bs` off any stream that starts with them, and that they are the value
`a`; the rules below put readers together as a program does, one after the other or as often as a
count says. A `Codec` is a writer and a reader that belong together.
-/

variable {α γ : Type}

/-- A reader of a stream. -/
abbrev Get (α : Type) := StateT Bytes Option α

namespace Get

open Option

/-- The reader takes just these bytes off the front, and they are the value. -/
def Reads (x : Get α) (bs : Bytes) (a : α) : Prop := ∀ rest, x (bs ++ rest) = some (a, rest)

variable {x : Get α} {f : α → Get γ} {bs cs s t : Bytes} {a : α} {c : γ}

lemma bind_apply_eq_some_iff :
    (x >>= f) s = some (c, t) ↔ ∃ a s', x s = some (a, s') ∧ f a s' = some (c, t) := by
  change (x s).bind (fun p => f p.1 p.2) = some (c, t) ↔ _
  rw [bind_eq_some_iff]
  constructor
  · rintro ⟨⟨a, s'⟩, hx, hf⟩
    exact ⟨a, s', hx, hf⟩
  · rintro ⟨a, s', hx, hf⟩
    exact ⟨(a, s'), hx, hf⟩

/-- The last reader of a program stops where the program does. -/
lemma map_apply_eq_some_iff {g : α → γ} :
    (x >>= fun a => pure (g a)) s = some (c, t) ↔ ∃ a, x s = some (a, t) ∧ g a = c := by
  rw [bind_apply_eq_some_iff]
  constructor
  · rintro ⟨a, s', hx, hpure⟩
    obtain ⟨hg, rfl⟩ := Prod.mk.inj (some.inj hpure)
    exact ⟨a, hx, hg⟩
  · rintro ⟨a, hx, rfl⟩
    exact ⟨a, t, hx, rfl⟩

lemma Reads.bind_apply (h : Reads x bs a) (f : α → Get γ) (s : Bytes) :
    (x >>= f) (bs ++ s) = f a s := by
  change (x (bs ++ s)).bind (fun p => f p.1 p.2) = f a s
  rw [h s]
  rfl

lemma Reads.bind (hx : Reads x bs a) (hf : Reads (f a) cs c) : Reads (x >>= f) (bs ++ cs) c := by
  intro rest
  rw [List.append_assoc, hx.bind_apply, hf rest]

lemma Reads.map (hx : Reads x bs a) (g : α → γ) : Reads (x >>= fun a => pure (g a)) bs (g a) := by
  intro rest
  rw [hx.bind_apply]
  rfl

/-- Read as many values as a count says. -/
def many (x : Get α) (n : ℕ) : Get (List α) := Bytes.readN x n

lemma many_succ (x : Get α) (n : ℕ) :
    many x (n + 1) = x >>= fun a => many x n >>= fun as => pure (a :: as) := by
  funext s
  change Bytes.readN x (n + 1) s = (x s).bind fun p => (Bytes.readN x n p.2).bind fun q =>
    some (p.1 :: q.1, q.2)
  rw [Bytes.readN]
  cases x s with
  | none => rfl
  | some p =>
    change (Bytes.readN x n p.2).map _ = (Bytes.readN x n p.2).bind _
    rw [map_eq_bind]
    rfl

lemma length_of_many {n : ℕ} {as : List α} (h : many x n s = some (as, t)) : as.length = n := by
  induction n generalizing s t as with
  | zero =>
    obtain ⟨rfl, -⟩ := Prod.mk.inj (some.inj h)
    rfl
  | succ n ih =>
    rw [many_succ, bind_apply_eq_some_iff] at h
    obtain ⟨a, s₁, -, h⟩ := h
    rw [map_apply_eq_some_iff] at h
    obtain ⟨as', hmany, rfl⟩ := h
    rw [List.length_cons, ih hmany]

/-- What is read one by one is read by the count. -/
lemma reads_many {e : γ → Bytes} {f : γ → α} {cs : List γ} (h : ∀ c ∈ cs, Reads x (e c) (f c)) :
    Reads (many x cs.length) (cs.flatMap e) (cs.map f) := by
  intro rest
  have hreads : ∀ c ∈ cs, ∀ rest : Bytes, 0 ≤ rest.length →
      ∃ a, x (e c ++ rest) = some (a, rest) ∧ id a = f c := by
    intro c hc rest _
    exact ⟨f c, h c hc rest, rfl⟩
  obtain ⟨as, has, hmap⟩ := Bytes.readN_flatMap hreads (Nat.zero_le _)
  rw [List.map_id] at hmap
  rw [← hmap]
  exact has

end Get

/-- A writer and a reader of the values of a type. -/
structure Codec (α : Type) where
  put : α → Bytes
  get : Get α
  reads : ∀ a, get.Reads (put a) a

namespace Codec

lemma reads_many (c : Codec α) (as : List α) :
    (Get.many c.get as.length).Reads (as.flatMap c.put) as := by
  have hreads : ∀ a ∈ as, c.get.Reads (c.put a) (id a) := by
    intro a _
    exact c.reads a
  have h := Get.reads_many hreads
  rwa [List.map_id] at h

/-- Two values one after the other. -/
def pair (c : Codec α) (d : Codec γ) : Codec (α × γ) where
  put p := c.put p.1 ++ d.put p.2
  get := do
    let a ← c.get
    let b ← d.get
    pure (a, b)
  reads p := (c.reads p.1).bind ((d.reads p.2).map _)

/-- An integer of `w` bytes as it is in memory. -/
def word (w : ℕ) : Codec (BitVec (8 * w)) where
  put x := Bytes.encode w x.toNat
  get s := (Bytes.readNat w s).map fun p => (BitVec.ofNat _ p.1, p.2)
  reads := by
    intro x rest
    have hlt : x.toNat < 256 ^ w := by
      have hx := x.isLt
      rwa [pow_mul] at hx
    change (Bytes.readNat w (Bytes.encode w x.toNat ++ rest)).map _ = _
    rw [Bytes.readNat_encode hlt, Option.map_some, BitVec.ofNat_toNat, BitVec.setWidth_eq]

/-- A string of fewer than `n` bytes behind its length, which takes `w` bytes. -/
def string (w n : ℕ) (h : n ≤ 256 ^ w) : Codec {s : Bytes // s.length < n} where
  put s := Bytes.encode w s.1.length ++ s.1
  get s := (Bytes.readNat w s).bind fun p => (Bytes.read p.1 p.2).bind fun q =>
    if hq : q.1.length < n then some (⟨q.1, hq⟩, q.2) else none
  reads := by
    intro s rest
    change (Bytes.readNat w (Bytes.encode w s.1.length ++ s.1 ++ rest)).bind _ = _
    rw [List.append_assoc, Bytes.readNat_encode (s.2.trans_le h), Option.bind_some,
      Bytes.read_append, Option.bind_some, dif_pos s.2]

end Codec
