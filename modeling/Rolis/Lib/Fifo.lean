import Mathlib.Order.Basic

/-!
# Ordered channels in one list

The messages that are under way stand in one list, in the order in which they were sent; `link`
says which channel a message is on. A channel delivers in order when a message is only taken
from a position that is `First` on its channel.

`Behind net p q` says that every `q` has a `p` ahead of it. New messages keep it, and so does
taking a message other than `p` (`Behind.append`, `Behind.eraseIdx`). Hence a `q` that is first
on the channel it shares with `p` is not behind one (`Behind.not_first`): `p` was taken before.
-/

namespace Fifo

open List

variable {α β : Type*} {net out : List α} {p q : α} {k : ℕ}

/-- No message ahead of position `k` is on the same channel. -/
def First (link : α → β) (net : List α) (k : ℕ) : Prop :=
  ∀ j < k, ∀ p ∈ net[j]?, ∀ q ∈ net[k]?, link p ≠ link q

instance [DecidableEq β] (link : α → β) (net : List α) (k : ℕ) : Decidable (First link net k) :=
  inferInstanceAs (Decidable (∀ j < k, ∀ p ∈ net[j]?, ∀ q ∈ net[k]?, link p ≠ link q))

/-- Every `q` has a `p` ahead of it. -/
def Behind (net : List α) (p q : α) : Prop :=
  ∀ k : ℕ, net[k]? = some q → ∃ j < k, net[j]? = some p

lemma Behind.not_first (h : Behind net p q) {link : α → β} (hlink : link p = link q)
    (hk : net[k]? = some q) : ¬ First link net k := by
  intro hfirst
  obtain ⟨j, hj, hp⟩ := h k hk
  exact hfirst j hj p hp q hk hlink

/-- A new message is behind everything that is under way. -/
lemma behind_append (hq : q ∉ net) (hp : p ∈ net) : Behind (net ++ out) p q := by
  intro k hk
  obtain ⟨j, hj, rfl⟩ := mem_iff_getElem.mp hp
  by_cases hlt : k < net.length
  · rw [getElem?_append_left hlt] at hk
    exact absurd (mem_of_getElem? hk) hq
  · refine ⟨j, by omega, ?_⟩
    rw [getElem?_append_left hj, getElem?_eq_getElem hj]

lemma Behind.append (h : Behind net p q) (hq : q ∈ net) : Behind (net ++ out) p q := by
  intro k hk
  by_cases hlt : k < net.length
  · rw [getElem?_append_left hlt] at hk
    obtain ⟨j, hj, hp⟩ := h k hk
    exact ⟨j, hj, by rwa [getElem?_append_left (by omega)]⟩
  · -- a second `q` at the end is behind the `p` of the first one
    obtain ⟨i, hi, rfl⟩ := mem_iff_getElem.mp hq
    obtain ⟨j, hj, hp⟩ := h i (getElem?_eq_getElem hi)
    exact ⟨j, by omega, by rwa [getElem?_append_left (by omega)]⟩

/-- Taking a message other than `p` leaves the order of the others. -/
lemma Behind.eraseIdx (h : Behind net p q) (hk : net[k]? ≠ some p) :
    Behind (net.eraseIdx k) p q := by
  -- the position of an entry in `net`, from its position after the erasure
  intro i hi
  rw [getElem?_eraseIdx] at hi
  by_cases hik : i < k
  · rw [if_pos hik] at hi
    obtain ⟨j, hj, hp⟩ := h i hi
    exact ⟨j, hj, by rwa [getElem?_eraseIdx, if_pos (by omega)]⟩
  · rw [if_neg hik] at hi
    obtain ⟨j, hj, hp⟩ := h (i + 1) hi
    have hjk : j ≠ k := by
      rintro rfl
      exact hk hp
    by_cases hlt : j < k
    · exact ⟨j, by omega, by rwa [getElem?_eraseIdx, if_pos hlt]⟩
    · refine ⟨j - 1, by omega, ?_⟩
      rw [getElem?_eraseIdx, if_neg (by omega)]
      rwa [Nat.sub_add_cancel (by omega)]

end Fifo
