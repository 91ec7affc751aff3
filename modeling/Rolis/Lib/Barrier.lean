import Mathlib.Algebra.BigOperators.Fin
import Mathlib.Algebra.Order.BigOperators.Group.Finset
import Mathlib.Tactic.Ring

/-!
# Counting barriers used in turn

`N` threads go through barriers `0, 1, 2, …`. There are `K` counters, and barrier `b` uses counter
`b % K`: a thread arrives by incrementing the counter and passes once the counter is a multiple
of `N`. Counters are never reset.

The progress of a thread is one number: `2 * b` before it arrives at barrier `b`, `2 * b + 1` when
it waits there, `2 * (b + 1)` when it has passed. With at least two counters no thread gets ahead
of a waiting one by more than the barrier it waits at, `Window`, and a thread that sees a multiple
of `N` at its barrier has seen all others arrive, `Window.all_arrived`.
-/

namespace Barrier

open Function Finset

variable {N K r b n : ℕ} {P : Fin N → ℕ} {i : Fin N}

/-- How often a thread with progress `n` has incremented counter `r` of `K`. -/
def arrivals (K r n : ℕ) : ℕ := (n + (2 * K - 1 - 2 * r)) / (2 * K)

/-- A thread that has passed a barrier has seen all others arrive there. -/
def Window (P : Fin N → ℕ) : Prop := ∀ i j, 2 * (P i / 2) ≤ P j + 1

/-! ## Counting -/

lemma arrivals_zero (hr : r < K) : arrivals K r 0 = 0 := by
  unfold arrivals
  exact Nat.div_eq_of_lt (by omega)

/-- Arriving at barrier `b` counts on counter `b % K` and no other. -/
lemma arrivals_arrive (hr : r < K) (b : ℕ) :
    arrivals K r (2 * b + 1) = arrivals K r (2 * b) + if b % K = r then 1 else 0 := by
  have hsum : 2 * b + 1 + (2 * K - 1 - 2 * r) = (2 * b + (2 * K - 1 - 2 * r)) + 1 := by omega
  have hnext : 2 * b + (2 * K - 1 - 2 * r) + 1 = 2 * (b + (K - r)) := by omega
  have hdvd : 2 * K ∣ 2 * b + (2 * K - 1 - 2 * r) + 1 ↔ b % K = r := by
    rw [hnext, Nat.mul_dvd_mul_iff_left (by norm_num)]
    constructor
    · rintro ⟨q, hq⟩
      have hb : b + K = r + K * q := by omega
      have hmod := congrArg (· % K) hb
      simpa [Nat.mod_eq_of_lt hr] using hmod
    · rintro rfl
      have hdiv := Nat.div_add_mod b K
      refine ⟨b / K + 1, ?_⟩
      rw [Nat.mul_add]
      omega
  unfold arrivals
  rw [hsum, Nat.succ_div]
  simp only [hdvd]

/-- Passing a barrier counts on no counter. -/
lemma arrivals_pass (hr : r < K) (b : ℕ) : arrivals K r (2 * b + 2) = arrivals K r (2 * b + 1) := by
  have hsum : 2 * b + 2 + (2 * K - 1 - 2 * r) = (2 * b + 1 + (2 * K - 1 - 2 * r)) + 1 := by omega
  have hdvd : ¬2 * K ∣ 2 * b + 1 + (2 * K - 1 - 2 * r) + 1 := by
    rintro ⟨q, hq⟩
    have heven : 2 * b + 1 + (2 * K - 1 - 2 * r) + 1 = 2 * (K * q) := by rw [hq, Nat.mul_assoc]
    omega
  unfold arrivals
  rw [hsum, Nat.succ_div, if_neg hdvd, Nat.add_zero]

/-- Between barrier `b` and the one after the next, the counter of `b` tells exactly who has
arrived at `b`. -/
lemma arrivals_window (hK : 2 ≤ K) (hlo : 2 * b ≤ n + 1) (hhi : n ≤ 2 * b + 3) :
    arrivals K (b % K) n = b / K + if 2 * b + 1 ≤ n then 1 else 0 := by
  have hr : b % K < K := Nat.mod_lt b (by omega)
  have hb := Nat.div_add_mod b K
  unfold arrivals
  rw [Nat.div_eq_iff (by omega)]
  split
  · rw [Nat.add_mul, show b / K * (2 * K) = 2 * (K * (b / K)) by ring]
    omega
  · rw [Nat.add_zero, show b / K * (2 * K) = 2 * (K * (b / K)) by ring]
    omega

/-! ## The window -/

namespace Window

lemma zero : Window (fun _ : Fin N => 0) := fun _ _ => by norm_num

/-- Arriving keeps the window. -/
lemma arrive (h : Window P) (hi : P i % 2 = 0) : Window (update P i (P i + 1)) := by
  intro j k
  have hjk := h j k
  have hik := h i k
  have hji := h j i
  by_cases hj : j = i <;> by_cases hk : k = i <;> simp [*] <;> omega

/-- Passing keeps the window when all have arrived. -/
lemma pass (h : Window P) (hi : P i % 2 = 1) (hall : ∀ j, P i ≤ P j) :
    Window (update P i (P i + 1)) := by
  intro j k
  have hjk := h j k
  have hik := hall k
  have hji := h j i
  by_cases hj : j = i <;> by_cases hk : k = i <;> simp [*] <;> omega

/-- A thread that waits at barrier `b` and finds a multiple of `N` in its counter knows that all
have arrived. -/
lemma all_arrived (hK : 2 ≤ K) (h : Window P) (hi : P i = 2 * b + 1)
    (hdvd : N ∣ ∑ j, arrivals K (b % K) (P j)) : ∀ j, P i ≤ P j := by
  have hcount : ∀ j, arrivals K (b % K) (P j) = b / K + if 2 * b + 1 ≤ P j then 1 else 0 := by
    intro j
    have hij := h i j
    have hji := h j i
    exact arrivals_window hK (by omega) (by omega)
  -- the counter is `N * (b / K)` and one for every thread that has arrived
  have hsum : ∑ j, arrivals K (b % K) (P j) =
      N * (b / K) + (univ.filter fun j => 2 * b + 1 ≤ P j).card := by
    rw [sum_congr rfl fun j _ => hcount j, sum_add_distrib, sum_const,
      card_univ, Fintype.card_fin, smul_eq_mul, sum_boole, Nat.cast_id]
  have hmem : i ∈ univ.filter fun j => 2 * b + 1 ≤ P j := by simp [hi]
  rw [hsum, Nat.dvd_add_right (Nat.dvd_mul_right N _)] at hdvd
  have hcard : (univ.filter fun j => 2 * b + 1 ≤ P j).card = Fintype.card (Fin N) := by
    refine le_antisymm (card_le_univ _) ?_
    rw [Fintype.card_fin]
    exact Nat.le_of_dvd (card_pos.mpr ⟨i, hmem⟩) hdvd
  intro j
  have hj : j ∈ univ.filter fun j => 2 * b + 1 ≤ P j := by
    rw [eq_univ_of_card _ hcard]
    exact mem_univ j
  rw [hi]
  exact (mem_filter.mp hj).2

end Window

/-- A counter follows the progress of one thread. -/
lemma sum_arrivals_update (r : ℕ) (P : Fin N → ℕ) (i : Fin N) (n : ℕ) :
    ∑ j, arrivals K r (update P i n j) + arrivals K r (P i) =
      ∑ j, arrivals K r (P j) + arrivals K r n := by
  have hnew := add_sum_erase univ (fun j => arrivals K r (update P i n j)) (mem_univ i)
  have hold := add_sum_erase univ (fun j => arrivals K r (P j)) (mem_univ i)
  have hrest : ∑ j ∈ univ.erase i, arrivals K r (update P i n j) =
      ∑ j ∈ univ.erase i, arrivals K r (P j) :=
    sum_congr rfl fun j hj => by rw [update_of_ne (ne_of_mem_erase hj)]
  rw [update_self] at hnew
  omega

/-! ## Threads and counters together -/

/-- The counters have counted the arrivals of threads with progress `P`. -/
structure Counted (K : ℕ) (P : Fin N → ℕ) (c : Fin K → ℕ) : Prop where
  window : Window P
  count : ∀ r, c r = ∑ j, arrivals K r (P j)

namespace Counted

variable {c : Fin K → ℕ} {r : Fin K}

lemma zero : Counted K (fun _ : Fin N => 0) (fun _ => 0) where
  window := .zero
  count r := by simp [arrivals_zero r.isLt]

/-- A thread increments the counter of its next barrier. -/
lemma arrive (h : Counted K P c) (hi : P i = 2 * b) (hr : b % K = r) :
    Counted K (update P i (2 * b + 1)) (update c r (c r + 1)) where
  window := hi ▸ h.window.arrive (by omega)
  count r' := by
    have hsum := sum_arrivals_update (K := K) r' P i (2 * b + 1)
    rw [hi, arrivals_arrive r'.isLt] at hsum
    by_cases heq : r' = r
    · rw [heq, if_pos hr] at hsum
      rw [heq, update_self, h.count r]
      omega
    · have hne : b % K ≠ r' := fun hb => heq (Fin.ext (hb ▸ hr))
      rw [if_neg hne] at hsum
      rw [update_of_ne heq, h.count r']
      omega

/-- A thread that may pass its barrier has seen all others arrive. -/
lemma all_arrived (h : Counted K P c) (hK : 2 ≤ K) (hi : P i = 2 * b + 1) (hr : b % K = r)
    (hdvd : N ∣ c r) : ∀ j, P i ≤ P j := by
  rw [h.count, ← hr] at hdvd
  exact h.window.all_arrived hK hi hdvd

/-- A thread passes its barrier. -/
lemma pass (h : Counted K P c) (hK : 2 ≤ K) (hi : P i = 2 * b + 1) (hr : b % K = r)
    (hdvd : N ∣ c r) : Counted K (update P i (2 * b + 2)) c where
  window := by
    have hpass := h.window.pass (by omega) (h.all_arrived hK hi hr hdvd)
    rwa [hi] at hpass
  count r' := by
    have hsum := sum_arrivals_update (K := K) r' P i (2 * b + 2)
    rw [hi, arrivals_pass r'.isLt] at hsum
    rw [h.count r']
    omega

end Counted

end Barrier
