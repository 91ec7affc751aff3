import Mathlib.Algebra.BigOperators.Group.List.Basic
import Mathlib.Algebra.Ring.Nat

/-!
# Pieces that follow one another

A piece is a start and a number of cells; all cells have the same width. Pieces tile if each begins
where the one before it ends. The cells of all pieces are then those of one long piece, each once,
and the slices of a list that the pieces stand for make up one slice.
-/

namespace Tiling

open List

/-- Each piece begins where the one before it ends, the first at `a`. -/
def Tiles (w : ℕ) : ℕ → List (ℕ × ℕ) → Prop
  | _, [] => True
  | a, p :: ps => p.1 = a ∧ Tiles w (a + w * p.2) ps

/-- How many cells the pieces have. -/
def count (ps : List (ℕ × ℕ)) : ℕ := (ps.map Prod.snd).sum

/-- Where the cells of a piece begin. -/
def cells (w : ℕ) (p : ℕ × ℕ) : List ℕ := List.range' p.1 p.2 w

variable {w a : ℕ} {p : ℕ × ℕ} {ps : List (ℕ × ℕ)}

@[simp] lemma count_nil : count [] = 0 := rfl

@[simp] lemma count_cons (p : ℕ × ℕ) (ps : List (ℕ × ℕ)) : count (p :: ps) = p.2 + count ps := by
  rw [count, map_cons, sum_cons, count]

@[simp] lemma count_concat (ps : List (ℕ × ℕ)) (p : ℕ × ℕ) :
    count (ps ++ [p]) = count ps + p.2 := by
  rw [count, map_append, sum_append, map_singleton, sum_singleton, count]

/-- One more piece at the end. -/
lemma Tiles.concat (h : Tiles w a ps) (hp : p.1 = a + w * count ps) : Tiles w a (ps ++ [p]) := by
  induction ps generalizing a with
  | nil => exact ⟨by rw [hp, count_nil, Nat.mul_zero, Nat.add_zero], trivial⟩
  | cons q ps ih =>
    refine ⟨h.1, ih h.2 ?_⟩
    rw [hp, count_cons, Nat.mul_add, Nat.add_assoc]

/-- Where a piece lies among the others. -/
lemma Tiles.exists_of_mem (h : Tiles w a ps) (hp : p ∈ ps) :
    ∃ k, p.1 = a + w * k ∧ k + p.2 ≤ count ps := by
  induction ps generalizing a with
  | nil => cases hp
  | cons q ps ih =>
    rw [count_cons]
    rcases mem_cons.mp hp with rfl | hmem
    · exact ⟨0, by rw [h.1, Nat.mul_zero, Nat.add_zero], by omega⟩
    · obtain ⟨k, hk, hle⟩ := ih h.2 hmem
      exact ⟨q.2 + k, by rw [hk, Nat.mul_add, Nat.add_assoc], by omega⟩

/-- The cells of the pieces are those of one long piece. -/
lemma Tiles.flatMap_cells (h : Tiles w a ps) : ps.flatMap (cells w) = cells w (a, count ps) := by
  induction ps generalizing a with
  | nil => rfl
  | cons p ps ih =>
    rw [flatMap_cons, ih h.2, cells, h.1, count_cons]
    exact range'_append

/-- The slices of a list are one slice. -/
lemma Tiles.flatMap_slice {α : Type*} (h : Tiles 1 a ps) (l : List α) :
    ps.flatMap (fun p => (l.drop p.1).take p.2) = (l.drop a).take (count ps) := by
  induction ps generalizing a with
  | nil => rw [flatMap_nil, count_nil, take_zero]
  | cons p ps ih =>
    rw [flatMap_cons, ih h.2, h.1, count_cons, take_add, drop_drop, Nat.one_mul]

/-! ## Even parts -/

/-- Part `i` of `n` cells in `m` even parts. The last part has what is left over. -/
def evenPart (n m i : ℕ) : ℕ × ℕ :=
  (i * (n / m), if i = m - 1 then n - i * (n / m) else n / m)

lemma tiles_evenPart {n m k : ℕ} (hk : k ≤ m) : Tiles 1 0 ((range k).map (evenPart n m)) ∧
      count ((range k).map (evenPart n m)) = if k = m ∧ m ≠ 0 then n else k * (n / m) := by
  induction k with
  | zero =>
    refine ⟨trivial, ?_⟩
    rw [if_neg (by omega), Nat.zero_mul]
    rfl
  | succ k ih =>
    obtain ⟨htiles, hcount⟩ := ih (Nat.le_of_succ_le hk)
    rw [if_neg (by omega)] at hcount
    rw [range_succ, map_append, map_singleton, count_concat, hcount]
    refine ⟨htiles.concat ?_, ?_⟩
    · rw [hcount, evenPart, Nat.one_mul, Nat.zero_add]
    · simp only [evenPart]
      by_cases hlast : k + 1 = m
      · have hle : k * (n / m) ≤ n :=
          Nat.le_trans (Nat.mul_le_mul_right _ (Nat.le_of_succ_le hk)) (Nat.mul_div_le n m)
        rw [if_pos (by omega), if_pos ⟨hlast, by omega⟩]
        omega
      · rw [if_neg (by omega), if_neg (by omega), Nat.succ_mul]

/-- The even parts of a list are the list. -/
lemma flatMap_evenPart {α : Type*} {m : ℕ} (hm : 1 ≤ m) (l : List α) :
    (range m).flatMap (fun i => (l.drop (evenPart l.length m i).1).take
      (evenPart l.length m i).2) = l := by
  obtain ⟨htiles, hcount⟩ := tiles_evenPart (n := l.length) (Nat.le_refl m)
  have hslice := htiles.flatMap_slice l
  rw [hcount, if_pos ⟨rfl, by omega⟩, drop_zero, take_length, flatMap_map] at hslice
  exact hslice

end Tiling
