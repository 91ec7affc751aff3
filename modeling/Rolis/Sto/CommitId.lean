import Mathlib.Data.Prod.Lex
import Rolis.Sto.Log

/-!
# Commit ids

`serialize_util` packs a reading of the time stamp counter and an epoch into one 64-bit integer.
The follower callback divides the id by 1000 to get the reading back, and replay compares whole
ids. Both work as long as the epoch has at most three digits and the product does not wrap around,
`Packs`, and only then.
-/

namespace Rolis.Sto

/-- The reading `tid` and the epoch `epoch` fit into one commit id. -/
def Packs (tid epoch : ℕ) : Prop := epoch < 1000 ∧ epoch + tid * 1000 < 2 ^ 64

instance (tid epoch : ℕ) : Decidable (Packs tid epoch) :=
  inferInstanceAs (Decidable (epoch < 1000 ∧ epoch + tid * 1000 < 2 ^ 64))

/-- The commit id gives the reading and the epoch back. -/
def Unpacks (tid epoch : ℕ) : Prop :=
  commitId tid epoch / 1000 = tid ∧ commitId tid epoch % 1000 = epoch

instance (tid epoch : ℕ) : Decidable (Unpacks tid epoch) :=
  inferInstanceAs (Decidable (commitId tid epoch / 1000 = tid ∧ commitId tid epoch % 1000 = epoch))

variable {tid tid' epoch epoch' : ℕ}

lemma commitId_lt (tid epoch : ℕ) : commitId tid epoch < 2 ^ 64 :=
  Nat.mod_lt _ (by norm_num)

lemma commitId_of_lt (h : epoch + tid * 1000 < 2 ^ 64) :
    commitId tid epoch = epoch + tid * 1000 := Nat.mod_eq_of_lt h

lemma Packs.unpacks (h : Packs tid epoch) : Unpacks tid epoch := by
  obtain ⟨hepoch, hmax⟩ := h
  rw [Unpacks, commitId_of_lt hmax]
  omega

lemma Unpacks.packs (h : Unpacks tid epoch) : Packs tid epoch := by
  obtain ⟨hdiv, hmod⟩ := h
  have hlt := commitId_lt tid epoch
  constructor <;> omega

lemma Packs.commitId_lt_iff (h : Packs tid epoch) (h' : Packs tid' epoch') :
    commitId tid epoch < commitId tid' epoch' ↔ toLex (tid, epoch) < toLex (tid', epoch') := by
  obtain ⟨hepoch, hmax⟩ := h
  obtain ⟨hepoch', hmax'⟩ := h'
  rw [commitId_of_lt hmax, commitId_of_lt hmax', Prod.Lex.toLex_lt_toLex]
  omega

/-- The commit ids of two transactions give their readings and epochs back, and are ordered like
the pairs of them, if and only if both pairs fit into 64 bits with an epoch below 1000. -/
theorem unpacks_and_ordered_iff (tid epoch tid' epoch' : ℕ) :
    (Unpacks tid epoch ∧ Unpacks tid' epoch' ∧
        (commitId tid epoch < commitId tid' epoch' ↔
          toLex (tid, epoch) < toLex (tid', epoch'))) ↔
      Packs tid epoch ∧ Packs tid' epoch' := by
  constructor
  · rintro ⟨h, h', -⟩
    exact ⟨h.packs, h'.packs⟩
  · rintro ⟨h, h'⟩
    exact ⟨h.unpacks, h'.unpacks, h.commitId_lt_iff h'⟩

/-- The product wraps around at the first reading above `2 ^ 64 / 1000`: two readings one after
another, both 64-bit integers, in epoch 1. The ids are in the wrong order, and the later one gives
the reading 0. -/
theorem not_unpacks_and_ordered_wrapped :
    18446744073709552 < 2 ^ 64 ∧ commitId 18446744073709552 1 / 1000 = 0 ∧
      ¬(Unpacks 18446744073709551 1 ∧ Unpacks 18446744073709552 1 ∧
        (commitId 18446744073709551 1 < commitId 18446744073709552 1 ↔
          toLex (18446744073709551, 1) < toLex (18446744073709552, 1))) := by
  refine ⟨by norm_num, by decide, ?_⟩
  rintro ⟨-, h, -⟩
  exact absurd h (by decide)

end Rolis.Sto
