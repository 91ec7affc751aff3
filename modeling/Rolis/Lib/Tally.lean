import Mathlib.Data.Fintype.Card

/-!
# Collecting one vote from each of a set of voters

A `Tally` is the state of one vote: who has not answered yet, who said yes and who said no.
`feed` counts an answer once; an answer of a voter that is not outstanding is dropped. The
three lists of a `Fair` tally never share a voter, so the length of `yes` is a number of
distinct voters and two large enough tallies have a voter in common.
-/

/-- The voters of one vote, by what they answered. -/
structure Tally (ν : Type*) where
  outstanding : List ν
  yes : List ν
  no : List ν
deriving DecidableEq, Repr

namespace Tally

open List

variable {ν : Type*} [DecidableEq ν]

/-- A vote nobody has answered yet. -/
def start (voters : List ν) : Tally ν := ⟨voters, [], []⟩

/-- Count the answer of an outstanding voter. -/
def feed (t : Tally ν) (v : ν) (ok : Bool) : Tally ν :=
  if v ∈ t.outstanding then
    { outstanding := t.outstanding.erase v
      yes := if ok then v :: t.yes else t.yes
      no := if ok then t.no else v :: t.no }
  else t

/-- The voter was counted with a yes. -/
def SaidYes (t : Tally ν) (v : ν) : Prop := v ∈ t.yes

instance (t : Tally ν) (v : ν) : Decidable (t.SaidYes v) := inferInstanceAs (Decidable (v ∈ t.yes))

/-- No voter is counted twice. -/
def Fair (t : Tally ν) : Prop := (t.outstanding ++ t.yes ++ t.no).Nodup

omit [DecidableEq ν] in
lemma fair_start {voters : List ν} (h : voters.Nodup) : (start voters).Fair := by
  simpa [Fair, start] using h

/-- Feeding an answer moves one voter between the lists. -/
lemma feed_perm {t : Tally ν} {v : ν} (ok : Bool) (hv : v ∈ t.outstanding) :
    ((t.feed v ok).outstanding ++ (t.feed v ok).yes ++ (t.feed v ok).no).Perm
      (t.outstanding ++ t.yes ++ t.no) := by
  have herase : (v :: t.outstanding.erase v).Perm t.outstanding :=
    (perm_cons_erase hv).symm
  have hmove : (v :: (t.outstanding.erase v ++ t.yes ++ t.no)).Perm
      (t.outstanding ++ t.yes ++ t.no) := by
    simpa using (herase.append_right (t.yes ++ t.no))
  cases ok with
  | true =>
    simp only [feed, if_pos hv, if_true]
    refine List.Perm.trans ?_ hmove
    rw [append_assoc, append_assoc]
    exact perm_middle
  | false =>
    simp only [feed, if_pos hv, Bool.false_eq_true, if_false]
    exact perm_middle.trans hmove

lemma Fair.feed {t : Tally ν} (h : t.Fair) (v : ν) (ok : Bool) : (t.feed v ok).Fair := by
  by_cases hv : v ∈ t.outstanding
  · exact (feed_perm ok hv).nodup_iff.mpr h
  · rw [Tally.feed, if_neg hv]
    exact h

/-- The number of voters. -/
def size (t : Tally ν) : ℕ := t.outstanding.length + t.yes.length + t.no.length

/-- Voters are counted once and stay counted. -/
lemma length_feed (t : Tally ν) (v : ν) (ok : Bool) :
    t.yes.length ≤ (t.feed v ok).yes.length ∧ t.no.length ≤ (t.feed v ok).no.length ∧
      (t.feed v ok).size = t.size := by
  by_cases hv : v ∈ t.outstanding
  · refine ⟨?_, ?_, by simpa [size, Nat.add_assoc] using (feed_perm ok hv).length_eq⟩
    all_goals cases ok <;> simp [feed, hv]
  · rw [feed, if_neg hv]
    exact ⟨le_rfl, le_rfl, rfl⟩

omit [DecidableEq ν] in
lemma Fair.nodup_yes {t : Tally ν} (h : t.Fair) : t.yes.Nodup :=
  (nodup_append.mp (nodup_append.mp h).1).2.1

/-- A new yes-voter is the one that was fed. -/
lemma mem_yes_feed {t : Tally ν} {v w : ν} {ok : Bool} (h : w ∈ (t.feed v ok).yes) :
    w ∈ t.yes ∨ (w = v ∧ ok = true) := by
  unfold feed at h
  split at h
  · cases ok with
    | true =>
      simp only [if_true, mem_cons] at h
      exact h.elim (fun hw => .inr ⟨hw, rfl⟩) .inl
    | false => exact .inl h
  · exact .inl h

end Tally

/-- Two duplicate-free lists that are together longer than the type has elements meet. -/
lemma List.Nodup.exists_mem_of_card_lt {ν : Type*} [Fintype ν] [DecidableEq ν]
    {l₁ l₂ : List ν} (h₁ : l₁.Nodup) (h₂ : l₂.Nodup)
    (hlen : Fintype.card ν < l₁.length + l₂.length) : ∃ v, v ∈ l₁ ∧ v ∈ l₂ := by
  have hinter : (l₁.toFinset ∩ l₂.toFinset).Nonempty := by
    refine Finset.inter_nonempty_of_card_lt_card_add_card (Finset.subset_univ _)
      (Finset.subset_univ _) ?_
    rwa [Finset.card_univ, toFinset_card_of_nodup h₁, toFinset_card_of_nodup h₂]
  obtain ⟨v, hv⟩ := hinter
  rw [Finset.mem_inter, mem_toFinset, mem_toFinset] at hv
  exact ⟨v, hv⟩
