import Mathlib.Data.Fintype.Card

/-!
# Voting by ballots

One decision by voters of type `ν`, who accept values of type `φ` at ballots of type `β`: which
value was proposed at which ballot, who has accepted what, and at which ballots a voter may still
accept. A value is *chosen* when `k` voters have accepted it at one ballot, and a ballot is *dead*
when fewer than `k` voters have accepted or may still accept at it.

A proposal is *safe* if every earlier proposal of another value is at another ballot, and the
lower of the two ballots is dead. As long as every proposal was safe when it was made, at most one
value is chosen (`Sound.chosen_unique`). The argument needs no two quorums to meet: what makes a
ballot dead is left to the protocol.
-/

/-- The state of one decision. -/
structure Voting (ν β φ : Type*) where
  proposed : β → φ → Prop
  accepted : ν → β → φ → Prop
  isOpen : ν → β → Prop

namespace Voting

open Finset

variable {ν β φ : Type*} (s : Voting ν β φ) (k : ℕ) {b : β} {v v' : φ}

/-- `k` voters have accepted the value at the ballot. -/
def ChosenAt (b : β) (v : φ) : Prop :=
  ∃ voters : List ν, voters.Nodup ∧ k ≤ voters.length ∧ ∀ a ∈ voters, s.accepted a b v

def Chosen (v : φ) : Prop := ∃ b, s.ChosenAt k b v

/-- The voter has accepted something at the ballot, or may still do so. -/
def MayAccept (a : ν) (b : β) : Prop := (∃ v, s.accepted a b v) ∨ s.isOpen a b

/-- The ballot cannot choose a value any more. -/
def Dead (b : β) : Prop :=
  ∀ voters : List ν, voters.Nodup → (∀ a ∈ voters, s.MayAccept a b) → voters.length < k

lemma dead_iff_card_lt [Fintype ν] [DecidableEq ν] [DecidablePred fun a => s.MayAccept a b] :
    s.Dead k b ↔ (univ.filter fun a => s.MayAccept a b).card < k := by
  constructor
  · intro h
    rw [← length_toList]
    refine h _ (nodup_toList _) fun a ha => ?_
    exact (mem_filter.mp (mem_toList.mp ha)).2
  · intro h voters hnodup hmay
    refine lt_of_le_of_lt ?_ h
    rw [← List.toFinset_card_of_nodup hnodup]
    refine card_le_card fun a ha => ?_
    exact mem_filter.mpr ⟨mem_univ a, hmay a (List.mem_toFinset.mp ha)⟩

variable {s k} {t : Voting ν β φ}

lemma ChosenAt.not_dead (h : s.ChosenAt k b v) : ¬ s.Dead k b := by
  obtain ⟨voters, hnodup, hlen, hacc⟩ := h
  intro hdead
  have := hdead voters hnodup fun a ha => .inl ⟨v, hacc a ha⟩
  omega

/-! ## Steps -/

variable (s t) in
/-- What may happen to a decision besides new proposals: voters accept what is proposed at ballots
that are open to them, and ballots close. -/
structure Grows : Prop where
  accepted : ∀ a b v, s.accepted a b v → t.accepted a b v
  voted : ∀ a b v, t.accepted a b v → s.accepted a b v ∨ (s.isOpen a b ∧ s.proposed b v)
  isOpen : ∀ a b, t.isOpen a b → s.isOpen a b
  proposed : ∀ b v, s.proposed b v → t.proposed b v

lemma Grows.chosenAt (h : Grows s t) (hv : s.ChosenAt k b v) : t.ChosenAt k b v := by
  obtain ⟨voters, hnodup, hlen, hacc⟩ := hv
  exact ⟨voters, hnodup, hlen, fun a ha => h.accepted a b v (hacc a ha)⟩

/-- A dead ballot stays dead. -/
lemma Grows.dead (h : Grows s t) (hdead : s.Dead k b) : t.Dead k b := by
  refine fun voters hnodup hmay => hdead voters hnodup fun a ha => ?_
  rcases hmay a ha with ⟨v, hacc⟩ | hopen
  · rcases h.voted a b v hacc with hacc | ⟨hopen, -⟩
    · exact .inl ⟨v, hacc⟩
    · exact .inr hopen
  · exact .inr (h.isOpen a b hopen)

/-! ## Agreement -/

variable [LinearOrder β]

variable (s k) in
/-- The value may be proposed at the ballot. -/
def Safe (b : β) (v : φ) : Prop :=
  ∀ b' v', s.proposed b' v' → v' ≠ v → b' ≠ b ∧ s.Dead k (min b b')

variable (s k) in
/-- Only what was proposed is accepted, and every proposal is safe against all others. -/
structure Sound : Prop where
  accepted : ∀ a b v, s.accepted a b v → s.proposed b v
  safe : ∀ b v, s.proposed b v → s.Safe k b v

/-- One ballot has one value. -/
lemma Sound.proposed_unique (h : s.Sound k) (hv : s.proposed b v) (hv' : s.proposed b v') :
    v = v' := by
  by_contra hne
  exact (h.safe b v hv b v' hv' fun heq => hne heq.symm).1 rfl

lemma Sound.proposed_of_chosenAt (h : s.Sound k) (hk : 0 < k) (hv : s.ChosenAt k b v) :
    s.proposed b v := by
  obtain ⟨voters, -, hlen, hacc⟩ := hv
  obtain ⟨a, ha⟩ := List.exists_mem_of_length_pos (hk.trans_le hlen)
  exact h.accepted a b v (hacc a ha)

/-- At most one value is chosen. -/
lemma Sound.chosen_unique (h : s.Sound k) (hk : 0 < k) (hv : s.Chosen k v) (hv' : s.Chosen k v') :
    v = v' := by
  obtain ⟨b, hb⟩ := hv
  obtain ⟨b', hb'⟩ := hv'
  by_contra hne
  have hdead := (h.safe b v (h.proposed_of_chosenAt hk hb) b' v'
    (h.proposed_of_chosenAt hk hb') fun heq => hne heq.symm).2
  rcases min_choice b b' with hmin | hmin <;> rw [hmin] at hdead
  · exact hb.not_dead hdead
  · exact hb'.not_dead hdead

/-- A step stays sound if what is proposed anew is safe, and is one value only. -/
lemma Grows.sound (h : Grows s t) (hs : s.Sound k)
    (hsafe : ∀ b v, t.proposed b v → s.proposed b v ∨ s.Safe k b v)
    (hone : ∀ b v b' v', t.proposed b v → t.proposed b' v' →
      s.proposed b v ∨ s.proposed b' v' ∨ v' = v) : t.Sound k where
  accepted a b v hacc := by
    rcases h.voted a b v hacc with hacc | ⟨-, hprop⟩
    · exact h.proposed _ _ (hs.accepted a b v hacc)
    · exact h.proposed _ _ hprop
  safe b v hv b' v' hv' hne := by
    have hold : s.proposed b v → b' ≠ b ∧ s.Dead k (min b b') := by
      intro hold
      rcases hsafe b' v' hv' with hold' | hsafe'
      · exact hs.safe b v hold b' v' hold' hne
      · obtain ⟨hb, hdead⟩ := hsafe' b v hold hne.symm
        exact ⟨hb.symm, min_comm b' b ▸ hdead⟩
    have hdead : b' ≠ b ∧ s.Dead k (min b b') := by
      rcases hone b v b' v' hv hv' with hb | hb' | heq
      · exact hold hb
      · rcases hsafe b v hv with hb | hsafe
        · exact hold hb
        · exact hsafe b' v' hb' hne
      · exact absurd heq hne
    exact hdead.imp_right h.dead

end Voting
