import Rolis.Replay.Failover

/-!
# The barriers of a no-ops marker

A stream that has got a marker waits three times for the others: before it computes the bound of
its loop over the queue, before it resets its watermark, and before it goes on. The counters of the
barriers are used again for every marker. `Ordered` says that no stream gets ahead of the others,
and it holds in every reachable state.

The bound is another matter. `computeG()` stores the minimum of the watermarks to `G` and loads `G`
again, and `advancer` may store its own bound in between, which leaves the watermarks 0 out. In
runs where it does not, `undisturbed`, all streams use the minimum, `OneBound`.
-/

namespace Rolis.Replay

open State

variable {N : ℕ} {s s' : State N} {i j : Fin N} {a : Action N}

/-! ## The order of the barriers -/

/-- Stream `j` has come to barrier `b` of its marker number `r`. -/
def State.Reached (s : State N) (j : Fin N) (r b : ℕ) : Prop := 2 * (3 * r + b) + 1 ≤ s.progress j

/-- Stream `j` has gone through barrier `b` of its marker number `r`. -/
def State.Passed (s : State N) (j : Fin N) (r b : ℕ) : Prop := 2 * (3 * r + b) + 2 ≤ s.progress j

/-- A stream that is about to take the bound of its loop has seen all others get the marker, one
that is about to reset its watermark has seen all others end their loops, and one that has gone
through a barrier of the next marker has seen all others get that marker. -/
structure Ordered (s : State N) : Prop where
  received : ∀ i, (s.streams i).pc = .load false → ∀ j, s.Reached j (s.streams i).rounds 0
  drained : ∀ i, (s.streams i).pc = .reset → ∀ j, s.Reached j (s.streams i).rounds 1
  left : ∀ i r b, s.Passed i (r + 1) b → ∀ j, r < (s.streams j).rounds ∧ s.Reached j (r + 1) 0

lemma Counted.ordered (h : Counted s) : Ordered s where
  received i hpc j := by
    have hij := h.window i j
    have hi : s.progress i = 6 * (s.streams i).rounds + 2 := by
      simp [progress, Stream.progress, hpc, Pc.phase]
    unfold State.Reached
    omega
  drained i hpc j := by
    have hij := h.window i j
    have hi : s.progress i = 6 * (s.streams i).rounds + 4 := by
      simp [progress, Stream.progress, hpc, Pc.phase]
    unfold State.Reached
    omega
  left i r b hpass j := by
    have hij := h.window i j
    have hj : s.progress j ≤ 6 * (s.streams j).rounds + 5 := by
      have hphase := (s.streams j).pc.phase_le
      simp only [progress, Stream.progress]
      omega
    unfold State.Passed at hpass
    unfold State.Reached
    omega

lemma Counted.step (h : Counted s) (hstep : (follower N).step s a = some s') : Counted s' := by
  cases a with
  | deliver i log => exact h.deliver hstep
  | run i => exact h.move (move_of_run hstep)
  | advance =>
    cases hstep
    have hnoops : s.advance.noops = s.noops := by
      unfold advance
      split <;> split <;> rfl
    unfold Counted progress at h ⊢
    rwa [streams_advance, hnoops]

/-! ## The bound -/

/-- `advancer` does not change `G` while a stream is between the store and the load of its first
`computeG()`. -/
def undisturbed (s : State N) : Action N → Prop
  | .advance => s.advance.G ≠ s.G → ∀ i, (s.streams i).pc ≠ .load false
  | _ => True

instance (s : State N) : ∀ a, Decidable (undisturbed s a)
  | .advance => inferInstanceAs (Decidable (_ → ∀ _, _))
  | .deliver _ _ | .run _ => isTrue trivial

/-- `G` is the smallest watermark. -/
def State.Least (s : State N) : Prop := (∃ j, s.cg j = s.G) ∧ ∀ j, s.G ≤ s.cg j

/-- Every stream that is about to take the bound of its loop takes the smallest watermark, and all
streams take the same bound at one marker. -/
structure OneBound (s : State N) : Prop where
  least : ∀ i, (s.streams i).pc = .load false → s.Least
  same : ∀ s', Lts.Run (follower N) undisturbed s s' → ∀ i j,
    (s.streams i).pc = .load false → (s'.streams j).pc = .load false →
      (s'.streams j).rounds = (s.streams i).rounds → s'.G = s.G

/-- What holds in every state of an undisturbed run. In `computeG()` the minimum is that of the
watermarks loaded so far. -/
structure Fenced (s : State N) : Prop where
  counted : Counted s
  max : ∀ j, s.cg j ≤ uint64Max
  compute : ∀ i k m, (s.streams i).pc = .compute false k m →
    (m = uint64Max ∨ ∃ j, s.cg j = m) ∧ ∀ j : Fin N, j < k → m ≤ s.cg j
  load : ∀ i, (s.streams i).pc = .load false → s.Least

namespace Fenced

lemma init : Fenced (follower N).init where
  counted := .zero
  max _ := Nat.zero_le _
  compute := by rintro i k m ⟨⟩
  load := by rintro i ⟨⟩

section

variable (h : Fenced s)

include h

lemma cg_le_move (hmove : Move s i s') (j : Fin N) : s'.cg j ≤ uint64Max := by
  by_cases hj : j = i
  · subst hj
    cases hmove with
    | @store log => simpa using stamp_le log
    | storeEnd => simp
    | reset => simp
    | _ => exact h.max j
  · rw [hmove.cg_ne hj]
    exact h.max j

/-- A load of a watermark in `computeG()`. -/
lemma compute_move (hmove : Move s i s') {k m : ℕ} (hpc' : (s'.streams i).pc = .compute false k m) :
    (m = uint64Max ∨ ∃ j, s'.cg j = m) ∧ ∀ j : Fin N, j < k → m ≤ s'.cg j := by
  obtain ⟨hcg, ⟨rfl, rfl⟩ | ⟨-, k, m, hk, hpc, rfl, rfl⟩⟩ := hmove.compute_cases hpc'
  · exact ⟨.inl rfl, fun j hj => absurd hj (Nat.not_lt_zero _)⟩
  · rw [hcg]
    obtain ⟨hm, hle⟩ := h.compute i k m hpc
    refine ⟨?_, fun j hj => ?_⟩
    · rcases Nat.le_total m (s.cg ⟨k, hk⟩) with hmin | hmin
      · rwa [min_eq_left hmin]
      · exact .inr ⟨⟨k, hk⟩, (min_eq_right hmin).symm⟩
    · rcases Nat.lt_succ_iff_lt_or_eq.mp hj with hlt | heq
      · exact (min_le_left _ _).trans (hle j hlt)
      · obtain rfl : j = ⟨k, hk⟩ := Fin.ext heq
        exact min_le_right _ _

/-- The store of `computeG()`. -/
lemma least_of_compute {k m : ℕ} (hpc : (s.streams i).pc = .compute false k m) (hk : N ≤ k) :
    (∃ j, s.cg j = m) ∧ ∀ j, m ≤ s.cg j := by
  obtain ⟨hm, hle⟩ := h.compute i k m hpc
  have hall : ∀ j, m ≤ s.cg j := fun j => hle j (j.isLt.trans_le hk)
  refine ⟨hm.elim (fun hmax => ⟨i, ?_⟩) id, hall⟩
  exact le_antisymm (hmax ▸ h.max i) (hall i)

lemma load_move (hmove : Move s i s') (j : Fin N) (hpc' : (s'.streams j).pc = .load false) :
    s'.Least := by
  unfold State.Least
  obtain ⟨hcg, ⟨k, hpc, hk⟩ | ⟨hG, hpc⟩⟩ := h.counted.load_move hmove hpc' <;> rw [hcg]
  · exact h.least_of_compute hpc hk
  · exact hG ▸ h.load j hpc

lemma move (hmove : Move s i s') : Fenced s' where
  counted := h.counted.move hmove
  max := h.cg_le_move hmove
  compute j k m hpc := by
    by_cases hj : j = i
    · subst hj
      exact h.compute_move hmove hpc
    · rw [hmove.streams_ne hj] at hpc
      rw [h.counted.cg_frozen (by rw [hpc]; rfl) hmove]
      exact h.compute j k m hpc
  load j := h.load_move hmove j

lemma deliver {log : Bytes} (hdel : s.deliver i log = some s') : Fenced s' := by
  have hst := starts_of_deliver hdel
  refine ⟨h.counted.deliver hdel, ?_, fun j k m hpc => ?_, fun j hpc => ?_⟩
  · rw [hst.cg]
    exact h.max
  · obtain rfl | hj := eq_or_ne j i
    · exact absurd hpc (hst.compute _ _ _)
    · rw [hst.streams_ne j hj] at hpc
      rw [hst.cg]
      exact h.compute j k m hpc
  · obtain rfl | hj := eq_or_ne j i
    · exact absurd hpc (hst.load _)
    · rw [hst.streams_ne j hj] at hpc
      unfold State.Least
      rw [hst.cg, hst.G]
      exact h.load j hpc

lemma step (hG : undisturbed s a) (hstep : (follower N).step s a = some s') : Fenced s' := by
  cases a with
  | deliver i log => exact h.deliver hstep
  | run i => exact h.move (move_of_run hstep)
  | advance =>
    have hcounted := h.counted.step hstep
    cases hstep
    refine ⟨hcounted, ?_, ?_, fun i hpc => ?_⟩
    · rw [cg_advance]
      exact h.max
    · rw [streams_advance, cg_advance]
      exact h.compute
    · rw [streams_advance] at hpc
      have hsame : s.advance.G = s.G := by
        by_contra hne
        exact hG hne i hpc
      unfold State.Least
      rw [cg_advance, hsame]
      exact h.load i hpc

end

lemma of_run (h : Lts.Run (follower N) undisturbed s s') (hs : Fenced s) : Fenced s' :=
  h.invariant Fenced (fun _ _ _ ht hG hstep => ht.step hG hstep) hs

end Fenced

/-! ## One bound for all streams -/

lemma progress_le_of_step (hstep : (follower N).step s a = some s') (j : Fin N) :
    s.progress j ≤ s'.progress j := by
  cases a with
  | deliver i log => rw [(starts_of_deliver hstep).progress]
  | run i => exact (move_of_run hstep).progress_le j
  | advance =>
    cases hstep
    simp [progress]

/-- A stream between the first and the third barrier of its marker does not store a watermark. -/
lemma Move.cg_eq (hmove : Move s i s') {r : ℕ} (hlo : 6 * r + 1 ≤ s.progress i)
    (hhi : s.progress i ≤ 6 * r + 3) : s'.cg = s.cg := by
  cases hmove with
  | store hpc | storeEnd hpc | reset hpc =>
    simp only [progress, Stream.progress, hpc, Pc.phase] at hlo hhi
    omega
  | _ => rfl

/-- The watermarks stand still from the moment one stream has gone through the first barrier of a
marker until all others have ended their loops. -/
lemma cg_eq_of_run {G : State N → Action N → Prop} (h : Lts.Run (follower N) G s s')
    (hs : Counted s) {r : ℕ} (hi : 6 * r + 2 ≤ s.progress i) (hj : s'.progress j ≤ 6 * r + 2) :
    Counted s' ∧ 6 * r + 2 ≤ s'.progress i ∧ s'.cg = s.cg := by
  induction h with
  | refl => exact ⟨hs, hi, rfl⟩
  | @tail t u a _ _ hstep ih =>
    have hjt : t.progress j ≤ 6 * r + 2 := (progress_le_of_step hstep j).trans hj
    obtain ⟨ht, hit, hcg⟩ := ih hjt
    refine ⟨ht.step hstep, hit.trans (progress_le_of_step hstep i), ?_⟩
    rw [← hcg]
    cases a with
    | deliver l log => exact (starts_of_deliver hstep).cg
    | run l =>
      have hil := ht.window i l
      have hlj := ht.window l j
      exact (move_of_run hstep).cg_eq (r := r) (by omega) (by omega)
    | advance =>
      cases hstep
      exact cg_advance t

lemma Fenced.oneBound (h : Fenced s) : OneBound s where
  least := h.load
  same s' hrun i j hpc hpc' hround := by
    have hi : s.progress i = 6 * (s.streams i).rounds + 2 := by
      simp [progress, Stream.progress, hpc, Pc.phase]
    have hj : s'.progress j = 6 * (s.streams i).rounds + 2 := by
      simp [progress, Stream.progress, hpc', Pc.phase, hround]
    obtain ⟨-, -, hcg⟩ := cg_eq_of_run hrun h.counted hi.ge hj.le
    -- both bounds are the smallest of the same watermarks
    obtain ⟨⟨k, hk⟩, hle⟩ := h.load i hpc
    obtain ⟨⟨k', hk'⟩, hle'⟩ := (h.of_run hrun).load j hpc'
    rw [hcg] at hk' hle'
    exact le_antisymm (hk ▸ hle' k) (hk' ▸ hle k')

/-- The barriers of the no-ops markers: in every reachable state no stream has got ahead of the
others, and if `advancer` has not changed `G` inside a `computeG()`, all streams take the smallest
watermark as their bound. -/
theorem ordered_and_oneBound (h : Lts.Reachable (follower N) s) :
    Ordered s ∧ (Lts.Run (follower N) undisturbed (follower N).init s → OneBound s) := by
  have hcounted : Counted s :=
    h.invariant Counted (fun _ _ _ ht _ hstep => ht.step hstep) .zero
  exact ⟨hcounted.ordered, fun hrun => (Fenced.of_run hrun .init).oneBound⟩

/-- Both of two streams keep a batch and get the marker, and the first one computes its bound. -/
def toTheBound (i j : Fin 2) : List (Action 2) :=
  [.deliver i markerOfTwo, .deliver j markerOfTwo, .run i, .run j, .run i, .run i, .run i, .run i]

theorem ordered_and_oneBound_two :
    ∃ s, (Lts.Run (follower 2) undisturbed (follower 2).init s ∧
      (s.streams 0).pc = .load false ∧ s.G = 5) ∧ Ordered s ∧ OneBound s := by
  obtain ⟨s, hrun, hpc, hG⟩ := Lts.exists_run_of_execGuarded (follower 2) undisturbed {}
    (keeps 0 (batchOf [7]) ++ keeps 1 (batchOf [5]) ++ toTheBound 0 1)
    (fun s => (s.streams 0).pc = .load false ∧ s.G = 5) (by decide +kernel)
  obtain ⟨hordered, hbound⟩ := ordered_and_oneBound hrun.reachable
  exact ⟨s, ⟨hrun, hpc, hG⟩, hordered, hbound hrun⟩

/-- The second stream has delivered nothing, so its watermark is 0 and the bound of the first one
should be 0. But `advancer`, which leaves that watermark out, stores 5 before the first stream loads
the bound it has computed. -/
theorem not_oneBound_overwritten : ∃ s, Lts.Reachable (follower 2) s ∧
    (s.streams 0).pc = .load false ∧ s.cg 1 = 0 ∧ s.G = 5 ∧ ¬OneBound s := by
  obtain ⟨s, hreach, hpc, hcg, hG⟩ := Lts.exists_reachable_of_exec (follower 2)
    (keeps 0 (batchOf [5]) ++ toTheBound 0 1 ++ [.advance, .advance, .advance, .advance])
    (fun s => (s.streams 0).pc = .load false ∧ s.cg 1 = 0 ∧ s.G = 5) (by decide +kernel)
  refine ⟨s, hreach, hpc, hcg, hG, fun h => ?_⟩
  have hle := (h.least 0 hpc).2 1
  omega

end Rolis.Replay
