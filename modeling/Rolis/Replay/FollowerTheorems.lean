import Rolis.Replay.Follower

/-!
# What the threads of a follower can do

`Move` lists the steps of a stream, each with the point it starts from and the state it leads to;
`move_of_run` is the only place where the step function is taken apart. The no-ops barriers are
an instance of `Barrier.Counted`: the progress of a stream is the number of barriers it has
reached, twice, and `Counted` is kept by every step.
-/

namespace Rolis.Replay

open Function State

variable {N : ℕ} {s s' : State N} {i j : Fin N} {log : Bytes} {st : Stream} {b : Fin 3}

/-! ## Fields after an update -/

section Fields

variable (s : State N) (i j : Fin N) (st : Stream) (v : ℕ) (pc : Pc)

@[simp] lemma streams_setStream :
    (s.setStream i st).streams = update s.streams i st := rfl
@[simp] lemma cg_setStream : (s.setStream i st).cg = s.cg := rfl
@[simp] lemma G_setStream : (s.setStream i st).G = s.G := rfl

@[simp] lemma streams_storeCg : (s.storeCg i v).streams = s.streams := rfl
@[simp] lemma cg_storeCg : (s.storeCg i v).cg = update s.cg i v := rfl
@[simp] lemma G_storeCg : (s.storeCg i v).G = s.G := rfl

@[simp] lemma streams_storeG : (s.storeG v).streams = s.streams := rfl
@[simp] lemma cg_storeG : (s.storeG v).cg = s.cg := rfl
@[simp] lemma G_storeG : (s.storeG v).G = v := rfl

@[simp] lemma streams_advance : s.advance.streams = s.streams := by
  unfold advance
  split <;> split <;> rfl

@[simp] lemma cg_advance : s.advance.cg = s.cg := by
  unfold advance
  split <;> split <;> rfl

end Fields

/-! ## Steps of a stream -/

/-- The steps of stream `i`. -/
inductive Move (s : State N) (i : Fin N) : State N → Prop
  | store {log : Bytes} (hpc : (s.streams i).pc = .received log) (hlog : log ≠ []) :
      Move s i ((s.storeCg i (stamp log)).setStream i ((s.streams i).goto (.check log)))
  | storeEnd (hpc : (s.streams i).pc = .received []) :
      Move s i ((s.storeCg i uint64Max).setStream i ((s.streams i).goto .lag))
  | keep {log : Bytes} (hpc : (s.streams i).pc = .check log) (hlt : s.G < stamp log) :
      Move s i (s.setStream i ((s.streams i).goto (.drain (some log))))
  | replay {log : Bytes} (hpc : (s.streams i).pc = .check log) (hle : stamp log ≤ s.G) :
      Move s i (s.setStream i (((s.streams i).replay [log]).goto (.drain none)))
  | drain {kept : Option Bytes} (hpc : (s.streams i).pc = .drain kept) :
      Move s i (s.setStream i ((s.streams i).drain s.G kept))
  | lagReplay {log : Bytes} {logs : List Bytes} (hpc : (s.streams i).pc = .lag)
      (hq : (s.streams i).unReplayLogs = log :: logs) (hle : stamp log ≤ s.G) :
      Move s i (s.setStream i { (s.streams i).replay [log] with unReplayLogs := logs })
  | lagDone (hpc : (s.streams i).pc = .lag) (hq : (s.streams i).unReplayLogs = []) :
      Move s i (s.setStream i ((s.streams i).goto .idle))
  | arrive {b : Fin 3} (hpc : (s.streams i).pc = .arrive b) :
      Move s i ({ s with noops := Function.update s.noops b (s.noops b + 1) }.setStream i
        ((s.streams i).goto (.wait b)))
  | skip (hpc : (s.streams i).pc = .wait 0) (hall : N ∣ s.noops 0) :
      Move s i (s.setStream i ((s.streams i).goto (.compute false 0 uint64Max)))
  | restart (hpc : (s.streams i).pc = .wait 1) (hall : N ∣ s.noops 1) :
      Move s i (s.setStream i ((s.streams i).goto .reset))
  | next (hpc : (s.streams i).pc = .wait 2) (hall : N ∣ s.noops 2) :
      Move s i (s.setStream i { s.streams i with
        pc := .compute true 0 uint64Max, rounds := (s.streams i).rounds + 1 })
  | read {last : Bool} {k m : ℕ} (hpc : (s.streams i).pc = .compute last k m) (hk : k < N) :
      Move s i (s.setStream i
        ((s.streams i).goto (.compute last (k + 1) (min m (s.cg ⟨k, hk⟩)))))
  | storeG {last : Bool} {k m : ℕ} (hpc : (s.streams i).pc = .compute last k m) (hk : N ≤ k) :
      Move s i ((s.storeG m).setStream i ((s.streams i).goto (.load last)))
  | drainNoops (hpc : (s.streams i).pc = .load false) :
      Move s i (s.setStream i ((s.streams i).drainNoops s.G))
  | leave (hpc : (s.streams i).pc = .load true) :
      Move s i (s.setStream i ((s.streams i).goto .idle))
  | reset (hpc : (s.streams i).pc = .reset) :
      Move s i ((s.storeCg i 0).setStream i ((s.streams i).goto (.arrive 2)))

lemma move_of_run (h : s.run i = some s') : Move s i s' := by
  unfold run at h
  dsimp only at h
  split at h
  · cases h
  · next log hpc =>
    cases h
    split
    · next hlog => subst hlog; exact .storeEnd hpc
    · next hlog => exact .store hpc hlog
  · next log hpc =>
    split at h
    · next hlt => cases h; exact .keep hpc hlt
    · next hle => cases h; exact .replay hpc (Nat.le_of_not_lt hle)
  · next kept hpc => cases h; exact .drain hpc
  · next hpc =>
    split at h
    · next hq => cases h; exact .lagDone hpc hq
    · next log logs hq =>
      split at h
      · next hle => cases h; exact .lagReplay hpc hq hle
      · cases h
  · next b hpc => cases h; exact .arrive hpc
  · next b hpc =>
    split at h
    · next hall =>
      cases h
      have hdvd := Nat.dvd_of_mod_eq_zero hall
      match b with
      | 0 => exact .skip hpc hdvd
      | 1 => exact .restart hpc hdvd
      | 2 => exact .next hpc hdvd
    · cases h
  · next last k m hpc =>
    split at h
    · next hk => cases h; exact .read hpc hk
    · next hk => cases h; exact .storeG hpc (Nat.le_of_not_lt hk)
  · next hpc => cases h; exact .drainNoops hpc
  · next hpc => cases h; exact .leave hpc
  · next hpc => cases h; exact .reset hpc

/-- A delivery finds the stream idle and starts its callback. -/
lemma deliver_cases (h : s.deliver i log = some s') : (s.streams i).pc = .idle ∧
      ((isNoops log = true ∧ s' = s.setStream i ((s.streams i).goto (.arrive 0))) ∨
        (isNoops log = false ∧ s' = s.setStream i { s.streams i with
          pc := .received log
          delivered := (s.streams i).delivered ++ [((s.streams i).rounds, log)] })) := by
  unfold deliver at h
  dsimp only at h
  split at h
  · next hidle =>
    split at h
    · next hm => cases h; exact ⟨hidle.1, .inl ⟨hm, rfl⟩⟩
    · next hm => cases h; exact ⟨hidle.1, .inr ⟨by simpa using hm, rfl⟩⟩
  · cases h

/-! ## The barriers -/

/-- How far into the barriers of a marker a point is. -/
def Pc.phase : Pc → ℕ
  | .arrive b => 2 * b
  | .wait b => 2 * b + 1
  | .compute false _ _ => 2
  | .load false => 2
  | .reset => 4
  | _ => 0

/-- Twice the number of barriers a stream has gone through, plus one while it waits. -/
def Stream.progress (st : Stream) : ℕ := 6 * st.rounds + st.pc.phase

/-- The progress of every stream. -/
def State.progress (s : State N) (i : Fin N) : ℕ := (s.streams i).progress

@[simp] lemma progress_setStream (s : State N) (i : Fin N) (st : Stream) :
    (s.setStream i st).progress = update s.progress i st.progress := by
  funext j
  by_cases h : j = i
  · rw [h]; simp [progress]
  · simp [progress, h]

/-- An update that keeps the progress of the stream. -/
lemma progress_setStream_of_eq (h : st.progress = (s.streams i).progress) :
    (s.setStream i st).progress = s.progress := by
  rw [progress_setStream, h]
  exact update_eq_self i s.progress

/-- The counters of the barriers count the progress of the streams. -/
def Counted (s : State N) : Prop := Barrier.Counted 3 s.progress s.noops

/-- A step between barriers. -/
lemma Counted.keep (h : Counted s) (hst : st.progress = (s.streams i).progress) :
    Counted (s.setStream i st) := by
  unfold Counted
  rw [progress_setStream_of_eq hst]
  exact h

lemma progress_arrive (hpc : (s.streams i).pc = .arrive b) :
    s.progress i = 2 * (3 * (s.streams i).rounds + b) := by
  simp only [progress, Stream.progress, hpc, Pc.phase]
  omega

lemma progress_wait (hpc : (s.streams i).pc = .wait b) :
    s.progress i = 2 * (3 * (s.streams i).rounds + b) + 1 := by
  simp only [progress, Stream.progress, hpc, Pc.phase]
  omega

/-- A stream passes a barrier. -/
lemma Counted.pass (h : Counted s) (hpc : (s.streams i).pc = .wait b) (hall : N ∣ s.noops b)
    (hst : st.progress = (s.streams i).progress + 1) : Counted (s.setStream i st) := by
  have hi := progress_wait hpc
  unfold Counted
  rw [progress_setStream, hst]
  change Barrier.Counted 3 (update s.progress i (s.progress i + 1)) s.noops
  rw [hi]
  exact Barrier.Counted.pass h (by norm_num) hi (by omega) hall

lemma Counted.move (h : Counted s) (hmove : Move s i s') : Counted s' := by
  cases hmove with
  | store hpc | storeEnd hpc | keep hpc | lagDone hpc | leave hpc | reset hpc =>
    exact h.keep (by simp [Stream.progress, Stream.goto, hpc, Pc.phase])
  | replay hpc _ =>
    exact h.keep (by simp [Stream.progress, Stream.goto, Stream.replay, hpc, Pc.phase])
  | drain hpc =>
    exact h.keep (by simp [Stream.progress, Stream.drain, Stream.replay, hpc, Pc.phase])
  | lagReplay => exact h.keep (by simp [Stream.progress, Stream.replay])
  | @arrive b hpc =>
    have hnew : ((s.streams i).goto (.wait b)).progress =
        2 * (3 * (s.streams i).rounds + b) + 1 := by
      simp only [Stream.progress, Stream.goto, Pc.phase]
      omega
    unfold Counted
    rw [progress_setStream, hnew]
    exact Barrier.Counted.arrive h (progress_arrive hpc) (by omega)
  | skip hpc hall | restart hpc hall =>
    exact h.pass hpc hall (by simp [Stream.progress, Stream.goto, hpc, Pc.phase])
  | next hpc hall => exact h.pass hpc hall (by simp [Stream.progress, hpc, Pc.phase]; omega)
  | @read last | @storeG last =>
    exact h.keep (by cases last <;> simp [Stream.progress, Stream.goto, *, Pc.phase])
  | drainNoops hpc =>
    exact h.keep (by simp [Stream.progress, Stream.drainNoops, Stream.replay, hpc, Pc.phase])

lemma Counted.deliver (h : Counted s) (hdel : s.deliver i log = some s') : Counted s' := by
  obtain ⟨hidle, ⟨-, rfl⟩ | ⟨-, rfl⟩⟩ := deliver_cases hdel
  · exact h.keep (by simp [Stream.progress, Stream.goto, hidle, Pc.phase])
  · exact h.keep (by simp [Stream.progress, hidle, Pc.phase])

/-! ## What a step leaves alone -/

section

variable (hmove : Move s i s')

include hmove

lemma Move.streams_ne (h : j ≠ i) : s'.streams j = s.streams j := by
  cases hmove <;> simp [h]

lemma Move.cg_ne (h : j ≠ i) : s'.cg j = s.cg j := by
  cases hmove <;> simp [h]

lemma Move.advancer_eq : s'.advancer = s.advancer := by
  cases hmove <;> rfl

lemma Move.progress_le (j : Fin N) : s.progress j ≤ s'.progress j := by
  by_cases h : j = i
  · subst h
    cases hmove with
    | @read last _ _ hpc _ | @storeG last _ _ hpc _ =>
      cases last <;> simp [progress, Stream.progress, Stream.goto, hpc, Pc.phase]
    | lagReplay => simp [progress, Stream.progress, Stream.replay]
    | next hpc => simp [progress, Stream.progress, hpc, Pc.phase]; omega
    | store hpc | storeEnd hpc | keep hpc | replay hpc | drain hpc | lagDone hpc | arrive hpc
    | skip hpc | restart hpc | drainNoops hpc | leave hpc | reset hpc =>
      simp [progress, Stream.progress, Stream.goto, Stream.replay, Stream.drain,
        Stream.drainNoops, hpc, Pc.phase]
  · rw [progress, progress, hmove.streams_ne h]

lemma Move.delivered (j : Fin N) : (s'.streams j).delivered = (s.streams j).delivered := by
  by_cases h : j = i
  · subst h
    cases hmove <;> simp [Stream.goto, Stream.replay, Stream.drain, Stream.drainNoops]
  · rw [hmove.streams_ne h]

/-- How a stream comes to be inside `computeG()`: at its first load, or after one more of them. -/
lemma Move.compute_cases {last : Bool} {k m : ℕ} (hpc' : (s'.streams i).pc = .compute last k m) :
    s'.cg = s.cg ∧ (k = 0 ∧ m = uint64Max ∨ (s'.streams i).rounds = (s.streams i).rounds ∧
      ∃ k₀ m₀, ∃ hk : k₀ < N, (s.streams i).pc = .compute last k₀ m₀ ∧ k = k₀ + 1 ∧
        m = min m₀ (s.cg ⟨k₀, hk⟩)) := by
  cases hmove with
  | lagReplay hpc => simp [Stream.replay, hpc] at hpc'
  | @read last k₀ m₀ hpc hk =>
    simp only [streams_setStream, update_self, Stream.goto] at hpc'
    cases hpc'
    exact ⟨rfl, .inr ⟨by simp [Stream.goto], k₀, m₀, hk, hpc, rfl, rfl⟩⟩
  | _ =>
    simp only [streams_setStream, update_self] at hpc'
    cases hpc' <;> exact ⟨rfl, .inl ⟨rfl, rfl⟩⟩

end

/-- What a delivery to stream `i` leaves alone: it starts the callback of an idle stream and adds
to what was delivered. -/
structure Starts (s : State N) (i : Fin N) (s' : State N) : Prop where
  idle : (s.streams i).pc = .idle
  cg : s'.cg = s.cg
  G : s'.G = s.G
  advancer : s'.advancer = s.advancer
  streams_ne : ∀ j, j ≠ i → s'.streams j = s.streams j
  rounds : ∀ j, (s'.streams j).rounds = (s.streams j).rounds
  applied : ∀ j, (s'.streams j).applied = (s.streams j).applied
  dropped : ∀ j, (s'.streams j).dropped = (s.streams j).dropped
  progress : s'.progress = s.progress
  compute : ∀ last k m, (s'.streams i).pc ≠ .compute last k m
  load : ∀ last, (s'.streams i).pc ≠ .load last
  delivered : ∀ x ∈ (s'.streams i).delivered,
    x ∈ (s.streams i).delivered ∨ x.1 = (s.streams i).rounds

lemma starts_of_deliver (h : s.deliver i log = some s') : Starts s i s' := by
  have hfield : ∀ {α : Type} (f : Stream → α) (st : Stream), f st = f (s.streams i) →
      ∀ j, f ((s.setStream i st).streams j) = f (s.streams j) := by
    intro α f st hst j
    by_cases hj : j = i
    · subst hj; simpa using hst
    · simp [hj]
  obtain ⟨hidle, ⟨-, rfl⟩ | ⟨-, rfl⟩⟩ := deliver_cases h
  · exact {
      idle := hidle, cg := rfl, G := rfl, advancer := rfl
      streams_ne := fun j hj => by simp [hj]
      rounds := hfield _ _ rfl
      applied := hfield _ _ rfl
      dropped := hfield _ _ rfl
      progress := progress_setStream_of_eq (by simp [Stream.progress, Stream.goto, hidle, Pc.phase])
      compute := by simp [Stream.goto]
      load := by simp [Stream.goto]
      delivered := fun x hx => .inl (by simpa [Stream.goto] using hx) }
  · exact {
      idle := hidle, cg := rfl, G := rfl, advancer := rfl
      streams_ne := fun j hj => by simp [hj]
      rounds := hfield _ _ rfl
      applied := hfield _ _ rfl
      dropped := hfield _ _ rfl
      progress := progress_setStream_of_eq (by simp [Stream.progress, hidle, Pc.phase])
      compute := by simp
      load := by simp
      delivered := fun x hx => by
        simp only [streams_setStream, update_self] at hx
        refine (List.mem_append.mp hx).imp_right fun hx => ?_
        rw [List.mem_singleton.mp hx] }

end Rolis.Replay
