import Rolis.Replay.Watermark

/-!
# What is left of an epoch after its marker

At a marker every stream has delivered all of its old epoch. `computeG()` gives a bound `g` with
a stream that has delivered nothing above it, and the streams replay the queued logs up to `g` and
drop the others. So a log of the old epoch is applied exactly if all streams support it,
`Settled.applied_iff`: which logs are applied depends on the logs delivered and on nothing else.

This needs logs that arrive in the order of their stamps, and a `G` that `advancer` does not
overwrite between the store and the load of `computeG()`; both are `steady`.

Logs are kept or dropped whole, by their last commit id. A log that is dropped can hold older
transactions than one that is applied, unless `g` lies below all transactions of the logs that
are dropped, `whole`.
-/

namespace Rolis.Replay

open List Function Replay.Stream

open Sto (latestCommitId txns)

variable {N k : ℕ} {s s' : State N} {i j : Fin N} {a : Action N} {log : Bytes} {x : ℕ × Bytes × ℕ}

/-! ## One stream -/

/-- The points between the third barrier and the next log. -/
def Pc.fresh : Pc → Prop
  | .compute last _ _ => last = true
  | .load last => last = true
  | _ => False

/-- A stream's watermark `c` is the largest stamp of the present round, and each of its logs is
applied, dropped, or still held. -/
structure Stream.Accounted (st : Stream) (c : ℕ) : Prop where
  tags : ∀ x ∈ st.delivered, x.1 ≤ st.rounds
  fresh : st.pc.fresh → ∀ x ∈ st.delivered, x.1 < st.rounds
  pending : ∀ log, st.pc = .received log → c ≤ stamp log
  top : ¬st.pc.cleared → ∀ x ∈ st.delivered, x.1 = st.rounds →
    stamp x.2 ≤ c ∨ st.pc = .received x.2
  account : ∀ x ∈ st.delivered, x.2 ≠ [] →
    x ∈ st.applied ∨ (∃ g, (x.1, x.2, g) ∈ st.dropped) ∨
      (x.1 = st.rounds ∧ (x.2 ∈ st.unReplayLogs ∨ st.pc.log? = some x.2))

namespace Stream.Accounted

variable {st : Stream} {c : ℕ}

lemma init : Accounted {} 0 := by
  constructor <;> simp

/-- Going on at a point that holds the same log. -/
lemma goto (h : st.Accounted c) (pc : Pc) (hlog : st.pc.log? = pc.log?)
    (hrec : ∀ log, st.pc ≠ .received log ∧ pc ≠ .received log)
    (hfresh : pc.fresh → st.pc.fresh) (hclear : st.pc.cleared → pc.cleared) :
    (st.goto pc).Accounted c where
  tags := h.tags
  fresh hf := h.fresh (hfresh hf)
  pending log hpc := absurd hpc (hrec log).2
  top hc x hx hk := .inl ((h.top (fun hc' => hc (hclear hc')) x hx hk).resolve_right (hrec x.2).1)
  account x hx hne := by
    have hacc := h.account x hx hne
    rwa [hlog] at hacc

/-- A replay of logs that the stream then no longer holds. -/
lemma replay (h : st.Accounted c) (logs queue : List Bytes) (pc : Pc)
    (hrec : ∀ log, st.pc ≠ .received log ∧ pc ≠ .received log)
    (hfresh : ¬pc.fresh) (hclear : ¬st.pc.cleared)
    (hheld : ∀ log, log ∈ st.unReplayLogs ∨ st.pc.log? = some log →
      log ∈ logs ∨ log ∈ queue ∨ pc.log? = some log) :
    { st.replay logs with pc := pc, unReplayLogs := queue : Stream }.Accounted c where
  tags := h.tags
  fresh hf := absurd hf hfresh
  pending log hpc := absurd hpc (hrec log).2
  top _ x hx hk := .inl ((h.top hclear x hx hk).resolve_right (hrec x.2).1)
  account x hx hne := by
    rcases h.account x hx hne with happ | hdrop | ⟨hk, hheld'⟩
    · exact .inl (mem_append_left _ happ)
    · exact .inr (.inl hdrop)
    · rcases hheld x.2 hheld' with hlog | hlog
      · refine .inl (mem_append_right _ (mem_map.mpr ⟨x.2, hlog, ?_⟩))
        rw [← hk]
      · exact .inr (.inr ⟨hk, hlog⟩)

/-- A marker's loop over the queue applies what `G` covers and drops the rest. -/
lemma drainNoops (h : st.Accounted c) (G : ℕ) (hlog : st.pc.log? = none)
    (hrec : ∀ log, st.pc ≠ .received log) (hclear : ¬st.pc.cleared) :
    (st.drainNoops G).Accounted c where
  tags := h.tags
  fresh := False.elim
  pending := by rintro _ ⟨⟩
  top _ x hx hk := .inl ((h.top hclear x hx hk).resolve_right (hrec x.2))
  account x hx hne := by
    rcases h.account x hx hne with happ | ⟨g, hdrop⟩ | ⟨hk, hheld⟩
    · exact .inl (mem_append_left _ happ)
    · exact .inr (.inl ⟨g, mem_append_left _ hdrop⟩)
    · have hq : x.2 ∈ st.unReplayLogs := hheld.resolve_right (by simp [hlog])
      rcases Nat.lt_or_ge G (stamp x.2) with hlt | hle
      · refine .inr (.inl ⟨G, mem_append_right _ (mem_map.mpr ⟨x.2, ?_, by rw [hk]⟩)⟩)
        exact mem_filter.mpr ⟨hq, by simpa using hlt⟩
      · refine .inl (mem_append_right _ (mem_map.mpr ⟨x.2, ?_, by rw [← hk]⟩))
        exact mem_filter.mpr ⟨hq, by simpa using hle⟩

end Stream.Accounted

lemma Move.accounted (hmove : Move s i s') (hs : (s.streams i).Sound (s.cg i))
    (h : (s.streams i).Accounted (s.cg i)) : (s'.streams i).Accounted (s'.cg i) := by
  cases hmove <;>
    simp only [streams_setStream, cg_setStream, cg_storeCg, cg_storeG, update_self]
  case store log hpc _ =>
    refine ⟨h.tags, False.elim, by rintro _ ⟨⟩, fun _ x hx hk => .inl ?_, fun x hx hne => ?_⟩
    · -- watermarks only go up within a round
      rcases h.top (by simp [hpc, Pc.cleared]) x hx hk with hle | heq
      · exact hle.trans (h.pending log hpc)
      · rw [hpc] at heq
        cases heq
        exact le_rfl
    · have hacc := h.account x hx hne
      rwa [hpc] at hacc
  case storeEnd hpc =>
    refine ⟨h.tags, False.elim, by rintro _ ⟨⟩, fun _ x _ _ => .inl (stamp_le x.2),
      fun x hx hne => ?_⟩
    have hacc := h.account x hx hne
    rw [hpc] at hacc
    refine hacc.imp_right (Or.imp_right (And.imp_right fun hheld => .inl ?_))
    exact hheld.resolve_right fun heq => hne (Option.some.inj heq).symm
  case keep log hpc _ =>
    exact h.goto (.drain (some log)) (by rw [hpc]; rfl) (by simp [hpc]) False.elim
      (by simp [hpc, Pc.cleared])
  case replay log hpc _ =>
    refine h.replay [log] (s.streams i).unReplayLogs (.drain none) (by simp [hpc]) False.elim
      (by simp [hpc, Pc.cleared]) fun l hl => ?_
    rcases hl with hl | hl
    · exact .inr (.inl hl)
    · rw [hpc] at hl
      cases hl
      exact .inl (mem_singleton_self _)
  case drain kept hpc =>
    refine h.replay _ _ .idle (by simp [hpc]) False.elim (by simp [hpc, Pc.cleared]) fun l hl => ?_
    rcases hl with hl | hl
    · rw [← takeWhile_append_dropWhile (p := fun log => decide (stamp log ≤ s.G))
        (l := (s.streams i).unReplayLogs), mem_append] at hl
      exact hl.imp_right fun hl => .inl (mem_append_left _ hl)
    · rw [hpc] at hl
      exact .inr (.inl (mem_append_right _ (Option.mem_toList.mpr hl)))
  case lagReplay log logs hpc hq _ =>
    refine h.replay [log] logs (s.streams i).pc (by simp [hpc]) (by simp [hpc, Pc.fresh])
      (by simp [hpc, Pc.cleared]) fun l hl => ?_
    simpa [hq, hpc, Pc.log?] using hl
  case lagDone hpc _ =>
    exact h.goto .idle (by rw [hpc]; rfl) (by simp [hpc]) False.elim (by simp [hpc, Pc.cleared])
  case arrive b hpc =>
    exact h.goto (.wait b) (by rw [hpc]; rfl) (by simp [hpc]) False.elim (by simp [hpc, Pc.cleared])
  case skip hpc _ =>
    exact h.goto (.compute false 0 uint64Max) (by rw [hpc]; rfl) (by simp [hpc])
      (by simp [Pc.fresh]) (by simp [hpc, Pc.cleared])
  case restart hpc _ =>
    exact h.goto .reset (by rw [hpc]; rfl) (by simp [hpc]) False.elim (by simp [hpc, Pc.cleared])
  case next hpc _ =>
    have hq := hs.skipped (by simp [hpc, Pc.skipped])
    refine ⟨fun x hx => (h.tags x hx).trans (Nat.le_succ _),
      fun _ x hx => Nat.lt_succ_of_le (h.tags x hx), by rintro _ ⟨⟩,
      fun hc => absurd rfl hc, fun x hx hne => ?_⟩
    have hacc := h.account x hx hne
    rw [hq, hpc] at hacc
    exact hacc.imp_right fun hacc => .inl (hacc.resolve_right (by simp [Pc.log?]))
  case read last k m hpc _ =>
    exact h.goto (.compute last (k + 1) _) (by rw [hpc]; rfl) (by simp [hpc])
      (by simp [hpc, Pc.fresh]) (by simp [hpc, Pc.cleared])
  case storeG last k m hpc _ =>
    exact h.goto (.load last) (by rw [hpc]; rfl) (by simp [hpc])
      (by simp [hpc, Pc.fresh]) (by simp [hpc, Pc.cleared])
  case drainNoops hpc =>
    exact h.drainNoops s.G (by rw [hpc]; rfl) (by simp [hpc]) (by simp [hpc, Pc.cleared])
  case leave hpc =>
    refine ⟨h.tags, False.elim, by rintro _ ⟨⟩, fun _ x hx hk => ?_, fun x hx hne => ?_⟩
    · exact absurd hk (h.fresh (by simp [hpc, Pc.fresh]) x hx).ne
    · have hacc := h.account x hx hne
      rw [hpc] at hacc
      exact hacc
  case reset hpc =>
    refine ⟨h.tags, False.elim, by rintro _ ⟨⟩, fun hc => absurd rfl hc, fun x hx hne => ?_⟩
    have hacc := h.account x hx hne
    rw [hpc] at hacc
    exact hacc

lemma accounted_deliver (hdel : s.deliver i log = some s')
    (hlog : isNoops log = true ∨ s.cg i ≤ stamp log) (h : (s.streams i).Accounted (s.cg i)) :
    (s'.streams i).Accounted (s'.cg i) := by
  obtain ⟨hidle, ⟨-, rfl⟩ | ⟨hm, rfl⟩⟩ := deliver_cases hdel
  · simpa using h.goto (.arrive 0) (by rw [hidle]; rfl) (by simp [hidle]) False.elim
      (by simp [hidle, Pc.cleared])
  · have hle : s.cg i ≤ stamp log := hlog.resolve_left (by simp [hm])
    simp only [streams_setStream, cg_setStream, update_self]
    refine ⟨fun x hx => ?_, False.elim, fun l hl => ?_, fun _ x hx hk => ?_, fun x hx hne => ?_⟩
    · rcases mem_append.mp hx with hx | hx
      · exact h.tags x hx
      · rw [mem_singleton.mp hx]
    · cases hl
      exact hle
    · rcases mem_append.mp hx with hx | hx
      · exact .inl ((h.top (by simp [hidle, Pc.cleared]) x hx hk).resolve_right (by simp [hidle]))
      · rw [mem_singleton.mp hx]
        exact .inr rfl
    · rcases mem_append.mp hx with hx | hx
      · have hacc := h.account x hx hne
        rw [hidle] at hacc
        exact hacc.imp_right (Or.imp_right (And.imp_right fun hheld =>
          .inl (hheld.resolve_right (by rintro ⟨⟩))))
      · rw [mem_singleton.mp hx]
        exact .inr (.inr ⟨rfl, .inr rfl⟩)

/-- Where dropped logs come from: a marker finds them in the queue, above the bound it loads. -/
lemma Move.dropped_cases (hmove : Move s i s') (hx : x ∈ (s'.streams i).dropped) :
    x ∈ (s.streams i).dropped ∨ ((s.streams i).pc = .load false ∧
      x.1 = (s.streams i).rounds ∧ x.2.1 ∈ (s.streams i).unReplayLogs ∧
      s.G < stamp x.2.1 ∧ x.2.2 = s.G) := by
  cases hmove with
  | drainNoops hpc =>
    simp only [streams_setStream, update_self] at hx
    refine (mem_append.mp hx).imp_right fun hx => ?_
    obtain ⟨log, hlog, rfl⟩ := mem_map.mp hx
    obtain ⟨hq, hlt⟩ := mem_filter.mp hlog
    exact ⟨hpc, rfl, hq, by simpa using hlt, rfl⟩
  | _ =>
    simp only [streams_setStream, update_self] at hx
    exact .inl hx

/-! ## All streams -/

/-- The next step of `advancer` is its store to `G`. -/
def Advancer.stores (N : ℕ) : Advancer → Bool
  | .load k _ => decide (N ≤ k)
  | .reload _ _ => false

/-- While a stream is between the first two barriers, every stream has got the marker and none has
reset its watermark. -/
lemma Counted.phase_of_phase (h : Counted s) (hi : (s.streams i).pc.phase = 2) (j : Fin N) :
    1 ≤ (s.streams j).pc.phase ∧ (s.streams j).pc.phase ≤ 3 := by
  have hij := h.window i j
  have hji := h.window j i
  have hround := h.rounds_eq_of_phase hi j
  have hj := (s.streams j).pc.phase_le
  simp only [State.progress, progress] at hij hji
  omega

/-- Watermarks stand still while a stream is between the first two barriers. -/
lemma Counted.cg_frozen (h : Counted s) (hi : (s.streams i).pc.phase = 2) (hmove : Move s j s') :
    s'.cg = s.cg := by
  have hj := h.phase_of_phase hi j
  cases hmove with
  | store hpc | storeEnd hpc | reset hpc =>
    rw [hpc] at hj
    simp [Pc.phase] at hj
  | _ => rfl

/-- A stream about to load `G` after the first barrier reads a store of `computeG()` of the same
marker: the step made it, or left `G` alone. -/
lemma Counted.load_move (h : Counted s) (hmove : Move s i s')
    (hpc' : (s'.streams j).pc = .load false) :
    s'.cg = s.cg ∧ ((∃ k, (s.streams i).pc = .compute false k s'.G ∧ N ≤ k) ∨
      s'.G = s.G ∧ (s.streams j).pc = .load false) := by
  by_cases hj : j = i
  · subst hj
    cases hmove with
    | @storeG last k m hpc hk =>
      simp only [streams_setStream, update_self, goto] at hpc'
      cases hpc'
      exact ⟨rfl, .inl ⟨k, hpc, hk⟩⟩
    | lagReplay hpc => simp [replay, hpc] at hpc'
    | _ =>
      simp only [streams_setStream, update_self] at hpc'
      cases hpc'
  · -- `j` is between the first two barriers, so no watermark changes
    rw [hmove.streams_ne hj] at hpc'
    have hphase : (s.streams j).pc.phase = 2 := by rw [hpc']; rfl
    refine ⟨h.cg_frozen hphase hmove, ?_⟩
    cases hmove with
    | @storeG last k m hpc hk =>
      have hi := h.phase_of_phase hphase i
      cases last with
      | true => simp [hpc, Pc.phase] at hi
      | false => exact .inl ⟨k, hpc, hk⟩
    | _ => exact .inr ⟨rfl, hpc'⟩

/-- What holds in every state of a vigilant and steady run. -/
structure Settled (s : State N) : Prop extends Bounded s where
  accounted : ∀ i, (s.streams i).Accounted (s.cg i)
  least : ∀ i k m, (s.streams i).pc = .compute false k m → ∃ j, s.cg j ≤ m
  bound : ∀ i, (s.streams i).pc = .load false → ∃ j, s.cg j ≤ s.G
  dropped : ∀ i, ∀ x ∈ (s.streams i).dropped, x.2.2 < stamp x.2.1 ∧
    ∃ j, 6 * x.1 + 1 ≤ s.progress j ∧
      ∀ y ∈ (s.streams j).delivered, y.1 = x.1 → stamp y.2 ≤ x.2.2

namespace Settled

lemma init : Settled (follower N).init where
  toBounded := .init
  accounted _ := .init
  least := nofun
  bound := nofun
  dropped := nofun

section

variable (h : Settled s)

include h

lemma cg_le_max (j : Fin N) : s.cg j ≤ uint64Max := by
  rcases (h.sound j).cg with hzero | ⟨x, -, -, hle⟩
  · rw [hzero]; exact Nat.zero_le _
  · exact hle.trans (stamp_le x.2)

/-- When a stream computes its bound, a stream with the smallest watermark has delivered nothing
above it in this round. -/
lemma delivered_le (hi : (s.streams i).pc.phase = 2) {g : ℕ} (hj : s.cg j ≤ g) :
    ∀ y ∈ (s.streams j).delivered, y.1 = (s.streams i).rounds → stamp y.2 ≤ g := by
  intro y hy hk
  obtain ⟨hlo, hhi⟩ := h.counted.phase_of_phase hi j
  have hround := h.counted.rounds_eq_of_phase hi j
  have hclear : ¬(s.streams j).pc.cleared := by
    intro hc
    unfold Pc.cleared at hc
    split at hc <;> simp_all [Pc.phase]
  have hrec : (s.streams j).pc ≠ .received y.2 := by
    intro hpc
    simp [hpc, Pc.phase] at hlo
  exact (((h.accounted j).top hclear y hy (hk.trans hround.symm)).resolve_right hrec).trans hj

section

variable (hmove : Move s i s')

include hmove

lemma least_move {k m : ℕ} (hpc' : (s'.streams i).pc = .compute false k m) : ∃ j, s'.cg j ≤ m := by
  obtain ⟨hcg, ⟨rfl, rfl⟩ | ⟨-, k, m, hk, hpc, rfl, rfl⟩⟩ := hmove.compute_cases hpc'
  · exact ⟨i, hcg ▸ h.cg_le_max i⟩
  · obtain ⟨j, hj⟩ := h.least i k m hpc
    rw [hcg]
    rcases Nat.le_total m (s.cg ⟨k, hk⟩) with hle | hle
    · exact ⟨j, by rwa [min_eq_left hle]⟩
    · exact ⟨⟨k, hk⟩, by rw [min_eq_right hle]⟩

/-- Every store to `G` while a stream is about to load it is of a bound of the same marker. -/
lemma bound_move (j : Fin N) (hpc' : (s'.streams j).pc = .load false) : ∃ j', s'.cg j' ≤ s'.G := by
  obtain ⟨hcg, ⟨k, hpc, -⟩ | ⟨hG, hpc⟩⟩ := h.counted.load_move hmove hpc' <;> rw [hcg]
  · exact h.least i k _ hpc
  · exact hG ▸ h.bound j hpc

/-- What a marker makes a stream drop is above a bound that a stream has delivered nothing
above. -/
lemma dropped_move :
    ∀ x ∈ (s'.streams i).dropped, x ∈ (s.streams i).dropped ∨ (x.2.2 < stamp x.2.1 ∧
      ∃ j, 6 * x.1 + 1 ≤ s.progress j ∧
        ∀ y ∈ (s.streams j).delivered, y.1 = x.1 → stamp y.2 ≤ x.2.2) := by
  intro x hx
  refine (hmove.dropped_cases hx).imp_right fun hdrop => ?_
  obtain ⟨hpc, hround, -, hlt, hbound⟩ := hdrop
  have hphase : (s.streams i).pc.phase = 2 := by rw [hpc]; rfl
  obtain ⟨j, hj⟩ := h.bound i hpc
  rw [hbound, hround]
  refine ⟨hlt, j, ?_, h.delivered_le hphase hj⟩
  have hlo := (h.counted.phase_of_phase hphase j).1
  have hsame := h.counted.rounds_eq_of_phase hphase j
  simp only [State.progress, progress]
  omega

lemma move (hreset : (s.streams i).pc = .reset → s.advancer.atTop = true) : Settled s' where
  toBounded := h.toBounded.move hmove hreset
  accounted j := by
    by_cases hj : j = i
    · rw [hj]; exact hmove.accounted (h.sound i) (h.accounted i)
    · rw [hmove.streams_ne hj, hmove.cg_ne hj]; exact h.accounted j
  least j k m hpc := by
    by_cases hj : j = i
    · subst hj; exact h.least_move hmove hpc
    · rw [hmove.streams_ne hj] at hpc
      rw [h.counted.cg_frozen (by rw [hpc]; rfl) hmove]
      exact h.least j k m hpc
  bound j := h.bound_move hmove j
  dropped j x hx := by
    have hold : x.2.2 < stamp x.2.1 ∧ ∃ j, 6 * x.1 + 1 ≤ s.progress j ∧
        ∀ y ∈ (s.streams j).delivered, y.1 = x.1 → stamp y.2 ≤ x.2.2 := by
      by_cases hj : j = i
      · subst hj
        exact (h.dropped_move hmove x hx).elim (h.dropped j x) id
      · rw [hmove.streams_ne hj] at hx
        exact h.dropped j x hx
    obtain ⟨hlt, j', hprog, hall⟩ := hold
    refine ⟨hlt, j', hprog.trans (hmove.progress_le j'), ?_⟩
    rw [hmove.delivered j']
    exact hall

end

lemma deliver (hdel : s.deliver i log = some s') (hpos : isNoops log = true ∨ 0 < stamp log)
    (hle : isNoops log = true ∨ s.cg i ≤ stamp log) : Settled s' where
  toBounded := h.toBounded.deliver hdel hpos
  accounted j := by
    have hst := starts_of_deliver hdel
    by_cases hj : j = i
    · rw [hj]; exact accounted_deliver hdel hle (h.accounted i)
    · rw [hst.streams_ne j hj, hst.cg]; exact h.accounted j
  least j k m hpc := by
    have hst := starts_of_deliver hdel
    obtain rfl | hj := eq_or_ne j i
    · exact absurd hpc (hst.compute _ _ _)
    · rw [hst.streams_ne j hj] at hpc
      rw [hst.cg]
      exact h.least j k m hpc
  bound j hpc := by
    have hst := starts_of_deliver hdel
    obtain rfl | hj := eq_or_ne j i
    · exact absurd hpc (hst.load _)
    · rw [hst.streams_ne j hj] at hpc
      rw [hst.cg, hst.G]
      exact h.bound j hpc
  dropped j x hx := by
    have hst := starts_of_deliver hdel
    rw [hst.dropped j] at hx
    obtain ⟨hlt, j', hprog, hall⟩ := h.dropped j x hx
    rw [hst.progress]
    refine ⟨hlt, j', hprog, fun y hy hk => ?_⟩
    obtain rfl | hj := eq_or_ne j' i
    · -- the round of the bound is over on this stream
      refine (hst.delivered y hy).elim (fun hy => hall y hy hk) fun hround => ?_
      simp only [State.progress, progress, hst.idle, Pc.phase] at hprog
      omega
    · rw [hst.streams_ne j' hj] at hy
      exact hall y hy hk

lemma advance (hpos : ∀ k m, s.advancer = .load k m → ∀ j : Fin N, j = k → 0 < s.cg j)
    (hsteady : s.advancer.stores N = true → ∀ i, (s.streams i).pc ≠ .load false) :
    Settled s.advance := by
  refine ⟨h.toBounded.advance hpos, ?_, ?_, ?_, ?_⟩
  · rw [streams_advance, cg_advance]; exact h.accounted
  · rw [streams_advance, cg_advance]; exact h.least
  · rw [streams_advance, cg_advance]
    intro i hpc
    have hG : s.advance.G = s.G := by
      have hno : ¬s.advancer.stores N = true := fun hst => hsteady hst i hpc
      unfold Advancer.stores at hno
      unfold State.advance
      split <;> split <;> simp_all
    rw [hG]
    exact h.bound i hpc
  · simp only [State.progress, streams_advance]
    exact h.dropped

end

end Settled

/-- The logs of a stream arrive in the order of their stamps, and `advancer` does not store to `G`
while a stream is between the store and the load of its first `computeG()`. -/
def steady (s : State N) : Action N → Prop
  | .deliver i log => isNoops log = true ∨ s.cg i ≤ stamp log
  | .run _ => True
  | .advance => s.advancer.stores N = true → ∀ i, (s.streams i).pc ≠ .load false

instance (s : State N) : ∀ a, Decidable (steady s a)
  | .deliver i log => inferInstanceAs (Decidable (isNoops log = true ∨ s.cg i ≤ stamp log))
  | .run _ => isTrue trivial
  | .advance => inferInstanceAs (Decidable (s.advancer.stores N = true → ∀ _, _))

lemma Settled.step (h : Settled s) (hv : vigilant s a) (hs : steady s a)
    (hstep : (follower N).step s a = some s') : Settled s' := by
  cases a with
  | deliver i log => exact h.deliver hstep hv hs
  | run i => exact h.move (move_of_run hstep) hv
  | advance =>
    cases hstep
    refine h.advance (fun k m hadv j hj => hv j ?_) hs
    rw [hadv, hj]
    rfl

/-! ## What is applied -/

/-- A stream is through with a round when it has gone through its marker. -/
lemma Settled.account_of_rounds (h : Settled s) {x : ℕ × Bytes}
    (hx : x ∈ (s.streams i).delivered) (hne : x.2 ≠ []) (hk : x.1 < (s.streams i).rounds) :
    x ∈ (s.streams i).applied ∨ ∃ g, (x.1, x.2, g) ∈ (s.streams i).dropped :=
  ((h.accounted i).account x hx hne).imp_right fun hrest =>
    hrest.resolve_right fun hheld => hk.ne hheld.1

/-- A log that is dropped is above a stamp that some stream does not support. -/
lemma Settled.not_supports_of_dropped (h : Settled s) {k g : ℕ}
    (hd : (k, log, g) ∈ (s.streams i).dropped) : ∃ j, ∀ v, g < v → ¬Supports s j k v := by
  obtain ⟨-, j, -, hall⟩ := h.dropped i _ hd
  refine ⟨j, fun v hv hsup => ?_⟩
  obtain ⟨y, hy, hk, hle⟩ := hsup
  have hyg := hall y hy hk
  dsimp only at hyg
  omega

/-- Behind its marker, a log of a round is applied exactly if every stream supports it. -/
lemma Settled.applied_iff (h : Settled s) (hk : k < (s.streams i).rounds) (hne : log ≠ []) :
    (k, log) ∈ (s.streams i).applied ↔
      (k, log) ∈ (s.streams i).delivered ∧ ∀ j, Supports s j k (stamp log) := by
  constructor
  · intro happ
    exact ⟨(h.sound i).applied _ happ, h.applied i _ happ⟩
  · rintro ⟨hdel, hall⟩
    refine (h.account_of_rounds hdel hne hk).resolve_right ?_
    rintro ⟨g, hd⟩
    obtain ⟨j, hj⟩ := h.not_supports_of_dropped hd
    exact hj _ (h.dropped i _ hd).1 (hall j)

/-! ## The transactions -/

/-- The trailer of a batch is its largest commit id, and no bound at a marker falls inside a log
that is dropped. -/
def whole (s : State N) : Action N → Prop
  | .deliver _ log => ∀ t ∈ txns log, t.1 ≤ latestCommitId log
  | .run i => (s.streams i).pc = .load false → ∀ log ∈ (s.streams i).unReplayLogs,
      s.G < stamp log → ∀ t ∈ txns log, s.G < t.1 / 1000
  | .advance => True

instance (s : State N) : ∀ a, Decidable (whole s a)
  | .deliver _ log => inferInstanceAs (Decidable (∀ t ∈ txns log, t.1 ≤ latestCommitId log))
  | .run i => inferInstanceAs (Decidable (_ → ∀ log ∈ (s.streams i).unReplayLogs, _))
  | .advance => isTrue trivial

/-- A run that is vigilant, steady and drops logs whole. -/
def failsOver (s : State N) (a : Action N) : Prop := vigilant s a ∧ steady s a ∧ whole s a

instance (s : State N) (a : Action N) : Decidable (failsOver s a) :=
  inferInstanceAs (Decidable (_ ∧ _ ∧ _))

/-- What `whole` adds to `Settled`. -/
structure Whole (s : State N) : Prop extends Settled s where
  trailer : ∀ i, ∀ x ∈ (s.streams i).delivered, ∀ t ∈ txns x.2, t.1 ≤ latestCommitId x.2
  above : ∀ i, ∀ x ∈ (s.streams i).dropped, ∀ t ∈ txns x.2.1, x.2.2 < t.1 / 1000

/-- Where the delivered logs come from. -/
lemma delivered_of_step (hstep : (follower N).step s a = some s') {x : ℕ × Bytes}
    (hx : x ∈ (s'.streams j).delivered) : x ∈ (s.streams j).delivered ∨ a = .deliver j x.2 := by
  cases a with
  | deliver i log =>
    by_cases hj : j = i
    · subst hj
      obtain ⟨-, ⟨-, rfl⟩ | ⟨-, rfl⟩⟩ := deliver_cases hstep <;>
        simp only [streams_setStream, update_self] at hx
      · exact .inl hx
      · refine (mem_append.mp hx).imp_right fun hx => ?_
        rw [mem_singleton.mp hx]
    · obtain ⟨-, ⟨-, rfl⟩ | ⟨-, rfl⟩⟩ := deliver_cases hstep <;>
        rw [streams_setStream, update_of_ne hj] at hx <;> exact .inl hx
  | run i =>
    rw [(move_of_run hstep).delivered j] at hx
    exact .inl hx
  | advance =>
    cases hstep
    rw [streams_advance] at hx
    exact .inl hx

lemma dropped_of_step (hstep : (follower N).step s a = some s') (hx : x ∈ (s'.streams j).dropped) :
    x ∈ (s.streams j).dropped ∨ (a = .run j ∧ (s.streams j).pc = .load false ∧
      x.2.1 ∈ (s.streams j).unReplayLogs ∧ s.G < stamp x.2.1 ∧ x.2.2 = s.G) := by
  cases a with
  | deliver i log =>
    rw [(starts_of_deliver hstep).dropped j] at hx
    exact .inl hx
  | run i =>
    have hmove := move_of_run hstep
    by_cases hj : j = i
    · subst hj
      refine (hmove.dropped_cases hx).imp_right fun hdrop => ?_
      obtain ⟨hpc, -, hdrop⟩ := hdrop
      exact ⟨rfl, hpc, hdrop⟩
    · rw [hmove.streams_ne hj] at hx
      exact .inl hx
  | advance =>
    cases hstep
    rw [streams_advance] at hx
    exact .inl hx

lemma Whole.step (h : Whole s) (hG : failsOver s a) (hstep : (follower N).step s a = some s') :
    Whole s' := by
  obtain ⟨hv, hs, hw⟩ := hG
  refine ⟨h.toSettled.step hv hs hstep, fun i x hx => ?_, fun i x hx => ?_⟩
  · rcases delivered_of_step hstep hx with hold | rfl
    · exact h.trailer i x hold
    · exact hw
  · rcases dropped_of_step hstep hx with hold | ⟨rfl, hpc, hq, hlt, hbound⟩
    · exact h.above i x hold
    · rw [hbound]
      exact hw hpc x.2.1 hq hlt

lemma Whole.of_run (h : Lts.Run (follower N) failsOver (follower N).init s) : Whole s :=
  h.invariant Whole (fun _ _ _ ht hG hstep => ht.step hG hstep) ⟨.init, nofun, nofun⟩

/-- The transactions in the logs of round `k` of all streams. -/
def txnsOf (logs : Fin N → List (ℕ × Bytes)) (k : ℕ) : List (ℕ × List Sto.KV) :=
  (List.finRange N).flatMap fun i => ((logs i).filter fun x => x.1 = k).flatMap fun x => txns x.2

lemma mem_txnsOf {logs : Fin N → List (ℕ × Bytes)} {t : ℕ × List Sto.KV} :
    t ∈ txnsOf logs k ↔ ∃ i, ∃ x ∈ logs i, x.1 = k ∧ t ∈ txns x.2 := by
  simp [txnsOf, and_assoc]

/-- The transactions of round `k` that were delivered. -/
def State.deliveredTxns (s : State N) (k : ℕ) : List (ℕ × List Sto.KV) :=
  txnsOf (fun i => (s.streams i).delivered) k

/-- The transactions of round `k` that were applied. -/
def State.appliedTxns (s : State N) (k : ℕ) : List (ℕ × List Sto.KV) :=
  txnsOf (fun i => (s.streams i).applied) k

/-- The transactions of round `k` that were applied are closed downward: if a transaction was
applied, so was each one with a smaller commit id that was delivered on any stream. -/
def PrefixClosed (s : State N) (k : ℕ) : Prop :=
  ∀ t₁ ∈ s.deliveredTxns k, ∀ t₂ ∈ s.appliedTxns k, t₁.1 < t₂.1 → t₁ ∈ s.appliedTxns k

instance (s : State N) (k : ℕ) : Decidable (PrefixClosed s k) :=
  inferInstanceAs (Decidable (∀ t₁ ∈ s.deliveredTxns k, ∀ t₂ ∈ s.appliedTxns k, _))

/-- Failover keeps a prefix in time, in every run in which logs arrive in order and no bound at a
marker falls inside a log that is dropped. -/
theorem prefixClosed_of_failsOver (h : Lts.Run (follower N) failsOver (follower N).init s) (k : ℕ)
    (hk : ∀ i, k < (s.streams i).rounds) : PrefixClosed s k := by
  have hw := Whole.of_run h
  intro t₁ hdelivered t₂ happlied hlt
  obtain ⟨i₁, x₁, hx₁, hk₁, ht₁⟩ := mem_txnsOf.mp hdelivered
  obtain ⟨i₂, x₂, hx₂, hk₂, ht₂⟩ := mem_txnsOf.mp happlied
  have hne₁ : x₁.2 ≠ [] := by
    intro hnil
    rw [hnil] at ht₁
    cases ht₁
  rcases hw.account_of_rounds hx₁ hne₁ (hk₁ ▸ hk i₁) with happ | ⟨g, hd⟩
  · exact mem_txnsOf.mpr ⟨i₁, x₁, happ, hk₁, ht₁⟩
  · -- the log is dropped at `g`, below its transactions, but `t₂` is of a log that all support
    exfalso
    obtain ⟨j, hj⟩ := hw.not_supports_of_dropped hd
    have hsup := hw.applied i₂ x₂ hx₂ j
    have htrail := hw.trailer i₂ x₂ ((hw.sound i₂).applied x₂ hx₂) t₂ ht₂
    have hstamp := le_stamp x₂.2
    have habove := hw.above i₁ _ hd t₁ ht₁
    have hdiv : t₁.1 / 1000 ≤ latestCommitId x₂.2 / 1000 :=
      Nat.div_le_div_right (hlt.le.trans htrail)
    rw [hk₂, ← hk₁] at hsup
    exact hj _ (lt_of_lt_of_le habove (hdiv.trans hstamp)) hsup

/-- The log `no-ops:2` that the leader of epoch 2 submits to every stream. -/
def markerOfTwo : Bytes := [110, 111, 45, 111, 112, 115, 58, 50]

/-- Both of two streams get the marker and go through it side by side. -/
def throughMarker : List (Action 2) :=
  [.deliver 0 markerOfTwo, .deliver 1 markerOfTwo, .run 0, .run 1,
    -- the bound, and the loop over the queue
    .run 0, .run 0, .run 0, .run 0, .run 0, .run 1, .run 1, .run 1, .run 1, .run 1,
    -- the second barrier, the reset and the third barrier
    .run 0, .run 1, .run 0, .run 0, .run 0, .run 1, .run 1, .run 1,
    .run 0, .run 0, .run 0, .run 0, .run 0, .run 1, .run 1, .run 1, .run 1, .run 1]

/-- Stream `i` gets a batch and keeps it. -/
def keeps (i : Fin 2) (log : Bytes) : List (Action 2) := [.deliver i log, .run i, .run i, .run i]

/-- The bound 5 lies below the log with the readings 6 and 10. -/
theorem prefixClosed_of_failsOver_below :
    ∃ s, (Lts.Run (follower 2) failsOver (follower 2).init s ∧
      (∀ i, 0 < (s.streams i).rounds) ∧ (0, batchOf [5]) ∈ (s.streams 1).applied) ∧
      PrefixClosed s 0 := by
  obtain ⟨s, hrun, hk, happ⟩ := Lts.exists_run_of_execGuarded (follower 2) failsOver {}
    (keeps 0 (batchOf [6, 10]) ++ keeps 1 (batchOf [5]) ++ throughMarker)
    (fun s => (∀ i, 0 < (s.streams i).rounds) ∧ (0, batchOf [5]) ∈ (s.streams 1).applied)
    (by decide +kernel)
  exact ⟨s, ⟨hrun, hk, happ⟩, prefixClosed_of_failsOver hrun 0 hk⟩

/-- The bound 5 falls inside the log with the readings 3 and 10: the log is dropped, and with it a
transaction that is older than the one applied on the other stream. -/
theorem not_prefixClosed_inside : ∃ s, Lts.Reachable (follower 2) s ∧
    (∀ i, 0 < (s.streams i).rounds) ∧ ¬PrefixClosed s 0 :=
  Lts.exists_reachable_of_exec (follower 2)
    (keeps 0 (batchOf [3, 10]) ++ keeps 1 (batchOf [5]) ++ throughMarker)
    (fun s => (∀ i, 0 < (s.streams i).rounds) ∧ ¬PrefixClosed s 0) (by decide +kernel)

end Rolis.Replay
