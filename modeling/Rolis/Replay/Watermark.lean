import Mathlib.Data.List.TakeWhile
import Rolis.Replay.FollowerTheorems

/-!
# Watermark safety

A batch is safe to replay once every stream has delivered, in the same epoch, a batch that is not
older, or has ended. `G` is meant to be such a bound: the smallest of the watermarks.

`advancer` skips the watermarks that are still 0, so its bound says nothing about the streams that
have delivered nothing yet; and an iteration that began before a reset stores a bound of the old
epoch. `vigilant` excludes these two: `advancer` finds no watermark 0, and no stream resets its
watermark while an iteration is under way. Then every value that a stream can read from `G` is 0
or supported by all streams in the epoch of the reader, `Bounded`.
-/

namespace Rolis.Replay

open List Function Replay.Stream

open Sto (latestCommitId)

variable {N m c : ℕ} {s s' : State N} {i j : Fin N} {k v w : ℕ} {log : Bytes} {st : Stream}

/-! ## Support -/

/-- Stream `j` has delivered, behind `k` markers, a log with a stamp of at least `v`. -/
def Supports (s : State N) (j : Fin N) (k v : ℕ) : Prop :=
  ∃ x ∈ (s.streams j).delivered, x.1 = k ∧ v ≤ stamp x.2

lemma Supports.anti (h : Supports s j k v) (hw : w ≤ v) : Supports s j k w := by
  obtain ⟨x, hx, hk, hv⟩ := h
  exact ⟨x, hx, hk, hw.trans hv⟩

/-- Every stream supports `v`, or `v` is the initial value. -/
def SupportedBy (s : State N) (k v : ℕ) : Prop := v = 0 ∨ ∀ j, Supports s j k v

/-- The logs delivered in `s` are delivered in `s'`. -/
def Grows (s s' : State N) : Prop :=
  ∀ j, (s.streams j).delivered ⊆ (s'.streams j).delivered

lemma Supports.grows (h : Supports s j k v) (hg : Grows s s') : Supports s' j k v := by
  obtain ⟨x, hx, hkv⟩ := h
  exact ⟨x, hg j hx, hkv⟩

lemma SupportedBy.grows (h : SupportedBy s k v) (hg : Grows s s') : SupportedBy s' k v :=
  h.imp_right fun hall j => (hall j).grows hg

lemma Move.grows (hmove : Move s i s') : Grows s s' := fun j => by
  rw [hmove.delivered j]
  exact List.Subset.refl _

lemma grows_deliver (h : s.deliver i log = some s') : Grows s s' := by
  intro j
  obtain ⟨-, ⟨-, rfl⟩ | ⟨-, rfl⟩⟩ := deliver_cases h <;> by_cases hj : j = i
  · subst hj; simp [goto]
  · simp [hj]
  · subst hj; simp
  · simp [hj]

/-! ## One stream and its watermark -/

/-- The log a callback still holds. -/
def Pc.log? : Pc → Option Bytes
  | .received log | .check log => some log
  | .drain kept => kept
  | _ => none

/-- The points of a marker behind the loop over the queue. -/
def Pc.skipped : Pc → Prop
  | .arrive b => 0 < b.val
  | .wait b => 0 < b.val
  | .reset => True
  | .compute last _ _ => last = true
  | .load last => last = true
  | _ => False

/-- The points between the reset of a watermark and the next log. -/
def Pc.cleared : Pc → Prop
  | .arrive b => b.val = 2
  | .wait b => b.val = 2
  | .compute last _ _ => last = true
  | .load last => last = true
  | _ => False

/-- The logs a stream holds are of its present epoch, its queue is empty behind a marker's loop,
and its watermark is 0 or the stamp of a log of the present epoch. -/
structure Stream.Sound (st : Stream) (c : ℕ) : Prop where
  queue : ∀ log ∈ st.unReplayLogs, (st.rounds, log) ∈ st.delivered
  held : ∀ log, st.pc.log? = some log → (st.rounds, log) ∈ st.delivered
  skipped : st.pc.skipped → st.unReplayLogs = []
  positive : ∀ x ∈ st.delivered, 0 < stamp x.2
  cg : c = 0 ∨ ∃ x ∈ st.delivered, x.1 = st.rounds ∧ c ≤ stamp x.2
  cleared : st.pc.cleared → c = 0
  applied : ∀ x ∈ st.applied, x ∈ st.delivered

lemma Stream.sound_init : ({} : Stream).Sound 0 := by
  constructor <;> simp [Pc.log?, Pc.skipped, Pc.cleared]

/-- Going on at a point that holds no log or the same one. -/
lemma Stream.Sound.goto (h : st.Sound c) (pc : Pc)
    (hlog : pc.log? = none ∨ pc.log? = st.pc.log?) (hskip : pc.skipped → st.pc.skipped)
    (hclear : pc.cleared → st.pc.cleared) : (st.goto pc).Sound c where
  queue := h.queue
  held log hl := by
    rcases hlog with hnone | hsame
    · exact absurd (hnone.symm.trans hl) (Option.some_ne_none log).symm
    · exact h.held log (hsame.symm.trans hl)
  skipped hs := h.skipped (hskip hs)
  positive := h.positive
  cg := h.cg
  cleared hc := h.cleared (hclear hc)
  applied := h.applied

/-- A replay of logs the stream holds. -/
lemma Stream.Sound.replay (h : st.Sound c) {logs : List Bytes}
    (hlogs : ∀ log ∈ logs, (st.rounds, log) ∈ st.delivered) :
    ∀ x ∈ (st.replay logs).applied, x ∈ st.delivered := by
  intro x hx
  rcases mem_append.mp hx with hx | hx
  · exact h.applied x hx
  · obtain ⟨log, hlog, rfl⟩ := mem_map.mp hx
    exact hlogs log hlog

lemma Move.sound (hmove : Move s i s') (h : (s.streams i).Sound (s.cg i)) :
    (s'.streams i).Sound (s'.cg i) := by
  cases hmove <;>
    simp only [streams_setStream, cg_setStream, cg_storeCg, cg_storeG, update_self]
  case store log hpc _ =>
    have hlog := h.held log (by rw [hpc]; rfl)
    refine ⟨h.queue, ?_, False.elim, h.positive, .inr ⟨_, hlog, rfl, le_rfl⟩, False.elim, h.applied⟩
    intro log' hl
    cases hl
    exact hlog
  case storeEnd hpc =>
    have hlog := h.held [] (by rw [hpc]; rfl)
    exact ⟨h.queue, by rintro _ ⟨⟩, False.elim, h.positive, .inr ⟨_, hlog, rfl, le_rfl⟩, False.elim,
      h.applied⟩
  case keep log hpc _ =>
    exact h.goto (.drain (some log)) (.inr (by rw [hpc]; rfl)) False.elim False.elim
  case replay log hpc _ =>
    have hlog := h.held log (by rw [hpc]; rfl)
    exact ⟨h.queue, by rintro _ ⟨⟩, False.elim, h.positive, h.cg, False.elim,
      h.replay (by simpa using hlog)⟩
  case drain kept hpc =>
    refine ⟨?_, by rintro _ ⟨⟩, False.elim, h.positive, h.cg, False.elim,
      h.replay fun log hlog => h.queue log (takeWhile_subset _ hlog)⟩
    intro log hlog
    rcases mem_append.mp hlog with hq | hk
    · exact h.queue log (dropWhile_subset _ hq)
    · exact h.held log (by rw [hpc]; exact Option.mem_toList.mp hk)
  case lagReplay log logs hpc hq _ =>
    refine ⟨?_, by simp [Stream.replay, hpc, Pc.log?], by simp [Stream.replay, hpc, Pc.skipped],
      h.positive, h.cg, by simp [Stream.replay, hpc, Pc.cleared],
      h.replay (by simpa using h.queue log (hq ▸ mem_cons_self))⟩
    intro log' hlog'
    exact h.queue log' (hq ▸ mem_cons_of_mem log hlog')
  case lagDone hpc _ => exact h.goto .idle (.inl rfl) False.elim False.elim
  case arrive b hpc =>
    exact h.goto (.wait b) (.inl rfl) (by simp [hpc, Pc.skipped]) (by simp [hpc, Pc.cleared])
  case skip hpc _ =>
    exact h.goto (.compute false 0 uint64Max) (.inl rfl) (by simp [Pc.skipped])
      (by simp [Pc.cleared])
  case restart hpc _ => exact h.goto .reset (.inl rfl) (by simp [hpc, Pc.skipped]) False.elim
  case next hpc _ =>
    have hq := h.skipped (by simp [hpc, Pc.skipped])
    have hcg := h.cleared (by simp [hpc, Pc.cleared])
    exact ⟨by simp [hq], by rintro _ ⟨⟩, fun _ => hq, h.positive, .inl hcg, fun _ => hcg, h.applied⟩
  case read last k m hpc _ =>
    exact h.goto (.compute last (k + 1) _) (.inl rfl) (by simp [hpc, Pc.skipped])
      (by simp [hpc, Pc.cleared])
  case storeG last k m hpc _ =>
    exact h.goto (.load last) (.inl rfl) (by simp [hpc, Pc.skipped]) (by simp [hpc, Pc.cleared])
  case drainNoops hpc =>
    exact ⟨forall_mem_nil _, by rintro _ ⟨⟩, fun _ => rfl, h.positive, h.cg,
      by simp [Stream.drainNoops, Pc.cleared],
      h.replay fun log hlog => h.queue log (mem_filter.mp hlog).1⟩
  case leave hpc => exact h.goto .idle (.inl rfl) False.elim False.elim
  case reset hpc =>
    have hq := h.skipped (by simp [hpc, Pc.skipped])
    exact ⟨h.queue, by rintro _ ⟨⟩, fun _ => hq, h.positive, .inl rfl, fun _ => rfl, h.applied⟩

lemma sound_deliver (hdel : s.deliver i log = some s')
    (hlog : isNoops log = true ∨ 0 < stamp log) (h : (s.streams i).Sound (s.cg i)) :
    (s'.streams i).Sound (s'.cg i) := by
  obtain ⟨hidle, ⟨-, rfl⟩ | ⟨hm, rfl⟩⟩ := deliver_cases hdel
  · simpa using h.goto (.arrive 0) (.inl rfl) (by simp [Pc.skipped]) (by simp [Pc.cleared])
  · have hpos : 0 < stamp log := hlog.resolve_left (by simp [hm])
    simp only [streams_setStream, cg_setStream, update_self]
    refine ⟨?_, ?_, False.elim, ?_, ?_, False.elim, fun x hx => mem_append_left _ (h.applied x hx)⟩
    · exact fun l hl => mem_append_left _ (h.queue l hl)
    · intro l hl
      cases hl
      exact mem_append_right _ (mem_singleton_self _)
    · intro x hx
      rcases mem_append.mp hx with hx | hx
      · exact h.positive x hx
      · rw [mem_singleton.mp hx]
        exact hpos
    · exact h.cg.imp_right fun ⟨x, hx, hxk⟩ => ⟨x, mem_append_left _ hx, hxk⟩

/-! ## Rounds -/

lemma Pc.phase_le (pc : Pc) : pc.phase ≤ 5 := by
  unfold Pc.phase
  split <;> omega

lemma Pc.cleared_of_phase {pc : Pc} (h : pc.phase = 5) : pc.cleared := by
  unfold Pc.phase at h
  split at h
  · omega
  · next b => exact show (b : ℕ) = 2 by omega
  all_goals omega

/-- While a stream is in its first `computeG()` or about to leave it, all streams are in the same
round. -/
lemma Counted.rounds_eq_of_phase (h : Counted s) (hi : (s.streams i).pc.phase = 2) (j : Fin N) :
    (s.streams j).rounds = (s.streams i).rounds := by
  have hij := h.window i j
  have hji := h.window j i
  have hj := (s.streams j).pc.phase_le
  simp only [State.progress, progress] at hij hji
  omega

/-- Streams whose watermark is not 0 are in the same round. -/
lemma Counted.rounds_le_of_cg (h : Counted s) (hs : ∀ i, (s.streams i).Sound (s.cg i))
    (hi : 0 < s.cg i) : (s.streams j).rounds ≤ (s.streams i).rounds := by
  by_contra hlt
  have hji := h.window j i
  have hle := (s.streams i).pc.phase_le
  simp only [State.progress, progress] at hji
  -- stream `i` waits at the third barrier, behind its reset
  have hphase : (s.streams i).pc.phase = 5 := by omega
  exact absurd ((hs i).cleared (Pc.cleared_of_phase hphase)) hi.ne'

/-! ## The bound -/

/-- `advancer` is at the top of its loop. -/
def Advancer.atTop : Advancer → Bool
  | .load 0 _ => true
  | _ => false

/-- The watermark that the next step loads for its comparison with 0. -/
def Advancer.loading : Advancer → Option ℕ
  | .load k _ => some k
  | .reload _ _ => none

/-- The points at which a stream may go on to read `G` for a decision in its present round. -/
def Pc.reads : Pc → Prop
  | .arrive b => b.val = 0
  | .wait b => b.val = 0
  | .compute last _ _ => last = false
  | .reset => False
  | _ => True

/-- What `minSoFar` of `advancer` stands for: the watermarks below `k` are not 0, and their
streams support it. -/
def AdvancerSound (s : State N) : Advancer → Prop
  | .load k m => ∀ j : Fin N, j < k → 0 < s.cg j ∧ Supports s j (s.streams j).rounds m
  | .reload k m => (∀ j : Fin N, j < k → 0 < s.cg j ∧ Supports s j (s.streams j).rounds m) ∧
      ∀ j : Fin N, j = k → 0 < s.cg j

/-- What holds in every state of a vigilant run. -/
structure Bounded (s : State N) : Prop where
  counted : Counted s
  sound : ∀ i, (s.streams i).Sound (s.cg i)
  first : ∀ i k m, (s.streams i).pc = .compute false k m →
    m = 0 ∨ ∀ j : Fin N, j < k → Supports s j (s.streams i).rounds m
  last : ∀ i k m, (s.streams i).pc = .compute true k m → i < k → m = 0
  G : ∀ i, (s.streams i).pc.reads → SupportedBy s (s.streams i).rounds s.G
  advancer : AdvancerSound s s.advancer
  applied : ∀ i, ∀ x ∈ (s.streams i).applied, ∀ j, Supports s j x.1 (stamp x.2)

namespace Bounded

lemma init : Bounded (follower N).init where
  counted := Barrier.Counted.zero
  sound _ := sound_init
  first := nofun
  last := nofun
  G _ _ := .inl rfl
  advancer := nofun
  applied := nofun

section

variable (h : Bounded s)

include h

/-- A log of the present round that is not above `G` is supported by all streams. -/
lemma ready (hr : (s.streams i).pc.reads)
    (hlog : ((s.streams i).rounds, log) ∈ (s.streams i).delivered) (hle : stamp log ≤ s.G)
    (j : Fin N) : Supports s j (s.streams i).rounds (stamp log) := by
  rcases h.G i hr with hzero | hall
  · have hpos := (h.sound i).positive _ hlog
    dsimp only at hpos
    omega
  · exact (hall j).anti hle

/-- What a move adds to `applied` was ready. -/
lemma applied_move (hmove : Move s i s') :
    ∀ x ∈ (s'.streams i).applied, ∀ j, Supports s j x.1 (stamp x.2) := by
  have hreplay : ∀ logs : List Bytes, (s.streams i).pc.reads →
      (∀ log ∈ logs, ((s.streams i).rounds, log) ∈ (s.streams i).delivered ∧ stamp log ≤ s.G) →
      ∀ x ∈ ((s.streams i).replay logs).applied, ∀ j, Supports s j x.1 (stamp x.2) := by
    intro logs hr hlogs x hx j
    rcases mem_append.mp hx with hx | hx
    · exact h.applied i x hx j
    · obtain ⟨log, hlog, rfl⟩ := mem_map.mp hx
      exact h.ready hr (hlogs log hlog).1 (hlogs log hlog).2 j
  cases hmove with
  | @replay log hpc hle =>
    simp only [streams_setStream, update_self]
    refine hreplay [log] (by simp [hpc, Pc.reads]) fun l hl => ?_
    rw [mem_singleton.mp hl]
    exact ⟨(h.sound i).held log (by rw [hpc]; rfl), hle⟩
  | drain hpc =>
    simp only [streams_setStream, update_self]
    refine hreplay _ (by simp [hpc, Pc.reads]) fun l hl => ?_
    have hle := mem_takeWhile_imp hl
    exact ⟨(h.sound i).queue l (takeWhile_subset _ hl), by simpa using hle⟩
  | @lagReplay log logs hpc hq hle =>
    simp only [streams_setStream, update_self]
    refine hreplay [log] (by simp [hpc, Pc.reads]) fun l hl => ?_
    rw [mem_singleton.mp hl]
    exact ⟨(h.sound i).queue log (hq ▸ mem_cons_self), hle⟩
  | drainNoops hpc =>
    simp only [streams_setStream, update_self]
    refine hreplay _ (by simp [hpc, Pc.reads]) fun l hl => ?_
    obtain ⟨hmem, hle⟩ := mem_filter.mp hl
    exact ⟨(h.sound i).queue l hmem, by simpa using hle⟩
  | _ =>
    simp only [streams_setStream, update_self]
    exact h.applied i

/-- A load of the first `computeG()` keeps `minSoFar` supported. -/
lemma first_move (hmove : Move s i s') (hpc' : (s'.streams i).pc = .compute false k m) :
    m = 0 ∨ ∀ j : Fin N, j < k → Supports s j (s'.streams i).rounds m := by
  obtain ⟨-, ⟨rfl, rfl⟩ | ⟨hr, k, m, hk, hpc, rfl, rfl⟩⟩ := hmove.compute_cases hpc'
  · exact .inr fun j hj => absurd hj (Nat.not_lt_zero _)
  · rw [hr]
    have hround := h.counted.rounds_eq_of_phase (i := i) (by simp [hpc, Pc.phase]) ⟨k, hk⟩
    -- a watermark that is 0 makes the minimum 0
    rcases h.first i k m hpc with hm | hm
    · exact .inl (by rw [hm, Nat.zero_min])
    · rcases (h.sound ⟨k, hk⟩).cg with hcg | ⟨x, hx, hxk, hle⟩
      · exact .inl (by rw [hcg, Nat.min_zero])
      · refine .inr fun j hj => ?_
        rcases Nat.lt_succ_iff_lt_or_eq.mp hj with hlt | heq
        · exact (hm j hlt).anti (min_le_left _ _)
        · obtain rfl : j = ⟨k, hk⟩ := Fin.ext heq
          exact ⟨x, hx, hxk.trans hround, (min_le_right _ _).trans hle⟩

/-- The second `computeG()` loads the stream's own watermark, which is 0. -/
lemma last_move (hmove : Move s i s') (hpc' : (s'.streams i).pc = .compute true k m)
    (hik : i < k) : m = 0 := by
  obtain ⟨-, ⟨rfl, rfl⟩ | ⟨-, k, m, hk, hpc, rfl, rfl⟩⟩ := hmove.compute_cases hpc'
  · exact absurd hik (Nat.not_lt_zero _)
  · rcases Nat.lt_succ_iff_lt_or_eq.mp hik with hlt | heq
    · rw [h.last i k m hpc hlt, Nat.zero_min]
    · obtain rfl : i = ⟨k, hk⟩ := Fin.ext heq
      have hcg := (h.sound ⟨k, hk⟩).cleared (by simp [hpc, Pc.cleared])
      rw [hcg, Nat.min_zero]

/-- What `computeG()` stores is supported in the round of every reader. -/
lemma storeG_supported {last : Bool} (hpc : (s.streams i).pc = .compute last k m) (hk : N ≤ k)
    (j : Fin N) : SupportedBy s (s.streams j).rounds m := by
  cases last with
  | true => exact .inl (h.last i k m hpc (i.isLt.trans_le hk))
  | false =>
    have hround := h.counted.rounds_eq_of_phase (i := i) (by simp [hpc, Pc.phase]) j
    rw [hround]
    exact (h.first i k m hpc).imp_right fun hall j => hall j (j.isLt.trans_le hk)

lemma G_move (hmove : Move s i s') (j : Fin N) (hr : (s'.streams j).pc.reads) :
    SupportedBy s (s'.streams j).rounds s'.G := by
  by_cases hj : j = i
  · subst hj
    cases hmove with
    | next hpc _ => simp [Pc.reads] at hr
    | storeG hpc hk => simpa [goto] using h.storeG_supported hpc hk j
    | lagReplay hpc => simpa [replay] using h.G j (by simp [hpc, Pc.reads])
    | arrive hpc | @read last _ _ hpc _ =>
      simp only [goto, Pc.reads, streams_setStream, update_self] at hr
      simpa [goto] using h.G j (by simp [hpc, Pc.reads, hr])
    | reset hpc | restart hpc => simp [goto, Pc.reads] at hr
    | drainNoops hpc => simp [drainNoops, Pc.reads] at hr
    | store hpc | storeEnd hpc | keep hpc | replay hpc | drain hpc | lagDone hpc | skip hpc
    | leave hpc =>
      simpa [goto, replay, drain] using h.G j (by simp [hpc, Pc.reads])
  · rw [hmove.streams_ne hj] at hr ⊢
    cases hmove with
    | storeG hpc hk => exact h.storeG_supported hpc hk j
    | _ => exact h.G j hr

/-- A watermark that is not 0 stays so, in its round, until it is reset. -/
lemma cg_move (hmove : Move s i s') (hi : (s.streams i).pc ≠ .reset) (hj : 0 < s.cg j) :
    0 < s'.cg j ∧ (s'.streams j).rounds = (s.streams j).rounds := by
  by_cases hji : j = i
  · subst hji
    cases hmove with
    | @store log hpc _ =>
      have hpos := (h.sound j).positive _ ((h.sound j).held log (by rw [hpc]; rfl))
      simpa [goto] using hpos
    | storeEnd => simp [goto, uint64Max]
    | next hpc _ => exact absurd ((h.sound j).cleared (by simp [hpc, Pc.cleared])) hj.ne'
    | reset hpc => exact absurd hpc hi
    | _ =>
      simp only [streams_setStream, cg_setStream, update_self]
      exact ⟨hj, rfl⟩
  · rw [hmove.cg_ne hji, hmove.streams_ne hji]
    exact ⟨hj, rfl⟩

/-- Where a step keeps watermarks from 0 and streams in their rounds, it keeps `minSoFar` of
`advancer` sound. -/
lemma advancer_of_kept (hg : Grows s s')
    (hkept : ∀ j, 0 < s.cg j → 0 < s'.cg j ∧ (s'.streams j).rounds = (s.streams j).rounds) :
    AdvancerSound s' s.advancer := by
  have hadv := h.advancer
  have hbelow : ∀ {j : Fin N} {m : ℕ}, 0 < s.cg j ∧ Supports s j (s.streams j).rounds m →
      0 < s'.cg j ∧ Supports s' j (s'.streams j).rounds m := by
    intro j m hj
    obtain ⟨hpos, hround⟩ := hkept j hj.1
    exact ⟨hpos, hround ▸ hj.2.grows hg⟩
  cases hs : s.advancer with
  | load k m =>
    rw [hs] at hadv
    exact fun j hj => hbelow (hadv j hj)
  | reload k m =>
    rw [hs] at hadv
    exact ⟨fun j hj => hbelow (hadv.1 j hj), fun j hj => (hkept j (hadv.2 j hj)).1⟩

lemma move (hmove : Move s i s') (hreset : (s.streams i).pc = .reset → s.advancer.atTop = true) :
    Bounded s' where
  counted := h.counted.move hmove
  sound j := by
    by_cases hj : j = i
    · rw [hj]; exact hmove.sound (h.sound i)
    · rw [hmove.streams_ne hj, hmove.cg_ne hj]; exact h.sound j
  first j k m hpc := by
    have hall : m = 0 ∨ ∀ j' : Fin N, j' < k → Supports s j' (s'.streams j).rounds m := by
      by_cases hj : j = i
      · subst hj; exact h.first_move hmove hpc
      · rw [hmove.streams_ne hj] at hpc ⊢; exact h.first j k m hpc
    exact hall.imp_right fun hsup j' hj' => (hsup j' hj').grows hmove.grows
  last j k m hpc := by
    by_cases hj : j = i
    · subst hj; exact h.last_move hmove hpc
    · rw [hmove.streams_ne hj] at hpc; exact h.last j k m hpc
  G j hr := (h.G_move hmove j hr).grows hmove.grows
  advancer := by
    rw [hmove.advancer_eq]
    -- a reset falls where `advancer` has not loaded anything yet
    by_cases hi : (s.streams i).pc = .reset
    · have htop := hreset hi
      unfold Advancer.atTop at htop
      split at htop
      · next hs => rw [hs]; exact nofun
      · cases htop
    · exact h.advancer_of_kept hmove.grows fun j => h.cg_move hmove hi
  applied j x hx j' := by
    have hsup : Supports s j' x.1 (stamp x.2) := by
      by_cases hj : j = i
      · subst hj; exact h.applied_move hmove x hx j'
      · rw [hmove.streams_ne hj] at hx; exact h.applied j x hx j'
    exact hsup.grows hmove.grows

lemma deliver (hdel : s.deliver i log = some s') (hlog : isNoops log = true ∨ 0 < stamp log) :
    Bounded s' where
  counted := h.counted.deliver hdel
  sound j := by
    have hst := starts_of_deliver hdel
    by_cases hj : j = i
    · rw [hj]; exact sound_deliver hdel hlog (h.sound i)
    · rw [hst.streams_ne j hj, hst.cg]; exact h.sound j
  first j k m hpc := by
    have hst := starts_of_deliver hdel
    obtain rfl | hj := eq_or_ne j i
    · exact absurd hpc (hst.compute _ _ _)
    · rw [hst.streams_ne j hj] at hpc ⊢
      refine (h.first j k m hpc).imp_right fun hsup j' hj' => ?_
      exact (hsup j' hj').grows (grows_deliver hdel)
  last j k m hpc := by
    have hst := starts_of_deliver hdel
    obtain rfl | hj := eq_or_ne j i
    · exact absurd hpc (hst.compute _ _ _)
    · rw [hst.streams_ne j hj] at hpc
      exact h.last j k m hpc
  G j hr := by
    have hst := starts_of_deliver hdel
    rw [hst.G, hst.rounds j]
    refine (h.G j ?_).grows (grows_deliver hdel)
    obtain rfl | hj := eq_or_ne j i
    · rw [hst.idle]; trivial
    · rwa [hst.streams_ne j hj] at hr
  advancer := by
    have hst := starts_of_deliver hdel
    rw [hst.advancer]
    exact h.advancer_of_kept (grows_deliver hdel) fun j hj => ⟨hst.cg ▸ hj, hst.rounds j⟩
  applied j x hx j' := by
    rw [(starts_of_deliver hdel).applied j] at hx
    exact (h.applied j x hx j').grows (grows_deliver hdel)

/-- What `advancer` stores is supported in the round of every stream: no watermark is 0, so all
streams are in one round. -/
lemma storeG_advancer (hs : s.advancer = .load k m) (hk : N ≤ k) (i : Fin N) :
    SupportedBy s (s.streams i).rounds m := by
  have hadv := h.advancer
  rw [hs] at hadv
  refine .inr fun j => ?_
  obtain ⟨hj, hsup⟩ := hadv j (j.isLt.trans_le hk)
  obtain ⟨hi, -⟩ := hadv i (i.isLt.trans_le hk)
  have hround : (s.streams j).rounds = (s.streams i).rounds :=
    le_antisymm (h.counted.rounds_le_of_cg h.sound hi) (h.counted.rounds_le_of_cg h.sound hj)
  exact hround ▸ hsup

lemma advance (hpos : ∀ k m, s.advancer = .load k m → ∀ j : Fin N, j = k → 0 < s.cg j) :
    Bounded s.advance := by
  have hadv := h.advancer
  unfold State.advance
  split
  · next k m hs =>
    rw [hs] at hadv
    split
    · next hk =>
      rw [if_pos (hpos k m hs ⟨k, hk⟩ rfl)]
      exact { h with advancer := ⟨hadv, hpos k m hs⟩ }
    · next hk =>
      exact { h with
        G := fun i _ => h.storeG_advancer hs (Nat.le_of_not_lt hk) i
        advancer := nofun }
  · next k m hs =>
    rw [hs] at hadv
    split
    · next hk =>
      refine { h with advancer := fun j hj => ?_ }
      rcases Nat.lt_succ_iff_lt_or_eq.mp hj with hlt | heq
      · obtain ⟨hj, hsup⟩ := hadv.1 j hlt
        exact ⟨hj, hsup.anti (min_le_left _ _)⟩
      · obtain rfl : j = ⟨k, hk⟩ := Fin.ext heq
        have hcg := hadv.2 ⟨k, hk⟩ rfl
        have hsup : Supports s ⟨k, hk⟩ _ _ := (h.sound ⟨k, hk⟩).cg.resolve_left hcg.ne'
        exact ⟨hcg, hsup.anti (min_le_right _ _)⟩
    · exact h

end

end Bounded

/-! ## Safety -/

/-- Logs have a positive stamp, `advancer` loads no watermark that is 0, and a watermark is reset
only while `advancer` is at the top of its loop. -/
def vigilant (s : State N) : Action N → Prop
  | .deliver _ log => isNoops log = true ∨ 0 < stamp log
  | .run i => (s.streams i).pc = .reset → s.advancer.atTop = true
  | .advance => ∀ j : Fin N, s.advancer.loading = some (j : ℕ) → 0 < s.cg j

instance (s : State N) : ∀ a, Decidable (vigilant s a)
  | .deliver _ log => inferInstanceAs (Decidable (isNoops log = true ∨ 0 < stamp log))
  | .run i => inferInstanceAs (Decidable ((s.streams i).pc = .reset → s.advancer.atTop = true))
  | .advance =>
    inferInstanceAs (Decidable (∀ j : Fin N, s.advancer.loading = some (j : ℕ) → 0 < s.cg j))

lemma Bounded.step {a : Action N} (h : Bounded s) (hG : vigilant s a)
    (hstep : (follower N).step s a = some s') : Bounded s' := by
  cases a with
  | deliver i log => exact h.deliver hstep hG
  | run i => exact h.move (move_of_run hstep) hG
  | advance =>
    cases hstep
    refine h.advance fun k m hs j hj => hG j ?_
    rw [hs, hj]
    rfl

lemma Bounded.of_run (h : Lts.Run (follower N) vigilant (follower N).init s) : Bounded s :=
  h.invariant Bounded (fun _ _ _ ht hG hstep => ht.step hG hstep) .init

/-- Each log that was replayed, with time stamp `t` of its trailing commit id: every stream has
delivered in the same epoch a batch with a trailing time stamp of at least `t`, or has received
its end signal. -/
def WatermarkSafe (s : State N) : Prop :=
  ∀ i, ∀ x ∈ (s.streams i).applied, ∀ j,
    (∃ y ∈ (s.streams j).delivered, y.1 = x.1 ∧ y.2 ≠ [] ∧
      latestCommitId x.2 / 1000 ≤ latestCommitId y.2 / 1000) ∨
    ∃ y ∈ (s.streams j).delivered, y.2 = []

instance (s : State N) : Decidable (WatermarkSafe s) :=
  inferInstanceAs (Decidable (∀ i, ∀ x ∈ (s.streams i).applied, ∀ _, _ ∨ _))

lemma stamp_le (log : Bytes) : stamp log ≤ uint64Max := by
  unfold stamp
  split
  · exact le_rfl
  · have hlt := Bytes.decode_lt (log.drop (log.length - 8))
    have hlen : (log.drop (log.length - 8)).length ≤ 8 := by
      rw [length_drop]
      omega
    have hpow : 256 ^ (log.drop (log.length - 8)).length ≤ 256 ^ 8 :=
      Nat.pow_le_pow_right (by norm_num) hlen
    have hmax : (256 : ℕ) ^ 8 = uint64Max + 1 := by norm_num [uint64Max]
    unfold latestCommitId
    omega

lemma le_stamp (log : Bytes) : latestCommitId log / 1000 ≤ stamp log := by
  unfold stamp
  split
  · next h => rw [h]; exact Nat.zero_le _
  · exact le_rfl

/-- In every vigilant run a log is replayed only once every stream supports it. -/
theorem watermarkSafe_of_vigilant (h : Lts.Run (follower N) vigilant (follower N).init s) :
    WatermarkSafe s := by
  intro i x hx j
  obtain ⟨y, hy, hk, hle⟩ := (Bounded.of_run h).applied i x hx j
  by_cases hend : y.2 = []
  · exact .inr ⟨y, hy, hend⟩
  · have hstamp : stamp y.2 = latestCommitId y.2 / 1000 := if_neg hend
    exact .inl ⟨y, hy, hk, hend, (le_stamp x.2).trans (hstamp ▸ hle)⟩

/-- One batch of transactions with the given counter readings in epoch 1, each of which inserts a
key. -/
def batchOf (tids : List ℕ) : Bytes :=
  ((Sto.submitted tids.length
    (tids.map fun tid => ⟨tid, 1, [⟨true, false, [1], [1], [7], 10001⟩]⟩)).getD []).flatten

/-- Two streams, a batch on each, an iteration of `advancer`, and the replay of the first batch
when its stream gets a second one. -/
theorem watermarkSafe_of_vigilant_twoStreams :
    ∃ s, (Lts.Run (follower 2) vigilant (follower 2).init s ∧
      (0, batchOf [5]) ∈ (s.streams 0).applied) ∧ WatermarkSafe s := by
  obtain ⟨s, hrun, happlied⟩ := Lts.exists_run_of_execGuarded (follower 2) vigilant {}
    [.deliver 0 (batchOf [5]), .run 0, .run 0, .run 0, .deliver 1 (batchOf [6]), .run 1, .run 1,
      .run 1, .advance, .advance, .advance, .advance, .advance, .deliver 0 (batchOf [7]), .run 0,
      .run 0, .run 0]
    (fun s => (0, batchOf [5]) ∈ (s.streams 0).applied) (by decide +kernel)
  exact ⟨s, ⟨hrun, happlied⟩, watermarkSafe_of_vigilant hrun⟩

/-- An iteration of `advancer` before the first log makes `G` the maximum: the first batch is
replayed though the other stream has delivered nothing. -/
theorem not_watermarkSafe_first : ∃ s, Lts.Reachable (follower 2) s ∧ ¬WatermarkSafe s :=
  Lts.exists_reachable_of_exec (follower 2)
    [.advance, .advance, .advance, .deliver 0 (batchOf [5]), .run 0, .run 0]
    (fun s => ¬WatermarkSafe s) (by decide +kernel)

end Rolis.Replay
