import Rolis.Paxos.Election

/-!
# Quorum events

`QuorumEvent` counts the replies to a broadcast. `BroadcastBulkPrepare` and `BroadcastBulkAccept`
create it with the same threshold, `quorum n`. On an odd number of replicas two majorities have a
replica in common. On an even number the threshold is one half, and two disjoint halves both say
yes; every event is still decided one way, and not both, when all replies are there.
-/

namespace Rolis.Paxos

variable {n S : ℕ}

/-- `class QuorumEvent`, without the timeout that nothing sets. -/
structure QuorumEvent where
  nTotal : ℕ
  quorum : ℕ
  nVotedYes : ℕ := 0
  nVotedNo : ℕ := 0
deriving DecidableEq, Repr

namespace QuorumEvent

variable (e : QuorumEvent)

/-- `PaxosAcceptQuorumEvent::FeedResponse`. -/
def feedResponse (y : Bool) : QuorumEvent :=
  if y then { e with nVotedYes := e.nVotedYes + 1 } else { e with nVotedNo := e.nVotedNo + 1 }

/-- `Yes()`. -/
def yes : Bool := e.quorum ≤ e.nVotedYes

/-- `No()`; `none` is its `verify`. -/
def no : Option Bool :=
  if e.quorum ≤ e.nTotal then some (e.nTotal - e.quorum < e.nVotedNo) else none

/-- `IsReady()`. -/
def isReady : Option Bool := if e.yes then some true else e.no

/-- The event of `BroadcastBulkPrepare` and of `BroadcastBulkAccept` on `n` replicas. -/
def create (n : ℕ) : QuorumEvent where
  nTotal := n
  quorum := Paxos.quorum n

end QuorumEvent

lemma quorum_le (n : ℕ) : quorum n ≤ n := by
  unfold quorum
  split <;> omega

/-! ## Replies -/

/-- The replies to a broadcast in the order in which they arrive. A replica replies once. -/
structure Replies (n : ℕ) where
  list : List (Fin n × Bool)
  nodup : (list.map Prod.fst).Nodup

namespace Replies

variable (rs : Replies n)

/-- The event of the broadcast after the replies. -/
def event : QuorumEvent := rs.list.foldl (fun e r => e.feedResponse r.2) (.create n)

/-- The replicas with the given answer. -/
def voters (y : Bool) : List (Fin n) := (rs.list.filter (·.2 == y)).map Prod.fst

lemma mem_voters {y : Bool} {i : Fin n} : i ∈ rs.voters y ↔ (i, y) ∈ rs.list := by
  simp [voters]

lemma nodup_voters (y : Bool) : (rs.voters y).Nodup :=
  rs.nodup.sublist (List.filter_sublist.map Prod.fst)

lemma length_voters_add : (rs.voters true).length + (rs.voters false).length = rs.list.length := by
  have hsplit := List.length_eq_length_filter_add (l := rs.list) (·.2 == true)
  simpa [voters] using hsplit.symm

lemma length_le : rs.list.length ≤ n := by
  simpa using rs.nodup.length_le_card

/-- Replies only count. -/
lemma foldl_feedResponse (l : List (Fin n × Bool)) (e : QuorumEvent) :
    l.foldl (fun e r => e.feedResponse r.2) e = { e with
        nVotedYes := e.nVotedYes + (l.filter (·.2 == true)).length
        nVotedNo := e.nVotedNo + (l.filter (·.2 == false)).length } := by
  induction l generalizing e with
  | nil => rfl
  | cons r l ih =>
    obtain ⟨i, y⟩ := r
    rw [List.foldl_cons, ih]
    cases y with
    | true | false => simp [QuorumEvent.feedResponse, Nat.add_assoc, Nat.add_comm 1]

/-- The event has counted the voters of both answers. -/
lemma event_eq : rs.event = ⟨n, quorum n, (rs.voters true).length, (rs.voters false).length⟩ := by
  rw [event, foldl_feedResponse]
  simp [QuorumEvent.create, voters]

lemma yes_event : rs.event.yes = true ↔ quorum n ≤ (rs.voters true).length := by
  rw [event_eq, QuorumEvent.yes, decide_eq_true_iff]

/-- The `verify` in `No()` never fails. -/
lemma no_event : rs.event.no = some (decide (n - quorum n < (rs.voters false).length)) := by
  rw [event_eq, QuorumEvent.no, if_pos (quorum_le n)]

/-- No event is both Yes and No. -/
lemma not_yes_and_no : ¬(rs.event.yes = true ∧ rs.event.no = some true) := by
  rintro ⟨hyes, hno⟩
  rw [yes_event] at hyes
  rw [no_event, Option.some.injEq, decide_eq_true_iff] at hno
  have hsum := rs.length_voters_add
  have hle := rs.length_le
  omega

/-- An event that has all replies is decided. -/
lemma yes_or_no (hall : rs.list.length = n) : rs.event.yes = true ∨ rs.event.no = some true := by
  rw [yes_event, no_event, Option.some.injEq, decide_eq_true_iff]
  have hsum := rs.length_voters_add
  have hle := quorum_le n
  omega

end Replies

/-! ## Quorums meet -/

/-- The replicas whose yes made a `BulkPrepare` event Yes and those whose yes made a `BulkAccept`
event Yes have one in common; no event is both Yes and No; and an event with all replies is
decided. -/
def QuorumsDecide (n : ℕ) : Prop :=
  (∀ prepares accepts : Replies n, prepares.event.yes = true → accepts.event.yes = true →
      ∃ i, (i, true) ∈ prepares.list ∧ (i, true) ∈ accepts.list) ∧
    ∀ rs : Replies n, ¬(rs.event.yes = true ∧ rs.event.no = some true) ∧
      (rs.list.length = n → rs.event.yes = true ∨ rs.event.no = some true)

/-- The given replicas all say yes. -/
def yesOf (l : List (Fin n)) (h : l.Nodup) : Replies n where
  list := l.map (·, true)
  nodup := by simpa [List.map_map, Function.comp_def] using h

lemma voters_yesOf (l : List (Fin n)) (h : l.Nodup) : (yesOf l h).voters true = l := by
  simp [yesOf, Replies.voters, List.filter_map, Function.comp_def]

lemma event_yesOf {l : List (Fin n)} (h : l.Nodup) (hlen : quorum n ≤ l.length) :
    (yesOf l h).event.yes = true := by
  rwa [Replies.yes_event, voters_yesOf]

/-- Quorums meet and decide exactly on an odd number of replicas. -/
theorem quorumsDecide_iff_odd (n : ℕ) : QuorumsDecide n ↔ n % 2 = 1 := by
  constructor
  · rintro ⟨hmeet, -⟩
    by_contra hodd
    -- the first half and the second half of the replicas are both quorums
    have hquorum : quorum n = n / 2 := if_pos (by omega)
    have hnodup := List.nodup_finRange n
    obtain ⟨i, hi, hi'⟩ := hmeet _ _
      (event_yesOf (hnodup.sublist (List.take_sublist (n / 2) _)) (by
        rw [hquorum, List.length_take, List.length_finRange]
        omega))
      (event_yesOf (hnodup.sublist (List.drop_sublist (n / 2) _)) (by
        rw [hquorum, List.length_drop, List.length_finRange]
        omega))
    rw [← Replies.mem_voters, voters_yesOf] at hi hi'
    exact List.disjoint_take_drop hnodup le_rfl hi hi'
  · intro hodd
    refine ⟨fun ps as hps has => ?_, fun rs => ⟨rs.not_yes_and_no, rs.yes_or_no⟩⟩
    rw [Replies.yes_event] at hps has
    have hlt : Fintype.card (Fin n) < (ps.voters true).length + (as.voters true).length := by
      have := Cluster.lt_quorum_add_quorum hodd
      rw [Fintype.card_fin]
      omega
    obtain ⟨i, hi, hi'⟩ :=
      (ps.nodup_voters true).exists_mem_of_card_lt (as.nodup_voters true) hlt
    exact ⟨i, ps.mem_voters.mp hi, as.mem_voters.mp hi'⟩

/-- Two replicas: one says yes to a prepare, the other to an accept, and both events are Yes. -/
theorem not_quorumsDecide_two :
    ∃ prepares accepts : Replies 2, prepares.list = [(0, true)] ∧ accepts.list = [(1, true)] ∧
      prepares.event.yes = true ∧ accepts.event.yes = true ∧ ¬QuorumsDecide 2 := by
  refine ⟨⟨[(0, true)], by decide⟩, ⟨[(1, true)], by decide⟩, rfl, rfl, by decide, by decide, ?_⟩
  rintro ⟨hmeet, -⟩
  obtain ⟨i, hi, hi'⟩ := hmeet ⟨[(0, true)], by decide⟩ ⟨[(1, true)], by decide⟩
    (by decide) (by decide)
  simp only [List.mem_singleton, Prod.mk.injEq, and_true] at hi hi'
  exact absurd (hi.symm.trans hi') (by decide)

/-! ## The calls of a machine -/

namespace Call

/-- The quorum event of a call. -/
def event (call : Call n S) : QuorumEvent :=
  ⟨n, quorum n, call.tally.yes.length, call.tally.no.length⟩

lemma event_start (req : Request n S) : (start req).event = .create n := rfl

/-- The callback of a reply feeds the event. -/
lemma event_receive (call : Call n S) (src : Fin n) (rep : Reply S)
    (h : src ∈ call.tally.outstanding) :
    (call.receive src rep).event = call.event.feedResponse rep.valid := by
  rw [event, receive_tally]
  cases hvalid : rep.valid <;> simp [Tally.feed, h, event, QuorumEvent.feedResponse]

/-- A coroutine goes on when the event of its call is ready, with the answer of `Yes()`. -/
lemma verdict_eq (call : Call n S) :
    call.verdict = if call.event.isReady = some true then some call.event.yes else none := by
  rw [verdict, QuorumEvent.isReady, QuorumEvent.no, event, if_pos (quorum_le n), QuorumEvent.yes]
  by_cases hyes : quorum n ≤ call.tally.yes.length
  · simp [hyes]
  · by_cases hno : n - quorum n < call.tally.no.length <;> simp [hyes, hno]

/-- A call after replies. -/
def answered (call : Call n S) (rs : List (Fin n × Reply S)) : Call n S :=
  rs.foldl (fun call r => call.receive r.1 r.2) call

lemma answered_tally (call : Call n S) (rs : List (Fin n × Reply S)) :
    call.tally.yes.length ≤ (call.answered rs).tally.yes.length ∧
      call.tally.no.length ≤ (call.answered rs).tally.no.length ∧
      (call.answered rs).tally.size = call.tally.size := by
  induction rs generalizing call with
  | nil => exact ⟨le_rfl, le_rfl, rfl⟩
  | cons r rs ih =>
    obtain ⟨hyes, hno, hsize⟩ := call.tally.length_feed r.1 r.2.valid
    rw [← receive_tally] at hyes hno hsize
    obtain ⟨hyes', hno', hsize'⟩ := ih (call.receive r.1 r.2)
    exact ⟨hyes.trans hyes', hno.trans hno', hsize'.trans hsize⟩

/-- An answer does not change: when too many have said no, the others are no quorum. -/
lemma verdict_answered {call : Call n S} {b : Bool} (hsize : call.tally.size = n)
    (h : call.verdict = some b) (rs : List (Fin n × Reply S)) :
    (call.answered rs).verdict = some b := by
  obtain ⟨hyes, hno, hsize'⟩ := call.answered_tally rs
  have hle := quorum_le n
  rw [hsize, Tally.size] at hsize'
  unfold verdict at h ⊢
  split at h
  · next hq =>
    cases h
    rw [if_pos (hq.trans hyes)]
  · split at h
    · next hlt =>
      cases h
      rw [if_neg (by omega), if_pos (hlt.trans_le hno)]
    · cases h

/-- A coroutine may go on later than its event is ready. Whatever replies come in between, it goes
on with the answer that the event had. -/
theorem verdict_of_ready (req : Request n S) (rs rs' : List (Fin n × Reply S))
    (h : ((start req).answered rs).event.isReady = some true) :
    ((start req).answered (rs ++ rs')).verdict = some ((start req).answered rs).event.yes := by
  have hsize : ((start req).answered rs).tally.size = n := by
    rw [(answered_tally _ rs).2.2]
    simp [start, Tally.start, Tally.size]
  rw [answered, List.foldl_append]
  exact verdict_answered hsize (by rw [verdict_eq, if_pos h]) rs'

/-- Two of three replicas say yes to a heartbeat, and then the third one says no. -/
theorem verdict_of_ready_two :
    ((start (.heartbeat ⟨0, 1⟩ : Request 3 1)).answered
      ([(0, { valid := true }), (1, { valid := true })] ++ [(2, { valid := false })])).verdict =
        some true :=
  verdict_of_ready _ _ _ (by decide)

end Call

end Rolis.Paxos
