import Rolis.Paxos.ClusterTheorems

/-!
# Calls and their replies

The invariant that connects the two ends of a remote call, for any *testimony* `T`: what a reply
says about the machine that sent it. If `T` holds of a reply when the handler answers and stays
true, it holds of every reply under way, of every yes a call has counted and of every response
it has collected (`RpcInv.step`).
-/

namespace Rolis.Paxos

open Option Machine

variable {n S : ℕ} {m m' : Machine n S} {c c' : Cluster n S} {call : Call n S} {req : Request n S}
  {i src dst : Fin n} {id : ℕ} {reqs : List (Request n S)}

namespace Call

/-- A quorum event that says yes has counted a quorum. -/
lemma quorum_le_of_verdict (h : call.verdict = some true) : quorum n ≤ call.tally.yes.length := by
  unfold verdict at h
  split at h
  · assumption
  · split at h <;> simp at h

variable (call : Call n S) (src : Fin n) (rep : Reply S)

@[simp] lemma receive_req : (call.receive src rep).req = call.req := by
  unfold receive
  dsimp only
  split
  · split <;> rfl
  · split <;> rfl
  · split <;> rfl
  · rfl

@[simp] lemma receive_tally :
    (call.receive src rep).tally = call.tally.feed src rep.valid := by
  unfold receive
  dsimp only
  split
  · split <;> rfl
  · split <;> rfl
  · split <;> rfl
  · rfl

/-- A new response is the one that a valid reply to a `SyncLog` brought. -/
lemma mem_responses_receive {r : SyncLogResponse S} (h : r ∈ (call.receive src rep).responses) :
    r ∈ call.responses ∨ (rep.valid = true ∧ rep.ret = some r ∧ ∃ q, call.req = .syncLog q) := by
  unfold receive at h
  dsimp only at h
  split at h
  · split at h <;> exact .inl h
  · split at h <;> exact .inl h
  · next q hreq =>
    split at h
    · next hvalid =>
      rcases List.mem_append.mp h with h | h
      · exact .inl h
      · exact .inr ⟨hvalid.1, mem_toList.mp h, q, hreq⟩
    · exact .inl h
  · exact .inl h

/-- A rejected prepare has brought back an epoch. -/
lemma receivedEpoch_receive {bpLog : BulkPrepareLog n S} (hreq : call.req = .bulkPrepare bpLog)
    (h : call.tally.no ≠ [] → call.receivedEpoch ≠ none)
    (hno : (call.receive src rep).tally.no ≠ []) :
    (call.receive src rep).receivedEpoch ≠ none := by
  rw [receive_tally] at hno
  simp only [receive, hreq]
  split
  · next hvalid =>
    refine h fun hnil => hno ?_
    unfold Tally.feed
    split
    · simp [hnil]
    · exact hnil
  · simp

end Call

namespace Machine

lemma awaited_eq_some {yes : Bool} (h : m.awaited id = some (call, yes)) :
    m.calls id = some call ∧ call.returned = false ∧ call.verdict = some yes := by
  unfold awaited at h
  split at h
  · simp at h
  · next call' hcall =>
    split at h
    · simp at h
    · next hret =>
      obtain ⟨v, hv, heq⟩ := map_eq_some_iff.mp h
      cases heq
      exact ⟨hcall, by simpa using hret, hv⟩

/-- The request of a call. -/
def requestOf (m : Machine n S) (id : ℕ) : Option (Request n S) := (m.calls id).map Call.req

lemma requestOf_eq_some :
    m.requestOf id = some req ↔ ∃ call, m.calls id = some call ∧ call.req = req :=
  map_eq_some_iff

lemma requestOf_setCall {call' : Call n S} (hcall : m.calls id = some call)
    (hreq : call'.req = call.req) : (m.setCall id call').requestOf = m.requestOf := by
  funext j
  simp only [requestOf, setCall, Function.update_apply]
  split
  · next hj => rw [hj, hcall, map_some, map_some, hreq]
  · rfl

/-- The calls of `m'` are those of `m`, some of them changed by `R`. -/
structure CallsBy (R : ℕ → Call n S → Call n S → Prop) (m m' : Machine n S) : Prop where
  nextCall : m'.nextCall = m.nextCall
  requestOf : m'.requestOf = m.requestOf
  changed : ∀ j call', m'.calls j = some call' → m.calls j = some call' ∨
    ∃ call, m.calls j = some call ∧ R j call call'

section CallsBy

variable {R : ℕ → Call n S → Call n S → Prop}

lemma CallsBy.of_eq (hn : m'.nextCall = m.nextCall) (hc : m'.calls = m.calls) : CallsBy R m m' :=
  ⟨hn, by unfold Machine.requestOf; rw [hc], fun _ _ hj => .inl (hc ▸ hj)⟩

lemma CallsBy.of_setCall {call' : Call n S} (hcall : m.calls id = some call)
    (hc : m'.calls = (m.setCall id call').calls) (hreq : call'.req = call.req)
    (hR : R id call call') (hn : m'.nextCall = m.nextCall) : CallsBy R m m' := by
  refine ⟨hn, ?_, fun j call₁ hj => ?_⟩
  · rw [← requestOf_setCall hcall hreq]
    unfold Machine.requestOf
    rw [hc]
  · rw [hc] at hj
    simp only [setCall, Function.update_apply] at hj
    split at hj
    · next hid => exact .inr ⟨call, hid ▸ hcall, some.inj hj ▸ hid ▸ hR⟩
    · exact .inl hj

end CallsBy

/-- What a callback does to the calls. -/
lemma Replied.calls {rep : Reply S} (h : Replied m src id rep m') :
    CallsBy (fun j call call' => j = id ∧ call' = call.receive src rep) m m' := by
  cases h with
  | ignored => exact .of_eq rfl rfl
  | counted hcall _ | acceptRejected hcall _ _ =>
    exact .of_setCall hcall rfl (Call.receive_req ..) ⟨rfl, rfl⟩ rfl
  | steppedDown hcall _ _ _ =>
    unfold stepDown
    split <;> exact .of_setCall hcall rfl (Call.receive_req ..) ⟨rfl, rfl⟩ rfl

@[simp] lemma adoptRejection_calls (m : Machine n S) (val : Option ℕ) :
    (m.adoptRejection val).calls = m.calls ∧ (m.adoptRejection val).nextCall = m.nextCall := by
  cases val <;> exact ⟨rfl, rfl⟩

lemma addLogToNc_calls (m : Machine n S) (par : Fin S) (log : LogEntry) :
    (m.addLogToNc par log).calls = m.calls ∧ (m.addLogToNc par log).nextCall = m.nextCall := by
  unfold addLogToNc
  split <;> exact ⟨rfl, rfl⟩

/-- What an input does to the calls that are open. -/
lemma Acts.calls {input : Input n S} (h : Acts m input m' reqs) :
    CallsBy (fun _ call call' => call' = { call with returned := true }) m m' := by
  have hfinish : ∀ {id call yes}, m.awaited id = some (call, yes) →
      m'.nextCall = m.nextCall → m'.calls = (m.finishCall id call).calls →
      CallsBy (fun _ call call' => call' = { call with returned := true }) m m' :=
    fun hcall hn hc => .of_setCall (awaited_eq_some hcall).1 hc rfl rfl hn
  cases h with
  | prepareReturns _ hcall | heartbeatReturns hcall _ =>
    exact hfinish hcall (adoptRejection_calls ..).2 (adoptRejection_calls ..).1
  | syncLogYes _ hcall | syncLogNo _ hcall | noOpsReturn _ hcall
  | acceptYes hcall _ | acceptNo hcall _ =>
    exact hfinish hcall rfl rfl
  | sendNoOpMark _ _ | addLogToNc _ _ =>
    exact .of_eq (addLogToNc_calls ..).2 (addLogToNc_calls ..).1
  | _ => exact .of_eq rfl rfl

/-- The requests of the calls after new ones were opened. -/
lemma requestOf_startCalls (m : Machine n S) (reqs : List (Request n S)) (id : ℕ) :
    (m.startCalls reqs).requestOf id =
      if id < m.nextCall then m.requestOf id else reqs[id - m.nextCall]? := by
  simp only [requestOf, startCalls]
  split
  · rfl
  · rw [map_map]
    exact map_id_apply

end Machine

/-! ## The invariant -/

/-- What a call has collected: each machine counted once, each yes and each response from a
valid reply that testifies to the request, responses to a `SyncLog` only, and an epoch from every
rejected prepare. -/
structure CallInv (T : Fin n → Request n S → Reply S → Prop) (call : Call n S) : Prop where
  fair : call.tally.Fair
  yes : ∀ v ∈ call.tally.yes, ∃ rep, rep.valid = true ∧ T v call.req rep
  response : ∀ r ∈ call.responses, ∃ v rep q, rep.valid = true ∧ rep.ret = some r ∧
    call.req = .syncLog q ∧ T v (.syncLog q) rep
  rejected : ∀ bpLog, call.req = .bulkPrepare bpLog → call.tally.no ≠ [] →
    call.receivedEpoch ≠ none

namespace CallInv

variable {T T' : Fin n → Request n S → Reply S → Prop}

lemma start (req : Request n S) : CallInv T (Call.start req) where
  fair := Tally.fair_start (List.nodup_finRange n)
  yes _ h := by simp [Call.start, Tally.start] at h
  response _ h := by simp [Call.start] at h
  rejected _ _ h := absurd rfl h

lemma mono (hT : ∀ v req rep, T v req rep → T' v req rep) (h : CallInv T call) :
    CallInv T' call where
  fair := h.fair
  yes v hv := by
    obtain ⟨rep, hvalid, ht⟩ := h.yes v hv
    exact ⟨rep, hvalid, hT _ _ _ ht⟩
  response r hr := by
    obtain ⟨v, rep, q, hvalid, hret, hq, ht⟩ := h.response r hr
    exact ⟨v, rep, q, hvalid, hret, hq, hT _ _ _ ht⟩
  rejected := h.rejected

lemma finish (h : CallInv T call) : CallInv T { call with returned := true } :=
  ⟨h.fair, h.yes, h.response, h.rejected⟩

lemma receive (h : CallInv T call) {rep : Reply S} (ht : T src call.req rep) :
    CallInv T (call.receive src rep) where
  fair := by
    rw [Call.receive_tally]
    exact h.fair.feed _ _
  yes v hv := by
    rw [Call.receive_tally] at hv
    rw [Call.receive_req]
    rcases Tally.mem_yes_feed hv with hv | ⟨rfl, hvalid⟩
    · exact h.yes v hv
    · exact ⟨rep, hvalid, ht⟩
  response r hr := by
    rw [Call.receive_req]
    rcases call.mem_responses_receive src rep hr with hr | ⟨hvalid, hret, q, hq⟩
    · exact h.response r hr
    · exact ⟨src, rep, q, hvalid, hret, hq, hq ▸ ht⟩
  rejected bpLog hreq hno := by
    rw [Call.receive_req] at hreq
    exact call.receivedEpoch_receive src rep hreq (h.rejected bpLog hreq) hno

end CallInv

namespace Cluster

variable {R : Cluster n S → Fin n → Request n S → Prop}
  {P : Cluster n S → Fin n → ℕ → Reply S → Prop} {A : Cluster n S → Fin n → Input n S → Prop}

/-- The packets belong to open calls, and replies and calls carry their testimony. -/
structure RpcInv (T : Cluster n S → Fin n → Request n S → Reply S → Prop) (c : Cluster n S) :
    Prop where
  fresh : ∀ i id call, (c.machines i).calls id = some call → id < (c.machines i).nextCall
  request : ∀ src dst id req, .request src dst id req ∈ c.net →
    (c.machines src).requestOf id = some req
  reply : ∀ src dst id req rep, .reply src dst id req rep ∈ c.net →
    (c.machines dst).requestOf id = some req ∧ T c src req rep
  call : ∀ i id call, (c.machines i).calls id = some call → CallInv (T c) call

variable {T : Cluster n S → Fin n → Request n S → Reply S → Prop}

lemma rpcInv_init : RpcInv T (init : Cluster n S) where
  fresh i id call h := by simp [init] at h
  request _ _ _ _ h := by simp [init] at h
  reply _ _ _ _ _ h := by simp [init] at h
  call i id call h := by simp [init] at h

/-- The request of an open call never changes. -/
lemma RpcInv.requestOf_step (h : RpcInv T c) (hsteps : Steps R P A c c')
    (hreq : (c.machines i).requestOf id = some req) : (c'.machines i).requestOf id = some req := by
  rcases hsteps.machine i with heq | ⟨halive, ⟨_, _, req', _, _, heq⟩ |
    ⟨_, _, _, _, _, _, hreplied, _, heq⟩ | ⟨_, _, _, hacts, _, heq⟩⟩ <;> rw [heq]
  · exact hreq
  · rwa [requestOf, ((c.machines i).handle_sameSender req' halive).calls]
  · rwa [hreplied.calls.requestOf]
  · obtain ⟨call, hcall, -⟩ := requestOf_eq_some.mp hreq
    obtain ⟨hnext, hsame, -⟩ := hacts.calls
    rwa [requestOf_startCalls, hnext, if_pos (h.fresh _ _ _ hcall), hsame]

/-- An open call was open before, or an input of its machine has just opened it. -/
lemma Steps.requestOf (hsteps : Steps R P A c c') (hreq : (c'.machines i).requestOf id = some req) :
    (c.machines i).requestOf id = some req ∨
      ∃ input m reqs, (c.machines i).Acts input m reqs ∧ (c.machines i).aborted = none ∧
        A c i input ∧ req ∈ reqs ∧ c'.machines i = m.startCalls reqs := by
  rcases hsteps.machine i with heq | ⟨halive, ⟨_, _, req', _, _, heq⟩ |
    ⟨_, _, _, _, _, _, hreplied, _, heq⟩ | ⟨input, m, reqs, hacts, hA, heq⟩⟩ <;>
    rw [heq] at hreq
  · exact .inl hreq
  · rw [Machine.requestOf, ((c.machines i).handle_sameSender req' halive).calls] at hreq
    exact .inl hreq
  · exact .inl (hreplied.calls.requestOf ▸ hreq)
  · rw [Machine.requestOf_startCalls] at hreq
    split at hreq
    · exact .inl (hacts.calls.requestOf ▸ hreq)
    · exact .inr ⟨input, m, reqs, hacts, halive, hA, List.mem_of_getElem? hreq, heq⟩

/-- A request under way was under way before, or its call has just been opened. -/
lemma Steps.request_mem (hsteps : Steps R P A c c') (hpkt : .request src dst id req ∈ c'.net) :
    .request src dst id req ∈ c.net ∨ (c'.machines src).requestOf id = some req := by
  cases hsteps with
  | lost hnet | reply _ _ _ _ hnet => exact .inl (hnet hpkt)
  | request _ _ _ hnet =>
    rcases hnet _ hpkt with hold | ⟨rep, -, heq⟩
    · exact .inl hold
    · cases heq
  | input _ _ _ hnet =>
    rcases hnet _ hpkt with hold | ⟨k, req', dst', hreq, heq⟩
    · exact .inl hold
    · obtain ⟨rfl, rfl, rfl, rfl⟩ := Packet.request.inj heq
      refine .inr ?_
      rw [machines_move_self, requestOf_startCalls, if_neg (by omega), Nat.add_sub_cancel_left]
      exact hreq

/-- A reply under way was under way before, or a handler has just given it. -/
lemma Steps.reply_mem (hsteps : Steps R P A c c') {rep : Reply S}
    (hpkt : .reply src dst id req rep ∈ c'.net) :
    .reply src dst id req rep ∈ c.net ∨
      (.request dst src id req ∈ c.net ∧ (c.machines src).aborted = none ∧ R c src req ∧
        ((c.machines src).handle req).2 = some rep ∧
        ∃ net, c' = c.move src ((c.machines src).handle req).1 net) := by
  cases hsteps with
  | lost hnet | reply _ _ _ _ hnet => exact .inl (hnet hpkt)
  | @request _ _ _ _ net hin halive hR hnet =>
    rcases hnet _ hpkt with hold | ⟨rep', hrep, heq⟩
    · exact .inl hold
    · obtain ⟨rfl, rfl, rfl, rfl, rfl⟩ := Packet.reply.inj heq
      exact .inr ⟨hin, halive, hR, hrep, net, rfl⟩
  | input _ _ _ hnet =>
    rcases hnet _ hpkt with hold | ⟨k, req', dst', hreq, heq⟩
    · exact .inl hold
    · cases heq

/-- The calls a machine has just opened are the next ones, and nobody has answered them. -/
lemma callInv_startCalls {T : Fin n → Request n S → Reply S → Prop}
    (hm : ∀ id call, m.calls id = some call → CallInv T call)
    (hcall : (m.startCalls reqs).calls id = some call) :
    id < (m.startCalls reqs).nextCall ∧ CallInv T call := by
  simp only [startCalls] at hcall ⊢
  split at hcall
  · exact ⟨by omega, hm id call hcall⟩
  · obtain ⟨req, hreq, rfl⟩ := map_eq_some_iff.mp hcall
    obtain ⟨hlt, -⟩ := List.getElem?_eq_some_iff.mp hreq
    exact ⟨by omega, .start req⟩

/-- A call of one machine after a step: it has an id that was given out, and what it has counted
was testified. -/
lemma RpcInv.calls_step (h : RpcInv T c) (hsteps : Steps R P A c c')
    (hmono : ∀ v req rep, T c v req rep → T c' v req rep)
    (hcall : (c'.machines i).calls id = some call) :
    id < (c'.machines i).nextCall ∧ CallInv (T c') call := by
  have hold : ∀ {id call}, (c.machines i).calls id = some call →
      id < (c.machines i).nextCall ∧ CallInv (T c') call :=
    fun hc => ⟨h.fresh _ _ _ hc, (h.call _ _ _ hc).mono hmono⟩
  rcases hsteps.machine i with heq | ⟨halive, ⟨_, _, req, _, _, heq⟩ |
    ⟨_, _, req, rep, _, hpkt, hreplied, _, heq⟩ | ⟨_, m, reqs, hacts, _, heq⟩⟩ <;>
    rw [heq] at hcall ⊢
  · exact hold hcall
  · have hsame := (c.machines i).handle_sameSender req halive
    rw [hsame.nextCall]
    exact hold (hsame.calls ▸ hcall)
  · obtain ⟨hnext, -, hchanged⟩ := hreplied.calls
    rw [hnext]
    rcases hchanged _ _ hcall with hc | ⟨call', hc, rfl, rfl⟩
    · exact hold hc
    · obtain ⟨hreq, ht⟩ := h.reply _ _ _ _ _ hpkt
      obtain ⟨call'', hc', rfl⟩ := requestOf_eq_some.mp hreq
      obtain rfl := some.inj (hc.symm.trans hc')
      exact ⟨(hold hc).1, (hold hc).2.receive (hmono _ _ _ ht)⟩
  · refine callInv_startCalls (fun id call hc => ?_) hcall
    rcases hacts.calls.changed _ _ hc with hc' | ⟨call', hc', rfl⟩
    · exact (hold hc').2
    · exact (hold hc').2.finish

/-- A step keeps the invariant if it keeps every testimony and the handlers testify. -/
lemma RpcInv.step (h : RpcInv T c) (hsteps : Steps R P A c c')
    (hmono : ∀ v req rep, T c v req rep → T c' v req rep)
    (hhandle : ∀ src dst id req rep net, .request src dst id req ∈ c.net →
      (c.machines dst).aborted = none → R c dst req →
      ((c.machines dst).handle req).2 = some rep →
      c' = c.move dst ((c.machines dst).handle req).1 net → T c' dst req rep) :
    RpcInv T c' where
  fresh _ _ _ hcall := (h.calls_step hsteps hmono hcall).1
  request src dst id req hpkt := by
    rcases hsteps.request_mem hpkt with hold | hnew
    · exact h.requestOf_step hsteps (h.request _ _ _ _ hold)
    · exact hnew
  reply src dst id req rep hpkt := by
    rcases hsteps.reply_mem hpkt with hold | ⟨hin, halive, hR, hrep, net, heq⟩
    · obtain ⟨hreq, ht⟩ := h.reply _ _ _ _ _ hold
      exact ⟨h.requestOf_step hsteps hreq, hmono _ _ _ ht⟩
    · exact ⟨h.requestOf_step hsteps (h.request _ _ _ _ hin),
        hhandle _ _ _ _ _ net hin halive hR hrep heq⟩
  call _ _ _ hcall := (h.calls_step hsteps hmono hcall).2

end Cluster

end Rolis.Paxos
