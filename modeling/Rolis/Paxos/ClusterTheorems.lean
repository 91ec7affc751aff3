import Rolis.Paxos.Cluster
import Rolis.Paxos.ServerTheorems
import Rolis.Paxos.WorkerTheorems

/-!
# Steps and runs of the cluster

`steps_of_step` is the inversion lemma of a guarded step: a packet is lost, or exactly one
machine moves, by a request, by a reply or by an input. `invariant_of_local` lifts what a
machine keeps in each of the three cases to the runs of the cluster.
-/

namespace Rolis.Paxos

open List

variable {n S : ℕ} {m : Machine n S} {c c' : Cluster n S} {net : List (Packet n S)} {i : Fin n}

namespace Cluster

variable {R : Cluster n S → Fin n → Request n S → Prop}
  {P : Cluster n S → Fin n → ℕ → Reply S → Prop} {A : Cluster n S → Fin n → Input n S → Prop}

lemma machines_move (c : Cluster n S) (i j : Fin n) (m : Machine n S) (net : List (Packet n S)) :
    (c.move i m net).machines j = if j = i then m else c.machines j :=
  Function.update_apply ..

@[simp] lemma machines_move_self (c : Cluster n S) (i : Fin n) (m : Machine n S)
    (net : List (Packet n S)) : (c.move i m net).machines i = m :=
  Function.update_self ..

/-- A property of every machine survives a move to a machine with the property. -/
lemma forall_machines_move {I : Fin n → Machine n S → Prop} (hc : ∀ j, I j (c.machines j))
    (hm : I i m) : ∀ j, I j ((c.move i m net).machines j) := by
  intro j
  rw [machines_move]
  split
  · next hj => exact hj ▸ hm
  · exact hc j

/-- What a step that meets `guard R P A` can do. -/
inductive Steps (R : Cluster n S → Fin n → Request n S → Prop)
    (P : Cluster n S → Fin n → ℕ → Reply S → Prop)
    (A : Cluster n S → Fin n → Input n S → Prop) (c : Cluster n S) : Cluster n S → Prop
  | lost {net : List (Packet n S)} : net ⊆ c.net → Steps R P A c ⟨c.machines, net⟩
  | request {src dst : Fin n} {id : ℕ} {req : Request n S} {net : List (Packet n S)} :
      .request src dst id req ∈ c.net → (c.machines dst).aborted = none → R c dst req →
      (∀ pkt ∈ net, pkt ∈ c.net ∨ ∃ rep, ((c.machines dst).handle req).2 = some rep ∧
        pkt = .reply dst src id req rep) →
      Steps R P A c (c.move dst ((c.machines dst).handle req).1 net)
  | reply {src dst : Fin n} {id : ℕ} {req : Request n S} {rep : Reply S} {m : Machine n S}
      {net : List (Packet n S)} :
      .reply src dst id req rep ∈ c.net → (c.machines dst).Replied src id rep m →
      (c.machines dst).aborted = none → P c dst id rep → net ⊆ c.net →
      Steps R P A c (c.move dst m net)
  | input {i : Fin n} {input : Input n S} {m : Machine n S} {reqs : List (Request n S)}
      {net : List (Packet n S)} :
      (c.machines i).Acts input m reqs → (c.machines i).aborted = none → A c i input →
      (∀ pkt ∈ net, pkt ∈ c.net ∨ ∃ k req dst, reqs[k]? = some req ∧
        pkt = .request i dst (m.nextCall + k) req) →
      Steps R P A c (c.move i (m.startCalls reqs) net)

lemma mem_broadcast {src : Fin n} {first : ℕ} {reqs : List (Request n S)} {pkt : Packet n S}
    (h : pkt ∈ broadcast src first reqs) :
    ∃ k req dst, reqs[k]? = some req ∧ pkt = .request src dst (first + k) req := by
  unfold broadcast at h
  obtain ⟨⟨req, id⟩, hmem, hpkt⟩ := mem_flatMap.mp h
  obtain ⟨dst, -, rfl⟩ := mem_map.mp hpkt
  obtain ⟨hle, hlt, hget⟩ := mem_zipIdx hmem
  refine ⟨id - first, req, dst, ?_, ?_⟩
  · rw [getElem?_eq_getElem (by omega), hget]
  · rw [Nat.add_sub_cancel' hle]

/-- The inversion lemma of a step. -/
lemma steps_of_step {a : Action n S} (hG : guard R P A c a) (h : c.step a = some c') :
    Steps R P A c c' := by
  cases a with
  | deliver k =>
    simp only [step] at h
    split at h
    · simp at h
    · next pkt hpkt =>
      split at h
      · simp at h
      · next halive =>
        have halive : (c.machines pkt.dst).aborted = none := by simpa using halive
        have hmem : pkt ∈ c.net := mem_of_getElem? hpkt
        have hguard : guardPacket R P c pkt := hG pkt hpkt
        cases h
        cases pkt with
        | request src dst id req =>
          refine .request hmem halive hguard fun pkt' hpkt' => ?_
          rcases mem_append.mp hpkt' with hin | hout
          · exact .inl (mem_of_mem_eraseIdx hin)
          · obtain ⟨rep, hrep, rfl⟩ := mem_map.mp hout
            exact .inr ⟨rep, Option.mem_toList.mp hrep, rfl⟩
        | reply src dst id req rep =>
          refine .reply hmem (Machine.onReply_cases ..) halive hguard fun pkt' hpkt' => ?_
          rcases mem_append.mp hpkt' with hin | hout
          · exact mem_of_mem_eraseIdx hin
          · simp [Machine.receive] at hout
  | drop k =>
    simp only [step] at h
    split at h
    · cases h
      exact .lost fun _ => mem_of_mem_eraseIdx
    · simp at h
  | act i input =>
    simp only [step] at h
    split at h
    · simp at h
    · next halive =>
      obtain ⟨⟨m, reqs⟩, hact, heq⟩ := Option.map_eq_some_iff.mp h
      obtain rfl := heq
      refine .input (Machine.acts_of_act hact) (by simpa using halive) hG fun pkt hpkt => ?_
      exact (mem_append.mp hpkt).imp_right mem_broadcast

/-- What a step does to one machine: nothing, or one of the three moves. -/
lemma Steps.machine (h : Steps R P A c c') (i : Fin n) : c'.machines i = c.machines i ∨
    ((c.machines i).aborted = none ∧ ((∃ src id req, .request src i id req ∈ c.net ∧ R c i req ∧
        c'.machines i = ((c.machines i).handle req).1) ∨
      (∃ src id req rep m, .reply src i id req rep ∈ c.net ∧
        (c.machines i).Replied src id rep m ∧ P c i id rep ∧ c'.machines i = m) ∨
      ∃ input m reqs, (c.machines i).Acts input m reqs ∧ A c i input ∧
        c'.machines i = m.startCalls reqs)) := by
  cases h with
  | lost _ => exact .inl rfl
  | @request src dst id req _ hpkt halive hR _ =>
    rw [machines_move]
    split
    · next hi =>
      subst hi
      exact .inr ⟨halive, .inl ⟨src, id, req, hpkt, hR, rfl⟩⟩
    · exact .inl rfl
  | @reply src _ id req rep m _ hpkt hreplied halive hP _ =>
    rw [machines_move]
    split
    · next hi =>
      subst hi
      exact .inr ⟨halive, .inr (.inl ⟨src, id, req, rep, m, hpkt, hreplied, hP, rfl⟩)⟩
    · exact .inl rfl
  | @input _ input m reqs _ hacts halive hA _ =>
    rw [machines_move]
    split
    · next hi =>
      subst hi
      exact .inr ⟨halive, .inr (.inr ⟨input, m, reqs, hacts, hA, rfl⟩)⟩
    · exact .inl rfl

/-- The history of a machine only grows. -/
lemma Steps.log_subset (h : Steps R P A c c') (i : Fin n) :
    (c.machines i).log ⊆ (c'.machines i).log := by
  rcases h.machine i with heq | ⟨halive, ⟨_, _, req, _, _, heq⟩ |
    ⟨_, _, _, _, _, _, hreplied, _, heq⟩ | ⟨_, _, _, hacts, _, heq⟩⟩ <;> rw [heq]
  · exact List.Subset.refl _
  · obtain ⟨new, hlog, -⟩ := Machine.handle_log _ req halive
    exact hlog ▸ subset_append_right ..
  · rcases hreplied.log with hlog | hlog <;> rw [hlog]
    · exact List.Subset.refl _
    · exact subset_cons_self ..
  · obtain ⟨new, hlog, -⟩ := hacts.log
    rw [Machine.startCalls_log, hlog]
    exact subset_append_right ..

/-- An event in the histories after machine `i` moved to a history with new events from `E`. -/
lemma mem_log_move {E : Event n S → Prop}
    (hm : ∃ new, m.log = new ++ (c.machines i).log ∧ ∀ ev ∈ new, E ev) {j : Fin n}
    {ev : Event n S} (hev : ev ∈ ((c.move i m net).machines j).log) :
    ev ∈ (c.machines j).log ∨ (j = i ∧ E ev) := by
  rw [machines_move] at hev
  split at hev
  · next hj =>
    subst hj
    obtain ⟨new, hlog, hnew⟩ := hm
    rw [hlog, mem_append] at hev
    exact hev.elim (fun hev => .inr ⟨rfl, hnew ev hev⟩) .inl
  · exact .inl hev

/-- The new events of a step have one cause: the callback of a reply, one request or one input. -/
lemma Steps.events (h : Steps R P A c c') :
    (∀ j ev, ev ∈ (c'.machines j).log → ev ∈ (c.machines j).log ∨ ev = .deposed) ∨
    (∃ src i id req, .request src i id req ∈ c.net ∧ (c.machines i).aborted = none ∧ R c i req ∧
      ∀ j ev, ev ∈ (c'.machines j).log →
        ev ∈ (c.machines j).log ∨ (j = i ∧ (c.machines i).HandlerEvent req ev)) ∨
    ∃ i input, (c.machines i).aborted = none ∧ A c i input ∧ ∀ j ev, ev ∈ (c'.machines j).log →
        ev ∈ (c.machines j).log ∨ (j = i ∧ (c.machines i).InputEvent input ev) := by
  cases h with
  | lost _ => exact .inl fun j ev => .inl
  | @request src dst id req _ hpkt halive hR _ =>
    exact .inr (.inl ⟨src, dst, id, req, hpkt, halive, hR, fun j ev =>
      mem_log_move ((c.machines dst).handle_log req halive)⟩)
  | reply _ hreplied _ _ _ =>
    refine .inl fun j ev hev => ?_
    refine (mem_log_move (E := (· = .deposed)) ?_ hev).imp_right And.right
    rcases hreplied.log with hlog | hlog
    · exact ⟨[], hlog, by simp⟩
    · exact ⟨[.deposed], hlog, by simp⟩
  | @input i input m reqs _ hacts halive hA _ =>
    refine .inr (.inr ⟨i, input, halive, hA, fun j ev => mem_log_move ?_⟩)
    rw [Machine.startCalls_log]
    exact hacts.log

/-- Where a new event of one machine comes from. -/
lemma Steps.event (h : Steps R P A c c') {ev : Event n S} (hev : ev ∈ (c'.machines i).log) :
    ev ∈ (c.machines i).log ∨ ev = .deposed ∨
      (∃ src id req, .request src i id req ∈ c.net ∧ (c.machines i).aborted = none ∧
        R c i req ∧ (c.machines i).HandlerEvent req ev) ∨
      ∃ input, A c i input ∧ (c.machines i).InputEvent input ev := by
  obtain h | ⟨src, k, id, req, hpkt, halive, hR, h⟩ | ⟨k, input, -, hA, h⟩ := h.events
  · exact (h i ev hev).imp_right .inl
  · rcases h i ev hev with hev | ⟨rfl, hev⟩
    · exact .inl hev
    · exact .inr (.inr (.inl ⟨src, id, req, hpkt, halive, hR, hev⟩))
  · rcases h i ev hev with hev | ⟨rfl, hev⟩
    · exact .inl hev
    · exact .inr (.inr (.inr ⟨input, hA, hev⟩))

/-- What each machine keeps by itself under the conditions of the guard, a guarded run keeps. -/
lemma invariant_of_local (I : Fin n → Machine n S → Prop)
    (hreq : ∀ c i req, I i (c.machines i) → (c.machines i).aborted = none → R c i req →
      I i ((c.machines i).handle req).1)
    (hrep : ∀ c i src id rep m, I i (c.machines i) → (c.machines i).aborted = none →
      P c i id rep → (c.machines i).Replied src id rep m → I i m)
    (hact : ∀ c i input m reqs, I i (c.machines i) → (c.machines i).aborted = none →
      A c i input → (c.machines i).Acts input m reqs → I i (m.startCalls reqs))
    (h : Lts.Run system (guard R P A) c c') (hc : ∀ i, I i (c.machines i)) :
    ∀ i, I i (c'.machines i) := by
  refine h.invariant (fun d => ∀ i, I i (d.machines i)) (fun d d' a hd hG hstep i => ?_) hc
  rcases (steps_of_step hG hstep).machine i with heq | ⟨halive, ⟨_, _, req, _, hR, heq⟩ |
    ⟨_, _, _, _, _, _, hreplied, hP, heq⟩ | ⟨_, _, _, hacts, hA, heq⟩⟩ <;> rw [heq]
  · exact hd i
  · exact hreq _ _ _ (hd i) halive hR
  · exact hrep _ _ _ _ _ _ (hd i) halive hP hreplied
  · exact hact _ _ _ _ _ (hd i) halive hA hacts

/-- A reachable state, as a run under the guard without conditions. -/
lemma run_of_reachable (h : Lts.Reachable system c) :
    Lts.Run system (guard (fun _ _ _ => True) (fun _ _ _ _ => True) fun _ _ _ => True) init c := by
  refine h.mono fun d a _ => ?_
  cases a with
  | deliver k => exact fun pkt _ => by cases pkt <;> trivial
  | drop k | act i input => trivial

end Cluster

end Rolis.Paxos
