import Rolis.Paxos.Election

/-!
# A deposed leader and its proposals

Leadership is kept twice: `ElectionState::cur_state` decides about heartbeats and elections, and
`PaxosWorker::is_leader` with the worker's own `cur_epoch` decides about proposals. The handlers
that depose a machine write the first only, nothing ever clears the second, and `step_down` sets
it, with an epoch the machine was not elected in.

`deposed_silent` states the runs in which a deposed machine is silent nevertheless: no
`step_down` takes effect, only machines whose workers are not marked are deposed, and elections are
clean, without which a machine takes the lead in an epoch it has not won.
-/

namespace Rolis.Paxos

open List

variable {n S : ℕ} {new log : List (Event n S)}

/-- A machine counts as deposed because of an older event or because of a new one. -/
lemma isDeposed_append (h : isDeposed (new ++ log) = true) :
    isDeposed log = true ∨ .deposed ∈ new := by
  induction new with
  | nil => exact .inl h
  | cons ev new ih =>
    have hrest : isDeposed (new ++ log) = true → isDeposed log = true ∨ .deposed ∈ ev :: new :=
      fun h => (ih h).imp_right (mem_cons_of_mem _)
    cases ev with
    | deposed => exact .inr mem_cons_self
    | elected epoch => simp [isDeposed] at h
    | _ => exact hrest (by simpa [isDeposed] using h)

namespace Machine

instance (m : Machine n S) : DecidablePred m.Deposes
  | .bulkPrepare bpLog =>
    inferInstanceAs (Decidable (m.Grants bpLog ∧ bpLog.leaderId ≠ m.es.machineId))
  | .heartbeat hbLog =>
    inferInstanceAs (Decidable (m.es.curEpoch < hbLog.epoch ∧ hbLog.leaderId ≠ m.es.machineId))
  | .syncLog _ | .syncCommit _ _ | .syncNoOps _ | .bulkAccept _ _ | .bulkDecide _ _ =>
    isFalse id

/-- A request deposes the machine only while none of its workers is marked as leader. -/
def DeposedUnmarked (m : Machine n S) (req : Request n S) : Prop :=
  m.Deposes req → ∀ par, (m.streams par).isLeader = false

/-- A reply does not make the machine step down. -/
def NoStepDown (m : Machine n S) (id : ℕ) (rep : Reply S) : Prop :=
  rep.valid = false → ∀ call ∈ m.calls id, call.req.isFailover = true →
    rep.ballot < m.es.curEpoch

/-- The epochs machine `i` leads: those it was elected in, and epoch 2 for machine 0. -/
def Leads (i : Fin n) (log : List (Event n S)) (epoch : ℕ) : Prop :=
  .elected epoch ∈ log ∨ (i.val = 0 ∧ epoch = 2)

lemma Leads.mono {i : Fin n} {log log' : List (Event n S)} {epoch : ℕ}
    (h : Leads i log epoch) (hlog : log ⊆ log') : Leads i log' epoch :=
  h.imp_left fun he => hlog he

/-- Only marked workers have jobs, they carry an epoch the machine leads, and no worker of a
deposed machine is marked. -/
structure Leadership (i : Fin n) (m : Machine n S) : Prop where
  epoch : ∀ par, (m.streams par).isLeader = true → Leads i m.log (m.streams par).curEpoch
  jobs : ∀ par, (m.streams par).isLeader = false → (m.streams par).jobs = []
  called : ∀ par, ∀ job ∈ (m.streams par).jobs, job.calledDeposed = false
  deposed : isDeposed m.log = true → ∀ par, (m.streams par).isLeader = false
  proposed : ∀ par slot ballot cmd calledDeposed,
    .proposed par slot ballot cmd calledDeposed ∈ m.log →
      calledDeposed = false ∧ Leads i m.log ballot

namespace Leadership

variable {i : Fin n} {m m' : Machine n S} {input : Input n S} {reqs : List (Request n S)}

lemma init (i : Fin n) : Leadership i (Machine.init i : Machine n S) := by
  unfold Machine.init
  split
  · next h =>
    exact ⟨fun _ _ => .inr ⟨h, rfl⟩, by simp, by simp, by simp [isDeposed], by simp⟩
  · exact ⟨by simp, by simp, by simp, by simp [isDeposed], by simp⟩

section

variable (h : Leadership i m)

include h

/-- A step that leaves marks, epochs and jobs of the workers alone and records no proposal; if it
deposes the machine, no worker is marked. -/
lemma of_streams (hlog : m'.log = new ++ m.log)
    (hsame : ∀ par, (m'.streams par).isLeader = (m.streams par).isLeader ∧
      (m'.streams par).curEpoch = (m.streams par).curEpoch ∧
      (m'.streams par).jobs = (m.streams par).jobs)
    (hdeposed : .deposed ∈ new → ∀ par, (m.streams par).isLeader = false)
    (hnew : ∀ par slot ballot cmd calledDeposed,
      .proposed par slot ballot cmd calledDeposed ∉ new) : Leadership i m' := by
  have hsub : m.log ⊆ m'.log := hlog ▸ subset_append_right ..
  refine ⟨fun par hl => ?_, fun par hl => ?_, fun par job hj => ?_, fun hd par => ?_, ?_⟩
  · rw [(hsame par).1] at hl
    rw [(hsame par).2.1]
    exact (h.epoch par hl).mono hsub
  · rw [(hsame par).1] at hl
    rw [(hsame par).2.2, h.jobs par hl]
  · rw [(hsame par).2.2] at hj
    exact h.called par job hj
  · rw [(hsame par).1]
    rw [hlog] at hd
    exact (isDeposed_append hd).elim (fun hold => h.deposed hold par) (fun hin => hdeposed hin par)
  · intro par slot ballot cmd calledDeposed hp
    rw [hlog, mem_append] at hp
    obtain ⟨hcalled, hleads⟩ :=
      h.proposed par slot ballot cmd calledDeposed (hp.resolve_left (hnew _ _ _ _ _))
    exact ⟨hcalled, hleads.mono hsub⟩

lemma handle {req : Request n S} (halive : m.aborted = none) (hreq : m.DeposedUnmarked req) :
    Leadership i (m.handle req).1 := by
  obtain ⟨new, hlog, hev⟩ := m.handle_log req halive
  refine h.of_streams hlog (fun par => ?_) (fun hin => hreq (hev _ hin))
    fun _ _ _ _ _ hin => hev _ hin
  rw [(m.handle_sameSender req halive).worker par]
  exact ⟨rfl, rfl, rfl⟩

lemma replied {src : Fin n} {id : ℕ} {rep : Reply S} (hrep : Replied m src id rep m')
    (hno : m.NoStepDown id rep) : Leadership i m' := by
  cases hrep with
  | ignored => exact h
  | counted _ _ | acceptRejected _ _ _ =>
    exact h.of_streams (nil_append _).symm (fun _ => ⟨rfl, rfl, rfl⟩) (by simp) (by simp)
  | @steppedDown call hcall _ hvalid hfail =>
    have hlt : rep.ballot < (m.setCall id (call.receive src rep)).es.curEpoch :=
      hno hvalid _ hcall hfail
    rw [stepDown_of_lt hlt]
    exact h.of_streams (nil_append _).symm (fun _ => ⟨rfl, rfl, rfl⟩) (by simp) (by simp)

/-- Adding a log: a marked worker queues a job, and its machine is not deposed. -/
lemma addLogToNc (par : Fin S) (log : LogEntry) : Leadership i (m.addLogToNc par log) := by
  have hlog : (m.addLogToNc par log).log = m.log := addLogToNc_log ..
  refine ⟨fun par' hl => ?_, fun par' hl => ?_, fun par' job hj => ?_, fun hd par' => ?_, ?_⟩
  · rw [addLogToNc_streams] at hl ⊢
    rw [hlog]
    split
    · next hp => exact h.epoch par hp.2
    · next hp =>
      rw [if_neg hp] at hl
      exact h.epoch par' hl
  · rw [addLogToNc_streams] at hl ⊢
    split at hl
    · next hp => exact absurd (hp.2.symm.trans hl) (by simp)
    · next hp =>
      rw [if_neg hp]
      exact h.jobs par' hl
  · rw [addLogToNc_streams] at hj
    split at hj
    · next hp =>
      rcases mem_append.mp hj with hj | hj
      · exact h.called par job hj
      · rw [mem_singleton.mp hj]
        by_contra hd
        have hmark := h.deposed (by simpa using hd) par
        exact absurd (hp.2.symm.trans hmark) (by simp)
    · exact h.called par' job hj
  · rw [hlog] at hd
    rw [addLogToNc_streams]
    split
    · exact h.deposed hd par
    · exact h.deposed hd par'
  · rw [hlog]
    exact h.proposed

lemma lead : Leadership i { m with
      es := { m.es with curState := .leader }
      streams := fun par => (m.streams par).lead m.es.curEpoch
      back := m.back.lead m.es.curEpoch
      monitor := .leading m.es.curEpoch
      log := .elected m.es.curEpoch :: m.log } where
  epoch _ _ := .inl mem_cons_self
  jobs _ hl := by cases hl
  called := h.called
  deposed hd := by cases hd
  proposed par slot ballot cmd calledDeposed hp := by
    obtain ⟨hcalled, hleads⟩ := h.proposed par slot ballot cmd calledDeposed
      (mem_of_ne_of_mem (by simp) hp)
    exact ⟨hcalled, hleads.mono (subset_cons_self ..)⟩

lemma bulkSubmit {par : Fin S} {k : ℕ} {job : Job} (hjob : (m.streams par).jobs[k]? = some job) :
    Leadership i { m with
      streams := Function.update m.streams par ((m.streams par).takeJob k)
      log := .proposed par job.slot (m.streams par).curEpoch job.cmd job.calledDeposed ::
        m.log } := by
  have hmem : job ∈ (m.streams par).jobs := mem_of_getElem? hjob
  have hmark : (m.streams par).isLeader = true := by
    by_contra hl
    rw [h.jobs par (by simpa using hl)] at hmem
    simp at hmem
  have hsub : m.log ⊆ .proposed par job.slot (m.streams par).curEpoch job.cmd
      job.calledDeposed :: m.log := subset_cons_self ..
  -- marks and epochs stay, jobs only go
  have hfields : ∀ par', (Function.update m.streams par ((m.streams par).takeJob k) par').isLeader =
        (m.streams par').isLeader ∧
      (Function.update m.streams par ((m.streams par).takeJob k) par').curEpoch =
        (m.streams par').curEpoch ∧
      (Function.update m.streams par ((m.streams par).takeJob k) par').jobs ⊆
        (m.streams par').jobs := by
    intro par'
    rw [Function.update_apply]
    split
    · next hp =>
      subst hp
      exact ⟨rfl, rfl, fun _ => mem_of_mem_eraseIdx⟩
    · exact ⟨rfl, rfl, List.Subset.refl _⟩
  refine ⟨fun par' hl => ?_, fun par' hl => ?_, fun par' job' hj => ?_, fun hd par' => ?_, ?_⟩
  · rw [(hfields par').1] at hl
    rw [(hfields par').2.1]
    exact (h.epoch par' hl).mono hsub
  · rw [(hfields par').1] at hl
    refine eq_nil_iff_forall_not_mem.mpr fun job' hj => ?_
    have hold := (hfields par').2.2 hj
    rw [h.jobs par' hl] at hold
    simp at hold
  · exact h.called par' job' ((hfields par').2.2 hj)
  · rw [(hfields par').1]
    exact h.deposed hd par'
  · intro par' slot ballot cmd calledDeposed hp
    rcases mem_cons.mp hp with heq | hp
    · obtain ⟨rfl, rfl, rfl, rfl, rfl⟩ := Event.proposed.inj heq
      exact ⟨h.called _ job hmem, (h.epoch _ hmark).mono hsub⟩
    · obtain ⟨hcalled, hleads⟩ := h.proposed par' slot ballot cmd calledDeposed hp
      exact ⟨hcalled, hleads.mono hsub⟩

/-- The inputs that leave the workers' marks, epochs and jobs alone. -/
lemma of_input (hacts : Acts m input m' reqs) (hinput : ∀ par k, input ≠ .bulkSubmit par k)
    (hsame : ∀ par, (m'.streams par).isLeader = (m.streams par).isLeader ∧
      (m'.streams par).curEpoch = (m.streams par).curEpoch ∧
      (m'.streams par).jobs = (m.streams par).jobs) : Leadership i m' := by
  obtain ⟨new, hlog, hev⟩ := hacts.log
  refine h.of_streams hlog hsame (fun hin => (hev _ hin).elim) fun par _ _ _ _ hin => ?_
  obtain ⟨k, _, hin, -⟩ := hev _ hin
  exact hinput par k hin

lemma acts (hacts : Acts m input m' reqs) : Leadership i m' := by
  have hacts' := hacts
  cases hacts with
  | stuffTodoLeaderElection _ => exact h.lead
  | addLogToNc par log => exact h.addLogToNc par log
  | sendNoOpMark _ _ =>
    obtain ⟨hepoch, hjobs, hcalled, hdeposed, hproposed⟩ := h.addLogToNc _ _
    exact ⟨hepoch, hjobs, hcalled, hdeposed, hproposed⟩
  | bulkSubmit hjob => exact h.bulkSubmit hjob
  | prepareReturns _ _ | heartbeatReturns _ _ =>
    refine h.of_input hacts' (by simp) fun par => ?_
    simp only [adoptRejection_streams, finishCall_streams, and_self]
  | @acceptYes _ _ par _ _ _ =>
    refine h.of_input hacts' (by simp) fun par' => ?_
    by_cases hp : par' = par
    · subst hp
      simp
    · simp [Function.update_of_ne hp]
  | _ => exact h.of_input hacts' (by simp) fun _ => ⟨rfl, rfl, rfl⟩

lemma startCalls : Leadership i (m.startCalls reqs) :=
  ⟨h.epoch, h.jobs, h.called, h.deposed, h.proposed⟩

end

end Leadership

instance (m : Machine n S) (req : Request n S) : Decidable (m.DeposedUnmarked req) :=
  inferInstanceAs (Decidable (m.Deposes req → _))

instance (m : Machine n S) (id : ℕ) (rep : Reply S) : Decidable (m.NoStepDown id rep) :=
  inferInstanceAs (Decidable (rep.valid = false → _))

end Machine

namespace Cluster

/-- Only machines without a marked worker are deposed, and none steps down. -/
def unmarkedDeposals : Cluster n S → Action n S → Prop :=
  guard (fun c i req => (c.machines i).DeposedUnmarked req)
    (fun c i id rep => (c.machines i).NoStepDown id rep) fun _ _ _ => True

instance (c : Cluster n S) (a : Action n S) : Decidable (unmarkedDeposals c a) :=
  inferInstanceAs (Decidable (guard _ _ _ c a))

/-- In every run of clean elections in which no `step_down` takes effect and only machines without
a marked worker are deposed, no proposal comes from a log that was added to a deposed machine, and
every proposal carries an epoch its machine has won, or epoch 2 on machine 0. -/
theorem deposed_silent {c : Cluster n S}
    (h : Lts.Run system (fun c a => unmarkedDeposals c a ∧ cleanElections c a) init c) (i : Fin n)
    (par : Fin S) (slot ballot : ℕ) (cmd : LogEntry) (calledDeposed : Bool)
    (hp : .proposed par slot ballot cmd calledDeposed ∈ (c.machines i).log) :
    calledDeposed = false ∧ (c.Won i ballot ∨ (i.val = 0 ∧ ballot = 2)) := by
  have hinv : ∀ i, (c.machines i).Leadership i := by
    refine invariant_of_local (fun i m => m.Leadership i) ?_ ?_ ?_ (h.mono fun _ _ hG => hG.1)
      Machine.Leadership.init
    · exact fun d i req hd halive hreq => hd.handle halive hreq
    · exact fun d i src id rep m hd _ hno hrep => hd.replied hrep hno
    · exact fun d i input m reqs hd _ _ hacts => (hd.acts hacts).startCalls
  have hwon := (electionInv_of_run (h.mono fun _ _ hG => hG.2)).elected i ballot
  exact ((hinv i).proposed par slot ballot cmd calledDeposed hp).imp_right (.imp_left hwon)

/-- Machine 1 wins epoch 1 and proposes in it. -/
theorem deposed_silent_elected : ∃ c : Cluster 3 1,
    Lts.Run system (fun c a => unmarkedDeposals c a ∧ cleanElections c a) init c ∧
    .proposed 0 1 1 ⟨[7]⟩ false ∈ (c.machines 1).log ∧ c.Won 1 1 := by
  obtain ⟨c, hrun, hp⟩ := Lts.exists_run_of_execGuarded (system : Lts.System (Cluster 3 1) _)
    (fun c a => unmarkedDeposals c a ∧ cleanElections c a) init
    [.act 1 .electionTimeout, .deliver 1, .deliver 1, .deliver 1, .deliver 1,
      .act 1 .prepareReturns, .act 1 .electionWakes, .act 1 .stuffTodoLeaderElection,
      .act 1 (.addLogToNc 0 ⟨[7]⟩), .act 1 (.bulkSubmit 0 0)]
    (fun c => .proposed 0 1 1 ⟨[7]⟩ false ∈ (c.machines 1).log) (by decide +kernel)
  obtain ⟨-, hwon⟩ := deposed_silent hrun 1 0 1 1 ⟨[7]⟩ false hp
  exact ⟨c, hrun, hp, hwon.resolve_right (by decide)⟩

/-- Machine 0 grants epoch 3 to machine 1 and is deposed. Its workers are still marked, so a log
added afterwards is proposed, with ballot 2. -/
theorem deposed_proposes : ∃ c : Cluster 3 1, Lts.Reachable system c ∧
    isDeposed (c.machines 0).log = true ∧
    ∃ c' ∈ Lts.exec system c [.act 0 (.addLogToNc 0 ⟨[7]⟩), .act 0 (.bulkSubmit 0 0)],
      .proposed 0 1 2 ⟨[7]⟩ true ∈ (c'.machines 0).log :=
  Lts.exists_reachable_of_exec system
    [.act 0 .heartbeatTick, .deliver 1, .act 1 .electionTimeout, .deliver 3] _
    (by decide +kernel)

end Cluster

end Rolis.Paxos
