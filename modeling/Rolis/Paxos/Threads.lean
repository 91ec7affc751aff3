import Rolis.Paxos.Sections

/-!
# The cluster with its handlers in sections

`Threads` is the cluster in which a handler, once it has begun, goes on section by section, and in
which anything may happen between two sections. A handler that is under way stands among the packets
where its reply will be. The other inputs of a machine are one step, as they are in `Cluster`:
`is_leader` is never cleared, so that `add_log_to_nc` may test it when it takes the slot.

In the runs that are `serial`, a machine begins nothing while it is inside a handler or inside
`stuff_todo_leader_election`. These runs are those of `Cluster`, whose steps are whole handlers:
`settled` lets everything that is under way go on to its end (`run_settled`), and what the cluster
does the threads can do too (`run_ofCluster`).
-/

namespace Rolis.Paxos

open Code Function List

variable {n S : ℕ}

/-- A packet that is under way, or what machine `i` has still to do before it sends packets. -/
inductive Task (n S : ℕ)
  | packet (pkt : Packet n S)
  | code (i : Fin n) (rest : Code (Machine n S) (List (Packet n S)))

structure Threads (n S : ℕ) where
  machines : Fin n → Machine n S
  work : List (Task n S)

/-- A machine takes up a packet or an input, a packet is lost, or what is under way at a place goes
on. -/
inductive Move (n S : ℕ)
  | deliver (k : ℕ)
  | drop (k : ℕ)
  | act (i : Fin n) (input : Input n S)
  | go (k : ℕ)

/-- What a packet makes a machine do. -/
def Machine.receiveCode : Packet n S → Code (Machine n S) (List (Packet n S))
  | .request src dst id req =>
    (handleCode req).map fun rep => rep.toList.map (.reply dst src id req)
  | .reply src _ id _ rep => .atomic fun m => (m.onReply src id rep, [])

namespace Threads

def init : Threads n S := ⟨Machine.init, []⟩

def step (s : Threads n S) : Move n S → Option (Threads n S)
  | .deliver k =>
    match s.work[k]? with
    | some (.packet pkt) =>
      if (s.machines pkt.dst).aborted.isSome then none
      else some { s with work := s.work.eraseIdx k ++ [.code pkt.dst (Machine.receiveCode pkt)] }
    | _ => none
  | .drop k =>
    match s.work[k]? with
    | some (.packet _) => some { s with work := s.work.eraseIdx k }
    | _ => none
  | .act i input =>
    let m := s.machines i
    if m.aborted.isSome then none
    else if input = .stuffTodoLeaderElection then
      match m.monitor with
      | .elected epoch =>
        some ⟨update s.machines i ({ m with monitor := .taking epoch }.startCalls []),
          s.work ++ [.code i Machine.stuffTodoCode]⟩
      | _ => none
    else (m.act input).map fun (m, reqs) =>
      ⟨update s.machines i (m.startCalls reqs),
        s.work ++ (broadcast i m.nextCall reqs).map .packet⟩
  | .go k =>
    match s.work[k]? with
    | some (.code i (.sect f next)) =>
      if (s.machines i).aborted.isSome then none
      else some ⟨update s.machines i (f (s.machines i)),
        s.work.set k (.code i (next (s.machines i)))⟩
    | some (.code _ (.ret out)) =>
      some { s with work := s.work.take k ++ out.map .packet ++ s.work.drop (k + 1) }
    | _ => none

def system : Lts.System (Threads n S) (Move n S) := ⟨init, step⟩

end Threads

/-! ## Everything under way finished -/

namespace Task

def owner : Task n S → Option (Fin n)
  | packet _ => none
  | code i _ => some i

/-- What is left of a task in the network when it is done. -/
def out (u : Fin n → Machine n S) : Task n S → List (Packet n S)
  | packet pkt => [pkt]
  | code i rest => (rest.run Machine.alive (u i)).2.getD []

/-- Machine `i` after the task. -/
def finish (i : Fin n) (m : Machine n S) : Task n S → Machine n S
  | packet _ => m
  | code j rest => if j = i then (rest.run Machine.alive m).1 else m

end Task

namespace Threads

/-- The machines that are inside a handler or inside `stuff_todo_leader_election`. -/
def busy (s : Threads n S) : List (Fin n) := s.work.filterMap Task.owner

/-- The cluster once all that is under way is done. -/
def settled (s : Threads n S) : Cluster n S where
  machines i := s.work.foldl (Task.finish i) (s.machines i)
  net := s.work.flatMap (Task.out s.machines)

/-- The place of a packet in the network of `settled`. -/
def index (s : Threads n S) (k : ℕ) : ℕ := ((s.work.take k).flatMap (Task.out s.machines)).length

/-- The step of the cluster that a move begins. -/
def action (s : Threads n S) : Move n S → Option (Action n S)
  | .deliver k => some (.deliver (s.index k))
  | .drop k => some (.drop (s.index k))
  | .act i input => some (.act i input)
  | .go _ => none

/-- A machine begins something only when it has finished everything else. -/
def Undisturbed (s : Threads n S) : Move n S → Prop
  | .deliver k => ∀ pkt, s.work[k]? = some (.packet pkt) → pkt.dst ∉ s.busy
  | .act i _ => i ∉ s.busy
  | .drop _ | .go _ => True

/-- Handlers run undisturbed, and what begins meets `G` in the cluster whose handlers are done. -/
def serial (G : Cluster n S → Action n S → Prop) (s : Threads n S) (move : Move n S) : Prop :=
  s.Undisturbed move ∧ ∀ a ∈ s.action move, G s.settled a

/-- The cluster with nothing under way but its packets. -/
def ofCluster (c : Cluster n S) : Threads n S := ⟨c.machines, c.net.map .packet⟩

section Settled

variable {G : Cluster n S → Action n S → Prop} {s s' : Threads n S} {i : Fin n} {k : ℕ}
  {t : Task n S} {l l₁ l₂ : List (Task n S)} {u : Fin n → Machine n S} {m : Machine n S}
  {pkts : List (Packet n S)} {move : Move n S}

lemma exists_split (h : l[k]? = some t) : ∃ l₁ l₂, l = l₁ ++ t :: l₂ ∧ k = l₁.length := by
  obtain ⟨hk, rfl⟩ := List.getElem?_eq_some_iff.mp h
  exact ⟨l.take k, l.drop (k + 1), by simp, by simp [hk.le]⟩

@[simp] lemma filterMap_owner_packets : (pkts.map Task.packet).filterMap Task.owner = [] := by
  simp [filterMap_map, Task.owner, Function.comp_def]

lemma foldl_finish_of_notMem (h : i ∉ l.filterMap Task.owner) (m : Machine n S) :
    l.foldl (Task.finish i) m = m := by
  induction l generalizing m with
  | nil => rfl
  | cons t l ih =>
    cases t with
    | packet pkt => exact ih h m
    | code j rest =>
      obtain ⟨hij, hl⟩ := not_or.mp (mem_cons.not.mp h)
      rw [foldl_cons, Task.finish, if_neg (Ne.symm hij), ih hl]

@[simp] lemma foldl_finish_packets (m : Machine n S) :
    (pkts.map Task.packet).foldl (Task.finish i) m = m :=
  foldl_finish_of_notMem (by rw [filterMap_owner_packets]; exact not_mem_nil) m

@[simp] lemma flatMap_out_packets : (pkts.map Task.packet).flatMap (Task.out u) = pkts := by
  simp [flatMap_map, Task.out]

lemma flatMap_out_update (h : i ∉ l.filterMap Task.owner) :
    l.flatMap (Task.out (update u i m)) = l.flatMap (Task.out u) := by
  refine flatMap_congr fun t ht => ?_
  cases t with
  | packet pkt => rfl
  | code j rest =>
    have hj : j ≠ i := by
      rintro rfl
      exact h (mem_filterMap.mpr ⟨_, ht, rfl⟩)
    rw [Task.out, Task.out, update_of_ne hj]

/-- A machine that is not busy is what it is in the cluster. -/
lemma settled_of_notMem (h : i ∉ s.busy) : s.settled.machines i = s.machines i :=
  foldl_finish_of_notMem h _

/-- Nor does anything change any more on a machine whose process has ended. -/
lemma settled_of_aborted (h : (s.machines i).aborted.isSome) :
    s.settled.machines i = s.machines i := by
  have hdead : (s.machines i).alive = false := by simpa [Machine.alive] using h
  refine foldl_fixed' (fun t => ?_) s.work
  cases t with
  | packet pkt => rfl
  | code j rest => cases rest <;> simp [Task.finish, run, hdead]

lemma run_receiveCode (pkt : Packet n S) (hm : m.alive) :
    (Machine.receiveCode pkt).run Machine.alive m = Prod.map id some (m.receive pkt) := by
  cases pkt with
  | request src dst id req =>
    rw [Machine.receiveCode, run_map, Machine.run_handleCode req hm]
    rfl
  | reply src dst id req rep => exact run_sect hm

/-- What a move can do, with what is in front of the place it is about and what is behind. -/
inductive Moves (s : Threads n S) : Move n S → Threads n S → Prop
  | deliver {l₁ l₂ : List (Task n S)} {pkt : Packet n S} : s.work = l₁ ++ .packet pkt :: l₂ →
      (s.machines pkt.dst).alive →
      Moves s (.deliver l₁.length)
        ⟨s.machines, l₁ ++ l₂ ++ [.code pkt.dst (Machine.receiveCode pkt)]⟩
  | drop {l₁ l₂ : List (Task n S)} {pkt : Packet n S} : s.work = l₁ ++ .packet pkt :: l₂ →
      Moves s (.drop l₁.length) ⟨s.machines, l₁ ++ l₂⟩
  | take {i : Fin n} {epoch : ℕ} : (s.machines i).alive → (s.machines i).monitor = .elected epoch →
      Moves s (.act i .stuffTodoLeaderElection)
        ⟨update s.machines i ({ s.machines i with monitor := .taking epoch }.startCalls []),
          s.work ++ [.code i Machine.stuffTodoCode]⟩
  | act {i : Fin n} {input : Input n S} {m : Machine n S} {reqs : List (Request n S)} :
      (s.machines i).alive → input ≠ .stuffTodoLeaderElection →
      (s.machines i).act input = some (m, reqs) →
      Moves s (.act i input) ⟨update s.machines i (m.startCalls reqs),
        s.work ++ (broadcast i m.nextCall reqs).map .packet⟩
  | sect {l₁ l₂ : List (Task n S)} {i : Fin n} {f : Machine n S → Machine n S}
      {next : Machine n S → Code (Machine n S) (List (Packet n S))} :
      s.work = l₁ ++ .code i (.sect f next) :: l₂ → (s.machines i).alive →
      Moves s (.go l₁.length) ⟨update s.machines i (f (s.machines i)),
        l₁ ++ .code i (next (s.machines i)) :: l₂⟩
  | ret {l₁ l₂ : List (Task n S)} {i : Fin n} {out : List (Packet n S)} :
      s.work = l₁ ++ .code i (.ret out) :: l₂ →
      Moves s (.go l₁.length) ⟨s.machines, l₁ ++ out.map .packet ++ l₂⟩

lemma moves_of_step {move : Move n S} (h : s.step move = some s') : Moves s move s' := by
  cases move with
  | deliver k =>
    simp only [step] at h
    split at h
    · next pkt hk =>
      split at h
      · simp at h
      · next halive =>
        obtain ⟨l₁, l₂, hwork, rfl⟩ := exists_split hk
        cases h
        rw [hwork, eraseIdx_append_of_length_le le_rfl, Nat.sub_self, eraseIdx_cons_zero]
        exact .deliver hwork (by simpa [Machine.alive] using halive)
    · simp at h
  | drop k =>
    simp only [step] at h
    split at h
    · next pkt hk =>
      obtain ⟨l₁, l₂, hwork, rfl⟩ := exists_split hk
      cases h
      rw [hwork, eraseIdx_append_of_length_le le_rfl, Nat.sub_self, eraseIdx_cons_zero]
      exact .drop hwork
    · simp at h
  | act i input =>
    simp only [step] at h
    split at h
    · simp at h
    · next halive =>
      have halive : (s.machines i).alive := by simpa [Machine.alive] using halive
      split at h
      · next hinput =>
        subst hinput
        split at h
        · next epoch hmon =>
          cases h
          exact .take halive hmon
        · simp at h
      · next hinput =>
        obtain ⟨⟨m, reqs⟩, hact, heq⟩ := Option.map_eq_some_iff.mp h
        cases heq
        exact .act halive hinput hact
  | go k =>
    simp only [step] at h
    split at h
    · next i f next hk =>
      split at h
      · simp at h
      · next halive =>
        obtain ⟨l₁, l₂, hwork, rfl⟩ := exists_split hk
        cases h
        rw [hwork, set_append_right _ _ le_rfl, Nat.sub_self, set_cons_zero]
        exact .sect hwork (by simpa [Machine.alive] using halive)
    · next i out hk =>
      obtain ⟨l₁, l₂, hwork, rfl⟩ := exists_split hk
      cases h
      rw [hwork, take_left, ← singleton_append, ← append_assoc, drop_left' (by simp)]
      exact .ret hwork
    · simp at h

/-- A section changes nothing of what comes out in the end. -/
lemma settled_sect {f : Machine n S → Machine n S}
    {next : Machine n S → Code (Machine n S) (List (Packet n S))} (hm : (s.machines i).alive)
    (hwork : s.work = l₁ ++ .code i (.sect f next) :: l₂)
    (h : i ∉ (l₁ ++ l₂).filterMap Task.owner) :
    settled ⟨update s.machines i (f (s.machines i)),
      l₁ ++ .code i (next (s.machines i)) :: l₂⟩ = s.settled := by
  rw [filterMap_append, mem_append, not_or] at h
  simp only [settled, hwork, Cluster.mk.injEq]
  constructor
  · funext j
    rw [foldl_append, foldl_append, foldl_cons, foldl_cons]
    by_cases hj : j = i
    · subst hj
      rw [update_self, foldl_finish_of_notMem h.1, foldl_finish_of_notMem h.1]
      simp [Task.finish, run_sect hm]
    · simp [update_of_ne hj, Task.finish, Ne.symm hj]
  · simp [flatMap_out_update h.1, flatMap_out_update h.2, Task.out, run_sect hm]

/-- The end of a handler changes nothing of it either. -/
lemma settled_ret (hwork : s.work = l₁ ++ .code i (.ret pkts) :: l₂) :
    settled ⟨s.machines, l₁ ++ pkts.map .packet ++ l₂⟩ = s.settled := by
  simp [settled, hwork, Task.finish, Task.out, run]

section Packet

variable {pkt : Packet n S} (hwork : s.work = l₁ ++ .packet pkt :: l₂)

include hwork

/-- A packet leaves the network. -/
lemma settled_erase : settled ⟨s.machines, l₁ ++ l₂⟩ =
    { s.settled with net := s.settled.net.eraseIdx (s.index l₁.length) } := by
  simp [settled, index, hwork, Task.finish, Task.out, eraseIdx_append_of_length_le]

lemma busy_erase : busy ⟨s.machines, l₁ ++ l₂⟩ = s.busy := by
  rw [busy, busy, hwork, filterMap_append, filterMap_append]
  rfl

lemma getElem?_net : s.settled.net[s.index l₁.length]? = some pkt := by
  simp [settled, index, hwork, Task.out]

end Packet

/-- A machine that is not busy moves and begins something. -/
lemma settled_begin (hidle : i ∉ s.busy) (hl : ∀ t ∈ l, ∀ j ∈ t.owner, j = i) :
    settled ⟨update s.machines i m, s.work ++ l⟩ =
      s.settled.move i (l.foldl (Task.finish i) m)
        (s.settled.net ++ l.flatMap (Task.out (update s.machines i m))) := by
  simp only [settled, Cluster.move, Cluster.mk.injEq]
  constructor
  · funext j
    rw [foldl_append]
    by_cases hj : j = i
    · subst hj
      rw [update_self, update_self, foldl_finish_of_notMem hidle]
    · rw [update_of_ne hj, update_of_ne hj, foldl_finish_of_notMem fun hmem => ?_]
      obtain ⟨t, ht, hown⟩ := mem_filterMap.mp hmem
      exact hj (hl t ht j hown)
  · rw [flatMap_append, flatMap_out_update hidle]

/-- What a move begins is a step of the cluster, and the rest of a move shows nothing. -/
lemma Moves.settled (hmove : Moves s move s') (h : s.busy.Nodup) (hfree : s.Undisturbed move) :
    (s.action move = none ∧ s'.settled = s.settled) ∨
      ∃ a, s.action move = some a ∧ s.settled.step a = some s'.settled := by
  cases hmove with
  | @deliver l₁ l₂ pkt hwork hm =>
    have hidle : pkt.dst ∉ s.busy := hfree pkt (by rw [hwork]; simp)
    have hbegin := settled_begin (s := ⟨s.machines, l₁ ++ l₂⟩) (m := s.machines pkt.dst)
      (l := [.code pkt.dst (Machine.receiveCode pkt)]) ((busy_erase hwork).symm ▸ hidle)
      (by simp [Task.owner])
    rw [update_eq_self, settled_erase hwork] at hbegin
    refine .inr ⟨_, rfl, ?_⟩
    simp only [Cluster.step, getElem?_net hwork, settled_of_notMem hidle,
      Machine.not_isSome_of_alive hm, Bool.false_eq_true, if_false, hbegin]
    simp [Cluster.move, Task.finish, Task.out, run_receiveCode pkt hm]
  | drop hwork =>
    refine .inr ⟨_, rfl, ?_⟩
    have hlt := (List.getElem?_eq_some_iff.mp (getElem?_net hwork)).1
    simp only [Cluster.step, if_pos hlt, settled_erase hwork]
  | @take i epoch hm hmon =>
    have hidle : i ∉ s.busy := hfree
    have hrun := Machine.run_stuffTodoCode (α := Packet n S)
      (m := { s.machines i with monitor := .taking epoch }.startCalls []) hm
    refine .inr ⟨_, rfl, ?_⟩
    simp only [Cluster.step, settled_of_notMem hidle, Machine.not_isSome_of_alive hm,
      Bool.false_eq_true, if_false, Machine.act, Machine.stuffTodoLeaderElection, hmon,
      Option.map_some]
    rw [settled_begin hidle (by simp [Task.owner])]
    simp only [foldl_cons, foldl_nil, flatMap_singleton, Task.finish, Task.out, update_self,
      if_true, hrun]
    rfl
  | @act i input m reqs hm hinput hact =>
    have hidle : i ∉ s.busy := hfree
    refine .inr ⟨_, rfl, ?_⟩
    simp only [Cluster.step, settled_of_notMem hidle, Machine.not_isSome_of_alive hm,
      Bool.false_eq_true, if_false, hact, Option.map_some]
    rw [settled_begin hidle (by simp [Task.owner]), foldl_finish_packets, flatMap_out_packets]
  | sect hwork hm =>
    refine .inl ⟨rfl, settled_sect hm hwork ?_⟩
    rw [busy, hwork, filterMap_append, filterMap_cons] at h
    rw [filterMap_append]
    exact (nodup_middle.mp h).notMem
  | ret hwork => exact .inl ⟨rfl, settled_ret hwork⟩

/-- A machine does one thing at a time. -/
lemma Moves.nodup (hmove : Moves s move s') (h : s.busy.Nodup) (hfree : s.Undisturbed move) :
    s'.busy.Nodup := by
  cases hmove with
  | @deliver l₁ l₂ pkt hwork hm =>
    have hidle : pkt.dst ∉ s.busy := hfree pkt (by rw [hwork]; simp)
    rw [← busy_erase hwork] at h hidle
    rw [busy, filterMap_append]
    exact nodup_append_comm.mp (nodup_cons.mpr ⟨hidle, h⟩)
  | drop hwork => rwa [busy_erase hwork]
  | take hm hmon =>
    rw [busy, filterMap_append]
    exact nodup_append_comm.mp (nodup_cons.mpr ⟨hfree, h⟩)
  | act => rwa [busy, filterMap_append, filterMap_owner_packets, append_nil]
  | sect hwork hm =>
    rw [busy, hwork, filterMap_append] at h
    rw [busy, filterMap_append]
    exact h
  | @ret l₁ l₂ i out hwork =>
    rw [busy, hwork, filterMap_append] at h
    rw [busy, filterMap_append, filterMap_append, filterMap_owner_packets, append_nil]
    exact h.sublist ((Sublist.refl _).append (sublist_cons_self i _))

/-! ## Serial runs -/

/-- A serial run is a run of the cluster. -/
lemma run_settled (h : Lts.Run system (serial G) s s') (hs : s.busy.Nodup) :
    s'.busy.Nodup ∧ Lts.Run Cluster.system G s.settled s'.settled := by
  refine h.invariant (fun t => t.busy.Nodup ∧ Lts.Run Cluster.system G s.settled t.settled)
    (fun t u move ht hG hstep => ?_) ⟨hs, .refl⟩
  have hmove := moves_of_step hstep
  refine ⟨hmove.nodup ht.1 hG.1, ?_⟩
  obtain ⟨-, hsame⟩ | ⟨a, ha, hstep'⟩ := hmove.settled ht.1 hG.1
  · rw [hsame]
    exact ht.2
  · exact ht.2.tail (hG.2 a ha) hstep'

/-! ## The runs of the cluster -/

@[simp] lemma settled_ofCluster (c : Cluster n S) : (ofCluster c).settled = c := by
  simp [ofCluster, settled]

lemma notMem_busy_ofCluster (c : Cluster n S) (i : Fin n) : i ∉ (ofCluster c).busy := by
  rw [busy, ofCluster, filterMap_owner_packets]
  exact not_mem_nil

/-- A handler goes on to its end. -/
lemma run_code (rest : Code (Machine n S) (List (Packet n S)))
    (hrest : rest.run Machine.alive (u i) = (m, some pkts)) :
    Lts.Run system (serial G) ⟨u, l ++ [.code i rest]⟩ ⟨update u i m, l ++ pkts.map .packet⟩ := by
  induction rest generalizing u with
  | ret out =>
    cases hrest
    refine .single (a := .go l.length) ⟨trivial, by simp [action]⟩ ?_
    simp [system, step]
  | sect f next ih =>
    rw [run] at hrest
    split at hrest
    · next halive =>
      have hstep : system.step ⟨u, l ++ [.code i (.sect f next)]⟩ (.go l.length) =
          some ⟨update u i (f (u i)), l ++ [.code i (next (u i))]⟩ := by
        simp [system, step, Option.isNone_iff_eq_none.mp halive]
      have hgo := ih (u i) (u := update u i (f (u i))) (by rwa [update_self])
      rw [update_idem] at hgo
      exact (Lts.Run.single (a := Move.go l.length) ⟨trivial, by simp [action]⟩ hstep).trans hgo
    · cases hrest

lemma index_ofCluster (c : Cluster n S) {k : ℕ} (hk : k < c.net.length) :
    (ofCluster c).index k = k := by
  simp [ofCluster, index, ← map_take, hk.le]

lemma run_ofCluster_step {c c' : Cluster n S} {a : Action n S} (hG : G c a)
    (hstep : c.step a = some c') : Lts.Run system (serial G) (ofCluster c) (ofCluster c') := by
  have hidle := notMem_busy_ofCluster c
  cases a with
  | deliver k =>
    simp only [Cluster.step] at hstep
    split at hstep
    · cases hstep
    · next pkt hpkt =>
      split at hstep
      · cases hstep
      · next halive =>
        have hm : (c.machines pkt.dst).alive := by simpa [Machine.alive] using halive
        have hk := (List.getElem?_eq_some_iff.mp hpkt).1
        cases hstep
        have hbegin : system.step (ofCluster c) (.deliver k) = some ⟨c.machines,
            (c.net.eraseIdx k).map .packet ++ [.code pkt.dst (Machine.receiveCode pkt)]⟩ := by
          simp [system, step, ofCluster, hpkt, halive, ← eraseIdx_map]
        -- nothing else is under way, so the handler goes on to its end
        have hgo := run_code (G := G) (l := (c.net.eraseIdx k).map .packet) _
          (run_receiveCode pkt hm)
        rw [← map_append] at hgo
        refine (Lts.Run.single (a := Move.deliver k) ⟨fun _ _ => hidle _, ?_⟩ hbegin).trans hgo
        simpa [action, index_ofCluster c hk] using hG
  | drop k =>
    simp only [Cluster.step] at hstep
    split at hstep
    · next hk =>
      cases hstep
      refine .single (a := Move.drop k) ⟨trivial, ?_⟩ ?_
      · simpa [action, index_ofCluster c hk] using hG
      · simp [system, step, ofCluster, hk, ← eraseIdx_map]
    · cases hstep
  | act i input =>
    simp only [Cluster.step] at hstep
    split at hstep
    · cases hstep
    · next halive =>
      have hfree : serial G (ofCluster c) (.act i input) :=
        ⟨hidle i, by simpa [action] using hG⟩
      obtain ⟨⟨m, reqs⟩, hact, rfl⟩ := Option.map_eq_some_iff.mp hstep
      by_cases hinput : input = .stuffTodoLeaderElection
      · subst hinput
        cases Machine.acts_of_act hact with
        | @stuffTodoLeaderElection epoch hmon =>
          have hbegin : system.step (ofCluster c) (.act i .stuffTodoLeaderElection) =
              some ⟨update c.machines i
                ({ c.machines i with monitor := .taking epoch }.startCalls []),
                c.net.map .packet ++ [.code i Machine.stuffTodoCode]⟩ := by
            simp [system, step, ofCluster, halive, hmon]
          have hm : ({ c.machines i with monitor := .taking epoch }.startCalls []).alive := by
            rw [Machine.alive]
            simpa [Machine.startCalls] using halive
          have hgo := run_code (G := G) (l := c.net.map .packet) (i := i)
            (u := update c.machines i _) _ (by rw [update_self]; exact Machine.run_stuffTodoCode hm)
          rw [update_idem] at hgo
          refine (Lts.Run.single hfree hbegin).trans ?_
          convert hgo using 1
          simp [ofCluster, Cluster.move, broadcast, Machine.startCalls]
      · refine .single (a := Move.act i input) hfree ?_
        simp [system, step, ofCluster, halive, hinput, hact, Cluster.move]

/-- What the cluster does, the threads can do. -/
lemma run_ofCluster {c c' : Cluster n S} (h : Lts.Run Cluster.system G c c') :
    Lts.Run system (serial G) (ofCluster c) (ofCluster c') := by
  induction h with
  | refl => exact .refl
  | tail _ hG hstep ih => exact ih.trans (run_ofCluster_step hG hstep)

lemma reachable_ofCluster {c : Cluster n S} (h : Lts.Reachable Cluster.system c) :
    Lts.Reachable system (ofCluster c) :=
  (run_ofCluster h).reachable

end Settled

end Threads

end Rolis.Paxos
