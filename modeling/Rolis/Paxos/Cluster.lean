import Rolis.Lib.Lts
import Rolis.Paxos.Worker

/-!
# The cluster as a transition system

`n` machines and the packets that are under way. A step delivers one packet, loses one, or lets
a machine take an input. A packet is delivered at most once, and any packet may be the next
one: requests and replies can be delayed without bound, reordered and lost. A machine whose
process has aborted takes no further step. A handler is one step; `Threads` is the system whose
steps are the sections of the handlers.

`guard` turns conditions on requests, replies and inputs into a guard of the runs of the
system; `Steps` (in `ClusterTheorems`) says once what a guarded step can do.
-/

namespace Rolis.Paxos

variable {n S : ℕ}

/-- A message of a remote call. A reply carries the request it answers, which the client finds
through the call's id. -/
inductive Packet (n S : ℕ)
  | request (src dst : Fin n) (id : ℕ) (req : Request n S)
  | reply (src dst : Fin n) (id : ℕ) (req : Request n S) (rep : Reply S)

def Packet.dst : Packet n S → Fin n
  | .request _ dst _ _ => dst
  | .reply _ dst _ _ _ => dst

structure Cluster (n S : ℕ) where
  machines : Fin n → Machine n S
  net : List (Packet n S)

inductive Action (n S : ℕ)
  | deliver (k : ℕ)
  | drop (k : ℕ)
  | act (i : Fin n) (input : Input n S)

/-- The packets of broadcasts with the ids from `first` on. -/
def broadcast (src : Fin n) (first : ℕ) (reqs : List (Request n S)) : List (Packet n S) :=
  (reqs.zipIdx first).flatMap fun (req, id) =>
    (List.finRange n).map fun dst => .request src dst id req

namespace Machine

/-- What a packet does to the machine it is delivered to, and the packets that go out. -/
def receive (m : Machine n S) : Packet n S → Machine n S × List (Packet n S)
  | .request src dst id req =>
    let (m', rep) := m.handle req
    (m', rep.toList.map (.reply dst src id req))
  | .reply src _ id _ rep => (m.onReply src id rep, [])

/-- The machine after `setup2(0)`. -/
def init (i : Fin n) : Machine n S :=
  if i.val = 0 then
    let w : PaxosWorker n := { curEpoch := 2, isLeader := true }
    { es := ⟨2, .leader, i, some i⟩, streams := fun _ => w, back := w }
  else { es := ⟨0, .follower, i, some ⟨0, i.pos⟩⟩ }

/-! The first machine starts as the leader of epoch 2; in the rest the machines start alike. -/

section Init

variable (i : Fin n)

@[simp] lemma init_server (par : Fin S) : (init i : Machine n S).server par = {} := by
  unfold init
  split <;> rfl

@[simp] lemma init_aborted : (init i : Machine n S).aborted = none := by
  unfold init
  split <;> rfl

@[simp] lemma init_log : (init i : Machine n S).log = [] := by
  unfold init
  split <;> rfl

@[simp] lemma init_calls (id : ℕ) : (init i : Machine n S).calls id = none := by
  unfold init
  split <;> rfl

@[simp] lemma init_monitor : (init i : Machine n S).monitor = .idle := by
  unfold init
  split <;> rfl

end Init

end Machine

/-- One replica under the requests of anybody, as long as the handlers return. -/
def Machine.replica (i : Fin n) : Lts.System (Machine n S) (Request n S) where
  init := .init i
  step m req := if (m.handle req).1.aborted.isSome then none else some (m.handle req).1

namespace Cluster

def init : Cluster n S := ⟨Machine.init, []⟩

/-- Machine `i` moves to `m`, and `net` is under way afterwards. -/
def move (c : Cluster n S) (i : Fin n) (m : Machine n S) (net : List (Packet n S)) :
    Cluster n S :=
  ⟨Function.update c.machines i m, net⟩

def step (c : Cluster n S) : Action n S → Option (Cluster n S)
  | .deliver k =>
    match c.net[k]? with
    | none => none
    | some pkt =>
      if (c.machines pkt.dst).aborted.isSome then none
      else
        let (m, out) := (c.machines pkt.dst).receive pkt
        some (c.move pkt.dst m (c.net.eraseIdx k ++ out))
  | .drop k => if k < c.net.length then some { c with net := c.net.eraseIdx k } else none
  | .act i input =>
    if (c.machines i).aborted.isSome then none
    else ((c.machines i).act input).map fun (m, reqs) =>
      c.move i (m.startCalls reqs) (c.net ++ broadcast i m.nextCall reqs)

def system : Lts.System (Cluster n S) (Action n S) := ⟨init, step⟩

/-! ## Guards -/

section Guard

variable (R : Cluster n S → Fin n → Request n S → Prop)
  (P : Cluster n S → Fin n → ℕ → Reply S → Prop) (A : Cluster n S → Fin n → Input n S → Prop)

/-- The condition on the packet that is delivered. -/
def guardPacket (c : Cluster n S) : Packet n S → Prop
  | .request _ dst _ req => R c dst req
  | .reply _ dst id _ rep => P c dst id rep

/-- A guard from a condition on each request at the machine that handles it, on each reply at
the machine that receives it, and on each input. -/
def guard (c : Cluster n S) : Action n S → Prop
  | .deliver k => ∀ pkt ∈ c.net[k]?, guardPacket R P c pkt
  | .drop _ => True
  | .act i input => A c i input

instance [∀ c i req, Decidable (R c i req)] [∀ c i id rep, Decidable (P c i id rep)]
    (c : Cluster n S) : DecidablePred (guardPacket R P c)
  | .request _ dst _ req => inferInstanceAs (Decidable (R c dst req))
  | .reply _ dst id _ rep => inferInstanceAs (Decidable (P c dst id rep))

instance [∀ c i req, Decidable (R c i req)] [∀ c i id rep, Decidable (P c i id rep)]
    [∀ c i input, Decidable (A c i input)] (c : Cluster n S) : DecidablePred (guard R P A c)
  | .deliver k => inferInstanceAs (Decidable (∀ pkt ∈ c.net[k]?, guardPacket R P c pkt))
  | .drop _ => isTrue trivial
  | .act i input => inferInstanceAs (Decidable (A c i input))

end Guard

end Cluster

end Rolis.Paxos
