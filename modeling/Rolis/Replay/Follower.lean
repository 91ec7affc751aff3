import Rolis.Lib.Barrier
import Rolis.Lib.Lts
import Rolis.Sto.Log

/-!
# Replay on a follower

The follower callback of `dbtest.cc` with `PaxosWorker::Next` around it, one thread for each of
`N` streams, and the thread `advancer` of `sync_logger`. Every step of the model makes at most one
access to what the threads share: the watermarks `cg_`, the bound `G_` and the counters
`noops_cnt`, `noops_cnt_hole` and `noops_cnt_init` of the no-ops barriers.

A log is a batch with its trailer, a no-ops marker, or empty, the end signal of its stream. The
tables are left out: `applied` records which logs were handed to
`treplay_in_same_thread_opt_mbta_v2`. A thread that sleeps in a loop has no step until its condition
holds.
-/

namespace Rolis.Replay

open Sto (latestCommitId)

/-- `numeric_limits<uint64_t>::max()`. -/
def uint64Max : ℕ := 2 ^ 64 - 1

/-- `isNoops`: the log is longer than its first seven bytes `no-ops:`. -/
def isNoops (log : Bytes) : Bool :=
  decide (7 < log.length) && log.take 7 == [110, 111, 45, 111, 112, 115, 58]

/-- What the callback stores in `cg_` for a log that is no marker: the maximum for the end signal,
`latest_commit_id / 1000` for a batch. -/
def stamp (log : Bytes) : ℕ := if log = [] then uint64Max else latestCommitId log / 1000

/-! ## State -/

/-- Where the callback of a stream stands. -/
inductive Pc
  /-- between two logs -/
  | idle
  /-- a batch or the end signal, before the store to `cg_` -/
  | received (log : Bytes)
  /-- a batch, before the first `retrieveG()` -/
  | check (log : Bytes)
  /-- before the second `retrieveG()`; `kept` is the log when `status = 3` -/
  | drain (kept : Option Bytes)
  /-- after the end signal, while logs are left to be replayed -/
  | lag
  /-- a marker, before the increment of the counter of a barrier -/
  | arrive (barrier : Fin 3)
  /-- the loop that waits at a barrier -/
  | wait (barrier : Fin 3)
  /-- in `computeG()`, before the load of `cg_[k]`; `last` tells the second call from the first -/
  | compute (last : Bool) (k minSoFar : ℕ)
  /-- in `computeG()`, before the load of `G_` -/
  | load (last : Bool)
  /-- before the store of 0 to `cg_` -/
  | reset
deriving DecidableEq, Repr

/-- One stream: its callback, the queue `un_replay_logs_` of its worker, of whose entries the log
determines the rest, and how many markers it has gone through. The last three fields are history:
the logs delivered and applied, each with the number of markers before it, and the logs a marker
made the stream drop, with the bound `g` they were above. -/
structure Stream where
  pc : Pc := .idle
  unReplayLogs : List Bytes := []
  rounds : ℕ := 0
  delivered : List (ℕ × Bytes) := []
  applied : List (ℕ × Bytes) := []
  dropped : List (ℕ × Bytes × ℕ) := []
deriving DecidableEq, Repr

/-- Where the loop of `advancer` stands: before one of the two loads of `cg_[k]`, or, when all are
done, before the store to `G_`. -/
inductive Advancer
  | load (k minSoFar : ℕ)
  | reload (k minSoFar : ℕ)
deriving DecidableEq, Repr

/-- `sync_logger` and the streams. `noops` are its three counters. -/
structure State (N : ℕ) where
  cg : Fin N → ℕ := fun _ => 0
  G : ℕ := 0
  noops : Fin 3 → ℕ := fun _ => 0
  advancer : Advancer := .load 0 uint64Max
  streams : Fin N → Stream := fun _ => {}

/-! ## Steps of one stream -/

namespace Stream

variable (st : Stream)

/-- Go on at another point. -/
def goto (pc : Pc) : Stream := { st with pc }

/-- Hand logs to `treplay_in_same_thread_opt_mbta_v2`, one after another. -/
def replay (logs : List Bytes) : Stream :=
  { st with applied := st.applied ++ logs.map fun log => (st.rounds, log) }

/-- The loop over the queue after a batch, up to the first log above `g`, and then the push of
`Next` for a log that was kept. -/
def drain (g : ℕ) (kept : Option Bytes) : Stream :=
  { st.replay (st.unReplayLogs.takeWhile fun log => stamp log ≤ g) with
    pc := .idle
    unReplayLogs := (st.unReplayLogs.dropWhile fun log => stamp log ≤ g) ++ kept.toList }

/-- The loop over the queue at a marker: logs above `g` are dropped, and the loop goes on. -/
def drainNoops (g : ℕ) : Stream :=
  { st.replay (st.unReplayLogs.filter fun log => stamp log ≤ g) with
    pc := .arrive 1
    unReplayLogs := []
    dropped := st.dropped ++
      (st.unReplayLogs.filter fun log => g < stamp log).map fun log => (st.rounds, log, g) }

end Stream

namespace State

variable {N : ℕ} (s : State N) (i : Fin N)

def setStream (st : Stream) : State N := { s with streams := Function.update s.streams i st }

def storeCg (c : ℕ) : State N := { s with cg := Function.update s.cg i c }

def storeG (g : ℕ) : State N := { s with G := g }

/-- Stream `i` goes on at another point. -/
def goto (pc : Pc) : State N := s.setStream i ((s.streams i).goto pc)

/-- What a stream does behind a barrier: skip holes, reset its watermark, compute `G` again. -/
def behind : Fin 3 → State N
  | 0 => s.goto i (.compute false 0 uint64Max)
  | 1 => s.goto i .reset
  | 2 => s.setStream i
    { s.streams i with pc := .compute true 0 uint64Max, rounds := (s.streams i).rounds + 1 }

/-- The next step of the callback of stream `i`. -/
def run : Option (State N) :=
  let st := s.streams i
  match st.pc with
  | .idle => none
  | .received log =>
    some ((s.storeCg i (stamp log)).goto i (if log = [] then .lag else .check log))
  | .check log =>
    if s.G < stamp log then some (s.goto i (.drain (some log)))
    else some (s.setStream i ((st.replay [log]).goto (.drain none)))
  | .drain kept => some (s.setStream i (st.drain s.G kept))
  | .lag =>
    match st.unReplayLogs with
    | [] => some (s.goto i .idle)
    | log :: logs =>
      if stamp log ≤ s.G then some (s.setStream i { st.replay [log] with unReplayLogs := logs })
      else none
  | .arrive b =>
    some ({ s with noops := Function.update s.noops b (s.noops b + 1) }.goto i (.wait b))
  | .wait b => if s.noops b % N = 0 then some (s.behind i b) else none
  | .compute last k minSoFar =>
    if h : k < N then some (s.goto i (.compute last (k + 1) (min minSoFar (s.cg ⟨k, h⟩))))
    else some ((s.storeG minSoFar).goto i (.load last))
  | .load false => some (s.setStream i (st.drainNoops s.G))
  | .load true => some (s.goto i .idle)
  | .reset => some ((s.storeCg i 0).goto i (.arrive 2))

/-- Paxos delivers a log: `Next` calls the callback. `get_latest_commit_id` asserts that a batch
has at least eight bytes. -/
def deliver (log : Bytes) : Option (State N) :=
  let st := s.streams i
  if st.pc = .idle ∧ (log = [] ∨ 8 ≤ log.length) then
    if isNoops log then some (s.goto i (.arrive 0))
    else
      some (s.setStream i
        { st with pc := .received log, delivered := st.delivered ++ [(st.rounds, log)] })
  else none

/-- The next step of `advancer`. It loads a watermark twice, and skips it if the first load
gave 0. -/
def advance : State N :=
  match s.advancer with
  | .load k minSoFar =>
    if h : k < N then
      { s with
        advancer := if 0 < s.cg ⟨k, h⟩ then .reload k minSoFar else .load (k + 1) minSoFar }
    else { s.storeG minSoFar with advancer := .load 0 uint64Max }
  | .reload k minSoFar =>
    if h : k < N then { s with advancer := .load (k + 1) (min minSoFar (s.cg ⟨k, h⟩)) } else s

end State

/-! ## The system -/

inductive Action (N : ℕ)
  | deliver (i : Fin N) (log : Bytes)
  | run (i : Fin N)
  | advance
deriving DecidableEq, Repr

/-- A follower with `N` streams: any order of deliveries, any interleaving of the threads. -/
def follower (N : ℕ) : Lts.System (State N) (Action N) where
  init := {}
  step s
    | .deliver i log => s.deliver i log
    | .run i => s.run i
    | .advance => some s.advance

end Rolis.Replay
