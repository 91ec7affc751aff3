import Rolis.Replay.FollowerTheorems
import Rolis.Sto.LogTheorems

/-!
# The accounting of one stream

`PaxosWorker::Next` hands a log to the follower callback and gets the time stamp of the log and a
status back, packed into one decimal number. The callback replays or drops logs of the queue
`un_replay_logs_` and replays the new log or not; `Next` appends the new log to the queue if the
status is 3. The values that `retrieveG()` and `computeG()` answer are inputs here.

Every batch ends up in exactly one place: replayed, queued or dropped, `Worker.Accounted`, with one
exception. `isNoops` looks at the first seven bytes of a log only, and the first eight bytes of a
batch are a commit id. A batch that begins like a marker is taken for one and goes nowhere.
-/

namespace Rolis.Replay

open Sto (latestCommitId Txn)
open Bytes List Option

/-! ## `Next` and the callback -/

/-- An entry of `un_replay_logs_`. -/
structure UnReplayLog where
  latestCommitId : ℕ
  status : ℕ
  len : ℕ
  log : Bytes
deriving DecidableEq, Repr

/-- A `PaxosWorker`, as far as `Next` uses it. The last two fields are history: the logs that were
replayed, and those that a marker made the callback free without a replay. -/
structure Worker where
  unReplayLogs : List UnReplayLog := []
  replayed : List Bytes := []
  dropped : List Bytes := []
deriving DecidableEq, Repr

/-- What the callback reads of `G` while it handles one log: the bound it compares the new log
with, the bound of the loop over the queue, and the bounds of the loop at the end signal, one for
each turn. -/
structure Readings where
  check : ℕ
  drain : ℕ
  lag : List ℕ
deriving DecidableEq, Repr

namespace Worker

variable (w : Worker)

def replay (log : Bytes) : Worker := { w with replayed := w.replayed ++ [log] }

def drop (log : Bytes) : Worker := { w with dropped := w.dropped ++ [log] }

def setQueue (queue : List UnReplayLog) : Worker := { w with unReplayLogs := queue }

/-- The loop over the queue with the bound `g`; `queue` is what is left of it. At a marker the loop
frees what is above the bound, otherwise it stops there. -/
def drainLoop (noops : Bool) (g : ℕ) : Worker → (queue : List UnReplayLog) → Worker
  | w, [] => w
  | w, it :: queue =>
    if it.latestCommitId ≤ g then drainLoop noops g ((w.replay it.log).setQueue queue) queue
    else if noops then drainLoop noops g ((w.drop it.log).setQueue queue) queue
    else w

def drain (noops : Bool) (g : ℕ) : Worker := drainLoop noops g w w.unReplayLogs

/-- The loop at the end signal, which waits until everything queued is replayed. `none` is a loop
that has not ended after the readings given. -/
def lag : Worker → List ℕ → Option Worker
  | w, [] => if w.unReplayLogs = [] then some w else none
  | w, gg :: ggs =>
    match w.unReplayLogs with
    | [] => some w
    | itt :: queue =>
      if itt.latestCommitId ≤ gg then
        lag ((w.replay itt.log).setQueue queue) ggs
      else lag w ggs

/-- The follower callback: the worker afterwards and `latest_commit_id * 10 + status`, a 64-bit
integer. -/
def callback (log : Bytes) (r : Readings) : Option (Worker × ℕ) :=
  if log = [] then (w.lag r.lag).map fun w => (w, 2)
  else if isNoops log then some (w.drain true r.drain, 5)
  else
    let latest := latestCommitId log / 1000
    if r.check < latest then some (w.drain false r.drain, (latest * 10 + 3) % 2 ^ 64)
    else some ((w.replay log).drain false r.drain, (latest * 10 + 4) % 2 ^ 64)

/-- `PaxosWorker::Next`. What the callback answers to the end signal is not looked at. -/
def next (log : Bytes) (r : Readings) : Option Worker :=
  (w.callback log r).map fun (w, r) =>
    if log ≠ [] ∧ r % 10 = 3 then
      w.setQueue (w.unReplayLogs ++ [⟨r / 10, r % 10, log.length, log⟩])
    else w

end Worker

/-! ## What is delivered to a stream -/

/-- What Paxos delivers to a stream before the end signal: a batch of at least one transaction, or
a marker with its epoch. -/
inductive Delivery
  | batch (t : Txn) (ts : List Txn) (trailer : ℕ)
  | noops (digit : UInt8) (digits : Bytes)

namespace Delivery

/-- The first seven bytes of a marker. -/
def noopsPrefix : Bytes := [110, 111, 45, 111, 112, 115, 58]

def bytes : Delivery → Bytes
  | batch t ts trailer => (t :: ts).flatMap Txn.encoding ++ encode 8 trailer
  | noops digit digits => noopsPrefix ++ digit :: digits

/-- The log of a delivery that is a batch. -/
def batch? : Delivery → Option Bytes
  | batch t ts trailer => some (batch t ts trailer).bytes
  | noops _ _ => none

/-- The batches among the deliveries. -/
def batches (ds : List (Delivery × Readings)) : List Bytes := ds.filterMap fun d => d.1.batch?

/-- The number whose seven low bytes are the first seven bytes of a marker. -/
def noopsCid : ℕ := 16452475387998062

/-- A batch begins with its first commit id. -/
lemma exists_bytes_batch (t : Txn) (ts : List Txn) (trailer : ℕ) :
    ∃ rest, (batch t ts trailer).bytes = encode 8 t.cid ++ rest :=
  ⟨_, by rw [bytes, flatMap_cons, Txn.encoding, append_assoc, append_assoc]⟩

lemma bytes_ne_nil (d : Delivery) : d.bytes ≠ [] := by
  cases d with
  | batch t ts trailer =>
    obtain ⟨rest, hbytes⟩ := exists_bytes_batch t ts trailer
    rw [hbytes]
    exact cons_ne_nil _ _
  | noops digit digits => exact cons_ne_nil _ _

lemma isNoops_noops (digit : UInt8) (digits : Bytes) :
    isNoops (noops digit digits).bytes = true := by
  simp [isNoops, bytes, noopsPrefix]

/-- A log that begins with a commit id is taken for a marker if the seven low bytes of the id are
those of a marker. -/
lemma isNoops_encode_append (cid : ℕ) (rest : Bytes) :
    isNoops (encode 8 cid ++ rest) = true ↔ cid % 256 ^ 7 = noopsCid := by
  have hlen : 7 < (encode 8 cid ++ rest).length := by
    rw [length_append, length_encode]
    omega
  have htake : (encode 8 cid ++ rest).take 7 = encode 7 cid := by
    rw [take_append_of_le_length (by rw [length_encode]; norm_num)]
    exact take_encode 7 1 cid
  have hmarker : ([110, 111, 45, 111, 112, 115, 58] : Bytes) = encode 7 noopsCid := by decide
  rw [isNoops, htake, hmarker, decide_eq_true hlen, Bool.true_and, beq_iff_eq, encode_eq_encode_iff]
  rfl

lemma isNoops_batch (t : Txn) (ts : List Txn) (trailer : ℕ) :
    isNoops (batch t ts trailer).bytes = true ↔ t.cid % 256 ^ 7 = noopsCid := by
  obtain ⟨rest, hbytes⟩ := exists_bytes_batch t ts trailer
  rw [hbytes, isNoops_encode_append]

end Delivery

namespace Worker

/-- The deliveries to a stream, one after another. -/
def deliver : Worker → List (Delivery × Readings) → Option Worker
  | w, [] => some w
  | w, d :: ds => (w.next d.1.bytes d.2).bind (deliver · ds)

/-- The entry of a log: its time stamp, its length and its bytes. -/
def entry (log : Bytes) : UnReplayLog := ⟨latestCommitId log / 1000, 3, log.length, log⟩

/-- The logs of the queue. -/
def queued (w : Worker) : List Bytes := w.unReplayLogs.map UnReplayLog.log

/-- Each of the batches is replayed, queued or dropped, and in one of these places only, and what
is queued is queued with its own bytes and its own time stamp. -/
structure Accounted (w : Worker) (batches : List Bytes) : Prop where
  places : (w.replayed ++ w.queued ++ w.dropped).Perm batches
  own : ∀ it ∈ w.unReplayLogs, it = entry it.log

/-! ## The loops -/

variable {w w' : Worker} {log : Bytes} {r : Readings} {logs : List Bytes}

/-- Nothing is added to or lost from the three places of `w`. -/
structure Moves (w w' : Worker) : Prop where
  places : (w'.replayed ++ w'.queued ++ w'.dropped).Perm (w.replayed ++ w.queued ++ w.dropped)
  queue : w'.unReplayLogs ⊆ w.unReplayLogs

lemma Moves.refl (w : Worker) : Moves w w := ⟨.refl _, List.Subset.refl _⟩

lemma Moves.trans {w₁ w₂ w₃ : Worker} (h₁₂ : Moves w₁ w₂) (h₂₃ : Moves w₂ w₃) : Moves w₁ w₃ :=
  ⟨h₂₃.places.trans h₁₂.places, List.Subset.trans h₂₃.queue h₁₂.queue⟩

lemma Moves.accounted (h : Moves w w') (hw : w.Accounted logs) : w'.Accounted logs :=
  ⟨h.places.trans hw.places, fun it hit => hw.own it (h.queue hit)⟩

/-- The first log of the queue is replayed. -/
lemma moves_replay {it : UnReplayLog} {queue : List UnReplayLog}
    (h : w.unReplayLogs = it :: queue) : Moves w ((w.replay it.log).setQueue queue) := by
  refine ⟨?_, h ▸ subset_cons_self it queue⟩
  simp only [replay, setQueue, queued, h, map_cons, append_assoc]
  exact .refl _

/-- The first log of the queue is dropped. -/
lemma moves_drop {it : UnReplayLog} {queue : List UnReplayLog}
    (h : w.unReplayLogs = it :: queue) : Moves w ((w.drop it.log).setQueue queue) := by
  refine ⟨?_, h ▸ subset_cons_self it queue⟩
  simp only [drop, setQueue, queued, h, map_cons, append_assoc]
  refine List.Perm.append_left _ ?_
  rw [← append_assoc]
  exact perm_append_comm

lemma moves_drainLoop (noops : Bool) (g : ℕ) (queue : List UnReplayLog) (w : Worker)
    (h : w.unReplayLogs = queue) : Moves w (drainLoop noops g w queue) := by
  induction queue generalizing w with
  | nil => exact .refl w
  | cons it queue ih =>
    rw [drainLoop]
    split
    · exact (moves_replay h).trans (ih _ rfl)
    · split
      · exact (moves_drop h).trans (ih _ rfl)
      · exact .refl w

lemma moves_drain (noops : Bool) (g : ℕ) (w : Worker) : Moves w (w.drain noops g) :=
  moves_drainLoop noops g _ w rfl

/-- The loop at the end signal replays everything that is queued, in order. -/
lemma lag_eq {gs : List ℕ} (h : w.lag gs = some w') :
    w'.unReplayLogs = [] ∧ w'.replayed = w.replayed ++ w.queued ∧ w'.dropped = w.dropped := by
  induction gs generalizing w with
  | nil =>
    rw [lag] at h
    split at h
    · next hnil =>
      cases h
      simp [hnil, queued]
    · cases h
  | cons gg ggs ih =>
    rw [lag] at h
    split at h
    · next hnil =>
      cases h
      simp [hnil, queued]
    · next itt queue hqueue =>
      split at h
      · obtain ⟨hnil, hrep, hdrop⟩ := ih h
        refine ⟨hnil, ?_, hdrop⟩
        rw [hrep]
        simp [replay, setQueue, queued, hqueue]
      · exact ih h

/-! ## One log -/

/-- Everything queued fits the packed number that the callback answers. -/
lemma latestCommitId_lt (log : Bytes) : latestCommitId log < 2 ^ 64 := by
  have hlt := decode_lt (log.drop (log.length - 8))
  have hlen : (log.drop (log.length - 8)).length ≤ 8 := by
    rw [length_drop]
    omega
  exact lt_of_lt_of_le hlt (Nat.pow_le_pow_right (by norm_num) hlen)

/-- A marker moves logs of the queue only. -/
lemma next_of_isNoops (hne : log ≠ []) (hno : isNoops log = true) :
    ∃ w', w.next log r = some w' ∧ Moves w w' := by
  refine ⟨w.drain true r.drain, ?_, moves_drain _ _ w⟩
  simp [next, callback, hne, hno]

/-- `Next` gets back what the callback has packed. -/
lemma unpack {stamp status : ℕ} (hstamp : stamp < 2 ^ 64 / 1000 + 1) (hstatus : status < 10) :
    (stamp * 10 + status) % 2 ^ 64 / 10 = stamp ∧ (stamp * 10 + status) % 2 ^ 64 % 10 = status := by
  rw [Nat.mod_eq_of_lt (by omega)]
  omega

/-- What `Next` does with a batch, once the number is unpacked. -/
lemma next_eq_of_batch (hne : log ≠ []) (hno : isNoops log = false) :
    w.next log r = some (if r.check < latestCommitId log / 1000 then
      (w.drain false r.drain).setQueue ((w.drain false r.drain).unReplayLogs ++ [entry log])
    else (w.replay log).drain false r.drain) := by
  have hstamp : latestCommitId log / 1000 < 2 ^ 64 / 1000 + 1 :=
    Nat.lt_succ_of_le (Nat.div_le_div_right (latestCommitId_lt log).le)
  by_cases hcheck : r.check < latestCommitId log / 1000
  · obtain ⟨hdiv, hmod⟩ := unpack hstamp (by norm_num : 3 < 10)
    simp only [next, callback, hne, hno, hcheck, hdiv, hmod, entry, if_false, if_true, ne_eq,
      not_false_eq_true, and_self, map_some, Bool.false_eq_true]
  · obtain ⟨-, hmod⟩ := unpack hstamp (by norm_num : 4 < 10)
    simp only [next, callback, hne, hno, hcheck, hmod, if_false, ne_eq, not_false_eq_true,
      true_and, map_some, Bool.false_eq_true, Nat.reduceEqDiff]

/-- A batch is replayed, or it joins the queue with its time stamp. -/
lemma next_of_batch (hne : log ≠ []) (hno : isNoops log = false) : ∃ w', w.next log r = some w' ∧
      (Moves (w.replay log) w' ∨
        ∃ w₁, Moves w w₁ ∧ w' = w₁.setQueue (w₁.unReplayLogs ++ [entry log])) := by
  refine ⟨_, next_eq_of_batch hne hno, ?_⟩
  split
  · exact .inr ⟨_, moves_drain false r.drain w, rfl⟩
  · exact .inl (moves_drain false r.drain (w.replay log))

/-- The account goes on with a batch, and is not changed by a marker. -/
lemma Accounted.next (h : w.Accounted logs) (hne : log ≠ []) : ∃ w', w.next log r = some w' ∧
      w'.Accounted (logs ++ if isNoops log then [] else [log]) := by
  cases hno : isNoops log with
  | true =>
    obtain ⟨w', hnext, hmoves⟩ := next_of_isNoops hne hno
    exact ⟨w', hnext, by simpa using hmoves.accounted h⟩
  | false =>
    obtain ⟨w', hnext, hmoves | ⟨w₁, hmoves, rfl⟩⟩ := next_of_batch hne hno
    · refine ⟨w', hnext, hmoves.accounted ⟨?_, h.own⟩⟩
      refine List.Perm.trans ?_ (h.places.append_right [log])
      simp only [replay, queued, append_assoc]
      refine List.Perm.append_left _ ?_
      rw [← append_assoc _ _ [log]]
      exact perm_append_comm
    · have h₁ := hmoves.accounted h
      refine ⟨_, hnext, ?_, ?_⟩
      · refine List.Perm.trans ?_ (h₁.places.append_right [log])
        simp only [setQueue, queued, entry, map_append, map_cons, map_nil, append_assoc]
        exact List.Perm.append_left _ (List.Perm.append_left _ perm_append_comm)
      · intro it hit
        rcases mem_append.mp hit with hit | hit
        · exact h₁.own it hit
        · rw [mem_singleton.mp hit]
          rfl

lemma Accounted.deliver (h : w.Accounted logs) (ds : List (Delivery × Readings)) :
    ∃ w', w.deliver ds = some w' ∧
      w'.Accounted (logs ++ (Delivery.batches ds).filter fun b => !isNoops b) := by
  induction ds generalizing w logs with
  | nil => exact ⟨w, rfl, by simpa [Delivery.batches] using h⟩
  | cons d ds ih =>
    obtain ⟨d, r⟩ := d
    obtain ⟨w₁, hnext, h₁⟩ : ∃ w', w.next d.bytes r = some w' ∧ _ := h.next d.bytes_ne_nil
    obtain ⟨w', hds, h'⟩ := ih h₁
    refine ⟨w', by simp [Worker.deliver, hnext, hds], ?_⟩
    -- a marker is no batch, and is taken for what it is
    cases d with
    | batch t ts trailer =>
      cases hno : isNoops (Delivery.batch t ts trailer).bytes <;>
        simpa [Delivery.batches, Delivery.batch?, hno] using h'
    | noops digit digits =>
      simpa [Delivery.batches, Delivery.batch?, Delivery.isNoops_noops] using h'

lemma forall_batches_iff (ds : List (Delivery × Readings)) :
    (∀ b ∈ Delivery.batches ds, (!isNoops b) = true) ↔
      ∀ t ts trailer r, (Delivery.batch t ts trailer, r) ∈ ds →
        t.cid % 256 ^ 7 ≠ Delivery.noopsCid := by
  constructor
  · intro h t ts trailer r hd hcid
    have hb := h _ (mem_filterMap.mpr ⟨_, hd, rfl⟩)
    rw [(Delivery.isNoops_batch t ts trailer).mpr hcid] at hb
    exact Bool.noConfusion hb
  · intro h b hb
    obtain ⟨⟨d, r⟩, hd, hbytes⟩ := mem_filterMap.mp hb
    cases d with
    | batch t ts trailer =>
      cases hbytes
      rw [Bool.not_eq_true', ← Bool.not_eq_true, Delivery.isNoops_batch]
      exact h t ts trailer r hd
    | noops digit digits => cases hbytes

/-- After the deliveries `ds` every batch is in one place, and if the end signal then comes and
its callback returns, the queue is empty and every queued batch is replayed. -/
def Accounts (ds : List (Delivery × Readings)) : Prop :=
  ∃ w, Worker.deliver {} ds = some w ∧ w.Accounted (Delivery.batches ds) ∧
    ∀ r w', w.next [] r = some w' →
      w'.unReplayLogs = [] ∧ w'.replayed = w.replayed ++ w.queued ∧ w'.dropped = w.dropped

lemma accounted_nil : Worker.Accounted {} [] := ⟨.refl _, forall_mem_nil _⟩

/-- The end signal empties the queue. -/
lemma next_nil (h : w.next [] r = some w') :
    w'.unReplayLogs = [] ∧ w'.replayed = w.replayed ++ w.queued ∧ w'.dropped = w.dropped := by
  have hlag : w.lag r.lag = some w' := by simpa [Worker.next, callback] using h
  exact lag_eq hlag

/-- The batches of a stream are accounted for, whatever the callback reads of `G`, if and only if
no first commit id of a batch has the seven low bytes that begin a marker. -/
theorem accounts_iff (ds : List (Delivery × Readings)) :
    Accounts ds ↔ ∀ t ts trailer r, (Delivery.batch t ts trailer, r) ∈ ds →
      t.cid % 256 ^ 7 ≠ Delivery.noopsCid := by
  obtain ⟨w, hds, hw⟩ := accounted_nil.deliver ds
  rw [List.nil_append] at hw
  rw [← forall_batches_iff]
  constructor
  · rintro ⟨w', hds', hw', -⟩
    cases hds.symm.trans hds'
    have hperm := hw.places.symm.trans hw'.places
    exact List.length_filter_eq_length_iff.mp hperm.length_eq
  · intro hall
    rw [List.filter_eq_self.mpr hall] at hw
    exact ⟨w, hds, hw, fun r w' h => next_nil h⟩

/-- The put with the commit id of epoch 6 whose first seven bytes are those of a marker. -/
def likeMarker : Txn where
  tid := 5709002404384305
  epoch := 6
  items := [⟨false, false, [7], [1], [7], 10001⟩]
  items_ne := by decide
  items_le := by decide
  wellFormed := by decide

/-- The only batch of the stream is taken for a marker. It is neither replayed nor queued nor
dropped. -/
theorem not_accounts_likeMarker :
    Worker.deliver {} [(.batch likeMarker [] likeMarker.cid, ⟨0, 0, []⟩)] = some {} ∧
      ¬Accounts [(.batch likeMarker [] likeMarker.cid, ⟨0, 0, []⟩)] := by
  have hnone : Worker.deliver {} [(.batch likeMarker [] likeMarker.cid, ⟨0, 0, []⟩)] = some {} := by
    decide +kernel
  refine ⟨hnone, ?_⟩
  rintro ⟨w, hds, hw, -⟩
  cases hnone.symm.trans hds
  exact absurd hw.places.length_eq (by decide)

/-! ## The streams of the follower -/

/-- The worker of a stream: the queue holds the entries of the stream's logs. -/
structure Represents (w : Worker) (st : Stream) : Prop where
  queue : w.unReplayLogs = st.unReplayLogs.map entry
  ne_nil : ∀ log ∈ st.unReplayLogs, log ≠ []
  replayed : w.replayed = st.applied.map Prod.snd
  dropped : w.dropped = st.dropped.map fun d => d.2.1

lemma stamp_eq_entry (h : log ≠ []) : stamp log = (entry log).latestCommitId := by
  rw [stamp, if_neg h, entry]

/-- The two loops in one go: both replay what the bound allows, and the loop after a batch stops
where the one at a marker drops. -/
lemma drainLoop_eq (g : ℕ) (queue : List Bytes) (hne : ∀ log ∈ queue, log ≠ []) (w : Worker)
    (h : w.unReplayLogs = queue.map entry) :
    drainLoop false g w (queue.map entry) =
        { w with
          unReplayLogs := (queue.dropWhile fun log => stamp log ≤ g).map entry
          replayed := w.replayed ++ queue.takeWhile fun log => stamp log ≤ g } ∧
      drainLoop true g w (queue.map entry) =
        { unReplayLogs := []
          replayed := w.replayed ++ queue.filter fun log => stamp log ≤ g
          dropped := w.dropped ++ queue.filter fun log => g < stamp log } := by
  induction queue generalizing w with
  | nil =>
    obtain ⟨queue, replayed, dropped⟩ := w
    cases h
    simp [drainLoop]
  | cons log queue ih =>
    have hstamp := stamp_eq_entry (hne log mem_cons_self)
    have hrest := fun w h => ih (fun l hl => hne l (mem_cons_of_mem log hl)) w h
    rw [map_cons, drainLoop, drainLoop, ← hstamp]
    by_cases hle : stamp log ≤ g
    · rw [if_pos hle, if_pos hle, (hrest _ rfl).1, (hrest _ rfl).2]
      simp [hle, replay, setQueue, entry]
    · rw [if_neg hle, if_neg hle, if_pos rfl, (hrest _ rfl).2]
      simp [hle, Nat.lt_of_not_le hle, drop, setQueue, entry, ← h]

/-- A batch takes the worker where the steps `check` and `drain` take the stream. -/
lemma Represents.next_batch {st : Stream} (h : Represents w st) (hne : log ≠ [])
    (hno : isNoops log = false) :
    ∃ w', w.next log r = some w' ∧ Represents w'
      (if r.check < stamp log then st.drain r.drain (some log)
        else (st.replay [log]).drain r.drain none) := by
  refine ⟨_, next_eq_of_batch hne hno, ?_⟩
  have hstamp : stamp log = latestCommitId log / 1000 := by rw [stamp, if_neg hne]
  have hmem (l : Bytes) (hl : l ∈ st.unReplayLogs.dropWhile fun l => stamp l ≤ r.drain) : l ≠ [] :=
    h.ne_nil l ((dropWhile_sublist _).subset hl)
  rw [hstamp]
  split
  · rw [drain, h.queue, (drainLoop_eq _ _ h.ne_nil _ h.queue).1]
    refine ⟨?_, ?_, ?_, h.dropped⟩
    · simp [setQueue, Stream.drain]
    · intro l hl
      rcases mem_append.mp hl with hl | hl
      · exact hmem l hl
      · rw [mem_toList.mp hl |> some.inj] at hne
        exact hne
    · simp [setQueue, Stream.drain, Stream.replay, h.replayed]
  · have hqueue : (w.replay log).unReplayLogs = st.unReplayLogs.map entry := h.queue
    rw [drain, hqueue, (drainLoop_eq _ _ h.ne_nil _ hqueue).1]
    refine ⟨by simp [Stream.drain, Stream.replay], ?_, ?_, h.dropped⟩
    · intro l hl
      exact hmem l (by simpa [Stream.drain, Stream.replay] using hl)
    · simp [replay, Stream.drain, Stream.replay, h.replayed]

/-- A marker takes the worker where the load of `G` takes the stream. -/
lemma Represents.next_noops {st : Stream} (h : Represents w st) (hne : log ≠ [])
    (hno : isNoops log = true) :
    ∃ w', w.next log r = some w' ∧ Represents w' (st.drainNoops r.drain) := by
  refine ⟨w.drain true r.drain, by simp [next, callback, hne, hno], ?_⟩
  rw [drain, h.queue, (drainLoop_eq _ _ h.ne_nil _ h.queue).2]
  refine ⟨rfl, forall_mem_nil _, ?_, ?_⟩
  · simp [Stream.drainNoops, Stream.replay, h.replayed]
  · simp [Stream.drainNoops, h.dropped, Function.comp_def]

end Worker

/-- Where the steps of the follower take a stream for a log, with what they read of `G`. -/
def Stream.accept (st : Stream) (log : Bytes) (r : Readings) : Stream :=
  if isNoops log then st.drainNoops r.drain
  else if r.check < stamp log then st.drain r.drain (some log)
  else (st.replay [log]).drain r.drain none

/-- All logs of a stream, one after another. -/
def Stream.acceptAll (ds : List (Bytes × Readings)) : Stream :=
  ds.foldl (fun st d => st.accept d.1 d.2) {}

section Accepting

open Function (update_self)

variable {st st' : Stream} {N : ℕ} {s s' : State N} {i : Fin N}

/-- Two streams with the same logs in the same places. -/
def Stream.Same (st st' : Stream) : Prop :=
  st.unReplayLogs = st'.unReplayLogs ∧ st.applied.map Prod.snd = st'.applied.map Prod.snd ∧
    st.dropped.map (·.2.1) = st'.dropped.map (·.2.1)

lemma Stream.Same.replay (h : st.Same st') (logs : List Bytes) :
    (st.replay logs).Same (st'.replay logs) :=
  ⟨h.1, by simp [Stream.replay, h.2.1, Function.comp_def], h.2.2⟩

lemma Stream.Same.drain (h : st.Same st') (g : ℕ) (kept : Option Bytes) :
    (st.drain g kept).Same (st'.drain g kept) := by
  have hreplay := h.replay (st.unReplayLogs.takeWhile fun log => stamp log ≤ g)
  rw [Stream.drain, Stream.drain, ← h.1]
  exact ⟨rfl, hreplay.2⟩

lemma Stream.Same.drainNoops (h : st.Same st') (g : ℕ) :
    (st.drainNoops g).Same (st'.drainNoops g) := by
  have hreplay := h.replay (st.unReplayLogs.filter fun log => stamp log ≤ g)
  rw [Stream.drainNoops, Stream.drainNoops, ← h.1]
  exact ⟨rfl, hreplay.2.1, by simp [h.2.2, Function.comp_def]⟩

/-- The logs of `ds` that are no markers. -/
def batchesOf (ds : List (Bytes × Readings)) : List Bytes :=
  (ds.map Prod.fst).filter fun log => !isNoops log

/-- What the callback has done at a point of its code: it has accepted `ds`, and is at work on one
more log where it holds one. -/
def Stream.Accepting (ds : List (Bytes × Readings)) (st : Stream) : Pc → Prop
  | .received log | .check log => (log ≠ [] ∧ isNoops log = false) ∧
      st.delivered.map Prod.snd = batchesOf ds ++ [log] ∧ st.Same (acceptAll ds)
  | .drain (some log) => (isNoops log = false ∧ ∃ g, g < stamp log) ∧
      st.delivered.map Prod.snd = batchesOf ds ++ [log] ∧ st.Same (acceptAll ds)
  | .drain none => ∃ log, (isNoops log = false ∧ ∃ g, stamp log ≤ g) ∧
      st.delivered.map Prod.snd = batchesOf ds ++ [log] ∧ st.Same ((acceptAll ds).replay [log])
  | .lag => False
  | _ => st.delivered.map Prod.snd = batchesOf ds ∧ st.Same (acceptAll ds)

lemma acceptAll_concat (ds : List (Bytes × Readings)) (log : Bytes) (r : Readings) :
    Stream.acceptAll (ds ++ [(log, r)]) = (Stream.acceptAll ds).accept log r := by
  rw [Stream.acceptAll, foldl_append]
  rfl

lemma batchesOf_concat (ds : List (Bytes × Readings)) (log : Bytes) (r : Readings) :
    batchesOf (ds ++ [(log, r)]) = batchesOf ds ++ if isNoops log then [] else [log] := by
  cases h : isNoops log <;> simp [batchesOf, h]

/-- The callback has accepted the log that it was at work on. -/
lemma Stream.Accepting.drain {ds : List (Bytes × Readings)} {kept : Option Bytes}
    (h : st.Accepting ds (.drain kept)) (g : ℕ) : ∃ ds, (st.drain g kept).Accepting ds .idle := by
  have haccepted : ∀ log bound st', isNoops log = false →
      st.delivered.map Prod.snd = batchesOf ds ++ [log] → (st.drain g kept).Same st' →
      (acceptAll ds).accept log ⟨bound, g, []⟩ = st' →
      ∃ ds, (st.drain g kept).Accepting ds .idle := by
    intro log bound st' hno hdel hsame haccept
    refine ⟨ds ++ [(log, ⟨bound, g, []⟩)], ?_, ?_⟩
    · rw [batchesOf_concat, hno]
      exact hdel
    · rwa [acceptAll_concat, haccept]
  cases kept with
  | some log =>
    obtain ⟨⟨hno, bound, hlt⟩, hdel, hsame⟩ := h
    exact haccepted log bound _ hno hdel (hsame.drain g _) (by simp [Stream.accept, hno, hlt])
  | none =>
    obtain ⟨log, ⟨hno, bound, hle⟩, hdel, hsame⟩ := h
    exact haccepted log bound _ hno hdel (hsame.drain g _)
      (by simp [Stream.accept, hno, hle.not_gt])

/-- A marker, whatever follows its first seven bytes. -/
lemma Stream.Accepting.drainNoops {ds : List (Bytes × Readings)}
    (h : st.Accepting ds (.load false)) (g : ℕ) :
    ∃ ds, (st.drainNoops g).Accepting ds (.arrive 1) := by
  have hno : isNoops (Delivery.noops 48 []).bytes = true := by decide
  refine ⟨ds ++ [((Delivery.noops 48 []).bytes, ⟨0, g, []⟩)], ?_, ?_⟩
  · rw [batchesOf_concat, hno, if_pos rfl, append_nil]
    exact h.1
  · rw [acceptAll_concat, Stream.accept, if_pos hno]
    exact h.2.drainNoops g

lemma accepting_move {ds : List (Bytes × Readings)}
    (h : (s.streams i).Accepting ds (s.streams i).pc) (hm : Move s i s') :
    ∃ ds, (s'.streams i).Accepting ds (s'.streams i).pc := by
  cases hm with
  | storeEnd hpc =>
    rw [hpc] at h
    exact absurd rfl h.1.1
  | lagReplay hpc | lagDone hpc =>
    rw [hpc] at h
    exact h.elim
  | drain hpc =>
    rw [hpc] at h
    rw [streams_setStream, update_self]
    exact h.drain s.G
  | drainNoops hpc =>
    rw [hpc] at h
    rw [streams_setStream, update_self]
    exact h.drainNoops s.G
  | keep hpc hlt =>
    rw [hpc] at h
    rw [streams_setStream, update_self]
    exact ⟨ds, ⟨h.1.2, s.G, hlt⟩, h.2⟩
  | @replay log hpc hle =>
    rw [hpc] at h
    rw [streams_setStream, update_self]
    exact ⟨ds, log, ⟨h.1.2, s.G, hle⟩, h.2.1, h.2.2.replay [log]⟩
  | store hpc | arrive hpc | skip hpc | restart hpc | next hpc | read hpc | storeG hpc | leave hpc
  | reset hpc =>
    rw [hpc] at h
    rw [streams_setStream, update_self]
    exact ⟨ds, h⟩

/-- In every run in which the stream does not end, the steps of the follower take the logs of a
stream where `accept` takes them, with what they have read of `G` in between. -/
lemma same_acceptAll_of_run (h : Lts.Run (follower N) (fun _ a => a ≠ .deliver i [])
    (follower N).init s) (hpc : (s.streams i).pc = .idle) :
    ∃ ds, (s.streams i).delivered.map Prod.snd = batchesOf ds ∧
      (s.streams i).Same (Stream.acceptAll ds) := by
  have hinv : ∃ ds, (s.streams i).Accepting ds (s.streams i).pc := by
    refine h.invariant (fun s => ∃ ds, (s.streams i).Accepting ds (s.streams i).pc) ?_
      ⟨[], rfl, rfl, rfl, rfl⟩
    rintro s s' a ⟨ds, hs⟩ hend hstep
    cases a with
    | advance =>
      cases hstep
      exact ⟨ds, by rwa [streams_advance]⟩
    | run j =>
      have hm := move_of_run hstep
      by_cases hij : i = j
      · subst hij
        exact accepting_move hs hm
      · rw [hm.streams_ne hij]
        exact ⟨ds, hs⟩
    | deliver j log =>
      by_cases hij : i = j
      · subst hij
        obtain ⟨hidle, ⟨-, rfl⟩ | ⟨hno, rfl⟩⟩ := deliver_cases hstep <;> rw [hidle] at hs <;>
          rw [streams_setStream, update_self]
        · exact ⟨ds, hs⟩
        · have hne : log ≠ [] := by
            rintro rfl
            exact hend rfl
          exact ⟨ds, ⟨hne, hno⟩, by rw [map_append, hs.1]; rfl, hs.2⟩
      · rw [(starts_of_deliver hstep).streams_ne i hij]
        exact ⟨ds, hs⟩
  obtain ⟨ds, hds⟩ := hinv
  rw [hpc] at hds
  exact ⟨ds, hds⟩

end Accepting

lemma Worker.Represents.accept {w : Worker} {st : Stream} {log : Bytes} {r : Readings}
    (h : w.Represents st) (hne : log ≠ []) :
    ∃ w', w.next log r = some w' ∧ w'.Represents (st.accept log r) := by
  rw [Stream.accept]
  cases hno : isNoops log with
  | true => exact h.next_noops hne hno
  | false => exact h.next_batch hne hno

lemma Worker.Represents.deliver {w : Worker} {st : Stream} (h : w.Represents st)
    (ds : List (Delivery × Readings)) :
    ∃ w', w.deliver ds = some w' ∧
      w'.Represents (ds.foldl (fun st d => st.accept d.1.bytes d.2) st) := by
  induction ds generalizing w st with
  | nil => exact ⟨w, rfl, h⟩
  | cons d ds ih =>
    obtain ⟨w₁, hnext, h₁⟩ := h.accept (r := d.2) d.1.bytes_ne_nil
    obtain ⟨w', hds, h'⟩ := ih h₁
    exact ⟨w', by rw [Worker.deliver, hnext, bind_some, hds], h'⟩

/-- `Next` with its packed numbers and the entries of its queue does to the logs what the steps of
the follower do to a stream, for all deliveries and all that is read of `G`. -/
theorem represents_foldl_accept (ds : List (Delivery × Readings)) :
    ∃ w, Worker.deliver {} ds = some w ∧
      w.Represents (ds.foldl (fun st d => st.accept d.1.bytes d.2) {}) :=
  Worker.Represents.deliver ⟨rfl, forall_mem_nil _, rfl, rfl⟩ ds

end Rolis.Replay
