import Rolis.Paxos.Marshal

/-!
# What survives the wire

A command that its sender built is read back as it was, up to where a log entry keeps its bytes,
just if there is no `SyncLogResponse` in it and no vector has `2 ^ 31` elements. Both directions go
by induction over the command: a reader that is given the bytes of a sound command takes just these,
so the next reader finds its own, and a reader that goes on with a wrong count ends with another
vector.
-/

namespace Rolis.Paxos.Marshal

open Get List

/-! ## Counts and vectors -/

/-- What becomes of a size that is cast to `int32_t` and bounds a loop. -/
def castCount (n : ℕ) : ℕ := (BitVec.ofNat 32 n).toInt.toNat

lemma castCount_eq_iff {n : ℕ} : castCount n = n ↔ n < 2 ^ 31 := by
  unfold castCount
  rw [BitVec.toInt_ofNat', Int.bmod_def]
  split
  · omega
  · omega

namespace Wire

variable (W : Wire)

lemma reads_getCount (n : ℕ) : W.getCount.Reads (W.putCount n) (castCount n) :=
  (W.i32.reads _).map _

lemma reads_getCount_of_lt {n : ℕ} (hn : n < 2 ^ 31) : W.getCount.Reads (W.putCount n) n := by
  have h := W.reads_getCount n
  rwa [castCount_eq_iff.mpr hn] at h

lemma reads_getVector {α : Type} (c : Codec α) {xs : List α} (hxs : xs.length < 2 ^ 31) :
    (W.getVector c).Reads (W.putVector c xs) xs :=
  (W.reads_getCount_of_lt hxs).bind (c.reads_many xs)

/-- A vector that is read back whole was not too long. -/
lemma length_lt_of_getVector {α : Type} {c : Codec α} {xs : List α} {s t : Bytes}
    (h : W.getVector c (W.putVector c xs ++ s) = some (xs, t)) : xs.length < 2 ^ 31 := by
  unfold getVector putVector at h
  rw [append_assoc, (W.reads_getCount _).bind_apply] at h
  exact castCount_eq_iff.mp (length_of_many h).symm

end Wire

/-! ## Single commands -/

lemma BulkPrepareLog.reads {W : Wire} {l : BulkPrepareLog}
    (hl : l.minPreparedSlots.length < 2 ^ 31) : (fromMarshal W).Reads (l.toMarshal W) l :=
  (W.reads_getVector _ hl).bind ((W.u32.reads l.leaderId).bind ((W.i32.reads l.epoch).map _))

lemma BulkPrepareLog.length_lt {W : Wire} {l : BulkPrepareLog} {s t : Bytes}
    (h : fromMarshal W (l.toMarshal W ++ s) = some (l, t)) :
    l.minPreparedSlots.length < 2 ^ 31 := by
  unfold fromMarshal toMarshal at h
  rw [append_assoc, bind_apply_eq_some_iff] at h
  obtain ⟨slots, s₁, hslots, h⟩ := h
  rw [bind_apply_eq_some_iff] at h
  obtain ⟨leaderId, s₂, -, h⟩ := h
  rw [map_apply_eq_some_iff] at h
  obtain ⟨epoch, -, heq⟩ := h
  rw [← heq] at hslots ⊢
  exact W.length_lt_of_getVector hslots

lemma PaxosPrepCmd.reads {W : Wire} {c : PaxosPrepCmd} (hc : c.slots.length < 2 ^ 31)
    (heq : c.ballots.length = c.slots.length) : (fromMarshal W).Reads (c.toMarshal W) c := by
  have hballots := W.i64.reads_many c.ballots
  rw [heq] at hballots
  exact (W.reads_getVector _ hc).bind ((W.reads_getCount_of_lt hc).bind
    (hballots.bind ((W.i32.reads c.leaderId).map _)))

lemma PaxosPrepCmd.length_lt {W : Wire} {c : PaxosPrepCmd} {s t : Bytes}
    (h : fromMarshal W (c.toMarshal W ++ s) = some (c, t)) : c.slots.length < 2 ^ 31 := by
  unfold fromMarshal toMarshal at h
  rw [append_assoc, bind_apply_eq_some_iff] at h
  obtain ⟨slots, s₁, hslots, h⟩ := h
  rw [bind_apply_eq_some_iff] at h
  obtain ⟨sz, s₂, -, h⟩ := h
  rw [bind_apply_eq_some_iff] at h
  obtain ⟨ballots, s₃, -, h⟩ := h
  rw [map_apply_eq_some_iff] at h
  obtain ⟨leaderId, -, heq⟩ := h
  rw [← heq] at hslots ⊢
  exact W.length_lt_of_getVector hslots

lemma HeartBeatLog.reads (W : Wire) (l : HeartBeatLog) : (fromMarshal W).Reads (l.toMarshal W) l :=
  (W.u32.reads l.leaderId).bind ((W.i32.reads l.epoch).map _)

lemma indexed_eq_some_iff {size : ℕ} {bs cs : Bytes} :
    indexed size bs = some cs ↔ size < 2 ^ 31 ∧ bs = cs := by
  unfold indexed
  split
  · next h => simp only [Option.some.injEq, h, true_and]
  · next h => simp only [reduceCtorEq, h, false_and]

lemma SyncRequest.reads {W : Wire} {r : SyncRequest} (hr : r.slots.length < 2 ^ 31) :
    ∃ bs, r.toMarshal W = some bs ∧ (fromMarshal W).Reads bs r := by
  refine ⟨_, indexed_eq_some_iff.mpr ⟨hr, rfl⟩, ?_⟩
  exact (W.i32.reads r.leaderId).bind ((W.i64.reads r.epoch).bind ((W.reads_getVector _ hr).map _))

namespace LogEntry

/-- The buffer of an entry was allocated with its length. -/
def Built (e : LogEntry) : Prop :=
  ∀ p, e.operationTest = some p → 0 ≤ e.length.toInt ∧ e.length.toNat = p.length

lemma string_eq {e : LogEntry} (he : e.Built) : e.string = some e.received.logEntry := by
  unfold string received
  cases hop : e.operationTest with
  | none => rfl
  | some p =>
    obtain ⟨hpos, hlen⟩ := he p hop
    exact if_pos ⟨hpos, hlen.le⟩

lemma received_eq (e : LogEntry) : e.received = ⟨e.length, e.received.logEntry, none⟩ := by
  unfold received
  cases hop : e.operationTest with
  | none =>
    dsimp only
    rw [← hop]
  | some p => rfl

lemma reads_fromMarshal (W : Wire) (length : BitVec 32) (s : Str) :
    (fromMarshal W).Reads (W.i32.put length ++ W.string.put s) ⟨length, s, none⟩ :=
  (W.i32.reads length).bind ((W.string.reads s).map _)

lemma reads {W : Wire} {e : LogEntry} (he : e.Built) :
    ∃ bs, e.toMarshal W = some bs ∧ (fromMarshal W).Reads bs e.received := by
  refine ⟨W.i32.put e.length ++ W.string.put e.received.logEntry, ?_, ?_⟩
  · rw [toMarshal, string_eq he, Option.map_some]
  · rw [received_eq]
    exact reads_fromMarshal W _ _

lemma received_received (e : LogEntry) : e.received.received = e.received := by
  have hop : e.received.operationTest = none := by rw [received_eq]
  rw [received, hop]

lemma built_received (e : LogEntry) : e.received.Built := by
  intro p hp
  rw [received_eq] at hp
  simp at hp

/-- An entry that was received is handed over as it was submitted. -/
lemma next_received {e : LogEntry} (he : e.Built) : e.received.next = e.submitted := by
  unfold next received submitted
  cases hop : e.operationTest with
  | none => rfl
  | some p =>
    obtain ⟨-, hlen⟩ := he p hop
    dsimp only
    rw [hlen, take_length]

end LogEntry

/-! ## Commands inside each other -/

namespace Marshallable

mutual

/-- The command as it is received. -/
def received : Marshallable → Marshallable
  | logEntry e => logEntry e.received
  | bulkPaxosCmd leaderId slots ballots cmds =>
    bulkPaxosCmd leaderId slots ballots (receivedAll cmds)
  | syncLogResponse syncData missingSlots => syncLogResponse (receivedAll syncData) missingSlots
  | m => m

def receivedAll : List Marshallable → List Marshallable
  | [] => []
  | m :: ms => received m :: receivedAll ms

end

mutual

/-- The log entries of a command, in order. -/
def entries : Marshallable → List LogEntry
  | logEntry e => [e]
  | bulkPaxosCmd _ _ _ cmds => entriesAll cmds
  | syncLogResponse syncData _ => entriesAll syncData
  | _ => []

def entriesAll : List Marshallable → List LogEntry
  | [] => []
  | m :: ms => entries m ++ entriesAll ms

end

@[simp] lemma receivedAll_eq (ms : List Marshallable) : receivedAll ms = ms.map received := by
  induction ms with
  | nil => rfl
  | cons m ms ih => rw [receivedAll, ih, map_cons]

@[simp] lemma entriesAll_eq (ms : List Marshallable) : entriesAll ms = ms.flatMap entries := by
  induction ms with
  | nil => rfl
  | cons m ms ih => rw [entriesAll, ih, flatMap_cons]

/-- As the senders build the commands: there are as many ballots and commands as slots. -/
inductive Built : Marshallable → Prop
  | logEntry {e : LogEntry} (he : e.Built) : Built (.logEntry e)
  | bulkPaxosCmd {leaderId : BitVec 32} {slots ballots : List (BitVec 64)}
      {cmds : List Marshallable} (hballots : ballots.length = slots.length)
      (hcmds : cmds.length = slots.length) (hbuilt : ∀ m ∈ cmds, Built m) :
      Built (.bulkPaxosCmd leaderId slots ballots cmds)
  | bulkPrepareLog {l : BulkPrepareLog} : Built (.bulkPrepareLog l)
  | heartBeatLog {l : HeartBeatLog} : Built (.heartBeatLog l)
  | syncLogRequest {r : SyncRequest} : Built (.syncLogRequest r)
  | syncLogResponse {syncData : List Marshallable} {missingSlots : List (List (BitVec 64))}
      (hbuilt : ∀ m ∈ syncData, Built m) : Built (.syncLogResponse syncData missingSlots)
  | syncNoOpRequest {r : SyncRequest} : Built (.syncNoOpRequest r)
  | paxosPrepCmd {c : PaxosPrepCmd} (hballots : c.ballots.length = c.slots.length) :
      Built (.paxosPrepCmd c)

/-- The counts fit into `int32_t`, and there is no `SyncLogResponse` unless it comes back. -/
inductive Sound (back : Bool) : Marshallable → Prop
  | logEntry {e : LogEntry} : Sound back (.logEntry e)
  | bulkPaxosCmd {leaderId : BitVec 32} {slots ballots : List (BitVec 64)}
      {cmds : List Marshallable} (hslots : slots.length < 2 ^ 31)
      (hsound : ∀ m ∈ cmds, Sound back m) : Sound back (.bulkPaxosCmd leaderId slots ballots cmds)
  | bulkPrepareLog {l : BulkPrepareLog} (hslots : l.minPreparedSlots.length < 2 ^ 31) :
      Sound back (.bulkPrepareLog l)
  | heartBeatLog {l : HeartBeatLog} : Sound back (.heartBeatLog l)
  | syncLogRequest {r : SyncRequest} (hslots : r.slots.length < 2 ^ 31) :
      Sound back (.syncLogRequest r)
  | syncLogResponse {syncData : List Marshallable} {missingSlots : List (List (BitVec 64))}
      (hback : back = true) (hdata : syncData.length < 2 ^ 31)
      (hmissing : missingSlots.length < 2 ^ 31)
      (hslots : ∀ slots ∈ missingSlots, slots.length < 2 ^ 31)
      (hsound : ∀ m ∈ syncData, Sound back m) : Sound back (.syncLogResponse syncData missingSlots)
  | syncNoOpRequest {r : SyncRequest} (hslots : r.slots.length < 2 ^ 31) :
      Sound back (.syncNoOpRequest r)
  | paxosPrepCmd {c : PaxosPrepCmd} (hslots : c.slots.length < 2 ^ 31) :
      Sound back (.paxosPrepCmd c)

/-- The bytes of a command are read back by every reader that has enough fuel. -/
def Reread (W : Wire) (back : Bool) (m : Marshallable) : Prop :=
  ∃ bs, m.toMarshal W back = some bs ∧
    ∀ fuel, sizeOf m ≤ fuel → (fromMarshal W fuel m.kind).Reads bs m.received

variable {W : Wire} {back : Bool} {fuel : ℕ} {m : Marshallable} {leaderId : BitVec 32}
  {slots ballots : List (BitVec 64)} {cmds cmds' syncData : List Marshallable}
  {missingSlots : List (List (BitVec 64))} {bs : Bytes}

lemma deputy_apply (W : Wire) (f : Kind → Get Marshallable) (kind : Kind) (s : Bytes) :
    deputy W f (W.i32.put kind.code ++ s) = f kind s := by
  rw [deputy, (W.i32.reads _).bind_apply, Kind.ofCode_code]

lemma reads_deputy {f : Kind → Get Marshallable} {kind : Kind} (h : (f kind).Reads bs m) :
    (deputy W f).Reads (W.i32.put kind.code ++ bs) m := by
  intro rest
  rw [append_assoc, deputy_apply, h rest]

lemma reread_deputies {ms : List Marshallable} (h : ∀ m ∈ ms, Reread W back m) :
    ∃ bs, deputies W back ms = some bs ∧ ∀ fuel, (∀ m ∈ ms, sizeOf m ≤ fuel) →
      (many (deputy W (fromMarshal W fuel)) ms.length).Reads bs (ms.map received) := by
  induction ms with
  | nil => exact ⟨[], rfl, fun _ _ _ => rfl⟩
  | cons m ms ih =>
    obtain ⟨bs, hbs, hread⟩ := h m mem_cons_self
    obtain ⟨cs, hcs, hreads⟩ := ih fun m' hm' => h m' (mem_cons_of_mem m hm')
    refine ⟨W.i32.put m.kind.code ++ (bs ++ cs), ?_, ?_⟩
    · rw [deputies, hbs, Option.bind_some, hcs, Option.map_some]
    · intro fuel hfuel
      have hfirst := hread fuel (hfuel m mem_cons_self)
      have hrest := hreads fuel fun m' hm' => hfuel m' (mem_cons_of_mem m hm')
      rw [length_cons, many_succ, ← append_assoc]
      exact (reads_deputy hfirst).bind (hrest.map _)

/-- No command is read without fuel. -/
lemma exists_fuel (h : sizeOf m ≤ fuel) : ∃ fuel', fuel = fuel' + 1 := by
  cases fuel with
  | zero => cases m <;> simp at h
  | succ fuel => exact ⟨fuel, rfl⟩

lemma Reread.of_succ (hbs : m.toMarshal W back = some bs)
    (h : ∀ fuel, sizeOf m ≤ fuel + 1 → (fromMarshal W (fuel + 1) m.kind).Reads bs m.received) :
    Reread W back m := by
  refine ⟨bs, hbs, ?_⟩
  intro fuel hfuel
  obtain ⟨fuel, rfl⟩ := exists_fuel hfuel
  exact h fuel hfuel

lemma sizeOf_le_of_mem_cmds (hm : m ∈ cmds)
    (hfuel : sizeOf (bulkPaxosCmd leaderId slots ballots cmds) ≤ fuel + 1) : sizeOf m ≤ fuel := by
  have hlt := sizeOf_lt_of_mem hm
  rw [bulkPaxosCmd.sizeOf_spec] at hfuel
  omega

lemma sizeOf_le_of_mem_syncData (hm : m ∈ syncData)
    (hfuel : sizeOf (syncLogResponse syncData missingSlots) ≤ fuel + 1) : sizeOf m ≤ fuel := by
  have hlt := sizeOf_lt_of_mem hm
  rw [syncLogResponse.sizeOf_spec] at hfuel
  omega

/-- The bytes of a `BulkPaxosCmd`, if those of its commands are `bs`. -/
def bulkBytes (W : Wire) (leaderId : BitVec 32) (slots ballots : List (BitVec 64))
    (cmds : List Marshallable) (bs : Bytes) : Bytes :=
  W.i32.put leaderId ++ (W.putVector W.u64 slots ++ (W.putVector W.i64 ballots ++
    (W.putCount cmds.length ++ bs)))

lemma bulkBytes_append (W : Wire) (leaderId : BitVec 32) (slots ballots : List (BitVec 64))
    (cmds : List Marshallable) (bs s : Bytes) :
    bulkBytes W leaderId slots ballots cmds bs ++ s =
      bulkBytes W leaderId slots ballots cmds (bs ++ s) := by
  simp only [bulkBytes, append_assoc]

/-- The reader of a `BulkPaxosCmd` comes to the commands if there are not too many slots. -/
lemma fromMarshal_bulkBytes (W : Wire) (fuel : ℕ) (leaderId : BitVec 32) (bs : Bytes)
    (hslots : slots.length < 2 ^ 31) (hballots : ballots.length = slots.length)
    (hcmds : cmds.length = slots.length) :
    fromMarshal W (fuel + 1) .cmdBlkPxs (bulkBytes W leaderId slots ballots cmds bs) =
      (many (deputy W (fromMarshal W fuel)) cmds.length >>= fun cmds' =>
        pure (bulkPaxosCmd leaderId slots ballots cmds')) bs := by
  have hcount := W.reads_getCount_of_lt hslots
  have hb := W.i64.reads_many ballots
  rw [hballots] at hb
  unfold bulkBytes Wire.putVector
  rw [fromMarshal, append_assoc, append_assoc, hballots, hcmds]
  rw [(W.i32.reads leaderId).bind_apply, hcount.bind_apply, (W.u64.reads_many slots).bind_apply,
    hcount.bind_apply, hb.bind_apply, hcount.bind_apply]

lemma reads_bulkPaxosCmd (hslots : slots.length < 2 ^ 31)
    (hballots : ballots.length = slots.length) (hcmds : cmds.length = slots.length)
    (hread : (many (deputy W (fromMarshal W fuel)) cmds.length).Reads bs cmds') :
    (fromMarshal W (fuel + 1) .cmdBlkPxs).Reads (bulkBytes W leaderId slots ballots cmds bs)
      (bulkPaxosCmd leaderId slots ballots cmds') := by
  intro rest
  rw [bulkBytes_append, fromMarshal_bulkBytes W fuel leaderId _ hslots hballots hcmds]
  exact hread.map _ rest

lemma reads_syncLogResponse {syncData' : List Marshallable} (hdata : syncData.length < 2 ^ 31)
    (hmissing : missingSlots.length < 2 ^ 31)
    (hslots : ∀ slots ∈ missingSlots, slots.length < 2 ^ 31)
    (hread : (many (deputy W (fromMarshal W fuel)) syncData.length).Reads bs syncData') :
    (fromMarshal W (fuel + 1) .cmdSyncrespPxs).Reads
      (W.putCount syncData.length ++ (bs ++ (W.putCount missingSlots.length ++
        missingSlots.flatMap (W.putVector W.u64))))
      (syncLogResponse syncData' missingSlots) := by
  have hvectors := Get.reads_many (f := id) fun slots hmem =>
    W.reads_getVector W.u64 (hslots slots hmem)
  rw [map_id] at hvectors
  exact (W.reads_getCount_of_lt hdata).bind (hread.bind
    ((W.reads_getCount_of_lt hmissing).bind (hvectors.map _)))

/-- A sound command is read back, whatever follows it. -/
lemma Sound.reread (W : Wire) (hs : Sound back m) (hb : Built m) : Reread W back m := by
  induction hs with
  | logEntry =>
    cases hb with
    | logEntry he =>
      obtain ⟨bs, hbs, hread⟩ := LogEntry.reads (W := W) he
      exact .of_succ hbs fun _ _ => hread.map _
  | bulkPaxosCmd hslots _ ih =>
    cases hb with
    | bulkPaxosCmd hballots hcmds hbuilt =>
      obtain ⟨bs, hbs, hreads⟩ := reread_deputies fun m hm => ih m hm (hbuilt m hm)
      apply Reread.of_succ (by rw [toMarshal, hbs, Option.map_some])
      intro fuel hfuel
      rw [received, receivedAll_eq]
      apply reads_bulkPaxosCmd hslots hballots hcmds
      exact hreads fuel fun m hm => sizeOf_le_of_mem_cmds hm hfuel
  | bulkPrepareLog hslots =>
    exact .of_succ rfl fun _ _ => (BulkPrepareLog.reads hslots).map _
  | heartBeatLog => exact .of_succ rfl fun _ _ => (HeartBeatLog.reads W _).map _
  | syncLogRequest hslots | syncNoOpRequest hslots =>
    obtain ⟨bs, hbs, hread⟩ := SyncRequest.reads (W := W) hslots
    exact .of_succ hbs fun _ _ => hread.map _
  | syncLogResponse hback hdata hmissing hslots _ ih =>
    cases hb with
    | syncLogResponse hbuilt =>
      obtain ⟨bs, hbs, hreads⟩ := reread_deputies fun m hm => ih m hm (hbuilt m hm)
      apply Reread.of_succ
        (by rw [toMarshal, if_pos ⟨hdata, hmissing, hslots⟩, hbs, Option.bind_some, if_pos hback])
      intro fuel hfuel
      rw [received, receivedAll_eq]
      apply reads_syncLogResponse hdata hmissing hslots
      exact hreads fuel fun m hm => sizeOf_le_of_mem_syncData hm hfuel
  | paxosPrepCmd hslots =>
    cases hb with
    | paxosPrepCmd hballots =>
      exact .of_succ rfl fun _ _ => (PaxosPrepCmd.reads hslots hballots).map _

/-! ## Only sound commands -/

/-- A command that was written and read back the same is sound. -/
def Detects (W : Wire) (back : Bool) (m : Marshallable) : Prop :=
  ∀ bs fuel s m' t, m.toMarshal W back = some bs → sizeOf m ≤ fuel →
    fromMarshal W fuel m.kind (bs ++ s) = some (m', t) → m'.received = m.received → Sound back m

lemma received_received (m : Marshallable) (hb : Built m) : m.received.received = m.received := by
  induction hb with
  | logEntry _ => rw [received, received, LogEntry.received_received]
  | bulkPaxosCmd _ _ _ ih =>
    simp only [received, receivedAll_eq, map_map]
    rw [bulkPaxosCmd.injEq]
    exact ⟨rfl, rfl, rfl, map_congr_left ih⟩
  | syncLogResponse _ ih =>
    simp only [received, receivedAll_eq, map_map]
    rw [syncLogResponse.injEq]
    exact ⟨map_congr_left ih, rfl⟩
  | _ => rfl

/-- The deputies of a vector that were written and read back the same are sound. -/
lemma sound_of_deputies {ms ms' : List Marshallable} {s t : Bytes} (hb : ∀ m ∈ ms, Built m)
    (h : ∀ m ∈ ms, Detects W back m) (hfuel : ∀ m ∈ ms, sizeOf m ≤ fuel)
    (hbs : deputies W back ms = some bs)
    (hread : many (deputy W (fromMarshal W fuel)) ms.length (bs ++ s) = some (ms', t))
    (hsame : ms'.map received = ms.map received) : ∀ m ∈ ms, Sound back m := by
  induction ms generalizing ms' bs t with
  | nil => simp
  | cons m ms ih =>
    rw [deputies, Option.bind_eq_some_iff] at hbs
    obtain ⟨bs₁, hbs₁, hbs⟩ := hbs
    rw [Option.map_eq_some_iff] at hbs
    obtain ⟨bs₂, hbs₂, rfl⟩ := hbs
    rw [length_cons, many_succ, bind_apply_eq_some_iff] at hread
    obtain ⟨m₁, s₁, hfirst, hread⟩ := hread
    rw [map_apply_eq_some_iff] at hread
    obtain ⟨ms₂, hrest, rfl⟩ := hread
    rw [map_cons, map_cons, cons.injEq] at hsame
    rw [append_assoc, deputy_apply, append_assoc] at hfirst
    have hm := mem_cons_self (a := m) (l := ms)
    have hsound := h m hm bs₁ fuel _ m₁ s₁ hbs₁ (hfuel m hm) hfirst hsame.1
    -- a sound deputy takes its own bytes, so the next one starts where it was written
    obtain ⟨bs', hbs', hreads⟩ := hsound.reread W (hb m hm)
    rw [hbs₁, Option.some.injEq] at hbs'
    subst hbs'
    have hexact := hreads fuel (hfuel m hm) (bs₂ ++ s)
    rw [hexact, Option.some.injEq, Prod.mk.injEq] at hfirst
    rw [← hfirst.2] at hrest
    have hall := ih (fun m' hm' => hb m' (mem_cons_of_mem m hm'))
      (fun m' hm' => h m' (mem_cons_of_mem m hm'))
      (fun m' hm' => hfuel m' (mem_cons_of_mem m hm')) hbs₂ hrest hsame.2
    intro m' hm'
    cases hm' with
    | head => exact hsound
    | tail _ hm' => exact hall m' hm'

/-- A `BulkPaxosCmd` that is read back has not too many slots. -/
lemma length_lt_of_bulkBytes {leaderId' : BitVec 32} {ballots' : List (BitVec 64)} {t : Bytes}
    (h : fromMarshal W (fuel + 1) .cmdBlkPxs (bulkBytes W leaderId slots ballots cmds bs) =
      some (bulkPaxosCmd leaderId' slots ballots' cmds', t)) : slots.length < 2 ^ 31 := by
  -- the loop over the slots is given the count after the cast; what comes behind it is not needed
  unfold bulkBytes Wire.putVector at h
  rw [fromMarshal, append_assoc, (W.i32.reads leaderId).bind_apply,
    (W.reads_getCount _).bind_apply, bind_apply_eq_some_iff] at h
  obtain ⟨slots', s₁, hslots, h⟩ := h
  rw [bind_apply_eq_some_iff] at h
  obtain ⟨szb, s₂, -, h⟩ := h
  rw [bind_apply_eq_some_iff] at h
  obtain ⟨ballots', s₃, -, h⟩ := h
  rw [bind_apply_eq_some_iff] at h
  obtain ⟨szc, s₄, -, h⟩ := h
  rw [map_apply_eq_some_iff] at h
  obtain ⟨cmds', -, heq⟩ := h
  rw [bulkPaxosCmd.injEq] at heq
  rw [heq.2.1] at hslots
  exact castCount_eq_iff.mp (length_of_many hslots).symm

lemma eq_bulkPaxosCmd_of_received
    (h : m.received = (bulkPaxosCmd leaderId slots ballots cmds).received) :
    ∃ cmds', m = bulkPaxosCmd leaderId slots ballots cmds' ∧
      cmds'.map received = cmds.map received := by
  cases m with
  | bulkPaxosCmd leaderId' slots' ballots' cmds' =>
    simp only [received, receivedAll_eq, bulkPaxosCmd.injEq] at h
    obtain ⟨rfl, rfl, rfl, hcmds⟩ := h
    exact ⟨cmds', rfl, hcmds⟩
  | _ => simp [received] at h

lemma eq_syncLogResponse_of_received
    (h : m.received = (syncLogResponse syncData missingSlots).received) :
    ∃ syncData', m = syncLogResponse syncData' missingSlots ∧
      syncData'.map received = syncData.map received := by
  cases m with
  | syncLogResponse syncData' missingSlots' =>
    simp only [received, receivedAll_eq, syncLogResponse.injEq] at h
    obtain ⟨hdata, rfl⟩ := h
    exact ⟨syncData', rfl, hdata⟩
  | _ => simp [received] at h

lemma detects_bulkPaxosCmd (hballots : ballots.length = slots.length)
    (hcmds : cmds.length = slots.length) (hbuilt : ∀ m ∈ cmds, Built m)
    (ih : ∀ m ∈ cmds, Detects W back m) :
    Detects W back (bulkPaxosCmd leaderId slots ballots cmds) := by
  intro bs fuel s m' t hbs hfuel hread hsame
  obtain ⟨fuel, rfl⟩ := exists_fuel hfuel
  obtain ⟨cmds', rfl, hinner⟩ := eq_bulkPaxosCmd_of_received hsame
  rw [toMarshal, Option.map_eq_some_iff] at hbs
  obtain ⟨ds, hds, rfl⟩ := hbs
  change fromMarshal W (fuel + 1) .cmdBlkPxs (bulkBytes W leaderId slots ballots cmds ds ++ s) = _
    at hread
  rw [bulkBytes_append] at hread
  have hslots := length_lt_of_bulkBytes hread
  rw [fromMarshal_bulkBytes W fuel leaderId _ hslots hballots hcmds, map_apply_eq_some_iff] at hread
  obtain ⟨cmds'', hread, heq⟩ := hread
  rw [bulkPaxosCmd.injEq] at heq
  rw [heq.2.2.2] at hread
  exact .bulkPaxosCmd hslots (sound_of_deputies hbuilt ih
    (fun m hm => sizeOf_le_of_mem_cmds hm hfuel) hds hread hinner)

lemma detects_syncLogResponse (hbuilt : ∀ m ∈ syncData, Built m)
    (ih : ∀ m ∈ syncData, Detects W back m) :
    Detects W back (syncLogResponse syncData missingSlots) := by
  intro bs fuel s m' t hbs hfuel hread hsame
  obtain ⟨fuel, rfl⟩ := exists_fuel hfuel
  obtain ⟨syncData', rfl, hinner⟩ := eq_syncLogResponse_of_received hsame
  rw [toMarshal] at hbs
  split at hbs
  · next hlengths =>
    obtain ⟨hdata, hmissing, hslots⟩ := hlengths
    rw [Option.bind_eq_some_iff] at hbs
    obtain ⟨ds, hds, hbs⟩ := hbs
    split at hbs
    · next hback =>
      rw [Option.some.injEq] at hbs
      subst hbs
      rw [kind, fromMarshal, append_assoc, (W.reads_getCount_of_lt hdata).bind_apply,
        append_assoc, bind_apply_eq_some_iff] at hread
      obtain ⟨data, s₁, hread, hrest⟩ := hread
      rw [bind_apply_eq_some_iff] at hrest
      obtain ⟨sz, s₂, -, hrest⟩ := hrest
      rw [map_apply_eq_some_iff] at hrest
      obtain ⟨missing, -, heq⟩ := hrest
      rw [syncLogResponse.injEq] at heq
      rw [heq.1] at hread
      exact .syncLogResponse hback hdata hmissing hslots (sound_of_deputies hbuilt ih
        (fun m hm => sizeOf_le_of_mem_syncData hm hfuel) hds hread hinner)
    · simp at hbs
  · simp at hbs

/-- Every command that a sender builds shows whether it is sound. -/
lemma Built.detects (W : Wire) (back : Bool) (hb : Built m) : Detects W back m := by
  induction hb with
  | logEntry _ => exact fun _ _ _ _ _ _ _ _ _ => .logEntry
  | bulkPaxosCmd hballots hcmds hbuilt ih => exact detects_bulkPaxosCmd hballots hcmds hbuilt ih
  | @bulkPrepareLog l =>
    intro bs fuel s m' t hbs hfuel hread hsame
    obtain ⟨fuel, rfl⟩ := exists_fuel hfuel
    rw [toMarshal, Option.some.injEq] at hbs
    subst hbs
    rw [kind, fromMarshal, map_apply_eq_some_iff] at hread
    obtain ⟨l', hread, rfl⟩ := hread
    obtain rfl : l' = l := by simpa only [received, bulkPrepareLog.injEq] using hsame
    exact .bulkPrepareLog (BulkPrepareLog.length_lt hread)
  | heartBeatLog => exact fun _ _ _ _ _ _ _ _ _ => .heartBeatLog
  | syncLogRequest =>
    intro bs fuel s m' t hbs _ _ _
    exact .syncLogRequest (indexed_eq_some_iff.mp hbs).1
  | syncLogResponse hbuilt ih => exact detects_syncLogResponse hbuilt ih
  | syncNoOpRequest =>
    intro bs fuel s m' t hbs _ _ _
    exact .syncNoOpRequest (indexed_eq_some_iff.mp hbs).1
  | @paxosPrepCmd c _ =>
    intro bs fuel s m' t hbs hfuel hread hsame
    obtain ⟨fuel, rfl⟩ := exists_fuel hfuel
    rw [toMarshal, Option.some.injEq] at hbs
    subst hbs
    rw [kind, fromMarshal, map_apply_eq_some_iff] at hread
    obtain ⟨c', hread, rfl⟩ := hread
    obtain rfl : c' = c := by simpa only [received, paxosPrepCmd.injEq] using hsame
    exact .paxosPrepCmd (PaxosPrepCmd.length_lt hread)

/-! ## Any number of hops -/

lemma Built.received (hb : Built m) : Built m.received := by
  induction hb with
  | logEntry _ => exact .logEntry (LogEntry.built_received _)
  | bulkPaxosCmd hballots hcmds _ ih =>
    rw [Marshallable.received, receivedAll_eq]
    refine .bulkPaxosCmd hballots (by rw [length_map, hcmds]) ?_
    simpa only [forall_mem_map] using ih
  | bulkPrepareLog => exact .bulkPrepareLog
  | heartBeatLog => exact .heartBeatLog
  | syncLogRequest => exact .syncLogRequest
  | syncLogResponse _ ih =>
    rw [Marshallable.received, receivedAll_eq]
    apply Built.syncLogResponse
    simpa only [forall_mem_map] using ih
  | syncNoOpRequest => exact .syncNoOpRequest
  | paxosPrepCmd hballots => exact .paxosPrepCmd hballots

lemma Sound.received (hs : Sound back m) : Sound back m.received := by
  induction hs with
  | logEntry => exact .logEntry
  | bulkPaxosCmd hslots _ ih =>
    rw [Marshallable.received, receivedAll_eq]
    refine .bulkPaxosCmd hslots ?_
    simpa only [forall_mem_map] using ih
  | bulkPrepareLog hslots => exact .bulkPrepareLog hslots
  | heartBeatLog => exact .heartBeatLog
  | syncLogRequest hslots => exact .syncLogRequest hslots
  | syncLogResponse hback hdata hmissing hslots _ ih =>
    rw [Marshallable.received, receivedAll_eq]
    refine .syncLogResponse hback (by rwa [length_map]) hmissing hslots ?_
    simpa only [forall_mem_map] using ih
  | syncNoOpRequest hslots => exact .syncNoOpRequest hslots
  | paxosPrepCmd hslots => exact .paxosPrepCmd hslots

/-- The entries of a command that was received are handed over as they were submitted. -/
lemma next_received (hb : Built m) :
    m.received.entries.map LogEntry.next = m.entries.map LogEntry.submitted := by
  induction hb with
  | logEntry he => simp [Marshallable.received, entries, LogEntry.next_received he]
  | bulkPaxosCmd _ _ _ ih | syncLogResponse _ ih =>
    simp only [Marshallable.received, entries, receivedAll_eq, entriesAll_eq, map_flatMap,
      flatMap_map]
    exact flatMap_congr ih
  | _ => rfl

/-- A command is marshalled and unmarshalled. -/
def hop (W : Wire) (back : Bool) (fuel : ℕ) (m : Marshallable) : Option Marshallable :=
  (m.toMarshal W back).bind fun bs => (fromMarshal W fuel m.kind bs).map Prod.fst

def hops (W : Wire) (back : Bool) (fuel : ℕ) : ℕ → Marshallable → Option Marshallable
  | 0, m => some m
  | n + 1, m => (hop W back fuel m).bind (hops W back fuel n)

lemma hop_eq (W : Wire) (hb : Built m) (hs : Sound back m) (hfuel : sizeOf m ≤ fuel) :
    hop W back fuel m = some m.received := by
  obtain ⟨bs, hbs, hread⟩ := hs.reread W hb
  have h := hread fuel hfuel []
  rw [append_nil] at h
  rw [hop, hbs, Option.bind_some, h, Option.map_some]

/-- After the first hop a command stays as it is. -/
lemma hops_received (W : Wire) (hb : Built m) (hs : Sound back m)
    (hfuel : sizeOf m.received ≤ fuel) (n : ℕ) :
    hops W back fuel n m.received = some m.received := by
  induction n with
  | zero => rfl
  | succ n ih =>
    rw [hops, hop_eq W hb.received hs.received hfuel, received_received m hb, Option.bind_some, ih]

/-- A command survives: what is written is read back, with just the bytes that were written, as the
command that a receiver should have, and after any number of hops the log entries are handed over
with the bytes and the lengths that were submitted. -/
structure Survives (W : Wire) (back : Bool) (m : Marshallable) : Prop where
  reread : ∃ bs, m.toMarshal W back = some bs ∧ ∃ k, ∀ fuel, k ≤ fuel →
    ∀ rest, fromMarshal W fuel m.kind (bs ++ rest) = some (m.received, rest)
  logs : ∀ n, ∃ k, ∀ fuel, k ≤ fuel → ∃ m', hops W back fuel (n + 1) m = some m' ∧
    m'.entries.map LogEntry.next = m.entries.map LogEntry.submitted

/-- A command that a sender builds survives the wire just if it is sound. -/
theorem survives_iff_sound (W : Wire) (back : Bool) {m : Marshallable} (hb : Built m) :
    Survives W back m ↔ Sound back m := by
  constructor
  · -- one reading with fuel for the command and nothing behind it is enough
    rintro ⟨⟨bs, hbs, k, hread⟩, -⟩
    have h := hread (max k (sizeOf m)) (le_max_left _ _) []
    exact hb.detects W back bs _ [] _ _ hbs (le_max_right _ _) h (received_received m hb)
  · intro hs
    obtain ⟨bs, hbs, hread⟩ := hs.reread W hb
    refine ⟨⟨bs, hbs, sizeOf m, hread⟩, ?_⟩
    intro n
    refine ⟨max (sizeOf m) (sizeOf m.received), ?_⟩
    intro fuel hfuel
    refine ⟨m.received, ?_, next_received hb⟩
    -- the first hop moves the bytes into the string, and the others change nothing
    have hfirst := hop_eq W hb hs ((le_max_left _ _).trans hfuel)
    rw [hops, hfirst, Option.bind_some]
    exact hops_received W hb hs ((le_max_right _ _).trans hfuel) n

lemma built_submit {log : Bytes} (hlog : log.length < 2 ^ 31) : Built (.logEntry (submit log)) := by
  apply Built.logEntry
  intro p hp
  obtain rfl : log = p := Option.some.inj hp
  have hnat : (BitVec.ofNat 32 log.length).toNat = log.length := by
    rw [BitVec.toNat_ofNat]
    omega
  refine ⟨?_, hnat⟩
  change 0 ≤ (BitVec.ofNat 32 log.length).toInt
  rw [BitVec.toInt_eq_toNat_of_lt (by omega)]
  omega

/-- One way to write integers and strings. -/
def plain : Wire := ⟨.word 4, .word 4, .word 8, .word 8, .string 8 (2 ^ 63) (by decide)⟩

/-- A submitted log in a `BulkPaxosCmd`. -/
def oneLog : Marshallable := bulkPaxosCmd 1 [5] [7] [.logEntry (submit [1, 2, 3])]

theorem survives_oneLog : Built oneLog ∧ Sound false oneLog ∧ Survives plain false oneLog := by
  have hb : Built oneLog := by
    refine .bulkPaxosCmd rfl rfl ?_
    simpa only [List.forall_mem_singleton] using built_submit (by decide)
  have hs : Sound false oneLog := by
    refine .bulkPaxosCmd (by decide) ?_
    simpa only [List.forall_mem_singleton] using Sound.logEntry
  exact ⟨hb, hs, (survives_iff_sound plain false hb).mpr hs⟩

/-- The shortest `SyncLogResponse` does not survive. -/
theorem not_survives_syncLogResponse : ¬Survives plain false (syncLogResponse [] []) := by
  rintro ⟨⟨bs, hbs, -⟩, -⟩
  simp [toMarshal, deputies] at hbs

end Marshallable

end Rolis.Paxos.Marshal
