import Rolis.Lib.Serial
import Rolis.Sto.OccSteps

/-!
# Transactions one after another

What calls answer when nobody else is there: `Answers` says when an answer is right on given
contents of the tables, `Call.run` what the call leaves, and `Explains` that all answers of a
sequence of calls are right, each on the contents that the calls before it have left.

The concurrent transactions answer key by key, and all from the contents at one moment. `Says` is
what an answer says about one key, and `explains_of_forall` turns such facts into `Explains`: a
transaction that never reads what it has written cannot tell the difference.
-/

namespace Rolis.Sto.Occ

open Function List

/-! ## The sequential tables -/

/-- What is under each key. -/
abbrev Contents := Key → Option Bytes

/-- The keys that a scan with these rows has gone over: those in its range, up to the last row if
the callback has stopped it. -/
def Covered (d : Dir) (lo hi : Bytes) (rows : List (Bytes × Bytes)) (stopped : Bool) (b : Bytes) :
    Prop :=
  (Cursor.mk d lo false).Ahead b ∧ pastEnd d hi b = false ∧
    (stopped → ∃ x ∈ rows.getLast?, d.Le b x.1)

instance (d : Dir) (lo hi : Bytes) (rows : List (Bytes × Bytes)) (stopped : Bool) (b : Bytes) :
    Decidable (Covered d lo hi rows stopped b) := by
  unfold Covered
  infer_instance

/-- `r` is the right answer to the call. -/
def Answers (db : Contents) : Call → Result → Prop
  | .get k, .value v => db k = v
  | .put k _, .found b | .insert k _, .found b | .delete k, .found b => (db k).isSome = b
  | .scan d table lo hi, .rows rows stopped =>
    (rows.Pairwise fun x y => d.Lt x.1 y.1) ∧
      ∀ b v, (b, v) ∈ rows ↔ Covered d lo hi rows stopped b ∧ db (table, b) = some v
  | _, _ => False

/-- The contents after the call. -/
def Call.run (db : Contents) : Call → Contents
  | .put k v => update db k (some v)
  | .insert k v => if (db k).isSome then db else update db k (some v)
  | .delete k => update db k none
  | .get _ | .scan _ _ _ _ => db

lemma Call.run_of_ne {db : Contents} {c : Call} {k : Key} (h : c.writes? ≠ some k) :
    c.run db k = db k := by
  cases c with
  | get | scan => rfl
  | put k' | delete k' => exact update_of_ne (fun hk => h (congrArg some hk.symm)) _ _
  | insert k' =>
    simp only [Call.run]
    split
    · rfl
    · exact update_of_ne (fun hk => h (congrArg some hk.symm)) _ _

/-- The contents after some calls. -/
def contents (db : Contents) (calls : List (Call × Result)) : Contents :=
  calls.foldl (fun db x => x.1.run db) db

/-- All answers are right, one call after the other. -/
def Explains (db : Contents) : List (Call × Result) → Prop
  | [] => True
  | x :: calls => Answers db x.1 x.2 ∧ Explains (x.1.run db) calls

variable {db : Contents} {calls calls' : List (Call × Result)} {x y : Call × Result} {k : Key}
  {r : Result} {c : Call}

lemma contents_append : contents db (calls ++ calls') = contents (contents db calls) calls' :=
  foldl_append

lemma explains_append :
    Explains db (calls ++ calls') ↔ Explains db calls ∧ Explains (contents db calls) calls' := by
  induction calls generalizing db with
  | nil => simp [Explains, contents]
  | cons x calls ih => simp [Explains, ih, contents, and_assoc]

/-! ## What a transaction writes -/

/-- What a call leaves under a key, if it changes it. -/
def effect : Call × Result → Key → Option (Option Bytes)
  | (.put k' v, _), k | (.insert k' v, .found false), k => if k = k' then some (some v) else none
  | (.delete k', .found true), k => if k = k' then some none else none
  | _, _ => none

/-- What calls leave under a key, if they change it. -/
def writeOf (calls : List (Call × Result)) (k : Key) : Option (Option Bytes) :=
  calls.foldl (fun w x => (effect x k).or w) none

lemma writeOf_concat : writeOf (calls ++ [x]) k = (effect x k).or (writeOf calls k) := by
  rw [writeOf, foldl_append]
  rfl

lemma writes_of_effect (h : effect x k ≠ none) : x.1.writes? = some k := by
  obtain ⟨c, r⟩ := x
  unfold effect at h
  split at h
  iterate 3
    · next heq =>
      cases heq
      simp_all [Call.writes?]
  · exact absurd rfl h

lemma written_concat : written (calls ++ [x]) = written calls ++ x.1.writes?.toList := by
  rw [written, filterMap_append]
  cases h : x.1.writes? <;> simp [written, h]

lemma mem_written_of_writeOf (h : writeOf calls k ≠ none) : k ∈ written calls := by
  induction calls using reverseRecOn with
  | nil => exact absurd rfl h
  | append_singleton calls x ih =>
    rw [written_concat, mem_append]
    by_cases hx : effect x k = none
    · rw [writeOf_concat, hx, Option.none_or] at h
      exact .inl (ih h)
    · rw [writes_of_effect hx]
      exact .inr (by simp)

/-- A call that is answered right leaves what it is said to leave. -/
lemma run_eq (h : Answers db x.1 x.2) (k : Key) : x.1.run db k = (effect x k).getD (db k) := by
  obtain ⟨c, r⟩ := x
  cases c with
  | get k' | scan d table lo hi => cases r <;> rfl
  | put k' v =>
    by_cases hk : k = k' <;> simp [Call.run, effect, hk]
  | insert k' v =>
    cases r with
    | found b =>
      cases b with
      | true =>
        simp only [Answers] at h
        simp [Call.run, effect, h]
      | false =>
        simp only [Answers] at h
        by_cases hk : k = k' <;> simp [Call.run, effect, h, hk]
    | value | rows => exact h.elim
  | delete k' =>
    cases r with
    | found b =>
      cases b with
      | true => by_cases hk : k = k' <;> simp [Call.run, effect, hk]
      | false =>
        simp only [Answers] at h
        by_cases hk : k = k'
        · subst hk
          have hnone : db k = none := by simpa using h
          simp [Call.run, effect, hnone]
        · simp [Call.run, effect, hk]
    | value | rows => exact h.elim

lemma contents_eq (h : Explains db calls) (k : Key) :
    contents db calls k = (writeOf calls k).getD (db k) := by
  induction calls using reverseRecOn with
  | nil => rfl
  | append_singleton calls x ih =>
    obtain ⟨hcalls, hx, -⟩ := explains_append.mp h
    have hrun : contents db (calls ++ [x]) = x.1.run (contents db calls) := contents_append
    rw [hrun, run_eq hx, ih hcalls, writeOf_concat]
    cases effect x k <;> rfl

/-- Transactions that are all explained where they stand in an order are explained one after
another. -/
lemma explains_flatMap {ι : Type} [DecidableEq ι] (calls : ι → List (Call × Result))
    {l : List ι} (hl : l.Nodup)
    (h : ∀ i ∈ l, Explains (Serial.after (fun i => writeOf (calls i)) db (Serial.before l i))
      (calls i)) :
    Explains db (l.flatMap calls) ∧
      ∀ k, contents db (l.flatMap calls) k = Serial.after (fun i => writeOf (calls i)) db l k := by
  induction l using reverseRecOn with
  | nil => exact ⟨trivial, fun _ => rfl⟩
  | append_singleton l i ih =>
    have hi : i ∉ l := fun hi => (nodup_append.mp hl).2.2 i hi i (by simp) rfl
    obtain ⟨hexp, hcont⟩ := ih (nodup_append.mp hl).1 fun j hj => by
      have hj' := h j (by simp [hj])
      rwa [Serial.before_append_of_mem hj] at hj'
    have hlast := h i (by simp)
    rw [Serial.before_append_cons hi] at hlast
    have hdb : contents db (l.flatMap calls) =
        Serial.after (fun i => writeOf (calls i)) db l := funext hcont
    have hflat : (l ++ [i]).flatMap calls = l.flatMap calls ++ calls i := by simp
    rw [hflat]
    refine ⟨explains_append.mpr ⟨hexp, hdb ▸ hlast⟩, fun k => ?_⟩
    rw [contents_append, hdb, contents_eq hlast, Serial.after_concat]

/-! ## What an answer says about a key -/

/-- `v` under `k` agrees with the answer. -/
def Says : Call × Result → Key → Option Bytes → Prop
  | (.get k', .value w), k, v => k = k' → v = w
  | (.put k' _, .found b), k, v | (.insert k' _, .found b), k, v | (.delete k', .found b), k, v =>
    k = k' → v.isSome = b
  | (.scan d table lo hi, .rows rows stopped), k, v =>
    k.1 = table → Covered d lo hi rows stopped k.2 → ∀ w, (k.2, w) ∈ rows ↔ v = some w
  | _, _, _ => False

/-- The answer has the form of an answer to the call, with rows in the order of the scan. -/
def Formed : Call × Result → Prop
  | (.get _, .value _) | (.put _ _, .found _) | (.insert _ _, .found _) | (.delete _, .found _) =>
    True
  | (.scan d _ lo hi, .rows rows stopped) =>
    (rows.Pairwise fun x y => d.Lt x.1 y.1) ∧ ∀ x ∈ rows, Covered d lo hi rows stopped x.1
  | _ => False

/-- A call with an answer of its kind. -/
inductive Shape : Call × Result → Prop
  | get (k w) : Shape (.get k, .value w)
  | put (k v b) : Shape (.put k v, .found b)
  | insert (k v b) : Shape (.insert k v, .found b)
  | delete (k b) : Shape (.delete k, .found b)
  | scan (d table lo hi rows stopped) : Shape (.scan d table lo hi, .rows rows stopped)

lemma Formed.shape {x : Call × Result} (h : Formed x) : Shape x := by
  unfold Formed at h
  split at h
  · exact .get _ _
  · exact .put _ _ _
  · exact .insert _ _ _
  · exact .delete _ _
  · exact .scan _ _ _ _ _ _
  · exact h.elim

/-- The call has put a new key into the table. -/
def Inserts : Call × Result → Key → Prop
  | (.put k' _, .found false), k | (.insert k' _, .found false), k => k = k'
  | _, _ => False

/-- Some call has put the key into the table. -/
def Inserted (calls : List (Call × Result)) (k : Key) : Prop := ∃ x ∈ calls, Inserts x k

/-- The call neither is a call on the key nor has it as a row. -/
def Avoids : Call × Result → Key → Prop
  | (.scan _ table _ _, .rows rows _), k => k.1 = table → ∀ v, (k.2, v) ∉ rows
  | (c, _), k => c.key? ≠ some k

/-- The call is no scan that has gone over the key. -/
def Skips : Call × Result → Key → Prop
  | (.scan d table lo hi, .rows rows stopped), k =>
    k.1 = table → ¬ Covered d lo hi rows stopped k.2
  | _, _ => True

/-- No call reads what a call before it has written. -/
structure CallsOk (calls : List (Call × Result)) : Prop where
  formed : ∀ x ∈ calls, Formed x
  apart : calls.Pairwise fun x y =>
    (∀ k ∈ x.1.writes?, Avoids y k) ∧ ∀ k, Inserts x k → Skips y k

lemma writes_of_inserts (h : Inserts x k) : x.1.writes? = some k := by
  obtain ⟨c, r⟩ := x
  unfold Inserts at h
  split at h
  iterate 2
    · next heq =>
      cases heq
      rw [h]
      rfl
  · exact h.elim

lemma mem_written_of_inserted (h : Inserted calls k) : k ∈ written calls := by
  obtain ⟨x, hx, hk⟩ := h
  exact mem_filterMap.mpr ⟨x, hx, writes_of_inserts hk⟩

lemma CallsOk.nil : CallsOk [] := ⟨forall_mem_nil _, List.Pairwise.nil⟩

lemma CallsOk.concat (h : CallsOk calls) (hy : Formed y)
    (havoid : ∀ k ∈ written calls, Avoids y k) (hskip : ∀ k, Inserted calls k → Skips y k) :
    CallsOk (calls ++ [y]) := by
  refine ⟨fun x hx => ?_, pairwise_append.mpr ⟨h.apart, by simp, fun x hx y' hy' => ?_⟩⟩
  · rcases mem_append.mp hx with hx | hx
    · exact h.formed x hx
    · exact mem_singleton.mp hx ▸ hy
  · cases mem_singleton.mp hy'
    exact ⟨fun k hk => havoid k (mem_filterMap.mpr ⟨x, hx, hk⟩), fun k hk => hskip k ⟨x, hx, hk⟩⟩

/-- A call on a key that was not written. -/
lemma CallsOk.concat_key (h : CallsOk calls) (hy : Formed (c, r)) (hkey : c.key? = some k)
    (hk : k ∉ written calls) : CallsOk (calls ++ [(c, r)]) := by
  refine h.concat hy (fun k' hk' => ?_) fun k' _ => ?_
  · have hne : c.key? ≠ some k' := by
      rw [hkey]
      rintro ⟨⟩
      exact hk hk'
    cases c with
    | scan => cases hkey
    | get | put | insert | delete => exact hne
  · cases c with
    | scan => cases hkey
    | get | put | insert | delete => trivial

/-- A call on one key says nothing about other keys. -/
lemma says_of_ne (hy : Formed (c, r)) (hkey : c.key? = some k) {k' : Key} (hne : k' ≠ k)
    (v : Option Bytes) : Says (c, r) k' v := by
  cases hy.shape with
  | scan => cases hkey
  | get | put | insert | delete =>
    cases hkey
    exact fun heq => absurd heq hne

lemma answers_of_forall (hx : Formed x) (h : ∀ k, Says x k (db k)) : Answers db x.1 x.2 := by
  cases hx.shape with
  | get | put | insert | delete => exact h _ rfl
  | scan d table lo hi rows stopped =>
    refine ⟨hx.1, fun b v => ⟨fun hmem => ?_, fun hcov => ?_⟩⟩
    · have hcov := hx.2 _ hmem
      exact ⟨hcov, (h (table, b) rfl hcov v).mp hmem⟩
    · exact (h (table, b) rfl hcov.1 v).mpr hcov.2

/-- A call that avoids a key says nothing about it, unless it is a scan that has not found it. -/
lemma Says.of_avoids {v v' : Option Bytes} (hy : Formed y) (h : Avoids y k) (hs : Says y k v)
    (hv : v = none → Skips y k ∨ v' = none) : Says y k v' := by
  cases hy.shape with
  | get | put | insert | delete => exact fun hk => absurd (congrArg some hk.symm) h
  | scan =>
    intro ht hcov w
    -- the key is no row, so the scan has found it absent
    have hnone : v = none := by
      cases v with
      | none => rfl
      | some v => exact absurd ((hs ht hcov v).mpr rfl) (h ht v)
    rcases hv hnone with hskip | hv'
    · exact absurd hcov (hskip ht)
    · simp [h ht w, hv']

/-- After a call that says what is there, a later call that does not read what the call has written
still says what is there. -/
lemma Says.run (hx : Formed x) (hy : Formed y) (hsx : ∀ k, Says x k (db k))
    (hsy : ∀ k, Says y k (db k)) (hkeys : ∀ k ∈ x.1.writes?, Avoids y k)
    (hskip : ∀ k, Inserts x k → Skips y k) (k : Key) : Says y k (x.1.run db k) := by
  cases hx.shape with
  | get | scan => exact hsy k
  | put k' v b | insert k' v b =>
    by_cases hk : k = k'
    · subst hk
      refine (hsy k).of_avoids hy (hkeys k rfl) fun hnone => .inl (hskip k ?_)
      have hb : (db k).isSome = b := hsx k rfl
      rw [hnone] at hb
      subst hb
      rfl
    · rw [Call.run_of_ne]
      · exact hsy k
      · rintro ⟨⟩
        exact hk rfl
  | delete k' b =>
    by_cases hk : k = k'
    · subst hk
      exact (hsy k).of_avoids hy (hkeys k rfl) fun _ => .inr (by simp [Call.run])
    · simpa [Call.run, hk] using hsy k

/-- Facts about the contents at one moment explain a transaction that does not read what it has
written. -/
lemma explains_of_forall (hok : CallsOk calls) (h : ∀ x ∈ calls, ∀ k, Says x k (db k)) :
    Explains db calls := by
  induction calls generalizing db with
  | nil => trivial
  | cons x calls ih =>
    have hx := hok.formed x (by simp)
    obtain ⟨hapart, hrest⟩ := pairwise_cons.mp hok.apart
    have hsx := h x (by simp)
    refine ⟨answers_of_forall hx hsx, ih ⟨fun y hy => hok.formed y (by simp [hy]), hrest⟩ ?_⟩
    intro y hy
    obtain ⟨hkeys, hskip⟩ := hapart y hy
    exact Says.run hx (hok.formed y (by simp [hy])) hsx (h y (by simp [hy])) hkeys hskip

end Rolis.Sto.Occ
