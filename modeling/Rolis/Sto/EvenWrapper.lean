import Rolis.Sto.OneContainer

/-!
# Collecting records in chunks

`replay_in_same_thread_wrapper_even` takes the records of its part out of the buffer and passes them
on in chunks of 512. The last chunk is passed on when the loop comes to its last record, but a
record of an unknown table goes on to the next one before that is asked. If the last record is one
of these, what was collected since the last full chunk is lost.
-/

namespace Rolis.Sto.EvenWrapper

open Bytes List OneContainer

/-- The variables of the loop, with the calls of `getFileContentNew_optimized` so far. -/
structure Vars where
  chunk : ℕ
  containers : List OneContainer
  calls : List (List OneContainer)
deriving DecidableEq

/-- The table is in the table map. -/
def known (tableMap : TableMap) (e : OneContainer) : Bool := (e.tableId : ℤ) ∈ tableMap.ids

/-- One turn of the loop, on the record it has read. -/
def turn (tableMap : TableMap) (entriesCntPerCore i : ℕ) (vars : Vars) (entry : OneContainer) :
    Vars :=
  -- `continue`: the question below is not asked for a record of an unknown table
  if known tableMap entry = false then vars
  else
    let containers := vars.containers ++ [entry]
    let chunk := vars.chunk + 1
    if chunk = 512 ∨ i = entriesCntPerCore - 1 then ⟨0, [], vars.calls ++ [containers]⟩
    else ⟨chunk, containers, vars.calls⟩

/-- The turns from `i` on, `left` of them. `none` is a read behind the end of the buffer. -/
def loop (tableMap : TableMap) (buffer : Bytes) (offset entriesCntPerCore : ℕ) :
    ℕ → ℕ → Vars → Option Vars
  | 0, _, vars => some vars
  | left + 1, i, vars =>
    match OneContainer.readAt buffer (offset + i * 27) with
    | none => none
    | some entry =>
      loop tableMap buffer offset entriesCntPerCore left (i + 1)
        (turn tableMap entriesCntPerCore i vars entry)

/-- `replay_in_same_thread_wrapper_even`: the calls of `getFileContentNew_optimized`. -/
def replayInSameThreadWrapperEven (buffer : Bytes) (offset entriesCntPerCore : ℕ)
    (tableMap : TableMap) : Option (List (List OneContainer)) :=
  (loop tableMap buffer offset entriesCntPerCore entriesCntPerCore 0 ⟨0, [], []⟩).map Vars.calls

/-! ## The loop over a list of records -/

/-- The turns on the records of a list. -/
def turns (tableMap : TableMap) (entriesCntPerCore : ℕ) : ℕ → Vars → List OneContainer → Vars
  | _, vars, [] => vars
  | i, vars, e :: records =>
    turns tableMap entriesCntPerCore (i + 1) (turn tableMap entriesCntPerCore i vars e) records

section

variable {tableMap : TableMap} {n i : ℕ} {vars : Vars} {e : OneContainer}
  {records : List OneContainer}

lemma loop_eq_turns (tableMap : TableMap) (n : ℕ) (before after : Bytes)
    (pre records : List OneContainer) (vars : Vars) :
    loop tableMap (before ++ ((pre ++ records).flatMap encoding ++ after))
        before.length n records.length pre.length vars =
      some (turns tableMap n pre.length vars records) := by
  induction records generalizing pre vars with
  | nil => rfl
  | cons e records ih =>
    have hlt : pre.length < (pre ++ e :: records).length := by
      rw [length_append, length_cons]
      omega
    have hget : (pre ++ e :: records)[pre.length] = e := by
      rw [getElem_append_right (le_refl _)]
      simp only [Nat.sub_self, getElem_cons_zero]
    have hrest := ih (pre ++ [e]) (turn tableMap n pre.length vars e)
    rw [append_assoc, singleton_append, length_append, length_singleton] at hrest
    rw [length_cons, loop, readAt_getElem before after hlt, hget]
    exact hrest

lemma turns_concat (e : OneContainer) : turns tableMap n i vars (records ++ [e]) =
      turn tableMap n (i + records.length) (turns tableMap n i vars records) e := by
  induction records generalizing i vars with
  | nil => rfl
  | cons e' records ih =>
    rw [cons_append, turns, ih, turns, length_cons, Nat.add_right_comm, Nat.add_assoc]

/-- Before the last record: what was collected since the last full chunk. -/
structure Collected (tableMap : TableMap) (records : List OneContainer) (vars : Vars) : Prop where
  all : vars.calls.flatten ++ vars.containers = records.filter (known tableMap)
  chunk : vars.chunk = vars.containers.length
  rest : vars.containers.length = (records.filter (known tableMap)).length % 512

lemma Collected.turn (h : Collected tableMap records vars) (hi : i ≠ n - 1) :
    Collected tableMap (records ++ [e]) (turn tableMap n i vars e) := by
  have hlt : vars.containers.length < 512 := by
    rw [h.rest]
    exact Nat.mod_lt _ (by decide)
  cases hknown : known tableMap e with
  | false =>
    have hfilter : (records ++ [e]).filter (known tableMap) = records.filter (known tableMap) := by
      rw [filter_append, filter_cons_of_neg (by rw [hknown]; decide), filter_nil, append_nil]
    rw [EvenWrapper.turn, if_pos hknown]
    exact ⟨by rw [hfilter, h.all], h.chunk, by rw [hfilter, h.rest]⟩
  | true =>
    have hfilter : (records ++ [e]).filter (known tableMap) =
        records.filter (known tableMap) ++ [e] := by
      rw [filter_append, filter_cons_of_pos hknown, filter_nil]
    have hrest := h.rest
    rw [EvenWrapper.turn, if_neg (by rw [hknown]; decide)]
    by_cases hfull : vars.chunk + 1 = 512
    · simp only [hfull, true_or, if_true]
      refine ⟨?_, rfl, ?_⟩
      · rw [hfilter, ← h.all, flatten_append, flatten_singleton, append_nil, append_assoc]
      · rw [hfilter, length_append, length_singleton]
        rw [h.chunk] at hfull
        change 0 = _
        omega
    · simp only [hfull, hi, or_self, if_false]
      refine ⟨?_, ?_, ?_⟩
      · rw [hfilter, ← h.all, append_assoc]
      · rw [h.chunk, length_append, length_singleton]
      · rw [hfilter, length_append, length_append, length_singleton]
        rw [h.chunk] at hfull
        omega

lemma collected_turns (tableMap : TableMap) (hn : records.length < n) :
    Collected tableMap records (turns tableMap n 0 ⟨0, [], []⟩ records) := by
  induction records using reverseRecOn with
  | nil => exact ⟨rfl, rfl, rfl⟩
  | append_singleton records e ih =>
    rw [length_append, length_singleton] at hn
    rw [turns_concat]
    exact (ih (by omega)).turn (by omega)

end

/-! ## What is passed on -/

/-- The records of known tables are passed on, each once, and no others. -/
def PassesExactly (tableMap : TableMap) (records : List OneContainer)
    (call : Option (List (List OneContainer))) : Prop :=
  ∃ calls, call = some calls ∧ calls.flatten.Perm (records.filter (known tableMap))

/-- Everything is passed on at the last record, or nothing was left over from the full chunks. -/
def Flushed (tableMap : TableMap) (records : List OneContainer) : Prop :=
  (∀ e ∈ records.getLast?, known tableMap e = true) ∨
    512 ∣ (records.filter (known tableMap)).length

lemma replay_eq_turns (before after : Bytes) (records : List OneContainer) (tableMap : TableMap) :
    replayInSameThreadWrapperEven
        (before ++ (records.flatMap encoding ++ after)) before.length records.length
        tableMap =
      some (turns tableMap records.length 0 ⟨0, [], []⟩ records).calls := by
  have hloop := loop_eq_turns tableMap records.length before after [] records ⟨0, [], []⟩
  rw [nil_append, length_nil] at hloop
  rw [replayInSameThreadWrapperEven, hloop, Option.map_some]

lemma turns_perm_iff (tableMap : TableMap) (records : List OneContainer) :
    (turns tableMap records.length 0 ⟨0, [], []⟩ records).calls.flatten.Perm
        (records.filter (known tableMap)) ↔ Flushed tableMap records := by
  unfold Flushed
  rcases eq_nil_or_concat records with rfl | ⟨records, e, rfl⟩
  · exact ⟨fun _ => .inr (dvd_zero _), fun _ => .refl _⟩
  · rw [concat_eq_append]
    have hlt : records.length < (records ++ [e]).length := by
      rw [length_append, length_singleton]
      omega
    have hcollected := collected_turns tableMap hlt
    rw [turns_concat, getLast?_concat]
    generalize turns tableMap (records ++ [e]).length 0 ⟨0, [], []⟩ records = vars at hcollected ⊢
    cases hknown : known tableMap e with
    | true =>
      have hlast : 0 + records.length = (records ++ [e]).length - 1 := by
        rw [length_append, length_singleton]
        omega
      have hfilter : (records ++ [e]).filter (known tableMap) =
          records.filter (known tableMap) ++ [e] := by
        rw [filter_append, filter_cons_of_pos hknown, filter_nil]
      refine iff_of_true ?_ (.inl fun e' he' => ?_)
      · rw [turn, if_neg (by rw [hknown]; decide)]
        simp only [hlast, or_true, if_true]
        rw [hfilter, ← hcollected.all, flatten_append, flatten_singleton, append_assoc]
      · cases he'
        exact hknown
    | false =>
      have hfilter : (records ++ [e]).filter (known tableMap) =
          records.filter (known tableMap) := by
        rw [filter_append, filter_cons_of_neg (by rw [hknown]; decide), filter_nil, append_nil]
      rw [turn, if_pos hknown, hfilter]
      constructor
      · -- the containers that are left over would be missing
        intro hperm
        have hlen := hperm.length_eq
        rw [← hcollected.all, length_append] at hlen
        have hrest := hcollected.rest
        exact .inr (Nat.dvd_of_mod_eq_zero (by omega))
      · rintro (hlast | hfull)
        · have hfalse := hlast e rfl
          rw [hknown] at hfalse
          cases hfalse
        · have hnil : vars.containers = [] := by
            rw [← length_eq_zero_iff, hcollected.rest, Nat.mod_eq_zero_of_dvd hfull]
          have hall := hcollected.all
          rw [hnil, append_nil] at hall
          rw [hall]

/-- The records of known tables are passed on exactly if the last record is of a known table, or
their number is a multiple of 512. -/
theorem replayInSameThreadWrapperEven_passes_iff (before after : Bytes)
    (records : List OneContainer) (tableMap : TableMap) :
    PassesExactly tableMap records (replayInSameThreadWrapperEven
        (before ++ (records.flatMap OneContainer.encoding ++ after)) before.length records.length
        tableMap) ↔ Flushed tableMap records := by
  rw [PassesExactly, replay_eq_turns, ← turns_perm_iff]
  constructor
  · rintro ⟨calls, hsome, hperm⟩
    cases hsome
    exact hperm
  · intro hperm
    exact ⟨_, rfl, hperm⟩

/-- A record of table 1, and behind it one of a table that is not in the map. -/
def knownThenUnknown : List OneContainer :=
  [.ofWords 10 5 7 1 0, .ofWords 11 6 8 2 0]

/-- The first record is never passed on. -/
theorem knownThenUnknown_not_passed :
    ¬ PassesExactly [([116], 1)] knownThenUnknown (replayInSameThreadWrapperEven
      (knownThenUnknown.flatMap OneContainer.encoding) 0 2 [([116], 1)]) := by
  rintro ⟨calls, hsome, hperm⟩
  have hnone : replayInSameThreadWrapperEven (knownThenUnknown.flatMap OneContainer.encoding) 0 2
      [([116], 1)] = some [] := by decide +kernel
  rw [hnone] at hsome
  cases hsome
  exact absurd hperm.length_eq (by decide)

end Rolis.Sto.EvenWrapper
