import Mathlib.Data.List.Induction
import Mathlib.Data.List.Nodup
import Mathlib.Data.List.TakeWhile

/-!
# Serial orders

Transactions write keys, and an order of transactions says what is under a key after them:
`after w db l k` for the writes `w`, the contents `db` before them and the order `l`. The part of an
order in front of a transaction and the part behind it are `before` and `behind`; both are kept when
the order grows at its end. `cut` moves some transactions to the front.
-/

namespace Serial

open List Option

variable {ι κ ν : Type*}

/-! ## What is under a key after some transactions -/

/-- What is under `k` after the transactions of `l`, where `w i k` is what `i` writes under `k`, if
it does. -/
def after (w : ι → κ → Option ν) (db : κ → ν) (l : List ι) (k : κ) : ν :=
  l.foldl (fun v i => (w i k).getD v) (db k)

section

variable {w w' : ι → κ → Option ν} {db : κ → ν} {l l' : List ι} {i : ι} {k : κ}

lemma after_append : after w db (l ++ l') k = after w (after w db l) l' k :=
  foldl_append

lemma after_concat : after w db (l ++ [i]) k = (w i k).getD (after w db l k) := by
  rw [after_append]
  rfl

lemma after_congr (h : ∀ i ∈ l, w' i k = w i k) : after w' db l k = after w db l k := by
  induction l using reverseRecOn with
  | nil => rfl
  | append_singleton l i ih =>
    rw [after_concat, after_concat, h i (by simp), ih fun j hj => h j (by simp [hj])]

/-- Transactions that do not write the key do not matter. -/
lemma after_of_none (h : ∀ i ∈ l, w i k = none) : after w db l k = db k := by
  induction l using reverseRecOn with
  | nil => rfl
  | append_singleton l i ih =>
    rw [after_concat, h i (by simp), getD_none, ih fun j hj => h j (by simp [hj])]

lemma after_append_of_none (h : ∀ i ∈ l', w i k = none) :
    after w db (l ++ l') k = after w db l k := by
  rw [after_append, after_of_none h]

/-- Leaving out transactions that do not write the key changes nothing. -/
lemma after_filter {p : ι → Bool} (h : ∀ i ∈ l, p i = false → w i k = none) :
    after w db (l.filter p) k = after w db l k := by
  induction l using reverseRecOn with
  | nil => rfl
  | append_singleton l i ih =>
    have ih := ih fun j hj => h j (by simp [hj])
    rw [after_concat, filter_append]
    cases hi : p i with
    | true => simp [hi, after_concat, ih]
    | false => simp [hi, ih, h i (by simp) hi]

end

/-! ## Before and behind -/

variable [DecidableEq ι]

/-- The transactions in front of `i`. -/
def before (l : List ι) (i : ι) : List ι := l.takeWhile (· ≠ i)

/-- The transactions behind `i`. -/
def behind (l : List ι) (i : ι) : List ι := (l.dropWhile (· ≠ i)).tail

section

variable {l l₁ l₂ : List ι} {i j : ι}

lemma before_append_cons (h : i ∉ l₁) : before (l₁ ++ i :: l₂) i = l₁ := by
  have hne : ∀ x ∈ l₁, decide (x ≠ i) = true := fun x hx => by
    simpa using fun heq : x = i => h (heq ▸ hx)
  rw [before, takeWhile_append_of_pos hne]
  simp

lemma behind_append_cons (h : i ∉ l₁) : behind (l₁ ++ i :: l₂) i = l₂ := by
  have hne : ∀ x ∈ l₁, decide (x ≠ i) = true := fun x hx => by
    simpa using fun heq : x = i => h (heq ▸ hx)
  rw [behind, dropWhile_append_of_pos hne]
  simp

/-- An order around one of its transactions. -/
lemma split (h : i ∈ l) : l = before l i ++ i :: behind l i := by
  obtain ⟨l₁, l₂, rfl, hnot⟩ := eq_append_cons_of_mem h
  rw [before_append_cons hnot, behind_append_cons hnot]

lemma not_mem_before (h : i ∈ l) : i ∉ before l i := by
  obtain ⟨l₁, l₂, rfl, hnot⟩ := eq_append_cons_of_mem h
  rwa [before_append_cons hnot]

lemma mem_of_mem_before (h : j ∈ before l i) : j ∈ l :=
  (takeWhile_sublist _).subset h

lemma mem_of_mem_behind (h : j ∈ behind l i) : j ∈ l :=
  (dropWhile_suffix _).subset (mem_of_mem_tail h)

lemma before_append_of_mem (h : i ∈ l) (l' : List ι) : before (l ++ l') i = before l i := by
  obtain ⟨l₁, l₂, rfl, hnot⟩ := eq_append_cons_of_mem h
  rw [append_assoc, cons_append, before_append_cons hnot, before_append_cons hnot]

lemma before_of_not_mem (h : i ∉ l) : before l i = l := by
  refine takeWhile_eq_self_iff.mpr fun x hx => ?_
  simpa using fun heq : x = i => h (heq ▸ hx)

lemma behind_append_of_mem (h : i ∈ l) (l' : List ι) : behind (l ++ l') i = behind l i ++ l' := by
  obtain ⟨l₁, l₂, rfl, hnot⟩ := eq_append_cons_of_mem h
  rw [append_assoc, cons_append, behind_append_cons hnot, behind_append_cons hnot]

/-- Leaving out other transactions leaves them out in front of `i`. -/
lemma before_filter {p : ι → Bool} (hp : p i) (l : List ι) :
    before (l.filter p) i = (before l i).filter p := by
  induction l with
  | nil => rfl
  | cons j l ih =>
    by_cases hj : j = i
    · subst hj
      simp [before, hp]
    · have hcons : before (j :: l) i = j :: before l i := by simp [before, hj]
      rw [hcons]
      by_cases hpj : p j
      · have hkeep : before (j :: l.filter p) i = j :: before (l.filter p) i := by
          simp [before, hj]
        rw [filter_cons_of_pos hpj, filter_cons_of_pos hpj, hkeep, ih]
      · rw [filter_cons_of_neg hpj, filter_cons_of_neg hpj, ih]

lemma mem_behind_iff (hl : l.Nodup) (hi : i ∈ l) (hj : j ∈ l) :
    j ∈ behind l i ↔ i ∈ before l j := by
  obtain ⟨l₁, l₂, rfl, hnot⟩ := eq_append_cons_of_mem hi
  rw [behind_append_cons hnot]
  by_cases hj₁ : j ∈ l₁
  · obtain ⟨a, b, rfl, hja⟩ := eq_append_cons_of_mem hj₁
    rw [append_assoc, cons_append, before_append_cons hja]
    rw [append_assoc, cons_append] at hl
    simp only [nodup_append, nodup_cons, mem_append, mem_cons] at hl
    constructor
    · intro hj₂
      exact absurd (.inr (.inr hj₂)) hl.2.1.1
    · intro hi'
      exact absurd rfl (hl.2.2 i hi' i (.inr (.inr (.inl rfl))))
  · rcases mem_cons.mp ((mem_append.mp hj).resolve_left hj₁) with rfl | hj₂
    · rw [before_append_cons hj₁]
      have hnot₂ : j ∉ l₂ := (nodup_cons.mp (nodup_append.mp hl).2.1).1
      exact ⟨fun h => absurd h hnot₂, fun h => absurd h hj₁⟩
    · refine ⟨fun _ => ?_, fun _ => hj₂⟩
      have hij : i ≠ j := by
        rintro rfl
        exact (nodup_cons.mp (nodup_append.mp hl).2.1).1 hj₂
      rw [before, takeWhile_append_of_pos, takeWhile_cons_of_pos]
      · simp
      · simpa using hij
      · intro x hx
        simpa using fun heq : x = j => hj₁ (heq ▸ hx)

lemma mem_before_append (h : i ∈ before l j) (l' : List ι) : i ∈ before (l ++ l') j := by
  by_cases hj : j ∈ l
  · rwa [before_append_of_mem hj]
  · have hne : ∀ x ∈ l, decide (x ≠ j) = true := fun x hx => by
      simpa using fun heq : x = j => hj (heq ▸ hx)
    rw [before, takeWhile_append_of_pos hne]
    exact mem_append_left _ (mem_of_mem_before h)

lemma before_before (h : j ∈ before l i) : before (before l i) j = before l j := by
  have hsplit : before l i ++ l.dropWhile (· ≠ i) = l := takeWhile_append_dropWhile
  conv_rhs => rw [← hsplit]
  rw [before_append_of_mem h]

/-- Of two transactions one is in front of the other. -/
lemma not_mem_before_of_mem_before (h : i ∈ before l j) : j ∉ before l i := by
  induction l with
  | nil => cases h
  | cons a l ih =>
    have hcons : ∀ b, a ≠ b → before (a :: l) b = a :: before l b := fun b hb => by
      simp [before, hb]
    have hself : before (a :: l) a = [] := by simp [before]
    by_cases haj : a = j
    · subst haj
      rw [hself] at h
      cases h
    · by_cases hai : a = i
      · subst hai
        rw [hself]
        exact not_mem_nil
      · rw [hcons j haj] at h
        rw [hcons i hai]
        have hmem := (mem_cons.mp h).resolve_left (Ne.symm hai)
        exact fun hj => ih hmem ((mem_cons.mp hj).resolve_left (Ne.symm haj))

lemma mem_before_or (hl : l.Nodup) (hi : i ∈ l) (hj : j ∈ l) (hne : i ≠ j) :
    i ∈ before l j ∨ j ∈ before l i := by
  have hmem : i ∈ before l j ++ j :: behind l j := split hj ▸ hi
  rcases mem_append.mp hmem with h | h
  · exact .inl h
  · exact .inr ((mem_behind_iff hl hj hi).mp ((mem_cons.mp h).resolve_left hne))

lemma pairwise_before (hl : l.Nodup) : l.Pairwise fun i j => i ∈ before l j := by
  induction l using reverseRecOn with
  | nil => exact List.Pairwise.nil
  | append_singleton l a ih =>
    obtain ⟨hl, -, hdisj⟩ := nodup_append.mp hl
    refine pairwise_append.mpr ⟨?_, pairwise_singleton _ _, fun i hi j hj => ?_⟩
    · exact (ih hl).imp fun h => mem_before_append h [a]
    · cases mem_singleton.mp hj
      rwa [before_append_cons fun ha => hdisj a ha a (mem_singleton_self a) rfl]

/-- Two orders with the same writers of a key, in the same order, leave the same under it. -/
lemma after_reorder {w : ι → κ → Option ν} {db : κ → ν} {k : κ} {l' : List ι} (hl : l.Nodup)
    (hl' : l'.Nodup) (hmem : ∀ i, w i k ≠ none → (i ∈ l ↔ i ∈ l'))
    (hord : ∀ i j, w i k ≠ none → w j k ≠ none → j ∈ l → i ∈ before l j → i ∈ before l' j) :
    after w db l k = after w db l' k := by
  have hleave : ∀ {l : List ι}, ∀ i ∈ l, (w i k).isSome = false → w i k = none :=
    fun i _ hi => by simpa using hi
  have hwrites : ∀ {l : List ι} {i}, i ∈ l.filter (fun i => (w i k).isSome) → w i k ≠ none :=
    fun hi => by simpa [isSome_iff_ne_none] using (mem_filter.mp hi).2
  rw [← after_filter (p := fun i => (w i k).isSome) hleave,
    ← after_filter (p := fun i => (w i k).isSome) (l := l') hleave]
  have hsorted : (l.filter fun i => (w i k).isSome).Pairwise fun i j => i ∈ before l' j := by
    refine ((pairwise_before hl).filter _).imp_of_mem fun {i j} hi hj hij => ?_
    exact hord i j (hwrites hi) (hwrites hj) (mem_filter.mp hj).1 hij
  have hperm : (l.filter fun i => (w i k).isSome).Perm (l'.filter fun i => (w i k).isSome) := by
    refine (perm_ext_iff_of_nodup (hl.filter _) (hl'.filter _)).mpr fun i => ?_
    simp only [mem_filter]
    exact and_congr_left fun hi => hmem i (by simpa [isSome_iff_ne_none] using hi)
  rw [hperm.eq_of_pairwise (fun i j _ _ hij hji => absurd hji (not_mem_before_of_mem_before hij))
    hsorted ((pairwise_before hl').filter _)]

/-- Under a key is what was there, or what the last of its writers left. -/
lemma after_cases {w : ι → κ → Option ν} {db : κ → ν} (hl : l.Nodup) (k : κ) :
    (∀ i ∈ l, w i k = none) ∧ after w db l k = db k ∨ ∃ i ∈ l, w i k = some (after w db l k) ∧
        ∀ j ∈ l, j ≠ i → w j k ≠ none → j ∈ before l i := by
  induction l using reverseRecOn with
  | nil => exact .inl ⟨forall_mem_nil _, rfl⟩
  | append_singleton l a ih =>
    obtain ⟨hl, -, hdisj⟩ := nodup_append.mp hl
    have ha : a ∉ l := fun ha => hdisj a ha a (mem_singleton_self a) rfl
    rw [after_concat]
    cases hw : w a k with
    | some v =>
      refine .inr ⟨a, by simp, hw, fun j hj hne _ => ?_⟩
      rw [before_append_cons ha]
      exact (mem_append.mp hj).resolve_right fun h => hne (mem_singleton.mp h)
    | none =>
      rcases ih hl with ⟨hnone, hdb⟩ | ⟨i, hi, hlast, hfront⟩
      · refine .inl ⟨fun i hi => ?_, hdb⟩
        rcases mem_append.mp hi with hi | hi
        · exact hnone i hi
        · rwa [mem_singleton.mp hi]
      · refine .inr ⟨i, mem_append_left _ hi, hlast, fun j hj hne hwj => ?_⟩
        rcases mem_append.mp hj with hj | hj
        · exact mem_before_append (hfront j hj hne hwj) [a]
        · rw [mem_singleton.mp hj, hw] at hwj
          exact absurd rfl hwj

/-! ## Cuts -/

omit [DecidableEq ι] in
/-- The transactions with `p` first, then the others, both in their order. -/
def cut (p : ι → Bool) (l : List ι) : List ι := l.filter p ++ l.filter fun i => !p i

variable {p : ι → Bool}

omit [DecidableEq ι] in
lemma mem_cut : i ∈ cut p l ↔ i ∈ l := by
  rw [cut, mem_append, mem_filter, mem_filter]
  cases p i <;> simp

omit [DecidableEq ι] in
lemma nodup_cut (hl : l.Nodup) : (cut p l).Nodup := by
  refine nodup_append.mpr ⟨hl.filter _, hl.filter _, fun i hi j hj heq => ?_⟩
  have hp := (mem_filter.mp hi).2
  rw [heq] at hp
  simp [hp] at hj

/-- Two transactions change places only if `p` tells them apart. -/
lemma mem_before_cut (hj : j ∈ l) :
    i ∈ before (cut p l) j ↔ (p i ∧ p j = false ∧ i ∈ l) ∨ (p i = p j ∧ i ∈ before l j) := by
  by_cases hp : p j
  · rw [cut, before_append_of_mem (mem_filter.mpr ⟨hj, hp⟩), before_filter hp, mem_filter]
    simp [hp, and_comm]
  · rw [Bool.not_eq_true] at hp
    have hnot : j ∉ l.filter p := fun h => by simp [hp] at h
    have hne : ∀ x ∈ l.filter p, decide (x ≠ j) = true := fun x hx => by
      simpa using fun heq : x = j => hnot (heq ▸ hx)
    rw [cut, before, takeWhile_append_of_pos hne, mem_append, mem_filter]
    have hrest := before_filter (p := fun i => !p i) (i := j) (by simp [hp]) l
    rw [before] at hrest
    rw [hrest, mem_filter]
    simp [hp, and_comm]

end

end Serial
