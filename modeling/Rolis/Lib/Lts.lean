import Mathlib.Order.Basic

/-!
# Labelled transition systems with partial steps

A system is an initial state and a step function that answers `none` where an action is not
enabled. Two ways of going through a system live here:

* `Run`, the inductive runs whose every step meets a guard `G` on the state before the step
  and the action taken. Safety properties are proved over it, by `Run.invariant`;
* `exec` and `execGuarded`, which take the actions as a list and compute. Concrete runs are
  evaluated with these and turned into a `Run` by `Run.of_exec` and `Run.of_execGuarded`.

`Along` states a property of every step of one given action list; `along_iff` exchanges one
step property for another under an invariant that the second one keeps.
-/

namespace Lts

open Option

/-- A transition system. `step s a = none` when the action `a` is not enabled in `s`. -/
structure System (σ α : Type*) where
  init : σ
  step : σ → α → Option σ

variable {σ α : Type*} {sys : System σ α} {G G' : σ → α → Prop} {s t u : σ}

/-- The runs from `s` whose every step meets `G` in the state before it. -/
inductive Run (sys : System σ α) (G : σ → α → Prop) (s : σ) : σ → Prop
  | refl : Run sys G s s
  | tail {t u : σ} {a : α} : Run sys G s t → G t a → sys.step t a = some u → Run sys G s u

/-- The states of the unguarded runs from the initial state. -/
def Reachable (sys : System σ α) (s : σ) : Prop := Run sys (fun _ _ => True) sys.init s

namespace Run

lemma single {a : α} (hG : G s a) (h : sys.step s a = some t) : Run sys G s t :=
  tail refl hG h

lemma trans (h₁ : Run sys G s t) (h₂ : Run sys G t u) : Run sys G s u := by
  induction h₂ with
  | refl => exact h₁
  | tail _ hG hstep ih => exact ih.tail hG hstep

/-- A run is a run under every weaker guard. -/
lemma mono (hG : ∀ s a, G s a → G' s a) (h : Run sys G s t) : Run sys G' s t := by
  induction h with
  | refl => exact refl
  | tail _ hGa hstep ih => exact ih.tail (hG _ _ hGa) hstep

lemma reachable (h : Run sys G sys.init t) : Reachable sys t :=
  h.mono fun _ _ _ => trivial

/-- The invariant rule: what every guarded step keeps, every guarded run keeps. -/
lemma invariant (I : σ → Prop) (hstep : ∀ t u a, I t → G t a → sys.step t a = some u → I u)
    (h : Run sys G s t) (hs : I s) : I t := by
  induction h with
  | refl => exact hs
  | tail _ hG hst ih => exact hstep _ _ _ ih hG hst

end Run

/-! ## Executing action lists -/

/-- Take the actions of a list in order. -/
def exec (sys : System σ α) : σ → List α → Option σ
  | s, [] => some s
  | s, a :: as => (sys.step s a).bind (exec sys · as)

/-- Take the actions of a list in order, checking the guard before each. -/
def execGuarded (sys : System σ α) (G : σ → α → Prop) [∀ s a, Decidable (G s a)] :
    σ → List α → Option σ
  | s, [] => some s
  | s, a :: as => if G s a then (sys.step s a).bind (execGuarded sys G · as) else none

lemma exec_append (as bs : List α) :
    exec sys s (as ++ bs) = (exec sys s as).bind (exec sys · bs) := by
  induction as generalizing s with
  | nil => rfl
  | cons a as ih =>
    rw [List.cons_append, exec, exec, bind_assoc]
    congr
    funext r
    exact ih

lemma Run.of_exec (as : List α) (h : exec sys s as = some t) : Run sys (fun _ _ => True) s t := by
  induction as generalizing s with
  | nil =>
    rw [exec, some.injEq] at h
    exact h ▸ Run.refl
  | cons a as ih =>
    rw [exec, bind_eq_some_iff] at h
    obtain ⟨r, hstep, hrest⟩ := h
    exact (Run.single trivial hstep).trans (ih hrest)

lemma Run.of_execGuarded [∀ s a, Decidable (G s a)] (as : List α)
    (h : execGuarded sys G s as = some t) : Run sys G s t := by
  induction as generalizing s with
  | nil =>
    rw [execGuarded, some.injEq] at h
    exact h ▸ Run.refl
  | cons a as ih =>
    rw [execGuarded] at h
    split at h
    · next hG =>
      rw [bind_eq_some_iff] at h
      obtain ⟨r, hstep, hrest⟩ := h
      exact (Run.single hG hstep).trans (ih hrest)
    · simp at h

/-- If every step from a state of the invariant goes up by at least one, a run is no longer than the
way it has gone up. -/
lemma length_add_le_of_exec (I : σ → Prop) (μ : σ → ℕ)
    (hI : ∀ s a t, I s → sys.step s a = some t → I t)
    (hμ : ∀ s a t, I s → sys.step s a = some t → μ s < μ t) (as : List α) (hs : I s)
    (h : exec sys s as = some t) : as.length + μ s ≤ μ t := by
  induction as generalizing s with
  | nil =>
    rw [exec, some.injEq] at h
    subst h
    rw [List.length_nil]
    omega
  | cons a as ih =>
    rw [exec, bind_eq_some_iff] at h
    obtain ⟨r, hstep, hrest⟩ := h
    have hlt := hμ s a r hs hstep
    have hle := ih (hI s a r hs hstep) hrest
    rw [List.length_cons]
    omega

/-- Where no run is longer than `N`, some run goes on to a state without a step. -/
lemma exists_exec_stuck {N : ℕ} (h : ∀ as t, exec sys s as = some t → as.length ≤ N) :
    ∃ as t, exec sys s as = some t ∧ ∀ a, sys.step t a = none := by
  by_contra hno
  have hlong : ∀ k, ∃ as t, exec sys s as = some t ∧ as.length = k := by
    intro k
    induction k with
    | zero => exact ⟨[], s, rfl, rfl⟩
    | succ k ih =>
      obtain ⟨as, t, ht, rfl⟩ := ih
      obtain ⟨a, ha⟩ := not_forall.mp fun hstuck => hno ⟨as, t, ht, hstuck⟩
      obtain ⟨u, hu⟩ := ne_none_iff_exists'.mp ha
      refine ⟨as ++ [a], u, ?_, List.length_append⟩
      rw [exec_append, ht, bind_some, exec, hu]
      rfl
  obtain ⟨as, t, ht, hlen⟩ := hlong (N + 1)
  have hle := h as t ht
  omega

/-- A trace that ends in a state satisfying `p`, as a reachable state. -/
lemma exists_reachable_of_exec (sys : System σ α) (as : List α) (p : σ → Prop)
    [DecidablePred p] (h : (exec sys sys.init as).any (fun t => decide (p t)) = true) :
    ∃ t, Reachable sys t ∧ p t := by
  rw [any_eq_true] at h
  obtain ⟨t, ht, hp⟩ := h
  exact ⟨t, Run.of_exec as ht, of_decide_eq_true hp⟩

/-- A guarded trace that ends in a state satisfying `p`, as a guarded run. -/
lemma exists_run_of_execGuarded (sys : System σ α) (G : σ → α → Prop)
    [∀ s a, Decidable (G s a)] (s : σ) (as : List α) (p : σ → Prop) [DecidablePred p]
    (h : (execGuarded sys G s as).any (fun t => decide (p t)) = true) :
    ∃ t, Run sys G s t ∧ p t := by
  rw [any_eq_true] at h
  obtain ⟨t, ht, hp⟩ := h
  exact ⟨t, Run.of_execGuarded as ht, of_decide_eq_true hp⟩

/-! ## Properties of every step of an action list -/

/-- Every step that `as` takes from `s` satisfies `P`. -/
def Along (sys : System σ α) (P : σ → α → σ → Prop) : σ → List α → Prop
  | _, [] => True
  | s, a :: as => ∀ t, sys.step s a = some t → P s a t ∧ Along sys P t as

/-- What holds along a list holds of its last step. -/
lemma Along.last {P : σ → α → σ → Prop} {a : α} (as : List α) (h : Along sys P s (as ++ [a]))
    (hexec : exec sys s as = some t) (hstep : sys.step t a = some u) : P t a u := by
  induction as generalizing s with
  | nil =>
    rw [exec, some.injEq] at hexec
    subst hexec
    exact (h u hstep).1
  | cons b as ih =>
    rw [exec, bind_eq_some_iff] at hexec
    obtain ⟨r, hfirst, hrest⟩ := hexec
    exact ih (h r hfirst).2 hrest

/-- Two step properties that agree under an invariant, which the second one keeps, agree
along every action list. -/
lemma along_iff {P Q : σ → α → σ → Prop} (I : σ → Prop)
    (hPQ : ∀ s a t, I s → sys.step s a = some t → (P s a t ↔ Q s a t))
    (hI : ∀ s a t, I s → sys.step s a = some t → Q s a t → I t)
    (as : List α) (hs : I s) : Along sys P s as ↔ Along sys Q s as := by
  induction as generalizing s with
  | nil => rfl
  | cons a as ih =>
    simp only [Along]
    refine forall₂_congr fun t hstep => ?_
    rw [hPQ s a t hs hstep]
    exact and_congr_right fun hQ => ih (hI s a t hs hstep hQ)

end Lts
