import Mathlib.Init

/-!
# Code in sections

What a thread does while it holds a lock is a section: nobody else comes in between. Between two
sections everybody may. `Code` is what a thread has still to do, one section after the other, and
`run` is what it does when it is left alone: the state at the end, and the answer unless the process
has died before a section.
-/

/-- What a thread has still to do. How it goes on is read off the state in which a section
begins. -/
inductive Code (σ ρ : Type*)
  | ret (r : ρ)
  | sect (f : σ → σ) (next : σ → Code σ ρ)

namespace Code

variable {σ ρ ρ' : Type*}

/-- One section with an answer. -/
def atomic (f : σ → σ × ρ) : Code σ ρ := sect (fun s => (f s).1) fun s => ret (f s).2

/-- Sections in a row. -/
def seq : List (σ → σ) → Code σ ρ → Code σ ρ
  | [], c => c
  | f :: fs, c => sect f fun _ => seq fs c

/-- Make something else of the answer. -/
def map (g : ρ → ρ') : Code σ ρ → Code σ ρ'
  | ret r => ret (g r)
  | sect f next => sect f fun s => (next s).map g

variable (live : σ → Bool)

/-- Go on to the end without a disturbance. -/
def run : Code σ ρ → σ → σ × Option ρ
  | ret r, s => (s, some r)
  | sect f next, s => if live s then (next s).run (f s) else (s, none)

variable {live} {c : Code σ ρ} {fs : List (σ → σ)} {s : σ}

lemma run_sect {f : σ → σ} {next : σ → Code σ ρ} (hs : live s) :
    (sect f next).run live s = (next s).run live (f s) :=
  if_pos hs

lemma run_seq (hfs : ∀ f ∈ fs, ∀ s, live (f s) = live s) (hs : live s) :
    (seq fs c).run live s = c.run live (fs.foldl (fun s f => f s) s) := by
  induction fs generalizing s with
  | nil => rfl
  | cons f fs ih =>
    rw [seq, run_sect hs, ih fun f hf => hfs f (List.mem_cons_of_mem _ hf)]
    · rfl
    · rw [hfs f List.mem_cons_self, hs]

lemma run_map {g : ρ → ρ'} :
    (c.map g).run live s = Prod.map id (Option.map g) (c.run live s) := by
  induction c generalizing s with
  | ret r => rfl
  | sect f next ih =>
    rw [map, run, run]
    split
    · exact ih s
    · rfl

end Code
