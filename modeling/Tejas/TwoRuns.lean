import Mathlib.Data.List.Basic

/-!
# Two runs that one party cannot tell apart

Parties act on one state in some order and each gets results back. A party is isolated
if its results depend on its own actions alone. It is enough that it sees a part of the
state which the others do not change.
-/

namespace Tejas.TwoRuns

variable {ι σ τ α β : Type*} [DecidableEq ι]

/-- The actions of one party in the order it takes them. -/
def actionsOf (i : ι) (run : List (ι × α)) : List α :=
  run.filterMap (fun p => if p.1 = i then some p.2 else none)

/-- The results one party gets. -/
def resultsOf (step : σ → ι → α → σ × β) (i : ι) : σ → List (ι × α) → List β
  | _, [] => []
  | s, p :: rest =>
    if p.1 = i then (step s p.1 p.2).2 :: resultsOf step i (step s p.1 p.2).1 rest
    else resultsOf step i (step s p.1 p.2).1 rest

/-- What the others do makes no difference to the party. -/
def Isolated (step : σ → ι → α → σ × β) (s₀ : σ) (i : ι) : Prop :=
  ∀ run run' : List (ι × α), actionsOf i run = actionsOf i run' →
    resultsOf step i s₀ run = resultsOf step i s₀ run'

/-- The part of the state that a party sees: its own actions follow from it, and those of
the others leave it alone. -/
structure Sees (step : σ → ι → α → σ × β) (i : ι) (view : σ → τ) : Prop where
  state : ∀ s t a, view s = view t → view (step s i a).1 = view (step t i a).1
  result : ∀ s t a, view s = view t → (step s i a).2 = (step t i a).2
  others : ∀ s j a, j ≠ i → view (step s j a).1 = view s

/-- The results of the party alone. -/
def resultsAlone (step : σ → ι → α → σ × β) (i : ι) : σ → List α → List β
  | _, [] => []
  | s, a :: rest => (step s i a).2 :: resultsAlone step i (step s i a).1 rest

variable {step : σ → ι → α → σ × β} {i : ι} {view : σ → τ}

omit [DecidableEq ι] in
theorem resultsAlone_congr (h : Sees step i view) (actions : List α) {s t : σ}
    (hview : view s = view t) : resultsAlone step i s actions = resultsAlone step i t actions := by
  induction actions generalizing s t with
  | nil => rfl
  | cons a rest ih =>
    rw [resultsAlone, resultsAlone, h.result s t a hview, ih (h.state s t a hview)]

/-- With the others the party gets what it gets alone. -/
theorem resultsOf_eq_alone (h : Sees step i view) (run : List (ι × α)) (s : σ) :
    resultsOf step i s run = resultsAlone step i s (actionsOf i run) := by
  induction run generalizing s with
  | nil => rfl
  | cons p rest ih =>
    obtain ⟨j, a⟩ := p
    by_cases hj : j = i
    · subst hj
      simp only [resultsOf, actionsOf, List.filterMap_cons, if_true, resultsAlone]
      exact congrArg (List.cons _) (ih _)
    · simp only [resultsOf, actionsOf, List.filterMap_cons, if_neg hj]
      rw [ih]
      exact resultsAlone_congr h _ (h.others s j a hj)

theorem Sees.isolated (h : Sees step i view) (s₀ : σ) : Isolated step s₀ i := by
  intro run run' hsame
  rw [resultsOf_eq_alone h, resultsOf_eq_alone h, hsame]

/-- A party that is alone is isolated. -/
theorem isolated_of_alone (halone : ∀ j : ι, j = i) (s₀ : σ) : Isolated step s₀ i := by
  have hsees : Sees step i (fun s : σ => s) := by
    constructor
    · rintro s t a rfl
      rfl
    · rintro s t a rfl
      rfl
    · exact fun _ j _ hj => absurd (halone j) hj
  exact hsees.isolated s₀

end Tejas.TwoRuns
