import Mathlib.Data.Option.Basic

/-!
# Runs that are seen through their results

An object is called again and again; a call gives a result and leaves a new state, or it
ends the program. A second object with a state of its own says what the results should be.
It is enough that one call from related states gives one result and related states.
-/

namespace Tejas.ObservedRuns

variable {σ τ ι ο : Type*}

/-- The results of a list of calls, if none of them ends the program. -/
def results (step : σ → ι → Option (ο × σ)) : σ → List ι → Option (List ο)
  | _, [] => some []
  | s, a :: rest => (step s a).bind (fun r => (results step r.2 rest).map (List.cons r.1))

/-- The state that a list of calls leaves. -/
def leaves (step : σ → ι → Option (ο × σ)) : σ → List ι → Option σ
  | s, [] => some s
  | s, a :: rest => (step s a).bind (fun r => leaves step r.2 rest)

/-- Every call is made in a state that meets a condition. -/
def Meets (step : σ → ι → Option (ο × σ)) (C : σ → ι → Prop) : σ → List ι → Prop
  | _, [] => True
  | s, a :: rest => C s a ∧ ∀ r, step s a = some r → Meets step C r.2 rest

/-- Where the second object gives a result, the first gives the same. -/
def Refines (step : σ → ι → Option (ο × σ)) (spec : τ → ι → Option (ο × τ)) (C : σ → ι → Prop)
    (R : σ → τ → Prop) : Prop :=
  ∀ ⦃s t a r⦄, R s t → C s a → spec t a = some r → ∃ s', step s a = some (r.1, s') ∧ R s' r.2

variable {step : σ → ι → Option (ο × σ)} {spec : τ → ι → Option (ο × τ)} {C : σ → ι → Prop}
  {R : σ → τ → Prop} {s : σ} {t : τ} {calls more : List ι} {out : List ο}

theorem Refines.results_eq (h : Refines step spec C R) (hR : R s t) (hC : Meets step C s calls)
    (hspec : results spec t calls = some out) : results step s calls = some out := by
  induction calls generalizing s t out with
  | nil => exact hspec
  | cons a rest ih =>
    obtain ⟨r, hr, hmap⟩ := Option.bind_eq_some_iff.mp hspec
    obtain ⟨out', hout, rfl⟩ := Option.map_eq_some_iff.mp hmap
    obtain ⟨s', hs', hR'⟩ := h hR hC.1 hr
    have hrest := ih hR' (hC.2 _ hs') hout
    rw [results, hs', Option.bind_some, hrest, Option.map_some]

/-- A condition that holds in all related states is met. -/
theorem Refines.meets (h : Refines step spec C R) (hall : ∀ s t a, R s t → C s a) (hR : R s t)
    (hspec : results spec t calls = some out) : Meets step C s calls := by
  induction calls generalizing s t out with
  | nil => exact trivial
  | cons a rest ih =>
    obtain ⟨r, hr, hmap⟩ := Option.bind_eq_some_iff.mp hspec
    obtain ⟨out', hout, rfl⟩ := Option.map_eq_some_iff.mp hmap
    refine ⟨hall s t a hR, fun r' hr' => ?_⟩
    obtain ⟨s', hs', hR'⟩ := h hR (hall s t a hR) hr
    rw [hs'] at hr'
    cases hr'
    exact ih hR' hout

theorem leaves_append (step : σ → ι → Option (ο × σ)) (s : σ) (calls more : List ι) :
    leaves step s (calls ++ more) =
      (leaves step s calls).bind (fun s' => leaves step s' more) := by
  induction calls generalizing s with
  | nil => rfl
  | cons a rest ih =>
    rw [List.cons_append, leaves, leaves, Option.bind_assoc]
    congr 1
    funext r
    exact ih r.2

/-- There are results exactly when a state is left. -/
theorem results_isSome (step : σ → ι → Option (ο × σ)) (s : σ) (calls : List ι) :
    (results step s calls).isSome = (leaves step s calls).isSome := by
  induction calls generalizing s with
  | nil => rfl
  | cons a rest ih =>
    rw [results, leaves]
    cases hr : step s a with
    | none => rfl
    | some r => simp [ih]

end Tejas.ObservedRuns
