import Tejas.LabelledRuns
import Mathlib.Order.Basic
import Mathlib.Data.Nat.Notation

/-!
# Runs whose steps lower a rank

A system in which every step lowers a rank comes to rest: its runs are bounded by the rank,
and where some step is possible unless it is at rest, it can only stop there.
-/

namespace Tejas.LabelledRuns

universe u v

variable {σ : Type u} {α : Type v} {step : σ → α → σ → Prop} {s t : σ} {labels : List α}
  {I rest : σ → Prop} {rank : σ → ℕ}

/-- When every step lowers a rank, a run is no longer than the rank it starts with. -/
theorem Run.length_add_rank_le (run : Run step s labels t) (hI : I s)
    (hstep : ∀ s a t, I s → step s a t → I t ∧ rank t < rank s) :
    I t ∧ labels.length + rank t ≤ rank s := by
  induction run with
  | nil => exact ⟨hI, by simp⟩
  | snoc prior last ih =>
    obtain ⟨hprior, hle⟩ := ih
    obtain ⟨hnext, hlt⟩ := hstep _ _ _ hprior last
    refine ⟨hnext, ?_⟩
    rw [List.length_append, List.length_singleton]
    omega

/-- When moreover some step is possible unless the system is at rest, some run leads to rest. -/
theorem exists_run_to_rest (hI : I s)
    (hstep : ∀ s a t, I s → step s a t → I t ∧ rank t < rank s)
    (hmove : ∀ s, I s → ¬ rest s → ∃ a t, step s a t) :
    ∃ labels t, Run step s labels t ∧ rest t := by
  induction hrank : rank s using Nat.strongRecOn generalizing s with
  | ind n ih =>
    by_cases hrest : rest s
    · exact ⟨[], s, .nil, hrest⟩
    · obtain ⟨a, t, hfirst⟩ := hmove s hI hrest
      obtain ⟨ht, hlt⟩ := hstep s a t hI hfirst
      obtain ⟨labels, u, hrun, hu⟩ := ih (rank t) (hrank ▸ hlt) ht rfl
      exact ⟨a :: labels, u, .cons hfirst hrun, hu⟩

end Tejas.LabelledRuns
