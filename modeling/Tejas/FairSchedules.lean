import Mathlib.Data.Nat.Find
import Mathlib.Order.Basic

/-!
# Runs under an infinite schedule

A schedule says who takes each step, for ever. A kind of step recurs if it is taken again and
again. What the other steps keep still holds at the next step of a recurring kind; a rank that
no step raises and that is lowered again and again reaches its goal; and a count that no step
lowers and that is raised again and again passes every bound.
-/

namespace Tejas.FairSchedules

universe u v

variable {σ : Type u} {α : Type v}

/-- The state after `t` steps. -/
def states (step : σ → α → σ) (s₀ : σ) (schedule : ℕ → α) : ℕ → σ
  | 0 => s₀
  | t + 1 => step (states step s₀ schedule t) (schedule t)

/-- The kind of step is taken again and again. -/
def Recurs (schedule : ℕ → α) (P : α → Prop) : Prop := ∀ t, ∃ u, t ≤ u ∧ P (schedule u)

variable {step : σ → α → σ} {s₀ : σ} {schedule : ℕ → α} {P : α → Prop}

theorem states_invariant {I : σ → Prop} (hinit : I s₀) (hstep : ∀ s a, I s → I (step s a)) (t : ℕ) :
    I (states step s₀ schedule t) := by
  induction t with
  | zero => exact hinit
  | succ t ih => exact hstep _ _ ih

/-- What holds now and is kept by the steps of other kinds holds when the kind is next taken. -/
theorem Recurs.exists_step (h : Recurs schedule P) {Q : σ → Prop}
    (hkeep : ∀ s a, Q s → ¬ P a → Q (step s a)) {t : ℕ} (ht : Q (states step s₀ schedule t)) :
    ∃ u, t ≤ u ∧ P (schedule u) ∧ Q (states step s₀ schedule u) := by
  classical
  have hexists : ∃ d, P (schedule (t + d)) := by
    obtain ⟨u, hle, hu⟩ := h t
    exact ⟨u - t, by rwa [Nat.add_sub_cancel' hle]⟩
  have hbefore : ∀ d, d ≤ Nat.find hexists → Q (states step s₀ schedule (t + d)) := by
    intro d
    induction d with
    | zero => exact fun _ => ht
    | succ d ih =>
      intro hd
      exact hkeep _ _ (ih (by omega)) (Nat.find_min hexists (by omega))
  exact ⟨t + Nat.find hexists, by omega, Nat.find_spec hexists, hbefore _ (le_refl _)⟩

/-- A rank that is lowered again and again reaches the goal. -/
theorem eventually_of_rank (step : σ → α → σ) (s₀ : σ) (schedule : ℕ → α) {Q : σ → Prop}
    (rank : σ → ℕ)
    (hlower : ∀ t, ¬ Q (states step s₀ schedule t) → ∃ u, t ≤ u ∧
      (Q (states step s₀ schedule u) ∨
        rank (states step s₀ schedule u) < rank (states step s₀ schedule t))) (t : ℕ) :
    ∃ u, t ≤ u ∧ Q (states step s₀ schedule u) := by
  classical
  induction hk : rank (states step s₀ schedule t) using Nat.strongRecOn generalizing t with
  | _ k ih =>
    by_cases hgoal : Q (states step s₀ schedule t)
    · exact ⟨t, le_refl t, hgoal⟩
    · obtain ⟨u, hle, hu | hlt⟩ := hlower t hgoal
      · exact ⟨u, hle, hu⟩
      · obtain ⟨w, hw, hgoal'⟩ := ih _ (hk ▸ hlt) u rfl
        exact ⟨w, hle.trans hw, hgoal'⟩

/-- A count that is raised again and again passes every bound. -/
theorem exists_count_ge (step : σ → α → σ) (s₀ : σ) (schedule : ℕ → α) (count : σ → ℕ) {t₀ : ℕ}
    (hraise : ∀ t, t₀ ≤ t → ∃ u, t ≤ u ∧
      count (states step s₀ schedule t) < count (states step s₀ schedule u)) (bound : ℕ) :
    ∃ t, t₀ ≤ t ∧ bound ≤ count (states step s₀ schedule t) := by
  induction bound with
  | zero => exact ⟨t₀, le_refl t₀, Nat.zero_le _⟩
  | succ bound ih =>
    obtain ⟨t, ht, hbound⟩ := ih
    obtain ⟨u, hu, hlt⟩ := hraise t ht
    exact ⟨u, ht.trans hu, by omega⟩

end Tejas.FairSchedules
