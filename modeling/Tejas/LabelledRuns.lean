import Mathlib.Logic.Relation

/-!
# Labelled runs of a transition system

A run is a list of labels together with the state it ends in. Invariants are
proved once for one step and carried to every state of a run by induction. A
guard restricts a step relation to the labels a condition admits, so that
"every run whose steps all meet the condition" is a run of the guarded relation.
-/

namespace Tejas.LabelledRuns

universe u v

variable {σ : Type u} {α : Type v}

/-- `Run step s₀ labels s`: the labels lead from `s₀` to `s`, one step each. -/
inductive Run (step : σ → α → σ → Prop) (s₀ : σ) : List α → σ → Prop
  | nil : Run step s₀ [] s₀
  | snoc {labels : List α} {s t : σ} {a : α} (prior : Run step s₀ labels s)
      (last : step s a t) : Run step s₀ (labels ++ [a]) t

/-- The steps whose state and label meet a condition. -/
def Guarded (step : σ → α → σ → Prop) (C : σ → α → Prop) : σ → α → σ → Prop :=
  fun s a t => C s a ∧ step s a t

/-- The step relation of a partial step function. -/
def StepOf (next : σ → α → Option σ) : σ → α → σ → Prop :=
  fun s a t => next s a = some t

/-- Follow the labels with a partial step function. -/
def exec (next : σ → α → Option σ) : σ → List α → Option σ
  | s, [] => some s
  | s, a :: rest => (next s a).bind (fun t => exec next t rest)

variable {step step' : σ → α → σ → Prop} {s₀ s t : σ} {labels : List α}

namespace Run

/-- An invariant of one step holds in the final state of every run. -/
theorem invariant {I : σ → Prop} (run : Run step s₀ labels s) (hinit : I s₀)
    (hstep : ∀ s a t, I s → step s a t → I t) : I s := by
  induction run with
  | nil => exact hinit
  | snoc prior last ih => exact hstep _ _ _ ih last

/-- A second invariant may use the first one at every step. -/
theorem invariant_with {I J : σ → Prop} (run : Run step s₀ labels s) (hinit : J s₀)
    (hI : ∀ labels s, Run step s₀ labels s → I s)
    (hstep : ∀ s a t, I s → J s → step s a t → J t) : J s := by
  induction run with
  | nil => exact hinit
  | snoc prior last ih => exact hstep _ _ _ (hI _ _ prior) ih last

theorem mono (run : Run step s₀ labels s)
    (h : ∀ s a t, step s a t → step' s a t) : Run step' s₀ labels s := by
  induction run with
  | nil => exact .nil
  | snoc prior last ih => exact .snoc ih (h _ _ _ last)

/-- A guarded run is a run. -/
theorem of_guarded {C : σ → α → Prop} (run : Run (Guarded step C) s₀ labels s) :
    Run step s₀ labels s :=
  run.mono (fun _ _ _ h => h.2)

/-- A guard may be replaced by one that it implies in every state of a run. -/
theorem guarded_mono {C D : σ → α → Prop} (run : Run (Guarded step C) s₀ labels s)
    (h : ∀ labels s a, Run step s₀ labels s → C s a → D s a) :
    Run (Guarded step D) s₀ labels s := by
  induction run with
  | nil => exact .nil
  | snoc prior last ih => exact .snoc ih ⟨h _ _ _ prior.of_guarded last.1, last.2⟩

theorem append {more : List α} (first : Run step s₀ labels s) (second : Run step s more t) :
    Run step s₀ (labels ++ more) t := by
  induction second with
  | nil => simpa using first
  | snoc prior last ih => simpa using Run.snoc ih last

theorem single {a : α} (h : step s a t) : Run step s [a] t := by
  have start : Run step s [] s := .nil
  simpa using Run.snoc start h

theorem cons {a : α} {rest : List α} (h : step s₀ a s) (run : Run step s rest t) :
    Run step s₀ (a :: rest) t := by
  simpa using (single h).append run

end Run

theorem exec_append_singleton (next : σ → α → Option σ) (s : σ) (labels : List α) (a : α) :
    exec next s (labels ++ [a]) = (exec next s labels).bind (fun t => next t a) := by
  induction labels generalizing s with
  | nil => simp [exec]
  | cons b rest ih =>
    simp only [List.cons_append, exec, ih]
    cases next s b <;> rfl

/-- Executing a partial step function yields a run. -/
theorem run_of_exec {next : σ → α → Option σ} (h : exec next s labels = some t) :
    Run (StepOf next) s labels t := by
  induction labels generalizing s with
  | nil =>
    cases h
    exact .nil
  | cons a rest ih =>
    obtain ⟨u, hu, hrest⟩ := Option.bind_eq_some_iff.mp h
    exact Run.cons hu (ih hrest)

/-- Executing a step function that refuses the labels outside a condition yields a
guarded run. -/
theorem guarded_run_of_exec {next : σ → α → Option σ} {C : σ → α → Prop}
    [∀ s a, Decidable (C s a)]
    (h : exec (fun s a => if C s a then next s a else none) s labels = some t) :
    Run (Guarded (StepOf next) C) s labels t := by
  refine (run_of_exec h).mono (fun s a t hstep => ?_)
  simpa [Guarded, StepOf] using hstep

end Tejas.LabelledRuns
