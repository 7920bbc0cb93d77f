import Mathlib.Data.Nat.Notation

/-!
# Loops that end themselves

A loop runs its body on a state until the body says stop. The body may fail, and then the loop
fails. A number of rounds bounds the loop; once the bound exceeds a rank that every further
round lowers, no larger bound gives another result.
-/

namespace Tejas.BoundedLoop

universe u

/-- What the body of a loop does in one round. -/
inductive Round (σ : Type u) where
  | stop (s : σ)
  | again (s : σ)

variable {σ : Type u} {body : σ → Option (Round σ)} {s t : σ}

def loop (body : σ → Option (Round σ)) : ℕ → σ → Option σ
  | 0, s => some s
  | rounds + 1, s =>
    match body s with
    | none => none
    | some (.stop t) => some t
    | some (.again t) => loop body rounds t

/-- The state that a round leaves, whether or not another round follows. -/
def Round.state : Round σ → σ
  | .stop s => s
  | .again s => s

/-- What every round keeps, the loop keeps. -/
theorem loop_invariant {I : σ → Prop} (hround : ∀ s r, I s → body s = some r → I r.state)
    {rounds : ℕ} (hs : I s) (h : loop body rounds s = some t) : I t := by
  induction rounds generalizing s with
  | zero =>
    cases h
    exact hs
  | succ rounds ih =>
    rw [loop] at h
    cases hbody : body s with
    | none =>
      rw [hbody] at h
      cases h
    | some r =>
      rw [hbody] at h
      cases r with
      | stop u =>
        cases h
        exact hround s (.stop t) hs hbody
      | again u => exact ih (hround s (.again u) hs hbody) h

/-- A loop whose rounds do not fail does not fail. -/
theorem exists_loop (body : σ → Option (Round σ)) {I : σ → Prop}
    (hbody : ∀ s, I s → ∃ r, body s = some r)
    (hround : ∀ s r, I s → body s = some r → I r.state) (rounds : ℕ) (hs : I s) :
    ∃ t, loop body rounds s = some t := by
  induction rounds generalizing s with
  | zero => exact ⟨s, rfl⟩
  | succ rounds ih =>
    obtain ⟨r, hr⟩ := hbody s hs
    rw [loop, hr]
    cases r with
    | stop u => exact ⟨u, rfl⟩
    | again u => exact ih (hround s (.again u) hs hr)

/-- With a bound above the rank, the loop has ended by itself. -/
theorem loop_of_rank_lt (rank : σ → ℕ)
    (hrank : ∀ s t, body s = some (.again t) → rank t < rank s) {rounds more : ℕ}
    (hlt : rank s < rounds) : loop body (rounds + more) s = loop body rounds s := by
  induction rounds generalizing s with
  | zero => exact absurd hlt (Nat.not_lt_zero _)
  | succ rounds ih =>
    rw [Nat.succ_add, loop, loop]
    cases hbody : body s with
    | none => rfl
    | some r =>
      cases r with
      | stop u => rfl
      | again u =>
        have := hrank s u hbody
        exact ih (by omega)

/-! ### Loops that do the same -/

variable {τ : Type u} {body' : τ → Option (Round τ)} {R : σ → τ → Prop} {Ends : σ → Prop} {p : τ}

/-- Both rounds stop or both go on, in related states. -/
inductive Round.Rel (R : σ → τ → Prop) : Round σ → Round τ → Prop
  | stop {s : σ} {p : τ} (h : R s p) : Round.Rel R (.stop s) (.stop p)
  | again {s : σ} {p : τ} (h : R s p) : Round.Rel R (.again s) (.again p)

/-- A loop follows another one round by round, unless the other one stops for good. -/
theorem loop_simulates
    (hround : ∀ s p r, R s p → body s = some r →
      (∃ u, r = .stop u ∧ Ends u) ∨ ∃ r', body' p = some r' ∧ Round.Rel R r r')
    {rounds : ℕ} (hs : R s p) (h : loop body rounds s = some t) (hgoes : ¬ Ends t) :
    ∃ q, loop body' rounds p = some q ∧ R t q := by
  induction rounds generalizing s p with
  | zero =>
    cases h
    exact ⟨p, rfl, hs⟩
  | succ rounds ih =>
    rw [loop] at h
    cases hbody : body s with
    | none =>
      rw [hbody] at h
      cases h
    | some r =>
      rw [hbody] at h
      rcases hround s p r hs hbody with ⟨u, rfl, hends⟩ | ⟨r', hr', hrel⟩
      · cases h
        exact absurd hends hgoes
      · rw [loop, hr']
        cases hrel with
        | stop hstop =>
          cases h
          exact ⟨_, rfl, hstop⟩
        | again hagain => exact ih hagain h

end Tejas.BoundedLoop
