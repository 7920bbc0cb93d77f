import Mathlib.Data.Nat.Notation
import Mathlib.Order.Basic

/-!
# Loops without a bound

A loop runs its body until the body gives a result. It is run with a bound on its rounds, and
has no result when it reaches the bound. A loop whose rounds keep an invariant and lower a
rank ends, and its result does not depend on the bound.
-/

namespace Tejas.WhileLoops

universe u v

variable {σ : Type u} {ρ : Type v}

def whileLoop (body : σ → σ ⊕ ρ) : ℕ → σ → Option ρ
  | 0, _ => none
  | rounds + 1, s =>
    match body s with
    | .inl t => whileLoop body rounds t
    | .inr r => some r

/-- The loop ends with this result. -/
def EndsWith (body : σ → σ ⊕ ρ) (s : σ) (r : ρ) : Prop :=
  ∃ bound, ∀ rounds, bound ≤ rounds → whileLoop body rounds s = some r

variable {body : σ → σ ⊕ ρ} {s t : σ} {r : ρ}

theorem EndsWith.stop (h : body s = .inr r) : EndsWith body s r := by
  refine ⟨1, fun rounds hrounds => ?_⟩
  obtain ⟨rounds, rfl⟩ := Nat.exists_eq_succ_of_ne_zero (Nat.one_le_iff_ne_zero.mp hrounds)
  rw [whileLoop, h]

theorem EndsWith.again (h : body s = .inl t) (hrest : EndsWith body t r) :
    EndsWith body s r := by
  obtain ⟨bound, hbound⟩ := hrest
  refine ⟨bound + 1, fun rounds hrounds => ?_⟩
  obtain ⟨rounds, rfl⟩ := Nat.exists_eq_succ_of_ne_zero (Nat.ne_of_gt (by omega : 0 < rounds))
  rw [whileLoop, h]
  exact hbound rounds (by omega)

/-- A loop that keeps an invariant and lowers a rank ends with a result of the last round. -/
theorem exists_endsWith {I : σ → Prop} {Q : ρ → Prop} (rank : σ → ℕ)
    (hagain : ∀ s t, I s → body s = .inl t → I t ∧ rank t < rank s)
    (hstop : ∀ s r, I s → body s = .inr r → Q r) (hs : I s) :
    ∃ r, EndsWith body s r ∧ Q r := by
  induction hrank : rank s using Nat.strongRecOn generalizing s with
  | _ k ih =>
    cases hbody : body s with
    | inl t =>
      obtain ⟨ht, hlt⟩ := hagain s t hs hbody
      obtain ⟨r, hends, hr⟩ := ih (rank t) (hrank ▸ hlt) ht rfl
      exact ⟨r, .again hbody hends, hr⟩
    | inr r => exact ⟨r, .stop hbody, hstop s r hs hbody⟩

end Tejas.WhileLoops
