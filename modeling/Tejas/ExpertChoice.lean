import Mathlib.Data.List.Count
import Mathlib.Data.Nat.Notation

/-!
# Choosing between two experts with a saturating counter

A counter between 0 and `2 * half - 1` chooses the first expert in its lower half and the second
one in its upper half. It moves towards the expert that is right when the other one is wrong.
Against either expert the choice is at most twice as often wrong, up to half of the counter.
-/

namespace Tejas.ExpertChoice

/-- Which of the experts is right. -/
structure Verdict where
  first : Bool
  second : Bool

variable (half : ℕ)

def choose (count : ℕ) (v : Verdict) : Bool := if count < half then v.first else v.second

def next (count : ℕ) (v : Verdict) : ℕ :=
  if v.first = v.second then count
  else if v.first then count - 1
  else min (count + 1) (2 * half - 1)

/-- How often the choice is wrong. -/
def wrong : ℕ → List Verdict → ℕ
  | _, [] => 0
  | count, v :: rest => (!choose half count v).toNat + wrong (next half count v) rest

variable {half} {count : ℕ}

theorem next_lt (hcount : count < 2 * half) (v : Verdict) : next half count v < 2 * half := by
  rw [next]
  split_ifs
  · exact hcount
  · omega
  · omega

/-- How far the counter is in its upper half pays for leaving the second expert. -/
theorem wrong_le_first (half count : ℕ) (hcount : count < 2 * half) (verdicts : List Verdict) :
    wrong half count verdicts ≤ 2 * verdicts.countP (fun v => !v.first) + (count + 1 - half) := by
  induction verdicts generalizing count with
  | nil => exact Nat.zero_le _
  | cons v rest ih =>
    have hrest := ih _ (next_lt hcount v)
    rw [wrong, List.countP_cons]
    rw [next] at hrest ⊢
    rcases v with ⟨_ | _, _ | _⟩ <;> by_cases hlow : count < half <;>
      simp [choose, hlow] at hrest ⊢ <;> omega

/-- How far the counter is in its lower half pays for leaving the first expert. -/
theorem wrong_le_second (half count : ℕ) (hcount : count < 2 * half) (verdicts : List Verdict) :
    wrong half count verdicts ≤ 2 * verdicts.countP (fun v => !v.second) + (half - count) := by
  induction verdicts generalizing count with
  | nil => exact Nat.zero_le _
  | cons v rest ih =>
    have hrest := ih _ (next_lt hcount v)
    rw [wrong, List.countP_cons]
    rw [next] at hrest ⊢
    rcases v with ⟨_ | _, _ | _⟩ <;> by_cases hlow : count < half <;>
      simp [choose, hlow] at hrest ⊢ <;> omega

end Tejas.ExpertChoice
