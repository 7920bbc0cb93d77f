import Mathlib.Logic.Function.Iterate
import Mathlib.Data.List.Basic

/-!
# Searching a queue, and searching places in turn

`firstSplit` finds the first element of a list that meets a condition on itself and on the
elements before it, and returns the list cut at that element. `roundRobin` tries one place
after another until an attempt succeeds or the places are back at the start. Its fuel is
enough as soon as the places return to the start within that many steps. A list that is put
together from parts is cut part by part. Two digits count in a circle.
-/

namespace Tejas.QueueSearch

universe u v

variable {α : Type u} {ok : List α → α → Bool} {before b l a : List α} {x y : α}

def firstSplit (ok : List α → α → Bool) : List α → List α → Option (List α × α × List α)
  | _, [] => none
  | before, x :: after =>
    if ok before x then some (before, x, after) else firstSplit ok (before ++ [x]) after

/-- The search cuts the list at an element that meets the condition, and no element between
the start of the search and the cut meets it. -/
theorem firstSplit_eq_some (h : firstSplit ok before l = some (b, x, a)) :
    before ++ l = b ++ x :: a ∧ ok b x = true ∧
      ∀ b₁ y b₂, b = b₁ ++ y :: b₂ → before.length ≤ b₁.length → ok b₁ y = false := by
  induction l generalizing before with
  | nil => cases h
  | cons z l ih =>
    rw [firstSplit] at h
    split at h
    case isTrue hok =>
      cases h
      refine ⟨rfl, hok, ?_⟩
      intro b₁ y b₂ hb hlen
      have := congrArg List.length hb
      simp at this
      omega
    case isFalse hok =>
      obtain ⟨hl, hx, hearlier⟩ := ih h
      refine ⟨by simpa using hl, hx, ?_⟩
      intro b₁ y b₂ hb hlen
      rcases Nat.eq_or_lt_of_le hlen with hlen | hlen
      · have hsplit : before ++ z :: l = b₁ ++ y :: (b₂ ++ x :: a) := by
          have := hl
          rw [hb] at this
          simpa using this
        obtain ⟨rfl, hrest⟩ := List.append_inj hsplit hlen
        cases hrest
        simpa using hok
      · exact hearlier b₁ y b₂ hb (by simpa [Nat.succ_le_iff] using hlen)

/-- A search that starts at the head of the list. -/
theorem firstSplit_nil_eq_some (h : firstSplit ok [] l = some (b, x, a)) :
    l = b ++ x :: a ∧ ok b x = true ∧ ∀ b₁ y b₂, b = b₁ ++ y :: b₂ → ok b₁ y = false := by
  obtain ⟨hl, hx, hearlier⟩ := firstSplit_eq_some h
  exact ⟨hl, hx, fun b₁ y b₂ hb => hearlier b₁ y b₂ hb (Nat.zero_le _)⟩

/-- A list that is put together from parts is cut inside one of the parts. -/
theorem flatMap_eq_append_cons {κ : Type v} {f : κ → List α} {parts : List κ}
    (h : parts.flatMap f = b ++ x :: a) :
    ∃ front part back b' a', parts = front ++ part :: back ∧ f part = b' ++ x :: a' ∧
      b = front.flatMap f ++ b' ∧ a = a' ++ back.flatMap f := by
  induction parts generalizing b with
  | nil => simp at h
  | cons part rest ih =>
    rw [List.flatMap_cons, List.append_eq_append_iff] at h
    rcases h with ⟨b', rfl, hrest⟩ | ⟨a', hpart, hx⟩
    · obtain ⟨front, part', back, b'', a', rfl, hf, rfl, rfl⟩ := ih hrest
      exact ⟨part :: front, part', back, b'', a', rfl, hf, by simp, rfl⟩
    · cases a' with
      | nil =>
        obtain ⟨front, part', back, b'', a', rfl, hf, hb, rfl⟩ := ih (b := []) hx.symm
        exact ⟨part :: front, part', back, b'', a', rfl, hf, by
          simp only [List.append_nil] at hpart
          rw [List.flatMap_cons, List.append_assoc, ← hb, List.append_nil, hpart], rfl⟩
      | cons y a' =>
        obtain ⟨rfl, rfl⟩ := List.cons.inj hx
        exact ⟨[], part, rest, b, a', rfl, hpart, rfl, rfl⟩

/-- Two digits make a number below the product of their bounds. -/
theorem digits_lt {a b m n : ℕ} (ha : a < m) (hb : b < n) : a + m * b < m * n := by
  have hle : m * (b + 1) ≤ m * n := Nat.mul_le_mul_left m hb
  rw [Nat.mul_succ] at hle
  omega

theorem digits_inj {a b a' b' m : ℕ} (ha : a < m) (ha' : a' < m)
    (h : a + m * b = a' + m * b') : a = a' ∧ b = b' := by
  have hdiv := congrArg (fun n => n / m) h
  have hmod := congrArg (fun n => n % m) h
  have hm : 0 < m := Nat.zero_lt_of_lt ha
  simp only [Nat.add_mul_div_left _ _ hm, Nat.div_eq_of_lt ha, Nat.div_eq_of_lt ha',
    Nat.zero_add] at hdiv
  simp only [Nat.add_mul_mod_self_left, Nat.mod_eq_of_lt ha, Nat.mod_eq_of_lt ha'] at hmod
  exact ⟨hmod, hdiv⟩

/-- Counting up the low digit, and the high digit once the low one is full. -/
theorem digits_next {a b m n : ℕ} (ha : a < m) (hb : b < n) :
    (a + m * b + 1) % (m * n) =
      if a + 1 < m then a + 1 + m * b else if b + 1 < n then m * (b + 1) else 0 := by
  split
  case isTrue hlow =>
    rw [Nat.mod_eq_of_lt (by have := digits_lt hlow hb; omega)]
    omega
  case isFalse hlow =>
    have hfull : a + m * b + 1 = m * (b + 1) := by
      rw [Nat.mul_succ]
      omega
    rw [hfull]
    split
    case isTrue hhigh =>
      exact Nat.mod_eq_of_lt ((Nat.mul_lt_mul_left (Nat.zero_lt_of_lt ha)).mpr hhigh)
    case isFalse hhigh =>
      have : b + 1 = n := by omega
      rw [this, Nat.mod_self]

section RoundRobin

variable {P : Type u} {R : Type v} {next : P → P} {attempt : P → Option R} {start p q : P} {r : R}

/-- Places that are numbered in a circle return to where they were. -/
theorem iterate_of_circle {n : ℕ} {code : P → ℕ} (hinj : Function.Injective code)
    (hlt : ∀ p, code p < n) (hnext : ∀ p, code (next p) = (code p + 1) % n) (p : P) :
    next^[n] p = p := by
  have hcode : ∀ k, code (next^[k] p) = (code p + k) % n := by
    intro k
    induction k with
    | zero => exact (Nat.mod_eq_of_lt (hlt p)).symm
    | succ k ih => rw [Function.iterate_succ_apply', hnext, ih, Nat.mod_add_mod, Nat.add_assoc]
  apply hinj
  rw [hcode, Nat.add_mod_right, Nat.mod_eq_of_lt (hlt p)]

variable [DecidableEq P]

/-- Try the places in turn, until an attempt succeeds or the start is next. -/
def roundRobin (next : P → P) (attempt : P → Option R) (start : P) : ℕ → P → Option R × P
  | 0, p => (none, p)
  | fuel + 1, p =>
    match attempt p with
    | some r => (some r, p)
    | none =>
      if next p = start then (none, next p) else roundRobin next attempt start fuel (next p)

theorem attempt_of_roundRobin {fuel : ℕ} (h : roundRobin next attempt start fuel p = (some r, q)) :
    attempt q = some r := by
  induction fuel generalizing p with
  | zero => cases h
  | succ fuel ih =>
    rw [roundRobin] at h
    split at h
    case h_1 r' hp =>
      cases h
      exact hp
    case h_2 hp =>
      split at h
      · cases h
      · exact ih h

/-- Fuel that brings the places back to the start is as good as any more. -/
theorem roundRobin_add {k : ℕ} (hreturn : next^[k + 1] p = start) (m : ℕ) :
    roundRobin next attempt start (k + 1 + m) p = roundRobin next attempt start (k + 1) p := by
  induction k generalizing p with
  | zero =>
    rw [Nat.add_comm 1 m, Nat.zero_add]
    change next p = start at hreturn
    simp only [roundRobin, hreturn, if_true]
  | succ k ih =>
    rw [show k + 1 + 1 + m = (k + 1 + m) + 1 by omega]
    rw [roundRobin, roundRobin]
    split
    · rfl
    · split
      · rfl
      · exact ih hreturn

/-- A full turn is fuel enough. -/
theorem roundRobin_of_circle {n : ℕ} {code : P → ℕ} (hinj : Function.Injective code)
    (hlt : ∀ p, code p < n) (hnext : ∀ p, code (next p) = (code p + 1) % n) (p : P) (m : ℕ) :
    roundRobin next attempt p (n + m) p = roundRobin next attempt p n p := by
  obtain ⟨k, rfl⟩ := Nat.exists_eq_succ_of_ne_zero (Nat.ne_of_gt (Nat.zero_lt_of_lt (hlt p)))
  exact roundRobin_add (iterate_of_circle hinj hlt hnext p) m

end RoundRobin

end Tejas.QueueSearch
