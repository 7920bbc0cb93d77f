import Mathlib.Data.List.Basic
import Mathlib.Logic.Function.Basic

/-!
# Paths along links

The links of a heap are a function from an element to the next. A path is an element and the
elements that follow it, one link each. It only depends on the links of its elements but the
last one, and a path to one element can be continued from there.
-/

namespace Tejas.LinkedPaths

variable {α : Type*} {next next' : α → α} {e x z : α} {l l' : List α}

/-- The list follows the element along the links. -/
def Linked (next : α → α) : α → List α → Prop
  | _, [] => True
  | e, e' :: rest => next e = e' ∧ Linked next e' rest

@[simp] theorem linked_nil (next : α → α) (e : α) : Linked next e [] := trivial

@[simp] theorem linked_cons : Linked next e (x :: l) ↔ next e = x ∧ Linked next x l := Iff.rfl

theorem linked_append : Linked next e (l ++ x :: l') ↔
    Linked next e (l ++ [x]) ∧ Linked next x l' := by
  induction l generalizing e with
  | nil => simp
  | cons y l ih => simp [ih, and_assoc]

/-- Links that agree on the elements before the last one give the same path. -/
theorem Linked.congr (h : Linked next e (l ++ [z])) (hagree : ∀ a ∈ e :: l, next' a = next a) :
    Linked next' e (l ++ [z]) := by
  induction l generalizing e with
  | nil => exact ⟨(hagree e List.mem_cons_self).trans h.1, trivial⟩
  | cons x l ih =>
    refine ⟨(hagree e List.mem_cons_self).trans h.1, ih h.2 (fun a ha => ?_)⟩
    exact hagree a (List.mem_cons_of_mem _ ha)

/-- The path from an element to the first occurrence of the last one. -/
def pathTo [DecidableEq α] (next : α → α) (last : α) : ℕ → α → List α
  | 0, _ => []
  | fuel + 1, e => if e = last then [e] else e :: pathTo next last fuel (next e)

theorem pathTo_eq [DecidableEq α] {last : α} (h : Linked next e (l ++ [last]))
    (hlast : last ∉ e :: l) {fuel : ℕ} (hfuel : l.length + 1 < fuel) :
    pathTo next last fuel e = e :: (l ++ [last]) := by
  induction l generalizing e fuel with
  | nil =>
    obtain ⟨fuel, rfl⟩ := Nat.exists_eq_add_of_le' (Nat.succ_le_of_lt hfuel)
    rw [List.mem_singleton] at hlast
    simp only [List.nil_append, linked_cons, linked_nil, and_true] at h
    simp [pathTo, Ne.symm hlast, h]
  | cons x l ih =>
    have hne : e ≠ last := fun heq => hlast (heq ▸ List.mem_cons_self)
    cases fuel with
    | zero => exact absurd hfuel (Nat.not_lt_zero _)
    | succ fuel =>
      rw [pathTo, if_neg hne, h.1, ih h.2 (fun hmem => hlast (List.mem_cons_of_mem _ hmem))
        (Nat.lt_of_succ_lt_succ hfuel)]
      rfl

end Tejas.LinkedPaths
