import Mathlib.Data.List.Basic

/-!
# Fields that loops assign

The assignments that loops make to the fields of a structure, in the order in which they
are made. A field has the value of its last assignment, which is the only one that
counts when all assignments to the field agree.
-/

namespace Tejas.Assignments

universe u v

variable {κ : Type u} {β : Type v} [DecidableEq κ] {l : List (κ × β)} {key : κ} {value : β}

/-- The value of the last assignment to the field. -/
def assigned : List (κ × β) → κ → Option β
  | [], _ => none
  | a :: rest, key =>
    match assigned rest key with
    | some value => some value
    | none => if a.1 = key then some a.2 else none

theorem mem_of_assigned (h : assigned l key = some value) : (key, value) ∈ l := by
  induction l with
  | nil => cases h
  | cons a rest ih =>
    rw [assigned] at h
    cases hrest : assigned rest key with
    | some other =>
      rw [hrest] at h
      cases h
      exact List.mem_cons_of_mem _ (ih hrest)
    | none =>
      rw [hrest] at h
      dsimp only at h
      split at h
      · rename_i heq
        cases h
        rw [← heq]
        exact List.mem_cons_self
      · cases h

/-- A field whose assignments all agree has their value. -/
theorem assigned_eq (hmem : (key, value) ∈ l) (hall : ∀ other, (key, other) ∈ l → other = value) :
    assigned l key = some value := by
  cases h : assigned l key with
  | some other => rw [hall other (mem_of_assigned h)]
  | none =>
    induction l with
    | nil => cases hmem
    | cons a rest ih =>
      rw [assigned] at h
      cases hrest : assigned rest key with
      | some other =>
        rw [hrest] at h
        cases h
      | none =>
        rw [hrest] at h
        dsimp only at h
        rcases List.mem_cons.mp hmem with rfl | hmem
        · rw [if_pos rfl] at h
          cases h
        · have hrest' := ih hmem (fun other hother => hall other (List.mem_cons_of_mem _ hother))
            hrest
          cases hrest'

end Tejas.Assignments
