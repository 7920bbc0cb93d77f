import Mathlib.Data.List.Nodup

/-!
# Searching a list up to a stopping element

`hitsUntil stop want l` collects the wanted elements of `l` that come before the
first stopping element. Membership is described by the part of the list that the
search has passed.
-/

namespace Tejas.ListSearch

universe u

variable {α : Type u} {stop want stop' want' : α → Bool} {l l₁ l₂ : List α} {x : α}

def hitsUntil (stop want : α → Bool) (l : List α) : List α :=
  (l.takeWhile (fun x => !stop x)).filter want

@[simp] theorem hitsUntil_nil : hitsUntil stop want [] = [] := rfl

theorem hitsUntil_cons_stop (h : stop x = true) : hitsUntil stop want (x :: l) = [] := by
  simp [hitsUntil, h]

theorem hitsUntil_cons_hit (hstop : stop x = false) (hwant : want x = true) :
    hitsUntil stop want (x :: l) = x :: hitsUntil stop want l := by
  simp [hitsUntil, hstop, hwant]

theorem hitsUntil_cons_pass (hstop : stop x = false) (hwant : want x = false) :
    hitsUntil stop want (x :: l) = hitsUntil stop want l := by
  simp [hitsUntil, hstop, hwant]

theorem mem_takeWhile_iff {p : α → Bool} :
    x ∈ l.takeWhile p ↔ ∃ before after, l = before ++ x :: after ∧ p x = true ∧
      ∀ y ∈ before, p y = true := by
  induction l with
  | nil => simp
  | cons a l ih =>
    rw [List.takeWhile_cons]
    constructor
    · intro hx
      split at hx
      case isTrue ha =>
        rcases List.mem_cons.mp hx with rfl | hx
        · exact ⟨[], l, rfl, ha, by simp⟩
        · obtain ⟨before, after, rfl, hp, hall⟩ := ih.mp hx
          exact ⟨a :: before, after, rfl, hp, by simpa [ha] using hall⟩
      case isFalse => simp at hx
    · rintro ⟨before, after, heq, hp, hall⟩
      cases before with
      | nil =>
        cases heq
        simp [hp]
      | cons b before =>
        cases heq
        rw [if_pos (hall a (by simp))]
        exact List.mem_cons_of_mem _
          (ih.mpr ⟨before, after, rfl, hp, fun y hy => hall y (by simp [hy])⟩)

/-- A hit is a wanted element that no stopping element precedes. -/
theorem mem_hitsUntil (hdisjoint : ∀ y, want y = true → stop y = false) :
    x ∈ hitsUntil stop want l ↔ ∃ before after, l = before ++ x :: after ∧ want x = true ∧
      ∀ y ∈ before, stop y = false := by
  rw [hitsUntil, List.mem_filter, mem_takeWhile_iff]
  constructor
  · rintro ⟨⟨before, after, heq, -, hall⟩, hwant⟩
    exact ⟨before, after, heq, hwant, by simpa using hall⟩
  · rintro ⟨before, after, heq, hwant, hall⟩
    exact ⟨⟨before, after, heq, by simp [hdisjoint x hwant], by simpa using hall⟩, hwant⟩

theorem hitsUntil_subset : hitsUntil stop want l ⊆ l := by
  intro x hx
  exact (List.takeWhile_sublist _).subset (List.mem_of_mem_filter hx)

theorem hitsUntil_nodup (h : l.Nodup) : (hitsUntil stop want l).Nodup :=
  (h.sublist (List.takeWhile_sublist _)).filter _

theorem hitsUntil_congr (hstop : ∀ y ∈ l, stop' y = stop y) (hwant : ∀ y ∈ l, want' y = want y) :
    hitsUntil stop' want' l = hitsUntil stop want l := by
  induction l with
  | nil => rfl
  | cons a l ih =>
    have hrest := ih (fun y hy => hstop y (List.mem_cons_of_mem _ hy))
      (fun y hy => hwant y (List.mem_cons_of_mem _ hy))
    have ha := hstop a List.mem_cons_self
    have hw := hwant a List.mem_cons_self
    cases hs : stop a with
    | true => rw [hitsUntil_cons_stop hs, hitsUntil_cons_stop (ha.trans hs)]
    | false =>
      cases hn : want a with
      | true =>
        rw [hitsUntil_cons_hit hs hn, hitsUntil_cons_hit (ha.trans hs) (hw.trans hn), hrest]
      | false =>
        rw [hitsUntil_cons_pass hs hn, hitsUntil_cons_pass (ha.trans hs) (hw.trans hn), hrest]

/-- A list without repetitions is cut at one of its elements in one way. -/
theorem split_unique {a a' b b' : List α} (h : (a ++ x :: b).Nodup)
    (heq : a ++ x :: b = a' ++ x :: b') : a = a' ∧ b = b' := by
  induction a generalizing a' with
  | nil =>
    cases a' with
    | nil => exact ⟨rfl, by simpa using heq⟩
    | cons y a' =>
      obtain ⟨rfl, rfl⟩ := List.cons.inj heq
      simp at h
  | cons y a ih =>
    cases a' with
    | nil =>
      obtain ⟨rfl, hb⟩ := List.cons.inj heq
      simp at h
    | cons z a' =>
      obtain ⟨rfl, hrest⟩ := List.cons.inj heq
      obtain ⟨rfl, rfl⟩ := ih (List.nodup_cons.mp h).2 hrest
      exact ⟨rfl, rfl⟩

end Tejas.ListSearch
