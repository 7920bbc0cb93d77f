import Mathlib.Data.Finset.Card
import Mathlib.Data.List.Nodup

/-!
# Slots that are taken and given back

A slot is taken from the front of a list of free slots, and a slot in use goes back to the
end of it. So every slot is either in the list, once, or in use, and it is given back once
for every time it was taken.
-/

namespace Tejas.SlotPool

universe u

/-- What happens to a slot. -/
inductive Event (P : Type u) where
  | taken (p : P)
  | returned (p : P)
  deriving DecidableEq

/-- The free slots, the slots in use, and what happened so far. -/
structure Pool (P : Type u) where
  free : List P
  inUse : P → Prop
  history : List (Event P)

variable {P : Type u} {slots : Finset P} {s : Pool P} {p q : P} {rest : List P}

namespace Pool

/-- The slot `p` is taken, with `rest` left over. -/
def take (s : Pool P) (p : P) (rest : List P) : Pool P where
  free := rest
  inUse q := q = p ∨ s.inUse q
  history := s.history ++ [.taken p]

def giveBack (s : Pool P) (p : P) : Pool P where
  free := s.free ++ [p]
  inUse q := s.inUse q ∧ q ≠ p
  history := s.history ++ [.returned p]

end Pool

/-- No slot is given back more often than it was taken, or taken again before that. -/
def Alternates [DecidableEq P] (history : List (Event P)) : Prop :=
  ∀ before, before <+: history → ∀ p,
    before.count (.returned p) ≤ before.count (.taken p) ∧
      before.count (.taken p) ≤ before.count (.returned p) + 1

/-- No slot is lost and none is in two places. -/
structure Conserved [DecidableEq P] (slots : Finset P) (s : Pool P) : Prop where
  nodup : s.free.Nodup
  mem_free : ∀ p, p ∈ s.free ↔ p ∈ slots ∧ ¬ s.inUse p
  inUse_slots : ∀ p, s.inUse p → p ∈ slots
  balance_inUse : ∀ p, s.inUse p →
    s.history.count (.taken p) = s.history.count (.returned p) + 1
  balance : ∀ p, ¬ s.inUse p → s.history.count (.taken p) = s.history.count (.returned p)
  alternates : Alternates s.history

variable [DecidableEq P]

theorem Alternates.nil : Alternates ([] : List (Event P)) := by
  intro before hbefore p
  obtain rfl := List.prefix_nil.mp hbefore
  simp

/-- One more event keeps the alternation when the counts behind it are right. -/
theorem Alternates.concat {history : List (Event P)} {event : Event P}
    (h : Alternates history)
    (hlast : ∀ p, (history ++ [event]).count (.returned p) ≤ (history ++ [event]).count (.taken p) ∧
      (history ++ [event]).count (.taken p) ≤ (history ++ [event]).count (.returned p) + 1) :
    Alternates (history ++ [event]) := by
  intro before hbefore p
  rcases List.prefix_concat_iff.mp hbefore with rfl | hbefore
  · exact hlast p
  · exact h before hbefore p

/-- The counts of a slot behind the history of a pool are in order. -/
theorem le_of_balance
    (hin : ∀ p, s.inUse p → s.history.count (.taken p) = s.history.count (.returned p) + 1)
    (hout : ∀ p, ¬ s.inUse p → s.history.count (.taken p) = s.history.count (.returned p))
    (p : P) : s.history.count (.returned p) ≤ s.history.count (.taken p) ∧
      s.history.count (.taken p) ≤ s.history.count (.returned p) + 1 := by
  by_cases hp : s.inUse p
  · rw [hin p hp]
    omega
  · rw [hout p hp]
    omega

namespace Conserved

/-- A pool of free slots without a history. -/
theorem start {free : List P} (hnodup : free.Nodup) (hmem : ∀ p, p ∈ free ↔ p ∈ slots) :
    Conserved slots ⟨free, fun _ => False, []⟩ where
  nodup := hnodup
  mem_free p := by simp [hmem]
  inUse_slots _ hp := hp.elim
  balance_inUse _ hp := hp.elim
  balance _ _ := rfl
  alternates := .nil

theorem take (h : Conserved slots s) (hfree : s.free = p :: rest) :
    Conserved slots (s.take p rest) := by
  have hnodup := h.nodup
  rw [hfree] at hnodup
  obtain ⟨hprest, hrest⟩ := List.nodup_cons.mp hnodup
  have hp : p ∈ slots ∧ ¬ s.inUse p := by
    rw [← h.mem_free, hfree]
    exact List.mem_cons_self
  have hin : ∀ q, (s.take p rest).inUse q →
      (s.take p rest).history.count (.taken q) =
        (s.take p rest).history.count (.returned q) + 1 := by
    rintro q (rfl | hq)
    · simp [Pool.take, h.balance q hp.2]
    · have hne : p ≠ q := by
        rintro rfl
        exact hp.2 hq
      simp [Pool.take, hne, h.balance_inUse q hq]
  have hout : ∀ q, ¬ (s.take p rest).inUse q →
      (s.take p rest).history.count (.taken q) = (s.take p rest).history.count (.returned q) := by
    intro q hq
    obtain ⟨hne, hq⟩ := not_or.mp hq
    simp [Pool.take, Ne.symm hne, h.balance q hq]
  refine ⟨hrest, fun q => ?_, fun q hq => ?_, hin, hout, h.alternates.concat
    (le_of_balance hin hout)⟩
  · change q ∈ rest ↔ q ∈ slots ∧ ¬ (q = p ∨ s.inUse q)
    have hq := h.mem_free q
    rw [hfree, List.mem_cons] at hq
    rw [not_or]
    constructor
    · intro hmem
      obtain ⟨hslot, hunused⟩ := hq.mp (.inr hmem)
      refine ⟨hslot, ?_, hunused⟩
      rintro rfl
      exact hprest hmem
    · rintro ⟨hslot, hne, hunused⟩
      exact (hq.mpr ⟨hslot, hunused⟩).resolve_left hne
  · rcases hq with rfl | hq
    · exact hp.1
    · exact h.inUse_slots q hq

theorem giveBack (h : Conserved slots s) (hp : s.inUse p) : Conserved slots (s.giveBack p) := by
  have hnot : p ∉ s.free := fun hmem => ((h.mem_free p).mp hmem).2 hp
  have hin : ∀ q, (s.giveBack p).inUse q →
      (s.giveBack p).history.count (.taken q) =
        (s.giveBack p).history.count (.returned q) + 1 := by
    rintro q ⟨hq, hne⟩
    simp [Pool.giveBack, Ne.symm hne, h.balance_inUse q hq]
  have hout : ∀ q, ¬ (s.giveBack p).inUse q →
      (s.giveBack p).history.count (.taken q) =
        (s.giveBack p).history.count (.returned q) := by
    intro q hq
    by_cases heq : p = q
    · subst heq
      simp [Pool.giveBack, h.balance_inUse p hp]
    · have hunused : ¬ s.inUse q := fun hused => hq ⟨hused, Ne.symm heq⟩
      simp [Pool.giveBack, heq, h.balance q hunused]
  refine ⟨?_, fun q => ?_, fun q hq => h.inUse_slots q hq.1, hin, hout, h.alternates.concat
    (le_of_balance hin hout)⟩
  · refine List.nodup_append.mpr ⟨h.nodup, List.nodup_singleton p, ?_⟩
    intro q hq r hr heq
    rw [List.mem_singleton.mp hr] at heq
    exact hnot (heq ▸ hq)
  · change q ∈ s.free ++ [p] ↔ q ∈ slots ∧ ¬ (s.inUse q ∧ q ≠ p)
    rw [List.mem_append, List.mem_singleton, h.mem_free]
    constructor
    · rintro (⟨hslot, hunused⟩ | rfl)
      · exact ⟨hslot, fun hused => hunused hused.1⟩
      · exact ⟨h.inUse_slots q hp, fun hused => hused.2 rfl⟩
    · rintro ⟨hslot, hunused⟩
      by_cases heq : q = p
      · exact .inr heq
      · exact .inl ⟨hslot, fun hused => hunused ⟨hused, heq⟩⟩

/-- While a slot is in use the list of free slots has room for it. -/
theorem length_free_lt (h : Conserved slots s) (hp : s.inUse p) :
    s.free.length < slots.card := by
  rw [← List.toFinset_card_of_nodup h.nodup]
  apply Finset.card_lt_card
  refine (Finset.ssubset_iff_of_subset fun q hq => ?_).mpr ⟨p, h.inUse_slots p hp, fun hq => ?_⟩
  · exact ((h.mem_free q).mp (List.mem_toFinset.mp hq)).1
  · exact ((h.mem_free p).mp (List.mem_toFinset.mp hq)).2 hp

/-- No slot is free exactly when all are in use. -/
theorem free_eq_nil_iff (h : Conserved slots s) : s.free = [] ↔ ∀ p ∈ slots, s.inUse p := by
  rw [List.eq_nil_iff_forall_not_mem]
  constructor
  · intro hnone p hp
    by_contra hunused
    exact hnone p ((h.mem_free p).mpr ⟨hp, hunused⟩)
  · intro hall p hp
    obtain ⟨hslot, hunused⟩ := (h.mem_free p).mp hp
    exact hunused (hall p hslot)

/-- A slot is in the list, once, or in use. -/
theorem count_free (h : Conserved slots s) (hp : p ∈ slots) :
    (s.free.count p = 1 ∧ ¬ s.inUse p) ∨ (s.free.count p = 0 ∧ s.inUse p) := by
  by_cases hused : s.inUse p
  · refine .inr ⟨List.count_eq_zero.mpr fun hmem => ?_, hused⟩
    exact ((h.mem_free p).mp hmem).2 hused
  · exact .inl ⟨List.count_eq_one_of_mem h.nodup ((h.mem_free p).mpr ⟨hp, hused⟩), hused⟩

end Conserved

end Tejas.SlotPool
