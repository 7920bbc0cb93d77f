import Tejas.GenericCircularQueue

/-!
# The listing of a queue

The loop of `toString` runs an index from the head round the slots until it is past the tail.
An index behind the last slot starts at slot `0` again and is never past a tail at the last
slot, and a head behind the tail is past it at once.
-/

namespace Tejas

open ObservedRuns RingIndices RingWindow

namespace GenericCircularQueue

variable {E : Type*} {n : ℕ} {q : GenericCircularQueue E} {l : List (Option E)}
  {render : Option E → String}

/-- The loop, with a bound on its rounds. -/
def toStringFrom (render : Option E → String) (q : GenericCircularQueue E) :
    ℕ → ℤ → String → Option String
  | 0, _, _ => none
  | rounds + 1, i, str =>
    if i ≤ q.tail then
      toStringFrom render q rounds ((i + 1).tmod q.bufferSize)
        (str ++ render (q.buffer i.toNat) ++ "\n")
    else some str

/-- The text, if the loop ends within a number of rounds. `render` is the text of one
element. -/
def toString (render : Option E → String) (q : GenericCircularQueue E) (rounds : ℕ) :
    Option String :=
  if q.head ≠ -1 then q.toStringFrom render rounds q.head "" else some ""

/-- One line for each element. -/
def listing (render : Option E → String) : List (Option E) → String
  | [] => ""
  | e :: rest => render e ++ "\n" ++ listing render rest

/-- From an index before the tail, the loop lists the slots up to the tail. -/
theorem toStringFrom_eq (render : Option E → String) (hlast : q.tail + 1 < q.bufferSize) (k : ℕ)
    {i : ℕ} (hi : (i + k : ℕ) = q.tail + 1) (str : String) :
    q.toStringFrom render (k + 1) i str =
      some (str ++ listing render ((List.range' i k).map q.buffer)) := by
  induction k generalizing i str with
  | zero =>
    rw [toStringFrom, if_neg (by omega)]
    simp [listing]
  | succ k ih =>
    have hnext : ((i : ℤ) + 1).tmod q.bufferSize = (i + 1 : ℕ) := by
      rw [Int.tmod_eq_of_lt (by omega) (by omega)]
      rfl
    rw [toStringFrom, if_pos (by omega), hnext, ih (by omega), List.range'_succ, List.map_cons,
      listing]
    simp [String.append_assoc]

/-- With the tail at the last slot, the index is never past the tail. -/
theorem toStringFrom_none (hlast : q.tail + 1 = q.bufferSize) (rounds : ℕ) {i : ℤ} (h0 : 0 ≤ i)
    (hi : i ≤ q.tail) (str : String) : q.toStringFrom render rounds i str = none := by
  induction rounds generalizing i str with
  | zero => rfl
  | succ rounds ih =>
    rw [toStringFrom, if_pos hi, Int.tmod_eq_emod_of_nonneg (by omega)]
    have hnonneg := Int.emod_nonneg (i + 1) (b := q.bufferSize) (by omega)
    have hlt := Int.emod_lt_of_pos (i + 1) (b := q.bufferSize) (by omega)
    exact ih hnonneg (by omega) _

theorem listing_ne_empty (render : Option E → String) (hl : l ≠ []) : listing render l ≠ "" := by
  cases l with
  | nil => exact absurd rfl hl
  | cons e rest =>
    intro heq
    have hlength := congrArg String.length heq
    simp [listing, String.length_append] at hlength

/-- Contents that do not wrap are a segment of the slots. -/
theorem Holds.segment (h : Holds n q l) (hn : 0 < n) (hne : q.head ≠ -1)
    (hle : q.head ≤ q.tail) : (List.range' q.head.toNat l.length).map q.buffer = l := by
  obtain ⟨h0, hlt, t0, tn⟩ := h.range hn hne
  have hlength : (l.length : ℤ) = q.tail - q.head + 1 := by
    rw [← h.size_eq hn, GenericCircularQueue.size, if_neg hne, if_pos hle]
  have hocc : occupied n q.head q.tail = List.range' q.head.toNat l.length := by
    rw [occupied, slotsFrom, h.length_eq, List.range'_eq_map_range]
    apply List.map_congr_left
    intro d hd
    rw [List.mem_range] at hd
    rw [slot, Nat.zero_add]
    exact Nat.mod_eq_of_lt (by omega)
  rw [← hocc]
  exact h.contents

/-- The loop ends with the listing of the contents exactly when the queue is empty, or its
contents neither wrap nor reach the last slot. -/
theorem toString_eq_listing_iff (render : Option E → String) (hn : 0 < n) (h : Holds n q l) :
    (∃ rounds, q.toString render rounds = some (listing render l)) ↔
      q.head = -1 ∨ (q.head ≤ q.tail ∧ q.tail < n - 1) := by
  by_cases hne : q.head = -1
  · have hl : l = [] := by
      have hzero := (h.bounded.size_eq_zero_iff hn).mpr hne
      rw [h.length_eq] at hzero
      exact List.length_eq_zero_iff.mp hzero
    refine iff_of_true ⟨0, ?_⟩ (.inl hne)
    rw [toString, if_neg (not_not.mpr hne), hl]
    rfl
  · obtain ⟨h0, hlt, t0, tn⟩ := h.range hn hne
    have hsize := h.size_eq hn
    rw [GenericCircularQueue.size, if_neg hne, h.bufferSize] at hsize
    rw [or_iff_right hne]
    constructor
    · rintro ⟨rounds, hend⟩
      rw [toString, if_pos hne] at hend
      by_cases hle : q.head ≤ q.tail
      · refine ⟨hle, ?_⟩
        by_contra hlast
        rw [toStringFrom_none (by rw [h.bufferSize]; omega) rounds h0 hle] at hend
        cases hend
      · -- the first test fails, and nothing is listed
        have hl : l ≠ [] := by
          rintro rfl
          rw [if_neg hle] at hsize
          simp only [List.length_nil] at hsize
          omega
        cases rounds with
        | zero => cases hend
        | succ rounds =>
          rw [toStringFrom, if_neg hle, Option.some_inj] at hend
          exact absurd hend.symm (listing_ne_empty render hl)
    · rintro ⟨hle, hlast⟩
      rw [if_pos hle] at hsize
      refine ⟨l.length + 1, ?_⟩
      have hfrom := toStringFrom_eq render (q := q) (by rw [h.bufferSize]; omega)
        l.length (i := q.head.toNat) (by omega) ""
      rw [Int.toNat_of_nonneg h0, h.segment hn hne hle] at hfrom
      rw [toString, if_pos hne, hfrom]
      simp

/-- A queue of three slots that holds `5` and `6` in its first two slots. -/
def shortQueue : GenericCircularQueue ℕ :=
  ⟨3, 0, 1, Function.update (Function.update (fun _ => none) 0 (some 5)) 1 (some 6)⟩

theorem toString_shortQueue :
    ∃ rounds, shortQueue.toString (fun e => Nat.repr (e.getD 0)) rounds =
      some (listing (fun e => Nat.repr (e.getD 0)) [some 5, some 6]) :=
  (toString_eq_listing_iff (q := shortQueue) _ (Nat.succ_pos 2)
    ⟨rfl, .inr (.inl (by decide)), rfl⟩).mpr (.inr (by decide))

/-- With two elements in two slots the loop never ends. With the head at the last slot and the
tail at the first it lists nothing. -/
theorem toString_misses :
    (∃ q : GenericCircularQueue ℕ,
      leaves call (new 2) [.enqueue (some 5), .enqueue (some 6)] = some q ∧
        ∀ render rounds, q.toString render rounds = none) ∧
    ∃ q : GenericCircularQueue ℕ,
      leaves call (new 2) [.enqueue (some 5), .enqueue (some 6), .dequeue, .enqueue (some 7)] =
          some q ∧
        ∀ render rounds, q.toString render (rounds + 1) = some "" :=
  ⟨⟨_, rfl, fun _ rounds => toStringFrom_none (by decide) rounds (by decide) (by decide) ""⟩,
    ⟨_, rfl, fun _ _ => rfl⟩⟩

end GenericCircularQueue

end Tejas
