import Mathlib.Algebra.Order.Ring.Int
import Mathlib.Data.Finset.Card
import Mathlib.Data.Finset.Range
import Mathlib.Order.Bounds.Basic

/-!
# First-come-first-served queues with several servers

Requests of one service time are served by `k` servers, in the order of their arrival and each
as soon as a server is free. The start of a request is the least time at which it has arrived,
the requests before it have started and fewer than `k` of them are in service. It is enough to
remember until when each server is busy and to give each request to the server that is free
first.
-/

namespace Tejas.ServerQueue

variable {k a : ℕ} {service now now' s t : ℤ} {b : ℕ → ℤ} {earlier arrivals starts : List ℤ}

/-- The number of requests in service at a time. -/
def inService (service : ℤ) (starts : List ℤ) (t : ℤ) : ℕ :=
  starts.countP (fun s => decide (s ≤ t ∧ t < s + service))

/-- The times at which a request may start. -/
def Allowed (k : ℕ) (service : ℤ) (earlier : List ℤ) (arrival : ℤ) : Set ℤ :=
  {t | arrival ≤ t ∧ (∀ s ∈ earlier, s ≤ t) ∧ inService service earlier t < k}

/-- The requests that arrive behind the earlier ones start at these times. -/
def Fcfs (k : ℕ) (service : ℤ) : List ℤ → List ℤ → List ℤ → Prop
  | _, [], [] => True
  | earlier, arrival :: arrivals, s :: starts =>
    IsLeast (Allowed k service earlier arrival) s ∧ Fcfs k service (s :: earlier) arrivals starts
  | _, _, _ => False

/-- The start times of a queue are determined by the arrivals. -/
theorem Fcfs.unique {starts' : List ℤ} (h : Fcfs k service earlier arrivals starts)
    (h' : Fcfs k service earlier arrivals starts') : starts = starts' := by
  induction arrivals generalizing earlier starts starts' with
  | nil =>
    cases starts with
    | nil =>
      cases starts' with
      | nil => rfl
      | cons s' starts' => exact h'.elim
    | cons s starts => exact h.elim
  | cons arrival arrivals ih =>
    cases starts with
    | nil => exact h.elim
    | cons s starts =>
      cases starts' with
      | nil => exact h'.elim
      | cons s' starts' =>
        have heq : s = s' := h.1.unique h'.1
        subst heq
        rw [ih h.2 h'.2]

/-- Requests start in the order of their arrival. -/
theorem Fcfs.sorted (h : Fcfs k service earlier arrivals starts) :
    starts.Pairwise (· ≤ ·) ∧ ∀ s ∈ earlier, ∀ s' ∈ starts, s ≤ s' := by
  induction arrivals generalizing earlier starts with
  | nil =>
    cases starts with
    | nil => simp
    | cons s starts => exact h.elim
  | cons arrival arrivals ih =>
    cases starts with
    | nil => exact h.elim
    | cons s starts =>
      obtain ⟨hsorted, hearlier⟩ := ih h.2
      refine ⟨List.pairwise_cons.mpr ⟨hearlier s List.mem_cons_self, hsorted⟩, ?_⟩
      intro e he s' hs'
      rcases List.mem_cons.mp hs' with rfl | hs'
      · exact h.1.1.2.1 e he
      · exact hearlier e (List.mem_cons_of_mem _ he) s' hs'

/-- The servers that are busy at a time, when server `i` is busy until `b i`. -/
def busyServers (k : ℕ) (b : ℕ → ℤ) (t : ℤ) : Finset ℕ :=
  (Finset.range k).filter (fun i => t < b i)

/-- The busy times of the servers account for the requests that have started. Time has come to
`now`. -/
structure Tracks (k : ℕ) (service : ℤ) (b : ℕ → ℤ) (now : ℤ) (earlier : List ℤ) : Prop where
  started : ∀ s ∈ earlier, ∀ i < k, s ≤ max now (b i)
  inService : ∀ t, now ≤ t → (∀ s ∈ earlier, s ≤ t) →
    inService service earlier t = (busyServers k b t).card

/-- No server is busy before the first request. -/
theorem tracks_nil (service : ℤ) (hb : ∀ i < k, b i ≤ now) : Tracks k service b now [] where
  started := by simp
  inService := by
    intro t ht _
    have hidle : busyServers k b t = ∅ := by
      refine Finset.filter_false_of_mem (fun i hi => not_lt.mpr ?_)
      exact le_trans (hb i (Finset.mem_range.mp hi)) ht
    rw [hidle]
    rfl

namespace Tracks

theorem later (h : Tracks k service b now earlier) (hnow : now ≤ now') :
    Tracks k service b now' earlier where
  started := fun s hs i hi => le_trans (h.started s hs i hi) (max_le_max_right _ hnow)
  inService := fun t ht => h.inService t (le_trans hnow ht)

/-- The server that is free first determines the start of the next request. -/
theorem isLeast (h : Tracks k service b now earlier) (ha : a < k) (hmin : ∀ i < k, b a ≤ b i) :
    IsLeast (Allowed k service earlier now) (max now (b a)) := by
  have hstarted : ∀ s ∈ earlier, s ≤ max now (b a) := fun s hs => h.started s hs a ha
  constructor
  · refine ⟨le_max_left _ _, hstarted, ?_⟩
    rw [h.inService _ (le_max_left _ _) hstarted]
    have hfree : a ∉ busyServers k b (max now (b a)) := by
      intro hmem
      exact absurd (Finset.mem_filter.mp hmem).2 (not_lt.mpr (le_max_right _ _))
    have hsub : busyServers k b (max now (b a)) ⊂ Finset.range k :=
      (Finset.ssubset_iff_of_subset (Finset.filter_subset _ _)).mpr
        ⟨a, Finset.mem_range.mpr ha, hfree⟩
    simpa using Finset.card_lt_card hsub
  · rintro t ⟨harrived, hordered, hroom⟩
    refine max_le harrived ?_
    by_contra hbusy
    have hall : busyServers k b t = Finset.range k := by
      refine Finset.filter_true_of_mem (fun i hi => ?_)
      exact lt_of_lt_of_le (not_le.mp hbusy) (hmin i (Finset.mem_range.mp hi))
    rw [h.inService t harrived hordered, hall, Finset.card_range] at hroom
    exact lt_irrefl _ hroom

/-- Once the server is given the request, it is busy with it for the service time. -/
theorem next (h : Tracks k service b now earlier) (hservice : 0 ≤ service) (ha : a < k)
    (hmin : ∀ i < k, b a ≤ b i) :
    Tracks k service (Function.update b a (max now (b a) + service)) now
      (max now (b a) :: earlier) := by
  constructor
  · intro s hs i hi
    have hle : b i ≤ Function.update b a (max now (b a) + service) i := by
      rw [Function.update_apply]
      split
      · rename_i heq
        rw [heq]
        exact le_trans (le_max_right _ _) (le_add_of_nonneg_right hservice)
      · exact le_rfl
    rcases List.mem_cons.mp hs with rfl | hs
    · have hother := hmin i hi
      rw [Function.update_apply]
      split <;> omega
    · exact le_trans (h.started s hs i hi) (max_le_max_left _ hle)
  · intro t hnow ht
    have hstart : max now (b a) ≤ t := ht _ List.mem_cons_self
    have hearlier := h.inService t hnow (fun s hs => ht s (List.mem_cons_of_mem _ hs))
    rw [ServerQueue.inService, List.countP_cons, ← ServerQueue.inService, hearlier]
    have hfree : a ∉ busyServers k b t := by
      intro hmem
      exact absurd (Finset.mem_filter.mp hmem).2
        (not_lt.mpr (le_trans (le_max_right _ _) hstart))
    by_cases hserved : t < max now (b a) + service
    · have hinsert : busyServers k (Function.update b a (max now (b a) + service)) t =
          insert a (busyServers k b t) := by
        ext i
        simp only [busyServers, Finset.mem_filter, Finset.mem_range, Finset.mem_insert,
          Function.update_apply]
        split
        · rename_i heq
          simp [heq, ha, hserved]
        · rename_i hne
          simp [hne]
      rw [hinsert, Finset.card_insert_of_notMem hfree, if_pos (by simp [hserved]; omega)]
    · have hsame : busyServers k (Function.update b a (max now (b a) + service)) t =
          busyServers k b t := by
        refine Finset.filter_congr (fun i _ => ?_)
        rw [Function.update_apply]
        split
        · rename_i heq
          rw [heq]
          omega
        · exact Iff.rfl
      rw [hsame, if_neg (by simp; omega)]
      rfl

end Tracks

end Tejas.ServerQueue
