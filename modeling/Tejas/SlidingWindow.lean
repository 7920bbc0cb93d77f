import Mathlib.Data.List.Induction
import Mathlib.Data.List.Count
import Mathlib.Data.Int.Notation
import Mathlib.Order.Basic

/-!
# Counters that keep a sliding window

A list of counters remembers which of the last `n` rounds were marked. In every round all
counters go down by one, and only the first one is taken out when it reaches zero; a marked
round adds a counter at the end. When a round is marked only while fewer than `k` counters
are there, no `n` rounds in a row have more than `k` marks.
-/

namespace Tejas.SlidingWindow

variable {n : ℤ} {k : ℕ} {counters : List ℤ} {marked : Bool} {flags : List Bool}

/-- Every counter goes down, and a head that reached zero leaves. -/
def tick (counters : List ℤ) : List ℤ :=
  match counters.map (fun count => count - 1) with
  | [] => []
  | head :: rest => if head = 0 then rest else head :: rest

/-- A round, with a new counter if it is marked. -/
def record (n : ℤ) (counters : List ℤ) (marked : Bool) : List ℤ :=
  if marked then tick counters ++ [n] else tick counters

/-- The counters are those of a window of `n` rounds. -/
structure Window (n : ℤ) (counters : List ℤ) : Prop where
  increasing : counters.Pairwise (fun a b => a < b)
  pos : ∀ c ∈ counters, 0 < c
  le : ∀ c ∈ counters, c ≤ n

theorem window_nil : Window n [] := ⟨List.Pairwise.nil, by simp, by simp⟩

theorem tick_cons (c : ℤ) (rest : List ℤ) :
    tick (c :: rest) = if c - 1 = 0 then rest.map (fun count => count - 1)
      else (c - 1) :: rest.map (fun count => count - 1) := rfl

/-- After a round the counters are positive again, and room is left for a new one. -/
theorem Window.tick (h : Window n counters) : Window (n - 1) (tick counters) := by
  cases counters with
  | nil => exact window_nil
  | cons c rest =>
    have hincreasing := List.pairwise_cons.mp h.increasing
    have hc := h.pos c List.mem_cons_self
    have hrest : Window (n - 1) (rest.map (fun count => count - 1)) := by
      refine ⟨?_, ?_, ?_⟩
      · rw [List.pairwise_map]
        exact hincreasing.2.imp (fun hlt => by omega)
      · intro d hd
        obtain ⟨e, he, rfl⟩ := List.mem_map.mp hd
        have := hincreasing.1 e he
        omega
      · intro d hd
        obtain ⟨e, he, rfl⟩ := List.mem_map.mp hd
        have := h.le e (List.mem_cons_of_mem c he)
        omega
    rw [tick_cons]
    split
    case isTrue => exact hrest
    case isFalse hzero =>
      refine ⟨List.pairwise_cons.mpr ⟨?_, hrest.increasing⟩, ?_, ?_⟩
      · intro d hd
        obtain ⟨e, he, rfl⟩ := List.mem_map.mp hd
        have := hincreasing.1 e he
        omega
      · intro d hd
        rcases List.mem_cons.mp hd with rfl | hd
        · omega
        · exact hrest.pos d hd
      · intro d hd
        rcases List.mem_cons.mp hd with rfl | hd
        · have := h.le c List.mem_cons_self
          omega
        · exact hrest.le d hd

theorem Window.record (marked : Bool) (h : Window n counters) (hn : 1 ≤ n) :
    Window n (record n counters marked) := by
  have htick := h.tick
  rw [SlidingWindow.record]
  split
  · refine ⟨List.pairwise_append.mpr ⟨htick.increasing, List.pairwise_singleton _ _, ?_⟩, ?_, ?_⟩
    · intro c hc d hd
      rw [List.mem_singleton.mp hd]
      have := htick.le c hc
      omega
    · intro c hc
      rcases List.mem_append.mp hc with hc | hc
      · exact htick.pos c hc
      · rw [List.mem_singleton.mp hc]
        omega
    · intro c hc
      rcases List.mem_append.mp hc with hc | hc
      · have := htick.le c hc
        omega
      · exact Int.le_of_eq (List.mem_singleton.mp hc)
  · refine ⟨htick.increasing, htick.pos, fun c hc => ?_⟩
    have := htick.le c hc
    omega

/-- The counters of the last `m` rounds are the marks in these rounds, for all `m` up to `n`. -/
def Counts (n : ℤ) (counters : List ℤ) (flags : List Bool) : Prop :=
  ∀ m : ℕ, (m : ℤ) ≤ n →
    counters.countP (fun c => n - m < c) = (flags.reverse.take m).count true

/-- The counters above a bound are those that were above the next bound before the round. -/
theorem countP_tick (counters : List ℤ) {bound : ℤ} (hbound : 0 ≤ bound) :
    (tick counters).countP (fun c => bound < c) = counters.countP (fun c => bound + 1 < c) := by
  have hmap : ∀ l : List ℤ, (l.map (fun count => count - 1)).countP (fun c => bound < c) =
      l.countP (fun c => bound + 1 < c) := by
    intro l
    rw [List.countP_map]
    refine List.countP_congr (fun c _ => ?_)
    simp only [Function.comp, decide_eq_true_eq]
    omega
  cases counters with
  | nil => rfl
  | cons c rest =>
    rw [tick_cons, List.countP_cons]
    split
    case isTrue hzero =>
      rw [hmap, if_neg]
      · rfl
      · simp only [decide_eq_true_eq]
        omega
    case isFalse =>
      rw [List.countP_cons, hmap]
      congr 1
      by_cases hc : bound + 1 < c
      · rw [if_pos (by simp only [decide_eq_true_eq]; omega), if_pos (by simp [hc])]
      · rw [if_neg (by simp only [decide_eq_true_eq]; omega), if_neg (by simp [hc])]

theorem Counts.record (h : Counts n counters flags) (hwindow : Window n counters) (hn : 1 ≤ n) :
    Counts n (record n counters marked) (flags ++ [marked]) := by
  intro m hm
  rw [List.reverse_append, List.reverse_singleton, List.singleton_append]
  cases m with
  | zero =>
    rw [List.take_zero, List.count_nil, List.countP_eq_zero]
    intro c hc hlt
    have hle := (hwindow.record marked hn).le c hc
    simp at hlt
    omega
  | succ m =>
    have hbound : (0 : ℤ) ≤ n - (m + 1 : ℕ) := by omega
    have hold := h m (by omega)
    have hshift : n - ((m + 1 : ℕ) : ℤ) + 1 = n - m := by omega
    have htick := countP_tick counters hbound
    rw [hshift, hold] at htick
    rw [List.take_succ_cons, List.count_cons, SlidingWindow.record]
    cases marked with
    | true =>
      have hlast : n - ((m + 1 : ℕ) : ℤ) < n := by omega
      rw [if_pos rfl, List.countP_append, htick, List.countP_singleton]
      simp only [hlast, decide_true, if_true, beq_self_eq_true]
    | false =>
      rw [if_neg (by simp), htick]
      simp

/-- Rounds whose marks are allowed only while fewer than `k` counters are there. -/
inductive Recorded (n : ℤ) (k : ℕ) : List Bool → List ℤ → Prop
  | start : Recorded n k [] []
  | round {flags : List Bool} {counters : List ℤ} (prior : Recorded n k flags counters)
      (marked : Bool) (hfree : marked = true → (tick counters).length < k) :
    Recorded n k (flags ++ [marked]) (record n counters marked)

theorem length_tick_le (counters : List ℤ) : (tick counters).length ≤ counters.length := by
  cases counters with
  | nil => exact Nat.le_refl _
  | cons c rest =>
    rw [tick_cons]
    split <;> simp

namespace Recorded

theorem window (h : Recorded n k flags counters) (hn : 1 ≤ n) : Window n counters := by
  induction h with
  | start => exact window_nil
  | round prior marked hfree ih => exact ih.record marked hn

theorem length_le (h : Recorded n k flags counters) : counters.length ≤ k := by
  induction h with
  | start => exact Nat.zero_le k
  | @round flags counters prior marked hfree ih =>
    have htick := length_tick_le counters
    rw [record]
    cases marked with
    | true =>
      have := hfree rfl
      rw [if_pos rfl, List.length_append, List.length_singleton]
      omega
    | false =>
      rw [if_neg (by simp)]
      omega

theorem counts (h : Recorded n k flags counters) (hn : 1 ≤ n) : Counts n counters flags := by
  induction h with
  | start =>
    intro m hm
    simp
  | round prior marked hfree ih => exact ih.record (prior.window hn) hn

/-- The last rounds, up to `n` of them, have at most `k` marks. -/
theorem count_suffix_le (h : Recorded n k flags counters) (hn : 1 ≤ n) {before window : List Bool}
    (hflags : flags = before ++ window) (hlen : (window.length : ℤ) ≤ n) :
    window.count true ≤ k := by
  have hcount := h.counts hn window.length hlen
  rw [hflags, List.reverse_append, ← List.length_reverse, List.take_left,
    List.count_reverse] at hcount
  rw [← hcount]
  exact Nat.le_trans List.countP_le_length h.length_le

/-- No `n` rounds in a row have more than `k` marks. -/
theorem count_window_le (h : Recorded n k flags counters) (hn : 1 ≤ n)
    {before window after : List Bool} (hflags : flags = before ++ window ++ after)
    (hlen : (window.length : ℤ) ≤ n) : window.count true ≤ k := by
  induction h generalizing after with
  | start =>
    have hnil : window = [] := by
      have := List.append_eq_nil_iff.mp hflags.symm
      exact (List.append_eq_nil_iff.mp this.1).2
    rw [hnil]
    exact Nat.zero_le k
  | @round flags counters prior marked hfree ih =>
    rcases List.eq_nil_or_concat after with rfl | ⟨rest, last, rfl⟩
    · have hround := Recorded.round prior marked hfree
      exact hround.count_suffix_le hn (by rw [hflags, List.append_nil]) hlen
    · rw [List.concat_eq_append, ← List.append_assoc] at hflags
      obtain ⟨hprior, -⟩ := List.append_inj' hflags rfl
      exact ih hprior

end Recorded

end Tejas.SlidingWindow
