import Mathlib.Algebra.Order.Ring.Int
import Mathlib.Logic.Function.Basic
import Tejas.ObservedRuns
import Tejas.RingIndices

/-!
# The queue of the simulator as a list of bounded length

The indices are `-1` when the queue is empty. An element may be `null`, and a slot that is
emptied by `dequeue` or `pop` is set to `null`. All index sums stay within the capacity but the
one of `peek`, which is a sum of two 32-bit numbers.
-/

namespace Tejas

open ObservedRuns RingIndices RingWindow

structure GenericCircularQueue (E : Type*) where
  bufferSize : ℕ
  head : ℤ
  tail : ℤ
  buffer : ℕ → Option E

/-- The calls of a queue. -/
inductive QueueCall (E : Type*)
  | enqueue (newObject : Option E)
  | dequeue
  | pop
  | peek (position : ℕ)
  | size
  | isFull
  | isEmpty
  | clear

/-- What a call returns. -/
inductive QueueResult (E : Type*)
  | object (e : Option E)
  | number (k : ℤ)
  | answer (b : Bool)
  | done

/-- A list of at most `n` elements, with the calls of a queue. -/
def BoundedList.call {E : Type*} (n : ℕ) (l : List (Option E)) :
    QueueCall E → Option (QueueResult E × List (Option E))
  | .enqueue newObject => if l.length < n then some (.answer true, l ++ [newObject]) else none
  | .dequeue => some (.object l.head?.join, l.tail)
  | .pop => some (.object l.getLast?.join, l.dropLast)
  | .peek position => some (.object l[position]?.join, l)
  | .size => some (.number l.length, l)
  | .isFull => some (.answer (decide (l.length = n)), l)
  | .isEmpty => some (.answer (decide (l.length = 0)), l)
  | .clear => some (.done, [])

namespace BoundedList

variable {E : Type*} {n : ℕ}

theorem leaves_enqueues {l : List (Option E)} {e : Option E} {k : ℕ} (hroom : l.length + k ≤ n) :
    leaves (call n) l (List.replicate k (.enqueue e)) = some (l ++ List.replicate k e) := by
  induction k generalizing l with
  | zero => simp [leaves]
  | succ k ih =>
    rw [List.replicate_succ, leaves, call, if_pos (by omega), Option.bind_some,
      ih (by simp; omega)]
    simp [List.replicate_succ]

theorem leaves_dequeues (n : ℕ) (l : List (Option E)) (k : ℕ) :
    leaves (call n) l (List.replicate k .dequeue) = some (l.drop k) := by
  induction k generalizing l with
  | zero => rfl
  | succ k ih =>
    rw [List.replicate_succ, leaves, call, Option.bind_some, ih]
    simp

end BoundedList

namespace GenericCircularQueue

variable {E : Type*} {n : ℕ} {q : GenericCircularQueue E} {l : List (Option E)}

def new (bufferSize : ℕ) : GenericCircularQueue E := ⟨bufferSize, -1, -1, fun _ => none⟩

section Operations

variable (q : GenericCircularQueue E)

def isFull : Bool := decide ((q.tail + 1).tmod q.bufferSize = q.head)

def isEmpty : Bool := decide (q.head = -1)

def size : ℤ :=
  if q.head = -1 then 0
  else if q.head ≤ q.tail then q.tail - q.head + 1
  else q.bufferSize - q.head + q.tail + 1

/-- A full queue ends the program. -/
def enqueue (newObject : Option E) : Option (Bool × GenericCircularQueue E) :=
  if q.isFull then none
  else
    let tail := (q.tail + 1).tmod q.bufferSize
    some (true,
      { q with
        tail := tail
        buffer := Function.update q.buffer tail.toNat newObject
        head := if q.head = -1 then 0 else q.head })

def dequeue : Option E × GenericCircularQueue E :=
  if q.isEmpty then (none, q)
  else
    let buffer := Function.update q.buffer q.head.toNat none
    if q.head = q.tail then
      (q.buffer q.head.toNat, { q with buffer := buffer, head := -1, tail := -1 })
    else
      (q.buffer q.head.toNat,
        { q with buffer := buffer, head := (q.head + 1).tmod q.bufferSize })

/-- A sum of two `int`s. -/
def intSum (x y : ℤ) : ℤ := (x + y).bmod (2 ^ 32)

/-- A negative index ends the program. -/
def peek (position : ℤ) : Option (Option E) :=
  if q.size ≤ position then some none
  else
    let peekIndex := (intSum q.head position).tmod q.bufferSize
    if peekIndex < 0 then none else some (q.buffer peekIndex.toNat)

def clear : GenericCircularQueue E := { q with head := -1, tail := -1 }

def pop : Option E × GenericCircularQueue E :=
  if q.size ≤ 0 then (none, q)
  else
    let buffer := Function.update q.buffer q.tail.toNat none
    if q.head = q.tail then
      (q.buffer q.tail.toNat, { q with buffer := buffer, head := -1, tail := -1 })
    else if q.tail = 0 then
      (q.buffer q.tail.toNat, { q with buffer := buffer, tail := q.bufferSize - 1 })
    else (q.buffer q.tail.toNat, { q with buffer := buffer, tail := q.tail - 1 })

/-- One call of the queue. -/
def call : QueueCall E → Option (QueueResult E × GenericCircularQueue E)
  | .enqueue newObject => (q.enqueue newObject).map (fun r => (.answer r.1, r.2))
  | .dequeue => some (.object q.dequeue.1, q.dequeue.2)
  | .pop => some (.object q.pop.1, q.pop.2)
  | .peek position => (q.peek position).map (fun e => (.object e, q))
  | .size => some (.number q.size, q)
  | .isFull => some (.answer q.isFull, q)
  | .isEmpty => some (.answer q.isEmpty, q)
  | .clear => some (.done, q.clear)

/-- The index sum of a `peek` within the queue is an `int`. -/
def PeekFits : QueueCall E → Prop
  | .peek position => position < q.size → q.head + position < 2 ^ 31
  | _ => True

end Operations

/-- The queue of capacity `n` holds the elements of the list, in its order. -/
structure Holds (n : ℕ) (q : GenericCircularQueue E) (l : List (Option E)) : Prop where
  bufferSize : q.bufferSize = n
  bounded : Bounded n q.head q.tail
  contents : (occupied n q.head q.tail).map q.buffer = l

theorem holds_new (n : ℕ) : Holds n (new n : GenericCircularQueue E) [] where
  bufferSize := rfl
  bounded := .inl ⟨rfl, rfl⟩
  contents := by simp [new, occupied, slotsFrom]

namespace Holds

theorem length_eq (h : Holds n q l) : RingIndices.size n q.head q.tail = l.length := by
  rw [← h.contents, List.length_map, length_occupied]

theorem length_le (h : Holds n q l) : l.length ≤ n := by
  rw [← h.length_eq]
  exact h.bounded.size_le

/-- The indices of a queue that is not empty. -/
theorem range (h : Holds n q l) (hn : 0 < n) (hne : q.head ≠ -1) :
    0 ≤ q.head ∧ q.head < n ∧ 0 ≤ q.tail ∧ q.tail < n := by
  rcases h.bounded with ⟨hhead, -⟩ | hrange | ⟨hzero, -⟩
  · exact absurd hhead hne
  · exact hrange
  · omega

theorem size_eq (h : Holds n q l) (hn : 0 < n) : q.size = l.length := by
  rw [← h.length_eq, GenericCircularQueue.size, RingIndices.size, h.bufferSize]
  by_cases hne : q.head = -1
  · simp [hne]
  · obtain ⟨h0, hlt, t0, tn⟩ := h.range hn hne
    rw [if_neg hne, if_neg hne]
    split_ifs <;> omega

theorem isEmpty_eq (h : Holds n q l) (hn : 0 < n) : q.isEmpty = decide (l.length = 0) := by
  rw [isEmpty, decide_eq_decide, ← h.bounded.size_eq_zero_iff hn, h.length_eq]

theorem next_tail (h : Holds n q l) : (q.tail + 1).tmod q.bufferSize = pushTail n q.tail := by
  have htail : 0 ≤ q.tail + 1 := by
    rcases h.bounded with ⟨-, ht⟩ | ⟨-, -, ht, -⟩ | ⟨-, -, ht⟩ <;> omega
  rw [h.bufferSize, Int.tmod_eq_emod_of_nonneg htail, pushTail]

theorem isFull_eq (h : Holds n q l) (hn : 0 < n) : q.isFull = decide (l.length = n) := by
  rw [isFull, decide_eq_decide, h.next_tail, h.bounded.pushTail_eq hn, ← h.length_eq]
  rcases h.bounded with ⟨hhead, htail⟩ | ⟨h0, hlt, t0, tn⟩ | ⟨hzero, -⟩
  · rw [hhead, htail, size_empty]
    split_ifs <;> omega
  · rw [RingIndices.size]
    split_ifs <;> omega
  · omega

/-- An element goes behind the others. -/
theorem enqueue (h : Holds n q l) (newObject : Option E) (hroom : l.length < n) :
    ∃ q', q.enqueue newObject = some (true, q') ∧ Holds n q' (l ++ [newObject]) := by
  have hn : 0 < n := by omega
  have hsize : RingIndices.size n q.head q.tail < n := by rwa [h.length_eq]
  have hfull : q.isFull = false := by
    rw [h.isFull_eq hn]
    exact decide_eq_false (by omega)
  have henqueue : q.enqueue newObject = some (true,
      { q with
        tail := pushTail n q.tail
        buffer := Function.update q.buffer (pushTail n q.tail).toNat newObject
        head := pushHead q.head }) := by
    rw [GenericCircularQueue.enqueue, hfull, h.next_tail]
    rfl
  refine ⟨_, henqueue, h.bufferSize, h.bounded.push hn, ?_⟩
  rw [h.bounded.occupied_push hsize, List.map_append, ← h.contents]
  congr 1
  · apply List.map_congr_left
    intro i hi
    have hne : i ≠ (pushTail n q.tail).toNat :=
      fun heq => h.bounded.pushTail_not_mem hsize (heq ▸ hi)
    exact Function.update_of_ne hne _ _
  · simp

theorem not_isEmpty (h : Holds n q l) (hn : 0 < n) (hl : l ≠ []) : q.isEmpty = false := by
  rw [h.isEmpty_eq hn]
  exact decide_eq_false (fun hzero => hl (List.length_eq_zero_iff.mp hzero))

theorem head_ne (h : Holds n q l) (hn : 0 < n) (hl : l ≠ []) : q.head ≠ -1 := by
  have hempty := h.not_isEmpty hn hl
  rwa [isEmpty, decide_eq_false_iff_not] at hempty

theorem size_pos (h : Holds n q l) (hl : l ≠ []) : 0 < RingIndices.size n q.head q.tail := by
  rw [h.length_eq]
  exact List.length_pos_iff.mpr hl

/-- The element at the head comes out. -/
theorem dequeue {e : Option E} (h : Holds n q (e :: l)) (hn : 0 < n) :
    q.dequeue.1 = e ∧ Holds n q.dequeue.2 l := by
  have hne := h.head_ne hn (List.cons_ne_nil _ _)
  have hpos := h.size_pos (List.cons_ne_nil _ _)
  obtain ⟨h0, hlt, t0, tn⟩ := h.range hn hne
  have hdeq : q.dequeue = (q.buffer q.head.toNat,
      { q with
        buffer := Function.update q.buffer q.head.toNat none
        head := popHead n q.head q.tail
        tail := popTail q.head q.tail }) := by
    have hempty := h.not_isEmpty hn (List.cons_ne_nil _ _)
    rw [GenericCircularQueue.dequeue, hempty, popHead, popTail, h.bufferSize,
      Int.tmod_eq_emod_of_nonneg (by omega)]
    by_cases heq : q.head = q.tail <;> simp [heq]
  have hocc := h.bounded.occupied_pop hpos
  have hcontents := h.contents
  rw [hocc, List.map_cons, List.cons.injEq] at hcontents
  rw [hdeq]
  refine ⟨hcontents.1, h.bufferSize, h.bounded.pop hpos, ?_⟩
  rw [← hcontents.2]
  apply List.map_congr_left
  intro i hi
  have hnodup := h.bounded.occupied_nodup
  rw [hocc, List.nodup_cons] at hnodup
  have hother : i ≠ q.head.toNat := fun heq => hnodup.1 (heq ▸ hi)
  exact Function.update_of_ne hother _ _

/-- The element at the tail comes out. -/
theorem pop {e : Option E} (h : Holds n q (l ++ [e])) (hn : 0 < n) :
    q.pop.1 = e ∧ Holds n q.pop.2 l := by
  have hne := h.head_ne hn (List.append_ne_nil_of_right_ne_nil _ (List.cons_ne_nil _ _))
  have hpos := h.size_pos (List.append_ne_nil_of_right_ne_nil _ (List.cons_ne_nil _ _))
  obtain ⟨h0, hlt, t0, tn⟩ := h.range hn hne
  have hpop : q.pop = (q.buffer q.tail.toNat,
      { q with
        buffer := Function.update q.buffer q.tail.toNat none
        head := popBackHead q.head q.tail
        tail := popBackTail n q.head q.tail }) := by
    have hsize : ¬ q.size ≤ 0 := by
      rw [h.size_eq hn, ← h.length_eq]
      omega
    rw [GenericCircularQueue.pop, if_neg hsize, popBackHead, popBackTail, h.bufferSize]
    by_cases heq : q.head = q.tail
    · simp [heq]
    · rw [if_neg heq, if_neg heq, if_neg heq]
      split_ifs <;> rfl
  have hocc := h.bounded.occupied_popBack hpos
  have hcontents := h.contents
  rw [hocc, List.map_append] at hcontents
  obtain ⟨hrest, hlast⟩ := List.append_inj' hcontents rfl
  rw [hpop]
  refine ⟨by simpa using hlast, h.bufferSize, h.bounded.popBack hpos, ?_⟩
  rw [← hrest]
  apply List.map_congr_left
  intro i hi
  have hnodup := h.bounded.occupied_nodup
  rw [hocc, List.nodup_append] at hnodup
  have hother : i ≠ q.tail.toNat := hnodup.2.2 i hi _ (List.mem_singleton_self _)
  exact Function.update_of_ne hother _ _

/-- An empty queue gives nothing up. -/
theorem dequeue_nil (h : Holds n q []) (hn : 0 < n) : q.dequeue = (none, q) := by
  have hempty : q.isEmpty = true := by
    rw [h.isEmpty_eq hn]
    rfl
  rw [GenericCircularQueue.dequeue, hempty]
  rfl

theorem pop_nil (h : Holds n q []) (hn : 0 < n) : q.pop = (none, q) := by
  have hsize : q.size ≤ 0 := by simp [h.size_eq hn]
  rw [GenericCircularQueue.pop, if_pos hsize]

theorem clear (h : Holds n q l) : Holds n q.clear [] where
  bufferSize := h.bufferSize
  bounded := .inl ⟨rfl, rfl⟩
  contents := by simp [GenericCircularQueue.clear, occupied, slotsFrom]

/-- The element at a position, as long as the index sum is an `int`. -/
theorem peek {position : ℕ} (h : Holds n q l) (hn : 0 < n)
    (hfits : q.PeekFits (.peek position)) : q.peek position = some l[position]?.join := by
  rw [GenericCircularQueue.peek, h.size_eq hn]
  by_cases hlt : position < l.length
  · have hne := h.head_ne hn (List.ne_nil_of_length_pos (by omega))
    obtain ⟨h0, hhead, t0, tn⟩ := h.range hn hne
    have hsum : q.head + position < 2 ^ 31 := hfits (by rw [h.size_eq hn]; omega)
    have hint : intSum q.head position = q.head + position := by
      rw [intSum]
      exact Int.bmod_eq_of_le (by omega) (by omega)
    have hindex : (q.head + position).tmod n = slot n q.head.toNat position := by
      rw [Int.tmod_eq_emod_of_nonneg (by omega), slot, Int.natCast_mod]
      congr 1
      omega
    have hslot : l[position]? = some (q.buffer (slot n q.head.toNat position)) := by
      rw [← h.contents, List.getElem?_map, occupied, slotsFrom, List.getElem?_map,
        List.getElem?_range (by rwa [h.length_eq])]
      simp
    rw [if_neg (by omega), hint, h.bufferSize, hindex, if_neg (by omega), hslot]
    rfl
  · rw [if_pos (by omega), List.getElem?_eq_none (by omega)]
    rfl

/-- Up to `2 ^ 30` slots, no index sum overflows. -/
theorem peekFits (h : Holds n q l) (hn : 0 < n) (hsmall : n ≤ 2 ^ 30) (a : QueueCall E) :
    q.PeekFits a := by
  cases a with
  | peek position =>
    intro hlt
    rw [h.size_eq hn] at hlt
    have hle := h.length_le
    have hne := h.head_ne hn (List.ne_nil_of_length_pos (by omega))
    obtain ⟨h0, hhead, t0, tn⟩ := h.range hn hne
    omega
  | _ => trivial

end Holds

/-- Each call does to the queue what it does to the list. -/
theorem refines (E : Type*) (hn : 0 < n) :
    Refines (call (E := E)) (BoundedList.call n) PeekFits (Holds n) := by
  intro q l a r hq hfits hspec
  cases a with
  | enqueue newObject =>
    obtain ⟨hroom, heq⟩ := Option.ite_none_right_eq_some.mp hspec
    cases heq
    obtain ⟨q', hq', hholds⟩ := hq.enqueue newObject hroom
    exact ⟨q', by rw [call, hq']; rfl, hholds⟩
  | dequeue =>
    cases hspec
    cases l with
    | nil => exact ⟨q, by rw [call, hq.dequeue_nil hn]; rfl, hq⟩
    | cons e l =>
      obtain ⟨hresult, hholds⟩ := hq.dequeue hn
      exact ⟨q.dequeue.2, by rw [call, hresult]; rfl, hholds⟩
  | pop =>
    cases hspec
    rcases List.eq_nil_or_concat l with rfl | ⟨l, e, rfl⟩
    · exact ⟨q, by rw [call, hq.pop_nil hn]; rfl, hq⟩
    · rw [List.concat_eq_append] at hq ⊢
      obtain ⟨hresult, hholds⟩ := hq.pop hn
      refine ⟨q.pop.2, ?_, ?_⟩
      · rw [call, hresult, List.getLast?_concat]
        rfl
      · rwa [List.dropLast_concat]
  | peek position =>
    cases hspec
    exact ⟨q, by rw [call, hq.peek hn hfits]; rfl, hq⟩
  | size =>
    cases hspec
    exact ⟨q, by rw [call, hq.size_eq hn], hq⟩
  | isFull =>
    cases hspec
    exact ⟨q, by rw [call, hq.isFull_eq hn], hq⟩
  | isEmpty =>
    cases hspec
    exact ⟨q, by rw [call, hq.isEmpty_eq hn], hq⟩
  | clear =>
    cases hspec
    exact ⟨q.clear, rfl, hq.clear⟩

/-- The queue gives the results of a list of bounded length, whatever the calls, as long as no
index sum of a `peek` overflows. -/
theorem results_eq_list {calls : List (QueueCall E)} {out : List (QueueResult E)} (hn : 0 < n)
    (hfits : n ≤ 2 ^ 30 ∨ Meets call PeekFits (new n) calls)
    (hlist : results (BoundedList.call n) [] calls = some out) :
    results call (new n) calls = some out := by
  have href := refines E hn
  refine href.results_eq (holds_new n) ?_ hlist
  rcases hfits with hsmall | hmeets
  · exact href.meets (fun q l a hq => hq.peekFits hn hsmall a) (holds_new n) hlist
  · exact hmeets

theorem results_eq_list_wraps :
    results call (new 2)
        [.enqueue (some 5), .enqueue (some 6), .dequeue, .enqueue none, .peek 1, .pop, .pop] =
      some [.answer true, .answer true, .object (some 5), .answer true, .object none,
        .object none, .object (some 6)] :=
  results_eq_list (by decide) (.inl (by decide)) rfl

/-- Enqueueing behind other elements leaves the head alone. -/
theorem Holds.leaves_enqueues {e : Option E} (h : Holds n q l) (hl : l ≠ []) {k : ℕ}
    (hroom : l.length + k ≤ n) :
    ∃ q', leaves call q (List.replicate k (.enqueue e)) = some q' ∧
      Holds n q' (l ++ List.replicate k e) ∧ q'.head = q.head := by
  induction k generalizing q l with
  | zero => exact ⟨q, rfl, by simpa using h, rfl⟩
  | succ k ih =>
    obtain ⟨q', hq', hholds⟩ := h.enqueue e (by omega)
    have hhead : q'.head = q.head := by
      obtain ⟨-, heq⟩ := Option.ite_none_left_eq_some.mp hq'
      cases heq
      exact if_neg (h.head_ne (by omega) hl)
    obtain ⟨q'', hq'', hholds', hhead'⟩ := ih hholds (by simp) (by simp; omega)
    refine ⟨q'', ?_, by simpa [List.replicate_succ] using hholds', hhead'.trans hhead⟩
    rw [List.replicate_succ, leaves, call, hq']
    exact hq''

/-- Dequeueing some of the elements moves the head on. -/
theorem Holds.leaves_dequeues (h : Holds n q l) {k : ℕ} (hk : k < l.length)
    (hlast : q.head + k < n) :
    ∃ q', leaves call q (List.replicate k .dequeue) = some q' ∧ Holds n q' (l.drop k) ∧
      q'.head = q.head + k := by
  induction k generalizing q l with
  | zero => exact ⟨q, rfl, h, by simp⟩
  | succ k ih =>
    have hn : 0 < n := by have := h.length_le; omega
    cases l with
    | nil => exact absurd hk (Nat.not_lt_zero _)
    | cons e l =>
      simp only [List.length_cons] at hk
      have hholds := (h.dequeue hn).2
      obtain ⟨h0, -, -, -⟩ := h.range hn (h.head_ne hn (List.cons_ne_nil _ _))
      have hhead : q.dequeue.2.head = q.head + 1 := by
        have hrest : l ≠ [] := List.ne_nil_of_length_pos (by omega)
        have hne : q.head ≠ q.tail := by
          intro heq
          refine hholds.head_ne hn hrest ?_
          rw [GenericCircularQueue.dequeue, h.not_isEmpty hn (List.cons_ne_nil _ _),
            if_neg (by simp),
            if_pos heq]
        rw [GenericCircularQueue.dequeue, h.not_isEmpty hn (List.cons_ne_nil _ _), if_neg (by simp),
          if_neg hne, h.bufferSize, Int.tmod_eq_of_lt (by omega) (by omega)]
      obtain ⟨q', hq', hholds', hhead'⟩ := ih hholds (by omega) (by rw [hhead]; omega)
      refine ⟨q', ?_, hholds', by rw [hhead', hhead]; omega⟩
      rw [List.replicate_succ, leaves, call]
      exact hq'

/-- The calls that fill a queue of `k + 1` slots, move its head to the last slot and fill it
again. -/
def fillTwice (k : ℕ) : List (QueueCall Unit) :=
  [.enqueue (some ())] ++ List.replicate k (.enqueue (some ())) ++ List.replicate k .dequeue ++
    List.replicate k (.enqueue (some ()))

/-- What is in the queue behind the first filling and the second. -/
theorem filled_again (k : ℕ) :
    List.drop k (([] ++ [some ()]) ++ List.replicate k (some ())) ++ List.replicate k (some ()) =
      List.replicate (k + 1) (some ()) := by
  have hfull : ([] ++ [some ()]) ++ List.replicate k (some ()) =
      List.replicate (k + 1) (some ()) := by
    rw [List.nil_append, List.replicate_succ, List.singleton_append]
  rw [hfull, List.drop_replicate, List.replicate_append_replicate]
  congr 1
  omega

theorem leaves_fillTwice (k : ℕ) :
    ∃ q', leaves call (new (k + 1)) (fillTwice k) = some q' ∧
      Holds (k + 1) q' (List.replicate (k + 1) (some ())) ∧ q'.head = k := by
  obtain ⟨q₁, hq₁, h₁⟩ := (holds_new (k + 1)).enqueue (some ()) (Nat.succ_pos k)
  have hhead₁ : q₁.head = 0 := by
    obtain ⟨-, heq⟩ := Option.ite_none_left_eq_some.mp hq₁
    cases heq
    rfl
  have hfirst : leaves call (new (k + 1)) [.enqueue (some ())] = some q₁ := by
    rw [leaves, call, hq₁]
    rfl
  obtain ⟨q₂, hq₂, h₂, hhead₂⟩ := h₁.leaves_enqueues (e := some ()) (k := k) (by simp)
    (by simp; omega)
  obtain ⟨q₃, hq₃, h₃, hhead₃⟩ := h₂.leaves_dequeues (k := k) (by simp) (by omega)
  obtain ⟨q₄, hq₄, h₄, hhead₄⟩ := h₃.leaves_enqueues (e := some ()) (k := k)
    (List.ne_nil_of_length_pos (by simp)) (by simp; omega)
  refine ⟨q₄, ?_, filled_again k ▸ h₄, by rw [hhead₄, hhead₃, hhead₂, hhead₁]; omega⟩
  rw [fillTwice, leaves_append, leaves_append, leaves_append, hfirst, Option.bind_some, hq₂,
    Option.bind_some, hq₃, Option.bind_some, hq₄]

theorem list_leaves_fillTwice (k : ℕ) :
    leaves (BoundedList.call (k + 1)) [] (fillTwice k) =
      some (List.replicate (k + 1) (some ())) := by
  have hfirst : leaves (BoundedList.call (k + 1)) [] [.enqueue (some ())] =
      some ([] ++ [some ()]) := by
    rw [leaves, BoundedList.call, if_pos (by simp)]
    rfl
  rw [fillTwice, leaves_append, leaves_append, leaves_append, hfirst, Option.bind_some,
    BoundedList.leaves_enqueues (by simp; omega), Option.bind_some, BoundedList.leaves_dequeues,
    Option.bind_some, BoundedList.leaves_enqueues (by simp; omega), filled_again]

/-- The last position of a full queue whose head is at the last of `2 ^ 30 + 1` slots. -/
theorem peek_overflows :
    ¬ ∀ (n : ℕ) (calls : List (QueueCall Unit)) (out : List (QueueResult Unit)), 0 < n →
      n < 2 ^ 31 → results (BoundedList.call n) [] calls = some out →
        results call (new n) calls = some out := by
  intro hall
  obtain ⟨q', hq', hholds, hhead⟩ := leaves_fillTwice (2 ^ 30)
  have hlist : (results (BoundedList.call (2 ^ 30 + 1)) []
      (fillTwice (2 ^ 30) ++ [.peek (2 ^ 30)])).isSome := by
    rw [results_isSome, leaves_append, list_leaves_fillTwice]
    rfl
  have hnone : q'.peek (2 ^ 30 : ℕ) = none := by
    rw [peek, hholds.size_eq (by decide), List.length_replicate, if_neg (by decide), hhead,
      hholds.bufferSize]
    exact if_pos (by decide)
  obtain ⟨out, hout⟩ := Option.isSome_iff_exists.mp hlist
  have hsome : (results call (new (2 ^ 30 + 1))
      (fillTwice (2 ^ 30) ++ [.peek (2 ^ 30)])).isSome := by
    rw [hall _ _ out (by decide) (by decide) hout]
    rfl
  rw [results_isSome, leaves_append, hq', Option.bind_some, leaves, call, hnone] at hsome
  cases hsome

end GenericCircularQueue

end Tejas
