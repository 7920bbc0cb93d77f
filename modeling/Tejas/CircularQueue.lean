import Mathlib.Logic.Function.Basic
import Tejas.RingIndices

/-!
# Circular queues that are empty at `-1`

The queue most classes of the simulator are built on: an array of `n` slots with a head
and a tail index. An element is written over the old contents of its slot, so that an
operation that overwrites only a part of the slot is covered too. The elements from
the head to the tail are the contents of the queue.
-/

namespace Tejas

open RingIndices

structure CircularQueue (α : Type*) where
  slots : ℕ → α
  head : ℤ
  tail : ℤ

namespace CircularQueue

variable {α : Type*} {n : ℕ} {q q' : CircularQueue α} {a : α} {write : α → α}

/-- A new queue: every slot holds a fresh object. -/
def empty (fresh : α) : CircularQueue α := ⟨fun _ => fresh, -1, -1⟩

def size (n : ℕ) (q : CircularQueue α) : ℕ := RingIndices.size n q.head q.tail

def spaceLeft (n : ℕ) (q : CircularQueue α) : ℕ := n - q.size n

def IsFull (n : ℕ) (q : CircularQueue α) : Prop := (q.tail + 1) % n = q.head

instance (n : ℕ) (q : CircularQueue α) : Decidable (q.IsFull n) :=
  inferInstanceAs (Decidable ((q.tail + 1) % n = q.head))

/-- Write to the slot behind the tail. A full queue is an error. -/
def enqueue (n : ℕ) (q : CircularQueue α) (write : α → α) : Option (CircularQueue α) :=
  if q.IsFull n then none
  else
    let slot := (pushTail n q.tail).toNat
    some
      { slots := Function.update q.slots slot (write (q.slots slot))
        head := pushHead q.head
        tail := pushTail n q.tail }

/-- Take the slot at the head. -/
def dequeue (n : ℕ) (q : CircularQueue α) : Option (α × CircularQueue α) :=
  if q.head = -1 then none
  else
    some (q.slots q.head.toNat,
      { q with head := popHead n q.head q.tail, tail := popTail q.head q.tail })

/-- The elements from the head to the tail. -/
def contents (n : ℕ) (q : CircularQueue α) : List α := (occupied n q.head q.tail).map q.slots

/-- The indices are those of a ring of `n` slots. -/
def Sound (n : ℕ) (q : CircularQueue α) : Prop := Bounded n q.head q.tail

@[simp] theorem contents_empty (n : ℕ) (fresh : α) : (empty fresh).contents n = [] := by
  simp [contents, empty, occupied, RingWindow.slotsFrom]

theorem sound_empty (n : ℕ) (fresh : α) : (empty fresh).Sound n := .inl ⟨rfl, rfl⟩

theorem length_contents (n : ℕ) (q : CircularQueue α) : (q.contents n).length = q.size n := by
  simp [contents, size]

/-- The test on the indices finds exactly the queues without a free slot. -/
theorem Sound.isFull_iff (h : q.Sound n) (hn : 0 < n) : q.IsFull n ↔ q.size n = n := by
  have htail : (q.tail + 1) % n = pushTail n q.tail := rfl
  rw [IsFull, htail, h.pushTail_eq hn, size]
  rcases h with ⟨hhead, htail⟩ | ⟨h0, hlt, t0, tn⟩ | ⟨rfl, _, _⟩
  · rw [hhead, htail, size_empty]
    split_ifs <;> omega
  · rw [RingIndices.size]
    split_ifs <;> omega
  · omega

theorem Sound.size_le (h : q.Sound n) : q.size n ≤ n := Bounded.size_le h

/-- An element goes behind the others. -/
theorem Sound.enqueue (h : q.Sound n) (hn : 0 < n) (hq : q.enqueue n write = some q') :
    q'.Sound n ∧ ∃ old, q'.contents n = q.contents n ++ [write old] := by
  obtain ⟨hfull, heq⟩ := Option.ite_none_left_eq_some.mp hq
  cases heq
  have hsize : RingIndices.size n q.head q.tail < n := by
    have hne : q.size n ≠ n := fun heq => hfull ((h.isFull_iff hn).mpr heq)
    exact lt_of_le_of_ne h.size_le hne
  refine ⟨Bounded.push h hn, q.slots (pushTail n q.tail).toNat, ?_⟩
  rw [contents, contents, Bounded.occupied_push h hsize, List.map_append]
  congr 1
  · apply List.map_congr_left
    intro i hi
    have hne : i ≠ (pushTail n q.tail).toNat :=
      fun heq => Bounded.pushTail_not_mem h hsize (heq ▸ hi)
    exact Function.update_of_ne hne _ _
  · simp

/-- A queue with a free slot takes an element. -/
theorem Sound.enqueue_isSome (h : q.Sound n) (hsize : q.size n < n) :
    (q.enqueue n write).isSome := by
  have hfull : ¬ q.IsFull n := by
    rw [h.isFull_iff (by omega)]
    omega
  simp [CircularQueue.enqueue, hfull]

/-- The element at the head comes out. -/
theorem Sound.dequeue (h : q.Sound n) (hn : 0 < n) (hq : q.dequeue n = some (a, q')) :
    q'.Sound n ∧ q.contents n = a :: q'.contents n := by
  obtain ⟨hhead, heq⟩ := Option.ite_none_left_eq_some.mp hq
  have hpos : 0 < RingIndices.size n q.head q.tail := by
    have hne : RingIndices.size n q.head q.tail ≠ 0 :=
      fun hzero => hhead ((Bounded.size_eq_zero_iff h hn).mp hzero)
    omega
  cases heq
  refine ⟨Bounded.pop h hpos, ?_⟩
  rw [contents, Bounded.occupied_pop h hpos, List.map_cons]
  rfl

/-- A queue that is not empty gives up an element. -/
theorem Sound.dequeue_isSome (h : q.Sound n) (hn : 0 < n) (hsize : 0 < q.size n) :
    (q.dequeue n).isSome := by
  have hhead : q.head ≠ -1 := by
    intro hhead
    have hzero := (Bounded.size_eq_zero_iff h hn).mpr hhead
    rw [size] at hsize
    omega
  simp [CircularQueue.dequeue, hhead]

end CircularQueue

end Tejas
