import Mathlib.Data.List.Perm.Basic
import Mathlib.Data.List.Range
import Tejas.LabelledRuns
import Tejas.LinkedPaths

/-!
# The pool of objects

A pool is a ring of linked elements. The elements from the head to the tail hold the free
objects; the others keep references to objects that have been handed out. When only two free
objects are left, elements with new objects are spliced in behind the head.
-/

namespace Tejas

open LabelledRuns LinkedPaths

/-- The elements made so far. Every element makes an object, which gets its number. -/
structure ElementHeap where
  count : ℕ
  next : ℕ → ℕ
  object : ℕ → ℕ

namespace ElementHeap

def empty : ElementHeap := ⟨0, fun _ => 0, fun _ => 0⟩

/-- `new Element(type, next)`; the new element has the number `count`. -/
def newElement (h : ElementHeap) (next : ℕ) : ElementHeap where
  count := h.count + 1
  next := Function.update h.next h.count next
  object := Function.update h.object h.count h.count

/-- `temp = new Element(type, temp)`, a number of times. -/
def addElements : ℕ → ElementHeap → ℕ → ElementHeap × ℕ
  | 0, h, temp => (h, temp)
  | n + 1, h, temp => addElements n (h.newElement temp) h.count

def setNext (h : ElementHeap) (e e' : ℕ) : ElementHeap :=
  { h with next := Function.update h.next e e' }

/-- The new elements, the last one first. -/
def added (h : ElementHeap) (n : ℕ) : List ℕ := (List.range' h.count n).reverse

end ElementHeap

structure GenericCircularBuffer where
  heap : ElementHeap
  head : ℕ
  tail : ℕ
  minBufferSize : ℕ
  maxBufferSize : ℕ
  currentMaxBufferSize : ℕ
  isGrowable : Bool
  currentSize : ℕ

namespace GenericCircularBuffer

/-- The link of the first element is `null` until the ring is closed. -/
def new (minBufferSize maxBufferSize : ℕ) (isGrowable : Bool) : GenericCircularBuffer :=
  let tail := ElementHeap.empty.count
  let built := (ElementHeap.empty.newElement 0).addElements (minBufferSize - 1) tail
  { heap := built.1.setNext tail built.2
    head := built.2
    tail := tail
    minBufferSize := minBufferSize
    maxBufferSize := maxBufferSize
    currentMaxBufferSize := minBufferSize
    isGrowable := isGrowable
    currentSize := minBufferSize }

variable (b : GenericCircularBuffer)

def isFull : Bool := decide (b.currentSize = b.currentMaxBufferSize)

def isEmpty : Bool := decide (b.currentSize = 2)

def append (newObject : ℕ) : Bool × GenericCircularBuffer :=
  if b.isFull then (false, b)
  else
    let tail := b.heap.next b.tail
    (true,
      { b with
        tail := tail
        heap := { b.heap with object := Function.update b.heap.object tail newObject }
        currentSize := b.currentSize + 1 })

/-- The number of elements that are added, `(int)(0.2*minBufferSize)`. -/
def numElementsAdded : ℕ := b.minBufferSize / 5

/-- The object at the head, and the pool without it. -/
def takeHead : ℕ × GenericCircularBuffer :=
  (b.heap.object b.head,
    { b with head := b.heap.next b.head, currentSize := b.currentSize - 1 })

/-- The pool with new elements behind the head. -/
def grown : GenericCircularBuffer :=
  let built := b.heap.addElements b.numElementsAdded (b.heap.next b.head)
  { b with
    heap := built.1.setNext b.head built.2
    currentMaxBufferSize := b.currentMaxBufferSize + b.numElementsAdded
    currentSize := b.currentSize + b.numElementsAdded }

/-- The call ends the program when the pool would grow beyond its bound, and also when it does
not grow at all, since it then calls itself again and again. -/
def removeObjectAtHead : Option (Option ℕ × GenericCircularBuffer) :=
  if b.isEmpty && !b.isGrowable then some (none, b)
  else if !b.isEmpty then some (some b.takeHead.1, b.takeHead.2)
  else if b.maxBufferSize < b.currentMaxBufferSize + b.numElementsAdded then none
  else if b.grown.isEmpty then none
  else some (some b.grown.takeHead.1, b.grown.takeHead.2)

/-- The objects of the elements from the head to the tail. -/
def freeObjects : List ℕ :=
  (pathTo b.heap.next b.tail b.heap.count b.head).map b.heap.object

end GenericCircularBuffer

/-- A pool, and the objects that its callers hold. -/
structure PoolUse where
  buffer : GenericCircularBuffer
  held : List ℕ

inductive PoolAction
  | removeObjectAtHead
  | append (newObject : ℕ)

/-- A caller takes an object, or returns one that is held. -/
def PoolUse.step (s : PoolUse) : PoolAction → Option PoolUse
  | .removeObjectAtHead =>
    s.buffer.removeObjectAtHead.map (fun r => ⟨r.2, r.1.toList ++ s.held⟩)
  | .append newObject =>
    if newObject ∈ s.held then
      some ⟨(s.buffer.append newObject).2, s.held.erase newObject⟩
    else none

namespace ElementHeap

variable {h : ElementHeap} {n temp : ℕ}

theorem mem_added {e : ℕ} : e ∈ h.added n ↔ h.count ≤ e ∧ e < h.count + n := by
  simp [added, List.mem_range'_1]

theorem added_succ (h : ElementHeap) (n next : ℕ) :
    h.added (n + 1) = (h.newElement next).added n ++ [h.count] := by
  rw [added, added, newElement, List.range'_succ, List.reverse_cons]

/-- What a loop of allocations leaves: the old elements as they were, new elements with new
objects, and a path through them to the old element. -/
structure AddsTo (h : ElementHeap) (n temp : ℕ) (r : ElementHeap × ℕ) : Prop where
  count : r.1.count = h.count + n
  next : ∀ e < h.count, r.1.next e = h.next e
  object : ∀ e < h.count, r.1.object e = h.object e
  fresh : ∀ e ∈ h.added n, r.1.object e = e
  path : ∀ next' : ℕ → ℕ, ∀ e, next' e = r.2 → (∀ a ∈ h.added n, next' a = r.1.next a) →
    Linked next' e (h.added n ++ [temp])

theorem addElements_spec (h : ElementHeap) (n temp : ℕ) :
    AddsTo h n temp (h.addElements n temp) := by
  induction n generalizing h temp with
  | zero =>
    refine ⟨rfl, fun _ _ => rfl, fun _ _ => rfl, by simp [added], fun next' e he _ => ?_⟩
    simpa [added, addElements] using he
  | succ n ih =>
    have hrest := ih (h.newElement temp) h.count
    have hnew : h.count < (h.newElement temp).count := Nat.lt_succ_self _
    have hold : ∀ e < h.count, e < (h.newElement temp).count :=
      fun e he => Nat.lt_succ_of_lt he
    rw [addElements]
    refine ⟨?_, fun e he => ?_, fun e he => ?_, fun e he => ?_, fun next' e he hagree => ?_⟩
    · have hcount : (h.newElement temp).count = h.count + 1 := rfl
      rw [hrest.count, hcount]
      omega
    · rw [hrest.next e (hold e he), newElement]
      exact Function.update_of_ne (Nat.ne_of_lt he) _ _
    · rw [hrest.object e (hold e he), newElement]
      exact Function.update_of_ne (Nat.ne_of_lt he) _ _
    · rw [added_succ h n temp, List.mem_append, List.mem_singleton] at he
      rcases he with he | rfl
      · exact hrest.fresh e he
      · rw [hrest.object _ hnew, newElement]
        exact Function.update_self _ _ _
    · rw [added_succ h n temp] at hagree ⊢
      rw [List.append_assoc, List.singleton_append, linked_append]
      have hlast : next' h.count = temp := by
        rw [hagree h.count (by simp), hrest.next _ hnew, newElement]
        exact Function.update_self _ _ _
      exact ⟨hrest.path next' e he (fun a ha => hagree a (List.mem_append_left _ ha)),
        hlast, trivial⟩

theorem added_perm (h : ElementHeap) (n : ℕ) : (h.added n).Perm (List.range' h.count n) :=
  List.reverse_perm _

/-- The old numbers and the new ones. -/
theorem range_perm_added (h : ElementHeap) (n : ℕ) :
    (List.range (h.count + n)).Perm (h.added n ++ List.range h.count) := by
  have hrange : List.range (h.count + n) = List.range h.count ++ List.range' h.count n := by
    rw [List.range_eq_range', ← List.range'_append_1, Nat.zero_add, List.range_eq_range']
  rw [hrange]
  exact List.perm_append_comm.trans ((h.added_perm n).symm.append_right _)

end ElementHeap

namespace GenericCircularBuffer

variable {b : GenericCircularBuffer} {held middle used : List ℕ}

/-- The ring: the head, the elements between it and the tail, the tail, and the elements whose
objects have been handed out. Every object that has been made is either in a free element or
held by a caller. -/
structure Arranged (b : GenericCircularBuffer) (held middle used : List ℕ) : Prop where
  growable : b.isGrowable = true
  minimum : 5 ≤ b.minBufferSize
  ring : Linked b.heap.next b.head (middle ++ b.tail :: (used ++ [b.head]))
  elements : (b.head :: (middle ++ b.tail :: used)).Perm (List.range b.heap.count)
  capacity : b.currentMaxBufferSize = b.heap.count
  size : b.currentSize = middle.length + 2
  objects : ((b.head :: (middle ++ [b.tail])).map b.heap.object ++ held).Perm
    (List.range b.heap.count)

namespace Arranged

theorem nodup (h : b.Arranged held middle used) : (b.head :: (middle ++ b.tail :: used)).Nodup :=
  h.elements.nodup_iff.mpr List.nodup_range

theorem length_eq (h : b.Arranged held middle used) :
    middle.length + 2 + used.length = b.heap.count := by
  have hlength := h.elements.length_eq
  simp only [List.length_cons, List.length_append, List.length_range] at hlength
  omega

theorem length_held (h : b.Arranged held middle used) : held.length = used.length := by
  have hlength := h.objects.length_eq
  have hring := h.length_eq
  simp only [List.length_map, List.length_cons, List.length_append, List.length_range,
    List.length_nil] at hlength
  omega

theorem freeObjects_eq (h : b.Arranged held middle used) :
    b.freeObjects = (b.head :: (middle ++ [b.tail])).map b.heap.object := by
  have hnodup := h.nodup
  have hpath : Linked b.heap.next b.head (middle ++ [b.tail]) := (linked_append.mp h.ring).1
  have hlast : b.tail ∉ b.head :: middle := by
    rw [← List.cons_append] at hnodup
    have hdisjoint := (List.nodup_append.mp hnodup).2.2
    intro hmem
    exact hdisjoint _ hmem _ List.mem_cons_self rfl
  rw [freeObjects, pathTo_eq hpath hlast (by have := h.length_eq; omega)]

/-- No free object is held, and no object is held twice. -/
theorem nodup_objects (h : b.Arranged held middle used) : (b.freeObjects ++ held).Nodup := by
  rw [h.freeObjects_eq]
  exact h.objects.nodup_iff.mpr List.nodup_range

theorem isEmpty_eq (h : b.Arranged held middle used) :
    b.isEmpty = decide (middle = []) := by
  rw [isEmpty, decide_eq_decide, h.size]
  rw [← List.length_eq_zero_iff]
  omega

/-- The head is taken, and its element joins the used ones. -/
theorem takeHead {m : ℕ} (h : b.Arranged held (m :: middle) used) :
    b.takeHead.2.Arranged (b.takeHead.1 :: held) middle (used ++ [b.head]) := by
  have hnext : b.heap.next b.head = m := h.ring.1
  have hring := h.ring
  have helements := h.elements
  have hobjects := h.objects
  have hhead : b.takeHead.2.head = m := hnext
  refine ⟨h.growable, h.minimum, ?_, ?_, h.capacity, ?_, ?_⟩
  · rw [hhead]
    have hrest : Linked b.heap.next m (middle ++ b.tail :: (used ++ [b.head])) := hring.2
    have hlist : middle ++ b.tail :: (used ++ [b.head] ++ [m]) =
        (middle ++ b.tail :: used) ++ b.head :: [m] := by simp
    have hlast : middle ++ b.tail :: (used ++ [b.head]) =
        (middle ++ b.tail :: used) ++ [b.head] := by simp
    rw [hlast] at hrest
    exact hlist ▸ linked_append.mpr ⟨hrest, hnext, trivial⟩
  · rw [hhead]
    refine List.Perm.trans ?_ helements
    have hlist : m :: (middle ++ b.tail :: (used ++ [b.head])) =
        (m :: (middle ++ b.tail :: used)) ++ [b.head] := by simp
    have hcons : b.head :: (m :: middle ++ b.tail :: used) =
        [b.head] ++ (m :: (middle ++ b.tail :: used)) := by simp
    exact hlist ▸ hcons ▸ List.perm_append_comm
  · rw [GenericCircularBuffer.takeHead]
    dsimp only
    rw [h.size, List.length_cons]
    rfl
  · rw [hhead]
    refine List.Perm.trans ?_ hobjects
    exact List.perm_middle

/-- An object that is held replaces a stale reference behind the tail. -/
theorem append {newObject : ℕ} (h : b.Arranged held middle used) (hmem : newObject ∈ held) :
    (b.append newObject).1 = true ∧ ∃ middle' used',
      (b.append newObject).2.Arranged (held.erase newObject) middle' used' := by
  have hlength := h.length_eq
  have hheld := h.length_held
  have hpos := List.length_pos_of_mem hmem
  have hfull : b.isFull = false := by
    rw [isFull, h.size, h.capacity]
    exact decide_eq_false (by omega)
  have happend : b.append newObject = (true,
      { b with
        tail := b.heap.next b.tail
        heap := { b.heap with
          object := Function.update b.heap.object (b.heap.next b.tail) newObject }
        currentSize := b.currentSize + 1 }) := by
    rw [GenericCircularBuffer.append, hfull]
    rfl
  rw [happend]
  obtain ⟨u, used, rfl⟩ := List.exists_cons_of_ne_nil (List.ne_nil_of_length_pos
    (show 0 < used.length by omega))
  have hnext : b.heap.next b.tail = u := (linked_append.mp h.ring).2.1
  have hlist : middle ++ [b.tail] ++ u :: (used ++ [b.head]) =
      middle ++ b.tail :: (u :: used ++ [b.head]) := by simp
  have helements : b.head :: (middle ++ [b.tail] ++ u :: used) =
      b.head :: (middle ++ b.tail :: u :: used) := by simp
  have hfresh : u ∉ b.head :: (middle ++ [b.tail]) := by
    have hnodup := h.nodup
    rw [← helements, ← List.cons_append] at hnodup
    intro hu
    exact (List.nodup_append.mp hnodup).2.2 _ hu _ List.mem_cons_self rfl
  refine ⟨rfl, middle ++ [b.tail], used, h.growable, h.minimum, ?_, ?_, h.capacity, ?_, ?_⟩
  · simp only [hnext]
    exact hlist ▸ h.ring
  · simp only [hnext]
    exact helements ▸ h.elements
  · simp [h.size]
  · simp only [hnext]
    have hsame : (b.head :: (middle ++ [b.tail])).map
        (Function.update b.heap.object u newObject) =
        (b.head :: (middle ++ [b.tail])).map b.heap.object := by
      refine List.map_congr_left (fun e he => ?_)
      exact Function.update_of_ne (fun heq : e = u => hfresh (heq ▸ he)) _ _
    rw [← List.cons_append, List.map_append, hsame, List.map_singleton, Function.update_self,
      List.append_assoc, List.singleton_append]
    exact ((List.perm_cons_erase hmem).symm.append_left _).trans h.objects

theorem lt_count (h : b.Arranged held middle used) {e : ℕ}
    (he : e ∈ b.head :: (middle ++ b.tail :: used)) : e < b.heap.count :=
  List.mem_range.mp (h.elements.mem_iff.mp he)

/-- The objects of the elements from the head to the tail, after new ones are spliced in. -/
theorem map_object_grown (h : b.Arranged held [] used) :
    (b.head :: (b.heap.added b.numElementsAdded ++ [b.tail])).map b.grown.heap.object =
      b.heap.object b.head :: (b.heap.added b.numElementsAdded ++ [b.heap.object b.tail]) := by
  have hadds := b.heap.addElements_spec b.numElementsAdded (b.heap.next b.head)
  have hobject : b.grown.heap.object =
      (b.heap.addElements b.numElementsAdded (b.heap.next b.head)).1.object := rfl
  have hnew : (b.heap.added b.numElementsAdded).map b.grown.heap.object =
      b.heap.added b.numElementsAdded := by
    rw [hobject]
    exact (List.map_congr_left hadds.fresh).trans (List.map_id' _)
  rw [List.map_cons, List.map_append, List.map_singleton, hnew, hobject,
    hadds.object _ (h.lt_count (by simp)), hadds.object _ (h.lt_count (by simp))]

/-- New elements come between the head and the tail. -/
theorem grown (h : b.Arranged held [] used) :
    b.grown.Arranged held (b.heap.added b.numElementsAdded) used := by
  have hadds := b.heap.addElements_spec b.numElementsAdded (b.heap.next b.head)
  have hnext : b.heap.next b.head = b.tail := h.ring.1
  have hcount : b.grown.heap.count = b.heap.count + b.numElementsAdded := hadds.count
  have hlink : ∀ e < b.heap.count, e ≠ b.head → b.grown.heap.next e = b.heap.next e := by
    intro e he hne
    exact (Function.update_of_ne hne _ _).trans (hadds.next e he)
  have hhead : b.head < b.heap.count := h.lt_count List.mem_cons_self
  have hrange := b.heap.range_perm_added b.numElementsAdded
  refine ⟨h.growable, h.minimum, ?_, ?_, ?_, ?_, ?_⟩
  · refine linked_append.mpr ⟨?_, ?_⟩
    · have hpath : Linked b.grown.heap.next b.head
          (b.heap.added b.numElementsAdded ++ [b.heap.next b.head]) := by
        refine hadds.path _ _ (Function.update_self _ _ _) (fun a ha => ?_)
        have hge := (ElementHeap.mem_added.mp ha).1
        exact Function.update_of_ne (by omega) _ _
      rwa [hnext] at hpath
    · have hrest : Linked b.heap.next b.tail (used ++ [b.head]) := h.ring.2
      refine hrest.congr (fun a ha => hlink a (h.lt_count (List.mem_cons_of_mem _ ha)) ?_)
      have hnodup := (List.nodup_cons.mp h.nodup).1
      exact fun heq => hnodup (heq ▸ ha)
  · rw [hcount]
    exact (List.perm_middle.symm.trans (h.elements.append_left _)).trans hrange.symm
  · rw [hcount, ← h.capacity]
    rfl
  · have hlength : (b.heap.added b.numElementsAdded).length = b.numElementsAdded := by
      simp [ElementHeap.added]
    have hsize := h.size
    simp only [List.length_nil] at hsize
    rw [hlength]
    simp only [GenericCircularBuffer.grown, hsize]
    omega
  · rw [hcount, show b.grown.head = b.head from rfl, show b.grown.tail = b.tail from rfl,
      h.map_object_grown]
    refine List.Perm.trans ?_ hrange.symm
    have hobjects := h.objects
    simp only [List.nil_append, List.map_cons, List.map_nil, List.cons_append] at hobjects
    rw [List.cons_append, List.append_assoc]
    exact List.perm_middle.symm.trans (hobjects.append_left _)

end Arranged

/-- The elements of a new pool behind its tail. -/
def firstElements (minBufferSize : ℕ) : List ℕ :=
  (ElementHeap.empty.newElement 0).added (minBufferSize - 1)

/-- The ring of a new pool: the elements that are made behind the tail, the last one first. -/
theorem arranged_new {minBufferSize : ℕ} (maxBufferSize : ℕ) (hmin : 5 ≤ minBufferSize) :
    ∃ middle, (new minBufferSize maxBufferSize true).Arranged [] middle [] := by
  have hadds := (ElementHeap.empty.newElement 0).addElements_spec (minBufferSize - 1) 0
  have hrange := (ElementHeap.empty.newElement 0).range_perm_added (minBufferSize - 1)
  have hone : (ElementHeap.empty.newElement 0).count = 1 := rfl
  have hcount : (new minBufferSize maxBufferSize true).heap.count = 1 + (minBufferSize - 1) :=
    hadds.count
  have hclosed : (new minBufferSize maxBufferSize true).heap.next 0 =
      (new minBufferSize maxBufferSize true).head := by
    simp [new, ElementHeap.setNext, ElementHeap.empty]
  have hpath : Linked (new minBufferSize maxBufferSize true).heap.next 0
      (firstElements minBufferSize ++ [0]) := by
    refine hadds.path _ _ hclosed (fun a ha => ?_)
    have hge : 1 ≤ a := (ElementHeap.mem_added.mp ha).1
    exact Function.update_of_ne (Nat.ne_of_gt hge) _ _
  have hobject : (new minBufferSize maxBufferSize true).heap.object 0 = 0 :=
    hadds.object 0 (by omega)
  have hobjects : (firstElements minBufferSize).map
      (new minBufferSize maxBufferSize true).heap.object = firstElements minBufferSize :=
    (List.map_congr_left hadds.fresh).trans (List.map_id' _)
  have hlength : (firstElements minBufferSize).length = minBufferSize - 1 := by
    simp [firstElements, ElementHeap.added]
  have hperm : (firstElements minBufferSize ++ [0]).Perm
      (List.range (new minBufferSize maxBufferSize true).heap.count) := by
    rw [hcount]
    exact hrange.symm
  obtain ⟨first, middle, hfirst⟩ := List.exists_cons_of_ne_nil
    (List.ne_nil_of_length_pos (by omega : 0 < (firstElements minBufferSize).length))
  rw [hfirst] at hpath hlength hperm hobjects
  have hhead : (new minBufferSize maxBufferSize true).head = first := hclosed.symm.trans hpath.1
  refine ⟨middle, rfl, hmin, ?_, ?_, ?_, ?_, ?_⟩
  · refine linked_append.mpr ⟨?_, hclosed, trivial⟩
    rw [hhead]
    exact hpath.2
  · rw [hhead]
    exact hperm
  · rw [hcount]
    exact (Nat.add_sub_cancel' (by omega : 1 ≤ minBufferSize)).symm
  · simp only [List.length_cons] at hlength
    show minBufferSize = middle.length + 2
    omega
  · rw [hhead, List.append_nil]
    refine List.Perm.trans (List.Perm.of_eq ?_) hperm
    rw [← List.cons_append, List.map_append, hobjects]
    exact congrArg _ (congrArg (fun o => [o]) hobject)

/-- Only the object at the head is gone. -/
theorem Arranged.cons_freeObjects {m : ℕ} (h : b.Arranged held (m :: middle) used) :
    b.takeHead.1 :: b.takeHead.2.freeObjects = b.freeObjects := by
  have hhead : b.takeHead.2.head = m := h.ring.1
  rw [h.freeObjects_eq, h.takeHead.freeObjects_eq, hhead]
  rfl

/-- The object at the head is handed out. With two free objects left, new ones are added
first. -/
theorem Arranged.removeObjectAtHead (h : b.Arranged held middle used)
    {r : Option ℕ × GenericCircularBuffer} (hr : b.removeObjectAtHead = some r) :
    r.1 = some (b.heap.object b.head) ∧
      (∃ middle' used', r.2.Arranged (b.heap.object b.head :: held) middle' used') ∧
      ∃ fresh, (b.heap.object b.head :: r.2.freeObjects).Perm (fresh ++ b.freeObjects) ∧
        fresh.Perm (List.range' b.heap.count (r.2.heap.count - b.heap.count)) := by
  have hempty := h.isEmpty_eq
  rw [GenericCircularBuffer.removeObjectAtHead, h.growable] at hr
  cases middle with
  | nil =>
    -- two free objects are left
    have hgrown := h.grown
    have hcount : b.grown.heap.count = b.heap.count + b.numElementsAdded :=
      (b.heap.addElements_spec _ _).count
    have hpos : 0 < b.numElementsAdded := Nat.div_pos h.minimum (by decide)
    obtain ⟨first, rest, hadded⟩ := List.exists_cons_of_ne_nil
      (show b.heap.added b.numElementsAdded ≠ [] by
        refine List.ne_nil_of_length_pos ?_
        simpa [ElementHeap.added] using hpos)
    have hobject : b.grown.takeHead.1 = b.heap.object b.head :=
      (b.heap.addElements_spec _ _).object _ (h.lt_count List.mem_cons_self)
    have hnotEmpty : b.grown.isEmpty = false := by
      rw [hgrown.isEmpty_eq, hadded]
      rfl
    rw [hempty, hnotEmpty] at hr
    simp only [Bool.not_true, Bool.and_false, Bool.false_eq_true, if_false, decide_true] at hr
    split at hr
    · cases hr
    · cases hr
      have hfree := hgrown.freeObjects_eq
      rw [show b.grown.head = b.head from rfl, show b.grown.tail = b.tail from rfl,
        h.map_object_grown] at hfree
      rw [hadded] at hgrown
      have htaken := hgrown.takeHead
      have hcons := hgrown.cons_freeObjects
      rw [hobject] at htaken hcons
      refine ⟨congrArg some hobject, ⟨_, _, htaken⟩, b.heap.added b.numElementsAdded, ?_, ?_⟩
      · rw [hcons, hfree, h.freeObjects_eq]
        exact List.perm_middle.symm
      · have hadd : b.grown.takeHead.2.heap.count - b.heap.count = b.numElementsAdded := by
          rw [show b.grown.takeHead.2.heap.count = b.grown.heap.count from rfl, hcount]
          omega
        rw [hadd]
        exact b.heap.added_perm _
  | cons m middle =>
    rw [hempty] at hr
    simp only [reduceCtorEq, decide_false, Bool.not_true, Bool.and_false, Bool.false_eq_true,
      if_false, Bool.not_false, if_true, Option.some.injEq] at hr
    cases hr
    refine ⟨rfl, ⟨_, _, h.takeHead⟩, [], ?_, ?_⟩
    · exact List.Perm.of_eq h.cons_freeObjects
    · rw [show b.takeHead.2.heap.count = b.heap.count from rfl, Nat.sub_self]
      exact List.Perm.nil

/-- Every step of the callers keeps the ring in order. -/
theorem arranged_step {s s' : PoolUse} {a : PoolAction}
    (h : ∃ middle used, s.buffer.Arranged s.held middle used) (hstep : s.step a = some s') :
    ∃ middle used, s'.buffer.Arranged s'.held middle used := by
  obtain ⟨middle, used, h⟩ := h
  cases a with
  | removeObjectAtHead =>
    obtain ⟨r, hr, rfl⟩ := Option.map_eq_some_iff.mp hstep
    obtain ⟨hobject, harranged, -⟩ := h.removeObjectAtHead hr
    rw [hobject]
    exact harranged
  | append newObject =>
    obtain ⟨hmem, heq⟩ := Option.ite_none_right_eq_some.mp hstep
    cases heq
    exact (h.append hmem).2

/-- In every run of callers that return what they hold, each object that was made is free or
held, and only once. The size counts the free objects. An object that is handed out is not held
already; with it go no free objects, and the ones that come are new. What is held can be
returned. -/
theorem pool_of_run {minBufferSize maxBufferSize : ℕ} (hmin : 5 ≤ minBufferSize)
    {actions : List PoolAction} {s : PoolUse}
    (run : Run (StepOf PoolUse.step) ⟨new minBufferSize maxBufferSize true, []⟩ actions s) :
    (s.buffer.freeObjects ++ s.held).Perm (List.range s.buffer.heap.count) ∧
      s.buffer.currentSize = s.buffer.freeObjects.length ∧
      (∀ r, s.buffer.removeObjectAtHead = some r →
        ∃ o, r.1 = some o ∧ o ∉ s.held ∧
          ∃ fresh, (o :: r.2.freeObjects).Perm (fresh ++ s.buffer.freeObjects) ∧
            fresh.Perm (List.range' s.buffer.heap.count
              (r.2.heap.count - s.buffer.heap.count))) ∧
      ∀ o ∈ s.held, (s.buffer.append o).1 = true := by
  obtain ⟨middle, used, h⟩ := run.invariant
    (I := fun s : PoolUse => ∃ middle used, s.buffer.Arranged s.held middle used)
    ((arranged_new maxBufferSize hmin).imp (fun _ h => ⟨[], h⟩))
    (fun s a t hs hstep => arranged_step hs hstep)
  refine ⟨?_, ?_, fun r hr => ?_, fun o ho => (h.append ho).1⟩
  · rw [h.freeObjects_eq]
    exact h.objects
  · rw [h.freeObjects_eq, h.size]
    simp
  · obtain ⟨hobject, -, hfresh⟩ := h.removeObjectAtHead hr
    refine ⟨_, hobject, ?_, hfresh⟩
    have hfirst : s.buffer.heap.object s.buffer.head ∈ s.buffer.freeObjects := by
      rw [h.freeObjects_eq]
      exact List.mem_cons_self
    intro hheld
    exact (List.nodup_append.mp h.nodup_objects).2.2 _ hfirst _ hheld rfl

theorem pool_of_run_grown :
    ∃ s, Run (StepOf PoolUse.step) ⟨new 5 10 true, []⟩
        [.removeObjectAtHead, .removeObjectAtHead, .removeObjectAtHead, .removeObjectAtHead,
          .append 3] s ∧
      (s.buffer.freeObjects ++ s.held).Perm (List.range s.buffer.heap.count) := by
  have run : Run (StepOf PoolUse.step) ⟨new 5 10 true, []⟩
      [.removeObjectAtHead, .removeObjectAtHead, .removeObjectAtHead, .removeObjectAtHead,
        .append 3] _ := run_of_exec rfl
  exact ⟨_, run, (pool_of_run (by decide) run).1⟩

end GenericCircularBuffer

end Tejas
