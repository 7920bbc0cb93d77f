import Tejas.LabelledRuns
import Mathlib

/-!
# The event queue

`EventQueue.java` is a wheel of `queueSize` lists with a moving head. An event is
put at its distance from the clock, and `processEvents` empties the list at the
head and moves the head on. One cycle adds events before, during and after
`processEvents` and then increments the clock.

Two fields of a queued event and two of the state record the history of a run.
The queue never reads them.
-/

namespace Tejas
open LabelledRuns

def queueSize : ℕ := 1024

/-- The Java cast `(int)`, and the overflow of an `int` sum. -/
def toInt (x : ℤ) : ℤ := x.bmod (2 ^ 32)

theorem queueSize_eq : (queueSize : ℤ) = 1024 := rfl

theorem toInt_eq (x : ℤ) : toInt x = (x + 2147483648) % 4294967296 - 2147483648 := by
  simp only [toInt, Int.bmod_def]
  omega

structure Event where
  id : ℕ
  eventTime : ℤ
  deriving DecidableEq, Repr

/-- Where a cycle stands with respect to its call of `processEvents`. -/
inductive Phase where
  | before
  | during
  | after
  deriving DecidableEq, Repr

/-- An event together with the clock and the phase when it was added. -/
structure QueuedEvent where
  event : Event
  addedAt : ℤ
  addedIn : Phase
  deriving DecidableEq, Repr

structure EventQueue where
  slots : ℕ → List QueuedEvent
  head : ℕ

namespace EventQueue

def empty : EventQueue := ⟨fun _ => [], 0⟩

/-- `getIndex`: an `int` sum and the Java remainder, which keeps the sign. -/
def getIndex (q : EventQueue) (index : ℤ) : ℤ := (toInt (q.head + index)).tmod queueSize

/-- `addEvent`; `none` is the exception of a negative array index. -/
def addEvent (q : EventQueue) (currentTime : ℤ) (e : QueuedEvent) : Option EventQueue :=
  let index :=
    if e.event.eventTime < currentTime then q.getIndex 0
    else q.getIndex (toInt (e.event.eventTime - currentTime))
  if index < 0 then none
  else some { q with slots := Function.update q.slots index.toNat (q.slots index.toNat ++ [e]) }

/-- `head = (head + 1) % queueSize`. -/
def advance (q : EventQueue) : EventQueue := { q with head := (q.head + 1) % queueSize }

/-- The events in the wheel. -/
def pending (q : EventQueue) : List QueuedEvent := (List.range queueSize).flatMap q.slots

end EventQueue

structure QueueState where
  queue : EventQueue
  currentTime : ℤ
  phase : Phase
  added : List QueuedEvent
  handled : List (QueuedEvent × ℤ)

inductive QueueAction where
  | addEvent (e : Event)
  | beginProcessEvents
  | handleFirst
  | endProcessEvents
  | incrementClock
  deriving DecidableEq, Repr

namespace QueueState

def initial : QueueState := ⟨.empty, 0, .before, [], []⟩

def stamp (s : QueueState) (e : Event) : QueuedEvent := ⟨e, s.currentTime, s.phase⟩

/-- One step of a cycle. A handler may add events after it is called, so its additions
are steps of their own. -/
def next (s : QueueState) : QueueAction → Option QueueState
  | .addEvent e =>
    (s.queue.addEvent s.currentTime (s.stamp e)).map (fun q =>
      { s with queue := q, added := s.added ++ [s.stamp e] })
  | .beginProcessEvents =>
    if s.phase = .before then some { s with phase := .during } else none
  | .handleFirst =>
    if s.phase = .during then
      match s.queue.slots s.queue.head with
      | [] => none
      | e :: rest =>
        some { s with
          queue := { s.queue with slots := Function.update s.queue.slots s.queue.head rest }
          handled := s.handled ++ [(e, s.currentTime)] }
    else none
  | .endProcessEvents =>
    if s.phase = .during ∧ s.queue.slots s.queue.head = [] then
      some { s with queue := s.queue.advance, phase := .after }
    else none
  | .incrementClock =>
    if s.phase = .after then some { s with currentTime := s.currentTime + 1, phase := .before }
    else none

/-- The time of the next `processEvents` that empties the list at the head. -/
def headTime (s : QueueState) : ℤ :=
  if s.phase = .after then s.currentTime + 1 else s.currentTime

end QueueState

namespace QueuedEvent

/-- The event was not yet late when it was added. -/
def Punctual (e : QueuedEvent) : Prop := e.addedAt ≤ e.event.eventTime

/-- The cycle whose `processEvents` must handle the event. -/
def due (e : QueuedEvent) : ℤ :=
  if e.addedIn = .after ∧ e.event.eventTime = e.addedAt then e.addedAt + 1
  else e.event.eventTime

/-- Up to `processEvents` the wheel reaches `queueSize - 1` cycles ahead; after it,
only an event for the current cycle finds its place. -/
def InReach (e : QueuedEvent) : Prop :=
  if e.addedIn = .after then e.event.eventTime = e.addedAt
  else e.event.eventTime < e.addedAt + queueSize

instance (e : QueuedEvent) : Decidable e.Punctual := inferInstanceAs (Decidable (_ ≤ _))

instance (e : QueuedEvent) : Decidable e.InReach := inferInstanceAs (Decidable (ite _ _ _))

/-- The distance of the list the event is put in from the list at the head. -/
def distance (e : QueuedEvent) : ℤ :=
  if e.event.eventTime < e.addedAt then 0 else (e.event.eventTime - e.addedAt) % queueSize

/-- The time the wheel hands the event out. -/
def fireTime (e : QueuedEvent) : ℤ :=
  (if e.addedIn = .after then e.addedAt + 1 else e.addedAt) + e.distance

theorem distance_nonneg (e : QueuedEvent) : 0 ≤ e.distance := by
  unfold distance queueSize
  split <;> omega

theorem distance_lt (e : QueuedEvent) : e.distance < queueSize := by
  unfold distance queueSize
  split <;> omega

/-- The wheel hands an event out when it is due exactly if it is in reach. -/
theorem fireTime_eq_due_iff (e : QueuedEvent) (h : e.Punctual) :
    e.fireTime = e.due ↔ e.InReach := by
  have hlate : ¬ e.event.eventTime < e.addedAt := Int.not_lt.mpr h
  unfold Punctual at h
  by_cases hafter : e.addedIn = .after
  · simp only [fireTime, due, InReach, distance, hafter, hlate, queueSize, true_and, if_true,
      if_false]
    split <;> omega
  · simp only [fireTime, due, InReach, distance, hafter, hlate, queueSize, false_and, if_false]
    omega

end QueuedEvent

namespace EventQueue

/-- An index that raises no exception counts from the head round the wheel. -/
theorem getIndex_eq (q : EventQueue) (d : ℤ) (h : 0 ≤ q.getIndex (toInt d)) :
    q.getIndex (toInt d) = (q.head + d) % queueSize := by
  have hcast : toInt (q.head + toInt d) % 1024 = (q.head + d) % 1024 := by
    simp only [toInt_eq]
    omega
  unfold getIndex at h ⊢
  rw [queueSize_eq] at h ⊢
  rw [← hcast]
  rw [Int.tmod_eq_emod] at h ⊢
  split at h
  · rename_i hexact
    simp [hexact]
  · omega

theorem addEvent_eq_some {q q' : EventQueue} {currentTime : ℤ} {e : QueuedEvent}
    (hat : e.addedAt = currentTime) (h : q.addEvent currentTime e = some q') :
    ∃ i : ℕ, (i : ℤ) = (q.head + e.distance) % queueSize ∧
      q' = { q with slots := Function.update q.slots i (q.slots i ++ [e]) } := by
  subst hat
  by_cases hlate : e.event.eventTime < e.addedAt
  · simp only [addEvent, hlate, if_true, Option.ite_none_left_eq_some, Option.some.injEq] at h
    obtain ⟨hindex, rfl⟩ := h
    have hzero : q.getIndex 0 = q.getIndex (toInt 0) := rfl
    refine ⟨_, ?_, rfl⟩
    rw [Int.toNat_of_nonneg (Int.not_lt.mp hindex), hzero,
      getIndex_eq q 0 (Int.not_lt.mp hindex)]
    simp [QueuedEvent.distance, hlate]
  · simp only [addEvent, hlate, if_false, Option.ite_none_left_eq_some, Option.some.injEq] at h
    obtain ⟨hindex, rfl⟩ := h
    refine ⟨_, ?_, rfl⟩
    rw [Int.toNat_of_nonneg (Int.not_lt.mp hindex), getIndex_eq q _ (Int.not_lt.mp hindex)]
    simp [QueuedEvent.distance, hlate]

/-- No exception while the distance stays below the size of the wheel. -/
theorem addEvent_isSome (q : EventQueue) {currentTime : ℤ} {e : QueuedEvent}
    (hhead : q.head < queueSize) (hlow : currentTime ≤ e.event.eventTime)
    (hhigh : e.event.eventTime < currentTime + queueSize) :
    (q.addEvent currentTime e).isSome := by
  have hlate : ¬ e.event.eventTime < currentTime := Int.not_lt.mpr hlow
  have hsum : 0 ≤ toInt (q.head + toInt (e.event.eventTime - currentTime)) := by
    simp only [toInt_eq, queueSize] at *
    omega
  have hindex : ¬ q.getIndex (toInt (e.event.eventTime - currentTime)) < 0 :=
    Int.not_lt.mpr (Int.tmod_nonneg _ hsum)
  simp [addEvent, hlate, hindex]

end EventQueue

/-! ## The wheel hands every event out at its fire time -/

namespace QueueState

/-- Exchanging one list of the wheel changes the waiting events by that list. -/
theorem flatMap_update_perm (f : ℕ → List QueuedEvent) {n i : ℕ} (hi : i < n)
    (l : List QueuedEvent) :
    ((List.range n).flatMap (Function.update f i l)).Perm
      (l ++ (List.range n).flatMap (Function.update f i [])) := by
  induction n with
  | zero => omega
  | succ n ih =>
    simp only [List.range_succ, List.flatMap_append, List.flatMap_singleton]
    by_cases hin : i = n
    · subst hin
      have houtside : ∀ l', (List.range i).flatMap (Function.update f i l') =
          (List.range i).flatMap f := by
        intro l'
        apply List.flatMap_congr
        intro j hj
        rw [Function.update_of_ne (Nat.ne_of_lt (List.mem_range.mp hj))]
      simpa [houtside] using List.perm_append_comm
    · have hne : n ≠ i := fun h => hin h.symm
      simpa [hne, List.append_assoc] using (ih (by omega)).append_right (f n)

structure Wheel (s : QueueState) : Prop where
  head_lt : s.queue.head < queueSize
  /-- A waiting event lies as far from the head as its fire time from the next turn. -/
  waits : ∀ j < queueSize, ∀ e ∈ s.queue.slots j,
    e.fireTime = s.headTime + ((j : ℤ) - s.queue.head) % queueSize
  fired : ∀ e t, (e, t) ∈ s.handled → t = e.fireTime
  /-- Nothing is lost and nothing is handled twice. -/
  conserved : (s.handled.map Prod.fst ++ s.queue.pending).Perm s.added

theorem Wheel.addEvent {s t : QueueState} {e : Event} (h : Wheel s)
    (hs : next s (.addEvent e) = some t) : Wheel t := by
  obtain ⟨q, hq, rfl⟩ := Option.map_eq_some_iff.mp hs
  obtain ⟨i, hi, rfl⟩ := EventQueue.addEvent_eq_some rfl hq
  have hilt : i < queueSize := by
    have := Int.emod_lt_of_pos (s.queue.head + (s.stamp e).distance) (b := queueSize) (by decide)
    omega
  refine ⟨h.head_lt, ?_, h.fired, ?_⟩
  · intro j hj x hx
    by_cases hji : j = i
    · subst hji
      simp only [Function.update_self, List.mem_append, List.mem_singleton] at hx
      rcases hx with hx | rfl
      · exact h.waits j hj x hx
      · have hlow := (s.stamp e).distance_nonneg
        have hhigh := (s.stamp e).distance_lt
        simp only [queueSize_eq] at hi hhigh ⊢
        have hplace : ((j : ℤ) - s.queue.head) % 1024 = (s.stamp e).distance := by omega
        rw [hplace]
        rfl
    · exact h.waits j hj x (by simpa [hji] using hx)
  · have hnew := flatMap_update_perm s.queue.slots hilt (s.queue.slots i ++ [s.stamp e])
    have hold := flatMap_update_perm s.queue.slots hilt (s.queue.slots i)
    rw [Function.update_eq_self] at hold
    have hpending : (EventQueue.pending { s.queue with
        slots := Function.update s.queue.slots i (s.queue.slots i ++ [s.stamp e]) }).Perm
        (s.queue.pending ++ [s.stamp e]) := by
      refine hnew.trans ?_
      rw [List.append_assoc]
      exact (List.perm_append_comm.append_left _).trans
        (by rw [← List.append_assoc]; exact (hold.symm.append_right _))
    have hall := hpending.append_left (s.handled.map Prod.fst)
    rw [← List.append_assoc] at hall
    exact hall.trans (h.conserved.append_right _)

theorem Wheel.beginProcessEvents {s t : QueueState} (h : Wheel s)
    (hs : next s .beginProcessEvents = some t) : Wheel t := by
  simp only [next, Option.ite_none_right_eq_some, Option.some.injEq] at hs
  obtain ⟨hphase, rfl⟩ := hs
  refine ⟨h.head_lt, fun j hj e he => ?_, h.fired, h.conserved⟩
  simpa [headTime, hphase] using h.waits j hj e he

theorem Wheel.handleFirst {s t : QueueState} (h : Wheel s)
    (hs : next s .handleFirst = some t) : Wheel t := by
  simp only [next, Option.ite_none_right_eq_some] at hs
  obtain ⟨hphase, hs⟩ := hs
  cases hslot : s.queue.slots s.queue.head with
  | nil => simp [hslot] at hs
  | cons e rest =>
    simp only [hslot, Option.some.injEq] at hs
    subst hs
    have hfire : e.fireTime = s.currentTime := by
      have hwait := h.waits s.queue.head h.head_lt e (by rw [hslot]; exact List.mem_cons_self)
      rw [Int.sub_self, Int.zero_emod] at hwait
      simpa [headTime, hphase] using hwait
    refine ⟨h.head_lt, fun j hj x hx => ?_, ?_, ?_⟩
    · by_cases hj' : j = s.queue.head
      · subst hj'
        have hx' : x ∈ s.queue.slots s.queue.head := by
          simp only [Function.update_self] at hx
          simp [hslot, hx]
        exact h.waits _ hj x hx'
      · exact h.waits j hj x (by simpa [hj'] using hx)
    · intro x t hx
      rcases List.mem_append.mp hx with hx | hx
      · exact h.fired x t hx
      · obtain ⟨rfl, rfl⟩ := Prod.mk.inj (List.mem_singleton.mp hx)
        exact hfire.symm
    · have hnew := flatMap_update_perm s.queue.slots h.head_lt rest
      have hold := flatMap_update_perm s.queue.slots h.head_lt (s.queue.slots s.queue.head)
      rw [Function.update_eq_self, hslot] at hold
      have hpending : s.queue.pending.Perm (e :: EventQueue.pending { s.queue with
          slots := Function.update s.queue.slots s.queue.head rest }) :=
        hold.trans (hnew.symm.cons e)
      have hall := hpending.symm.append_left (s.handled.map Prod.fst)
      rw [List.append_cons] at hall
      refine List.Perm.trans ?_ (hall.trans h.conserved)
      rw [List.map_append]
      rfl

theorem Wheel.endProcessEvents {s t : QueueState} (h : Wheel s)
    (hs : next s .endProcessEvents = some t) : Wheel t := by
  simp only [next, Option.ite_none_right_eq_some, Option.some.injEq] at hs
  obtain ⟨⟨hphase, hempty⟩, rfl⟩ := hs
  refine ⟨Nat.mod_lt _ (by decide), fun j hj e he => ?_, h.fired, h.conserved⟩
  have hne : j ≠ s.queue.head := by
    rintro rfl
    simp [EventQueue.advance, hempty] at he
  have hwait := h.waits j hj e he
  have hhead := h.head_lt
  simp only [headTime, hphase, EventQueue.advance, queueSize, if_true] at hwait hhead hj ⊢
  simp only [reduceCtorEq, if_false] at hwait
  omega

theorem Wheel.incrementClock {s t : QueueState} (h : Wheel s)
    (hs : next s .incrementClock = some t) : Wheel t := by
  simp only [next, Option.ite_none_right_eq_some, Option.some.injEq] at hs
  obtain ⟨hphase, rfl⟩ := hs
  refine ⟨h.head_lt, fun j hj e he => ?_, h.fired, h.conserved⟩
  simpa [headTime, hphase] using h.waits j hj e he

theorem wheel_initial : Wheel initial := by
  refine ⟨by simp [initial, EventQueue.empty, queueSize], ?_, ?_, ?_⟩
  · simp [initial, EventQueue.empty]
  · simp [initial]
  · simp [initial, EventQueue.pending, EventQueue.empty]

theorem wheel_step (s : QueueState) (a : QueueAction) (t : QueueState) (h : Wheel s)
    (hs : StepOf next s a t) : Wheel t := by
  cases a with
  | addEvent e => exact h.addEvent hs
  | beginProcessEvents => exact h.beginProcessEvents hs
  | handleFirst => exact h.handleFirst hs
  | endProcessEvents => exact h.endProcessEvents hs
  | incrementClock => exact h.incrementClock hs

theorem wheel_run {labels : List QueueAction} {s : QueueState}
    (run : Run (StepOf next) initial labels s) : Wheel s :=
  run.invariant wheel_initial wheel_step

/-- A waiting event fires no earlier than the next turn of the wheel. -/
theorem Wheel.headTime_le {s : QueueState} (h : Wheel s) {e : QueuedEvent}
    (he : e ∈ s.queue.pending) : s.headTime ≤ e.fireTime := by
  obtain ⟨j, hj, hej⟩ := List.mem_flatMap.mp he
  rw [h.waits j (List.mem_range.mp hj) e hej, queueSize_eq]
  omega

/-- In every run no event is lost or handled twice, and an event that was not late
when added is handled in the turn it is due exactly if it was in reach. An event in
reach is never refused, and while it waits its turn has not passed. -/
theorem handled_when_due_iff_inReach {labels : List QueueAction} {s : QueueState}
    (run : Run (StepOf next) initial labels s) :
    (s.handled.map Prod.fst ++ s.queue.pending).Perm s.added ∧
    (∀ e t, (e, t) ∈ s.handled → e.Punctual → (t = e.due ↔ e.InReach)) ∧
    (∀ e ∈ s.queue.pending, e.Punctual → e.InReach → s.headTime ≤ e.due) ∧
    (∀ e : Event, (s.stamp e).Punctual → (s.stamp e).InReach →
      (next s (.addEvent e)).isSome) := by
  have h := wheel_run run
  refine ⟨h.conserved, fun e t he hpunctual => ?_, fun e he hpunctual hreach => ?_,
    fun e hpunctual hreach => ?_⟩
  · rw [h.fired e t he]
    exact e.fireTime_eq_due_iff hpunctual
  · rw [← (e.fireTime_eq_due_iff hpunctual).mpr hreach]
    exact h.headTime_le he
  · have hhigh : e.eventTime < s.currentTime + queueSize := by
      simp only [QueuedEvent.InReach, stamp, queueSize_eq] at hreach ⊢
      by_cases hphase : s.phase = .after
      · simp only [hphase, if_true] at hreach
        omega
      · simpa only [hphase, if_false] using hreach
    have hadd := s.queue.addEvent_isSome (e := s.stamp e) h.head_lt hpunctual hhigh
    exact (Option.isSome_map ..).trans hadd

/-- An event `queueSize` cycles ahead is handled in the cycle it is added in. -/
def farEventRun : List QueueAction :=
  [.addEvent ⟨0, 1024⟩, .beginProcessEvents, .handleFirst]

theorem farEvent_handled :
    (exec next initial farEventRun).map handled = some [(⟨⟨0, 1024⟩, 0, .before⟩, 0)] := by
  decide

theorem far_event_handled_early :
    ¬ ∀ labels s, Run (StepOf next) initial labels s →
      ∀ e t, (e, t) ∈ s.handled → e.Punctual → t = e.due := by
  intro hall
  obtain ⟨s, hs, hhandled⟩ := Option.map_eq_some_iff.mp farEvent_handled
  have hdue := hall farEventRun s (run_of_exec hs) ⟨⟨0, 1024⟩, 0, .before⟩ 0
    (by simp [hhandled]) (by decide)
  exact absurd hdue (by decide)

/-- After `processEvents` of cycle 0 an event for cycle 1 is added; cycle 1 leaves it
waiting. -/
theorem handled_when_due_iff_inReach_next_cycle :
    ∃ s, Run (StepOf next) initial [.addEvent ⟨0, 1⟩, .beginProcessEvents, .endProcessEvents,
        .incrementClock, .beginProcessEvents, .handleFirst] s ∧
      s.handled = [(⟨⟨0, 1⟩, 0, .before⟩, 1)] ∧
      ((1 : ℤ) = QueuedEvent.due ⟨⟨0, 1⟩, 0, .before⟩ ↔
        QueuedEvent.InReach ⟨⟨0, 1⟩, 0, .before⟩) := by
  have hrun : (exec next initial [.addEvent ⟨0, 1⟩, .beginProcessEvents, .endProcessEvents,
      .incrementClock, .beginProcessEvents, .handleFirst]).map handled =
        some [(⟨⟨0, 1⟩, 0, .before⟩, 1)] := by decide
  obtain ⟨s, hs, hhandled⟩ := Option.map_eq_some_iff.mp hrun
  refine ⟨s, run_of_exec hs, hhandled, ?_⟩
  exact (handled_when_due_iff_inReach (run_of_exec hs)).2.1 _ 1 (by simp [hhandled]) (by decide)

end QueueState

end Tejas
