import Tejas.FairSchedules
import Tejas.ShmChannel

/-!
# The end of a subset simulation

`Shm::onSubset_finish` and the loop of its callers, which call it again while it returns -1. A
step of the producer is one call of `shmwrite`, which holds the lock of the slot, together with
the work around it; a step of the consumer takes packets out of the shared memory. Both queues
are the lists of their packets.
-/

namespace Tejas.SubsetFinish

open FairSchedules
open ShmChannel (COUNT locQ)

/-- Who calls `onSubset_finish`: the test of the instruction limit, or `Fini`. -/
inductive Caller
  | instructionLimit
  | fini
  deriving DecidableEq, Repr

/-- Where the producer stands. -/
inductive Producer
  /-- In `Fini`, in front of `setSubsetsimComplete(true)`. -/
  | completing
  /-- At the head of the loop that empties the local queue. -/
  | emptying
  /-- In the loop without an end, in front of a call of `analysisFn`. -/
  | logging
  /-- Behind that loop, in front of the last write. -/
  | marking
  /-- `onSubset_finish` has returned -1. -/
  | yielding
  /-- It has returned something else, and its caller goes on. -/
  | finished
  deriving DecidableEq, Repr

/-- The argument `last` of `shmwrite`: 0, 1 or 2. -/
inductive Last
  | packets
  | thread
  | subset
  deriving DecidableEq, Repr

structure State where
  localQueue : List Packet
  shared : List Packet
  delivered : List Packet
  isSubsetsimComplete : Bool
  producer : Producer
  deriving DecidableEq, Repr

namespace State

/-- `shmwrite`. A last packet is written over the value and the ip of its slot, whose tgt stays
`oldTgt`. -/
def shmwrite (oldTgt : ℤ) (s : State) (last : Last) (numCISC : ℤ) : State × ℤ :=
  if s.isSubsetsimComplete then (s, -1)
  else
    let numWrite := COUNT - s.shared.length
    if numWrite = 0 then (s, -1)
    else
      match last with
      | .packets =>
        let numWrite := min numWrite s.localQueue.length
        ({ s with
            shared := s.shared ++ s.localQueue.take numWrite
            localQueue := s.localQueue.drop numWrite }, 0)
      | .thread =>
        ({ s with shared := s.shared ++ [⟨numCISC, Encoding.threadComplete, oldTgt⟩] }, 0)
      | .subset =>
        ({ s with shared := s.shared ++ [⟨numCISC, Encoding.subsetSimComplete, oldTgt⟩] }, 0)

/-- The packet is logged in the local queue. -/
def enqueue (s : State) (sendPacket : Packet) : State :=
  { s with localQueue := s.localQueue ++ [sendPacket] }

/-- `analysisFn`: a full local queue is first written to the shared memory. -/
def analysisFn (oldTgt : ℤ) (s : State) (sendPacket : Packet) : State × ℤ :=
  if s.localQueue.length = locQ then
    let written := s.shmwrite oldTgt .packets (-1)
    if written.2 = -1 then (written.1, -1) else (written.1.enqueue sendPacket, 0)
  else (s.enqueue sendPacket, 0)

/-- A step of the producer. -/
def produce (oldTgt numCISC : ℤ) (s : State) : State :=
  match s.producer with
  | .completing => { s with isSubsetsimComplete := true, producer := .emptying }
  | .emptying =>
    if s.localQueue ≠ [] then
      let written := s.shmwrite oldTgt .packets (-1)
      if written.2 = -1 then { written.1 with producer := .yielding } else written.1
    else { s with producer := .logging }
  -- the inner loop repeats a call that returned -1, the outer one every other call
  | .logging => (s.analysisFn oldTgt ⟨0, Encoding.subsetSimComplete, numCISC⟩).1
  | .marking =>
    let written := s.shmwrite oldTgt .subset numCISC
    if written.2 = -1 then { written.1 with producer := .yielding }
    else { written.1 with localQueue := [], producer := .finished }
  | .yielding => { s with producer := .emptying }
  | .finished => s

/-- The consumer takes up to `room` packets. -/
def consume (s : State) (room : ℕ) : State :=
  { s with shared := s.shared.drop room, delivered := s.delivered ++ s.shared.take room }

end State

inductive Actor
  | producer
  | consumer (room : ℕ)
  deriving DecidableEq, Repr

def step (oldTgt numCISC : ℤ) (s : State) : Actor → State
  | .producer => s.produce oldTgt numCISC
  | .consumer room => s.consume room

/-- What is in the queues of the thread when the loop begins, and the flag as other threads have
left it. -/
structure Fill where
  localQueue : List Packet
  shared : List Packet
  delivered : List Packet
  isSubsetsimComplete : Bool
  localQueue_le : localQueue.length ≤ locQ
  shared_le : shared.length ≤ COUNT

/-- The packets logged before. -/
def Fill.logged (fill : Fill) : List Packet := fill.delivered ++ fill.shared ++ fill.localQueue

def start (caller : Caller) (fill : Fill) : State where
  localQueue := fill.localQueue
  shared := fill.shared
  delivered := fill.delivered
  isSubsetsimComplete := fill.isSubsetsimComplete
  producer :=
    match caller with
    | .instructionLimit => .emptying
    | .fini => .completing

/-- The consumer keeps draining the shared queue, and the producer keeps running. -/
structure Fair (schedule : ℕ → Actor) : Prop where
  producer : Recurs schedule (· = .producer)
  consumer : Recurs schedule (fun a => ∃ room, 0 < room ∧ a = .consumer room)

/-- The loop of the caller ends, and the stream is then what was logged before with one end marker
behind it. -/
def EndsOnce (oldTgt numCISC : ℤ) (caller : Caller) (fill : Fill) (schedule : ℕ → Actor) : Prop :=
  ∃ t marker,
    (states (step oldTgt numCISC) (start caller fill) schedule t).producer = .finished ∧
    marker.value = Encoding.subsetSimComplete ∧
    (states (step oldTgt numCISC) (start caller fill) schedule t).delivered ++
        (states (step oldTgt numCISC) (start caller fill) schedule t).shared =
      fill.logged ++ [marker]

/-! ## One step -/

section Steps

variable {oldTgt numCISC : ℤ} {s : State}

/-- A write finds the flag down and a free place. -/
def CanWrite (s : State) : Prop := s.isSubsetsimComplete = false ∧ s.shared.length < COUNT

theorem shmwrite_of_not (h : ¬ CanWrite s) (last : Last) (n : ℤ) :
    s.shmwrite oldTgt last n = (s, -1) := by
  rw [State.shmwrite]
  cases hflag : s.isSubsetsimComplete with
  | true => rfl
  | false =>
    have hfull : COUNT - s.shared.length = 0 := by
      by_contra hne
      exact h ⟨hflag, by omega⟩
    simp only [Bool.false_eq_true, if_false, hfull, if_true]

/-- The number of packets that a write moves. -/
def moved (s : State) : ℕ := min (COUNT - s.shared.length) s.localQueue.length

theorem shmwrite_packets (h : CanWrite s) (n : ℤ) :
    s.shmwrite oldTgt .packets n =
      ({ s with
          shared := s.shared ++ s.localQueue.take (moved s)
          localQueue := s.localQueue.drop (moved s) }, 0) := by
  obtain ⟨hflag, hroom⟩ := h
  have hne : COUNT - s.shared.length ≠ 0 := by omega
  rw [State.shmwrite, hflag]
  simp only [Bool.false_eq_true, if_false, hne]
  rfl

theorem shmwrite_producer (last : Last) (n : ℤ) :
    (s.shmwrite oldTgt last n).1.producer = s.producer := by
  by_cases h : CanWrite s
  · have hne : COUNT - s.shared.length ≠ 0 := by
      have := h.2
      omega
    rw [State.shmwrite, h.1]
    simp only [Bool.false_eq_true, if_false, hne]
    cases last <;> rfl
  · rw [shmwrite_of_not h]

theorem analysisFn_producer (oldTgt : ℤ) (s : State) (packet : Packet) :
    (s.analysisFn oldTgt packet).1.producer = s.producer := by
  rw [State.analysisFn]
  split
  · dsimp only
    split
    · exact shmwrite_producer _ _
    · exact shmwrite_producer _ _
  · rfl

/-- The producer stands in front of the last write, or behind the loop of the caller. -/
def Past (s : State) : Prop := s.producer = .marking ∨ s.producer = .finished

/-- No step leads out of the loop of `onSubset_finish`. -/
theorem step_not_past (h : ¬ Past s) (a : Actor) : ¬ Past (step oldTgt numCISC s a) := by
  cases a with
  | consumer room => exact h
  | producer =>
    rw [step, State.produce]
    cases hproducer : s.producer with
    | completing => simp [Past]
    | emptying =>
      simp only
      split
      · split
        · simp [Past]
        · simp [Past, shmwrite_producer, hproducer]
      · simp [Past]
    | logging => simp [Past, analysisFn_producer, hproducer]
    | marking => exact absurd (.inl hproducer) h
    | yielding => simp [Past]
    | finished => exact absurd (.inr hproducer) h

/-- Nothing is lost or doubled by a write, and a write that returns moves a packet. -/
theorem shmwrite_packets_spec (oldTgt : ℤ) (h : CanWrite s) (n : ℤ) :
    (s.shmwrite oldTgt .packets n).2 = 0 ∧
      (s.shmwrite oldTgt .packets n).1.shared ++ (s.shmwrite oldTgt .packets n).1.localQueue =
        s.shared ++ s.localQueue ∧
      (s.localQueue ≠ [] →
        (s.shmwrite oldTgt .packets n).1.localQueue.length < s.localQueue.length) := by
  rw [shmwrite_packets h]
  refine ⟨rfl, ?_, fun hne => ?_⟩
  · simp only [List.append_assoc, List.take_append_drop]
  · have hpos : 0 < s.localQueue.length := List.length_pos_iff.mpr hne
    have hroom := h.2
    simp only [List.length_drop, moved]
    omega

end Steps

/-! ## The loop never ends -/

section Runs

variable {oldTgt numCISC : ℤ} {caller : Caller} {fill : Fill} {schedule : ℕ → Actor}

theorem not_past (t : ℕ) :
    ¬ Past (states (step oldTgt numCISC) (start caller fill) schedule t) := by
  have hinit : ¬ Past (start caller fill) := by cases caller <;> simp [Past, start]
  exact states_invariant (I := fun s => ¬ Past s) hinit (fun s a h => step_not_past h a) t

/-- For every filling of the queues, every caller and every schedule, the loop does not end. -/
theorem not_endsOnce (oldTgt numCISC : ℤ) (caller : Caller) (fill : Fill) (schedule : ℕ → Actor) :
    ¬ EndsOnce oldTgt numCISC caller fill schedule := by
  rintro ⟨t, marker, hfinished, -, -⟩
  exact not_past t (.inr hfinished)

def emptyFill : Fill := ⟨[], [], [], false, Nat.zero_le _, Nat.zero_le _⟩

/-- The producer and a consumer with room for eight packets take turns. -/
def alternating (t : ℕ) : Actor := if t % 2 = 0 then .producer else .consumer 8

/-- Both queues are empty when the limit is reached, and the two sides take turns. -/
theorem alternating_not_endsOnce :
    Fair alternating ∧ ¬ EndsOnce 0 5 .instructionLimit emptyFill alternating := by
  refine ⟨⟨fun t => ⟨2 * t, by omega, ?_⟩, fun t => ⟨2 * t + 1, by omega, 8, by omega, ?_⟩⟩, ?_⟩
  · exact if_pos (by omega)
  · exact if_neg (by omega)
  · rintro ⟨t, marker, hfinished, -, -⟩
    exact not_past t (.inr hfinished)

end Runs

/-! ## What is delivered instead -/

/-- The packets in the shared memory and those taken out of it. -/
def State.stream (s : State) : List Packet := s.delivered ++ s.shared

/-- `Fini` sets the flag before the loop, and nothing is written from then on. -/
def Silent (written : List Packet) (s : State) : Prop :=
  (s.producer = .completing ∨ s.isSubsetsimComplete = true) ∧ s.stream = written

section Silence

variable {oldTgt numCISC : ℤ} {s : State} {written : List Packet}

theorem consume_stream (s : State) (room : ℕ) : (s.consume room).stream = s.stream := by
  rw [State.stream, State.consume, List.append_assoc, List.take_append_drop, State.stream]

theorem step_silent (h : Silent written s) (a : Actor) :
    Silent written (step oldTgt numCISC s a) := by
  obtain ⟨hflag, hstream⟩ := h
  cases a with
  | consumer room => exact ⟨hflag, (consume_stream s room).trans hstream⟩
  | producer =>
    rw [step, State.produce]
    rcases hflag with hcompleting | hset
    · rw [hcompleting]
      exact ⟨.inr rfl, hstream⟩
    · have hcannot : ¬ CanWrite s := fun h => by simp [h.1] at hset
      cases s.producer with
      | completing => exact ⟨.inr rfl, hstream⟩
      | emptying =>
        simp only [shmwrite_of_not hcannot, if_true]
        split
        · exact ⟨.inr hset, hstream⟩
        · exact ⟨.inr hset, hstream⟩
      | logging =>
        simp only [State.analysisFn, shmwrite_of_not hcannot, if_true]
        split
        · exact ⟨.inr hset, hstream⟩
        · exact ⟨.inr hset, hstream⟩
      | marking =>
        simp only [shmwrite_of_not hcannot, if_true]
        exact ⟨.inr hset, hstream⟩
      | yielding => exact ⟨.inr hset, hstream⟩
      | finished => exact ⟨.inr hset, hstream⟩

/-- From `Fini` on, the local queue is never delivered, nor is an end marker. -/
theorem fini_stream (oldTgt numCISC : ℤ) (fill : Fill) (schedule : ℕ → Actor) (t : ℕ) :
    (states (step oldTgt numCISC) (start .fini fill) schedule t).stream =
      fill.delivered ++ fill.shared := by
  have hinit : Silent (fill.delivered ++ fill.shared) (start .fini fill) := ⟨.inl rfl, rfl⟩
  exact (states_invariant hinit (fun s a h => step_silent h a) t).2

end Silence

/-- The number of end markers logged. -/
def State.markers (s : State) : ℕ :=
  (s.stream ++ s.localQueue).countP (fun p => decide (p.value = Encoding.subsetSimComplete))

/-- The flag is down, the queues keep to their sizes, and the producer is before or in the loop
without an end. -/
structure Live (s : State) : Prop where
  flag : s.isSubsetsimComplete = false
  localQueue_le : s.localQueue.length ≤ locQ
  shared_le : s.shared.length ≤ COUNT
  producer : s.producer = .emptying ∨ s.producer = .yielding ∨ s.producer = .logging

section Liveness

variable {oldTgt numCISC : ℤ} {s : State}

theorem enqueue_markers (packet : Packet) (s : State) :
    (s.enqueue packet).markers =
      s.markers + if packet.value = Encoding.subsetSimComplete then 1 else 0 := by
  rw [State.markers, State.markers, State.enqueue, State.stream, State.stream, ← List.append_assoc,
    List.countP_append, List.countP_singleton]
  simp

theorem Live.canWrite (h : Live s) (hroom : s.shared.length < COUNT) : CanWrite s := ⟨h.flag, hroom⟩

/-- A write keeps the packets and the sizes, and makes room in the local queue. -/
theorem Live.shmwrite (h : Live s) (oldTgt n : ℤ) :
    Live (s.shmwrite oldTgt .packets n).1 ∧
      (s.shmwrite oldTgt .packets n).1.markers = s.markers ∧
      (s.shmwrite oldTgt .packets n).1.localQueue.length ≤ s.localQueue.length := by
  by_cases hcan : CanWrite s
  · rw [shmwrite_packets hcan]
    refine ⟨⟨h.flag, ?_, ?_, h.producer⟩, ?_, ?_⟩
    · have := h.localQueue_le
      simp only [List.length_drop]
      omega
    · have := h.shared_le
      simp only [List.length_append, List.length_take, moved]
      omega
    · simp only [State.markers, State.stream, List.append_assoc, List.take_append_drop]
    · simp only [List.length_drop]
      omega
  · rw [shmwrite_of_not hcan]
    exact ⟨h, rfl, le_refl _⟩

/-- The write of `analysisFn` makes room in a full queue, or is not done. -/
theorem Live.analysisFn (h : Live s) (oldTgt : ℤ) (packet : Packet) :
    Live (s.analysisFn oldTgt packet).1 ∧
      s.markers ≤ (s.analysisFn oldTgt packet).1.markers ∧
      (CanWrite s → packet.value = Encoding.subsetSimComplete →
        s.markers < (s.analysisFn oldTgt packet).1.markers) := by
  have hmore := fun u => enqueue_markers packet u
  rw [State.analysisFn]
  by_cases hfull : s.localQueue.length = locQ
  · obtain ⟨hlive, hmarkers, -⟩ := h.shmwrite oldTgt (-1)
    rw [if_pos hfull]
    dsimp only
    by_cases hcan : CanWrite s
    · obtain ⟨hret, -, hless⟩ := shmwrite_packets_spec oldTgt hcan (-1)
      have hne : s.localQueue ≠ [] := by
        intro hnil
        rw [hnil] at hfull
        exact absurd hfull (by decide)
      have hroom := hless hne
      rw [hret, if_neg (by decide)]
      refine ⟨⟨hlive.flag, ?_, hlive.shared_le, hlive.producer⟩, ?_, ?_⟩
      · simp only [State.enqueue, List.length_append, List.length_singleton]
        omega
      · rw [hmore, hmarkers]
        exact Nat.le_add_right _ _
      · intro _ hvalue
        rw [hmore, hmarkers, if_pos hvalue]
        exact Nat.lt_succ_self _
    · rw [shmwrite_of_not hcan, if_pos rfl]
      exact ⟨h, le_refl _, fun hyes => absurd hyes hcan⟩
  · rw [if_neg hfull]
    refine ⟨⟨h.flag, ?_, h.shared_le, h.producer⟩, ?_, ?_⟩
    · have := h.localQueue_le
      simp only [State.enqueue, List.length_append, List.length_singleton]
      omega
    · rw [hmore]
      exact Nat.le_add_right _ _
    · intro _ hvalue
      rw [hmore, if_pos hvalue]
      exact Nat.lt_succ_self _

theorem consume_markers (s : State) (room : ℕ) : (s.consume room).markers = s.markers := by
  rw [State.markers, consume_stream]
  rfl

theorem Live.consume (h : Live s) (room : ℕ) : Live (s.consume room) := by
  refine ⟨h.flag, h.localQueue_le, ?_, h.producer⟩
  have := h.shared_le
  simp only [State.consume, List.length_drop]
  omega

theorem Live.withProducer (h : Live s) {p : Producer}
    (hp : p = .emptying ∨ p = .yielding ∨ p = .logging) : Live { s with producer := p } :=
  ⟨h.flag, h.localQueue_le, h.shared_le, hp⟩

/-- What a step of the producer does: in the first loop it moves packets, goes on to the second
loop or gives up for now; in the second loop it logs. -/
theorem Live.produce (h : Live s) (oldTgt numCISC : ℤ) :
    Live (s.produce oldTgt numCISC) ∧ s.markers ≤ (s.produce oldTgt numCISC).markers ∧
      (s.producer = .logging → (s.produce oldTgt numCISC).producer = .logging) ∧
      ((s.produce oldTgt numCISC).producer = .logging ∨
        (s.produce oldTgt numCISC).localQueue.length ≤ s.localQueue.length) := by
  rw [State.produce]
  rcases h.producer with hp | hp | hp
  · simp only [hp]
    by_cases hnil : s.localQueue = []
    · rw [if_neg (not_not.mpr hnil)]
      exact ⟨h.withProducer (.inr (.inr rfl)), le_refl _, by simp, .inl rfl⟩
    · obtain ⟨hlive, hmarkers, hlength⟩ := h.shmwrite oldTgt (-1)
      rw [if_pos hnil]
      split
      · exact ⟨hlive.withProducer (.inr (.inl rfl)), le_of_eq hmarkers.symm, by simp,
          .inr hlength⟩
      · exact ⟨hlive, le_of_eq hmarkers.symm, by simp, .inr hlength⟩
  · simp only [hp]
    exact ⟨h.withProducer (.inl rfl), le_refl _, by simp, .inr (le_refl _)⟩
  · obtain ⟨hlive, hmarkers, -⟩ := h.analysisFn oldTgt
      ⟨0, Encoding.subsetSimComplete, numCISC⟩
    have hstay := analysisFn_producer oldTgt s
      ⟨0, Encoding.subsetSimComplete, numCISC⟩
    simp only [hp]
    exact ⟨hlive, hmarkers, fun _ => hstay.trans hp, .inl (hstay.trans hp)⟩

theorem Live.consume_room (h : Live s) {room : ℕ} (hroom : 0 < room) :
    (s.consume room).shared.length < COUNT := by
  have hle := h.shared_le
  have hpos := ShmChannel.COUNT_pos
  simp only [State.consume, List.length_drop]
  omega

theorem Live.step (h : Live s) (a : Actor) : Live (step oldTgt numCISC s a) := by
  cases a with
  | producer => exact (h.produce oldTgt numCISC).1
  | consumer room => exact h.consume room

/-- In front of `analysisFn`, with at least `n` end markers logged. -/
def Logging (n : ℕ) (s : State) : Prop := Live s ∧ s.producer = .logging ∧ n ≤ s.markers

theorem Logging.step {n : ℕ} (h : Logging n s) (a : Actor) :
    Logging n (step oldTgt numCISC s a) := by
  obtain ⟨hlive, hp, hn⟩ := h
  cases a with
  | producer =>
    obtain ⟨hlive', hmarkers, hstay, -⟩ := hlive.produce oldTgt numCISC
    exact ⟨hlive', hstay hp, hn.trans hmarkers⟩
  | consumer room =>
    exact ⟨hlive.consume room, hp, hn.trans (le_of_eq (consume_markers s room).symm)⟩

/-- With a free place in the shared memory one more end marker is logged. -/
theorem Logging.more {n : ℕ} (h : Logging n s) (hroom : s.shared.length < COUNT) :
    Logging (n + 1) (SubsetFinish.step oldTgt numCISC s .producer) := by
  obtain ⟨hlive, hp, hn⟩ := h
  obtain ⟨-, -, hmore⟩ := hlive.analysisFn oldTgt
    ⟨0, Encoding.subsetSimComplete, numCISC⟩
  have hlogged := hmore (hlive.canWrite hroom) rfl
  obtain ⟨hlive', -, hstay, -⟩ := hlive.produce oldTgt numCISC
  refine ⟨hlive', hstay hp, ?_⟩
  rw [SubsetFinish.step, State.produce]
  simp only [hp]
  omega

/-- In the first loop, with at most `n` packets in the local queue, or already in the second. -/
def Emptying (n : ℕ) (s : State) : Prop :=
  Live s ∧ (s.producer = .logging ∨ s.localQueue.length ≤ n)

theorem Emptying.step {n : ℕ} (h : Emptying n s) (a : Actor) :
    Emptying n (step oldTgt numCISC s a) := by
  obtain ⟨hlive, hn⟩ := h
  cases a with
  | producer =>
    obtain ⟨hlive', -, hstay, hlength⟩ := hlive.produce oldTgt numCISC
    refine ⟨hlive', ?_⟩
    rcases hn with hp | hn
    · exact .inl (hstay hp)
    · exact hlength.imp_right (fun hle => hle.trans hn)
  | consumer room => exact ⟨hlive.consume room, hn⟩

/-- With a free place in the shared memory the first loop moves a packet or is left. -/
theorem Live.empties (h : Live s) (hp : s.producer = .emptying) (hroom : s.shared.length < COUNT) :
    (SubsetFinish.step oldTgt numCISC s .producer).producer = .logging ∨
      (SubsetFinish.step oldTgt numCISC s .producer).localQueue.length < s.localQueue.length := by
  rw [SubsetFinish.step, State.produce]
  simp only [hp]
  by_cases hnil : s.localQueue = []
  · rw [if_neg (not_not.mpr hnil)]
    exact .inl rfl
  · obtain ⟨hret, -, hless⟩ := shmwrite_packets_spec oldTgt (h.canWrite hroom) (-1)
    rw [if_pos hnil, hret, if_neg (by decide)]
    exact .inr (hless hnil)

end Liveness

section Fairness

variable {oldTgt numCISC : ℤ} {fill : Fill} {schedule : ℕ → Actor}

theorem live_states (hflag : fill.isSubsetsimComplete = false) (t : ℕ) :
    Live (states (step oldTgt numCISC) (start .instructionLimit fill) schedule t) := by
  have hinit : Live (start .instructionLimit fill) :=
    ⟨hflag, fill.localQueue_le, fill.shared_le, .inl rfl⟩
  exact states_invariant hinit (fun s a h => h.step a) t

/-- What every step keeps still holds when the producer next finds a free place. -/
theorem Fair.exists_room (hfair : Fair schedule) {s₀ : State} {Q : State → Prop}
    (hlive : ∀ s, Q s → Live s) (hkeep : ∀ s a, Q s → Q (step oldTgt numCISC s a)) {t : ℕ}
    (ht : Q (states (step oldTgt numCISC) s₀ schedule t)) :
    ∃ u, t ≤ u ∧ schedule u = .producer ∧ Q (states (step oldTgt numCISC) s₀ schedule u) ∧
      (states (step oldTgt numCISC) s₀ schedule u).shared.length < COUNT := by
  obtain ⟨u, hu, ⟨room, hpos, hconsumer⟩, hQ⟩ :=
    hfair.consumer.exists_step (fun s a h _ => hkeep s a h) ht
  have hnext : states (step oldTgt numCISC) s₀ schedule (u + 1) =
      (states (step oldTgt numCISC) s₀ schedule u).consume room := by
    rw [states, hconsumer]
    rfl
  have hroom : Q (states (step oldTgt numCISC) s₀ schedule (u + 1)) ∧
      (states (step oldTgt numCISC) s₀ schedule (u + 1)).shared.length < COUNT :=
    ⟨hkeep _ _ hQ, by rw [hnext]; exact (hlive _ hQ).consume_room hpos⟩
  obtain ⟨w, hw, hproducer, hQw⟩ := hfair.producer.exists_step
    (Q := fun s => Q s ∧ s.shared.length < COUNT) (by
      intro s a h hother
      refine ⟨hkeep s a h.1, ?_⟩
      cases a with
      | producer => exact absurd rfl hother
      | consumer room =>
        have := h.2
        show (s.shared.drop room).length < COUNT
        rw [List.length_drop]
        omega) hroom
  exact ⟨w, by omega, hproducer, hQw.1, hQw.2⟩

/-- In front of a write with a free place in the shared memory. -/
def Ready (n : ℕ) (s : State) : Prop :=
  Live s ∧ s.producer = .emptying ∧ s.localQueue.length ≤ n ∧ s.shared.length < COUNT

/-- The write is done at the next step of the producer. -/
theorem Fair.exists_written (hfair : Fair schedule) {s₀ : State} {n t : ℕ}
    (ht : Ready n (states (step oldTgt numCISC) s₀ schedule t)) :
    ∃ u, t ≤ u ∧ ((states (step oldTgt numCISC) s₀ schedule u).producer = .logging ∨
      (states (step oldTgt numCISC) s₀ schedule u).localQueue.length < n) := by
  obtain ⟨u, hu, hproducer, hlive, hp, hn, hroom⟩ := hfair.producer.exists_step
    (Q := Ready n) (by
      intro s a h hother
      cases a with
      | producer => exact absurd rfl hother
      | consumer room =>
        obtain ⟨hlive, hp, hn, hroom⟩ := h
        refine ⟨hlive.consume room, hp, hn, ?_⟩
        show (s.shared.drop room).length < COUNT
        rw [List.length_drop]
        omega) ht
  refine ⟨u + 1, by omega, ?_⟩
  rw [states, hproducer]
  exact (hlive.empties hp hroom).imp_right (fun hlt => lt_of_lt_of_le hlt hn)

/-- The loop without an end is reached. -/
theorem exists_logging (oldTgt numCISC : ℤ) (hfair : Fair schedule)
    (hflag : fill.isSubsetsimComplete = false) :
    ∃ t, (states (step oldTgt numCISC) (start .instructionLimit fill) schedule t).producer =
      .logging := by
  obtain ⟨t, -, ht⟩ := eventually_of_rank (step oldTgt numCISC)
    (start .instructionLimit fill) schedule (Q := fun s => s.producer = .logging)
    (fun s => s.localQueue.length) (by
      intro t hnot
      have hstart : Emptying
          (states (step oldTgt numCISC) (start .instructionLimit fill) schedule t).localQueue.length
          (states (step oldTgt numCISC) (start .instructionLimit fill) schedule t) :=
        ⟨live_states hflag t, .inr (le_refl _)⟩
      obtain ⟨u, hu, hproducer, ⟨hlive, hn⟩, hroom⟩ :=
        hfair.exists_room (fun s h => h.1) (fun s a h => h.step a) hstart
      rcases hlive.producer with hp | hp | hp
      · have hready := hn.resolve_left (by simp [hp])
        obtain ⟨w, hw, hdone⟩ := hfair.exists_written ⟨hlive, hp, hready, hroom⟩
        exact ⟨w, hu.trans hw, hdone⟩
      · -- the caller calls again, and the free place is still there
        have hready := hn.resolve_left (by simp [hp])
        have hagain : Ready
            (states (step oldTgt numCISC) (start .instructionLimit fill) schedule
              t).localQueue.length
            (states (step oldTgt numCISC) (start .instructionLimit fill) schedule (u + 1)) := by
          rw [states, hproducer, step, State.produce]
          simp only [hp]
          exact ⟨hlive.withProducer (.inl rfl), rfl, hready, hroom⟩
        obtain ⟨w, hw, hdone⟩ := hfair.exists_written hagain
        exact ⟨w, by omega, hdone⟩
      · exact ⟨u, hu, .inl hp⟩) 0
  exact ⟨t, ht⟩

/-- If the limit is reached with the flag down, end markers are logged without a bound. -/
theorem markers_unbounded (hfair : Fair schedule) (hflag : fill.isSubsetsimComplete = false)
    (bound : ℕ) :
    ∃ t, bound ≤
      (states (step oldTgt numCISC) (start .instructionLimit fill) schedule t).markers := by
  obtain ⟨t₀, hlogging⟩ := exists_logging oldTgt numCISC hfair hflag
  have hstay : ∀ d, Logging 0
      (states (step oldTgt numCISC) (start .instructionLimit fill) schedule (t₀ + d)) := by
    intro d
    induction d with
    | zero => exact ⟨live_states hflag t₀, hlogging, Nat.zero_le _⟩
    | succ d ih => exact ih.step _
  obtain ⟨t, -, ht⟩ := exists_count_ge (step oldTgt numCISC)
    (start .instructionLimit fill) schedule State.markers (show ∀ t, t₀ ≤ t → _ by
      intro t hle
      obtain ⟨hlive, hp, -⟩ := hstay (t - t₀)
      rw [Nat.add_sub_cancel' hle] at hlive hp
      have hnow : Logging
          (states (step oldTgt numCISC) (start .instructionLimit fill) schedule t).markers
          (states (step oldTgt numCISC) (start .instructionLimit fill) schedule t) :=
        ⟨hlive, hp, le_refl _⟩
      obtain ⟨u, hu, hproducer, hQ, hroom⟩ :=
        hfair.exists_room (fun s h => h.1) (fun s a h => h.step a) hnow
      refine ⟨u + 1, by omega, ?_⟩
      rw [states, hproducer]
      exact (hQ.more hroom).2.2) bound
  exact ⟨t, ht⟩

end Fairness

end Tejas.SubsetFinish
