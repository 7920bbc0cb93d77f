import Mathlib.Data.List.GetD
import Tejas.ServerQueue

/-!
# Ports

An event that is put on a first-come-first-served port waits for the slot that is free first
and holds it for `occupancy` cycles. The time of the event is increased by the end of these
cycles and the latency of the element behind the port. Times are those of the global clock,
which starts at `0`.
-/

namespace Tejas

open ServerQueue

inductive PortType
  | firstComeFirstServe | priorityBased | unlimited
  deriving DecidableEq

structure Port where
  portType : PortType
  latencyOfConnectedElement : ℤ
  occupancy : ℤ
  portBusyUntil : List ℤ

/-- A call of `put`: the current time, and the time that the event has so far. -/
structure PutCall where
  currentTime : ℕ
  eventTime : ℤ

/-- The slot that is given to a request, until when it is busy with it, and the time of the
event. -/
structure PortService where
  port : ℕ
  busyUntil : ℤ
  eventTime : Option ℤ

namespace Port

/-- A port without slots or occupancy ends the program, unless it is unlimited. -/
def new (portType : PortType) (noOfPorts occupancy latency : ℤ) : Option Port :=
  if portType = .unlimited then some ⟨portType, latency, 0, []⟩
  else if 0 < noOfPorts ∧ 0 < occupancy then
    some ⟨portType, latency, occupancy, List.replicate noOfPorts.toNat 0⟩
  else none

variable (p : Port)

/-- The first of the ports that are free earliest. -/
def availablePortID : ℕ :=
  (List.range p.portBusyUntil.length).foldl
    (fun best i => if p.portBusyUntil.getD i 0 < p.portBusyUntil.getD best 0 then i else best) 0

/-- `put` adds to the time of the event and adds the event to the queue. A priority based
port does nothing. -/
def put (currentTime eventTime : ℤ) : Option ℤ × Port :=
  match p.portType with
  | .unlimited => (some (eventTime + (currentTime + p.latencyOfConnectedElement)), p)
  | .firstComeFirstServe =>
    let busyUntil := p.portBusyUntil.getD p.availablePortID 0
    let busyUntil :=
      if busyUntil < currentTime then currentTime + p.occupancy else busyUntil + p.occupancy
    (some (eventTime + (busyUntil + p.latencyOfConnectedElement)),
      { p with portBusyUntil := p.portBusyUntil.set p.availablePortID busyUntil })
  | .priorityBased => (none, p)

/-- What the requests are given, in the order of the calls. -/
def services : Port → List PutCall → List PortService
  | _, [] => []
  | p, call :: rest =>
    let called := p.put call.currentTime call.eventTime
    ⟨p.availablePortID, called.2.portBusyUntil.getD p.availablePortID 0, called.1⟩ ::
      services called.2 rest

/-- When a slot starts to be busy with a request. -/
def start (occupancy : ℤ) (s : PortService) : ℤ := s.busyUntil - occupancy

/-- Until when a slot is busy. -/
def busy (i : ℕ) : ℤ := p.portBusyUntil.getD i 0

variable {p}

/-- The search for a slot keeps a least busy time. -/
theorem foldl_available (b : ℕ → ℤ) (l : List ℕ) (id : ℕ) :
    let found := l.foldl (fun best i => if b i < b best then i else best) id
    (found = id ∨ found ∈ l) ∧ b found ≤ b id ∧ ∀ i ∈ l, b found ≤ b i := by
  induction l generalizing id with
  | nil => simp
  | cons j l ih =>
    obtain ⟨hmem, hid, hl⟩ := ih (if b j < b id then j else id)
    have hle : b (if b j < b id then j else id) ≤ b id ∧
        b (if b j < b id then j else id) ≤ b j := by
      split_ifs with hlt
      · exact ⟨le_of_lt hlt, le_rfl⟩
      · exact ⟨le_rfl, not_lt.mp hlt⟩
    simp only [List.foldl_cons, List.mem_cons]
    refine ⟨?_, le_trans hid hle.1, ?_⟩
    · rcases hmem with heq | hmem
      · rw [heq]
        split_ifs
        · exact .inr (.inl rfl)
        · exact .inl rfl
      · exact .inr (.inr hmem)
    · rintro i (rfl | hi)
      · exact le_trans hid hle.2
      · exact hl i hi

theorem availablePortID_lt (hk : 0 < p.portBusyUntil.length) :
    p.availablePortID < p.portBusyUntil.length := by
  rcases (foldl_available p.busy (List.range p.portBusyUntil.length) 0).1 with heq | hmem
  · exact lt_of_eq_of_lt heq hk
  · exact List.mem_range.mp hmem

theorem availablePortID_le {i : ℕ} (hi : i < p.portBusyUntil.length) :
    p.busy p.availablePortID ≤ p.busy i :=
  (foldl_available p.busy (List.range p.portBusyUntil.length) 0).2.2 i (List.mem_range.mpr hi)

/-- Until when the next request is served. -/
def nextBusyUntil (p : Port) (now : ℤ) : ℤ := max now (p.busy p.availablePortID) + p.occupancy

/-- The port with the next request on it. -/
def serving (p : Port) (now : ℤ) : Port :=
  { p with portBusyUntil := p.portBusyUntil.set p.availablePortID (p.nextBusyUntil now) }

@[simp] theorem length_serving (p : Port) (now : ℤ) :
    (p.serving now).portBusyUntil.length = p.portBusyUntil.length := List.length_set

theorem busy_serving (hk : 0 < p.portBusyUntil.length) (now : ℤ) :
    (p.serving now).busy = Function.update p.busy p.availablePortID (p.nextBusyUntil now) := by
  funext i
  rw [busy, serving, List.getD_eq_getElem?_getD]
  by_cases heq : i = p.availablePortID
  · rw [heq, Function.update_self, List.getElem?_set_self (availablePortID_lt hk)]
    rfl
  · rw [Function.update_of_ne heq, List.getElem?_set_ne (Ne.symm heq), busy,
      List.getD_eq_getElem?_getD]

theorem put_firstComeFirstServe (htype : p.portType = .firstComeFirstServe)
    (now eventTime : ℤ) :
    p.put now eventTime =
      (some (eventTime + (p.nextBusyUntil now + p.latencyOfConnectedElement)), p.serving now) := by
  have hbusy : (if p.portBusyUntil.getD p.availablePortID 0 < now then now + p.occupancy
      else p.portBusyUntil.getD p.availablePortID 0 + p.occupancy) = p.nextBusyUntil now := by
    rw [nextBusyUntil, busy]
    split_ifs <;> omega
  simp only [put, htype, hbusy, serving]

theorem services_cons (htype : p.portType = .firstComeFirstServe)
    (hk : 0 < p.portBusyUntil.length) (call : PutCall) (rest : List PutCall) :
    p.services (call :: rest) =
      ⟨p.availablePortID, p.nextBusyUntil call.currentTime,
        some (call.eventTime +
          (p.nextBusyUntil call.currentTime + p.latencyOfConnectedElement))⟩ ::
        (p.serving call.currentTime).services rest := by
  have hbusy : (p.serving call.currentTime).portBusyUntil.getD p.availablePortID 0 =
      p.nextBusyUntil call.currentTime := by
    rw [← busy, busy_serving hk, Function.update_self]
  rw [services, put_firstComeFirstServe htype, hbusy]

/-- Slots are busy longer and longer. -/
theorem busy_le_serving (hk : 0 < p.portBusyUntil.length) (hocc : 0 ≤ p.occupancy) (now : ℤ)
    (i : ℕ) : p.busy i ≤ (p.serving now).busy i := by
  rw [busy_serving hk, Function.update_apply]
  split
  · rename_i heq
    rw [heq, nextBusyUntil]
    omega
  · exact le_rfl

/-- The services of a port that is a queue with several servers. -/
structure Serves (p : Port) (earlier : List ℤ) (calls : List PutCall) (l : List PortService) :
    Prop where
  port : ∀ s ∈ l, s.port < p.portBusyUntil.length
  free : ∀ s ∈ l, p.busy s.port ≤ start p.occupancy s
  separate : l.Pairwise (fun s s' => s.port = s'.port → s.busyUntil ≤ start p.occupancy s')
  queue : Fcfs p.portBusyUntil.length p.occupancy earlier
    (calls.map (fun call => (call.currentTime : ℤ))) (l.map (start p.occupancy))
  eventTime : l.map PortService.eventTime = List.zipWith
    (fun call s => some (call.eventTime + (s.busyUntil + p.latencyOfConnectedElement))) calls l

/-- One more request in front. -/
theorem Serves.cons {earlier : List ℤ} {call : PutCall} {rest : List PutCall}
    {l : List PortService} (hk : 0 < p.portBusyUntil.length) (hocc : 0 ≤ p.occupancy)
    (htracks : Tracks p.portBusyUntil.length p.occupancy p.busy call.currentTime earlier)
    (h : (p.serving call.currentTime).Serves
      (max (call.currentTime : ℤ) (p.busy p.availablePortID) :: earlier) rest l) :
    p.Serves earlier (call :: rest)
      (⟨p.availablePortID, p.nextBusyUntil call.currentTime,
        some (call.eventTime +
          (p.nextBusyUntil call.currentTime + p.latencyOfConnectedElement))⟩ :: l) := by
  have hstart : p.nextBusyUntil call.currentTime - p.occupancy =
      max (call.currentTime : ℤ) (p.busy p.availablePortID) := Int.add_sub_cancel _ _
  constructor
  · refine List.forall_mem_cons.mpr ⟨availablePortID_lt hk, fun s hs => ?_⟩
    simpa using h.port s hs
  · refine List.forall_mem_cons.mpr ⟨?_, fun s hs => ?_⟩
    · rw [start, hstart]
      exact le_max_right _ _
    · exact le_trans (busy_le_serving hk hocc _ _) (h.free s hs)
  · refine List.pairwise_cons.mpr ⟨fun s hs heq => ?_, h.separate⟩
    have hfree := h.free s hs
    rwa [← heq, busy_serving hk, Function.update_self] at hfree
  · rw [List.map_cons, List.map_cons, start, hstart]
    have hqueue := h.queue
    rw [length_serving] at hqueue
    exact ⟨htracks.isLeast (availablePortID_lt hk) (fun i hi => availablePortID_le hi), hqueue⟩
  · rw [List.map_cons, List.zipWith_cons_cons, h.eventTime]
    rfl

theorem serves_services (htype : p.portType = .firstComeFirstServe)
    (hk : 0 < p.portBusyUntil.length) (hocc : 0 ≤ p.occupancy) {now : ℤ} {earlier : List ℤ}
    {calls : List PutCall}
    (htracks : Tracks p.portBusyUntil.length p.occupancy p.busy now earlier)
    (hnow : ∀ call ∈ calls, now ≤ call.currentTime)
    (hsorted : (calls.map PutCall.currentTime).Pairwise (· ≤ ·)) :
    p.Serves earlier calls (p.services calls) := by
  induction calls generalizing p now earlier with
  | nil => exact ⟨by simp [services], by simp [services], .nil, trivial, rfl⟩
  | cons call rest ih =>
    obtain ⟨hfirst, hrest⟩ := List.pairwise_cons.mp hsorted
    have harrived := htracks.later (hnow call List.mem_cons_self)
    have hnext := harrived.next hocc (availablePortID_lt hk) (fun i hi => availablePortID_le hi)
    rw [← nextBusyUntil, ← busy_serving hk, ← length_serving p call.currentTime] at hnext
    have hserves := ih (p := p.serving call.currentTime) htype (by simpa using hk) hocc hnext
      (fun call' hcall' => by exact_mod_cast hfirst _ (List.mem_map_of_mem hcall')) hrest
    rw [services_cons htype hk]
    exact hserves.cons hk hocc harrived

/-- A first-come-first-served port that serves requests in the order of time: a slot is busy
with each request for `occupancy` cycles, with one at a time, and the requests complete in the
order of their arrival, at the times of a queue with one server for each slot. -/
theorem services_fcfs {noOfPorts occupancy latency : ℤ} {calls : List PutCall}
    (hnew : new .firstComeFirstServe noOfPorts occupancy latency = some p)
    (hsorted : (calls.map PutCall.currentTime).Pairwise (· ≤ ·)) :
    (∀ s ∈ p.services calls, s.port < noOfPorts ∧ start occupancy s + occupancy = s.busyUntil) ∧
      (p.services calls).Pairwise
        (fun s s' => s.port = s'.port → s.busyUntil ≤ start occupancy s') ∧
      (p.services calls).Pairwise (fun s s' => s.busyUntil ≤ s'.busyUntil) ∧
      (∀ starts, Fcfs noOfPorts.toNat occupancy []
          (calls.map (fun call => (call.currentTime : ℤ))) starts ↔
        starts = (p.services calls).map (start occupancy)) ∧
      (p.services calls).map PortService.eventTime = List.zipWith
        (fun call s => some (call.eventTime + (s.busyUntil + latency))) calls
        (p.services calls) := by
  rw [new, if_neg (by decide)] at hnew
  obtain ⟨⟨hk, hocc⟩, heq⟩ := Option.ite_none_right_eq_some.mp hnew
  have hlength : p.portBusyUntil.length = noOfPorts.toNat := by
    rw [← Option.some.inj heq]
    exact List.length_replicate
  have hidle : ∀ i < p.portBusyUntil.length, p.busy i ≤ 0 := by
    intro i _
    rw [← Option.some.inj heq, busy]
    simp
  have hserves : p.Serves [] calls (p.services calls) := by
    refine serves_services ?_ (by omega) ?_ (tracks_nil _ hidle) (fun _ _ => Int.natCast_nonneg _)
      hsorted
    · rw [← Option.some.inj heq]
    · rw [← Option.some.inj heq]
      exact le_of_lt hocc
  have hfields : p.occupancy = occupancy ∧ p.latencyOfConnectedElement = latency := by
    rw [← Option.some.inj heq]
    exact ⟨rfl, rfl⟩
  have hseparate := hserves.separate
  have hqueue := hserves.queue
  have htime := hserves.eventTime
  rw [hfields.1] at hseparate
  rw [hlength, hfields.1] at hqueue
  rw [hfields.2] at htime
  refine ⟨fun s hs => ⟨?_, Int.sub_add_cancel _ _⟩, hseparate, ?_, ?_, htime⟩
  · have := hserves.port s hs
    omega
  · have hstarts := List.pairwise_map.mp hqueue.sorted.1
    exact hstarts.imp (fun hle => (Int.sub_le_sub_right_iff).mp hle)
  · intro starts
    constructor
    · exact fun h => h.unique hqueue
    · rintro rfl
      exact hqueue

theorem services_two_slots :
    (((⟨.firstComeFirstServe, 1, 3, [0, 0]⟩ : Port).services
      [⟨4, 0⟩, ⟨4, 0⟩, ⟨5, 0⟩]).Pairwise (fun s s' => s.busyUntil ≤ s'.busyUntil)) :=
  (services_fcfs (show new .firstComeFirstServe 2 3 1 = some _ from rfl) (by decide)).2.2.1

end Port

end Tejas
