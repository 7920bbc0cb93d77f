import Tejas.PacketReader
import Tejas.RingWindow
import Tejas.ShmLock

/-!
# The shared-memory packet channel

`shmem.cc` on the instrumentation side and `SharedMem.java` with `JNIShm.c` on the
simulator's. A packet goes through the local queue of its thread slot and through the
`COUNT` packets of the slot in the shared memory. A step is one access to the shared
memory, together with the work on a side's own data that goes with it. The two sides
take their steps in any order.

The lists `logged` and `obtained` are the history of a run: the packets for which a call
of the producer has returned, and the packets handed to the simulator. No step
reads them.
-/

namespace Tejas.ShmChannel

open LabelledRuns Peterson
open ShmLock (queueSizeWord get_lock tejas_get_lock)

/-- Packets of a slot in the shared memory. -/
def COUNT : ℕ := 1000

/-- Packets of a local queue. -/
def locQ : ℕ := 50

theorem COUNT_pos : 0 < COUNT := Nat.succ_pos _

theorem locQ_pos : 0 < locQ := Nat.succ_pos _

inductive Field
  | ip | value | tgt
  deriving DecidableEq, Repr

/-- The field that the `k`-th word of an array of packets belongs to. -/
def Field.ofWord (k : ℕ) : Field :=
  match k % 3 with
  | 0 => .ip
  | 1 => .value
  | _ => .tgt

def word (p : Packet) : Field → ℤ
  | .ip => p.ip
  | .value => p.value
  | .tgt => p.tgt

def setWord (p : Packet) (x : ℤ) : Field → Packet
  | .ip => { p with ip := x }
  | .value => { p with value := x }
  | .tgt => { p with tgt := x }

/-- A word of a packet is written over. -/
def setSlot (slots : ℕ → Packet) (i : ℕ) (f : Field) (x : ℤ) : ℕ → Packet :=
  Function.update slots i (setWord (slots i) x f)

/-- What a call of `shmwrite` is made for: to make room for a packet in a full local
queue, to empty the local queue of a finished thread, or to write its last packet. -/
inductive Call
  | analysisFn (sendPacket : Packet)
  | empty (numCISC : ℤ)
  | last (numCISC : ℤ)
  deriving DecidableEq, Repr

/-- The producer: in front of which access it stands. -/
inductive Producer
  | idle
  | starting (i : ℕ)
  | locking (call : Call)
  | copying (call : Call) (numWrite k : ℕ)
  | markingValue (numCISC : ℤ)
  | markingIp (numCISC : ℤ)
  | counting (call : Call) (numWrite : ℕ)
  | storing (call : Call) (numWrite : ℕ) (queue_size : ℤ)
  | leaving (call : Call) (written : Bool)
  deriving DecidableEq, Repr

/-- The consumer: in front of which access of `fetchManyPackets` it stands. -/
inductive Consumer
  | idle
  | sizing (spaceLeft : ℤ)
  | sized (spaceLeft size : ℤ)
  | reading (numPackets : ℕ) (ret : List ℤ)
  | updating (numPackets : ℕ)
  | storing (numPackets : ℕ) (tejasQueueSize : ℤ)
  | stored
  deriving DecidableEq, Repr

/-- One slot: the words and packets of the shared memory, the `THREAD_DATA` of the
producer, `readerLocation`, and where both sides stand. -/
structure State where
  words : ℕ → ℤ
  shmem : ℕ → Packet
  tlq : ℕ → Packet
  tlqsize : ℕ
  inPtr : ℕ
  out : ℕ
  prod_ptr : ℕ
  readerLocation : ℕ
  producer : Producer
  producerLock : Stage
  consumer : Consumer
  consumerLock : Stage
  logged : List Packet
  obtained : List Packet

/-- A fresh segment. The constructor of `Shm` does not set `prod_ptr`. -/
def initial (prod_ptr : ℕ) : State where
  words := fun _ => 0
  shmem := fun _ => ⟨0, 0, 0⟩
  tlq := fun _ => ⟨0, 0, 0⟩
  tlqsize := 0
  inPtr := 0
  out := 0
  prod_ptr := prod_ptr
  readerLocation := 0
  producer := .idle
  producerLock := .outside
  consumer := .idle
  consumerLock := .outside
  logged := []
  obtained := []

namespace State

variable (s : State)

/-- The next access of `get_lock` or `release_lock`. -/
def producerAdvance : State :=
  let moved := get_lock.advance s.words s.producerLock
  { s with words := moved.1, producerLock := moved.2 }

/-- The next access of `tejas_get_lock` or `tejas_release_lock`. -/
def consumerAdvance : State :=
  let moved := tejas_get_lock.advance s.words s.consumerLock
  { s with words := moved.1, consumerLock := moved.2 }

/-- The packet is logged in the local queue. -/
def enqueue (sendPacket : Packet) : State :=
  { s with
    tlq := Function.update s.tlq s.inPtr sendPacket
    inPtr := (s.inPtr + 1) % locQ
    tlqsize := s.tlqsize + 1
    logged := s.logged ++ [sendPacket]
    producer := .idle }

/-- `analysisFn`: a full local queue is first written to the shared memory. -/
def analysisFn (sendPacket : Packet) : State :=
  if s.tlqsize = locQ then { s with producer := .locking (.analysisFn sendPacket) }
  else s.enqueue sendPacket

/-- The loop of `onThread_finish`, at its head. -/
def onThread_finish (numCISC : ℤ) : State :=
  if s.tlqsize ≠ 0 then { s with producer := .locking (.empty numCISC) }
  else { s with producer := .locking (.last numCISC) }

/-- `onThread_start` clears the queue size and both flags, one after another and
without the lock. -/
def onThread_start : State := { s with producer := .starting 0 }

def clearWord (i : ℕ) : State :=
  { s with
    words := Function.update s.words i 0
    producer := if i < 2 then .starting (i + 1) else .idle }

/-- `numWrite = COUNT - queue_size`, in unsigned arithmetic. -/
def numWrite : ℕ := (((COUNT : ℤ) - s.words queueSizeWord) % 2 ^ 32).toNat

/-- `shmwrite` up to its first write of a packet: a slot without room is left at once. -/
def measure (call : Call) : State :=
  if s.numWrite = 0 then { s with producer := .leaving call false }
  else
    match call with
    | .last numCISC => { s with producer := .markingValue numCISC }
    | .analysisFn _ | .empty _ =>
      let numWrite := min s.numWrite s.tlqsize
      if numWrite = 0 then { s with producer := .counting call 0 }
      else { s with producer := .copying call numWrite 0 }

/-- One word of `memcpy(&shmem[(prod_ptr+i)%COUNT], &tlq[(out+i)%locQ])`. -/
def copyWord (call : Call) (numWrite k : ℕ) : State :=
  let f := Field.ofWord k
  { s with
    shmem := setSlot s.shmem ((s.prod_ptr + k / 3) % COUNT) f
      (word (s.tlq ((s.out + k / 3) % locQ)) f)
    producer := if k + 1 < 3 * numWrite then .copying call numWrite (k + 1)
      else .counting call numWrite }

def markValue (numCISC : ℤ) : State :=
  { s with
    shmem := setSlot s.shmem (s.prod_ptr % COUNT) .value Encoding.threadComplete
    producer := .markingIp numCISC }

def markIp (numCISC : ℤ) : State :=
  { s with
    shmem := setSlot s.shmem (s.prod_ptr % COUNT) .ip numCISC
    producer := .counting (.last numCISC) 1 }

/-- The packet `onThread_finish` logs. Its `tgt` is whatever the slot held before. -/
def lastPacket (numCISC : ℤ) : Packet :=
  ⟨numCISC, Encoding.threadComplete, (s.shmem (s.prod_ptr % COUNT)).tgt⟩

/-- The local books after the packets are written. -/
def book (call : Call) (numWrite : ℕ) : State :=
  match call with
  | .last numCISC => { s with logged := s.logged ++ [s.lastPacket numCISC] }
  | .analysisFn _ | .empty _ =>
    { s with out := (s.out + numWrite) % locQ, tlqsize := s.tlqsize - numWrite }

/-- `shmem[COUNT].value = queue_size`, with the books and `prod_ptr`. -/
def storeSize (call : Call) (numWrite : ℕ) (queue_size : ℤ) : State :=
  { s.book call numWrite with
    words := Function.update s.words queueSizeWord (queue_size + numWrite)
    prod_ptr := (s.prod_ptr + numWrite) % COUNT
    producer := .leaving call true }

/-- The return from `shmwrite`; `-1` goes to the caller's caller. -/
def returnFrom (call : Call) (written : Bool) : State :=
  if written then
    match call with
    | .analysisFn sendPacket => s.enqueue sendPacket
    | .empty numCISC => s.onThread_finish numCISC
    | .last _ => { s with tlqsize := 0, producer := .idle }
  else { s with producer := .idle }

/-- The next access of the producer inside a call. -/
def producerStep : Option State :=
  match s.producer with
  | .idle => none
  | .starting i => some (s.clearWord i)
  | .locking call =>
    if s.producerLock = .inside then some (s.measure call) else some s.producerAdvance
  | .copying call numWrite k => some (s.copyWord call numWrite k)
  | .markingValue numCISC => some (s.markValue numCISC)
  | .markingIp numCISC => some (s.markIp numCISC)
  | .counting call numWrite =>
    some { s with producer := .storing call numWrite (s.words queueSizeWord) }
  | .storing call numWrite queue_size => some (s.storeSize call numWrite queue_size)
  | .leaving call written => some (s.producerAdvance.returnFrom call written)

/-- The packet of the slot that `shmreadMult` copies to place `i` of its result: in one
piece, or in two when the packets go round the end. -/
def sourceSlot (index num i : ℕ) : ℕ :=
  if index + num < COUNT then index + i
  else if i < COUNT - index then index + i
  else i - (COUNT - index)

/-- The `k`-th word that `shmreadMult` copies. -/
def readWord (num k : ℕ) : ℤ :=
  word (s.shmem (sourceSlot s.readerLocation num (k / 3))) (Field.ofWord k)

/-- `fromEmulator.enqueue(ret[3*i], ret[3*i+1], ret[3*i+2])` for every `i`. -/
def packetsOf : List ℤ → List Packet
  | ip :: value :: tgt :: rest => ⟨ip, value, tgt⟩ :: packetsOf rest
  | _ => []

/-- The return from `numPacketsAlternate`: nothing to read, no room, or the number of
packets to read. -/
def choose (spaceLeft size : ℤ) : State :=
  let numPackets := (min size spaceLeft).toNat
  if numPackets = 0 then { s with consumer := .idle }
  else { s with consumer := .reading numPackets [] }

/-- The return from `shmreadMult`. -/
def handOver (numPackets : ℕ) (ret : List ℤ) : State :=
  { s with
    obtained := s.obtained ++ packetsOf ret
    readerLocation := (s.readerLocation + numPackets) % COUNT
    consumer := .updating numPackets }

/-- The next access of the consumer inside `fetchManyPackets`. -/
def consumerStep : Option State :=
  match s.consumer with
  | .idle => none
  | .sizing spaceLeft =>
    if s.consumerLock = .inside then
      some { s with consumer := .sized spaceLeft (s.words queueSizeWord) }
    else some s.consumerAdvance
  | .sized spaceLeft size => some (s.consumerAdvance.choose spaceLeft size)
  | .reading numPackets ret =>
    if s.consumerLock = .inside then
      if ret.length < 3 * numPackets then
        some { s with
          consumer := .reading numPackets (ret ++ [s.readWord numPackets ret.length]) }
      else some (s.consumerAdvance.handOver numPackets ret)
    else some s.consumerAdvance
  | .updating numPackets =>
    if s.consumerLock = .inside then
      some { s with consumer := .storing numPackets (s.words queueSizeWord) }
    else some s.consumerAdvance
  | .storing numPackets tejasQueueSize =>
    some { s with
      words := Function.update s.words queueSizeWord (tejasQueueSize - numPackets)
      consumer := .stored }
  | .stored => some { s.consumerAdvance with consumer := .idle }

end State

/-- A call of either side, or the next access of a side that is in a call. -/
inductive Action
  | onThread_start
  | analysisFn (sendPacket : Packet)
  | onThread_finish (numCISC : ℤ)
  | fetchManyPackets (spaceLeft : ℤ)
  | producer
  | consumer
  deriving DecidableEq, Repr

def next (s : State) : Action → Option State
  | .onThread_start => if s.producer = .idle then some s.onThread_start else none
  | .analysisFn sendPacket => if s.producer = .idle then some (s.analysisFn sendPacket) else none
  | .onThread_finish numCISC =>
    if s.producer = .idle then some (s.onThread_finish numCISC) else none
  | .fetchManyPackets spaceLeft =>
    if s.consumer = .idle then some { s with consumer := .sizing spaceLeft } else none
  | .producer => s.producerStep
  | .consumer => s.consumerStep

/-- The packets of the slot that the queue size counts, from `readerLocation` on. -/
def State.unread (s : State) : List Packet :=
  (List.range (s.words queueSizeWord).toNat).map
    (fun i => s.shmem ((s.readerLocation + i) % COUNT))

/-- The packets of the local queue. -/
def State.queued (s : State) : List Packet :=
  (List.range s.tlqsize).map (fun i => s.tlq ((s.out + i) % locQ))

/-- The packets obtained are the first packets logged, and whenever neither side is in
a call the others are still there in their order. -/
def Delivers (s : State) : Prop :=
  s.obtained <+: s.logged ∧
    (s.producer = .idle → s.consumer = .idle → s.logged = s.obtained ++ s.unread ++ s.queued)

/-- The condition on a step: a thread starts on a slot whose queue is empty. -/
def StartsEmpty (s : State) (a : Action) : Prop :=
  a = .onThread_start → s.words queueSizeWord = 0

instance (s : State) (a : Action) : Decidable (StartsEmpty s a) :=
  inferInstanceAs (Decidable (a = .onThread_start → s.words queueSizeWord = 0))

end Tejas.ShmChannel
