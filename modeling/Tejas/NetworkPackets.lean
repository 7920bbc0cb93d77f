import Mathlib.Data.Vector.Basic
import Tejas.AsmCharPool
import Tejas.PacketReader

/-!
# Packets from the network

`Network.java` for one application thread of QEMU: the bytes of the socket are read
into `inputBytes`, packets are cut off its front and go to the packet queue, and the
bytes of a packet that is not complete are moved to the front for the next call. An
assembly packet carries 64 bytes of text, which go to `CustomAsmCharPool`.

A step is a call of `fetchManyPackets`, or the reader takes a packet or a text out of
its queue. `packets` and `texts` collect what the reader has taken.
-/

namespace Tejas

/-- `CircularPacketQueue.enqueue`. For QEMU the instruction pointer is stored as it
comes: `EmulatorConfig.IP_Offset` keeps its initial value 0. -/
def enqueuePacket (n : ℕ) (q : CircularQueue Packet) (ip value tgt : ℤ) :
    Option (CircularQueue Packet) :=
  q.enqueue n (fun _ => ⟨ip, value, tgt⟩)

/-- One thread's side of the connection. `unread` are the bytes of the stream that have
not been read from the socket. -/
structure Network where
  unread : List UInt8
  inputBytes : ℕ → UInt8
  numOverflowBytes : ℕ
  fromEmulator : CircularQueue Packet
  asmPool : CircularQueue (ℕ → UInt8)
  packets : List Packet
  texts : List (List UInt8)

namespace Network

open CustomAsmCharPool (copyRow rowBytes)

/-- The size of `inputBytes`. -/
def bufferSize : ℕ := 16 * 1024

def start (stream : List UInt8) : Network where
  unread := stream
  inputBytes := fun _ => 0
  numOverflowBytes := 0
  fromEmulator := .empty ⟨0, 0, 0⟩
  asmPool := .empty (fun _ => 0)
  packets := []
  texts := []

/-- `value = (value << 8) + (inputBytes[i+offset] & 0xff)`, for `i` from 7 down to 0. -/
def getLong (inputBytes : ℕ → UInt8) (offset : ℕ) : ℤ :=
  ((List.range 8).reverse).foldl
    (fun value i => Long.wrap (value * 256 + (inputBytes (i + offset)).toNat)) 0

/-- Move the bytes that are not consumed to the front. -/
def resetInputBytes (s : Network) (numBytesRead numBytesConsumed : ℕ) : Network :=
  { s with
    inputBytes := fun i =>
      if i < numBytesRead - numBytesConsumed then s.inputBytes (i + numBytesConsumed)
      else s.inputBytes i
    numOverflowBytes := numBytesRead - numBytesConsumed }

/-- The loop of `fetchManyPackets` with `free` places left in the packet queue. When it
ends because the queue is full the bytes that are left stay where they are. -/
def addPackets (n : ℕ) (numBytesRead : ℕ) : ℕ → ℕ → Network → Option Network
  | 0, _, s => some s
  | free + 1, numBytesConsumed, s =>
    if numBytesRead - numBytesConsumed < 3 * 8 then
      some (s.resetInputBytes numBytesRead numBytesConsumed)
    else
      let ip := getLong s.inputBytes numBytesConsumed
      let value := getLong s.inputBytes (numBytesConsumed + 8)
      if value = Encoding.assembly then
        if numBytesRead - (numBytesConsumed + 16) < 64 then
          some (s.resetInputBytes numBytesRead numBytesConsumed)
        else do
          let asmPool ← s.asmPool.enqueue CustomAsmCharPool.bufferSize
            (copyRow s.inputBytes bufferSize (numBytesConsumed + 16))
          let fromEmulator ← enqueuePacket n s.fromEmulator ip value (-1)
          addPackets n numBytesRead free (numBytesConsumed + 80)
            { s with asmPool := asmPool, fromEmulator := fromEmulator }
      else
        let tgt := getLong s.inputBytes (numBytesConsumed + 16)
        -- bytes behind the last packet of a thread are an error
        if value = Encoding.threadComplete ∧ numBytesConsumed + 24 ≠ numBytesRead then none
        else do
          let fromEmulator ← enqueuePacket n s.fromEmulator ip value tgt
          addPackets n numBytesRead free (numBytesConsumed + 24)
            { s with fromEmulator := fromEmulator }

/-- The number of bytes a call reads when `available` have arrived. -/
def numBytes (s : Network) (available : ℕ) : ℕ :=
  min available (bufferSize - s.numOverflowBytes)

/-- `inputStream.read(inputBytes, numOverflowBytes, numBytesRead)`. -/
def readBytes (s : Network) (numBytesRead : ℕ) : Network :=
  { s with
    unread := s.unread.drop numBytesRead
    inputBytes := fun i =>
      if s.numOverflowBytes ≤ i ∧ i < s.numOverflowBytes + numBytesRead then
        s.unread.getD (i - s.numOverflowBytes) 0
      else s.inputBytes i
    numOverflowBytes := 0 }

/-- `fetchManyPackets` when `inputStream.available()` says `available`. -/
def fetchManyPackets (n : ℕ) (s : Network) (available : ℕ) : Option Network :=
  if available = 0 then some s
  else
    let numBytesRead := s.numBytes available
    addPackets n (numBytesRead + s.numOverflowBytes) (s.fromEmulator.spaceLeft n) 0
      (s.readBytes numBytesRead)

/-- The reader takes a packet out of `fromEmulator`. -/
def dequeuePacket (n : ℕ) (s : Network) : Option Network :=
  (s.fromEmulator.dequeue n).map (fun r =>
    { s with fromEmulator := r.2, packets := s.packets ++ [r.1] })

/-- The reader takes a text out of `CustomAsmCharPool`. -/
def dequeueText (s : Network) : Option Network :=
  (s.asmPool.dequeue CustomAsmCharPool.bufferSize).map (fun r =>
    { s with asmPool := r.2, texts := s.texts ++ [rowBytes r.1] })

inductive Action
  | fetchManyPackets (available : ℕ)
  | dequeuePacket
  | dequeueText
  deriving DecidableEq, Repr

/-- `available()` never counts bytes that have not been sent. -/
def next (n : ℕ) (s : Network) : Action → Option Network
  | .fetchManyPackets available =>
    if available ≤ s.unread.length then s.fetchManyPackets n available else none
  | .dequeuePacket => s.dequeuePacket n
  | .dequeueText => s.dequeueText

/-! ## The stream -/

/-- `x` as eight bytes, the lowest first. -/
def putLong (x : ℤ) : List UInt8 :=
  (List.range 8).map (fun i => UInt8.ofNat (x / 256 ^ i % 256).toNat)

/-- A packet on the wire: `ip`, `value` and either `tgt` or 64 bytes of assembly. -/
inductive Record
  | data (ip value tgt : Long) (other : value.1 ≠ Encoding.assembly)
  | assembly (ip : Long) (text : List.Vector UInt8 64)

namespace Record

def encode : Record → List UInt8
  | data ip value tgt _ => putLong ip.1 ++ putLong value.1 ++ putLong tgt.1
  | assembly ip text => putLong ip.1 ++ putLong Encoding.assembly ++ text.1

def packet : Record → Packet
  | data ip value tgt _ => ⟨ip.1, value.1, tgt.1⟩
  | assembly ip _ => ⟨ip.1, Encoding.assembly, -1⟩

def texts : Record → List (List UInt8)
  | data _ _ _ _ => []
  | assembly _ text => [text.1]

end Record

/-- The bytes of a sequence of packets. -/
def streamOf (records : List Record) : List UInt8 := records.flatMap Record.encode

/-- All packets delivered: taken by the reader or still in the queue. -/
def delivered (n : ℕ) (s : Network) : List Packet := s.packets ++ s.fromEmulator.contents n

def deliveredTexts (s : Network) : List (List UInt8) :=
  s.texts ++ (s.asmPool.contents CustomAsmCharPool.bufferSize).map rowBytes

/-- The bytes a call has in hand: those left over and those it reads. -/
def inHand (s : Network) (available : ℕ) : List UInt8 :=
  (List.range s.numOverflowBytes).map s.inputBytes ++ s.unread.take (s.numBytes available)

/-- The number of bytes of the packet at the front, if it is there to its end. -/
def frontLength (bytes : List UInt8) : Option ℕ :=
  let value := getLong (fun i => bytes.getD i 0) 8
  if bytes.length < 24 then none
  else if value = Encoding.assembly then if bytes.length < 80 then none else some 80
  else some 24

/-- The packets at the front do not use up `free` places, or they do and no byte is
behind them. -/
def Fits : ℕ → List UInt8 → Prop
  | 0, bytes => bytes = []
  | free + 1, bytes =>
    match frontLength bytes with
    | none => True
    | some l => Fits free (bytes.drop l)

instance Fits.decidable : ∀ free bytes, Decidable (Fits free bytes)
  | 0, bytes => inferInstanceAs (Decidable (bytes = []))
  | free + 1, bytes => by
    unfold Fits
    cases frontLength bytes with
    | none => exact isTrue trivial
    | some l => exact Fits.decidable free (bytes.drop l)

/-- The condition on a step: a call never stops for want of queue space while it has
bytes in hand. -/
def QueueHolds (n : ℕ) (s : Network) : Action → Prop
  | .fetchManyPackets available =>
    available = 0 ∨ Fits (s.fromEmulator.spaceLeft n) (s.inHand available)
  | .dequeuePacket | .dequeueText => True

instance (n : ℕ) (s : Network) (a : Action) : Decidable (QueueHolds n s a) := by
  cases a with
  | fetchManyPackets available =>
    exact inferInstanceAs (Decidable (available = 0 ∨ Fits _ _))
  | dequeuePacket => exact isTrue trivial
  | dequeueText => exact isTrue trivial

end Network

end Tejas
