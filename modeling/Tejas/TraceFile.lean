import Mathlib.Data.Nat.Digits.Defs
import Tejas.AsmCharPool
import Tejas.PacketReader

/-!
# Trace files

`FileWrite.java` writes the packets of one thread to a file, one line a packet, and
`FilePacket.java` reads them back. A file and its lines are lists of bytes. The writer
collects a thousand lines in `sb` before it writes them. An instruction becomes an
assembly packet whose text is found by its address, and the reader puts the text
into `CustomAsmCharPool`.

The reader is the one without subset simulation and with `NumInsToIgnore` 0. The tests
on the number of ignored instructions then never hold, for the counter of assembly
packets is increased before them.
-/

namespace Tejas.TraceFile

open CustomAsmCharPool (copyRow rowText)

/-- `s.charAt(i)` for the characters the format itself uses. -/
def space : UInt8 := 32
def minus : UInt8 := 45
def plus : UInt8 := 43
def zero : UInt8 := 48
def newline : UInt8 := 10
def carriageReturn : UInt8 := 13

/-! ## Numbers -/

def digitByte (d : ℕ) : UInt8 := UInt8.ofNat (48 + d)

/-- The decimal digits of a number, the highest first. -/
def decimal (n : ℕ) : List UInt8 :=
  if n = 0 then [zero] else ((Nat.digits 10 n).map digitByte).reverse

/-- `Long.toString`. -/
def printLong (x : ℤ) : List UInt8 :=
  if x < 0 then minus :: decimal x.natAbs else decimal x.natAbs

/-- `Util.parseLong`: every character counts as a digit. -/
def parseLong (s : List UInt8) : ℤ :=
  s.foldl (fun ret c => Long.wrap (Long.wrap (ret * 10) + (c.toNat - 48))) 0

def isDigit (c : UInt8) : Bool := 48 ≤ c.toNat && c.toNat ≤ 57

/-- The value of a nonempty row of digits. -/
def digitsValue (s : List UInt8) : Option ℕ :=
  if s ≠ [] ∧ s.all isDigit then some (s.foldl (fun n c => n * 10 + (c.toNat - 48)) 0) else none

def inRange (x : ℤ) : Option ℤ := if -2 ^ 63 ≤ x ∧ x < 2 ^ 63 then some x else none

/-- `java.lang.Long.parseLong`; `none` is a `NumberFormatException`. -/
def javaParseLong : List UInt8 → Option ℤ
  | [] => none
  | c :: s =>
    if c = minus then (digitsValue s).bind (fun n => inRange (-n))
    else if c = plus then (digitsValue s).bind (fun n => inRange n)
    else (digitsValue (c :: s)).bind (fun n => inRange n)

/-! ## The writer -/

/-- A text as `FileWrite` finds it in its table: put together from a line of the
disassembly. -/
def AsmText : Type :=
  { text : List UInt8 // text.length < 64 ∧ ∀ c ∈ text, c ≠ 0 ∧ c ≠ newline ∧ c ≠ carriageReturn }

structure FileWrite where
  out : List UInt8
  sb : List UInt8
  count : ℕ

namespace FileWrite

def new : FileWrite := ⟨[], [], 0⟩

/-- `ip+" "+val+" "+addr_asm+"\n"`. -/
def line (ip val : ℤ) (addr_asm : List UInt8) : List UInt8 :=
  printLong ip ++ space :: (printLong val ++ space :: (addr_asm ++ [newline]))

/-- The call that finds `sb` full empties it, and writes nothing of its own. -/
def printToFileIpValAddr (w : FileWrite) (ip val : ℤ) (addr_asm : List UInt8) : FileWrite :=
  if w.count < 1000 then
    { w with sb := w.sb ++ line ip val addr_asm, count := w.count + 1 }
  else { out := w.out ++ w.sb, sb := [], count := 0 }

/-- `analysisFn`. -/
def analysisFn (hashtable : Long → Option AsmText) (w : FileWrite) (ip val addr : Long) :
    FileWrite :=
  if val.1 = Encoding.timer then w
  else if val.1 ≠ Encoding.instruction then
    w.printToFileIpValAddr ip.1 val.1 (printLong addr.1)
  else
    match hashtable ip with
    | some asmb => w.printToFileIpValAddr ip.1 Encoding.assembly asmb.1
    | none => w

/-- `closeFile`: the bytes of the file. -/
def closeFile (w : FileWrite) : List UInt8 := if 0 < w.count then w.out ++ w.sb else w.out

end FileWrite

/-- A packet given to the writer. -/
structure TracePacket where
  ip : Long
  val : Long
  addr : Long

/-- The file written for a sequence of packets. -/
def writeFile (hashtable : Long → Option AsmText) (packets : List TracePacket) : List UInt8 :=
  (packets.foldl (fun w p => w.analysisFn hashtable p.ip p.val p.addr) FileWrite.new).closeFile

/-! ## The reader -/

/-- `BufferedReader.readLine`: the next line without its end, and what follows it. -/
def readLine : List UInt8 → Option (List UInt8 × List UInt8)
  | [] => none
  | bytes =>
    let line := bytes.takeWhile (fun c => c ≠ newline ∧ c ≠ carriageReturn)
    let behind := bytes.dropWhile (fun c => c ≠ newline ∧ c ≠ carriageReturn)
    match behind with
    | 13 :: 10 :: rest => some (line, rest)
    | _ :: rest => some (line, rest)
    | [] => some (line, [])

/-- The delimiters a `StringTokenizer` starts with. -/
def blanks : List UInt8 := [32, 9, 10, 13, 12]

/-- `StringTokenizer.nextToken`: the next token and what follows it. -/
def nextToken (delims : List UInt8) (s : List UInt8) : Option (List UInt8 × List UInt8) :=
  let start := s.dropWhile (fun c => c ∈ delims)
  if start = [] then none
  else some (start.takeWhile (fun c => c ∉ delims), start.dropWhile (fun c => c ∉ delims))

/-- One thread's reader: the rest of its file, the pool of texts, the packets it has
enqueued, and the texts taken out of the pool. -/
structure FilePacket where
  rest : List UInt8
  asmPool : CircularQueue (ℕ → UInt8)
  packets : List Packet
  texts : List (List UInt8)

namespace FilePacket

def openFile (file : List UInt8) : FilePacket where
  rest := file
  asmPool := .empty (fun _ => 0)
  packets := []
  texts := []

/-- `fromEmulator.enqueue(ip, value, tgt)`. -/
def enqueue (s : FilePacket) (ip value tgt : ℤ) : FilePacket :=
  { s with packets := s.packets ++ [⟨ip, value, tgt⟩] }

/-- The body of the loop for one line. -/
def addLine (s : FilePacket) (inputLine : List UInt8) : Option FilePacket := do
  let (ipToken, behind) ← nextToken blanks inputLine
  let (valueToken, behind) ← nextToken blanks behind
  let value ← javaParseLong valueToken
  if value ≠ Encoding.assembly then
    let (tgtToken, _) ← nextToken blanks behind
    return s.enqueue (parseLong ipToken) value (parseLong tgtToken)
  else
    let (text, _) ← nextToken [newline] behind
    let asmPool ← s.asmPool.enqueue CustomAsmCharPool.bufferSize
      (copyRow (fun i => text.getD i 0) text.length 1)
    return { s with asmPool := asmPool }.enqueue (parseLong ipToken) value (-1)

/-- `fetchManyPackets` with `maxSize` free places in the packet queue. An exception or a
full pool ends the simulator. -/
def fetchManyPackets (s : FilePacket) : ℕ → Option FilePacket
  | 0 => some s
  | maxSize + 1 =>
    match readLine s.rest with
    | none => some s
    | some (inputLine, rest) => do
      let s ← { s with rest := rest }.addLine inputLine
      s.fetchManyPackets maxSize

/-- The translator takes a text out of the pool. -/
def dequeueText (s : FilePacket) : Option FilePacket :=
  (s.asmPool.dequeue CustomAsmCharPool.bufferSize).map (fun r =>
    { s with asmPool := r.2, texts := s.texts ++ [rowText r.1] })

inductive Action
  | fetchManyPackets (maxSize : ℕ)
  | dequeueText
  deriving DecidableEq, Repr

def next (s : FilePacket) : Action → Option FilePacket
  | .fetchManyPackets maxSize => s.fetchManyPackets maxSize
  | .dequeueText => s.dequeueText

/-- The texts taken out of the pool and those still in it. -/
def deliveredTexts (s : FilePacket) : List (List UInt8) :=
  s.texts ++ (s.asmPool.contents CustomAsmCharPool.bufferSize).map rowText

end FilePacket

/-! ## What the round trip should deliver -/

/-- What the reader should see of a packet, and the text beside it. -/
inductive Seen
  | data (ip val addr : Long)
  | assembly (ip : Long) (asmb : AsmText)

namespace Seen

def packet : Seen → Packet
  | data ip val addr => ⟨ip.1, val.1, addr.1⟩
  | assembly ip _ => ⟨ip.1, Encoding.assembly, -1⟩

def texts : Seen → List (List UInt8)
  | data _ _ _ => []
  | assembly _ asmb => [asmb.1]

end Seen

/-- Timer packets and instructions of unknown address are left out. -/
def seen (hashtable : Long → Option AsmText) (p : TracePacket) : List Seen :=
  if p.val.1 = Encoding.timer then []
  else if p.val.1 ≠ Encoding.instruction then [.data p.ip p.val p.addr]
  else
    match hashtable p.ip with
    | some asmb => [.assembly p.ip asmb]
    | none => []

def seenOf (hashtable : Long → Option AsmText) (packets : List TracePacket) : List Seen :=
  packets.flatMap (seen hashtable)

/-- Reading the file back delivers first parts of the packets and texts written, and all
of them once the file is read. -/
def RoundTrips (hashtable : Long → Option AsmText) (packets : List TracePacket) : Prop :=
  ∀ actions s,
    LabelledRuns.Run (LabelledRuns.StepOf FilePacket.next)
      (FilePacket.openFile (writeFile hashtable packets)) actions s →
    s.packets <+: (seenOf hashtable packets).map Seen.packet ∧
      s.deliveredTexts <+: (seenOf hashtable packets).flatMap Seen.texts ∧
      (s.rest = [] → s.packets = (seenOf hashtable packets).map Seen.packet ∧
        s.deliveredTexts = (seenOf hashtable packets).flatMap Seen.texts)

/-- The numbers that `Util.parseLong` reads as they were printed: those without a sign,
and one with a sign, by accident of the overflow. -/
def Readable (x : Long) : Prop := 0 ≤ x.1 ∨ x.1 = -5776627963145224192

/-- What the lines of a packet need to be read back. -/
def Seen.Readable : Seen → Prop
  | data ip val addr =>
    TraceFile.Readable ip ∧ TraceFile.Readable addr ∧ val.1 ≠ Encoding.assembly
  | assembly ip _ => TraceFile.Readable ip

end Tejas.TraceFile
