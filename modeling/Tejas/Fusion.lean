import Mathlib.Algebra.Ring.Int.Defs
import Mathlib.Algebra.Ring.Nat
import Mathlib.Logic.Function.Iterate
import Tejas.PacketReader

/-!
# Fusion of static micro-operations with emulator packets

`ObjParser.fuseInstruction` for the emulator type PIN, with `DynamicInstructionBuffer`
and the handlers of `VisaHandlerSelector`. The micro-operations of an instruction are
copied one after another, each takes its address or branch outcome from the buffer, and
goes to `inputToPipeline`. When one of them cannot be fused the queue is cut back and
what is left in the buffer is enqueued by itself.
-/

namespace Tejas

namespace Encoding

def memRead : ℤ := 2
def memWrite : ℤ := 3
def taken : ℤ := 4
def notTaken : ℤ := 5

end Encoding

namespace Fusion

/-- The fields of a micro-operation that fusion reads and sets. -/
structure DynamicMicroOp extends MicroOp where
  sourceOperand1MemValue : ℤ
  branchTaken : Bool
  branchTargetAddress : ℤ
  deriving DecidableEq, Repr

/-! ## The dynamic instruction buffer -/

structure DynamicInstructionBuffer where
  memRead : List ℤ
  memReadCount : ℕ
  memWrite : List ℤ
  memWriteCount : ℕ
  branchInformationRead : Bool
  branchTaken : Bool
  branchAddress : ℤ
  deriving DecidableEq, Repr

namespace DynamicInstructionBuffer

/-- The length of the arrays `memRead` and `memWrite`. -/
def bufferLength : ℕ := 64

/-- `(int)p.value`. -/
def intValue (p : Packet) : ℤ := Int.bmod p.value (2 ^ 32)

def addPacket (b : DynamicInstructionBuffer) (p : Packet) : Option DynamicInstructionBuffer :=
  if intValue p = 0 ∨ intValue p = 1 then none
  else if intValue p = Encoding.memRead then
    if b.memRead.length < bufferLength then some { b with memRead := b.memRead ++ [p.tgt] }
    else none
  else if intValue p = Encoding.memWrite then
    if b.memWrite.length < bufferLength then some { b with memWrite := b.memWrite ++ [p.tgt] }
    else none
  else if intValue p = Encoding.taken then
    some { b with branchTaken := true, branchAddress := p.tgt }
  else if intValue p = Encoding.notTaken then
    some { b with branchTaken := false, branchAddress := p.tgt }
  else some b

/-- `branchTaken` keeps its value from the instruction before. -/
def clear (b : DynamicInstructionBuffer) : DynamicInstructionBuffer :=
  { b with
    memRead := []
    memReadCount := 0
    memWrite := []
    memWriteCount := 0
    branchInformationRead := false
    branchAddress := -1 }

def configurePackets (b : DynamicInstructionBuffer) (packets : List Packet) :
    Option DynamicInstructionBuffer :=
  packets.foldlM addPacket b.clear

def getSingleLoadAddress (b : DynamicInstructionBuffer) : ℤ × DynamicInstructionBuffer :=
  match b.memRead[b.memReadCount]? with
  | some address => (address, { b with memReadCount := b.memReadCount + 1 })
  | none => (-1, b)

def getSingleStoreAddress (b : DynamicInstructionBuffer) : ℤ × DynamicInstructionBuffer :=
  match b.memWrite[b.memWriteCount]? with
  | some address => (address, { b with memWriteCount := b.memWriteCount + 1 })
  | none => (-1, b)

/-- `getBranchTaken` and `getBranchAddress`. -/
def getBranch (b : DynamicInstructionBuffer) : Bool × ℤ × DynamicInstructionBuffer :=
  (b.branchTaken, b.branchAddress, { b with branchInformationRead := true })

def isBranchInformationReadNeeded (b : DynamicInstructionBuffer) : Bool :=
  !b.branchInformationRead && b.branchAddress ≠ -1

def missedInformation (b : DynamicInstructionBuffer) : Bool :=
  b.memReadCount < b.memRead.length || b.memWriteCount < b.memWrite.length ||
    b.isBranchInformationReadNeeded

end DynamicInstructionBuffer

open DynamicInstructionBuffer

/-! ## The handlers -/

/-- Whether the micro-operation is fused, and the micro-operation and the buffer after
it. An operation without a handler is an error. -/
def handle (op : DynamicMicroOp) (b : DynamicInstructionBuffer) :
    Option (Bool × DynamicMicroOp × DynamicInstructionBuffer) :=
  match op.operationType with
  | .load =>
    let (memoryReadAddress, b) := b.getSingleLoadAddress
    if memoryReadAddress ≠ -1 then
      some (true, { op with sourceOperand1MemValue := memoryReadAddress }, b)
    else some (false, op, b)
  | .store =>
    let (memoryWriteAddress, b) := b.getSingleStoreAddress
    if memoryWriteAddress ≠ -1 then
      some (true, { op with sourceOperand1MemValue := memoryWriteAddress }, b)
    else some (false, op, b)
  | .branch =>
    let (branchTaken, branchAddress, b) := b.getBranch
    if branchAddress ≠ -1 then
      some (true, { op with branchTaken := branchTaken, branchTargetAddress := branchAddress }, b)
    else some (false, op, b)
  | .jump =>
    let (_, branchAddress, b) := b.getBranch
    if branchAddress ≠ -1 then
      some (true, { op with branchTaken := true, branchTargetAddress := branchAddress }, b)
    else some (false, op, b)
  | .sync | .mfence => none
  | _ => some (true, op, b)

/-! ## The queue -/

/-- `GenericCircularQueue.enqueue` on a queue of `n` places. -/
def enqueue (n : ℕ) (inputToPipeline : List DynamicMicroOp) (op : DynamicMicroOp) :
    Option (List DynamicMicroOp) :=
  if inputToPipeline.length < n then some (inputToPipeline ++ [op]) else none

/-- `removeInstructionFromTail`: pop while the queue is longer than it was. -/
def removeInstructionFromTail (inputToPipeline : List DynamicMicroOp) (previousSize : ℕ) :
    List DynamicMicroOp :=
  List.dropLast^[inputToPipeline.length - previousSize] inputToPipeline

/-! ## Fusing an instruction -/

/-- The main loop over the static micro-operations from `microOpIndex` on. The last
component says that a micro-operation could not be fused. -/
def translate (n : ℕ) (startInstructionPointer : ℤ) (prevLength : ℕ) :
    List DynamicMicroOp → DynamicInstructionBuffer → List DynamicMicroOp →
      Option (DynamicInstructionBuffer × List DynamicMicroOp × Bool)
  | [], b, inputToPipeline => some (b, inputToPipeline, false)
  | staticMicroOp :: rest, b, inputToPipeline =>
    if staticMicroOp.ciscProgramCounter ≠ startInstructionPointer then
      some (b, inputToPipeline, false)
    else do
      let (fused, dynamicMicroOp, b) ← handle staticMicroOp b
      if fused then
        let inputToPipeline ← enqueue n inputToPipeline dynamicMicroOp
        translate n startInstructionPointer prevLength rest b inputToPipeline
      else return (b, removeInstructionFromTail inputToPipeline prevLength, true)

/-- The micro-operations of `initializeControlMicroOps`. -/
def staticLoadMicroOp : DynamicMicroOp := ⟨⟨.load, 0⟩, 0, false, 0⟩
def staticStoreMicroOp : DynamicMicroOp := ⟨⟨.store, 0⟩, 0, false, 0⟩
def staticBranchMicroOp : DynamicMicroOp := ⟨⟨.branch, 0⟩, 0, false, 0⟩

/-- One of the loops of `flushDynamicInformationPackets`, `times` rounds of it. -/
def flush (n : ℕ) (staticMicroOp : DynamicMicroOp) :
    ℕ → DynamicInstructionBuffer → List DynamicMicroOp →
      Option (DynamicInstructionBuffer × List DynamicMicroOp)
  | 0, b, inputToPipeline => some (b, inputToPipeline)
  | times + 1, b, inputToPipeline => do
    let (_, dynamicMicroOp, b) ← handle staticMicroOp b
    let inputToPipeline ← enqueue n inputToPipeline dynamicMicroOp
    flush n staticMicroOp times b inputToPipeline

def flushDynamicInformationPackets (n : ℕ) (b : DynamicInstructionBuffer)
    (inputToPipeline : List DynamicMicroOp) :
    Option (DynamicInstructionBuffer × List DynamicMicroOp) := do
  let (b, inputToPipeline) ←
    flush n staticLoadMicroOp (b.memRead.length - b.memReadCount) b inputToPipeline
  let (b, inputToPipeline) ←
    flush n staticStoreMicroOp (b.memWrite.length - b.memWriteCount) b inputToPipeline
  flush n staticBranchMicroOp (if b.isBranchInformationReadNeeded then 1 else 0) b inputToPipeline

/-- `ciscIPtoRiscIP.getMicroOpIndex`, corrected to 0 where the entry is not one of the
instruction. An entry behind the end of the list is an exception. -/
def startIndex (ciscIPtoRiscIP : ℤ → Option ℕ) (staticMicroOpList : List DynamicMicroOp)
    (startInstructionPointer : ℤ) : Option ℕ :=
  match ciscIPtoRiscIP startInstructionPointer with
  | none => some 0
  | some microOpIndex =>
    staticMicroOpList[microOpIndex]?.map (fun op =>
      if op.ciscProgramCounter ≠ startInstructionPointer then 0 else microOpIndex)

/-- `fuseInstruction`. The result holds the queue, and whether a micro-operation could not
be fused; `none` is an error exit. -/
def fuseInstruction (n : ℕ) (ciscIPtoRiscIP : ℤ → Option ℕ)
    (staticMicroOpList : List DynamicMicroOp) (startInstructionPointer : ℤ)
    (arrayListPacket : List Packet) (b : DynamicInstructionBuffer)
    (inputToPipeline : List DynamicMicroOp) :
    Option (DynamicInstructionBuffer × List DynamicMicroOp × Bool) := do
  let b ← b.configurePackets arrayListPacket
  let microOpIndex ← startIndex ciscIPtoRiscIP staticMicroOpList startInstructionPointer
  let (b, inputToPipeline, removedFromTail) ← translate n startInstructionPointer
    inputToPipeline.length (staticMicroOpList.drop microOpIndex) b inputToPipeline
  if b.missedInformation then
    let (b, inputToPipeline) ← flushDynamicInformationPackets n b inputToPipeline
    return (b, inputToPipeline, removedFromTail)
  else return (b, inputToPipeline, removedFromTail)

/-! ## What the packets say and what the micro-operations carry -/

def readsOf (packets : List Packet) : List ℤ :=
  (packets.filter (fun p => intValue p = Encoding.memRead)).map Packet.tgt

def writesOf (packets : List Packet) : List ℤ :=
  (packets.filter (fun p => intValue p = Encoding.memWrite)).map Packet.tgt

/-- The branch outcome: of the last packet that tells one. -/
def branchOf (packets : List Packet) : Option (Bool × ℤ) :=
  (packets.filter (fun p =>
    intValue p = Encoding.taken ∨ intValue p = Encoding.notTaken)).getLast?.map
      (fun p => (decide (intValue p = Encoding.taken), p.tgt))

def loadsIn (ops : List DynamicMicroOp) : List ℤ :=
  (ops.filter (fun op => op.operationType = .load)).map (·.sourceOperand1MemValue)

def storesIn (ops : List DynamicMicroOp) : List ℤ :=
  (ops.filter (fun op => op.operationType = .store)).map (·.sourceOperand1MemValue)

def isControl (type : OperationType) : Bool := type = .branch || type = .jump

def branchesIn (ops : List DynamicMicroOp) : List (Bool × ℤ) :=
  (ops.filter (fun op => isControl op.operationType)).map
    (fun op => (op.branchTaken, op.branchTargetAddress))

/-- A micro-operation that `flushDynamicInformationPackets` enqueues. -/
def Flushed (op : DynamicMicroOp) : Prop :=
  op.toMicroOp = staticLoadMicroOp.toMicroOp ∨ op.toMicroOp = staticStoreMicroOp.toMicroOp ∨
    op.toMicroOp = staticBranchMicroOp.toMicroOp

/-- The micro-operations that were enqueued carry the information of the packets, each
piece once and in order, and after a failure only micro-operations of the flush are
among them. -/
def Conserves (packets : List Packet) (before after : List DynamicMicroOp) (failed : Bool) :
    Prop :=
  ∃ enqueued, after = before ++ enqueued ∧ loadsIn enqueued = readsOf packets ∧
    storesIn enqueued = writesOf packets ∧ branchesIn enqueued = (branchOf packets).toList ∧
    (failed = true → ∀ op ∈ enqueued, Flushed op)

/-! ## The condition -/

/-- The operations in front of the first one that finds no information left for it, and
whether there is no such operation. -/
def fusedBefore (reads writes : ℕ) (branch : Bool) :
    List OperationType → List OperationType × Bool
  | [] => ([], true)
  | .load :: rest =>
    match reads with
    | 0 => ([], false)
    | reads + 1 =>
      let r := fusedBefore reads writes branch rest
      (.load :: r.1, r.2)
  | .store :: rest =>
    match writes with
    | 0 => ([], false)
    | writes + 1 =>
      let r := fusedBefore reads writes branch rest
      (.store :: r.1, r.2)
  | type :: rest =>
    if isControl type && !branch then ([], false)
    else
      let r := fusedBefore reads writes branch rest
      (type :: r.1, r.2)

/-- The operations of the micro-operations that belong to the instruction. -/
def operationsOf (staticMicroOpList : List DynamicMicroOp) (microOpIndex : ℕ)
    (startInstructionPointer : ℤ) : List OperationType :=
  ((staticMicroOpList.drop microOpIndex).takeWhile
    (fun op => op.ciscProgramCounter = startInstructionPointer)).map (·.operationType)

/-- When all operations can be fused at most one of them takes the branch outcome, and a
jump only a taken one. When one cannot be fused, none in front of it takes anything. -/
def TakesRight (packets : List Packet) (operations : List OperationType) : Prop :=
  let r := fusedBefore (readsOf packets).length (writesOf packets).length
    (branchOf packets).isSome operations
  if r.2 then
    (r.1.filter isControl).length ≤ 1 ∧
      (OperationType.jump ∈ r.1 → ∀ outcome, branchOf packets = some outcome → outcome.1 = true)
  else OperationType.load ∉ r.1 ∧ OperationType.store ∉ r.1 ∧ r.1.filter isControl = []

/-- No address is `-1`, the value that stands for a missing one. -/
def Addressed (packets : List Packet) : Prop :=
  -1 ∉ readsOf packets ∧ -1 ∉ writesOf packets ∧
    ∀ outcome, branchOf packets = some outcome → outcome.2 ≠ -1

end Fusion

end Tejas
