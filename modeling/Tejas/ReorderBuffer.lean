import Tejas.Instructions
import Tejas.RenameTable

/-!
# The reorder buffer

`ReorderBuffer.java` is a ring of entries in program order. An entry records the
physical registers of its instruction, which of its operands are available, and how far
the instruction has come. A result is announced to the entries behind its producer.
-/

namespace Tejas
open RingIndices

/-- What an entry records of one source operand. The second register and the two flags
`available1` and `available2` are for the parts of the address of a memory operand. -/
structure OperandStatus where
  phyReg1 : Option ℕ
  phyReg2 : Option ℕ
  available1 : Bool
  available2 : Bool
  available : Bool
  deriving DecidableEq, Repr

/-- `ReorderBufferEntry.java`; the position in the buffer is the index of the entry. -/
structure ReorderBufferEntry where
  instruction : Instruction
  threadID : ℕ
  operand1 : OperandStatus
  operand2 : OperandStatus
  physicalDestinationRegister : Option ℕ
  isRenameDone : Bool
  isIssued : Bool
  isExecuted : Bool
  isWriteBackDone : Bool
  associatedIWEntry : Bool
  isValid : Bool
  deriving DecidableEq

def OperandStatus.unknown : OperandStatus := ⟨none, none, false, false, false⟩

namespace ReorderBufferEntry

/-- An entry as `addInstructionToROB` leaves it. -/
def fresh (instruction : Instruction) (threadID : ℕ) : ReorderBufferEntry where
  instruction := instruction
  threadID := threadID
  operand1 := .unknown
  operand2 := .unknown
  physicalDestinationRegister := none
  isRenameDone := false
  isIssued := false
  isExecuted := false
  isWriteBackDone := false
  associatedIWEntry := false
  isValid := true

/-- An entry before its first use. -/
def unused : ReorderBufferEntry := { fresh .getNOPInstruction 0 with isValid := false }

end ReorderBufferEntry

/-! ### Announcing a result -/

/-- The operand has the type and the physical register of the announced result. -/
def BaseOperand.Matches (operand : Option BaseOperand) (phyReg : Option ℕ)
    (opndType : OperandType) (physicalRegister : Option ℕ) : Bool :=
  match operand with
  | some o => o.operandType = opndType ∧ phyReg = physicalRegister
  | none => false

/-- What `wakeUpLogic` does to one source operand of an entry. -/
def OperandStatus.wake (status : OperandStatus) (opnd : Option Operand) (opndType : OperandType)
    (physicalRegister : Option ℕ) : OperandStatus :=
  if status.available then status
  else match opnd with
  | none => status
  | some (.base o) =>
    if BaseOperand.Matches (some o) status.phyReg1 opndType physicalRegister then
      { status with available := true } else status
  | some (.memory first second) =>
    let available1 := status.available1 ||
      BaseOperand.Matches first status.phyReg1 opndType physicalRegister
    let available2 := status.available2 ||
      BaseOperand.Matches second status.phyReg2 opndType physicalRegister
    { status with
      available1 := available1
      available2 := available2
      -- the first test of the source compares the type of the whole operand
      available := (opndType = .memory ∧ status.phyReg1 = physicalRegister) ||
        (available1 && available2) }

namespace ReorderBufferEntry

def wake (e : ReorderBufferEntry) (opndType : OperandType) (physicalRegister : Option ℕ) :
    ReorderBufferEntry :=
  { e with
    operand1 := e.operand1.wake e.instruction.sourceOperand1 opndType physicalRegister
    operand2 := e.operand2.wake e.instruction.sourceOperand2 opndType physicalRegister }

/-- The instruction writes to the announced register too. -/
def alsoWrites (e : ReorderBufferEntry) (opndType : OperandType) (physicalRegister : Option ℕ) :
    Bool :=
  (e.physicalDestinationRegister = physicalRegister ∧
    e.instruction.destinationOperand.map Operand.operandType = some opndType) ∨
  (e.instruction.operationType = .xchg ∧
    e.instruction.sourceOperand1.map Operand.operandType = some opndType ∧
    e.operand1.phyReg1 = physicalRegister) ∨
  (e.instruction.operationType = .xchg ∧
    e.instruction.sourceOperand2.map Operand.operandType = some opndType ∧
    e.operand2.phyReg1 = physicalRegister)

end ReorderBufferEntry

/-- `ReorderBuffer.java`. -/
structure ReorderBuffer where
  ROB : ℕ → ReorderBufferEntry
  MaxROBSize : ℕ
  head : ℤ
  tail : ℤ

namespace ReorderBuffer

def new (size : ℕ) : ReorderBuffer := ⟨fun _ => .unused, size, -1, -1⟩

def setEntry (b : ReorderBuffer) (i : ℕ) (e : ReorderBufferEntry) : ReorderBuffer :=
  { b with ROB := Function.update b.ROB i e }

def isFull (b : ReorderBuffer) : Bool :=
  b.tail - b.head = b.MaxROBSize - 1 ∨ b.tail - b.head = -1

/-- The buffer with a new entry at its tail, and the position of the entry. -/
def addInstructionToROB (b : ReorderBuffer) (newInstruction : Instruction) (threadID : ℕ) :
    ReorderBuffer × ℕ :=
  let tail := pushTail b.MaxROBSize b.tail
  ({ b with
      tail := tail
      head := pushHead b.head
      ROB := Function.update b.ROB tail.toNat (.fresh newInstruction threadID) }, tail.toNat)

/-- The buffer is not empty. -/
def retireInstructionAtHead (b : ReorderBuffer) : ReorderBuffer :=
  { b with
    ROB := Function.update b.ROB b.head.toNat { b.ROB b.head.toNat with isValid := false }
    head := popHead b.MaxROBSize b.head b.tail
    tail := popTail b.head b.tail }

/-- The positions in use, in program order. -/
def window (b : ReorderBuffer) : List ℕ := occupied b.MaxROBSize b.head b.tail

/-- The loop of `wakeUpLogic`; `fuel` is what is left of `MaxROBSize` rounds. -/
def wakeUpScan (b : ReorderBuffer) (opndType : OperandType) (physicalRegister : Option ℕ)
    (i : ℕ) : ℕ → ReorderBuffer
  | 0 => b
  | fuel + 1 =>
    let e := b.ROB i
    if ¬ e.isValid then b
    else if ¬ e.isRenameDone then b
    else if e.isIssued then
      wakeUpScan b opndType physicalRegister ((i + 1) % b.MaxROBSize) fuel
    else
      let b' := b.setEntry i (e.wake opndType physicalRegister)
      if e.alsoWrites opndType physicalRegister then b'
      else wakeUpScan b' opndType physicalRegister ((i + 1) % b.MaxROBSize) fuel

end ReorderBuffer

end Tejas
