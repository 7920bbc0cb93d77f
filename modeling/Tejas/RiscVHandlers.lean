import Tejas.RiscVOperands
import Tejas.X86Handlers

/-!
# Translation of RISC-V instructions

The handlers of conditional branches, of jumps that link and of atomic instructions, and
`ObjParser.riscifyInstruction`. A value in memory is loaded into a temporary of its address,
or else into a new temporary, and both are registers of the program.
-/

namespace Tejas

namespace RiscV

open X86 (Text Failure Translation Handler TranslatedMicroOp getLoadInstruction storeValue
  isIntegerRegisterOperand isImmediateOperand isMemoryOperand)
open X86.OperandTranslator (getIntALUInstruction)

/-! ## Temporaries -/

namespace Registers

/-- `encodeRegister("t" + n)` -/
def temporary (n : ℕ) : Option ℕ := if n < 8 then some (29 + n) else none

theorem temporary_eq_lookup : ∀ n < 8,
    integerRegistersHashTable.lookup ("t" ++ toString n) = temporary n := by
  decide

def getTempIntReg (t : Translation) : Except Failure (BaseOperand × Translation) :=
  match temporary t.numTempIntRegister with
  | some value => do
    let register ← getRegister .integer value
    return (register, { t with numTempIntRegister := t.numTempIntRegister + 1 })
  | none => .error .exit

/-- From `t0` to `t6`. -/
def isTempIntRegister (operand : Option BaseOperand) : Bool :=
  match operand with
  | some (.register .integer value) => 29 ≤ value && value ≤ 35
  | _ => false

/-- A temporary register of the address, if it has one. -/
def getTemporaryMemoryRegister (first second : Option BaseOperand) : Option BaseOperand :=
  if isTempIntRegister first then first
  else if isTempIntRegister second then second
  else none

end Registers

open Registers OperandTranslator

/-- A register for the value of a memory operand: a temporary of its address, else a new
one. -/
def getLocationToStoreValue (operand : Operand) (t : Translation) :
    Except Failure (BaseOperand × Translation) :=
  match operand with
  | .memory first second =>
    match getTemporaryMemoryRegister first second with
    | some register => .ok (register, t)
    | none => getTempIntReg t
  | .base _ => .error .exit

/-- The operand that holds the value of `operand`, which is loaded if it is in memory. -/
def valueOperand (operand : Operand) (t : Translation) : Except Failure (Operand × Translation) :=
  if isMemoryOperand operand then do
    let (register, t) ← getLocationToStoreValue operand t
    return (.base register, t.appendInstruction (getLoadInstruction operand (.base register)))
  else return (operand, t)

/-! ## The handlers -/

def getBranchInstruction (newInstructionAddress : Operand) : Instruction :=
  ⟨.branch, some newInstructionAddress, none, none, rfl⟩

def getUnconditionalJumpInstruction (newInstructionAddress : Operand) : Instruction :=
  ⟨.jump, some newInstructionAddress, none, none, rfl⟩

def conditionalBranch : Handler := fun operand1 operand2 operand3 t =>
  match operand1, operand2, operand3 with
  | some operand1, some operand2, some operand3 =>
    if isIntegerRegisterOperand operand1 && isIntegerRegisterOperand operand2 &&
        isMemoryOperand operand3 then do
      let (jumpLocation, t) ← valueOperand operand3 t
      return t.appendInstruction (getBranchInstruction jumpLocation)
    else .error .exception
  | some operand1, some operand2, none =>
    if isIntegerRegisterOperand operand1 && isMemoryOperand operand2 then do
      let (jumpLocation, t) ← valueOperand operand2 t
      return t.appendInstruction (getBranchInstruction jumpLocation)
    else .error .exception
  | _, _, _ => .error .exception

def unconditionalJump : Handler := fun operand1 operand2 operand3 t =>
  match operand1, operand2, operand3 with
  | some operand1, none, none =>
    if isImmediateOperand operand1 || isIntegerRegisterOperand operand1 ||
        isMemoryOperand operand1 then do
      let (jumpLocation, t) ← valueOperand operand1 t
      return t.appendInstruction (getUnconditionalJumpInstruction jumpLocation)
    else .error .exception
  | _, _, _ => .error .exception

/-- The handlers accept an operand whose value they read. -/
def isValue (operand : Operand) : Bool :=
  isIntegerRegisterOperand operand || isMemoryOperand operand || isImmediateOperand operand

def atomicInstructions : Handler := fun operand1 operand2 operand3 t =>
  match operand1, operand2, operand3 with
  | some operand1, some operand2, some operand3 =>
    if isIntegerRegisterOperand operand1 && isValue operand2 && isValue operand3 then do
      let (operand2Value, t) ← valueOperand operand2 t
      let (operand3Value, t) ← valueOperand operand3 t
      let t := t.appendInstruction
        (getIntALUInstruction (some operand2Value) (some operand3Value) (some operand1))
      return storeValue operand1 operand1 t
    else .error .exception
  | _, _, _ => .error .exception

/-! ## Instruction classes -/

/-- The instruction classes whose handlers stand above. -/
inductive InstructionClass where
  | conditionalBranch
  | jumpAndLink
  | atomicInstructions
  deriving DecidableEq, Repr

namespace InstructionClass

/-- The handler that the table has for the class. A jump that links has the one of the
unconditional jumps. -/
def handler : InstructionClass → Handler
  | .conditionalBranch => RiscV.conditionalBranch
  | .jumpAndLink => RiscV.unconditionalJump
  | .atomicInstructions => RiscV.atomicInstructions

/-- The operations of a class in `createInstructionClassTable`. -/
def operations : InstructionClass → List String
  | .conditionalBranch => ["blt", "bne", "bge", "bgeu", "bltu", "beqz", "bnez", "beq", "bgez",
      "blez", "bltz", "bgtz", "bgt", "ble", "bgtu", "bleu"]
  | .jumpAndLink => ["jal", "jalr"]
  | .atomicInstructions => ["amoadd.w", "amoadd.d", "amoand.w", "amoand.d", "amomax.w",
      "amomax.d", "amomaxu.w", "amomaxu.d", "amomin.w", "amomin.d", "amominu.w", "amominu.d",
      "amoor.w", "amoor.d", "amoswap.w", "amoswap.d", "amoxor.w", "amoxor.d"]

def all : List InstructionClass := [.conditionalBranch, .jumpAndLink, .atomicInstructions]

end InstructionClass

/-- `getInstructionClassHandler(getInstructionClass(operation))`. The handlers of the other
classes are `others`, and an unknown operation has none. -/
def getInstructionClassHandler (others : String → Option Handler) (operation : String) :
    Option Handler :=
  match InstructionClass.all.find? (fun c => operation ∈ c.operations) with
  | some c => some c.handler
  | none => others operation

/-! ## One instruction -/

/-- The body of the `try` block of `riscifyInstruction`. -/
def translate (handler : Handler) (operand1Str operand2Str operand3Str : Option Text) :
    Except Failure (List Instruction) := do
  let operand1 ← simplifyOperand operand1Str
  let operand2 ← simplifyOperand operand2Str
  let operand3 ← simplifyOperand operand3Str
  let t ← handler operand1 operand2 operand3 ⟨[], 0⟩
  return t.instructionList

/-- `riscifyInstruction` appends the micro-operations of one instruction. Those of a
translation that ends with an exception are removed, and `none` is an exit. -/
def riscifyInstruction (others : String → Option Handler) (ProgramCounter : ℤ)
    (operation : String) (operand1Str operand2Str operand3Str : Option Text)
    (instructionList : List TranslatedMicroOp) : Option (List TranslatedMicroOp) :=
  match getInstructionClassHandler others operation with
  | none => some instructionList
  | some handler =>
    match translate handler operand1Str operand2Str operand3Str with
    | .ok microOps => some (instructionList ++ microOps.map (TranslatedMicroOp.mk ProgramCounter))
    | .error .exception => some instructionList
    | .error .exit => none

end RiscV

end Tejas
