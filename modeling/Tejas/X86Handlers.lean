import Tejas.X86Operands

/-!
# Translation of x86 instructions

The handlers of the instruction classes that read and write memory through integer
registers, and `ObjParser.riscifyInstruction`. A handler is given the three operands, null where the
instruction has fewer, and appends micro-operations.
-/

namespace Tejas

namespace X86

open Registers OperandTranslator

abbrev Handler := Option Operand → Option Operand → Option Operand → Translation →
  Except Failure Translation

/-! ## Micro-operations -/

def getLoadInstruction (memoryLocation destinationRegister : Operand) : Instruction :=
  ⟨.load, some memoryLocation, none, some destinationRegister, rfl⟩

def getStoreInstruction (memoryLocation sourceOperand : Operand) : Instruction :=
  ⟨.store, some memoryLocation, some sourceOperand, none, rfl⟩

def getMoveInstruction (destinationOperand sourceOperand : Operand) : Instruction :=
  ⟨.mov, some sourceOperand, none, some destinationOperand, rfl⟩

def getIntegerMultiplicationInstruction (sourceOperand1 sourceOperand2 destinationOperand :
    Operand) : Instruction :=
  ⟨.integerMul, some sourceOperand1, some sourceOperand2, some destinationOperand, rfl⟩

/-- An integer register as an operand. -/
def integerRegister (value : ℕ) : Operand := .base (.register .integer value)

/-- `getExchangeInstruction`, for two registers. -/
def getExchangeInstruction (value value' : ℕ) : Instruction :=
  ⟨.xchg, some (integerRegister value), some (integerRegister value'), none, rfl⟩

def isIntegerRegisterOperand : Operand → Bool
  | .base (.register .integer _) => true
  | _ => false

def isImmediateOperand : Operand → Bool
  | .base .immediate => true
  | _ => false

def isMemoryOperand : Operand → Bool
  | .memory _ _ => true
  | _ => false

/-- `getStackPointer` -/
def stackPointer : Operand := integerRegister 15

/-- `[stackPointer]` -/
def stackPointerLocation : Operand := .memory (some (.register .integer 15)) none

/-- `getAccumulatorRegister` -/
def accumulatorRegister : Operand := integerRegister 0

/-- The operand that holds the value of `operand`, which is loaded if it is in memory. -/
def valueOperand (operand : Operand) (t : Translation) : Except Failure (Operand × Translation) :=
  if isMemoryOperand operand then do
    let (register, t) ← getLocationToStoreValue operand t
    return (.base register, t.appendInstruction (getLoadInstruction operand (.base register)))
  else return (operand, t)

/-- The value goes back to the operand if that is in memory. -/
def storeValue (operand value : Operand) (t : Translation) : Translation :=
  if isMemoryOperand operand then t.appendInstruction (getStoreInstruction operand value) else t

/-! ## The handlers -/

def integerALUImplicitDestination : Handler := fun operand1 operand2 operand3 t =>
  match operand1, operand2, operand3 with
  | some operand1, some operand2, none =>
    if (isIntegerRegisterOperand operand1 || isMemoryOperand operand1) &&
        (isImmediateOperand operand2 || isIntegerRegisterOperand operand2 ||
          isMemoryOperand operand2) then do
      let (operand1Value, t) ← valueOperand operand1 t
      let (operand2Value, t) ← valueOperand operand2 t
      let t := t.appendInstruction
        (getIntALUInstruction (some operand2Value) (some operand1Value) (some operand1Value))
      return storeValue operand1 operand1Value t
    else .error .exception
  | _, _, _ => .error .exception

def singleOperandIntALU : Handler := fun operand1 operand2 operand3 t =>
  match operand1, operand2, operand3 with
  | some operand1, none, none =>
    if isIntegerRegisterOperand operand1 || isMemoryOperand operand1 then do
      let (operand1Value, t) ← valueOperand operand1 t
      let t := t.appendInstruction
        (getIntALUInstruction none (some operand1Value) (some operand1Value))
      return storeValue operand1 operand1Value t
    else .error .exception
  | _, _, _ => .error .exception

/-- `Exchange.handle` with one operand in memory. -/
def exchangeMemory (memLocation : Operand) (register : ℕ) (t : Translation) :
    Except Failure Translation := do
  let (tempRegister, t) ← getTempIntReg t
  let t := t.appendInstruction (getLoadInstruction memLocation (.base tempRegister))
  let t := t.appendInstruction (getStoreInstruction memLocation (integerRegister register))
  return t.appendInstruction (getMoveInstruction (integerRegister register) (.base tempRegister))

def exchange : Handler := fun operand1 operand2 operand3 t =>
  match operand1, operand2, operand3 with
  | some (.base (.register .integer register)), some (.base (.register .integer register')), none =>
    .ok (t.appendInstruction (getExchangeInstruction register register'))
  | some (.memory first second), some (.base (.register .integer register)), none =>
    exchangeMemory (.memory first second) register t
  | some (.base (.register .integer register)), some (.memory first second), none =>
    exchangeMemory (.memory first second) register t
  | some (.memory _ _), some (.memory _ _), none => do
    let _ ← getTempIntReg t
    .error .exception
  | _, _, _ => .error .exception

def exchangeAndAdd : Handler := fun operand1 operand2 operand3 t => do
  let t ← exchange operand1 operand2 operand3 t
  integerALUImplicitDestination operand2 operand1 operand3 t

def integerMultiplication : Handler := fun operand1 operand2 operand3 t =>
  match operand1, operand2, operand3 with
  | some operand1, none, none =>
    if isImmediateOperand operand1 || isIntegerRegisterOperand operand1 ||
        isMemoryOperand operand1 then do
      let (multiplier, t) ← valueOperand operand1 t
      return t.appendInstruction
        (getIntegerMultiplicationInstruction accumulatorRegister multiplier accumulatorRegister)
    else .error .exception
  | some operand1, some operand2, none =>
    if isIntegerRegisterOperand operand1 &&
        (isImmediateOperand operand2 || isIntegerRegisterOperand operand2 ||
          isMemoryOperand operand2) then do
      let (multiplier, t) ← valueOperand operand2 t
      return t.appendInstruction (getIntegerMultiplicationInstruction operand1 multiplier operand1)
    else .error .exception
  | some operand1, some operand2, some operand3 =>
    if isIntegerRegisterOperand operand1 &&
        (isIntegerRegisterOperand operand2 || isMemoryOperand operand2) &&
          isImmediateOperand operand3 then do
      let (multiplicand, t) ← valueOperand operand2 t
      return t.appendInstruction
        (getIntegerMultiplicationInstruction multiplicand operand3 operand1)
    else .error .exception
  | _, _, _ => .error .exception

def push : Handler := fun operand1 operand2 operand3 t =>
  match operand1, operand2, operand3 with
  | some operand1, none, none =>
    if isMemoryOperand operand1 || isImmediateOperand operand1 ||
        isIntegerRegisterOperand operand1 then do
      let (valueToPush, t) ← valueOperand operand1 t
      let t := t.appendInstruction
        (getIntALUInstruction (some stackPointer) (some (.base .immediate)) (some stackPointer))
      return t.appendInstruction (getStoreInstruction stackPointerLocation valueToPush)
    else .error .exception
  | _, _, _ => .error .exception

def pop : Handler := fun operand1 operand2 operand3 t =>
  match operand1, operand2, operand3 with
  | some operand1, none, none =>
    if isIntegerRegisterOperand operand1 || isMemoryOperand operand1 then do
      let t ←
        if isMemoryOperand operand1 then do
          let (register, t) ← getTempIntReg t
          let t := t.appendInstruction (getLoadInstruction stackPointerLocation (.base register))
          .ok (t.appendInstruction (getStoreInstruction operand1 (.base register)))
        else .ok (t.appendInstruction (getLoadInstruction stackPointerLocation operand1))
      return t.appendInstruction
        (getIntALUInstruction (some stackPointer) (some (.base .immediate)) (some stackPointer))
    else .error .exception
  | _, _, _ => .error .exception

/-! ## Instruction classes -/

/-- The instruction classes whose handlers stand above. -/
inductive InstructionClass where
  | integerALUImplicitDestination
  | singleOperandIntegerALU
  | exchange
  | exchangeAndAdd
  | push
  | pop
  | integerMultiplication
  deriving DecidableEq, Repr

namespace InstructionClass

def handler : InstructionClass → Handler
  | .integerALUImplicitDestination => X86.integerALUImplicitDestination
  | .singleOperandIntegerALU => X86.singleOperandIntALU
  | .exchange => X86.exchange
  | .exchangeAndAdd => X86.exchangeAndAdd
  | .push => X86.push
  | .pop => X86.pop
  | .integerMultiplication => X86.integerMultiplication

/-- The operations of a class in `createInstructionClassTable`. -/
def operations : InstructionClass → List String
  | .integerALUImplicitDestination => ["and", "or", "xor", "add", "adc", "sub", "sbb", "bt", "bts",
      "btr", "btc", "shl", "sal", "shr", "sar", "rol", "rcl", "ror", "rcr"]
  | .singleOperandIntegerALU => ["neg", "inc", "dec", "not", "bswap"]
  | .exchange => ["xchg"]
  | .exchangeAndAdd => ["xadd"]
  | .push => ["push", "pushw", "pushd"]
  | .pop => ["pop", "popw", "popd"]
  | .integerMultiplication => ["mul", "imul"]

def all : List InstructionClass :=
  [.integerALUImplicitDestination, .singleOperandIntegerALU, .exchange, .exchangeAndAdd, .push,
    .pop, .integerMultiplication]

end InstructionClass

/-- `getInstructionClassHandler(getInstructionClass(operation))`. The handlers of the other
classes are `others`, and an unknown operation has none. -/
def getInstructionClassHandler (others : Text → Option Handler) (operation : Text) :
    Option Handler :=
  match InstructionClass.all.find? (fun c => String.ofList operation ∈ c.operations) with
  | some c => some c.handler
  | none => others operation

/-! ## One instruction -/

/-- The body of the `try` block of `riscifyInstruction`. -/
def translate (handler : Handler) (operand1Str operand2Str operand3Str : Option Text) :
    Except Failure (List Instruction) := do
  let (operand1, t) ← simplifyOperand operand1Str ⟨[], 0⟩
  let (operand2, t) ← simplifyOperand operand2Str t
  let (operand3, t) ← simplifyOperand operand3Str t
  let t ← handler operand1 operand2 operand3 t
  return t.instructionList

/-- A micro-operation of the translated list. -/
structure TranslatedMicroOp where
  ciscProgramCounter : ℤ
  instruction : Instruction
  deriving DecidableEq, Repr

/-- `riscifyInstruction` appends the micro-operations of one instruction. Those of a
translation that ends with an exception are removed, and `none` is an exit. -/
def riscifyInstruction (others : Text → Option Handler) (instructionPointer : ℤ)
    (operation : Text) (operand1Str operand2Str operand3Str : Option Text)
    (instructionList : List TranslatedMicroOp) : Option (List TranslatedMicroOp) :=
  match getInstructionClassHandler others operation with
  | none => some instructionList
  | some handler =>
    match translate handler operand1Str operand2Str operand3Str with
    | .ok microOps =>
      some (instructionList ++ microOps.map (TranslatedMicroOp.mk instructionPointer))
    | .error .exception => some instructionList
    | .error .exit => none

end X86

end Tejas
