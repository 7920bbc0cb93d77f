import Tejas.X86Handlers

/-!
# The integer instructions of x86

The handlers of the other instruction classes that work on integer registers and memory:
moves, comparisons, jumps, calls, division, string operations. A null operand that a handler
looks at is an exception.
-/

namespace Tejas

namespace X86

open Registers OperandTranslator

/-! ## Micro-operations -/

def getIntegerDivisionInstruction (sourceOperand1 sourceOperand2 destinationOperand : Operand) :
    Instruction :=
  ⟨.integerDiv, some sourceOperand1, some sourceOperand2, some destinationOperand, rfl⟩

theorem branch_admits (newInstructionAddress : Operand) :
    OperationType.branch.Admits (some newInstructionAddress) none none = true :=
  rfl

theorem jump_admits (newInstructionAddress : Operand) :
    OperationType.jump.Admits (some newInstructionAddress) none none = true :=
  rfl

def getBranchInstruction (newInstructionAddress : Operand) : Instruction :=
  ⟨.branch, some newInstructionAddress, none, none, branch_admits newInstructionAddress⟩

def getUnconditionalJumpInstruction (newInstructionAddress : Operand) : Instruction :=
  ⟨.jump, some newInstructionAddress, none, none, jump_admits newInstructionAddress⟩

def getInterruptInstruction (interruptNumber : Operand) : Instruction :=
  ⟨.interrupt, some interruptNumber, none, none, rfl⟩

/-- `getImmediateOperand` -/
def immediate : Operand := .base .immediate

/-- `getCounterRegister` -/
def counterRegister : Operand := integerRegister 2

/-- `getBasePointer` -/
def basePointer : Operand := integerRegister 14

/-- `getInstructionPointer` -/
def instructionPointer : Operand := integerRegister 27

/-- `[sourceIndexRegister]` -/
def sourceIndexLocation : Operand := .memory (some (.register .integer 12)) none

/-- `[destinationIndexRegister]` -/
def destinationIndexLocation : Operand := .memory (some (.register .integer 13)) none

/-! ## Moves -/

def move : Handler := fun operand1 operand2 operand3 t =>
  match operand1, operand2, operand3 with
  | some operand1, some operand2, none =>
    if isIntegerRegisterOperand operand1 &&
        (isIntegerRegisterOperand operand2 || isImmediateOperand operand2) then
      .ok (t.appendInstruction (getMoveInstruction operand1 operand2))
    else if isIntegerRegisterOperand operand1 && isMemoryOperand operand2 then
      .ok (t.appendInstruction (getLoadInstruction operand2 operand1))
    else if isMemoryOperand operand1 &&
        (isImmediateOperand operand2 || isIntegerRegisterOperand operand2) then
      .ok (t.appendInstruction (getStoreInstruction operand1 operand2))
    else .error .exception
  | _, _, _ => .error .exception

/-- The store has its operands the other way round. -/
def conditionalMove : Handler := fun operand1 operand2 operand3 t =>
  match operand1, operand2, operand3 with
  | some operand1, some operand2, none =>
    if isIntegerRegisterOperand operand1 &&
        (isIntegerRegisterOperand operand2 || isImmediateOperand operand2) then
      .ok (t.appendInstruction (getMoveInstruction operand1 operand2))
    else if isIntegerRegisterOperand operand1 && isMemoryOperand operand2 then
      .ok (t.appendInstruction (getLoadInstruction operand2 operand1))
    else if isMemoryOperand operand1 &&
        (isImmediateOperand operand2 || isIntegerRegisterOperand operand2) then
      .ok (t.appendInstruction (getStoreInstruction operand2 operand1))
    else .error .exception
  | _, _, _ => .error .exception

/-- The other operands are looked at only beside a register. -/
def conditionalSet : Handler := fun operand1 operand2 operand3 t =>
  match operand1 with
  | some operand1 =>
    if isIntegerRegisterOperand operand1 && operand2.isNone && operand3.isNone then
      .ok (t.appendInstruction (getMoveInstruction operand1 immediate))
    else if isMemoryOperand operand1 then
      .ok (t.appendInstruction (getStoreInstruction operand1 immediate))
    else .error .exception
  | none => .error .exception

def loadEffectiveAddress : Handler := fun operand1 operand2 operand3 t =>
  match operand1, operand2, operand3 with
  | some (.base (.register .integer register)), some (.memory first second), none =>
    match first, second with
    | some first, none =>
      .ok (t.appendInstruction (getMoveInstruction (integerRegister register) (.base first)))
    | first, second =>
      .ok (t.appendInstruction (getIntALUInstruction (first.map .base) (second.map .base)
        (some (integerRegister register))))
  | _, _, _ => .error .exception

def stringMove : Handler := fun operand1 operand2 operand3 t =>
  match operand1, operand2, operand3 with
  | none, none, none => do
    let (tempRegister, t) ← getTempIntReg t
    let t := t.appendInstruction (getLoadInstruction sourceIndexLocation (.base tempRegister))
    return t.appendInstruction (getStoreInstruction destinationIndexLocation (.base tempRegister))
  | some operand1, some operand2, none =>
    if isMemoryOperand operand1 && isMemoryOperand operand2 then do
      let (tempRegister, t) ← getTempIntReg t
      let t := t.appendInstruction (getLoadInstruction operand2 (.base tempRegister))
      return t.appendInstruction (getStoreInstruction operand1 (.base tempRegister))
    else .error .exception
  | _, _, _ => .error .exception

/-! ## Arithmetic -/

def integerALUExplicitDestination : Handler := fun operand1 operand2 operand3 t =>
  match operand1, operand2, operand3 with
  | some operand1, some operand2, none =>
    if (isImmediateOperand operand1 || isIntegerRegisterOperand operand1 ||
          isMemoryOperand operand1) &&
        (isImmediateOperand operand2 || isIntegerRegisterOperand operand2 ||
          isMemoryOperand operand2) then do
      let (operand1Value, t) ← valueOperand operand1 t
      let (operand2Value, t) ← valueOperand operand2 t
      return t.appendInstruction
        (getIntALUInstruction (some operand2Value) (some operand1Value) none)
    else .error .exception
  | _, _, _ => .error .exception

/-- The destination of a memory operand is a register that is not loaded. -/
def shiftOperationThreeOperand : Handler := fun operand1 operand2 operand3 t =>
  match operand1, operand2, operand3 with
  | some operand1, some operand2, some operand3 =>
    if (isIntegerRegisterOperand operand1 || isMemoryOperand operand1) &&
        isIntegerRegisterOperand operand2 &&
          (isIntegerRegisterOperand operand3 || isImmediateOperand operand3) then
      if isMemoryOperand operand1 then do
        let (register, t) ← getLocationToStoreValue operand1 t
        let t := t.appendInstruction
          (getIntALUInstruction (some operand2) (some operand3) (some (.base register)))
        return t.appendInstruction (getStoreInstruction operand1 (.base register))
      else
        .ok (t.appendInstruction
          (getIntALUInstruction (some operand2) (some operand3) (some operand1)))
    else .error .exception
  | _, _, _ => .error .exception

def singleOperandIntALUImplicitAccumulator : Handler := fun operand1 operand2 operand3 t =>
  match operand1, operand2, operand3 with
  | none, none, none =>
    .ok (t.appendInstruction
      (getIntALUInstruction none (some accumulatorRegister) (some accumulatorRegister)))
  | some operand1, none, none =>
    if isImmediateOperand operand1 then
      .ok (t.appendInstruction
        (getIntALUInstruction (some operand1) (some accumulatorRegister)
          (some accumulatorRegister)))
    else .error .exception
  | _, _, _ => .error .exception

def integerDivision : Handler := fun operand1 operand2 operand3 t =>
  match operand1, operand2, operand3 with
  | some operand1, none, none =>
    if isImmediateOperand operand1 || isIntegerRegisterOperand operand1 ||
        isMemoryOperand operand1 then do
      let (dividend, t) ← valueOperand operand1 t
      return t.appendInstruction
        (getIntegerDivisionInstruction dividend accumulatorRegister accumulatorRegister)
    else .error .exception
  | _, _, _ => .error .exception

def stringCompare : Handler := fun operand1 operand2 operand3 t =>
  match operand1, operand2, operand3 with
  | none, none, none => do
    let (sourceIndex, t) ← getTempIntReg t
    let t := t.appendInstruction (getLoadInstruction sourceIndexLocation (.base sourceIndex))
    let (destinationIndex, t) ← getTempIntReg t
    let t := t.appendInstruction
      (getLoadInstruction destinationIndexLocation (.base destinationIndex))
    integerALUExplicitDestination (some (.base sourceIndex)) (some (.base destinationIndex)) none t
  | some operand1, some operand2, none =>
    if isMemoryOperand operand1 && isMemoryOperand operand2 then do
      let (sourceIndex, t) ← getTempIntReg t
      let t := t.appendInstruction (getLoadInstruction operand2 (.base sourceIndex))
      let (destinationIndex, t) ← getTempIntReg t
      let t := t.appendInstruction (getLoadInstruction operand1 (.base destinationIndex))
      return t.appendInstruction (getIntALUInstruction (some (.base sourceIndex))
        (some (.base destinationIndex)) (some (.base destinationIndex)))
    else .error .exception
  | _, _, _ => .error .exception

/-! ## Control -/

def conditionalJump : Handler := fun operand1 operand2 operand3 t =>
  match operand1, operand2, operand3 with
  | some operand1, none, none =>
    if isImmediateOperand operand1 || isIntegerRegisterOperand operand1 ||
        isMemoryOperand operand1 then do
      let (jumpLocation, t) ← valueOperand operand1 t
      return t.appendInstruction (getBranchInstruction jumpLocation)
    else .error .exception
  | _, _, _ => .error .exception

def unconditionalJump : Handler := fun operand1 operand2 operand3 t =>
  match operand1, operand2, operand3 with
  | some operand1, none, none =>
    if isImmediateOperand operand1 || isIntegerRegisterOperand operand1 ||
        isMemoryOperand operand1 then do
      let (jumpLocation, t) ← valueOperand operand1 t
      return t.appendInstruction (getUnconditionalJumpInstruction jumpLocation)
    else .error .exception
  | _, _, _ => .error .exception

def loop : Handler := fun operand1 operand2 operand3 t =>
  match operand1, operand2, operand3 with
  | some operand1, none, none =>
    if isImmediateOperand operand1 then
      conditionalJump (some operand1) none none
        (t.appendInstruction
          (getIntALUInstruction (some counterRegister) (some immediate) (some counterRegister)))
    else .error .exception
  | _, _, _ => .error .exception

/-- `Call.handle`, where `nextInstruction` is an immediate. -/
def call : Handler := fun operand1 operand2 operand3 t => do
  let t ← push (some immediate) none none t
  match operand1, operand2, operand3 with
  | some operand1, none, none =>
    if isImmediateOperand operand1 || isIntegerRegisterOperand operand1 ||
        isMemoryOperand operand1 then
      unconditionalJump (some operand1) none none t
    else .error .exception
  | _, _, _ => .error .exception

def returnOp : Handler := fun operand1 operand2 operand3 t =>
  match operand1, operand2, operand3 with
  | none, none, none => do
    let t := t.appendInstruction (getLoadInstruction stackPointerLocation instructionPointer)
    let t ← unconditionalJump (some instructionPointer) none none t
    return t.appendInstruction
      (getIntALUInstruction (some stackPointer) (some immediate) (some stackPointer))
  | some operand1, none, none =>
    if isImmediateOperand operand1 then do
      let t := t.appendInstruction (getLoadInstruction stackPointerLocation instructionPointer)
      let t ← unconditionalJump (some instructionPointer) none none t
      let (tempRegister, t) ← getTempIntReg t
      let t := t.appendInstruction
        (getIntALUInstruction (some operand1) (some immediate) (some (.base tempRegister)))
      return t.appendInstruction
        (getIntALUInstruction (some stackPointer) (some (.base tempRegister)) (some stackPointer))
    else .error .exception
  | _, _, _ => .error .exception

def leave : Handler := fun operand1 operand2 operand3 t =>
  match operand1, operand2, operand3 with
  | none, none, none =>
    pop (some basePointer) none none
      (t.appendInstruction (getMoveInstruction stackPointer basePointer))
  | _, _, _ => .error .exception

def interrupt : Handler := fun operand1 operand2 operand3 t =>
  match operand1, operand2, operand3 with
  | some operand1, none, none =>
    if isImmediateOperand operand1 then
      .ok (t.appendInstruction (getInterruptInstruction operand1))
    else .error .exception
  | _, _, _ => .error .exception

/-- `NOP.handle`, for any operands. -/
def nop : Handler := fun _ _ _ t => .ok (t.appendInstruction Instruction.getNOPInstruction)

/-! ## Instruction classes -/

/-- The instruction classes that work on integer registers and memory. -/
inductive IntegerClass where
  | basic (class' : InstructionClass)
  | integerALUNoImplicitDestination
  | singleOperandIntegerALUImplicitAccumulator
  | conditionalJump
  | unconditionalJump
  | loop
  | shiftOperationThreeOperands
  | returnOp
  | move
  | conditionalMove
  | call
  | nop
  | integerDivision
  | interrupt
  | loadEffectiveAddress
  | stringMove
  | stringCompare
  | leave
  | conditionalSet
  deriving DecidableEq, Repr

namespace IntegerClass

def handler : IntegerClass → Handler
  | .basic class' => class'.handler
  | .integerALUNoImplicitDestination => integerALUExplicitDestination
  | .singleOperandIntegerALUImplicitAccumulator => singleOperandIntALUImplicitAccumulator
  | .conditionalJump => X86.conditionalJump
  | .unconditionalJump => X86.unconditionalJump
  | .loop => X86.loop
  | .shiftOperationThreeOperands => shiftOperationThreeOperand
  | .returnOp => X86.returnOp
  | .move => X86.move
  | .conditionalMove => X86.conditionalMove
  | .call => X86.call
  | .nop => X86.nop
  | .integerDivision => X86.integerDivision
  | .interrupt => X86.interrupt
  | .loadEffectiveAddress => X86.loadEffectiveAddress
  | .stringMove => X86.stringMove
  | .stringCompare => X86.stringCompare
  | .leave => X86.leave
  | .conditionalSet => X86.conditionalSet

/-- The operations of a class. An operation that the table puts twice has the class of the
last put, so `movsd` is no integer operation. -/
def operations : IntegerClass → List String
  | .basic class' => class'.operations
  | .integerALUNoImplicitDestination => ["cmp", "test"]
  | .singleOperandIntegerALUImplicitAccumulator =>
    ["cwd", "cdq", "cbw", "cwde", "daa", "das", "aaa", "aas", "aam", "aad"]
  | .conditionalJump => ["jo", "jno", "jc", "jb", "jnae", "jnc", "jae", "jnb", "je", "jz", "jne",
      "jnz", "jbe", "jna", "ja", "jnbe", "js", "jns", "jp", "jpe", "jnp", "jpo", "jl", "jnge",
      "jge", "jnl", "jle", "jng", "jg", "jnle", "jcxz", "jecxz"]
  | .unconditionalJump => ["jmp"]
  | .loop => ["loop", "loopw", "loopd", "loope", "looped", "loopew", "loopne", "loopned",
      "loopnew", "loopz", "loopzd", "loopzw", "loopnz", "loopnzd", "loopnzw"]
  | .shiftOperationThreeOperands => ["shld", "shrd"]
  | .returnOp => ["ret", "retn", "retf", "retw", "retnw", "retfw", "retd", "retnd", "retfd",
      "iret", "iretw"]
  | .move => ["mov", "movsx", "movsxd", "movzx", "movzxd", "movnti"]
  | .conditionalMove => ["cmov", "cmovb", "cmovae", "cmovg", "cmovbe", "cmovne", "cmove", "cmova"]
  | .call => ["call"]
  | .nop => ["nop", "nopl", "fnop", "nopw"]
  | .integerDivision => ["div", "idiv"]
  | .interrupt => ["int"]
  | .loadEffectiveAddress => ["lea"]
  | .stringMove => ["movs"]
  | .stringCompare => ["cmpsb", "cmps"]
  | .leave => ["leave"]
  | .conditionalSet => ["seta", "setae", "setb", "setbe", "setc", "sete", "setg", "setge", "setl",
      "setle", "setna", "setnae", "setnb", "setnbe", "setnc", "setne", "setng", "setnge", "setnl",
      "setnle", "setno", "setnp", "setns", "setnz", "seto", "setp", "setpe", "setpo", "sets",
      "setz"]

/-- The classes in the order of `createInstructionClassTable`. -/
def all : List IntegerClass :=
  [.basic .integerALUImplicitDestination, .integerALUNoImplicitDestination,
    .basic .singleOperandIntegerALU, .singleOperandIntegerALUImplicitAccumulator, .conditionalJump,
    .unconditionalJump, .loop, .shiftOperationThreeOperands, .returnOp, .move, .conditionalMove,
    .basic .exchange, .basic .exchangeAndAdd, .basic .pop, .basic .push, .call, .nop,
    .basic .integerMultiplication, .integerDivision, .interrupt, .loadEffectiveAddress,
    .stringMove, .stringCompare, .leave, .conditionalSet]

end IntegerClass

/-- The class of an integer operation. -/
def integerClass (operation : Text) : Option IntegerClass :=
  IntegerClass.all.find? (fun c => String.ofList operation ∈ c.operations)

/-- The handlers beyond those of `InstructionClass`. -/
def integerHandler (operation : Text) : Option Handler :=
  (integerClass operation).map IntegerClass.handler

end X86

end Tejas
