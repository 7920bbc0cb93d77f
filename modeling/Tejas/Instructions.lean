import Mathlib.Data.List.Nodup

/-!
# Instructions and their operands

The micro-operations that the pipeline executes, with the operands that their
constructors in `Instruction.java` and `Operand.java` give them. A null operand is `none`.
-/

namespace Tejas

inductive OperationType where
  | inValid
  | integerALU
  | integerMul
  | integerDiv
  | floatALU
  | floatMul
  | floatDiv
  | load
  | store
  | jump
  | branch
  | mov
  | xchg
  | acceleratedOp
  | nop
  | interrupt
  | sync
  | mfence
  deriving DecidableEq, Repr

inductive OperandType where
  | integerRegister
  | floatRegister
  | immediate
  | inValid
  | memory
  deriving DecidableEq, Repr

/-- The two register files. -/
inductive RegisterType where
  | integer
  | float
  deriving DecidableEq, Repr

def RegisterType.operandType : RegisterType → OperandType
  | .integer => .integerRegister
  | .float => .floatRegister

theorem RegisterType.operandType_inj {a b : RegisterType} :
    a.operandType = b.operandType ↔ a = b := by
  cases a <;> cases b <;> decide

/-- An operand that is not in memory. -/
inductive BaseOperand where
  | register (type : RegisterType) (value : ℕ)
  | immediate
  | inValid
  deriving DecidableEq, Repr

/-- `Operand.java`. The address of a memory operand has up to two parts. -/
inductive Operand where
  | base (operand : BaseOperand)
  | memory (memoryLocationFirstOperand memoryLocationSecondOperand : Option BaseOperand)
  deriving DecidableEq, Repr

def BaseOperand.operandType : BaseOperand → OperandType
  | .register type _ => type.operandType
  | .immediate => .immediate
  | .inValid => .inValid

/-- The register that an operand names, if it is one. -/
def BaseOperand.register? : BaseOperand → Option (RegisterType × ℕ)
  | .register type value => some (type, value)
  | _ => none

namespace Operand

def operandType : Operand → OperandType
  | .base operand => operand.operandType
  | .memory _ _ => .memory

def register? : Operand → Option (RegisterType × ℕ)
  | .base operand => operand.register?
  | .memory _ _ => none

/-- An operand has the type of a register file exactly when it names a register of it. -/
theorem operandType_eq_iff {type : RegisterType} {o : Operand} :
    o.operandType = type.operandType ↔ ∃ n, o.register? = some (type, n) := by
  constructor
  · intro h
    match o with
    | .base (.register type' n) =>
      rw [← RegisterType.operandType_inj.mp h]
      exact ⟨n, rfl⟩
    | .base .immediate => cases type <;> cases h
    | .base .inValid => cases type <;> cases h
    | .memory _ _ => cases type <;> cases h
  · rintro ⟨n, h⟩
    match o with
    | .base (.register type' n') =>
      obtain ⟨rfl, rfl⟩ := Prod.mk.inj (Option.some.inj h)
      rfl
    | .base .immediate => cases h
    | .base .inValid => cases h
    | .memory _ _ => cases h

/-- The registers that must be ready before the operand can be read. -/
def registers : Operand → List (RegisterType × ℕ)
  | .base operand => operand.register?.toList
  | .memory first second =>
    (first.bind BaseOperand.register?).toList ++ (second.bind BaseOperand.register?).toList

/-- Neither the operand nor a part of its address is `inValid`. -/
def Plain : Operand → Bool
  | .base operand => operand ≠ .inValid
  | .memory first second => first ≠ some .inValid ∧ second ≠ some .inValid

end Operand

/-- The operands that the constructors of an operation leave null, and the two registers
of an exchange. -/
def OperationType.Admits (type : OperationType)
    (sourceOperand1 sourceOperand2 destinationOperand : Option Operand) : Bool :=
  match type with
  | .inValid | .nop | .sync | .mfence =>
    sourceOperand1.isNone && sourceOperand2.isNone && destinationOperand.isNone
  | .xchg =>
    (sourceOperand1.bind Operand.register?).isSome &&
      (sourceOperand2.bind Operand.register?).isSome && destinationOperand.isNone
  | .interrupt | .branch | .jump => sourceOperand2.isNone && destinationOperand.isNone
  | .store => destinationOperand.isNone
  | .mov | .load => sourceOperand2.isNone
  | _ => true

/-- `Instruction.java`. -/
structure Instruction where
  operationType : OperationType
  sourceOperand1 : Option Operand
  sourceOperand2 : Option Operand
  destinationOperand : Option Operand
  admitted : operationType.Admits sourceOperand1 sourceOperand2 destinationOperand = true
  deriving DecidableEq, Repr

namespace Instruction

def getNOPInstruction : Instruction := ⟨.nop, none, none, none, rfl⟩

/-- The registers that an instruction writes: both registers of an exchange, and else the
destination. -/
def destinations (i : Instruction) : List (RegisterType × ℕ) :=
  match i.operationType with
  | .xchg =>
    match i.sourceOperand1.bind Operand.register?, i.sourceOperand2.bind Operand.register? with
    | some r₁, some r₂ => if r₁ = r₂ then [r₁] else [r₁, r₂]
    | _, _ => []
  | _ => (i.destinationOperand.bind Operand.register?).toList

/-- The registers that an instruction reads. -/
def sources (i : Instruction) : List (RegisterType × ℕ) :=
  i.sourceOperand1.toList.flatMap Operand.registers ++
    i.sourceOperand2.toList.flatMap Operand.registers

/-- The sources are null, immediates, registers, or memory operands built from those. -/
def PlainSources (i : Instruction) : Prop :=
  (∀ o ∈ i.sourceOperand1, o.Plain = true) ∧ ∀ o ∈ i.sourceOperand2, o.Plain = true

instance (i : Instruction) : Decidable i.PlainSources := inferInstanceAs (Decidable (_ ∧ _))

/-- The two registers of an exchange, which has no destination. -/
theorem xchg_operands {i : Instruction} (h : i.operationType = .xchg) :
    ∃ r₁ r₂, i.sourceOperand1.bind Operand.register? = some r₁ ∧
      i.sourceOperand2.bind Operand.register? = some r₂ ∧ i.destinationOperand = none := by
  have hadmits := i.admitted
  simp only [OperationType.Admits, h, Bool.and_eq_true, Option.isSome_iff_exists,
    Option.isNone_iff_eq_none] at hadmits
  obtain ⟨⟨⟨r₁, h₁⟩, ⟨r₂, h₂⟩⟩, hdest⟩ := hadmits
  exact ⟨r₁, r₂, h₁, h₂, hdest⟩

theorem destinations_xchg {i : Instruction} {r₁ r₂ : RegisterType × ℕ}
    (h : i.operationType = .xchg) (h₁ : i.sourceOperand1.bind Operand.register? = some r₁)
    (h₂ : i.sourceOperand2.bind Operand.register? = some r₂) :
    i.destinations = if r₁ = r₂ then [r₁] else [r₁, r₂] := by
  simp only [destinations, h, h₁, h₂]

theorem destinations_of_ne {i : Instruction} (h : i.operationType ≠ .xchg) :
    i.destinations = (i.destinationOperand.bind Operand.register?).toList := by
  rw [destinations.eq_def]
  split
  · rename_i heq
    exact absurd heq h
  · rfl

theorem nodup_destinations (i : Instruction) : i.destinations.Nodup := by
  by_cases h : i.operationType = .xchg
  · obtain ⟨r₁, r₂, h₁, h₂, -⟩ := xchg_operands h
    rw [destinations_xchg h h₁ h₂]
    split_ifs with heq
    · exact List.nodup_singleton r₁
    · simp [heq]
  · rw [destinations_of_ne h]
    cases i.destinationOperand.bind Operand.register? <;> simp

/-- The operations that never write a register. -/
theorem destinations_eq_nil {i : Instruction} (h : i.operationType = .nop ∨
    i.operationType = .inValid ∨ i.operationType = .store ∨ i.operationType = .mfence) :
    i.destinations = [] ∧ i.destinationOperand = none := by
  have hadmits := i.admitted
  have hdest : i.destinationOperand = none := by
    rcases h with h | h | h | h <;>
      simp_all [OperationType.Admits, Option.isNone_iff_eq_none]
  refine ⟨?_, hdest⟩
  rcases h with h | h | h | h <;> simp [destinations, h, hdest]

end Instruction

end Tejas
