import Tejas.X86Instructions
import Tejas.X86SourceOperands

/-!
# The meaning of translated instructions

What an integer instruction does to the machine, and that its micro-operations do it. The
places of the operands are those of the texts, before the instruction.
-/

namespace Tejas

namespace X86

open Registers OperandTranslator

/-! ## What an instruction does -/

section Effects

variable {V : Type} [DecidableEq V] (I : Interpretation V)

abbrev Effect (V : Type) := Option (Place V) → Option (Place V) → Option (Place V) →
  Machine V → Machine V

/-- An integer register as a place. -/
def integerPlace (value : ℕ) : Place V := .register (.integer, value)

/-- The cell that the stack pointer points to. -/
def stackTop (s : Machine V) : Place V := .cell (s.read (integerPlace 15))

/-- The stack pointer moves by one word, up or down. -/
def moveStackPointer (s : Machine V) : Machine V :=
  s.write (integerPlace 15)
    (I.compute .integerALU (some (s.read (integerPlace 15))) (some (I.constant .immediate)))

def pushValue (s : Machine V) (value : V) : Machine V :=
  (moveStackPointer I s).write (stackTop (moveStackPointer I s)) value

def exchangePlaces (s : Machine V) (place1 place2 : Place V) : Machine V :=
  (s.write place1 (s.read place2)).write place2 (s.read place1)

/-- The integer operation on the values of two places goes to the second. -/
def combineInto (s : Machine V) (source destination : Place V) : Machine V :=
  s.write destination
    (I.compute .integerALU (some (s.read source)) (some (s.read destination)))

/-- An exchange-and-add exchanges, and adds into its second operand. A pop moves the stack
pointer before it writes. -/
def InstructionClass.effect (c : InstructionClass) : Effect V := fun place1 place2 place3 s =>
  match c, place1, place2, place3 with
  | .integerALUImplicitDestination, some place1, some place2, none => combineInto I s place2 place1
  | .singleOperandIntegerALU, some place1, none, none =>
    s.write place1 (I.compute .integerALU none (some (s.read place1)))
  | .exchange, some place1, some place2, none => exchangePlaces s place1 place2
  | .exchangeAndAdd, some place1, some place2, none =>
    combineInto I (exchangePlaces s place1 place2) place1 place2
  | .push, some place1, none, none => pushValue I s (s.read place1)
  | .pop, some place1, none, none => (moveStackPointer I s).write place1 (s.read (stackTop s))
  | .integerMultiplication, some place1, none, none =>
    s.write (integerPlace 0)
      (I.compute .integerMul (some (s.read (integerPlace 0))) (some (s.read place1)))
  | .integerMultiplication, some place1, some place2, none =>
    s.write place1 (I.compute .integerMul (some (s.read place1)) (some (s.read place2)))
  | .integerMultiplication, some place1, some place2, some place3 =>
    s.write place1 (I.compute .integerMul (some (s.read place2)) (some (s.read place3)))
  | _, _, _, _ => s

/-- A return address is popped into the instruction pointer. -/
def returnJump (s : Machine V) : Machine V :=
  (s.write (integerPlace 27) (s.read (stackTop s))).event .jump
    (I.compute .jump (some (s.read (stackTop s))) none)

/-- A call reads its target behind the push. A conditional move is a move, and the value of a
conditional set an immediate. A comparison is an event, but for the one of two memory operands
of a string, which leaves no trace. -/
def IntegerClass.effect (c : IntegerClass) : Effect V := fun place1 place2 place3 s =>
  match c, place1, place2, place3 with
  | .basic class', place1, place2, place3 => class'.effect I place1 place2 place3 s
  | .integerALUNoImplicitDestination, some place1, some place2, none =>
    s.event .integerALU (I.compute .integerALU (some (s.read place2)) (some (s.read place1)))
  | .singleOperandIntegerALUImplicitAccumulator, none, none, none =>
    s.write (integerPlace 0) (I.compute .integerALU none (some (s.read (integerPlace 0))))
  | .singleOperandIntegerALUImplicitAccumulator, some place1, none, none =>
    combineInto I s place1 (integerPlace 0)
  | .conditionalJump, some place1, none, none =>
    s.event .branch (I.compute .branch (some (s.read place1)) none)
  | .unconditionalJump, some place1, none, none =>
    s.event .jump (I.compute .jump (some (s.read place1)) none)
  | .loop, some place1, none, none =>
    (s.write (integerPlace 2) (I.compute .integerALU (some (s.read (integerPlace 2)))
      (some (I.constant .immediate)))).event .branch
        (I.compute .branch (some (s.read place1)) none)
  | .shiftOperationThreeOperands, some place1, some place2, some place3 =>
    s.write place1 (I.compute .integerALU (some (s.read place2)) (some (s.read place3)))
  | .returnOp, none, none, none => moveStackPointer I (returnJump I s)
  | .returnOp, some place1, none, none =>
    (returnJump I s).write (integerPlace 15)
      (I.compute .integerALU (some (s.read (integerPlace 15)))
        (some (I.compute .integerALU (some (s.read place1)) (some (I.constant .immediate)))))
  | .move, some place1, some place2, none => s.write place1 (s.read place2)
  | .conditionalMove, some place1, some place2, none => s.write place1 (s.read place2)
  | .call, some place1, none, none =>
    let s' := pushValue I s (I.constant .immediate)
    s'.event .jump (I.compute .jump (some (s'.read place1)) none)
  | .integerDivision, some place1, none, none =>
    s.write (integerPlace 0)
      (I.compute .integerDiv (some (s.read place1)) (some (s.read (integerPlace 0))))
  | .interrupt, some place1, none, none =>
    s.event .interrupt (I.compute .interrupt (some (s.read place1)) none)
  | .loadEffectiveAddress, some place1, some (.cell address), none => s.write place1 address
  | .stringMove, none, none, none =>
    s.write (.cell (s.read (integerPlace 13))) (s.read (.cell (s.read (integerPlace 12))))
  | .stringMove, some place1, some place2, none => s.write place1 (s.read place2)
  | .stringCompare, none, none, none =>
    s.event .integerALU (I.compute .integerALU (some (s.read (.cell (s.read (integerPlace 13)))))
      (some (s.read (.cell (s.read (integerPlace 12))))))
  | .leave, none, none, none =>
    InstructionClass.effect I .pop (some (integerPlace 14)) none none
      (s.write (integerPlace 15) (s.read (integerPlace 14)))
  | .conditionalSet, some place1, _, _ => s.write place1 (I.constant .immediate)
  | _, _, _, _ => s

end Effects

/-- The instructions that are translated with their meaning. A value that is stored
again has no scaled index in its address, `push` does not push the stack pointer, and an address
does not contain a register that the instruction changes before it uses the address. -/
def IntegerClass.Regular (c : IntegerClass) (operand1 operand2 : Option SourceOperand) : Prop :=
  match c with
  | .basic .integerALUImplicitDestination | .basic .singleOperandIntegerALU
  | .shiftOperationThreeOperands => ∀ source ∈ operand1, ¬ source.Scaled
  | .basic .exchangeAndAdd =>
    (∀ source ∈ operand2, ¬ source.Scaled) ∧
      ∀ m operand, (operand1 = some (.location m) ∧ operand2 = some (.base operand) ∨
        operand2 = some (.location m) ∧ operand1 = some (.base operand)) →
          ∀ r ∈ operand.register?, r ∉ (SourceOperand.location m).registers
  | .basic .push => operand1 ≠ some (.base (.register .integer 15))
  | .basic .pop => ∀ source ∈ operand1, (RegisterType.integer, 15) ∉ source.registers
  | .call => ∀ m, operand1 = some (.location m) →
      (RegisterType.integer, 15) ∉ (SourceOperand.location m).registers
  | .conditionalMove => ∀ m, operand1 ≠ some (.location m)
  | _ => True

/-! ## Operands of a handler -/

section Operands

variable {V : Type} {I : Interpretation V} {s : MicroMachine V} {n : ℕ} {operand : Operand}

/-- Both operands have temporaries of their own. -/
def Separate (operand1 operand2 : Operand) : Prop :=
  ∀ value, 29 ≤ value → (RegisterType.integer, value) ∈ operand1.registers →
    (RegisterType.integer, value) ∉ operand2.registers

/-- What a handler may rely on for its operands, with `n` temporaries taken. -/
structure Ready (n : ℕ) (operand1 operand2 operand3 : Option Operand) : Prop where
  bounded1 : ∀ operand ∈ operand1, Bounded n operand
  bounded2 : ∀ operand ∈ operand2, Bounded n operand
  ofMachine1 : ∀ operand ∈ operand1, OfMachine operand
  ofMachine2 : ∀ operand ∈ operand2, OfMachine operand
  ofMachine3 : ∀ operand ∈ operand3, OfMachine operand
  separate : ∀ first ∈ operand1, ∀ second ∈ operand2, Separate first second

theorem place_visible (h : OfMachine operand) : (s.place I operand).Visible := by
  match operand with
  | .memory _ _ => trivial
  | .base .immediate => trivial
  | .base .inValid => trivial
  | .base (.register .float _) => exact fun htemp => nomatch htemp.1
  | .base (.register .integer value) =>
    exact fun htemp => absurd htemp.2 (Nat.not_le.mpr (h value rfl))

theorem value_ofMachine (h : OfMachine operand) :
    s.value I operand = s.machine.read (s.place I operand) :=
  MicroMachine.read_visible (place_visible h)

theorem ofMachine_integerRegister {value : ℕ} (h : value < 29) :
    OfMachine (integerRegister value) := by
  intro value' heq
  cases heq
  exact h

theorem value_integerRegister {number : ℕ} (h : number < 29) :
    s.value I (integerRegister number) = s.machine.read (integerPlace number) :=
  value_ofMachine (ofMachine_integerRegister h)

theorem value_stackPointerLocation :
    s.value I stackPointerLocation = s.machine.read (stackTop s.machine) := by
  rw [value_ofMachine (show OfMachine stackPointerLocation from trivial)]
  exact congrArg (fun address => s.machine.memory address)
    (value_integerRegister (I := I) (by decide : 15 < 29))

theorem place_stackPointerLocation :
    s.place I stackPointerLocation = stackTop s.machine :=
  congrArg Place.cell (value_integerRegister (I := I) (by decide : 15 < 29))

theorem value_setTemporary {number : ℕ} {v : V} (h : 29 ≤ number) :
    (s.setTemporary number v).value I (integerRegister number) = v :=
  (MicroMachine.read_temporary h).trans (Function.update_self _ _ _)

/-- A temporary that the operand does not contain leaves it where it is. -/
theorem place_setTemporary {number : ℕ} {v : V}
    (hno : (RegisterType.integer, number) ∉ operand.registers) :
    (s.setTemporary number v).place I operand = s.place I operand := by
  refine MicroMachine.place_congr ?_
  intro r hr
  refine MicroMachine.read_register_congr (MicroMachine.machine_setTemporary _ _) ?_
  intro htemp
  refine Function.update_of_ne ?_ _ _
  rintro rfl
  obtain ⟨type, number⟩ := r
  obtain ⟨rfl, -⟩ : type = .integer ∧ 29 ≤ number := htemp
  exact hno hr

theorem Bounded.not_mem {n : ℕ} (h : Bounded n operand) :
    (RegisterType.integer, 29 + n) ∉ operand.registers :=
  fun hmem => absurd (h _ hmem) (Nat.lt_irrefl _)

theorem not_memory_of_integerRegister (h : isIntegerRegisterOperand operand = true) :
    isMemoryOperand operand = false := by
  cases operand with
  | base => rfl
  | memory => cases h

theorem not_memory_of_immediate (h : isImmediateOperand operand = true) :
    isMemoryOperand operand = false := by
  cases operand with
  | base => rfl
  | memory => cases h

theorem place_base (s₁ : MicroMachine V) (h : isMemoryOperand operand = false) :
    s₁.place I operand = s.place I operand := by
  cases operand with
  | base => rfl
  | memory => cases h

theorem place_of_noTemporary {s₁ : MicroMachine V} (h : NoTemporary operand)
    (hmachine : s₁.machine = s.machine) : s₁.place I operand = s.place I operand := by
  refine MicroMachine.place_congr ?_
  intro r hr
  refine MicroMachine.read_register_congr hmachine ?_
  intro htemp
  obtain ⟨type, number⟩ := r
  obtain ⟨rfl, hle⟩ : type = .integer ∧ 29 ≤ number := htemp
  exact absurd hle (Nat.not_le.mpr (h number hr))

theorem Within.bounded {lo hi : ℕ} (h : Within lo hi operand) (hle : hi ≤ n) :
    Bounded n operand := by
  intro value hvalue
  obtain hlt | ⟨-, hlt⟩ := h value hvalue <;> omega

theorem Within.separate {lo mid hi : ℕ} {operand' : Operand} (h : Within lo mid operand)
    (h' : Within mid hi operand') : Separate operand operand' := by
  intro value hle hvalue hvalue'
  obtain hlt | ⟨-, hlt⟩ := h value hvalue
  · omega
  · obtain hlt' | ⟨hle', -⟩ := h' value hvalue' <;> omega

theorem translate_translated {handler : Handler} {operand1Str operand2Str operand3Str : Option Text}
    {microOps : List Instruction} (hx1 : IsX86 operand1Str) (hx2 : IsX86 operand2Str)
    (hx3 : IsX86 operand3Str)
    (h : translate handler operand1Str operand2Str operand3Str = .ok microOps) :
    ∃ operand1 operand2 operand3 microOps1 microOps2 microOps3 n1 n2 n3 t',
      Translated 0 (operand1Str.bind sourceOperand) operand1 microOps1 n1 ∧
      Translated n1 (operand2Str.bind sourceOperand) operand2 microOps2 n2 ∧
      Translated n2 (operand3Str.bind sourceOperand) operand3 microOps3 n3 ∧
      handler operand1 operand2 operand3 ⟨microOps1 ++ microOps2 ++ microOps3, n3⟩ = .ok t' ∧
      microOps = t'.instructionList := by
  obtain ⟨⟨operand1, t₁⟩, hoperand1, h⟩ := bind_eq_ok.mp h
  obtain ⟨⟨operand2, t₂⟩, hoperand2, h⟩ := bind_eq_ok.mp h
  obtain ⟨⟨operand3, t₃⟩, hoperand3, h⟩ := bind_eq_ok.mp h
  obtain ⟨t', hhandler, h⟩ := bind_eq_ok.mp h
  cases h
  obtain ⟨microOps1, h1, hlist1⟩ := simplifyOperand_translated hx1 hoperand1
  obtain ⟨microOps2, h2, hlist2⟩ := simplifyOperand_translated hx2 hoperand2
  obtain ⟨microOps3, h3, hlist3⟩ := simplifyOperand_translated hx3 hoperand3
  have ht₃ : t₃ = ⟨microOps1 ++ microOps2 ++ microOps3, t₃.numTempIntRegister⟩ := by
    obtain ⟨list₃, n₃⟩ := t₃
    rw [hlist2, hlist1, List.nil_append] at hlist3
    exact congrArg (Translation.mk · n₃) hlist3
  rw [ht₃] at hhandler
  exact ⟨operand1, operand2, operand3, microOps1, microOps2, microOps3, _, _, _, t', h1, h2, h3,
    hhandler, rfl⟩

end Operands

/-! ## Loading a value -/

section Loads

variable {V : Type} [DecidableEq V] {I : Interpretation V} {s : MicroMachine V}
  {t t₁ t₂ : Translation} {operand operand1 operand2 value value1 value2 : Operand}
  {loads loads1 loads2 : List Instruction}

/-- The value is in its register or where it was, and of the temporaries only one changes. -/
theorem Valued.run (h : Valued t operand loads value t₁) :
    (s.run I loads).machine = s.machine ∧ (s.run I loads).value I value = s.value I operand ∧
      ∀ number, (RegisterType.integer, number) ∉ operand.registers →
        number ≠ 29 + t.numTempIntRegister →
          (s.run I loads).temporaries number = s.temporaries number := by
  have hload : ∀ number, 29 ≤ number →
      s.run I [getLoadInstruction operand (integerRegister number)] =
        s.setTemporary number (s.value I operand) :=
    fun number hle => MicroMachine.write_temporary hle
  have hvalue : ∀ number, 29 ≤ number →
      (s.setTemporary number (s.value I operand)).value I (integerRegister number) =
        s.value I operand :=
    fun number hle => (MicroMachine.read_temporary hle).trans (Function.update_self _ _ _)
  cases h with
  | direct => exact ⟨rfl, rfl, fun _ _ _ => rfl⟩
  | reused hmem htemp =>
    obtain ⟨n', hn', htemporary, hregister⟩ := temporaryOf_spec htemp
    cases hn'
    have hle := temporary_ge htemporary
    rw [hload _ hle]
    refine ⟨rfl, hvalue _ hle, ?_⟩
    intro number hnot _
    refine Function.update_of_ne ?_ _ _
    rintro rfl
    exact hnot hregister
  | fresh =>
    have hle : 29 ≤ 29 + t.numTempIntRegister := Nat.le_add_right _ _
    rw [hload _ hle]
    exact ⟨rfl, hvalue _ hle, fun number _ hne => Function.update_of_ne hne _ _⟩

/-- A value from memory is in a temporary. -/
theorem Valued.kind (h : Valued t operand loads value t₁) :
    isMemoryOperand operand = false ∧ value = operand ∨
      isMemoryOperand operand = true ∧ ∃ number, 29 ≤ number ∧ value = integerRegister number := by
  cases h with
  | direct hno => exact Or.inl ⟨hno, rfl⟩
  | reused hmem htemp =>
    obtain ⟨n', hn', htemporary, -⟩ := temporaryOf_spec htemp
    cases hn'
    exact Or.inr ⟨hmem, _, temporary_ge htemporary, rfl⟩
  | fresh hmem => exact Or.inr ⟨hmem, _, Nat.le_add_right _ _, rfl⟩

/-- The register of a value is the operand's or a new temporary. -/
theorem Valued.registers (h : Valued t operand loads value t₁) {r : RegisterType × ℕ}
    (hr : r ∈ value.registers) :
    (r ∈ operand.registers ∧ (isMemoryOperand operand = true → IsTemporaryRegister r)) ∨
      r = (.integer, 29 + t.numTempIntRegister) ∧
        t₁.numTempIntRegister = t.numTempIntRegister + 1 := by
  cases h with
  | direct hno => exact Or.inl ⟨hr, fun hmem => absurd hmem (by rw [hno]; exact Bool.false_ne_true)⟩
  | reused hmem htemp =>
    obtain ⟨n', hn', htemporary, hregister⟩ := temporaryOf_spec htemp
    cases hn'
    obtain rfl := List.mem_singleton.mp hr
    exact Or.inl ⟨hregister, fun _ => ⟨rfl, temporary_ge htemporary⟩⟩
  | fresh => exact Or.inr ⟨List.mem_singleton.mp hr, rfl⟩

/-- Two values are loaded, and the first is still there behind the second load. -/
theorem Valued.run_pair (h1 : Valued t operand1 loads1 value1 t₁)
    (h2 : Valued t₁ operand2 loads2 value2 t₂)
    (hb1 : Bounded t.numTempIntRegister operand1) (hb2 : Bounded t.numTempIntRegister operand2)
    (hseparate : Separate operand1 operand2) :
    (s.run I (loads1 ++ loads2)).machine = s.machine ∧
      (s.run I (loads1 ++ loads2)).value I value1 = s.value I operand1 ∧
      (s.run I (loads1 ++ loads2)).value I value2 = s.value I operand2 := by
  obtain ⟨hmachine1, hvalue1, hother1⟩ := h1.run (s := s) (I := I)
  obtain ⟨hmachine2, hvalue2, hother2⟩ := h2.run (s := s.run I loads1) (I := I)
  rw [MicroMachine.run_append]
  refine ⟨hmachine2.trans hmachine1, ?_, ?_⟩
  · rw [← hvalue1]
    refine MicroMachine.value_congr (congrArg Machine.memory hmachine2) ?_
    intro r hr
    refine MicroMachine.read_register_congr hmachine2 ?_
    intro htemp
    obtain ⟨type, number⟩ := r
    obtain ⟨rfl, hle⟩ : type = .integer ∧ 29 ≤ number := htemp
    have hmono := h1.le
    -- the second load writes a temporary of the second operand or a new one
    obtain ⟨hmem, -⟩ | ⟨heq, hnext⟩ := h1.registers hr
    · have := hb1 number hmem
      exact hother2 number (hseparate number hle hmem) (by omega)
    · have hnumber : number = 29 + t.numTempIntRegister := congrArg Prod.snd heq
      refine hother2 number ?_ (by omega)
      intro hmem
      have := hb2 number hmem
      omega
  · rw [hvalue2]
    refine MicroMachine.value_congr (congrArg Machine.memory hmachine1) ?_
    intro r hr
    refine MicroMachine.read_register_congr hmachine1 ?_
    intro htemp
    obtain ⟨type, number⟩ := r
    obtain ⟨rfl, hle⟩ : type = .integer ∧ 29 ≤ number := htemp
    have := hb2 number hr
    exact hother1 number (fun hmem => hseparate number hle hmem hr) (by omega)

end Loads

end X86

end Tejas
