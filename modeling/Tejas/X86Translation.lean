import Tejas.X86ControlMeaning

/-!
# The translation keeps the meaning

The micro-operations of an integer instruction do to the machine what the instruction does,
and so do those of a program.
-/

namespace Tejas

namespace X86

open Registers OperandTranslator

section Translation

variable {V : Type} [DecidableEq V] {I : Interpretation V} {s : MicroMachine V} {n n' : ℕ}
  {p1 p2 : Option SourceOperand} {o1 o2 o3 : Option Operand}
  {microOps1 microOps2 : List Instruction}

theorem Translated.base_source (h : Translated n p1 o1 microOps1 n') {operand : BaseOperand}
    (ho : o1 = some (.base operand)) : p1 = some (.base operand) := by
  cases h with
  | null => cases ho
  | base =>
    cases ho
    rfl
  | plain => cases ho
  | scaled => cases ho

theorem Translated.memory_source (h : Translated n p1 o1 microOps1 n')
    {first second : Option BaseOperand} (ho : o1 = some (.memory first second)) :
    ∃ m, p1 = some (.location m) := by
  cases h with
  | null => cases ho
  | base => cases ho
  | plain => exact ⟨_, rfl⟩
  | scaled => exact ⟨_, rfl⟩

/-- A register of the machine that is not in the text is not in the operand. -/
theorem Translated.not_mem (h : Translated n p1 o1 microOps1 n') {value : ℕ} (hlt : value < 29)
    (hno : ∀ source ∈ p1, (RegisterType.integer, value) ∉ source.registers) :
    ∀ operand ∈ o1, (RegisterType.integer, value) ∉ operand.registers := by
  intro operand hmem hr
  have hmachine : ¬ IsTemporaryRegister (RegisterType.integer, value) :=
    fun htemp => absurd htemp.2 (Nat.not_le.mpr hlt)
  obtain ⟨source, hsource, hregister⟩ := h.register_source hmem hr hmachine
  exact hno source hsource hregister

theorem IntegerClass.performs (c : IntegerClass) (hregular : c.Regular p1 p2)
    (h1 : Translated 0 p1 o1 microOps1 n) (h2 : Translated n p2 o2 microOps2 n') :
    Performs I c.handler (c.effect I) o1 o2 o3 := by
  cases c with
  | basic class' =>
    cases class' with
    | integerALUImplicitDestination =>
      exact integerALUImplicitDestination_performs (h1.noTemporary hregular)
    | singleOperandIntegerALU => exact singleOperandIntALU_performs (h1.noTemporary hregular)
    | exchange => exact exchange_performs
    | exchangeAndAdd =>
      obtain ⟨hplain, hindependent⟩ := hregular
      refine exchangeAndAdd_performs (h2.noTemporary hplain) ?_
      rintro first second value (⟨ho1, ho2⟩ | ⟨ho2, ho1⟩)
      · obtain ⟨m, hm⟩ := h1.memory_source ho1
        have hlt := h2.ofMachine _ ho2 value rfl
        refine h1.not_mem hlt ?_ _ ho1
        intro source hsource
        obtain rfl := Option.some.inj (hm.symm.trans hsource)
        exact hindependent m _ (Or.inl ⟨hm, h2.base_source ho2⟩) _ rfl
      · obtain ⟨m, hm⟩ := h2.memory_source ho2
        have hlt := h1.ofMachine _ ho1 value rfl
        refine h2.not_mem hlt ?_ _ ho2
        intro source hsource
        obtain rfl := Option.some.inj (hm.symm.trans hsource)
        exact hindependent m _ (Or.inr ⟨hm, h1.base_source ho1⟩) _ rfl
    | push => exact push_performs (fun ho => hregular (h1.base_source ho))
    | pop => exact pop_performs (h1.not_mem (by decide) hregular)
    | integerMultiplication => exact integerMultiplication_performs
  | integerALUNoImplicitDestination => exact integerALUExplicitDestination_performs
  | singleOperandIntegerALUImplicitAccumulator =>
    exact singleOperandIntALUImplicitAccumulator_performs
  | conditionalJump => exact conditionalJump_performs
  | unconditionalJump => exact unconditionalJump_performs
  | loop => exact loop_performs
  | shiftOperationThreeOperands =>
    exact shiftOperationThreeOperand_performs (h1.noTemporary hregular)
  | returnOp => exact returnOp_performs
  | move => exact move_performs
  | conditionalMove =>
    refine conditionalMove_performs ?_
    intro operand ho
    cases operand with
    | base => rfl
    | memory first second =>
      obtain ⟨m, hm⟩ := h1.memory_source ho
      exact absurd hm (hregular m)
  | call =>
    refine call_performs ?_
    intro first second ho
    obtain ⟨m, hm⟩ := h1.memory_source ho
    refine h1.not_mem (by decide) ?_ _ ho
    intro source hsource
    obtain rfl := Option.some.inj (hm.symm.trans hsource)
    exact hregular m hm
  | nop => exact nop_performs
  | integerDivision => exact integerDivision_performs
  | interrupt => exact interrupt_performs
  | loadEffectiveAddress => exact loadEffectiveAddress_performs
  | stringMove => exact stringMove_performs
  | stringCompare => exact stringCompare_performs
  | leave => exact leave_performs
  | conditionalSet => exact conditionalSet_performs

/-- Where the text of an operand says that it is. -/
def textPlace (I : Interpretation V) (s : Machine V) (operandStr : Option Text) :
    Option (Place V) :=
  (operandStr.bind sourceOperand).map (SourceOperand.place I s)

/-- The micro-operations of one instruction, from any machine and whatever the temporaries
hold. -/
theorem translate_meaning (I : Interpretation V) (c : IntegerClass)
    {operand1Str operand2Str operand3Str : Option Text} {microOps : List Instruction}
    (hx1 : IsX86 operand1Str) (hx2 : IsX86 operand2Str) (hx3 : IsX86 operand3Str)
    (h : translate c.handler operand1Str operand2Str operand3Str = .ok microOps)
    (hregular : c.Regular (operand1Str.bind sourceOperand) (operand2Str.bind sourceOperand))
    (s : MicroMachine V) :
    (s.run I microOps).machine = c.effect I (textPlace I s.machine operand1Str)
      (textPlace I s.machine operand2Str) (textPlace I s.machine operand3Str) s.machine := by
  obtain ⟨operand1, operand2, operand3, microOps1, microOps2, microOps3, n1, n2, n3, t', h1, h2, h3,
    hhandler, rfl⟩ := translate_translated hx1 hx2 hx3 h
  have hle2 := h2.le
  have hle3 := h3.le
  have hready : Ready n3 operand1 operand2 operand3 :=
    ⟨fun o ho => (h1.within o ho).bounded (hle2.trans hle3),
      fun o ho => (h2.within o ho).bounded hle3, h1.ofMachine, h2.ofMachine, h3.ofMachine,
      fun o ho o' ho' => (h1.within o ho).separate (h2.within o' ho')⟩
  obtain ⟨rest, hlist, hresult⟩ := IntegerClass.performs (I := I) c hregular h1 h2
    (s.run I (microOps1 ++ microOps2 ++ microOps3)) _ t' hready hhandler
  -- the micro-operations in front leave the machine, and the operands where they were
  obtain ⟨hmachine1, -, hplace1⟩ := h1.run (I := I) (s := s)
  obtain ⟨hmachine2, -, hplace2⟩ := h2.run (I := I) (s := s.run I microOps1)
  obtain ⟨hmachine3, -, hplace3⟩ := h3.run (I := I) (s := (s.run I microOps1).run I microOps2)
  have hlater1 := h2.place_later (I := I) (s := s.run I microOps1) h1.within
  have hwithin1 : ∀ o ∈ operand1, Within 0 n2 o := by
    intro o ho value hvalue
    obtain hlt | ⟨hle, hlt⟩ := h1.within o ho value hvalue
    · exact Or.inl hlt
    · exact Or.inr ⟨hle, by omega⟩
  have hlater1' := h3.place_later (I := I) (s := (s.run I microOps1).run I microOps2) hwithin1
  have hlater2 := h3.place_later (I := I) (s := (s.run I microOps1).run I microOps2) h2.within
  change t'.instructionList = (microOps1 ++ microOps2 ++ microOps3) ++ rest at hlist
  rw [hlist, MicroMachine.run_append, hresult]
  simp only [MicroMachine.run_append, textPlace]
  rw [hlater1', hlater1, hplace1, hlater2, hplace2, hplace3, hmachine3, hmachine2, hmachine1]

end Translation

/-! ## Programs -/

/-- An instruction of the object code, with the texts of its operands. -/
structure SourceInstruction where
  instructionPointer : ℤ
  operation : Text
  operand1Str : Option Text
  operand2Str : Option Text
  operand3Str : Option Text
  deriving DecidableEq, Repr

/-- The micro-operations of a program. -/
def riscifyProgram (program : List SourceInstruction) : Option (List TranslatedMicroOp) :=
  program.foldlM (fun instructionList line =>
    riscifyInstruction integerHandler line.instructionPointer line.operation line.operand1Str
      line.operand2Str line.operand3Str instructionList) []

/-- The operations of the first classes have their class in the whole table. -/
theorem integerClass_basic : ∀ c ∈ InstructionClass.all, ∀ name ∈ c.operations,
    IntegerClass.all.find? (fun c' => name ∈ c'.operations) = some (.basic c) := by
  decide +kernel

theorem getInstructionClassHandler_integer (operation : Text) :
    getInstructionClassHandler integerHandler operation =
      (integerClass operation).map IntegerClass.handler := by
  rw [getInstructionClassHandler]
  split
  case h_1 c hc =>
    have hname := integerClass_basic c (List.mem_of_find?_eq_some hc) (String.ofList operation)
      (by simpa using List.find?_some hc)
    rw [integerClass, hname]
    rfl
  case h_2 => rfl

section Programs

variable {V : Type} [DecidableEq V] (I : Interpretation V)

namespace SourceInstruction

/-- What an instruction does. One that is refused is passed over. -/
def effect (line : SourceInstruction) (s : Machine V) : Machine V :=
  match integerClass line.operation with
  | some c =>
    match translate c.handler line.operand1Str line.operand2Str line.operand3Str with
    | .ok _ => c.effect I (textPlace I s line.operand1Str) (textPlace I s line.operand2Str)
        (textPlace I s line.operand3Str) s
    | .error _ => s
  | none => s

/-- The texts are x86, and the instruction is one that is translated with its meaning. -/
structure Regular (line : SourceInstruction) : Prop where
  operand1 : IsX86 line.operand1Str
  operand2 : IsX86 line.operand2Str
  operand3 : IsX86 line.operand3Str
  regular : ∀ c ∈ integerClass line.operation,
    c.Regular (line.operand1Str.bind sourceOperand) (line.operand2Str.bind sourceOperand)

end SourceInstruction

/-- One more instruction. -/
theorem riscifyInstruction_meaning {line : SourceInstruction} (hline : line.Regular)
    {instructionList result : List TranslatedMicroOp}
    (h : riscifyInstruction integerHandler line.instructionPointer line.operation line.operand1Str
      line.operand2Str line.operand3Str instructionList = some result) (s : MicroMachine V) :
    (s.run I (result.map TranslatedMicroOp.instruction)).machine =
      line.effect I (s.run I (instructionList.map TranslatedMicroOp.instruction)).machine := by
  rw [riscifyInstruction, getInstructionClassHandler_integer] at h
  cases hclass : integerClass line.operation with
  | none =>
    rw [hclass] at h
    cases h
    rw [SourceInstruction.effect, hclass]
  | some c =>
    rw [hclass] at h
    rw [SourceInstruction.effect, hclass]
    simp only [Option.map_some] at h
    cases htranslate : translate c.handler line.operand1Str line.operand2Str line.operand3Str with
    | error e =>
      rw [htranslate] at h
      cases e with
      | exception =>
        cases h
        simp only [htranslate]
      | exit => cases h
    | ok microOps =>
      rw [htranslate] at h
      obtain rfl := Option.some.inj h
      have hmap : (microOps.map (TranslatedMicroOp.mk line.instructionPointer)).map
          TranslatedMicroOp.instruction = microOps := by
        rw [List.map_map]
        exact List.map_id _
      rw [List.map_append, hmap, MicroMachine.run_append]
      simp only [htranslate]
      exact translate_meaning I c hline.operand1 hline.operand2 hline.operand3 htranslate
        (hline.regular c hclass) _

end Programs

/-- A scaled load, a push and a return. -/
def loadPushReturn : List SourceInstruction :=
  [⟨64, "mov".toList, some "rax".toList, some "[rbx+rcx*4]".toList, none⟩,
    ⟨68, "push".toList, some "rax".toList, none, none⟩, ⟨70, "ret".toList, none, none, none⟩]

/-- With words of eight bytes, and sums as the operations. -/
def sums : Interpretation ℕ := ⟨fun _ => 8, fun _ a b => a.getD 0 + b.getD 0⟩

end X86

end Tejas
