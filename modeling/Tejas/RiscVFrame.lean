import Mathlib.Tactic.Common
import Tejas.RiscVHandlers
import Tejas.X86OperandSpec

/-!
# Which registers a RISC-V instruction writes

The temporaries of the translator are the registers `t0` to `t7`, which a program names as
any other. A micro-operation that loads an operand therefore writes a register of the
program, and this is a destination of the instruction only by chance.
-/

namespace Tejas

namespace RiscV

open X86 (Text Failure Translation Handler TranslatedMicroOp getLoadInstruction integerRegister
  isIntegerRegisterOperand isImmediateOperand isMemoryOperand bind_eq_ok mem_registers_memory)
open X86.OperandTranslator (getIntALUInstruction)
open Registers OperandTranslator

/-! ## Registers of the program -/

/-- Some text of a program names the register. -/
def Nameable (r : RegisterType × ℕ) : Prop :=
  ∃ s, simplifyOperand (some s) = .ok (some (.base (.register r.1 r.2)))

/-- No text of a program names the register. -/
def Private (register : BaseOperand) : Prop :=
  ∀ s, simplifyOperand (some s) ≠ .ok (some (.base register))

/-- The translator gives the register to an instruction that needs a temporary. -/
def HandedOut (register : BaseOperand) : Prop :=
  (∃ t t', getTempIntReg t = .ok (register, t')) ∨
    ∃ operand t t', getLocationToStoreValue operand t = .ok (register, t')

/-- The micro-operations write no register of the program but these. -/
def WritesOnly (allowed : List (RegisterType × ℕ)) (microOps : List Instruction) : Prop :=
  ∀ op ∈ microOps, ∀ r ∈ op.destinations, Nameable r → r ∈ allowed

/-! ## Instructions -/

namespace InstructionClass

/-- The destination operands: the first one of an atomic instruction, and of a jump that
links if there is a target behind it. -/
def destinationOperands (c : InstructionClass) (operand1 operand2 : Option Operand) :
    List (RegisterType × ℕ) :=
  match c with
  | .conditionalBranch => []
  | .jumpAndLink => if operand2.isSome then (operand1.bind Operand.register?).toList else []
  | .atomicInstructions => (operand1.bind Operand.register?).toList

end InstructionClass

/-- The text of an instruction of one of the classes, with any operands. -/
structure InstructionText where
  instructionClass : InstructionClass
  operation : String
  mem : operation ∈ instructionClass.operations
  operand1 : Option Text
  operand2 : Option Text
  operand3 : Option Text

/-- From `t0` to `t6`. -/
def IsTemporary (r : RegisterType × ℕ) : Bool := r.1 = .integer && 29 ≤ r.2 && r.2 ≤ 35

/-- The register that a memory operand is loaded into when `n` temporaries are taken: the
first temporary of its address, or else the next one. -/
def location (operand : Operand) (n : ℕ) : ℕ :=
  match operand.registers.find? IsTemporary with
  | some r => r.2
  | none => 29 + n

/-- The number of the temporaries that are taken when the value of the operand is there. -/
def taken (operand : Operand) (n : ℕ) : ℕ :=
  if isMemoryOperand operand && !operand.registers.any IsTemporary then n + 1 else n

/-- Every operand in memory is loaded into the register `d`. -/
def LoadsInto (d : ℕ) (n : ℕ) : List Operand → Prop
  | [] => True
  | operand :: operands =>
    (isMemoryOperand operand → location operand n = d) ∧ LoadsInto d (taken operand n) operands

/-- No operand is loaded, or only into the destination. -/
def InstructionClass.Harmless (c : InstructionClass)
    (operand1 operand2 operand3 : Option Operand) : Prop :=
  match c, operand1, operand2, operand3 with
  | .conditionalBranch, some operand1, some operand2, some operand3 =>
    ¬ (isIntegerRegisterOperand operand1 ∧ isIntegerRegisterOperand operand2 ∧
      isMemoryOperand operand3)
  | .conditionalBranch, some operand1, some operand2, none =>
    ¬ (isIntegerRegisterOperand operand1 ∧ isMemoryOperand operand2)
  | .jumpAndLink, some operand1, none, none => ¬ isMemoryOperand operand1
  | .atomicInstructions, some operand1, some operand2, some operand3 =>
    ∀ d, operand1 = integerRegister d → isValue operand2 → isValue operand3 →
      LoadsInto d 0 [operand2, operand3]
  | _, _, _, _ => True

namespace InstructionText

/-- The register is a destination operand of the text. -/
def IsDestination (x : InstructionText) (r : RegisterType × ℕ) : Prop :=
  ∃ operand1 operand2, simplifyOperand x.operand1 = .ok operand1 ∧
    simplifyOperand x.operand2 = .ok operand2 ∧
    r ∈ x.instructionClass.destinationOperands operand1 operand2

/-- Every register of the program that the micro-operations of the text write is a
destination operand. -/
def Framed (x : InstructionText) : Prop :=
  ∀ others ProgramCounter instructionList appended,
    riscifyInstruction others ProgramCounter x.operation x.operand1 x.operand2 x.operand3
      instructionList = some (instructionList ++ appended) →
    ∀ op ∈ appended, ∀ r ∈ op.instruction.destinations, Nameable r → x.IsDestination r

def Harmless (x : InstructionText) : Prop :=
  ∀ operand1 operand2 operand3, simplifyOperand x.operand1 = .ok operand1 →
    simplifyOperand x.operand2 = .ok operand2 → simplifyOperand x.operand3 = .ok operand3 →
    x.instructionClass.Harmless operand1 operand2 operand3

end InstructionText

/-! ## Temporaries -/

section Temporaries

variable {operand value : Operand} {t t' : Translation} {register : BaseOperand} {n : ℕ}

theorem nameable_temporary (h : n < 8) : Nameable (.integer, 29 + n) := by
  have htable : ∀ n < 8, simplifyOperand (some ("t" ++ toString n).toList) =
      .ok (some (.base (.register .integer (29 + n)))) := by
    decide +kernel
  exact ⟨_, htable n h⟩

theorem IsTemporary.bounds {r : RegisterType × ℕ} (h : IsTemporary r = true) :
    r.1 = .integer ∧ 29 ≤ r.2 ∧ r.2 ≤ 35 := by
  simp only [IsTemporary, Bool.and_eq_true, decide_eq_true_eq] at h
  exact ⟨h.1.1, h.1.2, h.2⟩

theorem nameable_of_isTemporary {r : RegisterType × ℕ} (h : IsTemporary r = true) :
    Nameable r := by
  obtain ⟨type, value⟩ := r
  obtain ⟨rfl, hge, hle⟩ := IsTemporary.bounds h
  obtain ⟨k, rfl⟩ := Nat.exists_eq_add_of_le hge
  have hlt : k < 8 := by omega
  exact nameable_temporary hlt

theorem getTempIntReg_eq (h : t.numTempIntRegister < 8) :
    getTempIntReg t = .ok (.register .integer (29 + t.numTempIntRegister),
      { t with numTempIntRegister := t.numTempIntRegister + 1 }) := by
  have hlength : 29 + t.numTempIntRegister < (table .integer).length :=
    Nat.lt_of_lt_of_le (Nat.add_lt_add_left h 29) (by decide)
  rw [getTempIntReg, temporary, if_pos h]
  simp only [getRegister, if_pos hlength]
  rfl

theorem getTempIntReg_lt (h : getTempIntReg t = .ok (register, t')) :
    t.numTempIntRegister < 8 := by
  by_contra hlt
  rw [getTempIntReg, temporary, if_neg hlt] at h
  cases h

theorem find_temporary (part : Option BaseOperand) :
    (part.bind BaseOperand.register?).toList.find? IsTemporary =
      if isTempIntRegister part then part.bind BaseOperand.register? else none := by
  match part with
  | none => rfl
  | some .immediate => rfl
  | some .inValid => rfl
  | some (.register .float _) => rfl
  | some (.register .integer value) =>
    simp [isTempIntRegister, IsTemporary, BaseOperand.register?, List.find?_singleton]

theorem isTempIntRegister_iff {part : Option BaseOperand} : isTempIntRegister part = true ↔
    ∃ value, part = some (.register .integer value) ∧ 29 ≤ value ∧ value ≤ 35 := by
  rw [isTempIntRegister.eq_def]
  split
  · simp
  · rename_i hother
    constructor
    · intro h
      cases h
    · rintro ⟨value, rfl, -⟩
      exact absurd rfl (hother value)

/-- The first temporary of an address is the one that the translator takes. -/
theorem getTemporaryMemoryRegister_eq (first second : Option BaseOperand) :
    getTemporaryMemoryRegister first second =
      ((Operand.memory first second).registers.find? IsTemporary).map
        fun r => .register r.1 r.2 := by
  rw [getTemporaryMemoryRegister, Operand.registers, List.find?_append, find_temporary,
    find_temporary]
  split
  · rename_i hfirst
    obtain ⟨value, rfl, -⟩ := isTempIntRegister_iff.mp hfirst
    rfl
  · split
    · rename_i hsecond
      obtain ⟨value, rfl, -⟩ := isTempIntRegister_iff.mp hsecond
      rfl
    · rfl

theorem getLocationToStoreValue_eq (hmem : isMemoryOperand operand = true)
    (h : t.numTempIntRegister < 8) : getLocationToStoreValue operand t =
      .ok (.register .integer (location operand t.numTempIntRegister),
        { t with numTempIntRegister := taken operand t.numTempIntRegister }) := by
  match operand with
  | .memory first second =>
    rw [getLocationToStoreValue, getTemporaryMemoryRegister_eq, location, taken, hmem]
    cases hfind : (Operand.memory first second).registers.find? IsTemporary with
    | none =>
      have hany : (Operand.memory first second).registers.any IsTemporary = false := by
        simpa using hfind
      rw [hany]
      exact getTempIntReg_eq h
    | some r =>
      have hany : (Operand.memory first second).registers.any IsTemporary = true :=
        List.any_eq_true.mpr ⟨r, List.mem_of_find?_eq_some hfind, List.find?_some hfind⟩
      rw [hany, ← (IsTemporary.bounds (List.find?_some hfind)).1]
      rfl

/-- The location of a value is one of `t0` to `t7`. -/
theorem nameable_location (h : n < 8) : Nameable (.integer, location operand n) := by
  rw [location]
  cases hfind : operand.registers.find? IsTemporary with
  | none => exact nameable_temporary h
  | some r =>
    have htemporary := List.find?_some hfind
    have hr := nameable_of_isTemporary htemporary
    rwa [← Prod.eta r, (IsTemporary.bounds htemporary).1] at hr

theorem getLocationToStoreValue_cases (h : getLocationToStoreValue operand t = .ok (register, t')) :
    (∃ r, IsTemporary r = true ∧ register = .register r.1 r.2) ∨
      getTempIntReg t = .ok (register, t') := by
  match operand with
  | .memory first second =>
    rw [getLocationToStoreValue, getTemporaryMemoryRegister_eq] at h
    cases hfind : (Operand.memory first second).registers.find? IsTemporary with
    | none =>
      rw [hfind] at h
      exact .inr h
    | some r =>
      rw [hfind] at h
      cases h
      exact .inl ⟨r, List.find?_some hfind, rfl⟩

/-- A program names every register that it is given as a temporary. -/
theorem nameable_of_handedOut (h : HandedOut register) :
    ∃ type value, register = .register type value ∧ Nameable (type, value) := by
  have htemp : ∀ {t t'}, getTempIntReg t = .ok (register, t') →
      ∃ type value, register = .register type value ∧ Nameable (type, value) := by
    intro t t' h
    have hlt := getTempIntReg_lt h
    rw [getTempIntReg_eq hlt] at h
    cases h
    exact ⟨_, _, rfl, nameable_temporary hlt⟩
  obtain ⟨t, t', h⟩ | ⟨operand, t, t', h⟩ := h
  · exact htemp h
  · obtain ⟨r, hr, rfl⟩ | h := getLocationToStoreValue_cases h
    · exact ⟨_, _, rfl, nameable_of_isTemporary hr⟩
    · exact htemp h

end Temporaries

/-! ## Loads -/

section Loads

variable {operand : Operand} {t : Translation} {allowed : List (RegisterType × ℕ)}
  {first second : List Instruction} {d n : ℕ}

/-- The load of a value that is in memory. -/
def loads (operand : Operand) (n : ℕ) : List Instruction :=
  if isMemoryOperand operand then
    [getLoadInstruction operand (integerRegister (location operand n))]
  else []

theorem valueOperand_eq (operand : Operand) (h : t.numTempIntRegister < 8) :
    ∃ value, valueOperand operand t = .ok (value,
      ⟨t.instructionList ++ loads operand t.numTempIntRegister,
        taken operand t.numTempIntRegister⟩) := by
  rw [valueOperand, loads]
  cases hmem : isMemoryOperand operand with
  | true =>
    rw [if_pos rfl, if_pos rfl, getLocationToStoreValue_eq hmem h]
    exact ⟨_, rfl⟩
  | false =>
    rw [if_neg Bool.false_ne_true, if_neg Bool.false_ne_true, List.append_nil, taken, hmem]
    exact ⟨_, rfl⟩

theorem taken_le : taken operand n ≤ n + 1 := by
  rw [taken]
  split
  · exact Nat.le_refl _
  · exact Nat.le_succ n

theorem writesOnly_append : WritesOnly allowed (first ++ second) ↔
    WritesOnly allowed first ∧ WritesOnly allowed second :=
  List.forall_mem_append

theorem writesOnly_singleton {op : Instruction} : WritesOnly allowed [op] ↔
    ∀ r ∈ op.destinations, Nameable r → r ∈ allowed :=
  List.forall_mem_singleton

theorem writesOnly_loads (h : n < 8) : WritesOnly allowed (loads operand n) ↔
    (isMemoryOperand operand → (.integer, location operand n) ∈ allowed) := by
  rw [loads]
  split
  · rename_i hmem
    rw [writesOnly_singleton]
    constructor
    · exact fun hwrites _ => hwrites _ List.mem_cons_self (nameable_location h)
    · intro hallowed r hr _
      rw [List.mem_singleton.mp hr]
      exact hallowed hmem
  · rename_i hmem
    exact ⟨fun _ h => absurd h hmem, fun _ _ hop => absurd hop List.not_mem_nil⟩

/-- The loads of a list of operands, one after another. -/
def allLoads (n : ℕ) : List Operand → List Instruction
  | [] => []
  | operand :: operands => loads operand n ++ allLoads (taken operand n) operands

theorem writesOnly_allLoads {operands : List Operand} (h : n + operands.length ≤ 8) :
    WritesOnly [(.integer, d)] (allLoads n operands) ↔ LoadsInto d n operands := by
  induction operands generalizing n with
  | nil => exact ⟨fun _ => trivial, fun _ _ hop => absurd hop List.not_mem_nil⟩
  | cons operand operands ih =>
    rw [List.length_cons] at h
    have htaken : taken operand n ≤ n + 1 := taken_le
    rw [allLoads, writesOnly_append, writesOnly_loads (by omega), ih (by omega), LoadsInto,
      List.mem_singleton, Prod.mk.injEq, and_iff_right rfl]

end Loads

/-! ## The handlers -/

section Handlers

variable {operand1 operand2 operand3 : Option Operand} {operand : Operand}

/-- A value for a jump or a branch is framed unless it is loaded. -/
theorem jump_writesOnly_iff {make : Operand → Instruction}
    (hmake : ∀ value, (make value).destinations = []) :
    (∀ t, (do
      let (jumpLocation, t) ← valueOperand operand ⟨[], 0⟩
      return t.appendInstruction (make jumpLocation) : Except Failure Translation) = .ok t →
        WritesOnly [] t.instructionList) ↔ ¬ isMemoryOperand operand := by
  obtain ⟨value, hvalue⟩ := valueOperand_eq operand (t := ⟨[], 0⟩) (by decide)
  have hlast : WritesOnly [] [make value] := by
    rw [writesOnly_singleton, hmake]
    exact fun r hr => absurd hr List.not_mem_nil
  have hloads : WritesOnly [] (loads operand 0) ↔ ¬ isMemoryOperand operand := by
    rw [writesOnly_loads (by decide)]
    simp only [List.not_mem_nil, imp_false]
  rw [hvalue]
  constructor
  · intro h
    exact hloads.mp (writesOnly_append.mp (h _ rfl)).1
  · intro h t ht
    cases ht
    exact writesOnly_append.mpr ⟨hloads.mpr h, hlast⟩

theorem conditionalBranch_writesOnly_iff :
    (∀ t, conditionalBranch operand1 operand2 operand3 ⟨[], 0⟩ = .ok t →
      WritesOnly [] t.instructionList) ↔
        InstructionClass.conditionalBranch.Harmless operand1 operand2 operand3 := by
  match operand1, operand2, operand3 with
  | some operand1, some operand2, some operand3 =>
    rw [conditionalBranch, InstructionClass.Harmless]
    split
    · rename_i h
      rw [Bool.and_eq_true, Bool.and_eq_true] at h
      rw [jump_writesOnly_iff fun _ => rfl]
      tauto
    · rename_i h
      rw [Bool.and_eq_true, Bool.and_eq_true] at h
      exact ⟨fun _ => by tauto, fun _ t ht => by cases ht⟩
  | some operand1, some operand2, none =>
    rw [conditionalBranch, InstructionClass.Harmless]
    split
    · rename_i h
      rw [Bool.and_eq_true] at h
      rw [jump_writesOnly_iff fun _ => rfl]
      tauto
    · rename_i h
      rw [Bool.and_eq_true] at h
      exact ⟨fun _ => by tauto, fun _ t ht => by cases ht⟩
  | none, _, _ => exact ⟨fun _ => trivial, fun _ t ht => by cases ht⟩
  | some _, none, _ => exact ⟨fun _ => trivial, fun _ t ht => by cases ht⟩

theorem unconditionalJump_writesOnly_iff :
    (∀ t, unconditionalJump operand1 operand2 operand3 ⟨[], 0⟩ = .ok t →
      WritesOnly (InstructionClass.jumpAndLink.destinationOperands operand1 operand2)
        t.instructionList) ↔
        InstructionClass.jumpAndLink.Harmless operand1 operand2 operand3 := by
  match operand1, operand2, operand3 with
  | some operand1, none, none =>
    rw [unconditionalJump, InstructionClass.Harmless]
    split
    · exact jump_writesOnly_iff fun _ => rfl
    · rename_i h
      rw [Bool.or_eq_true] at h
      exact ⟨fun _ => by tauto, fun _ t ht => by cases ht⟩
  | none, _, _ => exact ⟨fun _ => trivial, fun _ t ht => by cases ht⟩
  | some _, some _, _ => exact ⟨fun _ => trivial, fun _ t ht => by cases ht⟩
  | some _, none, some _ => exact ⟨fun _ => trivial, fun _ t ht => by cases ht⟩

/-- The operands are loaded from left to right, and the result is written last. -/
theorem atomicInstructions_eq {operand2 operand3 : Operand} {d : ℕ}
    (h2 : isValue operand2 = true) (h3 : isValue operand3 = true) : ∃ value2 value3,
      atomicInstructions (some (integerRegister d)) (some operand2) (some operand3) ⟨[], 0⟩ =
        .ok ⟨allLoads 0 [operand2, operand3] ++ [getIntALUInstruction (some value2)
          (some value3) (some (integerRegister d))], taken operand3 (taken operand2 0)⟩ := by
  have htaken : taken operand2 0 < 8 := Nat.lt_of_le_of_lt taken_le (by decide)
  obtain ⟨value2, hok2⟩ := valueOperand_eq operand2 (t := ⟨[], 0⟩) (by decide)
  obtain ⟨value3, hok3⟩ := valueOperand_eq operand3
    (t := ⟨[] ++ loads operand2 0, taken operand2 0⟩) htaken
  refine ⟨value2, value3, ?_⟩
  rw [atomicInstructions, h2, h3]
  change (valueOperand operand2 ⟨[], 0⟩ >>= _) = _
  rw [hok2]
  change (valueOperand operand3 ⟨[] ++ loads operand2 0, taken operand2 0⟩ >>= _) = _
  rw [hok3, allLoads, allLoads, allLoads, List.append_nil]
  rfl

theorem atomicInstructions_accepts {operand1 operand2 operand3 : Operand} {t t' : Translation}
    (h : atomicInstructions (some operand1) (some operand2) (some operand3) t = .ok t') :
    ∃ d, operand1 = integerRegister d ∧ isValue operand2 = true ∧ isValue operand3 = true := by
  rw [atomicInstructions] at h
  split at h
  · rename_i hcond
    rw [Bool.and_eq_true, Bool.and_eq_true] at hcond
    match operand1, hcond.1.1 with
    | .base (.register .integer d), _ => exact ⟨d, rfl, hcond.1.2, hcond.2⟩
  · cases h

theorem atomicInstructions_writesOnly_iff :
    (∀ t, atomicInstructions operand1 operand2 operand3 ⟨[], 0⟩ = .ok t →
      WritesOnly (InstructionClass.atomicInstructions.destinationOperands operand1 operand2)
        t.instructionList) ↔
        InstructionClass.atomicInstructions.Harmless operand1 operand2 operand3 := by
  match operand1, operand2, operand3 with
  | some operand1, some operand2, some operand3 =>
    have hloads : ∀ d, WritesOnly [(.integer, d)] (allLoads 0 [operand2, operand3]) ↔
        LoadsInto d 0 [operand2, operand3] :=
      fun d => writesOnly_allLoads (show 0 + 2 ≤ 8 by decide)
    constructor
    · rintro h d rfl h2 h3
      obtain ⟨value2, value3, hok⟩ := atomicInstructions_eq (d := d) h2 h3
      exact (hloads d).mp (writesOnly_append.mp (h _ hok)).1
    · intro h t ht
      obtain ⟨d, rfl, h2, h3⟩ := atomicInstructions_accepts ht
      obtain ⟨value2, value3, hok⟩ := atomicInstructions_eq (d := d) h2 h3
      rw [hok] at ht
      cases ht
      exact writesOnly_append.mpr ⟨(hloads d).mpr (h d rfl h2 h3),
        writesOnly_singleton.mpr fun r hr _ => hr⟩
  | none, _, _ => exact ⟨fun _ => trivial, fun _ t ht => by cases ht⟩
  | some _, none, _ => exact ⟨fun _ => trivial, fun _ t ht => by cases ht⟩
  | some _, some _, none => exact ⟨fun _ => trivial, fun _ t ht => by cases ht⟩

/-- What a handler makes of the operands writes no other registers exactly when the operands
are harmless. -/
theorem handler_writesOnly_iff (c : InstructionClass) :
    (∀ t, c.handler operand1 operand2 operand3 ⟨[], 0⟩ = .ok t →
      WritesOnly (c.destinationOperands operand1 operand2) t.instructionList) ↔
        c.Harmless operand1 operand2 operand3 := by
  cases c with
  | conditionalBranch => exact conditionalBranch_writesOnly_iff
  | jumpAndLink => exact unconditionalJump_writesOnly_iff
  | atomicInstructions => exact atomicInstructions_writesOnly_iff

end Handlers

/-! ## The frame of an instruction -/

theorem translate_eq_ok {handler : Handler} {operand1Str operand2Str operand3Str : Option Text}
    {microOps : List Instruction} :
    translate handler operand1Str operand2Str operand3Str = .ok microOps ↔
      ∃ operand1 operand2 operand3 t, simplifyOperand operand1Str = .ok operand1 ∧
        simplifyOperand operand2Str = .ok operand2 ∧ simplifyOperand operand3Str = .ok operand3 ∧
        handler operand1 operand2 operand3 ⟨[], 0⟩ = .ok t ∧ t.instructionList = microOps := by
  constructor
  · intro h
    obtain ⟨operand1, h1, h⟩ := bind_eq_ok.mp h
    obtain ⟨operand2, h2, h⟩ := bind_eq_ok.mp h
    obtain ⟨operand3, h3, h⟩ := bind_eq_ok.mp h
    obtain ⟨t, ht, h⟩ := bind_eq_ok.mp h
    cases h
    exact ⟨operand1, operand2, operand3, t, h1, h2, h3, ht, rfl⟩
  · rintro ⟨operand1, operand2, operand3, t, h1, h2, h3, ht, rfl⟩
    rw [translate, h1, h2, h3]
    change (handler operand1 operand2 operand3 ⟨[], 0⟩ >>= _) = _
    rw [ht]
    rfl

/-- The classes share no operation. -/
theorem getInstructionClassHandler_eq (others : String → Option Handler) {c : InstructionClass}
    {operation : String} (h : operation ∈ c.operations) :
    getInstructionClassHandler others operation = some c.handler := by
  have htable : ∀ c ∈ InstructionClass.all, ∀ operation ∈ c.operations,
      InstructionClass.all.find? (fun c => operation ∈ c.operations) = some c := by
    decide +kernel
  have hall : c ∈ InstructionClass.all := by
    cases c <;> decide
  rw [getInstructionClassHandler, htable c hall operation h]

namespace InstructionText

variable {x : InstructionText}

theorem isDestination_iff {r : RegisterType × ℕ} {operand1 operand2 : Option Operand}
    (h1 : simplifyOperand x.operand1 = .ok operand1)
    (h2 : simplifyOperand x.operand2 = .ok operand2) :
    x.IsDestination r ↔ r ∈ x.instructionClass.destinationOperands operand1 operand2 := by
  constructor
  · rintro ⟨operand1', operand2', h1', h2', hr⟩
    rw [h1] at h1'
    rw [h2] at h2'
    cases h1'
    cases h2'
    exact hr
  · exact fun hr => ⟨operand1, operand2, h1, h2, hr⟩

/-- What is appended for the text is what its handler makes of the operands. -/
theorem framed_iff : x.Framed ↔ ∀ microOps,
    translate x.instructionClass.handler x.operand1 x.operand2 x.operand3 = .ok microOps →
      ∀ op ∈ microOps, ∀ r ∈ op.destinations, Nameable r → x.IsDestination r := by
  constructor
  · intro h microOps htranslate op hop
    refine h (fun _ => none) 0 [] (microOps.map (TranslatedMicroOp.mk 0)) ?_ ⟨0, op⟩
      (List.mem_map_of_mem hop)
    rw [riscifyInstruction, getInstructionClassHandler_eq _ x.mem]
    simp only [htranslate]
  · intro h others ProgramCounter instructionList appended hriscify op hop
    rw [riscifyInstruction, getInstructionClassHandler_eq _ x.mem] at hriscify
    simp only at hriscify
    split at hriscify
    · rename_i microOps htranslate
      have hlist := List.append_cancel_left (Option.some.inj hriscify)
      rw [← hlist] at hop
      obtain ⟨instruction, hmem, rfl⟩ := List.mem_map.mp hop
      exact h microOps htranslate instruction hmem
    · have hlist := (List.self_eq_append_right.mp (Option.some.inj hriscify))
      rw [hlist] at hop
      cases hop
    · cases hriscify

theorem framed_iff_harmless : x.Framed ↔ x.Harmless := by
  rw [framed_iff]
  constructor
  · intro h operand1 operand2 operand3 h1 h2 h3
    rw [← handler_writesOnly_iff]
    intro t ht op hop r hr hname
    refine (isDestination_iff h1 h2).mp (h _ (translate_eq_ok.mpr ?_) op hop r hr hname)
    exact ⟨operand1, operand2, operand3, t, h1, h2, h3, ht, rfl⟩
  · intro h microOps htranslate op hop r hr hname
    obtain ⟨operand1, operand2, operand3, t, h1, h2, h3, ht, rfl⟩ := translate_eq_ok.mp htranslate
    rw [isDestination_iff h1 h2]
    exact (handler_writesOnly_iff _).mpr (h _ _ _ h1 h2 h3) t ht op hop r hr hname

/-- The text of an atomic instruction with an operand in memory. -/
def amoadd : InstructionText :=
  ⟨.atomicInstructions, "amoadd.w", by decide, some "a0".toList, some "a1".toList,
    some "(a2)".toList⟩

end InstructionText

/-- An instruction writes only its destinations exactly when its loads are harmless, and
every temporary that is handed out has a name in the program. -/
theorem writes_destinations_iff (x : InstructionText) (register : BaseOperand) :
    (x.Framed ↔ x.Harmless) ∧ ¬ (HandedOut register ∧ Private register) := by
  refine ⟨InstructionText.framed_iff_harmless, ?_⟩
  rintro ⟨hout, hprivate⟩
  obtain ⟨type, value, rfl, s, hs⟩ := nameable_of_handedOut hout
  exact hprivate s hs

/-- `amoadd.w a0, a1, (a2)` loads the operand into `t0`, which is none of its operands. -/
theorem amoadd_writes_t0 : ¬ ((∀ x : InstructionText, x.Framed) ∧
    ∀ register, HandedOut register → Private register) := by
  rintro ⟨hframed, -⟩
  have hload := hframed InstructionText.amoadd (fun _ => none) 0 []
    [⟨0, getLoadInstruction (.memory (some (.register .integer 10)) none) (integerRegister 29)⟩,
      ⟨0, getIntALUInstruction (some (integerRegister 9)) (some (integerRegister 29))
        (some (integerRegister 8))⟩] (by decide +kernel) _ List.mem_cons_self (.integer, 29)
    List.mem_cons_self ⟨"t0".toList, by decide +kernel⟩
  have h1 : simplifyOperand InstructionText.amoadd.operand1 =
      .ok (some (integerRegister 8)) := by decide +kernel
  have h2 : simplifyOperand InstructionText.amoadd.operand2 =
      .ok (some (integerRegister 9)) := by decide +kernel
  rw [InstructionText.isDestination_iff h1 h2] at hload
  exact absurd hload (by decide)

end RiscV

end Tejas
