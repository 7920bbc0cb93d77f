import Tejas.X86Meaning

/-!
# The handlers and their meaning

Each handler appends micro-operations that do to the machine what the class of the
instruction says.
-/

namespace Tejas

namespace X86

open Registers OperandTranslator

section Handlers

variable {V : Type} [DecidableEq V] {I : Interpretation V} {s s₁ : MicroMachine V}
  {t t₁ t' : Translation} {o1 o2 o3 : Option Operand} {operand value : Operand}
  {result : Machine V} {i : Instruction}

/-- The micro-operations behind those of `t` have this result. -/
def Runs (I : Interpretation V) (s : MicroMachine V) (t t' : Translation) (result : Machine V) :
    Prop :=
  ∃ microOps, t'.instructionList = t.instructionList ++ microOps ∧
    (s.run I microOps).machine = result

/-- The handler performs the effect for operands that it may be given. -/
def Performs (I : Interpretation V) (handler : Handler) (effect : Effect V)
    (o1 o2 o3 : Option Operand) : Prop :=
  ∀ (s : MicroMachine V) (t t' : Translation), Ready t.numTempIntRegister o1 o2 o3 →
    handler o1 o2 o3 t = .ok t' →
      Runs I s t t'
        (effect (o1.map (s.place I)) (o2.map (s.place I)) (o3.map (s.place I)) s.machine)

theorem runs_single (h : (s.step I i).machine = result) :
    Runs I s t (t.appendInstruction i) result :=
  ⟨[i], rfl, h⟩

theorem Runs.append (microOps : List Instruction) (h : Runs I (s.run I microOps) t₁ t' result)
    (hlist : t₁.instructionList = t.instructionList ++ microOps) : Runs I s t t' result := by
  obtain ⟨rest, hrest, hresult⟩ := h
  refine ⟨microOps ++ rest, ?_, ?_⟩
  · rw [hrest, hlist, List.append_assoc]
  · rw [MicroMachine.run_append]
    exact hresult

/-- A value is loaded and used. -/
theorem runs_load (hvalue : valueOperand operand t = .ok (value, t₁))
    (h : ∀ s₁ : MicroMachine V, s₁.machine = s.machine → s₁.value I value = s.value I operand →
      Runs I s₁ t₁ t' result) : Runs I s t t' result := by
  obtain ⟨loads, hloads⟩ := valueOperand_spec hvalue
  obtain ⟨hmachine, hloaded, -⟩ := hloads.run (s := s) (I := I)
  exact Runs.append loads (h _ hmachine hloaded) hloads.list_eq

/-! ## Registers of the machine -/

theorem write_integerRegister {number : ℕ} {v : V} (h : number < 29) :
    s.write (integerPlace number) v =
      { s with machine := s.machine.write (integerPlace number) v } :=
  MicroMachine.write_visible (place_visible (I := ⟨fun _ => v, fun _ _ _ => v⟩) (s := s)
    (ofMachine_integerRegister h))

theorem machine_write_ofMachine {v : V} (h : OfMachine operand) :
    (s.write (s.place I operand) v).machine = s.machine.write (s.place I operand) v := by
  rw [MicroMachine.write_visible (place_visible h)]

/-- The value of one operand goes to the place of another. -/
theorem machine_write_value (hoperand : OfMachine operand) (hvalue : OfMachine value) :
    (s.write (s.place I operand) (s.value I value)).machine =
      s.machine.write (s.place I operand) (s.machine.read (s.place I value)) := by
  rw [machine_write_ofMachine hoperand, value_ofMachine hvalue]

/-! ## Moves -/

theorem move_performs : Performs I move (IntegerClass.effect I .move) o1 o2 o3 := by
  intro s t t' hready h
  rw [move.eq_def] at h
  split at h
  case h_2 => cases h
  case h_1 operand1 operand2 =>
    have hwrite := machine_write_value (s := s) (I := I) (hready.ofMachine1 operand1 rfl)
      (hready.ofMachine2 operand2 rfl)
    split at h
    case isTrue =>
      cases h
      exact runs_single hwrite
    case isFalse =>
      split at h
      case isTrue =>
        cases h
        exact runs_single hwrite
      case isFalse =>
        split at h
        case isTrue =>
          cases h
          exact runs_single hwrite
        case isFalse => cases h

/-- Into a register a conditional move is a move. -/
theorem conditionalMove_performs (hregister : ∀ operand ∈ o1, isMemoryOperand operand = false) :
    Performs I conditionalMove (IntegerClass.effect I .conditionalMove) o1 o2 o3 := by
  intro s t t' hready h
  rw [conditionalMove.eq_def] at h
  split at h
  case h_2 => cases h
  case h_1 operand1 operand2 =>
    have hwrite := machine_write_value (s := s) (I := I) (hready.ofMachine1 operand1 rfl)
      (hready.ofMachine2 operand2 rfl)
    split at h
    case isTrue =>
      cases h
      exact runs_single hwrite
    case isFalse =>
      split at h
      case isTrue =>
        cases h
        exact runs_single hwrite
      case isFalse =>
        rw [hregister operand1 rfl] at h
        cases h

theorem conditionalSet_performs :
    Performs I conditionalSet (IntegerClass.effect I .conditionalSet) o1 o2 o3 := by
  intro s t t' hready h
  rw [conditionalSet.eq_def] at h
  split at h
  case h_2 => cases h
  case h_1 operand1 =>
    have hwrite : (s.write (s.place I operand1) (s.value I immediate)).machine =
        s.machine.write (s.place I operand1) (I.constant .immediate) :=
      machine_write_ofMachine (hready.ofMachine1 operand1 rfl)
    split at h
    case isTrue =>
      cases h
      exact runs_single hwrite
    case isFalse =>
      split at h
      case isTrue =>
        cases h
        exact runs_single hwrite
      case isFalse => cases h

/-- The address that a load would use is computed. -/
theorem loadEffectiveAddress_performs :
    Performs I loadEffectiveAddress (IntegerClass.effect I .loadEffectiveAddress) o1 o2 o3 := by
  intro s t t' hready h
  rw [loadEffectiveAddress.eq_def] at h
  split at h
  case h_2 => cases h
  case h_1 register first second =>
    have hwrite : ∀ v : V, (s.write (integerPlace register) v).machine =
        s.machine.write (integerPlace register) v :=
      fun v => machine_write_ofMachine (I := I) (hready.ofMachine1 _ rfl)
    have hparts : ∀ part : Option BaseOperand, (part.map Operand.base).map (s.value I) =
        part.map (s.baseValue I) := by
      intro part
      cases part <;> rfl
    split at h
    case h_1 first =>
      cases h
      exact runs_single (hwrite _)
    case h_2 hother =>
      cases h
      refine runs_single ((hwrite _).trans ?_)
      change s.machine.write (integerPlace register) (I.compute .integerALU
        ((first.map Operand.base).map (s.value I)) ((second.map Operand.base).map (s.value I))) = _
      rw [hparts, hparts]
      refine congrArg (s.machine.write (integerPlace register)) ?_
      cases first with
      | none => cases second <;> rfl
      | some first =>
        cases second with
        | none => exact absurd rfl (hother first rfl)
        | some second => rfl

theorem getTempIntReg_performs {register : BaseOperand} (h : getTempIntReg t = .ok (register, t₁)) :
    register = .register .integer (29 + t.numTempIntRegister) ∧
      t₁.instructionList = t.instructionList ∧
        t₁.numTempIntRegister = t.numTempIntRegister + 1 := by
  obtain ⟨-, rfl, rfl⟩ := getTempIntReg_spec h
  exact ⟨rfl, rfl, rfl⟩

/-- A load into a new temporary. -/
theorem step_load_temporary {number : ℕ} (h : 29 ≤ number) :
    s.step I (getLoadInstruction operand (integerRegister number)) =
      s.setTemporary number (s.value I operand) :=
  MicroMachine.write_temporary h

/-- A value goes through a new temporary from one location to another. -/
theorem runs_copy {source destination : Operand} {register : BaseOperand}
    (htemp : getTempIntReg t = .ok (register, t₁)) (hsource : OfMachine source)
    (hdestination : isMemoryOperand destination = true)
    (hb : Bounded t.numTempIntRegister destination) :
    Runs I s t ((t₁.appendInstruction (getLoadInstruction source (.base register))).appendInstruction
      (getStoreInstruction destination (.base register)))
      (s.machine.write (s.place I destination) (s.machine.read (s.place I source))) := by
  obtain ⟨rfl, hlist, -⟩ := getTempIntReg_performs htemp
  have hle : 29 ≤ 29 + t.numTempIntRegister := Nat.le_add_right _ _
  refine ⟨[getLoadInstruction source (integerRegister (29 + t.numTempIntRegister)),
    getStoreInstruction destination (integerRegister (29 + t.numTempIntRegister))], ?_, ?_⟩
  · change t₁.instructionList ++ [_] ++ [_] = _
    rw [hlist, List.append_assoc]
    rfl
  · rw [MicroMachine.run_cons, step_load_temporary hle]
    have hofMachine : OfMachine destination := by
      cases destination with
      | base => cases hdestination
      | memory => trivial
    refine (machine_write_ofMachine hofMachine).trans ?_
    rw [place_setTemporary hb.not_mem, value_setTemporary hle, value_ofMachine hsource]
    rfl

theorem stringMove_performs :
    Performs I stringMove (IntegerClass.effect I .stringMove) o1 o2 o3 := by
  intro s t t' hready h
  rw [stringMove.eq_def] at h
  split at h
  case h_1 =>
    obtain ⟨⟨register, t₁⟩, htemp, h⟩ := bind_eq_ok.mp h
    cases h
    have hb : Bounded t.numTempIntRegister destinationIndexLocation := by
      intro value hmem
      have hvalue : value = 13 := congrArg Prod.snd (List.mem_singleton.mp hmem)
      omega
    have hregister : ∀ number, number < 29 →
        s.place I (.memory (some (.register .integer number)) none) =
          .cell (s.machine.read (integerPlace number)) :=
      fun number hlt => congrArg Place.cell (value_integerRegister (I := I) hlt)
    have hcopy := runs_copy (s := s) (I := I) htemp
      (show OfMachine sourceIndexLocation from trivial) rfl hb
    rw [destinationIndexLocation, sourceIndexLocation, hregister 13 (by decide),
      hregister 12 (by decide)] at hcopy
    exact hcopy
  case h_2 operand1 operand2 =>
    split at h
    case isFalse => cases h
    case isTrue hmemory =>
      obtain ⟨⟨register, t₁⟩, htemp, h⟩ := bind_eq_ok.mp h
      cases h
      exact runs_copy htemp (hready.ofMachine2 operand2 rfl) ((Bool.and_eq_true _ _).mp hmemory).1
        (hready.bounded1 operand1 rfl)
  case h_3 => cases h

/-! ## Arithmetic -/

/-- The result is written into the register of the value, and goes back to memory from
there. -/
theorem run_storeOf {v : V} (hof : OfMachine operand) (hplain : NoTemporary operand)
    (hkind : isMemoryOperand operand = false ∧ value = operand ∨
      isMemoryOperand operand = true ∧ ∃ number, 29 ≤ number ∧ value = integerRegister number) :
    ((s.write (s.place I value) v).run I (storeOf operand value)).machine =
      s.machine.write (s.place I operand) v := by
  obtain ⟨hno, rfl⟩ | ⟨hmemory, number, hle, rfl⟩ := hkind
  · rw [storeOf, if_neg (Bool.eq_false_iff.mp hno)]
    exact machine_write_ofMachine hof
  · have hwrite : s.write (s.place I (integerRegister number)) v = s.setTemporary number v :=
      MicroMachine.write_temporary hle
    have hnot : (RegisterType.integer, number) ∉ operand.registers :=
      fun hmem => absurd (hplain number hmem) (Nat.not_lt.mpr hle)
    rw [storeOf, if_pos hmemory, hwrite]
    refine (machine_write_ofMachine hof).trans ?_
    rw [place_setTemporary hnot, value_setTemporary hle]
    rfl

theorem integerALUImplicitDestination_performs (hplain : ∀ operand ∈ o1, NoTemporary operand) :
    Performs I integerALUImplicitDestination
      (InstructionClass.effect I .integerALUImplicitDestination) o1 o2 o3 := by
  intro s t t' hready h
  rw [integerALUImplicitDestination.eq_def] at h
  split at h
  case h_2 => cases h
  case h_1 operand1 operand2 =>
    split at h
    case isFalse => cases h
    case isTrue =>
      obtain ⟨⟨value1, t₁⟩, hvalue1, h⟩ := bind_eq_ok.mp h
      obtain ⟨⟨value2, t₂⟩, hvalue2, h⟩ := bind_eq_ok.mp h
      cases h
      obtain ⟨loads1, hloads1⟩ := valueOperand_spec hvalue1
      obtain ⟨loads2, hloads2⟩ := valueOperand_spec hvalue2
      have hof1 := hready.ofMachine1 operand1 rfl
      have hplain1 := hplain operand1 rfl
      obtain ⟨hmachine, h1, h2⟩ := hloads1.run_pair (s := s) (I := I) hloads2
        (hready.bounded1 operand1 rfl) (hready.bounded2 operand2 rfl)
        (hready.separate operand1 rfl operand2 rfl)
      refine ⟨loads1 ++ loads2 ++
        (getIntALUInstruction (some value2) (some value1) (some value1) ::
          storeOf operand1 value1), ?_, ?_⟩
      · rw [storeValue_list]
        change t₂.instructionList ++ [_] ++ _ = _
        rw [hloads2.list_eq, hloads1.list_eq]
        simp only [List.append_assoc, List.singleton_append]
      · rw [MicroMachine.run_append, MicroMachine.run_cons]
        refine (run_storeOf hof1 hplain1 hloads1.kind).trans ?_
        rw [place_of_noTemporary hplain1 hmachine, hmachine]
        change s.machine.write (s.place I operand1) (I.compute .integerALU
          (some ((s.run I (loads1 ++ loads2)).value I value2))
            (some ((s.run I (loads1 ++ loads2)).value I value1))) = _
        rw [h1, h2, value_ofMachine hof1, value_ofMachine (hready.ofMachine2 operand2 rfl)]
        rfl

theorem singleOperandIntALU_performs (hplain : ∀ operand ∈ o1, NoTemporary operand) :
    Performs I singleOperandIntALU (InstructionClass.effect I .singleOperandIntegerALU)
      o1 o2 o3 := by
  intro s t t' hready h
  rw [singleOperandIntALU.eq_def] at h
  split at h
  case h_2 => cases h
  case h_1 operand1 =>
    split at h
    case isFalse => cases h
    case isTrue =>
      obtain ⟨⟨value1, t₁⟩, hvalue1, h⟩ := bind_eq_ok.mp h
      cases h
      obtain ⟨loads, hloads⟩ := valueOperand_spec hvalue1
      have hof1 := hready.ofMachine1 operand1 rfl
      have hplain1 := hplain operand1 rfl
      refine runs_load hvalue1 ?_
      intro s₁ hmachine hloaded
      refine ⟨getIntALUInstruction none (some value1) (some value1) :: storeOf operand1 value1,
        ?_, ?_⟩
      · rw [storeValue_list]
        change t₁.instructionList ++ [_] ++ _ = _
        rw [List.append_assoc, List.singleton_append]
      · rw [MicroMachine.run_cons]
        refine (run_storeOf hof1 hplain1 hloads.kind).trans ?_
        rw [place_of_noTemporary hplain1 hmachine, hmachine]
        change s.machine.write (s.place I operand1)
          (I.compute .integerALU none (some (s₁.value I value1))) = _
        rw [hloaded, value_ofMachine hof1]
        rfl

/-- The register for a location is a temporary, of the location itself or a new one. -/
theorem location_temporary {register : BaseOperand} (hmemory : isMemoryOperand operand = true)
    (h : getLocationToStoreValue operand t = .ok (register, t₁)) :
    ∃ number, 29 ≤ number ∧ register = .register .integer number ∧
      t₁.instructionList = t.instructionList := by
  cases operand with
  | base => cases hmemory
  | memory first second =>
    rw [getLocationToStoreValue.eq_def] at h
    simp only at h
    split at h
    case h_1 register' htemp =>
      cases h
      have hof : temporaryOf (.memory first second) = some register := htemp
      obtain ⟨number, rfl, htemporary, -⟩ := temporaryOf_spec hof
      exact ⟨number, temporary_ge htemporary, rfl, rfl⟩
    case h_2 =>
      obtain ⟨hregister, hlist, -⟩ := getTempIntReg_performs h
      exact ⟨_, Nat.le_add_right _ _, hregister, hlist⟩

theorem shiftOperationThreeOperand_performs (hplain : ∀ operand ∈ o1, NoTemporary operand) :
    Performs I shiftOperationThreeOperand
      (IntegerClass.effect I .shiftOperationThreeOperands) o1 o2 o3 := by
  intro s t t' hready h
  rw [shiftOperationThreeOperand.eq_def] at h
  split at h
  case h_2 => cases h
  case h_1 operand1 operand2 operand3 =>
    have hof1 := hready.ofMachine1 operand1 rfl
    have hplain1 := hplain operand1 rfl
    have hvalue2 := value_ofMachine (s := s) (I := I) (hready.ofMachine2 operand2 rfl)
    have hvalue3 := value_ofMachine (s := s) (I := I) (hready.ofMachine3 operand3 rfl)
    split at h
    case isFalse => cases h
    case isTrue =>
      split at h
      case isTrue hmemory =>
        obtain ⟨⟨register, t₁⟩, hlocation, h⟩ := bind_eq_ok.mp h
        cases h
        obtain ⟨number, hle, rfl, hlist⟩ := location_temporary hmemory hlocation
        refine ⟨[getIntALUInstruction (some operand2) (some operand3)
          (some (integerRegister number)), getStoreInstruction operand1 (integerRegister number)],
          ?_, ?_⟩
        · change t₁.instructionList ++ [_] ++ [_] = _
          rw [hlist, List.append_assoc]
          rfl
        · have hstore := run_storeOf (s := s) (I := I) (v := I.compute .integerALU
            (some (s.value I operand2)) (some (s.value I operand3))) hof1 hplain1
              (Or.inr ⟨hmemory, number, hle, rfl⟩)
          rw [storeOf, if_pos hmemory, hvalue2, hvalue3] at hstore
          rw [MicroMachine.run_cons]
          change ((s.write (s.place I (integerRegister number)) (I.compute .integerALU
            (some (s.value I operand2)) (some (s.value I operand3)))).run I _).machine = _
          rw [hvalue2, hvalue3]
          exact hstore
      case isFalse =>
        cases h
        refine runs_single ((machine_write_ofMachine hof1).trans ?_)
        change s.machine.write (s.place I operand1) (I.compute .integerALU
          (some (s.value I operand2)) (some (s.value I operand3))) = _
        rw [hvalue2, hvalue3]
        rfl

theorem integerALUExplicitDestination_performs :
    Performs I integerALUExplicitDestination
      (IntegerClass.effect I .integerALUNoImplicitDestination) o1 o2 o3 := by
  intro s t t' hready h
  rw [integerALUExplicitDestination.eq_def] at h
  split at h
  case h_2 => cases h
  case h_1 operand1 operand2 =>
    split at h
    case isFalse => cases h
    case isTrue =>
      obtain ⟨⟨value1, t₁⟩, hvalue1, h⟩ := bind_eq_ok.mp h
      obtain ⟨⟨value2, t₂⟩, hvalue2, h⟩ := bind_eq_ok.mp h
      cases h
      obtain ⟨loads1, hloads1⟩ := valueOperand_spec hvalue1
      obtain ⟨loads2, hloads2⟩ := valueOperand_spec hvalue2
      obtain ⟨hmachine, h1, h2⟩ := hloads1.run_pair (s := s) (I := I) hloads2
        (hready.bounded1 operand1 rfl) (hready.bounded2 operand2 rfl)
        (hready.separate operand1 rfl operand2 rfl)
      refine Runs.append (loads1 ++ loads2) (runs_single ?_) ?_
      · change (s.run I (loads1 ++ loads2)).machine.event .integerALU (I.compute .integerALU
          (some ((s.run I (loads1 ++ loads2)).value I value2))
            (some ((s.run I (loads1 ++ loads2)).value I value1))) = _
        rw [hmachine, h1, h2, value_ofMachine (hready.ofMachine1 operand1 rfl),
          value_ofMachine (hready.ofMachine2 operand2 rfl)]
        rfl
      · rw [hloads2.list_eq, hloads1.list_eq, List.append_assoc]

theorem singleOperandIntALUImplicitAccumulator_performs :
    Performs I singleOperandIntALUImplicitAccumulator
      (IntegerClass.effect I .singleOperandIntegerALUImplicitAccumulator) o1 o2 o3 := by
  intro s t t' hready h
  have haccumulator := value_integerRegister (s := s) (I := I) (by decide : 0 < 29)
  have hwrite : ∀ v : V, (s.write (integerPlace 0) v).machine =
      s.machine.write (integerPlace 0) v :=
    fun v => machine_write_ofMachine (I := I) (ofMachine_integerRegister (by decide : 0 < 29))
  rw [singleOperandIntALUImplicitAccumulator.eq_def] at h
  split at h
  case h_1 =>
    cases h
    refine runs_single ((hwrite _).trans ?_)
    change s.machine.write (integerPlace 0)
      (I.compute .integerALU none (some (s.value I (integerRegister 0)))) = _
    rw [haccumulator]
    rfl
  case h_2 operand1 =>
    split at h
    case isFalse => cases h
    case isTrue =>
      cases h
      refine runs_single ((hwrite _).trans ?_)
      change s.machine.write (integerPlace 0) (I.compute .integerALU
        (some (s.value I operand1)) (some (s.value I (integerRegister 0)))) = _
      rw [haccumulator, value_ofMachine (hready.ofMachine1 operand1 rfl)]
      rfl
  case h_3 => cases h

/-- An operation on a loaded value and the accumulator goes to the accumulator. -/
theorem integerDivision_performs :
    Performs I integerDivision (IntegerClass.effect I .integerDivision) o1 o2 o3 := by
  intro s t t' hready h
  rw [integerDivision.eq_def] at h
  split at h
  case h_2 => cases h
  case h_1 operand1 =>
    split at h
    case isFalse => cases h
    case isTrue =>
      obtain ⟨⟨dividend, t₁⟩, hvalue, h⟩ := bind_eq_ok.mp h
      cases h
      refine runs_load hvalue ?_
      intro s₁ hmachine hloaded
      have hof : OfMachine accumulatorRegister := ofMachine_integerRegister (by decide)
      refine runs_single ((machine_write_ofMachine (I := I) hof).trans ?_)
      change s₁.machine.write (integerPlace 0) (I.compute .integerDiv
        (some (s₁.value I dividend)) (some (s₁.value I (integerRegister 0)))) = _
      rw [hloaded, value_ofMachine (hready.ofMachine1 operand1 rfl),
        value_integerRegister (by decide), hmachine]
      rfl

theorem integerMultiplication_performs :
    Performs I integerMultiplication (InstructionClass.effect I .integerMultiplication)
      o1 o2 o3 := by
  intro s t t' hready h
  have hwrite : ∀ {s₁ : MicroMachine V} {destination source1 source2 : Operand},
      s₁.machine = s.machine → isMemoryOperand destination = false → OfMachine destination →
        (s₁.step I (getIntegerMultiplicationInstruction source1 source2 destination)).machine =
          s.machine.write (s.place I destination)
            (I.compute .integerMul (some (s₁.value I source1)) (some (s₁.value I source2))) := by
    intro s₁ destination source1 source2 hmachine hbase hof
    cases destination with
    | memory => cases hbase
    | base operand =>
      rw [← hmachine]
      exact machine_write_ofMachine (I := I) (s := s₁) hof
  rw [integerMultiplication.eq_def] at h
  split at h
  case h_1 operand1 =>
    split at h
    case isFalse => cases h
    case isTrue =>
      obtain ⟨⟨multiplier, t₁⟩, hvalue, h⟩ := bind_eq_ok.mp h
      cases h
      refine runs_load hvalue ?_
      intro s₁ hmachine hloaded
      have hof : OfMachine accumulatorRegister := ofMachine_integerRegister (by decide)
      refine runs_single ((hwrite hmachine rfl hof).trans ?_)
      rw [hloaded, value_ofMachine (hready.ofMachine1 operand1 rfl), value_ofMachine hof, hmachine]
      rfl
  case h_2 operand1 operand2 =>
    split at h
    case isFalse => cases h
    case isTrue hoperands =>
      obtain ⟨⟨multiplier, t₁⟩, hvalue, h⟩ := bind_eq_ok.mp h
      cases h
      refine runs_load hvalue ?_
      intro s₁ hmachine hloaded
      have hof := hready.ofMachine1 operand1 rfl
      have hbase := not_memory_of_integerRegister ((Bool.and_eq_true _ _).mp hoperands).1
      refine runs_single ((hwrite hmachine hbase hof).trans ?_)
      rw [hloaded, value_ofMachine (hready.ofMachine2 operand2 rfl), value_ofMachine hof, hmachine,
        place_base (s := s) s₁ hbase]
      rfl
  case h_3 operand1 operand2 operand3 =>
    split at h
    case isFalse => cases h
    case isTrue hoperands =>
      obtain ⟨⟨multiplicand, t₁⟩, hvalue, h⟩ := bind_eq_ok.mp h
      cases h
      refine runs_load hvalue ?_
      intro s₁ hmachine hloaded
      obtain ⟨hoperands, himmediate⟩ := (Bool.and_eq_true _ _).mp hoperands
      have hof3 := hready.ofMachine3 operand3 rfl
      have hbase := not_memory_of_integerRegister ((Bool.and_eq_true _ _).mp hoperands).1
      have hbase3 := not_memory_of_immediate himmediate
      refine runs_single ((hwrite hmachine hbase (hready.ofMachine1 operand1 rfl)).trans ?_)
      rw [hloaded, value_ofMachine (hready.ofMachine2 operand2 rfl), value_ofMachine hof3, hmachine,
        place_base (s := s) s₁ hbase3]
      rfl
  case h_4 => cases h

/-- Two values are loaded into new temporaries. -/
theorem runs_load_two {source destination : Operand} {register register' : BaseOperand}
    {t₂ : Translation} (htemp : getTempIntReg t = .ok (register, t₁))
    (htemp' : getTempIntReg (t₁.appendInstruction (getLoadInstruction source (.base register))) =
      .ok (register', t₂))
    (hb : Bounded t.numTempIntRegister destination)
    (h : ∀ s₂ : MicroMachine V, s₂.machine = s.machine →
      s₂.value I (.base register) = s.value I source →
      s₂.value I (.base register') = s.value I destination →
        Runs I s₂ (t₂.appendInstruction (getLoadInstruction destination (.base register'))) t'
          result) : Runs I s t t' result := by
  obtain ⟨rfl, hlist, hnumber⟩ := getTempIntReg_performs htemp
  obtain ⟨rfl, hlist', -⟩ := getTempIntReg_performs htemp'
  have hle : 29 ≤ 29 + t.numTempIntRegister := Nat.le_add_right _ _
  have hle' : 29 ≤ 29 + t₁.numTempIntRegister := Nat.le_add_right _ _
  refine Runs.append [getLoadInstruction source (integerRegister (29 + t.numTempIntRegister)),
    getLoadInstruction destination (integerRegister (29 + t₁.numTempIntRegister))] (h _ ?_ ?_ ?_) ?_
  · rw [MicroMachine.run_cons, MicroMachine.run_cons, step_load_temporary hle,
      step_load_temporary hle']
    rfl
  · rw [MicroMachine.run_cons, MicroMachine.run_cons, step_load_temporary hle,
      step_load_temporary hle']
    refine (MicroMachine.read_temporary hle).trans ?_
    have hne : 29 + t.numTempIntRegister ≠ 29 + t₁.numTempIntRegister := by omega
    exact (Function.update_of_ne hne _ _).trans (Function.update_self _ _ _)
  · rw [MicroMachine.run_cons, MicroMachine.run_cons, step_load_temporary hle,
      step_load_temporary hle']
    refine (value_setTemporary hle').trans ?_
    refine MicroMachine.value_congr rfl ?_
    intro r hr
    refine MicroMachine.read_register_congr (MicroMachine.machine_setTemporary _ _) ?_
    intro htemporary
    refine Function.update_of_ne ?_ _ _
    intro heq
    obtain ⟨type, number⟩ := r
    obtain ⟨rfl, -⟩ : type = .integer ∧ 29 ≤ number := htemporary
    exact hb.not_mem (heq ▸ hr)
  · change t₂.instructionList ++ [_] = _
    rw [hlist']
    change t₁.instructionList ++ [_] ++ [_] = _
    rw [hlist, List.append_assoc]
    rfl

theorem stringCompare_performs :
    Performs I stringCompare (IntegerClass.effect I .stringCompare) o1 o2 o3 := by
  intro s t t' hready h
  rw [stringCompare.eq_def] at h
  split at h
  case h_1 =>
    obtain ⟨⟨register, t₁⟩, htemp, h⟩ := bind_eq_ok.mp h
    obtain ⟨⟨register', t₂⟩, htemp', h⟩ := bind_eq_ok.mp h
    have hb : Bounded t.numTempIntRegister destinationIndexLocation := by
      intro value hmem
      have hvalue : value = 13 := congrArg Prod.snd (List.mem_singleton.mp hmem)
      omega
    obtain ⟨rfl, -, -⟩ := getTempIntReg_performs htemp
    obtain ⟨rfl, -, -⟩ := getTempIntReg_performs htemp'
    cases h
    refine runs_load_two htemp htemp' hb ?_
    intro s₂ hmachine hsource hdestination
    refine runs_single ?_
    change s₂.machine.event .integerALU (I.compute .integerALU
      (some (s₂.value I (.base (.register .integer _))))
        (some (s₂.value I (.base (.register .integer _))))) = _
    rw [hsource, hdestination, hmachine,
      value_ofMachine (show OfMachine destinationIndexLocation from trivial),
      value_ofMachine (show OfMachine sourceIndexLocation from trivial)]
    have hregister : ∀ number, number < 29 →
        s.place I (.memory (some (.register .integer number)) none) =
          .cell (s.machine.read (integerPlace number)) :=
      fun number hlt => congrArg Place.cell (value_integerRegister (I := I) hlt)
    rw [destinationIndexLocation, sourceIndexLocation, hregister 13 (by decide),
      hregister 12 (by decide)]
    rfl
  case h_2 operand1 operand2 =>
    split at h
    case isFalse => cases h
    case isTrue =>
      obtain ⟨⟨register, t₁⟩, htemp, h⟩ := bind_eq_ok.mp h
      obtain ⟨⟨register', t₂⟩, htemp', h⟩ := bind_eq_ok.mp h
      cases h
      refine runs_load_two htemp htemp' (hready.bounded1 operand1 rfl) ?_
      intro s₂ hmachine _ _
      obtain ⟨rfl, -, -⟩ := getTempIntReg_performs htemp'
      refine runs_single ?_
      refine (congrArg MicroMachine.machine
        (MicroMachine.write_temporary (Nat.le_add_right _ _))).trans ?_
      exact hmachine
  case h_3 => cases h

end Handlers

end X86

end Tejas
