import Tejas.X86HandlerMeaning

/-!
# Control, stack and exchange

The handlers of jumps, calls and returns, of the stack, and of exchanges, which are made of
other handlers.
-/

namespace Tejas

namespace X86

open Registers OperandTranslator

section Handlers

variable {V : Type} [DecidableEq V] {I : Interpretation V} {s s₁ : MicroMachine V}
  {t t₁ t' : Translation} {o1 o2 o3 : Option Operand} {operand value : Operand}
  {result : Machine V} {i : Instruction}

/-! ## Jumps -/

/-- The target of a jump is loaded, and the event has its value. -/
theorem runs_jump {jump : Operand → Instruction} {type : OperationType}
    (hjump : ∀ (s : MicroMachine V) (target : Operand), (s.step I (jump target)).machine =
      s.machine.event type (I.compute type (some (s.value I target)) none))
    (hof : OfMachine operand) (hvalue : valueOperand operand t = .ok (value, t₁)) :
    Runs I s t (t₁.appendInstruction (jump value)) (s.machine.event type
      (I.compute type (some (s.machine.read (s.place I operand))) none)) := by
  refine runs_load hvalue ?_
  intro s₁ hmachine hloaded
  refine runs_single ?_
  rw [hjump, hmachine, hloaded, value_ofMachine hof]

theorem conditionalJump_performs :
    Performs I conditionalJump (IntegerClass.effect I .conditionalJump) o1 o2 o3 := by
  intro s t t' hready h
  rw [conditionalJump.eq_def] at h
  split at h
  case h_2 => cases h
  case h_1 operand1 =>
    split at h
    case isFalse => cases h
    case isTrue =>
      obtain ⟨⟨jumpLocation, t₁⟩, hvalue, h⟩ := bind_eq_ok.mp h
      cases h
      exact runs_jump (fun _ _ => rfl) (hready.ofMachine1 operand1 rfl) hvalue

theorem unconditionalJump_performs :
    Performs I unconditionalJump (IntegerClass.effect I .unconditionalJump) o1 o2 o3 := by
  intro s t t' hready h
  rw [unconditionalJump.eq_def] at h
  split at h
  case h_2 => cases h
  case h_1 operand1 =>
    split at h
    case isFalse => cases h
    case isTrue =>
      obtain ⟨⟨jumpLocation, t₁⟩, hvalue, h⟩ := bind_eq_ok.mp h
      cases h
      exact runs_jump (fun _ _ => rfl) (hready.ofMachine1 operand1 rfl) hvalue

theorem interrupt_performs :
    Performs I interrupt (IntegerClass.effect I .interrupt) o1 o2 o3 := by
  intro s t t' hready h
  rw [interrupt.eq_def] at h
  split at h
  case h_2 => cases h
  case h_1 operand1 =>
    split at h
    case isFalse => cases h
    case isTrue =>
      cases h
      refine runs_single ?_
      change s.machine.event .interrupt (I.compute .interrupt (some (s.value I operand1)) none) = _
      rw [value_ofMachine (hready.ofMachine1 operand1 rfl)]
      rfl

theorem nop_performs : Performs I nop (IntegerClass.effect I .nop) o1 o2 o3 := by
  intro s t t' _ h
  cases h
  exact runs_single rfl

/-! ## The stack -/

theorem step_stackPointer :
    s.step I (getIntALUInstruction (some stackPointer) (some immediate) (some stackPointer)) =
      { s with machine := moveStackPointer I s.machine } := by
  change s.write (integerPlace 15) (I.compute .integerALU (some (s.value I (integerRegister 15)))
    (some (I.constant .immediate))) = _
  rw [write_integerRegister (by decide), value_integerRegister (by decide)]
  rfl

/-- The stack pointer moves, and the value goes to where it then points. -/
theorem run_push (hno : (RegisterType.integer, 15) ∉ value.registers) :
    s.run I [getIntALUInstruction (some stackPointer) (some immediate) (some stackPointer),
      getStoreInstruction stackPointerLocation value] =
        { s with machine := pushValue I s.machine (s.value I value) } := by
  rw [MicroMachine.run_cons, MicroMachine.run_cons, step_stackPointer]
  have hvalue : MicroMachine.value I { s with machine := moveStackPointer I s.machine } value =
      s.value I value := by
    refine MicroMachine.value_congr rfl ?_
    intro r hr
    rw [← step_stackPointer]
    refine MicroMachine.read_write_register_of_ne ?_
    rintro rfl
    exact hno hr
  change MicroMachine.write _ (MicroMachine.place I _ stackPointerLocation) _ = _
  rw [hvalue, place_stackPointerLocation]
  rfl

theorem push_performs (hno : o1 ≠ some stackPointer) :
    Performs I push (InstructionClass.effect I .push) o1 o2 o3 := by
  intro s t t' hready h
  rw [push.eq_def] at h
  split at h
  case h_2 => cases h
  case h_1 operand1 =>
    split at h
    case isFalse => cases h
    case isTrue =>
      obtain ⟨⟨valueToPush, t₁⟩, hvalue, h⟩ := bind_eq_ok.mp h
      cases h
      obtain ⟨loads, hloads⟩ := valueOperand_spec hvalue
      have hstack : (RegisterType.integer, 15) ∉ valueToPush.registers := by
        intro hmem
        obtain ⟨hmemory, heq⟩ | ⟨-, number, hle, rfl⟩ := hloads.kind
        · rw [heq] at hmem
          cases operand1 with
          | memory => cases hmemory
          | base operand =>
            cases operand with
            | immediate => cases hmem
            | inValid => cases hmem
            | register type number =>
              cases List.mem_singleton.mp hmem
              exact hno rfl
        · have hnumber : 15 = number := congrArg Prod.snd (List.mem_singleton.mp hmem)
          omega
      refine runs_load hvalue ?_
      intro s₁ hmachine hloaded
      refine ⟨[getIntALUInstruction (some stackPointer) (some immediate) (some stackPointer),
        getStoreInstruction stackPointerLocation valueToPush], ?_, ?_⟩
      · change t₁.instructionList ++ [_] ++ [_] = _
        rw [List.append_assoc]
        rfl
      · rw [run_push hstack, hmachine, hloaded,
          value_ofMachine (hready.ofMachine1 operand1 rfl)]
        rfl

/-- Two writes to different places, of which one is a register. -/
theorem write_comm {m : Machine V} {r : RegisterType × ℕ} {place : Place V} {v w : V}
    (hne : place ≠ .register r) :
    (m.write place v).write (.register r) w = (m.write (.register r) w).write place v := by
  cases place with
  | constant => rfl
  | cell => rfl
  | register q =>
    have hregisters : q ≠ r := fun heq => hne (congrArg Place.register heq)
    simp only [Machine.write, Function.update_comm hregisters]

theorem read_write_of_ne {m : Machine V} {r : RegisterType × ℕ} {place : Place V} {v : V}
    (hne : place ≠ .register r) : (m.write place v).read (.register r) = m.read (.register r) := by
  cases place with
  | constant => rfl
  | cell => rfl
  | register q =>
    have hregisters : r ≠ q := fun heq => hne (congrArg Place.register heq.symm)
    exact Function.update_of_ne hregisters _ _

/-- The stack pointer moves before or behind a write to another place. -/
theorem moveStackPointer_write {m : Machine V} {place : Place V} {v : V}
    (hne : place ≠ integerPlace 15) :
    moveStackPointer I (m.write place v) = (moveStackPointer I m).write place v := by
  have hread : (m.write place v).read (integerPlace 15) = m.read (integerPlace 15) :=
    read_write_of_ne hne
  rw [moveStackPointer, hread]
  exact write_comm hne

theorem pop_performs (hno : ∀ operand ∈ o1, (RegisterType.integer, 15) ∉ operand.registers) :
    Performs I pop (InstructionClass.effect I .pop) o1 o2 o3 := by
  intro s t t' hready h
  rw [pop.eq_def] at h
  split at h
  case h_2 => cases h
  case h_1 operand1 =>
    have hof := hready.ofMachine1 operand1 rfl
    have hne : s.place I operand1 ≠ integerPlace 15 := by
      intro heq
      cases operand1 with
      | memory => cases heq
      | base operand =>
        cases operand with
        | immediate => cases heq
        | inValid => cases heq
        | register type number =>
          cases heq
          exact hno _ rfl (List.mem_singleton_self _)
    split at h
    case isFalse => cases h
    case isTrue =>
      have hpointer : ∀ {t₁ : Translation}, Runs I s t t₁
          (s.machine.write (s.place I operand1) (s.machine.read (stackTop s.machine))) →
            Runs I s t (t₁.appendInstruction (getIntALUInstruction (some stackPointer)
              (some immediate) (some stackPointer))) ((moveStackPointer I s.machine).write
                (s.place I operand1) (s.machine.read (stackTop s.machine))) := by
        intro t₁ hloaded
        obtain ⟨microOps, hlist, hresult⟩ := hloaded
        refine Runs.append microOps (runs_single ?_) hlist
        rw [step_stackPointer, hresult, moveStackPointer_write hne]
      simp only at h
      split at h
      case isTrue hmemory =>
        obtain ⟨⟨register, t₂⟩, htemp, h⟩ := bind_eq_ok.mp h
        cases h
        have hcopy := runs_copy (s := s) (I := I) htemp
          (show OfMachine stackPointerLocation from trivial) hmemory (hready.bounded1 operand1 rfl)
        rw [place_stackPointerLocation] at hcopy
        exact hpointer hcopy
      case isFalse =>
        cases h
        refine hpointer (runs_single ((machine_write_ofMachine hof).trans ?_))
        rw [value_stackPointerLocation]

theorem leave_performs : Performs I leave (IntegerClass.effect I .leave) o1 o2 o3 := by
  intro s t t' hready h
  rw [leave.eq_def] at h
  split at h
  case h_2 => cases h
  case h_1 =>
    have hmove : s.run I [getMoveInstruction stackPointer basePointer] =
        ⟨s.machine.write (integerPlace 15) (s.machine.read (integerPlace 14)),
          s.temporaries⟩ := by
      change s.write (integerPlace 15) (s.value I (integerRegister 14)) = _
      rw [write_integerRegister (by decide), value_integerRegister (by decide)]
    have hbase : ∀ operand ∈ some basePointer, operand = integerRegister 14 :=
      fun operand hmem => (Option.some.inj hmem).symm
    have hready' : Ready t.numTempIntRegister (some basePointer) none none := by
      refine ⟨?_, by simp, ?_, by simp, by simp, by simp⟩
      · intro operand hmem value hvalue
        obtain rfl := hbase operand hmem
        have hnumber : value = 14 := congrArg Prod.snd (List.mem_singleton.mp hvalue)
        omega
      · intro operand hmem
        obtain rfl := hbase operand hmem
        exact ofMachine_integerRegister (by decide)
    have hno : ∀ operand ∈ some basePointer,
        (RegisterType.integer, 15) ∉ operand.registers := by
      intro operand hmem
      obtain rfl := hbase operand hmem
      decide
    have hpop := pop_performs (I := I) hno
      (s.run I [getMoveInstruction stackPointer basePointer])
      (t.appendInstruction (getMoveInstruction stackPointer basePointer)) t' hready' h
    have hruns := hpop.append [getMoveInstruction stackPointer basePointer] rfl
    rw [hmove] at hruns
    exact hruns

theorem eq_immediate (h : isImmediateOperand operand = true) : operand = immediate := by
  cases operand with
  | memory => cases h
  | base operand =>
    cases operand with
    | register => cases h
    | inValid => cases h
    | immediate => rfl

theorem loop_performs : Performs I loop (IntegerClass.effect I .loop) o1 o2 o3 := by
  intro s t t' hready h
  rw [loop.eq_def] at h
  split at h
  case h_2 => cases h
  case h_1 operand1 =>
    split at h
    case isFalse => cases h
    case isTrue himmediate =>
      have hcount : s.run I
          [getIntALUInstruction (some counterRegister) (some immediate) (some counterRegister)] =
            ⟨s.machine.write (integerPlace 2) (I.compute .integerALU
              (some (s.machine.read (integerPlace 2))) (some (I.constant .immediate))),
                s.temporaries⟩ := by
        change s.write (integerPlace 2) (I.compute .integerALU
          (some (s.value I (integerRegister 2))) (some (I.constant .immediate))) = _
        rw [write_integerRegister (by decide), value_integerRegister (by decide)]
      have hjump := conditionalJump_performs (I := I) (s.run I
        [getIntALUInstruction (some counterRegister) (some immediate) (some counterRegister)])
        (t.appendInstruction
          (getIntALUInstruction (some counterRegister) (some immediate) (some counterRegister)))
        t' hready h
      have hruns := hjump.append
        [getIntALUInstruction (some counterRegister) (some immediate) (some counterRegister)] rfl
      rw [hcount] at hruns
      -- an immediate has its value before and behind the count
      obtain rfl := eq_immediate himmediate
      exact hruns

/-- Other registers are as before a push. -/
theorem read_pushValue {r : RegisterType × ℕ} {v : V} (hne : r ≠ (.integer, 15)) :
    MicroMachine.read ⟨pushValue I s.machine v, s.temporaries⟩ (.register r) =
      s.read (.register r) := by
  simp only [MicroMachine.read]
  split
  case isTrue => rfl
  case isFalse => exact Function.update_of_ne hne _ _

theorem call_performs (hno : ∀ first second, o1 = some (.memory first second) →
      (RegisterType.integer, 15) ∉ (Operand.memory first second).registers) :
    Performs I call (IntegerClass.effect I .call) o1 o2 o3 := by
  intro s t t' hready h
  rw [call.eq_def] at h
  obtain ⟨t₁, hpush, hjump⟩ := bind_eq_ok.mp h
  clear h
  cases hpush
  split at hjump
  case h_2 => cases hjump
  case h_1 operand1 =>
    split at hjump
    case isFalse => cases hjump
    case isTrue =>
      have hjumped := unconditionalJump_performs (I := I) (s.run I
        [getIntALUInstruction (some stackPointer) (some immediate) (some stackPointer),
          getStoreInstruction stackPointerLocation immediate])
        ((t.appendInstruction (getIntALUInstruction (some stackPointer) (some immediate)
          (some stackPointer))).appendInstruction
            (getStoreInstruction stackPointerLocation immediate)) t' hready hjump
      have hruns := hjumped.append
        [getIntALUInstruction (some stackPointer) (some immediate) (some stackPointer),
          getStoreInstruction stackPointerLocation immediate]
        (List.append_assoc t.instructionList [_] [_])
      rw [run_push (by decide)] at hruns
      have hplace : MicroMachine.place I
          ⟨pushValue I s.machine (s.value I immediate), s.temporaries⟩ operand1 =
            s.place I operand1 := by
        cases operand1 with
        | base => rfl
        | memory first second =>
          refine MicroMachine.place_congr ?_
          intro r hr
          refine read_pushValue ?_
          rintro rfl
          exact hno first second rfl hr
      simp only [Option.map_some, hplace] at hruns
      exact hruns

theorem run_return :
    s.run I [getLoadInstruction stackPointerLocation instructionPointer,
      getUnconditionalJumpInstruction instructionPointer] =
        ⟨returnJump I s.machine, s.temporaries⟩ := by
  have hload : s.step I (getLoadInstruction stackPointerLocation instructionPointer) =
      ⟨s.machine.write (integerPlace 27) (s.machine.read (stackTop s.machine)),
        s.temporaries⟩ := by
    change s.write (integerPlace 27) (s.value I stackPointerLocation) = _
    rw [write_integerRegister (by decide), value_stackPointerLocation]
  rw [MicroMachine.run_cons, MicroMachine.run_cons, hload]
  have htarget : MicroMachine.value I ⟨s.machine.write (integerPlace 27)
      (s.machine.read (stackTop s.machine)), s.temporaries⟩ instructionPointer =
        s.machine.read (stackTop s.machine) := by
    refine (value_integerRegister (by decide)).trans ?_
    exact Function.update_self (Prod.mk RegisterType.integer 27) _ s.machine.registers
  change MicroMachine.event _ .jump (I.compute .jump (some (MicroMachine.value I _
    instructionPointer)) none) = _
  rw [htarget]
  rfl

theorem returnOp_performs : Performs I returnOp (IntegerClass.effect I .returnOp) o1 o2 o3 := by
  intro s t t' hready h
  rw [returnOp.eq_def] at h
  split at h
  case h_1 =>
    cases h
    have hstep : (s.run I [getLoadInstruction stackPointerLocation instructionPointer,
        getUnconditionalJumpInstruction instructionPointer,
        getIntALUInstruction (some stackPointer) (some immediate) (some stackPointer)]).machine =
          moveStackPointer I (returnJump I s.machine) := by
      have hrun := run_return (I := I) (s := s)
      rw [MicroMachine.run_cons, MicroMachine.run_cons, MicroMachine.run_nil] at hrun
      rw [MicroMachine.run_cons, MicroMachine.run_cons, hrun, MicroMachine.run_cons,
        step_stackPointer]
      rfl
    refine ⟨_, ?_, hstep⟩
    change t.instructionList ++ [_] ++ [_] ++ [_] = _
    simp only [List.append_assoc, List.cons_append, List.nil_append]
  case h_2 operand1 =>
    split at h
    case isFalse => cases h
    case isTrue himmediate =>
      obtain ⟨t₁, hjump, h⟩ := bind_eq_ok.mp h
      cases hjump
      obtain ⟨⟨register, t₂⟩, htemp, h⟩ := bind_eq_ok.mp h
      cases h
      obtain ⟨rfl, hlist, -⟩ := getTempIntReg_performs htemp
      have hle : ∀ n, 29 ≤ 29 + n := fun n => Nat.le_add_right _ _
      refine ⟨[getLoadInstruction stackPointerLocation instructionPointer,
        getUnconditionalJumpInstruction instructionPointer] ++
          [getIntALUInstruction (some operand1) (some immediate)
            (some (integerRegister (29 + t.numTempIntRegister))),
          getIntALUInstruction (some stackPointer)
            (some (integerRegister (29 + t.numTempIntRegister))) (some stackPointer)], ?_, ?_⟩
      · change t₂.instructionList ++ [_] ++ [_] = _
        rw [hlist]
        change t.instructionList ++ [_] ++ [_] ++ [_] ++ [_] = _
        simp only [List.append_assoc, List.cons_append, List.nil_append]
        rfl
      · rw [MicroMachine.run_append, run_return, MicroMachine.run_cons, MicroMachine.run_cons]
        have hvalue1 : MicroMachine.value I ⟨returnJump I s.machine, s.temporaries⟩ operand1 =
            s.machine.read (s.place I operand1) := by
          obtain rfl := eq_immediate himmediate
          rfl
        have hsum : MicroMachine.step I ⟨returnJump I s.machine, s.temporaries⟩
            (getIntALUInstruction (some operand1) (some immediate)
              (some (integerRegister (29 + t.numTempIntRegister)))) =
            MicroMachine.setTemporary ⟨returnJump I s.machine, s.temporaries⟩
              (29 + t.numTempIntRegister) (I.compute .integerALU
                (some (s.machine.read (s.place I operand1))) (some (I.constant .immediate))) := by
          rw [← hvalue1]
          exact MicroMachine.write_temporary (hle _)
        rw [hsum]
        change (MicroMachine.write _ (integerPlace 15) (I.compute .integerALU
          (some (MicroMachine.value I _ (integerRegister 15)))
            (some (MicroMachine.value I _ (integerRegister _))))).machine = _
        rw [value_setTemporary (hle _), write_integerRegister (by decide),
          value_integerRegister (by decide)]
        have hpointer : (returnJump I s.machine).read (integerPlace 15) =
            s.machine.read (integerPlace 15) :=
          Function.update_of_ne
            (by decide : (RegisterType.integer, 15) ≠ (RegisterType.integer, 27))
            (s.machine.read (stackTop s.machine)) s.machine.registers
        simp only [MicroMachine.machine_setTemporary, hpointer]
        rfl
  case h_3 => cases h

/-! ## Exchanges -/

/-- Behind an exchange the places have each other's values, and the temporaries of the
operands are as they were. -/
structure ExchangedPlaces (I : Interpretation V) (s s' : MicroMachine V) (n : ℕ)
    (operand1 operand2 : Operand) : Prop where
  machine : s'.machine = exchangePlaces s.machine (s.place I operand1) (s.place I operand2)
  temporaries : ∀ number < 29 + n, s'.temporaries number = s.temporaries number

theorem exchangeMemory_run {memLocation : Operand} {register : ℕ} (hlt : register < 29)
    (hmemory : isMemoryOperand memLocation = true)
    (hb : Bounded t.numTempIntRegister memLocation)
    (h : exchangeMemory memLocation register t = .ok t') :
    ∃ microOps, t'.instructionList = t.instructionList ++ microOps ∧
      t.numTempIntRegister ≤ t'.numTempIntRegister ∧
      ExchangedPlaces I s (s.run I microOps) t.numTempIntRegister memLocation
        (integerRegister register) := by
  obtain ⟨⟨temp, t₁⟩, htemp, h⟩ := bind_eq_ok.mp h
  cases h
  obtain ⟨rfl, hlist, hnumber⟩ := getTempIntReg_performs htemp
  have hle : 29 ≤ 29 + t.numTempIntRegister := Nat.le_add_right _ _
  have hof : OfMachine memLocation := by
    cases memLocation with
    | base => cases hmemory
    | memory => trivial
  have hnext : t.numTempIntRegister ≤ t₁.numTempIntRegister := by omega
  have hrun : s.run I [getLoadInstruction memLocation
      (integerRegister (29 + t.numTempIntRegister)),
      getStoreInstruction memLocation (integerRegister register),
      getMoveInstruction (integerRegister register)
        (integerRegister (29 + t.numTempIntRegister))] =
      ⟨(s.machine.write (s.place I memLocation) (s.machine.read (integerPlace register))).write
        (integerPlace register) (s.machine.read (s.place I memLocation)),
        Function.update s.temporaries (29 + t.numTempIntRegister) (s.value I memLocation)⟩ := by
    rw [MicroMachine.run_cons, MicroMachine.run_cons, step_load_temporary hle]
    have hstore : (s.setTemporary (29 + t.numTempIntRegister) (s.value I memLocation)).step I
        (getStoreInstruction memLocation (integerRegister register)) =
          ⟨s.machine.write (s.place I memLocation) (s.machine.read (integerPlace register)),
            Function.update s.temporaries (29 + t.numTempIntRegister)
              (s.value I memLocation)⟩ := by
      change MicroMachine.write _ (MicroMachine.place I _ memLocation)
        (MicroMachine.value I _ (integerRegister register)) = _
      rw [MicroMachine.write_visible (place_visible hof), place_setTemporary hb.not_mem,
        value_integerRegister hlt]
      rfl
    rw [hstore, MicroMachine.run_cons, MicroMachine.run_nil]
    change MicroMachine.write _ (integerPlace register) (MicroMachine.value I _
      (integerRegister (29 + t.numTempIntRegister))) = _
    rw [write_integerRegister hlt]
    have htemporary : MicroMachine.value I ⟨s.machine.write (s.place I memLocation)
        (s.machine.read (integerPlace register)),
          Function.update s.temporaries (29 + t.numTempIntRegister) (s.value I memLocation)⟩
        (integerRegister (29 + t.numTempIntRegister)) = s.machine.read (s.place I memLocation) := by
      rw [← value_ofMachine hof]
      exact (MicroMachine.read_temporary hle).trans (Function.update_self _ _ _)
    rw [htemporary]
  refine ⟨[getLoadInstruction memLocation (integerRegister (29 + t.numTempIntRegister)),
    getStoreInstruction memLocation (integerRegister register),
    getMoveInstruction (integerRegister register)
      (integerRegister (29 + t.numTempIntRegister))], ?_, hnext, ?_, ?_⟩
  · change t₁.instructionList ++ [_] ++ [_] ++ [_] = _
    rw [hlist]
    simp only [List.append_assoc, List.cons_append, List.nil_append]
    rfl
  · rw [hrun]
    rfl
  · intro number hnumber
    rw [hrun]
    exact Function.update_of_ne (Nat.ne_of_lt hnumber) _ _

/-- A cell and a register are written in either order. -/
theorem exchangePlaces_comm {m : Machine V} {r : RegisterType × ℕ} {address : V} :
    exchangePlaces m (.register r) (.cell address) =
      exchangePlaces m (.cell address) (.register r) :=
  rfl

/-- Both operands are registers, or one is a register and the other in memory. -/
theorem exchange_run (hready : Ready t.numTempIntRegister o1 o2 o3)
    (h : exchange o1 o2 o3 t = .ok t') :
    ∃ operand1 operand2 microOps, o1 = some operand1 ∧ o2 = some operand2 ∧ o3 = none ∧
      t'.instructionList = t.instructionList ++ microOps ∧
      t.numTempIntRegister ≤ t'.numTempIntRegister ∧
      ExchangedPlaces I s (s.run I microOps) t.numTempIntRegister operand1 operand2 ∧
      (isMemoryOperand operand1 = true → ∃ value, operand2 = integerRegister value) ∧
      (isMemoryOperand operand2 = true → ∃ value, operand1 = integerRegister value) := by
  rw [exchange.eq_def] at h
  split at h
  case h_1 register register' =>
    cases h
    have hlt := hready.ofMachine1 _ rfl register rfl
    have hlt' := hready.ofMachine2 _ rfl register' rfl
    have hstep : s.run I [getExchangeInstruction register register'] =
        ⟨exchangePlaces s.machine (integerPlace register) (integerPlace register'),
          s.temporaries⟩ := by
      change (s.write (integerPlace register) (s.value I (integerRegister register'))).write
        (integerPlace register') (s.value I (integerRegister register)) = _
      rw [write_integerRegister hlt, write_integerRegister hlt', value_integerRegister hlt,
        value_integerRegister hlt']
      rfl
    refine ⟨_, _, [getExchangeInstruction register register'], rfl, rfl, rfl, rfl, Nat.le_refl _,
      ⟨?_, ?_⟩, fun hmemory => absurd hmemory Bool.false_ne_true,
      fun hmemory => absurd hmemory Bool.false_ne_true⟩
    · rw [hstep]
      rfl
    · intro number _
      rw [hstep]
  case h_2 first second register =>
    obtain ⟨microOps, hlist, hle, hexchanged⟩ := exchangeMemory_run (s := s) (I := I)
      (hready.ofMachine2 _ rfl register rfl) rfl (hready.bounded1 _ rfl) h
    exact ⟨_, _, microOps, rfl, rfl, rfl, hlist, hle, hexchanged, fun _ => ⟨register, rfl⟩,
      fun hmemory => absurd hmemory Bool.false_ne_true⟩
  case h_3 register first second =>
    obtain ⟨microOps, hlist, hle, hexchanged⟩ := exchangeMemory_run (s := s) (I := I)
      (hready.ofMachine1 _ rfl register rfl) rfl (hready.bounded2 _ rfl) h
    refine ⟨_, _, microOps, rfl, rfl, rfl, hlist, hle, ⟨?_, hexchanged.temporaries⟩,
      fun hmemory => absurd hmemory Bool.false_ne_true, fun _ => ⟨register, rfl⟩⟩
    rw [hexchanged.machine]
    exact exchangePlaces_comm.symm
  case h_4 =>
    obtain ⟨_, -, h⟩ := bind_eq_ok.mp h
    cases h
  case h_5 => cases h

theorem exchange_performs :
    Performs I exchange (InstructionClass.effect I .exchange) o1 o2 o3 := by
  intro s t t' hready h
  obtain ⟨operand1, operand2, microOps, rfl, rfl, rfl, hlist, -, hexchanged, -⟩ :=
    exchange_run (s := s) (I := I) hready h
  exact ⟨microOps, hlist, hexchanged.machine⟩

/-- An address without the exchanged register stays where it was. -/
theorem ExchangedPlaces.place {n : ℕ} {operand1 operand2 : Operand} {s' : MicroMachine V}
    (h : ExchangedPlaces I s s' n operand1 operand2) (hb : Bounded n operand)
    (hno : ∀ r ∈ operand.registers, isMemoryOperand operand = true →
      s.place I operand1 ≠ .register r ∧ s.place I operand2 ≠ .register r) :
    s'.place I operand = s.place I operand := by
  cases operand with
  | base => rfl
  | memory first second =>
    refine MicroMachine.place_congr ?_
    intro r hr
    obtain ⟨hne1, hne2⟩ := hno r hr rfl
    by_cases htemp : IsTemporaryRegister r
    · obtain ⟨type, number⟩ := r
      obtain ⟨rfl, hle⟩ : type = .integer ∧ 29 ≤ number := htemp
      rw [MicroMachine.read_temporary hle, MicroMachine.read_temporary hle]
      exact h.temporaries number (hb number hr)
    · have hvisible : (Place.register r : Place V).Visible := htemp
      rw [MicroMachine.read_visible hvisible, MicroMachine.read_visible hvisible, h.machine,
        exchangePlaces, read_write_of_ne hne2, read_write_of_ne hne1]

theorem exchangeAndAdd_performs (hplain : ∀ operand ∈ o2, NoTemporary operand)
    (hno : ∀ first second value,
      (o1 = some (.memory first second) ∧ o2 = some (integerRegister value) ∨
        o2 = some (.memory first second) ∧ o1 = some (integerRegister value)) →
          (RegisterType.integer, value) ∉ (Operand.memory first second).registers) :
    Performs I exchangeAndAdd (InstructionClass.effect I .exchangeAndAdd) o1 o2 o3 := by
  intro s t t' hready h
  obtain ⟨t₁, hexchange, h⟩ := bind_eq_ok.mp h
  obtain ⟨operand1, operand2, microOps, rfl, rfl, rfl, hlist, hle, hexchanged, hother1, hother2⟩ :=
    exchange_run (s := s) (I := I) hready hexchange
  have hplace1 : (s.run I microOps).place I operand1 = s.place I operand1 := by
    refine hexchanged.place (hready.bounded1 operand1 rfl) ?_
    intro r hr hmemory
    obtain ⟨value, rfl⟩ := hother1 hmemory
    cases operand1 with
    | base => cases hmemory
    | memory first second =>
      refine ⟨(by intro heq; cases heq), ?_⟩
      intro heq
      cases heq
      exact hno first second value (Or.inl ⟨rfl, rfl⟩) hr
  have hplace2 : (s.run I microOps).place I operand2 = s.place I operand2 := by
    refine hexchanged.place (hready.bounded2 operand2 rfl) ?_
    intro r hr hmemory
    obtain ⟨value, rfl⟩ := hother2 hmemory
    cases operand2 with
    | base => cases hmemory
    | memory first second =>
      refine ⟨?_, (by intro heq; cases heq)⟩
      intro heq
      cases heq
      exact hno first second value (Or.inr ⟨rfl, rfl⟩) hr
  have hmono : ∀ {operand : Operand}, Bounded t.numTempIntRegister operand →
      Bounded t₁.numTempIntRegister operand := by
    intro operand hb value hvalue
    have := hb value hvalue
    omega
  have hready' : Ready t₁.numTempIntRegister (some operand2) (some operand1) none := by
    refine ⟨?_, ?_, hready.ofMachine2, hready.ofMachine1, hready.ofMachine3, ?_⟩
    · exact fun operand hmem => hmono (hready.bounded2 operand hmem)
    · exact fun operand hmem => hmono (hready.bounded1 operand hmem)
    · intro second hsecond first hfirst value hvalue hmem hmem'
      exact hready.separate first hfirst second hsecond value hvalue hmem' hmem
  have hadd := integerALUImplicitDestination_performs (I := I) hplain (s.run I microOps) t₁ t'
    hready' h
  have hruns := hadd.append microOps hlist
  simp only [Option.map_some, hplace1, hplace2, hexchanged.machine] at hruns
  exact hruns

end Handlers

end X86

end Tejas
