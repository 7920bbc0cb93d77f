import Mathlib.Logic.Function.Basic
import Tejas.Instructions

/-!
# The meaning of micro-operations

A machine has registers, memory, and the list of what it did that is neither: jumps,
interrupts, comparisons. Beside its registers micro-operations use temporaries, which are
integer registers from 29 on and no part of the machine. What an operation computes is left
open.
-/

namespace Tejas

/-- The values of operands that are no registers, and the operations. -/
structure Interpretation (V : Type) where
  constant : BaseOperand → V
  compute : OperationType → Option V → Option V → V

/-- The address of `[a]` and of `[a + b]`: a sum is an integer operation. -/
def Interpretation.address {V : Type} (I : Interpretation V) (first second : Option V) : V :=
  match first, second with
  | some a, none => a
  | first, second => I.compute .integerALU first second

/-- Where an operand is. -/
inductive Place (V : Type) where
  | constant (value : V)
  | register (register : RegisterType × ℕ)
  | cell (address : V)

def Interpretation.basePlace {V : Type} (I : Interpretation V) : BaseOperand → Place V
  | .register type value => .register (type, value)
  | operand => .constant (I.constant operand)

@[ext]
structure Machine (V : Type) where
  registers : RegisterType × ℕ → V
  memory : V → V
  events : List (OperationType × V)

section

variable {V : Type}

/-- A temporary of the translation. -/
def IsTemporaryRegister (r : RegisterType × ℕ) : Prop := r.1 = .integer ∧ 29 ≤ r.2

instance (r : RegisterType × ℕ) : Decidable (IsTemporaryRegister r) :=
  inferInstanceAs (Decidable (_ ∧ _))

/-- A place of the machine. -/
def Place.Visible : Place V → Prop
  | .register r => ¬ IsTemporaryRegister r
  | _ => True

/-- A machine with the temporaries. -/
@[ext]
structure MicroMachine (V : Type) where
  machine : Machine V
  temporaries : ℕ → V

/-! ## Reading -/

def Machine.read (s : Machine V) : Place V → V
  | .constant value => value
  | .register r => s.registers r
  | .cell address => s.memory address

namespace MicroMachine

variable (I : Interpretation V) (s : MicroMachine V)

def read : Place V → V
  | .register r => if IsTemporaryRegister r then s.temporaries r.2 else s.machine.registers r
  | place => s.machine.read place

def baseValue (operand : BaseOperand) : V := s.read (I.basePlace operand)

def place : Operand → Place V
  | .base operand => I.basePlace operand
  | .memory first second =>
    .cell (I.address (first.map (s.baseValue I)) (second.map (s.baseValue I)))

def value (operand : Operand) : V := s.read (s.place I operand)

/-- The temporary `number` gets a value. -/
def setTemporary (number : ℕ) (v : V) : MicroMachine V :=
  { s with temporaries := Function.update s.temporaries number v }

variable {I s} {s' : MicroMachine V}

@[simp] theorem machine_setTemporary (number : ℕ) (v : V) :
    (s.setTemporary number v).machine = s.machine := rfl

@[simp] theorem temporaries_setTemporary (number : ℕ) (v : V) :
    (s.setTemporary number v).temporaries = Function.update s.temporaries number v := rfl

theorem read_visible {place : Place V} (h : place.Visible) :
    s.read place = s.machine.read place := by
  cases place with
  | constant => rfl
  | cell => rfl
  | register r =>
    have hno : ¬ IsTemporaryRegister r := h
    exact if_neg hno

theorem read_temporary {number : ℕ} (h : 29 ≤ number) :
    s.read (.register (.integer, number)) = s.temporaries number :=
  if_pos ⟨rfl, h⟩

/-- A register is read alike in machines that differ in other temporaries. -/
theorem read_register_congr (hmachine : s'.machine = s.machine) {r : RegisterType × ℕ}
    (htemporary : IsTemporaryRegister r → s'.temporaries r.2 = s.temporaries r.2) :
    s'.read (.register r) = s.read (.register r) := by
  by_cases htemp : IsTemporaryRegister r
  · obtain ⟨type, number⟩ := r
    obtain ⟨rfl, hle⟩ : type = .integer ∧ 29 ≤ number := htemp
    rw [read_temporary hle, read_temporary hle]
    exact htemporary ⟨rfl, hle⟩
  · have hvisible : (Place.register r : Place V).Visible := htemp
    rw [read_visible hvisible, read_visible hvisible, hmachine]

theorem baseValue_congr {operand : BaseOperand}
    (h : ∀ r ∈ operand.register?, s'.read (.register r) = s.read (.register r)) :
    s'.baseValue I operand = s.baseValue I operand := by
  cases operand with
  | register type number => exact h _ rfl
  | immediate => rfl
  | inValid => rfl

/-- Where an operand is depends on the registers of its address. -/
theorem place_congr {operand : Operand}
    (h : ∀ r ∈ operand.registers, s'.read (.register r) = s.read (.register r)) :
    s'.place I operand = s.place I operand := by
  cases operand with
  | base operand => rfl
  | memory first second =>
    have hpart : ∀ part : Option BaseOperand, (∀ r ∈ (part.bind BaseOperand.register?).toList,
        r ∈ (Operand.memory first second).registers) →
          part.map (s'.baseValue I) = part.map (s.baseValue I) := by
      intro part hsub
      cases part with
      | none => rfl
      | some operand =>
        refine congrArg some (baseValue_congr ?_)
        intro r hr
        exact h r (hsub r (Option.mem_toList.mpr hr))
    have hfirst := hpart first (fun _ hmem => List.mem_append_left _ hmem)
    have hsecond := hpart second (fun _ hmem => List.mem_append_right _ hmem)
    simp only [MicroMachine.place, hfirst, hsecond]

theorem value_congr {operand : Operand} (hmemory : s'.machine.memory = s.machine.memory)
    (h : ∀ r ∈ operand.registers, s'.read (.register r) = s.read (.register r)) :
    s'.value I operand = s.value I operand := by
  rw [MicroMachine.value, MicroMachine.value, place_congr h]
  cases operand with
  | base operand =>
    refine baseValue_congr ?_
    intro r hr
    exact h r (Option.mem_toList.mpr hr)
  | memory first second =>
    change s'.machine.memory _ = s.machine.memory _
    rw [hmemory]

end MicroMachine

/-! ## Writing -/

variable [DecidableEq V]

namespace Machine

def write (s : Machine V) (place : Place V) (value : V) : Machine V :=
  match place with
  | .constant _ => s
  | .register r => { s with registers := Function.update s.registers r value }
  | .cell address => { s with memory := Function.update s.memory address value }

def event (s : Machine V) (type : OperationType) (value : V) : Machine V :=
  { s with events := s.events ++ [(type, value)] }

end Machine

namespace MicroMachine

variable (I : Interpretation V) (s : MicroMachine V)

def write (place : Place V) (value : V) : MicroMachine V :=
  match place with
  | .register r =>
    if IsTemporaryRegister r then s.setTemporary r.2 value
    else { s with machine := s.machine.write (.register r) value }
  | place => { s with machine := s.machine.write place value }

def event (type : OperationType) (value : V) : MicroMachine V :=
  { s with machine := s.machine.event type value }

/-- One micro-operation. An operation without a destination is an event. -/
def step (i : Instruction) : MicroMachine V :=
  match i.operationType, i.sourceOperand1, i.sourceOperand2, i.destinationOperand with
  | .load, some source, _, some destination => s.write (s.place I destination) (s.value I source)
  | .mov, some source, _, some destination => s.write (s.place I destination) (s.value I source)
  | .store, some location, some source, _ => s.write (s.place I location) (s.value I source)
  | .xchg, some operand1, some operand2, _ =>
    (s.write (s.place I operand1) (s.value I operand2)).write (s.place I operand2)
      (s.value I operand1)
  | .load, _, _, _ | .mov, _, _, _ | .store, _, _, _ | .xchg, _, _, _ => s
  | .inValid, _, _, _ | .nop, _, _, _ | .sync, _, _, _ | .mfence, _, _, _ => s
  | type, source1, source2, some destination =>
    s.write (s.place I destination)
      (I.compute type (source1.map (s.value I)) (source2.map (s.value I)))
  | type, source1, source2, none =>
    s.event type (I.compute type (source1.map (s.value I)) (source2.map (s.value I)))

def run (microOps : List Instruction) : MicroMachine V := microOps.foldl (step I) s

variable {I s}

@[simp] theorem run_nil : s.run I [] = s := rfl

@[simp] theorem run_cons (i : Instruction) (rest : List Instruction) :
    s.run I (i :: rest) = (s.step I i).run I rest := rfl

@[simp] theorem run_append (front rest : List Instruction) :
    s.run I (front ++ rest) = (s.run I front).run I rest :=
  List.foldl_append

theorem write_visible {place : Place V} {v : V} (h : place.Visible) :
    s.write place v = { s with machine := s.machine.write place v } := by
  cases place with
  | constant => rfl
  | cell => rfl
  | register r =>
    have hno : ¬ IsTemporaryRegister r := h
    exact if_neg hno

theorem read_write_register_of_ne {q r : RegisterType × ℕ} {v : V} (hne : r ≠ q) :
    (s.write (.register q) v).read (.register r) = s.read (.register r) := by
  by_cases hq : IsTemporaryRegister q
  · have hwrite : s.write (.register q) v = s.setTemporary q.2 v := if_pos hq
    rw [hwrite]
    refine read_register_congr (machine_setTemporary _ _) ?_
    intro hr
    refine Function.update_of_ne ?_ _ _
    intro heq
    exact hne (Prod.ext (hr.1.trans hq.1.symm) heq)
  · have hvisible : (Place.register q : Place V).Visible := hq
    rw [write_visible hvisible]
    simp only [read]
    split
    case isTrue => rfl
    case isFalse => exact Function.update_of_ne hne _ _

theorem write_temporary {number : ℕ} {v : V} (h : 29 ≤ number) :
    s.write (.register (.integer, number)) v = s.setTemporary number v :=
  if_pos ⟨rfl, h⟩

end MicroMachine

end

end Tejas
