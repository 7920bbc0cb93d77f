import Tejas.X86OperandSpec

/-!
# Address temporaries in translated instructions

A scaled index is computed into a temporary, and the handlers take other temporaries
for the values they load. A value that goes into the temporary of its own address
destroys the address for a store that follows.
-/

namespace Tejas

/-! ## Micro-operations and addresses -/

namespace Instruction

/-- The registers of the address of a memory micro-operation. -/
def addressRegisters (i : Instruction) : List (RegisterType × ℕ) :=
  match i.operationType, i.sourceOperand1 with
  | .load, some (.memory first second) => (Operand.memory first second).registers
  | .store, some (.memory first second) => (Operand.memory first second).registers
  | _, _ => []

def Addresses (i : Instruction) (value : ℕ) : Prop :=
  (RegisterType.integer, value) ∈ i.addressRegisters

def Overwrites (i : Instruction) (value : ℕ) : Prop :=
  (RegisterType.integer, value) ∈ i.destinations

end Instruction

namespace X86

open Registers OperandTranslator

/-- The number of a temporary register. -/
def IsTemporary (value : ℕ) : Prop := isTempIntRegister (some (.register .integer value)) = true

/-- A temporary that is an address later on is written only once until then, and not used
as an address before. -/
def AddressKept (microOps : List Instruction) : Prop :=
  ∀ before op after, microOps = before ++ op :: after → ∀ value, IsTemporary value →
    op.Overwrites value → (∃ use ∈ after, use.Addresses value) →
      ¬ op.Addresses value ∧
        ∀ earlier ∈ before, ¬ earlier.Overwrites value ∧ ¬ earlier.Addresses value

/-- From a load to a store of the same memory operand no temporary of the address is
written. -/
def SameAddress (microOps : List Instruction) : Prop :=
  ∀ before load between store after,
    microOps = before ++ load :: (between ++ store :: after) →
    load.operationType = .load → store.operationType = .store →
    load.sourceOperand1 = store.sourceOperand1 → ∀ value, IsTemporary value →
      load.Addresses value → ∀ op ∈ load :: between, ¬ op.Overwrites value

def AddressFlow (microOps : List Instruction) : Prop :=
  AddressKept microOps ∧ SameAddress microOps

/-- The operand that the handler loads and stores through the register of its value. -/
def InstructionClass.rewrites (c : InstructionClass) (operand1Str operand2Str : Option Text) :
    Option Text :=
  match c with
  | .integerALUImplicitDestination | .singleOperandIntegerALU => operand1Str
  | .exchangeAndAdd => operand2Str
  | _ => none

/-! ## Properties of lists of micro-operations -/

theorem addresses_congr {load store : Instruction} (hload : load.operationType = .load)
    (hstore : store.operationType = .store) (h : load.sourceOperand1 = store.sourceOperand1)
    (value : ℕ) : store.Addresses value ↔ load.Addresses value := by
  rw [Instruction.Addresses, Instruction.Addresses, Instruction.addressRegisters,
    Instruction.addressRegisters, hload, hstore, h]
  cases store.sourceOperand1 with
  | none => rfl
  | some o => cases o <;> rfl

theorem sameAddress_of_kept {microOps : List Instruction} (h : AddressKept microOps) :
    SameAddress microOps := by
  intro before load between store after hops hload hstore hsame value htemp haddress op hop hwrite
  have hstoreAddress : store.Addresses value :=
    (addresses_congr hload hstore hsame value).mpr haddress
  obtain rfl | hop := List.mem_cons.mp hop
  · have huse : ∃ use ∈ between ++ store :: after, use.Addresses value :=
      ⟨store, List.mem_append_right _ List.mem_cons_self, hstoreAddress⟩
    exact (h before op _ hops value htemp hwrite huse).1 haddress
  · obtain ⟨between₁, between₂, rfl⟩ := List.append_of_mem hop
    have huse : ∃ use ∈ between₂ ++ store :: after, use.Addresses value :=
      ⟨store, List.mem_append_right _ List.mem_cons_self, hstoreAddress⟩
    have hsplit : microOps =
        (before ++ load :: between₁) ++ op :: (between₂ ++ store :: after) := by
      rw [hops]
      simp
    exact ((h _ op _ hsplit value htemp hwrite huse).2 load (by simp)).2 haddress

/-- What `op` writes is not the address of `use`. -/
def Safe (op use : Instruction) : Prop :=
  ∀ value, IsTemporary value → op.Overwrites value → ¬ use.Addresses value

theorem temporary_ge {value : ℕ} (h : IsTemporary value) : 29 ≤ value := by
  have : 29 ≤ value ∧ value ≤ 36 := by simpa [IsTemporary, isTempIntRegister] using h
  exact this.1

/-- The micro-operations in front of the handler compute one temporary each. -/
structure Computed (t : Translation) : Prop where
  no_address : ∀ i ∈ t.instructionList, i.addressRegisters = []
  computes : ∀ i ∈ t.instructionList, ∃ k < t.numTempIntRegister,
    i.destinations = [(.integer, 29 + k)]
  once : t.instructionList.Pairwise (fun i j => ∀ value, i.Overwrites value → ¬ j.Overwrites value)

theorem kept_of_safe {t : Translation} (ht : Computed t) {microOps : List Instruction}
    (h : microOps.Pairwise Safe) : AddressKept (t.instructionList ++ microOps) := by
  intro before op after hops value htemp hwrite huse
  have hpre : ∀ rest, t.instructionList = before ++ op :: rest →
      ¬ op.Addresses value ∧
        ∀ earlier ∈ before, ¬ earlier.Overwrites value ∧ ¬ earlier.Addresses value := by
    intro rest hsplit
    have hno : ∀ i ∈ before ++ op :: rest, ¬ i.Addresses value := by
      intro i hi
      rw [Instruction.Addresses, ht.no_address i (hsplit ▸ hi)]
      exact List.not_mem_nil
    have honce := ht.once
    rw [hsplit] at honce
    refine ⟨hno op (by simp), ?_⟩
    intro earlier hearlier
    refine ⟨?_, hno earlier (List.mem_append_left _ hearlier)⟩
    intro hearly
    exact (List.pairwise_append.mp honce).2.2 earlier hearlier op List.mem_cons_self value hearly
      hwrite
  have hhandler : ∀ front, microOps = front ++ op :: after → False := by
    intro front hsplit
    obtain ⟨use, hmem, haddress⟩ := huse
    rw [hsplit] at h
    have hsafe := (List.pairwise_cons.mp (List.pairwise_append.mp h).2.1).1 use hmem
    exact hsafe value htemp hwrite haddress
  obtain ⟨front, rfl, hsplit⟩ | ⟨rest, hsplit, hrest⟩ := List.append_eq_append_iff.mp hops
  · exact (hhandler front hsplit).elim
  · cases rest with
    | nil => exact (hhandler [] hrest.symm).elim
    | cons i rest =>
      obtain ⟨rfl, -⟩ := List.cons.inj hrest
      exact hpre rest hsplit

/-- A load into a temporary of its own address destroys it for a store that follows. -/
theorem not_kept {microOps before after : List Instruction} {load store : Instruction} {value : ℕ}
    (hops : microOps = before ++ load :: after) (htemp : IsTemporary value)
    (hwrite : load.Overwrites value) (haddress : load.Addresses value) (hstore : store ∈ after)
    (huse : store.Addresses value) : ¬ AddressKept microOps := by
  intro h
  exact (h before load after hops value htemp hwrite ⟨store, hstore, huse⟩).1 haddress

/-! ## The operands of an instruction -/

section Settled

variable {t t' t'' : Translation} {operandStr : Option Text} {o : Option Operand}
  {operand : Operand} {register : BaseOperand} {value : ℕ}

/-- The temporary that `getTemporaryMemoryRegister` finds in an operand. -/
def temporaryOf : Operand → Option BaseOperand
  | .memory first second => getTemporaryMemoryRegister first second
  | .base _ => none

theorem isTempIntRegister_spec {part : Option BaseOperand} (h : isTempIntRegister part = true) :
    ∃ value, part = some (.register .integer value) ∧ IsTemporary value := by
  match part with
  | some (.register .integer value) => exact ⟨value, rfl, h⟩
  | none => cases h
  | some (.register .float _) => cases h
  | some .immediate => cases h
  | some .inValid => cases h

theorem temporaryOf_spec (h : temporaryOf operand = some register) :
    ∃ value, register = .register .integer value ∧ IsTemporary value ∧
      (RegisterType.integer, value) ∈ operand.registers := by
  cases operand with
  | base => cases h
  | memory first second =>
    rw [temporaryOf, getTemporaryMemoryRegister] at h
    split at h
    case isTrue hfirst =>
      obtain ⟨value, rfl, htemp⟩ := isTempIntRegister_spec hfirst
      cases h
      exact ⟨value, rfl, htemp, mem_registers_memory.mpr (Or.inl rfl)⟩
    case isFalse =>
      split at h
      case isTrue hsecond =>
        obtain ⟨value, rfl, htemp⟩ := isTempIntRegister_spec hsecond
        cases h
        exact ⟨value, rfl, htemp, mem_registers_memory.mpr (Or.inr rfl)⟩
      case isFalse => cases h

/-- The integer registers of the operand are the machine's and the first `n`
temporaries. -/
def Bounded (n : ℕ) (operand : Operand) : Prop :=
  ∀ value, (RegisterType.integer, value) ∈ operand.registers → value < 29 + n

/-- What the handler may rely on for one of its operands. -/
structure Settled (t : Translation) (operandStr : Option Text) (o : Option Operand) : Prop where
  bounded : ∀ operand ∈ o, Bounded t.numTempIntRegister operand
  plain : ¬ Scaled operandStr → ∀ operand ∈ o, NoTemporary operand
  scaled : Scaled operandStr → ∃ operand register, o = some operand ∧
    temporaryOf operand = some register

theorem Settled.mono (h : Settled t operandStr o)
    (hle : t.numTempIntRegister ≤ t'.numTempIntRegister) : Settled t' operandStr o := by
  refine ⟨?_, h.plain, h.scaled⟩
  intro operand hmem value hvalue
  have := h.bounded operand hmem value hvalue
  omega

theorem Simplified.le {scaled : Bool} (h : Simplified t scaled o t') :
    t.numTempIntRegister ≤ t'.numTempIntRegister := by
  cases h with
  | plain => exact Nat.le_refl _
  | scaled => exact Nat.le_succ _

theorem Simplified.settled {scaled : Bool} (h : Simplified t scaled o t')
    (hscaled : scaled = true ↔ Scaled operandStr) : Settled t' operandStr o := by
  cases h with
  | plain hplain =>
    refine ⟨?_, fun _ => hplain, fun h => absurd (hscaled.mpr h) (by decide)⟩
    intro operand hmem value hvalue
    have := hplain operand hmem value hvalue
    omega
  | scaled hlt htemp hregisters =>
    refine ⟨?_, fun h => absurd (hscaled.mp rfl) h, fun _ => ⟨_, _, rfl, htemp⟩⟩
    intro operand hmem value hvalue
    cases hmem
    show value < 29 + (t.numTempIntRegister + 1)
    obtain h | h := hregisters value hvalue <;> omega

theorem overwrites_intALU {source source' : Option Operand} {written : ℕ} :
    (getIntALUInstruction source source' (some (integerRegister written))).Overwrites value ↔
      value = written := by
  simp [Instruction.Overwrites, Instruction.destinations, getIntALUInstruction, integerRegister,
    Operand.register?, BaseOperand.register?]

/-- A scaled index is computed into a temporary that was free until then. -/
theorem Computed.simplified {scaled : Bool} (ht : Computed t) (h : Simplified t scaled o t') :
    Computed t' := by
  cases h with
  | plain => exact ht
  | @scaled first second source source' hlt htemp hregisters =>
    refine ⟨?_, ?_, ?_⟩
    · intro i hi
      obtain hi | hi := List.mem_append.mp hi
      · exact ht.no_address i hi
      · rw [List.mem_singleton.mp hi]
        rfl
    · intro i hi
      obtain hi | hi := List.mem_append.mp hi
      · obtain ⟨k, hk, hdest⟩ := ht.computes i hi
        exact ⟨k, Nat.lt_succ_of_lt hk, hdest⟩
      · rw [List.mem_singleton.mp hi]
        exact ⟨t.numTempIntRegister, Nat.lt_succ_self _, rfl⟩
    · refine List.pairwise_append.mpr ⟨ht.once, List.pairwise_singleton _ _, ?_⟩
      intro i hi j hj value hwrite hwrite'
      obtain ⟨k, hk, hdest⟩ := ht.computes i hi
      have hvalue : value = 29 + k := by
        rw [Instruction.Overwrites, hdest] at hwrite
        simpa using hwrite
      rw [List.mem_singleton.mp hj] at hwrite'
      have := overwrites_intALU.mp hwrite'
      omega

/-- The three operands of an instruction and the state in front of its handler. -/
theorem translate_cases {handler : Handler} {operand1Str operand2Str operand3Str : Option Text}
    {microOps : List Instruction} (hx1 : IsX86 operand1Str) (hx2 : IsX86 operand2Str)
    (hx3 : IsX86 operand3Str)
    (h : translate handler operand1Str operand2Str operand3Str = .ok microOps) :
    ∃ operand1 operand2 operand3 t t', handler operand1 operand2 operand3 t = .ok t' ∧
      microOps = t'.instructionList ∧ Computed t ∧ Settled t operand1Str operand1 ∧
      Settled t operand2Str operand2 ∧ Settled t operand3Str operand3 := by
  obtain ⟨⟨operand1, t₁⟩, hoperand1, h⟩ := bind_eq_ok.mp h
  obtain ⟨⟨operand2, t₂⟩, hoperand2, h⟩ := bind_eq_ok.mp h
  obtain ⟨⟨operand3, t₃⟩, hoperand3, h⟩ := bind_eq_ok.mp h
  obtain ⟨t', hhandler, h⟩ := bind_eq_ok.mp h
  cases h
  obtain ⟨scaled1, h1, hscaled1⟩ := simplifyOperand_spec hx1 hoperand1
  obtain ⟨scaled2, h2, hscaled2⟩ := simplifyOperand_spec hx2 hoperand2
  obtain ⟨scaled3, h3, hscaled3⟩ := simplifyOperand_spec hx3 hoperand3
  have hinit : Computed ⟨[], 0⟩ := ⟨by simp, by simp, List.Pairwise.nil⟩
  exact ⟨operand1, operand2, operand3, t₃, t', hhandler, rfl,
    ((hinit.simplified h1).simplified h2).simplified h3,
    (h1.settled hscaled1).mono (h2.le.trans h3.le), (h2.settled hscaled2).mono h3.le,
    h3.settled hscaled3⟩

end Settled

/-! ## What the handlers append -/

section Appends

variable {t t' t'' : Translation} {operand value : Operand} {number n : ℕ}
  {op use : Instruction}

/-- A load overwrites a temporary of its own address, and a store behind it uses it. -/
def Destroys (microOps : List Instruction) : Prop :=
  ∃ before load after store number, microOps = before ++ load :: after ∧ IsTemporary number ∧
    load.Overwrites number ∧ load.Addresses number ∧ store ∈ after ∧ store.Addresses number

theorem safe_of_no_address (h : use.addressRegisters = []) : Safe op use := by
  intro number _ _ haddress
  rw [Instruction.Addresses, h] at haddress
  exact absurd haddress List.not_mem_nil

theorem safe_of_machine_address (h : ∀ number, use.Addresses number → number < 29) :
    Safe op use := by
  intro number htemp _ haddress
  have := temporary_ge htemp
  have := h number haddress
  omega

theorem safe_of_fresh (hwrite : ∀ number, op.Overwrites number → number = 29 + n)
    (haddress : ∀ number, use.Addresses number → number < 29 + n) : Safe op use := by
  intro number _ h h'
  have := hwrite number h
  have := haddress number h'
  omega

theorem overwrites_load :
    (getLoadInstruction operand (integerRegister n)).Overwrites number ↔ number = n := by
  simp [Instruction.Overwrites, Instruction.destinations, getLoadInstruction, integerRegister,
    Operand.register?, BaseOperand.register?]

theorem addresses_load (hmem : isMemoryOperand operand = true) :
    (getLoadInstruction operand value).Addresses number ↔
      (RegisterType.integer, number) ∈ operand.registers := by
  cases operand with
  | base => cases hmem
  | memory => rfl

theorem addresses_store (hmem : isMemoryOperand operand = true) :
    (getStoreInstruction operand value).Addresses number ↔
      (RegisterType.integer, number) ∈ operand.registers := by
  cases operand with
  | base => cases hmem
  | memory => rfl

theorem overwrites_store : ¬ (getStoreInstruction operand value).Overwrites number := by
  simp [Instruction.Overwrites, Instruction.destinations, getStoreInstruction]

/-- What `valueOperand` appends, and the register of the value. -/
inductive Valued (t : Translation) (operand : Operand) :
    List Instruction → Operand → Translation → Prop
  | direct (hno : isMemoryOperand operand = false) : Valued t operand [] operand t
  | reused {n : ℕ} (hmem : isMemoryOperand operand = true)
      (htemp : temporaryOf operand = some (.register .integer n)) :
      Valued t operand [getLoadInstruction operand (integerRegister n)] (integerRegister n)
        (t.appendInstruction (getLoadInstruction operand (integerRegister n)))
  | fresh (hmem : isMemoryOperand operand = true) (hnone : temporaryOf operand = none) :
      Valued t operand
        [getLoadInstruction operand (integerRegister (29 + t.numTempIntRegister))]
        (integerRegister (29 + t.numTempIntRegister))
        ⟨t.instructionList ++
          [getLoadInstruction operand (integerRegister (29 + t.numTempIntRegister))],
          t.numTempIntRegister + 1⟩

theorem valueOperand_spec (h : valueOperand operand t = .ok (value, t')) :
    ∃ microOps, Valued t operand microOps value t' := by
  rw [valueOperand] at h
  split at h
  case isFalse hno =>
    cases h
    exact ⟨[], .direct (Bool.eq_false_iff.mpr hno)⟩
  case isTrue hmem =>
    obtain ⟨⟨register, t₁⟩, hlocation, h⟩ := bind_eq_ok.mp h
    cases h
    cases operand with
    | base => cases hmem
    | memory first second =>
      rw [getLocationToStoreValue.eq_def] at hlocation
      cases htemp : getTemporaryMemoryRegister first second with
      | some register' =>
        simp only [htemp] at hlocation
        obtain ⟨rfl, rfl⟩ : register' = register ∧ t = t₁ := by
          simpa using hlocation
        have hof : temporaryOf (.memory first second) = some register' := htemp
        obtain ⟨n, rfl, -⟩ := temporaryOf_spec hof
        exact ⟨_, .reused hmem htemp⟩
      | none =>
        simp only [htemp] at hlocation
        obtain ⟨-, rfl, rfl⟩ := getTempIntReg_spec hlocation
        exact ⟨_, .fresh hmem htemp⟩

namespace Valued

variable {microOps : List Instruction}

theorem list_eq (h : Valued t operand microOps value t') :
    t'.instructionList = t.instructionList ++ microOps := by
  cases h with
  | direct => simp
  | reused => rfl
  | fresh => rfl

theorem le (h : Valued t operand microOps value t') :
    t.numTempIntRegister ≤ t'.numTempIntRegister := by
  cases h with
  | direct => exact Nat.le_refl _
  | reused => exact Nat.le_refl _
  | fresh => exact Nat.le_succ _

theorem pairwise (h : Valued t operand microOps value t') : microOps.Pairwise Safe := by
  cases h with
  | direct => exact List.Pairwise.nil
  | reused => exact List.pairwise_singleton _ _
  | fresh => exact List.pairwise_singleton _ _

theorem addresses (h : Valued t operand microOps value t') (hop : op ∈ microOps)
    (haddress : op.Addresses number) : (RegisterType.integer, number) ∈ operand.registers := by
  cases h with
  | direct => cases hop
  | reused hmem => exact (addresses_load hmem).mp (List.mem_singleton.mp hop ▸ haddress)
  | fresh hmem => exact (addresses_load hmem).mp (List.mem_singleton.mp hop ▸ haddress)

/-- Without a temporary in the address the value goes to a new register. -/
theorem overwrites (h : Valued t operand microOps value t') (hplain : NoTemporary operand)
    (hop : op ∈ microOps) (hwrite : op.Overwrites number) :
    number = 29 + t.numTempIntRegister := by
  cases h with
  | direct => cases hop
  | reused hmem htemp =>
    obtain ⟨n, -, htemporary, hregister⟩ := temporaryOf_spec htemp
    have := temporary_ge htemporary
    have := hplain n hregister
    omega
  | fresh => exact overwrites_load.mp (List.mem_singleton.mp hop ▸ hwrite)

end Valued

variable {operand1Str operand2Str : Option Text} {operand1 operand2 : Operand}

/-- The store of the value, where there is one. -/
def storeOf (operand value : Operand) : List Instruction :=
  if isMemoryOperand operand then [getStoreInstruction operand value] else []

theorem storeValue_list : (storeValue operand value t).instructionList =
    t.instructionList ++ storeOf operand value := by
  rw [storeValue, storeOf]
  split
  · rfl
  · simp

theorem storeOf_addresses (hop : op ∈ storeOf operand value) (haddress : op.Addresses number) :
    (RegisterType.integer, number) ∈ operand.registers := by
  rw [storeOf] at hop
  split at hop
  case isTrue hmem => exact (addresses_store hmem).mp (List.mem_singleton.mp hop ▸ haddress)
  case isFalse => cases hop

theorem storeOf_pairwise : (storeOf operand value).Pairwise Safe := by
  rw [storeOf]
  split
  · exact List.pairwise_singleton _ _
  · exact List.Pairwise.nil

/-- Loads for the values, one micro-operation that computes, and the store of the
result. -/
theorem safe_readModifyWrite {loads : List Instruction} {compute : Instruction}
    (hloads : loads.Pairwise Safe) (hcompute : compute.addressRegisters = [])
    (hplain : NoTemporary operand) :
    (loads ++ (compute :: storeOf operand value)).Pairwise Safe := by
  have hstore : ∀ op, ∀ use ∈ storeOf operand value, Safe op use := by
    intro op use huse
    refine safe_of_machine_address ?_
    exact fun number haddress => hplain number (storeOf_addresses huse haddress)
  refine List.pairwise_append.mpr ⟨hloads, List.pairwise_cons.mpr ⟨hstore compute,
    storeOf_pairwise⟩, ?_⟩
  intro op hop use huse
  obtain rfl | huse := List.mem_cons.mp huse
  · exact safe_of_no_address hcompute
  · exact hstore op use huse

/-- The value of an operand with a scaled index is loaded into the temporary of the
index. -/
theorem destroys_of_scaled {loads : List Instruction} {register : BaseOperand}
    (middle : List Instruction) (htemp : temporaryOf operand = some register)
    (h : Valued t operand loads value t') :
    Destroys (loads ++ (middle ++ storeOf operand value)) := by
  cases h with
  | direct hno =>
    cases operand with
    | base => cases htemp
    | memory => cases hno
  | fresh hmem hnone =>
    rw [hnone] at htemp
    cases htemp
  | @reused n hmem htemp' =>
    obtain ⟨n', hn', htemporary, hregister⟩ := temporaryOf_spec htemp'
    cases hn'
    refine ⟨[], getLoadInstruction operand (integerRegister n), _,
      getStoreInstruction operand (integerRegister n), n, rfl, htemporary,
      overwrites_load.mpr rfl, (addresses_load hmem).mpr hregister, ?_,
      (addresses_store hmem).mpr hregister⟩
    refine List.mem_append_right _ (List.mem_append_right _ ?_)
    rw [storeOf, if_pos hmem]
    exact List.mem_singleton_self _

theorem integerALUImplicitDestination_spec (h1 : Settled t operand1Str (some operand1))
    (h2 : Settled t operand2Str (some operand2))
    (h : integerALUImplicitDestination (some operand1) (some operand2) none t = .ok t') :
    ∃ microOps, t'.instructionList = t.instructionList ++ microOps ∧
      (∀ op ∈ microOps, ∀ number, op.Addresses number →
        (RegisterType.integer, number) ∈ operand1.registers ∨
          (RegisterType.integer, number) ∈ operand2.registers) ∧
      (¬ Scaled operand1Str → microOps.Pairwise Safe) ∧
      (Scaled operand1Str → Destroys microOps) := by
  simp only [integerALUImplicitDestination] at h
  split at h
  case isFalse => cases h
  case isTrue =>
    obtain ⟨⟨value1, t₁⟩, hvalue1, h⟩ := bind_eq_ok.mp h
    obtain ⟨⟨value2, t₂⟩, hvalue2, h⟩ := bind_eq_ok.mp h
    cases h
    obtain ⟨loads1, hloads1⟩ := valueOperand_spec hvalue1
    obtain ⟨loads2, hloads2⟩ := valueOperand_spec hvalue2
    refine ⟨loads1 ++ loads2 ++ (getIntALUInstruction (some value2) (some value1) (some value1) ::
      storeOf operand1 value1), ?_, ?_, ?_, ?_⟩
    · rw [storeValue_list, Translation.appendInstruction, hloads2.list_eq, hloads1.list_eq]
      simp
    · intro op hop number haddress
      obtain hop | hop := List.mem_append.mp hop
      · obtain hop | hop := List.mem_append.mp hop
        · exact Or.inl (hloads1.addresses hop haddress)
        · exact Or.inr (hloads2.addresses hop haddress)
      · obtain rfl | hop := List.mem_cons.mp hop
        · exact absurd haddress List.not_mem_nil
        · exact Or.inl (storeOf_addresses hop haddress)
    · intro hscaled
      have hplain := h1.plain hscaled _ rfl
      refine safe_readModifyWrite ?_ rfl hplain
      refine List.pairwise_append.mpr ⟨hloads1.pairwise, hloads2.pairwise, ?_⟩
      intro op hop use huse
      refine safe_of_fresh (n := t.numTempIntRegister)
        (fun number hwrite => hloads1.overwrites hplain hop hwrite) ?_
      exact fun number haddress => h2.bounded _ rfl number (hloads2.addresses huse haddress)
    · intro hscaled
      obtain ⟨operand, register, hoperand, htemp⟩ := h1.scaled hscaled
      cases hoperand
      have hdestroys := destroys_of_scaled
        (loads2 ++ [getIntALUInstruction (some value2) (some value1) (some value1)]) htemp hloads1
      simpa using hdestroys

theorem singleOperandIntALU_spec (h1 : Settled t operand1Str (some operand1))
    (h : singleOperandIntALU (some operand1) none none t = .ok t') :
    ∃ microOps, t'.instructionList = t.instructionList ++ microOps ∧
      (¬ Scaled operand1Str → microOps.Pairwise Safe) ∧
      (Scaled operand1Str → Destroys microOps) := by
  simp only [singleOperandIntALU] at h
  split at h
  case isFalse => cases h
  case isTrue =>
    obtain ⟨⟨value1, t₁⟩, hvalue1, h⟩ := bind_eq_ok.mp h
    cases h
    obtain ⟨loads1, hloads1⟩ := valueOperand_spec hvalue1
    refine ⟨loads1 ++ (getIntALUInstruction none (some value1) (some value1) ::
      storeOf operand1 value1), ?_, ?_, ?_⟩
    · rw [storeValue_list, Translation.appendInstruction, hloads1.list_eq]
      simp
    · intro hscaled
      exact safe_readModifyWrite hloads1.pairwise rfl (h1.plain hscaled _ rfl)
    · intro hscaled
      obtain ⟨operand, register, hoperand, htemp⟩ := h1.scaled hscaled
      cases hoperand
      have hdestroys := destroys_of_scaled
        [getIntALUInstruction none (some value1) (some value1)] htemp hloads1
      simpa using hdestroys

/-- A register operand is a register of the machine. -/
theorem Settled.register_lt (h : Settled t operand1Str (some (integerRegister n))) : n < 29 := by
  have hscaled : ¬ Scaled operand1Str := by
    intro hscaled
    obtain ⟨operand, register, hoperand, htemp⟩ := h.scaled hscaled
    cases hoperand
    cases htemp
  refine h.plain hscaled _ rfl n ?_
  simp [integerRegister, Operand.registers, BaseOperand.register?]

theorem integerMultiplication_spec {o1 o2 o3 : Option Operand}
    (h : integerMultiplication o1 o2 o3 t = .ok t') :
    ∃ microOps, t'.instructionList = t.instructionList ++ microOps ∧ microOps.Pairwise Safe := by
  have hload : ∀ {operand value t₁ source source' destination loads},
      Valued t operand loads value t₁ →
        ∃ microOps, (t₁.appendInstruction (getIntegerMultiplicationInstruction source source'
          destination)).instructionList = t.instructionList ++ microOps ∧
            microOps.Pairwise Safe := by
    intro operand value t₁ source source' destination loads hloads
    refine ⟨loads ++ [getIntegerMultiplicationInstruction source source' destination], ?_, ?_⟩
    · rw [Translation.appendInstruction, hloads.list_eq]
      simp
    · refine List.pairwise_append.mpr ⟨hloads.pairwise, List.pairwise_singleton _ _, ?_⟩
      intro op _ use huse
      rw [List.mem_singleton.mp huse]
      exact safe_of_no_address rfl
  rw [integerMultiplication.eq_def] at h
  split at h
  case h_4 => cases h
  all_goals
    split at h
    case isFalse => cases h
    case isTrue =>
      obtain ⟨⟨value, t₁⟩, hvalue, h⟩ := bind_eq_ok.mp h
      cases h
      obtain ⟨loads, hloads⟩ := valueOperand_spec hvalue
      exact hload hloads

/-- The stack pointer is the address of the stack, and no temporary. -/
theorem stackPointerLocation_address
    (h : (RegisterType.integer, number) ∈ stackPointerLocation.registers) : number < 29 := by
  obtain h | h := mem_registers_memory.mp h <;> cases h
  decide

theorem push_spec {o1 o2 o3 : Option Operand} (h : push o1 o2 o3 t = .ok t') :
    ∃ microOps, t'.instructionList = t.instructionList ++ microOps ∧ microOps.Pairwise Safe := by
  rw [push.eq_def] at h
  split at h
  case h_2 => cases h
  case h_1 operand1 =>
    split at h
    case isFalse => cases h
    case isTrue =>
      obtain ⟨⟨value, t₁⟩, hvalue, h⟩ := bind_eq_ok.mp h
      cases h
      obtain ⟨loads, hloads⟩ := valueOperand_spec hvalue
      refine ⟨loads ++ (getIntALUInstruction (some stackPointer) (some (.base .immediate))
        (some stackPointer) :: storeOf stackPointerLocation value), ?_, ?_⟩
      · simp only [Translation.appendInstruction, hloads.list_eq]
        simp [storeOf, isMemoryOperand, stackPointerLocation]
      · exact safe_readModifyWrite hloads.pairwise rfl
          (fun number hnumber => stackPointerLocation_address hnumber)

theorem pop_spec (h1 : Settled t operand1Str (some operand1))
    (h : pop (some operand1) none none t = .ok t') :
    ∃ microOps, t'.instructionList = t.instructionList ++ microOps ∧ microOps.Pairwise Safe := by
  simp only [pop] at h
  split at h
  case isFalse => cases h
  case isTrue =>
    split at h
    case isTrue hmem =>
      obtain ⟨⟨register, t₂⟩, htemp, h⟩ := bind_eq_ok.mp h
      obtain ⟨-, rfl, rfl⟩ := getTempIntReg_spec htemp
      cases h
      refine ⟨[getLoadInstruction stackPointerLocation
          (integerRegister (29 + t.numTempIntRegister)),
        getStoreInstruction operand1 (integerRegister (29 + t.numTempIntRegister)),
        getIntALUInstruction (some stackPointer) (some (.base .immediate)) (some stackPointer)],
        by simp [Translation.appendInstruction, integerRegister], ?_⟩
      have hstore : ∀ number, (getStoreInstruction operand1
          (integerRegister (29 + t.numTempIntRegister))).Addresses number →
            number < 29 + t.numTempIntRegister :=
        fun number haddress => h1.bounded _ rfl number ((addresses_store hmem).mp haddress)
      simp only [List.pairwise_cons, List.mem_cons, List.not_mem_nil, or_false, forall_eq_or_imp,
        forall_eq, false_implies, implies_true, List.Pairwise.nil, and_true]
      exact ⟨⟨safe_of_fresh (fun number hwrite => overwrites_load.mp hwrite) hstore,
        safe_of_no_address rfl⟩, safe_of_no_address rfl⟩
    case isFalse =>
      cases h
      refine ⟨[getLoadInstruction stackPointerLocation operand1,
        getIntALUInstruction (some stackPointer) (some (.base .immediate)) (some stackPointer)],
        by simp [Translation.appendInstruction], ?_⟩
      exact List.pairwise_pair.mpr (safe_of_no_address rfl)

/-- What an exchange appends writes the machine's registers and one new temporary. -/
structure Exchanged (t t' : Translation) (microOps : List Instruction) : Prop where
  list_eq : t'.instructionList = t.instructionList ++ microOps
  le : t.numTempIntRegister ≤ t'.numTempIntRegister
  pairwise : microOps.Pairwise Safe
  overwrites : ∀ op ∈ microOps, ∀ number, op.Overwrites number →
    number < 29 ∨ number = 29 + t.numTempIntRegister

theorem overwrites_move : (getMoveInstruction (integerRegister n) value).Overwrites number ↔
    number = n := by
  simp [Instruction.Overwrites, Instruction.destinations, getMoveInstruction, integerRegister,
    Operand.register?, BaseOperand.register?]

theorem overwrites_exchange {n' : ℕ} (h : (getExchangeInstruction n n').Overwrites number) :
    number = n ∨ number = n' := by
  simp only [Instruction.Overwrites, Instruction.destinations, getExchangeInstruction,
    integerRegister, Operand.register?, BaseOperand.register?, Option.bind_some] at h
  split at h
  · exact Or.inl (by simpa using h)
  · simpa using h

theorem exchangeMemory_spec (hoperand : Bounded t.numTempIntRegister operand)
    (hmem : isMemoryOperand operand = true) (hn : n < 29)
    (h : exchangeMemory operand n t = .ok t') : ∃ microOps, Exchanged t t' microOps := by
  obtain ⟨⟨register, t₁⟩, htemp, h⟩ := bind_eq_ok.mp h
  obtain ⟨-, rfl, rfl⟩ := getTempIntReg_spec htemp
  cases h
  refine ⟨[getLoadInstruction operand (integerRegister (29 + t.numTempIntRegister)),
    getStoreInstruction operand (integerRegister n),
    getMoveInstruction (integerRegister n) (integerRegister (29 + t.numTempIntRegister))],
    by simp [Translation.appendInstruction, integerRegister], Nat.le_succ _, ?_, ?_⟩
  · have hstore : ∀ number, (getStoreInstruction operand (integerRegister n)).Addresses number →
        number < 29 + t.numTempIntRegister :=
      fun number haddress => hoperand number ((addresses_store hmem).mp haddress)
    simp only [List.pairwise_cons, List.mem_cons, List.not_mem_nil, or_false, forall_eq_or_imp,
      forall_eq, false_implies, implies_true, List.Pairwise.nil, and_true]
    exact ⟨⟨safe_of_fresh (fun number hwrite => overwrites_load.mp hwrite) hstore,
      safe_of_no_address rfl⟩, safe_of_no_address rfl⟩
  · intro op hop number hwrite
    simp only [List.mem_cons, List.not_mem_nil, or_false] at hop
    obtain rfl | rfl | rfl := hop
    · exact Or.inr (overwrites_load.mp hwrite)
    · exact absurd hwrite overwrites_store
    · exact Or.inl (overwrites_move.mp hwrite ▸ hn)

theorem exchange_spec {o1 o2 o3 : Option Operand} (h1 : Settled t operand1Str o1)
    (h2 : Settled t operand2Str o2) (h : exchange o1 o2 o3 t = .ok t') :
    ∃ microOps, Exchanged t t' microOps := by
  rw [exchange.eq_def] at h
  split at h
  case h_1 register register' =>
    cases h
    refine ⟨[getExchangeInstruction register register'], rfl, Nat.le_refl _,
      List.pairwise_singleton _ _, ?_⟩
    intro op hop number hwrite
    rw [List.mem_singleton.mp hop] at hwrite
    have hlt1 := Settled.register_lt h1
    have hlt2 := Settled.register_lt h2
    obtain rfl | rfl := overwrites_exchange hwrite
    · exact Or.inl hlt1
    · exact Or.inl hlt2
  case h_2 first second register =>
    exact exchangeMemory_spec (h1.bounded _ rfl) rfl (Settled.register_lt h2) h
  case h_3 register first second =>
    exact exchangeMemory_spec (h2.bounded _ rfl) rfl (Settled.register_lt h1) h
  case h_4 =>
    obtain ⟨-, -, h⟩ := bind_eq_ok.mp h
    cases h
  case h_5 => cases h

theorem Destroys.append_left {microOps : List Instruction} (h : Destroys microOps)
    (front : List Instruction) : Destroys (front ++ microOps) := by
  obtain ⟨before, load, after, store, number, rfl, h⟩ := h
  exact ⟨front ++ before, load, after, store, number, by simp, h⟩

theorem exchangeAndAdd_spec {o1 o2 o3 : Option Operand} (h1 : Settled t operand1Str o1)
    (h2 : Settled t operand2Str o2) (h : exchangeAndAdd o1 o2 o3 t = .ok t') :
    ∃ microOps, t'.instructionList = t.instructionList ++ microOps ∧
      (¬ Scaled operand2Str → microOps.Pairwise Safe) ∧
      (Scaled operand2Str → Destroys microOps) := by
  obtain ⟨t₁, hexchange, hadd⟩ := bind_eq_ok.mp h
  obtain ⟨exchanged, hexchanged⟩ := exchange_spec h1 h2 hexchange
  rw [integerALUImplicitDestination.eq_def] at hadd
  split at hadd
  case h_2 => cases hadd
  case h_1 operand2 operand1 =>
    obtain ⟨added, hlist, haddresses, hsafe, hdestroys⟩ :=
      integerALUImplicitDestination_spec (h2.mono hexchanged.le) (h1.mono hexchanged.le) hadd
    refine ⟨exchanged ++ added, by rw [hlist, hexchanged.list_eq, List.append_assoc], ?_, ?_⟩
    · intro hscaled
      refine List.pairwise_append.mpr ⟨hexchanged.pairwise, hsafe hscaled, ?_⟩
      intro op hop use huse number htemp hwrite haddress
      have hge := temporary_ge htemp
      have hbound : number < 29 + t.numTempIntRegister := by
        obtain h | h := haddresses use huse number haddress
        · exact h2.bounded _ rfl number h
        · exact h1.bounded _ rfl number h
      obtain h | h := hexchanged.overwrites op hop number hwrite <;> omega
    · exact fun hscaled => (hdestroys hscaled).append_left exchanged

theorem not_scaled_none : ¬ Scaled none := by
  intro h
  obtain ⟨s, -, -, hs, -⟩ := h
  cases hs

theorem handler_spec (c : InstructionClass) {o1 o2 o3 : Option Operand}
    (h1 : Settled t operand1Str o1) (h2 : Settled t operand2Str o2)
    (h : c.handler o1 o2 o3 t = .ok t') :
    ∃ microOps, t'.instructionList = t.instructionList ++ microOps ∧
      (¬ Scaled (c.rewrites operand1Str operand2Str) → microOps.Pairwise Safe) ∧
      (Scaled (c.rewrites operand1Str operand2Str) → Destroys microOps) := by
  have hsafe : (∃ microOps, t'.instructionList = t.instructionList ++ microOps ∧
      microOps.Pairwise Safe) → ∃ microOps,
        t'.instructionList = t.instructionList ++ microOps ∧
          (¬ Scaled none → microOps.Pairwise Safe) ∧ (Scaled none → Destroys microOps) := by
    intro h
    obtain ⟨microOps, hlist, hpairwise⟩ := h
    exact ⟨microOps, hlist, fun _ => hpairwise, fun h => absurd h not_scaled_none⟩
  cases c with
  | integerALUImplicitDestination =>
    have hcopy := h
    rw [InstructionClass.handler, integerALUImplicitDestination.eq_def] at h
    split at h
    case h_2 => cases h
    case h_1 =>
      obtain ⟨microOps, hlist, -, h⟩ := integerALUImplicitDestination_spec h1 h2 hcopy
      exact ⟨microOps, hlist, h⟩
  | singleOperandIntegerALU =>
    have hcopy := h
    rw [InstructionClass.handler, singleOperandIntALU.eq_def] at h
    split at h
    case h_2 => cases h
    case h_1 => exact singleOperandIntALU_spec h1 hcopy
  | exchange =>
    obtain ⟨microOps, hexchanged⟩ := exchange_spec h1 h2 h
    exact hsafe ⟨microOps, hexchanged.list_eq, hexchanged.pairwise⟩
  | exchangeAndAdd => exact exchangeAndAdd_spec h1 h2 h
  | push => exact hsafe (push_spec h)
  | pop =>
    have hcopy := h
    rw [InstructionClass.handler, pop.eq_def] at h
    split at h
    case h_2 => cases h
    case h_1 => exact hsafe (pop_spec h1 hcopy)
  | integerMultiplication => exact hsafe (integerMultiplication_spec h)

end Appends

/-! ## The data flow of addresses -/

section Flow

variable {c : InstructionClass} {operand1Str operand2Str operand3Str : Option Text}
  {microOps : List Instruction}

/-- The addresses of a translated instruction are kept exactly when the operand that the
handler rewrites has no scaled index. -/
theorem address_flow_iff (hx1 : IsX86 operand1Str) (hx2 : IsX86 operand2Str)
    (hx3 : IsX86 operand3Str)
    (h : translate c.handler operand1Str operand2Str operand3Str = .ok microOps) :
    AddressFlow microOps ↔ ¬ Scaled (c.rewrites operand1Str operand2Str) := by
  obtain ⟨operand1, operand2, operand3, t, t', hhandler, rfl, ht, h1, h2, -⟩ :=
    translate_cases hx1 hx2 hx3 h
  obtain ⟨appended, hlist, hsafe, hdestroys⟩ := handler_spec c h1 h2 hhandler
  rw [hlist]
  constructor
  · intro hflow hscaled
    obtain ⟨before, load, after, store, number, rfl, htemp, hwrite, haddress, hstore, huse⟩ :=
      hdestroys hscaled
    have hops : t.instructionList ++ (before ++ load :: after) =
        (t.instructionList ++ before) ++ load :: after := by rw [List.append_assoc]
    exact not_kept hops htemp hwrite haddress hstore huse hflow.1
  · intro hscaled
    have hkept := kept_of_safe ht (hsafe hscaled)
    exact ⟨hkept, sameAddress_of_kept hkept⟩

/-- `add [rax+0x8], rcx` loads and stores through a temporary that is no part of the
address. -/
theorem address_flow_displacement :
    AddressFlow
        [getLoadInstruction (.memory (some (.register .integer 0)) (some .immediate))
          (integerRegister 29),
        getIntALUInstruction (some (integerRegister 2)) (some (integerRegister 29))
          (some (integerRegister 29)),
        getStoreInstruction (.memory (some (.register .integer 0)) (some .immediate))
          (integerRegister 29)] ↔
      ¬ Scaled (some "[rax+0x8]".toList) := by
  have htranslate : translate InstructionClass.integerALUImplicitDestination.handler
      (some "[rax+0x8]".toList) (some "rcx".toList) none = .ok
        [getLoadInstruction (.memory (some (.register .integer 0)) (some .immediate))
          (integerRegister 29),
        getIntALUInstruction (some (integerRegister 2)) (some (integerRegister 29))
          (some (integerRegister 29)),
        getStoreInstruction (.memory (some (.register .integer 0)) (some .immediate))
          (integerRegister 29)] := by decide +kernel
  refine address_flow_iff ?_ ?_ ?_ htranslate
  · intro s hs
    cases hs
    decide +kernel
  · intro s hs
    cases hs
    decide +kernel
  · intro s hs
    cases hs

/-- `add [rax+rbx*4], rcx` loads the value into the temporary of the scaled index, and the
store then uses the sum as its address. -/
theorem scaled_destination_loses_address :
    ∃ microOps, translate InstructionClass.integerALUImplicitDestination.handler
        (some "[rax+rbx*4]".toList) (some "rcx".toList) none = .ok microOps ∧
      ¬ AddressFlow microOps := by
  refine ⟨[getIntALUInstruction (some (integerRegister 1)) (some (.base .immediate))
      (some (integerRegister 29))] ++
    getLoadInstruction (.memory (some (.register .integer 0)) (some (.register .integer 29)))
      (integerRegister 29) ::
    [getIntALUInstruction (some (integerRegister 2)) (some (integerRegister 29))
      (some (integerRegister 29)),
    getStoreInstruction (.memory (some (.register .integer 0)) (some (.register .integer 29)))
      (integerRegister 29)], by decide +kernel, ?_⟩
  intro hflow
  have htemp : IsTemporary 29 := rfl
  refine not_kept rfl htemp (overwrites_load.mpr rfl) ?_
    (List.mem_cons_of_mem _ List.mem_cons_self) ?_ hflow.1
  · exact (addresses_load rfl).mpr (mem_registers_memory.mpr (Or.inr rfl))
  · exact (addresses_store rfl).mpr (mem_registers_memory.mpr (Or.inr rfl))

end Flow

end X86

end Tejas
