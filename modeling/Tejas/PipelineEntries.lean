import Tejas.ReorderBuffer

/-!
# What an entry waits for and what it writes

The registers that an instruction reads are the parts of its source operands, each with
the physical register it was renamed to and a flag for its value. The registers that it
writes are paired with the physical registers that were allocated for them.
-/

namespace Tejas

/-- A register that an instruction reads. -/
structure SourcePart where
  register : RegisterType × ℕ
  phyReg : Option ℕ
  ready : Bool
  deriving DecidableEq, Repr

namespace OperandStatus

variable {status : OperandStatus} {opnd : Option Operand} {opndType : OperandType}
  {p : Option ℕ} {part : SourcePart}

/-- A part of an operand is ready when its own flag is set or the operand is available. -/
def parts (status : OperandStatus) : Option Operand → List SourcePart
  | some (.base o) =>
    (o.register?.map fun r => ⟨r, status.phyReg1, status.available⟩).toList
  | some (.memory first second) =>
    ((first.bind BaseOperand.register?).map fun r =>
      ⟨r, status.phyReg1, status.available || status.available1⟩).toList ++
    ((second.bind BaseOperand.register?).map fun r =>
      ⟨r, status.phyReg2, status.available || status.available2⟩).toList
  | none => []

/-- The flags of what is not a register are set, and an address whose parts are all there
is available. -/
def Coherent (status : OperandStatus) : Option Operand → Prop
  | some (.memory first second) =>
    (first.bind BaseOperand.register? = none → status.available1 = true) ∧
    (second.bind BaseOperand.register? = none → status.available2 = true) ∧
    (status.available1 = true → status.available2 = true → status.available = true)
  | some (.base .immediate) => status.available = true
  | some (.base _) => True
  | none => status.available = true

/-- The announced result has the type of a memory operand, and the missing operand is a
memory operand whose first part has the announced register. -/
def Blind (status : OperandStatus) (opnd : Option Operand) (opndType : OperandType)
    (p : Option ℕ) : Prop :=
  status.available = false ∧ opnd.map Operand.operandType = some .memory ∧
    opndType = .memory ∧ status.phyReg1 = p

instance (status : OperandStatus) (opnd : Option Operand) (opndType : OperandType)
    (p : Option ℕ) : Decidable (status.Blind opnd opndType p) :=
  inferInstanceAs (Decidable (_ ∧ _ ∧ _ ∧ _))

theorem parts_register (status : OperandStatus) (opnd : Option Operand) :
    (status.parts opnd).map SourcePart.register = opnd.toList.flatMap Operand.registers := by
  match opnd with
  | none => rfl
  | some (.base o) => cases h : o.register? <;> simp [parts, Operand.registers, h]
  | some (.memory first second) =>
    cases h : first.bind BaseOperand.register? <;>
      cases h' : second.bind BaseOperand.register? <;>
      simp [parts, Operand.registers, h, h']

/-- The parts of an available operand are ready. -/
theorem ready_of_available (h : status.available = true) (hpart : part ∈ status.parts opnd) :
    part.ready = true := by
  match opnd with
  | none => cases hpart
  | some (.base o) =>
    cases hr : o.register? <;> simp_all [parts]
  | some (.memory first second) =>
    cases hr : first.bind BaseOperand.register? <;>
      cases hr' : second.bind BaseOperand.register? <;> simp_all [parts]
    rcases hpart with rfl | rfl <;> rfl

/-- An operand that is not available waits for a register. -/
theorem Coherent.missing (h : status.Coherent opnd) (hopnd : opnd ≠ some (.base .inValid))
    (hmissing : status.available = false) : ∃ part ∈ status.parts opnd, part.ready = false := by
  match opnd with
  | none => simp [Coherent, hmissing] at h
  | some (.base (.register type value)) =>
    exact ⟨⟨(type, value), status.phyReg1, status.available⟩, List.mem_singleton_self _, hmissing⟩
  | some (.base .immediate) => simp [Coherent, hmissing] at h
  | some (.base .inValid) => exact absurd rfl hopnd
  | some (.memory first second) =>
    obtain ⟨hfirst, hsecond, hboth⟩ := h
    cases h₁ : status.available1 with
    | false =>
      cases hr : first.bind BaseOperand.register? with
      | none => simp [hfirst hr] at h₁
      | some r => exact ⟨⟨r, status.phyReg1, false⟩, by simp [parts, hr, hmissing, h₁], rfl⟩
    | true =>
      cases h₂ : status.available2 with
      | false =>
        cases hr : second.bind BaseOperand.register? with
        | none => simp [hsecond hr] at h₂
        | some r => exact ⟨⟨r, status.phyReg2, false⟩, by simp [parts, hr, hmissing, h₂], rfl⟩
      | true => simp [hboth h₁ h₂] at hmissing

theorem coherent_of_register {r : RegisterType × ℕ}
    (h : opnd.bind Operand.register? = some r) : status.Coherent opnd := by
  match opnd with
  | none => cases h
  | some (.base (.register _ _)) => trivial
  | some (.base .immediate) => cases h
  | some (.base .inValid) => trivial
  | some (.memory _ _) => cases h

theorem Coherent.wake (h : status.Coherent opnd) :
    (status.wake opnd opndType p).Coherent opnd := by
  rw [OperandStatus.wake.eq_def]
  split
  · exact h
  · match opnd with
    | none => exact h
    | some (.base o) =>
      simp only
      split
      · cases o <;> simp [Coherent]
      · exact h
    | some (.memory first second) =>
      obtain ⟨hfirst, hsecond, -⟩ := h
      refine ⟨fun hr => ?_, fun hr => ?_, fun h₁ h₂ => ?_⟩
      · simp [hfirst hr]
      · simp [hsecond hr]
      · simp only at h₁ h₂ ⊢
        simp [h₁, h₂]

@[simp] theorem wake_phyReg1 : (status.wake opnd opndType p).phyReg1 = status.phyReg1 := by
  rw [wake.eq_def]
  split
  · rfl
  · split
    · rfl
    · split <;> rfl
    · rfl

@[simp] theorem wake_phyReg2 : (status.wake opnd opndType p).phyReg2 = status.phyReg2 := by
  rw [wake.eq_def]
  split
  · rfl
  · split
    · rfl
    · split <;> rfl
    · rfl

theorem matches_of_register {o : Option BaseOperand} {r : RegisterType × ℕ} {q : Option ℕ}
    (hr : o.bind BaseOperand.register? = some r) :
    BaseOperand.Matches o q opndType p = decide (r.1.operandType = opndType ∧ q = p) := by
  cases o with
  | none => cases hr
  | some o =>
    cases o with
    | register type value =>
      obtain rfl := Option.some.inj hr
      rfl
    | immediate => cases hr
    | inValid => cases hr

/-- A part that is still missing was missing before, and its value was not announced. -/
theorem missing_of_wake (hpart : part ∈ (status.wake opnd opndType p).parts opnd)
    (hmissing : part.ready = false) :
    part ∈ status.parts opnd ∧ ¬ (part.register.1.operandType = opndType ∧ part.phyReg = p) := by
  rw [wake.eq_def] at hpart
  split at hpart
  · rename_i havailable
    rw [ready_of_available havailable hpart] at hmissing
    cases hmissing
  rename_i havailable
  rw [Bool.not_eq_true] at havailable
  match opnd with
  | none => cases hpart
  | some (.base o) =>
    cases hr : o.register? with
    | none => simp [parts, hr] at hpart
    | some r =>
      have hmatch : BaseOperand.Matches (some o) status.phyReg1 opndType p =
          decide (r.1.operandType = opndType ∧ status.phyReg1 = p) := matches_of_register hr
      by_cases hm : r.1.operandType = opndType ∧ status.phyReg1 = p
      · rw [decide_eq_true hm] at hmatch
        simp only [hmatch, ↓reduceIte, parts, hr, Option.map_some, Option.toList_some,
          List.mem_singleton] at hpart
        subst hpart
        cases hmissing
      · rw [decide_eq_false hm] at hmatch
        simp only [hmatch, Bool.false_eq_true, ↓reduceIte] at hpart
        refine ⟨hpart, ?_⟩
        simp only [parts, hr, Option.map_some, Option.toList_some, List.mem_singleton] at hpart
        subst hpart
        exact hm
  | some (.memory first second) =>
    simp only [parts, List.mem_append, Option.mem_toList, Option.map_eq_some_iff] at hpart ⊢
    rcases hpart with ⟨r, hr, rfl⟩ | ⟨r, hr, rfl⟩
    · have hflag := hmissing
      simp only [matches_of_register hr, Bool.or_eq_false_iff, decide_eq_false_iff_not] at hmissing
      have hold : (status.available || status.available1) = false := by
        rw [havailable, hmissing.2.1, Bool.or_false]
      exact ⟨.inl ⟨r, hr, congrArg (SourcePart.mk r _) (hold.trans hflag.symm)⟩, hmissing.2.2⟩
    · have hflag := hmissing
      simp only [matches_of_register hr, Bool.or_eq_false_iff, decide_eq_false_iff_not] at hmissing
      have hold : (status.available || status.available2) = false := by
        rw [havailable, hmissing.2.1, Bool.or_false]
      exact ⟨.inr ⟨r, hr, congrArg (SourcePart.mk r _) (hold.trans hflag.symm)⟩, hmissing.2.2⟩

/-- A part that is ready now was ready before, or its value was announced, unless the
operand was woken blindly. -/
theorem ready_of_wake (h : status.Coherent opnd) (hblind : ¬ status.Blind opnd opndType p)
    (hpart : part ∈ (status.wake opnd opndType p).parts opnd) (hready : part.ready = true) :
    ∃ old ∈ status.parts opnd, old.register = part.register ∧ old.phyReg = part.phyReg ∧
      (old.ready = true ∨ part.register.1.operandType = opndType ∧ part.phyReg = p) := by
  rw [wake.eq_def] at hpart
  split at hpart
  · exact ⟨part, hpart, rfl, rfl, .inl hready⟩
  rename_i havailable
  rw [Bool.not_eq_true] at havailable
  match opnd with
  | none => cases hpart
  | some (.base o) =>
    cases hr : o.register? with
    | none => simp [parts, hr] at hpart
    | some r =>
      have hmatch : BaseOperand.Matches (some o) status.phyReg1 opndType p =
          decide (r.1.operandType = opndType ∧ status.phyReg1 = p) := matches_of_register hr
      refine ⟨⟨r, status.phyReg1, status.available⟩, by simp [parts, hr], ?_⟩
      by_cases hm : r.1.operandType = opndType ∧ status.phyReg1 = p
      · rw [decide_eq_true hm] at hmatch
        simp only [hmatch, ↓reduceIte, parts, hr, Option.map_some, Option.toList_some,
          List.mem_singleton] at hpart
        subst hpart
        exact ⟨rfl, rfl, .inr hm⟩
      · rw [decide_eq_false hm] at hmatch
        simp only [hmatch, Bool.false_eq_true, ↓reduceIte, parts, hr, Option.map_some,
          Option.toList_some, List.mem_singleton] at hpart
        subst hpart
        exact ⟨rfl, rfl, .inl hready⟩
  | some (.memory first second) =>
    have hnot : ¬ (opndType = .memory ∧ status.phyReg1 = p) := fun hm =>
      hblind ⟨havailable, rfl, hm.1, hm.2⟩
    obtain ⟨hfirst, hsecond, hboth⟩ := h
    have hor : ∀ a b : Bool, (decide (opndType = .memory ∧ status.phyReg1 = p) || a && b ||
        a) = a := by
      intro a b
      rw [decide_eq_false hnot]
      cases a <;> cases b <;> rfl
    have hor' : ∀ a b : Bool, (decide (opndType = .memory ∧ status.phyReg1 = p) || a && b ||
        b) = b := by
      intro a b
      rw [decide_eq_false hnot]
      cases a <;> cases b <;> rfl
    simp only [parts, List.mem_append, Option.mem_toList, Option.map_eq_some_iff] at hpart ⊢
    rcases hpart with ⟨r, hr, rfl⟩ | ⟨r, hr, rfl⟩
    · refine ⟨_, .inl ⟨r, hr, rfl⟩, rfl, rfl, ?_⟩
      simp only [hor, matches_of_register hr, Bool.or_eq_true, decide_eq_true_eq] at hready ⊢
      exact hready.imp_left .inr
    · refine ⟨_, .inr ⟨r, hr, rfl⟩, rfl, rfl, ?_⟩
      simp only [hor', matches_of_register hr, Bool.or_eq_true, decide_eq_true_eq] at hready ⊢
      exact hready.imp_left .inr

end OperandStatus

namespace ReorderBufferEntry

variable {e e' : ReorderBufferEntry} {opndType : OperandType} {p : Option ℕ} {q : ℕ}

/-- The registers that the instruction of an entry reads. -/
def parts (e : ReorderBufferEntry) : List SourcePart :=
  e.operand1.parts e.instruction.sourceOperand1 ++ e.operand2.parts e.instruction.sourceOperand2

theorem parts_register (e : ReorderBufferEntry) :
    e.parts.map SourcePart.register = e.instruction.sources := by
  rw [parts, List.map_append, OperandStatus.parts_register, OperandStatus.parts_register]
  rfl

/-- The flags of both operands are in order. -/
def Coherent (e : ReorderBufferEntry) : Prop :=
  e.operand1.Coherent e.instruction.sourceOperand1 ∧
    e.operand2.Coherent e.instruction.sourceOperand2

/-- One of the operands would be woken blindly. -/
def Blind (e : ReorderBufferEntry) (opndType : OperandType) (p : Option ℕ) : Prop :=
  e.operand1.Blind e.instruction.sourceOperand1 opndType p ∨
    e.operand2.Blind e.instruction.sourceOperand2 opndType p

instance (e : ReorderBufferEntry) (opndType : OperandType) (p : Option ℕ) :
    Decidable (e.Blind opndType p) := inferInstanceAs (Decidable (_ ∨ _))

/-- The registers that an entry writes and the physical registers recorded for them. -/
def writes (e : ReorderBufferEntry) : List ((RegisterType × ℕ) × Option ℕ) :=
  match e.instruction.operationType with
  | .xchg =>
    match e.instruction.sourceOperand1.bind Operand.register?,
      e.instruction.sourceOperand2.bind Operand.register? with
    | some r₁, some r₂ =>
      if r₁ = r₂ then [(r₁, e.operand1.phyReg1)]
      else [(r₁, e.operand1.phyReg1), (r₂, e.operand2.phyReg1)]
    | _, _ => []
  | _ => ((e.instruction.destinationOperand.bind Operand.register?).map fun r =>
      (r, e.physicalDestinationRegister)).toList

/-- The physical registers that an entry writes. -/
def results (e : ReorderBufferEntry) : List (RegisterType × ℕ) :=
  e.writes.filterMap fun w => w.2.map fun p => (w.1.1, p)

/-- Every result has its register, and an exchange of a register with itself has one. -/
structure Complete (e : ReorderBufferEntry) : Prop where
  allocated : ∀ w ∈ e.writes, w.2.isSome = true
  exchange : e.instruction.operationType = .xchg →
    e.instruction.sourceOperand1.bind Operand.register? =
      e.instruction.sourceOperand2.bind Operand.register? →
    e.operand2.phyReg1 = e.operand1.phyReg1

/-- What the later stages leave as the rename stage has written it. -/
structure SameNames (e e' : ReorderBufferEntry) : Prop where
  instruction : e'.instruction = e.instruction
  threadID : e'.threadID = e.threadID
  operand1 : e'.operand1.phyReg1 = e.operand1.phyReg1
  operand2 : e'.operand2.phyReg1 = e.operand2.phyReg1
  physicalDestinationRegister : e'.physicalDestinationRegister = e.physicalDestinationRegister
  isRenameDone : e'.isRenameDone = e.isRenameDone

theorem SameNames.rfl : e.SameNames e := ⟨Eq.refl _, Eq.refl _, Eq.refl _, Eq.refl _, Eq.refl _,
  Eq.refl _⟩

theorem SameNames.trans {e'' : ReorderBufferEntry} (h : e.SameNames e') (h' : e'.SameNames e'') :
    e.SameNames e'' :=
  ⟨h'.instruction.trans h.instruction, h'.threadID.trans h.threadID, h'.operand1.trans h.operand1,
    h'.operand2.trans h.operand2,
    h'.physicalDestinationRegister.trans h.physicalDestinationRegister,
    h'.isRenameDone.trans h.isRenameDone⟩

theorem sameNames_wake (e : ReorderBufferEntry) (opndType : OperandType) (p : Option ℕ) :
    e.SameNames (e.wake opndType p) :=
  ⟨rfl, rfl, OperandStatus.wake_phyReg1, OperandStatus.wake_phyReg1, rfl, rfl⟩

theorem SameNames.writes (h : e.SameNames e') : e'.writes = e.writes := by
  simp only [ReorderBufferEntry.writes, h.instruction, h.operand1, h.operand2,
    h.physicalDestinationRegister]

theorem SameNames.results (h : e.SameNames e') : e'.results = e.results := by
  rw [ReorderBufferEntry.results, h.writes, ReorderBufferEntry.results]

theorem SameNames.complete (h : e.SameNames e') (hc : e.Complete) : e'.Complete := by
  refine ⟨?_, ?_⟩
  · rw [h.writes]
    exact hc.allocated
  · rw [h.instruction, h.operand1, h.operand2]
    exact hc.exchange

theorem writes_xchg {r₁ r₂ : RegisterType × ℕ} (h : e.instruction.operationType = .xchg)
    (h₁ : e.instruction.sourceOperand1.bind Operand.register? = some r₁)
    (h₂ : e.instruction.sourceOperand2.bind Operand.register? = some r₂) :
    e.writes = if r₁ = r₂ then [(r₁, e.operand1.phyReg1)]
      else [(r₁, e.operand1.phyReg1), (r₂, e.operand2.phyReg1)] := by
  simp only [writes, h, h₁, h₂]

theorem writes_of_ne (h : e.instruction.operationType ≠ .xchg) :
    e.writes = ((e.instruction.destinationOperand.bind Operand.register?).map fun r =>
      (r, e.physicalDestinationRegister)).toList := by
  rw [writes.eq_def]
  split
  · rename_i heq
    exact absurd heq h
  · rfl

theorem writes_fst (e : ReorderBufferEntry) :
    e.writes.map Prod.fst = e.instruction.destinations := by
  by_cases hx : e.instruction.operationType = .xchg
  · obtain ⟨r₁, r₂, h₁, h₂, -⟩ := Instruction.xchg_operands hx
    rw [writes_xchg hx h₁ h₂, Instruction.destinations_xchg hx h₁ h₂]
    split_ifs <;> rfl
  · rw [writes_of_ne hx, Instruction.destinations_of_ne hx]
    cases e.instruction.destinationOperand.bind Operand.register? <;> rfl

theorem mem_results : (type, q) ∈ e.results ↔ ∃ n, ((type, n), some q) ∈ e.writes := by
  rw [results, List.mem_filterMap]
  constructor
  · rintro ⟨⟨⟨type', n⟩, p⟩, hmem, heq⟩
    obtain ⟨p, rfl, heq⟩ := Option.map_eq_some_iff.mp heq
    obtain ⟨rfl, rfl⟩ := Prod.mk.inj heq
    exact ⟨n, hmem⟩
  · rintro ⟨n, hmem⟩
    exact ⟨_, hmem, rfl⟩

/-- An entry that writes the announced register has it among its results. -/
theorem Complete.mem_results_of_alsoWrites (h : e.Complete) {type : RegisterType}
    (halso : e.alsoWrites type.operandType (some q) = true) : (type, q) ∈ e.results := by
  have hregister : ∀ o : Option Operand, o.map Operand.operandType = some type.operandType →
      ∃ n, o.bind Operand.register? = some (type, n) := by
    intro o ho
    obtain ⟨o', rfl, htype⟩ := Option.map_eq_some_iff.mp ho
    exact Operand.operandType_eq_iff.mp htype
  rw [mem_results]
  simp only [alsoWrites, decide_eq_true_eq] at halso
  rcases halso with ⟨hp, hd⟩ | ⟨hx, h₁, hp⟩ | ⟨hx, h₂, hp⟩
  · obtain ⟨n, hn⟩ := hregister _ hd
    have hx : e.instruction.operationType ≠ .xchg := by
      intro hx
      obtain ⟨-, -, -, -, hdest⟩ := Instruction.xchg_operands hx
      rw [hdest] at hd
      cases hd
    exact ⟨n, by simp [writes_of_ne hx, hn, hp]⟩
  · obtain ⟨n, hn⟩ := hregister _ h₁
    obtain ⟨-, r₂, -, hr₂, -⟩ := Instruction.xchg_operands hx
    refine ⟨n, ?_⟩
    rw [writes_xchg hx hn hr₂, hp]
    split_ifs <;> exact List.mem_cons_self
  · obtain ⟨n, hn⟩ := hregister _ h₂
    obtain ⟨r₁, -, hr₁, -, -⟩ := Instruction.xchg_operands hx
    refine ⟨n, ?_⟩
    rw [writes_xchg hx hr₁ hn]
    split_ifs with heq
    · rw [← h.exchange hx (by rw [hr₁, hn, heq]), hp, heq]
      exact List.mem_singleton_self _
    · rw [hp]
      exact List.mem_cons_of_mem _ (List.mem_singleton_self _)

/-- An entry that has not been renamed has no results yet. -/
theorem results_fresh (instruction : Instruction) (threadID : ℕ) :
    (fresh instruction threadID).results = [] := by
  rw [results, List.filterMap_eq_nil_iff]
  intro w hw
  have hnone : w.2 = none := by
    by_cases hx : instruction.operationType = .xchg
    · obtain ⟨r₁, r₂, h₁, h₂, -⟩ := Instruction.xchg_operands hx
      rw [writes_xchg (e := fresh instruction threadID) hx h₁ h₂] at hw
      split_ifs at hw
      · rw [List.mem_singleton.mp hw]
        rfl
      · rcases List.mem_cons.mp hw with rfl | hw
        · rfl
        · rw [List.mem_singleton.mp hw]
          rfl
    · rw [writes_of_ne (e := fresh instruction threadID) hx] at hw
      obtain ⟨r, -, rfl⟩ := Option.map_eq_some_iff.mp (Option.mem_toList.mp hw)
      rfl
  rw [hnone]
  rfl

end ReorderBufferEntry

end Tejas
