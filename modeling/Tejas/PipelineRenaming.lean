import Tejas.OutOfOrderPipeline
import Tejas.PipelineEntries

/-!
# What the rename stage does

Renaming an instruction allocates a physical register for every register it writes, one
after the other, and looks its sources up in the tables before.
-/

namespace Tejas

theorem Except.bind_ok {ε α β : Type} {x : Except ε α} {f : α → Except ε β} {b : β}
    (h : x >>= f = .ok b) : ∃ a, x = .ok a ∧ f a = .ok b := by
  cases x with
  | error => cases h
  | ok a => exact ⟨a, rfl, h⟩

theorem Except.map_ok {ε α β : Type} {x : Except ε α} {f : α → β} {b : β}
    (h : x.map f = .ok b) : ∃ a, x = .ok a ∧ f a = b := by
  cases x with
  | error => cases h
  | ok a => exact ⟨a, rfl, Except.ok.inj h⟩

/-- The tables of both register files. -/
abbrev Tables := RegisterType → RenameTable

/-- Physical registers are allocated for registers of a thread, one after the other. -/
inductive Allocations (threadID : ℕ) :
    Tables → List ((RegisterType × ℕ) × ℕ) → Tables → Prop
  | nil {T : Tables} : Allocations threadID T [] T
  | cons {T T' : Tables} {r : RegisterType × ℕ} {p : ℕ} {t : RenameTable}
      {l : List ((RegisterType × ℕ) × ℕ)} (first : (T r.1).Allocated t threadID r.2 p)
      (rest : Allocations threadID (Function.update T r.1 t) l T') :
      Allocations threadID T ((r, p) :: l) T'

/-- The type and the physical register of an allocation. -/
def resultOf (w : (RegisterType × ℕ) × ℕ) : RegisterType × ℕ := (w.1.1, w.2)

namespace Allocations

variable {threadID j n p : ℕ} {T T' : Tables} {l : List ((RegisterType × ℕ) × ℕ)}
  {type : RegisterType} {r : RegisterType × ℕ}

theorem valid (h : Allocations threadID T l T') (hT : ∀ type, (T type).Valid)
    (type : RegisterType) : (T' type).Valid := by
  induction h generalizing type with
  | nil => exact hT type
  | @cons T T' r p t l first rest ih =>
    refine ih (fun type => ?_) type
    by_cases htype : type = r.1
    · subst htype
      rw [Function.update_self]
      exact first.valid
    · rw [Function.update_of_ne htype]
      exact hT type

theorem registerFile (h : Allocations threadID T l T') :
    (T' type).registerFile p = false ↔
      (T type).registerFile p = false ∨ (type, p) ∈ l.map resultOf := by
  induction h with
  | nil => simp
  | @cons T T' r q t l first rest ih =>
    rw [ih, List.map_cons, List.mem_cons]
    by_cases htype : type = r.1
    · subst htype
      rw [Function.update_self, first.registerFile]
      by_cases hp : p = q
      · simp [hp, resultOf]
      · simp [hp, resultOf]
    · rw [Function.update_of_ne htype]
      simp [resultOf, htype]

theorem valueValid (h : Allocations threadID T l T') :
    (T' type).valueValid p = true ↔
      (T type).valueValid p = true ∧ (type, p) ∉ l.map resultOf := by
  induction h with
  | nil => simp
  | @cons T T' r q t l first rest ih =>
    rw [ih, List.map_cons, List.mem_cons]
    by_cases htype : type = r.1
    · subst htype
      rw [Function.update_self, first.valueValid]
      by_cases hp : p = q
      · simp [hp, resultOf]
      · simp [hp, resultOf]
    · rw [Function.update_of_ne htype]
      simp [resultOf, htype]

theorem nPhyRegisters (h : Allocations threadID T l T') :
    (T' type).nPhyRegisters = (T type).nPhyRegisters := by
  induction h with
  | nil => rfl
  | @cons T T' r q t l first rest ih =>
    rw [ih]
    by_cases htype : type = r.1
    · subst htype
      rw [Function.update_self, first.nPhyRegisters]
    · rw [Function.update_of_ne htype]

theorem inBounds (h : Allocations threadID T l T') :
    (T' type).InBounds j n ↔ (T type).InBounds j n := by
  induction h with
  | nil => rfl
  | @cons T T' r q t l first rest ih =>
    rw [ih]
    by_cases htype : type = r.1
    · subst htype
      rw [Function.update_self, first.inBounds]
    · rw [Function.update_of_ne htype]

/-- The allocated registers were free, and are different. -/
theorem fresh (h : Allocations threadID T l T') :
    (l.map resultOf).Nodup ∧ ∀ type p, (type, p) ∈ l.map resultOf →
      p < (T type).nPhyRegisters ∧ (T type).registerFile p = true := by
  induction h with
  | nil => exact ⟨List.nodup_nil, fun _ _ h => absurd h List.not_mem_nil⟩
  | @cons T T' r q t l first rest ih =>
    obtain ⟨hnodup, hfree⟩ := ih
    have hnew : (r.1, q) ∉ l.map resultOf := by
      intro hmem
      have hfile := (hfree _ _ hmem).2
      rw [Function.update_self, first.registerFile, Function.update_self] at hfile
      cases hfile
    refine ⟨List.nodup_cons.mpr ⟨hnew, hnodup⟩, fun type p hmem => ?_⟩
    rcases List.mem_cons.mp hmem with heq | htail
    · obtain ⟨rfl, rfl⟩ := Prod.mk.inj heq
      exact ⟨first.bound, first.settled⟩
    · have hbefore := hfree type p htail
      by_cases htype : type = r.1
      · subst htype
        have hne : p ≠ q := by
          rintro rfl
          exact hnew htail
        rw [Function.update_self, first.registerFile, first.nPhyRegisters,
          Function.update_of_ne hne] at hbefore
        exact hbefore
      · rw [Function.update_of_ne htype] at hbefore
        exact hbefore

/-- Only the allocated registers of the thread are mapped anew. -/
theorem mapping_other (h : Allocations threadID T l T')
    (hother : j ≠ threadID ∨ (type, n) ∉ l.map Prod.fst) :
    (T' type).archToPhyMapping j n = (T type).archToPhyMapping j n := by
  induction h with
  | nil => rfl
  | @cons T T' r q t l first rest ih =>
    have htail : j ≠ threadID ∨ (type, n) ∉ l.map Prod.fst :=
      hother.imp_right fun h hmem => h (List.mem_cons_of_mem _ hmem)
    rw [ih htail]
    by_cases htype : type = r.1
    · subst htype
      rw [Function.update_self, first.archToPhyMapping, if_neg]
      rintro ⟨rfl, rfl⟩
      rcases hother with hj | hn
      · exact hj rfl
      · exact hn List.mem_cons_self
    · rw [Function.update_of_ne htype]

/-- An allocated register is mapped to what was allocated for it. -/
theorem mapping_self (h : Allocations threadID T l T') (hnodup : (l.map Prod.fst).Nodup)
    (hmem : (r, p) ∈ l) : (T' r.1).archToPhyMapping threadID r.2 = p := by
  induction h with
  | nil => cases hmem
  | @cons T T' r' q t l first rest ih =>
    obtain ⟨hnot, hrest⟩ := List.nodup_cons.mp hnodup
    rcases List.mem_cons.mp hmem with heq | hmem
    · obtain ⟨rfl, rfl⟩ := Prod.mk.inj heq
      rw [rest.mapping_other (.inr hnot), Function.update_self, first.archToPhyMapping,
        if_pos ⟨rfl, rfl⟩]
    · exact ih hrest hmem

end Allocations

namespace Pipeline

variable {s t : Pipeline} {e e' : ReorderBufferEntry} {threadID pos : ℕ}
  {opnd : Option Operand} {status : OperandStatus} {r : RegisterType × ℕ}

/-- With a free register the allocation succeeds. -/
theorem handleIntFloat_spec (h : (s.tables r.1).Valid)
    (hpos : 0 < (s.tables r.1).getAvailableListSize) {x : Option ℕ × Pipeline}
    (hok : s.handleIntFloat threadID r = .ok x) :
    ∃ p t, x = (some p, s.setTable r.1 t) ∧ (s.tables r.1).Allocated t threadID r.2 p := by
  rw [handleIntFloat] at hok
  obtain ⟨⟨allocated, t⟩, halloc, hok⟩ := Except.bind_ok hok
  have hhead : (s.tables r.1).availableListHead ≠ -1 := by
    intro heq
    rw [RenameTable.getAvailableListSize, heq, RingIndices.size_empty] at hpos
    exact absurd hpos (lt_irrefl 0)
  by_cases hname : (s.tables r.1).InBounds threadID r.2
  · obtain ⟨p, t', heq, hallocated⟩ :=
      RenameTable.allocatePhysicalRegister_spec h hname hpos
    rw [heq] at halloc
    obtain ⟨rfl, rfl⟩ := Prod.mk.inj (Except.ok.inj halloc)
    obtain rfl := Except.ok.inj hok
    refine ⟨p, _, rfl, ?_⟩
    have hvalue : Function.update t'.valueValid p false = t'.valueValid := by
      rw [hallocated.valueValid, Function.update_idem]
    have ht : { t' with valueValid := Function.update t'.valueValid p false } = t' := by
      rw [hvalue]
    rw [ht]
    exact hallocated
  · rw [RenameTable.allocatePhysicalRegister, if_neg hhead, if_pos hname] at halloc
    cases halloc

@[simp] theorem setTable_entry (s : Pipeline) (type : RegisterType) (t : RenameTable) (pos : ℕ) :
    (s.setTable type t).entry pos = s.entry pos := rfl

@[simp] theorem setTable_self (s : Pipeline) (type : RegisterType) (t : RenameTable) :
    (s.setTable type t).tables type = t := Function.update_self _ _ _

theorem setTable_of_ne (s : Pipeline) (t : RenameTable) {type type' : RegisterType}
    (h : type' ≠ type) : (s.setTable type t).tables type' = s.tables type' :=
  Function.update_of_ne h _ _

/-- The physical register of a part, as the table has it before the rename. -/
theorem physicalRegister_ok {o : Option BaseOperand} {p : Option ℕ}
    (h : s.physicalRegister threadID o = .ok p) :
    match o.bind BaseOperand.register? with
    | some r => (s.tables r.1).InBounds threadID r.2 ∧
        p = some ((s.tables r.1).archToPhyMapping threadID r.2)
    | none => p = none := by
  rw [physicalRegister.eq_def] at h
  cases hr : o.bind BaseOperand.register? with
  | none =>
    rw [hr] at h
    exact (Except.ok.inj h).symm
  | some r =>
    rw [hr] at h
    obtain ⟨q, hq, rfl⟩ := Except.map_ok h
    rw [RenameTable.getPhysicalRegister] at hq
    split_ifs at hq with hbounds
    exact ⟨hbounds, congrArg some (Except.ok.inj hq).symm⟩

/-- What the rename stage records for a source operand. -/
structure LookedUp (s : Pipeline) (threadID : ℕ) (opnd : Option Operand)
    (status : OperandStatus) : Prop where
  coherent : status.Coherent opnd
  parts : ∀ part ∈ status.parts opnd,
    (s.tables part.register.1).InBounds threadID part.register.2 ∧
    part.phyReg =
      some ((s.tables part.register.1).archToPhyMapping threadID part.register.2) ∧
    part.ready = (s.tables part.register.1).isAvailable
      ((s.tables part.register.1).archToPhyMapping threadID part.register.2)

theorem lookedUp_of_process {processed : OperandStatus} (hx : e.instruction.operationType ≠ .xchg)
    (hx' : e'.instruction.operationType ≠ .xchg) (hflag : status.available = false)
    (h : s.processOperand e opnd status = .ok processed) :
    s.LookedUp e.threadID opnd (s.checkOperandAvailability e' opnd processed) := by
  rw [processOperand.eq_def, if_neg hx] at h
  rw [checkOperandAvailability.eq_def, if_neg hx']
  match opnd with
  | none => exact ⟨rfl, fun part hpart => by cases hpart⟩
  | some (.base o) =>
    obtain ⟨p, hp, h⟩ := Except.bind_ok h
    obtain rfl := Except.ok.inj h
    have hphys := physicalRegister_ok hp
    match o with
    | .immediate => exact ⟨rfl, fun part hpart => by cases hpart⟩
    | .inValid => exact ⟨trivial, fun part hpart => by cases hpart⟩
    | .register type value =>
      obtain ⟨hbounds, rfl⟩ := hphys
      refine ⟨trivial, fun part hpart => ?_⟩
      have havailable : s.isAvailable (some (.register type value))
          (some ((s.tables type).archToPhyMapping e.threadID value)) =
          (s.tables type).isAvailable ((s.tables type).archToPhyMapping e.threadID value) := rfl
      simp only [havailable] at hpart
      split_ifs at hpart with hav
      · obtain rfl := List.mem_singleton.mp hpart
        exact ⟨hbounds, rfl, hav.symm⟩
      · obtain rfl := List.mem_singleton.mp hpart
        refine ⟨hbounds, rfl, ?_⟩
        rw [Bool.not_eq_true] at hav
        exact hflag.trans hav.symm
  | some (.memory first second) =>
    obtain ⟨p₁, hp₁, h⟩ := Except.bind_ok h
    obtain ⟨p₂, hp₂, h⟩ := Except.bind_ok h
    obtain rfl := Except.ok.inj h
    have hphys₁ := physicalRegister_ok hp₁
    have hphys₂ := physicalRegister_ok hp₂
    have hand : ∀ a b : Bool, (a && b || a) = a ∧ (a && b || b) = b := by decide
    have hpart : ∀ {o : Option BaseOperand} {p : Option ℕ} {r : RegisterType × ℕ},
        o.bind BaseOperand.register? = some r →
        p = some ((s.tables r.1).archToPhyMapping e.threadID r.2) →
        s.isAvailable o p =
          (s.tables r.1).isAvailable ((s.tables r.1).archToPhyMapping e.threadID r.2) := by
      intro o p r hr hp
      rw [isAvailable.eq_def, hr, hp]
    refine ⟨⟨fun hr => ?_, fun hr => ?_, fun h₁ h₂ => ?_⟩, fun part hmem => ?_⟩
    · simp only [isAvailable, hr]
    · simp only [isAvailable, hr]
    · simp only at h₁ h₂ ⊢
      rw [h₁, h₂, Bool.and_self]
    · simp only [OperandStatus.parts, List.mem_append, Option.mem_toList,
        Option.map_eq_some_iff, (hand _ _).1, (hand _ _).2] at hmem
      rcases hmem with ⟨r, hr, rfl⟩ | ⟨r, hr, rfl⟩
      · rw [hr] at hphys₁
        exact ⟨hphys₁.1, hphys₁.2, hpart hr hphys₁.2⟩
      · rw [hr] at hphys₂
        exact ⟨hphys₂.1, hphys₂.2, hpart hr hphys₂.2⟩

theorem registersRequired_xchg {i : Instruction} {r₁ r₂ : RegisterType × ℕ}
    (h : i.operationType = .xchg) (h₁ : i.sourceOperand1.bind Operand.register? = some r₁)
    (h₂ : i.sourceOperand2.bind Operand.register? = some r₂) (type : RegisterType) :
    registersRequired i type =
      (if r₁.1 = type then 1 else 0) + (if r₂.1 = type then 1 else 0) := by
  have htype : ∀ {o : Option Operand} {r : RegisterType × ℕ}, o.bind Operand.register? = some r →
      (o.map Operand.operandType = some type.operandType ↔ r.1 = type) := by
    intro o r ho
    obtain ⟨o', rfl, hr⟩ := Option.bind_eq_some_iff.mp ho
    rw [Option.map_some, Option.some.injEq, Operand.operandType_eq_iff, hr]
    simp [Prod.ext_iff]
  simp only [registersRequired, h, htype h₁, htype h₂]

theorem registersRequired_of_ne {i : Instruction} {r : RegisterType × ℕ}
    (h : i.operationType ≠ .xchg) (hr : i.destinationOperand.bind Operand.register? = some r) :
    registersRequired i r.1 = 1 := by
  obtain ⟨o, ho, hr⟩ := Option.bind_eq_some_iff.mp hr
  have htype : i.destinationOperand.map Operand.operandType = some r.1.operandType := by
    rw [ho, Option.map_some, Operand.operandType_eq_iff.mpr ⟨r.2, hr⟩]
  have hadmits := i.admitted
  rw [ho] at hadmits
  rw [registersRequired.eq_def]
  split
  · rename_i heq
    simp [OperationType.Admits, heq] at hadmits
  · rename_i heq
    simp [OperationType.Admits, heq] at hadmits
  · rename_i heq
    exact absurd heq h
  · exact if_pos htype

theorem le_size_of_canDestOperandBeProcessed (h : s.canDestOperandBeProcessed e = true)
    (type : RegisterType) :
    registersRequired e.instruction type ≤ (s.tables type).getAvailableListSize := by
  simp only [canDestOperandBeProcessed, decide_eq_true_eq] at h
  cases type
  · exact h.1
  · exact h.2

/-- After the first register of an exchange there is room for the second. -/
theorem second_of_xchg {r₁ r₂ : RegisterType × ℕ} {t₁ : RenameTable} {p₁ : ℕ}
    (hx : e.instruction.operationType = .xchg)
    (h₁ : e.instruction.sourceOperand1.bind Operand.register? = some r₁)
    (h₂ : e.instruction.sourceOperand2.bind Operand.register? = some r₂)
    (hvalid : ∀ type, (s.tables type).Valid)
    (hroom : ∀ type, registersRequired e.instruction type ≤
      (s.tables type).getAvailableListSize)
    (hallocated : (s.tables r₁.1).Allocated t₁ threadID r₁.2 p₁) :
    ((s.setTable r₁.1 t₁).tables r₂.1).Valid ∧
      0 < ((s.setTable r₁.1 t₁).tables r₂.1).getAvailableListSize := by
  have hle := hroom r₂.1
  rw [registersRequired_xchg hx h₁ h₂, if_pos (rfl : r₂.1 = r₂.1)] at hle
  by_cases htype : r₂.1 = r₁.1
  · have hsize := hallocated.size
    rw [if_pos htype.symm] at hle
    rw [htype] at hle ⊢
    rw [setTable_self]
    exact ⟨hallocated.valid, by omega⟩
  · rw [setTable_of_ne _ _ htype]
    exact ⟨hvalid r₂.1, by omega⟩

/-- The registers of the results are allocated and recorded. -/
theorem processDestOperand_spec (hvalid : ∀ type, (s.tables type).Valid)
    (hroom : ∀ type, registersRequired e.instruction type ≤
      (s.tables type).getAvailableListSize)
    (h : s.processDestOperand e = .ok (e', t)) :
    ∃ l p₁ p₂ d, Allocations e.threadID s.tables l t.tables ∧ t = { s with tables := t.tables } ∧
      e' = { e with
        operand1 := { e.operand1 with phyReg1 := p₁ }
        operand2 := { e.operand2 with phyReg1 := p₂ }
        physicalDestinationRegister := d } ∧
      (e.instruction.operationType ≠ .xchg →
        p₁ = e.operand1.phyReg1 ∧ p₂ = e.operand2.phyReg1) ∧
      e'.writes = l.map (fun w => (w.1, some w.2)) ∧ e'.Complete := by
  rw [processDestOperand.eq_def] at h
  by_cases hx : e.instruction.operationType = .xchg
  · obtain ⟨r₁, r₂, h₁, h₂, -⟩ := Instruction.xchg_operands hx
    have hneed := registersRequired_xchg hx h₁ h₂
    rw [if_pos hx, h₁, h₂] at h
    obtain ⟨x, hfirst, h⟩ := Except.bind_ok h
    have hpos : 0 < (s.tables r₁.1).getAvailableListSize := by
      have hle := hroom r₁.1
      rw [hneed, if_pos rfl] at hle
      omega
    obtain ⟨p₁, t₁, rfl, hallocated⟩ := handleIntFloat_spec (hvalid r₁.1) hpos hfirst
    by_cases heq : r₁ = r₂
    · subst heq
      simp only [↓reduceIte] at h
      obtain ⟨rfl, rfl⟩ := Prod.mk.inj (Except.ok.inj h)
      have hwrites := ReorderBufferEntry.writes_xchg (e := { e with
        operand1 := { e.operand1 with phyReg1 := some p₁ }
        operand2 := { e.operand2 with phyReg1 := some p₁ } }) hx h₁ h₂
      rw [if_pos rfl] at hwrites
      refine ⟨[(r₁, p₁)], some p₁, some p₁, e.physicalDestinationRegister,
        .cons hallocated .nil, rfl, rfl, fun hne => absurd hx hne, hwrites, fun w hw => ?_,
        fun _ _ => rfl⟩
      rw [hwrites] at hw
      rw [List.mem_singleton.mp hw]
      rfl
    · simp only [heq, ↓reduceIte] at h
      obtain ⟨x, hsecond, h⟩ := Except.bind_ok h
      obtain ⟨hvalid', hpos'⟩ := second_of_xchg hx h₁ h₂ hvalid hroom hallocated
      obtain ⟨p₂, t₂, rfl, hallocated'⟩ := handleIntFloat_spec hvalid' hpos' hsecond
      obtain ⟨rfl, rfl⟩ := Prod.mk.inj (Except.ok.inj h)
      have hwrites := ReorderBufferEntry.writes_xchg (e := { e with
        operand1 := { e.operand1 with phyReg1 := some p₁ }
        operand2 := { e.operand2 with phyReg1 := some p₂ } }) hx h₁ h₂
      rw [if_neg heq] at hwrites
      refine ⟨[(r₁, p₁), (r₂, p₂)], some p₁, some p₂, e.physicalDestinationRegister,
        .cons hallocated (.cons hallocated' .nil), rfl, rfl, fun hne => absurd hx hne, hwrites,
        fun w hw => ?_, fun _ hsame => ?_⟩
      · rw [hwrites] at hw
        rcases List.mem_cons.mp hw with rfl | hw
        · rfl
        · rw [List.mem_singleton.mp hw]
          rfl
      · simp only [h₁, h₂] at hsame
        exact absurd (Option.some.inj hsame) heq
  · rw [if_neg hx] at h
    cases hd : e.instruction.destinationOperand.bind Operand.register? with
    | none =>
      rw [hd] at h
      obtain ⟨rfl, rfl⟩ := Prod.mk.inj (Except.ok.inj h)
      have hwrites : e.writes = [] := by rw [ReorderBufferEntry.writes_of_ne hx, hd]; rfl
      refine ⟨[], e.operand1.phyReg1, e.operand2.phyReg1, e.physicalDestinationRegister, .nil,
        rfl, rfl, fun _ => ⟨rfl, rfl⟩, hwrites, fun w hw => ?_, fun heq => absurd heq hx⟩
      change w ∈ e.writes at hw
      rw [hwrites] at hw
      cases hw
    | some r =>
      rw [hd] at h
      obtain ⟨x, hfirst, h⟩ := Except.bind_ok h
      have hpos : 0 < (s.tables r.1).getAvailableListSize := by
        have hle := hroom r.1
        rw [registersRequired_of_ne hx hd] at hle
        omega
      obtain ⟨p, t₁, rfl, hallocated⟩ := handleIntFloat_spec (hvalid r.1) hpos hfirst
      obtain ⟨rfl, rfl⟩ := Prod.mk.inj (Except.ok.inj h)
      have hwrites := ReorderBufferEntry.writes_of_ne
        (e := { e with physicalDestinationRegister := some p }) hx
      rw [hd] at hwrites
      refine ⟨[(r, p)], e.operand1.phyReg1, e.operand2.phyReg1, some p, .cons hallocated .nil,
        rfl, rfl, fun _ => ⟨rfl, rfl⟩, hwrites, fun w hw => ?_, fun heq => absurd heq hx⟩
      rw [hwrites] at hw
      rw [List.mem_singleton.mp hw]
      rfl

/-- The instruction at `pos` has been renamed: its entry is `e`, and `l` was allocated. -/
structure Renames (s t : Pipeline) (pos : ℕ) (rest : List ℕ) (e : ReorderBufferEntry)
    (l : List ((RegisterType × ℕ) × ℕ)) : Prop where
  decodeBuffer : s.decodeBuffer = pos :: rest
  after : t = { s with
    rob := s.rob.setEntry pos e
    tables := t.tables
    decodeBuffer := rest
    renameBuffer := s.renameBuffer ++ [pos] }
  instruction : e.instruction = (s.entry pos).instruction
  threadID : e.threadID = (s.entry pos).threadID
  isRenameDone : e.isRenameDone = true
  isIssued : e.isIssued = (s.entry pos).isIssued
  isExecuted : e.isExecuted = (s.entry pos).isExecuted
  isWriteBackDone : e.isWriteBackDone = (s.entry pos).isWriteBackDone
  associatedIWEntry : e.associatedIWEntry = (s.entry pos).associatedIWEntry
  isValid : e.isValid = (s.entry pos).isValid
  writes : e.writes = l.map fun w => (w.1, some w.2)
  complete : e.Complete
  coherent : e.Coherent
  allocations : Allocations (s.entry pos).threadID s.tables l t.tables
  sources : e.instruction.operationType ≠ .xchg →
    s.LookedUp (s.entry pos).threadID e.instruction.sourceOperand1 e.operand1 ∧
    s.LookedUp (s.entry pos).threadID e.instruction.sourceOperand2 e.operand2
  exchange : e.instruction.operationType = .xchg →
    e.operand1.available = true ∧ e.operand2.available = true

theorem processOperand_available {processed : OperandStatus}
    (h : s.processOperand e opnd status = .ok processed) :
    processed.available = status.available := by
  rw [processOperand.eq_def] at h
  split at h
  · rw [← Except.ok.inj h]
  · split at h
    · rw [← Except.ok.inj h]
    · obtain ⟨_, -, heq⟩ := Except.bind_ok h
      rw [← Except.ok.inj heq]
    · obtain ⟨_, -, hsecond⟩ := Except.bind_ok h
      obtain ⟨_, -, heq⟩ := Except.bind_ok hsecond
      rw [← Except.ok.inj heq]

theorem checkOperandAvailability_of_xchg (hx : e.instruction.operationType = .xchg) :
    (s.checkOperandAvailability e opnd status).available = true := by
  rw [checkOperandAvailability.eq_def, if_pos hx]

/-- Both sources are looked up in the tables, except those of an exchange. -/
theorem processSources_spec (hflag₁ : e.operand1.available = false)
    (hflag₂ : e.operand2.available = false) (h : s.processSources e = .ok e') :
    ∃ status₁ status₂, e' = { e with operand1 := status₁, operand2 := status₂ } ∧
      (e.instruction.operationType ≠ .xchg →
        s.LookedUp e.threadID e.instruction.sourceOperand1 status₁ ∧
        s.LookedUp e.threadID e.instruction.sourceOperand2 status₂) ∧
      (e.instruction.operationType = .xchg →
        status₁.available = true ∧ status₂.available = true) := by
  obtain ⟨status₁, hstatus₁, hsecond⟩ := Except.bind_ok h
  obtain ⟨status₂, hstatus₂, hboth⟩ := Except.bind_ok hsecond
  obtain rfl := Except.ok.inj hboth
  have hunavailable : status₂.available = false := by
    rw [processOperand_available hstatus₂, hflag₂]
  simp only [hunavailable, Bool.false_eq_true, ↓reduceIte]
  refine ⟨_, _, rfl, fun hx => ⟨?_, ?_⟩, fun hx => ⟨?_, ?_⟩⟩
  · exact lookedUp_of_process hx hx hflag₁ hstatus₁
  · exact lookedUp_of_process hx hx hflag₂ hstatus₂
  · exact checkOperandAvailability_of_xchg hx
  · exact checkOperandAvailability_of_xchg hx

theorem performRename_spec (hvalid : ∀ type, (s.tables type).Valid)
    (hfresh : ∀ pos ∈ s.decodeBuffer, (s.entry pos).operand1.available = false ∧
      (s.entry pos).operand2.available = false)
    (h : s.performRename = .ok t) : ∃ pos rest e l, s.Renames t pos rest e l := by
  rw [performRename.eq_def] at h
  split at h
  · cases h
  rename_i pos rest hbuffer
  obtain ⟨hflag₁, hflag₂⟩ := hfresh pos (by rw [hbuffer]; exact List.mem_cons_self)
  split at h
  swap
  · cases h
  rename_i hroom
  obtain ⟨e₁, hsources, hrest⟩ := Except.bind_ok h
  obtain ⟨⟨e₂, u⟩, hdest, hafter⟩ := Except.bind_ok hrest
  obtain ⟨status₁, status₂, rfl, hlooked, hexchange⟩ :=
    processSources_spec hflag₁ hflag₂ hsources
  have hneed := le_size_of_canDestOperandBeProcessed hroom
  obtain ⟨l, p₁, p₂, d, hallocations, hu, rfl, hkept, hwrites, hcomplete⟩ :=
    processDestOperand_spec
      (e := { s.entry pos with operand1 := status₁, operand2 := status₂ }) hvalid hneed hdest
  obtain rfl := Except.ok.inj hafter
  refine ⟨pos, rest, { s.entry pos with
    operand1 := { status₁ with phyReg1 := p₁ }
    operand2 := { status₂ with phyReg1 := p₂ }
    physicalDestinationRegister := d
    isRenameDone := true }, l, hbuffer, ?_, rfl, rfl, rfl, rfl, rfl, rfl, rfl, rfl, hwrites,
    ⟨hcomplete.1, hcomplete.2⟩, ?_, hallocations, ?_, ?_⟩
  · rw [hu]
    rfl
  · by_cases hx : (s.entry pos).instruction.operationType = .xchg
    · obtain ⟨r₁, r₂, h₁, h₂, -⟩ := Instruction.xchg_operands hx
      exact ⟨OperandStatus.coherent_of_register h₁, OperandStatus.coherent_of_register h₂⟩
    · obtain ⟨hl₁, hl₂⟩ := hlooked hx
      obtain ⟨rfl, rfl⟩ := hkept hx
      exact ⟨hl₁.coherent, hl₂.coherent⟩
  · intro hx
    obtain ⟨rfl, rfl⟩ := hkept hx
    exact hlooked hx
  · exact hexchange

end Pipeline

end Tejas
