import Tejas.PipelineRenaming
import Tejas.WakeUpScan

/-!
# Announcing the results of an instruction

A broadcast sets the valid bits of the results and tells the younger entries. What it does
is said once here, for one result and for the two results of an exchange.
-/

namespace Tejas
open RingWindow RingIndices

namespace ReorderBufferEntry

variable {e e' : ReorderBufferEntry} {opndType : OperandType} {p : Option ℕ} {part : SourcePart}

/-- Two entries are at the same stage of the pipeline. -/
structure SameStage (e e' : ReorderBufferEntry) : Prop where
  isIssued : e'.isIssued = e.isIssued
  isExecuted : e'.isExecuted = e.isExecuted
  isWriteBackDone : e'.isWriteBackDone = e.isWriteBackDone
  associatedIWEntry : e'.associatedIWEntry = e.associatedIWEntry
  isValid : e'.isValid = e.isValid

theorem SameStage.rfl : e.SameStage e := ⟨Eq.refl _, Eq.refl _, Eq.refl _, Eq.refl _, Eq.refl _⟩

theorem SameStage.trans {e'' : ReorderBufferEntry} (h : e.SameStage e') (h' : e'.SameStage e'') :
    e.SameStage e'' :=
  ⟨h'.isIssued.trans h.isIssued, h'.isExecuted.trans h.isExecuted,
    h'.isWriteBackDone.trans h.isWriteBackDone, h'.associatedIWEntry.trans h.associatedIWEntry,
    h'.isValid.trans h.isValid⟩

theorem sameStage_wake (e : ReorderBufferEntry) (opndType : OperandType) (p : Option ℕ) :
    e.SameStage (e.wake opndType p) := ⟨rfl, rfl, rfl, rfl, rfl⟩

theorem Coherent.wake (h : e.Coherent) : (e.wake opndType p).Coherent :=
  ⟨OperandStatus.Coherent.wake h.1, OperandStatus.Coherent.wake h.2⟩

theorem Blind.memory (h : e.Blind opndType p) : opndType = .memory :=
  h.elim (fun h => h.2.2.1) (fun h => h.2.2.1)

/-- A part that is still missing was missing before, and its value was not announced. -/
theorem missing_of_wake (hpart : part ∈ (e.wake opndType p).parts) (hmissing : part.ready = false) :
    part ∈ e.parts ∧ ¬ (part.register.1.operandType = opndType ∧ part.phyReg = p) := by
  rcases List.mem_append.mp hpart with hpart | hpart
  · obtain ⟨hold, hnot⟩ := OperandStatus.missing_of_wake hpart hmissing
    exact ⟨List.mem_append_left _ hold, hnot⟩
  · obtain ⟨hold, hnot⟩ := OperandStatus.missing_of_wake hpart hmissing
    exact ⟨List.mem_append_right _ hold, hnot⟩

/-- A part that is ready now was ready before, or its value was announced. -/
theorem ready_of_wake (h : e.Coherent) (hblind : ¬ e.Blind opndType p)
    (hpart : part ∈ (e.wake opndType p).parts) (hready : part.ready = true) :
    ∃ old ∈ e.parts, old.register = part.register ∧ old.phyReg = part.phyReg ∧
      (old.ready = true ∨ part.register.1.operandType = opndType ∧ part.phyReg = p) := by
  rw [Blind, not_or] at hblind
  rcases List.mem_append.mp hpart with hpart | hpart
  · obtain ⟨old, hold, hrest⟩ := OperandStatus.ready_of_wake h.1 hblind.1 hpart hready
    exact ⟨old, List.mem_append_left _ hold, hrest⟩
  · obtain ⟨old, hold, hrest⟩ := OperandStatus.ready_of_wake h.2 hblind.2 hpart hready
    exact ⟨old, List.mem_append_right _ hold, hrest⟩

end ReorderBufferEntry

namespace Pipeline

variable {s t u : Pipeline} {pos i : ℕ} {blind : ℕ → Prop} {l l' : List (RegisterType × ℕ)}
  {opndType : OperandType} {p : Option ℕ}

/-- Nothing between the producer and the entry stops the announcement of its results. -/
structure Hears (s : Pipeline) (pos : ℕ) (l : List (RegisterType × ℕ)) (i : ℕ)
    (before between after : List ℕ) : Prop where
  indices : Bounded s.rob.MaxROBSize s.rob.head s.rob.tail
  window : s.rob.window = before ++ pos :: (between ++ i :: after)
  open' : ∀ k ∈ between, (s.entry k).isValid = true ∧ (s.entry k).isRenameDone = true ∧
    (s.entry k).Complete ∧ ((s.entry k).isIssued = true ∨ ∀ r ∈ l, r ∉ (s.entry k).results)
  isValid : (s.entry i).isValid = true
  isRenameDone : (s.entry i).isRenameDone = true
  isIssued : (s.entry i).isIssued = false

theorem Hears.mono {before between after : List ℕ}
    (h : s.Hears pos l i before between after) (hl : ∀ r ∈ l', r ∈ l) :
    s.Hears pos l' i before between after where
  indices := h.indices
  window := h.window
  open' k hk := by
    obtain ⟨hvalid, hrenamed, hcomplete, hpass⟩ := h.open' k hk
    exact ⟨hvalid, hrenamed, hcomplete, hpass.imp_right fun hnot r hr => hnot r (hl r hr)⟩
  isValid := h.isValid
  isRenameDone := h.isRenameDone
  isIssued := h.isIssued

/-- The entry at `pos` has announced the results `l`. -/
structure Announced (s t : Pipeline) (pos : ℕ) (blind : ℕ → Prop)
    (l : List (RegisterType × ℕ)) : Prop where
  after : t = { s with rob := t.rob, tables := t.tables }
  ring : t.rob = { s.rob with ROB := t.rob.ROB }
  table : ∀ type, t.tables type =
    { s.tables type with valueValid := (t.tables type).valueValid }
  valueValid : ∀ type q, (t.tables type).valueValid q = true ↔
    (s.tables type).valueValid q = true ∨ (type, q) ∈ l
  names : ∀ i, (s.entry i).SameNames (t.entry i)
  stage : ∀ i, (s.entry i).SameStage (t.entry i)
  untouched : ∀ i, (s.entry i).isRenameDone = false → t.entry i = s.entry i
  coherent : ∀ i, (s.entry i).Coherent → (t.entry i).Coherent
  missing : ∀ i, ∀ part ∈ (t.entry i).parts, part.ready = false → part ∈ (s.entry i).parts
  ready : ∀ i, (s.entry i).Coherent → ¬ blind i → ∀ part ∈ (t.entry i).parts,
    part.ready = true → ∃ old ∈ (s.entry i).parts, old.register = part.register ∧
      old.phyReg = part.phyReg ∧
      (old.ready = true ∨ ∃ q, part.phyReg = some q ∧ (part.register.1, q) ∈ l)
  heard : ∀ i before between after, s.Hears pos l i before between after →
    ∀ part ∈ (t.entry i).parts, part.ready = false →
      ∀ q, part.phyReg = some q → (part.register.1, q) ∉ l

namespace Announced

theorem rfl : s.Announced s pos blind [] where
  after := Eq.refl _
  ring := Eq.refl _
  table _ := Eq.refl _
  valueValid _ _ := by simp
  names _ := .rfl
  stage _ := .rfl
  untouched _ _ := Eq.refl _
  coherent _ h := h
  missing _ _ h _ := h
  ready _ _ _ part h hready := ⟨part, h, Eq.refl _, Eq.refl _, .inl hready⟩
  heard _ _ _ _ _ _ _ _ _ _ := List.not_mem_nil

theorem window (h : s.Announced t pos blind l) : t.rob.window = s.rob.window := by
  rw [h.ring]
  rfl

/-- The bits that an announcement sets are no part of what makes a table valid. -/
theorem valid (h : s.Announced t pos blind l) (hvalid : ∀ type, (s.tables type).Valid)
    (type : RegisterType) : (t.tables type).Valid := by
  rw [h.table type]
  exact ⟨(hvalid type).enough, (hvalid type).indices, (hvalid type).conserved,
    (hvalid type).mappingValid_iff⟩

theorem hears (h : s.Announced t pos blind l) {before between after : List ℕ}
    (hears : s.Hears pos l' i before between after) :
    t.Hears pos l' i before between after where
  indices := by
    rw [h.ring]
    exact hears.indices
  window := by rw [h.window, hears.window]
  open' k hk := by
    obtain ⟨hvalid, hrenamed, hcomplete, hpass⟩ := hears.open' k hk
    rw [(h.stage k).isValid, (h.names k).isRenameDone, (h.stage k).isIssued, (h.names k).results]
    exact ⟨hvalid, hrenamed, (h.names k).complete hcomplete, hpass⟩
  isValid := by rw [(h.stage i).isValid, hears.isValid]
  isRenameDone := by rw [(h.names i).isRenameDone, hears.isRenameDone]
  isIssued := by rw [(h.stage i).isIssued, hears.isIssued]

/-- One announcement after the other. -/
theorem trans (h : s.Announced u pos blind l) (h' : u.Announced t pos blind l') :
    s.Announced t pos blind (l ++ l') where
  after := by
    rw [h'.after, h.after]
  ring := by
    rw [h'.ring, h.ring]
  table type := by
    rw [h'.table type, h.table type]
  valueValid type q := by
    rw [h'.valueValid, h.valueValid, List.mem_append, or_assoc]
  names i := (h.names i).trans (h'.names i)
  stage i := (h.stage i).trans (h'.stage i)
  untouched i hi :=
    (h'.untouched i (by rw [h.untouched i hi, hi])).trans (h.untouched i hi)
  coherent i hi := h'.coherent i (h.coherent i hi)
  missing i part hpart hmissing := h.missing i part (h'.missing i part hpart hmissing) hmissing
  ready i hi hblind part hpart hready := by
    obtain ⟨old, hold, hregister, hphyReg, hwhy⟩ :=
      h'.ready i (h.coherent i hi) hblind part hpart hready
    cases hflag : old.ready with
    | true =>
      obtain ⟨older, holder, hregister', hphyReg', hwhy'⟩ := h.ready i hi hblind old hold hflag
      rw [hregister, hphyReg] at hwhy'
      refine ⟨older, holder, hregister'.trans hregister, hphyReg'.trans hphyReg,
        hwhy'.imp_right fun hex => ?_⟩
      obtain ⟨q, hq, hl⟩ := hex
      exact ⟨q, hq, List.mem_append_left _ hl⟩
    | false =>
      obtain ⟨q, hq, hl⟩ := hwhy.resolve_left (by simp [hflag])
      exact ⟨old, h.missing i old hold hflag, hregister, hphyReg,
        .inr ⟨q, hq, List.mem_append_right _ hl⟩⟩
  heard i before between after hears part hpart hmissing q hq hmem := by
    rcases List.mem_append.mp hmem with hl | hl
    · have hmiddle := h'.missing i part hpart hmissing
      exact h.heard i before between after (hears.mono fun r hr => List.mem_append_left _ hr)
        part hmiddle hmissing q hq hl
    · have hmiddle := h.hears (hears.mono fun r hr => List.mem_append_right _ hr)
      exact h'.heard i before between after hmiddle part hpart hmissing q hq hl

end Announced

/-- The loop over the entries announces the results when the tables follow. -/
theorem announced_of_scan {ROB : ℕ → ReorderBufferEntry}
    (hROB : ∀ j, ROB j = if j ∈ s.rob.scanned opndType p
        (slotsFrom s.rob.MaxROBSize ((pos + 1) % s.rob.MaxROBSize) 0 s.rob.MaxROBSize)
      then (s.entry j).wake opndType p else s.entry j)
    (hl : ∀ type q, (type, q) ∈ l ↔ type.operandType = opndType ∧ p = some q)
    (hsome : ∀ type : RegisterType, type.operandType = opndType → p ≠ none)
    {T : RegisterType → RenameTable}
    (htable : ∀ type, T type = { s.tables type with valueValid := (T type).valueValid })
    (hvalue : ∀ type q, (T type).valueValid q = true ↔
      (s.tables type).valueValid q = true ∨ (type, q) ∈ l) :
    s.Announced { s with rob := { s.rob with ROB := ROB }, tables := T } pos
      (fun i => (s.entry i).Blind opndType p) l := by
  have hentry : ∀ j, ROB j = s.entry j ∨ ROB j = (s.entry j).wake opndType p := by
    intro j
    rw [hROB j]
    split_ifs
    · exact .inr rfl
    · exact .inl rfl
  refine ⟨rfl, rfl, htable, hvalue, fun i => ?_, fun i => ?_, fun i hi => ?_, fun i hi => ?_,
    fun i part hpart hmissing => ?_, fun i hi hblind part hpart hready => ?_,
    fun i before between after hears part hpart hmissing q hq hmem => ?_⟩
  · change (s.entry i).SameNames (ROB i)
    rcases hentry i with heq | heq
    · rw [heq]
      exact .rfl
    · rw [heq]
      exact (s.entry i).sameNames_wake opndType p
  · change (s.entry i).SameStage (ROB i)
    rcases hentry i with heq | heq
    · rw [heq]
      exact .rfl
    · rw [heq]
      exact (s.entry i).sameStage_wake opndType p
  · refine (hROB i).trans (if_neg fun hmem => ?_)
    obtain ⟨-, -, hrenamed, -⟩ := ReorderBuffer.mem_of_mem_scanned hmem
    exact absurd (hrenamed.symm.trans hi) (by decide)
  · change (ROB i).Coherent
    rcases hentry i with heq | heq
    · rw [heq]
      exact hi
    · rw [heq]
      exact hi.wake
  · change part ∈ (ROB i).parts at hpart
    rcases hentry i with heq | heq
    · exact heq ▸ hpart
    · rw [heq] at hpart
      exact (ReorderBufferEntry.missing_of_wake hpart hmissing).1
  · change part ∈ (ROB i).parts at hpart
    rcases hentry i with heq | heq
    · exact ⟨part, heq ▸ hpart, rfl, rfl, .inl hready⟩
    · rw [heq] at hpart
      obtain ⟨old, hold, hregister, hphyReg, hwhy⟩ :=
        ReorderBufferEntry.ready_of_wake hi hblind hpart hready
      refine ⟨old, hold, hregister, hphyReg, hwhy.imp_right fun htold => ?_⟩
      obtain ⟨htype, hp⟩ := htold
      cases hphys : part.phyReg with
      | none => exact absurd (hp.symm.trans hphys) (hsome _ htype)
      | some q => exact ⟨q, rfl, (hl _ _).mpr ⟨htype, by rw [← hp, hphys]⟩⟩
  · change part ∈ (ROB i).parts at hpart
    obtain ⟨htype, hp⟩ := (hl _ _).mp hmem
    obtain ⟨rest, hslots⟩ := ReorderBuffer.slots_behind hears.indices hears.window
    have hscanned : i ∈ s.rob.scanned opndType p
        (slotsFrom s.rob.MaxROBSize ((pos + 1) % s.rob.MaxROBSize) 0 s.rob.MaxROBSize) := by
      rw [hslots, List.append_assoc, List.cons_append]
      refine ReorderBuffer.mem_scanned rfl (fun k hk => ?_) hears.isValid hears.isRenameDone
        hears.isIssued
      obtain ⟨hvalid, hrenamed, hcomplete, hpass⟩ := hears.open' k hk
      refine ⟨hvalid, hrenamed, hpass.imp_right fun hnot => ?_⟩
      rw [← Bool.not_eq_true]
      intro halso
      rw [← htype, hp] at halso
      exact hnot _ hmem (hcomplete.mem_results_of_alsoWrites halso)
    have hwoken := hROB i
    rw [if_pos hscanned] at hwoken
    rw [hwoken] at hpart
    exact (ReorderBufferEntry.missing_of_wake hpart hmissing).2 ⟨htype, hq.trans hp.symm⟩

/-- Announcing a result tells the younger entries and sets its valid bit. -/
theorem wakeUpLogic_spec (hmax : 0 < s.rob.MaxROBSize)
    (h : s.wakeUpLogic opndType p ((pos + 1) % s.rob.MaxROBSize) = .ok t) :
    ∃ l, (∀ type q, (type, q) ∈ l ↔ type.operandType = opndType ∧ p = some q) ∧
      s.Announced t pos (fun i => (s.entry i).Blind opndType p) l := by
  have hspec : ∃ ROB, s.rob.wakeUpScan opndType p ((pos + 1) % s.rob.MaxROBSize)
      s.rob.MaxROBSize = { s.rob with ROB := ROB } ∧ ∀ j, ROB j = _ :=
    ReorderBuffer.wakeUpScan_spec (Nat.mod_lt (pos + 1) hmax) (le_refl s.rob.MaxROBSize)
  obtain ⟨ROB, hscan, hROB⟩ := hspec
  rw [wakeUpLogic.eq_def, hscan] at h
  have hregister : ∀ type : RegisterType, type.operandType = opndType →
      ((s.tables type).setValueValid p).map
        (setTable { s with rob := { s.rob with ROB := ROB } } type) = .ok t →
      ∃ l, (∀ type q, (type, q) ∈ l ↔ type.operandType = opndType ∧ p = some q) ∧
        s.Announced t pos (fun i => (s.entry i).Blind opndType p) l := by
    intro type htype hmap
    obtain ⟨table, hset, rfl⟩ := Except.map_ok hmap
    cases p with
    | none => cases hset
    | some q =>
      rw [RenameTable.setValueValid] at hset
      split_ifs at hset
      obtain rfl := Except.ok.inj hset
      have hl : ∀ type' q', (type', q') ∈ [(type, q)] ↔
          type'.operandType = opndType ∧ some q = some q' := by
        intro type' q'
        rw [← htype, RegisterType.operandType_inj]
        simp [eq_comm]
      refine ⟨[(type, q)], hl, announced_of_scan hROB hl (by simp) (fun type' => ?_)
        (fun type' q' => ?_)⟩
      · by_cases heq : type' = type
        · subst heq
          simp
        · simp [heq]
      · by_cases heq : type' = type
        · subst heq
          by_cases hq : q' = q
          · simp [hq]
          · simp [hq]
        · simp [heq]
  have hother : (∀ type : RegisterType, type.operandType ≠ opndType) →
      t = { s with rob := { s.rob with ROB := ROB } } →
      ∃ l, (∀ type q, (type, q) ∈ l ↔ type.operandType = opndType ∧ p = some q) ∧
        s.Announced t pos (fun i => (s.entry i).Blind opndType p) l := by
    rintro hne rfl
    have hl : ∀ type q, (type, q) ∈ ([] : List (RegisterType × ℕ)) ↔
        type.operandType = opndType ∧ p = some q := by
      intro type q
      simp [hne type]
    exact ⟨[], hl, announced_of_scan hROB hl (fun type heq => absurd heq (hne type))
      (fun _ => rfl) (by simp)⟩
  cases opndType with
  | integerRegister => exact hregister .integer rfl h
  | floatRegister => exact hregister .float rfl h
  | immediate => exact hother (by intro type; cases type <;> decide) (Except.ok.inj h).symm
  | inValid => exact hother (by intro type; cases type <;> decide) (Except.ok.inj h).symm
  | memory => exact hother (by intro type; cases type <;> decide) (Except.ok.inj h).symm

/-- The entry would be woken blindly by the destination of the entry at `pos`. -/
def BlindTo (s : Pipeline) (pos i : ℕ) : Prop :=
  ∃ d, (s.entry pos).instruction.destinationOperand = some d ∧
    (s.entry i).Blind d.operandType (s.entry pos).physicalDestinationRegister

/-- The results that the destination of an instruction stands for. -/
theorem mem_results_of_destination {e : ReorderBufferEntry} {d : Operand}
    (hd : e.instruction.destinationOperand = some d) {type : RegisterType} {q : ℕ} :
    (type, q) ∈ e.results ↔
      type.operandType = d.operandType ∧ e.physicalDestinationRegister = some q := by
  have hx : e.instruction.operationType ≠ .xchg := by
    intro hx
    obtain ⟨-, -, -, -, hnone⟩ := Instruction.xchg_operands hx
    rw [hd] at hnone
    cases hnone
  rw [ReorderBufferEntry.mem_results, ReorderBufferEntry.writes_of_ne hx, hd, Option.bind_some,
    eq_comm, Operand.operandType_eq_iff]
  constructor
  · rintro ⟨n, hmem⟩
    obtain ⟨r, hr, heq⟩ := Option.map_eq_some_iff.mp (Option.mem_toList.mp hmem)
    obtain ⟨rfl, hp⟩ := Prod.mk.inj heq
    exact ⟨⟨n, hr⟩, hp⟩
  · rintro ⟨⟨n, hn⟩, hp⟩
    exact ⟨n, by simp [hn, hp]⟩

/-- The results of an exchange. -/
theorem mem_results_of_xchg {e : ReorderBufferEntry} (hx : e.instruction.operationType = .xchg)
    (hcomplete : e.Complete) {o₁ o₂ : Operand} (h₁ : e.instruction.sourceOperand1 = some o₁)
    (h₂ : e.instruction.sourceOperand2 = some o₂) {type : RegisterType} {q : ℕ} :
    (type, q) ∈ e.results ↔
      type.operandType = o₁.operandType ∧ e.operand1.phyReg1 = some q ∨
      type.operandType = o₂.operandType ∧ e.operand2.phyReg1 = some q := by
  obtain ⟨r₁, r₂, hr₁, hr₂, -⟩ := Instruction.xchg_operands hx
  have htype : ∀ {o : Operand} {r : RegisterType × ℕ}, o.register? = some r →
      (type.operandType = o.operandType ↔ type = r.1) := by
    intro o r hr
    rw [Operand.operandType_eq_iff.mpr ⟨r.2, hr⟩, RegisterType.operandType_inj]
  have hr₁' : o₁.register? = some r₁ := by rwa [h₁] at hr₁
  have hr₂' : o₂.register? = some r₂ := by rwa [h₂] at hr₂
  rw [ReorderBufferEntry.mem_results, ReorderBufferEntry.writes_xchg hx hr₁ hr₂, htype hr₁',
    htype hr₂']
  by_cases heq : r₁ = r₂
  · have hsame := hcomplete.exchange hx (by rw [hr₁, hr₂, heq])
    rw [if_pos heq, hsame, ← heq, or_self]
    constructor
    · rintro ⟨n, hmem⟩
      obtain ⟨hreg, hp⟩ := Prod.mk.inj (List.mem_singleton.mp hmem)
      exact ⟨by rw [← hreg], hp.symm⟩
    · rintro ⟨rfl, hp⟩
      exact ⟨r₁.2, by simp [hp]⟩
  · rw [if_neg heq]
    constructor
    · rintro ⟨n, hmem⟩
      rcases List.mem_cons.mp hmem with hmem | hmem
      · obtain ⟨hreg, hp⟩ := Prod.mk.inj hmem
        exact .inl ⟨by rw [← hreg], hp.symm⟩
      · obtain ⟨hreg, hp⟩ := Prod.mk.inj (List.mem_singleton.mp hmem)
        exact .inr ⟨by rw [← hreg], hp.symm⟩
    · rintro (⟨rfl, hp⟩ | ⟨rfl, hp⟩)
      · exact ⟨r₁.2, by simp [hp]⟩
      · exact ⟨r₂.2, by simp [hp]⟩

theorem Announced.blind_mono {blind' : ℕ → Prop} (h : s.Announced t pos blind l)
    (hblind : ∀ i, blind i → blind' i) : s.Announced t pos blind' l :=
  { h with ready := fun i hi hnot => h.ready i hi fun hb => hnot (hblind i hb) }

theorem operandType_ne_memory {o : Operand} {r : RegisterType × ℕ} (h : o.register? = some r) :
    o.operandType ≠ .memory := by
  rw [Operand.operandType_eq_iff.mpr ⟨r.2, h⟩]
  cases r.1 <;> decide

/-- A broadcast announces exactly the results of its entry. -/
theorem performBroadCast_spec (hmax : 0 < s.rob.MaxROBSize) (hcomplete : (s.entry pos).Complete)
    (h : s.performBroadCast pos = .ok t) :
    ∃ l, (∀ r, r ∈ l ↔ r ∈ (s.entry pos).results) ∧ s.Announced t pos (s.BlindTo pos) l := by
  rw [performBroadCast.eq_def] at h
  simp only at h
  split at h
  · rename_i d hd
    obtain ⟨l, hl, hannounced⟩ := wakeUpLogic_spec hmax h
    refine ⟨l, fun r => ?_, hannounced.blind_mono fun i hblind => ⟨d, hd, hblind⟩⟩
    rw [hl, mem_results_of_destination hd]
  · rename_i hd
    split_ifs at h with hx
    · split at h
      · rename_i o₁ o₂ h₁ h₂
        obtain ⟨u, hfirst, hsecond⟩ := Except.bind_ok h
        obtain ⟨l, hl, hannounced⟩ := wakeUpLogic_spec hmax hfirst
        have hsize : u.rob.MaxROBSize = s.rob.MaxROBSize := by rw [hannounced.ring]
        rw [← hsize, (hannounced.names pos).operand2] at hsecond
        obtain ⟨l', hl', hannounced'⟩ := wakeUpLogic_spec (by rwa [hsize]) hsecond
        obtain ⟨r₁, r₂, hr₁, hr₂, -⟩ := Instruction.xchg_operands hx
        rw [h₁] at hr₁
        rw [h₂] at hr₂
        refine ⟨l ++ l', fun r => ?_, ?_⟩
        · rw [List.mem_append, hl, hl', mem_results_of_xchg hx hcomplete h₁ h₂]
        · refine (hannounced.blind_mono fun i hblind => ?_).trans
            (hannounced'.blind_mono fun i hblind => ?_)
          · exact absurd hblind.memory (operandType_ne_memory hr₁)
          · exact absurd hblind.memory (operandType_ne_memory hr₂)
      · cases h
    · obtain rfl := Except.ok.inj h
      refine ⟨[], fun r => ?_, .rfl⟩
      rw [ReorderBufferEntry.results, ReorderBufferEntry.writes_of_ne hx, hd]
      simp

end Pipeline

end Tejas
