import Tejas.PipelineFlow
import Mathlib.Algebra.Order.BigOperators.Group.List
import Mathlib.Algebra.Order.Ring.Nat

/-!
# The pipeline drains

As long as no new instruction is decoded, the instructions in the reorder buffer are renamed,
issued, executed and committed one after the other: the oldest one that has not been written
back never waits for anything, so some step is always possible, and only finitely many are
left. An instruction can finish if its operation is executed at all and if the register files
hold its results beside the registers of the threads.
-/

namespace Tejas
open LabelledRuns RingIndices RegisterPool

namespace Pipeline

variable {s t s₀ : Pipeline} {pos i threadID : ℕ} {instruction : Instruction}
  {cfg : PipelineConfig} {labels : List PipelineLabel} {rest : List ℕ}

/-! ### The sizes of the core -/

/-- The tables have the sizes that the core was built with. -/
structure Sized (s : Pipeline) (cfg : PipelineConfig) : Prop where
  nPhyRegisters : ∀ type, (s.tables type).nPhyRegisters = cfg.registerFileSize type
  inBounds : ∀ type j n, (s.tables type).InBounds j n ↔
    j < cfg.noOfThreads ∧ n < cfg.nArchRegisters type

theorem sized_new (hnew : new cfg = some s₀) : s₀.Sized cfg := by
  have htable : ∀ {nArch nPhy threads : ℕ} {table : RenameTable},
      RenameTable.new nArch nPhy threads = some table →
      table.nPhyRegisters = nPhy ∧
        ∀ j n, table.InBounds j n ↔ j < threads ∧ n < nArch := by
    intro nArch nPhy threads table h
    rw [RenameTable.new] at h
    split_ifs at h
    obtain rfl := Option.some.inj h
    exact ⟨rfl, fun _ _ => Iff.rfl⟩
  rw [new.eq_def] at hnew
  split at hnew
  · rename_i integer float hinteger hfloat
    obtain rfl := Option.some.inj hnew
    refine ⟨fun type => ?_, fun type => ?_⟩
    · cases type with
      | integer => exact (htable hinteger).1
      | float => exact (htable hfloat).1
    · cases type with
      | integer => exact (htable hinteger).2
      | float => exact (htable hfloat).2
  · cases hnew

theorem sized_of_run (hnew : new cfg = some s₀) (run : Run Step s₀ labels s) : s.Sized cfg := by
  refine run.invariant_with (I := fun s => s.Ordered ∧ s.Accounted) (J := fun s => s.Sized cfg)
    (sized_new hnew) (fun labels s hrun => ordered_of_run hnew hrun) fun s label t hI hs hstep => ?_
  have hkept : (∀ type, (t.tables type).nPhyRegisters = (s.tables type).nPhyRegisters) →
      (∀ type j n, (t.tables type).InBounds j n ↔ (s.tables type).InBounds j n) → t.Sized cfg :=
    fun h₁ h₂ => ⟨fun type => (h₁ type).trans (hs.nPhyRegisters type),
      fun type j n => (h₂ type j n).trans (hs.inBounds type j n)⟩
  obtain ⟨hmoves, -, -⟩ := moves_of_step hI.1 hI.2 hstep
  rcases hmoves with ⟨pos, instruction, threadID, -, hd⟩ | ⟨pos, rest, e, allocated, -, hr⟩ |
    ⟨pos, l, m, hv⟩ | ⟨pos, hc⟩
  · rw [hd.after] at hkept ⊢
    exact hkept (fun _ => rfl) fun _ _ _ => Iff.rfl
  · exact hkept (fun _ => hr.allocations.nPhyRegisters) fun _ _ _ => hr.allocations.inBounds
  · exact hkept hv.nPhyRegisters hv.inBounds
  · rw [hc.after] at hkept ⊢
    exact hkept (fun _ => rfl) fun _ _ _ => Iff.rfl

/-- While no value is missing, only the current versions are not in the list of free
registers. -/
theorem Sized.size_of_settled (hs : s.Sized cfg) (ha : s.Accounted) (type : RegisterType)
    (hsettled : ∀ q, (s.tables type).registerFile q = true) :
    cfg.registerFileSize type ≤
      (s.tables type).getAvailableListSize + cfg.noOfThreads * cfg.nArchRegisters type := by
  have hnames : (s.tables type).names =
      Finset.range cfg.noOfThreads ×ˢ Finset.range (cfg.nArchRegisters type) := by
    ext ⟨j, n⟩
    rw [RenameTable.mem_names, hs.inBounds]
    simp
  have hle := (ha.valid type).conserved.card_le_length_free fun q hq =>
    absurd ((hsettled q).symm.trans hq.2) (by decide)
  rw [show (s.tables type).pool.free = (s.tables type).freeRegisters from rfl,
    RenameTable.length_freeRegisters, hnames, RenameTable.registers, Finset.card_range,
    Finset.card_product, Finset.card_range, Finset.card_range, hs.nPhyRegisters] at hle
  exact hle

/-! ### Instructions that can finish -/

/-- The instruction is executed at all, its registers exist, and there is room for the results
of the instruction beside all registers of the threads. -/
structure CanFinish (cfg : PipelineConfig) (instruction : Instruction) (threadID : ℕ) :
    Prop where
  plain : instruction.PlainSources
  executed : OperationType.issueKind instruction.operationType = .noUnit →
    instruction.operationType = .inValid ∨ instruction.operationType = .nop
  registers : ∀ r ∈ instruction.sources ++ instruction.destinations,
    threadID < cfg.noOfThreads ∧ r.2 < cfg.nArchRegisters r.1
  room : ∀ type, registersRequired instruction type +
    cfg.noOfThreads * cfg.nArchRegisters type ≤ cfg.registerFileSize type

/-- What holds of every decoded instruction and its thread holds of every entry. -/
theorem forall_entry_of_run {P : Instruction → ℕ → Prop} (hnew : new cfg = some s₀)
    (run : Run Step s₀ labels s)
    (hP : ∀ instruction threadID, .decode instruction threadID ∈ labels → P instruction threadID) :
    ∀ i ∈ s.rob.window, P (s.entry i).instruction (s.entry i).threadID := by
  induction run with
  | nil =>
    intro i hi
    rw [window_new hnew] at hi
    cases hi
  | @snoc labels s t label prior last ih =>
    obtain ⟨h, ha⟩ := ordered_of_run hnew prior
    have hold := ih fun instruction threadID hmem =>
      hP instruction threadID (List.mem_append_left _ hmem)
    have hkept : ∀ i ∈ s.rob.window, (t.entry i).instruction = (s.entry i).instruction →
        (t.entry i).threadID = (s.entry i).threadID →
        P (t.entry i).instruction (t.entry i).threadID := by
      intro i hi hinstruction hthread
      rw [hinstruction, hthread]
      exact hold i hi
    obtain ⟨hmoves, -, -⟩ := moves_of_step h ha last
    intro i hi
    rcases hmoves with ⟨pos, instruction, threadID, rfl, hd⟩ |
      ⟨pos, rest, e, allocated, -, hr⟩ | ⟨pos, l, m, hv⟩ | ⟨pos, hc⟩
    · by_cases hpos : i = pos
      · rw [hpos, hd.entry_self]
        exact hP instruction threadID (List.mem_append_right _ (List.mem_singleton_self _))
      · rw [hd.window] at hi
        have heq := hd.entry_other i hpos
        exact hkept i (by simpa [hpos] using hi) (by rw [heq]) (by rw [heq])
    · rw [hr.window] at hi
      by_cases hpos : i = pos
      · rw [hpos] at hi
        rw [hpos, hr.entry_self, hr.instruction, hr.threadID]
        exact hold pos hi
      · have heq := hr.entry_other hpos
        exact hkept i hi (by rw [heq]) (by rw [heq])
    · rw [hv.window] at hi
      exact hkept i hi (hv.names i).instruction (hv.names i).threadID
    · have hnodup := h.window_nodup
      rw [hc.window, List.nodup_cons] at hnodup
      have heq := hc.entry_other i (by rintro rfl; exact hnodup.1 hi)
      exact hkept i (by rw [hc.window]; exact List.mem_cons_of_mem _ hi) (by rw [heq])
        (by rw [heq])

/-! ### A result is announced and written -/

theorem setValueValid_succeeds {table : RenameTable} {q : ℕ} (hq : q < table.nPhyRegisters) :
    ∃ table', table.setValueValid (some q) = .ok table' := by
  rw [RenameTable.setValueValid, if_pos hq]
  exact ⟨_, rfl⟩

theorem wakeUpLogic_succeeds {opndType : OperandType} {p : Option ℕ} {startIndex : ℕ}
    (hp : ∀ type : RegisterType, type.operandType = opndType →
      ∃ q, p = some q ∧ q < (s.tables type).nPhyRegisters) :
    ∃ t, s.wakeUpLogic opndType p startIndex = .ok t := by
  rw [wakeUpLogic.eq_def]
  cases opndType with
  | integerRegister =>
    obtain ⟨q, rfl, hq⟩ := hp .integer rfl
    obtain ⟨table, htable⟩ := setValueValid_succeeds hq
    simp only [htable]
    exact ⟨_, rfl⟩
  | floatRegister =>
    obtain ⟨q, rfl, hq⟩ := hp .float rfl
    obtain ⟨table, htable⟩ := setValueValid_succeeds hq
    simp only [htable]
    exact ⟨_, rfl⟩
  | immediate => exact ⟨_, rfl⟩
  | inValid => exact ⟨_, rfl⟩
  | memory => exact ⟨_, rfl⟩

/-- The results of the entry are recorded, and there are such registers. -/
structure HasResults (s : Pipeline) (pos : ℕ) : Prop where
  size_pos : 0 < s.rob.MaxROBSize
  complete : (s.entry pos).Complete
  inRange : ∀ type q, (type, q) ∈ (s.entry pos).results → q < (s.tables type).nPhyRegisters

theorem Ordered.hasResults (h : s.Ordered) (ha : s.Accounted) (hmem : pos ∈ s.rob.window)
    (hissued : (s.entry pos).isIssued = true) : s.HasResults pos :=
  ⟨h.size_pos hmem, h.complete hmem (h.isRenameDone_of_issued hmem hissued), ha.inRange pos hmem⟩

/-- The register of the destination is there when its result is announced. -/
theorem HasResults.destination (h : s.HasResults pos) {d : Operand}
    (hd : (s.entry pos).instruction.destinationOperand = some d) (type : RegisterType)
    (htype : type.operandType = d.operandType) :
    ∃ q, (s.entry pos).physicalDestinationRegister = some q ∧
      q < (s.tables type).nPhyRegisters := by
  have hx : (s.entry pos).instruction.operationType ≠ .xchg := by
    intro hx
    obtain ⟨-, -, -, -, hnone⟩ := Instruction.xchg_operands hx
    rw [hd] at hnone
    cases hnone
  obtain ⟨n, hn⟩ := Operand.operandType_eq_iff.mp htype.symm
  have hwrites := ReorderBufferEntry.writes_of_ne hx
  rw [hd, Option.bind_some, hn] at hwrites
  obtain ⟨q, hq⟩ := Option.isSome_iff_exists.mp (h.complete.allocated
    ((type, n), (s.entry pos).physicalDestinationRegister) (by rw [hwrites]; simp))
  exact ⟨q, hq, h.inRange type q ((mem_results_of_destination hd).mpr ⟨htype, hq⟩)⟩

/-- So are the registers of an exchange. -/
theorem HasResults.exchange (h : s.HasResults pos)
    (hx : (s.entry pos).instruction.operationType = .xchg) {o₁ o₂ : Operand}
    (h₁ : (s.entry pos).instruction.sourceOperand1 = some o₁)
    (h₂ : (s.entry pos).instruction.sourceOperand2 = some o₂) (type : RegisterType) :
    (type.operandType = o₁.operandType → ∃ q, (s.entry pos).operand1.phyReg1 = some q ∧
      q < (s.tables type).nPhyRegisters) ∧
    (type.operandType = o₂.operandType → ∃ q, (s.entry pos).operand2.phyReg1 = some q ∧
      q < (s.tables type).nPhyRegisters) := by
  obtain ⟨r₁, r₂, hr₁, hr₂, -⟩ := Instruction.xchg_operands hx
  have hwrites := ReorderBufferEntry.writes_xchg hx hr₁ hr₂
  have hsome : ∀ w ∈ (s.entry pos).writes, ∃ q, w.2 = some q := fun w hw =>
    Option.isSome_iff_exists.mp (h.complete.allocated w hw)
  have hresults : ∀ q, _ → _ := fun q hq =>
    h.inRange type q ((mem_results_of_xchg hx h.complete h₁ h₂).mpr hq)
  have hfirst : ∃ q, (s.entry pos).operand1.phyReg1 = some q := by
    refine hsome (r₁, (s.entry pos).operand1.phyReg1) ?_
    rw [hwrites]
    split_ifs <;> exact List.mem_cons_self
  have hsecond : ∃ q, (s.entry pos).operand2.phyReg1 = some q := by
    by_cases heq : r₁ = r₂
    · rw [h.complete.exchange hx (by rw [hr₁, hr₂, heq])]
      exact hfirst
    · refine hsome (r₂, (s.entry pos).operand2.phyReg1) ?_
      rw [hwrites, if_neg heq]
      simp
  obtain ⟨q₁, hq₁⟩ := hfirst
  obtain ⟨q₂, hq₂⟩ := hsecond
  exact ⟨fun htype => ⟨q₁, hq₁, hresults q₁ (.inl ⟨htype, hq₁⟩)⟩,
    fun htype => ⟨q₂, hq₂, hresults q₂ (.inr ⟨htype, hq₂⟩)⟩⟩

theorem performBroadCast_succeeds (h : s.HasResults pos) : ∃ t, s.performBroadCast pos = .ok t := by
  rw [performBroadCast.eq_def]
  simp only
  cases hd : (s.entry pos).instruction.destinationOperand with
  | some d => exact wakeUpLogic_succeeds (h.destination hd)
  | none =>
    simp only
    split_ifs with hx
    · obtain ⟨r₁, r₂, hr₁, hr₂, -⟩ := Instruction.xchg_operands hx
      obtain ⟨o₁, h₁, -⟩ := Option.bind_eq_some_iff.mp hr₁
      obtain ⟨o₂, h₂, -⟩ := Option.bind_eq_some_iff.mp hr₂
      have hexchange := h.exchange hx h₁ h₂
      obtain ⟨u, hu⟩ : ∃ u, s.wakeUpLogic o₁.operandType (s.entry pos).operand1.phyReg1
          ((pos + 1) % s.rob.MaxROBSize) = .ok u :=
        wakeUpLogic_succeeds fun type => (hexchange type).1
      obtain ⟨l, -, hannounced⟩ := wakeUpLogic_spec h.size_pos hu
      obtain ⟨t, ht⟩ : ∃ t, u.wakeUpLogic o₂.operandType (u.entry pos).operand2.phyReg1
          ((pos + 1) % s.rob.MaxROBSize) = .ok t := by
        rw [(hannounced.names pos).operand2]
        refine wakeUpLogic_succeeds fun type htype => ?_
        rw [hannounced.table type]
        exact (hexchange type).2 htype
      simp only [h₁, h₂, hu]
      exact ⟨t, ht⟩
    · exact ⟨s, rfl⟩

theorem handleExecutionCompletion_succeeds (h : s.Ordered) (ha : s.Accounted)
    (hmem : pos ∈ s.rob.window) (hissued : (s.entry pos).isIssued = true)
    (hunexecuted : (s.entry pos).isExecuted = false) (queue : List ExecutionEvent) :
    ∃ t, handleExecutionCompletion { s with eventQueue := queue } pos = .ok t := by
  have hrenamed := h.isRenameDone_of_issued hmem hissued
  have hresults := h.hasResults ha hmem hissued
  rw [handleExecutionCompletion.eq_def]
  simp only [show entry { s with eventQueue := queue } pos = s.entry pos from rfl]
  rw [if_neg (by simp [hissued, hunexecuted, hrenamed])]
  split_ifs
  · obtain ⟨u, hu⟩ : ∃ u : Pipeline, u = setEntry { s with eventQueue := queue } pos
        { s.entry pos with isExecuted := true } := ⟨_, rfl⟩
    have hself : u.entry pos = { s.entry pos with isExecuted := true } := by
      rw [hu]
      exact Function.update_self _ _ _
    rw [← hu]
    refine performBroadCast_succeeds ⟨by rw [hu]; exact hresults.size_pos, ?_, ?_⟩
    · rw [hself]
      exact ⟨hresults.complete.allocated, hresults.complete.exchange⟩
    · rw [hself, hu]
      exact hresults.inRange
  · exact ⟨_, rfl⟩

theorem writeBack_succeeds (h : s.Ordered) (ha : s.Accounted) (hmem : pos ∈ s.rob.window)
    (hexecuted : (s.entry pos).isExecuted = true)
    (hunwritten : (s.entry pos).isWriteBackDone = false)
    (hannounces : (s.entry pos).instruction.Announces) : ∃ t, s.performWriteBack pos = .ok t := by
  have hresults := h.hasResults ha hmem (h.isExecuted pos hmem hexecuted)
  obtain ⟨u, hu⟩ : ∃ u : Pipeline, u = { s.setEntry pos ((s.entry pos).staged
      (s.entry pos).isIssued (s.entry pos).isExecuted true (s.entry pos).associatedIWEntry) with
    renameBuffer := s.renameBuffer, eventQueue := s.eventQueue } := ⟨_, rfl⟩
  have hself : u.entry pos = (s.entry pos).staged (s.entry pos).isIssued
      (s.entry pos).isExecuted true (s.entry pos).associatedIWEntry := by
    rw [hu]
    exact Function.update_self _ _ _
  have hresults' : u.HasResults pos := by
    refine ⟨by rw [hu]; exact hresults.size_pos, ?_, ?_⟩
    · rw [hself]
      exact ⟨hresults.complete.allocated, hresults.complete.exchange⟩
    · rw [hself, hu]
      exact hresults.inRange
  obtain ⟨v, hv⟩ : ∃ v, u.wakeUpAtWriteBack pos = .ok v := by
    rw [wakeUpAtWriteBack.eq_def]
    simp only
    by_cases hload : (u.entry pos).instruction.operationType = .load
    · rw [if_pos hload]
      cases hd : (u.entry pos).instruction.destinationOperand with
      | some d => exact wakeUpLogic_succeeds (hresults'.destination hd)
      | none =>
        rw [hself] at hd hload
        rcases hannounces with hsome | hx
        · rw [show (s.entry pos).instruction.destinationOperand = none from hd] at hsome
          cases hsome
        · exact absurd (hload.symm.trans hx) (by decide)
    · rw [if_neg hload]
      exact ⟨u, rfl⟩
  obtain ⟨l, -, hannounced⟩ := wakeUpAtWriteBack_spec hresults'.size_pos hv
  obtain ⟨t, m, hwrite, -⟩ := writeBack_settles h ha hmem hexecuted hunwritten hu hannounced
  refine ⟨t, ?_⟩
  rw [performWriteBack.eq_def]
  simp only
  rw [if_pos ⟨hmem, hexecuted, hunwritten⟩]
  rw [hu] at hv
  change (s.setEntry pos { s.entry pos with isWriteBackDone := true }).wakeUpAtWriteBack pos =
    .ok v at hv
  rw [hv]
  exact hwrite

/-! ### The oldest instruction is renamed -/

theorem physicalRegister_succeeds {o : Option BaseOperand}
    (hbounds : ∀ r ∈ o.bind BaseOperand.register?, (s.tables r.1).InBounds threadID r.2) :
    ∃ p, s.physicalRegister threadID o = .ok p := by
  rw [physicalRegister.eq_def]
  cases hr : o.bind BaseOperand.register? with
  | none => exact ⟨none, rfl⟩
  | some r =>
    simp only [RenameTable.getPhysicalRegister, if_pos (hbounds r hr)]
    exact ⟨_, rfl⟩

theorem processOperand_succeeds {e : ReorderBufferEntry} {opnd : Option Operand}
    {status : OperandStatus} (hbounds : ∀ o ∈ opnd, ∀ r ∈ o.registers,
      (s.tables r.1).InBounds e.threadID r.2) :
    ∃ status', s.processOperand e opnd status = .ok status' := by
  rw [processOperand.eq_def]
  split_ifs
  · exact ⟨_, rfl⟩
  cases opnd with
  | none => exact ⟨_, rfl⟩
  | some operand =>
    cases operand with
    | base o =>
      obtain ⟨p, hp⟩ := physicalRegister_succeeds (s := s) (o := some o) fun r hr =>
        hbounds _ rfl r (by simpa [Operand.registers] using hr)
      simp only [hp]
      exact ⟨_, rfl⟩
    | memory first second =>
      obtain ⟨p₁, hp₁⟩ := physicalRegister_succeeds (s := s) (o := first) fun r hr =>
        hbounds _ rfl r (List.mem_append_left _ (Option.mem_toList.mpr hr))
      obtain ⟨p₂, hp₂⟩ := physicalRegister_succeeds (s := s) (o := second) fun r hr =>
        hbounds _ rfl r (List.mem_append_right _ (Option.mem_toList.mpr hr))
      simp only [hp₁, hp₂]
      exact ⟨_, rfl⟩

theorem processSources_succeeds {e : ReorderBufferEntry}
    (hbounds : ∀ r ∈ e.instruction.sources, (s.tables r.1).InBounds e.threadID r.2) :
    ∃ e', s.processSources e = .ok e' ∧ e'.instruction = e.instruction ∧
      e'.threadID = e.threadID := by
  obtain ⟨status₁, h₁⟩ : ∃ status,
      s.processOperand e e.instruction.sourceOperand1 e.operand1 = .ok status :=
    processOperand_succeeds fun o ho r hr => hbounds r
      (List.mem_append_left _ (List.mem_flatMap.mpr ⟨o, Option.mem_toList.mpr ho, hr⟩))
  obtain ⟨status₂, h₂⟩ : ∃ status,
      s.processOperand e e.instruction.sourceOperand2 e.operand2 = .ok status :=
    processOperand_succeeds fun o ho r hr => hbounds r
      (List.mem_append_right _ (List.mem_flatMap.mpr ⟨o, Option.mem_toList.mpr ho, hr⟩))
  rw [processSources, h₁]
  simp only [Bind.bind, Except.bind, h₂]
  exact ⟨_, rfl, rfl, rfl⟩

theorem handleIntFloat_succeeds {r : RegisterType × ℕ} (h : (s.tables r.1).Valid)
    (hbounds : (s.tables r.1).InBounds threadID r.2)
    (hpos : 0 < (s.tables r.1).getAvailableListSize) :
    ∃ p t, s.handleIntFloat threadID r = .ok (some p, s.setTable r.1 t) ∧
      (s.tables r.1).Allocated t threadID r.2 p := by
  obtain ⟨p, t, hallocate, -⟩ := RenameTable.allocatePhysicalRegister_spec h hbounds hpos
  obtain ⟨x, hx⟩ : ∃ x, s.handleIntFloat threadID r = .ok x := by
    rw [handleIntFloat, hallocate]
    exact ⟨_, rfl⟩
  obtain ⟨p, t, rfl, hallocated⟩ := handleIntFloat_spec h hpos hx
  exact ⟨p, t, hx, hallocated⟩

theorem processDestOperand_succeeds {e : ReorderBufferEntry}
    (hvalid : ∀ type, (s.tables type).Valid)
    (hroom : ∀ type, registersRequired e.instruction type ≤
      (s.tables type).getAvailableListSize)
    (hbounds : ∀ r ∈ e.instruction.destinations, (s.tables r.1).InBounds e.threadID r.2) :
    ∃ x, s.processDestOperand e = .ok x := by
  rw [processDestOperand.eq_def]
  by_cases hx : e.instruction.operationType = .xchg
  · obtain ⟨r₁, r₂, h₁, h₂, -⟩ := Instruction.xchg_operands hx
    rw [Instruction.destinations_xchg hx h₁ h₂] at hbounds
    have hpos : 0 < (s.tables r₁.1).getAvailableListSize := by
      have hle := hroom r₁.1
      rw [registersRequired_xchg hx h₁ h₂, if_pos rfl] at hle
      omega
    obtain ⟨p₁, t₁, hfirst, hallocated⟩ := handleIntFloat_succeeds (hvalid r₁.1)
      (hbounds r₁ (by split_ifs <;> exact List.mem_cons_self)) hpos
    rw [if_pos hx, h₁, h₂]
    simp only [hfirst, Bind.bind, Except.bind]
    by_cases heq : r₁ = r₂
    · rw [if_pos heq]
      exact ⟨_, rfl⟩
    · obtain ⟨hvalid', hpos'⟩ := second_of_xchg hx h₁ h₂ hvalid hroom hallocated
      have hbounds' : ((s.setTable r₁.1 t₁).tables r₂.1).InBounds e.threadID r₂.2 := by
        have hsecond := hbounds r₂ (by rw [if_neg heq]; simp)
        exact forall_setTable (P := fun type table => ∀ j n,
            (s.tables type).InBounds j n → table.InBounds j n)
          (fun j n => (hallocated.inBounds j n).mpr) (fun _ _ _ _ h => h) r₂.1 _ _ hsecond
      obtain ⟨p₂, t₂, hsecond, -⟩ := handleIntFloat_succeeds hvalid' hbounds' hpos'
      rw [if_neg heq, hsecond]
      exact ⟨_, rfl⟩
  · rw [if_neg hx]
    rw [Instruction.destinations_of_ne hx] at hbounds
    cases hd : e.instruction.destinationOperand.bind Operand.register? with
    | none => exact ⟨_, rfl⟩
    | some r =>
      have hpos : 0 < (s.tables r.1).getAvailableListSize := by
        have hle := hroom r.1
        rw [registersRequired_of_ne hx hd] at hle
        omega
      obtain ⟨p, t, hfirst, -⟩ := handleIntFloat_succeeds (hvalid r.1)
        (hbounds r (by rw [hd]; simp)) hpos
      simp only [hfirst, Bind.bind, Except.bind]
      exact ⟨_, rfl⟩

/-- An instruction behind which nothing else is on its way is renamed. -/
theorem rename_succeeds (h : s.Ordered) (ha : s.Accounted) (hs : s.Sized cfg)
    (hdecode : s.decodeBuffer = pos :: rest) (hwindow : s.rob.window = s.decodeBuffer)
    (hfinish : CanFinish cfg (s.entry pos).instruction (s.entry pos).threadID) :
    ∃ t, s.performRename = .ok t := by
  have hsettled : ∀ type q, (s.tables type).registerFile q = true := by
    intro type q
    rw [← Bool.not_eq_false, ha.pending]
    rintro ⟨i, hi, -, hq⟩
    rw [hwindow] at hi
    obtain ⟨instruction, threadID, hfresh⟩ := h.fresh i hi
    rw [hfresh, ReorderBufferEntry.results_fresh] at hq
    cases hq
  have hroom : ∀ type, registersRequired (s.entry pos).instruction type ≤
      (s.tables type).getAvailableListSize := by
    intro type
    have hsize := hs.size_of_settled ha type (hsettled type)
    have hfits := hfinish.room type
    omega
  have hbounds : ∀ r ∈ (s.entry pos).instruction.sources ++
      (s.entry pos).instruction.destinations,
      (s.tables r.1).InBounds (s.entry pos).threadID r.2 := fun r hr =>
    (hs.inBounds r.1 _ _).mpr (hfinish.registers r hr)
  obtain ⟨e, hsources, hinstruction, hthread⟩ := processSources_succeeds (s := s)
    (e := s.entry pos) fun r hr => hbounds r (List.mem_append_left _ hr)
  obtain ⟨⟨e', t⟩, hdest⟩ : ∃ x, s.processDestOperand e = .ok x := by
    refine processDestOperand_succeeds ha.valid ?_ ?_
    · rw [hinstruction]
      exact hroom
    · rw [hinstruction, hthread]
      exact fun r hr => hbounds r (List.mem_append_right _ hr)
  rw [performRename.eq_def, hdecode]
  simp only
  rw [if_pos (by simp [canDestOperandBeProcessed, hroom]), hsources]
  simp only [Bind.bind, Except.bind, hdest]
  exact ⟨_, rfl⟩

/-! ### The oldest instruction never waits -/

/-- The pipeline is in one of the states that a run without exits reaches. -/
structure Alive (s : Pipeline) (cfg : PipelineConfig) : Prop where
  ordered : s.Ordered
  accounted : s.Accounted
  sized : s.Sized cfg
  flowing : s.Flowing
  awaited : s.Awaited
  canFinish : ∀ i ∈ s.rob.window, CanFinish cfg (s.entry i).instruction (s.entry i).threadID

theorem alive_of_run (hnew : new cfg = some s₀) (run : Run Step s₀ labels s)
    (hfinish : ∀ instruction threadID, .decode instruction threadID ∈ labels →
      CanFinish cfg instruction threadID) : s.Alive cfg where
  ordered := (ordered_of_run hnew run).1
  accounted := (ordered_of_run hnew run).2
  sized := sized_of_run hnew run
  flowing := flowing_of_run hnew run
  awaited := (awaited_of_run hnew run).2
  canFinish := forall_entry_of_run hnew run hfinish

/-- The operands of the oldest instruction are available once it is renamed. -/
theorem Alive.available (h : s.Alive cfg) (hwindow : s.rob.window = pos :: rest)
    (hrenamed : (s.entry pos).isRenameDone = true) (hissued : (s.entry pos).isIssued = false) :
    (s.entry pos).operand1.available = true ∧ (s.entry pos).operand2.available = true := by
  have hmem : pos ∈ s.rob.window := by rw [hwindow]; exact List.mem_cons_self
  have hnodup := h.ordered.window_nodup
  rw [hwindow] at hnodup
  have hready : ∀ part ∈ (s.entry pos).parts, part.ready ≠ false := by
    intro part hpart hmissing
    obtain ⟨j, q, holder, -⟩ := h.awaited pos hmem hrenamed hissued part hpart hmissing
    rw [hwindow] at holder
    have hj : j ∈ ([] : List ℕ) := mem_of_sublist_append holder (List.nodup_cons.mp hnodup).1
    cases hj
  obtain ⟨hplain₁, hplain₂⟩ := (h.canFinish pos hmem).plain
  obtain ⟨hcoherent₁, hcoherent₂⟩ := h.ordered.coherent hmem hrenamed
  refine ⟨?_, ?_⟩
  · rw [← Bool.not_eq_false]
    intro hunavailable
    obtain ⟨part, hpart, hmissing⟩ :=
      hcoherent₁.missing (plain_ne_inValid hplain₁) hunavailable
    exact hready part (List.mem_append_left _ hpart) hmissing
  · rw [← Bool.not_eq_false]
    intro hunavailable
    obtain ⟨part, hpart, hmissing⟩ :=
      hcoherent₂.missing (plain_ne_inValid hplain₂) hunavailable
    exact hready part (List.mem_append_right _ hpart) hmissing

theorem commit_succeeds (h : s.Ordered) (hwindow : s.rob.window = pos :: rest)
    (hwritten : (s.entry pos).isWriteBackDone = true) : ∃ t, s.performCommits = .ok t := by
  have hsize : 0 < size s.rob.MaxROBSize s.rob.head s.rob.tail := by
    rw [← length_occupied, show occupied s.rob.MaxROBSize s.rob.head s.rob.tail = pos :: rest
      from hwindow]
    exact Nat.succ_pos _
  have hhead : s.rob.head ≠ -1 := by
    intro heq
    rw [heq, size_empty] at hsize
    exact absurd hsize (lt_irrefl 0)
  have hpop := h.indices.occupied_pop hsize
  rw [show occupied s.rob.MaxROBSize s.rob.head s.rob.tail = pos :: rest from hwindow] at hpop
  rw [performCommits, if_neg hhead, ← (List.cons.inj hpop).1, if_pos hwritten]
  exact ⟨_, rfl⟩

/-- What is being executed completes. -/
theorem Alive.execution (h : s.Alive cfg) (hmem : pos ∈ s.rob.window)
    (hissued : (s.entry pos).isIssued = true) (hunexecuted : (s.entry pos).isExecuted = false) :
    (∃ t, s.Step (.broadCast pos) t) ∨ ∃ t, s.Step (.execComplete pos) t := by
  have hcompletes := handleExecutionCompletion_succeeds h.ordered h.accounted hmem hissued
    hunexecuted
  rcases h.flowing.running pos hmem hissued hunexecuted with hload | ⟨hunit, hevent⟩ |
    ⟨hnone, hreal⟩
  · have hop : (s.entry pos).instruction.operationType = .load := by
      cases hop : (s.entry pos).instruction.operationType <;> rw [hop] at hload <;>
        first | rfl | cases hload
    have hnoevent : .execComplete pos ∉ s.eventQueue := by
      intro hevent
      have hunit := (h.ordered.execComplete_event pos hevent).2.2.2
      rw [hload] at hunit
      cases hunit
    obtain ⟨t, ht⟩ := hcompletes s.eventQueue
    refine .inr ⟨t, ?_⟩
    rw [Step, next, if_neg fun hevents => hnoevent hevents.1,
      if_pos ⟨hmem, hop, hissued, hunexecuted⟩]
    exact ht
  · by_cases hbroadCast : .broadCast pos ∈ s.eventQueue
    · left
      rw [show (∃ t, s.Step (.broadCast pos) t) = ∃ t, performBroadCast
        { s with eventQueue := s.eventQueue.erase (.broadCast pos) } pos = .ok t by
          simp only [Step, next, if_pos hbroadCast]]
      have hresults := h.ordered.hasResults h.accounted hmem hissued
      exact performBroadCast_succeeds ⟨hresults.size_pos, hresults.complete, hresults.inRange⟩
    · obtain ⟨t, ht⟩ := hcompletes (s.eventQueue.erase (.execComplete pos))
      refine .inr ⟨t, ?_⟩
      rw [Step, next, if_pos ⟨hevent, hbroadCast⟩]
      exact ht
  · exact absurd ((h.canFinish pos hmem).executed hnone) hreal

/-- The oldest instruction is in the rename buffer, or only its issue is missing, or a step of
another stage takes it on. -/
theorem Alive.oldest (h : s.Alive cfg) (hwindow : s.rob.window = pos :: rest) :
    (∃ label t, NotDecode label ∧ label ≠ .iwPush ∧ (∀ i, label ≠ .issue i) ∧ s.Step label t) ∨
    (∃ later, s.renameBuffer = pos :: later) ∨
    (s.entry pos).isIssued = false ∧ (s.entry pos).associatedIWEntry = true := by
  have hmem : pos ∈ s.rob.window := by rw [hwindow]; exact List.mem_cons_self
  by_cases hissued : (s.entry pos).isIssued = true
  · left
    by_cases hexecuted : (s.entry pos).isExecuted = true
    · by_cases hwritten : (s.entry pos).isWriteBackDone = true
      · obtain ⟨t, ht⟩ := commit_succeeds h.ordered hwindow hwritten
        exact ⟨.commit, t, by simp [NotDecode], by simp, by simp, ht⟩
      · rw [Bool.not_eq_true] at hwritten
        obtain ⟨t, ht⟩ := writeBack_succeeds h.ordered h.accounted hmem hexecuted hwritten
          (h.flowing.announces pos hmem hexecuted hwritten)
        exact ⟨.writeBack pos, t, by simp [NotDecode], by simp, by simp, ht⟩
    · rw [Bool.not_eq_true] at hexecuted
      rcases h.execution hmem hissued hexecuted with ⟨t, ht⟩ | ⟨t, ht⟩
      · exact ⟨.broadCast pos, t, by simp [NotDecode], by simp, by simp, ht⟩
      · exact ⟨.execComplete pos, t, by simp [NotDecode], by simp, by simp, ht⟩
  · rw [Bool.not_eq_true] at hissued
    obtain ⟨pushed, hsplit, hpushed⟩ := h.flowing.split
    rw [hwindow] at hsplit
    cases pushed with
    | cons first pushed =>
      have hfirst := hpushed first List.mem_cons_self
      rw [← (List.cons.inj hsplit).1, hissued] at hfirst
      exact .inr (.inr ⟨hissued, hfirst.resolve_left (by decide)⟩)
    | nil =>
      cases hrename : s.renameBuffer with
      | cons first later =>
        rw [hrename] at hsplit
        rw [(List.cons.inj hsplit).1]
        exact .inr (.inl ⟨later, rfl⟩)
      | nil =>
        rw [hrename, List.nil_append, List.nil_append] at hsplit
        obtain ⟨t, ht⟩ := rename_succeeds h.ordered h.accounted h.sized hsplit.symm
          (hwindow.trans hsplit) (h.canFinish pos hmem)
        exact .inl ⟨.rename, t, by simp [NotDecode], by simp, by simp, ht⟩

/-! ### How much is left -/

/-- No instruction needs more than eight steps. -/
theorem Alive.work_le (h : s.Alive cfg) : s.work ≤ 8 * s.rob.window.length := by
  obtain ⟨pushed, hsplit, -⟩ := h.flowing.split
  have hstage : ∀ stage : EntryStage, stage.work ≤ 6 := by
    intro stage
    rw [EntryStage.work]
    split_ifs <;> omega
  have hsum : (s.rob.window.map fun i => (s.entry i).stage.work).sum ≤ 6 * s.rob.window.length := by
    have hle := List.sum_le_card_nsmul (s.rob.window.map fun i => (s.entry i).stage.work) 6 (by
      intro n hn
      obtain ⟨i, -, rfl⟩ := List.mem_map.mp hn
      exact hstage _)
    rw [List.length_map, Nat.nsmul_eq_mul] at hle
    omega
  -- only what is issued has events, and that has left the rename buffer
  have hevents : s.eventQueue.length ≤ (pushed.map ExecutionEvent.broadCast ++
      pushed.map ExecutionEvent.execComplete).length := by
    have hpushed : ∀ i, .execComplete i ∈ s.eventQueue → i ∈ pushed := by
      intro i hi
      obtain ⟨hmem, hissued, -, -⟩ := h.ordered.execComplete_event i hi
      rw [hsplit] at hmem
      rcases List.mem_append.mp hmem with hmem | hmem
      · exact hmem
      · rcases List.mem_append.mp hmem with hmem | hmem
        · rw [(h.ordered.waiting i hmem).2.2.1] at hissued
          cases hissued
        · obtain ⟨instruction, threadID, heq⟩ := h.ordered.fresh i hmem
          rw [heq] at hissued
          cases hissued
    refine (List.subperm_of_subset h.ordered.eventQueue_nodup fun event hevent => ?_).length_le
    cases event with
    | broadCast i =>
      exact List.mem_append_left _ (List.mem_map_of_mem
        (hpushed i (h.ordered.broadCast_event i hevent)))
    | execComplete i =>
      exact List.mem_append_right _ (List.mem_map_of_mem (hpushed i hevent))
  have hlength := congrArg List.length hsplit
  simp only [List.length_append, List.length_map] at hevents hlength
  rw [work]
  omega

end Pipeline

end Tejas
