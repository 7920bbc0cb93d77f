import Tejas.RegisterConservation

/-!
# The list of free registers never overflows

The exit for a full list lies behind every allocation and every write-back. In a pipeline
that accounts for its registers no step reaches it.
-/

namespace Tejas
open LabelledRuns RingWindow RingIndices RegisterPool

theorem Except.bind_ne {ε α β : Type} {x : Except ε α} {f : α → Except ε β} {err : ε}
    (hx : x ≠ .error err) (hf : ∀ a, x = .ok a → f a ≠ .error err) : x >>= f ≠ .error err := by
  cases x with
  | error err' => exact fun h => hx (congrArg Except.error (Except.error.inj h))
  | ok a => exact hf a rfl

theorem Except.map_ne {ε α β : Type} {x : Except ε α} {f : α → β} {err : ε}
    (hx : x ≠ .error err) : x.map f ≠ .error err := by
  cases x with
  | error err' => exact fun h => hx (by rw [← Except.error.inj h])
  | ok a => exact fun h => by cases h

namespace Pipeline

variable {s t : Pipeline} {pos threadID : ℕ} {e : ReorderBufferEntry} {opnd : Option Operand}
  {status : OperandStatus} {r : RegisterType × ℕ} {opndType : OperandType} {p : Option ℕ}
  {startIndex : ℕ}

theorem processSources_ne (e : ReorderBufferEntry) :
    s.processSources e ≠ .error .registerListOverflow := by
  have hregister : ∀ o, s.physicalRegister e.threadID o ≠ .error .registerListOverflow := by
    intro o
    rw [physicalRegister.eq_def]
    split
    · refine Except.map_ne ?_
      rw [RenameTable.getPhysicalRegister]
      split_ifs <;> simp
    · simp
  have hoperand : ∀ opnd status, s.processOperand e opnd status ≠ .error .registerListOverflow := by
    intro opnd status
    rw [processOperand.eq_def]
    split_ifs
    · simp
    · split
      · simp
      · exact Except.bind_ne (hregister _) fun _ _ => by simp
      · exact Except.bind_ne (hregister _) fun _ _ =>
          Except.bind_ne (hregister _) fun _ _ => by simp
  exact Except.bind_ne (hoperand _ _) fun _ _ => Except.bind_ne (hoperand _ _) fun _ _ => by simp

/-- With a free register, an allocation fails only for a register that does not exist. -/
theorem handleIntFloat_ne (h : (s.tables r.1).Valid)
    (hpos : 0 < (s.tables r.1).getAvailableListSize) :
    s.handleIntFloat threadID r ≠ .error .registerListOverflow := by
  have halloc : (s.tables r.1).allocatePhysicalRegister threadID r.2 ≠
      .error .registerListOverflow := by
    by_cases hname : (s.tables r.1).InBounds threadID r.2
    · obtain ⟨p, t', heq, -⟩ := RenameTable.allocatePhysicalRegister_spec h hname hpos
      rw [heq]
      simp
    · rw [RenameTable.allocatePhysicalRegister]
      split_ifs <;> simp
  refine Except.bind_ne halloc fun x _ => ?_
  obtain ⟨allocated, t⟩ := x
  cases allocated <;> simp

theorem processDestOperand_ne (hvalid : ∀ type, (s.tables type).Valid)
    (hroom : ∀ type, registersRequired e.instruction type ≤
      (s.tables type).getAvailableListSize) :
    s.processDestOperand e ≠ .error .registerListOverflow := by
  rw [processDestOperand.eq_def]
  by_cases hx : e.instruction.operationType = .xchg
  · obtain ⟨r₁, r₂, h₁, h₂, -⟩ := Instruction.xchg_operands hx
    have hpos : 0 < (s.tables r₁.1).getAvailableListSize := by
      have hle := hroom r₁.1
      rw [registersRequired_xchg hx h₁ h₂, if_pos rfl] at hle
      omega
    rw [if_pos hx, h₁, h₂]
    refine Except.bind_ne (handleIntFloat_ne (hvalid r₁.1) hpos) fun x hfirst => ?_
    obtain ⟨p₁, t₁, rfl, hallocated⟩ := handleIntFloat_spec (hvalid r₁.1) hpos hfirst
    by_cases heq : r₁ = r₂
    · simp [heq]
    · obtain ⟨hvalid', hpos'⟩ := second_of_xchg hx h₁ h₂ hvalid hroom hallocated
      simp only [heq, ↓reduceIte]
      refine Except.bind_ne (handleIntFloat_ne hvalid' hpos') fun x hsecond => ?_
      obtain ⟨p₂, t₂, rfl, -⟩ := handleIntFloat_spec hvalid' hpos' hsecond
      simp
  · rw [if_neg hx]
    cases hd : e.instruction.destinationOperand.bind Operand.register? with
    | none => simp
    | some r =>
      have hpos : 0 < (s.tables r.1).getAvailableListSize := by
        have hle := hroom r.1
        rw [registersRequired_of_ne hx hd] at hle
        omega
      refine Except.bind_ne (handleIntFloat_ne (hvalid r.1) hpos) fun x hfirst => ?_
      obtain ⟨p, t₁, rfl, -⟩ := handleIntFloat_spec (hvalid r.1) hpos hfirst
      simp

theorem performRename_ne (ha : s.Accounted) :
    s.performRename ≠ .error .registerListOverflow := by
  rw [performRename.eq_def]
  split
  · simp
  · rename_i pos rest hbuffer
    split_ifs with hroom
    · refine Except.bind_ne (processSources_ne _) fun e hsources => ?_
      have hinstruction : e.instruction = (s.entry pos).instruction := by
        obtain ⟨status₁, -, hsecond⟩ := Except.bind_ok hsources
        obtain ⟨status₂, -, hboth⟩ := Except.bind_ok hsecond
        rw [← Except.ok.inj hboth]
      refine Except.bind_ne (processDestOperand_ne ha.valid ?_) fun _ _ => by simp
      rw [hinstruction]
      exact le_size_of_canDestOperandBeProcessed hroom
    · simp

theorem wakeUpLogic_ne :
    s.wakeUpLogic opndType p startIndex ≠ .error .registerListOverflow := by
  have hset : ∀ t : RenameTable, t.setValueValid p ≠ .error .registerListOverflow := by
    intro t
    rw [RenameTable.setValueValid.eq_def]
    split
    · split_ifs <;> simp
    · simp
  rw [wakeUpLogic.eq_def]
  cases opndType with
  | integerRegister => exact Except.map_ne (hset _)
  | floatRegister => exact Except.map_ne (hset _)
  | immediate => simp
  | inValid => simp
  | memory => simp

theorem performBroadCast_ne : s.performBroadCast pos ≠ .error .registerListOverflow := by
  rw [performBroadCast.eq_def]
  simp only
  split
  · exact wakeUpLogic_ne
  · split_ifs
    · split
      · exact Except.bind_ne wakeUpLogic_ne fun _ _ => wakeUpLogic_ne
      · simp
    · simp

theorem handleExecutionCompletion_ne :
    s.handleExecutionCompletion pos ≠ .error .registerListOverflow := by
  rw [handleExecutionCompletion.eq_def]
  simp only
  split_ifs
  · simp
  · exact performBroadCast_ne
  · simp

theorem performWriteBack_ne (h : s.Ordered) (ha : s.Accounted) :
    s.performWriteBack pos ≠ .error .registerListOverflow := by
  rw [performWriteBack.eq_def]
  simp only
  split_ifs with hready
  · obtain ⟨hmem, hexecuted, hunwritten⟩ := hready
    obtain ⟨u, hu⟩ : ∃ u : Pipeline, u = { s.setEntry pos ((s.entry pos).staged
        (s.entry pos).isIssued (s.entry pos).isExecuted true (s.entry pos).associatedIWEntry) with
      renameBuffer := s.renameBuffer, eventQueue := s.eventQueue } := ⟨_, rfl⟩
    have hwake : u.wakeUpAtWriteBack pos ≠ .error .registerListOverflow := by
      rw [wakeUpAtWriteBack.eq_def]
      simp only
      split_ifs
      · split
        · exact wakeUpLogic_ne
        · simp
      · simp
    have hrest : u.wakeUpAtWriteBack pos >>= (fun v => v.writeResults pos) ≠
        .error .registerListOverflow := by
      refine Except.bind_ne hwake fun v hv => ?_
      obtain ⟨l, -, hannounced⟩ :=
        wakeUpAtWriteBack_spec (by rw [hu]; exact h.size_pos hmem) hv
      obtain ⟨t, m, hwrite, -⟩ := writeBack_settles h ha hmem hexecuted hunwritten hu
        hannounced
      rw [hwrite]
      simp
    rw [hu] at hrest
    exact hrest
  · simp

/-- No step of a pipeline that accounts for its registers ends in the overflow exit. -/
theorem next_ne_registerListOverflow (h : s.Ordered) (ha : s.Accounted) (label : PipelineLabel) :
    s.next label ≠ .error .registerListOverflow := by
  cases label with
  | decode instruction threadID =>
    rw [next, performDecode]
    split_ifs <;> simp
  | rename => exact performRename_ne ha
  | iwPush =>
    rw [next, performIWPush.eq_def]
    split
    · simp
    · simp only
      split_ifs <;> simp
  | issue pos =>
    rw [next, issueInstruction.eq_def]
    simp only
    split_ifs
    · simp
    · split <;> simp
    · simp
    · simp
  | broadCast pos =>
    rw [next]
    split_ifs
    · exact performBroadCast_ne
    · simp
  | execComplete pos =>
    rw [next]
    split_ifs
    · exact handleExecutionCompletion_ne
    · exact handleExecutionCompletion_ne
    · simp
  | writeBack pos => exact performWriteBack_ne h ha
  | commit =>
    rw [next, performCommits]
    split_ifs <;> simp

/-! ### Where every physical register is -/

/-- The physical register is in the list of free registers once, and nowhere else. -/
def InFreeList (s : Pipeline) (type : RegisterType) (p : ℕ) : Prop :=
  (s.tables type).freeRegisters.count p = 1 ∧
    (¬ ∃ a ∈ (s.tables type).names, (s.tables type).archToPhyMapping a.1 a.2 = p) ∧
    ¬ ∃ i ∈ s.rob.window, (s.entry i).isWriteBackDone = false ∧ (type, p) ∈ (s.entry i).results

/-- The physical register is the current version of exactly one register of a thread. -/
def IsMapped (s : Pipeline) (type : RegisterType) (p : ℕ) : Prop :=
  p ∉ (s.tables type).freeRegisters ∧
    ∃! a, a ∈ (s.tables type).names ∧ (s.tables type).archToPhyMapping a.1 a.2 = p

/-- The physical register is no current version, and exactly one instruction on its way
writes to it, which puts it into the list of free registers at its write-back. -/
def AwaitsWriteBack (s : Pipeline) (type : RegisterType) (p : ℕ) : Prop :=
  p ∉ (s.tables type).freeRegisters ∧
    (¬ ∃ a ∈ (s.tables type).names, (s.tables type).archToPhyMapping a.1 a.2 = p) ∧
    ∃! i, i ∈ s.rob.window ∧ (s.entry i).isWriteBackDone = false ∧
      (type, p) ∈ (s.entry i).results ∧
      ∀ t, s.Step (.writeBack i) t → p ∈ (t.tables type).freeRegisters

/-- Every physical register is in exactly one place, the list of free registers does not
overflow, and no two results on their way share a physical register. -/
structure Conserves (s : Pipeline) : Prop where
  place : ∀ type p, p < (s.tables type).nPhyRegisters →
    s.InFreeList type p ∨ s.IsMapped type p ∨ s.AwaitsWriteBack type p
  overflow : ∀ label, s.next label ≠ .error .registerListOverflow
  separate : ∀ i ∈ s.rob.window, ∀ j ∈ s.rob.window,
    (s.entry i).isWriteBackDone = false → (s.entry j).isWriteBackDone = false →
    ∀ r, r ∈ (s.entry i).results → r ∈ (s.entry j).results → i = j
  nodup : ∀ i ∈ s.rob.window, (s.entry i).results.Nodup

variable {type : RegisterType} {q i : ℕ}

/-- The write-back of the last writer of an unmapped register frees it. -/
theorem free_of_writeBack (h : s.Ordered) (ha : s.Accounted) (hi : i ∈ s.rob.window)
    (hmem : (type, q) ∈ (s.entry i).results)
    (hunmapped : ¬ (s.tables type).pool.Mapped (s.tables type).names q)
    (hstep : s.Step (.writeBack i) t) : q ∈ (t.tables type).freeRegisters := by
  obtain ⟨l, m, hv, ht, hwritten⟩ := writeBack_spec h ha hstep
  have hunwritten : (s.entry i).isWriteBackDone = false := by
    have hready := hstep
    rw [Step, next, performWriteBack.eq_def] at hready
    simp only at hready
    split_ifs at hready with hcond
    exact hcond.2.2
  have hfile : (t.tables type).registerFile q = true := by
    rw [hv.registerFile]
    refine .inr ((hv.writtenBack hwritten).resolve_left ?_ _ hmem)
    simp [hunwritten]
  have hat := hv.accounted ha
  have hbound : q ∈ (t.tables type).registers := by
    rw [RenameTable.registers, Finset.mem_range, hv.nPhyRegisters]
    exact ha.inRange i hi type q hmem
  rcases (hat.valid type).conserved.covered q hbound with hfree | hmapped | hpending
  · exact hfree
  · refine absurd ?_ hunmapped
    obtain ⟨a, hname, hmap⟩ := hmapped
    refine ⟨a, ?_, ?_⟩
    · rw [← Prod.mk.eta (p := a), RenameTable.mem_names, ← hv.inBounds,
        ← RenameTable.mem_names]
      exact hname
    · rw [← hmap]
      exact (congrFun (congrFun (hv.archToPhyMapping type) a.1) a.2).symm
  · exact absurd (hfile.symm.trans hpending.2) (by decide)

theorem Accounted.conserves (ha : s.Accounted) (h : s.Ordered) : s.Conserves where
  place type q hq := by
    have hconserved := (ha.valid type).conserved
    rcases hconserved.covered q (Finset.mem_range.mpr hq) with hfree | hrest
    · refine .inl ⟨List.count_eq_one_of_mem hconserved.free_nodup hfree,
        hconserved.free_unmapped q hfree, fun hwriter => ?_⟩
      exact hconserved.free_settled q hfree ⟨hq, (ha.pending type q).mpr hwriter⟩
    · by_cases hmapped : (s.tables type).pool.Mapped (s.tables type).names q
      · exact .inr (.inl ⟨fun hfree => hconserved.free_unmapped q hfree hmapped,
          hconserved.existsUnique_name hmapped⟩)
      · have hpending := hrest.resolve_left hmapped
        obtain ⟨i, hi, hunwritten, hmem⟩ := (ha.pending type q).mp hpending.2
        refine .inr (.inr ⟨fun hfree => hconserved.free_settled q hfree hpending, hmapped, i,
          ⟨hi, hunwritten, hmem, fun t hstep => free_of_writeBack h ha hi hmem hmapped hstep⟩,
          fun j hj => ?_⟩)
        exact ha.separate j hj.1 i hi hj.2.1 hunwritten _ hj.2.2.1 hmem
  overflow := next_ne_registerListOverflow h ha
  separate := ha.separate
  nodup := ha.nodup

/-- For every size that the constructors accept and every run of the pipeline, the physical
registers are conserved. -/
theorem physicalRegisters_conserved {cfg : PipelineConfig} {s₀ : Pipeline}
    {labels : List PipelineLabel} (hnew : new cfg = some s₀) (run : Run Step s₀ labels s) :
    s.Conserves := by
  obtain ⟨h, ha⟩ := ordered_of_run hnew run
  exact ha.conserves h

/-- An exchange is renamed while a move to one of its registers is on its way. -/
theorem physicalRegisters_conserved_exchange :
    ∃ s₀ s, new ⟨4, 1, fun _ => 2, fun _ => 6⟩ = some s₀ ∧
      s₀.follow [.decode ⟨.mov, some (.base .immediate), none,
          some (.base (.register .integer 0)), rfl⟩ 0,
        .decode ⟨.xchg, some (.base (.register .integer 0)),
          some (.base (.register .integer 1)), none, rfl⟩ 0,
        .rename, .rename, .iwPush, .issue 0] = some s ∧ s.Conserves := by
  obtain ⟨s₀, hnew⟩ := Option.isSome_iff_exists.mp
    (by decide : (new ⟨4, 1, fun _ => 2, fun _ => 6⟩).isSome = true)
  obtain ⟨s, hs⟩ : ∃ s, s₀.follow [.decode ⟨.mov, some (.base .immediate), none,
          some (.base (.register .integer 0)), rfl⟩ 0,
        .decode ⟨.xchg, some (.base (.register .integer 0)),
          some (.base (.register .integer 1)), none, rfl⟩ 0,
        .rename, .rename, .iwPush, .issue 0] = some s := by
    obtain rfl := Option.some.inj hnew
    exact Option.isSome_iff_exists.mp (by decide)
  exact ⟨s₀, s, hnew, hs, physicalRegisters_conserved hnew (run_of_follow hs)⟩

end Pipeline

end Tejas
