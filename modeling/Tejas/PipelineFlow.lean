import Tejas.LostWakeUps
import Tejas.PipelineWork

/-!
# The flow through the pipeline

Every instruction in the reorder buffer is where the next stage looks for it: in the decode
buffer, the rename buffer or the instruction window, or with an event or the load-store queue
if it is being executed.
-/

namespace Tejas
open LabelledRuns RegisterPool

namespace Pipeline

variable {s t s₀ : Pipeline} {pos i threadID : ℕ} {label : PipelineLabel} {stage : EntryStage}
  {renameBuffer : List ℕ} {eventQueue : List ExecutionEvent} {instruction : Instruction}
  {cfg : PipelineConfig} {labels : List PipelineLabel}

/-! ### The order of the stages -/

/-- The instructions behind the rename buffer are in the instruction window or issued, and what
is being executed has an event or waits for the load-store queue. -/
structure Flowing (s : Pipeline) : Prop where
  split : ∃ pushed, s.rob.window = pushed ++ (s.renameBuffer ++ s.decodeBuffer) ∧
    ∀ i ∈ pushed, (s.entry i).isIssued = true ∨ (s.entry i).associatedIWEntry = true
  real : ∀ i ∈ s.rob.window, (s.entry i).associatedIWEntry = true →
    ¬ ((s.entry i).instruction.operationType = .inValid ∨
      (s.entry i).instruction.operationType = .nop)
  running : ∀ i ∈ s.rob.window, (s.entry i).isIssued = true → (s.entry i).isExecuted = false →
    OperationType.issueKind (s.entry i).instruction.operationType = .load ∨
    OperationType.issueKind (s.entry i).instruction.operationType = .unit ∧
      .execComplete i ∈ s.eventQueue ∨
    OperationType.issueKind (s.entry i).instruction.operationType = .noUnit ∧
      ¬ ((s.entry i).instruction.operationType = .inValid ∨
        (s.entry i).instruction.operationType = .nop)
  announces : ∀ i ∈ s.rob.window, (s.entry i).isExecuted = true →
    (s.entry i).isWriteBackDone = false → (s.entry i).instruction.Announces

/-- An entry stays in the instruction window, or issued. -/
theorem EntryMove.kept (hmove : s.EntryMove label pos stage renameBuffer eventQueue)
    (h : (s.entry pos).isIssued = true ∨ (s.entry pos).associatedIWEntry = true) :
    stage.isIssued = true ∨ stage.associatedIWEntry = true := by
  cases hmove with
  | skip => exact .inl rfl
  | push => exact .inr rfl
  | start => exact .inl rfl
  | finish => exact .inl rfl
  | dispatch => exact .inl rfl
  | broadCast => exact h
  | complete => exact h
  | writeBack => exact h

theorem EntryMove.split (hmove : s.EntryMove label pos stage renameBuffer eventQueue)
    (hm : s.Moved t pos stage renameBuffer eventQueue) (hf : s.Flowing) :
    ∃ pushed, t.rob.window = pushed ++ (t.renameBuffer ++ t.decodeBuffer) ∧
      ∀ i ∈ pushed, (t.entry i).isIssued = true ∨ (t.entry i).associatedIWEntry = true := by
  obtain ⟨pushed, hwindow, hpushed⟩ := hf.split
  have hself : ∀ i, (i = pos → stage.isIssued = true ∨ stage.associatedIWEntry = true) →
      (i ≠ pos → i ∈ pushed) →
      (t.entry i).isIssued = true ∨ (t.entry i).associatedIWEntry = true := by
    intro i hpos hother
    by_cases hi : i = pos
    · have hstage := hm.self
      rw [← hi] at hstage
      rw [← hstage] at hpos
      exact hpos hi
    · have hstage := hm.other i hi
      have hold := hpushed i (hother hi)
      change (s.entry i).stage.isIssued = true ∨ (s.entry i).stage.associatedIWEntry = true at hold
      rw [← hstage] at hold
      exact hold
  have hfirst : ∀ rest, s.renameBuffer = pos :: rest → renameBuffer = rest →
      (stage.isIssued = true ∨ stage.associatedIWEntry = true) →
      ∃ pushed, t.rob.window = pushed ++ (t.renameBuffer ++ t.decodeBuffer) ∧
        ∀ i ∈ pushed, (t.entry i).isIssued = true ∨ (t.entry i).associatedIWEntry = true := by
    rintro rest hbuffer rfl hstage
    refine ⟨pushed ++ [pos], ?_, fun i hi => hself i (fun _ => hstage) fun hne => ?_⟩
    · rw [hm.window, hwindow, hbuffer, hm.renameBuffer, hm.decodeBuffer]
      simp
    · rcases List.mem_append.mp hi with hi | hi
      · exact hi
      · exact absurd (List.mem_singleton.mp hi) hne
  have hsame : renameBuffer = s.renameBuffer →
      ∃ pushed, t.rob.window = pushed ++ (t.renameBuffer ++ t.decodeBuffer) ∧
        ∀ i ∈ pushed, (t.entry i).isIssued = true ∨ (t.entry i).associatedIWEntry = true := by
    intro hbuffer
    refine ⟨pushed, by rw [hm.window, hwindow, hm.renameBuffer, hbuffer, hm.decodeBuffer],
      fun i hi => hself i (fun hpos => hmove.kept ?_) fun _ => hi⟩
    rw [← hpos]
    exact hpushed i hi
  cases hmove with
  | skip buffer nop => exact hfirst _ buffer rfl (.inl rfl)
  | push buffer real => exact hfirst _ buffer rfl (.inr rfl)
  | start => exact hsame rfl
  | finish => exact hsame rfl
  | dispatch => exact hsame rfl
  | broadCast => exact hsame rfl
  | complete => exact hsame rfl
  | writeBack => exact hsame rfl

/-- What holds of the entry that moves and of the events is seen through the move. -/
theorem EntryMove.flowing (hmove : s.EntryMove label pos stage renameBuffer eventQueue)
    (hm : s.Moved t pos stage renameBuffer eventQueue) (hf : s.Flowing) : t.Flowing := by
  have hstage : ∀ i, (i = pos ∧ (t.entry i).stage = stage) ∨
      (i ≠ pos ∧ (t.entry i).stage = (s.entry i).stage) := by
    intro i
    by_cases hi : i = pos
    · exact .inl ⟨hi, by rw [hi, hm.self]⟩
    · exact .inr ⟨hi, hm.other i hi⟩
  have hevents : ∀ i, i ≠ pos → .execComplete i ∈ s.eventQueue →
      .execComplete i ∈ t.eventQueue := by
    intro i hi hevent
    rw [hm.eventQueue]
    cases hmove with
    | dispatch => exact List.mem_append_left _ hevent
    | broadCast => exact (List.mem_erase_of_ne (by simp)).mpr hevent
    | complete issued unexecuted event =>
      rcases event with rfl | rfl
      · exact hevent
      · exact (List.mem_erase_of_ne (by simpa using hi)).mpr hevent
    | _ => exact hevent
  refine ⟨hmove.split hm hf, fun i hi hassociated => ?_, fun i hi hissued hunexecuted => ?_,
    fun i hi hexecuted hunwritten => ?_⟩
  · rw [hm.window] at hi
    rw [hm.instruction]
    change (t.entry i).stage.associatedIWEntry = true at hassociated
    rcases hstage i with ⟨rfl, heq⟩ | ⟨-, heq⟩
    · rw [heq] at hassociated
      cases hmove with
      | push buffer real => exact real
      | _ => exact hf.real i hi hassociated
    · rw [heq] at hassociated
      exact hf.real i hi hassociated
  · rw [hm.window] at hi
    rw [hm.instruction]
    change (t.entry i).stage.isIssued = true at hissued
    change (t.entry i).stage.isExecuted = false at hunexecuted
    rcases hstage i with ⟨rfl, heq⟩ | ⟨hne, heq⟩
    · rw [heq] at hissued hunexecuted
      have hkept : (s.entry i).isIssued = true → (s.entry i).isExecuted = false →
          (.execComplete i ∈ s.eventQueue → .execComplete i ∈ t.eventQueue) → _ :=
        fun h₁ h₂ h₃ => (hf.running i hi h₁ h₂).imp_right (Or.imp_left (And.imp_right h₃))
      cases hmove with
      | skip => cases hunexecuted
      | push => exact hkept hissued hunexecuted fun hevent => by rwa [hm.eventQueue]
      | start unissued associated kind =>
        rcases kind with hkind | hkind
        · exact .inr (.inr ⟨hkind, hf.real i hi associated⟩)
        · exact .inl hkind
      | finish => cases hunexecuted
      | dispatch unissued kind =>
        refine .inr (.inl ⟨kind, ?_⟩)
        rw [hm.eventQueue]
        simp
      | broadCast event =>
        refine hkept hissued hunexecuted fun hevent => ?_
        rw [hm.eventQueue]
        exact (List.mem_erase_of_ne (by simp)).mpr hevent
      | complete => cases hunexecuted
      | writeBack executed unwritten =>
        exact hkept hissued hunexecuted fun hevent => by rwa [hm.eventQueue]
    · rw [heq] at hissued hunexecuted
      exact (hf.running i hi hissued hunexecuted).imp_right
        (Or.imp_left (And.imp_right (hevents i hne)))
  · rw [hm.window] at hi
    rw [hm.instruction]
    change (t.entry i).stage.isExecuted = true at hexecuted
    change (t.entry i).stage.isWriteBackDone = false at hunwritten
    rcases hstage i with ⟨rfl, heq⟩ | ⟨hne, heq⟩
    · rw [heq] at hexecuted hunwritten
      cases hmove with
      | skip => cases hunwritten
      | finish => cases hunwritten
      | complete issued unexecuted event =>
        rw [Bool.or_eq_false_iff, Bool.not_eq_false'] at hunwritten
        exact of_decide_eq_true hunwritten.2
      | writeBack => cases hunwritten
      | _ => exact hf.announces i hi hexecuted hunwritten
    · rw [heq] at hexecuted hunwritten
      exact hf.announces i hi hexecuted hunwritten

theorem Decodes.flowing (hd : s.Decodes t pos instruction threadID) (hf : s.Flowing) :
    t.Flowing := by
  have hkept : ∀ i ∈ t.rob.window, (t.entry i).isIssued = true ∨
      (t.entry i).isExecuted = true ∨ (t.entry i).associatedIWEntry = true →
      i ∈ s.rob.window ∧ t.entry i = s.entry i := by
    intro i hi hflag
    by_cases hpos : i = pos
    · rw [hpos, hd.entry_self] at hflag
      simp [ReorderBufferEntry.fresh] at hflag
    · rw [hd.window] at hi
      exact ⟨by simpa [hpos] using hi, hd.entry_other i hpos⟩
  obtain ⟨pushed, hwindow, hpushed⟩ := hf.split
  refine ⟨⟨pushed, ?_, fun i hi => ?_⟩, fun i hi hassociated => ?_,
    fun i hi hissued hunexecuted => ?_, fun i hi hexecuted hunwritten => ?_⟩
  · rw [hd.window, hwindow, hd.after]
    simp
  · rw [hd.entry_other i]
    · exact hpushed i hi
    · rintro rfl
      exact hd.not_mem (by rw [hwindow]; exact List.mem_append_left _ hi)
  · obtain ⟨hi, heq⟩ := hkept i hi (.inr (.inr hassociated))
    rw [heq] at hassociated ⊢
    exact hf.real i hi hassociated
  · obtain ⟨hi, heq⟩ := hkept i hi (.inl hissued)
    rw [heq] at hissued hunexecuted ⊢
    rw [hd.after]
    exact hf.running i hi hissued hunexecuted
  · obtain ⟨hi, heq⟩ := hkept i hi (.inr (.inl hexecuted))
    rw [heq] at hexecuted hunwritten ⊢
    exact hf.announces i hi hexecuted hunwritten

theorem Renames.flowing {rest : List ℕ} {e : ReorderBufferEntry}
    {allocated : List ((RegisterType × ℕ) × ℕ)} (hr : s.Renames t pos rest e allocated)
    (hf : s.Flowing) : t.Flowing := by
  have hsame : ∀ i, (t.entry i).stage = (s.entry i).stage ∧
      (t.entry i).instruction = (s.entry i).instruction := by
    intro i
    by_cases hi : i = pos
    · rw [hi, hr.entry_self, ReorderBufferEntry.stage, hr.isIssued, hr.isExecuted,
        hr.isWriteBackDone, hr.associatedIWEntry, hr.instruction]
      exact ⟨rfl, rfl⟩
    · rw [hr.entry_other hi]
      exact ⟨rfl, rfl⟩
  obtain ⟨pushed, hwindow, hpushed⟩ := hf.split
  refine ⟨⟨pushed, ?_, fun i hi => ?_⟩, fun i hi hassociated => ?_,
    fun i hi hissued hunexecuted => ?_, fun i hi hexecuted hunwritten => ?_⟩
  · rw [hr.window, hwindow, hr.decodeBuffer, hr.after]
    simp
  · change (t.entry i).stage.isIssued = true ∨ (t.entry i).stage.associatedIWEntry = true
    rw [(hsame i).1]
    exact hpushed i hi
  · change (t.entry i).stage.associatedIWEntry = true at hassociated
    rw [hr.window] at hi
    rw [(hsame i).1] at hassociated
    rw [(hsame i).2]
    exact hf.real i hi hassociated
  · change (t.entry i).stage.isIssued = true at hissued
    change (t.entry i).stage.isExecuted = false at hunexecuted
    rw [hr.window] at hi
    rw [(hsame i).1] at hissued hunexecuted
    rw [(hsame i).2, hr.after]
    exact hf.running i hi hissued hunexecuted
  · change (t.entry i).stage.isExecuted = true at hexecuted
    change (t.entry i).stage.isWriteBackDone = false at hunwritten
    rw [hr.window] at hi
    rw [(hsame i).1] at hexecuted hunwritten
    rw [(hsame i).2]
    exact hf.announces i hi hexecuted hunwritten

/-- What is written back has been issued, so it is neither in the rename buffer nor in the
decode buffer. -/
theorem Commits.flowing (hc : s.Commits t pos) (h : s.Ordered) (hf : s.Flowing) : t.Flowing := by
  have hmem : pos ∈ s.rob.window := by rw [hc.window]; exact List.mem_cons_self
  have hissued := h.isExecuted pos hmem (h.isWriteBackDone pos hmem hc.isWriteBackDone)
  have hnodup := h.window_nodup
  rw [hc.window, List.nodup_cons] at hnodup
  have hother : ∀ i ∈ t.rob.window, i ∈ s.rob.window ∧ t.entry i = s.entry i := by
    intro i hi
    refine ⟨by rw [hc.window]; exact List.mem_cons_of_mem _ hi, hc.entry_other i ?_⟩
    rintro rfl
    exact hnodup.1 hi
  have hlate : pos ∉ s.renameBuffer ++ s.decodeBuffer := by
    rw [List.mem_append, not_or]
    refine ⟨fun hi => ?_, fun hi => ?_⟩
    · rw [(h.waiting pos hi).2.2.1] at hissued
      cases hissued
    · obtain ⟨instruction, threadID, heq⟩ := h.fresh pos hi
      rw [heq] at hissued
      cases hissued
  obtain ⟨pushed, hwindow, hpushed⟩ := hf.split
  refine ⟨?_, fun i hi => ?_, fun i hi => ?_, fun i hi => ?_⟩
  · rw [hc.window] at hwindow
    cases pushed with
    | nil =>
      refine absurd ?_ hlate
      rw [List.nil_append] at hwindow
      rw [← hwindow]
      exact List.mem_cons_self
    | cons first rest =>
      obtain ⟨rfl, hrest⟩ := List.cons.inj hwindow
      refine ⟨rest, by rw [hrest, hc.after]; rfl, fun i hi => ?_⟩
      rw [(hother i (by rw [hrest]; exact List.mem_append_left _ hi)).2]
      exact hpushed i (List.mem_cons_of_mem _ hi)
  · rw [(hother i hi).2]
    exact hf.real i (hother i hi).1
  · rw [(hother i hi).2, hc.after]
    exact hf.running i (hother i hi).1
  · rw [(hother i hi).2]
    exact hf.announces i (hother i hi).1

theorem flowing_of_run (hnew : new cfg = some s₀) (run : Run Step s₀ labels s) : s.Flowing := by
  refine run.invariant_with (I := fun s => s.Ordered ∧ s.Accounted) ?_
    (fun labels s hrun => ordered_of_run hnew hrun) fun s label t hI hf hstep => ?_
  · have hwindow := window_new hnew
    have hnone : ∀ i, i ∉ s₀.rob.window := fun i hi => by
      rw [hwindow] at hi
      cases hi
    refine ⟨⟨[], ?_, fun i hi => absurd hi List.not_mem_nil⟩, fun i hi => absurd hi (hnone i),
      fun i hi => absurd hi (hnone i), fun i hi => absurd hi (hnone i)⟩
    rw [hwindow]
    rw [new.eq_def] at hnew
    split at hnew
    · obtain rfl := (Option.some.inj hnew).symm
      rfl
    · cases hnew
  · rcases moved_of_step hI.1 hI.2 hstep with ⟨pos, instruction, threadID, -, hd⟩ |
      ⟨pos, rest, e, allocated, hr⟩ | ⟨pos, stage, buffer, queue, hmove, hm⟩ | ⟨pos, hc⟩
    · exact hd.flowing hf
    · exact hr.flowing hf
    · exact hmove.flowing hm hf
    · exact hc.flowing hI.1 hf

end Pipeline

end Tejas
