import Tejas.PipelineDrain
import Tejas.RankedRuns
import Tejas.WindowConservation

/-!
# The pipeline with its window drains

An entry of the instruction window is in use only for an instruction that waits for its issue.
So the window is never full of younger instructions when the oldest one needs an entry, and the
pipeline comes to rest, with an empty reorder buffer, once nothing more is decoded.
-/

namespace Tejas
open LabelledRuns SlotPool

namespace Pipeline

variable {s t : Pipeline} {pos : ℕ} {label : PipelineLabel}

/-- What waits for its issue goes on waiting. -/
def KeepsWindow (s t : Pipeline) : Prop :=
  ∀ i ∈ s.rob.window, (s.entry i).isIssued = false → (s.entry i).associatedIWEntry = true →
    i ∈ t.rob.window ∧ (t.entry i).isIssued = false ∧ (t.entry i).associatedIWEntry = true

/-- Only an issue takes an instruction out of the window. -/
theorem keepsWindow_of_step (h : s.Ordered) (ha : s.Accounted) (hstep : s.Step label t)
    (hissue : ∀ pos, label ≠ .issue pos) : s.KeepsWindow t := by
  intro i hi hunissued hassociated
  rcases moved_of_step h ha hstep with ⟨pos, instruction, threadID, -, hd⟩ |
    ⟨pos, rest, e, allocated, hr⟩ | ⟨pos, stage, buffer, queue, hmove, hm⟩ | ⟨pos, hc⟩
  · have hne : i ≠ pos := fun heq => hd.not_mem (heq ▸ hi)
    rw [hd.window, hd.entry_other i hne]
    exact ⟨List.mem_append_left _ hi, hunissued, hassociated⟩
  · rw [hr.window]
    by_cases hpos : i = pos
    · rw [hpos] at hi hunissued hassociated ⊢
      rw [hr.entry_self, hr.isIssued, hr.associatedIWEntry]
      exact ⟨hi, hunissued, hassociated⟩
    · rw [hr.entry_other hpos]
      exact ⟨hi, hunissued, hassociated⟩
  · rw [hm.window]
    have hkept : (t.entry i).stage = (s.entry i).stage →
        i ∈ s.rob.window ∧ (t.entry i).isIssued = false ∧ (t.entry i).associatedIWEntry = true := by
      intro heq
      exact ⟨hi, (congrArg EntryStage.isIssued heq).trans hunissued,
        (congrArg EntryStage.associatedIWEntry heq).trans hassociated⟩
    by_cases hpos : i = pos
    · subst hpos
      have hself := hm.self
      have hissued : (s.entry i).isExecuted = true → (s.entry i).isIssued ≠ false := by
        intro hexecuted
        rw [h.isExecuted i hi hexecuted]
        decide
      have hbuffer : ∀ rest, s.renameBuffer ≠ i :: rest := by
        intro rest heq
        have hwaiting := (h.waiting i (by rw [heq]; exact List.mem_cons_self)).2.2.2
        rw [hassociated] at hwaiting
        cases hwaiting
      cases hmove with
      | skip hfirst => exact absurd hfirst (hbuffer _)
      | push hfirst => exact absurd hfirst (hbuffer _)
      | start => exact absurd rfl (hissue i)
      | finish => exact absurd rfl (hissue i)
      | dispatch => exact absurd rfl (hissue i)
      | broadCast => exact hkept hself
      | complete issued =>
        rw [hunissued] at issued
        cases issued
      | writeBack executed => exact absurd hunissued (hissued executed)
    · exact hkept (hm.other i hpos)
  · have hpos : pos ∈ s.rob.window := by rw [hc.window]; exact List.mem_cons_self
    have hne : i ≠ pos := by
      rintro rfl
      rw [h.isExecuted i hi (h.isWriteBackDone i hi hc.isWriteBackDone)] at hunissued
      cases hunissued
    rw [hc.entry_other i hne]
    rw [hc.window] at hi
    exact ⟨(List.mem_cons.mp hi).resolve_left hne, hunissued, hassociated⟩

end Pipeline

namespace WindowedPipeline

variable {s t : WindowedPipeline} {pos i : ℕ} {label : PipelineLabel}

/-! ### The entries in use -/

/-- The instruction waits for its issue in the window. -/
def Waits (s : WindowedPipeline) (pos : ℕ) : Prop :=
  pos ∈ s.pipeline.rob.window ∧ (s.pipeline.entry pos).isIssued = false ∧
    (s.pipeline.entry pos).associatedIWEntry = true

/-- The valid entries of the window are those of the instructions that wait. -/
structure Backed (s : WindowedPipeline) : Prop where
  valid : ∀ i < s.window.maxIWSize, (s.window.IW i).isValid = true →
    ∃ pos, s.Waits pos ∧ s.associatedIWEntry pos = some i
  associated : ∀ pos, s.Waits pos → ∃ i, s.associatedIWEntry pos = some i

/-- When an entry that is valid was valid before and its instruction waits on, and what waits
has waited before, the window stays in use for what waits. -/
theorem Backed.of_waits (h : s.Backed) (hmax : t.window.maxIWSize = s.window.maxIWSize)
    (hvalid : ∀ i < s.window.maxIWSize, (t.window.IW i).isValid = true →
      (s.window.IW i).isValid = true ∧ ∀ pos, s.Waits pos → s.associatedIWEntry pos = some i →
        t.Waits pos)
    (hback : ∀ pos, t.Waits pos → s.Waits pos)
    (hsame : ∀ pos, s.Waits pos → t.associatedIWEntry pos = s.associatedIWEntry pos) :
    t.Backed := by
  refine ⟨fun i hi hv => ?_, fun pos hwaits => ?_⟩
  · rw [hmax] at hi
    obtain ⟨hold, hkept⟩ := hvalid i hi hv
    obtain ⟨pos, hwaits, hassociated⟩ := h.valid i hi hold
    exact ⟨pos, hkept pos hwaits hassociated, (hsame pos hwaits).trans hassociated⟩
  · have hold := hback pos hwaits
    rw [hsame pos hold]
    exact h.associated pos hold

/-- A step that leaves the window alone keeps its entries in use. -/
theorem Backed.advance (h : s.Backed) (ho : s.pipeline.Ordered) (ha : s.pipeline.Accounted)
    {pipeline : Pipeline} (hok : s.pipeline.Step label pipeline)
    (hdecode : ∀ instruction threadID, label ≠ .decode instruction threadID)
    (hpush : label ≠ .iwPush) (hissue : ∀ pos, label ≠ .issue pos) :
    Backed { s with pipeline := pipeline } := by
  have hkeeps := Pipeline.keepsWindow_of_step ho ha hok hissue
  have hwaiting := Pipeline.keepsWaiting_of_next ho ha hok hdecode hpush hissue
  refine h.of_waits (t := { s with pipeline := pipeline }) rfl
    (fun i _ hv => ⟨hv, fun pos hwaits _ => hkeeps pos hwaits.1 hwaits.2.1 hwaits.2.2⟩)
    (fun pos hwaits => ?_) fun _ _ => rfl
  obtain ⟨hmem, hunissued, hsame, -⟩ := hwaiting pos hwaits.1 hwaits.2.1
  exact ⟨hmem, hunissued, hsame.symm.trans hwaits.2.2⟩

theorem Backed.performDecode {instruction : Instruction} {threadID : ℕ} (h : s.Backed)
    (ho : s.pipeline.Ordered) (ha : s.pipeline.Accounted)
    (hstep : s.performDecode instruction threadID = .ok t) : t.Backed := by
  obtain ⟨pipeline, hok, rfl⟩ := advance_ok hstep
  have hd := Pipeline.decode_spec ho hok
  have hdecode : s.pipeline.Step (.decode instruction threadID) pipeline := hok
  have hkeeps := Pipeline.keepsWindow_of_step ho ha hdecode (by simp)
  refine h.of_waits rfl
    (fun i _ hv => ⟨hv, fun pos hwaits _ => hkeeps pos hwaits.1 hwaits.2.1 hwaits.2.2⟩)
    (fun pos hwaits => ?_) fun pos hwaits => Function.update_of_ne ?_ _ _
  · obtain ⟨hmem, hunissued, hassociated⟩ := hwaits
    change pos ∈ pipeline.rob.window at hmem
    change (pipeline.entry pos).isIssued = false at hunissued
    change (pipeline.entry pos).associatedIWEntry = true at hassociated
    have hne : pos ≠ (s.pipeline.rob.addInstructionToROB instruction threadID).2 := by
      rintro rfl
      rw [hd.entry_self] at hassociated
      cases hassociated
    rw [hd.window, List.mem_append, List.mem_singleton] at hmem
    rw [hd.entry_other pos hne] at hunissued hassociated
    exact ⟨hmem.resolve_right hne, hunissued, hassociated⟩
  · rintro rfl
    exact hd.not_mem hwaits.1

/-- A push takes an entry for the instruction that it lets wait. -/
theorem Backed.performIWPush (h : s.Backed) (hl : s.Linked) (ho : s.pipeline.Ordered)
    (ha : s.pipeline.Accounted) (hstep : s.performIWPush = .ok t) : t.Backed := by
  have hrefines := iwPush_refines hl hstep
  have hkeeps := Pipeline.keepsWindow_of_step ho ha hrefines.step (by simp)
  rw [performIWPush.eq_def] at hstep
  split at hstep
  · cases hstep
  rename_i pos rest hbuffer
  obtain ⟨hmem, -, hunissued, hunassociated⟩ :=
    ho.waiting pos (by rw [hbuffer]; exact List.mem_cons_self)
  have hnew : ∀ {e : ReorderBufferEntry} {u : WindowedPipeline},
      u.pipeline.rob = (s.pipeline.setEntry pos e).rob → ∀ pos', pos' ≠ pos → u.Waits pos' →
      s.Waits pos' := by
    rintro e u hrob pos' hne ⟨hmem', hunissued', hassociated'⟩
    have hentry : u.pipeline.entry pos' = s.pipeline.entry pos' := by
      rw [Pipeline.entry, hrob]
      exact Function.update_of_ne hne _ _
    rw [hentry] at hunissued' hassociated'
    rw [hrob] at hmem'
    exact ⟨hmem', hunissued', hassociated'⟩
  have hself : ∀ e, (s.pipeline.setEntry pos e).entry pos = e := fun e =>
    Function.update_self _ _ _
  have hne : ∀ pos', s.Waits pos' → pos' ≠ pos := by
    rintro pos' hwaits rfl
    rw [hwaits.2.2] at hunassociated
    cases hunassociated
  simp only at hstep
  split_ifs at hstep with hnop hfull hrenamed
  · obtain rfl := Except.ok.inj hstep
    refine h.of_waits rfl
      (fun i _ hv => ⟨hv, fun pos' hwaits _ => hkeeps pos' hwaits.1 hwaits.2.1 hwaits.2.2⟩)
      (fun pos' hwaits => ?_) fun _ _ => rfl
    refine hnew rfl pos' ?_ hwaits
    rintro rfl
    have hissued : ((s.pipeline.setEntry pos' { s.pipeline.entry pos' with
        isIssued := true, isExecuted := true, isWriteBackDone := true }).entry pos').isIssued =
      false := hwaits.2.1
    rw [hself] at hissued
    cases hissued
  · split at hstep
    · rename_i hadd
      have hroom : s.window.availListHead ≠ -1 := by
        simpa [InstructionWindow.isFull] using hfull
      exact absurd (InstructionWindow.addToWindow_eq_none_iff_head.mp hadd) hroom
    · rename_i index window hadd
      obtain rfl := Except.ok.inj hstep
      obtain ⟨-, hindex, hinvalid, hmax, hIW⟩ := hl.sound.addToWindow_spec hadd
      have hwaits : ∀ u : WindowedPipeline, u.pipeline.rob = (s.pipeline.setEntry pos
          { s.pipeline.entry pos with associatedIWEntry := true }).rob → u.Waits pos := by
        intro u hrob
        have hentry : u.pipeline.entry pos = (s.pipeline.setEntry pos
            { s.pipeline.entry pos with associatedIWEntry := true }).entry pos := by
          rw [Pipeline.entry, hrob]
          rfl
        rw [Waits, hentry, hself, hrob]
        exact ⟨hmem, hunissued, rfl⟩
      refine ⟨fun i hi hv => ?_, fun pos' hwaits => ?_⟩
      · by_cases hi' : i = index
        · exact ⟨pos, hwaits _ rfl, by rw [hi']; exact Function.update_self _ _ _⟩
        · change (window.IW i).isValid = true at hv
          rw [hIW, Function.update_of_ne hi'] at hv
          obtain ⟨pos', hwaits, hassociated⟩ := h.valid i (hmax ▸ hi) hv
          refine ⟨pos', hkeeps pos' hwaits.1 hwaits.2.1 hwaits.2.2, ?_⟩
          exact (Function.update_of_ne (hne pos' hwaits) _ _).trans hassociated
      · by_cases hpos : pos' = pos
        · exact ⟨index, by rw [hpos]; exact Function.update_self _ _ _⟩
        · obtain ⟨i, hi⟩ := h.associated pos' (hnew rfl pos' hpos hwaits)
          exact ⟨i, (Function.update_of_ne hpos _ _).trans hi⟩

/-- An entry is valid as long as it was taken more often than it was given back. -/
theorem Linked.isValid_iff (hl : s.Linked) (hi : i < s.window.maxIWSize) :
    (s.window.IW i).isValid = true ↔
      s.history.count (.taken i) ≠ s.history.count (.returned i) := by
  constructor
  · intro hvalid
    have hbalance := hl.sound.conserved.balance_inUse i ⟨hi, hvalid⟩
    change s.history.count (.taken i) = s.history.count (.returned i) + 1 at hbalance
    omega
  · intro hne
    by_contra hinvalid
    exact hne (hl.sound.conserved.balance i fun hused => hinvalid hused.2)

theorem removeFromWindow_associated {e : ReorderBufferEntry}
    (h : (s.setEntry pos e).removeFromWindow i = .ok t) :
    t.associatedIWEntry = s.associatedIWEntry := by
  rw [removeFromWindow] at h
  obtain ⟨window, -, rfl⟩ := Except.map_ok h
  rfl

/-- An issue leaves the references of the reorder buffer entries alone. -/
theorem issueInstruction_associated (h : s.issueInstruction i = .ok t) :
    t.associatedIWEntry = s.associatedIWEntry := by
  have hothers : ∀ {opType : OperationType} {pos : ℕ} {u : WindowedPipeline},
      s.issueOthers opType i pos = .ok u → u.associatedIWEntry = s.associatedIWEntry := by
    intro opType pos u hu
    rw [issueOthers] at hu
    split_ifs at hu
    · exact removeFromWindow_associated hu
    · obtain ⟨v, hv, rfl⟩ := Except.map_ok hu
      exact (removeFromWindow_associated hv :)
    · obtain rfl := Except.ok.inj hu
      rfl
  rw [issueInstruction.eq_def] at h
  split at h
  · simp only at h
    split_ifs at h
    all_goals
      obtain ⟨u, hu, h⟩ := Except.bind_ok h
    · exact (removeFromWindow_associated h).trans (hothers hu)
    · obtain rfl := Except.ok.inj h
      exact hothers hu
  · cases h

/-- An issue gives back the entry of the instruction, which waits no longer. -/
theorem Backed.performSelect (h : s.Backed) (hl : s.Linked)
    (hstep : s.performSelect pos = .ok t) : t.Backed := by
  rw [WindowedPipeline.performSelect] at hstep
  split_ifs at hstep with hready
  obtain ⟨hmem, hunissued⟩ := hready
  split at hstep
  · rename_i i hi
    have hissues := issueInstruction_spec hl hmem hunissued hi hstep
    have hsame := issueInstruction_associated hstep
    obtain ⟨stage, buffer, queue, hmove, hm⟩ := Pipeline.issue_moved hissues.step
    have hself : (t.pipeline.entry pos).isIssued = true := by
      have hstage := congrArg EntryStage.isIssued hm.self
      cases hmove with
      | start => exact hstage
      | finish => exact hstage
      | dispatch => exact hstage
    have hwaits : ∀ pos', pos' ≠ pos → (t.Waits pos' ↔ s.Waits pos') := by
      intro pos' hne
      have hstage := hm.other pos' hne
      rw [Waits, Waits, hm.window,
        show (t.pipeline.entry pos').isIssued = (s.pipeline.entry pos').isIssued from
          congrArg EntryStage.isIssued hstage,
        show (t.pipeline.entry pos').associatedIWEntry =
          (s.pipeline.entry pos').associatedIWEntry from
          congrArg EntryStage.associatedIWEntry hstage]
    have hindex := (hl.associated pos hmem hunissued i hi).2.1
    have hwasValid : (s.window.IW i).isValid = true := by
      rw [(hl.associated pos hmem hunissued i hi).2.2]
    refine h.of_waits hissues.maxIWSize (fun j hj hv => ?_) (fun pos' hw => ?_)
      fun pos' _ => by rw [hsame]
    · rw [hissues.linked.isValid_iff (by rw [hissues.maxIWSize]; exact hj), hissues.history] at hv
      have hj' : j ≠ i := by
        rintro rfl
        have hbalance := hl.sound.conserved.balance_inUse j ⟨hindex, hwasValid⟩
        change s.history.count (.taken j) = s.history.count (.returned j) + 1 at hbalance
        simp [List.count_append, hbalance] at hv
      refine ⟨(hl.isValid_iff hj).mpr ?_, fun pos' hw hassociated => (hwaits pos' ?_).mpr hw⟩
      · simpa [List.count_append, Ne.symm hj'] using hv
      · rintro rfl
        rw [hi] at hassociated
        exact hj' (Option.some.inj hassociated).symm
    · refine (hwaits pos' ?_).mp hw
      rintro rfl
      rw [hw.2.1] at hself
      cases hself
  · cases hstep

/-! ### Neither the push nor the issue is stuck -/

theorem Waits.isRenameDone (h : s.Waits pos) (ho : s.pipeline.Ordered) :
    (s.pipeline.entry pos).isRenameDone = true := by
  obtain ⟨hmem, -, hassociated⟩ := h
  obtain ⟨front, hwindow, hfront⟩ := ho.front
  rw [hwindow] at hmem
  rcases List.mem_append.mp hmem with hmem | hmem
  · exact (hfront pos hmem).1
  · obtain ⟨instruction, threadID, heq⟩ := ho.fresh pos hmem
    rw [heq] at hassociated
    cases hassociated

/-- What waits with its operands available is issued. -/
theorem Backed.issue_succeeds (h : s.Backed) (hl : s.Linked) (ho : s.pipeline.Ordered)
    (hwaits : s.Waits pos) (havailable : (s.pipeline.entry pos).operand1.available = true ∧
      (s.pipeline.entry pos).operand2.available = true) :
    ∃ t, s.performSelect pos = .ok t := by
  have hrenamed := hwaits.isRenameDone ho
  obtain ⟨i, hi⟩ := h.associated pos hwaits
  obtain ⟨hmem, hunissued, -⟩ := hwaits
  obtain ⟨-, -, hIW⟩ := hl.associated pos hmem hunissued i hi
  have hunexecuted : (s.pipeline.entry pos).isExecuted = false := by
    rw [← Bool.not_eq_true]
    intro hexecuted
    rw [ho.isExecuted pos hmem hexecuted] at hunissued
    cases hunissued
  have hremoves : ∀ e : ReorderBufferEntry, e.isIssued = true →
      ∃ u, (s.setEntry pos e).removeFromWindow i = .ok u := by
    intro e he
    obtain ⟨u, hu, -⟩ := remove_spec hl hmem hunissued hi he
    exact ⟨u, hu⟩
  rw [WindowedPipeline.performSelect, if_pos ⟨hmem, hunissued⟩, hi]
  simp only
  rw [issueInstruction.eq_def, hIW]
  simp only [IWEntry.opType, Option.map_some]
  rw [if_neg (by simp [hrenamed, hunexecuted]), if_neg (by simp [hunissued]), if_pos havailable]
  rcases issueKind_spec (s.pipeline.entry pos).instruction.operationType with
    ⟨hFU, hnot, -⟩ | ⟨hFU, hnot, -⟩ | hmemory
  · obtain ⟨u, hu⟩ := hremoves { s.pipeline.entry pos with isIssued := true } rfl
    rw [issueOthers, if_pos hFU, hu]
    exact ⟨u, if_neg (by tauto)⟩
  · obtain ⟨u, hu⟩ := hremoves { s.pipeline.entry pos with isIssued := true } rfl
    rw [issueOthers, if_neg hFU, if_pos hnot, hu]
    exact ⟨u.addEvents pos, if_neg (by tauto)⟩
  · have hFU : (s.pipeline.entry pos).instruction.operationType.getFUType ≠ .inValid := by
      rcases hmemory with hop | hop | hop <;> rw [hop] <;> decide
    obtain ⟨u, hu⟩ : ∃ u, s.issueLoadStore (s.pipeline.entry pos).instruction.operationType i
        pos = .ok u := by
      rw [issueLoadStore]
      exact hremoves _ (by simp only; split_ifs <;> rfl)
    rw [issueOthers, if_neg hFU, if_neg (by tauto)]
    exact ⟨u, (if_pos hmemory).trans hu⟩

/-- While nothing waits, the window has room. -/
theorem Backed.iwPush_succeeds (h : s.Backed) (hl : s.Linked) (ho : s.pipeline.Ordered)
    {rest : List ℕ} (hbuffer : s.pipeline.renameBuffer = pos :: rest)
    (hnone : ∀ pos, ¬ s.Waits pos) : ∃ t, s.performIWPush = .ok t := by
  have hrenamed := (ho.waiting pos (by rw [hbuffer]; exact List.mem_cons_self)).2.1
  have hroom : s.window.isFull = false := by
    rw [← Bool.not_eq_true]
    intro hfull
    have hhead : s.window.availListHead = -1 := by
      simpa [InstructionWindow.isFull] using hfull
    have hadd : s.window.addToWindow .getNOPInstruction 0 = none :=
      InstructionWindow.addToWindow_eq_none_iff_head.mpr hhead
    have hall := hl.sound.addToWindow_eq_none_iff.mp hadd
    obtain ⟨pos', hwaits, -⟩ := h.valid 0 hl.sound.nonempty (hall 0 hl.sound.nonempty)
    exact hnone pos' hwaits
  rw [performIWPush.eq_def, hbuffer]
  simp only
  split_ifs with hnop hfull
  · exact ⟨_, rfl⟩
  · rw [hroom] at hfull
    cases hfull
  · cases s.window.addToWindow (s.pipeline.entry pos).instruction pos <;> exact ⟨_, rfl⟩

/-! ### Every run comes to rest -/

variable {cfg : PipelineConfig} {maxIWSize : ℕ} {s₀ : WindowedPipeline}
  {labels : List PipelineLabel}

theorem backed_of_run (hsize : 1 ≤ maxIWSize) (hnew : new cfg maxIWSize = some s₀)
    (run : Run Step s₀ labels s) : s.Backed := by
  refine run.invariant_with (I := fun s => s.Linked ∧ s.window.maxIWSize = maxIWSize ∧
    s.pipeline.Ordered ∧ s.pipeline.Accounted) (J := Backed) ?_
    (fun labels s hrun => linked_of_run hsize hnew hrun) fun s label t hI h hstep => ?_
  · obtain ⟨pipeline, hpipeline, rfl⟩ := Option.map_eq_some_iff.mp hnew
    refine ⟨fun i _ hv => ?_, fun pos hwaits => ?_⟩
    · cases hv
    · have hmem : pos ∈ pipeline.rob.window := hwaits.1
      rw [Pipeline.window_new hpipeline] at hmem
      cases hmem
  · obtain ⟨hl, -, ho, ha⟩ := hI
    have halone : s.advance (s.pipeline.next label) = .ok t →
        (∀ instruction threadID, label ≠ .decode instruction threadID) → label ≠ .iwPush →
        (∀ pos, label ≠ .issue pos) → t.Backed := by
      intro hadvance hdecode hpush hissue
      obtain ⟨pipeline, hok, rfl⟩ := advance_ok hadvance
      exact h.advance ho ha hok hdecode hpush hissue
    cases label with
    | decode instruction threadID => exact h.performDecode ho ha hstep
    | iwPush => exact h.performIWPush hl ho ha hstep
    | issue pos => exact h.performSelect hl hstep
    | rename => exact halone hstep (by simp) (by simp) (by simp)
    | broadCast pos => exact halone hstep (by simp) (by simp) (by simp)
    | execComplete pos => exact halone hstep (by simp) (by simp) (by simp)
    | writeBack pos => exact halone hstep (by simp) (by simp) (by simp)
    | commit => exact halone hstep (by simp) (by simp) (by simp)

/-- A run of the pipeline with its window is one of the pipeline. -/
theorem run_pipeline (hsize : 1 ≤ maxIWSize) (hnew : new cfg maxIWSize = some s₀)
    (run : Run Step s₀ labels s) : Run Pipeline.Step s₀.pipeline labels s.pipeline := by
  induction run with
  | nil => exact .nil
  | snoc prior last ih =>
    obtain ⟨hl, -, ho, ha⟩ := linked_of_run hsize hnew prior
    exact .snoc ih (refines_of_step hl ho ha last).step

/-- The instructions that have been decoded can finish. -/
structure Reached (s s₀ : WindowedPipeline) (cfg : PipelineConfig) : Prop where
  run : ∃ labels, Run Step s₀ labels s ∧ ∀ instruction threadID,
    .decode instruction threadID ∈ labels → Pipeline.CanFinish cfg instruction threadID
  alive : s.pipeline.Alive cfg
  linked : s.Linked
  backed : s.Backed

theorem reached_of_run (hsize : 1 ≤ maxIWSize) (hnew : new cfg maxIWSize = some s₀)
    (run : Run Step s₀ labels s) (hfinish : ∀ instruction threadID,
      .decode instruction threadID ∈ labels → Pipeline.CanFinish cfg instruction threadID) :
    s.Reached s₀ cfg where
  run := ⟨labels, run, hfinish⟩
  alive := Pipeline.alive_of_run (linked_new hsize hnew).2.2 (run_pipeline hsize hnew run) hfinish
  linked := (linked_of_run hsize hnew run).1
  backed := backed_of_run hsize hnew run

/-- A step that decodes nothing does some of the work that is left. -/
theorem Reached.step (h : s.Reached s₀ cfg) (hsize : 1 ≤ maxIWSize)
    (hnew : new cfg maxIWSize = some s₀) (hlabel : Pipeline.NotDecode label)
    (hstep : s.Step label t) : t.Reached s₀ cfg ∧ t.pipeline.work < s.pipeline.work := by
  obtain ⟨labels, run, hfinish⟩ := h.run
  refine ⟨reached_of_run hsize hnew (run.snoc hstep) fun instruction threadID hmem => ?_, ?_⟩
  · rcases List.mem_append.mp hmem with hmem | hmem
    · exact hfinish instruction threadID hmem
    · exact absurd (List.mem_singleton.mp hmem).symm (hlabel instruction threadID)
  · exact Pipeline.work_lt_of_step h.alive.ordered h.alive.accounted hlabel
      (refines_of_step h.linked h.alive.ordered h.alive.accounted hstep).step

/-- The oldest instruction is taken on by some step. -/
theorem Reached.move (h : s.Reached s₀ cfg) (hwindow : s.pipeline.rob.window ≠ []) :
    ∃ label t, Pipeline.NotDecode label ∧ s.Step label t := by
  obtain ⟨pos, rest, hwindow⟩ := List.exists_cons_of_ne_nil hwindow
  have ho := h.alive.ordered
  rcases h.alive.oldest hwindow with ⟨label, t, hlabel, hpush, hissue, hstep⟩ |
    ⟨later, hbuffer⟩ | ⟨hunissued, hassociated⟩
  · refine ⟨label, { s with pipeline := t }, hlabel, ?_⟩
    rw [Pipeline.Step] at hstep
    cases label with
    | decode instruction threadID => exact absurd rfl (hlabel instruction threadID)
    | iwPush => exact absurd rfl hpush
    | issue pos => exact absurd rfl (hissue pos)
    | _ => simp only [Step, WindowedPipeline.next, hstep, WindowedPipeline.advance]
  · -- the oldest instruction has not been pushed, so nothing has
    obtain ⟨pushed, hsplit, hpushed⟩ := h.alive.flowing.split
    obtain ⟨-, -, hunissued, hunassociated⟩ :=
      ho.waiting pos (by rw [hbuffer]; exact List.mem_cons_self)
    have hnone : ∀ pos', ¬ s.Waits pos' := by
      rintro pos' ⟨hmem, -, hassociated⟩
      rw [hsplit] at hmem hwindow
      cases pushed with
      | cons first pushed =>
        have hfirst := hpushed first List.mem_cons_self
        rw [(List.cons.inj hwindow).1, hunissued, hunassociated] at hfirst
        exact absurd hfirst (by decide)
      | nil =>
        rw [List.nil_append] at hmem
        rcases List.mem_append.mp hmem with hmem | hmem
        · rw [(ho.waiting pos' hmem).2.2.2] at hassociated
          cases hassociated
        · obtain ⟨instruction, threadID, heq⟩ := ho.fresh pos' hmem
          rw [heq] at hassociated
          cases hassociated
    obtain ⟨t, ht⟩ := h.backed.iwPush_succeeds h.linked ho hbuffer hnone
    exact ⟨.iwPush, t, by simp [Pipeline.NotDecode], ht⟩
  · have hwaits : s.Waits pos :=
      ⟨by rw [hwindow]; exact List.mem_cons_self, hunissued, hassociated⟩
    have havailable := h.alive.available hwindow (hwaits.isRenameDone ho) hunissued
    obtain ⟨t, ht⟩ := h.backed.issue_succeeds h.linked ho hwaits havailable
    exact ⟨.issue pos, t, by simp [Pipeline.NotDecode], ht⟩

/-- Nothing is on its way, and every physical register that is no current version and every
entry of the instruction window is free. -/
structure AtRest (s : WindowedPipeline) (cfg : PipelineConfig) : Prop where
  window : s.pipeline.rob.window = []
  decodeBuffer : s.pipeline.decodeBuffer = []
  renameBuffer : s.pipeline.renameBuffer = []
  eventQueue : s.pipeline.eventQueue = []
  registers : ∀ type, cfg.registerFileSize type ≤ (s.pipeline.tables type).getAvailableListSize +
    cfg.noOfThreads * cfg.nArchRegisters type
  entries : ∀ i < s.window.maxIWSize, i ∈ s.window.freeList

theorem Reached.atRest (h : s.Reached s₀ cfg) (hwindow : s.pipeline.rob.window = []) :
    s.AtRest cfg := by
  have hwork := h.alive.work_le
  have hsettled : ∀ type q, (s.pipeline.tables type).registerFile q = true := by
    intro type q
    rw [← Bool.not_eq_false, h.alive.accounted.pending, hwindow]
    rintro ⟨i, hi, -⟩
    cases hi
  rw [Pipeline.work, hwindow] at hwork
  simp only [List.map_nil, List.sum_nil, List.length_nil] at hwork
  refine ⟨hwindow, List.length_eq_zero_iff.mp (by omega), List.length_eq_zero_iff.mp (by omega),
    List.length_eq_zero_iff.mp (by omega),
    fun type => h.alive.sized.size_of_settled h.alive.accounted type (hsettled type),
    fun i hi => ?_⟩
  refine (h.linked.sound.conserved.mem_free i).mpr ⟨Finset.mem_range.mpr hi, fun hused => ?_⟩
  obtain ⟨pos, hwaits, -⟩ := h.backed.valid i hi hused.2
  have hmem := hwaits.1
  rw [hwindow] at hmem
  cases hmem

/-- Without further decodes the pipeline comes to rest. -/
structure Drains (s : WindowedPipeline) (cfg : PipelineConfig) : Prop where
  /-- Some step is possible as long as an instruction is in the reorder buffer. -/
  moves : s.pipeline.rob.window ≠ [] → ∃ label t, Pipeline.NotDecode label ∧ s.Step label t
  /-- There are at most eight steps for every instruction. -/
  bounded : ∀ labels t,
    Run (Guarded Step fun _ label => Pipeline.NotDecode label) s labels t →
      labels.length ≤ 8 * s.pipeline.rob.window.length
  /-- Whatever the order of the steps, they end only at rest. -/
  stops : ∀ labels t,
    Run (Guarded Step fun _ label => Pipeline.NotDecode label) s labels t →
      (∀ label u, Pipeline.NotDecode label → ¬ t.Step label u) → t.AtRest cfg
  /-- The pipeline can come to rest. -/
  rests : ∃ labels t,
    Run (Guarded Step fun _ label => Pipeline.NotDecode label) s labels t ∧ t.AtRest cfg

end WindowedPipeline

end Tejas
