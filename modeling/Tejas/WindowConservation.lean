import Tejas.RegisterConservation
import Tejas.WindowedPipeline

/-!
# The entries of the instruction window are conserved

An instruction that waits for its issue refers to a valid entry of the window, which refers
back to it. So each of the paths of an issue removes a valid entry, once, and every index of
the window stays free or in use.
-/

namespace Tejas
open LabelledRuns SlotPool

namespace Pipeline

variable {s t : Pipeline} {pos : ℕ} {rest : List ℕ} {l m : List (RegisterType × ℕ)}
  {e : ReorderBufferEntry} {allocated : List ((RegisterType × ℕ) × ℕ)} {blind : ℕ → Prop}

/-- The entries that still wait for their issue have waited before, for the same one. -/
def KeepsWaiting (s t : Pipeline) : Prop :=
  ∀ i ∈ t.rob.window, (t.entry i).isIssued = false →
    i ∈ s.rob.window ∧ (s.entry i).isIssued = false ∧
      (t.entry i).associatedIWEntry = (s.entry i).associatedIWEntry ∧
      (t.entry i).instruction = (s.entry i).instruction

theorem Advances.keepsWaiting (hv : s.Advances t pos blind l m)
    (hissued : (s.entry pos).isIssued = true) : s.KeepsWaiting t := by
  intro i hi hunissued
  have hpos : i ≠ pos := by
    rintro rfl
    rw [hv.issued_kept hissued] at hunissued
    cases hunissued
  rw [hv.window] at hi
  have hstage := hv.stage i hpos
  rw [hstage.isIssued] at hunissued
  exact ⟨hi, hunissued, hstage.associatedIWEntry, (hv.names i).instruction⟩

theorem Renames.keepsWaiting (hr : s.Renames t pos rest e allocated) : s.KeepsWaiting t := by
  intro i hi hunissued
  rw [hr.window] at hi
  by_cases hpos : i = pos
  · rw [hpos] at hi hunissued ⊢
    rw [hr.entry_self] at hunissued ⊢
    rw [hr.isIssued] at hunissued
    exact ⟨hi, hunissued, hr.associatedIWEntry, hr.instruction⟩
  · rw [hr.entry_other hpos] at hunissued ⊢
    exact ⟨hi, hunissued, rfl, rfl⟩

theorem Commits.keepsWaiting (hc : s.Commits t pos) (h : s.Ordered) : s.KeepsWaiting t := by
  intro i hi hunissued
  have hnodup := h.window_nodup
  rw [hc.window, List.nodup_cons] at hnodup
  have hpos : i ≠ pos := by
    rintro rfl
    exact hnodup.1 hi
  rw [hc.entry_other i hpos] at hunissued ⊢
  rw [hc.window]
  exact ⟨List.mem_cons_of_mem _ hi, hunissued, rfl, rfl⟩

/-- The events of the execution and the write-back are for instructions that are issued. -/
theorem keepsWaiting_of_next {label : PipelineLabel} (h : s.Ordered) (ha : s.Accounted)
    (hstep : s.Step label t)
    (hdecode : ∀ instruction threadID, label ≠ .decode instruction threadID)
    (hpush : label ≠ .iwPush) (hissue : ∀ pos, label ≠ .issue pos) : s.KeepsWaiting t := by
  cases label with
  | decode instruction threadID => exact absurd rfl (hdecode instruction threadID)
  | iwPush => exact absurd rfl hpush
  | issue pos => exact absurd rfl (hissue pos)
  | rename =>
    obtain ⟨pos, rest, e, allocated, hr⟩ :=
      performRename_spec ha.valid (unavailable_of_decoded h) hstep
    exact hr.keepsWaiting
  | broadCast pos =>
    change s.next (.broadCast pos) = .ok t at hstep
    rw [next] at hstep
    split_ifs at hstep with hevent
    obtain ⟨l, m, hv, -⟩ := broadCast_spec h ha hevent hstep
    exact hv.keepsWaiting (h.execComplete_event pos (h.broadCast_event pos hevent)).2.1
  | execComplete pos =>
    obtain ⟨l, m, hv, -⟩ := execComplete_spec h ha hstep
    refine hv.keepsWaiting ?_
    change s.next (.execComplete pos) = .ok t at hstep
    rw [next] at hstep
    split_ifs at hstep with hevent hload
    · exact (h.execComplete_event pos hevent.1).2.1
    · exact hload.2.2.1
  | writeBack pos =>
    obtain ⟨l, m, hv, -, -⟩ := writeBack_spec h ha hstep
    refine hv.keepsWaiting ?_
    change s.performWriteBack pos = .ok t at hstep
    rw [performWriteBack.eq_def] at hstep
    simp only at hstep
    split_ifs at hstep with hready
    exact h.isExecuted pos hready.1 hready.2.1
  | commit =>
    obtain ⟨pos, hc⟩ := commit_spec h hstep
    exact hc.keepsWaiting h

end Pipeline

namespace WindowedPipeline

variable {s t : WindowedPipeline} {pos i : ℕ} {label : PipelineLabel}

/-- The window accounts for its entries, and an instruction that waits for its issue and its
window entry refer to each other. -/
structure Linked (s : WindowedPipeline) : Prop where
  sound : s.window.Sound s.history
  associated : ∀ pos ∈ s.pipeline.rob.window, (s.pipeline.entry pos).isIssued = false →
    ∀ i, s.associatedIWEntry pos = some i →
      (s.pipeline.entry pos).associatedIWEntry = true ∧ i < s.window.maxIWSize ∧
        s.window.IW i = ⟨some (s.pipeline.entry pos).instruction, some pos, true, i⟩

/-- The step is one of the pipeline, and it keeps the links and the size of the window. -/
structure Refines (s : WindowedPipeline) (label : PipelineLabel) (t : WindowedPipeline) :
    Prop where
  step : s.pipeline.Step label t.pipeline
  linked : t.Linked
  maxIWSize : t.window.maxIWSize = s.window.maxIWSize

theorem advance_ok {result : Except PipelineExit Pipeline} (h : s.advance result = .ok t) :
    ∃ pipeline, result = .ok pipeline ∧ t = { s with pipeline := pipeline } := by
  rw [advance.eq_def] at h
  split at h
  · rename_i pipeline
    exact ⟨pipeline, rfl, (Except.ok.inj h).symm⟩
  · cases h

/-- A step that touches neither the window nor what waits for its issue keeps the links. -/
theorem Linked.of_keepsWaiting (h : s.Linked) {pipeline : Pipeline}
    (hkeeps : s.pipeline.KeepsWaiting pipeline) : Linked { s with pipeline := pipeline } := by
  refine ⟨h.sound, fun pos hpos hunissued i hi => ?_⟩
  obtain ⟨hmem, hbefore, hassociated, hinstruction⟩ := hkeeps pos hpos hunissued
  change (pipeline.entry pos).associatedIWEntry = true ∧ i < s.window.maxIWSize ∧
    s.window.IW i = ⟨some (pipeline.entry pos).instruction, some pos, true, i⟩
  rw [hassociated, hinstruction]
  exact h.associated pos hmem hbefore i hi

theorem decode_refines {instruction : Instruction} {threadID : ℕ} (h : s.Linked)
    (ho : s.pipeline.Ordered) (hstep : s.performDecode instruction threadID = .ok t) :
    s.Refines (.decode instruction threadID) t := by
  obtain ⟨pipeline, hok, rfl⟩ := advance_ok hstep
  have hd := Pipeline.decode_spec ho hok
  refine ⟨hok, ⟨h.sound, fun pos hpos hunissued i hi => ?_⟩, rfl⟩
  change Function.update s.associatedIWEntry _ none pos = some i at hi
  have hne : pos ≠ (s.pipeline.rob.addInstructionToROB instruction threadID).2 := by
    intro heq
    rw [heq, Function.update_self] at hi
    cases hi
  rw [Function.update_of_ne hne] at hi
  change pos ∈ pipeline.rob.window at hpos
  change (pipeline.entry pos).isIssued = false at hunissued
  rw [hd.window, List.mem_append, List.mem_singleton] at hpos
  change (pipeline.entry pos).associatedIWEntry = true ∧ i < s.window.maxIWSize ∧
    s.window.IW i = ⟨some (pipeline.entry pos).instruction, some pos, true, i⟩
  rw [hd.entry_other pos hne] at hunissued ⊢
  exact h.associated pos (hpos.resolve_right hne) hunissued i hi

/-- A change of one reorder buffer entry keeps the links when the valid window entries of
the others stay. -/
theorem Linked.of_setEntry {e : ReorderBufferEntry} (h : s.Linked)
    (hrob : t.pipeline.rob = s.pipeline.rob.setEntry pos e) (hsound : t.window.Sound t.history)
    (hmax : t.window.maxIWSize = s.window.maxIWSize)
    (hother : ∀ j, j ≠ pos → t.associatedIWEntry j = s.associatedIWEntry j)
    (hIW : ∀ i, (s.window.IW i).isValid = true → (s.window.IW i).associatedROBEntry ≠ some pos →
      t.window.IW i = s.window.IW i)
    (hself : e.isIssued = false → ∀ i, t.associatedIWEntry pos = some i →
      e.associatedIWEntry = true ∧ i < t.window.maxIWSize ∧
        t.window.IW i = ⟨some e.instruction, some pos, true, i⟩) : t.Linked := by
  refine ⟨hsound, fun j hj hunissued i hi => ?_⟩
  rw [hrob] at hj
  by_cases hpos : j = pos
  · subst hpos
    have hentry : t.pipeline.entry j = e := by
      rw [Pipeline.entry, hrob]
      exact Function.update_self _ _ _
    rw [hentry] at hunissued ⊢
    exact hself hunissued i hi
  · have hentry : t.pipeline.entry j = s.pipeline.entry j := by
      rw [Pipeline.entry, hrob]
      exact Function.update_of_ne hpos _ _
    rw [hentry] at hunissued ⊢
    rw [hother j hpos] at hi
    obtain ⟨hassociated, hindex, hwindow⟩ := h.associated j hj hunissued i hi
    have hkept := hIW i (by rw [hwindow]) fun heq => hpos (by
      rw [hwindow] at heq
      exact Option.some.inj heq)
    rw [hkept, hmax]
    exact ⟨hassociated, hindex, hwindow⟩

theorem iwPush_refines (h : s.Linked) (hstep : s.performIWPush = .ok t) :
    s.Refines .iwPush t := by
  rw [performIWPush.eq_def] at hstep
  split at hstep
  · cases hstep
  rename_i pos rest hbuffer
  simp only at hstep
  split_ifs at hstep with hnop hfull hrenamed
  · obtain rfl := Except.ok.inj hstep
    refine ⟨?_, h.of_setEntry rfl h.sound rfl (fun _ _ => rfl) (fun _ _ _ => rfl) fun hfalse => ?_,
      rfl⟩
    · change s.pipeline.performIWPush = _
      rw [Pipeline.performIWPush.eq_def, hbuffer]
      simp only [if_pos hnop]
    · cases hfalse
  · have hroom : s.window.availListHead ≠ -1 := by simpa [InstructionWindow.isFull] using hfull
    split at hstep
    · rename_i hadd
      exact absurd (InstructionWindow.addToWindow_eq_none_iff_head.mp hadd) hroom
    · rename_i index window hadd
      obtain rfl := Except.ok.inj hstep
      obtain ⟨hsound, hindex, hinvalid, hmax, hIW⟩ := h.sound.addToWindow_spec hadd
      refine ⟨?_, h.of_setEntry rfl hsound hmax (fun j hj => Function.update_of_ne hj _ _)
        (fun i hvalid _ => ?_) fun _ i hi => ?_, hmax⟩
      · change s.pipeline.performIWPush = _
        rw [Pipeline.performIWPush.eq_def, hbuffer]
        simp only [if_neg hnop, if_neg (not_not.mpr hrenamed)]
      · have hne : i ≠ index := by
          rintro rfl
          exact absurd (hvalid.symm.trans hinvalid) (by decide)
        change window.IW i = _
        rw [hIW, Function.update_of_ne hne]
      · change Function.update s.associatedIWEntry pos (some index) pos = some i at hi
        rw [Function.update_self] at hi
        obtain rfl := Option.some.inj hi
        refine ⟨rfl, hmax.symm ▸ hindex, ?_⟩
        change window.IW index = _
        rw [hIW, Function.update_self]

/-! ### The paths of an issue -/

/-- The functional unit of an operation tells how it is issued. -/
theorem issueKind_spec (opType : OperationType) :
    (opType.getFUType = .inValid ∧ (opType ≠ .load ∧ opType ≠ .store ∧ opType ≠ .mfence) ∧
      Pipeline.OperationType.issueKind opType = .noUnit) ∨
    (opType.getFUType ≠ .inValid ∧ (opType ≠ .load ∧ opType ≠ .store ∧ opType ≠ .mfence) ∧
      Pipeline.OperationType.issueKind opType = .unit) ∨
    opType = .load ∨ opType = .store ∨ opType = .mfence := by
  cases opType <;> decide

/-- The pipeline issues the instruction at `pos`, and its window entry `i` is removed. -/
structure Issues (s t : WindowedPipeline) (pos i : ℕ) : Prop
    extends s.Refines (.issue pos) t where
  history : t.history = s.history ++ [.returned i]

/-- The removal of a window entry after its instruction is marked as issued. -/
theorem remove_spec {e : ReorderBufferEntry} (h : s.Linked) (hmem : pos ∈ s.pipeline.rob.window)
    (hunissued : (s.pipeline.entry pos).isIssued = false)
    (hi : s.associatedIWEntry pos = some i) (hissued : e.isIssued = true) :
    ∃ u, (s.setEntry pos e).removeFromWindow i = .ok u ∧ u.Linked ∧
      u.window.maxIWSize = s.window.maxIWSize ∧ u.pipeline = s.pipeline.setEntry pos e ∧
      u.history = s.history ++ [.returned i] := by
  obtain ⟨-, hindex, hIW⟩ := h.associated pos hmem hunissued i hi
  have hROB : ((s.pipeline.setEntry pos e).rob.ROB pos).isIssued = true := by
    rw [show (s.pipeline.setEntry pos e).rob.ROB pos = e from Function.update_self _ _ _, hissued]
  obtain ⟨window, hremove, hsound, hmax, hwindow⟩ :=
    h.sound.removeFromWindow_spec hindex (by rw [hIW]) (by rw [hIW]) hROB
  refine ⟨{ s.setEntry pos e with window := window, history := s.history ++ [.returned i] }, ?_,
    h.of_setEntry rfl hsound hmax (fun _ _ => rfl) (fun j _ hj => ?_) fun hfalse => ?_, hmax,
    rfl, rfl⟩
  · rw [removeFromWindow]
    exact congrArg (Except.map _) hremove
  · have hne : j ≠ i := by
      rintro rfl
      rw [hIW] at hj
      exact hj rfl
    change window.IW j = _
    rw [hwindow, Function.update_of_ne hne]
  · rw [hissued] at hfalse
    cases hfalse

/-- More events change no links. -/
theorem Linked.addEvents (h : s.Linked) (pos : ℕ) : (s.addEvents pos).Linked :=
  ⟨h.sound, h.associated⟩

/-- What the pipeline does for an instruction that can be issued. -/
theorem issueInstruction_eq {p : Pipeline} (hmem : pos ∈ p.rob.window)
    (hunissued : (p.entry pos).isIssued = false)
    (hassociated : (p.entry pos).associatedIWEntry = true)
    (hstuck : ¬ ((p.entry pos).isRenameDone = false ∨ (p.entry pos).isExecuted = true))
    (havailable : (p.entry pos).operand1.available = true ∧
      (p.entry pos).operand2.available = true) :
    p.issueInstruction pos =
      match Pipeline.OperationType.issueKind (p.entry pos).instruction.operationType with
      | .noUnit | .load => .ok (p.setEntry pos { p.entry pos with isIssued := true })
      | .storeOrFence => .ok (p.setEntry pos
          { p.entry pos with isIssued := true, isExecuted := true, isWriteBackDone := true })
      | .unit => .ok { p.setEntry pos { p.entry pos with isIssued := true } with
          eventQueue := p.eventQueue ++ [.broadCast pos, .execComplete pos] } := by
  have hready : ¬ ¬ (pos ∈ p.rob.window ∧ (p.entry pos).isIssued = false ∧
      (p.entry pos).associatedIWEntry = true) := not_not.mpr ⟨hmem, hunissued, hassociated⟩
  rw [Pipeline.issueInstruction.eq_def]
  exact (if_neg hready).trans ((if_neg hstuck).trans (if_pos havailable))

/-- Every path of an issue removes the entry once. -/
theorem issueInstruction_spec (h : s.Linked) (hmem : pos ∈ s.pipeline.rob.window)
    (hunissued : (s.pipeline.entry pos).isIssued = false)
    (hi : s.associatedIWEntry pos = some i) (hstep : s.issueInstruction i = .ok t) :
    s.Issues t pos i := by
  obtain ⟨hassociated, hindex, hIW⟩ := h.associated pos hmem hunissued i hi
  rw [issueInstruction.eq_def, hIW] at hstep
  simp only [IWEntry.opType, Option.map_some] at hstep
  have hremoves : ∀ {e : ReorderBufferEntry} {u}, e.isIssued = true →
      (s.setEntry pos e).removeFromWindow i = .ok u → u.Linked ∧
        u.window.maxIWSize = s.window.maxIWSize ∧ u.pipeline = s.pipeline.setEntry pos e ∧
        u.history = s.history ++ [.returned i] := by
    intro e u hissued hu
    obtain ⟨u', hremove, hu'⟩ := remove_spec h hmem hunissued hi hissued
    obtain rfl := Except.ok.inj (hremove.symm.trans hu)
    exact hu'
  split_ifs at hstep with hstuck hissued havailable hmemory
  all_goals
    obtain ⟨others, hothers, hstep⟩ := Except.bind_ok hstep
    have hissue := issueInstruction_eq hmem hunissued hassociated hstuck havailable
  · have hFU : (s.pipeline.entry pos).instruction.operationType.getFUType ≠ .inValid := by
      rcases hmemory with hop | hop | hop <;> rw [hop] <;> decide
    rw [issueOthers, if_neg hFU, if_neg (by tauto)] at hothers
    obtain rfl := Except.ok.inj hothers
    rw [issueLoadStore] at hstep
    rcases hmemory with hop | hstore
    · rw [hop] at hissue
      rw [hop, if_neg (by decide)] at hstep
      obtain ⟨hlinked, hmax, hpipeline, hhistory⟩ := hremoves rfl hstep
      exact ⟨⟨hissue.trans (congrArg Except.ok hpipeline.symm), hlinked, hmax⟩, hhistory⟩
    · have hkind : Pipeline.OperationType.issueKind
          (s.pipeline.entry pos).instruction.operationType = .storeOrFence := by
        rcases hstore with hop | hop <;> rw [hop] <;> rfl
      rw [hkind] at hissue
      rw [if_pos hstore] at hstep
      obtain ⟨hlinked, hmax, hpipeline, hhistory⟩ := hremoves rfl hstep
      exact ⟨⟨hissue.trans (congrArg Except.ok hpipeline.symm), hlinked, hmax⟩, hhistory⟩
  · obtain rfl := Except.ok.inj hstep
    rcases issueKind_spec (s.pipeline.entry pos).instruction.operationType with
      ⟨hFU, -, hkind⟩ | ⟨hFU, hnot, hkind⟩ | hop
    · rw [issueOthers, if_pos hFU] at hothers
      obtain ⟨hlinked, hmax, hpipeline, hhistory⟩ := hremoves rfl hothers
      rw [hkind] at hissue
      exact ⟨⟨hissue.trans (congrArg Except.ok hpipeline.symm), hlinked, hmax⟩, hhistory⟩
    · rw [issueOthers, if_neg hFU, if_pos hnot] at hothers
      obtain ⟨u, hu, rfl⟩ := Except.map_ok hothers
      obtain ⟨hlinked, hmax, hpipeline, hhistory⟩ := hremoves rfl hu
      rw [hkind] at hissue
      refine ⟨⟨hissue.trans (congrArg Except.ok ?_), hlinked.addEvents pos, hmax⟩, hhistory⟩
      rw [addEvents, hpipeline]
      rfl
    · exact absurd hop hmemory

theorem issue_refines (h : s.Linked) (hstep : s.performSelect pos = .ok t) :
    s.Refines (.issue pos) t := by
  rw [performSelect] at hstep
  split_ifs at hstep with hready
  split at hstep
  · rename_i i hi
    exact (issueInstruction_spec h hready.1 hready.2 hi hstep).toRefines
  · cases hstep

/-! ### Every run -/

theorem refines_of_step (h : s.Linked) (ho : s.pipeline.Ordered) (ha : s.pipeline.Accounted)
    (hstep : s.Step label t) : s.Refines label t := by
  have halone : s.advance (s.pipeline.next label) = .ok t →
      (∀ instruction threadID, label ≠ .decode instruction threadID) → label ≠ .iwPush →
      (∀ pos, label ≠ .issue pos) → s.Refines label t := by
    intro hadvance hdecode hpush hissue
    obtain ⟨pipeline, hok, rfl⟩ := advance_ok hadvance
    exact ⟨hok, h.of_keepsWaiting
      (Pipeline.keepsWaiting_of_next ho ha hok hdecode hpush hissue), rfl⟩
  cases label with
  | decode instruction threadID => exact decode_refines h ho hstep
  | iwPush => exact iwPush_refines h hstep
  | issue pos => exact issue_refines h hstep
  | rename => exact halone hstep (by simp) (by simp) (by simp)
  | broadCast pos => exact halone hstep (by simp) (by simp) (by simp)
  | execComplete pos => exact halone hstep (by simp) (by simp) (by simp)
  | writeBack pos => exact halone hstep (by simp) (by simp) (by simp)
  | commit => exact halone hstep (by simp) (by simp) (by simp)

variable {cfg : PipelineConfig} {maxIWSize : ℕ} {s₀ : WindowedPipeline}
  {labels : List PipelineLabel}

theorem linked_new (hsize : 1 ≤ maxIWSize) (h : new cfg maxIWSize = some s₀) :
    s₀.Linked ∧ s₀.window.maxIWSize = maxIWSize ∧ Pipeline.new cfg = some s₀.pipeline := by
  obtain ⟨pipeline, hpipeline, rfl⟩ := Option.map_eq_some_iff.mp h
  exact ⟨⟨InstructionWindow.sound_new hsize, fun _ _ _ _ hnone => by cases hnone⟩, rfl, hpipeline⟩

theorem linked_of_run (hsize : 1 ≤ maxIWSize) (h : new cfg maxIWSize = some s₀)
    (run : Run Step s₀ labels t) : t.Linked ∧ t.window.maxIWSize = maxIWSize ∧
      t.pipeline.Ordered ∧ t.pipeline.Accounted := by
  obtain ⟨hlinked, hmax, hnew⟩ := linked_new hsize h
  refine run.invariant (I := fun s => s.Linked ∧ s.window.maxIWSize = maxIWSize ∧
    s.pipeline.Ordered ∧ s.pipeline.Accounted) ⟨hlinked, hmax, Pipeline.ordered_new hnew⟩ ?_
  rintro s label t ⟨hs, hmax, ho, ha⟩ hstep
  have hrefines := refines_of_step hs ho ha hstep
  exact ⟨hrefines.linked, hrefines.maxIWSize.trans hmax,
    (Pipeline.moves_of_step ho ha hrefines.step).2⟩

/-- No entry of the window is lost, and none is in two places. -/
structure ConservesEntries (s : WindowedPipeline) (maxIWSize : ℕ) : Prop where
  /-- Every index is free, once, or that of exactly one valid entry. -/
  free_or_valid : ∀ i < maxIWSize,
    (s.window.freeList.count i = 1 ∧
      ∀ j < maxIWSize, (s.window.IW j).isValid = true → (s.window.IW j).pos ≠ i) ∨
    (s.window.freeList.count i = 0 ∧
      ∃! j, j < maxIWSize ∧ (s.window.IW j).isValid = true ∧ (s.window.IW j).pos = i)
  /-- An insertion fails exactly when all entries are valid. -/
  full : ∀ instruction ROBEntry, s.window.addToWindow instruction ROBEntry = none ↔
    ∀ i < maxIWSize, (s.window.IW i).isValid = true
  /-- An entry is removed at most once for every time it was inserted. -/
  alternates : Alternates s.history

/-- For every size of the window and every run of the pipeline with it, the entries are
conserved. -/
theorem entries_conserved (hsize : 1 ≤ maxIWSize) (h : new cfg maxIWSize = some s₀)
    (run : Run Step s₀ labels t) : t.ConservesEntries maxIWSize := by
  obtain ⟨hlinked, rfl, -, -⟩ := linked_of_run hsize h run
  exact ⟨fun i hi => hlinked.sound.free_or_valid hi,
    fun instruction ROBEntry => hlinked.sound.addToWindow_eq_none_iff,
    hlinked.sound.conserved.alternates⟩

/-- The only entry of a window is removed by the issue of a load and inserted again. -/
theorem entries_conserved_reused :
    ∃ s₀ t, new ⟨4, 1, fun _ => 2, fun _ => 6⟩ 1 = some s₀ ∧
      s₀.follow [.decode ⟨.load, some (.base .immediate), none,
          some (.base (.register .integer 0)), rfl⟩ 0, .rename, .iwPush, .issue 0,
        .decode ⟨.mov, some (.base .immediate), none,
          some (.base (.register .integer 1)), rfl⟩ 0, .rename, .iwPush] = some t ∧
      t.history = [.taken 0, .returned 0, .taken 0] ∧ t.ConservesEntries 1 := by
  obtain ⟨s₀, hnew⟩ := Option.isSome_iff_exists.mp
    (by decide : (new ⟨4, 1, fun _ => 2, fun _ => 6⟩ 1).isSome = true)
  have hrun : ((s₀.follow [.decode ⟨.load, some (.base .immediate), none,
      some (.base (.register .integer 0)), rfl⟩ 0, .rename, .iwPush, .issue 0,
      .decode ⟨.mov, some (.base .immediate), none,
        some (.base (.register .integer 1)), rfl⟩ 0, .rename, .iwPush]).map
      fun t => t.history) = some [.taken 0, .returned 0, .taken 0] := by
    obtain rfl := Option.some.inj hnew
    decide
  obtain ⟨t, ht, hhistory⟩ := Option.map_eq_some_iff.mp hrun
  exact ⟨s₀, t, hnew, ht, hhistory, entries_conserved (by decide) hnew (run_of_follow ht)⟩

end WindowedPipeline

end Tejas
