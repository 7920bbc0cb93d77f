import Tejas.RegisterOverflow

/-!
# The work that is left in the pipeline

Behind its rename an instruction only moves on: every step takes one entry to a later stage,
or takes an event out of the queue. So the steps that are still ahead of the instructions in
the reorder buffer can be counted.
-/

namespace Tejas
open LabelledRuns

/-- How far an instruction has come behind its rename. -/
structure EntryStage where
  isIssued : Bool
  isExecuted : Bool
  isWriteBackDone : Bool
  associatedIWEntry : Bool
  deriving DecidableEq, Repr

/-- The steps that an entry still takes from its issue on; a broadcast and a completion of
its unit are in the queue after the issue. -/
def EntryStage.work (stage : EntryStage) : ℕ :=
  (if stage.isIssued then 0 else 3) + (if stage.isExecuted then 0 else 1) +
    (if stage.isWriteBackDone then 0 else 1) + 1

def ReorderBufferEntry.stage (e : ReorderBufferEntry) : EntryStage :=
  ⟨e.isIssued, e.isExecuted, e.isWriteBackDone, e.associatedIWEntry⟩

theorem ReorderBufferEntry.SameStage.stage_eq {e e' : ReorderBufferEntry} (h : e.SameStage e') :
    e'.stage = e.stage := by
  rw [stage, h.isIssued, h.isExecuted, h.isWriteBackDone, h.associatedIWEntry]
  rfl

/-- The completion of the instruction announces a result. -/
def Instruction.Announces (i : Instruction) : Prop :=
  i.destinationOperand.isSome ∨ i.operationType = .xchg

instance (i : Instruction) : Decidable i.Announces := inferInstanceAs (Decidable (_ ∨ _))

namespace Pipeline

variable {s t u : Pipeline} {pos i : ℕ} {label : PipelineLabel} {stage : EntryStage}
  {renameBuffer : List ℕ} {eventQueue : List ExecutionEvent}

/-- What a step of the later stages makes of the entry at a position, of the rename buffer
and of the events. -/
inductive EntryMove (s : Pipeline) :
    PipelineLabel → ℕ → EntryStage → List ℕ → List ExecutionEvent → Prop
  | skip {pos : ℕ} {rest : List ℕ} (buffer : s.renameBuffer = pos :: rest)
      (nop : (s.entry pos).instruction.operationType = .inValid ∨
        (s.entry pos).instruction.operationType = .nop) :
      EntryMove s .iwPush pos ⟨true, true, true, (s.entry pos).associatedIWEntry⟩ rest
        s.eventQueue
  | push {pos : ℕ} {rest : List ℕ} (buffer : s.renameBuffer = pos :: rest)
      (real : ¬ ((s.entry pos).instruction.operationType = .inValid ∨
        (s.entry pos).instruction.operationType = .nop)) :
      EntryMove s .iwPush pos { (s.entry pos).stage with associatedIWEntry := true } rest
        s.eventQueue
  | start {pos : ℕ} (unissued : (s.entry pos).isIssued = false)
      (associated : (s.entry pos).associatedIWEntry = true)
      (kind : OperationType.issueKind (s.entry pos).instruction.operationType = .noUnit ∨
        OperationType.issueKind (s.entry pos).instruction.operationType = .load) :
      EntryMove s (.issue pos) pos { (s.entry pos).stage with isIssued := true }
        s.renameBuffer s.eventQueue
  | finish {pos : ℕ} (unissued : (s.entry pos).isIssued = false) :
      EntryMove s (.issue pos) pos ⟨true, true, true, (s.entry pos).associatedIWEntry⟩
        s.renameBuffer s.eventQueue
  | dispatch {pos : ℕ} (unissued : (s.entry pos).isIssued = false)
      (kind : OperationType.issueKind (s.entry pos).instruction.operationType = .unit) :
      EntryMove s (.issue pos) pos { (s.entry pos).stage with isIssued := true }
        s.renameBuffer (s.eventQueue ++ [.broadCast pos, .execComplete pos])
  | broadCast {pos : ℕ} (event : .broadCast pos ∈ s.eventQueue) :
      EntryMove s (.broadCast pos) pos (s.entry pos).stage s.renameBuffer
        (s.eventQueue.erase (.broadCast pos))
  | complete {pos : ℕ} {queue : List ExecutionEvent} (issued : (s.entry pos).isIssued = true)
      (unexecuted : (s.entry pos).isExecuted = false)
      (event : queue = s.eventQueue ∨ queue = s.eventQueue.erase (.execComplete pos)) :
      EntryMove s (.execComplete pos) pos { (s.entry pos).stage with
        isExecuted := true
        isWriteBackDone := (s.entry pos).isWriteBackDone ||
          !decide (s.entry pos).instruction.Announces } s.renameBuffer queue
  | writeBack {pos : ℕ} (executed : (s.entry pos).isExecuted = true)
      (unwritten : (s.entry pos).isWriteBackDone = false) :
      EntryMove s (.writeBack pos) pos { (s.entry pos).stage with isWriteBackDone := true }
        s.renameBuffer s.eventQueue

/-- The entry at `pos` has moved to a stage, and the other entries have stayed. -/
structure Moved (s t : Pipeline) (pos : ℕ) (stage : EntryStage) (renameBuffer : List ℕ)
    (eventQueue : List ExecutionEvent) : Prop where
  mem : pos ∈ s.rob.window
  window : t.rob.window = s.rob.window
  decodeBuffer : t.decodeBuffer = s.decodeBuffer
  renameBuffer : t.renameBuffer = renameBuffer
  eventQueue : t.eventQueue = eventQueue
  instruction : ∀ i, (t.entry i).instruction = (s.entry i).instruction
  self : (t.entry pos).stage = stage
  other : ∀ i, i ≠ pos → (t.entry i).stage = (s.entry i).stage

theorem moved_of_staged {isIssued isExecuted isWriteBackDone associatedIWEntry : Bool}
    (hmem : pos ∈ s.rob.window)
    (ht : t = { s.setEntry pos ((s.entry pos).staged isIssued isExecuted isWriteBackDone
      associatedIWEntry) with renameBuffer := renameBuffer, eventQueue := eventQueue }) :
    s.Moved t pos ⟨isIssued, isExecuted, isWriteBackDone, associatedIWEntry⟩ renameBuffer
      eventQueue := by
  have hself : t.entry pos = (s.entry pos).staged isIssued isExecuted isWriteBackDone
      associatedIWEntry := by
    rw [ht]
    exact Function.update_self _ _ _
  have hother : ∀ i, i ≠ pos → t.entry i = s.entry i := by
    intro i hi
    rw [ht]
    exact Function.update_of_ne hi _ _
  refine ⟨hmem, by rw [ht]; rfl, by rw [ht]; rfl, by rw [ht], by rw [ht], fun i => ?_, ?_,
    fun i hi => ?_⟩
  · by_cases hi : i = pos
    · rw [hi, hself]
      rfl
    · rw [hother i hi]
  · rw [hself]
    rfl
  · rw [hother i hi]

/-- An announcement leaves the stages as they are. -/
theorem Moved.announced {blind : ℕ → Prop} {l : List (RegisterType × ℕ)}
    (hm : s.Moved u pos stage renameBuffer eventQueue) (ha : u.Announced t pos blind l) :
    s.Moved t pos stage renameBuffer eventQueue where
  mem := hm.mem
  window := ha.window.trans hm.window
  decodeBuffer := by rw [ha.after]; exact hm.decodeBuffer
  renameBuffer := by rw [ha.after]; exact hm.renameBuffer
  eventQueue := by rw [ha.after]; exact hm.eventQueue
  instruction i := (ha.names i).instruction.trans (hm.instruction i)
  self := (ha.stage pos).stage_eq.trans hm.self
  other i hi := (ha.stage i).stage_eq.trans (hm.other i hi)

theorem Moved.settled {m : List (RegisterType × ℕ)}
    (hm : s.Moved u pos stage renameBuffer eventQueue) (hs : u.Settled t m) :
    s.Moved t pos stage renameBuffer eventQueue := by
  rw [hs.after]
  exact { hm with }

theorem iwPush_moved (h : s.Ordered) (hstep : s.performIWPush = .ok t) :
    ∃ pos stage renameBuffer eventQueue, s.EntryMove .iwPush pos stage renameBuffer eventQueue ∧
      s.Moved t pos stage renameBuffer eventQueue := by
  rw [performIWPush.eq_def] at hstep
  split at hstep
  · cases hstep
  rename_i pos rest hbuffer
  obtain ⟨hmem, -, -, -⟩ := h.waiting pos (by rw [hbuffer]; exact List.mem_cons_self)
  simp only at hstep
  split_ifs at hstep with hnop
  · exact ⟨pos, _, _, _, .skip hbuffer hnop,
      moved_of_staged hmem (Except.ok.inj hstep).symm⟩
  · exact ⟨pos, _, _, _, .push hbuffer hnop, moved_of_staged hmem (Except.ok.inj hstep).symm⟩

theorem issue_moved (hstep : s.issueInstruction pos = .ok t) :
    ∃ stage renameBuffer eventQueue, s.EntryMove (.issue pos) pos stage renameBuffer eventQueue ∧
      s.Moved t pos stage renameBuffer eventQueue := by
  rw [issueInstruction.eq_def] at hstep
  simp only at hstep
  split_ifs at hstep with hready hrename havailable
  obtain ⟨hmem, hunissued, hassociated⟩ := hready
  split at hstep
  · rename_i hkind
    exact ⟨_, _, _, .start hunissued hassociated (.inl hkind),
      moved_of_staged hmem (Except.ok.inj hstep).symm⟩
  · rename_i hkind
    exact ⟨_, _, _, .start hunissued hassociated (.inr hkind),
      moved_of_staged hmem (Except.ok.inj hstep).symm⟩
  · exact ⟨_, _, _, .finish hunissued, moved_of_staged hmem (Except.ok.inj hstep).symm⟩
  · rename_i hkind
    exact ⟨_, _, _, .dispatch hunissued hkind,
      moved_of_staged hmem (Except.ok.inj hstep).symm⟩

theorem broadCast_moved (h : s.Ordered) (hstep : s.next (.broadCast pos) = .ok t) :
    ∃ stage renameBuffer eventQueue,
      s.EntryMove (.broadCast pos) pos stage renameBuffer eventQueue ∧
      s.Moved t pos stage renameBuffer eventQueue := by
  rw [next] at hstep
  split_ifs at hstep with hevent
  obtain ⟨hmem, hissued, -, -⟩ := h.execComplete_event pos (h.broadCast_event pos hevent)
  have hcomplete := h.complete hmem (h.isRenameDone_of_issued hmem hissued)
  obtain ⟨l, -, hannounced⟩ := performBroadCast_spec
    (s := { s with eventQueue := s.eventQueue.erase (.broadCast pos) }) (h.size_pos hmem)
    hcomplete hstep
  have hmoved : s.Moved { s with eventQueue := s.eventQueue.erase (.broadCast pos) } pos
      (s.entry pos).stage s.renameBuffer (s.eventQueue.erase (.broadCast pos)) :=
    ⟨hmem, rfl, rfl, rfl, rfl, fun _ => rfl, rfl, fun _ _ => rfl⟩
  exact ⟨_, _, _, .broadCast hevent, hmoved.announced hannounced⟩

theorem completion_moved (h : s.Ordered) (hmem : pos ∈ s.rob.window)
    (hevent : eventQueue = s.eventQueue ∨ eventQueue = s.eventQueue.erase (.execComplete pos))
    (hstep : handleExecutionCompletion { s with eventQueue := eventQueue } pos = .ok t) :
    ∃ stage renameBuffer eventQueue,
      s.EntryMove (.execComplete pos) pos stage renameBuffer eventQueue ∧
      s.Moved t pos stage renameBuffer eventQueue := by
  have hentry : entry { s with eventQueue := eventQueue } pos = s.entry pos := rfl
  rw [handleExecutionCompletion.eq_def] at hstep
  simp only [hentry] at hstep
  split_ifs at hstep with hstuck hannounce
  · rw [not_or, not_or, Bool.not_eq_true, Bool.not_eq_false, Bool.not_eq_false] at hstuck
    obtain ⟨hunexecuted, hrenamed, hissued⟩ := hstuck
    refine ⟨_, _, _, .complete hissued hunexecuted hevent, ?_⟩
    have hannounces : decide (s.entry pos).instruction.Announces = true :=
      decide_eq_true hannounce
    rw [hannounces, Bool.not_true, Bool.or_false]
    obtain ⟨u, hu⟩ : ∃ u : Pipeline, u = { s.setEntry pos ((s.entry pos).staged
        (s.entry pos).isIssued true (s.entry pos).isWriteBackDone
        (s.entry pos).associatedIWEntry) with
      renameBuffer := s.renameBuffer, eventQueue := eventQueue } := ⟨_, rfl⟩
    have hself : u.entry pos = (s.entry pos).staged (s.entry pos).isIssued true
        (s.entry pos).isWriteBackDone (s.entry pos).associatedIWEntry := by
      rw [hu]
      exact Function.update_self _ _ _
    have hstep' : u.performBroadCast pos = .ok t := by
      rw [hu, ← hstep]
      rfl
    obtain ⟨l, -, hannounced⟩ := performBroadCast_spec (s := u)
      (by rw [hu]; exact h.size_pos hmem)
      (by
        rw [hself]
        exact ⟨(h.complete hmem hrenamed).allocated, (h.complete hmem hrenamed).exchange⟩)
      hstep'
    exact (moved_of_staged hmem hu).announced hannounced
  · rw [not_or, not_or, Bool.not_eq_true, Bool.not_eq_false, Bool.not_eq_false] at hstuck
    obtain ⟨hunexecuted, -, hissued⟩ := hstuck
    refine ⟨_, _, _, .complete hissued hunexecuted hevent, ?_⟩
    have hsilent : decide (s.entry pos).instruction.Announces = false :=
      decide_eq_false hannounce
    rw [hsilent, Bool.not_false, Bool.or_true]
    exact moved_of_staged hmem (Except.ok.inj hstep).symm

theorem execComplete_moved (h : s.Ordered) (hstep : s.next (.execComplete pos) = .ok t) :
    ∃ stage renameBuffer eventQueue,
      s.EntryMove (.execComplete pos) pos stage renameBuffer eventQueue ∧
      s.Moved t pos stage renameBuffer eventQueue := by
  rw [next] at hstep
  split_ifs at hstep with hevent hload
  · exact completion_moved h (h.execComplete_event pos hevent.1).1 (.inr rfl) hstep
  · exact completion_moved h hload.1 (.inl rfl) hstep

theorem writeBack_moved (h : s.Ordered) (ha : s.Accounted)
    (hstep : s.performWriteBack pos = .ok t) :
    ∃ stage renameBuffer eventQueue,
      s.EntryMove (.writeBack pos) pos stage renameBuffer eventQueue ∧
      s.Moved t pos stage renameBuffer eventQueue := by
  rw [performWriteBack.eq_def] at hstep
  simp only at hstep
  split_ifs at hstep with hready
  obtain ⟨hmem, hexecuted, hunwritten⟩ := hready
  obtain ⟨v, hwake, hwrite⟩ := Except.bind_ok hstep
  obtain ⟨u, hu⟩ : ∃ u : Pipeline, u = { s.setEntry pos ((s.entry pos).staged
      (s.entry pos).isIssued (s.entry pos).isExecuted true (s.entry pos).associatedIWEntry) with
    renameBuffer := s.renameBuffer, eventQueue := s.eventQueue } := ⟨_, rfl⟩
  have hwake' : u.wakeUpAtWriteBack pos = .ok v := by
    rw [hu]
    exact hwake
  obtain ⟨l, -, hannounced⟩ := wakeUpAtWriteBack_spec (by rw [hu]; exact h.size_pos hmem) hwake'
  obtain ⟨t', m, hwrite', hsettled, -⟩ :=
    writeBack_settles h ha hmem hexecuted hunwritten hu hannounced
  obtain rfl := Except.ok.inj (hwrite'.symm.trans hwrite)
  exact ⟨_, _, _, .writeBack hexecuted hunwritten,
    ((moved_of_staged hmem hu).announced hannounced).settled hsettled⟩

/-- The kinds of steps, with the exact moves of the later stages. -/
theorem moved_of_step (h : s.Ordered) (ha : s.Accounted) (hstep : s.Step label t) :
    (∃ pos instruction threadID, label = .decode instruction threadID ∧
      s.Decodes t pos instruction threadID) ∨
    (∃ pos rest e allocated, s.Renames t pos rest e allocated) ∨
    (∃ pos stage renameBuffer eventQueue, s.EntryMove label pos stage renameBuffer eventQueue ∧
      s.Moved t pos stage renameBuffer eventQueue) ∨
    ∃ pos, s.Commits t pos := by
  cases label with
  | decode instruction threadID => exact .inl ⟨_, instruction, threadID, rfl, decode_spec h hstep⟩
  | rename => exact .inr (.inl (performRename_spec ha.valid (unavailable_of_decoded h) hstep))
  | iwPush => exact .inr (.inr (.inl (iwPush_moved h hstep)))
  | issue pos => exact .inr (.inr (.inl ⟨pos, issue_moved hstep⟩))
  | broadCast pos => exact .inr (.inr (.inl ⟨pos, broadCast_moved h hstep⟩))
  | execComplete pos => exact .inr (.inr (.inl ⟨pos, execComplete_moved h hstep⟩))
  | writeBack pos => exact .inr (.inr (.inl ⟨pos, writeBack_moved h ha hstep⟩))
  | commit => exact .inr (.inr (.inr (commit_spec h hstep)))

/-! ### The steps that are left -/

/-- The steps that are left: two of every decoded instruction until it is in the instruction
window, those of the entries, and one of every event. -/
def work (s : Pipeline) : ℕ :=
  (s.rob.window.map fun i => (s.entry i).stage.work).sum + s.renameBuffer.length +
    2 * s.decodeBuffer.length + s.eventQueue.length

def NotDecode (label : PipelineLabel) : Prop :=
  ∀ instruction threadID, label ≠ .decode instruction threadID

/-- What the entry at a position loses is lost by the sum over the window. -/
theorem Moved.sum_le (hm : s.Moved t pos stage renameBuffer eventQueue) {d : ℕ}
    (hnodup : s.rob.window.Nodup) (hself : stage.work + d ≤ (s.entry pos).stage.work) :
    (t.rob.window.map fun i => (t.entry i).stage.work).sum + d ≤
      (s.rob.window.map fun i => (s.entry i).stage.work).sum := by
  obtain ⟨before, after, hwindow⟩ := List.append_of_mem hm.mem
  rw [hwindow] at hnodup
  have hne : ∀ i ∈ before ++ after, i ≠ pos := by
    rintro i hi rfl
    exact (List.nodup_middle.mp hnodup |> List.nodup_cons.mp).1 hi
  have hsame : ∀ l : List ℕ, (∀ i ∈ l, i ≠ pos) →
      (l.map fun i => (t.entry i).stage.work) = l.map fun i => (s.entry i).stage.work :=
    fun l hl => List.map_congr_left fun i hi => by rw [hm.other i (hl i hi)]
  rw [hm.window, hwindow, List.map_append, List.map_append, List.map_cons, List.map_cons,
    List.sum_append, List.sum_append, List.sum_cons, List.sum_cons,
    hsame before fun i hi => hne i (List.mem_append_left _ hi),
    hsame after fun i hi => hne i (List.mem_append_right _ hi), hm.self]
  omega

/-- Every step but a decode does some of the work that is left. -/
theorem work_lt_of_step (h : s.Ordered) (ha : s.Accounted) (hlabel : NotDecode label)
    (hstep : s.Step label t) : t.work < s.work := by
  have hnodup := h.window_nodup
  rcases moved_of_step h ha hstep with ⟨pos, instruction, threadID, rfl, -⟩ |
    ⟨pos, rest, e, allocated, hr⟩ | ⟨pos, stage, buffer, queue, hmove, hm⟩ | ⟨pos, hc⟩
  · exact absurd rfl (hlabel instruction threadID)
  · have hsum : (t.rob.window.map fun i => (t.entry i).stage.work) =
        s.rob.window.map fun i => (s.entry i).stage.work := by
      rw [hr.window]
      refine List.map_congr_left fun i _ => ?_
      by_cases hi : i = pos
      · rw [hi, hr.entry_self, ReorderBufferEntry.stage, hr.isIssued, hr.isExecuted,
          hr.isWriteBackDone, hr.associatedIWEntry]
        rfl
      · rw [hr.entry_other hi]
    rw [work, work, hsum, hr.after, hr.decodeBuffer]
    simp only [List.length_append, List.length_cons, List.length_nil]
    omega
  · have hsum := fun d => hm.sum_le (d := d) hnodup
    rw [work, work, hm.renameBuffer, hm.decodeBuffer, hm.eventQueue]
    have hissued := h.isExecuted pos hm.mem
    have hexecuted := h.isWriteBackDone pos hm.mem
    cases hmove with
    | skip buffer nop =>
      have hle := hsum 0 (by simp [EntryStage.work])
      rw [buffer, List.length_cons]
      omega
    | push buffer real =>
      have hle := hsum 0 (by simp [EntryStage.work])
      rw [buffer, List.length_cons]
      omega
    | start unissued associated kind =>
      have hle := hsum 3 (by simp [EntryStage.work, ReorderBufferEntry.stage, unissued]; omega)
      omega
    | finish unissued =>
      have hle := hsum 3 (by simp [EntryStage.work, ReorderBufferEntry.stage, unissued]; omega)
      omega
    | dispatch unissued kind =>
      have hle := hsum 3 (by simp [EntryStage.work, ReorderBufferEntry.stage, unissued]; omega)
      simp only [List.length_append, List.length_cons, List.length_nil]
      omega
    | broadCast event =>
      have hle := hsum 0 (by simp)
      have hlength := List.length_erase_of_mem event
      have hpos := List.length_pos_of_mem event
      omega
    | complete issued unexecuted event =>
      have hle := hsum 1 (by
        cases hwritten : (s.entry pos).isWriteBackDone with
        | false =>
          simp only [EntryStage.work, ReorderBufferEntry.stage, hwritten, issued, unexecuted,
            Bool.false_or, Bool.false_eq_true, ↓reduceIte]
          split_ifs <;> omega
        | true => simp [EntryStage.work, ReorderBufferEntry.stage, hwritten, issued, unexecuted])
      have hlength : queue.length ≤ s.eventQueue.length := by
        rcases event with rfl | rfl
        · exact le_refl _
        · exact List.length_erase_le
      omega
    | writeBack executed unwritten =>
      have hle := hsum 1 (by simp [EntryStage.work, ReorderBufferEntry.stage, unwritten])
      omega
  · have hsame : (t.rob.window.map fun i => (t.entry i).stage.work) =
        t.rob.window.map fun i => (s.entry i).stage.work := by
      rw [hc.window] at hnodup
      refine List.map_congr_left fun i hi => ?_
      rw [hc.entry_other i]
      rintro rfl
      exact (List.nodup_cons.mp hnodup).1 hi
    rw [work, work, hsame, hc.window, List.map_cons, List.sum_cons, hc.after]
    simp only [EntryStage.work]
    omega

end Pipeline

end Tejas
