import Tejas.PipelineOrder

/-!
# What each step of the pipeline does

A step decodes an instruction, renames the oldest decoded one, advances one of the
renamed ones, or commits the oldest.
-/

namespace Tejas
open RingWindow RingIndices RegisterPool

namespace Pipeline

variable {s t : Pipeline} {pos i j q threadID : ℕ} {type : RegisterType}
  {l m : List (RegisterType × ℕ)} {blind : ℕ → Prop} {instruction : Instruction}

/-- A new instruction is at the end of the buffer. -/
structure Decodes (s t : Pipeline) (pos : ℕ) (instruction : Instruction) (threadID : ℕ) :
    Prop where
  after : t = { s with rob := t.rob, decodeBuffer := s.decodeBuffer ++ [pos] }
  indices : Bounded t.rob.MaxROBSize t.rob.head t.rob.tail
  size : t.rob.MaxROBSize = s.rob.MaxROBSize
  window : t.rob.window = s.rob.window ++ [pos]
  entry_self : t.entry pos = .fresh instruction threadID
  entry_other : ∀ i, i ≠ pos → t.entry i = s.entry i

/-- The oldest instruction, which is written back, has left the buffer. -/
structure Commits (s t : Pipeline) (pos : ℕ) : Prop where
  after : t = { s with rob := t.rob }
  indices : Bounded t.rob.MaxROBSize t.rob.head t.rob.tail
  size : t.rob.MaxROBSize = s.rob.MaxROBSize
  window : s.rob.window = pos :: t.rob.window
  isWriteBackDone : (s.entry pos).isWriteBackDone = true
  entry_other : ∀ i, i ≠ pos → t.entry i = s.entry i

/-- A renamed instruction has advanced, and what it announced and settled are its results. -/
structure Advances (s t : Pipeline) (pos : ℕ) (blind : ℕ → Prop)
    (l m : List (RegisterType × ℕ)) : Prop extends s.Progress t pos blind l m where
  mem : pos ∈ s.rob.window
  isRenameDone : (s.entry pos).isRenameDone = true
  announced : ∀ r ∈ l, r ∈ (s.entry pos).results ∧
    (s.entry pos).isWriteBackDone = false ∧ t.Done pos
  executed : (t.entry pos).isExecuted = true → (s.entry pos).isExecuted = true ∨
    ∀ r ∈ (s.entry pos).results, r ∈ l
  settled : ∀ r ∈ m, r ∈ (s.entry pos).results ∧
    (s.entry pos).isWriteBackDone = false ∧ (t.entry pos).isWriteBackDone = true
  writtenBack : (t.entry pos).isWriteBackDone = true →
    (s.entry pos).isWriteBackDone = true ∨ ∀ r ∈ (s.entry pos).results, r ∈ m
  issued_kept : (s.entry pos).isIssued = true → (t.entry pos).isIssued = true
  executed_kept : (s.entry pos).isExecuted = true → (t.entry pos).isExecuted = true
  writtenBack_kept : (s.entry pos).isWriteBackDone = true →
    (t.entry pos).isWriteBackDone = true
  broadCast_kept : ∀ i, (s.entry i).isIssued = true → .broadCast i ∉ s.eventQueue →
    .broadCast i ∉ t.eventQueue

theorem size_lt_of_isFull (h : s.Ordered) (hfull : s.rob.isFull = false)
    (hsize : s.rob.MaxROBSize ≠ 0) :
    size s.rob.MaxROBSize s.rob.head s.rob.tail < s.rob.MaxROBSize := by
  simp only [ReorderBuffer.isFull, decide_eq_false_iff_not, not_or] at hfull
  rcases h.indices with ⟨hhead, htail⟩ | ⟨h0, hlt, t0, tn⟩ | ⟨hzero, -, -⟩
  · rw [hhead, size_empty]
    omega
  · rw [size]
    split_ifs <;> omega
  · exact absurd hzero hsize

theorem decode_spec (h : s.Ordered) (hstep : s.performDecode instruction threadID = .ok t) :
    s.Decodes t (s.rob.addInstructionToROB instruction threadID).2 instruction threadID := by
  rw [performDecode] at hstep
  split_ifs at hstep with hfull hsize
  obtain rfl := Except.ok.inj hstep
  have hroom := size_lt_of_isFull h (by simpa using hfull) hsize
  exact ⟨rfl, h.indices.push (by omega), rfl, h.indices.occupied_push hroom,
    Function.update_self _ _ _, fun i hi => Function.update_of_ne hi _ _⟩

theorem Decodes.not_mem (h : s.Decodes t pos instruction threadID) : pos ∉ s.rob.window := by
  have hnodup : t.rob.window.Nodup := h.indices.occupied_nodup
  rw [h.window] at hnodup
  intro hmem
  exact (List.nodup_append.mp hnodup).2.2 pos hmem pos (List.mem_singleton_self _) rfl

theorem commit_spec (h : s.Ordered) (hstep : s.performCommits = .ok t) :
    ∃ pos, s.Commits t pos := by
  rw [performCommits] at hstep
  split_ifs at hstep with hhead hdone
  obtain rfl := Except.ok.inj hstep
  have hsize : 0 < size s.rob.MaxROBSize s.rob.head s.rob.tail := by
    rw [Nat.pos_iff_ne_zero]
    intro hzero
    rcases Nat.eq_zero_or_pos s.rob.MaxROBSize with hmax | hmax
    · exact hhead (h.nonempty hmax)
    · exact hhead ((h.indices.size_eq_zero_iff hmax).mp hzero)
  exact ⟨s.rob.head.toNat, rfl, h.indices.pop hsize, rfl, h.indices.occupied_pop hsize, hdone,
    fun i hi => Function.update_of_ne hi _ _⟩

/-- An advance keeps the order when the stages, the rename buffer and the events of the
entry at `pos` are in order. -/
theorem Progress.ordered (hp : s.Progress t pos blind l m) (h : s.Ordered)
    (hrenamed : (s.entry pos).isRenameDone = true)
    (hexecuted : (t.entry pos).isExecuted = true → (t.entry pos).isIssued = true)
    (hwritten : (t.entry pos).isWriteBackDone = true → (t.entry pos).isExecuted = true)
    (hwaiting : ∀ i ∈ t.renameBuffer, i ∈ s.renameBuffer ∧ (i = pos →
      (t.entry pos).isIssued = false ∧ (t.entry pos).associatedIWEntry = false))
    (hnodup : t.renameBuffer.Nodup) (hevents : t.eventQueue.Nodup)
    (hbroadCast : ∀ i, .broadCast i ∈ t.eventQueue → .execComplete i ∈ t.eventQueue)
    (hexec : ∀ i, .execComplete i ∈ t.eventQueue → (i ≠ pos → .execComplete i ∈ s.eventQueue) ∧
      (i = pos → pos ∈ s.rob.window ∧ (t.entry pos).isIssued = true ∧
        (t.entry pos).isExecuted = false ∧
        OperationType.issueKind (s.entry pos).instruction.operationType = .unit)) :
    t.Ordered := by
  have hunrenamed : ∀ i ∈ s.decodeBuffer, (s.entry i).isRenameDone = false := by
    intro i hi
    obtain ⟨instruction, threadID, heq⟩ := h.fresh i hi
    rw [heq]
    rfl
  refine ⟨?_, ?_, fun i hi => ?_, ?_, fun i hi => ?_, fun i hi => ?_, fun i hi => ?_,
    fun i hi => ?_, hnodup, hevents, hbroadCast, fun i hi => ?_⟩
  · rw [hp.ring]
    exact h.indices
  · rw [hp.ring]
    exact h.nonempty
  · rw [hp.window] at hi
    rw [hp.isValid, h.isValid i hi]
  · obtain ⟨front, hwindow, hfront⟩ := h.front
    refine ⟨front, by rw [hp.window, hp.decodeBuffer, hwindow], fun i hi => ?_⟩
    obtain ⟨hren, hcomplete, hcoherent⟩ := hfront i hi
    exact ⟨by rw [(hp.names i).isRenameDone, hren], (hp.names i).complete hcomplete,
      hp.coherent i hcoherent⟩
  · rw [hp.decodeBuffer] at hi
    have hne : i ≠ pos := by
      rintro rfl
      exact absurd (hrenamed.symm.trans (hunrenamed i hi)) (by decide)
    rw [hp.untouched i hne (hunrenamed i hi)]
    exact h.fresh i hi
  · rw [hp.window] at hi
    by_cases hpos : i = pos
    · rw [hpos]
      exact hexecuted
    · rw [(hp.stage i hpos).isExecuted, (hp.stage i hpos).isIssued]
      exact h.isExecuted i hi
  · rw [hp.window] at hi
    by_cases hpos : i = pos
    · rw [hpos]
      exact hwritten
    · rw [(hp.stage i hpos).isWriteBackDone, (hp.stage i hpos).isExecuted]
      exact h.isWriteBackDone i hi
  · obtain ⟨hbuffer, hself⟩ := hwaiting i hi
    obtain ⟨hmem, hren, hissued, hassociated⟩ := h.waiting i hbuffer
    rw [hp.window, (hp.names i).isRenameDone]
    refine ⟨hmem, hren, ?_⟩
    by_cases hpos : i = pos
    · rw [hpos]
      exact hself hpos
    · rw [(hp.stage i hpos).isIssued, (hp.stage i hpos).associatedIWEntry]
      exact ⟨hissued, hassociated⟩
  · obtain ⟨hother, hself⟩ := hexec i hi
    rw [hp.window, (hp.names i).instruction]
    by_cases hpos : i = pos
    · rw [hpos]
      exact hself hpos
    · rw [(hp.stage i hpos).isIssued, (hp.stage i hpos).isExecuted]
      exact h.execComplete_event i (hother hpos)

theorem results_eq_nil {e : ReorderBufferEntry} (h : e.instruction.destinations = []) :
    e.results = [] := by
  have hwrites := e.writes_fst
  rw [h, List.map_eq_nil_iff] at hwrites
  rw [ReorderBufferEntry.results, hwrites]
  rfl

/-- A change of stage without an announcement is an advance. -/
theorem advances_of_staged (h : s.Ordered) (ha : s.Accounted) (hmem : pos ∈ s.rob.window)
    (hrenamed : (s.entry pos).isRenameDone = true)
    {isIssued isExecuted isWriteBackDone associatedIWEntry : Bool}
    {renameBuffer : List ℕ} {eventQueue : List ExecutionEvent}
    (ht : t = { s.setEntry pos ((s.entry pos).staged isIssued isExecuted isWriteBackDone
      associatedIWEntry) with renameBuffer := renameBuffer, eventQueue := eventQueue })
    (hissued : (s.entry pos).isIssued = true → isIssued = true)
    (hresults : isExecuted = (s.entry pos).isExecuted ∧
      isWriteBackDone = (s.entry pos).isWriteBackDone ∨
      (s.entry pos).results = [] ∧ isExecuted = true ∧ isWriteBackDone = true)
    (hexecuted : isExecuted = true → isIssued = true)
    (hwaiting : ∀ i ∈ renameBuffer, i ∈ s.renameBuffer ∧ (i = pos →
      isIssued = false ∧ associatedIWEntry = false))
    (hnodup : renameBuffer.Nodup) (hevents : eventQueue.Nodup)
    (hbroadCast : ∀ i, .broadCast i ∈ eventQueue → .execComplete i ∈ eventQueue)
    (hexec : ∀ i, .execComplete i ∈ eventQueue → (i ≠ pos → .execComplete i ∈ s.eventQueue) ∧
      (i = pos → pos ∈ s.rob.window ∧ isIssued = true ∧ isExecuted = false ∧
        OperationType.issueKind (s.entry pos).instruction.operationType = .unit))
    (hkept : ∀ i, (s.entry i).isIssued = true → .broadCast i ∉ s.eventQueue →
      .broadCast i ∉ eventQueue) :
    s.Advances t pos blind [] [] ∧ t.Ordered := by
  obtain ⟨hp, rfl, rfl, rfl, rfl, rfl, rfl⟩ := progress_of_stages ht .rfl (.nil fun type => by
    rw [ht]
    exact ha.valid type)
  refine ⟨⟨hp, hmem, hrenamed, fun r hr => absurd hr List.not_mem_nil, fun hdone => ?_,
    fun r hr => absurd hr List.not_mem_nil, fun hdone => ?_, hissued, fun hdone => ?_,
    fun hdone => ?_, hkept⟩, ?_⟩
  · rcases hresults with ⟨hsame, -⟩ | ⟨hnil, -⟩
    · exact .inl (hsame ▸ hdone)
    · exact .inr fun r hr => by rwa [hnil] at hr
  · rcases hresults with ⟨-, hsame⟩ | ⟨hnil, -⟩
    · exact .inl (hsame ▸ hdone)
    · exact .inr fun r hr => by rwa [hnil] at hr
  · rcases hresults with ⟨hsame, -⟩ | ⟨-, htrue, -⟩
    · rw [hsame, hdone]
    · exact htrue
  · rcases hresults with ⟨-, hsame⟩ | ⟨-, -, htrue⟩
    · rw [hsame, hdone]
    · exact htrue
  · refine hp.ordered h hrenamed hexecuted (fun hdone => ?_) hwaiting hnodup hevents hbroadCast
      hexec
    rcases hresults with ⟨hsame, hsame'⟩ | ⟨-, htrue, -⟩
    · rw [hsame]
      exact h.isWriteBackDone pos hmem (hsame' ▸ hdone)
    · exact htrue

theorem iwPush_spec (h : s.Ordered) (ha : s.Accounted) (hstep : s.performIWPush = .ok t) :
    ∃ pos l m, s.Advances t pos (fun _ => False) l m ∧ t.Ordered := by
  rw [performIWPush.eq_def] at hstep
  split at hstep
  · cases hstep
  rename_i pos rest hbuffer
  have hfirst : pos ∈ s.renameBuffer := by
    rw [hbuffer]
    exact List.mem_cons_self
  obtain ⟨hmem, hrenamed, hissued, -⟩ := h.waiting pos hfirst
  have hrest := h.renameBuffer_nodup
  rw [hbuffer] at hrest
  obtain ⟨hnot, hrest⟩ := List.nodup_cons.mp hrest
  have hwaiting : ∀ (p : Prop), ∀ i ∈ rest, i ∈ s.renameBuffer ∧ (i = pos → p) := by
    intro p i hi
    refine ⟨by rw [hbuffer]; exact List.mem_cons_of_mem _ hi, ?_⟩
    rintro rfl
    exact absurd hi hnot
  have hevent : ∀ (p : Prop) i, .execComplete i ∈ s.eventQueue →
      (i ≠ pos → .execComplete i ∈ s.eventQueue) ∧ (i = pos → p) := by
    refine fun p i hi => ⟨fun _ => hi, ?_⟩
    rintro rfl
    have hcontra := (h.execComplete_event i hi).2.1
    rw [hissued] at hcontra
    cases hcontra
  simp only at hstep
  split_ifs at hstep with hnop
  · refine ⟨pos, [], [], advances_of_staged h ha hmem hrenamed (Except.ok.inj hstep).symm
      (fun _ => rfl) (.inr ⟨?_, rfl, rfl⟩) (fun _ => rfl) (hwaiting _) hrest h.eventQueue_nodup
      h.broadCast_event (hevent _) (fun _ _ hb => hb)⟩
    exact results_eq_nil (Instruction.destinations_eq_nil (by tauto)).1
  · exact ⟨pos, [], [], advances_of_staged h ha hmem hrenamed (Except.ok.inj hstep).symm
      (fun hdone => hdone) (.inl ⟨rfl, rfl⟩) (h.isExecuted pos hmem) (hwaiting _) hrest
      h.eventQueue_nodup h.broadCast_event (hevent _) (fun _ _ hb => hb)⟩

theorem issue_spec (h : s.Ordered) (ha : s.Accounted)
    (hstep : s.issueInstruction pos = .ok t) :
    ∃ l m, s.Advances t pos (fun _ => False) l m ∧ t.Ordered := by
  rw [issueInstruction.eq_def] at hstep
  simp only at hstep
  split_ifs at hstep with hready hrename havailable
  obtain ⟨hmem, hissued, hassociated⟩ := hready
  rw [not_or, Bool.not_eq_false, Bool.not_eq_true] at hrename
  obtain ⟨hrenamed, hexecuted⟩ := hrename
  have hwaiting : ∀ (p : Prop), ∀ i ∈ s.renameBuffer, i ∈ s.renameBuffer ∧ (i = pos → p) := by
    refine fun p i hi => ⟨hi, ?_⟩
    rintro rfl
    obtain ⟨-, -, -, hnot⟩ := h.waiting i hi
    rw [hassociated] at hnot
    cases hnot
  have hnew : .execComplete pos ∉ s.eventQueue := by
    intro hi
    have hcontra := (h.execComplete_event pos hi).2.1
    rw [hissued] at hcontra
    cases hcontra
  have hnew' : .broadCast pos ∉ s.eventQueue := fun hi => hnew (h.broadCast_event pos hi)
  have hevent : ∀ (p : Prop) i, .execComplete i ∈ s.eventQueue →
      (i ≠ pos → .execComplete i ∈ s.eventQueue) ∧ (i = pos → p) := by
    refine fun p i hi => ⟨fun _ => hi, ?_⟩
    rintro rfl
    exact absurd hi hnew
  have hstarted : Except.ok (s.setEntry pos ((s.entry pos).staged true (s.entry pos).isExecuted
        (s.entry pos).isWriteBackDone (s.entry pos).associatedIWEntry)) =
        (.ok t : Except PipelineExit Pipeline) →
      ∃ l m, s.Advances t pos (fun _ => False) l m ∧ t.Ordered := by
    intro hok
    exact ⟨[], [], advances_of_staged h ha hmem hrenamed (Except.ok.inj hok).symm
      (fun _ => rfl) (.inl ⟨rfl, rfl⟩) (fun _ => rfl) (hwaiting _) h.renameBuffer_nodup
      h.eventQueue_nodup h.broadCast_event (hevent _) (fun _ _ hb => hb)⟩
  split at hstep
  · exact hstarted hstep
  · exact hstarted hstep
  · rename_i hkind
    refine ⟨[], [], advances_of_staged h ha hmem hrenamed (Except.ok.inj hstep).symm
      (fun _ => rfl) (.inr ⟨results_eq_nil ?_, rfl, rfl⟩) (fun _ => rfl) (hwaiting _)
      h.renameBuffer_nodup h.eventQueue_nodup h.broadCast_event (hevent _) (fun _ _ hb => hb)⟩
    have htype : (s.entry pos).instruction.operationType = .store ∨
        (s.entry pos).instruction.operationType = .mfence := by
      revert hkind
      cases (s.entry pos).instruction.operationType <;> decide
    exact (Instruction.destinations_eq_nil (by tauto)).1
  · rename_i hkind
    have hmem' : ∀ e : ExecutionEvent, e ∈ s.eventQueue ++ [.broadCast pos, .execComplete pos] ↔
        e ∈ s.eventQueue ∨ e = .broadCast pos ∨ e = .execComplete pos := by
      intro e
      simp
    refine ⟨[], [], advances_of_staged h ha hmem hrenamed (Except.ok.inj hstep).symm
      (fun _ => rfl) (.inl ⟨rfl, rfl⟩) (fun _ => rfl) (hwaiting _) h.renameBuffer_nodup ?_
      (fun i hi => ?_) (fun i hi => ⟨fun hne => ?_, fun _ => ?_⟩) (fun i hi hnot => ?_)⟩
    · refine List.nodup_append.mpr ⟨h.eventQueue_nodup, by simp, ?_⟩
      rintro e he e' he' rfl
      rcases List.mem_cons.mp he' with rfl | he'
      · exact hnew' he
      · rw [List.mem_singleton.mp he'] at he
        exact hnew he
    · rw [hmem'] at hi ⊢
      rcases hi with hi | hi | hi
      · exact .inl (h.broadCast_event i hi)
      · obtain rfl := ExecutionEvent.broadCast.inj hi
        exact .inr (.inr rfl)
      · cases hi
    · rcases (hmem' _).mp hi with hi | hi | hi
      · exact hi
      · cases hi
      · exact absurd (ExecutionEvent.execComplete.inj hi) hne
    · exact ⟨hmem, rfl, hexecuted, hkind⟩
    · rw [hmem']
      rintro (hold | heq | heq)
      · exact hnot hold
      · rw [ExecutionEvent.broadCast.inj heq, hissued] at hi
        cases hi
      · cases heq

/-- An announcement of all results of an issued instruction is an advance. -/
theorem advances_of_announced (h : s.Ordered) (ha : s.Accounted) (hmem : pos ∈ s.rob.window)
    (hissued : (s.entry pos).isIssued = true) (hunfinished : (s.entry pos).isExecuted = false)
    {u : Pipeline} {isExecuted : Bool} {eventQueue : List ExecutionEvent}
    (hu : u = { s.setEntry pos ((s.entry pos).staged true isExecuted
        (s.entry pos).isWriteBackDone (s.entry pos).associatedIWEntry) with
      renameBuffer := s.renameBuffer, eventQueue := eventQueue })
    (hannounced : u.Announced t pos (s.BlindTo pos) l)
    (hl : ∀ r, r ∈ l ↔ r ∈ (s.entry pos).results)
    (hevents : eventQueue.Nodup) (hsub : ∀ e ∈ eventQueue, e ∈ s.eventQueue)
    (hbroadCast : ∀ i, .broadCast i ∈ eventQueue → .execComplete i ∈ eventQueue)
    (hexec : isExecuted = true → .execComplete pos ∉ eventQueue)
    (hdone : isExecuted = true ∨
      OperationType.issueKind (s.entry pos).instruction.operationType = .unit ∧
        .broadCast pos ∉ eventQueue) :
    s.Advances t pos (s.BlindTo pos) l [] ∧ t.Ordered := by
  have hrenamed := h.isRenameDone_of_issued hmem hissued
  have hunwritten : (s.entry pos).isWriteBackDone = false := by
    rw [← Bool.not_eq_true]
    intro hwritten
    rw [h.isWriteBackDone pos hmem hwritten] at hunfinished
    cases hunfinished
  obtain ⟨hp, hbuffer, hqueue, hissued', hexecuted', hwritten', hassociated'⟩ :=
    progress_of_stages hu hannounced (.nil (hannounced.valid fun type => by
      rw [hu]
      exact ha.valid type))
  refine ⟨⟨hp, hmem, hrenamed, fun r hr => ⟨(hl r).mp hr, hunwritten, ?_⟩,
    fun _ => .inr fun r hr => (hl r).mpr hr, fun r hr => absurd hr List.not_mem_nil,
    fun hwritten => ?_, fun _ => hissued', fun hdone => ?_, fun hdone => ?_,
    fun i _ hnot hnew => ?_⟩, ?_⟩
  · rcases hdone with hdone | ⟨hkind, hnot⟩
    · exact .inl (hexecuted'.trans hdone)
    · refine .inr ⟨hissued', ?_, by rwa [hqueue]⟩
      rw [(hp.names pos).instruction, hkind]
  · rw [hwritten', hunwritten] at hwritten
    cases hwritten
  · rw [hunfinished] at hdone
    cases hdone
  · rw [hunwritten] at hdone
    cases hdone
  · rw [hqueue] at hnew
    exact hnot (hsub _ hnew)
  · refine hp.ordered h hrenamed (fun _ => hissued') (fun hwritten => ?_) (fun i hi => ?_)
      (by rw [hbuffer]; exact h.renameBuffer_nodup) (by rwa [hqueue]) (by rwa [hqueue])
      (fun i hi => ?_)
    · rw [hwritten', hunwritten] at hwritten
      cases hwritten
    · rw [hbuffer] at hi
      refine ⟨hi, ?_⟩
      rintro rfl
      obtain ⟨-, -, hnot, -⟩ := h.waiting i hi
      rw [hissued] at hnot
      cases hnot
    · rw [hqueue] at hi
      refine ⟨fun _ => hsub _ hi, ?_⟩
      rintro rfl
      refine ⟨hmem, hissued', ?_, (h.execComplete_event i (hsub _ hi)).2.2.2⟩
      rw [hexecuted', ← Bool.not_eq_true]
      exact fun htrue => hexec htrue hi

/-- A broadcast announces the results, and the unit still has to complete. -/
theorem broadCast_spec (h : s.Ordered) (ha : s.Accounted) (hevent : .broadCast pos ∈ s.eventQueue)
    (hstep : performBroadCast { s with eventQueue := s.eventQueue.erase (.broadCast pos) } pos =
      .ok t) : ∃ l m, s.Advances t pos (s.BlindTo pos) l m ∧ t.Ordered := by
  obtain ⟨hmem, hissued, hunfinished, hkind⟩ :=
    h.execComplete_event pos (h.broadCast_event pos hevent)
  have hcomplete := h.complete hmem (h.isRenameDone_of_issued hmem hissued)
  obtain ⟨l, hl, hannounced⟩ := performBroadCast_spec
    (s := { s with eventQueue := s.eventQueue.erase (.broadCast pos) }) (h.size_pos hmem)
    hcomplete hstep
  have hu : { s with eventQueue := s.eventQueue.erase (.broadCast pos) } =
      { s.setEntry pos ((s.entry pos).staged true (s.entry pos).isExecuted
        (s.entry pos).isWriteBackDone (s.entry pos).associatedIWEntry) with
        renameBuffer := s.renameBuffer
        eventQueue := s.eventQueue.erase (.broadCast pos) } := by
    have hself : (s.entry pos).staged true (s.entry pos).isExecuted
        (s.entry pos).isWriteBackDone (s.entry pos).associatedIWEntry = s.entry pos := by
      rw [← hissued]
      rfl
    rw [hself]
    simp [setEntry, ReorderBuffer.setEntry, entry, Function.update_eq_self]
  refine ⟨l, [], advances_of_announced h ha hmem hissued hunfinished hu hannounced hl
    (h.eventQueue_nodup.erase _) (fun e he => List.mem_of_mem_erase he) (fun i hi => ?_)
    (fun htrue => absurd (hunfinished.symm.trans htrue) (by decide))
    (.inr ⟨hkind, h.eventQueue_nodup.not_mem_erase⟩)⟩
  have hold := h.broadCast_event i (List.mem_of_mem_erase hi)
  exact (List.mem_erase_of_ne (by simp)).mpr hold

/-- Another stage of the producer makes no entry blind. -/
theorem BlindTo.of_staged {u : Pipeline}
    {isIssued isExecuted isWriteBackDone associatedIWEntry : Bool}
    {eventQueue : List ExecutionEvent}
    (hu : u = { s.setEntry pos ((s.entry pos).staged isIssued isExecuted isWriteBackDone
      associatedIWEntry) with eventQueue := eventQueue })
    (hblind : u.BlindTo pos i) : s.BlindTo pos i := by
  have hother : ∀ i, i ≠ pos → u.entry i = s.entry i := by
    intro i hi
    rw [hu]
    exact Function.update_of_ne hi _ _
  have hself : u.entry pos = (s.entry pos).staged isIssued isExecuted isWriteBackDone
      associatedIWEntry := by
    rw [hu]
    exact Function.update_self _ _ _
  obtain ⟨d, hd, hblind⟩ := hblind
  rw [hself] at hd hblind
  refine ⟨d, hd, ?_⟩
  by_cases hi : i = pos
  · subst hi
    rw [hself] at hblind
    exact hblind
  · rw [hother i hi] at hblind
    exact hblind

/-- The completion of an execution announces the results. -/
theorem completion_spec (h : s.Ordered) (ha : s.Accounted) (hmem : pos ∈ s.rob.window)
    {eventQueue : List ExecutionEvent} (hevents : eventQueue.Nodup)
    (hsub : ∀ e ∈ eventQueue, e ∈ s.eventQueue)
    (hbroadCast : ∀ i, .broadCast i ∈ eventQueue → .execComplete i ∈ eventQueue)
    (hnot : .execComplete pos ∉ eventQueue)
    (hstep : handleExecutionCompletion { s with eventQueue := eventQueue } pos = .ok t) :
    ∃ l m, s.Advances t pos (s.BlindTo pos) l m ∧ t.Ordered := by
  have hentry : entry { s with eventQueue := eventQueue } pos = s.entry pos := rfl
  rw [handleExecutionCompletion.eq_def] at hstep
  simp only [hentry] at hstep
  split_ifs at hstep with hstuck hannounce
  · rw [not_or, not_or, Bool.not_eq_true, Bool.not_eq_false, Bool.not_eq_false] at hstuck
    obtain ⟨hunfinished, hrenamed, hissued⟩ := hstuck
    obtain ⟨u, hu⟩ : ∃ u : Pipeline, u = { s.setEntry pos ((s.entry pos).staged true true
        (s.entry pos).isWriteBackDone (s.entry pos).associatedIWEntry) with
      renameBuffer := s.renameBuffer, eventQueue := eventQueue } := ⟨_, rfl⟩
    have hself : u.entry pos = (s.entry pos).staged true true
        (s.entry pos).isWriteBackDone (s.entry pos).associatedIWEntry := by
      rw [hu]
      exact Function.update_self _ _ _
    have hstep' : u.performBroadCast pos = .ok t := by
      rw [hu, ← hstep, ← hissued]
      rfl
    obtain ⟨l, hl, hannounced⟩ := performBroadCast_spec (s := u)
      (by rw [hu]; exact h.size_pos hmem)
      (by
        rw [hself]
        exact ⟨(h.complete hmem hrenamed).allocated, (h.complete hmem hrenamed).exchange⟩)
      hstep'
    refine ⟨l, [], advances_of_announced h ha hmem hissued hunfinished hu
      (hannounced.blind_mono fun i hblind => hblind.of_staged hu) (fun r => ?_) hevents hsub
      hbroadCast (fun _ => hnot) (.inl rfl)⟩
    rw [hl, hself]
    rfl
  · rw [not_or, Option.not_isSome_iff_eq_none] at hannounce
    obtain ⟨hd, hx⟩ := hannounce
    rw [not_or, not_or, Bool.not_eq_true, Bool.not_eq_false, Bool.not_eq_false] at hstuck
    obtain ⟨hunfinished, hrenamed, hissued⟩ := hstuck
    have hresults : (s.entry pos).results = [] := by
      rw [ReorderBufferEntry.results, ReorderBufferEntry.writes_of_ne hx, hd]
      rfl
    refine ⟨[], [], advances_of_staged h ha hmem hrenamed (Except.ok.inj hstep).symm
      (fun hdone => hdone) (.inr ⟨hresults, rfl, rfl⟩) (fun _ => hissued)
      (fun i hi => ⟨hi, ?_⟩) h.renameBuffer_nodup hevents hbroadCast
      (fun i hi => ⟨fun _ => hsub _ hi, ?_⟩) (fun i _ hold hnew => hold (hsub _ hnew))⟩
    · rintro rfl
      obtain ⟨-, -, hunissued, -⟩ := h.waiting i hi
      exact absurd (hissued.symm.trans hunissued) (by decide)
    · rintro rfl
      exact absurd hi hnot

theorem execComplete_spec (h : s.Ordered) (ha : s.Accounted)
    (hstep : s.next (.execComplete pos) = .ok t) :
    ∃ l m, s.Advances t pos (s.BlindTo pos) l m ∧ t.Ordered := by
  rw [next] at hstep
  split_ifs at hstep with hevent hload
  · obtain ⟨hexec, hnone⟩ := hevent
    refine completion_spec h ha (h.execComplete_event pos hexec).1 (h.eventQueue_nodup.erase _)
      (fun e he => List.mem_of_mem_erase he) (fun i hi => ?_)
      h.eventQueue_nodup.not_mem_erase hstep
    have hold := List.mem_of_mem_erase hi
    refine (List.mem_erase_of_ne ?_).mpr (h.broadCast_event i hold)
    intro heq
    rw [ExecutionEvent.execComplete.inj heq] at hold
    exact hnone hold
  · obtain ⟨hmem, hop, -, -⟩ := hload
    refine completion_spec h ha hmem h.eventQueue_nodup (fun e he => he) h.broadCast_event
      (fun hi => ?_) hstep
    have hkind := (h.execComplete_event pos hi).2.2.2
    rw [hop] at hkind
    cases hkind

/-- The entry would be woken blindly at the write-back of a load. -/
def BlindAtWriteBack (s : Pipeline) (pos i : ℕ) : Prop :=
  (s.entry pos).instruction.operationType = .load ∧ s.BlindTo pos i

/-- A load announces its result at its write-back, the other instructions do not. -/
theorem wakeUpAtWriteBack_spec (hmax : 0 < s.rob.MaxROBSize)
    (hstep : s.wakeUpAtWriteBack pos = .ok t) :
    ∃ l, (∀ r ∈ l, r ∈ (s.entry pos).results) ∧
      s.Announced t pos (s.BlindAtWriteBack pos) l := by
  rw [wakeUpAtWriteBack.eq_def] at hstep
  simp only at hstep
  split_ifs at hstep with hload
  · split at hstep
    · rename_i d hd
      obtain ⟨l, hl, hannounced⟩ := wakeUpLogic_spec hmax hstep
      refine ⟨l, fun r hr => ?_, hannounced.blind_mono fun i hblind => ⟨hload, d, hd, hblind⟩⟩
      exact (mem_results_of_destination hd).mpr ((hl _ _).mp hr)
    · cases hstep
  · obtain rfl := Except.ok.inj hstep
    exact ⟨[], fun r hr => absurd hr List.not_mem_nil, .rfl⟩

/-- The results of an instruction that is not written back are pending. -/
theorem Accounted.pending_of_results (h : s.Accounted) (hmem : pos ∈ s.rob.window)
    (hunwritten : (s.entry pos).isWriteBackDone = false)
    (hr : (type, q) ∈ (s.entry pos).results) : (s.tables type).Pending q :=
  ⟨h.inRange pos hmem type q hr, (h.pending type q).mpr ⟨pos, hmem, hunwritten, hr⟩⟩

/-- What comes after the announcement at the write-back always succeeds. -/
theorem writeBack_settles (h : s.Ordered) (ha : s.Accounted) (hmem : pos ∈ s.rob.window)
    (hexecuted : (s.entry pos).isExecuted = true)
    (hunwritten : (s.entry pos).isWriteBackDone = false) {u v : Pipeline}
    (hu : u = { s.setEntry pos ((s.entry pos).staged (s.entry pos).isIssued
        (s.entry pos).isExecuted true (s.entry pos).associatedIWEntry) with
      renameBuffer := s.renameBuffer, eventQueue := s.eventQueue })
    (hannounced : u.Announced v pos blind l) :
    ∃ t m, v.writeResults pos = .ok t ∧ v.Settled t m ∧
      ∀ r, r ∈ m ↔ r ∈ (s.entry pos).results := by
  have hself : u.entry pos = (s.entry pos).staged (s.entry pos).isIssued
      (s.entry pos).isExecuted true (s.entry pos).associatedIWEntry := by
    rw [hu]
    exact Function.update_self _ _ _
  have hrenamed := h.isRenameDone_of_issued hmem (h.isExecuted pos hmem hexecuted)
  have hcomplete : (u.entry pos).Complete := by
    rw [hself]
    exact ⟨(h.complete hmem hrenamed).allocated, (h.complete hmem hrenamed).exchange⟩
  have hresults : (v.entry pos).results = (s.entry pos).results := by
    rw [(hannounced.names pos).results, hself]
    rfl
  have hvalid : ∀ type, (u.tables type).Valid := by
    rw [hu]
    exact ha.valid
  have hspec := writeResults_spec (hannounced.valid hvalid)
    ((hannounced.names pos).complete hcomplete)
  rw [hresults] at hspec
  refine hspec (fun type q hr => ?_) (ha.nodup pos hmem)
  have hpending := ha.pending_of_results hmem hunwritten hr
  rw [hannounced.table type]
  rw [hu]
  exact hpending

theorem writeBack_spec (h : s.Ordered) (ha : s.Accounted)
    (hstep : s.performWriteBack pos = .ok t) :
    ∃ l m, s.Advances t pos (s.BlindAtWriteBack pos) l m ∧ t.Ordered ∧
      (t.entry pos).isWriteBackDone = true := by
  rw [performWriteBack.eq_def] at hstep
  simp only at hstep
  split_ifs at hstep with hready
  obtain ⟨hmem, hexecuted, hunwritten⟩ := hready
  have hissued := h.isExecuted pos hmem hexecuted
  have hrenamed := h.isRenameDone_of_issued hmem hissued
  obtain ⟨v, hwake, hwrite⟩ := Except.bind_ok hstep
  obtain ⟨u, hu⟩ : ∃ u : Pipeline, u = { s.setEntry pos ((s.entry pos).staged
      (s.entry pos).isIssued (s.entry pos).isExecuted true (s.entry pos).associatedIWEntry) with
    renameBuffer := s.renameBuffer, eventQueue := s.eventQueue } := ⟨_, rfl⟩
  have hself : u.entry pos = (s.entry pos).staged (s.entry pos).isIssued
      (s.entry pos).isExecuted true (s.entry pos).associatedIWEntry := by
    rw [hu]
    exact Function.update_self _ _ _
  have hwake' : u.wakeUpAtWriteBack pos = .ok v := by
    rw [hu]
    exact hwake
  obtain ⟨l, hl, hannounced⟩ := wakeUpAtWriteBack_spec (by rw [hu]; exact h.size_pos hmem) hwake'
  have hannounced' : u.Announced v pos (s.BlindAtWriteBack pos) l :=
    hannounced.blind_mono fun i hblind => ⟨by rw [← hblind.1, hself]; rfl, hblind.2.of_staged hu⟩
  obtain ⟨t', m, hwrite', hsettled, hm⟩ :=
    writeBack_settles h ha hmem hexecuted hunwritten hu hannounced'
  obtain rfl := Except.ok.inj (hwrite'.symm.trans hwrite)
  obtain ⟨hp, hbuffer, hqueue, hissued', hexecuted', hwritten', hassociated'⟩ :=
    progress_of_stages hu hannounced' hsettled
  refine ⟨l, m, ⟨hp, hmem, hrenamed, fun r hr => ⟨?_, hunwritten, ?_⟩, fun _ => .inl hexecuted,
    fun r hr => ⟨(hm r).mp hr, hunwritten, hwritten'⟩, fun _ => .inr fun r hr => (hm r).mpr hr,
    fun hdone => hissued'.trans hdone, fun hdone => hexecuted'.trans hdone, fun _ => hwritten',
    fun i _ hnot => by rwa [hqueue]⟩, ?_, hwritten'⟩
  · have hres := hl r hr
    rw [hself] at hres
    exact hres
  · exact .inl (hexecuted'.trans hexecuted)
  · refine hp.ordered h hrenamed (fun _ => hissued'.trans hissued)
      (fun _ => hexecuted'.trans hexecuted) (fun i hi => ?_)
      (by rw [hbuffer]; exact h.renameBuffer_nodup) (by rw [hqueue]; exact h.eventQueue_nodup)
      (by rw [hqueue]; exact h.broadCast_event) (fun i hi => ?_)
    · rw [hbuffer] at hi
      refine ⟨hi, ?_⟩
      rintro rfl
      obtain ⟨-, -, hnot, -⟩ := h.waiting i hi
      exact absurd (hissued.symm.trans hnot) (by decide)
    · rw [hqueue] at hi
      refine ⟨fun _ => hi, ?_⟩
      rintro rfl
      have hnot := (h.execComplete_event i hi).2.2.1
      exact absurd (hexecuted.symm.trans hnot) (by decide)

end Pipeline

end Tejas
