import Tejas.PipelineProgress

/-!
# The order of the pipeline

The reorder buffer holds the renamed instructions and behind them the decoded ones. The
stages of an instruction come in their order, and the events of its execution are in the
queue only while it executes. Every physical register without a value belongs to exactly
one instruction that has not been written back.
-/

namespace Tejas
open RingWindow RingIndices RegisterPool

namespace Pipeline

variable {s t : Pipeline} {pos i j q : ℕ} {type : RegisterType}
  {l m : List (RegisterType × ℕ)}

/-- The instructions are in order and at a stage that makes sense. -/
structure Ordered (s : Pipeline) : Prop where
  indices : Bounded s.rob.MaxROBSize s.rob.head s.rob.tail
  nonempty : s.rob.MaxROBSize = 0 → s.rob.head = -1
  isValid : ∀ i ∈ s.rob.window, (s.entry i).isValid = true
  front : ∃ front, s.rob.window = front ++ s.decodeBuffer ∧
    ∀ i ∈ front, (s.entry i).isRenameDone = true ∧ (s.entry i).Complete ∧ (s.entry i).Coherent
  fresh : ∀ i ∈ s.decodeBuffer, ∃ instruction threadID,
    s.entry i = .fresh instruction threadID
  isExecuted : ∀ i ∈ s.rob.window, (s.entry i).isExecuted = true → (s.entry i).isIssued = true
  isWriteBackDone : ∀ i ∈ s.rob.window, (s.entry i).isWriteBackDone = true →
    (s.entry i).isExecuted = true
  waiting : ∀ i ∈ s.renameBuffer, i ∈ s.rob.window ∧ (s.entry i).isRenameDone = true ∧
    (s.entry i).isIssued = false ∧ (s.entry i).associatedIWEntry = false
  renameBuffer_nodup : s.renameBuffer.Nodup
  eventQueue_nodup : s.eventQueue.Nodup
  broadCast_event : ∀ i, .broadCast i ∈ s.eventQueue → .execComplete i ∈ s.eventQueue
  execComplete_event : ∀ i, .execComplete i ∈ s.eventQueue → i ∈ s.rob.window ∧
    (s.entry i).isIssued = true ∧ (s.entry i).isExecuted = false ∧
    OperationType.issueKind (s.entry i).instruction.operationType = .unit

/-- The physical registers without a value are those of the instructions that have not
been written back. -/
structure Accounted (s : Pipeline) : Prop where
  valid : ∀ type, (s.tables type).Valid
  inRange : ∀ i ∈ s.rob.window, ∀ type q, (type, q) ∈ (s.entry i).results →
    q < (s.tables type).nPhyRegisters
  pending : ∀ type q, (s.tables type).registerFile q = false ↔ ∃ i ∈ s.rob.window,
    (s.entry i).isWriteBackDone = false ∧ (type, q) ∈ (s.entry i).results
  nodup : ∀ i ∈ s.rob.window, (s.entry i).results.Nodup
  separate : ∀ i ∈ s.rob.window, ∀ j ∈ s.rob.window,
    (s.entry i).isWriteBackDone = false → (s.entry j).isWriteBackDone = false →
    ∀ r, r ∈ (s.entry i).results → r ∈ (s.entry j).results → i = j

namespace Ordered

theorem window_nodup (h : s.Ordered) : s.rob.window.Nodup := h.indices.occupied_nodup

theorem size_pos (h : s.Ordered) (hi : i ∈ s.rob.window) : 0 < s.rob.MaxROBSize :=
  Nat.zero_lt_of_lt (h.indices.lt_of_mem_occupied hi)

/-- The renamed entries are in the front part. -/
theorem mem_front (h : s.Ordered) {front : List ℕ}
    (hwindow : s.rob.window = front ++ s.decodeBuffer)
    (hi : i ∈ s.rob.window) (hrenamed : (s.entry i).isRenameDone = true) : i ∈ front := by
  rw [hwindow] at hi
  rcases List.mem_append.mp hi with hi | hi
  · exact hi
  · obtain ⟨instruction, threadID, heq⟩ := h.fresh i hi
    rw [heq] at hrenamed
    cases hrenamed

theorem complete (h : s.Ordered) (hi : i ∈ s.rob.window)
    (hrenamed : (s.entry i).isRenameDone = true) : (s.entry i).Complete := by
  obtain ⟨front, hwindow, hfront⟩ := h.front
  exact (hfront i (h.mem_front hwindow hi hrenamed)).2.1

theorem coherent (h : s.Ordered) (hi : i ∈ s.rob.window)
    (hrenamed : (s.entry i).isRenameDone = true) : (s.entry i).Coherent := by
  obtain ⟨front, hwindow, hfront⟩ := h.front
  exact (hfront i (h.mem_front hwindow hi hrenamed)).2.2

/-- Only renamed instructions have results. -/
theorem isRenameDone_of_results (h : s.Ordered) (hi : i ∈ s.rob.window)
    {r : RegisterType × ℕ} (hr : r ∈ (s.entry i).results) : (s.entry i).isRenameDone = true := by
  obtain ⟨front, hwindow, hfront⟩ := h.front
  rw [hwindow] at hi
  rcases List.mem_append.mp hi with hi | hi
  · exact (hfront i hi).1
  · obtain ⟨instruction, threadID, heq⟩ := h.fresh i hi
    rw [heq, ReorderBufferEntry.results_fresh] at hr
    cases hr

theorem isRenameDone_of_issued (h : s.Ordered) (hi : i ∈ s.rob.window)
    (hissued : (s.entry i).isIssued = true) : (s.entry i).isRenameDone = true := by
  obtain ⟨front, hwindow, hfront⟩ := h.front
  rw [hwindow] at hi
  rcases List.mem_append.mp hi with hi | hi
  · exact (hfront i hi).1
  · obtain ⟨instruction, threadID, heq⟩ := h.fresh i hi
    rw [heq] at hissued
    cases hissued

/-- What comes before a renamed entry is renamed. -/
theorem isRenameDone_of_before (h : s.Ordered) {before after : List ℕ}
    (hwindow : s.rob.window = before ++ j :: after) (hrenamed : (s.entry j).isRenameDone = true)
    (hi : i ∈ before) : (s.entry i).isRenameDone = true := by
  obtain ⟨front, hsplit, hfront⟩ := h.front
  have hj : j ∈ s.rob.window := by rw [hwindow]; exact List.mem_append_right _ List.mem_cons_self
  have hjfront := h.mem_front hsplit hj hrenamed
  have hnodup := h.window_nodup
  rw [hsplit] at hwindow hnodup
  rcases List.append_eq_append_iff.mp hwindow with ⟨as, hbefore, hrest⟩ | ⟨bs, hfronteq, hrest⟩
  · have hdecode : j ∈ s.decodeBuffer := by
      rw [hrest]
      exact List.mem_append_right _ List.mem_cons_self
    exact absurd rfl ((List.nodup_append.mp hnodup).2.2 j hjfront j hdecode)
  · exact (hfront i (by rw [hfronteq]; exact List.mem_append_left _ hi)).1

/-- An instruction that has not been issued has not been written back. -/
theorem not_writtenBack (h : s.Ordered) (hi : i ∈ s.rob.window)
    (hissued : (s.entry i).isIssued = false) : (s.entry i).isWriteBackDone = false := by
  rw [← Bool.not_eq_true]
  intro hdone
  rw [h.isExecuted i hi (h.isWriteBackDone i hi hdone)] at hissued
  cases hissued

/-- Every younger instruction that waits hears an announcement. -/
theorem hears (h : s.Ordered) (ha : s.Accounted) {before between after : List ℕ}
    (hwindow : s.rob.window = before ++ pos :: (between ++ i :: after))
    (hpos : (s.entry pos).isWriteBackDone = false)
    (hl : ∀ r ∈ l, r ∈ (s.entry pos).results)
    (hrenamed : (s.entry i).isRenameDone = true) (hissued : (s.entry i).isIssued = false) :
    s.Hears pos l i before between after := by
  have hmem : ∀ k ∈ between ++ i :: after, k ∈ s.rob.window := by
    intro k hk
    rw [hwindow]
    exact List.mem_append_right _ (List.mem_cons_of_mem _ hk)
  have hposmem : pos ∈ s.rob.window := by
    rw [hwindow]
    exact List.mem_append_right _ List.mem_cons_self
  have hi := hmem i (List.mem_append_right _ List.mem_cons_self)
  have hnodup := h.window_nodup
  rw [hwindow] at hnodup
  have hbehind := (List.nodup_cons.mp (List.nodup_append.mp hnodup).2.1).1
  refine ⟨h.indices, hwindow, fun k hk => ?_, h.isValid i hi, hrenamed, hissued⟩
  have hkmem := hmem k (List.mem_append_left _ hk)
  have hsplit : s.rob.window = (before ++ pos :: between) ++ i :: after := by
    rw [hwindow, List.append_assoc, List.cons_append]
  have hkrenamed := h.isRenameDone_of_before hsplit hrenamed
    (List.mem_append_right _ (List.mem_cons_of_mem _ hk))
  refine ⟨h.isValid k hkmem, hkrenamed, h.complete hkmem hkrenamed, ?_⟩
  cases hkissued : (s.entry k).isIssued with
  | true => exact .inl rfl
  | false =>
    refine .inr fun r hr hkr => hbehind ?_
    have heq := ha.separate pos hposmem k hkmem hpos (h.not_writtenBack hkmem hkissued) r
      (hl r hr) hkr
    rw [heq]
    exact List.mem_append_left _ hk

end Ordered

end Pipeline

end Tejas
