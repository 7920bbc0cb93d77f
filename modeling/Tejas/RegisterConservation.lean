import Tejas.PipelineSteps

/-!
# Physical registers are conserved

Every reachable pipeline is in order and accounts for its physical registers: each one is
free, mapped, or belongs to an instruction that has not been written back.
-/

namespace Tejas
open LabelledRuns RingWindow RingIndices RegisterPool

namespace Pipeline

variable {s t : Pipeline} {pos i j q threadID : ℕ} {type : RegisterType} {rest : List ℕ}
  {l m : List (RegisterType × ℕ)} {e : ReorderBufferEntry} {instruction : Instruction}
  {allocated : List ((RegisterType × ℕ) × ℕ)} {blind : ℕ → Prop}

/-! ### The order is kept -/

theorem Decodes.ordered (hd : s.Decodes t pos instruction threadID) (h : s.Ordered) :
    t.Ordered := by
  have hnew := hd.not_mem
  have hne : ∀ i ∈ s.rob.window, i ≠ pos := fun i hi heq => hnew (heq ▸ hi)
  have hsame : ∀ i ∈ s.rob.window, t.entry i = s.entry i :=
    fun i hi => hd.entry_other i (hne i hi)
  have hwindow : ∀ i, i ∈ t.rob.window ↔ i ∈ s.rob.window ∨ i = pos := by
    intro i
    rw [hd.window]
    simp
  have hdecode : t.decodeBuffer = s.decodeBuffer ++ [pos] := by rw [hd.after]
  have hrename : t.renameBuffer = s.renameBuffer := by rw [hd.after]
  have hqueue : t.eventQueue = s.eventQueue := by rw [hd.after]
  obtain ⟨front, hsplit, hfront⟩ := h.front
  refine ⟨hd.indices, fun hsize => ?_, fun i hi => ?_, ⟨front, ?_, fun i hi => ?_⟩,
    fun i hi => ?_, fun i hi => ?_, fun i hi => ?_, fun i hi => ?_,
    by rw [hrename]; exact h.renameBuffer_nodup, by rw [hqueue]; exact h.eventQueue_nodup,
    by rw [hqueue]; exact h.broadCast_event, fun i hi => ?_⟩
  · rcases hd.indices with ⟨hhead, -⟩ | ⟨h0, hlt, -, -⟩ | ⟨-, hhead, htail⟩
    · exact hhead
    · omega
    · have hlength := congrArg List.length hd.window
      have hzero : RingIndices.size 0 0 (-1) = 0 := by decide
      rw [ReorderBuffer.window, length_occupied, hhead, htail, hsize, hzero,
        List.length_append, List.length_singleton] at hlength
      omega
  · rcases (hwindow i).mp hi with hi | rfl
    · rw [hsame i hi, h.isValid i hi]
    · rw [hd.entry_self]
      rfl
  · rw [hd.window, hdecode, hsplit, List.append_assoc]
  · rw [hsame i (by rw [hsplit]; exact List.mem_append_left _ hi)]
    exact hfront i hi
  · rw [hdecode] at hi
    rcases List.mem_append.mp hi with hi | hi
    · rw [hsame i (by rw [hsplit]; exact List.mem_append_right _ hi)]
      exact h.fresh i hi
    · rw [List.mem_singleton.mp hi]
      exact ⟨instruction, threadID, hd.entry_self⟩
  · rcases (hwindow i).mp hi with hi | rfl
    · rw [hsame i hi]
      exact h.isExecuted i hi
    · rw [hd.entry_self]
      exact fun hfalse => hfalse
  · rcases (hwindow i).mp hi with hi | rfl
    · rw [hsame i hi]
      exact h.isWriteBackDone i hi
    · rw [hd.entry_self]
      exact fun hfalse => hfalse
  · rw [hrename] at hi
    obtain ⟨hmem, hrest⟩ := h.waiting i hi
    rw [hsame i hmem]
    exact ⟨(hwindow i).mpr (.inl hmem), hrest⟩
  · rw [hqueue] at hi
    obtain ⟨hmem, hrest⟩ := h.execComplete_event i hi
    rw [hsame i hmem]
    exact ⟨(hwindow i).mpr (.inl hmem), hrest⟩

namespace Renames

theorem window (hr : s.Renames t pos rest e allocated) : t.rob.window = s.rob.window := by
  rw [hr.after]
  rfl

theorem entry_self (hr : s.Renames t pos rest e allocated) : t.entry pos = e := by
  rw [hr.after]
  exact Function.update_self _ _ _

theorem entry_other (hr : s.Renames t pos rest e allocated) (hi : i ≠ pos) :
    t.entry i = s.entry i := by
  rw [hr.after]
  exact Function.update_of_ne hi _ _

theorem results (hr : s.Renames t pos rest e allocated) :
    e.results = allocated.map resultOf := by
  rw [ReorderBufferEntry.results, hr.writes, List.filterMap_map]
  exact List.filterMap_eq_map' ▸ rfl

/-- The instruction that is renamed had not been touched since its decode. -/
theorem fresh (hr : s.Renames t pos rest e allocated) (h : s.Ordered) :
    ∃ instruction threadID, s.entry pos = .fresh instruction threadID := by
  refine h.fresh pos ?_
  rw [hr.decodeBuffer]
  exact List.mem_cons_self

/-- Before the rename come the renamed instructions, and behind it the decoded ones. -/
theorem split (hr : s.Renames t pos rest e allocated) (h : s.Ordered) :
    ∃ front, s.rob.window = front ++ pos :: rest ∧ pos ∉ front ∧ pos ∉ rest ∧
      ∀ i ∈ front, (s.entry i).isRenameDone = true ∧ (s.entry i).Complete ∧
        (s.entry i).Coherent := by
  obtain ⟨front, hsplit, hfront⟩ := h.front
  rw [hr.decodeBuffer] at hsplit
  have hnodup := h.window_nodup
  rw [hsplit, List.nodup_append, List.nodup_cons] at hnodup
  exact ⟨front, hsplit, fun hmem => hnodup.2.2 pos hmem pos List.mem_cons_self rfl,
    hnodup.2.1.1, hfront⟩

theorem mem (hr : s.Renames t pos rest e allocated) (h : s.Ordered) : pos ∈ s.rob.window := by
  obtain ⟨front, hsplit, -⟩ := hr.split h
  rw [hsplit]
  exact List.mem_append_right _ List.mem_cons_self

theorem ordered (hr : s.Renames t pos rest e allocated) (h : s.Ordered) : t.Ordered := by
  obtain ⟨front, hsplit, hposfront, hposrest, hfront⟩ := hr.split h
  obtain ⟨instruction, threadID, hfresh⟩ := hr.fresh h
  have hmem := hr.mem h
  have hissued : e.isIssued = false := by
    rw [hr.isIssued, hfresh]
    rfl
  have hexecuted : e.isExecuted = false := by
    rw [hr.isExecuted, hfresh]
    rfl
  have hwritten : e.isWriteBackDone = false := by
    rw [hr.isWriteBackDone, hfresh]
    rfl
  have hassociated : e.associatedIWEntry = false := by
    rw [hr.associatedIWEntry, hfresh]
    rfl
  have hdecode : t.decodeBuffer = rest := by rw [hr.after]
  have hrename : t.renameBuffer = s.renameBuffer ++ [pos] := by rw [hr.after]
  have hqueue : t.eventQueue = s.eventQueue := by rw [hr.after]
  have hring : t.rob = { s.rob with ROB := t.rob.ROB } := by rw [hr.after]; rfl
  have hnotwaiting : pos ∉ s.renameBuffer := by
    intro hi
    have hren := (h.waiting pos hi).2.1
    rw [hfresh] at hren
    cases hren
  refine ⟨by rw [hring]; exact h.indices, by rw [hring]; exact h.nonempty, fun i hi => ?_,
    ⟨front ++ [pos], ?_, fun i hi => ?_⟩, fun i hi => ?_, fun i hi => ?_, fun i hi => ?_,
    fun i hi => ?_, ?_, by rw [hqueue]; exact h.eventQueue_nodup,
    by rw [hqueue]; exact h.broadCast_event, fun i hi => ?_⟩
  · rw [hr.window] at hi
    by_cases hpos : i = pos
    · rw [hpos, hr.entry_self, hr.isValid, h.isValid pos hmem]
    · rw [hr.entry_other hpos, h.isValid i hi]
  · rw [hr.window, hdecode, hsplit, List.append_assoc, List.singleton_append]
  · rcases List.mem_append.mp hi with hi | hi
    · rw [hr.entry_other fun heq => hposfront (heq ▸ hi)]
      exact hfront i hi
    · rw [List.mem_singleton.mp hi, hr.entry_self]
      exact ⟨hr.isRenameDone, hr.complete, hr.coherent⟩
  · rw [hdecode] at hi
    rw [hr.entry_other fun heq => hposrest (heq ▸ hi)]
    refine h.fresh i ?_
    rw [hr.decodeBuffer]
    exact List.mem_cons_of_mem _ hi
  · rw [hr.window] at hi
    by_cases hpos : i = pos
    · rw [hpos, hr.entry_self, hexecuted, hissued]
      exact fun hfalse => hfalse
    · rw [hr.entry_other hpos]
      exact h.isExecuted i hi
  · rw [hr.window] at hi
    by_cases hpos : i = pos
    · rw [hpos, hr.entry_self, hexecuted, hwritten]
      exact fun hfalse => hfalse
    · rw [hr.entry_other hpos]
      exact h.isWriteBackDone i hi
  · rw [hrename] at hi
    rw [hr.window]
    rcases List.mem_append.mp hi with hi | hi
    · rw [hr.entry_other fun heq => hnotwaiting (heq ▸ hi)]
      exact h.waiting i hi
    · rw [List.mem_singleton.mp hi, hr.entry_self]
      exact ⟨hmem, hr.isRenameDone, hissued, hassociated⟩
  · rw [hrename]
    refine List.nodup_append.mpr ⟨h.renameBuffer_nodup, List.nodup_singleton pos, ?_⟩
    intro i hi k hk heq
    rw [List.mem_singleton.mp hk] at heq
    exact hnotwaiting (heq ▸ hi)
  · rw [hqueue] at hi
    obtain ⟨himem, hiissued, hrest⟩ := h.execComplete_event i hi
    have hpos : i ≠ pos := by
      rintro rfl
      rw [hfresh] at hiissued
      cases hiissued
    rw [hr.window, hr.entry_other hpos]
    exact ⟨himem, hiissued, hrest⟩

end Renames

theorem Commits.ordered (hc : s.Commits t pos) (h : s.Ordered) : t.Ordered := by
  have hnodup := h.window_nodup
  rw [hc.window, List.nodup_cons] at hnodup
  have hpos : pos ∈ s.rob.window := by
    rw [hc.window]
    exact List.mem_cons_self
  have hissued : (s.entry pos).isIssued = true :=
    h.isExecuted pos hpos (h.isWriteBackDone pos hpos hc.isWriteBackDone)
  have hsub : ∀ i ∈ t.rob.window, i ∈ s.rob.window ∧ i ≠ pos := by
    intro i hi
    refine ⟨by rw [hc.window]; exact List.mem_cons_of_mem _ hi, ?_⟩
    rintro rfl
    exact hnodup.1 hi
  have hback : ∀ i ∈ s.rob.window, i ≠ pos → i ∈ t.rob.window := by
    intro i hi hne
    rw [hc.window] at hi
    exact (List.mem_cons.mp hi).resolve_left hne
  have hsame : ∀ i ∈ t.rob.window, t.entry i = s.entry i :=
    fun i hi => hc.entry_other i (hsub i hi).2
  have hdecode : t.decodeBuffer = s.decodeBuffer := by rw [hc.after]
  have hrename : t.renameBuffer = s.renameBuffer := by rw [hc.after]
  have hqueue : t.eventQueue = s.eventQueue := by rw [hc.after]
  obtain ⟨front, hsplit, hfront⟩ := h.front
  obtain ⟨front', rfl⟩ : ∃ front', front = pos :: front' := by
    rw [hc.window] at hsplit
    cases front with
    | cons k front' =>
      rw [List.cons_append] at hsplit
      exact ⟨front', by rw [(List.cons.inj hsplit).1]⟩
    | nil =>
      obtain ⟨instruction, threadID, heq⟩ := h.fresh pos (by
        rw [List.nil_append] at hsplit
        rw [← hsplit]
        exact List.mem_cons_self)
      rw [heq] at hissued
      cases hissued
  rw [hc.window, List.cons_append] at hsplit
  have hsplit' := (List.cons.inj hsplit).2
  refine ⟨hc.indices, fun hsize => ?_, fun i hi => ?_,
    ⟨front', by rw [hsplit', hdecode], fun i hi => ?_⟩, fun i hi => ?_, fun i hi => ?_,
    fun i hi => ?_, fun i hi => ?_, by rw [hrename]; exact h.renameBuffer_nodup,
    by rw [hqueue]; exact h.eventQueue_nodup, by rw [hqueue]; exact h.broadCast_event,
    fun i hi => ?_⟩
  · have hmax := h.size_pos hpos
    rw [hc.size] at hsize
    omega
  · rw [hsame i hi]
    exact h.isValid i (hsub i hi).1
  · rw [hsame i (by rw [hsplit']; exact List.mem_append_left _ hi)]
    exact hfront i (List.mem_cons_of_mem _ hi)
  · rw [hdecode] at hi
    rw [hsame i (by rw [hsplit']; exact List.mem_append_right _ hi)]
    exact h.fresh i hi
  · rw [hsame i hi]
    exact h.isExecuted i (hsub i hi).1
  · rw [hsame i hi]
    exact h.isWriteBackDone i (hsub i hi).1
  · rw [hrename] at hi
    obtain ⟨hmem, hren, hunissued, hassociated⟩ := h.waiting i hi
    have hne : i ≠ pos := by
      rintro rfl
      exact absurd (hissued.symm.trans hunissued) (by decide)
    rw [hc.entry_other i hne]
    exact ⟨hback i hmem hne, hren, hunissued, hassociated⟩
  · rw [hqueue] at hi
    obtain ⟨hmem, hiss, hunfinished, hkind⟩ := h.execComplete_event i hi
    have hne : i ≠ pos := by
      rintro rfl
      exact absurd ((h.isWriteBackDone i hpos hc.isWriteBackDone).symm.trans hunfinished)
        (by decide)
    rw [hc.entry_other i hne]
    exact ⟨hback i hmem hne, hiss, hunfinished, hkind⟩

/-! ### The registers stay accounted for -/

theorem Decodes.accounted (hd : s.Decodes t pos instruction threadID) (ha : s.Accounted) :
    t.Accounted := by
  have hnew := hd.not_mem
  have htables : t.tables = s.tables := by rw [hd.after]
  have hresults : (t.entry pos).results = [] := by
    rw [hd.entry_self, ReorderBufferEntry.results_fresh]
  have hold : ∀ i ∈ t.rob.window, ∀ r, r ∈ (t.entry i).results →
      i ∈ s.rob.window ∧ t.entry i = s.entry i := by
    intro i hi r hr
    rw [hd.window] at hi
    rcases List.mem_append.mp hi with hi | hi
    · exact ⟨hi, hd.entry_other i fun heq => hnew (heq ▸ hi)⟩
    · rw [List.mem_singleton.mp hi, hresults] at hr
      cases hr
  refine ⟨by rw [htables]; exact ha.valid, fun i hi type q hq => ?_, fun type q => ?_,
    fun i hi => ?_, fun i hi j hj hui huj r hir hjr => ?_⟩
  · obtain ⟨hmem, heq⟩ := hold i hi _ hq
    rw [heq] at hq
    rw [htables]
    exact ha.inRange i hmem type q hq
  · rw [htables, ha.pending]
    constructor
    · rintro ⟨i, hi, hrest⟩
      refine ⟨i, by rw [hd.window]; exact List.mem_append_left _ hi, ?_⟩
      rw [hd.entry_other i fun heq => hnew (heq ▸ hi)]
      exact hrest
    · rintro ⟨i, hi, hunwritten, hq⟩
      obtain ⟨hmem, heq⟩ := hold i hi _ hq
      rw [heq] at hunwritten hq
      exact ⟨i, hmem, hunwritten, hq⟩
  · rw [hd.window] at hi
    rcases List.mem_append.mp hi with hi | hi
    · rw [hd.entry_other i fun heq => hnew (heq ▸ hi)]
      exact ha.nodup i hi
    · rw [List.mem_singleton.mp hi, hresults]
      exact List.nodup_nil
  · obtain ⟨hmemi, heqi⟩ := hold i hi r hir
    obtain ⟨hmemj, heqj⟩ := hold j hj r hjr
    rw [heqi] at hui hir
    rw [heqj] at huj hjr
    exact ha.separate i hmemi j hmemj hui huj r hir hjr

theorem Commits.accounted (hc : s.Commits t pos) (h : s.Ordered) (ha : s.Accounted) :
    t.Accounted := by
  have hnodup := h.window_nodup
  rw [hc.window, List.nodup_cons] at hnodup
  have htables : t.tables = s.tables := by rw [hc.after]
  have hsub : ∀ i ∈ t.rob.window, i ∈ s.rob.window ∧ t.entry i = s.entry i := by
    intro i hi
    refine ⟨by rw [hc.window]; exact List.mem_cons_of_mem _ hi, hc.entry_other i ?_⟩
    rintro rfl
    exact hnodup.1 hi
  refine ⟨by rw [htables]; exact ha.valid, fun i hi type q hq => ?_, fun type q => ?_,
    fun i hi => ?_, fun i hi j hj hui huj r hir hjr => ?_⟩
  · rw [(hsub i hi).2] at hq
    rw [htables]
    exact ha.inRange i (hsub i hi).1 type q hq
  · rw [htables, ha.pending]
    constructor
    · rintro ⟨i, hi, hunwritten, hq⟩
      have hne : i ≠ pos := by
        rintro rfl
        exact absurd (hc.isWriteBackDone.symm.trans hunwritten) (by decide)
      rw [hc.window] at hi
      refine ⟨i, (List.mem_cons.mp hi).resolve_left hne, ?_⟩
      rw [hc.entry_other i hne]
      exact ⟨hunwritten, hq⟩
    · rintro ⟨i, hi, hrest⟩
      rw [(hsub i hi).2] at hrest
      exact ⟨i, (hsub i hi).1, hrest⟩
  · rw [(hsub i hi).2]
    exact ha.nodup i (hsub i hi).1
  · rw [(hsub i hi).2] at hui hir
    rw [(hsub j hj).2] at huj hjr
    exact ha.separate i (hsub i hi).1 j (hsub j hj).1 hui huj r hir hjr

theorem Renames.accounted (hr : s.Renames t pos rest e allocated) (h : s.Ordered)
    (ha : s.Accounted) : t.Accounted := by
  obtain ⟨instruction, threadID, hfresh⟩ := hr.fresh h
  have hmem := hr.mem h
  obtain ⟨hnodup, hfree⟩ := hr.allocations.fresh
  have hbefore : (s.entry pos).results = [] := by
    rw [hfresh, ReorderBufferEntry.results_fresh]
  have hunwritten : e.isWriteBackDone = false := by
    rw [hr.isWriteBackDone, hfresh]
    rfl
  -- what is allocated is settled, so no instruction on its way writes to it
  have hnew : ∀ type q, (type, q) ∈ e.results → ∀ i ∈ s.rob.window,
      (s.entry i).isWriteBackDone = false → (type, q) ∉ (s.entry i).results := by
    intro type q hq i hi hui hir
    rw [hr.results] at hq
    have hfile := (ha.pending type q).mpr ⟨i, hi, hui, hir⟩
    rw [(hfree type q hq).2] at hfile
    cases hfile
  refine ⟨fun type => hr.allocations.valid ha.valid type, fun i hi type q hq => ?_,
    fun type q => ?_, fun i hi => ?_, fun i hi j hj hui huj r hir hjr => ?_⟩
  · rw [hr.window] at hi
    rw [hr.allocations.nPhyRegisters]
    by_cases hpos : i = pos
    · rw [hpos, hr.entry_self, hr.results] at hq
      exact (hfree type q hq).1
    · rw [hr.entry_other hpos] at hq
      exact ha.inRange i hi type q hq
  · rw [hr.allocations.registerFile, ha.pending, ← hr.results, hr.window]
    constructor
    · rintro (⟨i, hi, hui, hq⟩ | hq)
      · have hpos : i ≠ pos := by
          rintro rfl
          rw [hbefore] at hq
          cases hq
        exact ⟨i, hi, by rwa [hr.entry_other hpos], by rwa [hr.entry_other hpos]⟩
      · exact ⟨pos, hmem, by rwa [hr.entry_self], by rwa [hr.entry_self]⟩
    · rintro ⟨i, hi, hui, hq⟩
      by_cases hpos : i = pos
      · rw [hpos, hr.entry_self] at hq
        exact .inr hq
      · rw [hr.entry_other hpos] at hui hq
        exact .inl ⟨i, hi, hui, hq⟩
  · rw [hr.window] at hi
    by_cases hpos : i = pos
    · rw [hpos, hr.entry_self, hr.results]
      exact hnodup
    · rw [hr.entry_other hpos]
      exact ha.nodup i hi
  · rw [hr.window] at hi hj
    by_cases hposi : i = pos
    · by_cases hposj : j = pos
      · rw [hposi, hposj]
      · rw [hposi, hr.entry_self] at hir
        rw [hr.entry_other hposj] at huj hjr
        exact absurd hjr (hnew r.1 r.2 hir j hj huj)
    · rw [hr.entry_other hposi] at hui hir
      by_cases hposj : j = pos
      · rw [hposj, hr.entry_self] at hjr
        exact absurd hir (hnew r.1 r.2 hjr i hi hui)
      · rw [hr.entry_other hposj] at huj hjr
        exact ha.separate i hi j hj hui huj r hir hjr

theorem Advances.accounted (hv : s.Advances t pos blind l m) (ha : s.Accounted) : t.Accounted := by
  have hunwritten : ∀ i, (t.entry i).isWriteBackDone = false →
      (s.entry i).isWriteBackDone = false := by
    intro i hi
    by_cases hpos : i = pos
    · rw [hpos] at hi ⊢
      rw [← Bool.not_eq_true] at hi ⊢
      exact fun hdone => hi (hv.writtenBack_kept hdone)
    · rw [← (hv.stage i hpos).isWriteBackDone, hi]
  refine ⟨hv.valid, fun i hi type q hq => ?_, fun type q => ?_, fun i hi => ?_,
    fun i hi j hj hui huj r hir hjr => ?_⟩
  · rw [hv.window] at hi
    rw [(hv.names i).results] at hq
    rw [hv.nPhyRegisters]
    exact ha.inRange i hi type q hq
  · rw [← Bool.not_eq_true, hv.registerFile, not_or, Bool.not_eq_true, ha.pending, hv.window]
    constructor
    · rintro ⟨⟨i, hi, hui, hq⟩, hnot⟩
      refine ⟨i, hi, ?_, by rwa [(hv.names i).results]⟩
      by_cases hpos : i = pos
      · rw [← Bool.not_eq_true]
        intro hdone
        rw [hpos] at hdone hui hq
        rcases hv.writtenBack hdone with hbefore | hall
        · exact absurd (hbefore.symm.trans hui) (by decide)
        · exact hnot (hall _ hq)
      · rw [(hv.stage i hpos).isWriteBackDone, hui]
    · rintro ⟨i, hi, hui, hq⟩
      rw [(hv.names i).results] at hq
      refine ⟨⟨i, hi, hunwritten i hui, hq⟩, fun hmem => ?_⟩
      obtain ⟨hres, hup, hdone⟩ := hv.settled _ hmem
      have heq := ha.separate i hi pos hv.mem (hunwritten i hui) hup _ hq hres
      rw [heq, hdone] at hui
      cases hui
  · rw [hv.window] at hi
    rw [(hv.names i).results]
    exact ha.nodup i hi
  · rw [hv.window] at hi hj
    rw [(hv.names i).results] at hir
    rw [(hv.names j).results] at hjr
    exact ha.separate i hi j hj (hunwritten i hui) (hunwritten j huj) r hir hjr

/-! ### Every reachable pipeline -/

/-- The entries that would be woken blindly by what a step announces. -/
def BlindAt (s : Pipeline) : PipelineLabel → ℕ → Prop
  | .broadCast pos => s.BlindTo pos
  | .execComplete pos => s.BlindTo pos
  | .writeBack pos => s.BlindAtWriteBack pos
  | _ => fun _ => False

/-- The kinds of steps. -/
def Moves (s : Pipeline) (label : PipelineLabel) (t : Pipeline) : Prop :=
  (∃ pos instruction threadID, label = .decode instruction threadID ∧
    s.Decodes t pos instruction threadID) ∨
  (∃ pos rest e allocated, label = .rename ∧ s.Renames t pos rest e allocated) ∨
  (∃ pos l m, s.Advances t pos (s.BlindAt label) l m) ∨ ∃ pos, s.Commits t pos

theorem unavailable_of_decoded (h : s.Ordered) (i : ℕ) (hi : i ∈ s.decodeBuffer) :
    (s.entry i).operand1.available = false ∧ (s.entry i).operand2.available = false := by
  obtain ⟨instruction, threadID, heq⟩ := h.fresh i hi
  rw [heq]
  exact ⟨rfl, rfl⟩

theorem moves_of_step {label : PipelineLabel} (h : s.Ordered) (ha : s.Accounted)
    (hstep : s.Step label t) : s.Moves label t ∧ t.Ordered ∧ t.Accounted := by
  have hadvance : (∃ pos l m, s.Advances t pos (s.BlindAt label) l m ∧ t.Ordered) →
      s.Moves label t ∧ t.Ordered ∧ t.Accounted := by
    rintro ⟨pos, l, m, hv, ht⟩
    exact ⟨.inr (.inr (.inl ⟨pos, l, m, hv⟩)), ht, hv.accounted ha⟩
  cases label with
  | decode instruction threadID =>
    have hd := decode_spec h hstep
    exact ⟨.inl ⟨_, instruction, threadID, rfl, hd⟩, hd.ordered h, hd.accounted ha⟩
  | rename =>
    obtain ⟨pos, rest, e, allocated, hr⟩ :=
      performRename_spec ha.valid (unavailable_of_decoded h) hstep
    exact ⟨.inr (.inl ⟨pos, rest, e, allocated, rfl, hr⟩), hr.ordered h, hr.accounted h ha⟩
  | iwPush => exact hadvance (iwPush_spec h ha hstep)
  | issue pos => exact hadvance ⟨pos, issue_spec h ha hstep⟩
  | broadCast pos =>
    change s.next (.broadCast pos) = .ok t at hstep
    rw [next] at hstep
    split_ifs at hstep with hevent
    exact hadvance ⟨pos, broadCast_spec h ha hevent hstep⟩
  | execComplete pos => exact hadvance ⟨pos, execComplete_spec h ha hstep⟩
  | writeBack pos =>
    obtain ⟨l, m, hv, ht, -⟩ := writeBack_spec h ha hstep
    exact hadvance ⟨pos, l, m, hv, ht⟩
  | commit =>
    obtain ⟨pos, hc⟩ := commit_spec h hstep
    exact ⟨.inr (.inr (.inr ⟨pos, hc⟩)), hc.ordered h, hc.accounted h ha⟩

variable {cfg : PipelineConfig} {s₀ : Pipeline} {labels : List PipelineLabel}

theorem ordered_new (h : new cfg = some s₀) : s₀.Ordered ∧ s₀.Accounted := by
  rw [new.eq_def] at h
  split at h
  · rename_i integer float hinteger hfloat
    obtain rfl := (Option.some.inj h).symm
    obtain ⟨hvalid, hfile⟩ := RenameTable.valid_new hinteger
    obtain ⟨hvalid', hfile'⟩ := RenameTable.valid_new hfloat
    have hnone : ∀ i, i ∉ (ReorderBuffer.new cfg.reorderBufferSize).window := by
      intro i hi
      obtain ⟨d, hd, -⟩ := mem_slotsFrom.mp hi
      simp [ReorderBuffer.new] at hd
    refine ⟨⟨.inl ⟨rfl, rfl⟩, fun _ => rfl, fun i hi => absurd hi (hnone i), ⟨[], ?_, ?_⟩, ?_,
      fun i hi => absurd hi (hnone i), fun i hi => absurd hi (hnone i), ?_, List.nodup_nil,
      List.nodup_nil, ?_, ?_⟩, ⟨fun type => ?_, fun i hi => absurd hi (hnone i),
      fun type q => ?_, fun i hi => absurd hi (hnone i), fun i hi => absurd hi (hnone i)⟩⟩
    · exact List.eq_nil_iff_forall_not_mem.mpr hnone
    · exact fun i hi => absurd hi List.not_mem_nil
    · exact fun i hi => absurd hi List.not_mem_nil
    · exact fun i hi => absurd hi List.not_mem_nil
    · exact fun i hi => absurd hi List.not_mem_nil
    · exact fun i hi => absurd hi List.not_mem_nil
    · cases type
      · exact hvalid
      · exact hvalid'
    · constructor
      · intro hfalse
        cases type
        · exact absurd ((hfile q).symm.trans hfalse) (by decide)
        · exact absurd ((hfile' q).symm.trans hfalse) (by decide)
      · rintro ⟨i, hi, -⟩
        exact absurd hi (hnone i)
  · cases h

theorem ordered_of_run (h : new cfg = some s₀) (run : Run Step s₀ labels s) :
    s.Ordered ∧ s.Accounted :=
  run.invariant (I := fun s => s.Ordered ∧ s.Accounted) (ordered_new h)
    fun _ _ _ hI hstep => (moves_of_step hI.1 hI.2 hstep).2

end Pipeline

end Tejas
