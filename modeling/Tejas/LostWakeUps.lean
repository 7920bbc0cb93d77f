import Tejas.RegisterConservation

/-!
# No wake-up is lost

A renamed instruction that misses a register waits for an older instruction in the
reorder buffer that has not executed and whose result is exactly that physical register.
-/

namespace Tejas
open LabelledRuns RingWindow RingIndices

/-- What an older position is in a list without repetitions. -/
theorem split_of_sublist {l : List ℕ} {j i : ℕ} (h : [j, i].Sublist l) :
    ∃ before between after, l = before ++ j :: (between ++ i :: after) := by
  obtain ⟨l₁, l₂, rfl, hj, hi⟩ := List.cons_sublist_iff.mp h
  obtain ⟨before, middle, rfl⟩ := List.append_of_mem hj
  obtain ⟨middle', after, rfl⟩ := List.append_of_mem (List.singleton_sublist.mp hi)
  exact ⟨before, middle ++ middle', after, by simp⟩

theorem sublist_of_mem_append {front rest : List ℕ} {i pos : ℕ} (hi : i ∈ front) :
    [i, pos].Sublist (front ++ pos :: rest) :=
  (List.singleton_sublist.mpr hi).append
    (List.singleton_sublist.mpr (List.mem_cons_self (a := pos) (l := rest)))

theorem mem_of_sublist_append {front rest : List ℕ} {i pos : ℕ}
    (h : [i, pos].Sublist (front ++ pos :: rest)) (hrest : pos ∉ rest) : i ∈ front := by
  obtain ⟨l₁, l₂, heq, h₁, h₂⟩ := List.sublist_append_iff.mp h
  cases l₁ with
  | cons k l₁ =>
    rw [List.cons_append] at heq
    rw [(List.cons.inj heq).1]
    exact h₁.subset List.mem_cons_self
  | nil =>
    rw [List.nil_append] at heq
    rw [← heq] at h₂
    rcases List.sublist_cons_iff.mp h₂ with hrest' | ⟨r, hr, hsub⟩
    · exact absurd (hrest'.subset (List.mem_cons_of_mem _ List.mem_cons_self)) hrest
    · rw [← (List.cons.inj hr).2] at hsub
      exact absurd (hsub.subset List.mem_cons_self) hrest

theorem sublist_of_cons {l : List ℕ} {i j k : ℕ} (h : [i, j].Sublist (k :: l)) (hi : i ≠ k) :
    [i, j].Sublist l := by
  rcases List.sublist_cons_iff.mp h with h | ⟨r, heq, -⟩
  · exact h
  · exact absurd (List.cons.inj heq).1 hi

theorem sublist_of_append_singleton {l : List ℕ} {i j k : ℕ} (h : [i, j].Sublist (l ++ [k]))
    (hj : j ≠ k) : [i, j].Sublist l := by
  obtain ⟨l₁, l₂, heq, h₁, h₂⟩ := List.sublist_append_iff.mp h
  rcases List.sublist_singleton.mp h₂ with rfl | rfl
  · rw [List.append_nil] at heq
    rwa [heq]
  · have hlast := congrArg List.getLast? heq
    simp only [List.getLast?_append, List.getLast?_singleton, Option.some_or] at hlast
    exact absurd (Option.some.inj hlast) hj

namespace Pipeline

variable {s t : Pipeline} {pos i j q threadID : ℕ} {type : RegisterType} {rest : List ℕ}
  {l m : List (RegisterType × ℕ)} {e : ReorderBufferEntry} {instruction : Instruction}
  {allocated : List ((RegisterType × ℕ) × ℕ)} {blind : ℕ → Prop} {part : SourcePart}

/-- The value of every result of an executed instruction is valid until it is written back. -/
def Valued (s : Pipeline) : Prop :=
  ∀ i ∈ s.rob.window, (s.entry i).isExecuted = true → (s.entry i).isWriteBackDone = false →
    ∀ type q, (type, q) ∈ (s.entry i).results → (s.tables type).valueValid q = true

/-- An older instruction in the buffer has not executed, and its result is the part. -/
def Produced (s : Pipeline) (i : ℕ) (part : SourcePart) : Prop :=
  ∃ j q, [j, i].Sublist s.rob.window ∧ (s.entry j).isExecuted = false ∧
    part.phyReg = some q ∧ (part.register.1, q) ∈ (s.entry j).results

/-- Every missing register of a waiting instruction has its producer. -/
def Awaited (s : Pipeline) : Prop :=
  ∀ i ∈ s.rob.window, (s.entry i).isRenameDone = true → (s.entry i).isIssued = false →
    ∀ part ∈ (s.entry i).parts, part.ready = false → s.Produced i part

theorem Decodes.valued (hd : s.Decodes t pos instruction threadID) (hv : s.Valued) :
    t.Valued := by
  have htables : t.tables = s.tables := by rw [hd.after]
  intro i hi hexecuted hunwritten type q hq
  have hpos : i ≠ pos := by
    rintro rfl
    rw [hd.entry_self] at hexecuted
    cases hexecuted
  rw [hd.window] at hi
  have hold : i ∈ s.rob.window := by simpa [hpos] using hi
  rw [hd.entry_other i hpos] at hexecuted hunwritten hq
  rw [htables]
  exact hv i hold hexecuted hunwritten type q hq

theorem Decodes.awaited (hd : s.Decodes t pos instruction threadID) (hw : s.Awaited) :
    t.Awaited := by
  have hnew := hd.not_mem
  intro i hi hrenamed hissued part hpart hmissing
  have hpos : i ≠ pos := by
    rintro rfl
    rw [hd.entry_self] at hrenamed
    cases hrenamed
  rw [hd.window] at hi
  have hold : i ∈ s.rob.window := by simpa [hpos] using hi
  rw [hd.entry_other i hpos] at hrenamed hissued hpart
  obtain ⟨j, q, holder, hunfinished, hq, hmem⟩ := hw i hold hrenamed hissued part hpart hmissing
  have hj : j ≠ pos := fun heq => hnew (heq ▸ holder.subset List.mem_cons_self)
  refine ⟨j, q, ?_, by rwa [hd.entry_other j hj], hq, by rwa [hd.entry_other j hj]⟩
  rw [hd.window]
  exact holder.trans (List.sublist_append_left _ _)

theorem Commits.valued (hc : s.Commits t pos) (h : s.Ordered) (hv : s.Valued) : t.Valued := by
  have htables : t.tables = s.tables := by rw [hc.after]
  have hnodup := h.window_nodup
  rw [hc.window, List.nodup_cons] at hnodup
  intro i hi
  have hpos : i ≠ pos := by
    rintro rfl
    exact hnodup.1 hi
  rw [hc.entry_other i hpos, htables]
  refine hv i ?_
  rw [hc.window]
  exact List.mem_cons_of_mem _ hi

theorem Commits.awaited (hc : s.Commits t pos) (h : s.Ordered) (hw : s.Awaited) :
    t.Awaited := by
  have hnodup := h.window_nodup
  rw [hc.window, List.nodup_cons] at hnodup
  have hmem : pos ∈ s.rob.window := by
    rw [hc.window]
    exact List.mem_cons_self
  intro i hi hrenamed hissued part hpart hmissing
  have hpos : i ≠ pos := by
    rintro rfl
    exact hnodup.1 hi
  have hold : i ∈ s.rob.window := by
    rw [hc.window]
    exact List.mem_cons_of_mem _ hi
  rw [hc.entry_other i hpos] at hrenamed hissued hpart
  obtain ⟨j, q, holder, hunfinished, hq, hresult⟩ :=
    hw i hold hrenamed hissued part hpart hmissing
  have hj : j ≠ pos := by
    rintro rfl
    rw [h.isWriteBackDone j hmem hc.isWriteBackDone] at hunfinished
    cases hunfinished
  refine ⟨j, q, ?_, by rwa [hc.entry_other j hj], hq, by rwa [hc.entry_other j hj]⟩
  rw [hc.window] at holder
  exact sublist_of_cons holder hj

theorem Renames.valued (hr : s.Renames t pos rest e allocated) (h : s.Ordered)
    (ha : s.Accounted) (hv : s.Valued) : t.Valued := by
  obtain ⟨instruction, threadID, hfresh⟩ := hr.fresh h
  intro i hi hexecuted hunwritten type q hq
  have hpos : i ≠ pos := by
    rintro rfl
    rw [hr.entry_self, hr.isExecuted, hfresh] at hexecuted
    cases hexecuted
  rw [hr.window] at hi
  rw [hr.entry_other hpos] at hexecuted hunwritten hq
  rw [hr.allocations.valueValid]
  refine ⟨hv i hi hexecuted hunwritten type q hq, fun hnew => ?_⟩
  have hfile := (ha.pending type q).mpr ⟨i, hi, hunwritten, hq⟩
  rw [(hr.allocations.fresh.2 type q hnew).2] at hfile
  cases hfile

/-- A register that is not available has a producer that has not executed. -/
theorem produced_of_unavailable (ha : s.Accounted) (hv : s.Valued)
    (hunavailable : (s.tables type).isAvailable q = false) :
    ∃ j ∈ s.rob.window, (s.entry j).isExecuted = false ∧ (type, q) ∈ (s.entry j).results := by
  rw [RenameTable.isAvailable, Bool.or_eq_false_iff] at hunavailable
  obtain ⟨j, hj, hunwritten, hq⟩ := (ha.pending type q).mp hunavailable.1
  refine ⟨j, hj, ?_, hq⟩
  rw [← Bool.not_eq_true]
  intro hexecuted
  rw [hv j hj hexecuted hunwritten type q hq] at hunavailable
  cases hunavailable.2

/-- A register that is missing at the rename has its producer. -/
theorem Renames.produced (hr : s.Renames t pos rest e allocated) (h : s.Ordered)
    (ha : s.Accounted) (hv : s.Valued) (hpart : part ∈ e.parts) (hmissing : part.ready = false) :
    s.Produced pos part := by
  obtain ⟨instruction, threadID, hfresh⟩ := hr.fresh h
  have hx : e.instruction.operationType ≠ .xchg := by
    intro hx
    obtain ⟨h₁, h₂⟩ := hr.exchange hx
    have hready : part.ready = true := by
      rcases List.mem_append.mp hpart with hpart | hpart
      · exact OperandStatus.ready_of_available h₁ hpart
      · exact OperandStatus.ready_of_available h₂ hpart
    rw [hmissing] at hready
    cases hready
  have hlooked : ∃ opnd status, part ∈ OperandStatus.parts status opnd ∧
      s.LookedUp (s.entry pos).threadID opnd status := by
    rcases List.mem_append.mp hpart with hpart | hpart
    · exact ⟨_, _, hpart, (hr.sources hx).1⟩
    · exact ⟨_, _, hpart, (hr.sources hx).2⟩
  obtain ⟨opnd, status, hpart', hlooked⟩ := hlooked
  obtain ⟨-, hphyReg, hready⟩ := hlooked.parts part hpart'
  obtain ⟨j, hj, hunfinished, hq⟩ := produced_of_unavailable ha hv (hready.symm.trans hmissing)
  obtain ⟨front, hsplit, -, hposrest, -⟩ := hr.split h
  have hrenamed := h.isRenameDone_of_results hj hq
  refine ⟨j, _, ?_, hunfinished, hphyReg, hq⟩
  rw [hsplit] at hj ⊢
  rcases List.mem_append.mp hj with hj | hj
  · exact sublist_of_mem_append hj
  · obtain ⟨instruction, threadID, heq⟩ := h.fresh j (by rw [hr.decodeBuffer]; exact hj)
    rw [heq] at hrenamed
    cases hrenamed

theorem Renames.awaited (hr : s.Renames t pos rest e allocated) (h : s.Ordered)
    (ha : s.Accounted) (hv : s.Valued) (hw : s.Awaited) : t.Awaited := by
  obtain ⟨instruction, threadID, hfresh⟩ := hr.fresh h
  have hkept : ∀ i part, s.Produced i part → t.Produced i part := by
    rintro i part ⟨j, q, holder, hunfinished, hq, hresult⟩
    have hj : j ≠ pos := by
      rintro rfl
      rw [hfresh, ReorderBufferEntry.results_fresh] at hresult
      cases hresult
    exact ⟨j, q, by rwa [hr.window], by rwa [hr.entry_other hj], hq, by rwa [hr.entry_other hj]⟩
  intro i hi hrenamed hissued part hpart hmissing
  apply hkept
  by_cases hpos : i = pos
  · rw [hpos, hr.entry_self] at hpart
    rw [hpos]
    exact hr.produced h ha hv hpart hmissing
  · rw [hr.window] at hi
    rw [hr.entry_other hpos] at hrenamed hissued hpart
    exact hw i hi hrenamed hissued part hpart hmissing

theorem Advances.valued (hv : s.Advances t pos blind l m) (hvalued : s.Valued) : t.Valued := by
  intro i hi hexecuted hunwritten type q hq
  rw [hv.window] at hi
  rw [(hv.names i).results] at hq
  rw [hv.valueValid]
  by_cases hpos : i = pos
  · rw [hpos] at hi hexecuted hunwritten hq
    rcases hv.executed hexecuted with hbefore | hall
    · refine .inl (hvalued pos hi hbefore ?_ type q hq)
      rw [← Bool.not_eq_true] at hunwritten ⊢
      exact fun hdone => hunwritten (hv.writtenBack_kept hdone)
    · exact .inr (.inl (hall _ hq))
  · rw [(hv.stage i hpos).isExecuted] at hexecuted
    rw [(hv.stage i hpos).isWriteBackDone] at hunwritten
    exact .inl (hvalued i hi hexecuted hunwritten type q hq)

/-- An instruction that has not been issued had not been issued before the advance. -/
theorem Advances.unissued (hv : s.Advances t pos blind l m)
    (hissued : (t.entry i).isIssued = false) : (s.entry i).isIssued = false := by
  by_cases hpos : i = pos
  · rw [hpos] at hissued ⊢
    rw [← Bool.not_eq_true] at hissued ⊢
    exact fun hdone => hissued (hv.issued_kept hdone)
  · rw [← (hv.stage i hpos).isIssued, hissued]

theorem Advances.awaited (hv : s.Advances t pos blind l m) (h : s.Ordered) (ha : s.Accounted)
    (hw : s.Awaited) : t.Awaited := by
  intro i hi hrenamed hissued part hpart hmissing
  rw [hv.window] at hi
  rw [(hv.names i).isRenameDone] at hrenamed
  have hunissued := hv.unissued hissued
  obtain ⟨j, q, holder, hunfinished, hq, hresult⟩ :=
    hw i hi hrenamed hunissued part (hv.missing i part hpart hmissing) hmissing
  refine ⟨j, q, by rwa [hv.window], ?_, hq, by rwa [(hv.names j).results]⟩
  by_cases hpos : j = pos
  · -- the producer itself advances: if it completed, the instruction has heard of it
    subst hpos
    rw [← Bool.not_eq_true]
    intro hdone
    have hall := (hv.executed hdone).resolve_left (by simp [hunfinished])
    have hunwritten : (s.entry j).isWriteBackDone = false := by
      rw [← Bool.not_eq_true]
      intro hwritten
      rw [h.isWriteBackDone j hv.mem hwritten] at hunfinished
      cases hunfinished
    obtain ⟨before, between, after, hwindow⟩ := split_of_sublist holder
    have hears := h.hears ha hwindow hunwritten (fun r hr => (hv.announced r hr).1) hrenamed
      hunissued
    exact hv.heard i before between after hears part hpart hmissing q hq (hall _ hresult)
  · rw [(hv.stage j hpos).isExecuted, hunfinished]

variable {cfg : PipelineConfig} {s₀ : Pipeline} {labels : List PipelineLabel}

theorem awaited_of_step {label : PipelineLabel} (h : s.Ordered) (ha : s.Accounted)
    (hvalued : s.Valued) (hw : s.Awaited) (hstep : s.Step label t) : t.Valued ∧ t.Awaited := by
  obtain ⟨hmoves, -, -⟩ := moves_of_step h ha hstep
  rcases hmoves with ⟨pos, instruction, threadID, -, hd⟩ | ⟨pos, rest, e, allocated, -, hr⟩ |
    ⟨pos, l, m, hv⟩ | ⟨pos, hc⟩
  · exact ⟨hd.valued hvalued, hd.awaited hw⟩
  · exact ⟨hr.valued h ha hvalued, hr.awaited h ha hvalued hw⟩
  · exact ⟨hv.valued hvalued, hv.awaited h ha hw⟩
  · exact ⟨hc.valued h hvalued, hc.awaited h hw⟩

theorem window_new (hnew : new cfg = some s₀) : s₀.rob.window = [] := by
  rw [new.eq_def] at hnew
  split at hnew
  · obtain rfl := Option.some.inj hnew
    rfl
  · cases hnew

theorem awaited_of_run (hnew : new cfg = some s₀) (run : Run Step s₀ labels s) :
    s.Valued ∧ s.Awaited := by
  refine run.invariant_with (I := fun s => s.Ordered ∧ s.Accounted)
    (J := fun s => s.Valued ∧ s.Awaited) ⟨fun i hi => ?_, fun i hi => ?_⟩
    (fun labels s hrun => ordered_of_run hnew hrun)
    (fun s label t hI hJ hstep => awaited_of_step hI.1 hI.2 hJ.1 hJ.2 hstep)
  · rw [window_new hnew] at hi
    cases hi
  · rw [window_new hnew] at hi
    cases hi

/-- The instructions in the buffer have been decoded in the run. -/
theorem decoded_of_run (hnew : new cfg = some s₀) (run : Run Step s₀ labels s) :
    ∀ i ∈ s.rob.window, ∃ threadID, .decode (s.entry i).instruction threadID ∈ labels := by
  induction run with
  | nil =>
    intro i hi
    rw [window_new hnew] at hi
    cases hi
  | @snoc labels s t label prior last ih =>
    obtain ⟨h, ha⟩ := ordered_of_run hnew prior
    have hkept : ∀ i ∈ s.rob.window, t.entry i = s.entry i ∨
        (t.entry i).instruction = (s.entry i).instruction →
        ∃ threadID, .decode (t.entry i).instruction threadID ∈ labels ++ [label] := by
      intro i hi hsame
      obtain ⟨threadID, hmem⟩ := ih i hi
      refine ⟨threadID, List.mem_append_left _ ?_⟩
      rcases hsame with heq | heq
      · rwa [heq]
      · rwa [heq]
    obtain ⟨hmoves, -, -⟩ := moves_of_step h ha last
    intro i hi
    rcases hmoves with ⟨pos, instruction, threadID, rfl, hd⟩ |
      ⟨pos, rest, e, allocated, -, hr⟩ | ⟨pos, l, m, hv⟩ | ⟨pos, hc⟩
    · by_cases hpos : i = pos
      · rw [hpos, hd.entry_self]
        exact ⟨threadID, List.mem_append_right _ (List.mem_singleton_self _)⟩
      · rw [hd.window] at hi
        exact hkept i (by simpa [hpos] using hi) (.inl (hd.entry_other i hpos))
    · rw [hr.window] at hi
      refine hkept i hi (.inr ?_)
      by_cases hpos : i = pos
      · rw [hpos, hr.entry_self, hr.instruction]
      · rw [hr.entry_other hpos]
    · rw [hv.window] at hi
      exact hkept i hi (.inr (hv.names i).instruction)
    · have hnodup := h.window_nodup
      rw [hc.window, List.nodup_cons] at hnodup
      refine hkept i (by rw [hc.window]; exact List.mem_cons_of_mem _ hi)
        (.inl (hc.entry_other i ?_))
      rintro rfl
      exact hnodup.1 hi

theorem plain_ne_inValid {opnd : Option Operand} (h : ∀ o ∈ opnd, o.Plain = true) :
    opnd ≠ some (.base .inValid) := by
  rintro rfl
  have hplain := h _ rfl
  cases hplain

/-- In every reachable pipeline a renamed instruction with an unavailable operand misses a
register, and every register it misses has an older producer in the buffer that has not
executed. When all older instructions have executed, its operands are available. -/
theorem no_lost_wakeUp (hnew : new cfg = some s₀) (run : Run Step s₀ labels s)
    (hplain : ∀ instruction threadID, .decode instruction threadID ∈ labels →
      instruction.PlainSources) (hi : i ∈ s.rob.window)
    (hrenamed : (s.entry i).isRenameDone = true) (hissued : (s.entry i).isIssued = false) :
    ((s.entry i).operand1.available = false →
      ∃ part ∈ (s.entry i).operand1.parts (s.entry i).instruction.sourceOperand1,
        part.ready = false) ∧
    ((s.entry i).operand2.available = false →
      ∃ part ∈ (s.entry i).operand2.parts (s.entry i).instruction.sourceOperand2,
        part.ready = false) ∧
    (∀ part ∈ (s.entry i).parts, part.ready = false → s.Produced i part) ∧
    ((∀ j, [j, i].Sublist s.rob.window → (s.entry j).isExecuted = true) →
      (s.entry i).operand1.available = true ∧ (s.entry i).operand2.available = true) := by
  obtain ⟨h, ha⟩ := ordered_of_run hnew run
  obtain ⟨hvalued, hawaited⟩ := awaited_of_run hnew run
  obtain ⟨threadID, hdecoded⟩ := decoded_of_run hnew run i hi
  obtain ⟨hplain₁, hplain₂⟩ := hplain _ _ hdecoded
  obtain ⟨hcoherent₁, hcoherent₂⟩ := h.coherent hi hrenamed
  have hmissing₁ := hcoherent₁.missing (plain_ne_inValid hplain₁)
  have hmissing₂ := hcoherent₂.missing (plain_ne_inValid hplain₂)
  have hproduced := hawaited i hi hrenamed hissued
  have hstuck : (∀ j, [j, i].Sublist s.rob.window → (s.entry j).isExecuted = true) →
      ∀ part ∈ (s.entry i).parts, part.ready ≠ false := by
    intro hall part hpart hmissing
    obtain ⟨j, q, holder, hunfinished, -⟩ := hproduced part hpart hmissing
    rw [hall j holder] at hunfinished
    cases hunfinished
  refine ⟨hmissing₁, hmissing₂, hproduced, fun hall => ⟨?_, ?_⟩⟩
  · rw [← Bool.not_eq_false]
    intro hunavailable
    obtain ⟨part, hpart, hmissing⟩ := hmissing₁ hunavailable
    exact hstuck hall part (List.mem_append_left _ hpart) hmissing
  · rw [← Bool.not_eq_false]
    intro hunavailable
    obtain ⟨part, hpart, hmissing⟩ := hmissing₂ hunavailable
    exact hstuck hall part (List.mem_append_right _ hpart) hmissing

/-- A move of a register waits for the move that writes it. -/
theorem no_lost_wakeUp_move :
    ∃ s₀ s, new ⟨4, 1, fun _ => 2, fun _ => 6⟩ = some s₀ ∧
      s₀.follow [.decode ⟨.mov, some (.base .immediate), none,
          some (.base (.register .integer 0)), rfl⟩ 0,
        .decode ⟨.mov, some (.base (.register .integer 0)), none,
          some (.base (.register .integer 1)), rfl⟩ 0,
        .rename, .rename, .iwPush, .issue 0] = some s ∧
      (s.entry 1).operand1.available = false ∧
      ∃ part ∈ (s.entry 1).operand1.parts (s.entry 1).instruction.sourceOperand1,
        part.ready = false ∧ s.Produced 1 part := by
  obtain ⟨s₀, hnew⟩ := Option.isSome_iff_exists.mp
    (by decide : (new ⟨4, 1, fun _ => 2, fun _ => 6⟩).isSome = true)
  have hrun : ((s₀.follow [.decode ⟨.mov, some (.base .immediate), none,
          some (.base (.register .integer 0)), rfl⟩ 0,
        .decode ⟨.mov, some (.base (.register .integer 0)), none,
          some (.base (.register .integer 1)), rfl⟩ 0,
        .rename, .rename, .iwPush, .issue 0]).any fun s => 1 ∈ s.rob.window ∧
      (s.entry 1).isRenameDone = true ∧ (s.entry 1).isIssued = false ∧
      (s.entry 1).operand1.available = false) = true := by
    obtain rfl := Option.some.inj hnew
    decide
  obtain ⟨s, hs, hfacts⟩ := (Option.any_eq_true _ _).mp hrun
  obtain ⟨hmem, hrenamed, hissued, hmissing⟩ := of_decide_eq_true hfacts
  have hspec := no_lost_wakeUp hnew (run_of_follow hs) (fun instruction threadID hdecode => by
    simp only [List.mem_cons, PipelineLabel.decode.injEq, reduceCtorEq, List.not_mem_nil,
      or_false] at hdecode
    rcases hdecode with ⟨rfl, -⟩ | ⟨rfl, -⟩
    · decide
    · decide) hmem hrenamed hissued
  obtain ⟨part, hpart, hready⟩ := hspec.1 hmissing
  exact ⟨s₀, s, hnew, hs, hmissing, part, hpart, hready,
    hspec.2.2.1 part (List.mem_append_left _ hpart) hready⟩

end Pipeline

end Tejas
