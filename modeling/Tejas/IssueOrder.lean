import Tejas.LostWakeUps

/-!
# Instructions are issued after their producers

An operand that becomes available has its result from the latest older instruction that
writes the register. Two steps break this: the rename of an exchange takes its registers
for available without asking the tables, and a result in memory wakes memory operands
whatever they wait for.
-/

namespace Tejas
open LabelledRuns RingWindow RingIndices

namespace Pipeline

variable {s t : Pipeline} {pos i j q threadID : ℕ} {type : RegisterType} {rest : List ℕ}
  {l m : List (RegisterType × ℕ)} {e : ReorderBufferEntry} {instruction : Instruction}
  {allocated : List ((RegisterType × ℕ) × ℕ)} {blind : ℕ → Prop} {part : SourcePart}
  {r : RegisterType × ℕ} {label : PipelineLabel}

/-- Two entries of one thread. -/
def SameThread (s : Pipeline) (i j : ℕ) : Prop := (s.entry i).threadID = (s.entry j).threadID

/-- The instruction at `i` is the one whose result the instruction at `j` reads in `r`. -/
def LatestWriter (s : Pipeline) (i j : ℕ) (r : RegisterType × ℕ) : Prop :=
  [i, j].Sublist s.rob.window ∧ s.SameThread i j ∧ r ∈ (s.entry i).instruction.destinations ∧
    ∀ k ∈ s.rob.window, [i, k].Sublist s.rob.window → [k, j].Sublist s.rob.window →
      s.SameThread k j → r ∉ (s.entry k).instruction.destinations

/-- What a register of a thread is mapped to. -/
def mapped (s : Pipeline) (threadID : ℕ) (r : RegisterType × ℕ) : ℕ :=
  (s.tables r.1).archToPhyMapping threadID r.2

/-- A step takes no operand for available that is not: the registers of an exchange are
available when it is renamed, and what is announced wakes no waiting operand blindly. -/
def Sound (s : Pipeline) (label : PipelineLabel) : Prop :=
  (label = .rename → ∀ pos ∈ s.decodeBuffer.head?,
    (s.entry pos).instruction.operationType = .xchg →
    ∀ r ∈ (s.entry pos).instruction.sources,
      (s.tables r.1).isAvailable (s.mapped (s.entry pos).threadID r) = true) ∧
  ∀ i ∈ s.rob.window, (s.entry i).isRenameDone = true → (s.entry i).isIssued = false →
    ¬ s.BlindAt label i

/-- The last renamed writer of a register wrote what the register is mapped to. -/
def Current (s : Pipeline) : Prop :=
  ∀ i ∈ s.rob.window, (s.entry i).isRenameDone = true →
    ∀ r ∈ (s.entry i).instruction.destinations,
      (∀ k ∈ s.rob.window, [i, k].Sublist s.rob.window → (s.entry k).isRenameDone = true →
        s.SameThread k i → r ∉ (s.entry k).instruction.destinations) →
      (r, some (s.mapped (s.entry i).threadID r)) ∈ (s.entry i).writes

/-- A valid value that is not written back comes from a result that is there. -/
def Delivered (s : Pipeline) : Prop :=
  ∀ i ∈ s.rob.window, (s.entry i).isWriteBackDone = false → ∀ type q,
    (type, q) ∈ (s.entry i).results → (s.tables type).valueValid q = true → s.Done i

/-- A ready register has its value from its latest writer, and a missing one waits for it. -/
def Ready (s : Pipeline) : Prop :=
  ∀ j ∈ s.rob.window, (s.entry j).isRenameDone = true → (s.entry j).isIssued = false →
    ∀ part ∈ (s.entry j).parts, ∀ i, s.LatestWriter i j part.register →
      (part.ready = true → s.Done i) ∧
      (part.ready = false → (part.register, part.phyReg) ∈ (s.entry i).writes)

/-! ### Steps that leave the names alone -/

theorem LatestWriter.congr (hwindow : t.rob.window = s.rob.window)
    (hinstruction : ∀ i, (t.entry i).instruction = (s.entry i).instruction)
    (hthread : ∀ i, (t.entry i).threadID = (s.entry i).threadID) :
    t.LatestWriter i j r ↔ s.LatestWriter i j r := by
  simp only [LatestWriter, SameThread, hwindow, hinstruction, hthread]

theorem Advances.latestWriter (hv : s.Advances t pos blind l m) :
    t.LatestWriter i j r ↔ s.LatestWriter i j r :=
  LatestWriter.congr hv.window (fun i => (hv.names i).instruction) fun i => (hv.names i).threadID

theorem Renames.instruction_eq (hr : s.Renames t pos rest e allocated) (i : ℕ) :
    (t.entry i).instruction = (s.entry i).instruction := by
  by_cases hpos : i = pos
  · rw [hpos, hr.entry_self, hr.instruction]
  · rw [hr.entry_other hpos]

theorem Renames.threadID_eq (hr : s.Renames t pos rest e allocated) (i : ℕ) :
    (t.entry i).threadID = (s.entry i).threadID := by
  by_cases hpos : i = pos
  · rw [hpos, hr.entry_self, hr.threadID]
  · rw [hr.entry_other hpos]

theorem Renames.latestWriter (hr : s.Renames t pos rest e allocated) :
    t.LatestWriter i j r ↔ s.LatestWriter i j r :=
  LatestWriter.congr hr.window hr.instruction_eq hr.threadID_eq

/-! ### Results that are there stay there -/

theorem Advances.done (hv : s.Advances t pos blind l m) (hdone : s.Done i) : t.Done i := by
  rcases hdone with hexecuted | ⟨hissued, hkind, hnot⟩
  · left
    by_cases hpos : i = pos
    · rw [hpos] at hexecuted ⊢
      exact hv.executed_kept hexecuted
    · rw [(hv.stage i hpos).isExecuted, hexecuted]
  · refine .inr ⟨?_, by rw [(hv.names i).instruction, hkind], hv.broadCast_kept i hissued hnot⟩
    by_cases hpos : i = pos
    · rw [hpos] at hissued ⊢
      exact hv.issued_kept hissued
    · rw [(hv.stage i hpos).isIssued, hissued]

theorem Done.of_entry (hdone : s.Done i) (hentry : t.entry i = s.entry i)
    (hqueue : t.eventQueue = s.eventQueue) : t.Done i := by
  rw [Done, hentry, hqueue]
  exact hdone

/-- A result whose register is available is there. -/
theorem done_of_available (h : s.Ordered) (ha : s.Accounted) (hd : s.Delivered)
    (hi : i ∈ s.rob.window) (hq : (type, q) ∈ (s.entry i).results)
    (havailable : (s.tables type).isAvailable q = true) : s.Done i := by
  cases hwritten : (s.entry i).isWriteBackDone with
  | true => exact .inl (h.isWriteBackDone i hi hwritten)
  | false =>
    have hfile := (ha.pending type q).mpr ⟨i, hi, hwritten, hq⟩
    rw [RenameTable.isAvailable, hfile, Bool.false_or] at havailable
    exact hd i hi hwritten type q hq havailable

theorem delivered_of_step (h : s.Ordered) (ha : s.Accounted) (hd : s.Delivered)
    (hmoves : s.Moves label t) : t.Delivered := by
  intro i hi hunwritten type q hq hvalue
  rcases hmoves with ⟨pos, instruction, threadID, -, hdec⟩ | ⟨pos, rest, e, allocated, -, hr⟩ |
    ⟨pos, l, m, hv⟩ | ⟨pos, hc⟩
  · have hpos : i ≠ pos := by
      rintro rfl
      rw [hdec.entry_self, ReorderBufferEntry.results_fresh] at hq
      cases hq
    have htables : t.tables = s.tables := by rw [hdec.after]
    rw [hdec.window] at hi
    rw [hdec.entry_other i hpos] at hunwritten hq
    rw [htables] at hvalue
    exact (hd i (by simpa [hpos] using hi) hunwritten type q hq hvalue).of_entry
      (hdec.entry_other i hpos) (by rw [hdec.after])
  · obtain ⟨hbefore, hnew⟩ := hr.allocations.valueValid.mp hvalue
    have hpos : i ≠ pos := by
      rintro rfl
      rw [hr.entry_self, hr.results] at hq
      exact hnew hq
    rw [hr.window] at hi
    rw [hr.entry_other hpos] at hunwritten hq
    exact (hd i hi hunwritten type q hq hbefore).of_entry (hr.entry_other hpos)
      (by rw [hr.after])
  · rw [hv.window] at hi
    rw [(hv.names i).results] at hq
    have hunwritten' : (s.entry i).isWriteBackDone = false := by
      by_cases hpos : i = pos
      · rw [hpos] at hunwritten ⊢
        rw [← Bool.not_eq_true] at hunwritten ⊢
        exact fun hdone => hunwritten (hv.writtenBack_kept hdone)
      · rw [← (hv.stage i hpos).isWriteBackDone, hunwritten]
    rcases (hv.valueValid type q).mp hvalue with hbefore | hl | hm
    · exact hv.done (hd i hi hunwritten' type q hq hbefore)
    · obtain ⟨hres, hup, hdone⟩ := hv.announced _ hl
      rw [ha.separate i hi pos hv.mem hunwritten' hup _ hq hres]
      exact hdone
    · obtain ⟨hres, hup, hwritten⟩ := hv.settled _ hm
      rw [ha.separate i hi pos hv.mem hunwritten' hup _ hq hres, hwritten] at hunwritten
      cases hunwritten
  · have hnodup := h.window_nodup
    rw [hc.window, List.nodup_cons] at hnodup
    have hpos : i ≠ pos := by
      rintro rfl
      exact hnodup.1 hi
    have htables : t.tables = s.tables := by rw [hc.after]
    rw [hc.entry_other i hpos] at hunwritten hq
    rw [htables] at hvalue
    refine (hd i ?_ hunwritten type q hq hvalue).of_entry (hc.entry_other i hpos)
      (by rw [hc.after])
    rw [hc.window]
    exact List.mem_cons_of_mem _ hi

/-! ### The mapping is that of the last renamed writer -/

theorem current_of_step (h : s.Ordered) (hcur : s.Current)
    (hmoves : s.Moves label t) : t.Current := by
  intro i hi hrenamed r hr hlast
  rcases hmoves with ⟨pos, instruction, threadID, -, hdec⟩ | ⟨pos, rest, e, allocated, -, hren⟩ |
    ⟨pos, l, m, hv⟩ | ⟨pos, hc⟩
  · have hnew := hdec.not_mem
    have hpos : i ≠ pos := by
      rintro rfl
      rw [hdec.entry_self] at hrenamed
      cases hrenamed
    have htables : t.tables = s.tables := by rw [hdec.after]
    have hi' : i ∈ s.rob.window := by
      rw [hdec.window] at hi
      simpa [hpos] using hi
    rw [hdec.entry_other i hpos] at hrenamed hr ⊢
    rw [mapped, htables]
    refine hcur i hi' hrenamed r hr fun k hk holder hkren hthread => ?_
    have hkpos : k ≠ pos := fun heq => hnew (heq ▸ hk)
    have hlast' := hlast k (by rw [hdec.window]; exact List.mem_append_left _ hk)
      (by rw [hdec.window]; exact holder.trans (List.sublist_append_left _ _))
    rw [SameThread, hdec.entry_other i hpos, hdec.entry_other k hkpos] at hlast'
    exact hlast' hkren hthread
  · obtain ⟨front, hsplit, hposfront, hposrest, hfront⟩ := hren.split h
    rw [hren.window] at hi
    by_cases hpos : i = pos
    · subst hpos
      rw [hren.entry_self] at hr ⊢
      have hfst : allocated.map Prod.fst = e.instruction.destinations := by
        rw [← e.writes_fst, hren.writes, List.map_map]
        rfl
      rw [← hfst] at hr
      obtain ⟨w, hw, rfl⟩ := List.mem_map.mp hr
      have hmap := hren.allocations.mapping_self (r := w.1) (p := w.2)
        (by rw [hfst]; exact e.instruction.nodup_destinations) hw
      rw [mapped, hren.threadID, hmap, hren.writes]
      exact List.mem_map.mpr ⟨w, hw, rfl⟩
    · rw [hren.entry_other hpos] at hrenamed hr ⊢
      obtain ⟨instruction, threadID, hfresh⟩ := hren.fresh h
      have hfront' : i ∈ front := by
        refine (List.mem_append.mp (hsplit ▸ hi)).resolve_right fun hmem => ?_
        obtain ⟨instruction, threadID, heq⟩ := h.fresh i (hren.decodeBuffer ▸ hmem)
        rw [heq] at hrenamed
        cases hrenamed
      -- the renamed instruction is younger: if it is of the thread, it does not write there
      have hother : (s.entry i).threadID ≠ (s.entry pos).threadID ∨
          (r.1, r.2) ∉ allocated.map Prod.fst := by
        rw [or_iff_not_imp_left, not_not]
        intro hthread hmem
        refine hlast pos (hren.window ▸ hren.mem h) ?_ ?_ ?_ ?_
        · rw [hren.window, hsplit]
          exact sublist_of_mem_append hfront'
        · rw [hren.entry_self]
          exact hren.isRenameDone
        · rw [SameThread, hren.threadID_eq, hren.threadID_eq]
          exact hthread.symm
        · rw [hren.entry_self, ← e.writes_fst, hren.writes, List.map_map]
          exact hmem
      rw [mapped, hren.allocations.mapping_other hother]
      refine hcur i hi hrenamed r hr fun k hk holder hkren hthread => ?_
      have hkpos : k ≠ pos := by
        rintro rfl
        rw [hfresh] at hkren
        cases hkren
      have hlast' := hlast k (by rwa [hren.window]) (by rwa [hren.window])
      rw [SameThread, hren.entry_other hpos, hren.entry_other hkpos] at hlast'
      exact hlast' hkren hthread
  · rw [hv.window] at hi
    rw [(hv.names i).isRenameDone] at hrenamed
    rw [(hv.names i).instruction] at hr
    rw [(hv.names i).writes, (hv.names i).threadID, mapped, hv.archToPhyMapping]
    refine hcur i hi hrenamed r hr fun k hk holder hkren hthread => ?_
    have hlast' := hlast k (by rwa [hv.window]) (by rwa [hv.window])
    rw [SameThread, (hv.names i).threadID, (hv.names k).threadID, (hv.names k).instruction,
      (hv.names k).isRenameDone] at hlast'
    exact hlast' hkren hthread
  · have hnodup := h.window_nodup
    rw [hc.window, List.nodup_cons] at hnodup
    have hpos : i ≠ pos := by
      rintro rfl
      exact hnodup.1 hi
    have htables : t.tables = s.tables := by rw [hc.after]
    rw [hc.entry_other i hpos] at hrenamed hr ⊢
    rw [mapped, htables]
    refine hcur i (by rw [hc.window]; exact List.mem_cons_of_mem _ hi) hrenamed r hr
      fun k hk holder hkren hthread => ?_
    rw [hc.window] at hk holder
    have holder' := sublist_of_cons holder hpos
    have hk' : k ∈ t.rob.window := holder'.subset (List.mem_cons_of_mem _ List.mem_cons_self)
    have hkpos : k ≠ pos := fun heq => hnodup.1 (heq ▸ hk')
    have hlast' := hlast k hk' holder'
    rw [SameThread, hc.entry_other i hpos, hc.entry_other k hkpos] at hlast'
    exact hlast' hkren hthread

/-! ### Ready registers have their values -/

/-- At the rename the mapping of a source is what its latest writer writes. -/
theorem Renames.writes_of_latest (hr : s.Renames t pos rest e allocated) (h : s.Ordered)
    (hcur : s.Current) (hlatest : s.LatestWriter i pos r) :
    (r, some (s.mapped (s.entry pos).threadID r)) ∈ (s.entry i).writes := by
  obtain ⟨front, hsplit, hposfront, hposrest, hfront⟩ := hr.split h
  obtain ⟨holder, hthread, hdest, hlast⟩ := hlatest
  have hi : i ∈ front := mem_of_sublist_append (hsplit ▸ holder) hposrest
  have hmem : i ∈ s.rob.window := by
    rw [hsplit]
    exact List.mem_append_left _ hi
  rw [← hthread]
  refine hcur i hmem (hfront i hi).1 r hdest fun k hk hik hkren hkthread => ?_
  refine hlast k hk hik ?_ (hkthread.trans hthread)
  have hkfront : k ∈ front := by
    refine (List.mem_append.mp (hsplit ▸ hk)).resolve_right fun hmem => ?_
    obtain ⟨instruction, threadID, heq⟩ := h.fresh k (hr.decodeBuffer ▸ hmem)
    rw [heq] at hkren
    cases hkren
  rw [hsplit]
  exact sublist_of_mem_append hkfront

/-- What is older than a renamed instruction was renamed before. -/
theorem Renames.ne_of_older (hr : s.Renames t pos rest e allocated) (h : s.Ordered)
    (hrenamed : (t.entry j).isRenameDone = true) (holder : [i, j].Sublist s.rob.window) :
    i ≠ pos := by
  rintro rfl
  obtain ⟨front, hsplit, hposfront, hposrest, -⟩ := hr.split h
  obtain ⟨instruction, threadID, hfresh⟩ := hr.fresh h
  by_cases hji : j = i
  · rw [hji] at holder
    exact hposfront (mem_of_sublist_append (hsplit ▸ holder) hposrest)
  · rw [hr.entry_other hji] at hrenamed
    obtain ⟨before, between, after, hwindow⟩ := split_of_sublist holder
    have hwindow' : s.rob.window = (before ++ i :: between) ++ j :: after := by
      rw [hwindow, List.append_assoc, List.cons_append]
    have hirenamed := h.isRenameDone_of_before hwindow' hrenamed
      (List.mem_append_right _ List.mem_cons_self)
    rw [hfresh] at hirenamed
    cases hirenamed

theorem Renames.ready_self (hr : s.Renames t pos rest e allocated) (h : s.Ordered)
    (ha : s.Accounted) (hcur : s.Current) (hd : s.Delivered) (hsound : s.Sound .rename)
    (hpart : part ∈ e.parts) (hlatest : s.LatestWriter i pos part.register) :
    (part.ready = true → s.Done i) ∧
      (part.ready = false → (part.register, part.phyReg) ∈ (s.entry i).writes) := by
  have hwrites := hr.writes_of_latest h hcur hlatest
  have hresult : (part.register.1, s.mapped (s.entry pos).threadID part.register) ∈
      (s.entry i).results := ReorderBufferEntry.mem_results.mpr ⟨_, hwrites⟩
  have hi : i ∈ s.rob.window := hlatest.1.subset List.mem_cons_self
  have hdone := done_of_available h ha hd hi hresult
  by_cases hx : e.instruction.operationType = .xchg
  · obtain ⟨h₁, h₂⟩ := hr.exchange hx
    have hready : part.ready = true := by
      rcases List.mem_append.mp hpart with hpart | hpart
      · exact OperandStatus.ready_of_available h₁ hpart
      · exact OperandStatus.ready_of_available h₂ hpart
    refine ⟨fun _ => hdone ?_, fun hmissing => absurd (hready.symm.trans hmissing) (by decide)⟩
    have hsource : part.register ∈ e.instruction.sources := by
      rw [← ReorderBufferEntry.parts_register]
      exact List.mem_map_of_mem hpart
    rw [hr.instruction] at hx hsource
    exact hsound.1 rfl pos (by rw [hr.decodeBuffer]; rfl) hx _ hsource
  · have hlooked : part.phyReg = some (s.mapped (s.entry pos).threadID part.register) ∧
        part.ready = (s.tables part.register.1).isAvailable
          (s.mapped (s.entry pos).threadID part.register) := by
      rcases List.mem_append.mp hpart with hpart | hpart
      · exact ((hr.sources hx).1.parts part hpart).2
      · exact ((hr.sources hx).2.parts part hpart).2
    refine ⟨fun hready => hdone (hlooked.2.symm.trans hready), fun _ => ?_⟩
    rw [hlooked.1]
    exact hwrites

theorem ready_of_step (h : s.Ordered) (ha : s.Accounted) (hcur : s.Current) (hd : s.Delivered)
    (hready : s.Ready) (hsound : s.Sound label) (hmoves : s.Moves label t) : t.Ready := by
  intro j hj hrenamed hissued part hpart i hlatest
  rcases hmoves with ⟨pos, instruction, threadID, -, hdec⟩ |
    ⟨pos, rest, e, allocated, rfl, hr⟩ | ⟨pos, l, m, hv⟩ | ⟨pos, hc⟩
  · have hnew := hdec.not_mem
    have hpos : j ≠ pos := by
      rintro rfl
      rw [hdec.entry_self] at hrenamed
      cases hrenamed
    obtain ⟨holder, hthread, hdest, hlast⟩ := hlatest
    rw [hdec.window] at holder hj
    have holder' := sublist_of_append_singleton holder hpos
    have hi : i ∈ s.rob.window := holder'.subset List.mem_cons_self
    have hipos : i ≠ pos := fun heq => hnew (heq ▸ hi)
    rw [hdec.entry_other j hpos] at hrenamed hissued hpart
    rw [SameThread, hdec.entry_other i hipos, hdec.entry_other j hpos] at hthread
    rw [hdec.entry_other i hipos] at hdest ⊢
    have hbefore := hready j (by simpa [hpos] using hj) hrenamed hissued part hpart i
      ⟨holder', hthread, hdest, fun k hk hik hkj hkthread => ?_⟩
    · exact ⟨fun hp => (hbefore.1 hp).of_entry (hdec.entry_other i hipos) (by rw [hdec.after]),
        hbefore.2⟩
    · have hkpos : k ≠ pos := fun heq => hnew (heq ▸ hk)
      have hlast' := hlast k (by rw [hdec.window]; exact List.mem_append_left _ hk)
        (by rw [hdec.window]; exact hik.trans (List.sublist_append_left _ _))
        (by rw [hdec.window]; exact hkj.trans (List.sublist_append_left _ _))
      rw [SameThread, hdec.entry_other k hkpos, hdec.entry_other j hpos] at hlast'
      exact hlast' hkthread
  · rw [hr.latestWriter] at hlatest
    rw [hr.window] at hj
    have hipos : i ≠ pos := hr.ne_of_older h hrenamed hlatest.1
    rw [hr.entry_other hipos]
    by_cases hpos : j = pos
    · subst hpos
      rw [hr.entry_self] at hpart
      have hself := hr.ready_self h ha hcur hd hsound hpart hlatest
      exact ⟨fun hp => (hself.1 hp).of_entry (hr.entry_other hipos) (by rw [hr.after]), hself.2⟩
    · rw [hr.entry_other hpos] at hrenamed hissued hpart
      have hbefore := hready j hj hrenamed hissued part hpart i hlatest
      exact ⟨fun hp => (hbefore.1 hp).of_entry (hr.entry_other hipos) (by rw [hr.after]),
        hbefore.2⟩
  · rw [hv.latestWriter] at hlatest
    rw [hv.window] at hj
    rw [(hv.names j).isRenameDone] at hrenamed
    have hunissued := hv.unissued hissued
    have hi : i ∈ s.rob.window := hlatest.1.subset List.mem_cons_self
    rw [(hv.names i).writes]
    have hbefore := hready j hj hrenamed hunissued
    refine ⟨fun hp => ?_, fun hp => (hbefore part (hv.missing j part hpart hp) i hlatest).2 hp⟩
    obtain ⟨old, hold, hregister, hphyReg, hwhy⟩ := hv.ready j (h.coherent hj hrenamed)
      (hsound.2 j hj hrenamed hunissued) part hpart hp
    have hold' := hbefore old hold i (by rwa [hregister])
    cases hflag : old.ready with
    | true => exact hv.done (hold'.1 hflag)
    | false =>
      obtain ⟨q, hq, hl⟩ := hwhy.resolve_left (by simp [hflag])
      obtain ⟨hres, hup, hdone⟩ := hv.announced _ hl
      have hwrites := hold'.2 hflag
      rw [hregister, hphyReg, hq] at hwrites
      have hresult : (part.register.1, q) ∈ (s.entry i).results :=
        ReorderBufferEntry.mem_results.mpr ⟨_, hwrites⟩
      cases hwritten : (s.entry i).isWriteBackDone with
      | true => exact hv.done (.inl (h.isWriteBackDone i hi hwritten))
      | false =>
        rw [ha.separate i hi pos hv.mem hwritten hup _ hresult hres]
        exact hdone
  · have hnodup := h.window_nodup
    rw [hc.window, List.nodup_cons] at hnodup
    have hne : ∀ k ∈ t.rob.window, k ≠ pos := fun k hk heq => hnodup.1 (heq ▸ hk)
    have hsub : ∀ k ∈ t.rob.window, k ∈ s.rob.window := by
      intro k hk
      rw [hc.window]
      exact List.mem_cons_of_mem _ hk
    obtain ⟨holder, hthread, hdest, hlast⟩ := hlatest
    have hi : i ∈ t.rob.window := holder.subset List.mem_cons_self
    rw [hc.entry_other j (hne j hj)] at hrenamed hissued hpart
    rw [SameThread, hc.entry_other i (hne i hi), hc.entry_other j (hne j hj)] at hthread
    rw [hc.entry_other i (hne i hi)] at hdest ⊢
    have hbefore := hready j (hsub j hj) hrenamed hissued part hpart i
      ⟨by rw [hc.window]; exact holder.trans (List.sublist_cons_self _ _), hthread, hdest,
        fun k hk hik hkj hkthread => ?_⟩
    · exact ⟨fun hp => (hbefore.1 hp).of_entry (hc.entry_other i (hne i hi)) (by rw [hc.after]),
        hbefore.2⟩
    · rw [hc.window] at hk hik hkj
      have hik' := sublist_of_cons hik (hne i hi)
      have hk' : k ∈ t.rob.window := hik'.subset (List.mem_cons_of_mem _ List.mem_cons_self)
      have hlast' := hlast k hk' hik' (sublist_of_cons hkj (hne k hk'))
      rw [SameThread, hc.entry_other k (hne k hk'), hc.entry_other j (hne j hj)] at hlast'
      exact hlast' hkthread

/-! ### Every run of sound steps -/

variable {cfg : PipelineConfig} {s₀ : Pipeline} {labels : List PipelineLabel}

theorem ready_of_run (hnew : new cfg = some s₀) (run : Run (Guarded Step Sound) s₀ labels s) :
    s.Current ∧ s.Delivered ∧ s.Ready := by
  have hempty := window_new hnew
  refine run.invariant_with (I := fun s => s.Ordered ∧ s.Accounted)
    (J := fun s => s.Current ∧ s.Delivered ∧ s.Ready) ⟨fun i hi => ?_, fun i hi => ?_,
      fun i hi => ?_⟩ (fun labels s hrun => ordered_of_run hnew hrun.of_guarded)
    (fun s label t hI hJ hstep => ?_)
  · rw [hempty] at hi
    cases hi
  · rw [hempty] at hi
    cases hi
  · rw [hempty] at hi
    cases hi
  · obtain ⟨h, ha⟩ := hI
    obtain ⟨hcur, hd, hready⟩ := hJ
    obtain ⟨hsound, hnext⟩ := hstep
    obtain ⟨hmoves, -, -⟩ := moves_of_step h ha hnext
    exact ⟨current_of_step h hcur hmoves, delivered_of_step h ha hd hmoves,
      ready_of_step h ha hcur hd hready hsound hmoves⟩

instance (s : Pipeline) (i : ℕ) : Decidable (s.Done i) := inferInstanceAs (Decidable (_ ∨ _))

instance (s : Pipeline) (i j : ℕ) : Decidable (s.SameThread i j) :=
  inferInstanceAs (Decidable (_ = _))

instance (s : Pipeline) (i j : ℕ) (r : RegisterType × ℕ) : Decidable (s.LatestWriter i j r) :=
  inferInstanceAs (Decidable (_ ∧ _ ∧ _ ∧ _))

instance (s : Pipeline) (pos i : ℕ) : Decidable (s.BlindTo pos i) :=
  decidable_of_iff (∃ d ∈ (s.entry pos).instruction.destinationOperand,
    (s.entry i).Blind d.operandType (s.entry pos).physicalDestinationRegister) Iff.rfl

instance (s : Pipeline) (label : PipelineLabel) (i : ℕ) : Decidable (s.BlindAt label i) :=
  match label with
  | .broadCast pos => inferInstanceAs (Decidable (s.BlindTo pos i))
  | .execComplete pos => inferInstanceAs (Decidable (s.BlindTo pos i))
  | .writeBack _ => inferInstanceAs (Decidable (_ ∧ _))
  | .decode _ _ | .rename | .iwPush | .issue _ | .commit => inferInstanceAs (Decidable False)

instance (s : Pipeline) (label : PipelineLabel) : Decidable (s.Sound label) :=
  inferInstanceAs (Decidable (_ ∧ _))

end Pipeline

end Tejas
