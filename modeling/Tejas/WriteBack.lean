import Tejas.CacheLineViews
import Tejas.WriteThrough

/-!
# Write-back of modified lines

A write-back cache keeps an accepted write in a line that is MODIFIED, and writes the line
to the next level when it is replaced. The write is lost where the line is not marked or
loses its mark in another way: a write hits a clean line of a cache without a directory,
a modified line is invalidated or made clean, or is replaced in a cache with a directory.
-/

namespace Tejas.HierarchyCache
open LabelledRuns

variable {C : Type} {cfg : HierarchyConfig C} {s t u : HierarchyCache C} {addr a : Address}
  {missList events : List (AddressCarryingEvent C)} {event : AddressCarryingEvent C}
  {more : List (CacheRecord C)} {x : CacheAccess C} {label : Action C}
  {labels : List (Action C)} {m : MSHR C}

def stateOf (cfg : HierarchyConfig C) (s : HierarchyCache C) (addr : Address) : MESI :=
  s.lines.stateAt cfg.geometry addr

/-- A write for the line waits, or the line is modified. -/
def Dirty (cfg : HierarchyConfig C) (s : HierarchyCache C) (addr : Address) : Prop :=
  s.HoldsWrite cfg addr ∨ s.stateOf cfg addr = .modified

/-! ### Where a write is lost -/

/-- A write hits a line that is not modified, and there is no directory to ask. -/
def HitsClean (cfg : HierarchyConfig C) (s : HierarchyCache C) (x : CacheAccess C) : Prop :=
  x.isWrite = true ∧ cfg.coherent = false ∧ s.isAddrInMSHR cfg x.address = false ∧
    s.stateOf cfg x.address ≠ .invalid ∧ s.stateOf cfg x.address ≠ .modified

/-- One of the requests that `processEventsInPendingList` handles hits a clean line. -/
def PendingHitsClean (cfg : HierarchyConfig C) : HierarchyCache C → List (CacheAccess C) → Prop
  | _, [] => False
  | s, x :: rest =>
    if s.isMSHRFull cfg x.address then
      PendingHitsClean cfg { s with eventsWaitingOnMSHR := s.eventsWaitingOnMSHR ++ [x] } rest
    else s.HitsClean cfg x ∨ PendingHitsClean cfg (s.handleRequest cfg x) rest

/-- The list of a line invalidates it after it has been written. -/
def ListLoses (missList : List (AddressCarryingEvent C)) (state : MESI) : Prop :=
  hasEviction missList = true ∧
    (hasWrite (beforeEviction missList) = true ∨ state = .modified)

/-- `processEventsInMSHR` loses a write. -/
def ServeLoses (cfg : HierarchyConfig C) (s : HierarchyCache C) (addr : Address) : Prop :=
  ∃ p ∈ s.mshr.removeEventsFromMSHR cfg.geometry.blockSizeBits addr,
    ListLoses p.1 (s.stateOf cfg addr) ∨
      ∃ u ∈ processEvents cfg addr p.1 false { s with mshr := p.2 } p.1,
        PendingHitsClean cfg { u with eventsWaitingOnMSHR := [] } u.eventsWaitingOnMSHR

/-- `fillAndSatisfyRequests` overwrites a modified line, replaces one in a cache with a
directory, or loses a write afterwards. -/
def FillLoses (cfg : HierarchyConfig C) (s : HierarchyCache C) (addr : Address) : Prop :=
  s.stateOf cfg addr = .modified ∨
    ∃ p ∈ s.lines.fill cfg.geometry (s.isAddrInMSHR cfg) addr .shared,
      (cfg.coherent = true ∧ ∃ victim ∈ p.2, victim.state = .modified) ∨
        ∃ u ∈ handleEvictedLine cfg { s with lines := p.1 } p.2, u.ServeLoses cfg addr

def EventLoses (cfg : HierarchyConfig C) (s : HierarchyCache C)
    (event : AddressCarryingEvent C) : Prop :=
  match event.request with
  | .cacheWrite c => s.HitsClean cfg ⟨c, true, event.address⟩
  | .fromDirectory (.evictCacheLine _) =>
    s.isAddrInMSHR cfg event.address = false ∧ s.stateOf cfg event.address = .modified
  | .memResponse _ _ =>
    s.hasLineFor cfg event.address = true ∧ s.FillLoses cfg event.address
  | .fromDirectory (.memResponse _) =>
    s.hasLineFor cfg event.address = true ∧ s.FillLoses cfg event.address
  | .fromDirectory (.ackEvictCacheLine _) => s.ServeLoses cfg event.address
  | .fromDirectory (.directoryCachelineForwardRequest _ _) =>
    s.stateOf cfg event.address = .modified
  | .fromDirectory (.directorySharedToExclusive _) => s.stateOf cfg event.address = .modified
  | .fromDirectory (.ackDirectoryWriteHit _) => s.ServeLoses cfg event.address
  | _ => False

/-- The action loses a write. -/
def Loses (cfg : HierarchyConfig C) (s : HierarchyCache C) : Action C → Prop
  | .deliver i =>
    ∃ event ∈ s.queue[i]?, EventLoses cfg { s with queue := s.queue.eraseIdx i } event
  | .redeliver i =>
    ∃ p ∈ s.requeued[i]?, EventLoses cfg { s with requeued := s.requeued.eraseIdx i } p.2
  | .setState addr state => s.stateOf cfg addr = .modified ∧ state ≠ .modified
  | _ => False

/-! ### What a part of a step keeps -/

structure Keeps (cfg : HierarchyConfig C) (s t : HierarchyCache C)
    (more : List (CacheRecord C)) : Prop where
  tagged : t.lines.Tagged cfg.geometry
  mshr : t.mshr.WellFormed cfg.geometry.blockSizeBits
  history : t.history = s.history ++ more
  kept : ∀ a, s.Dirty cfg a → t.Dirty cfg a ∨ WritesBelow cfg.geometry more a
  settled : Settled cfg.geometry (t.Dirty cfg) more

theorem Keeps.trans {more' : List (CacheRecord C)} (h : Keeps cfg s t more)
    (h' : Keeps cfg t u more') : Keeps cfg s u (more ++ more') where
  tagged := h'.tagged
  mshr := h'.mshr
  history := by rw [h'.history, h.history, List.append_assoc]
  kept := by
    intro a ha
    rcases h.kept a ha with ha | ha
    · exact (h'.kept a ha).imp_right (WritesBelow.append_left _)
    · exact Or.inr ha.append_right
  settled := h.settled.append h'.settled h'.kept

theorem Settled.mono {g : Geometry} {holds holds' : Address → Prop} (h : Settled g holds more)
    (himp : ∀ a, holds a → holds' a) : Settled g holds' more := by
  have hnil : Settled g holds' ([] : List (CacheRecord C)) := trivial
  have hall : Settled g holds' (more ++ []) := h.append hnil (fun a ha => Or.inl (himp a ha))
  rwa [List.append_nil] at hall

/-- A part that keeps the waiting writes and the modified lines. -/
theorem keeps_of_forwards (h : Forwards cfg s t more) (ht : t.lines.Tagged cfg.geometry)
    (hstate : ∀ a, s.stateOf cfg a = .modified →
      t.stateOf cfg a = .modified ∨ WritesBelow cfg.geometry more a) :
    Keeps cfg s t more where
  tagged := ht
  mshr := h.mshr
  history := h.history
  kept := by
    intro a ha
    rcases ha with ha | ha
    · exact (h.kept a ha).imp_left Or.inl
    · exact (hstate a ha).imp_left Or.inr
  settled := h.settled.mono (fun a ha => Or.inl ha)

theorem stateOf_of_lines (h : t.lines = s.lines) : t.stateOf cfg a = s.stateOf cfg a := by
  rw [stateOf, h, stateOf]

theorem keeps_of_lines (h : Forwards cfg s t more) (ht : s.lines.Tagged cfg.geometry)
    (hlines : t.lines = s.lines) : Keeps cfg s t more :=
  keeps_of_forwards h (hlines ▸ ht)
    (fun _ ha => Or.inl ((stateOf_of_lines hlines).trans ha))

theorem dirty_congr (h : cfg.geometry.SameLine a addr) (ha : s.Dirty cfg a) :
    s.Dirty cfg addr := by
  rcases ha with ha | ha
  · exact Or.inl (holdsWrite_congr h ha)
  · exact Or.inr ((LineArray.stateAt_congr h).symm.trans ha)

/-! ### Requests -/

/-- A request changes neither the tags nor the states of the lines. -/
theorem tagged_handleRequest (ht : s.lines.Tagged cfg.geometry) (x : CacheAccess C) :
    (s.handleRequest cfg x).lines.Tagged cfg.geometry ∧
      ∀ a, (s.handleRequest cfg x).stateOf cfg a = s.stateOf cfg a := by
  rcases handleRequest_lines cfg s x with heq | ⟨i, heq⟩
  · exact ⟨heq ▸ ht, fun a => stateOf_of_lines heq⟩
  · obtain ⟨htagged, -, hstate⟩ :=
      LineArray.Tagged.of_timestamps ht (LineArray.mark_lines s.lines i)
    refine ⟨heq ▸ htagged, ?_⟩
    intro a
    rw [stateOf, heq]
    exact hstate a

/-- A request is recorded, and puts nothing back. -/
theorem handleRequest_history (cfg : HierarchyConfig C) (s : HierarchyCache C)
    (x : CacheAccess C) : (s.handleRequest cfg x).requeued = s.requeued ∧
      ∃ more, (s.handleRequest cfg x).history = s.history ++ .accepts x :: more ∧
        ∀ y, .accepts y ∉ more := by
  have hlines : (s.record (.accepts x)).lines = s.lines := rfl
  unfold handleRequest
  split
  · exact ⟨rfl, [], rfl, by simp⟩
  · rw [handleAccess, LineArray.accessAndMark, hlines]
    cases s.lines.accessValid cfg.geometry x.address with
    | none =>
      dsimp only [cacheMiss]
      split
      · exact ⟨rfl, _, List.append_assoc _ _ _, by simp⟩
      · exact ⟨rfl, _, List.append_assoc _ _ _, by simp⟩
    | some i =>
      dsimp only [cacheHit]
      split
      · by_cases hthrough : cfg.writePolicy = .writeThrough
        · rw [if_pos hthrough]
          split
          · refine ⟨rfl, [.writesBelow x.address,
              .tellsDirectory (.directoryWriteHit cfg.self) x.address], ?_, by simp⟩
            simp [addToMSHR, sendRequestToNextLevel, record]
          · refine ⟨rfl, [.writesBelow x.address, .writesLine x.address], ?_, by simp⟩
            simp [sendRequestToNextLevel, record]
        · rw [if_neg hthrough]
          split
          · exact ⟨rfl, _, List.append_assoc _ _ _, by simp⟩
          · exact ⟨rfl, _, List.append_assoc _ _ _, by simp⟩
      · exact ⟨rfl, _, List.append_assoc _ _ _, by simp⟩

/-- A write that is handled waits in the register, or its line is modified. -/
theorem dirty_handleRequest (ht : s.lines.Tagged cfg.geometry)
    (hm : s.mshr.WellFormed cfg.geometry.blockSizeBits) (hwrite : x.isWrite = true)
    (hclean : ¬ s.HitsClean cfg x) : (s.handleRequest cfg x).Dirty cfg x.address := by
  by_cases hregisters : s.registers cfg x = true
  · left
    have hmshr := handleRequest_mshr cfg s x
    rw [if_pos hregisters] at hmshr
    have hheld : (s.addToMSHR cfg x.event).HoldsWrite cfg x.address :=
      holdsWrite_addToMSHR hm ((event_isCacheWrite x).trans hwrite)
    exact holdsWrite_of_eq (s := s.addToMSHR cfg x.event) hmshr
      (handleRequest_history cfg s x).1 hheld
  · right
    rw [(tagged_handleRequest ht x).2]
    rw [registers, Bool.or_eq_true, not_or, Bool.not_eq_true] at hregisters
    obtain ⟨hunlocked, hhit⟩ := hregisters
    by_contra hstate
    split at hhit
    · exact hhit rfl
    · rename_i i hfound
      obtain ⟨haccess, hvalid⟩ := Option.filter_eq_some_iff.mp hfound
      have hstateOf : s.stateOf cfg x.address = (s.lines.lines i).state := by
        rw [stateOf, LineArray.stateAt, haccess]
      have hne : s.stateOf cfg x.address ≠ .invalid := by
        rw [hstateOf]
        simpa [CacheLine.isValid] using hvalid
      cases hcoherent : cfg.coherent with
      | false => exact hclean ⟨hwrite, hcoherent, hunlocked, hne, hstate⟩
      | true =>
        apply hhit
        rw [hwrite, hcoherent, Bool.true_and, Bool.true_and, decide_eq_true_eq, ← hstateOf]
        cases hkind : s.stateOf cfg x.address with
        | shared => exact Or.inl rfl
        | exclusive => exact Or.inr rfl
        | modified => exact absurd hkind hstate
        | invalid => exact absurd hkind hne

theorem keeps_handleRequest (ht : s.lines.Tagged cfg.geometry)
    (hm : s.mshr.WellFormed cfg.geometry.blockSizeBits) (hclean : ¬ s.HitsClean cfg x) :
    ∃ more, Keeps cfg s (s.handleRequest cfg x) more := by
  obtain ⟨hrequeued, more, hhistory, hnone⟩ := handleRequest_history cfg s x
  obtain ⟨htagged, hstate⟩ := tagged_handleRequest ht x
  refine ⟨_, htagged, wellFormed_handleRequest hm x, hhistory, ?_, ?_, settled_of_none hnone⟩
  · intro a ha
    left
    rcases ha with (⟨e, he, hwrite⟩ | hback) | ha
    · refine Or.inl (Or.inl ⟨e, ?_, hwrite⟩)
      rw [handleRequest_mshr]
      split
      · rw [MSHR.waiting_addToMSHR hm]
        split
        · exact List.mem_append_left _ he
        · exact he
      · exact he
    · exact Or.inl (Or.inr (hrequeued ▸ hback))
    · exact Or.inr ((hstate a).trans ha)
  · exact fun hwrite => Or.inl (dirty_handleRequest ht hm hwrite hclean)

theorem keeps_pendingLoop (accesses : List (CacheAccess C)) (ht : s.lines.Tagged cfg.geometry)
    (hm : s.mshr.WellFormed cfg.geometry.blockSizeBits)
    (hclean : ¬ PendingHitsClean cfg s accesses) :
    ∃ more, Keeps cfg s (pendingLoop cfg s accesses) more := by
  induction accesses generalizing s with
  | nil =>
    exact ⟨[], keeps_of_lines
      (forwards_of_eq hm rfl rfl (List.append_nil _).symm (by simp)) ht rfl⟩
  | cons x rest ih =>
    rw [pendingLoop]
    rw [PendingHitsClean] at hclean
    split
    · rename_i hfull
      rw [if_pos hfull] at hclean
      have hparked : Keeps cfg s
          { s with eventsWaitingOnMSHR := s.eventsWaitingOnMSHR ++ [x] } [] :=
        keeps_of_lines (forwards_of_eq hm rfl rfl (List.append_nil _).symm (by simp)) ht rfl
      obtain ⟨more, hrest⟩ := ih (s := { s with
        eventsWaitingOnMSHR := s.eventsWaitingOnMSHR ++ [x] }) ht hm hclean
      exact ⟨_, hparked.trans hrest⟩
    · rename_i hfree
      rw [if_neg hfree, not_or] at hclean
      obtain ⟨more, hhandled⟩ := keeps_handleRequest ht hm hclean.1
      obtain ⟨more', hrest⟩ := ih hhandled.tagged hhandled.mshr hclean.2
      exact ⟨_, hhandled.trans hrest⟩

/-! ### Changes of state -/

theorem stateOf_update {newState : MESI} (h : UpdatesState cfg s addr newState t) :
    t.stateOf cfg a = if cfg.geometry.SameLine a addr ∧
      (s.lines.access cfg.geometry addr).isSome then newState else s.stateOf cfg a := by
  rw [stateOf, h.lines, LineArray.stateAt_setState, stateOf]

/-- A change that does not make a modified line clean. -/
theorem keeps_updateState (ht : s.lines.Tagged cfg.geometry)
    (hm : s.mshr.WellFormed cfg.geometry.blockSizeBits) {newState : MESI}
    (hstate : s.stateOf cfg addr = .modified → newState = .modified)
    (h : s.updateStateOfCacheLine cfg addr newState = some t) : ∃ more, Keeps cfg s t more := by
  have hupdate := updateStateOfCacheLine_eq_some h
  obtain ⟨more, hforwards⟩ := forwards_updateState hm h
  refine ⟨more, keeps_of_forwards hforwards ?_ ?_⟩
  · rw [hupdate.lines]
    exact LineArray.tagged_setState ht newState
  · intro a ha
    left
    rw [stateOf_update hupdate]
    split
    · rename_i hsame
      exact hstate ((LineArray.stateAt_congr hsame.1).symm.trans ha)
    · exact ha

/-- The loop over the waiting events changes the state of its line only, and leaves it
modified if it was or if there are writes, unless there is an eviction. -/
theorem processEvents_states {written : Bool} (ht : s.lines.Tagged cfg.geometry)
    (h : processEvents cfg addr missList written s events = some t) :
    t.lines.Tagged cfg.geometry ∧
      (∀ a, ¬ cfg.geometry.SameLine a addr → t.stateOf cfg a = s.stateOf cfg a) ∧
      (hasEviction events = false →
        hasWrite events = true ∨ s.stateOf cfg addr = .modified →
          t.stateOf cfg addr = .modified) := by
  induction events generalizing s written with
  | nil =>
    have hlines : t.lines = s.lines := by
      cases h
      split <;> rfl
    refine ⟨hlines ▸ ht, fun a _ => stateOf_of_lines hlines, ?_⟩
    rintro - (hwrite | hmodified)
    · cases hwrite
    · exact (stateOf_of_lines hlines).trans hmodified
  | cons event rest ih =>
    rw [processEvents] at h
    split at h
    · rename_i requester hkind
      obtain ⟨htagged, hothers, hown⟩ :=
        ih (s := s.record (.responds requester event.address)) ht h
      refine ⟨htagged, hothers, ?_⟩
      intro hevict hdirty
      refine hown (by simpa [hasEviction, hkind, MissKind.isEviction] using hevict) ?_
      exact hdirty.imp_left
        (fun hwrite => by simpa [hasWrite, hkind, MissKind.isWrite] using hwrite)
    · rename_i hkind
      split at h
      · cases h
      · rename_i i hfound
        obtain ⟨u, hu, hrest⟩ := Option.bind_eq_some_iff.mp h
        have hupdate := updateStateOfCacheLine_eq_some hu
        have htagged' : (u.record (.writesLine addr)).lines.Tagged cfg.geometry := by
          have hlines : (u.record (.writesLine addr)).lines = _ := hupdate.lines
          rw [hlines]
          exact LineArray.tagged_setState ht .modified
        obtain ⟨htagged, hothers, hown⟩ := ih htagged' hrest
        have haccess := (Option.filter_eq_some_iff.mp hfound).1
        have hmodified : u.stateOf cfg addr = .modified := by
          rw [stateOf_update hupdate, if_pos]
          exact ⟨cfg.geometry.sameLine_refl _, by rw [haccess]; rfl⟩
        refine ⟨htagged, ?_, ?_⟩
        · intro a ha
          have hsame : u.stateOf cfg a = s.stateOf cfg a := by
            rw [stateOf_update hupdate, if_neg (fun hboth => ha hboth.1)]
          exact (hothers a ha).trans hsame
        · intro hevict _
          refine hown ?_ (Or.inr hmodified)
          simpa [hasEviction, hkind, MissKind.isEviction] using hevict
    · rename_i hkind
      obtain ⟨u, hu, rfl⟩ := Option.map_eq_some_iff.mp h
      have hupdate := updateStateOfCacheLine_eq_some hu
      refine ⟨?_, ?_, ?_⟩
      · dsimp only
        rw [hupdate.lines]
        exact LineArray.tagged_setState ht .invalid
      · intro a ha
        have hsame : u.stateOf cfg a = s.stateOf cfg a := by
          rw [stateOf_update hupdate, if_neg (fun hboth => ha hboth.1)]
        exact hsame
      · intro hevict
        simp [hasEviction, hkind, MissKind.isEviction] at hevict
    · rename_i hkind
      obtain ⟨htagged, hothers, hown⟩ := ih ht h
      refine ⟨htagged, hothers, ?_⟩
      simpa [hasEviction, hasWrite, hkind, MissKind.isEviction, MissKind.isWrite] using hown

/-! ### Events -/

/-- The writes of the list make the line modified, or are put back. -/
theorem keeps_processEvents (ht : s.lines.Tagged cfg.geometry)
    (hm : s.mshr.WellFormed cfg.geometry.blockSizeBits)
    (hremoved : s.mshr.removeEventsFromMSHR cfg.geometry.blockSizeBits addr = some (missList, m))
    (hlist : ¬ ListLoses missList (s.stateOf cfg addr))
    (h : processEvents cfg addr missList false { s with mshr := m } missList = some u) :
    ∃ more, Keeps cfg s u more := by
  obtain ⟨more, hserves⟩ := processEvents_serves h
  obtain ⟨hwaiting, hm', hothers⟩ := MSHR.removeEvents_spec hm hremoved
  have ht' : ({ s with mshr := m } : HierarchyCache C).lines.Tagged cfg.geometry := ht
  obtain ⟨htagged, hother, hown⟩ := processEvents_states ht' h
  refine ⟨more, htagged, hserves.mshr ▸ hm', hserves.history, ?_,
    settled_of_none hserves.accepts⟩
  intro a ha
  left
  rcases ha with (⟨e, he, hwrite⟩ | ⟨p, hp, hwrite, hsame⟩) | ha
  · by_cases hline : cfg.geometry.SameLine a addr
    · rw [MSHR.waiting_congr hline, hwaiting] at he
      have hkind := (isCacheWrite_eq e).symm.trans hwrite
      cases hevict : hasEviction missList with
      | false =>
        have hany : hasWrite missList = true := List.any_eq_true.mpr ⟨e, he, hkind⟩
        exact dirty_congr hline.symm (Or.inr (hown hevict (Or.inl hany)))
      | true =>
        have hbefore : hasWrite (beforeEviction missList) = false := by
          rw [← Bool.not_eq_true]
          exact fun hwrite => hlist ⟨hevict, Or.inl hwrite⟩
        obtain ⟨p, hp, rfl⟩ := hserves.write_behind hbefore he hkind
        have hofLine := MSHR.waiting_line hm (hwaiting.symm ▸ he)
        exact Or.inl (Or.inr ⟨p, hp, hwrite, hofLine.trans hline.symm⟩)
    · refine Or.inl (Or.inl ⟨e, ?_, hwrite⟩)
      have hkept : u.mshr.waiting cfg.geometry.blockSizeBits a =
          s.mshr.waiting cfg.geometry.blockSizeBits a := by
        rw [hserves.mshr, hothers]
        exact if_neg hline
      rw [hkept]
      exact he
  · refine Or.inl (Or.inr ⟨p, ?_, hwrite, hsame⟩)
    rw [hserves.putBack]
    exact List.mem_append_left _ hp
  · by_cases hline : cfg.geometry.SameLine a addr
    · have hmodified : s.stateOf cfg addr = .modified :=
        (LineArray.stateAt_congr hline).symm.trans ha
      have hevict : hasEviction missList = false := by
        rw [← Bool.not_eq_true]
        exact fun hevict => hlist ⟨hevict, Or.inr hmodified⟩
      exact dirty_congr hline.symm (Or.inr (hown hevict (Or.inr hmodified)))
    · exact Or.inr ((hother a hline).trans ha)

theorem keeps_processEventsInMSHR (ht : s.lines.Tagged cfg.geometry)
    (hm : s.mshr.WellFormed cfg.geometry.blockSizeBits) (hclear : ¬ s.ServeLoses cfg addr)
    (h : s.processEventsInMSHR cfg addr = some t) : ∃ more, Keeps cfg s t more := by
  obtain ⟨missList, m, u, hremoved, hprocessed, rfl⟩ := processEventsInMSHR_eq_some h
  have hlist : ¬ ListLoses missList (s.stateOf cfg addr) :=
    fun hloses => hclear ⟨(missList, m), hremoved, Or.inl hloses⟩
  have hpending : ¬ PendingHitsClean cfg { u with eventsWaitingOnMSHR := [] }
      u.eventsWaitingOnMSHR :=
    fun hhits => hclear ⟨(missList, m), hremoved, Or.inr ⟨u, hprocessed, hhits⟩⟩
  obtain ⟨more, hserved⟩ := keeps_processEvents ht hm hremoved hlist hprocessed
  have htaken : Keeps cfg u { u with eventsWaitingOnMSHR := [] } [] :=
    keeps_of_lines (forwards_of_eq hserved.mshr rfl rfl (List.append_nil _).symm (by simp))
      hserved.tagged rfl
  obtain ⟨more', hrest⟩ := keeps_pendingLoop _ htaken.tagged htaken.mshr hpending
  exact ⟨_, (hserved.trans htaken).trans hrest⟩

/-- A fill writes back the line that it replaces. -/
theorem keeps_fill (hback : cfg.writePolicy = .writeBack) (ht : s.lines.Tagged cfg.geometry)
    (hm : s.mshr.WellFormed cfg.geometry.blockSizeBits) (haddr : s.stateOf cfg addr ≠ .modified)
    {lines : LineArray Unit} {evictedLine : Option (CacheLine Unit)}
    (hfill : s.lines.fill cfg.geometry (s.isAddrInMSHR cfg) addr .shared =
      some (lines, evictedLine))
    (hvictim : ¬ (cfg.coherent = true ∧ ∃ victim ∈ evictedLine, victim.state = .modified))
    (h : handleEvictedLine cfg { s with lines := lines } evictedLine = some u) :
    ∃ more, Keeps cfg s u more := by
  have hfilled := LineArray.fill_spec ht hfill
  obtain ⟨more, hforwards, hwrites⟩ :=
    forwards_handleEvictedLine (s := { s with lines := lines }) hm h
  have hlines : u.lines = lines := lines_handleEvictedLine h
  have hforwards' : Forwards cfg s u more :=
    ⟨hforwards.mshr, hforwards.history, hforwards.kept, hforwards.settled⟩
  refine ⟨more, keeps_of_forwards hforwards' (hlines ▸ hfilled.tagged) ?_⟩
  intro a ha
  have hne : ¬ cfg.geometry.SameLine a addr := by
    intro hsame
    exact haddr ((LineArray.stateAt_congr hsame).symm.trans ha)
  have hstate : u.stateOf cfg a = lines.stateAt cfg.geometry a := by rw [stateOf, hlines]
  rw [hstate]
  cases hevicted : evictedLine with
  | none => exact Or.inl ((hfilled.kept hevicted a hne).trans ha)
  | some victim =>
    obtain ⟨-, -, -, hvictimState, hothers⟩ := hfilled.victim victim hevicted
    by_cases hsame : cfg.geometry.SameLine a victim.address
    · right
      have hmodified : victim.state = .modified :=
        hvictimState.symm.trans ((LineArray.stateAt_congr hsame).symm.trans ha)
      have hplain : cfg.coherent = false := by
        rw [← Bool.not_eq_true]
        exact fun hcoherent => hvictim ⟨hcoherent, victim, hevicted, hmodified⟩
      exact ⟨victim.address, hwrites hplain hback victim hevicted hmodified, hsame.symm⟩
    · left
      rw [hothers a hne, if_neg hsame]
      exact ha

theorem keeps_handleMemResponse (hback : cfg.writePolicy = .writeBack)
    (ht : s.lines.Tagged cfg.geometry) (hm : s.mshr.WellFormed cfg.geometry.blockSizeBits)
    (hclear : ¬ (s.hasLineFor cfg event.address = true ∧ s.FillLoses cfg event.address))
    (h : s.handleMemResponse cfg event = some t) : ∃ more, Keeps cfg s t more := by
  unfold handleMemResponse at h
  split at h
  · rename_i hline
    have hfill : ¬ s.FillLoses cfg event.address := fun hloses => hclear ⟨hline, hloses⟩
    rw [FillLoses, not_or] at hfill
    obtain ⟨lines, evictedLine, u, hlines, hevicted, hprocessed⟩ :=
      fillAndSatisfyRequests_eq_some h
    have hvictim : ¬ (cfg.coherent = true ∧ ∃ victim ∈ evictedLine, victim.state = .modified) :=
      fun hvictim => hfill.2 ⟨(lines, evictedLine), hlines, Or.inl hvictim⟩
    have hserve : ¬ u.ServeLoses cfg event.address :=
      fun hserve => hfill.2 ⟨(lines, evictedLine), hlines, Or.inr ⟨u, hevicted, hserve⟩⟩
    obtain ⟨more, hfilled⟩ := keeps_fill hback ht hm hfill.1 hlines hvictim hevicted
    obtain ⟨more', hserved⟩ :=
      keeps_processEventsInMSHR hfilled.tagged hfilled.mshr hserve hprocessed
    exact ⟨_, hfilled.trans hserved⟩
  · cases h
    exact ⟨[], keeps_of_lines
      (forwards_of_eq hm rfl rfl (List.append_nil _).symm (by simp)) ht rfl⟩

/-- An event that loses no write; a write that is handled is kept too. -/
theorem keeps_handleEvent (hback : cfg.writePolicy = .writeBack)
    (ht : s.lines.Tagged cfg.geometry) (hm : s.mshr.WellFormed cfg.geometry.blockSizeBits)
    (hclear : ¬ s.EventLoses cfg event) (h : s.handleEvent cfg event = some t) :
    (∃ more, Keeps cfg s t more) ∧
      (MSHR.isCacheWrite event = true → t.Dirty cfg event.address) := by
  obtain ⟨request, address⟩ := event
  unfold EventLoses at hclear
  unfold handleEvent at h
  have hsame : Keeps cfg s s [] :=
    keeps_of_lines (forwards_of_eq hm rfl rfl (List.append_nil _).symm (by simp)) ht rfl
  have hother : (∃ more, Keeps cfg s t more) →
      MSHR.isCacheWrite (⟨request, address⟩ : AddressCarryingEvent C) = false →
      (∃ more, Keeps cfg s t more) ∧
        (MSHR.isCacheWrite (⟨request, address⟩ : AddressCarryingEvent C) = true →
          t.Dirty cfg address) := by
    intro hkeeps hread
    refine ⟨hkeeps, ?_⟩
    intro hwrite
    rw [hread] at hwrite
    cases hwrite
  split at h
  · rename_i c heq
    dsimp only at heq h
    cases heq
    cases h
    refine hother (keeps_handleRequest ht hm ?_) rfl
    rintro ⟨hwrite, -⟩
    cases hwrite
  · rename_i c heq
    dsimp only at heq h hclear
    cases heq
    cases h
    exact ⟨keeps_handleRequest ht hm hclear,
      fun _ => dirty_handleRequest (x := ⟨c, true, address⟩) ht hm rfl hclear⟩
  · rename_i c heq
    dsimp only at heq h hclear
    cases heq
    apply hother _ rfl
    split at h
    · cases h
      exact ⟨_, keeps_of_lines (forwards_addToMSHR hm _) ht rfl⟩
    · rename_i hunlocked
      refine keeps_updateState ht hm ?_ h
      intro hmodified
      exact absurd ⟨(Bool.not_eq_true _).mp hunlocked, hmodified⟩ hclear
  · rename_i heq
    dsimp only at heq
    cases heq
    exact hother (keeps_handleMemResponse hback ht hm hclear h) rfl
  · rename_i heq
    dsimp only at heq
    cases heq
    exact hother (keeps_handleMemResponse hback ht hm hclear h) rfl
  · rename_i heq
    dsimp only at heq
    cases heq
    exact hother (keeps_processEventsInMSHR ht hm hclear h) rfl
  · rename_i heq
    dsimp only at heq
    cases heq
    apply hother _ rfl
    obtain ⟨u, hupdate, rfl⟩ := Option.map_eq_some_iff.mp h
    obtain ⟨more, hkeeps⟩ :=
      keeps_updateState ht hm (fun hmodified => absurd hmodified hclear) hupdate
    exact ⟨_, hkeeps.trans (keeps_of_lines
      (forwards_record hkeeps.mshr (fun _ h => by cases h)) hkeeps.tagged rfl)⟩
  · rename_i heq
    dsimp only at heq
    cases heq
    exact hother (keeps_updateState ht hm (fun hmodified => absurd hmodified hclear) h) rfl
  · rename_i heq
    dsimp only at heq
    cases heq
    apply hother _ rfl
    unfold handleAckDirectoryWriteHit at h
    split at h
    · cases h
    · exact keeps_processEventsInMSHR ht hm hclear h
  · rename_i hread hwrite _ _ _ _ _ _ _
    cases h
    apply hother ⟨[], hsame⟩
    cases request with
    | cacheWrite c => exact absurd rfl (hwrite c)
    | _ => rfl

/-! ### Runs -/

/-- The accepted writes wait, are in modified lines, or have been written back. -/
structure Tracks (cfg : HierarchyConfig C) (s : HierarchyCache C) : Prop where
  tagged : s.lines.Tagged cfg.geometry
  mshr : s.mshr.WellFormed cfg.geometry.blockSizeBits
  settled : Settled cfg.geometry (s.Dirty cfg) s.history

theorem Tracks.keeps (h : Tracks cfg s) (hkeeps : Keeps cfg s t more) : Tracks cfg t where
  tagged := hkeeps.tagged
  mshr := hkeeps.mshr
  settled := by
    rw [hkeeps.history]
    exact h.settled.append hkeeps.settled hkeeps.kept

theorem tracks_initial : Tracks cfg initial where
  tagged := LineArray.tagged_new _
  mshr := MSHR.wellFormed_empty
  settled := trivial

theorem Tracks.quiet (h : Tracks cfg s) (hlines : t.lines = s.lines) (hmshr : t.mshr = s.mshr)
    (hrequeued : t.requeued = s.requeued) (hhistory : t.history = s.history ++ more)
    (hnone : ∀ x, .accepts x ∉ more) : Tracks cfg t :=
  h.keeps (keeps_of_lines (forwards_of_eq h.mshr hmshr hrequeued hhistory hnone) h.tagged hlines)

theorem Tracks.step (hback : cfg.writePolicy = .writeBack) (h : Tracks cfg s)
    (hclear : ¬ s.Loses cfg label) (hstep : Step cfg s label t) : Tracks cfg t := by
  cases label with
  | request x =>
    cases hstep
    have hhistory : s.history ++ [.requested x] = s.history ++ [.requested x] := rfl
    unfold addEventAtLowerCache
    split
    · exact h.quiet rfl rfl rfl hhistory (by simp)
    · exact h.quiet rfl rfl rfl hhistory (by simp)
  | post event =>
    cases hstep
    exact h.quiet rfl rfl rfl (List.append_nil _).symm (by simp)
  | answer i =>
    unfold Step StepOf next at hstep
    dsimp only at hstep
    split at hstep
    · cases hstep
    · cases hstep
      exact h.quiet rfl rfl rfl (List.append_nil _).symm (by simp)
  | deliver i =>
    unfold Step StepOf next at hstep
    dsimp only at hstep
    split at hstep
    · cases hstep
    · rename_i event hfound
      have htaken : Tracks cfg { s with queue := s.queue.eraseIdx i } :=
        h.quiet rfl rfl rfl (List.append_nil _).symm (by simp)
      have hclear' : ¬ EventLoses cfg { s with queue := s.queue.eraseIdx i } event :=
        fun hloses => hclear ⟨event, hfound, hloses⟩
      obtain ⟨⟨more, hkeeps⟩, -⟩ :=
        keeps_handleEvent hback htaken.tagged htaken.mshr hclear' hstep
      exact htaken.keeps hkeeps
  | redeliver i =>
    unfold Step StepOf next at hstep
    dsimp only at hstep
    split at hstep
    · cases hstep
    · rename_i time event hfound
      have hclear' : ¬ EventLoses cfg { s with requeued := s.requeued.eraseIdx i } event :=
        fun hloses => hclear ⟨(time, event), hfound, hloses⟩
      obtain ⟨⟨more, hkeeps⟩, hcovered⟩ := keeps_handleEvent
        (s := { s with requeued := s.requeued.eraseIdx i }) hback h.tagged h.mshr hclear' hstep
      refine h.keeps ⟨hkeeps.tagged, hkeeps.mshr, hkeeps.history, ?_, hkeeps.settled⟩
      intro a ha
      rcases ha with (hwaiting | ⟨p, hp, hwrite, hsame⟩) | ha
      · exact hkeeps.kept a (Or.inl (Or.inl hwaiting))
      · rcases mem_eraseIdx_or_eq hfound hp with hrest | rfl
        · exact hkeeps.kept a (Or.inl (Or.inr ⟨p, hrest, hwrite, hsame⟩))
        · exact Or.inl (dirty_congr hsame (hcovered hwrite))
      · exact hkeeps.kept a (Or.inr ha)
  | setState addr state =>
    unfold Step StepOf next at hstep
    dsimp only at hstep
    split at hstep
    · cases hstep
    · have hstate : s.stateOf cfg addr = .modified → state = .modified := by
        intro hmodified
        by_contra hne
        exact hclear ⟨hmodified, hne⟩
      obtain ⟨more, hkeeps⟩ := keeps_updateState h.tagged h.mshr hstate hstep
      exact h.keeps hkeeps

/-- In a run of a write-back cache in which no step loses a write, every accepted write
still waits, is in a modified line, or has been followed by a write of its line to the
next level. -/
theorem writes_written_back (hback : cfg.writePolicy = .writeBack) (labels : List (Action C))
    (s : HierarchyCache C)
    (run : Run (Guarded (Step cfg) fun s label => ¬ s.Loses cfg label) initial labels s) :
    ∀ before x after, s.history = before ++ .accepts x :: after → x.isWrite = true →
      s.HoldsWrite cfg x.address ∨ s.stateOf cfg x.address = .modified ∨
        WritesBelow cfg.geometry after x.address := by
  intro before x after hhistory hwrite
  have htracks : Tracks cfg s :=
    run.invariant tracks_initial (fun _ _ _ h hstep => h.step hback hstep.1 hstep.2)
  have hsettled := htracks.settled
  rw [hhistory] at hsettled
  exact or_assoc.mp (hsettled.accepted hwrite)

instance : Decidable (s.HitsClean cfg x) := inferInstanceAs (Decidable (_ ∧ _ ∧ _ ∧ _ ∧ _))

instance decidablePendingHitsClean (cfg : HierarchyConfig C) : ∀ (s : HierarchyCache C)
    (accesses : List (CacheAccess C)), Decidable (PendingHitsClean cfg s accesses)
  | _, [] => inferInstanceAs (Decidable False)
  | s, x :: rest =>
    have := decidablePendingHitsClean cfg
      { s with eventsWaitingOnMSHR := s.eventsWaitingOnMSHR ++ [x] } rest
    have := decidablePendingHitsClean cfg (s.handleRequest cfg x) rest
    inferInstanceAs (Decidable (if s.isMSHRFull cfg x.address = true then
      PendingHitsClean cfg { s with eventsWaitingOnMSHR := s.eventsWaitingOnMSHR ++ [x] } rest
      else s.HitsClean cfg x ∨ PendingHitsClean cfg (s.handleRequest cfg x) rest))

instance {state : MESI} : Decidable (ListLoses missList state) :=
  inferInstanceAs (Decidable (_ ∧ _))

instance : Decidable (s.ServeLoses cfg addr) := inferInstanceAs (Decidable (∃ p ∈ _, _))

instance : Decidable (s.FillLoses cfg addr) := inferInstanceAs (Decidable (_ ∨ _))

instance (cfg : HierarchyConfig C) (s : HierarchyCache C) :
    ∀ event, Decidable (s.EventLoses cfg event)
  | ⟨.cacheRead _, _⟩ => inferInstanceAs (Decidable False)
  | ⟨.cacheWrite c, addr⟩ => inferInstanceAs (Decidable (s.HitsClean cfg ⟨c, true, addr⟩))
  | ⟨.memResponse _ _, _⟩ => inferInstanceAs (Decidable (_ ∧ _))
  | ⟨.toDirectory _, _⟩ => inferInstanceAs (Decidable False)
  | ⟨.writeThrough _, _⟩ => inferInstanceAs (Decidable False)
  | ⟨.acknowledgement _, _⟩ => inferInstanceAs (Decidable False)
  | ⟨.fromDirectory (.evictCacheLine _), _⟩ => inferInstanceAs (Decidable (_ ∧ _))
  | ⟨.fromDirectory (.ackEvictCacheLine _), addr⟩ =>
    inferInstanceAs (Decidable (s.ServeLoses cfg addr))
  | ⟨.fromDirectory (.ackDirectoryWriteHit _), addr⟩ =>
    inferInstanceAs (Decidable (s.ServeLoses cfg addr))
  | ⟨.fromDirectory (.memResponse _), _⟩ => inferInstanceAs (Decidable (_ ∧ _))
  | ⟨.fromDirectory (.directoryCachelineForwardRequest _ _), addr⟩ =>
    inferInstanceAs (Decidable (s.stateOf cfg addr = .modified))
  | ⟨.fromDirectory (.directorySharedToExclusive _), addr⟩ =>
    inferInstanceAs (Decidable (s.stateOf cfg addr = .modified))
  | ⟨.fromDirectory (.cacheRead _), _⟩ => inferInstanceAs (Decidable False)

instance (cfg : HierarchyConfig C) (s : HierarchyCache C) :
    ∀ label, Decidable (s.Loses cfg label)
  | .request _ => inferInstanceAs (Decidable False)
  | .post _ => inferInstanceAs (Decidable False)
  | .answer _ => inferInstanceAs (Decidable False)
  | .deliver _ => inferInstanceAs (Decidable (∃ event ∈ _, _))
  | .redeliver _ => inferInstanceAs (Decidable (∃ p ∈ _, _))
  | .setState _ _ => inferInstanceAs (Decidable (_ ∧ _))

/-- A first-level write-back cache with two lines of 64 bytes. -/
def writeBackPair : HierarchyConfig Unit := { smallCache with writePolicy := .writeBack }

/-- A write that misses is written back when its line is replaced. -/
theorem writeBackPair_writes_back :
    ∃ s : HierarchyCache Unit,
      s.history = [.requested ⟨(), true, 0⟩, .accepts ⟨(), true, 0⟩, .readsBelow 0,
        .writesLine 0, .requested ⟨(), false, 64⟩, .accepts ⟨(), false, 64⟩, .readsBelow 64,
        .responds () 64, .requested ⟨(), false, 128⟩, .accepts ⟨(), false, 128⟩,
        .readsBelow 128, .writesBelow 0, .leaves 0, .responds () 128] ∧
      (s.HoldsWrite writeBackPair 0 ∨ s.stateOf writeBackPair 0 = .modified ∨
        WritesBelow writeBackPair.geometry (C := Unit) [.readsBelow 0,
          .writesLine 0, .requested ⟨(), false, 64⟩, .accepts ⟨(), false, 64⟩, .readsBelow 64,
          .responds () 64, .requested ⟨(), false, 128⟩, .accepts ⟨(), false, 128⟩,
          .readsBelow 128, .writesBelow 0, .leaves 0, .responds () 128] 0) := by
  have hrun : (exec
      (fun s a => if ¬ Loses writeBackPair s a then next writeBackPair s a else none) initial
      [.request ⟨(), true, 0⟩, .deliver 0, .answer 0, .deliver 0, .request ⟨(), false, 64⟩,
        .deliver 0, .answer 0, .deliver 0, .request ⟨(), false, 128⟩, .deliver 0, .answer 0,
        .deliver 0]).any
        (fun s => s.history = [.requested ⟨(), true, 0⟩, .accepts ⟨(), true, 0⟩, .readsBelow 0,
          .writesLine 0, .requested ⟨(), false, 64⟩, .accepts ⟨(), false, 64⟩, .readsBelow 64,
          .responds () 64, .requested ⟨(), false, 128⟩, .accepts ⟨(), false, 128⟩,
          .readsBelow 128, .writesBelow 0, .leaves 0, .responds () 128]) = true := by decide
  obtain ⟨s, hexec, hs⟩ := (Option.any_eq_true _ _).mp hrun
  have hhistory := of_decide_eq_true hs
  exact ⟨s, hhistory, writes_written_back rfl _ s (guarded_run_of_exec hexec)
    [.requested ⟨(), true, 0⟩] ⟨(), true, 0⟩ _ hhistory rfl⟩

/-- A write that hits a line filled by a read is lost with the line. -/
theorem write_to_clean_line_lost :
    ¬ ∀ (cfg : HierarchyConfig Unit) (labels : List (Action Unit)) (s : HierarchyCache Unit),
      cfg.writePolicy = .writeBack → Run (Step cfg) initial labels s →
        ∀ before x after, s.history = before ++ .accepts x :: after → x.isWrite = true →
          s.HoldsWrite cfg x.address ∨ s.stateOf cfg x.address = .modified ∨
            WritesBelow cfg.geometry after x.address := by
  intro hclaim
  have hrun : (exec (next writeBackPair) initial
      [.request ⟨(), false, 0⟩, .deliver 0, .answer 0, .deliver 0, .request ⟨(), true, 0⟩,
        .deliver 0, .request ⟨(), false, 64⟩, .deliver 0, .answer 0, .deliver 0,
        .request ⟨(), false, 128⟩, .deliver 0, .answer 0, .deliver 0]).any
        (fun s => decide (s.history = [.requested ⟨(), false, 0⟩, .accepts ⟨(), false, 0⟩,
          .readsBelow 0, .responds () 0, .requested ⟨(), true, 0⟩, .accepts ⟨(), true, 0⟩,
          .writesLine 0, .requested ⟨(), false, 64⟩, .accepts ⟨(), false, 64⟩, .readsBelow 64,
          .responds () 64, .requested ⟨(), false, 128⟩, .accepts ⟨(), false, 128⟩,
          .readsBelow 128, .leaves 0, .responds () 128] ∧
          ¬ s.HoldsWrite writeBackPair 0 ∧ s.stateOf writeBackPair 0 = .invalid)) = true := by
    decide
  obtain ⟨s, hexec, hs⟩ := (Option.any_eq_true _ _).mp hrun
  obtain ⟨hhistory, hheld, hstate⟩ := of_decide_eq_true hs
  rcases hclaim writeBackPair _ s rfl (run_of_exec hexec)
    [.requested ⟨(), false, 0⟩, .accepts ⟨(), false, 0⟩, .readsBelow 0, .responds () 0,
      .requested ⟨(), true, 0⟩] ⟨(), true, 0⟩ _ hhistory rfl with h | h | ⟨b, hb, -⟩
  · exact hheld h
  · rw [hstate] at h
    cases h
  · simp at hb

end Tejas.HierarchyCache
