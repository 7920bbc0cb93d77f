import Tejas.HierarchyCache

/-!
# What the parts of a step do

A change of state touches one line and sends notices. The loop over the requests that
wait for a free register keeps whatever each of its rounds keeps. The loop over the
events that waited for a line answers the reads before the first eviction, writes
through once, and puts back what follows the eviction.
-/

namespace Tejas

variable {C : Type}

/-- Messages about the state of a line. -/
def CacheRecord.isNotice : CacheRecord C → Bool
  | .tellsDirectory _ _ => true
  | .evictsAbove _ => true
  | .setsAbove _ _ => true
  | .forwardsLine _ _ => true
  | _ => false

def CacheRecord.isWriteBelow : CacheRecord C → Bool
  | .writesBelow _ => true
  | _ => false

def CacheRecord.response? : CacheRecord C → Option (C × Address)
  | .responds requester address => some (requester, address)
  | _ => none

/-- The requester and the address of a read. -/
def AddressCarryingEvent.read? (event : AddressCarryingEvent C) : Option (C × Address) :=
  match event.missKind with
  | .read requester => some (requester, event.address)
  | _ => none

/-- The events of a list up to its first eviction. -/
def beforeEviction (missList : List (AddressCarryingEvent C)) : List (AddressCarryingEvent C) :=
  missList.takeWhile (fun e => !e.missKind.isEviction)

/-- The events behind the first eviction. -/
def afterEviction (missList : List (AddressCarryingEvent C)) : List (AddressCarryingEvent C) :=
  (missList.dropWhile (fun e => !e.missKind.isEviction)).tail

def hasEviction (missList : List (AddressCarryingEvent C)) : Bool :=
  missList.any (fun e => e.missKind.isEviction)

def hasWrite (events : List (AddressCarryingEvent C)) : Bool :=
  events.any (fun e => e.missKind.isWrite)

theorem isCacheWrite_eq (event : AddressCarryingEvent C) :
    MSHR.isCacheWrite event = event.missKind.isWrite := by
  obtain ⟨request, address⟩ := event
  cases request with
  | toDirectory req => cases req <;> rfl
  | fromDirectory reply => cases reply <;> rfl
  | _ => rfl

namespace HierarchyCache

variable {cfg : HierarchyConfig C} {s t : HierarchyCache C} {addr : Address} {newState : MESI}
  {missList events : List (AddressCarryingEvent C)}

/-- What a change of state does. -/
structure UpdatesState (cfg : HierarchyConfig C) (s : HierarchyCache C) (addr : Address)
    (newState : MESI) (t : HierarchyCache C) : Prop where
  lines : t.lines = s.lines.setState cfg.geometry addr newState
  mshr : t.mshr = s.mshr
  waiting : t.eventsWaitingOnMSHR = s.eventsWaitingOnMSHR
  queue : t.queue = s.queue
  requeued : t.requeued = s.requeued
  readsBelow : t.readsBelow = s.readsBelow
  history : ∃ notes, t.history = s.history ++ notes ∧ ∀ r ∈ notes, r.isNotice = true ∨
    r = .leaves addr ∧ newState = .invalid ∧ s.lines.stateAt cfg.geometry addr ≠ .invalid

theorem updateStateOfCacheLine_eq_some (h : s.updateStateOfCacheLine cfg addr newState = some t) :
    UpdatesState cfg s addr newState t := by
  unfold updateStateOfCacheLine at h
  split at h
  · rename_i hnone
    cases h
    have hlines : s.lines = s.lines.setState cfg.geometry addr newState := by
      simp [LineArray.setState, hnone]
    exact ⟨hlines, rfl, rfl, rfl, rfl, rfl, [], by simp⟩
  · rename_i i hfound
    dsimp only at h
    split at h
    · rename_i hinvalid
      split at h
      · cases h
      · cases h
        unfold noteInvalidated
        dsimp only
        have hnotice : (if cfg.belowCoherenceLevel
            then CacheRecord.tellsDirectory (C := C) .directoryEvictedFromSharedCache addr
            else .evictsAbove addr).isNotice = true := by
          split <;> rfl
        split
        · rename_i hvalid
          refine ⟨rfl, rfl, rfl, rfl, rfl, rfl, _, List.append_assoc _ _ _, ?_⟩
          intro r hr
          rcases List.mem_append.mp hr with hr | hr
          · rw [List.mem_singleton.mp hr]
            exact Or.inl hnotice
          · refine Or.inr ⟨List.mem_singleton.mp hr, hinvalid, ?_⟩
            rw [LineArray.stateAt, hfound]
            simpa [CacheLine.isValid] using hvalid
        · refine ⟨rfl, rfl, rfl, rfl, rfl, rfl, _, rfl, ?_⟩
          intro r hr
          rw [List.mem_singleton.mp hr]
          exact Or.inl hnotice
    · split at h
      · cases h
        exact ⟨rfl, rfl, rfl, rfl, rfl, rfl, [], by simp⟩
      · cases h
        refine ⟨rfl, rfl, rfl, rfl, rfl, rfl, _, rfl, ?_⟩
        intro r hr
        rw [List.mem_singleton.mp hr]
        exact Or.inl rfl

/-- Only the invalidation of a locked line is an exit. -/
theorem updateStateOfCacheLine_isSome
    (h : newState = .invalid → s.isAddrInMSHR cfg addr = false) :
    ∃ t, s.updateStateOfCacheLine cfg addr newState = some t := by
  unfold updateStateOfCacheLine
  split
  · exact ⟨s, rfl⟩
  · dsimp only
    split
    · rename_i hinvalid
      rw [h hinvalid]
      exact ⟨_, rfl⟩
    · split
      · exact ⟨_, rfl⟩
      · exact ⟨_, rfl⟩

/-- What the rounds of the loop keep, the loop keeps. -/
theorem pendingLoop_keeps {I : HierarchyCache C → Prop} (cfg : HierarchyConfig C)
    (hpark : ∀ s a, I s → I { s with eventsWaitingOnMSHR := s.eventsWaitingOnMSHR ++ [a] })
    (hhandle : ∀ s a, I s → I (s.handleRequest cfg a)) (accesses : List (CacheAccess C))
    (s : HierarchyCache C) (h : I s) : I (pendingLoop cfg s accesses) := by
  induction accesses generalizing s with
  | nil => exact h
  | cons a rest ih =>
    rw [pendingLoop]
    split
    · exact ih _ (hpark s a h)
    · exact ih _ (hhandle s a h)

/-! ### The loop over the events that waited -/

theorem unprocessedEvents_started (time : ℤ) (events : List (AddressCarryingEvent C)) :
    unprocessedEvents time true events = events.mapIdx (fun i e => (time + i, e)) := by
  induction events generalizing time with
  | nil => rfl
  | cons event rest ih =>
    rw [unprocessedEvents, if_pos rfl, ih, List.mapIdx_cons]
    congr 1
    · simp
    · congr 1
      funext i e
      simp only [Nat.cast_add, Nat.cast_one, Prod.mk.injEq, and_true]
      omega

/-- What is put back is what stands behind the first eviction, at increasing times. -/
theorem unprocessedEvents_eq (time : ℤ) (events : List (AddressCarryingEvent C)) :
    unprocessedEvents time false events =
      (afterEviction events).mapIdx (fun i e => (time + i, e)) := by
  induction events with
  | nil => rfl
  | cons event rest ih =>
    rw [unprocessedEvents, if_neg (by simp), afterEviction, List.dropWhile_cons]
    cases hevict : event.missKind.isEviction with
    | true => simpa using unprocessedEvents_started time rest
    | false => simpa [afterEviction] using ih

/-- What the loop does from the state after the events that it has served. -/
structure Serves (cfg : HierarchyConfig C) (addr : Address)
    (missList : List (AddressCarryingEvent C)) (written : Bool) (s : HierarchyCache C)
    (events : List (AddressCarryingEvent C)) (t : HierarchyCache C)
    (more : List (CacheRecord C)) : Prop where
  history : t.history = s.history ++ more
  mshr : t.mshr = s.mshr
  waiting : t.eventsWaitingOnMSHR = s.eventsWaitingOnMSHR
  queue : t.queue = s.queue
  readsBelow : t.readsBelow = s.readsBelow
  answers : more.filterMap CacheRecord.response? =
    (beforeEviction events).filterMap AddressCarryingEvent.read?
  forwards : more.filter CacheRecord.isWriteBelow =
    if cfg.writePolicy = .writeThrough ∧ hasEviction events = false ∧
      (written || hasWrite events) = true then [.writesBelow addr] else []
  putBack : t.requeued = s.requeued ++
    if hasEviction events then unprocessedEvents (-(missList.length : ℤ)) false missList else []
  accepts : ∀ a, .accepts a ∉ more

theorem notice_not_response {r : CacheRecord C} (h : r.isNotice = true ∨ ∃ a, r = .leaves a) :
    r.response? = none ∧ r.isWriteBelow = false ∧ ∀ a, r ≠ .accepts a := by
  rcases h with h | ⟨a, rfl⟩
  · cases r with
    | accepts a => cases h
    | responds requester address => cases h
    | writesBelow address => cases h
    | _ => exact ⟨rfl, rfl, fun _ h => by cases h⟩
  · exact ⟨rfl, rfl, fun _ h => by cases h⟩

/-- The notices of a change of state come before what is done next. -/
theorem Serves.after_update {written : Bool} {more : List (CacheRecord C)}
    {u : HierarchyCache C} (hupdate : UpdatesState cfg s addr newState u)
    (h : Serves cfg addr missList written u events t more) :
    ∃ notes, Serves cfg addr missList written s events t (notes ++ more) := by
  obtain ⟨notes, hnotes, hkind⟩ := hupdate.history
  have hquiet : ∀ r ∈ notes, r.response? = none ∧ r.isWriteBelow = false ∧
      ∀ a, r ≠ .accepts a := by
    intro r hr
    apply notice_not_response
    rcases hkind r hr with h | h
    · exact Or.inl h
    · exact Or.inr ⟨addr, h.1⟩
  refine ⟨notes, ?_, h.mshr.trans hupdate.mshr, h.waiting.trans hupdate.waiting,
    h.queue.trans hupdate.queue, h.readsBelow.trans hupdate.readsBelow, ?_, ?_, ?_, ?_⟩
  · rw [h.history, hnotes, List.append_assoc]
  · have hnone : notes.filterMap CacheRecord.response? = [] :=
      List.filterMap_eq_nil_iff.mpr (fun r hr => (hquiet r hr).1)
    rw [List.filterMap_append, hnone, List.nil_append, h.answers]
  · have hnone : notes.filter CacheRecord.isWriteBelow = [] :=
      List.filter_eq_nil_iff.mpr (fun r hr => by simp [(hquiet r hr).2.1])
    rw [List.filter_append, hnone, List.nil_append, h.forwards]
  · rw [h.putBack, hupdate.requeued]
  · intro a ha
    rcases List.mem_append.mp ha with ha | ha
    · exact (hquiet _ ha).2.2 a rfl
    · exact h.accepts a ha

/-- One spec for the loop: answers, the write through, and what is put back. -/
theorem processEvents_serves {written : Bool}
    (h : processEvents cfg addr missList written s events = some t) :
    ∃ more, Serves cfg addr missList written s events t more := by
  induction events generalizing s written with
  | nil =>
    rw [processEvents] at h
    split at h
    · rename_i hthrough
      cases h
      refine ⟨[.writesBelow addr], rfl, rfl, rfl, rfl, rfl, rfl, ?_, by simp [hasEviction,
        sendRequestToNextLevel, record], by simp⟩
      simp [hasEviction, hasWrite, hthrough, CacheRecord.isWriteBelow]
    · rename_i hnot
      cases h
      refine ⟨[], by simp, rfl, rfl, rfl, rfl, rfl, ?_, by simp [hasEviction], by simp⟩
      rw [if_neg]
      · rfl
      · intro hall
        exact hnot ⟨by simpa [hasWrite] using hall.2.2, hall.1⟩
  | cons event rest ih =>
    rw [processEvents] at h
    split at h
    · rename_i requester hkind
      obtain ⟨more, hmore⟩ := ih h
      refine ⟨.responds requester event.address :: more, ?_, hmore.mshr, hmore.waiting,
        hmore.queue, hmore.readsBelow, ?_, ?_, ?_, ?_⟩
      · rw [hmore.history]
        simp [record]
      · simp [beforeEviction, AddressCarryingEvent.read?, hkind, MissKind.isEviction,
          CacheRecord.response?, hmore.answers]
      · simpa [hasEviction, hasWrite, hkind, MissKind.isEviction, MissKind.isWrite,
          CacheRecord.isWriteBelow] using hmore.forwards
      · simpa [hasEviction, hkind, MissKind.isEviction, record] using hmore.putBack
      · simpa using hmore.accepts
    · rename_i hkind
      split at h
      · cases h
      · obtain ⟨u, hupdate, hrest⟩ := Option.bind_eq_some_iff.mp h
        obtain ⟨more, hmore⟩ := ih hrest
        have hserves : Serves cfg addr missList written u (event :: rest) t
            (.writesLine addr :: more) := by
          refine ⟨?_, hmore.mshr, hmore.waiting, hmore.queue, hmore.readsBelow, ?_, ?_, ?_, ?_⟩
          · rw [hmore.history]
            simp [record]
          · simpa [beforeEviction, AddressCarryingEvent.read?, hkind, MissKind.isEviction,
              List.filterMap_cons, CacheRecord.response?] using hmore.answers
          · simpa [hasEviction, hasWrite, hkind, MissKind.isEviction, MissKind.isWrite,
              CacheRecord.isWriteBelow] using hmore.forwards
          · simpa [hasEviction, hkind, MissKind.isEviction, record] using hmore.putBack
          · simpa using hmore.accepts
        obtain ⟨notes, hnotes⟩ := hserves.after_update (updateStateOfCacheLine_eq_some hupdate)
        exact ⟨_, hnotes⟩
    · rename_i hkind
      obtain ⟨u, hupdate, rfl⟩ := Option.map_eq_some_iff.mp h
      have hserves : Serves cfg addr missList written u (event :: rest)
          { u with requeued := u.requeued ++
            unprocessedEvents (-(missList.length : ℤ)) false missList } [] := by
        refine ⟨by simp, rfl, rfl, rfl, rfl, ?_, ?_, ?_, by simp⟩
        · simp [beforeEviction, hkind, MissKind.isEviction]
        · simp [hasEviction, hkind, MissKind.isEviction]
        · simp [hasEviction, hkind, MissKind.isEviction]
      obtain ⟨notes, hnotes⟩ := hserves.after_update (updateStateOfCacheLine_eq_some hupdate)
      exact ⟨_, hnotes⟩
    · rename_i hkind
      obtain ⟨more, hmore⟩ := ih h
      refine ⟨more, hmore.history, hmore.mshr, hmore.waiting, hmore.queue, hmore.readsBelow,
        ?_, ?_, ?_, hmore.accepts⟩
      · simp [beforeEviction, AddressCarryingEvent.read?, hkind, MissKind.isEviction,
          hmore.answers]
      · simpa [hasEviction, hasWrite, hkind, MissKind.isEviction, MissKind.isWrite] using
          hmore.forwards
      · simpa [hasEviction, hkind, MissKind.isEviction] using hmore.putBack

theorem accessValid_setState (hvalid : (s.lines.accessValid cfg.geometry addr).isSome)
    (hupdate : UpdatesState cfg s addr newState t) (hstate : newState ≠ .invalid) :
    (t.lines.accessValid cfg.geometry addr).isSome := by
  rw [LineArray.accessValid_eq_some_iff] at hvalid ⊢
  rw [hupdate.lines, LineArray.stateAt_setState]
  split
  · exact hstate
  · exact hvalid

/-- With the line present and its list taken out of the register the loop takes no exit. -/
theorem processEvents_isSome {written : Bool}
    (hvalid : (s.lines.accessValid cfg.geometry addr).isSome)
    (hunlocked : s.isAddrInMSHR cfg addr = false) :
    ∃ t, processEvents cfg addr missList written s events = some t := by
  induction events generalizing s written with
  | nil => exact ⟨_, rfl⟩
  | cons event rest ih =>
    rw [processEvents]
    split
    · exact ih hvalid hunlocked
    · split
      · rename_i hnone
        rw [hnone] at hvalid
        cases hvalid
      · have hsome : ∃ u, s.updateStateOfCacheLine cfg addr .modified = some u :=
          updateStateOfCacheLine_isSome (fun h => by cases h)
        obtain ⟨u, hu⟩ := hsome
        have hupdate := updateStateOfCacheLine_eq_some hu
        have hunlocked' : u.isAddrInMSHR cfg addr = false := by
          unfold isAddrInMSHR
          rw [hupdate.mshr]
          exact hunlocked
        have hvalid' := accessValid_setState hvalid hupdate (by decide)
        have hrest : ∃ t, processEvents cfg addr missList true (u.record (.writesLine addr)) rest =
            some t := ih hvalid' hunlocked'
        obtain ⟨t, ht⟩ := hrest
        exact ⟨t, by rw [hu]; exact ht⟩
    · have hsome : ∃ u, s.updateStateOfCacheLine cfg addr .invalid = some u :=
        updateStateOfCacheLine_isSome (fun _ => hunlocked)
      obtain ⟨u, hu⟩ := hsome
      exact ⟨_, by rw [hu]; rfl⟩
    · exact ih hvalid hunlocked

/-! ### The register -/

variable {x : CacheAccess C} {event : AddressCarryingEvent C}

/-- The access enters the register: its line is locked, it misses, or it writes a clean
line of a coherent cache. -/
def registers (cfg : HierarchyConfig C) (s : HierarchyCache C) (x : CacheAccess C) : Bool :=
  s.isAddrInMSHR cfg x.address ||
    match s.lines.accessValid cfg.geometry x.address with
    | none => true
    | some i => x.isWrite && cfg.coherent &&
        decide ((s.lines.lines i).state = .shared ∨ (s.lines.lines i).state = .exclusive)

theorem cacheHit_mshr (cfg : HierarchyConfig C) (s : HierarchyCache C) (x : CacheAccess C)
    (state : MESI) : (s.cacheHit cfg x state).mshr =
      if x.isWrite && cfg.coherent && decide (state = .shared ∨ state = .exclusive)
      then s.mshr.addToMSHR cfg.geometry.blockSizeBits x.event else s.mshr := by
  have hsent : (if cfg.writePolicy = .writeThrough then s.sendRequestToNextLevel x.address true
      else s).mshr = s.mshr := by
    split <;> rfl
  unfold cacheHit
  cases hwrite : x.isWrite with
  | false => rfl
  | true =>
    dsimp only
    by_cases hclean : (state = .shared ∨ state = .exclusive) ∧ cfg.coherent = true
    · simp only [hclean, and_self, if_true, decide_true, Bool.and_self]
      exact congrArg (fun m => MSHR.addToMSHR m cfg.geometry.blockSizeBits x.event) hsent
    · have hdirty : ¬ (true && cfg.coherent &&
          decide (state = .shared ∨ state = .exclusive)) = true := by
        intro hboth
        simp only [Bool.true_and, Bool.and_eq_true, decide_eq_true_eq] at hboth
        exact hclean ⟨hboth.2, hboth.1⟩
      simp only [hclean, hdirty, if_true, if_false, Bool.false_eq_true]
      exact hsent

theorem cacheMiss_mshr (cfg : HierarchyConfig C) (s : HierarchyCache C) (x : CacheAccess C) :
    (s.cacheMiss cfg x).mshr = s.mshr.addToMSHR cfg.geometry.blockSizeBits x.event := by
  unfold cacheMiss
  dsimp only
  split <;> rfl

theorem handleRequest_mshr (cfg : HierarchyConfig C) (s : HierarchyCache C)
    (x : CacheAccess C) : (s.handleRequest cfg x).mshr =
      if s.registers cfg x then s.mshr.addToMSHR cfg.geometry.blockSizeBits x.event
      else s.mshr := by
  unfold handleRequest registers
  split
  · rename_i hlocked
    rw [hlocked]
    rfl
  · rename_i hunlocked
    rw [Bool.not_eq_true] at hunlocked
    have hlines : (s.record (.accepts x)).lines = s.lines := rfl
    rw [hunlocked, Bool.false_or, handleAccess, LineArray.accessAndMark, hlines]
    cases s.lines.accessValid cfg.geometry x.address with
    | none => exact cacheMiss_mshr cfg _ x
    | some i => exact cacheHit_mshr cfg _ x _

/-- A request marks the line it hits, and changes no other part of the lines. -/
theorem handleRequest_lines (cfg : HierarchyConfig C) (s : HierarchyCache C)
    (x : CacheAccess C) : (s.handleRequest cfg x).lines = s.lines ∨
      ∃ i, (s.handleRequest cfg x).lines = s.lines.mark i := by
  have hsent : ∀ u : HierarchyCache C, (if cfg.writePolicy = .writeThrough
      then u.sendRequestToNextLevel x.address true else u).lines = u.lines := by
    intro u
    split <;> rfl
  unfold handleRequest
  split
  · exact .inl rfl
  · have hlines : (s.record (.accepts x)).lines = s.lines := rfl
    rw [handleAccess, LineArray.accessAndMark, hlines]
    cases s.lines.accessValid cfg.geometry x.address with
    | none =>
      left
      dsimp only [cacheMiss]
      split <;> rfl
    | some i =>
      right
      refine ⟨i, ?_⟩
      dsimp only [cacheHit]
      split
      · split
        · exact hsent _
        · exact hsent _
      · rfl

theorem wellFormed_handleRequest (hm : s.mshr.WellFormed cfg.geometry.blockSizeBits)
    (x : CacheAccess C) :
    (s.handleRequest cfg x).mshr.WellFormed cfg.geometry.blockSizeBits := by
  rw [handleRequest_mshr]
  split
  · exact MSHR.wellFormed_addToMSHR hm
  · exact hm

theorem wellFormed_pendingList (hm : s.mshr.WellFormed cfg.geometry.blockSizeBits) :
    (s.processEventsInPendingList cfg).mshr.WellFormed cfg.geometry.blockSizeBits :=
  pendingLoop_keeps (I := fun t => t.mshr.WellFormed cfg.geometry.blockSizeBits) cfg
    (fun _ _ h => h) (fun _ a h => wellFormed_handleRequest h a) _ _ hm

theorem processEventsInMSHR_eq_some (h : s.processEventsInMSHR cfg addr = some t) :
    ∃ missList m u, s.mshr.removeEventsFromMSHR cfg.geometry.blockSizeBits addr =
        some (missList, m) ∧
      processEvents cfg addr missList false { s with mshr := m } missList = some u ∧
      t = u.processEventsInPendingList cfg := by
  unfold processEventsInMSHR at h
  split at h
  · cases h
  · rename_i missList m hremoved
    obtain ⟨u, hprocessed, rfl⟩ := Option.map_eq_some_iff.mp h
    exact ⟨missList, m, u, hremoved, hprocessed, rfl⟩

theorem wellFormed_processEventsInMSHR (hm : s.mshr.WellFormed cfg.geometry.blockSizeBits)
    (h : s.processEventsInMSHR cfg addr = some t) :
    t.mshr.WellFormed cfg.geometry.blockSizeBits := by
  obtain ⟨missList, m, u, hremoved, hprocessed, rfl⟩ := processEventsInMSHR_eq_some h
  obtain ⟨more, hserves⟩ := processEvents_serves hprocessed
  refine wellFormed_pendingList ?_
  rw [hserves.mshr]
  exact (MSHR.removeEvents_spec hm hremoved).2.1

/-- What the replacement of a line does to the register. -/
theorem handleEvictedLine_mshr {evictedLine : Option (CacheLine Unit)}
    (h : s.handleEvictedLine cfg evictedLine = some t) :
    t.mshr = s.mshr ∨ ∃ victim, evictedLine = some victim ∧ cfg.coherent = true ∧
      s.isAddrInMSHR cfg victim.address = false ∧
      t.mshr = s.mshr.addToMSHR cfg.geometry.blockSizeBits
        ⟨.toDirectory (.directoryEvictedFromCoherentCache cfg.self), victim.address⟩ := by
  unfold handleEvictedLine at h
  split at h
  · cases h
    exact Or.inl rfl
  · rename_i victim
    split at h
    · cases h
      exact Or.inl rfl
    · split at h
      · cases h
      · rename_i hunlocked
        rw [Bool.not_eq_true] at hunlocked
        split at h
        · rename_i hcoherent
          cases h
          exact Or.inr ⟨victim, rfl, hcoherent, hunlocked, rfl⟩
        · cases h
          left
          split <;> rfl

theorem lines_handleEvictedLine {evictedLine : Option (CacheLine Unit)}
    (h : s.handleEvictedLine cfg evictedLine = some t) : t.lines = s.lines := by
  unfold handleEvictedLine at h
  split at h
  · cases h
    rfl
  · split_ifs at h
    · cases h
      rfl
    · cases h
      rfl
    · cases h
      rfl
    · cases h
      rfl

theorem fillAndSatisfyRequests_eq_some (h : s.fillAndSatisfyRequests cfg addr = some t) :
    ∃ lines evictedLine u,
      s.lines.fill cfg.geometry (s.isAddrInMSHR cfg) addr .shared = some (lines, evictedLine) ∧
      handleEvictedLine cfg { s with lines := lines } evictedLine = some u ∧
      u.processEventsInMSHR cfg addr = some t := by
  unfold fillAndSatisfyRequests at h
  split at h
  · cases h
  · rename_i lines evictedLine hfill
    obtain ⟨u, hevicted, hprocessed⟩ := Option.bind_eq_some_iff.mp h
    exact ⟨lines, evictedLine, u, hfill, hevicted, hprocessed⟩

theorem wellFormed_handleEvictedLine (hm : s.mshr.WellFormed cfg.geometry.blockSizeBits)
    {evictedLine : Option (CacheLine Unit)} (h : s.handleEvictedLine cfg evictedLine = some t) :
    t.mshr.WellFormed cfg.geometry.blockSizeBits := by
  rcases handleEvictedLine_mshr h with heq | ⟨victim, -, -, -, heq⟩
  · rw [heq]
    exact hm
  · rw [heq]
    exact MSHR.wellFormed_addToMSHR hm

theorem wellFormed_handleMemResponse (hm : s.mshr.WellFormed cfg.geometry.blockSizeBits)
    (h : s.handleMemResponse cfg event = some t) :
    t.mshr.WellFormed cfg.geometry.blockSizeBits := by
  unfold handleMemResponse at h
  split at h
  · obtain ⟨lines, evictedLine, u, -, hevicted, hprocessed⟩ := fillAndSatisfyRequests_eq_some h
    have hm' : ({ s with lines := lines } : HierarchyCache C).mshr.WellFormed
      cfg.geometry.blockSizeBits := hm
    exact wellFormed_processEventsInMSHR (wellFormed_handleEvictedLine hm' hevicted) hprocessed
  · cases h
    exact hm

end HierarchyCache

end Tejas
