import Tejas.CoherentCache
import Tejas.LabelledRuns

/-!
# A cache at any place of the hierarchy

`Cache.java` without NUCA, with or without a directory and with the list of the
requests that wait for a free register. The requests come from the caches above it,
or from the core. `none` is an exit of the simulator. Three lists hold what
is on its way: the events sent to the cache, those it has put back itself, and the
reads the next level has not answered. `history` records what has been done; the cache
never reads it.
-/

namespace Tejas
open LabelledRuns

structure HierarchyConfig (C : Type) where
  self : C
  geometry : Geometry
  writePolicy : WritePolicy
  mshrMaxSize : ℕ
  /-- `mycoherence` is set. -/
  coherent : Bool
  belowCoherenceLevel : Bool
  topLevelCache : Bool

/-- A `Cache_Read` or a `Cache_Write`. -/
structure CacheAccess (C : Type) where
  requester : C
  isWrite : Bool
  address : Address
  deriving DecidableEq

def CacheAccess.event {C : Type} (a : CacheAccess C) : AddressCarryingEvent C :=
  ⟨if a.isWrite then .cacheWrite a.requester else .cacheRead a.requester, a.address⟩

inductive CacheRecord (C : Type) where
  /-- `addEventAtLowerCache` is called for the access. -/
  | requested (a : CacheAccess C)
  /-- The cache handles the access. -/
  | accepts (a : CacheAccess C)
  /-- A `Mem_Response` is sent to the requester of a read. -/
  | responds (requester : C) (address : Address)
  | readsBelow (address : Address)
  | writesBelow (address : Address)
  | tellsDirectory (request : DirectoryRequest C) (address : Address)
  | evictsAbove (address : Address)
  | setsAbove (address : Address) (state : MESI)
  | forwardsLine (destination : C) (address : Address)
  /-- A write changes the data of the line. -/
  | writesLine (address : Address)
  /-- A valid line is replaced or invalidated. -/
  | leaves (address : Address)
  deriving DecidableEq

structure HierarchyCache (C : Type) where
  lines : LineArray Unit
  mshr : MSHR C
  eventsWaitingOnMSHR : List (CacheAccess C)
  queue : List (AddressCarryingEvent C)
  requeued : List (ℤ × AddressCarryingEvent C)
  readsBelow : List Address
  history : List (CacheRecord C)

/-- The cases of the loop in `processEventsInMSHR`. -/
inductive MissKind (C : Type) where
  | read (requester : C)
  | write
  | eviction
  | other

def MissKind.isEviction {C : Type} : MissKind C → Bool
  | .eviction => true
  | _ => false

def MissKind.isWrite {C : Type} : MissKind C → Bool
  | .write => true
  | _ => false

def AddressCarryingEvent.missKind {C : Type} (event : AddressCarryingEvent C) : MissKind C :=
  match event.request with
  | .cacheRead c => .read c
  | .cacheWrite _ => .write
  | .toDirectory (.directoryEvictedFromCoherentCache _) => .eviction
  | .fromDirectory (.evictCacheLine _) => .eviction
  | _ => .other

namespace HierarchyCache

variable {C : Type}

def initial : HierarchyCache C where
  lines := LineArray.new (fun _ => ())
  mshr := MSHR.empty
  eventsWaitingOnMSHR := []
  queue := []
  requeued := []
  readsBelow := []
  history := []

def record (s : HierarchyCache C) (r : CacheRecord C) : HierarchyCache C :=
  { s with history := s.history ++ [r] }

def isAddrInMSHR (cfg : HierarchyConfig C) (s : HierarchyCache C) (addr : Address) : Bool :=
  s.mshr.isAddrInMSHR cfg.geometry.blockSizeBits addr

def addToMSHR (cfg : HierarchyConfig C) (s : HierarchyCache C) (event : AddressCarryingEvent C) :
    HierarchyCache C :=
  { s with mshr := s.mshr.addToMSHR cfg.geometry.blockSizeBits event }

def numberOfLinesOfSetInMSHR (cfg : HierarchyConfig C) (s : HierarchyCache C) (addr : Address) :
    ℕ :=
  (cfg.geometry.ways addr).countP (fun i => s.isAddrInMSHR cfg (s.lines.lines i).address)

/-- `isMSHRFull(addr)`, which `isBusy(addr)` returns. -/
def isMSHRFull (cfg : HierarchyConfig C) (s : HierarchyCache C) (addr : Address) : Bool :=
  decide (cfg.mshrMaxSize ≤ s.mshr.mshrSize) ||
    decide (cfg.geometry.assoc - 1 ≤ s.numberOfLinesOfSetInMSHR cfg addr)

def sendRequestToNextLevel (s : HierarchyCache C) (addr : Address) (isWrite : Bool) :
    HierarchyCache C :=
  if isWrite then s.record (.writesBelow addr)
  else { s.record (.readsBelow addr) with readsBelow := s.readsBelow ++ [addr] }

/-- The end of `updateStateOfCacheLine` for an invalidated line. -/
def noteInvalidated (cfg : HierarchyConfig C) (s : HierarchyCache C) (addr : Address)
    (wasValid : Bool) : HierarchyCache C :=
  let t := s.record (if cfg.belowCoherenceLevel
    then .tellsDirectory .directoryEvictedFromSharedCache addr else .evictsAbove addr)
  if wasValid then t.record (.leaves addr) else t

def updateStateOfCacheLine (cfg : HierarchyConfig C) (s : HierarchyCache C) (addr : Address)
    (newState : MESI) : Option (HierarchyCache C) :=
  match s.lines.access cfg.geometry addr with
  | none => some s
  | some i =>
    let t := { s with lines := s.lines.setState cfg.geometry addr newState }
    if newState = .invalid then
      if s.isAddrInMSHR cfg addr then none
      else some (t.noteInvalidated cfg addr (s.lines.lines i).isValid)
    else if cfg.belowCoherenceLevel || cfg.topLevelCache then some t
    else some (t.record (.setsAbove addr newState))

/-! ### Reads and writes -/

def cacheHit (cfg : HierarchyConfig C) (s : HierarchyCache C) (a : CacheAccess C)
    (state : MESI) : HierarchyCache C :=
  if a.isWrite then
    let t := if cfg.writePolicy = .writeThrough then s.sendRequestToNextLevel a.address true else s
    if (state = .shared ∨ state = .exclusive) ∧ cfg.coherent = true then
      (t.record (.tellsDirectory (.directoryWriteHit cfg.self) a.address)).addToMSHR cfg a.event
    else t.record (.writesLine a.address)
  else s.record (.responds a.requester a.address)

def cacheMiss (cfg : HierarchyConfig C) (s : HierarchyCache C) (a : CacheAccess C) :
    HierarchyCache C :=
  let t :=
    if cfg.coherent then
      s.record (.tellsDirectory (if a.isWrite then .directoryWriteMiss cfg.self
        else .directoryReadMiss cfg.self) a.address)
    else s.sendRequestToNextLevel a.address false
  t.addToMSHR cfg a.event

def handleAccess (cfg : HierarchyConfig C) (s : HierarchyCache C) (a : CacheAccess C) :
    HierarchyCache C :=
  match s.lines.accessAndMark cfg.geometry a.address with
  | (some i, lines) => cacheHit cfg { s with lines := lines } a (s.lines.lines i).state
  | (none, lines) => cacheMiss cfg { s with lines := lines } a

/-- `handleEvent` for a read or a write. -/
def handleRequest (cfg : HierarchyConfig C) (s : HierarchyCache C) (a : CacheAccess C) :
    HierarchyCache C :=
  if s.isAddrInMSHR cfg a.address then (s.record (.accepts a)).addToMSHR cfg a.event
  else handleAccess cfg (s.record (.accepts a)) a

/-- The loop of `processEventsInPendingList`. -/
def pendingLoop (cfg : HierarchyConfig C) :
    HierarchyCache C → List (CacheAccess C) → HierarchyCache C
  | s, [] => s
  | s, a :: rest =>
    if s.isMSHRFull cfg a.address then
      pendingLoop cfg { s with eventsWaitingOnMSHR := s.eventsWaitingOnMSHR ++ [a] } rest
    else pendingLoop cfg (s.handleRequest cfg a) rest

def processEventsInPendingList (cfg : HierarchyConfig C) (s : HierarchyCache C) :
    HierarchyCache C :=
  pendingLoop cfg { s with eventsWaitingOnMSHR := [] } s.eventsWaitingOnMSHR

/-! ### The end of a miss -/

/-- `addUnprocessedEventsToEventQueue`: the times and the events that are put back. -/
def unprocessedEvents :
    ℤ → Bool → List (AddressCarryingEvent C) → List (ℤ × AddressCarryingEvent C)
  | _, _, [] => []
  | timeToSet, startAddition, event :: rest =>
    if startAddition then (timeToSet, event) :: unprocessedEvents (timeToSet + 1) true rest
    else unprocessedEvents timeToSet event.missKind.isEviction rest

/-- The loop of `processEventsInMSHR` over the events that were waiting, and what
follows it. -/
def processEvents (cfg : HierarchyConfig C) (addr : Address)
    (missList : List (AddressCarryingEvent C)) :
    Bool → HierarchyCache C → List (AddressCarryingEvent C) → Option (HierarchyCache C)
  | written, s, [] =>
    some (if written = true ∧ cfg.writePolicy = .writeThrough
      then s.sendRequestToNextLevel addr true else s)
  | written, s, event :: rest =>
    match event.missKind with
    | .read requester =>
      processEvents cfg addr missList written (s.record (.responds requester event.address)) rest
    | .write =>
      match s.lines.accessValid cfg.geometry addr with
      | none => none
      | some _ =>
        (s.updateStateOfCacheLine cfg addr .modified).bind (fun t =>
          processEvents cfg addr missList true (t.record (.writesLine addr)) rest)
    | .eviction =>
      (s.updateStateOfCacheLine cfg addr .invalid).map (fun t =>
        { t with requeued := t.requeued ++
            unprocessedEvents (-(missList.length : ℤ)) false missList })
    | .other => processEvents cfg addr missList written s rest

def processEventsInMSHR (cfg : HierarchyConfig C) (s : HierarchyCache C)
    (addr : Address) : Option (HierarchyCache C) :=
  match s.mshr.removeEventsFromMSHR cfg.geometry.blockSizeBits addr with
  | none => none
  | some (missList, mshr) =>
    (processEvents cfg addr missList false { s with mshr := mshr } missList).map
      (processEventsInPendingList cfg)

def handleEvictedLine (cfg : HierarchyConfig C) (s : HierarchyCache C)
    (evictedLine : Option (CacheLine Unit)) : Option (HierarchyCache C) :=
  match evictedLine with
  | none => some s
  | some evictedLine =>
    if evictedLine.state = .invalid then some s
    else if s.isAddrInMSHR cfg evictedLine.address then none
    else if cfg.coherent then
      let evictEvent : AddressCarryingEvent C :=
        ⟨.toDirectory (.directoryEvictedFromCoherentCache cfg.self), evictedLine.address⟩
      some (((s.record (.tellsDirectory (.directoryEvictedFromCoherentCache cfg.self)
        evictedLine.address)).addToMSHR cfg evictEvent).record (.leaves evictedLine.address))
    else
      let t := if evictedLine.state = .modified ∧ cfg.writePolicy = .writeBack
        then s.sendRequestToNextLevel evictedLine.address true else s
      some (t.record (.leaves evictedLine.address))

def fillAndSatisfyRequests (cfg : HierarchyConfig C) (s : HierarchyCache C)
    (addr : Address) : Option (HierarchyCache C) :=
  match s.lines.fill cfg.geometry (s.isAddrInMSHR cfg) addr .shared with
  | none => none
  | some (lines, evictedLine) =>
    (handleEvictedLine cfg { s with lines := lines } evictedLine).bind
      (fun t => t.processEventsInMSHR cfg addr)

/-- A response finds a line that it may use. -/
def hasLineFor (cfg : HierarchyConfig C) (s : HierarchyCache C) (addr : Address) : Bool :=
  s.lines.isThereAnUnlockedOrInvalidEntryInCacheSet cfg.geometry (s.isAddrInMSHR cfg) addr

def handleMemResponse (cfg : HierarchyConfig C) (s : HierarchyCache C)
    (event : AddressCarryingEvent C) : Option (HierarchyCache C) :=
  if s.hasLineFor cfg event.address then s.fillAndSatisfyRequests cfg event.address
  else some { s with queue := s.queue ++ [event] }

def handleAckDirectoryWriteHit (cfg : HierarchyConfig C) (s : HierarchyCache C)
    (addr : Address) : Option (HierarchyCache C) :=
  match s.lines.accessValid cfg.geometry addr with
  | none => none
  | some _ => s.processEventsInMSHR cfg addr

def handleDirectoryCachelineForwardRequest (cfg : HierarchyConfig C) (s : HierarchyCache C)
    (addr : Address) (destination : C) : Option (HierarchyCache C) :=
  (s.updateStateOfCacheLine cfg addr .shared).map (·.record (.forwardsLine destination addr))

def handleEvent (cfg : HierarchyConfig C) (s : HierarchyCache C)
    (event : AddressCarryingEvent C) : Option (HierarchyCache C) :=
  match event.request with
  | .cacheRead c => some (s.handleRequest cfg ⟨c, false, event.address⟩)
  | .cacheWrite c => some (s.handleRequest cfg ⟨c, true, event.address⟩)
  | .fromDirectory (.evictCacheLine _) =>
    if s.isAddrInMSHR cfg event.address then some (s.addToMSHR cfg event)
    else s.updateStateOfCacheLine cfg event.address .invalid
  | .memResponse _ _ => s.handleMemResponse cfg event
  | .fromDirectory (.memResponse _) => s.handleMemResponse cfg event
  | .fromDirectory (.ackEvictCacheLine _) => s.processEventsInMSHR cfg event.address
  | .fromDirectory (.directoryCachelineForwardRequest _ destination) =>
    s.handleDirectoryCachelineForwardRequest cfg event.address destination
  | .fromDirectory (.directorySharedToExclusive _) =>
    s.updateStateOfCacheLine cfg event.address .exclusive
  | .fromDirectory (.ackDirectoryWriteHit _) => s.handleAckDirectoryWriteHit cfg event.address
  | _ => some s

/-! ### Runs -/

inductive Action (C : Type) where
  /-- `addEventAtLowerCache` of a cache above. -/
  | request (a : CacheAccess C)
  /-- Another element sends an event to the cache. -/
  | post (event : AddressCarryingEvent C)
  /-- The next level answers one of the reads. -/
  | answer (i : ℕ)
  | deliver (i : ℕ)
  /-- An event that was put back is handled again. -/
  | redeliver (i : ℕ)
  /-- The next level calls `updateStateOfCacheLine`. -/
  | setState (addr : Address) (state : MESI)

def addEventAtLowerCache (cfg : HierarchyConfig C) (s : HierarchyCache C) (a : CacheAccess C) :
    HierarchyCache C :=
  if s.isMSHRFull cfg a.address then
    { s.record (.requested a) with eventsWaitingOnMSHR := s.eventsWaitingOnMSHR ++ [a] }
  else { s.record (.requested a) with queue := s.queue ++ [a.event] }

def next (cfg : HierarchyConfig C) (s : HierarchyCache C) :
    Action C → Option (HierarchyCache C)
  | .request a => some (s.addEventAtLowerCache cfg a)
  | .post event => some { s with queue := s.queue ++ [event] }
  | .answer i =>
    match s.readsBelow[i]? with
    | none => none
    | some addr => some { s with
        readsBelow := s.readsBelow.eraseIdx i
        queue := s.queue ++ [⟨.memResponse none cfg.self, addr⟩] }
  | .deliver i =>
    match s.queue[i]? with
    | none => none
    | some event => handleEvent cfg { s with queue := s.queue.eraseIdx i } event
  | .redeliver i =>
    match s.requeued[i]? with
    | none => none
    | some (_, event) => handleEvent cfg { s with requeued := s.requeued.eraseIdx i } event
  | .setState addr state =>
    if state = .invalid then none else s.updateStateOfCacheLine cfg addr state

abbrev Step (cfg : HierarchyConfig C) :
    HierarchyCache C → Action C → HierarchyCache C → Prop := StepOf (next cfg)

end HierarchyCache

end Tejas
