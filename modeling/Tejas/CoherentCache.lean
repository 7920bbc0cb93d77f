import Tejas.CacheFill
import Tejas.MissRegister

/-!
# A private coherent cache

`Cache.java` for a first-level cache attached to a directory: no cache is above it, so
no events wait for a free register and a change of state reaches no other cache. A
handler returns the cache and the events it creates, or the exit it takes.
-/

namespace Tejas

inductive WritePolicy where
  | writeThrough
  | writeBack
  deriving DecidableEq, Repr

structure CacheConfig where
  geometry : Geometry
  writePolicy : WritePolicy

inductive CacheExit where
  | noPendingEventInMSHR
  | cannotInvalidateLockedLine
  | cacheWriteExpectsLine
  | ackWriteHitExpectsLine
  | evictingLockedLine
  | noLineToFill
  deriving DecidableEq, Repr

structure Cache (C : Type) where
  lines : LineArray Unit
  mshr : MSHR C

namespace Cache

variable {C : Type}

def new : Cache C := ⟨LineArray.new (fun _ => ()), MSHR.empty⟩

def isAddrInMSHR (cache : Cache C) (g : Geometry) (addr : Address) : Bool :=
  cache.mshr.isAddrInMSHR g.blockSizeBits addr

def addToMSHR (cache : Cache C) (g : Geometry) (event : AddressCarryingEvent C) : Cache C :=
  { cache with mshr := cache.mshr.addToMSHR g.blockSizeBits event }

def updateStateOfCacheLine (cache : Cache C) (g : Geometry) (addr : Address) (newState : MESI) :
    Except CacheExit (Cache C) :=
  match cache.lines.access g addr with
  | none => .ok cache
  | some _ =>
    if newState = .invalid ∧ cache.isAddrInMSHR g addr then .error .cannotInvalidateLockedLine
    else .ok { cache with lines := cache.lines.setState g addr newState }

/-- The loop of `processEventsInMSHR` over the events that were waiting, and what follows
it. -/
def processEvents (cfg : CacheConfig) (self : C) (addr : Address) (cache : Cache C)
    (written : Bool) : List (AddressCarryingEvent C) →
      Except CacheExit (Cache C × List (Flight (AddressCarryingEvent C)))
  | [] => .ok (cache, if written ∧ cfg.writePolicy = .writeThrough then
      [.sent ⟨.writeThrough self, addr⟩] else [])
  | event :: rest =>
    match event.request with
    | .cacheRead c => do
      let (cache, flights) ← processEvents cfg self addr cache written rest
      return (cache, .sent ⟨.acknowledgement c, event.address⟩ :: flights)
    | .cacheWrite _ =>
      match cache.lines.accessValid cfg.geometry addr with
      | some _ => do
        let cache ← cache.updateStateOfCacheLine cfg.geometry addr .modified
        processEvents cfg self addr cache true rest
      | none => .error .cacheWriteExpectsLine
    | .toDirectory (.directoryEvictedFromCoherentCache _) => do
      let cache ← cache.updateStateOfCacheLine cfg.geometry addr .invalid
      return (cache, rest.map .queued)
    | .fromDirectory (.evictCacheLine _) => do
      let cache ← cache.updateStateOfCacheLine cfg.geometry addr .invalid
      return (cache, rest.map .queued)
    | _ => processEvents cfg self addr cache written rest

def processEventsInMSHR (cfg : CacheConfig) (self : C) (cache : Cache C) (addr : Address) :
    Except CacheExit (Cache C × List (Flight (AddressCarryingEvent C))) :=
  match cache.mshr.removeEventsFromMSHR cfg.geometry.blockSizeBits addr with
  | none => .error .noPendingEventInMSHR
  | some (missList, mshr) =>
    processEvents cfg self addr { cache with mshr := mshr } false missList

def handleEvictedLine (cfg : CacheConfig) (self : C) (cache : Cache C)
    (evictedLine : Option (CacheLine Unit)) :
    Except CacheExit (Cache C × List (Flight (AddressCarryingEvent C))) :=
  match evictedLine with
  | none => .ok (cache, [])
  | some evictedLine =>
    if evictedLine.state = .invalid then .ok (cache, [])
    else if cache.isAddrInMSHR cfg.geometry evictedLine.address then .error .evictingLockedLine
    else
      let evictEvent : AddressCarryingEvent C :=
        ⟨.toDirectory (.directoryEvictedFromCoherentCache self), evictedLine.address⟩
      .ok (cache.addToMSHR cfg.geometry evictEvent, [.sent evictEvent])

def fillAndSatisfyRequests (cfg : CacheConfig) (self : C) (cache : Cache C) (addr : Address) :
    Except CacheExit (Cache C × List (Flight (AddressCarryingEvent C))) :=
  match cache.lines.fill cfg.geometry (cache.isAddrInMSHR cfg.geometry) addr .shared with
  | none => .error .noLineToFill
  | some (lines, evictedLine) => do
    let (cache, evictions) ← handleEvictedLine cfg self { cache with lines := lines } evictedLine
    let (cache, flights) ← processEventsInMSHR cfg self cache addr
    return (cache, evictions ++ flights)

/-- A response that finds no line it may use. -/
def postpones (cache : Cache C) (g : Geometry) (event : AddressCarryingEvent C) : Bool :=
  match event.request with
  | .memResponse _ _ | .fromDirectory (.memResponse _) =>
    !cache.lines.isThereAnUnlockedOrInvalidEntryInCacheSet g (cache.isAddrInMSHR g) event.address
  | _ => false

/-- A response that finds no line it may use is put back into the event queue. -/
def handleMemResponse (cfg : CacheConfig) (self : C) (cache : Cache C)
    (event : AddressCarryingEvent C) :
    Except CacheExit (Cache C × List (Flight (AddressCarryingEvent C))) :=
  if cache.lines.isThereAnUnlockedOrInvalidEntryInCacheSet cfg.geometry
      (cache.isAddrInMSHR cfg.geometry) event.address then
    fillAndSatisfyRequests cfg self cache event.address
  else .ok (cache, [.queued event])

/-- A write that hits: to the next level by policy, to the directory if the line is
clean. -/
def writeHit (cfg : CacheConfig) (self : C) (cache : Cache C) (event : AddressCarryingEvent C)
    (state : MESI) : Cache C × List (Flight (AddressCarryingEvent C)) :=
  let through : List (Flight (AddressCarryingEvent C)) := if cfg.writePolicy = .writeThrough then
    [.sent ⟨.writeThrough self, event.address⟩] else []
  if state = .shared ∨ state = .exclusive then
    (cache.addToMSHR cfg.geometry event,
      through ++ [.sent ⟨.toDirectory (.directoryWriteHit self), event.address⟩])
  else (cache, through)

/-- `handleAccess` and `cacheHit`. -/
def handleAccess (cfg : CacheConfig) (self : C) (cache : Cache C)
    (event : AddressCarryingEvent C) (isWrite : Bool) :
    Cache C × List (Flight (AddressCarryingEvent C)) :=
  let (cl, lines) := cache.lines.accessAndMark cfg.geometry event.address
  let cache := { cache with lines := lines }
  match cl with
  | some i =>
    if isWrite then writeHit cfg self cache event (lines.lines i).state
    else (cache, [.sent ⟨.acknowledgement self, event.address⟩])
  | none =>
    (cache.addToMSHR cfg.geometry event,
      [.sent ⟨.toDirectory (if isWrite then .directoryWriteMiss self
        else .directoryReadMiss self), event.address⟩])

def handleAckDirectoryWriteHit (cfg : CacheConfig) (self : C) (cache : Cache C)
    (addr : Address) :
    Except CacheExit (Cache C × List (Flight (AddressCarryingEvent C))) :=
  match cache.lines.accessValid cfg.geometry addr with
  | none => .error .ackWriteHitExpectsLine
  | some _ => processEventsInMSHR cfg self cache addr

def handleDirectoryCachelineForwardRequest (cfg : CacheConfig) (self : C) (cache : Cache C)
    (addr : Address) (destination : C) :
    Except CacheExit (Cache C × List (Flight (AddressCarryingEvent C))) := do
  let cache ← cache.updateStateOfCacheLine cfg.geometry addr .shared
  return (cache, [.sent ⟨.memResponse (some self) destination, addr⟩])

/-- `handleEvent`, for the requests a cache receives. -/
def handleEvent (cfg : CacheConfig) (self : C) (cache : Cache C)
    (event : AddressCarryingEvent C) :
    Except CacheExit (Cache C × List (Flight (AddressCarryingEvent C))) :=
  let locked := cache.isAddrInMSHR cfg.geometry event.address
  match event.request with
  | .cacheRead _ =>
    if locked then .ok (cache.addToMSHR cfg.geometry event, [])
    else .ok (handleAccess cfg self cache event false)
  | .cacheWrite _ =>
    if locked then .ok (cache.addToMSHR cfg.geometry event, [])
    else .ok (handleAccess cfg self cache event true)
  | .fromDirectory (.evictCacheLine _) =>
    if locked then .ok (cache.addToMSHR cfg.geometry event, [])
    else do
      let cache ← cache.updateStateOfCacheLine cfg.geometry event.address .invalid
      return (cache, [])
  | .memResponse _ _ => handleMemResponse cfg self cache event
  | .fromDirectory (.memResponse _) => handleMemResponse cfg self cache event
  | .fromDirectory (.ackEvictCacheLine _) => processEventsInMSHR cfg self cache event.address
  | .fromDirectory (.directoryCachelineForwardRequest _ destination) =>
    handleDirectoryCachelineForwardRequest cfg self cache event.address destination
  | .fromDirectory (.directorySharedToExclusive _) => do
    let cache ← cache.updateStateOfCacheLine cfg.geometry event.address .exclusive
    return (cache, [])
  | .fromDirectory (.ackDirectoryWriteHit _) =>
    handleAckDirectoryWriteHit cfg self cache event.address
  | _ => .ok (cache, [])

end Cache

end Tejas
