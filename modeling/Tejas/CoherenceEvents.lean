import Tejas.CacheLines

/-!
# The events of the coherence protocol

An `AddressCarryingEvent` has a request type, an address, and the elements it goes
between. Here a request names its elements, so that only the combinations the source
creates can be written: a core talks to its own cache, the directory to caches, a cache
to its core, to the directory, to the next level and to the cache it forwards a line to.
-/

namespace Tejas

/-- What a directory handles. The shared cache that has given a line up is not asked for
in its handler. -/
inductive DirectoryRequest (C : Type) where
  | directoryReadMiss (c : C)
  | directoryWriteMiss (c : C)
  | directoryWriteHit (c : C)
  | directoryEvictedFromCoherentCache (c : C)
  | directoryEvictedFromSharedCache
  deriving DecidableEq, Repr

/-- What the directory sends, each to the cache named first. `cacheRead` is sent in the
name of the cache to the next level. -/
inductive Reply (C : Type) where
  | evictCacheLine (c : C)
  | ackEvictCacheLine (c : C)
  | ackDirectoryWriteHit (c : C)
  | memResponse (c : C)
  | directoryCachelineForwardRequest (ownerCache destinationCache : C)
  | directorySharedToExclusive (c : C)
  | cacheRead (c : C)
  deriving DecidableEq, Repr

inductive Request (C : Type) where
  /-- `Cache_Read` and `Cache_Write` from the core of a cache. -/
  | cacheRead (c : C)
  | cacheWrite (c : C)
  /-- `Mem_Response` to a cache from another one, or from the next level. -/
  | memResponse (source : Option C) (c : C)
  | toDirectory (req : DirectoryRequest C)
  | fromDirectory (reply : Reply C)
  /-- `Cache_Write` from a cache to the next level. -/
  | writeThrough (c : C)
  /-- `Mem_Response` from a cache to its core. -/
  | acknowledgement (c : C)
  deriving DecidableEq, Repr

structure AddressCarryingEvent (C : Type) where
  request : Request C
  address : Address
  deriving DecidableEq

/-- An event on its way to its receiver, or put back into an event queue. -/
inductive Flight (E : Type) where
  | sent (event : E)
  | queued (event : E)
  deriving DecidableEq

namespace Flight

variable {E F : Type}

def event : Flight E → E
  | .sent event => event
  | .queued event => event

def map (f : E → F) : Flight E → Flight F
  | .sent event => .sent (f event)
  | .queued event => .queued (f event)

end Flight

inductive Element (C : Type) where
  | core (c : C)
  | cache (c : C)
  | directory
  | nextLevel
  deriving DecidableEq, Repr

/-- The sender and the receiver of a request. -/
def Request.channel {C : Type} : Request C → Element C × Element C
  | .cacheRead c => (.core c, .cache c)
  | .cacheWrite c => (.core c, .cache c)
  | .memResponse (some source) c => (.cache source, .cache c)
  | .memResponse none c => (.nextLevel, .cache c)
  | .toDirectory (.directoryReadMiss c) => (.cache c, .directory)
  | .toDirectory (.directoryWriteMiss c) => (.cache c, .directory)
  | .toDirectory (.directoryWriteHit c) => (.cache c, .directory)
  | .toDirectory (.directoryEvictedFromCoherentCache c) => (.cache c, .directory)
  | .toDirectory .directoryEvictedFromSharedCache => (.nextLevel, .directory)
  | .fromDirectory (.evictCacheLine c) => (.directory, .cache c)
  | .fromDirectory (.ackEvictCacheLine c) => (.directory, .cache c)
  | .fromDirectory (.ackDirectoryWriteHit c) => (.directory, .cache c)
  | .fromDirectory (.memResponse c) => (.directory, .cache c)
  | .fromDirectory (.directoryCachelineForwardRequest ownerCache _) =>
    (.directory, .cache ownerCache)
  | .fromDirectory (.directorySharedToExclusive c) => (.directory, .cache c)
  | .fromDirectory (.cacheRead c) => (.cache c, .nextLevel)
  | .writeThrough c => (.cache c, .nextLevel)
  | .acknowledgement c => (.cache c, .core c)

end Tejas
