import Tejas.CacheLineViews
import Tejas.LabelledRuns

/-!
# A cache of banks that search each other

`DNucaBank.java`, and what it uses of `NucaCache.java`, `Cache.java` and `MSHR.java`. The
banks of a row of the network form a bank set. They share one MSHR and one list of
requests that wait for a free register. A request goes to a bank of the set that its
address selects. A miss there is broadcast to the other banks of the set; the bank that
has the line sends it one bank closer, and only when all of them answer with a miss is
the line read from the next level. Messages are handled in any order.

The banks have no directory (`mycoherence` is not set) and no cache below sends
`EvictCacheLine`. What leaves for the caches above and writes to the next level change
nothing here and are left out. `history` records the searches; the banks never read it.
-/

namespace Tejas
open LabelledRuns

/-- `NucaCache.Mapping`, as far as a D-NUCA accepts it. -/
inductive NucaMapping where
  | setAssociative
  | address
  deriving DecidableEq, Repr

structure NucaConfig where
  geometry : Geometry
  mapping : NucaMapping
  numLinesBits : ℕ
  mshrMaxSize : ℕ
  /-- The row of each bank, in the order in which the banks were created. -/
  rows : List ℕ
  rows_ne : rows ≠ []

namespace NucaConfig

/-- `bankSets.get(row)`, as `addToBankSet` fills it. -/
def bankSet (cfg : NucaConfig) (row : ℕ) : List ℕ :=
  (List.range cfg.rows.length).filter (fun bank => cfg.rows[bank]? = some row)

/-- `setId` of a bank. -/
def setId (cfg : NucaConfig) (bank : ℕ) : ℕ := cfg.rows.getD bank 0

def getBankNum (cfg : NucaConfig) (addr : Address) : ℕ :=
  let tag := match cfg.mapping with
    | .setAssociative => addr >>> (cfg.geometry.numSetsBits + cfg.geometry.blockSizeBits)
    | .address => addr >>> (cfg.numLinesBits + cfg.geometry.blockSizeBits)
  tag.toNat &&& (cfg.rows.length - 1)

/-- The bank set of an address. -/
def banksOf (cfg : NucaConfig) (addr : Address) : List ℕ :=
  cfg.bankSet (cfg.setId (cfg.getBankNum addr))

/-- `getMigrateDestination`: the next bank of the set in the direction of the root. -/
def getMigrateDestination (cfg : NucaConfig) (current root : ℕ) : Option ℕ :=
  let set := cfg.bankSet (cfg.setId root)
  if set.idxOf root > set.idxOf current then set[set.idxOf current + 1]?
  else if set.idxOf current = 0 then none
  else set[set.idxOf current - 1]?

end NucaConfig

/-! ### The lines of a bank -/

namespace LineArray

variable {σ : Type}

/-- The line `fill` uses in a bank: an invalid line is used also when it is locked. -/
def nucaFillLine (l : LineArray σ) (g : Geometry) (locked : Address → Bool) (addr : Address) :
    Option (ℕ × Bool) :=
  match l.access g addr with
  | some i => some (i, false)
  | none =>
    match (g.ways addr).find? (fun i => !(l.lines i).isValid) with
    | some i => some (i, false)
    | none => (l.leastRecent locked (g.ways addr) none).map (fun i => (i, true))

/-- `fill` in a bank, with the evicted line. -/
def nucaFill (l : LineArray σ) (g : Geometry) (locked : Address → Bool) (addr : Address)
    (stateToSet : MESI) : Option (LineArray σ × Option (CacheLine σ)) :=
  match l.nucaFillLine g locked addr with
  | none => none
  | some (i, evicted) =>
    some (l.place g i addr stateToSet, if evicted then some (l.lines i) else none)

/-- `isThereAnUnlockedOrInvalidEntryInCacheSet` in a bank. -/
def hasNucaEntry (l : LineArray σ) (g : Geometry) (locked : Address → Bool) (addr : Address) :
    Bool :=
  (g.ways addr).any (fun i => (l.lines i).address = addr || !(l.lines i).isValid ||
    !locked (l.lines i).address)

end LineArray

/-! ### Messages -/

/-- A read or a write of a cache above, with its identity as an object and the bank it was
sent to. -/
structure NucaRequest where
  id : ℕ
  bank : ℕ
  isWrite : Bool
  address : Address
  deriving DecidableEq

def NucaRequest.event (e : NucaRequest) : AddressCarryingEvent NucaRequest :=
  ⟨if e.isWrite then .cacheWrite e else .cacheRead e, e.address⟩

inductive NucaMessage where
  | request (e : NucaRequest)
  /-- `dn_status` 1: the broadcast of a request to another bank. -/
  | search (e : NucaRequest) (bank : ℕ)
  /-- `dn_status` 2, to the bank of the request. -/
  | hitReply (e : NucaRequest)
  /-- `dn_status` 3, to the bank of the request. -/
  | missReply (e : NucaRequest)
  | migrateBlock (bank : ℕ) (address : Address)
  | memResponse (bank : ℕ) (address : Address)
  deriving DecidableEq

inductive NucaRecord where
  | misses (e : NucaRequest)
  | finds (e : NucaRequest) (bank : ℕ)
  | answersMiss (e : NucaRequest) (bank : ℕ)
  | readsBelow (e : NucaRequest)
  deriving DecidableEq

/-- The exits of the simulator, and the exception of a vector. -/
inductive NucaExit where
  | hitMoreThanOnce
  | noPendingEvent
  | unholyMess
  | evictingLockedLine
  | cacheWriteExpectsLine
  | indexOutOfBounds
  deriving DecidableEq, Repr

structure NucaState where
  lines : ℕ → LineArray Unit
  mshr : MSHR NucaRequest
  eventsWaitingOnMSHR : List NucaRequest
  activeEventsInNuca : ℕ → NucaRequest → Option ℕ
  messages : List NucaMessage
  /-- The reads that the next level has not answered, with the bank they come from. -/
  readsBelow : List (ℕ × Address)
  nextId : ℕ
  history : List NucaRecord

namespace NucaState

def initial : NucaState where
  lines := fun _ => LineArray.new (fun _ => ())
  mshr := MSHR.empty
  eventsWaitingOnMSHR := []
  activeEventsInNuca := fun _ _ => none
  messages := []
  readsBelow := []
  nextId := 0
  history := []

def setLines (s : NucaState) (bank : ℕ) (lines : LineArray Unit) : NucaState :=
  { s with lines := Function.update s.lines bank lines }

def setActive (s : NucaState) (e : NucaRequest) (count : Option ℕ) : NucaState :=
  { s with activeEventsInNuca := fun bank e' =>
      if bank = e.bank ∧ e' = e then count else s.activeEventsInNuca bank e' }

def send (s : NucaState) (messages : List NucaMessage) : NucaState :=
  { s with messages := s.messages ++ messages }

def record (s : NucaState) (r : NucaRecord) : NucaState :=
  { s with history := s.history ++ [r] }

def isAddrInMSHR (cfg : NucaConfig) (s : NucaState) (addr : Address) : Bool :=
  s.mshr.isAddrInMSHR cfg.geometry.blockSizeBits addr

def addToMSHR (cfg : NucaConfig) (s : NucaState) (e : NucaRequest) : NucaState :=
  { s with mshr := s.mshr.addToMSHR cfg.geometry.blockSizeBits e.event }

/-- `isMSHRFull(addr)`. The MSHR belongs to the `NucaCache`, whose own lines are never
filled. -/
def isMSHRFull (cfg : NucaConfig) (s : NucaState) (addr : Address) : Bool :=
  decide (cfg.mshrMaxSize ≤ s.mshr.mshrSize) ||
    decide (cfg.geometry.assoc - 1 ≤ (cfg.geometry.ways addr).countP (fun i =>
      s.isAddrInMSHR cfg ((LineArray.new (fun _ => ())).lines i).address))

/-! ### Requests -/

def broadcastRequest (cfg : NucaConfig) (s : NucaState) (e : NucaRequest) : NucaState :=
  (s.send (((cfg.bankSet (cfg.setId e.bank)).filter (fun bank => bank ≠ e.bank)).map
    (NucaMessage.search e))).setActive e (some 0)

def handleAccess (cfg : NucaConfig) (s : NucaState) (e : NucaRequest) : NucaState :=
  match (s.lines e.bank).accessAndMark cfg.geometry e.address with
  | (some _, lines) => s.setLines e.bank lines
  | (none, lines) =>
    (((s.setLines e.bank lines).addToMSHR cfg e).record (.misses e)).broadcastRequest cfg e

/-- `handleEvent` for a read or a write. -/
def handleRequest (cfg : NucaConfig) (s : NucaState) (e : NucaRequest) : NucaState :=
  if s.isAddrInMSHR cfg e.address then s.addToMSHR cfg e else s.handleAccess cfg e

/-- The loop of `processEventsInPendingList`. -/
def pendingLoop (cfg : NucaConfig) : NucaState → List NucaRequest → NucaState
  | s, [] => s
  | s, e :: rest =>
    if s.isMSHRFull cfg e.address then
      pendingLoop cfg { s with eventsWaitingOnMSHR := s.eventsWaitingOnMSHR ++ [e] } rest
    else pendingLoop cfg (s.handleRequest cfg e) rest

def processEventsInPendingList (cfg : NucaConfig) (s : NucaState) : NucaState :=
  pendingLoop cfg { s with eventsWaitingOnMSHR := [] } s.eventsWaitingOnMSHR

/-! ### Filling a line -/

/-- The loop of `processEventsInMSHR` over the requests that were waiting. -/
def processEvents (cfg : NucaConfig) (bank : ℕ) (addr : Address) :
    NucaState → List (AddressCarryingEvent NucaRequest) → Except NucaExit NucaState
  | s, [] => .ok s
  | s, event :: rest =>
    if MSHR.isCacheWrite event then
      match (s.lines bank).accessValid cfg.geometry addr with
      | none => .error .cacheWriteExpectsLine
      | some _ => processEvents cfg bank addr
          (s.setLines bank ((s.lines bank).setState cfg.geometry addr .modified)) rest
    else processEvents cfg bank addr s rest

def processEventsInMSHR (cfg : NucaConfig) (s : NucaState) (bank : ℕ) (addr : Address) :
    Except NucaExit NucaState :=
  match s.mshr.removeEventsFromMSHR cfg.geometry.blockSizeBits addr with
  | none => .error .noPendingEvent
  | some (missList, mshr) =>
    match processEvents cfg bank addr { s with mshr := mshr } missList with
    | .error exit => .error exit
    | .ok t => .ok (t.processEventsInPendingList cfg)

/-- The check of `handleEvictedLine`. -/
def evictsLocked (cfg : NucaConfig) (s : NucaState) (evictedLine : Option (CacheLine Unit)) :
    Bool :=
  evictedLine.any (fun line => line.isValid && s.isAddrInMSHR cfg line.address)

/-- `fillAndSatisfyRequests`, and `fillAndSatisfyRequestsMigration`, which counts other
statistics. -/
def fillAndSatisfyRequests (cfg : NucaConfig) (s : NucaState) (bank : ℕ) (addr : Address) :
    Except NucaExit NucaState :=
  match (s.lines bank).nucaFill cfg.geometry (s.isAddrInMSHR cfg) addr .shared with
  | none => .error .unholyMess
  | some (lines, evictedLine) =>
    if (s.setLines bank lines).evictsLocked cfg evictedLine then .error .evictingLockedLine
    else (s.setLines bank lines).processEventsInMSHR cfg bank addr

/-- `handleMemResponse` and `handleMigration`: without a line to use the message is put back
into the event queue. -/
def handleFill (cfg : NucaConfig) (s : NucaState) (message : NucaMessage) (bank : ℕ)
    (addr : Address) : Except NucaExit NucaState :=
  if (s.lines bank).hasNucaEntry cfg.geometry (s.isAddrInMSHR cfg) addr then
    s.fillAndSatisfyRequests cfg bank addr
  else .ok (s.send [message])

/-! ### Searches -/

/-- The bank gives the line that it found at the index away. -/
def doMigration (cfg : NucaConfig) (s : NucaState) (e : NucaRequest) (bank i : ℕ) :
    Except NucaExit NucaState :=
  match cfg.getMigrateDestination bank e.bank with
  | none => .error .indexOutOfBounds
  | some destination =>
    let invalidated := (s.lines bank).setLine i { (s.lines bank).lines i with state := .invalid }
    .ok (((s.setLines bank invalidated).record (.finds e bank)).send
      [.migrateBlock destination e.address, .hitReply e])

def handleBroadcastAccess (cfg : NucaConfig) (s : NucaState) (e : NucaRequest) (bank : ℕ) :
    Except NucaExit NucaState :=
  if s.activeEventsInNuca e.bank e = none ∨
      s.mshr.getWaitingEventsInMSHR cfg.geometry.blockSizeBits e.address = none then .ok s
  else
    match (s.lines bank).accessAndMark cfg.geometry e.address with
    | (some i, lines) => (s.setLines bank lines).doMigration cfg e bank i
    | (none, lines) =>
      .ok (((s.setLines bank lines).record (.answersMiss e bank)).send [.missReply e])

/-- The hit reply in `handleAccessDNuca`. -/
def handleHitReply (s : NucaState) (e : NucaRequest) : Except NucaExit NucaState :=
  match s.activeEventsInNuca e.bank e with
  | none => .error .hitMoreThanOnce
  | some _ => .ok (s.setActive e none)

/-- The miss reply in `handleAccessDNuca`. -/
def handleMissReply (cfg : NucaConfig) (s : NucaState) (e : NucaRequest) : NucaState :=
  match s.activeEventsInNuca e.bank e with
  | none => s
  | some count =>
    if count + 1 = (cfg.bankSet (cfg.setId e.bank)).length - 1 then
      { (s.setActive e none).record (.readsBelow e) with
        readsBelow := s.readsBelow ++ [(e.bank, e.address)] }
    else s.setActive e (some (count + 1))

def handleEvent (cfg : NucaConfig) (s : NucaState) : NucaMessage → Except NucaExit NucaState
  | .request e => .ok (s.handleRequest cfg e)
  | .search e bank => s.handleBroadcastAccess cfg e bank
  | .hitReply e => s.handleHitReply e
  | .missReply e => .ok (s.handleMissReply cfg e)
  | .migrateBlock bank addr => s.handleFill cfg (.migrateBlock bank addr) bank addr
  | .memResponse bank addr => s.handleFill cfg (.memResponse bank addr) bank addr

/-! ### Runs -/

inductive Action where
  /-- `addEventAtLowerCache` of a cache above, for a bank of the set of the address. -/
  | request (bank : ℕ) (isWrite : Bool) (address : Address)
  | deliver (i : ℕ)
  /-- The next level answers one of the reads. -/
  | answer (i : ℕ)
  deriving DecidableEq

/-- The state without the message. -/
def take (s : NucaState) (i : ℕ) : NucaState := { s with messages := s.messages.eraseIdx i }

def addRequest (cfg : NucaConfig) (s : NucaState) (e : NucaRequest) : NucaState :=
  if s.isMSHRFull cfg e.address then
    { s with eventsWaitingOnMSHR := s.eventsWaitingOnMSHR ++ [e], nextId := s.nextId + 1 }
  else { s.send [.request e] with nextId := s.nextId + 1 }

def next (cfg : NucaConfig) (s : NucaState) : Action → Option NucaState
  | .request bank isWrite address =>
    if bank ∈ cfg.banksOf address then some (s.addRequest cfg ⟨s.nextId, bank, isWrite, address⟩)
    else none
  | .deliver i =>
    match s.messages[i]? with
    | none => none
    | some message =>
      match handleEvent cfg (s.take i) message with
      | .error _ => none
      | .ok t => some t
  | .answer i =>
    match s.readsBelow[i]? with
    | none => none
    | some (bank, addr) =>
      some { s.send [.memResponse bank addr] with readsBelow := s.readsBelow.eraseIdx i }

abbrev Step (cfg : NucaConfig) : NucaState → Action → NucaState → Prop := StepOf (next cfg)

/-- The bank holds a valid copy of the line. -/
def Holds (cfg : NucaConfig) (s : NucaState) (bank : ℕ) (addr : Address) : Prop :=
  (s.lines bank).stateAt cfg.geometry addr ≠ .invalid

/-- Nothing is on its way. -/
def Quiescent (s : NucaState) : Prop := s.messages = [] ∧ s.readsBelow = []

end NucaState

end Tejas
