import Tejas.PacketReader
import Tejas.JavaHashtable

/-!
# The fetch stage

`FetchLogic.java` moves instructions from `inputToPipeline` through the instruction
cache buffer to the fetch buffer. At a sync instruction it places a fence, puts the
core to sleep and drops the sync instruction. A sleeping core wakes up when a signal
for `sync_head_addr` has been recorded, or when `activate` is called at the release of
a barrier.

The other cores change the barrier table at any time. The answers of the instruction
cache to `isBusy` are given to each call, one for every question. `awaited` and
`history` record what the core waits for and what has happened; the stage never
reads them.
-/

namespace Tejas
open LabelledRuns JavaHashtable

structure FetchConfig where
  fetchWidth : ℕ
  fetchBufferSize : ℕ
  iCacheBufferSize : ℕ
  detachMemSysData : Bool
  detachMemSysInsn : Bool
  treeBarrier : Bool

/-- The fields of `Barrier.java` that the fetch stage uses. -/
structure Barrier where
  numThreads : ℕ
  numThreadsArrived : ℕ
  deriving DecidableEq, Repr

/-- What concerns the waiting of a core. -/
inductive SyncEvent where
  /-- A sync instruction for the address puts the core to sleep. -/
  | waits (address : ℤ)
  /-- An instruction of the input stream enters the instruction cache buffer. -/
  | enters (op : MicroOp)
  /-- A resume signal for the address arrives. -/
  | signalled (address : ℤ)
  /-- The sleeping core takes a signal for the address and wakes up. -/
  | takesSignal (address : ℤ)
  /-- The release of the barrier at the address reaches the core. -/
  | released (address : ℤ)
  deriving DecidableEq, Repr

structure FetchLogic where
  inputToPipeline : List MicroOp
  /-- The instruction cache buffer with its `fetchComplete` flags. -/
  iCacheBuffer : List (MicroOp × Bool)
  fetchBuffer : List MicroOp
  sleep : Bool
  signals : Hashtable ℤ ℤ
  resumeSignals : ℤ
  syncHeadAddr : ℤ
  barrierList : Hashtable ℤ Barrier
  awaited : Option ℤ
  history : List SyncEvent
  deriving DecidableEq, Repr

namespace FetchLogic

def initial (input : List MicroOp) : FetchLogic where
  inputToPipeline := input
  iCacheBuffer := []
  fetchBuffer := []
  sleep := false
  signals := .empty
  resumeSignals := 0
  syncHeadAddr := 0
  barrierList := .empty
  awaited := none
  history := []

/-- `ICacheBuffer.addToBuffer`. -/
def addToBuffer (cfg : FetchConfig) (s : FetchLogic) (op : MicroOp) : FetchLogic :=
  { s with iCacheBuffer := s.iCacheBuffer ++
      [(op, cfg.detachMemSysInsn || op.operationType = .inValid || op.ciscProgramCounter = -1)] }

/-- The first part of `performFetch`: fetched instructions move to the fetch buffer. -/
def fillFetchBuffer (cfg : FetchConfig) : ℕ → FetchLogic → FetchLogic
  | 0, s => s
  | n + 1, s =>
    if cfg.fetchBufferSize ≤ s.fetchBuffer.length then s
    else
      match s.iCacheBuffer with
      | (op, true) :: rest =>
        fillFetchBuffer cfg n { s with iCacheBuffer := rest, fetchBuffer := s.fetchBuffer ++ [op] }
      | _ => s

/-- The instruction cache buffer has room and the cache is not busy. -/
def hasPlace (cfg : FetchConfig) (busy : ℕ → ℤ → Bool) (question filled : ℕ) (address : ℤ) :
    Bool :=
  decide (filled < cfg.iCacheBufferSize) && !busy question address

/-- The core goes to sleep at the sync instruction for the address. -/
def fallAsleep (s : FetchLogic) (address : ℤ) : FetchLogic :=
  { s with sleep := true, awaited := some address, history := s.history ++ [.waits address] }

/-- The sync instruction behind its fence. The last thread at a barrier does not set
`sync_head_addr`. An address of 0 or 1 ends the simulation. -/
def processSync (cfg : FetchConfig) (s : FetchLogic) (address : ℤ) : Option FetchLogic :=
  if address = 1 ∨ address = 0 then none
  else
    match s.barrierList.get address with
    | none => some (fallAsleep { s with syncHeadAddr := address } address)
    | some bar =>
      let arrived : Barrier := ⟨bar.numThreads, bar.numThreadsArrived + 1⟩
      let t := { s with barrierList := s.barrierList.put address arrived }
      if cfg.treeBarrier then some (fallAsleep { t with syncHeadAddr := address } address)
      else if arrived.numThreads = arrived.numThreadsArrived then some (t.fallAsleep address)
      else some (fallAsleep { t with syncHeadAddr := address } address)

/-- Instructions that are dropped without any effect: interrupts, and memory operations
if the data memory system is detached. -/
def isDropped (cfg : FetchConfig) (op : MicroOp) : Bool :=
  op.operationType = .interrupt ||
    (cfg.detachMemSysData && (op.operationType = .load || op.operationType = .store))

/-- The second part of `performFetch`: `i` is the loop variable, `question` the number of
questions put to the cache so far. -/
def fetchLoop (cfg : FetchConfig) (busy : ℕ → ℤ → Bool) :
    ℕ → ℕ → FetchLogic → List MicroOp → Option FetchLogic
  | _, _, s, [] => some { s with inputToPipeline := [] }
  | i, question, s, op :: rest =>
    if cfg.iCacheBufferSize ≤ i then some { s with inputToPipeline := op :: rest }
    else if op.operationType = .sync then
      if hasPlace cfg busy question s.iCacheBuffer.length op.ciscProgramCounter then
        (processSync cfg (s.addToBuffer cfg ⟨.mfence, op.ciscProgramCounter⟩)
          op.ciscProgramCounter).bind (fun t => fetchLoop cfg busy i (question + 1) t rest)
      else some { s with inputToPipeline := op :: rest }
    else if isDropped cfg op then fetchLoop cfg busy i question s rest
    else if hasPlace cfg busy question s.iCacheBuffer.length op.ciscProgramCounter then
      let t := s.addToBuffer cfg op
      fetchLoop cfg busy (i + 1) (question + 1)
        { t with history := t.history ++ [.enters op] } rest
    else some { s with inputToPipeline := op :: rest }

/-- The count of the signals for an address after one has been taken. -/
def takeSignal (signals : Hashtable ℤ ℤ) (address count : ℤ) : Hashtable ℤ ℤ :=
  if count = 1 then signals.remove address else signals.put address (count - 1)

/-- The sleeping core looks for a signal. -/
def wakeUp (s : FetchLogic) : Option FetchLogic :=
  match s.signals.get s.syncHeadAddr with
  | none => some s
  | some count =>
    if s.resumeSignals - 1 < 0 then none
    else
      some { s with
        resumeSignals := s.resumeSignals - 1
        signals := takeSignal s.signals s.syncHeadAddr count
        sleep := false
        awaited := none
        history := s.history ++ [.takesSignal s.syncHeadAddr] }

/-- `performFetch`; `stalled` is true if the decode stage or a later one stalls. -/
def performFetch (cfg : FetchConfig) (s : FetchLogic) (stalled : Bool) (busy : ℕ → ℤ → Bool) :
    Option FetchLogic :=
  if s.sleep then s.wakeUp
  else
    let t := if stalled then s else s.fillFetchBuffer cfg cfg.fetchWidth
    fetchLoop cfg busy 0 0 t t.inputToPipeline

/-- `received_external_resume_signal`. -/
def receivedExternalResumeSignal (s : FetchLogic) (address : ℤ) : FetchLogic :=
  { s with
    resumeSignals := s.resumeSignals + 1
    signals :=
      match s.signals.get address with
      | none => s.signals.put address 1
      | some count => (s.signals.put address 1).put address (count + 1)
    history := s.history ++ [.signalled address] }

/-- `activate`, called when the barrier at the address is released. -/
def activate (s : FetchLogic) (address : ℤ) : FetchLogic :=
  { s with sleep := false, awaited := none, history := s.history ++ [.released address] }

/-- `ICacheBuffer.updateFetchComplete`. -/
def processCompletionOfMemRequest (s : FetchLogic) (address : ℤ) : FetchLogic :=
  { s with iCacheBuffer := s.iCacheBuffer.map (fun entry =>
      if entry.1.ciscProgramCounter = address then (entry.1, true) else entry) }

inductive Action where
  | performFetch (stalled : Bool) (busy : ℕ → ℤ → Bool)
  /-- The packet reader enqueues an instruction. -/
  | enqueue (op : MicroOp)
  | signal (address : ℤ)
  | release (address : ℤ)
  | completeFetch (address : ℤ)
  /-- The decode stage takes an instruction. -/
  | decode
  /-- The packet reader or another core changes the barrier table. -/
  | setBarrier (address : ℤ) (barrier : Barrier)

def next (cfg : FetchConfig) (s : FetchLogic) : Action → Option FetchLogic
  | .performFetch stalled busy => s.performFetch cfg stalled busy
  | .enqueue op => some { s with inputToPipeline := s.inputToPipeline ++ [op] }
  | .signal address => some (s.receivedExternalResumeSignal address)
  | .release address => some (s.activate address)
  | .completeFetch address => some (s.processCompletionOfMemRequest address)
  | .decode => some { s with fetchBuffer := s.fetchBuffer.tail }
  | .setBarrier address barrier =>
    some { s with barrierList := s.barrierList.put address barrier }

abbrev Step (cfg : FetchConfig) : FetchLogic → Action → FetchLogic → Prop := StepOf (next cfg)

end FetchLogic

end Tejas
