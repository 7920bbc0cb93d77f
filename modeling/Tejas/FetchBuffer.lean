import Tejas.StageRing

/-!
# The fetch buffer of the in-order pipeline

`FetchUnitIn_MII` takes instructions out of the input of the pipeline, numbers them, requests
their program counters from the instruction cache and hands them to the first latch once the
cache has answered. The buffer is a ring with a first index and a number of entries.
-/

namespace Tejas
open RingWindow BoundedLoop

/-- An instruction with the number that the fetch unit gives it. -/
structure NumberedInstruction extends FetchedInstruction where
  serialNo : ℕ
  deriving DecidableEq

namespace NumberedInstruction

def isSync (ins : NumberedInstruction) : Bool := ins.operationType = .sync

def isInValid (ins : NumberedInstruction) : Bool := ins.operationType = .inValid

end NumberedInstruction

structure FetchBufferConfig where
  fetchBufferCapacity : ℕ
  detachMemSysData : Bool
  detachMemSysInsn : Bool
  treeBarrier : Bool

/-- `requested` are the addresses that were requested from the instruction cache and not
answered; `taken` came out of the input and `passed` left the buffer. These are kept beside the
unit. -/
structure FetchUnit where
  inputToPipeline : List NumberedInstruction
  fetchBuffer : ℕ → Option NumberedInstruction
  fetchFillCount : ℕ
  fetchBufferIndex : ℕ
  fetchBufferStatus : ℕ → Bool
  sleep : Bool
  instCtr : ℕ
  requested : List ℤ
  taken : List NumberedInstruction
  passed : List NumberedInstruction

namespace FetchUnit

def start : FetchUnit where
  inputToPipeline := []
  fetchBuffer := fun _ => none
  fetchFillCount := 0
  fetchBufferIndex := 0
  fetchBufferStatus := fun _ => false
  sleep := false
  instCtr := 0
  requested := []
  taken := []
  passed := []

/-- A load or a store that is not simulated. -/
def isDetached (cfg : FetchBufferConfig) (ins : NumberedInstruction) : Bool :=
  (ins.operationType = .load ∨ ins.operationType = .store) ∧ cfg.detachMemSysData

/-- The instruction cache is not asked for it. -/
def isKnown (cfg : FetchBufferConfig) (ins : NumberedInstruction) : Bool :=
  cfg.detachMemSysInsn ∨ ins.ciscProgramCounter = -1

variable (cfg : FetchBufferConfig) (u : FetchUnit)

/-- The next instruction leaves the input. -/
def poll (ins : NumberedInstruction) (rest : List NumberedInstruction) : FetchUnit :=
  { u with inputToPipeline := rest, taken := u.taken ++ [ins] }

def enter (i : ℕ) (ins : NumberedInstruction) (status : Bool) : FetchUnit :=
  { u with
    fetchBuffer := Function.update u.fetchBuffer i (some ins)
    fetchBufferStatus := Function.update u.fetchBufferStatus i status
    fetchFillCount := u.fetchFillCount + 1 }

/-- A barrier gets no number. -/
def setSerialNo (ins : NumberedInstruction) : NumberedInstruction × FetchUnit :=
  if ins.isSync then (ins, u)
  else ({ ins with serialNo := u.instCtr }, { u with instCtr := u.instCtr + 1 })

def issueRequestToInstrCache (address : ℤ) : FetchUnit :=
  { u with requested := u.requested ++ [address] }

/-- What becomes of an instruction that is neither dropped nor the end of the stream. -/
def enterNumbered (i : ℕ) (ins : NumberedInstruction) : FetchUnit :=
  let (ins, u) := u.setSerialNo ins
  let u := u.enter i ins (isKnown cfg ins)
  if isKnown cfg ins then u else u.issueRequestToInstrCache ins.ciscProgramCounter

/-- The loop of `fillFetchBuffer`. The instruction cache becomes busy after a number of rounds;
an instruction that is dropped leaves `i` as it is. -/
def fillLoop : ℕ → ℕ → FetchUnit → FetchUnit
  | 0, _, u => u
  | rounds + 1, i, u =>
    if u.fetchFillCount < cfg.fetchBufferCapacity then
      match u.inputToPipeline with
      | [] => u
      | newInstruction :: rest =>
        let u := u.poll newInstruction rest
        if isDetached cfg newInstruction then fillLoop rounds i u
        else if newInstruction.isInValid then u.enter i newInstruction true
        else
          fillLoop rounds ((i + 1) % cfg.fetchBufferCapacity) (u.enterNumbered cfg i newInstruction)
    else u

def fillFetchBuffer (rounds : ℕ) : FetchUnit :=
  if u.inputToPipeline.isEmpty then u
  else
    fillLoop cfg rounds ((u.fetchBufferIndex + u.fetchFillCount) % cfg.fetchBufferCapacity) u

/-- The first instruction leaves the buffer. -/
def pass (ins : NumberedInstruction) : FetchUnit :=
  { u with
    fetchFillCount := u.fetchFillCount - 1
    fetchBufferIndex := (u.fetchBufferIndex + 1) % cfg.fetchBufferCapacity
    passed := u.passed ++ [ins] }

/-- The slot is cleared. -/
def clearFirst : FetchUnit :=
  { u with
    fetchBuffer := Function.update u.fetchBuffer u.fetchBufferIndex none
    fetchBufferStatus := Function.update u.fetchBufferStatus u.fetchBufferIndex false }

/-- The state of the loop of `performFetch`, and whether the buffer is filled after it. -/
structure Delivery where
  unit : FetchUnit
  ifIdLatch : StageRing NumberedInstruction
  fills : Bool

/-- A round of the loop. At a barrier the unit falls asleep; unless the thread is the last one
or the barrier is a tree, the buffer is not filled in this cycle. -/
def deliverRound (crosses : Bool) (now : ℤ) (d : Delivery) : Option (Round Delivery) :=
  let u := d.unit
  if u.sleep ∨ u.fetchFillCount = 0 ∨ u.fetchBufferStatus u.fetchBufferIndex = false ∨
      d.ifIdLatch.isFull then
    some (.stop d)
  else
    match u.fetchBuffer u.fetchBufferIndex with
    | none => none
    | some ins =>
      if ins.isSync then
        let asleep := { u.pass cfg ins with sleep := true }
        if cfg.treeBarrier ∨ crosses then some (.again { d with unit := asleep })
        else some (.stop { d with unit := asleep, fills := false })
      else
        some (.again { d with
          unit := u.clearFirst.pass cfg ins
          ifIdLatch := d.ifIdLatch.add ins (now + 1) })

/-- `performFetch` when no branch is mispredicted. -/
def performFetch (crosses : Bool) (rounds : ℕ) (now : ℤ)
    (ifIdLatch : StageRing NumberedInstruction) :
    Option (FetchUnit × StageRing NumberedInstruction) :=
  (loop (deliverRound cfg crosses now) (u.fetchFillCount + 1) ⟨u, ifIdLatch, true⟩).map fun d =>
    (if d.fills then d.unit.fillFetchBuffer cfg rounds else d.unit, d.ifIdLatch)

def resumePipeline : FetchUnit := { u with sleep := false }

def processCompletionOfMemRequest (requestedAddress : ℤ) : FetchUnit :=
  { u with
    fetchBufferStatus := fun i =>
      u.fetchBufferStatus i ||
        decide (i < cfg.fetchBufferCapacity ∧
          ∃ ins ∈ u.fetchBuffer i, ins.ciscProgramCounter = requestedAddress)
    requested := u.requested.erase requestedAddress }

def append (instructions : List NumberedInstruction) : FetchUnit :=
  { u with inputToPipeline := u.inputToPipeline ++ instructions }

/-! ### The stream of instructions -/

/-- It counts for the numbers. -/
def takesSerialNo (ins : NumberedInstruction) : Bool :=
  !isDetached cfg ins && !ins.isInValid && !ins.isSync

/-- What the fetch unit makes of a stream, from a number on. -/
def numbered : ℕ → List NumberedInstruction → List NumberedInstruction
  | _, [] => []
  | n, ins :: rest =>
    if isDetached cfg ins then numbered n rest
    else if ins.isInValid || ins.isSync then ins :: numbered n rest
    else { ins with serialNo := n } :: numbered (n + 1) rest

/-- The slots in use, from the first one on. -/
def slots : List ℕ :=
  slotsFrom cfg.fetchBufferCapacity u.fetchBufferIndex 0 u.fetchFillCount

/-- The instructions in the buffer, the oldest first. -/
def contents : List NumberedInstruction := (u.slots cfg).filterMap u.fetchBuffer

end FetchUnit

end Tejas
