import Tejas.FetchOrder

/-!
# The in-order pipeline with its fetch unit and its latches

Every stage reads its latch from the head, counts the instructions that went through it and
ends the simulation when the number of an instruction is not the number that it counted.
-/

namespace Tejas
open LabelledRuns BoundedLoop

structure RingConfig (B : Type) extends InorderConfig B, FetchBufferConfig

/-- `engine` has the clock, the units, the ready times, the stall and the predictor; the latches
of it stay empty. `exited` is the message that the simulation ended with. -/
structure RingPipeline (numPorts : ℕ) (B : Type) where
  engine : InorderPipeline numPorts B
  fetchUnit : FetchUnit
  ifIdLatch : StageRing NumberedInstruction
  idExLatch : StageRing NumberedInstruction
  exMemLatch : StageRing NumberedInstruction
  memWbLatch : StageRing NumberedInstruction
  decodeCtr : ℕ
  execCtr : ℕ
  memCtr : ℕ
  wbCtr : ℕ
  writtenBack : List NumberedInstruction
  exited : Option String

namespace NumberedInstruction

/-- The check that every stage makes before it counts an instruction. -/
def isOutOfOrder (ins : NumberedInstruction) (instCtr : ℕ) : Bool :=
  ins.serialNo ≠ instCtr ∧ ins.operationType ≠ .inValid

/-- A load of the address. -/
def awaitsAddress (address : ℤ) (ins : NumberedInstruction) : Bool :=
  ins.operationType = .load ∧ ins.sourceOperand1MemValue = address

end NumberedInstruction

namespace RingPipeline

variable {numPorts : ℕ} {B : Type}

def start (cfg : RingConfig B) (core : ExecutionCore numPorts) (predictor : B) :
    RingPipeline numPorts B where
  engine := .start cfg.toInorderConfig core predictor
  fetchUnit := .start
  ifIdLatch := .new cfg.issueWidth
  idExLatch := .new cfg.issueWidth
  exMemLatch := .new cfg.issueWidth
  memWbLatch := .new cfg.issueWidth
  decodeCtr := 0
  execCtr := 0
  memCtr := 0
  wbCtr := 0
  writtenBack := []
  exited := none

variable (cfg : RingConfig B) (s : RingPipeline numPorts B)

def now : ℤ := s.engine.now

/-- What decode does to an instruction that has no hazard and got its unit. -/
def decode (ins : NumberedInstruction) : Option (Round (RingPipeline numPorts B)) :=
  (s.engine.timeWhenValueReady ins.toFetchedInstruction).map fun time =>
    let engine := ((s.engine.addDestinations ins.toFetchedInstruction time).updateLastValidIP
      ins.toFetchedInstruction).predictBranch cfg.toInorderConfig ins.toFetchedInstruction
    if ins.isOutOfOrder s.decodeCtr then
      .stop { s with engine := engine, exited := some "decode out of order!!" }
    else
      let t := { s with
        engine := engine
        decodeCtr := s.decodeCtr + 1
        idExLatch := s.idExLatch.add ins (s.now + 1)
        ifIdLatch := (s.ifIdLatch.poll s.now).2 }
      if ins.operationType = .branch ∨ ins.operationType = .jump then .stop t else .again t

def decodeRound : Option (Round (RingPipeline numPorts B)) :=
  if s.ifIdLatch.isEmpty ∨ s.idExLatch.isFull then some (.stop s)
  else
    match s.ifIdLatch.peek s.now 0 with
    | none => some (.stop s)
    | some ins =>
      if s.engine.checkDataHazard ins.toFetchedInstruction then some (.stop s)
      else
        match s.engine.requestFU ins.operationType with
        | none => none
        | some (FURequest, core) =>
          let s := { s with engine := { s.engine with core := core } }
          if FURequest > 0 then some (.stop s) else s.decode cfg ins

def performDecode : Option (RingPipeline numPorts B) :=
  if s.engine.mispredStall > 0 then some s
  else
    loop (decodeRound cfg) (s.ifIdLatch.curSize + 1)
      { s with engine := { s.engine with core := s.engine.core.clearPortUsage } }

def executeRound : Option (Round (RingPipeline numPorts B)) :=
  if s.idExLatch.isEmpty ∨ s.exMemLatch.isFull then some (.stop s)
  else
    match s.idExLatch.peek s.now 0 with
    | none => some (.stop s)
    | some ins =>
      (s.engine.executeLatency ins.operationType).map fun lat =>
        if ins.isOutOfOrder s.execCtr then
          .stop { s with exited := some "exec out of order!!" }
        else
          .again { s with
            execCtr := s.execCtr + 1
            exMemLatch := s.exMemLatch.add ins (s.idExLatch.getInstructionCompletesAt + lat)
            idExLatch := (s.idExLatch.poll s.now).2 }

def execute : Option (RingPipeline numPorts B) :=
  if s.engine.mispredStall > 0 then some s else loop executeRound (s.idExLatch.curSize + 1) s

/-- What the memory stage does to an instruction that needs no request, or whose request was
accepted. -/
def moveToMemWb (ins : NumberedInstruction) (accepted : ℕ) :
    Round (RingPipeline numPorts B × ℕ) :=
  let lat := if ins.operationType = .load then longMax - s.now else 1
  if ins.isOutOfOrder s.memCtr then
    .stop ({ s with exited := some "mem out of order!!" }, accepted)
  else
    .again ({ s with
      memCtr := s.memCtr + 1
      memWbLatch := s.memWbLatch.add ins (s.now + lat)
      exMemLatch := (s.exMemLatch.poll s.now).2 }, accepted)

/-- The memory system accepts a number of requests before it refuses one. -/
def memRound (state : RingPipeline numPorts B × ℕ) :
    Option (Round (RingPipeline numPorts B × ℕ)) :=
  let s := state.1
  if s.exMemLatch.isEmpty ∨ s.memWbLatch.isFull then some (.stop state)
  else
    match s.exMemLatch.peek s.now 0 with
    | none => some (.stop state)
    | some ins =>
      if ins.operationType = .load ∨ ins.operationType = .store then
        match state.2 with
        | 0 => some (.stop state)
        | accepted + 1 => some (s.moveToMemWb ins accepted)
      else some (s.moveToMemWb ins state.2)

def performMemEvent (accepted : ℕ) : Option (RingPipeline numPorts B) :=
  if s.engine.mispredStall > 0 then some s
  else (loop memRound (s.exMemLatch.curSize + 1) (s, accepted)).map Prod.fst

/-- What the answer of the memory system does to the register of the instruction in a slot. -/
def completeSlot (latch : StageRing NumberedInstruction) (address now : ℤ)
    (engine : InorderPipeline numPorts B) (i : ℕ) : InorderPipeline numPorts B :=
  match latch.instructions i with
  | some ins =>
    if ins.awaitsAddress address ∧ latch.instructionCompletesAt i > now then
      engine.addToValueReadyArray ins.destinationOperand now
    else engine
  | none => engine

/-- The loop over the slots of the last latch. -/
def updateInstructionCompletions (address : ℤ) : RingPipeline numPorts B :=
  { s with
    engine := (List.range s.memWbLatch.size).foldl (completeSlot s.memWbLatch address s.now)
      s.engine
    memWbLatch := s.memWbLatch.complete (NumberedInstruction.awaitsAddress address) s.now }

def writeBackRound : Option (Round (RingPipeline numPorts B)) :=
  if s.memWbLatch.isEmpty then some (.stop s)
  else
    match s.memWbLatch.peek s.now 0 with
    | none => some (.stop s)
    | some ins =>
      if ins.isOutOfOrder s.wbCtr then
        some (.stop { s with exited := some "wb out of order!!" })
      else
        some (.again { s with
          wbCtr := s.wbCtr + 1
          memWbLatch := (s.memWbLatch.poll s.now).2
          writtenBack := s.writtenBack ++ [ins] })

def performWriteBack : Option (RingPipeline numPorts B) :=
  if s.engine.mispredStall > 0 then some s
  else loop writeBackRound (s.memWbLatch.curSize + 1) s

def performFetch (crosses : Bool) (rounds : ℕ) : Option (RingPipeline numPorts B) :=
  if s.engine.mispredStall > 0 then
    some { s with engine := { s.engine with mispredStall := s.engine.mispredStall - 1 } }
  else
    (s.fetchUnit.performFetch cfg.toFetchBufferConfig crosses rounds s.now s.ifIdLatch).map fun r =>
      { s with fetchUnit := r.1, ifIdLatch := r.2 }

end RingPipeline

/-- `fetch` says whether the thread is the last one at a barrier and for how many rounds the
instruction cache is not busy, `mem` how many requests the memory system accepts. -/
inductive RingLabel where
  | append (instructions : List NumberedInstruction)
  | writeback
  | instrCacheAnswer (requestedAddress : ℤ)
  | l1CacheAnswer (requestedAddress : ℤ)
  | resumePipeline
  | mem (accepted : ℕ)
  | exec
  | decode
  | fetch (crosses : Bool) (rounds : ℕ)
  | tick

/-- The instructions that the label puts into the input. -/
def RingLabel.appended : RingLabel → List NumberedInstruction
  | .append instructions => instructions
  | _ => []

namespace RingPipeline

variable {numPorts : ℕ} {B : Type}

/-- Nothing follows an exit. -/
def next (cfg : RingConfig B) (s : RingPipeline numPorts B) (label : RingLabel) :
    Option (RingPipeline numPorts B) :=
  if s.exited.isSome then none
  else
    match label with
    | .append instructions => some { s with fetchUnit := s.fetchUnit.append instructions }
    | .writeback => s.performWriteBack
    | .instrCacheAnswer requestedAddress =>
      some { s with
        fetchUnit :=
          s.fetchUnit.processCompletionOfMemRequest cfg.toFetchBufferConfig requestedAddress }
    | .l1CacheAnswer requestedAddress => some (s.updateInstructionCompletions requestedAddress)
    | .resumePipeline => some { s with fetchUnit := s.fetchUnit.resumePipeline }
    | .mem accepted => s.performMemEvent accepted
    | .exec => s.execute
    | .decode => s.performDecode cfg
    | .fetch crosses rounds => s.performFetch cfg crosses rounds
    | .tick => some { s with engine := { s.engine with now := s.engine.now + 1 } }

end RingPipeline

end Tejas
