import Tejas.BoundedLoop
import Tejas.ExecutionCore
import Mathlib.Algebra.Ring.Int.Defs

/-!
# The multi-issue in-order pipeline

Instructions move through five stages, which hand them on in latches. Decode waits for the
registers that an instruction reads, requests a functional unit and records when the registers
that it writes are ready. A load takes its place in the last latch until the memory system
answers. Which instructions the fetch buffer delivers, how many requests the memory system
accepts and when it answers is left to the labels of a run.
-/

namespace Tejas
open LabelledRuns BoundedLoop

/-- `Long.MAX_VALUE` -/
def longMax : ℤ := 2 ^ 63 - 1

/-- An instruction with the fields that the in-order pipeline reads besides its operands. The
micro-operations of an instruction after the first have the program counter `-1`. -/
structure FetchedInstruction extends Instruction where
  ciscProgramCounter : ℤ
  branchTaken : Bool
  sourceOperand1MemValue : ℤ
  deriving DecidableEq

/-- `valueReadyAt` is the time at which the results of the instruction are there. It is kept
beside the latch, which never reads it. -/
structure LatchEntry where
  instruction : FetchedInstruction
  instructionCompletesAt : ℤ
  valueReadyAt : ℤ
  deriving DecidableEq

/-- `StageLatch_MII`, the entries from its head on. -/
structure StageLatch where
  size : ℕ
  entries : List LatchEntry

namespace StageLatch

def new (size : ℕ) : StageLatch := ⟨size, []⟩

variable (latch : StageLatch) (now : ℤ)

def isFull : Bool := latch.size ≤ latch.entries.length

def isEmpty : Bool := latch.entries.isEmpty

def add (e : LatchEntry) : StageLatch := { latch with entries := latch.entries ++ [e] }

/-- `peek(0)`, with the time that `getInstructionCompletesAt` finds for the instruction. -/
def peek : Option LatchEntry :=
  latch.entries.head?.filter (fun e => e.instructionCompletesAt ≤ now)

def poll : StageLatch :=
  if (latch.peek now).isSome then { latch with entries := latch.entries.tail } else latch

variable {latch now}

theorem peek_eq_some {e : LatchEntry} (h : latch.peek now = some e) :
    ∃ rest, latch.entries = e :: rest ∧ (latch.poll now).entries = rest := by
  have hpoll : (latch.poll now).entries = latch.entries.tail := by
    rw [poll, if_pos (by rw [h]; rfl)]
  cases hentries : latch.entries with
  | nil =>
    rw [peek, hentries] at h
    cases h
  | cons first rest =>
    rw [peek, hentries, List.head?_cons, Option.filter_eq_some_iff] at h
    cases h.1
    exact ⟨rest, rfl, by rw [hpoll, hentries, List.tail_cons]⟩

end StageLatch

/-- `predict` is given an address and the outcome, `Train` the prediction as well. -/
structure BranchPredictor (B : Type) where
  predict : B → ℤ → Bool → Bool × B
  train : B → ℤ → Bool → Bool → B

structure InorderConfig (B : Type) extends BranchPredictor B where
  issueWidth : ℕ
  branchMispredictionPenalty : ℤ

/-- The instructions that were fetched and those that were written back, and the calls of the
branch predictor, are kept beside the pipeline. -/
structure InorderPipeline (numPorts : ℕ) (B : Type) where
  now : ℤ
  core : ExecutionCore numPorts
  ifIdLatch : StageLatch
  idExLatch : StageLatch
  exMemLatch : StageLatch
  memWbLatch : StageLatch
  valueReady : RegisterType × ℕ → ℤ
  mispredStall : ℤ
  lastValidIPSeen : ℤ
  predictor : B
  fetched : List FetchedInstruction
  writtenBack : List LatchEntry
  predicted : List (ℤ × Bool)
  trained : List (ℤ × Bool)

namespace InorderPipeline

variable {numPorts : ℕ} {B : Type}

def start (cfg : InorderConfig B) (core : ExecutionCore numPorts) (predictor : B) :
    InorderPipeline numPorts B where
  now := 0
  core := core
  ifIdLatch := .new cfg.issueWidth
  idExLatch := .new cfg.issueWidth
  exMemLatch := .new cfg.issueWidth
  memWbLatch := .new cfg.issueWidth
  valueReady := fun _ => 0
  mispredStall := 0
  lastValidIPSeen := -1
  predictor := predictor
  fetched := []
  writtenBack := []
  predicted := []
  trained := []

variable (cfg : InorderConfig B) (s : InorderPipeline numPorts B)

/-! ### Decode -/

def isOperandReady (opnd : Option Operand) : Bool :=
  (opnd.toList.flatMap Operand.registers).all (fun r => s.valueReady r ≤ s.now)

def checkDataHazard (ins : FetchedInstruction) : Bool :=
  !(s.isOperandReady ins.sourceOperand1 && s.isOperandReady ins.sourceOperand2)

/-- The check for structural hazards. -/
def requestFU (opType : OperationType) : Option (ℤ × ExecutionCore numPorts) :=
  if opType.getFUType = .inValid then some (0, s.core)
  else s.core.requestFU opType.getFUType s.now

/-- The time that decode records for the results. `none` is an exception: a load has no
destination, or there is no unit whose latency could be asked for. -/
def timeWhenValueReady (ins : FetchedInstruction) : Option ℤ :=
  match ins.operationType with
  | .load => ins.destinationOperand.map (fun _ => longMax)
  | .xchg => (s.core.getFULatency ins.operationType.getFUType).map (fun lat => s.now + lat)
  | _ =>
    match ins.destinationOperand with
    | none => some s.now
    | some _ => (s.core.getFULatency ins.operationType.getFUType).map (fun lat => s.now + lat)

def addToValueReadyArray (destOpnd : Option Operand) (timeWhenValueReady : ℤ) :
    InorderPipeline numPorts B :=
  match destOpnd.bind Operand.register? with
  | some r => { s with valueReady := Function.update s.valueReady r timeWhenValueReady }
  | none => s

def addDestinations (ins : FetchedInstruction) (time : ℤ) : InorderPipeline numPorts B :=
  match ins.operationType with
  | .xchg =>
    let s := s.addToValueReadyArray ins.sourceOperand1 time
    if ins.sourceOperand1.bind Operand.register? ≠ ins.sourceOperand2.bind Operand.register? then
      s.addToValueReadyArray ins.sourceOperand2 time
    else s
  | _ => s.addToValueReadyArray ins.destinationOperand time

def setMispredStall (stallFetch : ℤ) : InorderPipeline numPorts B :=
  if s.mispredStall > stallFetch then s else { s with mispredStall := stallFetch }

/-- The branch is predicted at the last valid program counter, and the predictor is trained at
the program counter of the branch itself. -/
def predictBranch (ins : FetchedInstruction) : InorderPipeline numPorts B :=
  if ins.operationType = .branch then
    let (prediction, predictor) :=
      cfg.predict s.predictor s.lastValidIPSeen ins.branchTaken
    let stalled :=
      if prediction ≠ ins.branchTaken then s.setMispredStall cfg.branchMispredictionPenalty
      else s
    { stalled with
      predictor := cfg.train predictor ins.ciscProgramCounter ins.branchTaken prediction
      predicted := s.predicted ++ [(s.lastValidIPSeen, ins.branchTaken)]
      trained := s.trained ++ [(ins.ciscProgramCounter, ins.branchTaken)] }
  else s

def updateLastValidIP (ins : FetchedInstruction) : InorderPipeline numPorts B :=
  if ins.ciscProgramCounter ≠ -1 then { s with lastValidIPSeen := ins.ciscProgramCounter }
  else s

/-- What decode does to an instruction that has no hazard and got its unit. -/
def decode (ins : FetchedInstruction) : Option (InorderPipeline numPorts B) :=
  (s.timeWhenValueReady ins).map (fun time =>
    let s := ((s.addDestinations ins time).updateLastValidIP ins).predictBranch cfg ins
    { s with
      idExLatch := s.idExLatch.add ⟨ins, s.now + 1, time⟩
      ifIdLatch := s.ifIdLatch.poll s.now })

def decodeRound : Option (Round (InorderPipeline numPorts B)) :=
  if s.ifIdLatch.isEmpty ∨ s.idExLatch.isFull then some (.stop s)
  else
    match s.ifIdLatch.peek s.now with
    | none => some (.stop s)
    | some e =>
      if s.checkDataHazard e.instruction then some (.stop s)
      else
        match s.requestFU e.instruction.operationType with
        | none => none
        | some (FURequest, core) =>
          if FURequest > 0 then some (.stop { s with core := core })
          else
            (decode cfg { s with core := core } e.instruction).map (fun s =>
              if e.instruction.operationType = .branch ∨ e.instruction.operationType = .jump then
                .stop s
              else .again s)

def performDecode : Option (InorderPipeline numPorts B) :=
  if s.mispredStall > 0 then some s
  else
    loop (decodeRound cfg) (s.ifIdLatch.entries.length + 1)
      { s with core := s.core.clearPortUsage }

/-! ### Execute -/

def executeLatency (opType : OperationType) : Option ℤ :=
  if opType.getFUType ≠ .memory ∧ opType.getFUType ≠ .inValid then
    s.core.getFULatency opType.getFUType
  else some 1

def executeRound : Option (Round (InorderPipeline numPorts B)) :=
  if s.idExLatch.isEmpty ∨ s.exMemLatch.isFull then some (.stop s)
  else
    match s.idExLatch.peek s.now with
    | none => some (.stop s)
    | some e =>
      (s.executeLatency e.instruction.operationType).map (fun lat =>
        .again { s with
          exMemLatch := s.exMemLatch.add
            { e with instructionCompletesAt := e.instructionCompletesAt + lat }
          idExLatch := s.idExLatch.poll s.now })

def execute : Option (InorderPipeline numPorts B) :=
  if s.mispredStall > 0 then some s else loop executeRound (s.idExLatch.entries.length + 1) s

/-! ### Memory -/

def moveToMemWb (e : LatchEntry) : InorderPipeline numPorts B :=
  let lat := if e.instruction.operationType = .load then longMax - s.now else 1
  { s with
    memWbLatch := s.memWbLatch.add { e with instructionCompletesAt := s.now + lat }
    exMemLatch := s.exMemLatch.poll s.now }

/-- The memory system accepts a number of requests before it refuses one. -/
def memRound (state : InorderPipeline numPorts B × ℕ) :
    Option (Round (InorderPipeline numPorts B × ℕ)) :=
  let s := state.1
  if s.exMemLatch.isEmpty ∨ s.memWbLatch.isFull then some (.stop state)
  else
    match s.exMemLatch.peek s.now with
    | none => some (.stop state)
    | some e =>
      if e.instruction.operationType = .load ∨ e.instruction.operationType = .store then
        match state.2 with
        | 0 => some (.stop state)
        | accepted + 1 => some (.again (s.moveToMemWb e, accepted))
      else some (.again (s.moveToMemWb e, state.2))

def performMemEvent (accepted : ℕ) : Option (InorderPipeline numPorts B) :=
  if s.mispredStall > 0 then some s
  else (loop memRound (s.exMemLatch.entries.length + 1) (s, accepted)).map Prod.fst

/-- A load that waits for the address. -/
def AwaitsAddress (address : ℤ) (e : LatchEntry) : Bool :=
  e.instruction.operationType = .load ∧ e.instruction.sourceOperand1MemValue = address ∧
    e.instructionCompletesAt > s.now

/-- An entry of the latch after the answer for the address. -/
def completed (address : ℤ) (e : LatchEntry) : LatchEntry :=
  if s.AwaitsAddress address e then
    { e with instructionCompletesAt := s.now, valueReadyAt := s.now }
  else e

/-- Every load that waits for the address is complete, and its register is ready now. -/
def updateInstructionCompletions (address : ℤ) : InorderPipeline numPorts B :=
  s.memWbLatch.entries.foldl
    (fun t e =>
      if s.AwaitsAddress address e then
        t.addToValueReadyArray e.instruction.destinationOperand s.now
      else t)
    { s with
      memWbLatch := { s.memWbLatch with
        entries := s.memWbLatch.entries.map (s.completed address) } }

/-! ### Write-back and fetch -/

def writeBackRound : Option (Round (InorderPipeline numPorts B)) :=
  match s.memWbLatch.peek s.now with
  | none => some (.stop s)
  | some e =>
    some (.again { s with
      memWbLatch := s.memWbLatch.poll s.now
      writtenBack := s.writtenBack ++ [e] })

def performWriteBack : Option (InorderPipeline numPorts B) :=
  if s.mispredStall > 0 then some s
  else loop writeBackRound (s.memWbLatch.entries.length + 1) s

/-- The fetch buffer delivers instructions that fit into the latch. -/
def performFetch (delivered : List FetchedInstruction) : Option (InorderPipeline numPorts B) :=
  if s.mispredStall > 0 then some { s with mispredStall := s.mispredStall - 1 }
  else if s.ifIdLatch.entries.length + delivered.length ≤ s.ifIdLatch.size then
    some { s with
      ifIdLatch := { s.ifIdLatch with
        entries := s.ifIdLatch.entries ++ delivered.map (fun ins => ⟨ins, s.now + 1, longMax⟩) }
      fetched := s.fetched ++ delivered }
  else none

end InorderPipeline

/-- The stages in the order of a cycle; the answers of the memory system come after the
write-back. -/
inductive InorderLabel where
  | writeback
  | processCompletionOfMemRequest (requestedAddress : ℤ)
  | mem (accepted : ℕ)
  | exec
  | decode
  | fetch (delivered : List FetchedInstruction)
  | tick

namespace InorderPipeline

variable {numPorts : ℕ} {B : Type}

/-- Any stage may be the next one, so a run of cycles is one of the runs. -/
def next (cfg : InorderConfig B) (s : InorderPipeline numPorts B) :
    InorderLabel → Option (InorderPipeline numPorts B)
  | .writeback => s.performWriteBack
  | .processCompletionOfMemRequest requestedAddress =>
    some (s.updateInstructionCompletions requestedAddress)
  | .mem accepted => s.performMemEvent accepted
  | .exec => s.execute
  | .decode => s.performDecode cfg
  | .fetch delivered => s.performFetch delivered
  | .tick => some { s with now := s.now + 1 }

/-- `oneCycleOperation`, and the clock. -/
def oneCycleOperation (answers : List ℤ) (accepted : ℕ) (delivered : List FetchedInstruction) :
    List InorderLabel :=
  [.writeback] ++ answers.map .processCompletionOfMemRequest ++
    [.mem accepted, .exec, .decode, .fetch delivered, .tick]

end InorderPipeline

end Tejas
