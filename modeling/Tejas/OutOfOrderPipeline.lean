import Tejas.LabelledRuns
import Tejas.ReorderBuffer

/-!
# The out-of-order pipeline

The stages of the pipeline as steps on one state: decode, rename, the push into the
instruction window, issue, the events of the execution, write-back and commit. A step
handles one instruction, and any step may be the next one, so the widths of the stages,
the stalls and the latencies of the units only leave out some of the runs. The events of
one instruction come in the order of their times.
-/

namespace Tejas
open LabelledRuns

/-- An event of the execution logic for the entry at a position. -/
inductive ExecutionEvent where
  | broadCast (pos : ℕ)
  | execComplete (pos : ℕ)
  deriving DecidableEq, Repr

structure Pipeline where
  rob : ReorderBuffer
  tables : RegisterType → RenameTable
  decodeBuffer : List ℕ
  renameBuffer : List ℕ
  eventQueue : List ExecutionEvent

/-- The sizes that a core is built with. -/
structure PipelineConfig where
  reorderBufferSize : ℕ
  noOfThreads : ℕ
  nArchRegisters : RegisterType → ℕ
  registerFileSize : RegisterType → ℕ

inductive PipelineLabel where
  | decode (instruction : Instruction) (threadID : ℕ)
  | rename
  | iwPush
  | issue (pos : ℕ)
  | broadCast (pos : ℕ)
  | execComplete (pos : ℕ)
  | writeBack (pos : ℕ)
  | commit
  deriving DecidableEq

namespace Pipeline

/-- `none` if a rename table cannot be built. -/
def new (cfg : PipelineConfig) : Option Pipeline :=
  match RenameTable.new (cfg.nArchRegisters .integer) (cfg.registerFileSize .integer)
      cfg.noOfThreads,
    RenameTable.new (cfg.nArchRegisters .float) (cfg.registerFileSize .float)
      cfg.noOfThreads with
  | some integer, some float => some {
      rob := .new cfg.reorderBufferSize
      tables := fun
        | .integer => integer
        | .float => float
      decodeBuffer := []
      renameBuffer := []
      eventQueue := [] }
  | _, _ => none

def entry (s : Pipeline) (pos : ℕ) : ReorderBufferEntry := s.rob.ROB pos

def setEntry (s : Pipeline) (pos : ℕ) (e : ReorderBufferEntry) : Pipeline :=
  { s with rob := s.rob.setEntry pos e }

def setTable (s : Pipeline) (type : RegisterType) (t : RenameTable) : Pipeline :=
  { s with tables := Function.update s.tables type t }

/-! ### Decode -/

def performDecode (s : Pipeline) (instruction : Instruction) (threadID : ℕ) :
    Except PipelineExit Pipeline :=
  if s.rob.isFull then .error .stall
  else if s.rob.MaxROBSize = 0 then .error .exception
  else
    let (rob, pos) := s.rob.addInstructionToROB instruction threadID
    .ok { s with rob := rob, decodeBuffer := s.decodeBuffer ++ [pos] }

/-! ### Rename -/

/-- The physical register of one part of an operand, and `none` if it is no register. -/
def physicalRegister (s : Pipeline) (threadID : ℕ) (o : Option BaseOperand) :
    Except PipelineExit (Option ℕ) :=
  match o.bind BaseOperand.register? with
  | some (type, archReg) => ((s.tables type).getPhysicalRegister threadID archReg).map some
  | none => .ok none

/-- `processOperand1` and `processOperand2`. -/
def processOperand (s : Pipeline) (e : ReorderBufferEntry) (opnd : Option Operand)
    (status : OperandStatus) : Except PipelineExit OperandStatus :=
  if e.instruction.operationType = .xchg then .ok status
  else match opnd with
  | none => .ok { status with phyReg1 := none, phyReg2 := none }
  | some (.base o) => do
    let phyReg1 ← s.physicalRegister e.threadID (some o)
    .ok { status with phyReg1 := phyReg1, phyReg2 := none }
  | some (.memory first second) => do
    let phyReg1 ← s.physicalRegister e.threadID first
    let phyReg2 ← s.physicalRegister e.threadID second
    .ok { status with phyReg1 := phyReg1, phyReg2 := phyReg2 }

/-- `OperandAvailabilityChecker.isAvailable` for one part of an operand. -/
def isAvailable (s : Pipeline) (o : Option BaseOperand) (phyReg : Option ℕ) : Bool :=
  match o.bind BaseOperand.register?, phyReg with
  | some (type, _), some p => (s.tables type).isAvailable p
  | _, _ => true

/-- `checkOperand1Availability` and `checkOperand2Availability`. -/
def checkOperandAvailability (s : Pipeline) (e : ReorderBufferEntry) (opnd : Option Operand)
    (status : OperandStatus) : OperandStatus :=
  if e.instruction.operationType = .xchg then { status with available := true }
  else match opnd with
  | none => { status with available := true }
  | some (.base .immediate) => { status with available := true }
  | some (.base .inValid) => status
  | some (.base (.register type value)) =>
    if s.isAvailable (some (.register type value)) status.phyReg1 then
      { status with available := true } else status
  | some (.memory first second) =>
    let available1 := s.isAvailable first status.phyReg1
    let available2 := s.isAvailable second status.phyReg2
    { status with
      available1 := available1, available2 := available2, available := available1 && available2 }

/-- How many new registers of a type an instruction needs. -/
def registersRequired (i : Instruction) (type : RegisterType) : ℕ :=
  let required (opnd : Option Operand) : ℕ :=
    if opnd.map Operand.operandType = some type.operandType then 1 else 0
  match i.operationType with
  | .inValid | .nop => 0
  | .xchg => required i.sourceOperand1 + required i.sourceOperand2
  | _ => required i.destinationOperand

def canDestOperandBeProcessed (s : Pipeline) (e : ReorderBufferEntry) : Bool :=
  registersRequired e.instruction .integer ≤ (s.tables .integer).getAvailableListSize ∧
    registersRequired e.instruction .float ≤ (s.tables .float).getAvailableListSize

/-- `handleIntFloat` up to the field of the entry; `none` when no register is free. -/
def handleIntFloat (s : Pipeline) (threadID : ℕ) (r : RegisterType × ℕ) :
    Except PipelineExit (Option ℕ × Pipeline) := do
  let (allocated, t) ← (s.tables r.1).allocatePhysicalRegister threadID r.2
  match allocated with
  | some p =>
    let t := { t with valueValid := Function.update t.valueValid p false }
    .ok (some p, s.setTable r.1 t)
  | none => .ok (none, s)

/-- The entry with the registers of its results, and the pipeline with the new tables. -/
def processDestOperand (s : Pipeline) (e : ReorderBufferEntry) :
    Except PipelineExit (ReorderBufferEntry × Pipeline) :=
  if e.instruction.operationType = .xchg then
    match e.instruction.sourceOperand1.bind Operand.register?,
      e.instruction.sourceOperand2.bind Operand.register? with
    | some r₁, some r₂ => do
      let (p₁, s) ← s.handleIntFloat e.threadID r₁
      match p₁ with
      | none => .ok (e, s)
      | some p₁ =>
        let e := { e with operand1 := { e.operand1 with phyReg1 := some p₁ } }
        -- of the form xchg rx, rx
        if r₁ = r₂ then
          .ok ({ e with operand2 := { e.operand2 with phyReg1 := e.operand1.phyReg1 } }, s)
        else do
          let (p₂, s) ← s.handleIntFloat e.threadID r₂
          match p₂ with
          | none => .ok (e, s)
          | some p₂ => .ok ({ e with operand2 := { e.operand2 with phyReg1 := some p₂ } }, s)
    | _, _ => .error .exception
  else match e.instruction.destinationOperand.bind Operand.register? with
  | some r => do
    let (p, s) ← s.handleIntFloat e.threadID r
    match p with
    | none => .ok (e, s)
    | some p => .ok ({ e with physicalDestinationRegister := some p }, s)
  | none => .ok (e, s)

/-- The two source operands of an entry are looked up. -/
def processSources (s : Pipeline) (e : ReorderBufferEntry) :
    Except PipelineExit ReorderBufferEntry := do
  let operand1 ← s.processOperand e e.instruction.sourceOperand1 e.operand1
  let operand2 ← s.processOperand e e.instruction.sourceOperand2 e.operand2
  .ok { e with
    operand1 := s.checkOperandAvailability e e.instruction.sourceOperand1 operand1
    operand2 := if operand2.available then operand2
      else s.checkOperandAvailability e e.instruction.sourceOperand2 operand2 }

/-- One round of the loop of `performRename`. -/
def performRename (s : Pipeline) : Except PipelineExit Pipeline :=
  match s.decodeBuffer with
  | [] => .error .stall
  | pos :: rest =>
    if s.canDestOperandBeProcessed (s.entry pos) then do
      let e ← s.processSources (s.entry pos)
      let (e, t) ← s.processDestOperand e
      .ok { t.setEntry pos { e with isRenameDone := true } with
        decodeBuffer := rest
        renameBuffer := s.renameBuffer ++ [pos] }
    else .error .stall

/-! ### Push into the instruction window and issue -/

/-- One round of the loop of `performIWPush`. -/
def performIWPush (s : Pipeline) : Except PipelineExit Pipeline :=
  match s.renameBuffer with
  | [] => .error .stall
  | pos :: rest =>
    let e := s.entry pos
    if e.instruction.operationType = .inValid ∨ e.instruction.operationType = .nop then
      .ok { s.setEntry pos
          { e with isIssued := true, isExecuted := true, isWriteBackDone := true } with
        renameBuffer := rest }
    else if ¬ e.isRenameDone then .error .cannotPush
    else .ok { s.setEntry pos { e with associatedIWEntry := true } with renameBuffer := rest }

/-- What an operation does once it is issued. -/
inductive IssueKind where
  /-- It has no functional unit and never completes. -/
  | noUnit
  /-- It completes when the load-store queue says so. -/
  | load
  /-- It is complete for the pipeline. -/
  | storeOrFence
  /-- Its results come after the latency of a functional unit. -/
  | unit
  deriving DecidableEq, Repr

/-- `OpTypeToFUTypeMapping.java` and the cases of `IWEntry.java`. -/
def OperationType.issueKind : OperationType → IssueKind
  | .integerALU | .integerMul | .integerDiv | .floatALU | .floatMul | .floatDiv => .unit
  | .jump | .branch | .mov | .xchg => .unit
  | .load => .load
  | .store | .mfence => .storeOrFence
  | .inValid | .acceleratedOp | .nop | .interrupt | .sync => .noUnit

/-- `issueInstruction` for an entry in the instruction window. -/
def issueInstruction (s : Pipeline) (pos : ℕ) : Except PipelineExit Pipeline :=
  let e := s.entry pos
  if ¬ (pos ∈ s.rob.window ∧ e.isIssued = false ∧ e.associatedIWEntry) then .error .stall
  else if e.isRenameDone = false ∨ e.isExecuted then .error .cannotIssue
  else if e.operand1.available ∧ e.operand2.available then
    match OperationType.issueKind e.instruction.operationType with
    | .noUnit | .load => .ok (s.setEntry pos { e with isIssued := true })
    | .storeOrFence => .ok (s.setEntry pos
        { e with isIssued := true, isExecuted := true, isWriteBackDone := true })
    | .unit => .ok { s.setEntry pos { e with isIssued := true } with
        eventQueue := s.eventQueue ++ [.broadCast pos, .execComplete pos] }
  else .error .stall

/-! ### Execution -/

/-- `wakeUpLogic`. -/
def wakeUpLogic (s : Pipeline) (opndType : OperandType) (physicalRegister : Option ℕ)
    (startIndex : ℕ) : Except PipelineExit Pipeline :=
  let s := { s with
    rob := s.rob.wakeUpScan opndType physicalRegister startIndex s.rob.MaxROBSize }
  match opndType with
  | .integerRegister =>
    ((s.tables .integer).setValueValid physicalRegister).map (s.setTable .integer)
  | .floatRegister => ((s.tables .float).setValueValid physicalRegister).map (s.setTable .float)
  | _ => .ok s

def performBroadCast (s : Pipeline) (pos : ℕ) : Except PipelineExit Pipeline :=
  let e := s.entry pos
  let startIndex := (pos + 1) % s.rob.MaxROBSize
  match e.instruction.destinationOperand with
  | some d => s.wakeUpLogic d.operandType e.physicalDestinationRegister startIndex
  | none =>
    if e.instruction.operationType = .xchg then
      match e.instruction.sourceOperand1, e.instruction.sourceOperand2 with
      | some o₁, some o₂ => do
        let s ← s.wakeUpLogic o₁.operandType e.operand1.phyReg1 startIndex
        s.wakeUpLogic o₂.operandType (s.entry pos).operand2.phyReg1 startIndex
      | _, _ => .error .exception
    else .ok s

def handleExecutionCompletion (s : Pipeline) (pos : ℕ) : Except PipelineExit Pipeline :=
  let e := s.entry pos
  if e.isExecuted ∨ e.isRenameDone = false ∨ e.isIssued = false then
    .error .cannotCompleteExecution
  else if e.instruction.destinationOperand.isSome ∨ e.instruction.operationType = .xchg then
    (s.setEntry pos { e with isExecuted := true }).performBroadCast pos
  else .ok (s.setEntry pos { e with isExecuted := true, isWriteBackDone := true })

/-! ### Write-back and commit -/

/-- `writeToRFAndAddToAvailableList` for an operand of any type. -/
def writeToRFAndAddToAvailableList (s : Pipeline) (destOpnd : Option Operand)
    (physicalRegister : Option ℕ) : Except PipelineExit Pipeline :=
  match destOpnd.bind Operand.register? with
  | some (type, _) =>
    ((s.tables type).writeToRFAndAddToAvailableList physicalRegister).map (s.setTable type)
  | none => .ok s

/-- A load announces its result once more when it is written back. -/
def wakeUpAtWriteBack (s : Pipeline) (pos : ℕ) : Except PipelineExit Pipeline :=
  let e := s.entry pos
  if e.instruction.operationType = .load then
    match e.instruction.destinationOperand with
    | some d => s.wakeUpLogic d.operandType e.physicalDestinationRegister
        ((pos + 1) % s.rob.MaxROBSize)
    | none => .error .exception
  else .ok s

/-- The registers of the results are written. -/
def writeResults (s : Pipeline) (pos : ℕ) : Except PipelineExit Pipeline :=
  let e := s.entry pos
  match e.instruction.destinationOperand with
  | some d => s.writeToRFAndAddToAvailableList (some d) e.physicalDestinationRegister
  | none =>
    if e.instruction.operationType = .xchg then do
      let s ← s.writeToRFAndAddToAvailableList e.instruction.sourceOperand1 e.operand1.phyReg1
      if e.instruction.sourceOperand1.map Operand.operandType ≠
            e.instruction.sourceOperand2.map Operand.operandType ∨
          e.operand1.phyReg1 ≠ e.operand2.phyReg1 then
        s.writeToRFAndAddToAvailableList e.instruction.sourceOperand2 e.operand2.phyReg1
      else .ok s
    else .ok s

/-- One round of the loop of `performWriteBack`. -/
def performWriteBack (s : Pipeline) (pos : ℕ) : Except PipelineExit Pipeline :=
  let e := s.entry pos
  if pos ∈ s.rob.window ∧ e.isExecuted ∧ e.isWriteBackDone = false then do
    let s ← (s.setEntry pos { e with isWriteBackDone := true }).wakeUpAtWriteBack pos
    s.writeResults pos
  else .error .stall

/-- One round of the loop of `performCommits`. -/
def performCommits (s : Pipeline) : Except PipelineExit Pipeline :=
  if s.rob.head = -1 then .error .stall
  else if (s.entry s.rob.head.toNat).isWriteBackDone then
    .ok { s with rob := s.rob.retireInstructionAtHead }
  else .error .stall

/-! ### The system -/

/-- An execution of a unit completes through the events of its issue, a load when the
load-store queue has its value. -/
def next (s : Pipeline) : PipelineLabel → Except PipelineExit Pipeline
  | .decode instruction threadID => s.performDecode instruction threadID
  | .rename => s.performRename
  | .iwPush => s.performIWPush
  | .issue pos => s.issueInstruction pos
  | .broadCast pos =>
    if .broadCast pos ∈ s.eventQueue then
      performBroadCast { s with eventQueue := s.eventQueue.erase (.broadCast pos) } pos
    else .error .stall
  | .execComplete pos =>
    if .execComplete pos ∈ s.eventQueue ∧ .broadCast pos ∉ s.eventQueue then
      handleExecutionCompletion
        { s with eventQueue := s.eventQueue.erase (.execComplete pos) } pos
    else if pos ∈ s.rob.window ∧ (s.entry pos).instruction.operationType = .load ∧
        (s.entry pos).isIssued ∧ (s.entry pos).isExecuted = false then
      s.handleExecutionCompletion pos
    else .error .stall
  | .writeBack pos => s.performWriteBack pos
  | .commit => s.performCommits

def Step (s : Pipeline) (label : PipelineLabel) (t : Pipeline) : Prop := s.next label = .ok t

theorem step_of_toOption {s t : Pipeline} {label : PipelineLabel}
    (h : (s.next label).toOption = some t) : s.Step label t := by
  rw [Step]
  cases hnext : s.next label with
  | error => simp [hnext, Except.toOption] at h
  | ok u => simpa [hnext, Except.toOption] using h

/-- Follow the labels as long as no step ends otherwise. -/
def follow (s : Pipeline) (labels : List PipelineLabel) : Option Pipeline :=
  exec (fun s label => (s.next label).toOption) s labels

theorem run_of_follow {s t : Pipeline} {labels : List PipelineLabel}
    (h : s.follow labels = some t) : Run Step s labels t :=
  (run_of_exec h).mono fun _ _ _ hstep => step_of_toOption hstep

/-- Follow the labels as long as the steps meet a condition. -/
def followIf (C : Pipeline → PipelineLabel → Prop) [∀ s label, Decidable (C s label)]
    (s : Pipeline) (labels : List PipelineLabel) : Option Pipeline :=
  exec (fun s label => if C s label then (s.next label).toOption else none) s labels

theorem run_of_followIf {C : Pipeline → PipelineLabel → Prop}
    [∀ s label, Decidable (C s label)] {s t : Pipeline} {labels : List PipelineLabel}
    (h : s.followIf C labels = some t) : Run (Guarded Step C) s labels t := by
  have hrun : Run (Guarded (StepOf fun s label => (s.next label).toOption) C) s labels t :=
    guarded_run_of_exec h
  exact hrun.mono fun _ _ _ hstep => ⟨hstep.1, step_of_toOption hstep.2⟩

end Pipeline

end Tejas
