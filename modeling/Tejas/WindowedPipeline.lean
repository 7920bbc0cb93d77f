import Tejas.ExecutionCore
import Tejas.InstructionWindow
import Tejas.OutOfOrderPipeline

/-!
# The pipeline with its instruction window

The push of a renamed instruction inserts it into the window, and its issue removes it
again: at once if the operation has no functional unit or a unit of its own, and after the
request to the load-store queue if it is a load, a store or a fence. A unit is granted
whenever the step of the issue happens, and so is the request to the queue.
-/

namespace Tejas
open LabelledRuns SlotPool

/-- The pipeline, its window, the index of the window entry that every reorder buffer entry
refers to, and the insertions and removals so far. -/
structure WindowedPipeline where
  pipeline : Pipeline
  window : InstructionWindow
  associatedIWEntry : ℕ → Option ℕ
  history : List (SlotPool.Event ℕ)

namespace WindowedPipeline

/-- `none` if a rename table cannot be built. -/
def new (cfg : PipelineConfig) (maxIWSize : ℕ) : Option WindowedPipeline :=
  (Pipeline.new cfg).map fun pipeline => ⟨pipeline, .new maxIWSize, fun _ => none, []⟩

/-- A step of the pipeline alone. -/
def advance (s : WindowedPipeline) (result : Except PipelineExit Pipeline) :
    Except WindowExit WindowedPipeline :=
  match result with
  | .ok pipeline => .ok { s with pipeline := pipeline }
  | .error exit => .error (.stage exit)

def setEntry (s : WindowedPipeline) (pos : ℕ) (e : ReorderBufferEntry) : WindowedPipeline :=
  { s with pipeline := s.pipeline.setEntry pos e }

/-- A new reorder buffer entry refers to no window entry. -/
def performDecode (s : WindowedPipeline) (instruction : Instruction) (threadID : ℕ) :
    Except WindowExit WindowedPipeline :=
  let pos := (s.pipeline.rob.addInstructionToROB instruction threadID).2
  { s with associatedIWEntry := Function.update s.associatedIWEntry pos none }.advance
    (s.pipeline.performDecode instruction threadID)

/-- One round of the loop of `performIWPush`, which does not ask whether the insertion
succeeded. -/
def performIWPush (s : WindowedPipeline) : Except WindowExit WindowedPipeline :=
  match s.pipeline.renameBuffer with
  | [] => .error (.stage .stall)
  | pos :: rest =>
    let e := s.pipeline.entry pos
    if e.instruction.operationType = .inValid ∨ e.instruction.operationType = .nop then
      -- need not be added to the window
      .ok { s with pipeline := { s.pipeline.setEntry pos
          { e with isIssued := true, isExecuted := true, isWriteBackDone := true } with
        renameBuffer := rest } }
    else if s.window.isFull then .error (.stage .stall)
    else if ¬ e.isRenameDone then .error (.stage .cannotPush)
    else match s.window.addToWindow e.instruction pos with
      | none => .ok { s with pipeline := { s.pipeline with renameBuffer := rest } }
      | some (index, window) => .ok {
          pipeline := { s.pipeline.setEntry pos { e with associatedIWEntry := true } with
            renameBuffer := rest }
          window := window
          associatedIWEntry := Function.update s.associatedIWEntry pos (some index)
          history := s.history ++ [.taken index] }

def removeFromWindow (s : WindowedPipeline) (i : ℕ) : Except WindowExit WindowedPipeline :=
  (s.window.removeFromWindow s.pipeline.rob.ROB i).map fun window =>
    { s with window := window, history := s.history ++ [.returned i] }

/-- The events of the execution of an issued instruction. -/
def addEvents (s : WindowedPipeline) (pos : ℕ) : WindowedPipeline :=
  { s with pipeline := { s.pipeline with
    eventQueue := s.pipeline.eventQueue ++ [.broadCast pos, .execComplete pos] } }

/-- Loads, stores and fences ask for a unit here and are issued by `issueLoadStore`. -/
def issueOthers (s : WindowedPipeline) (opType : OperationType) (i pos : ℕ) :
    Except WindowExit WindowedPipeline :=
  if opType.getFUType = .inValid then
    (s.setEntry pos { s.pipeline.entry pos with isIssued := true }).removeFromWindow i
  else if opType ≠ .load ∧ opType ≠ .store ∧ opType ≠ .mfence then
    ((s.setEntry pos { s.pipeline.entry pos with isIssued := true }).removeFromWindow i).map
      fun s => s.addEvents pos
  else .ok s

/-- Stores are issued to the memory at commit, so they are complete for the pipeline. -/
def issueLoadStore (s : WindowedPipeline) (opType : OperationType) (i pos : ℕ) :
    Except WindowExit WindowedPipeline :=
  let e := { s.pipeline.entry pos with isIssued := true }
  let e := if opType = .store ∨ opType = .mfence then
    { e with isExecuted := true, isWriteBackDone := true } else e
  (s.setEntry pos e).removeFromWindow i

/-- `issueInstruction` for the window entry at an index. -/
def issueInstruction (s : WindowedPipeline) (i : ℕ) : Except WindowExit WindowedPipeline :=
  match (s.window.IW i).opType, (s.window.IW i).associatedROBEntry with
  | some opType, some pos =>
    let e := s.pipeline.entry pos
    if e.isRenameDone = false ∨ e.isExecuted then .error (.stage .cannotIssue)
    else if e.isIssued then .error .alreadyIssued
    else if e.operand1.available ∧ e.operand2.available then do
      let s ← s.issueOthers opType i pos
      if opType = .load ∨ opType = .store ∨ opType = .mfence then s.issueLoadStore opType i pos
      else .ok s
    else .error (.stage .stall)
  | _, _ => .error (.stage .exception)

/-- What the loop of `performSelect` does for the reorder buffer entry at a position. -/
def performSelect (s : WindowedPipeline) (pos : ℕ) : Except WindowExit WindowedPipeline :=
  if pos ∈ s.pipeline.rob.window ∧ (s.pipeline.entry pos).isIssued = false then
    match s.associatedIWEntry pos with
    | some i => s.issueInstruction i
    | none => .error (.stage .stall)
  else .error (.stage .stall)

def next (s : WindowedPipeline) : PipelineLabel → Except WindowExit WindowedPipeline
  | .decode instruction threadID => s.performDecode instruction threadID
  | .iwPush => s.performIWPush
  | .issue pos => s.performSelect pos
  | label => s.advance (s.pipeline.next label)

def Step (s : WindowedPipeline) (label : PipelineLabel) (t : WindowedPipeline) : Prop :=
  s.next label = .ok t

/-- Follow the labels as long as no step ends otherwise. -/
def follow (s : WindowedPipeline) (labels : List PipelineLabel) : Option WindowedPipeline :=
  exec (fun s label => (s.next label).toOption) s labels

theorem run_of_follow {s t : WindowedPipeline} {labels : List PipelineLabel}
    (h : s.follow labels = some t) : Run Step s labels t := by
  refine (run_of_exec h).mono fun s label t hstep => ?_
  change (s.next label).toOption = some t at hstep
  rw [Step]
  cases hnext : s.next label with
  | error => simp [hnext, Except.toOption] at hstep
  | ok u => simpa [hnext, Except.toOption] using hstep

end WindowedPipeline

end Tejas
