import Tejas.InorderSteps
import Tejas.PacketReader
import Tejas.ReorderBufferOrder

/-!
# The addresses of branches

Only the first micro-operation of an instruction has a valid program counter. Both pipelines
remember the last valid one, the in-order pipeline at decode and the out-of-order pipeline at
commit, and predict each branch at it. The out-of-order pipeline also trains the predictor at
it, the in-order pipeline at the program counter of the branch itself.
-/

namespace Tejas
open LabelledRuns RingIndices ReorderBuffer IssueState

variable {B : Type}

/-- Each branch with the last valid program counter up to it, and its outcome. -/
def branchesAtValidIP : ℤ → List FetchedInstruction → List (ℤ × Bool)
  | _, [] => []
  | last, ins :: rest =>
    (if ins.operationType = .branch then [(InorderPipeline.validIPAfter last ins, ins.branchTaken)]
      else []) ++ branchesAtValidIP (InorderPipeline.validIPAfter last ins) rest

/-- Each branch with its own program counter. -/
def branchesAtOwnIP (stream : List FetchedInstruction) : List (ℤ × Bool) :=
  stream.flatMap (fun ins =>
    if ins.operationType = .branch then [(ins.ciscProgramCounter, ins.branchTaken)] else [])

def lastValidIP (last : ℤ) (stream : List FetchedInstruction) : ℤ :=
  stream.foldl InorderPipeline.validIPAfter last

theorem branchesAtValidIP_append (last : ℤ) (stream : List FetchedInstruction)
    (ins : FetchedInstruction) :
    branchesAtValidIP last (stream ++ [ins]) = branchesAtValidIP last stream ++
      (if ins.operationType = .branch then
        [(InorderPipeline.validIPAfter (lastValidIP last stream) ins, ins.branchTaken)]
      else []) := by
  induction stream generalizing last with
  | nil => simp [branchesAtValidIP, lastValidIP]
  | cons first rest ih =>
    rw [List.cons_append, branchesAtValidIP, branchesAtValidIP, ih, List.append_assoc]
    rfl

theorem lastValidIP_append (last : ℤ) (stream : List FetchedInstruction)
    (ins : FetchedInstruction) : lastValidIP last (stream ++ [ins]) =
      InorderPipeline.validIPAfter (lastValidIP last stream) ins := by
  rw [lastValidIP, List.foldl_append]
  rfl

/-- Every branch has a valid program counter of its own, unless none was valid before it. -/
def BranchesHaveIP (stream : List FetchedInstruction) : Prop :=
  ∀ before ins after, stream = before ++ ins :: after → ins.operationType = .branch →
    ins.ciscProgramCounter ≠ -1 ∨ ∀ x ∈ before, x.ciscProgramCounter = -1

theorem validIPAfter_eq_own_iff {last : ℤ} {ins : FetchedInstruction} :
    InorderPipeline.validIPAfter last ins = ins.ciscProgramCounter ↔
      ins.ciscProgramCounter ≠ -1 ∨ last = -1 := by
  rw [InorderPipeline.validIPAfter]
  split <;> omega

theorem validIPAfter_eq_invalid_iff {last : ℤ} {ins : FetchedInstruction} :
    InorderPipeline.validIPAfter last ins = -1 ↔ ins.ciscProgramCounter = -1 ∧ last = -1 := by
  rw [InorderPipeline.validIPAfter]
  split <;> omega

/-- The two lists agree branch by branch. -/
theorem branchesAtValidIP_eq_own_iff (last : ℤ) (stream : List FetchedInstruction) :
    branchesAtValidIP last stream = branchesAtOwnIP stream ↔
      ∀ before ins after, stream = before ++ ins :: after → ins.operationType = .branch →
        ins.ciscProgramCounter ≠ -1 ∨ (last = -1 ∧ ∀ x ∈ before, x.ciscProgramCounter = -1) := by
  induction stream generalizing last with
  | nil => simp [branchesAtValidIP, branchesAtOwnIP]
  | cons first rest ih =>
    have hcons : branchesAtValidIP last (first :: rest) = branchesAtOwnIP (first :: rest) ↔
        (first.operationType = .branch → first.ciscProgramCounter ≠ -1 ∨ last = -1) ∧
          branchesAtValidIP (InorderPipeline.validIPAfter last first) rest =
            branchesAtOwnIP rest := by
      rw [branchesAtValidIP, branchesAtOwnIP, List.flatMap_cons, ← branchesAtOwnIP]
      by_cases hbranch : first.operationType = .branch
      · simp [hbranch, validIPAfter_eq_own_iff]
      · simp [hbranch]
    rw [hcons, ih]
    constructor
    · rintro ⟨hfirst, hrest⟩ before ins after hsplit hbranch
      cases before with
      | nil =>
        obtain ⟨rfl, rfl⟩ := List.cons.inj hsplit
        exact (hfirst hbranch).imp_right (fun hlast =>
          ⟨hlast, fun _ hx => absurd hx List.not_mem_nil⟩)
      | cons x before =>
        obtain ⟨rfl, htail⟩ := List.cons.inj hsplit
        refine (hrest before ins after htail hbranch).imp_right ?_
        rintro ⟨hlast, hbefore⟩
        obtain ⟨hown, hlast⟩ := validIPAfter_eq_invalid_iff.mp hlast
        exact ⟨hlast, List.forall_mem_cons.mpr ⟨hown, hbefore⟩⟩
    · intro hall
      refine ⟨?_, ?_⟩
      · intro hbranch
        exact (hall [] first rest rfl hbranch).imp_right And.left
      · intro before ins after hsplit hbranch
        refine (hall (first :: before) ins after (by rw [hsplit]; rfl) hbranch).imp_right ?_
        rintro ⟨hlast, hbefore⟩
        obtain ⟨hown, hbefore⟩ := List.forall_mem_cons.mp hbefore
        exact ⟨validIPAfter_eq_invalid_iff.mpr ⟨hown, hlast⟩, hbefore⟩

theorem branchesAtValidIP_eq_iff (stream : List FetchedInstruction) :
    branchesAtValidIP (-1) stream = branchesAtOwnIP stream ↔ BranchesHaveIP stream := by
  rw [branchesAtValidIP_eq_own_iff]
  simp only [true_and]
  exact Iff.rfl

/-! ### The in-order pipeline -/

namespace InorderPipeline

variable {numPorts : ℕ} {cfg : InorderConfig B} {s t : InorderPipeline numPorts B}

/-- What decode has told the predictor about the instructions that it has seen. -/
structure TellsPredictor (s : InorderPipeline numPorts B) : Prop where
  lastValidIPSeen : s.lastValidIPSeen = lastValidIP (-1) s.decoded
  predicted : s.predicted = branchesAtValidIP (-1) s.decoded
  trained : s.trained = branchesAtOwnIP s.decoded
  fetchedInOrder : s.FetchedInOrder

theorem StageStep.tellsPredictor (hs : s.TellsPredictor) (h : s.StageStep t) :
    t.TellsPredictor := by
  cases h with
  | moves h =>
    have hdecoded : t.decoded = s.decoded := by rw [decoded, h.history, decoded]
    exact ⟨by rw [h.lastValidIPSeen, hdecoded, hs.lastValidIPSeen],
      by rw [h.predicted, hdecoded, hs.predicted], by rw [h.trained, hdecoded, hs.trained],
      h.fetchedInOrder hs.fetchedInOrder⟩
  | decodes ins time h =>
    have hdecoded : t.decoded = s.decoded ++ [ins] := by
      rw [decoded, h.history, List.map_append, decoded]
      rfl
    refine ⟨?_, ?_, ?_, h.fetchedInOrder hs.fetchedInOrder⟩
    · rw [h.lastValidIPSeen, hdecoded, lastValidIP_append, hs.lastValidIPSeen]
    · rw [h.predicted, hdecoded, branchesAtValidIP_append, hs.predicted, hs.lastValidIPSeen]
    · rw [h.trained, hdecoded, branchesAtOwnIP, List.flatMap_append, hs.trained]
      simp [branchesAtOwnIP]

/-- An answer of the memory system changes no instruction. -/
theorem decoded_completion (s : InorderPipeline numPorts B) (address : ℤ) :
    (s.updateInstructionCompletions address).decoded = s.decoded := by
  obtain ⟨v, hv⟩ := s.updateInstructionCompletions_eq address
  rw [hv]
  simp [decoded, history, completed_instruction]

theorem TellsPredictor.next (hs : s.TellsPredictor) {label : InorderLabel}
    (h : next cfg s label = some t) : t.TellsPredictor := by
  rcases next_cases h with ⟨address, rfl, rfl⟩ | ⟨rfl, rfl⟩ | hsteps
  · have hdecoded := s.decoded_completion address
    obtain ⟨v, hv⟩ := s.updateInstructionCompletions_eq address
    rw [hv] at hdecoded ⊢
    refine ⟨?_, ?_, ?_, ?_⟩
    · rw [hdecoded]
      exact hs.lastValidIPSeen
    · rw [hdecoded]
      exact hs.predicted
    · rw [hdecoded]
      exact hs.trained
    · rw [FetchedInOrder, hdecoded]
      exact hs.fetchedInOrder
  · exact ⟨hs.lastValidIPSeen, hs.predicted, hs.trained, hs.fetchedInOrder⟩
  · clear h
    induction hsteps with
    | refl => exact hs
    | tail _ hstep ih => exact hstep.tellsPredictor ih

theorem tellsPredictor_of_run {core : ExecutionCore numPorts} {predictor : B}
    {labels : List InorderLabel}
    (run : Run (StepOf (next cfg)) (start cfg core predictor) labels s) : s.TellsPredictor :=
  run.invariant ⟨rfl, rfl, rfl, rfl⟩ (fun _ _ _ hs h => hs.next h)

end InorderPipeline

/-! ### The out-of-order pipeline -/

/-- The reorder buffer with what `performCommits` reads of the instructions in it besides. The
instructions that were added and those that were committed, and the calls of the branch
predictor, are kept beside it. -/
structure BranchCommit (B : Type) where
  recorded : Recorded
  instructionAt : ℕ → FetchedInstruction
  stream : List FetchedInstruction
  committed : List FetchedInstruction
  lastValidIPSeen : ℤ
  predictor : B
  predicted : List (ℤ × Bool)
  trained : List (ℤ × Bool)

namespace BranchCommit

/-- A position holds nothing that could be a branch before its first use. -/
def nothing : FetchedInstruction :=
  { Instruction.getNOPInstruction with
    ciscProgramCounter := -1
    branchTaken := false
    sourceOperand1MemValue := 0 }

def start (size : ℕ) (predictor : B) : BranchCommit B where
  recorded := .new size
  instructionAt := fun _ => nothing
  stream := []
  committed := []
  lastValidIPSeen := -1
  predictor := predictor
  predicted := []
  trained := []

inductive Action where
  | addInstructionToROB (newInstruction : FetchedInstruction) (threadID : ℕ)
  | change (i : ℕ) (e : ReorderBufferEntry)
  | writeBack (i : ℕ)
  | performCommits (stalled : Bool) (lsqValid : ℕ → Bool)

def updateLastValidIP (s : BranchCommit B) (ins : FetchedInstruction) : BranchCommit B :=
  if ins.ciscProgramCounter ≠ -1 then { s with lastValidIPSeen := ins.ciscProgramCounter } else s

/-- The branch is predicted, and the predictor is trained, at the last valid program counter. -/
def predictBranch (bp : BranchPredictor B) (s : BranchCommit B) (ins : FetchedInstruction) :
    BranchCommit B :=
  if ins.operationType = .branch then
    let (prediction, predictor) := bp.predict s.predictor s.lastValidIPSeen ins.branchTaken
    { s with
      predictor := bp.train predictor s.lastValidIPSeen ins.branchTaken prediction
      predicted := s.predicted ++ [(s.lastValidIPSeen, ins.branchTaken)]
      trained := s.trained ++ [(s.lastValidIPSeen, ins.branchTaken)] }
  else s

def retire (s : BranchCommit B) : BranchCommit B :=
  { s with
    recorded := s.recorded.retire
    committed := s.committed ++ [s.instructionAt s.recorded.rob.head.toNat] }

/-- The loop of `performCommits`, with its part about branches. -/
def commitRounds (bp : BranchPredictor B) (lsqValid : ℕ → Bool) :
    ℕ → BranchCommit B → Option (BranchCommit B)
  | 0, s => some s
  | left + 1, s =>
    if s.recorded.rob.head = -1 then some s
    else
      let first := s.recorded.rob.ROB s.recorded.rob.head.toNat
      let firstInstruction := s.instructionAt s.recorded.rob.head.toNat
      if first.isWriteBackDone then
        if first.instruction.operationType = .store ∧
            lsqValid s.recorded.rob.head.toNat = false then
          some s
        else if (first.instruction.operationType = .load ∨
            first.instruction.operationType = .store ∨
            first.instruction.operationType = .mfence) ∧
            lsqValid s.recorded.rob.head.toNat = false then none
        else
          commitRounds bp lsqValid left
            ((s.updateLastValidIP firstInstruction).predictBranch bp firstInstruction).retire
      else some s

/-- `none` for an exit or an exception; a buffer without positions divides by zero. -/
def next (bp : BranchPredictor B) (retireWidth : ℕ) (s : BranchCommit B) :
    Action → Option (BranchCommit B)
  | .addInstructionToROB newInstruction threadID =>
    if s.recorded.rob.isFull then some s
    else if s.recorded.rob.MaxROBSize = 0 then none
    else
      let (rob, pos) := s.recorded.rob.addInstructionToROB newInstruction.toInstruction threadID
      some { s with
        recorded := { s.recorded with
          rob := rob
          added := s.recorded.added ++ [newInstruction.toInstruction] }
        instructionAt := Function.update s.instructionAt pos newInstruction
        stream := s.stream ++ [newInstruction] }
  | .change i e =>
    (s.recorded.next retireWidth (.change i e)).map (fun recorded =>
      { s with recorded := recorded })
  | .writeBack i =>
    (s.recorded.next retireWidth (.writeBack i)).map (fun recorded =>
      { s with recorded := recorded })
  | .performCommits stalled lsqValid =>
    if stalled then some s else s.commitRounds bp lsqValid retireWidth

variable {bp : BranchPredictor B} {n retireWidth : ℕ} {s t : BranchCommit B}
  {lsqValid : ℕ → Bool}

/-- The instructions that have not been committed are in the buffer, in their order, and the
predictor was told about the others. -/
structure TellsPredictor (n : ℕ) (s : BranchCommit B) : Prop where
  inOrder : s.recorded.InOrder n
  size_pos : s.recorded.rob.head ≠ -1 → 0 < n
  instructions : ∀ i ∈ s.recorded.rob.window,
    (s.instructionAt i).toInstruction = (s.recorded.rob.ROB i).instruction
  stream : s.stream = s.committed ++ s.recorded.rob.window.map s.instructionAt
  lastValidIPSeen : s.lastValidIPSeen = lastValidIP (-1) s.committed
  predicted : s.predicted = branchesAtValidIP (-1) s.committed
  trained : s.trained = branchesAtValidIP (-1) s.committed

theorem tellsPredictor_start (n : ℕ) (predictor : B) : TellsPredictor n (start n predictor) where
  inOrder := Recorded.inOrder_new n
  size_pos h := absurd rfl h
  instructions i hi := by
    simp [start, Recorded.new, ReorderBuffer.new, window, occupied, RingWindow.slotsFrom] at hi
  stream := by
    simp [start, Recorded.new, ReorderBuffer.new, window, occupied, RingWindow.slotsFrom]
  lastValidIPSeen := rfl
  predicted := rfl
  trained := rfl

/-- What the round of a commit does to the calls of the predictor. -/
theorem round_eq (bp : BranchPredictor B) (s : BranchCommit B) (ins : FetchedInstruction) :
    ∃ predictor, (s.updateLastValidIP ins).predictBranch bp ins = { s with
      lastValidIPSeen := InorderPipeline.validIPAfter s.lastValidIPSeen ins
      predictor := predictor
      predicted := s.predicted ++ (if ins.operationType = .branch then
        [(InorderPipeline.validIPAfter s.lastValidIPSeen ins, ins.branchTaken)] else [])
      trained := s.trained ++ (if ins.operationType = .branch then
        [(InorderPipeline.validIPAfter s.lastValidIPSeen ins, ins.branchTaken)] else []) } := by
  have hvalid : s.updateLastValidIP ins =
      { s with lastValidIPSeen := InorderPipeline.validIPAfter s.lastValidIPSeen ins } := by
    rw [updateLastValidIP, InorderPipeline.validIPAfter]
    split <;> rfl
  rw [hvalid, predictBranch]
  split
  · exact ⟨_, rfl⟩
  · simp only [List.append_nil]
    exact ⟨s.predictor, rfl⟩

/-- The instruction at the head is committed. -/
theorem TellsPredictor.retire (h : s.TellsPredictor n) (hhead : s.recorded.rob.head ≠ -1)
    (hdone : (s.recorded.rob.ROB s.recorded.rob.head.toNat).isWriteBackDone = true) :
    (((s.updateLastValidIP (s.instructionAt s.recorded.rob.head.toNat)).predictBranch bp
      (s.instructionAt s.recorded.rob.head.toNat)).retire).TellsPredictor n := by
  have hn := h.size_pos hhead
  have hwindow := h.inOrder.window_retire hn hhead
  have hnodup := h.inOrder.nodup
  rw [hwindow, List.nodup_cons] at hnodup
  obtain ⟨predictor, hround⟩ := round_eq bp s (s.instructionAt s.recorded.rob.head.toNat)
  rw [hround]
  refine ⟨h.inOrder.retire hn hhead hdone, fun _ => hn, ?_, ?_, ?_, ?_, ?_⟩
  · intro i hi
    have hne : i ≠ s.recorded.rob.head.toNat := fun heq => hnodup.1 (heq ▸ hi)
    have hkept : s.recorded.retire.rob.ROB i = s.recorded.rob.ROB i :=
      Function.update_of_ne hne _ _
    refine (h.instructions i ?_).trans (congrArg ReorderBufferEntry.instruction hkept).symm
    rw [hwindow]
    exact List.mem_cons_of_mem _ hi
  · have hstream := h.stream
    rw [hwindow, List.map_cons] at hstream
    simp only [BranchCommit.retire, hstream, List.append_assoc, List.singleton_append]
  · simp only [BranchCommit.retire]
    rw [lastValidIP_append, h.lastValidIPSeen]
  · simp only [BranchCommit.retire]
    rw [branchesAtValidIP_append, h.predicted, h.lastValidIPSeen]
  · simp only [BranchCommit.retire]
    rw [branchesAtValidIP_append, h.trained, h.lastValidIPSeen]

theorem TellsPredictor.commitRounds {left : ℕ} (h : s.TellsPredictor n)
    (hstep : s.commitRounds bp lsqValid left = some t) : t.TellsPredictor n := by
  induction left generalizing s with
  | zero =>
    cases hstep
    exact h
  | succ left ih =>
    rw [BranchCommit.commitRounds] at hstep
    dsimp only at hstep
    split_ifs at hstep with hhead hdone hstore hlsq
    · cases hstep
      exact h
    · cases hstep
      exact h
    · exact ih (h.retire hhead hdone) hstep
    · cases hstep
      exact h

/-- A stage changes an entry and leaves the instruction in it. -/
theorem TellsPredictor.setEntry (h : s.TellsPredictor n) {i : ℕ} {e : ReorderBufferEntry}
    {writtenBack : List ℕ}
    (hinOrder : Recorded.InOrder n
      { s.recorded with rob := s.recorded.rob.setEntry i e, writtenBack := writtenBack })
    (hkept : e.instruction = (s.recorded.rob.ROB i).instruction) :
    TellsPredictor n { s with
      recorded :=
        { s.recorded with rob := s.recorded.rob.setEntry i e, writtenBack := writtenBack } } := by
  refine ⟨hinOrder, h.size_pos, ?_, h.stream, h.lastValidIPSeen, h.predicted, h.trained⟩
  intro j hj
  have hentry : ((s.recorded.rob.setEntry i e).ROB j).instruction =
      (s.recorded.rob.ROB j).instruction := by
    by_cases hji : j = i
    · have hset : (s.recorded.rob.setEntry i e).ROB i = e := Function.update_self _ _ _
      rw [hji, hset, hkept]
    · have hother : (s.recorded.rob.setEntry i e).ROB j = s.recorded.rob.ROB j :=
        Function.update_of_ne hji _ _
      rw [hother]
  exact (h.instructions j hj).trans hentry.symm

/-- A new instruction waits behind the others. -/
theorem TellsPredictor.add (h : s.TellsPredictor n) (hn : 0 < n)
    (hfull : s.recorded.rob.isFull = false) (ins : FetchedInstruction) (threadID : ℕ) :
    TellsPredictor n { s with
      recorded := { s.recorded with
        rob := (s.recorded.rob.addInstructionToROB ins.toInstruction threadID).1
        added := s.recorded.added ++ [ins.toInstruction] }
      instructionAt := Function.update s.instructionAt
        (s.recorded.rob.addInstructionToROB ins.toInstruction threadID).2 ins
      stream := s.stream ++ [ins] } := by
  obtain ⟨hwindow, hnew⟩ := h.inOrder.window_add hn hfull ins.toInstruction threadID
  have hentry : ∀ i, (s.recorded.rob.addInstructionToROB ins.toInstruction threadID).1.ROB i =
      Function.update s.recorded.rob.ROB
        (s.recorded.rob.addInstructionToROB ins.toInstruction threadID).2
          (.fresh ins.toInstruction threadID) i := fun _ => rfl
  generalize (s.recorded.rob.addInstructionToROB ins.toInstruction threadID).2 = last at *
  refine ⟨h.inOrder.add hn hfull ins.toInstruction threadID, fun _ => hn, ?_, ?_,
    h.lastValidIPSeen, h.predicted, h.trained⟩
  · intro i hi
    dsimp only at hi ⊢
    rw [hwindow, List.mem_append, List.mem_singleton] at hi
    rw [hentry]
    rcases hi with hi | rfl
    · have hne : i ≠ last := fun heq => hnew (heq ▸ hi)
      rw [Function.update_of_ne hne, Function.update_of_ne hne]
      exact h.instructions i hi
    · rw [Function.update_self, Function.update_self]
      rfl
  · have hold : s.recorded.rob.window.map (Function.update s.instructionAt last ins) =
        s.recorded.rob.window.map s.instructionAt := by
      apply List.map_congr_left
      intro i hi
      have hne : i ≠ last := fun heq => hnew (heq ▸ hi)
      exact Function.update_of_ne hne _ _
    dsimp only
    rw [hwindow, List.map_append, hold, List.map_singleton, Function.update_self,
      ← List.append_assoc, ← h.stream]

theorem TellsPredictor.next {action : Action} (h : s.TellsPredictor n)
    (hstep : s.next bp retireWidth action = some t) : t.TellsPredictor n := by
  cases action with
  | addInstructionToROB ins threadID =>
    rw [BranchCommit.next] at hstep
    split_ifs at hstep with hfull hsize
    · cases hstep
      exact h
    · cases hstep
      rw [h.inOrder.size] at hsize
      exact h.add (Nat.pos_of_ne_zero hsize) (by simpa using hfull) ins threadID
  | change i e =>
    obtain ⟨recorded, hrecorded, rfl⟩ := Option.map_eq_some_iff.mp hstep
    rw [Recorded.next] at hrecorded
    split_ifs at hrecorded with hkept
    cases hrecorded
    exact h.setEntry (h.inOrder.change hkept) hkept.1
  | writeBack i =>
    rw [BranchCommit.next, Recorded.next, Option.map_some] at hstep
    cases hstep
    exact h.setEntry (h.inOrder.writeBack i) rfl
  | performCommits stalled lsqValid =>
    rw [BranchCommit.next] at hstep
    split_ifs at hstep
    · cases hstep
      exact h
    · exact h.commitRounds hstep

theorem tellsPredictor_of_run {predictor : B} {actions : List Action}
    (run : Run (StepOf (next bp retireWidth)) (start n predictor) actions s) :
    s.TellsPredictor n :=
  run.invariant (tellsPredictor_start n predictor) (fun _ _ _ h hstep => h.next hstep)

end BranchCommit

/-! ### The two pipelines -/

/-- For every instruction stream, once the in-order pipeline has decoded it and the out-of-order
pipeline has committed it: each branch is predicted and trained at the last valid program
counter up to it by both, and both train the same pairs, if and only if each branch has a valid
program counter of its own or comes before any other. -/
theorem branchAddresses_iff {numPorts : ℕ} {C : Type} (cfg : InorderConfig B)
    (core : ExecutionCore numPorts) (predictor : B) (bp : BranchPredictor C) (predictor' : C)
    (size retireWidth : ℕ) : ∀ labels s actions t,
      Run (StepOf (InorderPipeline.next cfg)) (.start cfg core predictor) labels s →
      Run (StepOf (BranchCommit.next bp retireWidth)) (.start size predictor') actions t →
      s.decoded = t.committed →
        ((s.predicted = branchesAtValidIP (-1) s.decoded ∧
            s.trained = branchesAtValidIP (-1) s.decoded ∧
            t.predicted = branchesAtValidIP (-1) s.decoded ∧
            t.trained = branchesAtValidIP (-1) s.decoded) ↔ BranchesHaveIP s.decoded) ∧
          (s.trained = t.trained ↔ BranchesHaveIP s.decoded) := by
  intro labels s actions t inorderRun run hstream
  have hs := InorderPipeline.tellsPredictor_of_run inorderRun
  have ht := BranchCommit.tellsPredictor_of_run run
  have hcommitted := ht.trained
  have hpredicted := ht.predicted
  rw [← hstream] at hcommitted hpredicted
  have hiff : s.trained = branchesAtValidIP (-1) s.decoded ↔ BranchesHaveIP s.decoded := by
    rw [hs.trained, eq_comm]
    exact branchesAtValidIP_eq_iff s.decoded
  constructor
  · rw [← hiff]
    exact ⟨fun h => h.2.1, fun h => ⟨hs.predicted, h, hpredicted, hcommitted⟩⟩
  · rw [hcommitted]
    exact hiff

/-- A branch that is an instruction of its own, at address 96. -/
def branchAt96 : FetchedInstruction where
  operationType := .branch
  sourceOperand1 := some (.base .immediate)
  sourceOperand2 := none
  destinationOperand := none
  admitted := rfl
  ciscProgramCounter := 96
  branchTaken := true
  sourceOperand1MemValue := 0

def alwaysTaken : BranchPredictor Unit := ⟨fun _ _ _ => (true, ()), fun _ _ _ _ => ()⟩

def takenConfig : InorderConfig Unit :=
  { alwaysTaken with
    issueWidth := 2
    branchMispredictionPenalty := 8 }

theorem branchAddresses_branchAt96 : ∃ s t,
    Run (StepOf (InorderPipeline.next takenConfig)) (.start takenConfig (.new 1 defaultUnits) ())
      [.fetch [branchAt96], .tick, .decode] s ∧
    Run (StepOf (BranchCommit.next alwaysTaken 4)) (.start 4 ())
      [.addInstructionToROB branchAt96 0, .writeBack 0, .performCommits false (fun _ => true)] t ∧
    s.decoded = [branchAt96] ∧ t.committed = [branchAt96] ∧
      (s.trained = t.trained ↔ BranchesHaveIP s.decoded) := by
  have hinorder : (exec (InorderPipeline.next takenConfig)
      (.start takenConfig (.new 1 defaultUnits) ())
        [.fetch [branchAt96], .tick, .decode]).any (fun s => s.decoded = [branchAt96]) = true := by
    decide +kernel
  have hcommit : (exec (BranchCommit.next alwaysTaken 4) (.start 4 ())
      [.addInstructionToROB branchAt96 0, .writeBack 0,
        .performCommits false (fun _ => true)]).any
        (fun t => t.committed = [branchAt96]) = true := by
    decide +kernel
  obtain ⟨s, hs, hdecoded⟩ := (Option.any_eq_true _ _).mp hinorder
  obtain ⟨t, ht, hcommitted⟩ := (Option.any_eq_true _ _).mp hcommit
  have hdecoded := of_decide_eq_true hdecoded
  have hcommitted := of_decide_eq_true hcommitted
  have inorderRun := run_of_exec hs
  have run := run_of_exec ht
  exact ⟨s, t, inorderRun, run, hdecoded, hcommitted,
    (branchAddresses_iff takenConfig _ () alwaysTaken () 4 4 _ s _ t inorderRun run
      (hdecoded.trans hcommitted.symm)).2⟩

/-! ### The micro-operations of an instruction -/

namespace FetchedInstruction

def microOp (ins : FetchedInstruction) : MicroOp := ⟨ins.operationType, ins.ciscProgramCounter⟩

/-- What `processPacket` does to the micro-operations of an instruction. -/
def setProgramCounters (ip : ℤ) : List FetchedInstruction → List FetchedInstruction
  | [] => []
  | first :: rest =>
    { first with ciscProgramCounter := ip } ::
      rest.map (fun ins => { ins with ciscProgramCounter := -1 })

theorem setProgramCounters_microOp (ip : ℤ) (ops : List FetchedInstruction) :
    (setProgramCounters ip ops).map microOp =
      PacketReader.setProgramCounters ip (ops.map microOp) := by
  cases ops with
  | nil => rfl
  | cons first rest =>
    simp [setProgramCounters, PacketReader.setProgramCounters, microOp]

end FetchedInstruction

/-- In a stream of whole instructions, the condition says that each branch is the first
micro-operation of its instruction. -/
theorem branchesHaveIP_iff_first (instructions : List (ℤ × List FetchedInstruction))
    (hvalid : ∀ i ∈ instructions, i.1 ≠ -1) :
    BranchesHaveIP (instructions.flatMap (fun i => FetchedInstruction.setProgramCounters i.1 i.2)) ↔
      ∀ i ∈ instructions, ∀ ins ∈ i.2.tail, ins.operationType ≠ .branch := by
  constructor
  · intro hall i hi ins hins hbranch
    obtain ⟨ip, ops⟩ := i
    cases ops with
    | nil => cases hins
    | cons first rest =>
      obtain ⟨front, back, rfl⟩ := List.append_of_mem hi
      obtain ⟨r₁, r₂, hrest⟩ := List.append_of_mem (show ins ∈ rest from hins)
      subst hrest
      let invalid (ins : FetchedInstruction) : FetchedInstruction :=
        { ins with ciscProgramCounter := -1 }
      let numbered (i : ℤ × List FetchedInstruction) : List FetchedInstruction :=
        FetchedInstruction.setProgramCounters i.1 i.2
      rcases hall (front.flatMap numbered ++
          { first with ciscProgramCounter := ip } :: r₁.map invalid) (invalid ins)
          (r₂.map invalid ++ back.flatMap numbered)
          (by simp [FetchedInstruction.setProgramCounters, numbered, invalid]) hbranch
        with hown | hbefore
      · exact hown rfl
      · have hfirst := hbefore { first with ciscProgramCounter := ip } (by simp)
        exact hvalid _ hi hfirst
  · intro hfirst before ins after hsplit hbranch
    have hmem : ins ∈ instructions.flatMap
        (fun i => FetchedInstruction.setProgramCounters i.1 i.2) := by
      rw [hsplit]
      simp
    obtain ⟨⟨ip, ops⟩, hi, hins⟩ := List.mem_flatMap.mp hmem
    cases ops with
    | nil => cases hins
    | cons first rest =>
      rcases List.mem_cons.mp hins with rfl | hins
      · exact .inl (hvalid _ hi)
      · obtain ⟨op, hop, rfl⟩ := List.mem_map.mp hins
        exact absurd hbranch (hfirst _ hi op hop)

/-- The micro-operations of a `loop` instruction at address 64: the counter is decremented,
and a branch follows. -/
def loopInstruction : List FetchedInstruction :=
  FetchedInstruction.setProgramCounters 64 [
    { operationType := .integerALU
      sourceOperand1 := some (.base (.register .integer 2))
      sourceOperand2 := some (.base .immediate)
      destinationOperand := some (.base (.register .integer 2))
      admitted := rfl
      ciscProgramCounter := -1
      branchTaken := false
      sourceOperand1MemValue := 0 },
    branchAt96]

/-- The in-order pipeline trains the branch of a loop at the invalid program counter. -/
theorem not_sameAddresses : ¬ ∀ labels s actions t,
    Run (StepOf (InorderPipeline.next takenConfig)) (.start takenConfig (.new 1 defaultUnits) ())
      labels s →
    Run (StepOf (BranchCommit.next alwaysTaken 4)) (.start 4 ()) actions t →
    s.decoded = t.committed → s.trained = t.trained := by
  intro h
  have hinorder : (exec (InorderPipeline.next takenConfig)
      (.start takenConfig (.new 1 defaultUnits) ()) [.fetch loopInstruction, .tick, .decode]).any
        (fun s => s.decoded = loopInstruction ∧ s.trained = [(-1, true)]) = true := by
    decide +kernel
  have hcommit : (exec (BranchCommit.next alwaysTaken 4) (.start 4 ())
      (loopInstruction.map (fun ins => .addInstructionToROB ins 0) ++
        [.writeBack 0, .writeBack 1, .performCommits false (fun _ => true)])).any
        (fun t => t.committed = loopInstruction ∧ t.trained = [(64, true)]) = true := by
    decide +kernel
  obtain ⟨s, hs, hdecoded⟩ := (Option.any_eq_true _ _).mp hinorder
  obtain ⟨t, ht, hcommitted⟩ := (Option.any_eq_true _ _).mp hcommit
  obtain ⟨hdecoded, hown⟩ := of_decide_eq_true hdecoded
  obtain ⟨hcommitted, hlast⟩ := of_decide_eq_true hcommitted
  have hsame := h _ s _ t (run_of_exec hs) (run_of_exec ht) (hdecoded.trans hcommitted.symm)
  rw [hown, hlast] at hsame
  cases hsame

end Tejas
