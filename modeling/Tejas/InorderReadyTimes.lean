import Tejas.InorderSteps
import Mathlib.Order.Lattice

/-!
# Ready times of the in-order pipeline

Decode waits until the registers that an instruction reads are ready. The time recorded for a
register should be that of the youngest instruction that writes it. Decode records it so, but
a load that is answered records its own time, even if an instruction behind it writes the same
register.
-/

namespace Tejas
open LabelledRuns

/-- Two ways to look at a recorded time: the time itself, and from when on it counts as
ready. -/
inductive View where
  | recorded
  | readiness
  deriving DecidableEq

def View.see : View → ℤ → ℤ → ℤ
  | .recorded, _, time => time
  | .readiness, now, time => max now time

theorem View.see_succ {v : View} {now a b : ℤ} (h : v.see now a = v.see now b) :
    v.see (now + 1) a = v.see (now + 1) b := by
  cases v with
  | recorded => exact h
  | readiness =>
    simp only [View.see] at h ⊢
    omega

/-- Two times look the same if they pass the same checks from now on. -/
theorem View.see_readiness_iff {now a b : ℤ} :
    View.readiness.see now a = View.readiness.see now b ↔
      ∀ later, now ≤ later → (a ≤ later ↔ b ≤ later) := by
  simp only [View.see]
  constructor
  · intro h later hlater
    omega
  · intro h
    have ha := h (max now a) (le_max_left now a)
    have hb := h (max now b) (le_max_left now b)
    omega

/-- The last of the instructions that write a register. -/
def youngestIn (entries : List LatchEntry) (r : RegisterType × ℕ) : Option LatchEntry :=
  entries.reverse.find? (fun e => r ∈ e.instruction.destinations)

theorem youngestIn_append (a b : List LatchEntry) (r : RegisterType × ℕ) :
    youngestIn (a ++ b) r = (youngestIn b r).or (youngestIn a r) := by
  rw [youngestIn, List.reverse_append, List.find?_append, youngestIn, youngestIn]

theorem youngestIn_map {f : LatchEntry → LatchEntry}
    (hf : ∀ e, (f e).instruction = e.instruction) (l : List LatchEntry)
    (r : RegisterType × ℕ) : youngestIn (l.map f) r = (youngestIn l r).map f := by
  rw [youngestIn, youngestIn, ← List.map_reverse, List.find?_map]
  simp only [Function.comp_def, hf]

theorem youngestIn_eq_some {l : List LatchEntry} {r : RegisterType × ℕ} {y : LatchEntry}
    (h : youngestIn l r = some y) : y ∈ l ∧ r ∈ y.instruction.destinations := by
  rw [youngestIn] at h
  exact ⟨List.mem_reverse.mp (List.mem_of_find?_eq_some h), by simpa using List.find?_some h⟩

theorem youngestIn_isSome {l : List LatchEntry} {r : RegisterType × ℕ} {e : LatchEntry}
    (he : e ∈ l) (hr : r ∈ e.instruction.destinations) : ∃ y, youngestIn l r = some y := by
  rw [youngestIn, ← Option.isSome_iff_exists, List.find?_isSome]
  exact ⟨e, List.mem_reverse.mpr he, by simpa using hr⟩

namespace InorderPipeline

variable {numPorts : ℕ} {B : Type} {cfg : InorderConfig B}
  {s t : InorderPipeline numPorts B} {v : View} {address : ℤ} {r : RegisterType × ℕ}

/-- The time at which the youngest of the decoded instructions that write a register has its
result; a register that was never written is ready from the start. -/
def producerReadyAt (s : InorderPipeline numPorts B) (r : RegisterType × ℕ) : ℤ :=
  ((s.history.reverse.find? (fun produced => r ∈ produced.1.destinations)).map Prod.snd).getD 0

/-- The recorded ready times look like those of the youngest producers. -/
def ReadyTimes (v : View) (s : InorderPipeline numPorts B) : Prop :=
  ∀ r, v.see s.now (s.valueReady r) = v.see s.now (s.producerReadyAt r)

/-- The youngest instruction in flight that writes the register is answered, too, or its own
time looks like the present. -/
def YoungestAnswered (v : View) (s : InorderPipeline numPorts B) (address : ℤ)
    (r : RegisterType × ℕ) : Bool :=
  match youngestIn (s.exMemLatch.entries ++ s.idExLatch.entries) r,
    youngestIn s.memWbLatch.entries r with
  | some y, _ => v.see s.now y.valueReadyAt = v.see s.now s.now
  | none, some y =>
    s.AwaitsAddress address y ∨ v.see s.now y.valueReadyAt = v.see s.now s.now
  | none, none => true

/-- Every load that the memory system answers writes a register whose youngest writer in
flight is answered, too, or has its result at this time. -/
def AnswersYoungest (v : View) (s : InorderPipeline numPorts B) : InorderLabel → Prop
  | .processCompletionOfMemRequest address =>
    ∀ e ∈ s.memWbLatch.entries, s.AwaitsAddress address e = true →
      ∀ r ∈ e.instruction.destinations, s.YoungestAnswered v address r = true
  | _ => True

instance (v : View) (s : InorderPipeline numPorts B) :
    ∀ label, Decidable (s.AnswersYoungest v label)
  | .processCompletionOfMemRequest address =>
    inferInstanceAs (Decidable (∀ e ∈ s.memWbLatch.entries, s.AwaitsAddress address e = true →
      ∀ r ∈ e.instruction.destinations, s.YoungestAnswered v address r = true))
  | .writeback => inferInstanceAs (Decidable True)
  | .mem _ => inferInstanceAs (Decidable True)
  | .exec => inferInstanceAs (Decidable True)
  | .decode => inferInstanceAs (Decidable True)
  | .fetch _ => inferInstanceAs (Decidable True)
  | .tick => inferInstanceAs (Decidable True)

/-- The youngest producer is looked for in the latches from the youngest on, and then among
the instructions that were written back. -/
theorem producerReadyAt_eq (s : InorderPipeline numPorts B) (r : RegisterType × ℕ) :
    s.producerReadyAt r =
      (((youngestIn (s.exMemLatch.entries ++ s.idExLatch.entries) r).or
        ((youngestIn s.memWbLatch.entries r).or (youngestIn s.writtenBack r))).map
          LatchEntry.valueReadyAt).getD 0 := by
  rw [← youngestIn_append, ← youngestIn_append, producerReadyAt, history, ← List.map_reverse,
    List.find?_map, Option.map_map, youngestIn, List.append_assoc]
  rfl

/-! ### Decode -/

theorem Moves.readyTimes (h : s.Moves t) (hs : s.ReadyTimes v) : t.ReadyTimes v := by
  intro r
  rw [h.now, h.valueReady, producerReadyAt, h.history]
  exact hs r

theorem Decodes.readyTimes {ins : FetchedInstruction} {time : ℤ} (h : s.Decodes t ins time)
    (hs : s.ReadyTimes v) : t.ReadyTimes v := by
  intro r
  rw [h.now, h.valueReady, producerReadyAt, h.history, List.reverse_append,
    List.reverse_singleton, List.singleton_append]
  by_cases hr : r ∈ ins.destinations
  · rw [if_pos hr, List.find?_cons_of_pos (by simpa using hr)]
    rfl
  · rw [if_neg hr, List.find?_cons_of_neg (by simpa using hr)]
    exact hs r

theorem StageSteps.readyTimes (h : s.StageSteps t) (hs : s.ReadyTimes v) : t.ReadyTimes v := by
  induction h with
  | refl => exact hs
  | tail _ hstep ih =>
    cases hstep with
    | moves hmoves => exact hmoves.readyTimes ih
    | decodes ins time hdecodes => exact hdecodes.readyTimes ih

theorem ReadyTimes.tick (hs : s.ReadyTimes v) :
    ReadyTimes v { s with now := s.now + 1 } :=
  fun r => View.see_succ (hs r)

/-! ### An answer of the memory system -/

theorem producerReadyAt_completion (s : InorderPipeline numPorts B) (address : ℤ)
    (r : RegisterType × ℕ) :
    (s.updateInstructionCompletions address).producerReadyAt r =
      (((youngestIn (s.exMemLatch.entries ++ s.idExLatch.entries) r).or
        (((youngestIn s.memWbLatch.entries r).map (s.completed address)).or
          (youngestIn s.writtenBack r))).map LatchEntry.valueReadyAt).getD 0 := by
  obtain ⟨v, hv⟩ := s.updateInstructionCompletions_eq address
  rw [producerReadyAt_eq, hv]
  dsimp only
  rw [youngestIn_map (completed_instruction address)]

/-- A register that no answered load writes is seen as before. -/
theorem see_of_unanswered
    (hnone : ¬ ∃ e ∈ s.memWbLatch.entries, s.AwaitsAddress address e = true ∧
      r ∈ e.instruction.destinations) :
    (s.updateInstructionCompletions address).valueReady r = s.valueReady r ∧
      (s.updateInstructionCompletions address).producerReadyAt r = s.producerReadyAt r := by
  refine ⟨by rw [updateInstructionCompletions_valueReady, if_neg hnone], ?_⟩
  rw [producerReadyAt_completion, producerReadyAt_eq]
  cases hyoungest : youngestIn s.memWbLatch.entries r with
  | none => rfl
  | some y =>
    obtain ⟨hmem, hr⟩ := youngestIn_eq_some hyoungest
    have hcompleted : s.completed address y = y := by
      rw [completed, if_neg (fun hawaits => hnone ⟨y, hmem, hawaits, hr⟩)]
    rw [Option.map_some, hcompleted]

/-- A register that an answered load writes has the right time exactly when its youngest
writer is answered, or has its result now. -/
theorem see_of_answered
    (hsome : ∃ e ∈ s.memWbLatch.entries, s.AwaitsAddress address e = true ∧
      r ∈ e.instruction.destinations) :
    v.see s.now ((s.updateInstructionCompletions address).valueReady r) =
        v.see s.now ((s.updateInstructionCompletions address).producerReadyAt r) ↔
      s.YoungestAnswered v address r = true := by
  rw [updateInstructionCompletions_valueReady, if_pos hsome, producerReadyAt_completion,
    YoungestAnswered]
  obtain ⟨e, he, -, hr⟩ := hsome
  obtain ⟨y, hy⟩ := youngestIn_isSome he hr
  rw [hy]
  cases youngestIn (s.exMemLatch.entries ++ s.idExLatch.entries) r with
  | some z =>
    simp only [Option.some_or, Option.map_some, Option.getD_some, decide_eq_true_eq]
    exact eq_comm
  | none =>
    simp only [Option.none_or, Option.map_some, Option.some_or, Option.getD_some,
      decide_eq_true_eq]
    by_cases hawaits : s.AwaitsAddress address y = true
    · rw [completed, if_pos hawaits]
      exact ⟨fun _ => .inl hawaits, fun _ => rfl⟩
    · rw [completed, if_neg hawaits]
      exact ⟨fun h => .inr h.symm, fun h => (h.resolve_left hawaits).symm⟩

theorem ReadyTimes.completion_iff (hs : s.ReadyTimes v) (address : ℤ) :
    (s.updateInstructionCompletions address).ReadyTimes v ↔
      s.AnswersYoungest v (.processCompletionOfMemRequest address) := by
  have hnow : (s.updateInstructionCompletions address).now = s.now := by
    obtain ⟨w, hw⟩ := s.updateInstructionCompletions_eq address
    rw [hw]
  constructor
  · intro ht e he hawaits r hr
    have hseen := ht r
    rw [hnow] at hseen
    exact (see_of_answered ⟨e, he, hawaits, hr⟩).mp hseen
  · intro hanswers r
    rw [hnow]
    by_cases hsome : ∃ e ∈ s.memWbLatch.entries, s.AwaitsAddress address e = true ∧
        r ∈ e.instruction.destinations
    · obtain ⟨e, he, hawaits, hr⟩ := id hsome
      exact (see_of_answered hsome).mpr (hanswers e he hawaits r hr)
    · obtain ⟨hready, hproducer⟩ := see_of_unanswered hsome
      rw [hready, hproducer]
      exact hs r

/-! ### Runs -/

theorem readyTimes_start (v : View) (cfg : InorderConfig B) (core : ExecutionCore numPorts)
    (predictor : B) : (start cfg core predictor).ReadyTimes v :=
  fun _ => rfl

/-- Whether a step keeps the ready times right is decided by its label and the state before. -/
theorem ReadyTimes.next_iff {label : InorderLabel} (hs : s.ReadyTimes v)
    (h : next cfg s label = some t) : t.ReadyTimes v ↔ s.AnswersYoungest v label := by
  cases label with
  | processCompletionOfMemRequest address =>
    cases h
    exact hs.completion_iff address
  | tick =>
    cases h
    exact ⟨fun _ => trivial, fun _ => hs.tick⟩
  | writeback | mem | exec | decode | fetch =>
    rcases next_cases h with ⟨_, hlabel, -⟩ | ⟨hlabel, -⟩ | hsteps
    · cases hlabel
    · cases hlabel
    · exact ⟨fun _ => trivial, fun _ => hsteps.readyTimes hs⟩

/-- For every instruction stream, every configuration and every time at which the memory system
answers: as long as each answer completes only loads whose registers have no younger writer in
flight, other than one that is answered too or has its result at that time, the recorded ready
times are those of the youngest producers; and the first other answer makes one of them wrong.
The same holds for the times from when on the registers count as ready, where the younger
writer may also have finished earlier. -/
theorem readyTimes_iff (cfg : InorderConfig B) (core : ExecutionCore numPorts) (predictor : B)
    (v : View) : ∀ labels s,
      Run (Guarded (StepOf (next cfg)) (AnswersYoungest v)) (start cfg core predictor) labels s →
        s.ReadyTimes v ∧ ∀ label t, next cfg s label = some t →
          (t.ReadyTimes v ↔ s.AnswersYoungest v label) := by
  intro labels s run
  have hs : s.ReadyTimes v := by
    refine run.invariant (readyTimes_start v cfg core predictor) ?_
    intro s label t hs hstep
    exact (hs.next_iff hstep.2).mpr hstep.1
  exact ⟨hs, fun label t h => hs.next_iff h⟩

/-- A load into the integer register 1. -/
def loadR1 : FetchedInstruction where
  operationType := .load
  sourceOperand1 := some (.memory (some (.register .integer 2)) none)
  sourceOperand2 := none
  destinationOperand := some (.base (.register .integer 1))
  admitted := rfl
  ciscProgramCounter := 64
  branchTaken := false
  sourceOperand1MemValue := 4096

/-- A division that writes a register. -/
def divideInto (register : ℕ) : FetchedInstruction where
  operationType := .integerDiv
  sourceOperand1 := some (.base (.register .integer 3))
  sourceOperand2 := some (.base (.register .integer 4))
  destinationOperand := some (.base (.register .integer register))
  admitted := rfl
  ciscProgramCounter := 68
  branchTaken := false
  sourceOperand1MemValue := 0

/-- Two instructions in each latch, and a predictor that always says taken. -/
def twoWide : InorderConfig Unit where
  issueWidth := 2
  branchMispredictionPenalty := 8
  predict := fun _ _ _ => (true, ())
  train := fun _ _ _ _ => ()

/-- A load and a division are fetched together, and the load is answered four cycles later. -/
def loadAndDivide (register : ℕ) : List InorderLabel :=
  oneCycleOperation [] 0 [loadR1, divideInto register] ++ oneCycleOperation [] 0 [] ++
    oneCycleOperation [] 0 [] ++ oneCycleOperation [] 1 [] ++
      [.writeback, .processCompletionOfMemRequest 4096]

theorem readyTimes_otherRegister : ∃ s,
    Run (Guarded (StepOf (next twoWide)) (AnswersYoungest .recorded))
      (start twoWide (.new 1 IssueState.defaultUnits) ()) (loadAndDivide 5) s ∧
      s.valueReady (.integer, 1) = 4 ∧ s.ReadyTimes .recorded := by
  have hexec : (exec (fun s label =>
      if s.AnswersYoungest .recorded label then next twoWide s label else none)
        (start twoWide (.new 1 IssueState.defaultUnits) ()) (loadAndDivide 5)).any
          (fun s => s.valueReady (.integer, 1) = 4) = true := by
    decide +kernel
  obtain ⟨s, hs, hready⟩ := (Option.any_eq_true _ _).mp hexec
  have run := guarded_run_of_exec hs
  exact ⟨s, run, of_decide_eq_true hready, (readyTimes_iff twoWide _ () .recorded _ s run).1⟩

/-- The division writes the register of the load. It has its result at time 22, but once the
load is answered, the register counts as ready from time 4 on. -/
theorem not_readyTimes : ¬ ∃ v : View, ∀ labels s,
    Run (StepOf (next twoWide)) (start twoWide (.new 1 IssueState.defaultUnits) ()) labels s →
      s.ReadyTimes v := by
  rintro ⟨v, h⟩
  have hexec : (exec (next twoWide) (start twoWide (.new 1 IssueState.defaultUnits) ())
      (loadAndDivide 1)).any (fun s => s.now = 4 ∧ s.valueReady (.integer, 1) = 4 ∧
        s.producerReadyAt (.integer, 1) = 22) = true := by
    decide +kernel
  obtain ⟨s, hs, htimes⟩ := (Option.any_eq_true _ _).mp hexec
  obtain ⟨hnow, hready, hproducer⟩ := of_decide_eq_true htimes
  have hseen := h _ s (run_of_exec hs) (.integer, 1)
  rw [hnow, hready, hproducer] at hseen
  cases v with
  | recorded => exact absurd hseen (by decide)
  | readiness => exact absurd hseen (by decide)

end InorderPipeline

end Tejas
