import Tejas.InorderPipeline
import Mathlib.Logic.Relation

/-!
# What a stage of the in-order pipeline does

The instructions that were decoded are those in the latches behind decode and those that were
written back. Between the stages an instruction only moves on. Decode puts one more instruction
behind the others and writes the registers of it.
-/

namespace Tejas.InorderPipeline
open LabelledRuns BoundedLoop

variable {numPorts : ℕ} {B : Type} {cfg : InorderConfig B}
  {s t u : InorderPipeline numPorts B}

/-- The instructions that were decoded, with the times of their results, in program order. -/
def history (s : InorderPipeline numPorts B) : List (FetchedInstruction × ℤ) :=
  (s.writtenBack ++ s.memWbLatch.entries ++ s.exMemLatch.entries ++ s.idExLatch.entries).map
    (fun e => (e.instruction, e.valueReadyAt))

def decoded (s : InorderPipeline numPorts B) : List FetchedInstruction :=
  s.history.map Prod.fst

/-- The instructions that were fetched have been decoded or wait for it, in this order. -/
def FetchedInOrder (s : InorderPipeline numPorts B) : Prop :=
  s.fetched = s.decoded ++ s.ifIdLatch.entries.map LatchEntry.instruction

/-- Instructions move on, or are fetched. -/
structure Moves (s t : InorderPipeline numPorts B) : Prop where
  now : t.now = s.now
  valueReady : t.valueReady = s.valueReady
  lastValidIPSeen : t.lastValidIPSeen = s.lastValidIPSeen
  predicted : t.predicted = s.predicted
  trained : t.trained = s.trained
  history : t.history = s.history
  fetchedInOrder : s.FetchedInOrder → t.FetchedInOrder

/-- The program counter that branches are predicted at once an instruction has been seen. -/
def validIPAfter (lastValidIPSeen : ℤ) (ins : FetchedInstruction) : ℤ :=
  if ins.ciscProgramCounter ≠ -1 then ins.ciscProgramCounter else lastValidIPSeen

/-- The instruction is decoded and its results will be there at the given time. -/
structure Decodes (s t : InorderPipeline numPorts B) (ins : FetchedInstruction) (time : ℤ) :
    Prop where
  now : t.now = s.now
  valueReady : ∀ r, t.valueReady r = if r ∈ ins.destinations then time else s.valueReady r
  lastValidIPSeen : t.lastValidIPSeen = validIPAfter s.lastValidIPSeen ins
  predicted : t.predicted = s.predicted ++
    (if ins.operationType = .branch then
      [(validIPAfter s.lastValidIPSeen ins, ins.branchTaken)] else [])
  trained : t.trained = s.trained ++
    (if ins.operationType = .branch then [(ins.ciscProgramCounter, ins.branchTaken)] else [])
  history : t.history = s.history ++ [(ins, time)]
  fetchedInOrder : s.FetchedInOrder → t.FetchedInOrder

/-- The steps that the stages are made of. -/
inductive StageStep (s t : InorderPipeline numPorts B) : Prop where
  | moves (h : s.Moves t)
  | decodes (ins : FetchedInstruction) (time : ℤ) (h : s.Decodes t ins time)

/-! ### Decode -/

/-- An instruction that is no exchange writes its destination. -/
theorem addToValueReadyArray_valueReady {ins : FetchedInstruction}
    (hxchg : ins.operationType ≠ .xchg) (time : ℤ) (r : RegisterType × ℕ) :
    (s.addToValueReadyArray ins.destinationOperand time).valueReady r =
      if r ∈ ins.destinations then time else s.valueReady r := by
  rw [Instruction.destinations_of_ne hxchg, addToValueReadyArray]
  cases ins.destinationOperand.bind Operand.register? with
  | none => simp
  | some r' => simp [Function.update_apply]

/-- Decode records the time for the registers that the instruction writes. -/
theorem addDestinations_valueReady (ins : FetchedInstruction) (time : ℤ)
    (r : RegisterType × ℕ) :
    (s.addDestinations ins time).valueReady r =
      if r ∈ ins.destinations then time else s.valueReady r := by
  by_cases hxchg : ins.operationType = .xchg
  · obtain ⟨r₁, r₂, h₁, h₂, -⟩ := Instruction.xchg_operands hxchg
    rw [Instruction.destinations_xchg hxchg h₁ h₂]
    simp only [addDestinations, hxchg, addToValueReadyArray, h₁, h₂, ne_eq, Option.some.injEq]
    by_cases heq : r₁ = r₂
    · subst heq
      simp [Function.update_apply]
    · simp only [heq, not_false_iff, if_true, Function.update_apply]
      by_cases hr₂ : r = r₂
      · simp [hr₂]
      · simp [hr₂]
  · rw [addDestinations.eq_def]
    split
    · exact absurd ‹_› hxchg
    · exact s.addToValueReadyArray_valueReady hxchg time r

/-- Recording the times changes nothing else. -/
theorem addToValueReadyArray_eq (destOpnd : Option Operand) (time : ℤ) :
    ∃ valueReady, s.addToValueReadyArray destOpnd time = { s with valueReady := valueReady } := by
  rw [addToValueReadyArray]
  split
  · exact ⟨_, rfl⟩
  · exact ⟨s.valueReady, rfl⟩

theorem addDestinations_eq (ins : FetchedInstruction) (time : ℤ) :
    ∃ valueReady, s.addDestinations ins time = { s with valueReady := valueReady } := by
  rw [addDestinations]
  split
  · obtain ⟨v, hv⟩ := s.addToValueReadyArray_eq ins.sourceOperand1 time
    dsimp only
    rw [hv]
    split
    · obtain ⟨w, hw⟩ := addToValueReadyArray_eq (s := { s with valueReady := v })
        ins.sourceOperand2 time
      exact ⟨w, hw⟩
    · exact ⟨v, rfl⟩
  · exact s.addToValueReadyArray_eq ins.destinationOperand time

theorem updateLastValidIP_eq (ins : FetchedInstruction) :
    s.updateLastValidIP ins =
      { s with lastValidIPSeen := validIPAfter s.lastValidIPSeen ins } := by
  rw [updateLastValidIP, validIPAfter]
  split <;> rfl

/-- The part of decode that is about branches changes the stall, the predictor and its calls. -/
theorem predictBranch_eq (cfg : InorderConfig B) (ins : FetchedInstruction) :
    ∃ mispredStall predictor, s.predictBranch cfg ins = { s with
      mispredStall := mispredStall
      predictor := predictor
      predicted := s.predicted ++
        (if ins.operationType = .branch then [(s.lastValidIPSeen, ins.branchTaken)] else [])
      trained := s.trained ++
        (if ins.operationType = .branch then [(ins.ciscProgramCounter, ins.branchTaken)]
          else []) } := by
  by_cases h : ins.operationType = .branch
  · simp only [predictBranch, setMispredStall, if_pos h]
    split
    · split
      · exact ⟨_, _, rfl⟩
      · exact ⟨_, _, rfl⟩
    · exact ⟨_, _, rfl⟩
  · simp only [predictBranch, if_neg h, List.append_nil]
    exact ⟨s.mispredStall, s.predictor, rfl⟩

theorem decode_decodes {e : LatchEntry} (hpeek : s.ifIdLatch.peek s.now = some e)
    (h : s.decode cfg e.instruction = some t) :
    ∃ time, s.Decodes t e.instruction time := by
  obtain ⟨time, -, rfl⟩ := Option.map_eq_some_iff.mp h
  obtain ⟨v, hv⟩ := s.addDestinations_eq e.instruction time
  obtain ⟨stall, predictor, hbranch⟩ := predictBranch_eq cfg
    (s := (s.addDestinations e.instruction time).updateLastValidIP e.instruction) e.instruction
  have hready := s.addDestinations_valueReady e.instruction time
  obtain ⟨rest, hentries, hpoll⟩ := StageLatch.peek_eq_some hpeek
  refine ⟨time, ?_⟩
  dsimp only
  rw [hbranch, updateLastValidIP_eq]
  rw [hv] at hready ⊢
  refine ⟨rfl, hready, rfl, rfl, rfl, ?_, ?_⟩
  · simp [history, StageLatch.add]
  · intro horder
    rw [FetchedInOrder] at horder ⊢
    rw [hentries] at horder
    simp only [decoded, history, StageLatch.add, hpoll] at horder ⊢
    simpa using horder

/-! ### Rounds and stages -/

theorem Moves.refl (s : InorderPipeline numPorts B) : s.Moves s :=
  ⟨rfl, rfl, rfl, rfl, rfl, rfl, id⟩

theorem decodeRound_steps {r : Round (InorderPipeline numPorts B)}
    (h : s.decodeRound cfg = some r) : s.StageStep r.state := by
  rw [decodeRound] at h
  split at h
  case isTrue =>
    cases h
    exact .moves (.refl s)
  case isFalse =>
    split at h
    case h_1 =>
      cases h
      exact .moves (.refl s)
    case h_2 e hpeek =>
      split at h
      case isTrue =>
        cases h
        exact .moves (.refl s)
      case isFalse =>
        split at h
        case h_1 => cases h
        case h_2 FURequest core _ =>
          split at h
          case isTrue =>
            cases h
            exact .moves ⟨rfl, rfl, rfl, rfl, rfl, rfl, id⟩
          case isFalse =>
            obtain ⟨t, hdecode, rfl⟩ := Option.map_eq_some_iff.mp h
            obtain ⟨time, hdecodes⟩ := decode_decodes (s := { s with core := core }) hpeek hdecode
            have hstate : (if e.instruction.operationType = .branch ∨
                e.instruction.operationType = .jump then Round.stop t
                else .again t).state = t := by
              split <;> rfl
            rw [hstate]
            exact .decodes e.instruction time ⟨hdecodes.now, hdecodes.valueReady,
              hdecodes.lastValidIPSeen, hdecodes.predicted, hdecodes.trained, hdecodes.history,
              hdecodes.fetchedInOrder⟩

/-- Instructions that move on stay in their order. -/
theorem moves_of_history (hnow : t.now = s.now) (hready : t.valueReady = s.valueReady)
    (hlast : t.lastValidIPSeen = s.lastValidIPSeen) (hpredicted : t.predicted = s.predicted)
    (htrained : t.trained = s.trained) (hhistory : t.history = s.history)
    (hfetched : t.fetched = s.fetched) (hlatch : t.ifIdLatch = s.ifIdLatch) : s.Moves t := by
  refine ⟨hnow, hready, hlast, hpredicted, htrained, hhistory, ?_⟩
  rw [FetchedInOrder, FetchedInOrder, decoded, decoded, hhistory, hfetched, hlatch]
  exact id

theorem executeRound_moves {r : Round (InorderPipeline numPorts B)}
    (h : s.executeRound = some r) : s.Moves r.state := by
  rw [executeRound] at h
  split at h
  case isTrue =>
    cases h
    exact .refl s
  case isFalse =>
    split at h
    case h_1 =>
      cases h
      exact .refl s
    case h_2 e hpeek =>
      obtain ⟨lat, -, rfl⟩ := Option.map_eq_some_iff.mp h
      obtain ⟨rest, hentries, hpoll⟩ := StageLatch.peek_eq_some hpeek
      refine moves_of_history rfl rfl rfl rfl rfl ?_ rfl rfl
      simp only [Round.state, history, StageLatch.add, hentries, hpoll]
      simp

theorem moveToMemWb_moves {e : LatchEntry} (hpeek : s.exMemLatch.peek s.now = some e) :
    s.Moves (s.moveToMemWb e) := by
  obtain ⟨rest, hentries, hpoll⟩ := StageLatch.peek_eq_some hpeek
  refine moves_of_history rfl rfl rfl rfl rfl ?_ rfl rfl
  simp only [moveToMemWb, history, StageLatch.add, hentries, hpoll]
  simp

theorem memRound_moves {state : InorderPipeline numPorts B × ℕ}
    {r : Round (InorderPipeline numPorts B × ℕ)} (h : memRound state = some r) :
    state.1.Moves r.state.1 := by
  simp only [memRound] at h
  split at h
  case isTrue =>
    cases h
    exact .refl _
  case isFalse =>
    split at h
    case h_1 =>
      cases h
      exact .refl _
    case h_2 e hpeek =>
      split at h
      case isTrue =>
        split at h
        case h_1 =>
          cases h
          exact .refl _
        case h_2 =>
          cases h
          exact moveToMemWb_moves hpeek
      case isFalse =>
        cases h
        exact moveToMemWb_moves hpeek

theorem writeBackRound_moves {r : Round (InorderPipeline numPorts B)}
    (h : s.writeBackRound = some r) : s.Moves r.state := by
  rw [writeBackRound] at h
  split at h
  case h_1 =>
    cases h
    exact .refl s
  case h_2 e hpeek =>
    cases h
    obtain ⟨rest, hentries, hpoll⟩ := StageLatch.peek_eq_some hpeek
    refine moves_of_history rfl rfl rfl rfl rfl ?_ rfl rfl
    simp only [Round.state, history, hentries, hpoll]
    simp

theorem performFetch_moves {delivered : List FetchedInstruction}
    (h : s.performFetch delivered = some t) : s.Moves t := by
  rw [performFetch] at h
  split at h
  case isTrue =>
    cases h
    exact moves_of_history rfl rfl rfl rfl rfl rfl rfl rfl
  case isFalse =>
    split at h
    case isTrue =>
      cases h
      refine ⟨rfl, rfl, rfl, rfl, rfl, rfl, ?_⟩
      intro horder
      rw [FetchedInOrder] at horder ⊢
      simp only [horder, decoded, history]
      simp [Function.comp_def]
    case isFalse => cases h

/-- The steps that follow each other in a stage. -/
def StageSteps (s t : InorderPipeline numPorts B) : Prop := Relation.ReflTransGen StageStep s t

theorem loop_stageSteps {body : InorderPipeline numPorts B →
      Option (Round (InorderPipeline numPorts B))} {rounds : ℕ}
    (hbody : ∀ s r, body s = some r → s.StageStep r.state) (h : loop body rounds s = some t) :
    s.StageSteps t :=
  loop_invariant (I := s.StageSteps)
    (fun u r hu hr => Relation.ReflTransGen.tail hu (hbody u r hr)) Relation.ReflTransGen.refl h

/-- All labels but the answers of the memory system and the clock are steps of the stages. -/
theorem next_cases {label : InorderLabel} (h : next cfg s label = some t) :
    (∃ address, label = .processCompletionOfMemRequest address ∧
      t = s.updateInstructionCompletions address) ∨
    (label = .tick ∧ t = { s with now := s.now + 1 }) ∨ s.StageSteps t := by
  cases label with
  | processCompletionOfMemRequest address =>
    cases h
    exact .inl ⟨address, rfl, rfl⟩
  | tick =>
    cases h
    exact .inr (.inl ⟨rfl, rfl⟩)
  | fetch delivered =>
    exact .inr (.inr (Relation.ReflTransGen.single (.moves (performFetch_moves h))))
  | writeback =>
    rw [next, performWriteBack] at h
    split at h
    · cases h
      exact .inr (.inr Relation.ReflTransGen.refl)
    · exact .inr (.inr (loop_stageSteps (fun _ _ hr => .moves (writeBackRound_moves hr)) h))
  | exec =>
    rw [next, execute] at h
    split at h
    · cases h
      exact .inr (.inr Relation.ReflTransGen.refl)
    · exact .inr (.inr (loop_stageSteps (fun _ _ hr => .moves (executeRound_moves hr)) h))
  | decode =>
    rw [next, performDecode] at h
    split at h
    · cases h
      exact .inr (.inr Relation.ReflTransGen.refl)
    · have hcleared : s.StageStep { s with core := s.core.clearPortUsage } :=
        .moves ⟨rfl, rfl, rfl, rfl, rfl, rfl, id⟩
      exact .inr (.inr (Relation.ReflTransGen.head hcleared
        (loop_stageSteps (fun _ _ hr => decodeRound_steps hr) h)))
  | mem accepted =>
    rw [next, performMemEvent] at h
    split at h
    · cases h
      exact .inr (.inr Relation.ReflTransGen.refl)
    · obtain ⟨⟨u, left⟩, hloop, rfl⟩ := Option.map_eq_some_iff.mp h
      have hstart : s.StageSteps (s, accepted).1 := Relation.ReflTransGen.refl
      refine .inr (.inr ?_)
      exact loop_invariant
        (I := fun state : InorderPipeline numPorts B × ℕ => s.StageSteps state.1)
        (fun state r hu hr => Relation.ReflTransGen.tail hu (.moves (memRound_moves hr)))
        hstart hloop

/-! ### An answer of the memory system -/

theorem completed_instruction (address : ℤ) (e : LatchEntry) :
    (s.completed address e).instruction = e.instruction := by
  rw [completed]
  split <;> rfl

/-- The loads of a list that wait for the address record the present for their registers. -/
theorem foldl_completions (entries : List LatchEntry) (address : ℤ) :
    ∀ t : InorderPipeline numPorts B, ∃ valueReady,
      entries.foldl (fun t e =>
        if s.AwaitsAddress address e then
          t.addToValueReadyArray e.instruction.destinationOperand s.now
        else t) t = { t with valueReady := valueReady } ∧
      ∀ r, valueReady r =
        if ∃ e ∈ entries, s.AwaitsAddress address e = true ∧ r ∈ e.instruction.destinations then
          s.now else t.valueReady r := by
  induction entries with
  | nil =>
    intro t
    exact ⟨t.valueReady, rfl, fun r => by simp⟩
  | cons e rest ih =>
    intro t
    rw [List.foldl_cons]
    by_cases hawaits : s.AwaitsAddress address e = true
    · have hload : e.instruction.operationType = .load := (of_decide_eq_true hawaits).1
      have hxchg : e.instruction.operationType ≠ .xchg := by
        rw [hload]
        decide
      have hready := t.addToValueReadyArray_valueReady hxchg s.now
      obtain ⟨w, hw⟩ := t.addToValueReadyArray_eq e.instruction.destinationOperand s.now
      rw [if_pos hawaits]
      obtain ⟨v, hv, hr⟩ := ih (t.addToValueReadyArray e.instruction.destinationOperand s.now)
      refine ⟨v, ?_, ?_⟩
      · rw [hv, hw]
      · intro r
        rw [hr r, hready r]
        by_cases hmem : r ∈ e.instruction.destinations
        · rw [if_pos hmem, ite_self, if_pos ⟨e, List.mem_cons_self, hawaits, hmem⟩]
        · simp [hmem]
    · rw [if_neg hawaits]
      obtain ⟨v, hv, hr⟩ := ih t
      refine ⟨v, hv, ?_⟩
      intro r
      rw [hr r]
      simp [hawaits]

theorem updateInstructionCompletions_valueReady (s : InorderPipeline numPorts B) (address : ℤ)
    (r : RegisterType × ℕ) :
    (s.updateInstructionCompletions address).valueReady r =
      if ∃ e ∈ s.memWbLatch.entries, s.AwaitsAddress address e = true ∧
          r ∈ e.instruction.destinations then s.now else s.valueReady r := by
  obtain ⟨v, hv, hr⟩ := foldl_completions (s := s) s.memWbLatch.entries address
    { s with memWbLatch := { s.memWbLatch with
        entries := s.memWbLatch.entries.map (s.completed address) } }
  rw [updateInstructionCompletions, hv]
  exact hr r

theorem updateInstructionCompletions_eq (s : InorderPipeline numPorts B) (address : ℤ) :
    ∃ valueReady, s.updateInstructionCompletions address = { s with
      memWbLatch := { s.memWbLatch with
        entries := s.memWbLatch.entries.map (s.completed address) }
      valueReady := valueReady } := by
  obtain ⟨v, hv, -⟩ := foldl_completions (s := s) s.memWbLatch.entries address
    { s with memWbLatch := { s.memWbLatch with
        entries := s.memWbLatch.entries.map (s.completed address) } }
  exact ⟨v, hv⟩

/-! ### The loops of the stages end by themselves -/

theorem StageLatch.poll_length_lt {latch : StageLatch} {now : ℤ} {e : LatchEntry}
    (h : latch.peek now = some e) : (latch.poll now).entries.length < latch.entries.length := by
  obtain ⟨rest, hentries, hpoll⟩ := StageLatch.peek_eq_some h
  rw [hentries, hpoll, List.length_cons]
  exact Nat.lt_succ_self _

theorem decode_ifIdLatch {ins : FetchedInstruction} (h : s.decode cfg ins = some t) :
    t.ifIdLatch = s.ifIdLatch.poll s.now := by
  obtain ⟨time, -, rfl⟩ := Option.map_eq_some_iff.mp h
  obtain ⟨v, hv⟩ := s.addDestinations_eq ins time
  obtain ⟨stall, predictor, hbranch⟩ := predictBranch_eq cfg
    (s := (s.addDestinations ins time).updateLastValidIP ins) ins
  dsimp only
  rw [hbranch, updateLastValidIP_eq, hv]

theorem decodeRound_again (h : s.decodeRound cfg = some (.again t)) :
    t.ifIdLatch.entries.length < s.ifIdLatch.entries.length := by
  rw [decodeRound] at h
  split at h
  case isTrue => cases h
  case isFalse =>
    split at h
    case h_1 => cases h
    case h_2 e hpeek =>
      split at h
      case isTrue => cases h
      case isFalse =>
        split at h
        case h_1 => cases h
        case h_2 =>
          split at h
          case isTrue => cases h
          case isFalse =>
            obtain ⟨u, hdecode, hround⟩ := Option.map_eq_some_iff.mp h
            split at hround
            case isTrue => cases hround
            case isFalse =>
              cases hround
              rw [decode_ifIdLatch hdecode]
              exact StageLatch.poll_length_lt hpeek

theorem executeRound_again (h : s.executeRound = some (.again t)) :
    t.idExLatch.entries.length < s.idExLatch.entries.length := by
  rw [executeRound] at h
  split at h
  case isTrue => cases h
  case isFalse =>
    split at h
    case h_1 => cases h
    case h_2 e hpeek =>
      obtain ⟨lat, -, hround⟩ := Option.map_eq_some_iff.mp h
      cases hround
      exact StageLatch.poll_length_lt hpeek

theorem memRound_again {before after : InorderPipeline numPorts B × ℕ}
    (h : memRound before = some (.again after)) :
    after.1.exMemLatch.entries.length < before.1.exMemLatch.entries.length := by
  simp only [memRound] at h
  split at h
  case isTrue => cases h
  case isFalse =>
    split at h
    case h_1 => cases h
    case h_2 e hpeek =>
      have hmoved : (before.1.moveToMemWb e).exMemLatch.entries.length <
          before.1.exMemLatch.entries.length := StageLatch.poll_length_lt hpeek
      split at h
      case isTrue =>
        split at h
        case h_1 => cases h
        case h_2 =>
          cases h
          exact hmoved
      case isFalse =>
        cases h
        exact hmoved

theorem writeBackRound_again (h : s.writeBackRound = some (.again t)) :
    t.memWbLatch.entries.length < s.memWbLatch.entries.length := by
  rw [writeBackRound] at h
  split at h
  case h_1 => cases h
  case h_2 e hpeek =>
    cases h
    exact StageLatch.poll_length_lt hpeek

/-- The bounds on the rounds of the stages never end a loop. -/
theorem loops_end (cfg : InorderConfig B) (s : InorderPipeline numPorts B) (accepted more : ℕ) :
    loop (decodeRound cfg) (s.ifIdLatch.entries.length + 1 + more) s =
        loop (decodeRound cfg) (s.ifIdLatch.entries.length + 1) s ∧
      loop executeRound (s.idExLatch.entries.length + 1 + more) s =
        loop executeRound (s.idExLatch.entries.length + 1) s ∧
      loop memRound (s.exMemLatch.entries.length + 1 + more) (s, accepted) =
        loop memRound (s.exMemLatch.entries.length + 1) (s, accepted) ∧
      loop writeBackRound (s.memWbLatch.entries.length + 1 + more) s =
        loop writeBackRound (s.memWbLatch.entries.length + 1) s :=
  ⟨loop_of_rank_lt (fun s => s.ifIdLatch.entries.length)
      (fun _ _ => decodeRound_again) (Nat.lt_succ_self _),
    loop_of_rank_lt (fun s => s.idExLatch.entries.length)
      (fun _ _ => executeRound_again) (Nat.lt_succ_self _),
    loop_of_rank_lt (fun s => s.1.exMemLatch.entries.length)
      (fun _ _ => memRound_again) (Nat.lt_succ_self _),
    loop_of_rank_lt (fun s => s.memWbLatch.entries.length)
      (fun _ _ => writeBackRound_again) (Nat.lt_succ_self _)⟩

end Tejas.InorderPipeline
