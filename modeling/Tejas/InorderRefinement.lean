import Tejas.InorderStream
import Tejas.InorderSteps

/-!
# The rings do what the lists do

Until decode ends the simulation, the pipeline whose latches are rings and whose instructions
come out of the fetch buffer makes a run of the pipeline whose latches are lists.
-/

namespace Tejas
open LabelledRuns BoundedLoop

namespace InorderPipeline

variable {numPorts : ℕ} {B : Type} {p q : InorderPipeline numPorts B}

/-- A pipeline with the latches of another one, and what was kept about their instructions. -/
def withLatchesOf (p q : InorderPipeline numPorts B) : InorderPipeline numPorts B :=
  { p with
    ifIdLatch := q.ifIdLatch
    idExLatch := q.idExLatch
    exMemLatch := q.exMemLatch
    memWbLatch := q.memWbLatch
    fetched := q.fetched
    writtenBack := q.writtenBack }

theorem addToValueReadyArray_withLatchesOf (destOpnd : Option Operand) (time : ℤ) :
    (p.withLatchesOf q).addToValueReadyArray destOpnd time =
      (p.addToValueReadyArray destOpnd time).withLatchesOf q := by
  rw [addToValueReadyArray, addToValueReadyArray]
  split <;> rfl

theorem addDestinations_withLatchesOf (ins : FetchedInstruction) (time : ℤ) :
    (p.withLatchesOf q).addDestinations ins time =
      (p.addDestinations ins time).withLatchesOf q := by
  rw [addDestinations, addDestinations]
  split
  · simp only [addToValueReadyArray_withLatchesOf]
    split <;> rfl
  · exact addToValueReadyArray_withLatchesOf _ _

theorem updateLastValidIP_withLatchesOf (ins : FetchedInstruction) :
    (p.withLatchesOf q).updateLastValidIP ins = (p.updateLastValidIP ins).withLatchesOf q := by
  rw [updateLastValidIP, updateLastValidIP]
  split <;> rfl

theorem predictBranch_withLatchesOf (cfg : InorderConfig B) (ins : FetchedInstruction) :
    (p.withLatchesOf q).predictBranch cfg ins = (p.predictBranch cfg ins).withLatchesOf q := by
  by_cases hbranch : ins.operationType = .branch
  · simp only [predictBranch, if_pos hbranch, setMispredStall]
    by_cases hwrong :
        (cfg.predict p.predictor p.lastValidIPSeen ins.branchTaken).1 ≠ ins.branchTaken
    · by_cases hlong : p.mispredStall > cfg.branchMispredictionPenalty
      · simp [withLatchesOf, hwrong, hlong]
      · simp [withLatchesOf, hwrong, hlong]
    · simp [withLatchesOf, hwrong]
  · simp only [predictBranch, if_neg hbranch]

end InorderPipeline

namespace RingPipeline

variable {numPorts : ℕ} {B : Type} {cfg : RingConfig B} {s t : RingPipeline numPorts B}
  {p q : InorderPipeline numPorts B} {ins : NumberedInstruction}

/-- The rings hold what the lists hold, and all else is the same. -/
structure Implements (s : RingPipeline numPorts B) (p : InorderPipeline numPorts B) : Prop where
  engine : s.engine = p.withLatchesOf s.engine
  ifIdLatch : StageRing.Represents (·.toFetchedInstruction) s.ifIdLatch p.ifIdLatch
  idExLatch : StageRing.Represents (·.toFetchedInstruction) s.idExLatch p.idExLatch
  exMemLatch : StageRing.Represents (·.toFetchedInstruction) s.exMemLatch p.exMemLatch
  memWbLatch : StageRing.Represents (·.toFetchedInstruction) s.memWbLatch p.memWbLatch
  writtenBack : s.writtenBack.map (·.toFetchedInstruction) =
    p.writtenBack.map LatchEntry.instruction

/-- The simulation has ended. -/
def Ended (s : RingPipeline numPorts B) : Prop := s.exited.isSome

theorem implements_start (cfg : RingConfig B) (core : ExecutionCore numPorts) (predictor : B) :
    (start cfg core predictor).Implements (.start cfg.toInorderConfig core predictor) :=
  ⟨rfl, .new _, .new _, .new _, .new _, rfl⟩

namespace Implements

theorem now (h : s.Implements p) : s.now = p.now := by
  rw [RingPipeline.now, h.engine]
  rfl

theorem mispredStall (h : s.Implements p) : s.engine.mispredStall = p.mispredStall := by
  rw [h.engine]
  rfl

/-- The same is done to the two engines. -/
theorem of_engine (h : s.Implements p) {f : InorderPipeline numPorts B → InorderPipeline numPorts B}
    (hf : ∀ p q : InorderPipeline numPorts B,
      f (p.withLatchesOf q) = (f p).withLatchesOf q)
    (hifId : (f p).ifIdLatch = p.ifIdLatch) (hidEx : (f p).idExLatch = p.idExLatch)
    (hexMem : (f p).exMemLatch = p.exMemLatch) (hmemWb : (f p).memWbLatch = p.memWbLatch)
    (hwritten : (f p).writtenBack = p.writtenBack) :
    ({ s with engine := f s.engine } : RingPipeline numPorts B).Implements (f p) := by
  refine ⟨?_, hifId ▸ h.ifIdLatch, hidEx ▸ h.idExLatch, hexMem ▸ h.exMemLatch,
    hmemWb ▸ h.memWbLatch, hwritten ▸ h.writtenBack⟩
  have hengine : f s.engine = (f p).withLatchesOf s.engine := by
    rw [← hf, ← h.engine]
  dsimp only
  rw [hengine]
  rfl

end Implements

/-! ### The stages -/

/-- Both rounds stop or go on alike. -/
abbrev RoundImplements (r : Round (RingPipeline numPorts B))
    (r' : Round (InorderPipeline numPorts B)) : Prop :=
  Round.Rel Implements r r'

theorem decode_implements {e : LatchEntry} {r : Round (RingPipeline numPorts B)}
    (h : s.Implements p) (hroom : p.idExLatch.isFull = false)
    (hins : ins.toFetchedInstruction = e.instruction)
    (hpoll : StageRing.Represents (·.toFetchedInstruction) (s.ifIdLatch.poll p.now).2
      (p.ifIdLatch.poll p.now)) (hr : s.decode cfg ins = some r) :
    (∃ u, r = .stop u ∧ u.Ended) ∨ ∃ q, p.decode cfg.toInorderConfig e.instruction = some q ∧
      RoundImplements r (if e.instruction.operationType = .branch ∨
        e.instruction.operationType = .jump then .stop q else .again q) := by
  obtain ⟨time, htime, hround⟩ := Option.map_eq_some_iff.mp hr
  dsimp only at hround
  rw [h.now, hins] at hround
  rw [hins] at htime
  split at hround
  case isTrue => exact .inl ⟨_, hround.symm, rfl⟩
  case isFalse =>
    have htime' : p.timeWhenValueReady e.instruction = some time := by
      rw [← htime, h.engine]
      rfl
    obtain ⟨q, hq⟩ : ∃ q, q = ((p.addDestinations e.instruction time).updateLastValidIP
      e.instruction).predictBranch cfg.toInorderConfig e.instruction := ⟨_, rfl⟩
    have hengine : ((s.engine.addDestinations e.instruction time).updateLastValidIP
        e.instruction).predictBranch cfg.toInorderConfig e.instruction =
        q.withLatchesOf s.engine := by
      rw [hq, ← InorderPipeline.predictBranch_withLatchesOf,
        ← InorderPipeline.updateLastValidIP_withLatchesOf,
        ← InorderPipeline.addDestinations_withLatchesOf, ← h.engine]
    have hlatches : q.now = p.now ∧ q.ifIdLatch = p.ifIdLatch ∧ q.idExLatch = p.idExLatch ∧
        q.exMemLatch = p.exMemLatch ∧ q.memWbLatch = p.memWbLatch ∧
        q.writtenBack = p.writtenBack := by
      obtain ⟨v, hv⟩ := p.addDestinations_eq e.instruction time
      obtain ⟨stall, predictor, hbranch⟩ := InorderPipeline.predictBranch_eq
        (s := (p.addDestinations e.instruction time).updateLastValidIP e.instruction)
        cfg.toInorderConfig e.instruction
      rw [hq, hbranch, InorderPipeline.updateLastValidIP_eq, hv]
      exact ⟨rfl, rfl, rfl, rfl, rfl, rfl⟩
    obtain ⟨hnow, hifId, hidEx, hexMem, hmemWb, hwritten⟩ := hlatches
    refine .inr ⟨{ q with
      idExLatch := p.idExLatch.add ⟨e.instruction, p.now + 1, time⟩
      ifIdLatch := p.ifIdLatch.poll p.now }, ?_, ?_⟩
    · rw [InorderPipeline.decode, htime', Option.map_some]
      dsimp only
      rw [← hq, hidEx, hifId, hnow]
    · have hlast := h.idExLatch.add (e := ⟨e.instruction, p.now + 1, time⟩) hroom hins
      have himplements : ({ s with
          engine := q.withLatchesOf s.engine
          decodeCtr := s.decodeCtr + 1
          idExLatch := s.idExLatch.add ins (p.now + 1)
          ifIdLatch := (s.ifIdLatch.poll p.now).2 } : RingPipeline numPorts B).Implements
          { q with
            idExLatch := p.idExLatch.add ⟨e.instruction, p.now + 1, time⟩
            ifIdLatch := p.ifIdLatch.poll p.now } :=
        ⟨rfl, hpoll, hlast, hexMem ▸ h.exMemLatch, hmemWb ▸ h.memWbLatch,
          hwritten ▸ h.writtenBack⟩
      rw [← hround, hengine]
      split
      · exact .stop himplements
      · exact .again himplements

theorem decodeRound_implements {r : Round (RingPipeline numPorts B)} (h : s.Implements p)
    (hr : s.decodeRound cfg = some r) :
    (∃ u, r = .stop u ∧ u.Ended) ∨ ∃ r', p.decodeRound cfg.toInorderConfig = some r' ∧
      RoundImplements r r' := by
  rw [decodeRound, h.now] at hr
  rw [InorderPipeline.decodeRound, ← h.ifIdLatch.isEmpty, ← h.idExLatch.isFull]
  split at hr
  case isTrue hstop =>
    cases hr
    rw [if_pos hstop]
    exact .inr ⟨_, rfl, .stop h⟩
  case isFalse hgo =>
    rw [if_neg hgo]
    rw [not_or, Bool.not_eq_true, Bool.not_eq_true, h.idExLatch.isFull] at hgo
    split at hr
    case h_1 hpeek =>
      cases hr
      rw [h.ifIdLatch.peek_none hpeek]
      exact .inr ⟨_, rfl, .stop h⟩
    case h_2 ins hpeek =>
      obtain ⟨e, hpeek', hins, -, hpoll⟩ := h.ifIdLatch.peek_some hpeek
      have hhazard : s.engine.checkDataHazard ins.toFetchedInstruction =
          p.checkDataHazard e.instruction := by
        rw [hins, h.engine]
        rfl
      have hrequest : s.engine.requestFU ins.operationType =
          p.requestFU e.instruction.operationType := by
        rw [← hins, h.engine]
        rfl
      rw [hpeek']
      dsimp only
      rw [hhazard, hrequest] at hr
      split at hr
      case isTrue hwaits =>
        cases hr
        rw [if_pos hwaits]
        exact .inr ⟨_, rfl, .stop h⟩
      case isFalse hready =>
        rw [if_neg hready]
        cases hcore : p.requestFU e.instruction.operationType with
        | none =>
          rw [hcore] at hr
          cases hr
        | some granted =>
          obtain ⟨FURequest, core⟩ := granted
          rw [hcore] at hr
          have hunits := h.of_engine (f := fun p => { p with core := core })
            (fun _ _ => rfl) rfl rfl rfl rfl rfl
          dsimp only at hr ⊢
          split at hr
          case isTrue hbusy =>
            cases hr
            rw [if_pos hbusy]
            exact .inr ⟨_, rfl, .stop hunits⟩
          case isFalse hfree =>
            rw [if_neg hfree]
            rcases decode_implements hunits hgo.2 hins hpoll hr with hexit | ⟨q, hq, hrel⟩
            · exact .inl hexit
            · exact .inr ⟨_, by rw [hq]; rfl, hrel⟩

theorem executeRound_implements {r : Round (RingPipeline numPorts B)} (h : s.Implements p)
    (hr : s.executeRound = some r) :
    (∃ u, r = .stop u ∧ u.Ended) ∨ ∃ r', p.executeRound = some r' ∧ RoundImplements r r' := by
  rw [executeRound, h.now] at hr
  rw [InorderPipeline.executeRound, ← h.idExLatch.isEmpty, ← h.exMemLatch.isFull]
  split at hr
  case isTrue hstop =>
    cases hr
    rw [if_pos hstop]
    exact .inr ⟨_, rfl, .stop h⟩
  case isFalse hgo =>
    rw [if_neg hgo]
    rw [not_or, Bool.not_eq_true, Bool.not_eq_true, h.exMemLatch.isFull] at hgo
    split at hr
    case h_1 hpeek =>
      cases hr
      rw [h.idExLatch.peek_none hpeek]
      exact .inr ⟨_, rfl, .stop h⟩
    case h_2 ins hpeek =>
      obtain ⟨e, hpeek', hins, htime, hpoll⟩ := h.idExLatch.peek_some hpeek
      obtain ⟨lat, hlat, hround⟩ := Option.map_eq_some_iff.mp hr
      have hlat' : p.executeLatency e.instruction.operationType = some lat := by
        rw [← hlat, ← hins, h.engine]
        rfl
      rw [hpeek']
      dsimp only
      rw [hlat']
      split at hround
      case isTrue => exact .inl ⟨_, hround.symm, rfl⟩
      case isFalse =>
        subst hround
        have hlast := h.exMemLatch.add
          (e := { e with instructionCompletesAt := e.instructionCompletesAt + lat }) hgo.2 hins
        dsimp only at hlast
        rw [htime] at hlast
        rw [htime]
        exact .inr ⟨_, rfl, .again ⟨h.engine, h.ifIdLatch, hpoll, hlast, h.memWbLatch,
          h.writtenBack⟩⟩

theorem moveToMemWb_implements {e : LatchEntry} (accepted : ℕ) (h : s.Implements p)
    (hroom : p.memWbLatch.isFull = false) (hins : ins.toFetchedInstruction = e.instruction)
    (hpoll : StageRing.Represents (·.toFetchedInstruction) (s.exMemLatch.poll p.now).2
      (p.exMemLatch.poll p.now)) :
    (∃ u, s.moveToMemWb ins accepted = .stop u ∧ u.1.Ended) ∨
      Round.Rel (fun a b : _ × ℕ => a.1.Implements b.1 ∧ a.2 = b.2) (s.moveToMemWb ins accepted)
        (.again (p.moveToMemWb e, accepted)) := by
  rw [moveToMemWb, h.now]
  split
  case isTrue => exact .inl ⟨_, rfl, rfl⟩
  case isFalse =>
    have hkind : ins.operationType = e.instruction.operationType :=
      congrArg (·.operationType) hins
    rw [hkind]
    obtain ⟨lat, hlat⟩ : ∃ lat : ℤ,
      lat = if e.instruction.operationType = .load then longMax - p.now else 1 := ⟨_, rfl⟩
    have hlast := h.memWbLatch.add
      (e := { e with instructionCompletesAt := p.now + lat }) hroom hins
    refine .inr (.again ⟨?_, rfl⟩)
    rw [InorderPipeline.moveToMemWb, ← hlat]
    exact ⟨h.engine, h.ifIdLatch, h.idExLatch, hpoll, hlast, h.writtenBack⟩

theorem memRound_implements {state : RingPipeline numPorts B × ℕ}
    {state' : InorderPipeline numPorts B × ℕ} {r : Round (RingPipeline numPorts B × ℕ)}
    (h : state.1.Implements state'.1) (haccepted : state.2 = state'.2)
    (hr : memRound state = some r) :
    (∃ u, r = .stop u ∧ u.1.Ended) ∨ ∃ r', InorderPipeline.memRound state' = some r' ∧
      Round.Rel (fun a b : _ × ℕ => a.1.Implements b.1 ∧ a.2 = b.2) r r' := by
  simp only [memRound, h.now] at hr
  simp only [InorderPipeline.memRound, ← h.exMemLatch.isEmpty, ← h.memWbLatch.isFull]
  split at hr
  case isTrue hstop =>
    cases hr
    rw [if_pos hstop]
    exact .inr ⟨_, rfl, .stop ⟨h, haccepted⟩⟩
  case isFalse hgo =>
    rw [if_neg hgo]
    rw [not_or, Bool.not_eq_true, Bool.not_eq_true, h.memWbLatch.isFull] at hgo
    split at hr
    case h_1 hpeek =>
      cases hr
      rw [h.exMemLatch.peek_none hpeek]
      exact .inr ⟨_, rfl, .stop ⟨h, haccepted⟩⟩
    case h_2 ins hpeek =>
      obtain ⟨e, hpeek', hins, -, hpoll⟩ := h.exMemLatch.peek_some hpeek
      have hkind : ins.operationType = e.instruction.operationType :=
        congrArg (·.operationType) hins
      have hmoved := fun accepted =>
        moveToMemWb_implements accepted h hgo.2 hins hpoll
      rw [hpeek']
      dsimp only
      rw [hkind, haccepted] at hr
      split at hr
      case isTrue hmemory =>
        rw [if_pos hmemory]
        cases hleft : state'.2 with
        | zero =>
          rw [hleft] at hr
          cases hr
          exact .inr ⟨_, rfl, .stop ⟨h, haccepted⟩⟩
        | succ accepted =>
          rw [hleft] at hr
          cases hr
          rcases hmoved accepted with hexit | hrel
          · exact .inl hexit
          · exact .inr ⟨_, rfl, hrel⟩
      case isFalse hplain =>
        cases hr
        rw [if_neg hplain]
        rcases hmoved state'.2 with hexit | hrel
        · exact .inl hexit
        · exact .inr ⟨_, rfl, hrel⟩

theorem writeBackRound_implements {r : Round (RingPipeline numPorts B)} (h : s.Implements p)
    (hr : s.writeBackRound = some r) :
    (∃ u, r = .stop u ∧ u.Ended) ∨ ∃ r', p.writeBackRound = some r' ∧ RoundImplements r r' := by
  rw [writeBackRound, h.now] at hr
  rw [InorderPipeline.writeBackRound]
  split at hr
  case isTrue hempty =>
    cases hr
    have hnone : s.memWbLatch.peek p.now 0 = none := by
      rw [StageRing.peek, if_pos (by simpa [StageRing.isEmpty] using hempty)]
    rw [h.memWbLatch.peek_none hnone]
    exact .inr ⟨_, rfl, .stop h⟩
  case isFalse =>
    split at hr
    case h_1 hpeek =>
      cases hr
      rw [h.memWbLatch.peek_none hpeek]
      exact .inr ⟨_, rfl, .stop h⟩
    case h_2 ins hpeek =>
      obtain ⟨e, hpeek', hins, -, hpoll⟩ := h.memWbLatch.peek_some hpeek
      rw [hpeek']
      split at hr
      case isTrue =>
        cases hr
        exact .inl ⟨_, rfl, rfl⟩
      case isFalse =>
        cases hr
        refine .inr ⟨_, rfl, .again ⟨h.engine, h.ifIdLatch, h.idExLatch, h.exMemLatch, hpoll, ?_⟩⟩
        rw [List.map_append, List.map_append, h.writtenBack, List.map_singleton,
          List.map_singleton, hins]

/-! ### An answer of the memory system -/

/-- A load of the address in a slot that is not complete, and a register that it writes. -/
def Answered (latch : StageRing NumberedInstruction) (address now : ℤ) (r : RegisterType × ℕ)
    (i : ℕ) : Prop :=
  ∃ ins, latch.instructions i = some ins ∧ ins.awaitsAddress address = true ∧
    latch.instructionCompletesAt i > now ∧ r ∈ ins.destinations

/-- The loads in the slots that wait for the address record the present for their registers. -/
theorem foldl_slots (latch : StageRing NumberedInstruction) (address now : ℤ) (slots : List ℕ) :
    ∀ engine : InorderPipeline numPorts B, ∃ valueReady,
      slots.foldl (completeSlot latch address now) engine =
        { engine with valueReady := valueReady } ∧
      ∀ r, valueReady r = now ∧ (∃ i ∈ slots, Answered latch address now r i) ∨
        valueReady r = engine.valueReady r ∧ ¬ ∃ i ∈ slots, Answered latch address now r i := by
  induction slots with
  | nil =>
    intro engine
    exact ⟨engine.valueReady, rfl, fun r => .inr ⟨rfl, by simp⟩⟩
  | cons i rest ih =>
    intro engine
    rw [List.foldl_cons]
    by_cases hwaits : ∃ ins, latch.instructions i = some ins ∧
        ins.awaitsAddress address = true ∧ latch.instructionCompletesAt i > now
    · obtain ⟨ins, hins, hawaits, htime⟩ := hwaits
      have hload : ins.operationType = .load := (of_decide_eq_true hawaits).1
      have hxchg : ins.operationType ≠ .xchg := by
        rw [hload]
        decide
      have hready := engine.addToValueReadyArray_valueReady
        (show ins.toFetchedInstruction.operationType ≠ .xchg from hxchg) now
      obtain ⟨w, hw⟩ := engine.addToValueReadyArray_eq ins.destinationOperand now
      have hslot : completeSlot latch address now engine i =
          engine.addToValueReadyArray ins.destinationOperand now := by
        simp only [completeSlot, hins, hawaits, htime, and_self, if_true]
      rw [hslot]
      obtain ⟨v, hv, hr⟩ := ih (engine.addToValueReadyArray ins.destinationOperand now)
      refine ⟨v, by rw [hv, hw], fun r => ?_⟩
      rcases hr r with ⟨hnow, j, hj, hanswered⟩ | ⟨hold, hnone⟩
      · exact .inl ⟨hnow, j, List.mem_cons_of_mem _ hj, hanswered⟩
      · rw [hready r] at hold
        by_cases hmem : r ∈ ins.destinations
        · rw [if_pos hmem] at hold
          exact .inl ⟨hold, i, List.mem_cons_self, ins, hins, hawaits, htime, hmem⟩
        · rw [if_neg hmem] at hold
          refine .inr ⟨hold, ?_⟩
          rintro ⟨j, hj, found, hfound, hrest⟩
          rcases List.mem_cons.mp hj with rfl | hj
          · rw [hins] at hfound
            obtain rfl := Option.some.inj hfound
            exact hmem hrest.2.2
          · exact hnone ⟨j, hj, found, hfound, hrest⟩
    · have hslot : completeSlot latch address now engine i = engine := by
        rw [completeSlot]
        split
        case h_1 ins hins => rw [if_neg fun hboth => hwaits ⟨ins, hins, hboth⟩]
        case h_2 => rfl
      rw [hslot]
      obtain ⟨v, hv, hr⟩ := ih engine
      refine ⟨v, hv, fun r => ?_⟩
      rcases hr r with ⟨hnow, j, hj, hanswered⟩ | ⟨hold, hnone⟩
      · exact .inl ⟨hnow, j, List.mem_cons_of_mem _ hj, hanswered⟩
      · refine .inr ⟨hold, ?_⟩
        rintro ⟨j, hj, hanswered⟩
        rcases List.mem_cons.mp hj with rfl | hj
        · obtain ⟨ins, hins, hawaits, htime, -⟩ := hanswered
          exact hwaits ⟨ins, hins, hawaits, htime⟩
        · exact hnone ⟨j, hj, hanswered⟩

/-- The ring and the list hold the same waiting loads. -/
theorem Implements.answered_iff (h : s.Implements p) (address : ℤ) (r : RegisterType × ℕ) :
    (∃ i ∈ List.range s.memWbLatch.size, Answered s.memWbLatch address p.now r i) ↔
      ∃ e ∈ p.memWbLatch.entries, p.AwaitsAddress address e = true ∧
        r ∈ e.instruction.destinations := by
  have hentries := h.memWbLatch.entries
  constructor
  · rintro ⟨i, hi, ins, hins, hawaits, htime, hmem⟩
    have hentry := h.memWbLatch.sound.mem_entries_iff.mpr
      ⟨i, List.mem_range.mp hi, hins, rfl⟩
    have hmapped := List.mem_map_of_mem
      (f := fun e : NumberedInstruction × ℤ => (e.1.toFetchedInstruction, e.2)) hentry
    rw [hentries] at hmapped
    obtain ⟨e, he, hpair⟩ := List.mem_map.mp hmapped
    obtain ⟨hinstruction, hcompletes⟩ := Prod.mk.inj hpair
    refine ⟨e, he, ?_, hinstruction ▸ hmem⟩
    rw [NumberedInstruction.awaitsAddress, decide_eq_true_eq] at hawaits
    rw [InorderPipeline.AwaitsAddress, decide_eq_true_eq, hinstruction, hcompletes]
    exact ⟨hawaits.1, hawaits.2, htime⟩
  · rintro ⟨e, he, hawaits, hmem⟩
    have hmapped := List.mem_map_of_mem
      (f := fun e : LatchEntry => (e.instruction, e.instructionCompletesAt)) he
    rw [← hentries] at hmapped
    obtain ⟨⟨ins, time⟩, hentry, hpair⟩ := List.mem_map.mp hmapped
    obtain ⟨hinstruction, hcompletes⟩ := Prod.mk.inj hpair
    obtain ⟨i, hi, hins, htime⟩ := h.memWbLatch.sound.mem_entries_iff.mp hentry
    rw [InorderPipeline.AwaitsAddress, decide_eq_true_eq, ← hinstruction, ← hcompletes] at hawaits
    refine ⟨i, List.mem_range.mpr hi, ins, hins, ?_, htime ▸ hawaits.2.2, hinstruction ▸ hmem⟩
    rw [NumberedInstruction.awaitsAddress, decide_eq_true_eq]
    exact ⟨hawaits.1, hawaits.2.1⟩

theorem updateInstructionCompletions_implements (h : s.Implements p) (address : ℤ) :
    (s.updateInstructionCompletions address).Implements
      (p.updateInstructionCompletions address) := by
  obtain ⟨v, hv⟩ := p.updateInstructionCompletions_eq address
  have hvr := fun r => p.updateInstructionCompletions_valueReady address r
  obtain ⟨w, hw, hwr⟩ := foldl_slots s.memWbLatch address p.now
    (List.range s.memWbLatch.size) s.engine
  obtain ⟨hsound, hentries⟩ := h.memWbLatch.sound.complete
    (NumberedInstruction.awaitsAddress address) p.now
  have hready : w = v := by
    funext r
    have hlist := hvr r
    rw [hv] at hlist
    dsimp only at hlist
    rcases hwr r with ⟨hnow, hanswered⟩ | ⟨hold, hnone⟩
    · rw [hnow, hlist, if_pos ((h.answered_iff address r).mp hanswered)]
    · rw [hold, hlist, if_neg fun hanswered => hnone ((h.answered_iff address r).mpr hanswered),
        h.engine]
      rfl
  rw [updateInstructionCompletions, h.now, hw, hv, hready]
  refine ⟨?_, h.ifIdLatch, h.idExLatch, h.exMemLatch, ⟨hsound, h.memWbLatch.size, ?_⟩,
    h.writtenBack⟩
  · dsimp only
    rw [h.engine]
    rfl
  · have hlist := h.memWbLatch.entries
    rw [hentries, List.map_map, List.map_map]
    have hcompleted : ∀ e : NumberedInstruction × ℤ, ∀ f : LatchEntry,
        (e.1.toFetchedInstruction, e.2) = (f.instruction, f.instructionCompletesAt) →
        (fun e : NumberedInstruction × ℤ => (e.1.toFetchedInstruction, e.2))
          (if e.1.awaitsAddress address ∧ e.2 > p.now then (e.1, p.now) else e) =
        ((p.completed address f).instruction, (p.completed address f).instructionCompletesAt) := by
      rintro ⟨ins, time⟩ f hpair
      obtain ⟨hinstruction, hcompletes⟩ := Prod.mk.inj hpair
      have hiff : (ins.awaitsAddress address = true ∧ time > p.now) ↔
          p.AwaitsAddress address f = true := by
        rw [InorderPipeline.AwaitsAddress, decide_eq_true_eq, ← hinstruction, ← hcompletes,
          NumberedInstruction.awaitsAddress, decide_eq_true_eq, and_assoc]
      rw [InorderPipeline.completed]
      dsimp only
      by_cases hawaits : p.AwaitsAddress address f = true
      · rw [if_pos (hiff.mpr hawaits), if_pos hawaits]
        exact Prod.mk.injEq _ _ _ _ ▸ ⟨hinstruction, rfl⟩
      · rw [if_neg fun hboth => hawaits (hiff.mp hboth), if_neg hawaits]
        exact hpair
    generalize s.memWbLatch.entries = xs at hlist
    generalize p.memWbLatch.entries = ys at hlist
    induction xs generalizing ys with
    | nil =>
      cases ys with
      | nil => rfl
      | cons f ys => cases hlist
    | cons e xs ih =>
      cases ys with
      | nil => cases hlist
      | cons f ys =>
        obtain ⟨hfirst, hrest⟩ := List.cons.inj hlist
        rw [List.map_cons, List.map_cons, ih ys hrest]
        congr 1
        exact hcompleted e f hfirst

/-! ### Runs -/

theorem performFetch_implements {crosses : Bool} {rounds : ℕ} (h : s.Implements p)
    (hflows : Flows cfg s) (ht : s.performFetch cfg crosses rounds = some t) :
    ∃ delivered q, p.performFetch delivered = some q ∧ t.Implements q := by
  have hsame := h.mispredStall
  rw [performFetch] at ht
  split at ht
  case isTrue hstall =>
    rw [hsame] at hstall
    cases ht
    refine ⟨[], { p with mispredStall := p.mispredStall - 1 }, ?_, ?_⟩
    · rw [InorderPipeline.performFetch, if_pos hstall]
    · exact h.of_engine (f := fun p => { p with mispredStall := p.mispredStall - 1 })
        (fun _ _ => rfl) rfl rfl rfl rfl rfl
  case isFalse hgo =>
    rw [hsame] at hgo
    obtain ⟨⟨unit, latch⟩, hfetch, rfl⟩ := Option.map_eq_some_iff.mp ht
    rw [h.now] at hfetch
    obtain ⟨-, hlatch, hsize, -, moved, -, hentries⟩ :=
      FetchUnit.performFetch_delivers hflows.fetchUnit hflows.ifIdLatch.sound hfetch
    obtain ⟨delivered, hdelivered⟩ : ∃ delivered : List FetchedInstruction, delivered =
        (moved.filter fun ins => !ins.isSync).map (·.toFetchedInstruction) := ⟨_, rfl⟩
    have hroom : p.ifIdLatch.entries.length + delivered.length ≤ p.ifIdLatch.size := by
      have hle := hlatch.length_held_le
      rw [StageRing.held, List.length_map, hentries, List.length_append, List.length_map,
        h.ifIdLatch.length_eq, hsize, h.ifIdLatch.size] at hle
      rw [hdelivered, List.length_map]
      exact hle
    have hq := InorderPipeline.performFetch.eq_1 p delivered
    rw [if_neg hgo, if_pos hroom] at hq
    refine ⟨delivered, _, hq, h.engine, ⟨hlatch, hsize.trans h.ifIdLatch.size, ?_⟩, h.idExLatch,
      h.exMemLatch, h.memWbLatch, h.writtenBack⟩
    rw [hentries, List.map_append, h.ifIdLatch.entries, hdelivered]
    simp [Function.comp_def]

/-- A stage that is a loop. -/
theorem loop_implements
    {body : RingPipeline numPorts B → Option (Round (RingPipeline numPorts B))}
    {body' : InorderPipeline numPorts B → Option (Round (InorderPipeline numPorts B))}
    {rounds : ℕ}
    (hround : ∀ s p r, Implements s p → body s = some r →
      (∃ u, r = .stop u ∧ u.Ended) ∨ ∃ r', body' p = some r' ∧ RoundImplements r r')
    (h : s.Implements p) (ht : loop body rounds s = some t) (hgoes : ¬ t.Ended) :
    ∃ q, loop body' rounds p = some q ∧ t.Implements q :=
  loop_simulates hround h ht hgoes

/-- What the rings do at a label, the lists do at one label or at none. -/
theorem next_implements {label : RingLabel} (h : s.Implements p) (hflows : Flows cfg s)
    (ht : next cfg s label = some t) (hgoes : ¬ t.Ended) :
    t.Implements p ∨ ∃ label' q, InorderPipeline.next cfg.toInorderConfig p label' = some q ∧
      t.Implements q := by
  rw [next.eq_def] at ht
  split at ht
  case isTrue => cases ht
  cases label with
  | append instructions =>
    cases ht
    exact .inl ⟨h.engine, h.ifIdLatch, h.idExLatch, h.exMemLatch, h.memWbLatch, h.writtenBack⟩
  | instrCacheAnswer address =>
    cases ht
    exact .inl ⟨h.engine, h.ifIdLatch, h.idExLatch, h.exMemLatch, h.memWbLatch, h.writtenBack⟩
  | resumePipeline =>
    cases ht
    exact .inl ⟨h.engine, h.ifIdLatch, h.idExLatch, h.exMemLatch, h.memWbLatch, h.writtenBack⟩
  | tick =>
    cases ht
    exact .inr ⟨.tick, _, rfl, h.of_engine (f := fun p => { p with now := p.now + 1 })
      (fun _ _ => rfl) rfl rfl rfl rfl rfl⟩
  | l1CacheAnswer address =>
    cases ht
    exact .inr ⟨.processCompletionOfMemRequest address, _, rfl,
      updateInstructionCompletions_implements h address⟩
  | fetch crosses rounds =>
    obtain ⟨delivered, q, hq, himplements⟩ := performFetch_implements h hflows ht
    exact .inr ⟨.fetch delivered, q, hq, himplements⟩
  | writeback =>
    dsimp only at ht
    rw [performWriteBack, h.mispredStall, ← h.memWbLatch.sound.length_entries,
      h.memWbLatch.length_eq] at ht
    refine .inr ⟨.writeback, ?_⟩
    rw [InorderPipeline.next, InorderPipeline.performWriteBack]
    split at ht
    case isTrue hstall =>
      cases ht
      exact ⟨p, if_pos hstall, h⟩
    case isFalse hgo =>
      rw [if_neg hgo]
      exact loop_implements (fun _ _ _ => writeBackRound_implements) h ht hgoes
  | exec =>
    dsimp only at ht
    rw [execute, h.mispredStall, ← h.idExLatch.sound.length_entries,
      h.idExLatch.length_eq] at ht
    refine .inr ⟨.exec, ?_⟩
    rw [InorderPipeline.next, InorderPipeline.execute]
    split at ht
    case isTrue hstall =>
      cases ht
      exact ⟨p, if_pos hstall, h⟩
    case isFalse hgo =>
      rw [if_neg hgo]
      exact loop_implements (fun _ _ _ => executeRound_implements) h ht hgoes
  | decode =>
    dsimp only at ht
    rw [performDecode, h.mispredStall, ← h.ifIdLatch.sound.length_entries,
      h.ifIdLatch.length_eq] at ht
    refine .inr ⟨.decode, ?_⟩
    rw [InorderPipeline.next, InorderPipeline.performDecode]
    split at ht
    case isTrue hstall =>
      cases ht
      exact ⟨p, if_pos hstall, h⟩
    case isFalse hgo =>
      rw [if_neg hgo]
      have hcleared := h.of_engine (f := fun p => { p with core := p.core.clearPortUsage })
        (fun _ _ => rfl) rfl rfl rfl rfl rfl
      exact loop_implements (fun _ _ _ => decodeRound_implements) hcleared ht hgoes
  | mem accepted =>
    dsimp only at ht
    rw [performMemEvent, h.mispredStall, ← h.exMemLatch.sound.length_entries,
      h.exMemLatch.length_eq] at ht
    refine .inr ⟨.mem accepted, ?_⟩
    rw [InorderPipeline.next, InorderPipeline.performMemEvent]
    split at ht
    case isTrue hstall =>
      cases ht
      exact ⟨p, if_pos hstall, h⟩
    case isFalse hgo =>
      rw [if_neg hgo]
      obtain ⟨state, hloop, rfl⟩ := Option.map_eq_some_iff.mp ht
      obtain ⟨state', hloop', himplements, -⟩ := loop_simulates
        (R := fun a b : _ × ℕ => a.1.Implements b.1 ∧ a.2 = b.2) (p := (p, accepted))
        (fun _ _ _ hstate => memRound_implements hstate.1 hstate.2) ⟨h, rfl⟩ hloop hgoes
      exact ⟨state'.1, by rw [hloop']; rfl, himplements⟩

/-- Every run of the rings that has not ended is a run of the lists. -/
theorem refines_lists (cfg : RingConfig B) (hcap : 0 < cfg.fetchBufferCapacity)
    (core : ExecutionCore numPorts) (predictor : B) {labels : List RingLabel}
    (run : Run (StepOf (next cfg)) (start cfg core predictor) labels s)
    (hgoes : s.exited = none) :
    ∃ labels' p, Run (StepOf (InorderPipeline.next cfg.toInorderConfig))
      (InorderPipeline.start cfg.toInorderConfig core predictor) labels' p ∧ s.Implements p := by
  induction run with
  | nil => exact ⟨[], _, .nil, implements_start cfg core predictor⟩
  | snoc prior last ih =>
    rename_i labels s t label
    have hbefore : s.exited = none := by
      have hnext : next cfg s label = some t := last
      rw [next.eq_def] at hnext
      split at hnext
      case isTrue => cases hnext
      case isFalse hrunning => exact Option.not_isSome_iff_eq_none.mp hrunning
    obtain ⟨labels', p, run', himplements⟩ := ih hbefore
    have hended : ¬ t.Ended := by
      rw [Ended, hgoes]
      exact Bool.false_ne_true
    rcases next_implements himplements (run_flows hcap prior).1 last hended with
      hsame | ⟨label', q, hnext, hq⟩
    · exact ⟨labels', p, run', hsame⟩
    · exact ⟨labels' ++ [label'], q, .snoc run' hnext, hq⟩

/-- An instruction and the end of its stream go all the way. -/
def oneStream : List RingLabel :=
  [.append [nopAt 64, endOfStream], .fetch true 4, .instrCacheAnswer 64, .fetch true 4, .tick,
    .decode, .tick, .exec, .tick, .mem 0, .tick, .writeback]

theorem oneStream_refines_lists : ∃ s labels p,
    Run (StepOf (next twoWideRings)) (start twoWideRings (.new 1 IssueState.defaultUnits) ())
      oneStream s ∧ s.writtenBack.length = 2 ∧
    Run (StepOf (InorderPipeline.next twoWideRings.toInorderConfig))
      (.start twoWideRings.toInorderConfig (.new 1 IssueState.defaultUnits) ()) labels p ∧
    s.Implements p := by
  have hexec : (exec (next twoWideRings)
      (start twoWideRings (.new 1 IssueState.defaultUnits) ()) oneStream).any
        (fun s => s.exited = none ∧ s.writtenBack.length = 2) = true := by
    decide +kernel
  obtain ⟨s, hs, hfinal⟩ := (Option.any_eq_true _ _).mp hexec
  obtain ⟨hexited, hwritten⟩ := of_decide_eq_true hfinal
  have run := run_of_exec hs
  obtain ⟨labels, p, run', himplements⟩ :=
    refines_lists twoWideRings (by decide) _ () run hexited
  exact ⟨s, labels, p, run, hwritten, run', himplements⟩

end RingPipeline

end Tejas
