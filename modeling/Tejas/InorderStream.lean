import Tejas.InorderRings

/-!
# The stream of instructions through the in-order pipeline

Between the input and the write-back no instruction is lost, doubled or overtaken. The numbers
of the instructions agree with the counters of the stages, unless an instruction follows the
end of a stream; decode refuses such an instruction, so the later stages never see one.
-/

namespace Tejas

namespace StageRing

variable {α : Type} {r : StageRing α} {ins : α} {now t : ℤ}

/-- The instructions in a latch, from its head on. -/
def held (r : StageRing α) : List α := r.entries.map Prod.fst

@[simp] theorem held_new (n : ℕ) : (new n : StageRing α).held = [] := by simp [held]

namespace Sound

theorem length_held (h : r.Sound) : r.held.length = r.curSize := by
  rw [held, List.length_map, h.length_entries]

theorem length_held_le (h : r.Sound) : r.held.length ≤ r.size := by
  rw [h.length_held, h.curSize]
  exact h.indices.size_le

theorem held_add (h : r.Sound) (ins : α) (t : ℤ) (hroom : r.isFull = false) :
    (r.add ins t).Sound ∧ (r.add ins t).held = r.held ++ [ins] := by
  have hlt : r.curSize < r.size := by
    simpa [isFull] using hroom
  obtain ⟨hsound, hentries⟩ := h.add ins t hlt
  exact ⟨hsound, by rw [held, hentries, List.map_append]; rfl⟩

theorem held_poll (h : r.Sound) (hpeek : r.peek now 0 = some ins) :
    (r.poll now).2.Sound ∧ (r.poll now).2.size = r.size ∧ r.held = ins :: (r.poll now).2.held := by
  obtain ⟨rest, -, hentries, -, hsound, hrest, hsize⟩ := h.poll_of_peek hpeek
  exact ⟨hsound, hsize, by rw [held, hentries, held, hrest]; rfl⟩

theorem held_complete (h : r.Sound) (awaits : α → Bool) (now : ℤ) :
    (r.complete awaits now).Sound ∧ (r.complete awaits now).held = r.held := by
  obtain ⟨hsound, hentries⟩ := h.complete awaits now
  refine ⟨hsound, ?_⟩
  rw [held, hentries, held, List.map_map]
  refine List.map_congr_left fun e _ => ?_
  simp only [Function.comp_apply]
  split_ifs <;> rfl

end Sound

end StageRing

namespace RingPipeline
open LabelledRuns BoundedLoop FetchUnit

variable {numPorts : ℕ} {B : Type} {cfg : RingConfig B} {s t : RingPipeline numPorts B}
  {ins : NumberedInstruction}

/-- What went through the memory stage, through execute and through decode, the oldest first. -/
def accessed (s : RingPipeline numPorts B) : List NumberedInstruction :=
  s.writtenBack ++ s.memWbLatch.held

def executed (s : RingPipeline numPorts B) : List NumberedInstruction :=
  s.accessed ++ s.exMemLatch.held

def decoded (s : RingPipeline numPorts B) : List NumberedInstruction :=
  s.executed ++ s.idExLatch.held

/-- A latch of the pipeline. -/
structure Fits (cfg : RingConfig B) (latch : StageRing NumberedInstruction) : Prop where
  sound : latch.Sound
  size : latch.size = cfg.issueWidth

/-- Decode stopped at an instruction behind the end of a stream. -/
structure DecodeExit (s : RingPipeline numPorts B) : Prop where
  exited : s.exited = some "decode out of order!!"
  head : ∃ ins rest, s.ifIdLatch.held = ins :: rest ∧ ins.isInValid = false
  older : ∃ a ∈ s.decoded, a.isInValid = true

/-- The latches hold the stream that left the fetch buffer, the counters are the lengths of its
parts, and behind the end of a stream nothing else was decoded. -/
structure Flows (cfg : RingConfig B) (s : RingPipeline numPorts B) : Prop where
  fetchUnit : s.fetchUnit.Sound cfg.toFetchBufferConfig
  ifIdLatch : Fits cfg s.ifIdLatch
  idExLatch : Fits cfg s.idExLatch
  exMemLatch : Fits cfg s.exMemLatch
  memWbLatch : Fits cfg s.memWbLatch
  stream : (s.fetchUnit.passed.filter fun ins => !ins.isSync) = s.decoded ++ s.ifIdLatch.held
  decodeCtr : s.decodeCtr = s.decoded.length
  execCtr : s.execCtr = s.executed.length
  memCtr : s.memCtr = s.accessed.length
  wbCtr : s.wbCtr = s.writtenBack.length
  ended : s.decoded.Pairwise fun a b => a.isInValid = true → b.isInValid = true
  exited : s.exited = none ∨ s.DecodeExit

theorem fits_new (cfg : RingConfig B) : Fits cfg (.new cfg.issueWidth) :=
  ⟨StageRing.sound_new _, rfl⟩

theorem flows_start (hcap : 0 < cfg.fetchBufferCapacity) (core : ExecutionCore numPorts)
    (predictor : B) : Flows cfg (start cfg core predictor) := by
  have hnone : (start cfg core predictor).decoded = [] := by
    simp [decoded, executed, accessed, start]
  refine ⟨sound_start hcap, fits_new cfg, fits_new cfg, fits_new cfg, fits_new cfg, ?_, ?_, ?_,
    ?_, rfl, ?_, .inl rfl⟩
  · rw [hnone]
    simp [start, FetchUnit.start]
  · rw [hnone]
    rfl
  · simp [executed, accessed, start]
  · simp [accessed, start]
  · rw [hnone]
    exact List.Pairwise.nil

namespace Flows

/-- The number of an instruction is how many valid ones are before it. -/
theorem serialNo (h : Flows cfg s) {before : List NumberedInstruction}
    (after : List NumberedInstruction)
    (hsplit : s.decoded ++ s.ifIdLatch.held = before ++ ins :: after)
    (hvalid : ins.isInValid = false) :
    ins.serialNo = before.countP fun ins => !ins.isInValid := by
  have hstream : ((numbered cfg.toFetchBufferConfig 0 s.fetchUnit.taken).filter
      fun ins => !ins.isSync) = before ++ ins :: (after ++
        (s.fetchUnit.contents cfg.toFetchBufferConfig).filter fun ins => !ins.isSync) := by
    rw [h.fetchUnit.stream, List.filter_append, h.stream, hsplit, List.append_assoc,
      List.cons_append]
  rw [serialNo_of_numbered hstream hvalid, Nat.zero_add]

/-- An instruction that was decoded passes the checks of the later stages. -/
theorem inOrder (h : Flows cfg s) {before : List NumberedInstruction}
    (after : List NumberedInstruction)
    (hsplit : s.decoded = before ++ ins :: after) : ins.isOutOfOrder before.length = false := by
  cases hend : ins.isInValid with
  | true =>
    rw [NumberedInstruction.isInValid, decide_eq_true_eq] at hend
    simp [NumberedInstruction.isOutOfOrder, hend]
  | false =>
    have hstream : s.decoded ++ s.ifIdLatch.held =
        before ++ ins :: (after ++ s.ifIdLatch.held) := by
      rw [hsplit, List.append_assoc, List.cons_append]
    have hserial := h.serialNo _ hstream hend
    have hordered := h.ended
    rw [hsplit, List.pairwise_append] at hordered
    have hall : before.countP (fun ins => !ins.isInValid) = before.length := by
      rw [List.countP_eq_length]
      intro a ha
      cases haend : a.isInValid with
      | true =>
        have hins := hordered.2.2 a ha ins List.mem_cons_self haend
        rw [hend] at hins
        cases hins
      | false => rfl
    simp [NumberedInstruction.isOutOfOrder, hserial, hall]

/-- Decode ends the simulation exactly at a valid instruction behind the end of a stream. -/
theorem outOfOrder_iff (h : Flows cfg s) {rest : List NumberedInstruction}
    (hhead : s.ifIdLatch.held = ins :: rest) : ins.isOutOfOrder s.decodeCtr = true ↔
      ins.isInValid = false ∧ ∃ a ∈ s.decoded, a.isInValid = true := by
  cases hend : ins.isInValid with
  | true =>
    rw [NumberedInstruction.isInValid, decide_eq_true_eq] at hend
    simp [NumberedInstruction.isOutOfOrder, hend]
  | false =>
    have hserial := h.serialNo rest (by rw [hhead]) hend
    have hall := List.countP_eq_length (p := fun ins : NumberedInstruction => !ins.isInValid)
      (l := s.decoded)
    rw [← hserial, ← h.decodeCtr] at hall
    rw [NumberedInstruction.isInValid, decide_eq_false_iff_not] at hend
    rw [NumberedInstruction.isOutOfOrder, decide_eq_true_eq, Ne, hall]
    simp [hend]

/-- Instructions that move on stay in their order. -/
theorem moved (h : Flows cfg s) (hfetchUnit : t.fetchUnit = s.fetchUnit)
    (hifId : t.ifIdLatch = s.ifIdLatch) (hidEx : Fits cfg t.idExLatch)
    (hexMem : Fits cfg t.exMemLatch) (hmemWb : Fits cfg t.memWbLatch)
    (hdecoded : t.decoded = s.decoded) (hdecodeCtr : t.decodeCtr = s.decodeCtr)
    (hexecCtr : t.execCtr = t.executed.length) (hmemCtr : t.memCtr = t.accessed.length)
    (hwbCtr : t.wbCtr = t.writtenBack.length) (hexited : t.exited = s.exited) : Flows cfg t := by
  refine ⟨hfetchUnit ▸ h.fetchUnit, hifId ▸ h.ifIdLatch, hidEx, hexMem, hmemWb, ?_, ?_, hexecCtr,
    hmemCtr, hwbCtr, hdecoded ▸ h.ended, ?_⟩
  · rw [hfetchUnit, hdecoded, hifId]
    exact h.stream
  · rw [hdecodeCtr, hdecoded]
    exact h.decodeCtr
  · rw [hexited]
    rcases h.exited with hnone | ⟨hexit, hhead, holder⟩
    · exact .inl hnone
    · exact .inr ⟨hexited.trans hexit, hifId ▸ hhead, hdecoded ▸ holder⟩

/-- The units, the ready times and the clock are no part of the stream. -/
theorem of_engine (h : Flows cfg s) (engine : InorderPipeline numPorts B) :
    Flows cfg { s with engine := engine } :=
  h.moved rfl rfl h.idExLatch h.exMemLatch h.memWbLatch rfl rfl h.execCtr h.memCtr h.wbCtr rfl

end Flows

/-! ### The stages -/

/-- The stream goes on, and the fetch unit has no part in it. -/
structure Keeps (cfg : RingConfig B) (s t : RingPipeline numPorts B) : Prop where
  flows : Flows cfg t
  fetchUnit : t.fetchUnit = s.fetchUnit

theorem decode_flows {r : Round (RingPipeline numPorts B)} (h : Flows cfg s)
    (hroom : s.idExLatch.isFull = false) (hpeek : s.ifIdLatch.peek s.now 0 = some ins)
    (hr : s.decode cfg ins = some r) : Keeps cfg s r.state := by
  obtain ⟨time, -, hround⟩ := Option.map_eq_some_iff.mp hr
  obtain ⟨hpolled, hsize, hheld⟩ := h.ifIdLatch.sound.held_poll hpeek
  obtain ⟨hadded, hlast⟩ := h.idExLatch.sound.held_add ins (s.now + 1) hroom
  have hexit := h.outOfOrder_iff hheld
  dsimp only at hround
  by_cases hout : ins.isOutOfOrder s.decodeCtr = true
  · rw [if_pos hout] at hround
    subst hround
    obtain ⟨hvalid, holder⟩ := hexit.mp hout
    exact ⟨⟨h.fetchUnit, h.ifIdLatch, h.idExLatch, h.exMemLatch, h.memWbLatch, h.stream,
      h.decodeCtr, h.execCtr, h.memCtr, h.wbCtr, h.ended,
      .inr ⟨rfl, ⟨ins, _, hheld, hvalid⟩, holder⟩⟩, rfl⟩
  · rw [if_neg hout] at hround
    obtain ⟨t, ht⟩ : ∃ t : RingPipeline numPorts B, t = r.state := ⟨_, rfl⟩
    have hstate : t = { s with
        engine := t.engine
        decodeCtr := s.decodeCtr + 1
        idExLatch := s.idExLatch.add ins (s.now + 1)
        ifIdLatch := (s.ifIdLatch.poll s.now).2 } := by
      rw [ht, ← hround]
      split <;> rfl
    have hdecoded : t.decoded = s.decoded ++ [ins] := by
      rw [hstate]
      simp only [decoded, executed, accessed, hlast, List.append_assoc]
    have hfields : t.fetchUnit = s.fetchUnit ∧ t.ifIdLatch = (s.ifIdLatch.poll s.now).2 ∧
        t.idExLatch = s.idExLatch.add ins (s.now + 1) ∧ t.exMemLatch = s.exMemLatch ∧
        t.memWbLatch = s.memWbLatch ∧ t.decodeCtr = s.decodeCtr + 1 ∧ t.execCtr = s.execCtr ∧
        t.executed = s.executed ∧ t.memCtr = s.memCtr ∧ t.accessed = s.accessed ∧
        t.wbCtr = s.wbCtr ∧ t.writtenBack = s.writtenBack ∧ t.exited = s.exited := by
      rw [hstate]
      exact ⟨rfl, rfl, rfl, rfl, rfl, rfl, rfl, rfl, rfl, rfl, rfl, rfl, rfl⟩
    obtain ⟨hunit, hifId, hidEx, hexMem, hmemWb, hdctr, hectr, hexec, hmctr, hacc, hwctr, hwb,
      hex⟩ := hfields
    rw [← ht]
    refine ⟨⟨hunit ▸ h.fetchUnit, hifId ▸ ⟨hpolled, hsize.trans h.ifIdLatch.size⟩,
      hidEx ▸ ⟨hadded, h.idExLatch.size⟩, hexMem ▸ h.exMemLatch, hmemWb ▸ h.memWbLatch, ?_, ?_,
      by rw [hectr, hexec, h.execCtr], by rw [hmctr, hacc, h.memCtr],
      by rw [hwctr, hwb, h.wbCtr], ?_, ?_⟩, hunit⟩
    · rw [hunit, hdecoded, hifId, h.stream, hheld, List.append_assoc, List.singleton_append]
    · rw [hdctr, hdecoded, List.length_append, h.decodeCtr]
      rfl
    · rw [hdecoded, List.pairwise_append]
      refine ⟨h.ended, List.pairwise_singleton _ _, fun a ha b hb haend => ?_⟩
      obtain rfl := List.mem_singleton.mp hb
      by_contra hvalid
      exact hout (hexit.mpr ⟨Bool.not_eq_true _ ▸ hvalid, a, ha, haend⟩)
    · rcases h.exited with hnone | ⟨-, ⟨first, rest, hfirst, hvalid⟩, holder⟩
      · exact .inl (hex.trans hnone)
      · rw [hheld] at hfirst
        obtain ⟨rfl, -⟩ := List.cons.inj hfirst
        exact absurd (hexit.mpr ⟨hvalid, holder⟩) hout

theorem decodeRound_flows {r : Round (RingPipeline numPorts B)} (h : Flows cfg s)
    (hr : s.decodeRound cfg = some r) : Keeps cfg s r.state := by
  rw [decodeRound] at hr
  split at hr
  case isTrue =>
    cases hr
    exact ⟨h, rfl⟩
  case isFalse hgo =>
    rw [not_or, Bool.not_eq_true, Bool.not_eq_true] at hgo
    split at hr
    case h_1 =>
      cases hr
      exact ⟨h, rfl⟩
    case h_2 ins hpeek =>
      split at hr
      case isTrue =>
        cases hr
        exact ⟨h, rfl⟩
      case isFalse =>
        split at hr
        case h_1 => cases hr
        case h_2 FURequest core _ =>
          dsimp only at hr
          split at hr
          case isTrue =>
            cases hr
            exact ⟨h.of_engine _, rfl⟩
          case isFalse =>
            obtain ⟨hflows, hunit⟩ :=
              decode_flows (h.of_engine { s.engine with core := core }) hgo.2 hpeek hr
            exact ⟨hflows, hunit⟩

theorem executeRound_flows {r : Round (RingPipeline numPorts B)} (h : Flows cfg s)
    (hr : s.executeRound = some r) : Keeps cfg s r.state := by
  rw [executeRound] at hr
  split at hr
  case isTrue =>
    cases hr
    exact ⟨h, rfl⟩
  case isFalse hgo =>
    rw [not_or, Bool.not_eq_true, Bool.not_eq_true] at hgo
    split at hr
    case h_1 =>
      cases hr
      exact ⟨h, rfl⟩
    case h_2 ins hpeek =>
      obtain ⟨lat, -, hround⟩ := Option.map_eq_some_iff.mp hr
      obtain ⟨hpolled, hsize, hheld⟩ := h.idExLatch.sound.held_poll hpeek
      obtain ⟨hadded, hlast⟩ := h.exMemLatch.sound.held_add ins
        (s.idExLatch.getInstructionCompletesAt + lat) hgo.2
      have hin : ins.isOutOfOrder s.execCtr = false := by
        rw [h.execCtr]
        exact h.inOrder (s.idExLatch.poll s.now).2.held (by rw [decoded, hheld])
      rw [hin] at hround
      subst hround
      refine ⟨h.moved rfl rfl ⟨hpolled, hsize.trans h.idExLatch.size⟩
        ⟨hadded, h.exMemLatch.size⟩ h.memWbLatch ?_ rfl ?_ h.memCtr h.wbCtr rfl, rfl⟩
      · simp only [Round.state, Bool.false_eq_true, if_false, decoded, executed, accessed, hlast,
          hheld, List.append_assoc, List.singleton_append]
      · simp only [Round.state, Bool.false_eq_true, if_false, executed, accessed, hlast,
          List.length_append, h.execCtr, List.length_singleton]
        omega

theorem moveToMemWb_flows {accepted : ℕ} (h : Flows cfg s) (hroom : s.memWbLatch.isFull = false)
    (hpeek : s.exMemLatch.peek s.now 0 = some ins) :
    Keeps cfg s (s.moveToMemWb ins accepted).state.1 := by
  obtain ⟨lat, hlat⟩ : ∃ lat : ℤ,
      lat = if ins.operationType = .load then longMax - s.now else 1 := ⟨_, rfl⟩
  obtain ⟨hpolled, hsize, hheld⟩ := h.exMemLatch.sound.held_poll hpeek
  obtain ⟨hadded, hlast⟩ := h.memWbLatch.sound.held_add ins (s.now + lat) hroom
  have hin : ins.isOutOfOrder s.memCtr = false := by
    rw [h.memCtr]
    refine h.inOrder ((s.exMemLatch.poll s.now).2.held ++ s.idExLatch.held) ?_
    rw [decoded, executed, hheld]
    simp
  rw [moveToMemWb, hin, ← hlat]
  refine ⟨h.moved rfl rfl h.idExLatch ⟨hpolled, hsize.trans h.exMemLatch.size⟩
    ⟨hadded, h.memWbLatch.size⟩ ?_ rfl ?_ ?_ h.wbCtr rfl, rfl⟩
  · simp only [Round.state, Bool.false_eq_true, if_false, decoded, executed, accessed, hlast,
      hheld, List.append_assoc, List.singleton_append]
  · simp only [Round.state, Bool.false_eq_true, if_false, executed, accessed, hlast, hheld,
      List.length_append, List.length_cons, h.execCtr, List.length_nil]
    omega
  · simp only [Round.state, Bool.false_eq_true, if_false, accessed, hlast, List.length_append,
      List.length_singleton, h.memCtr]
    omega

theorem memRound_flows {state : RingPipeline numPorts B × ℕ}
    {r : Round (RingPipeline numPorts B × ℕ)} (h : Flows cfg state.1)
    (hr : memRound state = some r) : Keeps cfg state.1 r.state.1 := by
  simp only [memRound] at hr
  split at hr
  case isTrue =>
    cases hr
    exact ⟨h, rfl⟩
  case isFalse hgo =>
    rw [not_or, Bool.not_eq_true, Bool.not_eq_true] at hgo
    split at hr
    case h_1 =>
      cases hr
      exact ⟨h, rfl⟩
    case h_2 ins hpeek =>
      split at hr
      case isTrue =>
        split at hr
        case h_1 =>
          cases hr
          exact ⟨h, rfl⟩
        case h_2 =>
          cases hr
          exact moveToMemWb_flows h hgo.2 hpeek
      case isFalse =>
        cases hr
        exact moveToMemWb_flows h hgo.2 hpeek

theorem writeBackRound_flows {r : Round (RingPipeline numPorts B)} (h : Flows cfg s)
    (hr : s.writeBackRound = some r) : Keeps cfg s r.state := by
  rw [writeBackRound] at hr
  split at hr
  case isTrue =>
    cases hr
    exact ⟨h, rfl⟩
  case isFalse =>
    split at hr
    case h_1 =>
      cases hr
      exact ⟨h, rfl⟩
    case h_2 ins hpeek =>
      obtain ⟨hpolled, hsize, hheld⟩ := h.memWbLatch.sound.held_poll hpeek
      have hin : ins.isOutOfOrder s.wbCtr = false := by
        rw [h.wbCtr]
        refine h.inOrder ((s.memWbLatch.poll s.now).2.held ++ s.exMemLatch.held ++
          s.idExLatch.held) ?_
        rw [decoded, executed, accessed, hheld]
        simp
      rw [hin] at hr
      cases hr
      refine ⟨h.moved rfl rfl h.idExLatch h.exMemLatch
        ⟨hpolled, hsize.trans h.memWbLatch.size⟩ ?_ rfl ?_ ?_ ?_ rfl, rfl⟩
      · simp only [Round.state, decoded, executed, accessed, hheld, List.append_assoc,
          List.singleton_append]
      · simp only [Round.state, h.execCtr, executed, accessed, hheld, List.length_append,
          List.length_cons, List.length_nil]
        omega
      · simp only [Round.state, h.memCtr, accessed, hheld, List.length_append, List.length_cons,
          List.length_nil]
        omega
      · simp only [Round.state, h.wbCtr, List.length_append, List.length_singleton]

theorem performFetch_flows {crosses : Bool} {rounds : ℕ} (h : Flows cfg s)
    (ht : s.performFetch cfg crosses rounds = some t) :
    Flows cfg t ∧ t.fetchUnit.appended = s.fetchUnit.appended := by
  rw [performFetch] at ht
  split at ht
  case isTrue =>
    cases ht
    exact ⟨h.of_engine _, rfl⟩
  case isFalse =>
    obtain ⟨⟨unit, latch⟩, hfetch, rfl⟩ := Option.map_eq_some_iff.mp ht
    obtain ⟨hsound, hlatch, hsize, happended, moved, hpassed, hentries⟩ :=
      performFetch_delivers h.fetchUnit h.ifIdLatch.sound hfetch
    have hheld : latch.held = s.ifIdLatch.held ++ moved.filter fun ins => !ins.isSync := by
      rw [StageRing.held, hentries, List.map_append, List.map_map]
      simp [StageRing.held, Function.comp_def]
    refine ⟨⟨hsound, ⟨hlatch, hsize.trans h.ifIdLatch.size⟩, h.idExLatch, h.exMemLatch,
      h.memWbLatch, ?_, h.decodeCtr, h.execCtr, h.memCtr, h.wbCtr, h.ended, ?_⟩, happended⟩
    · rw [hpassed, List.filter_append, h.stream, hheld, List.append_assoc]
      rfl
    · rcases h.exited with hnone | ⟨hexit, ⟨first, rest, hfirst, hvalid⟩, holder⟩
      · exact .inl hnone
      · refine .inr ⟨hexit, ⟨first, rest ++ moved.filter fun ins => !ins.isSync, ?_, hvalid⟩,
          holder⟩
        rw [hheld, hfirst, List.cons_append]

theorem loop_keeps {body : RingPipeline numPorts B → Option (Round (RingPipeline numPorts B))}
    {rounds : ℕ} (hbody : ∀ s r, Flows cfg s → body s = some r → Keeps cfg s r.state)
    (h : Flows cfg s) (ht : loop body rounds s = some t) : Keeps cfg s t :=
  loop_invariant (I := Keeps cfg s)
    (fun u r hu hr =>
      have hkeeps := hbody u r hu.flows hr
      ⟨hkeeps.flows, hkeeps.fetchUnit.trans hu.fetchUnit⟩) ⟨h, rfl⟩ ht

/-- What a label does to the stream. -/
theorem next_flows {label : RingLabel} (h : Flows cfg s) (ht : next cfg s label = some t) :
    Flows cfg t ∧ t.fetchUnit.appended = s.fetchUnit.appended ++ label.appended := by
  have hkeeps : ∀ {u}, Keeps cfg s u → Flows cfg u ∧
      u.fetchUnit.appended = s.fetchUnit.appended ++ [] :=
    fun hu => ⟨hu.flows, by rw [hu.fetchUnit, List.append_nil]⟩
  rw [next.eq_def] at ht
  split at ht
  case isTrue => cases ht
  case isFalse hrunning =>
  have hnone : s.exited = none := Option.not_isSome_iff_eq_none.mp hrunning
  cases label with
  | append instructions =>
    cases ht
    refine ⟨⟨h.fetchUnit.append instructions, h.ifIdLatch, h.idExLatch, h.exMemLatch,
      h.memWbLatch, h.stream, h.decodeCtr, h.execCtr, h.memCtr, h.wbCtr, h.ended, .inl hnone⟩, ?_⟩
    simp [FetchUnit.append, FetchUnit.appended, RingLabel.appended]
  | writeback =>
    dsimp only at ht
    rw [performWriteBack] at ht
    split at ht
    · cases ht
      exact hkeeps ⟨h, rfl⟩
    · exact hkeeps (loop_keeps (fun _ _ => writeBackRound_flows) h ht)
  | instrCacheAnswer address =>
    cases ht
    exact ⟨⟨h.fetchUnit.processCompletionOfMemRequest address, h.ifIdLatch, h.idExLatch,
      h.exMemLatch, h.memWbLatch, h.stream, h.decodeCtr, h.execCtr, h.memCtr, h.wbCtr, h.ended,
      .inl hnone⟩, (List.append_nil _).symm⟩
  | l1CacheAnswer address =>
    cases ht
    obtain ⟨hsound, hheld⟩ := h.memWbLatch.sound.held_complete
      (NumberedInstruction.awaitsAddress address) s.now
    refine hkeeps ⟨h.moved rfl rfl h.idExLatch h.exMemLatch ⟨hsound, h.memWbLatch.size⟩ ?_ rfl
      ?_ ?_ h.wbCtr rfl, rfl⟩
    · simp only [decoded, executed, accessed, updateInstructionCompletions, hheld]
    · simp only [executed, accessed, updateInstructionCompletions, hheld, h.execCtr]
    · simp only [accessed, updateInstructionCompletions, hheld, h.memCtr]
  | resumePipeline =>
    cases ht
    exact ⟨⟨h.fetchUnit.resumePipeline, h.ifIdLatch, h.idExLatch, h.exMemLatch, h.memWbLatch,
      h.stream, h.decodeCtr, h.execCtr, h.memCtr, h.wbCtr, h.ended, .inl hnone⟩,
      (List.append_nil _).symm⟩
  | mem accepted =>
    dsimp only at ht
    rw [performMemEvent] at ht
    split at ht
    · cases ht
      exact hkeeps ⟨h, rfl⟩
    · obtain ⟨state, hloop, rfl⟩ := Option.map_eq_some_iff.mp ht
      exact hkeeps (loop_invariant (I := fun u => Keeps cfg s u.1)
        (fun u r hu hr =>
          have hround := memRound_flows hu.flows hr
          ⟨hround.flows, hround.fetchUnit.trans hu.fetchUnit⟩) ⟨h, rfl⟩ hloop)
  | exec =>
    dsimp only at ht
    rw [execute] at ht
    split at ht
    · cases ht
      exact hkeeps ⟨h, rfl⟩
    · exact hkeeps (loop_keeps (fun _ _ => executeRound_flows) h ht)
  | decode =>
    dsimp only at ht
    rw [performDecode] at ht
    split at ht
    · cases ht
      exact hkeeps ⟨h, rfl⟩
    · obtain ⟨hflows, hunit⟩ := loop_keeps (fun _ _ => decodeRound_flows) (h.of_engine _) ht
      exact hkeeps ⟨hflows, hunit⟩
  | fetch crosses rounds =>
    obtain ⟨hflows, happended⟩ := performFetch_flows h ht
    exact ⟨hflows, happended.trans (List.append_nil _).symm⟩
  | tick =>
    cases ht
    exact hkeeps ⟨h.of_engine _, rfl⟩

/-! ### Runs -/

/-- What the fetch unit makes of a stream, without the barriers, which no latch ever holds. -/
def program (cfg : RingConfig B) (n : ℕ) (stream : List NumberedInstruction) :
    List NumberedInstruction :=
  (numbered cfg.toFetchBufferConfig n stream).filter fun ins => !ins.isSync

/-- The stream that was put in is, in its order, what was written back, what the latches and the
buffer hold and what the unit has not taken. -/
structure DeliversInOrder (cfg : RingConfig B) (stream : List NumberedInstruction)
    (s : RingPipeline numPorts B) : Prop where
  stream : program cfg 0 stream = s.writtenBack ++ s.memWbLatch.held ++ s.exMemLatch.held ++
    s.idExLatch.held ++ s.ifIdLatch.held ++
    ((s.fetchUnit.contents cfg.toFetchBufferConfig).filter fun ins => !ins.isSync) ++
    program cfg s.fetchUnit.instCtr s.fetchUnit.inputToPipeline
  latches : ∀ latch ∈ [s.ifIdLatch, s.idExLatch, s.exMemLatch, s.memWbLatch],
    latch.held.length ≤ cfg.issueWidth
  buffer : s.fetchUnit.fetchFillCount ≤ cfg.fetchBufferCapacity
  awaited : ∀ i ∈ s.fetchUnit.slots cfg.toFetchBufferConfig, ∃ ins,
    s.fetchUnit.fetchBuffer i = some ins ∧ (s.fetchUnit.fetchBufferStatus i = false →
      ins.ciscProgramCounter ∈ s.fetchUnit.requested)
  ended : s.decoded.Pairwise fun a b => a.isInValid = true → b.isInValid = true
  exited : s.exited = none ∨ s.DecodeExit

theorem Flows.deliversInOrder (h : Flows cfg s) :
    DeliversInOrder cfg s.fetchUnit.appended s := by
  refine ⟨?_, ?_, h.fetchUnit.count, ?_, h.ended, h.exited⟩
  · rw [program, h.fetchUnit.numbered_appended, List.filter_append, List.filter_append, h.stream]
    rfl
  · have hfits : ∀ latch, Fits cfg latch → latch.held.length ≤ cfg.issueWidth :=
      fun latch hlatch => hlatch.size ▸ hlatch.sound.length_held_le
    simp only [List.mem_cons, List.not_mem_nil, or_false, forall_eq_or_imp, forall_eq]
    exact ⟨hfits _ h.ifIdLatch, hfits _ h.idExLatch, hfits _ h.exMemLatch, hfits _ h.memWbLatch⟩
  · intro i hi
    obtain ⟨ins, hins⟩ := h.fetchUnit.filled i hi
    exact ⟨ins, hins, h.fetchUnit.awaited i hi ins hins⟩

theorem run_flows (hcap : 0 < cfg.fetchBufferCapacity) {core : ExecutionCore numPorts}
    {predictor : B} {labels : List RingLabel}
    (run : Run (StepOf (next cfg)) (start cfg core predictor) labels s) :
    Flows cfg s ∧ s.fetchUnit.appended = labels.flatMap RingLabel.appended := by
  induction run with
  | nil => exact ⟨flows_start hcap core predictor, rfl⟩
  | snoc prior last ih =>
    obtain ⟨hflows, happended⟩ := next_flows ih.1 last
    refine ⟨hflows, ?_⟩
    rw [happended, ih.2, List.flatMap_append, List.flatMap_singleton]

/-- In every run the pipeline delivers in order, and only decode ever ends the simulation. -/
theorem delivers_in_order (cfg : RingConfig B) (hcap : 0 < cfg.fetchBufferCapacity)
    (core : ExecutionCore numPorts) (predictor : B) {labels : List RingLabel}
    (run : Run (StepOf (next cfg)) (start cfg core predictor) labels s) :
    DeliversInOrder cfg (labels.flatMap RingLabel.appended) s := by
  obtain ⟨hflows, happended⟩ := run_flows hcap run
  rw [← happended]
  exact hflows.deliversInOrder

def nopAt (pc : ℤ) : NumberedInstruction where
  toInstruction := .getNOPInstruction
  ciscProgramCounter := pc
  branchTaken := false
  sourceOperand1MemValue := 0
  serialNo := 0

def endOfStream : NumberedInstruction :=
  { nopAt (-1) with operationType := .inValid, admitted := rfl }

/-- Two instructions in each latch and four in the fetch buffer. -/
def twoWideRings : RingConfig Unit where
  issueWidth := 2
  branchMispredictionPenalty := 8
  predict := fun _ _ _ => (true, ())
  train := fun _ _ _ _ => ()
  fetchBufferCapacity := 4
  detachMemSysData := false
  detachMemSysInsn := false
  treeBarrier := false

/-- A stream ends and another one begins before the pipeline has stopped. -/
def twoStreams : List RingLabel :=
  [.append [nopAt 64, endOfStream, nopAt 68], .fetch true 4, .instrCacheAnswer 64, .fetch true 4,
    .instrCacheAnswer 68, .tick, .decode, .fetch true 4, .tick, .exec, .decode]

theorem twoStreams_delivers_in_order : ∃ s,
    Run (StepOf (next twoWideRings)) (start twoWideRings (.new 1 IssueState.defaultUnits) ())
      twoStreams s ∧ s.exited = some "decode out of order!!" ∧
        DeliversInOrder twoWideRings (twoStreams.flatMap RingLabel.appended) s := by
  have hexec : (exec (next twoWideRings)
      (start twoWideRings (.new 1 IssueState.defaultUnits) ()) twoStreams).any
        (fun s => s.exited = some "decode out of order!!") = true := by
    decide +kernel
  obtain ⟨s, hs, hexited⟩ := (Option.any_eq_true _ _).mp hexec
  have run := run_of_exec hs
  exact ⟨s, run, of_decide_eq_true hexited,
    delivers_in_order twoWideRings (by decide) _ () run⟩

end RingPipeline

end Tejas
