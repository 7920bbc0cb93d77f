import Tejas.CommandPops
import Tejas.SlidingWindow

/-!
# At most four activations in the window of a rank

A pop that returns an ACTIVATE found it issuable, so the list of its rank had room for one
more counter. The counters of a rank are those of a sliding window over the calls of pop,
whatever the bank states are and whatever is enqueued or refreshed in between.
-/

namespace Tejas
open QueueSearch SlidingWindow

variable {cfg : MainMemoryConfig} {E : Type} {bankStates : BankStates cfg} {now : ℤ}
  {cq cq' : CommandQueue cfg E} {b : MainMemoryBusPacket cfg E} {rank : cfg.Rank}
  {bank : cfg.Bank}

/-- The packet is an ACTIVATE for the rank. -/
def MainMemoryBusPacket.activates (rank : cfg.Rank) (b : MainMemoryBusPacket cfg E) : Bool :=
  b.isActivate && decide (b.rank = rank)

namespace CommandQueue

/-- A chosen command leaves the counters, and is an ACTIVATE only if its rank has fewer than
four of them. -/
structure Allowed (cq : CommandQueue cfg E) (b : MainMemoryBusPacket cfg E)
    (cq' : CommandQueue cfg E) : Prop where
  frame : cq'.tFAWCountdown = cq.tFAWCountdown
  free : b.isActivate = true → (cq.tFAWCountdown b.rank).length < 4

theorem Allowed.setNext (h : cq.Allowed b cq') (p : cfg.Rank × cfg.Bank) :
    cq.Allowed b (cq'.setNext p) := ⟨h.frame, h.free⟩

theorem Allowed.setNextPRE (h : cq.Allowed b cq') (p : cfg.Rank × cfg.Bank) :
    cq.Allowed b (cq'.setNextPRE p) := ⟨h.frame, h.free⟩

theorem free_of_isIssuable (h : cq.isIssuable bankStates now b = true)
    (hb : b.isActivate = true) : (cq.tFAWCountdown b.rank).length < 4 := by
  have htype : b.busPacketType = .activate := of_decide_eq_true hb
  simp only [isIssuable, htype] at h
  exact (of_decide_eq_true h).2.2

theorem allowed_sendRefresh {row column : ℤ}
    (h : cq.sendRefresh bankStates row column rank = some (b, cq')) : cq.Allowed b cq' := by
  rw [sendRefresh] at h
  split at h
  · cases h
  · cases h
    exact ⟨rfl, fun hb => absurd (of_decide_eq_true hb) (by simp [refreshPacket])⟩

theorem allowed_closeRow (h : cq.closeRow bankStates now rank bank = some (b, cq')) :
    cq.Allowed b cq' := by
  rw [closeRow] at h
  split at h
  · cases h
    exact ⟨rfl, fun hb => absurd (of_decide_eq_true hb) (by simp [prechargePacket])⟩
  · cases h

theorem allowed_closePageRefresh (h : cq.closePageRefresh bankStates now = some (b, cq')) :
    cq.Allowed b cq' := by
  rw [closePageRefresh] at h
  split at h
  case h_2 => cases h
  case h_1 rank _ _ =>
    split at h
    case h_1 => exact allowed_sendRefresh h
    case h_2 bank _ =>
      split at h
      case isFalse => cases h
      case isTrue =>
        split at h
        case h_1 => cases h
        case h_2 =>
          split at h
          case isFalse => cases h
          case isTrue hissue =>
            cases h
            exact ⟨rfl, free_of_isIssuable hissue.2⟩

theorem allowed_openPageRefresh (h : cq.openPageRefresh bankStates now = some (b, cq')) :
    cq.Allowed b cq' := by
  rw [openPageRefresh] at h
  split at h
  case h_2 => cases h
  case h_1 rank _ _ =>
    split at h
    case h_1 => exact allowed_sendRefresh h
    case h_2 bank _ =>
      split at h
      case isFalse => cases h
      case isTrue =>
        split at h
        case h_1 => exact allowed_closeRow h
        case h_2 =>
          split at h
          case isTrue => exact allowed_closeRow h
          case isFalse =>
            split at h
            case isFalse => cases h
            case isTrue hissue =>
              cases h
              exact ⟨rfl, free_of_isIssuable hissue⟩

theorem allowed_closePageAttempt {p : cfg.Rank × cfg.Bank}
    (h : cq.closePageAttempt bankStates now p = some (b, cq')) : cq.Allowed b cq' := by
  rw [closePageAttempt] at h
  split at h
  case isTrue => cases h
  case isFalse =>
    split at h
    case h_1 =>
      split at h
      case h_1 => cases h
      case h_2 hfirst =>
        cases h
        have hissue := (firstSplit_nil_eq_some hfirst).2.1
        rw [Bool.and_eq_true] at hissue
        exact ⟨rfl, free_of_isIssuable hissue.1⟩
    case h_2 =>
      split at h
      case h_1 => cases h
      case h_2 =>
        split at h
        case isFalse => cases h
        case isTrue hissue =>
          cases h
          exact ⟨rfl, free_of_isIssuable hissue⟩

theorem allowed_openPageAttempt {p : cfg.Rank × cfg.Bank}
    (h : cq.openPageAttempt bankStates now p = some (b, cq')) : cq.Allowed b cq' := by
  rw [openPageAttempt] at h
  split at h
  case isTrue => cases h
  case isFalse =>
    split at h
    case h_1 => cases h
    case h_2 hfirst =>
      have hissue := (firstSplit_nil_eq_some hfirst).2.1
      rw [Bool.and_eq_true] at hissue
      split at h
      · cases h
        exact ⟨rfl, free_of_isIssuable hissue.1⟩
      · cases h
        exact ⟨rfl, free_of_isIssuable hissue.1⟩

theorem allowed_prechargeAttempt {p : cfg.Rank × cfg.Bank}
    (h : cq.prechargeAttempt bankStates now p = some (b, cq')) : cq.Allowed b cq' := by
  rw [prechargeAttempt] at h
  split at h
  · exact allowed_closeRow h
  · cases h

@[simp] theorem advance_tFAWCountdown : cq.advance.tFAWCountdown = cq.tFAWCountdown := by
  rw [advance]
  split <;> rfl

/-- The round of a rank's counters that an answer of pop makes. -/
structure Counted (cq : CommandQueue cfg E) (rank : cfg.Rank) (marked : Bool)
    (cq' : CommandQueue cfg E) : Prop where
  counters : cq'.tFAWCountdown rank = record cfg.tFAW (cq.tFAWCountdown rank) marked
  free : marked = true → (tick (cq.tFAWCountdown rank)).length < 4

theorem counted_finish (h : cq.countDown.Allowed b cq') (rank : cfg.Rank) :
    cq.Counted rank (b.activates rank) (cq'.advance.noteActivate b) := by
  have hframe : cq'.advance.tFAWCountdown = fun rank => tick (cq.tFAWCountdown rank) := by
    rw [advance_tFAWCountdown, h.frame]
    rfl
  by_cases hb : b.isActivate = true
  · by_cases hrank : b.rank = rank
    · subst hrank
      have hmarked : b.activates b.rank = true := by simp [MainMemoryBusPacket.activates, hb]
      refine ⟨?_, fun _ => h.free hb⟩
      rw [noteActivate, if_pos hb, hmarked, record, if_pos rfl, hframe]
      simp
    · have hmarked : b.activates rank = false := by simp [MainMemoryBusPacket.activates, hrank]
      refine ⟨?_, by simp [hmarked]⟩
      rw [noteActivate, if_pos hb, hmarked, record, if_neg (by simp), hframe]
      simp [Function.update_of_ne (Ne.symm hrank)]
  · have hmarked : b.activates rank = false := by simp [MainMemoryBusPacket.activates, hb]
    refine ⟨?_, by simp [hmarked]⟩
    rw [noteActivate, if_neg hb, hmarked, record, if_neg (by simp), hframe]

theorem counted_nothing (cq cq' : CommandQueue cfg E)
    (h : cq'.tFAWCountdown = cq.countDown.tFAWCountdown) (rank : cfg.Rank) :
    cq.Counted rank false cq' := by
  refine ⟨?_, by simp⟩
  rw [h, record, if_neg (by simp)]
  rfl

theorem counted_pop (cq : CommandQueue cfg E) (bankStates : BankStates cfg) (now : ℤ)
    (rank : cfg.Rank) :
    cq.Counted rank ((cq.pop bankStates now).1.any (fun b => b.activates rank))
      (cq.pop bankStates now).2 := by
  rw [pop]
  split
  case h_1 =>
    rw [popClosePage]
    split
    case h_1 hrefresh => exact counted_finish (allowed_closePageRefresh hrefresh) rank
    case h_2 =>
      split
      case h_1 p hsearch =>
        have hallowed := allowed_closePageAttempt (attempt_of_roundRobin hsearch)
        exact counted_finish (hallowed.setNext p) rank
      case h_2 p _ => exact counted_nothing cq (cq.countDown.setNext p) rfl rank
  case h_2 =>
    rw [popOpenPage]
    split
    case h_1 hrefresh => exact counted_finish (allowed_openPageRefresh hrefresh) rank
    case h_2 =>
      split
      case h_1 p hsearch =>
        have hallowed := allowed_openPageAttempt (attempt_of_roundRobin hsearch)
        exact counted_finish (hallowed.setNext p) rank
      case h_2 p _ =>
        split
        case h_1 q hsearch =>
          have hallowed := allowed_prechargeAttempt (attempt_of_roundRobin hsearch)
          exact counted_finish ((hallowed.setNext p).setNextPRE q) rank
        case h_2 q _ =>
          exact counted_nothing cq ((cq.countDown.setNext p).setNextPRE q) rfl rank

/-- The answers of pop, in a run of the queue from its start. Commands may be enqueued and
refreshes asked for in between, and every pop sees bank states of its own. -/
inductive Run : List (Option (MainMemoryBusPacket cfg E)) → CommandQueue cfg E → Prop
  | new : Run [] (CommandQueue.new cfg E)
  | enqueue {calls : List (Option (MainMemoryBusPacket cfg E))} {cq cq' : CommandQueue cfg E}
      (prior : Run calls cq) (busPacket : MainMemoryBusPacket cfg E)
      (henqueue : cq.enqueue busPacket = some cq') : Run calls cq'
  | needRefresh {calls : List (Option (MainMemoryBusPacket cfg E))} {cq : CommandQueue cfg E}
      (prior : Run calls cq) (rank : cfg.Rank) : Run calls (cq.needRefresh rank)
  | pop {calls : List (Option (MainMemoryBusPacket cfg E))} {cq : CommandQueue cfg E}
      (prior : Run calls cq) (bankStates : BankStates cfg) (now : ℤ) :
      Run (calls ++ [(cq.pop bankStates now).1]) (cq.pop bankStates now).2

/-- The calls that returned an ACTIVATE for a rank. -/
def activations (rank : cfg.Rank) (calls : List (Option (MainMemoryBusPacket cfg E))) :
    List Bool :=
  calls.map (fun call => call.any (fun b => b.activates rank))

theorem enqueue_tFAWCountdown (h : cq.enqueue b = some cq') :
    cq'.tFAWCountdown = cq.tFAWCountdown := by
  rw [enqueue] at h
  split at h
  · cases h
  · cases h
    rfl

/-- Over a run, the counters of a rank are those of the calls that activated one of its
banks. -/
theorem Run.recorded {calls : List (Option (MainMemoryBusPacket cfg E))} (h : Run calls cq)
    (rank : cfg.Rank) :
    Recorded cfg.tFAW 4 (activations rank calls) (cq.tFAWCountdown rank) := by
  induction h with
  | new => exact .start
  | enqueue prior busPacket henqueue ih => rwa [enqueue_tFAWCountdown henqueue]
  | needRefresh prior rank ih => exact ih
  | @pop calls cq prior bankStates now ih =>
    have hcounted := cq.counted_pop bankStates now rank
    have hround := Recorded.round ih _ hcounted.free
    rw [← hcounted.counters] at hround
    rwa [activations, List.map_append, List.map_singleton]

/-- In `tFAW` consecutive calls of pop at most four ACTIVATEs are returned for a rank, and the
countdown list of a rank has at most four entries, all positive and strictly increasing. -/
theorem at_most_four_activates {calls : List (Option (MainMemoryBusPacket cfg E))}
    (h : Run calls cq) (htFAW : 1 ≤ cfg.tFAW) (rank : cfg.Rank) :
    (∀ before window after, calls = before ++ window ++ after → (window.length : ℤ) ≤ cfg.tFAW →
      window.countP (fun call => call.any (fun b => b.activates rank)) ≤ 4) ∧
    (cq.tFAWCountdown rank).length ≤ 4 ∧
    (∀ count ∈ cq.tFAWCountdown rank, 0 < count) ∧
    (cq.tFAWCountdown rank).Pairwise (fun a b => a < b) := by
  have hrecorded := h.recorded rank
  refine ⟨?_, hrecorded.length_le, (hrecorded.window htFAW).pos,
    (hrecorded.window htFAW).increasing⟩
  intro before window after hcalls hlen
  have hsplit : activations rank calls =
      activations rank before ++ activations rank window ++ activations rank after := by
    simp [hcalls, activations]
  have hcount := hrecorded.count_window_le htFAW hsplit (by simpa [activations] using hlen)
  rw [activations, List.count, List.countP_map] at hcount
  refine Nat.le_trans (Nat.le_of_eq (List.countP_congr (fun call _ => ?_))) hcount
  simp

/-- The timings of a memory that runs at a quarter of the processor's frequency. -/
def slowMemory : MainMemoryConfig where
  rowBufferPolicy := .openPage
  schedulingPolicy := .rankThenBankRoundRobin
  queuingStructure := .perRank
  numRanks := 2
  numBanks := 2
  numRanks_pos := Nat.two_pos
  numBanks_pos := Nat.two_pos
  totalRowAccesses := 4
  cpuRamRatio := 4
  tCCD := 16
  tBL := 32
  tCL := 44
  tAL := 0
  tRP := 44
  tCMD := 4
  tRC := 156
  tRCD := 44
  tRAS := 112
  tRFC := 352
  tRTRS := 4
  tRRD := 20
  tFAW := 24
  tRTP := 24
  tWTR := 24
  tWR := 48
  refreshCycles := 6240

def activateBank0 : MainMemoryBusPacket slowMemory Unit :=
  ⟨3, 0, slowMemory.firstBank, slowMemory.firstRank, 0, .activate, none, 0⟩

/-- The queue with one ACTIVATE. -/
def oneActivate : CommandQueue slowMemory Unit :=
  (CommandQueue.new slowMemory Unit).setCommandQueue activateBank0.rank activateBank0.bank
    [activateBank0]

theorem oneActivate_pops :
    let once := oneActivate.pop (fun _ _ => BankState.new) 0
    once.1 = some activateBank0 ∧
      (once.2.pop (fun _ _ => BankState.new) 4).2.tFAWCountdown slowMemory.firstRank = [23] := by
  decide +kernel

theorem at_most_four_activates_slowMemory :
    ∃ (calls : List (Option (MainMemoryBusPacket slowMemory Unit)))
      (cq : CommandQueue slowMemory Unit),
      Run calls cq ∧ calls.head? = some (some activateBank0) ∧
      cq.tFAWCountdown slowMemory.firstRank = [23] ∧
      (∀ before window after, calls = before ++ window ++ after → (window.length : ℤ) ≤ 24 →
        window.countP (fun call => call.any (fun b => b.activates slowMemory.firstRank)) ≤ 4) := by
  have henqueue : (CommandQueue.new slowMemory Unit).enqueue activateBank0 = some oneActivate := rfl
  have hrun := ((Run.enqueue .new activateBank0 henqueue).pop (fun _ _ => BankState.new) 0).pop
    (fun _ _ => BankState.new) 4
  refine ⟨_, _, hrun, ?_, oneActivate_pops.2, ?_⟩
  · rw [oneActivate_pops.1]
    rfl
  · exact (at_most_four_activates hrun (by decide) slowMemory.firstRank).1

end CommandQueue

end Tejas
