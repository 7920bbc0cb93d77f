import Tejas.DramController
import Mathlib.Data.Rat.Floor
import Mathlib.Order.Monotone.Basic

/-!
# The refresh schedule

Every rank has a counter of memory cycles, and a pointer goes round the ranks. All counters
go down in every cycle, but only the counter the pointer is at is compared with zero; the
refresh it asks for starts the counter again and moves the pointer. The counters start at
multiples of an interval that is cut from the refresh period, so the pointer meets every
counter in the cycle in which it is zero. The quotients of the configuration are exact, and
an `int` holds them.
-/

namespace Tejas

/-- The refresh period in nanoseconds, and the length of a memory cycle. -/
structure MemoryTiming extends MainMemoryConfig where
  refreshPeriod : ℕ
  tCK : ℚ
  tCK_pos : 0 < tCK
  refreshCycles_eq : refreshCycles = ⌊(refreshPeriod : ℚ) / tCK⌋
  refreshCycles_lt : refreshCycles < 2 ^ 31

namespace MemoryTiming

variable (cfg : MemoryTiming)

/-- The distance between the first refreshes of two ranks. -/
def refreshInterval : ℤ := ⌊(cfg.refreshPeriod : ℚ) / cfg.tCK / (cfg.numRanks : ℚ)⌋

end MemoryTiming

variable {cfg : MemoryTiming} {E : Type}

/-- The bank controller with the counters of its refreshes. -/
structure MemoryController (cfg : MemoryTiming) (E : Type) where
  banks : BankController cfg.toMainMemoryConfig E
  refreshRank : cfg.Rank
  refreshCount : cfg.Rank → ℤ

namespace MemoryController

def new (cfg : MemoryTiming) (E : Type) : MemoryController cfg E where
  banks := .new cfg.toMainMemoryConfig E
  refreshRank := cfg.firstRank
  refreshCount := fun rank => cfg.refreshInterval * (rank.val + 1)

variable (s : MemoryController cfg E)

/-- The rank for which `needRefresh` is called in this cycle. -/
def refreshCalled : Option cfg.Rank :=
  if s.refreshCount s.refreshRank = 0 then some s.refreshRank else none

/-- The rank of the pointer asks for a refresh, and the pointer moves on. -/
def callRefresh : MemoryController cfg E where
  banks := s.banks.needRefresh s.refreshRank
  refreshRank :=
    if hnext : s.refreshRank.val + 1 < cfg.numRanks then ⟨s.refreshRank.val + 1, hnext⟩
    else cfg.firstRank
  refreshCount := Function.update s.refreshCount s.refreshRank cfg.refreshCycles

/-- A memory cycle: refresh, pop, and count down. -/
def oneCycleOperation (now : ℤ) : MemoryController cfg E :=
  let s' := if s.refreshCount s.refreshRank = 0 then s.callRefresh else s
  { s' with
    banks := (s'.banks.popCommand now).2
    refreshCount := fun rank => s'.refreshCount rank - 1 }

/-- A run of the controller, with the answer to "who is refreshed" of every memory cycle.
Transactions and state updates come in between. -/
inductive Run : List (Option cfg.Rank) → MemoryController cfg E → Prop
  | new : Run [] (MemoryController.new cfg E)
  | enqueue {calls : List (Option cfg.Rank)} {s : MemoryController cfg E}
      {banks : BankController cfg.toMainMemoryConfig E} (prior : Run calls s)
      (b : MainMemoryBusPacket cfg.toMainMemoryConfig E)
      (henqueue : s.banks.enqueuePair b = some banks) : Run calls { s with banks := banks }
  | stateUpdate {calls : List (Option cfg.Rank)} {s : MemoryController cfg E}
      (prior : Run calls s) (event : StateUpdateEvent cfg.toMainMemoryConfig)
      (hevent : event ∈ s.banks.stateUpdates) :
      Run calls { s with banks := s.banks.handleStateUpdate event }
  | memoryCycle {calls : List (Option cfg.Rank)} {s : MemoryController cfg E}
      (prior : Run calls s) (now : ℤ) : Run (calls ++ [s.refreshCalled]) (s.oneCycleOperation now)

end MemoryController

/-! ### The times of the calls -/

/-- The cycle of the `j`-th call: ranks take turns, and a rank comes again after a period. -/
def callTime (interval period : ℤ) (n j : ℕ) : ℤ :=
  ((j % n : ℕ) + 1) * interval + (j / n : ℕ) * period

section CallTime

variable {interval period : ℤ} {n i j : ℕ}

theorem callTime_add (hn : 0 < n) :
    callTime interval period n (j + n) = callTime interval period n j + period := by
  rw [callTime, callTime, Nat.add_mod_right, Nat.add_div_right j hn]
  push_cast
  ring

/-- The next call is later, also when the pointer comes back to the first rank. -/
theorem callTime_lt_succ (hn : 0 < n) (hinterval : 1 ≤ interval)
    (hperiod : n * interval ≤ period) :
    callTime interval period n j < callTime interval period n (j + 1) := by
  have hmod : j % n < n := Nat.mod_lt j hn
  rcases Nat.lt_or_ge (j % n + 1) n with hlt | hge
  · have hmod' : (j + 1) % n = j % n + 1 := by
      rw [Nat.add_mod, Nat.mod_eq_of_lt (a := 1) (by omega), Nat.mod_eq_of_lt hlt]
    have hdiv' : (j + 1) / n = j / n := by
      have h₁ := Nat.div_add_mod j n
      have h₂ := Nat.div_add_mod (j + 1) n
      rw [hmod'] at h₂
      exact Nat.eq_of_mul_eq_mul_left hn (by omega)
    rw [callTime, callTime, hmod', hdiv']
    push_cast
    linarith
  · have hlast : j % n + 1 = n := by omega
    have hnext : j + 1 = n * (j / n + 1) := by
      have h₁ := Nat.div_add_mod j n
      rw [Nat.mul_add, Nat.mul_one]
      omega
    have hmod' : (j + 1) % n = 0 := by
      rw [hnext]
      exact Nat.mul_mod_right n _
    have hdiv' : (j + 1) / n = j / n + 1 := by
      rw [hnext]
      exact Nat.mul_div_cancel_left _ hn
    have hlast' : ((j % n : ℕ) : ℤ) + 1 = n := by exact_mod_cast hlast
    rw [callTime, callTime, hmod', hdiv', hlast']
    push_cast
    linarith

theorem callTime_lt (hn : 0 < n) (hinterval : 1 ≤ interval) (hperiod : n * interval ≤ period)
    (h : i < j) : callTime interval period n i < callTime interval period n j := by
  have hmono : StrictMono (callTime interval period n) :=
    strictMono_nat_of_lt_succ (fun _ => callTime_lt_succ hn hinterval hperiod)
  exact hmono h

end CallTime

theorem getElem?_snoc_eq_some {α : Type*} {l : List α} {x y : α} {c : ℕ} :
    (l ++ [x])[c]? = some y ↔ l[c]? = some y ∨ c = l.length ∧ x = y := by
  rcases Nat.lt_trichotomy c l.length with hlt | rfl | hgt
  · rw [List.getElem?_append_left hlt]
    simp [Nat.ne_of_lt hlt]
  · simp
  · have hlong : (l ++ [x]).length ≤ c := by
      rw [List.length_append, List.length_singleton]
      omega
    rw [List.getElem?_eq_none hlong, List.getElem?_eq_none (Nat.le_of_lt hgt)]
    simp [Nat.ne_of_gt hgt]

namespace MemoryTiming

variable (cfg) in
/-- The cycle of the `j`-th call of `needRefresh`. -/
def refreshTime (j : ℕ) : ℤ := callTime cfg.refreshInterval cfg.refreshCycles cfg.numRanks j

/-- Both quotients are cut: the intervals of all ranks fit in a period. -/
theorem numRanks_mul_refreshInterval_le :
    (cfg.numRanks : ℤ) * cfg.refreshInterval ≤ cfg.refreshCycles := by
  have hpos : (0 : ℚ) < cfg.numRanks := by exact_mod_cast cfg.numRanks_pos
  rw [cfg.refreshCycles_eq, Int.le_floor]
  have hfloor : (cfg.refreshInterval : ℚ) ≤ (cfg.refreshPeriod : ℚ) / cfg.tCK / cfg.numRanks :=
    Int.floor_le _
  rw [le_div_iff₀ hpos] at hfloor
  push_cast
  rwa [mul_comm]

theorem one_le_refreshInterval (h : (cfg.numRanks : ℤ) ≤ cfg.refreshCycles) :
    1 ≤ cfg.refreshInterval := by
  have hpos : (0 : ℚ) < cfg.numRanks := by exact_mod_cast cfg.numRanks_pos
  rw [cfg.refreshCycles_eq, Int.le_floor] at h
  rw [refreshInterval, Int.le_floor, le_div_iff₀ hpos, Int.cast_one, one_mul]
  exact_mod_cast h

theorem refreshTime_lt (h : (cfg.numRanks : ℤ) ≤ cfg.refreshCycles) {i j : ℕ} (hij : i < j) :
    cfg.refreshTime i < cfg.refreshTime j :=
  callTime_lt cfg.numRanks_pos (one_le_refreshInterval h) numRanks_mul_refreshInterval_le hij

theorem refreshTime_le (h : (cfg.numRanks : ℤ) ≤ cfg.refreshCycles) {i j : ℕ} (hij : i ≤ j) :
    cfg.refreshTime i ≤ cfg.refreshTime j := by
  rcases Nat.eq_or_lt_of_le hij with rfl | hlt
  · exact Int.le_refl _
  · exact Int.le_of_lt (refreshTime_lt h hlt)

/-- The calls for a rank come in a row of periods. -/
theorem exists_refreshTime_iff {t : ℤ} {rank : cfg.Rank} :
    (∃ j, cfg.refreshTime j = t ∧ j % cfg.numRanks = rank.val) ↔
      ∃ k : ℕ, t = (rank.val + 1) * cfg.refreshInterval + k * cfg.refreshCycles := by
  constructor
  · rintro ⟨j, rfl, hrank⟩
    exact ⟨j / cfg.numRanks, by rw [refreshTime, callTime, hrank]⟩
  · rintro ⟨k, rfl⟩
    have hmod : (rank.val + cfg.numRanks * k) % cfg.numRanks = rank.val := by
      rw [Nat.add_mul_mod_self_left, Nat.mod_eq_of_lt rank.isLt]
    have hdiv : (rank.val + cfg.numRanks * k) / cfg.numRanks = k := by
      rw [Nat.add_mul_div_left _ _ cfg.numRanks_pos, Nat.div_eq_of_lt rank.isLt, Nat.zero_add]
    exact ⟨rank.val + cfg.numRanks * k, by rw [refreshTime, callTime, hmod, hdiv], hmod⟩

end MemoryTiming

namespace MemoryController

variable {s : MemoryController cfg E} {calls : List (Option cfg.Rank)} {j : ℕ}

/-- After `calls` the next call is the `j`-th one, and every counter holds the cycles that
are left until its rank is refreshed. -/
structure Scheduled (s : MemoryController cfg E) (calls : List (Option cfg.Rank)) (j : ℕ) :
    Prop where
  turn : s.refreshRank.val = j % cfg.numRanks
  due : (calls.length : ℤ) ≤ cfg.refreshTime j
  past : ∀ i < j, cfg.refreshTime i < calls.length
  counts : ∀ i < cfg.numRanks, ∀ rank : cfg.Rank, rank.val = (j + i) % cfg.numRanks →
    s.refreshCount rank = cfg.refreshTime (j + i) - calls.length
  called : ∀ (c : ℕ) (rank : cfg.Rank), calls[c]? = some (some rank) ↔
    ∃ i < j, cfg.refreshTime i = c ∧ i % cfg.numRanks = rank.val
  order : (calls.filterMap id).map (fun rank => rank.val) =
    (List.range j).map (fun i => i % cfg.numRanks)

theorem scheduled_new (h : (cfg.numRanks : ℤ) ≤ cfg.refreshCycles) :
    (new cfg E).Scheduled [] 0 := by
  have hinterval := MemoryTiming.one_le_refreshInterval h
  have htime : ∀ i < cfg.numRanks, cfg.refreshTime i = (i + 1) * cfg.refreshInterval := by
    intro i hi
    rw [MemoryTiming.refreshTime, callTime, Nat.mod_eq_of_lt hi, Nat.div_eq_of_lt hi]
    simp
  constructor
  case turn => exact (Nat.zero_mod _).symm
  case due =>
    rw [htime 0 cfg.numRanks_pos]
    simp
    omega
  case past => exact fun i hi => absurd hi (Nat.not_lt_zero i)
  case counts =>
    intro i hi rank hrank
    rw [Nat.zero_add, Nat.mod_eq_of_lt hi] at hrank
    rw [Nat.zero_add, htime i hi, ← hrank]
    simp [new, mul_comm]
  case called =>
    intro c rank
    simp
  case order => rfl

/-- The counter of the pointer is zero in the cycle of the next call, and not before. -/
theorem Scheduled.refreshCount_eq (hs : s.Scheduled calls j) :
    s.refreshCount s.refreshRank = cfg.refreshTime j - calls.length :=
  hs.counts 0 cfg.numRanks_pos s.refreshRank hs.turn

/-- Two positions less than a round apart belong to different ranks. -/
theorem add_mod_ne {i n : ℕ} (hi : 0 < i) (hn : i < n) : (j + i) % n ≠ j % n := by
  intro h
  have hzero := Nat.sub_mod_eq_zero_of_mod_eq h
  rw [Nat.add_sub_cancel_left, Nat.mod_eq_of_lt hn] at hzero
  omega

theorem Scheduled.wait (hs : s.Scheduled calls j) (hcount : s.refreshCount s.refreshRank ≠ 0)
    (now : ℤ) : (s.oneCycleOperation now).Scheduled (calls ++ [s.refreshCalled]) j := by
  have hcalled : s.refreshCalled = none := by rw [refreshCalled, if_neg hcount]
  have hlater : (calls.length : ℤ) < cfg.refreshTime j := by
    have hdue := hs.due
    rw [hs.refreshCount_eq] at hcount
    omega
  have hlength : ((calls ++ [s.refreshCalled]).length : ℤ) = calls.length + 1 := by simp
  constructor
  case turn =>
    rw [oneCycleOperation, if_neg hcount]
    exact hs.turn
  case due =>
    rw [hlength]
    omega
  case past =>
    intro i hi
    have := hs.past i hi
    rw [hlength]
    omega
  case counts =>
    intro i hi rank hrank
    rw [oneCycleOperation, if_neg hcount, hlength]
    dsimp only
    rw [hs.counts i hi rank hrank]
    ring
  case called =>
    intro c rank
    rw [getElem?_snoc_eq_some, hs.called c rank, hcalled]
    simp
  case order =>
    rw [hcalled, List.filterMap_append, List.map_append, hs.order]
    simp

theorem Scheduled.call (hs : s.Scheduled calls j) (h : (cfg.numRanks : ℤ) ≤ cfg.refreshCycles)
    (hcount : s.refreshCount s.refreshRank = 0) (now : ℤ) :
    (s.oneCycleOperation now).Scheduled (calls ++ [s.refreshCalled]) (j + 1) := by
  have hcalled : s.refreshCalled = some s.refreshRank := by rw [refreshCalled, if_pos hcount]
  have htime : cfg.refreshTime j = calls.length := by
    have hnow := hs.refreshCount_eq
    omega
  have hnext : cfg.refreshTime j < cfg.refreshTime (j + 1) :=
    MemoryTiming.refreshTime_lt h (Nat.lt_succ_self j)
  have hlength : ((calls ++ [s.refreshCalled]).length : ℤ) = calls.length + 1 := by simp
  constructor
  case turn =>
    rw [oneCycleOperation, if_pos hcount, callRefresh]
    dsimp only
    have hmod : j % cfg.numRanks < cfg.numRanks := Nat.mod_lt j cfg.numRanks_pos
    split
    case isTrue hlt =>
      rw [hs.turn] at hlt
      rw [Nat.add_mod, Nat.mod_eq_of_lt (a := 1) (by omega), Nat.mod_eq_of_lt hlt]
      exact congrArg (fun k => k + 1) hs.turn
    case isFalse hge =>
      rw [hs.turn] at hge
      have hlast : j % cfg.numRanks + 1 = cfg.numRanks := by omega
      rw [← Nat.mod_add_mod, hlast, Nat.mod_self]
      rfl
  case due =>
    rw [hlength]
    omega
  case past =>
    intro i hi
    rw [hlength]
    rcases Nat.lt_succ_iff_lt_or_eq.mp hi with hlt | rfl
    · have := hs.past i hlt
      omega
    · omega
  case counts =>
    intro i hi rank hrank
    rw [oneCycleOperation, if_pos hcount, hlength, callRefresh]
    dsimp only
    rcases Nat.lt_or_eq_of_le (Nat.succ_le_of_lt hi) with hlt | hlast
    · have hne : rank ≠ s.refreshRank := by
        intro heq
        rw [heq, hs.turn, Nat.add_assoc, Nat.add_comm 1 i] at hrank
        exact add_mod_ne (Nat.succ_pos i) hlt hrank.symm
      rw [Nat.add_assoc, Nat.add_comm 1 i] at hrank ⊢
      rw [Function.update_of_ne hne, hs.counts (i + 1) hlt rank hrank]
      ring
    · have hround : j + 1 + i = j + cfg.numRanks := by omega
      have heq : rank = s.refreshRank := by
        rw [hround, Nat.add_mod_right] at hrank
        exact Fin.ext (hrank.trans hs.turn.symm)
      have hperiod : cfg.refreshTime (j + cfg.numRanks) =
          cfg.refreshTime j + cfg.refreshCycles := callTime_add cfg.numRanks_pos
      rw [heq, Function.update_self, hround, hperiod, htime]
      ring
  case called =>
    intro c rank
    rw [getElem?_snoc_eq_some, hs.called c rank, hcalled]
    constructor
    · rintro (⟨i, hi, hrest⟩ | ⟨rfl, hrank⟩)
      · exact ⟨i, Nat.lt_succ_of_lt hi, hrest⟩
      · refine ⟨j, Nat.lt_succ_self j, htime, ?_⟩
        rw [← Option.some.inj hrank]
        exact hs.turn.symm
    · rintro ⟨i, hi, hc, hrank⟩
      rcases Nat.lt_succ_iff_lt_or_eq.mp hi with hlt | rfl
      · exact Or.inl ⟨i, hlt, hc, hrank⟩
      · refine Or.inr ⟨by omega, congrArg some (Fin.ext ?_)⟩
        rw [hs.turn, hrank]
  case order =>
    rw [hcalled, List.filterMap_append, List.map_append, hs.order, List.range_succ,
      List.map_append]
    simp [hs.turn]

theorem Run.scheduled (run : Run calls s) (h : (cfg.numRanks : ℤ) ≤ cfg.refreshCycles) :
    ∃ j, s.Scheduled calls j := by
  induction run with
  | new => exact ⟨0, scheduled_new h⟩
  | enqueue prior b henqueue ih =>
    obtain ⟨j, hs⟩ := ih
    exact ⟨j, hs.turn, hs.due, hs.past, hs.counts, hs.called, hs.order⟩
  | stateUpdate prior event hevent ih =>
    obtain ⟨j, hs⟩ := ih
    exact ⟨j, hs.turn, hs.due, hs.past, hs.counts, hs.called, hs.order⟩
  | @memoryCycle calls s prior now ih =>
    obtain ⟨j, hs⟩ := ih
    by_cases hcount : s.refreshCount s.refreshRank = 0
    · exact ⟨j + 1, hs.call h hcount now⟩
    · exact ⟨j, hs.wait hcount now⟩

theorem five_quarters_pos : (0 : ℚ) < 5 / 4 := by norm_num

theorem four_eq_floor : (4 : ℤ) = ⌊((5 : ℕ) : ℚ) / (5 / 4)⌋ := by norm_num

theorem four_lt : (4 : ℤ) < 2 ^ 31 := by norm_num

/-- Two ranks, a period of five nanoseconds and cycles of a nanosecond and a quarter. -/
def twoRanks : MemoryTiming where
  rowBufferPolicy := .openPage
  schedulingPolicy := .rankThenBankRoundRobin
  queuingStructure := .perRank
  numRanks := 2
  numBanks := 8
  numRanks_pos := Nat.two_pos
  numBanks_pos := Nat.succ_pos 7
  totalRowAccesses := 4
  cpuRamRatio := 4
  tCCD := 16
  tBL := 32
  tCL := 44
  tAL := 0
  tRP := 44
  tCMD := 4
  tRC := 156
  tRCD := 44
  tRAS := 112
  tRFC := 352
  tRTRS := 4
  tRRD := 20
  tFAW := 24
  tRTP := 24
  tWTR := 24
  tWR := 48
  refreshCycles := 4
  refreshPeriod := 5
  tCK := 5 / 4
  tCK_pos := five_quarters_pos
  refreshCycles_eq := four_eq_floor
  refreshCycles_lt := four_lt

end MemoryController

end Tejas
