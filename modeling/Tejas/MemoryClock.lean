import Mathlib.Algebra.Order.Floor.Div
import Mathlib.Algebra.Ring.Nat
import Mathlib.Data.Nat.ModEq

/-!
# The clock of the memory

The memory controllers run at a clock that is no faster than that of the cores. Two counters
say when a controller cycle is due: one grows with every core cycle by the frequency of the
memory, the other with every controller cycle by the frequency of the cores, and both start
again when they meet.
-/

namespace Tejas

/-- The counters, and how often the controllers have been stepped. -/
structure MemoryClock where
  counter1 : ℕ
  counter2 : ℕ
  controllerCycles : ℕ

/-- What a core has to do at the start of `runPipelines`. -/
structure PipelineInput where
  inputSize : ℕ
  decodeWidth : ℕ
  coreStepSize : ℕ

namespace MemoryClock

variable {CoreClock RAMclock n : ℕ} {s : MemoryClock}

def new : MemoryClock := ⟨0, 0, 0⟩

/-- A controller cycle is run in this core cycle, if one is due. -/
def runMemory (CoreClock RAMclock : ℕ) (s : MemoryClock) : MemoryClock :=
  let counter1 := s.counter1 + RAMclock
  if s.counter2 < counter1 then
    { counter1 := counter1
      counter2 := s.counter2 + CoreClock
      controllerCycles := s.controllerCycles + 1 }
  else { s with counter1 := counter1 }

/-- Counters that meet start again. -/
def restart (s : MemoryClock) : MemoryClock :=
  if s.counter1 = s.counter2 then { s with counter1 := 0, counter2 := 0 } else s

/-- One core cycle. -/
def cycle (CoreClock RAMclock : ℕ) (s : MemoryClock) : MemoryClock :=
  (s.runMemory CoreClock RAMclock).restart

/-- The number of core cycles of one call of `runPipelines`: the least of the cores that have
something to do. -/
def minN (cores : List PipelineInput) : ℕ :=
  let n := cores.foldl
    (fun minN core =>
      let n := core.inputSize / core.decodeWidth * core.coreStepSize
      if n < minN ∧ n ≠ 0 then n else minN) (2 ^ 31 - 1)
  if n = 2 ^ 31 - 1 then 0 else n

def runPipelines (CoreClock RAMclock : ℕ) (s : MemoryClock) (cores : List PipelineInput) :
    MemoryClock :=
  (cycle CoreClock RAMclock)^[minN cores] s

/-- After `n` core cycles: the controllers are ahead by less than one cycle, and the counters
have not passed a common multiple of the frequencies. -/
structure Accurate (CoreClock RAMclock n : ℕ) (s : MemoryClock) : Prop where
  balance : n * RAMclock + s.counter2 = s.controllerCycles * CoreClock + s.counter1
  ahead : s.counter1 ≤ s.counter2
  notFar : s.counter2 < s.counter1 + CoreClock
  dvd1 : RAMclock ∣ s.counter1
  dvd2 : CoreClock ∣ s.counter2
  bound1 : s.counter1 ≤ Nat.lcm RAMclock CoreClock
  bound2 : s.counter2 ≤ Nat.lcm RAMclock CoreClock

theorem accurate_new (hC : 0 < CoreClock) : Accurate CoreClock RAMclock 0 new := by
  constructor <;> simp [new, hC]

/-- Below a multiple there is room for one more step. -/
theorem add_le_of_dvd {d a b : ℕ} (ha : d ∣ a) (hb : d ∣ b) (hlt : a < b) : a + d ≤ b := by
  have hmod : a ≡ b [MOD d] :=
    (Nat.modEq_zero_iff_dvd.mpr ha).trans (Nat.modEq_zero_iff_dvd.mpr hb).symm
  exact hmod.add_le_of_lt hlt

namespace Accurate

/-- The counters meet before they pass the common multiple. -/
theorem counter1_lt (h : Accurate CoreClock RAMclock n s) (hne : s.counter1 ≠ s.counter2) :
    s.counter1 < Nat.lcm RAMclock CoreClock := by
  refine lt_of_le_of_ne h.bound1 (fun heq => hne ?_)
  have hdvd : CoreClock ∣ s.counter1 := heq ▸ Nat.dvd_lcm_right _ _
  by_contra hne
  have hstep := add_le_of_dvd hdvd h.dvd2 (lt_of_le_of_ne h.ahead hne)
  exact absurd h.notFar (not_lt.mpr hstep)

theorem runMemory (h : Accurate CoreClock RAMclock n s) (hle : RAMclock ≤ CoreClock)
    (hroom : s.counter1 < Nat.lcm RAMclock CoreClock) :
    Accurate CoreClock RAMclock (n + 1) (s.runMemory CoreClock RAMclock) := by
  have hbalance := h.balance
  have hahead := h.ahead
  have hfar := h.notFar
  have hdvd1 : RAMclock ∣ s.counter1 + RAMclock := Nat.dvd_add h.dvd1 (Nat.dvd_refl _)
  have hbound1 : s.counter1 + RAMclock ≤ Nat.lcm RAMclock CoreClock :=
    add_le_of_dvd h.dvd1 (Nat.dvd_lcm_left _ _) hroom
  rw [MemoryClock.runMemory]
  split
  · rename_i hdue
    refine ⟨?_, ?_, ?_, hdvd1, Nat.dvd_add h.dvd2 (Nat.dvd_refl _), hbound1, ?_⟩
    · simp only [Nat.add_mul, one_mul]
      omega
    · simp only
      omega
    · simp only
      omega
    · exact add_le_of_dvd h.dvd2 (Nat.dvd_lcm_right _ _) (lt_of_lt_of_le hdue hbound1)
  · rename_i hdue
    refine ⟨?_, not_lt.mp hdue, ?_, hdvd1, h.dvd2, hbound1, h.bound2⟩
    · simp only [Nat.add_mul, one_mul]
      omega
    · simp only
      omega

theorem restart (h : Accurate CoreClock RAMclock n s) (hC : 0 < CoreClock)
    (hR : 0 < RAMclock) :
    Accurate CoreClock RAMclock n s.restart ∧
      s.restart.counter1 < Nat.lcm RAMclock CoreClock := by
  rw [MemoryClock.restart]
  split
  · rename_i hmeet
    have hbalance := h.balance
    refine ⟨⟨?_, le_rfl, by simpa using hC, Nat.dvd_zero _, Nat.dvd_zero _, Nat.zero_le _,
      Nat.zero_le _⟩, Nat.lcm_pos hR hC⟩
    simp only
    omega
  · rename_i hmeet
    exact ⟨h, h.counter1_lt hmeet⟩

theorem iterate (h : Accurate CoreClock RAMclock n s)
    (hroom : s.counter1 < Nat.lcm RAMclock CoreClock) (hR : 0 < RAMclock)
    (hle : RAMclock ≤ CoreClock) (m : ℕ) :
    Accurate CoreClock RAMclock (n + m) ((cycle CoreClock RAMclock)^[m] s) ∧
      ((cycle CoreClock RAMclock)^[m] s).counter1 < Nat.lcm RAMclock CoreClock := by
  induction m with
  | zero => exact ⟨h, hroom⟩
  | succ m ih =>
    rw [Function.iterate_succ_apply']
    exact (ih.1.runMemory hle ih.2).restart (lt_of_lt_of_le hR hle) hR

/-- The controllers have made as many cycles as fit, rounded up. -/
theorem controllerCycles_eq (h : Accurate CoreClock RAMclock n s) (hC : 0 < CoreClock) :
    s.controllerCycles = (n * RAMclock) ⌈/⌉ CoreClock := by
  have hbalance := h.balance
  have hahead := h.ahead
  have hfar := h.notFar
  rw [Nat.ceilDiv_eq_add_pred_div]
  symm
  apply Nat.div_eq_of_lt_le
  · omega
  · rw [Nat.add_mul, one_mul]
    omega

end Accurate

end MemoryClock

end Tejas
