import Tejas.TageHistories
import Tejas.LabelledRuns

/-!
# The GAp branch predictor

One history register chooses, with the low bits of the address, a saturating counter. After
a branch the register is shifted and masked. `initialBHR` is the mask of the register
already, so the mask that the code takes from it, one less, also clears the newest outcome.
-/

namespace Tejas.GAp
open Tage LabelledRuns

/-- The sizes of the predictor. The table has `1 << (PCBits + BHRsize)` counters, and an
array has fewer than `1 << 31` entries. -/
structure Config where
  BHRsize : ℕ
  PCBits : ℕ
  saturatingBits : ℕ
  fits : PCBits + BHRsize ≤ 30

namespace Config

variable (cfg : Config)

def initialBHR : JInt := mask (BitVec.ofNat 32 cfg.BHRsize)
def maskbits : JInt := mask (BitVec.ofNat 32 cfg.PCBits)
def numStates : JInt := mask (BitVec.ofNat 32 cfg.saturatingBits)

end Config

structure GApPredictor (cfg : Config) where
  PHT : List JInt
  BHR : JInt

variable {cfg : Config}

namespace GApPredictor

def new (cfg : Config) : GApPredictor cfg where
  PHT := List.replicate (2 ^ (cfg.PCBits + cfg.BHRsize)) cfg.numStates
  BHR := cfg.initialBHR

variable (p : GApPredictor cfg)

def index (address : BitVec 64) : JInt :=
  shl p.BHR (BitVec.ofNat 32 cfg.PCBits) + (address &&& cfg.maskbits.signExtend 64).setWidth 32

/-- The history register after a branch. -/
def nextBHR (outcome : Bool) : JInt :=
  let BHR := shl p.BHR 1
  let BHR := if outcome then BHR + 1 else BHR
  BHR &&& (cfg.initialBHR - 1)

/-- A saturating counter after a branch. -/
def nextCount (numStates count : JInt) (outcome : Bool) : JInt :=
  if outcome = true ∧ count ≠ numStates then count + 1
  else if outcome = false ∧ count ≠ 0 then count - 1
  else count

/-- `Train`. An index that is out of bounds is an exception; a negative one is, too, since no
array is that long. -/
def train (b : Branch) : Option (GApPredictor cfg) :=
  let index := (p.index b.address).toNat
  (p.PHT[index]?).map (fun count =>
    ⟨p.PHT.set index (nextCount cfg.numStates count b.outcome), p.nextBHR b.outcome⟩)

def predict (address : BitVec 64) : Option Bool :=
  (p.PHT[(p.index address).toNat]?).map
    (fun count => decide ((cfg.numStates.sdiv 2).toInt < count.toInt))

/-- What is expected of the predictor after some branches: the register holds their newest
outcomes, the newest one in the lowest bit, the counters are in range, and every address has
its counter. -/
structure Records (p : GApPredictor cfg) (outcomes : List Bool) : Prop where
  register : p.BHR.toNat < 2 ^ cfg.BHRsize
  history : ∀ i < cfg.BHRsize, ∀ outcome, outcomes.reverse[i]? = some outcome →
    p.BHR.getLsbD i = outcome
  counters : ∀ count ∈ p.PHT, 0 ≤ count.toInt ∧ count.toInt ≤ cfg.numStates.toInt
  indices : ∀ address, (p.index address).toNat < p.PHT.length

/-! ### Counters and indices -/

/-- The sizes fit together. -/
structure Bounded (p : GApPredictor cfg) : Prop where
  length : p.PHT.length = 2 ^ (cfg.PCBits + cfg.BHRsize)
  register : p.BHR.toNat < 2 ^ cfg.BHRsize
  counters : ∀ count ∈ p.PHT, count.toNat ≤ cfg.numStates.toNat

theorem toNat_initialBHR (cfg : Config) : cfg.initialBHR.toNat = 2 ^ cfg.BHRsize - 1 := by
  have := cfg.fits
  exact toNat_mask (by omega)

theorem toNat_maskbits (cfg : Config) : cfg.maskbits.toNat = 2 ^ cfg.PCBits - 1 := by
  have := cfg.fits
  exact toNat_mask (by omega)

/-- The range of a counter has no negative numbers. -/
theorem mask_lt (n : JInt) : (mask n).toNat < 2 ^ 31 := by
  have hpow : 2 ^ (n.toNat % 32) ≤ 2 ^ 31 := Nat.pow_le_pow_right (by decide) (by omega)
  have := Nat.two_pow_pos (n.toNat % 32)
  rw [toNat_mask_mod]
  omega

theorem toInt_of_le {count numStates : JInt} (hlt : numStates.toNat < 2 ^ 31)
    (h : count.toNat ≤ numStates.toNat) :
    0 ≤ count.toInt ∧ count.toInt ≤ numStates.toInt := by
  rw [BitVec.toInt_eq_toNat_of_lt (by omega), BitVec.toInt_eq_toNat_of_lt (by omega)]
  omega

theorem nextCount_le {count numStates : JInt} (hlt : numStates.toNat < 2 ^ 31)
    (h : count.toNat ≤ numStates.toNat) (outcome : Bool) :
    (nextCount numStates count outcome).toNat ≤ numStates.toNat := by
  rw [nextCount]
  split
  case isTrue hup =>
    have hne := hup.2
    bv_omega
  case isFalse =>
    split
    case isTrue hdown =>
      have hne := hdown.2
      bv_omega
    case isFalse => exact h

/-- `(int) (address & maskbits)` -/
theorem toNat_low {maskbits : JInt} {m : ℕ} (hmask : maskbits.toNat = 2 ^ m - 1) (hm : m ≤ 30)
    (address : BitVec 64) :
    ((address &&& maskbits.signExtend 64).setWidth 32).toNat = address.toNat % 2 ^ m := by
  have hpow : 2 ^ m ≤ 2 ^ 30 := Nat.pow_le_pow_right (by decide) hm
  have hlt : address.toNat % 2 ^ m < 2 ^ m := Nat.mod_lt _ (Nat.two_pow_pos m)
  have hmsb : maskbits.msb = false := by
    rw [BitVec.msb_eq_decide, decide_eq_false_iff_not]
    omega
  rw [BitVec.signExtend_eq_setWidth_of_msb_false hmsb, BitVec.toNat_setWidth, BitVec.toNat_and,
    BitVec.toNat_setWidth, Nat.mod_eq_of_lt (a := maskbits.toNat) (by omega), hmask,
    Nat.and_two_pow_sub_one_eq_mod, Nat.mod_eq_of_lt (by omega)]

theorem toNat_low_lt (cfg : Config) (address : BitVec 64) :
    ((address &&& cfg.maskbits.signExtend 64).setWidth 32).toNat < 2 ^ cfg.PCBits := by
  have := cfg.fits
  rw [toNat_low (toNat_maskbits cfg) (by omega)]
  exact Nat.mod_lt _ (Nat.two_pow_pos cfg.PCBits)

theorem Bounded.index_lt {p : GApPredictor cfg} (hp : p.Bounded) (address : BitVec 64) :
    (p.index address).toNat < p.PHT.length := by
  have hfits := cfg.fits
  have hregister := hp.register
  have hpow : 2 ^ (cfg.PCBits + cfg.BHRsize) ≤ 2 ^ 30 :=
    Nat.pow_le_pow_right (by decide) cfg.fits
  have hhigh : (p.BHR.toNat + 1) * 2 ^ cfg.PCBits ≤ 2 ^ cfg.BHRsize * 2 ^ cfg.PCBits :=
    Nat.mul_le_mul_right _ hregister
  rw [← Nat.pow_add, Nat.add_comm cfg.BHRsize, Nat.add_mul, Nat.one_mul] at hhigh
  have hlow := toNat_low_lt cfg address
  rw [hp.length, index, BitVec.toNat_add, toNat_shl_ofNat _ (by omega), Nat.shiftLeft_eq,
    Nat.mod_eq_of_lt (a := p.BHR.toNat * 2 ^ cfg.PCBits) (by omega), Nat.mod_eq_of_lt (by omega)]
  omega

theorem Bounded.train {p : GApPredictor cfg} (hp : p.Bounded) (b : Branch)
    (hnext : (p.nextBHR b.outcome).toNat < 2 ^ cfg.BHRsize) :
    ∃ p', p.train b = some p' ∧ p'.Bounded ∧ p'.BHR = p.nextBHR b.outcome := by
  have hindex := hp.index_lt b.address
  have htrain : p.train b = some ⟨p.PHT.set (p.index b.address).toNat
      (nextCount cfg.numStates p.PHT[(p.index b.address).toNat] b.outcome),
      p.nextBHR b.outcome⟩ := by
    rw [GApPredictor.train, List.getElem?_eq_getElem hindex]
    rfl
  refine ⟨_, htrain, ⟨?_, hnext, ?_⟩, rfl⟩
  case refine_1 =>
    rw [List.length_set]
    exact hp.length
  case refine_2 =>
    intro count hcount
    rcases List.mem_or_eq_of_mem_set hcount with hmem | rfl
    · exact hp.counters count hmem
    · exact nextCount_le (mask_lt _) (hp.counters _ (List.getElem_mem hindex)) _

theorem bounded_new (cfg : Config) : (new cfg).Bounded := by
  refine ⟨List.length_replicate, ?_, ?_⟩
  · have := Nat.two_pow_pos cfg.BHRsize
    rw [new, toNat_initialBHR]
    omega
  · intro count hcount
    exact Nat.le_of_eq (congrArg BitVec.toNat (List.eq_of_mem_replicate hcount))

/-! ### The history -/

/-- The mask of the register clears the newest outcome. -/
theorem toNat_clearMask (cfg : Config) (h : 1 ≤ cfg.BHRsize) :
    (cfg.initialBHR - 1).toNat = 2 * (2 ^ (cfg.BHRsize - 1) - 1) := by
  obtain ⟨n, hn⟩ := Nat.exists_eq_add_of_le' h
  have hmask := toNat_initialBHR cfg
  have hpos := Nat.two_pow_pos n
  have hunit : (1 : JInt).toNat = 1 := rfl
  rw [hn, Nat.pow_succ] at hmask
  rw [BitVec.toNat_sub_of_le (by rw [BitVec.le_def]; omega), hunit, hmask, hn,
    Nat.add_sub_cancel]
  omega

theorem nextBHR_lt (h : 1 ≤ cfg.BHRsize) (p : GApPredictor cfg) (outcome : Bool) :
    (p.nextBHR outcome).toNat < 2 ^ cfg.BHRsize := by
  have hmask := toNat_initialBHR cfg
  have hpos := Nat.two_pow_pos cfg.BHRsize
  have hclear : (cfg.initialBHR - 1).toNat < 2 ^ cfg.BHRsize := by
    have hge : 2 ^ 1 ≤ 2 ^ cfg.BHRsize := Nat.pow_le_pow_right (by decide) h
    rw [BitVec.toNat_sub_of_le (by rw [BitVec.le_def, hmask]; simp; omega), hmask]
    omega
  rw [nextBHR, BitVec.toNat_and]
  exact Nat.lt_of_le_of_lt Nat.and_le_right hclear

/-- A register after a branch, before it is masked. -/
theorem toNat_shifted (BHR : JInt) (outcome : Bool) :
    (if outcome then shl BHR 1 + 1 else shl BHR 1).toNat =
      BHR.toNat * 2 % 2 ^ 32 + outcome.toNat := by
  have hshift : (shl BHR 1).toNat = BHR.toNat * 2 % 2 ^ 32 := by
    have h := toNat_shl_ofNat BHR (k := 1) (by decide)
    rwa [Nat.shiftLeft_eq, Nat.pow_one] at h
  cases outcome with
  | false => exact hshift
  | true =>
    have hunit : (1 : JInt).toNat = 1 := rfl
    rw [if_pos rfl, BitVec.toNat_add, hshift, hunit, Bool.toNat_true]
    omega

/-- The bits that the branches have shifted in are zero. -/
def Cleared (p : GApPredictor cfg) (k : ℕ) : Prop :=
  ∀ i < k, i < cfg.BHRsize → p.BHR.getLsbD i = false

theorem cleared_nextBHR {p p' : GApPredictor cfg} {k : ℕ} {outcome : Bool}
    (hp : p.Cleared k) (hnext : p'.BHR = p.nextBHR outcome) : p'.Cleared (k + 1) := by
  intro i hi hsize
  have hclear := toNat_clearMask cfg (by omega)
  have hfits := cfg.fits
  rw [hnext, nextBHR, BitVec.getLsbD_and]
  cases i with
  | zero =>
    rw [BitVec.getLsbD, BitVec.getLsbD, hclear]
    simp
  | succ i =>
    have hold := hp i (by omega) (by omega)
    have hbit : (p.BHR.toNat * 2 % 2 ^ 32 + outcome.toNat) / 2 = p.BHR.toNat % 2 ^ 31 := by
      have := Bool.toNat_le outcome
      omega
    rw [BitVec.getLsbD] at hold
    rw [BitVec.getLsbD, toNat_shifted, Nat.testBit_succ, hbit, Nat.testBit_mod_two_pow, hold]
    simp

theorem train_BHR {p p' : GApPredictor cfg} {b : Branch} (h : p.train b = some p') :
    p'.BHR = p.nextBHR b.outcome := by
  obtain ⟨count, -, rfl⟩ := Option.map_eq_some_iff.mp h
  rfl

/-- An outcome that is not taken keeps an empty register empty. -/
theorem nextBHR_lt_of_register {p : GApPredictor cfg} (outcome : Bool)
    (hregister : p.BHR.toNat < 2 ^ cfg.BHRsize) (h : 1 ≤ cfg.BHRsize ∨ outcome = false) :
    (p.nextBHR outcome).toNat < 2 ^ cfg.BHRsize := by
  rcases Nat.eq_zero_or_pos cfg.BHRsize with hzero | hpos
  · obtain rfl : outcome = false := h.resolve_left (by omega)
    have hshifted := toNat_shifted p.BHR false
    rw [hzero] at hregister ⊢
    rw [if_neg (by simp), Bool.toNat_false] at hshifted
    rw [nextBHR, if_neg (by simp), BitVec.toNat_and]
    exact Nat.lt_of_le_of_lt Nat.and_le_left (by omega)
  · exact nextBHR_lt hpos p outcome

/-- The predictor after a sequence of branches. -/
theorem exec_train (branches : List Branch)
    (h : 1 ≤ cfg.BHRsize ∨ ∀ b ∈ branches, b.outcome = false) :
    ∃ p, exec train (new cfg) branches = some p ∧ p.Bounded ∧ p.Cleared branches.length := by
  induction branches using List.reverseRecOn with
  | nil => exact ⟨new cfg, rfl, bounded_new cfg, fun i hi => absurd hi (Nat.not_lt_zero i)⟩
  | append_singleton branches b ih =>
    obtain ⟨p, hp, hbounded, hcleared⟩ :=
      ih (h.imp_right (fun hall b' hb' => hall b' (List.mem_append_left _ hb')))
    have hlt := nextBHR_lt_of_register b.outcome hbounded.register
      (h.imp_right (fun hall => hall b (by simp)))
    obtain ⟨p', hp', hbounded', hBHR⟩ := hbounded.train b hlt
    refine ⟨p', ?_, hbounded', ?_⟩
    · rw [exec_append_singleton, hp]
      exact hp'
    · rw [List.length_append, List.length_singleton]
      exact cleared_nextBHR hcleared hBHR

/-- After every branch of the sequence the predictor holds what is expected. -/
def RecordsOutcomes (cfg : Config) (branches : List Branch) : Prop :=
  ∀ before after, branches = before ++ after → before ≠ [] →
    ∃ p, exec train (new cfg) before = some p ∧
      p.Records (before.map (fun b => b.outcome))

/-- A taken branch is not recorded: the register that should end in it has a zero there, or a
one where no bit should be. -/
theorem not_taken_of_records {branches : List Branch} (h : RecordsOutcomes cfg branches)
    {b : Branch} (hb : b ∈ branches) : b.outcome = false := by
  obtain ⟨before, after, rfl⟩ := List.append_of_mem hb
  obtain ⟨p, hp, hrecords⟩ := h (before ++ [b]) after (by simp) (by simp)
  rw [exec_append_singleton] at hp
  obtain ⟨p₀, -, htrain⟩ := Option.bind_eq_some_iff.mp hp
  have hBHR := train_BHR htrain
  rcases Nat.eq_zero_or_pos cfg.BHRsize with hzero | hpos
  · by_contra htaken
    rw [Bool.not_eq_false] at htaken
    have hregister := hrecords.register
    have hshifted := toNat_shifted p₀.BHR true
    have hmask := toNat_initialBHR cfg
    have hall : (cfg.initialBHR - 1).toNat = 2 ^ 32 - 1 := by
      rw [hzero] at hmask
      bv_omega
    rw [if_pos rfl, Bool.toNat_true] at hshifted
    rw [hzero, hBHR, htaken, nextBHR, if_pos rfl, BitVec.toNat_and, hall,
      Nat.and_two_pow_sub_one_eq_mod, hshifted] at hregister
    omega
  · have hnewest := hrecords.history 0 hpos b.outcome (by simp)
    have hstart : p₀.Cleared 0 := fun i hi => absurd hi (Nat.not_lt_zero i)
    rw [← hnewest]
    exact cleared_nextBHR hstart hBHR 0 Nat.one_pos hpos

end GApPredictor

end Tejas.GAp
