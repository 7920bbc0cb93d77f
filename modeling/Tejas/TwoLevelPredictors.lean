import Tejas.GApPredictor
import Tejas.TwoLevelTables

/-!
# The GAg, GShare, PAg and PAp branch predictors

Four predictors with a history of outcomes and saturating counters. GAg and GShare keep one
history, PAg and PAp one for each value of the low bits of the address. The history alone
chooses the counter in GAg and PAg, with the low bits of the address in GShare, and inside a
table of its own in PAp.
-/

namespace Tejas.TwoLevel
open Tage LabelledRuns TwoLevelTables GAp.GApPredictor

/-- An array of equal values. A negative length is an exception. -/
def newArray {α : Type} (length : JInt) (value : α) : Option (List α) :=
  if length.toInt < 0 then none else some (List.replicate length.toNat value)

/-- `(int) Math.pow(2, n)` -/
def powerOfTwo (n : JInt) : JInt :=
  if n.toInt < 0 then 0 else if n.toInt < 31 then shl 1 n else BitVec.intMax 32

/-- A history register after a branch. -/
def nextBHR (maskbits BHR : JInt) (outcome : Bool) : JInt :=
  let BHR := shl BHR 1
  let BHR := if outcome then BHR + 1 else BHR
  BHR &&& maskbits

/-- What a counter predicts. -/
def predicted (num_states count : JInt) : Bool := decide ((num_states.sdiv 2).toInt < count.toInt)

/-! ### GAg -/

structure GAgpredictor where
  PHT : List JInt
  BHR : JInt
  initialBHR : JInt
  num_states : JInt

namespace GAgpredictor

def new (BHRsize saturating_bits : JInt) : Option GAgpredictor := do
  let initialBHR := powerOfTwo BHRsize
  let num_states := mask saturating_bits
  let PHT ← newArray initialBHR num_states
  return ⟨PHT, initialBHR - 1, initialBHR, num_states⟩

def train (p : GAgpredictor) (b : Branch) : Option GAgpredictor := do
  let count ← p.PHT[p.BHR.toNat]?
  return { p with
    PHT := p.PHT.set p.BHR.toNat (nextCount p.num_states count b.outcome)
    BHR := nextBHR (p.initialBHR - 1) p.BHR b.outcome }

def predict (p : GAgpredictor) (_address : BitVec 64) : Option Bool := do
  let count ← p.PHT[p.BHR.toNat]?
  return predicted p.num_states count

end GAgpredictor

/-! ### GShare -/

structure GShare where
  PHT : List JInt
  BHR : JInt
  num_states : JInt
  maskbits : JInt

namespace GShare

def new (BHRsize saturating_bits : JInt) : Option GShare := do
  let BHR := mask BHRsize
  let num_states := mask saturating_bits
  let PHT ← newArray (BHR + 1) num_states
  return ⟨PHT, BHR, num_states, BHR⟩

/-- `((int) address & maskbits) ^ BHR` -/
def index (p : GShare) (address : BitVec 64) : JInt :=
  (address.setWidth 32 &&& p.maskbits) ^^^ p.BHR

def train (p : GShare) (b : Branch) : Option GShare := do
  let index := p.index b.address
  let count ← p.PHT[index.toNat]?
  return { p with
    PHT := p.PHT.set index.toNat (nextCount p.num_states count b.outcome)
    BHR := nextBHR p.maskbits p.BHR b.outcome }

def predict (p : GShare) (address : BitVec 64) : Option Bool := do
  let count ← p.PHT[(p.index address).toNat]?
  return predicted p.num_states count

end GShare

/-! ### PAg -/

/-- `(int) (maskbits & address)` -/
def lowAddress (maskbits : JInt) (address : BitVec 64) : JInt :=
  (maskbits.signExtend 64 &&& address).setWidth 32

structure PAgPredictor where
  PBHT : List JInt
  PHT : List JInt
  initialBHR : JInt
  num_states : JInt
  maskbits : JInt

namespace PAgPredictor

def new (PCBits BHRsize saturating_bits : JInt) : Option PAgPredictor := do
  let maskbits := mask PCBits
  let PBHT ← newArray (maskbits + 1) 0
  let num_states := mask saturating_bits
  let initialBHR := mask BHRsize
  let PHT ← newArray (initialBHR + 1) num_states
  return ⟨PBHT, PHT, initialBHR, num_states, maskbits⟩

def train (p : PAgPredictor) (b : Branch) : Option PAgPredictor := do
  let index := lowAddress p.maskbits b.address
  let BHR ← p.PBHT[index.toNat]?
  let count ← p.PHT[BHR.toNat]?
  return { p with
    PHT := p.PHT.set BHR.toNat (nextCount p.num_states count b.outcome)
    PBHT := p.PBHT.set index.toNat (nextBHR p.initialBHR BHR b.outcome) }

def predict (p : PAgPredictor) (address : BitVec 64) : Option Bool := do
  let BHR ← p.PBHT[(lowAddress p.maskbits address).toNat]?
  let count ← p.PHT[BHR.toNat]?
  return predicted p.num_states count

end PAgPredictor

/-! ### PAp -/

structure PApPredictor where
  PBHT : List JInt
  PPHT : List (List JInt)
  initialBHR : JInt
  num_states : JInt
  maskbits : JInt

namespace PApPredictor

def new (PCBits BHRsize saturating_bits : JInt) : Option PApPredictor := do
  let maskbits := mask PCBits
  let PBHT ← newArray (maskbits + 1) 0
  let num_states := mask saturating_bits
  let initialBHR := mask BHRsize
  let row ← newArray (initialBHR + 1) num_states
  let PPHT ← newArray (maskbits + 1) row
  return ⟨PBHT, PPHT, initialBHR, num_states, maskbits⟩

def train (p : PApPredictor) (b : Branch) : Option PApPredictor := do
  let index := lowAddress p.maskbits b.address
  let BHR ← p.PBHT[index.toNat]?
  let row ← p.PPHT[index.toNat]?
  let count ← row[BHR.toNat]?
  return { p with
    PPHT := p.PPHT.set index.toNat
      (row.set BHR.toNat (nextCount p.num_states count b.outcome))
    PBHT := p.PBHT.set index.toNat (nextBHR p.initialBHR BHR b.outcome) }

def predict (p : PApPredictor) (address : BitVec 64) : Option Bool := do
  let index := lowAddress p.maskbits address
  let BHR ← p.PBHT[index.toNat]?
  let row ← p.PPHT[index.toNat]?
  let count ← row[BHR.toNat]?
  return predicted p.num_states count

end PApPredictor

/-! ### What is expected of them -/

/-- The registers, the counters and the predictions of a predictor. -/
structure Contents (K I : Type) where
  register : K → Option JInt
  counter : I → Option JInt
  predict : BitVec 64 → Option Bool

/-- The branches as accesses to the tables. -/
def accesses (branches : List Branch) : List (BitVec 64 × Bool) :=
  branches.map (fun b => (b.address, b.outcome))

variable {K I : Type} [DecidableEq K] [DecidableEq I]

/-- After some branches every register holds the latest outcomes, the newest in the lowest
bit, every counter the saturating count of its outcomes, and a prediction is that of the
counter which the next branch would train. -/
structure Follows (s : Scheme (BitVec 64) K I) (c : Contents K I) (branches : List Branch) :
    Prop where
  register : ∀ address, ∃ BHR, c.register (s.key address) = some BHR ∧
    BHR.toNat = s.history (accesses branches) (s.key address) ∧ BHR.toNat < 2 ^ s.bits ∧
    ∀ i < s.bits, ∀ outcome,
      (s.outcomesOf (accesses branches) (s.key address)).reverse[i]? = some outcome →
        BHR.getLsbD i = outcome
  counter : ∀ address, ∀ history < 2 ^ s.bits, ∃ count,
    c.counter (s.index address history) = some count ∧
      count.toInt = s.count (accesses branches) (s.index address history)
  prediction : ∀ address, c.predict address = some (decide (s.top / 2 <
    s.count (accesses branches)
      (s.index address (s.history (accesses branches) (s.key address)))))

/-- The sizes as the shifts take them: the low five bits. -/
def shiftSize (n : JInt) : ℕ := n.toNat % 32

/-- The number of the states of a counter, less one. -/
def topState (saturating_bits : JInt) : ℕ := 2 ^ shiftSize saturating_bits - 1

/-- One register, which is the index. -/
def GAgpredictor.scheme (bits top : ℕ) : Scheme (BitVec 64) Unit ℕ where
  bits := bits
  top := top
  start := 2 ^ bits - 1
  key _ := ()
  index _ history := history

/-- One register, which the low bits of the address change into the index. -/
def GShare.scheme (bits top : ℕ) : Scheme (BitVec 64) Unit ℕ where
  bits := bits
  top := top
  start := 2 ^ bits - 1
  key _ := ()
  index address history := address.toNat % 2 ^ bits ^^^ history

/-- A register for the low bits of the address, and one table of counters. -/
def PAgPredictor.scheme (lowBits bits top : ℕ) : Scheme (BitVec 64) ℕ ℕ where
  bits := bits
  top := top
  start := 0
  key address := address.toNat % 2 ^ lowBits
  index _ history := history

/-- A register and a table of counters for the low bits of the address. -/
def PApPredictor.scheme (lowBits bits top : ℕ) : Scheme (BitVec 64) ℕ (ℕ × ℕ) where
  bits := bits
  top := top
  start := 0
  key address := address.toNat % 2 ^ lowBits
  index address history := (address.toNat % 2 ^ lowBits, history)

def GAgpredictor.contents (p : GAgpredictor) : Contents Unit ℕ where
  register _ := some p.BHR
  counter i := p.PHT[i]?
  predict := p.predict

def GShare.contents (p : GShare) : Contents Unit ℕ where
  register _ := some p.BHR
  counter i := p.PHT[i]?
  predict := p.predict

def PAgPredictor.contents (p : PAgPredictor) : Contents ℕ ℕ where
  register k := p.PBHT[k]?
  counter i := p.PHT[i]?
  predict := p.predict

def PApPredictor.contents (p : PApPredictor) : Contents ℕ (ℕ × ℕ) where
  register k := p.PBHT[k]?
  counter i := p.PPHT[i.1]?.bind (fun row => row[i.2]?)
  predict := p.predict

/-! ### Registers and counters as numbers -/

theorem toNat_nextBHR {maskbits BHR : JInt} {n : ℕ} (hmask : maskbits.toNat = 2 ^ n - 1)
    (hn : n ≤ 30) (hBHR : BHR.toNat < 2 ^ n) (outcome : Bool) :
    (nextBHR maskbits BHR outcome).toNat = shiftIn n BHR.toNat outcome := by
  have hpow : 2 ^ n ≤ 2 ^ 30 := Nat.pow_le_pow_right (by decide) hn
  rw [nextBHR, BitVec.toNat_and, toNat_shifted, hmask, Nat.and_two_pow_sub_one_eq_mod,
    Nat.mod_eq_of_lt (a := BHR.toNat * 2) (by omega), shiftIn]

theorem toNat_nextCount {num_states count : JInt} (htop : num_states.toNat < 2 ^ 31)
    (hcount : count.toNat ≤ num_states.toNat) (outcome : Bool) :
    (nextCount num_states count outcome).toNat =
      saturate num_states.toNat count.toNat outcome := by
  rw [nextCount, saturate]
  cases outcome with
  | true =>
    by_cases htop : count = num_states
    · simp [htop]
    · rw [if_pos ⟨rfl, htop⟩, if_pos rfl]
      bv_omega
  | false =>
    by_cases hzero : count = 0
    · simp [hzero]
    · rw [if_neg (by simp), if_pos ⟨rfl, hzero⟩, if_neg (by simp)]
      bv_omega

theorem predicted_eq {num_states count : JInt} (htop : num_states.toNat < 2 ^ 31)
    (hcount : count.toNat ≤ num_states.toNat) :
    predicted num_states count = decide (num_states.toNat / 2 < count.toNat) := by
  have hmsb : num_states.msb = false := by
    rw [BitVec.msb_eq_decide, decide_eq_false_iff_not]
    omega
  have htwo : (2 : JInt).msb = false := rfl
  have hhalf : (num_states.sdiv 2).toNat = num_states.toNat / 2 := by
    rw [BitVec.sdiv_eq, hmsb, htwo]
    exact BitVec.toNat_udiv
  rw [predicted, BitVec.toInt_eq_toNat_of_lt (by omega), BitVec.toInt_eq_toNat_of_lt (by omega),
    hhalf]
  exact decide_eq_decide.mpr Int.ofNat_lt

/-! ### What a predictor does to its tables -/

/-- The tables hold these numbers. -/
structure Holds (s : Scheme (BitVec 64) K I) (c : Contents K I)
    (t : TwoLevelTables.Tables K I) : Prop where
  register : ∀ address, ∃ BHR, c.register (s.key address) = some BHR ∧
    BHR.toNat = t.registers (s.key address) ∧ BHR.toNat < 2 ^ s.bits
  counter : ∀ address, ∀ history < 2 ^ s.bits, ∃ count,
    c.counter (s.index address history) = some count ∧
      count.toNat = t.counters (s.index address history) ∧ count.toNat ≤ s.top

/-- A predictor trains the register and the counter of the address, and predicts with that
counter, as long as it keeps its sizes. -/
structure Implements {P : Type} (s : Scheme (BitVec 64) K I) (maskbits num_states : JInt)
    (train : P → Branch → Option P) (contents : P → Contents K I) (sized : P → Prop) :
    Prop where
  bits_le : s.bits ≤ 30
  mask : maskbits.toNat = 2 ^ s.bits - 1
  top : num_states.toNat = s.top
  trains : ∀ p b BHR count, sized p → (contents p).register (s.key b.address) = some BHR →
    BHR.toNat < 2 ^ s.bits → (contents p).counter (s.index b.address BHR.toNat) = some count →
    ∃ p', train p b = some p' ∧ sized p' ∧
      (contents p').register = Function.update (contents p).register (s.key b.address)
        (some (nextBHR maskbits BHR b.outcome)) ∧
      (contents p').counter = Function.update (contents p).counter
        (s.index b.address BHR.toNat) (some (nextCount num_states count b.outcome))
  predicts : ∀ p address BHR count, sized p → (contents p).register (s.key address) = some BHR →
    BHR.toNat < 2 ^ s.bits → (contents p).counter (s.index address BHR.toNat) = some count →
    (contents p).predict address = some (predicted num_states count)

namespace Implements

variable {P : Type} {s : Scheme (BitVec 64) K I} {maskbits num_states : JInt}
  {train : P → Branch → Option P} {contents : P → Contents K I} {sized : P → Prop}
  {t : TwoLevelTables.Tables K I} {p₀ p : P}

theorem holds_train (h : Implements s maskbits num_states train contents sized) (hp : sized p)
    (ht : Holds s (contents p) t) (htop : num_states.toNat < 2 ^ 31) (b : Branch) :
    ∃ p', train p b = some p' ∧ sized p' ∧
      Holds s (contents p') (s.train t (b.address, b.outcome)) := by
  obtain ⟨BHR, hregister, hBHR, hlt⟩ := ht.register b.address
  obtain ⟨count, hcounter, hcount, hle⟩ := ht.counter b.address _ hlt
  obtain ⟨p', htrain, hp', hregisters, hcounters⟩ :=
    h.trains p b BHR count hp hregister hlt hcounter
  refine ⟨p', htrain, hp', ⟨fun address => ?_, fun address history hhistory => ?_⟩⟩
  · rw [hregisters]
    by_cases hkey : s.key address = s.key b.address
    · rw [hkey, Function.update_self]
      have hnext := toNat_nextBHR h.mask h.bits_le hlt b.outcome
      refine ⟨_, rfl, ?_, hnext ▸ shiftIn_lt _ _ _⟩
      rw [hnext, hBHR, Scheme.train_registers, Function.update_self]
    · rw [Function.update_of_ne hkey]
      obtain ⟨BHR', hregister', hBHR', hlt'⟩ := ht.register address
      refine ⟨BHR', hregister', ?_, hlt'⟩
      rw [hBHR', Scheme.train_registers, Function.update_of_ne hkey]
  · rw [hcounters]
    rw [hBHR] at hcount
    by_cases hindex : s.index address history = s.index b.address BHR.toNat
    · rw [hindex, Function.update_self]
      have hnext := toNat_nextCount htop (h.top ▸ hle) b.outcome
      refine ⟨_, rfl, ?_, ?_⟩
      · rw [hnext, hcount, hBHR, h.top, Scheme.train_counters, Function.update_self]
      · rw [hnext, h.top]
        exact saturate_le hle b.outcome
    · rw [Function.update_of_ne hindex]
      obtain ⟨count', hcounter', hcount', hle'⟩ := ht.counter address history hhistory
      rw [hBHR] at hindex
      refine ⟨count', hcounter', ?_, hle'⟩
      rw [hcount', Scheme.train_counters, Function.update_of_ne hindex]

/-- The tables after some branches. -/
theorem exec_train (h : Implements s maskbits num_states train contents sized) (hp : sized p₀)
    (ht : Holds s (contents p₀) s.initial) (htop : num_states.toNat < 2 ^ 31)
    (branches : List Branch) :
    ∃ p, exec train p₀ branches = some p ∧ sized p ∧
      Holds s (contents p) ⟨s.history (accesses branches), s.count (accesses branches)⟩ := by
  induction branches using List.reverseRecOn with
  | nil => exact ⟨p₀, rfl, hp, ht⟩
  | append_singleton branches b ih =>
    obtain ⟨p, hexec, hsized, hholds⟩ := ih
    obtain ⟨p', htrain, hsized', hholds'⟩ := h.holds_train hsized hholds htop b
    refine ⟨p', ?_, hsized', ?_⟩
    · rw [exec_append_singleton, hexec]
      exact htrain
    · rw [Scheme.train_expected] at hholds'
      rw [accesses, List.map_append]
      exact hholds'

/-- A predictor that implements the tables follows the branches. -/
theorem follows (h : Implements s maskbits num_states train contents sized) (hp : sized p₀)
    (ht : Holds s (contents p₀) s.initial) (htop : num_states.toNat < 2 ^ 31)
    (branches : List Branch) :
    ∃ p, exec train p₀ branches = some p ∧ Follows s (contents p) branches := by
  obtain ⟨p, hexec, hsized, hholds⟩ := h.exec_train hp ht htop branches
  refine ⟨p, hexec, fun address => ?_, fun address history hhistory => ?_, fun address => ?_⟩
  · obtain ⟨BHR, hregister, hBHR, hlt⟩ := hholds.register address
    refine ⟨BHR, hregister, hBHR, hlt, fun i hi outcome houtcome => ?_⟩
    rw [BitVec.getLsbD, hBHR]
    change (List.foldl (shiftIn s.bits) s.start _).testBit i = outcome
    rw [testBit_foldl_shiftIn hi, houtcome, Option.getD_some]
  · obtain ⟨count, hcounter, hcount, hle⟩ := hholds.counter address history hhistory
    refine ⟨count, hcounter, ?_⟩
    rw [BitVec.toInt_eq_toNat_of_lt (by rw [h.top] at htop; omega), hcount]
  · obtain ⟨BHR, hregister, hBHR, hlt⟩ := hholds.register address
    obtain ⟨count, hcounter, hcount, hle⟩ := hholds.counter address _ hlt
    rw [h.predicts p address BHR count hsized hregister hlt hcounter,
      predicted_eq htop (h.top ▸ hle), h.top, hcount, hBHR]

end Implements

/-! ### The four predictors -/

/-- Setting an entry of a list that is there. -/
theorem getElem?_set_update {α : Type} {l : List α} {i : ℕ} {x y : α} (h : l[i]? = some y) :
    (fun k => (l.set i x)[k]?) = Function.update (fun k => l[k]?) i (some x) := by
  have hi := (List.getElem?_eq_some_iff.mp h).1
  funext k
  by_cases hk : k = i
  · rw [hk, Function.update_self, List.getElem?_set_self hi]
  · rw [Function.update_of_ne hk, List.getElem?_set_ne (Ne.symm hk)]

variable {n m : ℕ} {initialBHR maskbits num_states : JInt}

theorem GAgpredictor.implements (num_states : JInt) (hn : n ≤ 30)
    (hinitial : initialBHR.toNat = 2 ^ n) :
    Implements (GAgpredictor.scheme n num_states.toNat) (initialBHR - 1) num_states
      GAgpredictor.train GAgpredictor.contents
      (fun p => p.initialBHR = initialBHR ∧ p.num_states = num_states) := by
  have hpos := Nat.two_pow_pos n
  have hpow : 2 ^ n ≤ 2 ^ 30 := Nat.pow_le_pow_right (by decide) hn
  refine ⟨hn, ?_, rfl, ?_, ?_⟩
  · have hunit : (1 : JInt).toNat = 1 := rfl
    rw [BitVec.toNat_sub_of_le (by rw [BitVec.le_def]; omega), hunit, hinitial]
    rfl
  · rintro p b BHR count ⟨rfl, rfl⟩ hregister hlt hcounter
    obtain rfl := Option.some.inj hregister
    change p.PHT[p.BHR.toNat]? = some count at hcounter
    refine ⟨{ p with
      PHT := p.PHT.set p.BHR.toNat (nextCount p.num_states count b.outcome)
      BHR := nextBHR (p.initialBHR - 1) p.BHR b.outcome }, ?_, ⟨rfl, rfl⟩, ?_, ?_⟩
    · rw [GAgpredictor.train, hcounter]
      rfl
    · funext k
      rfl
    · exact getElem?_set_update hcounter
  · rintro p address BHR count ⟨rfl, rfl⟩ hregister hlt hcounter
    obtain rfl := Option.some.inj hregister
    change p.PHT[p.BHR.toNat]? = some count at hcounter
    change p.predict address = _
    rw [GAgpredictor.predict, hcounter]
    rfl

/-- `((int) address & maskbits) ^ BHR` -/
theorem GShare.toNat_index {p : GShare} (hn : n ≤ 30) (hmask : p.maskbits.toNat = 2 ^ n - 1)
    (address : BitVec 64) :
    (p.index address).toNat = address.toNat % 2 ^ n ^^^ p.BHR.toNat := by
  have hdvd : 2 ^ n ∣ 2 ^ 32 := Nat.pow_dvd_pow 2 (by omega)
  rw [GShare.index, BitVec.toNat_xor, BitVec.toNat_and, hmask, Nat.and_two_pow_sub_one_eq_mod,
    BitVec.toNat_setWidth, Nat.mod_mod_of_dvd _ hdvd]

theorem GShare.implements (num_states : JInt) (hn : n ≤ 30) (hmask : maskbits.toNat = 2 ^ n - 1) :
    Implements (GShare.scheme n num_states.toNat) maskbits num_states GShare.train
      GShare.contents (fun p => p.maskbits = maskbits ∧ p.num_states = num_states) := by
  refine ⟨hn, hmask, rfl, ?_, ?_⟩
  · rintro p b BHR count ⟨rfl, rfl⟩ hregister hlt hcounter
    obtain rfl := Option.some.inj hregister
    have hindex : (p.index b.address).toNat =
        (GShare.scheme n p.num_states.toNat).index b.address p.BHR.toNat :=
      GShare.toNat_index hn hmask b.address
    rw [← hindex] at hcounter ⊢
    change p.PHT[(p.index b.address).toNat]? = some count at hcounter
    refine ⟨{ p with
      PHT := p.PHT.set (p.index b.address).toNat (nextCount p.num_states count b.outcome)
      BHR := nextBHR p.maskbits p.BHR b.outcome }, ?_, ⟨rfl, rfl⟩, ?_, ?_⟩
    · rw [GShare.train, hcounter]
      rfl
    · funext k
      rfl
    · exact getElem?_set_update hcounter
  · rintro p address BHR count ⟨rfl, rfl⟩ hregister hlt hcounter
    obtain rfl := Option.some.inj hregister
    have hindex : (p.index address).toNat =
        (GShare.scheme n p.num_states.toNat).index address p.BHR.toNat :=
      GShare.toNat_index hn hmask address
    rw [← hindex] at hcounter
    change p.PHT[(p.index address).toNat]? = some count at hcounter
    change p.predict address = _
    rw [GShare.predict, hcounter]
    rfl

theorem toNat_lowAddress (hm : m ≤ 30) (hmask : maskbits.toNat = 2 ^ m - 1)
    (address : BitVec 64) : (lowAddress maskbits address).toNat = address.toNat % 2 ^ m := by
  rw [lowAddress, BitVec.and_comm]
  exact toNat_low hmask hm address

theorem PAgPredictor.implements (num_states : JInt) (hm : m ≤ 30)
    (hmask : maskbits.toNat = 2 ^ m - 1) (hn : n ≤ 30) (hinitial : initialBHR.toNat = 2 ^ n - 1) :
    Implements (PAgPredictor.scheme m n num_states.toNat) initialBHR num_states
      PAgPredictor.train PAgPredictor.contents (fun p => p.maskbits = maskbits ∧
        p.initialBHR = initialBHR ∧ p.num_states = num_states) := by
  refine ⟨hn, hinitial, rfl, ?_, ?_⟩
  · rintro p b BHR count ⟨rfl, rfl, rfl⟩ hregister hlt hcounter
    have hkey : (lowAddress p.maskbits b.address).toNat =
        (PAgPredictor.scheme m n p.num_states.toNat).key b.address :=
      toNat_lowAddress hm hmask b.address
    rw [← hkey] at hregister ⊢
    change p.PBHT[(lowAddress p.maskbits b.address).toNat]? = some BHR at hregister
    change p.PHT[BHR.toNat]? = some count at hcounter
    refine ⟨{ p with
      PHT := p.PHT.set BHR.toNat (nextCount p.num_states count b.outcome)
      PBHT := p.PBHT.set (lowAddress p.maskbits b.address).toNat
        (nextBHR p.initialBHR BHR b.outcome) }, ?_, ⟨rfl, rfl, rfl⟩, ?_, ?_⟩
    · simp only [PAgPredictor.train, hregister, hcounter, Option.bind_eq_bind, Option.bind_some]
      rfl
    · exact getElem?_set_update hregister
    · exact getElem?_set_update hcounter
  · rintro p address BHR count ⟨rfl, rfl, rfl⟩ hregister hlt hcounter
    have hkey : (lowAddress p.maskbits address).toNat =
        (PAgPredictor.scheme m n p.num_states.toNat).key address :=
      toNat_lowAddress hm hmask address
    rw [← hkey] at hregister
    change p.PBHT[(lowAddress p.maskbits address).toNat]? = some BHR at hregister
    change p.PHT[BHR.toNat]? = some count at hcounter
    change p.predict address = _
    simp only [PAgPredictor.predict, hregister, hcounter, Option.bind_eq_bind, Option.bind_some]
    rfl

/-- Setting a counter of one of the tables. -/
theorem PApPredictor.counter_set {PPHT : List (List JInt)} {row : List JInt} {i j : ℕ}
    {count : JInt} (x : JInt) (hrow : PPHT[i]? = some row) (hcount : row[j]? = some count) :
    (fun k : ℕ × ℕ => (PPHT.set i (row.set j x))[k.1]?.bind (fun row => row[k.2]?)) =
      Function.update (fun k : ℕ × ℕ => PPHT[k.1]?.bind (fun row => row[k.2]?)) (i, j)
        (some x) := by
  have hrows := congrFun (getElem?_set_update (x := row.set j x) hrow)
  have hcounts := congrFun (getElem?_set_update (x := x) hcount)
  funext ⟨i', j'⟩
  simp only at hrows hcounts ⊢
  rw [hrows]
  by_cases hi : i' = i
  · subst hi
    rw [Function.update_self, Option.bind_some, hcounts]
    by_cases hj : j' = j
    · rw [hj, Function.update_self, Function.update_self]
    · rw [Function.update_of_ne hj, Function.update_of_ne (by simpa using hj), hrow,
        Option.bind_some]
  · rw [Function.update_of_ne hi, Function.update_of_ne (by simp [hi])]

theorem PApPredictor.implements (num_states : JInt) (hm : m ≤ 30)
    (hmask : maskbits.toNat = 2 ^ m - 1) (hn : n ≤ 30) (hinitial : initialBHR.toNat = 2 ^ n - 1) :
    Implements (PApPredictor.scheme m n num_states.toNat) initialBHR num_states
      PApPredictor.train PApPredictor.contents (fun p => p.maskbits = maskbits ∧
        p.initialBHR = initialBHR ∧ p.num_states = num_states) := by
  refine ⟨hn, hinitial, rfl, ?_, ?_⟩
  · rintro p b BHR count ⟨rfl, rfl, rfl⟩ hregister hlt hcounter
    have hkey := toNat_lowAddress hm hmask b.address
    change p.PBHT[b.address.toNat % 2 ^ m]? = some BHR at hregister
    obtain ⟨row, hrow, hcount⟩ := Option.bind_eq_some_iff.mp hcounter
    change p.PPHT[b.address.toNat % 2 ^ m]? = some row at hrow
    change row[BHR.toNat]? = some count at hcount
    refine ⟨{ p with
      PPHT := p.PPHT.set (b.address.toNat % 2 ^ m)
        (row.set BHR.toNat (nextCount p.num_states count b.outcome))
      PBHT := p.PBHT.set (b.address.toNat % 2 ^ m)
        (nextBHR p.initialBHR BHR b.outcome) }, ?_, ⟨rfl, rfl, rfl⟩, ?_, ?_⟩
    · simp only [PApPredictor.train, hkey, hregister, hrow, hcount, Option.bind_eq_bind,
        Option.bind_some]
      rfl
    · exact getElem?_set_update hregister
    · exact PApPredictor.counter_set _ hrow hcount
  · rintro p address BHR count ⟨rfl, rfl, rfl⟩ hregister hlt hcounter
    have hkey := toNat_lowAddress hm hmask address
    change p.PBHT[address.toNat % 2 ^ m]? = some BHR at hregister
    obtain ⟨row, hrow, hcount⟩ := Option.bind_eq_some_iff.mp hcounter
    change p.PPHT[address.toNat % 2 ^ m]? = some row at hrow
    change row[BHR.toNat]? = some count at hcount
    change p.predict address = _
    simp only [PApPredictor.predict, hkey, hregister, hrow, hcount, Option.bind_eq_bind,
      Option.bind_some]
    rfl

/-! ### New predictors -/

theorem newArray_spec {α : Type} {length : JInt} {value : α} {l : List α}
    (h : newArray length value = some l) :
    0 ≤ length.toInt ∧ l = List.replicate length.toNat value := by
  rw [newArray] at h
  split at h
  · cases h
  · exact ⟨by omega, (Option.some.inj h).symm⟩

/-- An array for all contents of a register can be built up to 30 bits. -/
theorem newArray_mask {α : Type} {size : JInt} {value : α} {l : List α}
    (h : newArray (mask size + 1) value = some l) :
    shiftSize size ≤ 30 ∧ l = List.replicate (2 ^ shiftSize size) value := by
  obtain ⟨hpositive, rfl⟩ := newArray_spec h
  have hlt : shiftSize size < 32 := Nat.mod_lt _ (by decide)
  have hpos := Nat.two_pow_pos (shiftSize size)
  have hpow : 2 ^ shiftSize size ≤ 2 ^ 31 := Nat.pow_le_pow_right (by decide) (by omega)
  have hmask : (mask size).toNat = 2 ^ shiftSize size - 1 := toNat_mask_mod size
  have hunit : (1 : JInt).toNat = 1 := rfl
  have hlength : (mask size + 1).toNat = 2 ^ shiftSize size := by
    rw [BitVec.toNat_add, hmask, hunit, Nat.sub_add_cancel hpos, Nat.mod_eq_of_lt (by omega)]
  refine ⟨?_, by rw [hlength]⟩
  by_contra hlarge
  have h31 : shiftSize size = 31 := by omega
  rw [h31] at hlength
  rw [BitVec.toInt_eq_toNat_cond, hlength] at hpositive
  omega

theorem getElem?_replicate_of_lt {α : Type} {value : α} {i k : ℕ} (h : i < k) :
    (List.replicate k value)[i]? = some value := by
  rw [List.getElem?_replicate, if_pos h]

theorem toNat_powerOfTwo {size : JInt} (hsize : 0 ≤ size.toInt) (hsize' : size.toInt ≤ 30) :
    (powerOfTwo size).toNat = 2 ^ shiftSize size ∧ shiftSize size ≤ 30 := by
  have hnat : size.toNat ≤ 30 := by
    rw [BitVec.toInt_eq_toNat_cond] at hsize hsize'
    split at hsize <;> omega
  have hmod : shiftSize size = size.toNat := Nat.mod_eq_of_lt (by omega)
  have hunit : (1 : JInt).toNat = 1 := rfl
  have hpow : 2 ^ size.toNat ≤ 2 ^ 30 := Nat.pow_le_pow_right (by decide) hnat
  refine ⟨?_, by omega⟩
  rw [powerOfTwo, if_neg (by omega), if_pos (by omega), shl, BitVec.toNat_shiftLeft, hunit,
    Nat.shiftLeft_eq, Nat.one_mul, ← shiftSize, hmod, Nat.mod_eq_of_lt (by omega)]

variable {PCBits BHRsize saturating_bits : JInt}

theorem toNat_num_states (saturating_bits : JInt) :
    (mask saturating_bits).toNat = topState saturating_bits := toNat_mask_mod saturating_bits

theorem toNat_sub_one {initialBHR : JInt} {n : ℕ} (h : initialBHR.toNat = 2 ^ n) :
    (initialBHR - 1).toNat = 2 ^ n - 1 := by
  have hpos := Nat.two_pow_pos n
  have hunit : (1 : JInt).toNat = 1 := rfl
  rw [BitVec.toNat_sub_of_le (by rw [BitVec.le_def]; omega), hunit, h]

theorem GAgpredictor.follows {p₀ : GAgpredictor} (hsize : 0 ≤ BHRsize.toInt)
    (hsize' : BHRsize.toInt ≤ 30) (hnew : GAgpredictor.new BHRsize saturating_bits = some p₀)
    (branches : List Branch) :
    ∃ p, exec GAgpredictor.train p₀ branches = some p ∧
      Follows (GAgpredictor.scheme (shiftSize BHRsize) (topState saturating_bits)) p.contents
        branches := by
  obtain ⟨hinitial, hn⟩ := toNat_powerOfTwo hsize hsize'
  obtain ⟨PHT, hPHT, hp⟩ := Option.bind_eq_some_iff.mp hnew
  obtain ⟨-, rfl⟩ := newArray_spec hPHT
  obtain rfl := Option.some.inj hp
  have himplements := GAgpredictor.implements (mask saturating_bits) hn hinitial
  rw [← toNat_num_states]
  refine himplements.follows ⟨rfl, rfl⟩ ⟨fun address => ?_, fun address history hlt => ?_⟩
    (mask_lt _) branches
  · have hBHR := toNat_sub_one hinitial
    have hpos := Nat.two_pow_pos (shiftSize BHRsize)
    exact ⟨_, rfl, hBHR, by rw [hBHR]; exact Nat.sub_lt hpos Nat.one_pos⟩
  · refine ⟨mask saturating_bits, ?_, rfl, Nat.le_refl _⟩
    exact getElem?_replicate_of_lt (hinitial ▸ hlt)

theorem GShare.follows {p₀ : GShare} (hnew : GShare.new BHRsize saturating_bits = some p₀)
    (branches : List Branch) :
    ∃ p, exec GShare.train p₀ branches = some p ∧
      Follows (GShare.scheme (shiftSize BHRsize) (topState saturating_bits)) p.contents
        branches := by
  obtain ⟨PHT, hPHT, hp⟩ := Option.bind_eq_some_iff.mp hnew
  obtain ⟨hn, rfl⟩ := newArray_mask hPHT
  obtain rfl := Option.some.inj hp
  have hmask := toNat_mask_mod BHRsize
  have hpos := Nat.two_pow_pos (shiftSize BHRsize)
  have himplements := GShare.implements (mask saturating_bits) hn hmask
  rw [← toNat_num_states]
  refine himplements.follows ⟨rfl, rfl⟩ ⟨fun address => ?_, fun address history hlt => ?_⟩
    (mask_lt _) branches
  · exact ⟨_, rfl, hmask, by rw [hmask]; exact Nat.sub_lt hpos Nat.one_pos⟩
  · refine ⟨mask saturating_bits, ?_, rfl, Nat.le_refl _⟩
    refine getElem?_replicate_of_lt (Nat.xor_lt_two_pow ?_ hlt)
    exact Nat.mod_lt _ hpos

theorem PAgPredictor.follows {p₀ : PAgPredictor}
    (hnew : PAgPredictor.new PCBits BHRsize saturating_bits = some p₀)
    (branches : List Branch) :
    ∃ p, exec PAgPredictor.train p₀ branches = some p ∧
      Follows (PAgPredictor.scheme (shiftSize PCBits) (shiftSize BHRsize)
        (topState saturating_bits)) p.contents branches := by
  obtain ⟨PBHT, hPBHT, hrest⟩ := Option.bind_eq_some_iff.mp hnew
  obtain ⟨PHT, hPHT, hp⟩ := Option.bind_eq_some_iff.mp hrest
  obtain ⟨hm, rfl⟩ := newArray_mask hPBHT
  obtain ⟨hn, rfl⟩ := newArray_mask hPHT
  obtain rfl := Option.some.inj hp
  have himplements := PAgPredictor.implements (mask saturating_bits) hm
    (toNat_mask_mod PCBits) hn (toNat_mask_mod BHRsize)
  rw [← toNat_num_states]
  refine himplements.follows ⟨rfl, rfl, rfl⟩ ⟨fun address => ?_, fun address history hlt => ?_⟩
    (mask_lt _) branches
  · refine ⟨0, ?_, rfl, Nat.two_pow_pos _⟩
    exact getElem?_replicate_of_lt (Nat.mod_lt _ (Nat.two_pow_pos _))
  · exact ⟨mask saturating_bits, getElem?_replicate_of_lt hlt, rfl, Nat.le_refl _⟩

theorem PApPredictor.follows {p₀ : PApPredictor}
    (hnew : PApPredictor.new PCBits BHRsize saturating_bits = some p₀)
    (branches : List Branch) :
    ∃ p, exec PApPredictor.train p₀ branches = some p ∧
      Follows (PApPredictor.scheme (shiftSize PCBits) (shiftSize BHRsize)
        (topState saturating_bits)) p.contents branches := by
  obtain ⟨PBHT, hPBHT, hrest⟩ := Option.bind_eq_some_iff.mp hnew
  obtain ⟨row, hrow, hrest⟩ := Option.bind_eq_some_iff.mp hrest
  obtain ⟨PPHT, hPPHT, hp⟩ := Option.bind_eq_some_iff.mp hrest
  obtain ⟨hm, rfl⟩ := newArray_mask hPBHT
  obtain ⟨hn, rfl⟩ := newArray_mask hrow
  obtain ⟨-, rfl⟩ := newArray_mask hPPHT
  obtain rfl := Option.some.inj hp
  have himplements := PApPredictor.implements (mask saturating_bits) hm
    (toNat_mask_mod PCBits) hn (toNat_mask_mod BHRsize)
  rw [← toNat_num_states]
  refine himplements.follows ⟨rfl, rfl, rfl⟩ ⟨fun address => ?_, fun address history hlt => ?_⟩
    (mask_lt _) branches
  · refine ⟨0, ?_, rfl, Nat.two_pow_pos _⟩
    exact getElem?_replicate_of_lt (Nat.mod_lt _ (Nat.two_pow_pos _))
  · refine ⟨mask saturating_bits, ?_, rfl, Nat.le_refl _⟩
    have hindex : (List.replicate (2 ^ shiftSize PCBits)
        (List.replicate (2 ^ shiftSize BHRsize) (mask saturating_bits)))[address.toNat %
          2 ^ shiftSize PCBits]? = some _ :=
      getElem?_replicate_of_lt (Nat.mod_lt address.toNat (Nat.two_pow_pos (shiftSize PCBits)))
    refine Option.bind_eq_some_iff.mpr ⟨_, hindex, ?_⟩
    exact getElem?_replicate_of_lt hlt

/-- Every predictor that its constructor builds follows all branches. The shifts take the low
five bits of a size; the table of GAg is a power of the size itself, which is below 31 then. -/
theorem predictors_follow (PCBits BHRsize saturating_bits : JInt) (branches : List Branch) :
    (∀ p₀, GAgpredictor.new BHRsize saturating_bits = some p₀ →
      0 ≤ BHRsize.toInt → BHRsize.toInt ≤ 30 →
      ∃ p, exec GAgpredictor.train p₀ branches = some p ∧
        Follows (GAgpredictor.scheme (shiftSize BHRsize) (topState saturating_bits))
          p.contents branches) ∧
    (∀ p₀, GShare.new BHRsize saturating_bits = some p₀ →
      ∃ p, exec GShare.train p₀ branches = some p ∧
        Follows (GShare.scheme (shiftSize BHRsize) (topState saturating_bits))
          p.contents branches) ∧
    (∀ p₀, PAgPredictor.new PCBits BHRsize saturating_bits = some p₀ →
      ∃ p, exec PAgPredictor.train p₀ branches = some p ∧
        Follows (PAgPredictor.scheme (shiftSize PCBits) (shiftSize BHRsize)
          (topState saturating_bits)) p.contents branches) ∧
    ∀ p₀, PApPredictor.new PCBits BHRsize saturating_bits = some p₀ →
      ∃ p, exec PApPredictor.train p₀ branches = some p ∧
        Follows (PApPredictor.scheme (shiftSize PCBits) (shiftSize BHRsize)
          (topState saturating_bits)) p.contents branches :=
  ⟨fun _ hnew hsize hsize' => GAgpredictor.follows hsize hsize' hnew branches,
    fun _ hnew => GShare.follows hnew branches, fun _ hnew => PAgPredictor.follows hnew branches,
    fun _ hnew => PApPredictor.follows hnew branches⟩

/-- Two branches with histories of two bits and counters of four states. -/
theorem predictors_follow_two_bits :
    (∃ p, exec GAgpredictor.train ⟨[3, 3, 3, 3], 3, 4, 3⟩ [⟨5, true⟩, ⟨9, false⟩] = some p ∧
      Follows (GAgpredictor.scheme 2 3) p.contents [⟨5, true⟩, ⟨9, false⟩]) ∧
    (∃ p, exec GShare.train ⟨[3, 3, 3, 3], 3, 3, 3⟩ [⟨5, true⟩, ⟨9, false⟩] = some p ∧
      Follows (GShare.scheme 2 3) p.contents [⟨5, true⟩, ⟨9, false⟩]) ∧
    (∃ p, exec PAgPredictor.train ⟨[0, 0], [3, 3, 3, 3], 3, 3, 1⟩ [⟨5, true⟩, ⟨9, false⟩] =
        some p ∧
      Follows (PAgPredictor.scheme 1 2 3) p.contents [⟨5, true⟩, ⟨9, false⟩]) ∧
    ∃ p, exec PApPredictor.train ⟨[0, 0], [[3, 3, 3, 3], [3, 3, 3, 3]], 3, 3, 1⟩
        [⟨5, true⟩, ⟨9, false⟩] = some p ∧
      Follows (PApPredictor.scheme 1 2 3) p.contents [⟨5, true⟩, ⟨9, false⟩] := by
  obtain ⟨hGAg, hGShare, hPAg, hPAp⟩ := predictors_follow 1 2 2 [⟨5, true⟩, ⟨9, false⟩]
  exact ⟨hGAg _ rfl (by decide) (by decide), hGShare _ rfl, hPAg _ rfl, hPAp _ rfl⟩

/-- A GShare of 32 bits is accepted and has a table of one counter, and its register loses
every outcome. A GAg of -1 bits is accepted and has no counter. -/
theorem sizes_not_checked :
    (¬ ∀ BHRsize saturating_bits p₀, GShare.new BHRsize saturating_bits = some p₀ →
      ∀ branches, ∃ p, exec GShare.train p₀ branches = some p ∧
        Follows (GShare.scheme BHRsize.toNat (2 ^ saturating_bits.toNat - 1)) p.contents
          branches) ∧
    ¬ ∀ BHRsize saturating_bits p₀, GAgpredictor.new BHRsize saturating_bits = some p₀ →
      ∀ branches, ∃ p, exec GAgpredictor.train p₀ branches = some p := by
  constructor
  · intro h
    obtain ⟨p, hp, hfollows⟩ := h 32 2 ⟨[3], 0, 3, 0⟩ rfl [⟨0, true⟩]
    obtain rfl : (⟨[3], 0, 3, 0⟩ : GShare) = p := Option.some.inj hp
    obtain ⟨BHR, hBHR, -, -, hbits⟩ := hfollows.register 0
    obtain rfl := Option.some.inj hBHR
    exact absurd (hbits 0 (by decide) true rfl) (by decide)
  · intro h
    obtain ⟨p, hp⟩ := h (-1) 2 ⟨[], -1, 0, 3⟩ rfl [⟨0, true⟩]
    cases hp

end Tejas.TwoLevel
