import Tejas.ExpertChoice
import Tejas.TwoLevelPredictors

/-!
# The bimodal and the tournament branch predictors

The bimodal predictor has one saturating counter for each value of the low bits of the address.
The tournament predictor trains a PAg and a PAp predictor and chooses between them with a
counter of two bits.
-/

namespace Tejas.TwoLevel
open Tage LabelledRuns TwoLevelTables GAp.GApPredictor

/-! ### Bimodal -/

structure BimodalPredictor where
  PHT : List JInt
  num_states : JInt
  maskbits : JInt

namespace BimodalPredictor

def new (PCBits saturating_bits : JInt) : Option BimodalPredictor := do
  let num_states := mask saturating_bits
  let maskbits := mask PCBits
  let PHT ← newArray (maskbits + 1) (mask saturating_bits)
  return ⟨PHT, num_states, maskbits⟩

def train (p : BimodalPredictor) (b : Branch) : Option BimodalPredictor := do
  let index := lowAddress p.maskbits b.address
  let count ← p.PHT[index.toNat]?
  return { p with PHT := p.PHT.set index.toNat (nextCount p.num_states count b.outcome) }

def predict (p : BimodalPredictor) (address : BitVec 64) : Option Bool := do
  let count ← p.PHT[(lowAddress p.maskbits address).toNat]?
  return predicted p.num_states count

/-- No register, and a counter for the low bits of the address. -/
def scheme (lowBits top : ℕ) : Scheme (BitVec 64) Unit ℕ where
  bits := 0
  top := top
  start := 0
  key _ := ()
  index address _ := address.toNat % 2 ^ lowBits

/-- The register that is not there holds no outcome. -/
def contents (p : BimodalPredictor) : Contents Unit ℕ where
  register _ := some 0
  counter i := p.PHT[i]?
  predict := p.predict

theorem implements {m : ℕ} {maskbits : JInt} (num_states : JInt) (hm : m ≤ 30)
    (hmask : maskbits.toNat = 2 ^ m - 1) :
    Implements (scheme m num_states.toNat) 0 num_states train contents
      (fun p => p.maskbits = maskbits ∧ p.num_states = num_states) := by
  refine ⟨Nat.zero_le _, rfl, rfl, ?_, ?_⟩
  · rintro p b BHR count ⟨rfl, rfl⟩ hregister hlt hcounter
    have hkey := toNat_lowAddress hm hmask b.address
    change p.PHT[b.address.toNat % 2 ^ m]? = some count at hcounter
    refine ⟨{ p with
      PHT := p.PHT.set (b.address.toNat % 2 ^ m) (nextCount p.num_states count b.outcome) },
      ?_, ⟨rfl, rfl⟩, ?_, ?_⟩
    · simp only [train, hkey, hcounter, Option.bind_eq_bind, Option.bind_some]
      rfl
    · funext k
      simp [contents, nextBHR]
    · exact getElem?_set_update hcounter
  · rintro p address BHR count ⟨rfl, rfl⟩ hregister hlt hcounter
    have hkey := toNat_lowAddress hm hmask address
    change p.PHT[address.toNat % 2 ^ m]? = some count at hcounter
    change p.predict address = _
    simp only [predict, hkey, hcounter, Option.bind_eq_bind, Option.bind_some]
    rfl

/-- Every bimodal predictor that its constructor builds predicts each branch with the saturating
count of the outcomes of the branches that share the low bits of its address. -/
theorem contents_follow (PCBits saturating_bits : JInt) (p₀ : BimodalPredictor)
    (hnew : new PCBits saturating_bits = some p₀) (branches : List Branch) :
    ∃ p, exec train p₀ branches = some p ∧
      Follows (scheme (shiftSize PCBits) (topState saturating_bits)) p.contents branches := by
  obtain ⟨PHT, hPHT, hp⟩ := Option.bind_eq_some_iff.mp hnew
  obtain ⟨hm, rfl⟩ := newArray_mask hPHT
  obtain rfl := Option.some.inj hp
  have himplements := implements (mask saturating_bits) hm (toNat_mask_mod PCBits)
  rw [← toNat_num_states]
  refine himplements.follows ⟨rfl, rfl⟩ ⟨fun address => ?_, fun address history hlt => ?_⟩
    (mask_lt _) branches
  · exact ⟨0, rfl, rfl, Nat.one_pos⟩
  · exact ⟨mask saturating_bits, getElem?_replicate_of_lt (Nat.mod_lt _ (Nat.two_pow_pos _)),
      rfl, Nat.le_refl _⟩

theorem contents_follow_two_branches :
    ∃ p, exec train ⟨[3, 3], 3, 1⟩ [⟨5, true⟩, ⟨9, false⟩] = some p ∧
      Follows (scheme 1 3) p.contents [⟨5, true⟩, ⟨9, false⟩] :=
  contents_follow 1 2 ⟨[3, 3], 3, 1⟩ rfl [⟨5, true⟩, ⟨9, false⟩]

end BimodalPredictor

/-! ### Tournament -/

structure TournamentPredictor where
  pred1 : PAgPredictor
  pred2 : PApPredictor
  counter : JInt

namespace TournamentPredictor

def new (PCBits BHRsize saturating_bits : JInt) : Option TournamentPredictor := do
  let pred1 ← PAgPredictor.new PCBits BHRsize saturating_bits
  let pred2 ← PApPredictor.new PCBits BHRsize saturating_bits
  return ⟨pred1, pred2, 0⟩

/-- The counter after a branch that the two predict like this. -/
def nextCounter (counter : JInt) (pred1_pred pred2_pred outcome : Bool) : JInt :=
  if pred1_pred ≠ pred2_pred then
    if pred1_pred = outcome ∧ counter ≠ 0 then counter - 1
    else if pred2_pred = outcome ∧ counter ≠ 3 then counter + 1
    else counter
  else counter

def train (p : TournamentPredictor) (b : Branch) : Option TournamentPredictor := do
  let pred1_pred ← p.pred1.predict b.address
  let pred2_pred ← p.pred2.predict b.address
  let pred1 ← p.pred1.train b
  let pred2 ← p.pred2.train b
  return ⟨pred1, pred2, nextCounter p.counter pred1_pred pred2_pred b.outcome⟩

def predict (p : TournamentPredictor) (address : BitVec 64) : Option Bool :=
  if p.counter = 0 ∨ p.counter = 1 then p.pred1.predict address else p.pred2.predict address

end TournamentPredictor

/-! ### Mispredictions -/

/-- How often a predictor is wrong that predicts every branch and is then trained with it. -/
def mispredictions {P : Type} (predict : P → BitVec 64 → Option Bool)
    (train : P → Branch → Option P) : P → List Branch → Option ℕ
  | _, [] => some 0
  | p, b :: rest => do
    let prediction ← predict p b.address
    let p ← train p b
    let more ← mispredictions predict train p rest
    return (prediction != b.outcome).toNat + more

/-- No branch makes it fail. -/
def NeverFails {P : Type} (predict : P → BitVec 64 → Option Bool)
    (train : P → Branch → Option P) (p : P) : Prop :=
  ∀ branches, ∃ p', exec train p branches = some p' ∧
    ∀ address, ∃ prediction, predict p' address = some prediction

theorem NeverFails.step {P : Type} {predict : P → BitVec 64 → Option Bool}
    {train : P → Branch → Option P} {p : P} (h : NeverFails predict train p) (b : Branch) :
    ∃ prediction p', predict p b.address = some prediction ∧ train p b = some p' ∧
      NeverFails predict train p' := by
  obtain ⟨p₀, hnone, hpredict⟩ := h []
  obtain rfl := Option.some.inj hnone
  obtain ⟨prediction, hprediction⟩ := hpredict b.address
  obtain ⟨p₁, hexec, -⟩ := h [b]
  obtain ⟨p', htrain, -⟩ := Option.bind_eq_some_iff.mp hexec
  refine ⟨prediction, p', hprediction, htrain, fun branches => ?_⟩
  obtain ⟨p'', hmore, hpredicts⟩ := h (b :: branches)
  rw [exec, htrain, Option.bind_some] at hmore
  exact ⟨p'', hmore, hpredicts⟩

variable {PCBits BHRsize saturating_bits : JInt}

theorem PAgPredictor.neverFails {p₀ : PAgPredictor}
    (hnew : PAgPredictor.new PCBits BHRsize saturating_bits = some p₀) :
    NeverFails PAgPredictor.predict PAgPredictor.train p₀ := by
  intro branches
  obtain ⟨p, hexec, hfollows⟩ := PAgPredictor.follows hnew branches
  exact ⟨p, hexec, fun address => ⟨_, hfollows.prediction address⟩⟩

theorem PApPredictor.neverFails {p₀ : PApPredictor}
    (hnew : PApPredictor.new PCBits BHRsize saturating_bits = some p₀) :
    NeverFails PApPredictor.predict PApPredictor.train p₀ := by
  intro branches
  obtain ⟨p, hexec, hfollows⟩ := PApPredictor.follows hnew branches
  exact ⟨p, hexec, fun address => ⟨_, hfollows.prediction address⟩⟩

namespace TournamentPredictor

open ExpertChoice

/-- The counter of the code is the counter of two experts. -/
theorem toNat_nextCounter {counter : JInt} (hcounter : counter.toNat < 2 * 2)
    (pred1_pred pred2_pred outcome : Bool) :
    (nextCounter counter pred1_pred pred2_pred outcome).toNat =
      next 2 counter.toNat ⟨pred1_pred == outcome, pred2_pred == outcome⟩ := by
  have hcases : counter = 0 ∨ counter = 1 ∨ counter = 2 ∨ counter = 3 := by
    simp only [← BitVec.toNat_inj]
    change counter.toNat = 0 ∨ counter.toNat = 1 ∨ counter.toNat = 2 ∨ counter.toNat = 3
    omega
  rcases hcases with rfl | rfl | rfl | rfl <;> cases pred1_pred <;> cases pred2_pred <;>
    cases outcome <;> decide

theorem predict_eq {p : TournamentPredictor} (hcounter : p.counter.toNat < 2 * 2)
    {address : BitVec 64} {prediction₁ prediction₂ : Bool}
    (h₁ : p.pred1.predict address = some prediction₁)
    (h₂ : p.pred2.predict address = some prediction₂) (outcome : Bool) :
    ∃ prediction, p.predict address = some prediction ∧ (prediction != outcome) =
      !choose 2 p.counter.toNat ⟨prediction₁ == outcome, prediction₂ == outcome⟩ := by
  have hlow : (p.counter = 0 ∨ p.counter = 1) ↔ p.counter.toNat < 2 := by
    simp only [← BitVec.toNat_inj]
    change p.counter.toNat = 0 ∨ p.counter.toNat = 1 ↔ p.counter.toNat < 2
    omega
  rw [predict, choose]
  by_cases hfirst : p.counter.toNat < 2
  · rw [if_pos (hlow.mpr hfirst), if_pos hfirst]
    exact ⟨_, h₁, rfl⟩
  · rw [if_neg (fun h => hfirst (hlow.mp h)), if_neg hfirst]
    exact ⟨_, h₂, rfl⟩

/-- The two predictors are right or wrong as if each were alone, and the tournament is wrong as
often as the choice between two experts. -/
theorem mispredictions_eq (branches : List Branch) : ∀ p : TournamentPredictor,
    NeverFails PAgPredictor.predict PAgPredictor.train p.pred1 →
    NeverFails PApPredictor.predict PApPredictor.train p.pred2 → p.counter.toNat < 2 * 2 →
    ∃ verdicts : List Verdict,
      mispredictions PAgPredictor.predict PAgPredictor.train p.pred1 branches =
        some (verdicts.countP fun v => !v.first) ∧
      mispredictions PApPredictor.predict PApPredictor.train p.pred2 branches =
        some (verdicts.countP fun v => !v.second) ∧
      mispredictions predict train p branches = some (wrong 2 p.counter.toNat verdicts) := by
  induction branches with
  | nil => exact fun _ _ _ _ => ⟨[], rfl, rfl, rfl⟩
  | cons b rest ih =>
    intro p hfirst hsecond hcounter
    obtain ⟨prediction₁, pred1, hpredict₁, htrain₁, hfirst'⟩ := hfirst.step b
    obtain ⟨prediction₂, pred2, hpredict₂, htrain₂, hsecond'⟩ := hsecond.step b
    obtain ⟨prediction, hpredict, hwrong⟩ := predict_eq hcounter hpredict₁ hpredict₂ b.outcome
    have hnext := toNat_nextCounter hcounter prediction₁ prediction₂ b.outcome
    have htrain : train p b = some ⟨pred1, pred2,
        nextCounter p.counter prediction₁ prediction₂ b.outcome⟩ := by
      simp only [train, hpredict₁, hpredict₂, htrain₁, htrain₂, Option.bind_eq_bind,
        Option.bind_some]
      rfl
    obtain ⟨verdicts, hmore₁, hmore₂, hmore⟩ := ih ⟨pred1, pred2,
      nextCounter p.counter prediction₁ prediction₂ b.outcome⟩ hfirst' hsecond' (by
        rw [hnext]
        exact next_lt hcounter _)
    refine ⟨⟨prediction₁ == b.outcome, prediction₂ == b.outcome⟩ :: verdicts, ?_, ?_, ?_⟩
    · simp only [mispredictions, hpredict₁, htrain₁, hmore₁, Option.bind_eq_bind,
        Option.bind_some, List.countP_cons]
      rw [Nat.add_comm]
      cases prediction₁ <;> cases b.outcome <;> rfl
    · simp only [mispredictions, hpredict₂, htrain₂, hmore₂, Option.bind_eq_bind,
        Option.bind_some, List.countP_cons]
      rw [Nat.add_comm]
      cases prediction₂ <;> cases b.outcome <;> rfl
    · simp only [mispredictions, hpredict, htrain, hmore, Option.bind_eq_bind,
        Option.bind_some, wrong, hwrong, hnext]
      rfl

/-- On all branches a new tournament predictor is wrong at most twice as often as its PAg
predictor alone, and at most twice as often as its PAp predictor alone and two times more. -/
theorem mispredictions_le (PCBits BHRsize saturating_bits : JInt) (p₀ : TournamentPredictor)
    (hnew : new PCBits BHRsize saturating_bits = some p₀) (branches : List Branch) :
    ∃ pag pap tournament,
      mispredictions PAgPredictor.predict PAgPredictor.train p₀.pred1 branches = some pag ∧
      mispredictions PApPredictor.predict PApPredictor.train p₀.pred2 branches = some pap ∧
      mispredictions predict train p₀ branches = some tournament ∧
      tournament ≤ 2 * pag ∧ tournament ≤ 2 * pap + 2 := by
  obtain ⟨pred1, hnew₁, hrest⟩ := Option.bind_eq_some_iff.mp hnew
  obtain ⟨pred2, hnew₂, hp⟩ := Option.bind_eq_some_iff.mp hrest
  obtain rfl := Option.some.inj hp
  obtain ⟨verdicts, hpag, hpap, htournament⟩ := mispredictions_eq branches ⟨pred1, pred2, 0⟩
    (PAgPredictor.neverFails hnew₁) (PApPredictor.neverFails hnew₂)
    (by change (0 : JInt).toNat < 4; decide)
  exact ⟨_, _, _, hpag, hpap, htournament,
    wrong_le_first 2 0 (by decide) verdicts,
    wrong_le_second 2 0 (by decide) verdicts⟩

/-- A loop of three rounds, twice: both predictors have counters of two bits. -/
theorem mispredictions_le_loop : ∃ pag pap tournament,
    mispredictions PAgPredictor.predict PAgPredictor.train ⟨[0, 0], [3, 3, 3, 3], 3, 3, 1⟩
      [⟨4, true⟩, ⟨4, true⟩, ⟨4, false⟩, ⟨4, true⟩, ⟨4, true⟩, ⟨4, false⟩] = some pag ∧
    mispredictions PApPredictor.predict PApPredictor.train
      ⟨[0, 0], [[3, 3, 3, 3], [3, 3, 3, 3]], 3, 3, 1⟩
      [⟨4, true⟩, ⟨4, true⟩, ⟨4, false⟩, ⟨4, true⟩, ⟨4, true⟩, ⟨4, false⟩] = some pap ∧
    mispredictions predict train
      ⟨⟨[0, 0], [3, 3, 3, 3], 3, 3, 1⟩, ⟨[0, 0], [[3, 3, 3, 3], [3, 3, 3, 3]], 3, 3, 1⟩, 0⟩
      [⟨4, true⟩, ⟨4, true⟩, ⟨4, false⟩, ⟨4, true⟩, ⟨4, true⟩, ⟨4, false⟩] = some tournament ∧
    tournament ≤ 2 * pag ∧ tournament ≤ 2 * pap + 2 :=
  mispredictions_le 1 2 2
    ⟨⟨[0, 0], [3, 3, 3, 3], 3, 3, 1⟩, ⟨[0, 0], [[3, 3, 3, 3], [3, 3, 3, 3]], 3, 3, 1⟩, 0⟩ rfl
    [⟨4, true⟩, ⟨4, true⟩, ⟨4, false⟩, ⟨4, true⟩, ⟨4, true⟩, ⟨4, false⟩]

end TournamentPredictor

end Tejas.TwoLevel
