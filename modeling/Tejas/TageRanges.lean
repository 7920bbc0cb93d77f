import Mathlib.Algebra.Order.Ring.Int
import Tejas.TageHistories
import Tejas.WhileLoops

/-!
# Ranges of the predictor's state

The counters of the tagged entries, the counter `PWIN` and the indices of the tables stay in
their ranges. An entry loses a use only when all entries below the bank have one to lose, and
the bank for an allocation is lowered once for each low bit of a number with fewer bits than
there are banks below.
-/

namespace Tejas.Tage

open WhileLoops

/-- An index of an array of `1 << LOG` elements. -/
def Within (LOG index : JInt) : Prop := 0 ≤ index.toInt ∧ index.toInt < (shl 1 LOG).toInt

structure Gentry.InRange (e : Gentry) : Prop where
  ctr : -4 ≤ e.ctr.toInt ∧ e.ctr.toInt ≤ 3
  ubit : 0 ≤ e.ubit.toInt ∧ e.ubit.toInt ≤ 3

theorem Gentry.inRange_allocated (taken : Bool) (tag : JInt) :
    (⟨if taken then 0 else -1, tag, 0⟩ : Gentry).InRange := by
  have hubit : 0 ≤ (0 : JInt).toInt ∧ (0 : JInt).toInt ≤ 3 := by decide
  refine ⟨?_, hubit⟩
  cases taken
  · exact (by decide : -4 ≤ (-1 : JInt).toInt ∧ (-1 : JInt).toInt ≤ 3)
  · exact (by decide : -4 ≤ (0 : JInt).toInt ∧ (0 : JInt).toInt ≤ 3)

/-! ### Words -/

theorem toInt_eq_toNat {a : JInt} (ha : 0 ≤ a.toInt) : a.toInt = a.toNat := by
  rw [BitVec.toInt_eq_toNat_cond] at ha ⊢
  have hlt := a.isLt
  split_ifs at ha ⊢ <;> omega

theorem toInt_of_toNat_le {a : JInt} {k : ℕ} (ha : a.toNat ≤ k) (hk : k < 2 ^ 31) :
    0 ≤ a.toInt ∧ a.toInt ≤ k := by
  rw [BitVec.toInt_eq_toNat_of_lt (by omega)]
  omega

theorem toInt_succ {a : JInt} (ha : a.toInt < 100) : (a + 1).toInt = a.toInt + 1 := by
  have hlow := a.le_toInt
  have hone : (1 : JInt).toInt = 1 := rfl
  rw [BitVec.toInt_add, hone]
  exact Int.bmod_eq_of_le (by omega) (by omega)

theorem toInt_pred {a : JInt} (ha : -100 < a.toInt) : (a - 1).toInt = a.toInt - 1 := by
  have hhigh := a.toInt_lt
  have hone : (1 : JInt).toInt = 1 := rfl
  rw [BitVec.toInt_sub, hone]
  exact Int.bmod_eq_of_le (by omega) (by omega)

theorem within_of_toNat_lt {LOG index : JInt} (hsize : 0 ≤ (shl 1 LOG).toInt)
    (hlt : index.toNat < (shl 1 LOG).toNat) : Within LOG index := by
  have heq := toInt_eq_toNat hsize
  have hword := (shl 1 LOG).toInt_lt
  have hindex := toInt_of_toNat_le (Nat.le_of_lt hlt) (by omega)
  rw [BitVec.toInt_eq_toNat_of_lt (by omega)] at hindex
  refine ⟨?_, ?_⟩
  · rw [BitVec.toInt_eq_toNat_of_lt (by omega)]
    omega
  · rw [BitVec.toInt_eq_toNat_of_lt (by omega)]
    omega

/-- A word that is cut to the bits of an index. -/
theorem toNat_and_mask_lt (a LOG : JInt) : (a &&& mask LOG).toNat < (shl 1 LOG).toNat := by
  have hpos : 0 < (shl 1 LOG).toNat := by
    have hlt : LOG.toNat % 32 < 32 := Nat.mod_lt _ (by decide)
    have hunit : (1 : JInt).toNat = 1 := rfl
    rw [shl, BitVec.toNat_shiftLeft, Nat.shiftLeft_eq, hunit, Nat.one_mul,
      Nat.mod_eq_of_lt (Nat.pow_lt_pow_right (by decide) hlt)]
    exact Nat.two_pow_pos _
  have hmask : (mask LOG).toNat = (shl 1 LOG).toNat - 1 := by
    have hunit : (1 : JInt).toNat = 1 := rfl
    have hlt := (shl 1 LOG).isLt
    rw [mask, BitVec.toNat_sub, hunit]
    omega
  have hle : (a &&& mask LOG).toNat ≤ (mask LOG).toNat := by
    rw [BitVec.toNat_and]
    exact Nat.and_le_right
  omega

theorem within_and_mask {LOG : JInt} (hsize : 0 ≤ (shl 1 LOG).toInt) (a : JInt) :
    Within LOG (a &&& mask LOG) :=
  within_of_toNat_lt hsize (toNat_and_mask_lt a LOG)

namespace Predictor

variable {p : Predictor} {n : ℕ}

/-- The tables have their sizes, and their contents and `PWIN` are in their ranges. -/
structure InRange (p : Predictor) : Prop where
  bimodal : 0 ≤ (shl 1 p.LOGB).toInt
  tagged : 0 ≤ (shl 1 p.LOGG).toInt
  entry : ∀ i j, (p.gtable i j).InRange
  PWIN : -8 ≤ p.PWIN.toInt ∧ p.PWIN.toInt ≤ 7

theorem inRange_new {PCBits : JInt} (h : new PCBits = some p) : p.InRange := by
  obtain ⟨hsize, heq⟩ := Option.ite_none_left_eq_some.mp h
  rw [not_or, not_or, not_lt, not_lt] at hsize
  cases heq
  exact ⟨hsize.2.1, hsize.2.2, fun _ _ => Gentry.inRange_allocated true 0,
    (by decide : -8 ≤ (0 : JInt).toInt ∧ (0 : JInt).toInt ≤ 7)⟩

theorem entry_setEntry_of_ne {i j : ℕ} (hne : i ≠ j) (e : Gentry) :
    (p.setEntry j e).entry i = p.entry i := by
  rw [Predictor.entry, setEntry]
  dsimp only
  rw [Function.update_of_ne hne]
  rfl

namespace InRange

theorem setEntry (h : p.InRange) (i : ℕ) {e : Gentry} (he : e.InRange) :
    (p.setEntry i e).InRange := by
  refine ⟨h.bimodal, h.tagged, fun i' j => ?_, h.PWIN⟩
  rw [Predictor.setEntry]
  dsimp only
  rw [Function.update_apply]
  split
  · rename_i heq
    rw [Function.update_apply]
    split
    · exact he
    · exact h.entry i j
  · exact h.entry i' j

theorem updatePWIN (h : p.InRange) (taken loctaken : Bool) :
    (p.updatePWIN taken loctaken).InRange := by
  have hPWIN := h.PWIN
  rw [Predictor.updatePWIN]
  split_ifs with _ _ hup hdown
  · exact h
  · refine ⟨h.bimodal, h.tagged, h.entry, ?_⟩
    rw [toInt_succ (by omega)]
    omega
  · exact h
  · refine ⟨h.bimodal, h.tagged, h.entry, ?_⟩
    rw [toInt_pred (by omega)]
    omega
  · exact h

theorem baseupdate (h : p.InRange) (taken : Bool) : (p.baseupdate taken).InRange := by
  rw [Predictor.baseupdate]
  dsimp only
  split_ifs <;> exact ⟨h.bimodal, h.tagged, h.entry, h.PWIN⟩

end InRange

/-- No entry below is less used than the least one. -/
theorem minUbit_le (p : Predictor) {i : ℕ} (hi : i < n) :
    (p.minUbit n).toInt ≤ (p.entry i).ubit.toInt := by
  induction n with
  | zero => exact absurd hi (Nat.not_lt_zero i)
  | succ n ih =>
    rw [minUbit]
    rcases Nat.lt_succ_iff_lt_or_eq.mp hi with hlt | rfl
    · have := ih hlt
      split_ifs <;> omega
    · split_ifs <;> omega

namespace InRange

/-- Entries that have been used lose one use. -/
theorem ageBelow (h : p.InRange) (hused : ∀ i < n, 0 < (p.entry i).ubit.toInt) :
    (p.ageBelow n).InRange := by
  induction n generalizing p with
  | zero => exact h
  | succ n ih =>
    rw [Predictor.ageBelow]
    have hentry := h.entry n (p.GI n).toNat
    have hn : 0 < (p.entry n).ubit.toInt := hused n (Nat.lt_succ_self n)
    refine ih (h.setEntry n ⟨hentry.ctr, ?_⟩) (fun i hi => ?_)
    · have hle : (p.entry n).ubit.toInt ≤ 3 := hentry.ubit.2
      rw [toInt_pred (by omega)]
      omega
    · rw [entry_setEntry_of_ne (Nat.ne_of_lt hi)]
      exact hused i (Nat.lt_succ_of_lt hi)

theorem allocateBelow (h : p.InRange) (pc : BitVec 64) (taken : Bool) (least : JInt) (n : ℕ) :
    (p.allocateBelow pc taken least n).InRange := by
  induction n with
  | zero => exact h
  | succ n ih =>
    rw [Predictor.allocateBelow]
    split
    · exact h.setEntry n (Gentry.inRange_allocated taken _)
    · exact ih

theorem allocate (h : p.InRange) (pc : BitVec 64) (taken : Bool) (NRAND : JInt) :
    (p.allocate pc taken NRAND).InRange := by
  rw [Predictor.allocate]
  dsimp only
  split
  · rename_i hleast
    exact h.ageBelow (fun i hi => lt_of_lt_of_le hleast (p.minUbit_le hi))
  · exact h.allocateBelow pc taken _ _

theorem resetUbits (h : p.InRange) : p.resetUbits.InRange := by
  rw [Predictor.resetUbits]
  dsimp only
  split
  · refine ⟨h.bimodal, h.tagged, fun i j => ⟨(h.entry i j).ctr, ?_⟩, h.PWIN⟩
    have hbits : ∀ u X : JInt, X.toNat ≤ 2 → 0 ≤ (u &&& X).toInt ∧ (u &&& X).toInt ≤ 3 := by
      intro u X hX
      have hle : (u &&& X).toNat ≤ 3 := by
        rw [BitVec.toNat_and]
        exact Nat.le_trans Nat.and_le_right (Nat.le_succ_of_le hX)
      exact toInt_of_toNat_le hle (by decide)
    refine hbits _ _ ?_
    split
    · decide
    · rw [BitVec.toNat_and]
      exact Nat.le_trans Nat.and_le_right (by decide)
  · exact ⟨h.bimodal, h.tagged, h.entry, h.PWIN⟩

theorem updateCounter (h : p.InRange) (taken : Bool) : (p.updateCounter taken).InRange := by
  rw [Predictor.updateCounter]
  split
  · have hentry := h.entry p.bank (p.GI p.bank).toNat
    have hctr : -4 ≤ (p.entry p.bank).ctr.toInt ∧ (p.entry p.bank).ctr.toInt ≤ 3 := hentry.ctr
    refine h.setEntry p.bank ⟨?_, hentry.ubit⟩
    have hhigh : (shl 1 (CBITS - 1) - 1).toInt = 3 := by decide
    have hlow : (-shl 1 (CBITS - 1)).toInt = -4 := by decide
    rw [ctrupdate, hhigh, hlow]
    split_ifs
    · rw [toInt_succ (by omega)]
      omega
    · simpa using hctr
    · rw [← BitVec.sub_eq_add_neg, toInt_pred (by omega)]
      omega
    · simpa using hctr
  · exact h.baseupdate taken

theorem updateUbit (h : p.InRange) (taken : Bool) : (p.updateUbit taken).InRange := by
  have hentry := h.entry p.bank (p.GI p.bank).toNat
  have hubit : 0 ≤ (p.entry p.bank).ubit.toInt ∧ (p.entry p.bank).ubit.toInt ≤ 3 := hentry.ubit
  rw [Predictor.updateUbit]
  split
  · exact h
  · dsimp only
    split_ifs
    · refine h.setEntry p.bank ⟨hentry.ctr, ?_⟩
      rw [toInt_succ (by omega)]
      omega
    · exact h
    · refine h.setEntry p.bank ⟨hentry.ctr, ?_⟩
      rw [toInt_pred (by omega)]
      omega
    · exact h

theorem updatePredictor (h : p.InRange) (pc : BitVec 64) (taken : Bool) :
    (p.updatePredictor pc taken).InRange := by
  have hdrawn : ({ p with Seed := p.nextSeed } : Predictor).InRange :=
    ⟨h.bimodal, h.tagged, h.entry, h.PWIN⟩
  rw [Predictor.updatePredictor, updateDrawn]
  dsimp only
  have hupdated : ∀ q : Predictor, q.InRange →
      ((q.resetUbits.updateCounter taken).updateUbit taken).InRange :=
    fun q hq => (hq.resetUbits.updateCounter taken).updateUbit taken
  have hhistories : ∀ q : Predictor, q.InRange → (q.updateHistories pc taken).InRange :=
    fun q hq => ⟨hq.bimodal, hq.tagged, hq.entry, hq.PWIN⟩
  refine hhistories _ (hupdated _ ?_)
  split_ifs
  · exact (hdrawn.updatePWIN taken _).allocate pc taken _
  · exact hdrawn.allocate pc taken _
  · exact hdrawn.updatePWIN taken _
  · exact hdrawn

theorem getPrediction (h : p.InRange) (pc : BitVec 64) : (p.getPrediction pc).1.InRange :=
  ⟨h.bimodal, h.tagged, h.entry, h.PWIN⟩

end InRange

/-! ### Indices -/

/-- The indices that a prediction leaves for the update. -/
structure Addressed (p : Predictor) : Prop where
  GI : ∀ i < NHIST, Within p.LOGG (p.GI i)
  BI : Within p.LOGB p.BI
  hyst : Within p.LOGB (shr p.BI 2)
  bank : p.bank ≤ NHIST
  agree : p.bank = NHIST → p.predTaken = p.alttaken

theorem matchFrom_le (p : Predictor) (pc : BitVec 64) (first : ℕ) :
    p.matchFrom pc first ≤ NHIST := by
  rw [matchFrom]
  cases hfind : ((List.range NHIST).drop first).find?
      (fun i => decide ((p.entry i).tag = p.gtag pc i)) with
  | none => exact le_rfl
  | some i =>
    have hmem := List.mem_of_mem_drop (List.mem_of_find?_eq_some hfind)
    exact Nat.le_of_lt (List.mem_range.mp hmem)

theorem readPrediction_bank (p : Predictor) (pc : BitVec 64) :
    (p.readPrediction pc).1 ≤ NHIST ∧
      ((p.readPrediction pc).1 = NHIST →
        (p.readPrediction pc).2.1 = (p.readPrediction pc).2.2) := by
  have hle := p.matchFrom_le pc 0
  rw [readPrediction]
  dsimp only
  by_cases hlt : p.matchFrom pc 0 < NHIST
  · rw [if_pos hlt]
    split
    · exact ⟨hle, fun heq => absurd heq (Nat.ne_of_lt hlt)⟩
    · exact ⟨hle, fun _ => rfl⟩
  · rw [if_neg hlt]
    exact ⟨hle, fun _ => rfl⟩

theorem toNat_shr_two_le {a : JInt} (ha : 0 ≤ a.toInt) : (shr a 2).toNat ≤ a.toNat := by
  have hnat := toInt_eq_toNat ha
  have hlt := a.toInt_lt
  have hshr : (shr a 2).toNat = a.toNat >>> 2 := toNat_shr_ofNat (by omega) (by decide)
  rw [hshr, Nat.shiftRight_eq_div_pow]
  exact Nat.div_le_self _ _

theorem addressed_getPrediction (h : p.InRange) (pc : BitVec 64) :
    (p.getPrediction pc).1.Addressed := by
  have hBI : Within p.LOGB (p.bindex pc) := within_and_mask h.bimodal _
  have hread := (p.addressed pc).readPrediction_bank pc
  refine ⟨fun i _ => within_and_mask h.tagged _, hBI, ?_, hread.1, hread.2⟩
  refine within_of_toNat_lt h.bimodal ?_
  exact lt_of_le_of_lt (toNat_shr_two_le hBI.1) (toNat_and_mask_lt _ _)

/-- A prediction was wrong, and its entry is not a new one that was right. -/
def ALLOC (p : Predictor) (taken : Bool) : Prop :=
  (p.predTaken ≠ taken ∧ 0 < p.bank) ∧
    ¬ ((decide (p.bank < NHIST) && p.pseudoNew p.bank) = true ∧
      decide (0 ≤ (p.entry p.bank).ctr.toInt) = taken)

instance (p : Predictor) (taken : Bool) : Decidable (p.ALLOC taken) :=
  inferInstanceAs (Decidable ((p.predTaken ≠ taken ∧ 0 < p.bank) ∧ ¬ (_ ∧ _)))

/-- The banks whose entries an update reads or writes. -/
def updatedBanks (p : Predictor) (taken : Bool) : List ℕ :=
  (if p.bank < NHIST then [p.bank] else []) ++
    (if p.ALLOC taken then List.range p.bank else []) ++
    (if p.predTaken ≠ p.alttaken then [p.bank] else [])

theorem Addressed.lt_of_mem (h : p.Addressed) {taken : Bool} {i : ℕ}
    (hi : i ∈ p.updatedBanks taken) : i < NHIST := by
  have hbank := h.bank
  rw [updatedBanks, List.mem_append, List.mem_append] at hi
  rcases hi with (hi | hi) | hi
  · split_ifs at hi with hlt
    · rwa [List.mem_singleton.mp hi]
    · simp at hi
  · split_ifs at hi
    · exact lt_of_lt_of_le (List.mem_range.mp hi) hbank
    · simp at hi
  · split_ifs at hi with hne
    · rw [List.mem_singleton.mp hi]
      exact lt_of_le_of_ne hbank (fun heq => hne (h.agree heq))
    · simp at hi

theorem updateDrawn_eq (p : Predictor) (pc : BitVec 64) (taken : Bool) :
    p.updateDrawn pc taken =
      let q := if decide (p.bank < NHIST) && p.pseudoNew p.bank then
        p.updatePWIN taken (decide (0 ≤ (p.entry p.bank).ctr.toInt)) else p
      let q := if p.ALLOC taken then q.allocate pc taken q.Seed else q
      ((q.resetUbits.updateCounter taken).updateUbit taken).updateHistories pc taken := rfl

/-- One round of `while ((Y & 1) != 0) { X--; Y >>= 1; }` -/
def lowerBankRound (s : ℤ × JInt) : ℤ × JInt ⊕ ℤ :=
  if s.2 &&& 1 ≠ 0 then .inl (s.1 - 1, shr s.2 1) else .inr s.1

/-- The loop ends before it has used up the banks. -/
theorem lowerBank_endsWith {X : ℕ} {Y : JInt} (hX : X < 31) (hY : Y.toNat < 2 ^ X) :
    EndsWith lowerBankRound (X, Y) (lowerBank X Y) ∧ lowerBank X Y ≤ X := by
  induction X generalizing Y with
  | zero =>
    have hzero : Y = 0#32 := by
      apply BitVec.eq_of_toNat_eq
      simpa using hY
    subst hzero
    exact ⟨.stop rfl, le_rfl⟩
  | succ X ih =>
    rw [lowerBank]
    split
    · rename_i hbit
      have hshr : (shr Y 1).toNat = Y.toNat >>> 1 := by
        refine toNat_shr_ofNat (lt_of_lt_of_le hY ?_) (by decide)
        exact Nat.pow_le_pow_right (by decide) (Nat.le_of_lt hX)
      have hhalf : (shr Y 1).toNat < 2 ^ X := by
        rw [hshr, Nat.shiftRight_eq_div_pow, Nat.div_lt_iff_lt_mul (by decide)]
        rwa [Nat.pow_succ] at hY
      obtain ⟨hends, hle⟩ := ih (Nat.lt_of_succ_lt hX) hhalf
      have hround : lowerBankRound (((X + 1 : ℕ) : ℤ), Y) = .inl ((X : ℤ), shr Y 1) := by
        rw [lowerBankRound, if_pos hbit]
        simp
      exact ⟨.again hround hends, Nat.le_succ_of_le hle⟩
    · rename_i hbit
      exact ⟨.stop (by rw [lowerBankRound, if_neg hbit]), le_rfl⟩

/-- The bank for an allocation is one of those below the bank that predicted. -/
theorem Addressed.allocation_index (h : p.Addressed) (hpos : 0 < p.bank) (NRAND : JInt) :
    ∃ X, X < p.bank ∧
      X = lowerBank (p.bank - 1) (NRAND &&& mask (BitVec.ofNat 32 (p.bank - 1))) ∧
      EndsWith lowerBankRound
        ((p.bank - 1 : ℕ), NRAND &&& mask (BitVec.ofNat 32 (p.bank - 1))) (X : ℤ) := by
  have hbank := h.bank
  have hNHIST : NHIST = 7 := rfl
  have hY : (NRAND &&& mask (BitVec.ofNat 32 (p.bank - 1))).toNat < 2 ^ (p.bank - 1) := by
    have hmask := toNat_mask (C := p.bank - 1) (by omega)
    have hpow := Nat.two_pow_pos (p.bank - 1)
    rw [BitVec.toNat_and, hmask]
    exact lt_of_le_of_lt Nat.and_le_right (by omega)
  obtain ⟨hends, hle⟩ := lowerBank_endsWith (by omega) hY
  exact ⟨_, by omega, rfl, hends⟩

/-- The bits of the global history that the registers read are kept. -/
def HistoriesFit (p : Predictor) : Prop :=
  ∀ i < NHIST, (p.chI i).OLENGTH.toNat < MAXHIST ∧ (p.chT0 i).OLENGTH.toNat < MAXHIST ∧
    (p.chT1 i).OLENGTH.toNat < MAXHIST

theorem historiesFit_new {PCBits : JInt} (h : new PCBits = some p) : p.HistoriesFit := by
  obtain ⟨-, heq⟩ := Option.ite_none_left_eq_some.mp h
  cases heq
  intro i hi
  have hlength := (bank_lengths i hi).1
  exact ⟨hlength, hlength, hlength⟩

theorem HistoriesFit.updatePredictor (h : p.HistoriesFit) (pc : BitVec 64) (taken : Bool) :
    (p.updatePredictor pc taken).HistoriesFit := by
  obtain ⟨q, hsame, heq⟩ := p.updatePredictor_histories pc taken
  intro i hi
  rw [heq, updateHistories]
  simp only [FoldedHistory.update, hsame.chI, hsame.chT0, hsame.chT1]
  exact h i hi

/-! ### Runs -/

/-- A prediction, and the training that follows it. -/
structure Training where
  predicted : BitVec 64
  trained : BitVec 64
  outcome : Bool

/-- `predict` followed by `Train`. -/
def train (p : Predictor) (b : Training) : Predictor :=
  (p.getPrediction b.predicted).1.updatePredictor b.trained b.outcome

/-- After any sequence of predictions and trainings the counters are in their ranges. So are
the indices that the next prediction computes, the banks that its training uses and the bank
that it allocates. -/
theorem ranges_of_run {PCBits : JInt} {p₀ : Predictor} (hnew : new PCBits = some p₀)
    (run : List Training) (pc : BitVec 64) (NRAND : JInt) :
    let p := run.foldl train p₀
    let q := (p.getPrediction pc).1
    p.InRange ∧ p.HistoriesFit ∧ q.InRange ∧ q.Addressed ∧
      (∀ taken, ∀ i ∈ q.updatedBanks taken, i < NHIST) ∧
      (0 < q.bank → ∃ X, X < q.bank ∧
        X = lowerBank (q.bank - 1) (NRAND &&& mask (BitVec.ofNat 32 (q.bank - 1))) ∧
        EndsWith lowerBankRound
          ((q.bank - 1 : ℕ), NRAND &&& mask (BitVec.ofNat 32 (q.bank - 1))) (X : ℤ)) := by
  have hrun : ∀ run : List Training,
      (run.foldl train p₀).InRange ∧ (run.foldl train p₀).HistoriesFit := by
    intro run
    induction run using List.reverseRecOn with
    | nil => exact ⟨inRange_new hnew, historiesFit_new hnew⟩
    | append_singleton run b ih =>
      rw [List.foldl_append]
      have hfit : ((run.foldl train p₀).getPrediction b.predicted).1.HistoriesFit := ih.2
      exact ⟨(ih.1.getPrediction b.predicted).updatePredictor b.trained b.outcome,
        hfit.updatePredictor b.trained b.outcome⟩
  obtain ⟨hrange, hfit⟩ := hrun run
  have haddressed := addressed_getPrediction hrange pc
  exact ⟨hrange, hfit, hrange.getPrediction pc, haddressed,
    fun taken i hi => haddressed.lt_of_mem hi, fun hpos => haddressed.allocation_index hpos NRAND⟩

theorem ranges_of_run_twelve :
    ∃ p₀, new 12 = some p₀ ∧ ([⟨64, 64, true⟩, ⟨68, 68, false⟩].foldl train p₀).InRange :=
  ⟨_, rfl, (ranges_of_run (show new 12 = some _ from rfl) _ 72 0).1⟩

end Predictor

end Tejas.Tage
