import Tejas.Tage
import Tejas.BitFolding
import Mathlib.Data.List.Induction

/-!
# The folded histories of the TAGE predictor

A folded history follows the global history: after every branch its register is the folding
of the newest `OLENGTH` outcomes. The register is a signed `int` that is shifted left by one
before it is cut to its length, so this holds for lengths up to 30.
-/

namespace Tejas.Tage
open BitFolding

variable {O C n : ℕ} {f : FoldedHistory} {h : ℕ → JInt} {outcomes : List Bool} {taken : Bool}

/-- The loop of `update_predictor` that shifts a history of `n` outcomes. -/
def shiftHistory (n : ℕ) (ghist : ℕ → JInt) (taken : Bool) (i : ℕ) : JInt :=
  if i = 0 then if taken then 1 else 0 else if i < n then ghist (i - 1) else ghist i

theorem shiftedHistory_eq (p : Predictor) :
    p.shiftedHistory taken = shiftHistory MAXHIST p.ghist taken := rfl

/-- A global history and a folded history that follows it. -/
structure Histories where
  ghist : ℕ → JInt
  folded : FoldedHistory

namespace Histories

def new (originalLength compressedLength : JInt) : Histories :=
  ⟨fun _ => 0, .new originalLength compressedLength⟩

def branch (n : ℕ) (s : Histories) (taken : Bool) : Histories :=
  ⟨shiftHistory n s.ghist taken, s.folded.update (shiftHistory n s.ghist taken)⟩

/-- The histories after a sequence of branches. -/
def after (n O C : ℕ) (outcomes : List Bool) : Histories :=
  outcomes.foldl (branch n) (new (BitVec.ofNat 32 O) (BitVec.ofNat 32 C))

end Histories

/-- The outcomes in a global history, as numbers. -/
def bits (ghist : ℕ → JInt) (i : ℕ) : ℕ := (ghist i).toNat

/-- The lengths of a folded history, with a register that has no bit beyond `C`. -/
structure FoldedHistory.Sized (f : FoldedHistory) (O C : ℕ) : Prop where
  clength : f.CLENGTH = BitVec.ofNat 32 C
  olength : f.OLENGTH.toNat = O
  outpoint : f.OUTPOINT = BitVec.ofNat 32 (O % C)
  comp_lt : f.comp.toNat < 2 ^ C

theorem toNat_shl_ofNat (a : JInt) {k : ℕ} (hk : k < 32) :
    (shl a (BitVec.ofNat 32 k)).toNat = a.toNat <<< k % 2 ^ 32 := by
  have hmod : k % 2 ^ 32 % 32 = k := by omega
  rw [shl, BitVec.toNat_ofNat, hmod, BitVec.toNat_shiftLeft]

theorem toNat_mask (hC : C < 32) : (mask (BitVec.ofNat 32 C)).toNat = 2 ^ C - 1 := by
  have hlt : 2 ^ C < 2 ^ 32 := Nat.pow_lt_pow_right (by decide) hC
  have hpos := Nat.two_pow_pos C
  have hunit : (1 : JInt).toNat = 1 := rfl
  have hone : (shl 1 (BitVec.ofNat 32 C)).toNat = 2 ^ C := by
    rw [toNat_shl_ofNat 1 hC, Nat.shiftLeft_eq, hunit, Nat.one_mul, Nat.mod_eq_of_lt hlt]
  rw [mask, BitVec.toNat_sub, hone, hunit]
  omega

/-- The mask of any `int`, whose five low bits are the number of bits. -/
theorem toNat_mask_mod (n : JInt) : (mask n).toNat = 2 ^ (n.toNat % 32) - 1 := by
  have hmod : mask n = mask (BitVec.ofNat 32 (n.toNat % 32)) := by
    rw [mask, mask, shl, shl, BitVec.toNat_ofNat]
    congr 2
    omega
  rw [hmod, toNat_mask (Nat.mod_lt _ (by decide))]

/-- A shift to the right keeps a register without the sign bit a number. -/
theorem toNat_shr_ofNat {a : JInt} (ha : a.toNat < 2 ^ 31) {k : ℕ} (hk : k < 32) :
    (shr a (BitVec.ofNat 32 k)).toNat = a.toNat >>> k := by
  have hmod : k % 2 ^ 32 % 32 = k := by omega
  have hmsb : a.msb = false := by
    rw [BitVec.msb_eq_decide, decide_eq_false_iff_not]
    omega
  rw [shr, BitVec.toNat_ofNat, hmod, BitVec.sshiftRight_eq_of_msb_false hmsb,
    BitVec.toNat_ushiftRight]

/-- A bit enters at the low end of a shifted register. -/
theorem shift_or_bit {x b : ℕ} (hb : b ≤ 1) : x <<< 1 ||| b = x <<< 1 ^^^ b := by
  apply Nat.eq_of_testBit_eq
  intro i
  rw [Nat.testBit_or, Nat.testBit_xor, Nat.testBit_shiftLeft]
  cases i with
  | zero => simp
  | succ i =>
    have hhigh : b.testBit (i + 1) = false := by
      refine Nat.testBit_lt_two_pow (Nat.lt_of_le_of_lt hb ?_)
      exact Nat.one_lt_two_pow (Nat.succ_ne_zero i)
    rw [hhigh, Bool.or_false, Bool.xor_false]

/-- An update wraps the shifted register with the bit that enters and the bit that leaves. -/
theorem FoldedHistory.Sized.toNat_update (hf : f.Sized O C) (hC : 1 ≤ C) (hC' : C ≤ 30)
    (hbits : ∀ i, bits h i ≤ 1) :
    (f.update h).comp.toNat =
      wrap C (f.comp.toNat <<< 1 ^^^ bits h 0 ^^^ bits h O <<< (O % C)) := by
  have hmod : O % C < C := Nat.mod_lt O hC
  have hpow : 2 ^ (C + 1) ≤ 2 ^ 31 := Nat.pow_le_pow_right (by decide) (by omega)
  have hshift : f.comp.toNat <<< 1 < 2 ^ (C + 1) := by
    have := hf.comp_lt
    rw [Nat.shiftLeft_eq, Nat.pow_succ]
    omega
  have hin : bits h 0 < 2 ^ (C + 1) :=
    Nat.lt_of_le_of_lt (hbits 0) (Nat.one_lt_two_pow (Nat.succ_ne_zero C))
  have hout : bits h O <<< (O % C) < 2 ^ (C + 1) := bit_shift_lt (hbits O) (by omega)
  have hcomp : (shl f.comp 1 ||| h 0).toNat = f.comp.toNat <<< 1 ^^^ bits h 0 := by
    have hone : shl f.comp 1 = shl f.comp (BitVec.ofNat 32 1) := rfl
    rw [BitVec.toNat_or, hone, toNat_shl_ofNat _ (by decide), Nat.mod_eq_of_lt (by omega)]
    exact shift_or_bit (hbits 0)
  have hinserted : ((shl f.comp 1 ||| h 0) ^^^ shl (h f.OLENGTH.toNat) f.OUTPOINT).toNat =
      f.comp.toNat <<< 1 ^^^ bits h 0 ^^^ bits h O <<< (O % C) := by
    have hout' : (shl (h O) (BitVec.ofNat 32 (O % C))).toNat = bits h O <<< (O % C) := by
      rw [toNat_shl_ofNat _ (by omega)]
      exact Nat.mod_eq_of_lt (Nat.lt_of_lt_of_le hout (by omega))
    rw [BitVec.toNat_xor, hcomp, hf.olength, hf.outpoint, hout']
  have hlt : f.comp.toNat <<< 1 ^^^ bits h 0 ^^^ bits h O <<< (O % C) < 2 ^ 31 :=
    Nat.lt_of_lt_of_le (Nat.xor_lt_two_pow (Nat.xor_lt_two_pow hshift hin) hout) hpow
  rw [← hinserted] at hlt
  rw [update, hf.clength, BitVec.toNat_and, toNat_mask (by omega), Nat.and_two_pow_sub_one_eq_mod,
    BitVec.toNat_xor, toNat_shr_ofNat hlt (by omega), hinserted]
  rfl

/-- The outcome of the `i`-th branch before now. -/
def outcome (outcomes : List Bool) (i : ℕ) : ℕ := (outcomes.reverse.getD i false).toNat

theorem outcome_le (outcomes : List Bool) (i : ℕ) : outcome outcomes i ≤ 1 := Bool.toNat_le _

/-- What the histories are after a sequence of branches. -/
structure Histories.Follow (s : Histories) (n O C : ℕ) (outcomes : List Bool) : Prop where
  ghist : ∀ i < n, bits s.ghist i = outcome outcomes i
  bit : ∀ i, bits s.ghist i ≤ 1
  sized : s.folded.Sized O C
  comp : s.folded.comp.toNat = folding C (bits s.ghist) O

/-- `OLENGTH % CLENGTH` of lengths that are not negative. -/
theorem srem_ofNat (hO : O < 2 ^ 31) (hC : C < 2 ^ 31) :
    (BitVec.ofNat 32 O).srem (BitVec.ofNat 32 C) = BitVec.ofNat 32 (O % C) := by
  have hmsb : ∀ k, k < 2 ^ 31 → (BitVec.ofNat 32 k).msb = false := by
    intro k hk
    rw [BitVec.msb_eq_decide, decide_eq_false_iff_not, BitVec.toNat_ofNat]
    omega
  have hmod : O % C ≤ O := Nat.mod_le O C
  apply BitVec.eq_of_toNat_eq
  rw [BitVec.srem_eq, hmsb O hO, hmsb C hC]
  simp only [BitVec.toNat_umod, BitVec.toNat_ofNat]
  rw [Nat.mod_eq_of_lt (by omega : O < 2 ^ 32), Nat.mod_eq_of_lt (by omega : C < 2 ^ 32),
    Nat.mod_eq_of_lt (by omega : O % C < 2 ^ 32)]

namespace Histories

theorem follow_new (hC : 1 ≤ C) (hC' : C ≤ 30) (hO : O < 2 ^ 31) :
    (new (BitVec.ofNat 32 O) (BitVec.ofNat 32 C)).Follow n O C [] := by
  have hzero : ∀ i, folding C (bits (fun _ => 0)) i = 0 := by
    intro i
    induction i with
    | zero => rfl
    | succ i ih =>
      rw [folding, ih]
      simp [bits]
  constructor
  case ghist => exact fun i _ => by simp [bits, new, outcome]
  case bit => exact fun i => by simp [bits, new]
  case sized =>
    refine ⟨rfl, ?_, srem_ofNat hO (by omega), Nat.two_pow_pos C⟩
    exact Nat.mod_eq_of_lt (by omega)
  case comp => exact (hzero O).symm

theorem Follow.branch {s : Histories} (hs : s.Follow n O C outcomes) (hC : 1 ≤ C) (hC' : C ≤ 30)
    (hO : O < n) (taken : Bool) : (s.branch n taken).Follow n O C (outcomes ++ [taken]) := by
  have hbit : ∀ i, bits (shiftHistory n s.ghist taken) i ≤ 1 := by
    intro i
    rw [bits, shiftHistory]
    split
    · cases taken <;> simp
    · split <;> exact hs.bit _
  have hnext : ∀ i < O, bits (shiftHistory n s.ghist taken) (i + 1) = bits s.ghist i := by
    intro i hi
    rw [bits, shiftHistory, if_neg (Nat.succ_ne_zero i), if_pos (by omega)]
    rfl
  have hcomp : (s.branch n taken).folded.comp.toNat =
      folding C (bits (shiftHistory n s.ghist taken)) O := by
    rw [Histories.branch, hs.sized.toNat_update hC hC' hbit, hs.comp]
    exact wrap_folding hC hbit hnext
  constructor
  case ghist =>
    intro i hi
    cases i with
    | zero => cases taken <;> simp [Histories.branch, bits, shiftHistory, outcome]
    | succ i =>
      have hprior := hs.ghist i (by omega)
      simp [Histories.branch, bits, shiftHistory, outcome, hi] at hprior ⊢
      exact hprior
  case bit => exact hbit
  case sized =>
    refine ⟨hs.sized.clength, hs.sized.olength, hs.sized.outpoint, ?_⟩
    rw [hcomp]
    exact folding_lt hC hbit
  case comp => exact hcomp

theorem follow_after (hC : 1 ≤ C) (hC' : C ≤ 30) (hO : O < n) (hn : n < 2 ^ 31)
    (outcomes : List Bool) : (after n O C outcomes).Follow n O C outcomes := by
  induction outcomes using List.reverseRecOn with
  | nil => exact follow_new hC hC' (by omega)
  | append_singleton outcomes taken ih =>
    rw [after, List.foldl_append]
    exact ih.branch hC hC' hO taken

/-- After each update the register is the xor over `i < O` of `h[i] << (i mod C)`, where `h` is
the global history, newest outcome first, and it has no bit beyond `C`. -/
theorem comp_after (n O C : ℕ) (hO : O < n) (hn : n < 2 ^ 31) (hC : 1 ≤ C) (hC' : C ≤ 30)
    (outcomes : List Bool) :
    (∀ i < n, bits (after n O C outcomes).ghist i = outcome outcomes i) ∧
    (after n O C outcomes).folded.comp.toNat =
      folding C (bits (after n O C outcomes).ghist) O ∧
    (after n O C outcomes).folded.comp.toNat < 2 ^ C := by
  have hfollow := follow_after hC hC' hO hn outcomes
  exact ⟨hfollow.ghist, hfollow.comp, hfollow.sized.comp_lt⟩

theorem comp_after_tag :
    (after 131 130 11 [true, false, true, true]).folded.comp.toNat =
      folding 11 (bits (after 131 130 11 [true, false, true, true]).ghist) 130 ∧
    (after 131 130 11 [true, false, true, true]).folded.comp.toNat < 2 ^ 11 :=
  (comp_after 131 130 11 (by decide) (by decide) (by decide) (by decide) _).2

/-- With 31 bits the shifted register is negative once an outcome is 30 branches old. -/
theorem comp_after_31_bits :
    ¬ ∀ (n O C : ℕ) (outcomes : List Bool), O < n → n < 2 ^ 31 → 1 ≤ C →
      (after n O C outcomes).folded.comp.toNat =
        folding C (bits (after n O C outcomes).ghist) O ∧
      (after n O C outcomes).folded.comp.toNat < 2 ^ C := by
  intro h
  have hfail := h 41 40 31 (true :: List.replicate 31 false) (by decide) (by decide) (by decide)
  revert hfail
  decide +kernel

end Histories

namespace Predictor

/-- Two predictors with the same histories. -/
structure SameHistories (p q : Predictor) : Prop where
  ghist : q.ghist = p.ghist
  chI : q.chI = p.chI
  chT0 : q.chT0 = p.chT0
  chT1 : q.chT1 = p.chT1

namespace SameHistories

variable {p q r : Predictor}

theorem refl (p : Predictor) : SameHistories p p := ⟨rfl, rfl, rfl, rfl⟩

theorem trans (h : SameHistories p q) (h' : SameHistories q r) : SameHistories p r :=
  ⟨h'.ghist.trans h.ghist, h'.chI.trans h.chI, h'.chT0.trans h.chT0, h'.chT1.trans h.chT1⟩

theorem setEntry (p : Predictor) (i : ℕ) (e : Gentry) : SameHistories p (p.setEntry i e) :=
  ⟨rfl, rfl, rfl, rfl⟩

theorem baseupdate (p : Predictor) (taken : Bool) : SameHistories p (p.baseupdate taken) := by
  rw [Predictor.baseupdate]
  dsimp only
  split
  · split
    · split <;> exact ⟨rfl, rfl, rfl, rfl⟩
    · split <;> exact ⟨rfl, rfl, rfl, rfl⟩
  · exact ⟨rfl, rfl, rfl, rfl⟩

theorem updatePWIN (p : Predictor) (taken loctaken : Bool) :
    SameHistories p (p.updatePWIN taken loctaken) := by
  rw [Predictor.updatePWIN]
  split
  · exact refl p
  · split
    · split <;> exact ⟨rfl, rfl, rfl, rfl⟩
    · split <;> exact ⟨rfl, rfl, rfl, rfl⟩

theorem ageBelow (p : Predictor) (bank : ℕ) : SameHistories p (p.ageBelow bank) := by
  induction bank generalizing p with
  | zero => exact refl p
  | succ i ih => exact (setEntry p i _).trans (ih _)

theorem allocateBelow (p : Predictor) (pc : BitVec 64) (taken : Bool) (least : JInt) (bank : ℕ) :
    SameHistories p (p.allocateBelow pc taken least bank) := by
  induction bank with
  | zero => exact refl p
  | succ i ih =>
    rw [Predictor.allocateBelow]
    split
    · exact setEntry p i _
    · exact ih

theorem allocate (p : Predictor) (pc : BitVec 64) (taken : Bool) (NRAND : JInt) :
    SameHistories p (p.allocate pc taken NRAND) := by
  rw [Predictor.allocate]
  dsimp only
  split
  · exact ageBelow p p.bank
  · exact allocateBelow p pc taken _ _

theorem resetUbits (p : Predictor) : SameHistories p p.resetUbits := by
  rw [Predictor.resetUbits]
  dsimp only
  split <;> exact ⟨rfl, rfl, rfl, rfl⟩

theorem updateCounter (p : Predictor) (taken : Bool) :
    SameHistories p (p.updateCounter taken) := by
  rw [Predictor.updateCounter]
  split
  · exact setEntry p p.bank _
  · exact baseupdate p taken

theorem updateUbit (p : Predictor) (taken : Bool) : SameHistories p (p.updateUbit taken) := by
  rw [Predictor.updateUbit]
  dsimp only
  split
  · exact refl p
  · split
    · split
      · exact setEntry p p.bank _
      · exact refl p
    · split
      · exact setEntry p p.bank _
      · exact refl p

end SameHistories

/-- An update changes the histories once, at its end. -/
theorem updatePredictor_histories (p : Predictor) (pc : BitVec 64) (taken : Bool) :
    ∃ q, SameHistories p q ∧ p.updatePredictor pc taken = q.updateHistories pc taken := by
  rw [updatePredictor, updateDrawn]
  dsimp only
  refine ⟨_, ?_, rfl⟩
  refine SameHistories.trans ?_ (.updateUbit _ taken)
  refine SameHistories.trans ?_ (.updateCounter _ taken)
  refine SameHistories.trans ?_ (.resetUbits _)
  have hdrawn : SameHistories p { p with Seed := p.nextSeed } := ⟨rfl, rfl, rfl, rfl⟩
  refine hdrawn.trans ?_
  split
  · split
    · exact (SameHistories.updatePWIN _ taken _).trans (.allocate _ pc taken _)
    · exact .allocate _ pc taken _
  · split
    · exact .updatePWIN _ taken _
    · exact .refl _

/-- The folded histories of a bank, after a sequence of outcomes. -/
structure Folded (p : Predictor) (LOGG bank : ℕ) (outcomes : List Bool) : Prop where
  chI : (⟨p.ghist, p.chI bank⟩ : Histories).Follow MAXHIST (m bank).toNat LOGG outcomes
  chT0 : (⟨p.ghist, p.chT0 bank⟩ : Histories).Follow MAXHIST (m bank).toNat
    (tagBits bank).toNat outcomes
  chT1 : (⟨p.ghist, p.chT1 bank⟩ : Histories).Follow MAXHIST (m bank).toNat
    (tagBits bank - 1).toNat outcomes

/-- The predictor after the branches of a program. -/
def run (p : Predictor) (branches : List Branch) : Predictor :=
  branches.foldl (fun p b => (execute p () b).1) p

theorem bank_lengths : ∀ bank < NHIST, (m bank).toNat < MAXHIST ∧ 1 ≤ (tagBits bank).toNat ∧
    (tagBits bank).toNat ≤ 30 ∧ 1 ≤ (tagBits bank - 1).toNat ∧
    (tagBits bank - 1).toNat ≤ 30 := by
  decide

theorem folded_new {PCBits : JInt} {p : Predictor} (h : Predictor.new PCBits = some p)
    {bank : ℕ} (hbank : bank < NHIST) (hlow : 1 ≤ (PCBits - 4).toNat)
    (hhigh : (PCBits - 4).toNat ≤ 30) : p.Folded (PCBits - 4).toNat bank [] := by
  have hlengths := bank_lengths bank hbank
  have hnew : ∀ C : JInt, 1 ≤ C.toNat → C.toNat ≤ 30 →
      (Histories.new (m bank) C).Follow MAXHIST (m bank).toNat C.toNat [] := by
    intro C hC hC'
    have hfollow := Histories.follow_new (n := MAXHIST) (O := (m bank).toNat) hC hC'
      (Nat.lt_trans hlengths.1 (by decide))
    rwa [BitVec.ofNat_toNat, BitVec.setWidth_eq, BitVec.ofNat_toNat, BitVec.setWidth_eq] at hfollow
  rw [Predictor.new] at h
  split at h
  · cases h
  · cases h
    exact ⟨hnew _ hlow hhigh, hnew _ hlengths.2.1 hlengths.2.2.1,
      hnew _ hlengths.2.2.2.1 hlengths.2.2.2.2⟩

theorem Folded.execute {p : Predictor} {LOGG bank : ℕ} (h : p.Folded LOGG bank outcomes)
    (hbank : bank < NHIST) (hlow : 1 ≤ LOGG) (hhigh : LOGG ≤ 30) (b : Branch) :
    (execute p () b).1.Folded LOGG bank (outcomes ++ [b.outcome]) := by
  have hlengths := bank_lengths bank hbank
  obtain ⟨q, hsame, hupdate⟩ :=
    (p.getPrediction b.address).1.updatePredictor_histories b.address b.outcome
  have hghist : q.ghist = p.ghist := hsame.ghist
  have hchI : q.chI = p.chI := hsame.chI
  have hchT0 : q.chT0 = p.chT0 := hsame.chT0
  have hchT1 : q.chT1 = p.chT1 := hsame.chT1
  rw [Tage.execute]
  dsimp only
  rw [hupdate]
  have hnewI := h.chI.branch hlow hhigh hlengths.1 b.outcome
  have hnewT0 := h.chT0.branch hlengths.2.1 hlengths.2.2.1 hlengths.1 b.outcome
  have hnewT1 := h.chT1.branch hlengths.2.2.2.1 hlengths.2.2.2.2 hlengths.1 b.outcome
  rw [← hghist] at hnewI hnewT0 hnewT1
  rw [← hchI] at hnewI
  rw [← hchT0] at hnewT0
  rw [← hchT1] at hnewT1
  exact ⟨hnewI, hnewT0, hnewT1⟩

/-- The registers of every bank follow the history of the program's branches. -/
theorem folded_run {PCBits : JInt} {p : Predictor} (h : Predictor.new PCBits = some p)
    (hlow : 1 ≤ (PCBits - 4).toNat) (hhigh : (PCBits - 4).toNat ≤ 30) (branches : List Branch)
    {bank : ℕ} (hbank : bank < NHIST) :
    (p.run branches).Folded (PCBits - 4).toNat bank (branches.map (fun b => b.outcome)) := by
  induction branches using List.reverseRecOn with
  | nil => exact folded_new h hbank hlow hhigh
  | append_singleton branches b ih =>
    rw [run, List.foldl_append, List.map_append]
    exact ih.execute hbank hlow hhigh b

end Predictor

end Tejas.Tage
