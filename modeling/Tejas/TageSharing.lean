import Tejas.Tage

/-!
# Cores that share a predictor

Two branches of one core that are not taken turn the first prediction of another core
round, so the cores are isolated only when there is one.
-/

namespace Tejas.Tage
open TwoRuns Predictor

variable {p : Predictor} {c w t : JInt}

/-- Nothing but branches at address 0 that were not taken has been seen: the histories are
zero, and the first entry of the first bank has counted the branches. -/
structure SeenNotTaken (p : Predictor) (c w t : JInt) : Prop where
  phist : p.phist = 0#32
  chI : ∀ i, (p.chI i).comp = 0#32
  chT0 : ∀ i, (p.chT0 i).comp = 0#32
  chT1 : ∀ i, (p.chT1 i).comp = 0#32
  ghist : ∀ i, p.ghist i = 0#32
  first : p.gtable 0 0 = ⟨c, 0#32, 0#32⟩
  second : p.gtable 1 0 = ⟨0#32, 0#32, 0#32⟩
  pwin : p.PWIN = w
  tick : p.TICK = t

@[simp] theorem shl_zero (n : JInt) : shl 0#32 n = 0#32 := BitVec.zero_shiftLeft _

@[simp] theorem shr_zero (n : JInt) : shr 0#32 n = 0#32 := by simp [shr]

@[simp] theorem F_zero (p : Predictor) (size : JInt) (bank : ℕ) :
    p.F 0#32 size bank = 0#32 := by
  simp [F]

theorem SeenNotTaken.gindex (h : SeenNotTaken p c w t) (bank : ℕ) :
    p.gindex 0#64 bank = 0#32 := by
  simp [Predictor.gindex, h.phist, h.chI, shrLong]

theorem SeenNotTaken.gtag (h : SeenNotTaken p c w t) (bank : ℕ) :
    p.gtag 0#64 bank = 0#32 := by
  simp [Predictor.gtag, h.chT0, h.chT1]

theorem SeenNotTaken.addressed (h : SeenNotTaken p c w t) :
    SeenNotTaken (p.addressed 0#64) c w t :=
  ⟨h.phist, h.chI, h.chT0, h.chT1, h.ghist, h.first, h.second, h.pwin, h.tick⟩

/-- What is predicted once the counter of the first bank is known. -/
def answer (c w : JInt) : Bool :=
  if w.toInt < 0 ∨ abs (2 * c + 1) ≠ 1 then decide (0 ≤ c.toInt) else true

/-- The entry that answers a branch at address 0 is the first one of the first bank, and the
second bank gives the alternate prediction. -/
theorem SeenNotTaken.getPrediction (h : SeenNotTaken p c w t) :
    p.getPrediction 0#64 =
      ({ p.addressed 0#64 with bank := 0, predTaken := answer c w, alttaken := true },
        answer c w) := by
  have hindex : ∀ i, (p.addressed 0#64).GI i = 0#32 := h.gindex
  have htag := h.addressed.gtag
  have hfirst : (p.addressed 0#64).entry 0 = ⟨c, 0#32, 0#32⟩ := by
    rw [entry, hindex]
    exact h.first
  have hsecond : (p.addressed 0#64).entry 1 = ⟨0#32, 0#32, 0#32⟩ := by
    rw [entry, hindex]
    exact h.second
  have hret : (p.addressed 0#64).matchFrom 0#64 0 = 0 := by
    simp [matchFrom, NHIST, List.range_succ_eq_map, hfirst, htag]
  have halt : (p.addressed 0#64).matchFrom 0#64 1 = 1 := by
    simp [matchFrom, NHIST, List.range_succ_eq_map, hsecond, htag]
  have hpwin : (p.addressed 0#64).PWIN = w := h.pwin
  have hpseudo : (p.addressed 0#64).pseudoNew 0 = decide (abs (2 * c + 1) = 1) := by
    simp [pseudoNew, hfirst]
  have hlast : (1 : ℕ) < 7 := by decide
  have halternate : decide (0 ≤ (0#32).toInt) = true := rfl
  have hread : (p.addressed 0#64).readPrediction 0#64 = (0, answer c w, true) := by
    unfold readPrediction answer
    simp only [hret, Nat.zero_add, halt, hfirst, hsecond, hpseudo, hpwin, NHIST, halternate,
      Nat.zero_lt_succ, hlast, if_true, decide_eq_false_iff_not]
    split <;> rfl
  rw [Predictor.getPrediction, hread]

/-- The counter `PWIN` after a branch that was not taken although the second bank said so. -/
def pwinAfter (c w : JInt) : JInt :=
  if abs (2 * c + 1) = 1 ∧ c.toInt < 0 ∧ -8 < w.toInt then w - 1 else w

/-- The branch at address 0 was answered from the first bank, as taken. -/
structure AnsweredTaken (p : Predictor) (c w t : JInt) : Prop where
  seen : SeenNotTaken p c w t
  index : ∀ i, p.GI i = 0#32
  bank : p.bank = 0
  predTaken : p.predTaken = true
  alttaken : p.alttaken = true

theorem AnsweredTaken.entry_zero (h : AnsweredTaken p c w t) : p.entry 0 = ⟨c, 0#32, 0#32⟩ := by
  rw [entry, h.index]
  exact h.seen.first

theorem AnsweredTaken.updatePWIN (h : AnsweredTaken p c w t) (hnew : abs (2 * c + 1) = 1) :
    AnsweredTaken (p.updatePWIN false (decide (0 ≤ c.toInt))) c (pwinAfter c w) t := by
  obtain ⟨⟨hphist, hchI, hchT0, hchT1, hghist, hfirst, hsecond, hpwin, htick⟩, hindex, hbank,
    hpred, halt⟩ := h
  unfold Predictor.updatePWIN pwinAfter
  rw [halt, hpwin]
  split
  · rename_i hsame
    have hcount : ¬ c.toInt < 0 := by
      have := of_decide_eq_true hsame
      omega
    rw [if_neg (fun hboth => hcount hboth.2.1)]
    exact ⟨⟨hphist, hchI, hchT0, hchT1, hghist, hfirst, hsecond, hpwin, htick⟩, hindex, hbank,
      hpred, halt⟩
  · rename_i hdiffer
    have hcount : c.toInt < 0 := by
      by_contra hnot
      exact hdiffer (decide_eq_true (by omega))
    rw [if_neg (by decide)]
    split
    · rename_i hroom
      rw [if_pos ⟨hnew, hcount, hroom⟩]
      exact ⟨⟨hphist, hchI, hchT0, hchT1, hghist, hfirst, hsecond, rfl, htick⟩, hindex, hbank,
        hpred, rfl⟩
    · rename_i hroom
      rw [if_neg (fun hboth => hroom hboth.2.2)]
      exact ⟨⟨hphist, hchI, hchT0, hchT1, hghist, hfirst, hsecond, hpwin, htick⟩, hindex, hbank,
        hpred, halt⟩

theorem AnsweredTaken.resetUbits (h : AnsweredTaken p c w t) (htick : (t + 1) &&& mask 18 ≠ 0) :
    AnsweredTaken p.resetUbits c w (t + 1) := by
  have hsame : p.TICK = t := h.seen.tick
  unfold Predictor.resetUbits
  simp only [hsame, if_neg htick]
  obtain ⟨⟨hphist, hchI, hchT0, hchT1, hghist, hfirst, hsecond, hpwin, -⟩, hindex, hbank,
    hpred, halt⟩ := h
  exact ⟨⟨hphist, hchI, hchT0, hchT1, hghist, hfirst, hsecond, hpwin, rfl⟩, hindex, hbank,
    hpred, halt⟩

theorem AnsweredTaken.updateCounter (h : AnsweredTaken p c w t) :
    AnsweredTaken (p.updateCounter false) (c + ctrupdate c false CBITS) w t := by
  have hentry := h.entry_zero
  obtain ⟨⟨hphist, hchI, hchT0, hchT1, hghist, hfirst, hsecond, hpwin, htick⟩, hindex, hbank,
    hpred, halt⟩ := h
  have hlt : (0 : ℕ) < NHIST := by decide
  unfold Predictor.updateCounter
  rw [hbank, if_pos hlt]
  dsimp only
  rw [hentry]
  unfold Predictor.setEntry
  refine ⟨⟨hphist, hchI, hchT0, hchT1, hghist, ?_, ?_, hpwin, htick⟩, hindex, hbank, hpred, halt⟩
  · dsimp only
    rw [hindex]
    simp
  · dsimp only
    rw [Function.update_of_ne (by decide)]
    exact hsecond

theorem AnsweredTaken.updateUbit (h : AnsweredTaken p c w t) :
    AnsweredTaken (p.updateUbit false) c w t := by
  have hsame : p.predTaken = p.alttaken := h.predTaken.trans h.alttaken.symm
  unfold Predictor.updateUbit
  rw [if_pos hsame]
  exact h

theorem update_zero {f : FoldedHistory} {g : ℕ → JInt} (hcomp : f.comp = 0#32)
    (hg : ∀ i, g i = 0#32) : (f.update g).comp = 0#32 := by
  simp [FoldedHistory.update, hcomp, hg]

theorem AnsweredTaken.updateHistories (h : AnsweredTaken p c w t) :
    SeenNotTaken (p.updateHistories 0#64 false) c w t := by
  obtain ⟨⟨hphist, hchI, hchT0, hchT1, hghist, hfirst, hsecond, hpwin, htick⟩, -⟩ := h
  have hzero : ∀ i, p.shiftedHistory false i = 0#32 := by
    intro i
    unfold shiftedHistory
    split
    · rfl
    · split
      · exact hghist _
      · exact hghist _
  constructor
  case phist =>
    simp [Predictor.updateHistories, hphist]
  case chI => exact fun i => update_zero (hchI i) hzero
  case chT0 => exact fun i => update_zero (hchT0 i) hzero
  case chT1 => exact fun i => update_zero (hchT1 i) hzero
  case ghist => exact hzero
  case first => exact hfirst
  case second => exact hsecond
  case pwin => exact hpwin
  case tick => exact htick

theorem AnsweredTaken.updateDrawn (h : AnsweredTaken p c w t)
    (hnew : abs (2 * c + 1) = 1) (htick : (t + 1) &&& mask 18 ≠ 0) :
    SeenNotTaken (p.updateDrawn 0#64 false) (c + ctrupdate c false CBITS) (pwinAfter c w)
      (t + 1) := by
  have hpseudo : p.pseudoNew 0 = true := by
    unfold pseudoNew
    rw [h.entry_zero]
    exact decide_eq_true ⟨hnew, rfl⟩
  have hlt : (0 : ℕ) < NHIST := by decide
  have hcounted := ((h.updatePWIN hnew).resetUbits htick).updateCounter
  have hstep := hcounted.updateUbit.updateHistories
  unfold Predictor.updateDrawn
  simp only [h.bank, hpseudo, h.entry_zero, hlt, Nat.lt_irrefl, and_false, false_and, if_false,
    decide_true, Bool.and_self, if_true]
  exact hstep

/-- A branch that is not taken changes one counter, `PWIN` and the tick. -/
theorem AnsweredTaken.updatePredictor (h : AnsweredTaken p c w t)
    (hnew : abs (2 * c + 1) = 1) (htick : (t + 1) &&& mask 18 ≠ 0) :
    SeenNotTaken (p.updatePredictor 0#64 false) (c + ctrupdate c false CBITS) (pwinAfter c w)
      (t + 1) := by
  have hseed : AnsweredTaken { p with Seed := p.nextSeed } c w t := by
    obtain ⟨⟨hphist, hchI, hchT0, hchT1, hghist, hfirst, hsecond, hpwin, htick⟩, hindex, hbank,
      hpred, halt⟩ := h
    exact ⟨⟨hphist, hchI, hchT0, hchT1, hghist, hfirst, hsecond, hpwin, htick⟩, hindex, hbank,
      hpred, halt⟩
  exact hseed.updateDrawn hnew htick

/-! ### Two cores -/

variable {Core : Type}

theorem SeenNotTaken.execute_result (h : SeenNotTaken p c w t) (core : Core) (outcome : Bool) :
    (execute p core ⟨0#64, outcome⟩).2 = answer c w := by
  unfold execute
  dsimp only
  rw [h.getPrediction]

theorem SeenNotTaken.executed (h : SeenNotTaken p c w t) (core : Core)
    (hanswer : answer c w = true) (hnew : abs (2 * c + 1) = 1)
    (htick : (t + 1) &&& mask 18 ≠ 0) :
    SeenNotTaken (execute p core ⟨0#64, false⟩).1 (c + ctrupdate c false CBITS) (pwinAfter c w)
      (t + 1) := by
  unfold execute
  dsimp only
  rw [h.getPrediction]
  have hindex : ∀ i, (p.addressed 0#64).GI i = 0#32 := h.gindex
  obtain ⟨hphist, hchI, hchT0, hchT1, hghist, hfirst, hsecond, hpwin, htick'⟩ := h.addressed
  have hanswered : AnsweredTaken
      { p.addressed 0#64 with bank := 0, predTaken := answer c w, alttaken := true } c w t :=
    ⟨⟨hphist, hchI, hchT0, hchT1, hghist, hfirst, hsecond, hpwin, htick'⟩, hindex, rfl, hanswer,
      rfl⟩
  exact hanswered.updatePredictor hnew htick

theorem seenNotTaken_new {PCBits : JInt} (h : Predictor.new PCBits = some p) :
    SeenNotTaken p 0 0 0 := by
  unfold Predictor.new at h
  dsimp only at h
  split at h
  · cases h
  · cases h
    exact ⟨rfl, fun _ => rfl, fun _ => rfl, fun _ => rfl, fun _ => rfl, rfl, rfl, rfl, rfl⟩

theorem seenNotTaken_construct {configs : List JInt} (h : construct configs = some p) :
    SeenNotTaken p 0 0 0 := by
  induction configs with
  | nil => cases h
  | cons PCBits rest ih =>
    cases rest with
    | nil => exact seenNotTaken_new h
    | cons PCBits' rest' =>
      obtain ⟨-, -, hrest⟩ := Option.bind_eq_some_iff.mp h
      exact ih hrest

/-- After two branches of the other core the prediction has changed. -/
theorem SeenNotTaken.not_isolated [DecidableEq Core] (h : SeenNotTaken p 0 0 0) {A B : Core}
    (hne : B ≠ A) : ¬ Isolated execute p A := by
  intro hisolated
  have hone := h.executed B (by decide) (by decide) (by decide)
  have htwo := hone.executed B (by decide) (by decide) (by decide)
  have hsame := hisolated [(A, ⟨0#64, true⟩)]
    [(B, ⟨0#64, false⟩), (B, ⟨0#64, false⟩), (A, ⟨0#64, true⟩)] (by simp [actionsOf, hne])
  simp only [resultsOf, hne, if_false, if_true] at hsame
  rw [h.execute_result, htwo.execute_result] at hsame
  exact absurd hsame (by decide)

/-- Each core's predictions depend on its own branches alone exactly when there is one
core. -/
theorem isolated_iff {configs : List JInt} (h : construct configs = some p) :
    (∀ core : Fin configs.length, Isolated execute p core) ↔ configs.length = 1 := by
  have hseen := seenNotTaken_construct h
  have hpos : 0 < configs.length := by
    cases configs with
    | nil => cases h
    | cons PCBits rest => exact Nat.succ_pos _
  constructor
  · intro hall
    by_contra hmany
    have hone : 1 < configs.length := by omega
    have hne : (⟨1, hone⟩ : Fin configs.length) ≠ ⟨0, hpos⟩ := by
      intro heq
      exact Nat.one_ne_zero (congrArg Fin.val heq)
    exact hseen.not_isolated hne (hall ⟨0, hpos⟩)
  · intro hone core
    apply isolated_of_alone
    intro other
    apply Fin.ext
    omega

/-- One core with tables of the usual size. -/
theorem isolated_oneCore : ∃ p, construct [16] = some p ∧
    (∀ core : Fin 1, Isolated execute p core) := by
  have hsome : (construct [16]).isSome = true := by decide
  obtain ⟨p, hp⟩ := Option.isSome_iff_exists.mp hsome
  exact ⟨p, hp, (isolated_iff hp).mpr rfl⟩

/-- Two cores of the usual size: branches of the second one change what the first is told. -/
theorem twoCores_share : ¬ ∀ (configs : List JInt) (p : Predictor),
    construct configs = some p → ∀ core : Fin configs.length, Isolated execute p core := by
  intro hclaim
  have hsome : (construct [16, 16]).isSome = true := by decide
  obtain ⟨p, hp⟩ := Option.isSome_iff_exists.mp hsome
  have hall : ∀ core : Fin 2, Isolated execute p core := hclaim [16, 16] p hp
  have hne : (1 : Fin 2) ≠ 0 := by decide
  exact (seenNotTaken_construct hp).not_isolated hne (hall 0)

end Tejas.Tage
