import Mathlib.Algebra.BigOperators.Group.List.Lemmas
import Mathlib.Algebra.BigOperators.Ring.List
import Mathlib.Algebra.Ring.Nat
import Mathlib.Data.List.Forall2
import Mathlib.Data.Nat.ModEq
import Tejas.WhileLoops

/-!
# The step sizes of the cores

A core of frequency `f` makes a step every `s` cycles of the global clock, where `s * f` is the
same for all cores and the `s` are as small as possible. They are found from the highest common
factor of the frequencies, by a search that counts upwards, and from the lowest common multiple
of what is left, by a search through the multiples of the first.
-/

namespace Tejas.GlobalClock

open WhileLoops

/-- The inner loop of the search for a common factor: whether `i` divides all the frequencies,
and whether it is met among them before one that it does not divide. -/
def tryFactor (i : ℕ) : List ℕ → Bool → Bool × Bool
  | [], HCFFound => (true, HCFFound)
  | freq :: rest, HCFFound =>
    if freq % i ≠ 0 then (false, HCFFound)
    else tryFactor i rest (HCFFound || decide (freq = i))

/-- One round of the search for the highest common factor. The state is `i` and the factor
found last. -/
def hcfRound (freq_list : List ℕ) (s : ℕ × ℕ) : ℕ × ℕ ⊕ ℕ :=
  let tried := tryFactor s.1 freq_list false
  let HCF := if tried.1 then s.1 else s.2
  if tried.2 then .inr HCF else .inl (s.1 + 1, HCF)

/-- One round of the search for the lowest common multiple. -/
def lcmRound (freq_list : List ℕ) (cur : ℕ) : ℕ ⊕ ℕ :=
  if freq_list.all (fun freq => decide (cur % freq = 0)) then .inr cur
  else .inl (cur + freq_list.headD 0)

/-- The step sizes, from the frequencies in MHz. -/
def systemTimingSetUp (rounds : ℕ) (frequencies : List ℕ) : Option (List ℕ) :=
  let freq_list := frequencies.map (fun frequency => frequency / 100)
  (whileLoop (hcfRound freq_list) rounds (1, 1)).bind (fun HCF =>
    let freq_list := freq_list.map (fun freq => freq / HCF)
    (whileLoop (lcmRound freq_list) rounds (freq_list.headD 0)).map (fun LCM =>
      freq_list.map (fun freq => LCM / freq)))

/-- Positive step sizes that give every core the same number of cycles. -/
def AreStepSizes (freqs steps : List ℕ) : Prop :=
  (∀ s ∈ steps, 0 < s) ∧ ∃ c, List.Forall₂ (fun s freq => s * freq = c) steps freqs

variable {freqs : List ℕ} {i HCF LCM : ℕ}

theorem tryFactor_fst (i : ℕ) (freqs : List ℕ) (found : Bool) :
    (tryFactor i freqs found).1 = true ↔ ∀ freq ∈ freqs, i ∣ freq := by
  induction freqs generalizing found with
  | nil => simp [tryFactor]
  | cons freq rest ih =>
    rw [tryFactor, List.forall_mem_cons, Nat.dvd_iff_mod_eq_zero]
    by_cases hdvd : freq % i = 0
    · rw [if_neg (not_not.mpr hdvd), ih]
      simp [hdvd]
    · rw [if_pos hdvd]
      simp [hdvd]

theorem tryFactor_snd (i : ℕ) (freqs : List ℕ) (found : Bool)
    (h : (tryFactor i freqs found).2 = true) : found = true ∨ i ∈ freqs := by
  induction freqs generalizing found with
  | nil => exact .inl h
  | cons freq rest ih =>
    rw [tryFactor] at h
    split at h
    · exact .inl h
    · rcases ih _ h with hfound | hmem
      · rw [Bool.or_eq_true, decide_eq_true_eq] at hfound
        rcases hfound with hfound | heq
        · exact .inl hfound
        · exact .inr (heq ▸ List.mem_cons_self)
      · exact .inr (List.mem_cons_of_mem _ hmem)

/-- What has been met stays met. -/
theorem tryFactor_found (i : ℕ) (freqs : List ℕ) : (tryFactor i freqs true).2 = true := by
  induction freqs with
  | nil => rfl
  | cons freq rest ih =>
    rw [tryFactor, Bool.true_or]
    split
    · rfl
    · exact ih

/-- The search ends at the first frequency at the latest. -/
theorem tryFactor_first (freq : ℕ) (rest : List ℕ) :
    (tryFactor freq (freq :: rest) false).2 = true := by
  rw [tryFactor, if_neg (by simp), decide_eq_true rfl, Bool.or_true, tryFactor_found]

/-- The state of the search before it tries `i`. -/
structure Searching (freqs : List ℕ) (first : ℕ) (s : ℕ × ℕ) : Prop where
  pos : 0 < s.1
  le : s.1 ≤ first
  factor_pos : 0 < s.2
  factor : ∀ freq ∈ freqs, s.2 ∣ freq
  highest : ∀ d < s.1, (∀ freq ∈ freqs, d ∣ freq) → d ≤ s.2

/-- The greatest number that divides all the frequencies. -/
structure IsHCF (freqs : List ℕ) (HCF : ℕ) : Prop where
  pos : 0 < HCF
  factor : ∀ freq ∈ freqs, HCF ∣ freq
  highest : ∀ d, (∀ freq ∈ freqs, d ∣ freq) → d ≤ HCF

theorem exists_hcf {first : ℕ} {rest : List ℕ} (hpos : ∀ freq ∈ first :: rest, 0 < freq) :
    ∃ HCF, EndsWith (hcfRound (first :: rest)) (1, 1) HCF ∧ IsHCF (first :: rest) HCF := by
  -- after a try, the factor is the highest one up to `i`
  have htried : ∀ s : ℕ × ℕ, Searching (first :: rest) first s →
      let HCF := if (tryFactor s.1 (first :: rest) false).1 then s.1 else s.2
      0 < HCF ∧ (∀ freq ∈ first :: rest, HCF ∣ freq) ∧
        ∀ d ≤ s.1, (∀ freq ∈ first :: rest, d ∣ freq) → d ≤ HCF := by
    intro s hs
    have hiff := tryFactor_fst s.1 (first :: rest) false
    split
    · rename_i htrue
      exact ⟨hs.pos, hiff.mp htrue, fun d hd _ => hd⟩
    · rename_i hfalse
      refine ⟨hs.factor_pos, hs.factor, fun d hd hdvd => ?_⟩
      rcases Nat.lt_or_eq_of_le hd with hlt | rfl
      · exact hs.highest d hlt hdvd
      · exact absurd (hiff.mpr hdvd) hfalse
  refine exists_endsWith (I := Searching (first :: rest) first) (fun s => first - s.1) ?_ ?_ ?_
  · intro s t hs hbody
    obtain ⟨hfactor_pos, hfactor, hhighest⟩ := htried s hs
    rw [hcfRound] at hbody
    obtain ⟨hfound, heq⟩ := (ite_eq_iff.mp hbody).resolve_left (by simp)
    have hne : s.1 ≠ first := by
      intro hfirst
      rw [hfirst, tryFactor_first] at hfound
      exact hfound rfl
    have hle := hs.le
    cases heq
    refine ⟨⟨Nat.succ_pos _, ?_, hfactor_pos, hfactor, ?_⟩, ?_⟩
    · simp only
      omega
    · intro d hd
      exact hhighest d (Nat.lt_succ_iff.mp hd)
    · simp only
      omega
  · intro s r hs hbody
    obtain ⟨hfactor_pos, hfactor, hhighest⟩ := htried s hs
    rw [hcfRound] at hbody
    obtain ⟨hfound, heq⟩ := (ite_eq_iff.mp hbody).resolve_right (by simp)
    cases heq
    refine ⟨hfactor_pos, hfactor, fun d hdvd => ?_⟩
    have hmem := (tryFactor_snd _ _ _ hfound).resolve_left (by decide)
    exact hhighest d (Nat.le_of_dvd hs.pos (hdvd _ hmem)) hdvd
  · exact ⟨Nat.one_pos, hpos first List.mem_cons_self, Nat.one_pos, fun _ _ => Nat.one_dvd _,
      fun d hd _ => by omega⟩

/-- The least positive number that all the frequencies divide. -/
structure IsLCM (freqs : List ℕ) (LCM : ℕ) : Prop where
  pos : 0 < LCM
  multiple : ∀ freq ∈ freqs, freq ∣ LCM
  lowest : ∀ m, 0 < m → (∀ freq ∈ freqs, freq ∣ m) → LCM ≤ m

theorem exists_lcm {first : ℕ} {rest : List ℕ} (hpos : ∀ freq ∈ first :: rest, 0 < freq) :
    ∃ LCM, EndsWith (lcmRound (first :: rest)) first LCM ∧ IsLCM (first :: rest) LCM := by
  have hprod : 0 < (first :: rest).prod := by
    refine Nat.pos_of_ne_zero (List.prod_ne_zero (fun hzero => ?_))
    exact absurd (hpos 0 hzero) (lt_irrefl 0)
  have hall : ∀ cur, (first :: rest).all (fun freq => decide (cur % freq = 0)) = true ↔
      ∀ freq ∈ first :: rest, freq ∣ cur := by
    intro cur
    simp only [List.all_eq_true, decide_eq_true_eq, Nat.dvd_iff_mod_eq_zero]
  refine exists_endsWith (fun cur => (first :: rest).prod - cur)
    (I := fun cur => 0 < cur ∧ first ∣ cur ∧
      ∀ m, 0 < m → (∀ freq ∈ first :: rest, freq ∣ m) → cur ≤ m) ?_ ?_ ?_
  · rintro cur t ⟨hcur, hdvd, hlowest⟩ hbody
    rw [lcmRound] at hbody
    obtain ⟨hnot, heq⟩ := (ite_eq_iff.mp hbody).resolve_left (by simp)
    rw [hall] at hnot
    cases heq
    have hnext : ∀ m, 0 < m → (∀ freq ∈ first :: rest, freq ∣ m) → cur + first ≤ m := by
      intro m hm hmultiple
      have hne : cur ≠ m := fun heq => hnot (heq ▸ hmultiple)
      have hmod : cur ≡ m [MOD first] := (Nat.modEq_zero_iff_dvd.mpr hdvd).trans
        (Nat.modEq_zero_iff_dvd.mpr (hmultiple _ List.mem_cons_self)).symm
      exact hmod.add_le_of_lt (lt_of_le_of_ne (hlowest m hm hmultiple) hne)
    have hfirst := hpos first List.mem_cons_self
    have hbound := hnext _ hprod (fun freq hfreq => List.dvd_prod hfreq)
    refine ⟨⟨Nat.lt_of_lt_of_le hcur (Nat.le_add_right _ _), ?_, hnext⟩, ?_⟩
    · exact Nat.dvd_add hdvd (Nat.dvd_refl _)
    · simp only [List.headD_cons]
      omega
  · rintro cur r ⟨hcur, hdvd, hlowest⟩ hbody
    rw [lcmRound] at hbody
    obtain ⟨htrue, heq⟩ := (ite_eq_iff.mp hbody).resolve_right (by simp)
    cases heq
    exact ⟨hcur, (hall cur).mp htrue, hlowest⟩
  · refine ⟨hpos first List.mem_cons_self, Nat.dvd_refl _, fun m hm hmultiple => ?_⟩
    exact Nat.le_of_dvd hm (hmultiple _ List.mem_cons_self)

variable {frequencies : List ℕ}

/-- What is left of the frequencies has a common multiple; a step is its quotient. -/
theorem areStepSizes (hHCF : IsHCF freqs HCF) (hpos : ∀ freq ∈ freqs, 0 < freq)
    (hLCM : IsLCM (freqs.map (fun freq => freq / HCF)) LCM) :
    AreStepSizes freqs (freqs.map (fun freq => LCM / (freq / HCF))) := by
  have hrest : ∀ freq ∈ freqs, freq / HCF ∣ LCM :=
    fun freq hfreq => hLCM.multiple _ (List.mem_map_of_mem hfreq)
  have hquot : ∀ freq ∈ freqs, 0 < freq / HCF := fun freq hfreq =>
    Nat.div_pos (Nat.le_of_dvd (hpos freq hfreq) (hHCF.factor freq hfreq)) hHCF.pos
  constructor
  · intro s hs
    obtain ⟨freq, hfreq, rfl⟩ := List.mem_map.mp hs
    exact Nat.div_pos (Nat.le_of_dvd hLCM.pos (hrest freq hfreq)) (hquot freq hfreq)
  · refine ⟨LCM * HCF, ?_⟩
    rw [List.forall₂_map_left_iff, List.forall₂_same]
    intro freq hfreq
    calc LCM / (freq / HCF) * freq
        = LCM / (freq / HCF) * (freq / HCF * HCF) := by
          rw [Nat.div_mul_cancel (hHCF.factor freq hfreq)]
      _ = LCM / (freq / HCF) * (freq / HCF) * HCF := (Nat.mul_assoc _ _ _).symm
      _ = LCM * HCF := by rw [Nat.div_mul_cancel (hrest freq hfreq)]

theorem dvd_of_same {c : ℕ} {steps : List ℕ}
    (h : List.Forall₂ (fun freq s => s * freq = c) freqs steps) : ∀ freq ∈ freqs, freq ∣ c := by
  induction h with
  | nil => simp
  | cons hfirst _ ih => exact List.forall_mem_cons.mpr ⟨⟨_, by rw [← hfirst, Nat.mul_comm]⟩, ih⟩

/-- No step sizes are smaller. -/
theorem steps_le (hHCF : IsHCF freqs HCF) (hpos : ∀ freq ∈ freqs, 0 < freq)
    (hLCM : IsLCM (freqs.map (fun freq => freq / HCF)) LCM) {steps : List ℕ}
    (hsteps : AreStepSizes freqs steps) :
    List.Forall₂ (· ≤ ·) (freqs.map (fun freq => LCM / (freq / HCF))) steps := by
  obtain ⟨hspos, c, hc⟩ := hsteps
  have hsame := hc.flip
  have hdvd := dvd_of_same hsame
  -- the common product without the common factor is a common multiple of what is left
  have hlowest : ∀ freq ∈ freqs, 0 < c → LCM ≤ c / HCF := by
    intro freq hfreq hcpos
    have hHCFc : HCF ∣ c := Nat.dvd_trans (hHCF.factor freq hfreq) (hdvd freq hfreq)
    refine hLCM.lowest _ (Nat.div_pos (Nat.le_of_dvd hcpos hHCFc) hHCF.pos) (fun rest hrest => ?_)
    obtain ⟨freq', hfreq', rfl⟩ := List.mem_map.mp hrest
    exact Nat.div_dvd_div (hHCF.factor freq' hfreq') (hdvd freq' hfreq')
  have hboth := (List.forall₂_and_left _ _).mpr ⟨fun freq hfreq => hfreq, hsame⟩
  rw [List.forall₂_map_left_iff]
  refine ((List.forall₂_and_left _ _).mpr ⟨hspos, hboth.flip⟩).flip.imp ?_
  rintro freq s ⟨hs, hfreq, heq⟩
  have hfreqpos := hpos freq hfreq
  have hrestpos : 0 < freq / HCF :=
    Nat.div_pos (Nat.le_of_dvd hfreqpos (hHCF.factor freq hfreq)) hHCF.pos
  calc LCM / (freq / HCF)
      ≤ c / HCF / (freq / HCF) :=
        Nat.div_le_div_right (hlowest freq hfreq (heq ▸ Nat.mul_pos hs hfreqpos))
    _ = s * (freq / HCF) / (freq / HCF) := by
        rw [← heq, Nat.mul_div_assoc _ (hHCF.factor freq hfreq)]
    _ = s := Nat.mul_div_cancel _ hrestpos

/-- For frequencies of at least 100 MHz the loops end, and the step sizes are the least ones
that give every core the same number of cycles. -/
theorem systemTimingSetUp_spec (hne : frequencies ≠ [])
    (hmin : ∀ frequency ∈ frequencies, 100 ≤ frequency) :
    ∃ steps bound, (∀ rounds, bound ≤ rounds → systemTimingSetUp rounds frequencies = some steps) ∧
      AreStepSizes (frequencies.map (fun frequency => frequency / 100)) steps ∧
      ∀ steps', AreStepSizes (frequencies.map (fun frequency => frequency / 100)) steps' →
        List.Forall₂ (· ≤ ·) steps steps' := by
  have hpos : ∀ freq ∈ frequencies.map (fun frequency => frequency / 100), 0 < freq := by
    intro freq hfreq
    obtain ⟨frequency, hfrequency, rfl⟩ := List.mem_map.mp hfreq
    exact Nat.div_pos (hmin frequency hfrequency) (by decide)
  obtain ⟨frequency, rest, rfl⟩ := List.exists_cons_of_ne_nil hne
  obtain ⟨HCF, ⟨bound, hbound⟩, hHCF⟩ := exists_hcf hpos
  have hquot : ∀ freq ∈ ((frequency :: rest).map (fun frequency => frequency / 100)).map
      (fun freq => freq / HCF), 0 < freq := by
    intro quot hmem
    obtain ⟨freq, hfreq, rfl⟩ := List.mem_map.mp hmem
    exact Nat.div_pos (Nat.le_of_dvd (hpos freq hfreq) (hHCF.factor freq hfreq)) hHCF.pos
  obtain ⟨LCM, ⟨bound', hbound'⟩, hLCM⟩ := exists_lcm hquot
  refine ⟨_, max bound bound', fun rounds hrounds => ?_, areStepSizes hHCF hpos hLCM,
    fun steps' => steps_le hHCF hpos hLCM⟩
  have hhcf := hbound rounds (le_trans (le_max_left _ _) hrounds)
  have hlcm := hbound' rounds (le_trans (le_max_right _ _) hrounds)
  simp only [List.map_cons, List.map_map] at hhcf hlcm ⊢
  rw [systemTimingSetUp]
  simp only [List.map_cons, List.headD_cons, List.map_map, hhcf, Option.bind_some, hlcm,
    Option.map_some]
  rfl

theorem systemTimingSetUp_two :
    ∃ steps bound, (∀ rounds, bound ≤ rounds → systemTimingSetUp rounds [3400, 2000] = some steps) ∧
      AreStepSizes [34, 20] steps ∧
      ∀ steps', AreStepSizes [34, 20] steps' → List.Forall₂ (· ≤ ·) steps steps' :=
  systemTimingSetUp_spec (by decide) (by decide)

end Tejas.GlobalClock
