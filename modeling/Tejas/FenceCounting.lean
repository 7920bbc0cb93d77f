import Tejas.LoadStoreQueueRing

/-!
# Fence counts of the load-store queue

Every entry is allocated with the number of fences then in the queue, and the
commit of a fence takes one off every entry. The loop that does so stops at the
slot after the tail. In a full ring that slot is the head, where the loop starts,
so nothing is taken off. As long as no fence commits from a full queue, the count
of an entry is the number of older fences in the queue.
-/

namespace Tejas.LSQ
open LabelledRuns RingWindow

variable {s t : LSQ} {f i k : ℕ}

def isFence (s : LSQ) (i : ℕ) : Bool := (s.lsqueue i).type = .mfence

/-- Every entry of the window counts the fences before it. -/
structure FenceCounts (s : LSQ) : Prop where
  deps : ∀ older i younger, s.window = older ++ i :: younger →
    (s.lsqueue i).mfenceDependencies = older.countP s.isFence
  count : s.mfenceCount = s.window.countP s.isFence

/-- A fence stands at the head of a full queue with other entries behind it. -/
def FenceAtFullHead (s : LSQ) : Prop :=
  s.curSize = s.lsqSize ∧ 1 < s.lsqSize ∧ s.isFence (s.head.getD 0)

instance (s : LSQ) : Decidable s.FenceAtFullHead := inferInstanceAs (Decidable (_ ∧ _ ∧ _))

/-- The action does not commit a fence from a full queue. -/
def NoFullFenceCommit (s : LSQ) : Action → Prop
  | .commit commitUpto _ => (s.lsqueue commitUpto).removed = false → ¬ s.FenceAtFullHead
  | _ => True

instance (s : LSQ) : ∀ a, Decidable (s.NoFullFenceCommit a)
  | .commit commitUpto _ =>
    inferInstanceAs (Decidable ((s.lsqueue commitUpto).removed = false → ¬ s.FenceAtFullHead))
  | .addEntry .. => inferInstanceAs (Decidable True)
  | .addMfence .. => inferInstanceAs (Decidable True)
  | .addrValidate .. => inferInstanceAs (Decidable True)
  | .l1Issue .. => inferInstanceAs (Decidable True)
  | .memResponse .. => inferInstanceAs (Decidable True)

theorem isFence_congr (htype : (t.lsqueue i).type = (s.lsqueue i).type) :
    t.isFence i = s.isFence i := by
  rw [isFence, isFence, htype]

theorem countP_isFence_congr {slots : List ℕ}
    (htype : ∀ i ∈ slots, (t.lsqueue i).type = (s.lsqueue i).type) :
    slots.countP t.isFence = slots.countP s.isFence :=
  List.countP_congr (fun i hi => by rw [isFence_congr (htype i hi)])

theorem fenceCounts_new (n : ℕ) : (new n).FenceCounts where
  deps := by simp [new, window, slotsFrom]
  count := by simp [new, window, slotsFrom]

theorem FenceCounts.of_flags (h : s.FenceCounts) (hflags : OnlyFlags s t)
    (hfences : SameFences s t) : t.FenceCounts where
  deps older i younger hsplit := by
    rw [hflags.window] at hsplit
    rw [hfences.deps, h.deps older i younger hsplit,
      countP_isFence_congr (fun j _ => hflags.type j)]
  count := by
    rw [hfences.count, h.count, hflags.window, countP_isFence_congr (fun j _ => hflags.type j)]

/-- An allocated entry counts all fences of the queue. -/
theorem FenceCounts.pushed {e : LSQEntry} {c : ℤ} (h : s.FenceCounts) (hring : s.RingAt f)
    (hfull : s.curSize < s.lsqSize) (hlive : e.removed = false)
    (hdeps : e.mfenceDependencies = s.mfenceCount)
    (hc : c = s.mfenceCount + if e.type = .mfence then 1 else 0) :
    FenceCounts { s.pushed f e with mfenceCount := c } := by
  have hwindow : LSQ.window { s.pushed f e with mfenceCount := c } =
      s.window ++ [slot s.lsqSize f s.curSize] := hring.window_pushed hfull hlive
  have hold : ∀ j ∈ s.window, (s.pushed f e).lsqueue j = s.lsqueue j :=
    fun j hj => hring.pushed_of_mem hfull hlive hj
  have hcount : ∀ older ⊆ s.window,
      older.countP (isFence { s.pushed f e with mfenceCount := c }) = older.countP s.isFence :=
    fun older hsub => countP_isFence_congr (fun j hj => by rw [hold j (hsub hj)])
  constructor
  case deps =>
    intro older i younger hsplit
    rw [hwindow] at hsplit
    rcases List.eq_nil_or_concat younger with rfl | ⟨younger', last, rfl⟩
    · obtain ⟨rfl, hlast⟩ := List.append_inj' hsplit rfl
      cases hlast
      rw [hcount _ (List.Subset.refl _), ← h.count]
      simp [LSQ.pushed, hdeps]
    · have hsplit' : s.window ++ [slot s.lsqSize f s.curSize] =
          (older ++ i :: younger') ++ [last] := by simpa using hsplit
      obtain ⟨hw, -⟩ := List.append_inj' hsplit' rfl
      have hi : i ∈ s.window := by simp [hw]
      rw [hcount older (by simp [hw])]
      rw [← h.deps older i younger' hw]
      exact congrArg LSQEntry.mfenceDependencies (hold i hi)
  case count =>
    rw [hwindow, List.countP_append, hcount _ (List.Subset.refl _)]
    simp only [hc, h.count, List.countP_singleton, isFence, LSQ.pushed, Function.update_self]
    split_ifs <;> simp_all

/-! ### The loop of `commit_mfence` -/

/-- In a queue with a free slot the loop takes one off every entry from its start on. -/
theorem clearFrom_deps {fuel : ℕ} (h : s.RingAt f) (hcur : 0 < s.curSize)
    (hfree : s.curSize < s.lsqSize) (hk : k ≤ s.curSize)
    (hc : s.clearFrom (slot s.lsqSize f k) fuel = some t) :
    t.mfenceCount = s.mfenceCount ∧ ∀ j < s.curSize,
      (t.lsqueue (slot s.lsqSize f j)).mfenceDependencies =
        (s.lsqueue (slot s.lsqSize f j)).mfenceDependencies - if k ≤ j then 1 else 0 := by
  induction fuel generalizing s k with
  | zero => simp [clearFrom] at hc
  | succ fuel ih =>
    rw [clearFrom, h.after_tail hcur] at hc
    split at hc
    case isTrue heq =>
      have hend : k = s.curSize := (slot_inj (by omega) hfree).mp heq
      cases hc
      refine ⟨rfl, fun j hj => ?_⟩
      rw [if_neg (by omega), Int.sub_zero]
    case isFalse hne =>
      have hlt : k < s.curSize :=
        Nat.lt_of_le_of_ne hk (fun hk' => hne (by rw [hk']))
      rw [incrementQ, slot_next] at hc
      obtain ⟨hcount, hdeps⟩ := ih (h.of_onlyFlags onlyFlags_cleared) hcur hfree hlt hc
      refine ⟨hcount, fun j hj => ?_⟩
      have hrest := hdeps j hj
      simp only [setEntry] at hrest
      rw [hrest]
      by_cases hjk : j = k
      · subst hjk
        simp [LSQEntry.mfenceCleared]
      · have hslot : slot s.lsqSize f j ≠ slot s.lsqSize f k :=
          fun heq => hjk ((slot_inj (by omega) (by omega)).mp heq)
        rw [Function.update_of_ne hslot]
        congr 1
        split_ifs <;> omega

/-- The commit of a fence takes one off every entry when a slot is free. -/
theorem commitMfence_deps (h : s.RingAt f) (hcur : 0 < s.curSize) (hfree : s.curSize < s.lsqSize)
    (hc : s.commitMfence = some t) :
    t.mfenceCount = s.mfenceCount ∧ ∀ i ∈ s.window,
      (t.lsqueue i).mfenceDependencies = (s.lsqueue i).mfenceDependencies - 1 := by
  have hzero : f = slot s.lsqSize f 0 := (slot_zero h.first_lt).symm
  rw [commitMfence, h.head_getD hcur, hzero] at hc
  obtain ⟨hcount, hdeps⟩ := clearFrom_deps h hcur hfree (Nat.zero_le _) hc
  refine ⟨hcount, fun i hi => ?_⟩
  rw [h.window_eq, mem_slotsFrom] at hi
  obtain ⟨k, hk, rfl⟩ := hi
  simpa using hdeps k hk

/-- In a full queue it takes nothing off: the loop ends where it starts. -/
theorem commitMfence_full (h : s.RingAt f) (hfull : s.curSize = s.lsqSize) :
    s.commitMfence = some s := by
  have hcur : 0 < s.curSize := hfull ▸ h.size_pos
  have hround : slot s.lsqSize f s.curSize = f := by
    have hadd : s.curSize = 0 + s.lsqSize := by omega
    rw [hadd, slot_add_size, slot_zero h.first_lt]
  rw [commitMfence, clearFrom, h.head_getD hcur, h.after_tail hcur, hround, if_pos rfl]

/-! ### The counts in every run -/

/-- The removal of the head, given what became of the counts behind it. -/
theorem FenceCounts.removed (h : s.FenceCounts) (hwindow : s.window = f :: t.window)
    (htype : ∀ i ∈ t.window, (t.lsqueue i).type = (s.lsqueue i).type)
    (hdeps : ∀ i ∈ t.window, (t.lsqueue i).mfenceDependencies =
      (s.lsqueue i).mfenceDependencies - if s.isFence f then 1 else 0)
    (hcount : t.mfenceCount = s.mfenceCount - if s.isFence f then 1 else 0) : t.FenceCounts where
  deps older i younger hsplit := by
    have hs : s.window = (f :: older) ++ i :: younger := by rw [hwindow, hsplit]; rfl
    rw [hdeps i (by simp [hsplit]), h.deps _ i younger hs, List.countP_cons,
      countP_isFence_congr (fun j hj => htype j (by simp [hsplit, hj]))]
    split_ifs <;> simp
  count := by
    rw [hcount, h.count, hwindow, List.countP_cons, countP_isFence_congr htype]
    split_ifs <;> simp

theorem fenceCounts_commitEntry {accepts : ℕ → Bool} (h : s.FenceCounts) (hring : s.RingAt f)
    (hcur : 0 < s.curSize) (hsafe : ¬ s.FenceAtFullHead)
    (hc : s.commitEntry accepts f = some (some t)) : t.FenceCounts := by
  have hwindow := commitEntry_window hring hcur hc
  have hnodup := hring.window_nodup
  rw [hwindow, List.nodup_cons] at hnodup
  have hne : ∀ i ∈ t.window, i ≠ f := fun i hi heq => hnodup.1 (heq ▸ hi)
  have hplain : s.isFence f = false → t = s.removeHead f → t.FenceCounts := by
    intro hfence ht
    refine h.removed hwindow (fun i hi => ?_) (fun i hi => ?_) ?_
    · simp [ht, removeHead, hne i hi]
    · simp [ht, removeHead, hne i hi, hfence]
    · simp [ht, removeHead, hfence]
  rw [commitEntry] at hc
  split at hc
  case h_1 htype =>
    split at hc
    · cases hc
    · split at hc
      · cases hc
        exact hplain (by simp [isFence, htype]) rfl
      · cases hc
  case h_2 htype =>
    obtain ⟨u, hu, heq⟩ := Option.map_eq_some_iff.mp hc
    cases heq
    have hflags := clearFrom_flags hu
    have hfence : s.isFence f = true := by simp [isFence, htype]
    have hentry : ∀ i, i ≠ f → (removeHead { u with mfenceCount := u.mfenceCount - 1 } f).lsqueue i
        = u.lsqueue i := fun i hi => Function.update_of_ne hi _ _
    have hdeps : u.mfenceCount = s.mfenceCount ∧
        ∀ i ∈ (removeHead { u with mfenceCount := u.mfenceCount - 1 } f).window,
          (u.lsqueue i).mfenceDependencies = (s.lsqueue i).mfenceDependencies - 1 := by
      rcases Nat.lt_or_ge s.curSize s.lsqSize with hfree | hfull
      · obtain ⟨hcount, hdeps⟩ := commitMfence_deps hring hcur hfree hu
        exact ⟨hcount, fun i hi => hdeps i (by rw [hwindow]; exact List.mem_cons_of_mem _ hi)⟩
      · -- the queue is full, so by the condition it has one slot and is empty afterwards
        have hsize := hring.cur_le
        rw [commitMfence_full hring (by omega)] at hu
        cases hu
        refine ⟨rfl, fun i hi => ?_⟩
        have hone : s.lsqSize = 1 := by
          by_contra hn
          refine hsafe ⟨by omega, ?_, by rw [hring.head_getD hcur]; exact hfence⟩
          have := hring.size_pos
          omega
        have hlen : s.window.length = 1 := by simp [window, slotsFrom]; omega
        rw [hwindow] at hlen
        simp only [List.length_cons, Nat.add_eq_right, List.length_eq_zero_iff] at hlen
        rw [hlen] at hi
        cases hi
    refine h.removed hwindow (fun i hi => ?_) (fun i hi => ?_) ?_
    · rw [hentry i (hne i hi), hflags.type]
    · rw [hentry i (hne i hi), hdeps.2 i hi, if_pos hfence]
    · simp [removeHead, hdeps.1, hfence]
  case h_3 htype =>
    split at hc
    · cases hc
      exact hplain (by simp [isFence, htype]) rfl
    · cases hc

/-- The commit of a fence keeps the counts right exactly when the queue was not full or
held nothing else. -/
theorem fenceCounts_commit_fence_iff {accepts : ℕ → Bool} (h : s.FenceCounts)
    (hring : s.RingAt f) (hcur : 0 < s.curSize) (hfence : s.isFence f = true)
    (hc : s.commitEntry accepts f = some (some t)) : t.FenceCounts ↔ ¬ s.FenceAtFullHead := by
  refine ⟨?_, fun hsafe => fenceCounts_commitEntry h hring hcur hsafe hc⟩
  rintro ht ⟨hfull, hsize, -⟩
  have hwindow := commitEntry_window hring hcur hc
  have hnodup := hring.window_nodup
  have hlen : s.window.length = s.lsqSize := by simp [window, slotsFrom, hfull]
  cases hrest : t.window with
  | nil =>
    rw [hwindow, hrest, List.length_singleton] at hlen
    omega
  | cons i rest =>
    rw [hwindow, hrest] at hnodup
    have hne : i ≠ f := fun heq => (List.nodup_cons.mp hnodup).1 (by simp [heq])
    have hzero := ht.deps [] i rest hrest
    have hone := h.deps [f] i rest (by rw [hwindow, hrest]; rfl)
    have htype : (s.lsqueue f).type = .mfence := by simpa [isFence] using hfence
    simp only [commitEntry, htype, commitMfence_full hring hfull, Option.map_some,
      Option.some.injEq] at hc
    subst hc
    simp only [removeHead, Function.update_of_ne hne, hone] at hzero
    simp [hfence] at hzero

theorem fenceCounts_commit {accepts : ℕ → Bool} (h : s.FenceCounts) (hring : s.RingAt f)
    (hi : i < s.lsqSize) (hsafe : (s.lsqueue i).removed = false → ¬ s.FenceAtFullHead)
    (hc : s.handleCommitsFromROB accepts i = some t) : t.FenceCounts := by
  cases hremoved : (s.lsqueue i).removed with
  | true =>
    rw [handleCommitsFromROB, if_pos hremoved] at hc
    cases hc
    exact h
  | false =>
    refine (handleCommitsFromROB_invariant
      (J := fun u => u.FenceCounts ∧ ¬ u.FenceAtFullHead) ?_ hring hi
      ⟨h, hsafe hremoved⟩ hc).1.1
    intro u g u' hu hcur hJ hentry
    refine ⟨fenceCounts_commitEntry hJ.1 hu hcur hJ.2 hentry, ?_⟩
    -- after one removal the queue is not full
    obtain ⟨-, hn, hcu⟩ := commitEntry_ring hu hcur hentry
    have hsize := hu.cur_le
    rintro ⟨hfull, -⟩
    omega

theorem fenceCounts_next {a : Action} (h : s.FenceCounts) (hring : s.RingInvariant)
    (hsafe : s.NoFullFenceCommit a) (hstep : s.next a = some t) : t.FenceCounts := by
  obtain ⟨f, hring⟩ := hring
  cases a with
  | addEntry isLoad address robEntry =>
    obtain ⟨f', h', hlt, rfl⟩ := next_addEntry hring hstep
    refine h.pushed (c := s.mfenceCount) h' hlt rfl rfl ?_
    cases isLoad <;> simp [LSQEntry.recycled]
  | addMfence robEntry =>
    obtain ⟨f', h', hlt, rfl⟩ := next_addMfence hring hstep
    exact h.pushed h' hlt rfl rfl (by simp [LSQEntry.recycled])
  | addrValidate index executed =>
    simp only [next, Option.ite_none_right_eq_some] at hstep
    obtain ⟨hlive, hstep⟩ := hstep
    obtain ⟨r, hr, rfl⟩ := Option.map_eq_some_iff.mp hstep
    obtain ⟨hflags, hfences⟩ := handleAddrValidate_flags hlive hr
    exact h.of_flags hflags hfences
  | l1Issue index =>
    simp only [next, Option.ite_none_right_eq_some] at hstep
    obtain ⟨-, hstep⟩ := hstep
    cases hstep
    exact h.of_flags l1Issued_flags.1 l1Issued_flags.2
  | memResponse address executed =>
    cases hstep
    obtain ⟨hflags, hfences⟩ := responseScan_flags executed address s.curSize
    exact h.of_flags hflags hfences
  | commit commitUpto accepts =>
    simp only [next, Option.ite_none_right_eq_some] at hstep
    exact fenceCounts_commit h hring hstep.1 hsafe hstep.2

/-- In every run that never commits a fence from a full queue, the window lists the
entries in use, each entry counts the older fences, and it is issuable exactly when
there are none. -/
theorem fenceCounts_run {n : ℕ} {labels : List Action} (hn : 0 < n)
    (run : Run (Guarded (StepOf next) NoFullFenceCommit) (new n) labels s) :
    (∀ i, i ∈ s.window ↔ s.Live i) ∧
      ∀ older i younger, s.window = older ++ i :: younger →
        (s.lsqueue i).mfenceDependencies = older.countP s.isFence ∧
        ((s.lsqueue i).isIssuable ↔ ∀ j ∈ older, (s.lsqueue j).type ≠ .mfence) := by
  have hring := ringInvariant_run hn run.of_guarded
  have hcounts : s.FenceCounts := run.invariant_with (fenceCounts_new n)
    (fun _ _ r => ringInvariant_run hn r.of_guarded)
    (fun _ _ _ hr hf hstep => fenceCounts_next hf hr hstep.1 hstep.2)
  refine ⟨fun i => ?_, fun older i younger hsplit => ?_⟩
  · obtain ⟨f, hf⟩ := hring
    exact hf.mem_window
  · have hdeps := hcounts.deps older i younger hsplit
    refine ⟨hdeps, ?_⟩
    simp [LSQEntry.isIssuable, hdeps, List.countP_eq_zero, isFence]

/-- A fence and a load in a queue of three: the commit of the fence makes the load
issuable. -/
theorem fenceCounts_run_three :
    ∃ s, Run (Guarded (StepOf next) NoFullFenceCommit) (new 3)
        [.addMfence none, .addEntry true 8 none, .commit 0 (fun _ => true)] s ∧
      s.window = [1] ∧ (s.lsqueue 1).mfenceDependencies = 0 := by
  have hrun : (exec (fun s a => if NoFullFenceCommit s a then next s a else none) (new 3)
      [.addMfence none, .addEntry true 8 none, .commit 0 (fun _ => true)]).map window =
        some [1] := by decide
  obtain ⟨s, hs, hwindow⟩ := Option.map_eq_some_iff.mp hrun
  have hguarded := guarded_run_of_exec hs
  exact ⟨s, hguarded, hwindow,
    ((fenceCounts_run (by decide) hguarded).2 [] 1 [] (by simp [hwindow])).1⟩

/-- A fence and a load fill a queue of two. The fence commits and the load still waits
for it. -/
theorem full_queue_fence_still_counted :
    ¬ ∀ n labels s, 0 < n → Run (StepOf next) (new n) labels s →
      ∀ older i younger, s.window = older ++ i :: younger →
        (s.lsqueue i).mfenceDependencies = older.countP s.isFence := by
  intro hall
  have hrun : (exec next (new 2)
      [.addMfence none, .addEntry true 8 none, .commit 0 (fun _ => true)]).map
        (fun s => (s.window, (s.lsqueue 1).mfenceDependencies)) = some ([1], 1) := by decide
  obtain ⟨s, hs, heq⟩ := Option.map_eq_some_iff.mp hrun
  obtain ⟨hwindow, hdeps⟩ := Prod.mk.inj heq
  have hzero := hall 2 _ s (by decide) (run_of_exec hs) [] 1 [] (by simp [hwindow])
  rw [hdeps] at hzero
  simp at hzero

end Tejas.LSQ
