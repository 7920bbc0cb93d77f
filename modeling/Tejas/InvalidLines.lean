import Tejas.CacheLineViews
import Tejas.CacheSets
import Tejas.HierarchySteps

/-!
# Invalid lines

An invalidated line keeps its tag, so `access` still finds it. A write that has waited
asks with `accessValid`, but `updateStateOfCacheLine` does not, and a late
`DirectorySharedToExclusive` or `DirectoryCachelineForwardRequest`, or a change handed up
by the next level, makes an invalid line valid without its content.
-/

namespace Tejas

variable {C : Type}

/-- The event brings the content of a line. -/
def AddressCarryingEvent.isResponse (event : AddressCarryingEvent C) : Bool :=
  match event.request with
  | .memResponse _ _ => true
  | .fromDirectory (.memResponse _) => true
  | _ => false

/-- The event asks for a change to a valid state. -/
def AddressCarryingEvent.isStateChange (event : AddressCarryingEvent C) : Bool :=
  match event.request with
  | .fromDirectory (.directoryCachelineForwardRequest _ _) => true
  | .fromDirectory (.directorySharedToExclusive _) => true
  | _ => false

namespace HierarchyCache
open LabelledRuns

variable {cfg : HierarchyConfig C} {s t u : HierarchyCache C} {addr : Address} {newState : MESI}
  {missList events : List (AddressCarryingEvent C)} {event : AddressCarryingEvent C}
  {label : Action C} {i : ℕ}

def InvalidAt (s : HierarchyCache C) (i : ℕ) : Prop := (s.lines.lines i).state = .invalid

/-- The event that the action hands to the cache. -/
def delivered (s : HierarchyCache C) : Action C → Option (AddressCarryingEvent C)
  | .deliver i => s.queue[i]?
  | .redeliver i => (s.requeued[i]?).map Prod.snd
  | _ => none

/-- The action is a response that fills the line. -/
def FillsLine (cfg : HierarchyConfig C) (s : HierarchyCache C) (label : Action C) (i : ℕ) :
    Prop :=
  ∃ event ∈ s.delivered label, event.isResponse = true ∧ s.hasLineFor cfg event.address = true ∧
    ∃ evicted, s.lines.fillLine cfg.geometry (s.isAddrInMSHR cfg) event.address = some (i, evicted)

/-- An invalid line becomes valid only by a fill. -/
def KeepsInvalid (cfg : HierarchyConfig C) (s : HierarchyCache C) (label : Action C) : Prop :=
  ∀ t, next cfg s label = some t → ∀ i, s.InvalidAt i → ¬ t.InvalidAt i → s.FillsLine cfg label i

/-- The address for which the action asks for a valid state. -/
def stateChange (s : HierarchyCache C) : Action C → Option Address
  | .setState addr state => if state = .invalid then none else some addr
  | label => ((s.delivered label).filter (·.isStateChange)).map (·.address)

/-- The change reaches a line that is present and invalid. -/
def MeetsInvalid (cfg : HierarchyConfig C) (s : HierarchyCache C) (label : Action C) : Prop :=
  ∃ addr ∈ s.stateChange label, ∃ i ∈ s.lines.access cfg.geometry addr, s.InvalidAt i

/-! ### What keeps the invalid lines invalid -/

def StaysInvalid (s t : HierarchyCache C) : Prop := ∀ i, s.InvalidAt i → t.InvalidAt i

theorem StaysInvalid.trans (h : StaysInvalid s t) (h' : StaysInvalid t u) : StaysInvalid s u :=
  fun i hi => h' i (h i hi)

theorem staysInvalid_of_lines (h : t.lines = s.lines) : StaysInvalid s t := by
  intro i hi
  rw [InvalidAt, h]
  exact hi

theorem staysInvalid_handleRequest (x : CacheAccess C) :
    StaysInvalid s (s.handleRequest cfg x) := by
  rcases handleRequest_lines cfg s x with heq | ⟨j, heq⟩
  · exact staysInvalid_of_lines heq
  · intro i hi
    rw [InvalidAt, heq, (LineArray.mark_lines s.lines j i).2.2]
    exact hi

theorem staysInvalid_pendingList : StaysInvalid s (s.processEventsInPendingList cfg) := by
  refine pendingLoop_keeps (I := StaysInvalid s) cfg ?_ ?_ _ _ ?_
  · exact fun u _ h => h.trans (staysInvalid_of_lines rfl)
  · exact fun u x h => h.trans (staysInvalid_handleRequest x)
  · exact staysInvalid_of_lines rfl

/-- A change of state sets the line that `access` finds, and no other. -/
theorem lines_setState (l : LineArray Unit) (g : Geometry) (j : ℕ) :
    ((l.setState g addr newState).lines j).state =
      if l.access g addr = some j then newState else (l.lines j).state := by
  rw [LineArray.setState]
  cases hfound : l.access g addr with
  | none => rfl
  | some i =>
    by_cases hj : j = i
    · subst hj
      simp [LineArray.setLine]
    · have hne : ¬ some i = some j := fun heq => hj (Option.some.inj heq).symm
      rw [if_neg hne]
      simp [LineArray.setLine, hj]

theorem staysInvalid_update (hupdate : UpdatesState cfg s addr newState t)
    (hvalid : newState = .invalid ∨
      ∀ i ∈ s.lines.access cfg.geometry addr, ¬ s.InvalidAt i) : StaysInvalid s t := by
  intro i hi
  rw [InvalidAt, hupdate.lines, lines_setState]
  split
  · rename_i hfound
    rcases hvalid with hstate | hvalid
    · exact hstate
    · exact absurd hi (hvalid i hfound)
  · exact hi

/-- A write that has waited changes a valid line only. -/
theorem staysInvalid_processEvents {written : Bool}
    (h : processEvents cfg addr missList written s events = some t) : StaysInvalid s t := by
  induction events generalizing s written with
  | nil =>
    cases h
    apply staysInvalid_of_lines
    split <;> rfl
  | cons event rest ih =>
    rw [processEvents] at h
    split at h
    · rename_i requester _
      exact ih (s := s.record (.responds requester event.address)) h
    · split at h
      · cases h
      · rename_i j hfound
        obtain ⟨u, hu, hrest⟩ := Option.bind_eq_some_iff.mp h
        have hupdate := updateStateOfCacheLine_eq_some hu
        refine StaysInvalid.trans (staysInvalid_update hupdate (.inr ?_))
          (ih (s := u.record (.writesLine addr)) hrest)
        intro i hi hinvalid
        rw [LineArray.accessValid, Option.mem_def.mp hi, Option.filter_some] at hfound
        rw [InvalidAt] at hinvalid
        simp [CacheLine.isValid, hinvalid] at hfound
    · obtain ⟨u, hu, rfl⟩ := Option.map_eq_some_iff.mp h
      exact (staysInvalid_update (updateStateOfCacheLine_eq_some hu) (.inl rfl)).trans
        (staysInvalid_of_lines rfl)
    · exact ih h

theorem staysInvalid_processEventsInMSHR (h : s.processEventsInMSHR cfg addr = some t) :
    StaysInvalid s t := by
  unfold processEventsInMSHR at h
  split at h
  · cases h
  · obtain ⟨u, hu, rfl⟩ := Option.map_eq_some_iff.mp h
    exact (staysInvalid_of_lines rfl).trans
      ((staysInvalid_processEvents hu).trans staysInvalid_pendingList)

/-- A fill makes no line valid but the one it uses. -/
theorem fillAndSatisfyRequests_invalid (h : s.fillAndSatisfyRequests cfg addr = some t) :
    ∃ i evicted, s.lines.fillLine cfg.geometry (s.isAddrInMSHR cfg) addr = some (i, evicted) ∧
      ∀ j, j ≠ i → s.InvalidAt j → t.InvalidAt j := by
  unfold fillAndSatisfyRequests at h
  split at h
  · cases h
  · rename_i lines evictedLine hfill
    obtain ⟨u, hevicted, hserved⟩ := Option.bind_eq_some_iff.mp h
    unfold LineArray.fill at hfill
    split at hfill
    · cases hfill
    · rename_i i evicted hline
      cases hfill
      refine ⟨i, evicted, hline, ?_⟩
      intro j hj hinvalid
      apply staysInvalid_processEventsInMSHR hserved j
      rw [InvalidAt, lines_handleEvictedLine hevicted]
      dsimp only
      rw [LineArray.lines_place_of_ne hj]
      exact hinvalid

/-! ### One action -/

/-- Where a line becomes valid, the event fills it or changes the state of an invalid
line. -/
theorem handleEvent_invalid (hstep : s.handleEvent cfg event = some t) (hi : s.InvalidAt i)
    (hvalid : ¬ t.InvalidAt i) :
    event.isResponse = true ∧ s.hasLineFor cfg event.address = true ∧
        (∃ evicted, s.lines.fillLine cfg.geometry (s.isAddrInMSHR cfg) event.address =
          some (i, evicted)) ∨
      event.isStateChange = true ∧
        ∃ i ∈ s.lines.access cfg.geometry event.address, s.InvalidAt i := by
  have hupdate : ∀ {newState u}, s.updateStateOfCacheLine cfg event.address newState = some u →
      (∀ i, u.InvalidAt i → t.InvalidAt i) → newState = .invalid ∨
      event.isStateChange = true → event.isStateChange = true ∧
        ∃ i ∈ s.lines.access cfg.geometry event.address, s.InvalidAt i := by
    intro newState u hu hsame hkind
    have hspec := updateStateOfCacheLine_eq_some hu
    rcases hkind with hstate | hkind
    · exact absurd (hsame i (staysInvalid_update hspec (.inl hstate) i hi)) hvalid
    · refine ⟨hkind, ?_⟩
      by_contra hnone
      refine hvalid (hsame i (staysInvalid_update hspec (.inr ?_) i hi))
      exact fun j hj hinvalid => hnone ⟨j, hj, hinvalid⟩
  have hresponse : s.handleMemResponse cfg event = some t → s.hasLineFor cfg event.address = true ∧
      ∃ evicted, s.lines.fillLine cfg.geometry (s.isAddrInMSHR cfg) event.address =
        some (i, evicted) := by
    intro hmem
    rw [handleMemResponse] at hmem
    split at hmem
    · rename_i hline
      obtain ⟨j, evicted, hfill, hothers⟩ := fillAndSatisfyRequests_invalid hmem
      by_cases hj : i = j
      · subst hj
        exact ⟨hline, evicted, hfill⟩
      · exact absurd (hothers i hj hi) hvalid
    · cases hmem
      exact absurd hi hvalid
  unfold handleEvent at hstep
  split at hstep
  · cases hstep
    exact absurd (staysInvalid_handleRequest _ i hi) hvalid
  · cases hstep
    exact absurd (staysInvalid_handleRequest _ i hi) hvalid
  · split at hstep
    · cases hstep
      exact absurd hi hvalid
    · exact .inr (hupdate hstep (fun _ h => h) (.inl rfl))
  · rename_i hrequest
    exact .inl ⟨by rw [AddressCarryingEvent.isResponse, hrequest], hresponse hstep⟩
  · rename_i hrequest
    exact .inl ⟨by rw [AddressCarryingEvent.isResponse, hrequest], hresponse hstep⟩
  · exact absurd (staysInvalid_processEventsInMSHR hstep i hi) hvalid
  · rename_i hrequest
    obtain ⟨u, hu, rfl⟩ := Option.map_eq_some_iff.mp hstep
    refine .inr (hupdate hu (fun _ h => h) (.inr ?_))
    rw [AddressCarryingEvent.isStateChange, hrequest]
  · rename_i hrequest
    refine .inr (hupdate hstep (fun _ h => h) (.inr ?_))
    rw [AddressCarryingEvent.isStateChange, hrequest]
  · unfold handleAckDirectoryWriteHit at hstep
    split at hstep
    · cases hstep
    · exact absurd (staysInvalid_processEventsInMSHR hstep i hi) hvalid
  · cases hstep
    exact absurd hi hvalid

/-- A change of an invalid line to a valid state succeeds. -/
theorem validates (hfound : s.lines.access cfg.geometry addr = some i)
    (hstate : newState ≠ .invalid) :
    ∃ t, s.updateStateOfCacheLine cfg addr newState = some t ∧ ¬ t.InvalidAt i := by
  have hsome : ∃ t, s.updateStateOfCacheLine cfg addr newState = some t :=
    updateStateOfCacheLine_isSome (fun h => absurd h hstate)
  obtain ⟨t, ht⟩ := hsome
  refine ⟨t, ht, ?_⟩
  rw [InvalidAt, (updateStateOfCacheLine_eq_some ht).lines, lines_setState, if_pos hfound]
  exact hstate

theorem handleEvent_stateChange (hkind : event.isStateChange = true)
    (hfound : s.lines.access cfg.geometry event.address = some i) :
    ∃ t, s.handleEvent cfg event = some t ∧ ¬ t.InvalidAt i := by
  unfold AddressCarryingEvent.isStateChange at hkind
  split at hkind
  · rename_i destination hrequest
    have hshared : MESI.shared ≠ .invalid := by decide
    obtain ⟨t, ht, hvalid⟩ := validates hfound hshared
    refine ⟨t.record (.forwardsLine destination event.address), ?_, hvalid⟩
    rw [handleEvent, hrequest]
    dsimp only
    rw [handleDirectoryCachelineForwardRequest, ht]
    rfl
  · rename_i hrequest
    have hexclusive : MESI.exclusive ≠ .invalid := by decide
    obtain ⟨t, ht, hvalid⟩ := validates hfound hexclusive
    refine ⟨t, ?_, hvalid⟩
    rw [handleEvent, hrequest]
    exact ht
  · cases hkind

theorem not_isResponse_of_stateChange (h : event.isStateChange = true) :
    event.isResponse = false := by
  unfold AddressCarryingEvent.isStateChange at h
  unfold AddressCarryingEvent.isResponse
  split at h
  · rename_i hrequest
    rw [hrequest]
  · rename_i hrequest
    rw [hrequest]
  · cases h

/-- What an action does that hands an event to the cache. -/
theorem next_delivered (cfg : HierarchyConfig C) (hdelivered : s.delivered label = some event) :
    ∃ u : HierarchyCache C, u.lines = s.lines ∧ u.mshr = s.mshr ∧
      next cfg s label = u.handleEvent cfg event := by
  cases label with
  | deliver k =>
    have hfound : s.queue[k]? = some event := hdelivered
    refine ⟨{ s with queue := s.queue.eraseIdx k }, rfl, rfl, ?_⟩
    rw [next, hfound]
  | redeliver k =>
    obtain ⟨⟨time, event'⟩, hfound, rfl⟩ := Option.map_eq_some_iff.mp hdelivered
    refine ⟨{ s with requeued := s.requeued.eraseIdx k }, rfl, rfl, ?_⟩
    rw [next, hfound]
  | request x => cases hdelivered
  | post event => cases hdelivered
  | answer k => cases hdelivered
  | setState addr state => cases hdelivered

/-- An action that hands no event to the cache changes at most the state of a line. -/
theorem next_not_delivered (hdelivered : s.delivered label = none)
    (hstep : next cfg s label = some t) : t.lines = s.lines ∨
      ∃ addr state, state ≠ .invalid ∧ label = .setState addr state ∧
        s.updateStateOfCacheLine cfg addr state = some t := by
  cases label with
  | request x =>
    left
    cases hstep
    unfold addEventAtLowerCache
    split <;> rfl
  | post event =>
    cases hstep
    exact .inl rfl
  | answer k =>
    left
    rw [next] at hstep
    split at hstep
    · cases hstep
    · cases hstep
      rfl
  | deliver k =>
    have hfound : s.queue[k]? = none := hdelivered
    rw [next, hfound] at hstep
    cases hstep
  | redeliver k =>
    have hfound : s.requeued[k]? = none := Option.map_eq_none_iff.mp hdelivered
    rw [next, hfound] at hstep
    cases hstep
  | setState addr state =>
    rw [next] at hstep
    split at hstep
    · cases hstep
    · rename_i hstate
      exact .inr ⟨addr, state, hstate, rfl, hstep⟩

theorem stateChange_of_delivered (hdelivered : s.delivered label = some event) :
    s.stateChange label = if event.isStateChange then some event.address else none := by
  have hfilter : s.stateChange label =
      ((s.delivered label).filter (·.isStateChange)).map (·.address) := by
    cases label with
    | setState addr state => cases hdelivered
    | _ => rfl
  rw [hfilter, hdelivered, Option.filter_some]
  split <;> rfl

theorem stateChange_not_delivered (hdelivered : s.delivered label = none)
    (haddr : s.stateChange label = some addr) :
    ∃ state, state ≠ .invalid ∧ label = .setState addr state := by
  have hnone : ((s.delivered label).filter (·.isStateChange)).map (·.address) ≠ some addr := by
    rw [hdelivered]
    exact fun h => by cases h
  cases label with
  | setState addr' state =>
    obtain ⟨hstate, heq⟩ := Option.ite_none_left_eq_some.mp haddr
    cases heq
    exact ⟨state, hstate, rfl⟩
  | _ => exact absurd haddr hnone

/-- An action keeps the invalid lines invalid, but for a fill, exactly if it does not
change the state of an invalid line. -/
theorem keepsInvalid_iff (cfg : HierarchyConfig C) (s : HierarchyCache C) (label : Action C) :
    s.KeepsInvalid cfg label ↔ ¬ s.MeetsInvalid cfg label := by
  cases hdelivered : s.delivered label with
  | some event =>
    obtain ⟨u, hlines, hmshr, hnext⟩ := next_delivered cfg hdelivered
    have hinvalidAt : ∀ i, u.InvalidAt i ↔ s.InvalidAt i := by
      intro i
      rw [InvalidAt, hlines, InvalidAt]
    have hlocked : u.isAddrInMSHR cfg = s.isAddrInMSHR cfg := by
      funext addr
      rw [isAddrInMSHR, hmshr, isAddrInMSHR]
    have hhasLine : u.hasLineFor cfg event.address = s.hasLineFor cfg event.address := by
      rw [hasLineFor, hlines, hlocked, hasLineFor]
    constructor
    · rintro hkeeps ⟨addr, haddr, i, hfound, hi⟩
      rw [stateChange_of_delivered hdelivered] at haddr
      obtain ⟨hkind, heq⟩ := Option.ite_none_right_eq_some.mp haddr
      cases heq
      rw [← hlines] at hfound
      obtain ⟨t, ht, hvalid⟩ := handleEvent_stateChange hkind hfound
      obtain ⟨event', hevent', hresponse, -⟩ := hkeeps t (hnext.trans ht) i hi hvalid
      rw [hdelivered] at hevent'
      cases hevent'
      rw [not_isResponse_of_stateChange hkind] at hresponse
      cases hresponse
    · intro hclear t hstep i hi hvalid
      rw [hnext] at hstep
      rcases handleEvent_invalid hstep ((hinvalidAt i).mpr hi) hvalid with
        ⟨hresponse, hline, hfill⟩ | ⟨hkind, j, hfound, hj⟩
      · rw [hhasLine] at hline
        rw [hlines, hlocked] at hfill
        exact ⟨event, hdelivered, hresponse, hline, hfill⟩
      · exfalso
        rw [hlines] at hfound
        refine hclear ⟨event.address, ?_, j, hfound, (hinvalidAt j).mp hj⟩
        rw [stateChange_of_delivered hdelivered, if_pos hkind]
        rfl
  | none =>
    constructor
    · rintro hkeeps ⟨addr, haddr, i, hfound, hi⟩
      obtain ⟨state, hstate, rfl⟩ := stateChange_not_delivered hdelivered haddr
      obtain ⟨t, ht, hvalid⟩ := validates hfound hstate
      have hnext : next cfg s (.setState addr state) = some t := by
        rw [next, if_neg hstate, ht]
      obtain ⟨event, hevent, -⟩ := hkeeps t hnext i hi hvalid
      cases hevent
    · intro hclear t hstep i hi hvalid
      exfalso
      rcases next_not_delivered hdelivered hstep with hlines | ⟨addr, state, hstate, rfl, hupdate⟩
      · exact hvalid (staysInvalid_of_lines hlines i hi)
      · refine hvalid (staysInvalid_update (updateStateOfCacheLine_eq_some hupdate)
          (.inr ?_) i hi)
        intro j hfound hj
        refine hclear ⟨addr, ?_, j, hfound, hj⟩
        rw [stateChange, if_neg hstate]
        rfl

/-- The runs in which no change of state meets an invalid line are the runs in which an
invalid line becomes valid only by a fill. -/
theorem invalid_until_filled_iff (cfg : HierarchyConfig C) (labels : List (Action C))
    (s : HierarchyCache C) :
    Run (Guarded (Step cfg) fun s label => ¬ s.MeetsInvalid cfg label) initial labels s ↔
      Run (Guarded (Step cfg) fun s label => s.KeepsInvalid cfg label) initial labels s := by
  constructor
  · exact fun run => run.guarded_mono (fun _ u label _ h => (keepsInvalid_iff cfg u label).mpr h)
  · exact fun run => run.guarded_mono (fun _ u label _ h => (keepsInvalid_iff cfg u label).mp h)

/-- A coherent cache with one set of two lines of 64 bytes. -/
def coherentPair : HierarchyConfig Unit where
  self := ()
  geometry := ⟨0, 6, 2, Nat.two_pos, Geometry.oneSet_bits⟩
  writePolicy := .writeBack
  mshrMaxSize := 4
  coherent := true
  belowCoherenceLevel := false
  topLevelCache := true

/-- A `DirectorySharedToExclusive` that comes after the line has been invalidated makes it
exclusive. -/
theorem late_exclusive_validates :
    ¬ ∀ (cfg : HierarchyConfig Unit) (labels : List (Action Unit)) (s : HierarchyCache Unit)
      (label : Action Unit), Run (Step cfg) initial labels s → s.KeepsInvalid cfg label := by
  intro hclaim
  have hrun : (exec (next coherentPair) initial
      [.request ⟨(), false, 0⟩, .deliver 0, .post ⟨.fromDirectory (.memResponse ()), 0⟩,
        .deliver 0, .post ⟨.fromDirectory (.evictCacheLine ()), 0⟩, .deliver 0,
        .post ⟨.fromDirectory (.directorySharedToExclusive ()), 0⟩]).any
      (fun s => (s.lines.lines 0).state = .invalid ∧
        s.lines.access coherentPair.geometry 0 = some 0 ∧
        s.queue[0]? = some ⟨.fromDirectory (.directorySharedToExclusive ()), 0⟩) = true := by
    decide
  obtain ⟨s, hexec, hs⟩ := (Option.any_eq_true _ _).mp hrun
  obtain ⟨hinvalid, hfound, hqueue⟩ := of_decide_eq_true hs
  have hkeeps := hclaim coherentPair _ s (.deliver 0) (run_of_exec hexec)
  refine (keepsInvalid_iff coherentPair s (.deliver 0)).mp hkeeps ⟨0, ?_, 0, hfound, hinvalid⟩
  have hdelivered : s.delivered (.deliver 0) =
    some ⟨.fromDirectory (.directorySharedToExclusive ()), 0⟩ := hqueue
  rw [stateChange_of_delivered hdelivered]
  rfl

end HierarchyCache

end Tejas
