import Tejas.HierarchySteps

/-!
# The capacity of the miss register

Fullness is tested when a request is sent, and the register grows when it arrives. So
the register stays within its size exactly if no event that has to wait arrives at
a full register. The entry of a victim does no harm: the list of the filled line leaves
the register in the same step.
-/

namespace Tejas

variable {C : Type}

namespace MSHR

variable {m : MSHR C} {b : ℕ} {event : AddressCarryingEvent C}

theorem size_addToMSHR : (m.addToMSHR b event).mshrSize =
    m.mshrSize + if isMerged (m.waiting b event.address) event then 0 else 1 := by
  rw [addToMSHR, waiting]
  cases m.getWaitingEventsInMSHR b event.address with
  | none => simp [isMerged]
  | some missList =>
    dsimp only [Option.getD_some]
    split <;> rfl

theorem size_addToMSHR_le : (m.addToMSHR b event).mshrSize ≤ m.mshrSize + 1 := by
  rw [size_addToMSHR]
  split <;> omega

/-- A list that leaves the register makes room for one event at least. -/
theorem size_removeEvents {m' : MSHR C} {addr : Address}
    {missList : List (AddressCarryingEvent C)} (hm : m.WellFormed b)
    (h : m.removeEventsFromMSHR b addr = some (missList, m')) :
    m'.mshrSize + 1 ≤ m.mshrSize := by
  obtain ⟨l, hl, heq⟩ := Option.map_eq_some_iff.mp h
  cases heq
  have hmem := (getWaiting_eq_some hl).1
  have hle := length_le_total hmem
  have hpos := List.length_pos_of_ne_nil (hm.nonempty _ hmem)
  rw [← hm.size] at hle
  dsimp only
  omega

end MSHR

namespace HierarchyCache
open LabelledRuns

variable {cfg : HierarchyConfig C} {s t : HierarchyCache C} {addr : Address}
  {event : AddressCarryingEvent C} {x : CacheAccess C} {label : Action C}
  {labels : List (Action C)}

/-- The handler of the event adds it to the register. -/
def addsToMSHR (cfg : HierarchyConfig C) (s : HierarchyCache C)
    (event : AddressCarryingEvent C) : Bool :=
  match event.request with
  | .cacheRead c => s.registers cfg ⟨c, false, event.address⟩
  | .cacheWrite c => s.registers cfg ⟨c, true, event.address⟩ &&
      !MSHR.isMerged (s.mshr.waiting cfg.geometry.blockSizeBits event.address) event
  | .fromDirectory (.evictCacheLine _) => s.isAddrInMSHR cfg event.address
  | _ => false

/-- An event that has to wait meets a full register. -/
def MeetsFull (cfg : HierarchyConfig C) (s : HierarchyCache C) : Action C → Prop
  | .deliver i => ∃ e ∈ s.queue[i]?, s.addsToMSHR cfg e = true ∧ cfg.mshrMaxSize ≤ s.mshr.mshrSize
  | .redeliver i => ∃ p ∈ s.requeued[i]?, s.addsToMSHR cfg p.2 = true ∧
      cfg.mshrMaxSize ≤ s.mshr.mshrSize
  | _ => False

theorem size_handleRequest_le :
    (s.handleRequest cfg x).mshr.mshrSize ≤ s.mshr.mshrSize + 1 := by
  rw [handleRequest_mshr]
  split
  · exact MSHR.size_addToMSHR_le
  · exact Nat.le_succ _

/-- The requests that waited enter only as long as there is room. -/
theorem size_pendingList (h : s.mshr.mshrSize ≤ cfg.mshrMaxSize) :
    (s.processEventsInPendingList cfg).mshr.mshrSize ≤ cfg.mshrMaxSize := by
  unfold processEventsInPendingList
  have hcleared : ({ s with eventsWaitingOnMSHR := [] } : HierarchyCache C).mshr.mshrSize ≤
    cfg.mshrMaxSize := h
  generalize ({ s with eventsWaitingOnMSHR := [] } : HierarchyCache C) = u at hcleared
  generalize s.eventsWaitingOnMSHR = accesses
  induction accesses generalizing u with
  | nil => exact hcleared
  | cons a rest ih =>
    rw [pendingLoop]
    split
    · exact ih _ hcleared
    · rename_i hroom
      apply ih
      simp only [isMSHRFull, Bool.or_eq_true, decide_eq_true_eq, not_or, not_le] at hroom
      have hone : (u.handleRequest cfg a).mshr.mshrSize ≤ u.mshr.mshrSize + 1 :=
        size_handleRequest_le
      omega

theorem size_processEventsInMSHR (hm : s.mshr.WellFormed cfg.geometry.blockSizeBits)
    (hsize : s.mshr.mshrSize ≤ cfg.mshrMaxSize + 1)
    (h : s.processEventsInMSHR cfg addr = some t) : t.mshr.mshrSize ≤ cfg.mshrMaxSize := by
  obtain ⟨missList, m, u, hremoved, hprocessed, rfl⟩ := processEventsInMSHR_eq_some h
  obtain ⟨more, hserves⟩ := processEvents_serves hprocessed
  have hroom := MSHR.size_removeEvents hm hremoved
  apply size_pendingList
  rw [hserves.mshr]
  dsimp only
  omega

theorem size_handleMemResponse (hm : s.mshr.WellFormed cfg.geometry.blockSizeBits)
    (hsize : s.mshr.mshrSize ≤ cfg.mshrMaxSize) (h : s.handleMemResponse cfg event = some t) :
    t.mshr.mshrSize ≤ cfg.mshrMaxSize := by
  unfold handleMemResponse at h
  split at h
  · obtain ⟨lines, evictedLine, u, -, hevicted, hprocessed⟩ := fillAndSatisfyRequests_eq_some h
    have hm' : ({ s with lines := lines } : HierarchyCache C).mshr.WellFormed
      cfg.geometry.blockSizeBits := hm
    refine size_processEventsInMSHR (wellFormed_handleEvictedLine hm' hevicted) ?_ hprocessed
    rcases handleEvictedLine_mshr hevicted with heq | ⟨victim, -, -, -, heq⟩
    · rw [heq]
      exact Nat.le_succ_of_le hsize
    · rw [heq]
      exact MSHR.size_addToMSHR_le.trans (Nat.succ_le_succ hsize)
  · cases h
    exact hsize

/-- An event keeps the bound exactly if it does not have to wait at a full register. -/
theorem size_handleEvent_iff (hm : s.mshr.WellFormed cfg.geometry.blockSizeBits)
    (hsize : s.mshr.mshrSize ≤ cfg.mshrMaxSize) (h : s.handleEvent cfg event = some t) :
    t.mshr.mshrSize ≤ cfg.mshrMaxSize ↔
      ¬ (s.addsToMSHR cfg event = true ∧ cfg.mshrMaxSize ≤ s.mshr.mshrSize) := by
  obtain ⟨request, address⟩ := event
  have hadded : ∀ adds : Bool, s.addsToMSHR cfg ⟨request, address⟩ = adds →
      t.mshr.mshrSize = s.mshr.mshrSize + adds.toNat →
      (t.mshr.mshrSize ≤ cfg.mshrMaxSize ↔
        ¬ (s.addsToMSHR cfg ⟨request, address⟩ = true ∧ cfg.mshrMaxSize ≤ s.mshr.mshrSize)) := by
    intro adds hadds heq
    rw [heq, hadds]
    cases adds with
    | false => simpa using hsize
    | true =>
      simp only [Bool.toNat_true, true_and]
      omega
  have hserved : t.mshr.mshrSize ≤ cfg.mshrMaxSize →
      s.addsToMSHR cfg ⟨request, address⟩ = false →
      (t.mshr.mshrSize ≤ cfg.mshrMaxSize ↔
        ¬ (s.addsToMSHR cfg ⟨request, address⟩ = true ∧ cfg.mshrMaxSize ≤ s.mshr.mshrSize)) := by
    intro hbound hquiet
    rw [hquiet]
    simpa using hbound
  have hupdated : ∀ {addr newState}, s.updateStateOfCacheLine cfg addr newState = some t →
      t.mshr.mshrSize ≤ cfg.mshrMaxSize := by
    intro addr newState hupdate
    rw [(updateStateOfCacheLine_eq_some hupdate).mshr]
    exact hsize
  unfold handleEvent at h
  split at h
  · rename_i c heq
    dsimp only at heq h
    cases heq
    cases h
    refine hadded (s.registers cfg ⟨c, false, address⟩) rfl ?_
    have hread : ∀ missList, MSHR.isMerged missList
        (CacheAccess.event ⟨c, false, address⟩) = false := fun _ => rfl
    rw [handleRequest_mshr]
    cases s.registers cfg ⟨c, false, address⟩ with
    | false => rfl
    | true =>
      rw [if_pos rfl, MSHR.size_addToMSHR, hread]
      rfl
  · rename_i c heq
    dsimp only at heq h
    cases heq
    cases h
    refine hadded (s.registers cfg ⟨c, true, address⟩ &&
      !MSHR.isMerged (s.mshr.waiting cfg.geometry.blockSizeBits address)
        ⟨.cacheWrite c, address⟩) rfl ?_
    rw [handleRequest_mshr]
    cases s.registers cfg ⟨c, true, address⟩ with
    | false => rfl
    | true =>
      have hevent : CacheAccess.event ⟨c, true, address⟩ = ⟨.cacheWrite c, address⟩ := rfl
      rw [if_pos rfl, hevent, MSHR.size_addToMSHR, Bool.true_and]
      cases MSHR.isMerged (s.mshr.waiting cfg.geometry.blockSizeBits address)
        ⟨.cacheWrite c, address⟩ <;> rfl
  · rename_i c heq
    dsimp only at heq h
    cases heq
    split at h
    · rename_i hlocked
      cases h
      refine hadded true hlocked ?_
      unfold addToMSHR
      rw [MSHR.size_addToMSHR]
      rfl
    · rename_i hunlocked
      exact hserved (hupdated h) (Bool.not_eq_true _ ▸ hunlocked)
  · rename_i heq
    dsimp only at heq
    cases heq
    exact hserved (size_handleMemResponse hm hsize h) rfl
  · rename_i heq
    dsimp only at heq
    cases heq
    exact hserved (size_handleMemResponse hm hsize h) rfl
  · rename_i heq
    dsimp only at heq
    cases heq
    exact hserved (size_processEventsInMSHR hm (Nat.le_succ_of_le hsize) h) rfl
  · rename_i heq
    dsimp only at heq
    cases heq
    obtain ⟨u, hupdate, rfl⟩ := Option.map_eq_some_iff.mp h
    refine hserved ?_ rfl
    have hmshr := (updateStateOfCacheLine_eq_some hupdate).mshr
    dsimp only [record]
    rw [hmshr]
    exact hsize
  · rename_i heq
    dsimp only at heq
    cases heq
    exact hserved (hupdated h) rfl
  · rename_i heq
    dsimp only at heq
    cases heq
    unfold handleAckDirectoryWriteHit at h
    split at h
    · cases h
    · exact hserved (size_processEventsInMSHR hm (Nat.le_succ_of_le hsize) h) rfl
  · rename_i hread hwrite hevict _ _ _ _ _ _
    cases h
    refine hserved hsize ?_
    unfold addsToMSHR
    split
    · rename_i c heq
      exact absurd heq (hread c)
    · rename_i c heq
      exact absurd heq (hwrite c)
    · rename_i c heq
      exact absurd heq (hevict c)
    · rfl

/-- An event keeps the register well formed. -/
theorem wellFormed_handleEvent (hm : s.mshr.WellFormed cfg.geometry.blockSizeBits)
    (h : s.handleEvent cfg event = some t) : t.mshr.WellFormed cfg.geometry.blockSizeBits := by
  have hupdated : ∀ {addr newState u}, s.updateStateOfCacheLine cfg addr newState = some u →
      u.mshr.WellFormed cfg.geometry.blockSizeBits := by
    intro addr newState u hupdate
    rw [(updateStateOfCacheLine_eq_some hupdate).mshr]
    exact hm
  unfold handleEvent at h
  split at h
  · cases h
    exact wellFormed_handleRequest hm _
  · cases h
    exact wellFormed_handleRequest hm _
  · split at h
    · cases h
      exact MSHR.wellFormed_addToMSHR hm
    · exact hupdated h
  · exact wellFormed_handleMemResponse hm h
  · exact wellFormed_handleMemResponse hm h
  · exact wellFormed_processEventsInMSHR hm h
  · obtain ⟨u, hupdate, rfl⟩ := Option.map_eq_some_iff.mp h
    have hu := hupdated hupdate
    exact hu
  · exact hupdated h
  · unfold handleAckDirectoryWriteHit at h
    split at h
    · cases h
    · exact wellFormed_processEventsInMSHR hm h
  · cases h
    exact hm

/-- The register is well formed and within its size. -/
structure Bounded (cfg : HierarchyConfig C) (s : HierarchyCache C) : Prop where
  mshr : s.mshr.WellFormed cfg.geometry.blockSizeBits
  size : s.mshr.mshrSize ≤ cfg.mshrMaxSize

theorem bounded_initial (cfg : HierarchyConfig C) : Bounded cfg initial where
  mshr := MSHR.wellFormed_empty
  size := Nat.zero_le _

theorem wellFormed_step (hm : s.mshr.WellFormed cfg.geometry.blockSizeBits)
    (hstep : Step cfg s label t) : t.mshr.WellFormed cfg.geometry.blockSizeBits := by
  cases label with
  | request x =>
    cases hstep
    unfold addEventAtLowerCache
    split <;> exact hm
  | post event =>
    cases hstep
    exact hm
  | answer i =>
    unfold Step StepOf next at hstep
    dsimp only at hstep
    split at hstep
    · cases hstep
    · cases hstep
      exact hm
  | deliver i =>
    unfold Step StepOf next at hstep
    dsimp only at hstep
    split at hstep
    · cases hstep
    · exact wellFormed_handleEvent (s := { s with queue := s.queue.eraseIdx i }) hm hstep
  | redeliver i =>
    unfold Step StepOf next at hstep
    dsimp only at hstep
    split at hstep
    · cases hstep
    · exact wellFormed_handleEvent (s := { s with requeued := s.requeued.eraseIdx i }) hm hstep
  | setState addr state =>
    unfold Step StepOf next at hstep
    dsimp only at hstep
    split at hstep
    · cases hstep
    · rw [(updateStateOfCacheLine_eq_some hstep).mshr]
      exact hm

/-- A step keeps the bound exactly if it lets no event wait at a full register. -/
theorem Bounded.size_step_iff (h : Bounded cfg s) (hstep : Step cfg s label t) :
    t.mshr.mshrSize ≤ cfg.mshrMaxSize ↔ ¬ s.MeetsFull cfg label := by
  have hquiet : t.mshr = s.mshr → ¬ s.MeetsFull cfg label →
      (t.mshr.mshrSize ≤ cfg.mshrMaxSize ↔ ¬ s.MeetsFull cfg label) := by
    intro hmshr hnot
    rw [hmshr]
    exact ⟨fun _ => hnot, fun _ => h.size⟩
  cases label with
  | request x =>
    cases hstep
    refine hquiet ?_ id
    unfold addEventAtLowerCache
    split <;> rfl
  | post event =>
    cases hstep
    exact hquiet rfl id
  | answer i =>
    unfold Step StepOf next at hstep
    dsimp only at hstep
    split at hstep
    · cases hstep
    · cases hstep
      exact hquiet rfl id
  | deliver i =>
    unfold Step StepOf next at hstep
    dsimp only at hstep
    split at hstep
    · cases hstep
    · rename_i event hfound
      have hiff := size_handleEvent_iff (s := { s with queue := s.queue.eraseIdx i })
        h.mshr h.size hstep
      rw [hiff, MeetsFull, hfound]
      simp only [Option.mem_def, Option.some.injEq, exists_eq_left']
      rfl
  | redeliver i =>
    unfold Step StepOf next at hstep
    dsimp only at hstep
    split at hstep
    · cases hstep
    · rename_i time event hfound
      have hiff := size_handleEvent_iff (s := { s with requeued := s.requeued.eraseIdx i })
        h.mshr h.size hstep
      rw [hiff, MeetsFull, hfound]
      simp only [Option.mem_def, Option.some.injEq, exists_eq_left']
      rfl
  | setState addr state =>
    unfold Step StepOf next at hstep
    dsimp only at hstep
    split at hstep
    · cases hstep
    · exact hquiet (updateStateOfCacheLine_eq_some hstep).mshr id

/-- The runs in which no event has to wait at a full register are the runs in which the
register stays within its size in every state reached. -/
theorem register_bounded_iff (cfg : HierarchyConfig C) (labels : List (Action C))
    (s : HierarchyCache C) :
    Run (Guarded (Step cfg) fun s a => ¬ s.MeetsFull cfg a) initial labels s ↔
      Run (fun s a t => Step cfg s a t ∧ t.mshr.mshrSize ≤ cfg.mshrMaxSize) initial labels s := by
  constructor
  · intro run
    have hboth : Bounded cfg s ∧
        Run (fun s a t => Step cfg s a t ∧ t.mshr.mshrSize ≤ cfg.mshrMaxSize) initial labels s := by
      induction run with
      | nil => exact ⟨bounded_initial cfg, .nil⟩
      | snoc prior last ih =>
        have hsize := (ih.1.size_step_iff last.2).mpr last.1
        exact ⟨⟨wellFormed_step ih.1.mshr last.2, hsize⟩, .snoc ih.2 ⟨last.2, hsize⟩⟩
    exact hboth.2
  · intro run
    have hboth : Bounded cfg s ∧
        Run (Guarded (Step cfg) fun s a => ¬ s.MeetsFull cfg a) initial labels s := by
      induction run with
      | nil => exact ⟨bounded_initial cfg, .nil⟩
      | snoc prior last ih =>
        have hroom := (ih.1.size_step_iff last.1).mp last.2
        exact ⟨⟨wellFormed_step ih.1.mshr last.1, last.2⟩, .snoc ih.2 ⟨hroom, last.1⟩⟩
    exact hboth.2

/-- A first-level cache with two lines of 64 bytes and one register. -/
def oneRegister : HierarchyConfig Unit where
  self := ()
  geometry := ⟨0, 6, 2, Nat.two_pos, Geometry.oneSet_bits⟩
  writePolicy := .writeBack
  mshrMaxSize := 1
  coherent := false
  belowCoherenceLevel := false
  topLevelCache := true

/-- Two requests are sent before the first of them arrives. -/
theorem two_in_flight_overflow :
    ¬ ∀ (cfg : HierarchyConfig Unit) (labels : List (Action Unit)) (s : HierarchyCache Unit),
      Run (Step cfg) initial labels s → s.mshr.mshrSize ≤ cfg.mshrMaxSize := by
  intro hclaim
  have hrun : (exec (next oneRegister) initial
      [.request ⟨(), false, 0⟩, .request ⟨(), false, 64⟩, .deliver 0, .deliver 0]).any
        (fun s => decide (s.mshr.mshrSize = 2)) = true := by decide
  obtain ⟨s, hexec, hs⟩ := (Option.any_eq_true _ _).mp hrun
  have hsize := of_decide_eq_true hs
  have hbound := hclaim oneRegister _ s (run_of_exec hexec)
  rw [hsize] at hbound
  exact absurd hbound (by decide)

end HierarchyCache

end Tejas
