import Tejas.CoherenceRefinement
import Tejas.LineNotices

/-!
# The directory tracks every copy

In every run with channels in order, no cache takes an exit but that of a full set, and
once nothing is in flight every valid copy is listed at the directory.
-/

namespace Tejas.CoherenceSystem

variable {C : Type} [DecidableEq C] {cfg : CoherenceConfig C} {s t : CoherenceSystem C}
  {addr : Address} {label : CoherenceLabel C} {labels : List (CoherenceLabel C)} {c : C}

open LabelledRuns

/-- Every cache has at most one transaction for each line. -/
structure Transactional (cfg : CoherenceConfig C) (s : CoherenceSystem C) : Prop where
  wellFormed : s.WellFormed cfg
  lines : ∀ addr, (s.line cfg addr).Transactional

theorem transactional_new : (new : CoherenceSystem C).Transactional cfg where
  wellFormed := wellFormed_new
  lines addr := by
    rw [line_new]
    exact LineState.transactional_initial

theorem Transactional.step (h : s.Transactional cfg) (hstep : s.Step cfg label t) :
    t.Transactional cfg := by
  obtain ⟨hwf, hlines⟩ := step_spec h.wellFormed hstep
  refine ⟨hwf, fun addr => ?_⟩
  cases hlines addr with
  | same step =>
    rw [step]
    exact h.lines addr
  | silent lineLabel _ step => exact (h.lines addr).step step
  | delivered position flight present _ _ _ _ step => exact (h.lines addr).step step

/-- What arrives is received, unless all lines of its set are locked. -/
theorem Transactional.no_exit (h : s.Transactional cfg) {exit : CoherenceExit C}
    (hnext : s.next cfg label = .error exit) :
    exit = .noSuchEvent ∨ ∃ c, exit = .cache c .noLineToFill := by
  -- the protocol receives what is no longer in flight
  have hreceive : ∀ (s' : CoherenceSystem C) (event : AddressCarryingEvent C), s'.WellFormed cfg →
      (∀ present, ((s'.line cfg event.address).receive present event.request).isSome) →
      s'.receive cfg event = .error exit → ∃ c, exit = .cache c .noLineToFill := by
    intro s' event hwf hsome herror
    rcases receive_spec hwf event with ⟨e, heq, hfail⟩ | ⟨t, heq, -⟩
    · cases heq.symm.trans herror
      refine hfail.resolve_right fun ⟨present, hnone⟩ => ?_
      have hpresent := hsome present
      rw [hnone] at hpresent
      cases hpresent
    · rw [heq] at herror
      cases herror
  cases label with
  | access c isWrite address =>
    refine Or.inr (hreceive s ⟨LineState.accessRequest c isWrite, address⟩ h.wellFormed
      (fun present => ?_) hnext)
    obtain ⟨t, heq, -⟩ := LineState.transactional_receive present (h.lines address).consistent
      (r := LineState.accessRequest c isWrite) (s := s.line cfg address) fun o => by
        rw [(LineState.waits_accessRequest c isWrite).tokens]
        exact (h.lines address).one o
    rw [heq]
    rfl
  | evictShared address => cases hnext
  | deliver position =>
    rw [next] at hnext
    split at hnext
    · rename_i flight hflight
      refine Or.inr (hreceive { s with inFlight := s.inFlight.eraseIdx position } flight.event
        ⟨h.wellFormed.caches, h.wellFormed.directory⟩ (fun present => ?_) hnext)
      by_cases hcoherent : flight.event.request.isCoherent = true
      · have hsplit := line_inFlight cfg flight.event.address hflight
        rw [if_pos (onLine_iff.mpr ⟨rfl, hcoherent⟩)] at hsplit
        rw [line_eraseIdx, ← event_map]
        exact (h.lines flight.event.address).receive_isSome hsplit
      · cases hr : flight.event.request <;> first
          | rfl
          | (rw [hr] at hcoherent; exact absurd rfl hcoherent)
    · cases hnext
      exact Or.inl rfl

/-- The invariant of the runs with channels in order. -/
structure Tracking (cfg : CoherenceConfig C) (s : CoherenceSystem C) : Prop
    extends Transactional cfg s where
  tracked : ∀ addr c, (s.line cfg addr).Tracked c
  noticesOrdered : ∀ addr, (s.line cfg addr).NoticesOrdered

theorem tracking_new : (new : CoherenceSystem C).Tracking cfg where
  toTransactional := transactional_new
  tracked addr c := by
    rw [line_new]
    rintro (hvalid | ⟨f, hf, -⟩)
    · exact absurd rfl hvalid
    · cases hf
  noticesOrdered addr := by
    rw [line_new]
    exact LineState.noticesOrdered_initial

omit [DecidableEq C] in
/-- The order of the system is the order of each line. -/
theorem inOrder_line {position : ℕ} {flight : Flight (AddressCarryingEvent C)}
    (horder : s.InOrder (.deliver position)) (hflight : s.inFlight[position]? = some flight)
    {after : List (Flight (Request C))} {present : Bool} :
    (s.line cfg addr).InOrder
      (.deliver (lineFlights cfg.directory.blockSizeBits addr (s.inFlight.take position))
        (flight.map AddressCarryingEvent.request) after present) := by
  cases flight with
  | queued event => trivial
  | sent event =>
    intro r' hr'
    obtain ⟨earlier, hmem, hmap⟩ := List.mem_map.mp hr'
    cases earlier with
    | queued event' => cases hmap
    | sent event' =>
      cases hmap
      have hne := horder (.sent event) (by simp [hflight]) (by simp [sentOn]) (.sent event')
        (List.mem_of_mem_filter hmem)
      simpa [sentOn] using hne

theorem Tracking.step (h : s.Tracking cfg) (horder : s.InOrder label)
    (hstep : s.Step cfg label t) : t.Tracking cfg := by
  have hlines := (step_spec h.wellFormed hstep).2
  have hline : ∀ addr, (∀ c, (t.line cfg addr).Tracked c) ∧ (t.line cfg addr).NoticesOrdered := by
    intro addr
    have honLine : ∀ lineLabel, (s.line cfg addr).InOrder lineLabel →
        LineState.Step (s.line cfg addr) lineLabel (t.line cfg addr) →
        (∀ c, (t.line cfg addr).Tracked c) ∧ (t.line cfg addr).NoticesOrdered :=
      fun lineLabel horder' step =>
        ⟨LineState.tracked_step (h.lines addr) (h.tracked addr) step
          ((h.noticesOrdered addr).noticeTracked (h.lines addr) step),
        (h.noticesOrdered addr).step (h.lines addr) horder' step⟩
    cases hlines addr with
    | same step =>
      rw [step]
      exact ⟨h.tracked addr, h.noticesOrdered addr⟩
    | silent lineLabel notDelivery step =>
      refine honLine lineLabel ?_ step
      cases lineLabel <;> trivial
    | delivered position flight present isLabel isFlight _ _ step =>
      subst isLabel
      exact honLine _ (inOrder_line horder isFlight) step
  exact ⟨h.toTransactional.step hstep, fun addr => (hline addr).1, fun addr => (hline addr).2⟩

theorem tracking_run (run : Run (Guarded (Step cfg) InOrder) new labels s) : s.Tracking cfg :=
  run.invariant tracking_new fun _ _ _ h hstep => h.step hstep.1 hstep.2

omit [DecidableEq C] in
/-- Nothing waits for a line at rest. -/
theorem Quiescent.line (h : s.Quiescent) (hwf : s.WellFormed cfg) (addr : Address) (c : C) :
    (s.line cfg addr).inFlight = [] ∧ ((s.line cfg addr).views c).pending = [] := by
  constructor
  · rw [CoherenceSystem.line, h.1]
    rfl
  · apply (Cache.isAddrInMSHR_eq_false (hwf.caches c)).mp
    rw [Cache.isAddrInMSHR, MSHR.isAddrInMSHR, if_pos (h.2 c)]

/-- In every run with channels in order no cache takes an exit but that of a full set, and
once nothing is in flight every valid copy is listed in a valid directory entry. -/
theorem directory_tracks_copies (run : Run (Guarded (Step cfg) InOrder) new labels s) :
    (∀ label exit, s.next cfg label = .error exit →
      exit = .noSuchEvent ∨ ∃ c, exit = .cache c .noLineToFill) ∧
    (s.Quiescent → ∀ c addr, s.stateAt cfg c addr ≠ .invalid →
      c ∈ (s.directory.entryAt cfg.directory addr).sharers ∧
        (s.directory.entryAt cfg.directory addr).state ≠ .invalid) := by
  have h := tracking_run run
  refine ⟨fun label exit => h.no_exit, fun hquiet c addr hvalid => ?_⟩
  obtain ⟨hflights, hpending⟩ := hquiet.line h.wellFormed addr c
  have hshare : c ∈ (s.line cfg addr).entry.sharers := by
    rcases h.tracked addr c (Or.inl hvalid) with hshare | ⟨f, hf, -⟩ | ⟨r, hr, -⟩
    · exact hshare
    · rw [hflights] at hf
      cases hf
    · rw [hpending] at hr
      cases hr
  refine ⟨hshare, fun hinvalid => ?_⟩
  have hnone := (h.lines addr).consistent.invalid_iff.mp hinvalid
  rw [hnone] at hshare
  cases hshare

/-- Two caches and a directory that have room for one line each. -/
def oneLineConfig : CoherenceConfig Bool where
  cache _ := ⟨⟨0, 6, 1, Nat.one_pos, Geometry.oneSet_bits⟩, .writeBack⟩
  directory := ⟨0, 6, 1, Nat.one_pos, Geometry.oneSet_bits⟩
  sameBlocks _ := rfl

/-- One cache reads a line and the other one then writes to it. -/
theorem directory_tracks_copies_two :
    ∃ s, Run (Guarded (Step oneLineConfig) InOrder) new
        [.access true false 64, .deliver 0, .deliver 0, .deliver 0, .deliver 0,
          .access false true 64, .deliver 0, .deliver 0, .deliver 0, .deliver 0] s ∧
      false ∈ (s.directory.entryAt oneLineConfig.directory 64).sharers := by
  have hrun : (exec (fun s label => if InOrder s label then
      (next oneLineConfig s label).toOption else none) new
      [.access true false 64, .deliver 0, .deliver 0, .deliver 0, .deliver 0,
        .access false true 64, .deliver 0, .deliver 0, .deliver 0, .deliver 0]).any
        (fun s => s.Quiescent ∧ s.stateAt oneLineConfig false 64 ≠ .invalid) = true := by
    decide +kernel
  obtain ⟨s, hs, hfinal⟩ := Option.any_eq_true _ _ |>.mp hrun
  obtain ⟨hquiet, hvalid⟩ := of_decide_eq_true hfinal
  have hguarded := guarded_run_of_next hs
  exact ⟨s, hguarded, ((directory_tracks_copies hguarded).2 hquiet false 64 hvalid).1⟩

end Tejas.CoherenceSystem
