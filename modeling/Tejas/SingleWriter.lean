import Tejas.DirectoryTracksCopies
import Tejas.LineOwnership

/-!
# A single writer

A modified line is the only valid copy once nothing is in flight, as long as no cache
writes to a line that the directory has given to others and no notice brings an invalid
line back to life.
-/

namespace Tejas.CoherenceSystem

variable {C : Type} [DecidableEq C] {cfg : CoherenceConfig C} {s t : CoherenceSystem C}
  {addr : Address} {label : CoherenceLabel C} {labels : List (CoherenceLabel C)} {c : C}

open LabelledRuns

/-- A request to change the state of a line that has become invalid in a cache and still
has its way reaches a sharer, or a cache that is going to give the line up. -/
def NoticeTracked (cfg : CoherenceConfig C) (s : CoherenceSystem C) : CoherenceLabel C → Prop
  | .deliver position => ∀ flight ∈ s.inFlight[position]?,
      ∀ o ∈ flight.event.request.notice,
        s.stateAt cfg o flight.event.address = .invalid →
        ((s.caches o).lines.access (cfg.cache o).geometry flight.event.address).isSome →
          o ∈ (s.line cfg flight.event.address).entry.sharers ∨
            (s.line cfg flight.event.address).EvictPending o
  | _ => True

/-- A response that lets a waiting write modify its line reaches the owner the directory
has noted, or one that it has already asked to give the line up or to share it. -/
def WriteClaimed (cfg : CoherenceConfig C) (s : CoherenceSystem C) : CoherenceLabel C → Prop
  | .deliver position => ∀ flight ∈ s.inFlight[position]?,
      ∀ c ∈ flight.event.request.completes,
        (s.caches c).postpones (cfg.cache c).geometry flight.event = false →
        (s.line cfg flight.event.address).Upgrades flight.event.request c →
          (s.line cfg flight.event.address).Claimed c
  | _ => True

/-- The steps that do not lead two caches to write. -/
def KeepsWriter (cfg : CoherenceConfig C) (s : CoherenceSystem C) (label : CoherenceLabel C) :
    Prop :=
  s.NoticeTracked cfg label ∧ s.WriteClaimed cfg label

instance (s : CoherenceSystem C) (label : CoherenceLabel C) :
    Decidable (s.KeepsWriter cfg label) :=
  match label with
  | .deliver position => inferInstanceAs (Decidable
      ((∀ flight ∈ s.inFlight[position]?, ∀ o ∈ flight.event.request.notice, _ → _ → _ ∨ _) ∧
        ∀ flight ∈ s.inFlight[position]?, ∀ c ∈ flight.event.request.completes, _ → _ → _))
  | .access _ _ _ => isTrue ⟨trivial, trivial⟩
  | .evictShared _ => isTrue ⟨trivial, trivial⟩

/-- The invariant of the runs whose writes are all claimed. -/
structure Owned (cfg : CoherenceConfig C) (s : CoherenceSystem C) : Prop
    extends Transactional cfg s where
  tracked : ∀ addr c, (s.line cfg addr).Tracked c
  owned : ∀ addr c, (s.line cfg addr).Owned c

theorem owned_new : (new : CoherenceSystem C).Owned cfg where
  toTransactional := transactional_new
  tracked := tracking_new.tracked
  owned addr c := by
    rw [line_new]
    intro hmodified
    cases hmodified

theorem Owned.step (h : s.Owned cfg) (hkeeps : s.KeepsWriter cfg label)
    (hstep : s.Step cfg label t) : t.Owned cfg := by
  have hlines := (step_spec h.wellFormed hstep).2
  have hline : ∀ addr, (∀ c, (t.line cfg addr).Tracked c) ∧ ∀ c, (t.line cfg addr).Owned c := by
    intro addr
    have honLine : ∀ lineLabel, (s.line cfg addr).NoticeTracked lineLabel →
        (s.line cfg addr).WriteClaimed lineLabel →
        LineState.Step (s.line cfg addr) lineLabel (t.line cfg addr) →
        (∀ c, (t.line cfg addr).Tracked c) ∧ ∀ c, (t.line cfg addr).Owned c :=
      fun lineLabel hnotice hwrite step =>
        ⟨LineState.tracked_step (h.lines addr) (h.tracked addr) step hnotice,
        LineState.owned_step (h.lines addr) (h.owned addr) step hwrite⟩
    cases hlines addr with
    | same step =>
      rw [step]
      exact ⟨h.tracked addr, h.owned addr⟩
    | silent lineLabel notDelivery step =>
      exact honLine lineLabel (by cases lineLabel <;> trivial) (by cases lineLabel <;> trivial) step
    | delivered position flight present isLabel isFlight own atCache step =>
      subst isLabel
      have hsame : cfg.directory.SameLine flight.event.address addr := (onLine_iff.mp own).1
      refine honLine _ ?_ ?_ step
      · intro o ho hinvalid hpresent
        rw [event_map] at ho
        have hchannel : flight.event.request.channel.2 = .cache o := by
          revert ho
          cases flight.event.request with
          | fromDirectory reply => cases reply <;> rintro ⟨⟩ <;> rfl
          | _ => rintro ⟨⟩
        have hnotice := hkeeps.1 flight isFlight o ho
        rw [line_congr hsame] at hnotice
        refine hnotice ?_ ?_
        · rw [stateAt, LineArray.stateAt_congr ((sameLine_cache o).mpr hsame)]
          exact hinvalid
        · rw [← (atCache o hchannel).2]
          exact hpresent
      · intro c hupgrades
        rw [event_map] at hupgrades
        have hchannel : flight.event.request.channel.2 = .cache c := by
          have hcompletes := hupgrades.1
          revert hcompletes
          cases flight.event.request with
          | fromDirectory reply => cases reply <;> rintro ⟨⟩ <;> rfl
          | memResponse source c' => cases source <;> rintro ⟨⟩ <;> rfl
          | _ => rintro ⟨⟩
        have hwrite := hkeeps.2 flight isFlight c hupgrades.1 (atCache c hchannel).1
        rw [line_congr hsame] at hwrite
        exact hwrite hupgrades
  exact ⟨h.toTransactional.step hstep, fun addr => (hline addr).1, fun addr => (hline addr).2⟩

theorem owned_run (run : Run (Guarded (Step cfg) (KeepsWriter cfg)) new labels s) :
    s.Owned cfg :=
  run.invariant owned_new fun _ _ _ h hstep => h.step hstep.1 hstep.2

/-- In every run that keeps writers apart, and for every order of events, a line that is
modified in one cache is invalid in all others once nothing is in flight. -/
theorem single_writer_run (run : Run (Guarded (Step cfg) (KeepsWriter cfg)) new labels s)
    (hquiet : s.Quiescent) (c c' : C) (addr : Address)
    (hmodified : s.stateAt cfg c addr = .modified) (hne : c' ≠ c) :
    s.stateAt cfg c' addr = .invalid := by
  have h := owned_run run
  obtain ⟨hflights, hpending⟩ := hquiet.line h.wellFormed addr c'
  by_contra hvalid
  exact hne ((h.owned addr c).single_writer (h.tracked addr c') hflights hpending hmodified hvalid)

/-- One cache reads a line and the other one writes to it, with a write miss. -/
theorem single_writer_run_two :
    ∃ s, Run (Guarded (Step oneLineConfig) (KeepsWriter oneLineConfig)) new
        [.access true false 64, .deliver 0, .deliver 0, .deliver 0, .deliver 0,
          .access false true 64, .deliver 0, .deliver 0, .deliver 0, .deliver 0] s ∧
      s.stateAt oneLineConfig false 64 = .modified ∧
      s.stateAt oneLineConfig true 64 = .invalid := by
  have hrun : (exec (fun s label => if KeepsWriter oneLineConfig s label then
      (next oneLineConfig s label).toOption else none) new
      [.access true false 64, .deliver 0, .deliver 0, .deliver 0, .deliver 0,
        .access false true 64, .deliver 0, .deliver 0, .deliver 0, .deliver 0]).any
        (fun s => s.Quiescent ∧ s.stateAt oneLineConfig false 64 = .modified) = true := by
    decide +kernel
  obtain ⟨s, hs, hfinal⟩ := Option.any_eq_true _ _ |>.mp hrun
  obtain ⟨hquiet, hmodified⟩ := of_decide_eq_true hfinal
  have hguarded := guarded_run_of_next hs
  exact ⟨s, hguarded, hmodified,
    single_writer_run hguarded hquiet false true 64 hmodified (by decide)⟩

/-- A write that is merged behind a read miss of its line modifies it when the read is
answered. The other cache keeps its copy. -/
theorem merged_write_leaves_copy :
    ¬ ∀ (cfg : CoherenceConfig Bool) labels s, Run (Step cfg) new labels s → s.Quiescent →
      ∀ c c' addr, s.stateAt cfg c addr = .modified → c' ≠ c →
        s.stateAt cfg c' addr = .invalid := by
  intro hall
  have hrun : (exec (fun s label => (next oneLineConfig s label).toOption) new
      [.access true false 64, .deliver 0, .deliver 0, .deliver 0, .deliver 0,
        .access false false 64, .access false true 72, .deliver 0, .deliver 0, .deliver 0,
        .deliver 0]).any (fun s => s.Quiescent ∧ s.stateAt oneLineConfig false 64 = .modified ∧
          s.stateAt oneLineConfig true 64 = .shared) = true := by
    decide +kernel
  obtain ⟨s, hs, hfinal⟩ := Option.any_eq_true _ _ |>.mp hrun
  obtain ⟨hquiet, hmodified, hshared⟩ := of_decide_eq_true hfinal
  have hinvalid := hall oneLineConfig _ s (run_of_next hs) hquiet false true 64 hmodified
    (by decide)
  rw [hshared] at hinvalid
  cases hinvalid

end Tejas.CoherenceSystem
