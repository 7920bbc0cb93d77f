import Tejas.LabelledRuns
import Tejas.MissRegister

/-!
# The order of the events in the register

What `removeEventsFromMSHR` returns for a line is what has been added for it since its
last removal, in the order of arrival and without the writes that directly follow a
write.
-/

namespace Tejas.MSHR
open LabelledRuns

variable {C : Type} {m m' : MSHR C} {b : ℕ} {a addr : Address}
  {event : AddressCarryingEvent C} {events : List (AddressCarryingEvent C)}

inductive Call (C : Type) where
  | addToMSHR (event : AddressCarryingEvent C)
  | removeEventsFromMSHR (addr : Address)

def next (b : ℕ) (m : MSHR C) : Call C → Option (MSHR C)
  | .addToMSHR event => some (m.addToMSHR b event)
  | .removeEventsFromMSHR addr => (m.removeEventsFromMSHR b addr).map Prod.snd

/-- What a call does to the list of the events that have been added for a line. -/
def arrive (b : ℕ) (addr : Address) (events : List (AddressCarryingEvent C)) :
    Call C → List (AddressCarryingEvent C)
  | .addToMSHR event =>
    if getLineAddr b addr = getLineAddr b event.address then events ++ [event] else events
  | .removeEventsFromMSHR a => if getLineAddr b addr = getLineAddr b a then [] else events

/-- The events added for the line since it was last removed. -/
def arrivals (b : ℕ) (addr : Address) (calls : List (Call C)) : List (AddressCarryingEvent C) :=
  calls.foldl (arrive b addr) []

/-- The events without the writes that directly follow a write; `afterWrite` says whether
the first one does. -/
def withoutMerged : Bool → List (AddressCarryingEvent C) → List (AddressCarryingEvent C)
  | _, [] => []
  | afterWrite, event :: rest =>
    if afterWrite && isCacheWrite event then withoutMerged true rest
    else event :: withoutMerged (isCacheWrite event) rest

/-- The last event is a write; `afterWrite` stands for the last event of no events. -/
def endsInWrite (afterWrite : Bool) (events : List (AddressCarryingEvent C)) : Bool :=
  (events.getLast?.map isCacheWrite).getD afterWrite

theorem endsInWrite_cons (afterWrite : Bool) :
    endsInWrite afterWrite (event :: events) = endsInWrite (isCacheWrite event) events := by
  cases events with
  | nil => rfl
  | cons e rest => rw [endsInWrite, endsInWrite, List.getLast?_cons_cons, List.getLast?_cons]; rfl

theorem withoutMerged_append (afterWrite : Bool) :
    withoutMerged afterWrite (events ++ [event]) =
      withoutMerged afterWrite events ++
        if endsInWrite afterWrite events && isCacheWrite event then [] else [event] := by
  induction events generalizing afterWrite with
  | nil =>
    rw [List.nil_append, withoutMerged, withoutMerged, List.nil_append]
    rfl
  | cons e rest ih =>
    rw [List.cons_append, withoutMerged, withoutMerged, endsInWrite_cons]
    split
    · rename_i hmerged
      rw [Bool.and_eq_true] at hmerged
      rw [ih, hmerged.2]
    · rw [ih, List.cons_append]

/-- Leaving out a write behind a write does not change what the last event is. -/
theorem endsInWrite_withoutMerged (afterWrite : Bool) :
    endsInWrite afterWrite (withoutMerged afterWrite events) = endsInWrite afterWrite events := by
  induction events generalizing afterWrite with
  | nil => rfl
  | cons e rest ih =>
    rw [withoutMerged, endsInWrite_cons]
    split
    · rename_i hmerged
      rw [Bool.and_eq_true] at hmerged
      rw [hmerged.1, hmerged.2, ih]
    · rw [endsInWrite_cons, ih]

theorem isMerged_eq (events : List (AddressCarryingEvent C)) :
    isMerged events event = (endsInWrite false events && isCacheWrite event) := by
  rw [isMerged, endsInWrite, Bool.and_comm]
  cases events.getLast? <;> rfl

/-- What waits is what has arrived, without the merged writes. -/
structure Follows (b : ℕ) (m : MSHR C) (calls : List (Call C)) : Prop where
  wellFormed : m.WellFormed b
  waiting : ∀ addr, m.waiting b addr = withoutMerged false (arrivals b addr calls)

theorem follows_empty : Follows b (empty : MSHR C) [] where
  wellFormed := wellFormed_empty
  waiting _ := rfl

theorem arrivals_append {calls : List (Call C)} {call : Call C} :
    arrivals b addr (calls ++ [call]) = arrive b addr (arrivals b addr calls) call := by
  rw [arrivals, List.foldl_append]
  rfl

theorem Follows.step {calls : List (Call C)} {call : Call C} (h : Follows b m calls)
    (hstep : m.next b call = some m') : Follows b m' (calls ++ [call]) := by
  cases call with
  | addToMSHR event =>
    cases hstep
    refine ⟨wellFormed_addToMSHR h.wellFormed, ?_⟩
    intro addr
    rw [waiting_addToMSHR h.wellFormed, isMerged_eq, h.waiting addr, endsInWrite_withoutMerged,
      arrivals_append, arrive]
    by_cases hline : getLineAddr b addr = getLineAddr b event.address
    · rw [if_pos hline, withoutMerged_append]
      cases endsInWrite false (arrivals b addr calls) && isCacheWrite event <;> simp [hline]
    · rw [if_neg hline, if_neg (fun hboth => hline hboth.1)]
  | removeEventsFromMSHR a =>
    obtain ⟨⟨missList, rest⟩, hremoved, rfl⟩ := Option.map_eq_some_iff.mp hstep
    obtain ⟨-, hwellFormed, hwaiting⟩ := removeEvents_spec h.wellFormed hremoved
    refine ⟨hwellFormed, ?_⟩
    intro addr
    rw [hwaiting, arrivals_append, arrive]
    split
    · rfl
    · exact h.waiting addr

theorem follows_run {calls : List (Call C)} (run : Run (StepOf (next b)) empty calls m) :
    Follows b m calls := by
  induction run with
  | nil => exact follows_empty
  | snoc prior last ih => exact ih.step last

theorem withoutMerged_eq_nil_iff : withoutMerged false events = [] ↔ events = [] := by
  cases events with
  | nil => simp [withoutMerged]
  | cons e rest => simp [withoutMerged]

/-- After every sequence of calls the size is the number of the events held, no list is
empty, the lines with pending events are those of the lists, each of one list, the events
of a list are of its line, and a removal returns what has arrived for the line without the
merged writes. -/
theorem register_kept {calls : List (Call C)} (run : Run (StepOf (next b)) empty calls m) :
    m.mshrSize = (m.missRegister.map List.length).sum ∧
    (∀ missList ∈ m.missRegister, missList ≠ []) ∧
    (m.missRegister.map (lineOf b)).Nodup ∧
    (∀ missList ∈ m.missRegister, ∀ e ∈ missList,
      lineOf b missList = some (getLineAddr b e.address)) ∧
    (∀ addr, arrivals b addr calls ≠ [] ↔
      ∃ missList ∈ m.missRegister, lineOf b missList = some (getLineAddr b addr)) ∧
    ∀ addr, (m.removeEventsFromMSHR b addr).map Prod.fst =
      if arrivals b addr calls = [] then none
      else some (withoutMerged false (arrivals b addr calls)) := by
  obtain ⟨hm, hwaiting⟩ := follows_run run
  have hfound : ∀ addr, arrivals b addr calls = [] ↔ m.getWaitingEventsInMSHR b addr = none := by
    intro addr
    rw [← waiting_eq_nil_iff hm, hwaiting, withoutMerged_eq_nil_iff]
  refine ⟨hm.size, hm.nonempty, hm.distinct, hm.ofLine, ?_, ?_⟩
  · intro addr
    rw [Ne, hfound, getWaitingEventsInMSHR, List.find?_eq_none]
    simp [holdsLine]
  · intro addr
    rw [removeEventsFromMSHR, ← hwaiting]
    cases hget : m.getWaitingEventsInMSHR b addr with
    | none => rw [if_pos ((hfound addr).mpr hget)]; rfl
    | some missList =>
      have hne : ¬ arrivals b addr calls = [] := by
        intro hnil
        rw [(hfound addr).mp hnil] at hget
        cases hget
      rw [if_neg hne, waiting, hget]
      rfl

/-- Two writes and a read of one line: the second write is merged. -/
theorem register_kept_merged :
    ∃ m : MSHR Unit, m.mshrSize = 2 ∧ (m.removeEventsFromMSHR 6 0).map Prod.fst =
      some [⟨.cacheWrite (), 0⟩, ⟨.cacheRead (), 4⟩] := by
  have hrun : (exec (next (C := Unit) 6) empty [.addToMSHR ⟨.cacheWrite (), 0⟩,
      .addToMSHR ⟨.cacheWrite (), 8⟩, .addToMSHR ⟨.cacheRead (), 4⟩]).any
        (fun m => m.mshrSize = 2) = true := by decide
  obtain ⟨m, hexec, hm⟩ := (Option.any_eq_true _ _).mp hrun
  exact ⟨m, of_decide_eq_true hm, (register_kept (run_of_exec hexec)).2.2.2.2.2 0⟩

end Tejas.MSHR
