import Tejas.CacheLineViews
import Tejas.HierarchySteps
import Mathlib.Data.List.Perm.Lattice

/-!
# The loop over the pending list

`processEventsInPendingList` takes events out of the list that it indexes, and steps its
index and its bound back each time. The list holds references, and an event is removed by
its identity. A full register stays full for the address of an event, so the first
occurrence of a handled event is the one that the loop has reached.
-/

namespace Tejas

variable {C : Type}

namespace MSHR

variable {m : MSHR C} {b : ℕ} {addr : Address} {event : AddressCarryingEvent C}
  {missList : List (AddressCarryingEvent C)} {lists : List (List (AddressCarryingEvent C))}

theorem holdsLine_append (h : holdsLine b addr missList = true) :
    holdsLine b addr (missList ++ [event]) = true := by
  cases missList with
  | nil => simp [holdsLine, lineOf] at h
  | cons first rest => exact h

theorem holdsLine_addWaiting (h : ∃ missList ∈ lists, holdsLine b addr missList = true) :
    ∃ missList ∈ addWaiting b event lists, holdsLine b addr missList = true := by
  induction lists with
  | nil => exact h
  | cons first rest ih =>
    obtain ⟨missList, hmem, hholds⟩ := h
    rw [addWaiting]
    split
    · rcases List.mem_cons.mp hmem with rfl | hmem
      · exact ⟨_, List.mem_cons_self, holdsLine_append hholds⟩
      · exact ⟨missList, List.mem_cons_of_mem _ hmem, hholds⟩
    · rcases List.mem_cons.mp hmem with rfl | hmem
      · exact ⟨missList, List.mem_cons_self, hholds⟩
      · obtain ⟨found, hfound, hholds⟩ := ih ⟨missList, hmem, hholds⟩
        exact ⟨found, List.mem_cons_of_mem _ hfound, hholds⟩

theorem isSome_getWaiting_iff : (m.getWaitingEventsInMSHR b addr).isSome = true ↔
    ∃ missList ∈ m.missRegister, holdsLine b addr missList = true := by
  rw [getWaitingEventsInMSHR, List.find?_isSome]

theorem size_le_addToMSHR : m.mshrSize ≤ (m.addToMSHR b event).mshrSize := by
  rw [addToMSHR]
  split
  · split
    · exact Nat.le_refl _
    · exact Nat.le_succ _
  · exact Nat.le_succ _

/-- An event in the register keeps its line there. -/
theorem isAddrInMSHR_addToMSHR (h : m.isAddrInMSHR b addr = true) :
    (m.addToMSHR b event).isAddrInMSHR b addr = true := by
  rw [isAddrInMSHR] at h
  split at h
  · cases h
  · rename_i hsize
    have hle : m.mshrSize ≤ (m.addToMSHR b event).mshrSize := size_le_addToMSHR
    rw [isAddrInMSHR, if_neg (by omega), isSome_getWaiting_iff]
    rw [isSome_getWaiting_iff] at h
    rw [addToMSHR]
    split
    · split
      · exact h
      · exact holdsLine_addWaiting h
    · obtain ⟨missList, hmem, hholds⟩ := h
      exact ⟨missList, List.mem_append_left _ hmem, hholds⟩

end MSHR

namespace HierarchyCache

variable {cfg : HierarchyConfig C} {s t : HierarchyCache C} {addr : Address} {x : CacheAccess C}

theorem lines_handleRequest (i : ℕ) :
    ((s.handleRequest cfg x).lines.lines i).address = (s.lines.lines i).address := by
  rcases handleRequest_lines cfg s x with heq | ⟨j, heq⟩
  · rw [heq]
  · rw [heq]
    exact (LineArray.mark_lines s.lines j i).2.1

theorem isAddrInMSHR_handleRequest (h : s.isAddrInMSHR cfg addr = true) :
    (s.handleRequest cfg x).isAddrInMSHR cfg addr = true := by
  rw [isAddrInMSHR, handleRequest_mshr]
  split
  · exact MSHR.isAddrInMSHR_addToMSHR h
  · exact h

/-- Handling a request makes no room. -/
theorem isMSHRFull_handleRequest (h : s.isMSHRFull cfg addr = true) :
    (s.handleRequest cfg x).isMSHRFull cfg addr = true := by
  have hsize : s.mshr.mshrSize ≤ (s.handleRequest cfg x).mshr.mshrSize := by
    rw [handleRequest_mshr]
    split
    · exact MSHR.size_le_addToMSHR
    · exact Nat.le_refl _
  have hlines : s.numberOfLinesOfSetInMSHR cfg addr ≤
      (s.handleRequest cfg x).numberOfLinesOfSetInMSHR cfg addr := by
    apply List.countP_mono_left
    intro i _ hlocked
    rw [lines_handleRequest]
    exact isAddrInMSHR_handleRequest hlocked
  rw [isMSHRFull, Bool.or_eq_true, decide_eq_true_eq, decide_eq_true_eq] at h ⊢
  rcases h with h | h
  · exact Or.inl (h.trans hsize)
  · exact Or.inr (h.trans hlines)

/-! ### The loop -/

/-- The variables of the loop, and the events that have been handled so far. -/
structure PendingScan (C R : Type) where
  cache : HierarchyCache C
  eventsWaitingOnMSHR : List R
  i : ℤ
  size : ℤ
  handled : List R

variable {R : Type} {access : R → CacheAccess C} {event : R}
  {kept rest waiting before after handled left more : List R}

/-- The rounds of the loop, where `access` is what a reference stands for. `none` is an
index out of the list. -/
def pendingRounds [DecidableEq R] (cfg : HierarchyConfig C) (access : R → CacheAccess C) :
    ℕ → PendingScan C R → Option (PendingScan C R)
  | 0, _ => none
  | fuel + 1, l =>
    if ¬ l.i < l.size then some l
    else if l.eventsWaitingOnMSHR.isEmpty then some l
    else
      match l.eventsWaitingOnMSHR[l.i.toNat]? with
      | none => none
      | some event =>
        if l.cache.isMSHRFull cfg (access event).address then
          pendingRounds cfg access fuel { l with i := l.i + 1 }
        else
          pendingRounds cfg access fuel
            { cache := l.cache.handleRequest cfg (access event)
              eventsWaitingOnMSHR := l.eventsWaitingOnMSHR.erase event
              i := l.i - 1 + 1
              size := l.size - 1
              handled := l.handled ++ [event] }

/-- One run of the loop over a list of events. -/
def pendingScan [DecidableEq R] (cfg : HierarchyConfig C) (access : R → CacheAccess C)
    (s : HierarchyCache C) (waiting : List R) : Option (PendingScan C R) :=
  pendingRounds cfg access (waiting.length + 1) ⟨s, waiting, 0, waiting.length, []⟩

/-- The cache after it has handled events one after another. -/
def handleAll (cfg : HierarchyConfig C) (access : R → CacheAccess C) (s : HierarchyCache C)
    (events : List R) : HierarchyCache C :=
  events.foldl (fun s event => s.handleRequest cfg (access event)) s

/-- The events of a list that are handled and those that are left, where each event is
handled unless the register is full for it when it is reached. -/
inductive Visits (cfg : HierarchyConfig C) (access : R → CacheAccess C) :
    HierarchyCache C → List R → List R → List R → Prop
  | nil (s : HierarchyCache C) : Visits cfg access s [] [] []
  | full {s : HierarchyCache C} {event : R} {rest handled left : List R}
      (hfull : s.isMSHRFull cfg (access event).address = true)
      (visits : Visits cfg access s rest handled left) :
      Visits cfg access s (event :: rest) handled (event :: left)
  | handle {s : HierarchyCache C} {event : R} {rest handled left : List R}
      (hroom : s.isMSHRFull cfg (access event).address = false)
      (visits : Visits cfg access (s.handleRequest cfg (access event)) rest handled left) :
      Visits cfg access s (event :: rest) (event :: handled) left

/-- The rest of the loop, when the register is full for the events that have been left. -/
theorem pendingRounds_eq [DecidableEq R] (done : List R) {fuel : ℕ} (hfuel : rest.length < fuel)
    (hkept : ∀ event ∈ kept, s.isMSHRFull cfg (access event).address = true) :
    ∃ handled left, Visits cfg access s rest handled left ∧ ∃ i size,
      pendingRounds cfg access fuel
          ⟨s, kept ++ rest, kept.length, (kept ++ rest).length, done⟩ =
        some ⟨handleAll cfg access s handled, kept ++ left, i, size, done ++ handled⟩ := by
  induction rest generalizing s kept done fuel with
  | nil =>
    obtain ⟨fuel, rfl⟩ := Nat.exists_eq_succ_of_ne_zero (Nat.ne_of_gt hfuel)
    refine ⟨[], [], .nil s, kept.length, (kept ++ []).length, ?_⟩
    rw [pendingRounds, if_pos (by simp), List.append_nil, List.append_nil]
    rfl
  | cons event rest ih =>
    rw [List.length_cons] at hfuel
    obtain ⟨fuel, rfl⟩ := Nat.exists_eq_succ_of_ne_zero (Nat.ne_of_gt (Nat.zero_lt_of_lt hfuel))
    have hget : (kept ++ event :: rest)[(kept.length : ℤ).toNat]? = some event := by
      rw [Int.toNat_natCast, List.getElem?_append_right (Nat.le_refl _), Nat.sub_self,
        List.getElem?_cons_zero]
    have hlt : (kept.length : ℤ) < ((kept ++ event :: rest).length : ℕ) := by
      rw [List.length_append, List.length_cons]
      omega
    have hnonempty : ¬ (kept ++ event :: rest).isEmpty = true := by simp
    rw [pendingRounds]
    dsimp only
    rw [if_neg (not_not_intro hlt), if_neg hnonempty, hget]
    dsimp only
    cases hfull : s.isMSHRFull cfg (access event).address with
    | true =>
      have hkept' : ∀ e ∈ kept ++ [event], s.isMSHRFull cfg (access e).address = true := by
        intro e he
        rcases List.mem_append.mp he with he | he
        · exact hkept e he
        · rw [List.mem_singleton.mp he]
          exact hfull
      obtain ⟨handled, left, visits, i, size, hrounds⟩ :=
        ih done (Nat.lt_of_succ_lt_succ hfuel) hkept'
      refine ⟨handled, event :: left, .full hfull visits, i, size, ?_⟩
      rw [if_pos rfl]
      simpa using hrounds
    | false =>
      -- The event has not been left before, since it would be left again now.
      have hnew : event ∉ kept := by
        intro hmem
        rw [hkept event hmem] at hfull
        cases hfull
      have hkept' : ∀ e ∈ kept,
          (s.handleRequest cfg (access event)).isMSHRFull cfg (access e).address = true :=
        fun e he => isMSHRFull_handleRequest (hkept e he)
      obtain ⟨handled, left, visits, i, size, hrounds⟩ :=
        ih (done ++ [event]) (Nat.lt_of_succ_lt_succ hfuel) hkept'
      refine ⟨event :: handled, left, .handle hfull visits, i, size, ?_⟩
      have hsize : ((kept ++ event :: rest).length : ℤ) - 1 = ((kept ++ rest).length : ℕ) := by
        rw [List.length_append, List.length_cons, List.length_append]
        omega
      rw [if_neg Bool.false_ne_true, List.erase_append_right _ hnew, List.erase_cons_head, hsize,
        Int.sub_add_cancel, hrounds, List.append_assoc]
      rfl

theorem Visits.handled_sublist (h : Visits cfg access s waiting handled left) :
    handled.Sublist waiting := by
  induction h with
  | nil => exact .slnil
  | full _ _ ih => exact ih.cons _
  | handle _ _ ih => exact ih.cons_cons _

theorem Visits.left_sublist (h : Visits cfg access s waiting handled left) :
    left.Sublist waiting := by
  induction h with
  | nil => exact .slnil
  | full _ _ ih => exact ih.cons_cons _
  | handle _ _ ih => exact ih.cons _

theorem Visits.perm (h : Visits cfg access s waiting handled left) :
    (handled ++ left).Perm waiting := by
  induction h with
  | nil => exact .refl _
  | full _ _ ih => exact List.perm_middle.trans (ih.cons _)
  | handle _ _ ih => exact ih.cons _

/-- What is done to an event depends on the events handled before it. -/
theorem Visits.reached (h : Visits cfg access s (before ++ event :: after) handled left) :
    ∃ handledBefore leftBefore handledAfter leftAfter,
      Visits cfg access s before handledBefore leftBefore ∧
      ((handleAll cfg access s handledBefore).isMSHRFull cfg (access event).address = true ∧
          handled = handledBefore ++ handledAfter ∧ left = leftBefore ++ event :: leftAfter ∨
        (handleAll cfg access s handledBefore).isMSHRFull cfg (access event).address = false ∧
          handled = handledBefore ++ event :: handledAfter ∧ left = leftBefore ++ leftAfter) := by
  induction before generalizing s handled left with
  | nil =>
    cases h with
    | @full _ _ _ _ left hfull visits =>
      exact ⟨[], [], handled, left, .nil s, .inl ⟨hfull, rfl, rfl⟩⟩
    | @handle _ _ _ handled _ hroom visits =>
      exact ⟨[], [], handled, left, .nil s, .inr ⟨hroom, rfl, rfl⟩⟩
  | cons first before ih =>
    cases h with
    | full hfull visits =>
      obtain ⟨handledBefore, leftBefore, handledAfter, leftAfter, hbefore, hreached⟩ := ih visits
      refine ⟨handledBefore, first :: leftBefore, handledAfter, leftAfter, .full hfull hbefore, ?_⟩
      rcases hreached with ⟨hevent, hhandled, hleft⟩ | ⟨hevent, hhandled, hleft⟩
      · exact .inl ⟨hevent, hhandled, congrArg (first :: ·) hleft⟩
      · exact .inr ⟨hevent, hhandled, congrArg (first :: ·) hleft⟩
    | handle hroom visits =>
      obtain ⟨handledBefore, leftBefore, handledAfter, leftAfter, hbefore, hreached⟩ := ih visits
      refine ⟨first :: handledBefore, leftBefore, handledAfter, leftAfter,
        .handle hroom hbefore, ?_⟩
      rcases hreached with ⟨hevent, hhandled, hleft⟩ | ⟨hevent, hhandled, hleft⟩
      · exact .inl ⟨hevent, congrArg (first :: ·) hhandled, hleft⟩
      · exact .inr ⟨hevent, congrArg (first :: ·) hhandled, hleft⟩

/-- A run of the loop handles events in the order of the list, takes exactly the handled
ones out of it, and leaves an event exactly if the register is full for it when it
is reached. -/
theorem pendingScan_spec [DecidableEq R] (cfg : HierarchyConfig C)
    (access : R → CacheAccess C) (s : HierarchyCache C) (waiting : List R) :
    ∃ handled left i size,
      pendingScan cfg access s waiting =
        some ⟨handleAll cfg access s handled, left, i, size, handled⟩ ∧
      handled.Sublist waiting ∧ left.Sublist waiting ∧ (handled ++ left).Perm waiting ∧
      ∀ before event after, waiting = before ++ event :: after →
        ∃ handledBefore leftBefore handledAfter leftAfter,
          Visits cfg access s before handledBefore leftBefore ∧
          ((handleAll cfg access s handledBefore).isMSHRFull cfg (access event).address = true ∧
              handled = handledBefore ++ handledAfter ∧ left = leftBefore ++ event :: leftAfter ∨
            (handleAll cfg access s handledBefore).isMSHRFull cfg (access event).address = false ∧
              handled = handledBefore ++ event :: handledAfter ∧
              left = leftBefore ++ leftAfter) := by
  have hkept : ∀ event ∈ ([] : List R), s.isMSHRFull cfg (access event).address = true := by simp
  obtain ⟨handled, left, visits, i, size, hrounds⟩ :=
    pendingRounds_eq [] (Nat.lt_succ_self waiting.length) hkept
  refine ⟨handled, left, i, size, hrounds, visits.handled_sublist, visits.left_sublist,
    visits.perm, ?_⟩
  intro before event after heq
  subst heq
  exact visits.reached

/-! ### The loop of the model of a cache -/

/-- The list has no part in what a request does. -/
theorem handleRequest_waiting (s : HierarchyCache C) (x : CacheAccess C)
    (waiting : List (CacheAccess C)) :
    handleRequest cfg { s with eventsWaitingOnMSHR := waiting } x =
      { s.handleRequest cfg x with eventsWaitingOnMSHR := waiting } := by
  unfold handleRequest
  have hlocked : isAddrInMSHR cfg { s with eventsWaitingOnMSHR := waiting } x.address =
    s.isAddrInMSHR cfg x.address := rfl
  rw [hlocked]
  split
  · rfl
  · unfold handleAccess
    dsimp only [record]
    cases s.lines.accessAndMark cfg.geometry x.address with
    | mk found lines =>
      cases found with
      | none =>
        dsimp only [cacheMiss]
        split <;> rfl
      | some i =>
        dsimp only [cacheHit]
        split
        · split <;> split <;> rfl
        · rfl

theorem isMSHRFull_waiting (s : HierarchyCache C) (waiting : List (CacheAccess C)) :
    isMSHRFull cfg { s with eventsWaitingOnMSHR := waiting } addr = s.isMSHRFull cfg addr :=
  rfl

/-- The loop of the model visits the events as the loop over the list does. -/
theorem pendingLoop_eq {done : List (CacheAccess C)}
    (h : Visits cfg access s waiting handled left) :
    pendingLoop cfg { s with eventsWaitingOnMSHR := done } (waiting.map access) =
      { handleAll cfg access s handled with
        eventsWaitingOnMSHR := done ++ left.map access } := by
  induction h generalizing done with
  | nil s => simp [pendingLoop, handleAll]
  | full hfull visits ih =>
    rw [List.map_cons, pendingLoop, isMSHRFull_waiting, if_pos hfull, ih]
    simp
  | handle hroom visits ih =>
    rw [List.map_cons, pendingLoop, isMSHRFull_waiting, hroom, if_neg Bool.false_ne_true,
      handleRequest_waiting, ih]
    rfl

/-- `processEventsInPendingList` is a run of the loop over its list. -/
theorem processEventsInPendingList_eq [DecidableEq R] {l : PendingScan C R}
    (hwaiting : s.eventsWaitingOnMSHR = waiting.map access)
    (hscan : pendingScan cfg access s waiting = some l) :
    s.processEventsInPendingList cfg =
      { l.cache with eventsWaitingOnMSHR := l.eventsWaitingOnMSHR.map access } := by
  have hkept : ∀ event ∈ ([] : List R), s.isMSHRFull cfg (access event).address = true := by simp
  obtain ⟨handled, left, visits, i, size, hrounds⟩ :=
    pendingRounds_eq [] (Nat.lt_succ_self waiting.length) hkept
  have hl : some l = some _ := hscan.symm.trans hrounds
  cases hl
  rw [processEventsInPendingList, hwaiting]
  exact pendingLoop_eq visits

end HierarchyCache

end Tejas
