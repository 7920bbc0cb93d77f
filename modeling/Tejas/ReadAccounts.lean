import Tejas.HierarchySteps
import Mathlib.Data.List.Perm.Basic

/-!
# The requests inside a cache and its outstanding reads

Two accounts of a cache that is not coherent. Every request that was made is answered or
still somewhere in the cache: on its way, put back, parked, or in a list of the register.
And the lists of the register stand for the reads that are outstanding, each by the
address of its first event.
-/

namespace Tejas

namespace MSHR

variable {C : Type} {m m' : MSHR C} {b : ℕ} {addr : Address} {event : AddressCarryingEvent C}
  {lists : List (List (AddressCarryingEvent C))} {missList : List (AddressCarryingEvent C)}

/-- The address of the event that opened a list. -/
def headAddress (missList : List (AddressCarryingEvent C)) : Option Address :=
  missList.head?.map AddressCarryingEvent.address

def heads (m : MSHR C) : List (Option Address) := m.missRegister.map headAddress

/-- All events that wait. -/
def all (m : MSHR C) : List (AddressCarryingEvent C) := m.missRegister.flatten

theorem headAddress_append (hne : missList ≠ []) :
    headAddress (missList ++ [event]) = headAddress missList := by
  cases missList with
  | nil => exact absurd rfl hne
  | cons e rest => rfl

theorem addWaiting_heads (hne : ∀ missList ∈ lists, missList ≠ []) :
    (addWaiting b event lists).map headAddress = lists.map headAddress := by
  induction lists with
  | nil => rfl
  | cons missList rest ih =>
    rw [addWaiting]
    split
    · rw [List.map_cons, headAddress_append (hne missList List.mem_cons_self), List.map_cons]
    · rw [List.map_cons, List.map_cons, ih (fun l hl => hne l (List.mem_cons_of_mem _ hl))]

/-- An event joins the list of its line, or opens one. -/
theorem heads_addToMSHR (hm : m.WellFormed b) (event : AddressCarryingEvent C) :
    (m.addToMSHR b event).heads =
      if m.waiting b event.address = [] then m.heads ++ [some event.address] else m.heads := by
  have hwaiting : m.waiting b event.address = [] ↔
      m.getWaitingEventsInMSHR b event.address = none := waiting_eq_nil_iff hm
  unfold addToMSHR heads
  split
  · rename_i missList hfound
    have hopen : m.waiting b event.address ≠ [] := by
      rw [Ne, hwaiting, hfound]
      exact fun heq => by cases heq
    rw [if_neg hopen]
    split
    · rfl
    · exact addWaiting_heads hm.nonempty
  · rename_i hnone
    rw [if_pos (hwaiting.mpr hnone)]
    exact List.map_append

theorem addWaiting_flatten (h : (lists.find? (holdsLine b event.address)).isSome) :
    List.Perm (addWaiting b event lists).flatten (event :: lists.flatten) := by
  induction lists with
  | nil => cases h
  | cons missList rest ih =>
    rw [addWaiting]
    split
    · rw [List.flatten_cons, List.flatten_cons, List.append_assoc]
      exact List.perm_middle
    · rename_i hnot
      rw [List.find?_cons_of_neg hnot] at h
      rw [List.flatten_cons, List.flatten_cons]
      exact ((ih h).append_left missList).trans List.perm_middle

/-- An event is added, unless it is a write after a write. -/
theorem all_addToMSHR (m : MSHR C) (b : ℕ) (event : AddressCarryingEvent C) :
    List.Perm (m.addToMSHR b event).all (event :: m.all) ∨
      (m.addToMSHR b event).all = m.all ∧ isCacheWrite event = true := by
  unfold addToMSHR all
  split
  · rename_i missList hfound
    split
    · rename_i hmerged
      exact Or.inr ⟨rfl, (Bool.and_eq_true_iff.mp hmerged).1⟩
    · left
      apply addWaiting_flatten
      have hfind : m.missRegister.find? (holdsLine b event.address) = some missList := hfound
      rw [hfind]
      rfl
  · left
    rw [List.flatten_append]
    exact List.perm_append_singleton _ _

theorem perm_eraseP {α : Type} {p : α → Bool} {xs : List α} {x : α} (h : xs.find? p = some x) :
    List.Perm xs (x :: xs.eraseP p) := by
  induction xs with
  | nil => cases h
  | cons y rest ih =>
    cases hy : p y with
    | true =>
      rw [List.find?_cons_of_pos hy] at h
      cases h
      rw [List.eraseP_cons_of_pos hy]
    | false =>
      have hnot : ¬ p y = true := by
        rw [hy]
        exact Bool.false_ne_true
      rw [List.find?_cons_of_neg hnot] at h
      rw [List.eraseP_cons_of_neg hnot]
      exact ((ih h).cons y).trans (List.Perm.swap _ _ _)

/-- The lists of the register are the list that is removed and the others. -/
theorem perm_removeEvents (h : m.removeEventsFromMSHR b addr = some (missList, m')) :
    List.Perm m.missRegister (missList :: m'.missRegister) ∧
      lineOf b missList = some (getLineAddr b addr) := by
  obtain ⟨l, hl, heq⟩ := Option.map_eq_some_iff.mp h
  cases heq
  exact ⟨perm_eraseP hl, (getWaiting_eq_some hl).2⟩

theorem all_removeEvents (h : m.removeEventsFromMSHR b addr = some (missList, m')) :
    List.Perm m.all (missList ++ m'.all) := by
  have hperm := (perm_removeEvents h).1.flatten
  rw [List.flatten_cons] at hperm
  exact hperm

/-- The list that a read is outstanding for is found, and opened by its address. -/
theorem removeEvents_of_head (hm : m.WellFormed b) (h : some addr ∈ m.heads) :
    ∃ missList m', m.removeEventsFromMSHR b addr = some (missList, m') ∧
      headAddress missList = some addr := by
  obtain ⟨l, hl, hhead⟩ := List.mem_map.mp h
  have hlineOf : ∀ missList : List (AddressCarryingEvent C),
      lineOf b missList = (headAddress missList).map (getLineAddr b) := by
    intro missList
    cases missList <;> rfl
  have hline : lineOf b l = some (getLineAddr b addr) := by
    rw [hlineOf, hhead]
    rfl
  cases hfound : m.getWaitingEventsInMSHR b addr with
  | none =>
    have hnot := List.find?_eq_none.mp hfound l hl
    exact absurd (decide_eq_true hline) hnot
  | some missList =>
    refine ⟨missList, _, by rw [removeEventsFromMSHR, hfound]; rfl, ?_⟩
    obtain ⟨hmem, hsame⟩ := getWaiting_eq_some hfound
    have heq : missList = l :=
      List.inj_on_of_nodup_map hm.distinct hmem hl (hsame.trans hline.symm)
    rw [heq]
    exact hhead

end MSHR

variable {C : Type}

def CacheRecord.requested? : CacheRecord C → Option (CacheAccess C)
  | .requested x => some x
  | _ => none

/-- Not a `Mem_Response`. -/
def AddressCarryingEvent.isLive (event : AddressCarryingEvent C) : Bool :=
  match event.missKind with
  | .other => false
  | _ => true

namespace HierarchyCache

variable {cfg : HierarchyConfig C} {s t u : HierarchyCache C} {x : CacheAccess C}
  {addr : Address} {before after settled settled' rest missList : List (AddressCarryingEvent C)}

/-- Everything that is on its way, put back, parked or waiting. -/
def inside (s : HierarchyCache C) : List (AddressCarryingEvent C) :=
  s.queue ++ s.requeued.map Prod.snd ++ s.eventsWaitingOnMSHR.map CacheAccess.event ++ s.mshr.all

/-- The requests that were made. -/
def requests (s : HierarchyCache C) : List (CacheAccess C) :=
  s.history.filterMap CacheRecord.requested?

def responses (s : HierarchyCache C) : List (C × Address) :=
  s.history.filterMap CacheRecord.response?

/-- From the events in hand and inside some are settled: the reads among them are answered,
and the others are gone. -/
structure Settles (s : HierarchyCache C) (before settled : List (AddressCarryingEvent C))
    (t : HierarchyCache C) (after : List (AddressCarryingEvent C)) : Prop where
  inside : List.Perm (before ++ s.inside) (settled ++ (after ++ t.inside))
  responses : List.Perm t.responses
    (s.responses ++ settled.filterMap AddressCarryingEvent.read?)
  requests : t.requests = s.requests

theorem Settles.trans {between : List (AddressCarryingEvent C)}
    (h : Settles s before settled t between) (h' : Settles t between settled' u after) :
    Settles s before (settled ++ settled') u after where
  inside := by
    rw [List.append_assoc settled]
    exact h.inside.trans (h'.inside.append_left settled)
  responses := by
    rw [List.filterMap_append, ← List.append_assoc]
    exact h'.responses.trans (h.responses.append_right _)
  requests := h'.requests.trans h.requests

/-- What else is in hand does not matter. -/
theorem Settles.frame (h : Settles s before settled t after)
    (rest : List (AddressCarryingEvent C)) :
    Settles s (before ++ rest) settled t (after ++ rest) where
  inside := by
    have hleft : List.Perm (before ++ rest ++ s.inside) (before ++ s.inside ++ rest) := by
      rw [List.append_assoc, List.append_assoc]
      exact List.perm_append_comm.append_left before
    have hright : List.Perm (settled ++ (after ++ t.inside) ++ rest)
        (settled ++ (after ++ rest ++ t.inside)) := by
      rw [List.append_assoc, List.append_assoc, List.append_assoc]
      exact (List.perm_append_comm.append_left after).append_left settled
    exact hleft.trans ((h.inside.append_right rest).trans hright)
  responses := h.responses
  requests := h.requests

/-- Nothing is settled. -/
theorem settles_none (hinside : List.Perm (before ++ s.inside) (after ++ t.inside))
    (hhistory : t.history = s.history) : Settles s before [] t after where
  inside := hinside
  responses := by
    unfold responses
    rw [hhistory]
    exact List.Perm.of_eq (List.append_nil _).symm
  requests := by
    unfold requests
    rw [hhistory]

/-! ### Requests -/

/-- What a request does in a cache that is not coherent. -/
inductive Handled (cfg : HierarchyConfig C) (s : HierarchyCache C) (x : CacheAccess C) :
    HierarchyCache C → Prop
  | joins (locked : s.isAddrInMSHR cfg x.address = true) :
      Handled cfg s x ((s.record (.accepts x)).addToMSHR cfg x.event)
  | reads (lines : LineArray Unit) (isRead : x.isWrite = false) :
      Handled cfg s x { s with
        lines := lines
        history := s.history ++ [.accepts x, .responds x.requester x.address] }
  | writes (lines : LineArray Unit) (more : List (CacheRecord C)) (isWrite : x.isWrite = true)
      (silent : more.filterMap CacheRecord.response? = [])
      (internal : more.filterMap CacheRecord.requested? = []) :
      Handled cfg s x { s with lines := lines, history := s.history ++ more }
  | misses (lines : LineArray Unit) (unlocked : s.isAddrInMSHR cfg x.address = false) :
      Handled cfg s x (addToMSHR cfg { s with
        lines := lines
        history := s.history ++ [.accepts x, .readsBelow x.address]
        readsBelow := s.readsBelow ++ [x.address] } x.event)

theorem handled_handleRequest (hplain : cfg.coherent = false) (s : HierarchyCache C)
    (x : CacheAccess C) : Handled cfg s x (s.handleRequest cfg x) := by
  unfold handleRequest
  split
  · rename_i hlocked
    exact .joins hlocked
  · rename_i hunlocked
    rw [Bool.not_eq_true] at hunlocked
    unfold handleAccess
    split
    · rename_i i lines _
      unfold cacheHit
      cases hwrite : x.isWrite with
      | false =>
        have hhistory : s.history ++ [CacheRecord.accepts x] ++
            [CacheRecord.responds x.requester x.address] = s.history ++
            [CacheRecord.accepts x, CacheRecord.responds x.requester x.address] := by simp
        have hreads : Handled cfg s x _ := .reads lines hwrite
        rw [← hhistory] at hreads
        exact hreads
      | true =>
        dsimp only
        rw [if_pos rfl, if_neg (fun hboth => by rw [hplain] at hboth; cases hboth.2)]
        split
        · have hhistory : s.history ++ [CacheRecord.accepts x] ++
              [CacheRecord.writesBelow x.address] ++ [CacheRecord.writesLine x.address] =
              s.history ++ [CacheRecord.accepts x, CacheRecord.writesBelow x.address,
                CacheRecord.writesLine x.address] := by simp
          have hwrites : Handled cfg s x _ := .writes lines
            [.accepts x, .writesBelow x.address, .writesLine x.address] hwrite rfl rfl
          rw [← hhistory] at hwrites
          exact hwrites
        · have hhistory : s.history ++ [CacheRecord.accepts x] ++
              [CacheRecord.writesLine x.address] = s.history ++
              [CacheRecord.accepts x, CacheRecord.writesLine x.address] := by simp
          have hwrites : Handled cfg s x _ := .writes lines
            [.accepts x, .writesLine x.address] hwrite rfl rfl
          rw [← hhistory] at hwrites
          exact hwrites
    · rename_i lines _
      unfold cacheMiss
      have hhistory : s.history ++ [CacheRecord.accepts x] ++
          [CacheRecord.readsBelow x.address] = s.history ++
          [CacheRecord.accepts x, CacheRecord.readsBelow x.address] := by simp
      have hmisses : Handled cfg s x _ := .misses lines hunlocked
      rw [← hhistory] at hmisses
      rw [hplain]
      exact hmisses

theorem event_reads (x : CacheAccess C) : [x.event].filterMap AddressCarryingEvent.read? =
    if x.isWrite then [] else [(x.requester, x.address)] := by
  unfold CacheAccess.event
  cases x.isWrite <;> rfl

/-- A parked request is inside. -/
theorem inside_parked (s : HierarchyCache C) (x : CacheAccess C) :
    List.Perm (inside { s with eventsWaitingOnMSHR := s.eventsWaitingOnMSHR ++ [x] })
      (x.event :: s.inside) := by
  unfold inside
  dsimp only
  rw [List.map_append, List.map_singleton, ← List.append_assoc, List.append_assoc _ [x.event]]
  exact List.perm_middle

/-- Adding to the register moves an event inside, unless it is a merged write. -/
theorem settles_addToMSHR (cfg : HierarchyConfig C) (s : HierarchyCache C)
    (event : AddressCarryingEvent C) :
    ∃ settled, Settles s [event] settled (s.addToMSHR cfg event) [] := by
  have hinside : ∀ t : HierarchyCache C, t.queue = s.queue → t.requeued = s.requeued →
      t.eventsWaitingOnMSHR = s.eventsWaitingOnMSHR → t.inside =
        s.queue ++ s.requeued.map Prod.snd ++ s.eventsWaitingOnMSHR.map CacheAccess.event ++
          t.mshr.all := by
    intro t hqueue hrequeued hwaiting
    unfold inside
    rw [hqueue, hrequeued, hwaiting]
  have hafter := hinside (s.addToMSHR cfg event) rfl rfl rfl
  rcases MSHR.all_addToMSHR s.mshr cfg.geometry.blockSizeBits event with hadded | ⟨hsame, hwrite⟩
  · refine ⟨[], settles_none ?_ rfl⟩
    rw [hafter, List.nil_append, List.singleton_append]
    exact (List.perm_middle.symm.trans (hadded.symm.append_left _))
  · refine ⟨[event], ?_, ?_, rfl⟩
    · rw [hafter]
      have hall : (s.addToMSHR cfg event).mshr.all = s.mshr.all := hsame
      rw [hall]
      exact List.Perm.refl _
    · have hnone : event.read? = none := by
        rw [isCacheWrite_eq] at hwrite
        unfold AddressCarryingEvent.read?
        cases hkind : event.missKind with
        | write => rfl
        | read requester =>
          rw [hkind] at hwrite
          cases hwrite
        | eviction => rfl
        | other => rfl
      rw [List.filterMap_cons, hnone]
      exact List.Perm.of_eq (List.append_nil _).symm

theorem Handled.settles (h : Handled cfg s x t) : ∃ settled, Settles s [x.event] settled t [] := by
  have hresponses : ∀ (u : HierarchyCache C) more, u.history = s.history ++ more →
      u.responses = s.responses ++ more.filterMap CacheRecord.response? := by
    intro u more hhistory
    unfold responses
    rw [hhistory, List.filterMap_append]
  have hrequests : ∀ (u : HierarchyCache C) more, u.history = s.history ++ more →
      more.filterMap CacheRecord.requested? = [] → u.requests = s.requests := by
    intro u more hhistory hnone
    unfold requests
    rw [hhistory, List.filterMap_append, hnone, List.append_nil]
  cases h with
  | joins locked =>
    obtain ⟨settled, hsettles⟩ := settles_addToMSHR cfg (s.record (.accepts x)) x.event
    refine ⟨settled, hsettles.inside, ?_, ?_⟩
    · have hsame := hresponses (s.record (.accepts x)) [.accepts x] rfl
      rw [← List.append_nil s.responses]
      exact hsame ▸ hsettles.responses
    · exact hsettles.requests.trans (hrequests _ [.accepts x] rfl rfl)
  | reads lines isRead =>
    refine ⟨[x.event], List.Perm.refl _, ?_, hrequests _ _ rfl rfl⟩
    rw [hresponses _ _ rfl, event_reads, isRead]
    exact List.Perm.refl _
  | writes lines more isWrite silent internal =>
    refine ⟨[x.event], List.Perm.refl _, ?_, hrequests _ _ rfl internal⟩
    rw [hresponses _ _ rfl, silent, event_reads, isWrite]
    exact List.Perm.refl _
  | misses lines unlocked =>
    obtain ⟨settled, hsettles⟩ := settles_addToMSHR cfg { s with
      lines := lines
      history := s.history ++ [.accepts x, .readsBelow x.address]
      readsBelow := s.readsBelow ++ [x.address] } x.event
    refine ⟨settled, hsettles.inside, ?_, ?_⟩
    · have hsame := hresponses { s with
        lines := lines
        history := s.history ++ [.accepts x, .readsBelow x.address]
        readsBelow := s.readsBelow ++ [x.address] } _ rfl
      rw [← List.append_nil s.responses]
      exact hsame ▸ hsettles.responses
    · exact hsettles.requests.trans (hrequests _ _ rfl rfl)

theorem settles_pendingLoop (hplain : cfg.coherent = false) (accesses : List (CacheAccess C))
    (s : HierarchyCache C) : ∃ settled,
      Settles s (accesses.map CacheAccess.event) settled (pendingLoop cfg s accesses) [] := by
  induction accesses generalizing s with
  | nil => exact ⟨[], settles_none (List.Perm.refl _) rfl⟩
  | cons x rest ih =>
    rw [pendingLoop, List.map_cons]
    split
    · obtain ⟨settled, hsettles⟩ := ih { s with
        eventsWaitingOnMSHR := s.eventsWaitingOnMSHR ++ [x] }
      have hparked : Settles s (x.event :: rest.map CacheAccess.event) []
          { s with eventsWaitingOnMSHR := s.eventsWaitingOnMSHR ++ [x] }
          (rest.map CacheAccess.event) := by
        refine settles_none ?_ rfl
        exact (List.perm_middle.symm.trans ((inside_parked s x).symm.append_left _))
      exact ⟨_, hparked.trans hsettles⟩
    · obtain ⟨settled, hhandled⟩ := (handled_handleRequest hplain s x).settles
      obtain ⟨settled', hsettles⟩ := ih (s.handleRequest cfg x)
      exact ⟨_, (hhandled.frame (rest.map CacheAccess.event)).trans hsettles⟩

/-! ### The events that waited -/

/-- The events up to the first eviction, and those put back. -/
theorem served_split (missList : List (AddressCarryingEvent C)) : ∃ served,
    missList = served ++ (if hasEviction missList then afterEviction missList else []) ∧
      served.filterMap AddressCarryingEvent.read? =
        (beforeEviction missList).filterMap AddressCarryingEvent.read? ∧
      (missList ≠ [] → served ≠ []) := by
  induction missList with
  | nil => exact ⟨[], rfl, rfl, id⟩
  | cons event rest ih =>
    cases hevicts : event.missKind.isEviction with
    | true =>
      have hnone : event.read? = none := by
        unfold AddressCarryingEvent.read?
        cases hkind : event.missKind with
        | read requester =>
          rw [hkind] at hevicts
          cases hevicts
        | _ => rfl
      refine ⟨[event], ?_, ?_, fun _ => List.cons_ne_nil _ _⟩
      · simp [hasEviction, afterEviction, hevicts]
      · simp [beforeEviction, hevicts, hnone]
    | false =>
      obtain ⟨served, hsplit, hreads, -⟩ := ih
      refine ⟨event :: served, ?_, ?_, fun _ => List.cons_ne_nil _ _⟩
      · have hsame : hasEviction (event :: rest) = hasEviction rest := by
          simp [hasEviction, hevicts]
        have hafter : afterEviction (event :: rest) = afterEviction rest := by
          simp [afterEviction, hevicts]
        rw [hsame, hafter, List.cons_append, ← hsplit]
      · have hbefore : beforeEviction (event :: rest) = event :: beforeEviction rest := by
          simp [beforeEviction, hevicts]
        rw [hbefore, List.filterMap_cons, List.filterMap_cons, hreads]

theorem requests_updateState {newState : MESI}
    (h : s.updateStateOfCacheLine cfg addr newState = some t) : t.requests = s.requests := by
  obtain ⟨notes, hnotes, hkind⟩ := (updateStateOfCacheLine_eq_some h).history
  have hnone : notes.filterMap CacheRecord.requested? = [] := by
    rw [List.filterMap_eq_nil_iff]
    intro r hr
    rcases hkind r hr with hnotice | ⟨rfl, -⟩
    · cases r with
      | requested x => cases hnotice
      | _ => rfl
    · rfl
  unfold requests
  rw [hnotes, List.filterMap_append, hnone, List.append_nil]

theorem responses_updateState {newState : MESI}
    (h : s.updateStateOfCacheLine cfg addr newState = some t) : t.responses = s.responses := by
  obtain ⟨notes, hnotes, hkind⟩ := (updateStateOfCacheLine_eq_some h).history
  have hnone : notes.filterMap CacheRecord.response? = [] := by
    rw [List.filterMap_eq_nil_iff]
    intro r hr
    rcases hkind r hr with hnotice | ⟨rfl, -⟩
    · exact (notice_not_response (Or.inl hnotice)).1
    · rfl
  unfold responses
  rw [hnotes, List.filterMap_append, hnone, List.append_nil]

theorem requests_record {r : CacheRecord C} (h : r.requested? = none) :
    (s.record r).requests = s.requests := by
  unfold requests record
  dsimp only
  rw [List.filterMap_append, List.filterMap_cons, h]
  exact List.append_nil _

theorem requests_processEvents {written : Bool} {events : List (AddressCarryingEvent C)}
    (h : processEvents cfg addr missList written s events = some t) :
    t.requests = s.requests := by
  induction events generalizing s written with
  | nil =>
    rw [processEvents] at h
    split at h
    · cases h
      exact requests_record rfl
    · cases h
      rfl
  | cons event rest ih =>
    rw [processEvents] at h
    split at h
    · exact (ih h).trans (requests_record rfl)
    · split at h
      · cases h
      · obtain ⟨u, hupdate, hrest⟩ := Option.bind_eq_some_iff.mp h
        exact ((ih hrest).trans (requests_record rfl)).trans (requests_updateState hupdate)
    · obtain ⟨u, hupdate, rfl⟩ := Option.map_eq_some_iff.mp h
      have hsame := requests_updateState hupdate
      exact hsame
    · exact ih h

theorem settles_processEvents (h : processEvents cfg addr missList false s missList = some t) :
    ∃ settled, Settles s missList settled t [] ∧
      (missList ≠ [] → ∃ e ∈ settled, e ∈ missList) := by
  obtain ⟨more, hserves⟩ := processEvents_serves h
  obtain ⟨served, hsplit, hreads, hne⟩ := served_split missList
  have hfirst : missList ≠ [] → ∃ e ∈ served, e ∈ missList := by
    intro hlist
    obtain ⟨e, he⟩ := List.exists_mem_of_ne_nil served (hne hlist)
    refine ⟨e, he, ?_⟩
    rw [hsplit]
    exact List.mem_append_left _ he
  refine ⟨served, ⟨?_, ?_, requests_processEvents h⟩, hfirst⟩
  · have hback : t.requeued.map Prod.snd = s.requeued.map Prod.snd ++
        if hasEviction missList then afterEviction missList else [] := by
      rw [hserves.putBack, List.map_append]
      split
      · rw [unprocessedEvents_eq]
        congr 1
        apply List.ext_getElem?
        intro n
        simp [List.getElem?_mapIdx, Function.comp_def]
      · rfl
    unfold inside
    rw [hserves.queue, hserves.waiting, hserves.mshr, hback]
    generalize hafter : (if hasEviction missList then afterEviction missList else []) = after
      at hsplit ⊢
    rw [hsplit, List.append_assoc, List.nil_append]
    apply List.Perm.append_left
    -- what is put back moves behind the events put back before
    have hmove : List.Perm (after ++ (s.queue ++ s.requeued.map Prod.snd))
        (s.queue ++ (s.requeued.map Prod.snd ++ after)) := by
      rw [← List.append_assoc s.queue]
      exact List.perm_append_comm
    have hrest := hmove.append_right
      (s.eventsWaitingOnMSHR.map CacheAccess.event ++ s.mshr.all)
    simp only [List.append_assoc] at hrest ⊢
    exact hrest
  · have hresponses : t.responses = s.responses ++ more.filterMap CacheRecord.response? := by
      unfold responses
      rw [hserves.history, List.filterMap_append]
    rw [hresponses, hserves.answers, hreads]

/-- The list of a line is taken out and served, and the parked requests are tried again. -/
theorem settles_processEventsInMSHR (hplain : cfg.coherent = false)
    (hm : s.mshr.WellFormed cfg.geometry.blockSizeBits)
    (h : s.processEventsInMSHR cfg addr = some t) :
    ∃ settled, Settles s [] settled t [] ∧ ∃ e ∈ settled, e ∈ s.mshr.all := by
  obtain ⟨missList, m, u, hremoved, hprocessed, rfl⟩ := processEventsInMSHR_eq_some h
  have hne : missList ≠ [] := by
    have hspec := MSHR.removeEvents_spec hm hremoved
    rw [← hspec.1]
    apply (MSHR.removeEvents_isSome hm).mp
    rw [hremoved]
    rfl
  have htaken : Settles s [] [] { s with mshr := m } missList := by
    refine settles_none ?_ rfl
    have hall := MSHR.all_removeEvents hremoved
    unfold inside
    rw [List.nil_append]
    refine (hall.append_left _).trans ?_
    rw [← List.append_assoc, ← List.append_assoc missList]
    exact List.perm_append_comm.append_right _
  obtain ⟨settled, hserved, hsettled⟩ := settles_processEvents hprocessed
  have hopened : Settles u [] [] { u with eventsWaitingOnMSHR := [] }
      (u.eventsWaitingOnMSHR.map CacheAccess.event) := by
    refine settles_none ?_ rfl
    unfold inside
    rw [List.map_nil, List.append_nil, List.nil_append, ← List.append_assoc]
    exact List.perm_append_comm.append_right _
  obtain ⟨settled', hlooped⟩ := settles_pendingLoop hplain u.eventsWaitingOnMSHR
    { u with eventsWaitingOnMSHR := [] }
  obtain ⟨e, he, hlist⟩ := hsettled hne
  have hmem : e ∈ s.mshr.all :=
    (MSHR.all_removeEvents hremoved).mem_iff.mpr (List.mem_append_left _ hlist)
  refine ⟨settled ++ settled', ?_, e, List.mem_append_left _ he, hmem⟩
  have hall := (htaken.trans hserved).trans (hopened.trans hlooped)
  exact hall

theorem settles_handleEvictedLine (hplain : cfg.coherent = false)
    {evictedLine : Option (CacheLine Unit)} (h : s.handleEvictedLine cfg evictedLine = some t) :
    Settles s [] [] t [] := by
  have hquiet : ∀ more, more.filterMap CacheRecord.response? = [] →
      more.filterMap CacheRecord.requested? = [] →
      Settles s [] [] { s with history := s.history ++ more } [] := by
    intro more hresponses hrequests
    refine ⟨List.Perm.refl _, ?_, ?_⟩
    · unfold responses
      dsimp only
      rw [List.filterMap_append, hresponses]
      exact List.Perm.refl _
    · unfold requests
      dsimp only
      rw [List.filterMap_append, hrequests, List.append_nil]
  have hsame : Settles s [] [] s [] := settles_none (List.Perm.refl _) rfl
  unfold handleEvictedLine at h
  split at h
  · cases h
    exact hsame
  · rename_i victim
    split at h
    · cases h
      exact hsame
    · split at h
      · cases h
      · rw [hplain] at h
        cases h
        split
        · have hboth := hquiet [.writesBelow victim.address, .leaves victim.address] rfl rfl
          have heq : s.history ++ [CacheRecord.writesBelow victim.address] ++
              [CacheRecord.leaves victim.address] = s.history ++
              [CacheRecord.writesBelow victim.address, CacheRecord.leaves victim.address] := by simp
          rw [← heq] at hboth
          exact hboth
        · exact hquiet [.leaves victim.address] rfl rfl

theorem handleEvictedLine_frame (hplain : cfg.coherent = false)
    {evictedLine : Option (CacheLine Unit)} (h : s.handleEvictedLine cfg evictedLine = some t) :
    t.lines = s.lines ∧ t.mshr = s.mshr ∧ t.queue = s.queue ∧ t.requeued = s.requeued ∧
      t.readsBelow = s.readsBelow ∧ t.eventsWaitingOnMSHR = s.eventsWaitingOnMSHR := by
  unfold handleEvictedLine at h
  split at h
  · cases h
    exact ⟨rfl, rfl, rfl, rfl, rfl, rfl⟩
  · split at h
    · cases h
      exact ⟨rfl, rfl, rfl, rfl, rfl, rfl⟩
    · split at h
      · cases h
      · rw [hplain] at h
        cases h
        split
        · exact ⟨rfl, rfl, rfl, rfl, rfl, rfl⟩
        · exact ⟨rfl, rfl, rfl, rfl, rfl, rfl⟩

theorem settles_fillAndSatisfyRequests (hplain : cfg.coherent = false)
    (hm : s.mshr.WellFormed cfg.geometry.blockSizeBits)
    (h : s.fillAndSatisfyRequests cfg addr = some t) :
    ∃ settled, Settles s [] settled t [] ∧ ∃ e ∈ settled, e ∈ s.mshr.all := by
  obtain ⟨lines, evictedLine, u, -, hevicted, hprocessed⟩ := fillAndSatisfyRequests_eq_some h
  have hfilled : Settles s [] [] { s with lines := lines } [] :=
    settles_none (List.Perm.refl _) rfl
  have hmshr : u.mshr.WellFormed cfg.geometry.blockSizeBits := by
    rw [(handleEvictedLine_frame hplain hevicted).2.1]
    exact hm
  obtain ⟨settled, hsettles, e, he, hall⟩ := settles_processEventsInMSHR hplain hmshr hprocessed
  rw [(handleEvictedLine_frame hplain hevicted).2.1] at hall
  have hwhole := (hfilled.trans (settles_handleEvictedLine hplain hevicted)).trans hsettles
  exact ⟨settled, hwhole, e, he, hall⟩

end HierarchyCache

end Tejas
