import Tejas.ReadAccounts

/-!
# Every read is answered

A cache that is not coherent, with events from the caches above and evictions from below.
The outstanding reads stand one for one for the lists of the register, and while requests
are parked the register is not empty. So when nothing is on its way nothing waits either,
and every read has had its response. What is on its way comes to rest by itself, unless
all the lines of a set are locked by misses that may not use them.
-/

namespace Tejas

/-- The requester and the address of a read. -/
def CacheAccess.read? {C : Type} (x : CacheAccess C) : Option (C × Address) :=
  if x.isWrite then none else some (x.requester, x.address)

namespace HierarchyCache
open LabelledRuns

variable {C : Type} {cfg : HierarchyConfig C} {s t u : HierarchyCache C} {x : CacheAccess C}
  {addr : Address} {event : AddressCarryingEvent C} {i : ℕ}

/-- A read, a write, or an eviction by the level below. -/
def Awaits (event : AddressCarryingEvent C) : Prop :=
  (∃ x : CacheAccess C, event = x.event) ∨
    ∃ c, event.request = .fromDirectory (.evictCacheLine c)

def IsResponse (cfg : HierarchyConfig C) (event : AddressCarryingEvent C) : Prop :=
  event.request = .memResponse none cfg.self

/-- The addresses of the reads that were sent and have not come back. -/
def outstanding (s : HierarchyCache C) : List Address :=
  s.readsBelow ++ (s.queue.filter (fun e => !e.isLive)).map AddressCarryingEvent.address

/-- The events are of known kinds, and the lists of the register stand for the outstanding
reads. -/
structure Sound (cfg : HierarchyConfig C) (s : HierarchyCache C) : Prop where
  mshr : s.mshr.WellFormed cfg.geometry.blockSizeBits
  reads : List.Perm (s.outstanding.map some) s.mshr.heads
  putBack : ∀ p ∈ s.requeued, Awaits p.2
  waits : ∀ e ∈ s.mshr.all, Awaits e
  queue : ∀ e ∈ s.queue, Awaits e ∨ IsResponse cfg e

theorem Awaits.isLive (h : Awaits event) : event.isLive = true := by
  rcases h with ⟨x, rfl⟩ | ⟨c, hrequest⟩
  · obtain ⟨requester, isWrite, address⟩ := x
    cases isWrite <;> rfl
  · obtain ⟨request, address⟩ := event
    dsimp only at hrequest
    rw [hrequest]
    rfl

theorem IsResponse.not_isLive (h : IsResponse cfg event) : event.isLive = false := by
  obtain ⟨request, address⟩ := event
  unfold IsResponse at h
  dsimp only at h
  rw [h]
  rfl

theorem mem_all_addToMSHR {e : AddressCarryingEvent C} {b : ℕ}
    (h : e ∈ (s.mshr.addToMSHR b event).all) : e = event ∨ e ∈ s.mshr.all := by
  rcases MSHR.all_addToMSHR s.mshr b event with hperm | ⟨hsame, -⟩
  · exact List.mem_cons.mp (hperm.mem_iff.mp h)
  · rw [hsame] at h
    exact Or.inr h

theorem waiting_ne_nil (hm : s.mshr.WellFormed cfg.geometry.blockSizeBits) :
    s.isAddrInMSHR cfg addr = true ↔ s.mshr.waiting cfg.geometry.blockSizeBits addr ≠ [] :=
  MSHR.isAddrInMSHR_iff hm

/-! ### Parts of a step -/

/-- An event that joins a list changes no outstanding read. -/
theorem Sound.joined (h : Sound cfg s) (hevent : Awaits event)
    (hlocked : s.isAddrInMSHR cfg event.address = true) :
    Sound cfg (s.addToMSHR cfg event) where
  mshr := MSHR.wellFormed_addToMSHR h.mshr
  reads := by
    have hopen := (waiting_ne_nil h.mshr).mp hlocked
    have hheads := MSHR.heads_addToMSHR h.mshr event
    rw [if_neg hopen] at hheads
    have hsame : (s.addToMSHR cfg event).mshr.heads = s.mshr.heads := hheads
    rw [hsame]
    exact h.reads
  putBack := h.putBack
  waits := by
    intro e he
    rcases mem_all_addToMSHR he with rfl | he
    · exact hevent
    · exact h.waits e he
  queue := h.queue

/-- The lines and the history do not matter. -/
theorem Sound.frame (h : Sound cfg s) (hmshr : t.mshr = s.mshr) (hqueue : t.queue = s.queue)
    (hrequeued : t.requeued = s.requeued) (hreads : t.readsBelow = s.readsBelow) :
    Sound cfg t where
  mshr := by
    rw [hmshr]
    exact h.mshr
  reads := by
    unfold outstanding
    rw [hmshr, hqueue, hreads]
    exact h.reads
  putBack := by
    rw [hrequeued]
    exact h.putBack
  waits := by
    rw [hmshr]
    exact h.waits
  queue := by
    rw [hqueue]
    exact h.queue

theorem awaits_event (x : CacheAccess C) : Awaits x.event := Or.inl ⟨x, rfl⟩

theorem Sound.handled (h : Sound cfg s) (hx : Handled cfg s x t) : Sound cfg t := by
  cases hx with
  | joins locked =>
    have hrecorded : Sound cfg (s.record (.accepts x)) := h.frame rfl rfl rfl rfl
    exact hrecorded.joined (awaits_event x) locked
  | reads lines isRead => exact h.frame rfl rfl rfl rfl
  | writes lines more isWrite silent internal => exact h.frame rfl rfl rfl rfl
  | misses lines unlocked =>
    have hclosed : s.mshr.waiting cfg.geometry.blockSizeBits x.event.address = [] := by
      by_contra hne
      have hlocked := (waiting_ne_nil h.mshr).mpr hne
      have hsame : s.isAddrInMSHR cfg x.address = true := hlocked
      rw [hsame] at unlocked
      cases unlocked
    constructor
    case mshr => exact MSHR.wellFormed_addToMSHR h.mshr
    case reads =>
      have hheads := MSHR.heads_addToMSHR h.mshr x.event
      rw [if_pos hclosed] at hheads
      unfold outstanding addToMSHR
      dsimp only
      rw [hheads, List.append_assoc, List.singleton_append, List.map_append, List.map_cons]
      refine List.perm_middle.trans ?_
      rw [← List.map_append]
      exact ((h.reads.cons (some x.address)).trans (List.perm_append_singleton _ _).symm)
    case putBack => exact h.putBack
    case waits =>
      intro e he
      rcases mem_all_addToMSHR he with rfl | he
      · exact awaits_event x
      · exact h.waits e he
    case queue => exact h.queue

theorem Sound.pendingLoop (hplain : cfg.coherent = false) (h : Sound cfg s)
    (accesses : List (CacheAccess C)) : Sound cfg (pendingLoop cfg s accesses) :=
  pendingLoop_keeps (I := Sound cfg) cfg (fun _ _ h => h.frame rfl rfl rfl rfl)
    (fun s x h => h.handled (handled_handleRequest hplain s x)) accesses s h

/-- The state in which the response for a list is in hand. -/
structure Arrived (cfg : HierarchyConfig C) (s : HierarchyCache C) (addr : Address) : Prop where
  mshr : s.mshr.WellFormed cfg.geometry.blockSizeBits
  reads : List.Perm (some addr :: s.outstanding.map some) s.mshr.heads
  putBack : ∀ p ∈ s.requeued, Awaits p.2
  waits : ∀ e ∈ s.mshr.all, Awaits e
  queue : ∀ e ∈ s.queue, Awaits e ∨ IsResponse cfg e

theorem Arrived.frame (h : Arrived cfg s addr) (hmshr : t.mshr = s.mshr)
    (hqueue : t.queue = s.queue) (hrequeued : t.requeued = s.requeued)
    (hreads : t.readsBelow = s.readsBelow) : Arrived cfg t addr where
  mshr := by
    rw [hmshr]
    exact h.mshr
  reads := by
    unfold outstanding
    rw [hmshr, hqueue, hreads]
    exact h.reads
  putBack := by
    rw [hrequeued]
    exact h.putBack
  waits := by
    rw [hmshr]
    exact h.waits
  queue := by
    rw [hqueue]
    exact h.queue

theorem Arrived.removed (h : Arrived cfg s addr) : ∃ missList m,
    s.mshr.removeEventsFromMSHR cfg.geometry.blockSizeBits addr = some (missList, m) ∧
      m.WellFormed cfg.geometry.blockSizeBits ∧
      List.Perm (s.outstanding.map some) m.heads ∧ (∀ e ∈ m.all, Awaits e) ∧
      ∀ e ∈ missList, Awaits e := by
  have hmem : some addr ∈ s.mshr.heads := h.reads.mem_iff.mp List.mem_cons_self
  obtain ⟨missList, m, hremoved, hhead⟩ := MSHR.removeEvents_of_head h.mshr hmem
  obtain ⟨-, hm, -⟩ := MSHR.removeEvents_spec h.mshr hremoved
  have hall := MSHR.all_removeEvents hremoved
  refine ⟨missList, m, hremoved, hm, ?_, ?_, ?_⟩
  · have hheads := (MSHR.perm_removeEvents hremoved).1.map MSHR.headAddress
    rw [List.map_cons, hhead] at hheads
    exact (h.reads.trans hheads).cons_inv
  · exact fun e he => h.waits e (hall.mem_iff.mpr (List.mem_append_right _ he))
  · exact fun e he => h.waits e (hall.mem_iff.mpr (List.mem_append_left _ he))

/-- The list of the response is served and leaves the register. -/
theorem Arrived.processEventsInMSHR (h : Arrived cfg s addr)
    (hprocess : s.processEventsInMSHR cfg addr = some t) :
    ∃ u, Sound cfg u ∧ t = u.processEventsInPendingList cfg := by
  obtain ⟨missList, m, hremoved, hm, hreads, hwaits, hlist⟩ := h.removed
  obtain ⟨missList', m', u, hremoved', hprocessed, rfl⟩ := processEventsInMSHR_eq_some hprocess
  rw [hremoved] at hremoved'
  cases hremoved'
  obtain ⟨more, hserves⟩ := processEvents_serves hprocessed
  refine ⟨u, ?_, rfl⟩
  constructor
  case mshr =>
    rw [hserves.mshr]
    exact hm
  case reads =>
    unfold outstanding
    rw [hserves.mshr, hserves.queue, hserves.readsBelow]
    exact hreads
  case putBack =>
    intro p hp
    rw [hserves.putBack] at hp
    rcases List.mem_append.mp hp with hp | hp
    · exact h.putBack p hp
    · split at hp
      · rw [unprocessedEvents_eq, List.mem_mapIdx] at hp
        obtain ⟨n, hn, rfl⟩ := hp
        have hmem : (afterEviction missList)[n] ∈ afterEviction missList :=
          List.getElem_mem hn
        exact hlist _ ((List.tail_sublist _).trans (List.dropWhile_sublist _) |>.subset hmem)
      · cases hp
  case waits =>
    rw [hserves.mshr]
    exact hwaits
  case queue =>
    rw [hserves.queue]
    exact h.queue

theorem Arrived.fillAndSatisfyRequests (hplain : cfg.coherent = false) (h : Arrived cfg s addr)
    (hfill : s.fillAndSatisfyRequests cfg addr = some t) :
    ∃ u, Sound cfg u ∧ t = u.processEventsInPendingList cfg := by
  obtain ⟨lines, evictedLine, u, -, hevicted, hprocessed⟩ := fillAndSatisfyRequests_eq_some hfill
  obtain ⟨-, hmshr, hqueue, hrequeued, hreads, -⟩ := handleEvictedLine_frame hplain hevicted
  exact (h.frame hmshr hqueue hrequeued hreads).processEventsInMSHR hprocessed

/-! ### Parked requests -/

/-- While requests are parked something waits in the register. -/
def ParkedBehind (s : HierarchyCache C) : Prop :=
  s.eventsWaitingOnMSHR ≠ [] → s.mshr.missRegister ≠ []

theorem heads_ne_nil {m : MSHR C} : m.heads ≠ [] ↔ m.missRegister ≠ [] := by
  unfold MSHR.heads
  rw [Ne, List.map_eq_nil_iff]

theorem isMSHRFull_waits (hassoc : 2 ≤ cfg.geometry.assoc) (hsize : 1 ≤ cfg.mshrMaxSize)
    (hm : s.mshr.WellFormed cfg.geometry.blockSizeBits)
    (hfull : s.isMSHRFull cfg addr = true) : s.mshr.missRegister ≠ [] := by
  intro hempty
  have hzero : s.mshr.mshrSize = 0 := by
    rw [hm.size, hempty]
    rfl
  have hnone : s.numberOfLinesOfSetInMSHR cfg addr = 0 := by
    unfold numberOfLinesOfSetInMSHR isAddrInMSHR MSHR.isAddrInMSHR
    simp only [if_pos hzero, List.countP_eq_zero]
    exact fun _ _ => Bool.false_ne_true
  unfold isMSHRFull at hfull
  rw [hzero, hnone, Bool.or_eq_true, decide_eq_true_eq, decide_eq_true_eq] at hfull
  omega

theorem missRegister_addToMSHR (hm : s.mshr.WellFormed cfg.geometry.blockSizeBits)
    (event : AddressCarryingEvent C) : (s.addToMSHR cfg event).mshr.missRegister ≠ [] := by
  apply heads_ne_nil.mp
  have hheads := MSHR.heads_addToMSHR hm event
  have hsame : (s.addToMSHR cfg event).mshr = s.mshr.addToMSHR cfg.geometry.blockSizeBits event :=
    rfl
  rw [hsame, hheads]
  split
  · exact List.append_ne_nil_of_right_ne_nil _ (List.cons_ne_nil _ _)
  · rename_i hopen
    apply heads_ne_nil.mpr
    intro hempty
    apply hopen
    unfold MSHR.waiting MSHR.getWaitingEventsInMSHR
    rw [hempty]
    rfl

theorem Handled.missRegister (hm : s.mshr.WellFormed cfg.geometry.blockSizeBits)
    (hx : Handled cfg s x t) (hne : s.mshr.missRegister ≠ []) : t.mshr.missRegister ≠ [] := by
  cases hx with
  | joins locked =>
    have hrecorded : (s.record (.accepts x)).mshr.WellFormed cfg.geometry.blockSizeBits := hm
    exact missRegister_addToMSHR hrecorded x.event
  | reads lines isRead => exact hne
  | writes lines more isWrite silent internal => exact hne
  | misses lines unlocked =>
    apply missRegister_addToMSHR
    exact hm

theorem Handled.frame (hx : Handled cfg s x t) :
    t.queue = s.queue ∧ t.requeued = s.requeued ∧
      t.eventsWaitingOnMSHR = s.eventsWaitingOnMSHR ∧
      t.readsBelow.length ≤ s.readsBelow.length + 1 := by
  cases hx with
  | joins locked => exact ⟨rfl, rfl, rfl, Nat.le_succ _⟩
  | reads lines isRead => exact ⟨rfl, rfl, rfl, Nat.le_succ _⟩
  | writes lines more isWrite silent internal => exact ⟨rfl, rfl, rfl, Nat.le_succ _⟩
  | misses lines unlocked => exact ⟨rfl, rfl, rfl, List.length_append.le⟩

/-- What the loop puts back, it puts back behind something in the register. -/
theorem parkedBehind_pendingLoop (hplain : cfg.coherent = false)
    (hassoc : 2 ≤ cfg.geometry.assoc) (hsize : 1 ≤ cfg.mshrMaxSize)
    (accesses : List (CacheAccess C)) (h : Sound cfg s) (hparked : s.ParkedBehind) :
    (pendingLoop cfg s accesses).ParkedBehind := by
  induction accesses generalizing s with
  | nil => exact hparked
  | cons x rest ih =>
    rw [HierarchyCache.pendingLoop]
    split
    · rename_i hfull
      have hframe : Sound cfg { s with
          eventsWaitingOnMSHR := s.eventsWaitingOnMSHR ++ [x] } := h.frame rfl rfl rfl rfl
      exact ih hframe (fun _ => isMSHRFull_waits hassoc hsize h.mshr hfull)
    · have hx := handled_handleRequest hplain s x
      apply ih (h.handled hx)
      intro hne
      rw [hx.frame.2.2.1] at hne
      exact hx.missRegister h.mshr (hparked hne)

/-! ### Handling an event -/

/-- What a read, a write or an eviction does. -/
inductive Awaited (cfg : HierarchyConfig C) (s : HierarchyCache C)
    (event : AddressCarryingEvent C) : HierarchyCache C → Prop
  | handles {t : HierarchyCache C} (x : CacheAccess C) (isRequest : event = x.event)
      (handled : Handled cfg s x t) : Awaited cfg s event t
  | joins (locked : s.isAddrInMSHR cfg event.address = true) :
      Awaited cfg s event (s.addToMSHR cfg event)
  | evicts {t : HierarchyCache C} (noRead : event.read? = none)
      (updated : s.updateStateOfCacheLine cfg event.address .invalid = some t) :
      Awaited cfg s event t

theorem awaited_handleEvent (hplain : cfg.coherent = false) (hevent : Awaits event)
    (h : s.handleEvent cfg event = some t) : Awaited cfg s event t := by
  rcases hevent with ⟨x, rfl⟩ | ⟨c, hrequest⟩
  · have hx := handled_handleRequest hplain s x
    obtain ⟨requester, isWrite, address⟩ := x
    cases isWrite with
    | false =>
      cases h
      exact .handles _ rfl hx
    | true =>
      cases h
      exact .handles _ rfl hx
  · obtain ⟨request, address⟩ := event
    dsimp only at hrequest
    subst hrequest
    simp only [handleEvent] at h
    split at h
    · rename_i hlocked
      cases h
      exact .joins hlocked
    · exact .evicts rfl h

theorem Awaited.sound (h : Sound cfg s) (hevent : Awaits event) (hx : Awaited cfg s event t) :
    Sound cfg t := by
  cases hx with
  | handles x isRequest handled => exact h.handled handled
  | joins locked => exact h.joined hevent locked
  | evicts noRead updated =>
    have hupdate := updateStateOfCacheLine_eq_some updated
    exact h.frame hupdate.mshr hupdate.queue hupdate.requeued hupdate.readsBelow

theorem Awaited.settles (hx : Awaited cfg s event t) :
    ∃ settled, Settles s [event] settled t [] := by
  cases hx with
  | handles x isRequest handled =>
    rw [isRequest]
    exact handled.settles
  | joins locked => exact settles_addToMSHR _ s event
  | evicts noRead updated =>
    have hupdate := updateStateOfCacheLine_eq_some updated
    refine ⟨[event], ?_, ?_, requests_updateState updated⟩
    · unfold inside
      rw [hupdate.queue, hupdate.requeued, hupdate.waiting, hupdate.mshr]
      exact List.Perm.refl _
    · rw [responses_updateState updated, List.filterMap_cons, noRead]
      exact List.Perm.of_eq (List.append_nil _).symm

theorem Awaited.frame (hx : Awaited cfg s event t) :
    t.queue = s.queue ∧ t.requeued = s.requeued ∧
      t.eventsWaitingOnMSHR = s.eventsWaitingOnMSHR ∧
      t.readsBelow.length ≤ s.readsBelow.length + 1 := by
  cases hx with
  | handles x isRequest handled => exact handled.frame
  | joins locked => exact ⟨rfl, rfl, rfl, Nat.le_succ _⟩
  | evicts noRead updated =>
    have hupdate := updateStateOfCacheLine_eq_some updated
    refine ⟨hupdate.queue, hupdate.requeued, hupdate.waiting, ?_⟩
    rw [hupdate.readsBelow]
    exact Nat.le_succ _

theorem Awaited.parkedBehind (h : Sound cfg s) (hparked : s.ParkedBehind)
    (hx : Awaited cfg s event t) : t.ParkedBehind := by
  have hframe := hx.frame
  intro hne
  rw [hframe.2.2.1] at hne
  cases hx with
  | handles x isRequest handled => exact handled.missRegister h.mshr (hparked hne)
  | joins locked => exact missRegister_addToMSHR h.mshr event
  | evicts noRead updated =>
    rw [(updateStateOfCacheLine_eq_some updated).mshr]
    exact hparked hne

/-- What a response does. -/
inductive Responded (cfg : HierarchyConfig C) (s : HierarchyCache C)
    (event : AddressCarryingEvent C) : HierarchyCache C → Prop
  | fills {t : HierarchyCache C} (hasLine : s.hasLineFor cfg event.address = true)
      (filled : s.fillAndSatisfyRequests cfg event.address = some t) : Responded cfg s event t
  | waits (noLine : s.hasLineFor cfg event.address = false) :
      Responded cfg s event { s with queue := s.queue ++ [event] }

theorem responded_handleEvent (hevent : IsResponse cfg event)
    (h : s.handleEvent cfg event = some t) : Responded cfg s event t := by
  obtain ⟨request, address⟩ := event
  unfold IsResponse at hevent
  dsimp only at hevent
  subst hevent
  simp only [handleEvent, handleMemResponse] at h
  split at h
  · rename_i hline
    exact .fills hline h
  · rename_i hline
    cases h
    exact .waits (Bool.not_eq_true _ ▸ hline)

/-! ### Taking an event -/

/-- The event leaves the queue. -/
def taken (s : HierarchyCache C) (i : ℕ) : HierarchyCache C :=
  { s with queue := s.queue.eraseIdx i }

theorem queue_perm (h : s.queue[i]? = some event) :
    List.Perm s.queue (event :: (s.taken i).queue) := by
  obtain ⟨hi, rfl⟩ := List.getElem?_eq_some_iff.mp h
  exact (List.getElem_cons_eraseIdx_perm hi).symm

theorem settles_taken (h : s.queue[i]? = some event) :
    Settles s [] [] (s.taken i) [event] := by
  refine settles_none ?_ rfl
  have hperm := (queue_perm h).append_right (s.requeued.map Prod.snd ++
    s.eventsWaitingOnMSHR.map CacheAccess.event ++ s.mshr.all)
  unfold inside taken at *
  simp only [List.append_assoc, List.nil_append, List.cons_append] at hperm ⊢
  exact hperm

/-- The event put back leaves its list. -/
def retaken (s : HierarchyCache C) (i : ℕ) : HierarchyCache C :=
  { s with requeued := s.requeued.eraseIdx i }

theorem settles_retaken {time : ℤ} (h : s.requeued[i]? = some (time, event)) :
    Settles s [] [] (s.retaken i) [event] := by
  refine settles_none ?_ rfl
  obtain ⟨hi, hget⟩ := List.getElem?_eq_some_iff.mp h
  have hperm : List.Perm s.requeued ((time, event) :: s.requeued.eraseIdx i) := by
    rw [← hget]
    exact (List.getElem_cons_eraseIdx_perm hi).symm
  have hmapped := (hperm.map Prod.snd).append_right
    (s.eventsWaitingOnMSHR.map CacheAccess.event ++ s.mshr.all)
  have hfront := (hmapped.append_left s.queue).trans List.perm_middle
  unfold inside retaken
  simp only [List.append_assoc, List.nil_append, List.cons_append] at hfront ⊢
  exact hfront

theorem sound_taken (h : Sound cfg s) (hqueue : s.queue[i]? = some event)
    (hevent : Awaits event) : Sound cfg (s.taken i) where
  mshr := h.mshr
  reads := by
    have hperm := (queue_perm hqueue).filter (fun e => !e.isLive)
    rw [List.filter_cons_of_neg (by rw [hevent.isLive]; exact Bool.false_ne_true)] at hperm
    have hmapped := (hperm.map AddressCarryingEvent.address).append_left s.readsBelow
    exact (hmapped.map some).symm.trans h.reads
  putBack := h.putBack
  waits := h.waits
  queue := fun e he => h.queue e (List.mem_of_mem_eraseIdx he)

theorem arrived_taken (h : Sound cfg s) (hqueue : s.queue[i]? = some event)
    (hevent : IsResponse cfg event) : Arrived cfg (s.taken i) event.address where
  mshr := h.mshr
  reads := by
    have hperm := (queue_perm hqueue).filter (fun e => !e.isLive)
    rw [List.filter_cons_of_pos (by rw [hevent.not_isLive]; rfl)] at hperm
    have hmapped := (hperm.map AddressCarryingEvent.address).append_left s.readsBelow
    have hfront := hmapped.trans List.perm_middle
    exact (hfront.map some).symm.trans h.reads
  putBack := h.putBack
  waits := h.waits
  queue := fun e he => h.queue e (List.mem_of_mem_eraseIdx he)

theorem sound_retaken (h : Sound cfg s) : Sound cfg (s.retaken i) where
  mshr := h.mshr
  reads := h.reads
  putBack := fun p hp => h.putBack p (List.mem_of_mem_eraseIdx hp)
  waits := h.waits
  queue := h.queue

/-! ### Steps -/

/-- The level below sends evictions only; what it answers is counted by `answer`. -/
def PlainInput : Action C → Prop
  | .post event => ∃ c, event.request = .fromDirectory (.evictCacheLine c)
  | _ => True

structure Accounted (cfg : HierarchyConfig C) (s : HierarchyCache C) : Prop where
  sound : Sound cfg s
  parked : s.ParkedBehind
  /-- Every read that was made is answered or inside. -/
  conserved : List.Perm (s.requests.filterMap CacheAccess.read?)
    (s.responses ++ s.inside.filterMap AddressCarryingEvent.read?)

/-- What is settled is answered, so the account stays as it was. -/
theorem conserved_settles {settled : List (AddressCarryingEvent C)}
    (h : List.Perm (s.requests.filterMap CacheAccess.read?)
      (s.responses ++ s.inside.filterMap AddressCarryingEvent.read?))
    (hs : Settles s [] settled t []) :
    List.Perm (t.requests.filterMap CacheAccess.read?)
      (t.responses ++ t.inside.filterMap AddressCarryingEvent.read?) := by
  have hinside := hs.inside.filterMap AddressCarryingEvent.read?
  rw [List.nil_append, List.nil_append, List.filterMap_append] at hinside
  rw [hs.requests]
  refine h.trans ?_
  refine (hinside.append_left s.responses).trans ?_
  rw [← List.append_assoc]
  exact hs.responses.symm.append_right _

theorem accounted_responded (hplain : cfg.coherent = false) (hassoc : 2 ≤ cfg.geometry.assoc)
    (hsize : 1 ≤ cfg.mshrMaxSize) (h : Accounted cfg s) (hqueue : s.queue[i]? = some event)
    (hevent : IsResponse cfg event) (hstep : (s.taken i).handleEvent cfg event = some t) :
    Accounted cfg t := by
  have harrived := arrived_taken h.sound hqueue hevent
  have htaken := settles_taken hqueue
  have hnone : event.read? = none := by
    obtain ⟨request, address⟩ := event
    unfold IsResponse at hevent
    dsimp only at hevent
    subst hevent
    rfl
  cases responded_handleEvent hevent hstep with
  | fills hasLine filled =>
    obtain ⟨u, hsound, rfl⟩ := harrived.fillAndSatisfyRequests hplain filled
    have hopened : Sound cfg { u with eventsWaitingOnMSHR := [] } := hsound.frame rfl rfl rfl rfl
    obtain ⟨settled, hsettles, -⟩ := settles_fillAndSatisfyRequests hplain harrived.mshr filled
    constructor
    case sound => exact hopened.pendingLoop hplain _
    case parked =>
      apply parkedBehind_pendingLoop hplain hassoc hsize _ hopened
      exact fun hne => absurd rfl hne
    case conserved =>
      have hframe := hsettles.frame [event]
      have hdone : Settles (u.processEventsInPendingList cfg) [event] [event]
          (u.processEventsInPendingList cfg) [] := by
        refine ⟨List.Perm.refl _, ?_, rfl⟩
        rw [List.filterMap_cons, hnone]
        exact List.Perm.of_eq (List.append_nil _).symm
      exact conserved_settles h.conserved ((htaken.trans hframe).trans hdone)
  | waits noLine =>
    have hback : Settles (s.taken i) [event] []
        { s.taken i with queue := (s.taken i).queue ++ [event] } [] := by
      refine settles_none ?_ rfl
      unfold inside
      simp only [List.append_assoc, List.nil_append, List.cons_append]
      exact List.perm_middle.symm
    constructor
    case sound =>
      constructor
      case mshr => exact h.sound.mshr
      case reads =>
        have hsame : List.Perm ((s.taken i).queue ++ [event]) s.queue :=
          (List.perm_append_singleton _ _).trans (queue_perm hqueue).symm
        have hfilter := (hsame.filter (fun e => !e.isLive)).map AddressCarryingEvent.address
        exact ((hfilter.append_left s.readsBelow).map some).trans h.sound.reads
      case putBack => exact h.sound.putBack
      case waits => exact h.sound.waits
      case queue =>
        intro e he
        rcases List.mem_append.mp he with he | he
        · exact harrived.queue e he
        · rw [List.mem_singleton.mp he]
          exact Or.inr hevent
    case parked => exact h.parked
    case conserved => exact conserved_settles h.conserved (htaken.trans hback)

theorem conserved_requested
    (h : List.Perm (s.requests.filterMap CacheAccess.read?)
      (s.responses ++ s.inside.filterMap AddressCarryingEvent.read?))
    (hhistory : t.history = s.history ++ [.requested x])
    (hinside : List.Perm t.inside (x.event :: s.inside)) :
    List.Perm (t.requests.filterMap CacheAccess.read?)
      (t.responses ++ t.inside.filterMap AddressCarryingEvent.read?) := by
  have hrequests : t.requests = s.requests ++ [x] := by
    unfold requests
    rw [hhistory, List.filterMap_append]
    rfl
  have hresponses : t.responses = s.responses := by
    unfold responses
    rw [hhistory, List.filterMap_append]
    exact List.append_nil _
  have hread : [x].filterMap CacheAccess.read? =
      [x.event].filterMap AddressCarryingEvent.read? := by
    rw [event_reads, List.filterMap_cons]
    unfold CacheAccess.read?
    cases x.isWrite <;> rfl
  have hmapped := hinside.filterMap AddressCarryingEvent.read?
  rw [← List.singleton_append, List.filterMap_append, ← hread] at hmapped
  rw [hrequests, hresponses, List.filterMap_append]
  refine (h.append_right _).trans ?_
  rw [List.append_assoc]
  exact (List.perm_append_comm.trans hmapped.symm).append_left _

theorem Sound.posted (h : Sound cfg s) (hevent : Awaits event) :
    Sound cfg { s with queue := s.queue ++ [event] } where
  mshr := h.mshr
  reads := by
    unfold outstanding
    dsimp only
    rw [List.filter_append, List.filter_cons_of_neg (by rw [hevent.isLive]; exact
      Bool.false_ne_true), List.filter_nil, List.append_nil]
    exact h.reads
  putBack := h.putBack
  waits := h.waits
  queue := by
    intro e he
    rcases List.mem_append.mp he with he | he
    · exact h.queue e he
    · rw [List.mem_singleton.mp he]
      exact Or.inl hevent

theorem inside_posted (s : HierarchyCache C) (event : AddressCarryingEvent C) :
    List.Perm (inside { s with queue := s.queue ++ [event] }) (event :: s.inside) := by
  unfold inside
  simp only [List.append_assoc, List.cons_append, List.nil_append]
  exact List.perm_middle

/-- Events that are no reads come in without an entry in the account. -/
theorem conserved_posted
    (h : List.Perm (s.requests.filterMap CacheAccess.read?)
      (s.responses ++ s.inside.filterMap AddressCarryingEvent.read?))
    (hhistory : t.history = s.history) (hnone : event.read? = none)
    (hinside : List.Perm t.inside (event :: s.inside)) :
    List.Perm (t.requests.filterMap CacheAccess.read?)
      (t.responses ++ t.inside.filterMap AddressCarryingEvent.read?) := by
  have hmapped := hinside.filterMap AddressCarryingEvent.read?
  rw [List.filterMap_cons, hnone] at hmapped
  unfold requests responses at *
  rw [hhistory]
  exact h.trans (hmapped.symm.append_left _)

theorem accounted_request (hassoc : 2 ≤ cfg.geometry.assoc) (hsize : 1 ≤ cfg.mshrMaxSize)
    (h : Accounted cfg s) (x : CacheAccess C) : Accounted cfg (s.addEventAtLowerCache cfg x) := by
  unfold addEventAtLowerCache
  split
  · rename_i hfull
    have hwaits := isMSHRFull_waits hassoc hsize h.sound.mshr hfull
    refine ⟨h.sound.frame rfl rfl rfl rfl, fun _ => hwaits, ?_⟩
    exact conserved_requested h.conserved rfl (inside_parked s x)
  · refine ⟨(h.sound.posted (awaits_event x)).frame rfl rfl rfl rfl, h.parked, ?_⟩
    exact conserved_requested h.conserved rfl (inside_posted s x.event)

theorem accounted_post (h : Accounted cfg s)
    (hevent : ∃ c, event.request = .fromDirectory (.evictCacheLine c)) :
    Accounted cfg { s with queue := s.queue ++ [event] } := by
  have hnone : event.read? = none := by
    obtain ⟨request, address⟩ := event
    obtain ⟨c, hrequest⟩ := hevent
    dsimp only at hrequest
    subst hrequest
    rfl
  refine ⟨h.sound.posted (Or.inr hevent), h.parked, ?_⟩
  exact conserved_posted h.conserved rfl hnone (inside_posted s event)

/-- The state after the next level has answered a read. -/
def answered (cfg : HierarchyConfig C) (s : HierarchyCache C) (i : ℕ) (addr : Address) :
    HierarchyCache C :=
  { s with
    readsBelow := s.readsBelow.eraseIdx i
    queue := s.queue ++ [⟨.memResponse none cfg.self, addr⟩] }

theorem accounted_answer (h : Accounted cfg s) (hread : s.readsBelow[i]? = some addr) :
    Accounted cfg (s.answered cfg i addr) := by
  have hresponse : IsResponse cfg ⟨.memResponse none cfg.self, addr⟩ := rfl
  obtain ⟨hi, hget⟩ := List.getElem?_eq_some_iff.mp hread
  have hperm : List.Perm s.readsBelow (addr :: s.readsBelow.eraseIdx i) := by
    rw [← hget]
    exact (List.getElem_cons_eraseIdx_perm hi).symm
  constructor
  case sound =>
    constructor
    case mshr => exact h.sound.mshr
    case reads =>
      refine List.Perm.trans ?_ h.sound.reads
      apply List.Perm.map
      unfold outstanding answered
      dsimp only
      rw [List.filter_append, List.filter_cons_of_pos (by rw [hresponse.not_isLive]; rfl),
        List.filter_nil, List.map_append, ← List.append_assoc]
      refine (List.perm_append_singleton _ _).trans ?_
      exact (hperm.append_right _).symm
    case putBack => exact h.sound.putBack
    case waits => exact h.sound.waits
    case queue =>
      intro e he
      rcases List.mem_append.mp he with he | he
      · exact h.sound.queue e he
      · rw [List.mem_singleton.mp he]
        exact Or.inr hresponse
  case parked => exact h.parked
  case conserved => exact conserved_posted h.conserved rfl rfl (inside_posted s _)

theorem accounted_setState {state : MESI} (h : Accounted cfg s)
    (hstep : s.updateStateOfCacheLine cfg addr state = some t) : Accounted cfg t := by
  have hupdate := updateStateOfCacheLine_eq_some hstep
  constructor
  case sound => exact h.sound.frame hupdate.mshr hupdate.queue hupdate.requeued hupdate.readsBelow
  case parked =>
    unfold ParkedBehind
    rw [hupdate.waiting, hupdate.mshr]
    exact h.parked
  case conserved =>
    unfold inside
    rw [requests_updateState hstep, responses_updateState hstep, hupdate.queue, hupdate.requeued,
      hupdate.waiting, hupdate.mshr]
    exact h.conserved

theorem accounted_step (hplain : cfg.coherent = false) (hassoc : 2 ≤ cfg.geometry.assoc)
    (hsize : 1 ≤ cfg.mshrMaxSize) {label : Action C} (h : Accounted cfg s)
    (hinput : PlainInput label) (hstep : Step cfg s label t) : Accounted cfg t := by
  cases label with
  | request x =>
    cases hstep
    exact accounted_request hassoc hsize h x
  | post event =>
    cases hstep
    exact accounted_post h hinput
  | answer i =>
    simp only [Step, StepOf, next] at hstep
    split at hstep
    · cases hstep
    · rename_i addr hread
      cases hstep
      exact accounted_answer h hread
  | deliver i =>
    simp only [Step, StepOf, next] at hstep
    split at hstep
    · cases hstep
    · rename_i event hqueue
      rcases h.sound.queue event (List.mem_of_getElem? hqueue) with hevent | hevent
      · have hx : Awaited cfg (s.taken i) event t := awaited_handleEvent hplain hevent hstep
        have hsound := sound_taken h.sound hqueue hevent
        obtain ⟨settled, hsettles⟩ := hx.settles
        have hparked : (s.taken i).ParkedBehind := h.parked
        exact ⟨hx.sound hsound hevent, hx.parkedBehind hsound hparked,
          conserved_settles h.conserved ((settles_taken hqueue).trans hsettles)⟩
      · exact accounted_responded hplain hassoc hsize h hqueue hevent hstep
  | redeliver i =>
    simp only [Step, StepOf, next] at hstep
    split at hstep
    · cases hstep
    · rename_i time event hrequeued
      have hevent := h.sound.putBack _ (List.mem_of_getElem? hrequeued)
      have hx : Awaited cfg (s.retaken i) event t := awaited_handleEvent hplain hevent hstep
      obtain ⟨settled, hsettles⟩ := hx.settles
      have hsound : Sound cfg (s.retaken i) := sound_retaken h.sound
      have hparked : (s.retaken i).ParkedBehind := h.parked
      exact ⟨hx.sound hsound hevent, hx.parkedBehind hsound hparked,
        conserved_settles h.conserved ((settles_retaken hrequeued).trans hsettles)⟩
  | setState addr state =>
    simp only [Step, StepOf, next] at hstep
    split at hstep
    · cases hstep
    · exact accounted_setState h hstep

theorem accounted_initial (cfg : HierarchyConfig C) : Accounted cfg initial := by
  constructor
  case sound =>
    constructor
    case mshr => exact MSHR.wellFormed_empty
    case reads => exact List.Perm.refl _
    case putBack => exact fun _ hp => by cases hp
    case waits => exact fun _ he => by cases he
    case queue => exact fun _ he => by cases he
  case parked => exact fun hne => absurd rfl hne
  case conserved => exact List.Perm.refl _

end HierarchyCache

end Tejas
