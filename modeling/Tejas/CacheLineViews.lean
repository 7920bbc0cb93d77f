import Tejas.CoherentCache
import Tejas.LineProtocol

/-!
# One line of a coherent cache

What the handlers of a cache do to the line they are asked for is what the protocol of
one line says; of the others, at most one is replaced.
-/

namespace Tejas

variable {C : Type}

/-- Acknowledgements and writes through to the next level play no part in coherence. -/
def Request.isCoherent : Request C → Bool
  | .writeThrough _ => false
  | .acknowledgement _ => false
  | _ => true

def AddressCarryingEvent.onLine (b : ℕ) (addr : Address) (event : AddressCarryingEvent C) :
    Bool :=
  getLineAddr b event.address = getLineAddr b addr && event.request.isCoherent

/-- The requests in flight for the line of an address. -/
def lineFlights (b : ℕ) (addr : Address) (flights : List (Flight (AddressCarryingEvent C))) :
    List (Flight (Request C)) :=
  (flights.filter (fun f => f.event.onLine b addr)).map (Flight.map AddressCarryingEvent.request)

variable {b : ℕ} {addr a : Address} {flights more : List (Flight (AddressCarryingEvent C))}
  {f : Flight (AddressCarryingEvent C)} {event : AddressCarryingEvent C}

theorem onLine_iff : event.onLine b addr = true ↔
    getLineAddr b event.address = getLineAddr b addr ∧ event.request.isCoherent = true := by
  simp [AddressCarryingEvent.onLine]

@[simp] theorem lineFlights_nil : lineFlights (C := C) b addr [] = [] := rfl

@[simp] theorem lineFlights_append :
    lineFlights b addr (flights ++ more) =
      lineFlights b addr flights ++ lineFlights b addr more := by
  simp [lineFlights]

theorem lineFlights_cons : lineFlights b addr (f :: flights) =
    (if f.event.onLine b addr then [f.map AddressCarryingEvent.request] else []) ++
      lineFlights b addr flights := by
  rw [lineFlights, List.filter_cons]
  split <;> simp [lineFlights, *]

theorem lineFlights_singleton (h : f.event.onLine b addr = true) :
    lineFlights b addr [f] = [f.map AddressCarryingEvent.request] := by
  rw [lineFlights_cons, if_pos h]
  rfl

/-- Acknowledgements and writes through are dropped. -/
theorem lineFlights_of_not_coherent (h : ∀ f ∈ flights, f.event.request.isCoherent = false) :
    lineFlights b addr flights = [] := by
  rw [lineFlights, List.map_eq_nil_iff, List.filter_eq_nil_iff]
  intro f hf
  simp [AddressCarryingEvent.onLine, h f hf]

theorem lineFlights_congr (h : getLineAddr b a = getLineAddr b addr) :
    lineFlights b a flights = lineFlights b addr flights := by
  simp only [lineFlights, AddressCarryingEvent.onLine, h]

/-- Events put back into the event queue. -/
theorem lineFlights_queued {events : List (AddressCarryingEvent C)}
    (h : ∀ e ∈ events, e.onLine b addr = true) :
    lineFlights b addr (events.map .queued) =
      (events.map AddressCarryingEvent.request).map .queued := by
  induction events with
  | nil => rfl
  | cons e rest ih =>
    rw [List.map_cons, lineFlights_cons, ih fun e' he' => h e' (List.mem_cons_of_mem _ he')]
    simp [Flight.event, h e List.mem_cons_self, Flight.map]

/-- What goes to one line does not go to another. -/
theorem lineFlights_other (h : ∀ f ∈ flights, f.event.onLine b addr = true ∨
    f.event.request.isCoherent = false) (hne : getLineAddr b a ≠ getLineAddr b addr) :
    lineFlights b a flights = [] := by
  rw [lineFlights, List.map_eq_nil_iff, List.filter_eq_nil_iff]
  intro f hf
  rcases h f hf with hline | hcoherent
  · rw [onLine_iff] at hline ⊢
    rw [hline.1]
    exact fun hon => hne hon.1.symm
  · simp [AddressCarryingEvent.onLine, hcoherent]

namespace LineArray

variable {σ : Type} {l l' : LineArray σ} {g : Geometry} {i : ℕ}

/-- The time of the last use matters to replacement only. -/
theorem Tagged.of_timestamps (h : l.Tagged g) (hlines : ∀ j, (l'.lines j).tag = (l.lines j).tag ∧
    (l'.lines j).address = (l.lines j).address ∧ (l'.lines j).state = (l.lines j).state) :
    l'.Tagged g ∧ (∀ a, l'.access g a = l.access g a) ∧
      ∀ a, l'.stateAt g a = l.stateAt g a := by
  have haccess : ∀ a, l'.access g a = l.access g a := fun a =>
    access_of_tags fun j _ => (hlines j).1
  refine ⟨⟨fun a j hj htag => ?_, fun j hj => ?_, fun a j k hj hk htag hne => ?_⟩, haccess,
    fun a => ?_⟩
  · rw [(hlines j).1] at htag
    rw [(hlines j).2.1]
    exact h.stored a j hj htag
  · rw [(hlines j).2.2] at hj
    rw [(hlines j).1, (hlines j).2.1]
    exact h.home j hj
  · rw [haccess] at hj
    rw [(hlines k).1] at htag
    rw [(hlines k).2.2]
    exact h.single a j k hj hk htag hne
  · rw [stateAt, stateAt, haccess]
    split
    · exact (hlines _).2.2
    · rfl

theorem mark_lines (l : LineArray σ) (i j : ℕ) : ((l.mark i).lines j).tag = (l.lines j).tag ∧
    ((l.mark i).lines j).address = (l.lines j).address ∧
    ((l.mark i).lines j).state = (l.lines j).state := by
  by_cases hj : j = i
  · subst hj
    simp [mark, setLine]
  · simp [mark, setLine, hj]

end LineArray

namespace Cache

variable {cache cache' : Cache C} {cfg : CacheConfig} {g : Geometry} {self : C}

/-- What the cache knows of the line of an address. -/
def view (cache : Cache C) (g : Geometry) (addr : Address) : LineView C :=
  ⟨cache.lines.stateAt g addr,
    (cache.mshr.waiting g.blockSizeBits addr).map AddressCarryingEvent.request⟩

structure WellFormed (cache : Cache C) (g : Geometry) : Prop where
  tagged : cache.lines.Tagged g
  mshr : cache.mshr.WellFormed g.blockSizeBits
  waiting : ∀ a, ∀ e ∈ cache.mshr.waiting g.blockSizeBits a, e.onLine g.blockSizeBits a = true

theorem wellFormed_new : (new : Cache C).WellFormed g where
  tagged := LineArray.tagged_new _
  mshr := MSHR.wellFormed_empty
  waiting := by simp [new, MSHR.waiting, MSHR.getWaitingEventsInMSHR, MSHR.empty]

theorem view_congr (cache : Cache C) (h : g.SameLine a addr) :
    cache.view g a = cache.view g addr := by
  rw [view, view, LineArray.stateAt_congr h, MSHR.waiting_congr h]

/-- A line is locked while requests wait for it. -/
theorem isAddrInMSHR_iff (h : cache.WellFormed g) :
    cache.isAddrInMSHR g addr = true ↔ (cache.view g addr).pending ≠ [] := by
  rw [isAddrInMSHR, MSHR.isAddrInMSHR_iff h.mshr, view, Ne, Ne, List.map_eq_nil_iff]

theorem isAddrInMSHR_eq_false (h : cache.WellFormed g) :
    cache.isAddrInMSHR g addr = false ↔ (cache.view g addr).pending = [] := by
  rw [← Bool.not_eq_true, isAddrInMSHR_iff h, not_not]

/-- A request is added behind those that wait for its line. -/
theorem addToMSHR_spec (event : AddressCarryingEvent C) (h : cache.WellFormed g)
    (hevent : event.request.isCoherent = true) :
    (cache.addToMSHR g event).WellFormed g ∧
      (cache.addToMSHR g event).view g event.address =
        { cache.view g event.address with
          pending := LineView.enqueue (cache.view g event.address).pending event.request } ∧
      ∀ a, ¬ g.SameLine a event.address → (cache.addToMSHR g event).view g a = cache.view g a := by
  have hwaiting : ∀ a, (cache.addToMSHR g event).mshr.waiting g.blockSizeBits a =
      if getLineAddr g.blockSizeBits a = getLineAddr g.blockSizeBits event.address ∧
        MSHR.isMerged (cache.mshr.waiting g.blockSizeBits a) event = false then
        cache.mshr.waiting g.blockSizeBits a ++ [event]
      else cache.mshr.waiting g.blockSizeBits a := fun a => MSHR.waiting_addToMSHR h.mshr
  refine ⟨⟨h.tagged, MSHR.wellFormed_addToMSHR h.mshr, fun a e he => ?_⟩, ?_, fun a ha => ?_⟩
  · rw [hwaiting] at he
    split at he
    · rename_i hsame
      rcases List.mem_append.mp he with he | he
      · exact h.waiting a e he
      · rw [List.mem_singleton.mp he]
        simp [AddressCarryingEvent.onLine, hsame.1, hevent]
    · exact h.waiting a e he
  · have hmerged : ∀ events : List (AddressCarryingEvent C), MSHR.isMerged events event =
        (LineView.isCacheWrite event.request &&
          (events.map AddressCarryingEvent.request).getLast?.any LineView.isCacheWrite) := by
      have hwrite : ∀ e : AddressCarryingEvent C,
          MSHR.isCacheWrite e = LineView.isCacheWrite e.request := by
        rintro ⟨request, addr⟩
        cases request <;> rfl
      intro events
      rw [MSHR.isMerged, hwrite, List.getLast?_map]
      cases events.getLast? <;> simp [hwrite]
    rw [view, view, hwaiting, LineView.enqueue, ← hmerged]
    cases hm : MSHR.isMerged (cache.mshr.waiting g.blockSizeBits event.address) event <;>
      simp [addToMSHR]
  · rw [view, view, hwaiting, if_neg (fun hsame => ha hsame.1)]
    rfl

/-- A change of state reaches a line that has a way, and no other line. -/
theorem updateState_spec (newState : MESI) (h : cache.WellFormed g)
    (hlocked : newState = .invalid → (cache.view g addr).pending = []) :
    ∃ cache', cache.updateStateOfCacheLine g addr newState = .ok cache' ∧
      cache'.WellFormed g ∧ cache'.mshr = cache.mshr ∧
      cache'.view g addr =
        (cache.view g addr).change (cache.lines.access g addr).isSome newState ∧
      ∀ a, ¬ g.SameLine a addr → cache'.view g a = cache.view g a := by
  rw [updateStateOfCacheLine]
  cases hacc : cache.lines.access g addr with
  | none =>
    refine ⟨cache, rfl, h, rfl, ?_, fun a _ => rfl⟩
    rw [LineView.change, if_neg]
    simp [view, LineArray.stateAt, hacc]
  | some i =>
    have hfree : ¬ (newState = .invalid ∧ cache.isAddrInMSHR g addr = true) := by
      rintro ⟨hstate, hin⟩
      exact (isAddrInMSHR_iff h).mp hin (hlocked hstate)
    refine ⟨{ cache with lines := cache.lines.setState g addr newState }, if_neg hfree,
      ⟨LineArray.tagged_setState h.tagged newState, h.mshr, h.waiting⟩, rfl, ?_, fun a ha => ?_⟩
    · rw [LineView.change, if_pos (Or.inl (Option.isSome_some)), view,
        LineArray.stateAt_setState, if_pos ⟨rfl, by simp [hacc]⟩]
      rfl
    · rw [view, view, LineArray.stateAt_setState, if_neg fun hsame => ha hsame.1]

/-! ### The waiting requests are served -/

/-- What is left of the waiting requests of a line once they have been served. -/
structure Served (cache cache' : Cache C) (g : Geometry) (addr : Address)
    (flights : List (Flight (AddressCarryingEvent C))) (left : List (Request C)) : Prop where
  wellFormed : cache'.WellFormed g
  mshr : cache'.mshr = cache.mshr
  others : ∀ a, ¬ g.SameLine a addr → cache'.view g a = cache.view g a
  line : lineFlights g.blockSizeBits addr flights = left.map .queued
  onLine : ∀ f ∈ flights, f.event.onLine g.blockSizeBits addr = true ∨
    f.event.request.isCoherent = false

theorem Served.trans {cache₀ : Cache C} {left : List (Request C)}
    (h : Served cache cache' g addr flights left) (hmshr : cache.mshr = cache₀.mshr)
    (hothers : ∀ a, ¬ g.SameLine a addr → cache.view g a = cache₀.view g a) :
    Served cache₀ cache' g addr flights left where
  wellFormed := h.wellFormed
  mshr := h.mshr.trans hmshr
  others a ha := (h.others a ha).trans (hothers a ha)
  line := h.line
  onLine := h.onLine

/-- An eviction among the waiting requests: the rest goes back into the event queue. -/
theorem served_eviction (h : cache.WellFormed g) (hfree : (cache.view g addr).pending = [])
    {rest : List (AddressCarryingEvent C)}
    (hrest : ∀ e ∈ rest, e.onLine g.blockSizeBits addr = true) :
    ∃ cache', cache.updateStateOfCacheLine g addr .invalid = .ok cache' ∧
      cache'.lines.stateAt g addr = .invalid ∧
      Served cache cache' g addr (rest.map .queued) (rest.map AddressCarryingEvent.request) := by
  obtain ⟨cache', heq, hwf, hmshr, hview, hothers⟩ := updateState_spec .invalid h (fun _ => hfree)
  refine ⟨cache', heq, ?_, hwf, hmshr, hothers, lineFlights_queued hrest, fun f hf => ?_⟩
  · have hstate : (cache'.view g addr).state = .invalid := by
      rw [hview, LineView.change]
      split
      · rfl
      · rename_i hkeep
        exact not_not.mp (not_or.mp hkeep).2
    exact hstate
  · obtain ⟨e, he, rfl⟩ := List.mem_map.mp hf
    exact Or.inl (hrest e he)

/-- The loop over the waiting events does what the protocol of one line says, or takes the
exit of a write without a line. -/
theorem processEvents_spec (self : C) (written : Bool) {events : List (AddressCarryingEvent C)}
    (h : cache.WellFormed cfg.geometry) (hfree : (cache.view cfg.geometry addr).pending = [])
    (hevents : ∀ e ∈ events, e.onLine cfg.geometry.blockSizeBits addr = true) :
    (∃ e, processEvents cfg self addr cache written events = .error e ∧
      LineView.satisfy (cache.lines.stateAt cfg.geometry addr)
        (events.map AddressCarryingEvent.request) = none) ∨
    ∃ cache' flights left,
      processEvents cfg self addr cache written events = .ok (cache', flights) ∧
      LineView.satisfy (cache.lines.stateAt cfg.geometry addr)
        (events.map AddressCarryingEvent.request) =
          some (cache'.lines.stateAt cfg.geometry addr, left) ∧
      Served cache cache' cfg.geometry addr flights left := by
  induction events generalizing cache written with
  | nil =>
    have hthrough : ∀ f ∈ (if written ∧ cfg.writePolicy = .writeThrough then
        [Flight.sent ⟨.writeThrough self, addr⟩] else [] : List (Flight (AddressCarryingEvent C))),
        f.event.request.isCoherent = false := by
      split <;> simp [Flight.event, Request.isCoherent]
    exact Or.inr ⟨cache, _, [], rfl, rfl, h, rfl, fun _ _ => rfl,
      lineFlights_of_not_coherent hthrough, fun f hf => Or.inr (hthrough f hf)⟩
  | cons event rest ih =>
    have hrest : ∀ e ∈ rest, e.onLine cfg.geometry.blockSizeBits addr = true :=
      fun e he => hevents e (List.mem_cons_of_mem _ he)
    have hskip := ih written h hfree hrest
    obtain ⟨request, address⟩ := event
    match request with
    | .cacheRead c =>
      simp only [processEvents, List.map_cons, LineView.satisfy]
      rcases hskip with ⟨e, heq, hsat⟩ | ⟨cache', flights, left, heq, hsat, hserved⟩
      · exact Or.inl ⟨e, by rw [heq]; rfl, hsat⟩
      · refine Or.inr ⟨cache', _, left, by rw [heq]; rfl, hsat, hserved.wellFormed,
          hserved.mshr, hserved.others, ?_, fun f hf => ?_⟩
        · rw [lineFlights_cons, hserved.line]
          simp [Flight.event, AddressCarryingEvent.onLine, Request.isCoherent]
        · rcases List.mem_cons.mp hf with rfl | hf
          · exact Or.inr rfl
          · exact hserved.onLine f hf
    | .cacheWrite c =>
      simp only [processEvents, List.map_cons, LineView.satisfy]
      have hvalid : (cache.lines.accessValid cfg.geometry addr).isSome ↔
          cache.lines.stateAt cfg.geometry addr ≠ .invalid := LineArray.accessValid_eq_some_iff
      cases hacc : cache.lines.accessValid cfg.geometry addr with
      | none =>
        left
        rw [hacc] at hvalid
        exact ⟨_, rfl, if_pos (by simpa using hvalid)⟩
      | some i =>
        have hstate : cache.lines.stateAt cfg.geometry addr ≠ .invalid := by
          rw [← hvalid, hacc]
          rfl
        rw [if_neg hstate]
        obtain ⟨cache₁, hupdate, hwf, hmshr, hview, hothers⟩ :=
          updateState_spec .modified h nofun
        have hchanged : cache₁.view cfg.geometry addr =
            { cache.view cfg.geometry addr with state := .modified } := by
          have hvalid' : (cache.view cfg.geometry addr).state ≠ .invalid := hstate
          rw [hview, LineView.change, if_pos (Or.inr hvalid')]
        have hmodified : cache₁.lines.stateAt cfg.geometry addr = .modified :=
          congrArg LineView.state hchanged
        have hfree₁ : (cache₁.view cfg.geometry addr).pending = [] := by
          rw [hchanged]
          exact hfree
        simp only [hupdate]
        rcases ih true hwf hfree₁ hrest with
          ⟨e, heq, hsat⟩ | ⟨cache', flights, left, heq, hsat, hserved⟩
        · rw [hmodified] at hsat
          exact Or.inl ⟨e, heq, hsat⟩
        · rw [hmodified] at hsat
          exact Or.inr ⟨cache', flights, left, heq, hsat, hserved.trans hmshr hothers⟩
    | .toDirectory (.directoryEvictedFromCoherentCache c) =>
      obtain ⟨cache', heq, hstate, hserved⟩ := served_eviction h hfree hrest
      refine Or.inr ⟨cache', _, _, ?_, ?_, hserved⟩
      · simp only [processEvents, heq]
        rfl
      · rw [hstate]
        rfl
    | .fromDirectory (.evictCacheLine c) =>
      obtain ⟨cache', heq, hstate, hserved⟩ := served_eviction h hfree hrest
      refine Or.inr ⟨cache', _, _, ?_, ?_, hserved⟩
      · simp only [processEvents, heq]
        rfl
      · rw [hstate]
        rfl
    | .memResponse source c => exact hskip
    | .toDirectory (.directoryReadMiss c) => exact hskip
    | .toDirectory (.directoryWriteMiss c) => exact hskip
    | .toDirectory (.directoryWriteHit c) => exact hskip
    | .toDirectory .directoryEvictedFromSharedCache => exact hskip
    | .fromDirectory (.ackEvictCacheLine c) => exact hskip
    | .fromDirectory (.ackDirectoryWriteHit c) => exact hskip
    | .fromDirectory (.memResponse c) => exact hskip
    | .fromDirectory (.directoryCachelineForwardRequest o d) => exact hskip
    | .fromDirectory (.directorySharedToExclusive c) => exact hskip
    | .fromDirectory (.cacheRead c) => exact hskip
    | .writeThrough c => exact hskip
    | .acknowledgement c => exact hskip

end Cache

end Tejas
