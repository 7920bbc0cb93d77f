import Tejas.CacheLineViews

/-!
# A cache follows the protocol of each line

Every handler of a cache does to the line of its event what the protocol of one line
says, or puts the event back, and takes at most one other line away.
-/

namespace Tejas.Cache

variable {C : Type} {cache cache' cache₁ : Cache C} {cfg : CacheConfig} {g : Geometry} {self : C}
  {addr a : Address} {flights : List (Flight (AddressCarryingEvent C))}
  {event : AddressCarryingEvent C}

/-- The lines other than that of the address are left alone, or one of them, that no
request waits for, gives up its way. -/
def Replaces (cache cache' : Cache C) (g : Geometry) (self : C) (addr : Address)
    (flights : List (Flight (AddressCarryingEvent C))) : Prop :=
  ∀ a, ¬ g.SameLine a addr →
    cache'.view g a = cache.view g a ∧ lineFlights g.blockSizeBits a flights = [] ∨
    (cache.view g a).pending = [] ∧ (cache.view g a).state ≠ .invalid ∧
      cache'.view g a = ⟨.invalid, [.toDirectory (.directoryEvictedFromCoherentCache self)]⟩ ∧
      lineFlights g.blockSizeBits a flights =
        [.sent (.toDirectory (.directoryEvictedFromCoherentCache self))]

theorem replaces_none (hothers : ∀ a, ¬ g.SameLine a addr → cache'.view g a = cache.view g a)
    (hflights : ∀ f ∈ flights, f.event.onLine g.blockSizeBits addr = true ∨
      f.event.request.isCoherent = false) : Replaces cache cache' g self addr flights :=
  fun a ha => Or.inl ⟨hothers a ha, lineFlights_other hflights ha⟩

/-- What a handler has done. -/
structure Handled (cache : Cache C) (g : Geometry) (c : C) (event : AddressCarryingEvent C)
    (cache' : Cache C) (flights : List (Flight (AddressCarryingEvent C))) : Prop where
  wellFormed : cache'.WellFormed g
  received : cache.postpones g event = false →
    (cache.view g event.address).receive c (cache.lines.access g event.address).isSome
      event.request =
        some (cache'.view g event.address, lineFlights g.blockSizeBits event.address flights)
  postponed : cache.postpones g event = true → cache' = cache ∧ flights = [.queued event]
  others : Replaces cache cache' g c event.address flights

theorem handled_of_received (hkeep : cache.postpones g event = false)
    (hwf : cache'.WellFormed g)
    (hreceive : (cache.view g event.address).receive self
      (cache.lines.access g event.address).isSome event.request =
        some (cache'.view g event.address, lineFlights g.blockSizeBits event.address flights))
    (hothers : Replaces cache cache' g self event.address flights) :
    Handled cache g self event cache' flights where
  wellFormed := hwf
  received _ := hreceive
  postponed h := absurd h (by simp [hkeep])
  others := hothers

/-- The transaction of a line ends as in the protocol, or with an error in both. -/
theorem processEventsInMSHR_spec (self : C) (addr : Address)
    (h : cache.WellFormed cfg.geometry) :
    (∃ e, processEventsInMSHR cfg self cache addr = .error e ∧
      (cache.view cfg.geometry addr).complete (cache.lines.stateAt cfg.geometry addr) = none) ∨
    ∃ cache' flights, processEventsInMSHR cfg self cache addr = .ok (cache', flights) ∧
      cache'.WellFormed cfg.geometry ∧
      (cache.view cfg.geometry addr).complete (cache.lines.stateAt cfg.geometry addr) =
        some (cache'.view cfg.geometry addr,
          lineFlights cfg.geometry.blockSizeBits addr flights) ∧
      (∀ a, ¬ cfg.geometry.SameLine a addr →
        cache'.view cfg.geometry a = cache.view cfg.geometry a) ∧
      ∀ f ∈ flights, f.event.onLine cfg.geometry.blockSizeBits addr = true ∨
        f.event.request.isCoherent = false := by
  rw [processEventsInMSHR]
  cases hremove : cache.mshr.removeEventsFromMSHR cfg.geometry.blockSizeBits addr with
  | none =>
    left
    have hnone : cache.mshr.waiting cfg.geometry.blockSizeBits addr = [] := by
      by_contra hne
      have hsome := (MSHR.removeEvents_isSome h.mshr).mpr hne
      rw [hremove] at hsome
      cases hsome
    refine ⟨_, rfl, ?_⟩
    rw [LineView.complete, view, hnone]
    rfl
  | some removed =>
    obtain ⟨missList, mshr⟩ := removed
    obtain ⟨hlist, hwf, hwaiting⟩ := MSHR.removeEvents_spec h.mshr hremove
    have hne : missList ≠ [] := by
      rw [← hlist]
      apply (MSHR.removeEvents_isSome h.mshr).mp
      rw [hremove]
      rfl
    -- the cache without the events that waited for the line
    have hfreed : WellFormed { cache with mshr := mshr } cfg.geometry := by
      refine ⟨h.tagged, hwf, fun a e he => ?_⟩
      rw [hwaiting] at he
      split at he
      · cases he
      · exact h.waiting a e he
    have hnone : (view { cache with mshr := mshr } cfg.geometry addr).pending = [] := by
      rw [view, hwaiting, if_pos rfl]
      rfl
    have hcomplete : (cache.view cfg.geometry addr).complete
        (cache.lines.stateAt cfg.geometry addr) =
        (LineView.satisfy (cache.lines.stateAt cfg.geometry addr)
          (missList.map AddressCarryingEvent.request)).map
            (fun r => (⟨r.1, []⟩, r.2.map .queued)) := by
      rw [LineView.complete, view, hlist]
      cases missList with
      | nil => exact absurd rfl hne
      | cons e rest => rfl
    have hevents : ∀ e ∈ missList, e.onLine cfg.geometry.blockSizeBits addr = true := by
      rw [← hlist]
      exact h.waiting addr
    rcases processEvents_spec self false hfreed hnone hevents with
      ⟨e, heq, hsat⟩ | ⟨cache', flights, left, heq, hsat, hserved⟩
    · refine Or.inl ⟨e, heq, ?_⟩
      rw [hcomplete, hsat]
      rfl
    · refine Or.inr ⟨cache', flights, heq, hserved.wellFormed, ?_, fun a ha => ?_,
        hserved.onLine⟩
      · have hview : cache'.view cfg.geometry addr =
            ⟨cache'.lines.stateAt cfg.geometry addr, []⟩ := by
          rw [view, hserved.mshr, hwaiting, if_pos rfl]
          rfl
        rw [hcomplete, hsat, hview, hserved.line]
        rfl
      · have hother : getLineAddr cfg.geometry.blockSizeBits a ≠
            getLineAddr cfg.geometry.blockSizeBits addr := ha
        rw [hserved.others a ha, view, view, hwaiting, if_neg hother]

/-! ### A response fills the line -/

/-- The line that is thrown out by a fill is locked until its eviction is acknowledged. -/
theorem handleEvictedLine_spec (self : C) {lines : LineArray Unit}
    {evicted : Option (CacheLine Unit)}
    (h : cache.WellFormed cfg.geometry)
    (hfilled : cache.lines.Filled cfg.geometry (cache.isAddrInMSHR cfg.geometry) addr .shared
      lines evicted) :
    ∃ cache' flights, handleEvictedLine cfg self { cache with lines := lines } evicted =
        .ok (cache', flights) ∧ cache'.WellFormed cfg.geometry ∧
      cache'.view cfg.geometry addr = { cache.view cfg.geometry addr with state := .shared } ∧
      lineFlights cfg.geometry.blockSizeBits addr flights = [] ∧
      Replaces cache cache' cfg.geometry self addr flights := by
  have hwf : WellFormed { cache with lines := lines } cfg.geometry :=
    ⟨hfilled.tagged, h.mshr, h.waiting⟩
  have hview : view { cache with lines := lines } cfg.geometry addr =
      { cache.view cfg.geometry addr with state := .shared } := by
    rw [view, hfilled.filled addr rfl]
    rfl
  cases evicted with
  | none =>
    refine ⟨_, [], rfl, hwf, hview, rfl, replaces_none (fun a ha => ?_) (by simp)⟩
    rw [view, hfilled.kept rfl a ha]
    rfl
  | some e =>
    obtain ⟨hvalid, hunlocked, hother, hstate, hlines⟩ := hfilled.victim e rfl
    obtain ⟨hwf', hadded, hkept⟩ := addToMSHR_spec ⟨.toDirectory
      (.directoryEvictedFromCoherentCache self), e.address⟩ hwf rfl
    have hfree : (cache.view cfg.geometry e.address).pending = [] :=
      (isAddrInMSHR_eq_false h).mp hunlocked
    have honLine : ∀ f ∈ [Flight.sent (⟨.toDirectory (.directoryEvictedFromCoherentCache self),
        e.address⟩ : AddressCarryingEvent C)],
        f.event.onLine cfg.geometry.blockSizeBits e.address = true ∨
          f.event.request.isCoherent = false := by
      simp [Flight.event, onLine_iff, Request.isCoherent]
    refine ⟨_, [.sent ⟨.toDirectory (.directoryEvictedFromCoherentCache self), e.address⟩], ?_,
      hwf', ?_, ?_, fun a ha => ?_⟩
    · rw [handleEvictedLine, if_neg hvalid, if_neg]
      have hsame : isAddrInMSHR { cache with lines := lines } cfg.geometry e.address =
          cache.isAddrInMSHR cfg.geometry e.address := rfl
      simp [hsame, hunlocked]
    · rw [hkept addr fun hsame => hother hsame.symm, hview]
    · exact lineFlights_other honLine fun hsame => hother hsame.symm
    · by_cases hsame : cfg.geometry.SameLine a e.address
      · -- the line that gives up its way
        right
        have hnone : view { cache with lines := lines } cfg.geometry e.address =
            ⟨.invalid, []⟩ := by
          rw [view, hlines e.address hother, if_pos (Geometry.sameLine_refl _ _)]
          exact congrArg (LineView.mk MESI.invalid) hfree
        rw [view_congr cache hsame, view_congr (addToMSHR _ _ _) hsame, hadded,
          hnone, lineFlights_congr hsame]
        refine ⟨hfree, fun hinvalid => hvalid (hstate.symm.trans hinvalid), rfl, ?_⟩
        exact lineFlights_singleton (onLine_iff.mpr ⟨rfl, rfl⟩)
      · left
        refine ⟨?_, lineFlights_other honLine hsame⟩
        rw [hkept a hsame, view, hlines a ha, if_neg hsame]
        rfl

theorem fillAndSatisfyRequests_spec (self : C) (addr : Address)
    (h : cache.WellFormed cfg.geometry) :
    (∃ e, fillAndSatisfyRequests cfg self cache addr = .error e ∧
      (e = .noLineToFill ∨ (cache.view cfg.geometry addr).complete .shared = none)) ∨
    ∃ cache' flights, fillAndSatisfyRequests cfg self cache addr = .ok (cache', flights) ∧
      cache'.WellFormed cfg.geometry ∧
      (cache.view cfg.geometry addr).complete .shared =
        some (cache'.view cfg.geometry addr,
          lineFlights cfg.geometry.blockSizeBits addr flights) ∧
      Replaces cache cache' cfg.geometry self addr flights := by
  rw [fillAndSatisfyRequests]
  cases hfill : cache.lines.fill cfg.geometry (cache.isAddrInMSHR cfg.geometry) addr .shared with
  | none => exact Or.inl ⟨_, rfl, Or.inl rfl⟩
  | some filled =>
    obtain ⟨lines, evicted⟩ := filled
    obtain ⟨cache₁, evictions, heq₁, hwf₁, hview₁, hline₁, hreplaces⟩ :=
      handleEvictedLine_spec self h (LineArray.fill_spec h.tagged hfill)
    simp only [heq₁]
    have hstate : cache₁.lines.stateAt cfg.geometry addr = .shared :=
      congrArg LineView.state hview₁
    have hcomplete : (cache₁.view cfg.geometry addr).complete .shared =
        (cache.view cfg.geometry addr).complete .shared := by
      rw [hview₁]
      rfl
    rcases processEventsInMSHR_spec self addr hwf₁ with
      ⟨e, heq, hnone⟩ | ⟨cache', flights, heq, hwf, hdone, hothers, honLine⟩
    · rw [hstate, hcomplete] at hnone
      exact Or.inl ⟨e, by simp [heq, bind, Except.bind], Or.inr hnone⟩
    · rw [hstate, hcomplete] at hdone
      refine Or.inr ⟨cache', evictions ++ flights,
        by simp [heq, bind, Except.bind, pure, Except.pure], hwf, ?_, fun a ha => ?_⟩
      · rw [hdone, lineFlights_append, hline₁]
        rfl
      · rw [hothers a ha, lineFlights_append, lineFlights_other honLine ha, List.append_nil]
        exact hreplaces a ha

/-! ### The handlers -/

/-- The last use of a line is noted when it is hit. -/
theorem accessAndMark_spec (addr : Address) (h : cache.WellFormed g) :
    (∃ i lines, cache.lines.accessAndMark g addr = (some i, lines) ∧
      (cache.view g addr).state ≠ .invalid ∧
      (lines.lines i).state = (cache.view g addr).state ∧
      WellFormed { cache with lines := lines } g ∧
      (∀ a, lines.access g a = cache.lines.access g a) ∧
      ∀ a, view { cache with lines := lines } g a = cache.view g a) ∨
    cache.lines.accessAndMark g addr = (none, cache.lines) ∧
      (cache.view g addr).state = .invalid := by
  have hvalid : (cache.lines.accessValid g addr).isSome ↔ (cache.view g addr).state ≠ .invalid :=
    LineArray.accessValid_eq_some_iff
  rw [LineArray.accessAndMark]
  cases hacc : cache.lines.accessValid g addr with
  | none =>
    rw [hacc] at hvalid
    exact Or.inr ⟨rfl, by simpa using hvalid⟩
  | some i =>
    left
    rw [hacc] at hvalid
    obtain ⟨htagged, haccess, hstates⟩ :=
      h.tagged.of_timestamps (LineArray.mark_lines cache.lines i)
    refine ⟨i, _, rfl, hvalid.mp rfl, ?_, ⟨htagged, h.mshr, h.waiting⟩, haccess, fun a => ?_⟩
    · rw [LineArray.accessValid, Option.filter_eq_some_iff] at hacc
      rw [(LineArray.mark_lines cache.lines i i).2.2, view, LineArray.stateAt, hacc.1]
    · rw [view, view, hstates]

/-- Only what a cache knows of its lines matters. -/
theorem Handled.of_views (h : Handled cache₁ g self event cache' flights)
    (hkeep : cache₁.postpones g event = false) (hkeep' : cache.postpones g event = false)
    (hpresent : cache₁.lines.access g event.address = cache.lines.access g event.address)
    (hviews : ∀ a, cache₁.view g a = cache.view g a) :
    Handled cache g self event cache' flights := by
  refine handled_of_received hkeep' h.wellFormed ?_ fun a ha => ?_
  · rw [← hviews, ← hpresent]
    exact h.received hkeep
  · rw [← hviews]
    exact h.others a ha

/-- A request that waits behind the transaction of its line. -/
theorem handled_wait (h : cache.WellFormed g) (hevent : event.request.isCoherent = true)
    (hkeep : cache.postpones g event = false)
    (hreceive : (cache.view g event.address).receive self
      (cache.lines.access g event.address).isSome event.request =
        some ({ cache.view g event.address with
          pending := LineView.enqueue (cache.view g event.address).pending event.request },
          lineFlights g.blockSizeBits event.address flights))
    (hflights : ∀ f ∈ flights, f.event.onLine g.blockSizeBits event.address = true ∨
      f.event.request.isCoherent = false) :
    Handled cache g self event (cache.addToMSHR g event) flights := by
  obtain ⟨hwf, hview, hothers⟩ := addToMSHR_spec event h hevent
  exact handled_of_received hkeep hwf (by rw [hreceive, hview]) (replaces_none hothers hflights)

/-- A request that opens a transaction with the directory. -/
theorem handled_open (through : List (Flight (AddressCarryingEvent C)))
    {req : DirectoryRequest C} (h : cache.WellFormed g) (hevent : event.request.isCoherent = true)
    (hkeep : cache.postpones g event = false)
    (hnil : (cache.view g event.address).pending = [])
    (hthrough : ∀ f ∈ through, f.event.request.isCoherent = false)
    (hreceive : (cache.view g event.address).receive self
      (cache.lines.access g event.address).isSome event.request =
        some (⟨(cache.view g event.address).state, [event.request]⟩,
          [.sent (.toDirectory req)])) :
    Handled cache g self event (cache.addToMSHR g event)
      (through ++ [.sent ⟨.toDirectory req, event.address⟩]) := by
  have hsent : (Flight.sent (⟨.toDirectory req, event.address⟩ :
      AddressCarryingEvent C)).event.onLine g.blockSizeBits event.address = true :=
    onLine_iff.mpr ⟨rfl, rfl⟩
  refine handled_wait h hevent hkeep ?_ fun f hf => ?_
  · rw [hreceive, lineFlights_append, lineFlights_of_not_coherent hthrough,
      lineFlights_singleton hsent, hnil]
    simp [LineView.enqueue, Flight.map]
  · rcases List.mem_append.mp hf with hf | hf
    · exact Or.inr (hthrough f hf)
    · rw [List.mem_singleton.mp hf]
      exact Or.inl hsent

theorem handleCacheRead_spec {c : C} {address : Address} (h : cache.WellFormed cfg.geometry) :
    ∃ cache' flights, handleEvent cfg self cache ⟨.cacheRead c, address⟩ = .ok (cache', flights) ∧
      Handled cache cfg.geometry self ⟨.cacheRead c, address⟩ cache' flights := by
  rw [handleEvent]
  simp only
  split
  · rename_i hlocked
    refine ⟨_, [], rfl, handled_wait h rfl rfl ?_ (by simp)⟩
    rw [LineView.receive, if_pos ((isAddrInMSHR_iff h).mp hlocked)]
    rfl
  · rename_i hfree
    have hnil := (isAddrInMSHR_eq_false h).mp (Bool.not_eq_true _ ▸ hfree)
    rw [handleAccess]
    rcases accessAndMark_spec address h with
      ⟨i, lines, heq, hvalid, -, hwf, -, hview⟩ | ⟨heq, hinvalid⟩
    · rw [heq]
      refine ⟨_, _, rfl, handled_of_received rfl hwf ?_
        (replaces_none (fun a _ => hview a) ?_)⟩
      · rw [LineView.receive, if_neg (not_not.mpr hnil), if_neg hvalid, hview,
          lineFlights_of_not_coherent (by simp [Flight.event, Request.isCoherent])]
      · simp [Flight.event, Request.isCoherent]
    · rw [heq]
      refine ⟨_, [.sent ⟨.toDirectory (.directoryReadMiss self), address⟩], rfl,
        handled_open [] h rfl rfl hnil (by simp) ?_⟩
      rw [LineView.receive, if_neg (not_not.mpr hnil), if_pos hinvalid]

theorem handleCacheWrite_spec {c : C} {address : Address} (h : cache.WellFormed cfg.geometry) :
    ∃ cache' flights, handleEvent cfg self cache ⟨.cacheWrite c, address⟩ =
        .ok (cache', flights) ∧
      Handled cache cfg.geometry self ⟨.cacheWrite c, address⟩ cache' flights := by
  rw [handleEvent]
  simp only
  split
  · rename_i hlocked
    refine ⟨_, [], rfl, handled_wait h rfl rfl ?_ (by simp)⟩
    rw [LineView.receive, if_pos ((isAddrInMSHR_iff h).mp hlocked)]
    rfl
  · rename_i hfree
    have hnil := (isAddrInMSHR_eq_false h).mp (Bool.not_eq_true _ ▸ hfree)
    rw [handleAccess]
    rcases accessAndMark_spec address h with
      ⟨i, lines, heq, hvalid, hstate, hwf, haccess, hview⟩ | ⟨heq, hinvalid⟩
    · have hthrough : ∀ f ∈ (if cfg.writePolicy = .writeThrough then
          [Flight.sent ⟨.writeThrough self, address⟩] else [] :
            List (Flight (AddressCarryingEvent C))), f.event.request.isCoherent = false := by
        split <;> simp [Flight.event, Request.isCoherent]
      rw [heq]
      simp only [if_true, writeHit, hstate]
      by_cases hclean : (cache.view cfg.geometry address).state = .shared ∨
          (cache.view cfg.geometry address).state = .exclusive
      · -- the directory is asked for the right to write
        rw [if_pos hclean]
        refine ⟨_, _, rfl, (handled_open _ hwf rfl rfl ?_ hthrough ?_).of_views rfl rfl
          (haccess address) hview⟩
        · rw [hview]
          exact hnil
        · rw [hview, LineView.receive, if_neg (not_not.mpr hnil), if_neg hvalid, if_neg]
          intro hmodified
          rw [hmodified] at hclean
          rcases hclean with hclean | hclean <;> cases hclean
      · have hmodified : (cache.view cfg.geometry address).state = .modified := by
          cases hs : (cache.view cfg.geometry address).state with
          | modified => rfl
          | exclusive => exact absurd (Or.inr hs) hclean
          | shared => exact absurd (Or.inl hs) hclean
          | invalid => exact absurd hs hvalid
        rw [if_neg hclean]
        refine ⟨_, _, rfl, handled_of_received rfl hwf ?_
          (replaces_none (fun a _ => hview a) fun f hf => Or.inr (hthrough f hf))⟩
        rw [LineView.receive, if_neg (not_not.mpr hnil), if_neg hvalid, if_pos hmodified, hview,
          lineFlights_of_not_coherent hthrough]
    · rw [heq]
      refine ⟨_, [.sent ⟨.toDirectory (.directoryWriteMiss self), address⟩], rfl,
        handled_open [] h rfl rfl hnil (by simp) ?_⟩
      rw [LineView.receive, if_neg (not_not.mpr hnil), if_pos hinvalid]

theorem handleEvictCacheLine_spec {c : C} {address : Address} (h : cache.WellFormed cfg.geometry) :
    ∃ cache' flights, handleEvent cfg self cache ⟨.fromDirectory (.evictCacheLine c), address⟩ =
        .ok (cache', flights) ∧
      Handled cache cfg.geometry self ⟨.fromDirectory (.evictCacheLine c), address⟩ cache'
        flights := by
  rw [handleEvent]
  simp only
  split
  · rename_i hlocked
    refine ⟨_, [], rfl, handled_wait h rfl rfl ?_ (by simp)⟩
    rw [LineView.receive, if_pos ((isAddrInMSHR_iff h).mp hlocked)]
    rfl
  · rename_i hfree
    have hnil := (isAddrInMSHR_eq_false h).mp (Bool.not_eq_true _ ▸ hfree)
    obtain ⟨cache', heq, hwf, -, hview, hothers⟩ := updateState_spec .invalid h (fun _ => hnil)
    rw [heq]
    refine ⟨cache', [], rfl, handled_of_received rfl hwf ?_ (replaces_none hothers (by simp))⟩
    rw [LineView.receive, if_neg (not_not.mpr hnil), hview, LineView.change]
    split
    · rfl
    · rename_i hkeep
      rw [← not_not.mp (not_or.mp hkeep).2]
      rfl

/-- A notice changes the state of a line that has a way. -/
theorem handleNotice_spec (self : C) (event : AddressCarryingEvent C)
    (flights : List (Flight (AddressCarryingEvent C))) {newState : MESI}
    (h : cache.WellFormed cfg.geometry) (hkeep : cache.postpones cfg.geometry event = false)
    (hstate : newState ≠ .invalid)
    (hreceive : ∀ present, (cache.view cfg.geometry event.address).receive self present
      event.request = some ((cache.view cfg.geometry event.address).change present newState,
        lineFlights cfg.geometry.blockSizeBits event.address flights))
    (hflights : ∀ f ∈ flights, f.event.onLine cfg.geometry.blockSizeBits event.address = true ∨
      f.event.request.isCoherent = false) :
    ∃ cache', cache.updateStateOfCacheLine cfg.geometry event.address newState = .ok cache' ∧
      Handled cache cfg.geometry self event cache' flights := by
  obtain ⟨cache', heq, hwf, -, hview, hothers⟩ :=
    updateState_spec newState h (fun hinvalid => absurd hinvalid hstate)
  refine ⟨cache', heq, handled_of_received hkeep hwf ?_ (replaces_none hothers hflights)⟩
  rw [hreceive, hview]

/-- The transaction of the line of an event ends. -/
theorem handleCompletion_spec (self : C) (event : AddressCarryingEvent C)
    (h : cache.WellFormed cfg.geometry) (hkeep : cache.postpones cfg.geometry event = false)
    (hreceive : (cache.view cfg.geometry event.address).receive self
      (cache.lines.access cfg.geometry event.address).isSome event.request =
        (cache.view cfg.geometry event.address).complete
          (cache.view cfg.geometry event.address).state) :
    (∃ e, processEventsInMSHR cfg self cache event.address = .error e ∧
      (cache.view cfg.geometry event.address).receive self
        (cache.lines.access cfg.geometry event.address).isSome event.request = none) ∨
    ∃ cache' flights, processEventsInMSHR cfg self cache event.address = .ok (cache', flights) ∧
      Handled cache cfg.geometry self event cache' flights := by
  rcases processEventsInMSHR_spec self event.address h with
    ⟨e, heq, hnone⟩ | ⟨cache', flights, heq, hwf, hdone, hothers, honLine⟩
  · exact Or.inl ⟨e, heq, hreceive.trans hnone⟩
  · exact Or.inr ⟨cache', flights, heq, handled_of_received hkeep hwf (hreceive.trans hdone)
      (replaces_none hothers honLine)⟩

theorem handleMemResponse_spec (self : C) (h : cache.WellFormed cfg.geometry)
    (hresponse : (∃ source c, event.request = .memResponse source c) ∨
      ∃ c, event.request = .fromDirectory (.memResponse c)) :
    (∃ e, handleMemResponse cfg self cache event = .error e ∧ (e = .noLineToFill ∨
      (cache.view cfg.geometry event.address).receive self
        (cache.lines.access cfg.geometry event.address).isSome event.request = none)) ∨
    ∃ cache' flights, handleMemResponse cfg self cache event = .ok (cache', flights) ∧
      Handled cache cfg.geometry self event cache' flights := by
  have hreceive : (cache.view cfg.geometry event.address).receive self
      (cache.lines.access cfg.geometry event.address).isSome event.request =
        (cache.view cfg.geometry event.address).complete .shared := by
    rcases hresponse with ⟨source, c, hr⟩ | ⟨c, hr⟩ <;> rw [hr] <;> rfl
  have hpostpones : cache.postpones cfg.geometry event =
      !cache.lines.isThereAnUnlockedOrInvalidEntryInCacheSet cfg.geometry
        (cache.isAddrInMSHR cfg.geometry) event.address := by
    rcases hresponse with ⟨source, c, hr⟩ | ⟨c, hr⟩ <;> simp only [postpones, hr]
  rw [handleMemResponse]
  split
  · rename_i hfree
    have hkeep : cache.postpones cfg.geometry event = false := by rw [hpostpones, hfree]; rfl
    rcases fillAndSatisfyRequests_spec self event.address h with
      ⟨e, heq, hfail⟩ | ⟨cache', flights, heq, hwf, hdone, hreplaces⟩
    · exact Or.inl ⟨e, heq, hfail.imp_right hreceive.trans⟩
    · exact Or.inr ⟨cache', flights, heq,
        handled_of_received hkeep hwf (hreceive.trans hdone) hreplaces⟩
  · -- no line may be used yet
    rename_i hfull
    have hkeep : cache.postpones cfg.geometry event = true := by
      rw [hpostpones, Bool.eq_false_of_not_eq_true hfull]
      rfl
    refine Or.inr ⟨cache, [.queued event], rfl, h, fun hno => ?_, fun _ => ⟨rfl, rfl⟩,
      replaces_none (fun _ _ => rfl) fun f hf => ?_⟩
    · rw [hkeep] at hno
      cases hno
    · rw [List.mem_singleton.mp hf]
      refine Or.inl (onLine_iff.mpr ⟨rfl, ?_⟩)
      rcases hresponse with ⟨source, c, hr⟩ | ⟨c, hr⟩ <;> rw [Flight.event, hr] <;> rfl

theorem handleAckDirectoryWriteHit_spec {c : C} {address : Address}
    (h : cache.WellFormed cfg.geometry) :
    (∃ e, handleEvent cfg self cache ⟨.fromDirectory (.ackDirectoryWriteHit c), address⟩ =
        .error e ∧
      (cache.view cfg.geometry address).receive self
        (cache.lines.access cfg.geometry address).isSome
        (.fromDirectory (.ackDirectoryWriteHit c)) = none) ∨
    ∃ cache' flights, handleEvent cfg self cache
        ⟨.fromDirectory (.ackDirectoryWriteHit c), address⟩ = .ok (cache', flights) ∧
      Handled cache cfg.geometry self ⟨.fromDirectory (.ackDirectoryWriteHit c), address⟩ cache'
        flights := by
  have hvalid : (cache.lines.accessValid cfg.geometry address).isSome ↔
      (cache.view cfg.geometry address).state ≠ .invalid := LineArray.accessValid_eq_some_iff
  rw [handleEvent]
  simp only [handleAckDirectoryWriteHit]
  cases hacc : cache.lines.accessValid cfg.geometry address with
  | none =>
    rw [hacc] at hvalid
    exact Or.inl ⟨_, rfl, by rw [LineView.receive, if_pos (by simpa using hvalid)]⟩
  | some i =>
    rw [hacc] at hvalid
    exact handleCompletion_spec self ⟨.fromDirectory (.ackDirectoryWriteHit c), address⟩ h rfl
      (by rw [LineView.receive, if_neg (hvalid.mp rfl)])

/-- A cache that handles an event does to its line what the protocol says, puts the event
back, or takes an exit: that of a full set, or one that the protocol takes as well. -/
theorem handleEvent_spec (h : cache.WellFormed cfg.geometry)
    (hchannel : event.request.channel.2 = .cache self) :
    (∃ e, handleEvent cfg self cache event = .error e ∧ (e = .noLineToFill ∨
      (cache.view cfg.geometry event.address).receive self
        (cache.lines.access cfg.geometry event.address).isSome event.request = none)) ∨
    ∃ cache' flights, handleEvent cfg self cache event = .ok (cache', flights) ∧
      Handled cache cfg.geometry self event cache' flights := by
  obtain ⟨request, address⟩ := event
  match request with
  | .cacheRead c => exact Or.inr (handleCacheRead_spec h)
  | .cacheWrite c => exact Or.inr (handleCacheWrite_spec h)
  | .memResponse source c => exact handleMemResponse_spec self h (Or.inl ⟨source, c, rfl⟩)
  | .toDirectory req => cases req <;> cases hchannel
  | .fromDirectory (.evictCacheLine c) => exact Or.inr (handleEvictCacheLine_spec h)
  | .fromDirectory (.ackEvictCacheLine c) =>
    exact (handleCompletion_spec self ⟨.fromDirectory (.ackEvictCacheLine c), address⟩ h rfl
      rfl).imp_left fun ⟨e, heq, hnone⟩ => ⟨e, heq, Or.inr hnone⟩
  | .fromDirectory (.ackDirectoryWriteHit c) =>
    exact (handleAckDirectoryWriteHit_spec h).imp_left
      fun ⟨e, heq, hnone⟩ => ⟨e, heq, Or.inr hnone⟩
  | .fromDirectory (.memResponse c) => exact handleMemResponse_spec self h (Or.inr ⟨c, rfl⟩)
  | .fromDirectory (.directoryCachelineForwardRequest o d) =>
    cases hchannel
    have hsent : (Flight.sent (⟨.memResponse (some self) d, address⟩ :
        AddressCarryingEvent C)).event.onLine cfg.geometry.blockSizeBits address = true :=
      onLine_iff.mpr ⟨rfl, rfl⟩
    obtain ⟨cache', heq, hhandled⟩ := handleNotice_spec self
      ⟨.fromDirectory (.directoryCachelineForwardRequest self d), address⟩
      [.sent ⟨.memResponse (some self) d, address⟩] h rfl
      (show MESI.shared ≠ .invalid by decide)
      (fun present => by rw [lineFlights_singleton hsent]; rfl)
      (fun f hf => Or.inl (by rw [List.mem_singleton.mp hf]; exact hsent))
    refine Or.inr ⟨cache', _, ?_, hhandled⟩
    simp only [handleEvent, handleDirectoryCachelineForwardRequest, heq]
    rfl
  | .fromDirectory (.directorySharedToExclusive c) =>
    obtain ⟨cache', heq, hhandled⟩ := handleNotice_spec self
      ⟨.fromDirectory (.directorySharedToExclusive c), address⟩ [] h rfl
      (show MESI.exclusive ≠ .invalid by decide) (fun present => rfl) (by simp)
    refine Or.inr ⟨cache', _, ?_, hhandled⟩
    simp only [handleEvent, heq]
    rfl
  | .fromDirectory (.cacheRead c) => cases hchannel
  | .writeThrough c => cases hchannel
  | .acknowledgement c => cases hchannel

end Tejas.Cache
