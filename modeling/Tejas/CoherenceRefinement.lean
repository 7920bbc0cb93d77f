import Tejas.CacheProtocol
import Tejas.CoherenceSystem

/-!
# The system follows the protocol of each line

Seen from one line, every step of the system is a step of the protocol of that line or no
step at all.
-/

namespace Tejas

variable {C : Type}

namespace CoherenceSystem

variable {cfg : CoherenceConfig C} {s t : CoherenceSystem C} {event : AddressCarryingEvent C}
  {addr a : Address} {label : CoherenceLabel C}

/-- The system as the line of an address sees it. -/
def line (cfg : CoherenceConfig C) (s : CoherenceSystem C) (addr : Address) : LineState C where
  views c := (s.caches c).view (cfg.cache c).geometry addr
  entry := s.directory.entryAt cfg.directory addr
  inFlight := lineFlights cfg.directory.blockSizeBits addr s.inFlight

structure WellFormed (cfg : CoherenceConfig C) (s : CoherenceSystem C) : Prop where
  caches : ∀ c, (s.caches c).WellFormed (cfg.cache c).geometry
  directory : s.directory.Ordered cfg.directory

theorem wellFormed_new : (new : CoherenceSystem C).WellFormed cfg :=
  ⟨fun _ => Cache.wellFormed_new, Directory.ordered_new _⟩

theorem line_new : (new : CoherenceSystem C).line cfg addr = LineState.initial := by
  have hview : ∀ c : C, (Cache.new : Cache C).view (cfg.cache c).geometry addr =
      ⟨.invalid, []⟩ := by
    intro c
    have hstate : (LineArray.new fun _ => ()).stateAt (cfg.cache c).geometry addr =
        .invalid := by
      rw [LineArray.stateAt]
      split <;> rfl
    rw [Cache.view, Cache.new, hstate]
    rfl
  have hentry : (Directory.new : Directory C).entryAt cfg.directory addr = ⟨.invalid, []⟩ := by
    rw [Directory.entryAt]
    split <;> rfl
  rw [line, LineState.initial]
  simp only [new, hview, hentry, lineFlights_nil]

/-- Lines are the same to a cache and to the directory. -/
theorem sameLine_cache (c : C) :
    (cfg.cache c).geometry.SameLine a addr ↔ cfg.directory.SameLine a addr := by
  rw [Geometry.SameLine, Geometry.SameLine, cfg.sameBlocks]

theorem line_congr (h : cfg.directory.SameLine a addr) : s.line cfg a = s.line cfg addr := by
  have hviews : ∀ c, (s.caches c).view (cfg.cache c).geometry a =
      (s.caches c).view (cfg.cache c).geometry addr := fun c =>
    Cache.view_congr _ ((sameLine_cache c).mpr h)
  simp only [line, hviews, Directory.entryAt_congr h, lineFlights_congr h]

theorem response_of_postpones {cache : Cache C} {g : Geometry}
    (h : cache.postpones g event = true) :
    (∃ source c, event.request = .memResponse source c) ∨
      ∃ c, event.request = .fromDirectory (.memResponse c) := by
  rw [Cache.postpones] at h
  split at h
  · rename_i source c hr
    exact Or.inl ⟨source, c, hr⟩
  · rename_i c hr
    exact Or.inr ⟨c, hr⟩
  · cases h

/-- What the directory sends to the caches of a line. -/
theorem lineFlights_replies (b : ℕ) (sent : List (Address × Reply C)) :
    lineFlights b addr (sent.map (fun reply => .sent ⟨.fromDirectory reply.2, reply.1⟩)) =
      (sent.filter (fun reply => getLineAddr b reply.1 = getLineAddr b addr)).map
        (fun reply => .sent (.fromDirectory reply.2)) := by
  induction sent with
  | nil => rfl
  | cons reply rest ih =>
    rw [List.map_cons, lineFlights_cons, ih, List.filter_cons]
    by_cases hline : getLineAddr b reply.1 = getLineAddr b addr
    · simp [Flight.event, onLine_iff, hline, Request.isCoherent, Flight.map]
    · simp [Flight.event, onLine_iff, hline]

variable [DecidableEq C]

/-- What the arrival of an event means to a line: the protocol receives the request, or a
cache puts the response back, or the line only loses its way or its entry, if anything. -/
inductive Follows (cfg : CoherenceConfig C) (s : CoherenceSystem C)
    (event : AddressCarryingEvent C) (t : CoherenceSystem C) (addr : Address) : Prop where
  | received (present : Bool) (own : event.onLine cfg.directory.blockSizeBits addr = true)
      (atCache : ∀ c, event.request.channel.2 = .cache c →
        (s.caches c).postpones (cfg.cache c).geometry event = false ∧
          present = ((s.caches c).lines.access (cfg.cache c).geometry event.address).isSome)
      (step : (s.line cfg addr).receive present event.request = some (t.line cfg addr))
  | postponed (own : event.onLine cfg.directory.blockSizeBits addr = true)
      (response : (∃ source c, event.request = .memResponse source c) ∨
        ∃ c, event.request = .fromDirectory (.memResponse c))
      (step : t.line cfg addr = { s.line cfg addr with
        inFlight := (s.line cfg addr).inFlight ++ [.queued event.request] })
  | replacedLine (other : event.onLine cfg.directory.blockSizeBits addr = false) (c : C)
      (step : LineState.Step (s.line cfg addr) (.replaceLine c) (t.line cfg addr))
  | replacedEntry (other : event.onLine cfg.directory.blockSizeBits addr = false)
      (step : LineState.Step (s.line cfg addr) .replaceEntry (t.line cfg addr))
  | same (other : event.onLine cfg.directory.blockSizeBits addr = false)
      (step : t.line cfg addr = s.line cfg addr)

/-- The line after a cache has handled an event. -/
theorem line_update {c : C} {cache : Cache C} {flights : List (Flight (AddressCarryingEvent C))} :
    line cfg { s with caches := Function.update s.caches c cache
                      inFlight := s.inFlight ++ flights } addr =
      (s.line cfg addr).setView c (cache.view (cfg.cache c).geometry addr)
        (lineFlights cfg.directory.blockSizeBits addr flights) := by
  have hviews : (fun o => (Function.update s.caches c cache o).view (cfg.cache o).geometry addr) =
      Function.update (fun o => (s.caches o).view (cfg.cache o).geometry addr) c
        (cache.view (cfg.cache c).geometry addr) := by
    funext o
    by_cases ho : o = c
    · subst ho
      simp
    · simp [ho]
  simp only [line, LineState.setView, hviews, lineFlights_append]

/-- A cache that handles an event follows the protocol on every line. -/
theorem follows_handled {c : C} {cache : Cache C}
    {flights : List (Flight (AddressCarryingEvent C))}
    (hchannel : event.request.channel.2 = .cache c)
    (hcoherent : event.request.isCoherent = true)
    (h : Cache.Handled (s.caches c) (cfg.cache c).geometry c event cache flights) :
    Follows cfg s event { s with caches := Function.update s.caches c cache
                                 inFlight := s.inFlight ++ flights } addr := by
  have hflights : ∀ x, lineFlights (cfg.cache c).geometry.blockSizeBits x flights =
      lineFlights cfg.directory.blockSizeBits x flights := fun x => by rw [cfg.sameBlocks]
  by_cases hsame : cfg.directory.SameLine event.address addr
  · have hown : event.onLine cfg.directory.blockSizeBits addr = true :=
      onLine_iff.mpr ⟨hsame, hcoherent⟩
    cases hpost : (s.caches c).postpones (cfg.cache c).geometry event with
    | false =>
      refine .received ((s.caches c).lines.access (cfg.cache c).geometry event.address).isSome
        hown (fun o ho => ?_) ?_
      · rw [hchannel] at ho
        cases ho
        exact ⟨hpost, rfl⟩
      · have hreceived := h.received hpost
        rw [hflights] at hreceived
        rw [LineState.receive_of_cache hchannel, line_update, ← line_congr hsame,
          ← Cache.view_congr cache ((sameLine_cache c).mpr hsame), ← lineFlights_congr hsame]
        exact congrArg (Option.map _) hreceived
    | true =>
      obtain ⟨rfl, rfl⟩ := h.postponed hpost
      refine .postponed hown (response_of_postpones hpost) ?_
      rw [line_update, LineState.setView, lineFlights_singleton (f := .queued event) hown]
      have hviews : Function.update (s.line cfg addr).views c
          ((s.caches c).view (cfg.cache c).geometry addr) = (s.line cfg addr).views :=
        Function.update_eq_self c _
      rw [hviews]
      rfl
  · have hother : event.onLine cfg.directory.blockSizeBits addr = false := by
      rw [← Bool.not_eq_true, onLine_iff]
      exact fun hon => hsame hon.1
    have hne : ¬ (cfg.cache c).geometry.SameLine addr event.address := fun heq =>
      hsame ((sameLine_cache c).mp heq).symm
    rcases h.others addr hne with ⟨hview, hline⟩ | ⟨hpending, hstate, hview, hline⟩
    · rw [hflights] at hline
      refine .same hother ?_
      rw [line_update, hview, hline, LineState.setView, List.append_nil]
      have hviews : Function.update (s.line cfg addr).views c
          ((s.caches c).view (cfg.cache c).geometry addr) = (s.line cfg addr).views :=
        Function.update_eq_self c _
      rw [hviews]
    · rw [hflights] at hline
      refine .replacedLine hother c ⟨hpending, hstate, ?_⟩
      rw [line_update, hview, hline]

/-- The directory follows the protocol on every line. -/
theorem follows_directory {req : DirectoryRequest C} {address : Address}
    (h : s.directory.Ordered cfg.directory) :
    ∃ t, s.receive cfg ⟨.toDirectory req, address⟩ = .ok t ∧ t.caches = s.caches ∧
      t.directory.Ordered cfg.directory ∧
      ∀ addr, Follows cfg s ⟨.toDirectory req, address⟩ t addr := by
  obtain ⟨d', sent, replies, addr', heq, hordered, hsame', hhandle, hreplaced⟩ :=
    Directory.handleEvent_spec h req address
  have hreceive : s.receive cfg ⟨.toDirectory req, address⟩ = .ok { s with
      directory := d'
      inFlight := s.inFlight ++ (sent ++ replies.map (fun r => (addr', r))).map
        (fun reply => .sent ⟨.fromDirectory reply.2, reply.1⟩) } := by
    cases req <;> simp only [receive, Request.channel, heq]
  refine ⟨_, hreceive, rfl, hordered, fun addr => ?_⟩
  have hflights : lineFlights cfg.directory.blockSizeBits addr
      ((sent ++ replies.map (fun r => (addr', r))).map
        (fun reply => .sent ⟨.fromDirectory reply.2, reply.1⟩)) =
      (sent.filter (fun reply => cfg.directory.SameLine reply.1 addr)).map
          (fun reply => .sent (.fromDirectory reply.2)) ++
        if cfg.directory.SameLine address addr then
          replies.map (fun reply => .sent (.fromDirectory reply)) else [] := by
    have hreplies : (replies.map (fun r => (addr', r))).filter
        (fun reply => cfg.directory.SameLine reply.1 addr) =
        if cfg.directory.SameLine address addr then replies.map (fun r => (addr', r)) else [] := by
      have hline : cfg.directory.SameLine addr' addr ↔ cfg.directory.SameLine address addr :=
        ⟨fun hx => hsame'.symm.trans hx, fun hx => hsame'.trans hx⟩
      split
      · rename_i hx
        simp [List.filter_map, Function.comp_def, hline, hx]
      · rename_i hx
        simp [List.filter_map, Function.comp_def, hline, hx]
    rw [lineFlights_replies, List.filter_append, List.map_append]
    refine congrArg _ ?_
    have := congrArg (List.map fun reply : Address × Reply C =>
      Flight.sent (Request.fromDirectory reply.2)) hreplies
    refine this.trans ?_
    split <;> simp
  by_cases hsame : cfg.directory.SameLine address addr
  · -- the entry of the request
    have hown : AddressCarryingEvent.onLine cfg.directory.blockSizeBits addr
        (⟨.toDirectory req, address⟩ : AddressCarryingEvent C) = true :=
      onLine_iff.mpr ⟨hsame, rfl⟩
    have hsent : sent.filter (fun reply => cfg.directory.SameLine reply.1 addr) = [] := by
      rcases hreplaced with ⟨rfl, -⟩ | ⟨victim, hne, rfl, -⟩
      · rfl
      · rw [List.filter_eq_nil_iff]
        intro reply hreply
        obtain ⟨c, -, rfl⟩ := List.mem_map.mp hreply
        simpa using fun hx => hne (Geometry.SameLine.trans hx hsame.symm)
    rw [hsent, if_pos hsame] at hflights
    refine .received false hown (fun c hc => by cases req <;> cases hc) ?_
    rw [← line_congr hsame]
    rw [LineState.receive_toDirectory (s := s.line cfg address) hhandle, line_congr hsame]
    simp only [line, lineFlights_append, hflights, Directory.entryAt_congr hsame, List.map_nil,
      List.nil_append]
  · have hother : AddressCarryingEvent.onLine cfg.directory.blockSizeBits addr
        (⟨.toDirectory req, address⟩ : AddressCarryingEvent C) = false := by
      rw [← Bool.not_eq_true, onLine_iff]
      exact fun hon => hsame hon.1
    have hne : ¬ cfg.directory.SameLine addr address := fun hx => hsame hx.symm
    rw [if_neg hsame, List.append_nil] at hflights
    rcases hreplaced with ⟨rfl, hkept⟩ | ⟨victim, -, rfl, hkept⟩
    · refine .same hother ?_
      simp only [line, lineFlights_append, hflights, hkept addr hne, List.filter_nil,
        List.map_nil, List.append_nil]
    · by_cases hvictim : cfg.directory.SameLine addr victim
      · -- the entry that is thrown out
        refine .replacedEntry hother ?_
        have hall : ∀ xs : List C, (xs.map (fun c => (victim, Reply.evictCacheLine c))).filter
            (fun reply => cfg.directory.SameLine reply.1 addr) =
            xs.map (fun c => (victim, Reply.evictCacheLine c)) := fun xs => by
          simp [List.filter_map, Function.comp_def, hvictim.symm]
        rw [hall] at hflights
        simp only [LineState.Step, line, lineFlights_append, hflights, hkept addr hne,
          if_pos hvictim, Directory.entryAt_congr hvictim, List.map_map, Function.comp_def]
      · refine .same hother ?_
        have hnone : ∀ xs : List C, (xs.map (fun c => (victim, Reply.evictCacheLine c))).filter
            (fun reply => cfg.directory.SameLine reply.1 addr) = [] := fun xs => by
          have hx : ¬ cfg.directory.SameLine victim addr := fun hx => hvictim hx.symm
          simp [List.filter_map, Function.comp_def, hx]
        rw [hnone] at hflights
        simp only [line, lineFlights_append, hflights, hkept addr hne, if_neg hvictim,
          List.map_nil, List.append_nil]

/-- A cache handles what is addressed to it. -/
theorem receive_of_cache (s : CoherenceSystem C) (cfg : CoherenceConfig C)
    {event : AddressCarryingEvent C}
    (hchannel : event.request.channel.2 = .cache c) :
    s.receive cfg event =
      match (s.caches c).handleEvent (cfg.cache c) c event with
      | .ok (cache, flights) => .ok { s with
          caches := Function.update s.caches c cache
          inFlight := s.inFlight ++ flights }
      | .error exit => .error (.cache c exit) := by
  have hdef := receive.eq_def cfg s event
  rw [hchannel] at hdef
  exact hdef

/-- What arrives is received as the protocol says on every line, or leads to an exit: that
of a full set, or one that the protocol takes as well. -/
theorem receive_spec (h : s.WellFormed cfg) (event : AddressCarryingEvent C) :
    (∃ exit, s.receive cfg event = .error exit ∧ ((∃ c, exit = .cache c .noLineToFill) ∨
      ∃ present, (s.line cfg event.address).receive present event.request = none)) ∨
    ∃ t, s.receive cfg event = .ok t ∧ t.WellFormed cfg ∧ ∀ addr, Follows cfg s event t addr := by
  rcases event.request.receiver_cases with ⟨c, hchannel⟩ | ⟨req, hr⟩ | ⟨c, hr⟩ | ⟨c, hr⟩ | ⟨c, hr⟩
  · have hcoherent : event.request.isCoherent = true := by
      cases hr : event.request <;> first | rfl | (rw [hr] at hchannel; cases hchannel)
    have hreceive := s.receive_of_cache cfg hchannel
    rcases Cache.handleEvent_spec (h.caches c) hchannel with
      ⟨e, heq, hfail⟩ | ⟨cache, flights, heq, hhandled⟩
    · rw [heq] at hreceive
      refine Or.inl ⟨_, hreceive, ?_⟩
      rcases hfail with rfl | hnone
      · exact Or.inl ⟨c, rfl⟩
      · refine Or.inr
          ⟨((s.caches c).lines.access (cfg.cache c).geometry event.address).isSome, ?_⟩
        rw [LineState.receive_of_cache hchannel]
        exact congrArg (Option.map _) hnone
    · rw [heq] at hreceive
      refine Or.inr ⟨_, hreceive, ⟨fun o => ?_, h.directory⟩, fun addr =>
        follows_handled hchannel hcoherent hhandled⟩
      by_cases ho : o = c
      · subst ho
        simpa using hhandled.wellFormed
      · simpa [ho] using h.caches o
  · obtain ⟨request, address⟩ := event
    cases hr
    obtain ⟨t, heq, hcaches, hordered, hfollows⟩ := follows_directory h.directory
    exact Or.inr ⟨t, heq, ⟨fun c => by rw [hcaches]; exact h.caches c, hordered⟩, hfollows⟩
  · -- the next level answers
    obtain ⟨request, address⟩ := event
    cases hr
    refine Or.inr ⟨_, rfl, ⟨h.caches, h.directory⟩, fun addr => ?_⟩
    by_cases hsame : cfg.directory.SameLine address addr
    · refine .received false (onLine_iff.mpr ⟨hsame, rfl⟩) (fun o ho => by cases ho) ?_
      have hsent : (Flight.sent (⟨.memResponse none c, address⟩ :
          AddressCarryingEvent C)).event.onLine cfg.directory.blockSizeBits addr = true :=
        onLine_iff.mpr ⟨hsame, rfl⟩
      simp only [line, lineFlights_append, lineFlights_singleton hsent]
      rfl
    · have hother : AddressCarryingEvent.onLine cfg.directory.blockSizeBits addr
          (⟨.fromDirectory (.cacheRead c), address⟩ : AddressCarryingEvent C) = false := by
        rw [← Bool.not_eq_true, onLine_iff]
        exact fun hon => hsame hon.1
      have hsent : ∀ f ∈ [Flight.sent (⟨.memResponse none c, address⟩ : AddressCarryingEvent C)],
          f.event.onLine cfg.directory.blockSizeBits address = true ∨
            f.event.request.isCoherent = false := by
        simp [Flight.event, onLine_iff, Request.isCoherent]
      refine .same hother ?_
      simp only [line, lineFlights_append, lineFlights_other hsent fun hx => hsame (Eq.symm hx),
        List.append_nil]
  all_goals
    obtain ⟨request, address⟩ := event
    cases hr
    refine Or.inr ⟨s, rfl, h, fun addr => .same ?_ rfl⟩
    simp [AddressCarryingEvent.onLine, Request.isCoherent]

/-! ### Steps of the system and of a line -/

omit [DecidableEq C] in
theorem receive_accessRequest {v : LineView C} {c c' : C} {isWrite present present' : Bool} :
    v.receive c present (LineState.accessRequest c' isWrite) =
      v.receive c present' (LineState.accessRequest c' isWrite) := by
  cases isWrite <;> rfl

/-- What a step of the system is to a line. -/
inductive LineStep (cfg : CoherenceConfig C) (s : CoherenceSystem C) (label : CoherenceLabel C)
    (t : CoherenceSystem C) (addr : Address) : Prop where
  | same (step : t.line cfg addr = s.line cfg addr)
  | silent (lineLabel : LineLabel C) (notDelivery : lineLabel.isDelivery = false)
      (step : LineState.Step (s.line cfg addr) lineLabel (t.line cfg addr))
  | delivered (position : ℕ) (flight : Flight (AddressCarryingEvent C)) (present : Bool)
      (isLabel : label = .deliver position) (isFlight : s.inFlight[position]? = some flight)
      (own : flight.event.onLine cfg.directory.blockSizeBits addr = true)
      (atCache : ∀ c, flight.event.request.channel.2 = .cache c →
        (s.caches c).postpones (cfg.cache c).geometry flight.event = false ∧ present =
          ((s.caches c).lines.access (cfg.cache c).geometry flight.event.address).isSome)
      (step : LineState.Step (s.line cfg addr)
        (.deliver (lineFlights cfg.directory.blockSizeBits addr (s.inFlight.take position))
          (flight.map AddressCarryingEvent.request)
          (lineFlights cfg.directory.blockSizeBits addr (s.inFlight.drop (position + 1))) present)
        (t.line cfg addr))

omit [DecidableEq C] in
theorem event_map (flight : Flight (AddressCarryingEvent C)) :
    (flight.map AddressCarryingEvent.request).event = flight.event.request := by
  cases flight <;> rfl

omit [DecidableEq C] in
/-- The flights of a line around a position. -/
theorem line_inFlight (cfg : CoherenceConfig C) (addr : Address) {position : ℕ}
    {flight : Flight (AddressCarryingEvent C)}
    (h : s.inFlight[position]? = some flight) : (s.line cfg addr).inFlight =
      lineFlights cfg.directory.blockSizeBits addr (s.inFlight.take position) ++
        ((if flight.event.onLine cfg.directory.blockSizeBits addr then
          [flight.map AddressCarryingEvent.request] else []) ++
        lineFlights cfg.directory.blockSizeBits addr (s.inFlight.drop (position + 1))) := by
  obtain ⟨hlt, hget⟩ := List.getElem?_eq_some_iff.mp h
  have hsplit : s.inFlight =
      s.inFlight.take position ++ flight :: s.inFlight.drop (position + 1) := by
    rw [← hget, List.getElem_cons_drop, List.take_append_drop]
  rw [← lineFlights_cons, ← lineFlights_append, ← hsplit]
  rfl

omit [DecidableEq C] in
theorem line_eraseIdx {position : ℕ} : line cfg { s with
      inFlight := s.inFlight.eraseIdx position } addr = { s.line cfg addr with
      inFlight := lineFlights cfg.directory.blockSizeBits addr (s.inFlight.take position) ++
        lineFlights cfg.directory.blockSizeBits addr (s.inFlight.drop (position + 1)) } := by
  simp only [line, List.eraseIdx_eq_take_drop_succ, lineFlights_append]

omit [DecidableEq C] in
/-- A line does not see the flights of others. -/
theorem line_eraseIdx_other {position : ℕ} {flight : Flight (AddressCarryingEvent C)}
    (h : s.inFlight[position]? = some flight)
    (hother : flight.event.onLine cfg.directory.blockSizeBits addr = false) :
    line cfg { s with inFlight := s.inFlight.eraseIdx position } addr = s.line cfg addr := by
  have hsplit := line_inFlight cfg addr h
  simp only [hother, Bool.false_eq_true, if_false, List.nil_append] at hsplit
  rw [line_eraseIdx, ← hsplit]

theorem step_spec (h : s.WellFormed cfg) (hstep : s.Step cfg label t) :
    t.WellFormed cfg ∧ ∀ addr, LineStep cfg s label t addr := by
  cases label with
  | access c isWrite address =>
    have hrequest : (if isWrite then Request.cacheWrite c else .cacheRead c) =
        LineState.accessRequest c isWrite := rfl
    have hreceive : s.receive cfg ⟨LineState.accessRequest c isWrite, address⟩ = .ok t := hstep
    rcases receive_spec h ⟨LineState.accessRequest c isWrite, address⟩ with
      ⟨exit, heq, -⟩ | ⟨t', heq, hwf, hfollows⟩
    · rw [heq] at hreceive
      cases hreceive
    · cases heq.symm.trans hreceive
      refine ⟨hwf, fun addr => ?_⟩
      cases hfollows addr with
      | received present own atCache step =>
        refine .silent (.access c isWrite) rfl ?_
        have hchannel : (LineState.accessRequest c isWrite).channel.2 = .cache c := by
          cases isWrite <;> rfl
        rw [LineState.receive_of_cache hchannel] at step
        rw [LineState.Step, LineState.receive_of_cache hchannel, ← step, receive_accessRequest]
      | postponed own response step =>
        exfalso
        rcases response with ⟨_, _, hr⟩ | ⟨_, hr⟩ <;> cases isWrite <;> cases hr
      | replacedLine other o step => exact .silent (.replaceLine o) rfl step
      | replacedEntry other step => exact .silent .replaceEntry rfl step
      | same other step => exact .same step
  | evictShared address =>
    cases hstep
    refine ⟨⟨h.caches, h.directory⟩, fun addr => ?_⟩
    by_cases hsame : cfg.directory.SameLine address addr
    · have hsent : (Flight.sent (⟨.toDirectory .directoryEvictedFromSharedCache, address⟩ :
          AddressCarryingEvent C)).event.onLine cfg.directory.blockSizeBits addr = true :=
        onLine_iff.mpr ⟨hsame, rfl⟩
      refine .silent .evictShared rfl ?_
      simp only [LineState.Step, line, lineFlights_append, lineFlights_singleton hsent]
      rfl
    · have hsent : ∀ f ∈ [Flight.sent (⟨.toDirectory .directoryEvictedFromSharedCache, address⟩ :
          AddressCarryingEvent C)], f.event.onLine cfg.directory.blockSizeBits address = true ∨
            f.event.request.isCoherent = false := by
        simp [Flight.event, onLine_iff, Request.isCoherent]
      refine .same ?_
      simp only [line, lineFlights_append, lineFlights_other hsent fun hx => hsame (Eq.symm hx),
        List.append_nil]
  | deliver position =>
    rw [Step, next] at hstep
    split at hstep
    · rename_i flight hflight
      have hwf : WellFormed cfg { s with inFlight := s.inFlight.eraseIdx position } :=
        ⟨h.caches, h.directory⟩
      rcases receive_spec hwf flight.event with ⟨exit, heq, -⟩ | ⟨t', heq, hwf', hfollows⟩
      · rw [heq] at hstep
        cases hstep
      · cases heq.symm.trans hstep
        refine ⟨hwf', fun addr => ?_⟩
        have hsplit := line_inFlight cfg addr hflight
        cases hfollows addr with
        | received present own atCache step =>
          rw [if_pos own] at hsplit
          refine .delivered position flight present rfl hflight own atCache ⟨hsplit, ?_⟩
          rw [line_eraseIdx] at step
          rw [event_map]
          exact step
        | postponed own response step =>
          rw [if_pos own] at hsplit
          refine .silent (.postpone _ (flight.map AddressCarryingEvent.request) _) rfl
            ⟨hsplit, ?_, ?_⟩
          · rw [step, line_eraseIdx, event_map]
            rfl
          · rw [event_map]
            exact response
        | replacedLine other o step =>
          rw [line_eraseIdx_other hflight other] at step
          exact .silent (.replaceLine o) rfl step
        | replacedEntry other step =>
          rw [line_eraseIdx_other hflight other] at step
          exact .silent .replaceEntry rfl step
        | same other step => exact .same (step.trans (line_eraseIdx_other hflight other))
    · cases hstep

end CoherenceSystem

end Tejas
