import Tejas.DNucaTracking

/-!
# Requests keep track of the lines

A request joins the list of its line, hits, or opens the list and is broadcast. The loop
over the requests that wait for a free register handles some of them one by one.
-/

namespace Tejas.NucaState
open LabelledRuns

variable {cfg : NucaConfig} {s t : NucaState} {e e' : NucaRequest} {bank i : ℕ}
  {m message : NucaMessage} {a addr : Address} {inHand rest : List NucaRequest}

theorem Placement.tail (h : Placement cfg s (e :: rest)) : Placement cfg s rest where
  tagged := h.tagged
  mshr := h.mshr
  messages := h.messages
  reads := h.reads
  queued := fun e' he' => h.queued e' (List.mem_cons_of_mem _ he')
  holders := h.holders
  head := h.head

theorem Freshness.tail (h : Freshness s (e :: rest)) : Freshness s rest where
  fresh := by
    intro e' hid
    obtain ⟨hun, hnot⟩ := h.fresh e' hid
    exact ⟨hun, fun hmem => hnot (List.mem_cons_of_mem _ hmem)⟩
  unsearched := fun e' he' => h.unsearched e' (List.mem_cons_of_mem _ he')
  nodup := (List.nodup_cons.mp h.nodup).2

/-! ### Requests change places -/

/-- Requests and messages have only changed places, and nothing that the searches speak of
has changed. -/
structure Moved (cfg : NucaConfig) (s t : NucaState) (inHand inHand' : List NucaRequest) :
    Prop where
  lines : t.lines = s.lines
  mshr : t.mshr = s.mshr
  active : t.activeEventsInNuca = s.activeEventsInNuca
  history : t.history = s.history
  nextId : t.nextId = s.nextId
  messages : ∀ m ∈ t.messages, m ∈ s.messages ∨ PlacedMessage cfg m ∧ ∀ e, m.isAbout e = false
  reads : ∀ p ∈ t.readsBelow, p ∈ s.readsBelow
  queued : List.Perm (t.queued inHand') (s.queued inHand)
  carriers : ∀ a, t.carriers cfg a = s.carriers cfg a
  pendingReplies : ∀ e, t.pendingReplies e = s.pendingReplies e
  hitReplies : ∀ e, t.hitReplies e = s.hitReplies e
  searches : ∀ e b, .search e b ∈ s.messages → .search e b ∈ t.messages

theorem tracked_moved {inHand' : List NucaRequest} (h : Tracked cfg s inHand)
    (hs : Moved cfg s t inHand inHand') : Tracked cfg t inHand' := by
  have hholds : ∀ b a, t.Holds cfg b a → s.Holds cfg b a := by
    intro b a hold
    unfold Holds at hold ⊢
    rw [← hs.lines]
    exact hold
  have hwaiting : ∀ a, t.waiting cfg a = s.waiting cfg a := by
    intro a
    unfold waiting
    rw [hs.mshr]
  have hun : ∀ e, s.Unsearched e → t.Unsearched e := by
    intro e hun
    constructor
    case inactive =>
      rw [hs.active]
      exact hun.inactive
    case messages =>
      intro m hm
      rcases hs.messages m hm with hm | ⟨-, habout⟩
      · exact hun.messages m hm
      · exact habout e
    case history =>
      rw [hs.history]
      exact hun.history
  constructor
  case placement =>
    constructor
    case tagged =>
      rw [hs.lines]
      exact h.placement.tagged
    case mshr =>
      rw [hs.mshr]
      exact h.placement.mshr
    case messages =>
      intro m hm
      rcases hs.messages m hm with hm | ⟨hplaced, -⟩
      · exact h.placement.messages m hm
      · exact hplaced
    case reads => exact fun p hp => h.placement.reads p (hs.reads p hp)
    case queued => exact fun e he => h.placement.queued e (hs.queued.mem_iff.mp he)
    case holders => exact fun b a hold => h.placement.holders b a (hholds b a hold)
    case head =>
      intro a
      rw [hwaiting]
      exact h.placement.head a
  case freshness =>
    constructor
    case fresh =>
      intro e hid
      rw [hs.nextId] at hid
      obtain ⟨hfresh, hnot⟩ := h.freshness.fresh e hid
      exact ⟨hun e hfresh, fun hmem => hnot (hs.queued.mem_iff.mp hmem)⟩
    case unsearched =>
      exact fun e he => hun e (h.freshness.unsearched e (hs.queued.mem_iff.mp he))
    case nodup => exact hs.queued.nodup_iff.mpr h.freshness.nodup
  case tracking =>
    refine h.tracking.congr ⟨hholds, hs.carriers, ?_, hs.active, hs.pendingReplies,
      hs.hitReplies, hs.searches, hs.history⟩
    intro a
    rw [hwaiting]

/-! ### Changed lines of one bank -/

theorem holds_setLines {lines : LineArray Unit} {b : ℕ} :
    (s.setLines bank lines).Holds cfg b a ↔
      if b = bank then lines.stateAt cfg.geometry a ≠ .invalid else s.Holds cfg b a := by
  unfold Holds setLines
  dsimp only
  by_cases hb : b = bank
  · rw [if_pos hb, hb, Function.update_self]
  · rw [if_neg hb, Function.update_of_ne hb]

theorem setLines_self (s : NucaState) (bank : ℕ) : s.setLines bank (s.lines bank) = s := by
  unfold setLines
  rw [Function.update_eq_self]

theorem tagged_setLines {lines : LineArray Unit} (bank : ℕ)
    (h : ∀ bank, (s.lines bank).Tagged cfg.geometry) (hlines : lines.Tagged cfg.geometry) (b : ℕ) :
    ((s.setLines bank lines).lines b).Tagged cfg.geometry := by
  unfold setLines
  dsimp only
  by_cases hb : b = bank
  · rw [hb, Function.update_self]
    exact hlines
  · rw [Function.update_of_ne hb]
    exact h b

/-- Changing the lines of a bank, so that it holds no more than before, is not seen. -/
theorem tracked_setLines {lines : LineArray Unit} (h : Tracked cfg s inHand)
    (hlines : lines.Tagged cfg.geometry)
    (hless : ∀ a, lines.stateAt cfg.geometry a ≠ .invalid → s.Holds cfg bank a) :
    Tracked cfg (s.setLines bank lines) inHand := by
  have hholds : ∀ b a, (s.setLines bank lines).Holds cfg b a → s.Holds cfg b a := by
    intro b a hold
    rw [holds_setLines] at hold
    split at hold
    · rename_i hb
      rw [hb]
      exact hless a hold
    · exact hold
  constructor
  case placement =>
    constructor
    case tagged => exact tagged_setLines bank h.placement.tagged hlines
    case mshr => exact h.placement.mshr
    case messages => exact h.placement.messages
    case reads => exact h.placement.reads
    case queued => exact h.placement.queued
    case holders => exact fun b a hold => h.placement.holders b a (hholds b a hold)
    case head => exact h.placement.head
  case freshness =>
    constructor
    case fresh =>
      intro e hid
      obtain ⟨hun, hnot⟩ := h.freshness.fresh e hid
      exact ⟨⟨hun.inactive, hun.messages, hun.history⟩, hnot⟩
    case unsearched =>
      intro e he
      have hun := h.freshness.unsearched e he
      exact ⟨hun.inactive, hun.messages, hun.history⟩
    case nodup => exact h.freshness.nodup
  case tracking =>
    refine h.tracking.congr ⟨hholds, ?_, ?_, rfl, ?_, ?_, fun _ _ hm => hm, rfl⟩
    · exact fun _ => rfl
    · exact fun _ => rfl
    · exact fun _ => rfl
    · exact fun _ => rfl

/-! ### Joining a list -/

theorem tracked_joined (h : Tracked cfg s (e :: rest)) (hopen : s.waiting cfg e.address ≠ []) :
    Tracked cfg (s.addToMSHR cfg e) rest := by
  constructor
  case placement =>
    have htail := h.placement.tail
    constructor
    case tagged => exact htail.tagged
    case mshr => exact MSHR.wellFormed_addToMSHR htail.mshr
    case messages => exact htail.messages
    case reads => exact htail.reads
    case queued => exact htail.queued
    case holders => exact htail.holders
    case head =>
      intro a event hevent
      rw [head_joined htail hopen] at hevent
      exact htail.head a event hevent
  case freshness =>
    have htail := h.freshness.tail
    constructor
    case fresh =>
      intro e' hid
      obtain ⟨hun, hnot⟩ := htail.fresh e' hid
      exact ⟨⟨hun.inactive, hun.messages, hun.history⟩, hnot⟩
    case unsearched =>
      intro e' he'
      have hun := htail.unsearched e' he'
      exact ⟨hun.inactive, hun.messages, hun.history⟩
    case nodup => exact htail.nodup
  case tracking =>
    refine h.tracking.congr ⟨fun _ _ hold => hold, fun _ => rfl, ?_, rfl, fun _ => rfl,
      fun _ => rfl, fun _ _ hm => hm, rfl⟩
    intro a
    exact head_joined h.placement hopen

/-! ### Opening a list -/

/-- The state after a miss in the bank of the request. -/
def opened (cfg : NucaConfig) (s : NucaState) (e : NucaRequest) : NucaState :=
  ((s.addToMSHR cfg e).record (.misses e)).broadcastRequest cfg e

theorem opened_messages : (s.opened cfg e).messages = s.messages ++ broadcast cfg e := rfl

theorem opened_history : (s.opened cfg e).history = s.history ++ [.misses e] := rfl

theorem opened_active (b : ℕ) (e' : NucaRequest) : (s.opened cfg e).activeEventsInNuca b e' =
    if b = e.bank ∧ e' = e then some 0 else s.activeEventsInNuca b e' := rfl

theorem opened_active_other (hne : e' ≠ e) (b : ℕ) :
    (s.opened cfg e).activeEventsInNuca b e' = s.activeEventsInNuca b e' := by
  rw [opened_active, if_neg (fun hboth => hne hboth.2)]

theorem opened_carriers (a : Address) : (s.opened cfg e).carriers cfg a = s.carriers cfg a := by
  have hsend := carriers_send cfg s (broadcast cfg e) a
  rw [countP_broadcast (fun _ => rfl), Nat.add_zero] at hsend
  exact hsend

theorem opened_hitReplies (e' : NucaRequest) :
    (s.opened cfg e).hitReplies e' = s.hitReplies e' := by
  have hsend := hitReplies_send s (broadcast cfg e) e'
  have hzero : (broadcast cfg e).count (.hitReply e') = 0 := by
    rw [List.count_eq_zero]
    intro hmem
    obtain ⟨bank, -, heq⟩ := List.mem_map.mp hmem
    cases heq
  rw [hzero, Nat.add_zero] at hsend
  exact hsend

theorem opened_pendingReplies (hplaced : Placed cfg e) :
    (s.opened cfg e).pendingReplies e + 1 =
      s.pendingReplies e + (cfg.banksOf e.address).length := by
  have hsend := pendingReplies_send s (broadcast cfg e) e
  have hcount := broadcast_searches hplaced
  have hsame : (s.opened cfg e).pendingReplies e =
      (s.send (broadcast cfg e)).pendingReplies e := rfl
  omega

theorem opened_pendingReplies_other (hne : e' ≠ e) :
    (s.opened cfg e).pendingReplies e' = s.pendingReplies e' := by
  have hsend := pendingReplies_send s (broadcast cfg e) e'
  have hzero : (broadcast cfg e).countP (NucaMessage.searchesFor e') = 0 := by
    apply countP_broadcast
    intro bank
    exact decide_eq_false (fun heq => hne heq.symm)
  rw [hzero, Nat.add_zero] at hsend
  exact hsend

theorem opened_head (h : Placement cfg s inHand) (hclosed : s.waiting cfg e.address = [])
    (a : Address) : ((s.opened cfg e).waiting cfg a).head? =
      if cfg.geometry.SameLine a e.address then some e.event else (s.waiting cfg a).head? :=
  head_opened h hclosed

/-- Another request is the head of its line as before. -/
theorem opened_isHead (h : Placement cfg s inHand) (hclosed : s.waiting cfg e.address = [])
    (hne : e' ≠ e) : (s.opened cfg e).IsHead cfg e' ↔ s.IsHead cfg e' := by
  unfold IsHead
  rw [opened_head h hclosed]
  split
  · rename_i hline
    rw [waiting_congr hline, hclosed]
    constructor
    · intro heq
      exact absurd (NucaRequest.event_injective (Option.some.inj heq)).symm hne
    · intro heq
      cases heq
  · exact Iff.rfl

theorem opened_isHead_self (h : Placement cfg s inHand)
    (hclosed : s.waiting cfg e.address = []) : (s.opened cfg e).IsHead cfg e := by
  unfold IsHead
  rw [opened_head h hclosed, if_pos (Geometry.sameLine_refl _ _)]

theorem unsearched_opened (hun : s.Unsearched e') (hne : e' ≠ e) :
    (s.opened cfg e).Unsearched e' where
  inactive := by
    rw [opened_active_other hne]
    exact hun.inactive
  messages := by
    intro m hm
    rw [opened_messages] at hm
    rcases List.mem_append.mp hm with hm | hm
    · exact hun.messages m hm
    · obtain ⟨bank, -, rfl⟩ := List.mem_map.mp hm
      exact decide_eq_false (fun heq => hne heq.symm)
  history := by
    intro r hr
    rw [opened_history] at hr
    rcases List.mem_append.mp hr with hr | hr
    · exact hun.history r hr
    · cases List.mem_singleton.mp hr
      exact decide_eq_false (fun heq => hne heq.symm)

theorem queued_opened : (s.opened cfg e).queued inHand = s.queued inHand := by
  unfold queued
  rw [opened_messages, List.filterMap_append]
  have hnone : (broadcast cfg e).filterMap NucaMessage.request? = [] := by
    rw [List.filterMap_eq_nil_iff]
    intro m hm
    obtain ⟨bank, -, rfl⟩ := List.mem_map.mp hm
    rfl
  rw [hnone, List.append_nil]
  rfl

theorem searching_opened_self (h : Tracked cfg s (e :: rest))
    (hmiss : ¬ s.Holds cfg e.bank e.address) : Searching cfg (s.opened cfg e) e := by
  have hun := h.freshness.unsearched e List.mem_cons_self
  have hplaced := h.placement.queued e List.mem_cons_self
  have hpending := opened_pendingReplies (s := s) hplaced
  rw [hun.pendingReplies] at hpending
  constructor
  case count =>
    refine ⟨0, ?_, by omega, by omega⟩
    rw [opened_active, if_pos ⟨rfl, rfl⟩]
  case noHit =>
    rw [opened_hitReplies]
    exact hun.hitReplies
  case root => exact hmiss
  case asked =>
    intro b hb hne
    left
    rw [opened_messages]
    exact List.mem_append_right _ (mem_broadcast hplaced hb hne)
  case notFound =>
    intro b hmem
    rw [opened_history] at hmem
    rcases List.mem_append.mp hmem with hmem | hmem
    · have habout := hun.history _ hmem
      simp [NucaRecord.isAbout] at habout
    · cases List.mem_singleton.mp hmem
  case notRead =>
    intro hmem
    rw [opened_history] at hmem
    rcases List.mem_append.mp hmem with hmem | hmem
    · have habout := hun.history _ hmem
      simp [NucaRecord.isAbout] at habout
    · cases List.mem_singleton.mp hmem

theorem searching_opened_other (h : Searching cfg s e') (hne : e' ≠ e) :
    Searching cfg (s.opened cfg e) e' where
  count := by
    rw [opened_active_other hne, opened_pendingReplies_other hne]
    exact h.count
  noHit := by
    rw [opened_hitReplies]
    exact h.noHit
  root := h.root
  asked := by
    intro b hb hneb
    rw [opened_messages, opened_history]
    rcases h.asked b hb hneb with hsearch | ⟨hnot, hanswer⟩
    · exact Or.inl (List.mem_append_left _ hsearch)
    · exact Or.inr ⟨hnot, List.mem_append_left _ hanswer⟩
  notFound := by
    intro b hmem
    rw [opened_history] at hmem
    rcases List.mem_append.mp hmem with hmem | hmem
    · exact h.notFound b hmem
    · cases List.mem_singleton.mp hmem
  notRead := by
    intro hmem
    rw [opened_history] at hmem
    rcases List.mem_append.mp hmem with hmem | hmem
    · exact h.notRead hmem
    · cases List.mem_singleton.mp hmem

theorem tracking_opened (h : Tracked cfg s (e :: rest)) (hclosed : s.waiting cfg e.address = [])
    (hmiss : ¬ s.Holds cfg e.bank e.address) : Tracking cfg (s.opened cfg e) := by
  have htracking := h.tracking
  have hun := h.freshness.unsearched e List.mem_cons_self
  -- the line is on its way to nobody, as its list was closed
  have hzero : s.carriers cfg e.address = 0 := by
    by_contra hne
    apply htracking.carried e.address hne
    rw [hclosed]
    rfl
  have hself := opened_isHead_self h.placement hclosed
  have hother : ∀ e', e' ≠ e → ((s.opened cfg e).IsHead cfg e' ↔ s.IsHead cfg e') :=
    fun e' hne => opened_isHead h.placement hclosed hne
  constructor
  case single => exact htracking.single
  case alone =>
    intro a b hb
    rw [opened_carriers]
    exact htracking.alone a b hb
  case oneCarrier =>
    intro a
    rw [opened_carriers]
    exact htracking.oneCarrier a
  case carried =>
    intro a hne
    rw [opened_carriers] at hne
    rw [opened_head h.placement hclosed]
    split
    · exact fun heq => by cases heq
    · exact htracking.carried a hne
  case searching =>
    intro e' he' hzero'
    by_cases heq : e' = e
    · rw [heq]
      exact searching_opened_self h hmiss
    · rw [opened_carriers] at hzero'
      exact searching_opened_other (htracking.searching e' ((hother e' heq).mp he') hzero') heq
  case active =>
    intro e' c hc
    by_cases heq : e' = e
    · left
      rw [heq, opened_carriers]
      exact ⟨hself, hzero⟩
    · rw [opened_active_other heq] at hc
      rw [hother e' heq, opened_carriers, opened_hitReplies, opened_pendingReplies_other heq]
      exact htracking.active e' c hc
  case hits =>
    intro e' hne
    rw [opened_hitReplies] at hne ⊢
    have hneq : e' ≠ e := by
      intro heq
      rw [heq] at hne
      exact hne hun.hitReplies
    rw [opened_active_other hneq]
    exact htracking.hits e' hne
  case served =>
    intro e' hmem
    rw [opened_history] at hmem
    by_cases heq : e' = e
    · left
      rw [heq, opened_carriers]
      exact ⟨hself, hzero⟩
    · rcases List.mem_append.mp hmem with hmem | hmem
      · rw [hother e' heq, opened_carriers, opened_history]
        rcases htracking.served e' hmem with hhead | ⟨b, hfound⟩ | hread
        · exact Or.inl hhead
        · exact Or.inr (Or.inl ⟨b, List.mem_append_left _ hfound⟩)
        · exact Or.inr (Or.inr (List.mem_append_left _ hread))
      · cases List.mem_singleton.mp hmem
        exact absurd rfl heq
  case reads =>
    intro e' hmem
    rw [opened_history] at hmem
    rcases List.mem_append.mp hmem with hmem | hmem
    · have hneq : e' ≠ e := by
        intro heq
        rw [heq] at hmem
        have habout := hun.history _ hmem
        simp [NucaRecord.isAbout] at habout
      have hread := htracking.reads e' hmem
      constructor
      case inactive =>
        rw [opened_active_other hneq]
        exact hread.inactive
      case once =>
        rw [opened_history, List.count_append, hread.once]
        simp
      case asked =>
        obtain ⟨before, after, heq, hasked⟩ := hread.asked
        refine ⟨before, after ++ [.misses e], ?_, hasked⟩
        rw [opened_history, heq, List.append_assoc, List.cons_append]
      case notFound =>
        intro b hfound
        rw [opened_history] at hfound
        rcases List.mem_append.mp hfound with hfound | hfound
        · exact hread.notFound b hfound
        · cases List.mem_singleton.mp hfound
    · cases List.mem_singleton.mp hmem

theorem tracked_opened (h : Tracked cfg s (e :: rest)) (hclosed : s.waiting cfg e.address = [])
    (hmiss : ¬ s.Holds cfg e.bank e.address) : Tracked cfg (s.opened cfg e) rest := by
  have hplaced := h.placement.queued e List.mem_cons_self
  have hnodup : (e :: s.queued rest).Nodup := h.freshness.nodup
  constructor
  case placement =>
    have htail := h.placement.tail
    constructor
    case tagged => exact htail.tagged
    case mshr => exact MSHR.wellFormed_addToMSHR htail.mshr
    case messages =>
      intro m hm
      rw [opened_messages] at hm
      rcases List.mem_append.mp hm with hm | hm
      · exact htail.messages m hm
      · obtain ⟨b, -, rfl⟩ := List.mem_map.mp hm
        exact hplaced
    case reads => exact htail.reads
    case queued =>
      rw [queued_opened]
      exact htail.queued
    case holders => exact htail.holders
    case head =>
      intro a event hevent
      rw [opened_head htail hclosed] at hevent
      split at hevent
      · cases hevent
        exact ⟨e, rfl, hplaced⟩
      · exact htail.head a event hevent
  case freshness =>
    constructor
    case fresh =>
      intro e' hid
      obtain ⟨hun, hnot⟩ := h.freshness.fresh e' hid
      have hne : e' ≠ e := by
        intro heq
        apply hnot
        rw [heq]
        exact List.mem_cons_self
      rw [queued_opened]
      exact ⟨unsearched_opened hun hne, fun hmem => hnot (List.mem_cons_of_mem _ hmem)⟩
    case unsearched =>
      intro e' he'
      rw [queued_opened] at he'
      have hne : e' ≠ e := by
        intro heq
        rw [heq] at he'
        exact (List.nodup_cons.mp hnodup).1 he'
      exact unsearched_opened (h.freshness.unsearched e' (List.mem_cons_of_mem _ he')) hne
    case nodup =>
      rw [queued_opened]
      exact (List.nodup_cons.mp hnodup).2
  case tracking => exact tracking_opened h hclosed hmiss

/-! ### Every request -/

theorem Tracked.tail (h : Tracked cfg s (e :: rest)) : Tracked cfg s rest :=
  ⟨h.placement.tail, h.freshness.tail, h.tracking⟩

/-- Handling a request keeps track. -/
theorem tracked_handleRequest (h : Tracked cfg s (e :: rest)) :
    Tracked cfg (s.handleRequest cfg e) rest := by
  have hiff := isAddrInMSHR_iff h.placement e.address
  unfold handleRequest
  cases hopen : s.isAddrInMSHR cfg e.address with
  | true =>
    rw [if_pos rfl]
    exact tracked_joined h (hiff.mp hopen)
  | false =>
    rw [if_neg Bool.false_ne_true]
    have hclosed : s.waiting cfg e.address = [] := by
      by_contra hne
      rw [hiff.mpr hne] at hopen
      cases hopen
    unfold handleAccess
    rcases LineArray.accessAndMark_spec (h.placement.tagged e.bank) e.address with
      ⟨j, haccess, -, -, htagged, -, hstate⟩ | ⟨haccess, hinvalid⟩
    · rw [haccess]
      refine tracked_setLines h.tail htagged ?_
      intro a hvalid
      rw [hstate] at hvalid
      exact hvalid
    · rw [haccess]
      dsimp only
      rw [setLines_self]
      exact tracked_opened h hclosed (fun hold => hold hinvalid)

/-- The requests of the loop, and what it puts back. -/
theorem tracked_pendingLoop {list : List NucaRequest} (h : Tracked cfg s list) :
    Tracked cfg (pendingLoop cfg s list) [] := by
  induction list generalizing s with
  | nil => exact h
  | cons e rest ih =>
    rw [pendingLoop]
    split
    · apply ih
      refine tracked_moved h ⟨rfl, rfl, rfl, rfl, rfl, fun m hm => Or.inl hm, fun p hp => hp, ?_,
        fun _ => rfl, fun _ => rfl, fun _ => rfl, fun _ _ hm => hm⟩
      unfold queued
      apply List.Perm.append_right
      have hswap : rest ++ (s.eventsWaitingOnMSHR ++ [e]) =
          (rest ++ s.eventsWaitingOnMSHR) ++ [e] := (List.append_assoc _ _ _).symm
      rw [hswap]
      exact List.perm_append_singleton _ _
    · exact ih (tracked_handleRequest h)

theorem tracked_processEventsInPendingList (h : Tracked cfg s []) :
    Tracked cfg (s.processEventsInPendingList cfg) [] := by
  apply tracked_pendingLoop
  refine tracked_moved h ⟨rfl, rfl, rfl, rfl, rfl, fun m hm => Or.inl hm, fun p hp => hp, ?_,
    fun _ => rfl, fun _ => rfl, fun _ => rfl, fun _ _ hm => hm⟩
  unfold queued
  dsimp only
  rw [List.append_nil, List.nil_append]

end Tejas.NucaState
