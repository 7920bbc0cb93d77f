import Tejas.DNucaRuns

/-!
# Misses of the banks are served

When nothing is on its way the shared MSHR is empty, and every miss was found in another
bank or read from the next level once all the others had answered. This needs two banks in
every set: the bank that misses alone in its set waits for answers that nobody sends. A
line found for an overtaken search does no harm here, since one of the two hit replies can
never be handled afterwards, so that nothing comes to rest.
-/

namespace Tejas.NucaState
open LabelledRuns

variable {cfg : NucaConfig} {s t : NucaState} {e e' : NucaRequest} {bank i : ℕ}
  {m message : NucaMessage} {a addr : Address} {inHand rest : List NucaRequest}

/-! ### A second hit reply stays -/

/-- A hit reply of the request is in flight that no delivery can handle. -/
structure Doomed (s : NucaState) (inHand : List NucaRequest) (e : NucaRequest) : Prop where
  notQueued : e ∉ s.queued inHand
  old : e.id < s.nextId
  replies : 2 ≤ s.hitReplies e ∨ 1 ≤ s.hitReplies e ∧ s.activeEventsInNuca e.bank e = none

theorem Doomed.mono {inHand' : List NucaRequest} (h : Doomed s inHand e)
    (hid : s.nextId ≤ t.nextId)
    (hqueued : ∀ e' ∈ t.queued inHand', e' ∈ s.queued inHand ∨ s.nextId ≤ e'.id)
    (hhits : s.hitReplies e ≤ t.hitReplies e)
    (hactive : s.activeEventsInNuca e.bank e = none → t.activeEventsInNuca e.bank e = none) :
    Doomed t inHand' e where
  notQueued := by
    intro hmem
    have hold := h.old
    rcases hqueued e hmem with hmem | hnew
    · exact h.notQueued hmem
    · omega
  old := h.old.trans_le hid
  replies := by
    rcases h.replies with htwo | ⟨hone, hnone⟩
    · exact Or.inl (htwo.trans hhits)
    · exact Or.inr ⟨hone.trans hhits, hactive hnone⟩

theorem doomed_handleRequest (h : Doomed s (e' :: rest) e) :
    Doomed (s.handleRequest cfg e') rest e := by
  have hne : e ≠ e' := by
    intro heq
    apply h.notQueued
    rw [heq]
    exact List.mem_cons_self
  have htail : ∀ x ∈ s.queued rest, x ∈ s.queued (e' :: rest) ∨ s.nextId ≤ x.id :=
    fun x hx => Or.inl (List.mem_cons_of_mem _ hx)
  unfold handleRequest
  split
  · exact h.mono le_rfl htail le_rfl id
  · unfold handleAccess
    split
    · exact h.mono le_rfl htail le_rfl id
    · rename_i lines _
      apply h.mono
      · exact le_rfl
      · intro x hx
        have hsame : ((s.setLines e'.bank lines).opened cfg e').queued rest =
            (s.setLines e'.bank lines).queued rest := queued_opened
        have hx' : x ∈ ((s.setLines e'.bank lines).opened cfg e').queued rest := hx
        rw [hsame] at hx'
        exact htail x hx'
      · have hsame : ((s.setLines e'.bank lines).opened cfg e').hitReplies e = s.hitReplies e :=
          opened_hitReplies e
        exact hsame.ge
      · intro hnone
        have hsame : ((s.setLines e'.bank lines).opened cfg e').activeEventsInNuca e.bank e =
            s.activeEventsInNuca e.bank e := opened_active_other hne _
        exact hsame.trans hnone

theorem doomed_pendingLoop {list : List NucaRequest} (h : Doomed s list e) :
    Doomed (pendingLoop cfg s list) [] e := by
  induction list generalizing s with
  | nil => exact h
  | cons e' rest ih =>
    rw [pendingLoop]
    split
    · apply ih
      refine h.mono le_rfl ?_ le_rfl id
      intro x hx
      left
      unfold queued at hx ⊢
      simp only [List.mem_append, List.mem_cons, List.not_mem_nil, or_false] at hx ⊢
      tauto
    · exact ih (doomed_handleRequest h)

theorem doomed_processEvents {list : List (AddressCarryingEvent NucaRequest)}
    (h : Doomed s [] e) (hstep : processEvents cfg bank addr s list = .ok t) :
    Doomed t [] e := by
  induction list generalizing s with
  | nil =>
    rw [processEvents] at hstep
    cases hstep
    exact h
  | cons event rest ih =>
    rw [processEvents] at hstep
    split at hstep
    · split at hstep
      · cases hstep
      · refine ih ?_ hstep
        exact h.mono le_rfl (fun _ hx => Or.inl hx) le_rfl id
    · exact ih h hstep

theorem doomed_take (h : Doomed s [] e) (hm : s.messages[i]? = some m) (hne : m ≠ .hitReply e) :
    Doomed (s.take i) [] e := by
  refine h.mono le_rfl ?_ ?_ id
  · intro x hx
    left
    unfold queued at hx ⊢
    rcases List.mem_append.mp hx with hx | hx
    · exact List.mem_append_left _ hx
    · obtain ⟨m', hm', hsome⟩ := List.mem_filterMap.mp hx
      exact List.mem_append_right _ (List.mem_filterMap.mpr ⟨m', mem_of_take hm', hsome⟩)
  · have htake := hitReplies_take hm e
    rw [if_neg hne] at htake
    exact htake.le

/-- Messages that are no requests leave the hit replies where they are. -/
theorem doomed_send {sent : List NucaMessage} (h : Doomed s [] e)
    (hsent : ∀ m ∈ sent, m.request? = none) : Doomed (s.send sent) [] e := by
  refine h.mono le_rfl ?_ ?_ id
  · intro x hx
    left
    have hnone : sent.filterMap NucaMessage.request? = [] :=
      List.filterMap_eq_nil_iff.mpr hsent
    unfold queued send at hx
    dsimp only at hx
    rw [List.filterMap_append, hnone, List.append_nil] at hx
    exact hx
  · rw [hitReplies_send]
    exact Nat.le_add_right _ _

theorem doomed_handleFill (h : Doomed s [] e)
    (hrequest : m.request? = none) (hstep : s.handleFill cfg m bank addr = .ok t) :
    Doomed t [] e := by
  unfold handleFill at hstep
  split at hstep
  · unfold fillAndSatisfyRequests at hstep
    split at hstep
    · cases hstep
    · split at hstep
      · cases hstep
      · unfold processEventsInMSHR at hstep
        split at hstep
        · cases hstep
        · split at hstep
          · cases hstep
          · rename_i u hevents
            cases hstep
            have hu : Doomed u [] e := by
              refine doomed_processEvents ?_ hevents
              exact h.mono le_rfl (fun _ hx => Or.inl hx) le_rfl id
            apply doomed_pendingLoop
            refine hu.mono le_rfl ?_ le_rfl id
            intro x hx
            left
            unfold queued at hx ⊢
            dsimp only at hx
            rw [List.append_nil] at hx
            exact hx
  · cases hstep
    apply doomed_send h
    intro m' hm'
    cases List.mem_singleton.mp hm'
    exact hrequest

theorem doomed_handleBroadcastAccess (h : Doomed s [] e)
    (hstep : s.handleBroadcastAccess cfg e' bank = .ok t) : Doomed t [] e := by
  unfold handleBroadcastAccess at hstep
  split at hstep
  · cases hstep
    exact h
  · split at hstep
    · dsimp only [doMigration] at hstep
      split at hstep
      · cases hstep
      · cases hstep
        apply doomed_send
        · exact h.mono le_rfl (fun _ hx => Or.inl hx) le_rfl id
        · intro m' hm'
          rcases List.mem_cons.mp hm' with rfl | hm'
          · rfl
          · cases List.mem_singleton.mp hm'
            rfl
    · cases hstep
      apply doomed_send
      · exact h.mono le_rfl (fun _ hx => Or.inl hx) le_rfl id
      · intro m' hm'
        cases List.mem_singleton.mp hm'
        rfl

theorem doomed_hitReply (h : Doomed s [] e) (hm : s.messages[i]? = some (.hitReply e'))
    (hstep : (s.take i).handleHitReply e' = .ok t) : Doomed t [] e := by
  have htake := hitReplies_take hm e
  have hsame : (s.take i).activeEventsInNuca = s.activeEventsInNuca := rfl
  unfold handleHitReply at hstep
  rw [hsame] at hstep
  split at hstep
  · cases hstep
  · rename_i c hc
    cases hstep
    by_cases heq : e' = e
    · -- one of two replies is handled, and the request is not active any more
      rw [heq] at htake hc ⊢
      rw [if_pos rfl] at htake
      have htwo : 2 ≤ s.hitReplies e := by
        rcases h.replies with htwo | ⟨-, hnone⟩
        · exact htwo
        · rw [hnone] at hc
          cases hc
      have hhits : ((s.take i).setActive e none).hitReplies e = (s.take i).hitReplies e := rfl
      constructor
      case notQueued =>
        intro hmem
        apply h.notQueued
        unfold queued at hmem ⊢
        rcases List.mem_append.mp hmem with hx | hx
        · exact List.mem_append_left _ hx
        · obtain ⟨m', hm', hsome⟩ := List.mem_filterMap.mp hx
          exact List.mem_append_right _ (List.mem_filterMap.mpr ⟨m', mem_of_take hm', hsome⟩)
      case old => exact h.old
      case replies => exact Or.inr ⟨by omega, setActive_self _ _ _⟩
    · refine (doomed_take h hm ?_).mono le_rfl (fun _ hx => Or.inl hx) le_rfl ?_
      · intro hsame'
        cases hsame'
        exact heq rfl
      · intro hnone
        rw [setActive_other (fun h => heq h.symm)]
        exact hnone

theorem doomed_handleMissReply (h : Doomed s [] e) :
    Doomed (s.handleMissReply cfg e') [] e := by
  have hactive : ∀ count c, s.activeEventsInNuca e'.bank e' = some c →
      s.activeEventsInNuca e.bank e = none →
      (s.setActive e' count).activeEventsInNuca e.bank e = none := by
    intro count c hc hnone
    have hne : e ≠ e' := by
      intro heq
      rw [heq, hc] at hnone
      cases hnone
    rw [setActive_other hne]
    exact hnone
  unfold handleMissReply
  split
  · exact h
  · rename_i c hc
    split
    · exact h.mono le_rfl (fun _ hx => Or.inl hx) le_rfl (hactive none c hc)
    · exact h.mono le_rfl (fun _ hx => Or.inl hx) le_rfl (hactive _ c hc)

theorem doomed_step {action : Action} (h : Doomed s [] e) (hstep : Step cfg s action t) :
    Doomed t [] e := by
  cases action with
  | request bank isWrite address =>
    simp only [Step, StepOf, next] at hstep
    split at hstep
    · cases hstep
      unfold addRequest
      split
      · refine h.mono (Nat.le_succ _) ?_ le_rfl id
        intro x hx
        unfold queued at hx ⊢
        simp only [List.mem_append, List.mem_cons, List.not_mem_nil, or_false, false_or] at hx ⊢
        rcases hx with (hx | rfl) | hx
        · exact Or.inl (Or.inl hx)
        · exact Or.inr le_rfl
        · exact Or.inl (Or.inr hx)
      · refine h.mono (Nat.le_succ _) ?_ ?_ id
        · intro x hx
          unfold queued send at hx
          unfold queued
          dsimp only at hx
          rw [List.filterMap_append] at hx
          simp only [List.mem_append] at hx ⊢
          rcases hx with hx | hx | hx
          · exact Or.inl (Or.inl hx)
          · exact Or.inl (Or.inr hx)
          · right
            have hnew : x = ⟨s.nextId, bank, isWrite, address⟩ := List.mem_singleton.mp hx
            rw [hnew]
        · have hsend := hitReplies_send s [.request ⟨s.nextId, bank, isWrite, address⟩] e
          have hle : s.hitReplies e ≤
              (s.send [.request ⟨s.nextId, bank, isWrite, address⟩]).hitReplies e := by
            rw [hsend]
            exact Nat.le_add_right _ _
          exact hle
    · cases hstep
  | deliver i =>
    simp only [Step, StepOf, next] at hstep
    split at hstep
    · cases hstep
    · rename_i m hm
      split at hstep
      · cases hstep
      · rename_i u hevent
        cases hstep
        cases m with
        | request e' =>
          cases hevent
          apply doomed_handleRequest
          refine h.mono le_rfl ?_ ?_ id
          · intro x hx
            left
            unfold queued at hx ⊢
            rcases List.mem_append.mp hx with hx | hx
            · rcases List.mem_append.mp hx with hx | hx
              · cases List.mem_singleton.mp hx
                have hmem := List.mem_of_getElem? hm
                exact List.mem_append_right _ (List.mem_filterMap.mpr ⟨_, hmem, rfl⟩)
              · exact List.mem_append_left _ hx
            · obtain ⟨m', hm', hsome⟩ := List.mem_filterMap.mp hx
              exact List.mem_append_right _ (List.mem_filterMap.mpr ⟨m', mem_of_take hm', hsome⟩)
          · have htake := hitReplies_take hm e
            rw [if_neg (fun heq => by cases heq)] at htake
            exact htake.le
        | search e' bank =>
          exact doomed_handleBroadcastAccess (doomed_take h hm (fun heq => by cases heq)) hevent
        | hitReply e' => exact doomed_hitReply h hm hevent
        | missReply e' =>
          cases hevent
          exact doomed_handleMissReply (doomed_take h hm (fun heq => by cases heq))
        | migrateBlock bank addr =>
          exact doomed_handleFill (doomed_take h hm (fun heq => by cases heq)) rfl hevent
        | memResponse bank addr =>
          exact doomed_handleFill (doomed_take h hm (fun heq => by cases heq)) rfl hevent
  | answer i =>
    simp only [Step, StepOf, next] at hstep
    split at hstep
    · cases hstep
    · rename_i bank addr hread
      cases hstep
      have hsent : Doomed (s.send [.memResponse bank addr]) [] e := by
        apply doomed_send h
        intro m' hm'
        cases List.mem_singleton.mp hm'
        rfl
      exact hsent.mono le_rfl (fun _ hx => Or.inl hx) le_rfl id

/-! ### Every run -/

/-- A line found for an overtaken search dooms the second hit reply. -/
theorem doomed_staleHit (h : Tracked cfg s []) (hm : s.messages[i]? = some (.search e bank))
    (hstale : ¬ s.Fresh cfg e bank)
    (hstep : (s.take i).handleBroadcastAccess cfg e bank = .ok t) : Doomed t [] e := by
  obtain ⟨hactive, hrest⟩ := not_or.mp hstale
  obtain ⟨hopen, hrest⟩ := not_or.mp hrest
  obtain ⟨hholds, hhead⟩ := not_or.mp hrest
  have hholds := not_not.mp hholds
  have hmem := List.mem_of_getElem? hm
  have habout : (NucaMessage.search e bank).isAbout e = true := decide_eq_true rfl
  have hseen : ¬ s.Unsearched e := fun hun => hactive hun.inactive
  obtain ⟨c, hc⟩ := Option.ne_none_iff_exists'.mp hactive
  have hone : s.hitReplies e = 1 := by
    rcases h.tracking.active e c hc with ⟨he, -⟩ | ⟨hone, -⟩
    · exact absurd he hhead
    · exact hone
  have htake := hitReplies_take hm e
  rw [if_neg (fun heq => by cases heq)] at htake
  have hsame : (s.take i).activeEventsInNuca = s.activeEventsInNuca := rfl
  have hmshr : (s.take i).mshr = s.mshr := rfl
  have hlines : (s.take i).lines = s.lines := rfl
  have hwaiting := getWaiting_ne_none h.placement e.address
  have hbusy : ¬ (s.activeEventsInNuca e.bank e = none ∨
      s.mshr.getWaitingEventsInMSHR cfg.geometry.blockSizeBits e.address = none) := by
    intro hidle
    rcases hidle with hnone | hnone
    · exact hactive hnone
    · exact hwaiting.mpr hopen hnone
  have hqueued : ∀ x ∈ (s.take i).queued [], x ∈ s.queued [] := by
    intro x hx
    unfold queued at hx ⊢
    rw [requests_take hm rfl] at hx
    exact hx
  unfold handleBroadcastAccess at hstep
  rw [hsame, hmshr, hlines, if_neg hbusy] at hstep
  rcases LineArray.accessAndMark_spec (h.placement.tagged bank) e.address with
    ⟨j, haccess, -⟩ | ⟨-, hinvalid⟩
  · rw [haccess] at hstep
    dsimp only [doMigration] at hstep
    split at hstep
    · cases hstep
    · rename_i destination hdestination
      cases hstep
      constructor
      case notQueued =>
        intro hx
        apply hseen
        apply h.freshness.unsearched e
        apply hqueued
        have hnone : [NucaMessage.migrateBlock destination e.address, .hitReply e].filterMap
            NucaMessage.request? = [] := rfl
        unfold queued send at hx
        dsimp only at hx
        rw [List.filterMap_append, hnone, List.append_nil] at hx
        exact hx
      case old =>
        by_contra hle
        exact hseen (h.freshness.fresh e (not_lt.mp hle)).1
      case replies =>
        left
        rw [hitReplies_send]
        have hadded : [NucaMessage.migrateBlock destination e.address, .hitReply e].count
            (.hitReply e) = 1 := by
          simp
        rw [hadded]
        have hkept : (s.take i).hitReplies e = 1 := by omega
        exact (congrArg (· + 1) hkept).ge
  · exact absurd hinvalid hholds

theorem tracked_or_doomed_step {action : Action}
    (h : Tracked cfg s [] ∨ ∃ e, Doomed s [] e) (hstep : Step cfg s action t) :
    Tracked cfg t [] ∨ ∃ e, Doomed t [] e := by
  rcases h with htracked | ⟨e, hdoomed⟩
  · by_cases hfresh : s.FindsFresh cfg action
    · exact Or.inl (tracked_step htracked hfresh hstep)
    · right
      cases action with
      | request bank isWrite address => exact absurd trivial hfresh
      | answer i => exact absurd trivial hfresh
      | deliver i =>
        simp only [Step, StepOf, next] at hstep
        split at hstep
        · cases hstep
        · rename_i m hm
          split at hstep
          · cases hstep
          · rename_i u hevent
            cases hstep
            simp only [FindsFresh, hm] at hfresh
            cases m with
            | search e bank => exact ⟨e, doomed_staleHit htracked hm hfresh hevent⟩
            | request e => exact absurd trivial hfresh
            | hitReply e => exact absurd trivial hfresh
            | missReply e => exact absurd trivial hfresh
            | migrateBlock bank addr => exact absurd trivial hfresh
            | memResponse bank addr => exact absurd trivial hfresh
  · exact Or.inr ⟨e, doomed_step hdoomed hstep⟩

/-- What comes to rest has been tracked all the way. -/
theorem tracked_of_quiescent {labels : List Action} (run : Run (Step cfg) initial labels s)
    (hquiet : s.Quiescent) : Tracked cfg s [] := by
  have hall : Tracked cfg s [] ∨ ∃ e, Doomed s [] e :=
    Run.invariant (I := fun s => Tracked cfg s [] ∨ ∃ e, Doomed s [] e) run
      (Or.inl (tracked_initial cfg)) (fun _ _ _ h hstep => tracked_or_doomed_step h hstep)
  rcases hall with htracked | ⟨e, hdoomed⟩
  · exact htracked
  · have hzero : s.hitReplies e = 0 := by
      unfold hitReplies
      rw [hquiet.1]
      rfl
    rcases hdoomed.replies with htwo | ⟨hone, -⟩
    · omega
    · omega

/-- The line was read from the next level once, when every other bank had answered. -/
def ReadAfterMisses (cfg : NucaConfig) (s : NucaState) (e : NucaRequest) : Prop :=
  s.history.count (.readsBelow e) = 1 ∧
    ∃ before after, s.history = before ++ .readsBelow e :: after ∧
      ∀ bank ∈ cfg.banksOf e.address, bank ≠ e.bank → .answersMiss e bank ∈ before

/-- No request is left waiting, and every miss was found or read once. -/
structure MissesServed (cfg : NucaConfig) (s : NucaState) : Prop where
  empty : ∀ addr, s.isAddrInMSHR cfg addr = false
  served : ∀ e, .misses e ∈ s.history →
    (∃ bank, .finds e bank ∈ s.history) ∨ ReadAfterMisses cfg s e

theorem missesServed_of_tracked (h : Tracked cfg s [])
    (hempty : ∀ addr, s.waiting cfg addr = []) : MissesServed cfg s where
  empty := by
    intro addr
    have hiff := isAddrInMSHR_iff h.placement addr
    cases hin : s.isAddrInMSHR cfg addr with
    | false => rfl
    | true => exact absurd (hempty addr) (hiff.mp hin)
  served := by
    intro e hmisses
    rcases h.tracking.served e hmisses with ⟨hhead, -⟩ | hfound | hread
    · exact absurd (hempty _) hhead.waiting
    · exact Or.inl hfound
    · have honce := h.tracking.reads e hread
      exact Or.inr ⟨honce.once, honce.asked⟩

theorem waiting_of_quiescent (h : Tracked cfg s []) (hquiet : s.Quiescent)
    (hbanks : ∀ addr, 2 ≤ (cfg.banksOf addr).length) (addr : Address) :
    s.waiting cfg addr = [] := by
  by_contra hopen
  obtain ⟨event, hevent⟩ := Option.ne_none_iff_exists'.mp (head_ne_none.mpr hopen)
  obtain ⟨e, heq, hplaced⟩ := h.placement.head addr event hevent
  have hline : cfg.geometry.SameLine e.address addr := by
    have hmem := List.mem_of_mem_head? hevent
    have hsame := MSHR.waiting_line h.placement.mshr hmem
    rw [heq] at hsame
    exact hsame
  have hhead : s.IsHead cfg e := by
    unfold IsHead
    rw [waiting_congr hline, hevent, heq]
  have hzero : s.carriers cfg e.address = 0 := by
    unfold carriers
    rw [hquiet.1, hquiet.2]
    rfl
  obtain ⟨c, -, hcount, hbound⟩ := (h.tracking.searching e hhead hzero).count
  have hpending : s.pendingReplies e = 0 := by
    unfold pendingReplies
    rw [hquiet.1]
    rfl
  have hless := hbound (hbanks e.address)
  omega

/-! ### Caches that never take a request -/

/-- The MSHR is full from the start. -/
def AlwaysFull (cfg : NucaConfig) : Prop := cfg.mshrMaxSize = 0 ∨ cfg.geometry.assoc = 1

/-- Every request is parked, and nothing else happens. -/
structure Parked (s : NucaState) : Prop where
  quiet : s.Quiescent
  mshr : s.mshr = MSHR.empty
  history : s.history = []

theorem isMSHRFull_of_alwaysFull (h : AlwaysFull cfg) (s : NucaState) (addr : Address) :
    s.isMSHRFull cfg addr = true := by
  unfold isMSHRFull
  rw [Bool.or_eq_true]
  rcases h with hzero | hone
  · left
    rw [hzero]
    exact decide_eq_true (Nat.zero_le _)
  · right
    rw [hone]
    exact decide_eq_true (Nat.zero_le _)

theorem parked_step {action : Action} (hfull : AlwaysFull cfg) (h : Parked s)
    (hstep : Step cfg s action t) : Parked t := by
  cases action with
  | request bank isWrite address =>
    simp only [Step, StepOf, next] at hstep
    split at hstep
    · cases hstep
      unfold addRequest
      rw [if_pos (isMSHRFull_of_alwaysFull hfull s _)]
      exact ⟨h.quiet, h.mshr, h.history⟩
    · cases hstep
  | deliver i =>
    simp only [Step, StepOf, next, h.quiet.1] at hstep
    cases hstep
  | answer i =>
    simp only [Step, StepOf, next, h.quiet.2] at hstep
    cases hstep

theorem missesServed_of_parked (h : Parked s) : MissesServed cfg s where
  empty := by
    intro addr
    unfold isAddrInMSHR
    rw [h.mshr]
    rfl
  served := by
    intro e hmisses
    rw [h.history] at hmisses
    cases hmisses

/-! ### A bank that is alone in its set -/

theorem isMSHRFull_initial (h : ¬ AlwaysFull cfg) (addr : Address) :
    initial.isMSHRFull cfg addr = false := by
  obtain ⟨hsize, hassoc⟩ := not_or.mp h
  have hpos := cfg.geometry.assoc_pos
  have hnone : (cfg.geometry.ways addr).countP (fun i => initial.isAddrInMSHR cfg
      ((LineArray.new (σ := Unit) (fun _ => ())).lines i).address) = 0 := by
    rw [List.countP_eq_zero]
    exact fun _ _ => Bool.false_ne_true
  have hempty : initial.mshr.mshrSize = 0 := rfl
  unfold isMSHRFull
  rw [hnone, hempty, Bool.or_eq_false_iff]
  exact ⟨decide_eq_false (by omega), decide_eq_false (by omega)⟩

theorem accessAndMark_new (g : Geometry) (addr : Address) :
    (LineArray.new (fun _ => ())).accessAndMark g addr = (none, LineArray.new (fun _ => ())) := by
  rcases LineArray.accessAndMark_spec (LineArray.tagged_new (g := g) (fun _ => ())) addr with
    ⟨j, -, -, hvalid, -⟩ | ⟨heq, -⟩
  · exfalso
    apply hvalid
    unfold LineArray.stateAt
    split
    · rfl
    · rfl
  · exact heq

/-- The first request misses. -/
theorem handleRequest_first (cfg : NucaConfig) (e : NucaRequest) :
    handleRequest cfg { initial with nextId := 1 } e =
      opened cfg { initial with nextId := 1 } e := by
  have hclosed : isAddrInMSHR cfg { initial with nextId := 1 } e.address = false := rfl
  have hlines : (initial.lines e.bank).accessAndMark cfg.geometry e.address =
      (none, initial.lines e.bank) := accessAndMark_new cfg.geometry e.address
  have hself := setLines_self { initial with nextId := 1 } e.bank
  unfold handleRequest handleAccess
  rw [hclosed, if_neg Bool.false_ne_true, hlines]
  dsimp only at hself ⊢
  rw [hself]
  rfl

/-- The miss of a bank that is alone in its set waits for ever. -/
theorem alone_waits (hfull : ¬ AlwaysFull cfg) (halone : (cfg.banksOf addr).length = 1) :
    ∃ labels s, Run (Step cfg) initial labels s ∧ s.Quiescent ∧
      s.isAddrInMSHR cfg addr = true := by
  obtain ⟨bank, hset⟩ := List.length_eq_one_iff.mp halone
  have hbank : bank ∈ cfg.banksOf addr := by
    rw [hset]
    exact List.mem_singleton.mpr rfl
  have hbroadcast : broadcast cfg ⟨0, bank, false, addr⟩ = [] := by
    unfold broadcast
    rw [NucaConfig.bankSet_of_mem hbank, hset]
    simp
  have hrequest : Step cfg initial (.request bank false addr)
      { initial.send [.request ⟨0, bank, false, addr⟩] with nextId := 1 } := by
    simp only [Step, StepOf, next]
    rw [if_pos hbank]
    unfold addRequest
    rw [if_neg]
    · rfl
    · rw [isMSHRFull_initial hfull]
      exact Bool.false_ne_true
  have hdeliver : Step cfg { initial.send [.request ⟨0, bank, false, addr⟩] with nextId := 1 }
      (.deliver 0) (opened cfg { initial with nextId := 1 } ⟨0, bank, false, addr⟩) :=
    congrArg some (handleRequest_first cfg ⟨0, bank, false, addr⟩)
  have hplacement := (tracked_created false (tracked_initial cfg) hbank).placement
  have hhead := opened_isHead_self (e := ⟨0, bank, false, addr⟩) hplacement rfl
  refine ⟨_, _, Run.cons hrequest (Run.single hdeliver), ⟨?_, rfl⟩, ?_⟩
  · rw [opened_messages, hbroadcast]
    rfl
  · apply (MSHR.isAddrInMSHR_iff (MSHR.wellFormed_addToMSHR MSHR.wellFormed_empty)).mpr
    exact hhead.waiting

/-! ### The condition -/

/-- Misses are served in every run that comes to rest, exactly when every set has two banks
or the MSHR takes no request at all. -/
theorem misses_served_iff (cfg : NucaConfig) :
    (∀ labels s, Run (Step cfg) initial labels s → s.Quiescent → MissesServed cfg s) ↔
      (∀ addr, 2 ≤ (cfg.banksOf addr).length) ∨ cfg.mshrMaxSize = 0 ∨
        cfg.geometry.assoc = 1 := by
  constructor
  · intro hserved
    by_contra hnot
    obtain ⟨hsmall, hfull⟩ := not_or.mp hnot
    obtain ⟨addr, hless⟩ := not_forall.mp hsmall
    have hpos := List.length_pos_of_ne_nil (cfg.banksOf_ne_nil addr)
    have halone : (cfg.banksOf addr).length = 1 := by omega
    obtain ⟨labels, s, run, hquiet, hwaits⟩ := alone_waits hfull halone
    rw [(hserved labels s run hquiet).empty addr] at hwaits
    cases hwaits
  · intro hcond labels s run hquiet
    rcases hcond with hbanks | hfull
    · have htracked := tracked_of_quiescent run hquiet
      exact missesServed_of_tracked htracked (waiting_of_quiescent htracked hquiet hbanks)
    · have hparked : Parked s :=
        run.invariant ⟨⟨rfl, rfl⟩, rfl, rfl⟩ (fun _ _ _ h hstep => parked_step hfull h hstep)
      exact missesServed_of_parked hparked

/-- One bank in its row. -/
def oneBank : NucaConfig where
  geometry := threeBanks.geometry
  mapping := .setAssociative
  numLinesBits := 2
  mshrMaxSize := 8
  rows := [0]
  rows_ne := by decide

theorem oneBank_waits : ¬ ∀ labels s, Run (Step oneBank) initial labels s → s.Quiescent →
    MissesServed oneBank s := by
  intro hserved
  have hrun : (exec (next oneBank) initial [.request 0 false 0, .deliver 0]).any
      (fun s => s.messages = [] ∧ s.readsBelow = [] ∧ s.isAddrInMSHR oneBank 0 = true) = true := by
    decide
  obtain ⟨s, hexec, hs⟩ := (Option.any_eq_true _ _).mp hrun
  obtain ⟨hmessages, hreads, hwaits⟩ := of_decide_eq_true hs
  rw [(hserved _ s (run_of_exec hexec) ⟨hmessages, hreads⟩).empty 0] at hwaits
  cases hwaits

end Tejas.NucaState
