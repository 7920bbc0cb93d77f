import Tejas.DNucaReplies

/-!
# One copy of every line

Every step of the banks keeps track of the lines, as long as no bank finds a line for a
request that is not the head of that line any more. Then at most one bank of a set has a
copy, and a hit is reported once. Without the condition a search that was overtaken by the
reply to it takes the line from a later request.
-/

namespace Tejas.NucaState
open LabelledRuns

variable {cfg : NucaConfig} {s t : NucaState} {e e' : NucaRequest} {bank i : ℕ}
  {m message : NucaMessage} {a addr : Address} {inHand rest : List NucaRequest}

/-! ### A line arrives -/

theorem isAbout_carries (h : m.carries cfg addr = true) (e : NucaRequest) :
    m.isAbout e = false := by
  cases m <;> simp_all [NucaMessage.isAbout, NucaMessage.carries]

theorem request?_carries (h : m.carries cfg addr = true) : m.request? = none := by
  cases m <;> simp_all [NucaMessage.request?, NucaMessage.carries]

theorem requests_take (hm : s.messages[i]? = some m) (hnone : m.request? = none) :
    (s.take i).messages.filterMap NucaMessage.request? =
      s.messages.filterMap NucaMessage.request? := by
  obtain ⟨hi, hget⟩ := List.getElem?_eq_some_iff.mp hm
  have herase : (s.take i).messages = s.messages.eraseIdx i := rfl
  conv_rhs => rw [← List.take_append_drop i s.messages, List.drop_eq_getElem_cons hi]
  rw [herase, List.eraseIdx_eq_take_drop_succ, List.filterMap_append, List.filterMap_append,
    List.filterMap_cons, hget, hnone]

/-- A message that is about no request leaves every request alone. -/
theorem sameRequest_take (hm : s.messages[i]? = some m) (habout : m.isAbout e = false) :
    SameRequest s (s.take i) e where
  active := rfl
  pendingReplies := by
    have htake := pendingReplies_take hm e
    rw [searchesFor_about habout] at htake
    exact htake.symm
  hitReplies := by
    have htake := hitReplies_take hm e
    have hne : m ≠ .hitReply e := by
      intro heq
      rw [heq] at habout
      simp [NucaMessage.isAbout] at habout
    rw [if_neg hne] at htake
    exact htake.symm
  searches := by
    intro b hb
    refine mem_take hm hb ?_
    intro heq
    rw [← heq] at habout
    simp [NucaMessage.isAbout] at habout
  history := ⟨[], (List.append_nil _).symm, fun _ hr => by cases hr⟩

/-- The state between a fill and the loop over the requests that waited. -/
def filled (s : NucaState) (bank : ℕ) (lines : LineArray Unit) (mshr : MSHR NucaRequest) :
    NucaState :=
  { s.setLines bank lines with mshr := mshr }

theorem tracked_filled {lines : LineArray Unit} {evicted : Option (CacheLine Unit)}
    {locked : Address → Bool} {missList : List (AddressCarryingEvent NucaRequest)}
    {mshr : MSHR NucaRequest} (h : Tracked cfg s []) (hm : s.messages[i]? = some m)
    (hcarries : m.carries cfg addr = true) (hbank : bank ∈ cfg.banksOf addr)
    (hfill : (s.lines bank).nucaFill cfg.geometry locked addr .shared = some (lines, evicted))
    (hremove : s.mshr.removeEventsFromMSHR cfg.geometry.blockSizeBits addr =
      some (missList, mshr)) : Tracked cfg ((s.take i).filled bank lines mshr) [] := by
  obtain ⟨htagged, hline, hother⟩ := LineArray.nucaFill_spec (h.placement.tagged bank) hfill
  obtain ⟨-, hmshr, hwaiting⟩ := MSHR.removeEvents_spec h.placement.mshr hremove
  -- the line was on its way once, so nobody had it
  have hcarriers : ∀ a, s.carriers cfg a =
      ((s.take i).filled bank lines mshr).carriers cfg a +
        if cfg.geometry.SameLine a addr then 1 else 0 := by
    intro a
    have htake := carriers_take cfg hm a
    have hiff : m.carries cfg a = decide (cfg.geometry.SameLine a addr) := by
      have hsame : ∀ x, cfg.geometry.SameLine x addr →
          decide (cfg.geometry.SameLine x a) = decide (cfg.geometry.SameLine a addr) := by
        intro x hx
        rw [decide_eq_decide]
        exact ⟨fun hxa => hxa.symm.trans hx, fun ha => hx.trans ha.symm⟩
      cases m <;> simp only [NucaMessage.carries, Bool.false_eq_true] at hcarries ⊢
      · exact hsame _ (of_decide_eq_true hcarries)
      · exact hsame _ (of_decide_eq_true hcarries)
    rw [hiff] at htake
    simp only [decide_eq_true_eq] at htake
    exact htake
  have hone := h.tracking.oneCarrier addr
  have haddr := hcarriers addr
  rw [if_pos (Geometry.sameLine_refl _ _)] at haddr
  have hnone : ∀ b, ¬ s.Holds cfg b addr := by
    intro b hold
    have hzero := h.tracking.alone addr b hold
    omega
  have hholds : ∀ b a, ((s.take i).filled bank lines mshr).Holds cfg b a →
      if cfg.geometry.SameLine a addr then b = bank else s.Holds cfg b a := by
    intro b a hold
    have hold := (holds_setLines (s := s.take i)).mp hold
    by_cases hb : b = bank
    · rw [if_pos hb] at hold
      split
      · exact hb
      · rename_i hnot
        rw [hb]
        exact hother a hnot hold
    · rw [if_neg hb] at hold
      split
      · rename_i hsame
        exact absurd ((holds_congr hsame).mp hold) (hnone b)
      · exact hold
  have hwait : ∀ a, ((s.take i).filled bank lines mshr).waiting cfg a =
      if cfg.geometry.SameLine a addr then [] else s.waiting cfg a := hwaiting
  have hsame : ∀ e, SameRequest s ((s.take i).filled bank lines mshr) e := by
    intro e
    have htake := sameRequest_take hm (isAbout_carries hcarries e)
    exact ⟨htake.active, htake.pendingReplies, htake.hitReplies, htake.searches, htake.history⟩
  have hqueued : ((s.take i).filled bank lines mshr).queued [] = s.queued [] := by
    have htake := requests_take hm (request?_carries hcarries)
    have hmessages : ((s.take i).filled bank lines mshr).messages = (s.take i).messages := rfl
    unfold queued
    rw [hmessages, htake]
    rfl
  constructor
  case placement =>
    constructor
    case tagged =>
      intro b
      exact tagged_setLines (s := s.take i) bank h.placement.tagged htagged b
    case mshr => exact hmshr
    case messages => exact fun m' hm' => h.placement.messages m' (mem_of_take hm')
    case reads => exact h.placement.reads
    case queued =>
      rw [hqueued]
      exact h.placement.queued
    case holders =>
      intro b a hold
      have hold := hholds b a hold
      split at hold
      · rename_i hsame
        rw [hold, NucaConfig.banksOf_congr hsame]
        exact hbank
      · exact h.placement.holders b a hold
    case head =>
      intro a event hevent
      rw [hwait] at hevent
      split at hevent
      · cases hevent
      · exact h.placement.head a event hevent
  case freshness =>
    have hun : ∀ e, s.Unsearched e → ((s.take i).filled bank lines mshr).Unsearched e :=
      fun e hun => ⟨hun.inactive, fun m' hm' => hun.messages m' (mem_of_take hm'), hun.history⟩
    constructor
    case fresh =>
      intro e hid
      rw [hqueued]
      obtain ⟨hfresh, hnot⟩ := h.freshness.fresh e hid
      exact ⟨hun e hfresh, hnot⟩
    case unsearched =>
      rw [hqueued]
      exact fun e he => hun e (h.freshness.unsearched e he)
    case nodup =>
      rw [hqueued]
      exact h.freshness.nodup
  case tracking =>
    have hrequest : ∀ e, RequestTracked cfg ((s.take i).filled bank lines mshr) e := by
      intro e
      have hcar := hcarriers e.address
      have hwaite := hwait e.address
      by_cases hline' : cfg.geometry.SameLine e.address addr
      · rw [if_pos hline'] at hcar hwaite
        have hnot : ¬ ((s.take i).filled bank lines mshr).IsHead cfg e := by
          intro hhead
          exact hhead.waiting hwaite
        have hnotHead : ¬ (s.IsHead cfg e ∧ s.carriers cfg e.address = 0) := by
          intro hboth
          omega
        have hbefore := h.tracking.request e
        constructor
        case searching => exact fun hhead => absurd hhead hnot
        case active =>
          intro c hc
          rw [(hsame e).hitReplies, (hsame e).pendingReplies]
          rcases hbefore.active c hc with hhead | hhit
          · exact absurd hhead hnotHead
          · exact Or.inr hhit
        case hits =>
          rw [(hsame e).hitReplies]
          exact hbefore.hits
        case served =>
          intro hmisses
          rcases hbefore.served hmisses with hhead | hserved
          · exact absurd hhead hnotHead
          · exact Or.inr hserved
        case reads => exact fun hread => (hbefore.reads hread).of_same (hsame e)
      · rw [if_neg hline', Nat.add_zero] at hcar
        rw [if_neg hline'] at hwaite
        have hiff : ((s.take i).filled bank lines mshr).IsHead cfg e ↔ s.IsHead cfg e := by
          unfold IsHead
          rw [hwaite]
        refine (h.tracking.request e).of_same (hsame e) ?_ hiff.mp ?_ ?_
        · intro b hold
          have hold := hholds b _ hold
          rw [if_neg hline'] at hold
          exact hold
        · intro hhead hzero
          exact ⟨hiff.mpr hhead, hcar ▸ hzero⟩
        · intro _ hzero
          exact hcar.trans hzero
    constructor
    case single =>
      intro a b b' hb hb'
      have hb := hholds b a hb
      have hb' := hholds b' a hb'
      split at hb
      · rename_i hsame'
        rw [if_pos hsame'] at hb'
        rw [hb, hb']
      · rename_i hnot
        rw [if_neg hnot] at hb'
        exact h.tracking.single a b b' hb hb'
    case alone =>
      intro a b hold
      have hold := hholds b a hold
      have hcar := hcarriers a
      split at hold
      · rename_i hsame'
        rw [if_pos hsame', carriers_congr hsame'] at hcar
        omega
      · have hzero := h.tracking.alone a b hold
        omega
    case oneCarrier =>
      intro a
      have hcar := hcarriers a
      have hle := h.tracking.oneCarrier a
      omega
    case carried =>
      intro a hne
      have hcar := hcarriers a
      have hle := h.tracking.oneCarrier a
      rw [hwait]
      split
      · rename_i hsame'
        rw [if_pos hsame'] at hcar
        omega
      · exact h.tracking.carried a (by omega)
    case searching => exact fun e => (hrequest e).searching
    case active => exact fun e => (hrequest e).active
    case hits => exact fun e => (hrequest e).hits
    case served => exact fun e => (hrequest e).served
    case reads => exact fun e => (hrequest e).reads

/-- The requests that waited change the state of the line only. -/
theorem tracked_processEvents {list : List (AddressCarryingEvent NucaRequest)}
    (h : Tracked cfg s []) (hstep : processEvents cfg bank addr s list = .ok t) :
    Tracked cfg t [] := by
  induction list generalizing s with
  | nil =>
    rw [processEvents] at hstep
    cases hstep
    exact h
  | cons event rest ih =>
    rw [processEvents] at hstep
    split at hstep
    · split at hstep
      · cases hstep
      · rename_i j hvalid
        refine ih (tracked_setLines h ?_ ?_) hstep
        · exact LineArray.tagged_setState (h.placement.tagged bank) _
        · intro a hstate
          rw [LineArray.stateAt_setState] at hstate
          split at hstate
          · rename_i hboth
            have hold : s.Holds cfg bank addr := by
              apply LineArray.accessValid_eq_some_iff.mp
              rw [hvalid]
              rfl
            exact (holds_congr hboth.1).mpr hold
          · exact hstate
    · exact ih h hstep

/-- A line that finds no room goes back into the event queue. -/
theorem tracked_requeued (h : Tracked cfg s []) (hm : s.messages[i]? = some m) :
    Tracked cfg ((s.take i).send [m]) [] := by
  have hperm : List.Perm ((s.take i).send [m]).messages s.messages :=
    (List.perm_append_singleton _ _).trans (messages_perm hm)
  refine tracked_moved h ⟨rfl, rfl, rfl, rfl, rfl, ?_, fun p hp => hp, ?_, ?_, ?_, ?_, ?_⟩
  · exact fun m' hm' => Or.inl (hperm.mem_iff.mp hm')
  · exact List.Perm.append_left _ (hperm.filterMap _)
  · intro a
    have hreads : ((s.take i).send [m]).readsBelow = s.readsBelow := rfl
    unfold carriers
    rw [hperm.countP_eq, hreads]
  · exact fun e => hperm.countP_eq _
  · exact fun e => hperm.count_eq _
  · exact fun e b hb => hperm.mem_iff.mpr hb

theorem tracked_handleFill (h : Tracked cfg s []) (hm : s.messages[i]? = some m)
    (hcarries : m.carries cfg addr = true) (hbank : bank ∈ cfg.banksOf addr)
    (hstep : (s.take i).handleFill cfg m bank addr = .ok t) : Tracked cfg t [] := by
  unfold handleFill at hstep
  split at hstep
  · unfold fillAndSatisfyRequests at hstep
    split at hstep
    · cases hstep
    · rename_i lines evicted hfill
      split at hstep
      · cases hstep
      · unfold processEventsInMSHR at hstep
        split at hstep
        · cases hstep
        · rename_i missList mshr hremove
          split at hstep
          · cases hstep
          · rename_i u hevents
            cases hstep
            apply tracked_processEventsInPendingList
            exact tracked_processEvents (tracked_filled h hm hcarries hbank hfill hremove) hevents
  · cases hstep
    exact tracked_requeued h hm

/-! ### Requests and answers -/

/-- A request leaves its port. -/
theorem tracked_arrived (h : Tracked cfg s []) (hm : s.messages[i]? = some (.request e)) :
    Tracked cfg (s.take i) [e] := by
  have habout : ∀ e', (NucaMessage.request e).isAbout e' = false := fun _ => rfl
  refine tracked_moved h ⟨rfl, rfl, rfl, rfl, rfl, ?_, fun p hp => hp, ?_, ?_, ?_, ?_, ?_⟩
  · exact fun m' hm' => Or.inl (mem_of_take hm')
  · have hmessages := (messages_perm hm).filterMap NucaMessage.request?
    rw [List.filterMap_cons] at hmessages
    unfold queued
    have hmiddle : List.Perm
        (s.eventsWaitingOnMSHR ++ e :: (s.take i).messages.filterMap NucaMessage.request?)
        (e :: (s.eventsWaitingOnMSHR ++ (s.take i).messages.filterMap NucaMessage.request?)) :=
      List.perm_middle
    exact hmiddle.symm.trans (List.Perm.append_left _ hmessages)
  · intro a
    exact (carriers_take cfg hm a).symm
  · exact fun e' => (sameRequest_take hm (habout e')).pendingReplies
  · exact fun e' => (sameRequest_take hm (habout e')).hitReplies
  · exact fun e' b hb => (sameRequest_take hm (habout e')).searches b hb

theorem tracked_answer {p : ℕ × Address} (h : Tracked cfg s [])
    (hread : s.readsBelow[i]? = some p) :
    Tracked cfg { s.send [.memResponse p.1 p.2] with
      readsBelow := s.readsBelow.eraseIdx i } [] := by
  obtain ⟨hi, hget⟩ := List.getElem?_eq_some_iff.mp hread
  have hperm : List.Perm (p :: s.readsBelow.eraseIdx i) s.readsBelow := by
    rw [← hget]
    exact List.getElem_cons_eraseIdx_perm hi
  refine tracked_moved h ⟨rfl, rfl, rfl, rfl, rfl, ?_, ?_, ?_, ?_, ?_, ?_, ?_⟩
  · intro m' hm'
    rcases List.mem_append.mp hm' with hm' | hm'
    · exact Or.inl hm'
    · cases List.mem_singleton.mp hm'
      exact Or.inr ⟨h.placement.reads p (List.mem_of_getElem? hread), fun _ => rfl⟩
  · exact fun q hq => List.mem_of_mem_eraseIdx hq
  · unfold queued send
    dsimp only
    rw [List.filterMap_append]
    exact List.Perm.of_eq (congrArg _ (List.append_nil _))
  · intro a
    have hcount := hperm.countP_eq (fun q => decide (cfg.geometry.SameLine q.2 a))
    rw [List.countP_cons] at hcount
    unfold carriers send
    dsimp only
    rw [List.countP_append, ← hcount, List.countP_singleton]
    unfold NucaMessage.carries
    dsimp only
    omega
  · exact fun e => pendingReplies_send s [.memResponse p.1 p.2] e
  · exact fun e => hitReplies_send s [.memResponse p.1 p.2] e
  · exact fun e b hb => List.mem_append_left _ hb

/-- A new request is in hand. -/
theorem tracked_created (isWrite : Bool) (h : Tracked cfg s [])
    (hbank : bank ∈ cfg.banksOf addr) :
    Tracked cfg { s with nextId := s.nextId + 1 } [⟨s.nextId, bank, isWrite, addr⟩] := by
  obtain ⟨hun, hnot⟩ := h.freshness.fresh ⟨s.nextId, bank, isWrite, addr⟩ le_rfl
  have hsame : ∀ e', s.Unsearched e' → Unsearched { s with nextId := s.nextId + 1 } e' :=
    fun e' hun => ⟨hun.inactive, hun.messages, hun.history⟩
  constructor
  case placement =>
    constructor
    case tagged => exact h.placement.tagged
    case mshr => exact h.placement.mshr
    case messages => exact h.placement.messages
    case reads => exact h.placement.reads
    case queued =>
      intro e' he'
      rcases List.mem_cons.mp he' with rfl | he'
      · exact hbank
      · exact h.placement.queued e' he'
    case holders => exact h.placement.holders
    case head => exact h.placement.head
  case freshness =>
    constructor
    case fresh =>
      intro e' hid
      have hlater : s.nextId + 1 ≤ e'.id := hid
      obtain ⟨hfresh, hnot'⟩ := h.freshness.fresh e' (by omega)
      refine ⟨hsame e' hfresh, ?_⟩
      intro hmem
      rcases List.mem_cons.mp hmem with heq | hmem
      · rw [heq] at hlater
        simp only at hlater
        omega
      · exact hnot' hmem
    case unsearched =>
      intro e' he'
      rcases List.mem_cons.mp he' with rfl | he'
      · exact hsame _ hun
      · exact hsame e' (h.freshness.unsearched e' he')
    case nodup => exact List.nodup_cons.mpr ⟨hnot, h.freshness.nodup⟩
  case tracking =>
    exact h.tracking.congr ⟨fun _ _ hold => hold, fun _ => rfl, fun _ => rfl, rfl, fun _ => rfl,
      fun _ => rfl, fun _ _ hm => hm, rfl⟩

theorem tracked_addRequest {isWrite : Bool} (h : Tracked cfg s [])
    (hbank : bank ∈ cfg.banksOf addr) :
    Tracked cfg (s.addRequest cfg ⟨s.nextId, bank, isWrite, addr⟩) [] := by
  have hcreated := tracked_created isWrite h hbank
  have hplaced := hcreated.placement.queued _ List.mem_cons_self
  unfold addRequest
  split
  · refine tracked_moved hcreated ⟨rfl, rfl, rfl, rfl, rfl, fun m hm => Or.inl hm,
      fun p hp => hp, ?_, fun _ => rfl, fun _ => rfl, fun _ => rfl, fun _ _ hm => hm⟩
    exact List.Perm.append_right _ (List.perm_append_singleton _ _)
  · refine tracked_moved hcreated ⟨rfl, rfl, rfl, rfl, rfl, ?_, fun p hp => hp, ?_, ?_, ?_, ?_, ?_⟩
    · intro m' hm'
      rcases List.mem_append.mp hm' with hm' | hm'
      · exact Or.inl hm'
      · cases List.mem_singleton.mp hm'
        exact Or.inr ⟨hplaced, fun _ => rfl⟩
    · unfold queued send
      dsimp only
      rw [List.filterMap_append, ← List.append_assoc]
      exact List.perm_append_singleton _ _
    · exact fun a => carriers_send cfg s [.request ⟨s.nextId, bank, isWrite, addr⟩] a
    · exact fun e => pendingReplies_send s [.request ⟨s.nextId, bank, isWrite, addr⟩] e
    · exact fun e => hitReplies_send s [.request ⟨s.nextId, bank, isWrite, addr⟩] e
    · exact fun e b hb => List.mem_append_left _ hb

/-! ### Steps and runs -/

/-- No bank finds a line for a request that is not the head of its line. -/
def FindsFresh (cfg : NucaConfig) (s : NucaState) : Action → Prop
  | .deliver i =>
    match s.messages[i]? with
    | some (.search e bank) => s.Fresh cfg e bank
    | _ => True
  | _ => True

instance (cfg : NucaConfig) (s : NucaState) (bank : ℕ) (addr : Address) :
    Decidable (s.Holds cfg bank addr) := inferInstanceAs (Decidable (_ ≠ _))

instance (cfg : NucaConfig) (s : NucaState) (e : NucaRequest) (bank : ℕ) :
    Decidable (s.Fresh cfg e bank) :=
  inferInstanceAs (Decidable (_ = _ ∨ _ = _ ∨ ¬ _ ≠ _ ∨ _ = _))

instance (cfg : NucaConfig) (s : NucaState) (action : Action) :
    Decidable (s.FindsFresh cfg action) :=
  match action with
  | .request _ _ _ => instDecidableTrue
  | .answer _ => instDecidableTrue
  | .deliver i =>
    match h : s.messages[i]? with
    | none => decidable_of_iff True (by simp [FindsFresh, h])
    | some (.search e bank) => decidable_of_iff (s.Fresh cfg e bank) (by simp [FindsFresh, h])
    | some (.request _) => decidable_of_iff True (by simp [FindsFresh, h])
    | some (.hitReply _) => decidable_of_iff True (by simp [FindsFresh, h])
    | some (.missReply _) => decidable_of_iff True (by simp [FindsFresh, h])
    | some (.migrateBlock _ _) => decidable_of_iff True (by simp [FindsFresh, h])
    | some (.memResponse _ _) => decidable_of_iff True (by simp [FindsFresh, h])

theorem tracked_handleEvent (h : Tracked cfg s []) (hm : s.messages[i]? = some m)
    (hfresh : s.FindsFresh cfg (.deliver i)) (hstep : handleEvent cfg (s.take i) m = .ok t) :
    Tracked cfg t [] := by
  have hplaced := h.placement.messages m (List.mem_of_getElem? hm)
  cases m with
  | request e =>
    cases hstep
    exact tracked_handleRequest (tracked_arrived h hm)
  | search e bank =>
    simp only [FindsFresh, hm] at hfresh
    exact tracked_handleBroadcastAccess h hm hfresh hstep
  | hitReply e =>
    have hreply := (handleHitReply_eq h hm).symm.trans hstep
    cases hreply
    exact tracked_hitReply h hm
  | missReply e =>
    cases hstep
    exact tracked_handleMissReply h hm
  | migrateBlock bank addr =>
    exact tracked_handleFill h hm (decide_eq_true (Geometry.sameLine_refl _ _)) hplaced hstep
  | memResponse bank addr =>
    exact tracked_handleFill h hm (decide_eq_true (Geometry.sameLine_refl _ _)) hplaced hstep

theorem tracked_step {action : Action} (h : Tracked cfg s []) (hfresh : s.FindsFresh cfg action)
    (hstep : Step cfg s action t) : Tracked cfg t [] := by
  cases action with
  | request bank isWrite address =>
    simp only [Step, StepOf, next] at hstep
    split at hstep
    · rename_i hbank
      cases hstep
      exact tracked_addRequest h hbank
    · cases hstep
  | deliver i =>
    simp only [Step, StepOf, next] at hstep
    split at hstep
    · cases hstep
    · rename_i m hm
      split at hstep
      · cases hstep
      · rename_i u hevent
        cases hstep
        exact tracked_handleEvent h hm hfresh hevent
  | answer i =>
    simp only [Step, StepOf, next] at hstep
    split at hstep
    · cases hstep
    · rename_i bank addr hread
      cases hstep
      exact tracked_answer h hread

theorem tracked_initial (cfg : NucaConfig) : Tracked cfg initial [] := by
  have hempty : ∀ bank addr, ¬ initial.Holds cfg bank addr := by
    intro bank addr hold
    apply hold
    unfold LineArray.stateAt
    split
    · rfl
    · rfl
  have hwaiting : ∀ addr, initial.waiting cfg addr = [] := fun _ => rfl
  constructor
  case placement =>
    constructor
    case tagged => exact fun _ => LineArray.tagged_new _
    case mshr => exact MSHR.wellFormed_empty
    case messages => exact fun _ hm => by cases hm
    case reads => exact fun _ hp => by cases hp
    case queued => exact fun _ he => by cases he
    case holders => exact fun bank addr hold => absurd hold (hempty bank addr)
    case head => exact fun _ _ hevent => by cases hevent
  case freshness =>
    constructor
    case fresh =>
      intro e _
      refine ⟨⟨rfl, ?_, ?_⟩, fun he => by cases he⟩
      · exact fun _ hm => by cases hm
      · exact fun _ hr => by cases hr
    case unsearched => exact fun _ he => by cases he
    case nodup => exact List.nodup_nil
  case tracking =>
    constructor
    case single => exact fun addr b _ hb => absurd hb (hempty b addr)
    case alone => exact fun addr b hb => absurd hb (hempty b addr)
    case oneCarrier => exact fun _ => Nat.zero_le _
    case carried => exact fun _ hne => absurd rfl hne
    case searching => exact fun e he => absurd (hwaiting _) he.waiting
    case active => exact fun _ _ hc => by cases hc
    case hits => exact fun _ hne => absurd rfl hne
    case served => exact fun _ hmem => by cases hmem
    case reads => exact fun _ hmem => by cases hmem

/-- At most one bank has a copy of a line, and no hit is reported twice. -/
structure SingleCopies (cfg : NucaConfig) (s : NucaState) : Prop where
  single : ∀ addr b b', s.Holds cfg b addr → s.Holds cfg b' addr → b = b'
  noSecondHit : ∀ i m, s.messages[i]? = some m →
    handleEvent cfg (s.take i) m ≠ .error .hitMoreThanOnce

theorem processEvents_exit {list : List (AddressCarryingEvent NucaRequest)} {exit : NucaExit}
    (h : processEvents cfg bank addr s list = .error exit) : exit = .cacheWriteExpectsLine := by
  induction list generalizing s with
  | nil => cases h
  | cons event rest ih =>
    rw [processEvents] at h
    split at h
    · split at h
      · cases h
        rfl
      · exact ih h
    · exact ih h

theorem handleFill_exit (h : s.handleFill cfg m bank addr = .error .hitMoreThanOnce) : False := by
  unfold handleFill at h
  split at h
  · unfold fillAndSatisfyRequests at h
    split at h
    · cases h
    · split at h
      · cases h
      · unfold processEventsInMSHR at h
        split at h
        · cases h
        · split at h
          · rename_i exit hexit
            cases h
            cases processEvents_exit hexit
          · cases h
  · cases h

/-- Only a hit reply ends in the exit for a second hit. -/
theorem hitReply_of_exit (h : handleEvent cfg s m = .error .hitMoreThanOnce) :
    ∃ e, m = .hitReply e := by
  cases m with
  | request e => cases h
  | hitReply e => exact ⟨e, rfl⟩
  | missReply e => cases h
  | migrateBlock bank addr => exact absurd h handleFill_exit
  | memResponse bank addr => exact absurd h handleFill_exit
  | search e bank =>
    simp only [handleEvent, handleBroadcastAccess] at h
    split at h
    · cases h
    · split at h
      · dsimp only [doMigration] at h
        split at h
        · cases h
        · cases h
      · cases h

theorem Tracked.singleCopies (h : Tracked cfg s []) : SingleCopies cfg s where
  single := h.tracking.single
  noSecondHit := by
    intro i m hm hexit
    obtain ⟨e, rfl⟩ := hitReply_of_exit hexit
    have hreply := (handleHitReply_eq h hm).symm.trans hexit
    cases hreply

/-- In a run in which every line is found for the head of its line, there is one copy of
every line. -/
theorem single_copy (cfg : NucaConfig) (labels : List Action) (s : NucaState)
    (run : Run (Guarded (Step cfg) (FindsFresh cfg)) initial labels s) : SingleCopies cfg s := by
  have htracked : Tracked cfg s [] :=
    Run.invariant (I := fun s => Tracked cfg s []) run (tracked_initial cfg)
      (fun _ _ _ h hstep => tracked_step h hstep.1 hstep.2)
  exact htracked.singleCopies

/-- Three banks in one row, with one set of four lines each. -/
def threeBanks : NucaConfig where
  geometry := ⟨0, 6, 4, by decide, Geometry.oneSet_bits⟩
  mapping := .setAssociative
  numLinesBits := 2
  mshrMaxSize := 8
  rows := [0, 0, 0]
  rows_ne := by decide

/-- A line is read from the next level and then moves one bank towards a second request. -/
def oneMigration : List Action :=
  [.request 1 false 0, .deliver 0, .deliver 0, .deliver 0, .deliver 0, .deliver 0, .answer 0,
    .deliver 0, .request 0 false 0, .deliver 0, .deliver 0, .deliver 1]

theorem single_copy_threeBanks : ∃ s : NucaState,
    s.Holds threeBanks 0 0 ∧ s.messages.length = 2 ∧ SingleCopies threeBanks s := by
  have hrun : (exec (fun s a => if FindsFresh threeBanks s a then next threeBanks s a else none)
      initial oneMigration).any
      (fun s => s.Holds threeBanks 0 0 ∧ s.messages.length = 2) = true := by decide
  obtain ⟨s, hexec, hs⟩ := (Option.any_eq_true _ _).mp hrun
  obtain ⟨hholds, hmessages⟩ := of_decide_eq_true hs
  exact ⟨s, hholds, hmessages, single_copy threeBanks _ s (guarded_run_of_exec hexec)⟩

/-- The search of the second request is overtaken: it reaches its last bank only when the
line, moved by two other requests, is there and is being searched for by a fifth one. -/
def staleSearch : List Action :=
  [.request 1 false 0, .deliver 0, .deliver 0, .deliver 0, .deliver 0, .deliver 0, .answer 0,
    .deliver 0, .request 0 false 0, .deliver 0, .deliver 0, .deliver 1,
    .request 2 false 0, .deliver 2, .deliver 2, .deliver 3, .deliver 2, .deliver 2,
    .request 2 false 0, .deliver 2, .deliver 3, .deliver 3, .deliver 3, .deliver 2,
    .request 0 false 0, .deliver 2, .deliver 0, .deliver 0]

theorem two_hit_replies : ¬ ∀ labels s, Run (Step threeBanks) initial labels s →
    SingleCopies threeBanks s := by
  intro hsingle
  have hrun : (exec (next threeBanks) initial staleSearch).any
      (fun s => s.messages[3]? = some (.hitReply ⟨1, 0, false, 0⟩) ∧
        s.activeEventsInNuca 0 ⟨1, 0, false, 0⟩ = none) = true := by decide
  obtain ⟨s, hexec, hs⟩ := (Option.any_eq_true _ _).mp hrun
  obtain ⟨hmessage, hinactive⟩ := of_decide_eq_true hs
  apply (hsingle _ s (run_of_exec hexec)).noSecondHit 3 _ hmessage
  have hsame : (s.take 3).activeEventsInNuca 0 ⟨1, 0, false, 0⟩ = none := hinactive
  unfold handleEvent handleHitReply
  dsimp only
  rw [hsame]

end Tejas.NucaState
