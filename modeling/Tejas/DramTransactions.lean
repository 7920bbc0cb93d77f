import Tejas.DramRuns
import Tejas.ActivateWindow

/-!
# No transaction is lost

A transaction waits in the list, then in the command queue, and a read then goes to its rank
and back. Whoever counts the places that hold a read finds it in one of them, and an answer
carries the address and the requester of its read. The controller searches the list for a
transaction that finds room, but removes the head of the list, so this holds while the
transaction that finds room is the head.
-/

namespace Tejas
open LabelledRuns

variable {cfg : MainMemoryConfig} {E : Type}

namespace Dram

variable (s : Dram cfg E)

/-- How many events of a list carry a transaction. -/
def carried (testid : ℕ) (events : List (RamBusEvent cfg E)) : ℕ :=
  events.countP (fun event => event.busPacket.testid = testid)

/-- How often a list of packets has the column command of a read. -/
def readsOf (testid : ℕ) (packets : List (MainMemoryBusPacket cfg E)) : ℕ :=
  packets.countP (fun b => b.isRead && b.testid = testid)

/-- How often a read is on its way to its rank or back. -/
def inFlight (testid : ℕ) : ℕ :=
  readsOf testid (s.commands.map (fun event => event.busPacket)) + carried testid s.columnReads +
    carried testid s.rankResponses

/-- How often a read is answered. -/
def answers (testid : ℕ) : ℕ := s.responses.countP (fun response => response.testid = testid)

/-- How often a transaction waits in the list. -/
def waiting (testid : ℕ) : ℕ := s.pendingTransQueue.countP (fun b => b.testid = testid)

/-- The answer to a read carries its address and goes to its requester. -/
def Answers (c : MainMemoryBusPacket cfg E) (response : MemResponse E) : Prop :=
  c.isRead = true ∧ response.testid = c.testid ∧ response.requester = c.payloadElement ∧
    response.address = c.physicalAddress

/-- Every transaction is moved from the list to the command queue once, and every read is in
one place or answered once. -/
structure Conserves : Prop where
  numbered : (s.accepted.map (fun b => b.testid)).Nodup
  moved : s.accepted.Perm (s.history.enqueued ++ s.pendingTransQueue)
  once : ∀ c ∈ s.accepted, c.isRead = true →
    s.waiting c.testid + MainMemoryBusPacket.copies c.testid
        (s.history.queue c.rank (cfg.queueIndex c.bank)) +
      s.inFlight c.testid + s.answers c.testid = 1
  own : ∀ response ∈ s.responses, ∃ c ∈ s.accepted, Answers c response

/-- The transaction that finds room in the command queue is the head of the list. -/
def EnqueuesHead (action : DramAction cfg E) : Prop :=
  action = .enqueueToCommandQ → ∀ b, s.pendingTransQueue.find? (fun b => s.hasRoom b) = some b →
    s.pendingTransQueue.head? = some b

/-- The data of a read that was popped. -/
def CarriesRead (event : RamBusEvent cfg E) : Prop :=
  ∃ c ∈ s.history.popped, c.isRead = true ∧ event.busPacket = c.withType .data ∧
    event.address = c.physicalAddress

/-- The reads that were popped are on their way or answered. -/
structure Flows : Prop where
  counted : ∀ testid, readsOf testid s.history.popped = s.inFlight testid + s.answers testid
  commands : ∀ event ∈ s.commands, event.busPacket ∈ s.history.popped ∧
    event.address = event.busPacket.physicalAddress
  columnReads : ∀ event ∈ s.columnReads, s.CarriesRead event
  rankResponses : ∀ event ∈ s.rankResponses, s.CarriesRead event
  responses : ∀ response ∈ s.responses, ∃ c ∈ s.history.popped, Answers c response

variable {s} {s' : Dram cfg E} {t : BlockTable cfg E} {labels : List (DramAction cfg E)}
  {action : DramAction cfg E} {testid : ℕ}

@[simp] theorem carried_nil : carried testid ([] : List (RamBusEvent cfg E)) = 0 := rfl

@[simp] theorem carried_append {l l' : List (RamBusEvent cfg E)} :
    carried testid (l ++ l') = carried testid l + carried testid l' := List.countP_append

theorem carried_erase [DecidableEq E] {event : RamBusEvent cfg E} {l : List (RamBusEvent cfg E)}
    (testid : ℕ) (h : event ∈ l) :
    carried testid l = carried testid [event] + carried testid (l.erase event) := by
  rw [← carried_append]
  exact (List.perm_cons_erase h).countP_eq _

/-- An event that is put off carries what it carried. -/
theorem carried_putOff (testid : ℕ) (event : RamBusEvent cfg E) (time : ℤ) :
    carried testid [{ event with eventTime := time }] = carried testid [event] := rfl

@[simp] theorem readsOf_append {l l' : List (MainMemoryBusPacket cfg E)} :
    readsOf testid (l ++ l') = readsOf testid l + readsOf testid l' := List.countP_append

theorem flows_new : Flows (new cfg E) where
  counted := fun _ => rfl
  commands := fun _ hmem => absurd hmem List.not_mem_nil
  columnReads := fun _ hmem => absurd hmem List.not_mem_nil
  rankResponses := fun _ hmem => absurd hmem List.not_mem_nil
  responses := fun _ hmem => absurd hmem List.not_mem_nil

/-- A step that leaves the reads that were popped and what became of them alone. -/
theorem Flows.congr (h : s.Flows) (hpopped : s'.history.popped = s.history.popped)
    (hcommands : s'.commands = s.commands) (hcolumn : s'.columnReads = s.columnReads)
    (hrank : s'.rankResponses = s.rankResponses) (hresponses : s'.responses = s.responses) :
    s'.Flows := by
  obtain ⟨counted, commands, columnReads, rankResponses, responses⟩ := h
  constructor
  case counted =>
    simpa only [inFlight, answers, hpopped, hcommands, hcolumn, hrank, hresponses] using counted
  all_goals
    simp only [CarriesRead, hpopped, hcommands, hcolumn, hrank, hresponses]
    assumption

/-- A command that is popped is on its way to its rank. -/
theorem Flows.oneCycleOperation (h : s.Flows) : s.oneCycleOperation.Flows := by
  rw [Dram.oneCycleOperation]
  generalize s.history.controller.popCommand s.clock = result
  obtain ⟨_ | b, controller⟩ := result
  · exact h.congr (List.append_nil _) rfl rfl rfl rfl
  · have hlater : ∀ event, s.CarriesRead event → ∃ c ∈ s.history.popped ++ [b], c.isRead = true ∧
        event.busPacket = c.withType .data ∧ event.address = c.physicalAddress := by
      rintro event ⟨c, hc, hcarries⟩
      exact ⟨c, List.mem_append_left _ hc, hcarries⟩
    constructor
    case counted =>
      intro testid
      have hold := h.counted testid
      simp only [inFlight, answers, Option.toList_some, readsOf_append, List.map_append,
        List.map_cons, List.map_nil] at hold ⊢
      omega
    case commands =>
      intro event hmem
      rcases List.mem_append.mp hmem with hmem | hmem
      · exact ⟨List.mem_append_left _ (h.commands event hmem).1, (h.commands event hmem).2⟩
      · rw [List.mem_singleton.mp hmem]
        exact ⟨List.mem_append_right _ List.mem_cons_self, rfl⟩
    case columnReads => exact fun event hmem => hlater event (h.columnReads event hmem)
    case rankResponses => exact fun event hmem => hlater event (h.rankResponses event hmem)
    case responses =>
      intro response hmem
      obtain ⟨c, hc, hanswers⟩ := h.responses response hmem
      exact ⟨c, List.mem_append_left _ hc, hanswers⟩

/-- A read that arrives at its rank comes back as data. -/
theorem Flows.command (h : s.Flows) {event : RamBusEvent cfg E} {rest : List (RamBusEvent cfg E)}
    (ranks : BankStates cfg) (hcommands : s.commands = event :: rest) :
    Flows { s with
      ranks := ranks
      commands := rest
      columnReads := s.columnReads ++
        if event.busPacket.isRead then
          [{ event with
            eventTime := event.eventTime + cfg.tRL
            busPacket := event.busPacket.withType .data }]
        else [] } := by
  have hevent := h.commands event (by rw [hcommands]; exact List.mem_cons_self)
  constructor
  case counted =>
    intro testid
    have hold := h.counted testid
    have hhead : readsOf testid [event.busPacket] =
        carried testid (if event.busPacket.isRead then
          [{ event with
            eventTime := event.eventTime + cfg.tRL
            busPacket := event.busPacket.withType .data }]
        else []) := by
      cases hread : event.busPacket.isRead <;>
        simp [readsOf, carried, List.countP_cons, hread, MainMemoryBusPacket.withType]
    have hcons : s.commands.map (fun event => event.busPacket) =
        [event.busPacket] ++ rest.map (fun event => event.busPacket) := by
      rw [hcommands]
      rfl
    simp only [inFlight, answers, hcons, readsOf_append, carried_append] at hold ⊢
    omega
  case commands =>
    intro event' hmem
    exact h.commands event' (by rw [hcommands]; exact List.mem_cons_of_mem _ hmem)
  case columnReads =>
    intro event' hmem
    rcases List.mem_append.mp hmem with hmem | hmem
    · exact h.columnReads event' hmem
    · split at hmem
      case isTrue hread =>
        rw [List.mem_singleton.mp hmem]
        exact ⟨event.busPacket, hevent.1, hread, rfl, hevent.2⟩
      case isFalse => cases hmem
  case rankResponses => exact h.rankResponses
  case responses => exact h.responses

variable [DecidableEq E]

/-- The data of a read crosses the bus, or waits for it. -/
theorem Flows.handleColumnReadComplete (h : s.Flows) {event : RamBusEvent cfg E}
    (hmem : event ∈ s.columnReads) : (s.handleColumnReadComplete event).Flows := by
  have hcarries := h.columnReads event hmem
  have herase : ∀ event' ∈ s.columnReads.erase event, s.CarriesRead event' :=
    fun event' hmem' => h.columnReads event' (List.mem_of_mem_erase hmem')
  rw [Dram.handleColumnReadComplete]
  split
  · constructor
    case counted =>
      intro testid
      have hold := h.counted testid
      have hsplit := carried_erase testid hmem
      simp only [inFlight, answers, carried_append, carried_putOff] at hold ⊢
      omega
    case commands => exact h.commands
    case columnReads => exact herase
    case rankResponses =>
      intro event' hmem'
      rcases List.mem_append.mp hmem' with hmem' | hmem'
      · exact h.rankResponses event' hmem'
      · rw [List.mem_singleton.mp hmem']
        exact hcarries
    case responses => exact h.responses
  · constructor
    case counted =>
      intro testid
      have hold := h.counted testid
      have hsplit := carried_erase testid hmem
      simp only [inFlight, answers, carried_append, carried_putOff] at hold ⊢
      omega
    case commands => exact h.commands
    case columnReads =>
      intro event' hmem'
      rcases List.mem_append.mp hmem' with hmem' | hmem'
      · exact herase event' hmem'
      · rw [List.mem_singleton.mp hmem']
        exact hcarries
    case rankResponses => exact h.rankResponses
    case responses => exact h.responses

/-- The answer is made from the packet of its read. -/
theorem Flows.handleRankResponse (h : s.Flows) {event : RamBusEvent cfg E}
    (hmem : event ∈ s.rankResponses) : (s.handleRankResponse event).Flows := by
  obtain ⟨c, hc, hread, hpacket, haddress⟩ := h.rankResponses event hmem
  constructor
  case counted =>
    intro testid
    have hold := h.counted testid
    have hsplit := carried_erase testid hmem
    have hanswer : s.responses.countP (fun response => response.testid = testid) +
        carried testid [event] = (s.handleRankResponse event).answers testid := by
      simp [Dram.handleRankResponse, answers, carried, List.countP_append, List.countP_cons]
    simp only [inFlight, answers] at hold
    rw [← hanswer]
    simp only [inFlight, Dram.handleRankResponse]
    omega
  case commands => exact h.commands
  case columnReads => exact h.columnReads
  case rankResponses =>
    exact fun event' hmem' => h.rankResponses event' (List.mem_of_mem_erase hmem')
  case responses =>
    intro response hmem'
    rcases List.mem_append.mp hmem' with hmem' | hmem'
    · exact h.responses response hmem'
    · rw [List.mem_singleton.mp hmem']
      refine ⟨c, hc, hread, ?_, ?_, haddress⟩
      · rw [hpacket]
        rfl
      · rw [hpacket]
        rfl

theorem Flows.move (h : s.Flows) (hmove : Move s action s') : s'.Flows := by
  cases hmove with
  | full => exact h
  | tick | request | enqueue | needRefresh | stateUpdate | writeArrives =>
    exact h.congr rfl rfl rfl rfl rfl
  | oneCycleOperation => exact h.oneCycleOperation
  | command event rest ranks hcommands => exact h.command ranks hcommands
  | columnReadComplete event hmem => exact h.handleColumnReadComplete hmem
  | rankResponse event hmem => exact h.handleRankResponse hmem

omit [DecidableEq E]

/-- The list and the command queue share what was accepted, in the order in which it came. -/
structure Accounts (s : Dram cfg E) (t : BlockTable cfg E) : Prop where
  tracks : CommandHistory.Tracks s.history t
  shared : s.accepted = s.history.enqueued ++ s.pendingTransQueue
  numbered : s.accepted.map (fun b => b.testid) = List.range s.accepted.length
  fits : ∀ b ∈ s.accepted, b.Fits

theorem accounts_new : Accounts (new cfg E) (fun _ _ => []) where
  tracks := CommandHistory.tracks_new
  shared := rfl
  numbered := rfl
  fits := fun _ hb => absurd hb List.not_mem_nil

theorem Accounts.nodup (h : Accounts s t) : (s.accepted.map (fun b => b.testid)).Nodup := by
  rw [h.numbered]
  exact List.nodup_range

/-- The history moves on, and what was accepted stays. -/
theorem Accounts.move {a : CommandAction cfg E} {t' : BlockTable cfg E} (h : Accounts s t)
    (hmove : CommandHistory.Move s.history t a s'.history t')
    (henqueued : s'.history.enqueued = s.history.enqueued)
    (hpending : s'.pendingTransQueue = s.pendingTransQueue) (haccepted : s'.accepted = s.accepted) :
    Accounts s' t' := by
  constructor
  case tracks => exact h.tracks.move hmove
  case shared => rw [haccepted, henqueued, hpending, h.shared]
  case numbered => rw [haccepted, h.numbered]
  case fits => exact haccepted ▸ h.fits

theorem Accounts.congr (h : Accounts s t) (hhistory : s'.history = s.history)
    (hpending : s'.pendingTransQueue = s.pendingTransQueue) (haccepted : s'.accepted = s.accepted) :
    Accounts s' t := by
  obtain ⟨tracks, shared, numbered, fits⟩ := h
  exact ⟨hhistory ▸ tracks, by rw [haccepted, hhistory, hpending, shared],
    by rw [haccepted, numbered],
    haccepted ▸ fits⟩

/-- The head of the list enters the command queue. -/
theorem Accounts.enqueue (h : Accounts s t) {b : MainMemoryBusPacket cfg E}
    {controller : BankController cfg E} (hhead : s.pendingTransQueue.head? = some b)
    (hpair : s.history.controller.enqueuePair b = some controller) :
    ∃ t', Accounts
      { s with
        pendingTransQueue := s.pendingTransQueue.tail
        history :=
          { s.history with controller := controller, enqueued := s.history.enqueued ++ [b] } }
      t' := by
  obtain ⟨rest, hpending⟩ := List.head?_eq_some_iff.mp hhead
  have haccepted : s.accepted = s.history.enqueued ++ b :: rest := by rw [h.shared, hpending]
  have hfits : b.Fits := h.fits b (by simp [haccepted])
  have hfresh : b.testid ∉ s.history.enqueued.map (fun c => c.testid) := by
    have hnodup := h.nodup
    rw [haccepted, List.map_append, List.map_cons, List.nodup_append] at hnodup
    exact fun hmem => hnodup.2.2 _ hmem _ List.mem_cons_self rfl
  obtain ⟨cq', rfl, hblocked⟩ := BankController.enqueuePair_eq_some h.tracks.blocked hfits hpair
  refine ⟨_, h.tracks.move (.entered .cacheRead b b cq' hfits hfresh hblocked), ?_, h.numbered,
    h.fits⟩
  change s.accepted = s.history.enqueued ++ [b] ++ s.pendingTransQueue.tail
  rw [haccepted, hpending, List.append_assoc]
  rfl

theorem Accounts.request (h : Accounts s t) (kind : MemoryRequest) (b : MainMemoryBusPacket cfg E) :
    Accounts (s.request kind b) t := by
  constructor
  case tracks => exact h.tracks
  case shared =>
    change s.accepted ++ [_] = s.history.enqueued ++ (s.pendingTransQueue ++ [_])
    rw [h.shared, List.append_assoc]
  case numbered =>
    simp only [Dram.request, List.map_append, h.numbered, List.map_cons, List.map_nil,
      List.length_append, List.length_cons, List.length_nil, List.range_succ]
  case fits =>
    intro c hc
    rcases List.mem_append.mp hc with hc | hc
    · exact h.fits c hc
    · rw [List.mem_singleton.mp hc]
      exact ⟨kind, rfl⟩

theorem step_pop (s : Dram cfg E) :
    s.history.step (.pop s.clock) = some s.oneCycleOperation.history ∧
      s.oneCycleOperation.pendingTransQueue = s.pendingTransQueue ∧
      s.oneCycleOperation.accepted = s.accepted := by
  rw [CommandHistory.step, Dram.oneCycleOperation]
  generalize s.history.controller.popCommand s.clock = result
  obtain ⟨_ | b, controller⟩ := result <;> exact ⟨rfl, rfl, rfl⟩

theorem Accounts.oneCycleOperation (h : Accounts s t) :
    ∃ t', Accounts s.oneCycleOperation t' := by
  obtain ⟨hstep, hpending, haccepted⟩ := step_pop s
  obtain ⟨t', hmove⟩ := CommandHistory.move_of_step h.tracks.blocked hstep
  refine ⟨t', h.move hmove ?_ hpending haccepted⟩
  rw [CommandHistory.step] at hstep
  exact (congrArg CommandHistory.enqueued (Option.some.inj hstep)).symm

theorem Accounts.move_of_head [DecidableEq E] (h : Accounts s t) (hhead : s.EnqueuesHead action)
    (hmove : Dram.Move s action s') : ∃ t', Accounts s' t' := by
  cases hmove with
  | full => exact ⟨t, h⟩
  | tick | command | writeArrives | rankResponse => exact ⟨t, h.congr rfl rfl rfl⟩
  | request kind b => exact ⟨t, h.request kind b⟩
  | enqueue b controller hfind hpair => exact h.enqueue (hhead rfl b hfind) hpair
  | needRefresh rank => exact ⟨t, h.move (.quiet (.needRefresh rank) _ rfl) rfl rfl rfl⟩
  | oneCycleOperation => exact h.oneCycleOperation
  | stateUpdate event => exact ⟨t, h.move (.updated event) rfl rfl rfl⟩
  | columnReadComplete event =>
    refine ⟨t, ?_⟩
    rw [Dram.handleColumnReadComplete]
    split <;> exact h.congr rfl rfl rfl

section Places

variable {c : MainMemoryBusPacket cfg E}

theorem isColumn_of_isRead {b : MainMemoryBusPacket cfg E} (h : b.isRead = true) :
    b.isColumn = true := by
  simp only [MainMemoryBusPacket.isRead, decide_eq_true_eq] at h
  rcases h with h | h <;> simp [MainMemoryBusPacket.isColumn, h]

/-- A number is the number of one transaction. -/
theorem Accounts.eq_of_testid (h : Accounts s t) (hc : c ∈ s.accepted)
    {d : MainMemoryBusPacket cfg E} (hd : d ∈ s.accepted) (heq : d.testid = c.testid) : d = c :=
  List.inj_on_of_nodup_map h.nodup hd hc heq

theorem Accounts.not_waiting (h : Accounts s t) (hc : c ∈ s.history.enqueued) :
    s.waiting c.testid = 0 := by
  rw [waiting, List.countP_eq_zero]
  intro d hd heq
  have hnodup := h.nodup
  rw [h.shared, List.map_append, List.nodup_append] at hnodup
  exact hnodup.2.2 _ (List.mem_map_of_mem hc) _ (List.mem_map_of_mem hd)
    (of_decide_eq_true heq).symm

theorem Accounts.waiting_once (h : Accounts s t) (hc : c ∈ s.pendingTransQueue) :
    s.waiting c.testid = 1 := by
  have hnodup := h.nodup
  rw [h.shared, List.map_append, List.nodup_append] at hnodup
  obtain ⟨l, l', hsplit⟩ := List.append_of_mem hc
  have hpending := hnodup.2.1
  rw [hsplit, List.map_append, List.map_cons, List.nodup_append, List.nodup_cons] at hpending
  have hnone : ∀ packets : List (MainMemoryBusPacket cfg E),
      c.testid ∉ packets.map (fun b => b.testid) →
      packets.countP (fun b => b.testid = c.testid) = 0 := by
    intro packets hpackets
    rw [List.countP_eq_zero]
    exact fun d hd heq => hpackets (of_decide_eq_true heq ▸ List.mem_map_of_mem hd)
  have hleft := hnone l (fun hmem => hpending.2.2 _ hmem _ List.mem_cons_self rfl)
  have hright := hnone l' hpending.2.1.1
  rw [waiting, hsplit, List.countP_append, List.countP_cons, hleft, hright]
  simp

/-- The reads of an enqueued transaction that were popped are its column commands. -/
theorem Accounts.readsOf_popped (h : Accounts s t) (hc : c ∈ s.history.enqueued)
    (hread : c.isRead = true) :
    readsOf c.testid s.history.popped = MainMemoryBusPacket.copies c.testid s.history.popped := by
  refine List.countP_congr (fun b hb => ?_)
  simp only [Bool.and_eq_true, decide_eq_true_eq]
  constructor
  · exact fun hand => ⟨isColumn_of_isRead hand.1, hand.2⟩
  · intro hand
    have hknown := h.tracks.popped_known hb hand.1
    rw [h.tracks.eq_of_testid hknown hc hand.2]
    exact ⟨hread, rfl⟩

/-- Nothing of a transaction that waits in the list is in a queue or was popped. -/
theorem Accounts.untouched (h : Accounts s t) (hc : c ∈ s.pendingTransQueue) :
    readsOf c.testid s.history.popped = 0 ∧ ∀ rank queue,
      MainMemoryBusPacket.copies c.testid (s.history.queue rank queue) = 0 := by
  have hnodup := h.nodup
  rw [h.shared, List.map_append, List.nodup_append] at hnodup
  have hother : ∀ d ∈ s.history.enqueued, d.testid ≠ c.testid := fun d hd =>
    hnodup.2.2 _ (List.mem_map_of_mem hd) _ (List.mem_map_of_mem hc)
  constructor
  · rw [readsOf, List.countP_eq_zero]
    intro b hb hand
    simp only [Bool.and_eq_true, decide_eq_true_eq] at hand
    exact hother b (h.tracks.popped_known hb (isColumn_of_isRead hand.1)) hand.2
  · intro rank queue
    rw [MainMemoryBusPacket.copies, List.countP_eq_zero]
    intro b hb hand
    simp only [Bool.and_eq_true, decide_eq_true_eq] at hand
    exact hother b (h.tracks.queued_known hb hand.1).1 hand.2

theorem Accounts.conserves (h : Accounts s t) (hflows : s.Flows) : s.Conserves := by
  constructor
  case numbered => exact h.nodup
  case moved =>
    rw [h.shared]
  case once =>
    intro c hc hread
    have hcounted := hflows.counted c.testid
    rw [h.shared] at hc
    rcases List.mem_append.mp hc with hc | hc
    · have honce := h.tracks.copies_once hc
      rw [h.readsOf_popped hc hread] at hcounted
      rw [h.not_waiting hc]
      omega
    · obtain ⟨hpopped, hqueue⟩ := h.untouched hc
      rw [h.waiting_once hc, hqueue]
      omega
  case own =>
    intro response hmem
    obtain ⟨c, hc, hanswers⟩ := hflows.responses response hmem
    refine ⟨c, ?_, hanswers⟩
    rw [h.shared]
    exact List.mem_append_left _ (h.tracks.popped_known hc (isColumn_of_isRead hanswers.1))

end Places

theorem enqueue_of_room {cq : CommandQueue cfg E} {b : MainMemoryBusPacket cfg E}
    (h : (cq.getCommandQueue b.rank b.bank).length < MainMemoryConfig.cmdQueueDepth) :
    cq.enqueue b =
      some (cq.setCommandQueue b.rank b.bank (cq.getCommandQueue b.rank b.bank ++ [b])) := by
  rw [CommandQueue.enqueue, if_neg]
  rw [List.length_append, List.length_singleton]
  omega

/-- A queue that has room for two commands takes the pair of a transaction. -/
theorem enqueuePair_of_hasRoom {b : MainMemoryBusPacket cfg E} (h : s.hasRoom b = true) :
    s.history.controller.enqueuePair b =
      some { s.history.controller with
        commandQueue := s.history.controller.commandQueue.setCommandQueue b.rank b.bank
          (s.history.controller.commandQueue.getCommandQueue b.rank b.bank ++
            [b.withType .activate] ++ [b]) } := by
  rw [hasRoom, CommandQueue.hasRoomFor, decide_eq_true_eq] at h
  have hfirst : s.history.controller.commandQueue.enqueue (b.withType .activate) =
      some (s.history.controller.commandQueue.setCommandQueue b.rank b.bank
        (s.history.controller.commandQueue.getCommandQueue b.rank b.bank ++
          [b.withType .activate])) :=
    enqueue_of_room (b := b.withType .activate) (Nat.lt_of_lt_of_le (Nat.lt_add_of_pos_right
      Nat.two_pos) h)
  rw [BankController.enqueuePair, hfirst, Option.bind_some, enqueue_of_room]
  · rw [CommandQueue.getCommandQueue_setCommandQueue, CommandQueue.setCommandQueue_setCommandQueue]
    rfl
  · rw [CommandQueue.getCommandQueue_setCommandQueue, List.length_append, List.length_singleton]
    omega

/-- The transaction that finds room is enqueued, whatever is removed. -/
theorem enqueueToCommandQ_of_find {b : MainMemoryBusPacket cfg E}
    (hfind : s.pendingTransQueue.find? (fun c => s.hasRoom c) = some b) :
    s.enqueueToCommandQ = some { s with
      pendingTransQueue := s.pendingTransQueue.tail
      history :=
        { s.history with
          controller :=
            { s.history.controller with
              commandQueue := s.history.controller.commandQueue.setCommandQueue b.rank b.bank
                (s.history.controller.commandQueue.getCommandQueue b.rank b.bank ++
                  [b.withType .activate] ++ [b]) }
          enqueued := s.history.enqueued ++ [b] } } := by
  rw [enqueueToCommandQ, hfind]
  dsimp only
  rw [enqueuePair_of_hasRoom (List.find?_some hfind)]
  rfl

theorem getCommandQueue_setCommandQueue_of_ne {cq : CommandQueue cfg E} {rank i : cfg.Rank}
    {bank j : cfg.Bank} {queue : List (MainMemoryBusPacket cfg E)} (h : i ≠ rank) :
    (cq.setCommandQueue rank bank queue).getCommandQueue i j = cq.getCommandQueue i j := by
  simp only [CommandQueue.getCommandQueue, CommandQueue.setCommandQueue]
  rw [Function.update_of_ne h]

section FullQueue
open CommandQueue

/-- The second rank of the memory. -/
def secondRank : slowMemory.Rank := ⟨1, Nat.one_lt_two⟩

def readOf (rank : slowMemory.Rank) : DramAction slowMemory Unit :=
  .request .cacheRead ⟨3, 0, slowMemory.firstBank, rank, 0, .null, none, 0⟩

/-- Reads of the first rank, each of which enters the command queue at once. -/
def fillQueue (k : ℕ) : List (DramAction slowMemory Unit) :=
  (List.replicate k [readOf slowMemory.firstRank, .enqueueToCommandQ]).flatten

/-- The packet of a read. -/
def readPacket (rank : slowMemory.Rank) (testid : ℕ) : MainMemoryBusPacket slowMemory Unit :=
  ⟨3, 0, slowMemory.firstBank, rank, 0, .read, none, testid⟩

theorem step_readOf (s : Dram slowMemory Unit) (rank : slowMemory.Rank) :
    s.step (readOf rank) = some { s with
      pendingTransQueue := s.pendingTransQueue ++ [readPacket rank s.accepted.length]
      accepted := s.accepted ++ [readPacket rank s.accepted.length] } := rfl

/-- The queue of the first rank holds the commands of `k` transactions. -/
structure Filled (s : Dram slowMemory Unit) (k : ℕ) : Prop where
  pending : s.pendingTransQueue = []
  accepted : s.accepted.length = k
  enqueued : ∀ c ∈ s.history.enqueued, c.testid < k
  first : (s.history.controller.commandQueue.getCommandQueue slowMemory.firstRank
    slowMemory.firstBank).length = 2 * k
  second : s.history.controller.commandQueue.getCommandQueue secondRank slowMemory.firstBank = []

theorem filled_run (k : ℕ) (hk : k ≤ 512) :
    ∃ s, Run (StepOf step) (new slowMemory Unit) (fillQueue k) s ∧ Filled s k := by
  induction k with
  | zero => exact ⟨_, .nil, rfl, rfl, fun c hc => absurd hc List.not_mem_nil, rfl, rfl⟩
  | succ k ih =>
    obtain ⟨s, hrun, hs⟩ := ih (by omega)
    have hrequest := step_readOf s slowMemory.firstRank
    rw [hs.pending, List.nil_append, hs.accepted] at hrequest
    generalize hb : readPacket slowMemory.firstRank k = b at hrequest
    generalize hs₁ : { s with pendingTransQueue := [b], accepted := s.accepted ++ [b] } = s₁
      at hrequest
    have hroom : s₁.hasRoom b = true := by
      rw [← hs₁, ← hb, Dram.hasRoom, hasRoomFor, decide_eq_true_eq]
      have hfirst := hs.first
      change (s.history.controller.commandQueue.getCommandQueue slowMemory.firstRank
        slowMemory.firstBank).length + 2 ≤ 1024
      omega
    have hfind : s₁.pendingTransQueue.find? (fun c => s₁.hasRoom c) = some b := by
      rw [← hs₁] at hroom ⊢
      exact List.find?_cons_of_pos hroom
    have henqueue := enqueueToCommandQ_of_find hfind
    have hlabels : fillQueue (k + 1) =
        (fillQueue k ++ [readOf slowMemory.firstRank]) ++ [.enqueueToCommandQ] := by
      simp [fillQueue, List.replicate_succ']
    rw [hlabels]
    refine ⟨_, (hrun.snoc hrequest).snoc henqueue, ?_⟩
    subst hs₁ hb
    constructor
    case pending => rfl
    case accepted => simp [hs.accepted]
    case enqueued =>
      intro c hc
      rcases List.mem_append.mp hc with hc | hc
      · exact Nat.lt_succ_of_lt (hs.enqueued c hc)
      · rw [List.mem_singleton.mp hc]
        exact Nat.lt_succ_self k
    case first =>
      have hfirst := hs.first
      change (CommandQueue.getCommandQueue (s.history.controller.commandQueue.setCommandQueue
        slowMemory.firstRank slowMemory.firstBank _) slowMemory.firstRank
        slowMemory.firstBank).length = _
      rw [CommandQueue.getCommandQueue_setCommandQueue, List.length_append, List.length_append]
      change (s.history.controller.commandQueue.getCommandQueue slowMemory.firstRank
        slowMemory.firstBank).length + 1 + 1 = 2 * (k + 1)
      omega
    case second =>
      have hne : secondRank ≠ slowMemory.firstRank := by decide
      exact (getCommandQueue_setCommandQueue_of_ne hne).trans hs.second

/-- With the queue of the first rank full, a read of the first rank waits at the head of the
list. The read of the second rank behind it is enqueued, and the head is removed. -/
def loseRead : List (DramAction slowMemory Unit) :=
  fillQueue 512 ++ [readOf slowMemory.firstRank] ++ [readOf secondRank] ++ [.enqueueToCommandQ]

/-- A read of the second rank, from its request to the response. -/
def answeredRead : List (DramAction slowMemory Unit) :=
  [readOf secondRank, .enqueueToCommandQ, .oneCycleOperation] ++ List.replicate 4 .tick ++
  [.command] ++ List.replicate 40 .tick ++ [.oneCycleOperation] ++ List.replicate 4 .tick ++
  [.command] ++ List.replicate 44 .tick ++
  [.columnReadComplete ⟨92, 0, (readPacket secondRank 0).withType .data⟩] ++
  List.replicate 16 .tick ++ [.rankResponse ⟨108, 0, (readPacket secondRank 0).withType .data⟩]

instance (s : Dram cfg E) (action : DramAction cfg E) :
    Decidable (s.EnqueuesHead action) :=
  match action with
  | .enqueueToCommandQ =>
    decidable_of_iff (∀ b ∈ s.pendingTransQueue.find? (fun b => s.hasRoom b),
        s.pendingTransQueue.head? = some b)
      ⟨fun h _ => h, fun h => h rfl⟩
  | .tick | .request _ _ | .needRefresh _ | .oneCycleOperation | .stateUpdate _ | .command
  | .writeArrives _ | .columnReadComplete _ | .rankResponse _ => isTrue (fun heq => by cases heq)

theorem answeredRead_runs :
    (exec (fun s a => if EnqueuesHead s a then step s a else none) (new slowMemory Unit)
      answeredRead).map (fun s => s.responses.map (fun response => response.testid)) =
    some [0] := by
  decide +kernel

end FullQueue

end Dram

end Tejas
