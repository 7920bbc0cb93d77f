import Tejas.StateUpdates

/-!
# Runs of the main memory

Requests wait in a list, enter the command queue as pairs of commands, and are popped. A
popped command reaches its rank after `tCMD` cycles, so commands arrive in the order in which
they are popped. The rank sends the data of a read back when the data bus is free, and the
controller then answers the request. Requests and refreshes come at any time, and the mapping
of an address to a rank and a bank is left open. An event may be handled once its time has
come; that it is handled at that time is a condition on runs.
-/

namespace Tejas
open LabelledRuns

/-- An event that carries a packet. -/
structure RamBusEvent (cfg : MainMemoryConfig) (E : Type) where
  eventTime : ℤ
  address : ℤ
  busPacket : MainMemoryBusPacket cfg E
  deriving DecidableEq

instance {cfg : MainMemoryConfig} : LawfulBEq (StateUpdateEvent cfg) := inferInstance

instance {cfg : MainMemoryConfig} {E : Type} [DecidableEq E] : LawfulBEq (RamBusEvent cfg E) :=
  inferInstance

/-- The answer to a read. The number of the packet it answers is kept beside the message. -/
structure MemResponse (E : Type) where
  requester : Option E
  address : ℤ
  testid : ℕ

/-- The controller, its ranks and the events between them. The events are kept by the kind of
their request: commands, data of writes, `Column_Read_Complete` and `Rank_Response`. The
packets that were accepted and the responses that were sent are kept beside them. -/
structure Dram (cfg : MainMemoryConfig) (E : Type) where
  clock : ℤ
  pendingTransQueue : List (MainMemoryBusPacket cfg E)
  history : CommandHistory cfg E
  ranks : BankStates cfg
  commands : List (RamBusEvent cfg E)
  writeData : List (RamBusEvent cfg E)
  columnReads : List (RamBusEvent cfg E)
  rankResponses : List (RamBusEvent cfg E)
  busFreeTime : ℤ
  accepted : List (MainMemoryBusPacket cfg E)
  responses : List (MemResponse E)

inductive DramAction (cfg : MainMemoryConfig) (E : Type)
  | tick
  | request (kind : MemoryRequest) (b : MainMemoryBusPacket cfg E)
  | enqueueToCommandQ
  | needRefresh (rank : cfg.Rank)
  | oneCycleOperation
  | stateUpdate (event : StateUpdateEvent cfg)
  | command
  | writeArrives (event : RamBusEvent cfg E)
  | columnReadComplete (event : RamBusEvent cfg E)
  | rankResponse (event : RamBusEvent cfg E)

variable {cfg : MainMemoryConfig} {E : Type}

namespace MainMemoryBusPacket

variable (b : MainMemoryBusPacket cfg E)

/-- The packet is the column command of a read. -/
def isRead : Bool := b.busPacketType = .read ∨ b.busPacketType = .readP

/-- The packet is the column command of a write. -/
def isWrite : Bool := b.busPacketType = .write ∨ b.busPacketType = .writeP

end MainMemoryBusPacket

namespace Dram

def new (cfg : MainMemoryConfig) (E : Type) : Dram cfg E where
  clock := 0
  pendingTransQueue := []
  history := .new cfg E
  ranks := fun _ _ => .new
  commands := []
  writeData := []
  columnReads := []
  rankResponses := []
  busFreeTime := 0
  accepted := []
  responses := []

variable (s : Dram cfg E)

/-- A request is decoded into a packet, which waits in the list. -/
def request (kind : MemoryRequest) (b : MainMemoryBusPacket cfg E) : Dram cfg E :=
  let packet :=
    { b.withType (requestTypeToBusPacketType cfg kind) with testid := s.accepted.length }
  { s with
    pendingTransQueue := s.pendingTransQueue ++ [packet]
    accepted := s.accepted ++ [packet] }

/-- The queue of the packet has room for its two commands. -/
def hasRoom (b : MainMemoryBusPacket cfg E) : Bool :=
  s.history.controller.commandQueue.hasRoomFor 2 b.rank b.bank

/-- The first packet that finds room enters the command queue, and the head of the list is
removed. -/
def enqueueToCommandQ : Option (Dram cfg E) :=
  match s.pendingTransQueue.find? (fun b => s.hasRoom b) with
  | none => some s
  | some b => (s.history.controller.enqueuePair b).map (fun controller =>
    { s with
      pendingTransQueue := s.pendingTransQueue.tail
      history :=
        { s.history with controller := controller, enqueued := s.history.enqueued ++ [b] } })

/-- A command is popped and sent to its rank, after the data of a write. -/
def oneCycleOperation : Dram cfg E :=
  let result := s.history.controller.popCommand s.clock
  let history :=
    { s.history with controller := result.2, popped := s.history.popped ++ result.1.toList }
  match result.1 with
  | none => { s with history := history }
  | some b =>
    { s with
      history := history
      commands := s.commands ++ [⟨s.clock + cfg.tCMD, b.physicalAddress, b⟩]
      writeData := s.writeData ++
        if b.isWrite then [⟨s.clock + cfg.tWL, b.physicalAddress, b.withType .data⟩] else [] }

/-- The first command on its way arrives at its rank. The data of a read comes back to the
rank once it is read. -/
def handleCommand : Option (Dram cfg E) :=
  match s.commands with
  | [] => none
  | event :: rest =>
    if event.eventTime ≤ s.clock then
      (Rank.receive s.ranks s.clock event.busPacket).map (fun ranks =>
        { s with
          ranks := ranks
          commands := rest
          columnReads := s.columnReads ++
            if event.busPacket.isRead then
              [{ event with
                eventTime := event.eventTime + cfg.tRL
                busPacket := event.busPacket.withType .data }]
            else [] })
    else none

/-- The data of a read goes over the bus, or waits until the bus is free. -/
def handleColumnReadComplete [DecidableEq E] (event : RamBusEvent cfg E) : Dram cfg E :=
  if s.busFreeTime ≤ s.clock then
    { s with
      busFreeTime := s.clock + cfg.tBL.tdiv 2
      columnReads := s.columnReads.erase event
      rankResponses := s.rankResponses ++
        [{ event with eventTime := event.eventTime + cfg.tBL.tdiv 2 }] }
  else
    { s with
      columnReads := s.columnReads.erase event ++
        [{ event with eventTime := event.eventTime + (s.busFreeTime - s.clock) }] }

/-- The controller sends a `Mem_Response`. -/
def handleRankResponse [DecidableEq E] (event : RamBusEvent cfg E) : Dram cfg E :=
  { s with
    rankResponses := s.rankResponses.erase event
    responses := s.responses ++
      [⟨event.busPacket.payloadElement, event.address, event.busPacket.testid⟩] }

variable [DecidableEq E]

def step (s : Dram cfg E) : DramAction cfg E → Option (Dram cfg E)
  | .tick => some { s with clock := s.clock + 1 }
  | .request kind b => some (s.request kind b)
  | .enqueueToCommandQ => s.enqueueToCommandQ
  | .needRefresh rank =>
    some { s with
      history := { s.history with controller := s.history.controller.needRefresh rank } }
  | .oneCycleOperation => some s.oneCycleOperation
  | .stateUpdate event =>
    if event ∈ s.history.controller.stateUpdates ∧ event.eventTime ≤ s.clock then
      some { s with
        history := { s.history with controller := s.history.controller.handleStateUpdate event } }
    else none
  | .command => s.handleCommand
  | .writeArrives event =>
    if event ∈ s.writeData ∧ event.eventTime ≤ s.clock then
      (Rank.receive s.ranks s.clock event.busPacket).map (fun ranks =>
        { s with ranks := ranks, writeData := s.writeData.erase event })
    else none
  | .columnReadComplete event =>
    if event ∈ s.columnReads ∧ event.eventTime ≤ s.clock then
      some (s.handleColumnReadComplete event)
    else none
  | .rankResponse event =>
    if event ∈ s.rankResponses ∧ event.eventTime ≤ s.clock then some (s.handleRankResponse event)
    else none

/-- What one action does. -/
inductive Move (s : Dram cfg E) : DramAction cfg E → Dram cfg E → Prop
  | tick : Move s .tick { s with clock := s.clock + 1 }
  | request (kind : MemoryRequest) (b : MainMemoryBusPacket cfg E) :
    Move s (.request kind b) (s.request kind b)
  | full : Move s .enqueueToCommandQ s
  | enqueue (b : MainMemoryBusPacket cfg E) (controller : BankController cfg E)
      (hfind : s.pendingTransQueue.find? (fun b => s.hasRoom b) = some b)
      (hpair : s.history.controller.enqueuePair b = some controller) :
    Move s .enqueueToCommandQ
      { s with
        pendingTransQueue := s.pendingTransQueue.tail
        history :=
          { s.history with controller := controller, enqueued := s.history.enqueued ++ [b] } }
  | needRefresh (rank : cfg.Rank) :
    Move s (.needRefresh rank)
      { s with history := { s.history with controller := s.history.controller.needRefresh rank } }
  | oneCycleOperation : Move s .oneCycleOperation s.oneCycleOperation
  | stateUpdate (event : StateUpdateEvent cfg)
      (hmem : event ∈ s.history.controller.stateUpdates) :
    Move s (.stateUpdate event)
      { s with
        history := { s.history with controller := s.history.controller.handleStateUpdate event } }
  | command (event : RamBusEvent cfg E) (rest : List (RamBusEvent cfg E)) (ranks : BankStates cfg)
      (hcommands : s.commands = event :: rest)
      (hreceive : Rank.receive s.ranks s.clock event.busPacket = some ranks) :
    Move s .command
      { s with
        ranks := ranks
        commands := rest
        columnReads := s.columnReads ++
          if event.busPacket.isRead then
            [{ event with
              eventTime := event.eventTime + cfg.tRL
              busPacket := event.busPacket.withType .data }]
          else [] }
  | writeArrives (event : RamBusEvent cfg E) (ranks : BankStates cfg) (hmem : event ∈ s.writeData)
      (hreceive : Rank.receive s.ranks s.clock event.busPacket = some ranks) :
    Move s (.writeArrives event) { s with ranks := ranks, writeData := s.writeData.erase event }
  | columnReadComplete (event : RamBusEvent cfg E) (hmem : event ∈ s.columnReads) :
    Move s (.columnReadComplete event) (s.handleColumnReadComplete event)
  | rankResponse (event : RamBusEvent cfg E) (hmem : event ∈ s.rankResponses) :
    Move s (.rankResponse event) (s.handleRankResponse event)

theorem move_of_step {s s' : Dram cfg E} {action : DramAction cfg E}
    (h : s.step action = some s') : Move s action s' := by
  cases action with
  | tick =>
    cases h
    exact .tick
  | request kind b =>
    cases h
    exact .request kind b
  | enqueueToCommandQ =>
    rw [step, enqueueToCommandQ] at h
    split at h
    case h_1 =>
      cases h
      exact .full
    case h_2 b hfind =>
      obtain ⟨controller, hpair, rfl⟩ := Option.map_eq_some_iff.mp h
      exact .enqueue b controller hfind hpair
  | needRefresh rank =>
    cases h
    exact .needRefresh rank
  | oneCycleOperation =>
    cases h
    exact .oneCycleOperation
  | stateUpdate event =>
    rw [step] at h
    split at h
    case isFalse => cases h
    case isTrue hdue =>
      cases h
      exact .stateUpdate event hdue.1
  | command =>
    rw [step, handleCommand] at h
    split at h
    case h_1 => cases h
    case h_2 event rest hcommands =>
      split at h
      case isFalse => cases h
      case isTrue =>
        obtain ⟨ranks, hreceive, rfl⟩ := Option.map_eq_some_iff.mp h
        exact .command event rest ranks hcommands hreceive
  | writeArrives event =>
    rw [step] at h
    split at h
    case isFalse => cases h
    case isTrue hdue =>
      obtain ⟨ranks, hreceive, rfl⟩ := Option.map_eq_some_iff.mp h
      exact .writeArrives event ranks hdue.1 hreceive
  | columnReadComplete event =>
    rw [step] at h
    split at h
    case isFalse => cases h
    case isTrue hdue =>
      cases h
      exact .columnReadComplete event hdue.1
  | rankResponse event =>
    rw [step] at h
    split at h
    case isFalse => cases h
    case isTrue hdue =>
      cases h
      exact .rankResponse event hdue.1

end Dram

end Tejas
