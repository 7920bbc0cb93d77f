import Tejas.DramCommands
import Tejas.LabelledRuns

/-!
# The bank states of the memory controller

The controller pops commands, and changes its bank states by each one. The changes that a
command causes later are made by state update events, which go by the last command of the
bank at the time they fire. The queue, the bank states and the pending updates are one
component here; what surrounds it is added later.
-/

namespace Tejas
open LabelledRuns

variable {cfg : MainMemoryConfig} {E : Type}

structure StateUpdateEvent (cfg : MainMemoryConfig) where
  eventTime : ℤ
  rank : cfg.Rank
  bank : cfg.Bank
  deriving DecidableEq

namespace BankStates

variable (bankStates : BankStates cfg)

/-- Change the state of one bank. -/
def setBank (rank : cfg.Rank) (bank : cfg.Bank) (change : BankState → BankState) :
    BankStates cfg :=
  fun i j => if i = rank ∧ j = bank then change (bankStates i j) else bankStates i j

/-- A column command delays those after it, in the other ranks and in its own one. -/
def delayColumns (rank : cfg.Rank) (otherRead otherWrite ownRead ownWrite : ℤ) : BankStates cfg :=
  fun i j =>
    let bankState := bankStates i j
    if i ≠ rank then
      if bankState.currentBankState = .rowActive then
        { bankState with
          nextRead := max otherRead bankState.nextRead
          nextWrite := max otherWrite bankState.nextWrite }
      else bankState
    else
      { bankState with
        nextRead := max ownRead bankState.nextRead
        nextWrite := max ownWrite bankState.nextWrite }

/-- Reads and writes of a bank wait for its next activate. -/
def blockColumns (rank : cfg.Rank) (bank : cfg.Bank) : BankStates cfg :=
  bankStates.setBank rank bank (fun bankState =>
    { bankState with
      nextRead := bankState.nextActivate
      nextWrite := bankState.nextActivate })

def afterRead (now : ℤ) (rank : cfg.Rank) (bank : cfg.Bank) : BankStates cfg :=
  (bankStates.setBank rank bank (fun bankState =>
    { bankState with
      nextPrecharge := max (now + cfg.readToPreDelay) bankState.nextPrecharge
      lastCommand := .read })).delayColumns rank
    (now + cfg.tBL.tdiv 2 + cfg.tRTRS) (now + cfg.readToWriteDelay)
    (now + max cfg.tCCD (cfg.tBL.tdiv 2)) (now + cfg.readToWriteDelay)

def afterReadP (now : ℤ) (rank : cfg.Rank) (bank : cfg.Bank) : BankStates cfg :=
  ((bankStates.setBank rank bank (fun bankState =>
    { bankState with
      nextActivate := max (now + cfg.readAutopreDelay) bankState.nextActivate
      lastCommand := .readP })).delayColumns rank
    (now + cfg.tBL.tdiv 2 + cfg.tRTRS) (now + cfg.readToWriteDelay)
    (now + max cfg.tCCD (cfg.tBL.tdiv 2)) (now + cfg.readToWriteDelay)).blockColumns rank bank

def afterWrite (now : ℤ) (rank : cfg.Rank) (bank : cfg.Bank) : BankStates cfg :=
  (bankStates.setBank rank bank (fun bankState =>
    { bankState with
      nextPrecharge := max (now + cfg.writeToPreDelay) bankState.nextPrecharge
      lastCommand := .write })).delayColumns rank
    (now + cfg.writeToReadDelayR) (now + cfg.tBL.tdiv 2 + cfg.tRTRS)
    (now + cfg.writeToReadDelayB) (now + max (cfg.tBL.tdiv 2) cfg.tCCD)

def afterWriteP (now : ℤ) (rank : cfg.Rank) (bank : cfg.Bank) : BankStates cfg :=
  ((bankStates.setBank rank bank (fun bankState =>
    { bankState with
      nextActivate := max (now + cfg.writeAutopreDelay) bankState.nextActivate
      lastCommand := .writeP })).delayColumns rank
    (now + cfg.writeToReadDelayR) (now + cfg.tBL.tdiv 2 + cfg.tRTRS)
    (now + cfg.writeToReadDelayB) (now + max (cfg.tBL.tdiv 2) cfg.tCCD)).blockColumns rank bank

def afterActivate (now : ℤ) (rank : cfg.Rank) (bank : cfg.Bank) (row : ℤ) : BankStates cfg :=
  fun i j =>
    let bankState := bankStates i j
    if i ≠ rank then bankState
    else if j = bank then
      { currentBankState := .rowActive
        lastCommand := .activate
        openRowAddress := row
        nextActivate := max (now + cfg.tRC) bankState.nextActivate
        nextPrecharge := max (now + cfg.tRAS) bankState.nextPrecharge
        nextRead := max (now + (cfg.tRCD - cfg.tAL)) bankState.nextRead
        nextWrite := max (now + (cfg.tRCD - cfg.tAL)) bankState.nextWrite }
    else { bankState with nextActivate := max (now + cfg.tRRD) bankState.nextActivate }

def afterPrecharge (now : ℤ) (rank : cfg.Rank) (bank : cfg.Bank) : BankStates cfg :=
  bankStates.setBank rank bank (fun bankState =>
    { bankState with
      currentBankState := .precharging
      lastCommand := .precharge
      nextActivate := max (now + cfg.tRP) bankState.nextActivate })

def afterRefresh (now : ℤ) (rank : cfg.Rank) : BankStates cfg :=
  fun i j =>
    if i = rank then
      { bankStates i j with
        nextActivate := now + cfg.tRFC
        currentBankState := .refreshing
        lastCommand := .refresh }
    else bankStates i j

/-- The bank states after a popped command. No other kind of command is popped. -/
def after (now : ℤ) (b : MainMemoryBusPacket cfg E) : BankStates cfg :=
  match b.busPacketType with
  | .read => bankStates.afterRead now b.rank b.bank
  | .readP => bankStates.afterReadP now b.rank b.bank
  | .write => bankStates.afterWrite now b.rank b.bank
  | .writeP => bankStates.afterWriteP now b.rank b.bank
  | .activate => bankStates.afterActivate now b.rank b.bank b.row
  | .precharge => bankStates.afterPrecharge now b.rank b.bank
  | .refresh => bankStates.afterRefresh now b.rank
  | _ => bankStates

/-- The bank states after a state update, by the last command of the bank. -/
def afterUpdate (rank : cfg.Rank) (bank : cfg.Bank) : BankStates cfg :=
  match (bankStates rank bank).lastCommand with
  | .writeP | .readP =>
    bankStates.setBank rank bank (fun bankState =>
      { bankState with currentBankState := .precharging, lastCommand := .precharge })
  | .refresh =>
    fun i j => if i = rank then { bankStates i j with currentBankState := .idle }
      else bankStates i j
  | .precharge =>
    bankStates.setBank rank bank (fun bankState => { bankState with currentBankState := .idle })
  | _ => bankStates

end BankStates

/-- The state update that a popped command schedules. -/
def scheduledUpdate (now : ℤ) (b : MainMemoryBusPacket cfg E) : List (StateUpdateEvent cfg) :=
  match b.busPacketType with
  | .readP => [⟨now + cfg.readToPreDelay, b.rank, b.bank⟩]
  | .writeP => [⟨now + cfg.writeToPreDelay, b.rank, b.bank⟩]
  | .precharge => [⟨now + cfg.tRP - 1, b.rank, b.bank⟩]
  | .refresh => [⟨now + cfg.tRFC - 1, b.rank, b.bank⟩]
  | _ => []

/-- The state update that a state update schedules. -/
def followingUpdate (bankStates : BankStates cfg) (event : StateUpdateEvent cfg) :
    List (StateUpdateEvent cfg) :=
  match (bankStates event.rank event.bank).lastCommand with
  | .writeP | .readP => [⟨event.eventTime + cfg.tRP - 1, event.rank, event.bank⟩]
  | _ => []

/-- The kinds of request that the controller takes. -/
inductive MemoryRequest
  | cacheRead | cacheWrite
  deriving DecidableEq

def requestTypeToBusPacketType (cfg : MainMemoryConfig) (kind : MemoryRequest) : BusPacketType :=
  match kind, cfg.rowBufferPolicy with
  | .cacheRead, .closePage => .readP
  | .cacheRead, .openPage => .read
  | .cacheWrite, .closePage => .writeP
  | .cacheWrite, .openPage => .write

/-- The command queue with the bank states and the state updates that are on their way. -/
structure BankController (cfg : MainMemoryConfig) (E : Type) where
  bankStates : BankStates cfg
  commandQueue : CommandQueue cfg E
  stateUpdates : List (StateUpdateEvent cfg)

namespace BankController

def new (cfg : MainMemoryConfig) (E : Type) : BankController cfg E :=
  ⟨fun _ _ => .new, .new cfg E, []⟩

variable (s : BankController cfg E)

/-- A transaction enters as an ACTIVATE and its column command. -/
def enqueuePair (b : MainMemoryBusPacket cfg E) : Option (BankController cfg E) :=
  ((s.commandQueue.enqueue (b.withType .activate)).bind (fun cq => cq.enqueue b)).map
    (fun cq => { s with commandQueue := cq })

def needRefresh (rank : cfg.Rank) : BankController cfg E :=
  { s with commandQueue := s.commandQueue.needRefresh rank }

/-- Pop a command and change the bank states by it. -/
def popCommand (now : ℤ) : Option (MainMemoryBusPacket cfg E) × BankController cfg E :=
  match s.commandQueue.pop s.bankStates now with
  | (none, cq) => (none, { s with commandQueue := cq })
  | (some b, cq) =>
    (some b, ⟨s.bankStates.after now b, cq, s.stateUpdates ++ scheduledUpdate now b⟩)

/-- A state update event reaches the controller. -/
def handleStateUpdate (event : StateUpdateEvent cfg) : BankController cfg E :=
  { s with
    bankStates := s.bankStates.afterUpdate event.rank event.bank
    stateUpdates := s.stateUpdates.erase event ++ followingUpdate s.bankStates event }

end BankController

/-- What a bank is doing: its state, its last command and its open row. -/
def BankState.phase (s : BankState) : CurrentBankState × BusPacketType × ℤ :=
  (s.currentBankState, s.lastCommand, s.openRowAddress)

namespace BankStates

variable {bankStates : BankStates cfg} {now : ℤ} {b : MainMemoryBusPacket cfg E}
  {rank i : cfg.Rank} {bank j : cfg.Bank}

@[simp] theorem phase_delayColumns {otherRead otherWrite ownRead ownWrite : ℤ} :
    (bankStates.delayColumns rank otherRead otherWrite ownRead ownWrite i j).phase =
      (bankStates i j).phase := by
  simp only [delayColumns]
  split
  · split <;> rfl
  · rfl

@[simp] theorem phase_blockColumns :
    (bankStates.blockColumns rank bank i j).phase = (bankStates i j).phase := by
  rw [blockColumns, setBank]
  split <;> rfl

/-- A column command is noted as the last command of its bank. -/
theorem phase_after_column (hb : b.isColumn = true) :
    (bankStates.after now b i j).phase =
      if i = b.rank ∧ j = b.bank then
        ((bankStates i j).currentBankState, b.busPacketType, (bankStates i j).openRowAddress)
      else (bankStates i j).phase := by
  simp only [MainMemoryBusPacket.isColumn, decide_eq_true_eq] at hb
  rcases hb with hb | hb | hb | hb
  · rw [after, hb]
    simp only [afterRead, phase_delayColumns, setBank]
    split <;> rfl
  · rw [after, hb]
    simp only [afterReadP, phase_blockColumns, phase_delayColumns, setBank]
    split <;> rfl
  · rw [after, hb]
    simp only [afterWrite, phase_delayColumns, setBank]
    split <;> rfl
  · rw [after, hb]
    simp only [afterWriteP, phase_blockColumns, phase_delayColumns, setBank]
    split <;> rfl

theorem phase_after_activate (hb : b.busPacketType = .activate) :
    (bankStates.after now b i j).phase =
      if i = b.rank ∧ j = b.bank then (.rowActive, .activate, b.row)
      else (bankStates i j).phase := by
  rw [after, hb]
  simp only [afterActivate]
  by_cases hi : i = b.rank
  · by_cases hj : j = b.bank
    · rw [if_neg (by simp [hi]), if_pos hj, if_pos ⟨hi, hj⟩]
      rfl
    · rw [if_neg (by simp [hi]), if_neg hj, if_neg (by simp [hj])]
      rfl
  · rw [if_pos hi, if_neg (by simp [hi])]

theorem phase_after_precharge (hb : b.busPacketType = .precharge) :
    (bankStates.after now b i j).phase =
      if i = b.rank ∧ j = b.bank then (.precharging, .precharge, (bankStates i j).openRowAddress)
      else (bankStates i j).phase := by
  rw [after, hb]
  simp only [afterPrecharge, setBank]
  split <;> rfl

theorem phase_after_refresh (hb : b.busPacketType = .refresh) :
    (bankStates.after now b i j).phase =
      if i = b.rank then (.refreshing, .refresh, (bankStates i j).openRowAddress)
      else (bankStates i j).phase := by
  rw [after, hb]
  simp only [afterRefresh]
  split <;> rfl

/-- A state update that does not follow a REFRESH changes a bank whose last command has an
implicit end. -/
theorem phase_afterUpdate (hlast : (bankStates rank bank).lastCommand ≠ .refresh) :
    (bankStates.afterUpdate rank bank i j).phase = (bankStates i j).phase ∨
      (i = rank ∧ j = bank ∧ (bankStates rank bank).lastCommand ≠ .activate) := by
  have hset : ∀ change : BankState → BankState, (bankStates rank bank).lastCommand ≠ .activate →
      (bankStates.setBank rank bank change i j).phase = (bankStates i j).phase ∨
        (i = rank ∧ j = bank ∧ (bankStates rank bank).lastCommand ≠ .activate) := by
    intro change hne
    rw [setBank]
    split
    case isTrue hij => exact Or.inr ⟨hij.1, hij.2, hne⟩
    case isFalse => exact Or.inl rfl
  cases hcommand : (bankStates rank bank).lastCommand with
  | refresh => exact absurd hcommand hlast
  | readP | writeP | precharge =>
    simp only [hcommand] at hset
    simp only [afterUpdate, hcommand]
    exact hset _ (by simp)
  | read | write | activate | data | null =>
    simp [afterUpdate, hcommand]

end BankStates

end Tejas
