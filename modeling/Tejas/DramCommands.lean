import Tejas.QueueSearch
import Mathlib.Data.List.FinRange
import Mathlib.Data.Int.Notation
import Mathlib.Logic.Function.Basic

/-!
# The command queue of the memory controller

A transaction enters the command queue as an ACTIVATE and a column command. `pop` takes the
next command out of it, by the row buffer policy and the queuing structure. The bank states
belong to the controller and are read here. `pop` itself makes REFRESH and PRECHARGE
commands; only the packets of transactions are numbered, since nothing reads the number of
the others. Queues hold ACTIVATE and column commands only, so the exit that `isIssuable` has
for other kinds is answered like a refusal.
-/

namespace Tejas
open QueueSearch

inductive RowBufferPolicy
  | openPage | closePage
  deriving DecidableEq

inductive QueuingStructure
  | perRank | perRankPerBank
  deriving DecidableEq

inductive SchedulingPolicy
  | rankThenBankRoundRobin | bankThenRankRoundRobin
  deriving DecidableEq

/-- The configuration, with the timings that the configuration file gives, scaled to cycles
of the processor. `refreshCycles` is `RefreshPeriod / tCK`, cut to an integer. -/
structure MainMemoryConfig where
  rowBufferPolicy : RowBufferPolicy
  schedulingPolicy : SchedulingPolicy
  queuingStructure : QueuingStructure
  numRanks : ℕ
  numBanks : ℕ
  numRanks_pos : 0 < numRanks
  numBanks_pos : 0 < numBanks
  totalRowAccesses : ℤ
  cpuRamRatio : ℤ
  tCCD : ℤ
  tBL : ℤ
  tCL : ℤ
  tAL : ℤ
  tRP : ℤ
  tCMD : ℤ
  tRC : ℤ
  tRCD : ℤ
  tRAS : ℤ
  tRFC : ℤ
  tRTRS : ℤ
  tRRD : ℤ
  tFAW : ℤ
  tRTP : ℤ
  tWTR : ℤ
  tWR : ℤ
  refreshCycles : ℤ

namespace MainMemoryConfig

variable (cfg : MainMemoryConfig)

abbrev Rank := Fin cfg.numRanks
abbrev Bank := Fin cfg.numBanks

def firstRank : cfg.Rank := ⟨0, cfg.numRanks_pos⟩
def firstBank : cfg.Bank := ⟨0, cfg.numBanks_pos⟩

def tRL : ℤ := cfg.tCL + cfg.tAL
def tWL : ℤ := cfg.tRL - cfg.cpuRamRatio
def readToPreDelay : ℤ := cfg.tAL + cfg.tBL.tdiv 2 + max cfg.tRTP cfg.tCCD - cfg.tCCD
def writeToPreDelay : ℤ := cfg.tWL + cfg.tBL.tdiv 2 + cfg.tWR
def readToWriteDelay : ℤ := cfg.tRL + cfg.tBL.tdiv 2 + cfg.tRTRS - cfg.tWL
def readAutopreDelay : ℤ := cfg.tAL + cfg.tRTP + cfg.tRP
def writeAutopreDelay : ℤ := cfg.tWL + cfg.tBL.tdiv 2 + cfg.tWR + cfg.tRP
def writeToReadDelayB : ℤ := cfg.tWL + cfg.tBL.tdiv 2 + cfg.tWTR
def writeToReadDelayR : ℤ := cfg.tWL + cfg.tBL.tdiv 2 + cfg.tRTRS - cfg.tRL

/-- `CMD_QUEUE_DEPTH` -/
def cmdQueueDepth : ℕ := 1024

/-- The position after a rank and a bank, by the scheduling policy. -/
def nextRankAndBank (rank : cfg.Rank) (bank : cfg.Bank) : cfg.Rank × cfg.Bank :=
  match cfg.schedulingPolicy with
  | .rankThenBankRoundRobin =>
    if hrank : rank.val + 1 < cfg.numRanks then (⟨rank.val + 1, hrank⟩, bank)
    else if hbank : bank.val + 1 < cfg.numBanks then (cfg.firstRank, ⟨bank.val + 1, hbank⟩)
    else (cfg.firstRank, cfg.firstBank)
  | .bankThenRankRoundRobin =>
    if hbank : bank.val + 1 < cfg.numBanks then (rank, ⟨bank.val + 1, hbank⟩)
    else if hrank : rank.val + 1 < cfg.numRanks then (⟨rank.val + 1, hrank⟩, cfg.firstBank)
    else (cfg.firstRank, cfg.firstBank)

/-- The position that the search for a command moves to. -/
def nextQueue (p : cfg.Rank × cfg.Bank) : cfg.Rank × cfg.Bank :=
  match cfg.queuingStructure with
  | .perRank => (⟨(p.1.val + 1) % cfg.numRanks, Nat.mod_lt _ cfg.numRanks_pos⟩, p.2)
  | .perRankPerBank => cfg.nextRankAndBank p.1 p.2

/-- The queue of a rank in which the commands for a bank wait. -/
def queueIndex (bank : cfg.Bank) : cfg.Bank :=
  match cfg.queuingStructure with
  | .perRank => cfg.firstBank
  | .perRankPerBank => bank

end MainMemoryConfig

inductive BusPacketType
  | read | readP | write | writeP | activate | precharge | refresh | data | null
  deriving DecidableEq

/-- A command on its way to a rank, or the data that answers it. `payloadElement` is the
element that asked for the transaction. -/
structure MainMemoryBusPacket (cfg : MainMemoryConfig) (E : Type) where
  row : ℤ
  column : ℤ
  bank : cfg.Bank
  rank : cfg.Rank
  physicalAddress : ℤ
  busPacketType : BusPacketType
  payloadElement : Option E
  testid : ℕ
  deriving DecidableEq

inductive CurrentBankState
  | idle | rowActive | precharging | refreshing | powerDown
  deriving DecidableEq

structure BankState where
  currentBankState : CurrentBankState
  openRowAddress : ℤ
  nextRead : ℤ
  nextWrite : ℤ
  nextActivate : ℤ
  nextPrecharge : ℤ
  lastCommand : BusPacketType

def BankState.new : BankState := ⟨.idle, 0, 0, 0, 0, 0, .read⟩

abbrev BankStates (cfg : MainMemoryConfig) := cfg.Rank → cfg.Bank → BankState

structure CommandQueue (cfg : MainMemoryConfig) (E : Type) where
  queues : cfg.Rank → cfg.Bank → List (MainMemoryBusPacket cfg E)
  rowAccessCounters : cfg.Rank → cfg.Bank → ℤ
  nextRank : cfg.Rank
  nextBank : cfg.Bank
  nextRankPRE : cfg.Rank
  nextBankPRE : cfg.Bank
  /-- `none` stands for the -1 that a popped REFRESH leaves behind. -/
  refreshRank : Option cfg.Rank
  refreshWaiting : Bool
  sendAct : Bool
  tFAWCountdown : cfg.Rank → List ℤ

variable {cfg : MainMemoryConfig} {E : Type}

namespace MainMemoryBusPacket

variable (b : MainMemoryBusPacket cfg E)

/-- A clone of the packet with another type. -/
def withType (t : BusPacketType) : MainMemoryBusPacket cfg E := { b with busPacketType := t }

def isActivate : Bool := b.busPacketType = .activate

/-- The packet is the column command of a transaction. -/
def isColumn : Bool :=
  b.busPacketType = .read ∨ b.busPacketType = .readP ∨
    b.busPacketType = .write ∨ b.busPacketType = .writeP

/-- The packet is for a bank and a row. -/
def isFor (bank : cfg.Bank) (row : ℤ) : Bool := b.bank = bank ∧ b.row = row

end MainMemoryBusPacket

namespace CommandQueue

def new (cfg : MainMemoryConfig) (E : Type) : CommandQueue cfg E where
  queues := fun _ _ => []
  rowAccessCounters := fun _ _ => 0
  nextRank := cfg.firstRank
  nextBank := cfg.firstBank
  nextRankPRE := cfg.firstRank
  nextBankPRE := cfg.firstBank
  refreshRank := some cfg.firstRank
  refreshWaiting := false
  sendAct := true
  tFAWCountdown := fun _ => []

variable (cq : CommandQueue cfg E)

def getCommandQueue (rank : cfg.Rank) (bank : cfg.Bank) : List (MainMemoryBusPacket cfg E) :=
  cq.queues rank (cfg.queueIndex bank)

/-- Store the queue in which the commands for a bank wait. -/
def setCommandQueue (rank : cfg.Rank) (bank : cfg.Bank) (queue : List (MainMemoryBusPacket cfg E)) :
    CommandQueue cfg E :=
  { cq with
    queues := Function.update cq.queues rank
      (Function.update (cq.queues rank) (cfg.queueIndex bank) queue) }

def setRowAccessCounter (rank : cfg.Rank) (bank : cfg.Bank) (count : ℤ) : CommandQueue cfg E :=
  { cq with
    rowAccessCounters := Function.update cq.rowAccessCounters rank
      (Function.update (cq.rowAccessCounters rank) bank count) }

/-- A command is added at the end of its queue. `none` is the exit for a queue that is longer
than allowed. -/
def enqueue (busPacket : MainMemoryBusPacket cfg E) : Option (CommandQueue cfg E) :=
  let queue := cq.getCommandQueue busPacket.rank busPacket.bank ++ [busPacket]
  if queue.length > MainMemoryConfig.cmdQueueDepth then none
  else some (cq.setCommandQueue busPacket.rank busPacket.bank queue)

def hasRoomFor (num : ℕ) (rank : cfg.Rank) (bank : cfg.Bank) : Bool :=
  (cq.getCommandQueue rank bank).length + num ≤ MainMemoryConfig.cmdQueueDepth

def needRefresh (rank : cfg.Rank) : CommandQueue cfg E :=
  { cq with refreshWaiting := true, refreshRank := some rank }

/-- The command may be issued in the state of its bank. -/
def isIssuable (bankStates : BankStates cfg) (now : ℤ) (busPacket : MainMemoryBusPacket cfg E) :
    Bool :=
  let bankState := bankStates busPacket.rank busPacket.bank
  match busPacket.busPacketType with
  | .activate =>
    (bankState.currentBankState = .idle ∨ bankState.currentBankState = .refreshing) ∧
      bankState.nextActivate ≤ now ∧ (cq.tFAWCountdown busPacket.rank).length < 4
  | .write | .writeP =>
    bankState.currentBankState = .rowActive ∧ bankState.nextWrite ≤ now ∧
      busPacket.row = bankState.openRowAddress ∧
      cq.rowAccessCounters busPacket.rank busPacket.bank < cfg.totalRowAccesses
  | .readP | .read =>
    bankState.currentBankState = .rowActive ∧ bankState.nextRead ≤ now ∧
      busPacket.row = bankState.openRowAddress ∧
      cq.rowAccessCounters busPacket.rank busPacket.bank < cfg.totalRowAccesses
  | .precharge =>
    bankState.currentBankState = .rowActive ∧ bankState.nextPrecharge ≤ now
  | _ => false

/-- Every counter of the four-activate window goes down, and one that reached zero leaves. -/
def countDown : CommandQueue cfg E :=
  { cq with
    tFAWCountdown := fun rank =>
      match (cq.tFAWCountdown rank).map (fun count => count - 1) with
      | [] => []
      | head :: rest => if head = 0 then rest else head :: rest }

/-- A bank that keeps its rank from being refreshed: it has an open row, or may not be
activated yet. -/
def delaysRefresh (bankState : BankState) (now : ℤ) : Bool :=
  bankState.currentBankState = .rowActive ∨ now < bankState.nextActivate

def refreshPacket (row column : ℤ) (rank : cfg.Rank) : MainMemoryBusPacket cfg E :=
  ⟨row, column, cfg.firstBank, rank, 0, .refresh, none, 0⟩

def prechargePacket (rank : cfg.Rank) (bank : cfg.Bank) : MainMemoryBusPacket cfg E :=
  ⟨0, 0, bank, rank, 0, .precharge, none, 0⟩

/-- A search that chooses a command gives it with the queue that is left. -/
abbrev Choice (cfg : MainMemoryConfig) (E : Type) :=
  Option (MainMemoryBusPacket cfg E × CommandQueue cfg E)

/-- All banks of the rank are ready: send the REFRESH and forget the request. -/
def sendRefresh (bankStates : BankStates cfg) (row column : ℤ) (rank : cfg.Rank) : Choice cfg E :=
  if (bankStates rank cfg.firstBank).currentBankState = .powerDown then none
  else some (refreshPacket row column rank,
    { cq with refreshRank := none, refreshWaiting := false })

/-- The first command of a queue that goes to the open row of a bank. -/
def firstToOpenRow (bankStates : BankStates cfg) (rank : cfg.Rank) (bank : cfg.Bank) :
    Option (List (MainMemoryBusPacket cfg E) × MainMemoryBusPacket cfg E ×
      List (MainMemoryBusPacket cfg E)) :=
  firstSplit (fun _ packet => packet.isFor bank (bankStates rank bank).openRowAddress) []
    (cq.getCommandQueue rank bank)

/-- Close page: let the first open bank finish the access it was opened for. -/
def closePageRefresh (bankStates : BankStates cfg) (now : ℤ) : Choice cfg E :=
  match cq.refreshWaiting, cq.refreshRank with
  | true, some rank =>
    match (List.finRange cfg.numBanks).find?
        (fun bank => delaysRefresh (bankStates rank bank) now) with
    | none => cq.sendRefresh bankStates 1 1 rank
    | some bank =>
      if (bankStates rank bank).currentBankState = .rowActive then
        match cq.firstToOpenRow bankStates rank bank with
        | none => none
        | some (before, packet, after) =>
          if packet.isActivate = false ∧ cq.isIssuable bankStates now packet = true then
            some (packet, cq.setCommandQueue rank bank (before ++ after))
          else none
      else none
  | _, _ => none

/-- A rank that waits for a refresh gets nothing else. -/
def awaitsRefresh (rank : cfg.Rank) : Bool := cq.refreshRank = some rank ∧ cq.refreshWaiting

/-- The command right before is an activate for the same address. -/
def pairedWithActivate (before : List (MainMemoryBusPacket cfg E))
    (packet : MainMemoryBusPacket cfg E) : Bool :=
  match before.getLast? with
  | none => false
  | some prev => prev.isActivate ∧ prev.physicalAddress = packet.physicalAddress

/-- Close page: what one queue offers. -/
def closePageAttempt (bankStates : BankStates cfg) (now : ℤ) (p : cfg.Rank × cfg.Bank) :
    Choice cfg E :=
  if cq.awaitsRefresh p.1 then none
  else
    match cfg.queuingStructure with
    | .perRank =>
      match firstSplit (fun before packet => cq.isIssuable bankStates now packet &&
          !pairedWithActivate before packet) [] (cq.getCommandQueue p.1 p.2) with
      | none => none
      | some (before, packet, after) =>
        some (packet, cq.setCommandQueue p.1 p.2 (before ++ after))
    | .perRankPerBank =>
      match cq.getCommandQueue p.1 p.2 with
      | [] => none
      | packet :: rest =>
        if cq.isIssuable bankStates now packet then
          some (packet, cq.setCommandQueue p.1 p.2 rest)
        else none

/-- Open page: close the row of a bank, once its timing allows it. -/
def closeRow (bankStates : BankStates cfg) (now : ℤ) (rank : cfg.Rank) (bank : cfg.Bank) :
    Choice cfg E :=
  if (bankStates rank bank).nextPrecharge ≤ now then
    some (prechargePacket rank bank, cq.setRowAccessCounter rank bank 0)
  else none

/-- Open page: let the first open bank finish the accesses to its row, then close it. -/
def openPageRefresh (bankStates : BankStates cfg) (now : ℤ) : Choice cfg E :=
  match cq.refreshWaiting, cq.refreshRank with
  | true, some rank =>
    match (List.finRange cfg.numBanks).find?
        (fun bank => delaysRefresh (bankStates rank bank) now) with
    | none => cq.sendRefresh bankStates 0 0 rank
    | some bank =>
      if (bankStates rank bank).currentBankState = .rowActive then
        match cq.firstToOpenRow bankStates rank bank with
        | none => cq.closeRow bankStates now rank bank
        | some (before, packet, after) =>
          if packet.isActivate then cq.closeRow bankStates now rank bank
          else if cq.isIssuable bankStates now packet then
            some (packet, cq.setCommandQueue rank bank (before ++ after))
          else none
      else none
  | _, _ => none

/-- An earlier column command goes to the same bank and row. -/
def dependencyFound (before : List (MainMemoryBusPacket cfg E))
    (packet : MainMemoryBusPacket cfg E) : Bool :=
  before.any (fun prevPacket => !prevPacket.isActivate && prevPacket.isFor packet.bank packet.row)

/-- Open page: what one queue offers. An activate right before the chosen command is thrown
away with it. -/
def openPageAttempt (bankStates : BankStates cfg) (now : ℤ) (p : cfg.Rank × cfg.Bank) :
    Choice cfg E :=
  if cq.awaitsRefresh p.1 then none
  else
    match firstSplit (fun before packet => cq.isIssuable bankStates now packet &&
        !dependencyFound before packet) [] (cq.getCommandQueue p.1 p.2) with
    | none => none
    | some (before, packet, after) =>
      if before.getLast?.any (fun prev => prev.isActivate) then
        some (packet, (cq.setCommandQueue p.1 p.2 (before.dropLast ++ after)).setRowAccessCounter
          packet.rank packet.bank (cq.rowAccessCounters packet.rank packet.bank + 1))
      else some (packet, cq.setCommandQueue p.1 p.2 (before ++ after))

/-- Open page: close a row that nothing waits for, or that was accessed often enough. -/
def prechargeAttempt (bankStates : BankStates cfg) (now : ℤ) (p : cfg.Rank × cfg.Bank) :
    Choice cfg E :=
  if (bankStates p.1 p.2).currentBankState = .rowActive ∧
      ((cq.getCommandQueue p.1 p.2).any
          (fun packet => packet.isFor p.2 (bankStates p.1 p.2).openRowAddress) = false ∨
        cq.rowAccessCounters p.1 p.2 = cfg.totalRowAccesses) then
    cq.closeRow bankStates now p.1 p.2
  else none

/-- The loop over the queues, from the position after the last command. -/
def searchQueues (attempt : cfg.Rank × cfg.Bank → Choice cfg E) :
    Choice cfg E × (cfg.Rank × cfg.Bank) :=
  roundRobin cfg.nextQueue attempt (cq.nextRank, cq.nextBank) (cfg.numRanks * cfg.numBanks)
    (cq.nextRank, cq.nextBank)

/-- The loop over the banks to close, from the position of the last PRECHARGE. -/
def searchBanks (attempt : cfg.Rank × cfg.Bank → Choice cfg E) :
    Choice cfg E × (cfg.Rank × cfg.Bank) :=
  roundRobin (fun p => cfg.nextRankAndBank p.1 p.2) attempt (cq.nextRankPRE, cq.nextBankPRE)
    (cfg.numRanks * cfg.numBanks) (cq.nextRankPRE, cq.nextBankPRE)

def setNext (p : cfg.Rank × cfg.Bank) : CommandQueue cfg E :=
  { cq with nextRank := p.1, nextBank := p.2 }

def setNextPRE (p : cfg.Rank × cfg.Bank) : CommandQueue cfg E :=
  { cq with nextRankPRE := p.1, nextBankPRE := p.2 }

/-- With posted column accesses the position stays for the column command of an activate. -/
def advance : CommandQueue cfg E :=
  if 0 < cfg.tAL ∧ cq.sendAct = true then { cq with sendAct := false }
  else { cq with sendAct := true }.setNext (cfg.nextRankAndBank cq.nextRank cq.nextBank)

/-- An activate starts a counter of its rank. -/
def noteActivate (busPacket : MainMemoryBusPacket cfg E) : CommandQueue cfg E :=
  if busPacket.isActivate then
    { cq with
      tFAWCountdown := Function.update cq.tFAWCountdown busPacket.rank
        (cq.tFAWCountdown busPacket.rank ++ [cfg.tFAW]) }
  else cq

/-- What is left to do once a command is chosen. -/
def finish : MainMemoryBusPacket cfg E × CommandQueue cfg E →
    Option (MainMemoryBusPacket cfg E) × CommandQueue cfg E
  | (busPacket, cq) => (some busPacket, cq.advance.noteActivate busPacket)

def popClosePage (bankStates : BankStates cfg) (now : ℤ) :
    Option (MainMemoryBusPacket cfg E) × CommandQueue cfg E :=
  match cq.closePageRefresh bankStates now with
  | some chosen => finish chosen
  | none =>
    match cq.searchQueues (cq.closePageAttempt bankStates now) with
    | (some (busPacket, cq'), p) => finish (busPacket, cq'.setNext p)
    | (none, p) => (none, cq.setNext p)

def popOpenPage (bankStates : BankStates cfg) (now : ℤ) :
    Option (MainMemoryBusPacket cfg E) × CommandQueue cfg E :=
  match cq.openPageRefresh bankStates now with
  | some chosen => finish chosen
  | none =>
    match cq.searchQueues (cq.openPageAttempt bankStates now) with
    | (some (busPacket, cq'), p) => finish (busPacket, cq'.setNext p)
    | (none, p) =>
      match cq.searchBanks (cq.prechargeAttempt bankStates now) with
      | (some (busPacket, cq'), q) => finish (busPacket, (cq'.setNext p).setNextPRE q)
      | (none, q) => (none, (cq.setNext p).setNextPRE q)

/-- The next command, if one can be issued, and the queue that is left. -/
def pop (bankStates : BankStates cfg) (now : ℤ) :
    Option (MainMemoryBusPacket cfg E) × CommandQueue cfg E :=
  match cfg.rowBufferPolicy with
  | .closePage => cq.countDown.popClosePage bankStates now
  | .openPage => cq.countDown.popOpenPage bankStates now

end CommandQueue

section Loops

variable {cq : CommandQueue cfg E}

namespace MainMemoryConfig

variable (cfg) in
/-- The number of a position in the order in which the scheduling policy visits them. -/
def circle (p : cfg.Rank × cfg.Bank) : ℕ :=
  match cfg.schedulingPolicy with
  | .rankThenBankRoundRobin => p.1.val + cfg.numRanks * p.2.val
  | .bankThenRankRoundRobin => p.2.val + cfg.numBanks * p.1.val

theorem circle_lt (p : cfg.Rank × cfg.Bank) : cfg.circle p < cfg.numRanks * cfg.numBanks := by
  rw [circle]
  split
  · exact digits_lt p.1.isLt p.2.isLt
  · rw [Nat.mul_comm cfg.numRanks]
    exact digits_lt p.2.isLt p.1.isLt

theorem circle_injective : Function.Injective cfg.circle := by
  intro p q h
  rw [circle, circle] at h
  split at h
  · obtain ⟨hrank, hbank⟩ := digits_inj p.1.isLt q.1.isLt h
    exact Prod.ext (Fin.ext hrank) (Fin.ext hbank)
  · obtain ⟨hbank, hrank⟩ := digits_inj p.2.isLt q.2.isLt h
    exact Prod.ext (Fin.ext hrank) (Fin.ext hbank)

theorem circle_nextRankAndBank (p : cfg.Rank × cfg.Bank) :
    cfg.circle (cfg.nextRankAndBank p.1 p.2) =
      (cfg.circle p + 1) % (cfg.numRanks * cfg.numBanks) := by
  rw [nextRankAndBank]
  split
  case h_1 hpolicy =>
    simp only [circle, hpolicy]
    rw [digits_next p.1.isLt p.2.isLt]
    split
    · rfl
    · split <;> simp [firstRank, firstBank]
  case h_2 hpolicy =>
    simp only [circle, hpolicy]
    rw [Nat.mul_comm cfg.numRanks, digits_next p.2.isLt p.1.isLt]
    split
    · rfl
    · split <;> simp [firstRank, firstBank]

/-- Going through the queues of the ranks comes back after as many steps as there are ranks. -/
theorem iterate_nextQueue (h : cfg.queuingStructure = .perRank) (p : cfg.Rank × cfg.Bank) :
    cfg.nextQueue^[cfg.numRanks] p = p := by
  have hiterate : ∀ k, cfg.nextQueue^[k] p =
      (⟨(p.1.val + k) % cfg.numRanks, Nat.mod_lt _ cfg.numRanks_pos⟩, p.2) := by
    intro k
    induction k with
    | zero => exact Prod.ext (Fin.ext (Nat.mod_eq_of_lt p.1.isLt).symm) rfl
    | succ k ih =>
      rw [Function.iterate_succ_apply', ih, nextQueue, h]
      simp [Nat.add_assoc]
  rw [hiterate]
  exact Prod.ext (Fin.ext (by simp [Nat.mod_eq_of_lt p.1.isLt])) rfl

end MainMemoryConfig

namespace CommandQueue

/-- The loop over the banks ends by itself: more rounds than it has change nothing. -/
theorem searchBanks_complete (attempt : cfg.Rank × cfg.Bank → Choice cfg E) (m : ℕ) :
    roundRobin (fun p => cfg.nextRankAndBank p.1 p.2) attempt (cq.nextRankPRE, cq.nextBankPRE)
      (cfg.numRanks * cfg.numBanks + m) (cq.nextRankPRE, cq.nextBankPRE) =
    cq.searchBanks attempt :=
  roundRobin_of_circle cfg.circle_injective cfg.circle_lt cfg.circle_nextRankAndBank _ m

/-- The loop over the queues ends by itself. -/
theorem searchQueues_complete (attempt : cfg.Rank × cfg.Bank → Choice cfg E) (m : ℕ) :
    roundRobin cfg.nextQueue attempt (cq.nextRank, cq.nextBank)
      (cfg.numRanks * cfg.numBanks + m) (cq.nextRank, cq.nextBank) =
    cq.searchQueues attempt := by
  cases hstructure : cfg.queuingStructure with
  | perRankPerBank =>
    have hnext : cfg.nextQueue = fun p => cfg.nextRankAndBank p.1 p.2 := by
      funext p
      rw [MainMemoryConfig.nextQueue, hstructure]
    rw [searchQueues, hnext]
    exact roundRobin_of_circle cfg.circle_injective cfg.circle_lt cfg.circle_nextRankAndBank _ m
  | perRank =>
    have hreturn := cfg.iterate_nextQueue hstructure (cq.nextRank, cq.nextBank)
    obtain ⟨k, hk⟩ := Nat.exists_eq_succ_of_ne_zero (Nat.ne_of_gt cfg.numRanks_pos)
    have hbanks : ∃ r, cfg.numRanks * cfg.numBanks = k + 1 + r := by
      refine Nat.exists_eq_add_of_le ?_
      calc k + 1 = cfg.numRanks * 1 := by rw [hk, Nat.mul_one]
        _ ≤ cfg.numRanks * cfg.numBanks := Nat.mul_le_mul_left _ cfg.numBanks_pos
    obtain ⟨r, hr⟩ := hbanks
    rw [hk] at hreturn
    rw [searchQueues, hr, Nat.add_assoc, roundRobin_add hreturn, roundRobin_add hreturn]

end CommandQueue

end Loops

end Tejas
