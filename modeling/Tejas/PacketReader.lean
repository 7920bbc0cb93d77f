import Tejas.LabelledRuns
import Tejas.Instructions
import Mathlib.Data.List.Basic
import Mathlib.Data.Int.Notation

/-!
# The packet reader

`RunnableThread.java` reads the packets of an application thread. An instruction
packet closes the instruction collected before it, whose micro-operations go to
`inputToPipeline` or, when there is no room for all of them, to the outstanding
list. Sync markers and the final `inValid` marker are enqueued at once.

The model follows one application thread slot and the core it feeds, with the
translator as a parameter. The packets read, the cause of every micro-operation and
the list of everything enqueued record the history of a run. The reader itself
uses them only to tell the translator which packets it translates.
-/

namespace Tejas
open LabelledRuns

structure Packet where
  ip : ℤ
  value : ℤ
  tgt : ℤ
  deriving DecidableEq, Repr

namespace Encoding

def threadComplete : ℤ := -1
def subsetSimComplete : ℤ := -2
def timer : ℤ := 8
def synchStart : ℤ := 9
def lock : ℤ := 14
def barrierWait : ℤ := 22
def synchEnd : ℤ := 24
def barrierInit : ℤ := 26
def assembly : ℤ := 27
def instruction : ℤ := 28

end Encoding

/-- The fields of `Instruction.java` that the reader and the fetch stage use. -/
structure MicroOp where
  operationType : OperationType
  ciscProgramCounter : ℤ
  deriving DecidableEq, Repr

/-- A packet with its position in the stream of its thread. -/
structure ReadPacket where
  packet : Packet
  position : ℕ
  deriving DecidableEq, Repr

/-- A micro-operation with the position of the packet that causes it. -/
structure CausedOp where
  op : MicroOp
  cause : ℕ
  deriving DecidableEq, Repr

/-- `ObjParser.fuseInstruction`. No translator makes an `inValid` or a `sync`
instruction. -/
structure Translator where
  fuseInstruction : List ReadPacket → List MicroOp
  no_marker : ∀ packets, ∀ op ∈ fuseInstruction packets,
    op.operationType ≠ .inValid ∧ op.operationType ≠ .sync

/-- The capacity of `inputToPipeline`. -/
def instructionThreshold : ℕ := 2000

/-- The capacity of `outstandingMicroOps`. -/
def outstandingCapacity : ℕ := 50

/-- The capacity of an `EmulatorPacketList`. -/
def packetListSize : ℕ := 5

/-- `EmulatorPacketList.add`: a packet that finds the list full is dropped. -/
def addToPacketList (packetList : List ReadPacket) (p : ReadPacket) : List ReadPacket :=
  if packetList.length = packetListSize then packetList else packetList ++ [p]

/-- The answer of `GlobalTable.update` to a thread: whether the thread is put to
sleep, whether it is resumed, and the address it sleeps on or is resumed for. -/
structure ResumeSleep where
  sleeps : Bool
  resumes : Bool
  address : ℤ
  deriving DecidableEq, Repr

/-- `GlobalTable.update` for the packets of one thread. The barrier table answers a
`BARRIERWAIT` with the address of the barrier the thread is added to, if there is
one; the lock table grants every lock and wakes nobody at an unlock. -/
def globalTableUpdate (p : Packet) (barrier : Option ℤ) : ResumeSleep :=
  if p.value = Encoding.lock then ⟨true, false, p.tgt⟩
  else if p.value = Encoding.lock + 1 then ⟨false, true, p.tgt⟩
  else if p.value = Encoding.barrierWait then
    match barrier with
    | some address => ⟨true, false, address⟩
    | none => ⟨false, false, 0⟩
  else ⟨false, false, 0⟩

/-- An application thread slot with its core. -/
structure PacketReader where
  fromEmulator : List Packet
  packetsRead : List Packet
  /-- The loop over the packets of the slot is being executed. -/
  reading : Bool
  allOver : Bool
  isFirstPacket : Bool
  finished : Bool
  halted : Bool
  packetList : List ReadPacket
  outstandingMicroOps : List CausedOp
  inputToPipeline : List CausedOp
  enqueued : List CausedOp
  /-- Instructions fetched and not yet committed, in program order. -/
  pipeline : List CausedOp
  currentThreads : ℤ
  executionBegun : Bool
  executionComplete : Bool
  /-- The final markers committed. -/
  committed : ℕ
  deriving DecidableEq, Repr

namespace PacketReader

/-- Nothing of the stream has been read. -/
def start (stream : List Packet) : PacketReader where
  fromEmulator := stream
  packetsRead := []
  reading := false
  allOver := false
  isFirstPacket := true
  finished := false
  halted := false
  packetList := []
  outstandingMicroOps := []
  inputToPipeline := []
  enqueued := []
  pipeline := []
  currentThreads := 0
  executionBegun := false
  executionComplete := false
  committed := 0

def spaceLeft (s : PacketReader) : ℕ := instructionThreshold - s.inputToPipeline.length

/-- `inputToPipeline.enqueue`; a full queue ends the simulation. -/
def enqueue (s : PacketReader) (op : CausedOp) : Option PacketReader :=
  if s.inputToPipeline.length < instructionThreshold then
    some { s with
      inputToPipeline := s.inputToPipeline ++ [op]
      enqueued := s.enqueued ++ [op] }
  else none

/-- The outstanding micro-operations move into the pipeline buffer. -/
def enqueueOutstanding (s : PacketReader) : PacketReader :=
  { s with
    inputToPipeline := s.inputToPipeline ++ s.outstandingMicroOps
    enqueued := s.enqueued ++ s.outstandingMicroOps
    outstandingMicroOps := [] }

/-- The start of an iteration of `run` for the slot: `continue` leaves the state as it is. -/
def beginRound (s : PacketReader) : Option PacketReader :=
  if s.reading ∨ s.allOver ∨ s.halted then none
  else if s.outstandingMicroOps = [] then some { s with reading := true }
  else if s.outstandingMicroOps.length < s.spaceLeft then
    some { s.enqueueOutstanding with reading := true }
  else some s

/-- `resumeSleep`: the sync instruction goes into the pipeline buffer directly. An
address of zero ends the simulation. -/
def resumeSleep (s : PacketReader) (update : ResumeSleep) (cause : ℕ) : Option PacketReader :=
  if update.sleeps then
    if update.address = 0 then none
    else (s.enqueue ⟨⟨.sync, update.address⟩, cause⟩).map (fun t => { t with halted := true })
  else if update.resumes then
    if update.address = 0 then none else some { s with halted := false }
  else some s

/-- `signalFinish`. -/
def signalFinish (s : PacketReader) (cause : ℕ) : Option PacketReader :=
  (s.enqueue ⟨⟨.inValid, 0⟩, cause⟩).map (fun t => { t with finished := true })

/-- The first packet of a thread. -/
def startThread (s : PacketReader) (p : ReadPacket) : PacketReader :=
  { s with
    currentThreads := s.currentThreads + 1
    executionComplete := false
    executionBegun := true
    packetList := addToPacketList s.packetList p
    isFirstPacket := false }

/-- The first micro-operation carries the instruction pointer, the others carry `-1`. -/
def setProgramCounters (ip : ℤ) : List MicroOp → List MicroOp
  | [] => []
  | first :: rest =>
    { first with ciscProgramCounter := ip } ::
      rest.map (fun op => { op with ciscProgramCounter := -1 })

/-- The micro-operations of the collected packets. -/
def fuse (translator : Translator) : List ReadPacket → List CausedOp
  | [] => []
  | first :: rest =>
    (setProgramCounters first.packet.ip (translator.fuseInstruction (first :: rest))).map
      (fun op => ⟨op, first.position⟩)

/-- The packet closes the instruction collected before it. -/
def ClosesInstruction (p : Packet) : Bool :=
  p.value = Encoding.instruction ∨ (6 < p.value ∧ p.value < 26) ∨ p.value = Encoding.assembly

/-- The collected instruction is translated. Either all outstanding micro-operations
are added to the pipeline buffer or none. -/
def closeInstruction (translator : Translator) (s : PacketReader) (p : ReadPacket) :
    Option (Bool × PacketReader) :=
  let outstanding := s.outstandingMicroOps ++ fuse translator s.packetList
  if outstandingCapacity < outstanding.length then none
  else
    let t := { s with outstandingMicroOps := outstanding, packetList := [p] }
    if outstanding.length < s.spaceLeft then some (true, t.enqueueOutstanding)
    else some (false, t)

/-- `processPacket`; the reply says whether there is space in the pipeline buffer. -/
def processPacket (translator : Translator) (s : PacketReader) (p : ReadPacket)
    (barrier : Option ℤ) : Option (Bool × PacketReader) :=
  if p.packet.value = Encoding.timer then some (true, s)
  else if Encoding.synchStart < p.packet.value ∧ p.packet.value < Encoding.synchEnd then
    (s.resumeSleep (globalTableUpdate p.packet barrier) p.position).map (fun t => (true, t))
  else if p.packet.value = Encoding.barrierInit then some (true, s)
  else if s.isFirstPacket then some (true, s.startThread p)
  else if ClosesInstruction p.packet then closeInstruction translator s p
  else some (true, { s with packetList := addToPacketList s.packetList p })

/-- `THREADCOMPLETE` is signalled before the packet is processed. -/
def noteCompletion (s : PacketReader) (p : ReadPacket) : Option PacketReader :=
  if p.packet.value = Encoding.threadComplete then
    signalFinish { s with isFirstPacket := true } p.position
  else some s

/-- One iteration of the loop over the packets of the slot. -/
def readPacket (translator : Translator) (s : PacketReader) (barrier : Option ℤ) :
    Option PacketReader :=
  match s.fromEmulator with
  | [] => none
  | p :: rest =>
    if s.reading then
      let read : ReadPacket := ⟨p, s.packetsRead.length⟩
      let dequeued := { s with fromEmulator := rest, packetsRead := s.packetsRead ++ [p] }
      (noteCompletion dequeued read).bind (fun t =>
        if p.value = Encoding.subsetSimComplete then
          some { t with reading := false, allOver := true }
        else
          (processPacket translator t read barrier).map (fun reply =>
            { reply.2 with reading := reply.1 }))
    else none

/-- The stages of a core work from the first packet until the execution is complete. -/
def Executing (s : PacketReader) : Bool := s.executionBegun && !s.executionComplete

/-- What enters the pipeline for an instruction: a fence in place of a sync. -/
def fetched (op : CausedOp) : CausedOp :=
  if op.op.operationType = .sync then ⟨{ op.op with operationType := .mfence }, op.cause⟩ else op

/-- The fetch of the next instruction. -/
def fetch (s : PacketReader) : Option PacketReader :=
  match s.inputToPipeline with
  | [] => none
  | op :: rest =>
    if s.Executing then
      some { s with inputToPipeline := rest, pipeline := s.pipeline ++ [fetched op] }
    else none

/-- The counter after a final marker; it does not fall below zero. -/
def lowerThreads (currentThreads : ℤ) : ℤ :=
  if currentThreads - 1 < 0 then 0 else currentThreads - 1

/-- The commit of the oldest instruction. -/
def commit (s : PacketReader) : Option PacketReader :=
  match s.pipeline with
  | [] => none
  | op :: rest =>
    if s.Executing then
      if op.op.operationType = .inValid then
        some { s with
          pipeline := rest
          currentThreads := lowerThreads s.currentThreads
          executionComplete :=
            if lowerThreads s.currentThreads = 0 then true else s.executionComplete
          committed := s.committed + 1 }
      else some { s with pipeline := rest }
    else none

inductive Action where
  | beginRound
  | readPacket (barrier : Option ℤ)
  /-- No further packet has been fetched from the emulator. -/
  | endRound
  /-- `runPipelines` and the releases of other threads clear `halted`. -/
  | unhalt
  | fetch
  | commit
  deriving DecidableEq, Repr

def next (translator : Translator) (s : PacketReader) : Action → Option PacketReader
  | .beginRound => s.beginRound
  | .readPacket barrier => s.readPacket translator barrier
  | .endRound => some { s with reading := false }
  | .unhalt => some { s with halted := false }
  | .fetch => s.fetch
  | .commit => s.commit

abbrev Step (translator : Translator) : PacketReader → Action → PacketReader → Prop :=
  StepOf (next translator)

/-! ## What a packet can do -/

variable {translator : Translator} {s t : PacketReader} {p : ReadPacket} {op : CausedOp}
  {barrier : Option ℤ} {cause : ℕ} {ret : Bool}

/-- Packets that belong to no instruction: timers, synchronization, barrier set-up. -/
def IsControl (p : Packet) : Prop :=
  p.value = Encoding.timer ∨ (Encoding.synchStart < p.value ∧ p.value < Encoding.synchEnd) ∨
    p.value = Encoding.barrierInit

/-- What `processPacket` does with a packet, and its reply. -/
inductive Processes (translator : Translator) (s : PacketReader) (p : ReadPacket) :
    Bool → PacketReader → Prop
  | ignored (hcontrol : IsControl p.packet) : Processes translator s p true s
  | resumed (hcontrol : IsControl p.packet) :
      Processes translator s p true { s with halted := false }
  | slept (hcontrol : IsControl p.packet) (address : ℤ)
      (hroom : s.inputToPipeline.length < instructionThreshold) :
      Processes translator s p true { s with
        inputToPipeline := s.inputToPipeline ++ [⟨⟨.sync, address⟩, p.position⟩]
        enqueued := s.enqueued ++ [⟨⟨.sync, address⟩, p.position⟩]
        halted := true }
  | started (hcontrol : ¬ IsControl p.packet) (hfirst : s.isFirstPacket = true) :
      Processes translator s p true (s.startThread p)
  | collected (hcontrol : ¬ IsControl p.packet) (hfirst : s.isFirstPacket = false)
      (hopen : ClosesInstruction p.packet = false) :
      Processes translator s p true { s with packetList := addToPacketList s.packetList p }
  | closed (hcontrol : ¬ IsControl p.packet) (hfirst : s.isFirstPacket = false)
      (hcloses : ClosesInstruction p.packet = true) :
      Processes translator s p true (enqueueOutstanding { s with
        outstandingMicroOps := s.outstandingMicroOps ++ fuse translator s.packetList
        packetList := [p] })
  | parked (hcontrol : ¬ IsControl p.packet) (hfirst : s.isFirstPacket = false)
      (hcloses : ClosesInstruction p.packet = true) :
      Processes translator s p false { s with
        outstandingMicroOps := s.outstandingMicroOps ++ fuse translator s.packetList
        packetList := [p] }

theorem enqueue_eq_some (h : s.enqueue op = some t) :
    s.inputToPipeline.length < instructionThreshold ∧
      t = { s with
        inputToPipeline := s.inputToPipeline ++ [op]
        enqueued := s.enqueued ++ [op] } := by
  unfold enqueue at h
  split at h
  · exact ⟨‹_›, (Option.some.inj h).symm⟩
  · cases h

theorem resumeSleep_processes (hcontrol : IsControl p.packet)
    {update : ResumeSleep} (h : s.resumeSleep update p.position = some t) :
    Processes translator s p true t := by
  unfold resumeSleep at h
  split at h
  · split at h
    · cases h
    · obtain ⟨u, hu, rfl⟩ := Option.map_eq_some_iff.mp h
      obtain ⟨hroom, rfl⟩ := enqueue_eq_some hu
      exact .slept hcontrol update.address hroom
  · split at h
    · split at h
      · cases h
      · cases h
        exact .resumed hcontrol
    · cases h
      exact .ignored hcontrol

theorem closeInstruction_processes (hcontrol : ¬ IsControl p.packet)
    (hfirst : s.isFirstPacket = false) (hcloses : ClosesInstruction p.packet = true)
    (h : closeInstruction translator s p = some (ret, t)) : Processes translator s p ret t := by
  simp only [closeInstruction] at h
  split at h
  · cases h
  · split at h
    · cases h
      exact .closed hcontrol hfirst hcloses
    · cases h
      exact .parked hcontrol hfirst hcloses

theorem processPacket_processes (h : processPacket translator s p barrier = some (ret, t)) :
    Processes translator s p ret t := by
  unfold processPacket at h
  split at h
  · cases h
    exact .ignored (Or.inl ‹_›)
  · rename_i htimer
    split at h
    · rename_i hsync
      obtain ⟨u, hu, heq⟩ := Option.map_eq_some_iff.mp h
      cases heq
      exact resumeSleep_processes (Or.inr (Or.inl hsync)) hu
    · rename_i hsync
      split at h
      · cases h
        exact .ignored (Or.inr (Or.inr ‹_›))
      · rename_i hinit
        have hcontrol : ¬ IsControl p.packet := by
          intro hcontrol
          rcases hcontrol with hc | hc | hc
          · exact htimer hc
          · exact hsync hc
          · exact hinit hc
        split at h
        · cases h
          exact .started hcontrol ‹_›
        · rename_i hfirst
          have hfirst : s.isFirstPacket = false := by simpa using hfirst
          split at h
          · exact closeInstruction_processes hcontrol hfirst ‹_› h
          · rename_i hopen
            cases h
            exact .collected hcontrol hfirst (by simpa using hopen)

/-- The final marker that `THREADCOMPLETE` puts into the pipeline buffer. -/
def finalMarker (position : ℕ) : CausedOp := ⟨⟨.inValid, 0⟩, position⟩

/-- What `noteCompletion` does with a packet. -/
inductive Completes (s : PacketReader) (p : ReadPacket) : PacketReader → Prop
  | other (hvalue : p.packet.value ≠ Encoding.threadComplete) : Completes s p s
  | signalled (hvalue : p.packet.value = Encoding.threadComplete)
      (hroom : s.inputToPipeline.length < instructionThreshold) :
      Completes s p { s with
        isFirstPacket := true
        finished := true
        inputToPipeline := s.inputToPipeline ++ [finalMarker p.position]
        enqueued := s.enqueued ++ [finalMarker p.position] }

theorem noteCompletion_completes (h : noteCompletion s p = some t) : Completes s p t := by
  unfold noteCompletion at h
  split at h
  · obtain ⟨u, hu, rfl⟩ := Option.map_eq_some_iff.mp h
    obtain ⟨hroom, rfl⟩ := enqueue_eq_some hu
    exact .signalled ‹_› hroom
  · cases h
    exact .other ‹_›

/-- The packet at the head of the stream is read. -/
def dequeue (s : PacketReader) (p : Packet) (rest : List Packet) : PacketReader :=
  { s with fromEmulator := rest, packetsRead := s.packetsRead ++ [p] }

/-- A read packet is signalled, then it ends everything or is processed. -/
theorem readPacket_cases (h : s.readPacket translator barrier = some t) :
    ∃ p rest u, s.fromEmulator = p :: rest ∧ s.reading = true ∧
      Completes (s.dequeue p rest) ⟨p, s.packetsRead.length⟩ u ∧
      ((p.value = Encoding.subsetSimComplete ∧ t = { u with reading := false, allOver := true }) ∨
        ∃ ret v, Processes translator u ⟨p, s.packetsRead.length⟩ ret v ∧
          t = { v with reading := ret }) := by
  unfold readPacket at h
  split at h
  · cases h
  · rename_i p rest hstream
    split at h
    · obtain ⟨u, hu, hrest⟩ := Option.bind_eq_some_iff.mp h
      refine ⟨p, rest, u, hstream, ‹_›, noteCompletion_completes hu, ?_⟩
      split at hrest
      · exact Or.inl ⟨‹_›, (Option.some.inj hrest).symm⟩
      · obtain ⟨⟨ret, v⟩, hv, rfl⟩ := Option.map_eq_some_iff.mp hrest
        exact Or.inr ⟨ret, v, processPacket_processes hv, rfl⟩
    · cases h

theorem beginRound_cases (h : s.beginRound = some t) :
    t = s ∨ (s.allOver = false ∧ s.outstandingMicroOps = [] ∧ t = { s with reading := true }) ∨
      (s.allOver = false ∧ t = { s.enqueueOutstanding with reading := true }) := by
  unfold beginRound at h
  split at h
  · cases h
  · rename_i hrunning
    have hover : s.allOver = false := by simp_all
    split at h
    · exact Or.inr (Or.inl ⟨hover, ‹_›, (Option.some.inj h).symm⟩)
    · split at h
      · exact Or.inr (Or.inr ⟨hover, (Option.some.inj h).symm⟩)
      · exact Or.inl (Option.some.inj h).symm

theorem fetch_cases (h : s.fetch = some t) :
    ∃ op rest, s.inputToPipeline = op :: rest ∧
      t = { s with inputToPipeline := rest, pipeline := s.pipeline ++ [fetched op] } := by
  unfold fetch at h
  split at h
  · cases h
  · rename_i op rest hqueue
    split at h
    · exact ⟨op, rest, hqueue, (Option.some.inj h).symm⟩
    · cases h

theorem commit_cases (h : s.commit = some t) :
    ∃ op rest, s.pipeline = op :: rest ∧
      ((op.op.operationType = .inValid ∧ t = { s with
          pipeline := rest
          currentThreads := lowerThreads s.currentThreads
          executionComplete :=
            if lowerThreads s.currentThreads = 0 then true else s.executionComplete
          committed := s.committed + 1 }) ∨
        (op.op.operationType ≠ .inValid ∧ t = { s with pipeline := rest })) := by
  unfold commit at h
  split at h
  · cases h
  · rename_i op rest hpipeline
    refine ⟨op, rest, hpipeline, ?_⟩
    split at h
    · split at h
      · exact Or.inl ⟨‹_›, (Option.some.inj h).symm⟩
      · exact Or.inr ⟨‹_›, (Option.some.inj h).symm⟩
    · cases h

/-- The micro-operations of an instruction are no markers. -/
theorem fuse_no_marker {packets : List ReadPacket} (h : op ∈ fuse translator packets) :
    op.op.operationType ≠ .inValid ∧ op.op.operationType ≠ .sync := by
  cases packets with
  | nil => cases h
  | cons first rest =>
    obtain ⟨micro, hmicro, rfl⟩ := List.mem_map.mp h
    have hall := translator.no_marker (first :: rest)
    generalize translator.fuseInstruction (first :: rest) = micros at hmicro hall
    cases micros with
    | nil => cases hmicro
    | cons m ms =>
      rcases List.mem_cons.mp hmicro with rfl | hmem
      · exact hall m List.mem_cons_self
      · obtain ⟨m', hm', rfl⟩ := List.mem_map.mp hmem
        exact hall m' (List.mem_cons_of_mem _ hm')

theorem fuse_cause {packets : List ReadPacket} (h : op ∈ fuse translator packets) :
    ∃ first rest, packets = first :: rest ∧ op.cause = first.position := by
  cases packets with
  | nil => cases h
  | cons first rest =>
    obtain ⟨micro, -, rfl⟩ := List.mem_map.mp h
    exact ⟨first, rest, rfl, rfl⟩

end PacketReader

end Tejas
