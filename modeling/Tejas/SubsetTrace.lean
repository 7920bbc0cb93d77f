import Tejas.LabelledRuns
import Tejas.TraceFile

/-!
# The subset of a trace

`FilePacket.fetchManyPackets` with subset simulation and ignored instructions. One counter of
assembly lines decides when the first packet is delivered and when the end marker is. The file
is the list of its lines. The calls come in any order with the translator, which takes the texts
of the instructions out of the pool.
-/

namespace Tejas.SubsetTrace

open LabelledRuns CustomAsmCharPool
open TraceFile (blanks javaParseLong newline nextToken parseLong)

/-- The fields of `SimulationConfig.java` that the reader uses. -/
structure SimulationConfig where
  subsetSimulation : Bool
  subsetSimSize : ℤ
  numInsToIgnore : ℤ

/-- One thread's reader: the lines of its file that are still unread, the pool of texts, and the
packets it has enqueued. -/
structure FilePacket where
  inputLines : List (List UInt8)
  asmPool : CircularQueue (ℕ → UInt8)
  totalFetchedAssemblyPackets : ℤ
  packets : List Packet

/-- The packet of a line, and the text of an assembly line. `none` is an exception. -/
def parseLine (inputLine : List UInt8) : Option (Packet × Option (List UInt8)) := do
  let (ipToken, behind) ← nextToken blanks inputLine
  let (valueToken, behind) ← nextToken blanks behind
  let value ← javaParseLong valueToken
  if value ≠ Encoding.assembly then
    let (tgtToken, _) ← nextToken blanks behind
    return (⟨parseLong ipToken, value, parseLong tgtToken⟩, none)
  else
    let (text, _) ← nextToken [newline] behind
    return (⟨parseLong ipToken, value, -1⟩, some text)

namespace FilePacket

def openFile (inputLines : List (List UInt8)) : FilePacket where
  inputLines := inputLines
  asmPool := .empty (fun _ => 0)
  totalFetchedAssemblyPackets := 0
  packets := []

/-- `fromEmulator.enqueue` -/
def enqueue (s : FilePacket) (packet : Packet) : FilePacket :=
  { s with packets := s.packets ++ [packet] }

@[simp] theorem enqueue_packets (s : FilePacket) (packet : Packet) :
    (s.enqueue packet).packets = s.packets ++ [packet] := rfl

@[simp] theorem enqueue_total (s : FilePacket) (packet : Packet) :
    (s.enqueue packet).totalFetchedAssemblyPackets = s.totalFetchedAssemblyPackets := rfl

@[simp] theorem enqueue_pool (s : FilePacket) (packet : Packet) :
    (s.enqueue packet).asmPool = s.asmPool := rfl

/-- The subset has been fetched. -/
def Complete (config : SimulationConfig) (total : ℤ) : Prop :=
  config.subsetSimulation = true ∧ total ≥ config.subsetSimSize + config.numInsToIgnore

instance (config : SimulationConfig) (total : ℤ) : Decidable (Complete config total) :=
  inferInstanceAs (Decidable (_ ∧ _))

/-- The last packet of the subset, with the number of instructions. -/
def endMarker (config : SimulationConfig) (total : ℤ) : Packet :=
  ⟨total - config.numInsToIgnore, Encoding.subsetSimComplete, -1⟩

/-- The text of an assembly line goes to the pool, and the line is counted. A full pool ends
the simulator. -/
def countLine (s : FilePacket) (text : List UInt8) : Option FilePacket :=
  (s.asmPool.enqueue bufferSize (copyRow (fun i => text.getD i 0) text.length 1)).map
    (fun asmPool =>
      { s with asmPool, totalFetchedAssemblyPackets := s.totalFetchedAssemblyPackets + 1 })

/-- The translator takes a text out of the pool, or the reader the text of an ignored
instruction. -/
def dequeueText (s : FilePacket) : Option FilePacket :=
  (s.asmPool.dequeue bufferSize).map (fun r => { s with asmPool := r.2 })

/-- The loop of `fetchManyPackets` from round `i` on, with the number that is returned. -/
def fetchLines (config : SimulationConfig) (maxSize : ℕ) (inputLines : List (List UInt8)) (i : ℕ)
    (s : FilePacket) : Option (FilePacket × ℕ) :=
  if maxSize ≤ i then some (s, maxSize)
  else if Complete config s.totalFetchedAssemblyPackets then
    some (s.enqueue (endMarker config s.totalFetchedAssemblyPackets), i + 1)
  else
    match inputLines with
    | [] => some (s, i)
    | inputLine :: rest =>
      match parseLine inputLine with
      | none => none
      | some (packet, none) =>
        let s := { s with inputLines := rest }
        if s.totalFetchedAssemblyPackets < config.numInsToIgnore then some (s, 0)
        else fetchLines config maxSize rest (i + 1) (s.enqueue packet)
      | some (packet, some text) =>
        match countLine { s with inputLines := rest } text with
        | none => none
        | some s =>
          if s.totalFetchedAssemblyPackets < config.numInsToIgnore then
            s.dequeueText.map (fun s => (s, 0))
          else
            let i := if s.totalFetchedAssemblyPackets = config.numInsToIgnore then 0 else i
            fetchLines config maxSize rest (i + 1) (s.enqueue packet)

/-- `fetchManyPackets` with `maxSize` free places in the packet queue. -/
def fetchManyPackets (config : SimulationConfig) (s : FilePacket) (maxSize : ℕ) :
    Option (FilePacket × ℕ) :=
  fetchLines config maxSize s.inputLines 0 s

inductive Action
  | fetchManyPackets (maxSize : ℕ)
  | dequeueText
  deriving DecidableEq, Repr

def next (config : SimulationConfig) (s : FilePacket) : Action → Option FilePacket
  | .fetchManyPackets maxSize => (s.fetchManyPackets config maxSize).map Prod.fst
  | .dequeueText => s.dequeueText

end FilePacket

open FilePacket

/-! ## The trace -/

/-- The lines of an instruction: its assembly line, and its memory and branch lines. -/
structure TraceInstruction where
  asmLine : List UInt8
  ownLines : List (List UInt8)
  asmPacket : Packet
  text : List UInt8
  ownPackets : List Packet
  asm_ok : parseLine asmLine = some (asmPacket, some text)
  own_ok : ownLines.map parseLine = ownPackets.map (fun p => some (p, none))
  own_value : ∀ p ∈ ownPackets, p.value ≠ Encoding.subsetSimComplete

namespace TraceInstruction

def lines (instruction : TraceInstruction) : List (List UInt8) :=
  instruction.asmLine :: instruction.ownLines

def packets (instruction : TraceInstruction) : List Packet :=
  instruction.asmPacket :: instruction.ownPackets

end TraceInstruction

/-- `k` instructions are ignored and `n` are simulated. -/
def subsetConfig (k n : ℕ) : SimulationConfig := ⟨true, n, k⟩

/-- The number of assembly packets. -/
def assemblyCount (packets : List Packet) : ℕ :=
  packets.countP (fun p => decide (p.value = Encoding.assembly))

/-- The runs of the reader of a trace. -/
def TraceRun (trace : List TraceInstruction) (k n : ℕ) (actions : List Action) (s : FilePacket) :
    Prop :=
  Run (StepOf (next (subsetConfig k n))) (openFile (trace.flatMap TraceInstruction.lines)) actions s

/-- The packets before the first end marker are those of the instructions `k + 1` to `k + n`, and
the marker counts the instructions among them. -/
def Windowed (trace : List TraceInstruction) (k n : ℕ) : Prop :=
  ∀ actions s, TraceRun trace k n actions s → ∀ before marker behind,
    s.packets = before ++ marker :: behind → marker.value = Encoding.subsetSimComplete →
    (∀ p ∈ before, p.value ≠ Encoding.subsetSimComplete) →
    before = ((trace.drop k).take n).flatMap TraceInstruction.packets ∧
      marker.ip = (assemblyCount before : ℤ)

/-- The number of calls that found a free place. -/
def callsWithRoom (actions : List Action) : ℕ :=
  actions.countP (fun a =>
    match a with
    | .fetchManyPackets maxSize => decide (0 < maxSize)
    | .dequeueText => false)

/-- More calls with room than the trace has lines deliver the end marker. -/
def Delivers (trace : List TraceInstruction) (k n : ℕ) : Prop :=
  ∀ actions s, TraceRun trace k n actions s →
    (trace.flatMap TraceInstruction.lines).length < callsWithRoom actions →
    ∃ p ∈ s.packets, p.value = Encoding.subsetSimComplete

/-! ## What the reader delivers -/

section Stream

variable {config : SimulationConfig} {total : ℤ} {line : List UInt8} {packet : Packet}
  {text : Option (List UInt8)} {reads : List (Packet × Option (List UInt8))}

/-- A line is counted exactly if its packet is an assembly packet. -/
theorem parseLine_value (h : parseLine line = some (packet, text)) :
    text.isSome ↔ packet.value = Encoding.assembly := by
  simp only [parseLine, Option.bind_eq_bind, Option.bind_eq_some_iff] at h
  obtain ⟨⟨ipToken, behind⟩, -, ⟨valueToken, behind'⟩, -, value, -, h⟩ := h
  split at h
  case isTrue hvalue =>
    obtain ⟨⟨tgtToken, behind''⟩, -, h⟩ := Option.bind_eq_some_iff.mp h
    cases h
    simpa using hvalue
  case isFalse hvalue =>
    obtain ⟨⟨token, behind''⟩, -, h⟩ := Option.bind_eq_some_iff.mp h
    cases h
    simpa using hvalue

/-- The packets still to come, up to the end marker, when `total` instructions are counted. -/
def stream (config : SimulationConfig) (total : ℤ) :
    List (Packet × Option (List UInt8)) → List Packet
  | [] => if Complete config total then [endMarker config total] else []
  | (packet, text) :: reads =>
    if Complete config total then [endMarker config total]
    else
      let total := if text.isSome then total + 1 else total
      if total < config.numInsToIgnore then stream config total reads
      else packet :: stream config total reads

theorem stream_of_complete (h : Complete config total) :
    stream config total reads = [endMarker config total] := by
  cases reads with
  | nil => exact if_pos h
  | cons read reads => exact if_pos h

theorem stream_own (h : ¬ Complete config total) (packet : Packet)
    (reads : List (Packet × Option (List UInt8))) :
    stream config total ((packet, none) :: reads) =
      if total < config.numInsToIgnore then stream config total reads
      else packet :: stream config total reads := by
  rw [stream, if_neg h]
  rfl

theorem stream_asm (h : ¬ Complete config total) (packet : Packet) (text : List UInt8)
    (reads : List (Packet × Option (List UInt8))) :
    stream config total ((packet, some text) :: reads) =
      if total + 1 < config.numInsToIgnore then stream config (total + 1) reads
      else packet :: stream config (total + 1) reads := by
  rw [stream, if_neg h]
  rfl

/-- The packets enqueued so far and those to come are the whole stream, followed by `extra` more
end markers. -/
structure Progress (config : SimulationConfig) (whole : List Packet) (s : FilePacket)
    (reads : List (Packet × Option (List UInt8))) (extra : ℕ) : Prop where
  pool : s.asmPool.Sound bufferSize
  lines : s.inputLines.map parseLine = reads.map some
  packets : s.packets ++ stream config s.totalFetchedAssemblyPackets reads =
    whole ++ List.replicate extra (endMarker config s.totalFetchedAssemblyPackets)
  ended : extra = 0 ∨ Complete config s.totalFetchedAssemblyPackets

variable {whole : List Packet} {s t : FilePacket} {extra : ℕ}

/-- The end marker is enqueued. -/
theorem Progress.marker (h : Progress config whole s reads extra)
    (hcomplete : Complete config s.totalFetchedAssemblyPackets) :
    Progress config whole (s.enqueue (endMarker config s.totalFetchedAssemblyPackets)) reads
      (extra + 1) where
  pool := h.pool
  lines := h.lines
  packets := by
    have hpackets := h.packets
    simp only [stream_of_complete hcomplete] at hpackets
    simp only [enqueue_packets, enqueue_total, stream_of_complete hcomplete, hpackets,
      List.append_assoc, List.replicate_succ']
  ended := .inr hcomplete

/-- A line is read, and what is still to come is what it leaves of the stream. -/
theorem Progress.advance {read : Packet × Option (List UInt8)}
    (h : Progress config whole s (read :: reads) extra)
    (hcomplete : ¬ Complete config s.totalFetchedAssemblyPackets)
    (hpool : t.asmPool.Sound bufferSize) (hlines : t.inputLines.map parseLine = reads.map some)
    (hstream : t.packets ++ stream config t.totalFetchedAssemblyPackets reads =
      s.packets ++ stream config s.totalFetchedAssemblyPackets (read :: reads)) :
    Progress config whole t reads 0 where
  pool := hpool
  lines := hlines
  packets := by
    obtain rfl := h.ended.resolve_right hcomplete
    rw [hstream, h.packets, List.replicate_zero, List.replicate_zero]
  ended := .inl rfl

theorem countLine_eq_some {text : List UInt8} (h : s.countLine text = some t)
    (hpool : s.asmPool.Sound bufferSize) :
    t.asmPool.Sound bufferSize ∧ t.asmPool.size bufferSize = s.asmPool.size bufferSize + 1 ∧
      t.inputLines = s.inputLines ∧ t.packets = s.packets ∧
      t.totalFetchedAssemblyPackets = s.totalFetchedAssemblyPackets + 1 := by
  obtain ⟨asmPool, hq, rfl⟩ := Option.map_eq_some_iff.mp h
  obtain ⟨hsound, row, hcontents⟩ := hpool.enqueue (by decide) hq
  refine ⟨hsound, ?_, rfl, rfl, rfl⟩
  rw [← CircularQueue.length_contents, hcontents, List.length_append,
    CircularQueue.length_contents]
  rfl

theorem dequeueText_eq_some (h : s.dequeueText = some t) (hpool : s.asmPool.Sound bufferSize) :
    t.asmPool.Sound bufferSize ∧ t.asmPool.size bufferSize + 1 = s.asmPool.size bufferSize ∧
      t.inputLines = s.inputLines ∧ t.packets = s.packets ∧
      t.totalFetchedAssemblyPackets = s.totalFetchedAssemblyPackets := by
  obtain ⟨⟨row, asmPool⟩, hq, rfl⟩ := Option.map_eq_some_iff.mp h
  obtain ⟨hsound, hcontents⟩ := hpool.dequeue (by decide) hq
  refine ⟨hsound, ?_, rfl, rfl, rfl⟩
  rw [← CircularQueue.length_contents (q := s.asmPool), hcontents, List.length_cons,
    CircularQueue.length_contents]

/-- The next line is parsed to the next read. -/
theorem Progress.next_line (h : Progress config whole s reads extra) {inputLine : List UInt8}
    {rest : List (List UInt8)} (hlines : s.inputLines = inputLine :: rest) :
    ∃ read reads', reads = read :: reads' ∧ parseLine inputLine = some read ∧
      rest.map parseLine = reads'.map some := by
  have hmap := h.lines
  rw [hlines, List.map_cons] at hmap
  cases reads with
  | nil => simp at hmap
  | cons read reads' =>
    rw [List.map_cons, List.cons.injEq] at hmap
    exact ⟨read, reads', rfl, hmap.1, hmap.2⟩

/-- What a call does to the progress: a call that has room enqueues the end marker or reads a
line, unless the file is at its end. -/
def Advanced (config : SimulationConfig) (whole : List Packet) (room : Prop) (before : List Packet)
    (reads : List (Packet × Option (List UInt8))) (t : FilePacket) : Prop :=
  ∃ reads' extra, Progress config whole t reads' extra ∧ before <+: t.packets ∧
    reads'.length ≤ reads.length ∧
    (room → 0 < extra ∨ reads'.length < reads.length ∨
      reads' = [] ∧ ¬ Complete config t.totalFetchedAssemblyPackets)

/-- A line was read before. -/
theorem Advanced.of_line {room : Prop} {read : Packet × Option (List UInt8)}
    {before before' : List Packet} (h : Advanced config whole room before' reads t)
    (hbefore : before <+: before') : Advanced config whole True before (read :: reads) t := by
  obtain ⟨reads', extra, hprogress, hpackets, hlength, -⟩ := h
  refine ⟨reads', extra, hprogress, hbefore.trans hpackets, ?_, fun _ => .inr (.inl ?_)⟩ <;>
    rw [List.length_cons] <;> omega

theorem Progress.stay (h : Progress config whole s reads extra) {room : Prop} (hroom : ¬ room) :
    Advanced config whole room s.packets reads s :=
  ⟨reads, extra, h, List.prefix_refl _, le_refl _, fun hr => absurd hr hroom⟩

theorem Progress.close (h : Progress config whole s reads extra)
    (hcomplete : Complete config s.totalFetchedAssemblyPackets) (room : Prop) :
    Advanced config whole room s.packets reads
      (s.enqueue (endMarker config s.totalFetchedAssemblyPackets)) :=
  ⟨reads, extra + 1, h.marker hcomplete, List.prefix_append _ _, le_refl _,
    fun _ => .inl (Nat.succ_pos extra)⟩

/-- The loop keeps to the stream. -/
theorem Progress.fetchLines {maxSize i count : ℕ} {inputLines : List (List UInt8)}
    (h : Progress config whole s reads extra) (hlines : s.inputLines = inputLines)
    (ht : fetchLines config maxSize inputLines i s = some (t, count)) :
    Advanced config whole (i < maxSize) s.packets reads t := by
  induction inputLines generalizing s reads extra i with
  | nil =>
    rw [FilePacket.fetchLines] at ht
    split at ht
    case isTrue hroom =>
      cases ht
      exact h.stay (by omega)
    case isFalse hroom =>
      split at ht
      case isTrue hcomplete =>
        cases ht
        exact h.close hcomplete _
      case isFalse hcomplete =>
        cases ht
        have hreads : reads = [] := by
          have hmap := h.lines
          rw [hlines] at hmap
          exact List.map_eq_nil_iff.mp hmap.symm
        exact ⟨reads, extra, h, List.prefix_refl _, le_refl _,
          fun _ => .inr (.inr ⟨hreads, hcomplete⟩)⟩
  | cons inputLine rest ih =>
    rw [FilePacket.fetchLines] at ht
    split at ht
    case isTrue hroom =>
      cases ht
      exact h.stay (by omega)
    case isFalse hroom =>
      rw [show (i < maxSize) = True from eq_true (by omega)]
      split at ht
      case isTrue hcomplete =>
        cases ht
        exact h.close hcomplete _
      case isFalse hcomplete =>
        obtain ⟨⟨packet, text⟩, reads, rfl, hparse, hrest⟩ := h.next_line hlines
        simp only [hparse] at ht
        cases text with
        | none =>
          have hstream := stream_own hcomplete packet reads
          simp only at ht
          split at ht
          case isTrue hignored =>
            cases ht
            rw [if_pos hignored] at hstream
            have hnext : Progress config whole { s with inputLines := rest } reads 0 :=
              h.advance hcomplete h.pool hrest (by rw [hstream])
            exact (hnext.stay not_false).of_line (List.prefix_refl _)
          case isFalse hignored =>
            rw [if_neg hignored] at hstream
            have hnext : Progress config whole ({ s with inputLines := rest }.enqueue packet)
                reads 0 :=
              h.advance hcomplete h.pool hrest (by
                rw [hstream, enqueue_packets, enqueue_total, List.append_assoc,
                  List.singleton_append])
            exact (ih hnext rfl ht).of_line (List.prefix_append _ _)
        | some text =>
          have hstream := stream_asm hcomplete packet text reads
          simp only at ht
          cases hcount : countLine { s with inputLines := rest } text with
          | none =>
            rw [hcount] at ht
            cases ht
          | some u =>
            obtain ⟨hpool, -, hulines, hupackets, hutotal⟩ := countLine_eq_some hcount h.pool
            simp only [hcount] at ht
            simp only at hulines hupackets hutotal
            split at ht
            case isTrue hignored =>
              rw [← hutotal, if_pos hignored] at hstream
              obtain ⟨v, hv, heq⟩ := Option.map_eq_some_iff.mp ht
              cases heq
              obtain ⟨hpool', -, hvlines, hvpackets, hvtotal⟩ := dequeueText_eq_some hv hpool
              have hnext : Progress config whole t reads 0 :=
                h.advance hcomplete hpool' (by rw [hvlines, hulines, hrest])
                  (by rw [hvpackets, hupackets, hvtotal, hstream])
              have hsame : s.packets = t.packets := (hvpackets.trans hupackets).symm
              exact (hnext.stay not_false).of_line (hsame ▸ List.prefix_refl s.packets)
            case isFalse hignored =>
              rw [← hutotal, if_neg hignored] at hstream
              have hnext : Progress config whole (u.enqueue packet) reads 0 :=
                h.advance hcomplete hpool (by rw [← hrest, ← hulines]; rfl) (by
                  rw [hstream, enqueue_packets, enqueue_total, List.append_assoc,
                    List.singleton_append, hupackets])
              exact (ih hnext hulines ht).of_line (by
                rw [enqueue_packets, hupackets]
                exact List.prefix_append _ _)

end Stream

/-! ## The stream of a trace -/

namespace TraceInstruction

/-- What the lines of an instruction are parsed to. -/
def reads (instruction : TraceInstruction) : List (Packet × Option (List UInt8)) :=
  (instruction.asmPacket, some instruction.text) :: instruction.ownPackets.map (fun p => (p, none))

theorem lines_parse (instruction : TraceInstruction) :
    instruction.lines.map parseLine = instruction.reads.map some := by
  rw [lines, reads, List.map_cons, List.map_cons, instruction.asm_ok, instruction.own_ok,
    List.map_map]
  rfl

theorem asm_value (instruction : TraceInstruction) :
    instruction.asmPacket.value = Encoding.assembly :=
  (parseLine_value instruction.asm_ok).mp rfl

theorem own_not_assembly (instruction : TraceInstruction) {p : Packet}
    (hp : p ∈ instruction.ownPackets) : p.value ≠ Encoding.assembly := by
  have hmem : some (p, none) ∈ instruction.ownLines.map parseLine := by
    rw [instruction.own_ok]
    exact List.mem_map_of_mem hp
  obtain ⟨line, -, hline⟩ := List.mem_map.mp hmem
  intro hvalue
  exact absurd ((parseLine_value hline).mpr hvalue) (by simp)

theorem packets_not_marker (instruction : TraceInstruction) {p : Packet}
    (hp : p ∈ instruction.packets) : p.value ≠ Encoding.subsetSimComplete := by
  rcases List.mem_cons.mp hp with rfl | hp
  · rw [asm_value]
    decide
  · exact instruction.own_value p hp

theorem assemblyCount_packets (instruction : TraceInstruction) :
    assemblyCount instruction.packets = 1 := by
  have hown : instruction.ownPackets.countP
      (fun p => decide (p.value = Encoding.assembly)) = 0 :=
    List.countP_eq_zero.mpr (fun p hp => by simpa using instruction.own_not_assembly hp)
  rw [assemblyCount, packets, List.countP_cons, hown, instruction.asm_value]
  rfl

end TraceInstruction

theorem lines_parse_trace (trace : List TraceInstruction) :
    (trace.flatMap TraceInstruction.lines).map parseLine =
      (trace.flatMap TraceInstruction.reads).map some := by
  rw [List.map_flatMap, List.map_flatMap]
  exact List.flatMap_congr (fun instruction _ => instruction.lines_parse)

theorem assemblyCount_append (ps qs : List Packet) :
    assemblyCount (ps ++ qs) = assemblyCount ps + assemblyCount qs := List.countP_append

theorem assemblyCount_trace (trace : List TraceInstruction) :
    assemblyCount (trace.flatMap TraceInstruction.packets) = trace.length := by
  induction trace with
  | nil => rfl
  | cons instruction trace ih =>
    rw [List.flatMap_cons, assemblyCount_append, ih, instruction.assemblyCount_packets,
      List.length_cons, Nat.add_comm]

section Window

variable {k n : ℕ}

theorem complete_iff {total : ℕ} :
    Complete (subsetConfig k n) (total : ℤ) ↔ k + n ≤ total := by
  rw [Complete, subsetConfig]
  simp only [true_and]
  omega

theorem stream_owns {config : SimulationConfig} {total : ℤ} (h : ¬ Complete config total)
    (ps : List Packet) (reads : List (Packet × Option (List UInt8))) :
    stream config total (ps.map (fun p => (p, none)) ++ reads) =
      (if total < config.numInsToIgnore then [] else ps) ++ stream config total reads := by
  induction ps with
  | nil => rw [ite_self]; rfl
  | cons p ps ih =>
    rw [List.map_cons, List.cons_append, stream_own h, ih]
    split <;> rfl

/-- All packets of the instructions from position `first` to `last`, and the assembly packet of
the one at `last`. -/
def cutAt (first last : ℕ) (trace : List TraceInstruction) : List Packet :=
  ((trace.take last).drop first).flatMap TraceInstruction.packets ++
    ((trace.drop last).head?.map TraceInstruction.asmPacket).toList

theorem stream_trace (hn : 1 ≤ n) :
    ∀ (trace : List TraceInstruction) (total : ℕ), total < k + n → k + n ≤ total + trace.length →
      stream (subsetConfig k n) total (trace.flatMap TraceInstruction.reads) =
        cutAt (k - total - 1) (k + n - total - 1) trace ++
          [endMarker (subsetConfig k n) (k + n : ℕ)] := by
  intro trace
  induction trace with
  | nil =>
    intro total hlt hle
    rw [List.length_nil] at hle
    omega
  | cons instruction trace ih =>
    intro total hlt hle
    have hopen : ¬ Complete (subsetConfig k n) (total : ℤ) := by rw [complete_iff]; omega
    have hcast : (total : ℤ) + 1 = (total + 1 : ℕ) := rfl
    rw [List.length_cons] at hle
    rw [List.flatMap_cons, TraceInstruction.reads, List.cons_append, stream_asm hopen, hcast]
    by_cases hlast : total + 1 = k + n
    · -- the loop stops behind the assembly line
      have hclosed : Complete (subsetConfig k n) ((total + 1 : ℕ) : ℤ) :=
        complete_iff.mpr (by omega)
      have hdelivered : ¬ ((total + 1 : ℕ) : ℤ) < (subsetConfig k n).numInsToIgnore := by
        show ¬ ((total + 1 : ℕ) : ℤ) < (k : ℤ)
        omega
      rw [stream_of_complete hclosed, if_neg hdelivered, show k + n - total - 1 = 0 by omega, hlast,
        cutAt, List.take_zero, List.drop_nil]
      rfl
    · have hopen' : ¬ Complete (subsetConfig k n) ((total + 1 : ℕ) : ℤ) := by
        rw [complete_iff]
        omega
      rw [stream_owns hopen', ih (total + 1) (by omega) (by omega),
        show k + n - total - 1 = (k + n - (total + 1) - 1) + 1 by omega]
      by_cases hignored : total + 1 < k
      · have hcond : ((total + 1 : ℕ) : ℤ) < (subsetConfig k n).numInsToIgnore := by
          show ((total + 1 : ℕ) : ℤ) < (k : ℤ)
          omega
        rw [if_pos hcond, if_pos hcond, show k - total - 1 = (k - (total + 1) - 1) + 1 by omega]
        rfl
      · have hcond : ¬ ((total + 1 : ℕ) : ℤ) < (subsetConfig k n).numInsToIgnore := by
          show ¬ ((total + 1 : ℕ) : ℤ) < (k : ℤ)
          omega
        rw [if_neg hcond, if_neg hcond, show k - total - 1 = 0 by omega,
          show k - (total + 1) - 1 = 0 by omega]
        simp [cutAt, TraceInstruction.packets]

end Window

/-! ## Runs -/

section Runs

variable {trace : List TraceInstruction} {k n : ℕ} {actions : List Action} {s t : FilePacket}
  {whole : List Packet} {reads : List (Packet × Option (List UInt8))} {extra : ℕ}

/-- The stream of a trace from its first line on. -/
def wholeStream (trace : List TraceInstruction) (k n : ℕ) : List Packet :=
  stream (subsetConfig k n) 0 (trace.flatMap TraceInstruction.reads)

theorem Progress.openFile :
    Progress (subsetConfig k n) (wholeStream trace k n)
      (openFile (trace.flatMap TraceInstruction.lines))
      (trace.flatMap TraceInstruction.reads) 0 where
  pool := CircularQueue.sound_empty _ _
  lines := lines_parse_trace trace
  packets := (List.append_nil _).symm
  ended := .inl rfl

theorem Progress.dequeueText {config : SimulationConfig} (h : Progress config whole s reads extra)
    (ht : s.dequeueText = some t) : Progress config whole t reads extra := by
  obtain ⟨hpool, -, hlines, hpackets, htotal⟩ := dequeueText_eq_some ht h.pool
  exact ⟨hpool, by rw [hlines, h.lines], by rw [hpackets, htotal, h.packets],
    by rw [htotal]; exact h.ended⟩

/-- Once a second end marker would follow, or nothing would, the end marker is there. -/
theorem Progress.marker_mem {config : SimulationConfig} (h : Progress config whole s reads extra)
    (hwhole : ∃ p ∈ whole, p.value = Encoding.subsetSimComplete)
    (hend : 0 < extra ∨ reads = [] ∧ ¬ Complete config s.totalFetchedAssemblyPackets) :
    ∃ p ∈ s.packets, p.value = Encoding.subsetSimComplete := by
  obtain ⟨p, hp, hvalue⟩ := hwhole
  refine ⟨p, ?_, hvalue⟩
  have hpackets := h.packets
  rcases hend with hextra | ⟨rfl, hopen⟩
  · have hcomplete := h.ended.resolve_left (by omega)
    obtain ⟨extra, rfl⟩ := Nat.exists_eq_succ_of_ne_zero (by omega : extra ≠ 0)
    rw [stream_of_complete hcomplete, List.replicate_succ', ← List.append_assoc] at hpackets
    rw [List.append_inj_left' hpackets rfl]
    exact List.mem_append_left _ hp
  · rw [stream, if_neg hopen, List.append_nil] at hpackets
    rw [hpackets]
    exact List.mem_append_left _ hp

/-- A run keeps to the stream, and every call with room reads a line until the end marker is
there. -/
theorem progress_of_run (hwhole : ∃ p ∈ wholeStream trace k n, p.value = Encoding.subsetSimComplete)
    (run : TraceRun trace k n actions s) :
    ∃ reads extra, Progress (subsetConfig k n) (wholeStream trace k n) s reads extra ∧
      ((∃ p ∈ s.packets, p.value = Encoding.subsetSimComplete) ∨
        reads.length + callsWithRoom actions ≤
          (trace.flatMap TraceInstruction.lines).length) := by
  induction run with
  | nil =>
    refine ⟨_, 0, Progress.openFile, .inr ?_⟩
    have hlength := congrArg List.length (lines_parse_trace trace)
    rw [List.length_map, List.length_map] at hlength
    rw [hlength]
    exact le_refl _
  | @snoc labels u v a prior hstep ih =>
    obtain ⟨reads, extra, h, hrank⟩ := ih
    cases a with
    | dequeueText =>
      have hcalls : callsWithRoom (labels ++ [.dequeueText]) = callsWithRoom labels := by
        rw [callsWithRoom, List.countP_append]
        rfl
      have hpackets := (dequeueText_eq_some hstep h.pool).2.2.2.1
      rw [hcalls, hpackets]
      exact ⟨reads, extra, h.dequeueText hstep, hrank⟩
    | fetchManyPackets maxSize =>
      have hcalls : callsWithRoom (labels ++ [.fetchManyPackets maxSize]) =
          callsWithRoom labels + if 0 < maxSize then 1 else 0 := by
        simp [callsWithRoom, List.countP_append, List.countP_singleton]
      obtain ⟨⟨w, count⟩, hfetch, rfl⟩ := Option.map_eq_some_iff.mp hstep
      obtain ⟨reads', extra', h', hmore, hlength, hroom⟩ := h.fetchLines rfl hfetch
      refine ⟨reads', extra', h', ?_⟩
      rcases hrank with ⟨p, hp, hvalue⟩ | hrank
      · exact .inl ⟨p, hmore.subset hp, hvalue⟩
      · rw [hcalls]
        split
        case isTrue hpos =>
          rcases hroom hpos with hextra | hless | hend
          · exact .inl (h'.marker_mem hwhole (.inl hextra))
          · exact .inr (by omega)
          · exact .inl (h'.marker_mem hwhole (.inr hend))
        case isFalse hpos => exact .inr (by omega)

variable {config : SimulationConfig}

theorem fetchLines_full {maxSize i : ℕ} (h : maxSize ≤ i) (inputLines : List (List UInt8)) :
    fetchLines config maxSize inputLines i s = some (s, maxSize) := by
  cases inputLines <;> rw [FilePacket.fetchLines, if_pos h]

theorem countLine_isSome (hpool : s.asmPool.Sound bufferSize)
    (hempty : s.asmPool.size bufferSize = 0) (text : List UInt8) :
    ∃ t, s.countLine text = some t := by
  have hsome : (s.asmPool.enqueue bufferSize
      (copyRow (fun i => text.getD i 0) text.length 1)).isSome :=
    hpool.enqueue_isSome (by rw [hempty]; decide)
  obtain ⟨asmPool, hq⟩ := Option.isSome_iff_exists.mp hsome
  exact ⟨_, Option.map_eq_some_iff.mpr ⟨asmPool, hq, rfl⟩⟩

theorem dequeueText_isSome (hpool : s.asmPool.Sound bufferSize)
    (hpos : 0 < s.asmPool.size bufferSize) : ∃ t, s.dequeueText = some t := by
  obtain ⟨r, hq⟩ := Option.isSome_iff_exists.mp (hpool.dequeue_isSome (by decide) hpos)
  exact ⟨_, Option.map_eq_some_iff.mpr ⟨r, hq, rfl⟩⟩

/-- With an empty pool a call for one packet succeeds and leaves at most one text. -/
theorem Progress.fetch_one (h : Progress config whole s reads extra)
    (hempty : s.asmPool.size bufferSize = 0) :
    ∃ t, next config s (.fetchManyPackets 1) = some t ∧ t.asmPool.size bufferSize ≤ 1 := by
  have hroom : ¬ 1 ≤ 0 := by omega
  rw [next, FilePacket.fetchManyPackets]
  cases hlines : s.inputLines with
  | nil =>
    rw [FilePacket.fetchLines, if_neg hroom]
    split
    · exact ⟨_, rfl, by rw [enqueue_pool, hempty]; omega⟩
    · exact ⟨s, rfl, by omega⟩
  | cons inputLine rest =>
    rw [FilePacket.fetchLines, if_neg hroom]
    split
    · exact ⟨_, rfl, by rw [enqueue_pool, hempty]; omega⟩
    · obtain ⟨⟨packet, text⟩, reads, rfl, hparse, -⟩ := h.next_line hlines
      simp only [hparse]
      cases text with
      | none =>
        simp only
        split
        · exact ⟨_, rfl, by simp only [hempty]; omega⟩
        · rw [fetchLines_full (by omega)]
          exact ⟨_, rfl, by rw [enqueue_pool]; simp only [hempty]; omega⟩
      | some text =>
        obtain ⟨u, hu⟩ := countLine_isSome (s := { s with inputLines := rest }) h.pool hempty text
        obtain ⟨hpool, hsize, -⟩ := countLine_eq_some hu h.pool
        simp only [hempty] at hsize
        simp only [hu]
        split
        · obtain ⟨v, hv⟩ := dequeueText_isSome hpool (by omega)
          obtain ⟨-, hvsize, -⟩ := dequeueText_eq_some hv hpool
          rw [hv]
          exact ⟨v, rfl, by omega⟩
        · rw [fetchLines_full (by omega)]
          exact ⟨_, rfl, by rw [enqueue_pool]; omega⟩

/-- Any number of calls with room is part of a run. -/
theorem exists_calls (hwhole : ∃ p ∈ wholeStream trace k n, p.value = Encoding.subsetSimComplete)
    (calls : ℕ) :
    ∃ actions s, TraceRun trace k n actions s ∧ callsWithRoom actions = calls ∧
      s.asmPool.size bufferSize = 0 := by
  induction calls with
  | zero => exact ⟨[], _, .nil, rfl, rfl⟩
  | succ calls ih =>
    obtain ⟨actions, s, run, hcalls, hempty⟩ := ih
    obtain ⟨reads, extra, h, -⟩ := progress_of_run hwhole run
    obtain ⟨t, ht, hsize⟩ := h.fetch_one hempty
    have run' : TraceRun trace k n (actions ++ [.fetchManyPackets 1]) t := .snoc run ht
    have hcalls' : callsWithRoom (actions ++ [.fetchManyPackets 1]) = calls + 1 := by
      rw [callsWithRoom, List.countP_append, ← callsWithRoom, hcalls]
      rfl
    obtain ⟨-, -, ⟨hpool, -⟩, -⟩ := progress_of_run hwhole run'
    rcases Nat.eq_zero_or_pos (t.asmPool.size bufferSize) with hzero | hpos
    · exact ⟨_, t, run', hcalls', hzero⟩
    · -- the translator takes the text of the instruction
      obtain ⟨u, hu⟩ := dequeueText_isSome hpool hpos
      obtain ⟨-, husize, -⟩ := dequeueText_eq_some hu hpool
      have run'' : TraceRun trace k n (actions ++ [.fetchManyPackets 1] ++ [.dequeueText]) u :=
        .snoc run' hu
      refine ⟨_, u, run'', ?_, by omega⟩
      rw [callsWithRoom, List.countP_append, ← callsWithRoom, hcalls']
      rfl

end Runs

/-! ## The window -/

section Window

variable {trace : List TraceInstruction} {k n : ℕ} {actions : List Action} {s : FilePacket}

theorem wholeStream_eq (hn : 1 ≤ n) (hlength : k + n < trace.length) :
    wholeStream trace k n = cutAt (k - 1) (k + n - 1) trace ++
      [endMarker (subsetConfig k n) (k + n : ℕ)] :=
  stream_trace hn trace 0 (by omega) (by omega)

theorem endMarker_mem (hn : 1 ≤ n) (hlength : k + n < trace.length) :
    ∃ p ∈ wholeStream trace k n, p.value = Encoding.subsetSimComplete := by
  rw [wholeStream_eq hn hlength]
  exact ⟨_, List.mem_append_right _ (List.mem_singleton_self _), rfl⟩

theorem cutAt_not_marker {first last : ℕ} {p : Packet} (hp : p ∈ cutAt first last trace) :
    p.value ≠ Encoding.subsetSimComplete := by
  rcases List.mem_append.mp hp with hp | hp
  · obtain ⟨instruction, -, hp⟩ := List.mem_flatMap.mp hp
    exact instruction.packets_not_marker hp
  · rw [Option.mem_toList, Option.map_eq_some_iff] at hp
    obtain ⟨instruction, -, rfl⟩ := hp
    exact instruction.packets_not_marker List.mem_cons_self

/-- Two lists that begin with stretches of packets that are no end markers, and then have one. -/
theorem eq_of_first {ps qs : List Packet} {p q : Packet} {behind behind' : List Packet}
    (hps : ∀ r ∈ ps, r.value ≠ Encoding.subsetSimComplete)
    (hqs : ∀ r ∈ qs, r.value ≠ Encoding.subsetSimComplete)
    (hp : p.value = Encoding.subsetSimComplete) (hq : q.value = Encoding.subsetSimComplete)
    (h : ps ++ p :: behind = qs ++ q :: behind') : ps = qs ∧ p = q := by
  induction ps generalizing qs with
  | nil =>
    cases qs with
    | nil => exact ⟨rfl, (List.cons.inj h).1⟩
    | cons r qs =>
      have hr : p = r := (List.cons.inj h).1
      exact absurd (hr ▸ hp) (hqs r List.mem_cons_self)
  | cons r ps ih =>
    cases qs with
    | nil =>
      have hr : r = q := (List.cons.inj h).1
      exact absurd (hr ▸ hq) (hps r List.mem_cons_self)
    | cons r' qs =>
      obtain ⟨rfl, hrest⟩ := List.cons.inj h
      obtain ⟨rfl, hpq⟩ := ih (fun a ha => hps a (List.mem_cons_of_mem r ha))
        (fun a ha => hqs a (List.mem_cons_of_mem r ha)) hrest
      exact ⟨rfl, hpq⟩

/-- The first end marker of a run stands behind the packets that the loop cuts off. -/
theorem before_marker (hn : 1 ≤ n) (hlength : k + n < trace.length)
    (run : TraceRun trace k n actions s) {before behind : List Packet} {marker : Packet}
    (hs : s.packets = before ++ marker :: behind)
    (hmarker : marker.value = Encoding.subsetSimComplete)
    (hbefore : ∀ p ∈ before, p.value ≠ Encoding.subsetSimComplete) :
    before = cutAt (k - 1) (k + n - 1) trace ∧
      marker = endMarker (subsetConfig k n) (k + n : ℕ) := by
  obtain ⟨reads, extra, h, -⟩ := progress_of_run (endMarker_mem hn hlength) run
  have hpackets := h.packets
  rw [hs, wholeStream_eq hn hlength, List.append_assoc, List.append_assoc, List.cons_append,
    List.singleton_append] at hpackets
  exact eq_of_first hbefore (fun p hp => cutAt_not_marker hp) hmarker rfl hpackets

/-- The instruction at position `n`, counted from one, has no memory or branch packet. -/
def BareAt (trace : List TraceInstruction) (n : ℕ) : Prop :=
  ∀ instruction ∈ (trace.drop (n - 1)).head?, instruction.ownPackets = []

theorem delivers (hn : 1 ≤ n) (hlength : k + n < trace.length) : Delivers trace k n := by
  intro actions s run hcalls
  obtain ⟨reads, extra, -, hmarker | hrank⟩ := progress_of_run (endMarker_mem hn hlength) run
  · exact hmarker
  · omega

theorem exists_first {packets : List Packet}
    (h : ∃ p ∈ packets, p.value = Encoding.subsetSimComplete) :
    ∃ before marker behind, packets = before ++ marker :: behind ∧
      marker.value = Encoding.subsetSimComplete ∧
      ∀ p ∈ before, p.value ≠ Encoding.subsetSimComplete := by
  have hsome : (packets.find? (fun p => decide (p.value = Encoding.subsetSimComplete))).isSome :=
    List.find?_isSome.mpr (by simpa using h)
  obtain ⟨marker, hfind⟩ := Option.isSome_iff_exists.mp hsome
  obtain ⟨hmarker, before, behind, hsplit, hbefore⟩ := List.find?_eq_some_iff_append.mp hfind
  exact ⟨before, marker, behind, hsplit, by simpa using hmarker,
    fun p hp => by simpa using hbefore p hp⟩

theorem exists_drop (trace : List TraceInstruction) {last : ℕ} (hlast : last < trace.length) :
    ∃ instruction rest, trace.drop last = instruction :: rest := by
  refine List.exists_cons_of_ne_nil ?_
  rw [Ne, List.drop_eq_nil_iff]
  omega

theorem assemblyCount_cutAt {first last : ℕ} (hle : first ≤ last) (hlast : last < trace.length) :
    assemblyCount (cutAt first last trace) = last - first + 1 := by
  obtain ⟨instruction, rest, hdrop⟩ := exists_drop trace hlast
  have hone : assemblyCount [instruction.asmPacket] = 1 := by
    rw [assemblyCount, List.countP_singleton, instruction.asm_value]
    rfl
  have hlength : ((trace.take last).drop first).length = last - first := by
    rw [List.length_drop, List.length_take]
    omega
  rw [cutAt, hdrop, assemblyCount_append, assemblyCount_trace, hlength]
  exact congrArg (last - first + ·) hone

/-- Without ignored instructions only the end of the last one is missing. -/
theorem cutAt_eq_iff (hn : 1 ≤ n) (hlength : n < trace.length) :
    cutAt 0 (n - 1) trace = (trace.take n).flatMap TraceInstruction.packets ↔ BareAt trace n := by
  obtain ⟨instruction, rest, hdrop⟩ := exists_drop trace (show n - 1 < trace.length by omega)
  have htake : trace.take n = trace.take (n - 1) ++ [instruction] := by
    rw [← Nat.sub_add_cancel hn, List.take_add, Nat.add_sub_cancel, hdrop]
    rfl
  rw [cutAt, BareAt, htake, hdrop, List.flatMap_append, List.drop_zero, List.append_right_inj,
    List.flatMap_singleton, TraceInstruction.packets]
  simp [eq_comm]

/-- The window is delivered exactly if no instruction is ignored and the last one of the subset
has no packets behind its assembly packet. -/
theorem windowed_iff (hn : 1 ≤ n) (hlength : k + n < trace.length) :
    Delivers trace k n ∧ (Windowed trace k n ↔ k = 0 ∧ BareAt trace n) := by
  have hdelivers := delivers hn hlength
  have hip : (endMarker (subsetConfig k n) (k + n : ℕ)).ip = n := by
    show ((k + n : ℕ) : ℤ) - (k : ℤ) = n
    omega
  refine ⟨hdelivers, ?_⟩
  constructor
  · intro h
    obtain ⟨actions, s, run, hcalls, -⟩ := exists_calls (endMarker_mem hn hlength)
      ((trace.flatMap TraceInstruction.lines).length + 1)
    obtain ⟨before, marker, behind, hs, hmarker, hbefore⟩ :=
      exists_first (hdelivers actions s run (by omega))
    obtain ⟨hwindow, hcount⟩ := h actions s run before marker behind hs hmarker hbefore
    obtain ⟨rfl, rfl⟩ := before_marker hn hlength run hs hmarker hbefore
    rw [hip, assemblyCount_cutAt (by omega) (by omega)] at hcount
    obtain rfl : k = 0 := by omega
    rw [Nat.zero_add, List.drop_zero, Nat.zero_sub] at hwindow
    exact ⟨rfl, (cutAt_eq_iff hn (by omega)).mp hwindow⟩
  · rintro ⟨rfl, hbare⟩
    intro actions s run before marker behind hs hmarker hbefore
    obtain ⟨rfl, rfl⟩ := before_marker hn hlength run hs hmarker hbefore
    rw [hip, assemblyCount_cutAt (by omega) (by omega), Nat.zero_add, List.drop_zero, Nat.zero_sub]
    exact ⟨(cutAt_eq_iff hn (by omega)).mpr hbare, by omega⟩

/-- `1 27 a`, an instruction without memory and branch packets. -/
def bareInstruction : TraceInstruction where
  asmLine := [49, 32, 50, 55, 32, 97]
  ownLines := []
  asmPacket := ⟨1, 27, -1⟩
  text := [32, 97]
  ownPackets := []
  asm_ok := by decide
  own_ok := rfl
  own_value := by simp

/-- `1 27 a` and `1 2 3`, an instruction with a memory packet. -/
def loadInstruction : TraceInstruction where
  asmLine := [49, 32, 50, 55, 32, 97]
  ownLines := [[49, 32, 50, 32, 51]]
  asmPacket := ⟨1, 27, -1⟩
  text := [32, 97]
  ownPackets := [⟨1, 2, 3⟩]
  asm_ok := by decide
  own_ok := by decide
  own_value := by decide

theorem windowed_bare :
    Delivers [bareInstruction, loadInstruction] 0 1 ∧
      Windowed [bareInstruction, loadInstruction] 0 1 := by
  have hlength : 0 + 1 < [bareInstruction, loadInstruction].length := by decide
  have h := windowed_iff (le_refl 1) hlength
  exact ⟨h.1, h.2.mpr ⟨rfl, by simp [BareAt, bareInstruction]⟩⟩

/-- One ignored instruction is delivered, and the subset ends before its memory packet. -/
theorem not_windowed_load :
    ¬ Windowed [loadInstruction, loadInstruction, loadInstruction] 1 1 := by
  intro h
  have hfetch : (next (subsetConfig 1 1)
      (openFile ([loadInstruction, loadInstruction, loadInstruction].flatMap
        TraceInstruction.lines)) (.fetchManyPackets 10)).map FilePacket.packets =
      some ([⟨1, 27, -1⟩, ⟨1, 2, 3⟩, ⟨1, 27, -1⟩] ++ ⟨1, -2, -1⟩ :: []) := by decide
  obtain ⟨s, hs, hpackets⟩ := Option.map_eq_some_iff.mp hfetch
  have hwindow := (h [.fetchManyPackets 10] s (Run.single hs) _ _ _ hpackets rfl (by decide)).1
  exact absurd hwindow (by decide)

end Window

end Tejas.SubsetTrace
