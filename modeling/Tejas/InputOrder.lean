import Tejas.PacketReader
import Mathlib.Data.List.Induction
import Mathlib.Data.List.Infix

/-!
# The order of the input stream

The packets of a thread determine its instructions: the packets of one instruction
are collected until the next instruction begins. Everything that enters the
pipeline buffer is caused by a packet, a micro-operation by the first packet of its
instruction. An instruction is translated when the next one begins, so a marker that
is enqueued meanwhile overtakes it, and the last one is not translated at all.
-/

namespace Tejas
open LabelledRuns

namespace PacketReader

/-- The packets with their positions. -/
def positioned (packets : List Packet) : List ReadPacket :=
  packets.zipIdx.map (fun x => ⟨x.1, x.2⟩)

/-- The instructions that are complete, and the packets of the one under way. -/
structure Collected where
  closed : List (List ReadPacket)
  current : List ReadPacket
  deriving DecidableEq, Repr

instance : DecidablePred IsControl := fun _ => inferInstanceAs (Decidable (_ ∨ _ ∨ _))

/-- A packet begins the first instruction, the next one, or belongs to the current one. -/
def Collected.add (c : Collected) (p : ReadPacket) : Collected :=
  if IsControl p.packet then c
  else if c.current = [] ∨ ClosesInstruction p.packet = false then
    { c with current := addToPacketList c.current p }
  else ⟨c.closed ++ [c.current], [p]⟩

def collected (packets : List Packet) : Collected :=
  (positioned packets).foldl Collected.add ⟨[], []⟩

/-- The instructions of a list of packets. -/
def instructions (packets : List Packet) : List (List ReadPacket) :=
  (collected packets).closed ++ [(collected packets).current]

/-- `THREADCOMPLETE` is the last packet of a thread. -/
def EndsOnce (packets : List Packet) : Prop :=
  ∀ p ∈ packets.dropLast, p.value ≠ Encoding.threadComplete

/-- What has entered the pipeline buffer did so in the order of the causing packets. -/
def InOrder (s : PacketReader) : Prop := s.enqueued.Pairwise (fun a b => a.cause ≤ b.cause)

/-- When the final marker enters the pipeline buffer, the micro-operations of every
instruction that precedes `THREADCOMPLETE` have entered it, next to each other. -/
def CompleteBeforeMarker (translator : Translator) (s : PacketReader) : Prop :=
  ∀ before marker after, s.enqueued = before ++ marker :: after →
    marker.op.operationType = .inValid →
    ∀ packets ∈ instructions (s.packetsRead.take marker.cause), fuse translator packets <:+: before

/-- A micro-operation of the instruction under way would be overtaken: something has
been enqueued for a packet that came after the first packet of the instruction. -/
def Overtaken (s : PacketReader) : Prop :=
  ∃ first ∈ s.packetList.head?, ∃ m ∈ s.enqueued, first.position < m.cause

/-- No micro-operation comes from an instruction that a marker has overtaken or that is
still being collected when the thread ends. -/
def Untroubled (translator : Translator) (s : PacketReader) : Action → Prop
  | .readPacket _ => ∀ p ∈ s.fromEmulator.head?,
      (p.value = Encoding.threadComplete → fuse translator s.packetList = []) ∧
      (¬ IsControl p → ClosesInstruction p = true → s.Overtaken →
        fuse translator s.packetList = [])
  | _ => True

variable {translator : Translator} {s t u : PacketReader} {a : Action} {p : ReadPacket}
  {ret : Bool} {labels : List Action} {packets rest : List Packet}

theorem positioned_append (packets : List Packet) (p : Packet) :
    positioned (packets ++ [p]) = positioned packets ++ [⟨p, packets.length⟩] := by
  simp [positioned, List.zipIdx_append]

theorem collected_append (packets : List Packet) (p : Packet) :
    collected (packets ++ [p]) = (collected packets).add ⟨p, packets.length⟩ := by
  rw [collected, positioned_append, List.foldl_append]
  rfl

theorem mem_addToPacketList {l : List ReadPacket} {p q : ReadPacket}
    (h : q ∈ addToPacketList l p) : q ∈ l ∨ q = p := by
  unfold addToPacketList at h
  split at h
  · exact Or.inl h
  · simpa using h

/-- The packets of the instruction under way have been read. -/
theorem position_lt_of_mem_current {q : ReadPacket} (h : q ∈ (collected packets).current) :
    q.position < packets.length := by
  induction packets using List.reverseRecOn with
  | nil => cases h
  | append_singleton packets p ih =>
    rw [collected_append] at h
    rw [List.length_append, List.length_singleton]
    unfold Collected.add at h
    split at h
    · have hlt := ih h
      omega
    · split at h
      · rcases mem_addToPacketList h with hmem | rfl
        · have hlt := ih hmem
          omega
        · exact Nat.lt_succ_self _
      · rw [List.mem_singleton.mp h]
        exact Nat.lt_succ_self _

theorem EndsOnce.tail {p : Packet} (h : EndsOnce (p :: rest)) : EndsOnce rest := by
  intro q hq
  apply h
  cases rest with
  | nil => cases hq
  | cons r rest => exact List.mem_cons_of_mem _ hq

theorem EndsOnce.rest_eq_nil {p : Packet} (h : EndsOnce (p :: rest))
    (hvalue : p.value = Encoding.threadComplete) : rest = [] := by
  cases rest with
  | nil => rfl
  | cons r rest => exact absurd hvalue (h p List.mem_cons_self)

/-- What a state with an orderly history satisfies. -/
structure Orderly (translator : Translator) (s : PacketReader) : Prop where
  endsOnce : EndsOnce s.fromEmulator
  reading : s.reading = true → s.outstandingMicroOps = [] ∧ s.allOver = false
  inOrder : (s.enqueued ++ s.outstandingMicroOps).Pairwise (fun a b => a.cause ≤ b.cause)
  cause_lt : ∀ m ∈ s.enqueued ++ s.outstandingMicroOps, m.cause < s.packetsRead.length
  no_marker : ∀ m ∈ s.outstandingMicroOps, m.op.operationType ≠ .inValid
  complete : s.CompleteBeforeMarker translator
  packetList : s.fromEmulator ≠ [] → s.allOver = false →
    s.packetList = (collected s.packetsRead).current
  isFirstPacket : s.fromEmulator ≠ [] → s.allOver = false →
    (s.isFirstPacket = true ↔ (collected s.packetsRead).current = [])
  closed : s.fromEmulator ≠ [] → s.allOver = false →
    ∀ packets ∈ (collected s.packetsRead).closed,
      fuse translator packets <:+: s.enqueued ++ s.outstandingMicroOps

theorem orderly_start {stream : List Packet} (h : EndsOnce stream) :
    Orderly translator (start stream) where
  endsOnce := h
  reading := by
    intro hreading
    cases hreading
  inOrder := List.Pairwise.nil
  cause_lt := by
    intro m hm
    cases hm
  no_marker := by
    intro m hm
    cases hm
  complete := by
    intro before marker after heq
    simp [start] at heq
  packetList := fun _ _ => rfl
  isFirstPacket := fun _ _ => ⟨fun _ => rfl, fun _ => rfl⟩
  closed := by
    intro _ _ packets hp
    cases hp

/-- More micro-operations and sync markers leave the final markers as they are. -/
theorem CompleteBeforeMarker.append {extra : List CausedOp}
    (h : s.CompleteBeforeMarker translator) (more : List Packet)
    (hcause : ∀ m ∈ s.enqueued, m.cause ≤ s.packetsRead.length)
    (hextra : ∀ m ∈ extra, m.op.operationType ≠ .inValid)
    (henqueued : t.enqueued = s.enqueued ++ extra)
    (hread : t.packetsRead = s.packetsRead ++ more) : t.CompleteBeforeMarker translator := by
  intro before marker after heq hmarker
  rw [henqueued] at heq
  obtain ⟨tail, hsplit⟩ : ∃ tail, s.enqueued = before ++ marker :: tail := by
    rcases List.append_eq_append_iff.mp heq with ⟨middle, hbefore, hrest⟩ | ⟨middle, hs, hrest⟩
    · have hmem : marker ∈ extra := by
        rw [hrest]
        simp
      exact absurd hmarker (hextra marker hmem)
    · cases middle with
      | nil =>
        have hmem : marker ∈ extra := by
          rw [← List.nil_append extra, ← hrest]
          exact List.mem_cons_self
        exact absurd hmarker (hextra marker hmem)
      | cons m tail =>
        obtain ⟨rfl, -⟩ := List.cons.inj hrest
        exact ⟨tail, hs⟩
  have hle : marker.cause ≤ s.packetsRead.length := hcause marker (by rw [hsplit]; simp)
  rw [hread, List.take_append_of_le_length hle]
  exact h before marker tail hsplit hmarker

/-- A packet that is no `THREADCOMPLETE` adds micro-operations of one cause, which is
no later than the packet and no earlier than what has been enqueued. -/
theorem Orderly.read {q : Packet} (h : Orderly translator s) (extra now : List CausedOp)
    (hreading : s.reading = true) (hstream : s.fromEmulator = q :: rest)
    (hfrom : t.fromEmulator = rest) (hread : t.packetsRead = s.packetsRead ++ [q])
    (hout : t.reading = true → t.outstandingMicroOps = [] ∧ t.allOver = false)
    (henqueued : t.enqueued = s.enqueued ++ now)
    (hall : t.enqueued ++ t.outstandingMicroOps = s.enqueued ++ extra)
    (hmarker : ∀ m ∈ extra, m.op.operationType ≠ .inValid)
    (hbelow : ∀ m ∈ extra, m.cause ≤ s.packetsRead.length)
    (habove : ∀ n ∈ s.enqueued, ∀ m ∈ extra, n.cause ≤ m.cause)
    (hsame : extra.Pairwise (fun a b => a.cause ≤ b.cause))
    (hpackets : t.allOver = false →
      t.packetList = ((collected s.packetsRead).add ⟨q, s.packetsRead.length⟩).current)
    (hfirst : t.allOver = false → (t.isFirstPacket = true ↔
      ((collected s.packetsRead).add ⟨q, s.packetsRead.length⟩).current = []))
    (hclosed : t.allOver = false → ∀ packets ∈
      ((collected s.packetsRead).add ⟨q, s.packetsRead.length⟩).closed,
        fuse translator packets <:+: s.enqueued ++ extra) : Orderly translator t := by
  obtain ⟨hnone, hover⟩ := h.reading hreading
  have hcause : ∀ m ∈ s.enqueued, m.cause < s.packetsRead.length :=
    fun m hm => h.cause_lt m (List.mem_append_left _ hm)
  have hlist : now ++ t.outstandingMicroOps = extra := by
    rw [henqueued, List.append_assoc] at hall
    exact List.append_cancel_left hall
  have hcollected : collected t.packetsRead =
      (collected s.packetsRead).add ⟨q, s.packetsRead.length⟩ := by
    rw [hread, collected_append]
  have hends := h.endsOnce
  rw [hstream] at hends
  refine ⟨?_, hout, ?_, ?_, ?_, ?_, ?_, ?_, ?_⟩
  · rw [hfrom]
    exact hends.tail
  · rw [hall]
    have hold := h.inOrder
    rw [hnone, List.append_nil] at hold
    exact List.pairwise_append.mpr ⟨hold, hsame, habove⟩
  · intro m hm
    rw [hall] at hm
    rw [hread, List.length_append, List.length_singleton]
    rcases List.mem_append.mp hm with hm | hm
    · have hlt := hcause m hm
      omega
    · have hle := hbelow m hm
      omega
  · intro m hm
    apply hmarker
    rw [← hlist]
    exact List.mem_append_right _ hm
  · refine h.complete.append _ (fun m hm => (hcause m hm).le) ?_ henqueued hread
    intro m hm
    apply hmarker
    rw [← hlist]
    exact List.mem_append_left _ hm
  · intro _ hallOver
    rw [hcollected]
    exact hpackets hallOver
  · intro _ hallOver
    rw [hcollected]
    exact hfirst hallOver
  · intro _ hallOver
    rw [hcollected, hall]
    exact hclosed hallOver

theorem addToPacketList_ne_nil (l : List ReadPacket) (p : ReadPacket) :
    addToPacketList l p ≠ [] := by
  unfold addToPacketList
  split
  · rename_i hfull
    intro hnil
    rw [hnil] at hfull
    cases hfull
  · simp

theorem Collected.add_control {c : Collected} (h : IsControl p.packet) : c.add p = c :=
  if_pos h

theorem Collected.add_open {c : Collected} (h : ¬ IsControl p.packet)
    (hopen : c.current = [] ∨ ClosesInstruction p.packet = false) :
    c.add p = { c with current := addToPacketList c.current p } := by
  rw [Collected.add, if_neg h, if_pos hopen]

theorem Collected.add_close {c : Collected} (h : ¬ IsControl p.packet) (hcurrent : c.current ≠ [])
    (hcloses : ClosesInstruction p.packet = true) :
    c.add p = ⟨c.closed ++ [c.current], [p]⟩ := by
  rw [Collected.add, if_neg h, if_neg]
  rintro (hnil | hopen)
  · exact hcurrent hnil
  · rw [hcloses] at hopen
    cases hopen

/-- A packet that puts nothing into the history. -/
theorem Orderly.read_quiet {q : Packet} (h : Orderly translator s) (hreading : s.reading = true)
    (hstream : s.fromEmulator = q :: rest) (hfrom : t.fromEmulator = rest)
    (hread : t.packetsRead = s.packetsRead ++ [q])
    (hallOver : t.reading = true → t.allOver = false)
    (henqueued : t.enqueued = s.enqueued)
    (houtstanding : t.outstandingMicroOps = s.outstandingMicroOps)
    (hpackets : t.allOver = false →
      t.packetList = ((collected s.packetsRead).add ⟨q, s.packetsRead.length⟩).current)
    (hfirst : t.allOver = false → (t.isFirstPacket = true ↔
      ((collected s.packetsRead).add ⟨q, s.packetsRead.length⟩).current = []))
    (hclosed : t.allOver = false → ∀ packets ∈
      ((collected s.packetsRead).add ⟨q, s.packetsRead.length⟩).closed,
        fuse translator packets <:+: s.enqueued) : Orderly translator t := by
  obtain ⟨hnone, -⟩ := h.reading hreading
  refine h.read [] [] hreading hstream hfrom hread
    (fun hr => ⟨houtstanding.trans hnone, hallOver hr⟩) (by simp [henqueued])
    (by simp [henqueued, houtstanding, hnone]) (by simp) (by simp) (by simp)
    List.Pairwise.nil hpackets hfirst ?_
  intro hover packets hp
  rw [List.append_nil]
  exact hclosed hover packets hp

/-- The processing of a packet other than `THREADCOMPLETE`. -/
theorem Orderly.processed {q : Packet} (h : Orderly translator s) (hreading : s.reading = true)
    (hstream : s.fromEmulator = q :: rest)
    (hsettled : ¬ IsControl q → ClosesInstruction q = true → s.Overtaken →
      fuse translator s.packetList = [])
    (hp : Processes translator (s.dequeue q rest) ⟨q, s.packetsRead.length⟩ ret t) :
    Orderly translator { t with reading := ret } := by
  obtain ⟨hnone, hover⟩ := h.reading hreading
  have hne : s.fromEmulator ≠ [] := by simp [hstream]
  have hpackets := h.packetList hne hover
  have hfirst := h.isFirstPacket hne hover
  have hclosed := h.closed hne hover
  rw [hnone, List.append_nil] at hclosed
  have hcause : ∀ m ∈ s.enqueued, m.cause ≤ s.packetsRead.length :=
    fun m hm => (h.cause_lt m (List.mem_append_left _ hm)).le
  have hfused : ∀ m ∈ fuse translator s.packetList, m.cause ≤ s.packetsRead.length := by
    intro m hm
    obtain ⟨first, more, heq, hm⟩ := fuse_cause hm
    rw [hm]
    apply le_of_lt
    apply position_lt_of_mem_current
    rw [← hpackets, heq]
    exact List.mem_cons_self
  -- an instruction that closes with micro-operations has not been overtaken
  have habove : ¬ IsControl q → ClosesInstruction q = true →
      ∀ n ∈ s.enqueued, ∀ m ∈ fuse translator s.packetList, n.cause ≤ m.cause := by
    intro hcontrol hcloses n hn m hm
    obtain ⟨first, more, heq, hcausem⟩ := fuse_cause hm
    by_contra hlt
    rw [hsettled hcontrol hcloses ⟨first, by simp [heq], n, hn, by omega⟩] at hm
    cases hm
  have hsame : (fuse translator s.packetList).Pairwise (fun a b => a.cause ≤ b.cause) := by
    apply List.pairwise_of_forall_mem_list
    intro m hm n hn
    obtain ⟨first, more, heq, hcausem⟩ := fuse_cause hm
    obtain ⟨first', more', heq', hcausen⟩ := fuse_cause hn
    rw [heq] at heq'
    rw [hcausem, hcausen, (List.cons.inj heq').1]
  cases hp with
  | ignored hcontrol =>
    refine h.read_quiet hreading hstream rfl rfl (fun _ => hover) rfl rfl ?_ ?_ ?_ <;> intro _ <;>
      rw [Collected.add_control hcontrol]
    · exact hpackets
    · exact hfirst
    · exact hclosed
  | resumed hcontrol =>
    refine h.read_quiet hreading hstream rfl rfl (fun _ => hover) rfl rfl ?_ ?_ ?_ <;> intro _ <;>
      rw [Collected.add_control hcontrol]
    · exact hpackets
    · exact hfirst
    · exact hclosed
  | slept hcontrol address hroom =>
    let sync : CausedOp := ⟨⟨.sync, address⟩, s.packetsRead.length⟩
    refine h.read [sync] [sync] hreading hstream rfl rfl
      (fun _ => ⟨hnone, hover⟩) rfl (by simp [dequeue, hnone, sync]) (by simp [sync])
      (by simp [sync]) (by simpa [sync] using hcause) (List.pairwise_singleton _ _) ?_ ?_ ?_ <;>
      intro _ <;> rw [Collected.add_control hcontrol]
    · exact hpackets
    · exact hfirst
    · intro packets hp
      exact (hclosed packets hp).trans (List.prefix_append _ _).isInfix
  | started hcontrol hisFirst =>
    have hcurrent := hfirst.mp hisFirst
    refine h.read_quiet hreading hstream rfl rfl (fun _ => hover) rfl rfl ?_ ?_ ?_ <;> intro _ <;>
      rw [Collected.add_open hcontrol (Or.inl hcurrent)]
    · exact congrArg (fun l => addToPacketList l _) hpackets
    · simp [startThread, addToPacketList_ne_nil]
    · exact hclosed
  | collected hcontrol hisFirst hopen =>
    refine h.read_quiet hreading hstream rfl rfl (fun _ => hover) rfl rfl ?_ ?_ ?_ <;> intro _ <;>
      rw [Collected.add_open hcontrol (Or.inr hopen)]
    · exact congrArg (fun l => addToPacketList l _) hpackets
    · have hfalse : s.isFirstPacket = false := hisFirst
      simp [dequeue, hfalse, addToPacketList_ne_nil]
    · exact hclosed
  | closed hcontrol hisFirst hcloses =>
    have hfalse : s.isFirstPacket = false := hisFirst
    have hcurrent : (collected s.packetsRead).current ≠ [] := by
      intro hnil
      rw [hfirst.mpr hnil] at hfalse
      cases hfalse
    refine h.read (fuse translator s.packetList) (fuse translator s.packetList)
      hreading hstream rfl rfl (fun _ => ⟨rfl, hover⟩)
      (by simp [enqueueOutstanding, dequeue, hnone])
      (by simp [enqueueOutstanding, dequeue, hnone]) (fun m hm => (fuse_no_marker hm).1) hfused
      (habove hcontrol hcloses) hsame ?_ ?_ ?_ <;> intro _ <;>
      rw [Collected.add_close hcontrol hcurrent hcloses]
    · rfl
    · simp [enqueueOutstanding, dequeue, hfalse]
    · intro packets hp
      rcases List.mem_append.mp hp with hp | hp
      · exact (hclosed packets hp).trans (List.prefix_append _ _).isInfix
      · rw [List.mem_singleton.mp hp, ← hpackets]
        exact (List.suffix_append _ _).isInfix
  | parked hcontrol hisFirst hcloses =>
    have hfalse : s.isFirstPacket = false := hisFirst
    have hcurrent : (collected s.packetsRead).current ≠ [] := by
      intro hnil
      rw [hfirst.mpr hnil] at hfalse
      cases hfalse
    refine h.read (fuse translator s.packetList) [] hreading hstream rfl rfl
      (fun hr => absurd hr Bool.false_ne_true) (by simp [dequeue]) (by simp [dequeue, hnone])
      (fun m hm => (fuse_no_marker hm).1) hfused (habove hcontrol hcloses) hsame ?_ ?_ ?_ <;>
      intro _ <;> rw [Collected.add_close hcontrol hcurrent hcloses]
    · simp [dequeue, hfalse]
    · intro packets hp
      rcases List.mem_append.mp hp with hp | hp
      · exact (hclosed packets hp).trans (List.prefix_append _ _).isInfix
      · rw [List.mem_singleton.mp hp, ← hpackets]
        exact (List.suffix_append _ _).isInfix

/-- Where an element of a list stands when one more is appended. -/
theorem split_snoc {α : Type} {l before after : List α} {x m : α}
    (h : l ++ [m] = before ++ x :: after) :
    (before = l ∧ x = m) ∨ ∃ tail, l = before ++ x :: tail := by
  rcases List.eq_nil_or_concat after with rfl | ⟨tail, y, rfl⟩
  · obtain ⟨hl, hm⟩ := List.append_inj' h rfl
    exact Or.inl ⟨hl.symm, (List.cons.inj hm).1.symm⟩
  · rw [List.concat_eq_append, ← List.cons_append, ← List.append_assoc] at h
    exact Or.inr ⟨tail, (List.append_inj' h rfl).1⟩

/-- `THREADCOMPLETE` enqueues the final marker and is then taken for a first packet. -/
theorem Orderly.completed {q : Packet} (h : Orderly translator s) (hreading : s.reading = true)
    (hstream : s.fromEmulator = q :: rest) (hvalue : q.value = Encoding.threadComplete)
    (hsettled : fuse translator s.packetList = []) (hfrom : t.fromEmulator = rest)
    (hread : t.packetsRead = s.packetsRead ++ [q]) (hallOver : t.allOver = s.allOver)
    (henqueued : t.enqueued = s.enqueued ++ [finalMarker s.packetsRead.length])
    (houtstanding : t.outstandingMicroOps = s.outstandingMicroOps) : Orderly translator t := by
  obtain ⟨hnone, hover⟩ := h.reading hreading
  have hne : s.fromEmulator ≠ [] := by simp [hstream]
  have hends := h.endsOnce
  rw [hstream] at hends
  have hrest : t.fromEmulator = [] := hfrom.trans (hends.rest_eq_nil hvalue)
  have hclosed := h.closed hne hover
  rw [hnone, List.append_nil] at hclosed
  have hcause : ∀ m ∈ s.enqueued, m.cause < s.packetsRead.length :=
    fun m hm => h.cause_lt m (List.mem_append_left _ hm)
  refine ⟨?_, fun _ => ⟨houtstanding.trans hnone, hallOver.trans hover⟩, ?_, ?_, ?_, ?_, ?_, ?_, ?_⟩
  · rw [hfrom]
    exact hends.tail
  · rw [henqueued, houtstanding, hnone, List.append_nil]
    have hold := h.inOrder
    rw [hnone, List.append_nil] at hold
    refine List.pairwise_append.mpr ⟨hold, List.pairwise_singleton _ _, ?_⟩
    intro m hm n hn
    rw [List.mem_singleton.mp hn]
    exact (hcause m hm).le
  · rw [henqueued, houtstanding, hnone, List.append_nil, hread, List.length_append]
    intro m hm
    rcases List.mem_append.mp hm with hm | hm
    · exact Nat.lt_succ_of_lt (hcause m hm)
    · rw [List.mem_singleton.mp hm]
      exact Nat.lt_succ_self _
  · rw [houtstanding]
    exact h.no_marker
  · intro before marker after heq hmarker
    rw [henqueued] at heq
    have hbefore : ∀ packets ∈ instructions s.packetsRead,
        fuse translator packets <:+: s.enqueued := by
      intro packets hp
      rcases List.mem_append.mp hp with hp | hp
      · exact hclosed packets hp
      · rw [List.mem_singleton.mp hp, ← h.packetList hne hover, hsettled]
        exact List.nil_infix
    rcases split_snoc heq with ⟨rfl, rfl⟩ | ⟨tail, hm⟩
    · have htake : t.packetsRead.take (finalMarker s.packetsRead.length).cause =
          s.packetsRead := by
        rw [hread]
        exact List.take_left
      rw [htake]
      exact hbefore
    · have hle : marker.cause ≤ s.packetsRead.length :=
        (hcause marker (by rw [hm]; simp)).le
      rw [hread, List.take_append_of_le_length hle]
      exact h.complete before marker tail hm hmarker
  · intro hsome
    exact absurd hrest hsome
  · intro hsome
    exact absurd hrest hsome
  · intro hsome
    exact absurd hrest hsome

theorem Orderly.readPacket {barrier : Option ℤ} (h : Orderly translator s)
    (hsettled : s.Untroubled translator (.readPacket barrier))
    (hstep : s.readPacket translator barrier = some t) : Orderly translator t := by
  obtain ⟨q, rest, u, hstream, hreading, hcompletes, hprocessed⟩ := readPacket_cases hstep
  obtain ⟨hlast, hcloses⟩ := hsettled q (by rw [hstream]; rfl)
  have hover := (h.reading hreading).2
  cases hcompletes with
  | other hvalue =>
    rcases hprocessed with ⟨-, rfl⟩ | ⟨ret, v, hprocesses, rfl⟩
    · exact h.read_quiet hreading hstream rfl rfl (fun hr => absurd hr Bool.false_ne_true) rfl rfl
        (fun hall => absurd hall Bool.noConfusion) (fun hall => absurd hall Bool.noConfusion)
        (fun hall => absurd hall Bool.noConfusion)
    · exact Orderly.processed h hreading hstream hcloses hprocesses
  | signalled hvalue hroom =>
    have hvalue : q.value = Encoding.threadComplete := hvalue
    rcases hprocessed with ⟨hsubset, -⟩ | ⟨ret, v, hprocesses, rfl⟩
    · rw [hvalue] at hsubset
      cases hsubset
    · have hcontrol : ¬ IsControl q := by
        unfold IsControl
        rw [hvalue]
        decide
      cases hprocesses with
      | started _ _ => exact h.completed hreading hstream hvalue (hlast hvalue) rfl rfl rfl rfl rfl
      | ignored hc => exact absurd hc hcontrol
      | resumed hc => exact absurd hc hcontrol
      | slept hc => exact absurd hc hcontrol
      | collected _ hfirst => cases hfirst
      | closed _ hfirst => cases hfirst
      | parked _ hfirst => cases hfirst

/-- Micro-operations may move from the outstanding list into the pipeline buffer. -/
theorem Orderly.frame (h : Orderly translator s) (now : List CausedOp)
    (hfrom : t.fromEmulator = s.fromEmulator) (hread : t.packetsRead = s.packetsRead)
    (hlist : t.packetList = s.packetList) (hfirst : t.isFirstPacket = s.isFirstPacket)
    (hallOver : t.allOver = s.allOver) (henqueued : t.enqueued = s.enqueued ++ now)
    (houtstanding : now ++ t.outstandingMicroOps = s.outstandingMicroOps)
    (hreading : t.reading = true → t.outstandingMicroOps = [] ∧ s.allOver = false) :
    Orderly translator t := by
  have hall : t.enqueued ++ t.outstandingMicroOps = s.enqueued ++ s.outstandingMicroOps := by
    rw [henqueued, ← houtstanding, List.append_assoc]
  refine ⟨?_, ?_, ?_, ?_, ?_, ?_, ?_, ?_, ?_⟩
  · rw [hfrom]
    exact h.endsOnce
  · rw [hallOver]
    exact hreading
  · rw [hall]
    exact h.inOrder
  · rw [hall, hread]
    exact h.cause_lt
  · intro m hm
    apply h.no_marker
    rw [← houtstanding]
    exact List.mem_append_right _ hm
  · refine h.complete.append [] ?_ ?_ henqueued (by rw [hread, List.append_nil])
    · intro m hm
      exact (h.cause_lt m (List.mem_append_left _ hm)).le
    · intro m hm
      apply h.no_marker
      rw [← houtstanding]
      exact List.mem_append_left _ hm
  · rw [hfrom, hallOver, hlist, hread]
    exact h.packetList
  · rw [hfrom, hallOver, hfirst, hread]
    exact h.isFirstPacket
  · rw [hfrom, hallOver, hread, hall]
    exact h.closed

theorem Orderly.beginRound (h : Orderly translator s) (hstep : s.beginRound = some t) :
    Orderly translator t := by
  rcases beginRound_cases hstep with rfl | ⟨hover, hnone, rfl⟩ | ⟨hover, rfl⟩
  · exact h
  · exact h.frame [] rfl rfl rfl rfl rfl (List.append_nil _).symm rfl
      (fun _ => ⟨hnone, hover⟩)
  · exact h.frame _ rfl rfl rfl rfl rfl rfl (List.append_nil _) (fun _ => ⟨rfl, hover⟩)

theorem Orderly.step (h : Orderly translator s) (hsettled : s.Untroubled translator a)
    (hstep : Step translator s a t) : Orderly translator t := by
  cases a with
  | beginRound => exact h.beginRound hstep
  | readPacket barrier => exact h.readPacket hsettled hstep
  | endRound =>
    cases hstep
    exact h.frame [] rfl rfl rfl rfl rfl (List.append_nil _).symm rfl
      (fun hr => absurd hr Bool.false_ne_true)
  | unhalt =>
    cases hstep
    exact h.frame [] rfl rfl rfl rfl rfl (List.append_nil _).symm rfl h.reading
  | fetch =>
    obtain ⟨op, rest, -, rfl⟩ := fetch_cases hstep
    exact h.frame [] rfl rfl rfl rfl rfl (List.append_nil _).symm rfl h.reading
  | commit =>
    obtain ⟨op, rest, -, ⟨-, rfl⟩ | ⟨-, rfl⟩⟩ := commit_cases hstep
    · exact h.frame [] rfl rfl rfl rfl rfl (List.append_nil _).symm rfl h.reading
    · exact h.frame [] rfl rfl rfl rfl rfl (List.append_nil _).symm rfl h.reading

/-- A translator that makes one micro-operation of every instruction at an address
below 1000 and none of the others. -/
def lowTranslator : Translator where
  fuseInstruction
    | [] => []
    | first :: _ => if first.packet.ip < 1000 then [⟨.integerALU, 0⟩] else []
  no_marker := by
    intro packets op hop
    cases packets with
    | nil => cases hop
    | cons first rest =>
      dsimp only at hop
      split at hop
      · rw [List.mem_singleton.mp hop]
        decide
      · cases hop

instance : Decidable s.Overtaken :=
  inferInstanceAs (Decidable (∃ first ∈ s.packetList.head?, ∃ m ∈ s.enqueued, _))

instance (packets : List Packet) : Decidable (EndsOnce packets) :=
  inferInstanceAs (Decidable (∀ p ∈ packets.dropLast, _))

instance : Decidable s.InOrder := inferInstanceAs (Decidable (s.enqueued.Pairwise _))

instance : Decidable (Untroubled translator s a) :=
  match a with
  | .readPacket _ => inferInstanceAs (Decidable (∀ p ∈ s.fromEmulator.head?, _))
  | .beginRound => isTrue trivial
  | .endRound => isTrue trivial
  | .unhalt => isTrue trivial
  | .fetch => isTrue trivial
  | .commit => isTrue trivial

/-- An instruction that is translated, one that is not, a lock and the end of the thread. -/
def lockingThread : List Packet :=
  [⟨64, Encoding.instruction, 0⟩, ⟨2000, Encoding.instruction, 0⟩, ⟨1, Encoding.lock, 4096⟩,
    ⟨2, Encoding.threadComplete, 0⟩]

end PacketReader

end Tejas
