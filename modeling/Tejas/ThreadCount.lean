import Tejas.PacketReader
import Mathlib.Tactic.Linarith
import Mathlib.Data.List.Count
import Mathlib.Data.List.Induction

/-!
# The number of threads on a core

`currentThreads` is raised in the packet reader and lowered at the commit of a
final marker. `THREADCOMPLETE` prepares the slot for the next thread before it is
processed like any other packet, so it is counted as the first packet of a thread
that has not started.
-/

namespace Tejas
open LabelledRuns

namespace PacketReader

/-- The packets of an application thread: an instruction packet first, then packets
of any kind, then `THREADCOMPLETE`. -/
def IsApplicationThread (packets : List Packet) : Prop :=
  ∃ first body last, packets = first :: (body ++ [last]) ∧
    first.value = Encoding.instruction ∧ last.value = Encoding.threadComplete ∧
    ∀ p ∈ body, p.value ≠ Encoding.threadComplete

/-- The number of threads that have begun, and whether the next packet begins one. -/
def threadsBegun : List Packet → ℕ × Bool :=
  List.foldl (fun c p =>
    (if c.2 then c.1 + 1 else c.1, decide (p.value = Encoding.threadComplete))) (0, true)

/-- The threads of which a packet has been read. -/
def started (s : PacketReader) : ℕ := (threadsBegun s.packetsRead).1

/-- The threads whose `THREADCOMPLETE` has been read. -/
def ended (s : PacketReader) : ℕ :=
  s.packetsRead.countP (fun p => p.value = Encoding.threadComplete)

/-- The counter is the number of started threads whose final marker has not yet
committed, and the execution is complete exactly when every started thread has
finished. -/
def CountsThreads (s : PacketReader) : Prop :=
  s.currentThreads = s.started - s.committed ∧
    (s.executionComplete = true ↔ 0 < s.started ∧ s.committed = s.started)

/-- Every thread that has started has ended, and there is one. -/
def BetweenThreads (s : PacketReader) : Prop := 0 < s.started ∧ s.ended = s.started

/-- The packets of threads, the first of which may be under way. -/
def BeginsThreads : Bool → List Packet → Prop
  | _, [] => True
  | between, p :: rest =>
    (between = true → p.value = Encoding.instruction) ∧
      BeginsThreads (decide (p.value = Encoding.threadComplete)) rest

/-- The final markers among some instructions. -/
def markers (ops : List CausedOp) : ℕ := ops.countP (fun op => op.op.operationType = .inValid)

@[simp] theorem markers_nil : markers [] = 0 := rfl

@[simp] theorem markers_append (l m : List CausedOp) :
    markers (l ++ m) = markers l + markers m := List.countP_append

@[simp] theorem markers_finalMarker (position : ℕ) : markers [finalMarker position] = 1 := rfl

@[simp] theorem markers_sync (address : ℤ) (position : ℕ) :
    markers [⟨⟨.sync, address⟩, position⟩] = 0 := rfl

theorem markers_cons (op : CausedOp) (l : List CausedOp) :
    markers (op :: l) = markers l + if op.op.operationType = .inValid then 1 else 0 := by
  simp [markers, List.countP_cons]

theorem markers_fetched (op : CausedOp) : markers [fetched op] = markers [op] := by
  unfold fetched
  split
  · rename_i hsync
    simp [markers, hsync]
  · rfl

variable {translator : Translator} {s t u : PacketReader} {a : Action} {p : ReadPacket}
  {ret : Bool} {labels : List Action}

@[simp] theorem markers_fuse (packets : List ReadPacket) :
    markers (fuse translator packets) = 0 := by
  apply List.countP_eq_zero.mpr
  intro op hop
  simpa using (fuse_no_marker hop).1

theorem threadsBegun_append (l : List Packet) (p : Packet) :
    threadsBegun (l ++ [p]) =
      (if (threadsBegun l).2 then (threadsBegun l).1 + 1 else (threadsBegun l).1,
        decide (p.value = Encoding.threadComplete)) := by
  rw [threadsBegun, List.foldl_append]
  rfl

/-- As many threads have begun as have ended, and one more while one is under way. -/
theorem threadsBegun_fst (l : List Packet) :
    (threadsBegun l).1 = l.countP (fun p => p.value = Encoding.threadComplete) +
      if (threadsBegun l).2 then 0 else 1 := by
  induction l using List.reverseRecOn with
  | nil => rfl
  | append_singleton l p ih =>
    rw [threadsBegun_append, List.countP_append, List.countP_singleton]
    cases hbetween : (threadsBegun l).2 <;> rw [hbetween] at ih <;>
      by_cases hp : p.value = Encoding.threadComplete <;> simp_all

theorem threadsBegun_pos {l : List Packet} (h : l ≠ []) : 0 < (threadsBegun l).1 := by
  induction l using List.reverseRecOn with
  | nil => exact absurd rfl h
  | append_singleton l p ih =>
    rw [threadsBegun_append]
    rcases eq_or_ne l [] with rfl | hl
    · exact Nat.one_pos
    · have hpos := ih hl
      dsimp only
      split <;> omega

theorem beginsThreads_append {between : Bool} {l m : List Packet} (hl : BeginsThreads between l)
    (hne : l ≠ []) (hlast : ∀ p, l.getLast? = some p → p.value = Encoding.threadComplete)
    (hm : BeginsThreads true m) : BeginsThreads between (l ++ m) := by
  induction l generalizing between with
  | nil => exact absurd rfl hne
  | cons p rest ih =>
    refine ⟨hl.1, ?_⟩
    rcases eq_or_ne rest [] with rfl | hrest
    · rw [decide_eq_true (hlast p rfl)]
      exact hm
    · refine ih hl.2 hrest (fun q hq => hlast q ?_)
      rw [List.getLast?_cons, hq]
      rfl

theorem IsApplicationThread.beginsThreads {packets : List Packet}
    (h : IsApplicationThread packets) :
    BeginsThreads true packets ∧ packets ≠ [] ∧
      ∀ p, packets.getLast? = some p → p.value = Encoding.threadComplete := by
  obtain ⟨first, body, last, rfl, hfirst, hlast, hbody⟩ := h
  have hrest : BeginsThreads false (body ++ [last]) := by
    clear hfirst
    induction body with
    | nil => exact ⟨fun h => absurd h Bool.false_ne_true, trivial⟩
    | cons p rest ih =>
      refine ⟨fun h => absurd h Bool.false_ne_true, ?_⟩
      rw [decide_eq_false (hbody p List.mem_cons_self)]
      exact ih (fun q hq => hbody q (List.mem_cons_of_mem _ hq))
  refine ⟨⟨fun _ => hfirst, ?_⟩, List.cons_ne_nil _ _, ?_⟩
  · have hne : first.value ≠ Encoding.threadComplete := by
      rw [hfirst]
      decide
    rw [decide_eq_false hne]
    exact hrest
  · intro p hp
    rw [← List.cons_append, List.getLast?_append] at hp
    obtain rfl : last = p := Option.some.inj hp
    exact hlast

/-- One thread after another makes a stream in which every thread begins with an
instruction packet. -/
theorem beginsThreads_flatten {threads : List (List Packet)}
    (h : ∀ packets ∈ threads, IsApplicationThread packets) :
    BeginsThreads true threads.flatten := by
  induction threads with
  | nil => trivial
  | cons packets rest ih =>
    obtain ⟨hbegins, hne, hlast⟩ := (h packets List.mem_cons_self).beginsThreads
    exact beginsThreads_append hbegins hne hlast (ih (fun q hq => h q (List.mem_cons_of_mem _ hq)))

/-! ## What the counter counts -/

/-- Where the final markers are, and what the counter has become: one more than the
threads ended and not committed, from the first packet on. -/
structure Counted (s : PacketReader) : Prop where
  isFirstPacket : s.isFirstPacket = decide (s.packetsRead = [])
  outstanding : markers s.outstandingMicroOps = 0
  inFlight : markers s.inputToPipeline + markers s.pipeline + s.committed = s.ended
  counter : s.currentThreads + s.committed = s.ended + if s.packetsRead = [] then 0 else 1
  running : s.executionComplete = false
  stream : BeginsThreads (threadsBegun s.packetsRead).2 s.fromEmulator

theorem counted_start {stream : List Packet} (h : BeginsThreads true stream) :
    Counted (start stream) where
  isFirstPacket := rfl
  outstanding := rfl
  inFlight := rfl
  counter := rfl
  running := rfl
  stream := h

theorem ended_dequeue (p : Packet) (rest : List Packet) :
    (s.dequeue p rest).ended =
      s.ended + if p.value = Encoding.threadComplete then 1 else 0 := by
  simp [ended, dequeue, List.countP_append, List.countP_singleton]

/-- Between the signal of a packet and its processing the first packet of a thread and
`THREADCOMPLETE` are still to be counted. -/
structure Announced (p : Packet) (s : PacketReader) : Prop where
  isFirstPacket : s.isFirstPacket = true →
    p.value = Encoding.instruction ∨ p.value = Encoding.threadComplete
  outstanding : markers s.outstandingMicroOps = 0
  inFlight : markers s.inputToPipeline + markers s.pipeline + s.committed = s.ended
  counter : s.currentThreads + s.committed + (if s.isFirstPacket then 1 else 0) = s.ended + 1
  running : s.executionComplete = false
  packetsRead : s.packetsRead ≠ []
  stream : BeginsThreads (threadsBegun s.packetsRead).2 s.fromEmulator

theorem not_isControl {p : Packet}
    (h : p.value = Encoding.instruction ∨ p.value = Encoding.threadComplete) : ¬ IsControl p := by
  unfold IsControl
  rcases h with h | h <;> rw [h] <;> decide

theorem Counted.announced {q : Packet} {rest : List Packet} (h : Counted s)
    (hstream : s.fromEmulator = q :: rest) (hc : Completes (s.dequeue q rest) p u)
    (hp : p.packet = q) : Announced q u := by
  have hbegins := h.stream
  rw [hstream] at hbegins
  have hthreads : BeginsThreads (threadsBegun (s.packetsRead ++ [q])).2 rest := by
    rw [threadsBegun_append]
    exact hbegins.2
  have hfirst : s.packetsRead = [] → q.value = Encoding.instruction := by
    intro hnil
    apply hbegins.1
    rw [hnil]
    rfl
  have hended := ended_dequeue (s := s) q rest
  have hcounter := h.counter
  cases hc with
  | other hvalue =>
    rw [hp] at hvalue
    rw [if_neg hvalue] at hended
    refine ⟨fun htrue => Or.inl (hfirst ?_), h.outstanding, by rw [hended]; exact h.inFlight, ?_,
      h.running, by simp [dequeue], hthreads⟩
    · have hdecide : decide (s.packetsRead = []) = true := by
        rw [← h.isFirstPacket]
        exact htrue
      exact of_decide_eq_true hdecide
    · rw [hended]
      change s.currentThreads + s.committed + (if s.isFirstPacket = true then 1 else 0) = _
      rw [h.isFirstPacket]
      by_cases hnil : s.packetsRead = [] <;> simp [hnil] at hcounter ⊢ <;> omega
  | signalled hvalue hroom =>
    rw [hp] at hvalue
    rw [if_pos hvalue] at hended
    have hne : s.packetsRead ≠ [] := by
      intro hnil
      have hinstruction := hfirst hnil
      rw [hvalue] at hinstruction
      cases hinstruction
    rw [if_neg hne] at hcounter
    have hinFlight := h.inFlight
    refine ⟨fun _ => Or.inr hvalue, h.outstanding, ?_, ?_, h.running, by simp [dequeue], hthreads⟩
    · change _ = (s.dequeue q rest).ended
      rw [hended]
      simp only [dequeue, markers_append, markers_finalMarker]
      omega
    · change s.currentThreads + s.committed + 1 = (s.dequeue q rest).ended + 1
      rw [hended]
      push_cast
      omega

/-- Once the packet is counted, nothing else of it concerns the counter. -/
theorem Announced.counted {q : Packet} (h : Announced q s) (hfirst : t.isFirstPacket = false)
    (hread : t.packetsRead = s.packetsRead) (hstream : t.fromEmulator = s.fromEmulator)
    (houtstanding : markers t.outstandingMicroOps = 0)
    (hqueue : markers t.inputToPipeline = markers s.inputToPipeline)
    (hpipeline : t.pipeline = s.pipeline) (hcommitted : t.committed = s.committed)
    (hthreads : t.currentThreads = s.currentThreads + if s.isFirstPacket then 1 else 0)
    (hrunning : t.executionComplete = false) : Counted t where
  isFirstPacket := by rw [hfirst, hread, decide_eq_false h.packetsRead]
  outstanding := houtstanding
  inFlight := by
    have hended : t.ended = s.ended := by rw [ended, hread, ended]
    rw [hqueue, hpipeline, hcommitted, hended]
    exact h.inFlight
  counter := by
    have hended : t.ended = s.ended := by rw [ended, hread, ended]
    have hcounter := h.counter
    rw [hthreads, hcommitted, hread, if_neg h.packetsRead, hended]
    omega
  running := hrunning
  stream := by
    rw [hread, hstream]
    exact h.stream

theorem Announced.processed (h : Announced p.packet s) (hp : Processes translator s p ret t) :
    Counted { t with reading := ret } := by
  have hcontrol : IsControl p.packet → s.isFirstPacket = false := by
    intro hc
    rcases Bool.eq_false_or_eq_true s.isFirstPacket with hfirst | hfirst
    · exact absurd hc (not_isControl (h.isFirstPacket hfirst))
    · exact hfirst
  cases hp with
  | ignored hc =>
    have hfirst := hcontrol hc
    exact h.counted hfirst rfl rfl h.outstanding rfl rfl rfl (by simp [hfirst]) h.running
  | resumed hc =>
    have hfirst := hcontrol hc
    exact h.counted hfirst rfl rfl h.outstanding rfl rfl rfl (by simp [hfirst]) h.running
  | slept hc address hroom =>
    have hfirst := hcontrol hc
    exact h.counted hfirst rfl rfl h.outstanding (by simp) rfl rfl (by simp [hfirst]) h.running
  | started hc hfirst =>
    exact h.counted rfl rfl rfl h.outstanding rfl rfl rfl (by simp [startThread, hfirst]) rfl
  | collected hc hfirst hopen =>
    exact h.counted hfirst rfl rfl h.outstanding rfl rfl rfl (by simp [hfirst]) h.running
  | closed hc hfirst hcloses =>
    refine h.counted hfirst rfl rfl rfl ?_ rfl rfl (by simp [enqueueOutstanding, hfirst]) h.running
    simp [enqueueOutstanding, h.outstanding]
  | parked hc hfirst hcloses =>
    exact h.counted hfirst rfl rfl (by simp [h.outstanding]) rfl rfl rfl (by simp [hfirst])
      h.running

theorem Announced.stopped {q : Packet} (h : Announced q s)
    (hvalue : q.value = Encoding.subsetSimComplete) :
    Counted { s with reading := false, allOver := true } := by
  have hfirst : s.isFirstPacket = false := by
    rcases Bool.eq_false_or_eq_true s.isFirstPacket with hfirst | hfirst
    · rcases h.isFirstPacket hfirst with hq | hq <;> rw [hvalue] at hq <;> cases hq
    · exact hfirst
  exact h.counted hfirst rfl rfl h.outstanding rfl rfl rfl (by simp [hfirst]) h.running

/-- The commit of a final marker leaves the counter above zero. -/
theorem Counted.commit (h : Counted s) (hstep : s.commit = some t) : Counted t := by
  have hinFlight := h.inFlight
  have hcounter := h.counter
  obtain ⟨op, rest, hpipeline, hcases⟩ := commit_cases hstep
  rw [hpipeline, markers_cons] at hinFlight
  rcases hcases with ⟨hmarker, rfl⟩ | ⟨hmarker, rfl⟩
  · rw [if_pos hmarker] at hinFlight
    have hne : s.packetsRead ≠ [] := by
      intro hnil
      have hended : s.ended = 0 := by rw [ended, hnil]; rfl
      omega
    rw [if_neg hne] at hcounter
    have hlowered : lowerThreads s.currentThreads = s.currentThreads - 1 :=
      if_neg (by omega)
    rw [hlowered, if_neg (by omega)]
    refine ⟨h.isFirstPacket, h.outstanding, ?_, ?_, h.running, h.stream⟩
    · change markers s.inputToPipeline + markers rest + (s.committed + 1) = s.ended
      omega
    · change s.currentThreads - 1 + ((s.committed + 1 : ℕ) : ℤ) =
        s.ended + if s.packetsRead = [] then 0 else 1
      rw [if_neg hne]
      push_cast
      omega
  · rw [if_neg hmarker] at hinFlight
    exact ⟨h.isFirstPacket, h.outstanding, hinFlight, hcounter, h.running, h.stream⟩

theorem Counted.fetch (h : Counted s) (hstep : s.fetch = some t) : Counted t := by
  obtain ⟨op, rest, hqueue, rfl⟩ := fetch_cases hstep
  have hinFlight := h.inFlight
  refine ⟨h.isFirstPacket, h.outstanding, ?_, h.counter, h.running, h.stream⟩
  change markers rest + markers (s.pipeline ++ [fetched op]) + s.committed = s.ended
  rw [markers_append, markers_fetched, markers_cons op []]
  rw [hqueue, markers_cons] at hinFlight
  simp only [markers_nil]
  omega

theorem Counted.beginRound (h : Counted s) (hstep : s.beginRound = some t) : Counted t := by
  rcases beginRound_cases hstep with rfl | ⟨-, -, rfl⟩ | ⟨-, rfl⟩
  · exact h
  · exact ⟨h.isFirstPacket, h.outstanding, h.inFlight, h.counter, h.running, h.stream⟩
  · refine ⟨h.isFirstPacket, rfl, ?_, h.counter, h.running, h.stream⟩
    change markers (s.inputToPipeline ++ s.outstandingMicroOps) + markers s.pipeline +
      s.committed = s.ended
    rw [markers_append, h.outstanding]
    exact h.inFlight

theorem Counted.readPacket {barrier : Option ℤ} (h : Counted s)
    (hstep : s.readPacket translator barrier = some t) : Counted t := by
  obtain ⟨p, rest, u, hstream, -, hcompletes, hprocessed⟩ := readPacket_cases hstep
  have hannounced := h.announced hstream hcompletes rfl
  rcases hprocessed with ⟨hvalue, rfl⟩ | ⟨ret, v, hprocesses, rfl⟩
  · exact hannounced.stopped hvalue
  · exact Announced.processed hannounced hprocesses

theorem Counted.step (h : Counted s) (hstep : Step translator s a t) : Counted t := by
  cases a with
  | beginRound => exact h.beginRound hstep
  | readPacket barrier => exact h.readPacket hstep
  | endRound =>
    cases hstep
    exact ⟨h.isFirstPacket, h.outstanding, h.inFlight, h.counter, h.running, h.stream⟩
  | unhalt =>
    cases hstep
    exact ⟨h.isFirstPacket, h.outstanding, h.inFlight, h.counter, h.running, h.stream⟩
  | fetch => exact h.fetch hstep
  | commit => exact h.commit hstep

theorem counted_of_run {stream : List Packet} (hstream : BeginsThreads true stream)
    (run : Run (Step translator) (start stream) labels s) : Counted s :=
  run.invariant (counted_start hstream) (fun _ _ _ h hstep => h.step hstep)

/-- The counter is right as long as a started thread has not ended. -/
theorem Counted.countsThreads_iff (h : Counted s) : s.CountsThreads ↔ ¬ s.BetweenThreads := by
  have hcounter := h.counter
  have hinFlight := h.inFlight
  have hstarted : s.started = s.ended + if (threadsBegun s.packetsRead).2 then 0 else 1 :=
    threadsBegun_fst s.packetsRead
  unfold CountsThreads BetweenThreads
  rw [h.running]
  by_cases hnil : s.packetsRead = []
  · have hended : s.ended = 0 := by rw [ended, hnil]; rfl
    have hnone : s.started = 0 := by rw [started, hnil]; rfl
    rw [if_pos hnil] at hcounter
    constructor
    · intro _ hbetween
      omega
    · intro _
      refine ⟨by omega, ?_⟩
      simp [hnone]
  · have hpos : 0 < s.started := threadsBegun_pos hnil
    rw [if_neg hnil] at hcounter
    constructor
    · intro hcounts hbetween
      omega
    · intro hbetween
      have hmore : s.started = s.ended + 1 := by
        rcases Bool.eq_false_or_eq_true (threadsBegun s.packetsRead).2 with hb | hb
        · rw [hb] at hstarted
          exact absurd ⟨hpos, hstarted.symm⟩ hbetween
        · rw [hb] at hstarted
          exact hstarted
      refine ⟨by omega, ?_⟩
      constructor
      · intro hfalse
        cases hfalse
      · intro hfinished
        omega

/-- In every state that the packets of any number of threads lead to, the counter and
the flag are right exactly when not all started threads have ended. -/
theorem currentThreads_counts_iff {threads : List (List Packet)}
    (hthreads : ∀ packets ∈ threads, IsApplicationThread packets)
    (run : Run (Step translator) (start threads.flatten) labels s) :
    s.CountsThreads ↔ ¬ s.BetweenThreads :=
  (counted_of_run (beginsThreads_flatten hthreads) run).countsThreads_iff

/-- A translator that knows no instruction. -/
def idleTranslator : Translator := ⟨fun _ => [], fun _ _ h => by cases h⟩

/-- A thread of a single instruction. -/
def oneInstruction : List Packet :=
  [⟨64, Encoding.instruction, 0⟩, ⟨1, Encoding.threadComplete, 0⟩]

theorem oneInstruction_isApplicationThread : IsApplicationThread oneInstruction :=
  ⟨⟨64, Encoding.instruction, 0⟩, [], ⟨1, Encoding.threadComplete, 0⟩, rfl, rfl, rfl,
    fun _ h => by cases h⟩

/-- The final marker of the only thread has committed, and the counter is still one. -/
theorem currentThreads_after_last :
    ¬ ∀ (translator : Translator) (threads : List (List Packet)) (labels : List Action)
      (s : PacketReader), (∀ packets ∈ threads, IsApplicationThread packets) →
      Run (Step translator) (start threads.flatten) labels s → s.CountsThreads := by
  intro hclaim
  have hrun : (exec (next idleTranslator) (start [oneInstruction].flatten)
      [.beginRound, .readPacket none, .readPacket none, .fetch, .commit]).any
        (fun s => s.currentThreads = 1 ∧ s.started = 1 ∧ s.committed = 1) = true := by decide
  obtain ⟨s, hexec, hs⟩ := (Option.any_eq_true _ _).mp hrun
  obtain ⟨hthreads, hstarted, hcommitted⟩ := of_decide_eq_true hs
  have hcounts := hclaim idleTranslator [oneInstruction] _ s
    (fun packets h => by
      rw [List.mem_singleton.mp h]
      exact oneInstruction_isApplicationThread) (run_of_exec hexec)
  have hcounter := hcounts.1
  rw [hthreads, hstarted, hcommitted] at hcounter
  cases hcounter

/-- While the thread is under way the counter is right. -/
theorem currentThreads_counts_underway :
    ∃ s : PacketReader, s.started = 1 ∧ s.CountsThreads := by
  have hrun : (exec (next idleTranslator) (start [oneInstruction].flatten)
      [.beginRound, .readPacket none]).any
        (fun s => s.started = 1 ∧ s.ended = 0) = true := by decide
  obtain ⟨s, hexec, hs⟩ := (Option.any_eq_true _ _).mp hrun
  obtain ⟨hstarted, hended⟩ := of_decide_eq_true hs
  have hthreads : ∀ packets ∈ [oneInstruction], IsApplicationThread packets := by
    intro packets h
    rw [List.mem_singleton.mp h]
    exact oneInstruction_isApplicationThread
  refine ⟨s, hstarted, (currentThreads_counts_iff hthreads (run_of_exec hexec)).mpr ?_⟩
  intro hbetween
  have hall := hbetween.2
  rw [hended, hstarted] at hall
  cases hall

end PacketReader

end Tejas
