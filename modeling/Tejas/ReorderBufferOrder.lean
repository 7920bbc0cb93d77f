import Tejas.LabelledRuns
import Tejas.ReorderBuffer
import Mathlib.Data.List.Basic

/-!
# The order of retirement

Decode adds instructions behind the tail of the reorder buffer and `performCommits` takes
them away at its head. In between the other stages change the entries, and write some of
them back. Three lists are kept beside the buffer, which it never reads: the instructions
that were added and those that retired, and the numbers of those that were written back,
where an instruction is numbered by its place among the added ones.
-/

namespace Tejas.ReorderBuffer
open LabelledRuns RingIndices

structure Recorded where
  rob : ReorderBuffer
  added : List Instruction
  retired : List Instruction
  writtenBack : List ℕ

namespace Recorded

variable {n i k retireWidth : ℕ} {s t : Recorded} {lsqValid : ℕ → Bool}

def new (size : ℕ) : Recorded := ⟨.new size, [], [], []⟩

/-- The number of the instruction at a position in use. -/
def number (s : Recorded) (i : ℕ) : ℕ := s.retired.length + s.rob.window.idxOf i

inductive Action where
  | addInstructionToROB (newInstruction : Instruction) (threadID : ℕ)
  /-- A stage changes the entry at a position. -/
  | change (i : ℕ) (e : ReorderBufferEntry)
  | writeBack (i : ℕ)
  /-- `stalled` says that the pipeline waits after a mispredicted branch, and `lsqValid`
  at which positions the entry of the load-store queue is valid. -/
  | performCommits (stalled : Bool) (lsqValid : ℕ → Bool)

def retire (s : Recorded) : Recorded :=
  { s with
    rob := s.rob.retireInstructionAtHead
    retired := s.retired ++ [(s.rob.ROB s.rob.head.toNat).instruction] }

/-- The loop of `performCommits`. `none` is the exit "The committed entry is not valid". -/
def commitRounds (s : Recorded) (lsqValid : ℕ → Bool) : ℕ → Option Recorded
  | 0 => some s
  | left + 1 =>
    if s.rob.head = -1 then some s
    else
      let first := s.rob.ROB s.rob.head.toNat
      if first.isWriteBackDone then
        if first.instruction.operationType = .store ∧ lsqValid s.rob.head.toNat = false then
          some s
        else if (first.instruction.operationType = .load ∨
            first.instruction.operationType = .store ∨
            first.instruction.operationType = .mfence) ∧
            lsqValid s.rob.head.toNat = false then none
        else s.retire.commitRounds lsqValid left
      else some s

/-- The stages change neither the instruction of an entry nor whether it is in use, and
only a write-back makes it written back. -/
def next (retireWidth : ℕ) (s : Recorded) : Action → Option Recorded
  | .addInstructionToROB newInstruction threadID =>
    if s.rob.isFull then some s
    else some { s with
      rob := (s.rob.addInstructionToROB newInstruction threadID).1
      added := s.added ++ [newInstruction] }
  | .change i e =>
    if e.instruction = (s.rob.ROB i).instruction ∧ e.isValid = (s.rob.ROB i).isValid ∧
        e.isWriteBackDone = (s.rob.ROB i).isWriteBackDone then
      some { s with rob := s.rob.setEntry i e }
    else none
  | .writeBack i =>
    some { s with
      rob := s.rob.setEntry i { s.rob.ROB i with isWriteBackDone := true }
      writtenBack := s.writtenBack ++ (if i ∈ s.rob.window then [s.number i] else []) }
  | .performCommits stalled lsqValid =>
    if stalled then some s else s.commitRounds lsqValid retireWidth

/-- The entries in use are the window, they are the instructions that have not retired in
the order of their arrival, and an instruction is written back before it retires. -/
structure InOrder (n : ℕ) (s : Recorded) : Prop where
  size : s.rob.MaxROBSize = n
  indices : Bounded n s.rob.head s.rob.tail
  valid : ∀ i, (s.rob.ROB i).isValid = true ↔ i ∈ s.rob.window
  order : s.added = s.retired ++ s.rob.window.map (fun i => (s.rob.ROB i).instruction)
  retired : ∀ k < s.retired.length, k ∈ s.writtenBack
  done : ∀ i ∈ s.rob.window, (s.rob.ROB i).isWriteBackDone = true → s.number i ∈ s.writtenBack

theorem inOrder_new (n : ℕ) : InOrder n (new n) where
  size := rfl
  indices := .inl ⟨rfl, rfl⟩
  valid i := by simp [new, ReorderBuffer.new, window, occupied, RingWindow.slotsFrom,
    ReorderBufferEntry.unused]
  order := by simp [new, ReorderBuffer.new, window, occupied, RingWindow.slotsFrom]
  retired k hk := absurd hk (Nat.not_lt_zero k)
  done i hi := by simp [new, ReorderBuffer.new, window, occupied, RingWindow.slotsFrom] at hi

theorem InOrder.nodup (h : InOrder n s) : s.rob.window.Nodup := by
  rw [window, h.size]
  exact h.indices.occupied_nodup

/-- A buffer without a free position is full. -/
theorem InOrder.size_lt (h : InOrder n s) (hn : 0 < n) (hfull : s.rob.isFull = false) :
    RingIndices.size n s.rob.head s.rob.tail < n := by
  simp only [isFull, h.size, decide_eq_false_iff_not, not_or] at hfull
  rcases h.indices with ⟨hhead, -⟩ | ⟨h0, hlt, t0, tn⟩ | ⟨hzero, -, -⟩
  · rw [hhead, size_empty]
    exact hn
  · rw [RingIndices.size]
    split_ifs <;> omega
  · omega

/-- With two positions at least, a buffer with a free position is not full. -/
theorem InOrder.not_isFull (h : InOrder n s) (hn : 2 ≤ n)
    (hfree : s.rob.window.length < n) : s.rob.isFull = false := by
  rw [window, h.size, length_occupied] at hfree
  simp only [isFull, h.size, decide_eq_false_iff_not, not_or]
  rcases h.indices with ⟨hhead, htail⟩ | ⟨h0, hlt, t0, tn⟩ | ⟨hzero, -, -⟩
  · rw [hhead, htail]
    omega
  · rw [RingIndices.size] at hfree
    split_ifs at hfree <;> omega
  · omega

/-! ### One action -/

/-- A new instruction gets a position of its own behind the others. -/
theorem InOrder.window_add (h : InOrder n s) (hn : 0 < n) (hfull : s.rob.isFull = false)
    (newInstruction : Instruction) (threadID : ℕ) :
    (s.rob.addInstructionToROB newInstruction threadID).1.window =
        s.rob.window ++ [(s.rob.addInstructionToROB newInstruction threadID).2] ∧
      (s.rob.addInstructionToROB newInstruction threadID).2 ∉ s.rob.window := by
  have hroom := h.size_lt hn hfull
  have hsize := h.size
  simp only [window, addInstructionToROB, hsize]
  exact ⟨h.indices.occupied_push hroom, h.indices.pushTail_not_mem hroom⟩

theorem InOrder.add (h : InOrder n s) (hn : 0 < n) (hfull : s.rob.isFull = false)
    (newInstruction : Instruction) (threadID : ℕ) :
    InOrder n { s with
      rob := (s.rob.addInstructionToROB newInstruction threadID).1
      added := s.added ++ [newInstruction] } := by
  obtain ⟨hwindow, hnew⟩ := h.window_add hn hfull newInstruction threadID
  have hsize := h.size
  generalize hlast : (s.rob.addInstructionToROB newInstruction threadID).2 = last at hwindow hnew
  rw [addInstructionToROB, hsize] at hlast
  have hentry : (s.rob.addInstructionToROB newInstruction threadID).1.ROB last =
      .fresh newInstruction threadID := by
    rw [← hlast, addInstructionToROB, hsize]
    exact Function.update_self _ _ _
  have hother : ∀ i, i ≠ last →
      (s.rob.addInstructionToROB newInstruction threadID).1.ROB i = s.rob.ROB i := by
    intro i hi
    rw [← hlast] at hi
    rw [addInstructionToROB, hsize]
    exact Function.update_of_ne hi _ _
  refine ⟨hsize, ?_, ?_, ?_, h.retired, ?_⟩
  · rw [addInstructionToROB, hsize]
    exact h.indices.push hn
  · intro i
    rw [hwindow, List.mem_append, List.mem_singleton]
    by_cases hi : i = last
    · subst hi
      rw [hentry]
      simp [ReorderBufferEntry.fresh]
    · rw [hother i hi, h.valid i]
      simp [hi]
  · have hold : s.rob.window.map (fun i =>
        ((s.rob.addInstructionToROB newInstruction threadID).1.ROB i).instruction) =
          s.rob.window.map (fun i => (s.rob.ROB i).instruction) := by
      apply List.map_congr_left
      intro i hi
      rw [hother i (fun heq => hnew (heq ▸ hi))]
    dsimp only
    rw [hwindow, List.map_append, hold, List.map_singleton, hentry, ← List.append_assoc,
      ← h.order]
    rfl
  · intro i hi hdone
    rw [hwindow, List.mem_append, List.mem_singleton] at hi
    rcases hi with hi | rfl
    · rw [hother i (fun heq => hnew (heq ▸ hi))] at hdone
      rw [number, hwindow, List.idxOf_append_of_mem hi]
      exact h.done i hi hdone
    · rw [hentry] at hdone
      simp [ReorderBufferEntry.fresh] at hdone

/-- A change of an entry in use that keeps its instruction. -/
theorem InOrder.setEntry (h : InOrder n s) {e : ReorderBufferEntry} {more : List ℕ}
    (hinstruction : e.instruction = (s.rob.ROB i).instruction)
    (hvalid : e.isValid = (s.rob.ROB i).isValid)
    (hdone : i ∈ s.rob.window → e.isWriteBackDone = true →
      (s.rob.ROB i).isWriteBackDone = true ∨ s.number i ∈ more) :
    InOrder n { s with
      rob := s.rob.setEntry i e
      writtenBack := s.writtenBack ++ more } := by
  have hentry : (s.rob.setEntry i e).ROB i = e := Function.update_self _ _ _
  have hother : ∀ j, j ≠ i → (s.rob.setEntry i e).ROB j = s.rob.ROB j :=
    fun j hj => Function.update_of_ne hj _ _
  refine ⟨h.size, h.indices, ?_, ?_, ?_, ?_⟩
  · intro j
    by_cases hj : j = i
    · subst hj
      dsimp only
      rw [hentry, hvalid]
      exact h.valid j
    · dsimp only
      rw [hother j hj]
      exact h.valid j
  · dsimp only
    rw [h.order]
    congr 1
    apply List.map_congr_left
    intro j _
    by_cases hj : j = i
    · rw [hj, hentry, hinstruction]
    · rw [hother j hj]
  · intro k hk
    exact List.mem_append_left _ (h.retired k hk)
  · intro j hj hjdone
    dsimp only at hj hjdone ⊢
    by_cases hji : j = i
    · subst hji
      rw [hentry] at hjdone
      rcases hdone hj hjdone with hwas | hmore
      · exact List.mem_append_left _ (h.done j hj hwas)
      · exact List.mem_append_right _ hmore
    · rw [hother j hji] at hjdone
      exact List.mem_append_left _ (h.done j hj hjdone)

theorem InOrder.size_pos (h : InOrder n s) (hn : 0 < n) (hhead : s.rob.head ≠ -1) :
    0 < RingIndices.size n s.rob.head s.rob.tail := by
  rw [Nat.pos_iff_ne_zero]
  intro hzero
  exact hhead ((h.indices.size_eq_zero_iff hn).mp hzero)

/-- The position at the head leaves the window. -/
theorem InOrder.window_retire (h : InOrder n s) (hn : 0 < n) (hhead : s.rob.head ≠ -1) :
    s.rob.window = s.rob.head.toNat :: s.retire.rob.window := by
  have hsize := h.size
  have hpos := h.size_pos hn hhead
  rw [window, hsize, h.indices.occupied_pop hpos, window, Recorded.retire,
    retireInstructionAtHead, hsize]

/-- The instruction at the head retires after its write-back. -/
theorem InOrder.retire (h : InOrder n s) (hn : 0 < n) (hhead : s.rob.head ≠ -1)
    (hdone : (s.rob.ROB s.rob.head.toNat).isWriteBackDone = true) : InOrder n s.retire := by
  have hsize := h.size
  have hpos := h.size_pos hn hhead
  have hwindow := h.window_retire hn hhead
  generalize hfirst : s.rob.head.toNat = first at hdone hwindow
  have hnodup := h.nodup
  rw [hwindow, List.nodup_cons] at hnodup
  have hlength : s.retire.retired.length = s.retired.length + 1 := by simp [Recorded.retire]
  have hentry : (s.retire.rob.ROB first).isValid = false := by
    rw [← hfirst]
    simp [Recorded.retire, retireInstructionAtHead]
  have hother : ∀ i, i ≠ first → s.retire.rob.ROB i = s.rob.ROB i := by
    intro i hi
    rw [← hfirst] at hi
    exact Function.update_of_ne hi _ _
  have hnumber : ∀ i ∈ s.retire.rob.window, s.retire.number i = s.number i := by
    intro i hi
    have hne : first ≠ i := fun heq => hnodup.1 (heq ▸ hi)
    rw [number, number, hlength, hwindow, List.idxOf_cons_ne _ hne]
    omega
  refine ⟨hsize, ?_, ?_, ?_, ?_, ?_⟩
  · rw [Recorded.retire, retireInstructionAtHead, hsize]
    exact h.indices.pop hpos
  · intro i
    by_cases hi : i = first
    · subst hi
      rw [hentry]
      simp [hnodup.1]
    · rw [hother i hi, h.valid i, hwindow, List.mem_cons]
      simp [hi]
  · have hold : s.retire.rob.window.map (fun i => (s.retire.rob.ROB i).instruction) =
        s.retire.rob.window.map (fun i => (s.rob.ROB i).instruction) := by
      apply List.map_congr_left
      intro i hi
      rw [hother i (fun heq => hnodup.1 (heq ▸ hi))]
    have horder := h.order
    rw [hwindow, List.map_cons] at horder
    rw [hold, Recorded.retire, hfirst, List.append_assoc]
    exact horder
  · intro k hk
    rw [hlength] at hk
    rcases Nat.lt_succ_iff_lt_or_eq.mp hk with hk | rfl
    · exact h.retired k hk
    · have hmem : first ∈ s.rob.window := by
        rw [hwindow]
        exact List.mem_cons_self
      have hnow := h.done first hmem hdone
      rw [number, hwindow, List.idxOf_cons_self, Nat.add_zero] at hnow
      exact hnow
  · intro i hi hidone
    rw [hnumber i hi]
    rw [hother i (fun heq => hnodup.1 (heq ▸ hi))] at hidone
    apply h.done i _ hidone
    rw [hwindow]
    exact List.mem_cons_of_mem _ hi

theorem InOrder.commitRounds {left : ℕ} (h : InOrder n s) (hn : 0 < n)
    (hstep : s.commitRounds lsqValid left = some t) : InOrder n t := by
  induction left generalizing s with
  | zero =>
    cases hstep
    exact h
  | succ left ih =>
    rw [Recorded.commitRounds] at hstep
    dsimp only at hstep
    split_ifs at hstep with hhead hdone hstore hlsq
    · cases hstep
      exact h
    · cases hstep
      exact h
    · exact ih (h.retire hn hhead hdone) hstep
    · cases hstep
      exact h

theorem InOrder.change {e : ReorderBufferEntry} (h : InOrder n s)
    (hkept : e.instruction = (s.rob.ROB i).instruction ∧ e.isValid = (s.rob.ROB i).isValid ∧
      e.isWriteBackDone = (s.rob.ROB i).isWriteBackDone) :
    InOrder n { s with rob := s.rob.setEntry i e } := by
  have hset : InOrder n { s with
      rob := s.rob.setEntry i e
      writtenBack := s.writtenBack ++ [] } :=
    h.setEntry hkept.1 hkept.2.1 (fun _ hdone => .inl (hkept.2.2 ▸ hdone))
  rwa [List.append_nil] at hset

theorem InOrder.writeBack (h : InOrder n s) (i : ℕ) :
    InOrder n { s with
      rob := s.rob.setEntry i { s.rob.ROB i with isWriteBackDone := true }
      writtenBack := s.writtenBack ++ (if i ∈ s.rob.window then [s.number i] else []) } := by
  refine h.setEntry (e := { s.rob.ROB i with isWriteBackDone := true }) rfl rfl ?_
  intro hi _
  rw [if_pos hi]
  exact .inr List.mem_cons_self

theorem InOrder.step (h : InOrder n s) (hn : 0 < n) {a : Action}
    (hstep : s.next retireWidth a = some t) : InOrder n t := by
  cases a with
  | addInstructionToROB newInstruction threadID =>
    rw [next] at hstep
    split at hstep
    · cases hstep
      exact h
    · rename_i hfull
      cases hstep
      exact h.add hn (by simpa using hfull) newInstruction threadID
  | change i e =>
    rw [next] at hstep
    split at hstep
    · rename_i hkept
      cases hstep
      exact h.change hkept
    · cases hstep
  | writeBack i =>
    cases hstep
    exact h.writeBack i
  | performCommits stalled lsqValid =>
    rw [next] at hstep
    split at hstep
    · cases hstep
      exact h
    · exact h.commitRounds hn hstep

/-! ### Every run -/

/-- The entries in use are exactly the positions from the head to the tail. A buffer with
a free position takes an instruction. The instructions that have retired are the first
ones that were added, and those in use are the others, in the order of their arrival. What
has retired had been written back. -/
structure Disciplined (retireWidth : ℕ) (s : Recorded) : Prop where
  valid : ∀ i, (s.rob.ROB i).isValid = true ↔ i ∈ s.rob.window
  accepts : s.rob.window.length < s.rob.MaxROBSize → ∀ newInstruction threadID,
    (s.next retireWidth (.addInstructionToROB newInstruction threadID)).map Recorded.added =
      some (s.added ++ [newInstruction])
  order : s.added = s.retired ++ s.rob.window.map (fun i => (s.rob.ROB i).instruction)
  writtenBack : ∀ k < s.retired.length, k ∈ s.writtenBack

/-- The buffer is in order in every run exactly if it has two positions at least. -/
theorem disciplined_iff (n retireWidth : ℕ) (hn : 1 ≤ n) :
    (∀ labels s, Run (StepOf (next retireWidth)) (new n) labels s →
      Disciplined retireWidth s) ↔ 2 ≤ n := by
  constructor
  · intro hall
    by_contra hsmall
    have hone : n = 1 := by omega
    subst hone
    have haccepts := (hall [] (new 1) .nil).accepts (by decide) .getNOPInstruction 0
    cases Option.some.inj haccepts
  · intro htwo labels s run
    have h : InOrder n s :=
      run.invariant (inOrder_new n) (fun _ _ _ h hstep => h.step hn hstep)
    refine ⟨h.valid, ?_, h.order, h.retired⟩
    intro hfree newInstruction threadID
    rw [h.size] at hfree
    rw [next, h.not_isFull htwo hfree]
    rfl

/-- An instruction goes through a buffer of two positions. -/
theorem disciplined_two :
    ∃ s, Run (StepOf (next 4)) (new 2)
        [.addInstructionToROB .getNOPInstruction 0, .writeBack 0,
          .performCommits false (fun _ => true)] s ∧
      s.retired = [.getNOPInstruction] ∧ Disciplined 4 s := by
  have hexec : (exec (next 4) (new 2)
      [.addInstructionToROB .getNOPInstruction 0, .writeBack 0,
        .performCommits false (fun _ => true)]).any
        (fun s => s.retired = [.getNOPInstruction]) = true := by decide
  obtain ⟨s, hs, hretired⟩ := (Option.any_eq_true _ _).mp hexec
  have hrun := run_of_exec hs
  exact ⟨s, hrun, of_decide_eq_true hretired,
    (disciplined_iff 2 4 (by decide)).mpr (Nat.le_refl 2) _ s hrun⟩

/-- An empty buffer of one position counts as full. -/
theorem one_position_accepts_nothing :
    ¬ ∀ n retireWidth labels s, 1 ≤ n → Run (StepOf (next retireWidth)) (new n) labels s →
      Disciplined retireWidth s := by
  intro hclaim
  have haccepts := (hclaim 1 1 [] (new 1) (Nat.le_refl 1) .nil).accepts (by decide)
    .getNOPInstruction 0
  cases Option.some.inj haccepts

end Recorded

end Tejas.ReorderBuffer
