import Tejas.OutOfOrderPipeline
import Tejas.SlotPool
import Mathlib.Data.Finset.Range

/-!
# The instruction window

`InstructionWindow.java` is an array of entries in no order. A ring of indices lists the
entries that are not in use: an insertion takes its first index, and a removal puts the
index of the entry behind its last one. The head of the ring is `-1` when no entry is left.
-/

namespace Tejas
open RingIndices SlotPool

/-- Why a step of the pipeline with the window does not end normally. -/
inductive WindowExit where
  /-- The step does not happen in the pipeline. -/
  | stage (exit : PipelineExit)
  /-- "Removing non issued entry from IW" -/
  | removingNonIssued
  /-- "already issued!" -/
  | alreadyIssued
  deriving DecidableEq, Repr

/-- `IWEntry.java`; the reorder buffer entry is named by its position. Both references are
null before the first use of the entry. -/
structure IWEntry where
  instruction : Option Instruction
  associatedROBEntry : Option ℕ
  isValid : Bool
  pos : ℕ
  deriving DecidableEq

/-- The field `opType`, which `setInstruction` keeps next to the instruction. -/
def IWEntry.opType (entry : IWEntry) : Option OperationType :=
  entry.instruction.map Instruction.operationType

def IWEntry.setValid (entry : IWEntry) (isValid : Bool) : IWEntry :=
  { entry with isValid := isValid }

/-- `InstructionWindow.java`. -/
structure InstructionWindow where
  IW : ℕ → IWEntry
  maxIWSize : ℕ
  availList : ℕ → ℕ
  availListHead : ℤ
  availListTail : ℤ

namespace InstructionWindow

def new (maxIWSize : ℕ) : InstructionWindow where
  IW i := ⟨none, none, false, i⟩
  maxIWSize := maxIWSize
  availList i := i
  availListHead := 0
  availListTail := maxIWSize - 1

/-- The index of an entry that is not in use; `none` is the result `-1`. -/
def findInvalidEntry (w : InstructionWindow) : Option (ℕ × InstructionWindow) :=
  if w.availListHead = -1 then none
  else some (w.availList w.availListHead.toNat, { w with
    availListHead := popHead w.maxIWSize w.availListHead w.availListTail
    availListTail := popTail w.availListHead w.availListTail })

/-- The index of the new entry, and `none` if the window is full. -/
def addToWindow (w : InstructionWindow) (instruction : Instruction) (ROBEntry : ℕ) :
    Option (ℕ × InstructionWindow) :=
  match w.findInvalidEntry with
  | none => none
  | some (index, w) => some (index, { w with
      IW := Function.update w.IW index
        ⟨some instruction, some ROBEntry, true, (w.IW index).pos⟩ })

/-- The entry at an index is removed, with the reorder buffer that it refers to. -/
def removeFromWindow (w : InstructionWindow) (ROB : ℕ → ReorderBufferEntry) (i : ℕ) :
    Except WindowExit InstructionWindow :=
  match (w.IW i).associatedROBEntry with
  | none => .error (.stage .exception)
  | some ROBEntry =>
    if (ROB ROBEntry).isIssued = false then .error .removingNonIssued
    else
      let tail := pushTail w.maxIWSize w.availListTail
      .ok { w with
        IW := Function.update w.IW i ((w.IW i).setValid false)
        availListTail := tail
        availList := Function.update w.availList tail.toNat (w.IW i).pos
        availListHead := if w.availListHead = -1 then tail else w.availListHead }

def isFull (w : InstructionWindow) : Bool := w.availListHead = -1

/-! ### The window as a pool of entries -/

/-- The indices between the head and the tail of the ring. -/
def freeList (w : InstructionWindow) : List ℕ :=
  (occupied w.maxIWSize w.availListHead w.availListTail).map w.availList

/-- The free entries, the valid ones, and a history of the insertions and removals. -/
def pool (w : InstructionWindow) (history : List (SlotPool.Event ℕ)) : Pool ℕ where
  free := w.freeList
  inUse i := i < w.maxIWSize ∧ (w.IW i).isValid = true
  history := history

/-- The ring is in order, the entries keep their index, and none of them is lost. -/
structure Sound (w : InstructionWindow) (history : List (SlotPool.Event ℕ)) : Prop where
  nonempty : 0 < w.maxIWSize
  indices : Bounded w.maxIWSize w.availListHead w.availListTail
  pos : ∀ i < w.maxIWSize, (w.IW i).pos = i
  conserved : Conserved (Finset.range w.maxIWSize) (w.pool history)

variable {w w' : InstructionWindow} {history : List (SlotPool.Event ℕ)} {instruction : Instruction}
  {ROBEntry i : ℕ} {ROB : ℕ → ReorderBufferEntry}

theorem sound_new {maxIWSize : ℕ} (h : 1 ≤ maxIWSize) : (new maxIWSize).Sound [] := by
  have hindices : Bounded maxIWSize 0 (maxIWSize - 1) :=
    .inr (.inl ⟨le_refl _, by omega, by omega, by omega⟩)
  have hsize : size maxIWSize 0 (maxIWSize - 1) = maxIWSize := by
    rw [size, if_neg (by decide), if_pos (by omega)]
    omega
  have hfree : (new maxIWSize).freeList = List.range maxIWSize := by
    rw [freeList, new, occupied, hsize]
    simp only [List.map_id', RingWindow.slotsFrom, RingWindow.slot]
    refine (List.map_congr_left fun i hi => ?_).trans (List.map_id _)
    simpa using Nat.mod_eq_of_lt (List.mem_range.mp hi)
  refine ⟨h, hindices, fun _ _ => rfl, ?_⟩
  have hpool : (new maxIWSize).pool [] = ⟨List.range maxIWSize, fun _ => False, []⟩ := by
    rw [pool, hfree]
    simp [new]
  rw [hpool]
  exact .start List.nodup_range fun i => by simp [new]

/-- An insertion asks only for the head of the ring. -/
theorem addToWindow_eq_none_iff_head :
    w.addToWindow instruction ROBEntry = none ↔ w.availListHead = -1 := by
  rw [addToWindow, findInvalidEntry]
  split_ifs with hhead <;> simp [hhead]

namespace Sound

/-- The ring has no index left exactly when its head is `-1`. -/
theorem freeList_eq_nil_iff (h : w.Sound history) : w.freeList = [] ↔ w.availListHead = -1 := by
  rw [freeList, List.map_eq_nil_iff, ← List.length_eq_zero_iff, length_occupied,
    h.indices.size_eq_zero_iff h.nonempty]

/-- An insertion fails exactly when all entries are valid. -/
theorem addToWindow_eq_none_iff (h : w.Sound history) :
    w.addToWindow instruction ROBEntry = none ↔
      ∀ i < w.maxIWSize, (w.IW i).isValid = true := by
  rw [addToWindow_eq_none_iff_head, ← h.freeList_eq_nil_iff,
    show w.freeList = (w.pool history).free from rfl, h.conserved.free_eq_nil_iff]
  refine forall_congr' fun i => ?_
  rw [Finset.mem_range]
  exact ⟨fun hall hi => (hall hi).2, fun hall hi => ⟨hi, hall hi⟩⟩

/-- The search takes the first index off the ring and leaves the entries alone. -/
theorem findInvalidEntry_spec (h : w.Sound history) (hfind : w.findInvalidEntry = some (i, w')) :
    w.freeList = i :: w'.freeList ∧
      Bounded w'.maxIWSize w'.availListHead w'.availListTail ∧
      w'.maxIWSize = w.maxIWSize ∧ w'.IW = w.IW := by
  rw [findInvalidEntry] at hfind
  split_ifs at hfind with hhead
  obtain ⟨rfl, rfl⟩ := Prod.mk.inj (Option.some.inj hfind)
  have hsize : 0 < size w.maxIWSize w.availListHead w.availListTail := by
    rw [Nat.pos_iff_ne_zero, Ne, h.indices.size_eq_zero_iff h.nonempty]
    exact hhead
  refine ⟨?_, h.indices.pop hsize, rfl, rfl⟩
  rw [freeList, h.indices.occupied_pop hsize, List.map_cons]
  rfl

/-- An insertion takes the first free index. -/
theorem addToWindow_spec (h : w.Sound history)
    (hadd : w.addToWindow instruction ROBEntry = some (i, w')) :
    w'.Sound (history ++ [.taken i]) ∧ i < w.maxIWSize ∧ (w.IW i).isValid = false ∧
      w'.maxIWSize = w.maxIWSize ∧
      w'.IW = Function.update w.IW i ⟨some instruction, some ROBEntry, true, i⟩ := by
  rw [addToWindow] at hadd
  split at hadd
  · cases hadd
  rename_i index u hfind
  obtain ⟨rfl, rfl⟩ := Prod.mk.inj (Option.some.inj hadd)
  obtain ⟨hfree, hindices, hmax, hIW⟩ := h.findInvalidEntry_spec hfind
  have hmem : index ∈ (w.pool history).free := by
    change index ∈ w.freeList
    rw [hfree]
    exact List.mem_cons_self
  obtain ⟨hslot, hunused⟩ := (h.conserved.mem_free _).mp hmem
  rw [Finset.mem_range] at hslot
  have hinvalid : (w.IW index).isValid = false := by
    rw [← Bool.not_eq_true]
    exact fun hvalid => hunused ⟨hslot, hvalid⟩
  have hupdate : Function.update u.IW index
        ⟨some instruction, some ROBEntry, true, (u.IW index).pos⟩ =
      Function.update w.IW index ⟨some instruction, some ROBEntry, true, index⟩ := by
    rw [hIW, h.pos index hslot]
  refine ⟨⟨?_, hindices, fun i hi => ?_, ?_⟩, hslot, hinvalid, hmax, hupdate⟩
  · rw [← hmax] at hslot
    exact Nat.zero_lt_of_lt hslot
  · simp only [hupdate]
    by_cases heq : i = index
    · rw [heq, Function.update_self]
    · rw [Function.update_of_ne heq]
      exact h.pos i (hmax ▸ hi)
  · have htake := h.conserved.take hfree
    rw [← hmax] at htake
    refine (congrArg (Conserved _) ?_).mp htake
    rw [Pool.take, pool, hupdate]
    congr 1
    funext i
    by_cases heq : i = index
    · rw [heq, hmax]
      simp [hslot]
    · simp [hmax, heq]

/-- An index that is written behind the tail of the ring is the last free one. -/
theorem freeList_push (h : w.Sound history)
    (hroom : size w.maxIWSize w.availListHead w.availListTail < w.maxIWSize) (i : ℕ) :
    w.freeList ++ [i] =
      (occupied w.maxIWSize (pushHead w.availListHead) (pushTail w.maxIWSize w.availListTail)).map
        (Function.update w.availList (pushTail w.maxIWSize w.availListTail).toNat i) := by
  have hnew := h.indices.pushTail_not_mem hroom
  rw [h.indices.occupied_push hroom, List.map_append, List.map_singleton, Function.update_self,
    freeList]
  congr 1
  refine List.map_congr_left fun j hj => (Function.update_of_ne ?_ _ _).symm
  rintro rfl
  exact hnew hj

/-- The removal of a valid entry whose instruction is issued succeeds, and its index is the
last free one. -/
theorem removeFromWindow_spec (h : w.Sound history) (hi : i < w.maxIWSize)
    (hvalid : (w.IW i).isValid = true) (hentry : (w.IW i).associatedROBEntry = some ROBEntry)
    (hissued : (ROB ROBEntry).isIssued = true) :
    ∃ w', w.removeFromWindow ROB i = .ok w' ∧ w'.Sound (history ++ [.returned i]) ∧
      w'.maxIWSize = w.maxIWSize ∧
      w'.IW = Function.update w.IW i ((w.IW i).setValid false) := by
  have hused : (w.pool history).inUse i := ⟨hi, hvalid⟩
  have hroom : size w.maxIWSize w.availListHead w.availListTail < w.maxIWSize := by
    have hlength := h.conserved.length_free_lt hused
    rw [Finset.card_range] at hlength
    rwa [← length_occupied, ← List.length_map w.availList]
  -- the slot behind an empty ring is the first one, so the new head is that of a push
  have hhead : (if w.availListHead = -1 then pushTail w.maxIWSize w.availListTail
      else w.availListHead) = pushHead w.availListHead := by
    rw [pushHead]
    split_ifs with hempty
    · rw [h.indices.pushTail_eq h.nonempty]
      rcases h.indices with ⟨-, htail⟩ | ⟨h0, -⟩ | ⟨-, h0, -⟩
      · rw [htail]
        split_ifs <;> omega
      · omega
      · omega
    · rfl
  obtain ⟨tail, htail⟩ : ∃ tail, tail = pushTail w.maxIWSize w.availListTail := ⟨_, rfl⟩
  refine ⟨{ w with
    IW := Function.update w.IW i ((w.IW i).setValid false)
    availListTail := tail
    availList := Function.update w.availList tail.toNat (w.IW i).pos
    availListHead := pushHead w.availListHead }, ?_, ⟨h.nonempty, ?_, fun j hj => ?_, ?_⟩,
    rfl, rfl⟩
  · rw [removeFromWindow, hentry]
    simp only [hissued, Bool.true_eq_false, if_false, hhead, htail]
  · rw [htail]
    exact h.indices.push h.nonempty
  · change (Function.update w.IW i ((w.IW i).setValid false) j).pos = j
    by_cases hji : j = i
    · rw [hji, Function.update_self]
      exact h.pos i hi
    · rw [Function.update_of_ne hji]
      exact h.pos j hj
  · refine (congrArg (Conserved _) ?_).mp (h.conserved.giveBack hused)
    rw [Pool.giveBack, pool]
    congr 1
    · rw [h.freeList_push hroom i, htail, h.pos i hi]
      rfl
    · funext j
      by_cases hji : j = i
      · rw [hji]
        simp [IWEntry.setValid]
      · simp [hji]

/-- Every index is free, once, or that of exactly one valid entry. -/
theorem free_or_valid (h : w.Sound history) (hi : i < w.maxIWSize) :
    (w.freeList.count i = 1 ∧ ∀ j < w.maxIWSize, (w.IW j).isValid = true → (w.IW j).pos ≠ i) ∨
      (w.freeList.count i = 0 ∧
        ∃! j, j < w.maxIWSize ∧ (w.IW j).isValid = true ∧ (w.IW j).pos = i) := by
  rcases h.conserved.count_free (Finset.mem_range.mpr hi) with ⟨hcount, hunused⟩ | ⟨hcount, hused⟩
  · refine .inl ⟨hcount, fun j hj hvalid hpos => hunused ?_⟩
    rw [h.pos j hj] at hpos
    rw [← hpos]
    exact ⟨hj, hvalid⟩
  · refine .inr ⟨hcount, i, ⟨hi, hused.2, h.pos i hi⟩, ?_⟩
    rintro j ⟨hj, -, hpos⟩
    rw [← hpos, h.pos j hj]

end Sound

end InstructionWindow

end Tejas
