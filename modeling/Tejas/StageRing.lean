import Tejas.InorderPipeline
import Tejas.RingIndices

/-!
# The latches of the in-order pipeline as rings

`StageLatch_MII` keeps its instructions and the times at which they complete in two arrays
with a head, a tail and a number of entries. A latch that is never filled beyond its size is
the list of its entries.
-/

namespace Tejas
open RingWindow RingIndices

/-- `StageLatch_MII`; a null entry of the array is `none`. -/
structure StageRing (α : Type) where
  size : ℕ
  instructions : ℕ → Option α
  instructionCompletesAt : ℕ → ℤ
  head : ℤ
  tail : ℤ
  curSize : ℕ

namespace StageRing

variable {α : Type}

def new (size : ℕ) : StageRing α := ⟨size, fun _ => none, fun _ => 0, -1, -1, 0⟩

def isFull (r : StageRing α) : Bool := r.curSize ≥ r.size

def isEmpty (r : StageRing α) : Bool := r.curSize ≤ 0

/-- The head and the tail after `add`. -/
def addIndices (r : StageRing α) : ℤ × ℤ :=
  if r.tail = -1 then (0, 0) else (r.head, (r.tail + 1) % r.size)

def add (r : StageRing α) (newInstruction : α) (instCompletesAt : ℤ) : StageRing α :=
  let (head, tail) := r.addIndices
  { r with
    instructions := Function.update r.instructions tail.toNat (some newInstruction)
    instructionCompletesAt := Function.update r.instructionCompletesAt tail.toNat instCompletesAt
    head := head
    tail := tail
    curSize := r.curSize + 1 }

def peek (r : StageRing α) (now : ℤ) (pos : ℕ) : Option α :=
  if r.curSize ≤ pos then none
  else
    let retPos := ((r.head + pos) % r.size).toNat
    if r.instructionCompletesAt retPos > now then none else r.instructions retPos

/-- `getInstructionCompletesAt` of what `peek(0)` returned: no other slot holds this object. -/
def getInstructionCompletesAt (r : StageRing α) : ℤ := r.instructionCompletesAt r.head.toNat

/-- The instruction that is returned, and the latch without it. -/
def poll (r : StageRing α) (now : ℤ) : Option α × StageRing α :=
  if r.curSize ≤ 0 then (none, r)
  else if r.instructionCompletesAt r.head.toNat > now then (none, r)
  else
    let polled := { r with
      instructions := Function.update r.instructions r.head.toNat none
      curSize := r.curSize - 1 }
    (r.instructions r.head.toNat,
      if r.head = r.tail then { polled with head := -1, tail := -1 }
      else { polled with head := (r.head + 1) % r.size })

/-- The loop over the arrays: what a condition holds of and is not complete completes now. -/
def complete (r : StageRing α) (awaits : α → Bool) (now : ℤ) : StageRing α :=
  { r with
    instructionCompletesAt := fun i =>
      if i < r.size ∧ (r.instructions i).any awaits ∧ r.instructionCompletesAt i > now then now
      else r.instructionCompletesAt i }

/-! ### The entries of a latch -/

/-- The slots in use, from the head on. -/
def slots (r : StageRing α) : List ℕ := occupied r.size r.head r.tail

/-- The instructions with the times at which they complete, from the head on. -/
def entries (r : StageRing α) : List (α × ℤ) :=
  r.slots.filterMap fun i => (r.instructions i).map fun ins => (ins, r.instructionCompletesAt i)

/-- The indices are in order, and exactly the slots in use hold an instruction. -/
structure Sound (r : StageRing α) : Prop where
  indices : Bounded r.size r.head r.tail
  curSize : r.curSize = RingIndices.size r.size r.head r.tail
  isSome_iff : ∀ i < r.size, (r.instructions i).isSome = true ↔ i ∈ r.slots

variable {r : StageRing α} {now t : ℤ} {ins : α} {n : ℕ}

theorem sound_new (n : ℕ) : (new n : StageRing α).Sound := by
  refine ⟨.inl ⟨rfl, rfl⟩, (size_empty n (-1)).symm, fun i _ => ?_⟩
  simp [new, slots, occupied, slotsFrom]

@[simp] theorem entries_new (n : ℕ) : (new n : StageRing α).entries = [] := by
  simp [entries, slots, occupied, new, slotsFrom]

namespace Sound

/-- The instruction in a slot in use. -/
theorem exists_instruction (h : r.Sound) {i : ℕ} (hi : i ∈ r.slots) :
    ∃ ins, r.instructions i = some ins :=
  Option.isSome_iff_exists.mp ((h.isSome_iff i (h.indices.lt_of_mem_occupied hi)).mpr hi)

theorem length_entries (h : r.Sound) : r.entries.length = r.curSize := by
  have hall : ∀ l : List ℕ, (∀ i ∈ l, i ∈ r.slots) → (l.filterMap fun i =>
      (r.instructions i).map fun ins => (ins, r.instructionCompletesAt i)).length = l.length := by
    intro l hl
    induction l with
    | nil => rfl
    | cons i rest ih =>
      obtain ⟨ins, hins⟩ := h.exists_instruction (hl i List.mem_cons_self)
      rw [List.filterMap_cons, hins, Option.map_some, List.length_cons,
        ih fun j hj => hl j (List.mem_cons_of_mem _ hj), List.length_cons]
  rw [entries, hall r.slots fun _ hi => hi, slots, length_occupied, h.curSize]

/-- The entries are what the array holds, in whatever slot. -/
theorem mem_entries_iff (h : r.Sound) : (ins, t) ∈ r.entries ↔
    ∃ i < r.size, r.instructions i = some ins ∧ r.instructionCompletesAt i = t := by
  simp only [entries, List.mem_filterMap, Option.map_eq_some_iff, Prod.mk.injEq]
  constructor
  · rintro ⟨i, hi, found, hfound, rfl, rfl⟩
    exact ⟨i, h.indices.lt_of_mem_occupied hi, hfound, rfl⟩
  · rintro ⟨i, hi, hins, htime⟩
    exact ⟨i, (h.isSome_iff i hi).mp (by rw [hins]; rfl), ins, hins, rfl, htime⟩

theorem isEmpty_iff (h : r.Sound) : r.isEmpty = true ↔ r.entries = [] := by
  rw [← List.length_eq_zero_iff, h.length_entries, isEmpty, decide_eq_true_eq, Nat.le_zero]

theorem isFull_iff (h : r.Sound) : r.isFull = true ↔ r.size ≤ r.entries.length := by
  rw [h.length_entries, isFull, decide_eq_true_eq]

/-- The indices after `add` are those of a ring that is filled at its end. -/
theorem addIndices_eq (h : r.Sound) (hroom : r.curSize < r.size) :
    r.addIndices = (pushHead r.head, pushTail r.size r.tail) := by
  rw [addIndices, pushHead, pushTail]
  rcases h.indices with ⟨hhead, htail⟩ | ⟨h0, hn, t0, tn⟩ | ⟨hsize, -, -⟩
  · rw [if_pos htail, if_pos hhead, htail]
    simp
  · rw [if_neg (by omega), if_neg (by omega)]
  · omega

/-- What is added is the last entry. -/
theorem add (h : r.Sound) (ins : α) (t : ℤ) (hroom : r.curSize < r.size) :
    (r.add ins t).Sound ∧ (r.add ins t).entries = r.entries ++ [(ins, t)] := by
  have hsize : RingIndices.size r.size r.head r.tail < r.size := by
    rw [← h.curSize]
    exact hroom
  have hnew := h.indices.pushTail_not_mem hsize
  have hocc := h.indices.occupied_push hsize
  have hslots : (r.add ins t).slots = r.slots ++ [(pushTail r.size r.tail).toNat] := by
    rw [slots, StageRing.add, h.addIndices_eq hroom]
    exact hocc
  refine ⟨⟨?_, ?_, fun i hi => ?_⟩, ?_⟩
  · rw [StageRing.add, h.addIndices_eq hroom]
    exact h.indices.push (by omega)
  · rw [StageRing.add, h.addIndices_eq hroom, h.indices.size_push hsize, ← h.curSize]
  · rw [hslots, StageRing.add, h.addIndices_eq hroom]
    by_cases heq : i = (pushTail r.size r.tail).toNat
    · simp [heq]
    · simp only [Function.update_of_ne heq, List.mem_append, List.mem_singleton, heq, or_false]
      exact h.isSome_iff i hi
  · rw [entries, hslots, List.filterMap_append, StageRing.add, h.addIndices_eq hroom, entries]
    congr 1
    · refine List.filterMap_congr fun i hi => ?_
      have hne : i ≠ (pushTail r.size r.tail).toNat := by
        rintro rfl
        exact hnew hi
      simp only [Function.update_of_ne hne]
    · simp

/-- The slots of a latch that is not empty begin with its head. -/
theorem entries_cons (h : r.Sound) (hpos : 0 < r.curSize) :
    ∃ ins rest, r.instructions r.head.toNat = some ins ∧
      r.entries = (ins, r.instructionCompletesAt r.head.toNat) :: rest ∧
      rest = (occupied r.size (popHead r.size r.head r.tail) (popTail r.head r.tail)).filterMap
        fun i => (r.instructions i).map fun ins => (ins, r.instructionCompletesAt i) := by
  have hsize : 0 < RingIndices.size r.size r.head r.tail := by
    rw [← h.curSize]
    exact hpos
  have hslots : r.slots = _ := h.indices.occupied_pop hsize
  obtain ⟨ins, hins⟩ := h.exists_instruction (by rw [hslots]; exact List.mem_cons_self)
  refine ⟨ins, _, hins, ?_, rfl⟩
  rw [entries, hslots, List.filterMap_cons, hins, Option.map_some]

theorem head_emod (h : r.Sound) (hpos : 0 < r.curSize) :
    ((r.head + (0 : ℕ)) % r.size).toNat = r.head.toNat := by
  rw [Nat.cast_zero, add_zero]
  rcases h.indices with ⟨hhead, -⟩ | ⟨h0, hn, -, -⟩ | ⟨hsize, -, -⟩
  · rw [h.curSize, hhead, size_empty] at hpos
    omega
  · rw [Int.emod_eq_of_lt h0 hn]
  · have hle := h.indices.size_le
    rw [← h.curSize] at hle
    omega

/-- What `peek` finds is the first entry, and complete; `poll` takes it out of the latch. -/
theorem poll_of_peek (h : r.Sound) (hpeek : r.peek now 0 = some ins) :
    ∃ rest, r.getInstructionCompletesAt ≤ now ∧
      r.entries = (ins, r.getInstructionCompletesAt) :: rest ∧ (r.poll now).1 = some ins ∧
      (r.poll now).2.Sound ∧ (r.poll now).2.entries = rest ∧ (r.poll now).2.size = r.size := by
  have hpos : 0 < r.curSize := by
    rw [peek] at hpeek
    split_ifs at hpeek with hempty
    omega
  obtain ⟨ins', rest, hins, hentries, hrest⟩ := h.entries_cons hpos
  rw [peek, if_neg (by omega)] at hpeek
  simp only [h.head_emod hpos, hins] at hpeek
  split_ifs at hpeek with hlate
  obtain rfl := Option.some.inj hpeek
  have hsize : 0 < RingIndices.size r.size r.head r.tail := by
    rw [← h.curSize]
    exact hpos
  have hpop := h.indices.occupied_pop hsize
  have hnodup := h.indices.occupied_nodup
  rw [hpop, List.nodup_cons] at hnodup
  obtain ⟨u, hu⟩ : ∃ u : StageRing α, u = { r with
      instructions := Function.update r.instructions r.head.toNat none
      curSize := r.curSize - 1
      head := popHead r.size r.head r.tail
      tail := popTail r.head r.tail } := ⟨_, rfl⟩
  have hpoll : r.poll now = (some ins', u) := by
    rw [StageRing.poll, if_neg (by omega), if_neg hlate, hins, hu, popHead, popTail]
    simp only
    split_ifs <;> rfl
  have hlength := congrArg List.length hpop
  rw [length_occupied, List.length_cons, length_occupied, ← h.curSize] at hlength
  rw [hpoll]
  refine ⟨rest, not_lt.mp hlate, hentries, rfl, ⟨?_, ?_, fun i hi => ?_⟩, ?_, by rw [hu]⟩
  · rw [hu]
    exact h.indices.pop hsize
  · rw [hu]
    simp only
    omega
  · have hold := h.isSome_iff i (by rw [hu] at hi; exact hi)
    rw [show r.slots = _ from hpop, List.mem_cons] at hold
    rw [hu, slots]
    by_cases heq : i = r.head.toNat
    · simp only [heq, Function.update_self]
      exact ⟨fun hfalse => (by cases hfalse), fun hmem => absurd hmem hnodup.1⟩
    · simp only [Function.update_of_ne heq]
      rw [hold]
      simp [heq]
  · rw [hrest, hu, entries, slots]
    refine List.filterMap_congr fun i hi => ?_
    have hne : i ≠ r.head.toNat := by
      rintro rfl
      exact hnodup.1 hi
    simp only [Function.update_of_ne hne]

theorem complete (h : r.Sound) (awaits : α → Bool) (now : ℤ) :
    (r.complete awaits now).Sound ∧ (r.complete awaits now).entries =
      r.entries.map fun e => if awaits e.1 ∧ e.2 > now then (e.1, now) else e := by
  refine ⟨⟨h.indices, h.curSize, h.isSome_iff⟩, ?_⟩
  rw [entries, entries, List.map_filterMap]
  refine List.filterMap_congr fun i hi => ?_
  obtain ⟨ins, hins⟩ := h.exists_instruction hi
  have hlt := h.indices.lt_of_mem_occupied hi
  rw [show (r.complete awaits now).instructions i = r.instructions i from rfl, hins,
    Option.map_some, Option.map_some, Option.map_some, StageRing.complete]
  simp only [hlt, hins, Option.any_some, true_and]
  split_ifs <;> rfl

end Sound

/-! ### The list of the entries -/

/-- The ring holds what the list holds, as the pipeline sees the instructions. -/
structure Represents (view : α → FetchedInstruction) (r : StageRing α) (latch : StageLatch) :
    Prop where
  sound : r.Sound
  size : r.size = latch.size
  entries : (r.entries.map fun e => (view e.1, e.2)) =
    latch.entries.map fun e => (e.instruction, e.instructionCompletesAt)

namespace Represents

variable {view : α → FetchedInstruction} {latch : StageLatch} {e : LatchEntry}

theorem new (n : ℕ) : Represents view (StageRing.new n : StageRing α) (StageLatch.new n) :=
  ⟨sound_new n, rfl, by simp [StageLatch.new]⟩

theorem length_eq (h : Represents view r latch) : r.entries.length = latch.entries.length := by
  simpa using congrArg List.length h.entries

theorem isFull (h : Represents view r latch) : r.isFull = latch.isFull := by
  rw [Bool.eq_iff_iff, h.sound.isFull_iff, h.length_eq, h.size, StageLatch.isFull,
    decide_eq_true_eq]

theorem isEmpty (h : Represents view r latch) : r.isEmpty = latch.isEmpty := by
  rw [Bool.eq_iff_iff, h.sound.isEmpty_iff, ← List.length_eq_zero_iff, h.length_eq,
    List.length_eq_zero_iff, StageLatch.isEmpty, List.isEmpty_iff]

theorem add (h : Represents view r latch) (hroom : latch.isFull = false)
    (hview : view ins = e.instruction) :
    Represents view (r.add ins e.instructionCompletesAt) (latch.add e) := by
  have hlt : r.curSize < r.size := by
    rw [← h.isFull, StageRing.isFull, decide_eq_false_iff_not] at hroom
    omega
  obtain ⟨hsound, hentries⟩ := h.sound.add ins e.instructionCompletesAt hlt
  refine ⟨hsound, h.size, ?_⟩
  rw [hentries, List.map_append, h.entries, StageLatch.add, List.map_append, List.map_singleton,
    hview]
  rfl

/-- Both find nothing that is complete. -/
theorem peek_none (h : Represents view r latch) (hpeek : r.peek now 0 = none) :
    latch.peek now = none := by
  rw [StageLatch.peek]
  cases hentries : latch.entries with
  | nil => rfl
  | cons e rest =>
    rw [List.head?_cons, Option.filter_some, if_neg]
    intro hready
    have hpos : 0 < r.curSize := by
      rw [← h.sound.length_entries, h.length_eq, hentries]
      exact Nat.succ_pos _
    obtain ⟨ins, rest', hins, hcons, -⟩ := h.sound.entries_cons hpos
    have hfirst := h.entries
    rw [hentries, hcons, List.map_cons, List.map_cons] at hfirst
    have htime : r.instructionCompletesAt r.head.toNat = e.instructionCompletesAt :=
      congrArg Prod.snd (List.cons.inj hfirst).1
    rw [decide_eq_true_eq] at hready
    rw [StageRing.peek, if_neg (by omega)] at hpeek
    simp only [h.sound.head_emod hpos, hins] at hpeek
    rw [if_neg (by omega)] at hpeek
    cases hpeek

/-- Both find the same instruction, and let it go. -/
theorem peek_some (h : Represents view r latch) (hpeek : r.peek now 0 = some ins) :
    ∃ e, latch.peek now = some e ∧ view ins = e.instruction ∧
      e.instructionCompletesAt = r.getInstructionCompletesAt ∧
      Represents view (r.poll now).2 (latch.poll now) := by
  obtain ⟨rest, hready, hentries, -, hsound, hrest, hsize⟩ := h.sound.poll_of_peek hpeek
  have hfirst := h.entries
  rw [hentries] at hfirst
  cases hlatch : latch.entries with
  | nil =>
    rw [hlatch] at hfirst
    cases hfirst
  | cons e later =>
    rw [hlatch, List.map_cons, List.map_cons] at hfirst
    obtain ⟨hhead, htail⟩ := List.cons.inj hfirst
    obtain ⟨hins, htime⟩ := Prod.mk.inj hhead
    have hpeek' : latch.peek now = some e := by
      rw [StageLatch.peek, hlatch, List.head?_cons, Option.filter_some,
        if_pos (decide_eq_true (htime ▸ hready))]
    refine ⟨e, hpeek', hins, htime.symm, hsound, ?_, ?_⟩
    · rw [hsize, h.size, StageLatch.poll, hpeek']
      rfl
    · rw [hrest, htail, StageLatch.poll, hpeek']
      simp [hlatch]

end Represents

end StageRing

end Tejas
