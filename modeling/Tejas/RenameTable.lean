import Tejas.RegisterPool
import Tejas.RingIndices

/-!
# The rename table of one register file

`RenameTable.java` maps the registers of every thread to physical registers and keeps
the unused physical registers in a ring. The register file beside it marks the physical
registers whose values have been written back.
-/

namespace Tejas
open RingWindow RingIndices RegisterPool

/-- How a step of the pipeline can end other than in a new state. -/
inductive PipelineExit where
  /-- "available register list overflow!!" -/
  | registerListOverflow
  /-- "cannot complete execution of this instruction" -/
  | cannotCompleteExecution
  /-- "cannot push an instruction that hasn't been renamed" -/
  | cannotPush
  /-- "cannot issue this instruction" -/
  | cannotIssue
  /-- An exception of the language, such as an index out of bounds. -/
  | exception
  /-- There is nothing to do, or the stage stalls. -/
  | stall
  deriving DecidableEq, Repr

/-- `RenameTable.java` with the `valueValid` array of its register file. -/
structure RenameTable where
  nArchRegisters : ℕ
  nPhyRegisters : ℕ
  noOfThreads : ℕ
  mappingValid : ℕ → Bool
  valueValid : ℕ → Bool
  archToPhyMapping : ℕ → ℕ → ℕ
  registerFile : ℕ → Bool
  availableList : ℕ → ℕ
  availableListHead : ℤ
  availableListTail : ℤ

namespace RenameTable

/-- The arrays as the constructor fills them. -/
def initial (nArchRegisters nPhyRegisters noOfThreads : ℕ) : RenameTable where
  nArchRegisters := nArchRegisters
  nPhyRegisters := nPhyRegisters
  noOfThreads := noOfThreads
  mappingValid p := p < noOfThreads * nArchRegisters
  valueValid p := p < noOfThreads * nArchRegisters
  archToPhyMapping j i := j * nArchRegisters + i
  registerFile _ := true
  availableList i := nArchRegisters * noOfThreads + i
  availableListHead := 0
  availableListTail := (nPhyRegisters - nArchRegisters * noOfThreads : ℕ) - 1

/-- The constructor; `none` is the exit "too many threads, not enough registers!". -/
def new (nArchRegisters nPhyRegisters noOfThreads : ℕ) : Option RenameTable :=
  if noOfThreads * nArchRegisters > nPhyRegisters then none
  else some (initial nArchRegisters nPhyRegisters noOfThreads)

/-- The length of the array of the available list. -/
def availableListLength (t : RenameTable) : ℕ :=
  t.nPhyRegisters - t.nArchRegisters * t.noOfThreads

def getAvailableListSize (t : RenameTable) : ℕ :=
  size t.availableListLength t.availableListHead t.availableListTail

def addToAvailableList (t : RenameTable) (phyRegNum : ℕ) : Except PipelineExit RenameTable :=
  if t.getAvailableListSize ≥ t.availableListLength then .error .registerListOverflow
  else
    let tail := pushTail t.availableListLength t.availableListTail
    .ok { t with
      availableListTail := tail
      availableList := Function.update t.availableList tail.toNat phyRegNum
      availableListHead := pushHead t.availableListHead }

/-- The list must not be empty. -/
def removeFromAvailableList (t : RenameTable) : ℕ × RenameTable :=
  (t.availableList t.availableListHead.toNat,
    { t with
      availableListHead := popHead t.availableListLength t.availableListHead t.availableListTail
      availableListTail := popTail t.availableListHead t.availableListTail })

/-- Thread and register are within the bounds of the mapping. -/
def InBounds (t : RenameTable) (threadID archReg : ℕ) : Prop :=
  threadID < t.noOfThreads ∧ archReg < t.nArchRegisters

instance (t : RenameTable) (threadID archReg : ℕ) : Decidable (t.InBounds threadID archReg) :=
  inferInstanceAs (Decidable (_ ∧ _))

def getPhysicalRegister (t : RenameTable) (threadID archReg : ℕ) : Except PipelineExit ℕ :=
  if t.InBounds threadID archReg then .ok (t.archToPhyMapping threadID archReg)
  else .error .exception

/-- The current version of a register becomes `newPhyReg`, without a value. -/
def remap (t : RenameTable) (threadID archReg newPhyReg : ℕ) : RenameTable :=
  { t with
    valueValid := Function.update t.valueValid newPhyReg false
    registerFile := Function.update t.registerFile newPhyReg false
    archToPhyMapping := Function.update t.archToPhyMapping threadID
      (Function.update (t.archToPhyMapping threadID) archReg newPhyReg) }

def setMappingValid (t : RenameTable) (mappingValid : Bool) (index : ℕ) : RenameTable :=
  { t with mappingValid := Function.update t.mappingValid index mappingValid }

/-- The old version is free if its value is in the register file. -/
def release (t : RenameTable) (oldPhyReg : ℕ) : Except PipelineExit RenameTable :=
  if t.registerFile oldPhyReg then t.addToAvailableList oldPhyReg
  else .ok (t.setMappingValid false oldPhyReg)

/-- The new physical register, or `none` for the result `-1` when no register is free. -/
def allocatePhysicalRegister (t : RenameTable) (threadID archReg : ℕ) :
    Except PipelineExit (Option ℕ × RenameTable) :=
  if t.availableListHead = -1 then .ok (none, t)
  else if ¬ t.InBounds threadID archReg then .error .exception
  else
    let newPhyReg := t.removeFromAvailableList.1
    let oldPhyReg := t.archToPhyMapping threadID archReg
    ((t.removeFromAvailableList.2.remap threadID archReg newPhyReg).release oldPhyReg).map
      (fun t => (some newPhyReg, t.setMappingValid true newPhyReg))

/-- `setValueValid(true, index)`; the index `-1` is out of bounds. -/
def setValueValid (t : RenameTable) (index : Option ℕ) : Except PipelineExit RenameTable :=
  match index with
  | some p => if p < t.nPhyRegisters then
      .ok { t with valueValid := Function.update t.valueValid p true } else .error .exception
  | none => .error .exception

/-- The condition of `OperandAvailabilityChecker.java` for a register. -/
def isAvailable (t : RenameTable) (phyReg : ℕ) : Bool :=
  t.registerFile phyReg || t.valueValid phyReg

/-- Both valid bits of a physical register are set. -/
def deliver (t : RenameTable) (p : ℕ) : RenameTable :=
  { t with
    valueValid := Function.update t.valueValid p true
    registerFile := Function.update t.registerFile p true }

/-- `writeToRFAndAddToAvailableList` for a register of this file. -/
def writeToRFAndAddToAvailableList (t : RenameTable) (physicalRegister : Option ℕ) :
    Except PipelineExit RenameTable :=
  match physicalRegister with
  | some p =>
    if p < t.nPhyRegisters then
      if t.mappingValid p = false then (t.addToAvailableList p).map (fun t => t.deliver p)
      else .ok (t.deliver p)
    else .error .exception
  | none => .error .exception

/-! ### The table as a pool of registers -/

/-- The free physical registers, in the order in which they will be given out. -/
def freeRegisters (t : RenameTable) : List ℕ :=
  (occupied t.availableListLength t.availableListHead t.availableListTail).map t.availableList

/-- The registers that the table renames, over all threads. -/
def names (t : RenameTable) : Finset (ℕ × ℕ) :=
  Finset.range t.noOfThreads ×ˢ Finset.range t.nArchRegisters

def registers (t : RenameTable) : Finset ℕ := Finset.range t.nPhyRegisters

/-- A physical register whose value has not been written back. -/
def Pending (t : RenameTable) (p : ℕ) : Prop := p < t.nPhyRegisters ∧ t.registerFile p = false

/-- What the table says as a pool of registers. -/
def pool (t : RenameTable) : Pool (ℕ × ℕ) ℕ :=
  ⟨t.freeRegisters, fun a => t.archToPhyMapping a.1 a.2, t.Pending⟩

/-- The ring of free registers is in order, the pool conserves its registers, and the
mapping bit of a pending register says whether it is still mapped. -/
structure Valid (t : RenameTable) : Prop where
  enough : t.noOfThreads * t.nArchRegisters ≤ t.nPhyRegisters
  indices : Bounded t.availableListLength t.availableListHead t.availableListTail
  conserved : Conserved t.names t.registers t.pool
  mappingValid_iff : ∀ p, t.Pending p → (t.mappingValid p = true ↔ t.pool.Mapped t.names p)

variable {t t' : RenameTable} {threadID archReg p q : ℕ}

@[simp] theorem mem_names : (threadID, archReg) ∈ t.names ↔ t.InBounds threadID archReg := by
  simp [names, InBounds]

@[simp] theorem length_freeRegisters : t.freeRegisters.length = t.getAvailableListSize := by
  simp [freeRegisters, getAvailableListSize]

theorem card_names : t.names.card = t.nArchRegisters * t.noOfThreads := by
  simp [names, Nat.mul_comm]

theorem Valid.size_eq (h : t.Valid) :
    t.availableListLength + t.nArchRegisters * t.noOfThreads = t.nPhyRegisters := by
  have henough := h.enough
  rw [Nat.mul_comm] at henough
  rw [availableListLength]
  omega

/-- The table with one more free register. -/
def pushed (t : RenameTable) (p : ℕ) : RenameTable :=
  let tail := pushTail t.availableListLength t.availableListTail
  { t with
    availableListTail := tail
    availableList := Function.update t.availableList tail.toNat p
    availableListHead := pushHead t.availableListHead }

theorem addToAvailableList_eq (hroom : t.getAvailableListSize < t.availableListLength) (p : ℕ) :
    t.addToAvailableList p = .ok (t.pushed p) := by
  rw [addToAvailableList, if_neg (by omega)]
  rfl

theorem freeRegisters_pushed
    (h : Bounded t.availableListLength t.availableListHead t.availableListTail)
    (hroom : t.getAvailableListSize < t.availableListLength) (p : ℕ) :
    (t.pushed p).freeRegisters = t.freeRegisters ++ [p] := by
  have hnew := h.pushTail_not_mem hroom
  have hocc := h.occupied_push hroom
  rw [freeRegisters, pushed]
  simp only [availableListLength] at hocc hnew ⊢
  rw [hocc, List.map_append, List.map_singleton, Function.update_self, freeRegisters]
  congr 1
  apply List.map_congr_left
  intro i hi
  refine Function.update_of_ne (fun heq => hnew ?_) _ _
  rw [← heq]
  exact hi

/-- The register that is given out is the first free one. -/
theorem freeRegisters_removeFromAvailableList
    (h : Bounded t.availableListLength t.availableListHead t.availableListTail)
    (hpos : 0 < t.getAvailableListSize) :
    t.freeRegisters =
      t.removeFromAvailableList.1 :: t.removeFromAvailableList.2.freeRegisters := by
  have hocc := h.occupied_pop hpos
  rw [freeRegisters, hocc, List.map_cons]
  rfl

/-! ### The constructor -/

section initial

variable {nArch nPhy threads : ℕ}

theorem not_pending_initial : ¬ (initial nArch nPhy threads).Pending p :=
  fun h => by cases h.2

theorem bounded_initial : Bounded (nPhy - nArch * threads) 0
    (((nPhy - nArch * threads : ℕ) : ℤ) - 1) := by
  rcases Nat.eq_zero_or_pos (nPhy - nArch * threads) with hzero | hpos
  · rw [hzero]
    exact .inr (.inr ⟨rfl, rfl, rfl⟩)
  · exact .inr (.inl ⟨by omega, by omega, by omega, by omega⟩)

theorem mem_freeRegisters_initial :
    q ∈ (initial nArch nPhy threads).freeRegisters ↔ nArch * threads ≤ q ∧ q < nPhy := by
  have hsize : size (nPhy - nArch * threads) 0 (((nPhy - nArch * threads : ℕ) : ℤ) - 1) =
      nPhy - nArch * threads := by
    rw [size, if_neg (by decide)]
    split_ifs <;> omega
  constructor
  · intro hq
    obtain ⟨i, hi, rfl⟩ := List.mem_map.mp hq
    have hlt : i < nPhy - nArch * threads := bounded_initial.lt_of_mem_occupied hi
    exact ⟨Nat.le_add_right _ _, by simp only [initial]; omega⟩
  · rintro ⟨hle, hlt⟩
    refine List.mem_map.mpr ⟨q - nArch * threads, ?_, by simp only [initial]; omega⟩
    refine mem_slotsFrom.mpr ⟨q - nArch * threads, ?_, ?_⟩
    · have hlast := hsize
      simp only [initial, availableListLength]
      omega
    · simp only [initial, availableListLength]
      rw [slot, Int.toNat_zero, Nat.zero_add, Nat.zero_add, Nat.mod_eq_of_lt (by omega)]

theorem mapping_initial_lt {j i : ℕ} (hj : j < threads) (hi : i < nArch) :
    j * nArch + i < nArch * threads := by
  calc j * nArch + i < j * nArch + nArch := Nat.add_lt_add_left hi _
    _ = (j + 1) * nArch := (Nat.succ_mul j nArch).symm
    _ ≤ threads * nArch := Nat.mul_le_mul_right _ hj
    _ = nArch * threads := Nat.mul_comm _ _

theorem mapped_initial : (initial nArch nPhy threads).pool.Mapped
    (initial nArch nPhy threads).names p ↔ p < nArch * threads := by
  constructor
  · rintro ⟨⟨j, i⟩, hname, rfl⟩
    obtain ⟨hj, hi⟩ := mem_names.mp hname
    exact mapping_initial_lt hj hi
  · intro hp
    have hpos : 0 < nArch := Nat.pos_of_mul_pos_right (Nat.zero_lt_of_lt hp)
    refine ⟨(p / nArch, p % nArch), mem_names.mpr ⟨?_, Nat.mod_lt _ hpos⟩, ?_⟩
    · exact (Nat.div_lt_iff_lt_mul hpos).mpr (by rw [Nat.mul_comm]; exact hp)
    · simpa [pool, initial, Nat.mul_comm] using Nat.div_add_mod p nArch

theorem mapping_initial_injective {j i j' i' : ℕ} (hi : i < nArch) (hi' : i' < nArch)
    (heq : j * nArch + i = j' * nArch + i') : j = j' ∧ i = i' := by
  have hmod : ∀ a b, b < nArch → (a * nArch + b) % nArch = b := fun a b hb => by
    rw [Nat.add_comm, Nat.add_mul_mod_self_right, Nat.mod_eq_of_lt hb]
  have hii : i = i' := by rw [← hmod j i hi, heq, hmod j' i' hi']
  subst hii
  exact ⟨Nat.eq_of_mul_eq_mul_right (by omega) (Nat.add_right_cancel heq), rfl⟩

theorem conserved_initial (henough : threads * nArch ≤ nPhy) :
    Conserved (initial nArch nPhy threads).names (initial nArch nPhy threads).registers
      (initial nArch nPhy threads).pool where
  free_nodup := bounded_initial.occupied_nodup.map fun _ _ heq => Nat.add_left_cancel heq
  free_registers q hq := Finset.mem_range.mpr (mem_freeRegisters_initial.mp hq).2
  free_unmapped q hq hm := by
    have hge := (mem_freeRegisters_initial.mp hq).1
    have hlt := mapped_initial.mp hm
    omega
  free_settled _ _ := not_pending_initial
  mapping_registers a ha := by
    have hlt := mapped_initial.mp ⟨a, ha, rfl⟩
    rw [Nat.mul_comm] at henough
    exact Finset.mem_range.mpr (lt_of_lt_of_le hlt henough)
  mapping_injective a ha b hb heq := by
    have hi := (mem_names.mp ha).2
    have hi' := (mem_names.mp hb).2
    obtain ⟨hj, hi⟩ := mapping_initial_injective hi hi' heq
    exact Prod.ext hj hi
  pending_registers q hq := absurd hq not_pending_initial
  covered q hq := by
    rcases Nat.lt_or_ge q (nArch * threads) with hlt | hge
    · exact .inr (.inl (mapped_initial.mpr hlt))
    · exact .inl (mem_freeRegisters_initial.mpr ⟨hge, Finset.mem_range.mp hq⟩)

/-- What the constructor accepts is valid, and no value is missing. -/
theorem valid_new (h : new nArch nPhy threads = some t) :
    t.Valid ∧ ∀ p, t.registerFile p = true := by
  rw [new] at h
  split at h
  · cases h
  · rename_i henough
    obtain ⟨rfl⟩ := h
    rw [not_lt] at henough
    exact ⟨⟨henough, bounded_initial, conserved_initial henough,
      fun q hq => absurd hq not_pending_initial⟩, fun _ => rfl⟩

end initial

/-! ### What the operations do -/

/-- A new version of a register has been given the free physical register `p`. -/
structure Allocated (t t' : RenameTable) (threadID archReg p : ℕ) : Prop where
  valid : t'.Valid
  bound : p < t.nPhyRegisters
  settled : t.registerFile p = true
  registerFile : t'.registerFile = Function.update t.registerFile p false
  valueValid : t'.valueValid = Function.update t.valueValid p false
  archToPhyMapping : ∀ j i, t'.archToPhyMapping j i =
    if j = threadID ∧ i = archReg then p else t.archToPhyMapping j i
  size : t.getAvailableListSize ≤ t'.getAvailableListSize + 1
  nPhyRegisters : t'.nPhyRegisters = t.nPhyRegisters
  inBounds : ∀ j i, t'.InBounds j i ↔ t.InBounds j i

/-- The value of the physical register `p` has been written back. -/
structure WrittenBack (t t' : RenameTable) (p : ℕ) : Prop where
  valid : t'.Valid
  registerFile : t'.registerFile = Function.update t.registerFile p true
  valueValid : t'.valueValid = Function.update t.valueValid p true
  archToPhyMapping : t'.archToPhyMapping = t.archToPhyMapping
  nPhyRegisters : t'.nPhyRegisters = t.nPhyRegisters
  inBounds : ∀ j i, t'.InBounds j i ↔ t.InBounds j i

/-- A pending register that is not mapped leaves room in the available list. -/
theorem Valid.room (h : t.Valid) (hp : t.Pending p) (hunmapped : ¬ t.pool.Mapped t.names p) :
    t.getAvailableListSize < t.availableListLength := by
  have hlt := h.conserved.length_free_lt hp hunmapped
  have hsize := h.size_eq
  rw [show t.pool.free = t.freeRegisters from rfl, length_freeRegisters, card_names, registers,
    Finset.card_range] at hlt
  omega

/-- Writing a value back keeps the table valid when the list of free registers grows as
in the pool. -/
theorem Valid.writtenBack (h : t.Valid) (hp : t.Pending p) {list : ℕ → ℕ} {head tail : ℤ}
    (hbounded : Bounded t.availableListLength head tail)
    (hfree : freeRegisters { t with
        availableList := list, availableListHead := head, availableListTail := tail } =
      (t.pool.settle t.names p).free) :
    t.WrittenBack (deliver { t with
        availableList := list, availableListHead := head, availableListTail := tail } p) p := by
  have hpending : ∀ q, (q < t.nPhyRegisters ∧ Function.update t.registerFile p true q = false) ↔
      t.Pending q ∧ q ≠ p := by
    intro q
    by_cases hqp : q = p
    · simp [hqp]
    · simp [hqp, Pending]
  have hpool : RenameTable.pool (deliver { t with
      availableList := list, availableListHead := head, availableListTail := tail } p) =
      t.pool.settle t.names p := by
    apply Pool.ext
    · exact hfree
    · rfl
    · exact funext fun q => propext (hpending q)
  refine ⟨⟨h.enough, hbounded, ?_, ?_⟩, rfl, rfl, rfl, rfl, fun _ _ => Iff.rfl⟩
  · rw [hpool]
    exact h.conserved.settle hp
  · exact fun q hq => h.mappingValid_iff q ((hpending q).mp hq).1

theorem writeToRFAndAddToAvailableList_spec (h : t.Valid) (hp : t.Pending p) :
    ∃ t', t.writeToRFAndAddToAvailableList (some p) = .ok t' ∧ t.WrittenBack t' p := by
  rw [writeToRFAndAddToAvailableList, if_pos hp.1]
  by_cases hvalid : t.mappingValid p = true
  · have hmapped := (h.mappingValid_iff p hp).mp hvalid
    rw [if_neg (by simp [hvalid])]
    refine ⟨_, rfl, h.writtenBack hp h.indices ?_⟩
    rw [Pool.settle, if_pos hmapped]
    rfl
  · have hunmapped : ¬ t.pool.Mapped t.names p := fun hm =>
      hvalid ((h.mappingValid_iff p hp).mpr hm)
    have hroom := h.room hp hunmapped
    rw [if_pos (by simpa using hvalid), addToAvailableList_eq hroom]
    refine ⟨_, rfl, h.writtenBack hp (h.indices.push (by omega)) ?_⟩
    rw [Pool.settle, if_neg hunmapped]
    exact freeRegisters_pushed h.indices hroom p

/-- The table of a new version is valid when the list of free registers is that of the
pool and the mapping bits say which versions are still mapped. -/
theorem Valid.allocated (h : t.Valid) (hname : t.InBounds threadID archReg) {rest : List ℕ}
    (hfree : t.freeRegisters = p :: rest) {list : ℕ → ℕ} {head tail : ℤ} {mappingValid : ℕ → Bool}
    (hbounded : Bounded t.availableListLength head tail)
    (hrest : freeRegisters { t with
        availableList := list, availableListHead := head, availableListTail := tail } =
      (t.pool.allocate (threadID, archReg) p rest).free)
    (hnew : mappingValid p = true)
    (hold : t.Pending (t.archToPhyMapping threadID archReg) →
      mappingValid (t.archToPhyMapping threadID archReg) = false)
    (hother : ∀ q, q ≠ p → q ≠ t.archToPhyMapping threadID archReg →
      mappingValid q = t.mappingValid q) :
    t.Allocated { t.remap threadID archReg p with
      mappingValid := mappingValid, availableList := list, availableListHead := head
      availableListTail := tail } threadID archReg p := by
  have hmem : p ∈ t.freeRegisters := by rw [hfree]; exact List.mem_cons_self
  have hbound : p < t.nPhyRegisters := Finset.mem_range.mp (h.conserved.free_registers p hmem)
  have hsettled : t.registerFile p = true := by
    have hnot := h.conserved.free_settled p hmem
    rw [← Bool.not_eq_false]
    exact fun hfalse => hnot ⟨hbound, hfalse⟩
  have hpending : ∀ q, (q < t.nPhyRegisters ∧ Function.update t.registerFile p false q = false) ↔
      q = p ∨ t.Pending q := by
    intro q
    by_cases hqp : q = p
    · simp [hqp, hbound]
    · simp [hqp, Pending]
  have hmapping : ∀ j i, Function.update t.archToPhyMapping threadID
      (Function.update (t.archToPhyMapping threadID) archReg p) j i =
      if j = threadID ∧ i = archReg then p else t.archToPhyMapping j i := by
    intro j i
    by_cases hj : j = threadID
    · subst hj
      by_cases hi : i = archReg
      · simp [hi]
      · simp [hi]
    · simp [hj]
  have hpool : RenameTable.pool { t.remap threadID archReg p with
      mappingValid := mappingValid, availableList := list, availableListHead := head
      availableListTail := tail } = t.pool.allocate (threadID, archReg) p rest := by
    apply Pool.ext
    · exact hrest
    · funext ⟨j, i⟩
      simp only [pool, remap, Pool.allocate, hmapping, Function.update_apply, Prod.mk.injEq]
    · exact funext fun q => propext (hpending q)
  have hconserved := h.conserved.allocate (mem_names.mpr hname) hfree
  refine ⟨⟨h.enough, hbounded, ?_, ?_⟩, hbound, hsettled, rfl, rfl, hmapping, ?_, rfl,
    fun _ _ => Iff.rfl⟩
  · rw [hpool]
    exact hconserved
  · intro q hq
    have hnamed : (t.pool.allocate (threadID, archReg) p rest).Mapped t.names q ↔ _ :=
      h.conserved.mapped_allocate (mem_names.mpr hname)
    rw [hpool]
    change mappingValid q = true ↔ Pool.Mapped t.names _ q
    rw [hnamed]
    change mappingValid q = true ↔
      q = p ∨ q ≠ t.archToPhyMapping threadID archReg ∧ t.pool.Mapped t.names q
    by_cases hqp : q = p
    · simp [hqp, hnew]
    · have hqpend : t.Pending q := ((hpending q).mp hq).resolve_left hqp
      by_cases hqold : q = t.archToPhyMapping threadID archReg
      · rw [hqold, hold (hqold ▸ hqpend)]
        simp [← hqold, hqp]
      · rw [hother q hqp hqold, h.mappingValid_iff q hqpend]
        simp [hqp, hqold]
  · have hlength := congrArg List.length hrest
    have hbefore := congrArg List.length hfree
    rw [length_freeRegisters] at hlength hbefore
    rw [List.length_cons] at hbefore
    have hle : rest.length ≤ (t.pool.allocate (threadID, archReg) p rest).free.length := by
      simp only [Pool.allocate]
      split_ifs <;> simp
    change _ ≤ getAvailableListSize { t with
        availableList := list, availableListHead := head, availableListTail := tail } + 1
    omega

/-- When a register is free, a new version gets it. -/
theorem allocatePhysicalRegister_spec (h : t.Valid) (hname : t.InBounds threadID archReg)
    (hpos : 0 < t.getAvailableListSize) :
    ∃ p t', t.allocatePhysicalRegister threadID archReg = .ok (some p, t') ∧
      t.Allocated t' threadID archReg p := by
  have hfree := freeRegisters_removeFromAvailableList h.indices hpos
  have hhead : t.availableListHead ≠ -1 := by
    intro heq
    rw [getAvailableListSize, heq, size_empty] at hpos
    exact absurd hpos (lt_irrefl 0)
  have hpop := h.indices.pop hpos
  have hroom : t.removeFromAvailableList.2.getAvailableListSize < t.availableListLength := by
    have hlength := congrArg List.length hfree
    rw [List.length_cons, length_freeRegisters, length_freeRegisters] at hlength
    have hle : t.getAvailableListSize ≤ t.availableListLength := h.indices.size_le
    omega
  have hne : t.archToPhyMapping threadID archReg ≠ t.removeFromAvailableList.1 := by
    intro heq
    have hmem : t.removeFromAvailableList.1 ∈ t.freeRegisters := by
      rw [hfree]
      exact List.mem_cons_self
    exact h.conserved.free_unmapped _ hmem ⟨(threadID, archReg), mem_names.mpr hname, heq⟩
  have hold : t.archToPhyMapping threadID archReg < t.nPhyRegisters :=
    Finset.mem_range.mp (h.conserved.mapping_registers _ (mem_names.mpr hname))
  rw [allocatePhysicalRegister, if_neg hhead, if_neg (not_not.mpr hname)]
  simp only [release]
  have hfile : (t.removeFromAvailableList.2.remap threadID archReg
      t.removeFromAvailableList.1).registerFile (t.archToPhyMapping threadID archReg) =
      t.registerFile (t.archToPhyMapping threadID archReg) :=
    Function.update_of_ne hne _ _
  rw [hfile]
  by_cases hvalue : t.registerFile (t.archToPhyMapping threadID archReg) = true
  · rw [if_pos hvalue, addToAvailableList_eq (t := t.removeFromAvailableList.2.remap threadID
      archReg t.removeFromAvailableList.1) hroom]
    refine ⟨_, _, rfl, h.allocated hname hfree (hpop.push (by omega)) ?_
      (Function.update_self _ _ _) (fun hp => absurd hp.2 (by simp [hvalue]))
      (fun q hqp _ => Function.update_of_ne hqp _ _)⟩
    have hpushed := freeRegisters_pushed (t := t.removeFromAvailableList.2) hpop hroom
      (t.archToPhyMapping threadID archReg)
    simp only [Pool.allocate]
    rw [if_neg (fun hp => absurd hp.2 (by simp [hvalue, pool]))]
    exact hpushed
  · rw [if_neg hvalue]
    refine ⟨_, _, rfl, h.allocated hname hfree hpop ?_ (Function.update_self _ _ _)
      (fun _ => ?_) (fun q hqp hqold => ?_)⟩
    · simp only [Pool.allocate]
      rw [if_pos ⟨hold, by simpa [pool] using hvalue⟩]
      rfl
    · exact (Function.update_of_ne hne _ _).trans (Function.update_self _ _ _)
    · exact (Function.update_of_ne hqp _ _).trans (Function.update_of_ne hqold _ _)

end RenameTable

end Tejas
