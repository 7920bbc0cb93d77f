import Mathlib.Tactic.Common
import Tejas.Fusion

/-!
# What fusion keeps of the packets

A handler takes from the buffer what its micro-operation carries afterwards. The main
loop and the flush add these steps up, and only the roll-back loses some of them.
-/

namespace Tejas

namespace Fusion

open DynamicInstructionBuffer

/-! ## What is left in the buffer -/

namespace DynamicInstructionBuffer

def reads (b : DynamicInstructionBuffer) : List ℤ := b.memRead.drop b.memReadCount

def writes (b : DynamicInstructionBuffer) : List ℤ := b.memWrite.drop b.memWriteCount

def outcome (b : DynamicInstructionBuffer) : List (Bool × ℤ) :=
  if b.isBranchInformationReadNeeded then [(b.branchTaken, b.branchAddress)] else []

/-- No read or write address of the buffer is the value of a missing one. -/
def Addressed (b : DynamicInstructionBuffer) : Prop := -1 ∉ b.memRead ∧ -1 ∉ b.memWrite

variable {b b' : DynamicInstructionBuffer} {address : ℤ}

theorem reads_of_getSingleLoadAddress (h : b.getSingleLoadAddress = (address, b'))
    (hfound : address ≠ -1) : b' = { b with memReadCount := b.memReadCount + 1 } ∧
      b.reads = address :: b'.reads := by
  rw [getSingleLoadAddress] at h
  split at h
  case h_1 a hget =>
    obtain ⟨rfl, rfl⟩ := Prod.mk.inj h
    obtain ⟨hlt, rfl⟩ := List.getElem?_eq_some_iff.mp hget
    exact ⟨rfl, List.drop_eq_getElem_cons hlt⟩
  case h_2 =>
    obtain ⟨rfl, rfl⟩ := Prod.mk.inj h
    exact absurd rfl hfound

theorem no_reads_of_getSingleLoadAddress (h : b.getSingleLoadAddress = (-1, b'))
    (haddressed : b.Addressed) : b' = b ∧ b.reads = [] := by
  rw [getSingleLoadAddress] at h
  split at h
  case h_1 a hget =>
    obtain ⟨rfl, rfl⟩ := Prod.mk.inj h
    exact absurd (List.mem_of_getElem? hget) haddressed.1
  case h_2 hget =>
    obtain ⟨-, rfl⟩ := Prod.mk.inj h
    exact ⟨rfl, List.drop_eq_nil_of_le (List.getElem?_eq_none_iff.mp hget)⟩

theorem writes_of_getSingleStoreAddress (h : b.getSingleStoreAddress = (address, b'))
    (hfound : address ≠ -1) : b' = { b with memWriteCount := b.memWriteCount + 1 } ∧
      b.writes = address :: b'.writes := by
  rw [getSingleStoreAddress] at h
  split at h
  case h_1 a hget =>
    obtain ⟨rfl, rfl⟩ := Prod.mk.inj h
    obtain ⟨hlt, rfl⟩ := List.getElem?_eq_some_iff.mp hget
    exact ⟨rfl, List.drop_eq_getElem_cons hlt⟩
  case h_2 =>
    obtain ⟨rfl, rfl⟩ := Prod.mk.inj h
    exact absurd rfl hfound

theorem no_writes_of_getSingleStoreAddress (h : b.getSingleStoreAddress = (-1, b'))
    (haddressed : b.Addressed) : b' = b ∧ b.writes = [] := by
  rw [getSingleStoreAddress] at h
  split at h
  case h_1 a hget =>
    obtain ⟨rfl, rfl⟩ := Prod.mk.inj h
    exact absurd (List.mem_of_getElem? hget) haddressed.2
  case h_2 hget =>
    obtain ⟨-, rfl⟩ := Prod.mk.inj h
    exact ⟨rfl, List.drop_eq_nil_of_le (List.getElem?_eq_none_iff.mp hget)⟩

end DynamicInstructionBuffer

/-! ## Lists of micro-operations -/

section Carried

variable (xs ys : List DynamicMicroOp) (op : DynamicMicroOp)

@[simp] theorem loadsIn_nil : loadsIn [] = [] := rfl

@[simp] theorem storesIn_nil : storesIn [] = [] := rfl

@[simp] theorem branchesIn_nil : branchesIn [] = [] := rfl

@[simp] theorem loadsIn_append : loadsIn (xs ++ ys) = loadsIn xs ++ loadsIn ys := by
  simp [loadsIn]

@[simp] theorem storesIn_append : storesIn (xs ++ ys) = storesIn xs ++ storesIn ys := by
  simp [storesIn]

@[simp] theorem branchesIn_append : branchesIn (xs ++ ys) = branchesIn xs ++ branchesIn ys := by
  simp [branchesIn]

theorem loadsIn_eq_nil : loadsIn xs = [] ↔ OperationType.load ∉ xs.map (·.operationType) := by
  simp [loadsIn]

theorem storesIn_eq_nil : storesIn xs = [] ↔ OperationType.store ∉ xs.map (·.operationType) := by
  simp [storesIn]

/-- The operations that take the branch outcome. -/
def controlsIn (ops : List DynamicMicroOp) : List OperationType :=
  (ops.map (·.operationType)).filter isControl

@[simp] theorem controlsIn_nil : controlsIn [] = [] := rfl

@[simp] theorem controlsIn_append : controlsIn (xs ++ ys) = controlsIn xs ++ controlsIn ys := by
  simp [controlsIn]

end Carried

/-- The micro-operations `ops` took the buffer from `b` to `b'`. -/
structure Gives (b : DynamicInstructionBuffer) (ops : List DynamicMicroOp)
    (b' : DynamicInstructionBuffer) : Prop where
  memRead : b'.memRead = b.memRead
  memWrite : b'.memWrite = b.memWrite
  loads : b.reads = loadsIn ops ++ b'.reads
  stores : b.writes = storesIn ops ++ b'.writes
  branchTaken : b'.branchTaken = b.branchTaken
  branchAddress : b'.branchAddress = b.branchAddress
  branches : branchesIn ops =
    (controlsIn ops).map (fun type => (b.branchTaken || type = .jump, b.branchAddress))
  needed : b'.isBranchInformationReadNeeded =
    (b.isBranchInformationReadNeeded && (controlsIn ops).isEmpty)

namespace Gives

variable {b b' b'' : DynamicInstructionBuffer} {xs ys : List DynamicMicroOp}

theorem refl (b : DynamicInstructionBuffer) : Gives b [] b :=
  ⟨rfl, rfl, rfl, rfl, rfl, rfl, rfl, by simp⟩

theorem trans (h : Gives b xs b') (h' : Gives b' ys b'') : Gives b (xs ++ ys) b'' where
  memRead := h'.memRead.trans h.memRead
  memWrite := h'.memWrite.trans h.memWrite
  loads := by rw [h.loads, h'.loads, loadsIn_append, List.append_assoc]
  stores := by rw [h.stores, h'.stores, storesIn_append, List.append_assoc]
  branchTaken := h'.branchTaken.trans h.branchTaken
  branchAddress := h'.branchAddress.trans h.branchAddress
  branches := by
    rw [branchesIn_append, controlsIn_append, List.map_append, h.branches, h'.branches,
      h.branchTaken, h.branchAddress]
  needed := by
    rw [h'.needed, h.needed, controlsIn_append, Bool.and_assoc]
    cases controlsIn xs <;> simp

theorem addressed (h : Gives b xs b') (haddressed : b.Addressed) : b'.Addressed := by
  rw [DynamicInstructionBuffer.Addressed, h.memRead, h.memWrite]
  exact haddressed

theorem reads_eq_nil (h : Gives b xs b') (hnil : b.reads = []) : b'.reads = [] := by
  rw [h.loads] at hnil
  exact (List.append_eq_nil_iff.mp hnil).2

theorem writes_eq_nil (h : Gives b xs b') (hnil : b.writes = []) : b'.writes = [] := by
  rw [h.stores] at hnil
  exact (List.append_eq_nil_iff.mp hnil).2

theorem branches_eq_nil (h : Gives b xs b') (hnil : controlsIn xs = []) : branchesIn xs = [] := by
  rw [h.branches, hnil, List.map_nil]

/-- The outcome stays in the buffer while no operation takes it. -/
theorem outcome_eq (h : Gives b xs b') :
    b'.outcome = if (controlsIn xs).isEmpty then b.outcome else [] := by
  rw [outcome, outcome, h.needed, h.branchTaken, h.branchAddress]
  cases (controlsIn xs).isEmpty <;> simp

end Gives

/-! ## One handler -/

theorem ne_of_isControl {type : OperationType} (h : isControl type = true) :
    type ≠ .load ∧ type ≠ .store := by
  constructor <;> (rintro rfl; cases h)

/-- What a handler does, by what it finds in the buffer. -/
inductive Handled (op : DynamicMicroOp) (b : DynamicInstructionBuffer) :
    Bool → DynamicMicroOp → DynamicInstructionBuffer → Prop
  | load {address : ℤ} {b' : DynamicInstructionBuffer} (htype : op.operationType = .load)
      (hget : b.getSingleLoadAddress = (address, b')) (hfound : address ≠ -1) :
      Handled op b true { op with sourceOperand1MemValue := address } b'
  | noLoad {b' : DynamicInstructionBuffer} (htype : op.operationType = .load)
      (hget : b.getSingleLoadAddress = (-1, b')) : Handled op b false op b'
  | store {address : ℤ} {b' : DynamicInstructionBuffer} (htype : op.operationType = .store)
      (hget : b.getSingleStoreAddress = (address, b')) (hfound : address ≠ -1) :
      Handled op b true { op with sourceOperand1MemValue := address } b'
  | noStore {b' : DynamicInstructionBuffer} (htype : op.operationType = .store)
      (hget : b.getSingleStoreAddress = (-1, b')) : Handled op b false op b'
  | control (htype : isControl op.operationType = true) (hfound : b.branchAddress ≠ -1) :
      Handled op b true
        { op with
          branchTaken := b.branchTaken || op.operationType = .jump
          branchTargetAddress := b.branchAddress }
        { b with branchInformationRead := true }
  | noControl (htype : isControl op.operationType = true) (hmissing : b.branchAddress = -1) :
      Handled op b false op { b with branchInformationRead := true }
  | other (hload : op.operationType ≠ .load) (hstore : op.operationType ≠ .store)
      (hcontrol : isControl op.operationType = false) : Handled op b true op b

section Handle

variable {op op' : DynamicMicroOp} {b b' : DynamicInstructionBuffer} {fused : Bool}

theorem handled (h : handle op b = some (fused, op', b')) : Handled op b fused op' b' := by
  cases htype : op.operationType with
  | load =>
    obtain ⟨address, b₁, hget⟩ : ∃ address b₁, b.getSingleLoadAddress = (address, b₁) :=
      ⟨_, _, rfl⟩
    simp only [handle, htype, hget, ne_eq, ite_not] at h
    split at h
    case isTrue hmissing =>
      subst hmissing
      cases h
      exact .noLoad htype hget
    case isFalse hfound =>
      cases h
      exact .load htype hget hfound
  | store =>
    obtain ⟨address, b₁, hget⟩ : ∃ address b₁, b.getSingleStoreAddress = (address, b₁) :=
      ⟨_, _, rfl⟩
    simp only [handle, htype, hget, ne_eq, ite_not] at h
    split at h
    case isTrue hmissing =>
      subst hmissing
      cases h
      exact .noStore htype hget
    case isFalse hfound =>
      cases h
      exact .store htype hget hfound
  | branch | jump =>
    have hcontrol : isControl op.operationType = true := by rw [htype]; rfl
    by_cases hmissing : b.branchAddress = -1
    · simp only [handle, htype, getBranch, hmissing, ne_eq, not_true_eq_false, if_false,
        Option.some.injEq, Prod.mk.injEq] at h
      obtain ⟨rfl, rfl, rfl⟩ := h
      simpa [hmissing] using Handled.noControl hcontrol hmissing
    · simp only [handle, htype, getBranch, hmissing, ne_eq, not_false_eq_true, if_true,
        Option.some.injEq, Prod.mk.injEq] at h
      obtain ⟨rfl, rfl, rfl⟩ := h
      simpa [htype] using Handled.control hcontrol hmissing
  | sync | mfence => simp [handle, htype] at h
  | _ =>
    simp only [handle, htype, Option.some.injEq, Prod.mk.injEq] at h
    obtain ⟨rfl, rfl, rfl⟩ := h
    exact .other (by simp [htype]) (by simp [htype]) (by simp [htype, isControl])

namespace Handled

theorem toMicroOp_eq (h : Handled op b fused op' b') : op'.toMicroOp = op.toMicroOp := by
  cases h <;> rfl

/-- What a fused micro-operation carries is what the buffer lost. -/
theorem gives (h : Handled op b true op' b') : Gives b [op'] b' := by
  cases h with
  | load htype hget hfound =>
    obtain ⟨rfl, hreads⟩ := reads_of_getSingleLoadAddress hget hfound
    exact ⟨rfl, rfl, by simpa [loadsIn, htype] using hreads,
      by simp [storesIn, htype, writes], rfl, rfl,
      by simp [branchesIn, controlsIn, htype, isControl],
      by simp [controlsIn, htype, isControl, isBranchInformationReadNeeded]⟩
  | store htype hget hfound =>
    obtain ⟨rfl, hwrites⟩ := writes_of_getSingleStoreAddress hget hfound
    exact ⟨rfl, rfl, by simp [loadsIn, htype, reads],
      by simpa [storesIn, htype] using hwrites, rfl, rfl,
      by simp [branchesIn, controlsIn, htype, isControl],
      by simp [controlsIn, htype, isControl, isBranchInformationReadNeeded]⟩
  | control htype hfound =>
    obtain ⟨hload, hstore⟩ := ne_of_isControl htype
    exact ⟨rfl, rfl, by simp [loadsIn, hload, reads], by simp [storesIn, hstore, writes], rfl, rfl,
      by simp [branchesIn, controlsIn, htype],
      by simp [controlsIn, htype, isBranchInformationReadNeeded]⟩
  | other hload hstore hcontrol =>
    exact ⟨rfl, rfl, by simp [loadsIn, hload], by simp [storesIn, hstore], rfl, rfl,
      by simp [branchesIn, controlsIn, hcontrol], by simp [controlsIn, hcontrol]⟩

/-- A micro-operation that is not fused takes nothing. -/
theorem gives_nil (h : Handled op b false op' b') (haddressed : b.Addressed) : Gives b [] b' := by
  cases h with
  | noLoad htype hget =>
    obtain ⟨rfl, -⟩ := no_reads_of_getSingleLoadAddress hget haddressed
    exact Gives.refl _
  | noStore htype hget =>
    obtain ⟨rfl, -⟩ := no_writes_of_getSingleStoreAddress hget haddressed
    exact Gives.refl _
  | noControl htype hmissing =>
    exact ⟨rfl, rfl, rfl, rfl, rfl, rfl, rfl,
      by simp [isBranchInformationReadNeeded, hmissing]⟩

end Handled

end Handle

/-! ## The main loop -/

section Translate

variable {n prev reads writes : ℕ} {branch : Bool} {ip : ℤ} {type : OperationType}
  {ops q q' : List DynamicMicroOp} {b b' : DynamicInstructionBuffer} {failed : Bool}
  {types : List OperationType}

theorem iterate_dropLast (k : ℕ) (xs : List DynamicMicroOp) :
    List.dropLast^[k] xs = xs.take (xs.length - k) := by
  induction k generalizing xs with
  | zero => simp
  | succ k ih =>
    rw [Function.iterate_succ_apply, ih, List.length_dropLast, List.dropLast_eq_take,
      List.take_take]
    congr 1
    omega

theorem removeInstructionFromTail_eq (h : prev ≤ q.length) :
    removeInstructionFromTail q prev = q.take prev := by
  rw [removeInstructionFromTail, iterate_dropLast, Nat.sub_sub_self h]

/-- An operation that reads no address leaves the search to the rest. -/
theorem fusedBefore_other (hload : type ≠ .load) (hstore : type ≠ .store) :
    fusedBefore reads writes branch (type :: types) =
      if isControl type && !branch then ([], false)
      else (type :: (fusedBefore reads writes branch types).1,
        (fusedBefore reads writes branch types).2) := by
  cases type <;> first | rfl | contradiction

/-- The result of one fused operation in front of the result for the rest. -/
theorem fusedBefore_of_handled {op op' : DynamicMicroOp} (h : Handled op b true op' b')
    (types : List OperationType) :
    fusedBefore b.reads.length b.writes.length (b.branchAddress ≠ -1)
        (op.operationType :: types) =
      (op.operationType ::
          (fusedBefore b'.reads.length b'.writes.length (b'.branchAddress ≠ -1) types).1,
        (fusedBefore b'.reads.length b'.writes.length (b'.branchAddress ≠ -1) types).2) := by
  have hgives := h.gives
  cases h with
  | load htype hget hfound =>
    obtain ⟨rfl, hreads⟩ := reads_of_getSingleLoadAddress hget hfound
    rw [htype, hreads]
    rfl
  | store htype hget hfound =>
    obtain ⟨rfl, hwrites⟩ := writes_of_getSingleStoreAddress hget hfound
    rw [htype, hwrites]
    rfl
  | control htype hfound =>
    obtain ⟨hload, hstore⟩ := ne_of_isControl htype
    rw [fusedBefore_other hload hstore, if_neg (by simp [hfound])]
    rfl
  | other hload hstore hcontrol =>
    rw [fusedBefore_other hload hstore, if_neg (by simp [hcontrol])]

theorem fusedBefore_of_failed {op op' : DynamicMicroOp} (h : Handled op b false op' b')
    (haddressed : b.Addressed) (types : List OperationType) :
    fusedBefore b.reads.length b.writes.length (b.branchAddress ≠ -1)
      (op.operationType :: types) = ([], false) := by
  cases h with
  | noLoad htype hget =>
    rw [htype, (no_reads_of_getSingleLoadAddress hget haddressed).2]
    rfl
  | noStore htype hget =>
    rw [htype, (no_writes_of_getSingleStoreAddress hget haddressed).2]
    rfl
  | noControl htype hmissing =>
    obtain ⟨hload, hstore⟩ := ne_of_isControl htype
    rw [fusedBefore_other hload hstore, if_pos (by simp [htype, hmissing])]

/-- The operations that belong to the instruction, from the front of `ops`. -/
def ownOperations (ip : ℤ) (ops : List DynamicMicroOp) : List OperationType :=
  (ops.takeWhile (fun op => op.ciscProgramCounter = ip)).map (·.operationType)

/-- The loop fuses the operations in front of the first one that finds nothing left. -/
theorem translate_spec (hlength : prev ≤ q.length) (haddressed : b.Addressed)
    (h : translate n ip prev ops b q = some (b', q', failed)) :
    ∃ fusedOps, Gives b fusedOps b' ∧
      (fusedOps.map (·.operationType), !failed) =
        fusedBefore b.reads.length b.writes.length (b.branchAddress ≠ -1)
          (ownOperations ip ops) ∧
      q' = if failed then q.take prev else q ++ fusedOps := by
  induction ops generalizing b q with
  | nil =>
    cases h
    exact ⟨[], Gives.refl _, rfl, by simp⟩
  | cons op rest ih =>
    rw [translate] at h
    split at h
    case isTrue hpc =>
      cases h
      refine ⟨[], Gives.refl _, ?_, by simp⟩
      rw [ownOperations, List.takeWhile_cons_of_neg (by simpa using hpc)]
      rfl
    case isFalse hpc =>
      obtain ⟨⟨fused, op₁, b₁⟩, hhandle, h⟩ := Option.bind_eq_some_iff.mp h
      have hown : ownOperations ip (op :: rest) =
          op.operationType :: ownOperations ip rest := by
        rw [ownOperations, List.takeWhile_cons_of_pos (by simpa using hpc)]
        rfl
      have hhandled := handled hhandle
      cases fused with
      | true =>
        obtain ⟨q₁, henqueue, h⟩ := Option.bind_eq_some_iff.mp h
        obtain ⟨-, rfl⟩ : _ ∧ q ++ [op₁] = q₁ := by
          simpa [enqueue] using henqueue
        have hgives := hhandled.gives
        obtain ⟨fusedOps, hrest, hresult, hqueue⟩ :=
          ih (by rw [List.length_append]; omega) (hgives.addressed haddressed) h
        refine ⟨op₁ :: fusedOps, hgives.trans hrest, ?_, ?_⟩
        · rw [hown, fusedBefore_of_handled hhandled, ← hresult, List.map_cons,
            show op₁.operationType = op.operationType from
              congrArg MicroOp.operationType hhandled.toMicroOp_eq]
        · rw [hqueue, List.take_append_of_le_length hlength, List.append_assoc]
          rfl
      | false =>
        cases h
        refine ⟨[], hhandled.gives_nil haddressed, ?_, ?_⟩
        · rw [hown, fusedBefore_of_failed hhandled haddressed]
          rfl
        · rw [if_pos rfl, removeInstructionFromTail_eq hlength]

end Translate

/-! ## The flush -/

section Flush

variable {n : ℕ} {q q' : List DynamicMicroOp} {b b' : DynamicInstructionBuffer}

/-- A loop of the flush whose handler finds what it asks for in every round. -/
theorem flush_spec {P : ℕ → DynamicInstructionBuffer → Prop} {op : DynamicMicroOp}
    (hfinds : ∀ {times b b' fused op'}, P (times + 1) b → Handled op b fused op' b' →
      fused = true ∧ P times b') {times : ℕ} (hP : P times b)
    (h : flush n op times b q = some (b', q')) :
    ∃ flushed, q' = q ++ flushed ∧ Gives b flushed b' ∧ P 0 b' ∧
      flushed.map (·.toMicroOp) = List.replicate times op.toMicroOp := by
  induction times generalizing b q with
  | zero =>
    cases h
    exact ⟨[], by simp, Gives.refl _, hP, rfl⟩
  | succ times ih =>
    rw [flush] at h
    obtain ⟨⟨fused, op₁, b₁⟩, hhandle, hround⟩ := Option.bind_eq_some_iff.mp h
    obtain ⟨q₁, henqueue, hloop⟩ := Option.bind_eq_some_iff.mp hround
    obtain ⟨-, rfl⟩ : _ ∧ q ++ [op₁] = q₁ := by
      simpa [enqueue] using henqueue
    have hhandled := handled hhandle
    obtain ⟨rfl, hP₁⟩ := hfinds hP hhandled
    obtain ⟨flushed, rfl, hgives, hend, htypes⟩ := ih hP₁ hloop
    refine ⟨op₁ :: flushed, by simp, hhandled.gives.trans hgives, hend, ?_⟩
    rw [List.map_cons, htypes, hhandled.toMicroOp_eq, List.replicate_succ]

/-- The micro-operations of one loop have the operation of its template. -/
theorem types_of_flushed {flushed : List DynamicMicroOp} {times : ℕ} {op : MicroOp}
    (h : flushed.map (·.toMicroOp) = List.replicate times op) :
    flushed.map (·.operationType) = List.replicate times op.operationType := by
  have := congrArg (List.map MicroOp.operationType) h
  rwa [List.map_map, List.map_replicate] at this

theorem flushed_of_map {flushed : List DynamicMicroOp} {times : ℕ} {op : MicroOp}
    (h : flushed.map (·.toMicroOp) = List.replicate times op)
    (hop : ∀ op' : DynamicMicroOp, op'.toMicroOp = op → Flushed op') :
    ∀ op' ∈ flushed, Flushed op' := by
  intro op' hmem
  refine hop op' (List.eq_of_mem_replicate (h ▸ List.mem_map_of_mem hmem))

theorem flush_loads (haddressed : b.Addressed)
    (h : flush n staticLoadMicroOp (b.memRead.length - b.memReadCount) b q = some (b', q')) :
    ∃ flushed, q' = q ++ flushed ∧ Gives b flushed b' ∧ b'.reads = [] ∧
      controlsIn flushed = [] ∧ ∀ op ∈ flushed, Flushed op := by
  have hlength : b.reads.length = b.memRead.length - b.memReadCount := List.length_drop
  obtain ⟨flushed, hq, hgives, ⟨-, hend⟩, htypes⟩ :=
    flush_spec (P := fun times b => b.Addressed ∧ b.reads.length = times)
      (by
        intro times b b' fused op' hP hhandled
        cases hhandled with
        | load htype hget hfound =>
          obtain ⟨rfl, hreads⟩ := reads_of_getSingleLoadAddress hget hfound
          refine ⟨rfl, hP.1, ?_⟩
          have := hP.2
          rw [hreads, List.length_cons] at this
          omega
        | noLoad htype hget =>
          have := hP.2
          rw [(no_reads_of_getSingleLoadAddress hget hP.1).2] at this
          exact absurd this (by simp)
        | store htype | noStore htype | control htype | noControl htype =>
          exact absurd htype (by decide)
        | other hload => exact absurd rfl hload)
      ⟨haddressed, hlength⟩ h
  refine ⟨flushed, hq, hgives, List.eq_nil_of_length_eq_zero hend, ?_,
    flushed_of_map htypes (fun op h => Or.inl h)⟩
  rw [controlsIn, types_of_flushed htypes]
  simp [staticLoadMicroOp, isControl]

theorem flush_stores (haddressed : b.Addressed)
    (h : flush n staticStoreMicroOp (b.memWrite.length - b.memWriteCount) b q = some (b', q')) :
    ∃ flushed, q' = q ++ flushed ∧ Gives b flushed b' ∧ b'.writes = [] ∧
      controlsIn flushed = [] ∧ ∀ op ∈ flushed, Flushed op := by
  have hlength : b.writes.length = b.memWrite.length - b.memWriteCount := List.length_drop
  obtain ⟨flushed, hq, hgives, ⟨-, hend⟩, htypes⟩ :=
    flush_spec (P := fun times b => b.Addressed ∧ b.writes.length = times)
      (by
        intro times b b' fused op' hP hhandled
        cases hhandled with
        | store htype hget hfound =>
          obtain ⟨rfl, hwrites⟩ := writes_of_getSingleStoreAddress hget hfound
          refine ⟨rfl, hP.1, ?_⟩
          have := hP.2
          rw [hwrites, List.length_cons] at this
          omega
        | noStore htype hget =>
          have := hP.2
          rw [(no_writes_of_getSingleStoreAddress hget hP.1).2] at this
          exact absurd this (by simp)
        | load htype | noLoad htype | control htype | noControl htype =>
          exact absurd htype (by decide)
        | other hload hstore => exact absurd rfl hstore)
      ⟨haddressed, hlength⟩ h
  refine ⟨flushed, hq, hgives, List.eq_nil_of_length_eq_zero hend, ?_,
    flushed_of_map htypes (fun op h => Or.inr (Or.inl h))⟩
  rw [controlsIn, types_of_flushed htypes]
  simp [staticStoreMicroOp, isControl]

theorem flush_branch
    (h : flush n staticBranchMicroOp (if b.isBranchInformationReadNeeded then 1 else 0) b q =
      some (b', q')) :
    ∃ flushed, q' = q ++ flushed ∧ Gives b flushed b' ∧ branchesIn flushed = b.outcome ∧
      ∀ op ∈ flushed, Flushed op := by
  obtain ⟨flushed, hq, hgives, -, htypes⟩ :=
    flush_spec (P := fun times b => 0 < times → b.branchAddress ≠ -1)
      (by
        intro times b b' fused op' hP hhandled
        have hfound := hP (Nat.succ_pos times)
        cases hhandled with
        | control htype => exact ⟨rfl, fun _ => hfound⟩
        | noControl htype hmissing => exact absurd hmissing hfound
        | load htype | noLoad htype | store htype | noStore htype =>
          exact absurd htype (by decide)
        | other hload hstore hcontrol => exact absurd hcontrol (by decide))
      (by
        intro hpos
        split at hpos
        case isTrue hneeded =>
          exact (by simpa [isBranchInformationReadNeeded] using hneeded : _ ∧ _).2
        case isFalse => exact absurd hpos (by decide)) h
  refine ⟨flushed, hq, hgives, ?_, flushed_of_map htypes (fun op h => Or.inr (Or.inr h))⟩
  rw [hgives.branches, controlsIn, types_of_flushed htypes, outcome]
  split <;> simp [staticBranchMicroOp, isControl]

/-- The flush enqueues all that is left. -/
theorem flushDynamicInformationPackets_spec (haddressed : b.Addressed)
    (h : flushDynamicInformationPackets n b q = some (b', q')) :
    ∃ flushed, q' = q ++ flushed ∧ loadsIn flushed = b.reads ∧ storesIn flushed = b.writes ∧
      branchesIn flushed = b.outcome ∧ ∀ op ∈ flushed, Flushed op := by
  obtain ⟨⟨b₁, q₁⟩, hloads, hrest⟩ := Option.bind_eq_some_iff.mp h
  obtain ⟨⟨b₂, q₂⟩, hstores, hbranch⟩ := Option.bind_eq_some_iff.mp hrest
  obtain ⟨xs, rfl, hx, hreads, hxcontrols, hxflushed⟩ := flush_loads haddressed hloads
  obtain ⟨ys, rfl, hy, hwrites, hycontrols, hyflushed⟩ :=
    flush_stores (hx.addressed haddressed) hstores
  obtain ⟨zs, rfl, hz, houtcome, hzflushed⟩ := flush_branch hbranch
  have hgives := (hx.trans hy).trans hz
  refine ⟨xs ++ ys ++ zs, by simp, ?_, ?_, ?_, ?_⟩
  · have hnil := hz.reads_eq_nil (hy.reads_eq_nil hreads)
    rw [hgives.loads, hnil, List.append_nil]
  · have hnil := hz.writes_eq_nil hwrites
    rw [hgives.stores, hnil, List.append_nil]
  · have hkept := (hx.trans hy).outcome_eq
    rw [controlsIn_append, hxcontrols, hycontrols] at hkept
    rw [branchesIn_append, branchesIn_append, hx.branches_eq_nil hxcontrols,
      hy.branches_eq_nil hycontrols, houtcome]
    exact hkept
  · intro op hmem
    obtain hmem | hmem := List.mem_append.mp hmem
    · obtain hmem | hmem := List.mem_append.mp hmem
      · exact hxflushed op hmem
      · exact hyflushed op hmem
    · exact hzflushed op hmem

end Flush

/-! ## The packets -/

section Configure

variable {b b' b'' : DynamicInstructionBuffer} {p : Packet} {packets rest : List Packet}

/-- The packets were added to the buffer `b`. -/
structure Configured (b : DynamicInstructionBuffer) (packets : List Packet)
    (b' : DynamicInstructionBuffer) : Prop where
  memRead : b'.memRead = b.memRead ++ readsOf packets
  memWrite : b'.memWrite = b.memWrite ++ writesOf packets
  branch : (b'.branchTaken, b'.branchAddress) =
    (branchOf packets).getD (b.branchTaken, b.branchAddress)
  memReadCount : b'.memReadCount = b.memReadCount
  memWriteCount : b'.memWriteCount = b.memWriteCount
  branchInformationRead : b'.branchInformationRead = b.branchInformationRead

theorem branchOf_append (packets rest : List Packet) :
    branchOf (packets ++ rest) = (branchOf rest).or (branchOf packets) := by
  rw [branchOf, List.filter_append, List.getLast?_append, Option.map_or]
  rfl

theorem Configured.trans (h : Configured b packets b') (h' : Configured b' rest b'') :
    Configured b (packets ++ rest) b'' where
  memRead := by
    rw [h'.memRead, h.memRead, List.append_assoc]
    simp [readsOf]
  memWrite := by
    rw [h'.memWrite, h.memWrite, List.append_assoc]
    simp [writesOf]
  branch := by
    rw [h'.branch, h.branch, branchOf_append]
    cases branchOf rest <;> rfl
  memReadCount := h'.memReadCount.trans h.memReadCount
  memWriteCount := h'.memWriteCount.trans h.memWriteCount
  branchInformationRead := h'.branchInformationRead.trans h.branchInformationRead

theorem addPacket_spec (h : addPacket b p = some b') : Configured b [p] b' := by
  rw [addPacket] at h
  split at h
  case isTrue => cases h
  case isFalse =>
    split at h
    case isTrue hread =>
      obtain ⟨-, rfl⟩ := by simpa using h
      constructor <;>
        simp [readsOf, writesOf, branchOf, hread, Encoding.memRead, Encoding.memWrite,
          Encoding.taken, Encoding.notTaken]
    case isFalse hread =>
      split at h
      case isTrue hwrite =>
        obtain ⟨-, rfl⟩ := by simpa using h
        constructor <;>
          simp [readsOf, writesOf, branchOf, hwrite, Encoding.memRead, Encoding.memWrite,
            Encoding.taken, Encoding.notTaken]
      case isFalse hwrite =>
        split at h
        case isTrue htaken =>
          cases h
          constructor <;>
            simp [readsOf, writesOf, branchOf, htaken, Encoding.memRead, Encoding.memWrite,
              Encoding.taken, Encoding.notTaken]
        case isFalse htaken =>
          split at h
          case isTrue hnotTaken =>
            cases h
            constructor <;>
              simp [readsOf, writesOf, branchOf, hnotTaken, Encoding.memRead, Encoding.memWrite,
                Encoding.taken, Encoding.notTaken]
          case isFalse hnotTaken =>
            cases h
            constructor <;>
              simp [readsOf, writesOf, branchOf, hread, hwrite, htaken, hnotTaken]

theorem foldlM_addPacket (h : packets.foldlM addPacket b = some b') :
    Configured b packets b' := by
  induction packets generalizing b with
  | nil =>
    cases h
    exact ⟨by simp [readsOf], by simp [writesOf], rfl, rfl, rfl, rfl⟩
  | cons p rest ih =>
    rw [List.foldlM_cons] at h
    obtain ⟨b₁, hadd, hrest⟩ := Option.bind_eq_some_iff.mp h
    exact (addPacket_spec hadd).trans (ih hrest)

theorem configurePackets_spec (h : b.configurePackets packets = some b') :
    b'.reads = readsOf packets ∧ b'.writes = writesOf packets ∧
      (b'.branchTaken, b'.branchAddress) = (branchOf packets).getD (b.branchTaken, -1) ∧
      (Fusion.Addressed packets → b'.Addressed ∧
        (b'.branchAddress ≠ -1 ↔ (branchOf packets).isSome) ∧
        b'.outcome = (branchOf packets).toList) := by
  have hconfigured := foldlM_addPacket h
  have hreads : b'.memRead = readsOf packets := hconfigured.memRead
  have hwrites : b'.memWrite = writesOf packets := hconfigured.memWrite
  have hcount : b'.memReadCount = 0 := hconfigured.memReadCount
  have hcount' : b'.memWriteCount = 0 := hconfigured.memWriteCount
  have hunread : b'.branchInformationRead = false := hconfigured.branchInformationRead
  have hbranch := hconfigured.branch
  refine ⟨by rw [reads, hreads, hcount, List.drop_zero],
    by rw [writes, hwrites, hcount', List.drop_zero], hbranch, ?_⟩
  intro haddressed
  refine ⟨⟨hreads ▸ haddressed.1, hwrites ▸ haddressed.2.1⟩, ?_⟩
  cases hout : branchOf packets with
  | none =>
    rw [hout] at hbranch
    have hmissing : b'.branchAddress = -1 := congrArg Prod.snd hbranch
    simp [outcome, isBranchInformationReadNeeded, hmissing]
  | some out =>
    rw [hout] at hbranch
    have hfound := haddressed.2.2 out hout
    rw [← show b'.branchAddress = out.2 from congrArg Prod.snd hbranch] at hfound
    simp only [Option.getD_some] at hbranch
    simp [outcome, isBranchInformationReadNeeded, hunread, hfound, hbranch]

end Configure

/-! ## An address that counts as missing is never carried -/

section Fresh

variable {n prev : ℕ} {ip : ℤ} {op op' : DynamicMicroOp} {ops q q' : List DynamicMicroOp}
  {b b' : DynamicInstructionBuffer} {fused failed : Bool}

/-- The micro-operation carries what its operation needs. -/
def Carries (op : DynamicMicroOp) : Prop :=
  (op.operationType = .load ∨ op.operationType = .store → op.sourceOperand1MemValue ≠ -1) ∧
    (isControl op.operationType = true → op.branchTargetAddress ≠ -1)

theorem Handled.carries (h : Handled op b fused op' b') (hop : fused = true ∨ Carries op) :
    Carries op' := by
  cases h with
  | load htype hget hfound | store htype hget hfound =>
    refine ⟨fun _ => hfound, ?_⟩
    intro hcontrol
    simp [htype, isControl] at hcontrol
  | control htype hfound =>
    refine ⟨?_, fun _ => hfound⟩
    intro hmemory
    obtain h | h := hmemory <;> simp [show op.operationType = _ from h, isControl] at htype
  | other hload hstore hcontrol =>
    refine ⟨fun hmemory => absurd hmemory (not_or.mpr ⟨hload, hstore⟩), ?_⟩
    intro h
    exact absurd h (by rw [hcontrol]; decide)
  | noLoad | noStore | noControl => exact hop.resolve_left (by decide)

/-- Behind the first `prev` places every micro-operation carries what it needs. -/
def Fresh (prev : ℕ) (q : List DynamicMicroOp) : Prop :=
  prev ≤ q.length ∧ ∀ op ∈ q.drop prev, Carries op

theorem Fresh.enqueue (h : Fresh prev q) (hop : Carries op) (henqueue : enqueue n q op = some q') :
    Fresh prev q' := by
  obtain ⟨-, rfl⟩ : _ ∧ q ++ [op] = q' := by
    simpa [Fusion.enqueue] using henqueue
  refine ⟨by rw [List.length_append]; exact Nat.le_add_right_of_le h.1, ?_⟩
  intro op₁ hmem
  rw [List.drop_append_of_le_length h.1] at hmem
  obtain hmem | hmem := List.mem_append.mp hmem
  · exact h.2 op₁ hmem
  · rw [List.mem_singleton.mp hmem]
    exact hop

theorem translate_fresh (hfresh : Fresh prev q)
    (h : translate n ip prev ops b q = some (b', q', failed)) : Fresh prev q' := by
  induction ops generalizing b q with
  | nil =>
    cases h
    exact hfresh
  | cons op rest ih =>
    rw [translate] at h
    split at h
    case isTrue =>
      cases h
      exact hfresh
    case isFalse =>
      obtain ⟨⟨fused, op₁, b₁⟩, hhandle, hloop⟩ := Option.bind_eq_some_iff.mp h
      cases fused with
      | true =>
        obtain ⟨q₁, henqueue, hrest⟩ := Option.bind_eq_some_iff.mp hloop
        exact ih (hfresh.enqueue ((handled hhandle).carries (Or.inl rfl)) henqueue) hrest
      | false =>
        cases hloop
        rw [removeInstructionFromTail_eq hfresh.1]
        refine ⟨by rw [List.length_take]; exact Nat.le_min.mpr ⟨Nat.le_refl _, hfresh.1⟩, ?_⟩
        rw [List.drop_eq_nil_of_le (List.length_take_le _ _)]
        exact fun _ hmem => absurd hmem List.not_mem_nil

theorem flush_fresh (hop : Carries op) {times : ℕ} (hfresh : Fresh prev q)
    (h : flush n op times b q = some (b', q')) : Fresh prev q' := by
  induction times generalizing b q with
  | zero =>
    cases h
    exact hfresh
  | succ times ih =>
    rw [flush] at h
    obtain ⟨⟨fused, op₁, b₁⟩, hhandle, hround⟩ := Option.bind_eq_some_iff.mp h
    obtain ⟨q₁, henqueue, hloop⟩ := Option.bind_eq_some_iff.mp hround
    exact ih (hfresh.enqueue ((handled hhandle).carries (Or.inr hop)) henqueue) hloop

theorem flushDynamicInformationPackets_fresh (hfresh : Fresh prev q)
    (h : flushDynamicInformationPackets n b q = some (b', q')) : Fresh prev q' := by
  obtain ⟨⟨b₁, q₁⟩, hloads, hrest⟩ := Option.bind_eq_some_iff.mp h
  obtain ⟨⟨b₂, q₂⟩, hstores, hbranch⟩ := Option.bind_eq_some_iff.mp hrest
  have hload : Carries staticLoadMicroOp := ⟨by decide, by decide⟩
  have hstore : Carries staticStoreMicroOp := ⟨by decide, by decide⟩
  have hcontrol : Carries staticBranchMicroOp := ⟨by decide, by decide⟩
  exact flush_fresh hcontrol (flush_fresh hstore (flush_fresh hload hfresh hloads) hstores) hbranch

end Fresh

/-! ## The whole instruction -/

section Instruction

variable {n index reads writes : ℕ} {ciscIPtoRiscIP : ℤ → Option ℕ} {ip : ℤ}
  {statics q q' : List DynamicMicroOp} {packets : List Packet}
  {b b' : DynamicInstructionBuffer} {failed : Bool}

theorem flush_of_not_missed (h : b.missedInformation = false) :
    flushDynamicInformationPackets n b q = some (b, q) := by
  obtain ⟨⟨hreads, hwrites⟩, hbranch⟩ : (b.memRead.length ≤ b.memReadCount ∧
      b.memWrite.length ≤ b.memWriteCount) ∧ b.isBranchInformationReadNeeded = false := by
    simpa [missedInformation] using h
  simp [flushDynamicInformationPackets, flush, Nat.sub_eq_zero_of_le hreads,
    Nat.sub_eq_zero_of_le hwrites, hbranch]

theorem fuseInstruction_cases (hstart : startIndex ciscIPtoRiscIP statics ip = some index)
    (h : fuseInstruction n ciscIPtoRiscIP statics ip packets b q = some (b', q', failed)) :
    ∃ b₀ b₁ q₁, b.configurePackets packets = some b₀ ∧
      translate n ip q.length (statics.drop index) b₀ q = some (b₁, q₁, failed) ∧
      flushDynamicInformationPackets n b₁ q₁ = some (b', q') := by
  obtain ⟨b₀, hconfigure, hrest⟩ := Option.bind_eq_some_iff.mp h
  obtain ⟨index₁, hindex, hloop⟩ := Option.bind_eq_some_iff.mp hrest
  cases hstart.symm.trans hindex
  obtain ⟨⟨b₁, q₁, failed₁⟩, htranslate, hend⟩ := Option.bind_eq_some_iff.mp hloop
  refine ⟨b₀, b₁, q₁, hconfigure, ?_⟩
  cases hmissed : b₁.missedInformation with
  | true =>
    simp only [hmissed, if_true] at hend
    obtain ⟨⟨b₂, q₂⟩, hflush, hend⟩ := Option.bind_eq_some_iff.mp hend
    cases hend
    exact ⟨htranslate, hflush⟩
  | false =>
    simp only [hmissed] at hend
    cases hend
    exact ⟨htranslate, flush_of_not_missed hmissed⟩

/-- Without a branch outcome no branch and no jump is fused. -/
theorem fusedBefore_false (reads writes : ℕ) (types : List OperationType) :
    (fusedBefore reads writes false types).1.filter isControl = [] := by
  induction types generalizing reads writes with
  | nil => rfl
  | cons type rest ih =>
    by_cases hload : type = .load
    · subst hload
      cases reads with
      | zero => rfl
      | succ reads => exact ih reads writes
    · by_cases hstore : type = .store
      · subst hstore
        cases writes with
        | zero => rfl
        | succ writes => exact ih reads writes
      · rw [fusedBefore_other hload hstore]
        cases hcontrol : isControl type with
        | true => rfl
        | false =>
          simpa [hcontrol] using ih reads writes

/-- The branch outcome is carried once and unchanged. -/
theorem outcome_once (controls : List OperationType) (out : Bool × ℤ) :
    controls.map (fun type => (out.1 || type = .jump, out.2)) ++
        (if controls.isEmpty then [out] else []) = [out] ↔
      controls.length ≤ 1 ∧ (OperationType.jump ∈ controls → out.1 = true) := by
  obtain ⟨taken, address⟩ := out
  match controls with
  | [] => simp
  | [type] => cases taken <;> simp [eq_comm]
  | _ :: _ :: _ => simp

theorem conserves_append (enqueued : List DynamicMicroOp) :
    Conserves packets q (q ++ enqueued) failed ↔
      loadsIn enqueued = readsOf packets ∧ storesIn enqueued = writesOf packets ∧
        branchesIn enqueued = (branchOf packets).toList ∧
          (failed = true → ∀ op ∈ enqueued, Flushed op) := by
  constructor
  · intro h
    obtain ⟨enqueued₁, happend, h⟩ := h
    cases List.append_cancel_left happend
    exact h
  · intro h
    exact ⟨enqueued, rfl, h⟩

theorem jump_mem_filter (types : List OperationType) :
    OperationType.jump ∈ types.filter isControl ↔ OperationType.jump ∈ types := by
  simp [isControl]

theorem conserves_iff_takesRight (haddressed : Addressed packets)
    (hstart : startIndex ciscIPtoRiscIP statics ip = some index)
    (h : fuseInstruction n ciscIPtoRiscIP statics ip packets b q = some (b', q', failed)) :
    Conserves packets q q' failed ↔ TakesRight packets (operationsOf statics index ip) := by
  obtain ⟨b₀, b₁, q₁, hconfigure, htranslate, hflush⟩ := fuseInstruction_cases hstart h
  obtain ⟨hreads, hwrites, hout, hconfigured⟩ := configurePackets_spec hconfigure
  obtain ⟨haddressed₀, hbranch, houtcome⟩ := hconfigured haddressed
  obtain ⟨fusedOps, hgives, hresult, hq₁⟩ :=
    translate_spec (Nat.le_refl _) haddressed₀ htranslate
  obtain ⟨flushed, hq', hloads, hstores, hbranches, hflushed⟩ :=
    flushDynamicInformationPackets_spec (hgives.addressed haddressed₀) hflush
  -- what the fused operations took and what the flush still finds
  have hloads₀ : readsOf packets = loadsIn fusedOps ++ b₁.reads := hreads ▸ hgives.loads
  have hstores₀ : writesOf packets = storesIn fusedOps ++ b₁.writes := hwrites ▸ hgives.stores
  have houtcome₁ := hgives.outcome_eq
  rw [houtcome] at houtcome₁
  have hsome : decide (b₀.branchAddress ≠ -1) = (branchOf packets).isSome := by
    rw [Bool.eq_iff_iff, decide_eq_true_iff]
    exact hbranch
  rw [hreads, hwrites, hsome] at hresult
  have hresult' : fusedBefore (readsOf packets).length (writesOf packets).length
      (branchOf packets).isSome (operationsOf statics index ip) =
        (fusedOps.map (·.operationType), !failed) := hresult.symm
  have hnone : branchOf packets = none → controlsIn fusedOps = [] := by
    intro hnone
    have := fusedBefore_false (readsOf packets).length (writesOf packets).length
      (operationsOf statics index ip)
    simp only [hnone, Option.isSome_none] at hresult'
    rwa [hresult'] at this
  have hcontrols : (fusedOps.map (·.operationType)).filter isControl = controlsIn fusedOps := rfl
  cases failed with
  | true =>
    have hq : q' = q ++ flushed := by rw [hq', hq₁, if_pos rfl, List.take_length]
    rw [hq, conserves_append, TakesRight, hresult', hloads, hstores, hbranches, houtcome₁,
      ← loadsIn_eq_nil, ← storesIn_eq_nil, hcontrols]
    simp only [Bool.not_true, Bool.false_eq_true, if_false]
    constructor
    · intro h
      obtain ⟨hl, hs, hb, -⟩ := h
      refine ⟨List.self_eq_append_left.mp (hl ▸ hloads₀), ?_, ?_⟩
      · exact List.self_eq_append_left.mp (hs ▸ hstores₀)
      · cases hbranchOf : branchOf packets with
        | none => exact hnone hbranchOf
        | some out =>
          by_contra hsomeControl
          rw [if_neg (mt List.isEmpty_iff.mp hsomeControl), hbranchOf] at hb
          cases hb
    · intro h
      obtain ⟨hl, hs, hb⟩ := h
      rw [hl, List.nil_append] at hloads₀
      rw [hs, List.nil_append] at hstores₀
      refine ⟨hloads₀.symm, hstores₀.symm, ?_, fun _ => hflushed⟩
      rw [if_pos (List.isEmpty_iff.mpr hb)]
  | false =>
    have hq : q' = q ++ (fusedOps ++ flushed) := by
      rw [hq', hq₁, if_neg (by decide), List.append_assoc]
    rw [hq, conserves_append, TakesRight, hresult', loadsIn_append, storesIn_append,
      branchesIn_append, hloads, hstores, hbranches, houtcome₁, ← hloads₀, ← hstores₀,
      hgives.branches]
    simp only [Bool.not_false, if_true, true_and, Bool.false_eq_true, false_implies, and_true]
    rw [← jump_mem_filter (fusedOps.map _), hcontrols]
    cases hbranchOf : branchOf packets with
    | none => simp [hnone hbranchOf]
    | some out =>
      rw [hbranchOf] at hout
      cases hout
      simp only [Option.some.injEq, forall_eq', Option.toList_some]
      exact outcome_once (controlsIn fusedOps) (b₀.branchTaken, b₀.branchAddress)

theorem addressed_of_conserves
    (h : fuseInstruction n ciscIPtoRiscIP statics ip packets b q = some (b', q', failed))
    (hconserves : Conserves packets q q' failed) : Addressed packets := by
  have hfresh : Fresh q.length q' := by
    obtain ⟨b₀, -, hrest⟩ := Option.bind_eq_some_iff.mp h
    obtain ⟨index, hstart, -⟩ := Option.bind_eq_some_iff.mp hrest
    obtain ⟨b₀, b₁, q₁, -, htranslate, hflush⟩ := fuseInstruction_cases hstart h
    have hinit : Fresh q.length q := by
      refine ⟨Nat.le_refl _, ?_⟩
      rw [List.drop_length]
      exact fun _ hmem => absurd hmem List.not_mem_nil
    exact flushDynamicInformationPackets_fresh (translate_fresh hinit htranslate) hflush
  obtain ⟨enqueued, rfl, hloads, hstores, hbranches, -⟩ := hconserves
  have hcarries : ∀ op ∈ enqueued, Carries op := by
    have := hfresh.2
    rwa [List.drop_left] at this
  refine ⟨?_, ?_, ?_⟩
  · rw [← hloads]
    intro hmem
    obtain ⟨op, hop, hvalue⟩ := List.mem_map.mp hmem
    obtain ⟨hop, htype⟩ := List.mem_filter.mp hop
    exact (hcarries op hop).1 (Or.inl (of_decide_eq_true htype)) hvalue
  · rw [← hstores]
    intro hmem
    obtain ⟨op, hop, hvalue⟩ := List.mem_map.mp hmem
    obtain ⟨hop, htype⟩ := List.mem_filter.mp hop
    exact (hcarries op hop).1 (Or.inr (of_decide_eq_true htype)) hvalue
  · intro out hout
    have hmem : out ∈ branchesIn enqueued := by
      rw [hbranches, hout]
      exact List.mem_singleton_self out
    obtain ⟨op, hop, rfl⟩ := List.mem_map.mp hmem
    obtain ⟨hop, htype⟩ := List.mem_filter.mp hop
    exact (hcarries op hop).2 htype

/-- Fusion keeps the information of the packets exactly when no operation in front of the
first one that fails has taken any, and the branch outcome has one taker it suits. -/
theorem fusion_conserves_iff (hstart : startIndex ciscIPtoRiscIP statics ip = some index)
    (h : fuseInstruction n ciscIPtoRiscIP statics ip packets b q = some (b', q', failed)) :
    Conserves packets q q' failed ↔
      Addressed packets ∧ TakesRight packets (operationsOf statics index ip) := by
  constructor
  · intro hconserves
    have haddressed := addressed_of_conserves h hconserves
    exact ⟨haddressed, (conserves_iff_takesRight haddressed hstart h).mp hconserves⟩
  · intro hcondition
    exact (conserves_iff_takesRight hcondition.1 hstart h).mpr hcondition.2

/-- A load, an addition and a store to the same place at the address 7, as an instruction
such as `add [x], eax` has them. -/
def readModifyWrite : List DynamicMicroOp :=
  [⟨⟨.load, 7⟩, 0, false, 0⟩, ⟨⟨.integerALU, 7⟩, 0, false, 0⟩, ⟨⟨.store, 7⟩, 0, false, 0⟩]

def emptyBuffer : DynamicInstructionBuffer := ⟨[], 0, [], 0, false, false, -1⟩

/-- With both packets the three micro-operations are fused. -/
theorem fusion_conserves_fused :
    Conserves [⟨7, 2, 100⟩, ⟨7, 3, 100⟩] []
      [⟨⟨.load, 7⟩, 100, false, 0⟩, ⟨⟨.integerALU, 7⟩, 0, false, 0⟩,
        ⟨⟨.store, 7⟩, 100, false, 0⟩] false ↔
      Addressed [⟨7, 2, 100⟩, ⟨7, 3, 100⟩] ∧
        TakesRight [⟨7, 2, 100⟩, ⟨7, 3, 100⟩]
          (operationsOf readModifyWrite 0 7) :=
  have hstart : startIndex (fun _ => some 0) readModifyWrite 7 = some 0 := by decide
  have hfused : fuseInstruction 16 (fun _ => some 0) readModifyWrite 7
      [⟨7, 2, 100⟩, ⟨7, 3, 100⟩] emptyBuffer [] =
        some (⟨[100], 1, [100], 1, false, false, -1⟩,
          [⟨⟨.load, 7⟩, 100, false, 0⟩, ⟨⟨.integerALU, 7⟩, 0, false, 0⟩,
            ⟨⟨.store, 7⟩, 100, false, 0⟩], false) := by decide
  fusion_conserves_iff hstart hfused

/-- With the read packet alone the store fails, and the address of the load that was
rolled back is lost. -/
theorem rollback_loses_read :
    ∃ b' q' failed, fuseInstruction 16 (fun _ => some 0) readModifyWrite 7 [⟨7, 2, 100⟩]
        emptyBuffer [] = some (b', q', failed) ∧
      ¬ Conserves [⟨7, 2, 100⟩] [] q' failed := by
  refine ⟨⟨[100], 1, [], 0, false, false, -1⟩, [], true, by decide, ?_⟩
  intro h
  obtain ⟨enqueued, happend, hloads, -⟩ := h
  have hnil : enqueued = [] := List.append_cancel_left happend.symm
  subst hnil
  exact absurd hloads (by decide)

end Instruction

/-! ## When there is no error exit -/

section Returns

variable {n index prev : ℕ} {ciscIPtoRiscIP : ℤ → Option ℕ} {ip : ℤ} {op op' : DynamicMicroOp}
  {statics ops q : List DynamicMicroOp} {packets : List Packet}
  {b b' : DynamicInstructionBuffer} {fused : Bool}

theorem Handled.sizes (h : Handled op b fused op' b') :
    b'.memRead = b.memRead ∧ b'.memWrite = b.memWrite := by
  cases h with
  | load htype hget | noLoad htype hget =>
    rw [getSingleLoadAddress] at hget
    split at hget <;> cases hget <;> exact ⟨rfl, rfl⟩
  | store htype hget | noStore htype hget =>
    rw [getSingleStoreAddress] at hget
    split at hget <;> cases hget <;> exact ⟨rfl, rfl⟩
  | control | noControl | other => exact ⟨rfl, rfl⟩

/-- The operation has a handler. -/
def HasHandler (op : DynamicMicroOp) : Prop :=
  op.operationType ≠ .sync ∧ op.operationType ≠ .mfence

theorem handle_returns (h : HasHandler op) : ∃ r, handle op b = some r := by
  obtain ⟨⟨type, pc⟩, value, taken, address⟩ := op
  obtain ⟨hsync, hmfence⟩ := h
  cases type with
  | sync => exact absurd rfl hsync
  | mfence => exact absurd rfl hmfence
  | load | store | branch | jump =>
    refine Option.isSome_iff_exists.mp ?_
    simp only [handle]
    split <;> rfl
  | _ => exact ⟨_, rfl⟩

theorem enqueue_of_lt (h : q.length < n) : enqueue n q op = some (q ++ [op]) := if_pos h

theorem configurePackets_returns (hfew : packets.length ≤ bufferLength)
    (hvalues : ∀ p ∈ packets, intValue p ≠ 0 ∧ intValue p ≠ 1) :
    ∃ b', b.configurePackets packets = some b' := by
  suffices h : ∀ rest : List Packet, ∀ b : DynamicInstructionBuffer,
      b.memRead.length + rest.length ≤ bufferLength →
      b.memWrite.length + rest.length ≤ bufferLength →
      (∀ p ∈ rest, intValue p ≠ 0 ∧ intValue p ≠ 1) →
      ∃ b', rest.foldlM addPacket b = some b' from
    h packets b.clear (by simpa [clear] using hfew) (by simpa [clear] using hfew) hvalues
  intro rest
  induction rest with
  | nil => exact fun b _ _ _ => ⟨b, rfl⟩
  | cons p rest ih =>
    intro b hread hwrite hvalues
    rw [List.length_cons] at hread hwrite
    obtain ⟨hzero, hone⟩ := hvalues p List.mem_cons_self
    have hrest : ∀ p ∈ rest, intValue p ≠ 0 ∧ intValue p ≠ 1 :=
      fun p hp => hvalues p (List.mem_cons_of_mem _ hp)
    obtain ⟨b₁, hadd, hread₁, hwrite₁⟩ : ∃ b₁, addPacket b p = some b₁ ∧
        b₁.memRead.length ≤ b.memRead.length + 1 ∧
        b₁.memWrite.length ≤ b.memWrite.length + 1 := by
      rw [addPacket, if_neg (not_or.mpr ⟨hzero, hone⟩)]
      split
      · rw [if_pos (by omega)]
        exact ⟨_, rfl, by simp, by simp⟩
      · split
        · rw [if_pos (by omega)]
          exact ⟨_, rfl, by simp, by simp⟩
        · split
          · exact ⟨_, rfl, by simp, by simp⟩
          · split <;> exact ⟨_, rfl, by simp, by simp⟩
    rw [List.foldlM_cons, hadd]
    exact ih b₁ (by omega) (by omega) hrest

theorem translate_returns (prev : ℕ) (ip : ℤ) (hroom : q.length + ops.length ≤ n)
    (hhandlers : ∀ op ∈ ops, HasHandler op) :
    ∃ b' q' failed, translate n ip prev ops b q = some (b', q', failed) ∧
      b'.memRead = b.memRead ∧ b'.memWrite = b.memWrite ∧
      q'.length ≤ q.length + ops.length := by
  induction ops generalizing b q with
  | nil => exact ⟨b, q, false, rfl, rfl, rfl, Nat.le_refl _⟩
  | cons op rest ih =>
    rw [List.length_cons] at hroom
    rw [translate]
    split
    case isTrue => exact ⟨b, q, false, rfl, rfl, rfl, Nat.le_add_right _ _⟩
    case isFalse =>
      obtain ⟨⟨fused, op₁, b₁⟩, hhandle⟩ :=
        handle_returns (b := b) (hhandlers op List.mem_cons_self)
      obtain ⟨hread, hwrite⟩ := (handled hhandle).sizes
      simp only [hhandle, Option.bind_eq_bind, Option.bind_some]
      cases fused with
      | true =>
        rw [if_pos rfl, enqueue_of_lt (by omega)]
        obtain ⟨b₂, q₂, failed, htranslate, hread₂, hwrite₂, hlength⟩ :=
          ih (b := b₁) (q := q ++ [op₁])
            (by rw [List.length_append, List.length_singleton]; omega)
            (fun op hop => hhandlers op (List.mem_cons_of_mem _ hop))
        refine ⟨b₂, q₂, failed, htranslate, hread₂.trans hread, hwrite₂.trans hwrite, ?_⟩
        rw [List.length_append, List.length_singleton] at hlength
        rw [List.length_cons]
        omega
      | false =>
        refine ⟨b₁, _, true, rfl, hread, hwrite, ?_⟩
        rw [removeInstructionFromTail, iterate_dropLast, List.length_take, List.length_cons]
        omega

theorem flush_returns (times : ℕ) (hroom : q.length + times ≤ n) (hop : HasHandler op) :
    ∃ b' q', flush n op times b q = some (b', q') ∧ b'.memRead = b.memRead ∧
      b'.memWrite = b.memWrite ∧ q'.length = q.length + times := by
  induction times generalizing b q with
  | zero => exact ⟨b, q, rfl, rfl, rfl, rfl⟩
  | succ times ih =>
    obtain ⟨⟨fused, op₁, b₁⟩, hhandle⟩ := handle_returns (b := b) hop
    obtain ⟨hread, hwrite⟩ := (handled hhandle).sizes
    obtain ⟨b₂, q₂, hflush, hread₂, hwrite₂, hlength⟩ :=
      ih (b := b₁) (q := q ++ [op₁]) (by rw [List.length_append, List.length_singleton]; omega)
    refine ⟨b₂, q₂, ?_, hread₂.trans hread, hwrite₂.trans hwrite, ?_⟩
    · simp only [flush, hhandle, Option.bind_eq_bind, Option.bind_some]
      rw [enqueue_of_lt (by omega)]
      exact hflush
    · rw [hlength, List.length_append, List.length_singleton]
      omega

/-- With room in the queue, few packets of known values and a handler for every
micro-operation, `fuseInstruction` returns. -/
theorem fuseInstruction_returns
    (hstart : startIndex ciscIPtoRiscIP statics ip = some index)
    (hroom : q.length + statics.length + (readsOf packets).length + (writesOf packets).length <
      n)
    (hfew : packets.length ≤ bufferLength)
    (hvalues : ∀ p ∈ packets, intValue p ≠ 0 ∧ intValue p ≠ 1)
    (hhandlers : ∀ op ∈ statics, HasHandler op) :
    ∃ r, fuseInstruction n ciscIPtoRiscIP statics ip packets b q = some r := by
  obtain ⟨b₀, hconfigure⟩ := configurePackets_returns (b := b) hfew hvalues
  obtain ⟨hreads, hwrites, -, -⟩ := configurePackets_spec hconfigure
  have hconfigured := foldlM_addPacket hconfigure
  have hread₀ : b₀.memRead = readsOf packets := hconfigured.memRead
  have hwrite₀ : b₀.memWrite = writesOf packets := hconfigured.memWrite
  have hdrop : (statics.drop index).length ≤ statics.length := by
    rw [List.length_drop]
    omega
  obtain ⟨b₁, q₁, failed, htranslate, hread₁, hwrite₁, hlength₁⟩ :=
    translate_returns (n := n) (b := b₀) (q := q) q.length ip
      (Nat.le_trans (Nat.add_le_add_left hdrop _) (by omega))
      (fun op hop => hhandlers op (List.mem_of_mem_drop hop))
  rw [hread₀] at hread₁
  rw [hwrite₀] at hwrite₁
  have hload : HasHandler staticLoadMicroOp := ⟨by decide, by decide⟩
  have hstore : HasHandler staticStoreMicroOp := ⟨by decide, by decide⟩
  have hcontrol : HasHandler staticBranchMicroOp := ⟨by decide, by decide⟩
  have hreadRoom : b₁.memRead.length - b₁.memReadCount ≤ (readsOf packets).length := by
    rw [hread₁]
    omega
  obtain ⟨b₂, q₂, hloads, hread₂, hwrite₂, hlength₂⟩ :=
    flush_returns (n := n) (q := q₁) (b := b₁) (b₁.memRead.length - b₁.memReadCount)
      (by omega) hload
  have hwriteRoom : b₂.memWrite.length - b₂.memWriteCount ≤ (writesOf packets).length := by
    rw [hwrite₂, hwrite₁]
    omega
  obtain ⟨b₃, q₃, hstores, hread₃, hwrite₃, hlength₃⟩ :=
    flush_returns (n := n) (q := q₂) (b := b₂) (b₂.memWrite.length - b₂.memWriteCount)
      (by omega) hstore
  have htimes : (if b₃.isBranchInformationReadNeeded then 1 else 0) ≤ 1 := by
    split <;> decide
  obtain ⟨b₄, q₄, hbranch, -, -, -⟩ :=
    flush_returns (n := n) (q := q₃) (b := b₃)
      (if b₃.isBranchInformationReadNeeded then 1 else 0) (by omega) hcontrol
  have hflush : flushDynamicInformationPackets n b₁ q₁ = some (b₄, q₄) := by
    simp only [flushDynamicInformationPackets, hloads, hstores, Option.bind_eq_bind,
      Option.bind_some]
    exact hbranch
  simp only [fuseInstruction, hconfigure, hstart, htranslate, hflush, Option.bind_eq_bind,
    Option.bind_some]
  split <;> exact ⟨_, rfl⟩

end Returns

end Fusion

end Tejas
