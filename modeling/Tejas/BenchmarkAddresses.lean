import Mathlib.Data.Nat.Notation
import Mathlib.Data.Int.Notation
import Mathlib.Logic.Basic
import Mathlib.Tactic.ByContra

/-!
# Addresses of benchmarks

When several benchmarks run, `RunnableThread.java` marks the addresses of a
micro-operation with the number of its benchmark. `Instruction.java` shifts the number into
the eight highest bits and takes the bitwise or with the address, so the bits that the
address has there stay set.
-/

namespace Tejas

/-- The fields of `Instruction.java` that hold addresses. -/
inductive AddressField where
  | ciscProgramCounter
  | sourceOperand1MemValue
  | sourceOperand2MemValue
  | destinationOperandMemValue
  | branchTargetAddress
  deriving DecidableEq, Repr

/-- An instruction with its address fields. -/
structure AddressedInstruction where
  ciscProgramCounter : BitVec 64
  sourceOperand1MemValue : BitVec 64
  sourceOperand2MemValue : BitVec 64
  destinationOperandMemValue : BitVec 64
  branchTargetAddress : BitVec 64
  deriving DecidableEq, Repr

def createAddressForBM (address : BitVec 64) (bm : BitVec 32) : BitVec 64 :=
  bm.signExtend 64 <<< 56 ||| address

namespace AddressedInstruction

variable (i j : AddressedInstruction)

def get : AddressField → BitVec 64
  | .ciscProgramCounter => i.ciscProgramCounter
  | .sourceOperand1MemValue => i.sourceOperand1MemValue
  | .sourceOperand2MemValue => i.sourceOperand2MemValue
  | .destinationOperandMemValue => i.destinationOperandMemValue
  | .branchTargetAddress => i.branchTargetAddress

def changeAddressesForBenchmark (bm : BitVec 32) : AddressedInstruction where
  ciscProgramCounter :=
    if i.ciscProgramCounter ≠ -1 then createAddressForBM i.ciscProgramCounter bm
    else i.ciscProgramCounter
  sourceOperand1MemValue := createAddressForBM i.sourceOperand1MemValue bm
  sourceOperand2MemValue := createAddressForBM i.sourceOperand2MemValue bm
  destinationOperandMemValue := createAddressForBM i.destinationOperandMemValue bm
  branchTargetAddress := createAddressForBM i.branchTargetAddress bm

/-- The field holds an address: the program counter -1 is none. -/
def IsAddress (f : AddressField) : Prop := f = .ciscProgramCounter → i.ciscProgramCounter ≠ -1

instance (f : AddressField) : Decidable (i.IsAddress f) := inferInstanceAs (Decidable (_ → _))

/-- Every address has the number of the benchmark in its eight highest bits and keeps the
other bits. -/
def Tagged (b : BitVec 8) : Prop :=
  ∀ f, i.IsAddress f →
    ((i.changeAddressesForBenchmark (b.setWidth 32)).get f).extractLsb' 56 8 = b ∧
    ((i.changeAddressesForBenchmark (b.setWidth 32)).get f).extractLsb' 0 56 =
      (i.get f).extractLsb' 0 56

/-- The instructions have no address in common once they are marked. -/
def Separated (b c : BitVec 8) : Prop :=
  ∀ f g, i.IsAddress f → j.IsAddress g →
    (i.changeAddressesForBenchmark (b.setWidth 32)).get f ≠
      (j.changeAddressesForBenchmark (c.setWidth 32)).get g

/-- The highest bits of every address are among those of the number. -/
def Within (b : BitVec 8) : Prop :=
  ∀ f, i.IsAddress f → (i.get f).extractLsb' 56 8 ||| b = b

end AddressedInstruction

/-! ### One address -/

variable {address address' : BitVec 64} {b c : BitVec 8}

/-- A number of eight bits is positive as an `int`. -/
theorem signExtend_benchmark (b : BitVec 8) : (b.setWidth 32).signExtend 64 = b.setWidth 64 := by
  ext k hk
  have hb : 8 ≤ k → b.getLsbD k = false := fun h => b.getLsbD_of_ge k h
  simp only [BitVec.getElem_signExtend, BitVec.getElem_setWidth, BitVec.msb_setWidth]
  grind

theorem createAddressForBM_high (address : BitVec 64) (b : BitVec 8) :
    (createAddressForBM address (b.setWidth 32)).extractLsb' 56 8 =
      address.extractLsb' 56 8 ||| b := by
  rw [createAddressForBM, signExtend_benchmark]
  ext k hk
  have hbit : 56 + k - 56 = k := by omega
  have hlow : ¬ 56 + k < 56 := by omega
  have hwidth : 56 + k < 64 := by omega
  simp [hbit, hlow, hwidth, BitVec.getLsbD_eq_getElem hk, Bool.or_comm]

theorem createAddressForBM_low (address : BitVec 64) (bm : BitVec 32) :
    (createAddressForBM address bm).extractLsb' 0 56 = address.extractLsb' 0 56 := by
  ext k hk
  simp [createAddressForBM, hk]

/-- An address is its highest eight bits and the others. -/
theorem eq_of_high_low (hhigh : address.extractLsb' 56 8 = address'.extractLsb' 56 8)
    (hlow : address.extractLsb' 0 56 = address'.extractLsb' 0 56) : address = address' := by
  apply BitVec.eq_of_getLsbD_eq
  intro k hk
  rcases Nat.lt_or_ge k 56 with hsmall | hlarge
  · have hbit := congrArg (fun x => x.getLsbD k) hlow
    simpa only [BitVec.getLsbD_extractLsb', hsmall, decide_true, Bool.true_and,
      Nat.zero_add] using hbit
  · have hbit := congrArg (fun x => x.getLsbD (k - 56)) hhigh
    have hk' : k - 56 < 8 := by omega
    simpa only [BitVec.getLsbD_extractLsb', hk', decide_true, Bool.true_and,
      Nat.add_sub_cancel' hlarge] using hbit

/-- Two marked addresses are equal exactly when their lower bits are equal and the numbers
add up to the same highest bits. -/
theorem createAddressForBM_eq_iff :
    createAddressForBM address (b.setWidth 32) = createAddressForBM address' (c.setWidth 32) ↔
      address.extractLsb' 0 56 = address'.extractLsb' 0 56 ∧
        address.extractLsb' 56 8 ||| b = address'.extractLsb' 56 8 ||| c := by
  rw [← createAddressForBM_high, ← createAddressForBM_high,
    ← createAddressForBM_low address (b.setWidth 32),
    ← createAddressForBM_low address' (c.setWidth 32)]
  exact ⟨fun h => by simp [h], fun h => eq_of_high_low h.2 h.1⟩

/-! ### Instructions -/

namespace AddressedInstruction

variable {i j : AddressedInstruction} {f : AddressField}

/-- Every address of an instruction is marked. -/
theorem get_changeAddresses (h : i.IsAddress f) (bm : BitVec 32) :
    (i.changeAddressesForBenchmark bm).get f = createAddressForBM (i.get f) bm := by
  cases f with
  | ciscProgramCounter => exact if_pos (h rfl)
  | sourceOperand1MemValue => rfl
  | sourceOperand2MemValue => rfl
  | destinationOperandMemValue => rfl
  | branchTargetAddress => rfl

theorem tagged_iff_within : i.Tagged b ↔ i.Within b := by
  constructor
  · intro h f hf
    rw [← createAddressForBM_high, ← get_changeAddresses hf]
    exact (h f hf).1
  · intro h f hf
    rw [get_changeAddresses hf]
    exact ⟨(createAddressForBM_high _ b).trans (h f hf), createAddressForBM_low _ _⟩

theorem separated_of_tagged (hi : i.Tagged b) (hj : j.Tagged c) (hne : b ≠ c) :
    i.Separated j b c := by
  intro f g hf hg heq
  rw [← (hi f hf).1, ← (hj g hg).1, heq] at hne
  exact hne rfl

/-- Marking tags all addresses of two instructions and keeps those of different benchmarks
apart exactly when the addresses have no high bits but those of their benchmarks. -/
theorem tagged_separated_iff (i j : AddressedInstruction) (b c : BitVec 8) :
    (i.Tagged b ∧ j.Tagged c ∧ (b ≠ c → i.Separated j b c)) ↔ i.Within b ∧ j.Within c := by
  rw [tagged_iff_within, tagged_iff_within]
  constructor
  · rintro ⟨hi, hj, -⟩
    exact ⟨hi, hj⟩
  · rintro ⟨hi, hj⟩
    exact ⟨hi, hj, separated_of_tagged (tagged_iff_within.mpr hi) (tagged_iff_within.mpr hj)⟩

/-- The address -1 of two benchmarks stays one address. -/
theorem marker_not_tagged : ¬ ∀ (i j : AddressedInstruction) (b c : BitVec 8),
    i.Tagged b ∧ j.Tagged c ∧ (b ≠ c → i.Separated j b c) := by
  intro h
  obtain ⟨-, -, hseparated⟩ := h ⟨0x400000, -1, 0, 0, 0⟩ ⟨0x400000, -1, 0, 0, 0⟩ 1 2
  exact hseparated (by decide) .sourceOperand1MemValue .sourceOperand1MemValue (by decide)
    (by decide) (by decide)

end AddressedInstruction

/-! ### The micro-operations of a packet -/

namespace AddressedInstruction

variable {numBenchmarks tidApp : ℤ} {benchmarkID : BitVec 32} {ip : BitVec 64}
  {microOps : List AddressedInstruction} {op : AddressedInstruction}

/-- The part of `processPacket` behind the translation, for the micro-operations that the
packet has added: their program counters and the marks of their addresses. -/
def closePacket (numBenchmarks tidApp : ℤ) (benchmarkID : BitVec 32) (ip : BitVec 64)
    (microOps : List AddressedInstruction) : List AddressedInstruction :=
  let counted := microOps.mapIdx (fun k op =>
    { op with ciscProgramCounter := if k = 0 then ip else -1 })
  if 1 < numBenchmarks ∧ 0 < tidApp ∧ benchmarkID ≠ 0 then
    counted.map (fun op => op.changeAddressesForBenchmark benchmarkID)
  else counted

/-- All addresses of a packet end up with the number of the benchmark, if they have no high
bits and what goes without a mark belongs to benchmark 0. -/
theorem closePacket_high (hmarks : b ≠ 0 → 1 < numBenchmarks ∧ 0 < tidApp)
    (hip : ip.extractLsb' 56 8 = 0)
    (hops : ∀ op ∈ microOps, ∀ f, f ≠ .ciscProgramCounter → (op.get f).extractLsb' 56 8 = 0)
    (hop : op ∈ closePacket numBenchmarks tidApp (b.setWidth 32) ip microOps)
    (hf : op.IsAddress f) : (op.get f).extractLsb' 56 8 = b := by
  have hcounted : ∀ raw ∈ microOps.mapIdx (fun k op =>
      { op with ciscProgramCounter := if k = 0 then ip else -1 }), ∀ f, raw.IsAddress f →
      (raw.get f).extractLsb' 56 8 = 0 := by
    intro raw hraw f hf
    obtain ⟨k, hk, rfl⟩ := List.mem_mapIdx.mp hraw
    have hmem := hops microOps[k] (List.getElem_mem hk)
    cases f with
    | ciscProgramCounter =>
      have hne := hf rfl
      dsimp only [get] at hne ⊢
      split at hne
      · rwa [if_pos ‹_›]
      · exact absurd rfl hne
    | sourceOperand1MemValue => exact hmem .sourceOperand1MemValue (by decide)
    | sourceOperand2MemValue => exact hmem .sourceOperand2MemValue (by decide)
    | destinationOperandMemValue => exact hmem .destinationOperandMemValue (by decide)
    | branchTargetAddress => exact hmem .branchTargetAddress (by decide)
  rw [closePacket] at hop
  split at hop
  case isTrue =>
    obtain ⟨raw, hraw, rfl⟩ := List.mem_map.mp hop
    have hrawf : raw.IsAddress f := by
      intro hpc hmarker
      refine hf hpc ?_
      dsimp only [changeAddressesForBenchmark]
      rw [if_neg (not_not.mpr hmarker), hmarker]
    rw [get_changeAddresses hrawf, createAddressForBM_high, hcounted raw hraw f hrawf]
    exact BitVec.zero_or
  case isFalse hunmarked =>
    have hzero : b = 0 := by
      by_contra hne
      obtain ⟨hseveral, hthread⟩ := hmarks hne
      refine hunmarked ⟨hseveral, hthread, fun h => hne ?_⟩
      have hnat := congrArg BitVec.toNat h
      have hlt := b.isLt
      rw [BitVec.toNat_setWidth, Nat.mod_eq_of_lt (by omega)] at hnat
      exact BitVec.eq_of_toNat_eq hnat
    rw [hzero]
    exact hcounted op hop f hf

end AddressedInstruction

end Tejas
