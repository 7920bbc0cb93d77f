import Tejas.Instructions
import Tejas.LabelledRuns
import Mathlib.Data.Int.Init
import Mathlib.Logic.Function.Basic

/-!
# Functional units and their issue ports

`requestFU` answers a request for a unit with one number: the negated index of the unit that
it assigns, or the earliest time at which a unit of the type becomes available. The callers
tell the two apart by the sign, but a unit that was never used is available at time zero, and
it may be kept from use by its port alone.
-/

namespace Tejas
open LabelledRuns

inductive FunctionalUnitType where
  | inValid
  | integerALU
  | integerMul
  | integerDiv
  | floatALU
  | floatMul
  | floatDiv
  | memory
  | jump
  deriving DecidableEq, Repr

/-- `OpTypeToFUTypeMapping` -/
def OperationType.getFUType : OperationType → FunctionalUnitType
  | .integerALU => .integerALU
  | .integerMul => .integerMul
  | .integerDiv => .integerDiv
  | .floatALU => .floatALU
  | .floatMul => .floatMul
  | .floatDiv => .floatDiv
  | .load => .memory
  | .store => .memory
  | .jump => .jump
  | .branch => .jump
  | .mov => .integerALU
  | .xchg => .integerALU
  | .mfence => .memory
  | _ => .inValid

structure FunctionalUnit (numPorts : ℕ) where
  latency : ℤ
  reciprocalOfThroughput : ℤ
  timeWhenFUAvailable : ℤ
  portNumber : Fin numPorts
  deriving DecidableEq

/-- What the configuration of a core says about its units. -/
structure UnitConfig (numPorts : ℕ) where
  latency : ℤ
  reciprocalOfThroughput : ℤ
  portNumbers : List (Fin numPorts)

structure ExecutionCore (numPorts : ℕ) where
  FUs : FunctionalUnitType → List (FunctionalUnit numPorts)
  portUsedThisCycle : Fin numPorts → Bool
  stepSize : ℤ
  numIntALUAccesses : ℤ
  numFloatALUAccesses : ℤ
  numComplexALUAccesses : ℤ

namespace ExecutionCore

variable {numPorts : ℕ}

/-- There is no array of units for the type `inValid`. -/
def new (stepSize : ℤ) (cfg : FunctionalUnitType → UnitConfig numPorts) :
    ExecutionCore numPorts where
  FUs := fun type =>
    if type = .inValid then [] else (cfg type).portNumbers.map (fun port => {
      latency := (cfg type).latency
      reciprocalOfThroughput := (cfg type).reciprocalOfThroughput
      timeWhenFUAvailable := 0
      portNumber := port })
  portUsedThisCycle := fun _ => false
  stepSize := stepSize
  numIntALUAccesses := 0
  numFloatALUAccesses := 0
  numComplexALUAccesses := 0

variable (core : ExecutionCore numPorts) (type : FunctionalUnitType) (now : ℤ)

/-- `canUse` -/
def canUse (fu : FunctionalUnit numPorts) : Bool :=
  fu.timeWhenFUAvailable ≤ now ∧ core.portUsedThisCycle fu.portNumber = false

/-- The loop over the units from index `i` on. It ends at a unit that can be used, or with the
earliest time at which a unit becomes available. -/
def searchFU : List (FunctionalUnit numPorts) → ℕ → ℤ → (ℕ × FunctionalUnit numPorts) ⊕ ℤ
  | [], _, timeTillAvailable => .inr timeTillAvailable
  | fu :: rest, i, timeTillAvailable =>
    if core.canUse now fu then .inl (i, fu)
    else searchFU rest (i + 1)
      (if fu.timeWhenFUAvailable < timeTillAvailable then fu.timeWhenFUAvailable
        else timeTillAvailable)

/-- The unit is busy for its reciprocal of throughput, its port for the rest of the cycle. -/
def allocate (i : ℕ) (fu : FunctionalUnit numPorts) : ExecutionCore numPorts :=
  { core with
    FUs := Function.update core.FUs type ((core.FUs type).set i
      { fu with timeWhenFUAvailable := now + fu.reciprocalOfThroughput * core.stepSize })
    portUsedThisCycle := Function.update core.portUsedThisCycle fu.portNumber true
    numIntALUAccesses :=
      if type = .integerALU then core.numIntALUAccesses + fu.latency else core.numIntALUAccesses
    numFloatALUAccesses :=
      if type = .floatALU then core.numFloatALUAccesses + fu.latency
      else core.numFloatALUAccesses
    numComplexALUAccesses :=
      if type = .integerALU ∨ type = .floatALU then core.numComplexALUAccesses
      else core.numComplexALUAccesses + fu.latency }

/-- `none` if there is no unit of the type, where the array of units has no first element. -/
def requestFU : Option (ℤ × ExecutionCore numPorts) :=
  match core.FUs type with
  | [] => none
  | first :: rest =>
    match core.searchFU now (first :: rest) 0 first.timeWhenFUAvailable with
    | .inl (i, fu) => some (i * (-1), core.allocate type now i fu)
    | .inr timeTillAvailable => some (timeTillAvailable, core)

/-- `none` if there is no unit of the type. -/
def getFULatency : Option ℤ := (core.FUs type).head?.map FunctionalUnit.latency

def clearPortUsage : ExecutionCore numPorts := { core with portUsedThisCycle := fun _ => false }

/-! ### What a request does -/

/-- A free unit with an unused port gets the request and becomes busy with its port. -/
def Allocates (v : ℤ) (core' : ExecutionCore numPorts) : Prop :=
  ∃ (i : ℕ) (fu : FunctionalUnit numPorts), (core.FUs type)[i]? = some fu ∧
    core.canUse now fu = true ∧ v = -i ∧ core' = core.allocate type now i fu

/-- The answer is not positive exactly when a unit was allocated. -/
def Conforms : Prop :=
  ∃ v core', core.requestFU type now = some (v, core') ∧
    (v ≤ 0 ↔ core.Allocates type now v core')

/-- There is a unit of the type, and either one can be used or each of them was used before. -/
def SignTells : Prop :=
  core.FUs type ≠ [] ∧
    ((∃ fu ∈ core.FUs type, core.canUse now fu = true) ∨
      ∀ fu ∈ core.FUs type, 0 < fu.timeWhenFUAvailable)

instance : Decidable (core.SignTells type now) :=
  inferInstanceAs (Decidable (_ ∧ (_ ∨ _)))

variable {core type now}

theorem searchFU_inl {fus : List (FunctionalUnit numPorts)} {i j : ℕ} {t : ℤ}
    {fu : FunctionalUnit numPorts} (h : core.searchFU now fus i t = .inl (j, fu)) :
    ∃ k, j = i + k ∧ fus[k]? = some fu ∧ core.canUse now fu = true := by
  induction fus generalizing i t with
  | nil => cases h
  | cons head rest ih =>
    rw [searchFU] at h
    split at h
    case isTrue hcan =>
      cases h
      exact ⟨0, rfl, rfl, hcan⟩
    case isFalse =>
      obtain ⟨k, rfl, hk, hcan⟩ := ih h
      exact ⟨k + 1, by omega, hk, hcan⟩

/-- When no unit can be used, the answer is positive exactly if all the times are. -/
theorem searchFU_inr {fus : List (FunctionalUnit numPorts)} {i : ℕ} {t t' : ℤ}
    (h : core.searchFU now fus i t = .inr t') :
    (∀ fu ∈ fus, core.canUse now fu = false) ∧
      (0 < t' ↔ 0 < t ∧ ∀ fu ∈ fus, 0 < fu.timeWhenFUAvailable) := by
  induction fus generalizing i t with
  | nil =>
    cases h
    simp
  | cons head rest ih =>
    rw [searchFU] at h
    split at h
    case isTrue => cases h
    case isFalse hcan =>
      obtain ⟨hrest, hpos⟩ := ih h
      have hmin : 0 < (if head.timeWhenFUAvailable < t then head.timeWhenFUAvailable else t) ↔
          0 < t ∧ 0 < head.timeWhenFUAvailable := by
        split <;> omega
      refine ⟨List.forall_mem_cons.mpr ⟨by simpa using hcan, hrest⟩, ?_⟩
      rw [hpos, hmin, List.forall_mem_cons, and_assoc]

/-- A request is allocated a unit that can be used, or it changes nothing. -/
theorem requestFU_cases {v : ℤ} {core' : ExecutionCore numPorts}
    (h : core.requestFU type now = some (v, core')) :
    core.Allocates type now v core' ∨
      (core' = core ∧ (∀ fu ∈ core.FUs type, core.canUse now fu = false) ∧
        (0 < v ↔ ∀ fu ∈ core.FUs type, 0 < fu.timeWhenFUAvailable)) := by
  rw [requestFU] at h
  split at h
  case h_1 => cases h
  case h_2 first rest hfus =>
    split at h
    case h_1 i fu hsearch =>
      obtain ⟨k, rfl, hk, hcan⟩ := searchFU_inl hsearch
      cases h
      exact .inl ⟨0 + k, fu, by rw [hfus, Nat.zero_add, hk], hcan, by omega, rfl⟩
    case h_2 t hsearch =>
      obtain ⟨hnone, hpos⟩ := searchFU_inr hsearch
      cases h
      refine .inr ⟨rfl, by rwa [hfus], ?_⟩
      rw [hpos, hfus]
      exact ⟨fun h => h.2, fun h => ⟨h first List.mem_cons_self, h⟩⟩

theorem requestFU_eq_none_iff : core.requestFU type now = none ↔ core.FUs type = [] := by
  rw [requestFU]
  split
  case h_1 hfus => simp [hfus]
  case h_2 first rest hfus =>
    rw [hfus]
    split <;> simp

/-- What the request does is told by the sign of the answer exactly under the condition. -/
theorem conforms_iff : core.Conforms type now ↔ core.SignTells type now := by
  cases h : core.requestFU type now with
  | none =>
    have hnil := requestFU_eq_none_iff.mp h
    constructor
    · rintro ⟨v, core', hsome, -⟩
      rw [h] at hsome
      cases hsome
    · rintro ⟨hne, -⟩
      exact absurd hnil hne
  | some answer =>
    obtain ⟨v, core'⟩ := answer
    have hne : core.FUs type ≠ [] := by
      intro hnil
      rw [requestFU_eq_none_iff.mpr hnil] at h
      cases h
    have hconforms : core.Conforms type now ↔ (v ≤ 0 ↔ core.Allocates type now v core') := by
      rw [Conforms, h]
      constructor
      · rintro ⟨v', core'', hsome, hiff⟩
        cases hsome
        exact hiff
      · intro hiff
        exact ⟨v, core', rfl, hiff⟩
    rw [hconforms, SignTells]
    rcases requestFU_cases h with halloc | ⟨-, hnone, hpos⟩
    · obtain ⟨i, fu, hi, hcan, rfl, -⟩ := id halloc
      exact ⟨fun _ => ⟨hne, .inl ⟨fu, List.mem_of_getElem? hi, hcan⟩⟩,
        fun _ => ⟨fun _ => halloc, fun _ => by omega⟩⟩
    · have hnot : ¬ core.Allocates type now v core' := by
        rintro ⟨i, fu, hi, hcan, -⟩
        rw [hnone fu (List.mem_of_getElem? hi)] at hcan
        cases hcan
      have hno : ¬ ∃ fu ∈ core.FUs type, core.canUse now fu = true := by
        rintro ⟨fu, hfu, hcan⟩
        rw [hnone fu hfu] at hcan
        cases hcan
      rw [iff_false_right hnot, Int.not_le, hpos]
      exact ⟨fun h => ⟨hne, .inr h⟩, fun h => h.2.resolve_left hno⟩

/-- A unit whose port differs from the port of the allocated unit stays as it is. -/
theorem getElem?_allocate {i j : ℕ} {fu other : FunctionalUnit numPorts}
    (hi : (core.FUs type)[i]? = some fu) {otherType : FunctionalUnitType}
    (hj : (core.FUs otherType)[j]? = some other) (hport : other.portNumber ≠ fu.portNumber) :
    ((core.allocate type now i fu).FUs otherType)[j]? = some other := by
  by_cases htype : otherType = type
  · subst htype
    have hne : i ≠ j := by
      rintro rfl
      cases hi.symm.trans hj
      exact hport rfl
    simp only [allocate, Function.update_self]
    rw [List.getElem?_set_ne hne, hj]
  · simp only [allocate, Function.update_of_ne htype]
    exact hj

/-! ### The instructions that are issued -/

/-- `issueOthers`, with the instance of the unit that an issued instruction keeps. The check
for structural hazards at decode is the same. -/
def issueOthers (core : ExecutionCore numPorts) (opType : OperationType) (now : ℤ) :
    Option (Option ℤ × ExecutionCore numPorts) :=
  if opType.getFUType = .inValid then some (some 0, core)
  else (core.requestFU opType.getFUType now).map (fun answer =>
    (if answer.1 ≤ 0 then some ((-1) * answer.1) else none, answer.2))

end ExecutionCore

structure Issue where
  opType : OperationType
  time : ℤ
  FUInstance : ℤ

inductive CoreCall where
  | clearPortUsage
  | issueOthers (opType : OperationType) (now : ℤ)

/-- The units with the instructions that were issued in this cycle. -/
structure IssueState (numPorts : ℕ) where
  core : ExecutionCore numPorts
  issued : List Issue

namespace IssueState

variable {numPorts : ℕ}

def start (stepSize : ℤ) (cfg : FunctionalUnitType → UnitConfig numPorts) :
    IssueState numPorts :=
  ⟨.new stepSize cfg, []⟩

def next (s : IssueState numPorts) : CoreCall → Option (IssueState numPorts)
  | .clearPortUsage => some ⟨s.core.clearPortUsage, []⟩
  | .issueOthers opType now =>
    (s.core.issueOthers opType now).map (fun answer =>
      ⟨answer.2, s.issued ++ (answer.1.map (Issue.mk opType now)).toList⟩)

/-- The sign of the answer tells the caller what happened. -/
def CallSignTells (s : IssueState numPorts) : CoreCall → Prop
  | .clearPortUsage => True
  | .issueOthers opType now =>
    opType.getFUType ≠ .inValid → s.core.SignTells opType.getFUType now

instance : ∀ (s : IssueState numPorts) (call : CoreCall), Decidable (s.CallSignTells call)
  | _, .clearPortUsage => inferInstanceAs (Decidable True)
  | _, .issueOthers _ _ => inferInstanceAs (Decidable (_ → _))

variable (s : IssueState numPorts)

def unitOf (issue : Issue) : Option (FunctionalUnit numPorts) :=
  (s.core.FUs issue.opType.getFUType)[issue.FUInstance.toNat]?

/-- The unit is busy with the instruction, and so is its port. -/
def Holds (issue : Issue) (fu : FunctionalUnit numPorts) : Prop :=
  s.unitOf issue = some fu ∧
    fu.timeWhenFUAvailable = issue.time + fu.reciprocalOfThroughput * s.core.stepSize ∧
      s.core.portUsedThisCycle fu.portNumber = true

/-- The instructions of this cycle hold units of their own, on ports of their own. -/
structure OwnUnits : Prop where
  holds : ∀ issue ∈ s.issued, issue.opType.getFUType ≠ .inValid → ∃ fu, s.Holds issue fu
  ports : s.issued.Pairwise (fun a b => a.opType.getFUType ≠ .inValid →
    b.opType.getFUType ≠ .inValid → (s.unitOf a).map FunctionalUnit.portNumber ≠
      (s.unitOf b).map FunctionalUnit.portNumber)

variable {s}

/-- An instruction keeps the unit it holds when another unit is allocated. -/
theorem Holds.allocate {issue : Issue} {fu other : FunctionalUnit numPorts}
    {type : FunctionalUnitType} {now : ℤ} {i : ℕ} (h : s.Holds issue other)
    (hi : (s.core.FUs type)[i]? = some fu) (hcan : s.core.canUse now fu = true)
    (issued : List Issue) :
    Holds ⟨s.core.allocate type now i fu, issued⟩ issue other ∧
      other.portNumber ≠ fu.portNumber := by
  obtain ⟨hunit, htime, hused⟩ := h
  have hport : other.portNumber ≠ fu.portNumber := by
    intro heq
    have hfree : s.core.portUsedThisCycle fu.portNumber = false := (of_decide_eq_true hcan).2
    rw [heq, hfree] at hused
    cases hused
  refine ⟨⟨ExecutionCore.getElem?_allocate hi hunit hport, htime, ?_⟩, hport⟩
  simp only [ExecutionCore.allocate, Function.update_of_ne hport]
  exact hused

theorem holds_allocated {opType : OperationType} (now : ℤ) {i : ℕ}
    {fu : FunctionalUnit numPorts} (hi : (s.core.FUs opType.getFUType)[i]? = some fu)
    (issued : List Issue) :
    ∃ busy, Holds ⟨s.core.allocate opType.getFUType now i fu, issued⟩ ⟨opType, now, i⟩ busy ∧
      busy.portNumber = fu.portNumber := by
  refine ⟨{ fu with timeWhenFUAvailable := now + fu.reciprocalOfThroughput * s.core.stepSize },
    ⟨?_, rfl, ?_⟩, rfl⟩
  · have hlt : i < (s.core.FUs opType.getFUType).length := (List.getElem?_eq_some_iff.mp hi).1
    simp [unitOf, ExecutionCore.allocate, hlt]
  · simp [ExecutionCore.allocate]

/-- An instruction that gets a unit joins those of the cycle. -/
theorem OwnUnits.allocate (hown : s.OwnUnits) {opType : OperationType} {now : ℤ} {i : ℕ}
    {fu : FunctionalUnit numPorts} (hi : (s.core.FUs opType.getFUType)[i]? = some fu)
    (hcan : s.core.canUse now fu = true) :
    OwnUnits ⟨s.core.allocate opType.getFUType now i fu, s.issued ++ [⟨opType, now, i⟩]⟩ := by
  obtain ⟨busy, hbusy, hport⟩ :=
    holds_allocated now hi (s.issued ++ [⟨opType, now, i⟩])
  constructor
  · intro issue hissue hneeds
    rcases List.mem_append.mp hissue with hold | hnew
    · obtain ⟨other, hother⟩ := hown.holds issue hold hneeds
      exact ⟨other, (hother.allocate hi hcan _).1⟩
    · rw [List.mem_singleton.mp hnew]
      exact ⟨busy, hbusy⟩
  · refine List.pairwise_append.mpr ⟨?_, List.pairwise_singleton _ _, ?_⟩
    · refine hown.ports.imp_of_mem (fun {a b} ha hb hne hneedsa hneedsb => ?_)
      obtain ⟨fua, hfua⟩ := hown.holds a ha hneedsa
      obtain ⟨fub, hfub⟩ := hown.holds b hb hneedsb
      rw [(hfua.allocate hi hcan _).1.1, (hfub.allocate hi hcan _).1.1]
      rw [← hfua.1, ← hfub.1]
      exact hne hneedsa hneedsb
    · intro a ha b hb hneedsa _
      rw [List.mem_singleton.mp hb]
      obtain ⟨fua, hfua⟩ := hown.holds a ha hneedsa
      obtain ⟨hkept, hne⟩ := hfua.allocate hi hcan (s.issued ++ [⟨opType, now, i⟩])
      rw [hkept.1, hbusy.1, Option.map_some, Option.map_some, hport]
      exact fun heq => hne (Option.some.inj heq)

/-- An instruction that needs no unit joins those of the cycle, too. -/
theorem OwnUnits.skip (hown : s.OwnUnits) {issue : Issue}
    (hnone : issue.opType.getFUType = .inValid) : OwnUnits ⟨s.core, s.issued ++ [issue]⟩ := by
  constructor
  · intro other hother hneeds
    rcases List.mem_append.mp hother with hold | hnew
    · exact hown.holds other hold hneeds
    · rw [List.mem_singleton.mp hnew] at hneeds
      exact absurd hnone hneeds
  · refine List.pairwise_append.mpr ⟨hown.ports, List.pairwise_singleton _ _, ?_⟩
    intro a _ b hb _ hneeds
    rw [List.mem_singleton.mp hb] at hneeds
    exact absurd hnone hneeds

/-- A call whose answer the sign tells keeps the units apart. -/
theorem OwnUnits.next {call : CoreCall} {t : IssueState numPorts} (hown : s.OwnUnits)
    (htells : s.CallSignTells call) (hnext : s.next call = some t) : t.OwnUnits := by
  cases call with
  | clearPortUsage =>
    cases hnext
    exact ⟨fun _ h => absurd h List.not_mem_nil, List.Pairwise.nil⟩
  | issueOthers opType now =>
    by_cases hneeds : opType.getFUType = .inValid
    · rw [IssueState.next, ExecutionCore.issueOthers, if_pos hneeds] at hnext
      cases hnext
      exact hown.skip hneeds
    · rw [IssueState.next, ExecutionCore.issueOthers, if_neg hneeds] at hnext
      obtain ⟨issued, hissued, rfl⟩ := Option.map_eq_some_iff.mp hnext
      obtain ⟨⟨v, core'⟩, hrequest, rfl⟩ := Option.map_eq_some_iff.mp hissued
      rcases ExecutionCore.requestFU_cases hrequest with ⟨i, fu, hi, hcan, rfl, rfl⟩ |
        ⟨rfl, hnone, hpos⟩
      · have hle : -(i : ℤ) ≤ 0 := by omega
        have hinstance : (-1) * -(i : ℤ) = i := by omega
        simp only [if_pos hle, hinstance]
        exact hown.allocate hi hcan
      · have hv : 0 < v := by
          refine hpos.mpr ((htells hneeds).2.resolve_left ?_)
          rintro ⟨fu, hfu, hcan⟩
          rw [hnone fu hfu] at hcan
          cases hcan
        simp only [if_neg (Int.not_le.mpr hv), Option.map_none, Option.toList_none,
          List.append_nil]
        exact hown

/-- For every configuration of the units, after any calls and at every time: the answer to a
request is not positive exactly when it allocated a free unit with an unused port, if and only
if the type has a unit and either one can be used or none of them is still available from time
zero on. As long as this holds for each call, the instructions of a cycle hold units of their
own on ports of their own. -/
theorem conforms_iff_signTells (stepSize : ℤ) (cfg : FunctionalUnitType → UnitConfig numPorts) :
    (∀ calls s, Run (StepOf next) (start stepSize cfg) calls s →
      ∀ type now, s.core.Conforms type now ↔ s.core.SignTells type now) ∧
    ∀ calls s, Run (Guarded (StepOf next) CallSignTells) (start stepSize cfg) calls s →
      s.OwnUnits := by
  constructor
  · intro calls s _ type now
    exact ExecutionCore.conforms_iff
  · intro calls s run
    refine run.invariant ⟨fun _ h => absurd h List.not_mem_nil, List.Pairwise.nil⟩ ?_
    intro s call t hown hstep
    exact hown.next hstep.1 hstep.2

/-- The units of the default configuration, which has six ports. -/
def defaultUnits : FunctionalUnitType → UnitConfig 6
  | .inValid => ⟨0, 0, []⟩
  | .integerALU => ⟨1, 1, [1, 5]⟩
  | .integerMul => ⟨3, 1, [1]⟩
  | .integerDiv => ⟨21, 12, [0]⟩
  | .floatALU => ⟨3, 1, [1]⟩
  | .floatMul => ⟨5, 1, [0]⟩
  | .floatDiv => ⟨24, 12, [0]⟩
  | .memory => ⟨1, 1, [2, 3]⟩
  | .jump => ⟨1, 1, [5]⟩

/-- A division and a load in a cycle, and the same division again eleven cycles later. -/
def fewCalls : List CoreCall :=
  [.clearPortUsage, .issueOthers .integerDiv 7, .issueOthers .load 7, .clearPortUsage,
    .issueOthers .integerDiv 18, .issueOthers .store 18]

theorem conforms_iff_signTells_default : ∃ s,
    Run (Guarded (StepOf next) CallSignTells) (start 1 defaultUnits) fewCalls s ∧
      s.issued.length = 1 ∧ s.OwnUnits ∧
        (s.core.Conforms .jump 18 ↔ s.core.SignTells .jump 18) := by
  have hexec : (exec (fun s call => if s.CallSignTells call then s.next call else none)
      (start 1 defaultUnits) fewCalls).any (fun s => s.issued.length = 1) = true := by
    decide +kernel
  obtain ⟨s, hs, hlength⟩ := (Option.any_eq_true _ _).mp hexec
  have run := guarded_run_of_exec hs
  exact ⟨s, run, of_decide_eq_true hlength, (conforms_iff_signTells 1 defaultUnits).2 _ s run,
    (conforms_iff_signTells 1 defaultUnits).1 _ s run.of_guarded .jump 18⟩

/-- Two integer operations take both units of the default configuration. The first branch then
finds its unit free and the port of it used, and is told the time zero at which the unit became
available. -/
theorem not_conforms_jump : ¬ ∀ (stepSize : ℤ) (cfg : FunctionalUnitType → UnitConfig 6)
    (calls : List CoreCall) (s : IssueState 6), Run (StepOf next) (start stepSize cfg) calls s →
      ∀ type now, s.core.Conforms type now := by
  intro h
  have hexec : (exec next (start 1 defaultUnits)
      [.clearPortUsage, .issueOthers .integerALU 7, .issueOthers .integerALU 7]).any
        (fun s => !decide (s.core.SignTells .jump 7)) = true := by
    decide +kernel
  obtain ⟨s, hs, hnot⟩ := (Option.any_eq_true _ _).mp hexec
  have hconforms := h 1 defaultUnits _ s (run_of_exec hs) .jump 7
  rw [ExecutionCore.conforms_iff] at hconforms
  simp [hconforms] at hnot

end IssueState

end Tejas
